import Mathlib.Algebra.Group.Nat.Defs
import Mathlib.Data.Ordering.Basic
import Mathlib.Order.Defs.PartialOrder

namespace Lebirun.Ipv67
set_option autoImplicit true

/-- The error codes of the module. -/
inductive Err
  | inval | noroute | nopeer | toolong | nomem
deriving DecidableEq, Repr

def zoneMax : Nat := 6
def domainMax : Nat := 32
def nodeMax : Nat := 6

/-- An address, its five parts as the strings the structure holds. -/
structure Addr where
  zone1 : List Char
  zone2 : List Char
  domain : List Char
  node1 : List Char
  node2 : List Char
deriving DecidableEq, Repr

/-- The address of zeroed memory. -/
def Addr.empty : Addr := ⟨[], [], [], [], []⟩

def isHexChar (c : Char) : Bool :=
  ('0' ≤ c && c ≤ '9') || ('a' ≤ c && c ≤ 'f') || ('A' ≤ c && c ≤ 'F')

def isDomainChar (c : Char) : Bool :=
  ('a' ≤ c && c ≤ 'z') || ('A' ≤ c && c ≤ 'Z') || ('0' ≤ c && c ≤ '9') || c == '-' || c == '_'

/-- One turn of the loop of `ipv67_addr_parse`: the text up to the next dot. -/
def addrPart (most : Nat) (ok : Char → Bool) (p : List Char) : Except Err (List Char × List Char) :=
  let part := p.takeWhile (· != '.')
  if part.length = 0 then .error .inval
  else if part.length > most then .error .toolong
  else if part.all ok then .ok (part, p.dropWhile (· != '.')) else .error .inval

def skipDot : List Char → Except Err (List Char)
  | '.' :: p => .ok p
  | _ => .error .inval

/-- `ipv67_addr_parse` -/
def addrParse (str : List Char) : Except Err Addr := do
  let (zone1, p) ← addrPart zoneMax isHexChar str
  let (zone2, p) ← addrPart zoneMax isHexChar (← skipDot p)
  let (domain, p) ← addrPart domainMax isDomainChar (← skipDot p)
  let (node1, p) ← addrPart nodeMax isHexChar (← skipDot p)
  let (node2, p) ← addrPart nodeMax isHexChar (← skipDot p)
  if p = [] then .ok ⟨zone1, zone2, domain, node1, node2⟩ else .error .inval

/-- `ipv67_addr_format` -/
def addrFormat (a : Addr) : List Char :=
  a.zone1 ++ '.' :: a.zone2 ++ '.' :: a.domain ++ '.' :: a.node1 ++ '.' :: a.node2

/-- `ipv67_addr_eq` -/
def addrEq (a b : Addr) : Bool :=
  a.zone1 == b.zone1 && a.zone2 == b.zone2 && a.domain == b.domain &&
    a.node1 == b.node1 && a.node2 == b.node2

@[simp] theorem addrEq_iff : addrEq a b = true ↔ a = b := by
  cases a
  cases b
  simp [addrEq, and_assoc]

theorem addrEq_self (a : Addr) : addrEq a a = true := addrEq_iff.mpr rfl

def hexDigit (c : Char) : Nat :=
  if '0' ≤ c && c ≤ '9' then c.toNat - '0'.toNat
  else if 'a' ≤ c && c ≤ 'f' then c.toNat - 'a'.toNat + 10
  else if 'A' ≤ c && c ≤ 'F' then c.toNat - 'A'.toNat + 10
  else 0

/-- `ipv67_hex_part_value` -/
def hexPartValue (s : List Char) : Nat :=
  s.foldl (fun v c => v * 16 % 2 ^ 32 + hexDigit c) 0

/-- `ipv67_part_cmp`: by value for the hexadecimal parts, `strcmp` for the domain. -/
def partCmp (a b : List Char) (hex : Bool) : Ordering :=
  if hex then compare (hexPartValue a) (hexPartValue b)
  else compare (a.map Char.toNat) (b.map Char.toNat)

/-- `ipv67_addr_cmp_order` -/
def addrCmpOrder (a b : Addr) : Ordering :=
  (partCmp a.zone1 b.zone1 true).then <|
  (partCmp a.zone2 b.zone2 true).then <|
  (partCmp a.domain b.domain false).then <|
  (partCmp a.node1 b.node1 true).then <|
  partCmp a.node2 b.node2 true

theorem addrCmpOrder_eq :
    addrCmpOrder =
      compareLex (compareOn fun a => hexPartValue a.zone1) (compareLex
        (compareOn fun a => hexPartValue a.zone2) (compareLex
        (compareOn fun a => a.domain.map Char.toNat) (compareLex
        (compareOn fun a => hexPartValue a.node1)
        (compareOn fun a => hexPartValue a.node2)))) := rfl

instance : Std.TransCmp addrCmpOrder := by
  rw [addrCmpOrder_eq]
  infer_instance

/-- The order of addresses, total but not antisymmetric: `0a` and `A` are one number. -/
instance : LE Addr := ⟨fun a b => addrCmpOrder a b ≠ .gt⟩

instance (a b : Addr) : Decidable (a ≤ b) := inferInstanceAs (Decidable (addrCmpOrder a b ≠ .gt))

theorem addr_le_iff {a b : Addr} : a ≤ b ↔ (addrCmpOrder a b).isLE := by
  change addrCmpOrder a b ≠ .gt ↔ _
  cases addrCmpOrder a b <;> simp

theorem addr_not_le_iff {a b : Addr} : ¬ a ≤ b ↔ addrCmpOrder a b = .gt := Decidable.not_not

theorem addr_le_refl (a : Addr) : a ≤ a :=
  addr_le_iff.mpr Std.ReflCmp.isLE_rfl

theorem addr_le_trans {a b d : Addr} (h : a ≤ b) (h' : b ≤ d) : a ≤ d :=
  addr_le_iff.mpr (Std.TransCmp.isLE_trans (addr_le_iff.mp h) (addr_le_iff.mp h'))

theorem addr_le_total (a b : Addr) : a ≤ b ∨ b ≤ a := by
  cases h : decide (a ≤ b) with
  | true => exact .inl (of_decide_eq_true h)
  | false =>
    have hgt := addr_not_le_iff.mp (of_decide_eq_false h)
    have hswap : addrCmpOrder b a = (addrCmpOrder a b).swap := Std.OrientedCmp.eq_swap
    rw [hgt] at hswap
    exact .inr (addr_le_iff.mpr (by rw [hswap]; rfl))

instance : Preorder Addr where
  le_refl := addr_le_refl
  le_trans _ _ _ := addr_le_trans

instance : Std.Total (fun a b : Addr => a ≤ b) := ⟨addr_le_total⟩

end Lebirun.Ipv67
