import Mathlib
import Lebirun.Ipv67.Asn

namespace Lebirun.Ipv67
set_option autoImplicit true

def addrStrMax : Nat := zoneMax + 1 + zoneMax + 1 + domainMax + 1 + nodeMax + 1 + nodeMax + 1

/-- `ipv67_addr_format` with the size of its buffer. -/
def addrFormatInto (a : Addr) (bufsz : Nat) : Except Err (List Char) :=
  if bufsz = 0 then .error .inval
  else
    let needed := a.zone1.length + 1 + a.zone2.length + 1 + a.domain.length + 1 + a.node1.length + 1 +
      a.node2.length + 1
    if bufsz < needed then .error .toolong else .ok (addrFormat a)

/-- One part of the dotted text. -/
structure IsPart (most : Nat) (ok : Char → Bool) (part : List Char) : Prop where
  some : 1 ≤ part.length
  fits : part.length ≤ most
  chars : ∀ c ∈ part, ok c = true

/-- The five parts as the grammar has them. -/
structure Addr.WellFormed (a : Addr) : Prop where
  zone1 : IsPart zoneMax isHexChar a.zone1
  zone2 : IsPart zoneMax isHexChar a.zone2
  domain : IsPart domainMax isDomainChar a.domain
  node1 : IsPart nodeMax isHexChar a.node1
  node2 : IsPart nodeMax isHexChar a.node2

/-- The number a hexadecimal text denotes. -/
def hexNumber (s : List Char) : Nat := s.foldl (fun v c => v * 16 + hexDigit c) 0

/-- The hexadecimal parts are the same numbers and the domains the same text. -/
structure Addr.SameNumbers (a b : Addr) : Prop where
  zone1 : hexNumber a.zone1 = hexNumber b.zone1
  zone2 : hexNumber a.zone2 = hexNumber b.zone2
  domain : a.domain = b.domain
  node1 : hexNumber a.node1 = hexNumber b.node1
  node2 : hexNumber a.node2 = hexNumber b.node2

section Parse

variable {most : Nat} {ok : Char → Bool} {p part rest s : List Char} {a b : Addr}

theorem isHexChar_dot : isHexChar '.' = false := by decide

theorem isDomainChar_dot : isDomainChar '.' = false := by decide

theorem IsPart.no_dot (h : IsPart most ok part) (hdot : ok '.' = false) : ∀ c ∈ part, (c != '.') = true := by
  intro c hc
  rw [bne_iff_ne]
  intro heq
  have hok := h.chars c hc
  rw [heq, hdot] at hok
  cases hok

/-- A part ends at the next dot or at the end of the text. -/
theorem addrPart_ok_iff (hdot : ok '.' = false) :
    addrPart most ok p = .ok (part, rest) ↔
      p = part ++ rest ∧ IsPart most ok part ∧ ∀ c r, rest = c :: r → c = '.' := by
  rw [addrPart]
  constructor
  · intro h
    split at h
    · cases h
    split at h
    · cases h
    split at h
    · rename_i hempty hlong hall
      cases h
      refine ⟨List.takeWhile_append_dropWhile.symm, ⟨by omega, by omega, List.all_eq_true.mp hall⟩, ?_⟩
      intro c r hrest
      have hstop := List.head?_dropWhile_not (· != '.') p
      rw [hrest] at hstop
      simpa using hstop
    · cases h
  · intro h
    obtain ⟨rfl, hpart, hstop⟩ := h
    have hnone : rest.takeWhile (· != '.') = [] ∧ rest.dropWhile (· != '.') = rest := by
      cases rest with
      | nil => exact ⟨rfl, rfl⟩
      | cons c r =>
        obtain rfl := hstop c r rfl
        exact ⟨rfl, rfl⟩
    have hpos := hpart.no_dot hdot
    have hsome := hpart.some
    have hfits := hpart.fits
    rw [List.takeWhile_append_of_pos hpos, List.dropWhile_append_of_pos hpos, hnone.1, hnone.2,
      List.append_nil, if_neg (by omega), if_neg (by omega), if_pos (List.all_eq_true.mpr hpart.chars)]

theorem skipDot_ok_iff : skipDot p = .ok rest ↔ p = '.' :: rest := by
  constructor
  · intro h
    cases p with
    | nil => cases h
    | cons c p =>
      rw [skipDot.eq_def] at h
      split at h
      · rename_i heq
        cases heq
        cases h
        rfl
      · cases h
  · intro h
    rw [h]
    rfl

/-- A sequence of two steps succeeds when both do. -/
theorem bind_ok_iff {α β : Type} {x : Except Err α} {f : α → Except Err β} {r : β} :
    (x >>= f) = .ok r ↔ ∃ y, x = .ok y ∧ f y = .ok r := by
  constructor
  · intro h
    cases x with
    | error e => cases h
    | ok y => exact ⟨y, rfl, h⟩
  · intro h
    obtain ⟨y, hx, hf⟩ := h
    rw [hx]
    exact hf

/-- The text is taken exactly when it is the five parts of an address with dots between them. -/
theorem addrParse_ok_iff : addrParse s = .ok a ↔ a.WellFormed ∧ s = addrFormat a := by
  constructor
  · intro h
    rw [addrParse] at h
    obtain ⟨⟨zone1, p₁⟩, h₁, h⟩ := bind_ok_iff.mp h
    obtain ⟨q₁, hq₁, h⟩ := bind_ok_iff.mp h
    obtain ⟨⟨zone2, p₂⟩, h₂, h⟩ := bind_ok_iff.mp h
    obtain ⟨q₂, hq₂, h⟩ := bind_ok_iff.mp h
    obtain ⟨⟨domain, p₃⟩, h₃, h⟩ := bind_ok_iff.mp h
    obtain ⟨q₃, hq₃, h⟩ := bind_ok_iff.mp h
    obtain ⟨⟨node1, p₄⟩, h₄, h⟩ := bind_ok_iff.mp h
    obtain ⟨q₄, hq₄, h⟩ := bind_ok_iff.mp h
    obtain ⟨⟨node2, p₅⟩, h₅, h⟩ := bind_ok_iff.mp h
    obtain ⟨hs, hz1, -⟩ := (addrPart_ok_iff isHexChar_dot).mp h₁
    obtain ⟨hp₁, hz2, -⟩ := (addrPart_ok_iff isHexChar_dot).mp h₂
    obtain ⟨hp₂, hdomain, -⟩ := (addrPart_ok_iff isDomainChar_dot).mp h₃
    obtain ⟨hp₃, hn1, -⟩ := (addrPart_ok_iff isHexChar_dot).mp h₄
    obtain ⟨hp₄, hn2, -⟩ := (addrPart_ok_iff isHexChar_dot).mp h₅
    rw [skipDot_ok_iff] at hq₁ hq₂ hq₃ hq₄
    dsimp only at hs hp₁ hp₂ hp₃ hp₄ h
    split at h
    · rename_i hend
      cases h
      refine ⟨⟨hz1, hz2, hdomain, hn1, hn2⟩, ?_⟩
      rw [hs, hq₁, hp₁, hq₂, hp₂, hq₃, hp₃, hq₄, hp₄, hend, addrFormat, List.append_nil]
      simp only [List.append_assoc, List.cons_append]
    · cases h
  · intro h
    obtain ⟨hform, rfl⟩ := h
    have hdot : ∀ r : List Char, ∀ c r', '.' :: r = c :: r' → c = '.' := by
      intro r c r' heq
      cases heq
      rfl
    have hend : ∀ c r, ([] : List Char) = c :: r → c = '.' := by
      intro c r heq
      cases heq
    rw [addrParse, addrFormat]
    simp only [List.append_assoc, List.cons_append]
    refine bind_ok_iff.mpr ⟨_, (addrPart_ok_iff isHexChar_dot).mpr ⟨rfl, hform.zone1, hdot _⟩, ?_⟩
    refine bind_ok_iff.mpr ⟨_, skipDot_ok_iff.mpr rfl, ?_⟩
    refine bind_ok_iff.mpr ⟨_, (addrPart_ok_iff isHexChar_dot).mpr ⟨rfl, hform.zone2, hdot _⟩, ?_⟩
    refine bind_ok_iff.mpr ⟨_, skipDot_ok_iff.mpr rfl, ?_⟩
    refine bind_ok_iff.mpr ⟨_, (addrPart_ok_iff isDomainChar_dot).mpr ⟨rfl, hform.domain, hdot _⟩, ?_⟩
    refine bind_ok_iff.mpr ⟨_, skipDot_ok_iff.mpr rfl, ?_⟩
    refine bind_ok_iff.mpr ⟨_, (addrPart_ok_iff isHexChar_dot).mpr ⟨rfl, hform.node1, hdot _⟩, ?_⟩
    refine bind_ok_iff.mpr ⟨_, skipDot_ok_iff.mpr rfl, ?_⟩
    refine bind_ok_iff.mpr ⟨_, (addrPart_ok_iff isHexChar_dot).mpr ⟨(List.append_nil _).symm, hform.node2, hend⟩, ?_⟩
    exact if_pos rfl

/-- The text of an address fits the buffer for the longest one. -/
theorem addrFormatInto_wellFormed (h : a.WellFormed) : addrFormatInto a addrStrMax = .ok (addrFormat a) := by
  have h1 : a.zone1.length ≤ 6 := h.zone1.fits
  have h2 : a.zone2.length ≤ 6 := h.zone2.fits
  have h3 : a.domain.length ≤ 32 := h.domain.fits
  have h4 : a.node1.length ≤ 6 := h.node1.fits
  have h5 : a.node2.length ≤ 6 := h.node2.fits
  have hmax : addrStrMax = 61 := rfl
  rw [addrFormatInto, if_neg (by omega)]
  dsimp only
  rw [if_neg (by omega)]

end Parse

section Order

variable {s : List Char} {a b : Addr} {n : Nat}

theorem hexDigit_lt (c : Char) : hexDigit c < 16 := by
  have hrange : ∀ lo hi : Char, (decide (lo ≤ c) && decide (c ≤ hi)) = true →
      lo.toNat ≤ c.toNat ∧ c.toNat ≤ hi.toNat := by
    intro lo hi h
    rw [Bool.and_eq_true, decide_eq_true_eq, decide_eq_true_eq] at h
    exact h
  rw [hexDigit]
  split
  · rename_i h
    have hdigit : c.toNat ≤ 57 := (hrange '0' '9' h).2
    change c.toNat - 48 < 16
    omega
  split
  · rename_i h
    have hlower : c.toNat ≤ 102 := (hrange 'a' 'f' h).2
    change c.toNat - 97 + 10 < 16
    omega
  split
  · rename_i h
    have hupper : c.toNat ≤ 70 := (hrange 'A' 'F' h).2
    change c.toNat - 65 + 10 < 16
    omega
  · decide

/-- No digit is shifted out of a part of up to eight. -/
theorem hexPartValue_eq (h : s.length ≤ 8) : hexPartValue s = hexNumber s := by
  have hfold : ∀ (s : List Char) (v k : Nat), v < 16 ^ k → k + s.length ≤ 8 →
      s.foldl (fun v c => v * 16 % 2 ^ 32 + hexDigit c) v = s.foldl (fun v c => v * 16 + hexDigit c) v := by
    intro s
    induction s with
    | nil => exact fun _ _ _ _ => rfl
    | cons c s ih =>
      intro v k hv hk
      rw [List.length_cons] at hk
      have hpow : 16 ^ (k + 1) ≤ 16 ^ 8 := Nat.pow_le_pow_right (by decide) (by omega)
      have hdigit := hexDigit_lt c
      have hsmall : v * 16 < 2 ^ 32 := by
        rw [Nat.pow_succ] at hpow
        omega
      rw [List.foldl_cons, List.foldl_cons, Nat.mod_eq_of_lt hsmall]
      apply ih _ (k + 1)
      · rw [Nat.pow_succ]
        omega
      · omega
  exact hfold s 0 0 (by decide) (by omega)

theorem partCmp_hex_iff (hs : s.length ≤ 8) (ht : t.length ≤ 8) :
    partCmp s t true = .eq ↔ hexNumber s = hexNumber t := by
  rw [partCmp, if_pos rfl, hexPartValue_eq hs, hexPartValue_eq ht]
  exact Nat.compare_eq_eq

theorem partCmp_text_iff : partCmp s t false = .eq ↔ s = t := by
  rw [partCmp, if_neg Bool.false_ne_true, Std.LawfulEqCmp.compare_eq_iff_eq]
  constructor
  · intro h
    exact List.map_injective_iff.mpr (fun c d hcd => Char.toNat_inj.mp hcd) h
  · intro h
    rw [h]

/-- Two addresses of the grammar are equal in the order when they are the same numbers and domain. -/
theorem addrCmpOrder_eq_iff (ha : a.WellFormed) (hb : b.WellFormed) :
    addrCmpOrder a b = .eq ↔ a.SameNumbers b := by
  have hshort : ∀ {s : List Char}, IsPart 6 isHexChar s → s.length ≤ 8 := fun h => h.fits.trans (by decide)
  rw [addrCmpOrder, Ordering.then_eq_eq, Ordering.then_eq_eq, Ordering.then_eq_eq, Ordering.then_eq_eq,
    partCmp_hex_iff (hshort ha.zone1) (hshort hb.zone1), partCmp_hex_iff (hshort ha.zone2) (hshort hb.zone2),
    partCmp_text_iff, partCmp_hex_iff (hshort ha.node1) (hshort hb.node1),
    partCmp_hex_iff (hshort ha.node2) (hshort hb.node2)]
  exact ⟨fun h => ⟨h.1, h.2.1, h.2.2.1, h.2.2.2.1, h.2.2.2.2⟩,
    fun h => ⟨h.zone1, h.zone2, h.domain, h.node1, h.node2⟩⟩

/-- A claim covers with an address every spelling of it. -/
theorem AsnClaim.has_congr {K : Type} (claim : AsnClaim K) (h : addrCmpOrder a b = .eq) :
    claim.has a = claim.has b := by
  rw [AsnClaim.has, AsnClaim.has, Std.TransCmp.congr_left h, Std.TransCmp.congr_left h]

/-- The text of an address, its equality and its order: what is parsed is the grammar and is formatted
back as it was; the order is a total preorder that takes two addresses for one when their parts are the
same numbers and their domains the same text, as they are for equal addresses. -/
theorem addr_text_and_order :
    (∀ s a, addrParse s = .ok a ↔ a.WellFormed ∧ s = addrFormat a) ∧
    (∀ s a, addrParse s = .ok a → addrFormatInto a addrStrMax = .ok s) ∧
    ((∀ a : Addr, a ≤ a) ∧ (∀ a b d : Addr, a ≤ b → b ≤ d → a ≤ d) ∧ ∀ a b : Addr, a ≤ b ∨ b ≤ a) ∧
    (∀ s t a b, addrParse s = .ok a → addrParse t = .ok b →
      (addrCmpOrder a b = .eq ↔ a.SameNumbers b) ∧ (addrEq a b = true → addrCmpOrder a b = .eq)) ∧
    ∀ (K : Type) (claim : AsnClaim K) (s t : List Char) (a b : Addr), addrParse s = .ok a →
      addrParse t = .ok b → a.SameNumbers b → claim.has a = claim.has b := by
  refine ⟨fun s a => addrParse_ok_iff, fun s a h => ?_, ⟨addr_le_refl, fun a b d => addr_le_trans, addr_le_total⟩,
    fun s t a b hs ht => ?_, fun K claim s t a b hs ht hsame => ?_⟩
  · obtain ⟨hform, rfl⟩ := addrParse_ok_iff.mp h
    exact addrFormatInto_wellFormed hform
  · have ha := (addrParse_ok_iff.mp hs).1
    have hb := (addrParse_ok_iff.mp ht).1
    refine ⟨addrCmpOrder_eq_iff ha hb, fun heq => ?_⟩
    rw [addrEq_iff] at heq
    rw [heq]
    exact Std.ReflCmp.compare_self
  · have ha := (addrParse_ok_iff.mp hs).1
    have hb := (addrParse_ok_iff.mp ht).1
    exact claim.has_congr ((addrCmpOrder_eq_iff ha hb).mpr hsame)

/-- `0a.1.x.1.1` and `A.1.x.1.1` are two addresses with one place in the order. -/
theorem twoSpellings_differ :
    ∃ a b, addrParse ['0', 'a', '.', '1', '.', 'x', '.', '1', '.', '1'] = .ok a ∧
      addrParse ['A', '.', '1', '.', 'x', '.', '1', '.', '1'] = .ok b ∧
      addrCmpOrder a b = .eq ∧ addrEq a b = false :=
  ⟨⟨['0', 'a'], ['1'], ['x'], ['1'], ['1']⟩, ⟨['A'], ['1'], ['x'], ['1'], ['1']⟩, rfl, rfl, by decide, by decide⟩

end Order

end Lebirun.Ipv67
