import Mathlib
import Lebirun.Lib.Bits
import Lebirun.Paging.Tables

namespace Lebirun.Paging
open Bits
set_option autoImplicit true

/-! What the tables say, page by page. -/

/-- The pages that the tables are in. -/
inductive Node where
  | pml4
  | pdpt
  | pd (i : Fin 512)
  | pt (i j : Fin 512)
  deriving DecidableEq

/-- The page directory an entry leads to. -/
def directoryAt (e : Nat) : Option Nat := if e &&& 1 = 0 then none else some (e &&& PHYS_MASK)

/-- The page table an entry leads to. -/
def tableAt (e : Nat) : Option Nat := if e &&& 1 = 0 ∨ e &&& 0x80 ≠ 0 then none else some (e &&& PHYS_MASK)

/-- The physical address of a table, where there is one. -/
def addr (s : State) : Node → Option Nat
  | .pml4 => some s.pml4
  | .pdpt => some s.pdptHigh
  | .pd i => directoryAt (s.mem s.pdptHigh i)
  | .pt i j => (directoryAt (s.mem s.pdptHigh i)).bind fun a => tableAt (s.mem a j)

/-- The entry of a page directory, 0 where there is none. -/
def entry (s : State) (i j : Fin 512) : Nat := (addr s (.pd i)).elim 0 fun a => s.mem a j

/-- The entry of a page table. -/
def leaf (s : State) (i j k : Fin 512) : Nat := (addr s (.pt i j)).elim 0 fun a => s.mem a k

/-- What the entries above a page directory leave of the rights. -/
def top (s : State) (i : Fin 512) : Nat :=
  combine (combine (VMM_PTE_PRESENT ||| VMM_PTE_WRITE ||| VMM_PTE_USER) (s.mem s.pml4 (Fin.last 511))) (s.mem s.pdptHigh i)

theorem top_eq (s : State) (i : Fin 512) : top s i =
    combine (combine (VMM_PTE_PRESENT ||| VMM_PTE_WRITE ||| VMM_PTE_USER) (s.mem s.pml4 511)) (s.mem s.pdptHigh i) := rfl

/-- A page as it is mapped; `flags` are those of an entry of a page table. -/
structure Mapping where
  phys : Nat
  flags : Nat
  effective : Nat
  deriving DecidableEq

/-- What the walk of the source found, for page `k` of a large page. -/
def Leaf.mapping (l : Leaf) (k : Fin 512) : Option Mapping :=
  if l.entry &&& 1 = 0 then none
  else if l.huge then some ⟨(l.entry &&& HUGE_MASK) + k.val * PAGE_SIZE, leafFlags l.entry, l.effective⟩
  else some ⟨l.entry &&& PHYS_MASK, l.entry &&& LEAF_FLAGS, l.effective⟩

/-- The page that a kernel address is in, as the walk of the source finds it. -/
def translate (s : State) (virtAddr : Nat) : Option Mapping :=
  (ptKernelWalkLeaf s s.pml4 virtAddr).bind fun l => l.mapping (ix virtAddr 12)

/-- The same by the indices into the tables. -/
def lookup (s : State) (i j k : Fin 512) : Option Mapping :=
  if entry s i j &&& 1 = 0 then none
  else if entry s i j &&& 0x80 ≠ 0 then
    some ⟨(entry s i j &&& HUGE_MASK) + k.val * PAGE_SIZE, leafFlags (entry s i j), combine (top s i) (entry s i j)⟩
  else if leaf s i j k &&& 1 = 0 then none
  else some ⟨leaf s i j k &&& PHYS_MASK, leaf s i j k &&& LEAF_FLAGS,
    combine (combine (top s i) (entry s i j)) (leaf s i j k)⟩

abbrev Page := Fin 512 × Fin 512 × Fin 512

def page (v : Nat) : Page := (ix v 30, ix v 21, ix v 12)

/-- What the pages are mapped to. -/
def space (s : State) : Page → Option Mapping := fun q => lookup s q.1 q.2.1 q.2.2

/-- An entry that leads to a table: no bits over the address, and the right to write. -/
def Clean (e : Nat) : Prop := e < 2 ^ 52 ∧ e &&& 2 ≠ 0

/-- A free frame, which no table is in. -/
def Free (s : State) (p : Nat) : Prop := p &&& PHYS_MASK = p ∧ ∀ n, addr s n ≠ some p

/-- The tables are a tree whose entries leave the rights to those below, and none of them is in a free frame. -/
structure Wf (s : State) : Prop where
  root : s.pml4 &&& PAGE_MASK = s.pml4
  high : s.mem s.pml4 511 &&& 1 ≠ 0 ∧ Clean (s.mem s.pml4 511) ∧ s.mem s.pml4 511 &&& PHYS_MASK = s.pdptHigh
  distinct : ∀ n m a, addr s n = some a → addr s m = some a → n = m
  directory : ∀ i, s.mem s.pdptHigh i &&& 1 ≠ 0 → Clean (s.mem s.pdptHigh i)
  table : ∀ i j, entry s i j &&& 1 ≠ 0 → entry s i j &&& 0x80 = 0 → Clean (entry s i j)
  free : ∀ p ∈ s.pages, Free s p
  nodup : s.pages.Nodup

variable {s s' : State} {i j k : Fin 512} {a e w p v : Nat}

/-! The walk of the source. -/

theorem ix_top (hv : KERNEL_VMA ≤ v) (hlt : v < 2 ^ 64) : ix v 39 = 511 := by
  apply Fin.ext
  show v >>> 39 % 512 = 511
  rw [Nat.shiftRight_eq_div_pow]
  have : KERNEL_VMA = 0xffffffff80000000 := rfl
  omega

theorem addr_pt : addr s (.pt i j) = (addr s (.pd i)).bind fun _ => tableAt (entry s i j) := by
  rw [entry]
  cases h : addr s (.pd i) with
  | none => rw [addr, ← addr, h, Option.bind_none, Option.bind_none]
  | some a => rw [addr, ← addr, h, Option.bind_some, Option.bind_some, Option.elim_some]

theorem entry_of_none (h : addr s (.pd i) = none) : entry s i j = 0 := by
  rw [entry, h]
  rfl

theorem lookup_absent (h : entry s i j &&& 1 = 0) : lookup s i j k = none := if_pos h

theorem tableAt_absent (h : e &&& 1 = 0) : tableAt e = none := if_pos (.inl h)

theorem translate_space (h : Wf s) (hv : KERNEL_VMA ≤ v) (hlt : v < 2 ^ 64) : translate s v = space s (page v) := by
  obtain ⟨hpresent, hclean, hnext⟩ := h.high
  have hwalk : ptKernelWalkLeaf s s.pml4 v =
      walkLoop s v [39, 30, 21, 12] s.pml4 (VMM_PTE_PRESENT ||| VMM_PTE_WRITE ||| VMM_PTE_USER) := by
    rw [ptKernelWalkLeaf, if_neg]
    rintro (hne | hbelow)
    · exact hne h.root
    · exact absurd hbelow (Nat.not_lt.2 hv)
  rw [translate, hwalk, walkLoop, ix_top hv hlt]
  dsimp only
  rw [if_neg hpresent, if_neg (fun h' => absurd h'.1 (by decide)), if_neg (by decide), hnext, walkLoop]
  show _ = lookup s (ix v 30) (ix v 21) (ix v 12)
  dsimp only
  by_cases hdir : s.mem s.pdptHigh (ix v 30) &&& 1 = 0
  · have hzero : entry s (ix v 30) (ix v 21) = 0 := entry_of_none (if_pos hdir)
    rw [if_pos hdir, if_pos (by decide), lookup_absent (by rw [hzero, Nat.zero_and])]
    rfl
  have hpd : addr s (.pd (ix v 30)) = some (s.mem s.pdptHigh (ix v 30) &&& PHYS_MASK) := if_neg hdir
  have hentry : entry s (ix v 30) (ix v 21) = s.mem (s.mem s.pdptHigh (ix v 30) &&& PHYS_MASK) (ix v 21) := by
    rw [entry, hpd]
    rfl
  rw [if_neg hdir, if_neg (fun h' => absurd h'.1 (by decide)), if_neg (by decide), walkLoop, ← hentry, lookup]
  dsimp only
  by_cases hent : entry s (ix v 30) (ix v 21) &&& 1 = 0
  · rw [if_pos hent, if_pos hent, if_pos (by decide)]
    rfl
  rw [if_neg hent, if_neg hent]
  by_cases hhuge : entry s (ix v 30) (ix v 21) &&& 0x80 = 0
  · have hleaf : leaf s (ix v 30) (ix v 21) (ix v 12) =
        s.mem (entry s (ix v 30) (ix v 21) &&& PHYS_MASK) (ix v 12) := by
      rw [leaf, addr_pt, hpd, Option.bind_some, tableAt, if_neg (by rintro (h' | h'); exacts [hent h', h' hhuge])]
      rfl
    rw [if_neg (fun h' => h'.2 hhuge), if_neg (by decide), if_neg (not_not_intro hhuge), walkLoop, ← hleaf]
    dsimp only
    by_cases hpte : leaf s (ix v 30) (ix v 21) (ix v 12) &&& 1 = 0
    · rw [if_pos hpte, if_neg (by decide), if_pos hpte, Option.bind_some, Leaf.mapping, if_pos hpte]
    · rw [if_neg hpte, if_neg (fun h' => absurd h'.1 (by decide)), if_pos rfl, if_neg hpte, Option.bind_some, Leaf.mapping,
        if_neg hpte]
      rfl
  · rw [if_pos ⟨rfl, hhuge⟩, if_pos hhuge, Option.bind_some, Leaf.mapping, if_neg hent]
    rfl

end Lebirun.Paging
