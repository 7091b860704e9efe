import Mathlib
import Lebirun.Lib.Bits
import Lebirun.Paging.Edit

namespace Lebirun.Paging
open Bits
set_option autoImplicit true

/-! The words of the tables: an address and flags. -/

variable {a c e f m t x : Nat}

theorem phys_mask (x : Nat) : x &&& PHYS_MASK = x / 2 ^ 12 % 2 ^ 40 * 2 ^ 12 := and_field x 40 12

theorem page_mask (x : Nat) : x &&& PAGE_MASK = x / 2 ^ 12 % 2 ^ 52 * 2 ^ 12 := and_field x 52 12

theorem huge_mask (x : Nat) : x &&& HUGE_MASK = x / 2 ^ 21 % 2 ^ 31 * 2 ^ 21 := and_field x 31 21

theorem phys_iff : a &&& PHYS_MASK = a ↔ a % 2 ^ 12 = 0 ∧ a < 2 ^ 52 := by
  rw [phys_mask]
  omega

theorem page_of_phys (ha : a &&& PHYS_MASK = a) : a &&& PAGE_MASK = a := by
  rw [phys_iff] at ha
  rw [page_mask]
  omega

theorem masks_eq (he : e < 2 ^ 52) : e &&& PAGE_MASK = e &&& PHYS_MASK := by
  rw [page_mask, phys_mask]
  omega

theorem phys_phys (x : Nat) : x &&& PHYS_MASK &&& PHYS_MASK = x &&& PHYS_MASK := by
  rw [Nat.and_assoc, Nat.and_self]

/-- A field of a part of a word. -/
theorem and_sub (hc : m &&& c = c) : x &&& m &&& c = x &&& c := by rw [Nat.and_assoc, hc]

theorem and_disjoint (hx : x &&& m = x) (hc : m &&& c = 0) : x &&& c = 0 := by
  rw [← hx, Nat.and_assoc, hc, Nat.and_zero]

theorem word_and (ha : a &&& PHYS_MASK = a) (hc : PHYS_MASK &&& c = 0) : (a ||| f) &&& c = f &&& c := by
  rw [Nat.and_or_distrib_right, and_disjoint ha hc, Nat.zero_or]

theorem word_phys (ha : a &&& PHYS_MASK = a) (hf : f &&& LEAF_FLAGS = f) : (a ||| f) &&& PHYS_MASK = a := by
  rw [Nat.and_or_distrib_right, ha, and_disjoint hf (by decide), Nat.or_zero]

theorem word_flags (ha : a &&& PHYS_MASK = a) (hf : f &&& LEAF_FLAGS = f) : (a ||| f) &&& LEAF_FLAGS = f := by
  rw [word_and ha (by decide), hf]

theorem combine_congr (hw : x &&& VMM_PTE_WRITE = e &&& VMM_PTE_WRITE) (hu : x &&& VMM_PTE_USER = e &&& VMM_PTE_USER)
    (hn : x &&& VMM_PTE_NX = e &&& VMM_PTE_NX) : combine t x = combine t e := by
  rw [combine, combine, hw, hu, hn]

theorem combine_word (ha : a &&& PHYS_MASK = a) : combine t (a ||| f) = combine t f :=
  combine_congr (word_and ha (by decide)) (word_and ha (by decide)) (word_and ha (by decide))

theorem combine_clean (he : Clean e) (t : Nat) : combine t e = if e &&& 4 = 0 then t &&& 0xfffffffffffffffb else t := by
  have hnx : e &&& VMM_PTE_NX = 0 := by
    have h := and_field e 1 63
    rw [Nat.div_eq_of_lt (he.1.trans (by decide))] at h
    exact h
  rw [combine, hnx]
  exact congrArg (fun effective => if e &&& 4 = 0 then effective &&& 0xfffffffffffffffb else effective) (if_neg he.2)

theorem three_iff : x &&& 3 = 3 ↔ x &&& 1 ≠ 0 ∧ x &&& 2 ≠ 0 := by
  have h₁ : x &&& 1 = x / 2 ^ 0 % 2 ^ 1 * 2 ^ 0 := and_field x 1 0
  have h₂ : x &&& 2 = x / 2 ^ 1 % 2 ^ 1 * 2 ^ 1 := and_field x 1 1
  have h₃ : x &&& 3 = x / 2 ^ 0 % 2 ^ 2 * 2 ^ 0 := and_field x 2 0
  rw [h₁, h₂, h₃]
  omega

/-! An entry that leads to a new table. -/

/-- The flags of such an entry: present, writable, and perhaps for the user. -/
def TableFlags (f : Nat) : Prop := f = 3 ∨ f = 7

theorem tableFlags_user (x : Nat) : TableFlags (VMM_PTE_PRESENT ||| VMM_PTE_WRITE ||| x &&& VMM_PTE_USER) := by
  have h : x &&& VMM_PTE_USER = x / 2 ^ 2 % 2 * 2 ^ 2 := and_field x 1 2
  rcases Nat.mod_two_eq_zero_or_one (x / 2 ^ 2) with h' | h'
  · left
    rw [h, h']
    rfl
  · right
    rw [h, h']
    rfl

theorem table_word (ha : a &&& PHYS_MASK = a) (hf : TableFlags f) :
    Clean (a &&& PAGE_MASK ||| f) ∧ tableAt (a &&& PAGE_MASK ||| f) = some a ∧
      directoryAt (a &&& PAGE_MASK ||| f) = some a := by
  rw [page_of_phys ha]
  have hleaf : f &&& LEAF_FLAGS = f := by rcases hf with rfl | rfl <;> decide
  have hpresent : (a ||| f) &&& 1 ≠ 0 := by
    rw [word_and ha (by decide)]
    rcases hf with rfl | rfl <;> decide
  refine ⟨⟨?_, ?_⟩, ?_, ?_⟩
  · apply Nat.or_lt_two_pow (phys_iff.1 ha).2
    rcases hf with rfl | rfl <;> decide
  · rw [word_and ha (by decide)]
    rcases hf with rfl | rfl <;> decide
  · rw [tableAt, if_neg, word_phys ha hleaf]
    rintro (h | h)
    · exact hpresent h
    · rw [word_and ha (by decide)] at h
      apply h
      rcases hf with rfl | rfl <;> decide
  · rw [directoryAt, if_neg hpresent, word_phys ha hleaf]

/-! A large page and the pages of its table. -/

theorem huge_page (x : Nat) (k : Fin 512) :
    (x &&& HUGE_MASK) + k.val * PAGE_SIZE &&& PHYS_MASK = (x &&& HUGE_MASK) + k.val * PAGE_SIZE := by
  show (x &&& HUGE_MASK) + k.val * 2 ^ 12 &&& PHYS_MASK = (x &&& HUGE_MASK) + k.val * 2 ^ 12
  rw [phys_iff, huge_mask]
  have hk := k.isLt
  omega

theorem leafFlags_sub (x : Nat) : leafFlags x &&& LEAF_FLAGS = leafFlags x := by
  have h : x &&& LEAF_FLAGS &&& 0xffffffffffffef7f &&& LEAF_FLAGS = x &&& LEAF_FLAGS &&& 0xffffffffffffef7f := by
    rw [Nat.and_assoc, Nat.and_assoc, Nat.and_assoc]
    rfl
  rw [leafFlags]
  by_cases hpat : x &&& 0x1000 ≠ 0
  · rw [if_pos hpat, Nat.and_or_distrib_right, h]
    rfl
  · rw [if_neg hpat, h]

/-- The flags that both kinds of entries have in the same place. -/
theorem leafFlags_and (x : Nat) (hc : LEAF_FLAGS &&& 0xffffffffffffef7f &&& c = c) (hc' : 0x80 &&& c = 0) :
    leafFlags x &&& c = x &&& c := by
  have h : x &&& LEAF_FLAGS &&& 0xffffffffffffef7f &&& c = x &&& c := by
    rw [Nat.and_assoc x, and_sub hc]
  rw [leafFlags]
  by_cases hpat : x &&& 0x1000 ≠ 0
  · rw [if_pos hpat, Nat.and_or_distrib_right, h, hc', Nat.or_zero]
  · rw [if_neg hpat, h]

theorem combine_leafFlags (t x : Nat) : combine t (leafFlags x) = combine t x :=
  combine_congr (leafFlags_and x (by decide) (by decide)) (leafFlags_and x (by decide) (by decide))
    (leafFlags_and x (by decide) (by decide))

/-- The rights of a page do not change when its large page is split. -/
theorem combine_split (he : TableFlags f) (hu : f &&& 4 = x &&& 4) (ha : a &&& PHYS_MASK = a) (t : Nat) :
    combine (combine t (a &&& PAGE_MASK ||| f)) x = combine t x := by
  rw [combine_clean (table_word ha he).1, page_of_phys ha, word_and ha (by decide), hu]
  by_cases hx : x &&& 4 = 0
  · have hkeep : ∀ y, y &&& 0xfffffffffffffffb &&& 0xfffffffffffffffb = y &&& 0xfffffffffffffffb := by
      intro y
      rw [Nat.and_assoc, Nat.and_self]
    rw [if_pos hx, combine, combine, hx]
    by_cases hw : x &&& VMM_PTE_WRITE = 0
    · rw [if_pos hw, if_pos hw, if_pos rfl, if_pos rfl, Nat.and_right_comm, hkeep, Nat.and_right_comm]
    · rw [if_neg hw, if_neg hw, if_pos rfl, if_pos rfl, hkeep]
  · rw [if_neg hx]

end Lebirun.Paging
