import Mathlib

namespace Table
set_option autoImplicit true

variable {α β : Type*} {t : Nat → Option α}

/-- Objects by number; one that was freed or never made is `none`. -/
def put (t : Nat → Option α) (i : Nat) (a : α) : Nat → Option α := Function.update t i (some a)

def modify (t : Nat → Option α) (i : Nat) (f : α → α) : Nat → Option α :=
  Function.update t i ((t i).map f)

def erase (t : Nat → Option α) (i : Nat) : Nat → Option α := Function.update t i none

theorem put_apply (i j : Nat) (a : α) : put t i a j = if j = i then some a else t j := by
  unfold put
  rw [Function.update_apply]

theorem modify_apply (i j : Nat) (f : α → α) :
    modify t i f j = if j = i then (t i).map f else t j := by
  unfold modify
  rw [Function.update_apply]

theorem erase_apply (i j : Nat) : erase t i j = if j = i then none else t j := by
  unfold erase
  rw [Function.update_apply]

/-- What the objects below `n` add up to. -/
def sum (g : α → Nat) (t : Nat → Option α) (n : Nat) : Nat :=
  ∑ i ∈ Finset.range n, (t i).elim 0 g

theorem sum_congr {g : α → Nat} {g' : β → Nat} {t' : Nat → Option β}
    (h : ∀ i < n, (t i).elim 0 g = (t' i).elim 0 g') : sum g t n = sum g' t' n := by
  apply Finset.sum_congr rfl
  intro i hi
  exact h i (Finset.mem_range.mp hi)

theorem sum_update {g : α → Nat} (hi : i < n) (x : Option α) :
    sum g (Function.update t i x) n + (t i).elim 0 g = sum g t n + x.elim 0 g := by
  have hmem : i ∈ Finset.range n := Finset.mem_range.mpr hi
  have hsplit : ∀ u : Nat → Option α,
      sum g u n = (u i).elim 0 g + ∑ j ∈ (Finset.range n).erase i, (u j).elim 0 g :=
    fun u => (Finset.add_sum_erase _ (fun j => (u j).elim 0 g) hmem).symm
  have hrest : ∑ j ∈ (Finset.range n).erase i, (Function.update t i x j).elim 0 g =
      ∑ j ∈ (Finset.range n).erase i, (t j).elim 0 g := by
    apply Finset.sum_congr rfl
    intro j hj
    rw [Function.update_of_ne (Finset.ne_of_mem_erase hj)]
  rw [hsplit (Function.update t i x), hsplit t, hrest, Function.update_self]
  omega

theorem sum_update_out {g : α → Nat} (hi : n ≤ i) (x : Option α) :
    sum g (Function.update t i x) n = sum g t n := by
  apply sum_congr
  intro j hj
  rw [Function.update_of_ne (by omega)]

theorem sum_succ (g : α → Nat) (t : Nat → Option α) (n : Nat) :
    sum g t (n + 1) = sum g t n + (t n).elim 0 g :=
  Finset.sum_range_succ _ _

theorem le_sum {g : α → Nat} (hi : i < n) : (t i).elim 0 g ≤ sum g t n :=
  Finset.single_le_sum (f := fun j => (t j).elim 0 g) (fun _ _ => Nat.zero_le _)
    (Finset.mem_range.mpr hi)

end Table
