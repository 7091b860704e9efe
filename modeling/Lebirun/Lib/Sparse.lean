import Mathlib

namespace Machine
set_option autoImplicit true

/-- An array of known length that is zero where nothing was put, as a function on all indices. -/
@[ext]
structure Sparse (α : Type*) [Zero α] where
  length : Nat
  cell : Nat → α
  hole : ∀ k, length ≤ k → cell k = 0

namespace Sparse

variable {α : Type*} [Zero α]

def empty : Sparse α := ⟨0, fun _ => 0, fun _ _ => rfl⟩

/-- The cells of a list, and zeros up to a length. -/
def ofList (l : List α) (n : Nat) : Sparse α where
  length := n
  cell k := if k < n then l.getD k 0 else 0
  hole _ h := if_neg (Nat.not_lt.mpr h)

/-- Cells from an index on, with the length moved up to their end. -/
def write (v : Sparse α) (start : Nat) (l : List α) : Sparse α where
  length := max v.length (start + l.length)
  cell k := if start ≤ k ∧ k < start + l.length then l.getD (k - start) 0 else v.cell k
  hole k h := by
    rw [if_neg (by omega)]
    exact v.hole k (by omega)

/-- A new length: cells past it are gone, cells below it that were not there are zero. -/
def resize (v : Sparse α) (n : Nat) : Sparse α where
  length := n
  cell k := if k < n then v.cell k else 0
  hole _ h := if_neg (Nat.not_lt.mpr h)

/-- Zeros over a range, at the same length. -/
def clear (v : Sparse α) (start n : Nat) : Sparse α where
  length := v.length
  cell k := if start ≤ k ∧ k < start + n then 0 else v.cell k
  hole k h := by
    split
    · rfl
    · exact v.hole k h

/-- At most `n` cells from an index on. -/
def read (v : Sparse α) (start n : Nat) : List α :=
  (List.range (min n (v.length - start))).map fun j => v.cell (start + j)

theorem ofList_zero (l : List α) : ofList l 0 = empty := by
  apply Sparse.ext
  · rfl
  · funext k
    simp [ofList, empty]

theorem resize_zero (v : Sparse α) : v.resize 0 = empty := by
  apply Sparse.ext
  · rfl
  · funext k
    simp [resize, empty]

theorem clear_zero (v : Sparse α) (start : Nat) : v.clear start 0 = v := by
  apply Sparse.ext
  · rfl
  · funext k
    exact if_neg (by omega)

theorem clear_holes (v : Sparse α) (h : ∀ k, start ≤ k → v.cell k = 0) (n : Nat) :
    v.clear start n = v := by
  apply Sparse.ext
  · rfl
  · funext k
    simp only [clear]
    split
    · rename_i hin
      exact (h k hin.1).symm
    · rfl

/-- Ranges that meet are cleared in either step. -/
theorem clear_clear (v : Sparse α) (start m n : Nat) :
    (v.clear start m).clear (start + m) n = v.clear start (m + n) := by
  apply Sparse.ext
  · rfl
  · funext k
    simp only [clear]
    split
    · rw [if_pos (by omega)]
    · split
      · rw [if_pos (by omega)]
      · rw [if_neg (by omega)]

theorem write_zeros (v : Sparse α) (h : start + n ≤ v.length) :
    v.write start (List.replicate n 0) = v.clear start n := by
  apply Sparse.ext
  · simp only [write, clear, List.length_replicate]
    omega
  · funext k
    simp only [write, clear, List.length_replicate]
    split
    · rw [List.getD_eq_getElem?_getD, List.getElem?_replicate]
      split <;> rfl
    · rfl

/-- A range may be cut at the length. -/
theorem clear_min (v : Sparse α) (start n : Nat) :
    v.clear start (min (start + n) v.length - start) = v.clear start n := by
  apply Sparse.ext
  · rfl
  · funext k
    simp only [clear]
    by_cases hk : k < v.length
    · by_cases hin : start ≤ k ∧ k < start + n
      · rw [if_pos hin, if_pos (by omega)]
      · rw [if_neg hin, if_neg (by omega)]
    · rw [v.hole k (by omega), ite_self, ite_self]

theorem read_congr {v : Sparse α} {l : List α} (hlen : l.length = min n (v.length - start))
    (hcell : ∀ j, j < l.length → l.getD j 0 = v.cell (start + j)) : l = v.read start n := by
  apply List.ext_getElem
  · rw [read, List.length_map, List.length_range, hlen]
  · intro j h₁ h₂
    simp only [read, List.getElem_map, List.getElem_range]
    rw [← hcell j h₁, List.getD_eq_getElem?_getD, List.getElem?_eq_getElem h₁]
    rfl

end Sparse

end Machine
