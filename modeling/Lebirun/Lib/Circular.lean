import Mathlib

/-- A circular buffer of `size` cells; one cell always stays free. -/
structure Circular (α : Type) where
  mem : Nat → α
  size : Nat
  head : Nat
  tail : Nat

namespace Circular
set_option autoImplicit true

variable {α : Type}

/-- `memcpy` out of a memory. -/
def slice (mem : Nat → α) (i n : Nat) : List α := (List.range n).map fun j => mem (i + j)

/-- `memcpy` into a memory. -/
def write (mem : Nat → α) (i : Nat) (d : List α) : Nat → α :=
  fun j => if h : i ≤ j ∧ j - i < d.length then d.get ⟨j - i, h.2⟩ else mem j

def used (r : Circular α) : Nat := if r.size = 0 then 0 else (r.tail + r.size - r.head) % r.size

def toList (r : Circular α) : List α :=
  (List.range r.used).map fun i => r.mem ((r.head + i) % r.size)

structure Ok (r : Circular α) : Prop where
  head_lt : r.size ≠ 0 → r.head < r.size
  tail_lt : r.size ≠ 0 → r.tail < r.size
  empty : r.size = 0 → r.head = r.tail

/-- The data goes in behind the tail, in two pieces if it passes the end. -/
def put (r : Circular α) (d : List α) : Circular α :=
  let first := min (r.size - r.tail) d.length
  { r with
    mem := write (write r.mem r.tail (d.take first)) 0 (d.drop first)
    tail := (r.tail + d.length) % r.size }

/-- The content straightened out into a memory of its own. -/
def relocate (r : Circular α) (junk : Nat → α) (size : Nat) : Circular α :=
  if r.head ≤ r.tail then
    { mem := write junk 0 (slice r.mem r.head (r.tail - r.head)), size, head := 0
      tail := r.tail - r.head }
  else
    { mem := write (write junk 0 (slice r.mem r.head (r.size - r.head))) (r.size - r.head)
        (slice r.mem 0 r.tail)
      size, head := 0, tail := r.size - r.head + r.tail }

/-- The first `n` elements, in two pieces if they pass the end. -/
def peek (r : Circular α) (n : Nat) : List α :=
  let first := min (r.size - r.head) n
  slice r.mem r.head first ++ slice r.mem 0 (n - first)

def skip (r : Circular α) (n : Nat) : Circular α := { r with head := (r.head + n) % r.size }

theorem wrap {i j n : Nat} (hi : i < n) (hj : j ≤ n) :
    (i + j) % n = if i + j < n then i + j else i + j - n := by
  split
  · rename_i h
    exact Nat.mod_eq_of_lt h
  · rename_i h
    rw [Nat.mod_eq_sub_mod (Nat.not_lt.1 h)]
    apply Nat.mod_eq_of_lt
    omega

@[simp]
theorem length_slice (mem : Nat → α) (i n : Nat) : (slice mem i n).length = n := by
  simp [slice]

@[simp]
theorem getElem_slice (mem : Nat → α) (i n j : Nat) (h : j < (slice mem i n).length) :
    (slice mem i n)[j] = mem (i + j) := by
  simp [slice]

theorem write_in (mem : Nat → α) (d : List α) (h1 : i ≤ j) (h2 : j - i < d.length) :
    write mem i d j = d[j - i] := dif_pos ⟨h1, h2⟩

theorem write_out (mem : Nat → α) (d : List α) (h : ¬(i ≤ j ∧ j - i < d.length)) :
    write mem i d j = mem j := dif_neg h

variable {r : Circular α} {d : List α}

@[simp]
theorem length_toList (r : Circular α) : r.toList.length = r.used := by
  simp [toList]

theorem getElem_toList (i : Nat) (h : i < r.toList.length) :
    r.toList[i] = r.mem ((r.head + i) % r.size) := by
  simp [toList]

theorem used_zero (h : r.size = 0) : r.used = 0 := if_pos h

theorem used_eq (hr : r.Ok) (h : r.size ≠ 0) :
    r.used = if r.head ≤ r.tail then r.tail - r.head else r.tail + r.size - r.head := by
  have h1 := hr.head_lt h
  have h2 := hr.tail_lt h
  rw [used, if_neg h]
  split
  · have hsum : r.tail + r.size - r.head = r.tail - r.head + r.size := by omega
    rw [hsum, Nat.add_mod_right]
    exact Nat.mod_eq_of_lt (by omega)
  · exact Nat.mod_eq_of_lt (by omega)

theorem used_lt (hr : r.Ok) (h : r.size ≠ 0) : r.used < r.size := by
  have h1 := hr.head_lt h
  have h2 := hr.tail_lt h
  rw [used_eq hr h]
  split <;> omega

/-- What a buffer holds, cell by cell. -/
theorem toList_eq_of (hlen : r.used = d.length)
    (hget : ∀ i (h : i < d.length), r.mem ((r.head + i) % r.size) = d[i]) : r.toList = d := by
  apply List.ext_getElem
  · rw [length_toList, hlen]
  · intro i _ h
    rw [getElem_toList, hget i h]

theorem put_ok (hr : r.Ok) (hfit : r.used + d.length < r.size) : (r.put d).Ok where
  head_lt := hr.head_lt
  tail_lt := fun h => Nat.mod_lt _ (Nat.pos_of_ne_zero h)
  empty := by
    intro h
    rw [show r.size = 0 from h] at hfit
    cases hfit

theorem used_put (hr : r.Ok) (hfit : r.used + d.length < r.size) :
    (r.put d).used = r.used + d.length := by
  have h : r.size ≠ 0 := by omega
  have h1 := hr.head_lt h
  have h2 := hr.tail_lt h
  have h3 := used_eq hr h
  have ht : (r.put d).tail = _ := wrap (j := d.length) h2 (by omega)
  have hh : (r.put d).head = r.head := rfl
  have hs : (r.put d).size = r.size := rfl
  rw [used_eq (put_ok hr hfit) h]
  split at h3 <;> split at ht <;> split <;> omega

/-- Where the data begins. -/
theorem tail_eq (hr : r.Ok) (h : r.size ≠ 0) : r.tail = (r.head + r.used) % r.size := by
  have h1 := hr.head_lt h
  have h2 := hr.tail_lt h
  have h3 := used_eq hr h
  rw [wrap h1 (used_lt hr h).le]
  split at h3 <;> split <;> omega

theorem put_mem_old (hr : r.Ok) (hfit : r.used + d.length < r.size) (hi : i < r.used) :
    (r.put d).mem ((r.head + i) % r.size) = r.mem ((r.head + i) % r.size) := by
  have h : r.size ≠ 0 := by omega
  have h1 := hr.head_lt h
  have h2 := hr.tail_lt h
  have h3 := used_eq hr h
  have hk := wrap (j := i) h1 (by omega)
  simp only [put]
  rw [write_out, write_out]
  · rw [List.length_take]
    split at h3 <;> split at hk <;> omega
  · rw [List.length_drop]
    split at h3 <;> split at hk <;> omega

theorem put_mem_new (hr : r.Ok) (hfit : r.used + d.length < r.size) (hi : i < d.length) :
    (r.put d).mem ((r.head + (r.used + i)) % r.size) = d[i] := by
  have h : r.size ≠ 0 := by omega
  have h2 := hr.tail_lt h
  have hk : (r.head + (r.used + i)) % r.size = (r.tail + i) % r.size := by
    rw [← Nat.add_assoc, tail_eq hr h, Nat.mod_add_mod]
  have hw := wrap (j := i) h2 (by omega)
  rw [hk, hw]
  simp only [put]
  split
  · rename_i hlt
    rw [write_out, write_in _ _ (Nat.le_add_right _ _)]
    · simp only [Nat.add_sub_cancel_left, List.getElem_take]
    · rw [List.length_take]
      omega
    · rw [List.length_drop]
      omega
  · rename_i hge
    rw [write_in _ _ (Nat.zero_le _)]
    · rw [List.getElem_drop]
      congr 1
      omega
    · rw [List.length_drop]
      omega

theorem toList_put (hr : r.Ok) (hfit : r.used + d.length < r.size) :
    (r.put d).toList = r.toList ++ d := by
  apply toList_eq_of
  · rw [used_put hr hfit, List.length_append, length_toList]
  · intro i hi
    rw [List.length_append, length_toList] at hi
    by_cases hold : i < r.used
    · rw [List.getElem_append_left (by rwa [length_toList]), getElem_toList]
      exact put_mem_old hr hfit hold
    · rw [List.getElem_append_right (by rwa [length_toList, ← Nat.not_lt])]
      simp only [length_toList]
      have hnew := put_mem_new hr hfit (i := i - r.used) (by omega)
      rw [Nat.add_sub_cancel' (Nat.not_lt.1 hold)] at hnew
      exact hnew

theorem relocate_size (r : Circular α) (junk : Nat → α) (n : Nat) :
    (r.relocate junk n).size = n ∧ (r.relocate junk n).head = 0 := by
  rw [relocate]
  split
  · exact ⟨rfl, rfl⟩
  · exact ⟨rfl, rfl⟩

theorem relocate_ok (hr : r.Ok) (junk : Nat → α) {n : Nat} (hsize : r.size < n)
    (h : r.size ≠ 0) : (r.relocate junk n).Ok := by
  have h1 := hr.head_lt h
  have h2 := hr.tail_lt h
  obtain ⟨hs, hh⟩ := relocate_size r junk n
  constructor
  · omega
  · intro _
    rw [hs, relocate]
    split
    · exact (Nat.sub_le _ _).trans_lt (h2.trans hsize)
    · dsimp only
      omega
  · omega

theorem toList_relocate (hr : r.Ok) (junk : Nat → α) {n : Nat} (hsize : r.size < n) (h : r.size ≠ 0) :
    (r.relocate junk n).toList = r.toList := by
  have h1 := hr.head_lt h
  have h2 := hr.tail_lt h
  have h3 := used_eq hr h
  have hok := relocate_ok hr junk hsize h
  rw [relocate] at hok ⊢
  split at h3
  · rename_i hle
    rw [if_pos hle] at hok ⊢
    apply toList_eq_of
    · rw [used_eq hok (by dsimp only; omega), length_toList]
      simp only [Nat.zero_le, if_true, Nat.sub_zero]
      exact h3.symm
    · intro i hi
      rw [length_toList] at hi
      rw [getElem_toList]
      dsimp only
      rw [Nat.zero_add, Nat.mod_eq_of_lt (by omega), write_in _ _ (Nat.zero_le _) (by rw [length_slice]; omega),
        getElem_slice, Nat.mod_eq_of_lt (by omega), Nat.sub_zero]
  · rename_i hle
    rw [if_neg hle] at hok ⊢
    apply toList_eq_of
    · rw [used_eq hok (by dsimp only; omega), length_toList]
      simp only [Nat.zero_le, if_true, Nat.sub_zero]
      omega
    · intro i hi
      rw [length_toList] at hi
      rw [getElem_toList, wrap h1 (by omega)]
      dsimp only
      rw [Nat.zero_add, Nat.mod_eq_of_lt (by omega)]
      split
      · rw [write_out, write_in _ _ (Nat.zero_le _) (by rw [length_slice]; omega), getElem_slice,
          Nat.sub_zero]
        omega
      · rw [write_in _ _ (by omega) (by rw [length_slice]; omega), getElem_slice]
        congr 1
        omega

theorem peek_eq (hr : r.Ok) (hn : n ≤ r.used) : r.peek n = r.toList.take n := by
  by_cases h : r.size = 0
  · rw [used_zero h] at hn
    rw [Nat.le_zero.1 hn, List.take_zero]
    simp [peek, slice]
  · have h1 := hr.head_lt h
    have hlt := used_lt hr h
    apply List.ext_getElem
    · simp only [peek, List.length_append, length_slice, List.length_take, length_toList]
      omega
    · intro i hi _
      simp only [peek, List.length_append, length_slice] at hi
      rw [List.getElem_take, getElem_toList, wrap h1 (by omega)]
      simp only [peek]
      split
      · rw [List.getElem_append_left (by rw [length_slice]; omega), getElem_slice]
      · rw [List.getElem_append_right (by rw [length_slice]; omega), getElem_slice]
        rw [length_slice]
        congr 1
        omega

theorem skip_ok (hr : r.Ok) (h : r.size ≠ 0) : (r.skip n).Ok where
  head_lt := fun h => Nat.mod_lt _ (Nat.pos_of_ne_zero h)
  tail_lt := hr.tail_lt
  empty := fun he => absurd he h

theorem used_skip (hr : r.Ok) (h : r.size ≠ 0) (hn : n ≤ r.used) :
    (r.skip n).used = r.used - n := by
  have h1 := hr.head_lt h
  have h2 := hr.tail_lt h
  have h3 := used_eq hr h
  have hh : (r.skip n).head = _ := wrap (j := n) h1 (hn.trans (used_lt hr h).le)
  have ht : (r.skip n).tail = r.tail := rfl
  have hs : (r.skip n).size = r.size := rfl
  rw [used_eq (skip_ok hr h) h]
  split at h3 <;> split at hh <;> split <;> omega

theorem toList_skip (hr : r.Ok) (h : r.size ≠ 0) (hn : n ≤ r.used) :
    (r.skip n).toList = r.toList.drop n := by
  apply toList_eq_of
  · rw [used_skip hr h hn, List.length_drop, length_toList]
  · intro i hi
    rw [List.getElem_drop, getElem_toList]
    simp only [skip]
    rw [Nat.mod_add_mod, Nat.add_assoc]

end Circular
