import Mathlib

namespace Words
set_option autoImplicit true

/-- An array of `w`-bit words as a set of numbers: bit `v % w` of word `v / w` stands for `v`. -/
def Mem (w : Nat) (a : Nat → Nat) (v : Nat) : Prop := (a (v / w)).testBit (v % w) = true

instance : Decidable (Mem w a v) := inferInstanceAs (Decidable (_ = true))

def insert (w : Nat) (a : Nat → Nat) (v : Nat) : Nat → Nat :=
  Function.update a (v / w) (a (v / w) ||| 2 ^ (v % w))

def erase (w : Nat) (a : Nat → Nat) (v : Nat) : Nat → Nat :=
  Function.update a (v / w) (a (v / w) &&& ((2 ^ w - 1) ^^^ 2 ^ (v % w)))

/-- The position of the highest set bit of a `w`-bit word. -/
def top (w x : Nat) : Option Nat := (List.range w).reverse.find? x.testBit

variable {w n : Nat} {a : Nat → Nat} {u v x b j : Nat}

theorem testBit_set (x k j : Nat) : (x ||| 2 ^ k).testBit j = (x.testBit j || decide (k = j)) := by
  rw [Nat.testBit_or, Nat.testBit_two_pow]

theorem testBit_clear (x k : Nat) (hj : j < w) :
    (x &&& ((2 ^ w - 1) ^^^ 2 ^ k)).testBit j = (x.testBit j && !decide (k = j)) := by
  rw [Nat.testBit_and, Nat.testBit_xor, Nat.testBit_two_pow, Nat.testBit_two_pow_sub_one]
  simp [hj]

theorem eq_of_div_mod (hd : u / w = v / w) (hm : u % w = v % w) : u = v := by
  rw [← Nat.div_add_mod u w, ← Nat.div_add_mod v w, hd, hm]

theorem mem_insert : Mem w (insert w a v) u ↔ u = v ∨ Mem w a u := by
  by_cases hd : u / w = v / w
  · rw [Mem, insert, hd, Function.update_self, testBit_set, Mem, hd, Bool.or_eq_true,
      decide_eq_true_eq, or_comm]
    constructor
    · exact Or.imp_left fun hm => eq_of_div_mod hd hm.symm
    · exact Or.imp_left fun hm => hm ▸ rfl
  · rw [Mem, insert, Function.update_of_ne hd, Mem]
    constructor
    · exact Or.inr
    · intro h
      rcases h with rfl | h
      · exact absurd rfl hd
      · exact h

theorem mem_erase (hw : 0 < w) : Mem w (erase w a v) u ↔ u ≠ v ∧ Mem w a u := by
  by_cases hd : u / w = v / w
  · rw [Mem, erase, hd, Function.update_self, testBit_clear _ _ (Nat.mod_lt _ hw), Mem, hd,
      Bool.and_eq_true, Bool.not_eq_true', decide_eq_false_iff_not, and_comm]
    constructor
    · exact And.imp_left fun hm h => hm (h ▸ rfl)
    · exact And.imp_left fun hm h => hm (eq_of_div_mod hd h.symm)
  · rw [Mem, erase, Function.update_of_ne hd, Mem]
    constructor
    · intro h
      exact ⟨fun huv => hd (huv ▸ rfl), h⟩
    · exact And.right

theorem top_some (h : top w x = some b) : b < w ∧ x.testBit b = true ∧
    ∀ j < w, x.testBit j = true → j ≤ b := by
  have hmem := List.mem_of_find?_eq_some h
  have hbit := List.find?_some h
  rw [List.mem_reverse, List.mem_range] at hmem
  refine ⟨hmem, hbit, ?_⟩
  intro j hj hjb
  obtain ⟨-, l₁, l₂, hsplit, hnot⟩ := List.find?_eq_some_iff_append.1 h
  by_contra hlt
  -- the list runs downwards, so `j` would stand before `b`
  have hsorted : (l₁ ++ b :: l₂).Pairwise (· > ·) := by
    rw [← hsplit, List.pairwise_reverse]
    exact List.pairwise_lt_range
  have hj' : j ∈ l₁ ++ b :: l₂ := by
    rw [← hsplit, List.mem_reverse, List.mem_range]
    exact hj
  rcases List.mem_append.1 hj' with h₁ | h₂
  · have := hnot j h₁
    rw [hjb] at this
    cases this
  · rcases List.mem_cons.1 h₂ with rfl | h₂
    · exact hlt le_rfl
    · have hp := (List.pairwise_append.1 hsorted).2.1
      exact hlt (Nat.le_of_lt ((List.pairwise_cons.1 hp).1 j h₂))

theorem top_none (h : top w x = none) (hj : j < w) : x.testBit j = false := by
  have := List.find?_eq_none.1 h j (by rw [List.mem_reverse, List.mem_range]; exact hj)
  simpa using this

/-- The highest bit of word `n` as a member of the set. -/
theorem mem_top (h : top w (a n) = some b) : Mem w a (n * w + b) := by
  obtain ⟨hb, hbit, -⟩ := top_some h
  have hdiv : (n * w + b) / w = n := by
    rw [Nat.mul_comm, Nat.mul_add_div (Nat.zero_lt_of_lt hb), Nat.div_eq_of_lt hb, Nat.add_zero]
  have hmod : (n * w + b) % w = b := by
    rw [Nat.mul_comm, Nat.mul_add_mod, Nat.mod_eq_of_lt hb]
  rw [Mem, hdiv, hmod]
  exact hbit

/-- It is above every member in the words up to `n`. -/
theorem le_top (hw : 0 < w) (h : top w (a n) = some b) (hu : Mem w a u) (hn : u / w < n + 1) :
    u ≤ n * w + b := by
  have hdm := Nat.div_add_mod u w
  have hmod := Nat.mod_lt u hw
  rcases Nat.lt_or_eq_of_le (Nat.le_of_lt_succ hn) with hlt | heq
  · have hmul : w * (u / w + 1) ≤ w * n := Nat.mul_le_mul_left _ hlt
    rw [Nat.mul_add, Nat.mul_one] at hmul
    rw [Nat.mul_comm n w]
    omega
  · rw [Mem, heq] at hu
    have hle := (top_some h).2.2 _ hmod hu
    rw [← heq, Nat.mul_comm]
    omega

/-- A word without a highest bit has no member. -/
theorem lt_of_top_none (hw : 0 < w) (h : top w (a n) = none) (hu : Mem w a u)
    (hn : u / w < n + 1) : u / w < n := by
  rcases Nat.lt_or_eq_of_le (Nat.le_of_lt_succ hn) with hlt | heq
  · exact hlt
  · rw [Mem, heq, top_none h (Nat.mod_lt _ hw)] at hu
    cases hu

theorem insert_ne_zero (h : insert w a v n ≠ 0) : a n ≠ 0 ∨ n = v / w := by
  by_cases hn : n = v / w
  · exact .inr hn
  · rw [insert, Function.update_of_ne hn] at h
    exact .inl h

theorem erase_ne_zero (h : erase w a v n ≠ 0) : a n ≠ 0 := by
  by_cases hn : n = v / w
  · intro h0
    rw [hn] at h0
    rw [hn, erase, Function.update_self, h0, Nat.zero_and] at h
    exact h rfl
  · rwa [erase, Function.update_of_ne hn] at h

end Words
