import Lebirun.Lib.Halves

namespace Carry
open BitVec (carry)
set_option autoImplicit true

section Sums

variable {w i : Nat}

/-- The sum of two words and a carry. -/
def sum (x y : BitVec w) (c : Bool) : BitVec w := x + y + (BitVec.ofBool c).setWidth w

/-- The difference of two words, less a borrow. -/
def diff (x y : BitVec w) (b : Bool) : BitVec w := x - y - (BitVec.ofBool b).setWidth w

/-- Whether the lowest `i` bits of a difference borrow from those above. -/
def borrow (i : Nat) (x y : BitVec w) (b : Bool) : Bool :=
  x.toNat % 2 ^ i < y.toNat % 2 ^ i + b.toNat

theorem sum_false (x y : BitVec w) : sum x y false = x + y := by
  simp [sum]

theorem diff_false (x y : BitVec w) : diff x y false = x - y := by
  simp [diff]

/-- A difference is a sum with the complement. -/
theorem diff_eq_sum (x y : BitVec w) (b : Bool) : diff x y b = sum x (~~~y) (!b) := by
  unfold diff sum
  rw [BitVec.sub_eq_add_neg x y, BitVec.neg_eq_not_add y]
  cases b with
  | false =>
    have hone : (BitVec.ofBool true).setWidth w = 1#w := by
      rw [BitVec.ofBool_true]
      apply BitVec.eq_of_toNat_eq
      simp
    have hzero : (BitVec.ofBool false).setWidth w = 0#w := by simp
    rw [Bool.not_false, hone, hzero, BitVec.sub_zero, BitVec.add_assoc]
  | true =>
    have hone : (BitVec.ofBool true).setWidth w = 1#w := by
      rw [BitVec.ofBool_true]
      apply BitVec.eq_of_toNat_eq
      simp
    have hzero : (BitVec.ofBool false).setWidth w = 0#w := by simp
    rw [Bool.not_true, hone, hzero, BitVec.add_zero, ← BitVec.add_assoc, BitVec.add_sub_cancel]

theorem toNat_not_mod (y : BitVec w) (hi : i ≤ w) : (~~~y).toNat % 2 ^ i = 2 ^ i - 1 - y.toNat % 2 ^ i := by
  rw [← BitVec.toNat_setWidth, BitVec.setWidth_not hi, BitVec.toNat_not, BitVec.toNat_setWidth]

/-- The carries of a difference are the borrows that do not happen. -/
theorem carry_not (x y : BitVec w) (b : Bool) (hi : i ≤ w) : carry i x (~~~y) (!b) = !borrow i x y b := by
  unfold carry borrow
  rw [toNat_not_mod y hi, ← decide_not, decide_eq_decide]
  have hy : y.toNat % 2 ^ i < 2 ^ i := Nat.mod_lt _ (Nat.two_pow_pos i)
  cases b
  · simp only [Bool.not_false, Bool.toNat_true, Bool.toNat_false]
    omega
  · simp only [Bool.not_true, Bool.toNat_true, Bool.toNat_false]
    omega

/-- A bit of a sum. -/
theorem getLsbD_sum (x y : BitVec w) (c : Bool) (hi : i < w) :
    (sum x y c).getLsbD i = (x.getLsbD i ^^ (y.getLsbD i ^^ carry i x y c)) :=
  BitVec.getLsbD_add_add_bool hi x y c

/-- A bit of a difference. -/
theorem getLsbD_diff (x y : BitVec w) (b : Bool) (hi : i < w) :
    (diff x y b).getLsbD i = (x.getLsbD i ^^ (y.getLsbD i ^^ borrow i x y b)) := by
  rw [diff_eq_sum, getLsbD_sum _ _ _ hi, carry_not x y b (Nat.le_of_lt hi), BitVec.getLsbD_not]
  simp [hi]

end Sums

section Overflow

variable {w : Nat}

/-- A word in two parts, the top bit and the rest. -/
theorem toInt_parts (x : BitVec (k + 1)) :
    x.toInt = (x.toNat % 2 ^ k : Nat) - (if x.msb = true then (2 : Int) ^ k else 0) := by
  have hx : x.toNat < 2 ^ (k + 1) := x.isLt
  have htop : x.msb = decide (2 ^ k ≤ x.toNat) := BitVec.msb_eq_decide x
  rw [BitVec.toInt_eq_msb_cond, htop]
  rw [Nat.pow_succ] at hx
  have hcast : ((2 ^ k : Nat) : Int) = (2 : Int) ^ k := Int.natCast_pow 2 k
  have hcast' : ((2 ^ (k + 1) : Nat) : Int) = (2 : Int) ^ k * 2 := by
    rw [Nat.pow_succ]
    push_cast
    rfl
  by_cases h : 2 ^ k ≤ x.toNat
  · rw [if_pos (decide_eq_true h), if_pos (decide_eq_true h), hcast', Nat.mod_eq_sub_mod h,
      Nat.mod_eq_of_lt (by omega), Nat.cast_sub h, hcast]
    linarith
  · rw [if_neg (by simpa using h), if_neg (by simpa using h), Nat.mod_eq_of_lt (by omega), sub_zero]

/-- A sum overflows when both operands have the sign that the result has not. -/
theorem sum_overflow (x y : BitVec w) (c : Bool) (hw : 0 < w) :
    ((x.msb ^^ (sum x y c).msb) && (y.msb ^^ (sum x y c).msb)) = true ↔
      ¬ Halves.Fits true w (x.toInt + y.toInt + c.toNat) := by
  obtain ⟨k, rfl⟩ : ∃ k, w = k + 1 := ⟨w - 1, by omega⟩
  have hmsb : (sum x y c).msb = (x.msb ^^ (y.msb ^^ carry k x y c)) := by
    rw [BitVec.msb_eq_getLsbD_last, getLsbD_sum x y c (by omega), BitVec.msb_eq_getLsbD_last,
      BitVec.msb_eq_getLsbD_last]
    rfl
  rw [hmsb, toInt_parts x, toInt_parts y]
  unfold Halves.Fits carry
  have hx : x.toNat % 2 ^ k < 2 ^ k := Nat.mod_lt _ (Nat.two_pow_pos k)
  have hy : y.toNat % 2 ^ k < 2 ^ k := Nat.mod_lt _ (Nat.two_pow_pos k)
  have hcast : ((2 ^ k : Nat) : Int) = (2 : Int) ^ k := Int.natCast_pow 2 k
  have hc : c.toNat ≤ 1 := Bool.toNat_le c
  rw [if_pos rfl, Nat.add_sub_cancel, ← hcast]
  generalize x.toNat % 2 ^ k = a at hx ⊢
  generalize y.toNat % 2 ^ k = b at hy ⊢
  generalize 2 ^ k = p at hx hy ⊢
  generalize c.toNat = n at hc ⊢
  cases x.msb <;> cases y.msb <;> by_cases h : p ≤ a + b + n <;> simp [h] <;> omega

theorem toInt_not (y : BitVec w) (hw : 0 < w) : (~~~y).toInt = -1 - y.toInt := by
  obtain ⟨k, rfl⟩ : ∃ k, w = k + 1 := ⟨w - 1, by omega⟩
  have hy : y.toNat % 2 ^ k < 2 ^ k := Nat.mod_lt _ (Nat.two_pow_pos k)
  have hcast : ((2 ^ k : Nat) : Int) = (2 : Int) ^ k := Int.natCast_pow 2 k
  have hmsb : (~~~y).msb = !y.msb := by
    rw [BitVec.msb_not]
    simp
  rw [toInt_parts, toInt_parts, toNat_not_mod y (Nat.le_succ k), hmsb, ← hcast]
  cases y.msb
  · simp only [Bool.not_false, if_true, Bool.false_eq_true, if_false]
    omega
  · simp only [Bool.not_true, if_true, Bool.false_eq_true, if_false]
    omega

/-- A difference overflows when the operands differ in sign and the result has that of the second. -/
theorem diff_overflow (x y : BitVec w) (b : Bool) (hw : 0 < w) :
    ((x.msb ^^ y.msb) && (x.msb ^^ (diff x y b).msb)) = true ↔
      ¬ Halves.Fits true w (x.toInt - y.toInt - b.toNat) := by
  have hsum := sum_overflow x (~~~y) (!b) hw
  rw [← diff_eq_sum, toInt_not y hw] at hsum
  have hnot : (~~~y).msb = !y.msb := by
    rw [BitVec.msb_not]
    simp [hw]
  have hint : x.toInt + (-1 - y.toInt) + ((!b).toNat : Int) = x.toInt - y.toInt - b.toNat := by
    cases b
    · simp only [Bool.not_false, Bool.toNat_true, Bool.toNat_false]
      omega
    · simp only [Bool.not_true, Bool.toNat_true, Bool.toNat_false]
      omega
  rw [hint] at hsum
  rw [← hsum, hnot]
  cases x.msb <;> cases y.msb <;> cases (diff x y b).msb <;> simp

end Overflow

end Carry
