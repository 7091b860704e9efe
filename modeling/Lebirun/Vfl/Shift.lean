import Lebirun.Lib.Shifts
import Lebirun.Vfl.Cpu

namespace Lebirun.Vfl
set_option autoImplicit true

section Words

variable {w : Nat} {size : Size}

theorem Size.one_lt (size : Size) : 1 < size.bits := by cases size <;> decide

theorem Size.le_64 (size : Size) : size.bits ≤ 64 := by cases size <;> decide

theorem Size.mask_eq (size : Size) : size.mask = (BitVec.allOnes size.bits).setWidth 64 := by
  cases size <;> decide

/-- An operand in a 64-bit word. -/
def lift (x : BitVec w) : BitVec 64 := x.setWidth 64

theorem getLsbD_lift (x : BitVec w) (hw : w ≤ 64) (i : Nat) : (lift x).getLsbD i = x.getLsbD i := by
  unfold lift
  rw [BitVec.getLsbD_setWidth]
  by_cases hi : i < 64
  · simp [hi]
  · simp [hi, BitVec.getLsbD_of_ge x i (by omega)]

theorem and_mask (y : BitVec 64) (size : Size) : y &&& size.mask = lift (y.setWidth size.bits) := by
  have hle := size.le_64
  rw [size.mask_eq]
  apply BitVec.eq_of_getLsbD_eq
  intro i hi
  rw [BitVec.getLsbD_and, getLsbD_lift _ hle]
  simp only [BitVec.getLsbD_setWidth, BitVec.getLsbD_allOnes, hi, decide_true, Bool.true_and]
  exact Bool.and_comm _ _

theorem lift_low (x : BitVec w) (hw : w ≤ 64) : (lift x).setWidth w = x := by
  apply BitVec.eq_of_getLsbD_eq
  intro i hi
  rw [BitVec.getLsbD_setWidth, getLsbD_lift x hw]
  simp [hi]

theorem lift_zero : lift (0 : BitVec size.bits) = 0 := by simp [lift]

theorem lift_eq_zero (y : BitVec size.bits) : lift y = 0 ↔ y = 0 := by
  constructor
  · intro h
    rw [← lift_low y size.le_64, h]
    simp
  · intro h
    rw [h]
    simp [lift]

theorem lift_and_mask (x : BitVec size.bits) : lift x &&& size.mask = lift x := by
  rw [and_mask, lift_low x size.le_64]

/-- A word that agrees with the operand on its bits, cut down to the operand size. -/
theorem and_mask_eq {y : BitVec 64} {x : BitVec size.bits}
    (h : ∀ i, i < size.bits → y.getLsbD i = x.getLsbD i) : y &&& size.mask = lift x := by
  rw [and_mask]
  congr 1
  apply BitVec.eq_of_getLsbD_eq
  intro i hi
  rw [BitVec.getLsbD_setWidth, h i hi]
  simp [hi]

theorem bit_eq (val : BitVec 64) (i : Nat) :
    (val >>> i) &&& 1#64 = (BitVec.ofBool (val.getLsbD i)).setWidth 64 := by
  apply BitVec.eq_of_getLsbD_eq
  intro j hj
  by_cases h : j = 0
  · subst h
    simp
  · simp [h]

theorem bitAt_eq (val : BitVec 64) (i : Nat) : bitAt val i = val.getLsbD i := by
  unfold bitAt
  rw [bit_eq]
  cases val.getLsbD i <;> decide

theorem putFlag_eq (f : BitVec 64) (b : Bool) :
    (f &&& ~~~1#64) ||| (BitVec.ofBool b).setWidth 64 = putFlag f cfBit b := by
  apply BitVec.eq_of_getLsbD_eq
  intro j hj
  rw [getLsbD_putFlag f b j (by decide), BitVec.getLsbD_or, BitVec.getLsbD_and, BitVec.getLsbD_not,
    BitVec.getLsbD_one, BitVec.getLsbD_setWidth, BitVec.getLsbD_ofBool]
  by_cases h : j = 0
  · subst h
    simp
  · simp [h, hj]

theorem putFlag_putFlag (f : BitVec 64) (b b' : Bool) (hi : i < 64) :
    putFlag (putFlag f i b) i b' = putFlag f i b' := by
  apply BitVec.eq_of_getLsbD_eq
  intro j hj
  simp only [getLsbD_putFlag _ _ _ hi]
  split <;> rfl

theorem putFlag_self (f : BitVec 64) (hi : i < 64) : putFlag f i (f.getLsbD i) = f := by
  apply BitVec.eq_of_getLsbD_eq
  intro j hj
  rw [getLsbD_putFlag _ _ _ hi]
  split
  · rename_i h
    rw [h]
  · rfl

end Words

section Rotations

variable {size : Size}

/-- A bit shifted in at the bottom. -/
theorem shl_one (x : BitVec size.bits) (b : Bool) :
    (lift x <<< 1 ||| (BitVec.ofBool b).setWidth 64) &&& size.mask =
      lift (x <<< 1 ||| (BitVec.ofBool b).setWidth size.bits) := by
  have hle := size.le_64
  apply and_mask_eq
  intro i hi
  have hi' : i < 64 := by omega
  simp only [BitVec.getLsbD_or, BitVec.getLsbD_shiftLeft, getLsbD_lift x hle, BitVec.getLsbD_setWidth,
    hi, hi']

/-- A bit shifted in at the top. -/
theorem shr_one (x : BitVec size.bits) (b : Bool) :
    (lift x >>> 1 ||| (BitVec.ofBool b).setWidth 64 <<< (size.bits - 1)) &&& size.mask =
      lift (x >>> 1 ||| (BitVec.ofBool b).setWidth size.bits <<< (size.bits - 1)) := by
  have hle := size.le_64
  apply and_mask_eq
  intro i hi
  have hi' : i < 64 := by omega
  have hi₁ : i - (size.bits - 1) < 64 := by omega
  have hi₂ : i - (size.bits - 1) < size.bits := by omega
  simp only [BitVec.getLsbD_or, BitVec.getLsbD_shiftLeft, BitVec.getLsbD_ushiftRight,
    getLsbD_lift x hle, BitVec.getLsbD_setWidth, hi, hi', hi₁, hi₂]

theorem msb_word (x : BitVec w) (hw : 0 < w) :
    x >>> (w - 1) = (BitVec.ofBool x.msb).setWidth w := by
  apply BitVec.eq_of_getLsbD_eq
  intro i hi
  rw [BitVec.getLsbD_ushiftRight, BitVec.getLsbD_setWidth, BitVec.getLsbD_ofBool,
    BitVec.msb_eq_getLsbD_last]
  by_cases h : i = 0
  · subst h
    simp [hw]
  · rw [BitVec.getLsbD_of_ge x (w - 1 + i) (by omega)]
    simp [h]

theorem lsb_word (x : BitVec w) (hw : 0 < w) :
    x <<< (w - 1) = (BitVec.ofBool (x.getLsbD 0)).setWidth w <<< (w - 1) := by
  apply BitVec.eq_of_getLsbD_eq
  intro i hi
  simp only [BitVec.getLsbD_shiftLeft, BitVec.getLsbD_setWidth, BitVec.getLsbD_ofBool, hi, decide_true,
    Bool.true_and]
  by_cases h : i < w - 1
  · simp [h]
  · have h0 : i - (w - 1) = 0 := by omega
    simp [h0, hw]

theorem rolStep_eq (x : BitVec size.bits) (f : BitVec 64) :
    rolStep size (lift x, f) = (lift (x.rotateLeft 1), putFlag f cfBit x.msb) := by
  have hw := size.one_lt
  unfold rolStep
  dsimp only
  rw [bit_eq, getLsbD_lift x size.le_64, ← BitVec.msb_eq_getLsbD_last, putFlag_eq, shl_one,
    Shifts.rotateLeft_one x hw, msb_word x (by omega)]

theorem rclStep_eq (x : BitVec size.bits) (f : BitVec 64) :
    rclStep size (lift x, f) =
      (lift (x <<< 1 ||| (BitVec.ofBool (f.getLsbD cfBit)).setWidth size.bits),
        putFlag f cfBit x.msb) := by
  unfold rclStep
  dsimp only
  rw [bit_eq, getLsbD_lift x size.le_64, ← BitVec.msb_eq_getLsbD_last, putFlag_eq,
    ← BitVec.ushiftRight_zero f, bit_eq, BitVec.ushiftRight_zero, shl_one]

theorem rorStep_eq (x : BitVec size.bits) (f : BitVec 64) :
    rorStep size (lift x, f) = (lift (x.rotateRight 1), putFlag f cfBit (x.getLsbD 0)) := by
  have hw := size.one_lt
  have hbit := bit_eq (lift x) 0
  rw [BitVec.ushiftRight_zero, getLsbD_lift x size.le_64] at hbit
  unfold rorStep
  dsimp only
  rw [hbit, putFlag_eq, shr_one, Shifts.rotateRight_one x hw, lsb_word x (by omega)]

theorem rcrStep_eq (x : BitVec size.bits) (f : BitVec 64) :
    rcrStep size (lift x, f) =
      (lift (x >>> 1 ||| (BitVec.ofBool (f.getLsbD cfBit)).setWidth size.bits <<< (size.bits - 1)),
        putFlag f cfBit (x.getLsbD 0)) := by
  have hbit := bit_eq (lift x) 0
  rw [BitVec.ushiftRight_zero, getLsbD_lift x size.le_64] at hbit
  have hcf := bit_eq f 0
  rw [BitVec.ushiftRight_zero] at hcf
  unfold rcrStep
  dsimp only
  rw [hbit, hcf, putFlag_eq, shr_one]

/-- After `k` turns the value is rotated by `k`, and the carry is the bit rotated last. -/
theorem rolStep_iterate (x : BitVec size.bits) (f : BitVec 64) (k : Nat) :
    (rolStep size)^[k] (lift x, f) = (lift (x.rotateLeft k),
      if k = 0 then f else putFlag f cfBit ((x.rotateLeft k).getLsbD 0)) := by
  have hw := size.one_lt
  induction k with
  | zero => simp [Shifts.rotateLeft_zero x (by omega)]
  | succ k ih =>
    rw [Function.iterate_succ_apply', ih, rolStep_eq, Shifts.rotateLeft_succ x k hw]
    have hbit : ((x.rotateLeft k).rotateLeft 1).getLsbD 0 = (x.rotateLeft k).msb := by
      rw [Shifts.getLsbD_rotl _ hw (by omega), BitVec.msb_eq_getLsbD_last]
      simp
    rw [Shifts.rotateLeft_succ x k hw] at hbit
    rw [hbit, if_neg (Nat.succ_ne_zero k)]
    congr 1
    split
    · rfl
    · exact putFlag_putFlag f _ _ (by decide)

theorem rorStep_iterate (x : BitVec size.bits) (f : BitVec 64) (k : Nat) :
    (rorStep size)^[k] (lift x, f) = (lift (x.rotateRight k),
      if k = 0 then f else putFlag f cfBit (x.rotateRight k).msb) := by
  have hw := size.one_lt
  induction k with
  | zero => simp [Shifts.rotateRight_zero x]
  | succ k ih =>
    rw [Function.iterate_succ_apply', ih, rorStep_eq, Shifts.rotateRight_succ x k hw]
    have hbit : ((x.rotateRight k).rotateRight 1).msb = (x.rotateRight k).getLsbD 0 := by
      rw [BitVec.msb_eq_getLsbD_last, Shifts.getLsbD_rotr _ hw (by omega)]
      simp
    rw [Shifts.rotateRight_succ x k hw] at hbit
    rw [hbit, if_neg (Nat.succ_ne_zero k)]
    congr 1
    split
    · rfl
    · exact putFlag_putFlag f _ _ (by decide)

/-- A rotation through the carry is one of the word with the carry above it. -/
theorem rclStep_iterate (x : BitVec size.bits) (f : BitVec 64) (k : Nat) :
    let y := (BitVec.cons (f.getLsbD cfBit) x).rotateLeft k
    (rclStep size)^[k] (lift x, f) = (lift (y.setWidth size.bits), putFlag f cfBit y.msb) := by
  have hw := size.one_lt
  induction k with
  | zero =>
    intro y
    have hy : y = BitVec.cons (f.getLsbD cfBit) x := Shifts.rotateLeft_zero _ (by omega)
    rw [hy, BitVec.setWidth_cons, BitVec.msb_cons, putFlag_self f (by decide)]
    rfl
  | succ k ih =>
    intro y
    have hy : y = ((BitVec.cons (f.getLsbD cfBit) x).rotateLeft k).rotateLeft 1 :=
      (Shifts.rotateLeft_succ _ k (by omega)).symm
    rw [Function.iterate_succ_apply', ih, rclStep_eq, getLsbD_putFlag _ _ _ (by decide), if_pos rfl,
      putFlag_putFlag f _ _ (by decide), hy]
    generalize (BitVec.cons (f.getLsbD cfBit) x).rotateLeft k = z
    rw [← BitVec.cons_msb_setWidth z, Shifts.cons_rotateLeft_one _ _ hw, BitVec.setWidth_cons,
      BitVec.msb_cons, BitVec.setWidth_cons, BitVec.msb_cons]

theorem rcrStep_iterate (x : BitVec size.bits) (f : BitVec 64) (k : Nat) :
    let y := (BitVec.cons (f.getLsbD cfBit) x).rotateRight k
    (rcrStep size)^[k] (lift x, f) = (lift (y.setWidth size.bits), putFlag f cfBit y.msb) := by
  have hw := size.one_lt
  induction k with
  | zero =>
    intro y
    have hy : y = BitVec.cons (f.getLsbD cfBit) x := Shifts.rotateRight_zero _
    rw [hy, BitVec.setWidth_cons, BitVec.msb_cons, putFlag_self f (by decide)]
    rfl
  | succ k ih =>
    intro y
    have hy : y = ((BitVec.cons (f.getLsbD cfBit) x).rotateRight k).rotateRight 1 :=
      (Shifts.rotateRight_succ _ k (by omega)).symm
    rw [Function.iterate_succ_apply', ih, rcrStep_eq, getLsbD_putFlag _ _ _ (by decide), if_pos rfl,
      putFlag_putFlag f _ _ (by decide), hy]
    generalize (BitVec.cons (f.getLsbD cfBit) x).rotateRight k = z
    rw [← BitVec.cons_msb_setWidth z, Shifts.cons_rotateRight_one _ _ hw, BitVec.setWidth_cons,
      BitVec.msb_cons, BitVec.setWidth_cons, BitVec.msb_cons]

end Rotations

end Lebirun.Vfl
