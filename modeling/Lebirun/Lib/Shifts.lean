import Mathlib.Data.BitVec
import Mathlib.Tactic.SplitIfs

namespace Shifts
set_option autoImplicit true

theorem succ_mod (k : Nat) (hw : 1 < w) :
    (k + 1) % w = if k % w + 1 = w then 0 else k % w + 1 := by
  have hlt : k % w < w := Nat.mod_lt _ (by omega)
  rw [Nat.add_mod, Nat.mod_eq_of_lt hw]
  split
  · rename_i h
    rw [h, Nat.mod_self]
  · exact Nat.mod_eq_of_lt (by omega)

/-- The bit of a word rotated left by less than its width. -/
theorem getLsbD_rotl (x : BitVec w) (hr : r < w) (hi : i < w) :
    (x.rotateLeft r).getLsbD i = x.getLsbD (if i < r then w - r + i else i - r) := by
  rw [BitVec.getLsbD_rotateLeft_of_le hr]
  by_cases h : i < r
  · simp [h]
  · simp [h, hi]

theorem getLsbD_rotr (x : BitVec w) (hr : r < w) (hi : i < w) :
    (x.rotateRight r).getLsbD i = x.getLsbD (if i < w - r then r + i else i - (w - r)) := by
  rw [BitVec.getLsbD_rotateRight_of_lt hr]
  by_cases h : i < w - r
  · simp [h]
  · simp [h, hi]

/-- Rotating once more. -/
theorem rotateLeft_succ (x : BitVec w) (k : Nat) (hw : 1 < w) :
    (x.rotateLeft k).rotateLeft 1 = x.rotateLeft (k + 1) := by
  have hlt : k % w < w := Nat.mod_lt _ (by omega)
  have hlt' : (k + 1) % w < w := Nat.mod_lt _ (by omega)
  rw [← BitVec.rotateLeft_mod_eq_rotateLeft (r := k),
    ← BitVec.rotateLeft_mod_eq_rotateLeft (r := k + 1)]
  apply BitVec.eq_of_getLsbD_eq
  intro i hi
  rw [getLsbD_rotl _ hw hi, getLsbD_rotl _ hlt' hi, getLsbD_rotl _ hlt (by split <;> omega)]
  congr 1
  rw [succ_mod k hw]
  split_ifs <;> omega

theorem rotateRight_succ (x : BitVec w) (k : Nat) (hw : 1 < w) :
    (x.rotateRight k).rotateRight 1 = x.rotateRight (k + 1) := by
  have hlt : k % w < w := Nat.mod_lt _ (by omega)
  have hlt' : (k + 1) % w < w := Nat.mod_lt _ (by omega)
  rw [← BitVec.rotateRight_mod_eq_rotateRight (r := k),
    ← BitVec.rotateRight_mod_eq_rotateRight (r := k + 1)]
  apply BitVec.eq_of_getLsbD_eq
  intro i hi
  rw [getLsbD_rotr _ hw hi, getLsbD_rotr _ hlt' hi, getLsbD_rotr _ hlt (by split <;> omega)]
  congr 1
  rw [succ_mod k hw]
  split_ifs <;> omega

theorem rotateLeft_one (x : BitVec w) (hw : 1 < w) :
    x.rotateLeft 1 = x <<< 1 ||| x >>> (w - 1) := by
  rw [BitVec.rotateLeft_def, Nat.mod_eq_of_lt hw]

theorem rotateRight_one (x : BitVec w) (hw : 1 < w) :
    x.rotateRight 1 = x >>> 1 ||| x <<< (w - 1) := by
  rw [BitVec.rotateRight_def, Nat.mod_eq_of_lt hw]

theorem rotateLeft_zero (x : BitVec w) (hw : 0 < w) : x.rotateLeft 0 = x := by
  apply BitVec.eq_of_getLsbD_eq
  intro i hi
  simp [getLsbD_rotl x hw hi]

theorem rotateRight_zero (x : BitVec w) : x.rotateRight 0 = x := by
  apply BitVec.eq_of_getLsbD_eq
  intro i hi
  simp [hi]

/-- A rotation through the carry moves the top bit to the carry and the carry to the bottom. -/
theorem cons_rotateLeft_one (c : Bool) (x : BitVec w) (hw : 1 < w) :
    (BitVec.cons c x).rotateLeft 1 = BitVec.cons x.msb (x <<< 1 ||| (BitVec.ofBool c).setWidth w) := by
  apply BitVec.eq_of_getLsbD_eq
  intro i hi
  rw [getLsbD_rotl _ (by omega) hi]
  simp only [BitVec.getLsbD_cons, BitVec.getLsbD_or, BitVec.getLsbD_shiftLeft, BitVec.getLsbD_setWidth,
    BitVec.getLsbD_ofBool, BitVec.msb_eq_getLsbD_last]
  by_cases h0 : i = 0
  · subst h0
    have : ¬ 0 = w := by omega
    have hlt : 0 < w := by omega
    simp [this, hlt]
  · by_cases hiw : i = w
    · subst hiw
      have h1 : ¬ i - 1 = i := by omega
      have h2 : ¬ i < 1 := by omega
      simp [h1, h2]
    · have h1 : ¬ i - 1 = w := by omega
      have h2 : ¬ i < 1 := by omega
      have h3 : i < w := by omega
      simp [h0, h1, h2, h3, hiw]

theorem cons_rotateRight_one (c : Bool) (x : BitVec w) (hw : 1 < w) :
    (BitVec.cons c x).rotateRight 1 =
      BitVec.cons (x.getLsbD 0) (x >>> 1 ||| (BitVec.ofBool c).setWidth w <<< (w - 1)) := by
  apply BitVec.eq_of_getLsbD_eq
  intro i hi
  rw [getLsbD_rotr _ (by omega) hi]
  simp only [BitVec.getLsbD_cons, BitVec.getLsbD_or, BitVec.getLsbD_shiftLeft, BitVec.getLsbD_setWidth,
    BitVec.getLsbD_ofBool, BitVec.getLsbD_ushiftRight]
  by_cases hiw : i = w
  · subst hiw
    have h3 : ¬ 0 = i := by omega
    simp [h3]
  · by_cases hlast : i = w - 1
    · have h2 : 1 + (w - 1) = w := by omega
      have h3 : w - 1 < w := by omega
      have h4 : ¬ w - 1 = w := by omega
      have h5 : 0 < w := by omega
      simp [hlast, h2, h3, h4, h5]
    · have h2 : ¬ 1 + i = w := by omega
      have h3 : i < w := by omega
      have h4 : i < w - 1 := by omega
      simp [hiw, h2, h3, h4]

end Shifts
