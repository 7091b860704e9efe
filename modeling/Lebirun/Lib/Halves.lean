import Mathlib.Data.BitVec
import Mathlib.Tactic.Linarith
import Mathlib.Tactic.Positivity
import Mathlib.Tactic.Ring

namespace Halves
set_option autoImplicit true

/-- A word read as a number, with or without a sign. -/
def value (neg : Bool) (x : BitVec w) : Int := if neg then x.toInt else x.toNat

/-- The numbers a word of `w` bits can hold. -/
def Fits (neg : Bool) (w : Nat) (n : Int) : Prop :=
  if neg then -2 ^ (w - 1) ≤ n ∧ n < 2 ^ (w - 1) else 0 ≤ n ∧ n < 2 ^ w

instance : Decidable (Fits neg w n) := by unfold Fits; infer_instance

theorem two_pow_pos (w : Nat) : (0 : Int) < 2 ^ w := by positivity

theorem toNat_ofInt (w : Nat) (n : Int) : ((BitVec.ofInt w n).toNat : Int) = n % 2 ^ w := by
  have hpos := two_pow_pos w
  rw [BitVec.toNat_ofInt]
  push_cast
  exact Int.toNat_of_nonneg (Int.emod_nonneg _ hpos.ne')

theorem fits_value (neg : Bool) (x : BitVec w) : Fits neg w (value neg x) := by
  cases neg with
  | true => exact ⟨BitVec.le_toInt x, BitVec.toInt_lt⟩
  | false =>
    have h : (x.toNat : Int) < 2 ^ w := by exact_mod_cast x.isLt
    exact ⟨Int.natCast_nonneg _, h⟩

/-- A number that fits is read back. -/
theorem value_ofInt (hw : 0 < w) (h : Fits neg w n) : value neg (BitVec.ofInt w n) = n := by
  cases neg with
  | true => exact BitVec.toInt_ofInt_eq_self hw h.1 h.2
  | false => exact (toNat_ofInt w n).trans (Int.emod_eq_of_lt h.1 h.2)

theorem value_ofInt_iff (hw : 0 < w) : value neg (BitVec.ofInt w n) = n ↔ Fits neg w n := by
  constructor
  · intro h
    rw [← h]
    exact fits_value neg _
  · exact value_ofInt hw

theorem setWidth_ofInt (n : Int) (h : w ≤ v) : (BitVec.ofInt v n).setWidth w = BitVec.ofInt w n := by
  apply BitVec.eq_of_toNat_eq
  have hdvd : (2 ^ w : Int) ∣ 2 ^ v := pow_dvd_pow 2 h
  apply Int.ofNat_inj.mp
  rw [BitVec.toNat_setWidth]
  push_cast
  rw [toNat_ofInt, toNat_ofInt, Int.emod_emod_of_dvd _ hdvd]

theorem ofInt_value (neg : Bool) (x : BitVec w) : BitVec.ofInt w (value neg x) = x := by
  cases neg with
  | true => exact BitVec.ofInt_toInt
  | false =>
    change BitVec.ofInt w (x.toNat : Int) = x
    rw [BitVec.ofInt_natCast, BitVec.ofNat_toNat, BitVec.setWidth_eq]

/-- Two digits of a number. -/
theorem emod_mul_self (n : Int) (hb : 0 < b) : n / b % b * b + n % b = n % (b * b) := by
  have hlow := Int.emod_nonneg n hb.ne'
  have hlow' := Int.emod_lt_of_pos n hb
  have hhigh := Int.emod_nonneg (n / b) hb.ne'
  have hhigh' := Int.emod_lt_of_pos (n / b) hb
  have hn : n % b + b * (n / b) = n := Int.emod_add_mul_ediv n b
  have hq : n / b % b + b * (n / b / b) = n / b := Int.emod_add_mul_ediv (n / b) b
  have huniq : n / (b * b) = n / b / b ∧ n % (b * b) = n / b % b * b + n % b := by
    rw [Int.ediv_emod_unique (mul_pos hb hb)]
    refine ⟨?_, ?_, ?_⟩
    · calc n / b % b * b + n % b + b * b * (n / b / b)
          = n % b + b * (n / b % b + b * (n / b / b)) := by ring
        _ = n := by rw [hq, hn]
    · positivity
    · nlinarith
  exact huniq.2.symm

/-- The two halves of a double word. -/
theorem append_ofInt (w : Nat) (n : Int) :
    BitVec.ofInt w (n / 2 ^ w) ++ BitVec.ofInt w n = BitVec.ofInt (w + w) n := by
  apply BitVec.eq_of_toNat_eq
  have hlow : (BitVec.ofInt w n).toNat < 2 ^ w := (BitVec.ofInt w n).isLt
  rw [BitVec.toNat_append, ← Nat.shiftLeft_add_eq_or_of_lt hlow, Nat.shiftLeft_eq]
  apply Int.ofNat_inj.mp
  push_cast
  rw [toNat_ofInt, toNat_ofInt, toNat_ofInt, pow_add]
  exact emod_mul_self n (two_pow_pos w)

/-- A product of two words fits a double word. -/
theorem fits_mul (hw : 0 < w) (x y : BitVec w) (neg : Bool) :
    Fits neg (w + w) (value neg x * value neg y) := by
  cases neg with
  | false =>
    have hx : (x.toNat : Int) < 2 ^ w := by exact_mod_cast x.isLt
    have hy : (y.toNat : Int) < 2 ^ w := by exact_mod_cast y.isLt
    refine ⟨mul_nonneg (Int.natCast_nonneg _) (Int.natCast_nonneg _), ?_⟩
    rw [pow_add]
    exact mul_lt_mul'' hx hy (Int.natCast_nonneg _) (Int.natCast_nonneg _)
  | true =>
    have hle := BitVec.toInt_mul_toInt_le (x := x) (y := y)
    have hge := BitVec.le_toInt_mul_toInt (x := x) (y := y)
    have hlt : (2 : Int) ^ (w * 2 - 2) < 2 ^ (w + w - 1) := pow_lt_pow_right₀ (by decide) (by omega)
    exact ⟨le_trans (neg_le_neg hlt.le) hge, lt_of_le_of_lt hle hlt⟩

/-- The dividends that are too large for a quotient of `w` bits. -/
def Overflows (neg : Bool) (w : Nat) (a b : Int) : Prop :=
  if neg then (if 0 ≤ a * b then 2 ^ (w - 1) else 2 ^ (w - 1) + 1) * b.natAbs ≤ a.natAbs
  else 2 ^ w * b ≤ a

instance : Decidable (Overflows neg w a b) := by unfold Overflows; infer_instance

theorem tdiv_of_nonneg {a b : Int} (h : 0 ≤ a * b) : a.tdiv b = (a.natAbs / b.natAbs : Nat) := by
  have hsign : 0 ≤ a.tdiv b := by
    obtain ⟨ha, hb⟩ | ⟨ha, hb⟩ := mul_nonneg_iff.mp h
    · exact Int.tdiv_nonneg ha hb
    · exact Int.tdiv_nonneg_of_nonpos_of_nonpos ha hb
  calc a.tdiv b = ((a.tdiv b).natAbs : Int) := (Int.natAbs_of_nonneg hsign).symm
    _ = (a.natAbs / b.natAbs : Nat) := by rw [Int.natAbs_tdiv]; rfl

theorem tdiv_of_neg {a b : Int} (h : a * b < 0) : a.tdiv b = -((a.natAbs / b.natAbs : Nat) : Int) := by
  have hflip : 0 ≤ -a * b := by linarith [Int.neg_mul a b]
  have hq := tdiv_of_nonneg hflip
  rw [Int.neg_tdiv, Int.natAbs_neg] at hq
  rw [← hq, neg_neg]

/-- The truncated quotient fits unless the dividend is too large. -/
theorem fits_tdiv_iff {a b : Int} (hb : b ≠ 0) (hsign : neg = false → 0 ≤ a ∧ 0 ≤ b) :
    Fits neg w (a.tdiv b) ↔ ¬ Overflows neg w a b := by
  have hpos : 0 < b.natAbs := Int.natAbs_pos.mpr hb
  cases neg with
  | false =>
    obtain ⟨ha, hb₀⟩ := hsign rfl
    have hb' : 0 < b := lt_of_le_of_ne hb₀ hb.symm
    change (0 ≤ a.tdiv b ∧ a.tdiv b < 2 ^ w) ↔ ¬ 2 ^ w * b ≤ a
    rw [not_le, Int.tdiv_eq_ediv_of_nonneg ha, Int.ediv_lt_iff_lt_mul hb']
    exact ⟨And.right, fun h => ⟨Int.ediv_nonneg ha hb₀, h⟩⟩
  | true =>
    have htwo := two_pow_pos (w - 1)
    have hcast : ((2 ^ (w - 1) : Nat) : Int) = 2 ^ (w - 1) := by push_cast; rfl
    change (-2 ^ (w - 1) ≤ a.tdiv b ∧ a.tdiv b < 2 ^ (w - 1)) ↔
      ¬ (if 0 ≤ a * b then 2 ^ (w - 1) else 2 ^ (w - 1) + 1) * b.natAbs ≤ a.natAbs
    by_cases h : 0 ≤ a * b
    · rw [if_pos h, not_le, ← Nat.div_lt_iff_lt_mul hpos, tdiv_of_nonneg h, ← hcast]
      generalize a.natAbs / b.natAbs = q
      omega
    · rw [if_neg h, not_le, ← Nat.div_lt_iff_lt_mul hpos, tdiv_of_neg (lt_of_not_ge h), ← hcast]
      have htwo' : 0 < 2 ^ (w - 1) := by positivity
      generalize a.natAbs / b.natAbs = q at *
      generalize 2 ^ (w - 1) = c at *
      omega

/-- A remainder fits the word of the divisor. -/
theorem fits_tmod {a : Int} (y : BitVec w) (hy : value neg y ≠ 0) (ha : neg = false → 0 ≤ a) :
    Fits neg w (a.tmod (value neg y)) := by
  have hfit := fits_value neg y
  have hlt : (a.tmod (value neg y)).natAbs < (value neg y).natAbs := by
    rw [Int.natAbs_tmod]
    exact Nat.mod_lt _ (Int.natAbs_pos.mpr hy)
  cases neg with
  | false =>
    have hnonneg := Int.tmod_nonneg (value false y) (ha rfl)
    obtain ⟨h₀, h₁⟩ := hfit
    exact ⟨hnonneg, by omega⟩
  | true =>
    obtain ⟨h₀, h₁⟩ := hfit
    exact ⟨by omega, by omega⟩

end Halves
