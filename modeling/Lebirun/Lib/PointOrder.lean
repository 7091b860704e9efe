import Mathlib
import Lebirun.Lib.JacobianPoints

namespace JacobianPoints
open WeierstrassCurve WeierstrassCurve.Affine
set_option autoImplicit true

/-! The number of points, when one point has a large prime order. -/

/-- `a + b * x + c * x ^ 2`, where `x ^ 3` is `3 * x - d`. -/
structure Residue (F : Type u) where
  a : F
  b : F
  c : F

namespace Residue

variable {F : Type u} [Field F] {d r : F} {k q : Nat}

def mul (d : F) (u v : Residue F) : Residue F :=
  let e := u.b * v.c + u.c * v.b
  let f := u.c * v.c
  ⟨u.a * v.a - d * e, u.a * v.b + u.b * v.a + (e + e + e) - d * f, u.a * v.c + u.b * v.b + u.c * v.a + (f + f + f)⟩

/-- `x ^ q`, for a `q` of at most `k` bits -/
def rootPow (d : F) : Nat → Nat → Residue F
  | 0, _ => ⟨1, 0, 0⟩
  | k + 1, q =>
    let h := rootPow d k (q / 2)
    if q % 2 = 1 then mul d ⟨0, 1, 0⟩ (mul d h h) else mul d h h

def eval (r : F) (u : Residue F) : F := u.a + u.b * r + u.c * r ^ 2

theorem eval_mul (hr : r ^ 3 - 3 * r + d = 0) (u v : Residue F) : (mul d u v).eval r = u.eval r * v.eval r := by
  rw [eval, eval, eval, mul]
  dsimp only
  linear_combination (-(u.b * v.c + u.c * v.b) - r * (u.c * v.c)) * hr

theorem eval_rootPow (hr : r ^ 3 - 3 * r + d = 0) (hq : q < 2 ^ k) : (rootPow d k q).eval r = r ^ q := by
  induction k generalizing q with
  | zero =>
    rw [Nat.lt_one_iff.1 hq, pow_zero, rootPow, eval]
    ring
  | succ k ih =>
    rw [pow_succ] at hq
    have hhalf := ih (by omega : q / 2 < 2 ^ k)
    have hsplit := Nat.div_add_mod q 2
    have hsquare : (mul d (rootPow d k (q / 2)) (rootPow d k (q / 2))).eval r = r ^ (2 * (q / 2)) := by
      rw [eval_mul hr, hhalf, two_mul, pow_add]
    have hroot : (⟨0, 1, 0⟩ : Residue F).eval r = r := by
      rw [eval]
      ring
    rw [rootPow]
    by_cases hodd : q % 2 = 1
    · rw [if_pos hodd, eval_mul hr, hroot, hsquare, ← pow_succ', ← hodd, hsplit]
    · rw [if_neg hodd, hsquare]
      congr 1
      omega

/-- When every element is its own `q`-th power and `x ^ q - x` has an inverse, the polynomial has no root. -/
theorem no_root (hF : ∀ r : F, r ^ q = r) (hq : q < 2 ^ k) {w u : Residue F} (hu : u = rootPow d k q)
    (hw : mul d w ⟨u.a, u.b - 1, u.c⟩ = ⟨1, 0, 0⟩) (r : F) : r ^ 3 - 3 * r + d ≠ 0 := by
  intro hr
  have hpow : u.eval r = r := by
    rw [hu, eval_rootPow hr hq, hF]
  have hone : (mul d w ⟨u.a, u.b - 1, u.c⟩).eval r = 1 := by
    rw [hw, eval]
    ring
  have hzero : (⟨u.a, u.b - 1, u.c⟩ : Residue F).eval r = 0 := by
    rw [eval] at hpow ⊢
    linear_combination hpow
  rw [eval_mul hr, hzero, mul_zero] at hone
  exact zero_ne_one hone

end Residue

namespace Triple

variable {F : Type u} [Field F] {b : F} {P : Triple F} {k q : Nat}

/-- A triple on the curve with `z` equal to 1 is the point of its `x` and `y`. -/
theorem point_one {x y : F} (h : (curve b).toAffine.Nonsingular x y) :
    (⟨x, y, 1⟩ : Triple F).Valid b ∧ (⟨x, y, 1⟩ : Triple F).point b = .some x y h := by
  have hjac : (curve b).toJacobian.Nonsingular ![x, y, 1] := (Jacobian.nonsingular_some x y).2 h
  exact ⟨Or.inr hjac, Jacobian.Point.toAffine_some hjac⟩

/-- A triple with `z` not 0 is the point of its two quotients. -/
theorem point_finite (hP : P.Valid b) (hz : P.z ≠ 0) :
    ∃ h, P.point b = .some (P.x / P.z ^ 2) (P.y / P.z ^ 3) h :=
  ⟨_, Jacobian.Point.toAffine_of_Z_ne_zero (hP.resolve_left hz) hz⟩

variable [DecidableEq F]

/-- `q` times the point, for a `q` of at most `k` bits -/
def multiple (P : Triple F) : Nat → Nat → Triple F
  | 0, _ => infinity
  | k + 1, q => if q % 2 = 1 then (P.multiple k (q / 2)).double.add P else (P.multiple k (q / 2)).double

theorem multiple_spec (h2 : (2 : F) ≠ 0) (hP : P.Valid b) (hq : q < 2 ^ k) :
    (P.multiple k q).Valid b ∧ (P.multiple k q).point b = q • P.point b := by
  induction k generalizing q with
  | zero =>
    rw [Nat.lt_one_iff.1 hq, zero_nsmul, multiple, point_infinity rfl]
    exact ⟨valid_infinity, rfl⟩
  | succ k ih =>
    rw [pow_succ] at hq
    obtain ⟨hvalid, hpoint⟩ := ih (by omega : q / 2 < 2 ^ k)
    obtain ⟨hdouble, hsum⟩ := double_spec hvalid
    rw [hpoint, ← two_nsmul, ← mul_nsmul'] at hsum
    have hsplit := Nat.div_add_mod q 2
    rw [multiple]
    by_cases hodd : q % 2 = 1
    · obtain ⟨hadd, htotal⟩ := add_spec h2 hdouble hP
      rw [if_pos hodd, htotal, hsum, ← succ_nsmul, ← hodd, hsplit]
      exact ⟨hadd, rfl⟩
    · rw [if_neg hodd, hsum]
      have heven : 2 * (q / 2) = q := by omega
      rw [heven]
      exact ⟨hdouble, rfl⟩

end Triple

/-! Counting points. -/

variable {p n : Nat} [Fact p.Prime] {b x y : ZMod p}

theorem equation_iff : (curve b).toAffine.Equation x y ↔ y ^ 2 = x ^ 3 - 3 * x + b := by
  have hform : y ^ 2 + 0 * x * y + 0 * y = y ^ 2 := by ring
  have hform' : x ^ 3 + 0 * x ^ 2 + -3 * x + b = x ^ 3 - 3 * x + b := by ring
  rw [Affine.equation_iff, curve, hform, hform']

/-- The first coordinate, and which of two opposite points it is. -/
def code : (curve b).toAffine.Point → Option (ZMod p × Bool)
  | .zero => none
  | .some x y _ => some (x, decide (2 * y.val < p))

theorem code_injective (hp : p ≠ 2) : Function.Injective (@code p _ b) := by
  intro P Q h
  cases P with
  | zero =>
    cases Q with
    | zero => rfl
    | some x y hQ => exact absurd h (Option.some_ne_none _).symm
  | some x y hP =>
    cases Q with
    | zero => exact absurd h (Option.some_ne_none _)
    | some x' y' hQ =>
      rw [code, code, Option.some.injEq, Prod.mk.injEq, decide_eq_decide] at h
      obtain ⟨rfl, hsign⟩ := h
      have heq := (equation_iff.1 hP.left).trans (equation_iff.1 hQ.left).symm
      obtain rfl | hneg := sq_eq_sq_iff_eq_or_eq_neg.1 heq
      · rfl
      by_cases hzero : y' = 0
      · rw [hzero, neg_zero] at hneg
        subst hneg hzero
        rfl
      have hodd : p % 2 = 1 := (Fact.out : p.Prime).eq_two_or_odd.resolve_left hp
      have hlt := ZMod.val_lt y'
      rw [hneg, ZMod.neg_val, if_neg hzero] at hsign
      omega

theorem card_points (hp : p ≠ 2) (b : ZMod p) :
    Finite (curve b).toAffine.Point ∧ Nat.card (curve b).toAffine.Point ≤ 2 * p + 1 := by
  have hcard : Nat.card (Option (ZMod p × Bool)) = 2 * p + 1 := by
    rw [Nat.card_eq_fintype_card, Fintype.card_option, Fintype.card_prod, ZMod.card, Fintype.card_bool, mul_comm]
  refine ⟨Finite.of_injective code (code_injective hp), ?_⟩
  rw [← hcard]
  exact Nat.card_le_card_of_injective code (code_injective hp)

/-- Without a root of the cubic no point is its own negative. -/
theorem eq_zero_of_two_nsmul (hp : p ≠ 2) (hroot : ∀ x : ZMod p, x ^ 3 - 3 * x + b ≠ 0)
    {P : (curve b).toAffine.Point} (h : 2 • P = 0) : P = 0 := by
  cases P with
  | zero => rfl
  | some x y hP =>
    exfalso
    rw [two_nsmul, add_eq_zero_iff_eq_neg, Point.neg_some, Point.some.injEq] at h
    have hneg : y = -y - 0 * x - 0 := h.2
    have htwo : (2 : ZMod p) ≠ 0 := by
      have hchar : ((2 : Nat) : ZMod p) ≠ 0 := by
        rw [Ne, ZMod.natCast_eq_zero_iff]
        exact fun hdvd => hp ((Nat.prime_dvd_prime_iff_eq Fact.out Nat.prime_two).1 hdvd)
      exact_mod_cast hchar
    have hy : y = 0 := by
      have hsum : 2 * y = 0 := by linear_combination hneg
      exact (mul_eq_zero.1 hsum).resolve_left htwo
    have heq := equation_iff.1 hP.left
    rw [hy] at heq
    exact hroot x (by linear_combination -heq)

/-- There are `n` points: at most twice as many by counting, and no point of order two. -/
theorem nsmul_eq_zero_of_prime [Fact n.Prime] (hp : p ≠ 2) (hlarge : 2 * p + 1 < 3 * n)
    (hroot : ∀ x : ZMod p, x ^ 3 - 3 * x + b ≠ 0) {G : (curve b).toAffine.Point} (hG : n • G = 0) (hne : G ≠ 0)
    (Q : (curve b).toAffine.Point) : n • Q = 0 := by
  obtain ⟨hfinite, hcard⟩ := card_points hp b
  have hpos : 0 < Nat.card (curve b).toAffine.Point := Nat.card_pos
  have hdvd : n ∣ Nat.card (curve b).toAffine.Point := by
    rw [← addOrderOf_eq_prime hG hne]
    exact addOrderOf_dvd_natCard G
  obtain ⟨k, hk⟩ := hdvd
  have hk3 : k < 3 := by
    by_contra hge
    have hmul := Nat.mul_le_mul_left n (not_lt.1 hge)
    omega
  have hk0 : k ≠ 0 := by
    rintro rfl
    omega
  have hk2 : k ≠ 2 := by
    rintro rfl
    obtain ⟨P, hP⟩ := exists_prime_addOrderOf_dvd_card' 2 (hk ▸ Dvd.intro_left n rfl)
    have hzero := eq_zero_of_two_nsmul hp hroot (hP ▸ addOrderOf_nsmul_eq_zero P)
    rw [hzero, addOrderOf_zero] at hP
    omega
  have hk1 : k = 1 := by omega
  have hall : Nat.card (curve b).toAffine.Point • Q = 0 := card_nsmul_eq_zero'
  rw [hk, hk1, Nat.mul_one] at hall
  exact hall

end JacobianPoints
