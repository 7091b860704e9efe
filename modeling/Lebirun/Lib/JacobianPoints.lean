import Mathlib.AlgebraicGeometry.EllipticCurve.Jacobian.Point

namespace JacobianPoints
open WeierstrassCurve WeierstrassCurve.Jacobian
set_option autoImplicit true

/-! Points of `y ^ 2 = x ^ 3 - 3 * x + b` as triples: `(x / z ^ 2, y / z ^ 3)`, or infinity when `z` is 0. -/

structure Triple (F : Type u) where
  x : F
  y : F
  z : F

def Triple.coords (P : Triple F) : Fin 3 → F := ![P.x, P.y, P.z]

variable {F : Type u} [Field F]

def curve (b : F) : WeierstrassCurve F := ⟨0, 0, 0, -3, b⟩

namespace Triple

def infinity : Triple F := ⟨0, 0, 0⟩

/-- Twice a finite point. -/
def tangent (P : Triple F) : Triple F :=
  let s := 4 * P.x * P.y ^ 2
  let m := 3 * (P.x ^ 2 - P.z ^ 4)
  let x := m ^ 2 - 2 * s
  ⟨x, m * (s - x) - 8 * P.y ^ 4, 2 * P.y * P.z⟩

/-- The sum of two finite points whose `x` differ. -/
def chord (P Q : Triple F) : Triple F :=
  let u := P.x * Q.z ^ 2
  let s := P.y * Q.z ^ 3
  let h := Q.x * P.z ^ 2 - u
  let r := 2 * (Q.y * P.z ^ 3 - s)
  let v := u * (2 * h) ^ 2
  let x := r ^ 2 - h * (2 * h) ^ 2 - 2 * v
  ⟨x, r * (v - x) - 2 * s * (h * (2 * h) ^ 2), 2 * P.z * Q.z * h⟩

/-- On the curve, or at infinity. -/
def Valid (b : F) (P : Triple F) : Prop := P.z = 0 ∨ (curve b).toJacobian.Nonsingular P.coords

noncomputable def point (b : F) (P : Triple F) : (curve b).toAffine.Point :=
  Point.toAffine (curve b).toJacobian P.coords

variable {b : F} {P Q : Triple F}

theorem point_infinity (h : P.z = 0) : P.point b = 0 := Point.toAffine_of_Z_eq_zero h

theorem negY_coords (b : F) (P : Triple F) : (curve b).toJacobian.negY P.coords = -P.y := by
  rw [coords, negY_eq]
  change -P.y - 0 * P.x * P.z - 0 * P.z ^ 3 = -P.y
  ring

theorem tangent_coords (b : F) (P : Triple F) : P.tangent.coords = (curve b).toJacobian.dblXYZ P.coords := by
  have hu : (curve b).toJacobian.dblU P.coords = -(3 * (P.x ^ 2 - P.z ^ 4)) := by
    rw [dblU_eq]
    change 0 * P.y * P.z - (3 * P.x ^ 2 + 2 * 0 * P.x * P.z ^ 2 + -3 * P.z ^ 4) = _
    ring
  have hx : (curve b).toJacobian.dblX P.coords = P.tangent.x := by
    rw [dblX, hu, negY_coords]
    change (-(3 * (P.x ^ 2 - P.z ^ 4))) ^ 2 - 0 * _ * P.z * _ - 0 * P.z ^ 2 * _ ^ 2 - 2 * P.x * (P.y - -P.y) ^ 2 =
      (3 * (P.x ^ 2 - P.z ^ 4)) ^ 2 - 2 * (4 * P.x * P.y ^ 2)
    ring
  have hz : (curve b).toJacobian.dblZ P.coords = P.tangent.z := by
    rw [dblZ, negY_coords]
    change P.z * (P.y - -P.y) = 2 * P.y * P.z
    ring
  have hy : (curve b).toJacobian.dblY P.coords = P.tangent.y := by
    have hneg := negY_coords b ⟨P.tangent.x, (curve b).toJacobian.negDblY P.coords, P.tangent.z⟩
    rw [dblY, hx, hz]
    refine hneg.trans ?_
    rw [negDblY, hu, hx, negY_coords]
    change -(-(-(3 * (P.x ^ 2 - P.z ^ 4))) * (P.tangent.x - P.x * (P.y - -P.y) ^ 2) + P.y * (P.y - -P.y) ^ 3) =
      3 * (P.x ^ 2 - P.z ^ 4) * (4 * P.x * P.y ^ 2 - P.tangent.x) - 8 * P.y ^ 4
    ring
  rw [dblXYZ, hx, hy, hz]
  rfl

theorem chord_coords (hP : (curve b).toJacobian.Equation P.coords) (hQ : (curve b).toJacobian.Equation Q.coords) :
    (P.chord Q).coords = (-(2 * P.z * Q.z)) • (curve b).toJacobian.addXYZ P.coords Q.coords := by
  obtain ⟨x, hx⟩ : ∃ x, x = (curve b).toJacobian.addX P.coords Q.coords := ⟨_, rfl⟩
  obtain ⟨y, hy⟩ : ∃ y, y = (curve b).toJacobian.negAddY P.coords Q.coords := ⟨_, rfl⟩
  obtain ⟨d, hd⟩ : ∃ d, d = P.x * Q.z ^ 2 - Q.x * P.z ^ 2 := ⟨_, rfl⟩
  obtain ⟨r, hr⟩ : ∃ r, r = P.y * Q.z ^ 3 - Q.y * P.z ^ 3 := ⟨_, rfl⟩
  have haddX : x * (P.z * Q.z) ^ 2 =
      r ^ 2 + 0 * r * P.z * Q.z * d - 0 * P.z ^ 2 * Q.z ^ 2 * d ^ 2 - P.x * Q.z ^ 2 * d ^ 2 - Q.x * P.z ^ 2 * d ^ 2 := by
    rw [hx, hd, hr]
    exact addX_eq' hP hQ
  have haddY : y * (P.z * Q.z) ^ 3 = r * (x * (P.z * Q.z) ^ 2 - P.x * Q.z ^ 2 * d ^ 2) + P.y * Q.z ^ 3 * d ^ 3 := by
    rw [hx, hy, hd, hr]
    exact negAddY_eq' P.coords Q.coords
  have hneg : (curve b).toJacobian.addY P.coords Q.coords = -y := by
    rw [hy]
    exact negY_coords b ⟨(curve b).toJacobian.addX P.coords Q.coords, (curve b).toJacobian.negAddY P.coords Q.coords,
      addZ P.coords Q.coords⟩
  have hX : (P.chord Q).x = (-(2 * P.z * Q.z)) ^ 2 * x := by
    change (2 * (Q.y * P.z ^ 3 - P.y * Q.z ^ 3)) ^ 2 - (Q.x * P.z ^ 2 - P.x * Q.z ^ 2) *
      (2 * (Q.x * P.z ^ 2 - P.x * Q.z ^ 2)) ^ 2 - 2 * (P.x * Q.z ^ 2 * (2 * (Q.x * P.z ^ 2 - P.x * Q.z ^ 2)) ^ 2) = _
    rw [hd, hr] at haddX
    linear_combination -4 * haddX
  have hY : (P.chord Q).y = (-(2 * P.z * Q.z)) ^ 3 * -y := by
    change 2 * (Q.y * P.z ^ 3 - P.y * Q.z ^ 3) *
      (P.x * Q.z ^ 2 * (2 * (Q.x * P.z ^ 2 - P.x * Q.z ^ 2)) ^ 2 - (P.chord Q).x) - 2 * (P.y * Q.z ^ 3) *
      ((Q.x * P.z ^ 2 - P.x * Q.z ^ 2) * (2 * (Q.x * P.z ^ 2 - P.x * Q.z ^ 2)) ^ 2) = _
    rw [hX]
    rw [hd, hr] at haddY
    linear_combination -8 * haddY
  have hZ : (P.chord Q).z = -(2 * P.z * Q.z) * d := by
    change 2 * P.z * Q.z * (Q.x * P.z ^ 2 - P.x * Q.z ^ 2) = _
    rw [hd]
    ring
  rw [smul_fin3, coords, hX, hY, hZ, hx, hd, ← hneg]
  rfl

theorem valid_infinity : (infinity : Triple F).Valid b := Or.inl rfl

variable [DecidableEq F]

/-- A point that is its own negative has `y` equal to 0, and the tangent there has `z` equal to 0: no case is needed for it. -/
theorem tangent_spec (hP : (curve b).toJacobian.Nonsingular P.coords) :
    P.tangent.Valid b ∧ P.tangent.point b = P.point b + P.point b := by
  have hadd : P.tangent.coords = (curve b).toJacobian.add P.coords P.coords := by
    rw [add_self, tangent_coords]
  refine ⟨Or.inr (hadd ▸ nonsingular_add hP hP), ?_⟩
  rw [point, hadd, Point.toAffine_add hP hP]
  rfl

theorem chord_spec (h2 : (2 : F) ≠ 0) (hP : (curve b).toJacobian.Nonsingular P.coords)
    (hQ : (curve b).toJacobian.Nonsingular Q.coords) (hPz : P.z ≠ 0) (hQz : Q.z ≠ 0)
    (hx : P.x * Q.z ^ 2 ≠ Q.x * P.z ^ 2) :
    (P.chord Q).Valid b ∧ (P.chord Q).point b = P.point b + Q.point b := by
  have hunit : IsUnit (-(2 * P.z * Q.z)) := (neg_ne_zero.2 (mul_ne_zero (mul_ne_zero h2 hPz) hQz)).isUnit
  have hadd : (P.chord Q).coords = (-(2 * P.z * Q.z)) • (curve b).toJacobian.add P.coords Q.coords := by
    rw [add_of_not_equiv (not_equiv_of_X_ne hx), chord_coords hP.left hQ.left]
  refine ⟨Or.inr ?_, ?_⟩
  · rw [hadd, nonsingular_smul _ hunit]
    exact nonsingular_add hP hQ
  · rw [point, hadd, Point.toAffine_smul _ hunit, Point.toAffine_add hP hQ]
    rfl

def double (P : Triple F) : Triple F := if P.z = 0 then infinity else P.tangent

def add (P Q : Triple F) : Triple F :=
  if P.z = 0 then Q
  else if Q.z = 0 then P
  else if P.x * Q.z ^ 2 = Q.x * P.z ^ 2 then
    if P.y * Q.z ^ 3 ≠ Q.y * P.z ^ 3 then infinity else P.double
  else P.chord Q

theorem double_spec (hP : P.Valid b) : P.double.Valid b ∧ P.double.point b = P.point b + P.point b := by
  rw [double]
  split
  · rename_i hz
    rw [point_infinity hz, point_infinity rfl, add_zero]
    exact ⟨valid_infinity, rfl⟩
  · rename_i hz
    exact tangent_spec (hP.resolve_left hz)

/-- The cases of infinity, of equal and of opposite points included. -/
theorem add_spec (h2 : (2 : F) ≠ 0) (hP : P.Valid b) (hQ : Q.Valid b) :
    (P.add Q).Valid b ∧ (P.add Q).point b = P.point b + Q.point b := by
  rw [add]
  by_cases hPz : P.z = 0
  · rw [if_pos hPz, point_infinity hPz, zero_add]
    exact ⟨hQ, rfl⟩
  by_cases hQz : Q.z = 0
  · rw [if_neg hPz, if_pos hQz, point_infinity hQz, add_zero]
    exact ⟨hP, rfl⟩
  have hPn := hP.resolve_left hPz
  have hQn := hQ.resolve_left hQz
  rw [if_neg hPz, if_neg hQz]
  by_cases hx : P.x * Q.z ^ 2 = Q.x * P.z ^ 2
  · rw [if_pos hx]
    by_cases hy : P.y * Q.z ^ 3 ≠ Q.y * P.z ^ 3
    · rw [if_pos hy, point_infinity rfl]
      refine ⟨valid_infinity, ?_⟩
      have hadd := Point.toAffine_add hPn hQn
      rw [add_of_Y_ne hPn.left hQn.left hPz hQz hx hy, Point.toAffine_smul _ (isUnit_addU_of_Y_ne hPz hQz hy),
        Point.toAffine_zero] at hadd
      exact hadd
    · rw [if_neg hy, double, if_neg hPz]
      have hequal : P.point b = Q.point b :=
        Point.toAffine_of_equiv (equiv_of_X_eq_of_Y_eq hPz hQz hx (not_not.1 hy))
      rw [← hequal]
      exact tangent_spec hPn
  · rw [if_neg hx]
    exact chord_spec h2 hPn hQn hPz hQz hx

end Triple

end JacobianPoints
