import Mathlib
import Lebirun.Lib.PointOrder
import Lebirun.Tls.P256Point

namespace Lebirun.Tls.P256
open Limbs JacobianPoints WeierstrassCurve
set_option autoImplicit true

/-- `p256_gx` -/
def p256Gx : Field :=
  [0xD898C296, 0xF4A13945, 0x2DEB33A0, 0x77037D81, 0x63A440F2, 0xF8BCE6E5, 0xE12C4247, 0x6B17D1F2]

/-- `p256_gy` -/
def p256Gy : Field :=
  [0x37BF51F5, 0xCBB64068, 0x6B315ECE, 0x2BCE3357, 0x7C0F9E16, 0x8EE7EB4A, 0xFE1A7F9B, 0x4FE342E2]

/-- `p256_b` -/
def p256B : Field :=
  [0x27D2604B, 0x3BCE3C3E, 0xCC53B0F6, 0x651D06B0, 0x769886BC, 0xB3EBBD55, 0xAA3A93E7, 0x5AC635D8]

/-! The curve and its base point. -/

abbrev bNat : Nat := 0x5AC635D8AA3A93E7B3EBBD55769886BC651D06B0CC53B0F63BCE3C3E27D2604B

abbrev gxNat : Nat := 0x6B17D1F2E12C4247F8BCE6E563A440F277037D812DEB33A0F4A13945D898C296

abbrev gyNat : Nat := 0x4FE342E2FE1A7F9B8EE7EB4A7C0F9E162BCE33576B315ECECBB6406837BF51F5

/-- `y ^ 2 = x ^ 3 - 3 * x + b` over the integers modulo `p` -/
abbrev curve256 : Affine (ZMod p) := (curve (bNat : ZMod p)).toAffine

theorem constants_val : val p256B = bNat ∧ val p256Gx = gxNat ∧ val p256Gy = gyNat := by decide

theorem curve256_discriminant : (curve (bNat : ZMod p)).Δ ≠ 0 := by
  have hvalue : (curve (bNat : ZMod p)).Δ = 432 * (4 - (bNat : ZMod p) ^ 2) := by
    rw [Δ, b₂, b₄, b₆, b₈, curve]
    ring
  rw [hvalue]
  decide +kernel

/-- Every solution of the equation is a point. -/
theorem nonsingular_iff {x y : ZMod p} : curve256.Nonsingular x y ↔ y ^ 2 = x ^ 3 - 3 * x + bNat :=
  (Affine.equation_iff_nonsingular_of_Δ_ne_zero curve256_discriminant).symm.trans equation_iff

theorem base_nonsingular : curve256.Nonsingular gxNat gyNat := by
  rw [nonsingular_iff]
  decide +kernel

/-- The base point. -/
abbrev G : curve256.Point := .some gxNat gyNat base_nonsingular

theorem two_ne : (2 : ZMod p) ≠ 0 := by decide +kernel

theorem base_multiple : ((⟨gxNat, gyNat, 1⟩ : Triple (ZMod p)).multiple 256 n).z = 0 := by decide +kernel

theorem n_nsmul_base : n • G = 0 := by
  obtain ⟨hvalid, hpoint⟩ := Triple.point_one base_nonsingular
  obtain ⟨-, hmultiple⟩ := Triple.multiple_spec two_ne hvalid (by decide : n < 2 ^ 256)
  rw [hpoint] at hmultiple
  rw [← hmultiple]
  exact Triple.point_infinity base_multiple

/-- The inverse of `x ^ p - x` modulo the cubic. -/
def inverse : Residue (ZMod p) :=
  ⟨76626890310466861426869089647039036757962535851890885406097439786770458211455,
    74462945259064871768191128030512052509059297803194871526163573358218695456204,
    34768139465301476436978405170953382516735956999154666452188405812258086013549⟩

theorem inverse_check : ∀ u, u = Residue.rootPow (bNat : ZMod p) 256 p →
    Residue.mul (bNat : ZMod p) inverse ⟨u.a, u.b - 1, u.c⟩ = ⟨1, 0, 0⟩ := by
  rintro u rfl
  rw [Residue.mk.injEq]
  decide +kernel

/-- Every point has the order of the base point. -/
theorem n_nsmul (Q : curve256.Point) : n • Q = 0 := by
  have hroot : ∀ x : ZMod p, x ^ 3 - 3 * x + bNat ≠ 0 :=
    Residue.no_root ZMod.pow_card (by decide : p < 2 ^ 256) rfl (inverse_check _ rfl)
  exact nsmul_eq_zero_of_prime (by decide) (by decide) hroot n_nsmul_base (Affine.Point.some_ne_zero _) Q

/-- `p256_point_double` and `p256_point_add` are the group law, for all points on the curve or at infinity and
whether or not the output is an input. -/
theorem p256Points_group {ks : Set Nat} {m : Store} {T : Nat → Triple (ZMod p)} {k q : Nat} (h : Points ks m T)
    (hk : k ∈ ks) (hq : q ∈ ks) (hkv : (T k).Valid (bNat : ZMod p)) (hqv : (T q).Valid (bNat : ZMod p)) (r : Nat) :
    (∃ m' R, p256PointDouble r k m = some m' ∧ Points (insert r ks) m' (Function.update T r R) ∧
      R.Valid (bNat : ZMod p) ∧ R.point (bNat : ZMod p) = 2 • (T k).point (bNat : ZMod p)) ∧
    (∃ m' R, p256PointAdd r k q m = some m' ∧ Points (insert r ks) m' (Function.update T r R) ∧
      R.Valid (bNat : ZMod p) ∧
      R.point (bNat : ZMod p) = (T k).point (bNat : ZMod p) + (T q).point (bNat : ZMod p)) := by
  obtain ⟨m₁, hdouble, h₁⟩ := p256PointDouble_points h hk r
  obtain ⟨m₂, hadd, h₂⟩ := p256PointAdd_points h hk hq r
  obtain ⟨hvalid, hpoint⟩ := Triple.double_spec hkv
  obtain ⟨hvalid', hpoint'⟩ := Triple.add_spec two_ne hkv hqv
  rw [← two_nsmul] at hpoint
  exact ⟨⟨m₁, _, hdouble, h₁, hvalid, hpoint⟩, ⟨m₂, _, hadd, h₂, hvalid', hpoint'⟩⟩

theorem zeros_points : Points Set.univ (fun _ => zero) fun _ => Triple.infinity := by
  have hbelow : val zero < p := by decide
  have hzero : ((val zero : Nat) : ZMod p) = 0 := by rw [zero_val, Nat.cast_zero]
  exact ⟨Set.univ, fun _ => 0, ⟨fun _ => rfl, fun _ _ => hbelow, fun _ _ => hzero⟩,
    fun _ _ => ⟨⟨trivial, trivial, trivial⟩, rfl⟩⟩

/-- Infinity twice, in one buffer. -/
theorem p256Points_group_infinity :
    (∃ m' R, p256PointDouble 0 0 (fun _ => zero) = some m' ∧
      Points (insert 0 Set.univ) m' (Function.update (fun _ => Triple.infinity) 0 R) ∧ R.Valid (bNat : ZMod p) ∧
      R.point (bNat : ZMod p) = 2 • Triple.infinity.point (bNat : ZMod p)) ∧
    (∃ m' R, p256PointAdd 0 0 0 (fun _ => zero) = some m' ∧
      Points (insert 0 Set.univ) m' (Function.update (fun _ => Triple.infinity) 0 R) ∧ R.Valid (bNat : ZMod p) ∧
      R.point (bNat : ZMod p) = Triple.infinity.point (bNat : ZMod p) + Triple.infinity.point (bNat : ZMod p)) :=
  p256Points_group zeros_points trivial trivial Triple.valid_infinity Triple.valid_infinity 0

end Lebirun.Tls.P256
