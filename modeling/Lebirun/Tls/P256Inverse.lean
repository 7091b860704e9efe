import Mathlib
import Lebirun.Tls.P256Curve
import Lebirun.Tls.Rsa

namespace Lebirun.Tls.P256
open Limbs JacobianPoints
set_option autoImplicit true

def one : Field := [1, 0, 0, 0, 0, 0, 0, 0]

/-- One turn of the inner loop of `p256_pow`: `base`, `acc` and `t` are the buffers 21 to 23. -/
def powBitOps (bit : Bool) : List Op :=
  let base := 21
  let acc := 22
  let t := 23
  .mul acc acc acc :: if bit then [.mul t acc base, .copy acc t] else []

/-- `p256_pow` -/
def p256PowOps (out a : Nat) (exp : Bytes) : List Op :=
  let base := 21
  let acc := 22
  [.copy base a, .put acc one] ++ (exp.flatMap byteBits).flatMap powBitOps ++ [.copy out acc]

/-- `p - 2` -/
def invExp : Bytes :=
  [0xFF, 0xFF, 0xFF, 0xFF, 0x00, 0x00, 0x00, 0x01,
    0x00, 0x00, 0x00, 0x00, 0x00, 0x00, 0x00, 0x00,
    0x00, 0x00, 0x00, 0x00, 0xFF, 0xFF, 0xFF, 0xFF,
    0xFF, 0xFF, 0xFF, 0xFF, 0xFF, 0xFF, 0xFF, 0xFD]

/-- `p256_inv` -/
def p256InvOps (out a : Nat) : List Op := p256PowOps out a invExp

/-- `p256_to_affine` of a finite point -/
def affineOps (k x y : Nat) : List Op :=
  let zi := 24
  let zi2 := 25
  let zi3 := 26
  p256InvOps zi (pz k) ++ [.mul zi2 zi zi, .mul zi3 zi2 zi, .mul x (px k) zi2, .mul y (py k) zi3]

/-- `p256_to_affine`: the value it returns and the buffers. -/
def p256ToAffine (k x y : Nat) (m : Store) : Option (Int × Store) :=
  if p256IsZero (m (pz k)) then some (-1, m) else (execAll (affineOps k x y) m).map fun m => (0, m)

/-- The two sides of the equation; `three` and `p256_b` are constants, put in buffers of their own. -/
def curveOps (x y : Nat) : List Op :=
  let lhs := 27
  let rhs := 28
  let t := 29
  let ax := 30
  let three := 31
  let b := 32
  [.put three [3, 0, 0, 0, 0, 0, 0, 0], .put b p256B, .mul lhs y y, .mul t x x, .mul rhs t x, .mul ax three x,
    .sub rhs rhs ax, .add rhs rhs b]

/-- `p256_on_curve` -/
def p256OnCurve (x y : Nat) (m : Store) : Option (Bool × Store) :=
  if p256Cmp (m x) p256P ≠ .lt ∨ p256Cmp (m y) p256P ≠ .lt then some (false, m)
  else (execAll (curveOps x y) m).map fun m => (p256Cmp (m 27) (m 28) = .eq, m)

/-- `p256_n_mul`, where the product is that of `bn_mul` -/
def p256NMul (a b : Field) : Option Field := bnMod (bnMul a b 8) p256N

/-- `n - 2` -/
def nInvExp : Bytes :=
  [0xFF, 0xFF, 0xFF, 0xFF, 0x00, 0x00, 0x00, 0x00,
    0xFF, 0xFF, 0xFF, 0xFF, 0xFF, 0xFF, 0xFF, 0xFF,
    0xBC, 0xE6, 0xFA, 0xAD, 0xA7, 0x17, 0x9E, 0x84,
    0xF3, 0xB9, 0xCA, 0xC2, 0xFC, 0x63, 0x25, 0x4F]

/-- `p256_n_inv`, whose loop is that of `bn_modexp` -/
def p256NInv (a : Field) : Option Field := modexpLoop a p256N one (nInvExp.flatMap byteBits)

variable {s : Set Nat} {m : Store} {f : Nat → ZMod p} {a b : Field} {i k q : Nat}

/-! Chains of calls, one after the other. -/

theorem evalAll_append (ops ops' : List Op) (f : Nat → ZMod p) :
    evalAll (ops ++ ops') f = evalAll ops' (evalAll ops f) := by
  induction ops generalizing f with
  | nil => rfl
  | cons op ops ih => exact ih (op.eval f)

theorem definedAll_append (ops ops' : List Op) (s : Set Nat) :
    DefinedAll (ops ++ ops') s ↔ DefinedAll ops s ∧ DefinedAll ops' (written ops s) := by
  induction ops generalizing s with
  | nil => exact ⟨fun h => ⟨trivial, h⟩, And.right⟩
  | cons op ops ih => exact (and_congr_right fun _ => ih _).trans and_assoc.symm

theorem written_by {ops : List Op} (op : Op) (hop : op ∈ ops) (hi : op.target = i) : i ∈ written ops s := by
  rw [← hi]
  exact written_target hop

/-! Powers. -/

theorem powBits_defined (bits : List Bool) (hb : 21 ∈ s) (hc : 22 ∈ s) : DefinedAll (bits.flatMap powBitOps) s := by
  induction bits generalizing s with
  | nil => trivial
  | cons bit bits ih =>
    rw [List.flatMap_cons, definedAll_append]
    refine ⟨?_, ih (written_old _ hb) (written_old _ hc)⟩
    cases bit with
    | false => exact ⟨⟨hc, hc⟩, trivial⟩
    | true => exact ⟨⟨hc, hc⟩, ⟨Or.inl rfl, Or.inr hb⟩, Or.inl rfl, trivial⟩

theorem powBits_eval (bits : List Bool) (x : ZMod p) (hb : f 21 = x) (hc : f 22 = x ^ k) :
    evalAll (bits.flatMap powBitOps) f 22 = x ^ bitsNat k bits := by
  induction bits generalizing f k with
  | nil => exact hc
  | cons bit bits ih =>
    rw [List.flatMap_cons, evalAll_append]
    have hsquare : x ^ k * x ^ k = x ^ (2 * k) := by rw [two_mul, pow_add]
    cases bit with
    | false =>
      have hbase : evalAll (powBitOps false) f 21 = f 21 := rfl
      have hacc : evalAll (powBitOps false) f 22 = f 22 * f 22 := rfl
      rw [hc, hsquare] at hacc
      exact ih (hbase.trans hb) hacc
    | true =>
      have hbase : evalAll (powBitOps true) f 21 = f 21 := rfl
      have hacc : evalAll (powBitOps true) f 22 = f 22 * f 22 * f 21 := rfl
      rw [hc, hb, hsquare, ← pow_succ] at hacc
      exact ih (hbase.trans hb) hacc

theorem p256PowOps_defined (exp : Bytes) (out : Nat) (ha : i ∈ s) : DefinedAll (p256PowOps out i exp) s := by
  have hone : val one < p := by decide
  rw [p256PowOps, definedAll_append, definedAll_append]
  refine ⟨⟨⟨ha, ⟨rfl, hone⟩, trivial⟩, powBits_defined _ (Or.inr (Or.inl rfl)) (Or.inl rfl)⟩, ?_, trivial⟩
  exact written_by (.put 22 one) (List.mem_append_left _ (List.mem_cons_of_mem _ (List.mem_cons_self ..))) rfl

theorem p256PowOps_eval (exp : Bytes) (out : Nat) (f : Nat → ZMod p) :
    evalAll (p256PowOps out i exp) f out = f i ^ beNat exp := by
  have hone : ((val one : Nat) : ZMod p) = f i ^ 0 := by
    have hval : val one = 1 := by decide
    rw [hval, Nat.cast_one, pow_zero]
  have hbits := @powBits_eval (evalAll [.copy 21 i, .put 22 one] f) 0 (exp.flatMap byteBits) (f i) rfl hone
  rw [bitsNat_bytes, Nat.zero_mul, Nat.zero_add] at hbits
  rw [p256PowOps, evalAll_append, evalAll_append, ← hbits]
  exact Function.update_self ..

theorem p256PowOps_other (exp : Bytes) (f : Nat → ZMod p) {out j : Nat} (hout : j ≠ out)
    (hj : j ≠ 21 ∧ j ≠ 22 ∧ j ≠ 23) : evalAll (p256PowOps out i exp) f j = f j := by
  apply evalAll_other
  intro op hop
  rw [p256PowOps, List.mem_append, List.mem_append, List.mem_flatMap] at hop
  obtain (hop | ⟨bit, -, hop⟩) | hop := hop
  · simp only [List.mem_cons, List.not_mem_nil, or_false] at hop
    obtain rfl | rfl := hop
    · exact hj.1.symm
    · exact hj.2.1.symm
  · cases bit with
    | false =>
      rw [powBitOps, if_neg Bool.false_ne_true, List.mem_singleton] at hop
      rw [hop]
      exact hj.2.1.symm
    | true =>
      simp only [powBitOps, if_true, List.mem_cons, List.not_mem_nil, or_false] at hop
      obtain rfl | rfl | rfl := hop
      · exact hj.2.1.symm
      · exact hj.2.2.symm
      · exact hj.2.1.symm
  · rw [List.mem_singleton.1 hop]
    exact hout.symm

/-- Fermat's little theorem; the inverse of 0 is 0. -/
theorem pow_sub_two [Fact q.Prime] (hq : 2 < q) (x : ZMod q) : x ^ (q - 2) = x⁻¹ := by
  by_cases hx : x = 0
  · rw [hx, inv_zero, zero_pow (by omega)]
  · apply eq_inv_of_mul_eq_one_left
    rw [← pow_succ]
    have hexp : q - 2 + 1 = q - 1 := by omega
    rw [hexp, ZMod.pow_card_sub_one_eq_one hx]

/-! Scalars. -/

theorem modulus_n : Modulus p256N := ⟨by decide, by decide⟩

theorem p256NMul_val (ha : a.length = 8) (hb : b.length = 8) :
    ∃ r, p256NMul a b = some r ∧ r.length = 8 ∧ val r = val a * val b % n := by
  obtain ⟨r, hr, hlen, hval⟩ := modulus_n.mulMod (a := a) (b := b) ha hb
  rw [p256N_val] at hval
  exact ⟨r, hr, hlen, hval⟩

theorem p256NInv_val (ha : a.length = 8) :
    ∃ r, p256NInv a = some r ∧ r.length = 8 ∧ val r = ((val a : ZMod n)⁻¹).val := by
  have hone : val one % val p256N = val a ^ 0 % val p256N := by
    rw [pow_zero]
    decide
  obtain ⟨r, hr, hlen, hmod, hless⟩ :=
    @modexpLoop_val a p256N one 0 modulus_n ha (nInvExp.flatMap byteBits) rfl hone
  have hexp : beNat nInvExp = n - 2 := by decide
  have hlt := hless (Or.inr (by decide))
  rw [bitsNat_bytes, Nat.zero_mul, Nat.zero_add, hexp, p256N_val] at hmod
  rw [p256N_val] at hlt
  refine ⟨r, hr, hlen, ?_⟩
  rw [← pow_sub_two (by decide), ← Nat.cast_pow, ZMod.val_natCast, ← hmod, Nat.mod_eq_of_lt hlt]

/-! The test of the equation, and affine coordinates. -/

theorem curveOps_defined (hx : i ∈ s) (hy : k ∈ s) : DefinedAll (curveOps i k) s := by
  have hthree : val [3, 0, 0, 0, 0, 0, 0, 0] < p := by decide
  have hb : val p256B < p := by decide
  have hlen : p256B.length = 8 := rfl
  simp [curveOps, DefinedAll, Op.Defined, Op.target, hx, hy, hthree, hb, hlen]

theorem curveOps_eval (f : Nat → ZMod p) :
    evalAll (curveOps 35 36) f 27 = f 36 ^ 2 ∧
      evalAll (curveOps 35 36) f 28 = f 35 ^ 3 - 3 * f 35 + bNat := by
  have hleft : evalAll (curveOps 35 36) f 27 = f 36 * f 36 := rfl
  have hright : evalAll (curveOps 35 36) f 28 =
      f 35 * f 35 * f 35 - (val [3, 0, 0, 0, 0, 0, 0, 0] : Nat) * f 35 + (val p256B : Nat) := rfl
  rw [hleft, hright, three_val, constants_val.1]
  exact ⟨by ring, by ring⟩

/-- What `p256_on_curve` tests. -/
structure OnCurve (x y : Nat) : Prop where
  x_lt : x < p
  y_lt : y < p
  equation : (y : ZMod p) ^ 2 = (x : ZMod p) ^ 3 - 3 * (x : ZMod p) + bNat

/-- The buffers 35 and 36 hold the coordinates. -/
theorem p256OnCurve_spec (hlen : ∀ i, (m i).length = 8) :
    ∃ ok m', p256OnCurve 35 36 m = some (ok, m') ∧ (ok = true ↔ OnCurve (val (m 35)) (val (m 36))) ∧
      (ok = true → ∃ s f, Holds s m' f ∧ 35 ∈ s ∧ 36 ∈ s ∧ f 35 = val (m 35) ∧ f 36 = val (m 36)) := by
  have hcmp : ∀ i, p256Cmp (m i) p256P = .lt ↔ val (m i) < p := by
    intro i
    rw [p256Cmp, cmp_lt ((hlen i).trans rfl), p256P_val]
  rw [p256OnCurve]
  by_cases hbig : p256Cmp (m 35) p256P ≠ .lt ∨ p256Cmp (m 36) p256P ≠ .lt
  · rw [if_pos hbig]
    refine ⟨false, m, rfl, ⟨fun h => absurd h Bool.false_ne_true, fun h => ?_⟩, fun h => absurd h Bool.false_ne_true⟩
    obtain hx | hy := hbig
    · exact absurd ((hcmp 35).2 h.x_lt) hx
    · exact absurd ((hcmp 36).2 h.y_lt) hy
  rw [if_neg hbig]
  rw [not_or, not_not, not_not, hcmp, hcmp] at hbig
  have hm : Holds {35, 36} m fun i => (val (m i) : ZMod p) := by
    refine ⟨hlen, ?_, fun i _ => rfl⟩
    intro i hi
    obtain rfl | rfl := hi
    · exact hbig.1
    · exact hbig.2
  obtain ⟨m', hexec, hm'⟩ := execAll_holds (curveOps 35 36) hm (curveOps_defined (Or.inl rfl) (Or.inr rfl))
  obtain ⟨hleft, hright⟩ := curveOps_eval fun i => (val (m i) : ZMod p)
  have h27 : 27 ∈ written (curveOps 35 36) {35, 36} := written_by (.mul 27 36 36) (by simp [curveOps]) rfl
  have h28 : 28 ∈ written (curveOps 35 36) {35, 36} := written_by (.add 28 28 32) (by simp [curveOps]) rfl
  rw [hexec, Option.map_some]
  refine ⟨_, m', rfl, ?_, fun _ => ⟨_, _, hm', written_old _ (Or.inl rfl), written_old _ (Or.inr rfl), rfl, rfl⟩⟩
  rw [decide_eq_true_eq, hm'.cmp_iff h27 h28, hleft, hright]
  exact ⟨fun h => ⟨hbig.1, hbig.2, h⟩, fun h => h.equation⟩

/-- The calls of `p256_to_affine`, with any exponent in the place of `p - 2`. -/
def affinePow (exp : Bytes) (k x y : Nat) : List Op :=
  p256PowOps 24 (pz k) exp ++ [.mul 25 24 24, .mul 26 25 24, .mul x (px k) 25, .mul y (py k) 26]

theorem affinePow_defined (exp : Bytes) (hx : px k ∈ s) (hy : py k ∈ s) (hz : pz k ∈ s) (i j : Nat) :
    DefinedAll (affinePow exp k i j) s := by
  have hzi : 24 ∈ written (p256PowOps 24 (pz k) exp) s :=
    written_by (.copy 24 22) (List.mem_append_right _ (List.mem_singleton_self _)) rfl
  rw [affinePow, definedAll_append]
  refine ⟨p256PowOps_defined exp 24 hz, ?_⟩
  simp [DefinedAll, Op.Defined, Op.target, hzi, written_old _ hx, written_old _ hy]

theorem affinePow_eval (exp : Bytes) (f : Nat → ZMod p) :
    evalAll (affinePow exp 0 33 34) f 33 = f 40 * (f 42 ^ beNat exp * f 42 ^ beNat exp) := by
  have hpow := @p256PowOps_eval 42 exp 24 f
  have hkeep := @p256PowOps_other 42 exp f 24 40 (by decide) (by decide)
  rw [affinePow, evalAll_append, ← hpow, ← hkeep]
  rfl

/-- `x / z ^ 2` is left in the buffer 33. -/
theorem p256ToAffine_spec (h : Holds s m f) (hx : 40 ∈ s) (hy : 41 ∈ s) (hz : 42 ∈ s) (hne : f 42 ≠ 0) :
    ∃ m', p256ToAffine 0 33 34 m = some (0, m') ∧ (∀ i, (m' i).length = 8) ∧
      val (m' 33) = (f 40 / f 42 ^ 2).val := by
  have hzero : ¬p256IsZero (m (pz 0)) = true := mt (h.isZero_iff hz).1 hne
  have hinv : f 42 ^ beNat invExp = (f 42)⁻¹ := by
    have hexp : beNat invExp = p - 2 := by decide
    rw [hexp, pow_sub_two (by decide)]
  have hops : affineOps 0 33 34 = affinePow invExp 0 33 34 := rfl
  rw [p256ToAffine, if_neg hzero, hops]
  -- the exponent stays a variable, so that no check runs its 256 turns
  generalize invExp = exp at hinv
  obtain ⟨m', hexec, hm'⟩ := execAll_holds (affinePow exp 0 33 34) h (affinePow_defined exp hx hy hz 33 34)
  have h33 : 33 ∈ written (affinePow exp 0 33 34) s :=
    written_by (.mul 33 (px 0) 25) (List.mem_append_right _ (by simp)) rfl
  have heval : evalAll (affinePow exp 0 33 34) f 33 = f 40 / f 42 ^ 2 := by
    rw [affinePow_eval, hinv, div_eq_mul_inv, ← sq, inv_pow]
  rw [hexec, Option.map_some]
  refine ⟨m', rfl, hm'.length, ?_⟩
  rw [← heval, ← hm'.value 33 h33, ZMod.val_natCast, Nat.mod_eq_of_lt (hm'.below 33 h33)]

end Lebirun.Tls.P256
