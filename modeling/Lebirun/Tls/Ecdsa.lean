import Mathlib
import Lebirun.Tls.P256Inverse

namespace Lebirun.Tls.P256
open Limbs JacobianPoints WeierstrassCurve
set_option autoImplicit true

/-- `p256_from_bin` -/
def p256FromBin (bin : Bytes) : Field :=
  (List.range 8).map fun i =>
    (bin.getD (28 - i * 4) 0).toUInt32 <<< 24 ||| (bin.getD (29 - i * 4) 0).toUInt32 <<< 16 |||
      (bin.getD (30 - i * 4) 0).toUInt32 <<< 8 ||| (bin.getD (31 - i * 4) 0).toUInt32

/-- `p256_to_bin`: the bytes of the last limb come first. -/
def p256ToBin (r : Field) : Bytes :=
  r.reverse.flatMap fun x : UInt32 => [(x >>> 24).toUInt8, (x >>> 16).toUInt8, (x >>> 8).toUInt8, x.toUInt8]

def bitAt (bin : Bytes) (i : Nat) : Bool := bin.getD (i / 8) 0 >>> UInt8.ofNat (7 - i % 8) &&& 1 = 1

/-- One turn of the loop of `lebtls_ecdsa_verify`: `acc`, `g`, `q`, `t1` and `t2` are the points 0 to 4. -/
def ladderStep (b1 b2 : Bool) (m : Store) : Option Store :=
  (p256PointDouble 0 0 m).bind fun m =>
    (if b1 then (p256PointAdd 3 0 1 m).bind (execAll (copyOps 0 3)) else some m).bind fun m =>
      if b2 then (p256PointAdd 4 0 2 m).bind (execAll (copyOps 0 4)) else some m

def ladderLoop : List (Bool × Bool) → Store → Option Store
  | [], m => some m
  | (b1, b2) :: bits, m => (ladderStep b1 b2 m).bind (ladderLoop bits)

/-- What is set before the loop; the key is in the buffers 35 and 36. -/
def ladderStart : List Op :=
  [.put (px 1) p256Gx, .put (py 1) p256Gy, .put (pz 1) one, .copy (px 2) 35, .copy (py 2) 36, .put (pz 2) one] ++
    zeroOps 0

/-- From `u1` and `u2` to the sum in `acc` -/
def ladder (u1 u2 : Field) (m : Store) : Option Store :=
  let u1b := p256ToBin u1
  let u2b := p256ToBin u2
  (execAll ladderStart m).bind (ladderLoop ((List.range 256).map fun i => (bitAt u1b i, bitAt u2b i)))

/-- `u1` and `u2`, unless a remainder is refused -/
def ecdsaScalars (e r s : Field) : Option (Field × Field) :=
  (p256NInv s).bind fun w => (p256NMul e w).bind fun u1 => (p256NMul r w).map fun u2 => (u1, u2)

/-- `rx` modulo `n`: `rx`, `rv` and `tmp` are the buffers 33, 37 and 38. -/
def reduceOnce (m : Store) : Store :=
  let m := Function.update m 37 (m 33)
  if bnCmp (m 37) p256N ≠ .lt then
    let m := Function.update m 38 (m 37)
    let m := subRawInto 38 (.buffer 38) (.limbs p256N) m
    Function.update m 37 (m 38)
  else m

/-- After `p256_to_affine`: the comparison with `r`. -/
def ecdsaCompare (r : Field) (x : Int × Store) : Option Int :=
  if x.1 < 0 then some (-1) else if bnCmp (reduceOnce x.2 37) r ≠ .eq then some (-1) else some 0

/-- After the ladder. -/
def ecdsaFinish (r : Field) (m : Store) : Option Int :=
  if p256IsZero (m (pz 0)) then some (-1) else (p256ToAffine 0 33 34 m).bind (ecdsaCompare r)

/-- `e` -/
def hashNumber (hash : Bytes) : Field :=
  let hashLen := if 32 < hash.length then 32 else hash.length
  let ebytes := List.replicate (32 - hashLen) 0 ++ hash.take hashLen
  p256FromBin ebytes

/-- After `p256_on_curve`. -/
def ecdsaContinue (hash : Bytes) (r s : Field) (x : Bool × Store) : Option Int :=
  if !x.1 then some (-1)
  else
    (ecdsaScalars (hashNumber hash) r s).elim (some (-1)) fun u => (ladder u.1 u.2 x.2).bind (ecdsaFinish r)

/-- `lebtls_ecdsa_verify`, with whether `wa` and `wm` could be allocated; the local variables hold `m` at first. -/
def lebtlsEcdsaVerify (wa wm : Bool) (qx qy hash rBin sBin : Bytes) (m : Store) : Option Int :=
  if hash.length = 0 then some (-1)
  else if !wa || !wm then some (-1)
  else
    let m := Function.update (Function.update m 35 (p256FromBin qx)) 36 (p256FromBin qy)
    let r := p256FromBin rBin
    let s := p256FromBin sBin
    if p256IsZero r || p256IsZero s then some (-1)
    else if bnCmp r p256N ≠ .lt ∨ bnCmp s p256N ≠ .lt then some (-1)
    else (p256OnCurve 35 36 m).bind (ecdsaContinue hash r s)

variable {bin : Bytes} {i k : Nat}

theorem bitAt_cons (b : UInt8) (bin : Bytes) (i : Nat) : bitAt (b :: bin) (8 + i) = bitAt bin i := by
  have hdiv : (8 + i) / 8 = i / 8 + 1 := by omega
  have hmod : (8 + i) % 8 = i % 8 := by omega
  rw [bitAt, bitAt, hdiv, hmod, List.getD_cons_succ]

theorem bits_eq (bin : Bytes) : (List.range (8 * bin.length)).map (bitAt bin) = bin.flatMap byteBits := by
  induction bin with
  | nil => rfl
  | cons b bin ih =>
    have hfirst : (List.range 8).map (bitAt (b :: bin)) = byteBits b := rfl
    rw [List.length_cons, Nat.mul_succ, Nat.add_comm, List.range_add, List.map_append, hfirst, List.map_map,
      List.flatMap_cons, ← ih]
    congr 1
    exact List.map_congr_left fun i _ => bitAt_cons b bin i

theorem p256ToBin_val {r : Field} (h : r.length = 8) : beNat (p256ToBin r) = val r ∧ (p256ToBin r).length = 32 := by
  have hreverse : p256ToBin r = (r.flatMap limbBytes).reverse := by
    rw [List.reverse_flatMap]
    rfl
  obtain ⟨hval, hlen⟩ := leNat_limbs r
  rw [hreverse, beNat_reverse, hval, List.length_reverse, hlen, h]
  exact ⟨rfl, rfl⟩

/-- Four bytes from `j` on, as a limb. -/
def wordAt (bin : Bytes) (j : Nat) : UInt32 :=
  (bin.getD j 0).toUInt32 <<< 24 ||| (bin.getD (j + 1) 0).toUInt32 <<< 16 ||| (bin.getD (j + 2) 0).toUInt32 <<< 8 |||
    (bin.getD (j + 3) 0).toUInt32

theorem wordAt_zero (a b c d : UInt8) (bin : Bytes) : (wordAt (a :: b :: c :: d :: bin) 0).toNat = beNat [a, b, c, d] := by
  have ha := low_bytes (by decide : 3 < 4) a 0 (dvd_zero _)
  rw [UInt32.zero_or, UInt32.toNat_zero, Nat.zero_add] at ha
  have hb := low_bytes (by decide : 2 < 4) b _ (ha ▸ Nat.dvd_mul_left _ _)
  have hc := low_bytes (by decide : 1 < 4) c _ (by rw [hb, ha]; omega)
  have hd := low_bytes (by decide : 0 < 4) d _ (by rw [hc, hb, ha]; omega)
  have hword : wordAt (a :: b :: c :: d :: bin) 0 = a.toUInt32 <<< UInt32.ofNat (3 * 8) |||
      b.toUInt32 <<< UInt32.ofNat (2 * 8) ||| c.toUInt32 <<< UInt32.ofNat (1 * 8) ||| d.toUInt32 <<< UInt32.ofNat (0 * 8) := by
    have hshift : d.toUInt32 <<< UInt32.ofNat (0 * 8) = d.toUInt32 := UInt32.shiftLeft_zero
    rw [hshift]
    rfl
  have hbytes : beNat [a, b, c, d] = 256 * (256 * (256 * (256 * 0 + a.toNat) + b.toNat) + c.toNat) + d.toNat := rfl
  rw [hword, hd, hc, hb, ha, hbytes]
  omega

theorem wordsAt_val (n : Nat) (bin : Bytes) (h : bin.length = 4 * n) :
    val ((List.range n).map fun i => wordAt bin (4 * (n - 1 - i))) = beNat bin := by
  induction n generalizing bin with
  | zero =>
    rw [List.length_eq_zero_iff.1 h]
    rfl
  | succ n ih =>
    obtain _ | ⟨a, _ | ⟨b, _ | ⟨c, _ | ⟨d, bin⟩⟩⟩⟩ := bin
    · exact absurd h (by rw [List.length_nil]; omega)
    · exact absurd h (by rw [List.length_singleton]; omega)
    · exact absurd h (by simp; omega)
    · exact absurd h (by simp; omega)
    have hlen : bin.length = 4 * n := by
      simp only [List.length_cons] at h
      omega
    have hrest : ((List.range n).map fun i => wordAt (a :: b :: c :: d :: bin) (4 * (n + 1 - 1 - i))) =
        (List.range n).map fun i => wordAt bin (4 * (n - 1 - i)) := by
      apply List.map_congr_left
      intro i hi
      have hi' := List.mem_range.1 hi
      have hskip : 4 * (n + 1 - 1 - i) = 4 * (n - 1 - i) + 4 := by omega
      rw [hskip]
      rfl
    have hsplit : a :: b :: c :: d :: bin = [a, b, c, d] ++ bin := rfl
    have hlast : 4 * (n + 1 - 1 - n) = 0 := by omega
    rw [List.range_succ, List.map_append, List.map_singleton, hrest, val_append, ih bin hlen, List.length_map,
      List.length_range, hlast, val_cons, wordAt_zero, hsplit, beNat_append, hlen, pow_mul]
    have hnil : val [] = 0 := rfl
    rw [hnil]
    norm_num
    ring

theorem p256FromBin_val (h : bin.length = 32) : val (p256FromBin bin) = beNat bin ∧ (p256FromBin bin).length = 8 := by
  have hwords : p256FromBin bin = (List.range 8).map fun i => wordAt bin (4 * (8 - 1 - i)) := by
    apply List.map_congr_left
    intro i hi
    have hi' := List.mem_range.1 hi
    have h0 : 28 - i * 4 = 4 * (8 - 1 - i) := by omega
    have h1 : 29 - i * 4 = 4 * (8 - 1 - i) + 1 := by omega
    have h2 : 30 - i * 4 = 4 * (8 - 1 - i) + 2 := by omega
    have h3 : 31 - i * 4 = 4 * (8 - 1 - i) + 3 := by omega
    rw [wordAt, h0, h1, h2, h3]
  refine ⟨?_, rfl⟩
  rw [hwords]
  exact wordsAt_val 8 bin h

/-! The joint ladder. -/

variable {m m' : Store} {P Q : curve256.Point} {K : Triple (ZMod p)} {ks : Set Nat} {T : Nat → Triple (ZMod p)}

/-- Between two turns: `acc` holds the sum `P` so far, `g` the base point and `q` the key. -/
structure Ladder (K : Triple (ZMod p)) (P : curve256.Point) (ks : Set Nat) (m : Store)
    (T : Nat → Triple (ZMod p)) : Prop where
  points : Points ks m T
  acc : 0 ∈ ks
  g : 1 ∈ ks
  q : 2 ∈ ks
  base : T 1 = ⟨gxNat, gyNat, 1⟩
  key : T 2 = K
  valid : (T 0).Valid (bNat : ZMod p)
  sum : (T 0).point (bNat : ZMod p) = P

theorem Ladder.double (h : Ladder K P ks m T) :
    ∃ m' ks' T', p256PointDouble 0 0 m = some m' ∧ Ladder K (P + P) ks' m' T' := by
  obtain ⟨m', hexec, hpoints⟩ := p256PointDouble_points h.points h.acc 0
  obtain ⟨hvalid, hsum⟩ := Triple.double_spec h.valid
  rw [h.sum] at hsum
  refine ⟨m', _, _, hexec, hpoints, Or.inl rfl, Or.inr h.g, Or.inr h.q, h.base, h.key, ?_, ?_⟩
  · rw [Function.update_self]
    exact hvalid
  · rw [Function.update_self]
    exact hsum

theorem copyOps_points (h : Points ks m T) (hk : k ∈ ks) (r : Nat) :
    ∃ m', execAll (copyOps r k) m = some m' ∧ Points (insert r ks) m' (Function.update T r (T k)) := by
  obtain ⟨s, f, hm, hks⟩ := h
  obtain ⟨⟨hx, hy, hz⟩, htriple⟩ := hks k hk
  rw [← htriple]
  exact (copyOps_writes r k).points hm hks (copyOps_defined r hx hy hz) (copyOps_eval f r k)

/-- Adding one of the two points, in a point of its own that is then copied. -/
theorem Ladder.add (h : Ladder K P ks m T) (hk : k ∈ ks) (hi : 2 < i)
    (hvalid : (T k).Valid (bNat : ZMod p)) (hpoint : (T k).point (bNat : ZMod p) = Q) :
    ∃ m' ks' T', (p256PointAdd i 0 k m).bind (execAll (copyOps 0 i)) = some m' ∧ Ladder K (P + Q) ks' m' T' := by
  obtain ⟨m₁, hadd, h₁⟩ := p256PointAdd_points h.points h.acc hk i
  obtain ⟨m₂, hcopy, h₂⟩ := copyOps_points h₁ (Set.mem_insert i ks) 0
  obtain ⟨hsumValid, hsum⟩ := Triple.add_spec two_ne h.valid hvalid
  rw [h.sum, hpoint] at hsum
  have h1 : (1 : Nat) ≠ i := by omega
  have h2 : (2 : Nat) ≠ i := by omega
  rw [Function.update_self] at h₂
  refine ⟨m₂, _, _, ?_, h₂, Or.inl rfl, Or.inr (Or.inr h.g), Or.inr (Or.inr h.q), ?_, ?_, ?_, ?_⟩
  · rw [hadd, Option.bind_some, hcopy]
  · rw [Function.update_of_ne (by decide), Function.update_of_ne h1, h.base]
  · rw [Function.update_of_ne (by decide), Function.update_of_ne h2, h.key]
  · rw [Function.update_self]
    exact hsumValid
  · rw [Function.update_self]
    exact hsum

/-- The multiples after one more bit of each scalar. -/
theorem Ladder.step {u v : Nat} (h : Ladder K (u • G + v • Q) ks m T) (hK : K.Valid (bNat : ZMod p))
    (hQ : K.point (bNat : ZMod p) = Q) (b1 b2 : Bool) :
    ∃ m' ks' T', ladderStep b1 b2 m = some m' ∧
      Ladder K ((2 * u + if b1 then 1 else 0) • G + (2 * v + if b2 then 1 else 0) • Q) ks' m' T' := by
  obtain ⟨m₁, ks₁, T₁, hdouble, h₁⟩ := h.double
  have hbase := Triple.point_one base_nonsingular
  rw [← h₁.base] at hbase
  have hfirst : ∃ m' ks' T',
      (if b1 then (p256PointAdd 3 0 1 m₁).bind (execAll (copyOps 0 3)) else some m₁) = some m' ∧
        Ladder K ((2 * u + if b1 then 1 else 0) • G + (2 * v) • Q) ks' m' T' := by
    have htwice : u • G + v • Q + (u • G + v • Q) = (2 * u) • G + (2 * v) • Q := by
      rw [two_mul, two_mul, add_nsmul, add_nsmul]
      abel
    cases b1 with
    | false =>
      refine ⟨m₁, ks₁, T₁, rfl, ?_⟩
      rw [if_neg Bool.false_ne_true, Nat.add_zero, ← htwice]
      exact h₁
    | true =>
      obtain ⟨m₂, ks₂, T₂, hadd, h₂⟩ := h₁.add h₁.g (by decide : 2 < 3) hbase.1 hbase.2
      refine ⟨m₂, ks₂, T₂, hadd, ?_⟩
      have hsum : (2 * u + 1) • G + (2 * v) • Q = u • G + v • Q + (u • G + v • Q) + G := by
        rw [htwice, succ_nsmul]
        abel
      rw [if_pos rfl, hsum]
      exact h₂
  obtain ⟨m₂, ks₂, T₂, hadd, h₂⟩ := hfirst
  rw [ladderStep, hdouble, Option.bind_some, hadd, Option.bind_some]
  cases b2 with
  | false => exact ⟨m₂, ks₂, T₂, rfl, h₂⟩
  | true =>
    rw [← h₂.key] at hK hQ
    obtain ⟨m₃, ks₃, T₃, hadd', h₃⟩ := h₂.add h₂.q (by decide : 2 < 4) hK hQ
    refine ⟨m₃, ks₃, T₃, hadd', ?_⟩
    have hsum : (2 * v + 1) • Q = (2 * v) • Q + Q := succ_nsmul Q (2 * v)
    rw [if_pos rfl, hsum, ← add_assoc]
    exact h₃

theorem Ladder.loop {u v : Nat} (h : Ladder K (u • G + v • Q) ks m T) (hK : K.Valid (bNat : ZMod p))
    (hQ : K.point (bNat : ZMod p) = Q) (bits : List (Bool × Bool)) :
    ∃ m' ks' T', ladderLoop bits m = some m' ∧
      Ladder K (bitsNat u (bits.map Prod.fst) • G + bitsNat v (bits.map Prod.snd) • Q) ks' m' T' := by
  induction bits generalizing m ks T u v with
  | nil => exact ⟨m, ks, T, rfl, h⟩
  | cons b bits ih =>
    obtain ⟨m₁, ks₁, T₁, hstep, h₁⟩ := h.step hK hQ b.1 b.2
    obtain ⟨m', ks', T', hloop, h'⟩ := ih h₁
    refine ⟨m', ks', T', ?_, h'⟩
    rw [ladderLoop, hstep, Option.bind_some, hloop]

theorem ladderStart_spec {s : Set Nat} {f : Nat → ZMod p} (hm : Holds s m f) (hx : 35 ∈ s) (hy : 36 ∈ s) :
    ∃ m' ks T, execAll ladderStart m = some m' ∧ Ladder ⟨f 35, f 36, 1⟩ 0 ks m' T := by
  have hdef : DefinedAll ladderStart s := by
    have hgx : val p256Gx < p := by decide
    have hgy : val p256Gy < p := by decide
    have hone : val one < p := by decide
    have hzero : val zero < p := by decide
    have hlen : p256Gx.length = 8 ∧ p256Gy.length = 8 ∧ one.length = 8 ∧ zero.length = 8 := ⟨rfl, rfl, rfl, rfl⟩
    simp [ladderStart, zeroOps, DefinedAll, Op.Defined, Op.target, hx, hy, hgx, hgy, hone, hzero, hlen]
  obtain ⟨m', hexec, hm'⟩ := execAll_holds ladderStart hm hdef
  have hone : val one = 1 := by decide
  have hacc : triple (evalAll ladderStart f) 0 = Triple.infinity := by
    have heval : triple (evalAll ladderStart f) 0 = ⟨(val zero : Nat), (val zero : Nat), (val zero : Nat)⟩ := rfl
    rw [heval, zero_val, Nat.cast_zero]
    rfl
  have hg : triple (evalAll ladderStart f) 1 = ⟨gxNat, gyNat, 1⟩ := by
    have heval : triple (evalAll ladderStart f) 1 = ⟨(val p256Gx : Nat), (val p256Gy : Nat), (val one : Nat)⟩ := rfl
    rw [heval, constants_val.2.1, constants_val.2.2, hone, Nat.cast_one]
  have hq : triple (evalAll ladderStart f) 2 = ⟨f 35, f 36, 1⟩ := by
    have heval : triple (evalAll ladderStart f) 2 = ⟨f 35, f 36, (val one : Nat)⟩ := rfl
    rw [heval, hone, Nat.cast_one]
  have hwritten : ∀ k < 3, px k ∈ written ladderStart s ∧ py k ∈ written ladderStart s ∧
      pz k ∈ written ladderStart s := by
    intro k hk
    interval_cases k <;> simp [ladderStart, zeroOps, written, Op.target]
  refine ⟨m', {0, 1, 2}, triple (evalAll ladderStart f), hexec, ⟨_, _, hm', fun k hk => ⟨hwritten k ?_, rfl⟩⟩,
    Or.inl rfl, Or.inr (Or.inl rfl), Or.inr (Or.inr rfl), hg, hq, ?_, ?_⟩
  · obtain rfl | rfl | rfl := hk
    · decide
    · decide
    · decide
  · rw [hacc]
    exact Triple.valid_infinity
  · rw [hacc]
    exact Triple.point_infinity rfl

/-- The bits of a scalar, as the loop reads them. -/
theorem scalar_bits {u : Field} (h : u.length = 8) :
    bitsNat 0 ((List.range 256).map (bitAt (p256ToBin u))) = val u := by
  obtain ⟨hval, hlen⟩ := p256ToBin_val h
  have hbits := bits_eq (p256ToBin u)
  rw [hlen] at hbits
  rw [hbits, bitsNat_bytes, Nat.zero_mul, Nat.zero_add, hval]

theorem ladder_spec {s : Set Nat} {f : Nat → ZMod p} {u v : Field} (hm : Holds s m f) (hx : 35 ∈ s) (hy : 36 ∈ s)
    (hQ : curve256.Nonsingular (f 35) (f 36)) (hu : u.length = 8) (hv : v.length = 8) :
    ∃ m' ks T, ladder u v m = some m' ∧
      Ladder ⟨f 35, f 36, 1⟩ (val u • G + val v • Affine.Point.some (f 35) (f 36) hQ) ks m' T := by
  obtain ⟨m₁, ks₁, T₁, hstart, h₁⟩ := ladderStart_spec hm hx hy
  obtain ⟨hvalid, hpoint⟩ := Triple.point_one hQ
  have hzero : (0 : Nat) • G + (0 : Nat) • Affine.Point.some (f 35) (f 36) hQ = 0 := by
    rw [zero_nsmul, zero_nsmul, add_zero]
  rw [← hzero] at h₁
  obtain ⟨m', ks, T, hloop, h⟩ :=
    h₁.loop hvalid hpoint ((List.range 256).map fun i => (bitAt (p256ToBin u) i, bitAt (p256ToBin v) i))
  rw [List.map_map, List.map_map] at h
  have hfst : bitsNat 0 ((List.range 256).map (Prod.fst ∘ fun i => (bitAt (p256ToBin u) i, bitAt (p256ToBin v) i))) =
      val u := scalar_bits hu
  have hsnd : bitsNat 0 ((List.range 256).map (Prod.snd ∘ fun i => (bitAt (p256ToBin u) i, bitAt (p256ToBin v) i))) =
      val v := scalar_bits hv
  rw [hfst, hsnd] at h
  refine ⟨m', ks, T, ?_, h⟩
  rw [ladder, hstart, Option.bind_some, hloop]

/-! Scalars, and the last comparison. -/

/-- The inverse modulo `n` -/
def inverseMod (s : Nat) : Nat := ((s : ZMod n)⁻¹).val

theorem ecdsaScalars_val {e r s : Field} (he : e.length = 8) (hr : r.length = 8) (hs : s.length = 8) :
    ∃ u v, ecdsaScalars e r s = some (u, v) ∧ u.length = 8 ∧ v.length = 8 ∧
      val u = val e * inverseMod (val s) % n ∧ val v = val r * inverseMod (val s) % n := by
  obtain ⟨w, hw, hwlen, hwval⟩ := p256NInv_val hs
  obtain ⟨u, hu, hulen, huval⟩ := p256NMul_val he hwlen
  obtain ⟨v, hv, hvlen, hvval⟩ := p256NMul_val hr hwlen
  rw [hwval] at huval hvval
  refine ⟨u, v, ?_, hulen, hvlen, huval, hvval⟩
  rw [ecdsaScalars, hw, Option.bind_some, hu, Option.bind_some, hv, Option.map_some]

/-- A multiple only depends on the scalar modulo `n`. -/
theorem mod_nsmul (k : Nat) (P : curve256.Point) : (k % n) • P = k • P := by
  have hsplit := Nat.div_add_mod k n
  calc
    (k % n) • P = (n * (k / n)) • P + (k % n) • P := by rw [mul_nsmul, n_nsmul, nsmul_zero, zero_add]
    _ = k • P := by rw [← add_nsmul, hsplit]

/-- One subtraction is enough: `p` is below `2 * n`. -/
theorem reduceOnce_val (hlen : ∀ i, (m i).length = 8) (hlt : val (m 33) < p) :
    val (reduceOnce m 37) = val (m 33) % n ∧ (reduceOnce m 37).length = 8 := by
  have hcmp : bnCmp (m 33) p256N = .lt ↔ val (m 33) < n := by
    rw [bnCmp, cmp_lt ((hlen 33).trans rfl), p256N_val]
  rw [reduceOnce]
  dsimp only
  rw [Function.update_self]
  by_cases hsmall : val (m 33) < n
  · rw [if_neg (not_not.2 (hcmp.2 hsmall)), Function.update_self, Nat.mod_eq_of_lt hsmall]
    exact ⟨rfl, hlen 33⟩
  · have hle : n ≤ val (m 33) := Nat.le_of_not_lt hsmall
    have hless : val (m 33) - n < n := by
      have htwice : p < 2 * n := by decide
      omega
    obtain ⟨hval, hsize⟩ := @sub_of_le (m 33) p256N ((hlen 33).trans rfl) (p256N_val ▸ hle)
    have hread : (Operand.buffer 38).read (Function.update (Function.update m 37 (m 33)) 38 (m 33)) = m 33 := by
      rw [Operand.read, Function.update_self]
    have hbuffer : (Function.update (Function.update m 37 (m 33)) 38 (m 33) 38).length = 8 := by
      rw [Function.update_self, hlen]
    rw [if_pos (mt hcmp.1 hsmall), Function.update_self,
      subRawInto_eq (.buffer 38) (.limbs p256N) hbuffer (hread ▸ hlen 33) rfl, hread, Function.update_self]
    refine ⟨?_, hsize.trans (hlen 33)⟩
    rw [Nat.mod_eq_sub_mod hle, Nat.mod_eq_of_lt hless]
    rw [p256N_val] at hval
    exact hval

/-! Which signatures are taken. -/

/-- The public key. -/
def OnCurve.point {x y : Nat} (h : OnCurve x y) : curve256.Point := .some x y (nonsingular_iff.2 h.equation)

/-- The rule of ECDSA, for the number `e` of a hash. -/
structure Accepts (x y e r s : Nat) : Prop where
  key : OnCurve x y
  r_pos : 1 ≤ r
  r_lt : r < n
  s_pos : 1 ≤ s
  s_lt : s < n
  sum : ∃ a b h, (e * inverseMod s) • G + (r * inverseMod s) • key.point = Affine.Point.some a b h ∧
    a.val ≡ r [MOD n]

theorem isZero_iff (x : Field) : p256IsZero x = true ↔ val x = 0 := by
  rw [p256IsZero, List.all_eq_true, val_eq_zero]
  simp only [decide_eq_true_eq]

theorem bnCmp_n {x : Field} (h : x.length = 8) : bnCmp x p256N ≠ .lt ↔ n ≤ val x := by
  rw [Ne, bnCmp, cmp_lt (h.trans rfl), p256N_val, not_lt]

/-- After the ladder: 0 exactly for a finite sum whose first coordinate is `r` modulo `n`. -/
theorem ecdsaFinish_spec {r : Field} (h : Ladder K P ks m T) (hr : r.length = 8) (hrn : val r < n) :
    ∃ rc, ecdsaFinish r m = some rc ∧ (rc = 0 ∨ rc = -1) ∧
      (rc = 0 ↔ ∃ a b h, P = Affine.Point.some a b h ∧ a.val ≡ val r [MOD n]) := by
  obtain ⟨s, f, hm, hks⟩ := h.points
  obtain ⟨⟨hx, hy, hz⟩, htriple⟩ := hks 0 h.acc
  have hvalid := h.valid
  have hsum := h.sum
  rw [← htriple] at hvalid hsum
  rw [ecdsaFinish]
  by_cases hinf : f 42 = 0
  · have hpoint : P = 0 := hsum.symm.trans (Triple.point_infinity hinf)
    rw [if_pos ((hm.isZero_iff hz).2 hinf)]
    refine ⟨-1, rfl, Or.inr rfl, fun h => absurd h (by decide), ?_⟩
    intro ⟨a, b, hab, hfinite, _⟩
    rw [hpoint] at hfinite
    exact absurd hfinite.symm (Affine.Point.some_ne_zero _)
  · obtain ⟨m', haffine, hlen, hval⟩ := p256ToAffine_spec hm hx hy hz hinf
    obtain ⟨hns, hpoint⟩ := Triple.point_finite hvalid hinf
    rw [hsum] at hpoint
    have hpx : (f 40 / f 42 ^ 2).val < p := ZMod.val_lt _
    obtain ⟨hrv, hrvlen⟩ := reduceOnce_val hlen (hval ▸ hpx)
    have hequal : bnCmp (reduceOnce m' 37) r = .eq ↔ (f 40 / f 42 ^ 2).val ≡ val r [MOD n] := by
      rw [bnCmp, cmp_eq_eq (hrvlen.trans hr.symm), hrv, hval, Nat.ModEq, Nat.mod_eq_of_lt hrn]
    have hiff : (∃ a b h, P = Affine.Point.some a b h ∧ a.val ≡ val r [MOD n]) ↔
        (f 40 / f 42 ^ 2).val ≡ val r [MOD n] := by
      constructor
      · intro ⟨a, b, hab, heq, hmod⟩
        rw [hpoint, Affine.Point.some.injEq] at heq
        have hcoord : f 40 / f 42 ^ 2 = a := heq.1
        rw [hcoord]
        exact hmod
      · exact fun hmod => ⟨_, _, hns, hpoint, hmod⟩
    rw [if_neg (mt (hm.isZero_iff hz).1 hinf), haffine, Option.bind_some, hiff, ecdsaCompare, if_neg (lt_irrefl _)]
    by_cases hcmp : bnCmp (reduceOnce m' 37) r = .eq
    · rw [if_neg (not_not.2 hcmp)]
      exact ⟨0, rfl, Or.inl rfl, fun _ => hequal.1 hcmp, fun _ => rfl⟩
    · rw [if_pos hcmp]
      exact ⟨-1, rfl, Or.inr rfl, fun h => absurd h (by decide), fun h => absurd (hequal.2 h) hcmp⟩

/-- The bytes of the number `e`: the leading 32 of the hash, or all of it behind zeros. -/
theorem hashNumber_val (hash : Bytes) :
    val (hashNumber hash) = beNat (hash.take 32) ∧ (hashNumber hash).length = 8 := by
  have hcut : (if 32 < hash.length then 32 else hash.length) = min 32 hash.length := by
    split
    · omega
    · omega
  have hlen : (List.replicate (32 - min 32 hash.length) 0 ++ hash.take (min 32 hash.length)).length = 32 := by
    rw [List.length_append, List.length_replicate, List.length_take]
    omega
  have hdef : hashNumber hash =
      p256FromBin (List.replicate (32 - min 32 hash.length) 0 ++ hash.take (min 32 hash.length)) := by
    rw [hashNumber, hcut]
  obtain ⟨hval, hsize⟩ := p256FromBin_val hlen
  rw [← hdef] at hval hsize
  refine ⟨?_, hsize⟩
  rw [hval, beNat_zeros, ← List.take_take, List.take_length]

/-- Verification never fails to end, and takes a signature exactly by the rule of ECDSA. -/
theorem lebtlsEcdsaVerify_exact {qx qy hash rBin sBin : Bytes} (hqx : qx.length = 32) (hqy : qy.length = 32)
    (hr : rBin.length = 32) (hs : sBin.length = 32) (hhash : hash ≠ []) (hm : ∀ i, (m i).length = 8) :
    ∃ rc, lebtlsEcdsaVerify true true qx qy hash rBin sBin m = some rc ∧ (rc = 0 ∨ rc = -1) ∧
      (rc = 0 ↔ Accepts (beNat qx) (beNat qy) (beNat (hash.take 32)) (beNat rBin) (beNat sBin)) := by
  obtain ⟨hxval, hxlen⟩ := p256FromBin_val hqx
  obtain ⟨hyval, hylen⟩ := p256FromBin_val hqy
  obtain ⟨hrval, hrlen⟩ := p256FromBin_val hr
  obtain ⟨hsval, hslen⟩ := p256FromBin_val hs
  have hreject : ∀ {x : Prop}, ¬x → ∃ rc : Int, some (-1) = some rc ∧ (rc = 0 ∨ rc = -1) ∧ (rc = 0 ↔ x) :=
    fun hx => ⟨-1, rfl, Or.inr rfl, fun h => absurd h (by decide), fun h => absurd h hx⟩
  rw [lebtlsEcdsaVerify, if_neg (mt List.length_eq_zero_iff.1 hhash), if_neg (by decide)]
  dsimp only
  by_cases hzero : (p256IsZero (p256FromBin rBin) || p256IsZero (p256FromBin sBin)) = true
  · rw [if_pos hzero]
    apply hreject
    intro h
    rw [Bool.or_eq_true, isZero_iff, isZero_iff, hrval, hsval] at hzero
    have hrpos := h.r_pos
    have hspos := h.s_pos
    omega
  rw [if_neg hzero]
  rw [Bool.or_eq_true, isZero_iff, isZero_iff, hrval, hsval, not_or] at hzero
  by_cases hlarge : bnCmp (p256FromBin rBin) p256N ≠ .lt ∨ bnCmp (p256FromBin sBin) p256N ≠ .lt
  · rw [if_pos hlarge]
    apply hreject
    intro h
    rw [bnCmp_n hrlen, bnCmp_n hslen, hrval, hsval] at hlarge
    have hrlt := h.r_lt
    have hslt := h.s_lt
    omega
  rw [if_neg hlarge]
  rw [bnCmp_n hrlen, bnCmp_n hslen, hrval, hsval, not_or, not_le, not_le] at hlarge
  have hlen : ∀ i, (Function.update (Function.update m 35 (p256FromBin qx)) 36 (p256FromBin qy) i).length = 8 := by
    intro i
    by_cases h36 : i = 36
    · rw [h36, Function.update_self, hylen]
    rw [Function.update_of_ne h36]
    by_cases h35 : i = 35
    · rw [h35, Function.update_self, hxlen]
    · rw [Function.update_of_ne h35, hm]
  obtain ⟨ok, m₁, hcheck, hok, hholds⟩ := p256OnCurve_spec hlen
  rw [Function.update_self, Function.update_of_ne (by decide), Function.update_self, hxval, hyval] at hok hholds
  rw [hcheck, Option.bind_some, ecdsaContinue]
  cases hon : ok with
  | false =>
    rw [hon] at hok
    exact hreject fun h => absurd (hok.2 h.key) Bool.false_ne_true
  | true =>
    have hkey := hok.1 hon
    obtain ⟨s, f, hf, h35, h36, hfx, hfy⟩ := hholds hon
    obtain ⟨heval, helen⟩ := hashNumber_val hash
    obtain ⟨u, v, hscalars, hulen, hvlen, huval, hvval⟩ := ecdsaScalars_val helen hrlen hslen
    have hns : curve256.Nonsingular (f 35) (f 36) := by
      rw [hfx, hfy]
      exact nonsingular_iff.2 hkey.equation
    obtain ⟨m₂, ks, T, hladder, hsum⟩ := ladder_spec hf h35 h36 hns hulen hvlen
    obtain ⟨rc, hfinish, hrc, hiff⟩ := ecdsaFinish_spec hsum hrlen (hrval ▸ hlarge.1)
    have hpoint : Affine.Point.some (f 35) (f 36) hns = hkey.point := by
      rw [OnCurve.point, Affine.Point.some.injEq]
      exact ⟨hfx, hfy⟩
    rw [huval, hvval, mod_nsmul, mod_nsmul, heval, hrval, hsval, hpoint] at hiff
    refine ⟨rc, ?_, hrc, hiff.trans ⟨fun h => ?_, fun h => h.sum⟩⟩
    · rw [if_neg (by decide : ¬(!true) = true), hscalars, Option.elim_some, hladder, Option.bind_some, hfinish]
    · exact ⟨hkey, Nat.one_le_iff_ne_zero.2 hzero.1, hlarge.1, Nat.one_le_iff_ne_zero.2 hzero.2, hlarge.2, h⟩

/-- A signature with a key that is not on the curve. -/
theorem lebtlsEcdsaVerify_exact_ones :
    ∃ rc, lebtlsEcdsaVerify true true (List.replicate 32 1) (List.replicate 32 1) [1] (List.replicate 32 1)
        (List.replicate 32 1) (fun _ => zero) = some rc ∧ (rc = 0 ∨ rc = -1) ∧
      (rc = 0 ↔ Accepts (beNat (List.replicate 32 1)) (beNat (List.replicate 32 1)) (beNat ([1].take 32))
        (beNat (List.replicate 32 1)) (beNat (List.replicate 32 1))) :=
  lebtlsEcdsaVerify_exact rfl rfl rfl rfl (List.cons_ne_nil 1 []) fun _ => rfl

end Lebirun.Tls.P256
