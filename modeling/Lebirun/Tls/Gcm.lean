import Mathlib
import Lebirun.Crypto.Hmac
import Lebirun.Tls.AesSpec
import Lebirun.Tls.Rsa

open Lebirun.Crypto (bytes64 cryptoConstantCompare cryptoConstantCompare_eq)

namespace Lebirun.Tls
open ShiftAdd Polynomial
set_option autoImplicit true

/-! Galois counter mode. -/

/-- `gcm_xor_block` -/
def gcmXorBlock (a b : Bytes) : Bytes := a.zipWith (· ^^^ ·) b

/-- The loop of `gcm_gf_shift`. -/
def gfShiftLoop : UInt8 → Bytes → Bytes
  | _, [] => []
  | carry, b :: v => (b >>> 1 ||| carry <<< 7) :: gfShiftLoop (if b &&& 1 ≠ 0 then 1 else 0) v

/-- `gcm_gf_shift` -/
def gcmGfShift (v : Bytes) : Bytes := gfShiftLoop 0 v

/-- What a turn of the inner loop of `gcm_gf_mul` makes of `v`. -/
def gfStep (v : Bytes) : Bytes :=
  if v.getD 15 0 &&& 1 ≠ 0 then
    let v := gcmGfShift v
    v.set 0 (v.getD 0 0 ^^^ 0xe1)
  else gcmGfShift v

/-- `gcm_gf_mul` -/
def gcmGfMul (x y : Bytes) : Bytes :=
  shiftAdd gfStep gcmXorBlock (x.flatMap byteBits) (List.replicate 16 0) y

/-- A loop of `gcm_ghash` over the pieces of 16 bytes of a string, the last one filled up with zeros. -/
def ghashLoop (h : Bytes) : Nat → Bytes → Bytes → Bytes
  | 0, y, _ => y
  | fuel + 1, y, data =>
    if data.isEmpty then y
    else
      let blk := data.take 16 ++ List.replicate (16 - data.length) 0
      ghashLoop h fuel (gcmGfMul (gcmXorBlock y blk) h) (data.drop 16)

/-- `gcm_ghash` -/
def gcmGhash (h aad data : Bytes) : Bytes :=
  let y := ghashLoop h aad.length (List.replicate 16 0) aad
  let y := ghashLoop h data.length y data
  let blk := bytes64 (UInt64.ofNat aad.length * 8) ++ bytes64 (UInt64.ofNat data.length * 8)
  gcmGfMul (gcmXorBlock y blk) h

/-- The counter as the last four bytes of a block. -/
def ctrBytes (c : UInt32) : Bytes := [(c >>> 24).toUInt8, (c >>> 16).toUInt8, (c >>> 8).toUInt8, c.toUInt8]

/-- The loop of `gcm_ctr`. -/
def ctrLoop (rk : List Bytes) (nonce : Bytes) : Nat → UInt32 → Bytes → Bytes
  | 0, _, _ => []
  | fuel + 1, c, data =>
    if data.isEmpty then []
    else
      (data.take 16).zipWith (· ^^^ ·) (gcmBlockEncrypt rk (nonce ++ ctrBytes c)) ++
        ctrLoop rk nonce fuel (c + 1) (data.drop 16)

/-- `gcm_ctr` -/
def gcmCtr (rk : List Bytes) (nonce data : Bytes) : Bytes := ctrLoop rk nonce data.length 2 data

/-- The tag that both functions compute. -/
def gcmTag (rk : List Bytes) (nonce aad data : Bytes) : Bytes :=
  let h := gcmBlockEncrypt rk (List.replicate 16 0)
  gcmXorBlock (gcmGhash h aad data) (gcmBlockEncrypt rk (nonce ++ [0, 0, 0, 1]))

/-- `lebtls_aead_seal` -/
def lebtlsAeadSeal (key nonce aad data : Bytes) : Bytes :=
  let rk := gcmKeyExpand key
  let out := gcmCtr rk nonce data
  out ++ gcmTag rk nonce aad out

/-- `lebtls_aead_open` -/
def lebtlsAeadOpen (key nonce aad data : Bytes) : Option Bytes :=
  if data.length < 16 then none
  else
    let text := data.take (data.length - 16)
    let rk := gcmKeyExpand key
    if cryptoConstantCompare (gcmTag rk nonce aad text) (data.drop (data.length - 16)) ≠ 0 then none
    else some (gcmCtr rk nonce text)

/-! The field. -/

noncomputable def gcmPoly : (ZMod 2)[X] := X ^ 128 + (X ^ 7 + X ^ 2 + X + 1)

/-- The element that a block stands for: its first bit is the constant coefficient. -/
noncomputable def gcmElem (v : Bytes) : AdjoinRoot gcmPoly := value (AdjoinRoot.root gcmPoly) (v.flatMap byteBits)

variable {v w x y h key nonce aad data text : Bytes} {rk : List Bytes} {c : Bool} {b : UInt8}

theorem gcmPoly_monic : gcmPoly.Monic := by
  unfold gcmPoly
  apply monic_X_pow_add
  compute_degree!

theorem gcmPoly_natDegree : gcmPoly.natDegree = 128 := by
  unfold gcmPoly
  compute_degree!

theorem gcm_two : (2 : AdjoinRoot gcmPoly) = 0 := by
  have := congrArg (AdjoinRoot.of gcmPoly) (show (2 : ZMod 2) = 0 from rfl)
  rwa [map_ofNat, map_zero] at this

theorem byteBits_testBit (v : UInt8) : byteBits v = [7, 6, 5, 4, 3, 2, 1, 0].map v.toNat.testBit := by
  have hbit : ∀ b : UInt8, b.toNat < 8 → decide (v >>> b &&& 1 = 1) = v.toNat.testBit b.toNat := by
    intro b hb
    have hlow : (v >>> b &&& 1).toNat = v.toNat / 2 ^ b.toNat % 2 := by
      rw [UInt8.toNat_and, UInt8.toNat_shiftRight, Nat.mod_eq_of_lt hb, Nat.shiftRight_eq_div_pow]
      exact Nat.and_one_is_mod _
    rw [Nat.testBit_eq_decide_div_mod_eq, ← hlow]
    exact decide_eq_decide.2 UInt8.toNat_inj.symm
  have h0 := hbit 0 (by decide)
  have h1 := hbit 1 (by decide)
  have h2 := hbit 2 (by decide)
  have h3 := hbit 3 (by decide)
  have h4 := hbit 4 (by decide)
  have h5 := hbit 5 (by decide)
  have h6 := hbit 6 (by decide)
  have h7 := hbit 7 (by decide)
  simp only [byteBits, List.map_cons, List.map_nil, h0, h1, h2, h3, h4, h5, h6, h7]
  rfl

theorem byteBits_length (v : UInt8) : (byteBits v).length = 8 := rfl

theorem bits_length (v : Bytes) : (v.flatMap byteBits).length = 8 * v.length := by
  induction v with
  | nil => rfl
  | cons b v ih => rw [List.flatMap_cons, List.length_append, ih, byteBits_length, List.length_cons]; omega

theorem byteBits_xor (v w : UInt8) : byteBits (v ^^^ w) = (byteBits v).zipWith xor (byteBits w) := by
  rw [byteBits_testBit, byteBits_testBit, byteBits_testBit, List.zipWith_map, List.zipWith_self]
  apply List.map_congr_left
  intro i _
  rw [UInt8.toNat_xor, Nat.testBit_xor]

theorem bits_xor (hlen : v.length = w.length) :
    (gcmXorBlock v w).flatMap byteBits = (v.flatMap byteBits).zipWith xor (w.flatMap byteBits) := by
  induction v generalizing w with
  | nil => rfl
  | cons a v ih =>
    cases w with
    | nil => exact absurd hlen (Nat.succ_ne_zero _)
    | cons b w =>
      rw [List.flatMap_cons, List.flatMap_cons, List.zipWith_append (by rw [byteBits_length, byteBits_length]),
        ← byteBits_xor, ← ih (Nat.succ.inj hlen)]
      rfl

theorem bits_zeros (k : Nat) : (List.replicate k 0 : Bytes).flatMap byteBits = List.replicate (8 * k) false := by
  induction k with
  | zero => rfl
  | succ k ih =>
    have hzero : byteBits 0 = List.replicate 8 false := by decide
    rw [List.replicate_succ, List.flatMap_cons, ih, hzero, ← List.replicate_add, Nat.mul_succ, Nat.add_comm]

theorem gcmXorBlock_length (hv : v.length = 16) (hw : w.length = 16) : (gcmXorBlock v w).length = 16 := by
  rw [gcmXorBlock, List.length_zipWith, hv, hw, Nat.min_self]

theorem gcmElem_xor (hlen : v.length = w.length) : gcmElem (gcmXorBlock v w) = gcmElem v + gcmElem w := by
  rw [gcmElem, bits_xor hlen, value_xor gcm_two]
  · rfl
  · rw [bits_length, bits_length, hlen]

theorem gcmElem_inj (hv : v.length = 16) (hw : w.length = 16) (heq : gcmElem v = gcmElem w) : v = w := by
  have hbits := value_inj gcmPoly_monic (by rw [gcmPoly_natDegree, bits_length, hv])
    (by rw [gcmPoly_natDegree, bits_length, hw]) heq
  have hbyte : ∀ a b : UInt8, byteBits a = byteBits b → a = b := by
    intro a b hab
    rw [byteBits_testBit, byteBits_testBit] at hab
    apply bitsOf_inj
    have hreverse : ∀ v : UInt8, bitsOf v = ([7, 6, 5, 4, 3, 2, 1, 0].map v.toNat.testBit).reverse := fun _ => rfl
    rw [hreverse, hreverse, hab]
  have hall : ∀ v w : Bytes, v.length = w.length → v.flatMap byteBits = w.flatMap byteBits → v = w := by
    intro v
    induction v with
    | nil => exact fun w hw _ => (List.length_eq_zero_iff.1 hw.symm).symm
    | cons a v ih =>
      intro w hlen heq
      cases w with
      | nil => exact absurd hlen (Nat.succ_ne_zero _)
      | cons b w =>
        obtain ⟨hhead, htail⟩ := List.append_inj heq rfl
        rw [hbyte a b hhead, ih w (Nat.succ.inj hlen) htail]
  exact hall v w (hv.trans hw.symm) hbits

/-! One turn of the product moves the coefficients up. -/

theorem byteBits_shift (b : UInt8) (c : Bool) :
    byteBits (b >>> 1 ||| (if c then 1 else 0 : UInt8) <<< 7) = c :: (byteBits b).take 7 := by
  have hbit : ∀ i, (b >>> 1 ||| (if c then 1 else 0 : UInt8) <<< 7).toNat.testBit i =
      (b.toNat.testBit (i + 1) || (decide (i = 7) && c)) := by
    intro i
    have hcarry : ((if c then 1 else 0 : UInt8) <<< 7).toNat = if c then 2 ^ 7 else 0 := by
      cases c with
      | false => rfl
      | true => rfl
    rw [UInt8.toNat_or, Nat.testBit_or, hcarry, UInt8.toNat_shiftRight, Nat.testBit_shiftRight, Nat.add_comm]
    congr 1
    cases c with
    | false => rw [if_neg Bool.false_ne_true, Nat.zero_testBit, Bool.and_false]
    | true =>
      rw [if_pos rfl, Nat.testBit_two_pow, Bool.and_true]
      exact decide_eq_decide.2 eq_comm
  have htop : b.toNat.testBit 8 = false := Nat.testBit_lt_two_pow b.toNat_lt
  rw [byteBits_testBit, byteBits_testBit]
  simp only [List.map_cons, List.map_nil, hbit, List.take_succ_cons, List.take_zero, htop]
  simp

theorem byteBits_last (b : UInt8) : byteBits b = (byteBits b).take 7 ++ [b.toNat.testBit 0] := by
  rw [byteBits_testBit]
  rfl

theorem odd_testBit (b : UInt8) : (b &&& 1 ≠ 0) = (b.toNat.testBit 0 = true) := by
  have hall : ∀ x : Fin 256, (UInt8.ofFin x &&& 1 ≠ 0) ↔ (x.val.testBit 0 = true) := by decide +kernel
  exact propext (hall b.toFin)

theorem bits_shift (v : Bytes) (c : Bool) :
    (gfShiftLoop (if c then 1 else 0) v).flatMap byteBits = (c :: v.flatMap byteBits).dropLast := by
  induction v generalizing c with
  | nil => rfl
  | cons b v ih =>
    have hnext := ih (b.toNat.testBit 0)
    rw [gfShiftLoop, List.flatMap_cons, byteBits_shift]
    simp only [odd_testBit]
    rw [hnext, List.flatMap_cons, byteBits_last b, List.append_assoc, ← List.cons_append,
      List.dropLast_append_of_ne_nil (List.append_ne_nil_of_left_ne_nil (List.cons_ne_nil _ _) _), ← byteBits_last]
    rfl

theorem gfShiftLoop_length (v : Bytes) (x : UInt8) : (gfShiftLoop x v).length = v.length := by
  induction v generalizing x with
  | nil => rfl
  | cons b v ih => rw [gfShiftLoop, List.length_cons, ih, List.length_cons]

theorem gcm_root : AdjoinRoot.root gcmPoly ^ 128 = gcmElem (0xe1 :: List.replicate 15 0) := by
  have hpoly : AdjoinRoot.mk gcmPoly gcmPoly = AdjoinRoot.root gcmPoly ^ 128 +
      (AdjoinRoot.root gcmPoly ^ 7 + AdjoinRoot.root gcmPoly ^ 2 + AdjoinRoot.root gcmPoly + 1) := by
    have hsum : ∀ k, 128 = k → gcmPoly = X ^ k + (X ^ 7 + X ^ 2 + X + 1) := by
      intro k hk
      unfold gcmPoly
      rw [hk]
    generalize hk : 128 = k
    have hroot := congrArg (AdjoinRoot.mk gcmPoly) (hsum k hk)
    simpa only [map_add, map_pow, map_one, AdjoinRoot.mk_X] using hroot
  have hroot := hpoly.symm.trans AdjoinRoot.mk_self
  have hbits : byteBits 0xe1 = [true, true, true, false, false, false, false, true] := by decide
  rw [gcmElem, List.flatMap_cons, hbits, bits_zeros, value_append, value_zeros, mul_zero, add_zero]
  simp only [value, coefficient, if_true, Bool.false_eq_true, if_false]
  linear_combination hroot - (AdjoinRoot.root gcmPoly ^ 7 + AdjoinRoot.root gcmPoly ^ 2 + AdjoinRoot.root gcmPoly + 1) * gcm_two

theorem gfStep_value (hv : v.length = 16) :
    (gfStep v).length = 16 ∧ gcmElem (gfStep v) = AdjoinRoot.root gcmPoly * gcmElem v := by
  have hne : v.flatMap byteBits ≠ [] := List.length_pos_iff.1 (by rw [bits_length, hv]; decide)
  have hlength : (gcmGfShift v).length = 16 := (gfShiftLoop_length v 0).trans hv
  have hshift : (gcmGfShift v).flatMap byteBits = (false :: v.flatMap byteBits).dropLast := bits_shift v false
  have hvalue := value_shift (AdjoinRoot.root gcmPoly) hne
  have hlast : (v.flatMap byteBits).getLast hne = (v.getD 15 0).toNat.testBit 0 := by
    obtain ⟨u, b, rfl⟩ : ∃ u b, v = u ++ [b] := ⟨v.dropLast, v.getLast (by rintro rfl; exact absurd hv (by decide)),
      (List.dropLast_append_getLast _).symm⟩
    have hu : u.length = 15 := by
      rw [List.length_append, List.length_singleton] at hv
      omega
    have hget : (u ++ [b]).getD 15 0 = b := by
      rw [List.getD_eq_getElem?_getD, List.getElem?_append_right hu.le, hu]
      rfl
    have hbits : (u ++ [b]).flatMap byteBits = u.flatMap byteBits ++ (byteBits b).take 7 ++ [b.toNat.testBit 0] := by
      rw [List.flatMap_append, List.flatMap_singleton, List.append_assoc, ← byteBits_last]
    rw [hget]
    simp only [hbits, List.getLast_append_singleton]
  rw [hlast, ← hshift, bits_length, hv] at hvalue
  have hplain : gcmElem (gcmGfShift v) = value (AdjoinRoot.root gcmPoly) ((gcmGfShift v).flatMap byteBits) := rfl
  rw [gfStep]
  simp only [odd_testBit]
  split
  · rename_i hodd
    have hset : (gcmGfShift v).set 0 ((gcmGfShift v).getD 0 0 ^^^ 0xe1) =
        gcmXorBlock (gcmGfShift v) (0xe1 :: List.replicate 15 0) := by
      generalize gcmGfShift v = w at hlength
      cases w with
      | nil => exact absurd hlength (by decide)
      | cons b w =>
        have hzeros : ∀ w : Bytes, w.zipWith (· ^^^ ·) (List.replicate w.length 0) = w := by
          intro w
          induction w with
          | nil => rfl
          | cons b w ih => rw [List.length_cons, List.replicate_succ, List.zipWith_cons_cons, ih, UInt8.xor_zero]
        have hw : w.length = 15 := Nat.succ.inj hlength
        rw [gcmXorBlock, List.zipWith_cons_cons, ← hw, hzeros]
        rfl
    refine ⟨by rw [List.length_set, hlength], ?_⟩
    have helem : value (AdjoinRoot.root gcmPoly) (v.flatMap byteBits) = gcmElem v := rfl
    rw [hset, gcmElem_xor (by rw [hlength]; rfl), ← gcm_root, hplain, ← helem, ← hvalue, hodd]
    exact congrArg _ (mul_one _).symm
  · rename_i heven
    refine ⟨hlength, ?_⟩
    have helem : value (AdjoinRoot.root gcmPoly) (v.flatMap byteBits) = gcmElem v := rfl
    rw [hplain, ← helem, ← hvalue, Bool.eq_false_iff.2 heven]
    exact ((congrArg _ (mul_zero _)).trans (add_zero _)).symm

/-- The product of blocks is that of the field. -/
theorem gcmGfMul_value (hy : y.length = 16) (x : Bytes) :
    (gcmGfMul x y).length = 16 ∧ gcmElem (gcmGfMul x y) = gcmElem x * gcmElem y := by
  have hzero : gcmElem (List.replicate 16 0) = 0 := by
    rw [gcmElem, bits_zeros, value_zeros]
  obtain ⟨hlength, hvalue⟩ := shiftAdd_value (AdjoinRoot.root gcmPoly) gfStep gcmXorBlock gcmElem
    (fun v => v.length = 16) (fun z v hz hv => ⟨gcmXorBlock_length hz hv, gcmElem_xor (hz.trans hv.symm)⟩) (fun v hv => gfStep_value hv)
    (x.flatMap byteBits) (List.replicate 16 0) y rfl hy
  refine ⟨hlength, ?_⟩
  rw [hzero, zero_add] at hvalue
  exact hvalue

/-! The standard. -/

/-- Piece `i` of a string, filled up with zeros. -/
def pieceAt (data : Bytes) (i : Nat) : Bytes :=
  (data.drop (16 * i)).take 16 ++ List.replicate (16 - (data.length - 16 * i)) 0

def pieces (data : Bytes) : List Bytes := (List.range ((data.length + 15) / 16)).map (pieceAt data)

/-- The blocks that the hash reads. -/
def hashBlocks (aad data : Bytes) : List Bytes :=
  pieces aad ++ pieces data ++ [bytes64 (UInt64.ofNat (8 * aad.length)) ++ bytes64 (UInt64.ofNat (8 * data.length))]

/-- The polynomial of the hash, at `h`. -/
noncomputable def hashAt (h : Bytes) (blocks : List Bytes) : AdjoinRoot gcmPoly :=
  ∑ i ∈ Finset.range blocks.length, gcmElem (blocks.getD i []) * gcmElem h ^ (blocks.length - i)

/-- The stream of `n` blocks, with the counters 2, 3 and so on. -/
def keyStream (cipher : Bytes → Bytes) (nonce : Bytes) (n : Nat) : Bytes :=
  (List.range n).flatMap fun i => cipher (nonce ++ ctrBytes (2 + UInt32.ofNat i))

theorem pieces_cons (hdata : data ≠ []) :
    pieces data = (data.take 16 ++ List.replicate (16 - data.length) 0) :: pieces (data.drop 16) := by
  have hpos := List.length_pos_iff.2 hdata
  have hcount : (data.length + 15) / 16 = ((data.drop 16).length + 15) / 16 + 1 := by
    rw [List.length_drop]
    omega
  rw [pieces, hcount, List.range_succ_eq_map, List.map_cons, List.map_map, pieces]
  congr 1
  apply List.map_congr_left
  intro i _
  rw [Function.comp, pieceAt, pieceAt, List.drop_drop, List.length_drop, Nat.mul_succ, Nat.add_comm 16, Nat.sub_sub,
    Nat.add_comm 16]

theorem ghashLoop_value (hh : h.length = 16) (fuel : Nat) :
    ∀ (y data : Bytes), y.length = 16 → data.length ≤ fuel →
      (ghashLoop h fuel y data).length = 16 ∧ gcmElem (ghashLoop h fuel y data) =
        ((pieces data).map gcmElem).foldl (fun y b => (y + b) * gcmElem h) (gcmElem y) := by
  induction fuel with
  | zero =>
    intro y data hy hdata
    rw [List.length_eq_zero_iff.1 (Nat.le_zero.1 hdata)]
    exact ⟨hy, rfl⟩
  | succ fuel ih =>
    intro y data hy hdata
    rw [ghashLoop]
    cases data with
    | nil => exact ⟨hy, rfl⟩
    | cons b data =>
      rw [if_neg (by rw [List.isEmpty_cons]; exact Bool.false_ne_true), pieces_cons (List.cons_ne_nil b data)]
      dsimp only
      generalize hall : b :: data = all at hdata
      have hpos : 0 < all.length := hall ▸ Nat.succ_pos _
      have hblk : (all.take 16 ++ List.replicate (16 - all.length) 0).length = 16 := by
        rw [List.length_append, List.length_take, List.length_replicate]
        omega
      obtain ⟨hlen, hmul⟩ := gcmGfMul_value hh (gcmXorBlock y (all.take 16 ++ List.replicate (16 - all.length) 0))
      rw [gcmElem_xor (hy.trans hblk.symm)] at hmul
      rw [List.map_cons, List.foldl_cons, ← hmul]
      apply ih _ _ hlen
      rw [List.length_drop]
      omega

theorem gcmGhash_value (hh : h.length = 16) (aad data : Bytes) :
    (gcmGhash h aad data).length = 16 ∧ gcmElem (gcmGhash h aad data) = hashAt h (hashBlocks aad data) := by
  have hzero : gcmElem (List.replicate 16 0) = 0 := by rw [gcmElem, bits_zeros, value_zeros]
  obtain ⟨hlenA, hA⟩ := ghashLoop_value hh aad.length (List.replicate 16 0) aad rfl le_rfl
  obtain ⟨hlenD, hD⟩ := ghashLoop_value hh data.length _ data hlenA le_rfl
  obtain ⟨hlen, hmul⟩ := gcmGfMul_value hh (gcmXorBlock (ghashLoop h data.length (ghashLoop h aad.length
    (List.replicate 16 0) aad) data) (bytes64 (UInt64.ofNat aad.length * 8) ++ bytes64 (UInt64.ofNat data.length * 8)))
  have hbits : ∀ n : Nat, UInt64.ofNat n * 8 = UInt64.ofNat (8 * n) := by
    intro n
    rw [UInt64.ofNat_mul, mul_comm]
    rfl
  refine ⟨hlen, ?_⟩
  rw [gcmGhash]
  refine hmul.trans ?_
  rw [gcmElem_xor (hlenD.trans rfl), hD, hA, hzero, hbits, hbits]
  have hfold := horner (gcmElem h) ((hashBlocks aad data).map gcmElem) 0
  rw [zero_mul, zero_add, List.length_map] at hfold
  have hnil : gcmElem [] = 0 := rfl
  rw [hashAt]
  have hgetD : ∀ i, ((hashBlocks aad data).map gcmElem).getD i 0 = gcmElem ((hashBlocks aad data).getD i []) := by
    intro i
    rw [← hnil, List.getD_map]
  simp only [hgetD] at hfold
  rw [← hfold, hashBlocks, List.map_append, List.map_append, List.foldl_append, List.foldl_append]
  rfl

theorem keyStream_length {cipher : Bytes → Bytes} (hc : ∀ c, (cipher (nonce ++ ctrBytes c)).length = 16) (n : Nat) :
    (keyStream cipher nonce n).length = 16 * n := by
  induction n with
  | zero => rfl
  | succ n ih =>
    rw [keyStream, List.range_succ, List.flatMap_append, List.flatMap_singleton, List.length_append, hc, Nat.mul_succ]
    exact congrArg (· + 16) ih

theorem ctrLoop_eq (hc : ∀ c, (gcmBlockEncrypt rk (nonce ++ ctrBytes c)).length = 16) (fuel : Nat) :
    ∀ (c : UInt32) (data : Bytes), data.length ≤ fuel → ctrLoop rk nonce fuel c data =
      data.zipWith (· ^^^ ·) ((List.range ((data.length + 15) / 16)).flatMap fun i =>
        gcmBlockEncrypt rk (nonce ++ ctrBytes (c + UInt32.ofNat i))) := by
  induction fuel with
  | zero =>
    intro c data hdata
    rw [List.length_eq_zero_iff.1 (Nat.le_zero.1 hdata)]
    rfl
  | succ fuel ih =>
    intro c data hdata
    rw [ctrLoop]
    cases data with
    | nil => rfl
    | cons b data =>
      rw [if_neg (by rw [List.isEmpty_cons]; exact Bool.false_ne_true)]
      generalize hall : b :: data = all at hdata
      have hpos : 0 < all.length := hall ▸ Nat.succ_pos _
      have hcount : (all.length + 15) / 16 = ((all.drop 16).length + 15) / 16 + 1 := by
        rw [List.length_drop]
        omega
      have hnext : ∀ i, c + UInt32.ofNat (i + 1) = c + 1 + UInt32.ofNat i := by
        intro i
        rw [UInt32.ofNat_add, add_comm (UInt32.ofNat i), ← add_assoc]
        rfl
      rw [ih (c + 1) (all.drop 16) (by rw [List.length_drop]; omega), hcount, List.range_succ_eq_map, List.flatMap_cons,
        List.flatMap_map]
      have hfirst : c + UInt32.ofNat 0 = c := add_zero c
      simp only [hnext, hfirst]
      by_cases hlong : 16 ≤ all.length
      · rw [← List.zipWith_append (by rw [hc, List.length_take]; omega), List.take_append_drop]
      · have hdrop : all.drop 16 = [] := List.drop_eq_nil_of_le (by omega)
        have htake : all.take 16 = all := List.take_of_length_le (by omega)
        rw [hdrop, htake]
        exact (List.append_nil _).trans (congrArg _ (List.append_nil _).symm)

/-! The two functions. -/

theorem block_length (hkey : key.length = 16) (hs : text.length = 16) :
    (gcmBlockEncrypt (gcmKeyExpand key) text).length = 16 := (gcmBlockEncrypt_holds hkey ⟨hs, rfl⟩).length

theorem counter_length (hnonce : nonce.length = 12) (c : UInt32) : (nonce ++ ctrBytes c).length = 16 := by
  rw [List.length_append, hnonce]
  rfl

theorem gcmCtr_eq (hkey : key.length = 16) (hnonce : nonce.length = 12) (data : Bytes) :
    gcmCtr (gcmKeyExpand key) nonce data =
      data.zipWith (· ^^^ ·) (keyStream (standardAes key) nonce ((data.length + 15) / 16)) := by
  have hblock : ∀ c, gcmBlockEncrypt (gcmKeyExpand key) (nonce ++ ctrBytes c) = standardAes key (nonce ++ ctrBytes c) :=
    fun c => gcmBlockEncrypt_eq hkey (counter_length hnonce c)
  rw [gcmCtr, ctrLoop_eq (fun c => block_length hkey (counter_length hnonce c)) _ _ _ le_rfl, keyStream]
  simp only [hblock]

theorem standardStream_length (hkey : key.length = 16) (hnonce : nonce.length = 12) (n : Nat) :
    (keyStream (standardAes key) nonce n).length = 16 * n := by
  apply keyStream_length
  intro c
  rw [← gcmBlockEncrypt_eq hkey (counter_length hnonce c)]
  exact block_length hkey (counter_length hnonce c)

theorem xor_twice {stream : Bytes} (hle : data.length ≤ stream.length) :
    (data.zipWith (· ^^^ ·) stream).zipWith (· ^^^ ·) stream = data := by
  induction data generalizing stream with
  | nil => rfl
  | cons b data ih =>
    cases stream with
    | nil => exact absurd hle (Nat.not_succ_le_zero _)
    | cons x stream =>
      rw [List.zipWith_cons_cons, List.zipWith_cons_cons, ih (Nat.le_of_succ_le_succ hle), UInt8.xor_assoc, UInt8.xor_self,
        UInt8.xor_zero]

theorem gcmCtr_length (hkey : key.length = 16) (hnonce : nonce.length = 12) (data : Bytes) :
    (gcmCtr (gcmKeyExpand key) nonce data).length = data.length := by
  rw [gcmCtr_eq hkey hnonce, List.length_zipWith, standardStream_length hkey hnonce]
  omega

theorem gcmCtr_twice (hkey : key.length = 16) (hnonce : nonce.length = 12) (data : Bytes) :
    gcmCtr (gcmKeyExpand key) nonce (gcmCtr (gcmKeyExpand key) nonce data) = data := by
  rw [gcmCtr_eq hkey hnonce (gcmCtr _ _ _), gcmCtr_length hkey hnonce, gcmCtr_eq hkey hnonce]
  apply xor_twice
  rw [standardStream_length hkey hnonce]
  omega

theorem gcmTag_length (hkey : key.length = 16) (hnonce : nonce.length = 12) (aad data : Bytes) :
    (gcmTag (gcmKeyExpand key) nonce aad data).length = 16 := by
  have hh : (gcmBlockEncrypt (gcmKeyExpand key) (List.replicate 16 0)).length = 16 := block_length hkey rfl
  exact gcmXorBlock_length (gcmGhash_value hh aad data).1 (block_length hkey (counter_length hnonce 1))

/-- What is sealed: the text in counter mode, and a tag that is the polynomial of the hash with the first block of the
stream added. No other tag has that value. -/
theorem lebtlsAeadSeal_standard (key nonce aad data : Bytes) (hkey : key.length = 16) (hnonce : nonce.length = 12) :
    let text := data.zipWith (· ^^^ ·) (keyStream (standardAes key) nonce ((data.length + 15) / 16))
    let value := hashAt (standardAes key (List.replicate 16 0)) (hashBlocks aad text) +
      gcmElem (standardAes key (nonce ++ ctrBytes 1))
    ∃ tag, tag.length = 16 ∧ gcmElem tag = value ∧ (∀ other, other.length = 16 → gcmElem other = value → other = tag) ∧
      lebtlsAeadSeal key nonce aad data = text ++ tag := by
  intro text value
  have htext : gcmCtr (gcmKeyExpand key) nonce data = text := gcmCtr_eq hkey hnonce data
  have hlen := gcmTag_length hkey hnonce aad text
  have hh : (standardAes key (List.replicate 16 0)).length = 16 := by
    rw [← gcmBlockEncrypt_eq hkey rfl]
    exact block_length hkey rfl
  have hs : (standardAes key (nonce ++ ctrBytes 1)).length = 16 := by
    rw [← gcmBlockEncrypt_eq hkey (counter_length hnonce 1)]
    exact block_length hkey (counter_length hnonce 1)
  have htag : gcmTag (gcmKeyExpand key) nonce aad text =
      gcmXorBlock (gcmGhash (standardAes key (List.replicate 16 0)) aad text) (standardAes key (nonce ++ ctrBytes 1)) := by
    rw [← gcmBlockEncrypt_eq hkey rfl, ← gcmBlockEncrypt_eq hkey (counter_length hnonce 1)]
    rfl
  obtain ⟨hghash, hvalue⟩ := gcmGhash_value hh aad text
  have helem : gcmElem (gcmTag (gcmKeyExpand key) nonce aad text) = value := by
    rw [htag, gcmElem_xor (hghash.trans hs.symm), hvalue]
  refine ⟨gcmTag (gcmKeyExpand key) nonce aad text, hlen, helem, ?_, ?_⟩
  · intro other hother heq
    exact gcmElem_inj hother hlen (heq.trans helem.symm)
  · rw [lebtlsAeadSeal, htext]

/-- One record under a key and a nonce of zeros. -/
theorem lebtlsAeadSeal_standard_zeros :
    let text := [0x17].zipWith (· ^^^ ·) (keyStream (standardAes (List.replicate 16 0)) (List.replicate 12 0) 1)
    let value := hashAt (standardAes (List.replicate 16 0) (List.replicate 16 0)) (hashBlocks [] text) +
      gcmElem (standardAes (List.replicate 16 0) (List.replicate 12 0 ++ ctrBytes 1))
    ∃ tag, tag.length = 16 ∧ gcmElem tag = value ∧ (∀ other, other.length = 16 → gcmElem other = value → other = tag) ∧
      lebtlsAeadSeal (List.replicate 16 0) (List.replicate 12 0) [] [0x17] = text ++ tag :=
  lebtlsAeadSeal_standard (List.replicate 16 0) (List.replicate 12 0) [] [0x17] rfl rfl

/-- What `lebtls_aead_open` accepts is what `lebtls_aead_seal` makes, and it gives back what was sealed. -/
theorem lebtlsAeadOpen_iff (key nonce aad data text : Bytes) (hkey : key.length = 16) (hnonce : nonce.length = 12) :
    lebtlsAeadOpen key nonce aad data = some text ↔ lebtlsAeadSeal key nonce aad text = data := by
  rw [lebtlsAeadOpen, lebtlsAeadSeal]
  dsimp only
  constructor
  · intro h
    by_cases hshort : data.length < 16
    · rw [if_pos hshort] at h
      exact absurd h (Option.some_ne_none text).symm
    · rw [if_neg hshort] at h
      have hdrop : (data.drop (data.length - 16)).length = 16 := by rw [List.length_drop]; omega
      have hcompare := cryptoConstantCompare_eq
        ((gcmTag_length hkey hnonce aad (data.take (data.length - 16))).trans hdrop.symm)
      by_cases htag : cryptoConstantCompare (gcmTag (gcmKeyExpand key) nonce aad (data.take (data.length - 16)))
          (data.drop (data.length - 16)) = 0
      · rw [if_neg (not_not_intro htag)] at h
        rw [← Option.some.inj h, gcmCtr_twice hkey hnonce, hcompare.1 htag, List.take_append_drop]
      · rw [if_pos htag] at h
        exact absurd h (Option.some_ne_none text).symm
  · intro h
    subst h
    have htag := gcmTag_length hkey hnonce aad (gcmCtr (gcmKeyExpand key) nonce text)
    generalize htagEq : gcmTag (gcmKeyExpand key) nonce aad (gcmCtr (gcmKeyExpand key) nonce text) = tag at htag
    have hlen : (gcmCtr (gcmKeyExpand key) nonce text ++ tag).length - 16 =
        (gcmCtr (gcmKeyExpand key) nonce text).length := by
      rw [List.length_append, htag, Nat.add_sub_cancel]
    rw [if_neg (by rw [List.length_append, htag]; omega), hlen, List.take_left, List.drop_left, htagEq,
      if_neg (not_not_intro ((cryptoConstantCompare_eq rfl).2 rfl)), gcmCtr_twice hkey hnonce]

/-- A string that is too short is no record of that key. -/
theorem lebtlsAeadOpen_iff_short :
    lebtlsAeadOpen (List.replicate 16 0) (List.replicate 12 0) [] [1] = some [2] ↔
      lebtlsAeadSeal (List.replicate 16 0) (List.replicate 12 0) [] [2] = [1] :=
  lebtlsAeadOpen_iff (List.replicate 16 0) (List.replicate 12 0) [] [1] [2] rfl rfl

end Lebirun.Tls
