import Mathlib
import Lebirun.Tls.Aes

namespace Lebirun.Tls
open ShiftAdd Polynomial
set_option autoImplicit true

/-! The cipher of the standard: a state is a table of bytes, and a byte an element of a field. -/

noncomputable def aesPoly : (ZMod 2)[X] := X ^ 8 + (X ^ 4 + X ^ 3 + X + 1)

/-- The coefficients of a byte. -/
def bitsOf (v : UInt8) : List Bool := (List.range 8).map v.toNat.testBit

noncomputable def aesElem (v : UInt8) : AdjoinRoot aesPoly := value (AdjoinRoot.root aesPoly) (bitsOf v)

/-- The byte of an element. -/
noncomputable def aesByte (x : AdjoinRoot aesPoly) : UInt8 := Function.invFun aesElem x

noncomputable def standardMul (a b : UInt8) : UInt8 := aesByte (aesElem a * aesElem b)

/-- The inverse, and 0 for 0. -/
noncomputable def standardInv (a : UInt8) : UInt8 := aesByte (Ring.inverse (aesElem a))

/-- The affine map of `SubBytes`, bit by bit. -/
def affineBit (v : UInt8) (i : Nat) : Bool :=
  v.toNat.testBit i ^^ v.toNat.testBit ((i + 4) % 8) ^^ v.toNat.testBit ((i + 5) % 8) ^^
    v.toNat.testBit ((i + 6) % 8) ^^ v.toNat.testBit ((i + 7) % 8) ^^ Nat.testBit 0x63 i

def affine (v : UInt8) : UInt8 := UInt8.ofNat ((List.range 8).foldr (fun i n => 2 * n + (affineBit v i).toNat) 0)

noncomputable def standardSbox (v : UInt8) : UInt8 := affine (standardInv v)

/-- A row, then a column. -/
abbrev AesState := Fin 4 → Fin 4 → UInt8

noncomputable def subBytes (s : AesState) : AesState := fun r c => standardSbox (s r c)

def shiftRows (s : AesState) : AesState := fun r c => s r (c + r)

noncomputable def mixColumns (s : AesState) : AesState := fun r c =>
  standardMul 2 (s r c) ^^^ standardMul 3 (s (r + 1) c) ^^^ s (r + 2) c ^^^ s (r + 3) c

def addRoundKey (s k : AesState) : AesState := fun r c => s r c ^^^ k r c

/-- The words of the key schedule. -/
noncomputable def keyWord (key : Fin 4 → Fin 4 → UInt8) : Nat → Fin 4 → UInt8
  | i =>
    if h : i < 4 then key ⟨i, h⟩
    else fun r =>
      keyWord key (i - 4) r ^^^
        if i % 4 = 0 then
          standardSbox (keyWord key (i - 1) (r + 1)) ^^^ (if r = 0 then aesByte (AdjoinRoot.root aesPoly ^ (i / 4 - 1)) else 0)
        else keyWord key (i - 1) r

noncomputable def roundKey (key : Fin 4 → Fin 4 → UInt8) (n : Nat) : AesState := fun r c => keyWord key (4 * n + c) r

/-- The cipher with 10 rounds; `key` has the words of the key. -/
noncomputable def standardCipher (key : Fin 4 → Fin 4 → UInt8) (block : AesState) : AesState :=
  let s := (List.range' 1 9).foldl (fun s n => addRoundKey (mixColumns (shiftRows (subBytes s))) (roundKey key n))
    (addRoundKey block (roundKey key 0))
  addRoundKey (shiftRows (subBytes s)) (roundKey key 10)

/-! The field. -/

theorem aesPoly_monic : aesPoly.Monic := by
  unfold aesPoly
  apply monic_X_pow_add
  compute_degree!

theorem aesPoly_natDegree : aesPoly.natDegree = 8 := by
  unfold aesPoly
  compute_degree!

theorem aes_two : (2 : AdjoinRoot aesPoly) = 0 := by
  have := congrArg (AdjoinRoot.of aesPoly) (show (2 : ZMod 2) = 0 from rfl)
  rwa [map_ofNat, map_zero] at this

theorem aes_root : AdjoinRoot.root aesPoly ^ 8 = value (AdjoinRoot.root aesPoly) (bitsOf 0x1b) := by
  have hroot : AdjoinRoot.mk aesPoly (X ^ 8 + (X ^ 4 + X ^ 3 + X + 1)) = 0 := AdjoinRoot.mk_self
  simp only [map_add, map_pow, map_one, AdjoinRoot.mk_X] at hroot
  have hbits : bitsOf 0x1b = [true, true, false, true, true, false, false, false] := by decide
  rw [hbits]
  simp only [value, coefficient, if_true, Bool.false_eq_true, if_false]
  linear_combination hroot - (AdjoinRoot.root aesPoly ^ 4 + AdjoinRoot.root aesPoly ^ 3 + AdjoinRoot.root aesPoly + 1) * aes_two

theorem bitsOf_length (v : UInt8) : (bitsOf v).length = 8 := rfl

theorem bitsOf_ne_nil (v : UInt8) : bitsOf v ≠ [] := List.length_pos_iff.1 (Nat.succ_pos 7)

theorem bitsOf_inj (h : bitsOf v = bitsOf w) : v = w := by
  apply UInt8.toNat_inj.1
  apply Nat.eq_of_testBit_eq
  intro i
  by_cases hi : i < 8
  · exact List.map_inj_left.1 h i (List.mem_range.2 hi)
  · have hle : 2 ^ 8 ≤ 2 ^ i := Nat.pow_le_pow_right (by decide) (Nat.le_of_not_lt hi)
    rw [Nat.testBit_lt_two_pow (v.toNat_lt.trans_le hle), Nat.testBit_lt_two_pow (w.toNat_lt.trans_le hle)]

theorem bitsOf_zero : bitsOf 0 = List.replicate 8 false := by decide

theorem bitsOf_xor (v w : UInt8) : bitsOf (v ^^^ w) = (bitsOf v).zipWith xor (bitsOf w) := by
  rw [bitsOf, bitsOf, bitsOf, List.zipWith_map, List.zipWith_self]
  apply List.map_congr_left
  intro i _
  rw [UInt8.toNat_xor, Nat.testBit_xor]

theorem aesElem_inj (h : aesElem v = aesElem w) : v = w :=
  bitsOf_inj (value_inj aesPoly_monic (by rw [aesPoly_natDegree]; rfl) (by rw [aesPoly_natDegree]; rfl) h)

theorem aesByte_elem (v : UInt8) : aesByte (aesElem v) = v := Function.leftInverse_invFun (fun _ _ => aesElem_inj) v

theorem aesElem_xor (v w : UInt8) : aesElem (v ^^^ w) = aesElem v + aesElem w := by
  rw [aesElem, bitsOf_xor, value_xor aes_two]
  · rfl
  · rfl

theorem bitsOf_xtime (v : UInt8) : bitsOf (gcmXtime v) = (false :: bitsOf v).dropLast.zipWith xor
    (if (bitsOf v).getLast (bitsOf_ne_nil v) then bitsOf 0x1b else List.replicate 8 false) := by
  have hshift : ∀ i, (v <<< 1).toNat.testBit i = (decide (i < 8) && (decide (1 ≤ i) && v.toNat.testBit (i - 1))) := by
    intro i
    rw [UInt8.toNat_shiftLeft, Nat.testBit_mod_two_pow, Nat.testBit_shiftLeft]
    rfl
  have htop : (v &&& 0x80 ≠ 0) = (v.toNat.testBit 7 = true) := by
    have hmask : ∀ x : Fin 256, (UInt8.ofFin x &&& 0x80 ≠ 0) ↔ (x.val.testBit 7 = true) := by decide +kernel
    exact propext (hmask v.toFin)
  have hlast : (bitsOf v).getLast (bitsOf_ne_nil v) = v.toNat.testBit 7 := rfl
  have hbits : (false :: bitsOf v).dropLast = (List.range 8).map (v <<< 1).toNat.testBit := by
    simp only [List.range, List.range.loop, List.map_cons, List.map_nil, hshift]
    rfl
  rw [hlast, hbits, gcmXtime, bitsOf_xor, bitsOf]
  congr 1
  simp only [htop]
  split
  · rfl
  · exact bitsOf_zero

theorem aesElem_xtime (v : UInt8) : aesElem (gcmXtime v) = AdjoinRoot.root aesPoly * aesElem v := by
  rw [aesElem, bitsOf_xtime, value_xor aes_two, aesElem, ← value_shift _ (bitsOf_ne_nil v), bitsOf_length, aes_root]
  · congr 1
    cases (bitsOf v).getLast _ with
    | false => rw [if_neg Bool.false_ne_true, value_zeros]; exact (mul_zero _).symm
    | true => rw [if_pos rfl]; exact (mul_one _).symm
  · split <;> rfl

/-! The operations. -/

theorem gfmulLoop_eq (k : Nat) (r a b : UInt8) :
    gfmulLoop k r a b = shiftAdd gcmXtime (· ^^^ ·) ((List.range k).map b.toNat.testBit) r a := by
  induction k generalizing r a b with
  | zero => rfl
  | succ k ih =>
    have htail : (List.range k).map (b >>> 1).toNat.testBit = (List.range k).map (b.toNat.testBit ∘ Nat.succ) := by
      apply List.map_congr_left
      intro i _
      rw [UInt8.toNat_shiftRight, Nat.testBit_shiftRight]
      exact congrArg _ (Nat.add_comm _ _)
    have hhead : (b &&& 1 ≠ 0) = (b.toNat.testBit 0 = true) := by
      have hall : ∀ x : Fin 256, (UInt8.ofFin x &&& 1 ≠ 0) ↔ ((UInt8.ofFin x).toNat.testBit 0 = true) := by decide +kernel
      exact propext (hall b.toFin)
    rw [gfmulLoop, ih, htail, List.range_succ_eq_map, List.map_cons, List.map_map, shiftAdd]
    simp only [hhead]

theorem aesElem_mul (a b : UInt8) : aesElem (gcmGfmul a b) = aesElem a * aesElem b := by
  have h := shiftAdd_value (AdjoinRoot.root aesPoly) gcmXtime (· ^^^ ·) aesElem (fun _ => True)
    (fun z v _ _ => ⟨trivial, aesElem_xor z v⟩) (fun v _ => ⟨trivial, aesElem_xtime v⟩) (bitsOf b) 0 a
    trivial trivial
  have hzero : aesElem 0 = 0 := (congrArg _ bitsOf_zero).trans (value_zeros 8)
  rw [gcmGfmul, gfmulLoop_eq]
  refine h.2.trans ?_
  rw [hzero, zero_add, mul_comm]
  rfl

theorem aesElem_one : aesElem 1 = 1 := by
  have hbits : bitsOf 1 = true :: List.replicate 7 false := by decide
  rw [aesElem, hbits, value, value_zeros, mul_zero, add_zero]
  rfl

theorem aesElem_pow (v : UInt8) (k : Nat) : aesElem ((fun inv => gcmGfmul inv v)^[k] 1) = aesElem v ^ k := by
  induction k with
  | zero => rw [pow_zero]; exact aesElem_one
  | succ k ih => rw [Function.iterate_succ_apply', aesElem_mul, ih, pow_succ]

theorem aesElem_zero : aesElem 0 = 0 := (congrArg _ bitsOf_zero).trans (value_zeros 8)

/-- A power, by squares; the bits of the exponent come from the top. -/
def powByte (v : UInt8) (bits : List Bool) : UInt8 :=
  bits.foldl (fun r b => if b then gcmGfmul (gcmGfmul r r) v else gcmGfmul r r) 1

theorem aesElem_powByte (v : UInt8) (bits : List Bool) :
    aesElem (powByte v bits) = aesElem v ^ bits.foldl (fun n b => 2 * n + b.toNat) 0 := by
  rw [powByte]
  have hrun : ∀ (r : UInt8) (n : Nat), aesElem r = aesElem v ^ n →
      aesElem (bits.foldl (fun r b => if b then gcmGfmul (gcmGfmul r r) v else gcmGfmul r r) r) =
        aesElem v ^ bits.foldl (fun n b => 2 * n + b.toNat) n := by
    induction bits with
    | nil => exact fun r n h => h
    | cons b bits ih =>
      intro r n h
      apply ih
      dsimp only
      cases b with
      | false => rw [if_neg Bool.false_ne_true, aesElem_mul, h, Bool.toNat_false, ← pow_add, add_zero, two_mul]
      | true => rw [if_pos rfl, aesElem_mul, aesElem_mul, h, Bool.toNat_true, ← pow_add, ← pow_succ, two_mul]
  exact hrun 1 0 (by rw [pow_zero, aesElem_one])

/-- The byte 3 generates the field. -/
theorem generator_order : orderOf (aesElem 3) = 255 := by
  have hne : ∀ bits, powByte 3 bits ≠ 1 → aesElem 3 ^ bits.foldl (fun n b => 2 * n + b.toNat) 0 ≠ 1 := by
    intro bits hbits heq
    rw [← aesElem_powByte, ← aesElem_one] at heq
    exact hbits (aesElem_inj heq)
  apply orderOf_eq_of_pow_and_pow_div_prime (by decide)
  · have := aesElem_powByte 3 (List.replicate 8 true)
    rw [(by decide +kernel : powByte 3 (List.replicate 8 true) = 1), aesElem_one] at this
    exact this.symm
  · intro p hp hdvd
    have hfactors : p ∣ 3 ∨ p ∣ 5 ∨ p ∣ 17 := by
      rw [(by norm_num : 255 = 3 * (5 * 17)), hp.dvd_mul, hp.dvd_mul] at hdvd
      exact hdvd
    rw [Nat.prime_dvd_prime_iff_eq hp (by norm_num), Nat.prime_dvd_prime_iff_eq hp (by norm_num),
      Nat.prime_dvd_prime_iff_eq hp (by norm_num)] at hfactors
    rcases hfactors with rfl | rfl | rfl
    · exact hne [true, false, true, false, true, false, true] (by decide +kernel)
    · exact hne [true, true, false, false, true, true] (by decide +kernel)
    · exact hne [true, true, true, true] (by decide +kernel)

theorem power255_one (hv : v ≠ 0) : aesElem v ^ 255 = 1 := by
  have hone : aesElem 3 ^ 255 = 1 := by
    rw [← generator_order]
    exact pow_orderOf_eq_one _
  have helem : ∀ i, aesElem ((fun r => gcmGfmul r 3)^[i] 1) = aesElem 3 ^ i := aesElem_pow 3
  -- The 255 powers are different, so they are all the bytes but 0.
  have hsub : (Finset.range 255).image (fun i => ((fun r => gcmGfmul r 3)^[i] 1).toNat) ⊆ (Finset.range 256).erase 0 := by
    intro n hn
    obtain ⟨i, hi, rfl⟩ := Finset.mem_image.1 hn
    rw [Finset.mem_erase, Finset.mem_range]
    refine ⟨?_, UInt8.toNat_lt _⟩
    intro hzero
    have hbyte : (fun r => gcmGfmul r 3)^[i] 1 = 0 := UInt8.toNat_inj.1 hzero
    have hpow := helem i
    rw [hbyte, aesElem_zero] at hpow
    have hle : i ≤ 255 := (Finset.mem_range.1 hi).le
    rw [← Nat.add_sub_cancel' hle, pow_add, ← hpow, zero_mul, ← aesElem_zero, ← aesElem_one] at hone
    exact absurd (aesElem_inj hone) (by decide)
  have hcard : ((Finset.range 256).erase 0).card ≤
      ((Finset.range 255).image (fun i => ((fun r => gcmGfmul r 3)^[i] 1).toNat)).card := by
    rw [Finset.card_image_of_injOn]
    · rw [Finset.card_erase_of_mem (Finset.mem_range.2 (by decide)), Finset.card_range, Finset.card_range]
    · intro i hi j hj hij
      have hbytes := congrArg aesElem (UInt8.toNat_inj.1 hij)
      rw [helem, helem] at hbytes
      apply pow_injOn_Iio_orderOf _ _ hbytes
      · rw [generator_order]
        exact Finset.mem_range.1 hi
      · rw [generator_order]
        exact Finset.mem_range.1 hj
  have hmem : v.toNat ∈ (Finset.range 256).erase 0 :=
    Finset.mem_erase.2 ⟨fun h => hv (UInt8.toNat_inj.1 h), Finset.mem_range.2 v.toNat_lt⟩
  rw [← Finset.eq_of_subset_of_card_le hsub hcard] at hmem
  obtain ⟨i, _, hi⟩ := Finset.mem_image.1 hmem
  rw [← UInt8.toNat_inj.1 hi, helem, ← pow_mul, mul_comm, pow_mul, hone, one_pow]

theorem sboxInv_eq (v : UInt8) : sboxInv v = standardInv v := by
  rw [sboxInv, standardInv]
  split
  · rename_i hv
    rw [hv, aesElem_zero, Ring.inverse_zero, ← aesElem_zero, aesByte_elem]
  · rename_i hv
    have hmul : aesElem v * aesElem v ^ 254 = 1 := by rw [← pow_succ', power255_one hv]
    have hinv : Ring.inverse (aesElem v) = aesElem v ^ 254 :=
      Ring.inverse_unit (Units.mkOfMulEqOne _ _ hmul)
    rw [hinv, ← aesElem_pow, aesByte_elem]

theorem gcmSbox_eq (v : UInt8) : gcmSbox v = standardSbox v := by
  have hall : ∀ x : Fin 256, sboxLoop 4 (UInt8.ofFin x) (UInt8.ofFin x ^^^ 0x63) = affine (UInt8.ofFin x) := by
    decide +kernel
  rw [gcmSbox, standardSbox, sboxInv_eq]
  exact hall (standardInv v).toFin

theorem standardMul_two (v : UInt8) : standardMul 2 v = gcmXtime v := by
  have htwo : aesElem 2 = AdjoinRoot.root aesPoly := by
    have hxtime := aesElem_xtime 1
    rw [aesElem_one, mul_one] at hxtime
    exact hxtime
  rw [standardMul, htwo, ← aesElem_xtime, aesByte_elem]

theorem standardMul_three (v : UInt8) : standardMul 3 v = gcmXtime v ^^^ v := by
  have hthree : aesElem 3 = AdjoinRoot.root aesPoly + 1 := by
    have hxor := aesElem_xor (gcmXtime 1) 1
    rw [aesElem_xtime, aesElem_one, mul_one] at hxor
    exact hxor
  rw [standardMul, hthree, add_mul, one_mul, ← aesElem_xtime, ← aesElem_xor, aesByte_elem]

/-! States and bytes. -/

/-- A string of 16 bytes as a table, column after column. -/
def aesState (s : Bytes) : AesState := fun r c => s.getD (r + 4 * c) 0

def aesBytes (t : AesState) : Bytes := (List.range 4).flatMap fun c => (List.range 4).map fun r => t (Fin.ofNat 4 r) (Fin.ofNat 4 c)

/-- Byte `r` of word `i` of a key. -/
def keyWords (key : Bytes) : Fin 4 → Fin 4 → UInt8 := fun i r => key.getD (r + 4 * i) 0

/-- AES-128 of a block under a key. -/
noncomputable def standardAes (key block : Bytes) : Bytes := aesBytes (standardCipher (keyWords key) (aesState block))

/-- The string and the table say the same. -/
structure Holds (s : Bytes) (t : AesState) : Prop where
  length : s.length = 16
  state : aesState s = t

variable {s rk key : Bytes} {t k : AesState}

theorem Holds.get (h : Holds s t) (r c : Fin 4) : s.getD (r + 4 * c) 0 = t r c := congrFun (congrFun h.state r) c

theorem cell_lt (r c : Fin 4) : r.val + 4 * c.val < 16 := by omega

theorem Holds.addRoundKey (h : Holds s t) (hk : Holds rk k) : Holds (gcmAddRoundKey s rk) (addRoundKey t k) := by
  constructor
  · rw [gcmAddRoundKey, List.length_zipWith, h.length, hk.length, Nat.min_self]
  · funext r c
    have hs : r.val + 4 * c.val < s.length := h.length.symm ▸ cell_lt r c
    have hrk : r.val + 4 * c.val < rk.length := hk.length.symm ▸ cell_lt r c
    rw [Lebirun.Tls.addRoundKey, ← h.get, ← hk.get, aesState, gcmAddRoundKey, List.getD_eq_getElem?_getD,
      List.getElem?_zipWith, List.getElem?_eq_getElem hs, List.getElem?_eq_getElem hrk,
      List.getD_eq_getElem _ _ hs, List.getD_eq_getElem _ _ hrk]
    rfl

theorem Holds.subBytes (h : Holds s t) : Holds (gcmSubBytes s) (subBytes t) := by
  constructor
  · rw [gcmSubBytes, List.length_map, h.length]
  · funext r c
    have hs : r.val + 4 * c.val < s.length := h.length.symm ▸ cell_lt r c
    rw [Lebirun.Tls.subBytes, ← h.get, aesState, gcmSubBytes, List.getD_eq_getElem?_getD, List.getElem?_map,
      List.getElem?_eq_getElem hs, List.getD_eq_getElem _ _ hs, ← gcmSbox_eq]
    rfl

theorem Holds.shiftRows (h : Holds s t) : Holds (gcmShiftRows s) (shiftRows t) := by
  constructor
  · rfl
  · funext r c
    have hrow : (r.val + 4 * c.val) % 4 = r := by omega
    have hcolumn : (r.val + 4 * c.val) / 4 = c := by omega
    rw [Lebirun.Tls.shiftRows, ← h.get, aesState, gcmShiftRows, List.getD_eq_getElem?_getD, List.getElem?_map,
      List.getElem?_range (cell_lt r c), Option.map_some, Option.getD_some, hrow, hcolumn, Fin.val_add]

theorem getD_chunks {f : Nat → Bytes} (hf : ∀ c, (f c).length = 4) (hr : r < 4) (n : Nat) :
    ((List.range n).flatMap f).length = 4 * n ∧
      ∀ c < n, ((List.range n).flatMap f).getD (r + 4 * c) 0 = (f c).getD r 0 := by
  induction n with
  | zero => exact ⟨rfl, fun c hc => absurd hc (Nat.not_lt_zero c)⟩
  | succ n ih =>
    obtain ⟨hlen, hget⟩ := ih
    rw [List.range_succ, List.flatMap_append, List.flatMap_singleton]
    constructor
    · rw [List.length_append, hlen, hf, Nat.mul_succ]
    · intro c hc
      rw [List.getD_eq_getElem?_getD]
      by_cases hlast : c = n
      · subst hlast
        rw [List.getElem?_append_right (by omega), hlen, Nat.add_sub_cancel, ← List.getD_eq_getElem?_getD]
      · rw [List.getElem?_append_left (by omega), ← List.getD_eq_getElem?_getD]
        exact hget c (by omega)

theorem Holds.eq (h : Holds s t) : s = aesBytes t := by
  have hchunks : ∀ r < 4, ∀ c < 4, (aesBytes t).getD (r + 4 * c) 0 = t (Fin.ofNat 4 r) (Fin.ofNat 4 c) := by
    intro r hr c hc
    have hcolumn := (getD_chunks (f := fun c => (List.range 4).map fun r => t (Fin.ofNat 4 r) (Fin.ofNat 4 c))
      (fun _ => rfl) hr 4).2 c hc
    refine hcolumn.trans ?_
    rw [List.getD_eq_getElem?_getD, List.getElem?_map, List.getElem?_range hr]
    rfl
  apply List.ext_getElem (h.length.trans rfl)
  intro i hi hi'
  have hlt : i < 16 := h.length ▸ hi
  have hindex : i % 4 + 4 * (i / 4) = i := Nat.mod_add_div i 4
  have hcode := h.get ⟨i % 4, Nat.mod_lt _ (by decide)⟩ ⟨i / 4, by omega⟩
  have hspec := hchunks (i % 4) (Nat.mod_lt _ (by decide)) (i / 4) (by omega)
  rw [hindex] at hspec
  dsimp only at hcode
  rw [hindex] at hcode
  have hrow : (⟨i % 4, Nat.mod_lt _ (by decide)⟩ : Fin 4) = Fin.ofNat 4 (i % 4) := Fin.ext (Nat.mod_mod i 4).symm
  have hcol : (⟨i / 4, by omega⟩ : Fin 4) = Fin.ofNat 4 (i / 4) := Fin.ext (Nat.mod_eq_of_lt (by omega)).symm
  rw [hrow, hcol] at hcode
  rw [← List.getD_eq_getElem _ 0 hi, ← List.getD_eq_getElem _ 0 hi', hcode, hspec]

theorem Holds.mixColumns (h : Holds s t) : Holds (gcmMixColumns s) (mixColumns t) := by
  constructor
  · exact (getD_chunks (fun _ => rfl) (Nat.zero_lt_succ 3) 4).1
  · funext r c
    have hcell : ∀ r : Fin 4, s.getD (4 * c.val + r.val) 0 = t r c := by
      intro r
      rw [← h.get, Nat.add_comm]
    have h0 : s.getD (4 * c.val) 0 = t 0 c := hcell 0
    have h1 : s.getD (4 * c.val + 1) 0 = t 1 c := hcell 1
    have h2 : s.getD (4 * c.val + 2) 0 = t 2 c := hcell 2
    have h3 : s.getD (4 * c.val + 3) 0 = t 3 c := hcell 3
    rw [aesState, gcmMixColumns, (getD_chunks (fun _ => rfl) r.isLt 4).2 c c.isLt, h0, h1, h2, h3,
      Lebirun.Tls.mixColumns, standardMul_two, standardMul_three]
    fin_cases r
    · show gcmXtime (t 0 c) ^^^ gcmXtime (t 1 c) ^^^ t 1 c ^^^ t 2 c ^^^ t 3 c =
        gcmXtime (t 0 c) ^^^ (gcmXtime (t 1 c) ^^^ t 1 c) ^^^ t 2 c ^^^ t 3 c
      ac_rfl
    · show t 0 c ^^^ gcmXtime (t 1 c) ^^^ gcmXtime (t 2 c) ^^^ t 2 c ^^^ t 3 c =
        gcmXtime (t 1 c) ^^^ (gcmXtime (t 2 c) ^^^ t 2 c) ^^^ t 3 c ^^^ t 0 c
      ac_rfl
    · show t 0 c ^^^ t 1 c ^^^ gcmXtime (t 2 c) ^^^ gcmXtime (t 3 c) ^^^ t 3 c =
        gcmXtime (t 2 c) ^^^ (gcmXtime (t 3 c) ^^^ t 3 c) ^^^ t 0 c ^^^ t 1 c
      ac_rfl
    · show gcmXtime (t 0 c) ^^^ t 0 c ^^^ t 1 c ^^^ t 2 c ^^^ gcmXtime (t 3 c) =
        gcmXtime (t 3 c) ^^^ (gcmXtime (t 0 c) ^^^ t 0 c) ^^^ t 1 c ^^^ t 2 c
      ac_rfl

/-! The key schedule. -/

noncomputable def rconOf (n : Nat) : UInt8 := aesByte (AdjoinRoot.root aesPoly ^ n)

theorem rcon_iterate (n : Nat) : gcmXtime^[n] 1 = rconOf n := by
  have helem : aesElem (gcmXtime^[n] 1) = AdjoinRoot.root aesPoly ^ n := by
    induction n with
    | zero => rw [pow_zero]; exact aesElem_one
    | succ n ih => rw [Function.iterate_succ_apply', aesElem_xtime, ih, pow_succ']
  rw [rconOf, ← helem, aesByte_elem]

/-- The first word of a round key. -/
theorem keyWord_first (w : Fin 4 → Fin 4 → UInt8) (n : Nat) (r : Fin 4) :
    keyWord w (4 * (n + 1)) r = keyWord w (4 * n) r ^^^
      (standardSbox (keyWord w (4 * n + 3) (r + 1)) ^^^ if r = 0 then rconOf n else 0) := by
  rw [keyWord, dif_neg (by omega), if_pos (by omega)]
  have hsub : 4 * (n + 1) - 4 = 4 * n := by omega
  have hprev : 4 * (n + 1) - 1 = 4 * n + 3 := by omega
  have hdiv : 4 * (n + 1) / 4 - 1 = n := by omega
  rw [hsub, hprev, hdiv, rconOf]

theorem keyWord_next (w : Fin 4 → Fin 4 → UInt8) (n : Nat) (hc : c < 3) (r : Fin 4) :
    keyWord w (4 * (n + 1) + (c + 1)) r = keyWord w (4 * n + (c + 1)) r ^^^ keyWord w (4 * (n + 1) + c) r := by
  rw [keyWord, dif_neg (by omega), if_neg (by omega)]
  have hsub : 4 * (n + 1) + (c + 1) - 4 = 4 * n + (c + 1) := by omega
  have hprev : 4 * (n + 1) + (c + 1) - 1 = 4 * (n + 1) + c := by omega
  rw [hsub, hprev]

/-- The bytes of a round key, in the order of the source. -/
theorem roundKey_byte (w : Fin 4 → Fin 4 → UInt8) (n : Nat) (h : Holds rk (roundKey w n)) (hj : j < 16) :
    rk.getD j 0 = keyWord w (4 * n + j / 4) ⟨j % 4, Nat.mod_lt _ (by decide)⟩ := by
  have hcell := h.get ⟨j % 4, Nat.mod_lt _ (by decide)⟩ ⟨j / 4, by omega⟩
  have hindex : j % 4 + 4 * (j / 4) = j := Nat.mod_add_div j 4
  rw [hindex] at hcell
  exact hcell

/-- The turns of the last loop of `gcm_key_expand` fill a row from its first four bytes. -/
theorem nextKey_loop (w : Fin 4 → Fin 4 → UInt8) (n : Nat) (h : Holds rk (roundKey w n)) (first : Bytes)
    (hfirst : first.length = 4)
    (hword : ∀ j (hj : j < 4), first.getD j 0 = keyWord w (4 * (n + 1)) ⟨j, hj⟩) (m : Nat) (hm : m ≤ 12) :
    let row := (List.range' 4 m).foldl (fun row k => row ++ [rk.getD k 0 ^^^ row.getD (k - 4) 0]) first
    row.length = 4 + m ∧ ∀ j < 4 + m, row.getD j 0 =
      keyWord w (4 * (n + 1) + j / 4) ⟨j % 4, Nat.mod_lt _ (by decide)⟩ := by
  induction m with
  | zero =>
    refine ⟨hfirst, ?_⟩
    intro j hj
    have hdiv : j / 4 = 0 := Nat.div_eq_of_lt hj
    have hmod : j % 4 = j := Nat.mod_eq_of_lt hj
    simp only [hdiv, hmod, Nat.add_zero]
    exact hword j hj
  | succ m ih =>
    obtain ⟨hlen, hget⟩ := ih (by omega)
    rw [List.range'_1_concat, List.foldl_append, List.foldl_cons, List.foldl_nil]
    generalize (List.range' 4 m).foldl (fun row k => row ++ [rk.getD k 0 ^^^ row.getD (k - 4) 0]) first = row at hlen hget
    refine ⟨by rw [List.length_append, hlen]; rfl, ?_⟩
    intro j hj
    rw [List.getD_eq_getElem?_getD]
    by_cases hlast : j = 4 + m
    · subst hlast
      have hmod : (4 + m - 4) % 4 = (4 + m) % 4 := by omega
      have hdiv : (4 + m) / 4 = (4 + m - 4) / 4 + 1 := by omega
      rw [List.getElem?_append_right (by omega), hlen, Nat.sub_self, List.getElem?_cons_zero, Option.getD_some,
        roundKey_byte w n h (by omega), hget (4 + m - 4) (by omega), hdiv, keyWord_next w n (by omega)]
      simp only [hmod]
    · rw [List.getElem?_append_left (by omega), ← List.getD_eq_getElem?_getD]
      exact hget j (by omega)

theorem nextKey_holds (w : Fin 4 → Fin 4 → UInt8) (n : Nat) (h : Holds rk (roundKey w n)) :
    Holds (nextKey rk (rconOf n)) (roundKey w (n + 1)) := by
  have htake : (rk.take 4).length = 4 := by rw [List.length_take, h.length]; rfl
  have hlast : ∀ r : Fin 4, rk.getD (12 + r.val) 0 = keyWord w (4 * n + 3) r := by
    intro r
    have hcell := h.get r 3
    rw [Nat.add_comm] at hcell
    exact hcell
  have hrow : ∀ r : Fin 4, rk.getD r.val 0 = keyWord w (4 * n) r := fun r => h.get r 0
  have htable : ∀ (a b c d : UInt8) (r : Fin 4), ((rk.take 4).zipWith (· ^^^ ·) [a, b, c, d]).getD r.val 0 =
      rk.getD r.val 0 ^^^ [a, b, c, d].getD r.val 0 := by
    intro a b c d r
    have hr : r.val < (rk.take 4).length := htake.symm ▸ r.isLt
    have hr' : r.val < [a, b, c, d].length := r.isLt
    have hrk : r.val < rk.length := by rw [h.length]; omega
    rw [List.getD_eq_getElem?_getD, List.getElem?_zipWith, List.getElem?_eq_getElem hr, List.getElem?_eq_getElem hr',
      List.getD_eq_getElem _ _ hr', List.getD_eq_getElem _ _ hrk, List.getElem_take]
    rfl
  obtain ⟨hlen, hget⟩ := nextKey_loop w n h ((rk.take 4).zipWith (· ^^^ ·)
      [gcmSbox (rk.getD 13 0) ^^^ rconOf n, gcmSbox (rk.getD 14 0), gcmSbox (rk.getD 15 0), gcmSbox (rk.getD 12 0)])
    (by rw [List.length_zipWith, htake]; rfl) (by
      intro j hj
      rw [htable _ _ _ _ ⟨j, hj⟩, keyWord_first, hrow ⟨j, hj⟩, ← gcmSbox_eq, ← hlast]
      congr 1
      interval_cases j
      · rfl
      · exact (UInt8.xor_zero).symm
      · exact (UInt8.xor_zero).symm
      · exact (UInt8.xor_zero).symm) 12 le_rfl
  constructor
  · exact hlen
  · funext r c
    have hdiv : (r.val + 4 * c.val) / 4 = c := by omega
    have hmod : (r.val + 4 * c.val) % 4 = r := by omega
    refine (hget _ (cell_lt r c)).trans ?_
    simp only [hdiv, hmod]
    rfl

theorem keyLoop_get (k : Nat) (rcon : UInt8) (rk : Bytes) (hn : n ≤ k) :
    (rk :: keyLoop k rcon rk).getD n [] = ((fun p : Bytes × UInt8 => (nextKey p.1 p.2, gcmXtime p.2))^[n] (rk, rcon)).1 := by
  induction n generalizing k rcon rk with
  | zero => rfl
  | succ n ih =>
    cases k with
    | zero => exact absurd hn (Nat.not_succ_le_zero n)
    | succ k => exact ih k (gcmXtime rcon) (nextKey rk rcon) (Nat.le_of_succ_le_succ hn)

theorem gcmKeyExpand_holds (hkey : key.length = 16) (hn : n ≤ 10) :
    Holds ((gcmKeyExpand key).getD n []) (roundKey (keyWords key) n) := by
  have hrun : ∀ n, Holds ((fun p : Bytes × UInt8 => (nextKey p.1 p.2, gcmXtime p.2))^[n] (key, 1)).1
      (roundKey (keyWords key) n) ∧
      ((fun p : Bytes × UInt8 => (nextKey p.1 p.2, gcmXtime p.2))^[n] (key, 1)).2 = rconOf n := by
    intro n
    induction n with
    | zero =>
      refine ⟨⟨hkey, ?_⟩, rcon_iterate 0⟩
      funext r c
      rw [roundKey, keyWord, dif_pos (by omega)]
      simp only [Nat.mul_zero, Nat.zero_add]
      rfl
    | succ n ih =>
      obtain ⟨h, hrcon⟩ := ih
      rw [Function.iterate_succ_apply']
      refine ⟨?_, ?_⟩
      · show Holds (nextKey _ _) _
        rw [hrcon]
        exact nextKey_holds (keyWords key) n h
      · show gcmXtime _ = _
        rw [hrcon, ← rcon_iterate, ← rcon_iterate, Function.iterate_succ_apply']
  rw [gcmKeyExpand, keyLoop_get 10 1 key hn]
  exact (hrun n).1

/-- The cipher is AES-128 of the standard, for every key and block. -/
theorem gcmBlockEncrypt_holds (hkey : key.length = 16) (h : Holds s t) :
    Holds (gcmBlockEncrypt (gcmKeyExpand key) s) (standardCipher (keyWords key) t) := by
  have hrounds : Holds ((List.range' 1 9).foldl (fun s r => aesRound s ((gcmKeyExpand key).getD r []))
      (gcmAddRoundKey s ((gcmKeyExpand key).getD 0 [])))
      ((List.range' 1 9).foldl (fun s n => addRoundKey (mixColumns (shiftRows (subBytes s))) (roundKey (keyWords key) n))
        (addRoundKey t (roundKey (keyWords key) 0))) := by
    apply List.foldl_rel
    · exact h.addRoundKey (gcmKeyExpand_holds hkey (Nat.zero_le 10))
    · intro n hn s t hst
      have hle : n ≤ 10 := by
        have := (List.mem_range'_1.1 hn).2
        omega
      exact hst.subBytes.shiftRows.mixColumns.addRoundKey (gcmKeyExpand_holds hkey hle)
  exact hrounds.subBytes.shiftRows.addRoundKey (gcmKeyExpand_holds hkey le_rfl)

theorem gcmBlockEncrypt_eq (hkey : key.length = 16) (hs : s.length = 16) :
    gcmBlockEncrypt (gcmKeyExpand key) s = standardAes key s :=
  (gcmBlockEncrypt_holds hkey ⟨hs, rfl⟩).eq

/-- The key schedule and the rounds are AES-128 of the standard, for every key and block. -/
theorem gcmBlockEncrypt_standard (key block : Bytes) (hkey : key.length = 16) (hblock : block.length = 16) :
    gcmBlockEncrypt (gcmKeyExpand key) block = standardAes key block ∧
      ∀ n ≤ 10, (gcmKeyExpand key).getD n [] = aesBytes (roundKey (keyWords key) n) := by
  constructor
  · exact gcmBlockEncrypt_eq hkey hblock
  · intro n hn
    exact (gcmKeyExpand_holds hkey hn).eq

/-- A key and a block of zeros. -/
theorem gcmBlockEncrypt_standard_zeros :
    gcmBlockEncrypt (gcmKeyExpand (List.replicate 16 0)) (List.replicate 16 0) =
        standardAes (List.replicate 16 0) (List.replicate 16 0) ∧
      ∀ n ≤ 10, (gcmKeyExpand (List.replicate 16 0)).getD n [] =
        aesBytes (roundKey (keyWords (List.replicate 16 0)) n) :=
  gcmBlockEncrypt_standard (List.replicate 16 0) (List.replicate 16 0) rfl rfl

end Lebirun.Tls
