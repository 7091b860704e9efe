import Mathlib
import Lebirun.Lib.Limbs
import Lebirun.Tls.BigEndian

namespace Lebirun.Tls
open Limbs
set_option autoImplicit true

abbrev Bignum := List UInt32

/-- The loop of `bn_from_bin`; `len - 1 - i` is the number of bytes that follow. -/
def fromBinLoop : Bytes → Bignum → Bignum
  | [], r => r
  | b :: rest, r =>
    fromBinLoop rest (r.modify (rest.length / 4) (· ||| b.toUInt32 <<< UInt32.ofNat (rest.length % 4 * 8)))

/-- `bn_from_bin` -/
def bnFromBin (bin : Bytes) (limbs : Nat) : Bignum := fromBinLoop bin (List.replicate limbs 0)

/-- The loop over the bits of a limb in `bn_bitlen`. -/
def bitWidth (x : UInt32) : Nat → Nat
  | 0 => 0
  | b + 1 => if x >>> UInt32.ofNat b &&& 1 = 0 then bitWidth x b else b + 1

/-- The number of bits before it is cut to an `int`; limbs are looked at from the last one down. -/
def bitCount : Bignum → Nat
  | [] => 0
  | x :: l => if bitCount l = 0 then (if x = 0 then 0 else bitWidth x 32) else 32 + bitCount l

/-- `bn_bitlen` -/
def bnBitlen (a : Bignum) : Int := Int.bmod (bitCount a) (2 ^ 32)

/-- `bn_cmp` -/
def bnCmp (a b : Bignum) : Ordering := Limbs.cmp a b

/-- `bn_mul` of two numbers of `n` limbs -/
def bnMul (a b : Bignum) (n : Nat) : Bignum := Limbs.mulRows b a (List.replicate (2 * n) 0)

/-- `bn_shl1` -/
def bnShl1 (r : Bignum) : Bignum := Limbs.shl1 0 r

/-- `bn_sub_inplace`, without its return value -/
def bnSubInplace (a b : Bignum) : Bignum := (Limbs.sub 0 a b).1

/-- `work_m` after `i` shifts to the left. -/
def shiftLoop (m : Bignum) : Nat → Bignum
  | 0 => m
  | i + 1 => bnShl1 (shiftLoop m i)

/-- The loop of `bn_mod` from `i` down to 0. -/
def modLoop : Nat → Bignum → Bignum → Bignum
  | 0, a, m => if bnCmp a m ≠ .lt then bnSubInplace a m else a
  | i + 1, a, m => modLoop i (if bnCmp a m ≠ .lt then bnSubInplace a m else a) (Limbs.shr1 m).1

/-- `bn_mod`, with `n` the limbs of `m` -/
def bnMod (a m : Bignum) : Option Bignum :=
  if bnCmp (a.take m.length) m = .lt ∧ ∀ x ∈ a.drop m.length, x = 0 then some (a.take m.length)
  else if bnBitlen m ≤ 0 ∨ bnBitlen a < bnBitlen m then none
  else
    let shift := (bnBitlen a - bnBitlen m).toNat
    some ((modLoop shift a (shiftLoop (m ++ List.replicate m.length 0) shift)).take m.length)

variable {a b l m r : Bignum} {x : UInt32} {c i k n : Nat}

/-! Bytes to limbs. -/

theorem low_bytes (hk : k < 4) (b : UInt8) (x : UInt32) (h : 256 ^ (k + 1) ∣ x.toNat) :
    (x ||| b.toUInt32 <<< UInt32.ofNat (k * 8)).toNat = x.toNat + b.toNat * 256 ^ k := by
  have hb := b.toNat_lt
  have hpow : (256 : Nat) ^ k = 2 ^ (8 * k) := by rw [pow_mul]; norm_num
  have hpow' : (256 : Nat) ^ (k + 1) = 2 ^ (8 * k + 8) := by rw [Nat.pow_succ, hpow, Nat.pow_add]
  have hshift : (b.toUInt32 <<< UInt32.ofNat (k * 8)).toNat = b.toNat * 256 ^ k := by
    rw [UInt32.toNat_shiftLeft, UInt8.toNat_toUInt32]
    interval_cases k
    all_goals
      rw [Nat.shiftLeft_eq]
      exact Nat.mod_eq_of_lt (by simp; omega)
  have hlt : b.toNat * 256 ^ k < 2 ^ (8 * k + 8) := by
    rw [hpow, Nat.add_comm, Nat.pow_add]
    exact Nat.mul_lt_mul_of_pos_right hb (Nat.two_pow_pos _)
  obtain ⟨q, hq⟩ := h
  rw [UInt32.toNat_or, hshift, hq, hpow', Nat.two_pow_add_eq_or_of_lt hlt]

theorem val_modify (j : Nat) (hk : k < 4) (b : UInt8) (h : 256 ^ (4 * j + k + 1) ∣ val r) (hj : j < r.length) :
    val (r.modify j (· ||| b.toUInt32 <<< UInt32.ofNat (k * 8))) = val r + b.toNat * 256 ^ (4 * j + k) := by
  induction j generalizing r with
  | zero =>
    obtain _ | ⟨x, l⟩ := r
    · exact absurd hj (Nat.not_lt_zero _)
    rw [Nat.mul_zero, Nat.zero_add, val_cons] at h
    have hword : 256 ^ (k + 1) ∣ 2 ^ 32 * val l :=
      ((Nat.pow_dvd_pow 256 hk : 256 ^ (k + 1) ∣ 256 ^ 4).trans (dvd_of_eq (by decide))).trans
        (Nat.dvd_mul_right _ _)
    have hx := (Nat.dvd_add_left hword).1 h
    rw [List.modify_zero_cons, val_cons, val_cons, low_bytes hk b x hx, Nat.mul_zero, Nat.zero_add]
    omega
  | succ j ih =>
    obtain _ | ⟨x, l⟩ := r
    · exact absurd hj (Nat.not_lt_zero _)
    have hx := x.toNat_lt
    have hpow : 256 ^ (4 * (j + 1) + k + 1) = 2 ^ 32 * 256 ^ (4 * j + k + 1) := by ring
    have hpow' : 256 ^ (4 * (j + 1) + k) = 2 ^ 32 * 256 ^ (4 * j + k) := by ring
    rw [hpow, val_cons] at h
    have hword := (Nat.dvd_add_left (Nat.dvd_mul_right (2 ^ 32) (val l))).1 ((Nat.dvd_mul_right _ _).trans h)
    have hzero : x.toNat = 0 := Nat.eq_zero_of_dvd_of_lt hword hx
    rw [hzero, Nat.zero_add] at h
    have hl := ih (Nat.dvd_of_mul_dvd_mul_left (by decide) h) (Nat.lt_of_succ_lt_succ hj)
    rw [List.modify_succ_cons, val_cons, val_cons, hl, hpow']
    ring

theorem fromBinLoop_val (bin : Bytes) (h : 256 ^ bin.length ∣ val r) (hlen : bin.length ≤ 4 * r.length) :
    val (fromBinLoop bin r) = val r + beNat bin ∧ (fromBinLoop bin r).length = r.length := by
  induction bin generalizing r with
  | nil => exact ⟨rfl, rfl⟩
  | cons b rest ih =>
    rw [List.length_cons] at h hlen
    have hsplit := Nat.div_add_mod rest.length 4
    have hmod := @val_modify r (rest.length % 4) (rest.length / 4) (Nat.mod_lt _ (by decide)) b
      (by rw [hsplit]; exact h) (by omega)
    rw [hsplit] at hmod
    have hdvd : 256 ^ rest.length ∣ val r + b.toNat * 256 ^ rest.length :=
      Nat.dvd_add ((Nat.pow_dvd_pow 256 (Nat.le_succ _)).trans h) (Nat.dvd_mul_left _ _)
    rw [← hmod] at hdvd
    obtain ⟨hval, hsize⟩ := ih hdvd (by rw [List.length_modify]; omega)
    rw [fromBinLoop, hval, hsize, hmod, beNat_cons, List.length_modify, Nat.add_assoc]
    exact ⟨rfl, rfl⟩

theorem bnFromBin_val (bin : Bytes) (h : bin.length ≤ 4 * n) :
    val (bnFromBin bin n) = beNat bin ∧ (bnFromBin bin n).length = n := by
  have hzero := val_zeros n
  obtain ⟨hval, hlen⟩ := @fromBinLoop_val (List.replicate n 0) bin (hzero ▸ Nat.dvd_zero _)
    (by rw [List.length_replicate]; exact h)
  rw [hzero, Nat.zero_add] at hval
  rw [List.length_replicate] at hlen
  exact ⟨hval, hlen⟩

/-! Number of bits. -/

theorem bitWidth_eq (x : UInt32) (b : Nat) (h : x.toNat < 2 ^ b) (hb : b ≤ 32) : bitWidth x b = x.toNat.size := by
  induction b with
  | zero =>
    have hzero : x.toNat = 0 := by omega
    rw [bitWidth, hzero, Nat.size_zero]
  | succ b ih =>
    have hbit : x >>> UInt32.ofNat b &&& 1 = 0 ↔ x.toNat < 2 ^ b := by
      have hval : (x >>> UInt32.ofNat b &&& 1).toNat = x.toNat / 2 ^ b % 2 := by
        rw [UInt32.toNat_and, UInt32.toNat_shiftRight, toNat_ofNat, Nat.mod_eq_of_lt (by omega : b < 2 ^ 32),
          Nat.mod_eq_of_lt (by omega : b < 32), Nat.shiftRight_eq_div_pow]
        exact Nat.and_one_is_mod _
      have hsmall : x.toNat / 2 ^ b < 2 := Nat.div_lt_of_lt_mul (by rw [← Nat.pow_succ]; exact h)
      rw [← UInt32.toNat_inj, hval, UInt32.toNat_zero, Nat.mod_eq_of_lt hsmall, Nat.div_eq_zero_iff]
      have hpos := Nat.two_pow_pos b
      omega
    rw [bitWidth]
    by_cases hx : x.toNat < 2 ^ b
    · rw [if_pos (hbit.2 hx), ih hx (by omega)]
    · rw [if_neg (mt hbit.1 hx)]
      exact le_antisymm (Nat.lt_size.2 (Nat.le_of_not_lt hx)) (Nat.size_le.2 h)

theorem bitCount_eq (l : Bignum) : bitCount l = (val l).size := by
  induction l with
  | nil => rfl
  | cons x l ih =>
    have hx := x.toNat_lt
    rw [bitCount, ih, val_cons]
    by_cases hl : val l = 0
    · rw [if_pos (Nat.size_eq_zero.2 hl), hl, Nat.mul_zero, Nat.add_zero]
      by_cases hz : x = 0
      · rw [if_pos hz, hz]
        rfl
      · rw [if_neg hz, bitWidth_eq x 32 hx le_rfl]
    · rw [if_neg (mt Nat.size_eq_zero.1 hl)]
      obtain ⟨s, hs⟩ := Nat.exists_eq_succ_of_ne_zero (mt Nat.size_eq_zero.1 hl)
      have hlow := Nat.lt_size.1 (hs ▸ Nat.lt_succ_self s)
      have hhigh := Nat.size_le.1 hs.le
      have hpow : 2 ^ (32 + (s + 1)) = 2 ^ 32 * 2 ^ (s + 1) := Nat.pow_add ..
      have hpow' : 2 ^ (32 + s) = 2 ^ 32 * 2 ^ s := Nat.pow_add ..
      rw [hs]
      apply le_antisymm
      · refine Nat.lt_size.2 ?_
        change 2 ^ (32 + s) ≤ _
        rw [hpow']
        omega
      · refine Nat.size_le.2 ?_
        change _ < 2 ^ (32 + (s + 1))
        rw [hpow]
        omega

/-! Products and remainders. -/

theorem bnMul_val (ha : a.length = n) (hb : b.length = n) :
    val (bnMul a b n) = val a * val b ∧ (bnMul a b n).length = 2 * n := by
  have hrows := @mulRows_val (List.replicate n 0) b a (by rw [List.length_replicate, hb])
  rw [ha, List.replicate_append_replicate, ← Nat.two_mul, val_zeros, Nat.zero_add, hb, ← Nat.two_mul] at hrows
  exact hrows

/-- No bit is lost while the shifted number fits its buffer. -/
theorem shiftLoop_val (h : 2 ^ i * val m < (2 ^ 32) ^ m.length) :
    val (shiftLoop m i) = 2 ^ i * val m ∧ (shiftLoop m i).length = m.length := by
  induction i with
  | zero =>
    rw [shiftLoop, Nat.pow_zero, Nat.one_mul]
    exact ⟨rfl, rfl⟩
  | succ i ih =>
    rw [Nat.pow_succ, Nat.mul_comm _ 2, Nat.mul_assoc] at h
    obtain ⟨hval, hlen⟩ := ih (by omega)
    obtain ⟨hshl, hsize⟩ := @shl1_val 0 (shiftLoop m i) (by decide)
    rw [shiftLoop, bnShl1, hsize, hshl, hval, hlen, UInt32.toNat_zero, Nat.add_zero, Nat.mod_eq_of_lt h, Nat.pow_succ,
      Nat.mul_comm _ 2, Nat.mul_assoc]
    exact ⟨rfl, rfl⟩

/-- One subtraction, when there is something to take away. -/
theorem reduce_val (h : a.length = m.length) :
    val (if bnCmp a m ≠ .lt then bnSubInplace a m else a) = (if val a < val m then val a else val a - val m) ∧
      (if bnCmp a m ≠ .lt then bnSubInplace a m else a).length = a.length := by
  by_cases hlt : val a < val m
  · have hcmp : ¬bnCmp a m ≠ .lt := not_not.2 ((cmp_lt h).2 hlt)
    rw [if_neg hcmp, if_pos hlt]
    exact ⟨rfl, rfl⟩
  · have hcmp : bnCmp a m ≠ .lt := mt (cmp_lt h).1 hlt
    rw [if_pos hcmp, if_neg hlt]
    exact sub_of_le h (Nat.le_of_not_lt hlt)

/-- The remainder by a modulus that was shifted `i` times. -/
theorem modLoop_val (h : a.length = m.length) (hm : val m = 2 ^ i * q) (ha : val a < 2 * val m) :
    val (modLoop i a m) = val a % q ∧ (modLoop i a m).length = a.length := by
  induction i generalizing a m with
  | zero =>
    obtain ⟨hval, hlen⟩ := reduce_val h
    rw [Nat.pow_zero, Nat.one_mul] at hm
    rw [modLoop, hval, hlen, hm]
    rw [hm] at ha
    refine ⟨?_, rfl⟩
    split
    · rename_i hlt
      exact (Nat.mod_eq_of_lt hlt).symm
    · rename_i hge
      have hless : val a - q < q := Nat.sub_lt_left_of_lt_add (Nat.le_of_not_lt hge) (Nat.two_mul q ▸ ha)
      rw [Nat.mod_eq_sub_mod (Nat.le_of_not_lt hge), Nat.mod_eq_of_lt hless]
  | succ i ih =>
    obtain ⟨hval, hlen⟩ := reduce_val h
    obtain ⟨hhalf, hbit, hsize⟩ := shr1_val m
    have hm' : val (shr1 m).1 = 2 ^ i * q := by
      rw [Nat.pow_succ, Nat.mul_comm _ 2, Nat.mul_assoc] at hm
      omega
    have hdvd : q ∣ val m := hm ▸ Nat.dvd_mul_left q _
    rw [modLoop]
    obtain ⟨hrest, hlast⟩ := @ih (if bnCmp a m ≠ .lt then bnSubInplace a m else a) (shr1 m).1
      (by rw [hlen, hsize, h]) hm' (by
        rw [hval]
        have heven : 2 ∣ val m := hm ▸ Dvd.dvd.mul_right (dvd_pow_self 2 (Nat.succ_ne_zero i)) q
        split
        · omega
        · omega)
    rw [hrest, hlast, hlen, hval]
    refine ⟨?_, rfl⟩
    split
    · rfl
    · rename_i hge
      obtain ⟨t, ht⟩ := hdvd
      rw [ht] at hge ⊢
      exact Nat.sub_mul_mod (Nat.le_of_not_lt hge)

theorem bmod_small (h : n < 2 ^ 31) : Int.bmod n (2 ^ 32) = n := by
  apply Int.bmod_eq_of_le_mul_two
  · omega
  · omega

theorem bnBitlen_eq (h : 32 * l.length < 2 ^ 31) : bnBitlen l = ((val l).size : Int) := by
  have hlt : val l < 2 ^ (32 * l.length) := by
    rw [Nat.pow_mul]
    exact val_lt l
  have hsize : (val l).size ≤ 32 * l.length := Nat.size_le.2 hlt
  have hcount : bitCount l < 2 ^ 31 := by
    rw [bitCount_eq]
    exact hsize.trans_lt h
  exact (bmod_small hcount).trans (congrArg Nat.cast (bitCount_eq l))

/-- A number is kept in the low half when it is below the modulus. -/
theorem bnMod_small (ha : a.length = 2 * m.length) :
    (bnCmp (a.take m.length) m = .lt ∧ ∀ x ∈ a.drop m.length, x = 0) ↔ val a < val m := by
  have htake : (a.take m.length).length = m.length := by
    rw [List.length_take]
    omega
  have hsplit := val_append (a.take m.length) (a.drop m.length)
  rw [List.take_append_drop, htake] at hsplit
  have hm := val_lt m
  rw [← val_eq_zero, bnCmp, cmp_lt htake, hsplit]
  constructor
  · intro h
    rw [h.2, Nat.mul_zero]
    exact h.1
  · intro h
    have hzero : val (a.drop m.length) = 0 := by
      by_contra hpos
      have hle := Nat.mul_le_mul_left ((2 ^ 32) ^ m.length) (Nat.one_le_iff_ne_zero.2 hpos)
      omega
    rw [hzero, Nat.mul_zero] at h
    exact ⟨h, hzero⟩

theorem take_val (h : l.length = 2 * n) (hlt : val l < (2 ^ 32) ^ n) :
    val (l.take n) = val l ∧ (l.take n).length = n := by
  have htake : (l.take n).length = n := by
    rw [List.length_take]
    omega
  have hsplit := val_append (l.take n) (l.drop n)
  rw [List.take_append_drop, htake] at hsplit
  refine ⟨?_, htake⟩
  have hzero : val (l.drop n) = 0 := by
    by_contra hpos
    have hle := Nat.mul_le_mul_left ((2 ^ 32) ^ n) (Nat.one_le_iff_ne_zero.2 hpos)
    omega
  rw [hsplit, hzero, Nat.mul_zero, Nat.add_zero]

/-- The shift of the modulus to the length of the number. -/
theorem shift_bounds {u v : Nat} (hv : 0 < v) (hle : v ≤ u) :
    u < 2 * (2 ^ (u.size - v.size) * v) ∧ 2 ^ (u.size - v.size) * v < 2 ^ u.size := by
  have hmono := Nat.size_le_size hle
  obtain ⟨s, hs⟩ := Nat.exists_eq_succ_of_ne_zero (mt Nat.size_eq_zero.1 (Nat.ne_of_gt hv))
  have hlow := Nat.lt_size.1 (hs ▸ Nat.lt_succ_self s)
  have hhigh := Nat.lt_size_self v
  have htop := Nat.lt_size_self u
  have hpow : 2 ^ u.size = 2 ^ (u.size - v.size) * 2 ^ v.size := by
    rw [← Nat.pow_add, Nat.sub_add_cancel hmono]
  have hpow' : 2 ^ v.size = 2 * 2 ^ s := by
    rw [hs, Nat.pow_succ, Nat.mul_comm]
  constructor
  · have hmul := Nat.mul_le_mul_left (2 ^ (u.size - v.size)) hlow
    rw [hpow, hpow', ← Nat.mul_assoc, Nat.mul_comm _ 2, Nat.mul_assoc] at htop
    omega
  · rw [hpow]
    exact Nat.mul_lt_mul_of_pos_left hhigh (Nat.two_pow_pos _)

/-- The shifted modulus stays in its buffer. -/
theorem shift_fits (ha : a.length = 2 * m.length) (hm : 0 < val m) (hle : val m ≤ val a)
    (hi : i ≤ (val a).size - (val m).size) :
    val (shiftLoop (m ++ List.replicate m.length 0) i) = 2 ^ i * val m ∧
      (shiftLoop (m ++ List.replicate m.length 0) i).length = 2 * m.length := by
  have hwork : val (m ++ List.replicate m.length 0) = val m := by
    rw [val_append, val_zeros, Nat.mul_zero, Nat.add_zero]
  have hroom : (m ++ List.replicate m.length 0).length = 2 * m.length := by
    rw [List.length_append, List.length_replicate, Nat.two_mul]
  have hlt := val_lt a
  have hfits : 2 ^ (val a).size ≤ (2 ^ 32) ^ (2 * m.length) := by
    rw [ha] at hlt
    rw [← Nat.pow_mul] at hlt ⊢
    exact Nat.pow_le_pow_right (by decide) (Nat.size_le.2 hlt)
  have hpow : 2 ^ i * val m ≤ 2 ^ ((val a).size - (val m).size) * val m :=
    Nat.mul_le_mul_right _ (Nat.pow_le_pow_right (by decide) hi)
  have hshift := @shiftLoop_val (m ++ List.replicate m.length 0) i
    (by rw [hwork, hroom]; exact (hpow.trans_lt (shift_bounds hm hle).2).trans_le hfits)
  rw [hwork, hroom] at hshift
  exact hshift

theorem bnMod_val (ha : a.length = 2 * m.length) (hm : 0 < val m) (hlen : 64 * m.length < 2 ^ 31) :
    ∃ r, bnMod a m = some r ∧ r.length = m.length ∧ val r = val a % val m := by
  have hmlt := val_lt m
  by_cases hsmall : val a < val m
  · obtain ⟨htake, hsize⟩ := take_val ha (hsmall.trans hmlt)
    refine ⟨a.take m.length, if_pos ((bnMod_small ha).2 hsmall), hsize, ?_⟩
    rw [htake, Nat.mod_eq_of_lt hsmall]
  · have hle := Nat.le_of_not_lt hsmall
    have hmono := Nat.size_le_size hle
    have hpos := Nat.size_pos.2 hm
    have habl := @bnBitlen_eq a (by omega)
    have hmbl := @bnBitlen_eq m (by omega)
    obtain ⟨hhigh, -⟩ := shift_bounds hm hle
    rw [bnMod, if_neg (mt (bnMod_small ha).1 hsmall), habl, hmbl, if_neg (by omega)]
    dsimp only
    have hshift : (((val a).size : Int) - ((val m).size : Int)).toNat = (val a).size - (val m).size := by omega
    rw [hshift]
    obtain ⟨hwm, hwlen⟩ := shift_fits ha hm hle le_rfl
    obtain ⟨hval, hsize⟩ := @modLoop_val a (shiftLoop (m ++ List.replicate m.length 0) ((val a).size - (val m).size))
      ((val a).size - (val m).size) (val m) (by rw [ha, hwlen]) hwm (by rw [hwm]; exact hhigh)
    have hrem := Nat.mod_lt (val a) hm
    obtain ⟨htake, hn⟩ := take_val (hsize.trans ha) (by rw [hval]; exact hrem.trans hmlt)
    exact ⟨_, rfl, hn, htake.trans hval⟩

end Lebirun.Tls
