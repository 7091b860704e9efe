import Mathlib
import Lebirun.Tls.Bignum

namespace Lebirun.Tls
open Limbs
set_option autoImplicit true

abbrev LEBTLS_RSA_MAX_BYTES : Nat := 128 * 4

/-- The bits of a byte, from the top down. -/
def byteBits (x : UInt8) : List Bool := [7, 6, 5, 4, 3, 2, 1, 0].map fun b => x >>> b &&& 1 = 1

/-- One turn of the inner loop of `bn_modexp`. -/
def modexpStep (base mod acc : Bignum) (bit : Bool) : Option Bignum :=
  match bnMod (bnMul acc acc mod.length) mod with
  | none => none
  | some acc => if bit then bnMod (bnMul acc base mod.length) mod else some acc

def modexpLoop (base mod : Bignum) : Bignum → List Bool → Option Bignum
  | acc, [] => some acc
  | acc, bit :: bits =>
    match modexpStep base mod acc bit with
    | none => none
    | some acc => modexpLoop base mod acc bits

/-- `bn_modexp`, with whether its four buffers could be allocated -/
def bnModexp (alloc : Bool) (base : Bignum) (exp : Bytes) (mod : Bignum) : Option Bignum :=
  if alloc then modexpLoop base mod ((List.replicate mod.length 0).set 0 1) (exp.flatMap byteBits) else none

/-- `bn_strip` -/
def bnStrip (bin : Bytes) : Option Bytes :=
  if bin.dropWhile (· = 0) = [] then none else some (bin.dropWhile (· = 0))

def limbBytes (x : UInt32) : Bytes := [x.toUInt8, (x >>> 8).toUInt8, (x >>> 16).toUInt8, (x >>> 24).toUInt8]

/-- The output loop of `rsa_pub_op`: the bytes of the limbs from the end of a buffer of zeros to its start. -/
def bnToBin (res : Bignum) (outLen : Nat) : Bytes :=
  ((res.flatMap limbBytes ++ List.replicate outLen 0).take outLen).reverse

/-- `rsa_pub_op`, with whether its own buffers and those of `bn_modexp` could be allocated -/
def rsaPubOp (alloc alloc' : Bool) (nBin eBin input : Bytes) (outLen : Nat) : Option Bytes :=
  match bnStrip nBin, bnStrip eBin with
  | some n, some e =>
    if n.length = 0 ∨ LEBTLS_RSA_MAX_BYTES < n.length ∨ e.length = 0 ∨ 8 < e.length then none
    else if input.length ≠ n.length ∨ outLen ≠ n.length then none
    else if !alloc then none
    else
      let nlimbs := (n.length + 3) / 4
      let mod := bnFromBin n nlimbs
      let base := bnFromBin input nlimbs
      if bnCmp base mod ≠ .lt then none
      else (bnModexp alloc' base e mod).map fun res => bnToBin res outLen
  | _, _ => none

variable {base mod acc r m : Bignum} {bits : List Bool} {k n q : Nat}

/-! Exponents. -/

def bitsNat (k : Nat) (bits : List Bool) : Nat := bits.foldl (fun k bit => 2 * k + if bit then 1 else 0) k

theorem bitsNat_append (k : Nat) (a b : List Bool) : bitsNat k (a ++ b) = bitsNat (bitsNat k a) b := List.foldl_append

theorem bitsNat_byte (k : Nat) (x : UInt8) : bitsNat k (byteBits x) = 256 * k + x.toNat := by
  have hall : ∀ x : Fin 256, bitsNat 0 (byteBits (UInt8.ofFin x)) = x.val := by decide +kernel
  have hzero : bitsNat 0 (byteBits x) = x.toNat := hall x.toFin
  have hlinear : ∀ bits : List Bool, bitsNat k bits = 2 ^ bits.length * k + bitsNat 0 bits := by
    intro bits
    induction bits using List.reverseRecOn with
    | nil => rw [bitsNat, bitsNat, List.foldl_nil, List.foldl_nil, List.length_nil, Nat.pow_zero, Nat.one_mul]; rfl
    | append_singleton bits bit ih =>
      rw [bitsNat_append, bitsNat_append, ih, List.length_append, List.length_singleton, Nat.pow_succ]
      change 2 * (_ + _) + _ = _ + (2 * _ + _)
      ring
  have hlen : (byteBits x).length = 8 := List.length_map _
  rw [hlinear, hzero, hlen]
  norm_num

theorem bitsNat_bytes (k : Nat) (e : Bytes) :
    bitsNat k (e.flatMap byteBits) = k * 256 ^ e.length + beNat e := by
  induction e generalizing k with
  | nil => rw [List.flatMap_nil, List.length_nil, Nat.pow_zero, Nat.mul_one]; rfl
  | cons b e ih =>
    rw [List.flatMap_cons, bitsNat_append, ih, bitsNat_byte, beNat_cons, List.length_cons, Nat.pow_succ]
    ring

/-- A modulus of a size for which the bit lengths fit an `int`. -/
structure Modulus (m : Bignum) : Prop where
  pos : 0 < val m
  size : 64 * m.length < 2 ^ 31

theorem Modulus.mulMod (hm : Modulus m) (ha : a.length = m.length) (hb : b.length = m.length) :
    ∃ r, bnMod (bnMul a b m.length) m = some r ∧ r.length = m.length ∧ val r = val a * val b % val m := by
  obtain ⟨hval, hlen⟩ := bnMul_val ha hb
  obtain ⟨r, hr, hsize, hmod⟩ := bnMod_val hlen hm.pos hm.size
  exact ⟨r, hr, hsize, by rw [hmod, hval]⟩

/-- One bit of the exponent. -/
theorem modexpStep_val (hm : Modulus mod) (hb : base.length = mod.length) (ha : acc.length = mod.length)
    (hacc : val acc % val mod = val base ^ k % val mod) (bit : Bool) :
    ∃ r, modexpStep base mod acc bit = some r ∧ r.length = mod.length ∧
      val r = val base ^ (2 * k + if bit then 1 else 0) % val mod := by
  obtain ⟨sq, hsq, hlen, hval⟩ := hm.mulMod ha ha
  have hpow : val sq = val base ^ (2 * k) % val mod := by
    rw [hval, Nat.two_mul, Nat.pow_add, Nat.mul_mod, hacc, ← Nat.mul_mod]
  cases bit with
  | false =>
    refine ⟨sq, ?_, hlen, ?_⟩
    · rw [modexpStep, hsq]
      exact if_neg Bool.false_ne_true
    · rw [if_neg Bool.false_ne_true, Nat.add_zero]
      exact hpow
  | true =>
    obtain ⟨r, hr, hsize, hmul⟩ := hm.mulMod hlen hb
    refine ⟨r, ?_, hsize, ?_⟩
    · rw [modexpStep, hsq]
      exact (if_pos rfl).trans hr
    · rw [if_pos rfl, hmul, hpow, Nat.mod_mul_mod, Nat.pow_succ]

theorem modexpLoop_val (hm : Modulus mod) (hb : base.length = mod.length) (bits : List Bool)
    (ha : acc.length = mod.length) (hacc : val acc % val mod = val base ^ k % val mod) :
    ∃ r, modexpLoop base mod acc bits = some r ∧ r.length = mod.length ∧
      val r % val mod = val base ^ bitsNat k bits % val mod ∧ (bits ≠ [] ∨ val acc < val mod → val r < val mod) := by
  induction bits generalizing acc k with
  | nil => exact ⟨acc, rfl, ha, hacc, fun h => h.resolve_left fun hne => hne rfl⟩
  | cons bit bits ih =>
    obtain ⟨s, hs, hlen, hval⟩ := modexpStep_val hm hb ha hacc bit
    have hlt : val s < val mod := hval ▸ Nat.mod_lt _ hm.pos
    obtain ⟨r, hr, hsize, hmod, hless⟩ := @ih s (2 * k + if bit then 1 else 0) hlen (by rw [hval, Nat.mod_mod])
    refine ⟨r, ?_, hsize, hmod, fun _ => hless (Or.inr hlt)⟩
    rw [modexpLoop, hs]
    exact hr

theorem one_val (hn : 0 < n) :
    val ((List.replicate n 0).set 0 1) = 1 ∧ ((List.replicate n (0 : UInt32)).set 0 1).length = n := by
  obtain ⟨n, rfl⟩ := Nat.exists_eq_succ_of_ne_zero (Nat.ne_of_gt hn)
  rw [List.replicate_succ, List.set_cons_zero, val_cons, val_zeros, List.length_cons, List.length_replicate]
  exact ⟨rfl, rfl⟩

theorem Modulus.length_pos (hm : Modulus m) : 0 < m.length := by
  obtain _ | ⟨x, l⟩ := m
  · exact absurd hm.pos (Nat.lt_irrefl 0)
  · exact Nat.succ_pos _

theorem bnModexp_val (hm : Modulus mod) (hb : base.length = mod.length) (exp : Bytes)
    (hred : exp ≠ [] ∨ 1 < val mod) :
    ∃ r, bnModexp true base exp mod = some r ∧ r.length = mod.length ∧
      val r = val base ^ beNat exp % val mod := by
  obtain ⟨hone, hlen⟩ := one_val hm.length_pos
  obtain ⟨r, hr, hsize, hmod, hless⟩ := @modexpLoop_val base mod _ 0 hm hb (exp.flatMap byteBits) hlen
    (by rw [hone, Nat.pow_zero])
  have hlt : val r < val mod := by
    apply hless
    obtain hne | h1 := hred
    · left
      obtain _ | ⟨b, exp⟩ := exp
      · exact absurd rfl hne
      · exact List.cons_ne_nil _ _
    · right
      rw [hone]
      exact h1
  rw [bitsNat_bytes, Nat.zero_mul, Nat.zero_add, Nat.mod_eq_of_lt hlt] at hmod
  exact ⟨r, hr, hsize, hmod⟩

/-! Limbs to bytes. -/

def leNat : Bytes → Nat
  | [] => 0
  | b :: l => b.toNat + 256 * leNat l

theorem beNat_reverse (l : Bytes) : beNat l.reverse = leNat l := by
  induction l with
  | nil => rfl
  | cons b l ih =>
    rw [List.reverse_cons, beNat_concat, ih, leNat]
    omega

theorem leNat_append (l l' : Bytes) : leNat (l ++ l') = leNat l + 256 ^ l.length * leNat l' := by
  induction l with
  | nil => rw [List.nil_append, List.length_nil, Nat.pow_zero, Nat.one_mul, leNat, Nat.zero_add]
  | cons b l ih =>
    rw [List.cons_append, leNat, leNat, ih, List.length_cons, Nat.pow_succ]
    ring

theorem leNat_lt (l : Bytes) : leNat l < 256 ^ l.length := by
  have hlt := beNat_lt l.reverse
  rw [beNat_reverse, List.length_reverse] at hlt
  exact hlt

theorem leNat_zeros (n : Nat) : leNat (List.replicate n 0) = 0 := by
  rw [← beNat_reverse, List.reverse_replicate, ← List.append_nil (List.replicate n 0), beNat_zeros]
  rfl

/-- Leading bytes of a small number hold all of it. -/
theorem leNat_take {l : Bytes} (hn : n ≤ l.length) (h : leNat l < 256 ^ n) : leNat (l.take n) = leNat l := by
  have hlen : (l.take n).length = n := by
    rw [List.length_take]
    omega
  have hsplit := leNat_append (l.take n) (l.drop n)
  rw [List.take_append_drop, hlen] at hsplit
  have hzero : leNat (l.drop n) = 0 := by
    by_contra hpos
    have hle := Nat.mul_le_mul_left (256 ^ n) (Nat.one_le_iff_ne_zero.2 hpos)
    omega
  rw [hsplit, hzero, Nat.mul_zero, Nat.add_zero]

theorem leNat_limbBytes (x : UInt32) : leNat (limbBytes x) = x.toNat := by
  have hx := x.toNat_lt
  have hbyte : ∀ y : UInt32, y.toUInt8.toNat = y.toNat % 256 := fun y => UInt32.toNat_toUInt8 y
  have hshift : ∀ k : UInt32, k.toNat < 32 → (x >>> k).toNat = x.toNat / 2 ^ k.toNat := by
    intro k hk
    rw [UInt32.toNat_shiftRight, Nat.mod_eq_of_lt hk, Nat.shiftRight_eq_div_pow]
  have h8 := hshift 8 (by decide)
  have h16 := hshift 16 (by decide)
  have h24 := hshift 24 (by decide)
  rw [limbBytes, leNat, leNat, leNat, leNat, leNat, hbyte, hbyte, hbyte, hbyte, h8, h16, h24]
  change x.toNat % 256 + 256 * (x.toNat / 2 ^ 8 % 256 + 256 * (x.toNat / 2 ^ 16 % 256 +
    256 * (x.toNat / 2 ^ 24 % 256 + 256 * 0))) = x.toNat
  omega

theorem leNat_limbs (l : Bignum) : leNat (l.flatMap limbBytes) = val l ∧ (l.flatMap limbBytes).length = 4 * l.length := by
  induction l with
  | nil => exact ⟨rfl, rfl⟩
  | cons x l ih =>
    have hlen : (limbBytes x).length = 4 := rfl
    rw [List.flatMap_cons, leNat_append, hlen, leNat_limbBytes, ih.1, List.length_append, hlen, ih.2, val_cons,
      List.length_cons]
    exact ⟨by norm_num, by omega⟩

theorem bnToBin_val (h : val r < 256 ^ n) : beNat (bnToBin r n) = val r ∧ (bnToBin r n).length = n := by
  obtain ⟨hval, -⟩ := leNat_limbs r
  have hwhole : leNat (r.flatMap limbBytes ++ List.replicate n 0) = val r := by
    rw [leNat_append, leNat_zeros, Nat.mul_zero, Nat.add_zero, hval]
  have hroom : n ≤ (r.flatMap limbBytes ++ List.replicate n 0).length := by
    rw [List.length_append, List.length_replicate]
    omega
  rw [bnToBin, beNat_reverse, leNat_take hroom (hwhole ▸ h), hwhole, List.length_reverse, List.length_take]
  exact ⟨rfl, Nat.min_eq_left hroom⟩

/-! The public operation. -/

theorem beNat_dropWhile (l : Bytes) : beNat (l.dropWhile (· = 0)) = beNat l := by
  induction l with
  | nil => rfl
  | cons b l ih =>
    rw [List.dropWhile_cons]
    by_cases hb : b = 0
    · rw [if_pos (decide_eq_true hb), ih, hb, beNat_cons]
      exact (Nat.zero_add _).symm.trans (congrArg (· + beNat l) (Nat.zero_mul _).symm)
    · rw [if_neg (by rw [decide_eq_true_eq]; exact hb)]

theorem bnStrip_val {bin s : Bytes} (h : bnStrip bin = some s) : beNat s = beNat bin ∧ s ≠ [] := by
  rw [bnStrip] at h
  by_cases hnil : bin.dropWhile (· = 0) = []
  · rw [if_pos hnil] at h
    cases h
  · rw [if_neg hnil] at h
    cases h
    exact ⟨beNat_dropWhile bin, hnil⟩

/-- The sizes that `rsa_pub_op` takes. -/
structure RsaSizes (nBin eBin input : Bytes) (outLen : Nat) (n e : Bytes) : Prop where
  modulus : bnStrip nBin = some n
  exponent : bnStrip eBin = some e
  modulusLen : n.length ≤ LEBTLS_RSA_MAX_BYTES
  exponentLen : e.length ≤ 8
  inputLen : input.length = n.length
  outputLen : outLen = n.length

theorem rsaPubOp_val {nBin eBin input n e : Bytes} (h : RsaSizes nBin eBin input outLen n e)
    (hin : beNat input < beNat nBin) :
    ∃ out, rsaPubOp true true nBin eBin input outLen = some out ∧ out.length = outLen ∧
      beNat out = beNat input ^ beNat eBin % beNat nBin := by
  obtain ⟨hn, hnne⟩ := bnStrip_val h.modulus
  obtain ⟨he, hene⟩ := bnStrip_val h.exponent
  have hnlen := List.length_pos_iff.2 hnne
  have helen := List.length_pos_iff.2 hene
  have hmax : n.length ≤ 128 * 4 := h.modulusLen
  obtain ⟨hmod, hmodlen⟩ := @bnFromBin_val ((n.length + 3) / 4) n (by omega)
  obtain ⟨hbase, hbaselen⟩ := @bnFromBin_val ((n.length + 3) / 4) input (by rw [h.inputLen]; omega)
  rw [hn] at hmod
  have hm : Modulus (bnFromBin n ((n.length + 3) / 4)) := ⟨by omega, by rw [hmodlen]; omega⟩
  obtain ⟨res, hres, -, hval⟩ := bnModexp_val hm (hbaselen.trans hmodlen.symm) e (Or.inl hene)
  rw [hbase, hmod, he] at hval
  have hlt : val res < 256 ^ outLen := by
    have hrem := Nat.mod_lt (beNat input ^ beNat eBin) (Nat.zero_lt_of_lt hin)
    have hbytes := beNat_lt n
    rw [hn] at hbytes
    rw [hval, h.outputLen]
    exact hrem.trans hbytes
  obtain ⟨hout, houtlen⟩ := bnToBin_val hlt
  have hsmall : ¬bnCmp (bnFromBin input ((n.length + 3) / 4)) (bnFromBin n ((n.length + 3) / 4)) ≠ .lt := by
    rw [not_not, bnCmp, cmp_lt (hbaselen.trans hmodlen.symm), hbase, hmod]
    exact hin
  refine ⟨bnToBin res outLen, ?_, houtlen, hout.trans hval⟩
  have hsizes : ¬(n.length = 0 ∨ LEBTLS_RSA_MAX_BYTES < n.length ∨ e.length = 0 ∨ 8 < e.length) := by
    have hexp := h.exponentLen
    have hmod := h.modulusLen
    omega
  have hlens : ¬(input.length ≠ n.length ∨ outLen ≠ n.length) := by
    have hi := h.inputLen
    have ho := h.outputLen
    omega
  rw [rsaPubOp, h.modulus, h.exponent]
  dsimp only
  rw [if_neg hsizes, if_neg hlens, if_neg (by decide), if_neg hsmall, hres]
  rfl

/-- The arithmetic of `verify.c`, where the bit lengths fit an `int` and the sizes are taken. -/
theorem bignum_exact :
    (∀ a m : Bignum, a.length = 2 * m.length → 0 < val m → 64 * m.length < 2 ^ 31 →
      (∃ r, bnMod a m = some r ∧ r.length = m.length ∧ val r = val a % val m) ∧
      ∀ i, val m ≤ val a → i ≤ (val a).size - (val m).size →
        val (shiftLoop (m ++ List.replicate m.length 0) i) = 2 ^ i * val m) ∧
    (∀ (a b : Bignum) n, a.length = n → b.length = n →
      val (bnMul a b n) = val a * val b ∧ (bnMul a b n).length = 2 * n) ∧
    (∀ (base mod : Bignum) (exp : Bytes), base.length = mod.length → 64 * mod.length < 2 ^ 31 → 1 < val mod →
      val base < val mod →
      ∃ r, bnModexp true base exp mod = some r ∧ r.length = mod.length ∧ val r = val base ^ beNat exp % val mod) ∧
    (∀ (nBin eBin input n e : Bytes) outLen, RsaSizes nBin eBin input outLen n e → beNat input < beNat nBin →
      ∃ out, rsaPubOp true true nBin eBin input outLen = some out ∧ out.length = outLen ∧
        beNat out = beNat input ^ beNat eBin % beNat nBin) := by
  refine ⟨?_, fun a b n ha hb => bnMul_val ha hb, ?_, fun nBin eBin input n e outLen h hin => rsaPubOp_val h hin⟩
  · intro a m ha hm hlen
    exact ⟨bnMod_val ha hm hlen, fun i hle hi => (shift_fits ha hm hle hi).1⟩
  · intro base mod exp hb hlen hone _
    exact bnModexp_val ⟨Nat.zero_lt_of_lt hone, hlen⟩ hb exp (Or.inr hone)

theorem bmod_ends : Int.bmod ((1 : Nat) : Int) (2 ^ 32) = 1 ∧ Int.bmod ((2 ^ 31 : Nat) : Int) (2 ^ 32) = -2 ^ 31 := by
  rw [Int.bmod, Int.bmod]
  norm_num

/-- A number of `2 ^ 31` bits: its length does not fit an `int`. -/
theorem bnMod_overflow (hn : 64 * n = 2 ^ 31) :
    bnMod (List.replicate (2 * n - 1) 0 ++ [0x80000000]) (1 :: List.replicate (n - 1) 0) = none := by
  obtain ⟨a, ha⟩ : ∃ a : Bignum, a = List.replicate (2 * n - 1) 0 ++ [0x80000000] := ⟨_, rfl⟩
  obtain ⟨m, hm⟩ : ∃ m : Bignum, m = 1 :: List.replicate (n - 1) 0 := ⟨_, rfl⟩
  have hmval : val m = 1 := by
    rw [hm, val_cons, val_zeros]
    rfl
  have hmlen : m.length = n := by
    rw [hm, List.length_cons, List.length_replicate]
    omega
  have halen : a.length = 2 * m.length := by
    rw [ha, List.length_append, List.length_replicate, List.length_singleton, hmlen]
    omega
  obtain ⟨k, hk⟩ : ∃ k, 32 * (2 * n - 1) + 31 = k := ⟨_, rfl⟩
  have hbit : k + 1 = 2 ^ 31 := by omega
  have haval : val a = 2 ^ k := by
    have htop : val [0x80000000] = 2 ^ 31 := rfl
    rw [ha, val_append, val_zeros, Nat.zero_add, List.length_replicate, htop, ← Nat.pow_mul, ← Nat.pow_add, hk]
  have hsize : (2 ^ k).size = k + 1 := Nat.size_pow
  have habl : bitCount a = 2 ^ 31 := (bitCount_eq a).trans ((congrArg Nat.size haval).trans (hsize.trans hbit))
  have hmcount : bitCount m = 1 := (bitCount_eq m).trans ((congrArg Nat.size hmval).trans Nat.size_one)
  have hcast : ∀ {l : Bignum} {i : Nat}, bitCount l = i → bnBitlen l = Int.bmod i (2 ^ 32) :=
    fun h => congrArg (fun i : Nat => Int.bmod i (2 ^ 32)) h
  have hmbl : bnBitlen m = 1 := (hcast hmcount).trans bmod_ends.1
  have hbits : bnBitlen a = -2 ^ 31 := (hcast habl).trans bmod_ends.2
  have hlarge : ¬val a < val m := by
    rw [haval, hmval]
    exact Nat.not_lt.2 Nat.one_le_two_pow
  have hshort : bnBitlen m ≤ 0 ∨ bnBitlen a < bnBitlen m := by
    right
    rw [hmbl, hbits]
    norm_num
  rw [← ha, ← hm]
  exact (if_neg (mt (bnMod_small halen).1 hlarge)).trans (if_pos hshort)

/-- A modulus for which `bn_mod` refuses a number that it should reduce. -/
theorem bnMod_refuses :
    ∃ a m : Bignum, a.length = 2 * m.length ∧ 0 < m.length ∧ 0 < val m ∧ bnMod a m = none := by
  obtain ⟨n, hn⟩ : ∃ n, 64 * n = 2 ^ 31 := ⟨33554432, by norm_num⟩
  refine ⟨_, _, ?_, ?_, ?_, bnMod_overflow hn⟩
  · rw [List.length_append, List.length_replicate, List.length_singleton, List.length_cons, List.length_replicate]
    omega
  · exact Nat.succ_pos _
  · rw [val_cons, val_zeros]
    decide

end Lebirun.Tls
