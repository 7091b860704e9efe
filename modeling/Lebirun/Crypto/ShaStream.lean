import Mathlib
import Lebirun.Crypto.Sha

namespace Lebirun.Crypto
open Absorb
set_option autoImplicit true

/-! The functions as the standard has them, on a whole message. -/

def bigEndian (k n : Nat) : Bytes := (List.range k).map fun i => UInt8.ofNat (n / 256 ^ (k - 1 - i))

/-- The message with its end mark, the fewest zeros and its length in bits. -/
def padded (block lengthSize : Nat) (m : Bytes) : Bytes :=
  m ++ (0x80 :: List.replicate ((2 * block - 1 - lengthSize - m.length % block) % block) 0 ++
    bigEndian lengthSize (8 * m.length))

def standardCompress256 (H : List UInt32) (b : Bytes) : List UInt32 :=
  H.zipWith (· + ·) (compress sigmas256 k256 (words256 b) (Work.ofList H)).toList

def bytes32 (x : UInt32) : Bytes := [(x >>> 24).toUInt8, (x >>> 16).toUInt8, (x >>> 8).toUInt8, x.toUInt8]

def standard256 (m : Bytes) : Bytes := (absorb 64 standardCompress256 init256 (padded 64 8 m)).flatMap bytes32

def standard512 (H : List UInt64) (m : Bytes) : Bytes :=
  (absorb 128 sha512Transform H (padded 128 16 m)).flatMap bytes64

variable {L : Type} {p : Sha L} {s₀ : List UInt64} {c₀ : L} {ctx : ShaCtx L} {m : Bytes} {i k n : Nat}

/-! A context on the way. -/

/-- The context after the message `m`. -/
structure Represents (p : Sha L) (s₀ : List UInt64) (c₀ : L) (ctx : ShaCtx L) (m : Bytes) : Prop where
  length : ctx.data.length = p.block
  datalen : ctx.datalen = m.length % p.block
  data : ctx.data.take ctx.datalen = rest p.block m
  state : ctx.state = absorb p.block p.transform s₀ m
  bitlen : ctx.bitlen = p.count^[m.length / p.block] c₀

theorem take_set (l : Bytes) (x : UInt8) (h : i < l.length) : (l.set i x).take (i + 1) = l.take i ++ [x] := by
  rw [List.take_add_one, List.take_set_of_le le_rfl, List.getElem?_set_self h]
  rfl

theorem Represents.updateByte (h : Represents p s₀ c₀ ctx m) (hblock : 0 < p.block) (x : UInt8) :
    Represents p s₀ c₀ (p.updateByte ctx x) (m ++ [x]) := by
  have hlt : ctx.datalen < p.block := h.datalen ▸ Nat.mod_lt _ hblock
  have htake := take_set ctx.data x (h.length.symm ▸ hlt)
  rw [h.data] at htake
  have hrest : (rest p.block m).length = ctx.datalen := by rw [length_rest, h.datalen]
  have hsplit := Nat.div_add_mod m.length p.block
  have habsorb := absorb_append (f := p.transform) hblock s₀ m [x]
  have hleft := rest_append hblock m [x]
  rw [← h.state] at habsorb
  rw [Sha.updateByte]
  by_cases hfull : ctx.datalen + 1 = p.block
  · have hlen : (rest p.block m ++ [x]).length = p.block := by
      rw [List.length_append, List.length_singleton, hrest, hfull]
    have hmul : (m ++ [x]).length = p.block * (m.length / p.block + 1) := by
      rw [List.length_append, List.length_singleton, Nat.mul_succ]
      have hd := h.datalen
      omega
    have hblk := absorb_block (f := p.transform) (s := ctx.state) hblock hlen
    have hdata : ctx.data.set ctx.datalen x = rest p.block m ++ [x] := by
      rw [← htake, List.take_of_length_le (by rw [List.length_set, h.length, hfull])]
    rw [if_pos hfull]
    refine ⟨by rw [List.length_set, h.length], ?_, ?_, ?_, ?_⟩
    · rw [hmul, Nat.mul_mod_right]
    · rw [hleft, hblk.2, List.take_zero]
    · rw [habsorb, hblk.1, hdata]
    · rw [hmul, Nat.mul_div_cancel_left _ hblock, Function.iterate_succ_apply', ← h.bitlen]
  · have hlen : (rest p.block m ++ [x]).length < p.block := by
      rw [List.length_append, List.length_singleton, hrest]
      omega
    have hadd : (m ++ [x]).length = ctx.datalen + 1 + p.block * (m.length / p.block) := by
      rw [List.length_append, List.length_singleton]
      have hd := h.datalen
      omega
    have hshort := absorb_short (f := p.transform) (s := ctx.state) hlen
    have hsmall : ctx.datalen + 1 < p.block := by omega
    rw [if_neg hfull]
    refine ⟨by rw [List.length_set, h.length], ?_, ?_, ?_, ?_⟩
    · rw [hadd, Nat.add_mul_mod_self_left, Nat.mod_eq_of_lt hsmall]
    · rw [hleft, hshort.2, htake]
    · rw [habsorb, hshort.1]
    · rw [hadd, Nat.add_mul_div_left _ _ hblock, Nat.div_eq_of_lt hsmall, Nat.zero_add, ← h.bitlen]

theorem Represents.update (h : Represents p s₀ c₀ ctx m) (hblock : 0 < p.block) (data : Bytes) :
    Represents p s₀ c₀ (p.update ctx data) (m ++ data) := by
  induction data generalizing ctx m with
  | nil =>
    rw [List.append_nil]
    exact h
  | cons x data ih =>
    have hstep := ih (h.updateByte hblock x)
    rw [List.append_assoc, List.singleton_append] at hstep
    exact hstep

theorem represents_init (data : Bytes) (hdata : data.length = p.block) (s₀ : List UInt64) (c₀ : L) :
    Represents p s₀ c₀ ⟨data, 0, c₀, s₀⟩ [] := by
  refine ⟨hdata, (Nat.zero_mod _).symm, (List.drop_nil).symm, ?_, ?_⟩
  · rw [absorb, List.length_nil, Nat.zero_div]
    rfl
  · rw [List.length_nil, Nat.zero_div]
    rfl

theorem Represents.updates (h : Represents p s₀ c₀ ctx m) (hblock : 0 < p.block) (chunks : List Bytes) :
    Represents p s₀ c₀ (chunks.foldl p.update ctx) (m ++ chunks.flatten) := by
  induction chunks generalizing ctx m with
  | nil =>
    rw [List.flatten_nil, List.append_nil]
    exact h
  | cons data chunks ih =>
    have hstep := ih (h.update hblock data)
    rw [List.append_assoc] at hstep
    exact hstep

/-! The end of a message. -/

theorem fillZeros_eq (data : Bytes) (i k : Nat) (h : i + k ≤ data.length) :
    fillZeros data i k = data.take i ++ List.replicate k 0 ++ data.drop (i + k) := by
  induction k generalizing data i with
  | zero => rw [fillZeros, List.replicate_zero, List.append_nil, Nat.add_zero, List.take_append_drop]
  | succ k ih =>
    rw [fillZeros, ih _ _ (by rw [List.length_set]; omega), take_set data 0 (by omega), List.drop_set_of_lt (by omega),
      List.replicate_succ, Nat.add_right_comm, Nat.add_assoc i k 1, List.append_assoc (data.take i), List.singleton_append]

/-- The last one or two blocks. -/
theorem Represents.finalState (h : Represents p s₀ c₀ ctx m) (hlength : p.lengthAt < p.block)
    (hbytes : (p.lengthBytes ctx.bitlen ctx.datalen).length = p.block - p.lengthAt) :
    p.finalState ctx = absorb p.block p.transform s₀ (m ++ (0x80 :: List.replicate
      ((2 * p.block - 1 - (p.block - p.lengthAt) - m.length % p.block) % p.block) 0 ++
        p.lengthBytes ctx.bitlen ctx.datalen)) := by
  have hblock : 0 < p.block := Nat.zero_lt_of_lt hlength
  have hlt : ctx.datalen < p.block := h.datalen ▸ Nat.mod_lt _ hblock
  have hmark := take_set ctx.data 0x80 (h.length.symm ▸ hlt)
  have hrest : (rest p.block m).length = ctx.datalen := by rw [length_rest, h.datalen]
  have hset : (ctx.data.set ctx.datalen 0x80).length = p.block := by rw [List.length_set, h.length]
  rw [h.data] at hmark
  rw [absorb_append hblock, ← h.state, ← h.datalen, Sha.finalState]
  dsimp only
  generalize p.lengthBytes ctx.bitlen ctx.datalen = b at hbytes ⊢
  by_cases hroom : ctx.datalen < p.lengthAt
  · have hcount : (2 * p.block - 1 - (p.block - p.lengthAt) - ctx.datalen) % p.block =
        p.lengthAt - (ctx.datalen + 1) := by
      have hsum : 2 * p.block - 1 - (p.block - p.lengthAt) - ctx.datalen = p.lengthAt - (ctx.datalen + 1) + p.block := by
        omega
      rw [hsum, Nat.add_mod_right, Nat.mod_eq_of_lt (by omega)]
    have htake : (fillZeros (ctx.data.set ctx.datalen 0x80) (ctx.datalen + 1) (p.lengthAt - (ctx.datalen + 1))).take
        p.lengthAt = rest p.block m ++ [0x80] ++ List.replicate (p.lengthAt - (ctx.datalen + 1)) 0 := by
      rw [fillZeros_eq _ _ _ (by omega), hmark]
      apply List.take_left'
      rw [List.length_append, List.length_append, hrest, List.length_replicate, List.length_singleton]
      omega
    have hlen : (rest p.block m ++ (0x80 :: List.replicate (p.lengthAt - (ctx.datalen + 1)) 0 ++ b)).length =
        p.block := by
      rw [List.length_append, List.length_append, List.length_cons, List.length_replicate, hrest, hbytes]
      omega
    rw [if_pos hroom, hcount, htake, (absorb_block hblock hlen).1, List.append_assoc, List.append_assoc]
    rfl
  · have hcount : (2 * p.block - 1 - (p.block - p.lengthAt) - ctx.datalen) % p.block =
        p.block - (ctx.datalen + 1) + p.lengthAt := by
      rw [Nat.mod_eq_of_lt (by omega)]
      omega
    have hfirst : fillZeros (ctx.data.set ctx.datalen 0x80) (ctx.datalen + 1) (p.block - (ctx.datalen + 1)) =
        rest p.block m ++ [0x80] ++ List.replicate (p.block - (ctx.datalen + 1)) 0 := by
      rw [fillZeros_eq _ _ _ (by omega), hmark, List.drop_of_length_le (by omega), List.append_nil]
    have hlen : (rest p.block m ++ [0x80] ++ List.replicate (p.block - (ctx.datalen + 1)) (0 : UInt8)).length =
        p.block := by
      rw [List.length_append, List.length_append, List.length_replicate, List.length_singleton, hrest]
      omega
    have hsecond : (List.replicate p.lengthAt 0 ++ b).length = p.block := by
      rw [List.length_append, List.length_replicate, hbytes]
      omega
    obtain ⟨habsorb, hempty⟩ := absorb_block (f := p.transform) (s := ctx.state) hblock hlen
    have htake : (fillZeros (rest p.block m ++ [0x80] ++ List.replicate (p.block - (ctx.datalen + 1)) 0) 0 p.lengthAt).take
        p.lengthAt = List.replicate p.lengthAt 0 := by
      rw [fillZeros_eq _ _ _ (by omega), List.take_zero, List.nil_append]
      exact List.take_left' List.length_replicate
    have hsplit : rest p.block m ++ (0x80 :: List.replicate (p.block - (ctx.datalen + 1) + p.lengthAt) 0 ++ b) =
        (rest p.block m ++ [0x80] ++ List.replicate (p.block - (ctx.datalen + 1)) 0) ++
          (List.replicate p.lengthAt 0 ++ b) := by
      rw [← List.replicate_append_replicate]
      simp only [List.append_assoc, List.cons_append, List.nil_append]
    rw [if_neg hroom, hcount, hfirst, htake, hsplit, absorb_append hblock, habsorb, hempty, List.nil_append,
      (absorb_block hblock hsecond).1]

/-! The length in bits. -/

theorem bigEndian_length (k n : Nat) : (bigEndian k n).length = k := by
  rw [bigEndian, List.length_map, List.length_range]

theorem toUInt8_shift (x : UInt64) (j : Nat) (hj : j < 8) :
    (x >>> UInt64.ofNat (8 * j)).toUInt8 = UInt8.ofNat (x.toNat / 256 ^ j) := by
  have hpow : (256 : Nat) ^ j = 2 ^ (8 * j) := by
    rw [pow_mul]
    norm_num
  have hamount : (UInt64.ofNat (8 * j)).toNat = 8 * j := by
    rw [UInt64.toNat_ofNat']
    exact Nat.mod_eq_of_lt (by omega)
  apply UInt8.toNat_inj.1
  rw [UInt64.toNat_toUInt8, UInt64.toNat_shiftRight, hamount, Nat.mod_eq_of_lt (by omega : 8 * j < 64),
    Nat.shiftRight_eq_div_pow, ← hpow, UInt8.toNat_ofNat']

theorem bytes64_eq (x : UInt64) : bytes64 x = bigEndian 8 x.toNat := by
  have h0 : x.toUInt8 = UInt8.ofNat (x.toNat / 256 ^ 0) := by
    rw [pow_zero, Nat.div_one]
    apply UInt8.toNat_inj.1
    rw [UInt64.toNat_toUInt8, UInt8.toNat_ofNat']
  have h1 : (x >>> 8).toUInt8 = UInt8.ofNat (x.toNat / 256 ^ 1) := toUInt8_shift x 1 (by decide)
  have h2 : (x >>> 16).toUInt8 = UInt8.ofNat (x.toNat / 256 ^ 2) := toUInt8_shift x 2 (by decide)
  have h3 : (x >>> 24).toUInt8 = UInt8.ofNat (x.toNat / 256 ^ 3) := toUInt8_shift x 3 (by decide)
  have h4 : (x >>> 32).toUInt8 = UInt8.ofNat (x.toNat / 256 ^ 4) := toUInt8_shift x 4 (by decide)
  have h5 : (x >>> 40).toUInt8 = UInt8.ofNat (x.toNat / 256 ^ 5) := toUInt8_shift x 5 (by decide)
  have h6 : (x >>> 48).toUInt8 = UInt8.ofNat (x.toNat / 256 ^ 6) := toUInt8_shift x 6 (by decide)
  have h7 : (x >>> 56).toUInt8 = UInt8.ofNat (x.toNat / 256 ^ 7) := toUInt8_shift x 7 (by decide)
  rw [bytes64, h7, h6, h5, h4, h3, h2, h1, h0]
  rfl

/-- Only the low bits of the length are written. -/
theorem bigEndian_mod (k n : Nat) : bigEndian k (n % 256 ^ k) = bigEndian k n := by
  apply List.map_congr_left
  intro i hi
  have hi' := List.mem_range.1 hi
  have hsplit : (256 : Nat) ^ k = 256 ^ (k - 1 - i) * 256 ^ (i + 1) := by
    rw [← pow_add]
    congr 1
    omega
  apply UInt8.toNat_inj.1
  rw [UInt8.toNat_ofNat', UInt8.toNat_ofNat', hsplit, Nat.mod_mul_right_div_self, pow_succ]
  exact Nat.mod_mul_left_mod _ _ _

theorem bigEndian_append (j k n : Nat) : bigEndian (j + k) n = bigEndian j (n / 256 ^ k) ++ bigEndian k n := by
  rw [bigEndian, List.range_add, List.map_append, List.map_map]
  congr 1
  · apply List.map_congr_left
    intro i hi
    have hi' := List.mem_range.1 hi
    have hexp : j + k - 1 - i = k + (j - 1 - i) := by omega
    rw [hexp, pow_add, Nat.div_div_eq_div_mul]
  · apply List.map_congr_left
    intro i hi
    have hexp : j + k - 1 - (j + i) = k - 1 - i := by omega
    rw [Function.comp_apply, hexp]

theorem bytes64_ofNat (n : Nat) : bytes64 (UInt64.ofNat n) = bigEndian 8 n := by
  have hpow : (2 : Nat) ^ 64 = 256 ^ 8 := by norm_num
  rw [bytes64_eq, UInt64.toNat_ofNat', hpow, bigEndian_mod]

/-- The pair of words holds a number of 128 bits. -/
def pairOf (n : Nat) : UInt64 × UInt64 := (UInt64.ofNat n, UInt64.ofNat (n / 2 ^ 64))

/-- A carry shows when the sum is below either of its terms. -/
theorem carry_iff (n d : Nat) (hd : d < 2 ^ 64) :
    (UInt64.ofNat n + UInt64.ofNat d < UInt64.ofNat n ↔ 2 ^ 64 ≤ n % 2 ^ 64 + d) ∧
      (UInt64.ofNat n + UInt64.ofNat d < UInt64.ofNat d ↔ 2 ^ 64 ≤ n % 2 ^ 64 + d) := by
  have hn := Nat.mod_lt n (by decide : 0 < 2 ^ 64)
  rw [UInt64.lt_iff_toNat_lt, UInt64.lt_iff_toNat_lt, UInt64.toNat_add, UInt64.toNat_ofNat', UInt64.toNat_ofNat',
    Nat.mod_eq_of_lt hd]
  omega

theorem pairOf_add (n d : Nat) (hd : d < 2 ^ 64) :
    pairOf (n + d) = (UInt64.ofNat n + UInt64.ofNat d,
      if 2 ^ 64 ≤ n % 2 ^ 64 + d then UInt64.ofNat (n / 2 ^ 64) + 1 else UInt64.ofNat (n / 2 ^ 64)) := by
  have hone : UInt64.ofNat (n / 2 ^ 64) + 1 = UInt64.ofNat (n / 2 ^ 64 + 1) := (UInt64.ofNat_add _ 1).symm
  rw [pairOf, UInt64.ofNat_add, hone]
  congr 1
  split
  · congr 1
    omega
  · congr 1
    omega

theorem sha512_count_eq (b : UInt64 × UInt64) :
    sha512.count b = (b.1 + UInt64.ofNat 1024,
      if b.1 + UInt64.ofNat 1024 < UInt64.ofNat 1024 then b.2 + 1 else b.2) := rfl

theorem sha512_lengthBytes_eq (b : UInt64 × UInt64) (n : Nat) :
    sha512.lengthBytes b n = bytes64 (if b.1 + UInt64.ofNat n * 8 < b.1 then b.2 + 1 else b.2) ++
      bytes64 (b.1 + UInt64.ofNat n * 8) := rfl

theorem sha512_count_iterate (k : Nat) : sha512.count^[k] (0, 0) = pairOf (1024 * k) := by
  induction k with
  | zero => rfl
  | succ k ih =>
    obtain ⟨-, hcarry⟩ := carry_iff (1024 * k) 1024 (by decide)
    rw [Function.iterate_succ_apply', ih, Nat.mul_succ, pairOf_add _ _ (by decide), sha512_count_eq, pairOf,
      if_congr hcarry rfl rfl]

theorem sha512_length (m : Bytes) :
    sha512.lengthBytes (sha512.count^[m.length / 128] (0, 0)) (m.length % 128) = bigEndian 16 (8 * m.length) := by
  obtain ⟨hcarry, -⟩ := carry_iff (1024 * (m.length / 128)) (m.length % 128 * 8) (by omega)
  have hsum : 1024 * (m.length / 128) + m.length % 128 * 8 = 8 * m.length := by omega
  have hpair := pairOf_add (1024 * (m.length / 128)) (m.length % 128 * 8) (by omega)
  rw [hsum] at hpair
  obtain ⟨hlo, hhi⟩ := Prod.mk.inj hpair
  have hmul : UInt64.ofNat (m.length % 128) * 8 = UInt64.ofNat (m.length % 128 * 8) := (UInt64.ofNat_mul _ 8).symm
  have hpow : (256 : Nat) ^ 8 = 2 ^ 64 := by norm_num
  rw [sha512_count_iterate, bigEndian_append 8 8, hpow, ← bytes64_ofNat, ← bytes64_ofNat, hlo, hhi,
    sha512_lengthBytes_eq, pairOf, hmul]
  congr 2
  exact if_congr hcarry rfl rfl

theorem sha256_count (k : Nat) : sha256.count^[k] 0 = UInt64.ofNat (512 * k) := by
  induction k with
  | zero => rfl
  | succ k ih =>
    rw [Function.iterate_succ_apply', ih, Nat.mul_succ, UInt64.ofNat_add]
    rfl

theorem sha256_length (m : Bytes) :
    sha256.lengthBytes (sha256.count^[m.length / 64] 0) (m.length % 64) = bigEndian 8 (8 * m.length) := by
  have hsum : 512 * (m.length / 64) + m.length % 64 * 8 = 8 * m.length := by omega
  rw [sha256_count, ← hsum, ← bytes64_ofNat, UInt64.ofNat_add]
  rfl

/-! The words of 64 bits that hold the state of SHA-256. -/

theorem low_add (s : UInt64) (x : UInt32) : (s + x.toUInt64).toUInt32 = s.toUInt32 + x := by
  rw [UInt64.toUInt32_add, UInt32.toUInt32_toUInt64]

def lowHalves (s : List UInt64) : List UInt32 := s.map (·.toUInt32)

/-- What the state holds above 32 bits is never read. -/
theorem sha256Transform_low (s : List UInt64) (b : Bytes) :
    lowHalves (sha256Transform s b) = standardCompress256 (lowHalves s) b := by
  rw [sha256Transform, standardCompress256, lowHalves, lowHalves]
  generalize (compress sigmas256 k256 (words256 b) (Work.ofList (s.map (·.toUInt32)))).toList = v
  rw [List.map_zipWith, List.zipWith_map_left]
  congr 1
  funext s x
  exact low_add s x

theorem bytesLow_eq (x : UInt64) : bytesLow x = bytes32 x.toUInt32 := by
  have hmask : ∀ y : UInt64, (y &&& 0xff).toUInt8 = y.toUInt8 := by
    intro y
    apply UInt8.toNat_inj.1
    rw [UInt64.toNat_toUInt8, UInt64.toNat_toUInt8, UInt64.toNat_and]
    exact (congrArg (· % 2 ^ 8) (Nat.and_two_pow_sub_one_eq_mod y.toNat 8)).trans (Nat.mod_mod _ _)
  have hshift : ∀ j, j < 4 → (x >>> UInt64.ofNat (8 * j)).toUInt8 = (x.toUInt32 >>> UInt32.ofNat (8 * j)).toUInt8 := by
    intro j hj
    have hamount : (UInt32.ofNat (8 * j)).toNat = 8 * j := by
      rw [UInt32.toNat_ofNat']
      exact Nat.mod_eq_of_lt (by omega)
    have hpow : (256 : Nat) ^ j = 2 ^ (8 * j) := by
      rw [pow_mul]
      norm_num
    have hsplit : (2 : Nat) ^ 32 = 256 ^ j * 256 ^ (4 - j) := by
      rw [← pow_add, Nat.add_sub_cancel' hj.le]
      norm_num
    have hdvd : 2 ^ 8 ∣ 256 ^ (4 - j) := dvd_pow (by decide : 2 ^ 8 ∣ 256) (by omega)
    rw [toUInt8_shift x j (by omega)]
    apply UInt8.toNat_inj.1
    rw [UInt8.toNat_ofNat', UInt32.toNat_toUInt8, UInt32.toNat_shiftRight, hamount, Nat.mod_eq_of_lt (by omega : 8 * j < 32),
      Nat.shiftRight_eq_div_pow, UInt64.toNat_toUInt32, hsplit, ← hpow, Nat.mod_mul_right_div_self,
      Nat.mod_mod_of_dvd _ hdvd]
  have h0 : (x >>> 0).toUInt8 = (x.toUInt32 >>> 0).toUInt8 := hshift 0 (by decide)
  have h1 : (x >>> 8).toUInt8 = (x.toUInt32 >>> 8).toUInt8 := hshift 1 (by decide)
  have h2 : (x >>> 16).toUInt8 = (x.toUInt32 >>> 16).toUInt8 := hshift 2 (by decide)
  have h3 : (x >>> 24).toUInt8 = (x.toUInt32 >>> 24).toUInt8 := hshift 3 (by decide)
  rw [UInt64.shiftRight_zero, UInt32.shiftRight_zero] at h0
  rw [bytesLow, bytes32, hmask, hmask, hmask, hmask, h0, h1, h2, h3]

theorem init256_low : lowHalves (init256.map (·.toUInt64)) = init256 := by decide

theorem sha256Final_updates (data : Bytes) (hdata : data.length = 64) (chunks : List Bytes) :
    sha256Final (chunks.foldl sha256.update (sha256Init data)) = standard256 chunks.flatten := by
  have h : Represents sha256 (init256.map (·.toUInt64)) 0 (chunks.foldl sha256.update (sha256Init data))
      chunks.flatten := (represents_init data hdata _ _).updates (by decide) chunks
  have hlength : sha256.lengthBytes (chunks.foldl sha256.update (sha256Init data)).bitlen
      (chunks.foldl sha256.update (sha256Init data)).datalen = bigEndian 8 (8 * chunks.flatten.length) := by
    rw [h.bitlen, h.datalen]
    exact sha256_length _
  have hfinal := h.finalState (by decide) (by rw [hlength, bigEndian_length]; rfl)
  have hmap : lowHalves (absorb 64 sha256Transform (init256.map (·.toUInt64)) (padded 64 8 chunks.flatten)) =
      absorb 64 standardCompress256 init256 (padded 64 8 chunks.flatten) := by
    rw [absorb_map sha256Transform_low, init256_low]
  have hbytes : bytesLow = bytes32 ∘ fun x : UInt64 => x.toUInt32 := funext bytesLow_eq
  rw [hlength] at hfinal
  rw [sha256Final, hfinal, standard256, ← hmap, lowHalves, List.flatMap_map, hbytes]
  rfl

theorem sha512_state (data : Bytes) (hdata : data.length = 128) (s₀ : List UInt64) (chunks : List Bytes) :
    sha512.finalState (chunks.foldl sha512.update ⟨data, 0, (0, 0), s₀⟩) =
      absorb 128 sha512Transform s₀ (padded 128 16 chunks.flatten) := by
  have h : Represents sha512 s₀ (0, 0) (chunks.foldl sha512.update ⟨data, 0, (0, 0), s₀⟩) chunks.flatten :=
    (represents_init data hdata _ _).updates (by decide) chunks
  have hlength : sha512.lengthBytes (chunks.foldl sha512.update ⟨data, 0, (0, 0), s₀⟩).bitlen
      (chunks.foldl sha512.update ⟨data, 0, (0, 0), s₀⟩).datalen = bigEndian 16 (8 * chunks.flatten.length) := by
    rw [h.bitlen, h.datalen]
    exact sha512_length _
  have hfinal := h.finalState (by decide) (by rw [hlength, bigEndian_length]; rfl)
  rw [hlength] at hfinal
  exact hfinal

theorem sha512Final_updates (data : Bytes) (hdata : data.length = 128) (chunks : List Bytes) :
    sha512Final (chunks.foldl sha512.update (sha512Init data)) = standard512 init512 chunks.flatten := by
  rw [sha512Final, sha512Init, sha512_state data hdata, standard512]

theorem sha384Final_updates (data : Bytes) (hdata : data.length = 128) (chunks : List Bytes) :
    sha384Final (chunks.foldl sha512.update (sha384Init data)) = (standard512 init384 chunks.flatten).take 48 := by
  rw [sha384Final, sha512Final, sha384Init, sha512_state data hdata, standard512]

theorem absorb_length {f : List W → Bytes → List W} (hf : ∀ s b, s.length = 8 → (f s b).length = 8) (H : List W)
    (hH : H.length = 8) (block : Nat) (m : Bytes) : (absorb block f H m).length = 8 := by
  have hrun : ∀ n (s : List W) (m : Bytes), s.length = 8 → (blocks block f n s m).length = 8 := by
    intro n
    induction n with
    | zero => exact fun s m h => h
    | succ n ih => exact fun s m h => ih _ _ (hf s _ h)
  exact hrun _ H m hH

theorem standard256_length (m : Bytes) : (standard256 m).length = 32 := by
  have hstate : (absorb 64 standardCompress256 init256 (padded 64 8 m)).length = 8 := by
    apply absorb_length
    · intro s b hs
      rw [standardCompress256, List.length_zipWith, hs]
      rfl
    · rfl
  have hbytes : ∀ l : List UInt32, (l.flatMap bytes32).length = 4 * l.length := by
    intro l
    induction l with
    | nil => rfl
    | cons x l ih => rw [List.flatMap_cons, List.length_append, ih, List.length_cons, bytes32]; exact Nat.add_comm _ _
  rw [standard256, hbytes, hstate]

/-- A message that comes in any pieces has the hash that the standard gives the whole of it, whatever the buffer of the
context held at first. -/
theorem sha_stream (chunks : List Bytes) :
    (∀ data : Bytes, data.length = 64 →
      sha256Final (chunks.foldl sha256.update (sha256Init data)) = standard256 chunks.flatten) ∧
    (∀ data : Bytes, data.length = 128 →
      sha512Final (chunks.foldl sha512.update (sha512Init data)) = standard512 init512 chunks.flatten ∧
      sha384Final (chunks.foldl sha512.update (sha384Init data)) = (standard512 init384 chunks.flatten).take 48) := by
  constructor
  · intro data hdata
    exact sha256Final_updates data hdata chunks
  · intro data hdata
    exact ⟨sha512Final_updates data hdata chunks, sha384Final_updates data hdata chunks⟩

end Lebirun.Crypto
