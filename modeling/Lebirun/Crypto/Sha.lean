import Mathlib.Data.Nat.ModEq
import Lebirun.Lib.Absorb

namespace Lebirun.Crypto
open Absorb
set_option autoImplicit true

abbrev Bytes := List UInt8

/-! The compression functions, over words of either size. -/

/-- `a` to `h` -/
structure Work (W : Type) where
  a : W
  b : W
  c : W
  d : W
  e : W
  f : W
  g : W
  h : W

/-- `EP0`, `EP1`, `SIG0` and `SIG1` -/
structure Sigmas (W : Type) where
  ep0 : W → W
  ep1 : W → W
  sig0 : W → W
  sig1 : W → W

section Compress

variable [Add W] [AndOp W] [XorOp W] [Complement W] [OfNat W 0]

/-- `CH` -/
def ch (x y z : W) : W := x &&& y ^^^ ~~~x &&& z

/-- `MAJ` -/
def maj (x y z : W) : W := x &&& y ^^^ x &&& z ^^^ y &&& z

/-- The loop that fills `w` from its first 16 words. -/
def extend (σ : Sigmas W) : Nat → List W → List W
  | 0, w => w
  | k + 1, w =>
    let i := w.length
    extend σ k (w ++ [σ.sig1 (w.getD (i - 2) 0) + w.getD (i - 7) 0 + σ.sig0 (w.getD (i - 15) 0) + w.getD (i - 16) 0])

/-- One turn of the last loop. -/
def turn (σ : Sigmas W) (v : Work W) (k w : W) : Work W :=
  let t1 := v.h + σ.ep1 v.e + ch v.e v.f v.g + k + w
  let t2 := σ.ep0 v.a + maj v.a v.b v.c
  ⟨t1 + t2, v.a, v.b, v.c, v.d + t1, v.e, v.f, v.g⟩

def Work.ofList (l : List W) : Work W :=
  ⟨l.getD 0 0, l.getD 1 0, l.getD 2 0, l.getD 3 0, l.getD 4 0, l.getD 5 0, l.getD 6 0, l.getD 7 0⟩

def Work.toList (v : Work W) : List W := [v.a, v.b, v.c, v.d, v.e, v.f, v.g, v.h]

/-- The working variables after a block, with one turn for each of the constants `K`. -/
def compress (σ : Sigmas W) (K w : List W) (v : Work W) : Work W :=
  (K.zip (extend σ (K.length - 16) w)).foldl (fun v kw => turn σ v kw.1 kw.2) v

end Compress

def rotr32 (x n : UInt32) : UInt32 := x >>> n ||| x <<< (32 - n)

def rotr64 (x n : UInt64) : UInt64 := x >>> n ||| x <<< (64 - n)

def sigmas256 : Sigmas UInt32 where
  ep0 x := rotr32 x 2 ^^^ rotr32 x 13 ^^^ rotr32 x 22
  ep1 x := rotr32 x 6 ^^^ rotr32 x 11 ^^^ rotr32 x 25
  sig0 x := rotr32 x 7 ^^^ rotr32 x 18 ^^^ x >>> 3
  sig1 x := rotr32 x 17 ^^^ rotr32 x 19 ^^^ x >>> 10

def sigmas512 : Sigmas UInt64 where
  ep0 x := rotr64 x 28 ^^^ rotr64 x 34 ^^^ rotr64 x 39
  ep1 x := rotr64 x 14 ^^^ rotr64 x 18 ^^^ rotr64 x 41
  sig0 x := rotr64 x 1 ^^^ rotr64 x 8 ^^^ x >>> 7
  sig1 x := rotr64 x 19 ^^^ rotr64 x 61 ^^^ x >>> 6

/-- `K` of `sha256.c` -/
def k256 : List UInt32 :=
  [0x428a2f98, 0x71374491, 0xb5c0fbcf, 0xe9b5dba5, 0x3956c25b, 0x59f111f1, 0x923f82a4, 0xab1c5ed5,
    0xd807aa98, 0x12835b01, 0x243185be, 0x550c7dc3, 0x72be5d74, 0x80deb1fe, 0x9bdc06a7, 0xc19bf174,
    0xe49b69c1, 0xefbe4786, 0x0fc19dc6, 0x240ca1cc, 0x2de92c6f, 0x4a7484aa, 0x5cb0a9dc, 0x76f988da,
    0x983e5152, 0xa831c66d, 0xb00327c8, 0xbf597fc7, 0xc6e00bf3, 0xd5a79147, 0x06ca6351, 0x14292967,
    0x27b70a85, 0x2e1b2138, 0x4d2c6dfc, 0x53380d13, 0x650a7354, 0x766a0abb, 0x81c2c92e, 0x92722c85,
    0xa2bfe8a1, 0xa81a664b, 0xc24b8b70, 0xc76c51a3, 0xd192e819, 0xd6990624, 0xf40e3585, 0x106aa070,
    0x19a4c116, 0x1e376c08, 0x2748774c, 0x34b0bcb5, 0x391c0cb3, 0x4ed8aa4a, 0x5b9cca4f, 0x682e6ff3,
    0x748f82ee, 0x78a5636f, 0x84c87814, 0x8cc70208, 0x90befffa, 0xa4506ceb, 0xbef9a3f7, 0xc67178f2]

/-- `K` of `sha512.c` -/
def k512 : List UInt64 :=
  [0x428a2f98d728ae22, 0x7137449123ef65cd, 0xb5c0fbcfec4d3b2f, 0xe9b5dba58189dbbc,
    0x3956c25bf348b538, 0x59f111f1b605d019, 0x923f82a4af194f9b, 0xab1c5ed5da6d8118,
    0xd807aa98a3030242, 0x12835b0145706fbe, 0x243185be4ee4b28c, 0x550c7dc3d5ffb4e2,
    0x72be5d74f27b896f, 0x80deb1fe3b1696b1, 0x9bdc06a725c71235, 0xc19bf174cf692694,
    0xe49b69c19ef14ad2, 0xefbe4786384f25e3, 0x0fc19dc68b8cd5b5, 0x240ca1cc77ac9c65,
    0x2de92c6f592b0275, 0x4a7484aa6ea6e483, 0x5cb0a9dcbd41fbd4, 0x76f988da831153b5,
    0x983e5152ee66dfab, 0xa831c66d2db43210, 0xb00327c898fb213f, 0xbf597fc7beef0ee4,
    0xc6e00bf33da88fc2, 0xd5a79147930aa725, 0x06ca6351e003826f, 0x142929670a0e6e70,
    0x27b70a8546d22ffc, 0x2e1b21385c26c926, 0x4d2c6dfc5ac42aed, 0x53380d139d95b3df,
    0x650a73548baf63de, 0x766a0abb3c77b2a8, 0x81c2c92e47edaee6, 0x92722c851482353b,
    0xa2bfe8a14cf10364, 0xa81a664bbc423001, 0xc24b8b70d0f89791, 0xc76c51a30654be30,
    0xd192e819d6ef5218, 0xd69906245565a910, 0xf40e35855771202a, 0x106aa07032bbd1b8,
    0x19a4c116b8d2d0c8, 0x1e376c085141ab53, 0x2748774cdf8eeb99, 0x34b0bcb5e19b48a8,
    0x391c0cb3c5c95a63, 0x4ed8aa4ae3418acb, 0x5b9cca4f7763e373, 0x682e6ff3d6b2b8a3,
    0x748f82ee5defb2fc, 0x78a5636f43172f60, 0x84c87814a1f0ab72, 0x8cc702081a6439ec,
    0x90befffa23631e28, 0xa4506cebde82bde9, 0xbef9a3f7b2c67915, 0xc67178f2e372532b,
    0xca273eceea26619c, 0xd186b8c721c0c207, 0xeada7dd6cde0eb1e, 0xf57d4f7fee6ed178,
    0x06f067aa72176fba, 0x0a637dc5a2c898a6, 0x113f9804bef90dae, 0x1b710b35131c471b,
    0x28db77f523047d84, 0x32caab7b40c72493, 0x3c9ebe0a15c9bebc, 0x431d67c49c100d4c,
    0x4cc5d4becb3e42b6, 0x597f299cfc657e2a, 0x5fcb6fab3ad6faec, 0x6c44198c4a475817]

/-- The first 16 words of `w` in `sha256_transform` -/
def words256 (data : Bytes) : List UInt32 :=
  (List.range 16).map fun i =>
    (data.getD (i * 4) 0).toUInt32 <<< 24 ||| (data.getD (i * 4 + 1) 0).toUInt32 <<< 16 |||
      (data.getD (i * 4 + 2) 0).toUInt32 <<< 8 ||| (data.getD (i * 4 + 3) 0).toUInt32

/-- The first 16 words of `w` in `sha512_transform` -/
def words512 (data : Bytes) : List UInt64 :=
  (List.range 16).map fun i =>
    (data.getD (i * 8) 0).toUInt64 <<< 56 ||| (data.getD (i * 8 + 1) 0).toUInt64 <<< 48 |||
      (data.getD (i * 8 + 2) 0).toUInt64 <<< 40 ||| (data.getD (i * 8 + 3) 0).toUInt64 <<< 32 |||
      (data.getD (i * 8 + 4) 0).toUInt64 <<< 24 ||| (data.getD (i * 8 + 5) 0).toUInt64 <<< 16 |||
      (data.getD (i * 8 + 6) 0).toUInt64 <<< 8 ||| (data.getD (i * 8 + 7) 0).toUInt64

/-- `sha256_transform`; the state has words of 64 bits, of which the low halves are read. -/
def sha256Transform (state : List UInt64) (data : Bytes) : List UInt64 :=
  let v := compress sigmas256 k256 (words256 data) (Work.ofList (state.map (·.toUInt32)))
  state.zipWith (fun s x => s + x.toUInt64) v.toList

/-- `sha512_transform` -/
def sha512Transform (state : List UInt64) (data : Bytes) : List UInt64 :=
  let v := compress sigmas512 k512 (words512 data) (Work.ofList state)
  state.zipWith (· + ·) v.toList

/-! Contexts. -/

/-- `sha256_ctx_t` and `sha512_ctx_t`, with their count of bits -/
structure ShaCtx (L : Type) where
  data : Bytes
  datalen : Nat
  bitlen : L
  state : List UInt64

/-- What the two functions do differently. -/
structure Sha (L : Type) where
  block : Nat
  lengthAt : Nat
  transform : List UInt64 → Bytes → List UInt64
  /-- The count after one more block. -/
  count : L → L
  /-- The bytes of the length, from the count and the bytes left. -/
  lengthBytes : L → Nat → Bytes

/-- The bytes of a word, from the top down. -/
def bytes64 (x : UInt64) : Bytes :=
  [(x >>> 56).toUInt8, (x >>> 48).toUInt8, (x >>> 40).toUInt8, (x >>> 32).toUInt8, (x >>> 24).toUInt8,
    (x >>> 16).toUInt8, (x >>> 8).toUInt8, x.toUInt8]

def sha256 : Sha UInt64 where
  block := 64
  lengthAt := 56
  transform := sha256Transform
  count bitlen := bitlen + 512
  lengthBytes bitlen datalen := bytes64 (bitlen + UInt64.ofNat (datalen * 8))

/-- `bitlen` is the pair of `bitlen[0]` and `bitlen[1]`. -/
def sha512 : Sha (UInt64 × UInt64) where
  block := 128
  lengthAt := 112
  transform := sha512Transform
  count bitlen :=
    let lo := bitlen.1 + 1024
    (lo, if lo < 1024 then bitlen.2 + 1 else bitlen.2)
  lengthBytes bitlen datalen :=
    let lo := bitlen.1 + UInt64.ofNat datalen * 8
    let hi := if lo < bitlen.1 then bitlen.2 + 1 else bitlen.2
    bytes64 hi ++ bytes64 lo

/-- One turn of the loops of `sha256_update` and `sha512_update` -/
def Sha.updateByte (p : Sha L) (ctx : ShaCtx L) (x : UInt8) : ShaCtx L :=
  let data := ctx.data.set ctx.datalen x
  let datalen := ctx.datalen + 1
  if datalen = p.block then ⟨data, 0, p.count ctx.bitlen, p.transform ctx.state data⟩
  else ⟨data, datalen, ctx.bitlen, ctx.state⟩

def Sha.update (p : Sha L) (ctx : ShaCtx L) (data : Bytes) : ShaCtx L := data.foldl p.updateByte ctx

/-- `data[i++] = 0`, `k` times -/
def fillZeros (data : Bytes) (i : Nat) : Nat → Bytes
  | 0 => data
  | k + 1 => fillZeros (data.set i 0) (i + 1) k

/-- The state at the end of `sha256_final` and `sha512_final` -/
def Sha.finalState (p : Sha L) (ctx : ShaCtx L) : List UInt64 :=
  let i := ctx.datalen
  let marked := ctx.data.set i 0x80
  let r :=
    if i < p.lengthAt then (fillZeros marked (i + 1) (p.lengthAt - (i + 1)), ctx.state)
    else
      let data := fillZeros marked (i + 1) (p.block - (i + 1))
      (fillZeros data 0 p.lengthAt, p.transform ctx.state data)
  p.transform r.2 (r.1.take p.lengthAt ++ p.lengthBytes ctx.bitlen ctx.datalen)

def init256 : List UInt32 :=
  [0x6a09e667, 0xbb67ae85, 0x3c6ef372, 0xa54ff53a, 0x510e527f, 0x9b05688c, 0x1f83d9ab, 0x5be0cd19]

def init512 : List UInt64 :=
  [0x6a09e667f3bcc908, 0xbb67ae8584caa73b, 0x3c6ef372fe94f82b, 0xa54ff53a5f1d36f1,
    0x510e527fade682d1, 0x9b05688c2b3e6c1f, 0x1f83d9abfb41bd6b, 0x5be0cd19137e2179]

def init384 : List UInt64 :=
  [0xcbbb9d5dc1059ed8, 0x629a292a367cd507, 0x9159015a3070dd17, 0x152fecd8f70e5939,
    0x67332667ffc00b31, 0x8eb44a8768581511, 0xdb0c2e0d64f98fa7, 0x47b5481dbefa4fa4]

/-- `sha256_init`; the buffer keeps what it held. -/
def sha256Init (data : Bytes) : ShaCtx UInt64 := ⟨data, 0, 0, init256.map (·.toUInt64)⟩

/-- `sha512_init` -/
def sha512Init (data : Bytes) : ShaCtx (UInt64 × UInt64) := ⟨data, 0, (0, 0), init512⟩

/-- `sha384_init` -/
def sha384Init (data : Bytes) : ShaCtx (UInt64 × UInt64) := ⟨data, 0, (0, 0), init384⟩

/-- The low halves of the words, from the top down. -/
def bytesLow (x : UInt64) : Bytes :=
  [(x >>> 24 &&& 0xff).toUInt8, (x >>> 16 &&& 0xff).toUInt8, (x >>> 8 &&& 0xff).toUInt8, (x &&& 0xff).toUInt8]

/-- `sha256_final` -/
def sha256Final (ctx : ShaCtx UInt64) : Bytes := (sha256.finalState ctx).flatMap bytesLow

/-- `sha512_final` -/
def sha512Final (ctx : ShaCtx (UInt64 × UInt64)) : Bytes := (sha512.finalState ctx).flatMap bytes64

/-- `sha384_final` -/
def sha384Final (ctx : ShaCtx (UInt64 × UInt64)) : Bytes := (sha512Final ctx).take 48

end Lebirun.Crypto
