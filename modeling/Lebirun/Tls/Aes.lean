import Mathlib
import Lebirun.Lib.ShiftAdd
import Lebirun.Tls.Certificate

namespace Lebirun.Tls
open ShiftAdd
set_option autoImplicit true

/-! AES with keys of 16 bytes. A round key and a state are 16 bytes. -/

/-- `gcm_xtime` -/
def gcmXtime (v : UInt8) : UInt8 := v <<< 1 ^^^ if v &&& 0x80 ≠ 0 then 0x1b else 0

/-- The turns of the loop of `gcm_gfmul`. -/
def gfmulLoop : Nat → UInt8 → UInt8 → UInt8 → UInt8
  | 0, r, _, _ => r
  | k + 1, r, a, b => gfmulLoop k (if b &&& 1 ≠ 0 then r ^^^ a else r) (gcmXtime a) (b >>> 1)

/-- `gcm_gfmul` -/
def gcmGfmul (a b : UInt8) : UInt8 := gfmulLoop 8 0 a b

/-- The last loop of `gcm_sbox`, over `x` and `r`. -/
def sboxLoop : Nat → UInt8 → UInt8 → UInt8
  | 0, _, r => r
  | k + 1, x, r =>
    let x := x <<< 1 ||| x >>> 7
    sboxLoop k x (r ^^^ x)

/-- The `inv` of `gcm_sbox`. -/
def sboxInv (v : UInt8) : UInt8 := if v = 0 then 0 else (fun inv => gcmGfmul inv v)^[254] 1

/-- `gcm_sbox`, and an entry of `gcm_sbox_tab` -/
def gcmSbox (v : UInt8) : UInt8 := sboxLoop 4 (sboxInv v) (sboxInv v ^^^ 0x63)

/-- A turn of the loop of `gcm_key_expand`. -/
def nextKey (rk : Bytes) (rcon : UInt8) : Bytes :=
  let t := [gcmSbox (rk.getD 13 0) ^^^ rcon, gcmSbox (rk.getD 14 0), gcmSbox (rk.getD 15 0), gcmSbox (rk.getD 12 0)]
  (List.range' 4 12).foldl (fun row k => row ++ [rk.getD k 0 ^^^ row.getD (k - 4) 0]) ((rk.take 4).zipWith (· ^^^ ·) t)

def keyLoop : Nat → UInt8 → Bytes → List Bytes
  | 0, _, _ => []
  | k + 1, rcon, rk => nextKey rk rcon :: keyLoop k (gcmXtime rcon) (nextKey rk rcon)

/-- `gcm_key_expand` -/
def gcmKeyExpand (key : Bytes) : List Bytes := key :: keyLoop 10 1 key

/-- `gcm_add_round_key` -/
def gcmAddRoundKey (s rk : Bytes) : Bytes := s.zipWith (· ^^^ ·) rk

/-- `gcm_sub_bytes` -/
def gcmSubBytes (s : Bytes) : Bytes := s.map gcmSbox

/-- `gcm_shift_rows` -/
def gcmShiftRows (s : Bytes) : Bytes :=
  (List.range 16).map fun i => s.getD (i % 4 + 4 * ((i / 4 + i % 4) % 4)) 0

/-- `gcm_mix_columns` -/
def gcmMixColumns (s : Bytes) : Bytes :=
  (List.range 4).flatMap fun c =>
    let a0 := s.getD (4 * c) 0
    let a1 := s.getD (4 * c + 1) 0
    let a2 := s.getD (4 * c + 2) 0
    let a3 := s.getD (4 * c + 3) 0
    [gcmXtime a0 ^^^ gcmXtime a1 ^^^ a1 ^^^ a2 ^^^ a3, a0 ^^^ gcmXtime a1 ^^^ gcmXtime a2 ^^^ a2 ^^^ a3,
      a0 ^^^ a1 ^^^ gcmXtime a2 ^^^ gcmXtime a3 ^^^ a3, gcmXtime a0 ^^^ a0 ^^^ a1 ^^^ a2 ^^^ gcmXtime a3]

def aesRound (s rk : Bytes) : Bytes := gcmAddRoundKey (gcmMixColumns (gcmShiftRows (gcmSubBytes s))) rk

/-- `gcm_block_encrypt` -/
def gcmBlockEncrypt (rk : List Bytes) (block : Bytes) : Bytes :=
  let s := (List.range' 1 9).foldl (fun s r => aesRound s (rk.getD r [])) (gcmAddRoundKey block (rk.getD 0 []))
  gcmAddRoundKey (gcmShiftRows (gcmSubBytes s)) (rk.getD 10 [])

end Lebirun.Tls
