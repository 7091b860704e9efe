import Lebirun.Lib.Halves
import Lebirun.Vfl.Shift

namespace Lebirun.Vfl
open Halves
set_option autoImplicit true

section Group

/-- A word cast to the signed type of the operand size. -/
def signed (size : Size) (x : BitVec 64) : Int := (x.setWidth size.bits).toInt

def carryOverflow : BitVec 64 := 1#64 <<< cfBit ||| 1#64 <<< ofBit

def Cpu.putOverflow (v : Cpu) (ov : Bool) : Cpu :=
  { v with rflags := if ov then v.rflags ||| carryOverflow else v.rflags &&& ~~~carryOverflow }

def Cpu.setAx (v : Cpu) (p : BitVec 64) : Cpu := v.setReg 0 ((v.regs 0 &&& ~~~0xFFFF) ||| p)

/-- MUL and IMUL of group F6/F7. -/
def Cpu.multiply (v : Cpu) (rex : Bool) (size : Size) (neg : Bool) (src : BitVec 64) : Cpu :=
  if size = .byte then
    let al := v.regs 0 &&& 0xFF
    if neg then
      let p := BitVec.ofInt 16 (signed .byte al * signed .byte src)
      (v.setAx (p.setWidth 64)).putOverflow (p.toInt ≠ (p.setWidth 8).toInt)
    else
      let p := (al * src).setWidth 16
      (v.setAx (p.setWidth 64)).putOverflow (p &&& 0xFF00 ≠ 0)
  else
    let ax := v.readReg 0 rex size
    if neg then
      let prod := signed size ax * signed size src
      let lo := BitVec.ofInt 64 prod &&& size.mask
      let hi := BitVec.ofInt 64 (prod >>> size.bits) &&& size.mask
      ((v.writeReg 0 rex size lo).writeReg 2 rex size hi).putOverflow (prod ≠ signed size lo)
    else
      let full := ax.setWidth 128 * src.setWidth 128
      let lo := full.setWidth 64 &&& size.mask
      let hi := (full >>> size.bits).setWidth 64 &&& size.mask
      ((v.writeReg 0 rex size lo).writeReg 2 rex size hi).putOverflow (hi ≠ 0)

/-- The vector of the divide error. -/
def divideError : Nat := 0

/-- The dividend of IDIV in the signed type of its size. -/
def signedDividend (size : Size) (dhi dlo : BitVec 64) (dvd : BitVec 128) : Int :=
  match size with
  | .word => (dlo.setWidth 32 ||| dhi.setWidth 32 <<< 16).toInt
  | .long => (dlo ||| dhi <<< 32).toInt
  | _ => dvd.toInt

/-- DIV and IDIV of group F6/F7, with the exception they end in. -/
def Cpu.divide (v : Cpu) (rex : Bool) (size : Size) (neg : Bool) (src : BitVec 64) :
    Cpu × Option Nat :=
  if src = 0 then (v, some divideError)
  else if size = .byte then
    let ax := v.regs 0 &&& 0xFFFF
    if neg then
      let sax := (ax.setWidth 16).toInt
      let ssrc := signed .byte src
      let sq := BitVec.ofInt 16 (sax.tdiv ssrc)
      let sw := BitVec.ofInt 8 (sax.tmod ssrc)
      if sq.toInt > 127 ∨ sq.toInt < -128 then (v, some divideError)
      else (v.setAx (sw.setWidth 64 <<< 8 ||| (sq.setWidth 8).setWidth 64), none)
    else
      let q := ax / src
      let w := ax % src
      if q > 0xFF then (v, some divideError)
      else (v.setAx (w <<< 8 ||| q), none)
  else
    let dhi := v.readReg 2 rex size
    let dlo := v.readReg 0 rex size
    let dvd : BitVec 128 :=
      (dhi &&& size.mask).setWidth 128 <<< size.bits ||| (dlo &&& size.mask).setWidth 128
    if neg then
      let sdvd := signedDividend size dhi dlo dvd
      let ssrc := signed size src
      let sq := sdvd.tdiv ssrc
      let sw := sdvd.tmod ssrc
      if size = .word ∧ (sq > 32767 ∨ sq < -32768) then (v, some divideError)
      else if size = .long ∧ (sq > 2147483647 ∨ sq < -2147483648) then (v, some divideError)
      else
        ((v.writeReg 0 rex size (BitVec.ofInt 64 sq)).writeReg 2 rex size (BitVec.ofInt 64 sw), none)
    else
      let q := (dvd / src.setWidth 128).setWidth 64
      let w := (dvd % src.setWidth 128).setWidth 64
      if q &&& ~~~size.mask ≠ 0 then (v, some divideError)
      else ((v.writeReg 0 rex size q).writeReg 2 rex size w, none)

/-- The members of group F6/F7 that work on the register pair. -/
inductive MulDiv
  | mul | imul | div | idiv
deriving DecidableEq

def MulDiv.signed : MulDiv → Bool
  | .mul | .div => false
  | .imul | .idiv => true

def MulDiv.divides : MulDiv → Bool
  | .mul | .imul => false
  | .div | .idiv => true

/-- Group F6/F7 of `vfl_step` on a source operand that was read. -/
def Cpu.mulDiv (v : Cpu) (op : MulDiv) (rex : Bool) (size : Size) (src : BitVec 64) :
    Cpu × Option Nat :=
  let src := src &&& size.mask
  if op.divides then v.divide rex size op.signed src
  else (v.multiply rex size op.signed src, none)

end Group

section Pair

variable {size : Size}

/-- The lower half of the register pair: AL, AX, EAX or RAX. -/
def Cpu.low (v : Cpu) (size : Size) : BitVec size.bits := (v.regs 0).setWidth size.bits

/-- The upper half: AH, DX, EDX or RDX. -/
def Cpu.high (v : Cpu) (size : Size) : BitVec size.bits :=
  if size = .byte then (v.regs 0 >>> 8).setWidth size.bits else (v.regs 2).setWidth size.bits

def Cpu.pair (v : Cpu) (size : Size) : BitVec (size.bits + size.bits) := v.high size ++ v.low size

theorem readReg_eq (v : Cpu) (r : Fin 16) (rex : Bool) (hsize : size ≠ .byte) :
    v.readReg r rex size = lift ((v.regs r).setWidth size.bits) := by
  unfold Cpu.readReg
  rw [if_neg fun h => hsize h.1, and_mask]

theorem getLsbD_mask (size : Size) (hi : i < 64) : size.mask.getLsbD i = decide (i < size.bits) := by
  rw [size.mask_eq, BitVec.getLsbD_setWidth, BitVec.getLsbD_allOnes]
  simp [hi]

/-- A write of the low bits of a register. -/
theorem setWidth_merge (x val : BitVec 64) :
    ((x &&& ~~~size.mask) ||| (val &&& size.mask)).setWidth size.bits = val.setWidth size.bits := by
  apply BitVec.eq_of_getLsbD_eq
  intro i hi
  have hi' : i < 64 := lt_of_lt_of_le hi size.le_64
  simp [getLsbD_mask size hi', hi]

theorem writeReg_regs (v : Cpu) (r : Fin 16) (rex : Bool) (val : BitVec 64) (hsize : size ≠ .byte)
    (q : Fin 16) :
    ((v.writeReg r rex size val).regs q).setWidth size.bits =
      if q = r then val.setWidth size.bits else (v.regs q).setWidth size.bits := by
  unfold Cpu.writeReg
  rw [if_neg fun h => hsize h.1, if_neg hsize]
  by_cases hq : q = r
  · rw [if_pos hq]
    by_cases hquad : size = .quad
    · rw [if_pos hquad]
      simp [Cpu.setReg, hq]
    · rw [if_neg hquad]
      simp only [Cpu.setReg, hq, if_true]
      exact setWidth_merge _ _
  · rw [if_neg hq]
    by_cases hquad : size = .quad
    · rw [if_pos hquad]
      simp [Cpu.setReg, hq]
    · rw [if_neg hquad]
      simp [Cpu.setReg, hq]

/-- What the writes of RAX and RDX leave in the pair. -/
theorem low_writePair (v : Cpu) (rex : Bool) (a b : BitVec 64) (hsize : size ≠ .byte) :
    ((v.writeReg 0 rex size a).writeReg 2 rex size b).low size = a.setWidth size.bits := by
  unfold Cpu.low
  rw [writeReg_regs _ _ _ _ hsize, if_neg (by decide), writeReg_regs _ _ _ _ hsize, if_pos rfl]

theorem high_writePair (v : Cpu) (rex : Bool) (a b : BitVec 64) (hsize : size ≠ .byte) :
    ((v.writeReg 0 rex size a).writeReg 2 rex size b).high size = b.setWidth size.bits := by
  unfold Cpu.high
  rw [if_neg hsize, writeReg_regs _ _ _ _ hsize, if_pos rfl]

theorem getLsbD_setAx (v : Cpu) (p : BitVec 64) (hi : i < 16) :
    ((v.setAx p).regs 0).getLsbD i = p.getLsbD i := by
  have hmask := getLsbD_mask .word (show i < 64 by omega)
  change (((v.regs 0) &&& ~~~Size.word.mask) ||| p).getLsbD i = p.getLsbD i
  rw [BitVec.getLsbD_or, BitVec.getLsbD_and, BitVec.getLsbD_not, hmask]
  simp [Size.bits, Size.bytes, hi]

theorem low_setAx (v : Cpu) (h l : BitVec 8) :
    (v.setAx (h.setWidth 64 <<< 8 ||| l.setWidth 64)).low .byte = l := by
  change ((v.setAx _).regs 0).setWidth 8 = l
  apply BitVec.eq_of_getLsbD_eq
  intro i hi
  have hi₆₄ : i < 64 := by omega
  rw [BitVec.getLsbD_setWidth, getLsbD_setAx v _ (by omega), BitVec.getLsbD_or,
    BitVec.getLsbD_shiftLeft, BitVec.getLsbD_setWidth]
  simp [hi, hi₆₄]

theorem high_setAx (v : Cpu) (h l : BitVec 8) :
    (v.setAx (h.setWidth 64 <<< 8 ||| l.setWidth 64)).high .byte = h := by
  change ((v.setAx _).regs 0 >>> 8).setWidth 8 = h
  apply BitVec.eq_of_getLsbD_eq
  intro i hi
  have hi₁ : 8 + i < 64 := by omega
  have hi₂ : i < 64 := by omega
  rw [BitVec.getLsbD_setWidth, BitVec.getLsbD_ushiftRight, getLsbD_setAx v _ (by omega),
    BitVec.getLsbD_or, BitVec.getLsbD_shiftLeft, BitVec.getLsbD_setWidth, BitVec.getLsbD_setWidth]
  simp [hi, hi₁, hi₂]

theorem low_setAx_ofInt (v : Cpu) (n : Int) :
    (v.setAx ((BitVec.ofInt 16 n).setWidth 64)).low .byte = BitVec.ofInt 8 n := by
  have h : (BitVec.ofInt 8 (n / 2 ^ 8) ++ BitVec.ofInt 8 n : BitVec 16) = BitVec.ofInt 16 n :=
    append_ofInt 8 n
  rw [← h, BitVec.setWidth_append_eq_shiftLeft_setWidth_or, low_setAx]

theorem high_setAx_ofInt (v : Cpu) (n : Int) :
    (v.setAx ((BitVec.ofInt 16 n).setWidth 64)).high .byte = BitVec.ofInt 8 (n / 2 ^ 8) := by
  have h : (BitVec.ofInt 8 (n / 2 ^ 8) ++ BitVec.ofInt 8 n : BitVec 16) = BitVec.ofInt 16 n :=
    append_ofInt 8 n
  rw [← h, BitVec.setWidth_append_eq_shiftLeft_setWidth_or, high_setAx]

end Pair

section Multiply

variable {size : Size}

@[simp] theorem regs_putOverflow (v : Cpu) (ov : Bool) : (v.putOverflow ov).regs = v.regs := rfl

@[simp] theorem low_putOverflow (v : Cpu) (ov : Bool) : (v.putOverflow ov).low size = v.low size := rfl

@[simp] theorem high_putOverflow (v : Cpu) (ov : Bool) : (v.putOverflow ov).high size = v.high size := rfl

theorem flag_putOverflow (v : Cpu) (ov : Bool) (hi : i = cfBit ∨ i = ofBit) :
    (v.putOverflow ov).flag i = ov := by
  have hset : carryOverflow.getLsbD i = true := by
    obtain rfl | rfl := hi <;> decide
  have hlt : i < 64 := by
    obtain rfl | rfl := hi <;> decide
  unfold Cpu.putOverflow Cpu.flag
  cases ov with
  | true =>
    rw [if_pos rfl, BitVec.getLsbD_or, hset, Bool.or_true]
  | false =>
    rw [if_neg Bool.false_ne_true, BitVec.getLsbD_and, BitVec.getLsbD_not, hset]
    simp

/-- The product of the source and the lower half of the pair. -/
def Cpu.product (v : Cpu) (neg : Bool) (s : BitVec size.bits) : Int :=
  value neg (v.low size) * value neg s

/-- The pair after a multiplication holds the product, and the flags say whether the upper half is
needed. -/
structure Multiplied (v : Cpu) (neg : Bool) (s : BitVec size.bits) (out : Cpu) : Prop where
  low : out.low size = BitVec.ofInt size.bits (v.product neg s)
  high : out.high size = BitVec.ofInt size.bits (v.product neg s / 2 ^ size.bits)
  carry : out.flag cfBit = decide (¬ Fits neg size.bits (v.product neg s))
  overflow : out.flag ofBit = decide (¬ Fits neg size.bits (v.product neg s))

theorem Multiplied.of_putOverflow {v out : Cpu} {neg ov : Bool} {s : BitVec size.bits}
    (hlow : out.low size = BitVec.ofInt size.bits (v.product neg s))
    (hhigh : out.high size = BitVec.ofInt size.bits (v.product neg s / 2 ^ size.bits))
    (hov : ov = decide (¬ Fits neg size.bits (v.product neg s))) :
    Multiplied v neg s (out.putOverflow ov) where
  low := hlow
  high := hhigh
  carry := (flag_putOverflow out ov (.inl rfl)).trans hov
  overflow := (flag_putOverflow out ov (.inr rfl)).trans hov

theorem signed_lift (s : BitVec size.bits) : signed size (lift s) = value true s := by
  unfold signed
  rw [lift_low s size.le_64]
  rfl

/-- The test of IMUL: the product is not what its lower half reads as. -/
theorem signed_overflow (n : Int) (hw : 0 < w) :
    decide (n ≠ (BitVec.ofInt w n).toInt) = decide (¬ Fits true w n) := by
  rw [decide_eq_decide]
  have hiff : value true (BitVec.ofInt w n) = n ↔ Fits true w n := value_ofInt_iff hw
  exact not_congr (eq_comm.trans hiff)

/-- The test of MUL: the upper half is not zero. -/
theorem unsigned_overflow (n : Int) (h : Fits false (w + w) n) :
    decide (BitVec.ofInt w (n / 2 ^ w) ≠ 0) = decide (¬ Fits false w n) := by
  have hpos := two_pow_pos w
  obtain ⟨h₀, h₁⟩ := h
  rw [pow_add] at h₁
  have hq₀ : 0 ≤ n / 2 ^ w := Int.ediv_nonneg h₀ hpos.le
  have hq₁ : n / 2 ^ w < 2 ^ w := Int.ediv_lt_of_lt_mul hpos h₁
  rw [decide_eq_decide]
  apply not_congr
  constructor
  · intro hzero
    have hn := toNat_ofInt w (n / 2 ^ w)
    rw [hzero, Int.emod_eq_of_lt hq₀ hq₁] at hn
    have hn' : n / 2 ^ w = 0 := by simpa using hn.symm
    have hdigits := Int.emod_add_mul_ediv n (2 ^ w)
    rw [hn', mul_zero, add_zero] at hdigits
    exact ⟨h₀, hdigits ▸ Int.emod_lt_of_pos n hpos⟩
  · intro hfit
    rw [Int.ediv_eq_zero_of_lt h₀ hfit.2]
    rfl

theorem toNat_lift (x : BitVec size.bits) : (lift x).toNat = x.toNat := by
  rw [lift, BitVec.toNat_setWidth]
  exact Nat.mod_eq_of_lt (lt_of_lt_of_le x.isLt (Nat.pow_le_pow_right (by decide) size.le_64))

theorem setWidth_lift (x : BitVec size.bits) (n : Nat) :
    (lift x).setWidth n = BitVec.ofInt n (value false x) := by
  apply BitVec.eq_of_toNat_eq
  apply Int.ofNat_inj.mp
  rw [toNat_ofInt, BitVec.toNat_setWidth, toNat_lift]
  push_cast
  rfl

theorem setWidth_and_mask (y : BitVec 64) : (y &&& size.mask).setWidth size.bits = y.setWidth size.bits := by
  rw [and_mask, lift_low _ size.le_64]

theorem ofInt_and_mask (n : Int) : BitVec.ofInt 64 n &&& size.mask = lift (BitVec.ofInt size.bits n) := by
  rw [and_mask, setWidth_ofInt n size.le_64]

/-- The upper byte of a word is not zero. -/
theorem high_byte_test (n : Int) :
    BitVec.ofInt 16 n &&& 0xFF00 = 0 ↔ BitVec.ofInt 8 (n / 2 ^ 8) = 0 := by
  have h : (BitVec.ofInt 8 (n / 2 ^ 8) ++ BitVec.ofInt 8 n : BitVec 16) = BitVec.ofInt 16 n :=
    append_ofInt 8 n
  have hmask : (0xFF00 : BitVec 16) = BitVec.allOnes 8 ++ 0#8 := by decide
  have hzero : (0 : BitVec 16) = 0#8 ++ 0#8 := by decide
  rw [← h, hmask, BitVec.and_append, BitVec.and_allOnes, BitVec.and_zero, hzero]
  exact BitVec.append_left_inj _

theorem multiply_byte (v : Cpu) (rex neg : Bool) (s : BitVec Size.byte.bits) :
    Multiplied v neg s (v.multiply rex .byte neg (lift s)) := by
  have hal : v.regs 0 &&& 0xFF = lift (v.low .byte) := and_mask _ .byte
  have hfit : Fits neg 16 (v.product neg s) := fits_mul (by decide) (v.low .byte) s neg
  unfold Cpu.multiply
  rw [if_pos rfl]
  dsimp only
  rw [hal]
  cases neg with
  | true =>
    rw [if_pos rfl, signed_lift, signed_lift]
    apply Multiplied.of_putOverflow
    · exact low_setAx_ofInt _ _
    · exact high_setAx_ofInt _ _
    · have hread : (BitVec.ofInt 16 (v.product true s)).toInt = v.product true s :=
        value_ofInt (by decide) hfit
      change decide ((BitVec.ofInt 16 (v.product true s)).toInt ≠ _) = _
      rw [hread, setWidth_ofInt _ (by decide)]
      exact signed_overflow _ (by decide)
  | false =>
    have hp : (lift (v.low .byte) * lift s).setWidth 16 = BitVec.ofInt 16 (v.product false s) := by
      rw [BitVec.setWidth_mul _ _ (by decide), setWidth_lift, setWidth_lift, ← BitVec.ofInt_mul]
      rfl
    rw [if_neg Bool.false_ne_true, hp]
    apply Multiplied.of_putOverflow
    · exact low_setAx_ofInt _ _
    · exact high_setAx_ofInt _ _
    · refine Eq.trans ?_ (unsigned_overflow (w := 8) _ hfit)
      rw [decide_eq_decide]
      exact not_congr (high_byte_test _)

theorem ushiftRight_ofInt (k : Nat) {n : Int} (h : Fits false w n) :
    BitVec.ofInt w n >>> k = BitVec.ofInt w (n / 2 ^ k) := by
  apply BitVec.eq_of_toNat_eq
  apply Int.ofNat_inj.mp
  rw [toNat_ofInt, BitVec.toNat_ushiftRight, Nat.shiftRight_eq_div_pow]
  push_cast
  have hk := two_pow_pos k
  have hq : n / 2 ^ k ≤ n := Int.ediv_le_self _ h.1
  rw [toNat_ofInt, Int.emod_eq_of_lt h.1 h.2,
    Int.emod_eq_of_lt (Int.ediv_nonneg h.1 hk.le) (lt_of_le_of_lt hq h.2)]

theorem multiply_wide (v : Cpu) (rex neg : Bool) (s : BitVec size.bits) (hsize : size ≠ .byte) :
    Multiplied v neg s (v.multiply rex size neg (lift s)) := by
  have hlt := size.one_lt
  have hle := size.le_64
  have hfit : Fits neg (size.bits + size.bits) (v.product neg s) :=
    fits_mul (by omega) (v.low size) s neg
  unfold Cpu.multiply
  rw [if_neg hsize]
  dsimp only
  rw [readReg_eq _ _ _ hsize]
  cases neg with
  | true =>
    rw [if_pos rfl, signed_lift, signed_lift, ofInt_and_mask, ofInt_and_mask, signed_lift]
    apply Multiplied.of_putOverflow
    · rw [low_writePair _ _ _ _ hsize, lift_low _ hle]
      rfl
    · rw [high_writePair _ _ _ _ hsize, lift_low _ hle, Int.shiftRight_eq_div_pow]
      rfl
    · exact signed_overflow _ (by omega)
  | false =>
    have hfull : (lift (v.low size)).setWidth 128 * (lift s).setWidth 128 =
        BitVec.ofInt 128 (v.product false s) := by
      rw [setWidth_lift, setWidth_lift, ← BitVec.ofInt_mul]
      rfl
    have hwide : Fits false 128 (v.product false s) :=
      ⟨hfit.1, lt_of_lt_of_le hfit.2 (pow_le_pow_right₀ (by decide) (by omega))⟩
    rw [if_neg Bool.false_ne_true]
    rw [show (v.regs 0).setWidth size.bits = v.low size from rfl]
    rw [hfull, ushiftRight_ofInt _ hwide, setWidth_ofInt _ (by decide), setWidth_ofInt _ (by decide),
      ofInt_and_mask, ofInt_and_mask]
    apply Multiplied.of_putOverflow
    · rw [low_writePair _ _ _ _ hsize, lift_low _ hle]
    · rw [high_writePair _ _ _ _ hsize, lift_low _ hle]
    · rw [← unsigned_overflow _ hfit, decide_eq_decide]
      exact not_congr (lift_eq_zero _)

end Multiply

section Divide

variable {size : Size}

def Cpu.dividend (v : Cpu) (neg : Bool) (size : Size) : Int := value neg (v.pair size)

/-- The quotient and the remainder of a division in the pair. -/
structure Divided (v : Cpu) (neg : Bool) (s : BitVec size.bits) (out : Cpu) : Prop where
  low : out.low size = BitVec.ofInt size.bits ((v.dividend neg size).tdiv (value neg s))
  high : out.high size = BitVec.ofInt size.bits ((v.dividend neg size).tmod (value neg s))

/-- A division with a quotient that fits, or one that ends in the divide error. -/
inductive DivideEnds (v : Cpu) (neg : Bool) (s : BitVec size.bits) (traps : Prop) :
    Cpu × Option Nat → Prop
  | done (h : ¬ traps) (hout : Divided v neg s out) : DivideEnds v neg s traps (out, none)
  | error (h : traps) : DivideEnds v neg s traps (v, some divideError)

theorem DivideEnds.of_ite {v out : Cpu} {neg : Bool} {s : BitVec size.bits} {c traps : Prop}
    [Decidable c] (hc : c ↔ traps) (hout : ¬ traps → Divided v neg s out) :
    DivideEnds v neg s traps (if c then (v, some divideError) else (out, none)) := by
  by_cases h : c
  · rw [if_pos h]
    exact .error (hc.mp h)
  · rw [if_neg h]
    exact .done (fun ht => h (hc.mpr ht)) (hout fun ht => h (hc.mpr ht))

theorem setWidth_eq_ofInt (y : BitVec u) (n : Nat) : y.setWidth n = BitVec.ofInt n (value false y) :=
  (BitVec.ofNat_toNat n y).symm

theorem lift_setWidth (x : BitVec size.bits) (n : Nat) : (lift x).setWidth n = x.setWidth n := by
  rw [setWidth_lift, setWidth_eq_ofInt]

theorem narrow {y : BitVec 64} {w : Nat} (h : y.toNat < 2 ^ w) :
    (y.setWidth w).setWidth 64 = y := by
  apply BitVec.eq_of_toNat_eq
  rw [BitVec.toNat_setWidth, BitVec.toNat_setWidth, Nat.mod_eq_of_lt h, Nat.mod_eq_of_lt y.isLt]

theorem and_not_eq_zero (y m : BitVec w) : y &&& ~~~m = 0 ↔ y &&& m = y := by
  rw [BitVec.eq_of_getLsbD_eq_iff, BitVec.eq_of_getLsbD_eq_iff]
  apply forall_congr'
  intro i
  apply imp_congr_right
  intro hi
  rw [BitVec.getLsbD_and, BitVec.getLsbD_and, BitVec.getLsbD_not]
  cases y.getLsbD i <;> cases m.getLsbD i <;> simp [hi]

theorem and_not_mask (y : BitVec 64) : y &&& ~~~size.mask = 0 ↔ y.toNat < 2 ^ size.bits := by
  rw [and_not_eq_zero, and_mask]
  constructor
  · intro h
    rw [← h, lift, BitVec.toNat_setWidth]
    exact lt_of_le_of_lt (Nat.mod_le _ _) (BitVec.isLt _)
  · exact narrow

theorem value_eq_zero {neg : Bool} (s : BitVec size.bits) : value neg s = 0 ↔ lift s = 0 := by
  have hlt := size.one_lt
  rw [lift_eq_zero]
  constructor
  · intro h
    rw [← ofInt_value neg s, h]
    rfl
  · intro h
    have hz : Fits neg size.bits 0 := by
      cases neg with
      | true => exact ⟨neg_nonpos.mpr (two_pow_pos _).le, two_pow_pos _⟩
      | false => exact ⟨le_refl _, two_pow_pos _⟩
    have hread := value_ofInt (by omega) hz
    rw [h]
    exact hread

/-- A division without a sign, on words. -/
theorem tdiv_unsigned (x : BitVec u) (y : BitVec w) :
    (value false x).tdiv (value false y) = (x.toNat / y.toNat : Nat) := rfl

theorem tmod_unsigned (x : BitVec u) (y : BitVec w) :
    (value false x).tmod (value false y) = (x.toNat % y.toNat : Nat) := rfl

theorem fits_unsigned (n : Nat) : Fits false w n ↔ n < 2 ^ w := by
  constructor
  · intro h
    exact_mod_cast h.2
  · intro h
    exact ⟨Int.natCast_nonneg n, by exact_mod_cast h⟩

theorem pair_byte (v : Cpu) : v.pair .byte = (v.regs 0).setWidth 16 := by
  change ((v.regs 0 >>> 8).setWidth 8 ++ (v.regs 0).setWidth 8 : BitVec 16) = (v.regs 0).setWidth 16
  apply BitVec.eq_of_getLsbD_eq
  intro i hi
  rw [BitVec.getLsbD_append, BitVec.getLsbD_setWidth, BitVec.getLsbD_setWidth, BitVec.getLsbD_setWidth,
    BitVec.getLsbD_ushiftRight]
  by_cases h8 : i < 8
  · simp [h8, hi]
  · have h₁ : i - 8 < 8 := by omega
    have h₂ : 8 + (i - 8) = i := by omega
    simp [h8, hi, h₁, h₂]

/-- The quotient of a 16-bit dividend wraps only for -32768 / -1, and is caught then too. -/
theorem byte_test {n : Int} (h : n.natAbs ≤ 2 ^ 15) :
    ((BitVec.ofInt 16 n).toInt > 127 ∨ (BitVec.ofInt 16 n).toInt < -128) ↔ ¬ Fits true 8 n := by
  by_cases hmax : n = 2 ^ 15
  · subst hmax
    decide
  · have hread : (BitVec.ofInt 16 n).toInt = n :=
      BitVec.toInt_ofInt_eq_self (by decide) (by omega) (by omega)
    rw [hread]
    change _ ↔ ¬ (-2 ^ 7 ≤ n ∧ n < 2 ^ 7)
    omega

theorem divide_byte (v : Cpu) (rex neg : Bool) (s : BitVec Size.byte.bits) (hs : value neg s ≠ 0) :
    DivideEnds v neg s (¬ Fits neg 8 ((v.dividend neg .byte).tdiv (value neg s)))
      (v.divide rex .byte neg (lift s)) := by
  have hne : lift s ≠ 0 := fun h => hs ((value_eq_zero s).mpr h)
  have hax : v.regs 0 &&& 0xFFFF = (v.pair .byte).setWidth 64 := by
    rw [pair_byte]
    exact and_mask (v.regs 0) .word
  unfold Cpu.divide
  rw [if_neg hne, if_pos rfl]
  dsimp only
  rw [hax]
  cases neg with
  | true =>
    have hread : (((v.pair .byte).setWidth 64).setWidth 16).toInt = v.dividend true .byte := by
      rw [BitVec.setWidth_setWidth_of_le _ (by decide)]
      exact congrArg BitVec.toInt (BitVec.setWidth_eq _)
    have hbound : ((v.dividend true .byte).tdiv (value true s)).natAbs ≤ 2 ^ 15 := by
      have hle := Int.natAbs_tdiv_le_natAbs (v.dividend true .byte) (value true s)
      have hfit : Fits true 16 (v.dividend true .byte) := fits_value true (v.pair .byte)
      obtain ⟨h₀, h₁⟩ := hfit
      omega
    rw [if_pos rfl, signed_lift, hread, setWidth_ofInt (w := 8) (v := 16) _ (by decide)]
    exact .of_ite (byte_test hbound) fun _ => ⟨low_setAx _ _ _, high_setAx _ _ _⟩
  | false =>
    have hs₀ : 0 < s.toNat := Nat.pos_of_ne_zero fun h => hs (congrArg Int.ofNat h)
    have hlift : (lift s).toNat = s.toNat := toNat_lift s
    have hy : ((v.pair .byte).setWidth 64).toNat = (v.pair .byte).toNat := by
      rw [BitVec.toNat_setWidth]
      exact Nat.mod_eq_of_lt (lt_of_lt_of_le (v.pair .byte).isLt (by decide))
    have hq : ((v.pair .byte).setWidth 64 / lift s).toNat = (v.pair .byte).toNat / s.toNat := by
      rw [BitVec.toNat_udiv, hy, hlift]
    have hr : ((v.pair .byte).setWidth 64 % lift s).toNat = (v.pair .byte).toNat % s.toNat := by
      rw [BitVec.toNat_umod, hy, hlift]
    have hr₈ : ((v.pair .byte).setWidth 64 % lift s).toNat < 2 ^ 8 :=
      hr ▸ lt_trans (Nat.mod_lt _ hs₀) s.isLt
    rw [if_neg Bool.false_ne_true]
    apply DivideEnds.of_ite
    · change _ ↔ ¬ Fits false 8 ((v.pair .byte).toNat / s.toNat : Nat)
      rw [fits_unsigned, ← hq, gt_iff_lt, BitVec.lt_def, not_lt]
      rfl
    · intro hfit
      have hq₈ : ((v.pair .byte).setWidth 64 / lift s).toNat < 2 ^ 8 :=
        hq ▸ (fits_unsigned _).mp (not_not.mp hfit)
      rw [← narrow hq₈, ← narrow hr₈]
      refine ⟨?_, ?_⟩
      · rw [low_setAx, setWidth_eq_ofInt]
        exact congrArg (fun n : Nat => BitVec.ofInt 8 n) hq
      · rw [high_setAx, setWidth_eq_ofInt]
        exact congrArg (fun n : Nat => BitVec.ofInt 8 n) hr

theorem Size.le_32 (size : Size) (h : size ≠ .quad) : size.bits ≤ 32 := by
  cases size with
  | quad => exact absurd rfl h
  | _ => decide

/-- The tests of the quotient for 16 and 32 bits; there is none for 64. -/
theorem narrow_test (hsize : size ≠ .byte) (n : Int) :
    (size = .word ∧ (n > 32767 ∨ n < -32768) ∨
      size = .long ∧ (n > 2147483647 ∨ n < -2147483648)) ↔
      size ≠ .quad ∧ ¬ Fits true size.bits n := by
  cases size with
  | byte => exact absurd rfl hsize
  | word =>
    change _ ↔ _ ∧ ¬ (-2 ^ 15 ≤ n ∧ n < 2 ^ 15)
    simp
    omega
  | long =>
    change _ ↔ _ ∧ ¬ (-2 ^ 31 ≤ n ∧ n < 2 ^ 31)
    simp
    omega
  | quad => simp

theorem signedDividend_eq (v : Cpu) (hsize : size ≠ .byte) :
    signedDividend size (lift (v.high size)) (lift (v.low size)) ((v.pair size).setWidth 128) =
      v.dividend true size := by
  cases size with
  | byte => exact absurd rfl hsize
  | word =>
    change ((lift (v.low .word)).setWidth 32 ||| (lift (v.high .word)).setWidth 32 <<< 16).toInt = _
    rw [lift_setWidth, lift_setWidth, BitVec.or_comm]
    exact congrArg BitVec.toInt (BitVec.setWidth_append_eq_shiftLeft_setWidth_or.symm.trans
      (BitVec.setWidth_eq (v.pair .word)))
  | long =>
    change ((v.low .long).setWidth 64 ||| (v.high .long).setWidth 64 <<< 32).toInt = _
    rw [BitVec.or_comm]
    exact congrArg BitVec.toInt (BitVec.setWidth_append_eq_shiftLeft_setWidth_or.symm.trans
      (BitVec.setWidth_eq (v.pair .long)))
  | quad =>
    exact congrArg BitVec.toInt (BitVec.setWidth_eq (v.pair .quad))

theorem divide_wide (v : Cpu) (rex neg : Bool) (s : BitVec size.bits) (hsize : size ≠ .byte)
    (hs : value neg s ≠ 0) :
    DivideEnds v neg s
      (size ≠ .quad ∧ ¬ Fits neg size.bits ((v.dividend neg size).tdiv (value neg s)))
      (v.divide rex size neg (lift s)) := by
  have hne : lift s ≠ 0 := fun h => hs ((value_eq_zero s).mpr h)
  have hle := size.le_64
  have hdvd : (lift (v.high size) &&& size.mask).setWidth 128 <<< size.bits |||
      (lift (v.low size) &&& size.mask).setWidth 128 = (v.pair size).setWidth 128 := by
    rw [lift_and_mask, lift_and_mask, lift_setWidth, lift_setWidth]
    exact BitVec.setWidth_append_eq_shiftLeft_setWidth_or.symm
  have hhigh : v.readReg 2 rex size = lift (v.high size) := by
    rw [readReg_eq _ _ _ hsize, Cpu.high, if_neg hsize]
  have hlow : v.readReg 0 rex size = lift (v.low size) := readReg_eq _ _ _ hsize
  unfold Cpu.divide
  rw [if_neg hne, if_neg hsize]
  dsimp only
  rw [hhigh, hlow, hdvd]
  cases neg with
  | true =>
    rw [if_pos rfl, signed_lift, signedDividend_eq v hsize, ← ite_or]
    apply DivideEnds.of_ite
    · exact narrow_test hsize _
    · intro _
      refine ⟨?_, ?_⟩
      · rw [low_writePair _ _ _ _ hsize, setWidth_ofInt _ hle]
      · rw [high_writePair _ _ _ _ hsize, setWidth_ofInt _ hle]
  | false =>
    have hs₀ : 0 < s.toNat := Nat.pos_of_ne_zero fun h => hs (congrArg Int.ofNat h)
    have hs₁ : ((lift s).setWidth 128).toNat = s.toNat := by
      rw [lift_setWidth, BitVec.toNat_setWidth]
      exact Nat.mod_eq_of_lt (lt_of_lt_of_le s.isLt (Nat.pow_le_pow_right (by decide) (by omega)))
    have hp : ((v.pair size).setWidth 128).toNat = (v.pair size).toNat := by
      rw [BitVec.toNat_setWidth]
      exact Nat.mod_eq_of_lt
        (lt_of_lt_of_le (v.pair size).isLt (Nat.pow_le_pow_right (by decide) (by omega)))
    have hq : ((v.pair size).setWidth 128 / (lift s).setWidth 128).toNat =
        (v.pair size).toNat / s.toNat := by rw [BitVec.toNat_udiv, hp, hs₁]
    have hr : ((v.pair size).setWidth 128 % (lift s).setWidth 128).toNat =
        (v.pair size).toNat % s.toNat := by rw [BitVec.toNat_umod, hp, hs₁]
    rw [if_neg Bool.false_ne_true]
    apply DivideEnds.of_ite
    · rw [ne_eq, and_not_mask, BitVec.toNat_setWidth, hq]
      change _ ↔ size ≠ .quad ∧ ¬ Fits false size.bits ((v.pair size).toNat / s.toNat : Nat)
      rw [fits_unsigned]
      by_cases hquad : size = .quad
      · subst hquad
        exact iff_of_false (not_not.mpr (Nat.mod_lt _ (by decide))) fun h => h.1 rfl
      · have hsmall : (v.pair size).toNat < 2 ^ 64 := lt_of_lt_of_le (v.pair size).isLt
          (Nat.pow_le_pow_right (by decide) (by have := size.le_32 hquad; omega))
        rw [Nat.mod_eq_of_lt (lt_of_le_of_lt (Nat.div_le_self _ _) hsmall)]
        exact (and_iff_right hquad).symm
    · intro _
      refine ⟨?_, ?_⟩
      · rw [low_writePair _ _ _ _ hsize, BitVec.setWidth_setWidth_of_le _ hle, setWidth_eq_ofInt]
        exact congrArg (fun n : Nat => BitVec.ofInt size.bits n) hq
      · rw [high_writePair _ _ _ _ hsize, BitVec.setWidth_setWidth_of_le _ hle, setWidth_eq_ofInt]
        exact congrArg (fun n : Nat => BitVec.ofInt size.bits n) hr

end Divide

section Exact

variable {size : Size}

/-- The product is in the pair, and CF and OF say whether it needs the upper half. -/
structure MulExact (v : Cpu) (neg : Bool) (s : BitVec size.bits) (out : Cpu × Option Nat) : Prop where
  done : out.2 = none
  product : value neg (out.1.pair size) = value neg (v.low size) * value neg s
  carry : out.1.flag cfBit = decide (¬ Fits neg size.bits (value neg (v.low size) * value neg s))
  overflow : out.1.flag ofBit = decide (¬ Fits neg size.bits (value neg (v.low size) * value neg s))

/-- The quotient and the remainder are in the halves of the pair, unless the divisor is zero or the
quotient too large: then the divide error is raised and nothing changes. -/
structure DivExact (v : Cpu) (neg : Bool) (s : BitVec size.bits) (out : Cpu × Option Nat) : Prop where
  traps : value neg s = 0 ∨ ¬ Fits neg size.bits ((v.dividend neg size).tdiv (value neg s)) →
    out = (v, some divideError)
  done : value neg s ≠ 0 → Fits neg size.bits ((v.dividend neg size).tdiv (value neg s)) →
    out.2 = none
  quotient : out.2 = none → value neg (out.1.low size) = (v.dividend neg size).tdiv (value neg s)
  remainder : out.2 = none →
    v.dividend neg size = value neg (out.1.low size) * value neg s + value neg (out.1.high size)

/-- The instruction does what the architecture says. -/
def MulDivExact (v : Cpu) (op : MulDiv) (rex : Bool) (size : Size) (src : BitVec 64) : Prop :=
  if op.divides then DivExact v op.signed (src.setWidth size.bits) (v.mulDiv op rex size src)
  else MulExact v op.signed (src.setWidth size.bits) (v.mulDiv op rex size src)

/-- A 64-bit division by a divisor that is too small for the dividend. -/
def TooLarge (v : Cpu) (op : MulDiv) (size : Size) (src : BitVec 64) : Prop :=
  op.divides = true ∧ size = .quad ∧ value op.signed (src.setWidth size.bits) ≠ 0 ∧
    Overflows op.signed size.bits (v.dividend op.signed size)
      (value op.signed (src.setWidth size.bits))

theorem multiply_spec (v : Cpu) (rex neg : Bool) (s : BitVec size.bits) :
    Multiplied v neg s (v.multiply rex size neg (lift s)) := by
  by_cases hsize : size = .byte
  · subst hsize
    exact multiply_byte v rex neg s
  · exact multiply_wide v rex neg s hsize

theorem divide_spec (v : Cpu) (rex neg : Bool) (s : BitVec size.bits) (hs : value neg s ≠ 0) :
    DivideEnds v neg s
      (size ≠ .quad ∧ ¬ Fits neg size.bits ((v.dividend neg size).tdiv (value neg s)))
      (v.divide rex size neg (lift s)) := by
  by_cases hsize : size = .byte
  · subst hsize
    have htraps : (Size.byte ≠ .quad ∧ ¬ Fits neg 8 ((v.dividend neg .byte).tdiv (value neg s))) =
        ¬ Fits neg 8 ((v.dividend neg .byte).tdiv (value neg s)) :=
      propext (and_iff_right (by decide))
    change DivideEnds v neg s
      (Size.byte ≠ .quad ∧ ¬ Fits neg 8 ((v.dividend neg .byte).tdiv (value neg s))) _
    rw [htraps]
    exact divide_byte v rex neg s hs
  · exact divide_wide v rex neg s hsize hs

theorem mulExact (v : Cpu) (rex neg : Bool) (s : BitVec size.bits) :
    MulExact v neg s (v.multiply rex size neg (lift s), none) where
  done := rfl
  product := by
    have hspec := multiply_spec v rex neg s
    have hlt := size.one_lt
    unfold Cpu.pair
    rw [hspec.low, hspec.high, append_ofInt]
    exact value_ofInt (by omega) (fits_mul (by omega) (v.low size) s neg)
  carry := (multiply_spec v rex neg s).carry
  overflow := (multiply_spec v rex neg s).overflow

theorem dividend_nonneg (v : Cpu) (neg : Bool) (s : BitVec size.bits) (h : neg = false) :
    0 ≤ v.dividend neg size ∧ 0 ≤ value neg s := by
  subst h
  exact ⟨Int.natCast_nonneg _, Int.natCast_nonneg _⟩

theorem divExact_iff (v : Cpu) (rex neg : Bool) (s : BitVec size.bits) :
    DivExact v neg s (v.divide rex size neg (lift s)) ↔
      ¬ (size = .quad ∧ value neg s ≠ 0 ∧
        Overflows neg size.bits (v.dividend neg size) (value neg s)) := by
  have hlt := size.one_lt
  by_cases hs : value neg s = 0
  · have hout : v.divide rex size neg (lift s) = (v, some divideError) := by
      unfold Cpu.divide
      rw [if_pos ((value_eq_zero s).mp hs)]
    rw [hout]
    refine iff_of_true ⟨fun _ => rfl, fun h => absurd hs h, ?_, ?_⟩ fun h => h.2.1 hs
    · intro h
      cases h
    · intro h
      cases h
  · have hfits := fits_tdiv_iff (w := size.bits) hs (dividend_nonneg v neg s)
    have hends := divide_spec v rex neg s hs
    generalize v.divide rex size neg (lift s) = out at hends
    cases hends with
    | done h hout =>
      rename_i out
      constructor
      · intro hexact ⟨hquad, _, hover⟩
        have htrap := hexact.traps (.inr fun hfit => hfits.mp hfit hover)
        cases congrArg Prod.snd htrap
      · intro hcond
        have hfit : Fits neg size.bits ((v.dividend neg size).tdiv (value neg s)) := by
          by_contra hno
          have hquad : size = .quad := by
            by_contra hquad
            exact h ⟨hquad, hno⟩
          exact hcond ⟨hquad, hs, not_not.mp (mt hfits.mpr hno)⟩
        have hlow : value neg (out.low size) = (v.dividend neg size).tdiv (value neg s) := by
          rw [hout.low]
          exact value_ofInt (by omega) hfit
        have hhigh : value neg (out.high size) = (v.dividend neg size).tmod (value neg s) := by
          rw [hout.high]
          exact value_ofInt (by omega) (fits_tmod s hs fun h => (dividend_nonneg v neg s h).1)
        refine ⟨fun htrap => ?_, fun _ _ => rfl, fun _ => hlow, fun _ => ?_⟩
        · exact absurd htrap (not_or.mpr ⟨hs, not_not.mpr hfit⟩)
        · rw [hlow, hhigh]
          exact (Int.tdiv_mul_add_tmod _ _).symm
    | error h =>
      refine iff_of_true ⟨fun _ => rfl, fun _ hfit => absurd hfit h.2, ?_, ?_⟩ fun hc => h.1 hc.1
      · intro h
        cases h
      · intro h
        cases h

/-- Multiplication is exact, and division except for the 64-bit quotients that do not fit. -/
theorem mulDiv_exact_iff (v : Cpu) (op : MulDiv) (rex : Bool) (size : Size) (src : BitVec 64) :
    MulDivExact v op rex size src ↔ ¬ TooLarge v op size src := by
  have hsrc : src &&& size.mask = lift (src.setWidth size.bits) := and_mask src size
  unfold MulDivExact TooLarge Cpu.mulDiv
  dsimp only
  rw [hsrc]
  generalize src.setWidth size.bits = s
  cases hdiv : op.divides with
  | false =>
    rw [if_neg Bool.false_ne_true, if_neg Bool.false_ne_true]
    exact iff_of_true (mulExact v rex op.signed s) fun h => Bool.false_ne_true h.1
  | true =>
    rw [if_pos rfl, if_pos rfl, divExact_iff]
    exact not_congr (and_iff_right rfl).symm

/-- A machine with one in RDX and zero in every other register. -/
def carriedCpu : Cpu where
  regs := fun r => if r = 2 then 1 else 0
  rflags := 0
  lazyEnabled := false
  pending := ⟨0, .byte, 0, 0, 0, 0⟩

/-- 2^64 divided by one is not trapped. -/
theorem div_misses_overflow : ¬ MulDivExact carriedCpu .div true .quad 1 := by
  intro h
  have htrap := (show DivExact _ _ _ _ from h).traps (by decide)
  exact absurd (congrArg Prod.snd htrap) (by decide)

end Exact

end Lebirun.Vfl
