import Mathlib.Data.BitVec

namespace Lebirun.Vfl
set_option autoImplicit true

-- The sizes of the register files and of the choices in an encoding.
scoped instance neZeroFour : NeZero 4 := ⟨by decide⟩
scoped instance neZeroSix : NeZero 6 := ⟨by decide⟩
scoped instance neZeroEight : NeZero 8 := ⟨by decide⟩
scoped instance neZeroSixteen : NeZero 16 := ⟨by decide⟩

/-- An operand size of 1, 2, 4 or 8 bytes. -/
inductive Size
  | byte | word | long | quad
deriving DecidableEq, Repr

def Size.bytes : Size → Nat
  | .byte => 1
  | .word => 2
  | .long => 4
  | .quad => 8

abbrev Size.bits (size : Size) : Nat := size.bytes * 8

/-- `vfl_mask` -/
def Size.mask : Size → BitVec 64
  | .byte => 0xFF
  | .word => 0xFFFF
  | .long => 0xFFFFFFFF
  | .quad => 0xFFFFFFFFFFFFFFFF

/-- The flags of the last operation, kept until somebody reads them. -/
structure LazyFlags where
  op : Nat
  size : Size
  carry : BitVec 64
  a : BitVec 64
  b : BitVec 64
  r : BitVec 64
deriving DecidableEq

/-- The registers of `vfl_vcpu_t` that the integer instructions work on. -/
structure Cpu where
  regs : Fin 16 → BitVec 64
  rflags : BitVec 64
  lazyEnabled : Bool
  pending : LazyFlags

abbrev cfBit : Nat := 0
abbrev pfBit : Nat := 2
abbrev afBit : Nat := 4
abbrev zfBit : Nat := 6
abbrev sfBit : Nat := 7
abbrev ofBit : Nat := 11

def Cpu.flag (v : Cpu) (i : Nat) : Bool := v.rflags.getLsbD i

/-- Setting a flag to a value. -/
def putFlag (f : BitVec 64) (i : Nat) (b : Bool) : BitVec 64 :=
  if b then f ||| 1#64 <<< i else f &&& ~~~(1#64 <<< i)

theorem getLsbD_putFlag (f : BitVec 64) {i : Nat} (b : Bool) (j : Nat) (hi : i < 64) :
    (putFlag f i b).getLsbD j = if j = i then b else f.getLsbD j := by
  have hone : ∀ j, (1#64 <<< i).getLsbD j = decide (j = i) := by
    intro j
    rw [← BitVec.twoPow_eq, BitVec.getLsbD_twoPow]
    by_cases h : j = i
    · simp [h, hi]
    · simp [h, Ne.symm h]
  unfold putFlag
  cases b with
  | true =>
    rw [if_pos rfl, BitVec.getLsbD_or, hone]
    by_cases h : j = i <;> simp [h]
  | false =>
    rw [if_neg Bool.false_ne_true, BitVec.getLsbD_and, BitVec.getLsbD_not, hone]
    by_cases h : j = i
    · simp [h]
    · by_cases hj : j < 64
      · simp [h, hj]
      · simp [h, BitVec.getLsbD_of_ge _ _ (Nat.le_of_not_lt hj)]

/-- `vfl_read_reg` -/
def Cpu.readReg (v : Cpu) (r : Fin 16) (rex : Bool) (size : Size) : BitVec 64 :=
  if size = .byte ∧ rex = false ∧ 4 ≤ r ∧ r < 8 then (v.regs (r - 4) >>> 8) &&& 0xFF
  else v.regs r &&& size.mask

def Cpu.setReg (v : Cpu) (r : Fin 16) (val : BitVec 64) : Cpu :=
  { v with regs := fun q => if q = r then val else v.regs q }

/-- `vfl_write_reg` -/
def Cpu.writeReg (v : Cpu) (r : Fin 16) (rex : Bool) (size : Size) (val : BitVec 64) : Cpu :=
  if size = .byte ∧ rex = false ∧ 4 ≤ r ∧ r < 8 then
    v.setReg (r - 4) ((v.regs (r - 4) &&& ~~~(0xFF#64 <<< 8)) ||| ((val &&& 0xFF) <<< 8))
  else if size = .byte then v.setReg r ((v.regs r &&& ~~~0xFF) ||| (val &&& 0xFF))
  else if size = .quad then v.setReg r val
  else v.setReg r ((v.regs r &&& ~~~size.mask) ||| (val &&& size.mask))

/-- `vfl_parity` -/
def parity (b : BitVec 8) : Bool :=
  let b := b ^^^ b >>> 4
  let b := b ^^^ b >>> 2
  let b := b ^^^ b >>> 1
  !b.getLsbD 0

/-- The six status flags. -/
def statusFlags : BitVec 64 := 0x8D5

/-- `vfl_flag_logic` -/
def Cpu.flagLogic (v : Cpu) (r : BitVec 64) (size : Size) : Cpu :=
  if v.lazyEnabled then { v with pending := { v.pending with op := 1, size, r } }
  else
    let f := v.rflags &&& ~~~statusFlags
    let f := if r &&& size.mask = 0 then f ||| 1#64 <<< zfBit else f
    let f := if r &&& 1#64 <<< (size.bits - 1) ≠ 0 then f ||| 1#64 <<< sfBit else f
    { v with rflags := if parity (r.setWidth 8) then f ||| 1#64 <<< pfBit else f }

section Shift

/-- One turn of the loop of ROL, on the value and the flags. -/
def rolStep (size : Size) (s : BitVec 64 × BitVec 64) : BitVec 64 × BitVec 64 :=
  let cf := (s.1 >>> (size.bits - 1)) &&& 1#64
  ((s.1 <<< 1 ||| cf) &&& size.mask, (s.2 &&& ~~~1#64) ||| cf)

def rorStep (size : Size) (s : BitVec 64 × BitVec 64) : BitVec 64 × BitVec 64 :=
  let cf := s.1 &&& 1#64
  ((s.1 >>> 1 ||| cf <<< (size.bits - 1)) &&& size.mask, (s.2 &&& ~~~1#64) ||| cf)

def rclStep (size : Size) (s : BitVec 64 × BitVec 64) : BitVec 64 × BitVec 64 :=
  let oldcf := s.2 &&& 1#64
  let cf := (s.1 >>> (size.bits - 1)) &&& 1#64
  ((s.1 <<< 1 ||| oldcf) &&& size.mask, (s.2 &&& ~~~1#64) ||| cf)

def rcrStep (size : Size) (s : BitVec 64 × BitVec 64) : BitVec 64 × BitVec 64 :=
  let oldcf := s.2 &&& 1#64
  let cf := s.1 &&& 1#64
  ((s.1 >>> 1 ||| oldcf <<< (size.bits - 1)) &&& size.mask, (s.2 &&& ~~~1#64) ||| cf)

/-- The bit of the value at a place. -/
def bitAt (val : BitVec 64) (i : Nat) : Bool := (val >>> i) &&& 1#64 ≠ 0

/-- OF after a rotation to the left: the top bit against the carry. -/
def leftOverflow (size : Size) (s : BitVec 64 × BitVec 64) : BitVec 64 × BitVec 64 :=
  (s.1, putFlag s.2 ofBit (bitAt s.1 (size.bits - 1) ^^ bitAt s.2 cfBit))

/-- OF after a rotation to the right: the two top bits. -/
def rightOverflow (size : Size) (s : BitVec 64 × BitVec 64) : BitVec 64 × BitVec 64 :=
  (s.1, putFlag s.2 ofBit (bitAt s.1 (size.bits - 1) ^^ bitAt s.1 (size.bits - 2)))

def Cpu.withFlags (v : Cpu) (s : BitVec 64 × BitVec 64) : BitVec 64 × Cpu :=
  (s.1, { v with rflags := s.2 })

/-- The branch of `vfl_do_shift` for SHL. -/
def Cpu.shiftLeft (v : Cpu) (val : BitVec 64) (count : Nat) (size : Size) : BitVec 64 × Cpu :=
  if count > size.bits then
    let v := v.flagLogic 0 size
    (0, { v with rflags := v.rflags &&& ~~~1#64 })
  else
    let cf := (val >>> (size.bits - count)) &&& 1#64
    let val := (val <<< count) &&& size.mask
    let v := v.flagLogic val size
    let f := v.rflags ||| cf
    let msb := (val >>> (size.bits - 1)) &&& 1#64
    (val, { v with rflags := if count = 1 ∧ msb ^^^ cf ≠ 0 then f ||| 1#64 <<< ofBit else f })

/-- The branch of `vfl_do_shift` for SHR. -/
def Cpu.shiftRight (v : Cpu) (val : BitVec 64) (count : Nat) (size : Size) : BitVec 64 × Cpu :=
  let cf := (val >>> (count - 1)) &&& 1#64
  let val := (val >>> count) &&& size.mask
  let v := v.flagLogic val size
  (val, { v with rflags := (v.rflags &&& ~~~(1#64 ||| 1#64 <<< ofBit)) ||| cf })

/-- The loop of SAR that fills in the sign: the top `count` bits of the operand. -/
def fillSign (size : Size) (val : BitVec 64) (count : Nat) : BitVec 64 :=
  (List.range count).foldl (fun val i => val ||| 1#64 <<< (size.bits - 1 - i)) val

/-- The branch of `vfl_do_shift` for SAR. -/
def Cpu.shiftArithmetic (v : Cpu) (val : BitVec 64) (count : Nat) (size : Size) : BitVec 64 × Cpu :=
  let sign := bitAt val (size.bits - 1)
  let cf := (val >>> (count - 1)) &&& 1#64
  let val :=
    if count ≥ size.bits then if sign then size.mask else 0
    else
      let val := (val >>> count) &&& size.mask
      if sign then fillSign size val count else val
  let v := v.flagLogic val size
  (val, { v with rflags := (v.rflags &&& ~~~(1#64 ||| 1#64 <<< ofBit)) ||| cf })

/-- The count of a shift, masked. -/
def maskedCount (size : Size) (count : Nat) : Nat := if size = .quad then count % 64 else count % 32

/-- `vfl_do_shift` -/
def Cpu.doShift (v : Cpu) (op : Fin 8) (val : BitVec 64) (count : Nat) (size : Size) :
    BitVec 64 × Cpu :=
  let count := maskedCount size count
  let val := val &&& size.mask
  if count = 0 then (val, v)
  else
    let (val, v) := match op with
      | 0 => v.withFlags (leftOverflow size ((rolStep size)^[count] (val, v.rflags)))
      | 1 => v.withFlags (rightOverflow size ((rorStep size)^[count] (val, v.rflags)))
      | 2 => v.withFlags (leftOverflow size ((rclStep size)^[count] (val, v.rflags)))
      | 3 => v.withFlags (rightOverflow size ((rcrStep size)^[count] (val, v.rflags)))
      | 4 | 6 => v.shiftLeft val count size
      | 5 => v.shiftRight val count size
      | 7 => v.shiftArithmetic val count size
    (val &&& size.mask, v)

end Shift

end Lebirun.Vfl
