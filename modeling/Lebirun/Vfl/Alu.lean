import Lebirun.Vfl.ShiftSpec

namespace Lebirun.Vfl
set_option autoImplicit true

section Flags

/-- A flag is raised. -/
def raise (f : BitVec 64) (i : Nat) (b : Bool) : BitVec 64 := if b then f ||| 1#64 <<< i else f

/-- What `vfl_flag_add` makes of the flags when they are not put off. -/
def addFlags (f a b carry r : BitVec 64) (size : Size) : BitVec 64 :=
  let full := (a &&& size.mask).toNat + (b &&& size.mask).toNat + carry.toNat
  let f := f &&& ~~~statusFlags
  let f := raise f cfBit (full / 2 ^ size.bits % 2 = 1)
  let f := raise f zfBit (r &&& size.mask = 0)
  let f := raise f sfBit (r &&& 1#64 <<< (size.bits - 1) ≠ 0)
  let f := raise f ofBit ((((a ^^^ r) &&& (b ^^^ r)) >>> (size.bits - 1)) &&& 1#64 ≠ 0)
  let f := raise f afBit ((a ^^^ b ^^^ r) &&& 0x10 ≠ 0)
  raise f pfBit (parity (r.setWidth 8))

/-- What `vfl_flag_sub` makes of the flags when they are not put off. -/
def subFlags (f a b borrow r : BitVec 64) (size : Size) : BitVec 64 :=
  let bb := (b &&& size.mask).toNat + borrow.toNat
  let f := f &&& ~~~statusFlags
  let f := raise f cfBit ((a &&& size.mask).toNat < bb)
  let f := raise f zfBit (r &&& size.mask = 0)
  let f := raise f sfBit (r &&& 1#64 <<< (size.bits - 1) ≠ 0)
  let f := raise f ofBit ((((a ^^^ b) &&& (a ^^^ r)) >>> (size.bits - 1)) &&& 1#64 ≠ 0)
  let f := raise f afBit ((a ^^^ b ^^^ r) &&& 0x10 ≠ 0)
  raise f pfBit (parity (r.setWidth 8))

/-- `vfl_flag_add` -/
def Cpu.flagAdd (v : Cpu) (a b carry r : BitVec 64) (size : Size) : Cpu :=
  if v.lazyEnabled then { v with pending := { op := 2, size, a, b, r, carry } }
  else { v with rflags := addFlags v.rflags a b carry r size }

/-- `vfl_flag_sub` -/
def Cpu.flagSub (v : Cpu) (a b borrow r : BitVec 64) (size : Size) : Cpu :=
  if v.lazyEnabled then { v with pending := { op := 3, size, a, b, r, carry := borrow } }
  else { v with rflags := subFlags v.rflags a b borrow r size }

/-- `vfl_flags_sync` -/
def Cpu.flagsSync (v : Cpu) : Cpu :=
  let l := v.pending
  if l.op = 0 then v
  else
    let enabled := v.lazyEnabled
    let v := { v with lazyEnabled := false, pending := { l with op := 0 } }
    let v :=
      if l.op = 1 then v.flagLogic l.r l.size
      else if l.op = 2 then v.flagAdd l.a l.b l.carry l.r l.size
      else v.flagSub l.a l.b l.carry l.r l.size
    { v with lazyEnabled := enabled }

end Flags

section Alu

/-- The `VFL_RMW_` operations. -/
inductive AluOp
  | add | or | adc | sbb | and | sub | xor | cmp | inc | dec | not | neg
deriving DecidableEq

/-- The operations that need the flags as they are. -/
def AluOp.syncs : AluOp → Bool
  | .adc | .sbb | .inc | .dec => true
  | _ => false

/-- The operations whose flags are never put off. -/
def AluOp.eager : AluOp → Bool
  | .inc | .dec => true
  | _ => false

/-- The carry is put back. -/
def Cpu.keepCarry (v : Cpu) (saved : BitVec 64) : Cpu :=
  { v with rflags := (v.rflags &&& ~~~1#64) ||| saved }

/-- `vfl_do_alu` -/
def Cpu.doAlu (v : Cpu) (op : AluOp) (a b : BitVec 64) (size : Size) : BitVec 64 × Cpu :=
  let m := size.mask
  let enabled := v.lazyEnabled
  let v := if op.syncs then v.flagsSync else v
  let v := if op.eager then { v with lazyEnabled := false } else v
  let cf := v.rflags &&& 1#64
  let (r, v) := match op with
    | .add => let r := (a + b) &&& m; (r, v.flagAdd a b 0 r size)
    | .or => let r := (a ||| b) &&& m; (r, v.flagLogic r size)
    | .adc => let r := ((a &&& m) + (b &&& m) + cf) &&& m; (r, v.flagAdd a b cf r size)
    | .sbb => let r := (a - b - cf) &&& m; (r, v.flagSub a b cf r size)
    | .and => let r := (a &&& b) &&& m; (r, v.flagLogic r size)
    | .sub | .cmp => let r := (a - b) &&& m; (r, v.flagSub a b 0 r size)
    | .xor => let r := (a ^^^ b) &&& m; (r, v.flagLogic r size)
    | .inc => let r := (a + 1) &&& m; (r, (v.flagAdd a 1 0 r size).keepCarry cf)
    | .dec => let r := (a - 1) &&& m; (r, (v.flagSub a 1 0 r size).keepCarry cf)
    | .not => ((~~~a) &&& m, v)
    | .neg => let r := (0 - a) &&& m; (r, v.flagSub 0 a 0 r size)
  (r, { v with lazyEnabled := enabled })

end Alu

end Lebirun.Vfl
