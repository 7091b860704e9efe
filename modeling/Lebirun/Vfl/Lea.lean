import Lebirun.Vfl.Cpu

namespace Lebirun.Vfl
set_option autoImplicit true

section Core

/-- The base and the selector of a segment register. -/
structure Segment where
  base : BitVec 64
  selector : BitVec 16

/-- The part of `vfl_vcpu_t` that addresses are made of. The segments are ES, CS, SS, DS, FS and GS. -/
structure Core extends Cpu where
  rip : BitVec 64
  cr0 : BitVec 64
  efer : BitVec 64
  segs : Fin 6 → Segment

/-- `vfl_long_mode` -/
def Core.longMode (v : Core) : Bool := (v.efer &&& 0x400 ≠ 0) && (v.cr0 &&& 0x80000000 ≠ 0)

def Core.protectedMode (v : Core) : Bool := v.cr0 &&& 1 ≠ 0

/-- `vfl_seg_base` -/
def Core.segBase (v : Core) (seg : Fin 6) : BitVec 64 :=
  if v.protectedMode then
    if v.longMode = true ∧ seg ≠ 4 ∧ seg ≠ 5 then 0 else (v.segs seg).base
  else (v.segs seg).selector.setWidth 64 <<< 4

def ripMask (lm prot : Bool) : BitVec 64 :=
  if lm then 0xFFFFFFFFFFFFFFFF else if prot then 0xFFFFFFFF else 0xFFFF

/-- `vfl_adv` -/
def Core.adv (v : Core) (n : Nat) (mask : BitVec 64) : Core :=
  { v with rip := (v.rip &&& ~~~mask) ||| ((v.rip + BitVec.ofNat 64 n) &&& mask) }

def Core.write (v : Core) (r : Fin 16) (rex : Bool) (size : Size) (val : BitVec 64) : Core :=
  { v with toCpu := v.toCpu.writeReg r rex size val }

end Core

section Prefixes

/-- What the prefixes of an instruction have set. -/
structure Prefixes where
  p66 : Bool := false
  p67 : Bool := false
  seg : Option (Fin 6) := none
  rex : Bool := false
  w : Bool := false
  r : Bool := false
  x : Bool := false
  b : Bool := false

/-- The prefixes once one more byte is read; `none` where it is no prefix. -/
def Prefixes.take (lm : Bool) (p : Prefixes) (op : BitVec 8) : Option Prefixes :=
  if op = 0x66 then some { p with p66 := true }
  else if op = 0x67 then some { p with p67 := true }
  else if op = 0x26 then some { p with seg := some 0 }
  else if op = 0x2E then some { p with seg := some 1 }
  else if op = 0x36 then some { p with seg := some 2 }
  else if op = 0x3E then some { p with seg := some 3 }
  else if op = 0x64 then some { p with seg := some 4 }
  else if op = 0x65 then some { p with seg := some 5 }
  else if op = 0xF0 ∨ op = 0xF2 ∨ op = 0xF3 then some p
  else if lm = true ∧ 0x40 ≤ op ∧ op ≤ 0x4F then
    some { p with
      rex := true, w := op.getLsbD 3, r := op.getLsbD 2, x := op.getLsbD 1, b := op.getLsbD 0 }
  else none

/-- The loop over the prefixes, with `left` bytes of the buffer to go, as far as the byte at `pos`. -/
def scanPrefixes (lm : Bool) (buf : Nat → BitVec 8) : Nat → Prefixes → Nat → Option (Prefixes × Nat)
  | 0, _, _ => none
  | left + 1, p, pos =>
    match p.take lm (buf pos) with
    | some p => scanPrefixes lm buf left p (pos + 1)
    | none => some (p, pos)

/-- The same loop in `vfl_hot_fill`, which gives up on LOCK and REP. -/
def hotPrefixes (lm : Bool) (buf : Nat → BitVec 8) : Nat → Prefixes → Nat → Option (Prefixes × Nat)
  | 0, _, _ => none
  | left + 1, p, pos =>
    if buf pos = 0xF0 ∨ buf pos = 0xF2 ∨ buf pos = 0xF3 then none
    else
      match p.take lm (buf pos) with
      | some p => hotPrefixes lm buf left p (pos + 1)
      | none => some (p, pos)

def operandSize (lm prot : Bool) (p : Prefixes) : Size :=
  if lm then if p.w then .quad else if p.p66 then .word else .long
  else if prot then if p.p66 then .word else .long
  else if p.p66 then .long else .word

def addressSize (lm prot : Bool) (p : Prefixes) : Size :=
  if lm then if p.p67 then .long else .quad
  else if prot then if p.p67 then .word else .long
  else if p.p67 then .long else .word

end Prefixes

section Operands

/-- Three bits of a byte, from `i` on. -/
def field (m : BitVec 8) (i : Nat) : Fin 8 := ((m >>> i).setWidth 3).toFin

def modField (m : BitVec 8) : Fin 4 := ((m >>> 6).setWidth 2).toFin

/-- A register number of three bits and one from REX. -/
def regNum (low : Fin 8) (ext : Bool) : Fin 16 := ((BitVec.ofBool ext) ++ (BitVec.ofFin low : BitVec 3)).toFin

def disp8 (buf : Nat → BitVec 8) (pos : Nat) : Option (BitVec 32 × Nat) :=
  if 15 < pos + 1 then none else some ((buf pos).signExtend 32, pos + 1)

def disp16 (buf : Nat → BitVec 8) (pos : Nat) : Option (BitVec 32 × Nat) :=
  if 15 < pos + 2 then none else some ((buf (pos + 1) ++ buf pos : BitVec 16).signExtend 32, pos + 2)

def disp32 (buf : Nat → BitVec 8) (pos : Nat) : Option (BitVec 32 × Nat) :=
  if 15 < pos + 4 then none
  else some (buf (pos + 3) ++ buf (pos + 2) ++ buf (pos + 1) ++ buf pos, pos + 4)

/-- `vfl_ea_t` -/
structure Ea where
  isReg : Bool := false
  reg : Fin 16 := 0
  addr : BitVec 64 := 0
  ripRel : Bool := false
  disp : BitVec 32 := 0

/-- The base and the segment of an operand with a 16-bit address. -/
def Core.base16 (v : Core) (mod : Fin 4) (rm : Fin 8) : BitVec 16 × Fin 6 :=
  match rm with
  | 0 => ((v.regs 3 + v.regs 6).setWidth 16, 3)
  | 1 => ((v.regs 3 + v.regs 7).setWidth 16, 3)
  | 2 => ((v.regs 5 + v.regs 6).setWidth 16, 2)
  | 3 => ((v.regs 5 + v.regs 7).setWidth 16, 2)
  | 4 => ((v.regs 6).setWidth 16, 3)
  | 5 => ((v.regs 7).setWidth 16, 3)
  | 6 => if mod = 0 then (0, 3) else ((v.regs 5).setWidth 16, 2)
  | 7 => ((v.regs 3).setWidth 16, 3)

/-- The registers of an operand with a longer address, as the ModRM and SIB bytes name them. -/
structure Parts where
  base : BitVec 64 := 0
  idx : BitVec 64 := 0
  scl : Nat := 0
  seg : Fin 6 := 3
  disp : BitVec 32 := 0
  ripRel : Bool := false

/-- The part of `vfl_decode_ea` before the displacement of a byte or of four bytes. -/
def Core.parts (v : Core) (buf : Nat → BitVec 8) (pos : Nat) (mod : Fin 4) (rm : Fin 8) (asz : Size)
    (rexB rexX : Bool) : Option (Parts × Nat) :=
  if rm = 4 then
    if 15 < pos + 1 then none
    else
      let sib := buf pos
      let sc := (modField sib).val
      let ix := regNum (field sib 3) rexX
      let bs := regNum (field sib 0) rexB
      let p : Parts := if ix ≠ 4 ∨ rexX = true then { idx := v.regs ix, scl := sc } else {}
      if mod = 0 ∧ field sib 0 = 5 then
        (disp32 buf (pos + 1)).map fun (d, pos) => ({ p with disp := d }, pos)
      else
        some ({ p with base := v.regs bs, seg := if field sib 0 = 4 ∨ field sib 0 = 5 then 2 else 3 }, pos + 1)
  else if mod = 0 ∧ rm = 5 then
    (disp32 buf pos).map fun (d, pos) => ({ disp := d, ripRel := v.longMode && asz = .quad }, pos)
  else some ({ base := v.regs (regNum rm rexB), seg := if rm = 4 ∨ rm = 5 then 2 else 3 }, pos)

/-- `vfl_decode_ea`, with `rm` the three bits of the byte -/
def Core.decodeEa (v : Core) (buf : Nat → BitVec 8) (pos : Nat) (mod : Fin 4) (rm : Fin 8) (asz : Size)
    (segOvr : Option (Fin 6)) (rexB rexX : Bool) : Option (Ea × Nat) :=
  if mod = 3 then some ({ isReg := true, reg := regNum rm rexB }, pos)
  else if asz = .word then
    let (base, seg) := v.base16 mod rm
    let disp :=
      if mod = 0 ∧ rm = 6 then disp16 buf pos
      else if mod = 1 then disp8 buf pos
      else if mod = 2 then disp16 buf pos
      else some (0, pos)
    disp.map fun (disp, pos) =>
      ({ addr := v.segBase (segOvr.getD seg) + (base + disp.setWidth 16).setWidth 64 }, pos)
  else
    (v.parts buf pos mod rm asz rexB rexX).bind fun (p, pos) =>
      if p.ripRel then some ({ ripRel := true, disp := p.disp }, pos)
      else
        let disp :=
          if mod = 1 then disp8 buf pos
          else if mod = 2 then disp32 buf pos
          else some (p.disp, pos)
        disp.map fun (disp, pos) =>
          let sum := p.base + p.idx <<< p.scl + disp.signExtend 64
          let base := v.segBase (segOvr.getD p.seg)
          ({ addr := if asz = .long then base + (sum.setWidth 32).setWidth 64 else base + sum }, pos)

end Operands

section Step

/-- What a step comes to. -/
inductive Outcome
  | next (v : Core)
  | exception (vector : Nat)
  | internal
  | other

/-- `vfl_step`, for the bytes it has fetched, as far as LEA -/
def Core.stepLea (v : Core) (buf : Nat → BitVec 8) : Outcome :=
  let lm := v.longMode
  let prot := v.protectedMode
  match scanPrefixes lm buf 15 {} 0 with
  | none => .internal
  | some (p, pos) =>
    let osz := operandSize lm prot p
    let asz := addressSize lm prot p
    if buf pos ≠ 0x8D then .other
    else if 15 ≤ pos + 1 then .internal
    else
      let m := buf (pos + 1)
      let reg := regNum (field m 3) p.r
      if modField m = 3 then .exception 6
      else
        match v.decodeEa buf (pos + 2) (modField m) (field m 0) asz p.seg p.b p.x with
        | none => .internal
        | some (ea, n) =>
          let addr :=
            if ea.ripRel then (v.rip + BitVec.ofNat 64 n + ea.disp.signExtend 64) &&& ripMask lm prot
            else ea.addr
          let val :=
            if asz = .word then addr &&& 0xFFFF
            else if asz = .long ∨ lm = false then addr &&& 0xFFFFFFFF
            else addr
          .next ((v.write reg p.rex osz val).adv n (ripMask lm prot))

end Step

section Hot

/-- The base register of an operand: `sib_base` is -1 for none and -2 for the instruction pointer. -/
inductive HotBase
  | none
  | rip
  | reg (r : Fin 16)

/-- The fields of `vfl_hot_op_t` that LEA uses. -/
structure HotOp where
  len : Nat := 0
  reg : Fin 16 := 0
  size : Size
  asz : Size
  seg : Fin 6 := 0
  rex : Bool
  imm : BitVec 64 := 0
  ripmask : BitVec 64
  eamod : Fin 4 := 0
  ea16rm : Fin 8 := 0
  sibScale : Nat := 0
  sibIndex : Option (Fin 16) := none
  sibBase : HotBase := .none
  disp : BitVec 32 := 0

/-- The SIB byte and what stands for it in `vfl_hot_parse_ea`, with the default segment. -/
def hotParts (h : HotOp) (buf : Nat → BitVec 8) (pos : Nat) (mod : Fin 4) (rm : Fin 8) (asz : Size)
    (rexB rexX lm : Bool) : Option (HotOp × Fin 6 × Nat) :=
  if rm = 4 then
    if 15 < pos + 1 then none
    else
      let sib := buf pos
      let ix := regNum (field sib 3) rexX
      let h := { h with
        sibScale := (modField sib).val, sibIndex := if ix ≠ 4 ∨ rexX = true then some ix else none }
      if mod = 0 ∧ field sib 0 = 5 then
        (disp32 buf (pos + 1)).map fun (d, pos) => ({ h with disp := d, sibBase := .none }, 3, pos)
      else
        some ({ h with sibBase := .reg (regNum (field sib 0) rexB) },
          if field sib 0 = 4 ∨ field sib 0 = 5 then 2 else 3, pos + 1)
  else
    let h := { h with sibScale := 0, sibIndex := none }
    if mod = 0 ∧ rm = 5 then
      (disp32 buf pos).map fun (d, pos) =>
        ({ h with disp := d, sibBase := if lm = true ∧ asz = .quad then .rip else .none }, 3, pos)
    else some ({ h with sibBase := .reg (regNum rm rexB) }, if rm = 4 ∨ rm = 5 then 2 else 3, pos)

/-- `vfl_hot_parse_ea` for an operand in memory -/
def hotParseEa (h : HotOp) (buf : Nat → BitVec 8) (pos : Nat) (mod : Fin 4) (rm : Fin 8) (asz : Size)
    (rexB rexX : Bool) (segOvr : Option (Fin 6)) (lm : Bool) : Option (HotOp × Nat) :=
  let h := { h with eamod := mod, ea16rm := 0, sibScale := 0, sibIndex := none, sibBase := .none, disp := 0 }
  if asz = .word then
    let disp :=
      if mod = 0 ∧ rm = 6 then disp16 buf pos
      else if mod = 1 then disp8 buf pos
      else if mod = 2 then disp16 buf pos
      else some (0, pos)
    let seg := if rm = 2 ∨ rm = 3 ∨ (rm = 6 ∧ mod ≠ 0) then 2 else 3
    disp.map fun (disp, pos) => ({ h with ea16rm := rm, disp, seg := segOvr.getD seg }, pos)
  else
    (hotParts h buf pos mod rm asz rexB rexX lm).bind fun (h, seg, pos) =>
      let disp :=
        if mod = 1 then disp8 buf pos
        else if mod = 2 then disp32 buf pos
        else some (h.disp, pos)
      disp.map fun (disp, pos) => ({ h with disp, seg := segOvr.getD seg }, pos)

/-- `vfl_hot_fill` for LEA: the entry that is stored, where one is. -/
def hotFillLea (lm prot : Bool) (buf : Nat → BitVec 8) : Option HotOp :=
  (hotPrefixes lm buf 15 {} 0).bind fun (p, pos) =>
    let osz := operandSize lm prot p
    let asz := addressSize lm prot p
    if buf pos ≠ 0x8D then none
    else if 15 ≤ pos + 1 then none
    else
      let m := buf (pos + 1)
      if modField m = 3 then none
      else
        let h : HotOp :=
          { size := osz, asz, rex := p.rex, ripmask := ripMask lm prot, reg := regNum (field m 3) p.r }
        (hotParseEa h buf (pos + 2) (modField m) (field m 0) asz p.b p.x p.seg lm).map fun (h, pos) =>
          let imm :=
            if asz = .word then 0xFFFF else if asz = .long ∨ lm = false then 0xFFFFFFFF else 0xFFFFFFFFFFFFFFFF
          { h with imm, len := pos }

/-- `vfl_hot_ea` for an operand in memory -/
def Core.hotEa (v : Core) (h : HotOp) : BitVec 64 :=
  if h.asz = .word then
    v.segBase h.seg + ((v.base16 h.eamod h.ea16rm).1 + h.disp.setWidth 16).setWidth 64
  else
    let address (base : BitVec 64) : BitVec 64 :=
      let idx := h.sibIndex.elim 0 fun r => v.regs r <<< h.sibScale
      let sum := base + idx + h.disp.signExtend 64
      if h.asz = .long then v.segBase h.seg + (sum.setWidth 32).setWidth 64 else v.segBase h.seg + sum
    match h.sibBase with
    | .rip => (v.rip + BitVec.ofNat 64 h.len + h.disp.signExtend 64) &&& h.ripmask
    | .none => address 0
    | .reg r => address (v.regs r)

/-- `vfl_hot_lea` -/
def Core.hotLea (v : Core) (h : HotOp) : Core :=
  (v.write h.reg h.rex h.size (v.hotEa h &&& h.imm)).adv h.len h.ripmask

end Hot

end Lebirun.Vfl
