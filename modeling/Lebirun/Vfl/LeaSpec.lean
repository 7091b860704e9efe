import Mathlib.Tactic.FinCases
import Lebirun.Lib.Halves
import Lebirun.Vfl.Lea
import Lebirun.Vfl.MulDiv

namespace Lebirun.Vfl
open Halves
set_option autoImplicit true

section Forms

/-- An address as the architecture writes it: base + index * scale + displacement, where the base may
be the address of the next instruction. `seg` is the segment it is meant for. -/
structure Form where
  relative : Bool := false
  base : Option (Fin 16) := none
  index : Option (Fin 16) := none
  scale : Nat := 0
  disp : BitVec 32 := 0
  seg : Fin 6 := 3

/-- The registers of the 16-bit forms. -/
def Form.short (mod : Fin 4) (rm : Fin 8) : Form :=
  match rm with
  | 0 => { base := some 3, index := some 6 }
  | 1 => { base := some 3, index := some 7 }
  | 2 => { base := some 5, index := some 6, seg := 2 }
  | 3 => { base := some 5, index := some 7, seg := 2 }
  | 4 => { base := some 6 }
  | 5 => { base := some 7 }
  | 6 => if mod = 0 then {} else { base := some 5, seg := 2 }
  | 7 => { base := some 3 }

/-- The displacement that the mode field asks for, of a byte or of `long` bytes. -/
def dispOf (long : (Nat → BitVec 8) → Nat → Option (BitVec 32 × Nat)) (mod : Fin 4)
    (buf : Nat → BitVec 8) (d : BitVec 32) (pos : Nat) : Option (BitVec 32 × Nat) :=
  if mod = 1 then disp8 buf pos else if mod = 2 then long buf pos else some (d, pos)

/-- The registers of the longer forms, with the displacement where no register stands. -/
def Form.long (lm : Bool) (buf : Nat → BitVec 8) (pos : Nat) (mod : Fin 4) (rm : Fin 8)
    (rexB rexX : Bool) : Option (Form × Nat) :=
  if rm = 4 then
    if 15 < pos + 1 then none
    else
      let sib := buf pos
      let ix := regNum (field sib 3) rexX
      let index := if ix = 4 then none else some ix
      let scale := (modField sib).val
      if mod = 0 ∧ field sib 0 = 5 then
        (disp32 buf (pos + 1)).map fun (d, pos) => ({ index, scale, disp := d }, pos)
      else
        let seg := if field sib 0 = 4 ∨ field sib 0 = 5 then 2 else 3
        some ({ base := some (regNum (field sib 0) rexB), index, scale, seg }, pos + 1)
  else if mod = 0 ∧ rm = 5 then
    (disp32 buf pos).map fun (d, pos) => ({ relative := lm, disp := d }, pos)
  else some ({ base := some (regNum rm rexB), seg := if rm = 5 then 2 else 3 }, pos)

def Form.read (lm : Bool) (asz : Size) (buf : Nat → BitVec 8) (pos : Nat) (mod : Fin 4) (rm : Fin 8)
    (rexB rexX : Bool) : Option (Form × Nat) :=
  if asz = .word then
    (if mod = 0 ∧ rm = 6 then disp16 buf pos else dispOf disp16 mod buf 0 pos).map fun (d, pos) =>
      ({ Form.short mod rm with disp := d }, pos)
  else
    (Form.long lm buf pos mod rm rexB rexX).bind fun (f, pos) =>
      (dispOf disp32 mod buf f.disp pos).map fun (d, pos) => ({ f with disp := d }, pos)

/-- The offset of an address, as a number. -/
def Form.offset (f : Form) (v : Core) (next : BitVec 64) : Int :=
  (if f.relative then next.toNat else 0) + (f.base.elim 0 fun r => ((v.regs r).toNat : Int)) +
    (f.index.elim 0 fun r => ((v.regs r).toNat * 2 ^ f.scale : Int)) + f.disp.toInt

/-- A LEA instruction. -/
structure LeaInstr where
  reg : Fin 16
  rex : Bool
  osz : Size
  asz : Size
  form : Form
  seg : Fin 6
  len : Nat

/-- The instruction at the front of the bytes, where it is a LEA. -/
def leaInstr (lm prot : Bool) (buf : Nat → BitVec 8) : Option LeaInstr :=
  (scanPrefixes lm buf 15 {} 0).bind fun (p, pos) =>
    let m := buf (pos + 1)
    if buf pos = 0x8D ∧ pos + 1 < 15 ∧ modField m ≠ 3 then
      (Form.read lm (addressSize lm prot p) buf (pos + 2) (modField m) (field m 0) p.b p.x).map fun (f, n) =>
        { reg := regNum (field m 3) p.r, rex := p.rex, osz := operandSize lm prot p,
          asz := addressSize lm prot p, form := f, seg := p.seg.getD f.seg, len := n }
    else none

def LeaInstr.next (i : LeaInstr) (v : Core) : BitVec 64 := v.rip + BitVec.ofNat 64 i.len

/-- The value of LEA: the offset, reduced to the address size. -/
def LeaInstr.value (i : LeaInstr) (v : Core) : BitVec 64 :=
  (BitVec.ofInt i.asz.bits (i.form.offset v (i.next v))).setWidth 64

/-- The state after a LEA that writes `val`. -/
def LeaInstr.finish (i : LeaInstr) (v : Core) (val : BitVec 64) : Core :=
  (v.write i.reg i.rex i.osz val).adv i.len (ripMask v.longMode v.protectedMode)

/-- The bits of the result that are left of an address. -/
def LeaInstr.width (i : LeaInstr) : Nat := min i.asz.bits i.osz.bits

/-- What stands in the sum for the segment in the source: its base, with the address of the next
instruction missing where a relative form has a 32-bit address. -/
def LeaInstr.bias (i : LeaInstr) (v : Core) : Int :=
  if i.form.relative then if i.asz = .quad then 0 else (v.segBase i.seg).toNat - (i.next v).toNat
  else (v.segBase i.seg).toNat

/-- The bias does not show in the result. -/
def LeaInstr.Unbiased (i : LeaInstr) (v : Core) : Prop := (2 : Int) ^ i.width ∣ i.bias v

end Forms

section Arithmetic

/-- A sum of words, cut to fewer bits. -/
theorem ofInt_toNat (x : BitVec 64) (hw : w ≤ 64) : BitVec.ofInt w x.toNat = x.setWidth w := by
  rw [BitVec.ofInt_natCast, ← BitVec.setWidth_ofNat_of_le hw, BitVec.ofNat_toNat, BitVec.setWidth_eq]

theorem ofInt_disp (d : BitVec 32) (hw : w ≤ 64) : BitVec.ofInt w d.toInt = (d.signExtend 64).setWidth w := by
  rw [← setWidth_ofInt _ hw]
  congr 1

theorem ofInt_shifted (x : BitVec 64) (s : Nat) (hw : w ≤ 64) :
    BitVec.ofInt w (x.toNat * 2 ^ s) = (x <<< s).setWidth w := by
  rw [← setWidth_ofInt _ hw]
  congr 1
  apply BitVec.eq_of_toNat_eq
  have h : ((x.toNat : Int) * 2 ^ s) = ((x.toNat * 2 ^ s : Nat) : Int) := by push_cast; rfl
  rw [h, BitVec.ofInt_natCast, BitVec.toNat_ofNat, BitVec.toNat_shiftLeft, Nat.shiftLeft_eq]

theorem ofInt_eq_iff (w : Nat) (m n : Int) : BitVec.ofInt w m = BitVec.ofInt w n ↔ (2 : Int) ^ w ∣ m - n := by
  rw [Int.dvd_iff_emod_eq_zero, ← Int.emod_eq_emod_iff_emod_sub_eq_zero, ← toNat_ofInt, ← toNat_ofInt,
    Int.natCast_inj, BitVec.toNat_inj]

/-- A number cut to `a` bits, kept in a word and cut to `b` bits. -/
theorem setWidth_twice (n : Int) (hb : b ≤ 64) :
    (((BitVec.ofInt a n).setWidth 64).setWidth b).setWidth (min a b) = BitVec.ofInt (min a b) n := by
  rw [BitVec.setWidth_setWidth_of_le _ (Nat.min_le_right a b),
    BitVec.setWidth_setWidth_of_le _ (le_trans (Nat.min_le_right a b) hb), setWidth_ofInt _ (Nat.min_le_left a b)]

theorem reduced_eq_iff (m n : Int) (hb : b ≤ 64) :
    ((BitVec.ofInt a m).setWidth 64).setWidth b = ((BitVec.ofInt a n).setWidth 64).setWidth b ↔
      (2 : Int) ^ min a b ∣ m - n := by
  rw [← ofInt_eq_iff]
  constructor
  · intro h
    rw [← setWidth_twice m hb, h, setWidth_twice n hb]
  · intro h
    rcases Nat.le_total a b with hab | hab
    · rw [Nat.min_eq_left hab] at h
      rw [h]
    · rw [Nat.min_eq_right hab] at h
      rw [BitVec.setWidth_setWidth_of_le _ hb, BitVec.setWidth_setWidth_of_le _ hb]
      rw [setWidth_ofInt _ hab, setWidth_ofInt _ hab, h]

end Arithmetic

section Decoding

variable {buf : Nat → BitVec 8} {mod : Fin 4} {rm : Fin 8} {asz : Size}

def Form.baseOf (f : Form) (v : Core) : BitVec 64 := f.base.elim 0 v.regs

def Form.indexOf (f : Form) (v : Core) : BitVec 64 := f.index.elim 0 fun r => v.regs r <<< f.scale

/-- The sum that the source forms of registers and displacement. -/
def Form.sum (f : Form) (v : Core) : BitVec 64 := f.baseOf v + f.indexOf v + f.disp.signExtend 64

/-- The operand of a form in the source. -/
def Core.eaOf (v : Core) (f : Form) (asz : Size) (seg : Fin 6) : Ea :=
  if f.relative = true ∧ asz = .quad then { ripRel := true, disp := f.disp }
  else { addr := v.segBase seg + lift ((f.sum v).setWidth asz.bits) }

theorem base16_eq (v : Core) (mod : Fin 4) (rm : Fin 8) :
    v.base16 mod rm =
      (((Form.short mod rm).baseOf v + (Form.short mod rm).indexOf v).setWidth 16, (Form.short mod rm).seg) := by
  unfold Core.base16 Form.short
  fin_cases rm
  · simp [Form.baseOf, Form.indexOf]
  · simp [Form.baseOf, Form.indexOf]
  · simp [Form.baseOf, Form.indexOf]
  · simp [Form.baseOf, Form.indexOf]
  · simp [Form.baseOf, Form.indexOf]
  · simp [Form.baseOf, Form.indexOf]
  · by_cases hmod : mod = 0
    · simp [hmod, Form.baseOf, Form.indexOf]
    · simp [hmod, Form.baseOf, Form.indexOf]
  · simp [Form.baseOf, Form.indexOf]

theorem short_relative (mod : Fin 4) (rm : Fin 8) : (Form.short mod rm).relative = false := by
  unfold Form.short
  fin_cases rm
  case «6» => by_cases hmod : mod = 0 <;> simp [hmod]
  all_goals rfl

theorem regNum_ext (low : Fin 8) : regNum low true ≠ 4 := by
  revert low
  decide

theorem parts_eq (v : Core) (pos : Nat) (rexB rexX : Bool) :
    v.parts buf pos mod rm asz rexB rexX =
      (Form.long v.longMode buf pos mod rm rexB rexX).map fun (f, p) =>
        ({ base := f.baseOf v, idx := f.index.elim 0 v.regs, scl := f.index.elim 0 fun _ => f.scale,
           seg := f.seg, disp := f.disp, ripRel := f.relative && asz = .quad }, p) := by
  unfold Core.parts Form.long
  by_cases hrm : rm = 4
  · rw [if_pos hrm, if_pos hrm]
    by_cases hpos : 15 < pos + 1
    · rw [if_pos hpos, if_pos hpos]
      rfl
    · rw [if_neg hpos, if_neg hpos]
      by_cases hnone : regNum (field (buf pos) 3) rexX = 4
      · have hx : rexX = false := by
          rw [Bool.eq_false_iff]
          rintro rfl
          exact regNum_ext _ hnone
        simp only [hx] at hnone ⊢
        simp only [hnone, ne_eq, not_true_eq_false, Bool.false_eq_true, or_self, if_false, if_true]
        split
        · cases disp32 buf (pos + 1) <;> rfl
        · rfl
      · simp only [hnone, ne_eq, not_false_eq_true, true_or, if_true, if_false]
        split
        · cases disp32 buf (pos + 1) <;> rfl
        · rfl
  · rw [if_neg hrm, if_neg hrm]
    split
    · cases disp32 buf pos <;> rfl
    · simp [hrm, Form.baseOf]

/-- A form without a base register has no other displacement to read. -/
theorem long_relative (h : Form.long lm buf pos mod rm rexB rexX = some (f, p)) (hrel : f.relative = true) :
    mod = 0 ∧ f.base = none ∧ f.index = none := by
  unfold Form.long at h
  split at h
  · split at h
    · cases h
    · dsimp only at h
      split at h
      · obtain ⟨⟨d, q⟩, -, heq⟩ := Option.map_eq_some_iff.1 h
        cases heq
        cases hrel
      · cases h
        cases hrel
  · split at h
    · obtain ⟨⟨d, q⟩, -, heq⟩ := Option.map_eq_some_iff.1 h
      cases heq
      rename_i hmod
      exact ⟨hmod.1, rfl, rfl⟩
    · cases h
      cases hrel

theorem Form.sum_word (f : Form) (v : Core) :
    (f.baseOf v + f.indexOf v).setWidth 16 + f.disp.setWidth 16 = (f.sum v).setWidth 16 := by
  have hdisp : (f.disp.signExtend 64).setWidth 16 = f.disp.setWidth 16 := by
    apply BitVec.eq_of_getLsbD_eq
    intro i hi
    rw [BitVec.getLsbD_setWidth, BitVec.getLsbD_setWidth, BitVec.getLsbD_signExtend]
    simp [hi, lt_trans hi (by decide : 16 < 64), lt_trans hi (by decide : 16 < 32)]
  unfold Form.sum
  rw [BitVec.setWidth_add _ (f.disp.signExtend 64) (by decide), hdisp]

theorem shifted_index (f : Form) (v : Core) :
    (f.index.elim 0 v.regs) <<< (f.index.elim 0 fun _ => f.scale) = f.indexOf v := by
  unfold Form.indexOf
  cases f.index <;> simp

theorem disp_eq (f : (BitVec 32 × Nat) → β) (long) (d : BitVec 32) (pos : Nat) :
    (if mod = 1 then disp8 buf pos else if mod = 2 then long buf pos else some (d, pos)).map f =
      (dispOf long mod buf d pos).map f := rfl

theorem addr_eq (v : Core) (seg : Fin 6) (sum : BitVec 64) (hword : asz ≠ .word) (hbyte : asz ≠ .byte) :
    (if asz = .long then v.segBase seg + (sum.setWidth 32).setWidth 64 else v.segBase seg + sum) =
      v.segBase seg + lift (sum.setWidth asz.bits) := by
  cases asz with
  | byte => exact absurd rfl hbyte
  | word => exact absurd rfl hword
  | long => rfl
  | quad =>
    rw [if_neg (by decide)]
    have h : lift (sum.setWidth Size.quad.bits) = sum := by
      unfold lift
      rw [show Size.quad.bits = 64 from rfl, BitVec.setWidth_eq, BitVec.setWidth_eq]
    rw [h]

/-- `vfl_decode_ea` finds the form, and adds the base of the segment. -/
theorem decodeEa_eq (v : Core) (pos : Nat) (segOvr : Option (Fin 6)) (rexB rexX : Bool) (hmod : mod ≠ 3) (hbyte : asz ≠ .byte) :
    v.decodeEa buf pos mod rm asz segOvr rexB rexX =
      (Form.read v.longMode asz buf pos mod rm rexB rexX).map fun (f, p) =>
        (v.eaOf f asz (segOvr.getD f.seg), p) := by
  unfold Core.decodeEa Form.read
  rw [if_neg hmod]
  by_cases hasz : asz = .word
  · rw [if_pos hasz, if_pos hasz, base16_eq]
    dsimp only
    subst hasz
    rw [show (if mod = 0 ∧ rm = 6 then disp16 buf pos else dispOf disp16 mod buf 0 pos) =
      (if mod = 0 ∧ rm = 6 then disp16 buf pos else if mod = 1 then disp8 buf pos
        else if mod = 2 then disp16 buf pos else some (0, pos)) from rfl, Option.map_map]
    congr 1
    funext ⟨d, p⟩
    have hrel := short_relative mod rm
    have hsum := Form.sum_word { Form.short mod rm with disp := d } v
    simp only [Function.comp, Core.eaOf, hrel, Bool.false_eq_true, false_and, if_false]
    have haddr : (((Form.short mod rm).baseOf v + (Form.short mod rm).indexOf v).setWidth 16 + d.setWidth 16).setWidth 64 =
        lift ((Form.sum { Form.short mod rm with disp := d } v).setWidth Size.word.bits) := congrArg lift hsum
    rw [haddr]
    simp only [hrel]
  · rw [if_neg hasz, if_neg hasz, parts_eq]
    cases hlong : Form.long v.longMode buf pos mod rm rexB rexX with
    | none => rfl
    | some fp =>
      obtain ⟨f, p⟩ := fp
      by_cases hrel : f.relative = true ∧ asz = .quad
      · obtain ⟨hmod₀, -⟩ := long_relative hlong hrel.1
        simp [hrel.1, hrel.2, dispOf, hmod₀, Core.eaOf]
      · have hrel' : (f.relative && decide (asz = .quad)) = false := by
          rw [Bool.eq_false_iff]
          intro h
          apply hrel
          simpa using h
        simp only [Option.map_some, Option.bind_some, hrel', Bool.false_eq_true, if_false, disp_eq, Option.map_map]
        congr 1
        funext ⟨d, q⟩
        simp only [Function.comp, Core.eaOf]
        rw [if_neg hrel, shifted_index, addr_eq v _ _ hasz hbyte]
        rfl

/-- The entry that stands for a form. -/
def hotOf (h : HotOp) (f : Form) (asz : Size) (mod : Fin 4) (rm : Fin 8) (seg : Fin 6) : HotOp :=
  if asz = .word then
    { h with eamod := mod, ea16rm := rm, sibScale := 0, sibIndex := none, sibBase := .none, disp := f.disp, seg }
  else
    { h with
      eamod := mod, ea16rm := 0, sibScale := f.scale, sibIndex := f.index
      sibBase := if f.relative = true ∧ asz = .quad then .rip else f.base.elim .none .reg
      disp := f.disp, seg }

/-- The SIB byte and what stands for it, in the other decoder. -/
theorem hotParts_eq (h : HotOp) (pos : Nat) (rexB rexX lm : Bool) (hdisp : h.disp = 0) :
    hotParts h buf pos mod rm asz rexB rexX lm =
      (Form.long lm buf pos mod rm rexB rexX).map fun (f, p) =>
        ({ h with
          sibScale := f.scale, sibIndex := f.index
          sibBase := if f.relative = true ∧ asz = .quad then .rip else f.base.elim .none .reg
          disp := f.disp }, f.seg, p) := by
  unfold hotParts Form.long
  by_cases hrm : rm = 4
  · rw [if_pos hrm, if_pos hrm]
    by_cases hpos : 15 < pos + 1
    · rw [if_pos hpos, if_pos hpos]
      rfl
    · rw [if_neg hpos, if_neg hpos]
      by_cases hnone : regNum (field (buf pos) 3) rexX = 4
      · have hx : rexX = false := by
          rw [Bool.eq_false_iff]
          rintro rfl
          exact regNum_ext _ hnone
        simp only [hx] at hnone ⊢
        simp only [hnone, ne_eq, not_true_eq_false, Bool.false_eq_true, or_self, if_false, if_true]
        split
        · cases disp32 buf (pos + 1) <;> rfl
        · rw [hdisp]
          rfl
      · simp only [hnone, ne_eq, not_false_eq_true, true_or, if_true, if_false]
        split
        · cases disp32 buf (pos + 1) <;> rfl
        · rw [hdisp]
          rfl
  · rw [if_neg hrm, if_neg hrm]
    split
    · cases disp32 buf pos <;> rfl
    · simp [hrm, hdisp]

theorem short_seg (mod : Fin 4) (rm : Fin 8) :
    (if rm = 2 ∨ rm = 3 ∨ (rm = 6 ∧ mod ≠ 0) then 2 else 3) = (Form.short mod rm).seg := by
  unfold Form.short
  fin_cases rm
  case «6» => by_cases hmod : mod = 0 <;> simp [hmod]
  all_goals rfl

/-- `vfl_hot_parse_ea` finds the same form. -/
theorem hotParseEa_eq (h : HotOp) (pos : Nat) (segOvr : Option (Fin 6)) (rexB rexX lm : Bool) :
    hotParseEa h buf pos mod rm asz rexB rexX segOvr lm =
      (Form.read lm asz buf pos mod rm rexB rexX).map fun (f, p) =>
        (hotOf h f asz mod rm (segOvr.getD f.seg), p) := by
  unfold hotParseEa Form.read hotOf
  by_cases hasz : asz = .word
  · simp only [if_pos hasz, short_seg]
    rw [show (if mod = 0 ∧ rm = 6 then disp16 buf pos else dispOf disp16 mod buf 0 pos) =
      (if mod = 0 ∧ rm = 6 then disp16 buf pos else if mod = 1 then disp8 buf pos
        else if mod = 2 then disp16 buf pos else some (0, pos)) from rfl, Option.map_map]
    rfl
  · simp only [if_neg hasz]
    rw [hotParts_eq _ _ _ _ _ rfl]
    cases hlong : Form.long lm buf pos mod rm rexB rexX with
    | none => rfl
    | some fp =>
      obtain ⟨f, p⟩ := fp
      simp only [Option.map_some, Option.bind_some, disp_eq, Option.map_map]
      rfl

theorem read_word (h : Form.read lm .word buf pos mod rm rexB rexX = some (f, p)) :
    f = { Form.short mod rm with disp := f.disp } := by
  unfold Form.read at h
  rw [if_pos rfl] at h
  obtain ⟨⟨d, q⟩, -, heq⟩ := Option.map_eq_some_iff.1 h
  cases heq
  rfl

/-- Forms relative to the instruction have no registers. -/
theorem read_relative (h : Form.read lm asz buf pos mod rm rexB rexX = some (f, p)) (hrel : f.relative = true) :
    f.base = none ∧ f.index = none := by
  by_cases hasz : asz = .word
  · rw [hasz] at h
    rw [read_word h] at hrel
    rw [short_relative] at hrel
    cases hrel
  · unfold Form.read at h
    rw [if_neg hasz] at h
    obtain ⟨⟨g, q⟩, hlong, h⟩ := Option.bind_eq_some_iff.1 h
    obtain ⟨⟨d, r⟩, -, heq⟩ := Option.map_eq_some_iff.1 h
    cases heq
    exact (long_relative hlong hrel).2

theorem hotOf_keeps (h : HotOp) (f : Form) (asz : Size) (mod : Fin 4) (rm : Fin 8) (seg : Fin 6) :
    (hotOf h f asz mod rm seg).reg = h.reg ∧ (hotOf h f asz mod rm seg).size = h.size ∧
      (hotOf h f asz mod rm seg).rex = h.rex ∧ (hotOf h f asz mod rm seg).ripmask = h.ripmask := by
  unfold hotOf
  split
  · exact ⟨rfl, rfl, rfl, rfl⟩
  · exact ⟨rfl, rfl, rfl, rfl⟩

/-- The address an entry stands for. -/
theorem hotEa_eq (v : Core) (h : HotOp) (seg : Fin 6) (imm : BitVec 64) (len : Nat) (hasz : h.asz = asz)
    (hbyte : asz ≠ .byte) (hread : Form.read lm asz buf pos mod rm rexB rexX = some (f, p)) :
    v.hotEa { hotOf h f asz mod rm seg with imm, len } =
      if f.relative = true ∧ asz = .quad then
        (v.rip + BitVec.ofNat 64 len + f.disp.signExtend 64) &&& h.ripmask
      else v.segBase seg + lift ((f.sum v).setWidth asz.bits) := by
  unfold Core.hotEa hotOf
  by_cases hword : asz = .word
  · subst hword
    have hrel : f.relative = false := by
      rw [read_word hread]
      exact short_relative mod rm
    have hsum := Form.sum_word f v
    rw [read_word hread] at hsum
    simp only [if_true, hasz, hrel, Bool.false_eq_true, false_and, if_false, base16_eq]
    rw [read_word hread]
    exact congrArg (fun y => v.segBase seg + lift y) hsum
  · simp only [if_neg hword, hasz]
    by_cases hrel : f.relative = true ∧ asz = .quad
    · simp only [if_pos hrel]
    · simp only [if_neg hrel]
      cases hbase : f.base with
      | none =>
        have h := addr_eq v seg (f.sum v) hword hbyte
        rw [← h]
        simp [Form.sum, Form.baseOf, Form.indexOf, hbase]
      | some r =>
        have h := addr_eq v seg (f.sum v) hword hbyte
        rw [← h]
        simp [Form.sum, Form.baseOf, Form.indexOf, hbase]

end Decoding

section Values

/-- The value that the source writes. -/
def LeaInstr.coded (i : LeaInstr) (v : Core) : BitVec 64 :=
  (BitVec.ofInt i.asz.bits (i.bias v + i.form.offset v (i.next v))).setWidth 64

theorem sum_ofInt (f : Form) (v : Core) (hw : w ≤ 64) :
    (f.sum v).setWidth w = BitVec.ofInt w ((f.base.elim 0 fun r => ((v.regs r).toNat : Int)) +
      (f.index.elim 0 fun r => ((v.regs r).toNat * 2 ^ f.scale : Int)) + f.disp.toInt) := by
  have hbase : BitVec.ofInt w (f.base.elim 0 fun r => ((v.regs r).toNat : Int)) = (f.baseOf v).setWidth w := by
    unfold Form.baseOf
    cases f.base with
    | none => simp
    | some r => exact ofInt_toNat _ hw
  have hindex : BitVec.ofInt w (f.index.elim 0 fun r => ((v.regs r).toNat * 2 ^ f.scale : Int)) =
      (f.indexOf v).setWidth w := by
    unfold Form.indexOf
    cases f.index with
    | none => simp
    | some r => exact ofInt_shifted _ _ hw
  rw [BitVec.ofInt_add, BitVec.ofInt_add, hbase, hindex, ofInt_disp _ hw, ← BitVec.setWidth_add _ _ hw,
    ← BitVec.setWidth_add _ _ hw]
  rfl

/-- The address in the source, cut to the address size, is the offset with the bias. -/
theorem coded_eq (i : LeaInstr) (v : Core) (hrel : i.form.relative = true → i.form.base = none ∧ i.form.index = none) :
    (if i.form.relative = true ∧ i.asz = .quad then v.rip + BitVec.ofNat 64 i.len + i.form.disp.signExtend 64
      else v.segBase i.seg + lift ((i.form.sum v).setWidth i.asz.bits)) &&& i.asz.mask = i.coded v := by
  rw [and_mask]
  unfold LeaInstr.coded
  rw [← lift]
  congr 1
  have hle := i.asz.le_64
  by_cases hquad : i.form.relative = true ∧ i.asz = .quad
  · obtain ⟨hbase, hindex⟩ := hrel hquad.1
    have hoff : i.bias v + i.form.offset v (i.next v) = (i.next v).toNat + i.form.disp.toInt := by
      unfold LeaInstr.bias Form.offset
      rw [if_pos hquad.1, if_pos hquad.2, if_pos hquad.1, hbase, hindex]
      simp
    rw [if_pos hquad, hoff, BitVec.ofInt_add, ofInt_toNat _ hle, ofInt_disp _ hle, BitVec.setWidth_add _ _ hle]
    rfl
  · have hoff : i.bias v + i.form.offset v (i.next v) =
        (v.segBase i.seg).toNat + ((i.form.base.elim 0 fun r => ((v.regs r).toNat : Int)) +
          (i.form.index.elim 0 fun r => ((v.regs r).toNat * 2 ^ i.form.scale : Int)) + i.form.disp.toInt) := by
      unfold LeaInstr.bias Form.offset
      by_cases h : i.form.relative = true
      · rw [if_pos h, if_neg fun hq => hquad ⟨h, hq⟩, if_pos h]
        ring
      · rw [if_neg h, if_neg h]
        ring
    rw [if_neg hquad, hoff, BitVec.ofInt_add, ofInt_toNat _ hle, ← sum_ofInt _ _ hle, BitVec.setWidth_add _ _ hle,
      lift_low _ hle]

end Values

section Results

theorem addressSize_ne_byte (lm prot : Bool) (p : Prefixes) : addressSize lm prot p ≠ .byte := by
  obtain ⟨_, p67, _, _, _, _, _, _⟩ := p
  unfold addressSize
  cases lm <;> cases prot <;> cases p67 <;> rintro ⟨⟩

theorem operandSize_ne_byte (lm prot : Bool) (p : Prefixes) : operandSize lm prot p ≠ .byte := by
  obtain ⟨p66, _, _, _, w, _, _, _⟩ := p
  unfold operandSize
  cases lm <;> cases prot <;> cases p66 <;> cases w <;> rintro ⟨⟩

theorem addressSize_quad {lm prot : Bool} {p : Prefixes} (h : addressSize lm prot p = .quad) : lm = true := by
  obtain ⟨_, p67, _, _, _, _, _, _⟩ := p
  unfold addressSize at h
  cases lm <;> cases prot <;> cases p67 <;> first | rfl | cases h

/-- What a LEA instruction is read from. -/
structure LeaParts (lm prot : Bool) (buf : Nat → BitVec 8) (i : LeaInstr) (p : Prefixes) (pos : Nat) : Prop where
  prefixes : scanPrefixes lm buf 15 {} 0 = some (p, pos)
  opcode : buf pos = 0x8D
  room : pos + 1 < 15
  memory : modField (buf (pos + 1)) ≠ 3
  read : Form.read lm i.asz buf (pos + 2) (modField (buf (pos + 1))) (field (buf (pos + 1)) 0) p.b p.x =
    some (i.form, i.len)
  reg : i.reg = regNum (field (buf (pos + 1)) 3) p.r
  rex : i.rex = p.rex
  osz : i.osz = operandSize lm prot p
  asz : i.asz = addressSize lm prot p
  seg : i.seg = p.seg.getD i.form.seg

theorem leaInstr_parts (h : leaInstr lm prot buf = some i) : ∃ p pos, LeaParts lm prot buf i p pos := by
  unfold leaInstr at h
  obtain ⟨⟨p, pos⟩, hscan, h⟩ := Option.bind_eq_some_iff.1 h
  dsimp only at h
  split at h
  · rename_i hop
    obtain ⟨⟨f, n⟩, hread, heq⟩ := Option.map_eq_some_iff.1 h
    cases heq
    exact ⟨p, pos, hscan, hop.1, hop.2.1, hop.2.2, hread, rfl, rfl, rfl, rfl, rfl⟩
  · cases h

variable {buf : Nat → BitVec 8} {i : LeaInstr}

theorem ripMask_quad (x : BitVec 64) (prot : Bool) : x &&& ripMask true prot = x := by
  rw [show ripMask true prot = BitVec.allOnes 64 from rfl, BitVec.and_allOnes]

/-- Both decoders cut the address to the address size. -/
theorem LeaParts.mask {lm prot : Bool} {p : Prefixes} (h : LeaParts lm prot buf i p pos) :
    (if i.asz = .word then 0xFFFF
      else if i.asz = .long ∨ lm = false then 0xFFFFFFFF else 0xFFFFFFFFFFFFFFFF) = i.asz.mask := by
  cases hasz : i.asz with
  | byte => exact absurd (h.asz.symm.trans hasz) (addressSize_ne_byte lm prot p)
  | word => rfl
  | long => rfl
  | quad =>
    have hlm := addressSize_quad (h.asz.symm.trans hasz)
    rw [if_neg (by decide), if_neg (by simp [hlm])]
    rfl

theorem LeaParts.masked {lm prot : Bool} {p : Prefixes} (h : LeaParts lm prot buf i p pos) (addr : BitVec 64) :
    (if i.asz = .word then addr &&& 0xFFFF
      else if i.asz = .long ∨ lm = false then addr &&& 0xFFFFFFFF else addr) = addr &&& i.asz.mask := by
  rw [← h.mask]
  split
  · rfl
  · split
    · rfl
    · exact (BitVec.and_allOnes).symm

/-- A LEA of `vfl_step` writes the offset with the bias. -/
theorem stepLea_eq (v : Core) (hi : leaInstr v.longMode v.protectedMode buf = some i) :
    v.stepLea buf = .next (i.finish v (i.coded v)) := by
  obtain ⟨p, pos, h⟩ := leaInstr_parts hi
  have hbyte : i.asz ≠ .byte := by
    rw [h.asz]
    exact addressSize_ne_byte _ _ p
  have hdecode : v.decodeEa buf (pos + 2) (modField (buf (pos + 1))) (field (buf (pos + 1)) 0) i.asz p.seg p.b
      p.x = some (v.eaOf i.form i.asz i.seg, i.len) := by
    rw [decodeEa_eq v (pos + 2) p.seg p.b p.x h.memory hbyte, h.read, h.seg]
    rfl
  have hroom : ¬ 15 ≤ pos + 1 := Nat.not_le_of_lt h.room
  unfold Core.stepLea
  simp only [h.prefixes, h.opcode, ne_eq, not_true_eq_false, if_false, hroom, h.memory, ← h.asz, hdecode,
    h.masked]
  rw [← coded_eq i v fun hrel => read_relative h.read hrel]
  unfold LeaInstr.finish Core.eaOf
  by_cases hquad : i.form.relative = true ∧ i.asz = .quad
  · have hlm := addressSize_quad (h.asz.symm.trans hquad.2)
    simp only [if_pos hquad, if_true, hlm, ripMask_quad, h.reg, h.rex, h.osz]
  · simp only [if_neg hquad, Bool.false_eq_true, if_false, h.reg, h.rex, h.osz]

/-- A step that goes on from LEA has read a LEA. -/
theorem leaInstr_of_next {v : Core} (h : v.stepLea buf = .next out) :
    ∃ i, leaInstr v.longMode v.protectedMode buf = some i := by
  unfold Core.stepLea at h
  dsimp only at h
  cases hscan : scanPrefixes v.longMode buf 15 {} 0 with
  | none =>
    rw [hscan] at h
    cases h
  | some pp =>
    obtain ⟨p, pos⟩ := pp
    rw [hscan] at h
    dsimp only at h
    split at h
    · cases h
    · rename_i hop
      split at h
      · cases h
      · rename_i hroom
        split at h
        · cases h
        · rename_i hmem
          rw [decodeEa_eq v _ _ _ _ hmem (addressSize_ne_byte _ _ p)] at h
          cases hread : Form.read v.longMode (addressSize v.longMode v.protectedMode p) buf (pos + 2)
              (modField (buf (pos + 1))) (field (buf (pos + 1)) 0) p.b p.x with
          | none =>
            rw [hread] at h
            cases h
          | some fp =>
            unfold leaInstr
            rw [hscan]
            dsimp only [Option.bind_some]
            rw [if_pos ⟨not_not.1 hop, Nat.lt_of_not_le hroom, hmem⟩, hread]
            exact ⟨_, rfl⟩

theorem scanPrefixes_of_hot {lm : Bool} {n : Nat} {p : Prefixes} {pos : Nat}
    (h : hotPrefixes lm buf n p pos = some r) : scanPrefixes lm buf n p pos = some r := by
  induction n generalizing p pos with
  | zero => exact h
  | succ n ih =>
    unfold hotPrefixes at h
    unfold scanPrefixes
    split at h
    · cases h
    · cases htake : p.take lm (buf pos) with
      | none =>
        rw [htake] at h
        exact h
      | some q =>
        rw [htake] at h
        exact ih h

/-- So does a LEA of the other decoder. -/
theorem hotLea_eq (v : Core) (hi : leaInstr v.longMode v.protectedMode buf = some i)
    (hh : hotFillLea v.longMode v.protectedMode buf = some h) : v.hotLea h = i.finish v (i.coded v) := by
  obtain ⟨p, pos, hp⟩ := leaInstr_parts hi
  have hbyte : i.asz ≠ .byte := by
    rw [hp.asz]
    exact addressSize_ne_byte _ _ p
  unfold hotFillLea at hh
  obtain ⟨⟨q, r⟩, hscan, hh⟩ := Option.bind_eq_some_iff.1 hh
  have hsame := scanPrefixes_of_hot hscan
  rw [hp.prefixes] at hsame
  cases hsame
  have hroom : ¬ 15 ≤ pos + 1 := Nat.not_le_of_lt hp.room
  simp only [hp.opcode, ne_eq, not_true_eq_false, if_false, hroom, hp.memory, ← hp.asz, hotParseEa_eq, hp.read,
    Option.map_some, Option.some.injEq] at hh
  subst hh
  rw [← hp.seg, hp.mask]
  obtain ⟨hreg, hsize, hrex, hmask⟩ := hotOf_keeps
    { size := operandSize v.longMode v.protectedMode p, asz := i.asz, rex := p.rex,
      ripmask := ripMask v.longMode v.protectedMode, reg := regNum (field (buf (pos + 1)) 3) p.r }
    i.form i.asz (modField (buf (pos + 1))) (field (buf (pos + 1)) 0) i.seg
  unfold Core.hotLea
  rw [hotEa_eq v _ i.seg i.asz.mask i.len rfl hbyte hp.read, ← coded_eq i v fun hrel => read_relative hp.read hrel]
  dsimp only
  rw [hreg, hsize, hrex, hmask]
  unfold LeaInstr.finish
  rw [hp.reg, hp.rex, hp.osz]
  by_cases hquad : i.form.relative = true ∧ i.asz = .quad
  · have hlm := addressSize_quad (hp.asz.symm.trans hquad.2)
    simp only [if_pos hquad, hlm, ripMask_quad]
  · simp only [if_neg hquad]

/-- Only the low bits of a value are written. -/
theorem writeReg_congr (v : Cpu) (r : Fin 16) (rex : Bool) (hsize : size ≠ .byte) {a b : BitVec 64}
    (h : a.setWidth size.bits = b.setWidth size.bits) : v.writeReg r rex size a = v.writeReg r rex size b := by
  cases size with
  | byte => exact absurd rfl hsize
  | word =>
    show v.setReg r (_ ||| (a &&& Size.word.mask)) = v.setReg r (_ ||| (b &&& Size.word.mask))
    rw [and_mask, and_mask, h]
  | long =>
    show v.setReg r (_ ||| (a &&& Size.long.mask)) = v.setReg r (_ ||| (b &&& Size.long.mask))
    rw [and_mask, and_mask, h]
  | quad =>
    rw [show Size.quad.bits = 64 from rfl, BitVec.setWidth_eq, BitVec.setWidth_eq] at h
    rw [h]

theorem writeReg_same {v w : Cpu} (h : v.regs = w.regs) (r : Fin 16) (rex : Bool) (size : Size) (a : BitVec 64) :
    (v.writeReg r rex size a).regs = (w.writeReg r rex size a).regs := by
  unfold Cpu.writeReg Cpu.setReg
  simp only [h]
  split
  · rfl
  · split
    · rfl
    · split
      · rfl
      · rfl

/-- The registers after a write, in states that have the same registers before. -/
theorem writeReg_regs_iff {v w : Cpu} (h : v.regs = w.regs) (r : Fin 16) (rex : Bool) (hsize : size ≠ .byte)
    (a b : BitVec 64) :
    (v.writeReg r rex size a).regs = (w.writeReg r rex size b).regs ↔
      a.setWidth size.bits = b.setWidth size.bits := by
  constructor
  · intro heq
    have hv := writeReg_regs v r rex a hsize r
    rw [heq, writeReg_regs w r rex b hsize r, if_pos rfl, if_pos rfl] at hv
    exact hv.symm
  · intro heq
    rw [writeReg_congr v r rex hsize heq, writeReg_same h]

theorem LeaParts.osz_ne_byte {lm prot : Bool} {p : Prefixes} (h : LeaParts lm prot buf i p pos) :
    i.osz ≠ .byte := by
  rw [h.osz]
  exact operandSize_ne_byte _ _ p

/-- What two results of LEA have in common. -/
theorem finish_regs_iff {v w : Core} (hregs : v.regs = w.regs) (hsize : i.osz ≠ .byte) (m n : Int) :
    (i.finish v ((BitVec.ofInt i.asz.bits m).setWidth 64)).regs =
        (i.finish w ((BitVec.ofInt i.asz.bits n).setWidth 64)).regs ↔ (2 : Int) ^ i.width ∣ m - n := by
  unfold LeaInstr.width
  rw [← reduced_eq_iff m n i.osz.le_64]
  exact writeReg_regs_iff hregs i.reg i.rex hsize _ _

theorem finish_eq_iff (v : Core) (hsize : i.osz ≠ .byte) :
    i.finish v (i.coded v) = i.finish v (i.value v) ↔ i.Unbiased v := by
  have hiff := @reduced_eq_iff i.osz.bits i.asz.bits (i.bias v + i.form.offset v (i.next v))
    (i.form.offset v (i.next v)) i.osz.le_64
  rw [add_sub_cancel_right] at hiff
  unfold LeaInstr.Unbiased LeaInstr.width
  rw [← hiff]
  constructor
  · intro h
    have hregs := congrArg (fun s : Core => s.regs) h
    exact (writeReg_regs_iff rfl i.reg i.rex hsize _ _).1 hregs
  · intro h
    have hwrite : v.toCpu.writeReg i.reg i.rex i.osz (i.coded v) =
        v.toCpu.writeReg i.reg i.rex i.osz (i.value v) := writeReg_congr _ _ _ hsize h
    unfold LeaInstr.finish Core.write
    rw [hwrite]

/-- The bias of the two states does not matter to the difference of their offsets. -/
theorem bias_sub (v : Core) (segs : Fin 6 → Segment) :
    i.bias v + i.form.offset v (i.next v) -
      (i.bias { v with segs } + i.form.offset { v with segs } (i.next { v with segs })) =
        i.bias v - i.bias { v with segs } := by
  have h : i.form.offset { v with segs } (i.next { v with segs }) = i.form.offset v (i.next v) := rfl
  rw [h]
  ring

/-- A LEA gives the offset, in both decoders, exactly where the base of its segment does not show in the
bits that are left; and two states with different segments get the same result exactly where the
difference of the bases does not show. -/
theorem lea_offset_iff (v : Core) (buf : Nat → BitVec 8) :
    (∀ out, v.stepLea buf = .next out → ∃ i, leaInstr v.longMode v.protectedMode buf = some i) ∧
    ∀ i, leaInstr v.longMode v.protectedMode buf = some i →
      (v.stepLea buf = .next (i.finish v (i.value v)) ↔ i.Unbiased v) ∧
      (∀ h, hotFillLea v.longMode v.protectedMode buf = some h →
        (v.hotLea h = i.finish v (i.value v) ↔ i.Unbiased v)) ∧
      ∀ segs, ∃ out out', v.stepLea buf = .next out ∧ Core.stepLea { v with segs } buf = .next out' ∧
        (out.regs = out'.regs ↔ (2 : Int) ^ i.width ∣ i.bias v - i.bias { v with segs }) ∧
        ∀ h, hotFillLea v.longMode v.protectedMode buf = some h →
          ((v.hotLea h).regs = (Core.hotLea { v with segs } h).regs ↔
            (2 : Int) ^ i.width ∣ i.bias v - i.bias { v with segs }) := by
  constructor
  · intro out hstep
    exact leaInstr_of_next hstep
  · intro i hi
    obtain ⟨p, pos, hp⟩ := leaInstr_parts hi
    have hsize := hp.osz_ne_byte
    have hstep := stepLea_eq v hi
    refine ⟨?_, ?_, ?_⟩
    · rw [hstep, Outcome.next.injEq]
      exact finish_eq_iff v hsize
    · intro h hh
      rw [hotLea_eq v hi hh]
      exact finish_eq_iff v hsize
    · intro segs
      have hi' : leaInstr (Core.longMode { v with segs }) (Core.protectedMode { v with segs }) buf = some i := hi
      have hboth : (i.finish v (i.coded v)).regs = (i.finish { v with segs } (i.coded { v with segs })).regs ↔
          (2 : Int) ^ i.width ∣ i.bias v - i.bias { v with segs } := by
        rw [← bias_sub v segs]
        exact finish_regs_iff rfl hsize _ _
      refine ⟨_, _, hstep, stepLea_eq { v with segs } hi', hboth, ?_⟩
      intro h hh
      rw [hotLea_eq v hi hh, hotLea_eq { v with segs } hi' hh]
      exact hboth

/-- LEA EAX, [EBX] -/
def leaBytes : Nat → BitVec 8
  | 0 => 0x8D
  | 1 => 0x03
  | _ => 0x90

/-- A vcpu in protected mode with one base for all segments. -/
def flatCore (base : BitVec 64) : Core where
  regs := fun r => if r = 3 then 0x20 else 0
  rflags := 0
  lazyEnabled := false
  pending := ⟨0, .byte, 0, 0, 0, 0⟩
  rip := 0
  cr0 := 1
  efer := 0
  segs := fun _ => ⟨base, 0⟩

def leaEax : LeaInstr where
  reg := 0
  rex := false
  osz := .long
  asz := .long
  form := { base := some 3 }
  seg := 3
  len := 2

theorem lea_offset_iff_example :
    (flatCore 0).stepLea leaBytes = .next (leaEax.finish (flatCore 0) (leaEax.value (flatCore 0))) :=
  (((lea_offset_iff (flatCore 0) leaBytes).2 leaEax rfl).1).2 (Int.dvd_zero _)

/-- With a base of 0x1000 the address of the byte is written, and not its offset; the result differs from
that with a base of zero. -/
theorem lea_adds_base :
    (flatCore 0x1000).stepLea leaBytes ≠
        .next (leaEax.finish (flatCore 0x1000) (leaEax.value (flatCore 0x1000))) ∧
      ∃ out out', (flatCore 0).stepLea leaBytes = .next out ∧ (flatCore 0x1000).stepLea leaBytes = .next out' ∧
        out.regs 0 = 0x20 ∧ out'.regs 0 = 0x1020 := by
  constructor
  · intro h
    rw [stepLea_eq (flatCore 0x1000) (show leaInstr _ _ leaBytes = some leaEax from rfl), Outcome.next.injEq] at h
    have hreg := congrArg (fun s : Core => s.regs 0) h
    revert hreg
    decide
  · exact ⟨_, _, stepLea_eq (flatCore 0) (show leaInstr _ _ leaBytes = some leaEax from rfl),
      stepLea_eq (flatCore 0x1000) (show leaInstr _ _ leaBytes = some leaEax from rfl), by decide, by decide⟩

end Results

end Lebirun.Vfl
