import Lebirun.Lib.Carry
import Lebirun.Lib.Run
import Lebirun.Vfl.Alu

namespace Lebirun.Vfl
open Carry
set_option autoImplicit true

section Effects

/-- What an operation on words of `w` bits computes: a sum, a difference, a logic result, or a result
that leaves the flags alone. -/
inductive Effect (w : Nat)
  | sum (x y : BitVec w) (c : Bool)
  | diff (x y : BitVec w) (b : Bool)
  | logic (r : BitVec w)
  | keep (r : BitVec w)

/-- The operations of the architecture. -/
def AluOp.effect (op : AluOp) (cf : Bool) (x y : BitVec w) : Effect w :=
  match op with
  | .add => .sum x y false
  | .or => .logic (x ||| y)
  | .adc => .sum x y cf
  | .sbb => .diff x y cf
  | .and => .logic (x &&& y)
  | .sub | .cmp => .diff x y false
  | .xor => .logic (x ^^^ y)
  | .inc => .sum x 1 false
  | .dec => .diff x 1 false
  | .not => .keep (~~~x)
  | .neg => .diff 0 x false

def Effect.result : Effect w → BitVec w
  | .sum x y c => Carry.sum x y c
  | .diff x y b => Carry.diff x y b
  | .logic r | .keep r => r

/-- CF: a sum that is no word, or a difference of a smaller and a larger word. -/
def Effect.carryOut : Effect w → Bool
  | .sum x y c => 2 ^ w ≤ x.toNat + y.toNat + c.toNat
  | .diff x y b => x.toNat < y.toNat + b.toNat
  | .logic _ | .keep _ => false

/-- AF: the same of the lowest four bits. -/
def Effect.adjust : Effect w → Bool
  | .sum x y c => 16 ≤ x.toNat % 16 + y.toNat % 16 + c.toNat
  | .diff x y b => x.toNat % 16 < y.toNat % 16 + b.toNat
  | .logic _ | .keep _ => false

/-- OF: a signed sum or difference that is no signed word. -/
def Effect.overflow : Effect w → Bool
  | .sum x y c => ¬ Halves.Fits true w (x.toInt + y.toInt + c.toNat)
  | .diff x y b => ¬ Halves.Fits true w (x.toInt - y.toInt - b.toNat)
  | .logic _ | .keep _ => false

/-- The status flags of an operation are `f'`, and the other bits those of `f`. -/
structure Effect.FlagsAre (e : Effect w) (f f' : BitVec 64) : Prop where
  carry : f'.getLsbD cfBit = e.carryOut
  parity : f'.getLsbD pfBit = evenOnes (e.result.setWidth 8)
  adjust : f'.getLsbD afBit = e.adjust
  zero : f'.getLsbD zfBit = decide (e.result = 0)
  sign : f'.getLsbD sfBit = e.result.msb
  overflow : f'.getLsbD ofBit = e.overflow
  others : ∀ i, i < 64 → statusFlags.getLsbD i = false → f'.getLsbD i = f.getLsbD i

def AluOp.isArithmetic : AluOp → Bool
  | .or | .and | .xor | .not => false
  | _ => true

/-- The result `r` and the flags `f'` are those of the architecture for the operands `x` and `y`, when
the flags were `f`. -/
structure AluResult (op : AluOp) (f : BitVec 64) (x y : BitVec w) (r f' : BitVec 64) : Prop where
  result : r = lift (op.effect (f.getLsbD cfBit) x y).result
  carry : op ≠ .not → op.eager = false →
    f'.getLsbD cfBit = (op.effect (f.getLsbD cfBit) x y).carryOut
  carryKept : op.eager = true → f'.getLsbD cfBit = f.getLsbD cfBit
  parity : op ≠ .not → f'.getLsbD pfBit = evenOnes ((op.effect (f.getLsbD cfBit) x y).result.setWidth 8)
  adjust : op.isArithmetic = true → f'.getLsbD afBit = (op.effect (f.getLsbD cfBit) x y).adjust
  zero : op ≠ .not → f'.getLsbD zfBit = decide ((op.effect (f.getLsbD cfBit) x y).result = 0)
  sign : op ≠ .not → f'.getLsbD sfBit = (op.effect (f.getLsbD cfBit) x y).result.msb
  overflow : op ≠ .not → f'.getLsbD ofBit = (op.effect (f.getLsbD cfBit) x y).overflow
  kept : op = .not → f' = f
  others : ∀ i, i < 64 → statusFlags.getLsbD i = false → f'.getLsbD i = f.getLsbD i

end Effects

section Bits

variable {size : Size} {f a b r : BitVec 64}

theorem getLsbD_raised (f : BitVec 64) (i : Nat) (c : Bool) (hi : i < 64) (j : Nat) :
    (raise f i c).getLsbD j = (f.getLsbD j || (decide (j = i) && c)) := by
  unfold raise
  rw [getLsbD_raise f (c = true) hi j]
  simp

/-- The tests of single bits, as they stand in the source. -/
theorem bit_ne_zero (val : BitVec 64) (i : Nat) : decide ((val >>> i) &&& 1#64 ≠ 0) = val.getLsbD i := bitAt_eq val i

theorem adjust_bit (val : BitVec 64) : decide (val &&& 0x10 ≠ 0) = val.getLsbD 4 := by
  have h : (val &&& 0x10 = 0) ↔ val.getLsbD 4 = false := by
    constructor
    · intro h
      have hbit := congrArg (fun z => BitVec.getLsbD z 4) h
      simpa using hbit
    · intro h
      apply BitVec.eq_of_getLsbD_eq
      intro j hj
      rw [show (0x10 : BitVec 64) = 1#64 <<< 4 by decide, BitVec.getLsbD_and, getLsbD_one_shift (by decide)]
      by_cases h4 : j = 4
      · rw [h4, h]
        simp
      · simp [h4]
  rw [Bool.eq_iff_iff, decide_eq_true_iff, ne_eq, h, Bool.not_eq_false]

theorem sign_bit (y : BitVec size.bits) : decide (lift y &&& 1#64 <<< (size.bits - 1) ≠ 0) = y.msb := by
  rw [Bool.eq_iff_iff, decide_eq_true_iff]
  exact test_msb y

theorem low_byte (y : BitVec size.bits) : (lift y).setWidth 8 = y.setWidth 8 := by
  apply BitVec.eq_of_getLsbD_eq
  intro i hi
  simp [BitVec.getLsbD_setWidth, getLsbD_lift y size.le_64]

/-- The status flags are cleared, and then raised one by one. -/
def withStatus (f : BitVec 64) (c z s o a p : Bool) : BitVec 64 :=
  raise (raise (raise (raise (raise (raise (f &&& ~~~statusFlags) cfBit c) zfBit z) sfBit s) ofBit o) afBit a)
    pfBit p

theorem getLsbD_withStatus (f : BitVec 64) (c z s o a p : Bool) {j : Nat} (hj : j < 64) :
    (withStatus f c z s o a p).getLsbD j = ((f.getLsbD j && !statusFlags.getLsbD j) || (decide (j = cfBit) && c) ||
      (decide (j = zfBit) && z) || (decide (j = sfBit) && s) || (decide (j = ofBit) && o) ||
      (decide (j = afBit) && a) || (decide (j = pfBit) && p)) := by
  unfold withStatus
  rw [getLsbD_raised _ _ _ (by decide), getLsbD_raised _ _ _ (by decide), getLsbD_raised _ _ _ (by decide),
    getLsbD_raised _ _ _ (by decide), getLsbD_raised _ _ _ (by decide), getLsbD_raised _ _ _ (by decide),
    BitVec.getLsbD_and, BitVec.getLsbD_not]
  simp [hj]

/-- The six flags and the other bits, read back. -/
theorem Effect.FlagsAre.of_status {e : Effect w} {c z s o a p : Bool} (hc : c = e.carryOut)
    (hz : z = decide (e.result = 0)) (hs : s = e.result.msb) (ho : o = e.overflow) (ha : a = e.adjust)
    (hp : p = evenOnes (e.result.setWidth 8)) : e.FlagsAre f (withStatus f c z s o a p) := by
  have hstatus : statusFlags.getLsbD cfBit = true ∧ statusFlags.getLsbD pfBit = true ∧
      statusFlags.getLsbD afBit = true ∧ statusFlags.getLsbD zfBit = true ∧
      statusFlags.getLsbD sfBit = true ∧ statusFlags.getLsbD ofBit = true := by decide
  obtain ⟨h₀, h₂, h₄, h₆, h₇, h₁₁⟩ := hstatus
  refine ⟨?_, ?_, ?_, ?_, ?_, ?_, ?_⟩
  · rw [getLsbD_withStatus _ _ _ _ _ _ _ (by decide), h₀, hc]
    simp
  · rw [getLsbD_withStatus _ _ _ _ _ _ _ (by decide), h₂, hp]
    simp
  · rw [getLsbD_withStatus _ _ _ _ _ _ _ (by decide), h₄, ha]
    simp
  · rw [getLsbD_withStatus _ _ _ _ _ _ _ (by decide), h₆, hz]
    simp
  · rw [getLsbD_withStatus _ _ _ _ _ _ _ (by decide), h₇, hs]
    simp
  · rw [getLsbD_withStatus _ _ _ _ _ _ _ (by decide), h₁₁, ho]
    simp
  · intro i hi hclear
    have hne : ∀ {k}, statusFlags.getLsbD k = true → i ≠ k := by
      rintro k hk rfl
      rw [hclear] at hk
      cases hk
    rw [getLsbD_withStatus _ _ _ _ _ _ _ hi, hclear]
    simp [hne h₀, hne h₂, hne h₄, hne h₆, hne h₇, hne h₁₁]

theorem toNat_masked (a : BitVec 64) : (a &&& size.mask).toNat = (a.setWidth size.bits).toNat := by
  rw [and_mask]
  unfold lift
  rw [BitVec.toNat_setWidth]
  have h : (a.setWidth size.bits).toNat < 2 ^ size.bits := (a.setWidth size.bits).isLt
  exact Nat.mod_eq_of_lt (lt_of_lt_of_le h (Nat.pow_le_pow_right (by decide) size.le_64))

theorem low_bit (a : BitVec 64) {i : Nat} (hi : i < size.bits) :
    a.getLsbD i = (a.setWidth size.bits).getLsbD i := by
  rw [BitVec.getLsbD_setWidth]
  simp [hi]

theorem low_msb (a : BitVec 64) : a.getLsbD (size.bits - 1) = (a.setWidth size.bits).msb := by
  have hlt := size.one_lt
  rw [BitVec.msb_eq_getLsbD_last]
  exact low_bit a (by omega)

theorem toNat_carry (c : Bool) : ((BitVec.ofBool c).setWidth 64).toNat = c.toNat := by
  cases c <;> rfl

theorem Size.four_lt (size : Size) : 4 < size.bits := by cases size <;> decide

/-- The bit above a number that is less than twice a power. -/
theorem div_mod_two {n p : Nat} (hn : n < 2 * p) : n / p % 2 = 1 ↔ p ≤ n := by
  by_cases h : p ≤ n
  · rw [Nat.div_eq_of_lt_le (by omega) (by omega) (k := 1)]
    simp [h]
  · rw [Nat.div_eq_of_lt (by omega)]
    simp [h]

/-- The outcome of `vfl_flag_add` for a sum. -/
theorem addFlags_sum (f a b : BitVec 64) (c : Bool) :
    (Effect.sum (a.setWidth size.bits) (b.setWidth size.bits) c).FlagsAre f
      (addFlags f a b ((BitVec.ofBool c).setWidth 64)
        (lift (Carry.sum (a.setWidth size.bits) (b.setWidth size.bits) c)) size) := by
  have hle := size.le_64
  have hlt := size.one_lt
  unfold addFlags
  dsimp only
  apply Effect.FlagsAre.of_status
  · rw [toNat_masked, toNat_masked, toNat_carry]
    unfold Effect.carryOut
    have hx : (a.setWidth size.bits).toNat < 2 ^ size.bits := (a.setWidth size.bits).isLt
    have hy : (b.setWidth size.bits).toNat < 2 ^ size.bits := (b.setWidth size.bits).isLt
    have hc : c.toNat ≤ 1 := Bool.toNat_le c
    rw [decide_eq_decide]
    have hn : (a.setWidth size.bits).toNat + (b.setWidth size.bits).toNat + c.toNat < 2 * 2 ^ size.bits := by
      omega
    exact div_mod_two hn
  · rw [lift_and_mask]
    simp only [lift_eq_zero]
    rfl
  · exact sign_bit _
  · rw [bit_ne_zero, BitVec.getLsbD_and, BitVec.getLsbD_xor, BitVec.getLsbD_xor, getLsbD_lift _ hle, low_msb,
      low_msb, ← BitVec.msb_eq_getLsbD_last, Bool.eq_iff_iff, sum_overflow _ _ c (by omega)]
    unfold Effect.overflow
    rw [decide_eq_true_iff]
  · rw [adjust_bit, BitVec.getLsbD_xor, BitVec.getLsbD_xor, getLsbD_lift _ hle, low_bit a size.four_lt,
      low_bit b size.four_lt, getLsbD_sum _ _ _ size.four_lt]
    unfold Effect.adjust
    rw [show BitVec.carry 4 (a.setWidth size.bits) (b.setWidth size.bits) c =
      decide (16 ≤ (a.setWidth size.bits).toNat % 16 + (b.setWidth size.bits).toNat % 16 + c.toNat) from rfl]
    generalize (a.setWidth size.bits).getLsbD 4 = p
    generalize (b.setWidth size.bits).getLsbD 4 = q
    cases p <;> cases q <;> simp
  · rw [low_byte]
    exact parity_eq _

/-- The outcome of `vfl_flag_sub` for a difference. -/
theorem subFlags_diff (f a b : BitVec 64) (c : Bool) :
    (Effect.diff (a.setWidth size.bits) (b.setWidth size.bits) c).FlagsAre f
      (subFlags f a b ((BitVec.ofBool c).setWidth 64)
        (lift (Carry.diff (a.setWidth size.bits) (b.setWidth size.bits) c)) size) := by
  have hle := size.le_64
  have hlt := size.one_lt
  unfold subFlags
  dsimp only
  apply Effect.FlagsAre.of_status
  · rw [toNat_masked, toNat_masked, toNat_carry]
    rfl
  · rw [lift_and_mask]
    simp only [lift_eq_zero]
    rfl
  · exact sign_bit _
  · rw [bit_ne_zero, BitVec.getLsbD_and, BitVec.getLsbD_xor, BitVec.getLsbD_xor, getLsbD_lift _ hle, low_msb,
      low_msb, ← BitVec.msb_eq_getLsbD_last, Bool.eq_iff_iff, diff_overflow _ _ c (by omega)]
    unfold Effect.overflow
    rw [decide_eq_true_iff]
  · rw [adjust_bit, BitVec.getLsbD_xor, BitVec.getLsbD_xor, getLsbD_lift _ hle, low_bit a size.four_lt,
      low_bit b size.four_lt, getLsbD_diff _ _ _ size.four_lt]
    unfold Effect.adjust
    rw [show borrow 4 (a.setWidth size.bits) (b.setWidth size.bits) c =
      decide ((a.setWidth size.bits).toNat % 16 < (b.setWidth size.bits).toNat % 16 + c.toNat) from rfl]
    generalize (a.setWidth size.bits).getLsbD 4 = p
    generalize (b.setWidth size.bits).getLsbD 4 = q
    cases p <;> cases q <;> simp
  · rw [low_byte]
    exact parity_eq _

/-- What `vfl_flag_logic` makes of the flags when they are not put off. -/
def logicFlags (f r : BitVec 64) (size : Size) : BitVec 64 :=
  let f := f &&& ~~~statusFlags
  let f := if r &&& size.mask = 0 then f ||| 1#64 <<< zfBit else f
  let f := if r &&& 1#64 <<< (size.bits - 1) ≠ 0 then f ||| 1#64 <<< sfBit else f
  if parity (r.setWidth 8) then f ||| 1#64 <<< pfBit else f

theorem flagLogic_eq (v : Cpu) (r : BitVec 64) (size : Size) :
    v.flagLogic r size =
      if v.lazyEnabled then { v with pending := { v.pending with op := 1, size, r } }
      else { v with rflags := logicFlags v.rflags r size } := rfl

theorem logicFlags_logic (f : BitVec 64) (y : BitVec size.bits) :
    (Effect.logic y).FlagsAre f (logicFlags f (lift y) size) := by
  have h : logicFlags f (lift y) size =
      withStatus f false (decide (lift y &&& size.mask = 0))
        (decide (lift y &&& 1#64 <<< (size.bits - 1) ≠ 0)) false false (parity ((lift y).setWidth 8)) := by
    unfold logicFlags withStatus raise
    simp only [decide_eq_true_eq, Bool.false_eq_true, if_false]
  rw [h]
  apply Effect.FlagsAre.of_status
  · rfl
  · rw [lift_and_mask]
    simp only [lift_eq_zero]
    rfl
  · exact sign_bit _
  · rfl
  · rfl
  · rw [low_byte]
    exact parity_eq _

end Bits

section Outcomes

variable {size : Size}

/-- `vfl_do_alu` on the flags alone, none of them put off. -/
def aluOut (op : AluOp) (f a b : BitVec 64) (size : Size) : BitVec 64 × BitVec 64 :=
  let m := size.mask
  let cf := f &&& 1#64
  match op with
  | .add => let r := (a + b) &&& m; (r, addFlags f a b 0 r size)
  | .or => let r := (a ||| b) &&& m; (r, logicFlags f r size)
  | .adc => let r := ((a &&& m) + (b &&& m) + cf) &&& m; (r, addFlags f a b cf r size)
  | .sbb => let r := (a - b - cf) &&& m; (r, subFlags f a b cf r size)
  | .and => let r := (a &&& b) &&& m; (r, logicFlags f r size)
  | .sub | .cmp => let r := (a - b) &&& m; (r, subFlags f a b 0 r size)
  | .xor => let r := (a ^^^ b) &&& m; (r, logicFlags f r size)
  | .inc => let r := (a + 1) &&& m; (r, (addFlags f a 1 0 r size &&& ~~~1#64) ||| cf)
  | .dec => let r := (a - 1) &&& m; (r, (subFlags f a 1 0 r size &&& ~~~1#64) ||| cf)
  | .not => ((~~~a) &&& m, f)
  | .neg => let r := (0 - a) &&& m; (r, subFlags f 0 a 0 r size)

theorem carry_word (f : BitVec 64) : f &&& 1#64 = (BitVec.ofBool (f.getLsbD cfBit)).setWidth 64 := by
  have h := bit_eq f 0
  rw [BitVec.ushiftRight_zero] at h
  exact h

theorem carry_low (c : Bool) :
    ((BitVec.ofBool c).setWidth 64).setWidth size.bits = (BitVec.ofBool c).setWidth size.bits := by
  cases c <;> cases size <;> rfl

theorem setWidth_masked (a : BitVec 64) : (a &&& size.mask).setWidth size.bits = a.setWidth size.bits := by
  rw [and_mask, lift_low _ size.le_64]

theorem sum_word (a b : BitVec 64) (c : Bool) :
    (a + b + (BitVec.ofBool c).setWidth 64) &&& size.mask =
      lift (Carry.sum (a.setWidth size.bits) (b.setWidth size.bits) c) := by
  rw [and_mask, BitVec.setWidth_add _ _ size.le_64, BitVec.setWidth_add _ _ size.le_64, carry_low]
  rfl

theorem setWidth_sub (a b : BitVec 64) :
    (a - b).setWidth size.bits = a.setWidth size.bits - b.setWidth size.bits := by
  rw [BitVec.sub_eq_add_neg, BitVec.setWidth_add _ _ size.le_64, BitVec.setWidth_neg_of_le size.le_64,
    ← BitVec.sub_eq_add_neg]

theorem diff_word (a b : BitVec 64) (c : Bool) :
    (a - b - (BitVec.ofBool c).setWidth 64) &&& size.mask =
      lift (Carry.diff (a.setWidth size.bits) (b.setWidth size.bits) c) := by
  rw [and_mask, setWidth_sub, setWidth_sub, carry_low]
  rfl

theorem sum_word_false (a b : BitVec 64) :
    (a + b) &&& size.mask = lift (Carry.sum (a.setWidth size.bits) (b.setWidth size.bits) false) := by
  rw [← sum_word, show (BitVec.ofBool false).setWidth 64 = 0#64 from rfl, BitVec.add_zero]

theorem diff_word_false (a b : BitVec 64) :
    (a - b) &&& size.mask = lift (Carry.diff (a.setWidth size.bits) (b.setWidth size.bits) false) := by
  rw [← diff_word, show (BitVec.ofBool false).setWidth 64 = 0#64 from rfl, BitVec.sub_zero]

theorem one_low (size : Size) : (1 : BitVec 64).setWidth size.bits = 1 := by cases size <;> rfl

theorem zero_low (size : Size) : (0 : BitVec 64).setWidth size.bits = 0 := by cases size <;> rfl

/-- An operation whose flags are all new. -/
theorem AluResult.of_flags {op : AluOp} {f r f' : BitVec 64} {x y : BitVec w}
    (hr : r = lift (op.effect (f.getLsbD cfBit) x y).result)
    (hf : (op.effect (f.getLsbD cfBit) x y).FlagsAre f f') (heager : op.eager = false) (hnot : op ≠ .not) :
    AluResult op f x y r f' where
  result := hr
  carry _ _ := hf.carry
  carryKept h := by
    rw [heager] at h
    cases h
  parity _ := hf.parity
  adjust _ := hf.adjust
  zero _ := hf.zero
  sign _ := hf.sign
  overflow _ := hf.overflow
  kept h := absurd h hnot
  others := hf.others

/-- An operation whose flags are new except for the carry. -/
theorem AluResult.of_kept {op : AluOp} {f r f' : BitVec 64} {x y : BitVec w}
    (hr : r = lift (op.effect (f.getLsbD cfBit) x y).result)
    (hf : (op.effect (f.getLsbD cfBit) x y).FlagsAre f f') (heager : op.eager = true) (hnot : op ≠ .not) :
    AluResult op f x y r ((f' &&& ~~~1#64) ||| (f &&& 1#64)) := by
  have hput : (f' &&& ~~~1#64) ||| (f &&& 1#64) = putFlag f' cfBit (f.getLsbD cfBit) := by
    rw [carry_word, putFlag_eq]
  have hself : (putFlag f' cfBit (f.getLsbD cfBit)).getLsbD cfBit = f.getLsbD cfBit := by
    rw [getLsbD_putFlag _ _ _ (by decide), if_pos rfl]
  have hother : ∀ {i}, i ≠ cfBit → (putFlag f' cfBit (f.getLsbD cfBit)).getLsbD i = f'.getLsbD i := by
    intro i hi
    rw [getLsbD_putFlag _ _ _ (by decide), if_neg hi]
  rw [hput]
  exact {
    result := hr
    carry := by
      intro _ h
      rw [heager] at h
      cases h
    carryKept := fun _ => hself
    parity := fun _ => (hother (by decide)).trans hf.parity
    adjust := fun _ => (hother (by decide)).trans hf.adjust
    zero := fun _ => (hother (by decide)).trans hf.zero
    sign := fun _ => (hother (by decide)).trans hf.sign
    overflow := fun _ => (hother (by decide)).trans hf.overflow
    kept := fun h => absurd h hnot
    others := by
      intro i hi hclear
      have hne : i ≠ cfBit := by
        rintro rfl
        rw [show statusFlags.getLsbD cfBit = true by decide] at hclear
        cases hclear
      exact (hother hne).trans (hf.others i hi hclear) }

/-- `vfl_do_alu` computes the operation of the architecture and its flags. -/
theorem aluOut_result (op : AluOp) (f a b : BitVec 64) (size : Size) :
    AluResult op f (a.setWidth size.bits) (b.setWidth size.bits) (aluOut op f a b size).1
      (aluOut op f a b size).2 := by
  cases op with
  | add =>
    have hr := @sum_word_false size a b
    have hflags := @addFlags_sum size f a b false
    rw [← hr] at hflags
    exact .of_flags hr hflags rfl (by rintro ⟨⟩)
  | or =>
    have hr : (a ||| b) &&& size.mask = lift (a.setWidth size.bits ||| b.setWidth size.bits) := by
      rw [and_mask, BitVec.setWidth_or]
    have hflags := logicFlags_logic f (a.setWidth size.bits ||| b.setWidth size.bits)
    rw [← hr] at hflags
    exact .of_flags hr hflags rfl (by rintro ⟨⟩)
  | adc =>
    have hr : ((a &&& size.mask) + (b &&& size.mask) + (f &&& 1#64)) &&& size.mask =
        lift (Carry.sum (a.setWidth size.bits) (b.setWidth size.bits) (f.getLsbD cfBit)) := by
      rw [carry_word, sum_word, setWidth_masked, setWidth_masked]
    have hflags := @addFlags_sum size f a b (f.getLsbD cfBit)
    rw [← hr, ← carry_word] at hflags
    exact .of_flags hr hflags rfl (by rintro ⟨⟩)
  | sbb =>
    have hr : (a - b - (f &&& 1#64)) &&& size.mask =
        lift (Carry.diff (a.setWidth size.bits) (b.setWidth size.bits) (f.getLsbD cfBit)) := by
      rw [carry_word, diff_word]
    have hflags := @subFlags_diff size f a b (f.getLsbD cfBit)
    rw [← hr, ← carry_word] at hflags
    exact .of_flags hr hflags rfl (by rintro ⟨⟩)
  | and =>
    have hr : (a &&& b) &&& size.mask = lift (a.setWidth size.bits &&& b.setWidth size.bits) := by
      rw [and_mask, BitVec.setWidth_and]
    have hflags := logicFlags_logic f (a.setWidth size.bits &&& b.setWidth size.bits)
    rw [← hr] at hflags
    exact .of_flags hr hflags rfl (by rintro ⟨⟩)
  | sub =>
    have hr := @diff_word_false size a b
    have hflags := @subFlags_diff size f a b false
    rw [← hr] at hflags
    exact .of_flags hr hflags rfl (by rintro ⟨⟩)
  | xor =>
    have hr : (a ^^^ b) &&& size.mask = lift (a.setWidth size.bits ^^^ b.setWidth size.bits) := by
      rw [and_mask, BitVec.setWidth_xor]
    have hflags := logicFlags_logic f (a.setWidth size.bits ^^^ b.setWidth size.bits)
    rw [← hr] at hflags
    exact .of_flags hr hflags rfl (by rintro ⟨⟩)
  | cmp =>
    have hr := @diff_word_false size a b
    have hflags := @subFlags_diff size f a b false
    rw [← hr] at hflags
    exact .of_flags hr hflags rfl (by rintro ⟨⟩)
  | inc =>
    have hr := @sum_word_false size a 1
    have hflags := @addFlags_sum size f a 1 false
    rw [one_low] at hr hflags
    rw [← hr] at hflags
    exact .of_kept hr hflags rfl (by rintro ⟨⟩)
  | dec =>
    have hr := @diff_word_false size a 1
    have hflags := @subFlags_diff size f a 1 false
    rw [one_low] at hr hflags
    rw [← hr] at hflags
    exact .of_kept hr hflags rfl (by rintro ⟨⟩)
  | not =>
    have hr : (~~~a) &&& size.mask = lift (~~~(a.setWidth size.bits)) := by
      rw [and_mask, BitVec.setWidth_not size.le_64]
    exact ⟨hr, fun h => absurd rfl h, by rintro ⟨⟩, fun h => absurd rfl h, by rintro ⟨⟩, fun h => absurd rfl h,
      fun h => absurd rfl h, fun h => absurd rfl h, fun _ => rfl, fun _ _ _ => rfl⟩
  | neg =>
    have hr := @diff_word_false size 0 a
    have hflags := @subFlags_diff size f 0 a false
    rw [zero_low] at hr hflags
    rw [← hr] at hflags
    exact .of_flags hr hflags rfl (by rintro ⟨⟩)

end Outcomes

end Lebirun.Vfl
