import Lebirun.Vfl.Shift

namespace Lebirun.Vfl
set_option autoImplicit true

section Flags

variable {size : Size}

/-- Whether a byte has an even number of ones. -/
def evenOnes (b : BitVec 8) : Bool := (List.range 8).countP b.getLsbD % 2 = 0

theorem parity_eq : ∀ b : BitVec 8, parity b = evenOnes b := by decide

theorem getLsbD_one_shift (hi : i < 64) (j : Nat) : (1#64 <<< i).getLsbD j = decide (j = i) := by
  rw [← BitVec.twoPow_eq, BitVec.getLsbD_twoPow]
  by_cases h : j = i
  · simp [h, hi]
  · simp [h, Ne.symm h]

theorem getLsbD_raise (f : BitVec 64) (c : Prop) [Decidable c] (hi : i < 64) (j : Nat) :
    (if c then f ||| 1#64 <<< i else f).getLsbD j = (f.getLsbD j || (decide (j = i) && decide c)) := by
  by_cases hc : c
  · rw [if_pos hc, BitVec.getLsbD_or, getLsbD_one_shift hi]
    simp [hc]
  · simp [hc]

theorem test_msb (y : BitVec size.bits) : (lift y &&& 1#64 <<< (size.bits - 1) ≠ 0) ↔ y.msb = true := by
  have hle := size.le_64
  have hlt := size.one_lt
  have hbit : ∀ j, (lift y &&& 1#64 <<< (size.bits - 1)).getLsbD j =
      (decide (j = size.bits - 1) && y.msb) := by
    intro j
    rw [BitVec.getLsbD_and, getLsbD_lift y hle, getLsbD_one_shift (by omega), BitVec.msb_eq_getLsbD_last]
    by_cases h : j = size.bits - 1 <;> simp [h]
  cases hmsb : y.msb with
  | true =>
    refine ⟨fun _ => rfl, ?_⟩
    intro _ hzero
    have htop := hbit (size.bits - 1)
    rw [hzero, hmsb] at htop
    simp at htop
  | false =>
    refine ⟨?_, fun h => absurd h Bool.false_ne_true⟩
    intro hne
    apply (hne _).elim
    apply BitVec.eq_of_getLsbD_eq
    intro j hj
    rw [hbit, hmsb]
    simp

/-- The flags after a logic operation with the result `y`. -/
theorem getLsbD_flagLogic (v : Cpu) (y : BitVec size.bits) (hlazy : v.lazyEnabled = false) (j : Nat)
    (hj : j < 64) :
    (v.flagLogic (lift y) size).rflags.getLsbD j =
      (v.rflags.getLsbD j && !statusFlags.getLsbD j || decide (j = zfBit) && decide (y = 0) ||
        decide (j = sfBit) && y.msb || decide (j = pfBit) && evenOnes (y.setWidth 8)) := by
  have hlow : (lift y).setWidth 8 = y.setWidth 8 := by
    apply BitVec.eq_of_getLsbD_eq
    intro i hi
    simp [BitVec.getLsbD_setWidth, getLsbD_lift y size.le_64]
  unfold Cpu.flagLogic
  rw [hlazy, if_neg Bool.false_ne_true]
  dsimp only
  rw [getLsbD_raise _ _ (by decide), getLsbD_raise _ _ (by decide), getLsbD_raise _ _ (by decide),
    lift_and_mask, hlow, BitVec.getLsbD_and, BitVec.getLsbD_not, parity_eq]
  simp only [lift_eq_zero, test_msb, hj, decide_true, Bool.true_and, Bool.decide_eq_true]

theorem flagLogic_rflags_only (v : Cpu) (y : BitVec size.bits) (hlazy : v.lazyEnabled = false) :
    v.flagLogic (lift y) size = { v with rflags := (v.flagLogic (lift y) size).rflags } := by
  unfold Cpu.flagLogic
  rw [hlazy]
  rfl

end Flags

section Shifts

variable {size : Size}

theorem flagLogic_clear (v : Cpu) (y : BitVec size.bits) (hlazy : v.lazyEnabled = false) :
    (v.flagLogic (lift y) size).flag cfBit = false ∧ (v.flagLogic (lift y) size).flag ofBit = false := by
  have hcf : statusFlags.getLsbD cfBit = true := by decide
  have hof : statusFlags.getLsbD ofBit = true := by decide
  unfold Cpu.flag
  constructor
  · rw [getLsbD_flagLogic v y hlazy _ (by decide), hcf]
    simp
  · rw [getLsbD_flagLogic v y hlazy _ (by decide), hof]
    simp

theorem flag_or_bit (f : BitVec 64) (b : Bool) (hj : j < 64) :
    (f ||| (BitVec.ofBool b).setWidth 64).getLsbD j = (f.getLsbD j || decide (j = cfBit) && b) := by
  rw [BitVec.getLsbD_or, BitVec.getLsbD_setWidth, BitVec.getLsbD_ofBool]
  simp [hj]

theorem shl_low (x : BitVec size.bits) (n : Nat) : (lift x <<< n) &&& size.mask = lift (x <<< n) := by
  have hle := size.le_64
  apply and_mask_eq
  intro i hi
  have hi' : i < 64 := by omega
  simp only [BitVec.getLsbD_shiftLeft, getLsbD_lift x hle, hi, hi']

theorem shr_low (x : BitVec size.bits) (n : Nat) : (lift x >>> n) &&& size.mask = lift (x >>> n) := by
  apply and_mask_eq
  intro i hi
  simp only [BitVec.getLsbD_ushiftRight, getLsbD_lift x size.le_64]

theorem shiftLeft_fst (v : Cpu) (x : BitVec size.bits) (n : Nat) :
    (v.shiftLeft (lift x) n size).1 = lift (x <<< n) := by
  unfold Cpu.shiftLeft
  split
  · rename_i hn
    rw [BitVec.shiftLeft_eq_zero (by omega)]
    exact lift_zero.symm
  · exact shl_low x n

/-- The flags after SHL: the bit that left last, and the change of sign of a shift by one. -/
theorem shiftLeft_flag (v : Cpu) (x : BitVec size.bits) (n : Nat) (hn : n ≠ 0)
    (hlazy : v.lazyEnabled = false) (hj : j < 64) :
    (v.shiftLeft (lift x) n size).2.flag j =
      if j = cfBit then (x <<< (n - 1)).msb
      else if j = ofBit ∧ n = 1 then (x <<< 1).msb ^^ x.msb
      else (v.flagLogic (lift (x <<< n)) size).flag j := by
  have hlt := size.one_lt
  obtain ⟨hcf, hof⟩ := flagLogic_clear v (x <<< n) hlazy
  by_cases hbig : size.bits < n
  · have hone : ¬ n = 1 := by omega
    have hzero : lift (x <<< n) = 0 := by rw [BitVec.shiftLeft_eq_zero (by omega)]; exact lift_zero
    rw [hzero] at hcf hof ⊢
    unfold Cpu.shiftLeft
    rw [if_pos hbig, BitVec.shiftLeft_eq_zero (by omega)]
    unfold Cpu.flag
    rw [BitVec.getLsbD_and, BitVec.getLsbD_not, BitVec.getLsbD_one]
    by_cases h : j = cfBit
    · simp [h]
    · simp [h, hone, hj]
  · have hout : (x <<< (n - 1)).msb = x.getLsbD (size.bits - n) := by
      rw [BitVec.msb_eq_getLsbD_last, BitVec.getLsbD_shiftLeft]
      have h₁ : size.bits - 1 < size.bits := by omega
      have h₂ : ¬ size.bits - 1 < n - 1 := by omega
      have h₃ : size.bits - 1 - (n - 1) = size.bits - n := by omega
      simp [h₁, h₂, h₃]
    unfold Cpu.shiftLeft
    rw [if_neg (Nat.not_lt.mpr (Nat.le_of_not_lt hbig))]
    dsimp only
    rw [shl_low, bit_eq, bit_eq, getLsbD_lift x size.le_64, getLsbD_lift (x <<< n) size.le_64,
      ← BitVec.msb_eq_getLsbD_last, hout]
    unfold Cpu.flag at hcf hof ⊢
    rw [getLsbD_raise _ _ (by decide), flag_or_bit _ _ hj]
    by_cases h : j = cfBit
    · rw [h, hcf]
      simp
    · by_cases ho : j = ofBit
      · rw [ho, hof]
        by_cases h1 : n = 1
        · subst h1
          have hmsb : x.getLsbD (size.bits - 1) = x.msb := (BitVec.msb_eq_getLsbD_last x).symm
          rw [hmsb]
          cases x.msb <;> cases (x <<< 1).msb <;> simp
        · simp [h1]
      · simp [h, ho]

theorem shiftRight_fst (v : Cpu) (x : BitVec size.bits) (n : Nat) :
    (v.shiftRight (lift x) n size).1 = lift (x >>> n) := shr_low x n

/-- The flags after SHR and SAR: the carry is replaced and the overflow cleared. -/
theorem flag_replace (f : BitVec 64) (b : Bool) (hj : j < 64) :
    ((f &&& ~~~(1#64 ||| 1#64 <<< ofBit)) ||| (BitVec.ofBool b).setWidth 64).getLsbD j =
      if j = cfBit then b else if j = ofBit then false else f.getLsbD j := by
  rw [flag_or_bit _ _ hj, BitVec.getLsbD_and, BitVec.getLsbD_not, BitVec.getLsbD_or,
    getLsbD_one_shift (by decide), BitVec.getLsbD_one]
  by_cases h : j = cfBit
  · simp [h]
  · by_cases ho : j = ofBit <;> simp [h, ho, hj]

theorem shiftRight_flag (v : Cpu) (x : BitVec size.bits) (n : Nat) (hj : j < 64) :
    (v.shiftRight (lift x) n size).2.flag j =
      if j = cfBit then x.getLsbD (n - 1)
      else if j = ofBit then false
      else (v.flagLogic (lift (x >>> n)) size).flag j := by
  unfold Cpu.shiftRight Cpu.flag
  dsimp only
  rw [shr_low, bit_eq, getLsbD_lift x size.le_64, flag_replace _ _ hj]

theorem getLsbD_fillSign (size : Size) (val : BitVec 64) (count : Nat) (j : Nat) :
    (fillSign size val count).getLsbD j =
      (val.getLsbD j || decide (j < size.bits ∧ size.bits - count ≤ j)) := by
  have hle := size.le_64
  have hlt := size.one_lt
  induction count with
  | zero =>
    simp [fillSign]
  | succ n ih =>
    unfold fillSign at ih ⊢
    rw [List.range_succ, List.foldl_append, List.foldl_cons, List.foldl_nil, BitVec.getLsbD_or, ih,
      getLsbD_one_shift (by omega)]
    have hnext : (j < size.bits ∧ size.bits - (n + 1) ≤ j) ↔
        (j < size.bits ∧ size.bits - n ≤ j) ∨ j = size.bits - 1 - n := by omega
    rw [decide_eq_decide.mpr hnext, Bool.decide_or, Bool.or_assoc]

/-- A shift right with the top bits filled in, bit by bit. -/
theorem sign_filled (x : BitVec size.bits) (n : Nat) :
    fillSign size ((lift x >>> n) &&& size.mask) n =
      lift (x >>> n ||| BitVec.allOnes size.bits <<< (size.bits - n)) := by
  have hle := size.le_64
  apply BitVec.eq_of_getLsbD_eq
  intro i hi
  rw [getLsbD_fillSign, shr_low, getLsbD_lift _ hle, getLsbD_lift _ hle, BitVec.getLsbD_or,
    BitVec.getLsbD_shiftLeft, BitVec.getLsbD_allOnes]
  congr 1
  by_cases hin : i < size.bits
  · by_cases htop : size.bits - n ≤ i
    · have h₁ : ¬ i < size.bits - n := by omega
      have h₂ : i - (size.bits - n) < size.bits := by omega
      simp [hin, htop, h₁, h₂]
    · have h₁ : i < size.bits - n := by omega
      simp [hin, htop, h₁]
  · simp [hin]

theorem sshiftRight_pos {x : BitVec w} (h : x.msb = false) (n : Nat) : x.sshiftRight n = x >>> n := by
  rw [BitVec.sshiftRight_eq_of_msb_false h]

theorem sshiftRight_neg {x : BitVec w} (h : x.msb = true) {n : Nat} (hn : n < w) :
    x.sshiftRight n = x >>> n ||| BitVec.allOnes w <<< (w - n) := by
  apply BitVec.eq_of_getLsbD_eq
  intro i hi
  rw [BitVec.getLsbD_sshiftRight, BitVec.getLsbD_or, BitVec.getLsbD_ushiftRight,
    BitVec.getLsbD_shiftLeft, BitVec.getLsbD_allOnes, h]
  have hbad : ¬ w ≤ i := by omega
  by_cases htop : w - n ≤ i
  · have h₁ : ¬ i < w - n := by omega
    have h₂ : i - (w - n) < w := by omega
    have h₃ : ¬ n + i < w := by omega
    simp [hbad, h₁, h₂, h₃, hi]
  · have h₁ : i < w - n := by omega
    have h₃ : n + i < w := by omega
    simp [hbad, h₁, h₃]

theorem sshiftRight_all (x : BitVec w) {n : Nat} (hn : w ≤ n) :
    x.sshiftRight n = if x.msb then BitVec.allOnes w else 0 := by
  apply BitVec.eq_of_getLsbD_eq
  intro i hi
  rw [BitVec.getLsbD_sshiftRight]
  have hbad : ¬ w ≤ i := by omega
  have hout : ¬ n + i < w := by omega
  cases x.msb <;> simp [hbad, hout, hi]

theorem shiftArithmetic_fst (v : Cpu) (x : BitVec size.bits) (n : Nat) :
    (v.shiftArithmetic (lift x) n size).1 = lift (x.sshiftRight n) := by
  have hsign : bitAt (lift x) (size.bits - 1) = x.msb := by
    rw [bitAt_eq, getLsbD_lift x size.le_64, ← BitVec.msb_eq_getLsbD_last]
  unfold Cpu.shiftArithmetic
  dsimp only
  rw [hsign]
  by_cases hn : n ≥ size.bits
  · rw [if_pos hn, size.mask_eq, sshiftRight_all x hn]
    cases x.msb with
    | false => exact lift_zero.symm
    | true => rfl
  · rw [if_neg hn]
    cases hmsb : x.msb with
    | false =>
      rw [if_neg Bool.false_ne_true, shr_low, sshiftRight_pos hmsb]
    | true =>
      rw [if_pos rfl, sign_filled x n, sshiftRight_neg hmsb (by omega)]

theorem shiftArithmetic_flag (v : Cpu) (x : BitVec size.bits) (n : Nat) (hj : j < 64) :
    (v.shiftArithmetic (lift x) n size).2.flag j =
      if j = cfBit then x.getLsbD (n - 1)
      else if j = ofBit then false
      else (v.flagLogic (lift (x.sshiftRight n)) size).flag j := by
  rw [← shiftArithmetic_fst v x n]
  unfold Cpu.shiftArithmetic Cpu.flag
  dsimp only
  rw [bit_eq, getLsbD_lift x size.le_64, flag_replace _ _ hj]

end Shifts

section Spec

/-- The shifts and rotations of the architecture. -/
inductive ShiftOp
  | rol | ror | rcl | rcr | shl | shr | sar
deriving DecidableEq

/-- The operation a group-2 opcode extension stands for. -/
def ShiftOp.ofCode : Fin 8 → ShiftOp
  | 0 => .rol
  | 1 => .ror
  | 2 => .rcl
  | 3 => .rcr
  | 4 => .shl
  | 5 => .shr
  | 6 => .shl
  | 7 => .sar

def ShiftOp.result (op : ShiftOp) (cf : Bool) (x : BitVec w) (n : Nat) : BitVec w :=
  match op with
  | .rol => x.rotateLeft n
  | .ror => x.rotateRight n
  | .rcl => ((BitVec.cons cf x).rotateLeft n).setWidth w
  | .rcr => ((BitVec.cons cf x).rotateRight n).setWidth w
  | .shl => x <<< n
  | .shr => x >>> n
  | .sar => x.sshiftRight n

/-- The last bit shifted out. -/
def ShiftOp.carryOut (op : ShiftOp) (cf : Bool) (x : BitVec w) (n : Nat) : Bool :=
  match op with
  | .rol => (x.rotateLeft n).getLsbD 0
  | .ror => (x.rotateRight n).msb
  | .rcl => ((BitVec.cons cf x).rotateLeft n).msb
  | .rcr => ((BitVec.cons cf x).rotateRight n).msb
  | .shl => (x <<< (n - 1)).msb
  | .shr => (x >>> (n - 1)).getLsbD 0
  | .sar => (x.sshiftRight (n - 1)).getLsbD 0

/-- OF after a shift or rotation by one. -/
def ShiftOp.overflow (op : ShiftOp) (cf : Bool) (x : BitVec w) : Bool :=
  let r := op.result cf x 1
  match op with
  | .rol | .rcl | .shl => r.msb ^^ op.carryOut cf x 1
  | .ror | .rcr => r.msb ^^ r.getLsbD (w - 2)
  | .shr => x.msb
  | .sar => false

def ShiftOp.isShift : ShiftOp → Bool
  | .shl | .shr | .sar => true
  | _ => false

/-- The outcome of shifting `x` by `n` is the one of the architecture. -/
structure ShiftResult (op : ShiftOp) (v : Cpu) (x : BitVec w) (n : Nat)
    (out : BitVec 64 × Cpu) : Prop where
  result : out.1 = lift (op.result (v.flag cfBit) x n)
  carry : n ≠ 0 → out.2.flag cfBit = op.carryOut (v.flag cfBit) x n
  sign : n ≠ 0 → op.isShift = true → out.2.flag sfBit = (op.result (v.flag cfBit) x n).msb
  zero : n ≠ 0 → op.isShift = true → out.2.flag zfBit = decide (op.result (v.flag cfBit) x n = 0)
  parity : n ≠ 0 → op.isShift = true →
    out.2.flag pfBit = evenOnes ((op.result (v.flag cfBit) x n).setWidth 8)
  overflow : n = 1 → out.2.flag ofBit = op.overflow (v.flag cfBit) x
  unchanged : n = 0 → out.2 = v

/-- `vfl_do_shift` gives what the architecture gives. -/
def ShiftMatches (v : Cpu) (op : Fin 8) (val : BitVec 64) (count : Nat) (size : Size) : Prop :=
  ShiftResult (ShiftOp.ofCode op) v (val.setWidth size.bits : BitVec size.bits)
    (maskedCount size count) (v.doShift op val count size)

end Spec

section Outcomes

variable {size : Size}

theorem flagLogic_sign (v : Cpu) (y : BitVec size.bits) (hlazy : v.lazyEnabled = false) :
    (v.flagLogic (lift y) size).flag sfBit = y.msb := by
  have hst : statusFlags.getLsbD sfBit = true := by decide
  unfold Cpu.flag
  rw [getLsbD_flagLogic v y hlazy _ (by decide), hst]
  simp

theorem flagLogic_zero (v : Cpu) (y : BitVec size.bits) (hlazy : v.lazyEnabled = false) :
    (v.flagLogic (lift y) size).flag zfBit = decide (y = 0) := by
  have hst : statusFlags.getLsbD zfBit = true := by decide
  unfold Cpu.flag
  rw [getLsbD_flagLogic v y hlazy _ (by decide), hst]
  simp

theorem flagLogic_parity (v : Cpu) (y : BitVec size.bits) (hlazy : v.lazyEnabled = false) :
    (v.flagLogic (lift y) size).flag pfBit = evenOnes (y.setWidth 8) := by
  have hst : statusFlags.getLsbD pfBit = true := by decide
  unfold Cpu.flag
  rw [getLsbD_flagLogic v y hlazy _ (by decide), hst]
  simp

theorem left_rotation (v : Cpu) (y : BitVec size.bits) (f : BitVec 64) (c : Bool) :
    v.withFlags (leftOverflow size (lift y, putFlag f cfBit c)) =
      (lift y, { v with rflags := putFlag (putFlag f cfBit c) ofBit (y.msb ^^ c) }) := by
  unfold Cpu.withFlags leftOverflow
  dsimp only
  rw [bitAt_eq, bitAt_eq, getLsbD_lift y size.le_64, ← BitVec.msb_eq_getLsbD_last,
    getLsbD_putFlag _ _ _ (by decide), if_pos rfl]

theorem right_rotation (v : Cpu) (y : BitVec size.bits) (f : BitVec 64) (c : Bool) :
    v.withFlags (rightOverflow size (lift y, putFlag f cfBit c)) =
      (lift y, { v with
        rflags := putFlag (putFlag f cfBit c) ofBit (y.msb ^^ y.getLsbD (size.bits - 2)) }) := by
  unfold Cpu.withFlags rightOverflow
  dsimp only
  rw [bitAt_eq, bitAt_eq, getLsbD_lift y size.le_64, getLsbD_lift y size.le_64,
    ← BitVec.msb_eq_getLsbD_last]

/-- A rotation that leaves the carry `c` and the overflow `b`. -/
theorem ShiftResult.of_rotation {op : ShiftOp} {v : Cpu} {x y : BitVec size.bits} {n : Nat} {c b : Bool}
    (hn : n ≠ 0) (hop : op.isShift = false) (hy : op.result (v.flag cfBit) x n = y)
    (hc : op.carryOut (v.flag cfBit) x n = c) (hb : n = 1 → op.overflow (v.flag cfBit) x = b) :
    ShiftResult op v x n
      (lift y &&& size.mask, { v with rflags := putFlag (putFlag v.rflags cfBit c) ofBit b }) where
  result := by rw [lift_and_mask, hy]
  carry := by
    intro _
    rw [hc]
    unfold Cpu.flag
    rw [getLsbD_putFlag _ _ _ (by decide), getLsbD_putFlag _ _ _ (by decide)]
    rfl
  sign := fun _ h => absurd (hop.symm.trans h) Bool.false_ne_true
  zero := fun _ h => absurd (hop.symm.trans h) Bool.false_ne_true
  parity := fun _ h => absurd (hop.symm.trans h) Bool.false_ne_true
  overflow := by
    intro h1
    rw [hb h1]
    unfold Cpu.flag
    rw [getLsbD_putFlag _ _ _ (by decide)]
    rfl
  unchanged := fun h => absurd h hn

/-- The result of an operation, cut down to the operand size. -/
def cut (size : Size) (out : BitVec 64 × Cpu) : BitVec 64 × Cpu := (out.1 &&& size.mask, out.2)

theorem rol_result (v : Cpu) (x : BitVec size.bits) {n : Nat} (hn : n ≠ 0) :
    ShiftResult .rol v x n
      (cut size (v.withFlags (leftOverflow size ((rolStep size)^[n] (lift x, v.rflags))))) := by
  rw [rolStep_iterate, if_neg hn, left_rotation]
  apply ShiftResult.of_rotation hn rfl rfl rfl
  intro h1
  rw [h1]
  rfl

theorem ror_result (v : Cpu) (x : BitVec size.bits) {n : Nat} (hn : n ≠ 0) :
    ShiftResult .ror v x n
      (cut size (v.withFlags (rightOverflow size ((rorStep size)^[n] (lift x, v.rflags))))) := by
  rw [rorStep_iterate, if_neg hn, right_rotation]
  apply ShiftResult.of_rotation hn rfl rfl rfl
  intro h1
  rw [h1]
  rfl

theorem rcl_result (v : Cpu) (x : BitVec size.bits) {n : Nat} (hn : n ≠ 0) :
    ShiftResult .rcl v x n
      (cut size (v.withFlags (leftOverflow size ((rclStep size)^[n] (lift x, v.rflags))))) := by
  rw [rclStep_iterate, left_rotation]
  apply ShiftResult.of_rotation hn rfl rfl rfl
  intro h1
  rw [h1]
  rfl

theorem rcr_result (v : Cpu) (x : BitVec size.bits) {n : Nat} (hn : n ≠ 0) :
    ShiftResult .rcr v x n
      (cut size (v.withFlags (rightOverflow size ((rcrStep size)^[n] (lift x, v.rflags))))) := by
  rw [rcrStep_iterate, right_rotation]
  apply ShiftResult.of_rotation hn rfl rfl rfl
  intro h1
  rw [h1]
  rfl

theorem shl_result (v : Cpu) (x : BitVec size.bits) {n : Nat} (hn : n ≠ 0)
    (hlazy : v.lazyEnabled = false) :
    ShiftResult .shl v x n (cut size (v.shiftLeft (lift x) n size)) where
  result := by
    unfold cut
    rw [shiftLeft_fst, lift_and_mask]
    rfl
  carry := fun _ => shiftLeft_flag v x n hn hlazy (by decide)
  sign := by
    intro _ _
    have h := shiftLeft_flag v x n hn hlazy (show sfBit < 64 by decide)
    rw [flagLogic_sign v _ hlazy] at h
    exact h
  zero := by
    intro _ _
    have h := shiftLeft_flag v x n hn hlazy (show zfBit < 64 by decide)
    rw [flagLogic_zero v _ hlazy] at h
    exact h
  parity := by
    intro _ _
    have h := shiftLeft_flag v x n hn hlazy (show pfBit < 64 by decide)
    rw [flagLogic_parity v _ hlazy] at h
    exact h
  overflow := by
    intro h1
    have h := shiftLeft_flag v x n hn hlazy (show ofBit < 64 by decide)
    rw [if_neg (by decide), if_pos ⟨rfl, h1⟩] at h
    have hzero : x <<< (1 - 1) = x := BitVec.shiftLeft_zero x
    unfold ShiftOp.overflow ShiftOp.carryOut
    dsimp only
    rw [hzero]
    exact h
  unchanged := fun h => absurd h hn

/-- The flags of a shift to the right with the result `y`. -/
structure RightFlags (v : Cpu) (x y : BitVec size.bits) (n : Nat) (out : Cpu) : Prop where
  carry : out.flag cfBit = x.getLsbD (n - 1)
  overflow : out.flag ofBit = false
  sign : out.flag sfBit = y.msb
  zero : out.flag zfBit = decide (y = 0)
  parity : out.flag pfBit = evenOnes (y.setWidth 8)

theorem RightFlags.of_flag {v out : Cpu} {x y : BitVec size.bits} {n : Nat}
    (hlazy : v.lazyEnabled = false)
    (h : ∀ j < 64, out.flag j = if j = cfBit then x.getLsbD (n - 1) else if j = ofBit then false
      else (v.flagLogic (lift y) size).flag j) : RightFlags v x y n out where
  carry := h cfBit (by decide)
  overflow := h ofBit (by decide)
  sign := (h sfBit (by decide)).trans (flagLogic_sign v y hlazy)
  zero := (h zfBit (by decide)).trans (flagLogic_zero v y hlazy)
  parity := (h pfBit (by decide)).trans (flagLogic_parity v y hlazy)

/-- SHR is the one of the architecture except for the overflow of a negative operand. -/
theorem shr_result_iff (v : Cpu) (x : BitVec size.bits) {n : Nat} (hn : n ≠ 0)
    (hlazy : v.lazyEnabled = false) :
    ShiftResult .shr v x n (cut size (v.shiftRight (lift x) n size)) ↔ ¬ (n = 1 ∧ x.msb = true) := by
  have hflags : RightFlags v x (x >>> n) n (v.shiftRight (lift x) n size).2 :=
    RightFlags.of_flag hlazy fun j hj => shiftRight_flag v x n hj
  constructor
  · intro h ⟨h1, hmsb⟩
    have hover := h.overflow h1
    rw [show (cut size (v.shiftRight (lift x) n size)).2 = (v.shiftRight (lift x) n size).2 from rfl,
      hflags.overflow] at hover
    exact absurd (hover.trans hmsb) Bool.false_ne_true
  · intro h
    refine ⟨?_, ?_, fun _ _ => hflags.sign, fun _ _ => hflags.zero, fun _ _ => hflags.parity, ?_,
      fun h0 => absurd h0 hn⟩
    · unfold cut
      rw [shiftRight_fst, lift_and_mask]
      rfl
    · intro _
      refine hflags.carry.trans ?_
      unfold ShiftOp.carryOut
      dsimp only
      rw [BitVec.getLsbD_ushiftRight, Nat.add_zero]
    · intro h1
      refine hflags.overflow.trans ?_
      unfold ShiftOp.overflow
      cases hmsb : x.msb with
      | false => rfl
      | true => exact absurd ⟨h1, hmsb⟩ h

/-- SAR is the one of the architecture except for the carry of a shift by more than the width. -/
theorem sar_result_iff (v : Cpu) (x : BitVec size.bits) {n : Nat} (hn : n ≠ 0)
    (hlazy : v.lazyEnabled = false) :
    ShiftResult .sar v x n (cut size (v.shiftArithmetic (lift x) n size)) ↔
      ¬ (size.bits < n ∧ x.msb = true) := by
  have hflags : RightFlags v x (x.sshiftRight n) n (v.shiftArithmetic (lift x) n size).2 :=
    RightFlags.of_flag hlazy fun j hj => shiftArithmetic_flag v x n hj
  have hlt := size.one_lt
  have hout : ShiftOp.sar.carryOut (v.flag cfBit) x n =
      if n - 1 < size.bits then x.getLsbD (n - 1) else x.msb := by
    unfold ShiftOp.carryOut
    dsimp only
    rw [BitVec.getLsbD_sshiftRight, Nat.add_zero]
    have h0 : ¬ size.bits ≤ 0 := by omega
    simp [h0]
  constructor
  · intro h ⟨hbig, hmsb⟩
    have hcarry := h.carry hn
    rw [show (cut size (v.shiftArithmetic (lift x) n size)).2 =
      (v.shiftArithmetic (lift x) n size).2 from rfl, hflags.carry, hout, if_neg (by omega),
      BitVec.getLsbD_of_ge _ _ (by omega)] at hcarry
    exact absurd (hcarry.trans hmsb) Bool.false_ne_true
  · intro h
    refine ⟨?_, ?_, fun _ _ => hflags.sign, fun _ _ => hflags.zero, fun _ _ => hflags.parity,
      fun _ => hflags.overflow, fun h0 => absurd h0 hn⟩
    · unfold cut
      rw [shiftArithmetic_fst, lift_and_mask]
      rfl
    · intro _
      refine hflags.carry.trans ?_
      rw [hout]
      split
      · rfl
      · rename_i hge
        rw [BitVec.getLsbD_of_ge _ _ (by omega)]
        cases hmsb : x.msb with
        | false => rfl
        | true => exact absurd ⟨by omega, hmsb⟩ h

end Outcomes

section Main

/-- The inputs on which a shift to the right loses a flag of a negative operand: the overflow of SHR
by one, and the carry of SAR by more than the operand width. -/
def LosesSign (op : Fin 8) (val : BitVec 64) (count : Nat) (size : Size) : Prop :=
  (op = 5 ∧ maskedCount size count = 1 ∨ op = 7 ∧ size.bits < maskedCount size count) ∧
    (val.setWidth size.bits).msb = true

theorem doShift_eq (v : Cpu) (op : Fin 8) (val : BitVec 64) (count : Nat) (size : Size)
    (hn : maskedCount size count ≠ 0) :
    let n := maskedCount size count
    let x : BitVec 64 := lift (val.setWidth size.bits)
    v.doShift op val count size = cut size (match op with
      | 0 => v.withFlags (leftOverflow size ((rolStep size)^[n] (x, v.rflags)))
      | 1 => v.withFlags (rightOverflow size ((rorStep size)^[n] (x, v.rflags)))
      | 2 => v.withFlags (leftOverflow size ((rclStep size)^[n] (x, v.rflags)))
      | 3 => v.withFlags (rightOverflow size ((rcrStep size)^[n] (x, v.rflags)))
      | 4 | 6 => v.shiftLeft x n size
      | 5 => v.shiftRight x n size
      | 7 => v.shiftArithmetic x n size) := by
  intro n x
  have hx : x = val &&& size.mask := (and_mask val size).symm
  rw [hx]
  unfold Cpu.doShift
  dsimp only
  rw [if_neg hn]
  rfl

theorem LosesSign.iff_shr (val : BitVec 64) (count : Nat) (size : Size) :
    LosesSign 5 val count size ↔ maskedCount size count = 1 ∧ (val.setWidth size.bits).msb = true := by
  simp [LosesSign]

theorem LosesSign.iff_sar (val : BitVec 64) (count : Nat) (size : Size) :
    LosesSign 7 val count size ↔
      size.bits < maskedCount size count ∧ (val.setWidth size.bits).msb = true := by
  simp [LosesSign]

theorem LosesSign.right (h : LosesSign op val count size) : op = 5 ∨ op = 7 :=
  h.1.elim (fun h => .inl h.1) fun h => .inr h.1

theorem LosesSign.count_ne_zero (h : LosesSign op val count size) : maskedCount size count ≠ 0 := by
  have hlt := size.one_lt
  obtain ⟨⟨_, h1⟩ | ⟨_, hbig⟩, _⟩ := h <;> omega

theorem ShiftOp.result_zero (op : ShiftOp) (cf : Bool) (x : BitVec w) (hw : 1 < w) :
    op.result cf x 0 = x := by
  cases op with
  | rol => exact Shifts.rotateLeft_zero x (by omega)
  | ror => exact Shifts.rotateRight_zero x
  | rcl =>
    unfold ShiftOp.result
    dsimp only
    rw [Shifts.rotateLeft_zero _ (by omega), BitVec.setWidth_cons]
  | rcr =>
    unfold ShiftOp.result
    dsimp only
    rw [Shifts.rotateRight_zero, BitVec.setWidth_cons]
  | shl => exact BitVec.shiftLeft_zero x
  | shr => exact BitVec.ushiftRight_zero x
  | sar => exact BitVec.sshiftRight_zero

/-- A count of zero changes nothing. -/
theorem doShift_zero (v : Cpu) (op : Fin 8) (val : BitVec 64) (count : Nat) (size : Size)
    (hn : maskedCount size count = 0) : ShiftMatches v op val count size := by
  have hout : v.doShift op val count size = (val &&& size.mask, v) := by
    unfold Cpu.doShift
    dsimp only
    rw [if_pos hn]
  unfold ShiftMatches
  rw [hout, hn]
  refine ⟨?_, fun h => absurd rfl h, fun h => absurd rfl h, fun h => absurd rfl h,
    fun h => absurd rfl h, fun h => absurd h (by decide), fun _ => rfl⟩
  rw [ShiftOp.result_zero _ _ _ size.one_lt]
  exact and_mask val size

/-- `vfl_do_shift` is the shift of the architecture exactly when it loses no sign. -/
theorem doShift_matches_iff (v : Cpu) (op : Fin 8) (val : BitVec 64) (count : Nat) (size : Size)
    (hlazy : v.lazyEnabled = false) :
    ShiftMatches v op val count size ↔ ¬ LosesSign op val count size := by
  by_cases hn : maskedCount size count = 0
  · exact iff_of_true (doShift_zero v op val count size hn) fun h => h.count_ne_zero hn
  · have hother : op ≠ 5 → op ≠ 7 → ¬ LosesSign op val count size :=
      fun h5 h7 h => h.right.elim h5 h7
    have heq := doShift_eq v op val count size hn
    unfold ShiftMatches
    rw [heq]
    match op with
    | 0 => exact iff_of_true (rol_result v _ hn) (hother (by decide) (by decide))
    | 1 => exact iff_of_true (ror_result v _ hn) (hother (by decide) (by decide))
    | 2 => exact iff_of_true (rcl_result v _ hn) (hother (by decide) (by decide))
    | 3 => exact iff_of_true (rcr_result v _ hn) (hother (by decide) (by decide))
    | 4 | 6 => exact iff_of_true (shl_result v _ hn hlazy) (hother (by decide) (by decide))
    | 5 =>
      rw [LosesSign.iff_shr]
      exact shr_result_iff v _ hn hlazy
    | 7 =>
      rw [LosesSign.iff_sar]
      exact sar_result_iff v _ hn hlazy

/-- A machine with all registers and flags zero. -/
def idleCpu : Cpu where
  regs := fun _ => 0
  rflags := 0
  lazyEnabled := false
  pending := ⟨0, .byte, 0, 0, 0, 0⟩

theorem doShift_matches_iff_example :
    ShiftMatches idleCpu 5 0x80 1 .byte ↔ ¬ LosesSign 5 0x80 1 .byte :=
  doShift_matches_iff idleCpu 5 0x80 1 .byte rfl

/-- SHR of 0x80 by one clears OF, and SAR of 0x8000 by 17 clears CF. -/
theorem doShift_loses_sign :
    ¬ ShiftMatches idleCpu 5 0x80 1 .byte ∧ ¬ ShiftMatches idleCpu 7 0x8000 17 .word := by
  constructor
  · intro h
    exact absurd (h.overflow (by decide)) (by decide)
  · intro h
    exact absurd (h.carry (by decide)) (by decide)

end Main

end Lebirun.Vfl
