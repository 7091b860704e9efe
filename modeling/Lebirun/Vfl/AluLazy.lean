import Lebirun.Vfl.AluSpec

namespace Lebirun.Vfl
set_option autoImplicit true

section Pending

/-- The flags once the operation on record has been caught up with. -/
def pendingFlags (f : BitVec 64) (l : LazyFlags) : BitVec 64 :=
  if l.op = 0 then f
  else if l.op = 1 then logicFlags f l.r l.size
  else if l.op = 2 then addFlags f l.a l.b l.carry l.r l.size
  else subFlags f l.a l.b l.carry l.r l.size

theorem flagsSync_eq (v : Cpu) : v.flagsSync =
    { v with rflags := pendingFlags v.rflags v.pending, pending := { v.pending with op := 0 } } := by
  obtain ⟨regs, f, enabled, op, size, carry, a, b, r⟩ := v
  unfold Cpu.flagsSync pendingFlags
  by_cases h₀ : op = 0
  · simp [h₀]
  · by_cases h₁ : op = 1
    · simp [h₁, flagLogic_eq]
    · by_cases h₂ : op = 2
      · simp [h₂, Cpu.flagAdd]
      · simp [h₀, h₁, h₂, Cpu.flagSub]

theorem raise_clear (f : BitVec 64) {i : Nat} (c : Bool) (hi : i < 64) (hs : statusFlags.getLsbD i = true) :
    raise f i c &&& ~~~statusFlags = f &&& ~~~statusFlags := by
  apply BitVec.eq_of_getLsbD_eq
  intro j hj
  rw [BitVec.getLsbD_and, BitVec.getLsbD_and, getLsbD_raised f i c hi]
  by_cases hji : j = i
  · subst hji
    rw [BitVec.getLsbD_not, hs]
    simp
  · simp [hji]

theorem logicFlags_eq (f r : BitVec 64) (size : Size) :
    logicFlags f r size = withStatus f false (decide (r &&& size.mask = 0))
      (decide (r &&& 1#64 <<< (size.bits - 1) ≠ 0)) false false (parity (r.setWidth 8)) := by
  unfold logicFlags withStatus raise
  simp only [decide_eq_true_eq, Bool.false_eq_true, if_false]

/-- An operation that replaces the flags needs only the bits that are no status flags, -/
theorem withStatus_congr {f g : BitVec 64} (h : f &&& ~~~statusFlags = g &&& ~~~statusFlags) :
    withStatus f c z s o a p = withStatus g c z s o a p := by
  unfold withStatus
  rw [h]

/-- and keeps them. -/
theorem withStatus_clear (f : BitVec 64) (c z s o a p : Bool) :
    withStatus f c z s o a p &&& ~~~statusFlags = f &&& ~~~statusFlags := by
  unfold withStatus
  rw [raise_clear _ _ (by decide) (by decide), raise_clear _ _ (by decide) (by decide),
    raise_clear _ _ (by decide) (by decide), raise_clear _ _ (by decide) (by decide),
    raise_clear _ _ (by decide) (by decide), raise_clear _ _ (by decide) (by decide),
    BitVec.and_assoc, BitVec.and_self]

theorem pendingFlags_clear (f : BitVec 64) (l : LazyFlags) :
    pendingFlags f l &&& ~~~statusFlags = f &&& ~~~statusFlags := by
  unfold pendingFlags
  split
  · rfl
  · split
    · rw [logicFlags_eq]
      exact withStatus_clear f ..
    · split
      · exact withStatus_clear f ..
      · exact withStatus_clear f ..

/-- The flags on record do not matter to an operation that replaces them. -/
theorem addFlags_pending (f a b carry r : BitVec 64) (size : Size) (l : LazyFlags) :
    addFlags (pendingFlags f l) a b carry r size = addFlags f a b carry r size :=
  withStatus_congr (pendingFlags_clear f l)

theorem subFlags_pending (f a b borrow r : BitVec 64) (size : Size) (l : LazyFlags) :
    subFlags (pendingFlags f l) a b borrow r size = subFlags f a b borrow r size :=
  withStatus_congr (pendingFlags_clear f l)

theorem logicFlags_pending (f r : BitVec 64) (size : Size) (l : LazyFlags) :
    logicFlags (pendingFlags f l) r size = logicFlags f r size := by
  rw [logicFlags_eq, logicFlags_eq]
  exact withStatus_congr (pendingFlags_clear f l)

end Pending

section Calls

/-- Nothing is on record while the flags are not put off. -/
def Cpu.Coherent (v : Cpu) : Prop := v.lazyEnabled = true ∨ v.pending.op = 0

/-- The flags as a reader finds them. -/
def Cpu.settled (v : Cpu) : BitVec 64 := v.flagsSync.rflags

theorem settled_eq (v : Cpu) : v.settled = pendingFlags v.rflags v.pending := by
  unfold Cpu.settled
  rw [flagsSync_eq]

theorem settled_idle {v : Cpu} (h : v.pending.op = 0) : v.settled = v.rflags := by
  rw [settled_eq]
  exact if_pos h

/-- The state `v'` follows `v` with the flags `f`, and only flags have changed. -/
structure Follows (v v' : Cpu) (f : BitVec 64) : Prop where
  flags : v'.settled = f
  coherent : v'.Coherent
  enabled : v'.lazyEnabled = v.lazyEnabled
  regs : v'.regs = v.regs

theorem flagLogic_follows (hv : v.Coherent) (r : BitVec 64) (size : Size) :
    Follows v (v.flagLogic r size) (logicFlags v.settled r size) := by
  rw [flagLogic_eq, settled_eq, logicFlags_pending]
  by_cases h : v.lazyEnabled = true
  · rw [if_pos h]
    exact ⟨settled_eq _, .inl h, rfl, rfl⟩
  · have hp := hv.resolve_left h
    rw [if_neg h]
    exact ⟨settled_idle hp, .inr hp, rfl, rfl⟩

theorem flagAdd_follows (hv : v.Coherent) (a b carry r : BitVec 64) (size : Size) :
    Follows v (v.flagAdd a b carry r size) (addFlags v.settled a b carry r size) := by
  rw [settled_eq, addFlags_pending]
  unfold Cpu.flagAdd
  by_cases h : v.lazyEnabled = true
  · rw [if_pos h]
    exact ⟨settled_eq _, .inl h, rfl, rfl⟩
  · have hp := hv.resolve_left h
    rw [if_neg h]
    exact ⟨settled_idle hp, .inr hp, rfl, rfl⟩

theorem flagSub_follows (hv : v.Coherent) (a b borrow r : BitVec 64) (size : Size) :
    Follows v (v.flagSub a b borrow r size) (subFlags v.settled a b borrow r size) := by
  rw [settled_eq, subFlags_pending]
  unfold Cpu.flagSub
  by_cases h : v.lazyEnabled = true
  · rw [if_pos h]
    exact ⟨settled_eq _, .inl h, rfl, rfl⟩
  · have hp := hv.resolve_left h
    rw [if_neg h]
    exact ⟨settled_idle hp, .inr hp, rfl, rfl⟩

theorem flagsSync_follows (v : Cpu) : Follows v v.flagsSync v.settled := by
  have hidle : v.flagsSync.pending.op = 0 := by rw [flagsSync_eq]
  exact ⟨settled_idle hidle, .inr hidle, by rw [flagsSync_eq], by rw [flagsSync_eq]⟩

theorem Follows.trans (h₁ : Follows v₁ v₂ f₁) (h₂ : Follows v₂ v₃ f₂) : Follows v₁ v₃ f₂ :=
  ⟨h₂.flags, h₂.coherent, h₂.enabled.trans h₁.enabled, h₂.regs.trans h₁.regs⟩

theorem Follows.refl (hv : v.Coherent) : Follows v v v.settled := ⟨rfl, hv, rfl, rfl⟩

/-- Putting back a setting that never changed. -/
theorem Follows.restore {v w : Cpu} (h : Follows v w f) : Follows v { w with lazyEnabled := v.lazyEnabled } f := by
  rw [← h.enabled]
  exact h

/-- Flags that are worked out at once after the sync, whatever the setting. -/
theorem follows_eager (v : Cpu) (f : BitVec 64) :
    Follows v { v.flagsSync with rflags := f, lazyEnabled := v.lazyEnabled } f := by
  have hidle : v.flagsSync.pending.op = 0 := by rw [flagsSync_eq]
  exact ⟨settled_idle hidle, .inr hidle, rfl, by rw [flagsSync_eq]⟩

/-- What `vfl_do_alu` returns, and the flags that a reader finds afterwards. -/
theorem doAlu_follows {v : Cpu} (hv : v.Coherent) (op : AluOp) (a b : BitVec 64) (size : Size) :
    (v.doAlu op a b size).1 = (aluOut op v.settled a b size).1 ∧
      Follows v (v.doAlu op a b size).2 (aluOut op v.settled a b size).2 := by
  have hsync := flagsSync_follows v
  cases op with
  | add => exact ⟨rfl, (flagAdd_follows hv a b 0 _ size).restore⟩
  | or => exact ⟨rfl, (flagLogic_follows hv _ size).restore⟩
  | adc =>
    have h := flagAdd_follows hsync.coherent a b (v.settled &&& 1#64)
      (((a &&& size.mask) + (b &&& size.mask) + (v.settled &&& 1#64)) &&& size.mask) size
    rw [hsync.flags] at h
    exact ⟨rfl, (hsync.trans h).restore⟩
  | sbb =>
    have h := flagSub_follows hsync.coherent a b (v.settled &&& 1#64)
      ((a - b - (v.settled &&& 1#64)) &&& size.mask) size
    rw [hsync.flags] at h
    exact ⟨rfl, (hsync.trans h).restore⟩
  | and => exact ⟨rfl, (flagLogic_follows hv _ size).restore⟩
  | sub => exact ⟨rfl, (flagSub_follows hv a b 0 _ size).restore⟩
  | xor => exact ⟨rfl, (flagLogic_follows hv _ size).restore⟩
  | cmp => exact ⟨rfl, (flagSub_follows hv a b 0 _ size).restore⟩
  | inc => exact ⟨rfl, follows_eager v _⟩
  | dec => exact ⟨rfl, follows_eager v _⟩
  | not => exact ⟨rfl, (Follows.refl hv).restore⟩
  | neg => exact ⟨rfl, (flagSub_follows hv 0 a 0 _ size).restore⟩

/-- The calls that work on the flags. -/
inductive Call
  | alu (op : AluOp) (a b : BitVec 64) (size : Size)
  | logic (r : BitVec 64) (size : Size)
  | enable
  | disable

/-- The calls that only change the setting. -/
def Call.switches : Call → Bool
  | .enable | .disable => true
  | _ => false

/-- One call; the flags stop being put off after a `vfl_flags_sync`. -/
def Cpu.call (v : Cpu) : Call → Cpu
  | .alu op a b size => (v.doAlu op a b size).2
  | .logic r size => v.flagLogic r size
  | .enable => { v with lazyEnabled := true }
  | .disable => { v.flagsSync with lazyEnabled := false }

/-- The value a call returns. -/
def Cpu.returns (v : Cpu) : Call → Option (BitVec 64)
  | .alu op a b size => some (v.doAlu op a b size).1
  | _ => none

def Cpu.calls (v : Cpu) (cs : List Call) : Cpu := cs.foldl Cpu.call v

/-- The state in which the flags are up to date and are not put off. -/
def Cpu.direct (v : Cpu) : Cpu := { v.flagsSync with lazyEnabled := false }

/-- What the calls of a run return. -/
def Cpu.outputs (v : Cpu) : List Call → List (BitVec 64)
  | [] => []
  | c :: cs => (v.returns c).toList ++ (v.call c).outputs cs

/-- The same flags are read in both states, and in the second nothing is put off. -/
structure Same (v w : Cpu) : Prop where
  coherent : v.Coherent
  idle : w.Coherent
  direct : w.lazyEnabled = false
  flags : w.settled = v.settled

theorem Same.rflags {v w : Cpu} (h : Same v w) : v.settled = w.rflags := by
  have hp : w.pending.op = 0 := by
    apply h.idle.resolve_left
    rw [h.direct]
    exact Bool.false_ne_true
  rw [← h.flags, settled_idle hp]

/-- A call does the same in both states. -/
theorem Same.call {v w : Cpu} (h : Same v w) {c : Call} (hc : c.switches = false) :
    Same (v.call c) (w.call c) ∧ v.returns c = w.returns c := by
  cases c with
  | alu op a b size =>
    obtain ⟨hr, hv⟩ := doAlu_follows h.coherent op a b size
    obtain ⟨hr', hw⟩ := doAlu_follows h.idle op a b size
    rw [h.flags] at hr' hw
    exact ⟨⟨hv.coherent, hw.coherent, hw.enabled.trans h.direct, hw.flags.trans hv.flags.symm⟩,
      congrArg some (hr.trans hr'.symm)⟩
  | logic r size =>
    have hv := flagLogic_follows h.coherent r size
    have hw := flagLogic_follows h.idle r size
    rw [h.flags] at hw
    exact ⟨⟨hv.coherent, hw.coherent, hw.enabled.trans h.direct, hw.flags.trans hv.flags.symm⟩, rfl⟩
  | enable => cases hc
  | disable => cases hc

/-- A change of the setting leaves the flags alone. -/
theorem Same.switch {v w : Cpu} (h : Same v w) {c : Call} (hc : c.switches = true) :
    Same (v.call c) w ∧ v.returns c = none := by
  cases c with
  | alu op a b size => cases hc
  | logic r size => cases hc
  | enable =>
    have hs : (v.call .enable).settled = v.settled := by
      rw [settled_eq, settled_eq]
      rfl
    exact ⟨⟨.inl rfl, h.idle, h.direct, h.flags.trans hs.symm⟩, rfl⟩
  | disable =>
    have hidle : v.flagsSync.pending.op = 0 := by rw [flagsSync_eq]
    have hs : (v.call .disable).settled = v.settled := settled_idle hidle
    exact ⟨⟨.inr hidle, h.idle, h.direct, h.flags.trans hs.symm⟩, rfl⟩

theorem Same.direct_start {v : Cpu} (hv : v.Coherent) : Same v v.direct := by
  have hidle : v.flagsSync.pending.op = 0 := by rw [flagsSync_eq]
  exact ⟨hv, .inr hidle, rfl, settled_idle hidle⟩

/-- A run with the flags put off now and then, and the same run with flags that never are. -/
theorem Same.calls {v w : Cpu} (h : Same v w) (cs : List Call) :
    Same (v.calls cs) (w.calls (cs.filter fun c => !c.switches)) ∧
      v.outputs cs = w.outputs (cs.filter fun c => !c.switches) := by
  induction cs generalizing v w with
  | nil => exact ⟨h, rfl⟩
  | cons c cs ih =>
    cases hc : c.switches with
    | false =>
      obtain ⟨hnext, hret⟩ := h.call hc
      obtain ⟨hrun, hout⟩ := ih hnext
      rw [List.filter_cons_of_pos (by simp [hc])]
      refine ⟨hrun, ?_⟩
      show (v.returns c).toList ++ (v.call c).outputs cs = (w.returns c).toList ++ (w.call c).outputs _
      rw [hret, hout]
    | true =>
      obtain ⟨hnext, hret⟩ := h.switch hc
      obtain ⟨hrun, hout⟩ := ih hnext
      rw [List.filter_cons_of_neg (by simp [hc])]
      refine ⟨hrun, ?_⟩
      show (v.returns c).toList ++ (v.call c).outputs cs = _
      rw [hret, hout]
      rfl

end Calls

section Result

/-- The results and flags of `vfl_do_alu` are those of the architecture, and a run that puts flags off
ends with the flags and the results of one that does not. -/
theorem alu_matches {v : Cpu} (hv : v.Coherent) :
    (∀ op a b size,
      AluResult op v.flagsSync.rflags (a.setWidth size.bits) (b.setWidth size.bits) (v.doAlu op a b size).1
        (v.doAlu op a b size).2.flagsSync.rflags ∧
      (v.lazyEnabled = false → (v.doAlu op a b size).2.flagsSync.rflags = (v.doAlu op a b size).2.rflags)) ∧
    ∀ cs, (v.calls cs).flagsSync.rflags = (v.direct.calls (cs.filter fun c => !c.switches)).rflags ∧
      v.outputs cs = v.direct.outputs (cs.filter fun c => !c.switches) := by
  constructor
  · intro op a b size
    obtain ⟨hr, hnext⟩ := doAlu_follows hv op a b size
    have hresult := aluOut_result op v.settled a b size
    rw [← hr, ← hnext.flags] at hresult
    refine ⟨hresult, ?_⟩
    intro hdirect
    apply settled_idle
    apply hnext.coherent.resolve_left
    rw [hnext.enabled, hdirect]
    exact Bool.false_ne_true
  · intro cs
    obtain ⟨hrun, hout⟩ := (Same.direct_start hv).calls cs
    exact ⟨hrun.rflags, hout⟩

/-- An addition that is put off, and an INC after it. -/
theorem alu_matches_example :
    idleCpu.Coherent ∧ (idleCpu.calls [.enable, .alu .add 0xFF 1 .byte, .alu .inc 0x7F 0 .byte]).flagsSync.rflags =
      (idleCpu.direct.calls [.alu .add 0xFF 1 .byte, .alu .inc 0x7F 0 .byte]).rflags :=
  ⟨.inr rfl, ((alu_matches (.inr rfl)).2 [.enable, .alu .add 0xFF 1 .byte, .alu .inc 0x7F 0 .byte]).1⟩

end Result

end Lebirun.Vfl
