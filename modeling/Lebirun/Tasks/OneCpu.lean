import Lebirun.Lib.Run
import Lebirun.Tasks.Schedule

namespace Lebirun.Schedule
open Function (update)
set_option autoImplicit true

section Projections

variable {s : Kernel} {t u c d : Nat}

@[simp] theorem setTask_cpus (f : Task → Task) : (s.setTask t f).cpus = s.cpus := rfl

@[simp] theorem setTask_layout (f : Task → Task) : (s.setTask t f).layout = s.layout := rfl

@[simp] theorem setCpu_tasks (f : Cpu → Cpu) : (s.setCpu c f).tasks = s.tasks := rfl

@[simp] theorem setCpu_layout (f : Cpu → Cpu) : (s.setCpu c f).layout = s.layout := rfl

@[simp] theorem setTask_self (f : Task → Task) : (s.setTask t f).tasks t = f (s.tasks t) :=
  Function.update_self ..

theorem setTask_other (f : Task → Task) (h : u ≠ t) : (s.setTask t f).tasks u = s.tasks u :=
  Function.update_of_ne h ..

@[simp] theorem setCpu_self (f : Cpu → Cpu) : (s.setCpu c f).cpus c = f (s.cpus c) := Function.update_self ..

theorem setCpu_other (f : Cpu → Cpu) (h : d ≠ c) : (s.setCpu c f).cpus d = s.cpus d :=
  Function.update_of_ne h ..

end Projections

section Agreement

variable {s s' s'' : Kernel}

/-- What the places of the tasks depend on is the same for a CPU. -/
structure Cpu.Same (x y : Cpu) : Prop where
  active : y.active = x.active
  running : y.runningTask = x.runningTask
  switching : y.switchingTask = x.switchingTask
  kstack : y.kstack = x.kstack
  target : y.target = x.target
  entered : y.entered = x.entered

theorem Cpu.Same.refl (x : Cpu) : x.Same x := ⟨rfl, rfl, rfl, rfl, rfl, rfl⟩

/-- No task changes its place, nor what tells the idle task. -/
structure Kernel.Places (s s' : Kernel) : Prop where
  layout : s'.layout = s.layout
  cpus : ∀ c, (s.cpus c).Same (s'.cpus c)
  owner : ∀ t, (s'.tasks t).runningCpu = (s.tasks t).runningCpu
  isIdle : ∀ t, (s'.tasks t).isIdle = (s.tasks t).isIdle

/-- Nor does any task lose its resources. -/
structure Kernel.Agrees (s s' : Kernel) : Prop extends Kernel.Places s s' where
  released : ∀ t, (s'.tasks t).resourcesReleased = (s.tasks t).resourcesReleased

theorem Kernel.Agrees.refl (s : Kernel) : s.Agrees s :=
  ⟨⟨rfl, fun _ => .refl _, fun _ => rfl, fun _ => rfl⟩, fun _ => rfl⟩

theorem Kernel.Agrees.trans (h : s.Agrees s') (h' : s'.Agrees s'') : s.Agrees s'' where
  layout := h'.layout.trans h.layout
  cpus := by
    intro c
    have h₁ := h.cpus c
    have h₂ := h'.cpus c
    exact ⟨h₂.active.trans h₁.active, h₂.running.trans h₁.running, h₂.switching.trans h₁.switching,
      h₂.kstack.trans h₁.kstack, h₂.target.trans h₁.target, h₂.entered.trans h₁.entered⟩
  owner t := (h'.owner t).trans (h.owner t)
  isIdle t := (h'.isIdle t).trans (h.isIdle t)
  released t := (h'.released t).trans (h.released t)

/-- Nor does any task change its state. -/
structure Kernel.Still (s s' : Kernel) : Prop extends Kernel.Agrees s s' where
  state : ∀ t, (s'.tasks t).state = (s.tasks t).state

theorem Kernel.Still.refl (s : Kernel) : s.Still s := ⟨.refl s, fun _ => rfl⟩

theorem Kernel.Still.trans (h : s.Still s') (h' : s'.Still s'') : s.Still s'' :=
  ⟨h.toAgrees.trans h'.toAgrees, fun t => (h'.state t).trans (h.state t)⟩

/-- A task is changed, but for its place. -/
theorem agrees_setTask (s : Kernel) (t : Nat) (f : Task → Task)
    (howner : (f (s.tasks t)).runningCpu = (s.tasks t).runningCpu)
    (hidle : (f (s.tasks t)).isIdle = (s.tasks t).isIdle)
    (hreleased : (f (s.tasks t)).resourcesReleased = (s.tasks t).resourcesReleased) :
    s.Agrees (s.setTask t f) where
  layout := rfl
  cpus _ := .refl _
  owner u := by
    by_cases h : u = t
    · rw [h, setTask_self, howner]
    · rw [setTask_other f h]
  isIdle u := by
    by_cases h : u = t
    · rw [h, setTask_self, hidle]
    · rw [setTask_other f h]
  released u := by
    by_cases h : u = t
    · rw [h, setTask_self, hreleased]
    · rw [setTask_other f h]

theorem agrees_setState (s : Kernel) (t : Nat) (state : TaskState) : s.Agrees (s.setState t state) :=
  agrees_setTask s t _ rfl rfl rfl

/-- A task is changed, but for its place and its state. -/
theorem still_setTask (s : Kernel) (t : Nat) (f : Task → Task)
    (howner : (f (s.tasks t)).runningCpu = (s.tasks t).runningCpu)
    (hidle : (f (s.tasks t)).isIdle = (s.tasks t).isIdle)
    (hreleased : (f (s.tasks t)).resourcesReleased = (s.tasks t).resourcesReleased)
    (hstate : (f (s.tasks t)).state = (s.tasks t).state) : s.Still (s.setTask t f) := by
  refine ⟨agrees_setTask s t f howner hidle hreleased, fun u => ?_⟩
  by_cases h : u = t
  · rw [h, setTask_self, hstate]
  · rw [setTask_other f h]

theorem still_setCpu (s : Kernel) (c : Nat) (f : Cpu → Cpu) (hf : (s.cpus c).Same (f (s.cpus c))) :
    s.Still (s.setCpu c f) where
  layout := rfl
  cpus d := by
    by_cases h : d = c
    · rw [h, setCpu_self]
      exact hf
    · rw [setCpu_other f h]
      exact .refl _
  owner _ := rfl
  isIdle _ := rfl
  released _ := rfl
  state _ := rfl

/-- A step that is only made when there is a task. -/
theorem still_elim (o : Option Nat) (f : Nat → Kernel) (h : ∀ t, s.Still (f t)) : s.Still (o.elim s f) := by
  cases o with
  | none => exact .refl s
  | some t => exact h t

theorem still_ite {b : Prop} [Decidable b] {x y : Kernel × α} (hx : s.Still x.1) (hy : s.Still y.1) :
    s.Still (if b then x else y).1 := by
  split
  · exact hx
  · exact hy

theorem agrees_markReady (s : Kernel) (t : Nat) : s.Agrees (s.taskMarkReady t) := by
  unfold Kernel.taskMarkReady
  split
  · exact agrees_setState s t .ready
  · exact .refl s

theorem agrees_drain (s : Kernel) (woken : List Nat) : s.Agrees (s.drain woken) := by
  induction woken generalizing s with
  | nil => exact .refl s
  | cons t l ih => exact (agrees_markReady s t).trans (ih _)

theorem agrees_readyIdle (s : Kernel) (i : Nat) : s.Agrees (s.readyIdle i) := by
  have h := agrees_setState s i .ready
  unfold Kernel.readyIdle
  dsimp only
  split
  · exact h
  · exact ⟨⟨h.layout, h.cpus, h.owner, h.isIdle⟩, h.released⟩

theorem still_early (s : Kernel) (c regs : Nat) (gotLock : Bool) : s.Still (s.early c regs gotLock).1 := by
  unfold Kernel.early
  dsimp only
  apply still_ite (.refl s)
  apply still_ite (.refl s)
  apply still_ite (.refl s)
  apply still_ite _ (.refl s)
  exact still_elim _ _ fun t => still_setTask s t _ rfl rfl rfl rfl

theorem still_saveIrqFrame (s : Kernel) (c regs p : Nat) : s.Still (s.saveIrqFrame c regs p) := by
  have hsaved : s.Still (s.setTask p fun x => { x with rsp := regs }) := still_setTask s p _ rfl rfl rfl rfl
  unfold Kernel.saveIrqFrame
  dsimp only
  split
  · exact hsaved.trans (still_setCpu _ c _ ⟨rfl, rfl, rfl, rfl, rfl, rfl⟩)
  · exact hsaved

/-- The task that goes on to be replaced gets a new slice. -/
theorem still_newSlice (s : Kernel) (c : Nat) (mustSwitch : Bool) (prev : Option Nat) :
    s.Still (if mustSwitch then s.setCpu c fun x => { x with scheduleForce := false }
      else prev.elim (s.setCpu c fun x => { x with scheduleForce := false }) fun p =>
        (s.setCpu c fun x => { x with scheduleForce := false }).setTask p fun x =>
          { x with timeSlice := x.baseTimeSlice }) := by
  have hforce : s.Still (s.setCpu c fun x => { x with scheduleForce := false }) :=
    still_setCpu _ c _ ⟨rfl, rfl, rfl, rfl, rfl, rfl⟩
  split
  · exact hforce
  · exact hforce.trans (still_elim _ _ fun p => still_setTask _ p _ rfl rfl rfl rfl)

theorem still_account (s : Kernel) (c regs : Nat) (mustSwitch : Bool) :
    s.Still (s.account c regs mustSwitch).1 := by
  have hsave : s.Still ((s.cpus c).runningTask.elim s fun p =>
      if (s.tasks p).state = .dead then s else s.saveIrqFrame c regs p) := by
    apply still_elim
    intro p
    split
    · exact .refl s
    · exact still_saveIrqFrame s c regs p
  unfold Kernel.account
  dsimp only
  generalize (s.cpus c).runningTask.elim s _ = s₁ at hsave ⊢
  have htick : ∀ b : Prop, [Decidable b] → s.Still (if b then
      (s.cpus c).runningTask.elim s₁ (fun p => s₁.setTask p Task.tick) else s₁) := by
    intro b _
    split
    · exact hsave.trans (still_elim _ _ fun p => still_setTask s₁ p _ rfl rfl rfl rfl)
    · exact hsave
  apply still_ite (htick _)
  exact (htick _).trans (still_newSlice _ c mustSwitch _)

theorem still_charge (s : Kernel) (c t : Nat) : s.Still (s.charge c t) := by
  unfold Kernel.charge
  split
  · exact (still_setTask s t _ rfl rfl rfl rfl).trans (still_setCpu _ c _ ⟨rfl, rfl, rfl, rfl, rfl, rfl⟩)
  · exact .refl s

theorem still_setAffinity (s : Kernel) (t : Nat) (words : List Nat) (mem : Bool) :
    s.Still (s.setAffinity t words mem) := by
  unfold Kernel.setAffinity
  dsimp only
  split
  · exact .refl s
  split
  · exact .refl s
  split
  · exact .refl s
  · exact still_setTask s t _ rfl rfl rfl rfl

end Agreement

section Invariant

/-- Where the tasks are. A CPU that left the stack of a task has it as running or as switching task; the
frame it will return lies on the stack of its running task; and only the boot CPU runs the idle task. -/
structure Inv (s : Kernel) : Prop where
  owner : ∀ t (c : Nat), (s.tasks t).runningCpu = c ↔ (s.cpus c).runningTask = some t
  online : ∀ c, (s.cpus c).runningTask ≠ none ∨ (s.cpus c).switchingTask ≠ none ∨ (s.cpus c).entered ≠ none →
    (s.cpus c).active = true ∧ c < s.layout.cpuCount
  kstack : ∀ c t, (s.cpus c).kstack = some t →
    (s.cpus c).runningTask = some t ∨ (s.cpus c).switchingTask = some t
  switching : ∀ c t u, (s.cpus c).kstack = some t → (s.cpus c).switchingTask = some u → u = t
  leaving : ∀ c d t, (s.cpus c).switchingTask = some t → (s.cpus d).runningTask = some t → c = d
  target : ∀ c a, (s.cpus c).target = some a → s.layout.stackOwner a = (s.cpus c).runningTask
  entered : ∀ c regs, (s.cpus c).entered = some regs → s.frameOf c regs = true
  idle : ∀ c t, (s.cpus c).runningTask = some t → (s.tasks t).isIdle = true → c = s.layout.bsp
  idleHome : ∀ t (c : Nat), (s.tasks t).isIdle = true → (s.tasks t).runningCpu = -((c : Int) + 2) →
    c = s.layout.bsp
  boot : ∀ t, (s.tasks t).isIdle = true → t = s.layout.bootstrapTask

variable {s s' : Kernel} {c t regs frame : Nat} {next : Option Nat}

theorem Kernel.Places.frameOf (h : s.Places s') (c regs : Nat) : s'.frameOf c regs = s.frameOf c regs := by
  unfold Kernel.frameOf
  rw [h.layout, (h.cpus c).kstack, (h.cpus c).target]

theorem Inv.places (hs : Inv s) (h : s.Places s') : Inv s' where
  owner t c := by
    rw [h.owner, (h.cpus c).running]
    exact hs.owner t c
  online c := by
    rw [h.layout, (h.cpus c).running, (h.cpus c).switching, (h.cpus c).entered, (h.cpus c).active]
    exact hs.online c
  kstack c t := by
    rw [(h.cpus c).running, (h.cpus c).switching, (h.cpus c).kstack]
    exact hs.kstack c t
  switching c t u := by
    rw [(h.cpus c).switching, (h.cpus c).kstack]
    exact hs.switching c t u
  leaving c d t := by
    rw [(h.cpus c).switching, (h.cpus d).running]
    exact hs.leaving c d t
  target c a := by
    rw [h.layout, (h.cpus c).running, (h.cpus c).target]
    exact hs.target c a
  entered c regs := by
    rw [h.frameOf, (h.cpus c).entered]
    exact hs.entered c regs
  idle c t := by
    rw [h.layout, h.isIdle, (h.cpus c).running]
    exact hs.idle c t
  idleHome t c := by
    rw [h.layout, h.isIdle, h.owner]
    exact hs.idleHome t c
  boot t := by
    rw [h.layout, h.isIdle]
    exact hs.boot t

theorem Inv.agrees (hs : Inv s) (h : s.Agrees s') : Inv s' := hs.places h.toPlaces

/-- A task that is not current on any CPU runs nowhere, and no CPU is leaving it. -/
theorem Inv.nowhere (hs : Inv s) (h : s.taskIsCurrentOnAnyCpu c t = false) (d : Nat) :
    (s.cpus d).runningTask ≠ some t ∧ (s.cpus d).switchingTask ≠ some t := by
  have hnot : ∀ i, i < s.layout.cpuCount → (s.cpus i).active = true →
      ¬((s.cpus i).runningTask = some t ∨ (s.cpus i).switchingTask = some t) := by
    intro i hi hactive hon
    have hany : s.taskIsCurrentOnAnyCpu c t = true := by
      unfold Kernel.taskIsCurrentOnAnyCpu
      apply Bool.or_eq_true_iff.mpr
      apply Or.inl
      apply List.any_eq_true.mpr
      exact ⟨i, List.mem_range.mpr hi, by rw [hactive]; exact decide_eq_true hon⟩
    rw [h] at hany
    cases hany
  constructor
  · intro hr
    have honline := hs.online d (.inl (by rw [hr]; rintro ⟨⟩))
    exact hnot d honline.2 honline.1 (.inl hr)
  · intro hw
    have honline := hs.online d (.inr (.inl (by rw [hw]; rintro ⟨⟩)))
    exact hnot d honline.2 honline.1 (.inr hw)

/-- The CPU switches from its running task to `next`, whose frame is at `frame`. -/
structure Kernel.Moves (s s' : Kernel) (c regs : Nat) (next : Option Nat) (frame : Nat) : Prop where
  layout : s'.layout = s.layout
  other : ∀ d, d ≠ c → s'.cpus d = s.cpus d
  active : (s'.cpus c).active = (s.cpus c).active
  entered : (s'.cpus c).entered = (s.cpus c).entered
  kstack : (s'.cpus c).kstack = (s.cpus c).kstack
  running : (s'.cpus c).runningTask = next
  switching : (s'.cpus c).switchingTask =
    if (s.cpus c).switchingTask = none then (s.cpus c).runningTask else (s.cpus c).switchingTask
  target : (s'.cpus c).target = if frame = regs then (s.cpus c).target else some frame
  isIdle : ∀ t, (s'.tasks t).isIdle = (s.tasks t).isIdle
  taken : ∀ t, next = some t → (s'.tasks t).runningCpu = c
  left : ∀ t, next ≠ some t → (s.cpus c).runningTask = some t →
    (s'.tasks t).runningCpu = -1 ∨ (s'.tasks t).runningCpu = -((c : Int) + 2)
  same : ∀ t, next ≠ some t → (s.cpus c).runningTask ≠ some t → (s'.tasks t).runningCpu = (s.tasks t).runningCpu

/-- A switch to a task that runs nowhere, or to the idle loop of the CPU, keeps the invariant. -/
theorem Inv.moves (hs : Inv s) (hm : s.Moves s' c regs next frame) (hentered : (s.cpus c).entered = none)
    (honline : (s.cpus c).active = true ∧ c < s.layout.cpuCount)
    (hframe : (frame = regs ∧ next = (s.cpus c).runningTask) ∨
      (frame ≠ regs ∧ s.layout.stackOwner frame = next))
    (hfree : ∀ t, next = some t → (s.cpus c).runningTask = some t ∨
      ∀ d, (s.cpus d).runningTask ≠ some t ∧ (s.cpus d).switchingTask ≠ some t)
    (hidle : ∀ t, next = some t → (s.tasks t).isIdle = true → c = s.layout.bsp) : Inv s' where
  owner t d := by
    by_cases hd : d = c
    · subst hd
      rw [hm.running]
      by_cases hn : next = some t
      · exact iff_of_true (hm.taken t hn) hn
      · refine iff_of_false ?_ hn
        by_cases hp : (s.cpus d).runningTask = some t
        · have := hm.left t hn hp
          omega
        · rw [hm.same t hn hp]
          exact fun h => hp ((hs.owner t d).mp h)
    · rw [hm.other d hd]
      by_cases hn : next = some t
      · refine iff_of_false ?_ ?_
        · rw [hm.taken t hn]
          exact fun h => hd (by omega)
        · intro hr
          obtain hp | hno := hfree t hn
          · have h₁ := (hs.owner t c).mpr hp
            have h₂ := (hs.owner t d).mpr hr
            exact hd (by omega)
          · exact (hno d).1 hr
      · by_cases hp : (s.cpus c).runningTask = some t
        · have h₁ := (hs.owner t c).mpr hp
          refine iff_of_false ?_ ?_
          · have := hm.left t hn hp
            omega
          · intro hr
            have h₂ := (hs.owner t d).mpr hr
            exact hd (by omega)
        · rw [hm.same t hn hp]
          exact hs.owner t d
  online d := by
    by_cases hd : d = c
    · subst hd
      rw [hm.active, hm.layout]
      exact fun _ => honline
    · rw [hm.other d hd, hm.layout]
      exact hs.online d
  kstack d t := by
    by_cases hd : d = c
    · subst hd
      rw [hm.kstack, hm.switching]
      intro ht
      apply Or.inr
      cases hw : (s.cpus d).switchingTask with
      | none =>
        rw [if_pos rfl]
        exact (hs.kstack d t ht).resolve_right (by rw [hw]; rintro ⟨⟩)
      | some u =>
        rw [if_neg (by rintro ⟨⟩), hs.switching d t u ht hw]
    · rw [hm.other d hd]
      exact hs.kstack d t
  switching d t u := by
    by_cases hd : d = c
    · subst hd
      rw [hm.kstack, hm.switching]
      intro ht hu
      cases hw : (s.cpus d).switchingTask with
      | none =>
        rw [if_pos hw] at hu
        have hr := (hs.kstack d t ht).resolve_right (by rw [hw]; rintro ⟨⟩)
        rw [hr] at hu
        exact (Option.some.inj hu).symm
      | some v =>
        rw [if_neg (by rw [hw]; rintro ⟨⟩)] at hu
        exact hs.switching d t u ht hu
    · rw [hm.other d hd]
      exact hs.switching d t u
  leaving d e t hd he := by
    by_contra hne
    by_cases hdc : d = c
    · subst hdc
      have hec : e ≠ d := fun h => hne h.symm
      rw [hm.other e hec] at he
      rw [hm.switching] at hd
      cases hw : (s.cpus d).switchingTask with
      | none =>
        rw [if_pos hw] at hd
        have h₁ := (hs.owner t d).mpr hd
        have h₂ := (hs.owner t e).mpr he
        exact hec (by omega)
      | some u =>
        rw [if_neg (by rw [hw]; rintro ⟨⟩)] at hd
        exact hne (hs.leaving d e t hd he)
    · rw [hm.other d hdc] at hd
      by_cases hec : e = c
      · subst hec
        rw [hm.running] at he
        obtain hp | hno := hfree t he
        · exact hne (hs.leaving d e t hd hp)
        · exact (hno d).2 hd
      · rw [hm.other e hec] at he
        exact hne (hs.leaving d e t hd he)
  target d a := by
    by_cases hd : d = c
    · subst hd
      rw [hm.target, hm.running, hm.layout]
      obtain ⟨hf, hn⟩ | ⟨hf, ho⟩ := hframe
      · rw [if_pos hf, hn]
        exact hs.target d a
      · rw [if_neg hf]
        intro ha
        rw [← Option.some.inj ha]
        exact ho
    · rw [hm.other d hd, hm.layout]
      exact hs.target d a
  entered d r := by
    by_cases hd : d = c
    · subst hd
      rw [hm.entered, hentered]
      rintro ⟨⟩
    · rw [hm.other d hd]
      intro hr
      have hold := hs.entered d r hr
      unfold Kernel.frameOf at hold ⊢
      rw [hm.other d hd, hm.layout]
      exact hold
  idle d t := by
    rw [hm.isIdle, hm.layout]
    by_cases hd : d = c
    · subst hd
      rw [hm.running]
      exact hidle t
    · rw [hm.other d hd]
      exact hs.idle d t
  idleHome t d := by
    rw [hm.isIdle, hm.layout]
    intro hi hd
    by_cases hn : next = some t
    · rw [hm.taken t hn] at hd
      omega
    · by_cases hp : (s.cpus c).runningTask = some t
      · have hdc : d = c := by
          have := hm.left t hn hp
          omega
        rw [hdc]
        exact hs.idle c t hp hi
      · rw [hm.same t hn hp] at hd
        exact hs.idleHome t d hi hd
  boot t := by
    rw [hm.isIdle, hm.layout]
    exact hs.boot t

end Invariant

end Lebirun.Schedule
