import Lebirun.Tasks.OneCpu

namespace Lebirun.Schedule
open Machine
open Function (update)
set_option autoImplicit true

section Switching

variable {s s' : Kernel} {c t u p regs frame : Nat} {mustSwitch : Bool} {o : Option Nat}

theorem elim_cpus {f : Nat → Kernel} (h : ∀ t, (f t).cpus = s.cpus) : (o.elim s f).cpus = s.cpus := by
  cases o with
  | none => rfl
  | some t => exact h t

theorem release_cpus : (s.taskReleaseFromCpu p regs c mustSwitch).cpus = s.cpus := by
  unfold Kernel.taskReleaseFromCpu
  split
  · rfl
  · rfl

theorem release_layout : (s.taskReleaseFromCpu p regs c mustSwitch).layout = s.layout := by
  unfold Kernel.taskReleaseFromCpu
  split
  · rfl
  · rfl

/-- A task that is released from its CPU may be taken by any CPU or by this one alone. -/
theorem release_self (h : (s.tasks p).runningCpu = c) :
    ((s.taskReleaseFromCpu p regs c mustSwitch).tasks p).runningCpu = -1 ∨
      ((s.taskReleaseFromCpu p regs c mustSwitch).tasks p).runningCpu = -((c : Int) + 2) := by
  unfold Kernel.taskReleaseFromCpu
  rw [if_pos h, setTask_self]
  dsimp only
  split
  · exact .inr rfl
  · exact .inl rfl

theorem release_other (h : u ≠ p) : (s.taskReleaseFromCpu p regs c mustSwitch).tasks u = s.tasks u := by
  unfold Kernel.taskReleaseFromCpu
  split
  · exact setTask_other _ h
  · rfl

theorem release_keeps (α : Type) (f : Task → α) (hf : ∀ x n, f { x with runningCpu := n } = f x) (u : Nat) :
    f ((s.taskReleaseFromCpu p regs c mustSwitch).tasks u) = f (s.tasks u) := by
  unfold Kernel.taskReleaseFromCpu
  split
  · by_cases h : u = p
    · rw [h, setTask_self, hf]
    · rw [setTask_other _ h]
  · rfl

/-- The task that was running has left the CPU `c`. -/
structure Kernel.Leaves (s s' : Kernel) (c : Nat) : Prop where
  layout : s'.layout = s.layout
  cpus : s'.cpus = (s.noteSwitching c).cpus
  isIdle : ∀ t, (s'.tasks t).isIdle = (s.tasks t).isIdle
  left : ∀ t, (s.cpus c).runningTask = some t →
    (s'.tasks t).runningCpu = -1 ∨ (s'.tasks t).runningCpu = -((c : Int) + 2)
  same : ∀ t, (s.cpus c).runningTask ≠ some t → (s'.tasks t).runningCpu = (s.tasks t).runningCpu

theorem leaves (hs : Inv s) (hc : s'.cpus = (s.noteSwitching c).cpus) (hl : s'.layout = s.layout)
    (howner : ∀ t, (s'.tasks t).runningCpu = (s.tasks t).runningCpu)
    (hidle : ∀ t, (s'.tasks t).isIdle = (s.tasks t).isIdle) :
    s.Leaves ((s.cpus c).runningTask.elim s' fun p => s'.taskReleaseFromCpu p regs c mustSwitch) c := by
  cases hp : (s.cpus c).runningTask with
  | none => exact ⟨hl, hc, hidle, by rw [hp]; rintro t ⟨⟩, fun t _ => howner t⟩
  | some p =>
    have hown : (s'.tasks p).runningCpu = c := (howner p).trans ((hs.owner p c).mpr hp)
    refine ⟨release_layout.trans hl, release_cpus.trans hc, fun t => ?_, fun t ht => ?_, fun t ht => ?_⟩
    · exact (release_keeps Bool Task.isIdle (fun _ _ => rfl) t).trans (hidle t)
    · rw [hp] at ht
      cases ht
      exact release_self hown
    · have hne : t ≠ p := by
        rintro rfl
        exact ht hp
      exact (congrArg Task.runningCpu (release_other hne)).trans (howner t)

theorem current_cpus : (s.taskSetCurrent c t).cpus =
    update s.cpus c { s.cpus c with runningTask := some t } := by
  unfold Kernel.taskSetCurrent
  dsimp only
  have hkept : ((s.cpus c).runningTask.elim s fun old =>
      if old ≠ t ∧ (s.tasks old).runningCpu = c then s.setTask old fun x => { x with runningCpu := -1 }
      else s).cpus = s.cpus := by
    apply elim_cpus
    intro old
    split
    · rfl
    · rfl
  rw [setTask_cpus]
  unfold Kernel.setCpu
  dsimp only
  rw [hkept]

theorem current_layout : (s.taskSetCurrent c t).layout = s.layout := by
  unfold Kernel.taskSetCurrent
  dsimp only
  cases (s.cpus c).runningTask with
  | none => rfl
  | some old =>
    dsimp only [Option.elim]
    split
    · rfl
    · rfl

theorem current_self : ((s.taskSetCurrent c t).tasks t).runningCpu = c := by
  unfold Kernel.taskSetCurrent
  dsimp only
  rw [setTask_self]

theorem current_other (h : u ≠ t) : ((s.taskSetCurrent c t).tasks u).runningCpu = (s.tasks u).runningCpu ∨
    (s.cpus c).runningTask = some u ∧ ((s.taskSetCurrent c t).tasks u).runningCpu = -1 := by
  unfold Kernel.taskSetCurrent
  dsimp only
  rw [setTask_other _ h, setCpu_tasks]
  cases hr : (s.cpus c).runningTask with
  | none => exact .inl rfl
  | some old =>
    dsimp only [Option.elim]
    split
    · by_cases hu : u = old
      · subst hu
        refine .inr ⟨rfl, ?_⟩
        rw [setTask_self]
      · rw [setTask_other _ hu]
        exact .inl rfl
    · exact .inl rfl

theorem current_keeps (α : Type) (f : Task → α) (hf : ∀ x n, f { x with runningCpu := n } = f x) (u : Nat) :
    f ((s.taskSetCurrent c t).tasks u) = f (s.tasks u) := by
  have hset : ∀ (k : Kernel) (i : Nat) (n : Int),
      f ((k.setTask i fun x => { x with runningCpu := n }).tasks u) = f (k.tasks u) := by
    intro k i n
    by_cases h : u = i
    · rw [h, setTask_self, hf]
    · rw [setTask_other _ h]
  unfold Kernel.taskSetCurrent
  dsimp only
  rw [hset, setCpu_tasks]
  cases (s.cpus c).runningTask with
  | none => rfl
  | some old =>
    dsimp only [Option.elim]
    split
    · exact hset s old (-1)
    · rfl

/-- The switch to a task is a move to it. -/
theorem switchTo_moves (hs : Inv s) : s.Moves (s.switchTo c regs t frame mustSwitch) c regs (some t) frame := by
  have hdemoted : ∀ k : Kernel, k.Agrees ((s.cpus c).runningTask.elim k fun p =>
      if (k.tasks p).state = .running then k.setState p .ready else k) ∧
      ((s.cpus c).runningTask.elim k fun p =>
        if (k.tasks p).state = .running then k.setState p .ready else k).cpus = k.cpus := by
    intro k
    cases (s.cpus c).runningTask with
    | none => exact ⟨.refl k, rfl⟩
    | some p =>
      dsimp only [Option.elim]
      split
      · exact ⟨agrees_setState k p .ready, rfl⟩
      · exact ⟨.refl k, rfl⟩
  unfold Kernel.switchTo
  dsimp only
  have h₂ := hdemoted (s.noteSwitching c)
  generalize ((s.cpus c).runningTask.elim (s.noteSwitching c) fun p =>
    if ((s.noteSwitching c).tasks p).state = .running then (s.noteSwitching c).setState p .ready
    else s.noteSwitching c) = s₂ at h₂ ⊢
  have h₃ : s.Leaves ((s.cpus c).runningTask.elim s₂ fun p => s₂.taskReleaseFromCpu p regs c mustSwitch) c :=
    leaves hs h₂.2 h₂.1.layout h₂.1.owner h₂.1.isIdle
  generalize ((s.cpus c).runningTask.elim s₂ fun p => s₂.taskReleaseFromCpu p regs c mustSwitch) = s₃ at h₃ ⊢
  have h₄ := agrees_setState s₃ t .running
  have hcpus : (s₃.setState t .running).cpus = (s.noteSwitching c).cpus := h₃.cpus
  generalize s₃.setState t .running = s₄ at h₄ hcpus ⊢
  have hrunning : (s₄.cpus c).runningTask = (s.cpus c).runningTask := by
    rw [hcpus]
    unfold Kernel.noteSwitching
    rw [setCpu_self]
  have htasks : ∀ u, (((if ((s₄.taskSetCurrent c t).tasks t).isUser = true ∧
      ((s₄.taskSetCurrent c t).frames frame).cs % 4 = 3 then
        { s₄.taskSetCurrent c t with
          frames := update (s₄.taskSetCurrent c t).frames frame
            ((s₄.taskSetCurrent c t).frames frame).toUser }
      else s₄.taskSetCurrent c t).setTarget c regs frame).tasks u) = (s₄.taskSetCurrent c t).tasks u := by
    intro u
    split
    · rfl
    · rfl
  have hcpu : ((if ((s₄.taskSetCurrent c t).tasks t).isUser = true ∧
      ((s₄.taskSetCurrent c t).frames frame).cs % 4 = 3 then
        { s₄.taskSetCurrent c t with
          frames := update (s₄.taskSetCurrent c t).frames frame
            ((s₄.taskSetCurrent c t).frames frame).toUser }
      else s₄.taskSetCurrent c t).setTarget c regs frame).cpus =
      ((s₄.taskSetCurrent c t).setTarget c regs frame).cpus := by
    split
    · rfl
    · rfl
  have hlayout : ((if ((s₄.taskSetCurrent c t).tasks t).isUser = true ∧
      ((s₄.taskSetCurrent c t).frames frame).cs % 4 = 3 then
        { s₄.taskSetCurrent c t with
          frames := update (s₄.taskSetCurrent c t).frames frame
            ((s₄.taskSetCurrent c t).frames frame).toUser }
      else s₄.taskSetCurrent c t).setTarget c regs frame).layout = s₄.layout := by
    split
    · exact current_layout
    · exact current_layout
  have hself : ((s₄.taskSetCurrent c t).setTarget c regs frame).cpus c =
      { s.cpus c with
        switchingTask := if (s.cpus c).switchingTask = none then (s.cpus c).runningTask
          else (s.cpus c).switchingTask
        runningTask := some t
        target := if frame = regs then (s.cpus c).target else some frame } := by
    unfold Kernel.setTarget
    rw [setCpu_self, current_cpus, Function.update_self, hcpus]
    unfold Kernel.noteSwitching
    rw [setCpu_self]
  exact {
    layout := hlayout.trans (h₄.layout.trans h₃.layout)
    other := by
      intro d hd
      rw [hcpu]
      unfold Kernel.setTarget
      rw [setCpu_other _ hd, current_cpus, Function.update_of_ne hd, hcpus]
      exact setCpu_other _ hd
    active := by rw [hcpu, hself]
    entered := by rw [hcpu, hself]
    kstack := by rw [hcpu, hself]
    running := by rw [hcpu, hself]
    switching := by rw [hcpu, hself]
    target := by rw [hcpu, hself]
    isIdle := by
      intro u
      rw [htasks, current_keeps Bool Task.isIdle (fun _ _ => rfl) u, h₄.isIdle, h₃.isIdle]
    taken := by
      rintro u ⟨⟩
      rw [htasks]
      exact current_self
    left := by
      intro u hu hp
      have hne : u ≠ t := fun h => hu (by rw [h])
      have hold := h₃.left u hp
      rw [htasks]
      obtain h | ⟨_, h⟩ := current_other hne (s := s₄) (c := c)
      · rw [h, h₄.owner]
        exact hold
      · exact .inl h
    same := by
      intro u hu hp
      have hne : u ≠ t := fun h => hu (by rw [h])
      rw [htasks]
      obtain h | ⟨h, _⟩ := current_other hne (s := s₄) (c := c)
      · rw [h, h₄.owner, h₃.same u hp]
      · rw [hrunning] at h
        exact absurd h hp }

theorem switchTo_state : ((s.switchTo c regs t frame mustSwitch).tasks t).state = .running := by
  have hkept : ∀ k : Kernel, (((if ((k.taskSetCurrent c t).tasks t).isUser = true ∧
      ((k.taskSetCurrent c t).frames frame).cs % 4 = 3 then
        { k.taskSetCurrent c t with
          frames := update (k.taskSetCurrent c t).frames frame ((k.taskSetCurrent c t).frames frame).toUser }
      else k.taskSetCurrent c t).setTarget c regs frame).tasks t).state = (k.tasks t).state := by
    intro k
    rw [← current_keeps TaskState Task.state (fun _ _ => rfl) t (s := k) (c := c) (t := t)]
    split
    · rfl
    · rfl
  unfold Kernel.switchTo
  dsimp only
  rw [hkept]
  exact congrArg Task.state (setTask_self _)

theorem switchToCpuIdle_moves (hs : Inv s) :
    s.Moves (s.switchToCpuIdle c regs frame mustSwitch) c regs none frame := by
  unfold Kernel.switchToCpuIdle
  dsimp only
  have h₃ : s.Leaves ((s.cpus c).runningTask.elim (s.noteSwitching c) fun p =>
      (s.noteSwitching c).taskReleaseFromCpu p regs c mustSwitch) c :=
    leaves hs rfl rfl (fun _ => rfl) fun _ => rfl
  generalize ((s.cpus c).runningTask.elim (s.noteSwitching c) fun p =>
    (s.noteSwitching c).taskReleaseFromCpu p regs c mustSwitch) = s₃ at h₃ ⊢
  have hself : ((s₃.setCpu c fun x => { x with runningTask := none }).setTarget c regs frame).cpus c =
      { s.cpus c with
        switchingTask := if (s.cpus c).switchingTask = none then (s.cpus c).runningTask
          else (s.cpus c).switchingTask
        runningTask := none
        target := if frame = regs then (s.cpus c).target else some frame } := by
    unfold Kernel.setTarget
    rw [setCpu_self, setCpu_self, h₃.cpus]
    unfold Kernel.noteSwitching
    rw [setCpu_self]
  exact {
    layout := h₃.layout
    other := by
      intro d hd
      unfold Kernel.setTarget
      rw [setCpu_other _ hd, setCpu_other _ hd, h₃.cpus]
      exact setCpu_other _ hd
    active := by rw [hself]
    entered := by rw [hself]
    kstack := by rw [hself]
    running := by rw [hself]
    switching := by rw [hself]
    target := by rw [hself]
    isIdle := h₃.isIdle
    taken := by rintro u ⟨⟩
    left := fun u _ hp => h₃.left u hp
    same := fun u _ hp => h₃.same u hp }

end Switching

section Selection

variable {s s' : Kernel} {c t regs : Nat} {force mustSwitch : Bool} {prev : Option Nat} {r : Kernel × Option Nat}

/-- No CPU runs the task or is leaving it. -/
def Kernel.Nowhere (s : Kernel) (t : Nat) : Prop :=
  ∀ d, (s.cpus d).runningTask ≠ some t ∧ (s.cpus d).switchingTask ≠ some t

/-- The task may be selected by the CPU `c`: it is ready and nowhere, or it is the idle task. -/
def Kernel.Chosen (s : Kernel) (c t : Nat) : Prop :=
  ((s.tasks t).state = .ready ∧ (s.tasks t).resourcesReleased = false ∧ s.Nowhere t ∧
    ((s.tasks t).runningCpu = -1 ∨ (s.tasks t).runningCpu = -((c : Int) + 2))) ∨
  ((s.tasks t).isIdle = true ∧ c = s.layout.bsp ∧ ((s.cpus c).runningTask = some t ∨ s.Nowhere t))

/-- What the choice of a task and the switch to it come to. -/
structure Kernel.Ends (s : Kernel) (c : Nat) (r : Kernel × Option Nat) : Prop where
  inv : Inv r.1
  chosen : ∀ t, r.2 = some t → s.Chosen c t
  running : ∀ t, r.2 = some t → (r.1.tasks t).state = .running
  placed : ∀ t, r.2 = some t → (r.1.cpus c).runningTask = some t
  only : ∀ d t, (r.1.cpus d).runningTask = some t → (s.cpus d).runningTask = some t ∨ r.2 = some t
  kept : ∀ t, (s.tasks t).runningCpu < -1 → r.2 = some t ∨ (r.1.tasks t).runningCpu = (s.tasks t).runningCpu

theorem Inv.stays (hs : Inv s) (h : s.Agrees s') : s.Ends c (s', none) where
  inv := hs.agrees h
  chosen := by rintro t ⟨⟩
  running := by rintro t ⟨⟩
  placed := by rintro t ⟨⟩
  only := by
    intro d t ht
    rw [(h.cpus d).running] at ht
    exact .inl ht
  kept := fun t _ => .inr (h.owner t)

theorem scan_some {l : List Nat} {candidate : Option Nat} (h : s.scan c prev l candidate = some t) :
    candidate = some t ∨ s.eligible c prev t = true ∧ s.taskIrqReturnFrame t = true := by
  induction l generalizing candidate with
  | nil => exact .inl h
  | cons u l ih =>
    unfold Kernel.scan at h
    split at h
    · next hok =>
      have hu := Bool.and_eq_true_iff.mp hok
      have helig := (Bool.and_eq_true_iff.mp hu.1).1
      split at h
      · cases h
        exact .inr ⟨helig, hu.2⟩
      · obtain hsome | hfound := ih h
        · cases hsome
          exact .inr ⟨helig, hu.2⟩
        · exact .inr hfound
    · exact ih h

/-- The frame of a task that is nowhere is not the one the CPU was interrupted with. -/
theorem Inv.frame_ne (hs : Inv s) (hregs : s.frameOf c regs = true) (hno : s.Nowhere t)
    (howns : s.layout.stackOwner a = some t) : a ≠ regs := by
  rintro rfl
  obtain ⟨hk, _⟩ | htarget := of_decide_eq_true hregs
  · obtain hr | hw := hs.kstack c t (hk.symm.trans howns)
    · exact (hno c).1 hr
    · exact (hno c).2 hw
  · exact (hno c).1 ((hs.target c a htarget).symm.trans howns)

theorem returnFrame_owner (h : s.taskIrqReturnFrame t = true) :
    s.layout.stackOwner (s.tasks t).rsp = some t :=
  of_decide_eq_true (of_decide_eq_true h).2.2.1

theorem eligible_chosen (hs : Inv s) (h : s.eligible c (s.cpus c).runningTask t = true) :
    ((s.tasks t).state = .ready ∧ (s.tasks t).resourcesReleased = false ∧ s.Nowhere t ∧
      ((s.tasks t).runningCpu = -1 ∨ (s.tasks t).runningCpu = -((c : Int) + 2))) ∧
      ((s.tasks t).isIdle = true → c = s.layout.bsp) := by
  obtain ⟨hready, _, hrel, havail, hbsp⟩ := of_decide_eq_true h
  obtain ⟨howner, hcur, _⟩ := of_decide_eq_true havail
  refine ⟨⟨hready, Bool.eq_false_iff.mpr hrel, hs.nowhere (Bool.eq_false_iff.mpr hcur), howner⟩, ?_⟩
  exact fun hi => hbsp.resolve_right fun hno => hno hi

theorem Kernel.Nowhere.agrees (h : s.Nowhere t) (ha : s.Agrees s') : s'.Nowhere t := by
  intro d
  rw [(ha.cpus d).running, (ha.cpus d).switching]
  exact h d

/-- A switch to a task that may be selected. -/
theorem Inv.switches (hs : Inv s) (ha : s.Agrees s') (hentered : (s.cpus c).entered = none)
    (honline : (s.cpus c).active = true ∧ c < s.layout.cpuCount)
    (hframe : (frame = regs ∧ (s.cpus c).runningTask = some t) ∨
      (frame ≠ regs ∧ s.layout.stackOwner frame = some t))
    (hchosen : s.Chosen c t) (hidle : (s.tasks t).isIdle = true → c = s.layout.bsp) :
    s.Ends c (s'.switchTo c regs t frame mustSwitch, some t) := by
  have hs' : Inv s' := hs.agrees ha
  have hmoves : s'.Moves (s'.switchTo c regs t frame mustSwitch) c regs (some t) frame := switchTo_moves hs'
  have hfree : (s.cpus c).runningTask = some t ∨ s.Nowhere t := by
    obtain ⟨_, _, h, _⟩ | ⟨_, _, h⟩ := hchosen
    · exact .inr h
    · exact h
  refine ⟨?_, ?_, ?_, ?_, ?_, ?_⟩
  · apply hs'.moves hmoves
    · rw [(ha.cpus c).entered]
      exact hentered
    · rw [(ha.cpus c).active, ha.layout]
      exact honline
    · rw [(ha.cpus c).running, ha.layout]
      exact hframe.imp (fun h => ⟨h.1, h.2.symm⟩) id
    · rintro u ⟨⟩
      rw [(ha.cpus c).running]
      exact hfree.imp id fun h => h.agrees ha
    · rintro u ⟨⟩
      rw [ha.isIdle, ha.layout]
      exact hidle
  · rintro u ⟨⟩
    exact hchosen
  · rintro u ⟨⟩
    exact switchTo_state
  · rintro u ⟨⟩
    exact hmoves.running
  · intro d u hu
    by_cases hd : d = c
    · rw [hd] at hu
      exact .inr (hmoves.running.symm.trans hu)
    · refine .inl ?_
      change ((s'.switchTo c regs t frame mustSwitch).cpus d).runningTask = some u at hu
      rw [hmoves.other d hd, (ha.cpus d).running] at hu
      exact hu
  · intro u hu
    by_cases htu : t = u
    · exact .inl (congrArg some htu)
    · refine .inr ?_
      rw [← ha.owner u]
      apply hmoves.same u (fun h => htu (Option.some.inj h))
      intro hp
      have := (hs'.owner u c).mpr hp
      rw [ha.owner] at this
      omega

theorem idleChoice_some (hs : Inv s) (hregs : s.frameOf c regs = true) {frame : Nat}
    (h : s.idleChoice c regs = some (t, frame)) :
    (s.tasks t).isIdle = true ∧ c = s.layout.bsp ∧
      ((frame = regs ∧ (s.cpus c).runningTask = some t) ∨
        s.Nowhere t ∧ frame ≠ regs ∧ s.layout.stackOwner frame = some t) := by
  unfold Kernel.idleChoice at h
  obtain ⟨hbsp, h⟩ := Option.ite_none_right_eq_some.mp h
  obtain ⟨i, hfind, h⟩ := Option.bind_eq_some_iff.mp h
  unfold Kernel.taskFindIdle at hfind
  have hfound := List.find?_some hfind
  have hidle : (s.tasks i).isIdle = true := (of_decide_eq_true hfound).1
  split at h
  · next hprev =>
    cases h
    exact ⟨hidle, hbsp, .inl ⟨rfl, hprev.1⟩⟩
  · obtain ⟨hcur, h⟩ := Option.ite_none_left_eq_some.mp h
    have hno : s.Nowhere i := hs.nowhere (Bool.eq_false_iff.mpr hcur)
    split at h
    · next hreturn =>
      cases h
      have howns := returnFrame_owner hreturn
      exact ⟨hidle, hbsp, .inr ⟨hno, hs.frame_ne hregs hno howns, howns⟩⟩
    · obtain ⟨a, _, h⟩ := Option.bind_eq_some_iff.mp h
      obtain ⟨hvalid, h⟩ := Option.ite_none_right_eq_some.mp h
      cases h
      have howns : s.layout.stackOwner frame = some t :=
        of_decide_eq_true (of_decide_eq_true hvalid).2.2.2.2.1
      exact ⟨hidle, hbsp, .inr ⟨hno, hs.frame_ne hregs hno howns, howns⟩⟩

theorem Inv.switchIdle (hs : Inv s) (hentered : (s.cpus c).entered = none)
    (honline : (s.cpus c).active = true ∧ c < s.layout.cpuCount) (hregs : s.frameOf c regs = true)
    (hmust : (s.cpus c).runningTask ≠ none) : s.Ends c (s.switchIdle c regs) := by
  have hpanic : s.Ends c ({ s with panicked := true }, none) :=
    hs.stays ⟨⟨rfl, fun _ => .refl _, fun _ => rfl, fun _ => rfl⟩, fun _ => rfl⟩
  unfold Kernel.switchIdle
  cases hchoice : s.idleChoice c regs with
  | some choice =>
    obtain ⟨i, frame⟩ := choice
    obtain ⟨hidle, hbsp, hplace⟩ := idleChoice_some hs hregs hchoice
    exact hs.switches (agrees_readyIdle s i) hentered honline (hplace.imp_right And.right)
      (.inr ⟨hidle, hbsp, hplace.imp And.right And.left⟩) fun _ => hbsp
  | none =>
    dsimp only
    cases hframe : (s.cpus c).idleFrame with
    | none => exact hpanic
    | some a =>
      dsimp only
      split
      · next hvalid =>
        obtain ⟨k, hk, hka⟩ := Option.map_eq_some_iff.mp (of_decide_eq_true hvalid.2).2.1
        have howner : s.layout.stackOwner a = none := by
          rw [← hka]
          exact s.layout.kernelStack_owner c k hk
        have hne : a ≠ regs := by
          rintro rfl
          obtain ⟨_, htop⟩ | htarget := of_decide_eq_true hregs
          · exact htop (by rw [hk]; exact congrArg some hka)
          · exact hmust ((hs.target c a htarget).symm.trans howner)
        have hmoves : s.Moves (s.switchToCpuIdle c regs a true) c regs none a := switchToCpuIdle_moves hs
        refine ⟨?_, by rintro t ⟨⟩, by rintro t ⟨⟩, by rintro t ⟨⟩, ?_, ?_⟩
        · exact hs.moves hmoves hentered honline (.inr ⟨hne, howner⟩) (by rintro t ⟨⟩) (by rintro t ⟨⟩)
        · intro d t ht
          by_cases hd : d = c
          · rw [hd] at ht
            exact .inr (hmoves.running.symm.trans ht)
          · change ((s.switchToCpuIdle c regs a true).cpus d).runningTask = some t at ht
            rw [hmoves.other d hd] at ht
            exact .inl ht
        · intro t ht
          refine .inr (hmoves.same t (by rintro ⟨⟩) fun hp => ?_)
          have := (hs.owner t c).mpr hp
          omega
      · exact hpanic

theorem Inv.select (hs : Inv s) (hentered : (s.cpus c).entered = none)
    (honline : (s.cpus c).active = true ∧ c < s.layout.cpuCount) (hregs : s.frameOf c regs = true)
    (hmust : mustSwitch = true → (s.cpus c).runningTask ≠ none) :
    s.Ends c (s.select c regs force mustSwitch) := by
  unfold Kernel.select
  dsimp only
  cases hscan : s.scan c (s.cpus c).runningTask (s.order (s.cpus c).runningTask mustSwitch) none with
  | none =>
    dsimp only
    split
    · next h => exact hs.switchIdle hentered honline hregs (hmust h)
    · exact hs.stays (.refl s)
  | some t =>
    have hcharge := (still_charge s c t).toAgrees
    have hrsp : ((s.charge c t).tasks t).rsp = (s.tasks t).rsp := by
      unfold Kernel.charge
      split
      · dsimp only
        rw [setCpu_tasks, setTask_self]
      · rfl
    obtain ⟨⟨⟩⟩ | ⟨helig, hreturn⟩ := scan_some hscan
    obtain ⟨hchosen, hidle⟩ := eligible_chosen hs helig
    have hno := hchosen.2.2.1
    have howns := returnFrame_owner hreturn
    dsimp only
    split
    · exact hs.stays hcharge
    · apply hs.switches hcharge hentered honline _ (.inl hchosen) hidle
      rw [hrsp]
      exact .inr ⟨hs.frame_ne hregs hno howns, howns⟩

end Selection

section Steps

variable {s s' : Kernel} {c t regs : Nat} {a : Action} {r : Kernel × Option Nat}

/-- What is done before the choice moves no task, and changes no state but of the running task. -/
theorem Kernel.Ends.before (h : s'.Ends c r) (ha : s.Agrees s')
    (hstate : ∀ t, (s.cpus c).runningTask ≠ some t → (s'.tasks t).state = (s.tasks t).state) : s.Ends c r where
  inv := h.inv
  chosen := by
    intro t ht
    obtain ⟨hready, hrel, hno, howner⟩ | ⟨hidle, hbsp, hplace⟩ := h.chosen t ht
    · have hno' : s.Nowhere t := by
        intro d
        rw [← (ha.cpus d).running, ← (ha.cpus d).switching]
        exact hno d
      rw [hstate t (hno' c).1] at hready
      rw [ha.released] at hrel
      rw [ha.owner] at howner
      exact .inl ⟨hready, hrel, hno', howner⟩
    · rw [ha.isIdle] at hidle
      rw [ha.layout] at hbsp
      refine .inr ⟨hidle, hbsp, hplace.imp (fun hp => ?_) fun hno d => ?_⟩
      · rw [← (ha.cpus c).running]
        exact hp
      · rw [← (ha.cpus d).running, ← (ha.cpus d).switching]
        exact hno d
  running := h.running
  placed := h.placed
  only := by
    intro d t ht
    rw [← (ha.cpus d).running]
    exact h.only d t ht
  kept := by
    intro t ht
    rw [← ha.owner t] at ht ⊢
    exact h.kept t ht

/-- The section of a CPU under the lock. -/
theorem Inv.locked (hs : Inv s) (hentered : (s.cpus c).entered = none)
    (honline : (s.cpus c).active = true ∧ c < s.layout.cpuCount) (hregs : s.frameOf c regs = true)
    (woken : List Nat) : (s.drain woken).Ends c (s.locked c regs woken) := by
  have hdrain := agrees_drain s woken
  have hs₁ : Inv (s.drain woken) := hs.agrees hdrain
  have hrunning := (hdrain.cpus c).running
  have hentered₁ : ((s.drain woken).cpus c).entered = none := (hdrain.cpus c).entered.trans hentered
  have honline₁ : ((s.drain woken).cpus c).active = true ∧ c < (s.drain woken).layout.cpuCount := by
    rw [(hdrain.cpus c).active, hdrain.layout]
    exact honline
  have hregs₁ : (s.drain woken).frameOf c regs = true := (hdrain.frameOf c regs).trans hregs
  unfold Kernel.locked
  dsimp only
  generalize s.drain woken = s₁ at hs₁ hrunning hentered₁ honline₁ hregs₁ ⊢
  generalize hmigrate : (s.cpus c).runningTask.any (s.migrates c regs) = migrate
  generalize (s.cpus c).runningTask = prev at hrunning hmigrate ⊢
  generalize (s.cpus c).scheduleForce = force
  generalize hmust : (migrate || prev.any fun p => (s₁.tasks p).state.requiresSchedule) = mustSwitch
  have hmustPrev : mustSwitch = true → prev ≠ none := by
    rintro h rfl
    rw [← hmust, ← hmigrate] at h
    cases h
  have h₂ : s₁.Agrees (if migrate = true then prev.elim s₁ fun p => s₁.setState p .ready else s₁) ∧
      ∀ t, prev ≠ some t →
        ((if migrate = true then prev.elim s₁ fun p => s₁.setState p .ready else s₁).tasks t).state =
          (s₁.tasks t).state := by
    split
    · cases prev with
      | none => exact ⟨.refl s₁, fun _ _ => rfl⟩
      | some p =>
        refine ⟨agrees_setState s₁ p .ready, fun t ht => ?_⟩
        have hne : t ≠ p := fun h => ht (congrArg some h.symm)
        exact congrArg Task.state (setTask_other (fun x => { x with state := TaskState.ready }) hne)
    · exact ⟨.refl s₁, fun _ _ => rfl⟩
  generalize (if migrate = true then prev.elim s₁ fun p => s₁.setState p .ready else s₁) = s₂ at h₂ ⊢
  split
  · exact hs₁.stays h₂.1
  · have h₃ := still_account s₂ c regs mustSwitch
    generalize s₂.account c regs mustSwitch = accounted at h₃ ⊢
    obtain ⟨s₃, goesOn⟩ := accounted
    have ha : s₁.Agrees s₃ := h₂.1.trans h₃.toAgrees
    dsimp only
    split
    · have hends : s₃.Ends c (s₃.select c regs force mustSwitch) := by
        apply (hs₁.agrees ha).select
        · rw [(ha.cpus c).entered]
          exact hentered₁
        · rw [(ha.cpus c).active, ha.layout]
          exact honline₁
        · rw [ha.frameOf]
          exact hregs₁
        · rw [(ha.cpus c).running, hrunning]
          exact hmustPrev
      apply hends.before ha
      intro t ht
      rw [hrunning] at ht
      exact (h₃.state t).trans (h₂.2 t ht)
    · exact hs₁.stays ha

/-- A CPU goes on to wait for the lock, or stops waiting. -/
theorem Inv.setEntered (hs : Inv s) (honline : (s.cpus c).active = true ∧ c < s.layout.cpuCount)
    {entered : Option Nat} (hframe : ∀ regs, entered = some regs → s.frameOf c regs = true) :
    Inv (s.setCpu c fun x => { x with entered := entered }) := by
  have hcpu : ∀ d, (s.setCpu c fun x => { x with entered := entered }).cpus d =
      { s.cpus d with entered := if d = c then entered else (s.cpus d).entered } := by
    intro d
    by_cases h : d = c
    · rw [h, setCpu_self, if_pos rfl]
    · rw [setCpu_other _ h, if_neg h]
  have hframeOf : ∀ d regs, (s.setCpu c fun x => { x with entered := entered }).frameOf d regs =
      s.frameOf d regs := by
    intro d regs
    unfold Kernel.frameOf
    rw [hcpu]
    rfl
  exact {
    owner := by
      intro t d
      rw [hcpu]
      exact hs.owner t d
    online := by
      intro d
      rw [hcpu]
      dsimp only
      by_cases h : d = c
      · rw [h]
        exact fun _ => honline
      · rw [if_neg h]
        exact hs.online d
    kstack := by
      intro d t
      rw [hcpu]
      exact hs.kstack d t
    switching := by
      intro d t u
      rw [hcpu]
      exact hs.switching d t u
    leaving := by
      intro d e t
      rw [hcpu, hcpu]
      exact hs.leaving d e t
    target := by
      intro d a
      rw [hcpu]
      exact hs.target d a
    entered := by
      intro d regs
      rw [hcpu, hframeOf]
      dsimp only
      by_cases h : d = c
      · rw [h, if_pos rfl]
        exact hframe regs
      · rw [if_neg h]
        exact hs.entered d regs
    idle := by
      intro d t
      rw [hcpu]
      exact hs.idle d t
    idleHome := hs.idleHome
    boot := hs.boot }

/-- The CPU is on the stack of its running task, and leaves no other. -/
theorem Inv.leave (hs : Inv s) (hentered : (s.cpus c).entered = none) (entry rax : Nat) :
    Inv (s.leave c entry rax) := by
  unfold Kernel.leave
  split
  · next h =>
    have hrunning := hs.target c rax h.2.1
    generalize hleft : (fun x : Cpu =>
      ({ x with switchingTask := none, kstack := s.layout.stackOwner rax, target := none } : Cpu)) = left
    have hself : (s.setCpu c left).cpus c =
        { s.cpus c with switchingTask := none, kstack := s.layout.stackOwner rax, target := none } := by
      rw [setCpu_self, ← hleft]
    have hother : ∀ {d}, d ≠ c → (s.setCpu c left).cpus d = s.cpus d := fun h => setCpu_other _ h
    have hrun : ∀ d, ((s.setCpu c left).cpus d).runningTask = (s.cpus d).runningTask := by
      intro d
      by_cases hd : d = c
      · rw [hd, hself]
      · rw [hother hd]
    exact {
      owner := by
        intro t d
        rw [hrun]
        exact hs.owner t d
      online := by
        intro d
        by_cases hd : d = c
        · rw [hd, hself]
          rintro (hr | hw | he)
          · exact hs.online c (.inl hr)
          · exact absurd rfl hw
          · exact hs.online c (.inr (.inr he))
        · rw [hother hd]
          exact hs.online d
      kstack := by
        intro d t
        by_cases hd : d = c
        · rw [hd, hself]
          exact fun ht => .inl (hrunning.symm.trans ht)
        · rw [hother hd]
          exact hs.kstack d t
      switching := by
        intro d t u
        by_cases hd : d = c
        · rw [hd, hself]
          rintro _ ⟨⟩
        · rw [hother hd]
          exact hs.switching d t u
      leaving := by
        intro d e t
        rw [hrun]
        by_cases hd : d = c
        · rw [hd, hself]
          rintro ⟨⟩
        · rw [hother hd]
          exact hs.leaving d e t
      target := by
        intro d a
        by_cases hd : d = c
        · rw [hd, hself]
          rintro ⟨⟩
        · rw [hother hd]
          exact hs.target d a
      entered := by
        intro d regs
        by_cases hd : d = c
        · rw [hd, hself]
          intro he
          rw [hentered] at he
          cases he
        · unfold Kernel.frameOf
          rw [hother hd]
          exact hs.entered d regs
      idle := by
        intro d t
        rw [hrun]
        exact hs.idle d t
      idleHome := hs.idleHome
      boot := hs.boot }
  · exact hs

theorem drain_ready {woken : List Nat} (h : ((s.drain woken).tasks t).state = .ready) :
    (s.tasks t).state = .ready ∨ (s.tasks t).state = .blocked ∧ t ∈ woken := by
  induction woken generalizing s with
  | nil => exact .inl h
  | cons u l ih =>
    obtain hready | ⟨hblocked, hmem⟩ := ih h
    · unfold Kernel.taskMarkReady at hready
      split at hready
      · next hu =>
        by_cases htu : t = u
        · rw [htu]
          exact .inr ⟨hu, List.mem_cons_self ..⟩
        · rw [show ((s.setState u .ready).tasks t) = s.tasks t from setTask_other _ htu] at hready
          exact .inl hready
      · exact .inl hready
    · refine .inr ⟨?_, List.mem_cons_of_mem _ hmem⟩
      unfold Kernel.taskMarkReady at hblocked
      split at hblocked
      · by_cases htu : t = u
        · rw [htu, show ((s.setState u .ready).tasks u).state = .ready from
            congrArg Task.state (setTask_self _)] at hblocked
          cases hblocked
        · rw [show ((s.setState u .ready).tasks t) = s.tasks t from setTask_other _ htu] at hblocked
          exact hblocked
      · exact hblocked

end Steps

section Result

variable {s s' : Kernel} {c t regs : Nat} {a : Action}

/-- The CPU `c` selects the task: it was ready (or was woken by the drain at the beginning of the
section) and holds its resources, or it is the boot task on the boot CPU; it runs there now; no
other CPU had it to itself, ran it or was on its kernel stack. -/
structure Kernel.Selects (s s' : Kernel) (c t : Nat) (woken : List Nat) : Prop where
  ready : (((s.tasks t).state = .ready ∨ (s.tasks t).state = .blocked ∧ t ∈ woken) ∧
    (s.tasks t).resourcesReleased = false) ∨ (t = s.layout.bootstrapTask ∧ c = s.layout.bsp)
  running : (s'.tasks t).state = .running ∧ (s'.cpus c).runningTask = some t
  home : ∀ k : Nat, (s.tasks t).runningCpu = -((k : Int) + 2) → k = c
  elsewhere : ∀ d, d ≠ c → (s.cpus d).runningTask ≠ some t ∧ (s.cpus d).kstack ≠ some t

/-- A task is selected in a section only, and comes to a CPU only when it is; what is kept for one CPU
stays so until it is selected. -/
structure Kernel.StepsWell (s : Kernel) (a : Action) (r : Kernel × Option Nat) : Prop where
  selects : ∀ t, r.2 = some t → ∃ c woken, a = .locked c woken ∧ s.Selects r.1 c t woken
  only : ∀ d t, (r.1.cpus d).runningTask = some t → (s.cpus d).runningTask = some t ∨ r.2 = some t
  kept : ∀ t, (s.tasks t).runningCpu < -1 → r.2 = some t ∨ (r.1.tasks t).runningCpu = (s.tasks t).runningCpu

/-- Each task is on one CPU at most, and its `runningCpu` says on which. -/
structure Kernel.OnOneCpu (s : Kernel) : Prop where
  unique : ∀ t c d, (s.cpus c).runningTask = some t → (s.cpus d).runningTask = some t → c = d
  owner : ∀ t (c : Nat), (s.tasks t).runningCpu = c ↔ (s.cpus c).runningTask = some t

theorem Inv.onOneCpu (hs : Inv s) : s.OnOneCpu where
  unique := by
    intro t c d hc hd
    have h₁ := (hs.owner t c).mpr hc
    have h₂ := (hs.owner t d).mpr hd
    omega
  owner := hs.owner

theorem stepsWell_of_same (hrun : ∀ d, (s'.cpus d).runningTask = (s.cpus d).runningTask)
    (howner : ∀ t, (s'.tasks t).runningCpu = (s.tasks t).runningCpu) : s.StepsWell a (s', none) where
  selects := by rintro t ⟨⟩
  only := by
    intro d t h
    exact .inl ((hrun d).symm.trans h)
  kept := fun t _ => .inr (howner t)

theorem Inv.quiet (hs : Inv s) (h : s.Places s') : Inv s' ∧ s.StepsWell a (s', none) :=
  ⟨hs.places h, stepsWell_of_same (fun d => (h.cpus d).running) h.owner⟩

theorem setEntered_running (entered : Option Nat) (d : Nat) :
    ((s.setCpu c fun x => { x with entered := entered }).cpus d).runningTask = (s.cpus d).runningTask := by
  by_cases h : d = c
  · rw [h, setCpu_self]
  · rw [setCpu_other _ h]

theorem setEntered_switching (entered : Option Nat) (d : Nat) :
    ((s.setCpu c fun x => { x with entered := entered }).cpus d).switchingTask = (s.cpus d).switchingTask := by
  by_cases h : d = c
  · rw [h, setCpu_self]
  · rw [setCpu_other _ h]

/-- The section of a CPU that has got the lock. -/
theorem Inv.lockedStep (hs : Inv s) (hregs : (s.cpus c).entered = some regs) (woken : List Nat) :
    let r := (s.setCpu c fun x => { x with entered := none }).locked c regs woken
    Inv r.1 ∧ s.StepsWell (.locked c woken) r := by
  intro r
  have honline := hs.online c (.inr (.inr (by rw [hregs]; rintro ⟨⟩)))
  have hs' : Inv (s.setCpu c fun x => { x with entered := none }) := hs.setEntered honline (by rintro k ⟨⟩)
  have hrun := setEntered_running none (s := s) (c := c)
  have hswitch := setEntered_switching none (s := s) (c := c)
  have hframe : (s.setCpu c fun x => { x with entered := none }).frameOf c regs = true := by
    have hold := hs.entered c regs hregs
    unfold Kernel.frameOf at hold ⊢
    rw [setCpu_self]
    exact hold
  have hends : ((s.setCpu c fun x => { x with entered := none }).drain woken).Ends c r := by
    apply hs'.locked
    · rw [setCpu_self]
    · rw [setCpu_self]
      exact honline
    · exact hframe
  have hdrain := agrees_drain (s.setCpu c fun x => { x with entered := none }) woken
  have hnowhere : ∀ t, ((s.setCpu c fun x => { x with entered := none }).drain woken).Nowhere t →
      s.Nowhere t := by
    intro t h d
    rw [← hrun d, ← hswitch d, ← (hdrain.cpus d).running, ← (hdrain.cpus d).switching]
    exact h d
  refine ⟨hends.inv, ?_, ?_, ?_⟩
  · intro t ht
    refine ⟨c, woken, rfl, ?_, ⟨hends.running t ht, hends.placed t ht⟩, ?_, ?_⟩
    · obtain ⟨hready, hrel, _, _⟩ | ⟨hidle, hbsp, _⟩ := hends.chosen t ht
      · have hready' := drain_ready hready
        exact .inl ⟨hready', (hdrain.released t).symm.trans hrel⟩
      · rw [hdrain.isIdle] at hidle
        rw [hdrain.layout] at hbsp
        exact .inr ⟨hs.boot t hidle, hbsp⟩
    · intro k hk
      obtain ⟨_, _, _, howner⟩ | ⟨hidle, hbsp, _⟩ := hends.chosen t ht
      · rw [hdrain.owner] at howner
        change (s.tasks t).runningCpu = -1 ∨ (s.tasks t).runningCpu = _ at howner
        omega
      · rw [hdrain.isIdle] at hidle
        rw [hdrain.layout] at hbsp
        exact (hs.idleHome t k hidle hk).trans hbsp.symm
    · have hplace : (s.cpus c).runningTask = some t ∨ s.Nowhere t := by
        obtain ⟨_, _, hno, _⟩ | ⟨_, _, hr | hno⟩ := hends.chosen t ht
        · exact .inr (hnowhere t hno)
        · rw [(hdrain.cpus c).running, hrun] at hr
          exact .inl hr
        · exact .inr (hnowhere t hno)
      intro d hd
      obtain hr | hno := hplace
      · have hother : (s.cpus d).runningTask ≠ some t := fun h => hd (hs.onOneCpu.unique t d c h hr)
        refine ⟨hother, fun hk => ?_⟩
        exact hd (hs.leaving d c t ((hs.kstack d t hk).resolve_left hother) hr)
      · refine ⟨(hno d).1, fun hk => ?_⟩
        exact (hs.kstack d t hk).elim (hno d).1 (hno d).2
  · intro d t hd
    have h := hends.only d t hd
    rw [(hdrain.cpus d).running, hrun] at h
    exact h
  · intro t ht
    have h := hends.kept t
    rw [hdrain.owner] at h
    exact h ht

theorem Inv.act (hs : Inv s) (a : Action) : Inv (s.act a).1 ∧ s.StepsWell a (s.act a) := by
  unfold Kernel.act
  cases a with
  | enter c regs gotLock =>
    dsimp only
    split
    · next h =>
      have hearly := (still_early s c regs gotLock).toAgrees
      generalize s.early c regs gotLock = entered at hearly ⊢
      obtain ⟨s₁, goesOn⟩ := entered
      dsimp only
      split
      · constructor
        · apply (hs.agrees hearly).setEntered
          · rw [(hearly.cpus c).active, hearly.layout]
            exact ⟨h.1, h.2.1⟩
          · rintro k ⟨⟩
            rw [hearly.frameOf]
            exact h.2.2.2
        · apply stepsWell_of_same
          · intro d
            rw [setEntered_running, (hearly.cpus d).running]
          · exact hearly.owner
      · exact hs.quiet hearly.toPlaces
    · exact hs.quiet (Kernel.Agrees.refl s).toPlaces
  | locked c woken =>
    dsimp only
    cases hregs : (s.cpus c).entered with
    | none => exact hs.quiet (Kernel.Agrees.refl s).toPlaces
    | some regs => exact hs.lockedStep hregs woken
  | leave c entry rax =>
    dsimp only
    split
    · next hentered =>
      refine ⟨hs.leave hentered entry rax, stepsWell_of_same (fun d => ?_) fun t => ?_⟩
      · unfold Kernel.leave
        split
        · by_cases h : d = c
          · rw [h, setCpu_self]
          · rw [setCpu_other _ h]
        · rfl
      · unfold Kernel.leave
        split
        · rfl
        · rfl
    · exact hs.quiet (Kernel.Agrees.refl s).toPlaces
  | markReady t => exact hs.quiet (agrees_markReady s t).toPlaces
  | block t => exact hs.quiet (agrees_setState s t .blocked).toPlaces
  | stop t => exact hs.quiet (agrees_setState s t .stopped).toPlaces
  | resume t =>
    dsimp only
    split
    · exact hs.quiet (agrees_setState s t .ready).toPlaces
    · exact hs.quiet (Kernel.Agrees.refl s).toPlaces
  | goOn c =>
    dsimp only
    cases (s.cpus c).runningTask with
    | none => exact hs.quiet (Kernel.Agrees.refl s).toPlaces
    | some t =>
      dsimp only [Option.elim]
      split
      · exact hs.quiet (agrees_setState s t .running).toPlaces
      · exact hs.quiet (Kernel.Agrees.refl s).toPlaces
  | exit t =>
    have h := agrees_setState s t .dead
    exact hs.quiet ⟨h.layout, h.cpus, h.owner, h.isIdle⟩
  | releaseResources t =>
    dsimp only
    split
    · have hsame : ∀ u (α : Type) (f : Task → α), (∀ x, f { x with resourcesReleased := true } = f x) →
          f ((s.setTask t fun x => { x with resourcesReleased := true }).tasks u) = f (s.tasks u) := by
        intro u α f hf
        by_cases h : u = t
        · rw [h, setTask_self, hf]
        · rw [setTask_other _ h]
      exact hs.quiet ⟨rfl, fun _ => .refl _, fun u => hsame u Int Task.runningCpu fun _ => rfl,
        fun u => hsame u Bool Task.isIdle fun _ => rfl⟩
    · exact hs.quiet (Kernel.Agrees.refl s).toPlaces
  | affinity t words mem => exact hs.quiet (still_setAffinity s t words mem).toPlaces
  | enqueue t => exact hs.quiet ⟨rfl, fun _ => .refl _, fun _ => rfl, fun _ => rfl⟩
  | pin t pinned =>
    exact hs.quiet (agrees_setTask s t (fun x => { x with kernelCpuPinned := pinned }) rfl rfl rfl).toPlaces
  | syscallFrame t inside =>
    exact hs.quiet (agrees_setTask s t (fun x => { x with syscallFrame := inside }) rfl rfl rfl).toPlaces
  | policy t policy priority slice =>
    exact hs.quiet (agrees_setTask s t (fun x => { x with
      schedPolicy := policy, schedPriority := priority, baseTimeSlice := slice, timeSlice := slice })
      rfl rfl rfl).toPlaces
  | force c =>
    exact hs.quiet (still_setCpu s c (fun x => { x with scheduleForce := true })
      ⟨rfl, rfl, rfl, rfl, rfl, rfl⟩).toPlaces
  | defer pending => exact hs.quiet ⟨rfl, fun _ => .refl _, fun _ => rfl, fun _ => rfl⟩
  | write a frame => exact hs.quiet ⟨rfl, fun _ => .refl _, fun _ => rfl, fun _ => rfl⟩

/-- The boot task runs on the boot CPU, and no other CPU has run a task. -/
structure Kernel.Start (s : Kernel) : Prop where
  online : (s.cpus s.layout.bsp).active = true ∧ s.layout.bsp < s.layout.cpuCount
  boot : (s.cpus s.layout.bsp).runningTask = some s.layout.bootstrapTask ∧
    (s.cpus s.layout.bsp).kstack = some s.layout.bootstrapTask ∧
    (s.tasks s.layout.bootstrapTask).runningCpu = s.layout.bsp
  idle : ∀ c, c ≠ s.layout.bsp → (s.cpus c).runningTask = none ∧ (s.cpus c).kstack = none
  quiet : ∀ c, (s.cpus c).switchingTask = none ∧ (s.cpus c).target = none ∧ (s.cpus c).entered = none
  tasks : ∀ t, t ≠ s.layout.bootstrapTask → (s.tasks t).runningCpu = -1
  only : ∀ t, (s.tasks t).isIdle = true → t = s.layout.bootstrapTask

/-- At the start a CPU that runs a task is the boot CPU, and the task the boot task. -/
theorem Kernel.Start.running (h : s.Start) (hc : (s.cpus c).runningTask = some t) :
    c = s.layout.bsp ∧ t = s.layout.bootstrapTask := by
  by_cases hbsp : c = s.layout.bsp
  · rw [hbsp, h.boot.1] at hc
    exact ⟨hbsp, (Option.some.inj hc).symm⟩
  · rw [(h.idle c hbsp).1] at hc
    cases hc

theorem Kernel.Start.inv (h : s.Start) : Inv s where
  owner t c := by
    constructor
    · intro hc
      by_cases ht : t = s.layout.bootstrapTask
      · rw [ht, h.boot.2.2] at hc
        rw [ht, ← Int.ofNat.inj hc]
        exact h.boot.1
      · rw [h.tasks t ht] at hc
        omega
    · intro hc
      obtain ⟨rfl, rfl⟩ := h.running hc
      exact h.boot.2.2
  online c := by
    rintro (hr | hw | he)
    · obtain ⟨t, ht⟩ := Option.ne_none_iff_exists'.mp hr
      rw [(h.running ht).1]
      exact h.online
    · exact absurd (h.quiet c).1 hw
    · exact absurd (h.quiet c).2.2 he
  kstack c t hk := by
    by_cases hbsp : c = s.layout.bsp
    · rw [hbsp, h.boot.2.1] at hk
      rw [hbsp, ← hk]
      exact .inl h.boot.1
    · rw [(h.idle c hbsp).2] at hk
      cases hk
  switching c t u _ hu := by
    rw [(h.quiet c).1] at hu
    cases hu
  leaving c d t hc := by
    rw [(h.quiet c).1] at hc
    cases hc
  target c a ha := by
    rw [(h.quiet c).2.1] at ha
    cases ha
  entered c regs he := by
    rw [(h.quiet c).2.2] at he
    cases he
  idle c t hc _ := (h.running hc).1
  idleHome t c hidle hc := by
    rw [h.only t hidle, h.boot.2.2] at hc
    omega
  boot := h.only

theorem Inv.step (hs : Inv s) (a : Action) : Inv (s.next a) ∧ s.StepsWell a (s.step a) := by
  unfold Kernel.next Kernel.step
  split
  · exact hs.quiet (Kernel.Agrees.refl s).toPlaces
  · exact hs.act a

theorem Inv.run (hs : Inv s) (l : List Action) : Inv (l.foldl Kernel.next s) := by
  induction l generalizing s with
  | nil => exact hs
  | cons a l ih => exact ih (hs.step a).1

/-- In every run from the start each task is on one CPU at most, and every step selects well. -/
theorem runs_on_one_cpu {s : Kernel} (h : s.Start) (l : List Action) (a : Action) :
    (l.foldl Kernel.next s).OnOneCpu ∧
      (l.foldl Kernel.next s).StepsWell a ((l.foldl Kernel.next s).step a) := by
  have hinv := h.inv.run l
  exact ⟨hinv.onOneCpu, (hinv.step a).2⟩

/-- Two CPUs, the boot task on the first, and a task of the user that is ready. -/
def twoCpus : Kernel where
  layout :=
    { cpuCount := 2, bsp := 0, bootstrapTask := 0, kernelVma := 0x1000000, heapStart := 0x2000000
      heapMax := 0x3000000, kstackIsInRegion := fun _ => false, kernelTextStart := 0x1000000
      kernelTextEnd := 0x1001000, taskCpuIdleEntry := 0x1000800
      stackOwner := fun a => if a = 0x1100000 then some 0 else if a = 0x2100000 then some 1 else none
      kernelStack := fun c => if c = 1 then some 0x2200000 else none
      kernelStack_owner := by
        intro c a h
        cases (Option.ite_none_right_eq_some.mp h).2
        rfl }
  tasks t :=
    { id := t, isUser := t ≠ 0, state := if t = 0 then .running else .ready, resourcesReleased := false
      runningCpu := if t = 0 then 0 else -1, kernelCpuPinned := false, affinity64 := 3, affinityNwords := -1
      affinityDyn := [], schedPolicy := .other, schedPriority := 0, piBoost := 0, niceValue := 0
      vruntime := 0, timeSlice := 5, baseTimeSlice := 5, syscallFrame := false, rsp := 0x2100000 }
  cpus c :=
    { active := true, runningTask := if c = 0 then some 0 else none, switchingTask := none, idleFrame := none
      schedulerLockDepth := 0, scheduleForce := false, vruntimeMin := 0
      kstack := if c = 0 then some 0 else none, target := none, entered := none }
  readyQueue := [0, 1]
  allTasks := [0, 1]
  frames a :=
    if a = 0x2100000 then ⟨0x23, 0x23, 0x1B, 0x400000, 0x202, 32⟩ else ⟨0x10, 0x10, 0x08, 0x1000100, 0x202, 32⟩
  deferredPending := false
  panicked := false

theorem twoCpus_start : twoCpus.Start where
  online := by decide
  boot := by decide
  idle c h := ⟨if_neg h, if_neg h⟩
  quiet _ := ⟨rfl, rfl, rfl⟩
  tasks t h := if_neg h
  only t h := (of_decide_eq_true h).1

/-- The boot CPU selects the task of the user, and the other CPU waits for the lock. -/
def twoCpusRun : List Action := [.enter 0 0x1100000 true, .locked 0 [], .enter 1 0x2201000 true]

theorem runs_on_one_cpu_example : twoCpus.Start ∧ (twoCpusRun.foldl Kernel.next twoCpus).OnOneCpu ∧
    (twoCpusRun.foldl Kernel.next twoCpus).StepsWell (.locked 1 [])
      ((twoCpusRun.foldl Kernel.next twoCpus).step (.locked 1 [])) :=
  ⟨twoCpus_start, runs_on_one_cpu twoCpus_start _ _⟩

end Result

end Lebirun.Schedule
