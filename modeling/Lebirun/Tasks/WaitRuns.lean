import Lebirun.Tasks.Children

namespace Lebirun.Tasks
open Machine
set_option autoImplicit true

section Sections

variable {s s' : Sched} {me t : Task} {p c d g : Nat} {n : Bool}

/-- The places a task passes only with a child that was not reported yet, and the searches that no
detached list hides a child from. -/
def Sched.quietGo (s : Sched) (me : Task) (signal : Bool) : Pc → Prop
  | .pid c nohang => ∀ t, s.find c = some t → t.ppid = me.pid →
      (t.state = .dead → t.waited = false) ∧
        (nohang = true → t.state = .dead ∨ stopPending me t = true)
  | .pidInterrupted c => ∀ t, s.find c = some t → t.ppid = me.pid → t.state = .dead → t.waited = false
  | .find g nohang =>
      (∀ d t, s.findDeadChild me g = some d → s.find d = some t → t.state = .dead → t.waited = false) ∧
        (nohang = true → ∀ r x t, x ∈ (s.reapers r).items → s.find x = some t →
          childOf me.pid g t = true → t.waited = true)
  | .join d _ nohang => nohang = true → ∀ t, s.find d = some t → t.state = .dead ∨ stopPending me t = true
  | .joinBlocked d _ _ => signal = false ∧ me.inWaitQueue = true ∨
      ∀ t, s.find d = some t → t.state = .dead ∨ stopPending me t = true
  | _ => True

/-- No exit code looks like a stop, and the waits meet what `quietGo` asks for. -/
def Sched.Quiet (s : Sched) : Action → Prop
  | .exit p code => ∀ t, s.find p = some t → Clean (finalCode t code)
  | .kill _ code => Clean code
  | .go p signal _ => ∀ me, s.find p = some me → s.quietGo me signal (s.pcs p)
  | _ => True

theorem stopCode_not_clean (t : Task) : ¬ Clean (stopCode t) := by
  intro h
  have hbit : ∀ i, waitBits.getLsbD i = true → (stopCode t).getLsbD i = false := by
    intro i hi
    have hz := congrArg (fun x : BitVec 64 => x.getLsbD i) h
    simpa [BitVec.getLsbD_and, hi] using hz
  unfold stopCode at hbit
  by_cases hev : t.jobEvent = 2
  · have := hbit 60 (by decide)
    rw [if_pos hev] at this
    exact absurd this (by decide)
  · have := hbit 63 (by decide)
    rw [if_neg hev, BitVec.getLsbD_or] at this
    exact absurd (Bool.or_eq_false_iff.mp this).1 (by decide)

theorem quietly_takeStop (s : Sched) (x : Nat) : Quietly s (s.update x takeStop) :=
  Quietly.update (f := takeStop) (fun _ => rfl) fun _ _ => ⟨rfl, rfl, rfl, Iff.rfl, rfl, fun _ => rfl⟩

/-- A living task changes its state. -/
theorem quietly_state {f : Task → Task} (hf : ∀ t, ∃ st w, st ≠ RunState.dead ∧
    f t = { t with state := st, inWaitQueue := w }) (hme : s.find p = some me) (ha : me.state ≠ .dead) :
    Quietly s (s.update p f) := by
  apply Quietly.update
  · intro t
    obtain ⟨st, w, _, h⟩ := hf t
    rw [h]
  · intro t ht
    rw [hme] at ht
    cases ht
    obtain ⟨st, w, hst, h⟩ := hf me
    rw [h]
    exact ⟨rfl, rfl, rfl, iff_of_false hst ha, rfl, fun _ => rfl⟩

/-- A child is held or let go, and the caller changes its state. -/
theorem quietly_hold {f h : Task → Task} (hf : ∀ t, ∃ k, f t = { t with joinRefs := k })
    (hh : ∀ t, ∃ st w, st ≠ RunState.dead ∧ h t = { t with state := st, inWaitQueue := w })
    (hme : s.find p = some me) (ha : me.state ≠ .dead) : Quietly s ((s.update c f).update p h) := by
  have hfirst : Quietly s (s.update c f) := by
    apply Quietly.update
    · intro t
      obtain ⟨k, hk⟩ := hf t
      rw [hk]
    · intro t _
      obtain ⟨k, hk⟩ := hf t
      rw [hk]
      exact ⟨rfl, rfl, rfl, Iff.rfl, rfl, fun _ => rfl⟩
  obtain ⟨me', hme', halike⟩ := hfirst.forth p me hme
  exact hfirst.trans (quietly_state hh hme' fun hd => ha (halike.dead.mp hd))

theorem quietly_blockOn (hme : s.find p = some me) (ha : me.state ≠ .dead) (c : Nat) :
    Quietly s (s.blockOn p c) :=
  quietly_hold (fun t => ⟨t.joinRefs + 1, rfl⟩) (fun _ => ⟨.blocked, true, by decide, rfl⟩) hme ha

theorem quietly_unblock (hme : s.find p = some me) (ha : me.state ≠ .dead) (c : Nat) :
    Quietly s (s.unblock p c) :=
  quietly_hold (fun t => ⟨t.joinRefs - 1, rfl⟩) (fun _ => ⟨.running, false, by decide, rfl⟩) hme ha

/-- What a search finds is a child on the lists. -/
theorem findDeadChild_some (h : s.findDeadChild me g = some d) (hs : Inv s) :
    ∃ t, s.find d = some t ∧ childOf me.pid g t = true ∧ (d ∈ s.deadQueue ∨ stopPending me t = true) := by
  unfold Sched.findDeadChild at h
  cases hq : s.deadQueue.find? fun x => (s.find x).any (childOf me.pid g) with
  | some x =>
    rw [hq] at h
    cases h
    have hp := List.find?_some hq
    cases ht : s.find d with
    | none =>
      rw [ht] at hp
      cases hp
    | some t =>
      rw [ht] at hp
      exact ⟨t, rfl, hp, .inl (List.mem_of_find?_eq_some hq)⟩
  | none =>
    rw [hq] at h
    obtain ⟨t, ht, rfl⟩ := Option.map_eq_some_iff.mp h
    have hp := List.find?_some ht
    rw [Bool.and_eq_true] at hp
    exact ⟨t, find_of_mem hs.nodup (List.mem_of_find?_eq_some ht), hp.1, .inr hp.2⟩

theorem go_at {s' : Sched} {pc : Pc} (h : s.wait me signal released (s.pcs me.pid) = (s', .at pc)) :
    s.go me signal released = (s'.setPc me.pid pc, none) := by
  unfold Sched.go
  rw [h]

theorem go_done {s' : Sched} {a : Answer}
    (h : s.wait me signal released (s.pcs me.pid) = (s', .done a)) :
    s.go me signal released = ((s'.setPc me.pid .idle).log a, some (me.pid, a)) := by
  unfold Sched.go
  rw [h]

/-- A caller moves on without taking a child. -/
theorem Inv.moves (hs : Inv s) (hme : s.find p = some me) (ha : me.state ≠ .dead) (hq : Quietly s s')
    (hold : ∀ d code n, s.pcs p = .reaping d code n → ¬ Clean code) (hok : s'.PcOk p pc) :
    Inv (s'.setPc p pc) := by
  apply (hs.quietly hq).setPc
  · intro _
    obtain ⟨me', hme', halike⟩ := hq.forth p me hme
    exact ⟨me', hme', fun hd => ha (halike.dead.mp hd)⟩
  · exact hok
  · intro d code n h
    rw [hq.rest] at h
    exact hold d code n h

theorem Inv.answers (hs : Inv s) (hold : ∀ d code n, s.pcs p = .reaping d code n → ¬ Clean code) :
    Inv (s.setPc p .idle) :=
  hs.setPc (fun h => absurd rfl h) trivial hold

/-- A stop is taken, which leaves every search as it was. -/
theorem Inv.stops (hs : Inv s) (hme : s.find p = some me) (ha : me.state ≠ .dead)
    (hq : Quietly s s') (hold : ∀ d code n, s.pcs p = .reaping d code n → ¬ Clean code)
    (t : Task) (c : Nat) (n : Bool) : Inv (s'.setPc p (.reaping c (stopCode t) n)) :=
  hs.moves hme ha hq hold fun h => absurd h (stopCode_not_clean t)

end Sections

section Inversion

/-- What a section of `wait_child` does, by the place it begins at. -/
inductive WaitStep (s : Sched) (me : Task) (signal released : Bool) : Pc → Sched × Next → Prop
  | idle : WaitStep s me signal released .idle (s, .at .idle)
  | noHangGone (hc : ∀ t, s.find c = some t → t.ppid ≠ me.pid) :
    WaitStep s me signal released (.noHang c) (s, .done .noChild)
  | noHangAlive (hc : s.find c = some t) (ha : t.state ≠ .dead) :
    WaitStep s me signal released (.noHang c) (s, .done .nothing)
  | noHangOn : WaitStep s me signal released (.noHang c) (s, .at (.pid c true))
  | pidGone (hc : ∀ t, s.find c = some t → t.ppid ≠ me.pid) :
    WaitStep s me signal released (.pid c n) (s, .done .noChild)
  | pidStop (hc : s.find c = some t) (hp : t.ppid = me.pid) :
    WaitStep s me signal released (.pid c n) (s.update c takeStop, .at (.reaping c (stopCode t) n))
  | pidDead (hc : s.find c = some t) (hp : t.ppid = me.pid) (hd : t.state = .dead) :
    WaitStep s me signal released (.pid c n) (s.update c markWaited, .at (.reaping c t.exitCode n))
  | pidSignal (hc : s.find c = some t) (hp : t.ppid = me.pid) (ha : t.state ≠ .dead)
    (hst : stopPending me t = false) : WaitStep s me signal released (.pid c n) (s, .done .interrupted)
  | pidSleep (hc : s.find c = some t) (hp : t.ppid = me.pid) (ha : t.state ≠ .dead)
    (hst : stopPending me t = false) :
    WaitStep s me signal released (.pid c n) (s.blockOn me.pid c, .at (.pidBlocked c))
  | pidWake : WaitStep s me signal released (.pidBlocked c)
    (s.unblock me.pid c, .at (if signal then .pidInterrupted c else .pid c false))
  | lateStop (hc : s.find c = some t) (hp : t.ppid = me.pid) :
    WaitStep s me signal released (.pidInterrupted c)
      (s.update c takeStop, .at (.reaping c (stopCode t) false))
  | lateDead (hc : s.find c = some t) (hp : t.ppid = me.pid) (hd : t.state = .dead) :
    WaitStep s me signal released (.pidInterrupted c)
      (s.update c markWaited, .at (.reaping c t.exitCode false))
  | lateNone : WaitStep s me signal released (.pidInterrupted c) (s, .done .interrupted)
  | hasOne (h : s.hasChildOf me.pid g = true) :
    WaitStep s me signal released (.hasChild g n) (s, .at (.find g n))
  | hasNone (h : s.hasChildOf me.pid g = false) :
    WaitStep s me signal released (.hasChild g n) (s, .done .noChild)
  | found (h : s.findDeadChild me g = some d) :
    WaitStep s me signal released (.find g n) (s, .at (.join d g n))
  | foundNothing (h : s.findDeadChild me g = none) :
    WaitStep s me signal released (.find g true) (s, .done .nothing)
  | foundNone (h : s.findDeadChild me g = none) :
    WaitStep s me signal released (.find g false) (s, .at (.prepare g))
  | joinGone (hd : s.find d = none) :
    WaitStep s me signal released (.join d g n) (s, .done .noChild)
  | joinStop (hd : s.find d = some t) :
    WaitStep s me signal released (.join d g n) (s.update d takeStop, .at (.mark d (stopCode t) n))
  | joinDead (hd : s.find d = some t) (hdead : t.state = .dead) :
    WaitStep s me signal released (.join d g n) (s, .at (.mark d t.exitCode n))
  | joinAsleep (h : me.inWaitQueue = true) :
    WaitStep s me signal released (.join d g n) (s, .done .noChild)
  | joinSleep (hd : s.find d = some t) (ha : t.state ≠ .dead) (hst : stopPending me t = false) :
    WaitStep s me signal released (.join d g n) (s.blockOn me.pid d, .at (.joinBlocked d g n))
  | joinedGone (hd : s.find d = none) :
    WaitStep s me signal released (.joinBlocked d g n) (s, .done .noChild)
  | joinedStop (hd : s.find d = some t) :
    WaitStep s me signal released (.joinBlocked d g n)
      ((s.unblock me.pid d).update d takeStop, .at (.mark d (stopCode t) n))
  | joinedDead (hd : s.find d = some t) (hdead : t.state = .dead) :
    WaitStep s me signal released (.joinBlocked d g n)
      (s.unblock me.pid d, .at (.mark d t.exitCode n))
  | joinedOut (hd : s.find d = some t) (ha : t.state ≠ .dead) (hst : stopPending me t = false)
    (h : signal = true ∨ me.inWaitQueue = false) :
    WaitStep s me signal released (.joinBlocked d g n) (s.unblock me.pid d, .done .noChild)
  | joinedAgain (hd : s.find d = some t) (ha : t.state ≠ .dead) (hst : stopPending me t = false) :
    WaitStep s me signal released (.joinBlocked d g n) (s, .at (.joinBlocked d g n))
  | mark (hc : Clean code) : WaitStep s me signal released (.mark d code n)
    (s.update d markWaited, .at (.reaping d code n))
  | markStop (hc : ¬ Clean code) : WaitStep s me signal released (.mark d code n)
    (s, .at (.reaping d code n))
  | prepareFound : WaitStep s me signal released (.prepare g) (s, .at (.find g false))
  | prepareSleep : WaitStep s me signal released (.prepare g)
    (s.update me.pid fun t => { t with state := .blocked }, .at (.anyBlocked g))
  | prepareNone (h : s.hasChildOf me.pid g = false) :
    WaitStep s me signal released (.prepare g) (s, .done .noChild)
  | anyWake : WaitStep s me signal released (.anyBlocked g)
    (s.update me.pid fun t => { t with state := .running },
      .at (if signal then .recheck g else .find g false))
  | recheckFound : WaitStep s me signal released (.recheck g) (s, .at (.find g false))
  | recheckNone : WaitStep s me signal released (.recheck g) (s, .done .interrupted)
  | reap : WaitStep s me signal released (.reaping d code n)
    ((s.reapBy (.task me.pid) released).1,
      if (s.reapBy (.task me.pid) released).2 then .done (.returned d code) else .at (.reaping d code n))

theorem wait_step (s : Sched) (me : Task) (signal released : Bool) (pc : Pc) :
    WaitStep s me signal released pc (s.wait me signal released pc) := by
  cases pc with
  | idle => exact .idle
  | noHang c =>
    unfold Sched.wait
    dsimp only
    cases hc : s.find c with
    | none => exact .noHangGone (by rw [hc]; rintro _ ⟨⟩)
    | some t =>
      dsimp only
      split
      · next hp => exact .noHangGone (by rw [hc]; rintro _ ⟨⟩; exact hp)
      · split
        · next ha => exact .noHangAlive hc ha.1
        · exact .noHangOn
  | pid c n =>
    unfold Sched.wait
    dsimp only
    cases hc : s.find c with
    | none => exact .pidGone (by rw [hc]; rintro _ ⟨⟩)
    | some t =>
      dsimp only
      split
      · next hp => exact .pidGone (by rw [hc]; rintro _ ⟨⟩; exact hp)
      · next hp =>
        have hp' : t.ppid = me.pid := not_not.mp hp
        split
        · exact .pidStop hc hp'
        · next hst =>
          have hst' : stopPending me t = false := eq_false_of_ne_true hst
          split
          · next hd => exact .pidDead hc hp' hd
          · next ha =>
            split
            · exact .pidSignal hc hp' ha hst'
            · exact .pidSleep hc hp' ha hst'
  | pidBlocked c => exact .pidWake
  | pidInterrupted c =>
    unfold Sched.wait
    dsimp only
    cases hc : s.find c with
    | none => exact .lateNone
    | some t =>
      dsimp only
      split
      · exact .lateNone
      · next hp =>
        have hp' : t.ppid = me.pid := not_not.mp hp
        split
        · exact .lateStop hc hp'
        · split
          · next hd => exact .lateDead hc hp' hd
          · exact .lateNone
  | hasChild g n =>
    unfold Sched.wait
    dsimp only
    split
    · next h => exact .hasOne h
    · next h => exact .hasNone (eq_false_of_ne_true h)
  | find g n =>
    unfold Sched.wait
    dsimp only
    cases h : s.findDeadChild me g with
    | some d => exact .found h
    | none =>
      cases n with
      | true => exact .foundNothing h
      | false => exact .foundNone h
  | join d g n =>
    unfold Sched.wait
    dsimp only
    cases hd : s.find d with
    | none => exact .joinGone hd
    | some t =>
      dsimp only
      split
      · exact .joinStop hd
      · next hst =>
        split
        · next hdead => exact .joinDead hd hdead
        · next ha =>
          split
          · next h => exact .joinAsleep h
          · exact .joinSleep hd ha (eq_false_of_ne_true hst)
  | joinBlocked d g n =>
    unfold Sched.wait
    dsimp only
    cases hd : s.find d with
    | none => exact .joinedGone hd
    | some t =>
      dsimp only
      split
      · exact .joinedStop hd
      · next hst =>
        split
        · next hdead => exact .joinedDead hd hdead
        · next ha =>
          split
          · next h => exact .joinedOut hd ha (eq_false_of_ne_true hst) (by simpa using h)
          · exact .joinedAgain hd ha (eq_false_of_ne_true hst)
  | mark d code n =>
    unfold Sched.wait
    dsimp only
    split
    · next h => exact .mark h
    · next h => exact .markStop h
  | prepare g =>
    unfold Sched.wait
    dsimp only
    cases s.findDeadChild me g with
    | some d => exact .prepareFound
    | none =>
      dsimp only
      split
      · exact .prepareSleep
      · next h => exact .prepareNone (eq_false_of_ne_true h)
  | anyBlocked g => exact .anyWake
  | recheck g =>
    unfold Sched.wait
    dsimp only
    cases s.findDeadChild me g with
    | some d => exact .recheckFound
    | none => exact .recheckNone
  | reaping d code n => exact .reap

end Inversion

section Keeping

variable {s s' : Sched} {me t : Task} {p c d g : Nat} {n : Bool}

/-- A section of a reaper moves nobody and reports nothing. -/
theorem reapBy_frame (s : Sched) (r : Reaper) (released : Bool) :
    (s.reapBy r released).1.pcs = s.pcs ∧ (s.reapBy r released).1.exits = s.exits ∧
      (s.reapBy r released).1.reports = s.reports ∧
      ∀ b, b ≠ r → (s.reapBy r released).1.reapers b = s.reapers b := by
  have hset : ∀ (u : Sched) (k : Reap), u.pcs = s.pcs → u.exits = s.exits → u.reports = s.reports →
      u.reapers = s.reapers → (u.setReap r k).pcs = s.pcs ∧ (u.setReap r k).exits = s.exits ∧
        (u.setReap r k).reports = s.reports ∧ ∀ b, b ≠ r → (u.setReap r k).reapers b = s.reapers b := by
    intro u k h₁ h₂ h₃ h₄
    refine ⟨h₁, h₂, h₃, fun b hb => ?_⟩
    rw [← h₄]
    exact if_neg hb
  have hstep := reapBy_step s r released
  generalize s.reapBy r released = out at hstep
  cases hstep with
  | empty hr => exact hset s _ rfl rfl rfl rfl
  | detach hr => exact hset { s with deadQueue := [] } _ rfl rfl rfl rfl
  | restore hr => exact hset { s with deadQueue := _ } _ rfl rfl rfl rfl
  | drop hr hx => exact hset s _ rfl rfl rfl rfl
  | keep hr hx => exact hset s _ rfl rfl rfl rfl
  | release hr hx hk => exact hset s _ rfl rfl rfl rfl
  | remove hr => exact hset (s.remove _) _ rfl rfl rfl rfl

theorem Inv.go (hs : Inv s) (hme : s.find p = some me) (hidle : s.pcs p ≠ .idle)
    (hq : s.quietGo me signal (s.pcs p)) (released : Bool) : Inv (s.go me signal released).1 := by
  have hp : me.pid = p := find_pid hme
  subst hp
  have ha : me.state ≠ .dead := by
    obtain ⟨me', hme', ha⟩ := hs.live _ hidle
    rw [hme] at hme'
    cases hme'
    exact ha
  have hplace := hs.places me.pid
  have hstep := wait_step s me signal released (s.pcs me.pid)
  generalize hout : s.wait me signal released (s.pcs me.pid) = out at hstep
  generalize hpc : s.pcs me.pid = pc at *
  -- only a place of the reaper holds a child
  have hold : (∀ d code n, pc ≠ .reaping d code n) →
      ∀ d code n, s.pcs me.pid = .reaping d code n → ¬ Clean code := by
    intro hne d code n h
    exact absurd (hpc.symm.trans h) (hne d code n)
  unfold Sched.go
  rw [hpc, hout]
  cases hstep with
  | idle => exact absurd rfl hidle
  | noHangGone hc => exact hs.answers (hold (by rintro _ _ _ ⟨⟩))
  | noHangAlive hc ha => exact hs.answers (hold (by rintro _ _ _ ⟨⟩))
  | noHangOn => exact hs.moves hme ha (.refl s) (hold (by rintro _ _ _ ⟨⟩)) trivial
  | pidGone hc => exact hs.answers (hold (by rintro _ _ _ ⟨⟩))
  | pidStop hc hp => exact hs.stops hme ha (quietly_takeStop s _) (hold (by rintro _ _ _ ⟨⟩)) _ _ _
  | pidDead hc hp hd =>
    exact hs.take hme ha hc hp hd ((hq _ hc hp).1 hd) (hold (by rintro _ _ _ ⟨⟩)) _
  | pidSignal hc hp hc' hst => exact hs.answers (hold (by rintro _ _ _ ⟨⟩))
  | pidSleep hc hp hc' hst =>
    exact hs.moves hme ha (quietly_blockOn hme ha _) (hold (by rintro _ _ _ ⟨⟩)) trivial
  | pidWake =>
    apply hs.moves hme ha (quietly_unblock hme ha _) (hold (by rintro _ _ _ ⟨⟩))
    cases signal with
    | true => trivial
    | false => trivial
  | lateStop hc hp => exact hs.stops hme ha (quietly_takeStop s _) (hold (by rintro _ _ _ ⟨⟩)) _ _ _
  | lateDead hc hp hd => exact hs.take hme ha hc hp hd (hq _ hc hp hd) (hold (by rintro _ _ _ ⟨⟩)) _
  | lateNone => exact hs.answers (hold (by rintro _ _ _ ⟨⟩))
  | hasOne h => exact hs.moves hme ha (.refl s) (hold (by rintro _ _ _ ⟨⟩)) trivial
  | hasNone h => exact hs.answers (hold (by rintro _ _ _ ⟨⟩))
  | found h =>
    apply hs.moves hme ha (.refl s) (hold (by rintro _ _ _ ⟨⟩))
    obtain ⟨t, ht, hchild, _⟩ := findDeadChild_some h hs
    exact ⟨t, ht, hchild, hq.1 _ t h ht⟩
  | foundNothing h => exact hs.answers (hold (by rintro _ _ _ ⟨⟩))
  | foundNone h => exact hs.moves hme ha (.refl s) (hold (by rintro _ _ _ ⟨⟩)) trivial
  | joinGone hd => exact hs.answers (hold (by rintro _ _ _ ⟨⟩))
  | joinStop hd =>
    apply hs.moves hme ha (quietly_takeStop s _) (hold (by rintro _ _ _ ⟨⟩))
    exact fun h => absurd h (stopCode_not_clean _)
  | @joinDead d t g n hd hdead =>
    apply hs.moves hme ha (.refl s) (hold (by rintro _ _ _ ⟨⟩))
    intro _
    obtain ⟨u, hu, hchild, hw⟩ := hplace
    rw [hd] at hu
    cases hu
    exact ⟨t, hd, childOf_ppid hchild, hdead, hw hdead, rfl⟩
  | joinAsleep h => exact hs.answers (hold (by rintro _ _ _ ⟨⟩))
  | joinSleep hd hd' hst =>
    have hquiet := quietly_blockOn (s := s) hme ha
    exact hs.moves hme ha (hquiet _) (hold (by rintro _ _ _ ⟨⟩)) ((hquiet _).pcOk hplace)
  | joinedGone hd => exact hs.answers (hold (by rintro _ _ _ ⟨⟩))
  | joinedStop hd =>
    apply hs.moves hme ha _ (hold (by rintro _ _ _ ⟨⟩))
    · exact fun h => absurd h (stopCode_not_clean _)
    · exact (quietly_unblock hme ha _).trans (quietly_takeStop _ _)
  | @joinedDead d t g n hd hdead =>
    apply hs.moves hme ha (quietly_unblock hme ha _) (hold (by rintro _ _ _ ⟨⟩))
    intro _
    obtain ⟨u, hu, hchild, hw⟩ := hplace
    rw [hd] at hu
    cases hu
    obtain ⟨t', ht', halike⟩ := (quietly_unblock hme ha d).forth d t hd
    exact ⟨t', ht', halike.ppid.trans (childOf_ppid hchild), halike.dead.mpr hdead,
      halike.waited.trans (hw hdead), halike.exitCode hdead⟩
  | joinedOut hd hd' hst h =>
    exact (hs.quietly (quietly_unblock hme ha _)).answers
      (by rw [(quietly_unblock hme ha _).rest]; exact hold (by rintro _ _ _ ⟨⟩))
  | joinedAgain hd hd' hst =>
    exact hs.moves hme ha (.refl s) (hold (by rintro _ _ _ ⟨⟩)) hplace
  | mark hc =>
    obtain ⟨t, ht, hp, hdead, hw, rfl⟩ := hplace hc
    exact hs.take hme ha ht hp hdead hw (hold (by rintro _ _ _ ⟨⟩)) _
  | markStop hc =>
    exact hs.moves hme ha (.refl s) (hold (by rintro _ _ _ ⟨⟩)) fun h => absurd h hc
  | prepareFound => exact hs.moves hme ha (.refl s) (hold (by rintro _ _ _ ⟨⟩)) trivial
  | prepareSleep =>
    apply hs.moves hme ha _ (hold (by rintro _ _ _ ⟨⟩))
    · trivial
    · exact quietly_state (fun t => ⟨.blocked, t.inWaitQueue, by decide, rfl⟩) hme ha
  | prepareNone h => exact hs.answers (hold (by rintro _ _ _ ⟨⟩))
  | anyWake =>
    apply hs.moves hme ha _ (hold (by rintro _ _ _ ⟨⟩))
    · cases signal with
      | true => trivial
      | false => trivial
    · exact quietly_state (fun t => ⟨.running, t.inWaitQueue, by decide, rfl⟩) hme ha
  | recheckFound => exact hs.moves hme ha (.refl s) (hold (by rintro _ _ _ ⟨⟩)) trivial
  | recheckNone => exact hs.answers (hold (by rintro _ _ _ ⟨⟩))
  | @reap d code n =>
    have hs' := hs.reapBy (.task me.pid) released
    have hpcs := (reapBy_frame s (.task me.pid) released).1
    have hpc' : (s.reapBy (.task me.pid) released).1.pcs me.pid = .reaping d code n := by
      rw [hpcs]
      exact hpc
    cases hfin : (s.reapBy (.task me.pid) released).2 with
    | true => exact hs'.returned hpc'
    | false =>
      change Inv ((s.reapBy (.task me.pid) released).1.setPc me.pid (.reaping d code n))
      rw [setPc_self hpc']
      exact hs'

/-- A call begins: the options are set, and the caller goes to the first place. -/
theorem Inv.call (hs : Inv s) (hme : s.find p = some me) (ha : me.state ≠ .dead)
    (hidle : s.pcs p = .idle) (untraced continued : Bool) (tgt : Target) (n : Bool) :
    Inv ((s.update p fun t => { t with untraced, continued }).setPc p (tgt.start n)) := by
  apply hs.moves hme ha
  · exact Quietly.update (fun _ => rfl) fun _ _ => ⟨rfl, rfl, rfl, Iff.rfl, rfl, fun _ => rfl⟩
  · intro d code n h
    rw [hidle] at h
    cases h
  · cases tgt with
    | pid c =>
      cases n with
      | true => trivial
      | false => trivial
    | children g => trivial

theorem quietly_pendKill (ht : s.find p = some t) (ha : t.state ≠ .dead) (code : BitVec 64) :
    Quietly s (s.update p (pendKill code)) := by
  apply Quietly.update (f := pendKill code)
  · intro _
    rfl
  · intro u hu
    rw [ht] at hu
    cases hu
    have hstate : (pendKill code t).state ≠ .dead := by
      unfold pendKill
      dsimp only
      split
      · decide
      · exact ha
    exact ⟨rfl, rfl, rfl, iff_of_false hstate ha, rfl, fun h => absurd h ha⟩

theorem quietly_job (s : Sched) (p event : Nat) (signal : BitVec 64) (state : RunState) :
    Quietly s (s.update p fun t =>
      if t.state = .dead ∨ state = .dead then { t with jobEvent := event, jobStopSignal := signal }
      else { t with jobEvent := event, jobStopSignal := signal, state }) := by
  apply Quietly.update
  · intro t
    split
    · rfl
    · rfl
  · intro t _
    split
    · exact ⟨rfl, rfl, rfl, Iff.rfl, rfl, fun _ => rfl⟩
    · next h =>
      have h' := not_or.mp h
      exact ⟨rfl, rfl, rfl, iff_of_false h'.2 h'.1, rfl, fun _ => rfl⟩

/-- Every step that meets the condition keeps the invariant. -/
theorem Inv.step (hs : Inv s) (hq : s.Quiet a) : Inv (s.next a) := by
  unfold Sched.next
  cases a with
  | call p pid n untraced continued =>
    unfold Sched.step
    dsimp only
    cases hme : s.find p with
    | none => exact hs
    | some me =>
      dsimp only
      split
      · next h => exact hs.call hme h.2 h.1 _ _ _ _
      · exact hs
  | go p signal released =>
    unfold Sched.step
    dsimp only
    cases hme : s.find p with
    | none => exact hs
    | some me =>
      dsimp only
      split
      · exact hs
      · next h => exact hs.go hme (not_or.mp h).1 (hq me hme) released
  | work m released => exact hs.reapBy (.worker m) released
  | exit p code =>
    unfold Sched.step
    dsimp only
    cases ht : s.find p with
    | none => exact hs
    | some t =>
      dsimp only
      split
      · next h => exact hs.die ht h.2 h.1 (hq t ht)
      · exact hs
  | kill p code =>
    unfold Sched.step
    dsimp only
    cases ht : s.find p with
    | none => exact hs
    | some t =>
      dsimp only
      split
      · exact hs
      · next ha =>
        split
        · exact hs.quietly (quietly_pendKill ht ha code)
        · next h => exact hs.die ht ha (not_not.mp (not_or.mp h).2) hq
  | hold p refs w c =>
    apply hs.quietly
    exact Quietly.update (fun _ => rfl) fun _ _ => ⟨rfl, rfl, rfl, Iff.rfl, rfl, fun _ => rfl⟩
  | job p event signal state => exact hs.quietly (quietly_job s p event signal state)
  | spawn p t =>
    unfold Sched.step
    dsimp only
    cases hp : s.find p with
    | none => exact hs
    | some parent =>
      apply hs.add
      · rfl
      · exact (hs.ids p parent hp).2.1
      · intro h
        cases h
      · rfl

end Keeping

section Starting

/-- Nobody waits, no task has died, and every number was given out. -/
structure Sched.Start (s : Sched) : Prop where
  nodup : (s.all.map Task.pid).Nodup
  tasks : ∀ t ∈ s.all, 0 < t.pid ∧ t.pid < s.nextId ∧ t.ppid < s.nextId ∧ t.state ≠ .dead ∧
    t.waited = false
  deadQueue : s.deadQueue = []
  pcs : ∀ p, s.pcs p = .idle
  reapers : ∀ r, s.reapers r = .start
  exits : s.exits = []
  reports : s.reports = []

theorem Sched.Start.inv (h : Sched.Start s) : Inv s := by
  have halive : ∀ x t, s.find x = some t → t.state ≠ .dead := by
    intro x t ht
    exact (h.tasks t (mem_of_find ht)).2.2.2.1
  have hnone : ∀ x, ¬ s.Held x := by
    intro x hx
    cases hx with
    | inl hx =>
      rw [h.deadQueue] at hx
      cases hx
    | inr hx =>
      obtain ⟨r, hr⟩ := hx
      rw [h.reapers r] at hr
      cases hr
  have hexits : ∀ e, e ∉ s.exits := by
    intro e he
    rw [h.exits] at he
    cases he
  exact {
    nodup := h.nodup
    ids := by
      intro x t ht
      obtain ⟨h₁, h₂, h₃, _⟩ := h.tasks t (mem_of_find ht)
      rw [find_pid ht] at h₁ h₂
      exact ⟨h₁, h₂, h₃⟩
    waited := by
      intro x t ht hw
      rw [(h.tasks t (mem_of_find ht)).2.2.2.2] at hw
      cases hw
    died := fun x t ht hd => absurd hd (halive x t ht)
    ends := fun e he => absurd he (hexits e)
    stays := fun e he => absurd he (hexits e)
    exitsNodup := by
      rw [h.exits]
      exact List.nodup_nil
    kept := fun e he => absurd he (hexits e)
    queued := fun x t ht hd => absurd hd (halive x t ht)
    entries := fun x hx => absurd hx (hnone x)
    heldIds := fun x hx => absurd hx (hnone x)
    unlinks := by
      intro r x todo keep hr
      rw [h.reapers r] at hr
      cases hr
    live := fun p hp => absurd (h.pcs p) hp
    places := by
      intro p
      rw [h.pcs p]
      trivial
    reports := by
      intro c code hc
      rw [h.reports] at hc
      cases hc
    reportsNodup := by
      rw [h.reports]
      exact List.nodup_nil }

end Starting

section Answers

variable {s s' : Sched} {me t : Task} {p c d g : Nat} {n : Bool}

/-- What a place still searches for, and whether the call must not block. -/
def Pc.asks : Pc → Option (Target × Bool)
  | .noHang c => some (.pid c, true)
  | .pid c nohang => some (.pid c, nohang)
  | .pidBlocked c | .pidInterrupted c => some (.pid c, false)
  | .hasChild g nohang | .find g nohang | .join _ g nohang | .joinBlocked _ g nohang =>
    some (.children g, nohang)
  | .prepare g | .anyBlocked g | .recheck g => some (.children g, false)
  | .idle | .mark _ _ _ | .reaping _ _ _ => none

/-- The caller has a dead child that matches and was not returned yet. -/
def Sched.Unreturned (s : Sched) (p : Nat) (tgt : Target) : Prop :=
  ∃ e ∈ s.exits, tgt.matches p e = true ∧ ¬ s.reported e.pid

/-- A search that ends without a child although there is one was a blocking one that a signal ended. -/
def Sched.Right (s : Sched) (a : Action) : Prop :=
  ∀ p ans, (s.step a).2 = some (p, ans) → ∀ tgt nohang, (s.pcs p).asks = some (tgt, nohang) →
    s.Unreturned p tgt → ans = .interrupted ∧ nohang = false

theorem matches_ppid {tgt : Target} (h : tgt.matches p t = true) : t.ppid = p := by
  cases tgt with
  | pid c => exact (of_decide_eq_true h).1
  | children g => exact childOf_ppid h

theorem Same.matches (h : Same e t) (tgt : Target) : tgt.matches p t = tgt.matches p e := by
  obtain ⟨h₁, h₂, h₃, _⟩ := h
  cases tgt with
  | pid c =>
    unfold Target.matches
    rw [h₁, h₂]
  | children g =>
    unfold Target.matches childOf
    rw [h₂, h₃]

/-- A child that a searching caller was not told of is on the lists, dead and unmarked. -/
theorem Inv.unreturned (hs : Inv s) {tgt : Target} (hasks : (s.pcs p).asks = some (tgt, n))
    (h : s.Unreturned p tgt) : ∃ x t, s.find x = some t ∧ tgt.matches p t = true ∧
      t.state = .dead ∧ t.waited = false := by
  obtain ⟨e, he, hmatch, hnr⟩ := h
  have hparent := matches_ppid hmatch
  obtain hr | ⟨code, m, hpc, _⟩ | hnone | ⟨t, ht, hw⟩ := hs.kept e he
  · exact absurd hr hnr
  · rw [hparent] at hpc
    rw [hpc] at hasks
    cases hasks
  · obtain ⟨me, hme, _⟩ := hs.live p fun h => by
      rw [h] at hasks
      cases hasks
    rw [hparent, hme] at hnone
    cases hnone
  · have hd := hs.stays e he t ht
    obtain ⟨e', he', hsame⟩ := hs.died _ t ht hd
    have heq : e' = e := hs.exit_unique he' he (hsame.1.trans (find_pid ht))
    subst heq
    exact ⟨_, t, ht, (hsame.matches tgt).trans hmatch, hd, hw⟩

theorem hasChildOf_of_matches (ht : s.find c = some t) (h : (Target.children g).matches p t = true) :
    s.hasChildOf p g = true :=
  List.any_eq_true.mpr ⟨t, mem_of_find ht, h⟩

/-- A dead child on the dead queue is what a search finds first. -/
theorem findDeadChild_of_queued (ht : s.find c = some t) (hc : c ∈ s.deadQueue)
    (h : childOf me.pid g t = true) : ∃ d u, s.findDeadChild me g = some d ∧ d ∈ s.deadQueue ∧
      s.find d = some u ∧ childOf me.pid g u = true := by
  have hsome : (s.deadQueue.find? fun x => (s.find x).any (childOf me.pid g)).isSome := by
    rw [List.find?_isSome]
    refine ⟨c, hc, ?_⟩
    rw [ht]
    exact h
  obtain ⟨d, hd⟩ := Option.isSome_iff_exists.mp hsome
  have hp := List.find?_some hd
  cases hu : s.find d with
  | none =>
    rw [hu] at hp
    cases hp
  | some u =>
    rw [hu] at hp
    refine ⟨d, u, ?_, List.mem_of_find?_eq_some hd, hu, hp⟩
    unfold Sched.findDeadChild
    rw [hd]

/-- A child that is not with a reaper is on the dead queue. -/
theorem Inv.on_queue (hs : Inv s) (hq : s.quietGo me signal (.find g true)) (ht : s.find c = some t)
    (h : childOf me.pid g t = true) (hd : t.state = .dead) (hw : t.waited = false) : c ∈ s.deadQueue := by
  cases hs.queued c t ht hd with
  | inl h => exact h
  | inr hr =>
    obtain ⟨r, hr⟩ := hr
    have := hq.2 rfl r c t hr ht h
    rw [hw] at this
    cases this

/-- The answer of a section, where a search ends although there is a child. -/
theorem Inv.answer (hs : Inv s) (hme : s.find p = some me) (hq : s.quietGo me signal (s.pcs p))
    (hawake : ¬(me.inWaitQueue = true ∧ (s.pcs p).asleep = false)) {ans : Answer} {tgt : Target}
    (hgo : (s.go me signal released).2 = some (p, ans)) (hasks : (s.pcs p).asks = some (tgt, n))
    (hu : s.Unreturned p tgt) : ans = .interrupted ∧ n = false := by
  have hp : me.pid = p := find_pid hme
  subst hp
  obtain ⟨x, t, hx, hmatch, hd, hw⟩ := hs.unreturned hasks hu
  have hplace := hs.places me.pid
  have hstep := wait_step s me signal released (s.pcs me.pid)
  generalize hout : s.wait me signal released (s.pcs me.pid) = out at hstep
  unfold Sched.go at hgo
  rw [hout] at hgo
  generalize hpc : s.pcs me.pid = pc at *
  have hchild : ∀ {c}, tgt = .pid c → s.find c = some t ∧ t.ppid = me.pid := by
    rintro c rfl
    have hm := of_decide_eq_true hmatch
    have hxc : x = c := (find_pid hx).symm.trans hm.2
    exact ⟨hxc ▸ hx, hm.1⟩
  cases hstep with
  | idle => cases hasks
  | noHangGone hc =>
    cases hasks
    exact absurd (hchild rfl).2 (hc t (hchild rfl).1)
  | noHangAlive hc ha =>
    cases hasks
    rw [(hchild rfl).1] at hc
    cases hc
    exact absurd hd ha
  | noHangOn => cases hgo
  | pidGone hc =>
    cases hasks
    exact absurd (hchild rfl).2 (hc t (hchild rfl).1)
  | pidStop hc hp => cases hgo
  | pidDead hc hp hd => cases hgo
  | pidSignal hc hp ha hst =>
    cases hasks
    rw [(hchild rfl).1] at hc
    cases hc
    exact absurd hd ha
  | pidSleep hc hp ha hst => cases hgo
  | pidWake => cases hgo
  | lateStop hc hp => cases hgo
  | lateDead hc hp hd => cases hgo
  | lateNone =>
    cases hasks
    cases hgo
    exact ⟨rfl, rfl⟩
  | hasOne h => cases hgo
  | hasNone h =>
    cases hasks
    rw [hasChildOf_of_matches hx hmatch] at h
    cases h
  | found h => cases hgo
  | foundNothing h =>
    cases hasks
    obtain ⟨d, u, hfound, _⟩ := findDeadChild_of_queued hx (hs.on_queue hq hx hmatch hd hw) hmatch
    rw [h] at hfound
    cases hfound
  | foundNone h => cases hgo
  | joinGone hd =>
    obtain ⟨u, hu, _⟩ := hplace
    rw [hd] at hu
    cases hu
  | joinStop hd => cases hgo
  | joinDead hd hdead => cases hgo
  | joinAsleep h => exact absurd ⟨h, rfl⟩ hawake
  | joinSleep hd ha hst => cases hgo
  | joinedGone hd =>
    obtain ⟨u, hu, _⟩ := hplace
    rw [hd] at hu
    cases hu
  | joinedStop hd => cases hgo
  | joinedDead hd hdead => cases hgo
  | @joinedOut _ u _ _ hj ha hst h =>
    cases hq with
    | inl h' =>
      rw [h'.1, h'.2] at h
      simp at h
    | inr h' =>
      cases h' u hj with
      | inl h'' => exact absurd h'' ha
      | inr h'' =>
        rw [hst] at h''
        cases h''
  | joinedAgain hd ha hst => cases hgo
  | mark hc => cases hasks
  | markStop hc => cases hasks
  | prepareFound => cases hgo
  | prepareSleep => cases hgo
  | prepareNone h =>
    cases hasks
    rw [hasChildOf_of_matches hx hmatch] at h
    cases h
  | anyWake => cases hgo
  | recheckFound => cases hgo
  | recheckNone =>
    cases hasks
    cases hgo
    exact ⟨rfl, rfl⟩
  | reap => cases hasks

/-- Only a section of `wait_child` answers, and the one who made the call. -/
theorem step_answer {a : Action} {ans : Answer} (h : (s.step a).2 = some (p, ans)) :
    ∃ signal released me, a = .go p signal released ∧ s.find p = some me ∧
      ¬(me.inWaitQueue = true ∧ (s.pcs p).asleep = false) ∧
      (s.go me signal released).2 = some (p, ans) := by
  cases a with
  | go q signal released =>
    unfold Sched.step at h
    dsimp only at h
    cases hme : s.find q with
    | none =>
      rw [hme] at h
      cases h
    | some me =>
      rw [hme] at h
      dsimp only at h
      split at h
      · cases h
      · next hcond =>
        have hq : q = p := by
          have := find_pid hme
          unfold Sched.go at h
          split at h
          · cases h
          · cases h
            exact this.symm
        subst hq
        exact ⟨signal, released, me, rfl, hme, (not_or.mp hcond).2, h⟩
  | call q pid n untraced continued =>
    unfold Sched.step at h
    dsimp only at h
    split at h
    · cases h
    · split at h
      · cases h
      · cases h
  | work m released => cases h
  | exit q code =>
    unfold Sched.step at h
    dsimp only at h
    split at h
    · cases h
    · split at h
      · cases h
      · cases h
  | kill q code =>
    unfold Sched.step at h
    dsimp only at h
    split at h
    · cases h
    · split at h
      · cases h
      · split at h
        · cases h
        · cases h
  | hold q refs w c => cases h
  | job q event signal state => cases h
  | spawn q t =>
    unfold Sched.step at h
    dsimp only at h
    split at h
    · cases h
    · cases h

theorem Inv.right {a : Action} (hs : Inv s) (hq : s.Quiet a) : s.Right a := by
  intro p ans hans tgt n hasks hu
  obtain ⟨signal, released, me, rfl, hme, hawake, hgo⟩ := step_answer hans
  exact hs.answer hme (hq me hme) hawake hgo hasks hu

end Answers

end Lebirun.Tasks
