import Lebirun.Lib.Run
import Lebirun.Tasks.WaitRuns

namespace Lebirun.Tasks
open Machine
set_option autoImplicit true

section Ranks

/-- The places of a call that must not block, none of which sleeps. -/
def Pc.nohang : Pc → Bool
  | .noHang _ => true
  | .pid _ n | .hasChild _ n | .find _ n | .join _ _ n | .mark _ _ n | .reaping _ _ n => n
  | _ => false

/-- The sections that a run of `reap_dead_tasks` still has to pass. -/
def Reap.rank : Reap → Nat ×ₗ Nat
  | .start => toLex (1, 0)
  | .loop todo _ => toLex (0, 2 * todo.length)
  | .unlink _ todo _ => toLex (0, 2 * todo.length + 1)

/-- How far a call that does not block is from its answer. -/
def Pc.rank (k : Reap) : Pc → Nat ×ₗ Nat
  | .noHang _ | .hasChild _ _ => toLex (5, 0)
  | .pid _ _ | .find _ _ => toLex (4, 0)
  | .join _ _ _ => toLex (3, 0)
  | .mark _ _ _ => toLex (2, 0)
  | .reaping _ _ _ => k.rank
  | _ => toLex (6, 0)

/-- A search that must not block picks a dead child that was not returned. -/
def Sched.Finds (s : Sched) (a : Action) : Prop :=
  ∀ p signal released me g, a = .go p signal released → s.find p = some me → me.inWaitQueue = false →
    s.pcs p = .find g true → s.Unreturned p (.children g) →
      ∃ d t, (s.next a).pcs p = .join d g true ∧ s.find d = some t ∧ childOf p g t = true ∧
        t.state = .dead ∧ t.waited = false

/-- Every section of a call that must not block answers or comes closer to its answer, and nobody else
takes it further away. -/
def Sched.Progress (s : Sched) (a : Action) : Prop :=
  ∀ p, (s.pcs p).nohang = true →
    (∀ signal released me, a = .go p signal released → s.find p = some me → me.inWaitQueue = false →
      (∃ ans, (s.step a).2 = some (p, ans)) ∨ ((s.next a).pcs p).nohang = true ∧
        ((s.next a).pcs p).rank ((s.next a).reapers (.task p)) < (s.pcs p).rank (s.reapers (.task p))) ∧
    ((∀ signal released, a ≠ .go p signal released) →
      (s.next a).pcs p = s.pcs p ∧ (s.next a).reapers (.task p) = s.reapers (.task p))

end Ranks

section Live

variable {s s' : Sched} {me t : Task} {p c d g : Nat} {n : Bool}

theorem setReap_self (s : Sched) (r : Reaper) (k : Reap) : (s.setReap r k).reapers r = k := if_pos rfl

theorem rank_start_pos (k : Nat) : toLex (0, k) < Reap.start.rank := by
  apply Prod.Lex.toLex_lt_toLex.mpr
  exact .inl Nat.one_pos

theorem rank_lt_stage {k : Reap} {i j : Nat} (h : 1 < i) : k.rank < toLex (i, j) := by
  have hk : k.rank ≤ Reap.start.rank := by
    cases k with
    | start => exact le_refl _
    | loop todo keep => exact (rank_start_pos _).le
    | unlink x todo keep => exact (rank_start_pos _).le
  apply lt_of_le_of_lt hk
  apply Prod.Lex.toLex_lt_toLex.mpr
  exact .inl h

theorem stage_lt {i j k l : Nat} (h : i < j) : (toLex (i, k) : Nat ×ₗ Nat) < toLex (j, l) :=
  Prod.Lex.toLex_lt_toLex.mpr (.inl h)

/-- A reaper passes the tasks it detached one by one. -/
theorem reapBy_rank (s : Sched) (r : Reaper) (released : Bool) :
    (s.reapBy r released).2 = true ∨
      ((s.reapBy r released).1.reapers r).rank < (s.reapers r).rank := by
  have hpass : ∀ {x todo keep} {k : List Nat} {u : Sched}, s.reapers r = .loop (x :: todo) keep ∨
      s.reapers r = .unlink x todo keep →
      ((u.setReap r (.loop todo k)).reapers r).rank < (s.reapers r).rank := by
    intro x todo keep k u hr
    rw [setReap_self]
    cases hr with
    | inl hr =>
      rw [hr]
      apply Prod.Lex.toLex_lt_toLex.mpr
      exact .inr ⟨rfl, by simp only [List.length_cons]; omega⟩
    | inr hr =>
      rw [hr]
      apply Prod.Lex.toLex_lt_toLex.mpr
      exact .inr ⟨rfl, Nat.lt_succ_self _⟩
  have hstep := reapBy_step s r released
  generalize s.reapBy r released = out at hstep
  cases hstep with
  | empty hr => exact .inl rfl
  | detach hr =>
    refine .inr ?_
    rw [setReap_self, hr]
    exact rank_start_pos _
  | restore hr => exact .inl rfl
  | drop hr hx => exact .inr (hpass hr)
  | keep hr hx => exact .inr (hpass hr)
  | release hr hx hk =>
    refine .inr ?_
    rw [setReap_self, hr]
    apply Prod.Lex.toLex_lt_toLex.mpr
    exact .inr ⟨rfl, by simp only [List.length_cons]; omega⟩
  | remove hr => exact .inr (hpass (.inr hr))

theorem setPc_pc (s : Sched) (p : Nat) (pc : Pc) : (s.setPc p pc).pcs p = pc := if_pos rfl

theorem log_frame (s : Sched) (a : Answer) :
    (s.log a).pcs = s.pcs ∧ (s.log a).reapers = s.reapers := by
  cases a with
  | returned c code =>
    unfold Sched.log
    dsimp only
    split
    · exact ⟨rfl, rfl⟩
    · exact ⟨rfl, rfl⟩
  | nothing => exact ⟨rfl, rfl⟩
  | noChild => exact ⟨rfl, rfl⟩
  | interrupted => exact ⟨rfl, rfl⟩

/-- A section moves no other caller and no other reaper. -/
theorem wait_frame (s : Sched) (me : Task) (signal released : Bool) (pc : Pc) :
    (s.wait me signal released pc).1.pcs = s.pcs ∧
      ∀ r, r ≠ .task me.pid → (s.wait me signal released pc).1.reapers r = s.reapers r := by
  have hstep := wait_step s me signal released pc
  generalize s.wait me signal released pc = out at hstep
  cases hstep with
  | reap =>
    obtain ⟨h₁, _, _, h₂⟩ := reapBy_frame s (.task me.pid) released
    exact ⟨h₁, h₂⟩
  | _ => exact ⟨rfl, fun _ _ => rfl⟩

theorem go_frame (s : Sched) (me : Task) (signal released : Bool) (hp : p ≠ me.pid) :
    (s.go me signal released).1.pcs p = s.pcs p ∧
      (s.go me signal released).1.reapers (.task p) = s.reapers (.task p) := by
  have hframe := wait_frame s me signal released (s.pcs me.pid)
  generalize hout : s.wait me signal released (s.pcs me.pid) = out at hframe
  have hother : (.task p : Reaper) ≠ .task me.pid := by
    intro h
    cases h
    exact hp rfl
  obtain ⟨u, nxt⟩ := out
  cases nxt with
  | «at» pc =>
    rw [go_at hout]
    exact ⟨(if_neg hp).trans (congrFun hframe.1 p), hframe.2 _ hother⟩
  | done a =>
    rw [go_done hout]
    obtain ⟨h₁, h₂⟩ := log_frame (u.setPc me.pid .idle) a
    constructor
    · rw [h₁]
      exact (if_neg hp).trans (congrFun hframe.1 p)
    · rw [h₂]
      exact hframe.2 _ hother

/-- A section of a call that must not block. -/
theorem go_rank (hme : s.find p = some me) (hq : s.quietGo me signal (s.pcs p))
    (hn : (s.pcs p).nohang = true) (released : Bool) :
    (∃ ans, (s.go me signal released).2 = some (p, ans)) ∨
      ((s.go me signal released).1.pcs p).nohang = true ∧
        ((s.go me signal released).1.pcs p).rank ((s.go me signal released).1.reapers (.task p)) <
          (s.pcs p).rank (s.reapers (.task p)) := by
  have hp : me.pid = p := find_pid hme
  subst hp
  have hstep := wait_step s me signal released (s.pcs me.pid)
  generalize hout : s.wait me signal released (s.pcs me.pid) = out at hstep
  unfold Sched.go
  rw [hout]
  generalize s.pcs me.pid = pc at *
  -- the next place, when its stage is a later one
  have hon : ∀ (u : Sched) (next : Pc), next.nohang = true →
      next.rank (u.reapers (.task me.pid)) < pc.rank (s.reapers (.task me.pid)) →
      ((u.setPc me.pid next).pcs me.pid).nohang = true ∧
        ((u.setPc me.pid next).pcs me.pid).rank ((u.setPc me.pid next).reapers (.task me.pid)) <
          pc.rank (s.reapers (.task me.pid)) := by
    intro u next h₁ h₂
    rw [setPc_pc]
    exact ⟨h₁, h₂⟩
  cases hstep with
  | idle => cases hn
  | noHangOn => exact .inr (hon _ _ rfl (stage_lt (by decide)))
  | pidStop hc hp => exact .inr (hon _ _ hn (rank_lt_stage (by decide)))
  | pidDead hc hp hd => exact .inr (hon _ _ hn (rank_lt_stage (by decide)))
  | pidSleep hc hp ha hst =>
    cases (hq _ hc hp).2 hn with
    | inl hd => exact absurd hd ha
    | inr h =>
      rw [hst] at h
      cases h
  | pidWake => cases hn
  | lateStop hc hp => cases hn
  | lateDead hc hp hd => cases hn
  | hasOne h => exact .inr (hon _ _ hn (stage_lt (by decide)))
  | found h => exact .inr (hon _ _ hn (stage_lt (by decide)))
  | foundNone h => cases hn
  | joinStop hd => exact .inr (hon _ _ hn (stage_lt (by decide)))
  | joinDead hd hdead => exact .inr (hon _ _ hn (stage_lt (by decide)))
  | joinSleep hd ha hst =>
    cases hq hn _ hd with
    | inl h => exact absurd h ha
    | inr h =>
      rw [hst] at h
      cases h
  | joinedStop hd => cases hn
  | joinedDead hd hdead => cases hn
  | joinedAgain hd ha hst => cases hn
  | mark hc => exact .inr (hon _ _ hn (rank_lt_stage (by decide)))
  | markStop hc => exact .inr (hon _ _ hn (rank_lt_stage (by decide)))
  | prepareFound => cases hn
  | prepareSleep => cases hn
  | anyWake => cases hn
  | recheckFound => cases hn
  | @reap d code n =>
    cases hfin : (s.reapBy (.task me.pid) released).2 with
    | true => exact .inl ⟨_, rfl⟩
    | false =>
      have hlt := (reapBy_rank s (.task me.pid) released).resolve_left (by rw [hfin]; decide)
      exact .inr (hon _ _ hn hlt)
  | _ => exact .inl ⟨_, rfl⟩

theorem step_go (hme : s.find p = some me) (hidle : s.pcs p ≠ .idle)
    (hawake : me.inWaitQueue = false) (signal released : Bool) :
    s.step (.go p signal released) = s.go me signal released := by
  unfold Sched.step
  dsimp only
  rw [hme]
  dsimp only
  rw [hawake, if_neg]
  simp [hidle]

/-- A step that is no section of the caller's leaves the caller where it is. -/
theorem step_frame {a : Action} (hidle : s.pcs p ≠ .idle)
    (ha : ∀ signal released, a ≠ .go p signal released) :
    (s.next a).pcs p = s.pcs p ∧ (s.next a).reapers (.task p) = s.reapers (.task p) := by
  unfold Sched.next
  cases a with
  | call q pid n untraced continued =>
    unfold Sched.step
    dsimp only
    split
    · exact ⟨rfl, rfl⟩
    · split
      · next h =>
        have hne : p ≠ q := by
          rintro rfl
          exact hidle h.1
        exact ⟨if_neg hne, rfl⟩
      · exact ⟨rfl, rfl⟩
  | go q signal released =>
    have hne : p ≠ q := by
      rintro rfl
      exact ha signal released rfl
    unfold Sched.step
    dsimp only
    cases hme : s.find q with
    | none => exact ⟨rfl, rfl⟩
    | some me =>
      dsimp only
      split
      · exact ⟨rfl, rfl⟩
      · apply go_frame
        rw [find_pid hme]
        exact hne
  | work m released =>
    obtain ⟨h₁, _, _, h₂⟩ := reapBy_frame s (.worker m) released
    exact ⟨congrFun h₁ p, h₂ _ (by rintro ⟨⟩)⟩
  | exit q code =>
    unfold Sched.step
    dsimp only
    split
    · exact ⟨rfl, rfl⟩
    · split
      · exact ⟨rfl, rfl⟩
      · exact ⟨rfl, rfl⟩
  | kill q code =>
    unfold Sched.step
    dsimp only
    split
    · exact ⟨rfl, rfl⟩
    · split
      · exact ⟨rfl, rfl⟩
      · split
        · exact ⟨rfl, rfl⟩
        · exact ⟨rfl, rfl⟩
  | hold q refs w c => exact ⟨rfl, rfl⟩
  | job q event signal state => exact ⟨rfl, rfl⟩
  | spawn q t =>
    unfold Sched.step
    dsimp only
    split
    · exact ⟨rfl, rfl⟩
    · exact ⟨rfl, rfl⟩

theorem Sched.Quiet.progress {a : Action} (hq : s.Quiet a) : s.Progress a := by
  intro p hn
  have hidle : s.pcs p ≠ .idle := by
    intro h
    rw [h] at hn
    cases hn
  constructor
  · rintro signal released me rfl hme hawake
    unfold Sched.next
    rw [step_go hme hidle hawake]
    exact go_rank hme (hq me hme) hn released
  · exact step_frame hidle

theorem Inv.finds {a : Action} (hs : Inv s) (hq : s.Quiet a) : s.Finds a := by
  rintro p signal released me g rfl hme hawake hpc hu
  have hquiet : s.quietGo me signal (.find g true) := hpc ▸ hq me hme
  have hp : me.pid = p := find_pid hme
  subst hp
  obtain ⟨x, t, hx, hmatch, hd, hw⟩ := hs.unreturned (n := true) (by rw [hpc]; rfl) hu
  have hqueue := hs.on_queue hquiet hx hmatch hd hw
  obtain ⟨d, u, hfound, hdq, hu, hchild⟩ := findDeadChild_of_queued hx hqueue hmatch
  have hdead := hs.entries d (.inl hdq) u hu
  refine ⟨d, u, ?_, hu, hchild, hdead, hquiet.1 d u hfound hu hdead⟩
  have hidle : s.pcs me.pid ≠ .idle := by
    rw [hpc]
    rintro ⟨⟩
  have hwait : s.wait me signal released (s.pcs me.pid) = (s, .at (.join d g true)) := by
    rw [hpc]
    unfold Sched.wait
    dsimp only
    rw [hfound]
  unfold Sched.next
  rw [step_go hme hidle hawake, go_at hwait]
  exact setPc_pc _ _ _

end Live

section Result

/-- Over a run whose steps all meet the condition a child is returned as terminated at most once and
with the code it ended with, no search misses a dead child that was not returned, and a call that
must not block comes to its answer. -/
theorem exit_reported_once {s : Sched} (h : Sched.Start s) (hq : Along Sched.next Sched.Quiet s l) :
    ((l.foldl Sched.next s).reports.map Prod.fst).Nodup ∧
      (∀ c code, (c, code) ∈ (l.foldl Sched.next s).reports →
        ∃ e ∈ (l.foldl Sched.next s).exits, e.pid = c ∧ e.exitCode = code) ∧
      Along Sched.next (fun s a => s.Right a ∧ s.Finds a ∧ s.Progress a) s l := by
  have hinv : Inv (l.foldl Sched.next s) := hq.invariant (fun _ _ hs ha => hs.step ha) h.inv
  refine ⟨hinv.reportsNodup, fun c code hc => (hinv.reports c code hc).1, ?_⟩
  exact hq.ensures (fun _ _ hs ha => ⟨hs.step ha, hs.right ha, hs.finds ha, ha.progress⟩) h.inv

def freshTask (pid ppid : Nat) : Task where
  pid := pid
  ppid := ppid
  pgid := 1
  state := .ready
  exitCode := 0
  waited := false
  jobEvent := 0
  jobStopSignal := 0
  untraced := false
  continued := false
  refs := 0
  joinRefs := 0
  inWaitQueue := false
  onCpu := false

/-- A parent and its child. -/
def parentAndChild : Sched where
  all := [freshTask 2 1, freshTask 1 0]
  deadQueue := []
  pcs _ := .idle
  reapers _ := .start
  nextId := 3
  exits := []
  reports := []

theorem parentAndChild_start : Sched.Start parentAndChild where
  nodup := by decide
  tasks := by decide
  deadQueue := rfl
  pcs _ := rfl
  reapers _ := rfl
  exits := rfl
  reports := rfl

/-- The child exits, and the parent waits for it by its number. -/
def waitOnce : List Action :=
  [.exit 2 7, .call 1 2 true false false] ++ List.replicate 6 (.go 1 false true)

theorem exit_reported_once_example : (parentAndChild.Start ∧
    Along Sched.next Sched.Quiet parentAndChild waitOnce ∧
      (waitOnce.foldl Sched.next parentAndChild).reports = [(2, 7)]) ∧
    ((waitOnce.foldl Sched.next parentAndChild).reports.map Prod.fst).Nodup := by
  have hquiet : Along Sched.next Sched.Quiet parentAndChild waitOnce := by
    refine ⟨?_, trivial, ?_, ?_, ?_, ?_, ?_, ?_, trivial⟩
    · rintro t ⟨⟩
      decide
    · rintro me ⟨⟩
      trivial
    · rintro me ⟨⟩ t ⟨⟩ _
      decide
    all_goals
      rintro me ⟨⟩
      trivial
  exact ⟨⟨parentAndChild_start, hquiet, by decide⟩, (exit_reported_once parentAndChild_start hquiet).1⟩

/-- The child exits while somebody holds a reference, and the parent waits twice for any child. -/
def waitTwice : List Action :=
  [.exit 2 7, .hold 2 1 false false] ++
    (Action.call 1 (-1) true false false :: List.replicate 8 (.go 1 false true)) ++
    (Action.call 1 (-1) true false false :: List.replicate 8 (.go 1 false true))

/-- A child whose release is postponed is returned twice. -/
theorem exit_reported_twice : parentAndChild.Start ∧
    (waitTwice.foldl Sched.next parentAndChild).reports = [(2, 7), (2, 7)] ∧
      ¬((waitTwice.foldl Sched.next parentAndChild).reports.map Prod.fst).Nodup := by
  refine ⟨parentAndChild_start, ?_⟩
  decide

end Result

end Lebirun.Tasks
