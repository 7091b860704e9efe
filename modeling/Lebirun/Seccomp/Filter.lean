import Mathlib
import Lebirun.Lib.Run
import Lebirun.Seccomp.Bpf

namespace Lebirun.Seccomp
set_option autoImplicit true

open Machine

abbrev TaskId := Nat
abbrev kernelVma : Nat := 0xFFFFFFFF80000000

/-- The part of a task's extension record the filter code reads. The length the source keeps
beside the pointer is the length of the list. -/
structure TaskExt where
  seccompFilter : Option (List BpfInsn)

/-- The extension record of each task, `none` until something asks for it to be created. -/
abbrev Tasks := TaskId → Option TaskExt

def Tasks.init : Tasks := fun _ => none

def Tasks.filter (st : Tasks) (t : TaskId) : Option (List BpfInsn) :=
  (st t).bind TaskExt.seccompFilter

structure Call where
  nr : BitVec 32
  ip : BitVec 64
  args : Fin 6 → BitVec 64

def Call.input (c : Call) : BpfInput := ⟨c.nr, auditArchX86_64, c.ip, c.args⟩

/-- What `seccomp_install` is given by its caller and by the allocator: the user pointer, what
copying the two user structures yields and whether the allocations succeed. -/
structure UserProg where
  uprog : Nat
  fprog : Option (BitVec 16 × BitVec 64)
  insns : Option (Nat → BpfInsn)
  kmalloc : Bool
  extAlloc : Bool

/-- The checks of `seccomp_install` up to and including `bpf_check_program`. -/
def UserProg.load (u : UserProg) : Except Int (List BpfInsn) := do
  if u.uprog < 0x1000 ∨ u.uprog ≥ kernelVma then throw (-14)
  match u.fprog with
  | none => throw (-14)
  | some (len, filter) =>
    if len.toNat = 0 ∨ len.toNat > seccompBpfMaxLen then throw (-22)
    if filter = 0 then throw (-14)
    if !u.kmalloc then throw (-12)
    match u.insns with
    | none => throw (-14)
    | some f =>
      let insns := (List.range len.toNat).map f
      if bpfCheckProgram insns ≠ 0 then throw (-22)
      return insns

/-- `task_ext_get`; `alloc` is whether a record it has to create can be allocated. -/
def taskExtGet (st : Tasks) (t : TaskId) (create alloc : Bool) : Option TaskExt × Tasks :=
  match st t with
  | some e => (some e, st)
  | none =>
    if !create then (none, st)
    else if !alloc then (none, st)
    else (some ⟨none⟩, Function.update st t (some ⟨none⟩))

def seccompInstall (st : Tasks) (task : Option TaskId) (u : UserProg) : Int × Tasks :=
  match task with
  | none => (-22, st)
  | some t =>
    if u.uprog = 0 then (-22, st)
    else
      match u.load with
      | .error e => (e, st)
      | .ok insns =>
        match taskExtGet st t true u.extAlloc with
        | (none, st') => (-12, st')
        | (some e, st') => (0, Function.update st' t (some { e with seccompFilter := some insns }))

/-- The result of `seccomp_check` and the signal it delivers, if any. -/
structure Verdict where
  ret : Int
  signal : Option Nat
  deriving DecidableEq, Repr

def seccompVerdict (ret : BitVec 32) : Verdict :=
  if ret &&& 0x7fff0000 = seccompRetAllow then ⟨0, none⟩
  else if ret &&& 0x7fff0000 = seccompRetErrno then
    let err := (ret &&& seccompRetMask).toNat
    if err ≤ 0 ∨ err > 4095 then ⟨-1, none⟩ else ⟨-err, none⟩
  else ⟨-38, some 31⟩

def seccompCheck (st : Tasks) (task : Option TaskId) (c : Call) : Verdict :=
  match task with
  | none => ⟨0, none⟩
  | some t =>
    match (taskExtGet st t false true).1 with
    | none => ⟨0, none⟩
    | some e =>
      match e.seccompFilter with
      | none => ⟨0, none⟩
      | some prog =>
        if prog.length = 0 then ⟨0, none⟩
        else seccompVerdict (bpfRun prog c.input).exit.value

/-- `seccomp_fork`, with the outcomes of its two allocations. -/
def seccompFork (st : Tasks) (parent child : Option TaskId) (extAlloc kmalloc : Bool) :
    Int × Tasks :=
  match parent, child with
  | some p, some c =>
    match (taskExtGet st p false true).1 with
    | none => (0, st)
    | some pe =>
      match pe.seccompFilter with
      | none => (0, st)
      | some prog =>
        if prog.length = 0 then (0, st)
        else
          match taskExtGet st c true extAlloc with
          | (none, st') => (-12, st')
          | (some ce, st') =>
            if !kmalloc then (-12, st')
            else (0, Function.update st' c (some { ce with seccompFilter := some prog }))
  | _, _ => (-22, st)

inductive Event where
  | install (task : Option TaskId) (u : UserProg)
  | fork (parent child : Option TaskId) (extAlloc kmalloc : Bool)

def Event.exec (st : Tasks) : Event → Tasks
  | .install t u => (seccompInstall st t u).2
  | .fork p c x k => (seccompFork st p c x k).2

def run (st : Tasks) (evs : List Event) : Tasks := evs.foldl Event.exec st

/-- `task_fork` calls `seccomp_fork` on a task it has just made, which has no filter. -/
def Event.Legal (st : Tasks) : Event → Prop
  | .install _ _ => True
  | .fork _ c _ _ => ∀ t, c = some t → st.filter t = none

def Legal (evs : List Event) : Prop := Along Event.exec Event.Legal .init evs

/-- `ts` with the children the event forks from it. -/
def Event.grow (st : Tasks) (ts : List TaskId) : Event → List TaskId
  | .install _ _ => ts
  | .fork (some p) (some c) x k =>
    if p ∈ ts ∧ (seccompFork st (some p) (some c) x k).1 = 0 then c :: ts else ts
  | .fork _ _ _ _ => ts

/-- The tasks of `ts` and all that are forked from them during the events. -/
def forked (st : Tasks) (ts : List TaskId) : List Event → List TaskId
  | [] => ts
  | ev :: evs => forked (ev.exec st) (ev.grow st ts) evs

def Denies (st : Tasks) (t : TaskId) (c : Call) : Prop := (seccompCheck st (some t) c).ret ≠ 0

instance : Decidable (Denies st t c) := inferInstanceAs (Decidable (_ ≠ _))

/-- A denial holds on for the task and for everything forked from it. -/
def Confined (evs : List Event) : Prop :=
  ∀ pre mid post, evs = pre ++ mid ++ post → ∀ t c, Denies (run .init pre) t c →
    ∀ u ∈ forked (run .init pre) [t] mid, Denies (run .init (pre ++ mid)) u c

def Allows (prog : List BpfInsn) (c : Call) : Prop :=
  (bpfRun prog c.input).exit.value &&& 0x7fff0000 = seccompRetAllow

/-- An installation over an existing filter brings a program that allows no call the replaced
one denies. -/
def Event.Tightens (st : Tasks) : Event → Prop
  | .install (some t) u =>
    ∀ old new, st.filter t = some old → u.uprog ≠ 0 → u.load = .ok new →
      ∀ c, Allows new c → Allows old c
  | _ => True

def Tightening (evs : List Event) : Prop := Along Event.exec Event.Tightens .init evs

theorem verdict_zero (ret : BitVec 32) :
    (seccompVerdict ret).ret = 0 ↔ ret &&& 0x7fff0000 = seccompRetAllow := by
  unfold seccompVerdict
  split
  · rename_i h
    exact ⟨fun _ => h, fun _ => rfl⟩
  · rename_i h
    refine ⟨fun hz => ?_, fun ha => absurd ha h⟩
    split at hz
    · dsimp only at hz
      split at hz
      · cases hz
      · dsimp only at hz
        omega
    · cases hz

theorem denies_iff :
    Denies st t c ↔ ∃ prog, st.filter t = some prog ∧ prog ≠ [] ∧ ¬Allows prog c := by
  unfold Denies seccompCheck taskExtGet Tasks.filter
  cases ht : st t with
  | none => simp [ht]
  | some e =>
    cases he : e.seccompFilter with
    | none => simp [ht, he]
    | some prog =>
      cases prog with
      | nil => simp [ht, he]
      | cons i l => simp [ht, he, verdict_zero, Allows]

theorem filter_update (st : Tasks) (t u : TaskId) (e : TaskExt) :
    Tasks.filter (Function.update st t (some e)) u =
      if u = t then e.seccompFilter else st.filter u := by
  by_cases h : u = t
  · subst u
    simp [Tasks.filter]
  · simp [Tasks.filter, h]

theorem filter_taskExtGet (st : Tasks) (t u : TaskId) (create alloc : Bool) :
    (taskExtGet st t create alloc).2.filter u = st.filter u := by
  unfold taskExtGet
  split
  · rfl
  · rename_i ht
    split
    · rfl
    · split
      · rfl
      · rw [filter_update]
        split
        · subst u
          simp [Tasks.filter, ht]
        · rfl

theorem UserProg.load_ne_nil (h : UserProg.load u = .ok prog) : prog ≠ [] := by
  have hc : bpfCheckProgram prog = 0 := by
    simp only [UserProg.load, bind, Except.bind, pure, Except.pure, throw, throwThe,
      MonadExceptOf.throw] at h
    repeat' split at h
    all_goals simp_all
  rintro rfl
  revert hc
  decide

/-- A call of `seccomp_install` changes no filter, or replaces the one of its task. -/
theorem seccompInstall_filter (st : Tasks) (task : Option TaskId) (u : UserProg) :
    (∀ v, (seccompInstall st task u).2.filter v = st.filter v) ∨
      ∃ t new, task = some t ∧ u.uprog ≠ 0 ∧ u.load = .ok new ∧
        ∀ v, (seccompInstall st task u).2.filter v = if v = t then some new else st.filter v := by
  cases task with
  | none => exact .inl fun _ => rfl
  | some t =>
    by_cases hu : u.uprog = 0
    · exact .inl fun v => by simp only [seccompInstall, hu, ↓reduceIte]
    · cases hl : u.load with
      | error e => exact .inl fun v => by simp only [seccompInstall, hu, hl, ↓reduceIte]
      | ok new =>
        rcases hg : taskExtGet st t true u.extAlloc with ⟨e, st'⟩
        have hf : ∀ v, st'.filter v = st.filter v := fun v => by
          rw [← filter_taskExtGet st t v true u.extAlloc, hg]
        cases e with
        | none => exact .inl fun v => by simp only [seccompInstall, hu, hl, hg, ↓reduceIte, hf]
        | some e =>
          refine .inr ⟨t, new, rfl, hu, rfl, fun v => ?_⟩
          simp only [seccompInstall, hu, hl, hg, ↓reduceIte, filter_update, hf]

/-- A call of `seccomp_install` that gets through its checks on a task that has a record
installs the program it loaded. -/
theorem seccompInstall_replaces (ht : Tasks.filter st t = some old) (hu : u.uprog ≠ 0)
    (hl : u.load = .ok new) : (seccompInstall st (some t) u).2.filter t = some new := by
  cases he : st t with
  | none => simp [Tasks.filter, he] at ht
  | some e =>
    have hg : taskExtGet st t true u.extAlloc = (some e, st) := by
      simp only [taskExtGet, he]
    simp only [seccompInstall, hu, hl, hg, ↓reduceIte, filter_update]

/-- A call of `seccomp_fork` on a parent with a filter copies it to the child or fails. -/
theorem seccompFork_filter (hp : Tasks.filter st p = some prog) (hn : prog ≠ []) (c : TaskId)
    (x k : Bool) :
    ((seccompFork st (some p) (some c) x k).1 ≠ 0 ∧
        ∀ v, (seccompFork st (some p) (some c) x k).2.filter v = st.filter v) ∨
      ∀ v, (seccompFork st (some p) (some c) x k).2.filter v =
        if v = c then some prog else st.filter v := by
  cases he : st p with
  | none => simp [Tasks.filter, he] at hp
  | some pe =>
    have hq : pe.seccompFilter = some prog := by simpa [Tasks.filter, he] using hp
    have hl : prog.length ≠ 0 := fun h => hn (List.eq_nil_of_length_eq_zero h)
    rcases hg : taskExtGet st c true x with ⟨e, st'⟩
    have hf : ∀ v, st'.filter v = st.filter v := fun v => by
      rw [← filter_taskExtGet st c v true x, hg]
    have hr : taskExtGet st p false true = (some pe, st) := by simp only [taskExtGet, he]
    cases e with
    | none =>
      refine .inl ?_
      simp [seccompFork, hr, hq, hl, hg, hf]
    | some ce =>
      cases k with
      | false =>
        refine .inl ?_
        simp [seccompFork, hr, hq, hl, hg, hf]
      | true =>
        refine .inr fun v => ?_
        simp [seccompFork, hr, hq, hl, hg, hf, filter_update]

/-- A fork from a task without a filter leaves every filter as it is. -/
theorem seccompFork_none (hp : ∀ p prog, parent = some p → Tasks.filter st p = some prog → prog = [])
    (child : Option TaskId) (x k : Bool) : (seccompFork st parent child x k).2 = st := by
  cases parent with
  | none => rfl
  | some p =>
    cases child with
    | none => rfl
    | some c =>
      cases he : st p with
      | none =>
        have hr : taskExtGet st p false true = (none, st) := by simp only [taskExtGet, he]; rfl
        simp only [seccompFork, hr]
      | some pe =>
        have hr : taskExtGet st p false true = (some pe, st) := by simp only [taskExtGet, he]
        cases hq : pe.seccompFilter with
        | none => simp only [seccompFork, hr, hq]
        | some prog =>
          have hn : prog = [] := hp p prog rfl (by simp [Tasks.filter, he, hq])
          simp only [seccompFork, hr, hq, hn, List.length_nil, ↓reduceIte]

/-- No installed filter is empty. -/
def NonEmpty (st : Tasks) : Prop := ∀ t prog, st.filter t = some prog → prog ≠ []

theorem NonEmpty.exec (h : NonEmpty st) (ev : Event) : NonEmpty (ev.exec st) := by
  intro v prog hv
  cases ev with
  | install task u =>
    rcases seccompInstall_filter st task u with hs | ⟨t, new, -, -, hl, hs⟩
    · rw [Event.exec, hs] at hv
      exact h v prog hv
    · rw [Event.exec, hs] at hv
      split at hv
      · cases hv
        exact UserProg.load_ne_nil hl
      · exact h v prog hv
  | fork parent child x k =>
    by_cases hp : ∃ p q, parent = some p ∧ st.filter p = some q
    · obtain ⟨p, q, rfl, hq⟩ := hp
      cases child with
      | none => exact h v prog hv
      | some c =>
        rcases seccompFork_filter hq (h p q hq) c x k with ⟨-, hs⟩ | hs
        · rw [Event.exec, hs] at hv
          exact h v prog hv
        · rw [Event.exec, hs] at hv
          split at hv
          · cases hv
            exact h p _ hq
          · exact h v prog hv
    · rw [Event.exec, seccompFork_none (fun p q he hq => absurd ⟨p, q, he, hq⟩ hp)] at hv
      exact h v prog hv

theorem NonEmpty.run (h : NonEmpty st) (evs : List Event) : NonEmpty (run st evs) := by
  induction evs generalizing st with
  | nil => exact h
  | cons ev evs ih => exact ih (h.exec ev)

theorem NonEmpty.init : NonEmpty .init := fun _ _ h => by cases h

theorem run_append (st : Tasks) (l₁ l₂ : List Event) : run st (l₁ ++ l₂) = run (run st l₁) l₂ :=
  List.foldl_append

/-- One event keeps a denial shared by a set of tasks, and hands it to their new children. -/
theorem Event.denies_grow (hn : NonEmpty st) (hl : Event.Legal st ev) (ht : ev.Tightens st)
    (hd : ∀ t ∈ ts, Denies st t c) : ∀ u ∈ ev.grow st ts, Denies (ev.exec st) u c := by
  intro v hv
  cases ev with
  | install task u =>
    obtain ⟨old, ho, hne, ha⟩ := denies_iff.1 (hd v hv)
    rcases seccompInstall_filter st task u with hs | ⟨t, new, rfl, hu, hw, hs⟩
    · exact denies_iff.2 ⟨old, by rw [Event.exec, hs, ho], hne, ha⟩
    · by_cases he : v = t
      · subst v
        refine denies_iff.2 ⟨new, by rw [Event.exec, hs, if_pos rfl], UserProg.load_ne_nil hw, ?_⟩
        exact fun hc => ha (ht old new ho hu hw c hc)
      · exact denies_iff.2 ⟨old, by rw [Event.exec, hs, if_neg he, ho], hne, ha⟩
  | fork parent child x k =>
    have keep : ∀ w ∈ ts, Denies (Event.exec st (.fork parent child x k)) w c := by
      intro w hw
      obtain ⟨old, ho, hne, ha⟩ := denies_iff.1 (hd w hw)
      refine denies_iff.2 ⟨old, ?_, hne, ha⟩
      by_cases hp : ∃ p q, parent = some p ∧ st.filter p = some q
      · obtain ⟨p, q, rfl, hq⟩ := hp
        cases child with
        | none => exact ho
        | some d =>
          rcases seccompFork_filter hq (hn p q hq) d x k with ⟨-, hs⟩ | hs
          · rw [Event.exec, hs, ho]
          · rw [Event.exec, hs, if_neg, ho]
            rintro rfl
            rw [hl w rfl] at ho
            cases ho
      · rw [Event.exec, seccompFork_none (fun p q he hq => absurd ⟨p, q, he, hq⟩ hp), ho]
    cases parent with
    | none => exact keep v hv
    | some p =>
      cases child with
      | none => exact keep v hv
      | some d =>
        simp only [Event.grow] at hv
        split at hv
        · rename_i hp
          rcases List.mem_cons.1 hv with rfl | hv
          · obtain ⟨old, ho, hne, ha⟩ := denies_iff.1 (hd p hp.1)
            rcases seccompFork_filter ho hne v x k with ⟨hz, -⟩ | hs
            · exact absurd hp.2 hz
            · exact denies_iff.2 ⟨old, by rw [Event.exec, hs, if_pos rfl], hne, ha⟩
          · exact keep v hv
        · exact keep v hv

theorem run_denies (hn : NonEmpty st) (hl : Along Event.exec Event.Legal st evs)
    (ht : Along Event.exec Event.Tightens st evs) (hd : ∀ t ∈ ts, Denies st t c) :
    ∀ u ∈ forked st ts evs, Denies (run st evs) u c := by
  induction evs generalizing st ts with
  | nil => exact hd
  | cons ev evs ih => exact ih (hn.exec ev) hl.2 ht.2 (Event.denies_grow hn hl.1 ht.1 hd)

/-- An event after which no task of its own allows what it denied before is tightening. -/
theorem Event.tightens_of_denies (hn : NonEmpty st)
    (h : ∀ t c, Denies st t c → Denies (Event.exec st ev) t c) : ev.Tightens st := by
  cases ev with
  | fork => trivial
  | install task u =>
    cases task with
    | none => trivial
    | some t =>
      intro old new ho hu hw c ha
      by_contra hd
      obtain ⟨prog, hp, -, hnot⟩ :=
        denies_iff.1 (h t c (denies_iff.2 ⟨old, ho, hn t old ho, hd⟩))
      rw [Event.exec, seccompInstall_replaces ho hu hw] at hp
      cases hp
      exact hnot ha

theorem Confined.tightens (h : Confined (pre ++ evs)) :
    Along Event.exec Event.Tightens (run .init pre) evs := by
  induction evs generalizing pre with
  | nil => trivial
  | cons ev evs ih =>
    refine ⟨Event.tightens_of_denies (NonEmpty.init.run pre) fun t c hd => ?_, ?_⟩
    · have hs := h pre [ev] evs (by simp) t c hd
      rw [run_append] at hs
      refine hs t ?_
      simp only [forked]
      unfold Event.grow
      split
      · exact List.mem_singleton_self t
      · split
        · exact List.mem_cons_of_mem _ (List.mem_singleton_self t)
        · exact List.mem_singleton_self t
      · exact List.mem_singleton_self t
    · have hs : Confined ((pre ++ [ev]) ++ evs) := by simpa using h
      have hr := ih hs
      rwa [run_append] at hr

/-- A run keeps every denial exactly when each installation over an existing filter brings a
program at least as strict. -/
theorem confined_iff_tightening (evs : List Event) (hl : Legal evs) :
    Confined evs ↔ Tightening evs := by
  constructor
  · intro h
    exact @Confined.tightens [] evs h
  · intro h pre mid post he t c hd
    subst evs
    rw [Legal, along_append, along_append] at hl
    rw [Tightening, along_append, along_append] at h
    rw [run_append]
    refine run_denies (NonEmpty.init.run pre) hl.1.2 h.1.2 fun u hu => ?_
    rw [List.mem_singleton.1 hu]
    exact hd

def userProg (prog : List BpfInsn) : UserProg :=
  ⟨0x400000, some (prog.length, 0x401000), some (fun j => prog.getD j ⟨0, 0, 0, 0⟩), true, true⟩

def denyAll : List BpfInsn := [⟨bpfRet, 0, 0, seccompRetErrno ||| 1⟩]

def allowAll : List BpfInsn := [⟨bpfRet, 0, 0, seccompRetAllow⟩]

def relax : List Event :=
  [.install (some 1) (userProg denyAll), .install (some 1) (userProg allowAll)]

/-- A task that denied itself every call allows them all again. -/
theorem relax_not_confined : Legal relax ∧ ¬Confined relax := by
  refine ⟨⟨trivial, trivial, trivial⟩, fun h => ?_⟩
  have hd := h [.install (some 1) (userProg denyAll)] [.install (some 1) (userProg allowAll)] []
    rfl 1 ⟨0, 0, fun _ => 0⟩ (by decide) 1 (by decide)
  revert hd
  decide

/-- A child that installs over the filter it inherits one that is no weaker. -/
def reinstall : List Event :=
  [.install (some 1) (userProg allowOne), .fork (some 1) (some 2) true true,
    .install (some 2) (userProg denyAll)]

theorem reinstall_confined : Legal reinstall ∧ Confined reinstall := by
  have hl : Legal reinstall := by
    refine ⟨trivial, ?_, trivial, trivial⟩
    intro t ht
    cases ht
    rfl
  refine ⟨hl, (confined_iff_tightening reinstall hl).2 ⟨?_, trivial, ?_, trivial⟩⟩
  · intro old new ho
    cases ho
  · intro old new _ _ hw c ha
    have hn : new = denyAll := by
      have : (userProg denyAll).load = .ok denyAll := by decide
      rw [this] at hw
      cases hw
      rfl
    subst new
    have hv : (bpfRun denyAll c.input).exit = .ret (seccompRetErrno ||| 1) := rfl
    rw [Allows, hv] at ha
    exact absurd ha (by decide)

end Lebirun.Seccomp
