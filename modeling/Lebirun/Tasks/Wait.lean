import Mathlib.Data.BitVec
import Mathlib.Data.List.Nodup

namespace Lebirun.Tasks
set_option autoImplicit true

section Tasks

inductive RunState
  | ready | running | blocked | stopped | dead
deriving DecidableEq, Repr

def waitStopped : BitVec 64 := 1#64 <<< 63

def exitPending : BitVec 64 := 1#64 <<< 61

def waitContinued : BitVec 64 := 1#64 <<< 60

/-- The bits by which `wait_child` tells a stop or a continuation from an exit code. -/
def waitBits : BitVec 64 := waitStopped ||| waitContinued

/-- The fields of `task_t` that waiting and reaping use. -/
structure Task where
  pid : Nat
  ppid : Nat
  pgid : Nat
  state : RunState
  exitCode : BitVec 64
  waited : Bool
  jobEvent : Nat
  jobStopSignal : BitVec 64
  untraced : Bool
  continued : Bool
  refs : Nat
  joinRefs : Nat
  inWaitQueue : Bool
  onCpu : Bool
deriving DecidableEq

/-- `task_stop_pending` without tracing. -/
def stopPending (me t : Task) : Bool :=
  t.ppid = me.pid ∧ (t.jobEvent = 1 ∧ t.state = .stopped ∧ me.untraced ∨
    t.jobEvent = 2 ∧ me.continued)

/-- `task_take_stop` without tracing: the code, and the child without its event. -/
def stopCode (t : Task) : BitVec 64 :=
  if t.jobEvent = 2 then waitContinued else waitStopped ||| t.jobStopSignal

def takeStop (t : Task) : Task := { t with jobEvent := 0 }

def markWaited (t : Task) : Task := { t with waited := true }

def deadWith (code : BitVec 64) (t : Task) : Task := { t with state := .dead, exitCode := code }

/-- What a call of `wait_child` asks for: a child by its number, or any in a group (0 for all). -/
inductive Target
  | pid (c : Nat)
  | children (pgid : Nat)
deriving DecidableEq

def Target.of (me : Task) (pid : Int) : Target :=
  if 0 < pid then .pid pid.toNat
  else if pid = 0 then .children (if me.pgid ≠ 0 then me.pgid else me.pid)
  else if pid < -1 then .children (-pid).toNat
  else .children 0

def childOf (p pgid : Nat) (t : Task) : Bool := t.ppid = p ∧ (pgid = 0 ∨ t.pgid = pgid)

def Target.matches (p : Nat) (t : Task) : Target → Bool
  | .pid c => t.ppid = p ∧ t.pid = c
  | .children g => childOf p g t

end Tasks

section Places

/-- Where a task is in `reap_dead_tasks`, with the list it detached and the one it keeps. -/
inductive Reap
  | start
  | loop (todo keep : List Nat)
  | unlink (t : Nat) (todo keep : List Nat)
deriving DecidableEq

/-- Where a task is in `wait_child`: about to make the section named. -/
inductive Pc
  | idle
  | noHang (c : Nat)
  | pid (c : Nat) (nohang : Bool)
  | pidBlocked (c : Nat)
  | pidInterrupted (c : Nat)
  | hasChild (g : Nat) (nohang : Bool)
  | find (g : Nat) (nohang : Bool)
  | join (d g : Nat) (nohang : Bool)
  | joinBlocked (d g : Nat) (nohang : Bool)
  | mark (d : Nat) (code : BitVec 64) (nohang : Bool)
  | prepare (g : Nat)
  | anyBlocked (g : Nat)
  | recheck (g : Nat)
  | reaping (d : Nat) (code : BitVec 64) (nohang : Bool)
deriving DecidableEq

/-- Whoever runs `reap_dead_tasks`: a task at the end of `wait_child`, or deferred work. -/
inductive Reaper
  | task (p : Nat)
  | worker (n : Nat)
deriving DecidableEq

inductive Answer
  | returned (c : Nat) (code : BitVec 64)
  | nothing
  | noChild
  | interrupted
deriving DecidableEq

/-- A section ends at the next one or with the answer of the call. -/
inductive Next
  | at (pc : Pc)
  | done (a : Answer)

/-- The task lists, and where everybody is. `exits` and `reports` record what happened: the tasks as
they died, and the children that were returned as terminated. -/
structure Sched where
  all : List Task
  deadQueue : List Nat
  pcs : Nat → Pc
  reapers : Reaper → Reap
  nextId : Nat
  exits : List Task
  reports : List (Nat × BitVec 64)

end Places

section Lists

def Sched.find (s : Sched) (x : Nat) : Option Task := s.all.find? fun t => t.pid = x

def Sched.update (s : Sched) (x : Nat) (f : Task → Task) : Sched :=
  { s with all := s.all.map fun t => if t.pid = x then f t else t }

def Sched.setPc (s : Sched) (p : Nat) (pc : Pc) : Sched :=
  { s with pcs := fun q => if q = p then pc else s.pcs q }

/-- `task_find_dead_child_of` -/
def Sched.findDeadChild (s : Sched) (me : Task) (g : Nat) : Option Nat :=
  match s.deadQueue.find? fun x => (s.find x).any (childOf me.pid g) with
  | some d => some d
  | none => (s.all.find? fun t => childOf me.pid g t && stopPending me t).map Task.pid

/-- `task_has_child_of` -/
def Sched.hasChildOf (s : Sched) (p g : Nat) : Bool := s.all.any (childOf p g)

end Lists

section Reaping

def Sched.remove (s : Sched) (x : Nat) : Sched := { s with all := s.all.filter fun u => u.pid ≠ x }

/-- Whether the reaper leaves a dead task for later. -/
def Sched.keeps (s : Sched) (t : Task) : Bool :=
  t.onCpu ∨ t.joinRefs ≠ 0 ∨ t.inWaitQueue ∨ t.refs ≠ 0 ∨
    (0 < t.ppid ∧ t.waited = false ∧ (s.find t.ppid).isSome)

/-- The next section of `reap_dead_tasks`; `released` says whether the resources of the task could be
released. -/
def Sched.reap (s : Sched) (released : Bool) : Reap → Sched × Option Reap
  | .start =>
    if s.deadQueue = [] then (s, none)
    else ({ s with deadQueue := [] }, some (.loop s.deadQueue []))
  | .loop [] keep => ({ s with deadQueue := keep.reverse ++ s.deadQueue }, none)
  | .loop (x :: todo) keep =>
    match s.find x with
    | none => (s, some (.loop todo keep))
    | some t =>
      if s.keeps t || !released then (s, some (.loop todo (x :: keep)))
      else (s, some (.unlink x todo keep))
  | .unlink x todo keep =>
    match s.find x with
    | none => (s, some (.loop todo keep))
    | some t =>
      if t.refs ≠ 0 then (s, some (.loop todo (x :: keep)))
      else (s.remove x, some (.loop todo keep))

/-- The reaper `r` goes to the place `k`. -/
def Sched.setReap (s : Sched) (r : Reaper) (k : Reap) : Sched :=
  { s with reapers := fun b => if b = r then k else s.reapers b }

/-- The next section of one reaper, and whether it was its last. -/
def Sched.reapBy (s : Sched) (r : Reaper) (released : Bool) : Sched × Bool :=
  let (s, k) := s.reap released (s.reapers r)
  (s.setReap r (k.getD .start), k.isNone)

end Reaping

section Waiting

/-- The caller goes to sleep on the queue of a child, which holds the child. -/
def Sched.blockOn (s : Sched) (me c : Nat) : Sched :=
  (s.update c fun t => { t with joinRefs := t.joinRefs + 1 }).update me
    fun t => { t with state := .blocked, inWaitQueue := true }

def Sched.unblock (s : Sched) (me c : Nat) : Sched :=
  (s.update c fun t => { t with joinRefs := t.joinRefs - 1 }).update me
    fun t => { t with state := .running, inWaitQueue := false }

/-- The next section of `wait_child`, with `task_wait_child_pid`, `task_join` and the functions on any
child; `signal` says whether a signal is pending. -/
def Sched.wait (s : Sched) (me : Task) (signal released : Bool) : Pc → Sched × Next
  | .idle => (s, .at .idle)
  | .noHang c =>
    match s.find c with
    | none => (s, .done .noChild)
    | some t =>
      if t.ppid ≠ me.pid then (s, .done .noChild)
      else if t.state ≠ .dead ∧ stopPending me t = false then (s, .done .nothing)
      else (s, .at (.pid c true))
  | .pid c nohang =>
    match s.find c with
    | none => (s, .done .noChild)
    | some t =>
      if t.ppid ≠ me.pid then (s, .done .noChild)
      else if stopPending me t then (s.update c takeStop, .at (.reaping c (stopCode t) nohang))
      else if t.state = .dead then
        (s.update c markWaited, .at (.reaping c t.exitCode nohang))
      else if signal || me.inWaitQueue then (s, .done .interrupted)
      else (s.blockOn me.pid c, .at (.pidBlocked c))
  | .pidBlocked c => (s.unblock me.pid c, .at (if signal then .pidInterrupted c else .pid c false))
  | .pidInterrupted c =>
    match s.find c with
    | none => (s, .done .interrupted)
    | some t =>
      if t.ppid ≠ me.pid then (s, .done .interrupted)
      else if stopPending me t then (s.update c takeStop, .at (.reaping c (stopCode t) false))
      else if t.state = .dead then
        (s.update c markWaited, .at (.reaping c t.exitCode false))
      else (s, .done .interrupted)
  | .hasChild g nohang =>
    if s.hasChildOf me.pid g then (s, .at (.find g nohang)) else (s, .done .noChild)
  | .find g nohang =>
    match s.findDeadChild me g with
    | some d => (s, .at (.join d g nohang))
    | none => if nohang then (s, .done .nothing) else (s, .at (.prepare g))
  | .join d g nohang =>
    match s.find d with
    | none => (s, .done .noChild)
    | some t =>
      if stopPending me t then (s.update d takeStop, .at (.mark d (stopCode t) nohang))
      else if t.state = .dead then (s, .at (.mark d t.exitCode nohang))
      else if me.inWaitQueue then (s, .done .noChild)
      else (s.blockOn me.pid d, .at (.joinBlocked d g nohang))
  | .joinBlocked d g nohang =>
    match s.find d with
    | none => (s, .done .noChild)
    | some t =>
      if stopPending me t then
        ((s.unblock me.pid d).update d takeStop, .at (.mark d (stopCode t) nohang))
      else if t.state = .dead then (s.unblock me.pid d, .at (.mark d t.exitCode nohang))
      -- task_join was interrupted, or woken for nothing: -EINTR, which wait_child turns into -ECHILD
      else if signal || !me.inWaitQueue then (s.unblock me.pid d, .done .noChild)
      else (s, .at (.joinBlocked d g nohang))
  | .mark d code nohang =>
    if code &&& waitBits = 0 then
      (s.update d markWaited, .at (.reaping d code nohang))
    else (s, .at (.reaping d code nohang))
  | .prepare g =>
    match s.findDeadChild me g with
    | some _ => (s, .at (.find g false))
    | none =>
      if s.hasChildOf me.pid g then
        (s.update me.pid fun t => { t with state := .blocked }, .at (.anyBlocked g))
      else (s, .done .noChild)
  | .anyBlocked g =>
    (s.update me.pid fun t => { t with state := .running }, .at (if signal then .recheck g else .find g false))
  | .recheck g =>
    match s.findDeadChild me g with
    | some _ => (s, .at (.find g false))
    | none => (s, .done .interrupted)
  | .reaping d code nohang =>
    let (s, finished) := s.reapBy (.task me.pid) released
    (s, if finished then .done (.returned d code) else .at (.reaping d code nohang))

/-- A task in one of these places is in `schedule()`. -/
def Pc.asleep : Pc → Bool
  | .pidBlocked _ | .joinBlocked _ _ _ | .anyBlocked _ => true
  | _ => false

/-- Where `wait_child` begins. -/
def Target.start (nohang : Bool) : Target → Pc
  | .pid c => if nohang then .noHang c else .pid c false
  | .children g => .hasChild g nohang

end Waiting

section Steps

/-- One step of the machine: a task makes a call, passes its next section, exits or is killed, a
worker passes its next section of `reap_dead_tasks`, somebody takes or drops what holds a task, a task
stops or goes on, or is made. -/
inductive Action
  | call (p : Nat) (pid : Int) (nohang untraced continued : Bool)
  | go (p : Nat) (signal released : Bool)
  | work (n : Nat) (released : Bool)
  | exit (p : Nat) (code : BitVec 64)
  | kill (p : Nat) (code : BitVec 64)
  | hold (p refs : Nat) (inWaitQueue onCpu : Bool)
  | job (p event : Nat) (signal : BitVec 64) (state : RunState)
  | spawn (p : Nat) (t : Task)

/-- The end of `task_exit_deferred` and of `task_kill`. -/
def Sched.die (s : Sched) (t : Task) (code : BitVec 64) : Sched :=
  { s.update t.pid (deadWith code) with
    deadQueue := t.pid :: s.deadQueue
    exits := deadWith code t :: s.exits }

/-- A task goes on the lists. -/
def Sched.add (s : Sched) (t : Task) : Sched := { s with all := t :: s.all, nextId := s.nextId + 1 }

/-- The code a task exits with: that of a kill which had to wait goes first. -/
def finalCode (t : Task) (code : BitVec 64) : BitVec 64 :=
  if t.exitCode &&& exitPending ≠ 0 then t.exitCode &&& ~~~exitPending else code

/-- A kill of a task that is on a CPU or in a system call waits for its return to user mode. -/
def pendKill (code : BitVec 64) (t : Task) : Task :=
  { t with
    exitCode := if code = 137 ∨ t.exitCode &&& exitPending = 0 then code ||| exitPending else t.exitCode
    state := if t.state = .blocked ∨ t.state = .stopped then .ready else t.state }

/-- The report of an answer: a child returned as terminated. -/
def Sched.log (s : Sched) : Answer → Sched
  | .returned c code => if code &&& waitBits = 0 then { s with reports := (c, code) :: s.reports } else s
  | _ => s

def Sched.go (s : Sched) (me : Task) (signal released : Bool) : Sched × Option (Nat × Answer) :=
  match s.wait me signal released (s.pcs me.pid) with
  | (s, .at pc) => (s.setPc me.pid pc, none)
  | (s, .done a) => ((s.setPc me.pid .idle).log a, some (me.pid, a))

def Sched.step (s : Sched) : Action → Sched × Option (Nat × Answer)
  | .call p pid nohang untraced continued =>
    match s.find p with
    | none => (s, none)
    | some me =>
      if s.pcs p = .idle ∧ me.state ≠ .dead then
        ((s.update p fun t => { t with untraced, continued }).setPc p ((Target.of me pid).start nohang),
          none)
      else (s, none)
  | .go p signal released =>
    match s.find p with
    | none => (s, none)
    | some me =>
      -- a task on a wait queue is on no CPU
      if s.pcs p = .idle ∨ me.inWaitQueue ∧ (s.pcs p).asleep = false then (s, none)
      else s.go me signal released
  | .work n released => ((s.reapBy (.worker n) released).1, none)
  | .exit p code =>
    match s.find p with
    | none => (s, none)
    | some t =>
      if s.pcs p = .idle ∧ t.state ≠ .dead then (s.die t (finalCode t code), none) else (s, none)
  | .kill p code =>
    match s.find p with
    | none => (s, none)
    | some t =>
      if t.state = .dead then (s, none)
      else if t.onCpu = true ∨ s.pcs p ≠ .idle then (s.update p (pendKill code), none)
      else (s.die t code, none)
  | .hold p refs inWaitQueue onCpu => (s.update p fun t => { t with refs, inWaitQueue, onCpu }, none)
  | .job p event signal state =>
    (s.update p fun t =>
      if t.state = .dead ∨ state = .dead then { t with jobEvent := event, jobStopSignal := signal }
      else { t with jobEvent := event, jobStopSignal := signal, state }, none)
  | .spawn p t =>
    match s.find p with
    | none => (s, none)
    | some _ =>
      (s.add { t with
        pid := s.nextId
        ppid := p
        state := .ready
        waited := false
        exitCode := 0
        joinRefs := 0 }, none)

def Sched.next (s : Sched) (a : Action) : Sched := (s.step a).1

end Steps

end Lebirun.Tasks
