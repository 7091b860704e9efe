import Mathlib.Algebra.Group.Nat.Defs
import Mathlib.Data.List.Basic
import Mathlib.Logic.Function.Basic

namespace Lebirun.Schedule
open Function (update)
set_option autoImplicit true

section Data

inductive TaskState
  | ready | running | blocked | stopped | dead
deriving DecidableEq

/-- `sched_policy` -/
inductive Policy
  | other | fifo | rr | deadline
deriving DecidableEq

/-- What the scheduler reads of a task. `runningCpu` is a CPU, -1, or -(c + 2) when only the CPU c may
take the task; `rsp` is where its interrupt frame lies. -/
structure Task where
  id : Nat
  isUser : Bool
  state : TaskState
  resourcesReleased : Bool
  runningCpu : Int
  kernelCpuPinned : Bool
  affinity64 : Nat
  affinityNwords : Int
  affinityDyn : List Nat
  schedPolicy : Policy
  schedPriority : Nat
  piBoost : Int
  niceValue : Int
  vruntime : Nat
  timeSlice : Int
  baseTimeSlice : Int
  syscallFrame : Bool
  rsp : Nat

/-- The fields of `registers_t` that the scheduler reads. -/
structure Frame where
  es : Nat
  ds : Nat
  cs : Nat
  rip : Nat
  rflags : Nat
  intNo : Nat

/-- A CPU: three fields of its own are not of `cpu_info_t`. `kstack` is the task whose kernel stack it
runs on, `target` the frame the interrupt handler will return when it is not the one it was entered with,
and `entered` the frame of a call of `schedule_from_irq` that goes on to take the lock. -/
structure Cpu where
  active : Bool
  runningTask : Option Nat
  switchingTask : Option Nat
  idleFrame : Option Nat
  schedulerLockDepth : Nat
  scheduleForce : Bool
  vruntimeMin : Nat
  kstack : Option Nat
  target : Option Nat
  entered : Option Nat

def KSTACK_RUNTIME_SIZE : Nat := 0x1E00

/-- Where things are. `stackOwner` is the task whose kernel stack an address lies in; no task's is that
of a CPU. -/
structure Layout where
  cpuCount : Nat
  bsp : Nat
  bootstrapTask : Nat
  kernelVma : Nat
  heapStart : Nat
  heapMax : Nat
  kstackIsInRegion : Nat → Bool
  kernelTextStart : Nat
  kernelTextEnd : Nat
  taskCpuIdleEntry : Nat
  stackOwner : Nat → Option Nat
  kernelStack : Nat → Option Nat
  kernelStack_owner : ∀ c a, kernelStack c = some a → stackOwner (a + KSTACK_RUNTIME_SIZE) = none

/-- `readyQueue` is the circular list from its head. -/
structure Kernel where
  layout : Layout
  tasks : Nat → Task
  cpus : Nat → Cpu
  readyQueue : List Nat
  allTasks : List Nat
  frames : Nat → Frame
  deferredPending : Bool
  panicked : Bool

end Data

section Updates

def Kernel.setTask (s : Kernel) (t : Nat) (f : Task → Task) : Kernel :=
  { s with tasks := update s.tasks t (f (s.tasks t)) }

def Kernel.setCpu (s : Kernel) (c : Nat) (f : Cpu → Cpu) : Kernel :=
  { s with cpus := update s.cpus c (f (s.cpus c)) }

def Kernel.setState (s : Kernel) (t : Nat) (state : TaskState) : Kernel :=
  s.setTask t fun x => { x with state := state }

/-- `task_mark_ready_locked`, but for the wake-up interrupts. -/
def Kernel.taskMarkReady (s : Kernel) (t : Nat) : Kernel :=
  if (s.tasks t).state = .blocked then s.setState t .ready else s

/-- `descriptor_ready_drain_irq_locked`, given the tasks that it wakes. -/
def Kernel.drain (s : Kernel) (woken : List Nat) : Kernel := woken.foldl Kernel.taskMarkReady s

end Updates

section Predicates

def TaskState.requiresSchedule (state : TaskState) : Bool :=
  state = .dead ∨ state = .blocked ∨ state = .stopped

def Task.isIdle (x : Task) : Bool := x.id = 0 ∧ ¬ x.isUser

/-- `task_scheduler_rank` -/
def taskSchedulerRank (x : Task) : Int :=
  match x.schedPolicy with
  | .deadline => 200
  | .fifo | .rr => 100 + x.schedPriority
  | .other => x.piBoost

/-- `task_cpu_allowed` -/
def taskCpuAllowed (x : Task) (cpu : Nat) : Bool :=
  if cpu < 64 then x.affinity64.testBit cpu
  else if x.affinityNwords < 0 then true
  else if (cpu / 64 - 1 : Nat) < x.affinityNwords then (x.affinityDyn.getD (cpu / 64 - 1) 0).testBit (cpu % 64)
  else false

/-- `task_is_current_on_any_cpu`, asked on the CPU `me`. -/
def Kernel.taskIsCurrentOnAnyCpu (s : Kernel) (me t : Nat) : Bool :=
  (List.range s.layout.cpuCount).any (fun i => (s.cpus i).active &&
    ((s.cpus i).runningTask = some t ∨ (s.cpus i).switchingTask = some t)) ||
  (s.cpus me).runningTask = some t

/-- `task_cpu_available` -/
def Kernel.taskCpuAvailable (s : Kernel) (t c : Nat) : Bool :=
  let owner := (s.tasks t).runningCpu
  (owner = -1 ∨ owner = -((c : Int) + 2)) ∧ ¬ s.taskIsCurrentOnAnyCpu c t ∧
    (owner = -1 → taskCpuAllowed (s.tasks t) c)

/-- `task_owns_irq_frame` -/
def Kernel.taskOwnsIrqFrame (s : Kernel) (t rsp : Nat) : Bool := s.layout.stackOwner rsp = some t

def Kernel.inKernelText (s : Kernel) (rip : Nat) : Bool :=
  s.layout.kernelTextStart ≤ rip ∧ rip < s.layout.kernelTextEnd

/-- `task_irq_return_frame`: whether the frame of the task at its `rsp` may be returned to. -/
def Kernel.taskIrqReturnFrame (s : Kernel) (t : Nat) : Bool :=
  let rsp := (s.tasks t).rsp
  let frame := s.frames rsp
  let es := frame.es % 2 ^ 16
  let ds := frame.ds % 2 ^ 16
  let cs := frame.cs % 2 ^ 16
  rsp ≠ 0 ∧
  ((s.layout.kernelVma ≤ rsp ∧ rsp < s.layout.heapStart) ∨ (s.layout.heapStart ≤ rsp ∧ rsp < s.layout.heapMax) ∨
    s.layout.kstackIsInRegion rsp) ∧
  s.taskOwnsIrqFrame t rsp ∧
  (es = 0x10 ∨ es = 0x23 ∨ es = 0) ∧ (ds = 0x10 ∨ ds = 0x23 ∨ ds = 0) ∧ (cs = 0x08 ∨ cs = 0x1B) ∧
  ((cs = 0x08 ∧ s.inKernelText frame.rip) ∨
    (cs = 0x1B ∧ (s.tasks t).isUser ∧ 0x1000 ≤ frame.rip ∧ frame.rip < s.layout.kernelVma))

/-- `cpu_idle_frame_valid` for the idle frame of the CPU. -/
def Kernel.cpuIdleFrameValid (s : Kernel) (c a : Nat) : Bool :=
  (s.cpus c).idleFrame = some a ∧
  (s.layout.kernelStack c).map (· + KSTACK_RUNTIME_SIZE) = some a ∧
  (s.frames a).es = 0x10 ∧ (s.frames a).ds = 0x10 ∧ (s.frames a).rip = s.layout.taskCpuIdleEntry ∧
  (s.frames a).cs = 0x08 ∧ (s.frames a).rflags = 0x2

/-- `bootstrap_idle_frame_valid` for the idle frame of the CPU. -/
def Kernel.bootstrapIdleFrameValid (s : Kernel) (t c a : Nat) : Bool :=
  (s.cpus c).idleFrame = some a ∧ t = s.layout.bootstrapTask ∧ c = s.layout.bsp ∧ a = (s.tasks t).rsp ∧
  s.taskOwnsIrqFrame t a ∧ (s.frames a).cs % 2 ^ 16 = 0x08 ∧ s.inKernelText (s.frames a).rip

/-- Whether the interrupted task is in user mode on a CPU it may not run on. -/
def Kernel.migrates (s : Kernel) (c regs p : Nat) : Bool :=
  (s.tasks p).state = .running ∧ (s.frames regs).cs % 4 = 3 ∧ ¬ taskCpuAllowed (s.tasks p) c

end Predicates

section Before

/-- What `schedule_from_irq` tests before it takes the lock: whether it goes on. -/
def Kernel.early (s : Kernel) (c regs : Nat) (gotLock : Bool) : Kernel × Bool :=
  let frame := s.frames regs
  let cpu := s.cpus c
  let prev := cpu.runningTask
  if s.readyQueue = [] then (s, false)
  else
    let migrate := prev.any fun p => (s.tasks p).state = .running ∧ frame.cs % 4 = 3 ∧
      (if c < 64 then ¬ (s.tasks p).affinity64.testBit c else 0 ≤ (s.tasks p).affinityNwords)
    if (prev.any fun p => (s.tasks p).kernelCpuPinned ∧ (s.tasks p).state = .running) ∧ frame.intNo ≠ 48 then
      (s, false)
    else
      let forcedStateSwitch := migrate || prev.any fun p => (s.tasks p).state.requiresSchedule
      if 0 < cpu.schedulerLockDepth then (s, false)
      else if ¬ cpu.scheduleForce ∧ ¬ forcedStateSwitch ∧ (prev.any fun p => (s.tasks p).state = .running ∧
          (s.tasks p).isUser ∧ frame.cs % 4 = 3 ∧ ¬ (s.tasks p).syscallFrame ∧
          (s.tasks p).schedPolicy ≠ .fifo ∧ 1 < (s.tasks p).timeSlice) ∧ ¬ s.deferredPending then
        (prev.elim s fun p => s.setTask p fun x => { x with timeSlice := x.timeSlice - 1 }, false)
      else (s, gotLock || forcedStateSwitch)

end Before

section Locked

/-- `save_irq_frame_into_task`, and the idle frame of the boot CPU. -/
def Kernel.saveIrqFrame (s : Kernel) (c regs p : Nat) : Kernel :=
  let s := s.setTask p fun x => { x with rsp := regs }
  if p = s.layout.bootstrapTask ∧ c = s.layout.bsp then s.setCpu c fun x => { x with idleFrame := some regs }
  else s

/-- The time slice of the interrupted task is used up by one tick. -/
def Task.tick (x : Task) : Task := { x with timeSlice := if 0 < x.timeSlice then x.timeSlice - 1 else x.timeSlice }

/-- The order in which the tasks are looked at: from behind the interrupted one, or from the head. -/
def Kernel.order (s : Kernel) (prev : Option Nat) (mustSwitch : Bool) : List Nat :=
  match prev with
  | none => s.readyQueue
  | some p =>
    if mustSwitch ∨ p ∉ s.readyQueue then s.readyQueue
    else
      let n := s.readyQueue.idxOf p + 1
      s.readyQueue.drop n ++ s.readyQueue.take n

def Kernel.eligible (s : Kernel) (c : Nat) (prev : Option Nat) (t : Nat) : Bool :=
  (s.tasks t).state = .ready ∧ prev ≠ some t ∧ ¬ (s.tasks t).resourcesReleased ∧ s.taskCpuAvailable t c ∧
    (c = s.layout.bsp ∨ ¬ (s.tasks t).isIdle)

def Kernel.better (s : Kernel) (t : Nat) : Option Nat → Bool
  | none => true
  | some b =>
    let rank := taskSchedulerRank (s.tasks t)
    let best := taskSchedulerRank (s.tasks b)
    best < rank ∨ (rank = best ∧ (s.tasks t).schedPolicy = .other ∧ (s.tasks t).vruntime < (s.tasks b).vruntime)

/-- The loop over the ready queue. -/
def Kernel.scan (s : Kernel) (c : Nat) (prev : Option Nat) : List Nat → Option Nat → Option Nat
  | [], candidate => candidate
  | t :: l, candidate =>
    if s.eligible c prev t && s.better t candidate && s.taskIrqReturnFrame t then
      if taskSchedulerRank (s.tasks t) = 200 then some t else s.scan c prev l (some t)
    else s.scan c prev l candidate

/-- The weight of a nice value. -/
def weight (nice : Int) : Nat :=
  let nice := max (-20) (min 19 nice)
  if 0 < nice then 1024 / (1 + nice.toNat) else if nice < 0 then 1024 + (-nice).toNat * 64 else 1024

/-- The virtual runtime of the task that goes on. -/
def Kernel.charge (s : Kernel) (c t : Nat) : Kernel :=
  if (s.tasks t).schedPolicy = .other then
    let w := weight (s.tasks t).niceValue
    let v := (s.tasks t).vruntime + 1024 * 1000 / (if w = 0 then 1 else w)
    (s.setTask t fun x => { x with vruntime := v }).setCpu c fun x =>
      { x with vruntimeMin := max x.vruntimeMin v }
  else s

/-- `task_release_from_cpu` -/
def Kernel.taskReleaseFromCpu (s : Kernel) (t regs c : Nat) (preserveCpu : Bool) : Kernel :=
  if (s.tasks t).runningCpu = c then
    s.setTask t fun x => { x with
      runningCpu := if (preserveCpu ∨ x.kernelCpuPinned) ∧ (s.frames regs).cs % 4 = 0 then -((c : Int) + 2)
        else -1 }
  else s

/-- `task_set_current` -/
def Kernel.taskSetCurrent (s : Kernel) (c t : Nat) : Kernel :=
  let s := (s.cpus c).runningTask.elim s fun old =>
    if old ≠ t ∧ (s.tasks old).runningCpu = c then s.setTask old fun x => { x with runningCpu := -1 } else s
  (s.setCpu c fun x => { x with runningTask := some t }).setTask t fun x => { x with runningCpu := c }

/-- The CPU still runs on the stack of the interrupted task. -/
def Kernel.noteSwitching (s : Kernel) (c : Nat) : Kernel :=
  s.setCpu c fun x => { x with
    switchingTask := if x.switchingTask = none then x.runningTask else x.switchingTask }

/-- The frame to return, when it is another than the call was given. -/
def Kernel.setTarget (s : Kernel) (c regs frame : Nat) : Kernel :=
  s.setCpu c fun x => { x with target := if frame = regs then x.target else some frame }

/-- The segments of a frame that returns to user mode. -/
def Frame.toUser (f : Frame) : Frame := { f with ds := 0x23, es := 0x23, cs := 0x1B }

/-- The switch to a task whose frame was found. -/
def Kernel.switchTo (s : Kernel) (c regs t frame : Nat) (mustSwitch : Bool) : Kernel :=
  let prev := (s.cpus c).runningTask
  let s := s.noteSwitching c
  let s := prev.elim s fun p => if (s.tasks p).state = .running then s.setState p .ready else s
  let s := prev.elim s fun p => s.taskReleaseFromCpu p regs c mustSwitch
  let s := s.setState t .running
  let s := s.taskSetCurrent c t
  let s := if (s.tasks t).isUser ∧ (s.frames frame).cs % 4 = 3 then
      { s with frames := update s.frames frame (s.frames frame).toUser } else s
  s.setTarget c regs frame

/-- The switch to the idle loop of a CPU that is not the boot CPU. -/
def Kernel.switchToCpuIdle (s : Kernel) (c regs frame : Nat) (mustSwitch : Bool) : Kernel :=
  let prev := (s.cpus c).runningTask
  let s := s.noteSwitching c
  let s := prev.elim s fun p => s.taskReleaseFromCpu p regs c mustSwitch
  (s.setCpu c fun x => { x with runningTask := none }).setTarget c regs frame

/-- `task_find_idle_locked` -/
def Kernel.taskFindIdle (s : Kernel) : Option Nat :=
  s.allTasks.find? fun t => (s.tasks t).isIdle ∧ ¬ (s.tasks t).resourcesReleased

/-- The idle task, and the frame it goes on with. -/
def Kernel.idleChoice (s : Kernel) (c regs : Nat) : Option (Nat × Nat) :=
  if c = s.layout.bsp then
    s.taskFindIdle.bind fun i =>
      if (s.cpus c).runningTask = some i ∧ (s.tasks i).isIdle then some (i, regs)
      else if s.taskIsCurrentOnAnyCpu c i then none
      else if s.taskIrqReturnFrame i then some (i, (s.tasks i).rsp)
      else (s.cpus c).idleFrame.bind fun a => if s.bootstrapIdleFrameValid i c a then some (i, a) else none
  else none

def Kernel.readyIdle (s : Kernel) (i : Nat) : Kernel :=
  let s := s.setState i .ready
  if i ∈ s.readyQueue then s else { s with readyQueue := s.readyQueue ++ [i] }

/-- There is no other task to run, and this one may not go on. -/
def Kernel.switchIdle (s : Kernel) (c regs : Nat) : Kernel × Option Nat :=
  match s.idleChoice c regs with
  | some (i, frame) => ((s.readyIdle i).switchTo c regs i frame true, some i)
  | none =>
    match (s.cpus c).idleFrame with
    | some a =>
      if c ≠ s.layout.bsp ∧ s.cpuIdleFrameValid c a then (s.switchToCpuIdle c regs a true, none)
      else ({ s with panicked := true }, none)
    | none => ({ s with panicked := true }, none)

/-- The choice of a task and the switch to it, which is given back. -/
def Kernel.select (s : Kernel) (c regs : Nat) (force mustSwitch : Bool) : Kernel × Option Nat :=
  let prev := (s.cpus c).runningTask
  match s.scan c prev (s.order prev mustSwitch) none with
  | some t =>
    let best := taskSchedulerRank (s.tasks t)
    let s := s.charge c t
    if ¬ mustSwitch ∧ ¬ force ∧
        prev.any (fun p => (s.tasks p).schedPolicy = .fifo ∧ best ≤ taskSchedulerRank (s.tasks p)) then (s, none)
    else (s.switchTo c regs t (s.tasks t).rsp mustSwitch, some t)
  | none => if mustSwitch then s.switchIdle c regs else (s, none)

/-- The frame of the interrupted task is saved and its time slice charged: whether to look for another. -/
def Kernel.account (s : Kernel) (c regs : Nat) (mustSwitch : Bool) : Kernel × Bool :=
  let prev := (s.cpus c).runningTask
  let force := (s.cpus c).scheduleForce
  let s := prev.elim s fun p => if (s.tasks p).state = .dead then s else s.saveIrqFrame c regs p
  let charged := ¬ force ∧ ¬ mustSwitch ∧
    prev.any fun p => ¬ (s.tasks p).isIdle ∧ (s.tasks p).schedPolicy ≠ .fifo
  let s := if charged then prev.elim s fun p => s.setTask p Task.tick else s
  if charged ∧ prev.any fun p => (s.tasks p).timeSlice ≠ 0 then (s, false)
  else
    let s := s.setCpu c fun x => { x with scheduleForce := false }
    (if mustSwitch then s
      else prev.elim s fun p => s.setTask p fun x => { x with timeSlice := x.baseTimeSlice }, true)

/-- `schedule_from_irq` from the lock on, with the task it selects. -/
def Kernel.locked (s : Kernel) (c regs : Nat) (woken : List Nat) : Kernel × Option Nat :=
  let prev := (s.cpus c).runningTask
  let force := (s.cpus c).scheduleForce
  let migrate := prev.any (s.migrates c regs)
  let s := s.drain woken
  let mustSwitch := migrate || prev.any fun p => (s.tasks p).state.requiresSchedule
  let s := if migrate then prev.elim s fun p => s.setState p .ready else s
  if prev.any (fun p => (s.tasks p).syscallFrame) ∧ (s.frames regs).intNo ≠ 48 ∧ ¬ mustSwitch then (s, none)
  else
    let (s, goesOn) := s.account c regs mustSwitch
    if goesOn then s.select c regs force mustSwitch else (s, none)

end Locked

section Affinity

/-- `task_online_cpu_mask` -/
def taskOnlineCpuMask (cpuCount word : Nat) : Nat := 2 ^ min 64 (cpuCount - word * 64) - 1

/-- The words without the zeros at their end, but for the first word. -/
def stripWords : List Nat → List Nat
  | [] => []
  | w :: l => w :: (l.reverse.dropWhile (· = 0)).reverse

/-- `task_set_cpu_affinity_mask`, given whether memory is found. -/
def Kernel.setAffinity (s : Kernel) (t : Nat) (words : List Nat) (mem : Bool) : Kernel :=
  let need := max 1 ((s.layout.cpuCount + 63) / 64)
  if words = [] ∨ s.layout.cpuCount = 0 ∨ (words.drop need).any (· ≠ 0) then s
  else
    let words := words.take need
    if (words.zipIdx.any fun (w, i) => w &&& taskOnlineCpuMask s.layout.cpuCount i ≠ 0) = false then s
    else
      let words := stripWords words
      if 1 < words.length ∧ ¬ mem then s
      else s.setTask t fun x => { x with
        affinity64 := words.headD 0
        affinityDyn := words.tail
        affinityNwords := words.length - 1 }

end Affinity

section Steps

/-- What the CPUs and the rest of the kernel do. `enter` is a call of `schedule_from_irq` up to the lock
and `section` the rest of it; `leave` is the end of an interrupt, which returns to its own frame or to
the target. -/
inductive Action
  | enter (c regs : Nat) (gotLock : Bool)
  | locked (c : Nat) (woken : List Nat)
  | leave (c entry rax : Nat)
  | markReady (t : Nat)
  | block (t : Nat)
  | stop (t : Nat)
  | resume (t : Nat)
  | goOn (c : Nat)
  | exit (t : Nat)
  | releaseResources (t : Nat)
  | affinity (t : Nat) (words : List Nat) (mem : Bool)
  | enqueue (t : Nat)
  | pin (t : Nat) (pinned : Bool)
  | syscallFrame (t : Nat) (inside : Bool)
  | policy (t : Nat) (policy : Policy) (priority : Nat) (slice : Int)
  | force (c : Nat)
  | defer (pending : Bool)
  | write (a : Nat) (frame : Frame)

/-- The frame of an interrupt lies on the stack the CPU runs on, below the top of the CPU's own; a second
call in the same interrupt is given the target. -/
def Kernel.frameOf (s : Kernel) (c regs : Nat) : Bool :=
  (s.layout.stackOwner regs = (s.cpus c).kstack ∧
    (s.layout.kernelStack c).map (· + KSTACK_RUNTIME_SIZE) ≠ some regs) ∨ (s.cpus c).target = some regs

/-- The end of the interrupt stub: on another frame than the interrupt was entered with, the CPU is on
another stack and `switching_task` is cleared. -/
def Kernel.leave (s : Kernel) (c entry rax : Nat) : Kernel :=
  if s.layout.stackOwner entry = (s.cpus c).kstack ∧ (s.cpus c).target = some rax ∧ rax ≠ entry then
    s.setCpu c fun x => { x with switchingTask := none, kstack := s.layout.stackOwner rax, target := none }
  else s

/-- A step, with the task that it selects. -/
def Kernel.act (s : Kernel) : Action → Kernel × Option Nat
  | .enter c regs gotLock =>
    if (s.cpus c).active ∧ c < s.layout.cpuCount ∧ (s.cpus c).entered = none ∧ s.frameOf c regs then
      let (s, goesOn) := s.early c regs gotLock
      (if goesOn then s.setCpu c fun x => { x with entered := some regs } else s, none)
    else (s, none)
  | .locked c woken =>
    match (s.cpus c).entered with
    | none => (s, none)
    | some regs => (s.setCpu c fun x => { x with entered := none }).locked c regs woken
  | .leave c entry rax => (if (s.cpus c).entered = none then s.leave c entry rax else s, none)
  | .markReady t => (s.taskMarkReady t, none)
  | .block t => (s.setState t .blocked, none)
  | .stop t => (s.setState t .stopped, none)
  | .resume t => (if (s.tasks t).state = .stopped then s.setState t .ready else s, none)
  | .goOn c => ((s.cpus c).runningTask.elim s fun t =>
      if (s.tasks t).state = .blocked then s.setState t .running else s, none)
  | .exit t => ({ s.setState t .dead with readyQueue := s.readyQueue.erase t }, none)
  | .releaseResources t =>
    (if (s.tasks t).state = .dead then s.setTask t fun x => { x with resourcesReleased := true } else s, none)
  | .affinity t words mem => (s.setAffinity t words mem, none)
  | .enqueue t => ({ s with readyQueue := s.readyQueue ++ [t] }, none)
  | .pin t pinned => (s.setTask t fun x => { x with kernelCpuPinned := pinned }, none)
  | .syscallFrame t inside => (s.setTask t fun x => { x with syscallFrame := inside }, none)
  | .policy t policy priority slice => (s.setTask t fun x => { x with
      schedPolicy := policy, schedPriority := priority, baseTimeSlice := slice, timeSlice := slice }, none)
  | .force c => (s.setCpu c fun x => { x with scheduleForce := true }, none)
  | .defer pending => ({ s with deferredPending := pending }, none)
  | .write a frame => ({ s with frames := update s.frames a frame }, none)

/-- A step, unless the kernel has panicked. -/
def Kernel.step (s : Kernel) (a : Action) : Kernel × Option Nat := if s.panicked then (s, none) else s.act a

def Kernel.next (s : Kernel) (a : Action) : Kernel := (s.step a).1

end Steps

end Lebirun.Schedule
