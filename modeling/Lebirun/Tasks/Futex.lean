import Mathlib.Data.BitVec
import Lebirun.Lib.Keyed
import Lebirun.Tasks.Wait

namespace Lebirun.Futex
open Tasks (RunState)
set_option autoImplicit true

section Pages

def pageSize : Nat := 4096

def kernelVma : Nat := 0xFFFFFFFF80000000

/-- A leaf entry of a page table: the frame and the flags that remapping a page looks at. -/
structure Pte where
  frame : Nat
  write : Bool
  cow : Bool
  nofree : Bool
  shared : Bool
deriving DecidableEq

/-- Every address space with its page table. -/
def Tables : Type := Nat → Nat → Option Pte

/-- `vmm_get_phys_in_pml4` at a 4 KiB page, whose offset comes on top: the key of a user address. -/
def Tables.key (m : Tables) (space addr : Nat) : Option Nat :=
  match m space (addr / pageSize) with
  | some e => if e.frame = 0 then none else some (e.frame * pageSize + addr % pageSize)
  | none => none

def Tables.set (m : Tables) (space page : Nat) (e : Pte) : Tables :=
  fun s p => if s = space ∧ p = page then some e else m s p

/-- `cow_handle_fault`: a copy in the frame `fresh`, or the page itself when nobody shares it. -/
def Pte.breakCow (e : Pte) (fresh : Option Nat) : Pte :=
  if e.cow then { e with frame := fresh.getD e.frame, write := true, cow := false } else e

/-- `task_handle_file_write_fault` on a page that is neither writable nor copy on write. -/
def Pte.writeFault (e : Pte) (fresh : Nat) : Pte :=
  if e.write ∨ e.cow then e else { e with frame := fresh, write := true, nofree := false }

/-- What a write to a user page leaves, with the frame a fault may allocate. -/
def Pte.written (e : Pte) (fresh : Option Nat) : Pte :=
  if e.cow then e.breakCow fresh
  else match fresh with
    | some f => e.writeFault f
    | none => e

/-- `task_reclaim_zero_anon` at one page that holds only zeros. -/
def Pte.reclaim (e : Pte) (zeroPage : Nat) : Pte :=
  if e.cow ∨ e.nofree ∨ e.shared then e else { e with frame := zeroPage, write := false, nofree := true }

/-- A page as a fork leaves it in both address spaces. -/
def Pte.forked (e : Pte) : Pte :=
  if e.nofree = false ∧ e.shared = false ∧ e.write then { e with write := false, cow := true } else e

end Pages

section Places

inductive Errno
  | fault | inval | again | timedOut | intr
deriving DecidableEq, Repr

/-- Where a task is in a futex call or in its exit: about to make the section named. A key stands with
the address it was computed from. -/
inductive Pc
  | idle
  | enter (addr key : Nat) (expected : Int) (ticks : Nat) (bitset : BitVec 32)
  | asleep
  | check (timedOut : Bool)
  | wake (addr key : Nat) (count : Int) (bitset : BitVec 32) (dying : Bool)
  | second (addr key addr2 : Nat) (wakeCount requeueCount : Int)
  | requeue (addr key addr2 key2 : Nat) (wakeCount requeueCount : Int)
  | clear (addr : Nat) (key : Option Nat)
  | die
deriving DecidableEq

/-- The fields of `task_t` that a futex uses. `queue` is the key in `waiting_queue` while
`in_wait_queue` says futex; `call` numbers the wait, and `target` is where its key was computed. -/
structure Task where
  id : Nat
  space : Nat
  pc : Pc
  state : RunState
  queue : Option Nat
  bitset : BitVec 32
  inSleepQueue : Bool
  call : Nat
  target : Nat × Nat
deriving DecidableEq

/-- `all` is the list of all tasks; `counted` and `zero` record the waits that a wake counted and
those that returned 0. -/
structure Sched where
  all : List Task
  pages : Tables
  nextCall : Nat
  counted : List Nat
  zero : List Nat

end Places

section Wakes

def ticksForever : Nat := 2 ^ 64 - 1

/-- `task_mark_ready_locked` -/
def markReady (t : Task) : Task := if t.state = .blocked then { t with state := .ready } else t

/-- `task_remove_wait_locked`, `sleepq_remove` and `task_mark_ready_locked`. -/
def release (t : Task) : Task := markReady { t with queue := none, inSleepQueue := false }

/-- The loop of `task_futex_wake_bitset` over all tasks: the tasks it leaves, and the waits it ends. -/
def wakeLoop (key : Nat) (bitset : BitVec 32) : Nat → List Task → List Task × List Nat
  | 0, l => (l, [])
  | _ + 1, [] => ([], [])
  | n + 1, t :: l =>
    if t.queue = some key ∧ t.bitset &&& bitset ≠ 0 then
      let (l', w) := wakeLoop key bitset n l
      (release t :: l', t.call :: w)
    else
      let (l', w) := wakeLoop key bitset (n + 1) l
      (t :: l', w)

/-- The loop of `task_futex_requeue`: the tasks it leaves, the waits it ends, and how many it moved. -/
def requeueLoop (oldKey newKey : Nat) (target : Nat × Nat) :
    Nat → Nat → List Task → List Task × List Nat × Nat
  | _, _, [] => ([], [], 0)
  | w, r, t :: l =>
    if t.queue = some oldKey then
      match w, r with
      | w + 1, r =>
        let (l', ended, moved) := requeueLoop oldKey newKey target w r l
        (release t :: l', t.call :: ended, moved)
      | 0, r + 1 =>
        let (l', ended, moved) := requeueLoop oldKey newKey target 0 r l
        ({ t with queue := some newKey, target := target } :: l', ended, moved + 1)
      | 0, 0 =>
        let (l', ended, moved) := requeueLoop oldKey newKey target 0 0 l
        (t :: l', ended, moved)
    else
      let (l', ended, moved) := requeueLoop oldKey newKey target w r l
      (t :: l', ended, moved)

end Wakes

section Calls

/-- The futex calls, and the exit with `clear_child_tid`. -/
inductive Call
  | wait (addr : Nat) (expected : Int) (ticks : Nat) (bitset : BitVec 32)
  | wake (addr : Nat) (count : Int) (bitset : BitVec 32)
  | requeue (addr addr2 : Nat) (wakeCount requeueCount : Int)
  | exit (clearTid : Option Nat)

abbrev Result : Type := Except Errno Nat

/-- A section ends at the next one or with the result of the call. -/
inductive Next
  | at (pc : Pc)
  | done (r : Result)

/-- `futex_get_key` -/
def futexGetKey (m : Tables) (space addr : Nat) : Except Errno Nat :=
  if addr < 0x1000 ∨ kernelVma ≤ addr ∨ addr % 4 ≠ 0 then .error .inval
  else match m.key space addr with
    | none => .error .fault
    | some k => .ok k

/-- A call up to its first section; the exit takes the key of `clear_child_tid` unchecked. -/
def Call.enter (m : Tables) (space : Nat) : Call → Next
  | .wait addr expected ticks bitset =>
    match futexGetKey m space addr with
    | .error e => .done (.error e)
    | .ok k =>
      if bitset = 0 then .done (.error .inval) else .at (.enter addr k expected ticks bitset)
  | .wake addr count bitset =>
    match futexGetKey m space addr with
    | .error e => .done (.error e)
    | .ok k => if bitset = 0 then .done (.error .inval) else .at (.wake addr k count bitset false)
  | .requeue addr addr2 wakeCount requeueCount =>
    match futexGetKey m space addr with
    | .error e => .done (.error e)
    | .ok k => .at (.second addr k addr2 wakeCount requeueCount)
  | .exit none => .at .die
  | .exit (some addr) => .at (.clear addr (m.key space addr))

/-- A page of an address space is written. -/
def Tables.write (m : Tables) (space page : Nat) (fresh : Option Nat) : Tables :=
  match m space page with
  | some e => m.set space page (e.written fresh)
  | none => m

/-- The caller goes on the queue of a key, with a sleep unless it waits forever. -/
def Task.enqueue (t : Task) (addr key ticks : Nat) (bitset : BitVec 32) (call : Nat) : Task :=
  { t with
    queue := some key
    bitset
    state := .blocked
    inSleepQueue := ticks ≠ ticksForever
    call
    target := (t.space, addr) }

/-- The caller runs again and is on no queue. -/
def Task.dequeue (t : Task) : Task :=
  { t with queue := none, bitset := 0, inSleepQueue := false, state := .running }

/-- The next section of a task; `value` is what the futex word holds (`none` on a fault), `signal` says
whether a signal is pending, and `fresh` is the frame a write fault allocates. -/
def Sched.pass (s : Sched) (t : Task) (value : Option Int) (signal : Bool) (fresh : Option Nat) :
    Pc → Sched × Task × Next
  | .idle => (s, t, .at .idle)
  | .enter addr key expected ticks bitset =>
    match value with
    | none => (s, t, .done (.error .fault))
    | some v =>
      if v ≠ expected then (s, t, .done (.error .again))
      else if ticks = 0 then (s, t, .done (.error .timedOut))
      else if t.queue.isSome then (s, t, .done (.error .again))
      else
        ({ s with nextCall := s.nextCall + 1 }, t.enqueue addr key ticks bitset s.nextCall, .at .asleep)
  | .asleep => (s, t.dequeue, .at (.check t.queue.isSome))
  | .check timedOut =>
    if signal then (s, t, .done (.error .intr))
    else if timedOut then (s, t, .done (.error .timedOut))
    else ({ s with zero := t.call :: s.zero }, t, .done (.ok 0))
  | .wake _ key count bitset dying =>
    if count < 0 then (s, t, .done (.error .inval))
    else
      let (l, ended) := wakeLoop key bitset count.toNat s.all
      ({ s with all := l, counted := ended ++ s.counted }, t,
        if dying then .at .die else .done (.ok ended.length))
  | .second addr key addr2 wakeCount requeueCount =>
    match futexGetKey s.pages t.space addr2 with
    | .error e => (s, t, .done (.error e))
    | .ok key2 => (s, t, .at (.requeue addr key addr2 key2 wakeCount requeueCount))
  | .requeue _ key addr2 key2 wakeCount requeueCount =>
    if wakeCount < 0 ∨ requeueCount < 0 then (s, t, .done (.error .inval))
    else
      let (l, ended, moved) :=
        requeueLoop key key2 (t.space, addr2) wakeCount.toNat requeueCount.toNat s.all
      ({ s with all := l, counted := ended ++ s.counted }, t, .done (.ok (ended.length + moved)))
  | .clear addr key =>
    ({ s with pages := s.pages.write t.space (addr / pageSize) fresh }, t,
      .at (key.elim .die fun k => .wake addr k 1 (BitVec.allOnes 32) true))
  | .die => (s, { t with queue := none, inSleepQueue := false, state := .dead }, .done (.ok 0))

end Calls

section Steps

/-- One step of the machine: a task makes a call or passes its next section, its sleep ends, it is
woken out of its wait (by a signal or a debugger), a page is written or reclaimed, or a thread or a
process is made. -/
inductive Action
  | call (p : Nat) (c : Call)
  | go (p : Nat) (value : Option Int) (signal : Bool) (fresh : Option Nat)
  | timeout (p : Nat)
  | interrupt (p : Nat)
  | write (space page : Nat) (fresh : Option Nat)
  | readFault (space page : Nat) (e : Pte)
  | reclaim (space page zeroPage : Nat)
  | fork (space child : Nat)
  | spawn (id space : Nat)

def Sched.find (s : Sched) (p : Nat) : Option Task := Keyed.find Task.id s.all p

def Sched.update (s : Sched) (p : Nat) (f : Task → Task) : Sched :=
  { s with all := Keyed.update Task.id s.all p f }

/-- `wake_task` -/
def wakeTask (t : Task) : Task := if t.state = .blocked then release t else t

/-- The expiry of a timed sleep in `wake_sleeping_tasks_locked`. -/
def expire (t : Task) : Task :=
  if t.inSleepQueue then markReady { t with inSleepQueue := false } else t

def newTask (id space : Nat) : Task where
  id := id
  space := space
  pc := .idle
  state := .ready
  queue := none
  bitset := 0
  inSleepQueue := false
  call := 0
  target := (0, 0)

/-- The task comes back from its section. -/
def Sched.put (s : Sched) (t : Task) : Next → Sched × Option (Nat × Result)
  | .at pc => (s.update t.id fun _ => { t with pc }, none)
  | .done r => (s.update t.id fun _ => { t with pc := .idle }, some (t.id, r))

def Sched.step (s : Sched) : Action → Sched × Option (Nat × Result)
  | .call p c =>
    match s.find p with
    | none => (s, none)
    | some t =>
      if t.pc = .idle ∧ t.state ≠ .dead then s.put t (c.enter s.pages t.space) else (s, none)
  | .go p value signal fresh =>
    match s.find p with
    | none => (s, none)
    | some t =>
      if t.pc = .idle ∨ t.state = .blocked ∨ t.state = .dead then (s, none)
      else
        let (s', t', next) := s.pass t value signal fresh t.pc
        s'.put t' next
  | .timeout p => (s.update p expire, none)
  | .interrupt p => (s.update p wakeTask, none)
  | .write space page fresh => ({ s with pages := s.pages.write space page fresh }, none)
  | .readFault space page e =>
    match s.pages space page with
    | none => ({ s with pages := s.pages.set space page e }, none)
    | some _ => (s, none)
  | .reclaim space page zeroPage =>
    match s.pages space page with
    | none => (s, none)
    | some e => ({ s with pages := s.pages.set space page (e.reclaim zeroPage) }, none)
  | .fork space child =>
    if ∃ t ∈ s.all, t.space = child then (s, none)
    else
      ({ s with pages := fun sp pg =>
          if sp = child ∨ sp = space then (s.pages space pg).map Pte.forked else s.pages sp pg }, none)
  | .spawn id space =>
    match s.find id with
    | none => ({ s with all := newTask id space :: s.all }, none)
    | some _ => (s, none)

def Sched.next (s : Sched) (a : Action) : Sched := (s.step a).1

end Steps

end Lebirun.Futex
