import Mathlib.Logic.Function.Basic

namespace Lebirun.Pthread
open Function (update)
set_option autoImplicit true

section Tables

/-- `pthread_mutex_internal_t` but for its wait queue. -/
structure Mutex where
  inUse : Bool
  locked : Bool
  owner : Nat
  recursiveCount : Int

inductive Kind
  | mutex | cond
deriving DecidableEq

/-- The address of a wait queue: the array it lies in and its slot there. -/
structure WaitQueue where
  kind : Kind
  base : Nat
  slot : Nat
deriving DecidableEq

/-- Where a thread is in a call: about to make the step named. A condition variable after a mutex is
the one that `cond_wait` goes on with, and a base is that of an array whose entry was just addressed. -/
inductive Pc
  | idle
  | lock (m : Nat)
  | lockAdd (m base : Nat)
  | lockSleep (m : Nat)
  | tryLock (m : Nat)
  | lockTake (m : Nat)
  | lockAgain (m : Nat)
  | lockSet (m : Nat)
  | unlock (m : Nat) (c : Option Nat)
  | unlockDec (m : Nat) (c : Option Nat)
  | unlockTest (m : Nat) (c : Option Nat)
  | unlockFree (m : Nat) (c : Option Nat)
  | unlockWake (m base : Nat) (c : Option Nat)
  | condAdd (c base m : Nat)
  | condSleep (c m : Nat)
  | signal (c base : Nat)
  | broadcast (c base : Nat)
deriving DecidableEq

inductive Answer
  | ok | inval | busy | perm
deriving DecidableEq

/-- The object tables, the heads of the wait queues, and the threads. `holds` records who is between
a successful lock of a mutex and the release of it. -/
structure Kernel where
  mutexes : Nat → Mutex
  mutexBase : Nat
  mutexCapacity : Nat
  condInUse : Nat → Bool
  condBase : Nat
  condCapacity : Nat
  heads : WaitQueue → List Nat
  pcs : Nat → Pc
  blocked : Nat → Bool
  waitingQueue : Nat → Option WaitQueue
  holds : Nat → Nat → Bool

def Kernel.mutexQueue (s : Kernel) (m : Nat) : WaitQueue := ⟨.mutex, s.mutexBase, m⟩

def Kernel.condQueue (s : Kernel) (c : Nat) : WaitQueue := ⟨.cond, s.condBase, c⟩

end Tables

section Queues

/-- `waitq_add` for the calling thread. -/
def Kernel.waitqAdd (s : Kernel) (q : WaitQueue) (p : Nat) : Kernel :=
  if s.waitingQueue p = none then
    { s with
      heads := update s.heads q (p :: s.heads q)
      waitingQueue := update s.waitingQueue p (some q)
      blocked := update s.blocked p true }
  else s

/-- `waitq_wake_one` -/
def Kernel.waitqWakeOne (s : Kernel) (q : WaitQueue) : Kernel :=
  match s.heads q with
  | [] => s
  | p :: l =>
    { s with
      heads := update s.heads q l
      waitingQueue := update s.waitingQueue p none
      blocked := update s.blocked p false }

/-- `waitq_wake_all` -/
def Kernel.waitqWakeAll (s : Kernel) (q : WaitQueue) : Kernel :=
  { s with
    heads := update s.heads q []
    waitingQueue := fun p => if p ∈ s.heads q then none else s.waitingQueue p
    blocked := fun p => if p ∈ s.heads q then false else s.blocked p }

end Queues

section Steps

def Kernel.goTo (s : Kernel) (p : Nat) (pc : Pc) : Kernel := { s with pcs := update s.pcs p pc }

def Kernel.setMutex (s : Kernel) (m : Nat) (e : Mutex) : Kernel :=
  { s with mutexes := update s.mutexes m e }

def Kernel.setHolds (s : Kernel) (p m : Nat) (b : Bool) : Kernel :=
  { s with holds := update s.holds p (update (s.holds p) m b) }

/-- Whether the loop of `mutex_lock` waits. -/
def Mutex.taken (e : Mutex) (me : Nat) : Bool := e.locked ∧ e.owner ≠ me

def Mutex.mine (e : Mutex) (me : Nat) : Bool := e.locked ∧ e.owner = me

/-- After an unlock: the call ends, or `cond_wait` goes on. -/
def Kernel.unlocked (s : Kernel) (p m : Nat) : Option Nat → Kernel × Option Answer
  | none => (s.goTo p .idle, some .ok)
  | some c => (s.goTo p (.condAdd c s.condBase m), none)

/-- The next step of a thread: one evaluation of a condition on an entry, one group of assignments to
it, or one section on a wait queue. -/
def Kernel.go (s : Kernel) (p : Nat) : Kernel × Option Answer :=
  match s.pcs p with
  | .idle => (s, none)
  | .lock m =>
    if (s.mutexes m).taken p then (s.goTo p (.lockAdd m s.mutexBase), none)
    else (s.goTo p (.lockTake m), none)
  | .lockAdd m base => ((s.waitqAdd ⟨.mutex, base, m⟩ p).goTo p (.lockSleep m), none)
  | .lockSleep m => if s.blocked p then (s, none) else (s.goTo p (.lock m), none)
  | .tryLock m =>
    if (s.mutexes m).taken p then (s.goTo p .idle, some .busy) else (s.goTo p (.lockTake m), none)
  | .lockTake m =>
    if (s.mutexes m).mine p then (s.goTo p (.lockAgain m), none) else (s.goTo p (.lockSet m), none)
  | .lockAgain m =>
    ((s.setMutex m { s.mutexes m with recursiveCount := (s.mutexes m).recursiveCount + 1 }).goTo p
      .idle, some .ok)
  | .lockSet m =>
    (((s.setMutex m { s.mutexes m with locked := true, owner := p, recursiveCount := 1 }).setHolds p m
      true).goTo p .idle, some .ok)
  | .unlock m c =>
    if (s.mutexes m).mine p then (s.goTo p (.unlockDec m c), none) else (s.goTo p .idle, some .perm)
  | .unlockDec m c =>
    ((s.setMutex m { s.mutexes m with recursiveCount := (s.mutexes m).recursiveCount - 1 }).goTo p
      (.unlockTest m c), none)
  | .unlockTest m c =>
    if (s.mutexes m).recursiveCount = 0 then (s.goTo p (.unlockFree m c), none) else s.unlocked p m c
  | .unlockFree m c =>
    (((s.setMutex m { s.mutexes m with locked := false, owner := 0 }).setHolds p m false).goTo p
      (.unlockWake m s.mutexBase c), none)
  | .unlockWake m base c => (s.waitqWakeOne ⟨.mutex, base, m⟩).unlocked p m c
  | .condAdd c base m => ((s.waitqAdd ⟨.cond, base, c⟩ p).goTo p (.condSleep c m), none)
  | .condSleep _ m => if s.blocked p then (s, none) else (s.goTo p (.lock m), none)
  | .signal c base => ((s.waitqWakeOne ⟨.cond, base, c⟩).goTo p .idle, some .ok)
  | .broadcast c base => ((s.waitqWakeAll ⟨.cond, base, c⟩).goTo p .idle, some .ok)

inductive Call
  | lock (m : Nat)
  | tryLock (m : Nat)
  | unlock (m : Nat)
  | condWait (c m : Nat)
  | condSignal (c : Nat)
  | condBroadcast (c : Nat)

def Kernel.mutexOk (s : Kernel) (m : Nat) : Bool := m < s.mutexCapacity ∧ (s.mutexes m).inUse

def Kernel.condOk (s : Kernel) (c : Nat) : Bool := c < s.condCapacity ∧ s.condInUse c

/-- The checks of a call, and where it begins. -/
def Kernel.enter (s : Kernel) : Call → Option Pc
  | .lock m => if s.mutexOk m then some (.lock m) else none
  | .tryLock m => if s.mutexOk m then some (.tryLock m) else none
  | .unlock m => if s.mutexOk m then some (.unlock m none) else none
  | .condWait c m => if s.condOk c ∧ s.mutexOk m then some (.unlock m (some c)) else none
  | .condSignal c => if s.condOk c then some (.signal c s.condBase) else none
  | .condBroadcast c => if s.condOk c then some (.broadcast c s.condBase) else none

/-- `mutex_grow` and `cond_grow` are given where the array is afterwards. -/
inductive Action
  | call (p : Nat) (c : Call)
  | go (p : Nat)
  | growMutexes (base : Nat)
  | growConds (base : Nat)

/-- The heads of the queues of one table are copied, and new ones are empty. -/
def moveHeads (heads : WaitQueue → List Nat) (kind : Kind) (base capacity base' : Nat) :
    WaitQueue → List Nat :=
  fun q =>
    if q.kind = kind ∧ q.base = base' then
      if q.slot < capacity then heads ⟨kind, base, q.slot⟩ else []
    else heads q

def grown (capacity : Nat) : Nat := if capacity = 0 then 1 else 2 * capacity

def Kernel.step (s : Kernel) : Action → Kernel × Option Answer
  | .call p c =>
    if s.pcs p = .idle then
      match s.enter c with
      | some pc => (s.goTo p pc, none)
      | none => (s, some .inval)
    else (s, none)
  | .go p => s.go p
  | .growMutexes base =>
    ({ s with
      mutexes := fun m => if m < s.mutexCapacity then s.mutexes m else ⟨false, false, 0, 0⟩
      heads := moveHeads s.heads .mutex s.mutexBase s.mutexCapacity base
      mutexBase := base
      mutexCapacity := grown s.mutexCapacity }, none)
  | .growConds base =>
    ({ s with
      condInUse := fun c => c < s.condCapacity && s.condInUse c
      heads := moveHeads s.heads .cond s.condBase s.condCapacity base
      condBase := base
      condCapacity := grown s.condCapacity }, none)

def Kernel.next (s : Kernel) (a : Action) : Kernel := (s.step a).1

end Steps

end Lebirun.Pthread
