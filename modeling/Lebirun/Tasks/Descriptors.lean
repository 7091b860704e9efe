import Mathlib

namespace Lebirun.Tasks.Descriptors
set_option autoImplicit true

abbrev taskInitFds : Nat := 3
abbrev int32Max : Nat := 0x7FFFFFFF
abbrev positionEof : UInt64 := 0x8000000000000000
abbrev vfsOAccess : UInt64 := 3
abbrev vfsOWronly : UInt64 := 1
abbrev vfsOAppend : UInt64 := 0x400
abbrev vfsOCloexec : UInt64 := 0x80000

/-- `FD_TYPE_FILE` is 0, so a cleared entry has this type. -/
inductive FdType where
  | file
  | pipeR
  | pipeW
  | stdin
  | stdout
  | stderr
  | pipeRw
  | ptyMaster
  | ptySlave
  deriving DecidableEq

/-- A `task_fd_t`. `refCount` of a file is its position group: up to 1 it stands alone. No function
reads `opened`, the call of open it comes from, and `drawn`, which draw gave its group identifier. -/
structure Fd where
  inUse : Bool
  type : FdType
  node : Option Nat
  offset : UInt64
  flags : UInt64
  refCount : Nat
  opened : Nat
  drawn : Nat
  deriving DecidableEq

/-- What `memset` leaves. -/
def Fd.zero : Fd := ⟨false, .file, none, 0, 0, 0, 0, 0⟩

def Fd.std (type : FdType) : Fd := { Fd.zero with inUse := true, type := type, refCount := 1 }

/-- `task_fd_position_group_seq` and the number of identifiers drawn. -/
structure Groups where
  seq : Nat
  draws : Nat
  deriving DecidableEq

/-- The `fds` of all tasks; a table that is not allocated is empty. `opens` counts the calls of
open. -/
structure State where
  tasks : List (List Fd)
  groups : Groups
  opens : Nat

abbrev Slot := Nat × Nat

def State.at (s : State) (p : Slot) : Option Fd := s.tasks[p.1]?.bind fun fds => fds[p.2]?

def State.modify (s : State) (p : Slot) (f : Fd → Fd) : State :=
  { s with tasks := s.tasks.modify p.1 fun fds => fds.modify p.2 f }

/-- `task_init_fds`, with the outcome of its allocation. -/
def taskInit (grant : Bool) : List Fd := if grant then [.std .stdin, .std .stdout, .std .stderr] else []

def initial (grants : List Bool) : State := ⟨grants.map taskInit, ⟨1, 0⟩, 0⟩

/-- The identifier is an `int`; after the largest one comes 2. -/
def Groups.draw (g : Groups) : Groups :=
  let next := g.seq + 1
  ⟨if next > int32Max ∨ next ≤ 1 then 2 else next, g.draws + 1⟩

def taskFdPositionShare (g : Groups) (source copy : Fd) : Groups × Fd × Fd :=
  if source.type ≠ .file ∨ copy.type ≠ .file then (g, source, copy)
  else if source.refCount ≤ 1 then
    let g := g.draw
    (g, { source with refCount := g.seq, drawn := g.draws },
      { copy with refCount := g.seq, drawn := g.draws, offset := source.offset })
  else
    (g, source, { copy with refCount := source.refCount, drawn := source.drawn, offset := source.offset })

def taskFdPositionGet (fd : Fd) : UInt64 := fd.offset &&& ~~~positionEof

/-- The members of the group of `d`. -/
def inGroup (d e : Fd) : Bool := e.inUse && e.type == .file && e.refCount == d.refCount

def taskFdPositionSet (s : State) (p : Slot) (value : UInt64) : State :=
  match s.at p with
  | none => s
  | some d =>
    let s := s.modify p fun d => { d with offset := value }
    if d.type ≠ .file ∨ d.refCount ≤ 1 then s
    else
      { s with tasks := s.tasks.map fun fds => fds.map fun e =>
          if inGroup d e then { e with offset := value } else e }

def taskFdPositionAdd (s : State) (p : Slot) (value : UInt64) : State :=
  match s.at p with
  | none => s
  | some d => taskFdPositionSet s p (taskFdPositionGet d + value)

def taskFdPositionMarkEof (s : State) (p : Slot) : State :=
  match s.at p with
  | none => s
  | some d => taskFdPositionSet s p (taskFdPositionGet d ||| positionEof)

/-- The doubling loop of `task_fd_ensure_capacity`. -/
def fdNewCapacity (limit minFd : Nat) : Nat → Nat → Option Nat
  | 0, _ => none
  | fuel + 1, newCap =>
    if newCap ≤ minFd then
      if newCap ≥ limit then none
      else
        let newCap := if newCap > 0x3FFFFFFF then minFd + 1 else newCap * 2
        fdNewCapacity limit minFd fuel (if newCap > limit then limit else newCap)
    else some newCap

/-- What an allocation finds: the limit on open files and whether memory is granted. -/
structure Room where
  rlimit : Nat
  grant : Bool

/-- The table with room for `minFd`. -/
def taskFdEnsureCapacity (room : Room) (fds : List Fd) (minFd : Nat) : Option (List Fd) :=
  let limit := if room.rlimit > int32Max then int32Max else room.rlimit
  if fds = [] then none
  else if minFd ≥ limit then none
  else if minFd < fds.length then some fds
  else
    match fdNewCapacity limit minFd 32 (if fds.length < taskInitFds then taskInitFds else fds.length) with
    | none => none
    | some newCap =>
      if room.grant then some (fds ++ List.replicate (newCap - fds.length) Fd.zero) else none

def firstFree (fds : List Fd) (start : Nat) : Option Nat :=
  (List.range' start (fds.length - start)).find? fun i => fds[i]?.any fun d => !d.inUse

/-- A free entry at or after `start`, and the table it is in. -/
def fdAllocFrom (room : Room) (fds : List Fd) (start : Nat) : Option (Nat × List Fd) :=
  match firstFree fds start with
  | some i => some (i, fds)
  | none =>
    match taskFdEnsureCapacity room fds (if start ≥ fds.length then start else fds.length) with
    | none => none
    | some fds => (firstFree fds start).map fun i => (i, fds)

/-- The loop that rounds the new capacity; `newCap` turns are always enough. -/
def roundedCapacity (newCap : Nat) : Nat → Nat → Nat
  | 0, rounded => rounded
  | fuel + 1, rounded =>
    if rounded < newCap then roundedCapacity newCap fuel (rounded * 2) else rounded

/-- The last entries of a table, as far as they are unused, are given back. -/
def taskFdReclaimUnused (grant : Bool) (fds : List Fd) : List Fd :=
  if fds.length ≤ taskInitFds * 4 then fds
  else
    let used := (fds.reverse.dropWhile fun d => !d.inUse).length
    let newCap := if used ≤ taskInitFds then taskInitFds else used
    if newCap ≥ fds.length then fds
    else if newCap > fds.length / 2 then fds
    else
      let rounded := roundedCapacity newCap newCap taskInitFds
      if rounded ≥ fds.length then fds
      else if grant then fds.take rounded
      else fds

/-- The number of a descriptor that is in use. -/
def fdIndex (fds : List Fd) (fd : Int) : Option Nat :=
  if fd < 0 ∨ fd ≥ fds.length then none
  else if fds[fd.toNat]?.any Fd.inUse then some fd.toNat else none

/-- What `vfs_namei` leads open to: a file with its node and length, or a pipe or terminal. -/
inductive Opened where
  | file (node : Nat) (length : UInt64)
  | other (type : FdType) (h : type ≠ .file)

def sysOpen (s : State) (t : Nat) (found : Option Opened) (flags : UInt64) (room : Room) : State :=
  match s.tasks[t]?, found with
  | some fds, some found =>
    match fdAllocFrom room fds 0 with
    | none => s
    | some (i, fds) =>
      let fresh := { Fd.zero with inUse := true, refCount := 1, flags := flags, opened := s.opens }
      let fd :=
        match found with
        | .file node length =>
          { fresh with node := some node, offset := if flags &&& vfsOAppend ≠ 0 then length else 0 }
        | .other type _ => { fresh with type := type }
      { s with tasks := s.tasks.set t (fds.set i fd), opens := s.opens + 1 }
  | _, _ => s

/-- The copy of the entry `i` of a table at `j`, its references and its position shared. -/
def dupEntry (s : State) (t : Nat) (fds : List Fd) (i j : Nat) : State :=
  match fds[i]? with
  | none => s
  | some d =>
    let r := taskFdPositionShare s.groups d { d with refCount := 1, flags := d.flags &&& ~~~vfsOCloexec }
    { s with tasks := s.tasks.set t ((fds.set j r.2.2).set i r.2.1), groups := r.1 }

def sysDup (s : State) (t : Nat) (oldfd : Int) (room : Room) : State :=
  match s.tasks[t]? with
  | none => s
  | some fds =>
    match fdIndex fds oldfd, fdAllocFrom room fds 0 with
    | some i, some (j, fds) => dupEntry s t fds i j
    | _, _ => s

def sysDup2 (s : State) (t : Nat) (oldfd newfd : Int) (room : Room) : State :=
  match s.tasks[t]? with
  | none => s
  | some fds =>
    match fdIndex fds oldfd with
    | none => s
    | some i =>
      if newfd < 0 then s
      else
        let j := newfd.toNat
        match if j ≥ fds.length then taskFdEnsureCapacity room fds j else some fds with
        | none => s
        | some fds =>
          if oldfd = newfd then s
          else
            -- an entry in use is released first
            dupEntry s t (fds.set j Fd.zero) i j

/-- The copy of a table in fork: the entries of the parent and those of the child. -/
def forkFds : Groups → List Fd → Groups × List Fd × List Fd
  | g, [] => (g, [], [])
  | g, d :: l =>
    let r := if d.inUse ∧ d.type = .file ∧ d.node.isSome then taskFdPositionShare g d d else (g, d, d)
    let rest := forkFds r.1 l
    (rest.1, r.2.1 :: rest.2.1, r.2.2 :: rest.2.2)

/-- Where a fork ends: before the table is copied, after it (the child is taken apart again), or
with a child. -/
inductive ForkEnd where
  | early
  | late
  | child

def taskFork (s : State) (t : Nat) (fork : ForkEnd) : State :=
  match s.tasks[t]? with
  | none => s
  | some fds =>
    let r := forkFds s.groups fds
    let parent := { s with tasks := s.tasks.set t r.2.1, groups := r.1 }
    match fork with
    | .early => s
    | .late => parent
    | .child =>
      let child := r.2.2 ++ List.replicate (taskInitFds - fds.length) Fd.zero
      { parent with tasks := parent.tasks ++ [child] }

def sysVfsClose (s : State) (t : Nat) (fd : Int) (grant : Bool) : State :=
  match s.tasks[t]? with
  | none => s
  | some fds =>
    match fdIndex fds fd with
    | none => s
    | some i => { s with tasks := s.tasks.set t (taskFdReclaimUnused grant (fds.set i Fd.zero)) }

/-- A result of `vfs_read` or `vfs_write` and whether the copy from or to the caller succeeds. -/
structure Chunk where
  bytes : UInt64
  copied : Bool

/-- The loop of a read: the bytes read, or nothing when it returns an error before the offset is
moved. -/
def readLoop (work : UInt64) : List Chunk → UInt64 → UInt64 → Option UInt64
  | [], _, total => some total
  | c :: rest, remaining, total =>
    if remaining = 0 then some total
    else
      let chunk := if remaining > work then work else remaining
      if c.bytes ≥ 0x8000000000000000 ∧ total = 0 then none
      else
        let bytes := if c.bytes > chunk then 0 else c.bytes
        if bytes = 0 then some total
        else if ¬c.copied then none
        else if bytes < chunk then some (total + bytes)
        else readLoop work rest (remaining - bytes) (total + bytes)

/-- The loop of a write. -/
def writeLoop (work : UInt64) : List Chunk → UInt64 → UInt64 → Option UInt64
  | [], _, total => some total
  | c :: rest, remaining, total =>
    if remaining = 0 then some total
    else
      let chunk := if remaining > work then work else remaining
      if ¬c.copied then none
      else if c.bytes ≥ 0xFFFFFFFFFFFFF001 then none
      else if c.bytes = 0 then none
      else if c.bytes < chunk then some (total + c.bytes)
      else writeLoop work rest (remaining - c.bytes) (total + c.bytes)

/-- What a read or write meets: the buffer it works with, the length of the node and the results of
the file system; for a read also what a node with `VFS_USER_READ` returns and whether an input
device answers it. -/
structure Transfer where
  len : UInt64
  work : Option UInt64
  length : UInt64
  chunks : List Chunk
  userRead : Option UInt64
  device : Bool

/-- The entry of a file. -/
def fileAt (s : State) (t : Nat) (fd : Int) : Option (Slot × Fd) :=
  match s.tasks[t]? with
  | none => none
  | some fds =>
    match fdIndex fds fd with
    | none => none
    | some i =>
      match fds[i]? with
      | none => none
      | some d => if d.type = .file ∧ d.node.isSome then some ((t, i), d) else none

def sysRead (s : State) (t : Nat) (fd : Int) (x : Transfer) : State :=
  match fileAt s t fd with
  | none => s
  | some (p, d) =>
    if d.flags &&& vfsOAccess = vfsOWronly then s
    else
      match x.userRead, x.work with
      | some bytes, _ => if bytes ≥ 0x8000000000000000 then s else taskFdPositionAdd s p bytes
      | none, none => s
      | none, some work =>
        if d.offset &&& positionEof ≠ 0 then s
        else if x.length > 0 ∧ taskFdPositionGet d ≥ x.length then s
        else if x.device then s
        else
          match readLoop work x.chunks x.len 0 with
          | none => s
          | some total =>
            let s := taskFdPositionAdd s p total
            if x.length = 0 ∧ total < x.len then taskFdPositionMarkEof s p else s

def sysWrite (s : State) (t : Nat) (fd : Int) (x : Transfer) : State :=
  match fileAt s t fd, x.work with
  | some (p, d), some work =>
    if d.flags &&& vfsOAccess = 0 then s
    else
      let s := if d.flags &&& vfsOAppend ≠ 0 then taskFdPositionSet s p x.length else s
      match writeLoop work x.chunks x.len 0 with
      | none => s
      | some total => taskFdPositionAdd s p total
  | _, _ => s

/-- The base an offset counts from; `length` is that of the node. -/
def seekBase (d : Fd) (length : UInt64) (whence : Int) : Option Int :=
  if whence = 0 then some 0
  else if whence = 1 then
    if taskFdPositionGet d > 0x7FFFFFFFFFFFFFFF then none else some (taskFdPositionGet d).toNat
  else if whence = 2 then if length > 0x7FFFFFFFFFFFFFFF then none else some length.toNat
  else none

def sysLseekNew (s : State) (t : Nat) (fd offset whence : Int) (length : UInt64) : State :=
  match fileAt s t fd with
  | none => s
  | some (p, d) =>
    match seekBase d length whence with
    | none => s
    | some base =>
      if offset < -base then s
      else if offset > 0x7FFFFFFFFFFFFFFF - base then s
      else taskFdPositionSet s p (UInt64.ofNat (base + offset).toNat)

/-- A call of a task, with what it meets. -/
inductive Event where
  | open (t : Nat) (found : Option Opened) (flags : UInt64) (room : Room)
  | dup (t : Nat) (oldfd : Int) (room : Room)
  | dup2 (t : Nat) (oldfd newfd : Int) (room : Room)
  | fork (t : Nat) (fork : ForkEnd)
  | close (t : Nat) (fd : Int) (grant : Bool)
  | read (t : Nat) (fd : Int) (x : Transfer)
  | write (t : Nat) (fd : Int) (x : Transfer)
  | lseek (t : Nat) (fd offset whence : Int) (length : UInt64)

def step (s : State) : Event → State
  | .open t found flags room => sysOpen s t found flags room
  | .dup t oldfd room => sysDup s t oldfd room
  | .dup2 t oldfd newfd room => sysDup2 s t oldfd newfd room
  | .fork t fork => taskFork s t fork
  | .close t fd grant => sysVfsClose s t fd grant
  | .read t fd x => sysRead s t fd x
  | .write t fd x => sysWrite s t fd x
  | .lseek t fd offset whence length => sysLseekNew s t fd offset whence length

end Lebirun.Tasks.Descriptors
