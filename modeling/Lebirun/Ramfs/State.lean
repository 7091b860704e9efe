import Mathlib
import Lebirun.Lib.Table

namespace Lebirun.Ramfs
set_option autoImplicit true

abbrev Text := List Char

inductive Kind where
  | file
  | dir
  | symlink
  | fifo
  | socket
  deriving DecidableEq

/-- `ramfs_limits_t`, one for each tmpfs mount. -/
structure Limits where
  maxBytes : Nat
  maxInodes : Nat
  usedBytes : Nat
  usedInodes : Nat
  deriving DecidableEq

/-- The vfs node of an entry: its `ref_count`, and whether `VFS_EMBEDDED` is set. -/
structure VfsNode where
  refCount : Nat
  embedded : Bool
  deriving DecidableEq

/-- `ramfs_node_t`: one name, with the inode in the entry of the first name. `children` and `hardlinks`
are the linked lists from the entry on; `data` is the buffer, empty for NULL, with `data_capacity` its
length. -/
structure Entry where
  name : Text
  kind : Kind
  parent : Option Nat
  children : List Nat
  linkTarget : Option Nat
  hardlinks : List Nat
  limits : Option Nat
  vfsNode : Option VfsNode
  data : List UInt8
  length : Nat
  backing : List UInt8
  isMemfd : Bool
  seals : BitVec 32
  deriving DecidableEq

def Entry.capacity (e : Entry) : Nat := e.data.length

def Entry.refs (e : Entry) : Nat := e.vfsNode.elim 0 VfsNode.refCount

/-- What `ramfs_alloc_node` and `ramfs_set_node_name` make. -/
def Entry.new (name : Text) (kind : Kind) : Entry where
  name := name
  kind := kind
  parent := none
  children := []
  linkTarget := none
  hardlinks := []
  limits := none
  vfsNode := none
  data := []
  length := 0
  backing := []
  isMemfd := false
  seals := 0

/-- Entries and mount limits by number, never reused, and `ramfs_stats`. Not in the code: `origin`, the
inode that an entry was made for; `opens`, the `vfs_open`s of its node less the `vfs_close`s; `freed`,
the entries freed, latest first. -/
structure State where
  entries : Nat → Option Entry
  next : Nat
  roots : List Nat
  limits : Nat → Limits
  nextLimits : Nat
  totalSize : Nat
  usedSize : Nat
  fileCount : Nat
  dirCount : Nat
  origin : Nat → Nat
  opens : Nat → Nat
  freed : List Nat

namespace State

variable (s : State)

def par (i : Nat) : Option Nat := (s.entries i).bind Entry.parent

def kids (d : Nat) : List Nat := ((s.entries d).map Entry.children).getD []

def target (i : Nat) : Option Nat := (s.entries i).bind Entry.linkTarget

def later (t : Nat) : List Nat := ((s.entries t).map Entry.hardlinks).getD []

def kindOf (i : Nat) : Option Kind := (s.entries i).map Entry.kind

def refs (i : Nat) : Nat := (s.entries i).elim 0 Entry.refs

def embedded (i : Nat) : Bool := ((s.entries i).bind Entry.vfsNode).any VfsNode.embedded

def limitsOf (i : Nat) : Option Nat := (s.entries i).bind Entry.limits

/-- `ramfs_inode` -/
def inode (i : Nat) : Nat := (s.target i).getD i

end State

/-- 64-bit arithmetic on counters. -/
def add64 (a b : Nat) : Nat := (a + b) % 18446744073709551616

def sub64 (a b : Nat) : Nat := (18446744073709551616 + a - b) % 18446744073709551616

def Limits.fits (l : Limits) (bytes inodes : Nat) : Bool :=
  (inodes = 0 || (l.usedInodes < l.maxInodes && inodes ≤ l.maxInodes - l.usedInodes)) &&
    (bytes = 0 || (l.usedBytes ≤ l.maxBytes && bytes ≤ l.maxBytes - l.usedBytes))

def Limits.add (l : Limits) (bytes inodes : Nat) : Limits :=
  { l with
    usedBytes := min (add64 l.usedBytes bytes) l.maxBytes
    usedInodes := min (add64 l.usedInodes inodes) l.maxInodes }

/-- A refund that is too large leaves 0. -/
def Limits.sub (l : Limits) (bytes inodes : Nat) : Limits :=
  { l with usedBytes := l.usedBytes - bytes, usedInodes := l.usedInodes - inodes }

namespace State

variable (s : State)

/-- `ramfs_check_space` -/
def checkSpace (size : Nat) : Bool := s.usedSize ≤ s.totalSize && size ≤ s.totalSize - s.usedSize

def limitsFits (lim : Option Nat) (bytes inodes : Nat) : Bool :=
  lim.all fun l => (s.limits l).fits bytes inodes

def limitsAdd (lim : Option Nat) (bytes inodes : Nat) : State :=
  match lim with
  | none => s
  | some l => { s with limits := Function.update s.limits l ((s.limits l).add bytes inodes) }

def limitsSub (lim : Option Nat) (bytes inodes : Nat) : State :=
  match lim with
  | none => s
  | some l => { s with limits := Function.update s.limits l ((s.limits l).sub bytes inodes) }

/-- Bytes added to a buffer: the two statements that count them. -/
def charge (lim : Option Nat) (bytes : Nat) : State :=
  ({ s with usedSize := add64 s.usedSize bytes }).limitsAdd lim bytes 0

def refund (lim : Option Nat) (bytes : Nat) : State :=
  ({ s with usedSize := sub64 s.usedSize bytes }).limitsSub lim bytes 0

def modify (i : Nat) (f : Entry → Entry) : State := { s with entries := Table.modify s.entries i f }

/-- `ramfs_find_child` -/
def findChild (d : Nat) (name : Text) : Option Nat :=
  (s.kids d).find? fun i => (s.entries i).any fun e => e.name = name

/-- The entry at the end of a list of names from an entry. -/
def walk (d : Nat) : List Text → Option Nat
  | [] => some d
  | name :: names => (s.findChild d name).bind fun i => walk i names

/-- A new entry, the first child of `d`. -/
def addEntry (d : Nat) (e : Entry) : State :=
  { s with
    entries := Table.modify (Table.put s.entries s.next { e with parent := some d }) d
      fun de => { de with children := s.next :: de.children }
    next := s.next + 1
    origin := Function.update s.origin s.next (e.linkTarget.getD s.next) }

/-- `kfree` of an entry, its name, its vfs node and its data. -/
def freeEntry (i : Nat) : State :=
  { s with entries := Table.erase s.entries i, freed := i :: s.freed }

/-- `ramfs_destroy_entry_locked` of a first name, which stays while there are others. -/
def destroyInode (i : Nat) : State :=
  match s.entries i with
  | none => s
  | some e =>
    if e.hardlinks ≠ [] then s
    else if e.capacity = 0 then s.freeEntry i
    else (s.refund e.limits e.capacity).freeEntry i

/-- The first name is gone, there is no other and it is not open. -/
def lastUse (i : Nat) : Bool :=
  (s.entries i).any fun e => e.parent.isNone && e.hardlinks.isEmpty && e.refs = 0

/-- `ramfs_destroy_entry_locked` -/
def destroyEntry (i : Nat) : State :=
  match s.target i with
  | none => s.destroyInode i
  | some t =>
    let s := (s.modify t fun e => { e with hardlinks := e.hardlinks.erase i }).freeEntry i
    if s.lastUse t then s.destroyInode t else s

/-- The list surgery of unlink and rename. -/
def detach (d i : Nat) : State := s.modify d fun e => { e with children := e.children.erase i }

def uncount (kind : Kind) : State :=
  if kind = .dir then { s with dirCount := sub64 s.dirCount 1 }
  else { s with fileCount := sub64 s.fileCount 1 }

/-- `ramfs_dispose_removed_node_locked` -/
def disposeRemoved (i : Nat) : State :=
  match s.entries i with
  | none => s
  | some e =>
    let s := ((s.uncount e.kind).limitsSub e.limits 0 1).modify i fun e =>
      { e with parent := none, vfsNode := e.vfsNode.map fun v => { v with embedded := true } }
    if e.refs = 0 then s.destroyEntry i else s

end State

end Lebirun.Ramfs
