import Mathlib
import Lebirun.Lib.Run
import Lebirun.Lib.Threads
import Lebirun.Vfs.Path

namespace Lebirun.Vfs
open Machine
set_option autoImplicit true

/-- What an in-use entry of a mount table names; `hasUnmount` says whether its file system type has an
`unmount` function. -/
structure MountEntry (Node : Type*) where
  path : Text
  device : Text
  root : Node
  hasUnmount : Bool
  deriving DecidableEq

/-- A slot of a table, in use when it has an entry. `covered` is kept when the slot falls free. -/
structure Slot (Node : Type*) where
  entry : Option (MountEntry Node)
  covered : Option Node
  deriving DecidableEq

def Slot.free : Slot Node := ⟨none, none⟩

/-- `struct vfs_mnt_ns`, not the initial one unless its number is 0. -/
structure Ns (Node : Type*) where
  mounts : List (Slot Node)
  refs : Int
  deriving DecidableEq

structure NodeState (Node : Type*) where
  mountpoint : Bool
  ptr : Option Node
  refCount : Nat
  deriving DecidableEq

/-- Namespaces by number, `mnt_ns` of each task, and the vfs nodes. `alive` marks the roots of file
systems that were mounted and not unmounted since. -/
structure MountState (Task Node : Type*) where
  nss : Nat → Option (Ns Node)
  nextNs : Nat
  tasks : Task → Option Nat
  nodes : Node → NodeState Node
  alive : Node → Bool

section Slots

variable {Node : Type*}

/-- The first free slot, in a table grown by one when there is none. -/
def claimSlot (grows : Bool) (mounts : List (Slot Node)) : Option (List (Slot Node) × Nat) :=
  match mounts.findIdx? fun sl => sl.entry.isNone with
  | some i => some (mounts, i)
  | none => if grows then some (mounts ++ [Slot.free], mounts.length) else none

/-- The entry in use in a slot of a list, with the node it covers. -/
def usedIn (mounts : List (Slot Node)) (i : Nat) : Option (MountEntry Node × Option Node) :=
  mounts[i]?.bind fun sl => sl.entry.map (·, sl.covered)

theorem usedIn_some : usedIn mounts i = some (e, c) ↔
    mounts[i]? = some (⟨some e, c⟩ : Slot Node) := by
  unfold usedIn
  cases h : mounts[i]? with
  | none => simp
  | some sl =>
    obtain ⟨entry, covered⟩ := sl
    cases entry <;> simp

theorem usedIn_set_free {mounts : List (Slot Node)} :
    usedIn (mounts.set i ⟨none, c⟩) j = if j = i then none else usedIn mounts j := by
  unfold usedIn
  rw [List.getElem?_set]
  by_cases h : i = j
  · subst h
    by_cases hl : i < mounts.length <;> simp [hl]
  · simp [h, Ne.symm h]

theorem usedIn_set {mounts : List (Slot Node)} (hi : i < mounts.length) :
    usedIn (mounts.set i ⟨some e, c⟩) j = if j = i then some (e, c) else usedIn mounts j := by
  unfold usedIn
  rw [List.getElem?_set]
  by_cases h : i = j
  · subst h
    simp [hi]
  · simp [h, Ne.symm h]

/-- The claimed slot is free; the entries in use stay where they are. -/
theorem claimSlot_some {mounts : List (Slot Node)} (h : claimSlot grows mounts = some (mounts', i)) :
    (∃ c, mounts'[i]? = some ⟨none, c⟩) ∧ (∀ j, usedIn mounts' j = usedIn mounts j) ∧
      ∀ sl ∈ mounts', sl ∈ mounts ∨ sl = Slot.free := by
  unfold claimSlot at h
  cases hf : mounts.findIdx? fun sl => sl.entry.isNone with
  | some k =>
    simp only [hf, Option.some.injEq, Prod.mk.injEq] at h
    obtain ⟨rfl, rfl⟩ := h
    obtain ⟨hk, hfree, -⟩ := List.findIdx?_eq_some_iff_getElem.mp hf
    refine ⟨⟨mounts[k].covered, ?_⟩, fun _ => rfl, fun sl hsl => .inl hsl⟩
    rw [List.getElem?_eq_getElem hk]
    have hnone : mounts[k].entry = none := Option.isNone_iff_eq_none.mp hfree
    rw [← hnone]
  | none =>
    simp only [hf, Option.ite_none_right_eq_some, Option.some.injEq, Prod.mk.injEq] at h
    obtain ⟨-, rfl, rfl⟩ := h
    refine ⟨⟨none, by simp [Slot.free]⟩, ?_, ?_⟩
    · intro j
      unfold usedIn
      by_cases hj : j < mounts.length
      · rw [List.getElem?_append_left hj]
      · have hnone : mounts[j]? = none := List.getElem?_eq_none (by omega)
        rw [List.getElem?_append_right (by omega), hnone]
        cases hd : j - mounts.length with
        | zero => simp [Slot.free]
        | succ d => simp
    · intro sl hsl
      obtain hsl | hsl := List.mem_append.mp hsl
      · exact .inl hsl
      · exact .inr (List.mem_singleton.mp hsl)

end Slots

section Model

variable {Task Node : Type*}

/-- The number of `vfs_init_ns`. -/
abbrev initNs : Nat := 0

def MountState.taskNs (s : MountState Task Node) (t : Task) : Nat := (s.tasks t).getD initNs

def MountState.setMounts (s : MountState Task Node) (id : Nat) (mounts : List (Slot Node)) :
    MountState Task Node :=
  { s with nss := Function.update s.nss id ((s.nss id).map fun ns => { ns with mounts := mounts }) }

def MountState.mountsOf (s : MountState Task Node) (id : Nat) : List (Slot Node) :=
  ((s.nss id).map Ns.mounts).getD []

def MountState.used (s : MountState Task Node) (id i : Nat) :
    Option (MountEntry Node × Option Node) :=
  usedIn (s.mountsOf id) i

/-- The node leads lookups to the root of a live mount. -/
def MountState.Redirected (s : MountState Task Node) (n : Node) : Prop :=
  (s.nodes n).mountpoint = true ∧ ∃ r, (s.nodes n).ptr = some r ∧ s.alive r = true

def MountState.Covered (s : MountState Task Node) (n : Node) : Prop :=
  ∃ id i e, s.used id i = some (e, some n)

/-- No entry names a file system that was unmounted, and the redirected nodes are the covered ones. -/
structure MountsSound (s : MountState Task Node) : Prop where
  rootsAlive : ∀ id i e c, s.used id i = some (e, c) → s.alive e.root = true
  redirected : ∀ n, s.Redirected n ↔ s.Covered n

/-- Every mount table and the flags, `ptr` and `ref_count` of every node are the same. -/
def SameMounts (s s' : MountState Task Node) : Prop :=
  (∀ id i, s'.used id i = s.used id i) ∧ s'.nodes = s.nodes

theorem mountsOf_setMounts {s : MountState Task Node} {id id' : Nat} (h : (s.nss id).isSome) :
    (s.setMounts id mounts).mountsOf id' = if id' = id then mounts else s.mountsOf id' := by
  obtain ⟨ns, hns⟩ := Option.isSome_iff_exists.mp h
  unfold MountState.mountsOf MountState.setMounts
  by_cases hid : id' = id
  · subst hid
    simp [hns]
  · simp [hid]

theorem used_setMounts {s : MountState Task Node} {id id' : Nat} (h : (s.nss id).isSome) :
    (s.setMounts id mounts).used id' i =
      if id' = id then usedIn mounts i else s.used id' i := by
  unfold MountState.used
  rw [mountsOf_setMounts h]
  split <;> rfl

/-- Storing a slot that is in use. -/
theorem used_setSlot {s : MountState Task Node} {id id' : Nat} (h : (s.nss id).isSome)
    (hi : i < (s.mountsOf id).length) :
    (s.setMounts id ((s.mountsOf id).set i ⟨some e, c⟩)).used id' j =
      if id' = id ∧ j = i then some (e, c) else s.used id' j := by
  rw [used_setMounts h]
  by_cases hid : id' = id
  · subst hid
    simp only [if_true, true_and, usedIn_set hi]
    rfl
  · simp [hid]

theorem used_freeSlot {s : MountState Task Node} {id id' : Nat} (h : (s.nss id).isSome) :
    (s.setMounts id ((s.mountsOf id).set i ⟨none, c⟩)).used id' j =
      if id' = id ∧ j = i then none else s.used id' j := by
  rw [used_setMounts h]
  by_cases hid : id' = id
  · subst hid
    simp only [if_true, true_and, usedIn_set_free]
    rfl
  · simp [hid]

theorem mountsOf_congr {s s' : MountState Task Node} {id : Nat} (h : s'.nss = s.nss) :
    s'.mountsOf id = s.mountsOf id := by
  unfold MountState.mountsOf
  rw [h]

theorem used_congr {s s' : MountState Task Node} {id : Nat} (h : s'.nss = s.nss) :
    s'.used id i = s.used id i := by
  unfold MountState.used
  rw [mountsOf_congr h]

variable [DecidableEq Task] [DecidableEq Node]

/-- The arguments of `vfs_mount_flags` and what it learns on the way: the type found (with or without an
`unmount` function), whether the table grows, the strings are copied and the file system mounts, what
`vfs_namei(mountpoint)` gives, and whether the root's name and the parent's path are allocated. -/
structure MountCall (Node : Type*) where
  device : Option Text
  mountpoint : Text
  fsType : Option Bool
  grows : Bool
  strings : Bool
  root : Option Node
  existing : Option Node
  nameSet : Bool
  pathMem : Bool

def MountEntry.conflicts (c : MountCall Node) (e : MountEntry Node) : Bool :=
  (c.device.any fun d => d.head? = some '/' && e.device = d) || e.path = c.mountpoint

def busy (c : MountCall Node) (mounts : List (Slot Node)) : Bool :=
  mounts.any fun sl => sl.entry.any (MountEntry.conflicts c)

/-- The last component of the mount point, which becomes the root's name. -/
def MountCall.baseName (c : MountCall Node) : Text :=
  ((c.mountpoint.reverse.dropWhile (· = '/')).takeWhile (· ≠ '/')).reverse

def MountCall.named (c : MountCall Node) : Bool :=
  c.mountpoint.head? = some '/' && c.mountpoint ≠ ['/'] && c.baseName ≠ []

/-- The root's name or the parent's path is not allocated. -/
def MountCall.lateFails (c : MountCall Node) : Bool := c.named && !(c.nameSet && c.pathMem)

/-- The node redirected by a mount of `root` with `existing` at its path. -/
def redirect (vfsRoot root : Node) (existing : Option Node) (nodes : Node → NodeState Node) :
    Node → NodeState Node :=
  match existing with
  | none => nodes
  | some n =>
    if n ≠ vfsRoot then
      Function.update nodes n ⟨true, some root, (nodes n).refCount + 1⟩
    else Function.update nodes root ⟨true, some n, (nodes root).refCount⟩

/-- `covered` of the slot after a mount with `existing` at its path. -/
def coverOf (vfsRoot : Node) (existing covered : Option Node) : Option Node :=
  match existing with
  | none => covered
  | some n => if n ≠ vfsRoot then some n else covered

/-- `vfs_mount_flags` from the mounted root on. The slot is in use before the name and the path are
allocated; a failure there frees it and unmounts, and leaves the redirected node as it is. -/
def mountRoot (vfsRoot : Node) (s : MountState Task Node) (id i : Nat) (root : Node)
    (hasUnmount : Bool) (c : MountCall Node) : Int × MountState Task Node :=
  let mounts := s.mountsOf id
  let covered := coverOf vfsRoot c.existing ((mounts[i]?.map Slot.covered).getD none)
  let s := { s with nodes := redirect vfsRoot root c.existing s.nodes }
  if c.lateFails then
    (-1, { s.setMounts id (mounts.set i ⟨none, covered⟩) with
      alive := Function.update s.alive root !hasUnmount })
  else
    (0, { s.setMounts id (mounts.set i
        ⟨some ⟨c.mountpoint, c.device.getD [], root, hasUnmount⟩, covered⟩) with
      alive := Function.update s.alive root true })

def vfsMountFlags (vfsRoot : Node) (s : MountState Task Node) (t : Task) (c : MountCall Node) :
    Int × MountState Task Node :=
  let id := s.taskNs t
  if busy c (s.mountsOf id) then (-1, s)
  else
    match c.fsType with
    | none => (-1, s)
    | some hasUnmount =>
      match claimSlot c.grows (s.mountsOf id) with
      | none => (-1, s)
      | some (mounts, i) =>
        let s := s.setMounts id mounts
        if !c.strings then (-1, s)
        else
          match c.root with
          | none => (-1, s)
          | some root => mountRoot vfsRoot s id i root hasUnmount c

/-- What `vfs_close` does to the count of a covered node. -/
def uncover (covered : Option Node) (nodes : Node → NodeState Node) : Node → NodeState Node :=
  match covered with
  | none => nodes
  | some n => Function.update nodes n ⟨false, none, (nodes n).refCount - 1⟩

def findMount (path : Text) (mounts : List (Slot Node)) : Option Nat :=
  mounts.findIdx? fun sl => sl.entry.any fun e => e.path = path

/-- `ret` is what the file system's `unmount` returns. -/
def vfsUnmount (s : MountState Task Node) (t : Task) (path : Text) (ret : Int) :
    Int × MountState Task Node :=
  let id := s.taskNs t
  let mounts := s.mountsOf id
  match findMount path mounts with
  | none => (-1, s)
  | some i =>
    match mounts[i]? with
    | some ⟨some e, covered⟩ =>
      if e.hasUnmount && ret ≠ 0 then (ret, s)
      else
        (0, { s.setMounts id (mounts.set i Slot.free) with
          nodes := uncover covered s.nodes
          alive := Function.update s.alive e.root false })
    | _ => (-1, s)

/-- One task's reference less; a namespace without any is freed, its entries with it. -/
def dropRef (s : MountState Task Node) (id : Nat) : MountState Task Node :=
  if id = initNs then s
  else
    let left := (s.nss id).bind fun ns =>
      if ns.refs - 1 ≤ 0 then none else some { ns with refs := ns.refs - 1 }
    { s with nss := Function.update s.nss id left }

/-- The slot that `vfs_unshare_ns` makes from an old one; the node it covers is not copied. -/
def copySlot (strings : Bool) (sl : Slot Node) : Slot Node :=
  match sl.entry with
  | none => Slot.free
  | some e => if strings then ⟨some e, none⟩ else Slot.free

/-- `mem` is the outcome of the allocations of the namespace and its table, `strings i` of the strings
of slot `i`. -/
def vfsUnshareNs (s : MountState Task Node) (t : Task) (mem : Bool) (strings : Nat → Bool) :
    Int × MountState Task Node :=
  if !mem then (-1, s)
  else
    let old := s.taskNs t
    let ns : Ns Node := ⟨(s.mountsOf old).mapIdx fun i sl => copySlot (strings i) sl, 1⟩
    (0, dropRef
      { s with
        nss := Function.update s.nss s.nextNs (some ns)
        nextNs := s.nextNs + 1
        tasks := Function.update s.tasks t (some s.nextNs) } old)

def vfsMntNsFork (s : MountState Task Node) (parent child : Task) : MountState Task Node :=
  let id := s.taskNs parent
  { s with
    tasks := Function.update s.tasks child (some id)
    nss := if id = initNs then s.nss
      else Function.update s.nss id ((s.nss id).map fun ns => { ns with refs := ns.refs + 1 }) }

def vfsMntNsRelease (s : MountState Task Node) (t : Task) : MountState Task Node :=
  match s.tasks t with
  | none => s
  | some id => dropRef { s with tasks := Function.update s.tasks t none } id

inductive MountOp (Task Node : Type*) where
  | mount (t : Task) (c : MountCall Node)
  | unmount (t : Task) (path : Text) (ret : Int)
  | unshare (t : Task) (mem : Bool) (strings : Nat → Bool)
  | fork (parent child : Task)
  | release (t : Task)

def namespaceStep (vfsRoot : Node) (s : MountState Task Node) : MountOp Task Node → MountState Task Node
  | .mount t c => (vfsMountFlags vfsRoot s t c).2
  | .unmount t path ret => (vfsUnmount s t path ret).2
  | .unshare t mem strings => (vfsUnshareNs s t mem strings).2
  | .fork parent child => vfsMntNsFork s parent child
  | .release t => vfsMntNsRelease s t

/-- The call gets as far as a mounted root. -/
def MountsRoot (s : MountState Task Node) (t : Task) (c : MountCall Node) (root : Node)
    (hasUnmount : Bool) : Prop :=
  busy c (s.mountsOf (s.taskNs t)) = false ∧ c.fsType = some hasUnmount ∧
    (claimSlot c.grows (s.mountsOf (s.taskNs t))).isSome ∧ c.strings ∧ c.root = some root

/-- No entry in use but the excepted one names `root`, and no node it covers leads there. -/
def RootUnused (s : MountState Task Node) (root : Node) : Prop :=
  ∀ id i e c, s.used id i = some (e, c) →
    e.root ≠ root ∧ ∀ n, c = some n → (s.nodes n).ptr ≠ some root

/-- No node but the excepted one leads to `root` without being covered. -/
def NoStale (s : MountState Task Node) (root : Node) (exempt : Option Node) : Prop :=
  ∀ n, some n ≠ exempt → (s.nodes n).mountpoint = true → (s.nodes n).ptr = some root → s.Covered n

/-- No node led to the new root before, but the one it is mounted on. The new root of the tree itself
leads to the old one. -/
def CoverOk (vfsRoot : Node) (s : MountState Task Node) (root : Node) : Option Node → Prop
  | none => NoStale s root none
  | some n =>
    if n ≠ vfsRoot then NoStale s root (some n)
    else NoStale s root (some root) ∧ (s.Covered root ↔ s.alive n = true ∨ n = root)

/-- A mount call that leaves the tables sound and, when it fails, everything as it was: it does not fail
after redirecting a node, and covers one as it should. -/
def MountOk (vfsRoot : Node) (s : MountState Task Node) (c : MountCall Node) (root : Node)
    (hasUnmount : Bool) : Prop :=
  if c.lateFails then
    c.existing = none ∧ if hasUnmount then RootUnused s root else NoStale s root none
  else CoverOk vfsRoot s root c.existing

/-- Unmounting the entry of a slot: no other entry names its root or covers its node, and no node
covered by another entry leads to its root. -/
def UnmountOk (s : MountState Task Node) (id i : Nat) (e : MountEntry Node) (c : Option Node) :
    Prop :=
  ∀ id' i' e' c', ¬ (id' = id ∧ i' = i) → s.used id' i' = some (e', c') →
    e'.root ≠ e.root ∧ ∀ n, c' = some n → c ≠ some n ∧ (s.nodes n).ptr ≠ some e.root

def LastRef (s : MountState Task Node) (id : Nat) : Prop :=
  id ≠ initNs ∧ ∃ ns, s.nss id = some ns ∧ ns.refs - 1 ≤ 0

/-- Dropping a reference does not free the entry of a node that no other namespace covers. -/
def DropOk (s : MountState Task Node) (id : Nat) : Prop :=
  LastRef s id → ∀ i e n, s.used id i = some (e, some n) →
    ∃ id' i' e', id' ≠ id ∧ s.used id' i' = some (e', some n)

/-- The condition on a step, in the state it finds. -/
def NamespaceOk (vfsRoot : Node) (s : MountState Task Node) : MountOp Task Node → Prop
  | .mount t c => ∀ root hasUnmount, MountsRoot s t c root hasUnmount → MountOk vfsRoot s c root hasUnmount
  | .unmount t path ret => ∀ i e c, findMount path (s.mountsOf (s.taskNs t)) = some i →
      s.used (s.taskNs t) i = some (e, c) → ¬ (e.hasUnmount = true ∧ ret ≠ 0) →
      UnmountOk s (s.taskNs t) i e c
  | .unshare t mem _ => mem = true → DropOk s (s.taskNs t)
  | .fork _ _ => True
  | .release t => ∀ id, s.tasks t = some id → DropOk s id

end Model

end Lebirun.Vfs
