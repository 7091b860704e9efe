import Mathlib
import Lebirun.Lib.Run

namespace Lebirun.Ext4
open Machine
set_option autoImplicit true

abbrev Ino := BitVec 32

/-- An `ext4_inode_cache_t` over the contents `I` of an inode. -/
structure CachedInode (I : Type) where
  ino : Ino
  inode : I
  dirty : Bool
  refCount : BitVec 32
  deriving DecidableEq

/-- `inode_cache` with its count and capacity. `array` names the allocation the pointer stands
for; a new one has a new name. The slots between count and capacity are zero: growing clears
them and reclaiming leaves none. -/
structure InodeCache (I : Type) where
  array : Nat := 0
  slots : List (CachedInode I) := []
  capacity : Nat := 0

/-- The address `&inode_cache[index]` that `ext4_get_inode` returned for `ino`. -/
structure Handle where
  array : Nat
  index : Nat
  ino : Ino
  deriving DecidableEq

/-- What the block layer and the allocator answer during one call. -/
structure Outcomes (I : Type) where
  read : Ino → Option I
  write : Ino → Bool
  mem : Bool

variable {I : Type}

def zeroSlot [Inhabited I] : CachedInode I := { ino := 0, inode := default, dirty := false, refCount := 0 }

def ext4ReadInode (o : Outcomes I) (ino : Ino) : Option I := if ino = 0 then none else o.read ino

def ext4WriteInode (o : Outcomes I) (ino : Ino) : Bool := ino ≠ 0 && o.write ino

def findInodeCache (c : InodeCache I) (ino : Ino) : Option Nat :=
  c.slots.findIdx? fun s => s.ino = ino

def CachedInode.idle (s : CachedInode I) : Bool := s.refCount = 0 && !s.dirty

def CachedInode.writable (o : Outcomes I) (s : CachedInode I) : Bool :=
  s.refCount = 0 && s.dirty && ext4WriteInode o s.ino

abbrev UINT32_MAX : Nat := 2 ^ 32 - 1

def growInodeCache [Inhabited I] (o : Outcomes I) (c : InodeCache I) : Option (Nat × InodeCache I) :=
  if c.capacity > UINT32_MAX / 2 then none
  else if o.mem then
    some (c.slots.length,
      { array := c.array + 1
        slots := c.slots ++ [zeroSlot]
        capacity := if c.capacity = 0 then 1 else c.capacity * 2 })
  else none

def findFreeInodeCache [Inhabited I] (o : Outcomes I) (c : InodeCache I) : Option (Nat × InodeCache I) :=
  match c.slots.findIdx? CachedInode.idle with
  | some i => some (i, c)
  | none =>
    match c.slots.findIdx? (CachedInode.writable o) with
    | some i => some (i, { c with slots := c.slots.modify i fun s => { s with dirty := false } })
    | none =>
      if c.slots.length < c.capacity then
        some (c.slots.length, { c with slots := c.slots ++ [zeroSlot] })
      else growInodeCache o c

def ext4GetInode [Inhabited I] (o : Outcomes I) (c : InodeCache I) (ino : Ino) :
    Option Handle × InodeCache I :=
  match findInodeCache c ino with
  | some i =>
    (some ⟨c.array, i, ino⟩,
      { c with slots := c.slots.modify i fun s => { s with refCount := s.refCount + 1 } })
  | none =>
    match findFreeInodeCache o c with
    | none => (none, c)
    | some (i, c') =>
      match ext4ReadInode o ino with
      | none => (none, c')
      | some inode =>
        (some ⟨c'.array, i, ino⟩,
          { c' with
            slots := c'.slots.set i { ino := ino, inode := inode, dirty := false, refCount := 1 } })

/-- A write through a handle. One whose array is gone does not reach the cache. -/
def writeThrough (c : InodeCache I) (h : Handle) (f : CachedInode I → CachedInode I) :
    InodeCache I :=
  if h.array = c.array then { c with slots := c.slots.modify h.index f } else c

def ext4ReleaseInode (c : InodeCache I) (h : Handle) : InodeCache I :=
  writeThrough c h fun s => if s.refCount > 0 then { s with refCount := s.refCount - 1 } else s

/-- The holder changes the inode and calls `ext4_mark_inode_dirty`. -/
def ext4MarkInodeDirty (c : InodeCache I) (h : Handle) (inode : I) : InodeCache I :=
  writeThrough c h fun s => { s with inode := inode, dirty := true }

/-- `moved`: `krealloc` returned another address. When it fails the old array stays. -/
def ext4ReclaimInodes (moved : Bool) (c : InodeCache I) : InodeCache I :=
  if c.capacity = 0 then c
  else
    let kept := c.slots.filter fun s => !s.idle
    if kept = [] then { array := c.array + 1, slots := [], capacity := 0 }
    else
      { array := if moved then c.array + 1 else c.array
        slots := kept
        capacity := kept.length }

def ext4InvalidateInodeCache (c : InodeCache I) (ino : Ino) : InodeCache I :=
  match findInodeCache c ino with
  | none => c
  | some i =>
    { c with
      slots := c.slots.modify i fun s => { s with ino := 0, refCount := 0, dirty := false } }

/-- `found`: the inode whose bit the bitmap search sets. -/
def ext4AllocInode (c : InodeCache I) (found : Option Ino) : InodeCache I :=
  match found with
  | none => c
  | some ino => ext4InvalidateInodeCache c ino

def ext4SyncInodes (o : Outcomes I) : List (CachedInode I) → Bool × List (CachedInode I)
  | [] => (true, [])
  | s :: l =>
    if s.dirty && s.ino ≠ 0 then
      if ext4WriteInode o s.ino then
        ((ext4SyncInodes o l).1, { s with dirty := false } :: (ext4SyncInodes o l).2)
      else (false, s :: l)
    else ((ext4SyncInodes o l).1, s :: (ext4SyncInodes o l).2)

/-- `before` and `after`: the block, superblock and flush steps around `ext4_sync_inodes` all
succeed. -/
structure SyncOutcomes (I : Type) extends Outcomes I where
  before : Bool
  after : Bool
  moved : Bool

def ext4Sync (o : SyncOutcomes I) (c : InodeCache I) : InodeCache I :=
  if !o.before then c
  else
    let c' := { c with slots := (ext4SyncInodes o.toOutcomes c.slots).2 }
    if !(ext4SyncInodes o.toOutcomes c.slots).1 || !o.after then c'
    else ext4ReclaimInodes o.moved c'

/-- The cache and the handles that were got and not yet released. -/
structure Holders (I : Type) where
  cache : InodeCache I := {}
  held : List Handle := []

inductive InodeOp (I : Type) where
  | get (o : Outcomes I) (ino : Ino)
  | release (k : Nat)
  | markDirty (k : Nat) (inode : I)
  | alloc (found : Option Ino)
  | free (ino : Ino)
  | sync (o : SyncOutcomes I)
  | reclaim (moved : Bool)

def inodeStep [Inhabited I] (w : Holders I) : InodeOp I → Holders I
  | .get o ino =>
    { cache := (ext4GetInode o w.cache ino).2
      held := (ext4GetInode o w.cache ino).1.toList ++ w.held }
  | .release k =>
    match w.held[k]? with
    | some h => { cache := ext4ReleaseInode w.cache h, held := w.held.eraseIdx k }
    | none => w
  | .markDirty k inode =>
    match w.held[k]? with
    | some h => { w with cache := ext4MarkInodeDirty w.cache h inode }
    | none => w
  | .alloc found => { w with cache := ext4AllocInode w.cache found }
  -- `ext4_free_inode` ends like `ext4_alloc_inode`
  | .free ino => { w with cache := ext4InvalidateInodeCache w.cache ino }
  | .sync o => { w with cache := ext4Sync o w.cache }
  | .reclaim moved => { w with cache := ext4ReclaimInodes moved w.cache }

def inodeRun [Inhabited I] (ops : List (InodeOp I)) : Holders I := ops.foldl inodeStep {}

def InodeCache.inos (c : InodeCache I) : List Ino := c.slots.map CachedInode.ino

def InodeCache.refs (c : InodeCache I) : List (BitVec 32) := c.slots.map CachedInode.refCount

/-- The handle is the address of a live slot, and the slot is its inode's. -/
def Designates (c : InodeCache I) (h : Handle) : Prop :=
  h.array = c.array ∧ c.inos[h.index]? = some h.ino

/-- Each inode number has at most one slot; slots without an inode have number 0. -/
def OneSlot (c : InodeCache I) : Prop :=
  c.inos.Pairwise fun a b => a = b → a = 0

/-- `ext4_get_inode` finds no slot of the inode and none it may take, and the array is full and
is replaced. -/
def Grows (o : Outcomes I) (c : InodeCache I) (ino : Ino) : Prop :=
  (∀ s ∈ c.slots, s.ino ≠ ino ∧ s.idle = false ∧ s.writable o = false) ∧
    c.capacity ≤ c.slots.length ∧ c.capacity ≤ UINT32_MAX / 2 ∧ o.mem = true

/-- Nothing that `keep` would drop stands before the slot of a held handle. -/
def HeldInFront (keep : CachedInode I → Prop) (w : Holders I) : Prop :=
  ∀ h ∈ w.held, ∀ s ∈ w.cache.slots.take h.index, keep s

/-- The step neither replaces the array nor moves a slot under a held handle, does not give the
inode of one away, and no count of handles wraps. -/
def InodeOp.Sound (w : Holders I) : InodeOp I → Prop
  | .get o ino => (Grows o w.cache ino → w.held = []) ∧
      ∀ i, findInodeCache w.cache ino = some i → w.cache.refs[i]? ≠ some (BitVec.allOnes 32)
  | .alloc found => ∀ h ∈ w.held, found ≠ some h.ino
  | .free ino => ∀ h ∈ w.held, ino ≠ h.ino
  -- once the inodes are written only a slot without an inode is still dirty
  | .sync o => o.before = true → (ext4SyncInodes o.toOutcomes w.cache.slots).1 = true →
      o.after = true → HeldInFront (fun s => s.refCount ≠ 0 ∨ s.dirty = true ∧ s.ino = 0) w ∧
        (o.moved = true → w.held = [])
  | .reclaim moved => HeldInFront (fun s => s.refCount ≠ 0 ∨ s.dirty = true) w ∧
      (moved = true → w.held = [])
  | _ => True

/-- Held handles designate their slots, and each slot counts the handles held on it. -/
structure Valid (w : Holders I) : Prop where
  held : ∀ h ∈ w.held, Designates w.cache h
  counts : ∀ i r, w.cache.refs[i]? = some r → r.toNat = w.held.countP fun h => h.index = i
  one : OneSlot w.cache

theorem Valid.congr {w : Holders I} {c : InodeCache I} (h : Valid w)
    (ha : c.array = w.cache.array) (hi : c.inos = w.cache.inos) (hr : c.refs = w.cache.refs) :
    Valid { w with cache := c } where
  held x hx := by
    rw [Designates, ha, hi]
    exact h.held x hx
  counts i r hir := by
    rw [hr] at hir
    exact h.counts i r hir
  one := by
    rw [OneSlot, hi]
    exact h.one

theorem map_modify_of_eq {α β : Type} {f : α → α} {g : α → β} (hf : ∀ a, g (f a) = g a)
    (l : List α) (i : Nat) : (l.modify i f).map g = l.map g := by
  induction l generalizing i with
  | nil => cases i <;> rfl
  | cons a l ih =>
    cases i with
    | zero => simp [hf]
    | succ i => simp [ih]

theorem no_handle_of_ref_zero {w : Holders I} (h : Valid w) (hr : w.cache.refs[i]? = some 0) :
    ∀ x ∈ w.held, x.index ≠ i := by
  have h0 := h.counts i 0 hr
  intro x hx heq
  have := List.countP_eq_zero.mp h0.symm x hx
  simp [heq] at this

/-- The slot of an inode is found by its number. -/
theorem findInodeCache_some {c : InodeCache I} (h : findInodeCache c ino = some i) :
    c.inos[i]? = some ino := by
  obtain ⟨hi, hp, _⟩ := List.findIdx?_eq_some_iff_getElem.mp h
  rw [InodeCache.inos, List.getElem?_map, List.getElem?_eq_getElem hi]
  simpa using hp

theorem findInodeCache_none {c : InodeCache I} (h : findInodeCache c ino = none) :
    ∀ s ∈ c.slots, s.ino ≠ ino := by
  intro s hs
  have := List.findIdx?_eq_none_iff.mp h s hs
  simpa using this

theorem Valid.getCached {w : Holders I} (h : Valid w) (hf : findInodeCache w.cache ino = some i)
    (hr : w.cache.refs[i]? ≠ some (BitVec.allOnes 32)) :
    Valid
      { cache :=
          { w.cache with
            slots := w.cache.slots.modify i fun s => { s with refCount := s.refCount + 1 } }
        held := ⟨w.cache.array, i, ino⟩ :: w.held } := by
  have hinos : (w.cache.slots.modify i fun s =>
      ({ s with refCount := s.refCount + 1 } : CachedInode I)).map CachedInode.ino = w.cache.inos := by
    apply map_modify_of_eq
    intro s
    rfl
  constructor
  · intro x hx
    rw [Designates, InodeCache.inos, hinos]
    rcases List.mem_cons.mp hx with rfl | hx
    · exact ⟨rfl, findInodeCache_some hf⟩
    · exact h.held x hx
  · intro j r hj
    rw [InodeCache.refs, List.getElem?_map, List.getElem?_modify] at hj
    cases hs : w.cache.slots[j]? with
    | none => simp [hs] at hj
    | some s =>
      have hc := h.counts j s.refCount (by rw [InodeCache.refs, List.getElem?_map, hs]; rfl)
      simp only [hs, Option.map_eq_map, Option.map_some, Option.some.injEq] at hj
      rw [List.countP_cons]
      by_cases hij : i = j
      · subst hij
        rw [InodeCache.refs, List.getElem?_map, hs] at hr
        simp only [ite_true] at hj
        have hne : s.refCount ≠ BitVec.allOnes 32 := fun he => hr (by rw [← he]; rfl)
        have hlt : s.refCount.toNat ≠ 2 ^ 32 - 1 := by
          intro he
          apply hne
          apply BitVec.eq_of_toNat_eq
          rw [he, BitVec.toNat_allOnes]
        have := s.refCount.isLt
        rw [← hj, BitVec.toNat_add, ← hc]
        have hone : (1 : BitVec 32).toNat = 1 := rfl
        simp only [decide_true, ite_true, hone]
        omega
      · rw [if_neg hij] at hj
        rw [← hj, hc]
        simp [hij]
  · rw [OneSlot, InodeCache.inos, hinos]
    exact h.one

theorem pairwise_set {α : Type} {R : α → α → Prop} {l : List α} {x : α} (h : l.Pairwise R)
    (hx : ∀ a ∈ l, R a x ∧ R x a) (i : Nat) : (l.set i x).Pairwise R := by
  induction l generalizing i with
  | nil => exact .nil
  | cons a l ih =>
    obtain ⟨ha, hl⟩ := List.pairwise_cons.mp h
    cases i with
    | zero =>
      rw [List.set_cons_zero, List.pairwise_cons]
      exact ⟨fun b hb => (hx b (List.mem_cons_of_mem _ hb)).2, hl⟩
    | succ i =>
      rw [List.set_cons_succ, List.pairwise_cons]
      refine ⟨fun b hb => ?_, ih hl (fun b hb => hx b (List.mem_cons_of_mem _ hb)) i⟩
      rcases List.mem_or_eq_of_mem_set hb with hb | rfl
      · exact ha b hb
      · exact (hx a List.mem_cons_self).1

theorem set_of_getElem? {α : Type} {l : List α} {x : α} (h : l[i]? = some x) :
    l.set i x = l := by
  obtain ⟨hi, rfl⟩ := List.getElem?_eq_some_iff.mp h
  exact List.set_getElem_self hi

/-- A slot that no handle designates is rewritten. -/
theorem Valid.rewrite {w : Holders I} (h : Valid w) (hr : w.cache.refs[i]? = some 0)
    {s : CachedInode I} (hs : s.refCount = 0)
    (hx : ∀ a ∈ w.cache.inos, (a = s.ino → a = 0) ∧ (s.ino = a → s.ino = 0)) :
    Valid { w with cache := { w.cache with slots := w.cache.slots.set i s } } := by
  have hno := no_handle_of_ref_zero h hr
  constructor
  · intro x hx
    obtain ⟨ha, hi⟩ := h.held x hx
    refine ⟨ha, ?_⟩
    rw [InodeCache.inos, List.map_set, List.getElem?_set_ne (hno x hx).symm]
    exact hi
  · intro j r hj
    rw [InodeCache.refs, List.map_set, hs] at hj
    by_cases hij : i = j
    · subst hij
      have hlt : i < w.cache.refs.length := (List.getElem?_eq_some_iff.mp hr).1
      rw [List.getElem?_set_self (by exact hlt)] at hj
      cases hj
      exact h.counts i 0 hr
    · rw [List.getElem?_set_ne hij] at hj
      exact h.counts j r hj
  · rw [OneSlot, InodeCache.inos, List.map_set]
    exact pairwise_set h.one hx i

/-- A handle is taken on a slot that has none. -/
theorem Valid.take {w : Holders I} (h : Valid w) (hs : w.cache.slots[i]? = some s)
    (h0 : s.refCount = 0) :
    Valid
      { cache := { w.cache with slots := w.cache.slots.set i { s with refCount := 1 } }
        held := ⟨w.cache.array, i, s.ino⟩ :: w.held } := by
  have hlt : i < w.cache.slots.length := (List.getElem?_eq_some_iff.mp hs).1
  have hr : w.cache.refs[i]? = some 0 := by rw [InodeCache.refs, List.getElem?_map, hs, ← h0]; rfl
  have hino : w.cache.inos[i]? = some s.ino := by rw [InodeCache.inos, List.getElem?_map, hs]; rfl
  have hinos : (w.cache.slots.set i { s with refCount := 1 }).map CachedInode.ino =
      w.cache.inos := by
    rw [List.map_set]
    exact set_of_getElem? hino
  have hno := no_handle_of_ref_zero h hr
  constructor
  · intro x hx
    rw [Designates, InodeCache.inos, hinos]
    rcases List.mem_cons.mp hx with rfl | hx
    · exact ⟨rfl, hino⟩
    · exact h.held x hx
  · intro j r hj
    rw [InodeCache.refs, List.map_set] at hj
    rw [List.countP_cons]
    by_cases hij : i = j
    · subst hij
      rw [List.getElem?_set_self (by rwa [List.length_map])] at hj
      cases hj
      rw [← h.counts i 0 hr]
      simp
    · rw [List.getElem?_set_ne hij] at hj
      rw [h.counts j r hj]
      simp [hij]
  · rw [OneSlot, InodeCache.inos, hinos]
    exact h.one

theorem Valid.append {w : Holders I} [Inhabited I] (h : Valid w) (hc : w.held = [] ∨
    c.array = w.cache.array) (hs : c.slots = w.cache.slots ++ [zeroSlot]) :
    Valid { w with cache := c } := by
  have hinos : c.inos = w.cache.inos ++ [0] := by
    rw [InodeCache.inos, hs, List.map_append]
    rfl
  have hrefs : c.refs = w.cache.refs ++ [0] := by
    rw [InodeCache.refs, hs, List.map_append]
    rfl
  have hlt : ∀ x ∈ w.held, x.index < w.cache.inos.length := fun x hx =>
    (List.getElem?_eq_some_iff.mp (h.held x hx).2).1
  constructor
  · intro x hx
    rcases hc with hc | hc
    · rw [hc] at hx
      cases hx
    · rw [Designates, hc, hinos, List.getElem?_append_left (hlt x hx)]
      exact h.held x hx
  · intro i r hi
    rw [hrefs] at hi
    by_cases hlen : i < w.cache.refs.length
    · rw [List.getElem?_append_left hlen] at hi
      exact h.counts i r hi
    · rw [List.getElem?_append_right (Nat.le_of_not_lt hlen)] at hi
      have hr : r = 0 := by simpa using List.mem_of_getElem? hi
      have hlen' : w.cache.inos.length = w.cache.refs.length := by
        rw [InodeCache.inos, InodeCache.refs, List.length_map, List.length_map]
      have hcount : w.held.countP (fun x => x.index = i) = 0 := by
        apply List.countP_eq_zero.mpr
        intro x hx
        have := hlt x hx
        simp only [decide_eq_true_eq]
        omega
      rw [hr, hcount]
      rfl
  · rw [OneSlot, hinos, List.pairwise_append]
    refine ⟨h.one, List.pairwise_singleton _ _, ?_⟩
    intro a _ b hb heq
    rw [heq]
    exact List.mem_singleton.mp hb

/-- A slot that may be taken: no handle designates it, and the inode it is for has no slot. -/
theorem findFreeInodeCache_spec {w : Holders I} [Inhabited I] (h : Valid w)
    (hg : Grows o w.cache ino → w.held = []) (hn : ∀ s ∈ w.cache.slots, s.ino ≠ ino)
    (hf : findFreeInodeCache o w.cache = some (i, c)) :
    Valid { w with cache := c } ∧ c.refs[i]? = some 0 ∧ (ino ≠ 0 → ino ∉ c.inos) := by
  have hino : ino ∉ w.cache.inos := by
    intro hin
    obtain ⟨s, hs, he⟩ := List.mem_map.mp hin
    exact hn s hs he
  have hnew : ∀ c' : InodeCache I, c'.slots = w.cache.slots ++ [zeroSlot] →
      (w.held = [] ∨ c'.array = w.cache.array) →
      Valid { w with cache := c' } ∧ c'.refs[w.cache.slots.length]? = some 0 ∧
        (ino ≠ 0 → ino ∉ c'.inos) := by
    intro c' hs ha
    refine ⟨h.append ha hs, ?_, ?_⟩
    · rw [InodeCache.refs, List.getElem?_map, hs, List.getElem?_concat_length]
      rfl
    · intro h0 hin
      rw [InodeCache.inos, hs, List.map_append] at hin
      rcases List.mem_append.mp hin with hin | hin
      · exact hino hin
      · exact h0 (List.mem_singleton.mp hin)
  have href : ∀ j (hj : j < w.cache.slots.length), w.cache.slots[j].refCount = 0 →
      w.cache.refs[j]? = some 0 := by
    intro j hj h0
    rw [InodeCache.refs, List.getElem?_map, List.getElem?_eq_getElem hj, ← h0]
    rfl
  rw [findFreeInodeCache] at hf
  cases hidle : w.cache.slots.findIdx? CachedInode.idle with
  | some j =>
    rw [hidle] at hf
    cases hf
    obtain ⟨hj, hp, _⟩ := List.findIdx?_eq_some_iff_getElem.mp hidle
    have h0 : w.cache.slots[i].refCount = 0 := by
      simp only [CachedInode.idle, Bool.and_eq_true, decide_eq_true_eq] at hp
      exact hp.1
    exact ⟨h, href i hj h0, fun _ => hino⟩
  | none =>
    rw [hidle] at hf
    cases hwr : w.cache.slots.findIdx? (CachedInode.writable o) with
    | some j =>
      rw [hwr] at hf
      cases hf
      obtain ⟨hj, hp, _⟩ := List.findIdx?_eq_some_iff_getElem.mp hwr
      have h0 : w.cache.slots[i].refCount = 0 := by
        simp only [CachedInode.writable, Bool.and_eq_true, decide_eq_true_eq] at hp
        exact hp.1.1
      have hinos : ((w.cache.slots.modify i fun s =>
          ({ s with dirty := false } : CachedInode I)).map CachedInode.ino) = w.cache.inos := by
        apply map_modify_of_eq
        intro s
        rfl
      have hrefs : ((w.cache.slots.modify i fun s =>
          ({ s with dirty := false } : CachedInode I)).map CachedInode.refCount) =
          w.cache.refs := by
        apply map_modify_of_eq
        intro s
        rfl
      refine ⟨h.congr rfl hinos hrefs, ?_, fun _ => ?_⟩
      · rw [InodeCache.refs, hrefs]
        exact href i hj h0
      · rw [InodeCache.inos, hinos]
        exact hino
    | none =>
      simp only [hwr] at hf
      split at hf
      · cases hf
        exact hnew _ rfl (.inr rfl)
      · rename_i hfull
        rw [growInodeCache] at hf
        split at hf
        · cases hf
        · rename_i hcap
          split at hf
          · rename_i hmem
            cases hf
            refine hnew _ rfl (.inl (hg ⟨?_, Nat.le_of_not_lt hfull, Nat.le_of_not_lt hcap, hmem⟩))
            intro s hs
            exact ⟨hn s hs, by simpa using List.findIdx?_eq_none_iff.mp hidle s hs,
              by simpa using List.findIdx?_eq_none_iff.mp hwr s hs⟩
          · cases hf

theorem Valid.get {w : Holders I} [Inhabited I] (h : Valid w)
    (hs : (InodeOp.get o ino).Sound w) : Valid (inodeStep w (.get o ino)) := by
  obtain ⟨hg, hr⟩ := hs
  rw [inodeStep, ext4GetInode]
  cases hf : findInodeCache w.cache ino with
  | some i => exact h.getCached hf (hr i hf)
  | none =>
    cases hff : findFreeInodeCache o w.cache with
    | none => exact h
    | some p =>
      obtain ⟨i, c⟩ := p
      obtain ⟨hv, href, hnot⟩ := findFreeInodeCache_spec h hg (findInodeCache_none hf) hff
      cases hread : ext4ReadInode o ino with
      | none => exact hv
      | some inode =>
        have h0 : ino ≠ 0 := by
          intro h0
          rw [ext4ReadInode, if_pos h0] at hread
          cases hread
        have hlt : i < c.slots.length := by
          have := (List.getElem?_eq_some_iff.mp href).1
          rwa [InodeCache.refs, List.length_map] at this
        have hother : ∀ a ∈ c.inos, (a = ino → a = 0) ∧ (ino = a → ino = 0) := by
          intro a ha
          constructor
          · intro he
            exact absurd (he ▸ ha) (hnot h0)
          · intro he
            exact absurd (he ▸ ha) (hnot h0)
        have hnew := hv.rewrite (s := ⟨ino, inode, false, 0⟩) href rfl hother
        have htake := hnew.take (List.getElem?_set_self hlt) rfl
        simp only [List.set_set] at htake
        exact htake

theorem Valid.release {w : Holders I} [Inhabited I] (h : Valid w) (k : Nat) :
    Valid (inodeStep w (.release k)) := by
  rw [inodeStep]
  cases hk : w.held[k]? with
  | none => exact h
  | some x =>
    obtain ⟨hlt, rfl⟩ := List.getElem?_eq_some_iff.mp hk
    obtain ⟨harr, hino⟩ := h.held _ (List.getElem_mem hlt)
    have hperm := List.getElem_cons_eraseIdx_perm hlt
    have hcount : ∀ i, w.held.countP (fun y => y.index = i) =
        (w.held.eraseIdx k).countP (fun y => y.index = i) +
          if w.held[k].index = i then 1 else 0 := by
      intro i
      rw [← hperm.countP_eq, List.countP_cons]
      simp
    simp only [ext4ReleaseInode, writeThrough, harr, if_true]
    have hinos : ∀ f : CachedInode I → CachedInode I, (∀ s, (f s).ino = s.ino) →
        (w.cache.slots.modify w.held[k].index f).map CachedInode.ino = w.cache.inos :=
      fun f hf => map_modify_of_eq hf _ _
    constructor
    · intro y hy
      rw [Designates, InodeCache.inos, hinos _ (by intro s; split <;> rfl)]
      exact h.held y (List.mem_of_mem_eraseIdx hy)
    · intro i r hi
      rw [InodeCache.refs, List.getElem?_map, List.getElem?_modify] at hi
      cases hs : w.cache.slots[i]? with
      | none => simp [hs] at hi
      | some s =>
        have hc := h.counts i s.refCount (by rw [InodeCache.refs, List.getElem?_map, hs]; rfl)
        simp only [hs, Option.map_eq_map, Option.map_some, Option.some.injEq] at hi
        rw [hcount i] at hc
        by_cases hij : w.held[k].index = i
        · rw [if_pos hij] at hc
          have hpos : s.refCount > 0 := by
            rw [gt_iff_lt, BitVec.lt_def, hc]
            exact Nat.succ_pos _
          have hone : (1 : BitVec 32) ≤ s.refCount := by
            rw [BitVec.le_def, hc]
            exact Nat.succ_le_succ (Nat.zero_le _)
          rw [if_pos hij, if_pos hpos] at hi
          rw [← hi, BitVec.toNat_sub_of_le hone, hc]
          exact Nat.add_sub_cancel _ 1
        · rw [if_neg hij] at hc hi
          rw [← hi]
          exact hc
    · rw [OneSlot, InodeCache.inos, hinos _ (by intro s; split <;> rfl)]
      exact h.one

theorem Valid.markDirty {w : Holders I} [Inhabited I] (h : Valid w) (k : Nat) (inode : I) :
    Valid (inodeStep w (.markDirty k inode)) := by
  rw [inodeStep]
  cases w.held[k]? with
  | none => exact h
  | some x =>
    simp only [ext4MarkInodeDirty, writeThrough]
    split
    · apply h.congr
      · rfl
      · apply map_modify_of_eq
        intro s
        rfl
      · apply map_modify_of_eq
        intro s
        rfl
    · exact h

theorem Valid.invalidate {w : Holders I} (h : Valid w) (hno : ∀ x ∈ w.held, ino ≠ x.ino) :
    Valid { w with cache := ext4InvalidateInodeCache w.cache ino } := by
  rw [ext4InvalidateInodeCache]
  cases hf : findInodeCache w.cache ino with
  | none => exact h
  | some i =>
    have hino := findInodeCache_some hf
    obtain ⟨hlt, -⟩ := List.getElem?_eq_some_iff.mp hino
    rw [InodeCache.inos, List.length_map] at hlt
    have hr : w.cache.refs[i]? = some 0 := by
      have hs : w.cache.refs[i]? = some w.cache.slots[i].refCount := by
        rw [InodeCache.refs, List.getElem?_map, List.getElem?_eq_getElem hlt]
        rfl
      have hcount : w.held.countP (fun x => x.index = i) = 0 := by
        apply List.countP_eq_zero.mpr
        intro x hx he
        have hd := (h.held x hx).2
        rw [of_decide_eq_true he, hino] at hd
        exact hno x hx (Option.some.inj hd)
      have hz := h.counts i _ hs
      rw [hcount] at hz
      rw [hs, BitVec.eq_of_toNat_eq (y := 0) hz]
    have hset : (w.cache.slots.modify i fun s =>
        ({ s with ino := 0, refCount := 0, dirty := false } : CachedInode I)) =
        w.cache.slots.set i { w.cache.slots[i] with ino := 0, refCount := 0, dirty := false } := by
      rw [List.modify_eq_set_getElem?, List.getElem?_eq_getElem hlt]
      rfl
    simp only [hset]
    exact h.rewrite hr rfl fun a _ => ⟨fun he => he, fun _ => rfl⟩

/-! Reclaiming keeps the positions of held slots when nothing in front of them goes. -/

theorem filter_getElem?_of_front {α : Type} {p : α → Bool} {l : List α} {x : α} (hl : l[i]? = some x)
    (hx : p x = true) (h : ∀ s ∈ l.take i, p s = true) : (l.filter p)[i]? = some x := by
  induction l generalizing i with
  | nil => cases hl
  | cons a l ih =>
    cases i with
    | zero =>
      cases hl
      rw [List.filter_cons_of_pos hx]
      rfl
    | succ i =>
      rw [List.take_succ_cons] at h
      rw [List.filter_cons_of_pos (h a List.mem_cons_self)]
      exact ih hl fun s hs => h s (List.mem_cons_of_mem _ hs)

theorem filter_getElem?_from {α : Type} {p : α → Bool} {l : List α} {x : α}
    (h : (l.filter p)[i]? = some x) :
    ∃ j, l[j]? = some x ∧ ((∀ s ∈ l.take j, p s = true) → j = i) := by
  induction l generalizing i with
  | nil => cases h
  | cons a l ih =>
    cases ha : p a with
    | false =>
      rw [List.filter_cons_of_neg (by simp [ha])] at h
      obtain ⟨j, hj, _⟩ := ih h
      refine ⟨j + 1, hj, fun hall => ?_⟩
      have := hall a (by rw [List.take_succ_cons]; exact List.mem_cons_self)
      rw [ha] at this
      cases this
    | true =>
      rw [List.filter_cons_of_pos ha] at h
      cases i with
      | zero =>
        cases h
        exact ⟨0, rfl, fun _ => rfl⟩
      | succ i =>
        obtain ⟨j, hj, hfront⟩ := ih h
        refine ⟨j + 1, hj, fun hall => ?_⟩
        rw [hfront fun s hs => hall s (by rw [List.take_succ_cons]; exact List.mem_cons_of_mem _ hs)]

theorem Valid.held_slot {w : Holders I} (h : Valid w) (hx : x ∈ w.held) :
    ∃ s, w.cache.slots[x.index]? = some s ∧ s.ino = x.ino ∧ s.refCount ≠ 0 := by
  obtain ⟨-, hino⟩ := h.held x hx
  rw [InodeCache.inos, List.getElem?_map, Option.map_eq_some_iff] at hino
  obtain ⟨s, hs, hi⟩ := hino
  refine ⟨s, hs, hi, fun h0 => ?_⟩
  have hr : w.cache.refs[x.index]? = some 0 := by
    rw [InodeCache.refs, List.getElem?_map, hs, ← h0]
    rfl
  exact no_handle_of_ref_zero h hr x hx rfl

theorem idle_eq_false {s : CachedInode I} :
    (!s.idle) = true ↔ s.refCount ≠ 0 ∨ s.dirty = true := by
  simp [CachedInode.idle]

theorem Valid.reclaim {w : Holders I} (h : Valid w)
    (hf : HeldInFront (fun s => s.refCount ≠ 0 ∨ s.dirty = true) w)
    (hm : moved = true → w.held = []) :
    Valid { w with cache := ext4ReclaimInodes moved w.cache } := by
  have hkept : ∀ x ∈ w.held, ∃ s, w.cache.slots[x.index]? = some s ∧ s.ino = x.ino ∧
      (w.cache.slots.filter fun s => !s.idle)[x.index]? = some s := by
    intro x hx
    obtain ⟨s, hs, hi, hr⟩ := h.held_slot hx
    refine ⟨s, hs, hi, filter_getElem?_of_front hs (idle_eq_false.mpr (.inl hr)) ?_⟩
    intro t ht
    exact idle_eq_false.mpr (hf x hx t ht)
  simp only [ext4ReclaimInodes]
  split
  · exact h
  · split
    · rename_i hnil
      have hempty : w.held = [] := by
        apply List.eq_nil_iff_forall_not_mem.mpr
        intro x hx
        obtain ⟨s, _, _, hs⟩ := hkept x hx
        rw [hnil] at hs
        cases hs
      refine ⟨?_, nofun, .nil⟩
      intro x hx
      rw [hempty] at hx
      cases hx
    · constructor
      · intro x hx
        obtain ⟨s, _, hi, hs⟩ := hkept x hx
        constructor
        · have : moved = false := by
            cases hmv : moved with
            | false => rfl
            | true =>
              rw [hm hmv] at hx
              cases hx
          simp only [this, Bool.false_eq_true, if_false]
          exact (h.held x hx).1
        · rw [InodeCache.inos, List.getElem?_map, hs, ← hi]
          rfl
      · intro i r hi
        rw [InodeCache.refs, List.getElem?_map, Option.map_eq_some_iff] at hi
        obtain ⟨s, hs, rfl⟩ := hi
        have hcounts : ∀ j, w.cache.slots[j]? = some s →
            s.refCount.toNat = w.held.countP fun x => x.index = j := by
          intro j hj
          apply h.counts j
          rw [InodeCache.refs, List.getElem?_map, hj]
          rfl
        by_cases hheld : ∃ x ∈ w.held, x.index = i
        · obtain ⟨x, hx, rfl⟩ := hheld
          obtain ⟨t, ht, _, hft⟩ := hkept x hx
          rw [hft] at hs
          cases hs
          exact hcounts _ ht
        · obtain ⟨j, hj, hfront⟩ := filter_getElem?_from hs
          have hnone : ∀ y ∈ w.held, y.index ≠ j := by
            intro y hy he
            refine hheld ⟨y, hy, he.trans (hfront ?_)⟩
            intro t ht
            rw [← he] at ht
            exact idle_eq_false.mpr (hf y hy t ht)
          rw [hcounts j hj, List.countP_eq_zero.mpr (by simpa using hnone)]
          symm
          apply List.countP_eq_zero.mpr
          intro y hy he
          exact hheld ⟨y, hy, of_decide_eq_true he⟩
      · have hsub : ((w.cache.slots.filter fun s => !s.idle).map CachedInode.ino).Sublist
            w.cache.inos := List.filter_sublist.map _
        exact h.one.sublist hsub

theorem ext4SyncInodes_ino (o : Outcomes I) (l : List (CachedInode I)) :
    (ext4SyncInodes o l).2.map CachedInode.ino = l.map CachedInode.ino := by
  induction l with
  | nil => rfl
  | cons s l ih =>
    rw [ext4SyncInodes]
    split
    · split
      · simp [ih]
      · rfl
    · simp [ih]

theorem ext4SyncInodes_refCount (o : Outcomes I) (l : List (CachedInode I)) :
    (ext4SyncInodes o l).2.map CachedInode.refCount = l.map CachedInode.refCount := by
  induction l with
  | nil => rfl
  | cons s l ih =>
    rw [ext4SyncInodes]
    split
    · split
      · simp [ih]
      · rfl
    · simp [ih]

/-- When every inode is written, only slots without an inode stay dirty. -/
theorem ext4SyncInodes_ok {l : List (CachedInode I)} (h : (ext4SyncInodes o l).1 = true) :
    (ext4SyncInodes o l).2 = l.map fun s => { s with dirty := s.dirty && s.ino = 0 } := by
  induction l with
  | nil => rfl
  | cons s l ih =>
    rw [ext4SyncInodes] at h ⊢
    rw [List.map_cons]
    by_cases hd : (s.dirty && s.ino ≠ 0) = true
    · rw [if_pos hd] at h ⊢
      simp only [Bool.and_eq_true, decide_eq_true_eq] at hd
      have he : (s.dirty && decide (s.ino = 0)) = false := by
        rw [decide_eq_false hd.2, Bool.and_false]
      by_cases hw : ext4WriteInode o s.ino = true
      · rw [if_pos hw] at h ⊢
        rw [ih h, he]
      · rw [if_neg hw] at h
        cases h
    · rw [if_neg hd] at h ⊢
      have he : (s.dirty && decide (s.ino = 0)) = s.dirty := by
        cases hdirty : s.dirty with
        | false => rfl
        | true => simpa [hdirty] using hd
      rw [ih h, he]

theorem Valid.sync {w : Holders I} [Inhabited I] (h : Valid w) (hs : (InodeOp.sync o).Sound w) :
    Valid (inodeStep w (.sync o)) := by
  have hwritten := h.congr (c := { w.cache with
    slots := (ext4SyncInodes o.toOutcomes w.cache.slots).2 }) rfl
    (ext4SyncInodes_ino _ _) (ext4SyncInodes_refCount _ _)
  simp only [inodeStep, ext4Sync]
  split
  · exact h
  · rename_i hb
    split
    · exact hwritten
    · rename_i hok
      simp only [Bool.not_eq_true, Bool.not_eq_false'] at hb
      simp only [Bool.or_eq_true, Bool.not_eq_true', not_or, Bool.not_eq_false] at hok
      obtain ⟨hfront, hmoved⟩ := hs hb hok.1 hok.2
      apply hwritten.reclaim ?_ hmoved
      intro x hx t ht
      rw [ext4SyncInodes_ok hok.1, ← List.map_take] at ht
      obtain ⟨s, hs, rfl⟩ := List.mem_map.mp ht
      rcases hfront x hx s hs with hr | ⟨hd, h0⟩
      · exact .inl hr
      · exact .inr (by simp [hd, h0])

theorem Valid.step {w : Holders I} [Inhabited I] (h : Valid w) (op : InodeOp I)
    (hs : op.Sound w) : Valid (inodeStep w op) := by
  cases op with
  | get o ino => exact h.get hs
  | release k => exact h.release k
  | markDirty k inode => exact h.markDirty k inode
  | alloc found =>
    cases found with
    | none => exact h
    | some ino => exact h.invalidate fun x hx he => hs x hx (congrArg some he)
  | free ino => exact h.invalidate hs
  | sync o => exact h.sync hs
  | reclaim moved => exact h.reclaim hs.1 hs.2

/-- In every run whose steps are sound, a handle that has not been released designates the live
slot of its inode, and no inode has two slots. -/
theorem inode_handles_valid [Inhabited I] (ops : List (InodeOp I))
    (hs : Along inodeStep (fun w op => op.Sound w) {} ops) :
    (∀ h ∈ (inodeRun ops).held, Designates (inodeRun ops).cache h) ∧
      OneSlot (inodeRun ops).cache := by
  have hinit : Valid ({} : Holders I) := ⟨nofun, nofun, .nil⟩
  have hv : Valid (inodeRun ops) := hs.invariant (fun w op hw hop => hw.step op hop) hinit
  exact ⟨hv.held, hv.one⟩

/-- A device that answers every read and takes every write. -/
def working : SyncOutcomes Nat :=
  { read := fun _ => some 0, write := fun _ => true, mem := true
    before := true, after := true, moved := false }

/-- `ext4_file_truncate` of inode 5 to size 0, as far as the cache sees it: the handle is kept
across the first `ext4_sync`. -/
def truncateFive : List (InodeOp Nat) :=
  [.get working.toOutcomes 5, .markDirty 0 7, .sync working]

theorem truncateFive_valid :
    (inodeRun truncateFive).held = [⟨1, 0, 5⟩] ∧
      ∀ h ∈ (inodeRun truncateFive).held, Designates (inodeRun truncateFive).cache h := by
  have hs : Along inodeStep (fun w op => op.Sound w) {} truncateFive := by
    refine ⟨⟨fun _ => rfl, nofun⟩, trivial, fun _ _ _ => ⟨?_, nofun⟩, trivial⟩
    intro h hh s hs
    have hheld : h = ⟨1, 0, 5⟩ := List.mem_singleton.mp (by exact hh)
    rw [hheld] at hs
    cases hs
  exact ⟨by decide, (inode_handles_valid truncateFive hs).1⟩

/-- A second inode is got while the first is held: the array of one slot is replaced. -/
def getTwo : List (InodeOp Nat) := [.get working.toOutcomes 3, .get working.toOutcomes 5]

/-- `truncateFive` with inode 3 cached in front, dirty when inode 5 came and written by the sync. -/
def truncateBehindIdle : List (InodeOp Nat) :=
  [.get working.toOutcomes 3, .markDirty 0 1, .release 0,
    .get { working.toOutcomes with write := fun _ => false } 5, .markDirty 0 7, .sync working]

theorem getTwo_dangling :
    (∃ h ∈ (inodeRun getTwo).held, ¬ Designates (inodeRun getTwo).cache h) ∧
      ∃ h ∈ (inodeRun truncateBehindIdle).held,
        ¬ Designates (inodeRun truncateBehindIdle).cache h :=
  ⟨⟨⟨1, 0, 3⟩, by decide, fun h => absurd h.1 (by decide)⟩,
    ⟨2, 1, 5⟩, by decide, fun h => absurd h.2 (by decide)⟩

end Lebirun.Ext4
