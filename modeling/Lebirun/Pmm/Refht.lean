import Mathlib
import Lebirun.Lib.Buckets
import Lebirun.Pmm.Map

namespace Lebirun.Pmm
set_option autoImplicit true

abbrev refhtMinBits : Nat := 6
abbrev refhtMaxRef : Nat := 2 ^ 24 - 1

structure RefNode where
  pageIdx : Nat
  refcount : Nat
  deriving DecidableEq, Repr

/-- The table of reference counts. `none` for the buckets is the null pointer; the chains are
lists, the deferred nodes are a list. -/
structure Refht where
  buckets : Option (Nat → List RefNode)
  bits : Nat
  deferredFree : List RefNode
  activeNodeCount : Nat
  deferredFreeCount : Nat
  initialized : Bool

def refhtInit (h : Refht) : Refht :=
  if h.initialized then h
  else ⟨none, 0, [], 0, 0, true⟩

def refhtBucket (bits pageIdx : Nat) : Nat :=
  pageIdx * 0x9E3779B97F4A7C15 % 2 ^ 64 / 2 ^ (64 - bits)

def Refht.find (h : Refht) (pageIdx : Nat) : Option RefNode :=
  match h.buckets with
  | none => none
  | some t => Buckets.find RefNode.pageIdx (refhtBucket h.bits) t pageIdx

def growBits (count : Nat) : Nat → Nat → Nat
  | 0, bits => bits
  | fuel + 1, bits => if 4 * 2 ^ bits < count then growBits count fuel (bits + 1) else bits

def shrinkBits (count : Nat) : Nat → Nat
  | 0 => 0
  | bits + 1 =>
    if refhtMinBits < bits + 1 ∧ count < 2 ^ (bits + 1) then shrinkBits count bits else bits + 1

def refhtTargetBits (h : Refht) (count : Nat) : Nat :=
  if count = 0 ∧ h.buckets.isNone then 0
  else shrinkBits count (growBits count 64 (if h.bits ≠ 0 then h.bits else refhtMinBits))

/-- The second locked section of `refht_resize`, with the table of `2 ^ bits` chains allocated
between the two. -/
def refhtResize (h : Refht) (extra bits : Nat) : Refht :=
  if refhtTargetBits h (h.activeNodeCount + extra) ≠ bits ∨ bits = h.bits then h
  else
    let table :=
      match h.buckets with
      | none => fun _ => []
      | some old => Buckets.rehash RefNode.pageIdx (refhtBucket bits) (2 ^ h.bits) old
    { h with buckets := if bits = 0 then none else some table, bits := bits }

/-- The locked section of `refht_alloc_node`. -/
def refhtAllocNode (h : Refht) : Option RefNode × Refht :=
  match h.deferredFree with
  | [] => (none, h)
  | n :: l => (some n, { h with deferredFree := l, deferredFreeCount := h.deferredFreeCount - 1 })

def Refht.defer (h : Refht) (fresh : Option RefNode) : Refht :=
  match fresh with
  | none => h
  | some n =>
    { h with
      deferredFree := n :: h.deferredFree
      deferredFreeCount := h.deferredFreeCount + 1 }

def Refht.modifyRef (h : Refht) (pageIdx : Nat) (f : Nat → Nat) : Refht :=
  match h.buckets with
  | none => h
  | some t =>
    { h with
      buckets := some (Buckets.modify RefNode.pageIdx (refhtBucket h.bits)
        (fun n => { n with refcount := f n.refcount }) t pageIdx) }

/-- The last locked section of `refht_add`; the answer is whether it returns 0. -/
def refhtAdd (h : Refht) (pageIdx initial : Nat) (fresh : Option RefNode) : Bool × Refht :=
  match h.buckets with
  | none => (false, h.defer fresh)
  | some t =>
    match h.find pageIdx with
    | some n =>
      if n.refcount < refhtMaxRef then
        (true, (h.modifyRef pageIdx (· + 1)).defer fresh)
      else (false, h.defer fresh)
    | none =>
      match fresh with
      | none => (false, h)
      | some _ =>
        (true, { h with
          buckets := some (Buckets.append RefNode.pageIdx (refhtBucket h.bits) t
            ⟨pageIdx, initial⟩)
          activeNodeCount := h.activeNodeCount + 1 })

def Refht.remove (h : Refht) (pageIdx : Nat) (n : RefNode) : Refht :=
  match h.buckets with
  | none => h
  | some t =>
    { h with
      buckets := some (Buckets.erase RefNode.pageIdx (refhtBucket h.bits) t pageIdx)
      activeNodeCount := h.activeNodeCount - 1
      deferredFree := n :: h.deferredFree
      deferredFreeCount := h.deferredFreeCount + 1 }

structure Released where
  result : Nat
  freePage : Bool
  table : Refht

def refhtRelease (h : Refht) (m : MemMap) (pageIdx : Nat) (cow : Bool) : Released :=
  if !h.initialized then ⟨0, cow, h⟩
  else if m.totalPagesManaged ≤ pageIdx then ⟨0, false, h⟩
  else
    match h.find pageIdx with
    | none => ⟨0, cow, h⟩
    | some n =>
      if cow then
        if n.refcount > 2 then ⟨n.refcount - 1, false, h.modifyRef pageIdx (· - 1)⟩
        else ⟨0, n.refcount = 1, h.remove pageIdx n⟩
      else
        let r := n.refcount - 1
        let h := h.modifyRef pageIdx (· - 1)
        ⟨r, false, if r = 0 then h.remove pageIdx { n with refcount := r } else h⟩

def pfaRefGet (h : Refht) (m : MemMap) (pageIdx : Nat) : Nat :=
  if !h.initialized then 0
  else if m.totalPagesManaged ≤ pageIdx then 0
  else
    match h.find pageIdx with
    | none => 0
    | some n => n.refcount

/-- The locked section of `pfa_ref_gc`. -/
def pfaRefGc (h : Refht) : Refht :=
  if !h.initialized then h
  else { h with deferredFree := [], deferredFreeCount := 0 }

def Refht.nodes (h : Refht) : List RefNode :=
  match h.buckets with
  | none => []
  | some t => Buckets.all (2 ^ h.bits) t

/-- The reference count the table holds for a frame. -/
def Refht.ref (h : Refht) (pageIdx : Nat) : Option Nat := (h.find pageIdx).map RefNode.refcount

structure Refht.Ok (h : Refht) : Prop where
  chains : ∀ t, h.buckets = some t →
    Buckets.Ok RefNode.pageIdx (refhtBucket h.bits) (2 ^ h.bits) t
  null : h.buckets = none ↔ h.bits = 0
  active : h.activeNodeCount = h.nodes.length
  deferred : h.deferredFreeCount = h.deferredFree.length
  uninit : h.initialized = false → h.buckets = none

variable {h : Refht} {m : MemMap} {i j : Nat}

theorem refhtBucket_lt (bits i : Nat) : refhtBucket bits i < 2 ^ bits := by
  have hx : i * 0x9E3779B97F4A7C15 % 2 ^ 64 < 2 ^ 64 := Nat.mod_lt _ (by decide)
  rw [refhtBucket]
  apply Nat.div_lt_of_lt_mul
  apply Nat.lt_of_lt_of_le hx
  rw [← Nat.pow_add]
  exact Nat.pow_le_pow_right (by decide) (by omega)

theorem nodes_of_some (hb : h.buckets = some t) : h.nodes = Buckets.all (2 ^ h.bits) t := by
  rw [Refht.nodes, hb]

theorem find_of_some (hb : h.buckets = some t) (i : Nat) :
    h.find i = Buckets.find RefNode.pageIdx (refhtBucket h.bits) t i := by
  rw [Refht.find, hb]

theorem buckets_of_find (hf : h.find i = some n) : ∃ t, h.buckets = some t := by
  cases hb : h.buckets with
  | none =>
    rw [Refht.find, hb] at hf
    cases hf
  | some t => exact ⟨t, rfl⟩

theorem Refht.Ok.find_some (hok : h.Ok) : h.find i = some n ↔ n ∈ h.nodes ∧ n.pageIdx = i := by
  cases hb : h.buckets with
  | none => simp [Refht.find, Refht.nodes, hb]
  | some t =>
    rw [find_of_some hb, nodes_of_some hb]
    exact (hok.chains t hb).find_eq_some

/-- No frame has two nodes. -/
theorem Refht.Ok.nodup (hok : h.Ok) : (h.nodes.map RefNode.pageIdx).Nodup := by
  cases hb : h.buckets with
  | none => simp [Refht.nodes, hb]
  | some t =>
    rw [nodes_of_some hb]
    exact (hok.chains t hb).nodup

/-- The chains change and the counters with them. -/
theorem Refht.Ok.chains_changed (hok : h.Ok) (hb : h.buckets = some t)
    (hc : Buckets.Ok RefNode.pageIdx (refhtBucket h.bits) (2 ^ h.bits) t')
    (hlen : a = (Buckets.all (2 ^ h.bits) t').length) (hd : d = l.length) :
    Refht.Ok ⟨some t', h.bits, l, a, d, h.initialized⟩ := by
  refine ⟨?_, ?_, hlen, hd, ?_⟩
  · intro t₁ ht₁
    cases ht₁
    exact hc
  · have hnull := hok.null
    rw [hb] at hnull
    simpa using hnull
  · intro hu
    have hn := hok.uninit hu
    rw [hb] at hn
    cases hn

theorem defer_ok (hok : h.Ok) (fresh : Option RefNode) : (h.defer fresh).Ok := by
  cases fresh with
  | none => exact hok
  | some n =>
    refine ⟨hok.chains, hok.null, hok.active, ?_, hok.uninit⟩
    show h.deferredFreeCount + 1 = h.deferredFree.length + 1
    rw [hok.deferred]

@[simp]
theorem defer_find (h : Refht) (fresh : Option RefNode) (i : Nat) :
    (h.defer fresh).find i = h.find i := by
  cases fresh with
  | none => rfl
  | some n => rfl

theorem modifyRef_spec (hok : h.Ok) (hf : h.find i = some n) (f : Nat → Nat) :
    (h.modifyRef i f).Ok ∧ ∀ j, (h.modifyRef i f).find j =
      if j = i then some { n with refcount := f n.refcount } else h.find j := by
  obtain ⟨t, hb⟩ := buckets_of_find hf
  have hc := hok.chains t hb
  rw [find_of_some hb] at hf
  have hp := hc.modify_perm (fun n => { n with refcount := f n.refcount }) hf
  rw [Refht.modifyRef, hb]
  refine ⟨hok.chains_changed hb (hc.modify ?_ hf) ?_ hok.deferred, ?_⟩
  · intro b
    rfl
  · have hlen := hp.length_eq
    rw [List.length_cons, List.length_cons, Nat.add_right_cancel_iff] at hlen
    rw [hok.active, nodes_of_some hb, hlen]
  · intro j
    rw [find_of_some hb]
    exact hc.find_modify (f := fun n => { n with refcount := f n.refcount }) (fun _ => rfl) hf j

theorem remove_spec (hok : h.Ok) (hf : h.find i = some n) (n' : RefNode) :
    (h.remove i n').Ok ∧ ∀ j, (h.remove i n').find j = if j = i then none else h.find j := by
  obtain ⟨t, hb⟩ := buckets_of_find hf
  have hc := hok.chains t hb
  rw [find_of_some hb] at hf
  have hlen := (hc.erase_perm hf).length_eq
  rw [Refht.remove, hb]
  refine ⟨hok.chains_changed hb (hc.erase hf) ?_ ?_, ?_⟩
  · rw [hok.active, nodes_of_some hb, hlen, List.length_cons, Nat.add_sub_cancel]
  · rw [hok.deferred, List.length_cons]
  · intro j
    rw [find_of_some hb]
    exact hc.find_erase hf j

theorem find_ref (hf : h.find i = some n) : h.ref i = some n.refcount := by
  rw [Refht.ref, hf]
  rfl

@[simp]
theorem modifyRef_initialized (h : Refht) (i : Nat) (f : Nat → Nat) :
    (h.modifyRef i f).initialized = h.initialized := by
  rw [Refht.modifyRef]
  split
  · rfl
  · rfl

@[simp]
theorem remove_initialized (h : Refht) (i : Nat) (n : RefNode) :
    (h.remove i n).initialized = h.initialized := by
  rw [Refht.remove]
  split
  · rfl
  · rfl

theorem refhtRelease_initialized (h : Refht) (m : MemMap) (i : Nat) (cow : Bool) :
    (refhtRelease h m i cow).table.initialized = h.initialized := by
  rw [refhtRelease]
  split
  · rfl
  · split
    · rfl
    · split
      · rfl
      · split
        · split
          · simp
          · simp
        · dsimp only
          split
          · simp
          · simp

theorem refhtAdd_initialized (h : Refht) (i initial : Nat) (fresh : Option RefNode) :
    (refhtAdd h i initial fresh).2.initialized = h.initialized := by
  have hdefer : ∀ h : Refht, (h.defer fresh).initialized = h.initialized := by
    intro h
    cases fresh with
    | none => rfl
    | some n => rfl
  rw [refhtAdd]
  split
  · exact hdefer h
  · split
    · split
      · rw [hdefer, modifyRef_initialized]
      · exact hdefer h
    · split
      · rfl
      · rfl

/-- `refht_release` of a frame without a node. -/
theorem refhtRelease_none (hi : i < m.totalPagesManaged) (hr : h.ref i = none)
    (cow : Bool) : refhtRelease h m i cow = ⟨0, cow, h⟩ := by
  have hf : h.find i = none := Option.map_eq_none_iff.1 hr
  rw [refhtRelease, hf]
  split
  · rfl
  · rw [if_neg (Nat.not_le.2 hi)]

theorem initialized_of_ref (hok : h.Ok) (hr : h.ref i = some r) : h.initialized = true := by
  cases hu : h.initialized with
  | true => rfl
  | false =>
    rw [Refht.ref, Refht.find, hok.uninit hu] at hr
    cases hr

/-- What `refht_release` does to the counts of all frames. -/
theorem refhtRelease_some (hok : h.Ok) (hi : i < m.totalPagesManaged) (hr : h.ref i = some r)
    (hpos : 0 < r) (cow : Bool) :
    (refhtRelease h m i cow).table.Ok ∧
    (∀ j, (refhtRelease h m i cow).table.ref j =
      if j = i then
        if (if cow then r ≤ 2 else r = 1) then none else some (r - 1)
      else h.ref j) ∧
    (refhtRelease h m i cow).freePage = (cow && r = 1) ∧
    (refhtRelease h m i cow).result = if cow ∧ r = 2 then 0 else r - 1 := by
  have hinit := initialized_of_ref hok hr
  rw [Refht.ref, Option.map_eq_some_iff] at hr
  obtain ⟨n, hf, rfl⟩ := hr
  rw [refhtRelease, hinit, if_neg (by simp), if_neg (Nat.not_le.2 hi), hf]
  cases cow with
  | true =>
    dsimp only
    rw [if_pos rfl]
    by_cases hgt : n.refcount > 2
    · obtain ⟨hok', hfind⟩ := modifyRef_spec hok hf (· - 1)
      rw [if_pos hgt]
      refine ⟨hok', ?_, ?_, ?_⟩
      · intro j
        rw [Refht.ref, hfind]
        split
        · rw [if_neg (by simp; omega)]
          rfl
        · rfl
      · simp only [Bool.true_and]
        symm
        rw [decide_eq_false_iff_not]
        omega
      · rw [if_neg (by omega)]
    · obtain ⟨hok', hfind⟩ := remove_spec hok hf n
      rw [if_neg hgt]
      refine ⟨hok', ?_, rfl, ?_⟩
      · intro j
        rw [Refht.ref, hfind]
        split
        · rw [if_pos (by simp; omega)]
          rfl
        · rfl
      · show 0 = _
        split
        · rfl
        · rename_i h2
          have hne : n.refcount ≠ 2 := fun he => h2 ⟨rfl, he⟩
          omega
  | false =>
    obtain ⟨hok', hfind⟩ := modifyRef_spec hok hf (· - 1)
    dsimp only
    rw [if_neg (by simp)]
    refine ⟨?_, ?_, rfl, ?_⟩
    · split
      · exact (remove_spec hok' ((hfind i).trans (if_pos rfl)) _).1
      · exact hok'
    · intro j
      rw [Refht.ref]
      split
      · rename_i h0
        rw [(remove_spec hok' ((hfind i).trans (if_pos rfl)) _).2]
        split
        · rw [if_pos (by simp; omega)]
          rfl
        · rename_i hj
          rw [hfind, if_neg hj, Refht.ref]
      · rename_i h0
        rw [hfind]
        split
        · rw [if_neg (by simp; omega)]
          rfl
        · rfl
    · simp

theorem refhtAdd_spec (hok : h.Ok) (i initial : Nat) (fresh : Option RefNode) :
    (refhtAdd h i initial fresh).2.Ok ∧
    ∀ j, (refhtAdd h i initial fresh).2.ref j =
      if (refhtAdd h i initial fresh).1 ∧ j = i then some ((h.ref i).elim initial (· + 1))
      else h.ref j := by
  rw [refhtAdd]
  cases hb : h.buckets with
  | none => exact ⟨defer_ok hok fresh, fun j => by simp [Refht.ref]⟩
  | some t =>
    have hc := hok.chains t hb
    cases hf : h.find i with
    | some n =>
      have href := find_ref hf
      dsimp only
      split
      · obtain ⟨hok', hfind⟩ := modifyRef_spec hok hf (· + 1)
        refine ⟨defer_ok hok' fresh, ?_⟩
        intro j
        rw [Refht.ref, defer_find, hfind]
        by_cases hj : j = i
        · simp [hj, href]
        · simp [hj, Refht.ref]
      · exact ⟨defer_ok hok fresh, fun j => by simp [Refht.ref]⟩
    | none =>
      cases fresh with
      | none => exact ⟨hok, fun j => by simp⟩
      | some n =>
        have href : h.ref i = none := by rw [Refht.ref, hf]; rfl
        rw [find_of_some hb] at hf
        have hp : (Buckets.all (2 ^ h.bits) (Buckets.append RefNode.pageIdx (refhtBucket h.bits) t
            ⟨i, initial⟩)).Perm (⟨i, initial⟩ :: Buckets.all (2 ^ h.bits) t) :=
          Buckets.append_perm (hc.bound i)
        have hfind := hc.find_append (b := ⟨i, initial⟩) hf
        refine ⟨hok.chains_changed hb (hc.append hf) ?_ hok.deferred, ?_⟩
        · rw [hp.length_eq, List.length_cons, hok.active, nodes_of_some hb]
        · intro j
          refine (congrArg (Option.map RefNode.refcount) (hfind j)).trans ?_
          rw [href]
          by_cases hj : j = i
          · rw [if_pos hj, if_pos ⟨rfl, hj⟩]
            rfl
          · rw [if_neg hj, if_neg fun hc => hj hc.2, Refht.ref, find_of_some hb]

theorem le_growBits (count fuel bits : Nat) : bits ≤ growBits count fuel bits := by
  induction fuel generalizing bits with
  | zero => exact le_rfl
  | succ fuel ih =>
    rw [growBits]
    split
    · exact (Nat.le_succ bits).trans (ih _)
    · exact le_rfl

theorem shrinkBits_pos (count bits : Nat) (hb : 0 < bits) : 0 < shrinkBits count bits := by
  induction bits with
  | zero => exact hb
  | succ bits ih =>
    rw [shrinkBits]
    split
    · rename_i hc
      have hmin : refhtMinBits = 6 := rfl
      exact ih (by omega)
    · exact hb

/-- Without nodes to hold and without a table there is nothing to resize. -/
theorem refhtTargetBits_zero (hok : h.Ok) (ht : refhtTargetBits h count = 0) : h.bits = 0 := by
  rw [refhtTargetBits] at ht
  split at ht
  · rename_i hc
    exact hok.null.1 (Option.isNone_iff_eq_none.1 hc.2)
  · have hpos : 0 < if h.bits ≠ 0 then h.bits else refhtMinBits := by
      split
      · omega
      · decide
    have hgrow := le_growBits count 64 (if h.bits ≠ 0 then h.bits else refhtMinBits)
    have hshrink := shrinkBits_pos count _ (hpos.trans_le hgrow)
    omega

theorem refhtResize_spec (hok : h.Ok) (hinit : h.initialized = true) (extra bits : Nat) :
    (refhtResize h extra bits).Ok ∧ ∀ j, (refhtResize h extra bits).ref j = h.ref j := by
  rw [refhtResize]
  split
  · exact ⟨hok, fun _ => rfl⟩
  · rename_i hc
    rw [not_or, not_not] at hc
    have hne : bits ≠ 0 := by
      intro h0
      rw [h0] at hc
      exact hc.2 (refhtTargetBits_zero hok hc.1).symm
    dsimp only
    rw [if_neg hne]
    cases hb : h.buckets with
    | none =>
      refine ⟨⟨?_, ?_, ?_, hok.deferred, ?_⟩, ?_⟩
      · intro t ht
        cases ht
        refine ⟨refhtBucket_lt bits, ?_, ?_⟩
        · intro _ _ b hm
          cases hm
        · rw [Buckets.all_nil]
          exact List.nodup_nil
      · simpa using hne
      · show h.activeNodeCount = (Buckets.all (2 ^ bits) _).length
        rw [Buckets.all_nil, hok.active, Refht.nodes, hb]
      · intro hu
        exact absurd hinit (by simp [show h.initialized = false from hu])
      · intro j
        rw [Refht.ref, Refht.ref, Refht.find, Refht.find, hb]
        rfl
    | some t =>
      have hc := hok.chains t hb
      refine ⟨⟨?_, ?_, ?_, hok.deferred, ?_⟩, ?_⟩
      · intro t' ht'
        cases ht'
        exact hc.rehash (refhtBucket_lt bits)
      · simpa using hne
      · show h.activeNodeCount = (Buckets.all (2 ^ bits) _).length
        rw [(Buckets.rehash_perm (refhtBucket_lt bits)).length_eq, hok.active, nodes_of_some hb]
      · intro hu
        have hn := hok.uninit hu
        rw [hb] at hn
        cases hn
      · intro j
        rw [Refht.ref, Refht.ref, find_of_some hb]
        exact congrArg (Option.map RefNode.refcount) (hc.find_rehash (refhtBucket_lt bits) j)

theorem refhtAllocNode_spec (hok : h.Ok) :
    (refhtAllocNode h).2.Ok ∧ ∀ j, (refhtAllocNode h).2.ref j = h.ref j := by
  rw [refhtAllocNode]
  cases hd : h.deferredFree with
  | nil => exact ⟨hok, fun _ => rfl⟩
  | cons n l =>
    refine ⟨⟨hok.chains, hok.null, hok.active, ?_, hok.uninit⟩, fun _ => rfl⟩
    have hlen := hok.deferred
    rw [hd, List.length_cons] at hlen
    show h.deferredFreeCount - 1 = l.length
    omega

theorem pfaRefGc_spec (hok : h.Ok) : (pfaRefGc h).Ok ∧ ∀ j, (pfaRefGc h).ref j = h.ref j := by
  rw [pfaRefGc]
  split
  · exact ⟨hok, fun _ => rfl⟩
  · exact ⟨⟨hok.chains, hok.null, hok.active, rfl, hok.uninit⟩, fun _ => rfl⟩

end Lebirun.Pmm
