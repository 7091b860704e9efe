import Mathlib
import Lebirun.Lib.Run
import Lebirun.Lib.Threads
import Lebirun.Vfs.Mounts

namespace Lebirun.Vfs
open Machine
set_option autoImplicit true

section Counts

variable {Task Node : Type*} [Fintype Task] {s s' : MountState Task Node}

/-- The number of tasks whose `mnt_ns` is the namespace. -/
def MountState.holders (s : MountState Task Node) (id : Nat) : Nat :=
  Threads.total (fun x => if x = some id then 1 else 0) s.tasks

/-- The initial namespace and those of the tasks are live, and a count is at least the number of tasks in
its namespace. -/
structure NsInv (s : MountState Task Node) : Prop where
  initLive : (s.nss initNs).isSome
  taskLive : ∀ t id, s.tasks t = some id → (s.nss id).isSome
  counted : ∀ id ns, id ≠ initNs → s.nss id = some ns →
    (s.holders id : Int) ≤ ns.refs
  unborn : ∀ id, s.nextNs ≤ id → s.nss id = none

/-- Besides soundness a free slot keeps no node. -/
structure MountInv (s : MountState Task Node) : Prop where
  sound : MountsSound s
  freeClear : ∀ id, ∀ sl ∈ s.mountsOf id, sl.entry = none → sl.covered = none
  ns : NsInv s

theorem NsInv.taskNs_live (h : NsInv s) (t : Task) : (s.nss (s.taskNs t)).isSome := by
  unfold MountState.taskNs
  cases ht : s.tasks t with
  | none => exact h.initLive
  | some id => exact h.taskLive t id ht

theorem NsInv.setMounts {id : Nat} (h : NsInv s) (hn : s'.nss = (s.setMounts id mounts).nss)
    (ht : s'.tasks = s.tasks) (hx : s'.nextNs = s.nextNs) : NsInv s' := by
  have hsome : ∀ id', (s'.nss id').isSome = (s.nss id').isSome := by
    intro id'
    rw [hn, MountState.setMounts]
    by_cases hid : id' = id
    · subst hid
      simp
    · simp [hid]
  constructor
  · rw [hsome]
    exact h.initLive
  · intro t id' hid
    rw [hsome]
    exact h.taskLive t id' (ht ▸ hid)
  · intro id' ns hne hns
    rw [MountState.holders, ht]
    rw [hn, MountState.setMounts] at hns
    by_cases hid : id' = id
    · subst hid
      simp only [Function.update_self, Option.map_eq_some_iff] at hns
      obtain ⟨old, hold, rfl⟩ := hns
      exact h.counted id' old hne hold
    · simp only [Function.update_of_ne hid] at hns
      exact h.counted id' ns hne hns
  · intro id' hid
    rw [hx] at hid
    have := hsome id'
    rw [h.unborn id' hid] at this
    exact Option.not_isSome_iff_eq_none.mp (by simp [this])

end Counts

section Soundness

variable {Task Node : Type*} {s s' : MountState Task Node}

/-- The same nodes and live roots, with entries that cover the same nodes. -/
theorem recounted_sound (h : MountsSound s)
    (hroots : ∀ id j e c, s'.used id j = some (e, c) → ∃ id' j' c', s.used id' j' = some (e, c'))
    (hcov : ∀ n, s'.Covered n ↔ s.Covered n) (hn : s'.nodes = s.nodes) (ha : s'.alive = s.alive) :
    MountsSound s' := by
  constructor
  · intro id j e c he
    obtain ⟨id', j', c', hold⟩ := hroots id j e c he
    rw [ha]
    exact h.rootsAlive id' j' e c' hold
  · intro n
    rw [hcov, ← h.redirected n]
    unfold MountState.Redirected
    rw [hn, ha]

variable [DecidableEq Node]

/-- With another root alive, the nodes that do not lead there are redirected as before. -/
theorem redirected_revive (h : MountsSound s) (hs : NoStale s root exempt) (hx : some n ≠ exempt)
    (hn : s'.nodes n = s.nodes n) (ha : s'.alive = Function.update s.alive root true) :
    s'.Redirected n ↔ s.Redirected n := by
  unfold MountState.Redirected
  rw [hn, ha]
  constructor
  · intro hr
    obtain ⟨hflag, r, hptr, hal⟩ := hr
    by_cases hroot : r = root
    · subst hroot
      exact (h.redirected n).mpr (hs n hx hflag hptr)
    · rw [Function.update_of_ne hroot] at hal
      exact ⟨hflag, r, hptr, hal⟩
  · intro hr
    obtain ⟨hflag, r, hptr, hal⟩ := hr
    refine ⟨hflag, r, hptr, ?_⟩
    by_cases hroot : r = root
    · subst hroot
      simp
    · rw [Function.update_of_ne hroot]
      exact hal

/-- A mount entered in a slot that was free, over the excepted node or none. -/
theorem mounted_sound {id : Nat} (h : MountsSound s) (hfree : s.used id i = none)
    (hu : ∀ id' j, s'.used id' j = if id' = id ∧ j = i then some (e, c) else s.used id' j)
    (ha : s'.alive = Function.update s.alive e.root true) (hs : NoStale s e.root exempt)
    (hn : ∀ n, some n ≠ exempt → s'.nodes n = s.nodes n) (hc : c = none ∨ c = exempt)
    (hx : ∀ n, exempt = some n → (s'.Redirected n ↔ s'.Covered n)) : MountsSound s' := by
  constructor
  · intro id' j e' c' he'
    rw [hu] at he'
    rw [ha]
    by_cases hroot : e'.root = e.root
    · rw [hroot]
      simp
    · rw [Function.update_of_ne hroot]
      split at he'
      · obtain ⟨rfl, -⟩ := Prod.mk.injEq .. ▸ Option.some.inj he'
        exact absurd rfl hroot
      · exact h.rootsAlive id' j e' c' he'
  · intro n
    by_cases hne : some n = exempt
    · exact hx n hne.symm
    · rw [redirected_revive h hs hne (hn n hne) ha, h.redirected n]
      constructor
      · intro hcov
        obtain ⟨id', j, e', he'⟩ := hcov
        refine ⟨id', j, e', ?_⟩
        rw [hu, if_neg, he']
        intro hslot
        obtain ⟨rfl, rfl⟩ := hslot
        rw [hfree] at he'
        cases he'
      · intro hcov
        obtain ⟨id', j, e', he'⟩ := hcov
        rw [hu] at he'
        split at he'
        · obtain ⟨-, rfl⟩ := Prod.mk.injEq .. ▸ Option.some.inj he'
          obtain hc | hc := hc
          · cases hc
          · exact absurd hc hne
        · exact ⟨id', j, e', he'⟩

/-- A file system unmounted while no entry that stays names it; `gone` is the node it covered. -/
theorem unmounted_sound (h : MountsSound s) (hsub : ∀ id j e c, s'.used id j = some (e, c) →
      s.used id j = some (e, c) ∧ e.root ≠ root ∧
        ∀ n, c = some n → some n ≠ gone ∧ (s.nodes n).ptr ≠ some root)
    (hkeep : ∀ n, some n ≠ gone → s.Covered n → s'.Covered n)
    (ha : s'.alive = Function.update s.alive root false)
    (hn : ∀ n, some n ≠ gone → s'.nodes n = s.nodes n)
    (hx : ∀ n, gone = some n → (s'.nodes n).mountpoint = false) : MountsSound s' := by
  constructor
  · intro id j e c he
    obtain ⟨hold, hroot, -⟩ := hsub id j e c he
    rw [ha, Function.update_of_ne hroot]
    exact h.rootsAlive id j e c hold
  · intro n
    constructor
    · intro hr
      obtain ⟨hflag, r, hptr, hal⟩ := hr
      have hne : some n ≠ gone := by
        intro hgone
        rw [hx n hgone.symm] at hflag
        cases hflag
      rw [hn n hne] at hflag hptr
      have hroot : r ≠ root := by
        rintro rfl
        simp [ha] at hal
      rw [ha, Function.update_of_ne hroot] at hal
      exact hkeep n hne ((h.redirected n).mp ⟨hflag, r, hptr, hal⟩)
    · intro hcov
      obtain ⟨id, j, e, he⟩ := hcov
      obtain ⟨hold, -, hnode⟩ := hsub id j e (some n) he
      obtain ⟨hne, hptr'⟩ := hnode n rfl
      obtain ⟨hflag, r, hptr, hal⟩ := (h.redirected n).mpr ⟨id, j, e, hold⟩
      unfold MountState.Redirected
      rw [hn n hne, ha]
      refine ⟨hflag, r, hptr, ?_⟩
      rw [Function.update_of_ne]
      · exact hal
      · rintro rfl
        exact hptr' hptr

end Soundness

section Steps

variable {Task Node : Type*} {s s' : MountState Task Node}

/-- The table whose slot is claimed has the same entries in use. -/
theorem MountInv.claim [Fintype Task] (h : MountInv s) (t : Task)
    (hc : claimSlot grows (s.mountsOf (s.taskNs t)) = some (mounts, i)) :
    MountInv (s.setMounts (s.taskNs t) mounts) ∧
      (∀ id j, (s.setMounts (s.taskNs t) mounts).used id j = s.used id j) ∧
      mounts[i]? = some Slot.free := by
  have hlive := h.ns.taskNs_live t
  obtain ⟨⟨c, hslot⟩, hsame, hmem⟩ := claimSlot_some hc
  have hu : ∀ id j, (s.setMounts (s.taskNs t) mounts).used id j = s.used id j := by
    intro id j
    rw [used_setMounts hlive]
    split
    · rename_i hid
      rw [hid, hsame]
      rfl
    · rfl
  have hclear : ∀ sl ∈ mounts, sl.entry = none → sl.covered = none := by
    intro sl hsl hfree
    obtain hold | rfl := hmem sl hsl
    · exact h.freeClear _ sl hold hfree
    · rfl
  refine ⟨⟨?_, ?_, ?_⟩, hu, ?_⟩
  · apply recounted_sound h.sound
    · intro id j e c he
      exact ⟨id, j, c, hu id j ▸ he⟩
    · intro n
      simp only [MountState.Covered, hu]
    · rfl
    · rfl
  · intro id sl hsl hfree
    rw [mountsOf_setMounts hlive] at hsl
    split at hsl
    · exact hclear sl hsl hfree
    · exact h.freeClear id sl hsl hfree
  · exact h.ns.setMounts rfl rfl rfl
  · have : c = none := hclear _ (List.mem_of_getElem? hslot) rfl
    rw [hslot, this]
    rfl

/-- A store into one slot keeps the free slots clear when the slot stored does. -/
theorem freeClear_setSlot {id : Nat}
    (h : ∀ id, ∀ sl ∈ s.mountsOf id, sl.entry = none → sl.covered = none)
    (hlive : (s.nss id).isSome) (hx : x.entry = none → x.covered = none)
    (hs : s'.nss = (s.setMounts id ((s.mountsOf id).set i x)).nss) :
    ∀ id', ∀ sl ∈ s'.mountsOf id', sl.entry = none → sl.covered = none := by
  intro id' sl hsl hfree
  rw [mountsOf_congr hs, mountsOf_setMounts hlive] at hsl
  split at hsl
  · obtain hold | rfl := List.mem_or_eq_of_mem_set hsl
    · exact h id sl hold hfree
    · exact hx hfree
  · exact h id' sl hsl hfree

theorem lt_of_slot {id : Nat} (hslot : (s.mountsOf id)[i]? = some Slot.free) :
    i < (s.mountsOf id).length := by
  obtain ⟨hi, -⟩ := List.getElem?_eq_some_iff.mp hslot
  exact hi

theorem used_of_free {id : Nat} (hslot : (s.mountsOf id)[i]? = some Slot.free) :
    s.used id i = none := by
  unfold MountState.used usedIn
  rw [hslot]
  rfl

/-- What storing into one slot of one table leaves, with the nodes and the live roots it sets. -/
structure Stored (s s' : MountState Task Node) (id i : Nat) (x : Slot Node)
    (ns : Node → NodeState Node) (live : Node → Bool) : Prop where
  nss : s'.nss = (s.setMounts id ((s.mountsOf id).set i x)).nss
  nextNs : s'.nextNs = s.nextNs
  tasks : s'.tasks = s.tasks
  nodes : s'.nodes = ns
  alive : s'.alive = live

theorem Stored.used_some {id : Nat} (h : Stored s s' id i ⟨some e, c⟩ ns live)
    (hlive : (s.nss id).isSome) (hi : i < (s.mountsOf id).length) (id' j : Nat) :
    s'.used id' j = if id' = id ∧ j = i then some (e, c) else s.used id' j := by
  rw [used_congr h.nss]
  exact used_setSlot hlive hi

theorem Stored.used_none {id : Nat} (h : Stored s s' id i ⟨none, c⟩ ns live)
    (hlive : (s.nss id).isSome) (id' j : Nat) :
    s'.used id' j = if id' = id ∧ j = i then none else s.used id' j := by
  rw [used_congr h.nss]
  exact used_freeSlot hlive

theorem Stored.inv [Fintype Task] {id : Nat} (h : Stored s s' id i x ns live)
    (hi : MountInv s) (hlive : (s.nss id).isSome) (hx : x.entry = none → x.covered = none)
    (hsound : MountsSound s') : MountInv s' :=
  ⟨hsound, freeClear_setSlot hi.freeClear hlive hx h.nss, hi.ns.setMounts h.nss h.tasks h.nextNs⟩

theorem findMount_used {id : Nat} (h : findMount path (s.mountsOf id) = some i) :
    ∃ e c, (s.mountsOf id)[i]? = some ⟨some e, c⟩ ∧ s.used id i = some (e, c) := by
  obtain ⟨hi, hfound, -⟩ := List.findIdx?_eq_some_iff_getElem.mp h
  cases he : (s.mountsOf id)[i].entry with
  | none => simp [he] at hfound
  | some e =>
    have hslot : (s.mountsOf id)[i]? = some ⟨some e, (s.mountsOf id)[i].covered⟩ := by
      rw [List.getElem?_eq_getElem hi, ← he]
    exact ⟨e, _, hslot, usedIn_some.mpr hslot⟩

variable [DecidableEq Node]

theorem mountOk_congr (hu : ∀ id j, s'.used id j = s.used id j) (hn : s'.nodes = s.nodes)
    (ha : s'.alive = s.alive) :
    MountOk vfsRoot s' c root hasUnmount ↔ MountOk vfsRoot s c root hasUnmount := by
  cases hx : c.existing <;>
    simp only [MountOk, CoverOk, RootUnused, NoStale, MountState.Covered, hu, hn, ha, hx]

/-- A mount that fails late over nothing frees its slot again. -/
theorem mountRoot_late {id : Nat} (vfsRoot root : Node) (hasUnmount : Bool)
    (hl : c.lateFails = true) (he : c.existing = none)
    (hslot : (s.mountsOf id)[i]? = some Slot.free) :
    ∃ s', mountRoot vfsRoot s id i root hasUnmount c = (-1, s') ∧
      Stored s s' id i ⟨none, none⟩ s.nodes (Function.update s.alive root !hasUnmount) := by
  unfold mountRoot
  rw [if_pos hl, he, hslot]
  exact ⟨_, rfl, rfl, rfl, rfl, rfl, rfl⟩

theorem mountRoot_done {id : Nat} (vfsRoot root : Node) (hasUnmount : Bool)
    (hl : c.lateFails = false)
    (hslot : (s.mountsOf id)[i]? = some Slot.free) :
    ∃ s', mountRoot vfsRoot s id i root hasUnmount c = (0, s') ∧
      Stored s s' id i
        ⟨some ⟨c.mountpoint, c.device.getD [], root, hasUnmount⟩, coverOf vfsRoot c.existing none⟩
        (redirect vfsRoot root c.existing s.nodes) (Function.update s.alive root true) := by
  unfold mountRoot
  rw [if_neg (by simp [hl]), hslot]
  exact ⟨_, rfl, rfl, rfl, rfl, rfl, rfl⟩

theorem late_sound {id : Nat} (h : MountsSound s) (hlive : (s.nss id).isSome)
    (hslot : (s.mountsOf id)[i]? = some Slot.free)
    (hs : Stored s s' id i ⟨none, none⟩ s.nodes (Function.update s.alive root !hasUnmount))
    (hok : if hasUnmount then RootUnused s root else NoStale s root none) : MountsSound s' := by
  have hu : ∀ id' j, s'.used id' j = s.used id' j := by
    intro id' j
    rw [hs.used_none hlive]
    split
    · rename_i hid
      rw [hid.1, hid.2, used_of_free hslot]
    · rfl
  have hcov : ∀ n, s'.Covered n ↔ s.Covered n := by
    intro n
    simp only [MountState.Covered, hu]
  cases hasUnmount with
  | true =>
    rw [if_pos rfl] at hok
    apply @unmounted_sound _ _ s s' _ root none h
    · intro id' j e c he'
      have hold : s.used id' j = some (e, c) := hu id' j ▸ he'
      obtain ⟨hroot, hptr⟩ := hok id' j e c hold
      exact ⟨hold, hroot, fun n hn => ⟨by simp, hptr n hn⟩⟩
    · intro n _ hn
      exact (hcov n).mpr hn
    · exact hs.alive
    · intro n _
      rw [hs.nodes]
    · intro n hn
      cases hn
  | false =>
    rw [if_neg Bool.false_ne_true] at hok
    constructor
    · intro id' j e c he'
      have halive := h.rootsAlive id' j e c (hu id' j ▸ he')
      rw [hs.alive]
      by_cases hroot : e.root = root
      · simp [hroot]
      · simp [hroot, halive]
    · intro n
      rw [redirected_revive h hok (by simp) (by rw [hs.nodes]) hs.alive, h.redirected n]
      exact (hcov n).symm

/-- A root mounted over a node, or over nothing, or as the new root of the tree. -/
theorem done_sound {id : Nat} (h : MountsSound s) (hlive : (s.nss id).isSome)
    (hslot : (s.mountsOf id)[i]? = some Slot.free)
    (hs : Stored s s' id i ⟨some e, coverOf vfsRoot existing none⟩
      (redirect vfsRoot e.root existing s.nodes) (Function.update s.alive e.root true))
    (hok : CoverOk vfsRoot s e.root existing) : MountsSound s' := by
  have hfree := used_of_free hslot
  have hu := hs.used_some hlive (lt_of_slot hslot)
  cases existing with
  | none =>
    apply mounted_sound h hfree hu hs.alive hok
    · intro n _
      rw [hs.nodes]
      rfl
    · exact .inl rfl
    · intro n hn
      cases hn
  | some n =>
    by_cases hroot : n ≠ vfsRoot
    · rw [CoverOk, if_pos hroot] at hok
      simp only [coverOf, if_pos hroot] at hu
      apply mounted_sound h hfree hu hs.alive hok
      · intro n' hn'
        have hne : n' ≠ n := by
          rintro rfl
          exact hn' rfl
        simp [hs.nodes, redirect, hroot, hne]
      · exact .inr rfl
      · intro n' hn'
        obtain rfl := Option.some.inj hn'
        have hred : s'.Redirected n := by
          simp [MountState.Redirected, hs.nodes, hs.alive, redirect, hroot]
        have hcov : s'.Covered n := ⟨id, i, e, by rw [hu, if_pos ⟨rfl, rfl⟩]⟩
        exact ⟨fun _ => hcov, fun _ => hred⟩
    · rw [CoverOk, if_neg hroot] at hok
      simp only [coverOf, if_neg hroot] at hu
      obtain ⟨hstale, hcov⟩ := hok
      apply mounted_sound h hfree hu hs.alive hstale
      · intro n' hn'
        have hne : n' ≠ e.root := by
          rintro rfl
          exact hn' rfl
        simp [hs.nodes, redirect, hroot, hne]
      · exact .inl rfl
      · intro n' hn'
        obtain rfl := Option.some.inj hn'
        have hred : s'.Redirected e.root ↔ s.alive n = true ∨ n = e.root := by
          have hnode : s'.nodes e.root = ⟨true, some n, (s.nodes e.root).refCount⟩ := by
            rw [hs.nodes, redirect, if_neg hroot, Function.update_self]
          unfold MountState.Redirected
          rw [hnode, hs.alive]
          by_cases hself : n = e.root <;> simp [hself]
        have hcov' : s'.Covered e.root ↔ s.Covered e.root := by
          constructor
          · intro hc
            obtain ⟨id', j, e', he'⟩ := hc
            rw [hu] at he'
            split at he'
            · cases he'
            · exact ⟨id', j, e', he'⟩
          · intro hc
            obtain ⟨id', j, e', he'⟩ := hc
            refine ⟨id', j, e', ?_⟩
            rw [hu, if_neg, he']
            intro hid
            obtain ⟨rfl, rfl⟩ := hid
            rw [hfree] at he'
            cases he'
        rw [hred, hcov', hcov]
/-- A call fails at once, or after claiming a slot, or gets as far as a mounted root. -/
theorem vfsMountFlags_cases (t : Task) (c : MountCall Node) :
    vfsMountFlags vfsRoot s t c = (-1, s) ∨
      ∃ mounts i, claimSlot c.grows (s.mountsOf (s.taskNs t)) = some (mounts, i) ∧
        (vfsMountFlags vfsRoot s t c = (-1, s.setMounts (s.taskNs t) mounts) ∨
          ∃ root hasUnmount, MountsRoot s t c root hasUnmount ∧
            vfsMountFlags vfsRoot s t c =
              mountRoot vfsRoot (s.setMounts (s.taskNs t) mounts) (s.taskNs t) i root hasUnmount c) := by
  unfold vfsMountFlags
  cases hb : busy c (s.mountsOf (s.taskNs t)) with
  | true => exact .inl (by simp [hb])
  | false =>
    cases hf : c.fsType with
    | none => exact .inl (by simp)
    | some hasUnmount =>
      cases hcl : claimSlot c.grows (s.mountsOf (s.taskNs t)) with
      | none => exact .inl (by simp [hcl])
      | some mi =>
        obtain ⟨mounts, i⟩ := mi
        refine .inr ⟨mounts, i, rfl, ?_⟩
        cases hstr : c.strings with
        | false => exact .inl (by simp [hb, hcl])
        | true =>
          cases hr : c.root with
          | none => exact .inl (by simp [hb, hcl])
          | some root =>
            exact .inr ⟨root, hasUnmount, ⟨hb, hf, by simp [hcl], hstr, hr⟩, by simp [hb, hcl]⟩

/-- A mount that meets its condition keeps the invariant, and a failed one changes no entry and no
node. -/
theorem vfsMountFlags_inv [Fintype Task] (h : MountInv s) (t : Task) (c : MountCall Node)
    (hok : ∀ root hasUnmount, MountsRoot s t c root hasUnmount →
      MountOk vfsRoot s c root hasUnmount) :
    MountInv (vfsMountFlags vfsRoot s t c).2 ∧
      ((vfsMountFlags vfsRoot s t c).1 = -1 → SameMounts s (vfsMountFlags vfsRoot s t c).2) := by
  obtain heq | ⟨mounts, i, hcl, hrest⟩ := @vfsMountFlags_cases _ _ s _ vfsRoot t c
  · rw [heq]
    exact ⟨h, fun _ => ⟨fun _ _ => rfl, rfl⟩⟩
  · obtain ⟨hinv, hu, hslot⟩ := h.claim t hcl
    obtain heq | ⟨root, hasUnmount, hgoes, heq⟩ := hrest
    · rw [heq]
      exact ⟨hinv, fun _ => ⟨hu, rfl⟩⟩
    · rw [heq]
      have hok' := (mountOk_congr hu rfl rfl).mpr (hok root hasUnmount hgoes)
      have hlive : ((s.setMounts (s.taskNs t) mounts).nss (s.taskNs t)).isSome :=
        hinv.ns.taskNs_live t
      have hslot' : ((s.setMounts (s.taskNs t) mounts).mountsOf (s.taskNs t))[i]? =
          some Slot.free := by
        rw [mountsOf_setMounts (h.ns.taskNs_live t), if_pos rfl, hslot]
      cases hl : c.lateFails with
      | true =>
        rw [MountOk, if_pos hl] at hok'
        obtain ⟨s', hs', hst⟩ := mountRoot_late vfsRoot root hasUnmount hl hok'.1 hslot'
        rw [hs']
        have hsound := late_sound hinv.sound hlive hslot' hst hok'.2
        refine ⟨hst.inv hinv hlive (fun _ => rfl) hsound, fun _ => ⟨?_, hst.nodes⟩⟩
        intro id j
        rw [hst.used_none hlive]
        split
        · rename_i hid
          rw [hid.1, hid.2, ← hu, used_of_free hslot']
        · exact hu id j
      | false =>
        rw [MountOk, if_neg (by simp [hl])] at hok'
        obtain ⟨s', hs', hst⟩ := mountRoot_done vfsRoot root hasUnmount hl hslot'
        rw [hs']
        have hsound := done_sound hinv.sound hlive hslot' hst hok'
        exact ⟨hst.inv hinv hlive (fun h => by cases h) hsound, fun h => by cases h⟩

/-- An unmount does nothing, or takes the entry of its path out. -/
theorem vfsUnmount_cases (t : Task) (path : Text) (ret : Int) :
    (vfsUnmount s t path ret).2 = s ∨
      ∃ i e c, findMount path (s.mountsOf (s.taskNs t)) = some i ∧
        s.used (s.taskNs t) i = some (e, c) ∧ ¬ (e.hasUnmount = true ∧ ret ≠ 0) ∧
        Stored s (vfsUnmount s t path ret).2 (s.taskNs t) i Slot.free (uncover c s.nodes)
          (Function.update s.alive e.root false) := by
  cases hf : findMount path (s.mountsOf (s.taskNs t)) with
  | none => exact .inl (by simp [vfsUnmount, hf])
  | some i =>
    obtain ⟨e, c, hslot, hused⟩ := findMount_used hf
    by_cases hfail : e.hasUnmount = true ∧ ret ≠ 0
    · exact .inl (by simp [vfsUnmount, hf, hslot, hfail])
    · refine .inr ⟨i, e, c, rfl, hused, hfail, ?_⟩
      have heq : (vfsUnmount s t path ret).2 =
          { s.setMounts (s.taskNs t) ((s.mountsOf (s.taskNs t)).set i Slot.free) with
            nodes := uncover c s.nodes
            alive := Function.update s.alive e.root false } := by
        unfold vfsUnmount
        simp only [hf, hslot]
        rw [if_neg (by simpa using hfail)]
      rw [heq]
      exact ⟨rfl, rfl, rfl, rfl, rfl⟩

theorem vfsUnmount_inv [Fintype Task] (h : MountInv s) (t : Task) (path : Text) (ret : Int)
    (hok : ∀ i e c, findMount path (s.mountsOf (s.taskNs t)) = some i →
      s.used (s.taskNs t) i = some (e, c) → ¬ (e.hasUnmount = true ∧ ret ≠ 0) →
      UnmountOk s (s.taskNs t) i e c) : MountInv (vfsUnmount s t path ret).2 := by
  obtain heq | ⟨i, e, c, hf, hused, hfail, hst⟩ := vfsUnmount_cases (s := s) t path ret
  · rw [heq]
    exact h
  · have hlive := h.ns.taskNs_live t
    have hothers := hok i e c hf hused hfail
    have hu := hst.used_none hlive
    have hsound : MountsSound (vfsUnmount s t path ret).2 := by
      apply @unmounted_sound _ _ s _ _ e.root c h.sound
      · intro id j e' c' he'
        rw [hu] at he'
        split at he'
        · cases he'
        · rename_i hslot
          obtain ⟨hroot, hnode⟩ := hothers id j e' c' hslot he'
          refine ⟨he', hroot, ?_⟩
          intro n hn
          obtain ⟨hne, hptr⟩ := hnode n hn
          exact ⟨Ne.symm hne, hptr⟩
      · intro n hne hcov
        obtain ⟨id, j, e', he'⟩ := hcov
        refine ⟨id, j, e', ?_⟩
        rw [hu, if_neg, he']
        rintro ⟨rfl, rfl⟩
        rw [hused] at he'
        cases he'
        exact hne rfl
      · exact hst.alive
      · intro n hne
        rw [hst.nodes]
        cases c with
        | none => rfl
        | some m =>
          have hnm : n ≠ m := by
            rintro rfl
            exact hne rfl
          simp [uncover, hnm]
      · intro n hn
        subst hn
        simp [hst.nodes, uncover]
    exact hst.inv h hlive (fun _ => rfl) hsound

end Steps

section Unshare

variable {Task Node : Type*} [DecidableEq Task] {s : MountState Task Node}

/-- The namespace that `vfs_unshare_ns` adds, before the old one loses the task's reference. -/
def unshared (s : MountState Task Node) (t : Task) (strings : Nat → Bool) : MountState Task Node :=
  { s with
    nss := Function.update s.nss s.nextNs
      (some ⟨(s.mountsOf (s.taskNs t)).mapIdx fun i sl => copySlot (strings i) sl, 1⟩)
    nextNs := s.nextNs + 1
    tasks := Function.update s.tasks t (some s.nextNs) }

theorem unshared_mountsOf (t : Task) (strings : Nat → Bool) (id : Nat) :
    (unshared s t strings).mountsOf id =
      if id = s.nextNs then
        (s.mountsOf (s.taskNs t)).mapIdx fun i sl => copySlot (strings i) sl
      else s.mountsOf id := by
  simp only [MountState.mountsOf, unshared]
  by_cases hid : id = s.nextNs
  · subst hid
    simp
  · simp [hid]

end Unshare

section Tasks

variable {Task Node : Type*} {s s' : MountState Task Node}

/-- The references that the tasks need, one more of them for the namespace about to lose one. -/
structure Spare [Fintype Task] (s : MountState Task Node) (id : Nat) : Prop where
  initLive : (s.nss initNs).isSome
  taskLive : ∀ t id', s.tasks t = some id' → (s.nss id').isSome
  counted : ∀ id' ns, id' ≠ initNs → s.nss id' = some ns →
    (s.holders id' : Int) + (if id' = id then 1 else 0) ≤ ns.refs
  unborn : ∀ id', s.nextNs ≤ id' → s.nss id' = none

theorem dropRef_nss {id id' : Nat} (h : id' ≠ id) : (dropRef s id).nss id' = s.nss id' := by
  unfold dropRef
  split
  · rfl
  · simp [h]

@[simp]
theorem dropRef_tasks {id : Nat} : (dropRef s id).tasks = s.tasks := by
  unfold dropRef
  split <;> rfl

@[simp]
theorem dropRef_nextNs {id : Nat} : (dropRef s id).nextNs = s.nextNs := by
  unfold dropRef
  split <;> rfl

@[simp]
theorem dropRef_nodes {id : Nat} : (dropRef s id).nodes = s.nodes := by
  unfold dropRef
  split <;> rfl

@[simp]
theorem dropRef_alive {id : Nat} : (dropRef s id).alive = s.alive := by
  unfold dropRef
  split <;> rfl

/-- The namespace that loses a reference keeps its table, unless it was the last one. -/
theorem dropRef_nss_self {id : Nat} (hi : id ≠ initNs) (h : s.nss id = some ns) :
    (dropRef s id).nss id =
      if ns.refs - 1 ≤ 0 then none else some { ns with refs := ns.refs - 1 } := by
  unfold dropRef
  simp [hi, h]

theorem dropRef_mountsOf {id id' : Nat} [Decidable (LastRef s id)] :
    (dropRef s id).mountsOf id' = if id' = id ∧ LastRef s id then [] else s.mountsOf id' := by
  unfold MountState.mountsOf
  by_cases hid : id' = id
  · subst hid
    by_cases hl : LastRef s id'
    · obtain ⟨hi, ns, hns, hrefs⟩ := hl
      rw [if_pos ⟨rfl, hi, ns, hns, hrefs⟩, dropRef_nss_self hi hns, if_pos hrefs]
      rfl
    · rw [if_neg (fun h => hl h.2)]
      by_cases hi : id' = initNs
      · unfold dropRef
        rw [if_pos hi]
      · cases hns : s.nss id' with
        | none =>
          unfold dropRef
          simp [hi, hns]
        | some ns =>
          have hrefs : ¬ ns.refs - 1 ≤ 0 := fun hr => hl ⟨hi, ns, hns, hr⟩
          rw [dropRef_nss_self hi hns, if_neg hrefs]
          rfl
  · rw [dropRef_nss hid, if_neg (fun h => hid h.1)]

/-- Dropping a reference only takes entries away, and those it takes cover nothing alone. -/
theorem dropRef_sound {id : Nat} (h : MountsSound s) (hok : DropOk s id) :
    MountsSound (dropRef s id) := by
  classical
  have hsub : ∀ id' j x, (dropRef s id).used id' j = some x → s.used id' j = some x := by
    intro id' j x hx
    unfold MountState.used at hx ⊢
    rw [dropRef_mountsOf] at hx
    split at hx
    · cases hx
    · exact hx
  have hkeep : ∀ id' j, ¬ (id' = id ∧ LastRef s id) → (dropRef s id).used id' j = s.used id' j := by
    intro id' j hne
    unfold MountState.used
    rw [dropRef_mountsOf, if_neg hne]
  apply recounted_sound h
  · intro id' j e c he
    exact ⟨id', j, c, hsub id' j _ he⟩
  · intro n
    constructor
    · intro hcov
      obtain ⟨id', j, e, he⟩ := hcov
      exact ⟨id', j, e, hsub id' j _ he⟩
    · intro hcov
      obtain ⟨id', j, e, he⟩ := hcov
      by_cases hfreed : id' = id ∧ LastRef s id
      · obtain ⟨rfl, hlast⟩ := hfreed
        obtain ⟨id'', j', e', hne, he'⟩ := hok hlast j e n he
        exact ⟨id'', j', e', by rw [hkeep _ _ (fun h => hne h.1), he']⟩
      · exact ⟨id', j, e, by rw [hkeep _ _ hfreed, he]⟩
  · exact dropRef_nodes
  · exact dropRef_alive

theorem dropRef_freeClear {id : Nat}
    (h : ∀ id, ∀ sl ∈ s.mountsOf id, sl.entry = none → sl.covered = none) :
    ∀ id', ∀ sl ∈ (dropRef s id).mountsOf id', sl.entry = none → sl.covered = none := by
  classical
  intro id' sl hsl hfree
  rw [dropRef_mountsOf] at hsl
  split at hsl
  · cases hsl
  · exact h id' sl hsl hfree

/-- The copies name what the old table names and cover nothing. -/
theorem usedIn_copy {mounts : List (Slot Node)} {strings : Nat → Bool}
    (h : usedIn (mounts.mapIdx fun i sl => copySlot (strings i) sl) i = some (e, c)) :
    c = none ∧ ∃ c', usedIn mounts i = some (e, c') := by
  rw [usedIn_some, List.getElem?_mapIdx, Option.map_eq_some_iff] at h
  obtain ⟨sl, hsl, hcopy⟩ := h
  obtain ⟨entry, covered⟩ := sl
  cases entry with
  | none => simp [copySlot, Slot.free] at hcopy
  | some e' =>
    cases hs : strings i with
    | false => simp [copySlot, Slot.free, hs] at hcopy
    | true =>
      simp only [copySlot, hs, if_true, Slot.mk.injEq, Option.some.injEq] at hcopy
      obtain ⟨rfl, rfl⟩ := hcopy
      exact ⟨rfl, covered, usedIn_some.mpr hsl⟩

variable [Fintype Task]

theorem holders_pos {id : Nat} (h : s.tasks t = some id) : 0 < s.holders id := by
  have hone := Threads.le_total (fun x => if x = some id then 1 else 0) s.tasks t
  simp only [h, if_true] at hone
  exact hone

theorem NsInv.ne_nextNs {id : Nat} (h : NsInv s) (hlive : (s.nss id).isSome) : id ≠ s.nextNs := by
  rintro rfl
  rw [h.unborn _ (Nat.le_refl _)] at hlive
  cases hlive

theorem Spare.dropRef {id : Nat} (h : Spare s id) : NsInv (dropRef s id) := by
  have hself : ∀ ns, id ≠ initNs → s.nss id = some ns → (s.holders id : Int) + 1 ≤ ns.refs := by
    intro ns hi hns
    have := h.counted id ns hi hns
    rwa [if_pos rfl] at this
  constructor
  · by_cases hi : id = initNs
    · unfold Vfs.dropRef
      rw [if_pos hi]
      exact h.initLive
    · rw [dropRef_nss (Ne.symm hi)]
      exact h.initLive
  · intro t id' ht
    rw [dropRef_tasks] at ht
    have hlive := h.taskLive t id' ht
    by_cases hid : id' = id
    · subst hid
      by_cases hi : id' = initNs
      · unfold Vfs.dropRef
        rw [if_pos hi]
        exact hlive
      · obtain ⟨ns, hns⟩ := Option.isSome_iff_exists.mp hlive
        have hpos := holders_pos ht
        have hrefs := hself ns hi hns
        rw [dropRef_nss_self hi hns, if_neg (by omega)]
        rfl
    · rw [dropRef_nss hid]
      exact hlive
  · intro id' ns hi hns
    have hsame : (Vfs.dropRef s id).holders id' = s.holders id' := by
      unfold MountState.holders
      rw [dropRef_tasks]
    rw [hsame]
    by_cases hid : id' = id
    · subst hid
      cases hold : s.nss id' with
      | none =>
        unfold Vfs.dropRef at hns
        simp [hi, hold] at hns
      | some old =>
        have hrefs := hself old hi hold
        rw [dropRef_nss_self hi hold] at hns
        split at hns
        · cases hns
        · obtain rfl := Option.some.inj hns
          simp only
          omega
    · rw [dropRef_nss hid] at hns
      have := h.counted id' ns hi hns
      rwa [if_neg hid, add_zero] at this
  · intro id' hid'
    rw [dropRef_nextNs] at hid'
    have hnone := h.unborn id' hid'
    by_cases hid : id' = id
    · subst hid
      unfold Vfs.dropRef
      split
      · exact hnone
      · simp [hnone]
    · rw [dropRef_nss hid]
      exact hnone

theorem Spare.dropRef_inv {id : Nat} (h : Spare s id) (hsound : MountsSound s)
    (hclear : ∀ id, ∀ sl ∈ s.mountsOf id, sl.entry = none → sl.covered = none)
    (hok : DropOk s id) : MountInv (Vfs.dropRef s id) :=
  ⟨dropRef_sound hsound hok, dropRef_freeClear hclear, h.dropRef⟩

variable [DecidableEq Task]

theorem holders_update (ht : s'.tasks = Function.update s.tasks t x) (id : Nat) :
    s'.holders id + (if s.tasks t = some id then 1 else 0) =
      s.holders id + (if x = some id then 1 else 0) := by
  unfold MountState.holders
  rw [ht]
  exact Threads.total_update (fun x => if x = some id then 1 else 0) s.tasks t x

theorem vfsMntNsRelease_inv (h : MountInv s) (t : Task)
    (hok : ∀ id, s.tasks t = some id → DropOk s id) : MountInv (vfsMntNsRelease s t) := by
  cases ht : s.tasks t with
  | none =>
    have heq : vfsMntNsRelease s t = s := by simp [vfsMntNsRelease, ht]
    rw [heq]
    exact h
  | some id =>
    have heq : vfsMntNsRelease s t =
        dropRef { s with tasks := Function.update s.tasks t none } id := by
      simp [vfsMntNsRelease, ht]
    rw [heq]
    have hspare : Spare { s with tasks := Function.update s.tasks t none } id := by
      constructor
      · exact h.ns.initLive
      · intro t' id' hid'
        by_cases htt : t' = t
        · subst htt
          simp at hid'
        · simp only [Function.update_of_ne htt] at hid'
          exact h.ns.taskLive t' id' hid'
      · intro id' ns hi hns
        have hsum := @holders_update _ _ s { s with tasks := Function.update s.tasks t none }
          _ _ t none rfl id'
        have hold := h.ns.counted id' ns hi hns
        rw [ht] at hsum
        by_cases hid : id' = id
        · subst hid
          rw [if_pos rfl, if_neg (by simp)] at hsum
          rw [if_pos rfl]
          omega
        · simp only [Option.some.injEq, Ne.symm hid, reduceCtorEq, if_false, add_zero] at hsum
          rw [if_neg hid, hsum, add_zero]
          exact hold
      · exact h.ns.unborn
    exact hspare.dropRef_inv (recounted_sound h.sound (fun id j e c he => ⟨id, j, c, he⟩)
      (fun _ => Iff.rfl) rfl rfl) h.freeClear (hok id ht)

theorem vfsMntNsFork_inv (h : MountInv s) (parent child : Task) :
    MountInv (vfsMntNsFork s parent child) := by
  have hlive := h.ns.taskNs_live parent
  have hnss : ∀ id, ((vfsMntNsFork s parent child).nss id).map Ns.mounts =
      (s.nss id).map Ns.mounts := by
    intro id
    simp only [vfsMntNsFork]
    split
    · rfl
    · by_cases hid : id = s.taskNs parent
      · subst hid
        simp [Function.comp_def]
      · simp [hid]
  have hm : ∀ id, (vfsMntNsFork s parent child).mountsOf id = s.mountsOf id := by
    intro id
    unfold MountState.mountsOf
    rw [hnss]
  have hsome : ∀ id, ((vfsMntNsFork s parent child).nss id).isSome = (s.nss id).isSome := by
    intro id
    have := congrArg Option.isSome (hnss id)
    rwa [Option.isSome_map, Option.isSome_map] at this
  have hu : ∀ id j, (vfsMntNsFork s parent child).used id j = s.used id j := by
    intro id j
    unfold MountState.used
    rw [hm]
  have hsum := @holders_update _ _ s (vfsMntNsFork s parent child) _ _ child
    (some (s.taskNs parent)) rfl
  constructor
  · apply recounted_sound h.sound
    · intro id j e c he
      exact ⟨id, j, c, hu id j ▸ he⟩
    · intro n
      simp only [MountState.Covered, hu]
    · rfl
    · rfl
  · intro id sl hsl
    exact h.freeClear id sl (hm id ▸ hsl)
  · constructor
    · rw [hsome]
      exact h.ns.initLive
    · intro t id ht
      rw [hsome]
      by_cases htc : t = child
      · subst htc
        simp only [vfsMntNsFork, Function.update_self, Option.some.injEq] at ht
        rw [← ht]
        exact hlive
      · simp only [vfsMntNsFork, Function.update_of_ne htc] at ht
        exact h.ns.taskLive t id ht
    · intro id ns hi hns
      have hid := hsum id
      by_cases hp : id = s.taskNs parent
      · subst hp
        obtain ⟨old, hold⟩ := Option.isSome_iff_exists.mp hlive
        have hcount := h.ns.counted _ old hi hold
        simp only [vfsMntNsFork, if_neg hi, Function.update_self, hold, Option.map_some,
          Option.some.injEq] at hns
        subst hns
        rw [if_pos (rfl : some (s.taskNs parent) = some (s.taskNs parent))] at hid
        simp only
        omega
      · have hns' : s.nss id = some ns := by
          simp only [vfsMntNsFork] at hns
          split at hns
          · exact hns
          · rwa [Function.update_of_ne hp] at hns
        have hcount := h.ns.counted id ns hi hns'
        have hne : some (s.taskNs parent) ≠ some id := by simpa using Ne.symm hp
        rw [if_neg hne] at hid
        omega
    · intro id hid
      have := hsome id
      rw [h.ns.unborn id hid] at this
      exact Option.not_isSome_iff_eq_none.mp (by simp [this])

theorem unshared_spare (h : NsInv s) (t : Task) (strings : Nat → Bool) :
    Spare (unshared s t strings) (s.taskNs t) := by
  have hold := h.ne_nextNs (h.taskNs_live t)
  have hkeep : ∀ id, id ≠ s.nextNs → (unshared s t strings).nss id = s.nss id := by
    intro id hid
    simp [unshared, hid]
  have hsum := @holders_update _ _ s (unshared s t strings) _ _ t (some s.nextNs) rfl
  constructor
  · rw [hkeep _ (h.ne_nextNs h.initLive)]
    exact h.initLive
  · intro t' id hid
    by_cases htt : t' = t
    · subst htt
      simp only [unshared, Function.update_self, Option.some.injEq] at hid ⊢
      subst hid
      simp
    · simp only [unshared, Function.update_of_ne htt] at hid
      have hlive := h.taskLive t' id hid
      rw [hkeep _ (h.ne_nextNs hlive)]
      exact hlive
  · intro id ns hi hns
    have hid := hsum id
    by_cases hnew : id = s.nextNs
    · subst hnew
      -- no task was in the namespace that did not exist
      have hzero : s.holders s.nextNs = 0 := by
        by_contra hpos
        obtain ⟨t', ht'⟩ := Threads.exists_pos_of_total (Nat.pos_of_ne_zero hpos)
        have hin : s.tasks t' = some s.nextNs := by
          by_contra hout
          rw [if_neg hout] at ht'
          omega
        exact h.ne_nextNs (h.taskLive t' _ hin) rfl
      simp only [unshared, Function.update_self, Option.some.injEq] at hns
      subst hns
      rw [if_neg (Ne.symm hold)]
      rw [if_pos (rfl : some s.nextNs = some s.nextNs)] at hid
      simp only
      omega
    · rw [hkeep id hnew] at hns
      have hcount := h.counted id ns hi hns
      have hne : some s.nextNs ≠ some id := by simpa using Ne.symm hnew
      rw [if_neg hne] at hid
      by_cases hmine : id = s.taskNs t
      · have hin : s.tasks t = some id := by
          unfold MountState.taskNs at hmine
          cases ht : s.tasks t with
          | none =>
            rw [ht] at hmine
            exact absurd hmine hi
          | some id' =>
            rw [ht] at hmine
            rw [hmine]
            rfl
        rw [if_pos hin] at hid
        rw [if_pos hmine]
        omega
      · rw [if_neg hmine]
        omega
  · intro id hid
    have hlt : s.nextNs < id := hid
    rw [hkeep id (by omega)]
    exact h.unborn id (by omega)

theorem vfsUnshareNs_inv (h : MountInv s) (t : Task) (mem : Bool) (strings : Nat → Bool)
    (hok : mem = true → DropOk s (s.taskNs t)) : MountInv (vfsUnshareNs s t mem strings).2 := by
  cases mem with
  | false => exact h
  | true =>
    have heq : (vfsUnshareNs s t true strings).2 = dropRef (unshared s t strings) (s.taskNs t) := rfl
    rw [heq]
    have hold := h.ns.ne_nextNs (h.ns.taskNs_live t)
    have hnone : ∀ j, s.used s.nextNs j = none := by
      intro j
      simp [MountState.used, MountState.mountsOf, h.ns.unborn _ (Nat.le_refl s.nextNs), usedIn]
    have hkeep : ∀ id j, id ≠ s.nextNs → (unshared s t strings).used id j = s.used id j := by
      intro id j hid
      unfold MountState.used
      rw [unshared_mountsOf, if_neg hid]
    have hcopy : ∀ j e c, (unshared s t strings).used s.nextNs j = some (e, c) →
        c = none ∧ ∃ c', s.used (s.taskNs t) j = some (e, c') := by
      intro j e c he
      unfold MountState.used at he ⊢
      rw [unshared_mountsOf, if_pos rfl] at he
      exact usedIn_copy he
    have hcov : ∀ n, (unshared s t strings).Covered n ↔ s.Covered n := by
      intro n
      constructor
      · intro hc
        obtain ⟨id, j, e, he⟩ := hc
        by_cases hid : id = s.nextNs
        · subst hid
          obtain ⟨hnil, -⟩ := hcopy j e _ he
          cases hnil
        · exact ⟨id, j, e, hkeep id j hid ▸ he⟩
      · intro hc
        obtain ⟨id, j, e, he⟩ := hc
        refine ⟨id, j, e, ?_⟩
        rw [hkeep, he]
        rintro rfl
        rw [hnone] at he
        cases he
    have hsound : MountsSound (unshared s t strings) := by
      apply recounted_sound h.sound
      · intro id j e c he
        by_cases hid : id = s.nextNs
        · subst hid
          obtain ⟨-, c', hc'⟩ := hcopy j e c he
          exact ⟨_, j, c', hc'⟩
        · exact ⟨id, j, c, hkeep id j hid ▸ he⟩
      · exact hcov
      · rfl
      · rfl
    have hclear : ∀ id, ∀ sl ∈ (unshared s t strings).mountsOf id,
        sl.entry = none → sl.covered = none := by
      intro id sl hsl hfree
      rw [unshared_mountsOf] at hsl
      split at hsl
      · obtain ⟨j, hj, rfl⟩ := List.mem_mapIdx.mp hsl
        unfold copySlot
        cases hent : ((s.mountsOf (s.taskNs t))[j]).entry with
        | none => rfl
        | some e =>
          simp only
          split <;> rfl
      · exact h.freeClear id sl hsl hfree
    apply (unshared_spare h.ns t strings).dropRef_inv hsound hclear
    intro hlast j e n he
    rw [hkeep _ _ hold] at he
    have hlast' : LastRef s (s.taskNs t) := by
      obtain ⟨hi, ns, hns, hrefs⟩ := hlast
      refine ⟨hi, ns, ?_, hrefs⟩
      simpa [unshared, hold] using hns
    obtain ⟨id', j', e', hne, he'⟩ := hok rfl hlast' j e n he
    refine ⟨id', j', e', hne, ?_⟩
    rw [hkeep, he']
    rintro rfl
    rw [hnone] at he'
    cases he'

end Tasks

section Runs

variable {Task Node : Type*}

/-- No mounts, every task in the initial namespace, no node a mount point. -/
def MountState.start (refs : Node → Nat) : MountState Task Node where
  nss id := if id = initNs then some ⟨[], 1⟩ else none
  nextNs := 1
  tasks _ := none
  nodes n := ⟨false, none, refs n⟩
  alive _ := false

theorem start_used (refs : Node → Nat) (id i : Nat) :
    (MountState.start refs : MountState Task Node).used id i = none := by
  unfold MountState.used MountState.mountsOf MountState.start
  by_cases hid : id = initNs <;> simp [hid, usedIn]

variable [Fintype Task]

theorem start_inv (refs : Node → Nat) : MountInv (MountState.start refs : MountState Task Node) := by
  have hu := @start_used Task Node refs
  refine ⟨⟨?_, ?_⟩, ?_, ⟨rfl, ?_, ?_, ?_⟩⟩
  · intro id i e c he
    rw [hu] at he
    cases he
  · intro n
    simp only [MountState.Redirected, MountState.Covered, hu]
    simp [MountState.start]
  · intro id sl hsl
    unfold MountState.mountsOf MountState.start at hsl
    by_cases hid : id = initNs <;> simp [hid] at hsl
  · intro t id ht
    cases ht
  · intro id ns hi hns
    simp [MountState.start, hi] at hns
  · intro id hid
    have hpos : 1 ≤ id := hid
    simp only [MountState.start]
    rw [if_neg (by unfold initNs; omega)]

variable [DecidableEq Task] [DecidableEq Node]

/-- What is promised of a step: the tables and the nodes are sound after it, and a mount that returned
-1 left them as they were. -/
def NamespaceKept (vfsRoot : Node) (s : MountState Task Node) (op : MountOp Task Node) : Prop :=
  MountsSound (namespaceStep vfsRoot s op) ∧
    ∀ t c, op = .mount t c → (vfsMountFlags vfsRoot s t c).1 = -1 →
      SameMounts s (vfsMountFlags vfsRoot s t c).2

theorem namespaceStep_inv {s : MountState Task Node} (h : MountInv s) (op : MountOp Task Node)
    (hok : NamespaceOk vfsRoot s op) :
    MountInv (namespaceStep vfsRoot s op) ∧ NamespaceKept vfsRoot s op := by
  have hother : (∀ t c, op ≠ .mount t c) → MountInv (namespaceStep vfsRoot s op) →
      MountInv (namespaceStep vfsRoot s op) ∧ NamespaceKept vfsRoot s op :=
    fun hne hinv => ⟨hinv, hinv.sound, fun t c heq => absurd heq (hne t c)⟩
  cases op with
  | mount t c =>
    obtain ⟨hinv, hfail⟩ := vfsMountFlags_inv h t c hok
    refine ⟨hinv, hinv.sound, ?_⟩
    intro t' c' heq
    cases heq
    exact hfail
  | unmount t path ret =>
    apply hother (by simp)
    exact vfsUnmount_inv h t path ret hok
  | unshare t mem strings =>
    apply hother (by simp)
    exact vfsUnshareNs_inv h t mem strings hok
  | fork parent child =>
    apply hother (by simp)
    exact vfsMntNsFork_inv h parent child
  | release t =>
    apply hother (by simp)
    exact vfsMntNsRelease_inv h t hok

/-- A run whose mounts do not fail after redirecting a node, whose unmounts find no copy of their entry
and whose released namespaces cover nothing alone keeps the tables sound. -/
theorem namespaces_sound (vfsRoot : Node) (refs : Node → Nat) (ops : List (MountOp Task Node))
    (h : Along (namespaceStep vfsRoot) (NamespaceOk vfsRoot) (MountState.start refs) ops) :
    Along (namespaceStep vfsRoot) (NamespaceKept vfsRoot) (MountState.start refs) ops :=
  h.ensures (fun _ op hinv hok => namespaceStep_inv hinv op hok) (start_inv refs)

/-- A file system mounted on node 1 of the tree at 0, with root 2. -/
def exampleMount : MountCall (Fin 3) where
  device := none
  mountpoint := ['/', 'm']
  fsType := some true
  grows := true
  strings := true
  root := some 2
  existing := some 1
  nameSet := true
  pathMem := true

theorem namespaces_sound_example :
    Along (namespaceStep 0) (NamespaceKept 0) (MountState.start fun _ => 1 : MountState (Fin 2) (Fin 3))
      [.mount 0 exampleMount, .fork 0 1, .unmount 1 ['/', 'm'] 0] := by
  apply namespaces_sound
  refine ⟨?_, trivial, ?_, trivial⟩
  · intro root hasUnmount _
    rw [MountOk, if_neg (by decide)]
    show CoverOk 0 _ root (some 1)
    rw [CoverOk, if_pos (by decide)]
    intro n _ hflag
    cases hflag
  · intro i e c hf hused _ id' i' e' c' hne he'
    have hi : some 0 = some i := hf
    obtain rfl := Option.some.inj hi
    cases id' with
    | zero =>
      cases i' with
      | zero => exact absurd ⟨rfl, rfl⟩ hne
      | succ k => cases he'
    | succ k => cases he'

/-- A namespace copied from the initial one keeps the entry when it is unmounted there. -/
theorem copied_entry_dead :
    ¬ Along (namespaceStep 0) (NamespaceKept 0) (MountState.start fun _ => 1 : MountState (Fin 2) (Fin 3))
      [.mount 0 exampleMount, .unshare 1 true (fun _ => true), .unmount 0 ['/', 'm'] 0] := by
  intro h
  obtain ⟨-, -, ⟨hsound, -⟩, -⟩ := h
  have hdead := hsound.rootsAlive 1 0 ⟨['/', 'm'], [], 2, true⟩ none (by decide)
  revert hdead
  decide

end Runs

end Lebirun.Vfs
