import Mathlib
import Lebirun.Ramfs.Links

namespace Lebirun.Ramfs
set_option autoImplicit true

/-- The directories that a path can lead to. -/
def Attached (s : State) (d : Nat) : Prop := s.par d ≠ none ∨ d ∈ s.roots

theorem findChild_par (h : Links s) (hf : s.findChild d name = some i) : s.par i = some d :=
  (h.tree d i).mp (List.mem_of_find?_eq_some hf)

theorem walk_attached (h : Links s) (hd : Attached s d) (hw : s.walk d names = some i) :
    Attached s i := by
  induction names generalizing d with
  | nil =>
    obtain rfl := Option.some.inj hw
    exact hd
  | cons name names ih =>
    obtain ⟨c, hc, hrest⟩ := Option.bind_eq_some_iff.mp hw
    have hpar := findChild_par h hc
    exact ih (.inl (by rw [hpar]; simp)) hrest

theorem dir_attached (h : Links s) {p : DirPath} (hp : s.dir p = some d) : Attached s d := by
  by_cases hroot : p.root ∈ s.roots
  · simp only [State.dir, State.find, if_pos hroot] at hp
    exact walk_attached h (.inr hroot) hp
  · simp [State.dir, State.find, hroot] at hp

section Counters

variable {s s' : State}

/-- Only the counters differ. -/
structure SameEntries (s s' : State) : Prop where
  entries : s'.entries = s.entries
  next : s'.next = s.next
  roots : s'.roots = s.roots
  origin : s'.origin = s.origin
  opens : s'.opens = s.opens
  freed : s'.freed = s.freed

theorem SameEntries.sameLinks (h : SameEntries s s') : SameLinks s s' :=
  .of_entries h.entries h.next h.roots

theorem SameEntries.refl (s : State) : SameEntries s s := ⟨rfl, rfl, rfl, rfl, rfl, rfl⟩

theorem SameEntries.trans (h : SameEntries s s') (h' : SameEntries s' s'') : SameEntries s s'' :=
  ⟨h'.entries.trans h.entries, h'.next.trans h.next, h'.roots.trans h.roots,
    h'.origin.trans h.origin, h'.opens.trans h.opens, h'.freed.trans h.freed⟩

theorem sameEntries_limitsAdd : SameEntries s (s.limitsAdd lim b n) := by
  cases lim <;> exact ⟨rfl, rfl, rfl, rfl, rfl, rfl⟩

theorem sameEntries_limitsSub : SameEntries s (s.limitsSub lim b n) := by
  cases lim <;> exact ⟨rfl, rfl, rfl, rfl, rfl, rfl⟩

theorem sameEntries_uncount : SameEntries s (s.uncount k) := by
  unfold State.uncount
  split <;> exact ⟨rfl, rfl, rfl, rfl, rfl, rfl⟩

theorem sameEntries_charge : SameEntries s (s.charge lim b) := by
  cases lim <;> exact ⟨rfl, rfl, rfl, rfl, rfl, rfl⟩

theorem sameEntries_refund : SameEntries s (s.refund lim b) := by
  cases lim <;> exact ⟨rfl, rfl, rfl, rfl, rfl, rfl⟩

end Counters

section Additions

variable {s : State}

theorem addEntry_entries (hd : d ≠ s.next) (e : Entry) (j : Nat) :
    (s.addEntry d e).entries j =
      if j = d then (s.entries d).map fun de => { de with children := s.next :: de.children }
      else if j = s.next then some { e with parent := some d }
      else s.entries j := by
  show Table.modify _ d _ j = _
  rw [Table.modify_apply, Table.put_apply, Table.put_apply, if_neg hd]

theorem addEntry_added (h : Links s) (hd : s.kindOf d = some .dir) {e : Entry}
    (hc : e.children = []) (hh : e.hardlinks = []) (hv : e.vfsNode = none)
    (hl : e.linkTarget = none) : Added s (s.addEntry d e) d e.kind none := by
  have hlive : s.kindOf d ≠ none := by
    rw [hd]
    simp
  have hne : d ≠ s.next := by
    rintro rfl
    exact hlive (h.unborn _ (Nat.le_refl _))
  obtain ⟨de, hde⟩ := State.live_iff.mp hlive
  obtain ⟨-, hkids, -, hlat, hemb, -⟩ := h.absent (h.unborn s.next (Nat.le_refl _))
  have hnone : s.entries s.next = none := Option.map_eq_none_iff.mp (h.unborn s.next (Nat.le_refl _))
  constructor
  · rfl
  · rfl
  all_goals
    intro j
    simp only [State.par, State.kids, State.target, State.later, State.kindOf, State.embedded,
      addEntry_entries hne]
    by_cases hj : j = d
    · subst hj
      simp [hne, hde]
    · by_cases hjn : j = s.next
      · subst hjn
        simp [hj, hc, hh, hv, hl, hnone]
      · simp [hj, hjn]

theorem addLink_added (h : Links s) (hd : s.kindOf d = some .dir) (ht : s.kindOf t = some .file)
    (name : Text) : Added s (s.addLink d t name) d .file (some t) := by
  have hlive : s.kindOf d ≠ none := by
    rw [hd]
    simp
  have hne : d ≠ s.next := by
    rintro rfl
    exact hlive (h.unborn _ (Nat.le_refl _))
  have htlive : s.kindOf t ≠ none := by
    rw [ht]
    simp
  have htn : t ≠ s.next := by
    rintro rfl
    exact htlive (h.unborn _ (Nat.le_refl _))
  have htd : t ≠ d := by
    rintro rfl
    rw [ht] at hd
    cases hd
  obtain ⟨de, hde⟩ := State.live_iff.mp hlive
  obtain ⟨te, hte⟩ := State.live_iff.mp htlive
  have hnone : s.entries s.next = none := Option.map_eq_none_iff.mp (h.unborn s.next (Nat.le_refl _))
  constructor
  · rfl
  · rfl
  all_goals
    intro j
    simp only [State.par, State.kids, State.target, State.later, State.kindOf, State.embedded,
      State.addLink, addEntry_entries (s := s.modify t _) hne, State.modify_entries,
      State.modify_next]
    by_cases hj : j = d
    · subst hj
      simp [hne, hde, Ne.symm htd, htd]
    · by_cases hjn : j = s.next
      · subst hjn
        simp [hj, hnone, Entry.new, htn]
      · by_cases hjt : j = t
        · subst hjt
          simp [hj, hjn, hte]
        · simp [hj, hjn, hjt, Ne.symm hjt]

theorem placed_put (h : Links s) {e : Entry} (hp : e.parent = none) (hc : e.children = [])
    (hl : e.linkTarget = none) (hh : e.hardlinks = []) (root : Bool)
    (he : s'.entries = Table.put s.entries s.next e) (hn : s'.next = s.next + 1)
    (hr : s'.roots = if root then s.next :: s.roots else s.roots) :
    Placed s s' e.kind root (e.vfsNode.any VfsNode.embedded) := by
  have hnone : s.entries s.next = none := Option.map_eq_none_iff.mp (h.unborn s.next (Nat.le_refl _))
  constructor
  · exact hn
  · exact hr
  all_goals
    intro j
    simp only [State.par, State.kids, State.target, State.later, State.kindOf, State.embedded, he,
      Table.put_apply]
    by_cases hj : j = s.next
    · subst hj
      simp [hp, hc, hl, hh, hnone]
    · simp [hj]

end Additions

section Removals

variable {s : State}

theorem freeEntry_entries (i j : Nat) :
    (s.freeEntry i).entries j = if j = i then none else s.entries j :=
  Table.erase_apply i j

theorem freeEntry_fields (i j : Nat) :
    (s.freeEntry i).par j = (if j = i then none else s.par j) ∧
      (s.freeEntry i).kids j = (if j = i then [] else s.kids j) ∧
      (s.freeEntry i).target j = (if j = i then none else s.target j) ∧
      (s.freeEntry i).later j = (if j = i then [] else s.later j) ∧
      (s.freeEntry i).kindOf j = (if j = i then none else s.kindOf j) ∧
      (s.freeEntry i).embedded j = (if j = i then false else s.embedded j) := by
  simp only [State.par, State.kids, State.target, State.later, State.kindOf, State.embedded,
    freeEntry_entries]
  by_cases hj : j = i <;> simp [hj]

theorem freeEntry_erased (hp : s.par i = none) (hk : s.kids i = []) (hl : s.later i = [])
    (ht : s.target i = none) : Erased s (s.freeEntry i) i := by
  have hno : ∀ j, s.target i ≠ some j := by
    rw [ht]
    simp
  constructor
  · rfl
  · rfl
  all_goals
    intro j
    obtain ⟨h1, h2, h3, h4, h5, h6⟩ := freeEntry_fields (s := s) i j
  · rw [h1]
    by_cases hj : j = i <;> simp [hj, hp]
  · rw [h2]
    by_cases hj : j = i <;> simp [hj, hk]
  · exact h3
  · rw [h4, if_neg (hno j)]
    by_cases hj : j = i <;> simp [hj, hl]
  · exact h5
  · exact h6

theorem Erased.of_same (h : Erased s' s'' i) (hs : SameLinks s s') : Erased s s'' i := by
  constructor
  · exact h.next.trans hs.next
  · exact h.roots.trans hs.roots
  all_goals intro j
  · rw [h.par, hs.par]
  · rw [h.kids, hs.kids]
  · rw [h.target, hs.target]
  · rw [h.later, hs.target, hs.later]
  · rw [h.kindOf, hs.kindOf]
  · rw [h.embedded, hs.embedded]

/-- `destroyEntry` of a later name, up to the inode it may take along. -/
def State.dropName (s : State) (t i : Nat) : State :=
  (s.modify t fun e => { e with hardlinks := e.hardlinks.erase i }).freeEntry i

theorem dropName_erased (hp : s.par i = none) (hk : s.kids i = []) (hl : s.later i = [])
    (ht : s.target i = some t) : Erased s (s.dropName t i) i := by
  constructor
  · rfl
  · rfl
  all_goals
    intro j
    obtain ⟨h1, h2, h3, h4, h5, h6⟩ := freeEntry_fields
      (s := s.modify t fun e => { e with hardlinks := e.hardlinks.erase i }) i j
  · rw [State.dropName, h1, State.modify_par]
    · by_cases hj : j = i <;> simp [hj, hp]
    · exact fun _ => rfl
  · rw [State.dropName, h2, State.modify_kids]
    · by_cases hj : j = i <;> simp [hj, hk]
    · exact fun _ => rfl
  · rw [State.dropName, h3, State.modify_target]
    exact fun _ => rfl
  · rw [State.dropName, h4, State.modify_later_erase (fun _ => rfl), ht]
    by_cases hj : j = i
    · subst hj
      simp [hl]
    · by_cases hjt : j = t
      · subst hjt
        simp [hj]
      · simp [hj, hjt, Ne.symm hjt]
  · rw [State.dropName, h5, State.modify_kindOf]
    exact fun _ => rfl
  · rw [State.dropName, h6, State.modify_embedded]
    exact fun _ => rfl

/-- An inode that nothing names any more is freed, or stays for its other names. -/
theorem destroyInode_cases (hp : s.par i = none) (hk : s.kids i = []) (ht : s.target i = none) :
    s.destroyInode i = s ∨ s.later i = [] ∧ Erased s (s.destroyInode i) i := by
  unfold State.destroyInode
  cases he : s.entries i with
  | none => exact .inl rfl
  | some e =>
    by_cases hh : e.hardlinks ≠ []
    · exact .inl (if_pos hh)
    · have hl : s.later i = [] := by
        simpa [State.later, he] using hh
      refine .inr ⟨hl, ?_⟩
      simp only [if_neg hh]
      split
      · exact freeEntry_erased hp hk hl ht
      · have hsame := (@sameEntries_refund s e.limits e.capacity).sameLinks
        have hfree := freeEntry_erased (hsame.par i ▸ hp) (hsame.kids i ▸ hk)
          (hsame.later i ▸ hl) (hsame.target i ▸ ht)
        exact hfree.of_same hsame

/-- The directories and the roots are as they were; entries can be gone. -/
structure Trimmed (s s' : State) : Prop where
  next : s'.next = s.next
  roots : s'.roots = s.roots
  par : ∀ j, s'.par j = s.par j
  kids : ∀ j, s'.kids j = s.kids j
  kindOf : ∀ j, s'.kindOf j = s.kindOf j ∨ s'.kindOf j = none

theorem Trimmed.refl (s : State) : Trimmed s s :=
  ⟨rfl, rfl, fun _ => rfl, fun _ => rfl, fun _ => .inl rfl⟩

theorem Erased.trimmed (h : Erased s s' i) : Trimmed s s' := by
  refine ⟨h.next, h.roots, h.par, h.kids, ?_⟩
  intro j
  rw [h.kindOf]
  split
  · exact .inr rfl
  · exact .inl rfl

theorem Trimmed.trans (h : Trimmed s s') (h' : Trimmed s' s'') : Trimmed s s'' := by
  refine ⟨h'.next.trans h.next, h'.roots.trans h.roots, fun j => (h'.par j).trans (h.par j),
    fun j => (h'.kids j).trans (h.kids j), ?_⟩
  intro j
  obtain hj | hj := h'.kindOf j
  · rw [hj]
    exact h.kindOf j
  · exact .inr hj

/-- Only a directory in the tree or a root has children. -/
theorem Links.kids_nil (h : Links s) (hk : s.kindOf i ≠ some .dir) : s.kids i = [] := by
  by_contra hne
  exact hk (h.dirs i hne).1

theorem Links.later_nil (h : Links s) (ht : s.target i = some t) : s.later i = [] := by
  rw [List.eq_nil_iff_forall_not_mem]
  intro j hj
  obtain ⟨hnone, -⟩ := h.inode j i ((h.links i j).mp hj)
  rw [hnone] at ht
  cases ht

theorem destroyEntry_some (ht : s.target i = some t) :
    s.destroyEntry i =
      if (s.dropName t i).lastUse t then (s.dropName t i).destroyInode t else s.dropName t i := by
  unfold State.destroyEntry
  rw [ht]
  rfl

theorem lastUse_par (h : s.lastUse i = true) :
    s.par i = none ∧ s.later i = [] ∧ s.refs i = 0 := by
  unfold State.lastUse at h
  cases he : s.entries i with
  | none => simp [he] at h
  | some e =>
    rw [he] at h
    simp only [Option.any_some, Bool.and_eq_true, Option.isNone_iff_eq_none, List.isEmpty_iff,
      decide_eq_true_eq] at h
    obtain ⟨⟨hp, hh⟩, hr⟩ := h
    exact ⟨by simp [State.par, he, hp], by simp [State.later, he, hh], by simp [State.refs, he, hr]⟩

theorem Links.destroyEntry (h : Links s) (hp : s.par i = none) (hk : s.kids i = [])
    (hr : i ∉ s.roots) : Links (s.destroyEntry i) ∧ Trimmed s (s.destroyEntry i) := by
  cases ht : s.target i with
  | none =>
    have heq : s.destroyEntry i = s.destroyInode i := by simp [State.destroyEntry, ht]
    rw [heq]
    obtain hsame | ⟨hl, he⟩ := destroyInode_cases hp hk ht
    · rw [hsame]
      exact ⟨h, .refl s⟩
    · exact ⟨h.erased he hk hl hr, he.trimmed⟩
  | some t =>
    obtain ⟨htt, -, hfile⟩ := h.inode i t ht
    have hti : t ≠ i := by
      rintro rfl
      rw [htt] at ht
      cases ht
    have he := dropName_erased hp hk (h.later_nil ht) ht
    have h' := h.erased he hk (h.later_nil ht) hr
    have hfile' : (s.dropName t i).kindOf t = some .file := by
      rw [he.kindOf, if_neg hti, hfile]
    rw [destroyEntry_some ht]
    split
    · rename_i hlast
      have hpar := (lastUse_par hlast).1
      have hkids : (s.dropName t i).kids t = [] := h'.kids_nil (by rw [hfile']; simp)
      have htar : (s.dropName t i).target t = none := by
        rw [he.target, if_neg hti, htt]
      have hroot : t ∉ (s.dropName t i).roots := by
        intro hmem
        rw [(h'.roots t hmem).1] at hfile'
        cases hfile'
      obtain hsame | ⟨hl, he'⟩ := destroyInode_cases hpar hkids htar
      · rw [hsame]
        exact ⟨h', he.trimmed⟩
      · exact ⟨h'.erased he' hkids hl hroot, he.trimmed.trans he'.trimmed⟩
    · exact ⟨h', he.trimmed⟩

/-- What `disposeRemoved` makes of the entry before it may destroy it. -/
def State.unname (s : State) (i : Nat) (e : Entry) : State :=
  ((s.uncount e.kind).limitsSub e.limits 0 1).modify i fun e =>
    { e with parent := none, vfsNode := e.vfsNode.map fun v => { v with embedded := true } }

theorem unname_removed (h : Links s) (hp : s.par i = some d) (e : Entry) :
    Removed s ((s.detach d i).unname i e) d i := by
  obtain ⟨hlive, -⟩ := h.live_of_par hp
  have hsame : SameLinks (s.detach d i) (((s.detach d i).uncount e.kind).limitsSub e.limits 0 1) :=
    .of_entries (by simp) (by simp) (by simp)
  have hdet : ∀ j, (s.detach d i).kindOf j = s.kindOf j := fun j => State.modify_kindOf fun _ => rfl
  constructor
  · exact hsame.next
  · exact hsame.roots
  all_goals intro j
  · rw [State.unname, State.modify_par_set, hsame.par, State.detach, State.modify_par]
    · exact fun _ => rfl
    · rw [hsame.kindOf, hdet]
      exact hlive
    · exact fun _ => rfl
  · rw [State.unname, State.modify_kids, hsame.kids, State.detach, State.modify_kids_erase]
    · exact fun _ => rfl
    · exact fun _ => rfl
  · rw [State.unname, State.modify_target, hsame.target, State.detach, State.modify_target]
    · exact fun _ => rfl
    · exact fun _ => rfl
  · rw [State.unname, State.modify_later, hsame.later, State.detach, State.modify_later]
    · exact fun _ => rfl
    · exact fun _ => rfl
  · rw [State.unname, State.modify_kindOf, hsame.kindOf, hdet]
    exact fun _ => rfl
  · intro hj
    rw [State.unname, State.modify_embedded_ne hj, hsame.embedded, State.detach, State.modify_embedded]
    exact fun _ => rfl

theorem disposeRemoved_some {s : State} (he : s.entries i = some e) :
    s.disposeRemoved i = if e.refs = 0 then (s.unname i e).destroyEntry i else s.unname i e := by
  unfold State.disposeRemoved
  rw [he]
  rfl

theorem detach_live (h : Links s) (hp : s.par i = some d) :
    ∃ e, (s.detach d i).entries i = some e ∧ e.refs = s.refs i ∧ e.kind = (s.kindOf i).getD .file ∧
      e.limits = s.limitsOf i := by
  obtain ⟨hlive, -⟩ := h.live_of_par hp
  obtain ⟨e, he⟩ := State.live_iff.mp hlive
  rw [State.detach, State.modify_entries]
  by_cases hid : i = d
  · subst hid
    simp [he, State.refs, State.kindOf, State.limitsOf, Entry.refs]
  · simp [he, hid, State.refs, State.kindOf, State.limitsOf]

/-- An entry taken out of its directory and disposed of. -/
theorem Links.dispose (h : Links s) (hp : s.par i = some d) (hempty : s.kids i = []) :
    ∃ s₁, Removed s s₁ d i ∧ Links ((s.detach d i).disposeRemoved i) ∧
      Trimmed s₁ ((s.detach d i).disposeRemoved i) := by
  obtain ⟨e, he, -⟩ := detach_live h hp
  have hr := unname_removed h hp e
  have h₁ := h.removed hr hp hempty
  refine ⟨_, hr, ?_⟩
  rw [disposeRemoved_some he]
  have hid : i ≠ d := by
    rintro rfl
    have hmem := (h.tree i i).mpr hp
    rw [hempty] at hmem
    cases hmem
  have hpar : ((s.detach d i).unname i e).par i = none := by
    rw [hr.par, if_pos rfl]
  have hkids : ((s.detach d i).unname i e).kids i = [] := by
    rw [hr.kids, if_neg hid, hempty]
  have hroot : i ∉ ((s.detach d i).unname i e).roots := by
    rw [hr.roots]
    intro hmem
    rw [(h.roots i hmem).2.1] at hp
    cases hp
  split
  · exact h₁.destroyEntry hpar hkids hroot
  · exact ⟨h₁, .refl _⟩

theorem moveEntry_moved (hi : s.kindOf i ≠ none) (hd : s.kindOf d' ≠ none) (name : Text) :
    Moved s (s.moveEntry d i d' name) d i d' := by
  have hk₁ : ∀ j, (s.detach d i).kindOf j = s.kindOf j := fun j => State.modify_kindOf fun _ => rfl
  have hk₂ : ∀ j, ((s.detach d i).modify i fun e =>
      { e with name := name, parent := some d' }).kindOf j = s.kindOf j := by
    intro j
    rw [State.modify_kindOf, hk₁]
    exact fun _ => rfl
  constructor
  · rfl
  · rfl
  all_goals intro j
  · rw [State.moveEntry, State.modify_par, State.modify_par_set, State.detach, State.modify_par]
    · exact fun _ => rfl
    · rw [hk₁]
      exact hi
    · exact fun _ => rfl
    · exact fun _ => rfl
  · rw [State.moveEntry, State.modify_kids_cons]
    · have hkids : ∀ j, ((s.detach d i).modify i fun e =>
          { e with name := name, parent := some d' }).kids j =
          if j = d then (s.kids d).erase i else s.kids j := by
        intro j
        rw [State.modify_kids, State.detach, State.modify_kids_erase]
        all_goals exact fun _ => rfl
      rw [hkids, hkids]
    · rw [hk₂]
      exact hd
    · exact fun _ => rfl
  · rw [State.moveEntry, State.modify_target, State.modify_target, State.detach, State.modify_target]
    all_goals exact fun _ => rfl
  · rw [State.moveEntry, State.modify_later, State.modify_later, State.detach, State.modify_later]
    all_goals exact fun _ => rfl
  · rw [State.moveEntry, State.modify_kindOf, hk₂]
    exact fun _ => rfl
  · rw [State.moveEntry, State.modify_embedded, State.modify_embedded, State.detach,
      State.modify_embedded]
    all_goals exact fun _ => rfl

end Removals

section Calls

variable {s s' : State}

/-- An entry that a call makes for a directory: no links yet, no node, no memfd. -/
structure Fresh (e : Entry) : Prop where
  children : e.children = []
  hardlinks : e.hardlinks = []
  vfsNode : e.vfsNode = none
  linkTarget : e.linkTarget = none
  isMemfd : e.isMemfd = false

theorem fresh_new (name : Text) (kind : Kind) (lim : Option Nat) (data : List UInt8) (n : Nat) :
    Fresh { Entry.new name kind with limits := lim, data := data, length := n } :=
  ⟨rfl, rfl, rfl, rfl, rfl⟩

/-- An entry made for a directory and counted, with the charge to its mount. -/
def State.enter (s : State) (d : Nat) (e : Entry) : State :=
  let s := (s.addEntry d e).limitsAdd e.limits 0 1
  if e.kind = .dir then { s with dirCount := add64 s.dirCount 1 }
  else { s with fileCount := add64 s.fileCount 1 }

/-- What `create`, `mknod` and `mkdir` do when they do something. -/
def Enters (s s' : State) (d : Nat) : Prop :=
  s.kindOf d = some .dir ∧ s.limitsFits (s.limitsOf d) 0 1 = true ∧
    ∃ e : Entry, Fresh e ∧ e.data = [] ∧ e.limits = s.limitsOf d ∧ s' = s.enter d e

theorem vfsCreate_cases (d : Nat) (name : Text) (excl sock mem : Bool) :
    (s.vfsCreate d name excl sock mem).2 = s ∨ Enters s (s.vfsCreate d name excl sock mem).2 d := by
  unfold State.vfsCreate
  split
  · exact .inl rfl
  rename_i hd
  split
  · exact .inl rfl
  split
  · exact .inl rfl
  rename_i hfits
  split
  · exact .inl rfl
  · refine .inr ⟨not_not.mp hd, by simpa using hfits, _, fresh_new name (if sock then .socket else .file)
      (s.limitsOf d) [] 0, rfl, rfl, ?_⟩
    cases sock <;> rfl

theorem mknodNode_cases (d : Nat) (name : Text) (sock mem : Bool) :
    (s.mknodNode d name sock mem).2 = s ∨ Enters s (s.mknodNode d name sock mem).2 d := by
  unfold State.mknodNode
  split
  · exact .inl rfl
  rename_i hd
  split
  · exact .inl rfl
  split
  · exact .inl rfl
  rename_i hfits
  split
  · exact .inl rfl
  · refine .inr ⟨not_not.mp hd, by simpa using hfits, _, fresh_new name (if sock then .socket else .fifo)
      (s.limitsOf d) [] 0, rfl, rfl, ?_⟩
    cases sock <;> rfl

theorem vfsMkdir_cases (d : Nat) (name : Text) (mem : Bool) :
    (s.vfsMkdir d name mem).2 = s ∨ Enters s (s.vfsMkdir d name mem).2 d := by
  unfold State.vfsMkdir
  split
  · exact .inl rfl
  rename_i hd
  split
  · exact .inl rfl
  split
  · exact .inl rfl
  rename_i hfits
  split
  · exact .inl rfl
  · exact .inr ⟨not_not.mp hd, by simpa using hfits, _, fresh_new name .dir (s.limitsOf d) [] 0,
      rfl, rfl, rfl⟩

/-- What the two calls that make a symlink do, but for the counters. -/
def MakesSymlink (s s' : State) (d : Nat) : Prop :=
  s.kindOf d = some .dir ∧ ∃ e : Entry, Fresh e ∧ e.kind = .symlink ∧ SameEntries (s.addEntry d e) s'

theorem createSymlinkNode_cases (d : Nat) (name : Text) (target : List UInt8) (mem : Bool) :
    (s.createSymlinkNode d name target mem).2 = s ∨
      MakesSymlink s (s.createSymlinkNode d name target mem).2 d := by
  unfold State.createSymlinkNode
  split
  · exact .inl rfl
  rename_i hd
  split
  · exact .inl rfl
  split
  · exact .inl rfl
  split
  · exact .inl rfl
  split
  · exact .inl rfl
  · refine .inr ⟨not_not.mp hd, _, fresh_new name .symlink (s.limitsOf d) (targetBytes target)
      target.length, rfl, ?_⟩
    generalize s.limitsOf d = lim
    cases lim <;> exact ⟨rfl, rfl, rfl, rfl, rfl, rfl⟩

theorem createSymlink_cases (d : Nat) (name : Text) (target : List UInt8) (mem : Bool) :
    (s.createSymlink d name target mem).2 = s ∨
      MakesSymlink s (s.createSymlink d name target mem).2 d := by
  unfold State.createSymlink
  split
  · exact .inl rfl
  split
  · exact .inl rfl
  rename_i hd
  split
  · exact .inl rfl
  split
  · exact .inl rfl
  split
  · exact .inl rfl
  · exact .inr ⟨not_not.mp hd, _, fresh_new name .symlink none (targetBytes target) target.length, rfl,
      rfl, rfl, rfl, rfl, rfl, rfl⟩

/-- A later name of an inode, counted and charged. -/
def State.enterLink (s : State) (d t : Nat) (name : Text) : State :=
  let s := (s.addLink d t name).limitsAdd (s.limitsOf d) 0 1
  { s with fileCount := add64 s.fileCount 1 }

theorem linkNode_cases (source d : Nat) (name : Text) (mem : Bool) :
    (s.linkNode source d name mem).2 = s ∨
      s.kindOf (s.inode source) = some .file ∧ s.kindOf d = some .dir ∧
        s.limitsOf (s.inode source) = s.limitsOf d ∧ s.limitsFits (s.limitsOf d) 0 1 = true ∧
        (s.linkNode source d name mem).2 = s.enterLink d (s.inode source) name := by
  unfold State.linkNode
  dsimp only
  split
  · exact .inl rfl
  rename_i hk
  simp only [ne_eq, Bool.or_eq_true, decide_eq_true_eq, not_or, not_not] at hk
  split
  · exact .inl rfl
  rename_i hlim
  split
  · exact .inl rfl
  split
  · exact .inl rfl
  rename_i hfits
  split
  · exact .inl rfl
  · exact .inr ⟨hk.1, hk.2, not_not.mp hlim, by simpa using hfits, rfl⟩

/-- An entry taken out of its directory by an unlink or by what replaces it. -/
def State.take (s : State) (d i : Nat) : State := (s.detach d i).disposeRemoved i

theorem empty_of_dir (h : Links s) (hne : ¬(s.kindOf i = some .dir && s.kids i ≠ [])) :
    s.kids i = [] := by
  by_contra hk
  exact hne (by simp [(h.dirs i hk).1, hk])

theorem vfsUnlink_cases (h : Links s) (d : Nat) (name : Text) :
    (s.vfsUnlink d name).2 = s ∨ ∃ i, s.findChild d name = some i ∧ s.par i = some d ∧
      s.kids i = [] ∧ (s.vfsUnlink d name).2 = s.take d i := by
  unfold State.vfsUnlink
  split
  · exact .inl rfl
  split
  · exact .inl rfl
  rename_i i hf
  split
  · exact .inl rfl
  rename_i hne
  exact .inr ⟨i, hf, findChild_par h hf, empty_of_dir h hne, rfl⟩

/-- A rename does nothing, or moves the entry, or takes another one away first. -/
theorem vfsRename_cases (h : Links s) (d : Nat) (name : Text) (d' : Nat) (name' : Text) (mem : Bool) :
    (s.vfsRename d name d' name' mem).2 = s ∨
      s.kindOf d' = some .dir ∧ s.limitsOf d = s.limitsOf d' ∧ ∃ i, s.par i = some d ∧
        ((s.vfsRename d name d' name' mem).2 = s.moveEntry d i d' name' ∨
          ∃ j, mem = true ∧ s.findChild d name = some i ∧ s.findChild d' name' = some j ∧
            s.par j = some d' ∧ j ≠ i ∧ s.kids j = [] ∧
            (s.vfsRename d name d' name' mem).2 = (s.take d' j).moveEntry d i d' name') := by
  unfold State.vfsRename
  split
  · exact .inl rfl
  rename_i hk
  simp only [ne_eq, Bool.or_eq_true, decide_eq_true_eq, not_or, not_not] at hk
  split
  · exact .inl rfl
  rename_i hlim
  split
  · exact .inl rfl
  rename_i i hi
  split
  · exact .inl rfl
  rename_i hmem
  split
  · exact .inr ⟨hk.2, not_not.mp hlim, i, findChild_par h hi, .inl rfl⟩
  rename_i j hj
  split
  · exact .inl rfl
  rename_i hji
  split
  · exact .inl rfl
  rename_i hne
  exact .inr ⟨hk.2, not_not.mp hlim, i, findChild_par h hi, .inr ⟨j, by simpa using hmem, hi, hj,
    findChild_par h hj, hji, empty_of_dir h hne, rfl⟩⟩

/-- The part of `exchangeNodes` for two directories. -/
def State.swapEntries (s : State) (d i d' j : Nat) : State :=
  (((((s.detach d i).detach d' j).modify d' fun e => { e with children := i :: e.children }).modify d
    fun e => { e with children := j :: e.children }).modify i fun e =>
      { e with parent := some d' }).modify j fun e => { e with parent := some d }

theorem exchangeNodes_cases (h : Links s) (d : Nat) (name : Text) (d' : Nat) (name' : Text) :
    (s.exchangeNodes d name d' name').2 = s ∨
      ∃ i j, s.par i = some d ∧ s.par j = some d' ∧ i ≠ j ∧
        (s.kindOf d = some .dir ∧ s.kindOf d' = some .dir) ∧
        (s.exchangeNodes d name d' name').2 =
          if d = d' then s.swapNames i j else (s.swapNames i j).swapEntries d i d' j := by
  unfold State.exchangeNodes
  split
  · exact .inl rfl
  rename_i hk
  simp only [ne_eq, Bool.or_eq_true, decide_eq_true_eq, not_or, not_not] at hk
  split
  · rename_i i j hi hj
    by_cases hij : i = j
    · exact .inl (by rw [if_pos hij])
    · refine .inr ⟨i, j, findChild_par h hi, findChild_par h hj, hij, hk, ?_⟩
      rw [if_neg hij]
      by_cases hd : d = d'
      · simp only [if_pos hd]
      · simp only [if_neg hd]
        rfl
  · exact .inl rfl

/-- An entry without what the links, the references and the limits are not about. -/
def Entry.bare (e : Entry) : Entry :=
  { e with name := [], data := [], length := 0, backing := [], seals := 0 }

/-- Only names, data and seals of entries differ, and counters. -/
structure SameNodes (s s' : State) : Prop where
  entries : ∀ i, (s'.entries i).map Entry.bare = (s.entries i).map Entry.bare
  next : s'.next = s.next
  roots : s'.roots = s.roots
  origin : s'.origin = s.origin
  opens : s'.opens = s.opens
  freed : s'.freed = s.freed

theorem SameEntries.sameNodes (h : SameEntries s s') : SameNodes s s' :=
  ⟨fun i => by rw [h.entries], h.next, h.roots, h.origin, h.opens, h.freed⟩

theorem SameNodes.refl (s : State) : SameNodes s s := (SameEntries.refl s).sameNodes

theorem SameNodes.trans (h : SameNodes s s') (h' : SameNodes s' s'') : SameNodes s s'' :=
  ⟨fun i => (h'.entries i).trans (h.entries i), h'.next.trans h.next, h'.roots.trans h.roots,
    h'.origin.trans h.origin, h'.opens.trans h.opens, h'.freed.trans h.freed⟩

theorem sameNodes_modify {f : Entry → Entry} (hf : ∀ e, (f e).bare = e.bare) :
    SameNodes s (s.modify i f) := by
  refine ⟨?_, rfl, rfl, rfl, rfl, rfl⟩
  intro j
  rw [State.modify_entries]
  by_cases hj : j = i
  · subst hj
    cases s.entries j <;> simp [hf]
  · simp [hj]

/-- What is read off an entry without its name and data is the same. -/
theorem SameNodes.read (h : SameNodes s s') (g : Option Entry → α)
    (hg : ∀ x : Option Entry, g (x.map Entry.bare) = g x) (i : Nat) :
    g (s'.entries i) = g (s.entries i) := by
  rw [← hg, h.entries, hg]

theorem SameNodes.sameLinks (h : SameNodes s s') : SameLinks s s' := by
  constructor
  · exact h.next
  · exact h.roots
  · exact h.read (fun x => x.bind Entry.parent) (fun x => by cases x <;> rfl)
  · exact h.read (fun x => (x.map Entry.children).getD []) (fun x => by cases x <;> rfl)
  · exact h.read (fun x => x.bind Entry.linkTarget) (fun x => by cases x <;> rfl)
  · exact h.read (fun x => (x.map Entry.hardlinks).getD []) (fun x => by cases x <;> rfl)
  · exact h.read (fun x => x.map Entry.kind) (fun x => by cases x <;> rfl)
  · exact h.read (fun x => (x.bind Entry.vfsNode).any VfsNode.embedded) (fun x => by cases x <;> rfl)

theorem SameNodes.refs (h : SameNodes s s') (i : Nat) : s'.refs i = s.refs i :=
  h.read (fun x => x.elim 0 Entry.refs) (fun x => by cases x <;> rfl) i

theorem setName_sameNodes (i : Nat) (name : Text) :
    SameNodes s (s.modify i fun e => { e with name := name }) := by
  apply sameNodes_modify
  exact fun _ => rfl

theorem swapNames_sameNodes (i j : Nat) : SameNodes s (s.swapNames i j) :=
  (setName_sameNodes i _).trans (setName_sameNodes j _)

theorem dropData_sameNodes (t : Nat) : SameNodes s (s.dropData t) := by
  unfold State.dropData
  cases s.entries t with
  | none => exact .refl s
  | some e =>
    dsimp only
    split
    · apply sameNodes_modify
      exact fun _ => rfl
    · apply sameEntries_refund.sameNodes.trans
      apply sameNodes_modify
      exact fun _ => rfl

theorem writeDataLocked_sameNodes (t : Nat) (e : Entry) (offset : Nat) (bytes : List UInt8)
    (mem : Bool) : SameNodes s (s.writeDataLocked t e offset bytes mem).2 := by
  unfold State.writeDataLocked
  dsimp only
  split
  · exact .refl s
  split
  · split
    · exact .refl s
    split
    · exact .refl s
    · apply sameEntries_charge.sameNodes.trans
      apply sameNodes_modify
      exact fun _ => rfl
  · apply sameNodes_modify
    exact fun _ => rfl

theorem vfsWrite_sameNodes (i offset : Nat) (bytes : List UInt8) (mem : Bool) :
    SameNodes s (s.vfsWrite i offset bytes mem).2 := by
  unfold State.vfsWrite
  split
  · exact .refl s
  split
  · exact .refl s
  split
  · exact .refl s
  · exact writeDataLocked_sameNodes ..

theorem vfsTruncate_sameNodes (i length : Nat) (mem : Bool) :
    SameNodes s (s.vfsTruncate i length mem).2 := by
  unfold State.vfsTruncate
  split
  · exact .refl s
  rename_i e _
  split
  · exact .refl s
  split
  · exact .refl s
  split
  · exact .refl s
  split
  · exact dropData_sameNodes _
  split
  · apply sameEntries_refund.sameNodes.trans
    apply sameNodes_modify
    exact fun _ => rfl
  · apply sameNodes_modify
    exact fun _ => rfl

theorem nodeAddSeals_sameNodes (i : Nat) (seals : BitVec 32) (mapped : Bool) :
    SameNodes s (s.nodeAddSeals i seals mapped).2 := by
  unfold State.nodeAddSeals
  split
  · exact .refl s
  split
  · exact .refl s
  split
  · exact .refl s
  split
  · exact .refl s
  · apply sameNodes_modify
    exact fun _ => rfl

/-- `vfs_open` but for the truncation. -/
def State.addRef (s : State) (i : Nat) : State :=
  { s.modify i fun e =>
      { e with vfsNode := some (e.vfsNode.elim ⟨1, false⟩ fun v => ⟨v.refCount + 1, v.embedded⟩) } with
    opens := Function.update s.opens i (s.opens i + 1) }

theorem vfsOpen_sameNodes (i : Nat) (trunc : Bool) : SameNodes (s.addRef i) (s.vfsOpen i trunc) := by
  unfold State.vfsOpen
  dsimp only
  split
  · exact dropData_sameNodes _
  · exact .refl _

theorem addRef_sameLinks (i : Nat) : SameLinks s (s.addRef i) := by
  have hmod : SameLinks s (s.modify i fun e =>
      { e with vfsNode := some (e.vfsNode.elim ⟨1, false⟩ fun v => ⟨v.refCount + 1, v.embedded⟩) }) := by
    apply sameLinks_modify
    all_goals intro e
    · rfl
    · rfl
    · rfl
    · rfl
    · rfl
    · cases e.vfsNode <;> rfl
  exact hmod.trans (.of_entries rfl rfl rfl)

/-- `vfs_close` but for the destruction. -/
def State.dropRef (s : State) (i : Nat) : State :=
  { s.modify i fun e =>
      { e with vfsNode := e.vfsNode.map fun v => ⟨v.refCount - 1, v.embedded⟩ } with
    opens := Function.update s.opens i (s.opens i - 1) }

theorem dropRef_sameLinks (i : Nat) : SameLinks s (s.dropRef i) := by
  have hmod : SameLinks s (s.modify i fun e =>
      { e with vfsNode := e.vfsNode.map fun v => ⟨v.refCount - 1, v.embedded⟩ }) := by
    apply sameLinks_modify
    all_goals intro e
    · rfl
    · rfl
    · rfl
    · rfl
    · rfl
    · cases e.vfsNode <;> rfl
  exact hmod.trans (.of_entries rfl rfl rfl)

theorem vfsClose_cases (i : Nat) :
    s.refs i = 0 ∧ s.vfsClose i = { s with opens := Function.update s.opens i (s.opens i - 1) } ∨
      0 < s.refs i ∧ s.vfsClose i =
        if (s.dropRef i).hasCallbacks i && (s.dropRef i).embedded i && (s.dropRef i).refs i = 0 then
          (s.dropRef i).destroyEntry i
        else s.dropRef i := by
  unfold State.vfsClose
  dsimp only
  by_cases hr : s.refs i = 0
  · exact .inl ⟨hr, if_pos hr⟩
  · exact .inr ⟨Nat.pos_of_ne_zero hr, if_neg hr⟩

theorem hasCallbacks_congr (h : ∀ j, s'.kindOf j = s.kindOf j) (i : Nat) :
    s'.hasCallbacks i = s.hasCallbacks i := by
  unfold State.hasCallbacks
  rw [h]

theorem swapEntries_moved (h : Links s) (hi : s.par i = some d) (hj : s.par j = some d')
    (hij : i ≠ j) (hd : d ≠ d') (hk : s.kindOf d = some .dir) (hk' : s.kindOf d' = some .dir)
    (name : Text) : Moved (s.moveEntry d i d' name) (s.swapEntries d i d' j) d' j d := by
  have hlive : ∀ a k, s.kindOf a = some k → s.kindOf a ≠ none := by
    intro a k ha
    rw [ha]
    simp
  have hm := moveEntry_moved (h.live_of_par hi).1 (hlive d' _ hk') name (d := d)
  have hk₁ : ∀ a, ((s.detach d i).detach d' j).kindOf a = s.kindOf a := by
    intro a
    rw [State.detach, State.modify_kindOf, State.detach, State.modify_kindOf]
    all_goals exact fun _ => rfl
  have hk₂ : ∀ a, (((s.detach d i).detach d' j).modify d' fun e =>
      { e with children := i :: e.children }).kindOf a = s.kindOf a := by
    intro a
    rw [State.modify_kindOf, hk₁]
    exact fun _ => rfl
  have hk₃ : ∀ a, ((((s.detach d i).detach d' j).modify d' fun e =>
      { e with children := i :: e.children }).modify d fun e =>
        { e with children := j :: e.children }).kindOf a = s.kindOf a := by
    intro a
    rw [State.modify_kindOf, hk₂]
    exact fun _ => rfl
  constructor
  · rfl
  · rfl
  all_goals intro a
  · rw [State.swapEntries, State.modify_par_set, State.modify_par_set, State.modify_par,
      State.modify_par, State.detach, State.modify_par, State.detach, State.modify_par, hm.par]
    all_goals first | exact fun _ => rfl | skip
    · rw [hk₃]
      exact (h.live_of_par hi).1
    · rw [State.modify_kindOf, hk₃]
      · exact (h.live_of_par hj).1
      · exact fun _ => rfl
  · have hdet : ∀ a, ((s.detach d i).detach d' j).kids a =
        if a = d' then (s.kids d').erase j else if a = d then (s.kids d).erase i else s.kids a := by
      intro a
      rw [State.detach, State.modify_kids_erase, State.detach, State.modify_kids_erase,
        State.modify_kids_erase, if_neg (Ne.symm hd)]
      all_goals exact fun _ => rfl
    have hcons : ∀ a, (((s.detach d i).detach d' j).modify d' fun e =>
        { e with children := i :: e.children }).kids a =
        if a = d' then i :: (s.kids d').erase j
        else if a = d then (s.kids d).erase i else s.kids a := by
      intro a
      rw [State.modify_kids_cons (by rw [hk₁]; exact hlive _ _ hk') (fun _ => rfl), hdet, if_pos rfl,
        hdet]
      by_cases ha : a = d' <;> simp [ha]
    rw [State.swapEntries, State.modify_kids, State.modify_kids,
      State.modify_kids_cons (by rw [hk₂]; exact hlive _ _ hk) (fun _ => rfl), hcons, hcons,
      hm.kids, hm.kids, hm.kids]
    · by_cases ha : a = d
      · subst ha
        simp [hd]
      · by_cases ha' : a = d'
        · subst ha'
          simp [ha, List.erase_cons_tail, hij]
        · simp [ha, ha']
    all_goals exact fun _ => rfl
  · rw [State.swapEntries, State.modify_target, State.modify_target, State.modify_target,
      State.modify_target, State.detach, State.modify_target, State.detach, State.modify_target,
      hm.target]
    all_goals exact fun _ => rfl
  · rw [State.swapEntries, State.modify_later, State.modify_later, State.modify_later,
      State.modify_later, State.detach, State.modify_later, State.detach, State.modify_later, hm.later]
    all_goals exact fun _ => rfl
  · rw [State.swapEntries, State.modify_kindOf, State.modify_kindOf, hk₃, hm.kindOf]
    all_goals exact fun _ => rfl
  · rw [State.swapEntries, State.modify_embedded, State.modify_embedded, State.modify_embedded,
      State.modify_embedded, State.detach, State.modify_embedded, State.detach, State.modify_embedded,
      hm.embedded]
    all_goals exact fun _ => rfl

theorem enter_sameEntries (d : Nat) (e : Entry) : SameEntries (s.addEntry d e) (s.enter d e) := by
  have hlim := @sameEntries_limitsAdd (s.addEntry d e) e.limits 0 1
  unfold State.enter
  dsimp only
  split <;> exact ⟨hlim.entries, hlim.next, hlim.roots, hlim.origin, hlim.opens, hlim.freed⟩

theorem enterLink_sameEntries (d t : Nat) (name : Text) :
    SameEntries (s.addLink d t name) (s.enterLink d t name) := by
  have hlim := @sameEntries_limitsAdd (s.addLink d t name) (s.limitsOf d) 0 1
  exact ⟨hlim.entries, hlim.next, hlim.roots, hlim.origin, hlim.opens, hlim.freed⟩

theorem Links.addEntry (h : Links s) (ha : Attached s d) (hd : s.kindOf d = some .dir) {e : Entry}
    (he : Fresh e) : Links (s.addEntry d e) :=
  h.added (addEntry_added h hd he.children he.hardlinks he.vfsNode he.linkTarget) ⟨hd, ha⟩
    (fun t ht => by cases ht)

theorem Links.enters (h : Links s) (ha : Attached s d) (he : s' = s ∨ Enters s s' d) : Links s' := by
  obtain rfl | ⟨hd, -, e, hfresh, -, -, rfl⟩ := he
  · exact h
  · exact (h.addEntry ha hd hfresh).congr (enter_sameEntries d e).sameLinks

theorem Links.makesSymlink (h : Links s) (ha : Attached s d) (he : s' = s ∨ MakesSymlink s s' d) :
    Links s' := by
  obtain rfl | ⟨hd, e, hfresh, -, hsame⟩ := he
  · exact h
  · exact (h.addEntry ha hd hfresh).congr hsame.sameLinks

/-- A directory in the tree stays one when another entry, without children, is taken away. -/
theorem attached_take (h : Links s) (hp : s.par j = some d) (hk : s.kids j = [])
    (ha : Attached s d') (hd : d' ≠ j) (hdir : s.kindOf d' = some .dir) :
    Links (s.take d j) ∧ (s.take d j).kindOf d' = some .dir ∧ Attached (s.take d j) d' := by
  obtain ⟨s₁, hr, hl, ht⟩ := h.dispose hp hk
  have hpar : (s.take d j).par d' = s.par d' := by
    rw [State.take, ht.par, hr.par, if_neg hd]
  have hroots : (s.take d j).roots = s.roots := ht.roots.trans hr.roots
  refine ⟨hl, ?_, ?_⟩
  · obtain hkind | hkind := ht.kindOf d'
    · rw [State.take, hkind, hr.kindOf, hdir]
    · obtain ⟨hnone, -, -, -, -, hroot⟩ := hl.absent hkind
      obtain ha | ha := ha
      · rw [← hpar] at ha
        exact absurd hnone ha
      · rw [← hroots] at ha
        exact absurd ha hroot
  · unfold Attached
    rw [hpar, hroots]
    exact ha

theorem take_par (h : Links s) (hp : s.par j = some d) (hk : s.kids j = []) (i : Nat) :
    (s.take d j).par i = if i = j then none else s.par i := by
  obtain ⟨s₁, hr, -, ht⟩ := h.dispose hp hk
  rw [State.take, ht.par, hr.par]

theorem Links.moveEntry (h : Links s) (hp : s.par i = some d) (hd : s.kindOf d' = some .dir)
    (ha : Attached s d') (name : Text) : Links (s.moveEntry d i d' name) :=
  h.moved (moveEntry_moved (h.live_of_par hp).1 (by rw [hd]; simp) name) hp ⟨hd, ha⟩

theorem ne_of_kids (h : Links s) (hp : s.par j = some d) (hk : s.kids j = []) : d ≠ j := by
  rintro rfl
  have hmem := (h.tree d d).mpr hp
  rw [hk] at hmem
  cases hmem

/-- A node marked at the removal of its entry is not a directory with children, and no root. -/
theorem Links.destroy_marked (h : Links s) (he : s.embedded i = true) : Links (s.destroyEntry i) := by
  have hpar := h.marked i he
  have hroot : i ∉ s.roots := by
    intro hr
    rw [(h.roots i hr).2.2] at he
    cases he
  have hkids : s.kids i = [] := by
    by_contra hne
    obtain ⟨-, hp | hr⟩ := h.dirs i hne
    · exact hp hpar
    · exact hroot hr
  exact (h.destroyEntry hpar hkids hroot).1

theorem vfsClose_links (h : Links s) (i : Nat) : Links (s.vfsClose i) := by
  obtain ⟨-, heq⟩ | ⟨-, heq⟩ := vfsClose_cases (s := s) i
  · rw [heq]
    exact h.congr (.of_entries rfl rfl rfl)
  · rw [heq]
    have h₁ := h.congr (dropRef_sameLinks i)
    split
    · rename_i hc
      simp only [Bool.and_eq_true] at hc
      exact h₁.destroy_marked hc.1.2
    · exact h₁

theorem createMemfd_links (h : Links s) (name : Text) (mem : Bool) :
    Links (s.createMemfd name mem).2 := by
  unfold State.createMemfd
  split
  · exact h
  · exact h.placed (placed_put h rfl rfl rfl rfl false rfl rfl rfl) (fun hf => by cases hf)

theorem tmpfsMount_links (h : Links s) (maxBytes maxInodes : Nat) (mem : Bool) :
    Links (s.tmpfsMount maxBytes maxInodes mem) := by
  unfold State.tmpfsMount
  split
  · exact h
  · exact h.placed (placed_put h rfl rfl rfl rfl true rfl rfl rfl) (fun _ => ⟨rfl, rfl⟩)

end Calls

section Outcomes

variable {s : State}

/-- What one call can do, with what it finds. -/
inductive Outcome (s : State) : Op → State → Prop where
  | same (op : Op) : Outcome s op s
  | enters (op : Op) (hd : Attached s d) (he : Enters s s' d) : Outcome s op s'
  | symlink (hd : Attached s d) (he : MakesSymlink s s' d) (hp : s.dir p = some d)
      (hs : s' = (s.createSymlinkNode d name target mem).2) :
      Outcome s (.symlink p name target mem) s'
  | symlinkPath (hd : Attached s d) (he : MakesSymlink s s' d) (hp : s.dir ⟨0, names⟩ = some d)
      (hs : s' = (s.createSymlink d name target mem).2) :
      Outcome s (.symlinkPath names name target mem) s'
  | link (op : Op) (hd : Attached s d) (hk : s.kindOf d = some .dir)
      (ht : s.kindOf t = some .file) (hn : s.target t = none) (hl : s.limitsOf t = s.limitsOf d)
      (hf : s.limitsFits (s.limitsOf d) 0 1 = true) : Outcome s op (s.enterLink d t name)
  | unlink (hp : s.dir p = some d) (hf : s.findChild d name = some i) (hi : s.par i = some d)
      (hk : s.kids i = []) : Outcome s (.unlink p name) (s.take d i)
  | rename (op : Op) (hd : Attached s d') (hk : s.kindOf d' = some .dir)
      (hl : s.limitsOf d = s.limitsOf d') (hi : s.par i = some d) :
      Outcome s op (s.moveEntry d i d' name)
  | replace (hm : mem = true) (hp : s.dir p = some d) (hp' : s.dir p' = some d') (hd : Attached s d')
      (hk : s.kindOf d' = some .dir) (hl : s.limitsOf d = s.limitsOf d') (hi : s.par i = some d)
      (hfi : s.findChild d name = some i) (hfj : s.findChild d' name' = some j)
      (hj : s.par j = some d') (hji : j ≠ i) (hkj : s.kids j = []) :
      Outcome s (.rename p name p' name' mem) ((s.take d' j).moveEntry d i d' name')
  | swapNames (op : Op) (i j : Nat) : Outcome s op (s.swapNames i j)
  | exchange (root : Nat) (hp : s.dir ⟨root, names⟩ = some d) (hp' : s.dir ⟨root, names'⟩ = some d')
      (hd : Attached s d) (hd' : Attached s d')
      (hk : s.kindOf d = some .dir) (hk' : s.kindOf d' = some .dir) (hi : s.par i = some d)
      (hj : s.par j = some d') (hij : i ≠ j) (hdd : d ≠ d') :
      Outcome s (.exchange root names name names' name') ((s.swapNames i j).swapEntries d i d' j)
  | openNode (i : Nat) (trunc : Bool) (hf : s.find place = some i) :
      Outcome s (.openNode place trunc) (s.vfsOpen i trunc)
  | close (ho : 0 < s.opens i) : Outcome s (.close i) (s.vfsClose i)
  | write (hf : s.find place = some i) :
      Outcome s (.write place offset bytes mem) (s.vfsWrite i offset bytes mem).2
  | truncate (hf : s.find place = some i) :
      Outcome s (.truncate place length mem) (s.vfsTruncate i length mem).2
  | memfd : Outcome s (.memfd name mem) (s.createMemfd name mem).2
  | addSeals (i : Nat) : Outcome s (.addSeals i seals mapped) (s.nodeAddSeals i seals mapped).2
  | mount : Outcome s (.mount maxBytes maxInodes mem) (s.tmpfsMount maxBytes maxInodes mem)

theorem Outcome.of_elim {f : Nat → State} (x : Option Nat)
    (h : ∀ d, x = some d → Outcome s op (f d)) : Outcome s op (x.elim s f) := by
  cases x with
  | none => exact .same op
  | some d => exact h d rfl

theorem inode_target (h : Links s) (i : Nat) : s.target (s.inode i) = none := by
  unfold State.inode
  cases hs : s.target i with
  | none => exact hs
  | some t => exact (h.inode i t hs).1

theorem step_outcome (h : Links s) (op : Op) : Outcome s op (step s op) := by
  cases op with
  | create p name excl sock mem =>
    apply Outcome.of_elim
    intro d hd
    obtain heq | he := vfsCreate_cases d name excl sock mem
    · rw [heq]
      exact .same _
    · exact .enters _ (dir_attached h hd) he
  | mknod p name sock mem =>
    apply Outcome.of_elim
    intro d hd
    obtain heq | he := mknodNode_cases d name sock mem
    · rw [heq]
      exact .same _
    · exact .enters _ (dir_attached h hd) he
  | mkdir p name mem =>
    apply Outcome.of_elim
    intro d hd
    obtain heq | he := vfsMkdir_cases d name mem
    · rw [heq]
      exact .same _
    · exact .enters _ (dir_attached h hd) he
  | symlink p name target mem =>
    apply Outcome.of_elim
    intro d hd
    obtain heq | he := createSymlinkNode_cases d name target mem
    · rw [heq]
      exact .same _
    · exact .symlink (dir_attached h hd) he hd rfl
  | symlinkPath names name target mem =>
    apply Outcome.of_elim
    intro d hd
    obtain heq | he := createSymlink_cases d name target mem
    · rw [heq]
      exact .same _
    · exact .symlinkPath (dir_attached h hd) he hd rfl
  | link source p name mem =>
    apply Outcome.of_elim
    intro i _
    apply Outcome.of_elim
    intro d hd
    obtain heq | ⟨ht, hk, hl, hf, heq⟩ := linkNode_cases i d name mem
    · rw [heq]
      exact .same _
    · rw [heq]
      exact .link _ (dir_attached h hd) hk ht (inode_target h i) hl hf
  | unlink p name =>
    apply Outcome.of_elim
    intro d hd
    obtain heq | ⟨i, hf, hi, hk, heq⟩ := vfsUnlink_cases h d name
    · rw [heq]
      exact .same _
    · rw [heq]
      exact .unlink hd hf hi hk
  | rename p name p' name' mem =>
    apply Outcome.of_elim
    intro d hd
    apply Outcome.of_elim
    intro d' hd'
    obtain heq | ⟨hk, hl, i, hi, heq | ⟨j, hm, hfi, hfj, hj, hji, hkj, heq⟩⟩ :=
      vfsRename_cases h d name d' name' mem
    · rw [heq]
      exact .same _
    · rw [heq]
      exact .rename _ (dir_attached h hd') hk hl hi
    · rw [heq]
      exact .replace hm hd hd' (dir_attached h hd') hk hl hi hfi hfj hj hji hkj
  | exchange root names name names' name' =>
    apply Outcome.of_elim
    intro d hd
    apply Outcome.of_elim
    intro d' hd'
    obtain heq | ⟨i, j, hi, hj, hij, ⟨hk, hk'⟩, heq⟩ := exchangeNodes_cases h d name d' name'
    · rw [heq]
      exact .same _
    · rw [heq]
      by_cases hdd : d = d'
      · rw [if_pos hdd]
        exact .swapNames _ i j
      · rw [if_neg hdd]
        exact .exchange root hd hd' (dir_attached h hd) (dir_attached h hd') hk hk' hi hj hij hdd
  | openNode place trunc =>
    apply Outcome.of_elim
    intro i hi
    exact .openNode i trunc hi
  | close i =>
    simp only [step]
    split
    · rename_i ho
      exact .close ho
    · exact .same _
  | write place offset bytes mem =>
    apply Outcome.of_elim
    intro i hi
    exact .write hi
  | truncate place length mem =>
    apply Outcome.of_elim
    intro i hi
    exact .truncate hi
  | memfd name mem => exact .memfd
  | addSeals i seals mapped =>
    simp only [step]
    split
    · exact .addSeals i
    · exact .same _
  | mount maxBytes maxInodes mem => exact .mount

/-- The state of an exchange between two directories, as two moves. -/
theorem exchange_moves (h : Links s) (hd' : Attached s d') (hk : s.kindOf d = some .dir)
    (hk' : s.kindOf d' = some .dir) (hi : s.par i = some d) (hj : s.par j = some d') (hij : i ≠ j)
    (hdd : d ≠ d') : Links ((s.swapNames i j).moveEntry d i d' []) ∧
      Moved s ((s.swapNames i j).moveEntry d i d' []) d i d' ∧
      Moved ((s.swapNames i j).moveEntry d i d' []) ((s.swapNames i j).swapEntries d i d' j) d' j d := by
  have hsame := (swapNames_sameNodes (s := s) i j).sameLinks
  have h₁ := h.congr hsame
  have hi₁ := (hsame.par i).trans hi
  have hj₁ := (hsame.par j).trans hj
  have hk₁ := (hsame.kindOf d).trans hk
  have hk₁' := (hsame.kindOf d').trans hk'
  have hatt : Attached (s.swapNames i j) d' := by
    unfold Attached
    rw [hsame.par, hsame.roots]
    exact hd'
  have hm := moveEntry_moved (d := d) (h₁.live_of_par hi₁).1 (by rw [hk₁']; simp) []
  refine ⟨h₁.moveEntry hi₁ hk₁' hatt [], ⟨hm.next.trans hsame.next, hm.roots.trans hsame.roots, ?_, ?_,
    fun a => (hm.target a).trans (hsame.target a), fun a => (hm.later a).trans (hsame.later a),
    fun a => (hm.kindOf a).trans (hsame.kindOf a), fun a => (hm.embedded a).trans (hsame.embedded a)⟩,
    swapEntries_moved h₁ hi₁ hj₁ hij hdd hk₁ hk₁' []⟩
  · intro a
    rw [hm.par, hsame.par]
  · intro a
    rw [hm.kids, hsame.kids, hsame.kids, hsame.kids]

theorem Links.outcome (h : Links s) (ho : Outcome s op s') : Links s' := by
  cases ho with
  | same => exact h
  | enters _ hd he => exact h.enters hd (.inr he)
  | symlink hd he => exact h.makesSymlink hd (.inr he)
  | symlinkPath hd he => exact h.makesSymlink hd (.inr he)
  | link _ hd hk ht hn =>
    apply Links.congr _ (enterLink_sameEntries _ _ _).sameLinks
    apply h.added (addLink_added h hk ht _) ⟨hk, hd⟩
    intro t' htt
    obtain rfl := Option.some.inj htt
    exact ⟨hn, ht, rfl⟩
  | unlink _ _ hi hk =>
    obtain ⟨_, _, hlinks, _⟩ := h.dispose hi hk
    exact hlinks
  | rename _ hd hk _ hi => exact h.moveEntry hi hk hd _
  | replace _ _ _ hd hk _ hi _ _ hj hji hkj =>
    obtain ⟨h₁, hdir, ha₁⟩ := attached_take h hj hkj hd (ne_of_kids h hj hkj) hk
    apply h₁.moveEntry _ hdir ha₁
    rw [take_par h hj hkj, if_neg (Ne.symm hji), hi]
  | swapNames _ i j => exact h.congr (swapNames_sameNodes i j).sameLinks
  | exchange _ _ _ hd hd' hk hk' hi hj hij hdd =>
    obtain ⟨h₂, hm, hm'⟩ := exchange_moves h hd' hk hk' hi hj hij hdd
    apply h₂.moved hm'
    · rw [hm.par, if_neg (Ne.symm hij), hj]
    · rw [hm.kindOf, hm.par, hm.roots]
      refine ⟨hk, ?_⟩
      split
      · exact .inl (by simp)
      · exact hd
  | openNode i trunc => exact (h.congr (addRef_sameLinks i)).congr (vfsOpen_sameNodes i trunc).sameLinks
  | close => exact vfsClose_links h _
  | write => exact h.congr (vfsWrite_sameNodes ..).sameLinks
  | truncate => exact h.congr (vfsTruncate_sameNodes ..).sameLinks
  | memfd => exact createMemfd_links h _ _
  | addSeals => exact h.congr (nodeAddSeals_sameNodes ..).sameLinks
  | mount => exact tmpfsMount_links h _ _ _

theorem step_links (h : Links s) (op : Op) : Links (step s op) := h.outcome (step_outcome h op)

theorem start_links (totalSize : Nat) : Links (State.start totalSize) := by
  have hfield : ∀ i, (State.start totalSize).entries i =
      if i = 0 then some { Entry.new ['/'] .dir with vfsNode := some ⟨0, false⟩ } else none :=
    fun i => by
      simp only [State.start]
      rw [Table.put_apply]
  have hpar : ∀ i, (State.start totalSize).par i = none := by
    intro i
    unfold State.par
    rw [hfield]
    split <;> rfl
  have hkids : ∀ i, (State.start totalSize).kids i = [] := by
    intro i
    unfold State.kids
    rw [hfield]
    split <;> rfl
  have htar : ∀ i, (State.start totalSize).target i = none := by
    intro i
    unfold State.target
    rw [hfield]
    split <;> rfl
  have hlat : ∀ i, (State.start totalSize).later i = [] := by
    intro i
    unfold State.later
    rw [hfield]
    split <;> rfl
  constructor
  · intro i hi
    have hpos : 1 ≤ i := hi
    unfold State.kindOf
    rw [hfield, if_neg (by omega)]
    rfl
  · simp [hpar, hkids]
  · simp [hkids]
  · simp [htar, hlat]
  · simp [hlat]
  · simp [htar]
  · simp [hkids]
  · intro r hr
    obtain rfl := List.mem_singleton.mp hr
    exact ⟨rfl, rfl, rfl⟩
  · exact fun i _ => hpar i

end Outcomes

end Lebirun.Ramfs
