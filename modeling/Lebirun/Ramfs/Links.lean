import Mathlib
import Lebirun.Ramfs.Ops

namespace Lebirun.Ramfs
set_option autoImplicit true

/-- How entries name each other: the children of a directory are the entries with it as parent, the
later names of an inode those with it as target, each once; a removed directory is empty. -/
structure Links (s : State) : Prop where
  unborn : ∀ i, s.next ≤ i → s.kindOf i = none
  tree : ∀ d i, i ∈ s.kids d ↔ s.par i = some d
  kidsNodup : ∀ d, (s.kids d).Nodup
  links : ∀ t i, i ∈ s.later t ↔ s.target i = some t
  laterNodup : ∀ t, (s.later t).Nodup
  inode : ∀ i t, s.target i = some t →
    s.target t = none ∧ s.kindOf i = some .file ∧ s.kindOf t = some .file
  dirs : ∀ d, s.kids d ≠ [] → s.kindOf d = some .dir ∧ (s.par d ≠ none ∨ d ∈ s.roots)
  roots : ∀ r ∈ s.roots, s.kindOf r = some .dir ∧ s.par r = none ∧ s.embedded r = false
  marked : ∀ i, s.embedded i = true → s.par i = none

/-- Nothing that the links are about has changed. -/
structure SameLinks (s s' : State) : Prop where
  next : s'.next = s.next
  roots : s'.roots = s.roots
  par : ∀ i, s'.par i = s.par i
  kids : ∀ d, s'.kids d = s.kids d
  target : ∀ i, s'.target i = s.target i
  later : ∀ t, s'.later t = s.later t
  kindOf : ∀ i, s'.kindOf i = s.kindOf i
  embedded : ∀ i, s'.embedded i = s.embedded i

theorem SameLinks.inode (h : SameLinks s s') (i : Nat) : s'.inode i = s.inode i := by
  rw [State.inode, State.inode, h.target]

theorem SameLinks.refl (s : State) : SameLinks s s :=
  ⟨rfl, rfl, fun _ => rfl, fun _ => rfl, fun _ => rfl, fun _ => rfl, fun _ => rfl, fun _ => rfl⟩

theorem SameLinks.trans (h : SameLinks s s') (h' : SameLinks s' s'') : SameLinks s s'' :=
  ⟨h'.next.trans h.next, h'.roots.trans h.roots, fun i => (h'.par i).trans (h.par i),
    fun d => (h'.kids d).trans (h.kids d), fun i => (h'.target i).trans (h.target i),
    fun t => (h'.later t).trans (h.later t), fun i => (h'.kindOf i).trans (h.kindOf i),
    fun i => (h'.embedded i).trans (h.embedded i)⟩

theorem SameLinks.symm (h : SameLinks s s') : SameLinks s' s :=
  ⟨h.next.symm, h.roots.symm, fun i => (h.par i).symm, fun d => (h.kids d).symm,
    fun i => (h.target i).symm, fun t => (h.later t).symm, fun i => (h.kindOf i).symm,
    fun i => (h.embedded i).symm⟩

theorem SameLinks.of_entries (he : s'.entries = s.entries) (hn : s'.next = s.next)
    (hr : s'.roots = s.roots) : SameLinks s s' := by
  constructor
  · exact hn
  · exact hr
  all_goals
    intro i
    simp only [State.par, State.kids, State.target, State.later, State.kindOf, State.embedded, he]

theorem Links.congr (h : Links s) (hs : SameLinks s s') : Links s' := by
  constructor
  · intro i hi
    rw [hs.kindOf]
    exact h.unborn i (hs.next ▸ hi)
  · intro d i
    rw [hs.kids, hs.par]
    exact h.tree d i
  · intro d
    rw [hs.kids]
    exact h.kidsNodup d
  · intro t i
    rw [hs.later, hs.target]
    exact h.links t i
  · intro t
    rw [hs.later]
    exact h.laterNodup t
  · intro i t ht
    rw [hs.target] at ht
    rw [hs.target, hs.kindOf, hs.kindOf]
    exact h.inode i t ht
  · intro d hd
    rw [hs.kids] at hd
    rw [hs.kindOf, hs.par, hs.roots]
    exact h.dirs d hd
  · intro r hr
    rw [hs.roots] at hr
    rw [hs.kindOf, hs.par, hs.embedded]
    exact h.roots r hr
  · intro i hi
    rw [hs.embedded] at hi
    rw [hs.par]
    exact h.marked i hi

namespace State

variable {s : State}

theorem modify_entries (i j : Nat) (f : Entry → Entry) :
    (s.modify i f).entries j = if j = i then (s.entries i).map f else s.entries j :=
  Table.modify_apply i j f

@[simp] theorem modify_next : (s.modify i f).next = s.next := rfl

@[simp] theorem modify_roots : (s.modify i f).roots = s.roots := rfl

@[simp]
theorem limitsAdd_entries : (s.limitsAdd lim b n).entries = s.entries := by
  cases lim <;> rfl

@[simp]
theorem limitsAdd_next : (s.limitsAdd lim b n).next = s.next := by
  cases lim <;> rfl

@[simp]
theorem limitsAdd_roots : (s.limitsAdd lim b n).roots = s.roots := by
  cases lim <;> rfl

@[simp]
theorem limitsSub_entries : (s.limitsSub lim b n).entries = s.entries := by
  cases lim <;> rfl

@[simp]
theorem limitsSub_next : (s.limitsSub lim b n).next = s.next := by
  cases lim <;> rfl

@[simp]
theorem limitsSub_roots : (s.limitsSub lim b n).roots = s.roots := by
  cases lim <;> rfl

@[simp]
theorem uncount_entries : (s.uncount k).entries = s.entries := by
  unfold uncount
  split <;> rfl

@[simp]
theorem uncount_next : (s.uncount k).next = s.next := by
  unfold uncount
  split <;> rfl

@[simp]
theorem uncount_roots : (s.uncount k).roots = s.roots := by
  unfold uncount
  split <;> rfl

end State

theorem sameLinks_limitsAdd : SameLinks s (s.limitsAdd lim b n) :=
  .of_entries State.limitsAdd_entries State.limitsAdd_next State.limitsAdd_roots

theorem sameLinks_limitsSub : SameLinks s (s.limitsSub lim b n) :=
  .of_entries State.limitsSub_entries State.limitsSub_next State.limitsSub_roots

/-- Changing what the links are not about: the data, the name, the count of the vfs node. -/
theorem sameLinks_modify {f : Entry → Entry} (hp : ∀ e, (f e).parent = e.parent)
    (hc : ∀ e, (f e).children = e.children) (ht : ∀ e, (f e).linkTarget = e.linkTarget)
    (hh : ∀ e, (f e).hardlinks = e.hardlinks) (hk : ∀ e, (f e).kind = e.kind)
    (hv : ∀ e, (f e).vfsNode.any VfsNode.embedded = e.vfsNode.any VfsNode.embedded) :
    SameLinks s (s.modify i f) := by
  constructor
  · rfl
  · rfl
  all_goals
    intro j
    simp only [State.par, State.kids, State.target, State.later, State.kindOf, State.embedded,
      State.modify_entries]
    by_cases hj : j = i
    · subst hj
      cases s.entries j <;> simp [hp, hc, ht, hh, hk, hv]
    · simp [hj]

namespace State

variable {s : State} {f : Entry → Entry} {i j : Nat}

theorem live_iff : s.kindOf i ≠ none ↔ ∃ e, s.entries i = some e := by
  unfold kindOf
  cases s.entries i <;> simp

theorem modify_par (h : ∀ e, (f e).parent = e.parent) : (s.modify i f).par j = s.par j := by
  unfold par
  rw [modify_entries]
  by_cases hj : j = i
  · subst hj
    cases s.entries j <;> simp [h]
  · simp [hj]

theorem modify_par_set (hl : s.kindOf i ≠ none) (h : ∀ e, (f e).parent = p) :
    (s.modify i f).par j = if j = i then p else s.par j := by
  obtain ⟨e, he⟩ := live_iff.mp hl
  unfold par
  rw [modify_entries]
  by_cases hj : j = i
  · subst hj
    simp [he, h]
  · simp [hj]

theorem modify_kids (h : ∀ e, (f e).children = e.children) : (s.modify i f).kids j = s.kids j := by
  unfold kids
  rw [modify_entries]
  by_cases hj : j = i
  · subst hj
    cases s.entries j <;> simp [h]
  · simp [hj]

theorem modify_kids_erase (h : ∀ e, (f e).children = e.children.erase k) :
    (s.modify i f).kids j = if j = i then (s.kids i).erase k else s.kids j := by
  unfold kids
  rw [modify_entries]
  by_cases hj : j = i
  · subst hj
    cases s.entries j <;> simp [h]
  · simp [hj]

theorem modify_kids_cons (hl : s.kindOf i ≠ none) (h : ∀ e, (f e).children = k :: e.children) :
    (s.modify i f).kids j = if j = i then k :: s.kids i else s.kids j := by
  obtain ⟨e, he⟩ := live_iff.mp hl
  unfold kids
  rw [modify_entries]
  by_cases hj : j = i
  · subst hj
    simp [he, h]
  · simp [hj]

theorem modify_target (h : ∀ e, (f e).linkTarget = e.linkTarget) :
    (s.modify i f).target j = s.target j := by
  unfold target
  rw [modify_entries]
  by_cases hj : j = i
  · subst hj
    cases s.entries j <;> simp [h]
  · simp [hj]

theorem modify_later (h : ∀ e, (f e).hardlinks = e.hardlinks) :
    (s.modify i f).later j = s.later j := by
  unfold later
  rw [modify_entries]
  by_cases hj : j = i
  · subst hj
    cases s.entries j <;> simp [h]
  · simp [hj]

theorem modify_later_erase (h : ∀ e, (f e).hardlinks = e.hardlinks.erase k) :
    (s.modify i f).later j = if j = i then (s.later i).erase k else s.later j := by
  unfold later
  rw [modify_entries]
  by_cases hj : j = i
  · subst hj
    cases s.entries j <;> simp [h]
  · simp [hj]

theorem modify_later_cons (hl : s.kindOf i ≠ none) (h : ∀ e, (f e).hardlinks = k :: e.hardlinks) :
    (s.modify i f).later j = if j = i then k :: s.later i else s.later j := by
  obtain ⟨e, he⟩ := live_iff.mp hl
  unfold later
  rw [modify_entries]
  by_cases hj : j = i
  · subst hj
    simp [he, h]
  · simp [hj]

theorem modify_kindOf (h : ∀ e, (f e).kind = e.kind) : (s.modify i f).kindOf j = s.kindOf j := by
  unfold kindOf
  rw [modify_entries]
  by_cases hj : j = i
  · subst hj
    cases s.entries j <;> simp [h]
  · simp [hj]

theorem modify_embedded (h : ∀ e, (f e).vfsNode.any VfsNode.embedded = e.vfsNode.any VfsNode.embedded) :
    (s.modify i f).embedded j = s.embedded j := by
  unfold embedded
  rw [modify_entries]
  by_cases hj : j = i
  · subst hj
    cases s.entries j <;> simp [h]
  · simp [hj]

theorem modify_embedded_ne (hj : j ≠ i) : (s.modify i f).embedded j = s.embedded j := by
  unfold embedded
  rw [modify_entries, if_neg hj]

end State

theorem Links.live_of_par (h : Links s) (hp : s.par i = some d) :
    s.kindOf i ≠ none ∧ s.kindOf d = some .dir := by
  have hmem := (h.tree d i).mpr hp
  have hkind := (h.dirs d (List.ne_nil_of_mem hmem)).1
  refine ⟨?_, hkind⟩
  unfold State.par at hp
  obtain ⟨e, he, -⟩ := Option.bind_eq_some_iff.mp hp
  exact State.live_iff.mpr ⟨e, he⟩

/-- The entry `i` taken out of the directory `d`. -/
structure Removed (s s' : State) (d i : Nat) : Prop where
  next : s'.next = s.next
  roots : s'.roots = s.roots
  par : ∀ j, s'.par j = if j = i then none else s.par j
  kids : ∀ j, s'.kids j = if j = d then (s.kids d).erase i else s.kids j
  target : ∀ j, s'.target j = s.target j
  later : ∀ j, s'.later j = s.later j
  kindOf : ∀ j, s'.kindOf j = s.kindOf j
  embedded : ∀ j, j ≠ i → s'.embedded j = s.embedded j

theorem Links.removed (h : Links s) (hr : Removed s s' d i) (hp : s.par i = some d)
    (hempty : s.kids i = []) : Links s' := by
  have hid : i ≠ d := by
    rintro rfl
    have hmem := (h.tree i i).mpr hp
    rw [hempty] at hmem
    cases hmem
  have hroot : i ∉ s.roots := by
    intro hi
    rw [(h.roots i hi).2.1] at hp
    cases hp
  constructor
  · intro j hj
    rw [hr.kindOf]
    exact h.unborn j (hr.next ▸ hj)
  · intro d' j
    rw [hr.kids, hr.par]
    by_cases hj : j = i
    · subst hj
      by_cases hd : d' = d
      · subst hd
        simp [(h.kidsNodup d').mem_erase_iff]
      · rw [if_neg hd, h.tree d' j, hp]
        simp [Ne.symm hd]
    · by_cases hd : d' = d
      · subst hd
        rw [if_pos rfl, if_neg hj, List.mem_erase_of_ne hj]
        exact h.tree d' j
      · rw [if_neg hd, if_neg hj]
        exact h.tree d' j
  · intro d'
    rw [hr.kids]
    split
    · exact (h.kidsNodup d).erase i
    · exact h.kidsNodup d'
  · intro t j
    rw [hr.later, hr.target]
    exact h.links t j
  · intro t
    rw [hr.later]
    exact h.laterNodup t
  · intro j t ht
    rw [hr.target] at ht
    rw [hr.target, hr.kindOf, hr.kindOf]
    exact h.inode j t ht
  · intro d' hne
    rw [hr.kids] at hne
    rw [hr.kindOf, hr.par, hr.roots]
    have hold : s.kids d' ≠ [] := by
      by_cases hd : d' = d
      · subst hd
        rw [if_pos rfl] at hne
        intro hnil
        rw [hnil] at hne
        exact hne rfl
      · rwa [if_neg hd] at hne
    have hdi : d' ≠ i := by
      rintro rfl
      exact hold hempty
    rw [if_neg hdi]
    exact h.dirs d' hold
  · intro r hmem
    rw [hr.roots] at hmem
    have hri : r ≠ i := by
      rintro rfl
      exact hroot hmem
    rw [hr.kindOf, hr.par, if_neg hri, hr.embedded r hri]
    exact h.roots r hmem
  · intro j hj
    rw [hr.par]
    by_cases hji : j = i
    · rw [if_pos hji]
    · rw [if_neg hji]
      rw [hr.embedded j hji] at hj
      exact h.marked j hj

/-- The entry `i` moved from the directory `d` to the front of `d'`. -/
structure Moved (s s' : State) (d i d' : Nat) : Prop where
  next : s'.next = s.next
  roots : s'.roots = s.roots
  par : ∀ j, s'.par j = if j = i then some d' else s.par j
  kids : ∀ j, s'.kids j =
    if j = d' then i :: (if d' = d then (s.kids d).erase i else s.kids d')
    else if j = d then (s.kids d).erase i else s.kids j
  target : ∀ j, s'.target j = s.target j
  later : ∀ j, s'.later j = s.later j
  kindOf : ∀ j, s'.kindOf j = s.kindOf j
  embedded : ∀ j, s'.embedded j = s.embedded j

theorem Links.moved (h : Links s) (hm : Moved s s' d i d') (hp : s.par i = some d)
    (hd : s.kindOf d' = some .dir ∧ (s.par d' ≠ none ∨ d' ∈ s.roots)) : Links s' := by
  have hroot : i ∉ s.roots := by
    intro hi
    rw [(h.roots i hi).2.1] at hp
    cases hp
  constructor
  · intro j hj
    rw [hm.kindOf]
    exact h.unborn j (hm.next ▸ hj)
  · intro a j
    rw [hm.kids, hm.par]
    by_cases hj : j = i
    · subst hj
      by_cases ha : a = d'
      · simp [ha]
      · by_cases had : a = d
        · subst had
          simp [ha, Ne.symm ha, (h.kidsNodup a).mem_erase_iff]
        · simp [ha, had, h.tree, hp, Ne.symm ha, Ne.symm had]
    · by_cases ha : a = d'
      · subst ha
        by_cases had : a = d
        · simp [hj, had, List.mem_erase_of_ne hj, h.tree]
        · simp [hj, had, h.tree]
      · by_cases had : a = d
        · simp [hj, had ▸ ha, had, List.mem_erase_of_ne hj, h.tree]
        · simp [hj, ha, had, h.tree]
  · intro a
    have hd' : i ∉ (if d' = d then (s.kids d).erase i else s.kids d') := by
      split
      · simp [(h.kidsNodup d).mem_erase_iff]
      · rename_i hne
        rw [h.tree, hp]
        simpa using Ne.symm hne
    rw [hm.kids]
    by_cases ha : a = d'
    · rw [if_pos ha]
      refine List.nodup_cons.mpr ⟨hd', ?_⟩
      split
      · exact (h.kidsNodup d).erase i
      · exact h.kidsNodup d'
    · rw [if_neg ha]
      split
      · exact (h.kidsNodup d).erase i
      · exact h.kidsNodup a
  · intro t j
    rw [hm.later, hm.target]
    exact h.links t j
  · intro t
    rw [hm.later]
    exact h.laterNodup t
  · intro j t ht
    rw [hm.target] at ht
    rw [hm.target, hm.kindOf, hm.kindOf]
    exact h.inode j t ht
  · intro a hne
    rw [hm.kids] at hne
    rw [hm.kindOf, hm.par, hm.roots]
    have hold : s.kindOf a = some .dir ∧ (s.par a ≠ none ∨ a ∈ s.roots) := by
      by_cases ha : a = d'
      · rw [ha]
        exact hd
      · rw [if_neg ha] at hne
        apply h.dirs
        by_cases had : a = d
        · rw [if_pos had] at hne
          rintro hnil
          rw [had] at hnil
          rw [hnil] at hne
          exact hne rfl
        · rwa [if_neg had] at hne
    refine ⟨hold.1, ?_⟩
    by_cases hai : a = i
    · exact .inl (by simp [hai])
    · rw [if_neg hai]
      exact hold.2
  · intro r hmem
    rw [hm.roots] at hmem
    have hri : r ≠ i := by
      rintro rfl
      exact hroot hmem
    rw [hm.kindOf, hm.par, if_neg hri, hm.embedded]
    exact h.roots r hmem
  · intro j hj
    rw [hm.embedded] at hj
    have hnone := h.marked j hj
    have hji : j ≠ i := by
      rintro rfl
      rw [hnone] at hp
      cases hp
    rw [hm.par, if_neg hji]
    exact hnone

/-- What is not there names nothing. -/
theorem Links.absent (h : Links s) (hi : s.kindOf i = none) :
    s.par i = none ∧ s.kids i = [] ∧ s.target i = none ∧ s.later i = [] ∧ s.embedded i = false ∧
      i ∉ s.roots := by
  have he : s.entries i = none := Option.map_eq_none_iff.mp hi
  refine ⟨by simp [State.par, he], by simp [State.kids, he], by simp [State.target, he],
    by simp [State.later, he], by simp [State.embedded, he], ?_⟩
  intro hr
  rw [(h.roots i hr).1] at hi
  cases hi

/-- A new entry in the directory `d`, a later name of the inode `lt` or a first name. -/
structure Added (s s' : State) (d : Nat) (k : Kind) (lt : Option Nat) : Prop where
  next : s'.next = s.next + 1
  roots : s'.roots = s.roots
  par : ∀ j, s'.par j = if j = s.next then some d else s.par j
  kids : ∀ j, s'.kids j = if j = d then s.next :: s.kids d else s.kids j
  target : ∀ j, s'.target j = if j = s.next then lt else s.target j
  later : ∀ j, s'.later j = if lt = some j then s.next :: s.later j else s.later j
  kindOf : ∀ j, s'.kindOf j = if j = s.next then some k else s.kindOf j
  embedded : ∀ j, s'.embedded j = s.embedded j

theorem Links.added (h : Links s) (ha : Added s s' d k lt)
    (hd : s.kindOf d = some .dir ∧ (s.par d ≠ none ∨ d ∈ s.roots))
    (hlt : ∀ t, lt = some t → s.target t = none ∧ s.kindOf t = some .file ∧ k = .file) : Links s' := by
  obtain ⟨hpar, hkids, htar, hlat, -, hroot⟩ := h.absent (h.unborn s.next (Nat.le_refl _))
  have hne : ∀ j, s.kindOf j ≠ none → j ≠ s.next := by
    rintro j hj rfl
    exact hj (h.unborn _ (Nat.le_refl _))
  have hdn := hne d (by rw [hd.1]; simp)
  constructor
  · intro j hj
    rw [ha.next] at hj
    rw [ha.kindOf, if_neg (by omega)]
    exact h.unborn j (by omega)
  · intro a j
    rw [ha.kids, ha.par]
    by_cases hj : j = s.next
    · subst hj
      by_cases had : a = d
      · simp [had]
      · simp [had, h.tree, hpar, Ne.symm had]
    · by_cases had : a = d
      · simp [had, hj, h.tree]
      · simp [had, hj, h.tree]
  · intro a
    rw [ha.kids]
    split
    · refine List.nodup_cons.mpr ⟨?_, h.kidsNodup d⟩
      rw [h.tree, hpar]
      simp
    · exact h.kidsNodup a
  · intro t j
    rw [ha.later, ha.target]
    by_cases hj : j = s.next
    · subst hj
      by_cases ht : lt = some t
      · simp [ht]
      · simp [ht, h.links, htar]
    · by_cases ht : lt = some t
      · simp [ht, hj, h.links]
      · simp [ht, hj, h.links]
  · intro t
    rw [ha.later]
    split
    · refine List.nodup_cons.mpr ⟨?_, h.laterNodup t⟩
      rw [h.links, htar]
      simp
    · exact h.laterNodup t
  · intro j t ht
    rw [ha.target] at ht
    by_cases hj : j = s.next
    · rw [if_pos hj] at ht
      obtain ⟨h1, h2, h3⟩ := hlt t ht
      have htn := hne t (by rw [h2]; simp)
      rw [ha.target, ha.kindOf, ha.kindOf, if_neg htn, if_pos hj, if_neg htn]
      exact ⟨h1, by rw [h3], h2⟩
    · rw [if_neg hj] at ht
      obtain ⟨h1, h2, h3⟩ := h.inode j t ht
      have htn := hne t (by rw [h3]; simp)
      rw [ha.target, ha.kindOf, ha.kindOf, if_neg htn, if_neg hj, if_neg htn]
      exact ⟨h1, h2, h3⟩
  · intro a hnil
    have hold : s.kindOf a = some .dir ∧ (s.par a ≠ none ∨ a ∈ s.roots) := by
      rw [ha.kids] at hnil
      by_cases had : a = d
      · rw [had]
        exact hd
      · rw [if_neg had] at hnil
        exact h.dirs a hnil
    have han := hne a (by rw [hold.1]; simp)
    rw [ha.kindOf, ha.par, ha.roots, if_neg han, if_neg han]
    exact hold
  · intro r hr
    rw [ha.roots] at hr
    obtain ⟨h1, h2, h3⟩ := h.roots r hr
    have hrn := hne r (by rw [h1]; simp)
    rw [ha.kindOf, ha.par, ha.embedded, if_neg hrn, if_neg hrn]
    exact ⟨h1, h2, h3⟩
  · intro j hj
    rw [ha.embedded] at hj
    have hjn : j ≠ s.next := by
      rintro rfl
      have hnone := (h.absent (h.unborn s.next (Nat.le_refl _))).2.2.2.2.1
      rw [hnone] at hj
      cases hj
    rw [ha.par, if_neg hjn]
    exact h.marked j hj

/-- A new entry in no directory: a memfd or the root of a mount. -/
structure Placed (s s' : State) (k : Kind) (root embedded : Bool) : Prop where
  next : s'.next = s.next + 1
  roots : s'.roots = if root then s.next :: s.roots else s.roots
  par : ∀ j, s'.par j = s.par j
  kids : ∀ j, s'.kids j = s.kids j
  target : ∀ j, s'.target j = s.target j
  later : ∀ j, s'.later j = s.later j
  kindOf : ∀ j, s'.kindOf j = if j = s.next then some k else s.kindOf j
  embedded : ∀ j, s'.embedded j = if j = s.next then embedded else s.embedded j

theorem Links.placed (h : Links s) (ha : Placed s s' k root embedded)
    (hk : root = true → k = .dir ∧ embedded = false) : Links s' := by
  obtain ⟨hpar, -⟩ := h.absent (h.unborn s.next (Nat.le_refl _))
  have hne : ∀ j, s.kindOf j ≠ none → j ≠ s.next := by
    rintro j hj rfl
    exact hj (h.unborn _ (Nat.le_refl _))
  have hroots : ∀ r, r ∈ s.roots → r ∈ s'.roots := by
    intro r hr
    rw [ha.roots]
    split
    · exact List.mem_cons_of_mem _ hr
    · exact hr
  constructor
  · intro j hj
    rw [ha.next] at hj
    rw [ha.kindOf, if_neg (by omega)]
    exact h.unborn j (by omega)
  · intro a j
    rw [ha.kids, ha.par]
    exact h.tree a j
  · intro a
    rw [ha.kids]
    exact h.kidsNodup a
  · intro t j
    rw [ha.later, ha.target]
    exact h.links t j
  · intro t
    rw [ha.later]
    exact h.laterNodup t
  · intro j t ht
    rw [ha.target] at ht
    obtain ⟨h1, h2, h3⟩ := h.inode j t ht
    have hjn := hne j (by rw [h2]; simp)
    have htn := hne t (by rw [h3]; simp)
    rw [ha.target, ha.kindOf, ha.kindOf, if_neg hjn, if_neg htn]
    exact ⟨h1, h2, h3⟩
  · intro a hnil
    rw [ha.kids] at hnil
    obtain ⟨h1, h2⟩ := h.dirs a hnil
    have han := hne a (by rw [h1]; simp)
    rw [ha.kindOf, ha.par, if_neg han]
    exact ⟨h1, h2.imp_right (hroots a)⟩
  · intro r hr
    by_cases hrn : r = s.next
    · subst hrn
      have hroot : root = true := by
        by_contra hf
        rw [ha.roots, if_neg hf] at hr
        exact (h.absent (h.unborn s.next (Nat.le_refl _))).2.2.2.2.2 hr
      obtain ⟨h1, h2⟩ := hk hroot
      rw [ha.kindOf, ha.par, ha.embedded, if_pos rfl, if_pos rfl, h1, h2]
      exact ⟨rfl, hpar, rfl⟩
    · have hold : r ∈ s.roots := by
        rw [ha.roots] at hr
        split at hr
        · exact (List.mem_cons.mp hr).resolve_left hrn
        · exact hr
      rw [ha.kindOf, ha.par, ha.embedded, if_neg hrn, if_neg hrn]
      exact h.roots r hold
  · intro j hj
    rw [ha.par]
    by_cases hjn : j = s.next
    · rw [hjn]
      exact hpar
    · rw [ha.embedded, if_neg hjn] at hj
      exact h.marked j hj

/-- An entry freed that names nothing and that no directory names. -/
structure Erased (s s' : State) (i : Nat) : Prop where
  next : s'.next = s.next
  roots : s'.roots = s.roots
  par : ∀ j, s'.par j = s.par j
  kids : ∀ j, s'.kids j = s.kids j
  target : ∀ j, s'.target j = if j = i then none else s.target j
  later : ∀ j, s'.later j = if s.target i = some j then (s.later j).erase i else s.later j
  kindOf : ∀ j, s'.kindOf j = if j = i then none else s.kindOf j
  embedded : ∀ j, s'.embedded j = if j = i then false else s.embedded j

theorem Links.erased (h : Links s) (ha : Erased s s' i) (hkids : s.kids i = [])
    (hlater : s.later i = []) (hroot : i ∉ s.roots) : Links s' := by
  have htar : ∀ j, s.target j ≠ some i := by
    intro j hj
    have hmem := (h.links i j).mpr hj
    rw [hlater] at hmem
    cases hmem
  constructor
  · intro j hj
    rw [ha.kindOf]
    split
    · rfl
    · exact h.unborn j (ha.next ▸ hj)
  · intro a j
    rw [ha.kids, ha.par]
    exact h.tree a j
  · intro a
    rw [ha.kids]
    exact h.kidsNodup a
  · intro t j
    rw [ha.later, ha.target]
    by_cases hj : j = i
    · subst hj
      by_cases ht : s.target j = some t
      · simp [ht, (h.laterNodup t).mem_erase_iff]
      · simp [ht, h.links]
    · by_cases ht : s.target i = some t
      · simp [ht, hj, List.mem_erase_of_ne hj, h.links]
      · simp [ht, hj, h.links]
  · intro t
    rw [ha.later]
    split
    · exact (h.laterNodup t).erase i
    · exact h.laterNodup t
  · intro j t ht
    rw [ha.target] at ht
    by_cases hj : j = i
    · rw [if_pos hj] at ht
      cases ht
    · rw [if_neg hj] at ht
      obtain ⟨h1, h2, h3⟩ := h.inode j t ht
      have hti : t ≠ i := by
        rintro rfl
        exact htar j ht
      rw [ha.target, ha.kindOf, ha.kindOf, if_neg hj, if_neg hti, if_neg hti]
      exact ⟨h1, h2, h3⟩
  · intro a hne
    rw [ha.kids] at hne
    have hai : a ≠ i := by
      rintro rfl
      exact hne hkids
    rw [ha.kindOf, ha.par, ha.roots, if_neg hai]
    exact h.dirs a hne
  · intro r hr
    rw [ha.roots] at hr
    have hri : r ≠ i := by
      rintro rfl
      exact hroot hr
    rw [ha.kindOf, ha.par, ha.embedded, if_neg hri, if_neg hri]
    exact h.roots r hr
  · intro j hj
    rw [ha.par]
    rw [ha.embedded] at hj
    split at hj
    · cases hj
    · exact h.marked j hj

end Lebirun.Ramfs
