import Mathlib
import Lebirun.Lib.Run
import Lebirun.Ramfs.Names

namespace Lebirun.Ramfs
open Machine
set_option autoImplicit true

/-- What keeps an entry: a directory, being a root, its open node, or later names. -/
def Retained (s : State) (i : Nat) : Prop :=
  s.par i ≠ none ∨ i ∈ s.roots ∨ 0 < s.refs i ∨ s.later i ≠ []

/-- Entries are there as long as something keeps them, `x` perhaps excepted; the counts are those of the
opens; what is open without a name is a file or a symlink, marked; every entry gone was freed once. -/
structure KeptBut (s : State) (x : Option Nat) : Prop where
  origin : ∀ i, s.kindOf i ≠ none → s.origin i = s.inode i
  opens : ∀ i, s.opens i = s.refs i
  retained : ∀ i, some i ≠ x → s.kindOf i ≠ none → Retained s i
  nameless : ∀ i, s.par i = none → i ∉ s.roots → 0 < s.refs i →
    s.embedded i = true ∧ (s.kindOf i = some .file ∨ s.kindOf i = some .symlink)
  freed : ∀ i, i ∈ s.freed ↔ i < s.next ∧ s.kindOf i = none
  freedOnce : s.freed.Nodup

def Kept (s : State) : Prop := KeptBut s none

section Refs

variable {s s' : State}

theorem refs_pos (h : 0 < s.refs i) : s.kindOf i ≠ none := by
  intro hnone
  have he : s.entries i = none := Option.map_eq_none_iff.mp hnone
  simp [State.refs, he] at h

theorem modify_refs {f : Entry → Entry} (h : ∀ e, (f e).refs = e.refs) (j : Nat) :
    (s.modify i f).refs j = s.refs j := by
  unfold State.refs
  rw [State.modify_entries]
  by_cases hj : j = i
  · subst hj
    cases s.entries j <;> simp [h]
  · simp [hj]

theorem SameEntries.refs (h : SameEntries s s') (j : Nat) : s'.refs j = s.refs j := by
  unfold State.refs
  rw [h.entries]

theorem addEntry_refs (hd : d ≠ s.next) (hnone : s.kindOf s.next = none) {e : Entry}
    (hv : e.vfsNode = none) (j : Nat) : (s.addEntry d e).refs j = s.refs j := by
  have he : s.entries s.next = none := Option.map_eq_none_iff.mp hnone
  unfold State.refs
  rw [addEntry_entries hd]
  by_cases hj : j = d
  · subst hj
    simp only [if_true]
    cases s.entries j <;> rfl
  · by_cases hjn : j = s.next
    · subst hjn
      simp [hj, he, Entry.refs, hv]
    · simp [hj, hjn]

theorem unname_refs (i : Nat) (e : Entry) (j : Nat) : (s.unname i e).refs j = s.refs j := by
  have hsame : SameEntries s ((s.uncount e.kind).limitsSub e.limits 0 1) :=
    sameEntries_uncount.trans sameEntries_limitsSub
  rw [State.unname, modify_refs, hsame.refs]
  intro e
  cases he : e.vfsNode <;> simp [Entry.refs, he]

theorem detach_refs (d i j : Nat) : (s.detach d i).refs j = s.refs j := by
  apply modify_refs
  exact fun _ => rfl

theorem moveEntry_refs (d i d' : Nat) (name : Text) (j : Nat) :
    (s.moveEntry d i d' name).refs j = s.refs j := by
  rw [State.moveEntry, modify_refs, modify_refs, detach_refs]
  all_goals exact fun _ => rfl

theorem swapEntries_refs (d i d' k j : Nat) : (s.swapEntries d i d' k).refs j = s.refs j := by
  rw [State.swapEntries, modify_refs, modify_refs, modify_refs, modify_refs, detach_refs, detach_refs]
  all_goals exact fun _ => rfl

theorem freeEntry_refs (i j : Nat) : (s.freeEntry i).refs j = if j = i then 0 else s.refs j := by
  unfold State.refs
  rw [freeEntry_entries]
  split <;> rfl

/-- A node with a count is marked when its entry is taken away. -/
theorem unname_embedded (i : Nat) (e : Entry) (hr : 0 < s.refs i) :
    (s.unname i e).embedded i = true := by
  have hsame : SameEntries s ((s.uncount e.kind).limitsSub e.limits 0 1) :=
    sameEntries_uncount.trans sameEntries_limitsSub
  unfold State.unname State.embedded
  rw [State.modify_entries, if_pos rfl, hsame.entries]
  unfold State.refs at hr
  cases he : s.entries i with
  | none => simp [he] at hr
  | some e' =>
    cases hv : e'.vfsNode with
    | none => simp [he, Entry.refs, hv] at hr
    | some v => simp [hv]

theorem addRef_refs (hl : s.kindOf i ≠ none) (j : Nat) :
    (s.addRef i).refs j = if j = i then s.refs i + 1 else s.refs j := by
  obtain ⟨e, he⟩ := State.live_iff.mp hl
  have hent : (s.addRef i).entries j = (s.modify i fun e =>
      { e with vfsNode := some (e.vfsNode.elim ⟨1, false⟩ fun v => ⟨v.refCount + 1, v.embedded⟩) }).entries j :=
    rfl
  unfold State.refs
  rw [hent, State.modify_entries]
  by_cases hj : j = i
  · subst hj
    cases hv : e.vfsNode <;> simp [he, Entry.refs, hv]
  · simp [hj]

theorem dropRef_refs (i j : Nat) :
    (s.dropRef i).refs j = if j = i then s.refs i - 1 else s.refs j := by
  have hent : (s.dropRef i).entries j = (s.modify i fun e =>
      { e with vfsNode := e.vfsNode.map fun v => ⟨v.refCount - 1, v.embedded⟩ }).entries j := rfl
  unfold State.refs
  rw [hent, State.modify_entries]
  by_cases hj : j = i
  · subst hj
    cases he : s.entries j with
    | none => simp
    | some e => cases hv : e.vfsNode <;> simp [Entry.refs, hv]
  · simp [hj]

end Refs

/-- Everything that `KeptBut` is about is the same, but for the links. -/
structure SameLife (s s' : State) : Prop where
  refs : ∀ j, s'.refs j = s.refs j
  origin : s'.origin = s.origin
  opens : s'.opens = s.opens
  freed : s'.freed = s.freed

theorem SameNodes.life (h : SameNodes s s') : SameLife s s' := ⟨h.refs, h.origin, h.opens, h.freed⟩

theorem SameEntries.life (h : SameEntries s s') : SameLife s s' := h.sameNodes.life

section Kept

variable {s s' : State}

theorem KeptBut.congr (h : KeptBut s x) (hs : SameLinks s s') (hl : SameLife s s') : KeptBut s' x := by
  constructor
  · intro i hi
    rw [hs.kindOf] at hi
    rw [hl.origin, hs.inode]
    exact h.origin i hi
  · intro i
    rw [hl.opens, hl.refs]
    exact h.opens i
  · intro i hx hi
    rw [hs.kindOf] at hi
    unfold Retained
    rw [hs.par, hs.roots, hl.refs, hs.later]
    exact h.retained i hx hi
  · intro i hp hr hpos
    rw [hs.par] at hp
    rw [hs.roots] at hr
    rw [hl.refs] at hpos
    rw [hs.embedded, hs.kindOf]
    exact h.nameless i hp hr hpos
  · intro i
    rw [hl.freed, hs.next, hs.kindOf]
    exact h.freed i
  · rw [hl.freed]
    exact h.freedOnce

theorem Kept.added (h : Kept s) (hl : Links s) (ha : Added s s' d k lt)
    (hr : ∀ j, s'.refs j = s.refs j)
    (hor : s'.origin = Function.update s.origin s.next (lt.getD s.next))
    (ho : s'.opens = s.opens) (hf : s'.freed = s.freed) : Kept s' := by
  have hnone := hl.unborn s.next (Nat.le_refl _)
  constructor
  · intro i hi
    rw [ha.kindOf] at hi
    unfold State.inode
    rw [hor, ha.target]
    by_cases hin : i = s.next
    · subst hin
      simp
    · rw [if_neg hin] at hi
      rw [Function.update_of_ne hin, if_neg hin]
      exact h.origin i hi
  · intro i
    rw [ho, hr]
    exact h.opens i
  · intro i hx hi
    rw [ha.kindOf] at hi
    unfold Retained
    rw [ha.par, ha.roots, hr]
    by_cases hin : i = s.next
    · exact .inl (by simp [hin])
    · rw [if_neg hin] at hi
      rw [if_neg hin]
      obtain hp | hroot | hpos | hne := h.retained i hx hi
      · exact .inl hp
      · exact .inr (.inl hroot)
      · exact .inr (.inr (.inl hpos))
      · refine .inr (.inr (.inr ?_))
        rw [ha.later]
        split
        · simp
        · exact hne
  · intro i hp hroot hpos
    rw [ha.par] at hp
    rw [ha.roots] at hroot
    rw [hr] at hpos
    have hin : i ≠ s.next := by
      rintro rfl
      exact refs_pos hpos hnone
    rw [if_neg hin] at hp
    rw [ha.embedded, ha.kindOf, if_neg hin]
    exact h.nameless i hp hroot hpos
  · intro i
    rw [hf, ha.next, ha.kindOf, h.freed]
    by_cases hin : i = s.next
    · simp [hin]
    · rw [if_neg hin]
      constructor
      · intro hi
        exact ⟨by omega, hi.2⟩
      · intro hi
        exact ⟨by omega, hi.2⟩
  · rw [hf]
    exact h.freedOnce

/-- A new entry in no directory is a root, or an open marked file. -/
theorem Kept.placed (h : Kept s) (hl : Links s) (ha : Placed s s' k root embedded)
    (hr : ∀ j, s'.refs j = if j = s.next then r else s.refs j)
    (hor : s'.origin = Function.update s.origin s.next s.next)
    (ho : s'.opens = Function.update s.opens s.next r) (hf : s'.freed = s.freed)
    (hk : root = true ∨ 0 < r ∧ embedded = true ∧ k = .file) : Kept s' := by
  have hnone := hl.unborn s.next (Nat.le_refl _)
  obtain ⟨hpar, -, htar, -, -, hnr⟩ := hl.absent hnone
  constructor
  · intro i hi
    rw [ha.kindOf] at hi
    unfold State.inode
    rw [hor, ha.target]
    by_cases hin : i = s.next
    · subst hin
      simp [htar]
    · rw [if_neg hin] at hi
      rw [Function.update_of_ne hin]
      exact h.origin i hi
  · intro i
    rw [ho, hr]
    by_cases hin : i = s.next
    · simp [hin]
    · rw [Function.update_of_ne hin, if_neg hin]
      exact h.opens i
  · intro i hx hi
    rw [ha.kindOf] at hi
    unfold Retained
    rw [ha.par, ha.roots, hr, ha.later]
    by_cases hin : i = s.next
    · subst hin
      obtain hroot | ⟨hpos, -⟩ := hk
      · exact .inr (.inl (by simp [hroot]))
      · exact .inr (.inr (.inl (by simpa using hpos)))
    · rw [if_neg hin] at hi
      rw [if_neg hin]
      obtain hp | hroot | hrest := h.retained i hx hi
      · exact .inl hp
      · refine .inr (.inl ?_)
        split
        · exact List.mem_cons_of_mem _ hroot
        · exact hroot
      · exact .inr (.inr hrest)
  · intro i hp hroot hpos
    rw [ha.par] at hp
    rw [ha.roots] at hroot
    rw [hr] at hpos
    rw [ha.embedded, ha.kindOf]
    by_cases hin : i = s.next
    · obtain hr | ⟨-, he, hfile⟩ := hk
      · rw [if_pos hr] at hroot
        exact absurd (hin ▸ List.mem_cons_self) hroot
      · rw [if_pos hin, if_pos hin, hfile]
        exact ⟨he, .inl rfl⟩
    · rw [if_neg hin] at hpos
      rw [if_neg hin, if_neg hin]
      apply h.nameless i hp _ hpos
      intro hmem
      apply hroot
      split
      · exact List.mem_cons_of_mem _ hmem
      · exact hmem
  · intro i
    rw [hf, ha.next, ha.kindOf, h.freed]
    by_cases hin : i = s.next
    · simp [hin]
    · rw [if_neg hin]
      constructor
      · intro hi
        exact ⟨by omega, hi.2⟩
      · intro hi
        exact ⟨by omega, hi.2⟩
  · rw [hf]
    exact h.freedOnce

theorem Kept.moved (h : Kept s) (hm : Moved s s' d i d') (hl : SameLife s s') : Kept s' := by
  have hinode : ∀ j, s'.inode j = s.inode j := by
    intro j
    unfold State.inode
    rw [hm.target]
  constructor
  · intro j hj
    rw [hm.kindOf] at hj
    rw [hl.origin, hinode]
    exact h.origin j hj
  · intro j
    rw [hl.opens, hl.refs]
    exact h.opens j
  · intro j hx hj
    rw [hm.kindOf] at hj
    unfold Retained
    rw [hm.par, hm.roots, hl.refs, hm.later]
    by_cases hji : j = i
    · exact .inl (by simp [hji])
    · rw [if_neg hji]
      exact h.retained j hx hj
  · intro j hp hr hpos
    rw [hm.par] at hp
    rw [hm.roots] at hr
    rw [hl.refs] at hpos
    rw [hm.embedded, hm.kindOf]
    by_cases hji : j = i
    · rw [if_pos hji] at hp
      cases hp
    · rw [if_neg hji] at hp
      exact h.nameless j hp hr hpos
  · intro j
    rw [hl.freed, hm.next, hm.kindOf]
    exact h.freed j
  · rw [hl.freed]
    exact h.freedOnce

/-- An entry loses its name; if it is open it is a file or a symlink. -/
theorem Kept.removed (h : Kept s) (hr : Removed s s' d i) (hl : SameLife s s')
    (he : 0 < s.refs i → s'.embedded i = true)
    (hk : 0 < s.refs i → s.kindOf i = some .file ∨ s.kindOf i = some .symlink) :
    KeptBut s' (some i) := by
  have hinode : ∀ j, s'.inode j = s.inode j := by
    intro j
    unfold State.inode
    rw [hr.target]
  constructor
  · intro j hj
    rw [hr.kindOf] at hj
    rw [hl.origin, hinode]
    exact h.origin j hj
  · intro j
    rw [hl.opens, hl.refs]
    exact h.opens j
  · intro j hx hj
    have hji : j ≠ i := by
      rintro rfl
      exact hx rfl
    rw [hr.kindOf] at hj
    unfold Retained
    rw [hr.par, if_neg hji, hr.roots, hl.refs, hr.later]
    exact h.retained j (by simp) hj
  · intro j hp hroot hpos
    rw [hl.refs] at hpos
    rw [hr.kindOf]
    by_cases hji : j = i
    · subst hji
      exact ⟨he hpos, hk hpos⟩
    · rw [hr.par, if_neg hji] at hp
      rw [hr.roots] at hroot
      rw [hr.embedded j hji]
      exact h.nameless j hp hroot hpos
  · intro j
    rw [hl.freed, hr.next, hr.kindOf]
    exact h.freed j
  · rw [hl.freed]
    exact h.freedOnce

/-- An entry that is not open and has no later names is freed; its inode may have been kept by it. -/
theorem KeptBut.erased (h : KeptBut s (some i)) (hl : Links s) (he : Erased s s' i)
    (hlive : s.kindOf i ≠ none) (hrefs : s.refs i = 0)
    (hr : ∀ j, s'.refs j = if j = i then 0 else s.refs j) (hor : s'.origin = s.origin)
    (ho : s'.opens = s.opens) (hf : s'.freed = i :: s.freed) : KeptBut s' (s.target i) := by
  constructor
  · intro j hj
    rw [he.kindOf] at hj
    unfold State.inode
    rw [hor, he.target]
    split
    · rename_i hji
      rw [if_pos hji] at hj
      exact absurd rfl hj
    · rename_i hji
      rw [if_neg hji] at hj
      exact h.origin j hj
  · intro j
    rw [ho, hr]
    split
    · rename_i hji
      rw [hji, h.opens, hrefs]
    · exact h.opens j
  · intro j hx hj
    rw [he.kindOf] at hj
    unfold Retained
    by_cases hji : j = i
    · rw [if_pos hji] at hj
      exact absurd rfl hj
    · rw [if_neg hji] at hj
      rw [he.par, he.roots, hr, if_neg hji, he.later, if_neg (Ne.symm hx)]
      exact h.retained j (by simpa using hji) hj
  · intro j hp hroot hpos
    rw [he.par] at hp
    rw [he.roots] at hroot
    rw [hr] at hpos
    by_cases hji : j = i
    · rw [if_pos hji] at hpos
      exact absurd hpos (Nat.lt_irrefl _)
    · rw [if_neg hji] at hpos
      rw [he.embedded, if_neg hji, he.kindOf, if_neg hji]
      exact h.nameless j hp hroot hpos
  · intro j
    rw [hf, he.next, he.kindOf, List.mem_cons, h.freed]
    by_cases hji : j = i
    · subst hji
      have hlt : j < s.next := by
        by_contra hge
        exact hlive (hl.unborn j (Nat.not_lt.mp hge))
      simp [hlt]
    · simp [hji]
  · rw [hf]
    refine List.nodup_cons.mpr ⟨?_, h.freedOnce⟩
    rw [h.freed]
    intro hmem
    exact hlive hmem.2

theorem KeptBut.mono (h : KeptBut s (some i)) (hi : s.kindOf i ≠ none → Retained s i) : Kept s := by
  refine ⟨h.origin, h.opens, ?_, h.nameless, h.freed, h.freedOnce⟩
  intro j _ hj
  by_cases hji : j = i
  · subst hji
    exact hi hj
  · exact h.retained j (by simpa using hji) hj

theorem Kept.but (h : Kept s) (i : Nat) : KeptBut s (some i) :=
  ⟨h.origin, h.opens, fun j _ hj => h.retained j (by simp) hj, h.nameless, h.freed, h.freedOnce⟩

/-- What freeing an entry does to the counts and the log. -/
theorem freeEntry_erased_life (h : KeptBut s (some i)) (hl : Links s) (hlive : s.kindOf i ≠ none)
    (hrefs : s.refs i = 0) (he : Erased s (s.freeEntry i) i) : KeptBut (s.freeEntry i) (s.target i) :=
  h.erased hl he hlive hrefs (freeEntry_refs i) rfl rfl rfl

theorem KeptBut.destroyInode (h : KeptBut s (some i)) (hl : Links s) (hp : s.par i = none)
    (hk : s.kids i = []) (ht : s.target i = none) (hrefs : s.refs i = 0) :
    Kept (s.destroyInode i) := by
  unfold State.destroyInode
  cases he : s.entries i with
  | none =>
    apply h.mono
    intro hlive
    exact absurd (State.live_iff.mp hlive) (by simp [he])
  | some e =>
    have hlive : s.kindOf i ≠ none := State.live_iff.mpr ⟨e, he⟩
    dsimp only
    by_cases hh : e.hardlinks ≠ []
    · rw [if_pos hh]
      apply h.mono
      intro _
      refine .inr (.inr (.inr ?_))
      simpa [State.later, he] using hh
    · rw [if_neg hh]
      have hlat : s.later i = [] := by simpa [State.later, he] using hh
      split
      · have hk' := freeEntry_erased_life h hl hlive hrefs (freeEntry_erased hp hk hlat ht)
        rw [ht] at hk'
        exact hk'
      · have hsame := @sameEntries_refund s e.limits e.capacity
        have hs := hsame.sameLinks
        have herased := freeEntry_erased ((hs.par i).trans hp) ((hs.kids i).trans hk)
          ((hs.later i).trans hlat) ((hs.target i).trans ht)
        have hk' := freeEntry_erased_life (h.congr hs hsame.life) (hl.congr hs)
          (by rw [hs.kindOf]; exact hlive) ((hsame.refs i).trans hrefs) herased
        rw [hs.target, ht] at hk'
        exact hk'

theorem dropName_refs (t i j : Nat) : (s.dropName t i).refs j = if j = i then 0 else s.refs j := by
  rw [State.dropName, freeEntry_refs, modify_refs]
  exact fun _ => rfl

theorem KeptBut.destroyEntry (h : KeptBut s (some i)) (hl : Links s) (hp : s.par i = none)
    (hk : s.kids i = []) (hroot : i ∉ s.roots) (hrefs : s.refs i = 0) : Kept (s.destroyEntry i) := by
  cases ht : s.target i with
  | none =>
    have heq : s.destroyEntry i = s.destroyInode i := by simp [State.destroyEntry, ht]
    rw [heq]
    exact h.destroyInode hl hp hk ht hrefs
  | some t =>
    obtain ⟨htt, hfi, hft⟩ := hl.inode i t ht
    have hti : t ≠ i := by
      rintro rfl
      rw [htt] at ht
      cases ht
    have he := dropName_erased hp hk (hl.later_nil ht) ht
    have hl' := hl.erased he hk (hl.later_nil ht) hroot
    have h' := h.erased hl he (by rw [hfi]; simp) hrefs (dropName_refs t i) rfl rfl rfl
    rw [ht] at h'
    have hft' : (s.dropName t i).kindOf t = some .file := by
      rw [he.kindOf, if_neg hti, hft]
    rw [destroyEntry_some ht]
    split
    · rename_i hlast
      obtain ⟨hpar, -, hr⟩ := lastUse_par hlast
      apply h'.destroyInode hl' hpar
      · exact hl'.kids_nil (by rw [hft']; simp)
      · rw [he.target, if_neg hti, htt]
      · exact hr
    · rename_i hlast
      apply h'.mono
      intro hlive
      obtain ⟨te, hte⟩ := State.live_iff.mp hlive
      simp only [State.lastUse, hte, Option.any_some, Bool.and_eq_true, Option.isNone_iff_eq_none,
        List.isEmpty_iff, decide_eq_true_eq, not_and] at hlast
      by_cases hpar : te.parent = none
      · by_cases hh : te.hardlinks = []
        · refine .inr (.inr (.inl ?_))
          have hr := hlast ⟨hpar, hh⟩
          simp only [State.refs, hte, Option.elim_some]
          omega
        · refine .inr (.inr (.inr ?_))
          simpa [State.later, hte] using hh
      · refine .inl ?_
        simpa [State.par, hte] using hpar

/-- An entry taken out of its directory is freed at once, or kept by its open node or later names. -/
theorem Kept.take (h : Kept s) (hl : Links s) (hp : s.par i = some d) (hempty : s.kids i = [])
    (hk : 0 < s.refs i → s.kindOf i = some .file ∨ s.kindOf i = some .symlink) : Kept (s.take d i) := by
  obtain ⟨e, he, hrefs, -⟩ := detach_live hl hp
  have hr := unname_removed hl hp e
  have hl₁ := hl.removed hr hp hempty
  have hlife : SameLife s ((s.detach d i).unname i e) := by
    have hsame : SameEntries (s.detach d i) (((s.detach d i).uncount e.kind).limitsSub e.limits 0 1) :=
      sameEntries_uncount.trans sameEntries_limitsSub
    refine ⟨?_, hsame.origin, hsame.opens, hsame.freed⟩
    intro j
    rw [unname_refs, detach_refs]
  have hbut := h.removed hr hlife (fun hpos => unname_embedded i e (by rw [detach_refs]; exact hpos)) hk
  unfold State.take
  rw [disposeRemoved_some he]
  have hid := ne_of_kids hl hp hempty
  split
  · rename_i hzero
    apply hbut.destroyEntry hl₁
    · rw [hr.par, if_pos rfl]
    · rw [hr.kids, if_neg (Ne.symm hid), hempty]
    · rw [hr.roots]
      intro hmem
      rw [(hl.roots i hmem).2.1] at hp
      cases hp
    · rw [hlife.refs, ← hrefs, hzero]
  · rename_i hne
    apply hbut.mono
    intro _
    refine .inr (.inr (.inl ?_))
    rw [hlife.refs, ← hrefs]
    exact Nat.pos_of_ne_zero hne

/-- A node that is opened is in the tree or open already. -/
theorem find_live (hl : Links s) (h : Kept s) (hf : s.find place = some i) :
    s.kindOf i ≠ none ∧ (Attached s i ∨ 0 < s.refs i) := by
  cases place with
  | path root names =>
    have ha : Attached s i := dir_attached hl (p := ⟨root, names⟩) hf
    refine ⟨?_, .inl ha⟩
    obtain hp | hr := ha
    · obtain ⟨d, hd⟩ := Option.ne_none_iff_exists'.mp hp
      exact (hl.live_of_par hd).1
    · rw [(hl.roots i hr).1]
      simp
  | node j =>
    by_cases hpos : 0 < s.opens j
    · simp only [State.find, if_pos hpos, Option.some.injEq] at hf
      subst hf
      rw [h.opens] at hpos
      exact ⟨refs_pos hpos, .inr hpos⟩
    · simp [State.find, hpos] at hf

theorem Kept.addRef (h : Kept s) (hlive : s.kindOf i ≠ none) (ha : Attached s i ∨ 0 < s.refs i) :
    Kept (s.addRef i) := by
  have hs := addRef_sameLinks (s := s) i
  have hr := addRef_refs hlive
  constructor
  · intro j hj
    rw [hs.kindOf] at hj
    rw [hs.inode]
    exact h.origin j hj
  · intro j
    rw [hr]
    show Function.update s.opens i (s.opens i + 1) j = _
    by_cases hj : j = i
    · subst hj
      simp [h.opens]
    · rw [Function.update_of_ne hj, if_neg hj]
      exact h.opens j
  · intro j hx hj
    rw [hs.kindOf] at hj
    unfold Retained
    rw [hs.par, hs.roots, hr, hs.later]
    obtain hp | hroot | hpos | hlat := h.retained j hx hj
    · exact .inl hp
    · exact .inr (.inl hroot)
    · refine .inr (.inr (.inl ?_))
      split
      · exact Nat.succ_pos _
      · exact hpos
    · exact .inr (.inr (.inr hlat))
  · intro j hp hroot hpos
    rw [hs.par] at hp
    rw [hs.roots] at hroot
    rw [hr] at hpos
    rw [hs.embedded, hs.kindOf]
    by_cases hj : j = i
    · subst hj
      obtain (hpar | hr') | hpos' := ha
      · exact absurd hp hpar
      · exact absurd hr' hroot
      · exact h.nameless j hp hroot hpos'
    · rw [if_neg hj] at hpos
      exact h.nameless j hp hroot hpos
  · intro j
    rw [hs.next, hs.kindOf]
    exact h.freed j
  · exact h.freedOnce

theorem Kept.dropRef (h : Kept s) : KeptBut (s.dropRef i) (some i) := by
  have hs := dropRef_sameLinks (s := s) i
  have hr := dropRef_refs (s := s) i
  constructor
  · intro j hj
    rw [hs.kindOf] at hj
    rw [hs.inode]
    exact h.origin j hj
  · intro j
    rw [hr]
    show Function.update s.opens i (s.opens i - 1) j = _
    by_cases hj : j = i
    · subst hj
      simp [h.opens]
    · rw [Function.update_of_ne hj, if_neg hj]
      exact h.opens j
  · intro j hx hj
    have hji : j ≠ i := by
      rintro rfl
      exact hx rfl
    rw [hs.kindOf] at hj
    unfold Retained
    rw [hs.par, hs.roots, hr, if_neg hji, hs.later]
    exact h.retained j (by simp) hj
  · intro j hp hroot hpos
    rw [hs.par] at hp
    rw [hs.roots] at hroot
    rw [hr] at hpos
    rw [hs.embedded, hs.kindOf]
    apply h.nameless j hp hroot
    split at hpos
    · rename_i hji
      rw [hji]
      omega
    · exact hpos
  · intro j
    rw [hs.next, hs.kindOf]
    exact h.freed j
  · exact h.freedOnce

/-- The last close of a node that lost its name frees the entry; any other leaves it. -/
theorem Kept.close (h : Kept s) (hl : Links s) (hpos : 0 < s.opens i) : Kept (s.vfsClose i) := by
  rw [h.opens] at hpos
  obtain ⟨hzero, -⟩ | ⟨-, heq⟩ := vfsClose_cases (s := s) i
  · omega
  · rw [heq]
    have hs := dropRef_sameLinks (s := s) i
    have hl₁ := hl.congr hs
    have hbut : KeptBut (s.dropRef i) (some i) := h.dropRef
    split
    · rename_i hc
      simp only [Bool.and_eq_true, decide_eq_true_eq] at hc
      obtain ⟨⟨-, hemb⟩, hrefs⟩ := hc
      have hpar := hl₁.marked i hemb
      have hroot : i ∉ (s.dropRef i).roots := by
        intro hr
        rw [(hl₁.roots i hr).2.2] at hemb
        cases hemb
      have hkids : (s.dropRef i).kids i = [] := by
        by_contra hne
        obtain ⟨-, hp | hr⟩ := hl₁.dirs i hne
        · exact hp hpar
        · exact hroot hr
      exact hbut.destroyEntry hl₁ hpar hkids hroot hrefs
    · rename_i hc
      apply hbut.mono
      intro _
      by_cases hpar : s.par i = none
      · by_cases hroot : i ∈ s.roots
        · exact .inr (.inl (hs.roots ▸ hroot))
        · obtain ⟨hemb, hkind⟩ := h.nameless i hpar hroot hpos
          refine .inr (.inr (.inl ?_))
          by_contra hle
          apply hc
          have hcall : (s.dropRef i).hasCallbacks i = true := by
            rw [hasCallbacks_congr hs.kindOf]
            obtain hk | hk := hkind <;> simp [State.hasCallbacks, hk]
          rw [hcall, hs.embedded, hemb]
          simp only [Bool.and_self, Bool.true_and, decide_eq_true_eq]
          omega
      · exact .inl (by rw [hs.par]; exact hpar)

end Kept

section Runs

variable {s s' : State}

/-- Open, and neither a file nor a symlink. -/
def OpenSpecial (s : State) (i : Nat) : Prop :=
  0 < s.refs i ∧ s.kindOf i ≠ some .file ∧ s.kindOf i ≠ some .symlink

/-- The call does not take the name of an open directory, FIFO or socket away. -/
def KeepsSpecial (s : State) : Op → Prop
  | .unlink p name => ∀ d i, s.dir p = some d → s.findChild d name = some i → s.kids i = [] →
      ¬ OpenSpecial s i
  | .rename p name p' name' mem => ∀ d d' i j, s.dir p = some d → s.dir p' = some d' →
      s.limitsOf d = s.limitsOf d' → mem = true → s.findChild d name = some i →
      s.findChild d' name' = some j → j ≠ i → s.kids j = [] → ¬ OpenSpecial s j
  | _ => True

theorem not_openSpecial (h : ¬ OpenSpecial s i) (hpos : 0 < s.refs i) :
    s.kindOf i = some .file ∨ s.kindOf i = some .symlink := by
  by_contra hno
  obtain ⟨hf, hs⟩ := not_or.mp hno
  exact h ⟨hpos, hf, hs⟩

theorem Kept.addEntry (h : Kept s) (hl : Links s) (hd : s.kindOf d = some .dir) {e : Entry}
    (he : Fresh e) : Kept (s.addEntry d e) := by
  have hnone := hl.unborn s.next (Nat.le_refl _)
  have hne : d ≠ s.next := by
    rintro rfl
    rw [hnone] at hd
    cases hd
  apply h.added hl (addEntry_added hl hd he.children he.hardlinks he.vfsNode he.linkTarget)
    (addEntry_refs hne hnone he.vfsNode)
  · show Function.update s.origin s.next (e.linkTarget.getD s.next) = _
    rw [he.linkTarget]
  · rfl
  · rfl

theorem Kept.addLink (h : Kept s) (hl : Links s) (hd : s.kindOf d = some .dir)
    (ht : s.kindOf t = some .file) (name : Text) : Kept (s.addLink d t name) := by
  have hnone := hl.unborn s.next (Nat.le_refl _)
  have hne : d ≠ s.next := by
    rintro rfl
    rw [hnone] at hd
    cases hd
  apply h.added hl (addLink_added hl hd ht name)
  · intro j
    have hnone' : (s.modify t fun e => { e with hardlinks := s.next :: e.hardlinks }).kindOf s.next =
        none := by
      rw [State.modify_kindOf, hnone]
      exact fun _ => rfl
    rw [State.addLink, addEntry_refs (s := s.modify t _) hne hnone' rfl, modify_refs]
    exact fun _ => rfl
  · rfl
  · rfl
  · rfl

theorem put_refs (he : s'.entries = Table.put s.entries s.next e) (j : Nat) :
    s'.refs j = if j = s.next then e.refs else s.refs j := by
  unfold State.refs
  rw [he, Table.put_apply]
  split <;> rfl

theorem Kept.createMemfd (h : Kept s) (hl : Links s) (name : Text) (mem : Bool) :
    Kept (s.createMemfd name mem).2 := by
  unfold State.createMemfd
  split
  · exact h
  · exact h.placed hl (placed_put hl rfl rfl rfl rfl false rfl rfl rfl) (put_refs rfl) rfl rfl rfl
      (.inr ⟨Nat.one_pos, rfl, rfl⟩)

theorem Kept.tmpfsMount (h : Kept s) (hl : Links s) (maxBytes maxInodes : Nat) (mem : Bool) :
    Kept (s.tmpfsMount maxBytes maxInodes mem) := by
  have hzero : s.opens = Function.update s.opens s.next 0 := by
    have hnone : s.entries s.next = none :=
      Option.map_eq_none_iff.mp (hl.unborn s.next (Nat.le_refl _))
    have hopen : s.opens s.next = 0 := by
      rw [h.opens, State.refs, hnone]
      rfl
    rw [← hopen, Function.update_eq_self]
  unfold State.tmpfsMount
  split
  · exact h
  · exact h.placed hl (placed_put hl rfl rfl rfl rfl true rfl rfl rfl) (put_refs rfl) rfl hzero rfl
      (.inl rfl)

theorem Kept.outcome (h : Kept s) (hl : Links s) (ho : Outcome s op s') (hok : KeepsSpecial s op) :
    Kept s' := by
  cases ho with
  | same => exact h
  | enters _ _ he =>
    obtain ⟨hd, -, e, hfresh, -, -, rfl⟩ := he
    exact (h.addEntry hl hd hfresh).congr (enter_sameEntries _ e).sameLinks (enter_sameEntries _ e).life
  | symlink _ he =>
    obtain ⟨hd, e, hfresh, -, hsame⟩ := he
    exact (h.addEntry hl hd hfresh).congr hsame.sameLinks hsame.life
  | symlinkPath _ he =>
    obtain ⟨hd, e, hfresh, -, hsame⟩ := he
    exact (h.addEntry hl hd hfresh).congr hsame.sameLinks hsame.life
  | @link d t name _ hd hk ht =>
    have hsame := enterLink_sameEntries (s := s) d t name
    exact (h.addLink hl hk ht name).congr hsame.sameLinks hsame.life
  | unlink hp hf hi hk => exact h.take hl hi hk (not_openSpecial (hok _ _ hp hf hk))
  | rename _ _ hk _ hi =>
    apply h.moved (moveEntry_moved (hl.live_of_par hi).1 (by rw [hk]; simp) _)
    exact ⟨moveEntry_refs _ _ _ _, rfl, rfl, rfl⟩
  | replace hm hp hp' hd hk hlim hi hfi hfj hj hji hkj =>
    have hspecial := hok _ _ _ _ hp hp' hlim hm hfi hfj hji hkj
    have h₁ := h.take hl hj hkj (not_openSpecial hspecial)
    obtain ⟨hl₁, hdir, -⟩ := attached_take hl hj hkj hd (ne_of_kids hl hj hkj) hk
    have hi₁ := take_par hl hj hkj _ |>.trans ((if_neg (Ne.symm hji)).trans hi)
    apply h₁.moved (moveEntry_moved (hl₁.live_of_par hi₁).1 (by rw [hdir]; simp) _)
    exact ⟨moveEntry_refs _ _ _ _, rfl, rfl, rfl⟩
  | swapNames _ i j =>
    have hsame := swapNames_sameNodes (s := s) i j
    exact h.congr hsame.sameLinks hsame.life
  | exchange _ _ _ _ hd' hk hk' hi hj hij hdd =>
    obtain ⟨-, hm, hm'⟩ := exchange_moves hl hd' hk hk' hi hj hij hdd
    have h₂ := Kept.moved h hm ⟨fun a => (moveEntry_refs _ _ _ _ a).trans
      ((swapNames_sameNodes _ _).refs a), rfl, rfl, rfl⟩
    apply h₂.moved hm'
    exact ⟨fun a => (swapEntries_refs _ _ _ _ a).trans (moveEntry_refs _ _ _ _ a).symm, rfl, rfl, rfl⟩
  | openNode i trunc hf =>
    obtain ⟨hlive, ha⟩ := find_live hl h hf
    have hsame := vfsOpen_sameNodes (s := s) i trunc
    exact (h.addRef hlive ha).congr hsame.sameLinks hsame.life
  | close hpos => exact h.close hl hpos
  | write => exact h.congr (vfsWrite_sameNodes ..).sameLinks (vfsWrite_sameNodes ..).life
  | truncate => exact h.congr (vfsTruncate_sameNodes ..).sameLinks (vfsTruncate_sameNodes ..).life
  | memfd => exact h.createMemfd hl _ _
  | addSeals => exact h.congr (nodeAddSeals_sameNodes ..).sameLinks (nodeAddSeals_sameNodes ..).life
  | mount => exact h.tmpfsMount hl _ _ _

/-- The entries of directories that were made for an inode. -/
def State.names (s : State) (i : Nat) : List Nat :=
  ((List.range s.next).flatMap s.kids).filter fun e => s.origin e = i

/-- An inode is freed, once, when no directory names it and no node of its entries is open; until then
its link count is the number of its names and they all read the same. -/
structure InodeLife (s : State) (i : Nat) : Prop where
  freed : i ∈ s.freed ↔ s.names i = [] ∧ ∀ e, s.origin e = i → s.opens e = 0
  once : s.freed.count i ≤ 1
  linkCount : ∀ e, s.kindOf e ≠ none → s.origin e = i → s.nodeLinkCount e = (s.names i).length
  sameBytes : ∀ e e', s.kindOf e ≠ none → s.kindOf e' ≠ none → s.origin e = i → s.origin e' = i →
    s.vfsRead e = s.vfsRead e'

theorem mem_names (hl : Links s) : e ∈ s.names i ↔ s.par e ≠ none ∧ s.origin e = i := by
  unfold State.names
  rw [List.mem_filter, List.mem_flatMap]
  constructor
  · intro h
    obtain ⟨⟨d, -, hd⟩, ho⟩ := h
    refine ⟨?_, by simpa using ho⟩
    rw [(hl.tree d e).mp hd]
    simp
  · intro h
    obtain ⟨hp, ho⟩ := h
    obtain ⟨d, hd⟩ := Option.ne_none_iff_exists'.mp hp
    refine ⟨⟨d, ?_, (hl.tree d e).mpr hd⟩, by simpa using ho⟩
    rw [List.mem_range]
    by_contra hge
    have hnone := hl.unborn d (Nat.not_lt.mp hge)
    rw [(hl.live_of_par hd).2] at hnone
    cases hnone

theorem names_nodup (hl : Links s) (i : Nat) : (s.names i).Nodup := by
  apply List.Nodup.filter
  apply List.nodup_flatMap.mpr
  refine ⟨fun d _ => hl.kidsNodup d, ?_⟩
  apply List.nodup_range.imp
  intro d d' hne e he he'
  have hd := (hl.tree d e).mp he
  rw [(hl.tree d' e).mp he'] at hd
  exact hne (Option.some.inj hd).symm

theorem live_of_named (hl : Links s) (hp : s.par e ≠ none) : s.kindOf e ≠ none := by
  obtain ⟨d, hd⟩ := Option.ne_none_iff_exists'.mp hp
  exact (hl.live_of_par hd).1

/-- The names of an inode are its first entry and the later ones, as far as they have a directory. -/
theorem names_perm (hl : Links s) (h : Kept s) (hi : s.kindOf i ≠ none) (ho : s.origin i = i) :
    (s.names i).Perm ((i :: s.later i).filter fun e => (s.par e).isSome) := by
  have htar : s.target i = none := by
    cases ht : s.target i with
    | none => rfl
    | some t =>
      have hinode := h.origin i hi
      rw [ho, State.inode, ht] at hinode
      have htn := (hl.inode i t ht).1
      rw [← show i = t from hinode, ht] at htn
      cases htn
  have hnotin : i ∉ s.later i := by
    intro hmem
    rw [hl.links, htar] at hmem
    cases hmem
  apply (List.perm_ext_iff_of_nodup (names_nodup hl i)
    ((List.nodup_cons.mpr ⟨hnotin, hl.laterNodup i⟩).filter _)).mpr
  intro e
  rw [mem_names hl, List.mem_filter, List.mem_cons, hl.links, Option.isSome_iff_ne_none]
  constructor
  · intro he
    obtain ⟨hp, hoe⟩ := he
    have hinode := h.origin e (live_of_named hl hp)
    rw [hoe, State.inode] at hinode
    cases ht : s.target e with
    | none =>
      rw [ht] at hinode
      exact ⟨.inl hinode.symm, hp⟩
    | some t =>
      rw [ht] at hinode
      exact ⟨.inr (congrArg some (show i = t from hinode).symm), hp⟩
  · intro he
    obtain ⟨rfl | ht, hp⟩ := he
    · exact ⟨hp, ho⟩
    · refine ⟨hp, ?_⟩
      rw [h.origin e (live_of_named hl hp), State.inode, ht]
      rfl

theorem inodeLife (hl : Links s) (h : Kept s) (hlt : i < s.next) (ho : s.origin i = i)
    (hroot : i ∉ s.roots) : InodeLife s i := by
  have hnil : s.names i = [] ↔ ∀ e, s.origin e = i → s.par e = none := by
    rw [List.eq_nil_iff_forall_not_mem]
    constructor
    · intro hn e he
      by_contra hp
      exact hn e ((mem_names hl).mpr ⟨hp, he⟩)
    · intro hn e he
      obtain ⟨hp, hoe⟩ := (mem_names hl).mp he
      exact hp (hn e hoe)
  have hinode : ∀ e, s.kindOf e ≠ none → s.origin e = i → s.inode e = i := by
    intro e he hoe
    rw [← h.origin e he, hoe]
  -- what an entry of the inode needs is the inode itself
  have hback : ∀ e, s.kindOf e ≠ none → s.origin e = i → s.kindOf i ≠ none := by
    intro e he hoe
    have hi := hinode e he hoe
    unfold State.inode at hi
    cases ht : s.target e with
    | none =>
      rw [ht] at hi
      rw [← show e = i from hi]
      exact he
    | some t =>
      rw [ht] at hi
      rw [← show t = i from hi, (hl.inode e t ht).2.2]
      simp
  constructor
  · rw [h.freed, hnil]
    constructor
    · intro hf
      refine ⟨?_, ?_⟩
      · intro e hoe
        by_contra hp
        exact hback e (live_of_named hl hp) hoe hf.2
      · intro e hoe
        rw [h.opens]
        by_contra hpos
        exact hback e (refs_pos (Nat.pos_of_ne_zero hpos)) hoe hf.2
    · intro hfree
      obtain ⟨hpar, hopen⟩ := hfree
      refine ⟨hlt, ?_⟩
      by_contra hlive
      obtain hp | hr | hpos | hlat := h.retained i (by simp) hlive
      · exact hp (hpar i ho)
      · exact hroot hr
      · rw [← h.opens, hopen i ho] at hpos
        exact Nat.lt_irrefl _ hpos
      · obtain ⟨e, he⟩ := List.exists_mem_of_ne_nil _ hlat
        have ht := (hl.links i e).mp he
        obtain ⟨-, hke, -⟩ := hl.inode e i ht
        have helive : s.kindOf e ≠ none := by
          rw [hke]
          simp
        have hoe : s.origin e = i := by
          rw [h.origin e helive, State.inode, ht]
          rfl
        obtain hp | hr | hpos | hlat' := h.retained e (by simp) helive
        · exact hp (hpar e hoe)
        · rw [(hl.roots e hr).1] at hke
          cases hke
        · rw [← h.opens, hopen e hoe] at hpos
          exact Nat.lt_irrefl _ hpos
        · exact hlat' (hl.later_nil ht)
  · exact List.nodup_iff_count_le_one.mp h.freedOnce i
  · intro e he hoe
    have hi := hback e he hoe
    rw [(names_perm hl h hi ho).length_eq, ← List.countP_eq_length_filter]
    unfold State.nodeLinkCount
    rw [hinode e he hoe]
    split
    · -- neither a file nor a symlink: named, by its one directory
      rename_i hk
      simp only [ne_eq, Bool.and_eq_true, decide_eq_true_eq] at hk
      have ht : s.target e = none := by
        by_contra hne
        obtain ⟨t, ht⟩ := Option.ne_none_iff_exists'.mp hne
        exact hk.1 (hl.inode e t ht).2.1
      have hei : e = i := by
        have := hinode e he hoe
        rwa [State.inode, ht] at this
      subst hei
      have hlat : s.later e = [] := by
        rw [List.eq_nil_iff_forall_not_mem]
        intro j hj
        exact hk.1 (hl.inode j e ((hl.links e j).mp hj)).2.2
      have hp : s.par e ≠ none := by
        intro hnone
        obtain hp | hr | hpos | hlat' := h.retained e (by simp) he
        · exact hp hnone
        · exact hroot hr
        · obtain ⟨-, hf | hs⟩ := h.nameless e hnone hroot hpos
          · exact hk.1 hf
          · exact hk.2 hs
        · exact hlat' hlat
      rw [hlat, List.countP_singleton, if_pos (Option.isSome_iff_ne_none.mpr hp)]
    · rfl
  · intro e e' he he' hoe hoe'
    funext offset size
    unfold State.vfsRead
    rw [hinode e he hoe, hinode e' he' hoe']

theorem start_kept (totalSize : Nat) : Kept (State.start totalSize) := by
  have hl := start_links totalSize
  have hrefs : ∀ i, (State.start totalSize).refs i = 0 := by
    intro i
    unfold State.refs
    simp only [State.start, Table.put_apply]
    split <;> rfl
  have hkind : ∀ i, (State.start totalSize).kindOf i = if i = 0 then some .dir else none := by
    intro i
    unfold State.kindOf
    simp only [State.start, Table.put_apply]
    split <;> rfl
  have htar : ∀ i, (State.start totalSize).target i = none := by
    intro i
    unfold State.target
    simp only [State.start, Table.put_apply]
    split <;> rfl
  constructor
  · intro i _
    rw [State.inode, htar]
    rfl
  · intro i
    rw [hrefs]
    rfl
  · intro i _ hi
    rw [hkind] at hi
    by_cases h0 : i = 0
    · exact .inr (.inl (h0 ▸ List.mem_singleton_self 0))
    · rw [if_neg h0] at hi
      exact absurd rfl hi
  · intro i _ _ hpos
    rw [hrefs] at hpos
    exact absurd hpos (Nat.lt_irrefl _)
  · intro i
    rw [hkind]
    constructor
    · intro hmem
      cases hmem
    · intro hi
      have hlt : i < 1 := hi.1
      have h0 : i = 0 := by omega
      rw [if_pos h0] at hi
      cases hi.2
  · exact List.nodup_nil

/-- What is promised after a call, for every inode but the roots of mounts. -/
def InodesLive (s : State) (op : Op) : Prop :=
  ∀ i < (step s op).next, (step s op).origin i = i → i ∉ (step s op).roots → InodeLife (step s op) i

/-- Along every run that takes no name of an open directory, FIFO or socket away, every inode lives as
long as it is named or open. -/
theorem ramfs_inode_life (totalSize : Nat) (ops : List Op)
    (h : Along step KeepsSpecial (State.start totalSize) ops) :
    Along step InodesLive (State.start totalSize) ops := by
  apply h.ensures (I := fun s => Links s ∧ Kept s) _ ⟨start_links totalSize, start_kept totalSize⟩
  intro s op hs hok
  have hl := step_links hs.1 op
  have hk := hs.2.outcome hs.1 (step_outcome hs.1 op) hok
  exact ⟨⟨hl, hk⟩, fun i hlt ho hroot => inodeLife hl hk hlt ho hroot⟩

/-- A file with a second name, which loses its first name while it is open. -/
theorem ramfs_inode_life_example :
    Along step InodesLive (State.start 4096) [.create ⟨0, []⟩ ['a'] false false true,
      .link (.path 0 [['a']]) ⟨0, []⟩ ['b'] true, .openNode (.path 0 [['a']]) false,
      .unlink ⟨0, []⟩ ['a'], .close 1] := by
  apply ramfs_inode_life
  refine ⟨trivial, trivial, trivial, ?_, trivial, trivial⟩
  intro d i hd hf _ hspecial
  have hd₀ : some 0 = some d := hd
  obtain rfl := Option.some.inj hd₀
  have hi₁ : some 1 = some i := hf
  obtain rfl := Option.some.inj hi₁
  exact hspecial.2.1 rfl

/-- A socket that is open when its name is removed is never freed. -/
theorem open_socket_leaks :
    ¬ Along step InodesLive (State.start 4096) [.create ⟨0, []⟩ ['s'] false true true,
      .openNode (.path 0 [['s']]) false, .unlink ⟨0, []⟩ ['s'], .close 1] := by
  intro h
  obtain ⟨-, -, -, hlast, -⟩ := h
  have hlife := hlast 1 (by decide) (by decide) (by decide)
  have hfreed := hlife.freed.mpr ⟨by decide, ?_⟩
  · revert hfreed
    decide
  · intro e _
    match e with
    | 0 => rfl
    | 1 => rfl
    | _ + 2 => rfl

end Runs

end Lebirun.Ramfs
