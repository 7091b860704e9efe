import Mathlib
import Lebirun.Shm.State

namespace Lebirun.Shm
set_option autoImplicit true

/-- A segment with a key that can still be found. -/
def Segment.live (g : Segment) : Prop := g.inUse = true ∧ g.removed = false ∧ g.key ≠ 0

def attachedTo (l : List Attachment) (i : Nat) : Nat := l.countP (·.shmid = i)

/-- What holds of slot `i` at all times. -/
structure SlotOk (attachments : List Attachment) (i : Nat) (g : Segment) : Prop where
  counted : g.nattach = attachedTo attachments i
  free : g.inUse = false → g.pages = [] ∧ g.removed = false
  sized : g.inUse = true → g.size = PAGE_SIZE * g.pages.length ∧ g.pageCount = g.pages.length ∧ g.pages ≠ [] ∧ 0 ∉ g.pages
  removed : g.inUse = true → g.removed = true → g.key = -1

/-- What holds of the tables also where a segment is about to go. -/
structure Core (s : State) : Prop where
  slot : ∀ (i : Nat) (g : Segment), s.segs[i]? = some g → SlotOk s.attachments i g
  attached : ∀ a ∈ s.attachments, ∃ g : Segment, s.segs[a.shmid]? = some g ∧ g.inUse = true ∧ g.size = a.size
  owned : s.owned.Perm (s.segs.flatMap (·.pages))
  nodup : s.owned.Nodup
  stray : s.stray = []
  keys : ∀ (i j : Nat) (g g' : Segment), s.segs[i]? = some g → s.segs[j]? = some g' → g.live → g'.live → g.key = g'.key → i = j

/-- A removed segment is there only while it is attached; `i` is left out. -/
def SettledBut (s : State) (i : Nat) : Prop :=
  ∀ (j : Nat) (g : Segment), j ≠ i → s.segs[j]? = some g → g.inUse = true → g.removed = true → g.nattach ≠ 0

def Settled (s : State) : Prop := ∀ (j : Nat) (g : Segment), s.segs[j]? = some g → g.inUse = true → g.removed = true → g.nattach ≠ 0

structure Inv (s : State) : Prop extends Core s where
  settled : Settled s

/-- Nothing comes into use, and what stays in use keeps its pages. -/
def Onward (s s' : State) : Prop :=
  ∀ (i : Nat) (g' : Segment), s'.segs[i]? = some g' → g'.inUse = true → ∃ g : Segment, s.segs[i]? = some g ∧ g.inUse = true ∧ g.pages = g'.pages

variable {s s' : State} {g g' : Segment} {a : Attachment} {l atts : List Attachment} {i j : Nat}

/-! Lists. -/

/-- The pages of all slots when one slot changes. -/
theorem flatMap_set_perm {f : α → List β} {l : List α} {x y : α} (hi : l[i]? = some x) :
    ((l.set i y).flatMap f ++ f x).Perm (l.flatMap f ++ f y) := by
  induction l generalizing i with
  | nil => cases hi
  | cons z l ih =>
    cases i with
    | zero =>
      cases hi
      rw [List.set_cons_zero, List.flatMap_cons, List.flatMap_cons, List.append_assoc, List.append_assoc]
      have hswap : (l.flatMap f ++ f x ++ f y).Perm (f x ++ l.flatMap f ++ f y) := List.perm_append_comm.append_right (f y)
      rw [List.append_assoc (f x)] at hswap
      exact List.perm_append_comm.trans hswap
    | succ i =>
      rw [List.set_cons_succ, List.flatMap_cons, List.flatMap_cons, List.append_assoc, List.append_assoc]
      exact (ih hi).append_left (f z)

theorem getElem?_put (s : State) (hi : s.segs[i]? = some g) (g' : Segment) (j : Nat) :
    (s.put i g').segs[j]? = if j = i then some g' else s.segs[j]? := by
  have hlt : i < s.segs.length := List.getElem?_eq_some_iff.1 hi |>.1
  rw [State.put, List.getElem?_set]
  by_cases hij : j = i
  · subst hij
    rw [if_pos rfl, if_pos rfl, if_pos hlt]
  · rw [if_neg (Ne.symm hij), if_neg hij]

theorem attachedTo_erase (ha : a ∈ l) (j : Nat) :
    attachedTo (l.erase a) j = attachedTo l j - if a.shmid = j then 1 else 0 := by
  rw [attachedTo, attachedTo, List.countP_erase]
  simp only [ha, true_and, decide_eq_true_eq]

theorem attachedTo_cons (a : Attachment) (l : List Attachment) (j : Nat) :
    attachedTo (a :: l) j = attachedTo l j + if a.shmid = j then 1 else 0 := by
  rw [attachedTo, attachedTo, List.countP_cons]
  simp only [decide_eq_true_eq]

theorem attachedTo_pos (h : 0 < attachedTo l i) : ∃ a ∈ l, a.shmid = i := by
  obtain ⟨a, ha, heq⟩ := List.countP_pos_iff.1 h
  exact ⟨a, ha, of_decide_eq_true heq⟩

theorem attachedTo_mem (ha : a ∈ l) : 0 < attachedTo l a.shmid :=
  List.countP_pos_iff.2 ⟨a, ha, decide_eq_true rfl⟩

/-! One slot changes. -/

/-- A slot in use whose pages stay. -/
theorem Core.update (h : Core s) (hi : s.segs[i]? = some g) (huse : g.inUse = true)
    (hsame : g'.inUse = true ∧ g'.size = g.size ∧ g'.pages = g.pages ∧ g'.pageCount = g.pageCount)
    (hkey : g'.removed = g.removed ∧ g'.key = g.key ∨ g'.removed = true ∧ g'.key = -1)
    (hcount : ∀ j, attachedTo atts j = if j = i then g'.nattach else attachedTo s.attachments j)
    (hatt : ∀ a ∈ atts, a ∈ s.attachments ∨ a.shmid = i ∧ a.size = g.size) :
    Core ({ s with attachments := atts }.put i g') := by
  obtain ⟨huse', hsize, hpages, hcount'⟩ := hsame
  have hget := getElem?_put { s with attachments := atts } hi g'
  have hold := h.slot i g hi
  have hlive : g'.live → g.live ∧ g'.key = g.key := by
    rintro ⟨_, hremoved, hzero⟩
    rcases hkey with ⟨hr, hk⟩ | ⟨hr, _⟩
    · exact ⟨⟨huse, hr ▸ hremoved, hk ▸ hzero⟩, hk⟩
    · rw [hr] at hremoved
      cases hremoved
  constructor
  · intro j x hx
    rw [hget] at hx
    by_cases hij : j = i
    · subst hij
      rw [if_pos rfl] at hx
      cases hx
      constructor
      · rw [State.put, hcount, if_pos rfl]
      · intro hfree
        rw [huse'] at hfree
        cases hfree
      · intro _
        rw [hsize, hpages, hcount']
        exact hold.sized huse
      · intro _ hremoved
        rcases hkey with ⟨hr, hk⟩ | ⟨_, hk⟩
        · rw [hk]
          exact hold.removed huse (hr ▸ hremoved)
        · exact hk
    · rw [if_neg hij] at hx
      obtain ⟨hc, hf, hs, hr⟩ := h.slot j x hx
      refine ⟨?_, hf, hs, hr⟩
      rw [State.put, hcount, if_neg hij]
      exact hc
  · intro a ha
    rw [hget]
    by_cases hij : a.shmid = i
    · rw [if_pos hij]
      refine ⟨g', rfl, huse', ?_⟩
      rcases hatt a ha with hmem | ⟨_, hs⟩
      · obtain ⟨x, hx, _, hxs⟩ := h.attached a hmem
        rw [hij, hi] at hx
        cases hx
        exact hsize.trans hxs
      · exact hsize.trans hs.symm
    · rw [if_neg hij]
      rcases hatt a ha with hmem | ⟨hshm, _⟩
      · exact h.attached a hmem
      · exact absurd hshm hij
  · have hperm := flatMap_set_perm (f := Segment.pages) (y := g') hi
    rw [hpages] at hperm
    exact h.owned.trans ((List.perm_append_right_iff _).1 hperm).symm
  · exact h.nodup
  · exact h.stray
  · intro j k x y hx hy hxl hyl hxy
    rw [hget] at hx hy
    by_cases hj : j = i
    · rw [if_pos hj] at hx
      cases hx
      by_cases hk : k = i
      · rw [hj, hk]
      · rw [if_neg hk] at hy
        obtain ⟨hgl, hgk⟩ := hlive hxl
        exact hj.trans (h.keys i k g y hi hy hgl hyl (hgk ▸ hxy))
    · rw [if_neg hj] at hx
      by_cases hk : k = i
      · rw [if_pos hk] at hy
        cases hy
        obtain ⟨hgl, hgk⟩ := hlive hyl
        exact (h.keys j i x g hx hi hxl hgl (hgk ▸ hxy)).trans hk.symm
      · rw [if_neg hk] at hy
        exact h.keys j k x y hx hy hxl hyl hxy

/-- A slot that nothing is attached to gives its pages up. -/
theorem Core.clear (h : Core s) (hi : s.segs[i]? = some g) (hnone : attachedTo s.attachments i = 0) {owned : List Frame}
    (howned : s.owned.Perm (g.pages ++ owned)) (hg' : g'.inUse = false ∧ g'.pages = [] ∧ g'.removed = false ∧ g'.nattach = 0) :
    Core ({ s with owned := owned }.put i g') := by
  obtain ⟨hfree, hpages, hremoved, hcount⟩ := hg'
  have hget := getElem?_put { s with owned := owned } hi g'
  constructor
  · intro j x hx
    rw [hget] at hx
    by_cases hij : j = i
    · subst hij
      rw [if_pos rfl] at hx
      cases hx
      refine ⟨hcount.trans hnone.symm, fun _ => ⟨hpages, hremoved⟩, ?_, ?_⟩
      · intro huse
        rw [hfree] at huse
        cases huse
      · intro huse
        rw [hfree] at huse
        cases huse
    · rw [if_neg hij] at hx
      exact h.slot j x hx
  · intro a ha
    have hne : a.shmid ≠ i := by
      intro heq
      have hpos := attachedTo_mem (l := s.attachments) ha
      rw [heq, hnone] at hpos
      exact absurd hpos (Nat.lt_irrefl 0)
    rw [hget, if_neg hne]
    exact h.attached a ha
  · have hperm := flatMap_set_perm (f := Segment.pages) (y := g') hi
    rw [hpages, List.append_nil] at hperm
    have hall := howned.symm.trans (h.owned.trans (hperm.symm.trans List.perm_append_comm))
    exact (List.perm_append_left_iff _).1 hall
  · exact (List.nodup_append.1 (howned.nodup_iff.1 h.nodup)).2.1
  · exact h.stray
  · intro j k x y hx hy hxl hyl hxy
    rw [hget] at hx hy
    by_cases hj : j = i
    · rw [if_pos hj] at hx
      cases hx
      have huse := hxl.1
      rw [hfree] at huse
      cases huse
    · by_cases hk : k = i
      · rw [if_pos hk] at hy
        cases hy
        have huse := hyl.1
        rw [hfree] at huse
        cases huse
      · rw [if_neg hj] at hx
        rw [if_neg hk] at hy
        exact h.keys j k x y hx hy hxl hyl hxy

/-! Pages given back. -/

theorem pfaFree_list (ps rest : List Frame) (s : State) (hperm : s.owned.Perm (ps ++ rest)) :
    ∃ owned, ps.foldl State.pfaFree s = { s with owned := owned } ∧ owned.Perm rest := by
  induction ps generalizing s with
  | nil => exact ⟨s.owned, rfl, hperm⟩
  | cons p ps ih =>
    have hmem : p ∈ s.owned := hperm.mem_iff.2 List.mem_cons_self
    have herase : (s.owned.erase p).Perm (ps ++ rest) := by
      have := hperm.erase p
      rwa [List.cons_append, List.erase_cons_head] at this
    obtain ⟨owned, heq, howned⟩ := ih { s with owned := s.owned.erase p } herase
    refine ⟨owned, ?_, howned⟩
    rw [List.foldl_cons, State.pfaFree, if_pos hmem]
    exact heq

/-- `shm_free_segment` where it does something. -/
theorem shmFreeSegment_spec (h : Core s) (hi : s.segs[i]? = some g) (huse : g.inUse = true) (hnone : g.nattach = 0) :
    ∃ owned, shmFreeSegment s i = { s with owned := owned }.put i Segment.zero ∧ s.owned.Perm (g.pages ++ owned) := by
  have hok := h.slot i g hi
  obtain ⟨_, hcount, _, hzero⟩ := hok.sized huse
  have hpages : (g.pages.take g.pageCount).filter (· ≠ 0) = g.pages := by
    rw [hcount, List.take_length, List.filter_eq_self]
    intro f hf
    apply decide_eq_true
    rintro rfl
    exact hzero hf
  have hperm := flatMap_set_perm (f := Segment.pages) (y := Segment.zero) hi
  have howned : s.owned.Perm (g.pages ++ (s.segs.set i Segment.zero).flatMap (·.pages)) := by
    rw [show Segment.zero.pages = [] from rfl, List.append_nil] at hperm
    exact h.owned.trans (hperm.symm.trans List.perm_append_comm)
  obtain ⟨owned, heq, hrest⟩ := pfaFree_list g.pages _ s howned
  refine ⟨owned, ?_, howned.trans (hrest.symm.append_left g.pages)⟩
  rw [shmFreeSegment, hi]
  dsimp only
  rw [huse, hnone, hpages, heq]
  rfl

theorem Core.free (h : Core s) (hi : s.segs[i]? = some g) (huse : g.inUse = true) (hnone : g.nattach = 0)
    (hset : SettledBut s i) :
    Inv (shmFreeSegment s i) ∧ Onward s (shmFreeSegment s i) ∧ (shmFreeSegment s i).attachments = s.attachments := by
  obtain ⟨owned, heq, howned⟩ := shmFreeSegment_spec h hi huse hnone
  have hget := getElem?_put { s with owned := owned } hi Segment.zero
  rw [heq]
  refine ⟨⟨h.clear hi ((h.slot i g hi).counted ▸ hnone) howned ⟨rfl, rfl, rfl, rfl⟩, ?_⟩, ?_, rfl⟩
  · intro j x hx hux hrx
    rw [hget] at hx
    by_cases hij : j = i
    · rw [if_pos hij] at hx
      cases hx
      cases hux
    · rw [if_neg hij] at hx
      exact hset j x hij hx hux hrx
  · intro j x hx hux
    rw [hget] at hx
    by_cases hij : j = i
    · rw [if_pos hij] at hx
      cases hx
      cases hux
    · rw [if_neg hij] at hx
      exact ⟨x, hx, hux, rfl⟩

theorem Onward.refl (s : State) : Onward s s := fun _ g' hi huse => ⟨g', hi, huse, rfl⟩

theorem Onward.trans {s₁ s₂ s₃ : State} (h : Onward s₁ s₂) (h' : Onward s₂ s₃) : Onward s₁ s₃ := by
  intro i g hi huse
  obtain ⟨g', hi', huse', hpages⟩ := h' i g hi huse
  obtain ⟨g'', hi'', huse'', hpages'⟩ := h i g' hi' huse'
  exact ⟨g'', hi'', huse'', hpages'.trans hpages⟩

/-- A slot whose use and pages stay. -/
theorem Onward.put (hi : s.segs[i]? = some g) (huse : g.inUse = true) (hpages : g'.pages = g.pages) (atts : List Attachment) :
    Onward s ({ s with attachments := atts }.put i g') := by
  intro j x hx hux
  rw [getElem?_put { s with attachments := atts } hi] at hx
  by_cases hij : j = i
  · rw [if_pos hij] at hx
    cases hx
    exact ⟨g, hij ▸ hi, huse, hpages.symm⟩
  · rw [if_neg hij] at hx
    exact ⟨x, hx, hux, rfl⟩

/-! The operations that take attachments away. -/

theorem Inv.drop (h : Inv s) (ha : a ∈ s.attachments) :
    Inv (shmDropAttachment s a) ∧ Onward s (shmDropAttachment s a) ∧
      (shmDropAttachment s a).attachments = s.attachments.erase a := by
  obtain ⟨g, hi, huse, hsize⟩ := h.attached a ha
  have hpos : 0 < g.nattach := (h.slot a.shmid g hi).counted ▸ attachedTo_mem ha
  have hcore : Core ({ s with attachments := s.attachments.erase a }.put a.shmid { g with nattach := g.nattach - 1 }) := by
    apply h.update hi huse
    · exact ⟨huse, rfl, rfl, rfl⟩
    · exact Or.inl ⟨rfl, rfl⟩
    · intro j
      rw [attachedTo_erase ha]
      by_cases hij : j = a.shmid
      · rw [if_pos hij, if_pos hij.symm, hij, (h.slot a.shmid g hi).counted]
      · rw [if_neg hij, if_neg (Ne.symm hij), Nat.sub_zero]
    · intro b hb
      exact Or.inl (List.mem_of_mem_erase hb)
  have honward : Onward s ({ s with attachments := s.attachments.erase a }.put a.shmid { g with nattach := g.nattach - 1 }) := by
    apply Onward.put hi huse
    rfl
  have hget := getElem?_put { s with attachments := s.attachments.erase a } hi { g with nattach := g.nattach - 1 }
  have hothers : SettledBut ({ s with attachments := s.attachments.erase a }.put a.shmid { g with nattach := g.nattach - 1 })
      a.shmid := by
    intro j x hj hx hux hrx
    rw [hget, if_neg hj] at hx
    exact h.settled j x hx hux hrx
  rw [shmDropAttachment, hi]
  dsimp only
  split
  · rename_i hgone
    obtain ⟨hinv, hon, hatt⟩ := hcore.free ((hget a.shmid).trans (if_pos rfl)) huse hgone.2 hothers
    exact ⟨hinv, honward.trans hon, hatt⟩
  · rename_i hstay
    refine ⟨⟨hcore, ?_⟩, honward, rfl⟩
    intro j x hx hux hrx
    by_cases hij : j = a.shmid
    · rw [hget, if_pos hij] at hx
      cases hx
      exact fun hzero => hstay ⟨hrx, hzero⟩
    · exact hothers j x hij hx hux hrx

theorem Inv.dropLoop {p : Attachment → Bool} (l : List Attachment) (h : Inv s) (hl : l.Subperm s.attachments) :
    Inv (dropLoop p l s) ∧ Onward s (dropLoop p l s) ∧
      ∀ a ∈ (dropLoop p l s).attachments, a ∈ s.attachments := by
  induction l generalizing s with
  | nil => exact ⟨h, Onward.refl s, fun a ha => ha⟩
  | cons a l ih =>
    rw [Shm.dropLoop]
    have ha : a ∈ s.attachments := hl.subset List.mem_cons_self
    split
    · obtain ⟨hinv, hon, hatt⟩ := h.drop ha
      have hsub : l.Subperm (shmDropAttachment s a).attachments := by
        have := hl.erase a
        rwa [List.erase_cons_head, ← hatt] at this
      obtain ⟨hinv', hon', hmem⟩ := ih hinv hsub
      refine ⟨hinv', hon.trans hon', ?_⟩
      intro b hb
      have := hmem b hb
      rw [hatt] at this
      exact List.mem_of_mem_erase this
    · exact ih h ((List.sublist_cons_self a l).subperm.trans hl)

theorem Inv.reclaim (h : Inv s) :
    Inv (shmReclaimStorage s) ∧ Onward s (shmReclaimStorage s) ∧
      (shmReclaimStorage s).attachments = s.attachments := by
  rw [shmReclaimStorage]
  split
  · exact ⟨h, Onward.refl s, rfl⟩
  · rename_i hnone
    have hfree : ∀ (i : Nat) (g : Segment), s.segs[i]? = some g → g.inUse = false := by
      intro i g hi
      rw [List.any_eq_true] at hnone
      apply Bool.eq_false_iff.2
      intro huse
      exact hnone ⟨g, List.mem_of_getElem? hi, huse⟩
    have hempty : s.attachments = [] := by
      apply List.eq_nil_iff_forall_not_mem.2
      intro a ha
      obtain ⟨g, hi, huse, _⟩ := h.attached a ha
      rw [hfree _ g hi] at huse
      cases huse
    have hpages : s.segs.flatMap (·.pages) = [] := by
      apply List.flatMap_eq_nil_iff.2
      intro g hg
      obtain ⟨i, hi⟩ := List.mem_iff_getElem?.1 hg
      exact ((h.slot i g hi).free (hfree i g hi)).1
    refine ⟨⟨⟨?_, ?_, ?_, h.nodup, h.stray, ?_⟩, ?_⟩, ?_, rfl⟩
    · intro i g hi
      cases hi
    · intro a ha
      rw [hempty] at ha
      cases ha
    · have howned := h.owned
      rw [hpages] at howned
      exact howned
    · intro i j g g' hi
      cases hi
    · intro i g hi
      cases hi
    · intro i g hi
      cases hi

end Lebirun.Shm
