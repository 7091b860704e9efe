import Mathlib
import Lebirun.Lib.Run
import Lebirun.Shm.Invariant

namespace Lebirun.Shm
open Machine
set_option autoImplicit true

/-- A call under `shm_lock`. What `sys_shm_unlink` does after its search is a call of `sys_shmctl`. -/
inductive Call where
  | shmget (caller : Option Caller) (key : Int) (size : Nat) (flags : UInt32) (outcome : GetOutcome)
  | shmat (caller : Option Caller) (shmid : Int) (requested : Nat) (flags : UInt32) (outcome : AtOutcome)
  | shmdt (caller : Option Caller) (shmaddr : Nat)
  | shmctl (caller : Option Caller) (shmid cmd : Int)
  | pruneTask (vm : Nat) (areas : List Area)
  | closeVm (vm : Nat)
  | forkVm (parent child : Nat) (kmalloc : Nat → Bool)

def step (s : State) : Call → State
  | .shmget caller key size flags outcome => (sysShmget s caller key size flags outcome).1
  | .shmat caller shmid requested flags outcome => (shmatLocked s caller shmid requested flags outcome).1
  | .shmdt caller shmaddr => (shmdtLocked s caller shmaddr).1
  | .shmctl caller shmid cmd => (sysShmctl s caller shmid cmd).1
  | .pruneTask vm areas => shmPruneTask s vm areas
  | .closeVm vm => shmCloseVm s vm
  | .forkVm parent child kmalloc => (shmForkVm s parent child kmalloc).1

/-- `pfa_alloc` hands out pages that nobody holds. -/
def Fresh (s : State) : Call → Prop
  | .shmget _ _ _ _ outcome =>
    ∀ i, outcome.frames i ≠ 0 → outcome.frames i ∉ s.owned ∧ ∀ j < i, outcome.frames j ≠ outcome.frames i
  | _ => True

/-- A segment that something is attached to after a call keeps its pages over the call. -/
def Kept (s s' : State) : Prop :=
  ∀ (i : Nat) (g : Segment), s.segs[i]? = some g → g.inUse = true → (∃ a ∈ s'.attachments, a.shmid = i) →
    ∃ g' : Segment, s'.segs[i]? = some g' ∧ g'.inUse = true ∧ g'.pages = g.pages

variable {s s' : State} {g g' : Segment} {a : Attachment} {l atts : List Attachment} {i j : Nat}

theorem Onward.kept (h : Onward s s') (hinv : Inv s') : Kept s s' := by
  intro i g hi _ hatt
  obtain ⟨a, ha, rfl⟩ := hatt
  obtain ⟨g', hi', huse', _⟩ := hinv.attached a ha
  obtain ⟨x, hx, _, hpages⟩ := h a.shmid g' hi' huse'
  rw [hi] at hx
  cases hx
  exact ⟨g', hi', huse', hpages.symm⟩

/-! A new segment. -/

/-- The pages taken so far are the first outcomes. -/
theorem allocLoop_spec (frames : Nat → Frame) (k : Nat) :
    ∀ (s : State) (base : List Frame) (n : Nat), s.owned.Perm ((List.range n).map frames ++ base) →
      ∃ owned, ((allocLoop frames k s ((List.range n).map frames)) = ({ s with owned := owned }, none) ∧ owned.Perm base) ∨
        ((allocLoop frames k s ((List.range n).map frames)) =
          ({ s with owned := owned }, some ((List.range (n + k)).map frames)) ∧
          (∀ i, n ≤ i → i < n + k → frames i ≠ 0) ∧ owned.Perm ((List.range (n + k)).map frames ++ base)) := by
  induction k with
  | zero =>
    intro s base n hperm
    exact ⟨s.owned, Or.inr ⟨rfl, fun i hle hlt => absurd hlt (Nat.not_lt.2 hle), hperm⟩⟩
  | succ k ih =>
    intro s base n hperm
    rw [allocLoop, List.length_map, List.length_range]
    split
    · obtain ⟨owned, heq, howned⟩ := pfaFree_list ((List.range n).map frames).reverse base s
        (hperm.trans ((List.reverse_perm _).symm.append_right base))
      exact ⟨owned, Or.inl ⟨by rw [heq], howned⟩⟩
    · rename_i hne
      have hnext : (s.pfaAlloc (frames n)).owned.Perm ((List.range (n + 1)).map frames ++ base) := by
        rw [List.range_succ, List.map_append, List.map_singleton, List.append_assoc]
        exact (hperm.cons (frames n)).trans List.perm_middle.symm
      have hrow : (List.range n).map frames ++ [frames n] = (List.range (n + 1)).map frames := by
        rw [List.range_succ, List.map_append, List.map_singleton]
      have hsum : n + 1 + k = n + (k + 1) := by omega
      obtain ⟨owned, ⟨heq, howned⟩ | ⟨heq, hall, howned⟩⟩ := ih (s.pfaAlloc (frames n)) base (n + 1) hnext
      · rw [hrow]
        exact ⟨owned, Or.inl ⟨heq, howned⟩⟩
      · rw [hrow]
        rw [hsum] at heq hall howned
        refine ⟨owned, Or.inr ⟨heq, ?_, howned⟩⟩
        intro i hle hlt
        by_cases hi : i = n
        · rw [hi]
          exact hne
        · exact hall i (by omega) hlt

/-- A cleared slot. -/
def Segment.cleared (g : Segment) : Prop := g.inUse = false ∧ g.pages = [] ∧ g.removed = false ∧ g.nattach = 0

theorem Inv.unattached (h : Inv s) (hi : s.segs[i]? = some g) (hfree : g.inUse = false) : attachedTo s.attachments i = 0 := by
  by_contra hne
  obtain ⟨a, ha, rfl⟩ := attachedTo_pos (Nat.pos_of_ne_zero hne)
  obtain ⟨x, hx, huse, _⟩ := h.attached a ha
  rw [hi] at hx
  cases hx
  rw [hfree] at huse
  cases huse

theorem Inv.putCleared (h : Inv s) (hi : s.segs[i]? = some g) (hfree : g.inUse = false) (hg' : g'.cleared) :
    Inv (s.put i g') := by
  have hpages := ((h.slot i g hi).free hfree).1
  refine ⟨h.clear hi (h.unattached hi hfree) (by rw [hpages, List.nil_append]) hg', ?_⟩
  intro j x hx huse hremoved
  rw [getElem?_put s hi] at hx
  by_cases hij : j = i
  · rw [if_pos hij] at hx
    cases hx
    rw [hg'.1] at huse
    cases huse
  · rw [if_neg hij] at hx
    exact h.settled j x hx huse hremoved

/-- A slot comes into use with new pages, under a key that no other segment has. -/
theorem Inv.putNew (h : Inv s) (hi : s.segs[i]? = some g) (hfree : g.inUse = false) {pages owned : List Frame}
    (howned : owned.Perm (pages ++ s.owned)) (hnodup : owned.Nodup) (hnew : g'.inUse = true ∧ g'.removed = false ∧ g'.nattach = 0)
    (hsized : g'.size = PAGE_SIZE * g'.pages.length ∧ g'.pageCount = g'.pages.length ∧ g'.pages ≠ [] ∧ 0 ∉ g'.pages)
    (hpages : g'.pages = pages) (hkeys : ∀ (j : Nat) (x : Segment), s.segs[j]? = some x → x.live → g'.key ≠ 0 → x.key ≠ g'.key) :
    Inv ({ s with owned := owned }.put i g') := by
  obtain ⟨huse', hremoved', hcount'⟩ := hnew
  have hget := getElem?_put { s with owned := owned } hi g'
  have hnone := h.unattached hi hfree
  have hold := ((h.slot i g hi).free hfree).1
  refine ⟨⟨?_, ?_, ?_, hnodup, h.stray, ?_⟩, ?_⟩
  · intro j x hx
    rw [hget] at hx
    by_cases hij : j = i
    · rw [if_pos hij] at hx
      cases hx
      refine ⟨?_, ?_, fun _ => hsized, ?_⟩
      · rw [hij]
        exact hcount'.trans hnone.symm
      · intro hf
        rw [huse'] at hf
        cases hf
      · intro _ hr
        rw [hremoved'] at hr
        cases hr
    · rw [if_neg hij] at hx
      exact h.slot j x hx
  · intro a ha
    obtain ⟨x, hx, huse, hsize⟩ := h.attached a ha
    have hne : a.shmid ≠ i := by
      intro heq
      rw [heq, hi] at hx
      cases hx
      rw [hfree] at huse
      cases huse
    rw [hget, if_neg hne]
    exact ⟨x, hx, huse, hsize⟩
  · have hperm := flatMap_set_perm (f := Segment.pages) (y := g') hi
    rw [hold, List.append_nil, hpages] at hperm
    exact howned.trans ((h.owned.append_left pages).trans (List.perm_append_comm.trans hperm.symm))
  · intro j k x y hx hy hxl hyl hxy
    rw [hget] at hx hy
    by_cases hj : j = i
    · by_cases hk : k = i
      · rw [hj, hk]
      · rw [if_pos hj] at hx
        rw [if_neg hk] at hy
        cases hx
        exact absurd hxy.symm (hkeys k y hy hyl hxl.2.2)
    · rw [if_neg hj] at hx
      by_cases hk : k = i
      · rw [if_pos hk] at hy
        cases hy
        exact absurd hxy (hkeys j x hx hxl hyl.2.2)
      · rw [if_neg hk] at hy
        exact h.keys j k x y hx hy hxl hyl hxy
  · intro j x hx huse hr
    rw [hget] at hx
    by_cases hij : j = i
    · rw [if_pos hij] at hx
      cases hx
      rw [hremoved'] at hr
      cases hr
    · rw [if_neg hij] at hx
      exact h.settled j x hx huse hr

/-- Nothing but slot `i`, which was not in use, is another after the call. -/
structure Apart (s s' : State) (i : Nat) : Prop where
  attachments : s'.attachments = s.attachments
  others : ∀ (j : Nat) (g : Segment), j ≠ i → s.segs[j]? = some g → s'.segs[j]? = some g

theorem Inv.makeSegment (h : Inv s) (hi : s.segs[i]? = some g) (hfree : g.inUse = false) {key : Int}
    {outcome : GetOutcome} (hfresh : ∀ i, outcome.frames i ≠ 0 → outcome.frames i ∉ s.owned ∧ ∀ j < i, outcome.frames j ≠ outcome.frames i)
    (hkeys : ∀ (j : Nat) (x : Segment), s.segs[j]? = some x → x.live → key ≠ 0 → x.key ≠ key)
    (caller : Option Caller) (size : Nat) (flags : UInt32) :
    Inv (makeSegment s caller key size flags outcome i).1 ∧ Apart s (makeSegment s caller key size flags outcome i).1 i := by
  have hput : ∀ x : Segment, Apart s (s.put i x) i := by
    intro x
    refine ⟨rfl, ?_⟩
    intro j y hj hy
    rw [getElem?_put s hi, if_neg hj]
    exact hy
  have hcounted : (Segment.counted (pageSize size / PAGE_SIZE)).cleared := ⟨rfl, rfl, rfl, rfl⟩
  have hclear := h.putCleared hi hfree hcounted
  rw [Shm.makeSegment]
  dsimp only
  split
  · exact ⟨h, ⟨rfl, fun j x _ hx => hx⟩⟩
  · rename_i hsize
    split
    · obtain ⟨owned, ⟨heq, howned⟩ | ⟨heq, hall, howned⟩⟩ := allocLoop_spec outcome.frames
        (pageSize size / PAGE_SIZE) (s.put i (Segment.counted (pageSize size / PAGE_SIZE))) s.owned 0 (List.Perm.refl _)
      · -- The pages taken are given back.
        have heq' := heq
        rw [show (List.range 0).map outcome.frames = [] from rfl] at heq'
        rw [heq']
        have hzero : (Segment.zero).cleared := ⟨rfl, rfl, rfl, rfl⟩
        have hinv : Inv ({ s with owned := owned }.put i Segment.zero) := by
          have hpages := ((h.slot i g hi).free hfree).1
          refine ⟨h.clear hi (h.unattached hi hfree) ?_ hzero, (h.putCleared hi hfree hzero).settled⟩
          rw [hpages, List.nil_append]
          exact howned.symm
        have hsame : ({ (s.put i (Segment.counted (pageSize size / PAGE_SIZE))) with owned := owned }).put i Segment.zero =
            { s with owned := owned }.put i Segment.zero := by
          simp only [State.put, List.set_set]
        dsimp only
        rw [hsame]
        refine ⟨hinv, ⟨rfl, ?_⟩⟩
        intro j y hj hy
        rw [getElem?_put { s with owned := owned } hi, if_neg hj]
        exact hy
      · have heq' := heq
        rw [show (List.range 0).map outcome.frames = [] from rfl] at heq'
        rw [heq']
        rw [Nat.zero_add] at hall howned
        have hsame : ∀ x : Segment, ({ (s.put i (Segment.counted (pageSize size / PAGE_SIZE))) with owned := owned }).put i x =
            { s with owned := owned }.put i x := by
          intro x
          simp only [State.put, List.set_set]
        dsimp only
        rw [hsame, Nat.zero_add]
        refine ⟨?_, ⟨rfl, ?_⟩⟩
        · have hcount : 0 < pageSize size / PAGE_SIZE := by
            rw [pageSize, Nat.mul_div_cancel _ (by decide : 0 < PAGE_SIZE)]
            apply Nat.pos_of_ne_zero
            intro hzero
            exact hsize (by rw [pageSize, hzero, Nat.zero_mul])
          apply h.putNew hi hfree howned
          · apply howned.nodup_iff.2
            rw [List.nodup_append]
            refine ⟨?_, h.nodup, ?_⟩
            · apply List.Nodup.map_on _ List.nodup_range
              intro j hj k hk hjk
              have hjne := hall j (Nat.zero_le j) (List.mem_range.1 hj)
              have hkne := hall k (Nat.zero_le k) (List.mem_range.1 hk)
              rcases Nat.lt_trichotomy j k with hlt | heq | hgt
              · exact absurd hjk ((hfresh k hkne).2 j hlt)
              · exact heq
              · exact absurd hjk.symm ((hfresh j hjne).2 k hgt)
            · intro f hf f' hf' hff
              obtain ⟨j, hj, rfl⟩ := List.mem_map.1 hf
              have hne := hall j (Nat.zero_le j) (List.mem_range.1 hj)
              exact (hfresh j hne).1 (hff ▸ hf')
          · exact ⟨rfl, rfl, rfl⟩
          · have hlen : (newSegment caller key (pageSize size) flags
                ((List.range (pageSize size / PAGE_SIZE)).map outcome.frames)).pages.length = pageSize size / PAGE_SIZE := by
              rw [newSegment, List.length_map, List.length_range]
            refine ⟨?_, hlen.symm, ?_, ?_⟩
            · rw [hlen]
              show pageSize size = _
              rw [pageSize, Nat.mul_div_cancel _ (by decide : 0 < PAGE_SIZE), Nat.mul_comm]
            · rw [← List.length_pos_iff, hlen]
              exact hcount
            · intro hzero
              obtain ⟨j, hj, hj0⟩ := List.mem_map.1 hzero
              exact hall j (Nat.zero_le j) (List.mem_range.1 hj) hj0
          · rfl
          · exact hkeys
        · intro j y hj hy
          rw [getElem?_put { s with owned := owned } hi, if_neg hj]
          exact hy
    · exact ⟨hclear, hput _⟩

/-- Slots added at the end are not in use. -/
theorem Inv.grow (h : Inv s) {krealloc : Bool} (hgrow : shmGrow s krealloc = some s') :
    Inv s' ∧ s'.attachments = s.attachments ∧ s'.owned = s.owned ∧
      (∀ (j : Nat) (x : Segment), s.segs[j]? = some x → s'.segs[j]? = some x) ∧
      (∀ (j : Nat) (x : Segment), s'.segs[j]? = some x → s.segs[j]? = some x ∨ x = Segment.zero ∧ s.segs.length ≤ j) ∧
      s'.segs[s.segs.length]? = some Segment.zero := by
  obtain ⟨k, hk, hs'⟩ : ∃ k, 0 < k ∧ s' = { s with segs := s.segs ++ List.replicate k Segment.zero } := by
    rw [shmGrow] at hgrow
    split at hgrow
    · rename_i hzero
      split at hgrow
      · refine ⟨1, Nat.one_pos, ?_⟩
        rw [← Option.some.inj hgrow, List.length_eq_zero_iff.1 hzero]
        rfl
      · cases hgrow
    · rename_i hpos
      split at hgrow
      · cases hgrow
      · split at hgrow
        · exact ⟨s.segs.length, Nat.pos_of_ne_zero hpos, (Option.some.inj hgrow).symm⟩
        · cases hgrow
  subst hs'
  have hold : ∀ (j : Nat) (x : Segment), s.segs[j]? = some x → (s.segs ++ List.replicate k Segment.zero)[j]? = some x := by
    intro j x hx
    rw [List.getElem?_append_left (List.getElem?_eq_some_iff.1 hx).1]
    exact hx
  have hnew : ∀ (j : Nat) (x : Segment), (s.segs ++ List.replicate k Segment.zero)[j]? = some x →
      s.segs[j]? = some x ∨ x = Segment.zero ∧ s.segs.length ≤ j := by
    intro j x hx
    by_cases hj : j < s.segs.length
    · rw [List.getElem?_append_left hj] at hx
      exact Or.inl hx
    · rw [List.getElem?_append_right (Nat.le_of_not_lt hj)] at hx
      exact Or.inr ⟨(List.mem_replicate.1 (List.mem_of_getElem? hx)).2, Nat.le_of_not_lt hj⟩
  have hpages : (List.replicate k Segment.zero).flatMap (·.pages) = [] := by
    apply List.flatMap_eq_nil_iff.2
    intro x hx
    rw [(List.mem_replicate.1 hx).2]
    rfl
  refine ⟨⟨⟨?_, ?_, ?_, h.nodup, h.stray, ?_⟩, ?_⟩, rfl, rfl, hold, hnew, ?_⟩
  · intro j x hx
    rcases hnew j x hx with hx | ⟨rfl, hle⟩
    · exact h.slot j x hx
    · refine ⟨?_, fun _ => ⟨rfl, rfl⟩, ?_, ?_⟩
      · apply Eq.symm
        by_contra hne
        obtain ⟨a, ha, rfl⟩ := attachedTo_pos (Nat.pos_of_ne_zero hne)
        obtain ⟨x, hx, _⟩ := h.attached a ha
        exact absurd (List.getElem?_eq_some_iff.1 hx).1 (Nat.not_lt.2 hle)
      · intro huse
        cases huse
      · intro huse
        cases huse
  · intro a ha
    obtain ⟨x, hx, hrest⟩ := h.attached a ha
    exact ⟨x, hold _ _ hx, hrest⟩
  · show s.owned.Perm ((s.segs ++ List.replicate k Segment.zero).flatMap (·.pages))
    rw [List.flatMap_append, hpages, List.append_nil]
    exact h.owned
  · intro i j x y hx hy hxl hyl hxy
    rcases hnew i x hx with hx | ⟨rfl, _⟩
    · rcases hnew j y hy with hy | ⟨rfl, _⟩
      · exact h.keys i j x y hx hy hxl hyl hxy
      · cases hyl.1
    · cases hxl.1
  · intro j x hx huse hr
    rcases hnew j x hx with hx | ⟨rfl, _⟩
    · exact h.settled j x hx huse hr
    · cases huse
  · show (s.segs ++ List.replicate k Segment.zero)[s.segs.length]? = some Segment.zero
    rw [List.getElem?_append_right le_rfl, Nat.sub_self, List.getElem?_replicate, if_pos hk]

theorem Kept.refl (s : State) : Kept s s := fun _ g hi huse _ => ⟨g, hi, huse, rfl⟩

theorem Apart.kept (h : Apart s s' i) (hi : s.segs[i]? = some g) (hfree : g.inUse = false) : Kept s s' := by
  intro j x hx huse _
  have hj : j ≠ i := by
    rintro rfl
    rw [hi] at hx
    cases hx
    rw [hfree] at huse
    cases huse
  exact ⟨x, h.others j x hj hx, huse, rfl⟩

/-! The calls. -/

theorem Inv.shmget (h : Inv s) (caller : Option Caller) (key : Int) (size : Nat) (flags : UInt32) (outcome : GetOutcome)
    (hfresh : Fresh s (.shmget caller key size flags outcome)) :
    Inv (sysShmget s caller key size flags outcome).1 ∧ Kept s (sysShmget s caller key size flags outcome).1 := by
  rw [sysShmget]
  split
  · split_ifs
    · exact ⟨h, Kept.refl s⟩
    · exact ⟨h, Kept.refl s⟩
    · exact ⟨h, Kept.refl s⟩
  · rename_i hfind
    have hkeys : ∀ (j : Nat) (x : Segment), s.segs[j]? = some x → x.live → key ≠ 0 → x.key ≠ key := by
      intro j x hx hxl hkey heq
      rw [if_neg hkey, List.findIdx?_eq_none_iff] at hfind
      have := hfind x (List.mem_of_getElem? hx)
      rw [hxl.1, hxl.2.1, heq, decide_eq_true rfl] at this
      cases this
    split
    · exact ⟨h, Kept.refl s⟩
    · split
      · rename_i slot hslot
        obtain ⟨hlt, hfree, _⟩ := List.findIdx?_eq_some_iff_getElem.1 hslot
        have hi := List.getElem?_eq_getElem hlt
        have hunused : (s.segs[slot]).inUse = false := Bool.not_eq_true' _ ▸ hfree
        obtain ⟨hinv, hapart⟩ := h.makeSegment hi hunused hfresh hkeys caller size flags
        exact ⟨hinv, hapart.kept hi hunused⟩
      · split
        · exact ⟨h, Kept.refl s⟩
        · rename_i grown hgrow
          obtain ⟨hinv, hatt, howned, hold, hnew, hi⟩ := h.grow hgrow
          have hkeys' : ∀ (j : Nat) (x : Segment), grown.segs[j]? = some x → x.live → key ≠ 0 → x.key ≠ key := by
            intro j x hx hxl hkey
            rcases hnew j x hx with hx | ⟨rfl, _⟩
            · exact hkeys j x hx hxl hkey
            · cases hxl.1
          have hfresh' : ∀ i, outcome.frames i ≠ 0 →
              outcome.frames i ∉ grown.owned ∧ ∀ j < i, outcome.frames j ≠ outcome.frames i := by
            rw [howned]
            exact hfresh
          obtain ⟨hinv', hapart⟩ := hinv.makeSegment hi rfl hfresh' hkeys' caller size flags
          refine ⟨hinv', ?_⟩
          intro j x hx huse _
          have hlt := (List.getElem?_eq_some_iff.1 hx).1
          exact ⟨x, hapart.others j x (Nat.ne_of_lt hlt) (hold j x hx), huse, rfl⟩

theorem at_spec (h : s.at shmid = some (i, g)) : s.segs[i]? = some g ∧ g.inUse = true := by
  rw [State.at] at h
  split at h
  · cases h
  · split at h
    · cases h
    · rename_i hi
      split at h
      · rename_i huse
        cases h
        exact ⟨hi, huse⟩
      · cases h

/-- One more attachment to a segment. -/
theorem Inv.attach (h : Inv s) (hi : s.segs[i]? = some g) (huse : g.inUse = true) (ha : a.shmid = i ∧ a.size = g.size) :
    Inv ({ s with attachments := a :: s.attachments }.put i { g with nattach := g.nattach + 1 }) ∧
      Onward s ({ s with attachments := a :: s.attachments }.put i { g with nattach := g.nattach + 1 }) := by
  have hget := getElem?_put { s with attachments := a :: s.attachments } hi { g with nattach := g.nattach + 1 }
  refine ⟨⟨?_, ?_⟩, ?_⟩
  · apply h.update hi huse
    · exact ⟨huse, rfl, rfl, rfl⟩
    · exact Or.inl ⟨rfl, rfl⟩
    · intro j
      rw [attachedTo_cons, ha.1]
      by_cases hij : j = i
      · rw [if_pos hij, if_pos hij.symm, hij, (h.slot i g hi).counted]
      · rw [if_neg hij, if_neg (Ne.symm hij), Nat.add_zero]
    · intro b hb
      rcases List.mem_cons.1 hb with rfl | hb
      · exact Or.inr ha
      · exact Or.inl hb
  · intro j x hx hux hrx
    rw [hget] at hx
    by_cases hij : j = i
    · rw [if_pos hij] at hx
      cases hx
      exact Nat.succ_ne_zero _
    · rw [if_neg hij] at hx
      exact h.settled j x hx hux hrx
  · apply Onward.put hi huse
    rfl

theorem Inv.shmat (h : Inv s) (caller : Option Caller) (shmid : Int) (requested : Nat) (flags : UInt32)
    (outcome : AtOutcome) :
    Inv (shmatLocked s caller shmid requested flags outcome).1 ∧
      Onward s (shmatLocked s caller shmid requested flags outcome).1 := by
  have hsame : Inv s ∧ Onward s s := ⟨h, Onward.refl s⟩
  cases caller with
  | none => exact hsame
  | some caller =>
    rw [shmatLocked]
    split
    · exact hsame
    split
    · exact hsame
    split
    · exact hsame
    · rename_i i g hat
      obtain ⟨hi, huse⟩ := at_spec hat
      dsimp only
      split_ifs
      · exact hsame
      · exact hsame
      · exact hsame
      · exact hsame
      · exact h.attach hi huse ⟨rfl, rfl⟩

theorem Inv.shmdt (h : Inv s) (caller : Option Caller) (shmaddr : Nat) :
    Inv (shmdtLocked s caller shmaddr).1 ∧ Onward s (shmdtLocked s caller shmaddr).1 := by
  cases caller with
  | none => exact ⟨h, Onward.refl s⟩
  | some caller =>
    rw [shmdtLocked]
    split
    · exact ⟨h, Onward.refl s⟩
    · rename_i a ha
      obtain ⟨hinv, hon, _⟩ := h.drop (List.mem_of_find?_eq_some ha)
      obtain ⟨hinv', hon', _⟩ := hinv.reclaim
      exact ⟨hinv', hon.trans hon'⟩

theorem Inv.dropAll (h : Inv s) (p : Attachment → Bool) :
    Inv (shmReclaimStorage (Shm.dropLoop p s.attachments s)) ∧
      Onward s (shmReclaimStorage (Shm.dropLoop p s.attachments s)) := by
  obtain ⟨hinv, hon, _⟩ := h.dropLoop (p := p) s.attachments (List.Subperm.refl _)
  obtain ⟨hinv', hon', _⟩ := hinv.reclaim
  exact ⟨hinv', hon.trans hon'⟩

theorem Inv.shmctl (h : Inv s) (caller : Option Caller) (shmid cmd : Int) :
    Inv (sysShmctl s caller shmid cmd).1 ∧ Onward s (sysShmctl s caller shmid cmd).1 := by
  have hsame : Inv s ∧ Onward s s := ⟨h, Onward.refl s⟩
  rw [sysShmctl]
  split
  · exact hsame
  · rename_i i g hat
    obtain ⟨hi, huse⟩ := at_spec hat
    split
    · exact hsame
    · have hget := getElem?_put s hi { g with removed := true, key := -1 }
      have hcore : Core (s.put i { g with removed := true, key := -1 }) := by
        apply h.update hi huse
        · exact ⟨huse, rfl, rfl, rfl⟩
        · exact Or.inr ⟨rfl, rfl⟩
        · intro j
          by_cases hij : j = i
          · rw [if_pos hij, hij, (h.slot i g hi).counted]
          · rw [if_neg hij]
        · intro a ha
          exact Or.inl ha
      have hon : Onward s (s.put i { g with removed := true, key := -1 }) := by
        apply Onward.put hi huse
        rfl
      have hothers : SettledBut (s.put i { g with removed := true, key := -1 }) i := by
        intro j x hj hx hux hrx
        rw [hget, if_neg hj] at hx
        exact h.settled j x hx hux hrx
      dsimp only
      split_ifs
      · exact hsame
      · exact hsame
      · rename_i hzero
        obtain ⟨hinv, hon', _⟩ := hcore.free ((hget i).trans (if_pos rfl)) huse hzero hothers
        obtain ⟨hinv', hon'', _⟩ := hinv.reclaim
        exact ⟨hinv', hon.trans (hon'.trans hon'')⟩
      · rename_i hne
        have hinv : Inv (s.put i { g with removed := true, key := -1 }) := by
          refine ⟨hcore, ?_⟩
          intro j x hx hux hrx
          by_cases hij : j = i
          · rw [hget, if_pos hij] at hx
            cases hx
            exact hne
          · exact hothers j x hij hx hux hrx
        obtain ⟨hinv', hon', _⟩ := hinv.reclaim
        exact ⟨hinv', hon.trans hon'⟩

/-- The copies of `shm_fork_vm` are attachments like those of the parent. -/
theorem forkLoop_mem {parent child : Nat} {kmalloc : Nat → Bool} :
    ∀ (l copies result : List Attachment), forkLoop parent child kmalloc l copies = some result →
      ∀ c ∈ result, c ∈ copies ∨ ∃ a ∈ l, c.shmid = a.shmid ∧ c.size = a.size := by
  intro l
  induction l with
  | nil =>
    intro copies result h c hc
    rw [← Option.some.inj h] at hc
    exact Or.inl hc
  | cons a l ih =>
    intro copies result h c hc
    rw [forkLoop] at h
    split_ifs at h
    · rcases ih _ _ h c hc with hmem | ⟨b, hb, heq⟩
      · rcases List.mem_cons.1 hmem with rfl | hmem
        · exact Or.inr ⟨a, List.mem_cons_self, rfl, rfl⟩
        · exact Or.inl hmem
      · exact Or.inr ⟨b, List.mem_cons_of_mem _ hb, heq⟩
    · rcases ih _ _ h c hc with hmem | ⟨b, hb, heq⟩
      · exact Or.inl hmem
      · exact Or.inr ⟨b, List.mem_cons_of_mem _ hb, heq⟩

theorem Core.perm (h : Core s) (hperm : s.attachments.Perm atts) : Core { s with attachments := atts } := by
  refine ⟨?_, ?_, h.owned, h.nodup, h.stray, h.keys⟩
  · intro i g hi
    obtain ⟨hcount, hfree, hsized, hremoved⟩ := h.slot i g hi
    refine ⟨?_, hfree, hsized, hremoved⟩
    rw [hcount]
    exact hperm.countP_eq _
  · intro a ha
    exact h.attached a (hperm.mem_iff.2 ha)

theorem Inv.copies (copies : List Attachment) :
    ∀ s : State, Inv s → (∀ c ∈ copies, ∃ g : Segment, s.segs[c.shmid]? = some g ∧ g.inUse = true ∧ c.size = g.size) →
      Inv { s with segs := countCopies copies s.segs, attachments := copies ++ s.attachments } ∧
        Onward s { s with segs := countCopies copies s.segs, attachments := copies ++ s.attachments } := by
  induction copies with
  | nil => exact fun s h _ => ⟨h, Onward.refl s⟩
  | cons c copies ih =>
    intro s h hall
    obtain ⟨g, hi, huse, hsize⟩ := hall c List.mem_cons_self
    obtain ⟨hinv, hon⟩ := h.attach hi huse ⟨rfl, hsize⟩
    have hget := getElem?_put { s with attachments := c :: s.attachments } hi { g with nattach := g.nattach + 1 }
    have hsegs : s.segs.modify c.shmid (fun g => { g with nattach := g.nattach + 1 }) =
        s.segs.set c.shmid { g with nattach := g.nattach + 1 } := by
      apply List.ext_getElem?
      intro j
      rw [List.getElem?_modify, List.getElem?_set]
      by_cases hij : c.shmid = j
      · subst hij
        rw [hi, if_pos rfl, if_pos (List.getElem?_eq_some_iff.1 hi).1]
        exact congrArg some (if_pos rfl)
      · rw [if_neg hij]
        cases s.segs[j]? with
        | none => rfl
        | some x => exact congrArg some (if_neg hij)
    obtain ⟨hinv', hon'⟩ := ih _ hinv (by
      intro d hd
      obtain ⟨x, hx, hux, hsx⟩ := hall d (List.mem_cons_of_mem _ hd)
      rw [hget]
      by_cases hij : d.shmid = c.shmid
      · rw [hij, hi] at hx
        cases hx
        exact ⟨_, if_pos hij, huse, hsx⟩
      · exact ⟨x, (if_neg hij).trans hx, hux, hsx⟩)
    have hperm : (copies ++ (c :: s.attachments)).Perm (c :: copies ++ s.attachments) := List.perm_middle
    have hfinal : Core { s with segs := countCopies (c :: copies) s.segs, attachments := c :: copies ++ s.attachments } := by
      have hcore := hinv'.toCore.perm hperm
      rw [countCopies, hsegs]
      exact hcore
    refine ⟨⟨hfinal, ?_⟩, ?_⟩
    · have hset := hinv'.settled
      rw [countCopies, hsegs]
      exact hset
    · have htrans := hon.trans hon'
      rw [countCopies, hsegs]
      exact htrans

theorem Inv.forkVm (h : Inv s) (parent child : Nat) (kmalloc : Nat → Bool) :
    Inv (shmForkVm s parent child kmalloc).1 ∧ Onward s (shmForkVm s parent child kmalloc).1 := by
  rw [shmForkVm]
  split
  · exact ⟨h, Onward.refl s⟩
  · rename_i copies hcopies
    apply Inv.copies copies s h
    intro c hc
    rcases forkLoop_mem _ _ _ hcopies c hc with hmem | ⟨a, ha, hshmid, hsize⟩
    · cases hmem
    · obtain ⟨g, hi, huse, hg⟩ := h.attached a ha
      exact ⟨g, hshmid ▸ hi, huse, hsize.trans hg.symm⟩

theorem Inv.step (h : Inv s) (c : Call) (hc : Fresh s c) : Inv (step s c) ∧ Kept s (step s c) := by
  cases c with
  | shmget caller key size flags outcome => exact h.shmget caller key size flags outcome hc
  | shmat caller shmid requested flags outcome =>
    obtain ⟨hinv, hon⟩ := h.shmat caller shmid requested flags outcome
    exact ⟨hinv, hon.kept hinv⟩
  | shmdt caller shmaddr =>
    obtain ⟨hinv, hon⟩ := h.shmdt caller shmaddr
    exact ⟨hinv, hon.kept hinv⟩
  | shmctl caller shmid cmd =>
    obtain ⟨hinv, hon⟩ := h.shmctl caller shmid cmd
    exact ⟨hinv, hon.kept hinv⟩
  | pruneTask vm areas =>
    obtain ⟨hinv, hon⟩ := h.dropAll fun a => a.vm = vm && !shmAttachmentArea areas a
    exact ⟨hinv, hon.kept hinv⟩
  | closeVm vm =>
    obtain ⟨hinv, hon⟩ := h.dropAll fun a => a.vm = vm
    exact ⟨hinv, hon.kept hinv⟩
  | forkVm parent child kmalloc =>
    obtain ⟨hinv, hon⟩ := h.forkVm parent child kmalloc
    exact ⟨hinv, hon.kept hinv⟩

theorem inv_init : Inv syscallsShmInit := by
  refine ⟨⟨?_, ?_, List.Perm.refl _, List.nodup_nil, rfl, ?_⟩, ?_⟩
  · intro i g hi
    cases hi
  · intro a ha
    cases ha
  · intro i j g g' hi
    cases hi
  · intro i g hi
    cases hi

/-- After any calls in any order: a segment has as many attachments as it counts, each to a segment in use of its size;
the pages held are those of the segments, each once, and no other page was ever given back; a removed segment is there
only while it is attached; and one key has one segment. No call takes pages from a segment that stays attached. -/
theorem shm_runs (calls : List Call) (h : Along step Fresh syscallsShmInit calls) :
    Inv (calls.foldl step syscallsShmInit) ∧ Along step (fun s c => Kept s (step s c)) syscallsShmInit calls := by
  constructor
  · exact Along.invariant (fun s c hs hc => (hs.step c hc).1) h inv_init
  · exact Along.ensures (fun s c hs hc => hs.step c hc) h inv_init

/-- A segment of two pages, attached, removed, copied by a fork, and closed. -/
def sharedCalls : List Call :=
  let vm : Vm := ⟨1, 0, 0, USER_DYNAMIC_LIMIT, [], fun _ => false⟩
  [.shmget (some ⟨0, 0, vm⟩) 5 5000 0x3b6 ⟨true, true, fun i => [4096, 8192].getD i 0⟩,
    .shmat (some ⟨0, 0, vm⟩) 0 0 0 ⟨true, true, true⟩, .forkVm 1 2 fun _ => true, .shmctl (some ⟨0, 0, vm⟩) 0 0,
    .shmdt (some ⟨0, 0, vm⟩) (USER_DYNAMIC_LIMIT - 8192), .closeVm 2]

theorem sharedCalls_fresh : Along step Fresh syscallsShmInit sharedCalls := by
  refine ⟨?_, trivial, trivial, trivial, trivial, trivial, trivial⟩
  intro i hi
  refine ⟨List.not_mem_nil, ?_⟩
  intro j hj
  rcases i with _ | _ | i
  · exact absurd hj (Nat.not_lt_zero j)
  · rw [Nat.lt_one_iff.1 hj]
    decide
  · exact absurd rfl hi

theorem shm_runs_shared : Inv (sharedCalls.foldl step syscallsShmInit) ∧
    Along step (fun s c => Kept s (step s c)) syscallsShmInit sharedCalls :=
  shm_runs sharedCalls sharedCalls_fresh

end Lebirun.Shm
