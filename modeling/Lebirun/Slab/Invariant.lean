import Mathlib
import Lebirun.Slab.Virtual

namespace Lebirun.Slab
set_option autoImplicit true

open Linked Tiling

variable {s s' : Slab} {ps : List Nat} {a b p virt pages : Nat} {h h' : SlabPage}

theorem page_eq_some : s.page a = some h ↔ s.mem a = some (.slab h) := by
  rw [Slab.page]
  split
  · rename_i heq
    simp [heq]
  · rename_i hne
    simp only [reduceCtorEq, false_iff]
    exact hne h

theorem page_modify (s : Slab) (a : Nat) (f : SlabPage → SlabPage) (b : Nat) :
    (s.modify a f).page b = if b = a then (s.page a).map f else s.page b := by
  by_cases hb : b = a
  · subst b
    simp only [Slab.page, Slab.modify, Function.update_self, ↓reduceIte]
    cases s.mem a with
    | none => rfl
    | some m =>
      cases m with
      | data => rfl
      | slab h => rfl
  · simp [Slab.page, Slab.modify, hb]

theorem mem_modify_none (s : Slab) (a : Nat) (f : SlabPage → SlabPage) (b : Nat) :
    (s.modify a f).mem b = none ↔ s.mem b = none := by
  by_cases hb : b = a
  · subst b
    simp [Slab.modify]
  · simp [Slab.modify, hb]

theorem mem_modify_data (s : Slab) (a : Nat) (f : SlabPage → SlabPage) (b : Nat) :
    (s.modify a f).mem b = some .data ↔ s.mem b = some .data := by
  by_cases hb : b = a
  · subst b
    simp only [Slab.modify, Function.update_self]
    cases s.mem a with
    | none => simp
    | some m =>
      cases m with
      | data => simp
      | slab h => simp
  · simp [Slab.modify, hb]

/-- The list of small pages is `ps`, and each extent has its pages to itself. -/
structure SlabLinks (s : Slab) (ps : List Nat) : Prop where
  vm : VmOk s
  seg : Seg s.next s.prev none ps none
  head : s.smallPages = ps.head?
  tail : s.smallTail = ps.getLast?
  nodup : ps.Nodup
  small : ∀ p, p ∈ ps ↔ ∃ h, s.page p = some h ∧ h.kind = .small
  body : ∀ p h a, s.page p = some h → h.kind = .extent → inRun p h.pages a → a ≠ p →
    s.mem a = some .data

structure SlabCore (s : Slab) (ps : List Nat) : Prop extends SlabLinks s ps where
  layout : ∀ p h, s.page p = some h → h.kind = .small → ∃ l, PageOk h l

/-- The spare page is the one page without a live block, but for the page `x`. -/
def SpareOk (s : Slab) (x : Option Nat) : Prop :=
  ∀ p h, s.page p = some h → h.kind = .small → x ≠ some p →
    (h.liveCount = 0 ↔ s.smallSpare = some p)

structure SlabOk (s : Slab) (ps : List Nat) : Prop extends SlabCore s ps where
  spare : SpareOk s none
  spareMem : ∀ p, s.smallSpare = some p → p ∈ ps

theorem slabInit_ok : SlabOk slabInit [] := by
  refine ⟨⟨⟨⟨le_rfl, le_rfl, ?_, ?_, ?_, ?_, ?_, ?_⟩, trivial, rfl, rfl, List.nodup_nil, ?_, ?_⟩, ?_⟩,
    ?_, ?_⟩
  · decide
  · decide
  · decide
  · decide
  · decide
  · intro a ha
    exact absurd rfl ha
  · intro p
    simp [Slab.page, slabInit]
  · intro p h a hp
    simp [Slab.page, slabInit] at hp
  · intro p h hp
    simp [Slab.page, slabInit] at hp
  · intro p h hp
    simp [Slab.page, slabInit] at hp
  · intro p hp
    cases hp

theorem aligned_of_page (hv : VmOk s) (hp : s.page p = some h) : pageSize ∣ p := by
  apply (hv.known p _).1
  rw [page_eq_some.1 hp]
  exact Option.some_ne_none _

theorem next_of_page (hp : s.page p = some h) : s.next p = h.next := by
  rw [Slab.next, hp]
  rfl

theorem prev_of_page (hp : s.page p = some h) : s.prev p = h.prev := by
  rw [Slab.prev, hp]
  rfl

theorem SlabLinks.isSome_page (hc : SlabLinks s ps) (hp : p ∈ ps) :
    ∃ h, s.page p = some h ∧ h.kind = .small := (hc.small p).1 hp

theorem VmOk.modify (hv : VmOk s) (a : Nat) (f : SlabPage → SlabPage) : VmOk (s.modify a f) := by
  refine hv.congr rfl ?_
  intro b hb
  rw [Ne, mem_modify_none] at hb
  exact hv.known b hb

/-- A write to one page that keeps its links and its kind. -/
theorem SlabLinks.modify (hc : SlabLinks s ps) (hp : s.page p = some h)
    (f : SlabPage → SlabPage) (hn : (f h).next = h.next) (hpr : (f h).prev = h.prev)
    (hk : (f h).kind = h.kind) (hb : h.kind = .extent → (f h).pages ≤ h.pages) :
    SlabLinks (s.modify p f) ps := by
  have hpage : (s.modify p f).page p = some (f h) := by
    rw [page_modify, if_pos rfl, hp]
    rfl
  have hother : ∀ b, b ≠ p → (s.modify p f).page b = s.page b := by
    intro b hne
    rw [page_modify, if_neg hne]
  have hnext : ∀ b, (s.modify p f).next b = s.next b := by
    intro b
    by_cases hne : b = p
    · subst b
      rw [next_of_page hpage, next_of_page hp, hn]
    · rw [Slab.next, hother b hne, Slab.next]
  have hprev : ∀ b, (s.modify p f).prev b = s.prev b := by
    intro b
    by_cases hne : b = p
    · subst b
      rw [prev_of_page hpage, prev_of_page hp, hpr]
    · rw [Slab.prev, hother b hne, Slab.prev]
  refine ⟨hc.vm.modify p f, hc.seg.congr (fun b _ => hnext b) (fun b _ => hprev b), hc.head,
    hc.tail, hc.nodup, ?_, ?_⟩
  · intro b
    rw [hc.small b]
    by_cases hne : b = p
    · subst b
      rw [hpage, hp]
      simp only [Option.some.injEq, exists_eq_left', hk]
    · rw [hother b hne]
  · intro b g c hg hkg hrun hcb
    rw [mem_modify_data]
    by_cases hne : b = p
    · subst b
      rw [hpage] at hg
      cases hg
      have hke := hk ▸ hkg
      obtain ⟨h₁, h₂, h₃⟩ := hrun
      have hle : (f h).pages * pageSize ≤ h.pages * pageSize := Nat.mul_le_mul_right _ (hb hke)
      exact hc.body p h c hp hke ⟨h₁, h₂.trans_le (Nat.add_le_add_left hle _), h₃⟩ hcb
    · rw [hother b hne] at hg
      exact hc.body b g c hg hkg hrun hcb

theorem SlabCore.modify (hc : SlabCore s ps) (hp : s.page p = some h)
    (f : SlabPage → SlabPage) (hn : (f h).next = h.next) (hpr : (f h).prev = h.prev)
    (hk : (f h).kind = h.kind) (hl : h.kind = .small → ∃ l, PageOk (f h) l)
    (hb : h.kind = .extent → (f h).pages ≤ h.pages) : SlabCore (s.modify p f) ps := by
  refine ⟨hc.toSlabLinks.modify hp f hn hpr hk hb, ?_⟩
  intro b g hg hkg
  rw [page_modify] at hg
  split at hg
  · rw [hp] at hg
    cases hg
    exact hl (hk ▸ hkg)
  · exact hc.layout b g hg hkg

theorem SlabOk.modify (hs : SlabOk s ps) (hp : s.page p = some h) (hk : h.kind = .small)
    (f : SlabPage → SlabPage) (hn : (f h).next = h.next) (hpr : (f h).prev = h.prev)
    (hkf : (f h).kind = h.kind) (hl : ∃ l, PageOk (f h) l)
    (hlive : (f h).liveCount = 0 ↔ h.liveCount = 0) : SlabOk (s.modify p f) ps := by
  refine ⟨hs.toSlabCore.modify hp f hn hpr hkf (fun _ => hl) ?_, ?_, hs.spareMem⟩
  · intro hke
    rw [hk] at hke
    cases hke
  · intro q g hg hkg hx
    rw [page_modify] at hg
    split at hg
    · subst q
      rw [hp] at hg
      cases hg
      rw [hlive]
      exact hs.spare p h hp hk hx
    · exact hs.spare q g hg hkg hx

theorem page_setRun (s : Slab) (v : Option PageMem) (hv : ∀ h, v ≠ some (.slab h)) (b : Nat) :
    Slab.page { s with mem := setRun s.mem virt pages v } b =
      if inRun virt pages b then none else s.page b := by
  by_cases hr : inRun virt pages b
  · rw [if_pos hr]
    cases v with
    | none => simp [Slab.page, setRun, hr]
    | some m =>
      cases m with
      | data => simp [Slab.page, setRun, hr]
      | slab h => exact absurd rfl (hv h)
  · simp [Slab.page, setRun, hr]

/-- The core depends on these parts of the state only. -/
theorem SlabCore.congr (hc : SlabCore s ps) (hm : s'.mem = s.mem) (hv : VmOk s')
    (hh : s'.smallPages = s.smallPages) (ht : s'.smallTail = s.smallTail) : SlabCore s' ps := by
  have hp : ∀ b, s'.page b = s.page b := by
    intro b
    simp only [Slab.page, hm]
  have hn : ∀ b, s'.next b = s.next b := by
    intro b
    rw [Slab.next, hp, Slab.next]
  have hpr : ∀ b, s'.prev b = s.prev b := by
    intro b
    rw [Slab.prev, hp, Slab.prev]
  refine ⟨⟨hv, hc.seg.congr (fun b _ => hn b) (fun b _ => hpr b), hh.trans hc.head,
    ht.trans hc.tail, hc.nodup, ?_, ?_⟩, ?_⟩
  · intro b
    rw [hp]
    exact hc.small b
  · intro b g c hg
    rw [hp] at hg
    rw [hm]
    exact hc.body b g c hg
  · intro b g hg
    rw [hp] at hg
    exact hc.layout b g hg

/-- A run without headers turns into a run of data or of unmapped pages, and no extent
reaches into it. -/
theorem SlabCore.fillRun (hc : SlabCore s ps) (v : Option PageMem) (hv : ∀ h, v ≠ some (.slab h))
    (hno : ∀ a, inRun virt pages a → s.page a = none)
    (hbody : ∀ q g a, s.page q = some g → g.kind = .extent → inRun q g.pages a →
      inRun virt pages a → v = some .data)
    (hm : s'.mem = setRun s.mem virt pages v) (hvm : VmOk s')
    (hh : s'.smallPages = s.smallPages) (ht : s'.smallTail = s.smallTail) : SlabCore s' ps := by
  have hp : ∀ b, s'.page b = s.page b := by
    intro b
    have hs : s'.page b = Slab.page { s with mem := setRun s.mem virt pages v } b := by
      simp only [Slab.page, hm]
    rw [hs, page_setRun s v hv]
    split
    · rename_i hr
      exact (hno b hr).symm
    · rfl
  have hn : ∀ b, s'.next b = s.next b := by
    intro b
    rw [Slab.next, hp, Slab.next]
  have hpr : ∀ b, s'.prev b = s.prev b := by
    intro b
    rw [Slab.prev, hp, Slab.prev]
  refine ⟨⟨hvm, hc.seg.congr (fun b _ => hn b) (fun b _ => hpr b), hh.trans hc.head,
    ht.trans hc.tail, hc.nodup, ?_, ?_⟩, ?_⟩
  · intro b
    rw [hp]
    exact hc.small b
  · intro b g c hg hk hr hne
    rw [hp] at hg
    rw [hm, setRun]
    split
    · rename_i hrc
      exact hbody b g c hg hk hr hrc
    · exact hc.body b g c hg hk hr hne
  · intro b g hg
    rw [hp] at hg
    exact hc.layout b g hg

/-- Two headers that differ in their links only. -/
def SlabPage.unlinked (h : SlabPage) : SlabPage := { h with next := none, prev := none }

theorem PageOk.unlinked_congr {l : List SlabBlock} (hu : h'.unlinked = h.unlinked)
    (hl : PageOk h l) : PageOk h' l := by
  simp only [SlabPage.unlinked, SlabPage.mk.injEq, true_and] at hu
  obtain ⟨h₁, -, h₃, -, h₅, h₆⟩ := hu
  refine ⟨⟨?_, hl.full, hl.ok, ?_, ?_⟩, hl.separated, ?_⟩
  · rw [h₆]
    exact hl.tiles
  · rw [h₃, hl.live]
  · rw [h₁, hl.payload]
  · rw [h₅, hl.maxFree]

/-- A change of links: every page keeps the rest of its header. -/
def Relinked (s s' : Slab) : Prop :=
  (∀ b, (s'.page b).map SlabPage.unlinked = (s.page b).map SlabPage.unlinked) ∧
    (∀ b, s'.mem b = some .data ↔ s.mem b = some .data) ∧
    ∀ b, s'.mem b = none ↔ s.mem b = none

theorem Relinked.refl (s : Slab) : Relinked s s := ⟨fun _ => rfl, fun _ => Iff.rfl, fun _ => Iff.rfl⟩

theorem Relinked.trans (h₁ : Relinked s s') (h₂ : Relinked s' s'') : Relinked s s'' :=
  ⟨fun b => (h₂.1 b).trans (h₁.1 b), fun b => (h₂.2.1 b).trans (h₁.2.1 b),
    fun b => (h₂.2.2 b).trans (h₁.2.2 b)⟩

theorem relinked_modify (s : Slab) (a : Nat) (f : SlabPage → SlabPage)
    (hf : ∀ h, (f h).unlinked = h.unlinked) : Relinked s (s.modify a f) := by
  refine ⟨?_, mem_modify_data s a f, mem_modify_none s a f⟩
  intro b
  rw [page_modify]
  split
  · subst b
    rw [Option.map_map]
    congr 1
    funext h
    exact hf h
  · rfl

theorem Relinked.page (hr : Relinked s s') (hp : s'.page b = some h') :
    ∃ h, s.page b = some h ∧ h'.unlinked = h.unlinked := by
  have he := hr.1 b
  rw [hp] at he
  obtain ⟨h, hh, hu⟩ := Option.map_eq_some_iff.1 he.symm
  exact ⟨h, hh, hu.symm⟩

theorem Relinked.page' (hr : Relinked s s') (hp : s.page b = some h) :
    ∃ h', s'.page b = some h' ∧ h'.unlinked = h.unlinked := by
  have he := hr.1 b
  rw [hp] at he
  obtain ⟨h', hh, hu⟩ := Option.map_eq_some_iff.1 he
  exact ⟨h', hh, hu⟩

theorem fields_of_unlinked (hu : h'.unlinked = h.unlinked) :
    h'.kind = h.kind ∧ h'.pages = h.pages ∧ h'.liveCount = h.liveCount := by
  simp only [SlabPage.unlinked, SlabPage.mk.injEq, true_and] at hu
  exact ⟨hu.2.2.2.1, hu.2.1, hu.2.2.1⟩

theorem next_modify (s : Slab) (a : Nat) (f : SlabPage → SlabPage) (b : Nat) :
    (s.modify a f).next b =
      if b = a then (s.page a).bind fun h => (f h).next else s.next b := by
  rw [Slab.next, page_modify]
  split
  · rw [Option.bind_map]
    rfl
  · rfl

theorem prev_modify (s : Slab) (a : Nat) (f : SlabPage → SlabPage) (b : Nat) :
    (s.modify a f).prev b =
      if b = a then (s.page a).bind fun h => (f h).prev else s.prev b := by
  rw [Slab.prev, page_modify]
  split
  · rw [Option.bind_map]
    rfl
  · rfl

theorem linkNext_relinked (s : Slab) (node v : Option Nat) : Relinked s (s.linkNext node v) := by
  cases node with
  | none => exact Relinked.refl s
  | some t => exact relinked_modify s t _ fun _ => rfl

theorem linkPrev_relinked (s : Slab) (node v : Option Nat) : Relinked s (s.linkPrev node v) := by
  cases node with
  | none => exact Relinked.refl s
  | some t => exact relinked_modify s t _ fun _ => rfl

theorem linkNext_next (hn : ∀ t, node = some t → ∃ g, s.page t = some g) (b : Nat) :
    (s.linkNext node v).next b = if node = some b then v else s.next b := by
  cases node with
  | none => rfl
  | some t =>
    obtain ⟨g, hg⟩ := hn t rfl
    rw [Slab.linkNext, next_modify, hg]
    by_cases hb : b = t
    · simp [hb]
    · simp [hb, Ne.symm hb]

theorem linkNext_prev (s : Slab) (node v : Option Nat) (b : Nat) :
    (s.linkNext node v).prev b = s.prev b := by
  cases node with
  | none => rfl
  | some t =>
    rw [Slab.linkNext, prev_modify]
    split
    · subst b
      rfl
    · rfl

theorem linkPrev_next (s : Slab) (node v : Option Nat) (b : Nat) :
    (s.linkPrev node v).next b = s.next b := by
  cases node with
  | none => rfl
  | some t =>
    rw [Slab.linkPrev, next_modify]
    split
    · subst b
      rfl
    · rfl

theorem linkPrev_prev (hn : ∀ t, node = some t → ∃ g, s.page t = some g) (b : Nat) :
    (s.linkPrev node v).prev b = if node = some b then v else s.prev b := by
  cases node with
  | none => rfl
  | some t =>
    obtain ⟨g, hg⟩ := hn t rfl
    rw [Slab.linkPrev, prev_modify, hg]
    by_cases hb : b = t
    · simp [hb]
    · simp [hb, Ne.symm hb]

theorem Relinked.exists_page (hr : Relinked s s') (hp : ∃ g, s.page b = some g) :
    ∃ g, s'.page b = some g := by
  obtain ⟨g, hg⟩ := hp
  obtain ⟨g', hg', -⟩ := hr.page' hg
  exact ⟨g', hg'⟩

theorem slabSmallAdd_relinked (s : Slab) (p : Nat) : Relinked s (slabSmallAdd s p) :=
  (relinked_modify s p (fun h => { h with prev := s.smallTail, next := none }) fun _ => rfl).trans
    (linkNext_relinked _ s.smallTail (some p))

theorem slabSmallRemove_relinked (s : Slab) (p : Nat) : Relinked s (slabSmallRemove s p) :=
  ((linkNext_relinked _ _ _).trans (linkPrev_relinked _ _ _)).trans
    (relinked_modify _ _ _ fun _ => rfl)

theorem slabSmallAdd_next (hp : s.page p = some h)
    (ht : ∀ t, s.smallTail = some t → t ≠ p ∧ ∃ g, s.page t = some g) (b : Nat) :
    (slabSmallAdd s p).next b =
      if b = p then none else if s.smallTail = some b then some p else s.next b := by
  have hl : ∀ t, s.smallTail = some t →
      ∃ g, (s.modify p fun h => { h with prev := s.smallTail, next := none }).page t = some g :=
    fun t he => (relinked_modify s p (fun h => { h with prev := s.smallTail, next := none })
      fun _ => rfl).exists_page (ht t he).2
  show Slab.next (Slab.linkNext _ s.smallTail (some p)) b = _
  rw [linkNext_next hl, next_modify, hp]
  by_cases hb : b = p
  · subst b
    have hne : s.smallTail ≠ some p := fun he => (ht p he).1 rfl
    simp [hne]
  · simp [hb]

theorem slabSmallAdd_prev (hp : s.page p = some h) (b : Nat) :
    (slabSmallAdd s p).prev b = if b = p then s.smallTail else s.prev b := by
  show Slab.prev (Slab.linkNext _ s.smallTail (some p)) b = _
  rw [linkNext_prev, prev_modify, hp]
  rfl

theorem slabSmallRemove_next
    (hl : ∀ t, s.prev p = some t → t ≠ p ∧ ∃ g, s.page t = some g) (hb : b ≠ p) :
    (slabSmallRemove s p).next b = if s.prev p = some b then s.next p else s.next b := by
  simp only [slabSmallRemove]
  rw [next_modify, if_neg hb, linkPrev_next, linkNext_next fun t he => (hl t he).2]

theorem slabSmallRemove_prev
    (hl : ∀ t, s.prev p = some t → t ≠ p ∧ ∃ g, s.page t = some g)
    (hr : ∀ t, s.next p = some t → t ≠ p ∧ ∃ g, s.page t = some g) (hb : b ≠ p) :
    (slabSmallRemove s p).prev b = if s.next p = some b then s.prev p else s.prev b := by
  have hne : s.prev p ≠ some p := fun he => (hl p he).1 rfl
  have hnext : (s.linkNext (s.prev p) (s.next p)).next p = s.next p := by
    rw [linkNext_next fun t he => (hl t he).2, if_neg hne]
  have hpage : ∀ t, s.next p = some t → ∃ g, (s.linkNext (s.prev p) (s.next p)).page t = some g :=
    fun t he => (linkNext_relinked _ _ _).exists_page (hr t he).2
  simp only [slabSmallRemove]
  rw [prev_modify, if_neg hb, hnext, linkPrev_prev hpage, linkNext_prev, linkNext_prev]

/-- The page being unlinked leaves the list, and nothing else changes about it. -/
theorem SlabLinks.remove (hc : SlabLinks s ps) (hps : ps = l₁ ++ p :: l₂) :
    Seg (slabSmallRemove s p).next (slabSmallRemove s p).prev none (l₁ ++ l₂) none ∧
      (slabSmallRemove s p).smallPages = (l₁ ++ l₂).head? ∧
      (slabSmallRemove s p).smallTail = (l₁ ++ l₂).getLast? := by
  subst ps
  have hseg := hc.seg
  have hnd := hc.nodup
  obtain ⟨h₁, hpp, hpn, h₂⟩ := seg_append.1 hseg
  rw [Option.or_none] at hpp hpn
  obtain ⟨hnd₁, hnd₂, hdis⟩ := List.nodup_append.1 hnd
  have hnot : p ∉ l₂ := (List.nodup_cons.1 hnd₂).1
  have hl : ∀ t, s.prev p = some t → t ≠ p ∧ ∃ g, s.page t = some g := by
    intro t ht
    rw [hpp] at ht
    have hm := List.mem_of_getLast? ht
    refine ⟨hdis t hm p List.mem_cons_self, ?_⟩
    obtain ⟨g, hg, -⟩ := hc.isSome_page (List.mem_append_left _ hm)
    exact ⟨g, hg⟩
  have hr : ∀ t, s.next p = some t → t ≠ p ∧ ∃ g, s.page t = some g := by
    intro t ht
    rw [hpn] at ht
    have hm := List.mem_of_head? ht
    refine ⟨fun he => hnot (he ▸ hm), ?_⟩
    obtain ⟨g, hg, -⟩ := hc.isSome_page (List.mem_append_right _ (List.mem_cons_of_mem _ hm))
    exact ⟨g, hg⟩
  have hne : ∀ b ∈ l₁ ++ l₂, b ≠ p := by
    intro b hb
    rcases List.mem_append.1 hb with hb | hb
    · exact hdis b hb p List.mem_cons_self
    · exact fun he => hnot (he ▸ hb)
  refine ⟨?_, ?_, ?_⟩
  · apply hseg.remove hnd
    · intro b hb
      exact slabSmallRemove_next hl (hne b hb)
    · intro b hb
      exact slabSmallRemove_prev hl hr (hne b hb)
  · have hhead := hc.head
    have hpages : (slabSmallRemove s p).smallPages =
        (s.linkNext (s.prev p) (s.next p)).smallPages := by
      simp only [slabSmallRemove, Slab.modify]
      cases Slab.next (s.linkNext (s.prev p) (s.next p)) p with
      | none => rfl
      | some n => rfl
    rw [hpages, hpp, hpn]
    rcases List.eq_nil_or_concat l₁ with rfl | ⟨m, y, rfl⟩
    · rfl
    · have hy : (m.concat y).getLast? = some y := by simp
      rw [hy]
      show s.smallPages = _
      rw [hhead]
      simp [List.head?_append]
  · have htail := hc.tail
    have hne' : s.prev p ≠ some p := fun he => (hl p he).1 rfl
    have hnext : (s.linkNext (s.prev p) (s.next p)).next p = s.next p := by
      rw [linkNext_next fun t he => (hl t he).2, if_neg hne']
    have htl : (slabSmallRemove s p).smallTail =
        (Slab.linkPrev (s.linkNext (s.prev p) (s.next p)) (s.next p) (s.prev p)).smallTail := by
      simp only [slabSmallRemove, Slab.modify, hnext, linkNext_prev]
    rw [htl, hpn, hpp]
    cases l₂ with
    | nil =>
      simp only [List.head?_nil, Slab.linkPrev, List.append_nil]
    | cons y m =>
      have hsame : (s.linkNext l₁.getLast? (some y)).smallTail = s.smallTail := by
        cases l₁.getLast? with
        | none => rfl
        | some t => rfl
      simp only [List.head?_cons, Slab.linkPrev]
      show (s.linkNext l₁.getLast? (some y)).smallTail = _
      rw [hsame, htail]
      simp [List.getLast?_append]

end Lebirun.Slab
