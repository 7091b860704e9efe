import Mathlib
import Lebirun.Slab.Invariant

namespace Lebirun.Slab
set_option autoImplicit true

open Linked Tiling

variable {s s' : Slab} {ps : List Nat} {a b p virt pages : Nat} {h h' : SlabPage}

theorem page_congr (hm : s'.mem = s.mem) (b : Nat) : s'.page b = s.page b := by
  simp only [Slab.page, hm]

theorem SlabOk.congr (hs : SlabOk s ps) (hm : s'.mem = s.mem) (hv : VmOk s')
    (hh : s'.smallPages = s.smallPages) (ht : s'.smallTail = s.smallTail)
    (hsp : s'.smallSpare = s.smallSpare) : SlabOk s' ps := by
  refine ⟨hs.toSlabCore.congr hm hv hh ht, ?_, ?_⟩
  · intro q g hg
    rw [page_congr hm] at hg
    rw [hsp]
    exact hs.spare q g hg
  · rw [hsp]
    exact hs.spareMem

theorem SlabCore.counter (hc : SlabCore s ps) (n : Nat) :
    SlabCore { s with pagesAllocated := n } ps :=
  hc.congr rfl (hc.vm.congr rfl hc.vm.known) rfl rfl

theorem SlabOk.counter (hs : SlabOk s ps) (n : Nat) : SlabOk { s with pagesAllocated := n } ps :=
  hs.congr rfl (hs.vm.congr rfl hs.vm.known) rfl rfl rfl

theorem SlabOk.vAlloc (hs : SlabOk s ps) (hva : VAlloc s pages r s') : SlabOk s' ps := by
  have hvm := hva.vm
  obtain ⟨pb, psc, ob, os, rfl⟩ := hva.same
  exact hs.congr rfl hvm rfl rfl rfl

/-- No two extents share a page. -/
theorem SlabLinks.extents_disjoint (hc : SlabLinks s ps) (hp : s.page p = some g)
    (hpk : g.kind = .extent) (hq : s.page q = some g') (hqk : g'.kind = .extent)
    (hx : inRun p g.pages x) (hy : inRun q g'.pages x) : p = q := by
  by_contra hne
  have hmp := page_eq_some.1 hp
  have hmq := page_eq_some.1 hq
  have hap := aligned_of_page hc.vm hp
  have haq := aligned_of_page hc.vm hq
  rcases Nat.lt_or_gt_of_ne hne with hlt | hlt
  · have hr : inRun p g.pages q := ⟨hlt.le, lt_of_le_of_lt hy.1 hx.2.1, haq⟩
    rw [hc.body p g q hp hpk hr (Ne.symm hne)] at hmq
    cases hmq
  · have hr : inRun q g'.pages p := ⟨hlt.le, lt_of_le_of_lt hx.1 hy.2.1, hap⟩
    rw [hc.body q g' p hq hqk hr hne] at hmp
    cases hmp

/-- Every page of an extent is mapped. -/
theorem SlabLinks.extent_mapped (hc : SlabLinks s ps) (hp : s.page p = some g)
    (hpk : g.kind = .extent) (hx : inRun p g.pages x) : s.mem x ≠ none := by
  by_cases he : x = p
  · rw [he, page_eq_some.1 hp]
    exact Option.some_ne_none _
  · rw [hc.body p g x hp hpk hx he]
    exact Option.some_ne_none _

/-- What mapping a fresh run gives: data pages that no extent covers. -/
structure FreshRun (s : Slab) (virt pages : Nat) : Prop where
  data : ∀ a, inRun virt pages a → s.mem a = some .data
  free : ∀ q g a, s.page q = some g → g.kind = .extent → inRun q g.pages a →
    ¬inRun virt pages a

theorem slabMapPages_ok (hs : SlabOk s ps) (hu : ∀ a, inRun virt pages a → s.mem a = none)
    (hk : ∀ a, inRun virt pages a → s.Known a)
    (h : slabMapPages s virt pages backed = (ok, s')) :
    SlabOk s' ps ∧ s'.smallSpare = s.smallSpare ∧ (ok = true → FreshRun s' virt pages) := by
  have hc := hs.toSlabCore
  rw [slabMapPages] at h
  split at h
  · cases h
    have hno : ∀ a, inRun virt pages a → s.page a = none := by
      intro a ha
      simp only [Slab.page, hu a ha]
    have hpage : ∀ b, Slab.page
        { s with
          mem := setRun s.mem virt pages (some .data)
          log := (runPages virt pages).reverse.map Note.mapped ++ s.log } b = s.page b := by
      intro b
      show Slab.page { s with mem := setRun s.mem virt pages (some .data) } b = _
      rw [page_setRun s _ (fun _ => by simp)]
      split
      · rename_i hb
        exact (hno b hb).symm
      · rfl
    have hvm : VmOk { s with
        mem := setRun s.mem virt pages (some .data)
        log := (runPages virt pages).reverse.map Note.mapped ++ s.log } := by
      have hv := hc.vm
      refine hv.congr rfl ?_
      intro b hb
      by_cases hr : inRun virt pages b
      · exact hk b hr
      · exact hv.known b (by simpa [setRun, hr] using hb)
    refine ⟨⟨hc.fillRun (some .data) (fun _ => by simp) hno (fun _ _ _ _ _ _ _ => rfl) rfl hvm rfl
      rfl, ?_, hs.spareMem⟩, rfl, ?_⟩
    · intro q g hg
      rw [hpage] at hg
      exact hs.spare q g hg
    · intro _
      refine ⟨?_, ?_⟩
      · intro a ha
        simp [setRun, ha]
      · intro q g a hq hqk ha hr
        rw [hpage] at hq
        exact hc.extent_mapped hq hqk ha (hu a hr)
  · rename_i hlt
    cases h
    have hm : setRun s.mem virt backed none = s.mem := by
      funext b
      rw [setRun]
      split
      · rename_i hb
        have hle : backed * pageSize ≤ pages * pageSize := Nat.mul_le_mul_right _ (by omega)
        exact (hu b ⟨hb.1, hb.2.1.trans_le (Nat.add_le_add_left hle _), hb.2.2⟩).symm
      · rfl
    refine ⟨?_, rfl, by simp⟩
    have hv := hc.vm
    refine hs.congr hm ?_ rfl rfl rfl
    refine hv.congr rfl ?_
    intro b hb
    rw [hm] at hb
    exact hv.known b hb

theorem VmOk.update (hv : VmOk s) (hp : s.mem p ≠ none) (m : PageMem) :
    VmOk { s with mem := Function.update s.mem p (some m) } := by
  refine hv.congr rfl ?_
  intro b hb
  by_cases hbp : b = p
  · subst b
    exact hv.known p hp
  · exact hv.known b (by simpa [hbp] using hb)

theorem page_update (s : Slab) (p : Nat) (h : SlabPage) (b : Nat) :
    Slab.page { s with mem := Function.update s.mem p (some (.slab h)) } b =
      if b = p then some h else s.page b := by
  by_cases hb : b = p
  · subst b
    simp [Slab.page]
  · simp [Slab.page, hb]

/-- A fresh run becomes an extent. -/
theorem SlabOk.extent (hs : SlabOk s ps) (hf : FreshRun s virt pages) (hp : 0 < pages)
    (ha : pageSize ∣ virt) (hk : h.kind = .extent) (hpg : h.pages = pages) :
    SlabOk { s with mem := Function.update s.mem virt (some (.slab h)) } ps := by
  have hc := hs.toSlabCore
  have hrun : inRun virt pages virt := by
    have := inRun_of_lt ha hp
    rwa [Nat.zero_mul, Nat.add_zero] at this
  have hd := hf.data virt hrun
  have hold : s.page virt = none := by simp only [Slab.page, hd]
  have hnot : ∀ b ∈ ps, b ≠ virt := by
    rintro b hb rfl
    obtain ⟨g, hg, -⟩ := hc.isSome_page hb
    rw [hold] at hg
    cases hg
  have hother : ∀ b, b ≠ virt →
      Slab.page { s with mem := Function.update s.mem virt (some (.slab h)) } b = s.page b :=
    fun b hb => by rw [page_update, if_neg hb]
  have hmem : ∀ b, b ≠ virt → Function.update s.mem virt (some (.slab h)) b = s.mem b :=
    fun b hb => Function.update_of_ne hb _ _
  refine ⟨⟨⟨hc.vm.update (by rw [hd]; exact Option.some_ne_none _) _, ?_, hc.head, hc.tail,
    hc.nodup, ?_, ?_⟩, ?_⟩, ?_, hs.spareMem⟩
  · apply hc.seg.congr
    · intro b hb
      rw [Slab.next, hother b (hnot b hb), Slab.next]
    · intro b hb
      rw [Slab.prev, hother b (hnot b hb), Slab.prev]
  · intro b
    rw [hc.small b, page_update]
    by_cases hb : b = virt
    · subst b
      simp [hold, hk]
    · simp [hb]
  · intro q g x hg hkg hx hne
    rw [page_update] at hg
    split at hg
    · rename_i hq
      cases hg
      subst q
      show Function.update s.mem virt _ x = _
      rw [hmem x hne]
      exact hf.data x (hpg ▸ hx)
    · show Function.update s.mem virt _ x = _
      rw [hmem x]
      · exact hc.body q g x hg hkg hx hne
      · rintro rfl
        exact hf.free q g x hg hkg hx hrun
  · intro b g hg hkg
    rw [page_update] at hg
    split at hg
    · cases hg
      rw [hk] at hkg
      cases hkg
    · exact hc.layout b g hg hkg
  · intro q g hg hkg hx
    rw [page_update] at hg
    split at hg
    · cases hg
      rw [hk] at hkg
      cases hkg
    · exact hs.spare q g hg hkg hx

/-- A fresh page joins the end of the small list. -/
theorem SlabOk.addSmall (hs : SlabOk s ps) (hf : FreshRun s p 1) (ha : pageSize ∣ p)
    (hk : h.kind = .small) (hl : PageOk h l) :
    let s₁ := { s with mem := Function.update s.mem p (some (.slab h)) }
    ∃ h', SlabCore (slabSmallAdd s₁ p) (ps ++ [p]) ∧ SpareOk (slabSmallAdd s₁ p) (some p) ∧
      p ∉ ps ∧ (slabSmallAdd s₁ p).page p = some h' ∧ h'.unlinked = h.unlinked := by
  intro s₁
  have hc := hs.toSlabCore
  have hrun : inRun p 1 p := by
    have := inRun_of_lt ha Nat.one_pos
    rwa [Nat.zero_mul, Nat.add_zero] at this
  have hd := hf.data p hrun
  have hold : s.page p = none := by simp only [Slab.page, hd]
  have hnot : p ∉ ps := by
    intro hb
    obtain ⟨g, hg, -⟩ := hc.isSome_page hb
    rw [hold] at hg
    cases hg
  have hne : ∀ b ∈ ps, b ≠ p := fun b hb he => hnot (he ▸ hb)
  have hpg : s₁.page p = some h := by
    rw [page_update, if_pos rfl]
  have hother : ∀ b, b ≠ p → s₁.page b = s.page b := fun b hb => by rw [page_update, if_neg hb]
  have htail : s₁.smallTail = ps.getLast? := hc.tail
  have ht : ∀ t, s₁.smallTail = some t → t ≠ p ∧ ∃ g, s₁.page t = some g := by
    intro t he
    rw [htail] at he
    have hm := List.mem_of_getLast? he
    obtain ⟨g, hg, -⟩ := hc.isSome_page hm
    exact ⟨hne t hm, g, by rw [hother t (hne t hm), hg]⟩
  have hrel := slabSmallAdd_relinked s₁ p
  obtain ⟨h', hh', hu'⟩ := hrel.page' hpg
  have hkinds : ∀ b, b ≠ p → ∀ g, (slabSmallAdd s₁ p).page b = some g →
      ∃ g₀, s.page b = some g₀ ∧ g.unlinked = g₀.unlinked := by
    intro b hb g hg
    obtain ⟨g₀, hg₀, hu⟩ := hrel.page hg
    rw [hother b hb] at hg₀
    exact ⟨g₀, hg₀, hu⟩
  have hvm : VmOk (slabSmallAdd s₁ p) := by
    have hv := hc.vm.update (by rw [hd]; exact Option.some_ne_none _) (.slab h)
    have hsame : ∃ m sp st, slabSmallAdd s₁ p =
        { s with mem := m, smallPages := sp, smallTail := st } := by
      simp only [slabSmallAdd, Slab.linkNext]
      split
      · exact ⟨_, _, _, rfl⟩
      · exact ⟨_, _, _, rfl⟩
    obtain ⟨m, sp, st, hsm⟩ := hsame
    have hnone := hrel.2.2
    rw [hsm] at hnone ⊢
    refine hv.congr rfl ?_
    intro b hb
    exact hv.known b fun he => hb ((hnone b).2 he)
  refine ⟨h', ⟨⟨hvm, ?_, ?_, ?_, ?_, ?_, ?_⟩, ?_⟩, ?_, hnot, hh', hu'⟩
  · apply hc.seg.snoc
    · rw [slabSmallAdd_prev hpg, if_pos rfl, htail]
    · rw [slabSmallAdd_next hpg ht, if_pos rfl]
    · intro b hb
      rw [slabSmallAdd_next hpg ht, if_neg (hne b hb), htail, Slab.next, hother b (hne b hb),
        Slab.next]
    · intro b hb
      rw [slabSmallAdd_prev hpg, if_neg (hne b hb), Slab.prev, hother b (hne b hb), Slab.prev]
    · exact hc.nodup
  · have hhead := hc.head
    have hpages : (slabSmallAdd s₁ p).smallPages =
        ps.getLast?.elim (some p) fun _ => s.smallPages := by
      have ht' : s.smallTail = ps.getLast? := hc.tail
      simp only [slabSmallAdd, Slab.linkNext, Slab.modify, s₁, ht']
      cases ps.getLast? with
      | none => rfl
      | some t => rfl
    rw [hpages]
    rcases List.eq_nil_or_concat ps with rfl | ⟨m, y, rfl⟩
    · rfl
    · simp [hhead, List.head?_append]
  · simp [slabSmallAdd]
  · rw [List.nodup_append]
    refine ⟨hc.nodup, List.nodup_singleton p, ?_⟩
    intro b hb c hcm
    rw [List.mem_singleton] at hcm
    subst c
    exact hne b hb
  · intro b
    rw [List.mem_append, List.mem_singleton]
    by_cases hb : b = p
    · subst b
      simp only [or_true, true_iff]
      exact ⟨h', hh', (fields_of_unlinked hu').1.trans hk⟩
    · simp only [hb, or_false]
      rw [hc.small b]
      constructor
      · rintro ⟨g, hg, hkg⟩
        obtain ⟨g', hg', hu⟩ := hrel.page' ((hother b hb).trans hg)
        exact ⟨g', hg', (fields_of_unlinked hu).1.trans hkg⟩
      · rintro ⟨g, hg, hkg⟩
        obtain ⟨g₀, hg₀, hu⟩ := hkinds b hb g hg
        exact ⟨g₀, hg₀, (fields_of_unlinked hu).1.symm.trans hkg⟩
  · intro q g x hg hkg hx hxq
    have hqp : q ≠ p := by
      rintro rfl
      rw [hh'] at hg
      cases hg
      rw [(fields_of_unlinked hu').1, hk] at hkg
      cases hkg
    obtain ⟨g₀, hg₀, hu⟩ := hkinds q hqp g hg
    obtain ⟨hk₀, hp₀, -⟩ := fields_of_unlinked hu
    rw [hp₀] at hx
    rw [hk₀] at hkg
    have hxp : x ≠ p := by
      rintro rfl
      exact hf.free q g₀ x hg₀ hkg hx hrun
    rw [hrel.2.1]
    show Function.update s.mem p _ x = _
    rw [Function.update_of_ne hxp]
    exact hc.body q g₀ x hg₀ hkg hx hxq
  · intro b g hg hkg
    by_cases hb : b = p
    · subst b
      rw [hh'] at hg
      cases hg
      exact ⟨l, hl.unlinked_congr hu'⟩
    · obtain ⟨g₀, hg₀, hu⟩ := hkinds b hb g hg
      obtain ⟨l₀, hl₀⟩ := hc.layout b g₀ hg₀ ((fields_of_unlinked hu).1.symm.trans hkg)
      exact ⟨l₀, hl₀.unlinked_congr hu⟩
  · intro q g hg hkg hx
    have hqp : q ≠ p := fun he => hx (he ▸ rfl)
    obtain ⟨g₀, hg₀, hu⟩ := hkinds q hqp g hg
    obtain ⟨hk₀, -, hlv⟩ := fields_of_unlinked hu
    rw [hlv]
    have hsp : (slabSmallAdd s₁ p).smallSpare = s.smallSpare := by
      simp only [slabSmallAdd, Slab.linkNext]
      split <;> rfl
    rw [hsp]
    exact hs.spare q g₀ hg₀ (hk₀ ▸ hkg) (by simp)

theorem VmOk.unmap (hv : VmOk s) (virt pages : Nat) : VmOk (slabUnmapPages s virt pages) := by
  refine hv.congr rfl ?_
  intro b hb
  by_cases hr : inRun virt pages b
  · simp [slabUnmapPages, setRun, hr] at hb
  · exact hv.known b (by simpa [slabUnmapPages, setRun, hr] using hb)

theorem page_unmap (s : Slab) (virt pages b : Nat) :
    (slabUnmapPages s virt pages).page b = if inRun virt pages b then none else s.page b :=
  page_setRun s none (fun _ => by simp) b

/-- A run without small pages is unmapped together with every extent it touches. -/
theorem SlabOk.unmap (hs : SlabOk s ps)
    (hsmall : ∀ a g, inRun virt pages a → s.page a = some g → g.kind = .extent)
    (hext : ∀ q g a, s.page q = some g → g.kind = .extent → inRun q g.pages a →
      inRun virt pages a → inRun virt pages q) : SlabOk (slabUnmapPages s virt pages) ps := by
  have hc := hs.toSlabCore
  have hout : ∀ b ∈ ps, ¬inRun virt pages b := by
    intro b hb hr
    obtain ⟨g, hg, hk⟩ := hc.isSome_page hb
    rw [hsmall b g hr hg] at hk
    cases hk
  have hsome : ∀ b g, (slabUnmapPages s virt pages).page b = some g →
      ¬inRun virt pages b ∧ s.page b = some g := by
    intro b g hg
    rw [page_unmap] at hg
    split at hg
    · cases hg
    · rename_i hr
      exact ⟨hr, hg⟩
  refine ⟨⟨⟨hc.vm.unmap virt pages, ?_, hc.head, hc.tail, hc.nodup, ?_, ?_⟩, ?_⟩, ?_,
    hs.spareMem⟩
  · apply hc.seg.congr
    · intro b hb
      rw [Slab.next, page_unmap, if_neg (hout b hb), Slab.next]
    · intro b hb
      rw [Slab.prev, page_unmap, if_neg (hout b hb), Slab.prev]
  · intro b
    rw [hc.small b]
    constructor
    · rintro ⟨g, hg, hk⟩
      refine ⟨g, ?_, hk⟩
      rw [page_unmap, if_neg (hout b ((hc.small b).2 ⟨g, hg, hk⟩)), hg]
    · rintro ⟨g, hg, hk⟩
      exact ⟨g, (hsome b g hg).2, hk⟩
  · intro q g x hg hk hx hne
    obtain ⟨hq, hg⟩ := hsome q g hg
    have hxr : ¬inRun virt pages x := fun hr => hq (hext q g x hg hk hx hr)
    simp only [slabUnmapPages, setRun, hxr, ↓reduceIte]
    exact hc.body q g x hg hk hx hne
  · intro b g hg
    exact hc.layout b g (hsome b g hg).2
  · intro q g hg
    exact hs.spare q g (hsome q g hg).2

theorem inRun_one (ha : pageSize ∣ p) : inRun p 1 b ↔ b = p := by
  rw [inRun_iff ha]
  constructor
  · rintro ⟨i, hi, rfl⟩
    obtain rfl : i = 0 := by omega
    omega
  · rintro rfl
    exact ⟨0, Nat.one_pos, by omega⟩

/-- A page of the small list is unlinked and unmapped. -/
theorem SlabLinks.release (hc : SlabLinks s ps) (hp : p ∈ ps)
    (hlay : ∀ b g, b ≠ p → s.page b = some g → g.kind = .small → ∃ l, PageOk g l) :
    SlabCore (slabUnmapPages (slabSmallRemove s p) p 1) (ps.erase p) ∧
      (∀ b g, (slabUnmapPages (slabSmallRemove s p) p 1).page b = some g →
        b ≠ p ∧ ∃ g₀, s.page b = some g₀ ∧ g.unlinked = g₀.unlinked) := by
  obtain ⟨l₁, l₂, hps⟩ := List.append_of_mem hp
  have hnd := hc.nodup
  obtain ⟨h, hpg, hk⟩ := hc.isSome_page hp
  have ha := aligned_of_page hc.vm hpg
  have herase : ps.erase p = l₁ ++ l₂ := by
    rw [hps] at hnd ⊢
    rw [List.erase_append_right _ fun hm => (List.nodup_append.1 hnd).2.2 p hm p (by simp) rfl,
      List.erase_cons_head]
  obtain ⟨hseg, hhead, htail⟩ := hc.remove hps
  have hrel := slabSmallRemove_relinked s p
  have hrun : ∀ b, inRun p 1 b ↔ b = p := fun b => inRun_one ha
  have hpage : ∀ b, b ≠ p → (slabUnmapPages (slabSmallRemove s p) p 1).page b =
      (slabSmallRemove s p).page b := by
    intro b hb
    rw [page_unmap, if_neg (fun hr => hb ((hrun b).1 hr))]
  have hsome : ∀ b g, (slabUnmapPages (slabSmallRemove s p) p 1).page b = some g →
      b ≠ p ∧ ∃ g₀, s.page b = some g₀ ∧ g.unlinked = g₀.unlinked := by
    intro b g hg
    have hb : b ≠ p := by
      rintro rfl
      rw [page_unmap, if_pos ((hrun b).2 rfl)] at hg
      cases hg
    rw [hpage b hb] at hg
    exact ⟨hb, hrel.page hg⟩
  have hmem : ∀ b, b ∈ l₁ ++ l₂ ↔ b ∈ ps ∧ b ≠ p := by
    intro b
    rw [← herase]
    rw [hnd.mem_erase_iff]
    exact and_comm
  have hvm : VmOk (slabSmallRemove s p) := by
    have hv := hc.vm
    have hsame : ∃ m sp st, slabSmallRemove s p =
        { s with mem := m, smallPages := sp, smallTail := st } := by
      simp only [slabSmallRemove, Slab.linkNext, Slab.linkPrev, Slab.modify]
      split
      · split
        · exact ⟨_, _, _, rfl⟩
        · exact ⟨_, _, _, rfl⟩
      · split
        · exact ⟨_, _, _, rfl⟩
        · exact ⟨_, _, _, rfl⟩
    obtain ⟨m, sp, st, hsm⟩ := hsame
    have hnone := hrel.2.2
    rw [hsm] at hnone ⊢
    refine hv.congr rfl ?_
    intro b hb
    exact hv.known b fun he => hb ((hnone b).2 he)
  rw [herase]
  refine ⟨⟨⟨hvm.unmap p 1, ?_, hhead, htail, ?_, ?_, ?_⟩, ?_⟩, hsome⟩
  · apply hseg.congr
    · intro b hb
      rw [Slab.next, hpage b ((hmem b).1 hb).2, Slab.next]
    · intro b hb
      rw [Slab.prev, hpage b ((hmem b).1 hb).2, Slab.prev]
  · rw [← herase]
    exact hnd.erase p
  · intro b
    rw [hmem, hc.small b]
    constructor
    · rintro ⟨⟨g, hg, hkg⟩, hb⟩
      obtain ⟨g', hg', hu⟩ := hrel.page' hg
      exact ⟨g', (hpage b hb).trans hg', (fields_of_unlinked hu).1.trans hkg⟩
    · rintro ⟨g, hg, hkg⟩
      obtain ⟨hb, g₀, hg₀, hu⟩ := hsome b g hg
      exact ⟨⟨g₀, hg₀, (fields_of_unlinked hu).1.symm.trans hkg⟩, hb⟩
  · intro q g x hg hkg hx hne
    obtain ⟨hb, g₀, hg₀, hu⟩ := hsome q g hg
    obtain ⟨hk₀, hp₀, -⟩ := fields_of_unlinked hu
    rw [hp₀] at hx
    rw [hk₀] at hkg
    have hd := hc.body q g₀ x hg₀ hkg hx hne
    have hxp : x ≠ p := by
      rintro rfl
      rw [page_eq_some.1 hpg] at hd
      cases hd
    simp only [slabUnmapPages, setRun, hrun, hxp, ↓reduceIte]
    exact (hrel.2.1 x).2 hd
  · intro b g hg hkg
    obtain ⟨hb, g₀, hg₀, hu⟩ := hsome b g hg
    obtain ⟨l, hl⟩ := hlay b g₀ hb hg₀ ((fields_of_unlinked hu).1.symm.trans hkg)
    exact ⟨l, hl.unlinked_congr hu⟩

theorem needed_le (hs : size ≤ slabSmallMax) : roundup8 size + slabBlockHead ≤ 4064 := by
  simp only [slabSmallMax, roundup8, slabBlockHead] at *
  omega

theorem slabSmallTake_ok (hc : SlabCore s ps) (hsp : SpareOk s x)
    (hm : ∀ q, s.smallSpare = some q → q ∈ ps) (hp : s.page p = some h) (hk : h.kind = .small)
    (hx : x = none ∨ x = some p) (hl : PageOk h l) (hz : 0 < size)
    (hf : slabSmallFind h (roundup8 size + slabBlockHead) = some off) :
    SlabOk (slabSmallTake s p off size) ps := by
  obtain ⟨l₁, b, l₂, rfl, rfl, hb, hn⟩ := hl.toLaid.find hf
  have hplace := hl.toLaid.place hb hz hn
  have hlive : (slabSmallPlace h (slabPageHead + extent SlabBlock.span l₁) size).liveCount ≠ 0 :=
    Nat.succ_ne_zero _
  have hcore := hc.modify hp
    (fun h => slabSmallPlace h (slabPageHead + extent SlabBlock.span l₁) size) rfl rfl rfl
    (fun _ => ⟨_, hplace⟩) (fun hke => by rw [hk] at hke; cases hke)
  generalize hoff : slabPageHead + extent SlabBlock.span l₁ = off at *
  have hpage : ∀ q g, (s.modify p fun h => slabSmallPlace h off size).page q = some g →
      q = p ∧ g = slabSmallPlace h off size ∨ q ≠ p ∧ s.page q = some g := by
    intro q g hg
    rw [page_modify] at hg
    split at hg
    · rename_i hq
      rw [hp] at hg
      cases hg
      exact .inl ⟨hq, rfl⟩
    · rename_i hq
      exact .inr ⟨hq, hg⟩
  have hother : ∀ q, q ≠ p → x ≠ some q := by
    intro q hq he
    rcases hx with rfl | rfl
    · cases he
    · cases he
      exact hq rfl
  simp only [slabSmallTake]
  split
  · rename_i hspare
    have hspare' : s.smallSpare = some p := hspare
    refine ⟨hcore.congr rfl (hcore.vm.congr rfl hcore.vm.known) rfl rfl, ?_,
      fun q hq => by cases hq⟩
    intro q g hg hkg _
    rcases hpage q g hg with ⟨rfl, rfl⟩ | ⟨hq, hg⟩
    · simp [hlive]
    · have := hsp q g hg hkg (hother q hq)
      rw [hspare'] at this
      rw [this]
      simp [Ne.symm hq]
  · rename_i hspare
    have hspare' : s.smallSpare ≠ some p := hspare
    refine ⟨hcore, ?_, hm⟩
    intro q g hg hkg _
    rcases hpage q g hg with ⟨rfl, rfl⟩ | ⟨hq, hg⟩
    · exact ⟨fun he => absurd he hlive, fun he => absurd he hspare'⟩
    · exact hsp q g hg hkg (hother q hq)

theorem slabSmallCreate_none (hs : SlabOk s ps)
    (h : slabSmallCreate s backed = (none, failed, s')) : SlabOk s' ps := by
  rw [slabSmallCreate] at h
  rcases hva : slabVirtualAlloc s 1 with ⟨r, s₁⟩
  have hspec := slabVirtualAlloc_spec hs.vm hva
  have hs₁ := hs.vAlloc hspec
  rw [hva] at h
  cases r with
  | none =>
    cases h
    exact hs₁
  | some virt =>
    have hmem : s₁.mem = s.mem := by
      obtain ⟨pb, psc, ob, os, rfl⟩ := hspec.same
      rfl
    dsimp only at h
    rcases hmp : slabMapPages s₁ virt 1 backed with ⟨ok, s₂⟩
    obtain ⟨hs₂, -, -⟩ := slabMapPages_ok hs₁
      (fun a ha => by rw [hmem]; exact hspec.unmapped virt a rfl ha)
      (fun a ha => hspec.known virt a rfl ha) hmp
    rw [hmp] at h
    cases ok with
    | false =>
      cases h
      exact hs₂
    | true => cases h

/-- The page a successful `slab_small_create` appends: one free block, not yet counted as
the spare page. -/
theorem slabSmallCreate_some (hs : SlabOk s ps)
    (h : slabSmallCreate s backed = (some p, failed, s')) :
    ∃ g, SlabCore s' (ps ++ [p]) ∧ SpareOk s' (some p) ∧ s'.smallSpare = s.smallSpare ∧
      s'.page p = some g ∧ g.kind = .small ∧
      PageOk g [⟨pageSize - slabPageHead, 0⟩] := by
  rw [slabSmallCreate] at h
  rcases hva : slabVirtualAlloc s 1 with ⟨r, s₁⟩
  have hspec := slabVirtualAlloc_spec hs.vm hva
  have hs₁ := hs.vAlloc hspec
  rw [hva] at h
  cases r with
  | none => cases h
  | some virt =>
    obtain ⟨pb, psc, ob, os, hsame⟩ := hspec.same
    have hmem : s₁.mem = s.mem := by
      rw [hsame]
    have hspare : s₁.smallSpare = s.smallSpare := by
      rw [hsame]
    dsimp only at h
    rcases hmp : slabMapPages s₁ virt 1 backed with ⟨ok, s₂⟩
    obtain ⟨hs₂, hsp₂, hfresh⟩ := slabMapPages_ok hs₁
      (fun a ha => by rw [hmem]; exact hspec.unmapped virt a rfl ha)
      (fun a ha => hspec.known virt a rfl ha) hmp
    rw [hmp] at h
    cases ok with
    | false => cases h
    | true =>
      dsimp only at h
      have ha := hspec.aligned virt rfl
      obtain ⟨g, hcore, hso, -, hg, hu⟩ :=
        hs₂.addSmall (hfresh rfl) ha rfl PageOk.fresh
      simp only [Prod.mk.injEq, Option.some.injEq] at h
      obtain ⟨rfl, -, rfl⟩ := h
      refine ⟨g, hcore.counter _, hso, ?_, hg, ?_, ?_⟩
      · rw [← hspare, ← hsp₂]
        simp only [slabSmallAdd, Slab.linkNext]
        split <;> rfl
      · exact (fields_of_unlinked hu).1
      · exact PageOk.fresh.unlinked_congr hu

theorem slabSmallAllocate_ok (hs : SlabOk s ps) (hz : 0 < size) (hmax : size ≤ slabSmallMax)
    (h : slabSmallAllocate s size backed = (r, failed, s')) : ∃ ps', SlabOk s' ps' := by
  have hc := hs.toSlabCore
  simp only [slabSmallAllocate] at h
  split at h
  · rename_i page hsearch
    rw [hc.head] at hsearch
    obtain ⟨hmem, hfound⟩ := search_mem hc.seg hsearch
    obtain ⟨g, hg, hk⟩ := hc.isSome_page hmem
    obtain ⟨l, hl⟩ := hc.layout page g hg hk
    split at h
    · rename_i off hoff
      simp only [Slab.findIn, hg, Option.bind_some] at hoff
      split at hoff
      · cases h
        exact ⟨ps, slabSmallTake_ok hc hs.spare hs.spareMem hg hk (.inl rfl) hl hz hoff⟩
      · cases hoff
    · cases h
      exact ⟨ps, hs⟩
  · rcases hcr : slabSmallCreate s backed with ⟨r₁, failed₁, s₁⟩
    rw [hcr] at h
    cases r₁ with
    | none =>
      cases h
      exact ⟨ps, slabSmallCreate_none hs hcr⟩
    | some page =>
      obtain ⟨g, hcore, hso, hsp, hg, hk, hl⟩ := slabSmallCreate_some hs hcr
      have hfind : ∃ off, slabSmallFind g (roundup8 size + slabBlockHead) = some off := by
        cases hn : slabSmallFind g (roundup8 size + slabBlockHead) with
        | some off => exact ⟨off, rfl⟩
        | none =>
          have ht : Tiles SlabBlock.span g.block slabPageHead
              ([] ++ ⟨pageSize - slabPageHead, 0⟩ :: []) := hl.tiles
          have hbad := slabSmallWalk_none ht (by rw [List.nil_append, hl.full]; rfl) hl.ok
            (by decide) hn
          have hle := needed_le hmax
          simp only [decide_eq_false_iff_not] at hbad
          exact absurd ⟨trivial, hle⟩ hbad
      obtain ⟨off, hoff⟩ := hfind
      simp only [hg, Option.bind_some, hoff] at h
      cases h
      refine ⟨ps ++ [page], slabSmallTake_ok hcore hso ?_ hg hk (.inr rfl) hl hz hoff⟩
      intro q hq
      rw [hsp] at hq
      exact List.mem_append_left _ (hs.spareMem q hq)

theorem slabExtentPages_pos (size : Nat) : 0 < slabExtentPages size := by
  have h : 0 < slabExtentTotal size := by
    simp only [slabExtentTotal]
    omega
  simp only [slabExtentPages, pageSize]
  split
  · omega
  · omega

theorem slabExtentAllocate_ok (hs : SlabOk s ps)
    (h : slabExtentAllocate s size backed = (r, failed, s')) : SlabOk s' ps := by
  simp only [slabExtentAllocate] at h
  rcases hva : slabVirtualAlloc s (slabExtentPages size) with ⟨r₁, s₁⟩
  have hspec := slabVirtualAlloc_spec hs.vm hva
  have hs₁ := hs.vAlloc hspec
  rw [hva] at h
  cases r₁ with
  | none =>
    cases h
    exact hs₁
  | some virt =>
    have hmem : s₁.mem = s.mem := by
      obtain ⟨pb, psc, ob, os, rfl⟩ := hspec.same
      rfl
    dsimp only at h
    rcases hmp : slabMapPages s₁ virt (slabExtentPages size) backed with ⟨ok, s₂⟩
    obtain ⟨hs₂, -, hfresh⟩ := slabMapPages_ok hs₁
      (fun a ha => by rw [hmem]; exact hspec.unmapped virt a rfl ha)
      (fun a ha => hspec.known virt a rfl ha) hmp
    rw [hmp] at h
    cases ok with
    | false =>
      cases h
      exact hs₂
    | true =>
      cases h
      exact (hs₂.extent (hfresh rfl) (slabExtentPages_pos size) (hspec.aligned virt rfl) rfl
        rfl).counter _

theorem slabAllocate_ok (hs : SlabOk s ps) (hz : 0 < size)
    (h : slabAllocate s size backed = (r, failed, s')) : ∃ ps', SlabOk s' ps' := by
  rw [slabAllocate] at h
  split at h
  · rename_i hmax
    exact slabSmallAllocate_ok hs hz hmax h
  · exact ⟨ps, slabExtentAllocate_ok hs h⟩

theorem slabPageAllocate_ok (hs : SlabOk s ps)
    (h : slabPageAllocate s pages backed = (r, failed, s')) : SlabOk s' ps := by
  rw [slabPageAllocate] at h
  rcases hva : slabVirtualAlloc s pages with ⟨r₁, s₁⟩
  have hspec := slabVirtualAlloc_spec hs.vm hva
  have hs₁ := hs.vAlloc hspec
  rw [hva] at h
  cases r₁ with
  | none =>
    cases h
    exact hs₁
  | some virt =>
    have hmem : s₁.mem = s.mem := by
      obtain ⟨pb, psc, ob, os, rfl⟩ := hspec.same
      rfl
    dsimp only at h
    rcases hmp : slabMapPages s₁ virt pages backed with ⟨ok, s₂⟩
    obtain ⟨hs₂, -, -⟩ := slabMapPages_ok hs₁
      (fun a ha => by rw [hmem]; exact hspec.unmapped virt a rfl ha)
      (fun a ha => hspec.known virt a rfl ha) hmp
    rw [hmp] at h
    cases ok with
    | false =>
      cases h
      exact hs₂
    | true =>
      cases h
      exact hs₂.counter _

/-- Releasing an extent, or the end of one, takes no page of another. -/
theorem SlabOk.unmapExtent (hs : SlabOk s ps) (hp : s.page p = some h) (hk : h.kind = .extent) :
    SlabOk (slabUnmapPages s p h.pages) ps := by
  have hc := hs.toSlabCore
  apply hs.unmap
  · intro a g ha hg
    by_cases he : a = p
    · subst a
      rw [hp] at hg
      cases hg
      exact hk
    · have hd := hc.body p h a hp hk ha he
      rw [page_eq_some.1 hg] at hd
      cases hd
  · intro q g a hq hqk ha hr
    obtain rfl := hc.extents_disjoint hp hk hq hqk hr ha
    rw [hp] at hq
    cases hq
    have hpos : 0 < h.pages := by
      obtain ⟨h₁, h₂, -⟩ := ha
      by_contra hz
      obtain hz : h.pages = 0 := by omega
      rw [hz, Nat.zero_mul] at h₂
      omega
    have := inRun_of_lt (aligned_of_page hc.vm hp) hpos
    rwa [Nat.zero_mul, Nat.add_zero] at this

theorem SlabOk.shrinkExtent (hs : SlabOk s ps) (hp : s.page p = some h) (hk : h.kind = .extent)
    (hn : n < h.pages) (hpos : 0 < n)
    (f : SlabPage → SlabPage) (hfn : (f h).next = h.next) (hfp : (f h).prev = h.prev)
    (hfk : (f h).kind = h.kind) (hfg : (f h).pages = n) :
    SlabOk (slabUnmapPages (s.modify p f) (p + n * pageSize) (h.pages - n)) ps := by
  have hc := hs.toSlabCore
  have ha := aligned_of_page hc.vm hp
  have hcore := hc.modify hp f hfn hfp hfk (fun he => by rw [hk] at he; cases he)
    (fun _ => by omega)
  have hsub : ∀ a, inRun (p + n * pageSize) (h.pages - n) a → inRun p h.pages a ∧ a ≠ p := by
    rintro a ⟨h₁, h₂, h₃⟩
    have hmul : n * pageSize + (h.pages - n) * pageSize = h.pages * pageSize := by
      rw [← Nat.add_mul]
      congr 1
      omega
    have hone : pageSize ≤ n * pageSize := Nat.le_mul_of_pos_left _ hpos
    have hps : 0 < pageSize := by decide
    exact ⟨⟨by omega, by omega, h₃⟩, by omega⟩
  have hpg : ∀ b, b ≠ p → (s.modify p f).page b = s.page b := fun b hb => by
    rw [page_modify, if_neg hb]
  have hok : SlabOk (s.modify p f) ps := by
    refine ⟨hcore, ?_, hs.spareMem⟩
    intro q g hg hkg hx
    rw [page_modify] at hg
    split at hg
    · rw [hp] at hg
      cases hg
      rw [hfk, hk] at hkg
      cases hkg
    · exact hs.spare q g hg hkg hx
  apply hok.unmap
  · intro a g hr hg
    obtain ⟨hra, hne⟩ := hsub a hr
    rw [hpg a hne] at hg
    have hd := hc.body p h a hp hk hra hne
    rw [page_eq_some.1 hg] at hd
    cases hd
  · intro q g a hq hqk haq hr
    obtain ⟨hra, -⟩ := hsub a hr
    exfalso
    rw [page_modify] at hq
    split at hq
    · subst q
      rw [hp] at hq
      cases hq
      rw [hfg] at haq
      have := hr.1
      have := haq.2.1
      omega
    · rename_i hqp
      exact hqp (hc.extents_disjoint hp hk hq hqk hra haq).symm

end Lebirun.Slab
