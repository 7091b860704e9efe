import Mathlib
import Lebirun.Slab.Preserve

namespace Lebirun.Slab
set_option autoImplicit true

open Linked Tiling

variable {s s' : Slab} {ps : List Nat} {a b p virt pages : Nat} {h h' : SlabPage}

theorem modify_modify (s : Slab) (a : Nat) (f g : SlabPage → SlabPage) :
    (s.modify a f).modify a g = s.modify a fun h => g (f h) := by
  simp only [Slab.modify, Function.update_idem, Function.update_self, Option.map_map]
  congr 2
  cases s.mem a with
  | none => rfl
  | some m =>
    cases m with
    | data => rfl
    | slab h => rfl

theorem page_modify_self (hp : s.page p = some h) (f : SlabPage → SlabPage) :
    (s.modify p f).page p = some (f h) := by
  rw [page_modify, if_pos rfl, hp]
  rfl

/-- The page becomes the spare one: its last live block goes, and there was no spare page. -/
theorem SlabOk.becomeSpare (hs : SlabOk s ps) (hp : s.page p = some h) (hk : h.kind = .small)
    (hz : (slabSmallClear h off).liveCount = 0) (hno : s.smallSpare = none) :
    SlabOk { s.modify p fun h => slabSmallSpare (slabSmallClear h off) with
      smallSpare := some p } ps := by
  have hcore := hs.toSlabCore.modify hp (fun h => slabSmallSpare (slabSmallClear h off)) rfl rfl
    rfl (fun _ => ⟨_, PageOk.spare hz⟩) (fun he => by rw [hk] at he; cases he)
  refine ⟨hcore.congr rfl (hcore.vm.congr rfl hcore.vm.known) rfl rfl, ?_, ?_⟩
  · intro q g hg hkg _
    have hg' : (s.modify p fun h => slabSmallSpare (slabSmallClear h off)).page q = some g := hg
    rw [page_modify] at hg'
    split at hg'
    · subst q
      rw [hp] at hg'
      cases hg'
      exact ⟨fun _ => rfl, fun _ => hz⟩
    · rename_i hq
      have := hs.spare q g hg' hkg (by simp)
      rw [hno] at this
      rw [this]
      simp [Ne.symm hq]
  · intro q hq
    cases hq
    exact (hs.small p).2 ⟨h, hp, hk⟩

/-- A small page other than the spare one is given back. -/
theorem SlabOk.releaseSmall (hs : SlabOk s ps) (hp : s.page p = some h) (hk : h.kind = .small)
    (hsp : s.smallSpare ≠ some p) (off n : Nat) :
    SlabOk (slabUnmapPages { slabSmallRemove (s.modify p fun h => slabSmallClear h off) p with
      pagesAllocated := n } p 1) (ps.erase p) := by
  have hmem : p ∈ ps := (hs.small p).2 ⟨h, hp, hk⟩
  have hlinks := hs.toSlabLinks.modify hp (fun h => slabSmallClear h off) rfl rfl rfl
    (fun he => by rw [hk] at he; cases he)
  have hother : ∀ b, b ≠ p → (s.modify p fun h => slabSmallClear h off).page b = s.page b :=
    fun b hb => by rw [page_modify, if_neg hb]
  obtain ⟨hcore, hsome⟩ := hlinks.release hmem (by
    intro b g hb hg hkg
    rw [hother b hb] at hg
    exact hs.layout b g hg hkg)
  have hspare : (slabUnmapPages (slabSmallRemove (s.modify p fun h => slabSmallClear h off) p)
      p 1).smallSpare = s.smallSpare := by
    simp only [slabUnmapPages, slabSmallRemove, Slab.modify, Slab.linkNext, Slab.linkPrev]
    split
    · split <;> rfl
    · split <;> rfl
  have hok : SlabOk (slabUnmapPages (slabSmallRemove (s.modify p fun h => slabSmallClear h off) p)
      p 1) (ps.erase p) := by
    refine ⟨hcore, ?_, ?_⟩
    · intro q g hg hkg hx
      obtain ⟨hq, g₀, hg₀, hu⟩ := hsome q g hg
      obtain ⟨hk₀, -, hlv⟩ := fields_of_unlinked hu
      rw [hother q hq] at hg₀
      rw [hlv, hspare]
      exact hs.spare q g₀ hg₀ (hk₀ ▸ hkg) hx
    · intro q hq
      rw [hspare] at hq
      rw [hs.nodup.mem_erase_iff]
      exact ⟨fun he => hsp (he ▸ hq), hs.spareMem q hq⟩
  exact hok.counter n

theorem slabFree_ok (hs : SlabOk s ps) (ptr : Nat) (canaries : Bool) :
    ∃ ps', SlabOk (slabFree s ptr canaries) ps' := by
  simp only [slabFree]
  split
  · exact ⟨ps, hs⟩
  · split
    · exact ⟨ps, hs⟩
    · rename_i h hp
      split
      · rename_i hk
        split
        · exact ⟨ps, hs⟩
        · split
          · exact ⟨ps, hs⟩
          · exact ⟨ps, (hs.counter _).unmapExtent hp hk⟩
      · rename_i hk
        split
        · exact ⟨ps, hs⟩
        · rename_i off hoff
          split
          · exact ⟨ps, hs⟩
          · rename_i hreq
            obtain ⟨l, hl⟩ := hs.layout _ h hp hk
            obtain ⟨l₁, b, l₂, rfl, ho, -⟩ := hl.toLaid.blockForPtr hoff
            have hbe := hl.toLaid.block_eq
            rw [← ho] at hbe
            have hb : ¬b.Free := by
              rw [← hbe]
              exact hreq
            have hlaid := hl.toLaid.clear hb
            rw [← ho] at hlaid
            have hlive : h.liveCount ≠ 0 := by
              rw [hl.live]
              simp [hb]
            split
            · rename_i hz
              rw [modify_modify]
              exact ⟨ps, hs.becomeSpare hp hk hz.1 hz.2⟩
            · split
              · have hsp : s.smallSpare ≠ some (pageOf ptr) := by
                  rw [Ne, ← hs.spare _ h hp hk (by simp)]
                  exact hlive
                exact ⟨ps.erase (pageOf ptr), hs.releaseSmall hp hk hsp off _⟩
              · rename_i hnz
                rw [modify_modify]
                refine ⟨ps, hs.modify hp hk (fun h => slabSmallCoalesce (slabSmallClear h off))
                  rfl rfl rfl ⟨_, hlaid.coalesce⟩ ?_⟩
                exact ⟨fun he => absurd he hnz, fun he => absurd he hlive⟩

theorem slabResize_ok (hs : SlabOk s ps) (ptr newSize : Nat) (canaries : Bool) :
    SlabOk (slabResize s ptr newSize canaries).2 ps := by
  simp only [slabResize]
  split
  · exact hs
  · rename_i hargs
    split
    · exact hs
    · split
      · exact hs
      · rename_i h hp
        split
        · rename_i hk
          split
          · exact hs
          · split
            · exact hs
            · rename_i off hoff
              split
              · exact hs
              · rename_i hreq
                split
                · exact hs
                · rename_i h' hr
                  obtain ⟨l, hl⟩ := hs.layout _ h hp hk
                  obtain ⟨l₁, b, l₂, rfl, ho, -⟩ := hl.toLaid.blockForPtr hoff
                  have hbe := hl.toLaid.block_eq
                  rw [← ho] at hbe
                  have hb : ¬b.Free := by
                    rw [← hbe]
                    exact hreq
                  rw [ho] at hr
                  obtain ⟨l', hl', hlv, hn, hpr, hk', -⟩ :=
                    hl.toLaid.resize hb (by omega) hr
                  exact hs.modify hp hk (fun _ => h') hn hpr hk' ⟨l', hl'⟩ (by rw [hlv])
        · rename_i hk
          split
          · exact hs
          · split
            · exact hs
            · split
              · exact hs
              · rename_i hle
                split
                · exact hs
                · split
                  · rename_i hlt
                    refine SlabOk.counter (hs.shrinkExtent hp hk hlt ?_
                      (fun h => { h with payloadSize := newSize, pages := _ }) rfl rfl rfl rfl) _
                    simp only [slabExtentTotal, pageSize]
                    omega
                  · refine ⟨hs.toSlabCore.modify hp _ rfl rfl rfl ?_ ?_, ?_, hs.spareMem⟩
                    · intro he
                      rw [hk] at he
                      cases he
                    · intro _
                      dsimp only
                      omega
                    · intro q g hg hkg hx
                      dsimp only at hg
                      rw [page_modify] at hg
                      split at hg
                      · rw [hp] at hg
                        cases hg
                        rw [hk] at hkg
                        cases hkg
                      · exact hs.spare q g hg hkg hx

/-- What callers of `slab_page_free` promise: the run is one they got from `slab_page_alloc`,
so it holds no header and no page of an extent. -/
def PageRun (s : Slab) (ptr pages : Nat) : Prop :=
  (∀ a, inRun ptr pages a → s.page a = none) ∧
    ∀ q g a, s.page q = some g → g.kind = .extent → inRun q g.pages a → ¬inRun ptr pages a

theorem slabPageFree_ok (hs : SlabOk s ps) (hr : PageRun s ptr (slabPageCount size)) :
    SlabOk (slabPageFree s ptr size) ps := by
  simp only [slabPageFree]
  split
  · exact hs
  split
  · exact hs
  split
  · exact hs
  split
  · exact hs
  split
  · exact hs
  split
  · exact hs
  split
  · exact hs
  · apply (hs.counter _).unmap
    · intro a g ha hg
      have hnone := hr.1 a ha
      have hg' : s.page a = some g := hg
      rw [hnone] at hg'
      cases hg'
    · intro q g a hq hqk ha hrun
      exact absurd hrun (hr.2 q g a hq hqk ha)

theorem slabDropSpare_ok (hs : SlabOk s ps) : ∃ ps', SlabOk (slabDropSpare s) ps' := by
  rw [slabDropSpare]
  split
  · exact ⟨ps, hs⟩
  · rename_i p hsp
    have hmem := hs.spareMem p hsp
    obtain ⟨hcore, hsome⟩ := hs.toSlabLinks.release hmem
      (fun b g _ hg hkg => hs.layout b g hg hkg)
    refine ⟨ps.erase p, hcore.congr rfl (hcore.vm.congr rfl hcore.vm.known) rfl rfl, ?_, ?_⟩
    · intro q g hg hkg hx
      obtain ⟨hq, g₀, hg₀, hu⟩ := hsome q g hg
      obtain ⟨hk₀, -, hlv⟩ := fields_of_unlinked hu
      have := hs.spare q g₀ hg₀ (hk₀ ▸ hkg) hx
      rw [hsp] at this
      rw [hlv, this]
      simp [Ne.symm hq]
    · intro q hq
      cases hq

end Lebirun.Slab
