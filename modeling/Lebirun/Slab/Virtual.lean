import Mathlib
import Lebirun.Slab.State

namespace Lebirun.Slab
set_option autoImplicit true

variable {s s' : Slab} {a virt pages : Nat}

/-- The page addresses the allocator has ever given out. -/
def Slab.Known (s : Slab) (a : Nat) : Prop :=
  pageSize ∣ a ∧ (slabPrimaryStart ≤ a ∧ a < s.primaryBump ∨
    slabOverflowStart ≤ a ∧ a < s.overflowBump)

structure VmOk (s : Slab) : Prop where
  primaryLe : slabPrimaryStart ≤ s.primaryBump
  overflowLe : slabOverflowStart ≤ s.overflowBump
  overflowEnd : s.overflowBump ≤ slabOverflowStart + slabOverflowSize
  primaryBump : pageSize ∣ s.primaryBump
  overflowBump : pageSize ∣ s.overflowBump
  primaryScan : pageSize ∣ s.primaryScan
  overflowScan : pageSize ∣ s.overflowScan
  known : ∀ a, s.mem a ≠ none → s.Known a

/-- Only the bumps, the scan positions and the mapped pages matter. -/
theorem VmOk.congr (hv : VmOk s)
    (hb : (s'.primaryBump, s'.primaryScan, s'.overflowBump, s'.overflowScan) =
      (s.primaryBump, s.primaryScan, s.overflowBump, s.overflowScan))
    (hk : ∀ b, s'.mem b ≠ none → s.Known b) : VmOk s' := by
  simp only [Prod.mk.injEq] at hb
  obtain ⟨h₁, h₂, h₃, h₄⟩ := hb
  have hknown : ∀ b, s.Known b → s'.Known b := by
    intro b hb
    rwa [Slab.Known, h₁, h₃]
  refine ⟨?_, ?_, ?_, ?_, ?_, ?_, ?_, fun b hb => hknown b (hk b hb)⟩
  · rw [h₁]
    exact hv.primaryLe
  · rw [h₃]
    exact hv.overflowLe
  · rw [h₃]
    exact hv.overflowEnd
  · rw [h₁]
    exact hv.primaryBump
  · rw [h₃]
    exact hv.overflowBump
  · rw [h₂]
    exact hv.primaryScan
  · rw [h₄]
    exact hv.overflowScan

theorem inRun_of_lt (hv : pageSize ∣ virt) (hi : i < pages) :
    inRun virt pages (virt + i * pageSize) := by
  have hm : i * pageSize < pages * pageSize := Nat.mul_lt_mul_of_pos_right hi (by decide)
  exact ⟨Nat.le_add_right _ _, by omega, Nat.dvd_add hv (Nat.dvd_mul_left _ _)⟩

theorem inRun_iff (hv : pageSize ∣ virt) :
    inRun virt pages a ↔ ∃ i < pages, a = virt + i * pageSize := by
  constructor
  · rintro ⟨hle, hlt, hd⟩
    obtain ⟨i, hi⟩ : pageSize ∣ a - virt := Nat.dvd_sub hd hv
    refine ⟨i, ?_, by rw [Nat.mul_comm]; omega⟩
    have hm : pageSize * i < pageSize * pages := by
      rw [Nat.mul_comm pageSize pages]
      omega
    exact Nat.lt_of_mul_lt_mul_left hm
  · rintro ⟨i, hi, rfl⟩
    exact inRun_of_lt hv hi

theorem mem_runPages (hv : pageSize ∣ virt) : a ∈ runPages virt pages ↔ inRun virt pages a := by
  rw [inRun_iff hv, runPages, List.mem_map]
  simp only [List.mem_range, eq_comm]

/-- A run the search returns lies between its bounds and has no mapped page. -/
theorem slabFindVirtualRunFrom_spec (hs : pageSize ∣ start) (hc : pageSize ∣ candidate)
    (hl : start + pages * pageSize ≤ limit)
    (h : slabFindVirtualRunFrom mem start limit pages total fuel candidate checked = some virt) :
    pageSize ∣ virt ∧ start ≤ virt ∧ virt + pages * pageSize ≤ limit ∧
      ∀ a, inRun virt pages a → mem a = none := by
  induction fuel generalizing candidate checked with
  | zero => cases h
  | succ fuel ih =>
    rw [slabFindVirtualRunFrom] at h
    split at h
    · dsimp only at h
      generalize hd : (if candidate < start ∨ candidate + pages * pageSize > limit then start
        else candidate) = cand at h
      have hcand : pageSize ∣ cand ∧ start ≤ cand ∧ cand + pages * pageSize ≤ limit := by
        subst cand
        split
        · exact ⟨hs, le_rfl, hl⟩
        · exact ⟨hc, by omega, by omega⟩
      split at h
      · exact ih (Nat.dvd_add hcand.1 (Nat.dvd_mul_left _ _)) h
      · rename_i hnone
        cases h
        refine ⟨hcand.1, hcand.2.1, hcand.2.2, ?_⟩
        intro a ha
        obtain ⟨i, hi, rfl⟩ := (inRun_iff hcand.1).1 ha
        have hf := List.find?_eq_none.1 hnone i (List.mem_range.2 hi)
        simpa using hf
    · cases h

theorem slabFindVirtualRun_spec (hs : pageSize ∣ start) (hz : pageSize ∣ size)
    (hc : pageSize ∣ scan)
    (h : slabFindVirtualRun s start size scan pages = some (virt, scan')) :
    pageSize ∣ virt ∧ start ≤ virt ∧ virt + pages * pageSize ≤ start + size ∧
      (∀ a, inRun virt pages a → s.mem a = none) ∧ pageSize ∣ scan' ∧
      s.virtualDirty = false ∧ s.flushActive = false := by
  simp only [slabFindVirtualRun] at h
  split at h
  · cases h
  · rename_i hp
    split at h
    · cases h
    · rename_i hd
      simp only [not_or, Bool.not_eq_true] at hd
      simp only [Option.map_eq_some_iff, Prod.mk.injEq] at h
      obtain ⟨cand, hrun, rfl, rfl⟩ := h
      have hle : pages * pageSize ≤ size := by
        have hle' : pages ≤ size / pageSize := by omega
        exact (Nat.mul_le_mul_right _ hle').trans (Nat.div_mul_le_self _ _)
      obtain ⟨h₁, h₂, h₃, h₄⟩ := slabFindVirtualRunFrom_spec hs hc (by omega) hrun
      refine ⟨h₁, h₂, h₃, h₄, ?_, hd.1, hd.2⟩
      split
      · exact hs
      · exact Nat.dvd_add h₁ (Nat.dvd_mul_left _ _)

/-- What a call of `slab_virtual_alloc` can do: it moves the bumps and scan positions, and the
run it returns is unmapped and either new or handed out while nothing waits for a flush. -/
structure VAlloc (s : Slab) (pages : Nat) (r : Option Nat) (s' : Slab) : Prop where
  same : ∃ pb ps ob os,
    s' = { s with primaryBump := pb, primaryScan := ps, overflowBump := ob, overflowScan := os }
  vm : VmOk s'
  mono : ∀ a, s.Known a → s'.Known a
  aligned : ∀ virt, r = some virt → pageSize ∣ virt
  unmapped : ∀ virt a, r = some virt → inRun virt pages a → s.mem a = none
  known : ∀ virt a, r = some virt → inRun virt pages a → s'.Known a
  fresh : ∀ virt, r = some virt → s.virtualDirty = false ∧ s.flushActive = false ∨
    ∀ a, inRun virt pages a → ¬s.Known a

theorem VAlloc.none (hv : VmOk s) : VAlloc s pages none s :=
  ⟨⟨_, _, _, _, rfl⟩, hv, fun _ h => h, by simp, by simp, by simp, by simp⟩

theorem slabVirtualBump_spec (hv : VmOk s) (h : slabVirtualBump s pages = (r, s')) :
    VAlloc s pages r s' := by
  have hp := hv.primaryLe
  have ho := hv.overflowLe
  have hoe := hv.overflowEnd
  rw [slabVirtualBump] at h
  split at h
  · cases h
    exact VAlloc.none hv
  · dsimp only at h
    split at h
    · rename_i hb
      cases h
      have hmono : ∀ a, s.Known a →
          Slab.Known { s with primaryBump := s.primaryBump + pages * pageSize } a := by
        rintro a ⟨hd, hr | hr⟩
        · exact ⟨hd, .inl ⟨hr.1, by dsimp only; omega⟩⟩
        · exact ⟨hd, .inr hr⟩
      have hnew : ∀ a, inRun s.primaryBump pages a → ¬s.Known a := by
        rintro a ⟨hle, hlt, -⟩ ⟨-, hr | hr⟩
        · omega
        · simp only [slabOverflowStart, slabOverflowSize, slabPrimaryStart] at *
          omega
      refine ⟨⟨_, _, _, _, rfl⟩, ?_, hmono, ?_, ?_, ?_, ?_⟩
      · exact ⟨by dsimp only; omega, ho, hoe,
          Nat.dvd_add hv.primaryBump (Nat.dvd_mul_left _ _), hv.overflowBump, hv.primaryScan,
          hv.overflowScan, fun a ha => hmono a (hv.known a ha)⟩
      · intro virt hvirt
        cases hvirt
        exact hv.primaryBump
      · intro virt a hvirt ha
        cases hvirt
        by_contra hne
        exact hnew a ha (hv.known a hne)
      · intro virt a hvirt ha
        cases hvirt
        exact ⟨ha.2.2, .inl ⟨hp.trans ha.1, ha.2.1⟩⟩
      · intro virt hvirt
        cases hvirt
        exact .inr hnew
    · split at h
      · rename_i hb
        cases h
        have hmono : ∀ a, s.Known a →
            Slab.Known { s with overflowBump := s.overflowBump + pages * pageSize } a := by
          rintro a ⟨hd, hr | hr⟩
          · exact ⟨hd, .inl hr⟩
          · exact ⟨hd, .inr ⟨hr.1, by dsimp only; omega⟩⟩
        have hnew : ∀ a, inRun s.overflowBump pages a → ¬s.Known a := by
          rintro a ⟨hle, hlt, -⟩ ⟨-, hr | hr⟩
          · simp only [slabOverflowStart, slabOverflowSize, slabPrimaryStart] at *
            omega
          · omega
        refine ⟨⟨_, _, _, _, rfl⟩, ?_, hmono, ?_, ?_, ?_, ?_⟩
        · exact ⟨hp, by dsimp only; omega, by dsimp only; omega, hv.primaryBump,
            Nat.dvd_add hv.overflowBump (Nat.dvd_mul_left _ _), hv.primaryScan,
            hv.overflowScan, fun a ha => hmono a (hv.known a ha)⟩
        · intro virt hvirt
          cases hvirt
          exact hv.overflowBump
        · intro virt a hvirt ha
          cases hvirt
          by_contra hne
          exact hnew a ha (hv.known a hne)
        · intro virt a hvirt ha
          cases hvirt
          exact ⟨ha.2.2, .inr ⟨ho.trans ha.1, ha.2.1⟩⟩
        · intro virt hvirt
          cases hvirt
          exact .inr hnew
      · cases h
        exact VAlloc.none hv

theorem slabVirtualAlloc_spec (hv : VmOk s) (h : slabVirtualAlloc s pages = (r, s')) :
    VAlloc s pages r s' := by
  have hp := hv.primaryLe
  have ho := hv.overflowLe
  have hps : pageSize ∣ slabPrimaryStart := by decide
  have hos : pageSize ∣ slabOverflowStart := by decide
  simp only [slabVirtualAlloc] at h
  split at h
  · cases h
    exact VAlloc.none hv
  · split at h
    · split at h
      · exact slabVirtualBump_spec hv h
      · cases h
        exact VAlloc.none hv
    · split at h
      · rename_i virt scan hrun
        split at hrun
        · obtain ⟨h₁, h₂, h₃, h₄, h₅, h₆, h₇⟩ := slabFindVirtualRun_spec hps
            (Nat.dvd_sub hv.primaryBump hps) hv.primaryScan hrun
          cases h
          have hk : ∀ a, inRun virt pages a → s.Known a := by
            rintro a ⟨hle, hlt, hd⟩
            exact ⟨hd, .inl ⟨h₂.trans hle, by omega⟩⟩
          refine ⟨⟨_, _, _, _, rfl⟩, ?_, fun _ h => h, ?_, ?_, ?_, ?_⟩
          · exact ⟨hp, ho, hv.overflowEnd, hv.primaryBump, hv.overflowBump, h₅, hv.overflowScan,
              hv.known⟩
          · intro v hvirt
            cases hvirt
            exact h₁
          · intro v a hvirt ha
            cases hvirt
            exact h₄ a ha
          · intro v a hvirt ha
            cases hvirt
            exact hk a ha
          · intro v hvirt
            exact .inl ⟨h₆, h₇⟩
        · cases hrun
      · split at h
        · rename_i virt scan hrun
          split at hrun
          · obtain ⟨h₁, h₂, h₃, h₄, h₅, h₆, h₇⟩ := slabFindVirtualRun_spec hos
              (Nat.dvd_sub hv.overflowBump hos) hv.overflowScan hrun
            cases h
            have hk : ∀ a, inRun virt pages a → s.Known a := by
              rintro a ⟨hle, hlt, hd⟩
              exact ⟨hd, .inr ⟨h₂.trans hle, by omega⟩⟩
            refine ⟨⟨_, _, _, _, rfl⟩, ?_, fun _ h => h, ?_, ?_, ?_, ?_⟩
            · exact ⟨hp, ho, hv.overflowEnd, hv.primaryBump, hv.overflowBump, hv.primaryScan, h₅,
                hv.known⟩
            · intro v hvirt
              cases hvirt
              exact h₁
            · intro v a hvirt ha
              cases hvirt
              exact h₄ a ha
            · intro v a hvirt ha
              cases hvirt
              exact hk a ha
            · intro v hvirt
              exact .inl ⟨h₆, h₇⟩
          · cases hrun
        · exact slabVirtualBump_spec hv h

end Lebirun.Slab
