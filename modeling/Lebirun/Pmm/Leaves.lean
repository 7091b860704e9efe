import Mathlib
import Lebirun.Pmm.Init
import Lebirun.Pmm.Search

namespace Lebirun.Pmm
set_option autoImplicit true

variable {m : MemMap} {ok : Nat → Bool} {s s' t : Pfa} {f g l : Nat}

section LeavesFrom

/-- Every leaf of `s'` that is none of `s` lies above the kernel and outside the reserved regions. -/
def LeavesFrom (m : MemMap) (s s' : Pfa) : Prop :=
  ∀ l, s'.IsLeaf l → s.IsLeaf l ∨ (m.kernelReservedFrames ≤ l ∧ m.frameIsReserved l = false)

theorem LeavesFrom.refl (s : Pfa) : LeavesFrom m s s := fun _ hl => .inl hl

theorem LeavesFrom.of_directory (h : s'.directory = s.directory) : LeavesFrom m s s' := by
  intro l hl
  rw [Pfa.IsLeaf, h] at hl
  exact .inl hl

theorem LeavesFrom.trans (h₁ : LeavesFrom m s t) (h₂ : LeavesFrom m t s') : LeavesFrom m s s' := by
  intro l hl
  rcases h₂ l hl with h | h
  · exact h₁ l h
  · exact .inr h

theorem candidate_unreserved (h : bitmapLeafCandidate m ok s c a b = some l) :
    m.kernelReservedFrames ≤ l ∧ m.frameIsReserved l = false := by
  have hmem := List.mem_of_find?_eq_some h
  have hp := List.find?_some h
  rw [List.mem_range'_1] at hmem
  simp only [decide_eq_true_eq] at hp
  exact ⟨hmem.1, by simpa using hp.2.2.1⟩

theorem ensureLeaf_leaves : LeavesFrom m s (bitmapEnsureLeaf m ok s f a b).2 := by
  rw [bitmapEnsureLeaf]
  split
  · exact .refl s
  dsimp only
  split
  · exact .refl s
  rename_i hd
  split
  · exact .refl s
  rename_i l hcand
  have hnew : ∀ t : Pfa, (∀ c, t.directory c = s.directory c ∨ t.directory c = 0 ∨ t.directory c = l) →
      LeavesFrom m s t := by
    rintro t ht g ⟨hg, c, hc⟩
    rcases ht c with h | h | h
    · exact .inl ⟨hg, c, h.symm.trans hc⟩
    · exact absurd (hc.symm.trans h) hg
    · rw [← hc.symm.trans h |>.symm]
      exact .inr (candidate_unreserved hcand)
  have hupdate : ∀ c v, Function.update s.directory (f / chunkFrames) v c = s.directory c ∨
      Function.update s.directory (f / chunkFrames) v c = v := by
    intro c v
    by_cases h : c = f / chunkFrames
    · right
      rw [h, Function.update_self]
    · left
      rw [Function.update_of_ne h]
  split
  · apply hnew
    intro c
    dsimp only
    rw [Function.update_idem]
    rcases hupdate c 0 with h | h
    · exact .inl h
    · exact .inr (.inl h)
  · apply hnew
    intro c
    rcases hupdate c l with h | h
    · exact .inl h
    · exact .inr (.inr h)

theorem prepareRange_go_leaves : LeavesFrom m s (bitmapPrepareRange.go m ok start count s fuel frame).2 := by
  induction fuel generalizing s frame with
  | zero => exact .refl s
  | succ fuel ih =>
    rw [bitmapPrepareRange.go]
    split
    · exact .refl s
    have hen : LeavesFrom m s (bitmapEnsureLeaf m ok s frame start (start + count)).2 := ensureLeaf_leaves
    cases hcase : bitmapEnsureLeaf m ok s frame start (start + count) with
    | mk r t =>
      rw [hcase] at hen
      cases r with
      | false => exact hen
      | true => exact hen.trans ih

theorem prepareRange_leaves : LeavesFrom m s (bitmapPrepareRange m ok s start count).2 := by
  rw [bitmapPrepareRange]
  split
  · exact .refl s
  · exact prepareRange_go_leaves

theorem setBit_leaves : LeavesFrom m s (setBit m ok s f) := by
  rw [setBit]
  split
  · exact .refl s
  have hen : LeavesFrom m s (bitmapEnsureLeaf m ok s f f (f + 1)).2 := ensureLeaf_leaves
  cases hcase : bitmapEnsureLeaf m ok s f f (f + 1) with
  | mk r t =>
    rw [hcase] at hen
    cases r with
    | false => exact hen
    | true =>
      dsimp only
      split
      · exact hen
      · exact hen.trans (.of_directory rfl)

theorem setBits_leaves (fs : List Nat) : LeavesFrom m s (fs.foldl (setBit m ok) s) := by
  induction fs generalizing s with
  | nil => exact .refl s
  | cons f fs ih => exact setBit_leaves.trans ih

theorem clearBit_directory (m : MemMap) (s : Pfa) (f : Nat) : (clearBit m s f).directory = s.directory := by
  rw [clearBit]
  split <;> rfl

theorem clearBits_directory (m : MemMap) (s : Pfa) (fs : List Nat) :
    (fs.foldl (clearBit m) s).directory = s.directory := by
  induction fs generalizing s with
  | nil => rfl
  | cons f fs ih => exact (ih (clearBit m s f)).trans (clearBit_directory m s f)

theorem takeRun_leaves : LeavesFrom m s (takeRun m ok s start num).2 := by
  have hprep : LeavesFrom m s (bitmapPrepareRange m ok s start num).2 := prepareRange_leaves
  rw [takeRun]
  cases hcase : bitmapPrepareRange m ok s start num with
  | mk r t =>
    rw [hcase] at hprep
    cases r with
    | false =>
      dsimp only
      exact hprep
    | true =>
      dsimp only
      apply hprep.trans
      apply (setBits_leaves (List.range' start num)).trans
      exact .of_directory rfl

theorem scanRun_leaves : LeavesFrom m s (scanRun m ok s num left frame run runStart).2 := by
  induction left generalizing frame run runStart with
  | zero => exact .refl s
  | succ left ih =>
    rw [scanRun]
    split
    · exact ih
    · dsimp only
      split
      · exact ih
      · exact takeRun_leaves

theorem scanRegion_leaves (h : scanRegion m ok s frameEnd left frame = some r) : LeavesFrom m s r.2 := by
  induction left generalizing frame with
  | zero => cases h
  | succ left ih =>
    rw [scanRegion] at h
    split at h
    · cases h
    dsimp only at h
    cases hl : bitmapGetLeaf m s frame with
    | none =>
      rw [hl] at h
      cases h
      exact takeRun_leaves
    | some l =>
      rw [hl] at h
      dsimp only at h
      generalize (if frameEnd < frame + (chunkFrames - frame % chunkFrames) then frameEnd
        else frame + (chunkFrames - frame % chunkFrames)) = chunkEnd at h
      split at h
      · exact ih h
      · cases h
        exact takeRun_leaves

theorem scanRegions_leaves : LeavesFrom m s (scanRegions m ok s lo hi rs).2 := by
  induction rs with
  | nil => exact .refl s
  | cons r rs ih =>
    rw [scanRegions]
    split
    · rename_i hfound
      exact scanRegion_leaves hfound
    · exact ih

theorem findRange_leaves : LeavesFrom m s (findFreeFramesRange m ok s lo hi num).2 := by
  rw [findFreeFramesRange]
  split
  · exact .refl s
  rename_i h
  rw [findFreeFramesBitmap, if_neg h]
  split
  · exact scanRun_leaves
  · exact scanRegions_leaves

theorem orElseRange_leaves (h : LeavesFrom m s r.2) : LeavesFrom m s (orElseRange m ok c lo hi num r).2 := by
  rw [orElseRange]
  split
  · exact h.trans findRange_leaves
  · exact h

theorem findFreeFrames_leaves : LeavesFrom m s (findFreeFrames m ok s num).2 := by
  rw [findFreeFrames]
  split
  · exact .refl s
  · apply orElseRange_leaves
    apply orElseRange_leaves
    apply orElseRange_leaves
    exact findRange_leaves

theorem directTurns_leaves : LeavesFrom m s (directTurns m ok stop num s left start).2 := by
  induction left generalizing s start with
  | zero => exact .refl s
  | succ left ih =>
    rw [directTurns]
    split
    · exact .refl s
    have hr : LeavesFrom m s (findFreeFramesRange m ok s start stop num).2 := findRange_leaves
    cases hcase : findFreeFramesRange m ok s start stop num with
    | mk result t =>
      rw [hcase] at hr
      dsimp only
      split
      · exact hr
      · split
        · exact hr
        · have hclear : LeavesFrom m t { (List.range' (result / pageSize) num).foldl (clearBit m) t with
              cachedFree := ((List.range' (result / pageSize) num).foldl (clearBit m) t).cachedFree + num } :=
            .of_directory (clearBits_directory m t _)
          exact hr.trans (hclear.trans ih)

theorem findDirectFrames_leaves : LeavesFrom m s (findDirectFrames m ok s stop num).2 := by
  rw [findDirectFrames]
  dsimp only
  generalize (if m.totalPagesManaged < _ then _ else _ : Nat) = stop'
  have h : LeavesFrom m s (directTurns m ok stop' num s (stop' - m.kernelReservedFrames)
      m.kernelReservedFrames).2 := directTurns_leaves
  exact h

theorem pageRegions_leaves : LeavesFrom m s (pageRegions m ok rs i s).2 := by
  induction rs generalizing s i with
  | nil => exact .refl s
  | cons r rs ih =>
    rw [pageRegions]
    dsimp only
    generalize (if s.bumpCurrent < r.base then _ else _ : Nat) = bump
    generalize (if m.totalPagesManaged < _ then _ else _ : Nat) = scanEnd
    split
    · have hr : LeavesFrom m s (findFreeFramesRange m ok
          { s with bumpCurrent := pageUp bump, activeRegion := i } (pageUp bump / pageSize) scanEnd 1).2 :=
        (LeavesFrom.of_directory rfl).trans findRange_leaves
      split
      · exact hr.trans (.of_directory rfl)
      · exact hr.trans ((LeavesFrom.of_directory rfl).trans ih)
    · exact (LeavesFrom.of_directory rfl).trans ih

theorem pmmAllocPage_leaves : LeavesFrom m s (pmmAllocPage m ok s).2 := by
  rw [pmmAllocPage]
  split
  · exact .refl s
  have h : LeavesFrom m s (pageRegions m ok (m.regions.drop s.activeRegion) s.activeRegion s).2 := pageRegions_leaves
  split
  rename_i addr t heq
  rw [heq] at h
  split
  · exact h
  · exact h.trans findFreeFrames_leaves

theorem mappedTurns_leaves : LeavesFrom m s (mappedTurns m ok s left start stop cold).2 := by
  induction left generalizing s start stop cold with
  | zero => exact .refl s
  | succ left ih =>
    rw [mappedTurns]
    have hr : LeavesFrom m s (findFreeFramesRange m ok s start stop 1).2 := findRange_leaves
    cases hcase : findFreeFramesRange m ok s start stop 1 with
    | mk phys t =>
      rw [hcase] at hr
      dsimp only
      split
      · split
        · exact hr
        · exact hr.trans ih
      · split
        · exact hr
        · have hclear : LeavesFrom m t { clearBit m t (phys / pageSize) with
              cachedFree := (clearBit m t (phys / pageSize)).cachedFree + 1 } :=
            .of_directory (clearBit_directory m t _)
          exact hr.trans (hclear.trans ih)

theorem pmmAllocMappedPage_leaves : LeavesFrom m s (pmmAllocMappedPage m ok s).2 := by
  rw [pmmAllocMappedPage]
  dsimp only
  generalize (if m.totalPagesManaged < _ then _ else _ : Nat) = stop
  have h : LeavesFrom m s (mappedTurns m ok s (stop + m.coldLowEndFrame + 2) m.kernelReservedFrames
      stop false).2 := mappedTurns_leaves
  exact h

theorem lowTurns_leaves : LeavesFrom m s (lowTurns m ok s left tryAddr).2 := by
  induction left generalizing s tryAddr with
  | zero => exact .of_directory rfl
  | succ left ih =>
    have hmove : ∀ a b, LeavesFrom m s (lowTurns m ok { s with lowBump := a } left b).2 := by
      intro a b
      have hsame : LeavesFrom m s { s with lowBump := a } := .of_directory rfl
      exact hsame.trans ih
    rw [lowTurns]
    split
    · exact .of_directory rfl
    split
    · dsimp only
      split
      · have hprep : LeavesFrom m s (bitmapPrepareRange m ok s (tryAddr / pageSize) 1).2 := prepareRange_leaves
        cases hcase : bitmapPrepareRange m ok s (tryAddr / pageSize) 1 with
        | mk r t =>
          rw [hcase] at hprep
          cases r with
          | false => exact hprep
          | true =>
            have hmoved : LeavesFrom m t { t with lowBump := tryAddr + pageSize } := .of_directory rfl
            dsimp only
            apply hprep.trans
            apply hmoved.trans
            apply (@setBit_leaves m ok _ (tryAddr / pageSize)).trans
            exact .of_directory rfl
      · exact hmove _ _
    · dsimp only
      split
      · exact .of_directory rfl
      · exact hmove _ _

theorem pmmAllocLowPage_leaves : LeavesFrom m s (pmmAllocLowPage m ok s).2 := by
  rw [pmmAllocLowPage]
  split
  · exact .refl s
  split
  · exact .refl s
  split
  · exact .refl s
  · exact lowTurns_leaves

theorem pfaFree_directory : (pfaFree m s physAddr released).directory = s.directory := by
  rw [pfaFree]
  split
  · rfl
  dsimp only
  split
  · rfl
  split
  · rfl
  split
  · exact clearBit_directory m s _
  · rfl

theorem freeTurns_directory : (freeTurns m left idx freed s).2.directory = s.directory := by
  induction left generalizing s idx freed with
  | zero => rfl
  | succ left ih =>
    rw [freeTurns]
    split
    · rfl
    split
    · exact ih
    split
    · exact ih
    split
    · rw [ih]
      exact clearBit_directory m s idx
    · exact ih

theorem pfaFreeContiguous_directory : (pfaFreeContiguous m s physAddr num).directory = s.directory := by
  rw [pfaFreeContiguous]
  split
  · rfl
  · dsimp only
    split
    · exact freeTurns_directory
    · exact freeTurns_directory

theorem exec_leaves (m : MemMap) (s : Pfa) (c : PfaCall) : LeavesFrom m s (c.exec m s).2 := by
  obtain ⟨op, ok⟩ := c
  cases op with
  | pfaAlloc => exact findFreeFrames_leaves
  | pmmAllocPage => exact pmmAllocPage_leaves
  | pmmAllocPages num =>
    rw [PfaCall.exec]
    dsimp only
    rw [pmmAllocPages]
    split
    · exact .refl s
    · exact findFreeFrames_leaves
  | pfaAllocContiguousBelow numFrames maxPhys =>
    rw [PfaCall.exec]
    dsimp only
    rw [pfaAllocContiguousBelow]
    split
    · exact .refl s
    · exact findDirectFrames_leaves
  | pmmAllocMappedPage => exact pmmAllocMappedPage_leaves
  | pmmAllocLowPage => exact pmmAllocLowPage_leaves
  | pfaFree physAddr released => exact .of_directory pfaFree_directory
  | pfaFreeContiguous physAddr numFrames => exact .of_directory pfaFreeContiguous_directory

end LeavesFrom

end Lebirun.Pmm
