import Mathlib
import Lebirun.Pmm.Marks
import Lebirun.Pmm.Windows

namespace Lebirun.Pmm
set_option autoImplicit true

open Machine

variable {m : MemMap} {w : Memory} {ok : Nat → Bool} {s s' t : Pfa} {f g l : Nat}

section Clearing

/-- A loop that has cleared frames and not yet added them to the counter. -/
structure Owed (m : MemMap) (p : Nat × Pfa) : Prop where
  leaves : LeafInv m p.2
  count : p.2.cachedFree + p.1 = (freeSet m p.2).card

theorem Exact.owed (h : Exact m s) : Owed m (0, s) := ⟨h.leaves, h.count⟩

theorem Owed.exact (h : Owed m p) (hd : t.directory = p.2.directory) (hl : t.leaf = p.2.leaf)
    (hc : t.cachedFree = p.2.cachedFree + p.1) : Exact m t := by
  have hraw := testRaw_congr (m := m) hd hl
  refine ⟨h.leaves.congr hd fun l _ => hraw l, ?_⟩
  rw [freeSet_congr hraw, hc, h.count]

theorem isLeaf_congr (h : t.directory = s.directory) : t.IsLeaf l ↔ s.IsLeaf l := by
  rw [Pfa.IsLeaf, Pfa.IsLeaf, h]

/-- The frames such a loop clears are usable, marked and no leaves. -/
def ClearsOnly (m : MemMap) (s : Pfa) (test : Pfa → Nat → Bool) (f : Nat) : Prop :=
  ∀ t : Pfa, t.directory = s.directory → test t f = true →
    f < m.totalPagesManaged ∧ m.frameIsUsable f = true ∧ bitmapTestRaw m t f = true ∧ ¬s.IsLeaf f

theorem clearMarked_owed (h : Owed m p) (htest : ClearsOnly m p.2 test f) :
    Owed m (clearMarked m test p f) ∧ (clearMarked m test p f).2.directory = p.2.directory ∧
      ∀ g, (∀ t, test t g = false) →
        bitmapTestRaw m (clearMarked m test p f).2 g = bitmapTestRaw m p.2 g := by
  rw [clearMarked]
  split
  · rename_i hf
    obtain ⟨hlt, hu, hset, hl⟩ := htest p.2 rfl hf
    obtain ⟨hd, hc, hraw, hinv⟩ := clearBit_spec h.leaves hset hl
    refine ⟨⟨hinv, ?_⟩, hd, ?_⟩
    · have hnew : f ∉ freeSet m p.2 := by
        intro hmem
        rw [(mem_freeSet.1 hmem).2.2] at hset
        cases hset
      have hcount := h.count
      dsimp only
      rw [hc, freeSet_clear hlt hu hraw, Finset.card_insert_of_notMem hnew]
      omega
    · intro g hg
      dsimp only
      rw [hraw, if_neg]
      rintro rfl
      rw [hg p.2] at hf
      cases hf
  · exact ⟨h, rfl, fun _ _ => rfl⟩

theorem clearMarked_fold {fs : List Nat} (h : Owed m p) (htest : ∀ f ∈ fs, ClearsOnly m p.2 test f) :
    Owed m (fs.foldl (clearMarked m test) p) ∧ (fs.foldl (clearMarked m test) p).2.directory = p.2.directory ∧
      ∀ g, (g ∉ fs ∨ ∀ t, test t g = false) →
        bitmapTestRaw m (fs.foldl (clearMarked m test) p).2 g = bitmapTestRaw m p.2 g := by
  induction fs generalizing p with
  | nil => exact ⟨h, rfl, fun _ _ => rfl⟩
  | cons f fs ih =>
    obtain ⟨howed, hd, hraw⟩ := clearMarked_owed h (htest f List.mem_cons_self)
    have hrest : ∀ g ∈ fs, ClearsOnly m (clearMarked m test p f).2 test g := by
      intro g hg t ht hc
      obtain ⟨h1, h2, h3, h4⟩ := htest g (List.mem_cons_of_mem _ hg) t (ht.trans hd) hc
      exact ⟨h1, h2, h3, fun hl => h4 ((isLeaf_congr hd).1 hl)⟩
    obtain ⟨howed', hd', hraw'⟩ := ih howed hrest
    refine ⟨howed', hd'.trans hd, ?_⟩
    intro g hg
    rw [List.foldl_cons, hraw' g (hg.imp_left fun h hmem => h (List.mem_cons_of_mem _ hmem))]
    rcases hg with hg | hg
    · -- `g` is not the frame of this turn
      have hne : g ≠ f := fun hgf => hg (hgf ▸ List.mem_cons_self)
      rw [clearMarked]
      split
      · rename_i hf
        obtain ⟨-, -, hset, hl⟩ := htest f List.mem_cons_self p.2 rfl hf
        dsimp only
        rw [(clearBit_spec h.leaves hset hl).2.2.1, if_neg hne]
      · rfl
    · exact hraw g hg

/-- The loop that reclaims kernel frames clears as the others do, and only moves the window of reclaimed
frames of the map. -/
theorem reclaimFrames_eq (fs : List Nat) (n lo hi : Nat) (s : Pfa) :
    ∃ lo' hi', fs.foldl reclaimFrame (n, ⟨{ m with kernelReclaimLo := lo, kernelReclaimHi := hi }, s⟩) =
      ((fs.foldl (clearMarked m (testBit m)) (n, s)).1,
        ⟨{ m with kernelReclaimLo := lo', kernelReclaimHi := hi' },
          (fs.foldl (clearMarked m (testBit m)) (n, s)).2⟩) := by
  induction fs generalizing n lo hi s with
  | nil => exact ⟨lo, hi, rfl⟩
  | cons f fs ih =>
    have hstep : ∃ lo' hi',
        reclaimFrame (n, ⟨{ m with kernelReclaimLo := lo, kernelReclaimHi := hi }, s⟩) f =
          ((clearMarked m (testBit m) (n, s) f).1,
            ⟨{ m with kernelReclaimLo := lo', kernelReclaimHi := hi' },
              (clearMarked m (testBit m) (n, s) f).2⟩) := by
      have hsame : testBit { m with kernelReclaimLo := lo, kernelReclaimHi := hi } s f = testBit m s f := rfl
      rw [reclaimFrame, clearMarked]
      dsimp only
      rw [hsame]
      by_cases hset : testBit m s f = true
      · rw [if_pos hset, if_pos hset, MemMap.reclaim]
        split
        · exact ⟨_, _, rfl⟩
        · exact ⟨lo, hi, rfl⟩
      · rw [if_neg hset, if_neg hset]
        exact ⟨lo, hi, rfl⟩
    obtain ⟨lo', hi', heq⟩ := hstep
    rw [List.foldl_cons, List.foldl_cons, heq]
    exact ih _ lo' hi' _

end Clearing

section Legal

/-- Callers free only what is no leaf of the bitmap, and reclaim usable frames of the kernel's own. -/
def MemoryOp.Legal (w : Memory) : MemoryOp → Prop
  | .call c => FreesOwn ⟨w.pfa, []⟩ c
  | .pfaReclaimKernelRange physStart physEnd =>
    0 < physStart ∧ ∀ f, pageUp physStart / pageSize ≤ f → f < pageDown physEnd / pageSize →
      f < w.map.totalPagesManaged →
        w.map.frameIsUsable f = true ∧ w.map.frameIsReserved f = false ∧ ¬w.pfa.IsLeaf f
  | _ => True

theorem MemoryOp.Legal.aboveZero {op : MemoryOp} (h : op.Legal w) : op.AboveZero := by
  cases op with
  | call c => trivial
  | pfaReleaseMultibootRange physStart physEnd => trivial
  | pfaReleaseColdLowMemory physEnd => trivial
  | pfaReclaimKernelRange physStart physEnd => exact h.1

/-- The regions `init_mem_map` reserves are whole pages. -/
def Boot.ReservedAligned (b : Boot) : Prop := ∀ r ∈ b.reserved, r.1 % pageSize = 0 ∧ r.2 % pageSize = 0

/-- The counter is exact, no leaf lies in the kernel or in reserved memory, and reserved memory is marked. -/
structure MemoryInv (w : Memory) : Prop where
  exact : Exact w.map w.pfa
  fit : WindowsFit w.map
  high : ∀ l, w.pfa.IsLeaf l → w.map.kernelReservedFrames ≤ l ∧ w.map.frameIsReserved l = false
  reserved : ∀ f < w.map.totalPagesManaged, w.map.frameIsUsable f = true → w.map.frameIsReserved f = true →
    bitmapTestRaw w.map w.pfa f = true

/-- The bitmap does not depend on the windows. -/
theorem Exact.of_map {m' : MemMap} (h : Exact m s) (hr : m'.regions = m.regions)
    (ht : m'.totalPagesManaged = m.totalPagesManaged) : Exact m' s := by
  obtain ⟨regions, reserved, total, kres, clo, chi, rlo, rhi⟩ := m
  obtain ⟨regions', reserved', total', kres', clo', chi', rlo', rhi'⟩ := m'
  obtain rfl : regions' = regions := hr
  obtain rfl : total' = total := ht
  exact ⟨⟨h.leaves.marked, h.leaves.inj⟩, h.count⟩

theorem lowTurns_took (hm : MapOk m) (he : Exact m s) : Took m s (lowTurns m ok s left tryAddr).2 [] := by
  induction left generalizing s tryAddr with
  | zero => exact he.congr rfl rfl rfl
  | succ left ih =>
    have hmove : ∀ a b, Took m s (lowTurns m ok { s with lowBump := a } left b).2 [] := by
      intro a b
      have hsame : Took m s { s with lowBump := a } [] := he.congr rfl rfl rfl
      exact hsame.trans (ih hsame.exact)
    rw [lowTurns]
    split
    · exact he.congr rfl rfl rfl
    split
    · dsimp only
      split
      · rename_i hidx
        have hbit : testBit m s (tryAddr / pageSize) = false := by simpa using hidx.2
        obtain ⟨hlt, hu, hc⟩ := testBit_false hbit
        cases hp : bitmapPrepareRange m ok s (tryAddr / pageSize) 1 with
        | mk r t =>
          obtain ⟨hprep, hdir⟩ := prepareRange_spec hm.reserved_pos he hp
          cases r with
          | false => exact hprep.took
          | true =>
            have ht : Took m s { t with lowBump := tryAddr + pageSize } [] := hprep.took.congr rfl rfl rfl
            have hclear : bitmapTestRaw m { t with lowBump := tryAddr + pageSize } (tryAddr / pageSize) = false := by
              calc
                _ = bitmapTestRaw m t (tryAddr / pageSize) := testRaw_congr rfl rfl _
                _ = bitmapTestRaw m s (tryAddr / pageSize) := hprep.same _ le_rfl (Nat.lt_succ_self _)
                _ = false := hc
            have hset := setBit_took ok hm ht.exact hlt hu hclear (hdir rfl _ le_rfl (Nat.lt_succ_self _)) (t := {
              setBit m ok { t with lowBump := tryAddr + pageSize } (tryAddr / pageSize) with
              cachedFree := sub64 (setBit m ok { t with lowBump := tryAddr + pageSize }
                (tryAddr / pageSize)).cachedFree 1 }) rfl rfl rfl
            exact ht.trans hset.none
      · exact hmove _ _
    · dsimp only
      split
      · exact he.congr rfl rfl rfl
      · exact hmove _ _

/-- Every call but the freeing ones only takes. -/
theorem PfaCall.took (hm : MapOk m) (he : Exact m s) {c : PfaCall}
    (hfree : ∀ physAddr n, c.op ≠ .pfaFree physAddr n ∧ c.op ≠ .pfaFreeContiguous physAddr n) :
    Took m s (c.exec m s).2 [] := by
  obtain ⟨op, ok⟩ := c
  by_cases hlow : op = .pmmAllocLowPage
  · subst hlow
    show Took m s (pmmAllocLowPage m ok s).2 []
    rw [pmmAllocLowPage]
    split
    · exact .refl he
    split
    · exact .refl he
    split
    · exact .refl he
    · exact lowTurns_took hm he
  · exact (PfaCall.alloc hm he (fun h => absurd h hlow) hfree).none

theorem Took.reserved_marked (h : Took m s s' fs)
    (hr : ∀ f < m.totalPagesManaged, m.frameIsUsable f = true → m.frameIsReserved f = true →
      bitmapTestRaw m s f = true) :
    ∀ f < m.totalPagesManaged, m.frameIsUsable f = true → m.frameIsReserved f = true →
      bitmapTestRaw m s' f = true :=
  fun f h1 h2 h3 => h.keep f (hr f h1 h2 h3)

theorem Gave.reserved_marked (h : Gave m s s' fs) (hfs : ∀ f ∈ fs, ¬m.frameIsReserved f = true)
    (hr : ∀ f < m.totalPagesManaged, m.frameIsUsable f = true → m.frameIsReserved f = true →
      bitmapTestRaw m s f = true) :
    ∀ f < m.totalPagesManaged, m.frameIsUsable f = true → m.frameIsReserved f = true →
      bitmapTestRaw m s' f = true := by
  intro f h1 h2 h3
  rw [h.raw, if_neg fun hmem => hfs f hmem h3]
  exact hr f h1 h2 h3

theorem pfaFreed_unreserved (h : f ∈ pfaFreed m s physAddr released) : ¬m.frameIsReserved f = true := by
  rw [pfaFreed] at h
  split at h
  · rename_i hc
    rw [List.mem_singleton.1 h]
    have hfree := hc.2.1
    rw [MemMap.freeable, decide_eq_true_eq] at hfree
    exact hfree.2.2.2
  · cases h

theorem call_inv (h : MemoryInv w) (hlegal : FreesOwn ⟨w.pfa, []⟩ c) :
    MemoryInv (memoryStep w (.call c)) := by
  have hhigh : ∀ l, (c.exec w.map w.pfa).2.IsLeaf l →
      w.map.kernelReservedFrames ≤ l ∧ w.map.frameIsReserved l = false := by
    intro l hl
    rcases exec_leaves w.map w.pfa c l hl with hl | hl
    · exact h.high l hl
    · exact hl
  have htook : (∀ physAddr n, c.op ≠ .pfaFree physAddr n ∧ c.op ≠ .pfaFreeContiguous physAddr n) →
      MemoryInv (memoryStep w (.call c)) := by
    intro hop
    have ht := PfaCall.took h.fit.toMapOk h.exact hop
    exact ⟨ht.exact, h.fit, hhigh, ht.reserved_marked h.reserved⟩
  obtain ⟨op, ok⟩ := c
  cases op with
  | pfaFree physAddr released =>
    have hg : Gave w.map w.pfa (pfaFree w.map w.pfa physAddr released) _ := pfaFree_gave h.exact hlegal
    exact ⟨hg.exact, h.fit, hhigh, hg.reserved_marked (fun f hf => pfaFreed_unreserved hf) h.reserved⟩
  | pfaFreeContiguous physAddr numFrames =>
    have hg : Gave w.map w.pfa (pfaFreeContiguous w.map w.pfa physAddr numFrames) _ :=
      pfaFreeContiguous_gave h.exact hlegal
    refine ⟨hg.exact, h.fit, hhigh, hg.reserved_marked ?_ h.reserved⟩
    intro f hf
    split at hf
    · exact (mem_contiguousFreed.1 hf).2.2.2.2.1
    · cases hf
  | _ => exact htook fun _ _ => ⟨nofun, nofun⟩

theorem frameIsReserved_of_mem (h : (a, b) ∈ m.reserved) (ha : a % pageSize = 0) (hb : b % pageSize = 0)
    (h1 : a / pageSize ≤ f) (h2 : f < b / pageSize) : m.frameIsReserved f = true := by
  rw [MemMap.frameIsReserved, List.any_eq_true]
  refine ⟨(a, b), h, decide_eq_true ?_⟩
  simp only [pageSize] at *
  omega

theorem releaseMultiboot_inv (h : MemoryInv w) : MemoryInv (pfaReleaseMultibootRange w a b) := by
  rw [pfaReleaseMultibootRange]
  dsimp only
  split
  · exact h
  rename_i halign
  split
  · exact h
  rename_i hmem
  split
  · exact h
  rename_i htot
  split
  · exact h
  rename_i husable
  obtain ⟨ha, hb, -⟩ : a % pageSize = 0 ∧ b % pageSize = 0 ∧ a < b := by
    obtain ⟨h1, h2⟩ := not_or.1 halign
    obtain ⟨h2, h3⟩ := not_or.1 h2
    exact ⟨not_not.1 h1, not_not.1 h2, Nat.not_le.1 h3⟩
  have hclears : ∀ f ∈ List.range' (a / pageSize) (b / pageSize - a / pageSize),
      ClearsOnly w.map w.pfa (bitmapTestRaw w.map) f := by
    intro f hf t _ hset
    obtain ⟨h1, h2⟩ := List.mem_range'_1.1 hf
    have hu : w.map.frameIsUsable f = true := by
      by_contra hu
      exact husable (List.any_eq_true.2 ⟨f, hf, by simpa using hu⟩)
    have hres := frameIsReserved_of_mem (not_not.1 hmem) ha hb h1 (by omega)
    refine ⟨by omega, hu, hset, ?_⟩
    intro hl
    rw [(h.high f hl).2] at hres
    cases hres
  obtain ⟨howed, hd, -⟩ := clearMarked_fold h.exact.owed hclears
  refine ⟨?_, ?_, ?_, ?_⟩
  · apply Exact.of_map (m := w.map)
    · exact howed.exact rfl rfl rfl
    · rfl
    · rfl
  · exact ⟨⟨⟨h.fit.reserved_pos, h.fit.total_lt⟩, h.fit.limit, h.fit.managed⟩, h.fit.cold, h.fit.reclaim⟩
  · intro l hl
    exact ⟨(h.high l ((isLeaf_congr hd).1 hl)).1, rfl⟩
  · intro f _ _ hres
    cases hres

theorem releaseColdLow_inv (h : MemoryInv w) : MemoryInv (pfaReleaseColdLowMemory w b) := by
  rw [pfaReleaseColdLowMemory]
  dsimp only
  generalize hend : (if w.map.kernelReservedFrames < _ then _ else _ : Nat) = endFrame
  have hkres : endFrame ≤ w.map.kernelReservedFrames := by
    rw [← hend]
    split <;> omega
  split
  · exact h
  split
  · exact h
  have hclears : ∀ f ∈ List.range' 1 (endFrame - 1), ClearsOnly w.map w.pfa
      (fun s f => w.map.frameIsUsable f && !w.map.frameIsReserved f && bitmapTestRaw w.map s f) f := by
    intro f hf t _ htest
    obtain ⟨h1, h2⟩ := List.mem_range'_1.1 hf
    simp only [Bool.and_eq_true, Bool.not_eq_true'] at htest
    obtain ⟨⟨hu, -⟩, hset⟩ := htest
    have hlt : f < w.map.totalPagesManaged := by
      by_contra hge
      have hnone : bitmapGetLeaf w.map t f = none := if_pos (Nat.not_lt.1 hge)
      rw [testRaw_none hnone] at hset
      cases hset
    refine ⟨hlt, hu, hset, ?_⟩
    intro hl
    have hge := (h.high f hl).1
    omega
  obtain ⟨howed, hd, hraw⟩ := clearMarked_fold h.exact.owed hclears
  refine ⟨?_, ?_, ?_, ?_⟩
  · apply Exact.of_map (m := w.map)
    · exact howed.exact rfl rfl rfl
    · rfl
    · rfl
  · exact ⟨⟨⟨h.fit.reserved_pos, h.fit.total_lt⟩, h.fit.limit, h.fit.managed⟩, fun _ => Nat.one_pos, h.fit.reclaim⟩
  · intro l hl
    exact h.high l ((isLeaf_congr hd).1 hl)
  · intro f hlt hu hres
    have hsame := hraw f (.inr fun t => by
      have hres' : w.map.frameIsReserved f = true := hres
      rw [hres']
      simp)
    exact hsame.trans (h.reserved f hlt hu hres)

theorem reclaim_inv (h : MemoryInv w) (hlegal : (MemoryOp.pfaReclaimKernelRange a b).Legal w) :
    MemoryInv (pfaReclaimKernelRange w a b) := by
  have hfit : WindowsFit (pfaReclaimKernelRange w a b).map :=
    memoryStep_fit (.pfaReclaimKernelRange a b) h.fit hlegal.aboveZero
  obtain ⟨-, hrange⟩ := hlegal
  obtain ⟨m, s⟩ := w
  rw [pfaReclaimKernelRange] at hfit ⊢
  dsimp only at hfit ⊢
  split
  · exact h
  rename_i hne
  rw [if_neg hne] at hfit
  generalize hend : (if m.totalPagesManaged < _ then _ else _ : Nat) = endFrame at hfit ⊢
  have hle : endFrame ≤ m.totalPagesManaged ∧ endFrame ≤ pageDown b / pageSize := by
    rw [← hend]
    split <;> omega
  obtain ⟨lo, hi, heq⟩ := reclaimFrames_eq (m := m)
    (List.range' (pageUp a / pageSize) (endFrame - pageUp a / pageSize)) 0 m.kernelReclaimLo m.kernelReclaimHi s
  have hin : ∀ f ∈ List.range' (pageUp a / pageSize) (endFrame - pageUp a / pageSize),
      f < m.totalPagesManaged ∧ m.frameIsUsable f = true ∧ m.frameIsReserved f = false ∧ ¬s.IsLeaf f := by
    intro f hf
    obtain ⟨h1, h2⟩ := List.mem_range'_1.1 hf
    have hlt : f < m.totalPagesManaged := by omega
    exact ⟨hlt, hrange f h1 (by omega) hlt⟩
  have hclears : ∀ f ∈ List.range' (pageUp a / pageSize) (endFrame - pageUp a / pageSize),
      ClearsOnly m s (testBit m) f := by
    intro f hf t _ htest
    obtain ⟨hlt, hu, -, hl⟩ := hin f hf
    rw [testBit_usable hu hlt] at htest
    exact ⟨hlt, hu, htest, hl⟩
  obtain ⟨howed, hd, hraw⟩ := clearMarked_fold h.exact.owed hclears
  rw [heq] at hfit ⊢
  dsimp only at hfit ⊢
  refine ⟨?_, hfit, ?_, ?_⟩
  · apply Exact.of_map (m := m)
    · exact howed.exact rfl rfl rfl
    · rfl
    · rfl
  · intro l hl
    exact h.high l ((isLeaf_congr hd).1 hl)
  · intro f hlt hu hres
    have hsame := hraw f (.inl fun hf => by
      have hres' := (hin f hf).2.2.1
      have hres'' : m.frameIsReserved f = true := hres
      rw [hres''] at hres'
      cases hres')
    exact hsame.trans (h.reserved f hlt hu hres)

theorem memoryStep_inv {op : MemoryOp} (h : MemoryInv w) (hlegal : op.Legal w) : MemoryInv (memoryStep w op) := by
  cases op with
  | call c => exact call_inv h hlegal
  | pfaReleaseMultibootRange physStart physEnd => exact releaseMultiboot_inv h
  | pfaReleaseColdLowMemory physEnd => exact releaseColdLow_inv h
  | pfaReclaimKernelRange physStart physEnd => exact reclaim_inv h hlegal

theorem boot_memoryInv (b : Boot) (hinit : InitMarks b ok) (halign : b.ReservedAligned) :
    MemoryInv (b.memory ok) := by
  refine ⟨pfaInit_exact b hinit, boot_windowsFit b, ?_, ?_⟩
  · intro l hl
    rcases pfaInit_leaves b l hl with ⟨hl0, c, hc⟩ | h
    · exact absurd hc.symm hl0
    · exact h
  · intro f hlt hu hres
    apply pfaInit_marked b hinit _ hlt hu
    have hany : b.reserved.any (fun r => r.1 ≤ f * pageSize ∧ f * pageSize < r.2) = true := hres
    rw [List.any_eq_true] at hany
    obtain ⟨r, hr, hin⟩ := hany
    obtain ⟨h1, h2⟩ := of_decide_eq_true hin
    obtain ⟨ha, hb⟩ := halign r hr
    rw [Boot.markedFrames, List.mem_append]
    left
    rw [List.mem_flatMap]
    refine ⟨r, hr, List.mem_range'_1.2 ?_⟩
    simp only [pageSize] at *
    omega

theorem memory_run_inv (b : Boot) (hinit : InitMarks b ok) (halign : b.ReservedAligned) {ops : List MemoryOp}
    (hops : Along memoryStep (fun w op => op.Legal w) (b.memory ok) ops) :
    MemoryInv (ops.foldl memoryStep (b.memory ok)) :=
  hops.invariant (fun _ _ hw hop => memoryStep_inv hw hop) (boot_memoryInv b hinit halign)

end Legal

end Lebirun.Pmm
