import Mathlib
import Lebirun.Pmm.Leaves

namespace Lebirun.Pmm
set_option autoImplicit true

open Machine

variable {m : MemMap} {ok : Nat → Bool} {s s' t : Pfa} {f g l : Nat}

section SetBit

/-- `t` is `s` with some more frames marked. -/
structure MarksMore (m : MemMap) (s t : Pfa) : Prop where
  leaves : LeafInv m t
  keep : ∀ g, bitmapTestRaw m s g = true → bitmapTestRaw m t g = true
  kept : ∀ c, s.directory c ≠ 0 → t.directory c ≠ 0

theorem MarksMore.refl (h : LeafInv m s) : MarksMore m s s :=
  ⟨h, fun _ hg => hg, fun _ hc => hc⟩

theorem MarksMore.trans (h₁ : MarksMore m s s') (h₂ : MarksMore m s' t) : MarksMore m s t :=
  ⟨h₂.leaves, fun g hg => h₂.keep g (h₁.keep g hg), fun c hc => h₂.kept c (h₁.kept c hc)⟩

theorem NewLeaf.more (h : NewLeaf m s t l) : MarksMore m s t := by
  refine ⟨h.inv, ?_, h.kept⟩
  intro g hg
  rw [h.raw, hg, ite_self]

theorem orBit_more (hinv : LeafInv m s) (hlt : f < m.totalPagesManaged) (hd : s.directory (f / chunkFrames) ≠ 0) :
    MarksMore m s (s.orBit (s.directory (f / chunkFrames)) (f % chunkFrames)) := by
  have hraw := testRaw_orBit hinv.inj (getLeaf_some hlt hd)
  have hkeep : ∀ g, bitmapTestRaw m s g = true →
      bitmapTestRaw m (s.orBit (s.directory (f / chunkFrames)) (f % chunkFrames)) g = true := by
    intro g hg
    rw [hraw, hg, ite_self]
  refine ⟨?_, hkeep, fun _ hc => hc⟩
  apply hinv.congr (t := s.orBit _ _) rfl
  intro l hl
  rw [hkeep l (hinv.marked l hl).2.2, (hinv.marked l hl).2.2]

/-- `set_bit` marks its frame, and perhaps a new leaf, or finds no leaf and does nothing. -/
theorem setBit_cases (hk : 0 < m.totalPagesManaged → 0 < m.kernelReservedFrames) (hinv : LeafInv m s) :
    MarksMore m s (setBit m ok s f) ∧
      (setBit m ok s f = s ∧ (m.totalPagesManaged ≤ f ∨ s.directory (f / chunkFrames) = 0 ∧
          bitmapLeafCandidate m ok s (f / chunkFrames) f (f + 1) = none) ∨
        bitmapTestRaw m (setBit m ok s f) f = true ∧ (setBit m ok s f).directory (f / chunkFrames) ≠ 0) := by
  rw [setBit]
  split
  · rename_i hge
    exact ⟨.refl hinv, .inl ⟨rfl, .inl hge⟩⟩
  rename_i hge
  have hlt := Nat.not_le.1 hge
  cases hen : bitmapEnsureLeaf m ok s f f (f + 1) with
  | mk r t =>
    rcases ensureLeaf_cases hinv hk hen with ⟨rfl, hr, hfail⟩ | ⟨rfl, -, hd, l, hn, -⟩
    · cases r with
      | false =>
        rcases hfail rfl with h | h
        · exact absurd h hge
        · exact ⟨.refl hinv, .inl ⟨rfl, .inr h⟩⟩
      | true =>
        have hd := (hr rfl).2
        dsimp only
        rw [getLeaf_some hlt hd]
        dsimp only
        refine ⟨orBit_more hinv hlt hd, .inr ⟨?_, hd⟩⟩
        rw [testRaw_orBit hinv.inj (getLeaf_some hlt hd), if_pos rfl]
    · dsimp only
      rw [getLeaf_some hlt hd]
      dsimp only
      refine ⟨hn.more.trans (orBit_more hn.inv hlt hd), .inr ⟨?_, hd⟩⟩
      rw [testRaw_orBit hn.inv.inj (getLeaf_some hlt hd), if_pos rfl]

theorem setBit_more (hk : 0 < m.totalPagesManaged → 0 < m.kernelReservedFrames) (hinv : LeafInv m s) :
    MarksMore m s (setBit m ok s f) := (setBit_cases hk hinv).1

theorem setBits_more (hk : 0 < m.totalPagesManaged → 0 < m.kernelReservedFrames) (hinv : LeafInv m s)
    (fs : List Nat) : MarksMore m s (fs.foldl (setBit m ok) s) := by
  induction fs generalizing s with
  | nil => exact .refl hinv
  | cons f fs ih =>
    have hstep : MarksMore m s (setBit m ok s f) := setBit_more hk hinv
    exact hstep.trans (ih hstep.leaves)

/-- A frame whose chunk has a leaf, or can get one, is marked. -/
theorem setBit_found (hk : 0 < m.totalPagesManaged → 0 < m.kernelReservedFrames) (hinv : LeafInv m s)
    (hlt : f < m.totalPagesManaged)
    (hfound : s.directory (f / chunkFrames) ≠ 0 ∨ bitmapLeafCandidate m ok s (f / chunkFrames) f (f + 1) ≠ none) :
    bitmapTestRaw m (setBit m ok s f) f = true := by
  rcases (@setBit_cases m ok s f hk hinv).2 with ⟨-, h | ⟨hd, hc⟩⟩ | h
  · exact absurd hlt (Nat.not_lt.2 h)
  · rcases hfound with h | h
    · exact absurd hd h
    · exact absurd hc h
  · exact h.1

end SetBit

section MarkFrame

theorem markFrame_more (hk : 0 < m.totalPagesManaged → 0 < m.kernelReservedFrames) {p : Pfa × Nat}
    (hinv : LeafInv m p.1) : MarksMore m p.1 (markFrame m ok p f).1 := by
  rw [markFrame]
  split
  · exact setBit_more hk hinv
  · exact .refl hinv

theorem markFrames_more (hk : 0 < m.totalPagesManaged → 0 < m.kernelReservedFrames) {p : Pfa × Nat}
    (hinv : LeafInv m p.1) (fs : List Nat) : MarksMore m p.1 (fs.foldl (markFrame m ok) p).1 := by
  induction fs generalizing p with
  | nil => exact .refl hinv
  | cons f fs ih =>
    have hstep : MarksMore m p.1 (markFrame m ok p f).1 := markFrame_more hk hinv
    exact hstep.trans (ih hstep.leaves)

/-- A usable frame is marked by the turn it gets, when its chunk has a leaf or can get one. -/
theorem markFrame_found (hk : 0 < m.totalPagesManaged → 0 < m.kernelReservedFrames) {p : Pfa × Nat}
    (hinv : LeafInv m p.1) (hlt : f < m.totalPagesManaged) (hu : m.frameIsUsable f = true)
    (hfound : LeafFound m ok p.1 f) : bitmapTestRaw m (markFrame m ok p f).1 f = true := by
  rw [markFrame]
  split
  · exact setBit_found hk hinv hlt (hfound hlt hu)
  · rename_i h
    have hset : testBit m p.1 f = true := by
      by_contra hclear
      exact h ⟨hlt, by simpa using hclear⟩
    rw [testBit_usable hu hlt] at hset
    exact hset

theorem markFrame_leaves {p : Pfa × Nat} : LeavesFrom m p.1 (markFrame m ok p f).1 := by
  rw [markFrame]
  split
  · exact setBit_leaves
  · exact .refl p.1

theorem markFrames_leaves {p : Pfa × Nat} (fs : List Nat) :
    LeavesFrom m p.1 (fs.foldl (markFrame m ok) p).1 := by
  induction fs generalizing p with
  | nil => exact .refl p.1
  | cons f fs ih =>
    have hstep : LeavesFrom m p.1 (markFrame m ok p f).1 := markFrame_leaves
    exact hstep.trans ih

/-- Every usable frame of the list is marked at the end of the loop. -/
theorem markFrames_marked (hk : 0 < m.totalPagesManaged → 0 < m.kernelReservedFrames) {p : Pfa × Nat}
    (hinv : LeafInv m p.1) {fs : List Nat}
    (hfs : Along (markFrame m ok) (fun p f => LeafFound m ok p.1 f) p fs) (hf : f ∈ fs)
    (hlt : f < m.totalPagesManaged) (hu : m.frameIsUsable f = true) :
    bitmapTestRaw m (fs.foldl (markFrame m ok) p).1 f = true := by
  induction fs generalizing p with
  | nil => cases hf
  | cons g fs ih =>
    have hstep : MarksMore m p.1 (markFrame m ok p g).1 := markFrame_more hk hinv
    cases hf with
    | head => exact (markFrames_more hk hstep.leaves fs).keep f (markFrame_found hk hinv hlt hu hfs.1)
    | tail _ hf => exact ih hstep.leaves hfs.2 hf

end MarkFrame

section Boot

/-- The leaves the boot has made lie above the kernel and outside the reserved regions. -/
theorem pfaInit_leaves (b : Boot) : LeavesFrom b.memMap b.setup (pfaInit b ok) := by
  rw [pfaInit]
  split
  · exact .refl _
  · have hkernel : LeavesFrom b.memMap b.setup (b.kernelMarked ok) := setBits_leaves _
    have hmarks : LeavesFrom b.memMap (b.kernelMarked ok)
        (b.markedFrames.foldl (markFrame b.memMap ok) (b.kernelMarked ok, b.totalFree)).1 :=
      markFrames_leaves b.markedFrames
    have hstats : LeavesFrom b.memMap
        (b.markedFrames.foldl (markFrame b.memMap ok) (b.kernelMarked ok, b.totalFree)).1
        (pfaInitRamStats (b.markedFrames.foldl (markFrame b.memMap ok) (b.kernelMarked ok, b.totalFree))) :=
      .of_directory rfl
    exact hkernel.trans (hmarks.trans hstats)

theorem kernelMarked_more (b : Boot) : MarksMore b.memMap b.setup (b.kernelMarked ok) :=
  setBits_more (boot_mapOk b).reserved_pos (setup_leafInv b) _

theorem pfaInit_raw (b : Boot) (h0 : detectedMaxPhys b.regions ≠ 0) (g : Nat) :
    bitmapTestRaw b.memMap (pfaInit b ok) g =
      bitmapTestRaw b.memMap
        (b.markedFrames.foldl (markFrame b.memMap ok) (b.kernelMarked ok, b.totalFree)).1 g := by
  rw [pfaInit, if_neg h0]
  exact testRaw_congr rfl rfl g

/-- What `pfa_init` sets out to mark is marked. -/
theorem pfaInit_marked (b : Boot) (hinit : InitMarks b ok) (hf : f ∈ b.markedFrames)
    (hlt : f < b.memMap.totalPagesManaged) (hu : b.memMap.frameIsUsable f = true) :
    bitmapTestRaw b.memMap (pfaInit b ok) f = true := by
  have h0 : detectedMaxPhys b.regions ≠ 0 := by
    intro h0
    have htotal : b.memMap.totalPagesManaged = (0 + pageSize - 1) / pageSize := by
      rw [← h0]
      rfl
    rw [htotal] at hlt
    exact absurd hlt (Nat.not_lt_zero f)
  rw [pfaInit_raw b h0]
  exact markFrames_marked (boot_mapOk b).reserved_pos (kernelMarked_more b).leaves hinit.2 hf hlt hu

end Boot

end Lebirun.Pmm
