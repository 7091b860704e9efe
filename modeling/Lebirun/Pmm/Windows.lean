import Mathlib
import Lebirun.Pmm.Leaves

namespace Lebirun.Pmm
set_option autoImplicit true

open Machine

/-- The allocator with the windows below the kernel's end, which open while it runs. -/
structure Memory where
  map : MemMap
  pfa : Pfa

/-- One turn of the loops that clear the marked frames of a range and count them. -/
def clearMarked (m : MemMap) (test : Pfa → Nat → Bool) (p : Nat × Pfa) (frame : Nat) : Nat × Pfa :=
  if test p.2 frame then (p.1 + 1, clearBit m p.2 frame) else p

/-- `reserved` holds the regions of kind `RESERVED_REGION_MULTIBOOT_INFO`, the only one there is. -/
def pfaReleaseMultibootRange (w : Memory) (physStart physEnd : Nat) : Memory :=
  let m := w.map
  let startFrame := physStart / pageSize
  let endFrame := physEnd / pageSize
  if physStart % pageSize ≠ 0 ∨ physEnd % pageSize ≠ 0 ∨ physEnd ≤ physStart then w
  else if (physStart, physEnd) ∉ m.reserved then w
  else if m.totalPagesManaged < endFrame then w
  else if (List.range' startFrame (endFrame - startFrame)).any fun f => !m.frameIsUsable f then w
  else
    match (List.range' startFrame (endFrame - startFrame)).foldl (clearMarked m (bitmapTestRaw m)) (0, w.pfa) with
    | (freed, s) =>
      { map := { m with reserved := [] }
        pfa := { s with
          cachedFree := s.cachedFree + freed
          lastAllocHint := if freed ≠ 0 ∧ startFrame < s.lastAllocHint then startFrame else s.lastAllocHint } }

def pfaReleaseColdLowMemory (w : Memory) (physEnd : Nat) : Memory :=
  let m := w.map
  let endFrame := physEnd / pageSize
  let endFrame := if m.kernelReservedFrames < endFrame then m.kernelReservedFrames else endFrame
  if physEnd % pageSize ≠ 0 then w
  else if endFrame ≤ 1 then w
  else
    match (List.range' 1 (endFrame - 1)).foldl (clearMarked m fun s f =>
        m.frameIsUsable f && !m.frameIsReserved f && bitmapTestRaw m s f) (0, w.pfa) with
    | (freed, s) =>
      { map := { m with coldLowStartFrame := 1, coldLowEndFrame := endFrame }
        pfa := { s with cachedFree := s.cachedFree + freed } }

/-- The window of reclaimed kernel frames, widened by one of them. -/
def MemMap.reclaim (m : MemMap) (frame : Nat) : MemMap :=
  if frame < m.kernelReservedFrames then
    { m with
      kernelReclaimLo :=
        if m.kernelReclaimHi = 0 ∨ frame < m.kernelReclaimLo then frame else m.kernelReclaimLo
      kernelReclaimHi := if m.kernelReclaimHi ≤ frame then frame + 1 else m.kernelReclaimHi }
  else m

/-- One turn of the loop of `pfa_reclaim_kernel_range_internal`, with the number of frames cleared. -/
def reclaimFrame (p : Nat × Memory) (frame : Nat) : Nat × Memory :=
  if testBit p.2.map p.2.pfa frame then
    (p.1 + 1, ⟨p.2.map.reclaim frame, clearBit p.2.map p.2.pfa frame⟩)
  else p

def pfaReclaimKernelRange (w : Memory) (physStart physEnd : Nat) : Memory :=
  let physStart := pageUp physStart
  let physEnd := pageDown physEnd
  if physEnd ≤ physStart then w
  else
    let startFrame := physStart / pageSize
    let endFrame := physEnd / pageSize
    let endFrame := if w.map.totalPagesManaged < endFrame then w.map.totalPagesManaged else endFrame
    match (List.range' startFrame (endFrame - startFrame)).foldl reclaimFrame (0, w) with
    | (count, w) => { w with pfa := { w.pfa with cachedFree := w.pfa.cachedFree + count } }

inductive MemoryOp where
  | call (c : PfaCall)
  | pfaReleaseMultibootRange (physStart physEnd : Nat)
  | pfaReleaseColdLowMemory (physEnd : Nat)
  | pfaReclaimKernelRange (physStart physEnd : Nat)

def memoryStep (w : Memory) : MemoryOp → Memory
  | .call c => { w with pfa := (c.exec w.map w.pfa).2 }
  | .pfaReleaseMultibootRange physStart physEnd => Pmm.pfaReleaseMultibootRange w physStart physEnd
  | .pfaReleaseColdLowMemory physEnd => Pmm.pfaReleaseColdLowMemory w physEnd
  | .pfaReclaimKernelRange physStart physEnd => Pmm.pfaReclaimKernelRange w physStart physEnd

def Boot.memory (b : Boot) (ok : Nat → Bool) : Memory := ⟨b.memMap, pfaInit b ok⟩

/-- What is reclaimed are pieces of the kernel image and of the early heap, which lie above address 0. -/
def MemoryOp.AboveZero : MemoryOp → Prop
  | .pfaReclaimKernelRange physStart _ => 0 < physStart
  | _ => True

variable {m : MemMap} {w : Memory} {ok : Nat → Bool} {s : Pfa} {f : Nat}

section Fits

/-- A map with its two windows above frame 0. -/
structure WindowsFit (m : MemMap) : Prop extends MapFits m where
  cold : m.coldLowStartFrame < m.coldLowEndFrame → 0 < m.coldLowStartFrame
  reclaim : m.kernelReclaimHi ≠ 0 → 0 < m.kernelReclaimLo

theorem boot_windowsFit (b : Boot) : WindowsFit b.memMap := by
  constructor
  · refine ⟨boot_mapOk b, ?_, ?_⟩
    · intro r hr
      have hb := b.bounded r hr
      simp only [physicalAddressLimit] at hb
      omega
    · intro r hr
      have hb := b.bounded r hr
      have htop := detectedMaxPhys_ge b.bounded hr
      have hno : ¬ 2 ^ 64 - 1 - r.base < r.length := by
        rw [Region.limit] at hb
        simp only [physicalAddressLimit] at hb
        omega
      show r.endFrame ≤ (detectedMaxPhys b.regions + pageSize - 1) / pageSize
      rw [Region.endFrame, if_neg hno]
      simp only [pageSize]
      omega
  · intro h
    exact absurd h (Nat.lt_irrefl 0)
  · intro h
    exact absurd rfl h

theorem WindowsFit.reclaimed (h : WindowsFit m) (hf : 0 < f) : WindowsFit (m.reclaim f) := by
  rw [MemMap.reclaim]
  split
  · refine ⟨⟨⟨h.reserved_pos, h.total_lt⟩, h.limit, h.managed⟩, h.cold, ?_⟩
    intro _
    show 0 < if m.kernelReclaimHi = 0 ∨ f < m.kernelReclaimLo then f else m.kernelReclaimLo
    split
    · exact hf
    · rename_i hkeep
      exact h.reclaim (not_or.1 hkeep).1
  · exact h

theorem reclaimFrames_fit (fs : List Nat) (hfs : ∀ f ∈ fs, 0 < f) (h : WindowsFit p.2.map) :
    WindowsFit (fs.foldl reclaimFrame p).2.map := by
  induction fs generalizing p with
  | nil => exact h
  | cons f fs ih =>
    apply ih fun g hg => hfs g (List.mem_cons_of_mem _ hg)
    rw [reclaimFrame]
    split
    · exact h.reclaimed (hfs f List.mem_cons_self)
    · exact h

theorem memoryStep_fit (op : MemoryOp) (h : WindowsFit w.map) (hop : op.AboveZero) :
    WindowsFit (memoryStep w op).map := by
  cases op with
  | call c => exact h
  | pfaReleaseMultibootRange physStart physEnd =>
    rw [memoryStep, Pmm.pfaReleaseMultibootRange]
    dsimp only
    split
    · exact h
    split
    · exact h
    split
    · exact h
    split
    · exact h
    · exact ⟨⟨⟨h.reserved_pos, h.total_lt⟩, h.limit, h.managed⟩, h.cold, h.reclaim⟩
  | pfaReleaseColdLowMemory physEnd =>
    rw [memoryStep, Pmm.pfaReleaseColdLowMemory]
    dsimp only
    generalize (if w.map.kernelReservedFrames < _ then _ else _ : Nat) = endFrame
    split
    · exact h
    split
    · exact h
    · exact ⟨⟨⟨h.reserved_pos, h.total_lt⟩, h.limit, h.managed⟩, fun _ => Nat.one_pos, h.reclaim⟩
  | pfaReclaimKernelRange physStart physEnd =>
    rw [memoryStep, Pmm.pfaReclaimKernelRange]
    dsimp only
    split
    · exact h
    · apply reclaimFrames_fit _ _ h
      intro f hf
      have hstart : 0 < pageUp physStart / pageSize := by
        have hpos : 0 < physStart := hop
        simp only [pageUp, pageSize]
        omega
      exact hstart.trans_le (List.mem_range'_1.1 hf).1

end Fits

section Complete

/-- `f` lies in one of the ranges `find_free_frames` looks at. -/
def MemMap.Searched (m : MemMap) (f : Nat) : Prop :=
  m.kernelReservedFrames ≤ f ∧ f < m.totalPagesManaged ∨
    m.coldLowStartFrame ≤ f ∧ f < m.coldLowEndFrame ∨
    m.kernelReclaimLo ≤ f ∧ f < m.kernelReclaimHi

/-- A chain of searches so far: it found something, or it left the state alone and nothing is clear in
`seen`. -/
def SoFar (m : MemMap) (s : Pfa) (seen : Nat → Prop) (r : Nat × Pfa) : Prop :=
  (r = (0, s) ∧ ∀ f, seen f → testBit m s f = true) ∨ r.1 ≠ 0

theorem range_soFar (hm : MapFits m) (hob : Obtainable m ok s) (hlo : 0 < lo) :
    SoFar m s (fun f => lo ≤ f ∧ f < hi) (findFreeFramesRange m ok s lo hi 1) := by
  rcases @range_complete m ok s lo hi hm hob hlo with ⟨hr, hclear⟩ | hne
  · left
    refine ⟨hr, ?_⟩
    intro f hf
    by_contra hb
    have htest : testBit m s f = false := by simpa using hb
    exact hb (hclear f hf.1 hf.2 (testBit_false htest).2.1)
  · exact .inr hne

theorem SoFar.orElseRange (hm : MapFits m) (hob : Obtainable m ok s) (h : SoFar m s seen r)
    (hlo : c = true → 0 < lo) (hc : ∀ f, lo ≤ f → f < hi → c = true) :
    SoFar m s (fun f => seen f ∨ lo ≤ f ∧ f < hi) (orElseRange m ok c lo hi 1 r) := by
  rw [Pmm.orElseRange]
  rcases h with ⟨rfl, hclear⟩ | hne
  · split
    · rename_i hcond
      rcases @range_soFar m ok s lo hi hm hob (hlo hcond.2) with ⟨hr, hrest⟩ | hne
      · left
        refine ⟨hr, ?_⟩
        intro f hf
        rcases hf with hf | hf
        · exact hclear f hf
        · exact hrest f hf
      · exact .inr hne
    · rename_i hcond
      left
      refine ⟨rfl, ?_⟩
      intro f hf
      rcases hf with hf | hf
      · exact hclear f hf
      · exact absurd ⟨rfl, hc f hf.1 hf.2⟩ hcond
  · rw [if_neg fun hcond => hne hcond.1]
    exact .inr hne

theorem findFreeFrames_complete (hm : WindowsFit m) (hob : Obtainable m ok s) (hs : m.Searched f)
    (hclear : testBit m s f = false) : (findFreeFrames m ok s 1).1 ≠ 0 := by
  have hlt := (testBit_false hclear).1
  have hpos := hm.reserved_pos (Nat.zero_lt_of_lt hlt)
  rw [findFreeFrames, if_neg Nat.one_ne_zero]
  dsimp only
  generalize hstart : (if m.totalPagesManaged ≤ (if s.lastAllocHint < m.kernelReservedFrames then
    m.kernelReservedFrames else s.lastAllocHint) then m.kernelReservedFrames else
    if s.lastAllocHint < m.kernelReservedFrames then m.kernelReservedFrames else s.lastAllocHint) = start
  have hge : m.kernelReservedFrames ≤ start := by
    rw [← hstart]
    split <;> split <;> omega
  have hfirst : SoFar m s (fun g => start ≤ g ∧ g < m.totalPagesManaged)
      (findFreeFramesRange m ok s start m.totalPagesManaged 1) :=
    range_soFar hm.toMapFits hob (hpos.trans_le hge)
  have hwrap := hfirst.orElseRange hm.toMapFits hob (c := decide (m.kernelReservedFrames < start))
    (fun _ => hpos) (fun g h1 (h2 : g < start) => decide_eq_true (h1.trans_lt h2))
  have hcold := hwrap.orElseRange hm.toMapFits hob (c := decide (m.coldLowStartFrame < m.coldLowEndFrame))
    (fun h => hm.cold (of_decide_eq_true h))
    (fun g h1 (h2 : g < m.coldLowEndFrame) => decide_eq_true (h1.trans_lt h2))
  have hall := hcold.orElseRange hm.toMapFits hob (c := decide (m.kernelReclaimLo < m.kernelReclaimHi))
    (fun h => hm.reclaim (Nat.ne_zero_of_lt (of_decide_eq_true h)))
    (fun g h1 (h2 : g < m.kernelReclaimHi) => decide_eq_true (h1.trans_lt h2))
  rcases hall with ⟨-, hset⟩ | hne
  · exfalso
    have hseen := hset f (by
      rcases hs with h | h | h
      · by_cases hfs : start ≤ f
        · exact .inl (.inl (.inl ⟨hfs, h.2⟩))
        · exact .inl (.inl (.inr ⟨h.1, Nat.not_le.1 hfs⟩))
      · exact .inl (.inr h)
      · exact .inr h)
    rw [hclear] at hseen
    cases hseen
  · exact hne

theorem scan_firstClear (hm : MapFits m) :
    findFreeFramesBitmap m ok s lo hi 1 =
      match firstClear m s lo hi m.regions with
      | none => (0, s)
      | some f => takeRun m ok s f 1 := by
  rw [findFreeFramesBitmap]
  split
  · rename_i h
    have hnone : firstClear m s lo hi m.regions = none := by
      rw [Option.eq_none_iff_forall_ne_some]
      intro f hf
      obtain ⟨h1, h2, -⟩ := firstClear_some hf
      omega
    rw [hnone]
  · rw [if_neg (not_not.2 rfl)]
    exact scanRegions_eq hm fun _ hr => hr

/-- The search for one frame returns the first clear frame of the first region that has one, when a leaf can
be had. -/
theorem scan_obtainable (hm : MapFits m) (hob : Obtainable m ok s) :
    (findFreeFramesBitmap m ok s lo hi 1).1 =
      ((firstClear m s lo hi m.regions).map (· * pageSize)).getD 0 := by
  rw [scan_firstClear hm]
  cases hfirst : firstClear m s lo hi m.regions with
  | none => rfl
  | some f =>
    have hlt := (testBit_false (firstClear_some hfirst).2.2).1
    dsimp only
    rw [takeRun_obtainable hm.toMapOk hlt]
    · rfl
    · by_cases hd : s.directory (f / chunkFrames) = 0
      · exact .inr (hob f hlt hd)
      · exact .inl hd

/-- In every run from `pfa_init`, a search for one frame gives the first clear one, and `pfa_alloc` finds a
frame wherever one of its ranges has a clear one and a leaf can be had. -/
theorem pfaAlloc_complete (b : Boot) (ok₀ : Nat → Bool) (ops : List MemoryOp)
    (h : Along memoryStep (fun _ op => op.AboveZero) (b.memory ok₀) ops) :
    let w := ops.foldl memoryStep (b.memory ok₀)
    ∀ ok : Nat → Bool,
      (∀ lo hi, findFreeFramesBitmap w.map ok w.pfa lo hi 1 =
        match firstClear w.map w.pfa lo hi w.map.regions with
        | none => (0, w.pfa)
        | some f => takeRun w.map ok w.pfa f 1) ∧
      (Obtainable w.map ok w.pfa →
        (∀ lo hi, (findFreeFramesBitmap w.map ok w.pfa lo hi 1).1 =
          ((firstClear w.map w.pfa lo hi w.map.regions).map (· * pageSize)).getD 0) ∧
        ((∃ f, w.map.Searched f ∧ testBit w.map w.pfa f = false) → (pfaAlloc w.map ok w.pfa).1 ≠ 0)) := by
  have hfit : WindowsFit (ops.foldl memoryStep (b.memory ok₀)).map :=
    h.invariant (I := fun w => WindowsFit w.map) (fun _ op hw hop => memoryStep_fit op hw hop) (boot_windowsFit b)
  intro w ok
  refine ⟨fun lo hi => scan_firstClear hfit.toMapFits, ?_⟩
  intro hob
  refine ⟨fun lo hi => scan_obtainable hfit.toMapFits hob, ?_⟩
  rintro ⟨f, hs, hclear⟩
  exact findFreeFrames_complete hfit hob hs hclear

theorem pfaAlloc_complete_small :
    let w := memoryStep (smallBoot.memory fun _ => true) (.call ⟨.pfaAlloc, fun _ => true⟩)
    (pfaAlloc w.map (fun _ => true) w.pfa).1 ≠ 0 := by
  have hall := pfaAlloc_complete smallBoot (fun _ => true) [.call ⟨.pfaAlloc, fun _ => true⟩] ⟨trivial, trivial⟩
    fun _ => true
  apply (hall.2 _).2
  · refine ⟨4, .inl ?_, ?_⟩
    · decide +kernel
    · decide +kernel
  · intro f hf hd
    have htotal : f < 16 := hf
    rw [Nat.div_eq_of_lt (htotal.trans (by decide))] at hd
    exact absurd hd (by decide +kernel)

end Complete

end Lebirun.Pmm
