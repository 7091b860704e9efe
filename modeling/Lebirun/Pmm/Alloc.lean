import Mathlib
import Lebirun.Pmm.Frames

namespace Lebirun.Pmm
set_option autoImplicit true

abbrev lowPageLimit : Nat := 0x800000
abbrev heapStart : Nat := 0xFFFFFFFFC0000000
abbrev kernelVma : Nat := 0xFFFFFFFF80000000

def pageUp (addr : Nat) : Nat := (addr + 0xFFF) / pageSize * pageSize

def pfaAlloc (m : MemMap) (ok : Nat → Bool) (s : Pfa) : Nat × Pfa := findFreeFrames m ok s 1

def pmmAllocPages (m : MemMap) (ok : Nat → Bool) (s : Pfa) (num : Nat) : Nat × Pfa :=
  if num = 0 then (0, s) else findFreeFrames m ok s num

def pfaAllocContiguousBelow (m : MemMap) (ok : Nat → Bool) (s : Pfa) (numFrames maxPhys : Nat) :
    Nat × Pfa :=
  if numFrames = 0 ∨ maxPhys = 0 then (0, s)
  else findDirectFrames m ok s (maxPhys / pageSize) numFrames

/-- The loop of `pmm_alloc_page` over the regions from `i` on. -/
def pageRegions (m : MemMap) (ok : Nat → Bool) : List Region → Nat → Pfa → Nat × Pfa
  | [], _, s => (0, s)
  | r :: rs, i, s =>
    let bump := if s.bumpCurrent < r.base then r.base + 0x1000 else s.bumpCurrent
    let bump := pageUp bump
    let next := (rs.head?.map Region.base).getD 0
    if bump + 4096 ≤ r.limit then
      let s := { s with bumpCurrent := bump, activeRegion := i }
      let scanEnd := r.limit / pageSize
      let scanEnd := if m.totalPagesManaged < scanEnd then m.totalPagesManaged else scanEnd
      match findFreeFramesRange m ok s (bump / pageSize) scanEnd 1 with
      | (allocStart, s) =>
        if allocStart ≠ 0 then (allocStart, { s with bumpCurrent := allocStart + pageSize })
        else pageRegions m ok rs (i + 1) { s with bumpCurrent := next }
    else pageRegions m ok rs (i + 1) { s with bumpCurrent := next }

def pmmAllocPage (m : MemMap) (ok : Nat → Bool) (s : Pfa) : Nat × Pfa :=
  if m.regions = [] then (0, s)
  else
    match pageRegions m ok (m.regions.drop s.activeRegion) s.activeRegion s with
    | (addr, s) => if addr ≠ 0 then (addr, s) else findFreeFrames m ok s 1

/-- The turns of `pmm_alloc_mapped_page`, first above the kernel, then over the cold range. -/
def mappedTurns (m : MemMap) (ok : Nat → Bool) (s : Pfa) : Nat → Nat → Nat → Bool → Nat × Pfa
  | 0, _, _, _ => (0, s)
  | left + 1, start, stop, cold =>
    match findFreeFramesRange m ok s start stop 1 with
    | (phys, s) =>
      if phys = 0 then
        if cold then (0, s)
        else mappedTurns m ok s left m.coldLowStartFrame m.coldLowEndFrame true
      else if ok phys then (phys, s)
      else
        let s := clearBit m s (phys / pageSize)
        mappedTurns m ok { s with cachedFree := s.cachedFree + 1 } left (phys / pageSize + 1) stop
          cold

def pmmAllocMappedPage (m : MemMap) (ok : Nat → Bool) (s : Pfa) : Nat × Pfa :=
  let savedHint := s.lastAllocHint
  let stop := (heapStart - kernelVma) / pageSize
  let stop := if m.totalPagesManaged < stop then m.totalPagesManaged else stop
  -- each turn but two moves the start of its range on
  match mappedTurns m ok s (stop + m.coldLowEndFrame + 2) m.kernelReservedFrames stop false with
  | (phys, s) => (phys, { s with lastAllocHint := savedHint })

/-- The lowest region base above `tryAddr` and below the limit, 0 when there is none. -/
def nextStart (m : MemMap) (tryAddr : Nat) : Nat :=
  m.regions.foldl (fun next r =>
    if tryAddr < r.base ∧ r.base < lowPageLimit ∧ (next = 0 ∨ r.base < next) then r.base
    else next) 0

/-- The loop of `pmm_alloc_low_page`; every turn that goes on raises `tryAddr`. -/
def lowTurns (m : MemMap) (ok : Nat → Bool) (s : Pfa) : Nat → Nat → Nat × Pfa
  | 0, _ => (0, { s with lowExhausted := true })
  | left + 1, tryAddr =>
    if lowPageLimit ≤ tryAddr then (0, { s with lowExhausted := true })
    else if m.regions.any fun r => r.base ≤ tryAddr ∧ tryAddr + pageSize ≤ r.limit then
      let idx := tryAddr / pageSize
      if idx < m.totalPagesManaged ∧ !testBit m s idx then
        match bitmapPrepareRange m ok s idx 1 with
        | (false, s) => (0, s)
        | (true, s) =>
          let s := setBit m ok { s with lowBump := tryAddr + pageSize } idx
          (tryAddr, { s with cachedFree := sub64 s.cachedFree 1 })
      else
        lowTurns m ok { s with lowBump := tryAddr + pageSize } left (tryAddr + pageSize)
    else
      let next := nextStart m tryAddr
      if next = 0 then (0, { s with lowExhausted := true })
      else lowTurns m ok { s with lowBump := next } left next

def pmmAllocLowPage (m : MemMap) (ok : Nat → Bool) (s : Pfa) : Nat × Pfa :=
  if m.regions = [] then (0, s)
  else if s.lowBump = 0 then (0, s)
  else if s.lowExhausted then (0, s)
  else lowTurns m ok s lowPageLimit (pageUp s.lowBump)

/-- `released` is what `refht_release` returns: the owners the frame still has. -/
def pfaFree (m : MemMap) (s : Pfa) (physAddr released : Nat) : Pfa :=
  if physAddr % pageSize ≠ 0 then s
  else
    let idx := physAddr / pageSize
    if !m.freeable idx then s
    else if 0 < released then s
    else if testBit m s idx then
      let s := clearBit m s idx
      { s with
        lastAllocHint := if idx < s.lastAllocHint then idx else s.lastAllocHint
        cachedFree := s.cachedFree + 1 }
    else s

/-- The loop of `pfa_free_contiguous`, with the number of frames freed. -/
def freeTurns (m : MemMap) : Nat → Nat → Nat → Pfa → Nat × Pfa
  | 0, _, freed, s => (freed, s)
  | left + 1, idx, freed, s =>
    if m.totalPagesManaged ≤ idx then (freed, s)
    else if idx < m.kernelReservedFrames ∧
        (idx < m.coldLowStartFrame ∨ m.coldLowEndFrame ≤ idx) then
      freeTurns m left (idx + 1) freed s
    else if !m.frameIsUsable idx ∨ m.frameIsReserved idx then freeTurns m left (idx + 1) freed s
    else if testBit m s idx then
      let s := clearBit m s idx
      freeTurns m left (idx + 1) (freed + 1) { s with cachedFree := s.cachedFree + 1 }
    else freeTurns m left (idx + 1) freed s

def pfaFreeContiguous (m : MemMap) (s : Pfa) (physAddr numFrames : Nat) : Pfa :=
  if physAddr % pageSize ≠ 0 ∨ numFrames = 0 then s
  else
    let startIdx := physAddr / pageSize
    match freeTurns m numFrames startIdx 0 s with
    | (freed, s) =>
      if freed ≠ 0 ∧ startIdx < s.lastAllocHint then { s with lastAllocHint := startIdx } else s

variable {m : MemMap} {ok : Nat → Bool} {s s' : Pfa} {f g l : Nat}

theorem Alloc.congr {t : Pfa} (h : Alloc m s num r) (hd : t.directory = r.2.directory)
    (hl : t.leaf = r.2.leaf) (hc : t.cachedFree = r.2.cachedFree) : Alloc m s num (r.1, t) :=
  Took.congr h hd hl hc

theorem Exact.congr {t : Pfa} (h : Exact m s) (hd : t.directory = s.directory)
    (hl : t.leaf = s.leaf) (hc : t.cachedFree = s.cachedFree) : Took m s t [] :=
  (Took.refl h).congr hd hl hc

theorem pageRegions_alloc (hm : MapOk m) (he : Exact m s) :
    Alloc m s 1 (pageRegions m ok rs i s) := by
  induction rs generalizing s i with
  | nil => exact Took.refl he
  | cons r rs ih =>
    -- a turn that finds nothing leaves the bitmap to the next region
    have hnext : ∀ t u : Pfa, Took m s t [] → u.directory = t.directory → u.leaf = t.leaf →
        u.cachedFree = t.cachedFree → Alloc m s 1 (pageRegions m ok rs (i + 1) u) := by
      intro t u ht hd hl hc
      have hu := ht.congr hd hl hc
      exact hu.trans (ih hu.exact)
    rw [pageRegions]
    dsimp only
    generalize (if s.bumpCurrent < r.base then _ else _ : Nat) = bump
    generalize (if m.totalPagesManaged < _ then _ else _ : Nat) = scanEnd
    split
    · have hs : Took m s { s with bumpCurrent := pageUp bump, activeRegion := i } [] :=
        he.congr rfl rfl rfl
      have hfound : Alloc m s 1 (findFreeFramesRange m ok
          { s with bumpCurrent := pageUp bump, activeRegion := i } (pageUp bump / pageSize)
          scanEnd 1) := hs.trans (findFreeFramesRange_found hm hs.exact).alloc
      split
      · exact hfound.congr rfl rfl rfl
      · rename_i h0
        rw [Alloc, not_not.1 h0] at hfound
        exact hnext _ _ hfound rfl rfl rfl
    · exact hnext _ _ (.refl he) rfl rfl rfl

theorem pmmAllocPage_alloc (hm : MapOk m) (he : Exact m s) : Alloc m s 1 (pmmAllocPage m ok s) := by
  rw [pmmAllocPage]
  split
  · exact Took.refl he
  have h : Alloc m s 1 (pageRegions m ok (m.regions.drop s.activeRegion) s.activeRegion s) :=
    pageRegions_alloc hm he
  split
  rename_i addr t heq
  rw [heq] at h
  split
  · exact h
  · rename_i h0
    rw [Alloc, not_not.1 h0] at h
    exact h.trans (findFreeFrames_alloc hm h.exact)

theorem mappedTurns_alloc (hm : MapOk m) (he : Exact m s) :
    Alloc m s 1 (mappedTurns m ok s left start stop cold) := by
  induction left generalizing s start stop cold with
  | zero => exact Took.refl he
  | succ left ih =>
    rw [mappedTurns]
    have hfound : Found m s start 1 (findFreeFramesRange m ok s start stop 1) :=
      findFreeFramesRange_found hm he
    cases hf : findFreeFramesRange m ok s start stop 1 with
    | mk phys t =>
      rw [hf] at hfound
      dsimp only
      split
      · split
        · exact hfound.alloc.none
        · have ht : Took m s t [] := hfound.alloc.none
          exact ht.trans (ih ht.exact)
      · rename_i hne
        split
        · exact hfound.alloc
        · rcases hfound with ⟨h0, -⟩ | ⟨f, -, ha, ht⟩
          · exact absurd h0 hne
          · have hdiv : phys / pageSize = f := by
              rw [show phys = f * pageSize from ha, Nat.mul_div_cancel _ (by decide)]
            rw [hdiv]
            have hback := ht.giveBack (t := { clearBit m t f with
              cachedFree := (clearBit m t f).cachedFree + 1 }) rfl rfl rfl
            exact hback.trans (ih hback.exact)

theorem pmmAllocMappedPage_alloc (hm : MapOk m) (he : Exact m s) :
    Alloc m s 1 (pmmAllocMappedPage m ok s) := by
  rw [pmmAllocMappedPage]
  dsimp only
  generalize (if m.totalPagesManaged < _ then _ else _ : Nat) = stop
  have h : Alloc m s 1 (mappedTurns m ok s (stop + m.coldLowEndFrame + 2) m.kernelReservedFrames
      stop false) := mappedTurns_alloc hm he
  exact h.congr rfl rfl rfl

theorem nextStart_cases (m : MemMap) (tryAddr : Nat) :
    nextStart m tryAddr = 0 ∨ ∃ r ∈ m.regions, nextStart m tryAddr = r.base ∧
      tryAddr < r.base ∧ r.base < lowPageLimit := by
  have hfold : ∀ (rs : List Region) (next : Nat),
      let res := rs.foldl (fun next r =>
        if tryAddr < r.base ∧ r.base < lowPageLimit ∧ (next = 0 ∨ r.base < next) then r.base
        else next) next
      res = next ∨ ∃ r ∈ rs, res = r.base ∧ tryAddr < r.base ∧ r.base < lowPageLimit := by
    intro rs
    induction rs with
    | nil =>
      intro next
      exact .inl rfl
    | cons r rs ih =>
      intro next
      rw [List.foldl_cons]
      rcases ih (if tryAddr < r.base ∧ r.base < lowPageLimit ∧ (next = 0 ∨ r.base < next) then r.base
        else next) with h | ⟨r', hr', h⟩
      · split at h
        · rename_i hc
          exact .inr ⟨r, List.mem_cons_self, by rwa [if_pos hc], hc.1, hc.2.1⟩
        · rename_i hc
          rw [if_neg hc]
          exact .inl h
      · exact .inr ⟨r', List.mem_cons_of_mem _ hr', h⟩
  exact hfold m.regions 0

/-- No region that begins above `addr` and below the limit of the low pages begins inside a page. -/
def LowAligned (m : MemMap) (addr : Nat) : Prop :=
  ∀ r ∈ m.regions, addr < r.base → r.base < lowPageLimit → r.base % pageSize = 0

theorem LowAligned.mono (h : LowAligned m a) (hle : a ≤ b) : LowAligned m b :=
  fun r hr hb => h r hr (hle.trans_lt hb)

theorem setBit_took (ok : Nat → Bool) {t : Pfa} (hm : MapOk m) (he : Exact m s)
    (hlt : f < m.totalPagesManaged) (hu : m.frameIsUsable f = true)
    (hclear : bitmapTestRaw m s f = false) (hdir : s.directory (f / chunkFrames) ≠ 0)
    (hd : t.directory = (setBit m ok s f).directory) (hl : t.leaf = (setBit m ok s f).leaf)
    (hc : t.cachedFree = sub64 (setBit m ok s f).cachedFree 1) : Took m s t [f] := by
  have hd' : t.directory = ((List.range' f 1).foldl (setBit m ok) s).directory := hd
  have hl' : t.leaf = ((List.range' f 1).foldl (setBit m ok) s).leaf := hl
  apply took_setBits ok hm he _ hd' hl' hc
  intro g h1 h2
  have hg : g = f := by omega
  rw [hg]
  exact ⟨hlt, hu, hclear, hdir⟩

/-- The pages of an address at a page boundary are the frame it names. -/
theorem framesOf_aligned (h : a % pageSize = 0) (ha : a ≠ 0) : framesOf a 1 = [a / pageSize] := by
  have hmul : a / pageSize * pageSize = a := Nat.div_mul_cancel (Nat.dvd_of_mod_eq_zero h)
  have hne : a / pageSize ≠ 0 := by
    intro h0
    rw [h0, Nat.zero_mul] at hmul
    exact ha hmul.symm
  have hframes := framesOf_mul (a / pageSize) 1
  rw [hmul, if_neg hne] at hframes
  exact hframes

theorem lowTurns_alloc (hm : MapOk m) (he : Exact m s) (hlow : LowAligned m tryAddr)
    (halign : tryAddr % pageSize = 0) : Alloc m s 1 (lowTurns m ok s left tryAddr) := by
  induction left generalizing s tryAddr with
  | zero => exact he.congr rfl rfl rfl
  | succ left ih =>
    rw [lowTurns]
    split
    · exact he.congr rfl rfl rfl
    split
    · dsimp only
      split
      · rename_i hidx
        have hbit : testBit m s (tryAddr / pageSize) = false := by simpa using hidx.2
        obtain ⟨hlt, hu, hc⟩ := testBit_false hbit
        cases hp : bitmapPrepareRange m ok s (tryAddr / pageSize) 1 with
        | mk r t =>
          obtain ⟨hprep, hdir⟩ := prepareRange_spec hm.reserved_pos he hp
          cases r with
          | false => exact hprep.took
          | true =>
            have ht : Took m s { t with lowBump := tryAddr + pageSize } [] :=
              hprep.took.congr rfl rfl rfl
            have hclear : bitmapTestRaw m { t with lowBump := tryAddr + pageSize }
                (tryAddr / pageSize) = false := by
              calc
                _ = bitmapTestRaw m t (tryAddr / pageSize) := testRaw_congr rfl rfl _
                _ = bitmapTestRaw m s (tryAddr / pageSize) :=
                  hprep.same _ le_rfl (Nat.lt_succ_self _)
                _ = false := hc
            have htook := ht.trans (setBit_took ok hm ht.exact hlt hu hclear
              (hdir rfl _ le_rfl (Nat.lt_succ_self _)) (t := {
                setBit m ok { t with lowBump := tryAddr + pageSize } (tryAddr / pageSize) with
                cachedFree := sub64 (setBit m ok { t with lowBump := tryAddr + pageSize }
                  (tryAddr / pageSize)).cachedFree 1 }) rfl rfl rfl)
            by_cases h0 : tryAddr = 0
            · subst h0
              exact htook.none
            · show Took m s _ (framesOf tryAddr 1)
              rw [framesOf_aligned halign h0]
              exact htook
      · have ht : Took m s { s with lowBump := tryAddr + pageSize } [] := he.congr rfl rfl rfl
        apply ht.trans
        apply ih ht.exact
        · exact hlow.mono (Nat.le_add_right _ _)
        · rw [Nat.add_mod_right]
          exact halign
    · dsimp only
      split
      · exact he.congr rfl rfl rfl
      · rename_i hne
        have ht : Took m s { s with lowBump := nextStart m tryAddr } [] := he.congr rfl rfl rfl
        apply ht.trans
        rcases nextStart_cases m tryAddr with h0 | ⟨r, hr, hb, hlt, hlim⟩
        · exact absurd h0 hne
        · rw [hb] at ht ⊢
          exact ih ht.exact (hlow.mono hlt.le) (hlow r hr hlt hlim)

theorem pmmAllocLowPage_alloc (hm : MapOk m) (he : Exact m s)
    (hlow : s.lowBump ≠ 0 → LowAligned m (pageUp s.lowBump)) :
    Alloc m s 1 (pmmAllocLowPage m ok s) := by
  rw [pmmAllocLowPage]
  split
  · exact Took.refl he
  split
  · exact Took.refl he
  rename_i h0
  split
  · exact Took.refl he
  · exact lowTurns_alloc hm he (hlow h0) (Nat.mul_mod_left _ _)

/-- A freeing step: `fs` are the frames whose bits it cleared. -/
structure Gave (m : MemMap) (s s' : Pfa) (fs : List Nat) : Prop where
  exact : Exact m s'
  leaf : ∀ l, s'.IsLeaf l → s.IsLeaf l
  raw : ∀ f, bitmapTestRaw m s' f = if f ∈ fs then false else bitmapTestRaw m s f

theorem Gave.refl (h : Exact m s) : Gave m s s [] :=
  ⟨h, fun _ hl => hl, fun _ => (if_neg List.not_mem_nil).symm⟩

theorem Gave.trans {t : Pfa} (h₁ : Gave m s t fs) (h₂ : Gave m t s' gs) :
    Gave m s s' (fs ++ gs) := by
  refine ⟨h₂.exact, fun l hl => h₁.leaf l (h₂.leaf l hl), ?_⟩
  intro f
  rw [h₂.raw, h₁.raw]
  by_cases hf : f ∈ fs <;> by_cases hg : f ∈ gs <;> simp [hf, hg]

theorem Gave.congr {t : Pfa} (h : Gave m s s' fs) (hd : t.directory = s'.directory)
    (hl : t.leaf = s'.leaf) (hc : t.cachedFree = s'.cachedFree) : Gave m s t fs := by
  have ht := h.exact.congr hd hl hc
  refine ⟨ht.exact, ?_, ?_⟩
  · intro l hl
    apply h.leaf l
    rwa [Pfa.IsLeaf, hd] at hl
  · intro f
    rw [testRaw_congr hd hl, h.raw]

theorem testBit_usable (hu : m.frameIsUsable f = true) (hlt : f < m.totalPagesManaged) :
    testBit m s f = bitmapTestRaw m s f := by
  rw [testBit, if_neg (Nat.not_le.2 hlt), hu]
  rfl

theorem clearBit_gave {t : Pfa} (he : Exact m s) (hlt : f < m.totalPagesManaged)
    (hu : m.frameIsUsable f = true) (hset : bitmapTestRaw m s f = true) (hl : ¬s.IsLeaf f)
    (htd : t.directory = (clearBit m s f).directory) (htl : t.leaf = (clearBit m s f).leaf)
    (htc : t.cachedFree = (clearBit m s f).cachedFree + 1) : Gave m s t [f] := by
  obtain ⟨hd, hc, hraw, hinv⟩ := clearBit_spec he.leaves hset hl
  have hraw' := testRaw_congr (m := m) htd htl
  refine ⟨⟨hinv.congr htd fun l _ => hraw' l, ?_⟩, ?_, ?_⟩
  · rw [freeSet_congr hraw', htc, hc, he.count, freeSet_clear hlt hu hraw,
      Finset.card_insert_of_notMem]
    intro hmem
    rw [(mem_freeSet.1 hmem).2.2] at hset
    cases hset
  · intro l hl
    rwa [Pfa.IsLeaf, htd, hd] at hl
  · intro g
    rw [hraw', hraw]
    exact if_congr List.mem_singleton.symm rfl rfl

/-- The frames that `pfa_free` gives back. -/
def pfaFreed (m : MemMap) (s : Pfa) (physAddr released : Nat) : List Nat :=
  if physAddr % pageSize = 0 ∧ m.freeable (physAddr / pageSize) ∧ released = 0 ∧
      bitmapTestRaw m s (physAddr / pageSize) then [physAddr / pageSize]
  else []

theorem pfaFree_gave (he : Exact m s) (hl : ¬s.IsLeaf (physAddr / pageSize)) :
    Gave m s (pfaFree m s physAddr released) (pfaFreed m s physAddr released) := by
  rw [pfaFree, pfaFreed]
  split
  · rename_i h
    rw [if_neg fun hc => h hc.1]
    exact .refl he
  rename_i halign
  dsimp only
  split
  · rename_i h
    rw [if_neg fun hc => by simp [hc.2.1] at h]
    exact .refl he
  rename_i hfree
  have hfree : m.freeable (physAddr / pageSize) = true := by simpa using hfree
  have hf := hfree
  rw [MemMap.freeable, decide_eq_true_eq] at hf
  rw [testBit_usable hf.2.2.1 hf.1]
  by_cases hrel : 0 < released
  · rw [if_pos hrel, if_neg fun hc => hrel.ne' hc.2.2.1]
    exact .refl he
  rw [if_neg hrel]
  by_cases hset : bitmapTestRaw m s (physAddr / pageSize) = true
  · have hall : physAddr % pageSize = 0 ∧ m.freeable (physAddr / pageSize) = true ∧
        released = 0 ∧ bitmapTestRaw m s (physAddr / pageSize) = true :=
      ⟨not_not.1 halign, hfree, Nat.eq_zero_of_not_pos hrel, hset⟩
    rw [if_pos hset, if_pos hall]
    exact clearBit_gave he hf.1 hf.2.2.1 hset hl rfl rfl rfl
  · rw [if_neg hset, if_neg fun hc => hset hc.2.2.2]
    exact .refl he

/-- The frames among `num` from `idx` on that `pfa_free_contiguous` gives back. -/
def contiguousFreed (m : MemMap) (s : Pfa) (idx num : Nat) : List Nat :=
  (List.range' idx num).filter fun f =>
    f < m.totalPagesManaged ∧
      ¬(f < m.kernelReservedFrames ∧ (f < m.coldLowStartFrame ∨ m.coldLowEndFrame ≤ f)) ∧
      m.frameIsUsable f ∧ ¬m.frameIsReserved f ∧ bitmapTestRaw m s f

theorem Gave.of_mem (h : Gave m s s' fs) (hmem : ∀ f, f ∈ fs ↔ f ∈ gs) : Gave m s s' gs :=
  ⟨h.exact, h.leaf, fun f => (h.raw f).trans (if_congr (hmem f) rfl rfl)⟩

theorem mem_contiguousFreed :
    f ∈ contiguousFreed m s idx num ↔ (idx ≤ f ∧ f < idx + num) ∧ f < m.totalPagesManaged ∧
      ¬(f < m.kernelReservedFrames ∧ (f < m.coldLowStartFrame ∨ m.coldLowEndFrame ≤ f)) ∧
      m.frameIsUsable f = true ∧ ¬m.frameIsReserved f = true ∧ bitmapTestRaw m s f = true := by
  rw [contiguousFreed, List.mem_filter, List.mem_range'_1, decide_eq_true_eq]

theorem freeTurns_gave (he : Exact m s)
    (hl : ∀ f, idx ≤ f → f < idx + left → ¬s.IsLeaf f) :
    Gave m s (freeTurns m left idx freed s).2 (contiguousFreed m s idx left) := by
  induction left generalizing s idx freed with
  | zero => exact .refl he
  | succ left ih =>
    -- what is left of the range after `idx` was passed over
    have hskip : ∀ freed, idx ∉ contiguousFreed m s idx (left + 1) →
        Gave m s (freeTurns m left (idx + 1) freed s).2 (contiguousFreed m s idx (left + 1)) := by
      intro freed hnot
      apply (ih he fun f h1 h2 => hl f (by omega) (by omega)).of_mem
      intro f
      rw [mem_contiguousFreed, mem_contiguousFreed]
      constructor
      · rintro ⟨h, h'⟩
        exact ⟨by omega, h'⟩
      · rintro ⟨h, h'⟩
        have hne : f ≠ idx := by
          rintro rfl
          exact hnot (mem_contiguousFreed.2 ⟨h, h'⟩)
        exact ⟨by omega, h'⟩
    rw [freeTurns]
    split
    · rename_i htot
      apply (Gave.refl he).of_mem
      intro f
      rw [mem_contiguousFreed]
      constructor
      · exact fun h => absurd h List.not_mem_nil
      · intro h
        omega
    rename_i htot
    split
    · rename_i hres
      exact hskip _ fun h => (mem_contiguousFreed.1 h).2.2.1 hres
    rename_i hres
    split
    · rename_i hu
      apply hskip
      intro h
      obtain ⟨-, -, -, h1, h2, -⟩ := mem_contiguousFreed.1 h
      simp [h1, h2] at hu
    rename_i hu
    have hu' : m.frameIsUsable idx = true ∧ ¬m.frameIsReserved idx = true := by simpa using hu
    have hlt := Nat.not_le.1 htot
    rw [testBit_usable hu'.1 hlt]
    split
    · rename_i hset
      have hgave := clearBit_gave (t := { clearBit m s idx with
        cachedFree := (clearBit m s idx).cachedFree + 1 }) he hlt hu'.1 hset
        (hl idx le_rfl (by omega)) rfl rfl rfl
      apply (hgave.trans (ih hgave.exact fun f h1 h2 hleaf =>
        hl f (by omega) (by omega) (hgave.leaf f hleaf))).of_mem
      intro f
      rw [List.mem_append, List.mem_singleton, mem_contiguousFreed, mem_contiguousFreed, hgave.raw]
      constructor
      · rintro (rfl | ⟨h, h'⟩)
        · exact ⟨by omega, hlt, hres, hu'.1, hu'.2, hset⟩
        · rw [if_neg (by simp; omega)] at h'
          exact ⟨by omega, h'⟩
      · rintro ⟨h, h'⟩
        by_cases hf : f = idx
        · exact .inl hf
        · rw [if_neg (by simpa using hf)]
          exact .inr ⟨by omega, h'⟩
    · rename_i hset
      exact hskip _ fun h => hset (mem_contiguousFreed.1 h).2.2.2.2.2

theorem pfaFreeContiguous_gave (he : Exact m s)
    (hl : ∀ f, physAddr / pageSize ≤ f → f < physAddr / pageSize + num → ¬s.IsLeaf f) :
    Gave m s (pfaFreeContiguous m s physAddr num)
      (if physAddr % pageSize = 0 then contiguousFreed m s (physAddr / pageSize) num else []) := by
  rw [pfaFreeContiguous]
  split
  · rename_i h
    rcases h with h | rfl
    · rw [if_neg h]
      exact .refl he
    · split <;> exact .refl he
  · rename_i h
    have hgave : Gave m s (freeTurns m num (physAddr / pageSize) 0 s).2 _ := freeTurns_gave he hl
    rw [if_pos (not_not.1 (not_or.1 h).1)]
    dsimp only
    split
    · exact hgave.congr rfl rfl rfl
    · exact hgave

end Lebirun.Pmm
