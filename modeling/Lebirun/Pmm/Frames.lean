import Mathlib
import Lebirun.Pmm.Bitmap

namespace Lebirun.Pmm
set_option autoImplicit true

/-- Subtraction on a `uint64_t` counter. -/
def sub64 (x n : Nat) : Nat := (x + 2 ^ 64 - n) % 2 ^ 64

/-- The end both searches share: leaves for the run first, then its bits, the hint and the
counter. -/
def takeRun (m : MemMap) (ok : Nat → Bool) (s : Pfa) (runStart num : Nat) : Nat × Pfa :=
  match bitmapPrepareRange m ok s runStart num with
  | (false, s) => (0, s)
  | (true, s) =>
    let s := (List.range' runStart num).foldl (setBit m ok) s
    (runStart * pageSize,
      { s with lastAllocHint := runStart + num, cachedFree := sub64 s.cachedFree num })

/-- The loop for more than one frame; the first argument counts the frames still to be looked at. -/
def scanRun (m : MemMap) (ok : Nat → Bool) (s : Pfa) (num : Nat) :
    Nat → Nat → Nat → Nat → Nat × Pfa
  | 0, _, _, _ => (0, s)
  | left + 1, frameIdx, run, runStart =>
    if testBit m s frameIdx then scanRun m ok s num left (frameIdx + 1) 0 (frameIdx + 1)
    else
      let runStart := if run = 0 then frameIdx else runStart
      if run + 1 < num then scanRun m ok s num left (frameIdx + 1) (run + 1) runStart
      else takeRun m ok s runStart num

/-- `__builtin_ctz` on a byte. -/
def ctz8 (b : Nat) : Nat := ((List.range 8).find? b.testBit).getD 8

/-- The bits of the byte of `frameIdx` that are clear, at or after `frameIdx` and before
`chunkEnd`. -/
def freeBits (byte frameIdx chunkEnd : Nat) : Nat :=
  let bit := frameIdx % chunkFrames
  let byteBase := frameIdx - bit % 8
  let used := byte ||| (2 ^ (bit % 8) - 1)
  let available := chunkEnd - byteBase
  let used := if available < 8 then used ||| 255 <<< available % 256 else used
  (255 ^^^ used) % 256

/-- The loop for one frame inside one region. Every turn moves on by at least one frame, so a
budget of `frameEnd - frameIdx` turns is never used up. -/
def scanRegion (m : MemMap) (ok : Nat → Bool) (s : Pfa) (frameEnd : Nat) :
    Nat → Nat → Option (Nat × Pfa)
  | 0, _ => none
  | left + 1, frameIdx =>
    if frameEnd ≤ frameIdx then none
    else
      let bit := frameIdx % chunkFrames
      let chunkEnd := frameIdx + (chunkFrames - bit)
      let chunkEnd := if frameEnd < chunkEnd then frameEnd else chunkEnd
      match bitmapGetLeaf m s frameIdx with
      | none => some (takeRun m ok s frameIdx 1)
      | some l =>
        let byteBase := frameIdx - bit % 8
        let free := freeBits (s.leaf l (bit / 8)) frameIdx chunkEnd
        if free = 0 then scanRegion m ok s frameEnd left (byteBase + 8)
        else some (takeRun m ok s (byteBase + ctz8 free) 1)

def Region.startFrame (r : Region) : Nat :=
  if r.base % pageSize ≠ 0 then r.base / pageSize + 1 else r.base / pageSize

def Region.endFrame (r : Region) : Nat :=
  (if 2 ^ 64 - 1 - r.base < r.length then 2 ^ 64 - 1 else r.limit) / pageSize

def scanRegions (m : MemMap) (ok : Nat → Bool) (s : Pfa) (lo hi : Nat) :
    List Region → Nat × Pfa
  | [] => (0, s)
  | r :: rs =>
    let frameIdx := if lo < r.startFrame then r.startFrame else lo
    let frameEnd := if r.endFrame < hi then r.endFrame else hi
    match scanRegion m ok s frameEnd (frameEnd - frameIdx) frameIdx with
    | some found => found
    | none => scanRegions m ok s lo hi rs

def findFreeFramesBitmap (m : MemMap) (ok : Nat → Bool) (s : Pfa) (lo hi num : Nat) :
    Nat × Pfa :=
  if hi ≤ lo ∨ num = 0 then (0, s)
  else if num ≠ 1 then scanRun m ok s num (hi - lo) lo 0 lo
  else scanRegions m ok s lo hi m.regions

def findFreeFramesRange (m : MemMap) (ok : Nat → Bool) (s : Pfa) (lo hi num : Nat) :
    Nat × Pfa :=
  if hi ≤ lo ∨ num = 0 then (0, s) else findFreeFramesBitmap m ok s lo hi num

/-- One of the ranges `find_free_frames` tries in turn, when none before it gave anything. -/
def orElseRange (m : MemMap) (ok : Nat → Bool) (cond : Bool) (lo hi num : Nat)
    (r : Nat × Pfa) : Nat × Pfa :=
  if r.1 = 0 ∧ cond then findFreeFramesRange m ok r.2 lo hi num else r

def findFreeFrames (m : MemMap) (ok : Nat → Bool) (s : Pfa) (num : Nat) : Nat × Pfa :=
  if num = 0 then (0, s)
  else
    let start := s.lastAllocHint
    let start := if start < m.kernelReservedFrames then m.kernelReservedFrames else start
    let start := if m.totalPagesManaged ≤ start then m.kernelReservedFrames else start
    orElseRange m ok (m.kernelReclaimLo < m.kernelReclaimHi) m.kernelReclaimLo m.kernelReclaimHi num <|
    orElseRange m ok (m.coldLowStartFrame < m.coldLowEndFrame) m.coldLowStartFrame m.coldLowEndFrame
      num <|
    orElseRange m ok (m.kernelReservedFrames < start) m.kernelReservedFrames start num <|
    findFreeFramesRange m ok s start m.totalPagesManaged num

/-- The turns of `find_direct_frames`: a run that is not all in the direct map goes back. -/
def directTurns (m : MemMap) (ok : Nat → Bool) (stop num : Nat) (s : Pfa) :
    Nat → Nat → Nat × Pfa
  | 0, _ => (0, s)
  | left + 1, start =>
    if stop ≤ start then (0, s)
    else
      match findFreeFramesRange m ok s start stop num with
      | (result, s) =>
        if result = 0 then (0, s)
        else
          let bad := ((List.range num).find? fun i => !ok (result + i * pageSize)).getD num
          if bad = num then (result, s)
          else
            let s := (List.range' (result / pageSize) num).foldl (clearBit m) s
            directTurns m ok stop num { s with cachedFree := s.cachedFree + num } left
              (result / pageSize + bad + 1)

def findDirectFrames (m : MemMap) (ok : Nat → Bool) (s : Pfa) (stop num : Nat) : Nat × Pfa :=
  let stop := if directFrames < stop then directFrames else stop
  let stop := if m.totalPagesManaged < stop then m.totalPagesManaged else stop
  let savedHint := s.lastAllocHint
  match directTurns m ok stop num s (stop - m.kernelReservedFrames) m.kernelReservedFrames with
  | (result, s) => (result, { s with lastAllocHint := savedHint })

/-- The frames that `num` pages from the byte address `addr` on lie in; address 0 is a failure. -/
def framesOf (addr num : Nat) : List Nat :=
  if addr = 0 then []
  else List.range' (addr / pageSize) ((addr % pageSize + num * pageSize + (pageSize - 1)) / pageSize)

variable {m : MemMap} {ok : Nat → Bool} {s s' : Pfa} {f g l : Nat}

theorem sub64_of_le (hn : n ≤ x) (hx : x < 2 ^ 64) : sub64 x n = x - n := by
  rw [sub64, Nat.add_comm, Nat.add_sub_assoc hn, Nat.add_mod_left]
  exact Nat.mod_eq_of_lt ((Nat.sub_le _ _).trans_lt hx)

theorem framesOf_mul (f num : Nat) :
    framesOf (f * pageSize) num = if f = 0 then [] else List.range' f num := by
  rw [framesOf]
  by_cases hf : f = 0
  · rw [if_pos hf, if_pos (by rw [hf, Nat.zero_mul])]
  · have hpos : f * pageSize ≠ 0 := Nat.mul_ne_zero hf (by decide)
    have hlen : (f * pageSize % pageSize + num * pageSize + (pageSize - 1)) / pageSize = num := by
      rw [Nat.mul_mod_left, Nat.zero_add, Nat.mul_comm, Nat.mul_add_div (by decide)]
      rfl
    rw [if_neg hf, if_neg hpos, hlen, Nat.mul_div_cancel _ (by decide)]

/-- What the searches rely on: a map whose frames fit the counters and whose kernel is not empty. -/
structure MapOk (m : MemMap) : Prop where
  reserved_pos : 0 < m.totalPagesManaged → 0 < m.kernelReservedFrames
  total_lt : m.totalPagesManaged < 2 ^ 64

theorem Took.not_leaf (h : Took m s s' fs) (hf : bitmapTestRaw m s f = true)
    (hl : ¬s.IsLeaf f) : ¬s'.IsLeaf f := by
  intro hl'
  rcases h.leaf f hl' with h | h
  · exact hl h
  · rw [hf] at h
    cases h

/-- Marking a run of clear frames that have their leaves, with the counter moved along. -/
theorem took_setBits (ok : Nat → Bool) (hm : MapOk m) (he : Exact m s)
    (hrun : ∀ g, start ≤ g → g < start + num →
      g < m.totalPagesManaged ∧ m.frameIsUsable g = true ∧ bitmapTestRaw m s g = false ∧
        s.directory (g / chunkFrames) ≠ 0)
    (hd : s'.directory = ((List.range' start num).foldl (setBit m ok) s).directory)
    (hl : s'.leaf = ((List.range' start num).foldl (setBit m ok) s).leaf)
    (hc : s'.cachedFree =
      sub64 ((List.range' start num).foldl (setBit m ok) s).cachedFree num) :
    Took m s s' (List.range' start num) := by
  have hinv := he.leaves
  obtain ⟨hd₁, hc₁, hraw₁, hcard⟩ := setBits_spec ok hinv hrun
  have hraw : ∀ g, bitmapTestRaw m s' g =
      if start ≤ g ∧ g < start + num then true else bitmapTestRaw m s g := by
    intro g
    rw [testRaw_congr hd hl, hraw₁]
  have hkeep : ∀ g, bitmapTestRaw m s g = true → bitmapTestRaw m s' g = true := by
    intro g hg
    rw [hraw, hg, ite_self]
  have hleaf : ∀ g, s'.IsLeaf g ↔ s.IsLeaf g := by
    intro g
    rw [Pfa.IsLeaf, Pfa.IsLeaf, hd, hd₁]
  constructor
  · constructor
    · apply hinv.congr (hd.trans hd₁)
      intro l hl
      rw [hkeep l (hinv.marked l hl).2.2, (hinv.marked l hl).2.2]
    · have hle := freeSet_card_le (m := m) (s := s)
      have hlt := hm.total_lt
      have hfree := he.count
      rw [freeSet_congr (testRaw_congr hd hl), hc, hc₁, sub64_of_le (by omega) (by omega)]
      omega
  · exact hkeep
  · intro g hg
    exact .inl ((hleaf g).1 hg)
  · exact List.nodup_range'
  · intro g hg
    obtain ⟨h1, h2⟩ := List.mem_range'_1.1 hg
    obtain ⟨hlt, hu, hclear, -⟩ := hrun g h1 h2
    refine ⟨hlt, hu, hclear, ?_, ?_⟩
    · rw [hraw, if_pos ⟨h1, h2⟩]
    · intro hl
      have hset := (hinv.marked g ((hleaf g).1 hl)).2.2
      rw [hclear] at hset
      cases hset

/-- A run of clear usable frames is taken whole, or not at all. -/
theorem takeRun_spec (hm : MapOk m) (he : Exact m s)
    (hrun : ∀ g, start ≤ g → g < start + num →
      g < m.totalPagesManaged ∧ m.frameIsUsable g = true ∧ bitmapTestRaw m s g = false)
    (h : takeRun m ok s start num = (addr, s')) :
    addr = 0 ∧ Took m s s' [] ∨
      addr = start * pageSize ∧ Took m s s' (List.range' start num) := by
  rw [takeRun] at h
  cases hp : bitmapPrepareRange m ok s start num with
  | mk r t =>
    obtain ⟨hprep, hdir⟩ := prepareRange_spec hm.reserved_pos he hp
    rw [hp] at h
    cases r with
    | false =>
      cases h
      exact .inl ⟨rfl, hprep.took⟩
    | true =>
      cases h
      refine .inr ⟨rfl, hprep.took.trans (took_setBits ok hm hprep.took.exact ?_ rfl rfl rfl)⟩
      intro g h1 h2
      obtain ⟨hlt, hu, hc⟩ := hrun g h1 h2
      exact ⟨hlt, hu, (hprep.same g h1 h2).trans hc, hdir rfl g h1 h2⟩

theorem testBit_false (h : testBit m s f = false) :
    f < m.totalPagesManaged ∧ m.frameIsUsable f = true ∧ bitmapTestRaw m s f = false := by
  rw [testBit] at h
  split at h
  · cases h
  · rename_i hlt
    split at h
    · cases h
    · rename_i hu
      exact ⟨Nat.not_le.1 hlt, by simpa using hu, h⟩

/-- What a search returns: nothing, or a run it has taken. -/
def Found (m : MemMap) (s : Pfa) (lo num : Nat) (r : Nat × Pfa) : Prop :=
  r.1 = 0 ∧ Took m s r.2 [] ∨
    ∃ start, lo ≤ start ∧ r.1 = start * pageSize ∧ Took m s r.2 (List.range' start num)

theorem takeRun_found (hm : MapOk m) (he : Exact m s) (hlo : lo ≤ start)
    (hrun : ∀ g, start ≤ g → g < start + num →
      g < m.totalPagesManaged ∧ m.frameIsUsable g = true ∧ bitmapTestRaw m s g = false) :
    Found m s lo num (takeRun m ok s start num) := by
  rcases takeRun_spec hm he hrun rfl with h | ⟨ha, ht⟩
  · exact .inl h
  · exact .inr ⟨start, hlo, ha, ht⟩

theorem takeRun_outside (hf : m.totalPagesManaged ≤ f) : takeRun m ok s f 1 = (0, s) := by
  have hen : bitmapEnsureLeaf m ok s f f (f + 1) = (false, s) := by
    rw [bitmapEnsureLeaf, if_pos hf]
  have hprep : bitmapPrepareRange m ok s f 1 = (false, s) := by
    rw [bitmapPrepareRange]
    split
    · rfl
    · rw [bitmapPrepareRange.go, if_neg (by omega), hen]
  rw [takeRun, hprep]

theorem scanRun_found (hm : MapOk m) (he : Exact m s) (hlo : lo ≤ frame - run)
    (hstart : run ≠ 0 → runStart + run = frame)
    (hrun : ∀ g, frame - run ≤ g → g < frame → testBit m s g = false) (hnum : run < num) :
    Found m s lo num (scanRun m ok s num left frame run runStart) := by
  induction left generalizing frame run runStart with
  | zero => exact .inl ⟨rfl, .refl he⟩
  | succ left ih =>
    rw [scanRun]
    split
    · apply ih
      · omega
      · exact fun h => absurd rfl h
      · omega
      · omega
    · rename_i ht
      -- the run is one frame longer
      have hstart' : (if run = 0 then frame else runStart) + run = frame := by
        split <;> omega
      have hrun' : ∀ g, frame - run ≤ g → g < frame + 1 → testBit m s g = false := by
        intro g h1 h2
        by_cases hg : g = frame
        · rw [hg]
          simpa using ht
        · exact hrun g h1 (by omega)
      dsimp only
      split
      · apply ih
        · omega
        · intro _
          omega
        · intro g h1 h2
          exact hrun' g (by omega) h2
        · assumption
      · have hlast : run + 1 = num := by omega
        apply takeRun_found hm he
        · omega
        · intro g h1 h2
          exact testBit_false (hrun' g (by omega) (by omega))

theorem ctz8_spec (hb : b < 256) (h0 : b ≠ 0) : ctz8 b < 8 ∧ b.testBit (ctz8 b) = true := by
  cases hf : (List.range 8).find? b.testBit with
  | none =>
    exfalso
    apply h0
    apply Nat.eq_of_testBit_eq
    intro i
    rw [Nat.zero_testBit]
    by_cases hi : i < 8
    · have := List.find?_eq_none.1 hf i (List.mem_range.2 hi)
      simpa using this
    · have hpow : 2 ^ 8 ≤ 2 ^ i := Nat.pow_le_pow_right Nat.two_pos (not_lt.1 hi)
      exact Nat.testBit_lt_two_pow (hb.trans_le hpow)
  | some i =>
    rw [ctz8, hf]
    exact ⟨List.mem_range.1 (List.mem_of_find?_eq_some hf), List.find?_some hf⟩

theorem freeBits_lt : freeBits byte frame chunkEnd < 256 := Nat.mod_lt _ (by decide)

/-- A free bit stands for a clear frame between `frame` and `chunkEnd`. -/
theorem freeBits_testBit (hend : frame < chunkEnd) (hi : i < 8)
    (h : (freeBits byte frame chunkEnd).testBit i = true) :
    byte.testBit i = false ∧ frame % chunkFrames % 8 ≤ i ∧
      frame - frame % chunkFrames % 8 + i < chunkEnd := by
  have hnot : ∀ x : Nat, ((255 ^^^ x) % 256).testBit i = !x.testBit i := by
    intro x
    have h255 : (255 : Nat).testBit i = true := by
      have hpow : (255 : Nat) = 2 ^ 8 - 1 := by decide
      rw [hpow, Nat.testBit_two_pow_sub_one]
      simpa using hi
    have h256 : (256 : Nat) = 2 ^ 8 := by decide
    rw [h256, Nat.testBit_mod_two_pow, Nat.testBit_xor, h255, Bool.true_xor]
    simp [hi]
  have hhigh : ∀ a ≤ i, (255 <<< a % 256).testBit i = true := by
    intro a ha
    have h255 : (255 : Nat).testBit (i - a) = true := by
      have hpow : (255 : Nat) = 2 ^ 8 - 1 := by decide
      rw [hpow, Nat.testBit_two_pow_sub_one]
      simp
      omega
    have h256 : (256 : Nat) = 2 ^ 8 := by decide
    rw [h256, Nat.testBit_mod_two_pow, Nat.testBit_shiftLeft, h255]
    simp [hi, ha]
  rw [freeBits, hnot] at h
  have hused : ∀ y, (byte ||| (2 ^ (frame % chunkFrames % 8) - 1) ||| y).testBit i = false →
      byte.testBit i = false ∧ frame % chunkFrames % 8 ≤ i ∧ y.testBit i = false := by
    intro y hy
    rw [Nat.testBit_or, Nat.testBit_or, Nat.testBit_two_pow_sub_one] at hy
    simpa [and_assoc] using hy
  split at h
  · obtain ⟨hbyte, hlow, htop⟩ := hused _ (by simpa using h)
    refine ⟨hbyte, hlow, ?_⟩
    by_contra hge
    rw [hhigh _ (by omega)] at htop
    cases htop
  · obtain ⟨hbyte, hlow, -⟩ := hused 0 (by simpa using h)
    exact ⟨hbyte, hlow, by omega⟩

/-- The frame of bit `i` in the byte of `frame`. -/
theorem sameByte (frame : Nat) (hi : i < 8) :
    (frame - frame % chunkFrames % 8 + i) / chunkFrames = frame / chunkFrames ∧
      (frame - frame % chunkFrames % 8 + i) % chunkFrames / 8 = frame % chunkFrames / 8 ∧
      (frame - frame % chunkFrames % 8 + i) % chunkFrames % 8 = i := by
  simp only [chunkFrames]
  omega

theorem Region.usable (hr : r ∈ m.regions) (h1 : r.startFrame ≤ f) (h2 : f < r.endFrame) :
    m.frameIsUsable f = true := by
  have hlim : (f + 1) * pageSize ≤ r.limit := by
    have hle : (f + 1) * pageSize ≤ if 2 ^ 64 - 1 - r.base < r.length then 2 ^ 64 - 1 else r.limit :=
      (Nat.mul_le_mul_right _ h2).trans (Nat.div_mul_le_self _ _)
    split at hle
    · rw [Region.limit]
      omega
    · exact hle
  have hbase : r.base ≤ f * pageSize := by
    rw [Region.startFrame] at h1
    simp only [pageSize] at h1 ⊢
    split at h1 <;> omega
  rw [MemMap.frameIsUsable, List.any_eq_true]
  refine ⟨r, hr, decide_eq_true ⟨hbase, ?_⟩⟩
  rw [← Nat.succ_mul]
  exact hlim

theorem scanRegion_found (hm : MapOk m) (he : Exact m s) (hr : r ∈ m.regions)
    (hstart : r.startFrame ≤ frame) (hend : frameEnd ≤ r.endFrame) (hlo : lo ≤ frame)
    (h : scanRegion m ok s frameEnd left frame = some res) : Found m s lo 1 res := by
  induction left generalizing frame with
  | zero => cases h
  | succ left ih =>
    rw [scanRegion] at h
    split at h
    · cases h
    rename_i hlt
    have hone : ∀ f, frame ≤ f → f < frameEnd →
        (f < m.totalPagesManaged → bitmapTestRaw m s f = false) →
        Found m s lo 1 (takeRun m ok s f 1) := by
      intro f h1 h2 h3
      by_cases htot : f < m.totalPagesManaged
      · apply takeRun_found hm he (hlo.trans h1)
        intro g hg1 hg2
        have hg : g = f := by omega
        rw [hg]
        exact ⟨htot, Region.usable hr (hstart.trans h1) (h2.trans_le hend), h3 htot⟩
      · rw [takeRun_outside (Nat.not_lt.1 htot)]
        exact .inl ⟨rfl, .refl he⟩
    dsimp only at h
    cases hl : bitmapGetLeaf m s frame with
    | none =>
      rw [hl] at h
      cases h
      exact hone frame le_rfl (Nat.not_le.1 hlt) fun _ => testRaw_none hl
    | some l =>
      rw [hl] at h
      dsimp only at h
      generalize hch : (if frameEnd < frame + (chunkFrames - frame % chunkFrames) then frameEnd
        else frame + (chunkFrames - frame % chunkFrames)) = chunkEnd at h
      have hce : frame < chunkEnd ∧ chunkEnd ≤ frameEnd := by
        have hmod := Nat.mod_lt frame (show 0 < chunkFrames by decide)
        rw [← hch]
        split <;> omega
      split at h
      · exact ih (by omega) (by omega) h
      · rename_i hne
        cases h
        obtain ⟨hi, hbit⟩ := ctz8_spec freeBits_lt hne
        obtain ⟨hclear, hge, hend'⟩ := freeBits_testBit hce.1 hi hbit
        obtain ⟨hc, hb, hj⟩ := sameByte frame hi
        obtain ⟨-, hl0, hd⟩ := getLeaf_eq_some.1 hl
        apply hone _ (by omega) (hend'.trans_le hce.2)
        intro htot
        rw [testRaw_some (getLeaf_eq_some.2 ⟨htot, hl0, hc.symm ▸ hd⟩), hb, hj]
        exact hclear

theorem scanRegions_found (hm : MapOk m) (he : Exact m s) (hrs : ∀ r ∈ rs, r ∈ m.regions) :
    Found m s lo 1 (scanRegions m ok s lo hi rs) := by
  induction rs with
  | nil => exact .inl ⟨rfl, .refl he⟩
  | cons r rs ih =>
    rw [scanRegions]
    split
    · rename_i hf
      apply scanRegion_found hm he (hrs r List.mem_cons_self) _ _ _ hf
      · split <;> omega
      · split <;> omega
      · split <;> omega
    · exact ih fun r' hr' => hrs r' (List.mem_cons_of_mem _ hr')

theorem findFreeFramesRange_found (hm : MapOk m) (he : Exact m s) :
    Found m s lo num (findFreeFramesRange m ok s lo hi num) := by
  rw [findFreeFramesRange]
  split
  · exact .inl ⟨rfl, .refl he⟩
  rename_i hne
  rw [findFreeFramesBitmap, if_neg hne]
  split
  · apply scanRun_found hm he
    · omega
    · exact fun h => absurd rfl h
    · omega
    · omega
  · rename_i hone
    rw [not_not.1 hone]
    exact scanRegions_found hm he fun _ hr => hr

/-- A search that is given nothing but a state the allocator reached. -/
def Alloc (m : MemMap) (s : Pfa) (num : Nat) (r : Nat × Pfa) : Prop :=
  Took m s r.2 (framesOf r.1 num)

theorem Found.alloc (h : Found m s lo num r) : Alloc m s num r := by
  rcases h with ⟨h0, ht⟩ | ⟨start, -, ha, ht⟩
  · rw [Alloc, h0]
    exact ht
  · rw [Alloc, ha, framesOf_mul]
    split
    · exact ht.none
    · exact ht

theorem Alloc.orElseRange (hm : MapOk m) (h : Alloc m s num r) :
    Alloc m s num (orElseRange m ok c lo hi num r) := by
  rw [Pmm.orElseRange]
  split
  · rename_i hr
    rw [Alloc, hr.1] at h
    exact h.trans (findFreeFramesRange_found hm h.exact).alloc
  · exact h

theorem findFreeFrames_alloc (hm : MapOk m) (he : Exact m s) :
    Alloc m s num (findFreeFrames m ok s num) := by
  rw [findFreeFrames]
  split
  · exact Took.refl he
  · apply Alloc.orElseRange hm
    apply Alloc.orElseRange hm
    apply Alloc.orElseRange hm
    exact (findFreeFramesRange_found hm he).alloc

/-- Clearing marked frames that are no leaves. -/
theorem clearBits_spec {fs : List Nat} (hinv : LeafInv m s) (hnd : fs.Nodup)
    (h : ∀ f ∈ fs, f < m.totalPagesManaged ∧ m.frameIsUsable f = true ∧
      bitmapTestRaw m s f = true ∧ ¬s.IsLeaf f) :
    let s' := fs.foldl (clearBit m) s
    s'.directory = s.directory ∧ s'.cachedFree = s.cachedFree ∧
      (∀ g, bitmapTestRaw m s' g = if g ∈ fs then false else bitmapTestRaw m s g) ∧
      LeafInv m s' ∧ (freeSet m s').card = (freeSet m s).card + fs.length := by
  induction fs generalizing s with
  | nil => exact ⟨rfl, rfl, fun g => (if_neg List.not_mem_nil).symm, hinv, rfl⟩
  | cons f fs ih =>
    obtain ⟨hlt, hu, hset, hl⟩ := h f List.mem_cons_self
    obtain ⟨hd, hc, hraw, hinv'⟩ := clearBit_spec hinv hset hl
    obtain ⟨hf, hnd'⟩ := List.nodup_cons.1 hnd
    have hcard : (freeSet m (clearBit m s f)).card = (freeSet m s).card + 1 := by
      rw [freeSet_clear hlt hu hraw, Finset.card_insert_of_notMem]
      intro hmem
      rw [(mem_freeSet.1 hmem).2.2] at hset
      cases hset
    obtain ⟨h1, h2, h3, h4, h5⟩ := ih hinv' hnd' (by
      intro g hg
      obtain ⟨a, b, c, d⟩ := h g (List.mem_cons_of_mem _ hg)
      have hgf : g ≠ f := fun hgf => hf (hgf ▸ hg)
      rw [hraw, if_neg hgf]
      refine ⟨a, b, c, ?_⟩
      rwa [Pfa.IsLeaf, hd])
    refine ⟨h1.trans hd, h2.trans hc, ?_, h4, ?_⟩
    · intro g
      rw [List.foldl_cons, h3, hraw]
      by_cases hg : g = f
      · simp [hg]
      · simp [hg]
    · rw [List.foldl_cons, h5, hcard, List.length_cons]
      omega

/-- Giving back at once everything a search has marked. -/
theorem Took.giveBack {t : Pfa} (h : Took m s s' fs) (hd : t.directory = (fs.foldl (clearBit m) s').directory)
    (hl : t.leaf = (fs.foldl (clearBit m) s').leaf)
    (hc : t.cachedFree = (fs.foldl (clearBit m) s').cachedFree + fs.length) :
    Took m s t [] := by
  obtain ⟨hd₁, hc₁, hraw₁, hinv₁, hcard⟩ := clearBits_spec h.exact.leaves h.nodup fun f hf =>
    ⟨(h.taken f hf).1, (h.taken f hf).2.1, (h.taken f hf).2.2.2⟩
  have hraw := testRaw_congr (m := m) hd hl
  constructor
  · refine ⟨hinv₁.congr hd fun l _ => hraw l, ?_⟩
    rw [freeSet_congr hraw, hcard, hc, hc₁, h.exact.count]
  · intro g hg
    rw [hraw, hraw₁, if_neg, h.keep g hg]
    intro hmem
    rw [(h.taken g hmem).2.2.1] at hg
    cases hg
  · intro g hg
    apply h.leaf g
    rwa [Pfa.IsLeaf, hd, hd₁] at hg
  · exact List.nodup_nil
  · intro f hf
    cases hf

theorem directTurns_alloc (hm : MapOk m) (he : Exact m s) :
    Alloc m s num (directTurns m ok stop num s left start) := by
  induction left generalizing s start with
  | zero => exact Took.refl he
  | succ left ih =>
    rw [directTurns]
    split
    · exact Took.refl he
    have hfound : Found m s start num (findFreeFramesRange m ok s start stop num) :=
      findFreeFramesRange_found hm he
    cases hf : findFreeFramesRange m ok s start stop num with
    | mk result t =>
      rw [hf] at hfound
      dsimp only
      split
      · exact hfound.alloc.none
      · rename_i hne
        split
        · exact hfound.alloc
        · rcases hfound with ⟨h0, -⟩ | ⟨f, -, ha, ht⟩
          · exact absurd h0 hne
          · have hdiv : result / pageSize = f := by
              rw [show result = f * pageSize from ha, Nat.mul_div_cancel _ (by decide)]
            rw [hdiv]
            have hback := ht.giveBack (t := { (List.range' f num).foldl (clearBit m) t with
              cachedFree := ((List.range' f num).foldl (clearBit m) t).cachedFree + num })
              rfl rfl (by rw [List.length_range'])
            exact hback.trans (ih hback.exact)

theorem findDirectFrames_alloc (hm : MapOk m) (he : Exact m s) :
    Alloc m s num (findDirectFrames m ok s stop num) := by
  rw [findDirectFrames]
  dsimp only
  generalize (if m.totalPagesManaged < _ then _ else _ : Nat) = stop'
  have h : Alloc m s num (directTurns m ok stop' num s (stop' - m.kernelReservedFrames)
      m.kernelReservedFrames) := directTurns_alloc hm he
  exact h.congr rfl rfl rfl

end Lebirun.Pmm
