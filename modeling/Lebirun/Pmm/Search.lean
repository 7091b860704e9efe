import Mathlib
import Lebirun.Pmm.Frames

namespace Lebirun.Pmm
set_option autoImplicit true

variable {m : MemMap} {ok : Nat → Bool} {s s' : Pfa} {f g l : Nat}

section Bytes

theorem testBit_255 (hi : i < 8) : (255 : Nat).testBit i = true := by
  rw [show (255 : Nat) = 2 ^ 8 - 1 by decide, Nat.testBit_two_pow_sub_one]
  simpa using hi

/-- A clear frame between `frame` and `chunkEnd` has its free bit. -/
theorem freeBits_of_clear (hi : i < 8) (hclear : byte.testBit i = false) (hlow : frame % chunkFrames % 8 ≤ i)
    (hend : frame - frame % chunkFrames % 8 + i < chunkEnd) :
    (freeBits byte frame chunkEnd).testBit i = true := by
  have hnot : ∀ x : Nat, ((255 ^^^ x) % 256).testBit i = !x.testBit i := by
    intro x
    rw [show (256 : Nat) = 2 ^ 8 by decide, Nat.testBit_mod_two_pow, Nat.testBit_xor, testBit_255 hi, Bool.true_xor]
    simp [hi]
  have hused : (byte ||| (2 ^ (frame % chunkFrames % 8) - 1)).testBit i = false := by
    rw [Nat.testBit_or, hclear, Nat.testBit_two_pow_sub_one]
    simpa using hlow
  rw [freeBits, hnot]
  split
  · have hhigh : ((255 <<< (chunkEnd - (frame - frame % chunkFrames % 8))) % 256).testBit i = false := by
      rw [show (256 : Nat) = 2 ^ 8 by decide, Nat.testBit_mod_two_pow, Nat.testBit_shiftLeft]
      have : ¬ chunkEnd - (frame - frame % chunkFrames % 8) ≤ i := by omega
      simp [this]
    rw [Nat.testBit_or, hused, hhigh]
    rfl
  · rw [hused]
    rfl

theorem ctz8_least (hj : j < ctz8 b) (h8 : j < 8) : b.testBit j = false := by
  unfold ctz8 at hj
  cases hf : (List.range 8).find? b.testBit with
  | none =>
    have h := List.find?_eq_none.1 hf j (List.mem_range.2 h8)
    simpa using h
  | some i =>
    rw [hf] at hj
    have h := (List.find?_range_eq_some.1 hf).2.2 j hj
    simpa using h

end Bytes

section Regions

/-- The frames of a chunk that has its leaf, read from the bytes of the leaf. -/
theorem testRaw_byte (hl : bitmapGetLeaf m s frame = some l) (hi : i < 8)
    (htot : frame - frame % chunkFrames % 8 + i < m.totalPagesManaged) :
    bitmapTestRaw m s (frame - frame % chunkFrames % 8 + i) =
      (s.leaf l (frame % chunkFrames / 8)).testBit i := by
  obtain ⟨hc, hb, hj⟩ := sameByte frame hi
  obtain ⟨-, hl0, hd⟩ := getLeaf_eq_some.1 hl
  rw [testRaw_some (getLeaf_eq_some.2 ⟨htot, hl0, hc.symm ▸ hd⟩), hb, hj]

theorem find?_range'_skip (p : Nat → Bool) (hab : a ≤ b) (hbc : b ≤ c) (h : ∀ g, a ≤ g → g < b → p g = false) :
    (List.range' a (c - a)).find? p = (List.range' b (c - b)).find? p := by
  have hsplit : List.range' a (c - a) = List.range' a (b - a) ++ List.range' b (c - b) := by
    have happ := @List.range'_append_1 a (b - a) (c - b)
    rw [show a + (b - a) = b by omega, show b - a + (c - b) = c - a by omega] at happ
    exact happ.symm
  have hnone : (List.range' a (b - a)).find? p = none := by
    rw [List.find?_eq_none]
    intro g hg
    obtain ⟨h1, h2⟩ := List.mem_range'_1.1 hg
    rw [h g h1 (by omega)]
    exact Bool.false_ne_true
  rw [hsplit, List.find?_append, hnone, Option.none_or]

theorem find?_range'_first (p : Nat → Bool) (hac : a < c) (hp : p a = true) :
    (List.range' a (c - a)).find? p = some a := by
  obtain ⟨n, hn⟩ := Nat.exists_eq_succ_of_ne_zero (show c - a ≠ 0 by omega)
  rw [hn, List.range'_succ, List.find?_cons_of_pos hp]

/-- The byte-wise scan of a region finds what a scan of its frames one by one finds. -/
theorem scanRegion_eq (hfuel : frameEnd - frame ≤ left) (htot : frameEnd ≤ m.totalPagesManaged) :
    scanRegion m ok s frameEnd left frame =
      ((List.range' frame (frameEnd - frame)).find? fun f => !bitmapTestRaw m s f).map
        fun f => takeRun m ok s f 1 := by
  induction left generalizing frame with
  | zero =>
    rw [Nat.le_zero.1 hfuel]
    rfl
  | succ left ih =>
    rw [scanRegion]
    split
    · rename_i hend
      rw [Nat.sub_eq_zero_of_le hend]
      rfl
    rename_i hend
    have hlt := Nat.not_le.1 hend
    dsimp only
    cases hl : bitmapGetLeaf m s frame with
    | none =>
      rw [find?_range'_first _ hlt (by rw [testRaw_none hl]; rfl)]
      rfl
    | some l =>
      dsimp only
      generalize hch : (if frameEnd < frame + (chunkFrames - frame % chunkFrames) then frameEnd
        else frame + (chunkFrames - frame % chunkFrames)) = chunkEnd
      have hmod := Nat.mod_lt frame (show 0 < chunkFrames by decide)
      have hlow : frame % chunkFrames % 8 ≤ frame := (Nat.mod_le _ _).trans (Nat.mod_le _ _)
      have h8 : frame % chunkFrames % 8 < 8 := Nat.mod_lt _ (by decide)
      have hce : frame < chunkEnd ∧ chunkEnd ≤ frameEnd := by
        rw [← hch]
        split <;> omega
      -- a byte ends with its chunk, or the region ends before it
      have hbyte : chunkEnd = frameEnd ∨ frame - frame % chunkFrames % 8 + 8 ≤ chunkEnd := by
        rw [← hch]
        simp only [chunkFrames] at *
        split
        · exact .inl rfl
        · right
          omega
      have hset : ∀ i, i < 8 → frame % chunkFrames % 8 ≤ i → frame - frame % chunkFrames % 8 + i < chunkEnd →
          (freeBits (s.leaf l (frame % chunkFrames / 8)) frame chunkEnd).testBit i = false →
          bitmapTestRaw m s (frame - frame % chunkFrames % 8 + i) = true := by
        intro i hi h1 h2 hfree
        rw [testRaw_byte hl hi (by omega)]
        by_contra hclear
        rw [freeBits_of_clear hi (by simpa using hclear) h1 h2] at hfree
        cases hfree
      split
      · rename_i h0
        rw [ih (by omega)]
        have hskip : ∀ g, frame ≤ g → g < frame - frame % chunkFrames % 8 + 8 → g < frameEnd →
            (!bitmapTestRaw m s g) = false := by
          intro g h1 h2 h3
          have hraw := hset (g - (frame - frame % chunkFrames % 8)) (by omega) (by omega)
            (by rcases hbyte with h | h <;> omega) (by rw [h0, Nat.zero_testBit])
          rw [show frame - frame % chunkFrames % 8 + (g - (frame - frame % chunkFrames % 8)) = g by omega] at hraw
          rw [hraw]
          rfl
        by_cases hnext : frame - frame % chunkFrames % 8 + 8 ≤ frameEnd
        · rw [find?_range'_skip _ (by omega) hnext fun g h1 h2 => hskip g h1 h2 (by omega)]
        · rw [Nat.sub_eq_zero_of_le (Nat.le_of_not_le hnext),
            find?_range'_skip _ hlt.le le_rfl fun g h1 h2 => hskip g h1 (by omega) h2, Nat.sub_self]
          rfl
      · rename_i hne
        obtain ⟨hi, hbit⟩ := ctz8_spec freeBits_lt hne
        obtain ⟨hclear, hge, hend'⟩ := freeBits_testBit hce.1 hi hbit
        have hbefore := fun i => @ctz8_least i (freeBits (s.leaf l (frame % chunkFrames / 8)) frame chunkEnd)
        generalize ctz8 (freeBits (s.leaf l (frame % chunkFrames / 8)) frame chunkEnd) = i at *
        have hfirst : (!bitmapTestRaw m s (frame - frame % chunkFrames % 8 + i)) = true := by
          rw [testRaw_byte hl hi (by omega), hclear]
          rfl
        rw [find?_range'_skip _ (show frame ≤ frame - frame % chunkFrames % 8 + i by omega) (by omega),
          find?_range'_first _ (by omega) hfirst]
        · rfl
        · intro g h1 h2
          have hraw := hset (g - (frame - frame % chunkFrames % 8)) (by omega) (by omega) (by omega)
            (hbefore _ (by omega) (by omega))
          rw [show frame - frame % chunkFrames % 8 + (g - (frame - frame % chunkFrames % 8)) = g by omega] at hraw
          rw [hraw]
          rfl

/-- The first clear frame of the first region that has one between `lo` and `hi`, with the frames of each
region tested one by one. -/
def firstClear (m : MemMap) (s : Pfa) (lo hi : Nat) (rs : List Region) : Option Nat :=
  rs.findSome? fun r =>
    let first := max lo r.startFrame
    (List.range' first (min hi r.endFrame - first)).find? fun f => !testBit m s f

/-- A map whose regions are managed whole. -/
structure MapFits (m : MemMap) : Prop extends MapOk m where
  limit : ∀ r ∈ m.regions, r.limit < 2 ^ 64
  managed : ∀ r ∈ m.regions, r.endFrame ≤ m.totalPagesManaged

theorem testBit_region (hm : MapFits m) (hr : r ∈ m.regions) (h1 : r.startFrame ≤ f) (h2 : f < r.endFrame) :
    testBit m s f = bitmapTestRaw m s f := by
  rw [testBit, if_neg (Nat.not_le.2 (h2.trans_le (hm.managed r hr))), Region.usable hr h1 h2]
  rfl

theorem Region.bounds_of_usable (hm : MapFits m) (hu : m.frameIsUsable f = true) :
    ∃ r ∈ m.regions, r.startFrame ≤ f ∧ f < r.endFrame := by
  rw [MemMap.frameIsUsable, List.any_eq_true] at hu
  obtain ⟨r, hr, h⟩ := hu
  obtain ⟨h1, h2⟩ := of_decide_eq_true h
  refine ⟨r, hr, ?_, ?_⟩
  · rw [Region.startFrame]
    simp only [pageSize] at h1 ⊢
    split <;> omega
  · have hlim := hm.limit r hr
    have hno : ¬ 2 ^ 64 - 1 - r.base < r.length := by
      rw [Region.limit] at hlim
      omega
    rw [Region.endFrame, if_neg hno]
    apply (Nat.le_div_iff_mul_le (by decide)).2
    rw [Nat.succ_mul]
    exact h2

theorem scanRegions_eq (hm : MapFits m) (hrs : ∀ r ∈ rs, r ∈ m.regions) :
    scanRegions m ok s lo hi rs =
      match firstClear m s lo hi rs with
      | none => (0, s)
      | some f => takeRun m ok s f 1 := by
  induction rs with
  | nil => rfl
  | cons r rs ih =>
    have hr := hrs r List.mem_cons_self
    have hfirst : (if lo < r.startFrame then r.startFrame else lo) = max lo r.startFrame := by
      split <;> omega
    have hend : (if r.endFrame < hi then r.endFrame else hi) = min hi r.endFrame := by
      split <;> omega
    have hfind : ((List.range' (max lo r.startFrame) (min hi r.endFrame - max lo r.startFrame)).find?
          fun f => !bitmapTestRaw m s f) =
        (List.range' (max lo r.startFrame) (min hi r.endFrame - max lo r.startFrame)).find?
          fun f => !testBit m s f := by
      apply List.find?_congr
      intro f hf
      obtain ⟨h1, h2⟩ := List.mem_range'_1.1 hf
      rw [testBit_region hm hr (by omega) (by omega)]
    rw [scanRegions]
    rw [hfirst, hend, scanRegion_eq le_rfl ((Nat.min_le_right _ _).trans (hm.managed r hr)), hfind]
    unfold firstClear
    rw [List.findSome?_cons]
    dsimp only
    cases (List.range' (max lo r.startFrame) (min hi r.endFrame - max lo r.startFrame)).find?
        fun f => !testBit m s f with
    | some f => rfl
    | none => exact ih fun r' hr' => hrs r' (List.mem_cons_of_mem _ hr')

/-- Where a usable frame between the bounds is clear, one is found. -/
theorem firstClear_isSome (hm : MapFits m) (hlo : lo ≤ f) (hhi : f < hi) (hu : m.frameIsUsable f = true)
    (hclear : testBit m s f = false) : ∃ g, firstClear m s lo hi m.regions = some g := by
  obtain ⟨r, hr, h1, h2⟩ := Region.bounds_of_usable hm hu
  rw [← Option.isSome_iff_exists, firstClear, List.findSome?_isSome_iff]
  refine ⟨r, hr, ?_⟩
  dsimp only
  rw [List.find?_isSome]
  refine ⟨f, List.mem_range'_1.2 (by omega), ?_⟩
  rw [hclear]
  rfl

theorem firstClear_some (h : firstClear m s lo hi rs = some f) :
    lo ≤ f ∧ f < hi ∧ testBit m s f = false := by
  rw [firstClear] at h
  obtain ⟨r, -, hf⟩ := List.exists_of_findSome?_eq_some h
  dsimp only at hf
  obtain ⟨h1, h2⟩ := List.mem_range'_1.1 (List.mem_of_find?_eq_some hf)
  have hbit := List.find?_some hf
  exact ⟨by omega, by omega, by simpa using hbit⟩

end Regions

section Complete

/-- A leaf can be had for every chunk that has none. -/
def Obtainable (m : MemMap) (ok : Nat → Bool) (s : Pfa) : Prop :=
  ∀ f < m.totalPagesManaged, s.directory (f / chunkFrames) = 0 →
    bitmapLeafCandidate m ok s (f / chunkFrames) f (f + 1) ≠ none

/-- A new leaf has room for its own bit. -/
theorem ensureLeaf_obtainable (hk : 0 < m.totalPagesManaged → 0 < m.kernelReservedFrames)
    (hf : f < m.totalPagesManaged)
    (h : s.directory (f / chunkFrames) ≠ 0 ∨ bitmapLeafCandidate m ok s (f / chunkFrames) a b ≠ none) :
    (bitmapEnsureLeaf m ok s f a b).1 = true := by
  rw [bitmapEnsureLeaf, if_neg (Nat.not_le.2 hf)]
  dsimp only
  split
  · rfl
  rename_i hd
  cases hcand : bitmapLeafCandidate m ok s (f / chunkFrames) a b with
  | none => exact absurd (h.resolve_left hd) (not_not.2 hcand)
  | some l =>
    dsimp only
    obtain ⟨hge, hlt, -, -, hch, -⟩ := candidate_some hcand
    have hl0 : l ≠ 0 := ((hk (Nat.zero_lt_of_lt hlt)).trans_le hge).ne'
    have hst : (Function.update s.directory (f / chunkFrames) l) (l / chunkFrames) ≠ 0 := by
      by_cases hlc : l / chunkFrames = f / chunkFrames
      · rw [hlc, Function.update_self]
        exact hl0
      · rw [Function.update_of_ne hlc]
        intro h0
        apply hch.resolve_left hlc
        rw [bitmapGetLeaf, h0]
        split <;> rfl
    rw [getLeaf_some (s := { s with
      leaf := Function.update s.leaf l fun _ => 0
      directory := Function.update s.directory (f / chunkFrames) l }) hlt hst]

/-- One frame is taken where its chunk has a leaf or can get one. -/
theorem takeRun_obtainable (hm : MapOk m) (hf : f < m.totalPagesManaged)
    (h : s.directory (f / chunkFrames) ≠ 0 ∨ bitmapLeafCandidate m ok s (f / chunkFrames) f (f + 1) ≠ none) :
    (takeRun m ok s f 1).1 = f * pageSize := by
  have hlt := hm.total_lt
  have hprep : (bitmapPrepareRange m ok s f 1).1 = true := by
    rw [bitmapPrepareRange, if_neg (by omega), bitmapPrepareRange.go, if_neg (by omega)]
    have hen := ensureLeaf_obtainable hm.reserved_pos hf h
    cases hcase : bitmapEnsureLeaf m ok s f f (f + 1) with
    | mk r t =>
      rw [hcase] at hen
      rw [show r = true from hen]
      rfl
  rw [takeRun]
  cases hcase : bitmapPrepareRange m ok s f 1 with
  | mk r t =>
    rw [hcase] at hprep
    rw [show r = true from hprep]

/-- A search for one frame gives nothing and leaves the state alone only where nothing is clear. -/
theorem range_complete (hm : MapFits m) (hob : Obtainable m ok s) (hlo : 0 < lo) :
    (findFreeFramesRange m ok s lo hi 1 = (0, s) ∧
      ∀ f, lo ≤ f → f < hi → m.frameIsUsable f = true → testBit m s f = true) ∨
        (findFreeFramesRange m ok s lo hi 1).1 ≠ 0 := by
  rw [findFreeFramesRange]
  split
  · rename_i h
    left
    exact ⟨rfl, fun f h1 h2 => by omega⟩
  rename_i h
  rw [findFreeFramesBitmap, if_neg h, if_neg (not_not.2 rfl), scanRegions_eq hm fun _ hr => hr]
  cases hfirst : firstClear m s lo hi m.regions with
  | none =>
    left
    refine ⟨rfl, ?_⟩
    intro f h1 h2 hu
    by_contra hclear
    obtain ⟨g, hg⟩ := firstClear_isSome hm h1 h2 hu (by simpa using hclear)
    rw [hfirst] at hg
    cases hg
  | some f =>
    right
    obtain ⟨h1, -, hclear⟩ := firstClear_some hfirst
    have hlt := (testBit_false hclear).1
    dsimp only
    rw [takeRun_obtainable hm.toMapOk hlt]
    · exact Nat.mul_ne_zero (by omega) (by decide)
    · by_cases hd : s.directory (f / chunkFrames) = 0
      · exact .inr (hob f hlt hd)
      · exact .inl hd

end Complete

end Lebirun.Pmm
