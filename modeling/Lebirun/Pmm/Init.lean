import Mathlib
import Lebirun.Lib.Run
import Lebirun.Pmm.Alloc

namespace Lebirun.Pmm
set_option autoImplicit true

open Machine

abbrev physicalAddressLimit : Nat := 0x10000000000000
abbrev inlineDirectoryEntries : Nat := 64

/-- What `pfa_init` finds: the map and the cursors `init_mem_map` has built, the boot modules and
the end of the kernel image. -/
structure Boot where
  regions : List Region
  reserved : List (Nat × Nat)
  modules : List (Nat × Nat)
  kernelEnd : Nat
  bumpCurrent : Nat
  activeRegion : Nat
  lowBump : Nat
  disjoint : regions.Pairwise fun r r' => r.limit ≤ r'.base ∨ r'.limit ≤ r.base
  bounded : ∀ r ∈ regions, r.limit ≤ physicalAddressLimit
  kernel_pos : 0 < kernelEnd

def pageDown (addr : Nat) : Nat := addr / pageSize * pageSize

def Region.cappedLimit (r : Region) : Nat :=
  if physicalAddressLimit - r.base < r.length then physicalAddressLimit else r.limit

def detectedMaxPhys (rs : List Region) : Nat :=
  rs.foldl (fun top r => if top < r.cappedLimit then r.cappedLimit else top) 0

def moduleOverlapEnd (b : Boot) (start stop : Nat) : Nat :=
  if stop ≤ start then 0
  else b.modules.foldl (fun overlapEnd mod =>
    if start < pageUp mod.2 ∧ pageDown mod.1 < stop ∧ overlapEnd < pageUp mod.2 then pageUp mod.2
    else overlapEnd) 0

/-- The search of one region for room for the directory's extension. A module or a reserved
region that was stepped over is never met again, which bounds the turns. -/
def bitmapSpaceIn (b : Boot) (bytes regionEnd : Nat) : Nat → Nat → Option Nat
  | 0, _ => none
  | left + 1, candidate =>
    if regionEnd < candidate + bytes then none
    else
      let overlapEnd := moduleOverlapEnd b candidate (candidate + bytes)
      if candidate < overlapEnd then bitmapSpaceIn b bytes regionEnd left (pageUp overlapEnd)
      else
        match b.reserved.find? fun r => ¬(candidate + bytes ≤ r.1 ∨ r.2 ≤ candidate) with
        | some r => bitmapSpaceIn b bytes regionEnd left (pageUp r.2)
        | none => some candidate

def bitmapSpace (b : Boot) (kernelEndPhys bytes : Nat) : Option Nat :=
  b.regions.findSome? fun r =>
    let top := detectedMaxPhys b.regions
    if top ≤ r.base then none
    else
      let regionEnd := if top < r.limit then top else r.limit
      let candidate := pageUp r.base
      let candidate := if candidate < kernelEndPhys then kernelEndPhys else candidate
      bitmapSpaceIn b bytes regionEnd (b.modules.length + b.reserved.length + 1) candidate

def Boot.totalPages (b : Boot) : Nat := (detectedMaxPhys b.regions + pageSize - 1) / pageSize

def Boot.bitmapPages (b : Boot) : Nat :=
  let directoryEntries := (b.totalPages + chunkFrames - 1) / chunkFrames
  let bytes := (directoryEntries - inlineDirectoryEntries) * 4
  let bytes := (bytes + 7) / 8 * 8
  (bytes + pageSize - 1) / pageSize

def Boot.kernelEndPhys (b : Boot) : Nat :=
  if pageUp b.kernelEnd < b.bumpCurrent then b.bumpCurrent else pageUp b.kernelEnd

/-- Where the directory's extension ends. -/
def Boot.bitmapEnd (b : Boot) : Nat :=
  if b.bitmapPages = 0 then 0
  else
    (bitmapSpace b b.kernelEndPhys (b.bitmapPages * pageSize)).getD (pageUp b.bumpCurrent) +
      b.bitmapPages * pageSize

def Boot.kernelFrames (b : Boot) : Nat :=
  (if b.kernelEndPhys < b.bitmapEnd then b.bitmapEnd else b.kernelEndPhys) / pageSize

/-- With no memory at all `pfa_init` returns at once and nothing is managed. -/
def Boot.memMap (b : Boot) : MemMap where
  regions := b.regions
  reserved := b.reserved
  totalPagesManaged := b.totalPages
  kernelReservedFrames := if detectedMaxPhys b.regions = 0 then 0 else b.kernelFrames
  coldLowStartFrame := 0
  coldLowEndFrame := 0
  kernelReclaimLo := 0
  kernelReclaimHi := 0

def Boot.setup (b : Boot) : Pfa where
  directory := fun _ => 0
  leaf := fun _ _ => 0
  leafPages := 0
  cachedFree := 0
  lastAllocHint := 0
  bumpCurrent := if b.bumpCurrent < b.bitmapEnd then b.bitmapEnd else b.bumpCurrent
  activeRegion := b.activeRegion
  lowBump := b.lowBump
  lowExhausted := false

def regionFree (b : Boot) (r : Region) : Nat :=
  let top := detectedMaxPhys b.regions
  if r.limit ≤ top ∨ r.base < top then
    let regionEnd := if r.limit ≤ top then r.limit else top
    let startFrame := (r.base + pageSize - 1) / pageSize
    let endFrame := regionEnd / pageSize
    let endFrame := if b.totalPages < endFrame then b.totalPages else endFrame
    let startFrame := if startFrame < b.kernelFrames then b.kernelFrames else startFrame
    if startFrame < endFrame then endFrame - startFrame else 0
  else 0

/-- One turn of the loops over the reserved regions and the modules. -/
def markFrame (m : MemMap) (ok : Nat → Bool) (p : Pfa × Nat) (f : Nat) : Pfa × Nat :=
  if f < m.totalPagesManaged ∧ !testBit m p.1 f then (setBit m ok p.1 f, sub64 p.2 1) else p

def Boot.markedFrames (b : Boot) : List Nat :=
  (b.reserved.flatMap fun r => List.range' (r.1 / pageSize) (r.2 / pageSize - r.1 / pageSize)) ++
    b.modules.flatMap fun mod =>
      List.range' (pageDown mod.1 / pageSize)
        (pageUp mod.2 / pageSize - pageDown mod.1 / pageSize)

def Boot.kernelMarked (b : Boot) (ok : Nat → Bool) : Pfa :=
  (List.range b.kernelFrames).foldl (setBit b.memMap ok) b.setup

def Boot.totalFree (b : Boot) : Nat := (b.regions.map (regionFree b)).sum

def pfaInitRamStats (p : Pfa × Nat) : Pfa :=
  { p.1 with cachedFree := if p.1.leafPages ≤ p.2 then p.2 - p.1.leafPages else 0 }

def pfaInit (b : Boot) (ok : Nat → Bool) : Pfa :=
  if detectedMaxPhys b.regions = 0 then b.setup
  else pfaInitRamStats (b.markedFrames.foldl (markFrame b.memMap ok) (b.kernelMarked ok, b.totalFree))

inductive PfaOp where
  | pfaAlloc
  | pmmAllocPage
  | pmmAllocPages (num : Nat)
  | pfaAllocContiguousBelow (numFrames maxPhys : Nat)
  | pmmAllocMappedPage
  | pmmAllocLowPage
  | pfaFree (physAddr released : Nat)
  | pfaFreeContiguous (physAddr numFrames : Nat)

/-- One call, with what `pt_direct_map_ok` answers during it. -/
structure PfaCall where
  op : PfaOp
  ok : Nat → Bool

def PfaCall.exec (m : MemMap) (s : Pfa) (c : PfaCall) : Nat × Pfa :=
  match c.op with
  | .pfaAlloc => pfaAlloc m c.ok s
  | .pmmAllocPage => pmmAllocPage m c.ok s
  | .pmmAllocPages num => pmmAllocPages m c.ok s num
  | .pfaAllocContiguousBelow numFrames maxPhys =>
    pfaAllocContiguousBelow m c.ok s numFrames maxPhys
  | .pmmAllocMappedPage => pmmAllocMappedPage m c.ok s
  | .pmmAllocLowPage => pmmAllocLowPage m c.ok s
  | .pfaFree physAddr released => (0, pfaFree m s physAddr released)
  | .pfaFreeContiguous physAddr numFrames => (0, pfaFreeContiguous m s physAddr numFrames)

def PfaOp.pages : PfaOp → Nat
  | .pmmAllocPages num => num
  | .pfaAllocContiguousBelow numFrames _ => numFrames
  | _ => 1

/-- The frames a call asks to be freed and whose bits it does clear. -/
def PfaOp.freed (m : MemMap) (s : Pfa) : PfaOp → List Nat
  | .pfaFree physAddr released => pfaFreed m s physAddr released
  | .pfaFreeContiguous physAddr numFrames =>
    if physAddr % pageSize = 0 then contiguousFreed m s (physAddr / pageSize) numFrames else []
  | _ => []

/-- The allocator with the frames it has handed out and not got back. -/
structure Frames where
  pfa : Pfa
  handed : List Nat

def PfaCall.frames (m : MemMap) (s : Pfa) (c : PfaCall) : List Nat :=
  framesOf (c.exec m s).1 c.op.pages

def framesStep (m : MemMap) (w : Frames) (c : PfaCall) : Frames where
  pfa := (c.exec m w.pfa).2
  handed := c.frames m w.pfa ++ w.handed.filter (· ∉ c.op.freed m w.pfa)

/-- Callers free what they were given, never a frame the bitmap itself lives in. -/
def FreesOwn (w : Frames) (c : PfaCall) : Prop :=
  match c.op with
  | .pfaFree physAddr _ => ¬w.pfa.IsLeaf (physAddr / pageSize)
  | .pfaFreeContiguous physAddr numFrames =>
    ∀ f, physAddr / pageSize ≤ f → f < physAddr / pageSize + numFrames → ¬w.pfa.IsLeaf f
  | _ => True

/-- A call of `pmm_alloc_low_page` has no region with a base inside a page ahead of it. -/
def LowBasesAligned (m : MemMap) (w : Frames) (c : PfaCall) : Prop :=
  match c.op with
  | .pmmAllocLowPage => w.pfa.lowBump ≠ 0 → LowAligned m (pageUp w.pfa.lowBump)
  | _ => True

/-- A call returns frames that were usable and clear before it and are marked after it. -/
def Delivers (m : MemMap) (w : Frames) (c : PfaCall) : Prop :=
  ∀ f ∈ c.frames m w.pfa, m.frameIsUsable f = true ∧ f < m.totalPagesManaged ∧
    bitmapTestRaw m w.pfa f = false ∧ bitmapTestRaw m (c.exec m w.pfa).2 f = true

/-- The counter is exact, and what is handed out is disjoint and holds no leaf of the bitmap. -/
structure FramesSound (m : MemMap) (w : Frames) : Prop where
  count : w.pfa.cachedFree = (freeSet m w.pfa).card
  disjoint : w.handed.Nodup
  not_leaf : ∀ f ∈ w.handed, ¬w.pfa.IsLeaf f

/-- `set_bit` on a usable frame finds the leaf of the frame's chunk, or room for a new one. -/
def LeafFound (m : MemMap) (ok : Nat → Bool) (s : Pfa) (f : Nat) : Prop :=
  f < m.totalPagesManaged → m.frameIsUsable f = true →
    s.directory (f / chunkFrames) ≠ 0 ∨
      bitmapLeafCandidate m ok s (f / chunkFrames) f (f + 1) ≠ none

/-- Every frame `pfa_init` sets out to mark can be marked. -/
def InitMarks (b : Boot) (ok : Nat → Bool) : Prop :=
  Along (setBit b.memMap ok) (LeafFound b.memMap ok) b.setup (List.range b.kernelFrames) ∧
    Along (markFrame b.memMap ok) (fun p f => LeafFound b.memMap ok p.1 f)
      (b.kernelMarked ok, b.totalFree) b.markedFrames

variable {m : MemMap} {ok : Nat → Bool} {s s' : Pfa} {f g l n : Nat}

/-- What one `set_bit` on a clear frame does to the free frames and the leaves. -/
structure Marked (m : MemMap) (s s' : Pfa) (f : Nat) : Prop where
  leaves : LeafInv m s'
  count : (freeSet m s').card + s'.leafPages + (if m.frameIsUsable f = true then 1 else 0) =
    (freeSet m s).card + s.leafPages
  only : ∀ g, bitmapTestRaw m s' g = true →
    bitmapTestRaw m s g = true ∨ g = f ∨ m.kernelReservedFrames ≤ g

theorem card_orBit (hlt : f < m.totalPagesManaged)
    (hclear : bitmapTestRaw m s f = false)
    (hraw : ∀ g, bitmapTestRaw m s' g = if g = f then true else bitmapTestRaw m s g) :
    (freeSet m s').card + (if m.frameIsUsable f = true then 1 else 0) = (freeSet m s).card := by
  rw [freeSet_set hraw]
  split
  · rename_i hu
    exact Finset.card_erase_add_one (mem_freeSet.2 ⟨hlt, hu, hclear⟩)
  · rename_i hu
    rw [Finset.erase_eq_of_notMem fun h => hu (mem_freeSet.1 h).2.1, Nat.add_zero]

theorem setBit_present (hinv : LeafInv m s) (hlt : f < m.totalPagesManaged)
    (hclear : bitmapTestRaw m s f = false) (hd : s.directory (f / chunkFrames) ≠ 0) :
    Marked m s (s.orBit (s.directory (f / chunkFrames)) (f % chunkFrames)) f := by
  have hraw := testRaw_orBit hinv.inj (getLeaf_some hlt hd)
  constructor
  · apply hinv.congr (t := s.orBit _ _) rfl
    intro l hl
    rw [hraw, (hinv.marked l hl).2.2, ite_self]
  · have hcard := card_orBit hlt hclear hraw
    rw [← hcard, Nat.add_right_comm]
    rfl
  · intro g hg
    rw [hraw] at hg
    split at hg
    · rename_i hgf
      exact .inr (.inl hgf)
    · exact .inl hg

/-- A frame marked after another one became a leaf. -/
theorem Marked.after {t : Pfa} (h : Marked m t s' f) (hn : NewLeaf m s t l) : Marked m s s' f := by
  refine ⟨h.leaves, ?_, ?_⟩
  · have hl : l ∈ freeSet m s := mem_freeSet.2 ⟨hn.lt, hn.usable, hn.clear⟩
    have hcard := Finset.card_erase_add_one hl
    rw [← freeSet_set hn.raw] at hcard
    have hpages := hn.leafPages
    have hcount := h.count
    omega
  · intro g hg
    rcases h.only g hg with h | h
    · rw [hn.raw] at h
      split at h
      · rename_i hgl
        exact .inr (.inr (hgl ▸ hn.ge))
      · exact .inl h
    · exact .inr h

theorem setBit_spec (hk : 0 < m.totalPagesManaged → 0 < m.kernelReservedFrames)
    (hinv : LeafInv m s) (hlt : f < m.totalPagesManaged) (hclear : bitmapTestRaw m s f = false)
    (hfound : LeafFound m ok s f) : Marked m s (setBit m ok s f) f := by
  rw [setBit, if_neg (Nat.not_le.2 hlt)]
  cases hen : bitmapEnsureLeaf m ok s f f (f + 1) with
  | mk r t =>
    rcases ensureLeaf_cases hinv hk hen with ⟨rfl, hr, hfail⟩ | ⟨rfl, -, hd, l, hn, hex⟩
    · cases r with
      | false =>
        -- nothing was marked, so the frame was not one to be counted
        have hu : ¬m.frameIsUsable f = true := by
          intro hu
          rcases hfail rfl with hge | ⟨hd, hc⟩
          · exact absurd hlt (Nat.not_lt.2 hge)
          · rcases hfound hlt hu with h | h
            · exact h hd
            · exact h hc
        refine ⟨hinv, ?_, fun g hg => .inl hg⟩
        rw [if_neg hu, Nat.add_zero]
      | true =>
        have hd := (hr rfl).2
        dsimp only
        rw [getLeaf_some hlt hd]
        exact setBit_present hinv hlt hclear hd
    · dsimp only
      rw [getLeaf_some hlt hd]
      have hne : f ≠ l := by
        rintro rfl
        exact hex ⟨le_rfl, Nat.lt_succ_self _⟩
      have hclear' : bitmapTestRaw m t f = false := by
        rw [hn.raw, if_neg hne, hclear]
      exact (setBit_present hn.inv hlt hclear' hd).after hn

theorem card_filter_succ (S : Finset Nat) (n : Nat) :
    (S.filter (· < n + 1)).card = (S.filter (· < n)).card + if n ∈ S then 1 else 0 := by
  split
  · rename_i hn
    have hset : S.filter (· < n + 1) = insert n (S.filter (· < n)) := by
      ext g
      rw [Finset.mem_insert, Finset.mem_filter, Finset.mem_filter, Nat.lt_succ_iff_lt_or_eq]
      constructor
      · rintro ⟨hg, h | h⟩
        · exact .inr ⟨hg, h⟩
        · exact .inl h
      · rintro (rfl | ⟨hg, h⟩)
        · exact ⟨hn, .inr rfl⟩
        · exact ⟨hg, .inl h⟩
    rw [hset, Finset.card_insert_of_notMem]
    intro h
    exact Nat.lt_irrefl n (Finset.mem_filter.1 h).2
  · rename_i hn
    rw [Nat.add_zero]
    congr 1
    ext g
    rw [Finset.mem_filter, Finset.mem_filter, Nat.lt_succ_iff_lt_or_eq]
    constructor
    · rintro ⟨hg, h | rfl⟩
      · exact ⟨hg, h⟩
      · exact absurd hg hn
    · exact fun ⟨hg, h⟩ => ⟨hg, .inl h⟩

/-- The loop that marks the kernel's frames. -/
theorem kernelLoop (hk : 0 < m.totalPagesManaged → 0 < m.kernelReservedFrames)
    (hinv : LeafInv m s) (hempty : ∀ g, bitmapTestRaw m s g = false)
    (hn : n ≤ m.kernelReservedFrames)
    (h : Along (setBit m ok) (LeafFound m ok) s (List.range n)) :
    let s' := (List.range n).foldl (setBit m ok) s
    LeafInv m s' ∧
      (freeSet m s').card + s'.leafPages + ((freeSet m s).filter (· < n)).card =
        (freeSet m s).card + s.leafPages ∧
      ∀ g, bitmapTestRaw m s' g = true → g < n ∨ m.kernelReservedFrames ≤ g := by
  induction n with
  | zero =>
    refine ⟨hinv, by simp, fun g hg => ?_⟩
    rw [List.range_zero, List.foldl_nil, hempty] at hg
    cases hg
  | succ n ih =>
    rw [List.range_succ, along_append] at h
    obtain ⟨h₁, hc, honly⟩ := ih (Nat.le_of_succ_le hn) h.1
    rw [List.range_succ, List.foldl_append, List.foldl_cons, List.foldl_nil]
    generalize (List.range n).foldl (setBit m ok) s = t at *
    have hclear : bitmapTestRaw m t n = false := by
      cases hb : bitmapTestRaw m t n with
      | false => rfl
      | true =>
        rcases honly n hb with hlt | hge
        · exact absurd hlt (Nat.lt_irrefl _)
        · exact absurd hge (Nat.not_le.2 hn)
    by_cases hlt : n < m.totalPagesManaged
    · have hmark := setBit_spec hk h₁ hlt hclear h.2.1
      refine ⟨hmark.leaves, ?_, ?_⟩
      · have hcount := hmark.count
        have hmem : n ∈ freeSet m s ↔ m.frameIsUsable n = true := by
          rw [mem_freeSet, hempty]
          simp [hlt]
        rw [card_filter_succ, if_congr hmem rfl rfl]
        omega
      · intro g hg
        rcases hmark.only g hg with h | rfl | h
        · rcases honly g h with h | h
          · exact .inl (by omega)
          · exact .inr h
        · exact .inl (Nat.lt_succ_self _)
        · exact .inr h
    · have hstay : setBit m ok t n = t := if_pos (Nat.not_lt.1 hlt)
      rw [hstay, card_filter_succ, if_neg fun h => hlt (mem_freeSet.1 h).1]
      exact ⟨h₁, hc, fun g hg => (honly g hg).imp_left Nat.lt_succ_of_lt⟩

/-- Between the loops of `pfa_init`: the running total counts the free frames and the leaves. -/
structure Counted (m : MemMap) (p : Pfa × Nat) : Prop where
  leaves : LeafInv m p.1
  total : (freeSet m p.1).card + p.1.leafPages = p.2
  lt : p.2 < 2 ^ 64

theorem markFrame_counted (hk : 0 < m.totalPagesManaged → 0 < m.kernelReservedFrames)
    (h : Counted m p) (hfound : LeafFound m ok p.1 f) : Counted m (markFrame m ok p f) := by
  rw [markFrame]
  split
  · rename_i hc
    have htest : testBit m p.1 f = false := by simpa using hc.2
    obtain ⟨hlt, hu, hclear⟩ := testBit_false htest
    have hmark := setBit_spec hk h.leaves hlt hclear hfound
    have hcount := hmark.count
    rw [if_pos hu] at hcount
    have htotal := h.total
    have hle := h.lt
    refine ⟨hmark.leaves, ?_, ?_⟩
    · rw [sub64_of_le (by omega) hle]
      dsimp only
      omega
    · rw [sub64_of_le (by omega) hle]
      exact (Nat.sub_le _ _).trans_lt hle
  · exact h

theorem markLoop (hk : 0 < m.totalPagesManaged → 0 < m.kernelReservedFrames) (h : Counted m p)
    (hfs : Along (markFrame m ok) (fun p f => LeafFound m ok p.1 f) p fs) :
    Counted m (fs.foldl (markFrame m ok) p) :=
  hfs.invariant (fun _ _ hp hf => markFrame_counted hk hp hf) h

theorem Counted.exact (h : Counted m p) : Exact m (pfaInitRamStats p) := by
  have hraw : ∀ g, bitmapTestRaw m (pfaInitRamStats p) g = bitmapTestRaw m p.1 g :=
    testRaw_congr rfl rfl
  refine ⟨h.leaves.congr rfl fun l _ => hraw l, ?_⟩
  have htotal := h.total
  rw [freeSet_congr hraw, pfaInitRamStats]
  dsimp only
  rw [if_pos (by omega)]
  omega

/-- The frames of the map that lie wholly in one of `rs`, from `lo` on. -/
def usableFrom (rs : List Region) (lo total : Nat) : Finset Nat :=
  (Finset.range total).filter fun f =>
    lo ≤ f ∧ ∃ r ∈ rs, r.base ≤ f * pageSize ∧ f * pageSize + pageSize ≤ r.limit

theorem mem_usableFrom :
    f ∈ usableFrom rs lo total ↔ f < total ∧ lo ≤ f ∧
      ∃ r ∈ rs, r.base ≤ f * pageSize ∧ f * pageSize + pageSize ≤ r.limit := by
  rw [usableFrom, Finset.mem_filter, Finset.mem_range]

theorem Region.cappedLimit_eq {r : Region} (h : r.limit ≤ physicalAddressLimit) : r.cappedLimit = r.limit := by
  rw [Region.limit] at h
  exact if_neg (by omega)

theorem detectedMaxPhys_ge (hb : ∀ r ∈ rs, r.limit ≤ physicalAddressLimit) (hr : r ∈ rs) :
    r.limit ≤ detectedMaxPhys rs := by
  have hfold : ∀ (rs : List Region) (top : Nat),
      let res := rs.foldl (fun top r => if top < r.cappedLimit then r.cappedLimit else top) top
      top ≤ res ∧ ∀ r ∈ rs, r.cappedLimit ≤ res := by
    intro rs
    induction rs with
    | nil =>
      intro top
      exact ⟨le_rfl, nofun⟩
    | cons r rs ih =>
      intro top
      obtain ⟨h1, h2⟩ := ih (if top < r.cappedLimit then r.cappedLimit else top)
      have hstep : top ≤ (if top < r.cappedLimit then r.cappedLimit else top) ∧
          r.cappedLimit ≤ if top < r.cappedLimit then r.cappedLimit else top := by
        split <;> omega
      refine ⟨hstep.1.trans h1, ?_⟩
      intro r' hr'
      rcases List.mem_cons.1 hr' with rfl | hr'
      · exact hstep.2.trans h1
      · exact h2 r' hr'
  rw [← Region.cappedLimit_eq (hb r hr)]
  exact (hfold rs 0).2 r hr

theorem regionFree_eq (b : Boot) (hr : r ∈ b.regions) :
    regionFree b r = (usableFrom [r] b.kernelFrames b.totalPages).card := by
  have htop := detectedMaxPhys_ge b.bounded hr
  have hset : usableFrom [r] b.kernelFrames b.totalPages =
      Finset.Ico (max ((r.base + pageSize - 1) / pageSize) b.kernelFrames)
        (min (r.limit / pageSize) b.totalPages) := by
    ext f
    rw [mem_usableFrom, Finset.mem_Ico]
    simp only [List.mem_singleton, exists_eq_left, pageSize]
    omega
  rw [hset, Nat.card_Ico, regionFree]
  simp only [htop, true_or, if_true]
  split <;> split <;> split <;> omega

theorem usableFrom_cons (hd : ∀ r' ∈ rs, r.limit ≤ r'.base ∨ r'.limit ≤ r.base) :
    (usableFrom (r :: rs) lo total).card =
      (usableFrom [r] lo total).card + (usableFrom rs lo total).card := by
  have hunion : usableFrom (r :: rs) lo total = usableFrom [r] lo total ∪ usableFrom rs lo total := by
    ext f
    rw [Finset.mem_union, mem_usableFrom, mem_usableFrom, mem_usableFrom, List.exists_mem_cons_iff]
    simp only [List.mem_singleton, exists_eq_left]
    tauto
  have hdisj : Disjoint (usableFrom [r] lo total) (usableFrom rs lo total) := by
    rw [Finset.disjoint_left]
    intro f h₁ h₂
    obtain ⟨-, -, r₁, hr₁, hb₁, hl₁⟩ := mem_usableFrom.1 h₁
    obtain ⟨-, -, r₂, hr₂, hb₂, hl₂⟩ := mem_usableFrom.1 h₂
    rw [List.mem_singleton.1 hr₁] at hb₁ hl₁
    simp only [pageSize] at *
    rcases hd r₂ hr₂ with h | h <;> omega
  rw [hunion, Finset.card_union_of_disjoint hdisj]

theorem totalFree_eq (b : Boot) :
    b.totalFree = (usableFrom b.regions b.kernelFrames b.totalPages).card := by
  have hsum : ∀ rs : List Region, (∀ r ∈ rs, r ∈ b.regions) →
      rs.Pairwise (fun r r' => r.limit ≤ r'.base ∨ r'.limit ≤ r.base) →
      (rs.map (regionFree b)).sum = (usableFrom rs b.kernelFrames b.totalPages).card := by
    intro rs
    induction rs with
    | nil =>
      intro _ _
      have hnil : usableFrom [] b.kernelFrames b.totalPages = ∅ := by
        ext f
        rw [mem_usableFrom]
        simp
      rw [hnil]
      rfl
    | cons r rs ih =>
      intro hmem hd
      obtain ⟨hr, hrs⟩ := List.pairwise_cons.1 hd
      rw [List.map_cons, List.sum_cons, usableFrom_cons hr, regionFree_eq b (hmem r List.mem_cons_self),
        ih (fun r hr => hmem r (List.mem_cons_of_mem _ hr)) hrs]
  exact hsum b.regions (fun _ h => h) b.disjoint

theorem detectedMaxPhys_le (hb : ∀ r ∈ rs, r.limit ≤ physicalAddressLimit) :
    detectedMaxPhys rs ≤ physicalAddressLimit := by
  have hfold : ∀ (rs : List Region) (top : Nat), top ≤ physicalAddressLimit →
      (∀ r ∈ rs, r.limit ≤ physicalAddressLimit) →
      rs.foldl (fun top r => if top < r.cappedLimit then r.cappedLimit else top) top ≤
        physicalAddressLimit := by
    intro rs
    induction rs with
    | nil => exact fun _ htop _ => htop
    | cons r rs ih =>
      intro top htop hb
      apply ih
      · dsimp only
        split
        · rw [Region.cappedLimit_eq (hb r List.mem_cons_self)]
          exact hb r List.mem_cons_self
        · exact htop
      · exact fun r' hr' => hb r' (List.mem_cons_of_mem _ hr')
  exact hfold rs 0 (Nat.zero_le _) hb

theorem kernelFrames_pos (b : Boot) : 0 < b.kernelFrames := by
  have hend : pageSize ≤ b.kernelEndPhys := by
    have hpos := b.kernel_pos
    have hup : pageSize ≤ pageUp b.kernelEnd := by
      simp only [pageUp, pageSize]
      omega
    rw [Boot.kernelEndPhys]
    split
    · rename_i h
      exact hup.trans h.le
    · exact hup
  rw [Boot.kernelFrames]
  apply Nat.div_pos _ (by decide)
  split
  · rename_i h
    exact hend.trans h.le
  · exact hend

theorem boot_mapOk (b : Boot) : MapOk b.memMap := by
  constructor
  · intro h
    have hne : detectedMaxPhys b.regions ≠ 0 := by
      intro h0
      have htotal : b.memMap.totalPagesManaged = (0 + pageSize - 1) / pageSize := by
        rw [← h0]
        rfl
      rw [htotal] at h
      exact absurd h (by decide)
    show 0 < if detectedMaxPhys b.regions = 0 then 0 else b.kernelFrames
    rw [if_neg hne]
    exact kernelFrames_pos b
  · have hle := detectedMaxPhys_le b.bounded
    show (detectedMaxPhys b.regions + pageSize - 1) / pageSize < 2 ^ 64
    simp only [physicalAddressLimit, pageSize] at *
    omega

theorem setup_clear (b : Boot) (g : Nat) : bitmapTestRaw b.memMap b.setup g = false := by
  apply testRaw_none
  rw [bitmapGetLeaf]
  split <;> rfl

theorem setup_leafInv (b : Boot) : LeafInv b.memMap b.setup := by
  constructor
  · rintro l ⟨h0, c, hc⟩
    exact absurd hc.symm h0
  · intro c c' h0
    exact absurd rfl h0

/-- The usable frames are those the kernel's loop passes and those `total_free_frames` counts. -/
theorem freeSet_setup (b : Boot) :
    (freeSet b.memMap b.setup).card =
      ((freeSet b.memMap b.setup).filter (· < b.kernelFrames)).card + b.totalFree := by
  rw [totalFree_eq, ← Finset.card_filter_add_card_filter_not (s := freeSet b.memMap b.setup)
    (· < b.kernelFrames)]
  congr 2
  ext f
  rw [Finset.mem_filter, mem_freeSet, mem_usableFrom, setup_clear]
  have hu : b.memMap.frameIsUsable f = true ↔ ∃ r ∈ b.regions,
      r.base ≤ f * pageSize ∧ f * pageSize + pageSize ≤ r.limit := by
    rw [MemMap.frameIsUsable, List.any_eq_true]
    simp only [decide_eq_true_eq]
    rfl
  rw [hu, Nat.not_lt]
  constructor
  · exact fun h => ⟨h.1.1, h.2, h.1.2.1⟩
  · exact fun h => ⟨⟨h.1, h.2.2, rfl⟩, h.2.1⟩

theorem pfaInit_exact (b : Boot) (h : InitMarks b ok) : Exact b.memMap (pfaInit b ok) := by
  have hk := (boot_mapOk b).reserved_pos
  rw [pfaInit]
  split
  · rename_i h0
    refine ⟨setup_leafInv b, ?_⟩
    have hempty : freeSet b.memMap b.setup = ∅ := by
      have htotal : b.memMap.totalPagesManaged = (0 + pageSize - 1) / pageSize := by
        rw [← h0]
        rfl
      rw [freeSet, htotal]
      rfl
    rw [hempty]
    rfl
  rename_i h0
  have hres : b.kernelFrames = b.memMap.kernelReservedFrames := (if_neg h0).symm
  obtain ⟨hinv, hcount, -⟩ := kernelLoop hk (setup_leafInv b) (setup_clear b) hres.le h.1
  have hsplit := freeSet_setup b
  have hle := freeSet_card_le (m := b.memMap) (s := b.setup)
  have hlt := (boot_mapOk b).total_lt
  have hpages : b.setup.leafPages = 0 := rfl
  have hcounted : Counted b.memMap (b.kernelMarked ok, b.totalFree) := by
    refine ⟨hinv, ?_, ?_⟩
    · show (freeSet b.memMap ((List.range b.kernelFrames).foldl (setBit b.memMap ok) b.setup)).card +
        ((List.range b.kernelFrames).foldl (setBit b.memMap ok) b.setup).leafPages = b.totalFree
      omega
    · show b.totalFree < 2 ^ 64
      omega
  exact (markLoop hk hcounted h.2).exact

/-- The allocator and its callers: what is handed out is marked and is no leaf. -/
structure FramesInv (m : MemMap) (w : Frames) : Prop where
  exact : Exact m w.pfa
  nodup : w.handed.Nodup
  held : ∀ f ∈ w.handed, bitmapTestRaw m w.pfa f = true ∧ ¬w.pfa.IsLeaf f

theorem FramesInv.sound (h : FramesInv m w) : FramesSound m w :=
  ⟨h.exact.count, h.nodup, fun f hf => (h.held f hf).2⟩

theorem FramesInv.took (h : FramesInv m w) (ht : Took m w.pfa s' fs) :
    FramesInv m ⟨s', fs ++ w.handed⟩ := by
  refine ⟨ht.exact, ?_, ?_⟩
  · refine List.nodup_append.2 ⟨ht.nodup, h.nodup, ?_⟩
    intro f hf g hg hfg
    have hclear := (ht.taken f hf).2.2.1
    rw [hfg, (h.held g hg).1] at hclear
    cases hclear
  · intro f hf
    rcases List.mem_append.1 hf with hf | hf
    · exact (ht.taken f hf).2.2.2
    · obtain ⟨hset, hl⟩ := h.held f hf
      exact ⟨ht.keep f hset, ht.not_leaf hset hl⟩

theorem FramesInv.gave (h : FramesInv m w) (hg : Gave m w.pfa s' fs) :
    FramesInv m ⟨s', w.handed.filter (· ∉ fs)⟩ := by
  refine ⟨hg.exact, h.nodup.filter _, ?_⟩
  intro f hf
  obtain ⟨hmem, hnot⟩ := List.mem_filter.1 hf
  obtain ⟨hset, hl⟩ := h.held f hmem
  have hnot : f ∉ fs := by simpa using hnot
  exact ⟨by rw [hg.raw, if_neg hnot, hset], fun hl' => hl (hg.leaf f hl')⟩

theorem PfaCall.alloc (hm : MapOk m) (he : Exact m s) {c : PfaCall}
    (hlow : c.op = .pmmAllocLowPage → s.lowBump ≠ 0 → LowAligned m (pageUp s.lowBump))
    (hfree : ∀ physAddr n, c.op ≠ .pfaFree physAddr n ∧ c.op ≠ .pfaFreeContiguous physAddr n) :
    Took m s (c.exec m s).2 (c.frames m s) := by
  obtain ⟨op, ok⟩ := c
  cases op with
  | pfaAlloc => exact findFreeFrames_alloc hm he
  | pmmAllocPage => exact pmmAllocPage_alloc hm he
  | pmmAllocPages num =>
    rw [PfaCall.frames, PfaCall.exec]
    dsimp only
    rw [pmmAllocPages]
    split
    · exact .refl he
    · exact findFreeFrames_alloc hm he
  | pfaAllocContiguousBelow numFrames maxPhys =>
    rw [PfaCall.frames, PfaCall.exec]
    dsimp only
    rw [Pmm.pfaAllocContiguousBelow]
    split
    · exact .refl he
    · exact findDirectFrames_alloc hm he
  | pmmAllocMappedPage => exact pmmAllocMappedPage_alloc hm he
  | pmmAllocLowPage => exact pmmAllocLowPage_alloc hm he (hlow rfl)
  | pfaFree physAddr released => exact absurd rfl (hfree physAddr released).1
  | pfaFreeContiguous physAddr numFrames => exact absurd rfl (hfree physAddr numFrames).2

theorem framesStep_inv (hm : MapOk m) (h : FramesInv m w) (hown : FreesOwn w c)
    (hlow : LowBasesAligned m w c) : FramesInv m (framesStep m w c) ∧ Delivers m w c := by
  have halloc : (∀ physAddr n, c.op ≠ .pfaFree physAddr n ∧ c.op ≠ .pfaFreeContiguous physAddr n) →
      c.op.freed m w.pfa = [] → FramesInv m (framesStep m w c) ∧ Delivers m w c := by
    intro hop hfreed
    have ht := PfaCall.alloc hm h.exact (fun hc => by rwa [LowBasesAligned, hc] at hlow) hop
    constructor
    · have hinv := h.took ht
      rw [framesStep, hfreed]
      simpa using hinv
    · intro f hf
      obtain ⟨h1, h2, h3, h4, -⟩ := ht.taken f hf
      exact ⟨h2, h1, h3, h4⟩
  obtain ⟨op, ok⟩ := c
  cases op with
  | pfaFree physAddr released => exact ⟨h.gave (pfaFree_gave h.exact hown), nofun⟩
  | pfaFreeContiguous physAddr numFrames =>
    exact ⟨h.gave (pfaFreeContiguous_gave h.exact hown), nofun⟩
  | _ => exact halloc (fun _ _ => ⟨nofun, nofun⟩) rfl

/-- In every run of the allocator from `pfa_init` whose frees are the callers' own and whose low
pages never meet a region that begins inside a page, the counter stays exact, every call delivers
clear frames and nothing is handed out twice or taken from the bitmap's own frames. -/
theorem pfa_run_exact (b : Boot) (ok : Nat → Bool) (hinit : InitMarks b ok) (cs : List PfaCall)
    (hcs : Along (framesStep b.memMap)
      (fun w c => FreesOwn w c ∧ LowBasesAligned b.memMap w c) ⟨pfaInit b ok, []⟩ cs) :
    FramesSound b.memMap (cs.foldl (framesStep b.memMap) ⟨pfaInit b ok, []⟩) ∧
      Along (framesStep b.memMap) (Delivers b.memMap) ⟨pfaInit b ok, []⟩ cs := by
  have hm := boot_mapOk b
  have hrun : ∀ (w : Frames) (cs : List PfaCall), FramesInv b.memMap w →
      Along (framesStep b.memMap) (fun w c => FreesOwn w c ∧ LowBasesAligned b.memMap w c) w cs →
      FramesInv b.memMap (cs.foldl (framesStep b.memMap) w) ∧
        Along (framesStep b.memMap) (Delivers b.memMap) w cs := by
    intro w cs hw h
    induction cs generalizing w with
    | nil => exact ⟨hw, trivial⟩
    | cons c cs ih =>
      obtain ⟨⟨hown, hlow⟩, hcs⟩ := h
      obtain ⟨hinv, hdel⟩ := framesStep_inv hm hw hown hlow
      obtain ⟨hfin, halong⟩ := ih _ hinv hcs
      exact ⟨hfin, hdel, halong⟩
  have hstart : FramesInv b.memMap ⟨pfaInit b ok, []⟩ :=
    ⟨pfaInit_exact b hinit, List.nodup_nil, nofun⟩
  obtain ⟨hinv, hdel⟩ := hrun _ cs hstart hcs
  exact ⟨hinv.sound, hdel⟩

theorem smallKernel_pos : 0 < 0x1000 := by decide

/-- A map of one page-aligned region with a kernel of one frame. -/
def smallBoot : Boot where
  regions := [⟨0, 0x10000⟩]
  reserved := [(0x3000, 0x4000)]
  modules := []
  kernelEnd := 0x1000
  bumpCurrent := 0x1000
  activeRegion := 0
  lowBump := 0x1000
  disjoint := List.pairwise_singleton _ _
  bounded := by
    intro r hr
    rw [List.mem_singleton.1 hr]
    decide
  kernel_pos := smallKernel_pos

theorem smallBoot_marks : InitMarks smallBoot fun _ => true := by
  constructor
  · refine ⟨fun _ _ => .inr ?_, trivial⟩
    decide +kernel
  · refine ⟨fun _ _ => .inl ?_, trivial⟩
    decide +kernel

def smallRun : List PfaCall :=
  [⟨.pfaAlloc, fun _ => true⟩, ⟨.pmmAllocLowPage, fun _ => true⟩,
    ⟨.pfaFree 0x2000 0, fun _ => true⟩]

set_option maxRecDepth 20000 in
theorem smallRun_directory :
    (framesStep smallBoot.memMap
        (framesStep smallBoot.memMap ⟨pfaInit smallBoot fun _ => true, []⟩
          ⟨.pfaAlloc, fun _ => true⟩)
        ⟨.pmmAllocLowPage, fun _ => true⟩).pfa.directory = Function.update (fun _ => 0) 0 1 :=
  rfl

theorem smallRun_legal :
    Along (framesStep smallBoot.memMap)
      (fun w c => FreesOwn w c ∧ LowBasesAligned smallBoot.memMap w c)
      ⟨pfaInit smallBoot fun _ => true, []⟩ smallRun := by
  refine ⟨⟨trivial, trivial⟩, ⟨trivial, ?_⟩, ⟨?_, trivial⟩, trivial⟩
  · intro _ r hr hlt
    rw [List.mem_singleton.1 hr] at hlt
    exact absurd hlt (Nat.not_lt_zero _)
  · rintro ⟨-, c, hc⟩
    rw [smallRun_directory, Function.update_apply] at hc
    split at hc <;> exact absurd hc (by decide)

theorem smallRun_exact :
    FramesSound smallBoot.memMap
        (smallRun.foldl (framesStep smallBoot.memMap) ⟨pfaInit smallBoot fun _ => true, []⟩) ∧
      Along (framesStep smallBoot.memMap) (Delivers smallBoot.memMap)
        ⟨pfaInit smallBoot fun _ => true, []⟩ smallRun :=
  pfa_run_exact smallBoot _ smallBoot_marks smallRun smallRun_legal

/-- A map whose second region begins inside a page, below the limit of the low pages. -/
def ragged : Boot where
  regions := [⟨0x100000, 0x40000⟩, ⟨0x140800, 0x1ebf800⟩]
  reserved := [(0x10000, 0x11000)]
  modules := []
  kernelEnd := 0x140000
  bumpCurrent := 0x140800
  activeRegion := 1
  lowBump := 0x140000
  disjoint := by simp [Region.limit]
  bounded := by simp [Region.limit, physicalAddressLimit]
  kernel_pos := by decide

/-- The low page begins inside a frame and covers half of the next one, which the allocator then
hands out again. -/
theorem ragged_not_disjoint :
    ¬(framesStep ragged.memMap
        (framesStep ragged.memMap ⟨pfaInit ragged fun _ => true, []⟩
          ⟨.pmmAllocLowPage, fun _ => true⟩)
        ⟨.pfaAlloc, fun _ => true⟩).handed.Nodup := by
  decide +kernel

end Lebirun.Pmm
