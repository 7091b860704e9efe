import Mathlib
import Lebirun.Pmm.WindowRuns

namespace Lebirun.Pmm
set_option autoImplicit true

open Machine

variable {m : MemMap} {w : Memory} {ok : Nat → Bool} {s s' t : Pfa} {f g l : Nat}

section Shape

theorem scanRun_shape (hlo : lo ≤ frame - run) (hstart : run ≠ 0 → runStart + run = frame)
    (hrun : ∀ g, frame - run ≤ g → g < frame → testBit m s g = false) (hnum : run < num) :
    scanRun m ok s num left frame run runStart = (0, s) ∨
      ∃ start, lo ≤ start ∧ start + num ≤ frame + left ∧
        (∀ g, start ≤ g → g < start + num → testBit m s g = false) ∧
        scanRun m ok s num left frame run runStart = takeRun m ok s start num := by
  induction left generalizing frame run runStart with
  | zero => exact .inl rfl
  | succ left ih =>
    have hnext : frame + 1 + left = frame + (left + 1) := by omega
    rw [scanRun]
    split
    · rw [← hnext]
      apply ih
      · omega
      · exact fun h => absurd rfl h
      · omega
      · omega
    · rename_i ht
      have hstart' : (if run = 0 then frame else runStart) + run = frame := by
        split <;> omega
      have hrun' : ∀ g, frame - run ≤ g → g < frame + 1 → testBit m s g = false := by
        intro g h1 h2
        by_cases hg : g = frame
        · rw [hg]
          simpa using ht
        · exact hrun g h1 (by omega)
      dsimp only
      split
      · rw [← hnext]
        apply ih
        · omega
        · intro _
          omega
        · intro g h1 h2
          exact hrun' g (by omega) h2
        · assumption
      · right
        refine ⟨_, ?_, ?_, ?_, rfl⟩
        · omega
        · omega
        · intro g h1 h2
          exact hrun' g (by omega) (by omega)

/-- A search leaves the state alone, or takes a clear run of its range. -/
theorem findRange_shape (hm : MapFits m) :
    findFreeFramesRange m ok s lo hi num = (0, s) ∨
      ∃ start, lo ≤ start ∧ start + num ≤ hi ∧
        (∀ g, start ≤ g → g < start + num → testBit m s g = false) ∧
        findFreeFramesRange m ok s lo hi num = takeRun m ok s start num := by
  rw [findFreeFramesRange]
  split
  · exact .inl rfl
  rename_i hne
  by_cases hone : num = 1
  · subst hone
    rw [scan_firstClear hm]
    cases hfirst : firstClear m s lo hi m.regions with
    | none => exact .inl rfl
    | some f =>
      obtain ⟨h1, h2, hclear⟩ := firstClear_some hfirst
      refine .inr ⟨f, h1, h2, ?_, rfl⟩
      intro g hg1 hg2
      rw [show g = f by omega]
      exact hclear
  · rw [findFreeFramesBitmap, if_neg hne, if_pos hone]
    have hrange : lo + (hi - lo) = hi := by omega
    rw [← hrange]
    have hshape := @scanRun_shape m ok s lo lo 0 lo num (hi - lo) le_rfl (fun h => absurd rfl h)
      (fun g h1 h2 => by omega) (by omega)
    rw [hrange] at hshape ⊢
    exact hshape

end Shape

section Paid

/-- From `s` to `t` the free frames went to `n` marked frames and to new leaves, and nowhere else. -/
def Paid (m : MemMap) (s t : Pfa) (n : Nat) : Prop :=
  (freeSet m t).card + t.leafPages + n = (freeSet m s).card + s.leafPages

theorem Paid.refl (m : MemMap) (s : Pfa) : Paid m s s 0 := rfl

theorem Paid.trans (h₁ : Paid m s s' 0) (h₂ : Paid m s' t n) : Paid m s t n := by
  rw [Paid] at *
  omega

theorem NewLeaf.paid (h : NewLeaf m s t l) : Paid m s t 0 := by
  have hl : l ∈ freeSet m s := mem_freeSet.2 ⟨h.lt, h.usable, h.clear⟩
  have hcard := Finset.card_erase_add_one hl
  rw [← freeSet_set h.raw] at hcard
  have hpages := h.leafPages
  rw [Paid]
  omega

theorem prepareRange_go_paid (hk : 0 < m.totalPagesManaged → 0 < m.kernelReservedFrames) (hinv : LeafInv m s)
    (h : bitmapPrepareRange.go m ok start count s fuel frame = (r, s')) : Paid m s s' 0 := by
  induction fuel generalizing s frame with
  | zero =>
    cases h
    exact .refl m _
  | succ fuel ih =>
    rw [bitmapPrepareRange.go] at h
    split at h
    · cases h
      exact .refl m _
    cases hen : bitmapEnsureLeaf m ok s frame start (start + count) with
    | mk r₁ s₁ =>
      have hone : LeafInv m s₁ ∧ Paid m s s₁ 0 := by
        rcases ensureLeaf_cases hinv hk hen with ⟨rfl, -⟩ | ⟨-, -, -, l, hn, -⟩
        · exact ⟨hinv, .refl m s₁⟩
        · exact ⟨hn.inv, hn.paid⟩
      rw [hen] at h
      cases r₁ with
      | false =>
        cases h
        exact hone.2
      | true => exact hone.2.trans (ih hone.1 h)

theorem prepareRange_paid (hk : 0 < m.totalPagesManaged → 0 < m.kernelReservedFrames) (hinv : LeafInv m s)
    (h : bitmapPrepareRange m ok s start count = (r, s')) : Paid m s s' 0 := by
  rw [bitmapPrepareRange] at h
  split at h
  · cases h
    exact .refl m s
  · exact prepareRange_go_paid hk hinv h

theorem setBits_leafPages (hd : ∀ g, start ≤ g → g < start + n →
    g < m.totalPagesManaged ∧ s.directory (g / chunkFrames) ≠ 0) :
    ((List.range' start n).foldl (setBit m ok) s).leafPages = s.leafPages := by
  induction n generalizing s start with
  | zero => rfl
  | succ n ih =>
    obtain ⟨hlt, hdir⟩ := hd start le_rfl (by omega)
    rw [List.range'_succ, List.foldl_cons, setBit_marked hlt hdir, ih]
    · rfl
    · intro g h1 h2
      exact hd g (by omega) (by omega)

theorem takeRun_paid (hm : MapOk m) (he : Exact m s)
    (hrun : ∀ g, start ≤ g → g < start + num → testBit m s g = false)
    (h : takeRun m ok s start num = (addr, s')) :
    addr = 0 ∧ Paid m s s' 0 ∨ addr = start * pageSize ∧ Paid m s s' num := by
  rw [takeRun] at h
  cases hp : bitmapPrepareRange m ok s start num with
  | mk r t =>
    obtain ⟨hprep, hdir⟩ := prepareRange_spec hm.reserved_pos he hp
    have hpaid := prepareRange_paid hm.reserved_pos he.leaves hp
    rw [hp] at h
    cases r with
    | false =>
      cases h
      exact .inl ⟨rfl, hpaid⟩
    | true =>
      cases h
      refine .inr ⟨rfl, hpaid.trans ?_⟩
      have hready : ∀ g, start ≤ g → g < start + num →
          g < m.totalPagesManaged ∧ m.frameIsUsable g = true ∧ bitmapTestRaw m t g = false ∧
            t.directory (g / chunkFrames) ≠ 0 := by
        intro g h1 h2
        obtain ⟨hlt, hu, hc⟩ := testBit_false (hrun g h1 h2)
        exact ⟨hlt, hu, (hprep.same g h1 h2).trans hc, hdir rfl g h1 h2⟩
      obtain ⟨-, -, -, hcard⟩ := setBits_spec ok hprep.took.exact.leaves hready
      have hpages := @setBits_leafPages m ok t start num fun g h1 h2 =>
        ⟨(hready g h1 h2).1, (hready g h1 h2).2.2.2⟩
      have hfree : freeSet m { (List.range' start num).foldl (setBit m ok) t with
          lastAllocHint := start + num
          cachedFree := sub64 ((List.range' start num).foldl (setBit m ok) t).cachedFree num } =
          freeSet m ((List.range' start num).foldl (setBit m ok) t) := freeSet_congr (testRaw_congr rfl rfl)
      rw [Paid, hfree]
      dsimp only
      omega

end Paid

section Obtained

/-- `f` is a frame `pfa_free` takes back as far as the windows go. -/
def MemMap.InWindow (m : MemMap) (f : Nat) : Prop :=
  ¬(f < m.kernelReservedFrames ∧ (f < m.coldLowStartFrame ∨ m.coldLowEndFrame ≤ f) ∧
    (f < m.kernelReclaimLo ∨ m.kernelReclaimHi ≤ f))

/-- A chain of searches from `s`: nothing so far, or a run inside the windows. -/
structure Obtained (m : MemMap) (s : Pfa) (num : Nat) (r : Nat × Pfa) : Prop where
  exact : Exact m r.2
  paid : r.1 = 0 ∧ Paid m s r.2 0 ∨
    ∃ start, 0 < start ∧ r.1 = start * pageSize ∧ Paid m s r.2 num ∧
      ∀ f, start ≤ f → f < start + num → m.InWindow f

theorem Obtained.none (he : Exact m s) : Obtained m s num (0, s) := ⟨he, .inl ⟨rfl, .refl m s⟩⟩

theorem Obtained.trans (hp : Paid m s s' 0) (h : Obtained m s' num r) : Obtained m s num r := by
  refine ⟨h.exact, ?_⟩
  rcases h.paid with ⟨h0, hpaid⟩ | ⟨start, hpos, ha, hpaid, hin⟩
  · exact .inl ⟨h0, hp.trans hpaid⟩
  · exact .inr ⟨start, hpos, ha, hp.trans hpaid, hin⟩

theorem findRange_obtained (hm : MapFits m) (he : Exact m s) (hlo : 0 < lo)
    (hin : ∀ f, lo ≤ f → f < hi → m.InWindow f) :
    Obtained m s num (findFreeFramesRange m ok s lo hi num) := by
  refine ⟨(findFreeFramesRange_found hm.toMapOk he).alloc.exact, ?_⟩
  rcases @findRange_shape m ok s lo hi num hm with h | ⟨start, h1, h2, hclear, h⟩
  · rw [h]
    exact .inl ⟨rfl, .refl m s⟩
  · rw [h]
    rcases @takeRun_paid m ok s _ start num _ hm.toMapOk he hclear rfl with ⟨h0, hpaid⟩ | ⟨ha, hpaid⟩
    · exact .inl ⟨h0, hpaid⟩
    · exact .inr ⟨start, hlo.trans_le h1, ha, hpaid, fun f hf1 hf2 => hin f (h1.trans hf1) (hf2.trans_le h2)⟩

theorem Obtained.orElseRange (hm : MapFits m) (h : Obtained m s num r) (hlo : c = true → 0 < lo)
    (hin : ∀ f, lo ≤ f → f < hi → m.InWindow f) : Obtained m s num (orElseRange m ok c lo hi num r) := by
  rw [Pmm.orElseRange]
  split
  · rename_i hc
    rcases h.paid with ⟨-, hpaid⟩ | ⟨start, hpos, ha, -⟩
    · exact .trans hpaid (findRange_obtained hm h.exact (hlo hc.2) hin)
    · rw [ha] at hc
      exact absurd hc.1 (Nat.mul_ne_zero hpos.ne' (by decide))
  · exact h

theorem findFreeFrames_obtained (hm : WindowsFit m) (he : Exact m s) (hpos : 0 < m.kernelReservedFrames) :
    Obtained m s num (findFreeFrames m ok s num) := by
  rw [findFreeFrames]
  split
  · exact .none he
  dsimp only
  generalize hstart : (if m.totalPagesManaged ≤ (if s.lastAllocHint < m.kernelReservedFrames then
    m.kernelReservedFrames else s.lastAllocHint) then m.kernelReservedFrames else
    if s.lastAllocHint < m.kernelReservedFrames then m.kernelReservedFrames else s.lastAllocHint) = start
  have hge : m.kernelReservedFrames ≤ start := by
    rw [← hstart]
    split <;> split <;> omega
  apply Obtained.orElseRange hm.toMapFits
  · apply Obtained.orElseRange hm.toMapFits
    · apply Obtained.orElseRange hm.toMapFits
      · apply findRange_obtained hm.toMapFits he (hpos.trans_le hge)
        intro f h1 _ hout
        omega
      · exact fun _ => hpos
      · intro f h1 _ hout
        omega
    · exact fun h => hm.cold (of_decide_eq_true h)
    · intro f h1 h2 hout
      omega
  · exact fun h => hm.reclaim (Nat.ne_zero_of_lt (of_decide_eq_true h))
  · intro f h1 h2 hout
    omega

theorem clearBit_leafPages (m : MemMap) (s : Pfa) (f : Nat) : (clearBit m s f).leafPages = s.leafPages := by
  rw [clearBit]
  split <;> rfl

theorem clearBits_leafPages (m : MemMap) (s : Pfa) (fs : List Nat) :
    (fs.foldl (clearBit m) s).leafPages = s.leafPages := by
  induction fs generalizing s with
  | nil => rfl
  | cons f fs ih => exact (ih (clearBit m s f)).trans (clearBit_leafPages m s f)

/-- A run given back at once is paid for by nobody. -/
theorem Paid.giveBack (h : Paid m s s' fs.length) (ht : Took m s s' fs)
    (hd : t.directory = (fs.foldl (clearBit m) s').directory)
    (hl : t.leaf = (fs.foldl (clearBit m) s').leaf)
    (hp : t.leafPages = (fs.foldl (clearBit m) s').leafPages) : Paid m s t 0 := by
  obtain ⟨-, -, -, -, hcard⟩ := clearBits_spec ht.exact.leaves ht.nodup fun f hf =>
    ⟨(ht.taken f hf).1, (ht.taken f hf).2.1, (ht.taken f hf).2.2.2⟩
  have hfree : freeSet m t = freeSet m (fs.foldl (clearBit m) s') := freeSet_congr (testRaw_congr hd hl)
  have hpages := clearBits_leafPages m s' fs
  rw [Paid] at *
  rw [hfree]
  omega

theorem directTurns_obtained (hm : MapFits m) (he : Exact m s) (hpos : 0 < m.kernelReservedFrames)
    (hstart : m.kernelReservedFrames ≤ start) : Obtained m s num (directTurns m ok stop num s left start) := by
  induction left generalizing s start with
  | zero => exact .none he
  | succ left ih =>
    rw [directTurns]
    split
    · exact .none he
    have hget : Obtained m s num (findFreeFramesRange m ok s start stop num) :=
      findRange_obtained hm he (hpos.trans_le hstart) fun f h1 _ hout => by omega
    have hfound : Found m s start num (findFreeFramesRange m ok s start stop num) :=
      findFreeFramesRange_found hm.toMapOk he
    cases hf : findFreeFramesRange m ok s start stop num with
    | mk result t =>
      rw [hf] at hget hfound
      dsimp only
      split
      · rename_i h0
        refine ⟨hget.exact, ?_⟩
        rcases hget.paid with ⟨-, hpaid⟩ | ⟨f, hfpos, ha, -⟩
        · exact .inl ⟨rfl, hpaid⟩
        · exact absurd ((show result = f * pageSize from ha).symm.trans h0)
            (Nat.mul_ne_zero hfpos.ne' (by decide))
      · rename_i hne
        split
        · exact hget
        · rcases hfound with ⟨h0, -⟩ | ⟨f, hge, ha, ht⟩
          · exact absurd h0 hne
          have hdiv : result / pageSize = f := by
            rw [show result = f * pageSize from ha, Nat.mul_div_cancel _ (by decide)]
          have hpaid : Paid m s t (List.range' f num).length := by
            rw [List.length_range']
            rcases hget.paid with ⟨h0, -⟩ | ⟨-, -, -, hpaid, -⟩
            · exact absurd h0 hne
            · exact hpaid
          rw [hdiv]
          have hback := ht.giveBack (t := { (List.range' f num).foldl (clearBit m) t with
            cachedFree := ((List.range' f num).foldl (clearBit m) t).cachedFree + num })
            rfl rfl (by rw [List.length_range'])
          have hnone := hpaid.giveBack (t := { (List.range' f num).foldl (clearBit m) t with
            cachedFree := ((List.range' f num).foldl (clearBit m) t).cachedFree + num }) ht rfl rfl rfl
          exact .trans hnone (ih hback.exact (by omega))

theorem findDirectFrames_obtained (hm : MapFits m) (he : Exact m s) (hpos : 0 < m.kernelReservedFrames) :
    Obtained m s num (findDirectFrames m ok s stop num) := by
  rw [findDirectFrames]
  dsimp only
  generalize (if m.totalPagesManaged < _ then _ else _ : Nat) = stop'
  have h : Obtained m s num (directTurns m ok stop' num s (stop' - m.kernelReservedFrames)
      m.kernelReservedFrames) := directTurns_obtained hm he hpos le_rfl
  generalize directTurns m ok stop' num s (stop' - m.kernelReservedFrames) m.kernelReservedFrames = r at h
  obtain ⟨result, t⟩ := r
  have hfree : freeSet m { t with lastAllocHint := s.lastAllocHint } = freeSet m t :=
    freeSet_congr (testRaw_congr rfl rfl)
  have hsame : Took m t { t with lastAllocHint := s.lastAllocHint } [] := h.exact.congr rfl rfl rfl
  refine ⟨hsame.exact, ?_⟩
  rcases h.paid with ⟨h0, hpaid⟩ | ⟨start, hs, ha, hpaid, hin⟩
  · refine .inl ⟨h0, ?_⟩
    rw [Paid, hfree]
    exact hpaid
  · refine .inr ⟨start, hs, ha, ?_, hin⟩
    rw [Paid, hfree]
    exact hpaid

/-- A call for `n` frames in one run. -/
def PfaOp.IsRun (op : PfaOp) (n : Nat) : Prop :=
  op = .pmmAllocPages n ∨ ∃ maxPhys, op = .pfaAllocContiguousBelow n maxPhys

theorem exec_obtained (hm : WindowsFit m) (he : Exact m s) (hpos : 0 < m.kernelReservedFrames) {c : PfaCall}
    (hc : c.op.IsRun n) : Obtained m s n (c.exec m s) := by
  obtain ⟨op, ok⟩ := c
  rcases hc with rfl | ⟨maxPhys, rfl⟩
  · rw [PfaCall.exec]
    dsimp only
    rw [Pmm.pmmAllocPages]
    split
    · exact .none he
    · exact findFreeFrames_obtained hm he hpos
  · rw [PfaCall.exec]
    dsimp only
    rw [Pmm.pfaAllocContiguousBelow]
    split
    · exact .none he
    · exact findDirectFrames_obtained hm.toMapFits he hpos

end Obtained

section Undone

/-- The frames of a run of `n` frames at the address `addr`. -/
def InRun (addr n f : Nat) : Prop := addr / pageSize ≤ f ∧ f < addr / pageSize + n

/-- After the run that a search of `s` returned in `r` was freed, giving `t`: the bits of its frames are clear
again, no other bit has changed, and the counter is what it was but for the leaves made on the way. -/
def Undone (m : MemMap) (s : Pfa) (n : Nat) (r : Nat × Pfa) (t : Pfa) : Prop :=
  (∀ f, InRun r.1 n f → bitmapTestRaw m t f = false) ∧
    (∀ f, ¬InRun r.1 n f → bitmapTestRaw m t f = bitmapTestRaw m r.2 f) ∧
    t.cachedFree + t.leafPages = s.cachedFree + s.leafPages

theorem Gave.card {fs : List Nat} (h : Gave m s t fs) (hnd : fs.Nodup)
    (hfs : ∀ f ∈ fs, f < m.totalPagesManaged ∧ m.frameIsUsable f = true ∧ bitmapTestRaw m s f = true) :
    (freeSet m t).card = (freeSet m s).card + fs.length := by
  have hset : freeSet m t = freeSet m s ∪ fs.toFinset := by
    ext f
    rw [Finset.mem_union, List.mem_toFinset, mem_freeSet, mem_freeSet, h.raw]
    by_cases hf : f ∈ fs
    · simp [hf, hfs f hf]
    · simp [hf]
  have hdisj : Disjoint (freeSet m s) fs.toFinset := by
    rw [Finset.disjoint_left]
    intro f hfree hf
    have hmark := (hfs f (List.mem_toFinset.1 hf)).2.2
    rw [(mem_freeSet.1 hfree).2.2] at hmark
    cases hmark
  rw [hset, Finset.card_union_of_disjoint hdisj, List.toFinset_card_of_nodup hnd]

/-- A run that a call returned: where it lies, what it cost and that its frames are the caller's. -/
structure Lent (m : MemMap) (s : Pfa) (n start : Nat) (r : Nat × Pfa) : Prop where
  exact : Exact m r.2
  addr : r.1 = start * pageSize
  paid : Paid m s r.2 n
  window : ∀ f, start ≤ f → f < start + n → m.InWindow f
  owned : ∀ f, start ≤ f → f < start + n → f < m.totalPagesManaged ∧ m.frameIsUsable f = true ∧
    m.frameIsReserved f = false ∧ bitmapTestRaw m r.2 f = true ∧ ¬r.2.IsLeaf f

theorem exec_lent (h : MemoryInv w) {c : PfaCall} (hc : c.op.IsRun n) (hn : 1 ≤ n)
    (hne : (c.exec w.map w.pfa).1 ≠ 0) : ∃ start, Lent w.map w.pfa n start (c.exec w.map w.pfa) := by
  have hpages : c.op.pages = n := by
    rcases hc with hc | ⟨maxPhys, hc⟩ <;> rw [hc] <;> rfl
  have htook : Took w.map w.pfa (c.exec w.map w.pfa).2 (framesOf (c.exec w.map w.pfa).1 n) := by
    have hframes : c.frames w.map w.pfa = framesOf (c.exec w.map w.pfa).1 n := by
      rw [PfaCall.frames, hpages]
    rw [← hframes]
    apply PfaCall.alloc h.fit.toMapOk h.exact
    · intro hop
      rcases hc with hc | ⟨maxPhys, hc⟩ <;> rw [hc] at hop <;> cases hop
    · intro physAddr k
      rcases hc with hc | ⟨maxPhys, hc⟩ <;> rw [hc] <;>
        exact ⟨(fun h => by cases h), (fun h => by cases h)⟩
  have hpos : 0 < w.map.kernelReservedFrames := by
    -- a frame was taken, so some memory is managed
    have hmem : (c.exec w.map w.pfa).1 / pageSize ∈ framesOf (c.exec w.map w.pfa).1 n := by
      rw [framesOf, if_neg hne, List.mem_range'_1]
      simp only [pageSize]
      omega
    exact h.fit.reserved_pos (Nat.zero_lt_of_lt (htook.taken _ hmem).1)
  have hget := exec_obtained (s := w.pfa) h.fit h.exact hpos hc
  rcases hget.paid with ⟨h0, -⟩ | ⟨start, hs, ha, hpaid, hin⟩
  · exact absurd h0 hne
  refine ⟨start, hget.exact, ha, hpaid, hin, ?_⟩
  intro f h1 h2
  have hmem : f ∈ framesOf (c.exec w.map w.pfa).1 n := by
    rw [ha, framesOf_mul, if_neg hs.ne']
    exact List.mem_range'_1.2 ⟨h1, h2⟩
  obtain ⟨hlt, hu, hclear, hset, hleaf⟩ := htook.taken f hmem
  refine ⟨hlt, hu, ?_, hset, hleaf⟩
  by_contra hres
  rw [h.reserved f hlt hu (by simpa using hres)] at hclear
  cases hclear

theorem Lent.inRun (h : Lent m s n start r) : InRun r.1 n f ↔ start ≤ f ∧ f < start + n := by
  rw [InRun, h.addr, Nat.mul_div_cancel _ (by decide)]

/-- Freeing all of a run and nothing else undoes the call that returned it. -/
theorem Lent.undone (h : Lent m s n start r) (he : Exact m s) (hg : Gave m r.2 t (List.range' start n))
    (hp : t.leafPages = r.2.leafPages) : Undone m s n r t := by
  refine ⟨?_, ?_, ?_⟩
  · intro f hf
    rw [hg.raw, if_pos (List.mem_range'_1.2 (h.inRun.1 hf))]
  · intro f hf
    rw [hg.raw, if_neg fun hmem => hf (h.inRun.2 (List.mem_range'_1.1 hmem))]
  · have hcard := hg.card List.nodup_range' fun f hf => by
      obtain ⟨h1, h2⟩ := List.mem_range'_1.1 hf
      obtain ⟨hlt, hu, -, hset, -⟩ := h.owned f h1 h2
      exact ⟨hlt, hu, hset⟩
    have hpaid := h.paid
    rw [Paid] at hpaid
    rw [List.length_range'] at hcard
    rw [hg.exact.count, he.count, hp]
    omega

theorem freeTurns_leafPages : (freeTurns m left idx freed s).2.leafPages = s.leafPages := by
  induction left generalizing s idx freed with
  | zero => rfl
  | succ left ih =>
    rw [freeTurns]
    split
    · rfl
    split
    · exact ih
    split
    · exact ih
    split
    · rw [ih]
      exact clearBit_leafPages m s idx
    · exact ih

theorem pfaFreeContiguous_leafPages : (pfaFreeContiguous m s physAddr num).leafPages = s.leafPages := by
  rw [pfaFreeContiguous]
  split
  · rfl
  · dsimp only
    split
    · exact freeTurns_leafPages
    · exact freeTurns_leafPages

theorem pfaFree_leafPages : (pfaFree m s physAddr released).leafPages = s.leafPages := by
  rw [pfaFree]
  split
  · rfl
  dsimp only
  split
  · rfl
  split
  · rfl
  split
  · exact clearBit_leafPages m s _
  · rfl

/-- The frames below the kernel's end that `pfa_free_contiguous` passes over: it knows the released cold range
and not the reclaimed one. -/
def MemMap.PassedOver (m : MemMap) (f : Nat) : Prop :=
  f < m.kernelReservedFrames ∧ (f < m.coldLowStartFrame ∨ m.coldLowEndFrame ≤ f)

theorem Lent.freeContiguous (h : Lent m s n start r) (he : Exact m s) :
    Undone m s n r (pfaFreeContiguous m r.2 r.1 n) ↔ ∀ f, InRun r.1 n f → ¬m.PassedOver f := by
  have hdiv : r.1 / pageSize = start := by
    rw [h.addr, Nat.mul_div_cancel _ (by decide)]
  have hgave : Gave m r.2 (pfaFreeContiguous m r.2 r.1 n) (contiguousFreed m r.2 start n) := by
    have hleaves : ∀ f, r.1 / pageSize ≤ f → f < r.1 / pageSize + n → ¬r.2.IsLeaf f := by
      intro f h1 h2
      rw [hdiv] at h1 h2
      exact (h.owned f h1 h2).2.2.2.2
    have hall := pfaFreeContiguous_gave h.exact hleaves
    have halign : r.1 % pageSize = 0 := by
      rw [h.addr, Nat.mul_mod_left]
    rw [if_pos halign, hdiv] at hall
    exact hall
  constructor
  · intro hundone f hf hpass
    obtain ⟨h1, h2⟩ := h.inRun.1 hf
    have hclear := hundone.1 f hf
    rw [hgave.raw, if_neg fun hmem => (mem_contiguousFreed.1 hmem).2.2.1 hpass, (h.owned f h1 h2).2.2.2.1] at hclear
    cases hclear
  · intro hcond
    apply h.undone he _ pfaFreeContiguous_leafPages
    apply hgave.of_mem
    intro f
    rw [mem_contiguousFreed, List.mem_range'_1]
    constructor
    · exact fun hf => hf.1
    · intro hf
      obtain ⟨hlt, hu, hres, hset, -⟩ := h.owned f hf.1 hf.2
      exact ⟨hf, hlt, hcond f (h.inRun.2 hf), hu, by rw [hres]; exact Bool.false_ne_true, hset⟩

/-- `pfa_free` on each frame of a run, none of them with a reference node. -/
def pfaFreeEach (m : MemMap) (s : Pfa) (addr n : Nat) : Pfa :=
  (List.range' (addr / pageSize) n).foldl (fun s f => pfaFree m s (f * pageSize) 0) s

theorem pfaFrees_gave {fs : List Nat} (he : Exact m s) (hnd : fs.Nodup)
    (hfs : ∀ f ∈ fs, m.freeable f = true ∧ bitmapTestRaw m s f = true ∧ ¬s.IsLeaf f) :
    Gave m s (fs.foldl (fun s f => pfaFree m s (f * pageSize) 0) s) fs ∧
      (fs.foldl (fun s f => pfaFree m s (f * pageSize) 0) s).leafPages = s.leafPages := by
  induction fs generalizing s with
  | nil => exact ⟨.refl he, rfl⟩
  | cons f fs ih =>
    obtain ⟨hf, hnd'⟩ := List.nodup_cons.1 hnd
    obtain ⟨hfree, hset, hl⟩ := hfs f List.mem_cons_self
    have hdiv : f * pageSize / pageSize = f := Nat.mul_div_cancel _ (by decide)
    have hone : Gave m s (pfaFree m s (f * pageSize) 0) [f] := by
      have h : Gave m s (pfaFree m s (f * pageSize) 0) (pfaFreed m s (f * pageSize) 0) :=
        pfaFree_gave he (by rwa [hdiv])
      rw [pfaFreed, hdiv, if_pos ⟨Nat.mul_mod_left _ _, hfree, rfl, hset⟩] at h
      exact h
    obtain ⟨hrest, hpages⟩ := ih hone.exact hnd' fun g hg => by
      obtain ⟨h1, h2, h3⟩ := hfs g (List.mem_cons_of_mem _ hg)
      have hne : g ∉ [f] := fun hgf => hf (List.mem_singleton.1 hgf ▸ hg)
      rw [hone.raw, if_neg hne]
      exact ⟨h1, h2, fun hl => h3 (hone.leaf g hl)⟩
    exact ⟨hone.trans hrest, hpages.trans pfaFree_leafPages⟩

theorem Lent.freeEach (h : Lent m s n start r) (he : Exact m s) : Undone m s n r (pfaFreeEach m r.2 r.1 n) := by
  have hdiv : r.1 / pageSize = start := by
    rw [h.addr, Nat.mul_div_cancel _ (by decide)]
  have hfree : ∀ f ∈ List.range' start n,
      m.freeable f = true ∧ bitmapTestRaw m r.2 f = true ∧ ¬r.2.IsLeaf f := by
    intro f hf
    obtain ⟨h1, h2⟩ := List.mem_range'_1.1 hf
    obtain ⟨hlt, hu, hres, hset, hl⟩ := h.owned f h1 h2
    refine ⟨?_, hset, hl⟩
    rw [MemMap.freeable, decide_eq_true_eq]
    exact ⟨hlt, h.window f h1 h2, hu, by rw [hres]; exact Bool.false_ne_true⟩
  obtain ⟨hgave, hpages⟩ := pfaFrees_gave h.exact List.nodup_range' hfree
  rw [pfaFreeEach, hdiv]
  exact h.undone he hgave hpages

/-- In every run from `pfa_init`, a run of frames that a call has returned is undone by `pfa_free_contiguous`
exactly when none of its frames is one that function passes over, and by `pfa_free` on each frame always. -/
theorem free_undoes_iff (b : Boot) (ok₀ : Nat → Bool) (hinit : InitMarks b ok₀) (halign : b.ReservedAligned)
    (ops : List MemoryOp) (hops : Along memoryStep (fun w op => op.Legal w) (b.memory ok₀) ops)
    (c : PfaCall) (n : Nat) (hc : c.op.IsRun n) (hn : 1 ≤ n) :
    let w := ops.foldl memoryStep (b.memory ok₀)
    let r := c.exec w.map w.pfa
    r.1 ≠ 0 →
      (Undone w.map w.pfa n r (pfaFreeContiguous w.map r.2 r.1 n) ↔
        ∀ f, InRun r.1 n f → ¬w.map.PassedOver f) ∧
      Undone w.map w.pfa n r (pfaFreeEach w.map r.2 r.1 n) := by
  intro w r hne
  have hinv : MemoryInv w := memory_run_inv b hinit halign hops
  obtain ⟨start, hlent⟩ := exec_lent hinv hc hn hne
  exact ⟨hlent.freeContiguous hinv.exact, hlent.freeEach hinv.exact⟩

theorem free_undoes_iff_small :
    let r := pmmAllocPages smallBoot.memMap (fun _ => true) (pfaInit smallBoot fun _ => true) 2
    Undone smallBoot.memMap (pfaInit smallBoot fun _ => true) 2 r (pfaFreeEach smallBoot.memMap r.2 r.1 2) := by
  have halign : smallBoot.ReservedAligned := by
    intro r hr
    rw [List.mem_singleton.1 hr]
    decide
  have hne : (pmmAllocPages smallBoot.memMap (fun _ => true) (pfaInit smallBoot fun _ => true) 2).1 ≠ 0 := by
    decide +kernel
  exact (free_undoes_iff smallBoot (fun _ => true) smallBoot_marks halign [] trivial
    ⟨.pmmAllocPages 2, fun _ => true⟩ 2 (.inl rfl) (by decide) hne).2

/-- A kernel of four frames with one frame above it, which becomes the bitmap's leaf. -/
def tightBoot : Boot where
  regions := [⟨0, 0x5000⟩]
  reserved := []
  modules := []
  kernelEnd := 0x4000
  bumpCurrent := 0x4000
  activeRegion := 0
  lowBump := 0x4000
  disjoint := List.pairwise_singleton _ _
  bounded := by
    intro r hr
    rw [List.mem_singleton.1 hr]
    decide
  kernel_pos := by decide

/-- Two frames of the kernel are reclaimed, one of them is handed out, and `pfa_free_contiguous` leaves it marked. -/
theorem reclaimed_run_leaks :
    let w := memoryStep (tightBoot.memory fun _ => true) (.pfaReclaimKernelRange 0x2000 0x4000)
    let r := pmmAllocPages w.map (fun _ => true) w.pfa 1
    r.1 = 0x2000 ∧ ¬Undone w.map w.pfa 1 r (pfaFreeContiguous w.map r.2 r.1 1) := by
  intro w r
  have haddr : r.1 = 0x2000 := by decide +kernel
  refine ⟨haddr, ?_⟩
  rintro ⟨hclear, -⟩
  have hset : bitmapTestRaw w.map (pfaFreeContiguous w.map r.2 r.1 1) 2 = true := by decide +kernel
  rw [hclear 2 (by rw [haddr, InRun]; decide)] at hset
  cases hset

end Undone

end Lebirun.Pmm
