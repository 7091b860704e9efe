import Mathlib
import Lebirun.Pmm.Marks

namespace Lebirun.Pmm
set_option autoImplicit true

open Machine

variable {m : MemMap} {b : Boot} {ok : Nat → Bool} {s s' t : Pfa} {f g l : Nat}

/-- The frames that module tags cover. -/
def Boot.inModule (b : Boot) (f : Nat) : Prop :=
  ∃ mod ∈ b.modules, pageDown mod.1 / pageSize ≤ f ∧ f < pageUp mod.2 / pageSize

/-- `set_bit` on `f` has to make a leaf, and `bitmap_leaf_candidate` gives it the frame `l`. -/
def LeafChosen (m : MemMap) (ok : Nat → Bool) (s : Pfa) (f l : Nat) : Prop :=
  f < m.totalPagesManaged ∧ s.directory (f / chunkFrames) = 0 ∧
    bitmapLeafCandidate m ok s (f / chunkFrames) f (f + 1) = some l

/-- A turn of the loops over reserved regions and modules that calls `set_bit`. -/
def SetsBit (m : MemMap) (s : Pfa) (f : Nat) : Prop := f < m.totalPagesManaged ∧ testBit m s f = false

/-- A property of every state in which `pfa_init` calls `set_bit`, with the frame it is called on. -/
def Boot.AtEachSetBit (b : Boot) (ok : Nat → Bool) (P : Pfa → Nat → Prop) : Prop :=
  Along (setBit b.memMap ok) P b.setup (List.range b.kernelFrames) ∧
    Along (markFrame b.memMap ok) (fun p f => SetsBit b.memMap p.1 f → P p.1 f)
      (b.kernelMarked ok, b.totalFree) b.markedFrames

/-- No leaf that `pfa_init` makes lies in a module or in reserved memory. -/
def Boot.LeavesApart (b : Boot) (ok : Nat → Bool) : Prop :=
  b.AtEachSetBit ok fun s f => ∀ l, LeafChosen b.memMap ok s f l →
    ¬b.inModule l ∧ b.memMap.frameIsReserved l = false

/-- Every usable frame of a module is marked when `pfa_init` returns. -/
def Boot.ModulesMarked (b : Boot) (ok : Nat → Bool) : Prop :=
  ∀ f, b.inModule f → b.memMap.frameIsUsable f = true → bitmapTestRaw b.memMap (pfaInit b ok) f = true

/-- The frames `bitmap_leaf_candidate` may take for the leaf of the chunk of `f`. -/
structure Eligible (m : MemMap) (ok : Nat → Bool) (s : Pfa) (f g : Nat) : Prop where
  above : m.kernelReservedFrames ≤ g
  managed : g < m.totalPagesManaged
  direct : g < directFrames
  other : g ≠ f
  usable : m.frameIsUsable g = true
  unreserved : m.frameIsReserved g = false
  stored : g / chunkFrames = f / chunkFrames ∨ bitmapGetLeaf m s g ≠ none
  clear : bitmapTestRaw m s g = false
  mapped : ok (g * pageSize) = true

/-- Where a leaf has to be made, no module has the lowest of the eligible frames. -/
def Boot.Shielded (b : Boot) (ok : Nat → Bool) (s : Pfa) (f : Nat) : Prop :=
  f < b.memMap.totalPagesManaged → s.directory (f / chunkFrames) = 0 →
    ∀ g, Eligible b.memMap ok s f g → b.inModule g → ∃ g' < g, Eligible b.memMap ok s f g' ∧ ¬b.inModule g'

/-- The loops of `pfa_init` meet `f` at a turn where its chunk has a leaf or a frame for one. -/
def Boot.LeafAtTurn (b : Boot) (ok : Nat → Bool) (f : Nat) : Prop :=
  ∃ before after, b.markedFrames = before ++ f :: after ∧
    let s := (before.foldl (markFrame b.memMap ok) (b.kernelMarked ok, b.totalFree)).1
    s.directory (f / chunkFrames) ≠ 0 ∨ ∃ g, Eligible b.memMap ok s f g

section Candidate

theorem candidate_pred :
    decide (¬(f ≤ g ∧ g < f + 1) ∧ m.frameIsUsable g = true ∧ ¬m.frameIsReserved g = true ∧
      ¬(g / chunkFrames ≠ f / chunkFrames ∧ bitmapGetLeaf m s g = none) ∧
      ¬bitmapTestRaw m s g = true ∧ ok (g * pageSize) = true) = true ∧
      m.kernelReservedFrames ≤ g ∧
      g < (if directFrames > m.totalPagesManaged then m.totalPagesManaged else directFrames) ↔
    Eligible m ok s f g := by
  rw [decide_eq_true_eq]
  constructor
  · rintro ⟨⟨hne, hu, hres, hch, hclear, hok⟩, hge, hlt⟩
    have hlim : g < m.totalPagesManaged ∧ g < directFrames := by
      split at hlt <;> omega
    refine ⟨hge, hlim.1, hlim.2, fun h => hne (by omega), hu, by simpa using hres, ?_, by simpa using hclear, hok⟩
    by_contra hcon
    exact hch (not_or.1 hcon |>.imp_right not_not.1)
  · intro h
    have hlim : g < (if directFrames > m.totalPagesManaged then m.totalPagesManaged else directFrames) := by
      split
      · exact h.managed
      · exact h.direct
    have hother := h.other
    refine ⟨⟨fun hin => hother (by omega), h.usable, ?_, ?_, ?_, h.mapped⟩, h.above, hlim⟩
    · rw [h.unreserved]
      exact Bool.false_ne_true
    · rintro ⟨hc, hl⟩
      exact h.stored.elim hc fun hs => hs hl
    · rw [h.clear]
      exact Bool.false_ne_true

/-- The candidate is the lowest eligible frame. -/
theorem candidate_eq_some :
    bitmapLeafCandidate m ok s (f / chunkFrames) f (f + 1) = some l ↔
      Eligible m ok s f l ∧ ∀ g < l, ¬Eligible m ok s f g := by
  rw [bitmapLeafCandidate, List.find?_range'_eq_some, List.mem_range'_1]
  constructor
  · rintro ⟨hp, ⟨h1, h2⟩, hmin⟩
    refine ⟨candidate_pred.1 ⟨hp, h1, by omega⟩, ?_⟩
    intro g hg he
    have hno := hmin g he.above hg
    rw [(candidate_pred.2 he).1] at hno
    cases hno
  · rintro ⟨hl, hmin⟩
    obtain ⟨hp, h1, h2⟩ := candidate_pred.2 hl
    refine ⟨hp, ⟨h1, by omega⟩, ?_⟩
    intro g h1' hg
    rw [Bool.not_eq_true']
    by_contra hpg
    exact hmin g hg (candidate_pred.1 ⟨by simpa using hpg, h1', by omega⟩)

theorem candidate_ne_none :
    bitmapLeafCandidate m ok s (f / chunkFrames) f (f + 1) ≠ none ↔ ∃ g, Eligible m ok s f g := by
  constructor
  · intro h
    obtain ⟨l, hl⟩ := Option.ne_none_iff_exists'.1 h
    exact ⟨l, (candidate_eq_some.1 hl).1⟩
  · rintro ⟨g, hg⟩
    classical
    have hleast := Nat.find_spec (⟨g, hg⟩ : ∃ g, Eligible m ok s f g)
    rw [candidate_eq_some.2 ⟨hleast, fun k hk => Nat.find_min _ hk⟩]
    exact Option.some_ne_none _

/-- The leaf that is made stays out of the modules exactly when they do not have the lowest eligible frame. -/
theorem apart_iff_shielded :
    (∀ l, LeafChosen b.memMap ok s f l → ¬b.inModule l ∧ b.memMap.frameIsReserved l = false) ↔
      b.Shielded ok s f := by
  constructor
  · intro h hlt hd g hg hmod
    classical
    have hleast := Nat.find_spec (⟨g, hg⟩ : ∃ g, Eligible b.memMap ok s f g)
    have hmin : ∀ k < Nat.find (⟨g, hg⟩ : ∃ g, Eligible b.memMap ok s f g), ¬Eligible b.memMap ok s f k :=
      fun k hk => Nat.find_min _ hk
    generalize Nat.find (⟨g, hg⟩ : ∃ g, Eligible b.memMap ok s f g) = l at hleast hmin
    have hout := (h l ⟨hlt, hd, candidate_eq_some.2 ⟨hleast, hmin⟩⟩).1
    refine ⟨l, ?_, hleast, hout⟩
    rcases Nat.lt_trichotomy l g with h | rfl | h
    · exact h
    · exact absurd hmod hout
    · exact absurd hg (hmin g h)
  · rintro h l ⟨hlt, hd, hcand⟩
    obtain ⟨hl, hmin⟩ := candidate_eq_some.1 hcand
    refine ⟨?_, hl.unreserved⟩
    intro hmod
    obtain ⟨g, hg, he, -⟩ := h hlt hd l hl hmod
    exact hmin g hg he

theorem Along.congr {σ α : Type} {step : σ → α → σ} {P Q : σ → α → Prop} (h : ∀ s a, P s a ↔ Q s a)
    {s : σ} {as : List α} : Along step P s as ↔ Along step Q s as := by
  induction as generalizing s with
  | nil => exact Iff.rfl
  | cons a as ih => exact and_congr (h s a) ih

theorem leavesApart_iff : b.LeavesApart ok ↔ b.AtEachSetBit ok (b.Shielded ok) := by
  rw [Boot.LeavesApart, Boot.AtEachSetBit, Boot.AtEachSetBit]
  apply and_congr
  · exact Along.congr fun s f => apart_iff_shielded
  · exact Along.congr fun p f => imp_congr_right fun _ => apart_iff_shielded

end Candidate

section Turns

/-- `bitmap_ensure_leaf` marks nothing but the leaf it makes. -/
theorem ensureLeaf_only (hk : 0 < m.totalPagesManaged → 0 < m.kernelReservedFrames) (hinv : LeafInv m s)
    (h : bitmapEnsureLeaf m ok s f f (f + 1) = (r, t)) (hset : bitmapTestRaw m t g = true) :
    bitmapTestRaw m s g = true ∨ LeafChosen m ok s f g := by
  rw [bitmapEnsureLeaf] at h
  split at h
  · cases h
    exact .inl hset
  rename_i hf
  dsimp only at h
  split at h
  · cases h
    exact .inl hset
  rename_i hd
  have hc : s.directory (f / chunkFrames) = 0 := not_not.1 hd
  split at h
  · cases h
    exact .inl hset
  rename_i l hcand
  obtain ⟨st, hst, hnew⟩ := newLeaf_of_candidate (u := t) hinv hk hc hcand
    (t := { s with
      leaf := Function.update s.leaf l fun _ => 0
      directory := Function.update s.directory (f / chunkFrames) l }) rfl rfl
  rw [hst] at h
  cases h
  rw [(hnew rfl rfl rfl rfl).raw] at hset
  split at hset
  · rename_i hgl
    rw [hgl]
    exact .inr ⟨Nat.not_le.1 hf, hc, hcand⟩
  · exact .inl hset

theorem setBit_only (hk : 0 < m.totalPagesManaged → 0 < m.kernelReservedFrames) (hinv : LeafInv m s)
    (hset : bitmapTestRaw m (setBit m ok s f) g = true) :
    bitmapTestRaw m s g = true ∨ g = f ∨ LeafChosen m ok s f g := by
  rw [setBit] at hset
  split at hset
  · exact .inl hset
  cases hen : bitmapEnsureLeaf m ok s f f (f + 1) with
  | mk r t =>
    have hbefore : bitmapTestRaw m t g = true → bitmapTestRaw m s g = true ∨ g = f ∨ LeafChosen m ok s f g := by
      intro ht
      rcases ensureLeaf_only hk hinv hen ht with h | h
      · exact .inl h
      · exact .inr (.inr h)
    have ht : LeafInv m t := by
      rcases ensureLeaf_cases hinv hk hen with ⟨rfl, -⟩ | ⟨-, -, -, l, hn, -⟩
      · exact hinv
      · exact hn.inv
    rw [hen] at hset
    cases r with
    | false => exact hbefore hset
    | true =>
      dsimp only at hset
      split at hset
      · exact hbefore hset
      · rename_i l hl
        rw [testRaw_orBit ht.inj hl] at hset
        split at hset
        · rename_i hgf
          exact .inr (.inl hgf)
        · exact hbefore hset

theorem setBit_nowhere (hd : s.directory (f / chunkFrames) = 0)
    (hc : bitmapLeafCandidate m ok s (f / chunkFrames) f (f + 1) = none) : setBit m ok s f = s := by
  rw [setBit]
  split
  · rfl
  rename_i hf
  rw [bitmapEnsureLeaf, if_neg hf]
  dsimp only
  rw [if_neg (not_not.2 hd), hc]

theorem markFrame_only (hk : 0 < m.totalPagesManaged → 0 < m.kernelReservedFrames) {p : Pfa × Nat}
    (hinv : LeafInv m p.1) (hset : bitmapTestRaw m (markFrame m ok p f).1 g = true) :
    bitmapTestRaw m p.1 g = true ∨ g = f ∨ SetsBit m p.1 f ∧ LeafChosen m ok p.1 f g := by
  rw [markFrame] at hset
  split at hset
  · rename_i hc
    rcases setBit_only hk hinv hset with h | h | h
    · exact .inl h
    · exact .inr (.inl h)
    · exact .inr (.inr ⟨⟨hc.1, by simpa using hc.2⟩, h⟩)
  · exact .inl hset

/-- A frame that the loop marks and never takes for a leaf is marked at a turn of its own. -/
theorem marked_at_turn (hk : 0 < m.totalPagesManaged → 0 < m.kernelReservedFrames) {p : Pfa × Nat}
    (hinv : LeafInv m p.1) {fs : List Nat}
    (hfs : Along (markFrame m ok) (fun p g => SetsBit m p.1 g → ¬LeafChosen m ok p.1 g f) p fs)
    (hclear : bitmapTestRaw m p.1 f = false)
    (hset : bitmapTestRaw m (fs.foldl (markFrame m ok) p).1 f = true) :
    ∃ before after, fs = before ++ f :: after ∧
      ((before.foldl (markFrame m ok) p).1.directory (f / chunkFrames) ≠ 0 ∨
        bitmapLeafCandidate m ok (before.foldl (markFrame m ok) p).1 (f / chunkFrames) f (f + 1) ≠ none) := by
  induction fs generalizing p with
  | nil =>
    rw [List.foldl_nil, hclear] at hset
    cases hset
  | cons g fs ih =>
    cases hnow : bitmapTestRaw m (markFrame m ok p g).1 f with
    | false =>
      obtain ⟨before, after, hsplit, hfound⟩ := ih (markFrame_more hk hinv).leaves hfs.2 hnow hset
      exact ⟨g :: before, after, by rw [hsplit, List.cons_append], hfound⟩
    | true =>
      have hgf : f = g := by
        rcases markFrame_only hk hinv hnow with h | h | ⟨hs, hl⟩
        · rw [hclear] at h
          cases h
        · exact h
        · exact absurd hl (hfs.1 hs)
      subst hgf
      refine ⟨[], fs, rfl, ?_⟩
      by_contra hno
      obtain ⟨hd, hc⟩ := not_or.1 hno
      have hsame : (markFrame m ok p f).1 = p.1 := by
        rw [markFrame]
        split
        · exact setBit_nowhere (not_not.1 hd) (not_not.1 hc)
        · rfl
      rw [hsame, hclear] at hnow
      cases hnow

theorem usable_managed (b : Boot) (hu : b.memMap.frameIsUsable f = true) :
    f < b.memMap.totalPagesManaged ∧ detectedMaxPhys b.regions ≠ 0 := by
  have hany : b.regions.any (fun r => r.base ≤ f * pageSize ∧ f * pageSize + pageSize ≤ r.limit) = true := hu
  rw [List.any_eq_true] at hany
  obtain ⟨r, hr, hin⟩ := hany
  obtain ⟨-, hend⟩ := of_decide_eq_true hin
  have htop := detectedMaxPhys_ge b.bounded hr
  have hroom : f * pageSize + pageSize ≤ detectedMaxPhys b.regions := hend.trans htop
  constructor
  · show f < (detectedMaxPhys b.regions + pageSize - 1) / pageSize
    simp only [pageSize] at *
    omega
  · simp only [pageSize] at *
    omega

theorem mem_markedFrames_of_module (h : b.inModule f) : f ∈ b.markedFrames := by
  obtain ⟨mod, hmod, h1, h2⟩ := h
  rw [Boot.markedFrames, List.mem_append]
  right
  rw [List.mem_flatMap]
  exact ⟨mod, hmod, List.mem_range'_1.2 ⟨h1, by omega⟩⟩

/-- With the leaves apart, a usable module frame is marked exactly when its chunk has a leaf, or can get one, at
one of its turns. -/
theorem module_marked_iff (hapart : b.LeavesApart ok) (hmod : b.inModule f)
    (hu : b.memMap.frameIsUsable f = true) :
    bitmapTestRaw b.memMap (pfaInit b ok) f = true ↔ b.LeafAtTurn ok f := by
  obtain ⟨hlt, h0⟩ := usable_managed b hu
  have hk := (boot_mapOk b).reserved_pos
  have hinv : LeafInv b.memMap (b.kernelMarked ok) := (kernelMarked_more b).leaves
  rw [pfaInit_raw b h0]
  constructor
  · intro hset
    cases hclear : bitmapTestRaw b.memMap (b.kernelMarked ok) f with
    | true =>
      obtain ⟨before, after, hsplit⟩ := List.append_of_mem (mem_markedFrames_of_module hmod)
      refine ⟨before, after, hsplit, .inl ?_⟩
      apply (markFrames_more hk hinv before).kept
      intro hd
      have hnone : bitmapGetLeaf b.memMap (b.kernelMarked ok) f = none := by
        rw [bitmapGetLeaf, hd]
        split <;> rfl
      rw [testRaw_none hnone] at hclear
      cases hclear
    | false =>
      have hnever : Along (markFrame b.memMap ok)
          (fun p g => SetsBit b.memMap p.1 g → ¬LeafChosen b.memMap ok p.1 g f)
          (b.kernelMarked ok, b.totalFree) b.markedFrames := by
        apply hapart.2.ensures (I := fun _ => True) (fun p g _ hp => ⟨trivial, ?_⟩) trivial
        intro hs hl
        exact (hp hs f hl).1 hmod
      obtain ⟨before, after, hsplit, hfound⟩ :=
        marked_at_turn (p := (b.kernelMarked ok, b.totalFree)) hk hinv hnever hclear hset
      exact ⟨before, after, hsplit, hfound.imp_right candidate_ne_none.1⟩
  · rintro ⟨before, after, hsplit, hfound⟩
    have hbefore : MarksMore b.memMap (b.kernelMarked ok)
        (before.foldl (markFrame b.memMap ok) (b.kernelMarked ok, b.totalFree)).1 :=
      markFrames_more (p := (b.kernelMarked ok, b.totalFree)) hk hinv before
    have hnow := markFrame_found (f := f) hk hbefore.leaves hlt hu fun _ _ =>
      hfound.imp_right candidate_ne_none.2
    rw [hsplit, List.foldl_append, List.foldl_cons]
    exact (markFrames_more hk (markFrame_more hk hbefore.leaves).leaves after).keep f hnow

/-- A map of 256 MiB with one module in its second chunk, listed first, and one two frames above the kernel. -/
def farModuleBoot : Boot where
  regions := [⟨0, 0x10000000⟩]
  reserved := []
  modules := [(0x9000000, 0x9001000), (0x2000, 0x3000)]
  kernelEnd := 0x1000
  bumpCurrent := 0x1000
  activeRegion := 0
  lowBump := 0x1000
  disjoint := List.pairwise_singleton _ _
  bounded := by
    intro r hr
    rw [List.mem_singleton.1 hr]
    decide
  kernel_pos := smallBoot.kernel_pos

end Turns

end Lebirun.Pmm
