import Mathlib
import Lebirun.Pmm.Map

namespace Lebirun.Pmm
set_option autoImplicit true

abbrev chunkFrames : Nat := 32768
abbrev directFrames : Nat := 0x40000000 / pageSize

/-- The allocator's state. A leaf of the bitmap is a frame of the memory it describes; `leaf f`
is what the bytes of frame `f` hold as one. -/
structure Pfa where
  directory : Nat → Nat
  leaf : Nat → Nat → Nat
  leafPages : Nat
  cachedFree : Nat
  lastAllocHint : Nat
  bumpCurrent : Nat
  activeRegion : Nat
  lowBump : Nat
  lowExhausted : Bool

def bitmapGetLeaf (m : MemMap) (s : Pfa) (frame : Nat) : Option Nat :=
  if m.totalPagesManaged ≤ frame then none
  else
    let l := s.directory (frame / chunkFrames)
    if l = 0 then none else some l

def bitmapTestRaw (m : MemMap) (s : Pfa) (frame : Nat) : Bool :=
  match bitmapGetLeaf m s frame with
  | none => false
  | some l =>
    let bit := frame % chunkFrames
    (s.leaf l (bit / 8)).testBit (bit % 8)

def Pfa.orBit (s : Pfa) (l bit : Nat) : Pfa :=
  { s with
    leaf := Function.update s.leaf l
      (Function.update (s.leaf l) (bit / 8) (s.leaf l (bit / 8) ||| 2 ^ (bit % 8))) }

def Pfa.andNotBit (s : Pfa) (l bit : Nat) : Pfa :=
  { s with
    leaf := Function.update s.leaf l
      (Function.update (s.leaf l) (bit / 8) (s.leaf l (bit / 8) &&& (255 ^^^ 2 ^ (bit % 8)))) }

/-- `ok` is the answer of `pt_direct_map_ok`. -/
def bitmapLeafCandidate (m : MemMap) (ok : Nat → Bool) (s : Pfa) (chunk exStart exEnd : Nat) :
    Option Nat :=
  let limit := if directFrames > m.totalPagesManaged then m.totalPagesManaged else directFrames
  (List.range' m.kernelReservedFrames (limit - m.kernelReservedFrames)).find? fun frame =>
    ¬(exStart ≤ frame ∧ frame < exEnd) ∧ m.frameIsUsable frame ∧ ¬m.frameIsReserved frame ∧
      ¬(frame / chunkFrames ≠ chunk ∧ bitmapGetLeaf m s frame = none) ∧
      ¬bitmapTestRaw m s frame ∧ ok (frame * pageSize)

def bitmapEnsureLeaf (m : MemMap) (ok : Nat → Bool) (s : Pfa) (frame exStart exEnd : Nat) :
    Bool × Pfa :=
  if m.totalPagesManaged ≤ frame then (false, s)
  else
    let chunk := frame / chunkFrames
    if s.directory chunk ≠ 0 then (true, s)
    else
      match bitmapLeafCandidate m ok s chunk exStart exEnd with
      | none => (false, s)
      | some l =>
        let s := { s with
          leaf := Function.update s.leaf l fun _ => 0
          directory := Function.update s.directory chunk l }
        match bitmapGetLeaf m s l with
        | none => (false, { s with directory := Function.update s.directory chunk 0 })
        | some storage =>
          let s := s.orBit storage (l % chunkFrames)
          (true, { s with leafPages := s.leafPages + 1, cachedFree := s.cachedFree - 1 })

def bitmapPrepareRange (m : MemMap) (ok : Nat → Bool) (s : Pfa) (start count : Nat) :
    Bool × Pfa :=
  if count = 0 ∨ 2 ^ 64 - 1 - count < start then (false, s)
  else go s count start
where
  go (s : Pfa) : Nat → Nat → Bool × Pfa
    | 0, _ => (true, s)
    | fuel + 1, frame =>
      if start + count ≤ frame then (true, s)
      else
        match bitmapEnsureLeaf m ok s frame start (start + count) with
        | (false, s) => (false, s)
        | (true, s) =>
          let chunkEnd := (frame / chunkFrames + 1) * chunkFrames
          go s fuel (if chunkEnd < start + count then chunkEnd else start + count)

def setBit (m : MemMap) (ok : Nat → Bool) (s : Pfa) (frame : Nat) : Pfa :=
  if m.totalPagesManaged ≤ frame then s
  else
    match bitmapEnsureLeaf m ok s frame frame (frame + 1) with
    | (false, s) => s
    | (true, s) =>
      match bitmapGetLeaf m s frame with
      | none => s
      | some l => s.orBit l (frame % chunkFrames)

def clearBit (m : MemMap) (s : Pfa) (frame : Nat) : Pfa :=
  match bitmapGetLeaf m s frame with
  | none => s
  | some l => s.andNotBit l (frame % chunkFrames)

def testBit (m : MemMap) (s : Pfa) (frame : Nat) : Bool :=
  if m.totalPagesManaged ≤ frame then true
  else if !m.frameIsUsable frame then true
  else bitmapTestRaw m s frame

def Pfa.IsLeaf (s : Pfa) (frame : Nat) : Prop := frame ≠ 0 ∧ ∃ c, s.directory c = frame

/-- The leaves are distinct frames of the managed memory, each marked in the bitmap. -/
structure LeafInv (m : MemMap) (s : Pfa) : Prop where
  marked : ∀ l, s.IsLeaf l →
    m.frameIsUsable l = true ∧ l < m.totalPagesManaged ∧ bitmapTestRaw m s l = true
  inj : ∀ c c', s.directory c ≠ 0 → s.directory c = s.directory c' → c = c'

variable {m : MemMap} {ok : Nat → Bool} {s s' : Pfa} {f g l : Nat}

theorem getLeaf_some (hf : f < m.totalPagesManaged) (hd : s.directory (f / chunkFrames) ≠ 0) :
    bitmapGetLeaf m s f = some (s.directory (f / chunkFrames)) := by
  rw [bitmapGetLeaf, if_neg (Nat.not_le.2 hf)]
  exact if_neg hd

theorem getLeaf_eq_some :
    bitmapGetLeaf m s f = some l ↔
      f < m.totalPagesManaged ∧ l ≠ 0 ∧ s.directory (f / chunkFrames) = l := by
  constructor
  · intro h
    rw [bitmapGetLeaf] at h
    split at h
    · cases h
    · rename_i hf
      dsimp only at h
      split at h
      · cases h
      · rename_i hd
        cases h
        exact ⟨Nat.not_le.1 hf, hd, rfl⟩
  · intro h
    obtain ⟨hf, hl, rfl⟩ := h
    exact getLeaf_some hf hl

theorem getLeaf_congr (h : s'.directory = s.directory) :
    bitmapGetLeaf m s' f = bitmapGetLeaf m s f := by
  rw [bitmapGetLeaf, bitmapGetLeaf, h]

theorem testRaw_some (h : bitmapGetLeaf m s f = some l) :
    bitmapTestRaw m s f =
      (s.leaf l (f % chunkFrames / 8)).testBit (f % chunkFrames % 8) := by
  rw [bitmapTestRaw, h]

theorem testRaw_none (h : bitmapGetLeaf m s f = none) : bitmapTestRaw m s f = false := by
  rw [bitmapTestRaw, h]

/-- Two frames of one chunk with the same byte and bit are the same frame. -/
theorem frame_eq (hc : f / chunkFrames = g / chunkFrames)
    (hb : f % chunkFrames / 8 = g % chunkFrames / 8)
    (hi : f % chunkFrames % 8 = g % chunkFrames % 8) : f = g := by
  have hmod : f % chunkFrames = g % chunkFrames := by omega
  rw [← Nat.div_add_mod f chunkFrames, ← Nat.div_add_mod g chunkFrames, hc, hmod]

theorem testBit_or_pow (x i j : Nat) : (x ||| 2 ^ i).testBit j = (x.testBit j || i == j) := by
  rw [Nat.testBit_or, Nat.testBit_two_pow]
  rfl

theorem testBit_andNot_pow (x i j : Nat) (hj : j < 8) :
    (x &&& (255 ^^^ 2 ^ i)).testBit j = (x.testBit j && i != j) := by
  have h255 : (255 : Nat).testBit j = true := by
    have hpow : (255 : Nat) = 2 ^ 8 - 1 := by decide
    rw [hpow, Nat.testBit_two_pow_sub_one]
    simpa using hj
  rw [Nat.testBit_and, Nat.testBit_xor, Nat.testBit_two_pow, h255, Bool.true_xor]
  rfl

/-- Writing the bit of `f` in its leaf is seen at `f` only. -/
theorem testRaw_write {t : Pfa}
    (hinj : ∀ c c', s.directory c ≠ 0 → s.directory c = s.directory c' → c = c')
    (hl : bitmapGetLeaf m s f = some l) (v : Nat) (op : Bool → Bool)
    (hdir : t.directory = s.directory)
    (hleaf : t.leaf =
      Function.update s.leaf l (Function.update (s.leaf l) (f % chunkFrames / 8) v))
    (hv : ∀ j < 8, v.testBit j =
      if j = f % chunkFrames % 8 then op ((s.leaf l (f % chunkFrames / 8)).testBit j)
      else (s.leaf l (f % chunkFrames / 8)).testBit j) (g : Nat) :
    bitmapTestRaw m t g = if g = f then op (bitmapTestRaw m s f) else bitmapTestRaw m s g := by
  obtain ⟨hf, hl0, hd⟩ := getLeaf_eq_some.1 hl
  cases hg : bitmapGetLeaf m s g with
  | none =>
    have hne : g ≠ f := by
      rintro rfl
      rw [hl] at hg
      cases hg
    rw [if_neg hne, testRaw_none hg, testRaw_none ((getLeaf_congr hdir).trans hg)]
  | some l' =>
    obtain ⟨hg1, hg0, hgd⟩ := getLeaf_eq_some.1 hg
    rw [testRaw_some hg, testRaw_some hl, testRaw_some ((getLeaf_congr hdir).trans hg), hleaf]
    have hj : g % chunkFrames % 8 < 8 := Nat.mod_lt _ (by decide)
    by_cases hll : l' = l
    · have hc : g / chunkFrames = f / chunkFrames :=
        hinj _ _ (hgd ▸ hg0) (hgd.trans (hll.trans hd.symm))
      rw [hll, Function.update_self]
      by_cases hb : g % chunkFrames / 8 = f % chunkFrames / 8
      · rw [hb, Function.update_self, hv _ hj]
        by_cases hi : g % chunkFrames % 8 = f % chunkFrames % 8
        · rw [if_pos hi, if_pos (frame_eq hc hb hi), hi]
        · rw [if_neg hi, if_neg]
          rintro rfl
          exact hi rfl
      · rw [Function.update_of_ne hb, if_neg]
        rintro rfl
        exact hb rfl
    · rw [Function.update_of_ne hll, if_neg]
      rintro rfl
      exact hll (hgd.symm.trans hd)

theorem testRaw_orBit (hinj : ∀ c c', s.directory c ≠ 0 → s.directory c = s.directory c' → c = c')
    (hl : bitmapGetLeaf m s f = some l) (g : Nat) :
    bitmapTestRaw m (s.orBit l (f % chunkFrames)) g =
      if g = f then true else bitmapTestRaw m s g := by
  apply testRaw_write (t := s.orBit l (f % chunkFrames)) hinj hl _ (fun _ => true) rfl rfl
  intro j _
  rw [testBit_or_pow]
  split
  · rename_i hj
    simp [hj]
  · rename_i hj
    simp [Ne.symm hj]

theorem testRaw_andNotBit
    (hinj : ∀ c c', s.directory c ≠ 0 → s.directory c = s.directory c' → c = c')
    (hl : bitmapGetLeaf m s f = some l) (g : Nat) :
    bitmapTestRaw m (s.andNotBit l (f % chunkFrames)) g =
      if g = f then false else bitmapTestRaw m s g := by
  apply testRaw_write (t := s.andNotBit l (f % chunkFrames)) hinj hl _ (fun _ => false) rfl rfl
  intro j hj
  rw [testBit_andNot_pow _ _ _ hj]
  split
  · rename_i hj
    simp [hj]
  · rename_i hj
    simp [Ne.symm hj]

/-- `s'` is `s` with the frame `l` taken for a leaf. -/
structure NewLeaf (m : MemMap) (s s' : Pfa) (l : Nat) : Prop where
  usable : m.frameIsUsable l = true
  lt : l < m.totalPagesManaged
  ge : m.kernelReservedFrames ≤ l
  clear : bitmapTestRaw m s l = false
  raw : ∀ g, bitmapTestRaw m s' g = if g = l then true else bitmapTestRaw m s g
  isLeaf : ∀ g, s'.IsLeaf g ↔ s.IsLeaf g ∨ g = l
  inv : LeafInv m s'
  kept : ∀ c, s.directory c ≠ 0 → s'.directory c ≠ 0
  leafPages : s'.leafPages = s.leafPages + 1
  cachedFree : s'.cachedFree = s.cachedFree - 1

theorem candidate_some (h : bitmapLeafCandidate m ok s c a b = some l) :
    m.kernelReservedFrames ≤ l ∧ l < m.totalPagesManaged ∧ ¬(a ≤ l ∧ l < b) ∧
      m.frameIsUsable l = true ∧ (l / chunkFrames = c ∨ bitmapGetLeaf m s l ≠ none) ∧
      bitmapTestRaw m s l = false := by
  have hmem := List.mem_of_find?_eq_some h
  have hp := List.find?_some h
  rw [List.mem_range'_1] at hmem
  simp only [decide_eq_true_eq] at hp
  obtain ⟨hex, hu, -, hc, ht, -⟩ := hp
  obtain ⟨hge, hlt⟩ := hmem
  have hl : l < m.totalPagesManaged := by
    split at hlt <;> omega
  have hchunk : l / chunkFrames = c ∨ bitmapGetLeaf m s l ≠ none := by
    by_contra hcon
    exact hc (not_or.1 hcon |>.imp_right not_not.1)
  exact ⟨hge, hl, hex, hu, hchunk, by simpa using ht⟩

/-- A zeroed leaf for a chunk that had none changes no bit. -/
theorem testRaw_freshLeaf (hinv : LeafInv m s) (hc : s.directory c = 0)
    (hl : bitmapTestRaw m s l = false)
    (hdir : s'.directory = Function.update s.directory c l)
    (hleaf : s'.leaf = Function.update s.leaf l fun _ => 0) (g : Nat) :
    bitmapTestRaw m s' g = bitmapTestRaw m s g := by
  by_cases hgc : g / chunkFrames = c
  · have hnone : bitmapGetLeaf m s g = none := by
      rw [bitmapGetLeaf, hgc, hc]
      split <;> rfl
    rw [testRaw_none hnone]
    cases hg : bitmapGetLeaf m s' g with
    | none => exact testRaw_none hg
    | some l' =>
      obtain ⟨-, -, hd⟩ := getLeaf_eq_some.1 hg
      rw [hdir, hgc, Function.update_self] at hd
      rw [testRaw_some hg, hleaf, ← hd, Function.update_self, Nat.zero_testBit]
  · have hsame : bitmapGetLeaf m s' g = bitmapGetLeaf m s g := by
      rw [bitmapGetLeaf, bitmapGetLeaf, hdir, Function.update_of_ne hgc]
    cases hg : bitmapGetLeaf m s g with
    | none => rw [testRaw_none hg, testRaw_none (hsame.trans hg)]
    | some l' =>
      obtain ⟨-, h0, hd⟩ := getLeaf_eq_some.1 hg
      have hne : l' ≠ l := by
        rintro rfl
        have := (hinv.marked l' ⟨h0, _, hd⟩).2.2
        rw [hl] at this
        cases this
      rw [testRaw_some hg, testRaw_some (hsame.trans hg), hleaf, Function.update_of_ne hne]

theorem isLeaf_update (hc : s.directory c = 0) (hl : l ≠ 0)
    (hdir : s'.directory = Function.update s.directory c l) (g : Nat) :
    s'.IsLeaf g ↔ s.IsLeaf g ∨ g = l := by
  constructor
  · intro h
    obtain ⟨h0, c', rfl⟩ := h
    rw [hdir] at h0 ⊢
    by_cases hcc : c' = c
    · right
      rw [hcc, Function.update_self]
    · left
      rw [Function.update_of_ne hcc] at h0 ⊢
      exact ⟨h0, c', rfl⟩
  · intro h
    rcases h with ⟨h0, c', rfl⟩ | rfl
    · refine ⟨h0, c', ?_⟩
      rw [hdir, Function.update_of_ne]
      rintro rfl
      exact h0 hc
    · exact ⟨hl, c, by rw [hdir, Function.update_self]⟩

theorem inj_update (hinv : LeafInv m s) (hl : ¬s.IsLeaf l)
    (hdir : s'.directory = Function.update s.directory c l) (c₁ c₂ : Nat)
    (h0 : s'.directory c₁ ≠ 0) (h : s'.directory c₁ = s'.directory c₂) : c₁ = c₂ := by
  rw [hdir] at h0 h
  by_cases h₁ : c₁ = c <;> by_cases h₂ : c₂ = c
  · rw [h₁, h₂]
  · rw [h₁, Function.update_self] at h0 h
    rw [Function.update_of_ne h₂] at h
    exact absurd ⟨h0, c₂, h.symm⟩ hl
  · rw [h₂, Function.update_self, Function.update_of_ne h₁] at h
    rw [Function.update_of_ne h₁] at h0
    exact absurd ⟨h ▸ h0, c₁, h⟩ hl
  · rw [Function.update_of_ne h₁] at h0
    rw [Function.update_of_ne h₁, Function.update_of_ne h₂] at h
    exact hinv.inj _ _ h0 h

theorem newLeaf_of_candidate (hinv : LeafInv m s)
    (hk : 0 < m.totalPagesManaged → 0 < m.kernelReservedFrames)
    (hc : s.directory c = 0) (hcand : bitmapLeafCandidate m ok s c a b = some l)
    {t u : Pfa} (hdir : t.directory = Function.update s.directory c l)
    (hleaf : t.leaf = Function.update s.leaf l fun _ => 0) :
    ∃ st, bitmapGetLeaf m t l = some st ∧
      (u.directory = t.directory → u.leaf = (t.orBit st (l % chunkFrames)).leaf →
        u.leafPages = s.leafPages + 1 → u.cachedFree = s.cachedFree - 1 →
        NewLeaf m s u l) := by
  obtain ⟨hge, hlt, -, hu, hch, ht⟩ := candidate_some hcand
  have hl0 : l ≠ 0 := ((hk (Nat.zero_lt_of_lt hlt)).trans_le hge).ne'
  have hnl : ¬s.IsLeaf l := by
    intro h
    rw [(hinv.marked l h).2.2] at ht
    cases ht
  have hraw₁ := testRaw_freshLeaf hinv hc ht hdir hleaf
  have hinj := inj_update hinv hnl hdir
  -- the storage leaf is the new one when it lies in its own chunk
  have hst : t.directory (l / chunkFrames) ≠ 0 := by
    rw [hdir]
    by_cases hlc : l / chunkFrames = c
    · rw [hlc, Function.update_self]
      exact hl0
    · rw [Function.update_of_ne hlc]
      intro h0
      rcases hch with h | h
      · exact hlc h
      · apply h
        rw [bitmapGetLeaf, h0]
        split <;> rfl
  refine ⟨_, getLeaf_some hlt hst, fun hd₂ hl₂ hp hf => ?_⟩
  have hraw : ∀ g, bitmapTestRaw m u g = if g = l then true else bitmapTestRaw m s g := by
    intro g
    rw [← hraw₁, ← testRaw_orBit hinj (getLeaf_some hlt hst)]
    rw [bitmapTestRaw, bitmapTestRaw, getLeaf_congr (hd₂.trans rfl), hl₂]
    rfl
  have hleaf₂ : ∀ g, u.IsLeaf g ↔ s.IsLeaf g ∨ g = l :=
    isLeaf_update hc hl0 (hd₂.trans hdir)
  refine ⟨hu, hlt, hge, ht, hraw, hleaf₂, ⟨?_, ?_⟩, ?_, hp, hf⟩
  · intro g hg
    rw [hraw]
    rcases (hleaf₂ g).1 hg with hg | rfl
    · obtain ⟨h1, h2, h3⟩ := hinv.marked g hg
      exact ⟨h1, h2, by rw [h3, ite_self]⟩
    · exact ⟨hu, hlt, if_pos rfl⟩
  · rw [hd₂]
    exact hinj
  · intro c' hc'
    rw [hd₂, hdir, Function.update_of_ne]
    · exact hc'
    · rintro rfl
      exact hc' hc

/-- `bitmap_ensure_leaf` leaves the state alone or takes one frame outside the excluded range. -/
theorem ensureLeaf_cases (hinv : LeafInv m s)
    (hk : 0 < m.totalPagesManaged → 0 < m.kernelReservedFrames)
    (h : bitmapEnsureLeaf m ok s f a b = (r, s')) :
    (s' = s ∧ (r = true → f < m.totalPagesManaged ∧ s.directory (f / chunkFrames) ≠ 0) ∧
        (r = false → m.totalPagesManaged ≤ f ∨ s.directory (f / chunkFrames) = 0 ∧
          bitmapLeafCandidate m ok s (f / chunkFrames) a b = none)) ∨
      (r = true ∧ f < m.totalPagesManaged ∧ s'.directory (f / chunkFrames) ≠ 0 ∧
        ∃ l, NewLeaf m s s' l ∧ ¬(a ≤ l ∧ l < b)) := by
  rw [bitmapEnsureLeaf] at h
  split at h
  · rename_i hf
    cases h
    exact .inl ⟨rfl, nofun, fun _ => .inl hf⟩
  rename_i hf
  dsimp only at h
  split at h
  · rename_i hd
    cases h
    exact .inl ⟨rfl, fun _ => ⟨Nat.not_le.1 hf, hd⟩, nofun⟩
  rename_i hd
  have hc : s.directory (f / chunkFrames) = 0 := not_not.1 hd
  split at h
  · rename_i hcand
    cases h
    exact .inl ⟨rfl, nofun, fun _ => .inr ⟨hc, hcand⟩⟩
  rename_i l hcand
  obtain ⟨st, hst, hnew⟩ := newLeaf_of_candidate (u := s') hinv hk hc hcand
    (t := { s with
      leaf := Function.update s.leaf l fun _ => 0
      directory := Function.update s.directory (f / chunkFrames) l }) rfl rfl
  rw [hst] at h
  cases h
  have hn := hnew rfl rfl rfl rfl
  obtain ⟨hge, hlt, hex, -⟩ := candidate_some hcand
  refine .inr ⟨rfl, Nat.not_le.1 hf, ?_, l, hn, hex⟩
  show Function.update s.directory (f / chunkFrames) l (f / chunkFrames) ≠ 0
  rw [Function.update_self]
  exact ((hk (Nat.zero_lt_of_lt hlt)).trans_le hge).ne'

/-- The usable frames whose bit is clear. -/
def freeSet (m : MemMap) (s : Pfa) : Finset Nat :=
  (Finset.range m.totalPagesManaged).filter fun f =>
    m.frameIsUsable f = true ∧ bitmapTestRaw m s f = false

theorem mem_freeSet :
    f ∈ freeSet m s ↔
      f < m.totalPagesManaged ∧ m.frameIsUsable f = true ∧ bitmapTestRaw m s f = false := by
  rw [freeSet, Finset.mem_filter, Finset.mem_range]

theorem freeSet_set (h : ∀ g, bitmapTestRaw m s' g = if g = f then true else bitmapTestRaw m s g) :
    freeSet m s' = (freeSet m s).erase f := by
  ext g
  rw [Finset.mem_erase, mem_freeSet, mem_freeSet, h]
  by_cases hg : g = f <;> simp [hg]

theorem freeSet_clear (hlt : f < m.totalPagesManaged) (hu : m.frameIsUsable f = true)
    (h : ∀ g, bitmapTestRaw m s' g = if g = f then false else bitmapTestRaw m s g) :
    freeSet m s' = insert f (freeSet m s) := by
  ext g
  rw [Finset.mem_insert, mem_freeSet, mem_freeSet, h]
  by_cases hg : g = f
  · simp [hg, hlt, hu]
  · simp [hg]

theorem freeSet_congr (h : ∀ g, bitmapTestRaw m s' g = bitmapTestRaw m s g) :
    freeSet m s' = freeSet m s := by
  ext g
  rw [mem_freeSet, mem_freeSet, h]

theorem freeSet_card_le : (freeSet m s).card ≤ m.totalPagesManaged := by
  calc
    (freeSet m s).card ≤ (Finset.range m.totalPagesManaged).card := Finset.card_filter_le _ _
    _ = m.totalPagesManaged := Finset.card_range _

theorem LeafInv.congr {t : Pfa} (hinv : LeafInv m s) (hd : t.directory = s.directory)
    (h : ∀ l, s.IsLeaf l → bitmapTestRaw m t l = bitmapTestRaw m s l) : LeafInv m t := by
  constructor
  · intro l hl
    have hl' : s.IsLeaf l := by
      obtain ⟨h0, c, hc⟩ := hl
      exact ⟨h0, c, hd ▸ hc⟩
    rw [h l hl']
    exact hinv.marked l hl'
  · rw [hd]
    exact hinv.inj

theorem testRaw_congr (hd : s'.directory = s.directory) (hl : s'.leaf = s.leaf) (g : Nat) :
    bitmapTestRaw m s' g = bitmapTestRaw m s g := by
  rw [bitmapTestRaw, bitmapTestRaw, getLeaf_congr hd, hl]

/-- What the count and the leaves say together: the counter is the number of free frames. -/
structure Exact (m : MemMap) (s : Pfa) : Prop where
  leaves : LeafInv m s
  count : s.cachedFree = (freeSet m s).card

/-- From `s` the allocator went on to `s'`, marking the frames `fs` for its caller and
perhaps some others for leaves. -/
structure Took (m : MemMap) (s s' : Pfa) (fs : List Nat) : Prop where
  exact : Exact m s'
  keep : ∀ f, bitmapTestRaw m s f = true → bitmapTestRaw m s' f = true
  leaf : ∀ l, s'.IsLeaf l → s.IsLeaf l ∨ bitmapTestRaw m s l = false
  nodup : fs.Nodup
  taken : ∀ f ∈ fs, f < m.totalPagesManaged ∧ m.frameIsUsable f = true ∧
    bitmapTestRaw m s f = false ∧ bitmapTestRaw m s' f = true ∧ ¬s'.IsLeaf f

theorem Took.refl (h : Exact m s) : Took m s s [] :=
  ⟨h, fun _ hf => hf, fun _ hl => .inl hl, List.nodup_nil, nofun⟩

theorem Took.none (h : Took m s s' fs) : Took m s s' [] :=
  ⟨h.exact, h.keep, h.leaf, List.nodup_nil, nofun⟩

theorem Took.trans {s₁ : Pfa} (h₁ : Took m s s₁ []) (h₂ : Took m s₁ s' fs) : Took m s s' fs := by
  have hclear : ∀ f, bitmapTestRaw m s₁ f = false → bitmapTestRaw m s f = false := by
    intro f hf
    cases hs : bitmapTestRaw m s f with
    | false => rfl
    | true =>
      rw [h₁.keep f hs] at hf
      cases hf
  constructor
  · exact h₂.exact
  · intro f hf
    exact h₂.keep f (h₁.keep f hf)
  · intro l hl
    rcases h₂.leaf l hl with hl | hl
    · exact h₁.leaf l hl
    · exact .inr (hclear l hl)
  · exact h₂.nodup
  · intro f hf
    obtain ⟨hlt, hu, hc, hs, hn⟩ := h₂.taken f hf
    exact ⟨hlt, hu, hclear f hc, hs, hn⟩

/-- Only the bitmap and the counter matter. -/
theorem Took.congr {s'' : Pfa} (h : Took m s s' fs) (hd : s''.directory = s'.directory)
    (hl : s''.leaf = s'.leaf) (hc : s''.cachedFree = s'.cachedFree) : Took m s s'' fs := by
  have hraw := testRaw_congr (m := m) hd hl
  have hleaf : ∀ l, s''.IsLeaf l ↔ s'.IsLeaf l := by
    intro l
    rw [Pfa.IsLeaf, Pfa.IsLeaf, hd]
  constructor
  · refine ⟨h.exact.leaves.congr hd fun l _ => hraw l, ?_⟩
    rw [hc, freeSet_congr hraw]
    exact h.exact.count
  · intro f hf
    rw [hraw]
    exact h.keep f hf
  · intro l hf
    exact h.leaf l ((hleaf l).1 hf)
  · exact h.nodup
  · intro f hf
    rw [hraw, hleaf]
    exact h.taken f hf

theorem NewLeaf.took (h : NewLeaf m s s' l) (he : Exact m s) : Took m s s' [] := by
  have hl : l ∈ freeSet m s := mem_freeSet.2 ⟨h.lt, h.usable, h.clear⟩
  constructor
  · refine ⟨h.inv, ?_⟩
    rw [h.cachedFree, he.count, freeSet_set h.raw, Finset.card_erase_of_mem hl]
  · intro f hf
    rw [h.raw, hf, ite_self]
  · intro g hg
    rcases (h.isLeaf g).1 hg with hg | rfl
    · exact .inl hg
    · exact .inr h.clear
  · exact List.nodup_nil
  · nofun

theorem ensureLeaf_took (he : Exact m s) (hk : 0 < m.totalPagesManaged → 0 < m.kernelReservedFrames)
    (h : bitmapEnsureLeaf m ok s f a b = (r, s')) :
    Took m s s' [] ∧ (∀ g, a ≤ g → g < b → bitmapTestRaw m s' g = bitmapTestRaw m s g) ∧
      (∀ c, s.directory c ≠ 0 → s'.directory c ≠ 0) ∧
      (r = true → f < m.totalPagesManaged ∧ s'.directory (f / chunkFrames) ≠ 0) := by
  rcases ensureLeaf_cases he.leaves hk h with ⟨rfl, hr, -⟩ | ⟨-, hf, hd, l, hn, hl⟩
  · exact ⟨.refl he, fun _ _ _ => rfl, fun _ hc => hc, hr⟩
  · refine ⟨hn.took he, ?_, hn.kept, fun _ => ⟨hf, hd⟩⟩
    intro g hag hgb
    rw [hn.raw, if_neg]
    rintro rfl
    exact hl ⟨hag, hgb⟩

/-- After a successful `bitmap_prepare_range` every chunk of the range has its leaf, and no frame
of the range became one. -/
structure Prepared (m : MemMap) (s s' : Pfa) (start stop : Nat) : Prop where
  took : Took m s s' []
  same : ∀ g, start ≤ g → g < stop → bitmapTestRaw m s' g = bitmapTestRaw m s g

theorem prepareRange_go (hk : 0 < m.totalPagesManaged → 0 < m.kernelReservedFrames) (he : Exact m s)
    (h : bitmapPrepareRange.go m ok start count s fuel frame = (r, s')) :
    Prepared m s s' start (start + count) ∧ (∀ c, s.directory c ≠ 0 → s'.directory c ≠ 0) ∧
      (r = true → start + count ≤ frame + fuel → ∀ g, frame ≤ g → g < start + count →
        s'.directory (g / chunkFrames) ≠ 0) := by
  induction fuel generalizing s frame with
  | zero =>
    cases h
    exact ⟨⟨.refl he, fun _ _ _ => rfl⟩, fun _ hc => hc, fun _ hle g hg hlt => by omega⟩
  | succ fuel ih =>
    rw [bitmapPrepareRange.go] at h
    split at h
    · cases h
      exact ⟨⟨.refl he, fun _ _ _ => rfl⟩, fun _ hc => hc, fun _ hle g hg hlt => by omega⟩
    rename_i hlt
    cases hen : bitmapEnsureLeaf m ok s frame start (start + count) with
    | mk r₁ s₁ =>
      obtain ⟨htook, hsame, hkept, hok⟩ := ensureLeaf_took he hk hen
      rw [hen] at h
      cases r₁ with
      | false =>
        cases h
        exact ⟨⟨htook, hsame⟩, hkept, nofun⟩
      | true =>
        obtain ⟨hp, hkept', hall⟩ := ih htook.exact h
        obtain ⟨hftot, hfd⟩ := hok rfl
        refine ⟨⟨htook.trans hp.took, ?_⟩, fun c hc => hkept' c (hkept c hc), ?_⟩
        · intro g h1 h2
          rw [hp.same g h1 h2, hsame g h1 h2]
        · intro hr hfuel g hfg hg
          -- the frames before the next chunk share the chunk just made sure of
          have hlow : frame / chunkFrames * chunkFrames ≤ frame := Nat.div_mul_le_self _ _
          have hhigh : frame < (frame / chunkFrames + 1) * chunkFrames :=
            (Nat.div_lt_iff_lt_mul (by decide)).1 (Nat.lt_succ_self _)
          by_cases hnext : g < (frame / chunkFrames + 1) * chunkFrames
          · have hchunk : g / chunkFrames = frame / chunkFrames :=
              Nat.div_eq_of_lt_le (hlow.trans hfg) hnext
            rw [hchunk]
            exact hkept' _ hfd
          · have hstep : ∀ e, frame < e → ¬g < e →
                start + count ≤ (if e < start + count then e else start + count) + fuel ∧
                  (if e < start + count then e else start + count) ≤ g := by
              intro e h1 h2
              split <;> omega
            exact hall hr (hstep _ hhigh hnext).1 g (hstep _ hhigh hnext).2 hg

theorem prepareRange_spec (hk : 0 < m.totalPagesManaged → 0 < m.kernelReservedFrames) (he : Exact m s)
    (h : bitmapPrepareRange m ok s start count = (r, s')) :
    Prepared m s s' start (start + count) ∧
      (r = true → ∀ g, start ≤ g → g < start + count → s'.directory (g / chunkFrames) ≠ 0) := by
  rw [bitmapPrepareRange] at h
  split at h
  · cases h
    exact ⟨⟨.refl he, fun _ _ _ => rfl⟩, nofun⟩
  · obtain ⟨hp, -, hall⟩ := prepareRange_go hk he h
    exact ⟨hp, fun hr => hall hr le_rfl⟩

theorem setBit_marked (hf : f < m.totalPagesManaged) (hd : s.directory (f / chunkFrames) ≠ 0) :
    setBit m ok s f = s.orBit (s.directory (f / chunkFrames)) (f % chunkFrames) := by
  have hen : bitmapEnsureLeaf m ok s f f (f + 1) = (true, s) := by
    rw [bitmapEnsureLeaf, if_neg (Nat.not_le.2 hf)]
    exact if_pos hd
  rw [setBit, if_neg (Nat.not_le.2 hf), hen]
  dsimp only
  rw [getLeaf_some hf hd]

/-- `set_bit` over a range of clear usable frames whose chunks have their leaves. -/
theorem setBits_spec (ok : Nat → Bool) (hinv : LeafInv m s) (hd : ∀ g, start ≤ g → g < start + n →
      g < m.totalPagesManaged ∧ m.frameIsUsable g = true ∧ bitmapTestRaw m s g = false ∧
        s.directory (g / chunkFrames) ≠ 0) :
    let s' := (List.range' start n).foldl (setBit m ok) s
    s'.directory = s.directory ∧ s'.cachedFree = s.cachedFree ∧
      (∀ g, bitmapTestRaw m s' g =
        if start ≤ g ∧ g < start + n then true else bitmapTestRaw m s g) ∧
      (freeSet m s').card + n = (freeSet m s).card := by
  induction n generalizing s start with
  | zero => exact ⟨rfl, rfl, fun g => (if_neg (by omega)).symm, rfl⟩
  | succ n ih =>
    obtain ⟨hlt, hu, hc, hdir⟩ := hd start le_rfl (by omega)
    have hraw := testRaw_orBit hinv.inj (getLeaf_some hlt hdir)
    have hinv' : LeafInv m (s.orBit (s.directory (start / chunkFrames)) (start % chunkFrames)) := by
      apply hinv.congr (t := s.orBit _ _) rfl
      intro l hl
      rw [hraw, (hinv.marked l hl).2.2, ite_self]
    have hcard := Finset.card_erase_add_one (mem_freeSet.2 ⟨hlt, hu, hc⟩)
    rw [← freeSet_set hraw] at hcard
    obtain ⟨h1, h2, h3, h4⟩ := @ih _ (start + 1) hinv' (by
      intro g hg hgn
      obtain ⟨a, b, c, d⟩ := hd g (by omega) (by omega)
      refine ⟨a, b, ?_, d⟩
      rw [hraw, if_neg (by omega), c])
    rw [List.range'_succ, List.foldl_cons, setBit_marked hlt hdir]
    refine ⟨h1, h2, ?_, by omega⟩
    intro g
    rw [h3, hraw]
    by_cases hg : g = start
    · rw [if_pos hg, ite_self, if_pos (by omega)]
    · rw [if_neg hg]
      exact if_congr (by omega) rfl rfl

theorem clearBit_some (hf : f < m.totalPagesManaged) (hd : s.directory (f / chunkFrames) ≠ 0) :
    clearBit m s f = s.andNotBit (s.directory (f / chunkFrames)) (f % chunkFrames) := by
  rw [clearBit, getLeaf_some hf hd]

/-- A set bit has a leaf to be cleared in. -/
theorem clearBit_spec (hinv : LeafInv m s) (hs : bitmapTestRaw m s f = true) (hl : ¬s.IsLeaf f) :
    (clearBit m s f).directory = s.directory ∧ (clearBit m s f).cachedFree = s.cachedFree ∧
      (∀ g, bitmapTestRaw m (clearBit m s f) g = if g = f then false else bitmapTestRaw m s g) ∧
      LeafInv m (clearBit m s f) := by
  cases hg : bitmapGetLeaf m s f with
  | none =>
    rw [testRaw_none hg] at hs
    cases hs
  | some l =>
    have hclear : clearBit m s f = s.andNotBit l (f % chunkFrames) := by
      rw [clearBit, hg]
    have hraw := testRaw_andNotBit hinv.inj hg
    rw [hclear]
    refine ⟨rfl, rfl, hraw, hinv.congr (t := s.andNotBit _ _) rfl ?_⟩
    intro l' hl'
    rw [hraw, if_neg]
    rintro rfl
    exact hl hl'

end Lebirun.Pmm
