import Mathlib
import Lebirun.Paging.Ensure

namespace Lebirun.Paging
set_option autoImplicit true

/-! The operations on kernel addresses, one by one. -/

variable {s s' : State} {a e f p pd pt v : Nat} {i j k : Fin 512}

theorem ensureMapped_spec (h : Wf s) (p : Nat) : Ensured s (p &&& PAGE_MASK) (ensureMapped s p) :=
  ensurePhysMappedLocked_spec _ s p h (Nat.lt_succ_self _)

theorem ensureMapped_aligned (h : Wf s) (hp : p &&& PHYS_MASK = p) : Ensured s p (ensureMapped s p) := by
  have hspec := ensureMapped_spec h p
  rwa [page_of_phys hp] at hspec

theorem getPdForPdpt_kernel (s : State) (hv : KERNEL_VMA ≤ v) (hlt : v < 2 ^ 64) :
    ptGetPdForPdpt s v = ptEnsureKernelPd s v := by
  rw [ptGetPdForPdpt, ix_top hv hlt]
  rfl

/-- Large pages give way; what is present then is in a table. -/
structure Opened (s : State) (i j : Fin 512) (o : State × Int) : Prop where
  keeps : Keeps s o.1
  space_eq : space o.1 = space s
  outcome : o.2 = 0 ∧ (entry o.1 i j &&& 1 ≠ 0 → ∃ b, addr o.1 (.pt i j) = some b) ∨ o.2 = -1 ∧ Exhausted o.1

theorem splitLarge_spec (h : Wf s) (ha : addr s (.pd i) = some a) : Opened s i j (splitLarge s a j) := by
  rw [splitLarge, ← entry_of_some ha]
  by_cases hhuge : entry s i j &&& 0x80 = 0
  · rw [if_neg (not_not_intro hhuge)]
    exact ⟨.refl h, rfl, .inl ⟨rfl, fun hp => ⟨_, addr_table ha hp hhuge⟩⟩⟩
  rw [if_pos hhuge]
  have hsplit := splitHugePage_spec (j := j) ensureMapped h ha fun t q ht _ hq => ensureMapped_aligned ht hq
  generalize ptSplitHugePage s ensureMapped a j = o at hsplit ⊢
  refine ⟨hsplit.keeps, hsplit.space_eq, ?_⟩
  rcases hsplit.outcome with ⟨h0, htable, habsent⟩ | hout
  · refine .inl ⟨h0, fun hp => ?_⟩
    by_cases hp' : entry s i j &&& 1 = 0
    · rw [habsent hp'] at hp
      exact absurd hp' hp
    · exact htable hp'
  · exact .inr hout

/-- A table for an address, or no page for it. -/
structure Tabled (s : State) (i j : Fin 512) (o : State × Option Nat) : Prop where
  keeps : Keeps s o.1
  space_eq : space o.1 = space s
  found : ∀ pt, o.2 = some pt → addr o.1 (.pt i j) = some pt
  failed : o.2 = none → Exhausted o.1

theorem Tabled.counted (h : Tabled s i j (s', some pt)) (n m : Nat) :
    Tabled s i j ({ s' with heapPtCount := n, vmmPtCount := m }, some pt) := by
  obtain ⟨hk, hs⟩ := Paging.counted h.keeps.wf n m
  refine ⟨h.keeps.trans hk, hs.trans h.space_eq, ?_, nofun⟩
  intro q hq
  exact hk.nodes _ _ (h.found q hq)

theorem newTable_spec (h : Wf s) (ha : addr s (.pd (ix v 30)) = some a) (habsent : entry s (ix v 30) (ix v 21) &&& 1 = 0)
    (hf : TableFlags f) : Tabled s (ix v 30) (ix v 21) (newTable s a v f) := by
  rw [newTable]
  cases hr : ptAllocPtPage s with
  | mk s₁ r =>
    cases r with
    | none =>
      obtain ⟨rfl, hout⟩ := allocPtPage_none h hr
      exact ⟨.refl h, rfl, nofun, fun _ => hout⟩
    | some p =>
      obtain ⟨rfl, hmem, hdirect⟩ := allocPtPage_some h hr
      have hp := (h.free p hmem).1
      obtain ⟨hclean, hleads, -⟩ := table_word hp hf
      have hinst : Installs s (ix v 30) (ix v 21) a p (p &&& PAGE_MASK ||| f) :=
        ⟨h, ha, by rw [addr_pt, ha, Option.bind_some, tableAt_absent habsent], hmem, hclean, hleads⟩
      have hkeeps := hinst.keeps fun _ => 0
      have hempty := install_empty hinst habsent
      have htable := (hinst.addr_eq (n := .pt (ix v 30) (ix v 21)) fun _ => 0).trans (if_pos rfl)
      have hne : ¬(p + KERNEL_VMA) >>> 21 = v >>> 21 := by
        intro hsame
        have hj : ix (p + KERNEL_VMA) 21 = ix v 21 := congrArg (Fin.ofNat 512) hsame
        have hi : ix (p + KERNEL_VMA) 30 = ix v 30 := by
          rw [Nat.shiftRight_eq_div_pow, Nat.shiftRight_eq_div_pow] at hsame
          apply Fin.ext
          rw [ix_val, ix_val]
          omega
        have hpresent := entry_of_direct hdirect
        rw [hi, hj] at hpresent
        exact hpresent habsent
      dsimp only
      rw [direct_virt hdirect.1, if_neg hne]
      change Tabled s (ix v 30) (ix v 21)
        (if (ensureMapped (s.install a (ix v 21) p (fun _ => 0) (p &&& PAGE_MASK ||| f)) p).2 < 0
          then ((ensureMapped (s.install a (ix v 21) p (fun _ => 0) (p &&& PAGE_MASK ||| f)) p).1, none)
          else ((ensureMapped (s.install a (ix v 21) p (fun _ => 0) (p &&& PAGE_MASK ||| f)) p).1, some p))
      generalize s.install a (ix v 21) p (fun _ => 0) (p &&& PAGE_MASK ||| f) = s₂ at hkeeps hempty htable ⊢
      have hdone := ensureMapped_aligned hkeeps.wf hp
      have hdirect' : Direct (space s₂) p := hempty ▸ hdirect
      have hquiet := (hdone.quiet hdirect').trans hempty
      generalize ensureMapped s₂ p = o at hdone hquiet ⊢
      rcases hdone.code with h0 | h1
      · rw [h0, if_neg (by decide)]
        refine ⟨hkeeps.trans hdone.keeps, hquiet, ?_, nofun⟩
        intro q hq
        injection hq with hq
        rw [← hq]
        exact hdone.keeps.nodes _ _ htable
      · rw [h1, if_pos (by decide)]
        exact ⟨hkeeps.trans hdone.keeps, hquiet, nofun, fun _ => hdone.failed h1 hdirect'⟩

/-- The table of an address behind a page directory that has no large page for it. -/
theorem tableFor_spec (h : Wf s) (ha : addr s (.pd (ix v 30)) = some a)
    (hsmall : entry s (ix v 30) (ix v 21) &&& 1 ≠ 0 → ∃ b, addr s (.pt (ix v 30) (ix v 21)) = some b)
    (hf : f &&& 4 = 0) : Tabled s (ix v 30) (ix v 21) (tableFor s a v f) := by
  rw [tableFor, ← entry_of_some ha]
  by_cases habsent : entry s (ix v 30) (ix v 21) &&& 1 = 0
  · rw [if_pos habsent]
    have hnew := newTable_spec h ha habsent (tableFlags_user f)
    generalize newTable s a v (VMM_PTE_PRESENT ||| VMM_PTE_WRITE ||| f &&& VMM_PTE_USER) = o at hnew ⊢
    obtain ⟨s₁, r⟩ := o
    cases r with
    | none => exact hnew
    | some pt => exact hnew.counted s₁.heapPtCount (s₁.vmmPtCount + 1)
  · rw [if_neg habsent, if_neg fun h' => h'.1 hf]
    obtain ⟨b, hb⟩ := hsmall habsent
    obtain ⟨-, hhuge, haddr, -⟩ := table_entry hb
    refine ⟨.refl h, rfl, ?_, nofun⟩
    intro pt hpt
    injection hpt with hpt
    rw [← hpt, masks_eq (h.table _ _ habsent hhuge).1, haddr, hb]

theorem heapTable_spec (h : Wf s) (ha : addr s (.pd (ix v 30)) = some a)
    (hsmall : entry s (ix v 30) (ix v 21) &&& 1 ≠ 0 → ∃ b, addr s (.pt (ix v 30) (ix v 21)) = some b) :
    Tabled s (ix v 30) (ix v 21) (heapTable s a v (entry s (ix v 30) (ix v 21))) := by
  rw [heapTable]
  by_cases habsent : entry s (ix v 30) (ix v 21) &&& 1 = 0
  · rw [if_pos habsent]
    have hnew := newTable_spec h ha habsent (f := 3) (.inl rfl)
    generalize newTable s a v 3 = o at hnew ⊢
    obtain ⟨s₁, r⟩ := o
    cases r with
    | none => exact hnew
    | some pt => exact hnew.counted (s₁.heapPtCount + 1) s₁.vmmPtCount
  · rw [if_neg habsent]
    obtain ⟨b, hb⟩ := hsmall habsent
    obtain ⟨-, hhuge, haddr, -⟩ := table_entry hb
    refine ⟨.refl h, rfl, ?_, nofun⟩
    intro pt hpt
    injection hpt with hpt
    rw [← hpt, masks_eq (h.table _ _ habsent hhuge).1, haddr, hb]

/-- The page directory of an address, without a large page for it. -/
structure Directed (s : State) (i j : Fin 512) (o : State × Option Nat) : Prop where
  keeps : Keeps s o.1
  space_eq : space o.1 = space s
  found : ∀ a, o.2 = some a → addr o.1 (.pd i) = some a ∧
    (entry o.1 i j &&& 1 ≠ 0 → ∃ b, addr o.1 (.pt i j) = some b)
  failed : o.2 = none → Exhausted o.1

theorem openPage_spec (h : Wf s) (hv : KERNEL_VMA ≤ v) (hlt : v < 2 ^ 64) :
    Directed s (ix v 30) (ix v 21) (openPage s v) := by
  rw [openPage, getPdForPdpt_kernel s hv hlt]
  cases hr : ptEnsureKernelPd s v with
  | mk s₁ r =>
    cases r with
    | none =>
      obtain ⟨rfl, hout⟩ := ensureKernelPd_none h hr
      exact ⟨.refl h, rfl, nofun, fun _ => hout⟩
    | some a =>
      obtain ⟨hk, hs, ha⟩ := ensureKernelPd_some h hr
      have hopen := splitLarge_spec (j := ix v 21) hk.wf ha
      dsimp only
      generalize splitLarge s₁ a (ix v 21) = o at hopen ⊢
      obtain ⟨s₂, r⟩ := o
      rcases hopen.outcome with ⟨h0, htable⟩ | ⟨h1, hout⟩
      · obtain rfl : r = 0 := h0
        dsimp only
        rw [if_neg (by decide)]
        refine ⟨hk.trans hopen.keeps, hopen.space_eq.trans hs, ?_, nofun⟩
        intro b hb
        injection hb with hb
        exact ⟨hb ▸ hopen.keeps.nodes _ _ ha, htable⟩
      · obtain rfl : r = -1 := h1
        exact ⟨hk.trans hopen.keeps, hopen.space_eq.trans hs, nofun, fun _ => hout⟩

/-! The flags of the kernel. -/

/-- The flags that a page of the kernel gets of those asked for. -/
def kernelBits (f : Nat) : Nat := f &&& 0xfffffffffffffffb &&& LEAF_FLAGS

theorem kernelFlags_eq (hv : KERNEL_VMA ≤ v) (f : Nat) : kernelFlags v f = f &&& 0xfffffffffffffffb := if_pos hv

theorem kernelBits_sub (f : Nat) : kernelBits f &&& LEAF_FLAGS = kernelBits f := by
  rw [kernelBits, Nat.and_assoc, Nat.and_self]

theorem and_user (f : Nat) : f &&& 0xfffffffffffffffb &&& 4 = 0 := by
  rw [Nat.and_assoc]
  exact Nat.and_zero f

theorem kernelBits_user (f : Nat) : kernelBits f &&& 4 = 0 := by
  rw [kernelBits, Nat.and_right_comm, and_user, Nat.zero_and]

/-- The page of an address that a table is found for. -/
theorem Tabled.write (h : Tabled s i j (s', some a)) (hp : p &&& PHYS_MASK = p) (hf : f &&& LEAF_FLAGS = f)
    (hu : f &&& 4 = 0) : Keeps s (s'.write a k (p ||| f)) ∧
      space (s'.write a k (p ||| f)) = Function.update (space s) (i, j, k) (mapped p f) := by
  have ha := h.found a rfl
  refine ⟨h.keeps.trans (write_leaf_keeps h.keeps.wf ha), ?_⟩
  rw [space_write_leaf h.keeps.wf ha hp hf hu, h.space_eq]

/-- A large page maps a page as asked for: no bits of caching, global pages or execution are set, and it can be written.
Those that the processor and the kernel keep in it stay. -/
def Already (M : Page → Option Mapping) (v p f : Nat) : Prop :=
  kernelBits f = 3 ∧ ∃ m, M (page v) = some m ∧ m.phys = p &&& PHYS_MASK ∧ m.flags &&& 0x800000000000011f = 3

theorem large_offset (e v p : Nat) (h : (e &&& HUGE_MASK) + (v &&& 0x1fffff) &&& PAGE_MASK = p &&& PAGE_MASK) :
    (e &&& HUGE_MASK) + (ix v 12).val * PAGE_SIZE = p &&& PHYS_MASK := by
  have hoffset : v &&& 0x1fffff = v / 2 ^ 0 % 2 ^ 21 * 2 ^ 0 := Bits.and_field v 21 0
  rw [page_mask, page_mask, hoffset, huge_mask] at h
  rw [ix_val, huge_mask, phys_mask]
  have hlt : e / 2 ^ 21 % 2 ^ 31 < 2 ^ 31 := Nat.mod_lt _ (by decide)
  generalize e / 2 ^ 21 % 2 ^ 31 = x at h hlt ⊢
  have hpage : (x * 2 ^ 21 + v / 2 ^ 0 % 2 ^ 21 * 2 ^ 0) / 2 ^ 12 = x * 512 + v / 2 ^ 12 % 512 := by omega
  rw [hpage, Nat.mul_right_cancel_iff (by decide)] at h
  have hk : v / 2 ^ 12 % 512 < 512 := Nat.mod_lt _ (by decide)
  generalize v / 2 ^ 12 % 512 = k at h hk ⊢
  have hsmall : x * 512 + k < 2 ^ 40 := by omega
  rw [Nat.mod_eq_of_lt (hsmall.trans (by decide))] at h
  have hphys : p / 2 ^ 12 % 2 ^ 40 = x * 512 + k := by
    rw [← Nat.mod_mod_of_dvd (p / 2 ^ 12) (show 2 ^ 40 ∣ 2 ^ 52 by decide), ← h, Nat.mod_eq_of_lt hsmall]
  rw [hphys, Nat.add_mul, Nat.mul_assoc]
  rfl

theorem already_of_matches
    (hm : ptHugeMappingMatches (entry s (ix v 30) (ix v 21)) v p (f &&& 0xfffffffffffffffb) = true) :
    Already (space s) v p f := by
  generalize he : entry s (ix v 30) (ix v 21) = e at hm
  rw [ptHugeMappingMatches] at hm
  by_cases hhuge : e &&& 1 = 0 ∨ e &&& 0x80 = 0
  · rw [if_pos hhuge] at hm
    exact absurd hm Bool.false_ne_true
  rw [if_neg hhuge] at hm
  change (if kernelBits f ≠ 3 then false else _) = true at hm
  by_cases hbits : kernelBits f = 3
  · rw [if_neg (not_not_intro hbits)] at hm
    by_cases hflags : e &&& 0x800000000000111e = 2
    · rw [if_neg (not_not_intro hflags), decide_eq_true_iff] at hm
      refine ⟨hbits,
        ⟨(e &&& HUGE_MASK) + (ix v 12).val * PAGE_SIZE, leafFlags e, combine (top s (ix v 30)) e⟩, ?_, ?_, ?_⟩
      · show lookup s (ix v 30) (ix v 21) (ix v 12) = _
        rw [lookup, he, if_neg fun h => hhuge (.inl h), if_pos fun h => hhuge (.inr h)]
      · exact large_offset e v p hm
      · show leafFlags e &&& 0x800000000000011f = 3
        rw [leafFlags_and e (by decide) (by decide)]
        have hsplit : e &&& 0x800000000000011f = (e &&& 1) ||| (e &&& 0x800000000000111e &&& 0x800000000000011e) := by
          rw [Nat.and_assoc, ← Nat.and_or_distrib_left]
          rfl
        have hone : e &&& 1 = 1 := by
          have h := Nat.and_le_right (n := e) (m := 1)
          have h' : e &&& 1 ≠ 0 := fun h => hhuge (.inl h)
          omega
        rw [hsplit, hflags, hone]
        rfl
    · rw [if_pos hflags] at hm
      exact absurd hm Bool.false_ne_true
  · rw [if_pos hbits] at hm
    exact absurd hm Bool.false_ne_true

/-! The operations. -/

theorem vmmMapPagePae_spec (h : Wf s) (hv : KERNEL_VMA ≤ v) (hlt : v < 2 ^ 64) (p f : Nat) :
    let o := vmmMapPagePae s v p f
    Keeps s o.1 ∧
      (o.2 = true ∧ space o.1 = Function.update (space s) (page v) (mapped (p &&& PHYS_MASK) (kernelBits f)) ∨
        o.2 = true ∧ space o.1 = space s ∧ Already (space s) v p f ∨
        o.2 = false ∧ space o.1 = space s ∧ Exhausted o.1) := by
  rw [vmmMapPagePae, getPdForPdpt_kernel s hv hlt, kernelFlags_eq hv]
  dsimp only
  cases hr : ptEnsureKernelPd s v with
  | mk s₁ r =>
    cases r with
    | none =>
      obtain ⟨rfl, hout⟩ := ensureKernelPd_none h hr
      exact ⟨.refl h, .inr (.inr ⟨rfl, rfl, hout⟩)⟩
    | some a =>
      obtain ⟨hk, hs, ha⟩ := ensureKernelPd_some h hr
      dsimp only
      rw [← entry_of_some ha]
      by_cases hmatch : entry s₁ (ix v 30) (ix v 21) &&& 0x80 ≠ 0 ∧
          ptHugeMappingMatches (entry s₁ (ix v 30) (ix v 21)) v p (f &&& 0xfffffffffffffffb) = true
      · rw [if_pos hmatch]
        exact ⟨hk, .inr (.inl ⟨rfl, hs, hs ▸ already_of_matches hmatch.2⟩)⟩
      rw [if_neg hmatch]
      have hopen := splitLarge_spec (j := ix v 21) hk.wf ha
      generalize splitLarge s₁ a (ix v 21) = o at hopen ⊢
      obtain ⟨s₂, r⟩ := o
      rcases hopen.outcome with ⟨h0, htable⟩ | ⟨h1, hout⟩
      · obtain rfl : r = 0 := h0
        dsimp only
        rw [if_neg (by decide)]
        have htab := tableFor_spec hopen.keeps.wf (hopen.keeps.nodes _ _ ha) htable (and_user f)
        generalize tableFor s₂ a v (f &&& 0xfffffffffffffffb) = o at htab ⊢
        obtain ⟨s₃, r⟩ := o
        have hk₂ := hk.trans hopen.keeps
        cases r with
        | none =>
          exact ⟨hk₂.trans htab.keeps,
            .inr (.inr ⟨rfl, (htab.space_eq.trans hopen.space_eq).trans hs, htab.failed rfl⟩)⟩
        | some pt =>
          obtain ⟨hk₃, hspace⟩ := htab.write (k := ix v 12) (phys_phys p) (kernelBits_sub f) (kernelBits_user f)
          refine ⟨hk₂.trans hk₃, .inl ⟨rfl, hspace.trans ?_⟩⟩
          rw [hopen.space_eq.trans hs]
          rfl
      · obtain rfl : r = -1 := h1
        exact ⟨hk.trans hopen.keeps, .inr (.inr ⟨rfl, hopen.space_eq.trans hs, hout⟩)⟩

theorem vmmUnmapPagePae_spec (h : Wf s) (hv : KERNEL_VMA ≤ v) (hlt : v < 2 ^ 64) :
    let o := vmmUnmapPagePae s v
    Keeps s o.1 ∧ (o.2 = true ∧ space o.1 = Function.update (space s) (page v) none ∨
      o.2 = false ∧ space o.1 = space s ∧ Exhausted o.1) := by
  rw [vmmUnmapPagePae]
  have hopen := openPage_spec h hv hlt
  generalize openPage s v = o at hopen ⊢
  obtain ⟨s₁, r⟩ := o
  cases r with
  | none => exact ⟨hopen.keeps, .inr ⟨rfl, hopen.space_eq, hopen.failed rfl⟩⟩
  | some a =>
    obtain ⟨ha, htable⟩ := hopen.found a rfl
    have hw := hopen.keeps.wf
    dsimp only
    rw [← entry_of_some ha]
    by_cases habsent : entry s₁ (ix v 30) (ix v 21) &&& 1 = 0
    · rw [if_pos habsent]
      refine ⟨hopen.keeps, .inl ⟨rfl, ?_⟩⟩
      have hnone : space s (page v) = none := by
        rw [← hopen.space_eq]
        exact lookup_absent habsent
      rw [hopen.space_eq, ← hnone, Function.update_eq_self]
    · rw [if_neg habsent]
      obtain ⟨b, hb⟩ := htable habsent
      obtain ⟨-, hhuge, haddr, -⟩ := table_entry hb
      rw [masks_eq (hw.table _ _ habsent hhuge).1, haddr]
      refine ⟨hopen.keeps.trans (write_leaf_keeps hw hb), .inl ⟨rfl, ?_⟩⟩
      dsimp only
      rw [space_write hw hb (by decide), hopen.space_eq]
      rfl

theorem vmmMapPageEarlyPae_spec (h : Wf s) (hv : KERNEL_VMA ≤ v) (hlt : v < 2 ^ 64) (hp : p < 2 ^ 52) (f : Nat) :
    let o := vmmMapPageEarlyPae s v p f
    Keeps s o.1 ∧ (o.2 = true ∧ space o.1 =
        Function.update (space s) (page v) (mapped (p &&& PHYS_MASK) (f &&& 0xfffffffffffffffb &&& 0xfff)) ∨
      o.2 = false ∧ space o.1 = space s) := by
  rw [vmmMapPageEarlyPae, kernelFlags_eq hv]
  have hopen := openPage_spec h hv hlt
  dsimp only
  generalize openPage s v = o at hopen ⊢
  obtain ⟨s₁, r⟩ := o
  cases r with
  | none => exact ⟨hopen.keeps, .inr ⟨rfl, hopen.space_eq⟩⟩
  | some a =>
    obtain ⟨ha, htable⟩ := hopen.found a rfl
    have hw := hopen.keeps.wf
    dsimp only
    rw [← entry_of_some ha]
    by_cases habsent : entry s₁ (ix v 30) (ix v 21) &&& 1 = 0
    · rw [if_pos habsent]
      exact ⟨hopen.keeps, .inr ⟨rfl, hopen.space_eq⟩⟩
    · rw [if_neg habsent]
      obtain ⟨b, hb⟩ := htable habsent
      obtain ⟨-, hhuge, haddr, -⟩ := table_entry hb
      rw [masks_eq (hw.table _ _ habsent hhuge).1, haddr, masks_eq hp]
      refine ⟨hopen.keeps.trans (write_leaf_keeps hw hb), .inl ⟨rfl, ?_⟩⟩
      dsimp only
      rw [space_write_leaf hw hb (phys_phys p), hopen.space_eq]
      · rfl
      · rw [Nat.and_assoc]
        rfl
      · rw [Nat.and_right_comm, and_user, Nat.zero_and]

/-! Large pages. -/

/-- The entry that `vmm_map_huge_page_pae` writes. -/
def hugeEntry (p f : Nat) : Nat :=
  p &&& HUGE_MASK ||| (if f &&& 0xfffffffffffffffb &&& 0x80 ≠ 0 then kernelBits f &&& 0xffffffffffffef7f ||| 0x1000
    else kernelBits f &&& 0xffffffffffffef7f) ||| 0x80

theorem hugeEntry_large (p f : Nat) : hugeEntry p f &&& 0x80 ≠ 0 := by
  rw [hugeEntry, Nat.and_or_distrib_right]
  exact fun h => absurd (Nat.or_eq_zero_iff.1 h).2 (by decide)

theorem hugeEntry_phys (p f : Nat) : hugeEntry p f &&& HUGE_MASK = p &&& HUGE_MASK := by
  have hbits : kernelBits f &&& 0xffffffffffffef7f &&& HUGE_MASK = 0 := by
    rw [Nat.and_right_comm, and_disjoint (kernelBits_sub f) (by decide), Nat.zero_and]
  rw [hugeEntry, Nat.and_or_distrib_right, Nat.and_or_distrib_right, Nat.and_assoc, Nat.and_self]
  by_cases hpat : f &&& 0xfffffffffffffffb &&& 0x80 ≠ 0
  · rw [if_pos hpat, Nat.and_or_distrib_right, hbits]
    exact (Nat.or_zero _).trans (Nat.or_zero _)
  · rw [if_neg hpat, hbits]
    exact (Nat.or_zero _).trans (Nat.or_zero _)

/-- The entry of a large page has the flags where `pt_split_huge_page` looks for them. -/
theorem hugeEntry_flags (p f : Nat) : leafFlags (hugeEntry p f) = kernelBits f := by
  have hphys : ∀ c, HUGE_MASK &&& c = 0 → p &&& HUGE_MASK &&& c = 0 := by
    intro c hc
    rw [Nat.and_assoc, hc, Nat.and_zero]
  have hlow : kernelBits f &&& 0xffffffffffffef7f &&& LEAF_FLAGS &&& 0xffffffffffffef7f =
      kernelBits f &&& 0xffffffffffffef7f := by
    rw [Nat.and_right_comm (kernelBits f), kernelBits_sub, Nat.and_assoc, Nat.and_self]
  have hpat' : kernelBits f &&& 0xffffffffffffef7f &&& 0x1000 = 0 := by
    rw [Nat.and_assoc]
    exact Nat.and_zero _
  have hwhole : (kernelBits f &&& 0xffffffffffffef7f) ||| (kernelBits f &&& 0x80) = kernelBits f := by
    rw [← Nat.and_or_distrib_left]
    have hall : kernelBits f &&& LEAF_FLAGS &&& (0xffffffffffffef7f ||| 0x80) = kernelBits f &&& LEAF_FLAGS := by
      rw [Nat.and_assoc]
      rfl
    rw [kernelBits_sub] at hall
    exact hall
  have hbit : kernelBits f &&& 0x80 = f &&& 0xfffffffffffffffb &&& 0x80 := and_sub (by decide)
  have hsize : 0x80 &&& LEAF_FLAGS &&& 0xffffffffffffef7f = 0 := by decide
  have hpat₀ : 0x1000 &&& LEAF_FLAGS &&& 0xffffffffffffef7f = 0 := by decide
  rw [leafFlags, hugeEntry]
  by_cases hpat : f &&& 0xfffffffffffffffb &&& 0x80 = 0
  · rw [if_neg (not_not_intro hpat)]
    rw [hbit, hpat, Nat.or_zero] at hwhole
    simp only [Nat.and_or_distrib_right, hphys LEAF_FLAGS (by decide), hphys 0x1000 (by decide), hpat', hlow, hsize,
      Nat.zero_or, Nat.or_zero]
    exact hwhole
  · rw [if_pos hpat]
    have hset : kernelBits f &&& 0x80 = 0x80 := by
      have h : kernelBits f &&& 0x80 = kernelBits f / 2 ^ 7 % 2 * 2 ^ 7 := Bits.and_field _ 1 7
      rw [hbit] at h ⊢
      omega
    rw [hset] at hwhole
    simp only [Nat.and_or_distrib_right, hphys LEAF_FLAGS (by decide), hphys 0x1000 (by decide), hpat', hlow,
      hsize, hpat₀, Nat.zero_or, Nat.or_zero]
    exact hwhole

/-- A large page, and what it says of each page in it. -/
def setLarge (M : Page → Option Mapping) (v p f : Nat) : Page → Option Mapping :=
  fun q => if (q.1, q.2.1) = (ix v 30, ix v 21) then mapped (p + q.2.2.val * PAGE_SIZE) f else M q

theorem space_write_large (h : Wf s) (ha : addr s (.pd (ix v 30)) = some a) (hno : addr s (.pt (ix v 30) (ix v 21)) = none)
    (hp : p &&& HUGE_MASK = p) (f : Nat) : Keeps s (s.write a (ix v 21) (hugeEntry p f)) ∧
      space (s.write a (ix v 21) (hugeEntry p f)) = setLarge (space s) v p (kernelBits f) := by
  have hnone : tableAt (hugeEntry p f) = none := if_pos (.inr (hugeEntry_large p f))
  refine ⟨write_large_keeps h ha hno hnone, ?_⟩
  funext ⟨i, j, k⟩
  show lookup _ i j k = if (i, j) = (ix v 30, ix v 21) then _ else lookup s i j k
  by_cases hij : (i, j) = (ix v 30, ix v 21)
  · cases hij
    have hpresent : hugeEntry p f &&& 1 = kernelBits f &&& 1 := by
      rw [← hugeEntry_flags p f, leafFlags_and _ (by decide) (by decide)]
    have hrights : combine (top s (ix v 30)) (hugeEntry p f) = combine 7 (kernelBits f) := by
      rw [← combine_leafFlags, hugeEntry_flags, combine_kernel (top_flags h ha) (kernelBits_user f)]
    rw [if_pos rfl, lookup, entry_write_pde h ha, if_pos rfl, top_write_pde h ha, if_pos (hugeEntry_large p f), hpresent,
      hugeEntry_phys, hugeEntry_flags, hrights, hp]
    rfl
  · have hleaf : leaf (s.write a (ix v 21) (hugeEntry p f)) i j k = leaf s i j k := by
      rw [leaf_write_pde h ha (by rw [hnone]; exact fun _ h' => by cases h'), if_neg hij]
    rw [if_neg hij, lookup, lookup, entry_write_pde h ha, if_neg hij, top_write_pde h ha, hleaf]

theorem vmmMapHugePagePae_spec (h : Wf s) (hv : KERNEL_VMA ≤ v) (hlt : v < 2 ^ 64) (p f : Nat) :
    let o := vmmMapHugePagePae s v p f
    Keeps s o.1 ∧ (o.2 = 0 ∧ p % VMM_HUGE_PAGE_SIZE = 0 ∧ space o.1 = setLarge (space s) v p (kernelBits f) ∨
      o.2 = -1 ∧ space o.1 = space s ∧
        ((v ||| p) &&& (VMM_HUGE_PAGE_SIZE - 1) ≠ 0 ∨ PHYSICAL_ADDRESS_LIMIT ≤ p ∨ Exhausted o.1 ∨
          ∃ b, addr o.1 (.pt (ix v 30) (ix v 21)) = some b)) := by
  rw [vmmMapHugePagePae, if_neg (Nat.not_lt.2 hv)]
  by_cases halign : (v ||| p) &&& (VMM_HUGE_PAGE_SIZE - 1) = 0
  · rw [if_neg (not_not_intro halign)]
    by_cases hlimit : PHYSICAL_ADDRESS_LIMIT ≤ p
    · rw [if_pos hlimit]
      exact ⟨.refl h, .inr ⟨rfl, rfl, .inr (.inl hlimit)⟩⟩
    rw [if_neg hlimit, getPdForPdpt_kernel s hv hlt]
    have hmod : p % VMM_HUGE_PAGE_SIZE = 0 := by
      rw [Nat.and_or_distrib_right, Nat.or_eq_zero_iff] at halign
      have hfield : p &&& (VMM_HUGE_PAGE_SIZE - 1) = p / 2 ^ 0 % 2 ^ 21 * 2 ^ 0 := Bits.and_field p 21 0
      rw [halign.2] at hfield
      show p % 2 ^ 21 = 0
      omega
    have hphys : p &&& HUGE_MASK = p := by
      have hsmall : p < 2 ^ 52 := Nat.not_le.1 hlimit
      have hmod' : p % 2 ^ 21 = 0 := hmod
      rw [huge_mask]
      omega
    cases hr : ptEnsureKernelPd s v with
    | mk s₁ r =>
      cases r with
      | none =>
        obtain ⟨rfl, hout⟩ := ensureKernelPd_none h hr
        exact ⟨.refl h, .inr ⟨rfl, rfl, .inr (.inr (.inl hout))⟩⟩
      | some a =>
        obtain ⟨hk, hs, ha⟩ := ensureKernelPd_some h hr
        dsimp only
        rw [← entry_of_some ha]
        by_cases htable : entry s₁ (ix v 30) (ix v 21) &&& VMM_PTE_PRESENT ≠ 0 ∧
            entry s₁ (ix v 30) (ix v 21) &&& 0x80 = 0
        · rw [if_pos htable]
          exact ⟨hk, .inr ⟨rfl, hs, .inr (.inr (.inr ⟨_, addr_table ha htable.1 htable.2⟩))⟩⟩
        · rw [if_neg htable]
          have hno : addr s₁ (.pt (ix v 30) (ix v 21)) = none := by
            rw [addr_pt, ha, Option.bind_some, tableAt, if_pos]
            by_cases hp : entry s₁ (ix v 30) (ix v 21) &&& 1 = 0
            · exact .inl hp
            · exact .inr fun hh => htable ⟨hp, hh⟩
          obtain ⟨hk', hspace⟩ := space_write_large hk.wf ha hno hphys f
          exact ⟨hk.trans hk', .inl ⟨rfl, hmod, hspace.trans (by rw [hs])⟩⟩
  · rw [if_pos halign]
    exact ⟨.refl h, .inr ⟨rfl, rfl, .inl halign⟩⟩

/-! Pages with frames of their own. -/

theorem pmmAllocPage_none (ha : pmmAllocPage s = (s', none)) : s' = s ∧ s.frames = [] := by
  rw [pmmAllocPage] at ha
  cases hf : s.frames with
  | nil =>
    rw [hf] at ha
    exact ⟨(Prod.mk.inj ha).1.symm, rfl⟩
  | cons q frames =>
    rw [hf] at ha
    cases (Prod.mk.inj ha).2

theorem pmmAllocPage_some (h : Wf s) (ha : pmmAllocPage s = (s', some p)) :
    Keeps s s' ∧ space s' = space s ∧ s.frames = p :: s'.frames := by
  rw [pmmAllocPage] at ha
  cases hf : s.frames with
  | nil =>
    rw [hf] at ha
    cases (Prod.mk.inj ha).2
  | cons q frames =>
    rw [hf] at ha
    obtain ⟨hs, hq⟩ := Prod.mk.inj ha
    injection hq with hq
    subst hs hq
    have hsame : SameTables s { s with frames := frames } := ⟨rfl, rfl, rfl, fun _ => rfl, fun _ _ _ _ => rfl⟩
    refine ⟨.of_same hsame h (.refl _) ?_ fun _ _ => rfl, hsame.space_eq fun _ _ _ => rfl, rfl⟩
    exact hf ▸ List.suffix_cons q frames

/-- The next frame, for a page. -/
def Taken (s s' : State) (p : Nat) : Prop := (p :: s'.frames) <:+ s.frames

theorem taken_phys (hframes : ∀ p ∈ s.frames, p &&& PHYS_MASK = p) (h : Taken s s' p) : p &&& PHYS_MASK = p :=
  hframes p (h.subset (.head _))

/-- An entry with other flags. -/
theorem decoded_flags (w : Nat) (hf : f &&& 0xfff = f) :
    decoded (w &&& PAGE_MASK ||| f) = mapped (w &&& PHYS_MASK) (w &&& VMM_PTE_NX ||| f) := by
  have hlow : ∀ c, 0xfff &&& c = 0 → f &&& c = 0 := fun c hc => and_disjoint hf hc
  have hphys : (w &&& PAGE_MASK ||| f) &&& PHYS_MASK = w &&& PHYS_MASK := by
    rw [Nat.and_or_distrib_right, and_sub (by decide), hlow PHYS_MASK (by decide), Nat.or_zero]
  have hleaf : (w &&& PAGE_MASK ||| f) &&& LEAF_FLAGS = w &&& VMM_PTE_NX ||| f := by
    rw [Nat.and_or_distrib_right, Nat.and_assoc]
    have hsub : f &&& LEAF_FLAGS = f := by
      rw [← hf, Nat.and_assoc]
      rfl
    rw [hsub]
    rfl
  have hbit : ∀ c, LEAF_FLAGS &&& c = c → (w &&& PAGE_MASK ||| f) &&& c = (w &&& VMM_PTE_NX ||| f) &&& c := by
    intro c hc
    rw [← hleaf, and_sub hc]
  rw [decoded, mapped, hbit 1 (by decide), hphys, hleaf,
    combine_congr (hbit _ (by decide)) (hbit _ (by decide)) (hbit _ (by decide))]

theorem mapAllocPage_spec (h : Wf s) (hv : KERNEL_VMA ≤ v) (hlt : v < 2 ^ 64)
    (hframes : ∀ p ∈ s.frames, p &&& PHYS_MASK = p) (hf : f &&& 4 = 0) :
    let o := mapAllocPage s v f
    Keeps s o.1 ∧ ((o.2 = true ∧ space s (page v) = none ∧
        ∃ q, Taken s o.1 q ∧ space o.1 = Function.update (space s) (page v) (mapped q (f &&& 0xfff))) ∨
      (o.2 = true ∧ ∃ m, space s (page v) = some m ∧
        space o.1 = Function.update (space s) (page v) (mapped m.phys (m.flags &&& VMM_PTE_NX ||| f &&& 0xfff))) ∨
      o.2 = false ∧ space o.1 = space s ∧ (Exhausted o.1 ∨ o.1.frames = [])) := by
  rw [mapAllocPage]
  have hopen := openPage_spec h hv hlt
  dsimp only
  generalize openPage s v = o at hopen ⊢
  obtain ⟨s₁, r⟩ := o
  cases r with
  | none => exact ⟨hopen.keeps, .inr (.inr ⟨rfl, hopen.space_eq, .inl (hopen.failed rfl)⟩)⟩
  | some a =>
    obtain ⟨ha, htable⟩ := hopen.found a rfl
    have htab := tableFor_spec hopen.keeps.wf ha htable hf
    dsimp only
    generalize tableFor s₁ a v f = o at htab ⊢
    obtain ⟨s₂, r⟩ := o
    have hk := hopen.keeps.trans htab.keeps
    have hs := htab.space_eq.trans hopen.space_eq
    cases r with
    | none => exact ⟨hk, .inr (.inr ⟨rfl, hs, .inl (htab.failed rfl)⟩)⟩
    | some pt =>
      have hpt := htab.found pt rfl
      have hleaf : leaf s₂ (ix v 30) (ix v 21) (ix v 12) = s₂.mem pt (ix v 12) := by
        rw [leaf, hpt]
        rfl
      have hpage : space s (page v) = lookup s₂ (ix v 30) (ix v 21) (ix v 12) := hs ▸ rfl
      have hlow : f &&& 0xfff &&& 4 = 0 := by rw [Nat.and_right_comm, hf, Nat.zero_and]
      have hfield : f &&& 0xfff &&& 0xfff = f &&& 0xfff := by rw [Nat.and_assoc, Nat.and_self]
      rw [lookup_table hpt] at hpage
      dsimp only
      rw [← hleaf]
      by_cases habsent : leaf s₂ (ix v 30) (ix v 21) (ix v 12) &&& 1 = 0
      · rw [if_pos habsent] at hpage ⊢
        cases hr : pmmAllocPage s₂ with
        | mk s₃ r =>
          cases r with
          | none =>
            obtain ⟨rfl, hnone⟩ := pmmAllocPage_none hr
            exact ⟨hk, .inr (.inr ⟨rfl, hs, .inr hnone⟩)⟩
          | some q =>
            obtain ⟨hk₃, hs₃, hframe⟩ := pmmAllocPage_some hk.wf hr
            have htaken : Taken s s₃ q := by
              rw [Taken, ← hframe]
              exact hk.frames
            have hq := taken_phys hframes htaken
            have hpt₃ := hk₃.nodes _ _ hpt
            dsimp only
            rw [page_of_phys hq]
            refine ⟨(hk.trans hk₃).trans (write_leaf_keeps hk₃.wf hpt₃), .inl ⟨rfl, hpage, q, htaken, ?_⟩⟩
            rw [space_write_leaf hk₃.wf hpt₃ hq (by rw [Nat.and_assoc]; rfl) hlow, hs₃, hs]
            rfl
      · rw [if_neg habsent] at hpage ⊢
        refine ⟨hk.trans (write_leaf_keeps htab.keeps.wf hpt), .inr (.inl ⟨rfl, _, hpage, ?_⟩)⟩
        dsimp only
        have huser : (leaf s₂ (ix v 30) (ix v 21) (ix v 12) &&& PAGE_MASK ||| f &&& 0xfff) &&& 4 = 0 := by
          rw [Nat.and_or_distrib_right, hlow, Nat.and_assoc]
          exact (Nat.or_zero _).trans (Nat.and_zero _)
        rw [space_write htab.keeps.wf hpt huser, decoded_flags _ hfield, hs, and_sub (by decide)]
        rfl

/-- What `heap_map_page_pae` does: a frame for the page; or nothing, without a page for a table; or no page, without a
frame. -/
def HeapMapped (s : State) (v : Nat) (o : State × Int) : Prop :=
  Keeps s o.1 ∧ ((o.2 = 0 ∧ ∃ q, Taken s o.1 q ∧ space o.1 = Function.update (space s) (page v) (mapped q 3)) ∨
    (o.2 = -1 ∧ space o.1 = space s ∧ Exhausted o.1) ∨
    o.2 = -1 ∧ space o.1 = Function.update (space s) (page v) none ∧ o.1.frames = [])

theorem heapFrame_spec (hk : Keeps s s') (hpt : addr s' (.pt (ix v 30) (ix v 21)) = some pt)
    (hs : space s' = space s ∨ space s' = Function.update (space s) (page v) none)
    (hframes : ∀ p ∈ s.frames, p &&& PHYS_MASK = p) :
    HeapMapped s v (heapFrame s' pt (ix v 12)) := by
  have hleaf : leaf s' (ix v 30) (ix v 21) (ix v 12) = s'.mem pt (ix v 12) := by
    rw [leaf, hpt]
    rfl
  have hclear : ∃ s₂, (if s'.mem pt (ix v 12) &&& 1 ≠ 0 then s'.write pt (ix v 12) 0 else s') = s₂ ∧
      Keeps s s₂ ∧
      addr s₂ (.pt (ix v 30) (ix v 21)) = some pt ∧ space s₂ = Function.update (space s) (page v) none := by
    by_cases habsent : s'.mem pt (ix v 12) &&& 1 = 0
    · rw [if_neg (not_not_intro habsent)]
      refine ⟨s', rfl, hk, hpt, ?_⟩
      rcases hs with hs | hs
      · have hnone : space s' (page v) = none := by
          show lookup s' (ix v 30) (ix v 21) (ix v 12) = none
          rw [lookup_table hpt, hleaf, if_pos habsent]
        rw [← hs, ← hnone, Function.update_eq_self]
      · exact hs
    · rw [if_pos habsent]
      have hkeeps := write_leaf_keeps (k := ix v 12) (w := 0) hk.wf hpt
      refine ⟨_, rfl, hk.trans hkeeps, hkeeps.nodes _ _ hpt, ?_⟩
      rw [space_write hk.wf hpt (Nat.zero_and 4)]
      rcases hs with hs | hs
      · rw [hs]
        rfl
      · rw [hs]
        exact Function.update_idem _ _ _
  obtain ⟨s₂, heq, hk₂, hpt₂, hs₂⟩ := hclear
  rw [heapFrame, heq]
  cases hr : pmmAllocPage s₂ with
  | mk s₃ r =>
    cases r with
    | none =>
      obtain ⟨rfl, hnone⟩ := pmmAllocPage_none hr
      exact ⟨hk₂, .inr (.inr ⟨rfl, hs₂, hnone⟩)⟩
    | some q =>
      obtain ⟨hk₃, hs₃, hframe⟩ := pmmAllocPage_some hk₂.wf hr
      have htaken : Taken s s₃ q := by
        rw [Taken, ← hframe]
        exact hk₂.frames
      have hq := taken_phys hframes htaken
      have hpt₃ := hk₃.nodes _ _ hpt₂
      dsimp only
      rw [page_of_phys hq]
      refine ⟨(hk₂.trans hk₃).trans (write_leaf_keeps hk₃.wf hpt₃), .inl ⟨rfl, q, htaken, ?_⟩⟩
      rw [space_write_leaf hk₃.wf hpt₃ hq (by decide) (by decide), hs₃, hs₂]
      exact Function.update_idem _ _ _

theorem heapMapPagePae_spec (h : Wf s) (v : Nat)
    (hframes : ∀ p ∈ s.frames, p &&& PHYS_MASK = p) : HeapMapped s v (heapMapPagePae s v) := by
  rw [heapMapPagePae]
  dsimp only
  cases hr : ptEnsureKernelPd s v with
  | mk s₁ r =>
    cases r with
    | none =>
      obtain ⟨rfl, hout⟩ := ensureKernelPd_none h hr
      exact ⟨.refl h, .inr (.inl ⟨rfl, rfl, hout⟩)⟩
    | some a =>
      obtain ⟨hk₁, hs₁, ha₁⟩ := ensureKernelPd_some h hr
      dsimp only
      have hopen := splitLarge_spec (j := ix v 21) hk₁.wf ha₁
      generalize splitLarge s₁ a (ix v 21) = o at hopen ⊢
      obtain ⟨s₂, r⟩ := o
      have hk := hk₁.trans hopen.keeps
      have hs := hopen.space_eq.trans hs₁
      rcases hopen.outcome with ⟨h0, htable⟩ | ⟨h1, hout⟩
      · obtain rfl : r = 0 := h0
        have ha := hopen.keeps.nodes _ _ ha₁
        dsimp only
        rw [if_neg (by decide), ← entry_of_some ha]
        by_cases habsent : entry s₂ (ix v 30) (ix v 21) &&& 1 = 0
        · rw [if_neg fun h' => h'.2 habsent]
          have htab := heapTable_spec hopen.keeps.wf ha htable
          dsimp only at htab
          generalize heapTable s₂ a v (entry s₂ (ix v 30) (ix v 21)) = o at htab ⊢
          obtain ⟨s₃, r⟩ := o
          cases r with
          | none => exact ⟨hk.trans htab.keeps, .inr (.inl ⟨rfl, htab.space_eq.trans hs, htab.failed rfl⟩)⟩
          | some pt =>
            exact heapFrame_spec (hk.trans htab.keeps) (htab.found pt rfl) (.inl (htab.space_eq.trans hs)) hframes
        · obtain ⟨b, hb⟩ := htable habsent
          obtain ⟨-, hhuge, haddr, -⟩ := table_entry hb
          have hpage : entry s₂ (ix v 30) (ix v 21) &&& PAGE_MASK = b := by
            rw [← haddr]
            exact masks_eq (hopen.keeps.wf.table _ _ habsent hhuge).1
          rw [heapTable, if_neg habsent, hpage]
          by_cases hclear : s₁.mem a (ix v 21) &&& 0x80 ≠ 0 ∧ entry s₂ (ix v 30) (ix v 21) &&& 1 ≠ 0
          · rw [if_pos hclear]
            have hkeeps := write_leaf_keeps (k := ix v 12) (w := 0) hopen.keeps.wf hb
            apply heapFrame_spec (hk.trans hkeeps) (hkeeps.nodes _ _ hb) (.inr _) hframes
            rw [space_write hopen.keeps.wf hb (Nat.zero_and 4), hs]
            rfl
          · rw [if_neg hclear]
            exact heapFrame_spec hk hb (.inl hs) hframes
      · obtain rfl : r = -1 := h1
        exact ⟨hk, .inr (.inl ⟨rfl, hs, hout⟩)⟩

end Lebirun.Paging
