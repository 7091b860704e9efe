import Mathlib
import Lebirun.Paging.Direct

namespace Lebirun.Paging
set_option autoImplicit true

/-! A page of the kernel by the flags of its entry. -/

variable {s s' : State} {a e f p pd t v w : Nat} {i i' j j' k k' : Fin 512}

/-- The page that an entry with an address and flags maps. -/
def mapped (phys flags : Nat) : Option Mapping :=
  if flags &&& 1 = 0 then none
  else some ⟨phys, flags, combine (VMM_PTE_PRESENT ||| VMM_PTE_WRITE ||| VMM_PTE_USER) flags⟩

theorem combine_flags (ht : TableFlags t) (he : Clean e) : TableFlags (combine t e) := by
  rw [combine_clean he]
  by_cases h : e &&& 4 = 0
  · rw [if_pos h]
    rcases ht with rfl | rfl
    · exact .inl rfl
    · exact .inl rfl
  · rw [if_neg h]
    exact ht

theorem combine_kernel (ht : TableFlags t) (hu : f &&& 4 = 0) : combine t f = combine 7 f := by
  rcases ht with rfl | rfl
  · rw [combine, combine, hu]
    by_cases hw : f &&& VMM_PTE_WRITE = 0
    · rw [if_pos hw, if_pos hw]
      rfl
    · rw [if_neg hw, if_neg hw]
      rfl
  · rfl

theorem top_flags (h : Wf s) (ha : addr s (.pd i) = some a) : TableFlags (top s i) := by
  have hp : s.mem s.pdptHigh i &&& 1 ≠ 0 := by
    intro h'
    rw [addr, directoryAt, if_pos h'] at ha
    cases ha
  exact combine_flags (combine_flags (.inr rfl) h.high.2.1) (h.directory i hp)

theorem table_entry (ha : addr s (.pt i j) = some a) :
    entry s i j &&& 1 ≠ 0 ∧ entry s i j &&& 0x80 = 0 ∧ entry s i j &&& PHYS_MASK = a ∧
      ∃ pd, addr s (.pd i) = some pd := by
  rw [addr_pt] at ha
  cases hpd : addr s (.pd i) with
  | none =>
    rw [hpd] at ha
    cases ha
  | some pd =>
    rw [hpd, Option.bind_some, tableAt] at ha
    by_cases h : entry s i j &&& 1 = 0 ∨ entry s i j &&& 0x80 ≠ 0
    · rw [if_pos h] at ha
      cases ha
    · rw [if_neg h] at ha
      injection ha with ha
      exact ⟨fun h' => h (.inl h'), not_not.1 fun h' => h (.inr h'), ha, pd, rfl⟩

theorem lookup_table (ha : addr s (.pt i j) = some a) : lookup s i j k =
    if leaf s i j k &&& 1 = 0 then none
    else some ⟨leaf s i j k &&& PHYS_MASK, leaf s i j k &&& LEAF_FLAGS,
      combine (combine (top s i) (entry s i j)) (leaf s i j k)⟩ := by
  obtain ⟨hpresent, hsmall, -, -⟩ := table_entry ha
  rw [lookup, if_neg hpresent, if_neg (not_not_intro hsmall)]

/-- What an entry of a page table says, without the user bit. -/
def decoded (w : Nat) : Option Mapping :=
  if w &&& 1 = 0 then none
  else some ⟨w &&& PHYS_MASK, w &&& LEAF_FLAGS, combine (VMM_PTE_PRESENT ||| VMM_PTE_WRITE ||| VMM_PTE_USER) w⟩

theorem decoded_word (hp : p &&& PHYS_MASK = p) (hf : f &&& LEAF_FLAGS = f) : decoded (p ||| f) = mapped p f := by
  rw [decoded, word_and hp (by decide), word_phys hp hf, word_flags hp hf, combine_word hp]
  rfl

theorem lookup_decoded (h : Wf s) (ha : addr s (.pt i j) = some a) (hu : leaf s i j k &&& 4 = 0) :
    lookup s i j k = decoded (leaf s i j k) := by
  obtain ⟨hpresent, hsmall, -, pd, hpd⟩ := table_entry ha
  rw [lookup_table ha, combine_kernel (combine_flags (top_flags h hpd) (h.table i j hpresent hsmall)) hu]
  rfl

theorem lookup_word (h : Wf s) (ha : addr s (.pt i j) = some a) (hl : leaf s i j k = p ||| f)
    (hp : p &&& PHYS_MASK = p) (hf : f &&& LEAF_FLAGS = f) (hu : f &&& 4 = 0) : lookup s i j k = mapped p f := by
  rw [lookup_decoded h ha (by rw [hl, word_and hp (by decide), hu]), hl, decoded_word hp hf]

theorem fill_write (s : State) (a : Nat) (f : Fin 512 → Nat) (k : Fin 512) (w : Nat) :
    (s.fill a f).write a k w = s.fill a (Function.update f k w) := by
  have hmem : ((s.fill a f).write a k w).mem = (s.fill a (Function.update f k w)).mem := by
    funext q k'
    by_cases hq : q = a
    · subst hq
      rw [write_same, fill_same, fill_same, Function.update_apply]
    · rw [write_other hq, fill_other _ hq, fill_other _ hq]
  exact congrArg (fun mem => { s with mem := mem }) hmem

/-- A page of a table gets another entry. -/
theorem space_write (h : Wf s) (ha : addr s (.pt i j) = some a) (hu : w &&& 4 = 0) :
    space (s.write a k w) = Function.update (space s) (i, j, k) (decoded w) := by
  have hsame := write_leaf_same (k := k) (w := w) h ha
  funext ⟨i', j', k'⟩
  show lookup _ i' j' k' = _
  rw [Function.update_apply]
  by_cases hq : (i', j', k') = (i, j, k)
  · rw [if_pos hq]
    cases hq
    have hleaf := (leaf_write_leaf (w := w) h ha).trans (if_pos (rfl : (i, j, k) = (i, j, k)))
    rw [lookup_decoded (write_leaf_keeps h ha).wf (hsame.addr_eq _ ▸ ha) (by rw [hleaf, hu]), hleaf]
  · rw [if_neg hq, lookup, hsame.entry_eq, hsame.top_eq, leaf_write_leaf h ha, if_neg hq]
    rfl

theorem space_write_leaf (h : Wf s) (ha : addr s (.pt i j) = some a) (hp : p &&& PHYS_MASK = p)
    (hf : f &&& LEAF_FLAGS = f) (hu : f &&& 4 = 0) :
    space (s.write a k (p ||| f)) = Function.update (space s) (i, j, k) (mapped p f) := by
  rw [space_write h ha (by rw [word_and hp (by decide), hu]), decoded_word hp hf]

/-- The count of tables is no part of them. -/
theorem counted (h : Wf s) (n m : Nat) :
    Keeps s { s with heapPtCount := n, vmmPtCount := m } ∧ space { s with heapPtCount := n, vmmPtCount := m } = space s :=
  have hsame : SameTables s { s with heapPtCount := n, vmmPtCount := m } :=
    ⟨rfl, rfl, rfl, fun _ => rfl, fun _ _ _ _ => rfl⟩
  ⟨.of_same hsame h (.refl _) List.suffix_rfl fun _ _ => rfl, hsame.space_eq fun _ _ _ => rfl⟩

/-! The split of a large page. -/

/-- What the mapping of a page in the window does. -/
structure Ensured (s : State) (p : Nat) (o : State × Int) : Prop where
  keeps : Keeps s o.1
  code : o.2 = 0 ∨ o.2 = -1
  done : o.2 = 0 → Direct (space o.1) p
  space_eq : space o.1 = space s ∨ o.2 = 0 ∧ p < PT_DIRECT_WINDOW_START ∧ space s (direct p) = none ∧
    space o.1 = Function.update (space s) (direct p) (mapped p 3)
  failed : o.2 = -1 → Direct (space s) p → Exhausted o.1

theorem Ensured.quiet (h : Ensured s p o) (hp : Direct (space s) p) : space o.1 = space s := by
  obtain ⟨-, m, hm, -⟩ := hp
  rcases h.space_eq with hs | ⟨-, -, hnone, -⟩
  · exact hs
  · rw [hm] at hnone
    cases hnone

theorem Ensured.refuse (h : Wf s) (hd : Direct (space s) p → Exhausted s) : Ensured s p (s, -1) :=
  ⟨.refl h, .inr rfl, fun h' => absurd h' (by show (-1 : Int) ≠ 0; decide), .inl rfl, fun _ => hd⟩

theorem Ensured.found (h : Wf s) (hd : Direct (space s) p) : Ensured s p (s, 0) :=
  ⟨.refl h, .inl rfl, fun _ => hd, .inl rfl, fun h' => absurd h' (by show (0 : Int) ≠ -1; decide)⟩

/-- A split leaves every page as it is. -/
theorem install_split (h : Installs s i j a p e) (hpresent : entry s i j &&& 1 ≠ 0) (hhuge : entry s i j &&& 0x80 ≠ 0)
    (he : e = p &&& PAGE_MASK ||| (VMM_PTE_PRESENT ||| VMM_PTE_WRITE ||| entry s i j &&& VMM_PTE_USER)) :
    space (s.install a j p (fun k => (entry s i j &&& HUGE_MASK) + k.val * PAGE_SIZE ||| leafFlags (entry s i j)) e) =
      space s := by
  funext ⟨i', j', k⟩
  show lookup _ i' j' k = lookup s i' j' k
  by_cases hij : (i', j') = (i, j)
  · cases hij
    have hp := (h.wf.free p h.page).1
    have hflags := tableFlags_user (entry s i j)
    have huser : (VMM_PTE_PRESENT ||| VMM_PTE_WRITE ||| entry s i j &&& VMM_PTE_USER) &&& 4 = entry s i j &&& 4 := by
      rw [Nat.and_or_distrib_right, Nat.and_assoc]
      exact Nat.zero_or _
    have hpage := huge_page (entry s i j) k
    have hsub := leafFlags_sub (entry s i j)
    rw [lookup_table (by rw [h.addr_eq, if_pos rfl]), h.leaf_eq, h.entry_eq, h.top_eq, if_pos rfl, if_pos rfl,
      word_and hpage (by decide), leafFlags_and _ (by decide) (by decide), if_neg hpresent, word_phys hpage hsub,
      word_flags hpage hsub, combine_word hpage, combine_leafFlags, he, combine_split hflags huser hp, lookup,
      if_neg hpresent, if_pos hhuge]
  · rw [lookup, lookup, h.entry_eq, h.top_eq, h.leaf_eq, if_neg hij, if_neg hij]

/-- What the split of a large page does; an entry that is not present stays. -/
structure Split (s : State) (i j : Fin 512) (o : State × Int) : Prop where
  keeps : Keeps s o.1
  space_eq : space o.1 = space s
  outcome : o.2 = 0 ∧ (entry s i j &&& 1 ≠ 0 → ∃ a, addr o.1 (.pt i j) = some a) ∧
      (entry s i j &&& 1 = 0 → o.1 = s) ∨
    o.2 = -1 ∧ Exhausted o.1

theorem length_take (hp : p ∈ s.pages) : (s.take p).pages.length < s.pages.length := by
  have hpos := List.length_pos_of_mem hp
  have herase : (s.take p).pages.length = s.pages.length - 1 := List.length_erase_of_mem hp
  omega

/-- The end of a split, once the page table stands. -/
theorem split_end (hkeeps : Keeps s s') (hspace : space s' = space s) (hpresent : entry s i j &&& 1 ≠ 0)
    (htable : addr s' (.pt i j) = some p) (hdirect : Direct (space s) p) (hdone : Ensured s' p o) :
    Split s i j (if o.2 < 0 then (o.1, -1) else ({ o.1 with vmmPtCount := o.1.vmmPtCount + 1 }, 0)) := by
  have hdirect' : Direct (space s') p := hspace ▸ hdirect
  have hquiet := (hdone.quiet hdirect').trans hspace
  rcases hdone.code with h0 | h1
  · rw [h0, if_neg (by decide)]
    obtain ⟨hcount, hcounted⟩ := counted hdone.keeps.wf o.1.heapPtCount (o.1.vmmPtCount + 1)
    refine ⟨(hkeeps.trans hdone.keeps).trans hcount, hcounted.trans hquiet, .inl ⟨rfl, fun _ => ⟨p, ?_⟩, ?_⟩⟩
    · exact hcount.nodes _ _ (hdone.keeps.nodes _ _ htable)
    · exact fun h' => absurd h' hpresent
  · rw [h1, if_pos (by decide)]
    exact ⟨hkeeps.trans hdone.keeps, hquiet, .inr ⟨rfl, hdone.failed h1 hdirect'⟩⟩

theorem splitHugePage_spec (ensure : State → Nat → State × Int) (h : Wf s) (ha : addr s (.pd i) = some a)
    (hensure : ∀ t q, Wf t → t.pages.length < s.pages.length → q &&& PHYS_MASK = q → Ensured t q (ensure t q)) :
    Split s i j (ptSplitHugePage s ensure a j) := by
  rw [ptSplitHugePage, ← entry_of_some ha]
  by_cases hpresent : entry s i j &&& 1 = 0
  · rw [if_pos hpresent]
    exact ⟨.refl h, rfl, .inl ⟨rfl, fun h' => absurd hpresent h', fun _ => rfl⟩⟩
  rw [if_neg hpresent]
  by_cases hhuge : entry s i j &&& 0x80 = 0
  · rw [if_pos hhuge]
    exact ⟨.refl h, rfl, .inl ⟨rfl, fun _ => ⟨_, addr_table ha hpresent hhuge⟩, fun h' => absurd h' hpresent⟩⟩
  rw [if_neg hhuge]
  cases hr : ptAllocPtPage s with
  | mk s₁ r =>
    cases r with
    | none =>
      obtain ⟨rfl, hout⟩ := allocPtPage_none h hr
      exact ⟨.refl h, rfl, .inr ⟨rfl, hout⟩⟩
    | some p =>
      obtain ⟨rfl, hmem, hdirect⟩ := allocPtPage_some h hr
      have hp := (h.free p hmem).1
      obtain ⟨hclean, hleads, -⟩ := table_word hp (tableFlags_user (entry s i j))
      have hinst : Installs s i j a p
          (p &&& PAGE_MASK ||| (VMM_PTE_PRESENT ||| VMM_PTE_WRITE ||| entry s i j &&& VMM_PTE_USER)) :=
        ⟨h, ha, by rw [addr_pt, ha, Option.bind_some, tableAt, if_pos (.inr hhuge)], hmem, hclean, hleads⟩
      apply split_end (hinst.keeps _) (install_split hinst hpresent hhuge rfl) hpresent _ hdirect
        (hensure _ p (hinst.keeps _).wf (length_take hmem) hp)
      rw [hinst.addr_eq, if_pos rfl]

/-! A new page table, empty or with one entry. -/

theorem install_empty (h : Installs s i j a p e) (habsent : entry s i j &&& 1 = 0) :
    space (s.install a j p (fun _ => 0) e) = space s := by
  funext ⟨i', j', k⟩
  show lookup _ i' j' k = lookup s i' j' k
  by_cases hij : (i', j') = (i, j)
  · cases hij
    rw [lookup_table (by rw [h.addr_eq, if_pos rfl]), h.leaf_eq, if_pos rfl, Nat.zero_and, if_pos rfl,
      lookup_absent habsent]
  · rw [lookup, lookup, h.entry_eq, h.top_eq, h.leaf_eq, if_neg hij, if_neg hij]

theorem install_one (h : Installs s i j a pd e) (habsent : entry s i j &&& 1 = 0) (hp : p &&& PHYS_MASK = p)
    (hf : f &&& LEAF_FLAGS = f) (hu : f &&& 4 = 0) :
    space (s.install a j pd (Function.update (fun _ => 0) k (p ||| f)) e) =
      Function.update (space s) (i, j, k) (mapped p f) := by
  funext ⟨i', j', k'⟩
  show lookup _ i' j' k' = _
  rw [Function.update_apply]
  by_cases hij : (i', j') = (i, j)
  · cases hij
    have htable := (h.addr_eq (n := .pt i j) (Function.update (fun _ => 0) k (p ||| f))).trans (if_pos rfl)
    have hleaf : leaf (s.install a j pd (Function.update (fun _ => 0) k (p ||| f)) e) i j k' =
        Function.update (fun _ => 0) k (p ||| f) k' := (h.leaf_eq _).trans (if_pos rfl)
    by_cases hk : k' = k
    · rw [hk, Function.update_self] at hleaf
      rw [hk, if_pos rfl]
      exact lookup_word (h.keeps _).wf htable hleaf hp hf hu
    · rw [Function.update_of_ne hk] at hleaf
      rw [lookup_table htable, hleaf, Nat.zero_and, if_pos rfl, if_neg fun hq => hk (congrArg (fun q => q.2.2) hq)]
      exact (lookup_absent habsent).symm
  · have hq : (i', j', k') ≠ (i, j, k) := fun hq => hij (by rw [(Prod.mk.inj hq).1, (Prod.mk.inj (Prod.mk.inj hq).2).1])
    rw [if_neg hq, lookup, h.entry_eq, h.top_eq, h.leaf_eq, if_neg hij, if_neg hij]
    rfl

/-! The mapping of a page in the window. -/

theorem entry_of_direct (h : Direct (space s) p) :
    entry s (ix (p + KERNEL_VMA) 30) (ix (p + KERNEL_VMA) 21) &&& 1 ≠ 0 := by
  intro habsent
  obtain ⟨-, m, hm, -⟩ := h
  have hnone : space s (direct p) = none := lookup_absent habsent
  rw [hnone] at hm
  cases hm

theorem direct_mapped (hp : p < HEAP_START - KERNEL_VMA) (M : Page → Option Mapping) :
    Direct (Function.update M (direct p) (mapped p 3)) p :=
  ⟨hp, ⟨p, 3, 3⟩, Function.update_self _ _ _, rfl, by show 3 &&& 2 ≠ 0; decide⟩

theorem Ensured.mapped (hk : Keeps s s') (hp : p < PT_DIRECT_WINDOW_START) (hnone : space s (direct p) = none)
    (hspace : space s' = Function.update (space s) (direct p) (mapped p 3)) : Ensured s p (s', 0) where
  keeps := hk
  code := .inl rfl
  done _ := hspace ▸ direct_mapped (hp.trans (by decide)) _
  space_eq := .inr ⟨rfl, hp, hnone, hspace⟩
  failed h := absurd h (by show (0 : Int) ≠ -1; decide)

theorem direct_virt (hp : p < HEAP_START - KERNEL_VMA) : (p + KERNEL_VMA) % 2 ^ 64 = p + KERNEL_VMA := by
  apply Nat.mod_eq_of_lt
  have hsum : HEAP_START - KERNEL_VMA + KERNEL_VMA < 2 ^ 64 := by decide
  omega

/-- A page of the allocator is mapped, so an absent large page is not its own. -/
theorem direct_ne (hpt : Direct (space s) pd) (hp : p < HEAP_START - KERNEL_VMA)
    (habsent : entry s (ix (p + KERNEL_VMA) 30) (ix (p + KERNEL_VMA) 21) &&& 1 = 0) :
    ix (pd + KERNEL_VMA) 21 ≠ ix (p + KERNEL_VMA) 21 := by
  intro hj
  have hpresent := entry_of_direct hpt
  rw [direct_directory hpt.1, hj, ← direct_directory hp] at hpresent
  exact hpresent habsent

theorem ensureTable_eq (s : State) (a p pt : Nat) (hpt : pt < HEAP_START - KERNEL_VMA)
    (hne : ix (pt + KERNEL_VMA) 21 ≠ ix (p + KERNEL_VMA) 21) : ensureTable (s.take pt) a p pt =
      s.install a (ix (p + KERNEL_VMA) 21) pt (Function.update (fun _ => 0) (ix (p + KERNEL_VMA) 12) (p ||| 3))
        (pt &&& PAGE_MASK ||| 3) := by
  rw [ensureTable, direct_virt hpt]
  rw [if_neg hne, fill_write]
  rfl

theorem ensureSelf_eq (ensure : State → Nat → State × Int) (h : Wf s) (hd : Direct (space s) pd)
    (hne : ix (pd + KERNEL_VMA) 21 ≠ ix (p + KERNEL_VMA) 21) : ensureSelf s ensure p pd = s := by
  have hpresent := entry_of_direct hd
  rw [ensureSelf, direct_virt hd.1]
  rw [if_neg hne, getKernelPd_eq h]
  cases ha : addr s (.pd (ix (pd + KERNEL_VMA) 30)) with
  | none => rfl
  | some a =>
    rw [entry_of_some ha] at hpresent
    exact if_neg hpresent

theorem ensureEntry_spec (ensure : State → Nat → State × Int) (h : Wf s) (hp : p &&& PHYS_MASK = p)
    (hlt : p < HEAP_START - KERNEL_VMA) (ha : addr s (.pd (ix (p + KERNEL_VMA) 30)) = some a)
    (hsmall : entry s (ix (p + KERNEL_VMA) 30) (ix (p + KERNEL_VMA) 21) &&& 1 ≠ 0 →
      entry s (ix (p + KERNEL_VMA) 30) (ix (p + KERNEL_VMA) 21) &&& 0x80 = 0) :
    Ensured s p (ensureEntry s ensure a p) := by
  have hspace : space s (direct p) = lookup s (ix (p + KERNEL_VMA) 30) (ix (p + KERNEL_VMA) 21) (ix (p + KERNEL_VMA) 12) :=
    rfl
  rw [ensureEntry, ← entry_of_some ha]
  dsimp only
  by_cases hpresent : entry s (ix (p + KERNEL_VMA) 30) (ix (p + KERNEL_VMA) 21) &&& 1 = 0
  · rw [lookup_absent hpresent] at hspace
    have hno : ¬Direct (space s) p := fun hd => entry_of_direct hd hpresent
    rw [if_pos hpresent]
    by_cases hwindow : PT_DIRECT_WINDOW_START ≤ p
    · rw [if_pos hwindow]
      exact .refuse h fun hd => absurd hd hno
    rw [if_neg hwindow]
    cases hr : ptAllocPtPage s with
    | mk s₁ r =>
      cases r with
      | none =>
        obtain ⟨rfl, hout⟩ := allocPtPage_none h hr
        exact .refuse h fun hd => absurd hd hno
      | some pt =>
        obtain ⟨rfl, hmem, hdirect⟩ := allocPtPage_some h hr
        have hne := direct_ne hdirect hlt hpresent
        obtain ⟨hclean, hleads, -⟩ := table_word (h.free pt hmem).1 (f := 3) (.inl rfl)
        have hinst : Installs s (ix (p + KERNEL_VMA) 30) (ix (p + KERNEL_VMA) 21) a pt (pt &&& PAGE_MASK ||| 3) :=
          ⟨h, ha, by rw [addr_pt, ha, Option.bind_some, tableAt_absent hpresent], hmem, hclean, hleads⟩
        have hkeeps := hinst.keeps (Function.update (fun _ => 0) (ix (p + KERNEL_VMA) 12) (p ||| 3))
        have hone := install_one (k := ix (p + KERNEL_VMA) 12) (f := 3) hinst hpresent hp (by decide) (by decide)
        dsimp only
        rw [ensureTable_eq s a p pt hdirect.1 hne]
        generalize s.install a _ pt _ _ = s₂ at hkeeps hone ⊢
        have hdirect' : Direct (space s₂) pt := by
          obtain ⟨hpt, m, hm, hphys⟩ := hdirect
          refine ⟨hpt, m, ?_, hphys⟩
          rw [hone, Function.update_of_ne, hm]
          exact fun hq => hne (Prod.mk.inj (Prod.mk.inj hq).2).1
        rw [ensureSelf_eq ensure hkeeps.wf hdirect' hne]
        obtain ⟨hcount, hcounted⟩ := counted hkeeps.wf s₂.heapPtCount (s₂.vmmPtCount + 1)
        exact .mapped (hkeeps.trans hcount) (Nat.not_le.1 hwindow) hspace (hcounted.trans hone)
  · have hhuge := hsmall hpresent
    have hclean := h.table _ _ hpresent hhuge
    have htable := addr_table ha hpresent hhuge
    rw [if_neg hpresent, masks_eq hclean.1, ← leaf_of_table ha hpresent hhuge]
    rw [lookup_table htable] at hspace
    by_cases hpte : leaf s (ix (p + KERNEL_VMA) 30) (ix (p + KERNEL_VMA) 21) (ix (p + KERNEL_VMA) 12) &&& 1 = 0
    · rw [if_pos hpte] at hspace
      have hno : ¬Direct (space s) p := by
        rintro ⟨-, m, hm, -⟩
        rw [hspace] at hm
        cases hm
      rw [if_neg (not_not_intro hpte)]
      by_cases hwindow : PT_DIRECT_WINDOW_START ≤ p
      · rw [if_pos hwindow]
        exact .refuse h fun hd => absurd hd hno
      · rw [if_neg hwindow]
        exact .mapped (write_leaf_keeps h htable) (Nat.not_le.1 hwindow) hspace
          (space_write_leaf h htable hp (by decide) (by decide))
    · rw [if_neg hpte] at hspace
      rw [if_pos hpte]
      by_cases hsame :
          leaf s (ix (p + KERNEL_VMA) 30) (ix (p + KERNEL_VMA) 21) (ix (p + KERNEL_VMA) 12) &&& PHYS_MASK = p ∧
          leaf s (ix (p + KERNEL_VMA) 30) (ix (p + KERNEL_VMA) 21) (ix (p + KERNEL_VMA) 12) &&& 2 ≠ 0
      · rw [if_pos hsame]
        refine .found h ⟨hlt, _, hspace, hsame.1, ?_⟩
        rw [and_sub (by decide)]
        exact hsame.2
      · rw [if_neg hsame]
        refine .refuse h ?_
        rintro ⟨-, m, hm, hphys, hwrite⟩
        rw [hspace] at hm
        injection hm with hm
        subst hm
        rw [and_sub (by decide)] at hwrite
        exact absurd ⟨hphys, hwrite⟩ hsame

theorem Ensured.after (hk : Keeps s s') (hs : space s' = space s) (h : Ensured s' p o) : Ensured s p o where
  keeps := hk.trans h.keeps
  code := h.code
  done := h.done
  space_eq := hs ▸ h.space_eq
  failed h0 hd := h.failed h0 (hs ▸ hd)

/-- A large page that a test of the source finds at the right place. -/
theorem huge_direct (hp : p &&& PHYS_MASK = p) (hlt : p < HEAP_START - KERNEL_VMA)
    (hm : ptHugeMappingMatches (entry s (ix (p + KERNEL_VMA) 30) (ix (p + KERNEL_VMA) 21)) (p + KERNEL_VMA) p 3 = true) :
    Direct (space s) p := by
  generalize he : entry s (ix (p + KERNEL_VMA) 30) (ix (p + KERNEL_VMA) 21) = e at hm
  rw [ptHugeMappingMatches] at hm
  by_cases hhuge : e &&& 1 = 0 ∨ e &&& 0x80 = 0
  · rw [if_pos hhuge] at hm
    exact absurd hm Bool.false_ne_true
  rw [if_neg hhuge, if_neg (by decide)] at hm
  by_cases hflags : e &&& 0x800000000000111e ≠ 2
  · rw [if_pos hflags] at hm
    exact absurd hm Bool.false_ne_true
  rw [if_neg hflags, decide_eq_true_iff, page_of_phys hp] at hm
  have hoffset : p + KERNEL_VMA &&& 0x1fffff = (ix (p + KERNEL_VMA) 12).val * PAGE_SIZE := by
    have h : p + KERNEL_VMA &&& 0x1fffff = (p + KERNEL_VMA) / 2 ^ 0 % 2 ^ 21 * 2 ^ 0 := Bits.and_field _ 21 0
    have hsize : (ix (p + KERNEL_VMA) 12).val * PAGE_SIZE = (p + KERNEL_VMA) / 2 ^ 12 % 512 * 2 ^ 12 := by
      rw [ix_val]
      rfl
    have haligned := (phys_iff.1 hp).1
    rw [h, hsize]
    show (p + 0xffffffff80000000) / 2 ^ 0 % 2 ^ 21 * 2 ^ 0 = (p + 0xffffffff80000000) / 2 ^ 12 % 512 * 2 ^ 12
    omega
  rw [hoffset, page_of_phys (huge_page e _)] at hm
  refine ⟨hlt, ⟨_, leafFlags e, combine (top s (ix (p + KERNEL_VMA) 30)) e⟩, ?_, hm, ?_⟩
  · show lookup s (ix (p + KERNEL_VMA) 30) (ix (p + KERNEL_VMA) 21) (ix (p + KERNEL_VMA) 12) = _
    rw [lookup, he, if_neg fun h => hhuge (.inl h), if_pos fun h => hhuge (.inr h)]
  · rw [leafFlags_and _ (by decide) (by decide)]
    have hwrite : e &&& 0x800000000000111e &&& 2 = e &&& 2 := and_sub (by decide)
    rw [← hwrite, not_not.1 hflags]
    decide

/-- What a large page says of the page at an address of the window. -/
theorem direct_huge (hhuge : entry s (ix (p + KERNEL_VMA) 30) (ix (p + KERNEL_VMA) 21) &&& 0x80 ≠ 0)
    (hd : Direct (space s) p) :
    (entry s (ix (p + KERNEL_VMA) 30) (ix (p + KERNEL_VMA) 21) &&& HUGE_MASK) + (p + KERNEL_VMA &&& 0x1ff000) = p := by
  have hpresent := entry_of_direct hd
  obtain ⟨-, m, hm, hphys, -⟩ := hd
  have hspace : space s (direct p) = lookup s (ix (p + KERNEL_VMA) 30) (ix (p + KERNEL_VMA) 21) (ix (p + KERNEL_VMA) 12) :=
    rfl
  rw [hspace, lookup, if_neg hpresent, if_pos hhuge] at hm
  injection hm with hm
  subst hm
  rw [direct_offset]
  exact hphys

/-- Every call, with any bound above the number of free frames. -/
theorem ensurePhysMappedLocked_spec (fuel : Nat) : ∀ s p, Wf s → s.pages.length < fuel →
    Ensured s (p &&& PAGE_MASK) (ptEnsurePhysMappedLocked fuel s p) := by
  induction fuel with
  | zero =>
    intro s p h hlen
    exact absurd hlen (Nat.not_lt_zero _)
  | succ fuel ih =>
    intro s p h hlen
    rw [ptEnsurePhysMappedLocked]
    have hq : (p &&& PAGE_MASK) % 2 ^ 12 = 0 := by
      rw [page_mask]
      omega
    generalize p &&& PAGE_MASK = q at hq ⊢
    by_cases hhigh : HEAP_START - KERNEL_VMA ≤ q
    · rw [if_pos hhigh]
      exact .refuse h fun hd => absurd hd.1 (Nat.not_lt.2 hhigh)
    have hlt := Nat.not_le.1 hhigh
    have hphys : q &&& PHYS_MASK = q := phys_iff.2 ⟨hq, hlt.trans (by decide)⟩
    rw [if_neg hhigh]
    dsimp only
    cases hr : ptEnsureKernelPd s (q + KERNEL_VMA) with
    | mk s₁ r =>
      cases r with
      | none =>
        obtain ⟨rfl, hout⟩ := ensureKernelPd_none h hr
        exact .refuse h fun _ => hout
      | some a =>
        obtain ⟨hk, hspace, ha⟩ := ensureKernelPd_some h hr
        apply Ensured.after hk hspace
        dsimp only
        rw [← entry_of_some ha]
        have hw := hk.wf
        have hlen₁ := hk.pages.length_le
        by_cases hhuge : entry s₁ (ix (q + KERNEL_VMA) 30) (ix (q + KERNEL_VMA) 21) &&& 0x80 = 0
        · rw [if_neg (not_not_intro hhuge)]
          exact ensureEntry_spec _ hw hphys hlt ha fun _ => hhuge
        rw [if_pos hhuge]
        by_cases hmatch : ptHugeMappingMatches
            (entry s₁ (ix (q + KERNEL_VMA) 30) (ix (q + KERNEL_VMA) 21)) (q + KERNEL_VMA) q 3
        · rw [if_pos hmatch]
          exact .found hw (huge_direct hphys hlt hmatch)
        rw [if_neg hmatch]
        by_cases helse : (entry s₁ (ix (q + KERNEL_VMA) 30) (ix (q + KERNEL_VMA) 21) &&& HUGE_MASK) +
            (q + KERNEL_VMA &&& 0x1ff000) ≠ q
        · rw [if_pos helse]
          exact .refuse hw fun hd => absurd (direct_huge hhuge hd) helse
        rw [if_neg helse]
        have hsplit := splitHugePage_spec (j := ix (q + KERNEL_VMA) 21) (ptEnsurePhysMappedLocked fuel) hw ha (by
          intro t q' ht hlen' hq'
          have hspec := ih t q' ht (by omega)
          rwa [page_of_phys hq'] at hspec)
        generalize ptSplitHugePage s₁ (ptEnsurePhysMappedLocked fuel) a (ix (q + KERNEL_VMA) 21) = o at hsplit ⊢
        obtain ⟨s₂, r⟩ := o
        rcases hsplit.outcome with ⟨h0, htable, habsent⟩ | ⟨h1, hout⟩
        · obtain rfl : r = 0 := h0
          apply Ensured.after hsplit.keeps hsplit.space_eq
          dsimp only
          rw [if_neg (by decide)]
          apply ensureEntry_spec _ hsplit.keeps.wf hphys hlt (hsplit.keeps.nodes _ _ ha)
          intro hpresent
          by_cases hp₁ : entry s₁ (ix (q + KERNEL_VMA) 30) (ix (q + KERNEL_VMA) 21) &&& 1 = 0
          · obtain rfl : s₂ = s₁ := habsent hp₁
            exact absurd hp₁ hpresent
          · obtain ⟨b, hb⟩ := htable hp₁
            exact (table_entry hb).2.1
        · obtain rfl : r = -1 := h1
          apply Ensured.after hsplit.keeps hsplit.space_eq
          exact .refuse hsplit.keeps.wf fun _ => hout

end Lebirun.Paging
