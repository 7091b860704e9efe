import Mathlib
import Lebirun.Paging.Walk

namespace Lebirun.Paging
set_option autoImplicit true

/-! The writes to the tables: a leaf, an entry of a page directory, a new page directory. -/

variable {s s' s'' : State} {i i' j j' k k' : Fin 512} {a b e w p v : Nat} {n m : Node}

theorem write_same : (s.write a k w).mem a k' = if k' = k then w else s.mem a k' := by
  by_cases h : k' = k
  · rw [State.write, if_pos h]
    exact if_pos ⟨rfl, h⟩
  · rw [State.write, if_neg h]
    exact if_neg fun h' => h h'.2

theorem write_other (h : b ≠ a) : (s.write a k w).mem b = s.mem b := funext fun _ => if_neg fun h' => h h'.1

theorem fill_same (f : Fin 512 → Nat) : (s.fill a f).mem a = f := funext fun _ => if_pos rfl

theorem fill_other (f : Fin 512 → Nat) (h : b ≠ a) : (s.fill a f).mem b = s.mem b := funext fun _ => if_neg h

theorem Wf.ne (h : Wf s) (hn : addr s n = some a) (hm : addr s m = some b) (hne : n ≠ m) : a ≠ b := by
  rintro rfl
  exact hne (h.distinct n m a hn hm)

/-! Where the tables are depends on the entries above the leaves only. -/

theorem entry_congr (ha : addr s' (.pd i) = addr s (.pd i))
    (hmem : ∀ a, addr s (.pd i) = some a → s'.mem a j = s.mem a j) :
    entry s' i j = entry s i j := by
  rw [entry, entry, ha]
  cases h : addr s (.pd i) with
  | none => rfl
  | some a => exact hmem a h

theorem leaf_congr (ha : addr s' (.pt i j) = addr s (.pt i j))
    (hmem : ∀ a, addr s (.pt i j) = some a → s'.mem a k = s.mem a k) : leaf s' i j k = leaf s i j k := by
  rw [leaf, leaf, ha]
  cases h : addr s (.pt i j) with
  | none => rfl
  | some a => exact hmem a h

/-- The roots and the entries above the leaves are the same. -/
structure SameTables (s s' : State) : Prop where
  pml4 : s'.pml4 = s.pml4
  high : s'.pdptHigh = s.pdptHigh
  first : s'.mem s.pml4 511 = s.mem s.pml4 511
  dir : ∀ i, s'.mem s.pdptHigh i = s.mem s.pdptHigh i
  mem : ∀ i j a, addr s (.pd i) = some a → s'.mem a j = s.mem a j

theorem SameTables.directory_eq (h : SameTables s s') (i : Fin 512) : addr s' (.pd i) = addr s (.pd i) := by
  rw [addr, addr, h.high, h.dir]

theorem SameTables.entry_eq (h : SameTables s s') (i j : Fin 512) : entry s' i j = entry s i j :=
  entry_congr (h.directory_eq i) fun a ha => h.mem i j a ha

theorem SameTables.addr_eq (h : SameTables s s') (n : Node) : addr s' n = addr s n := by
  cases n with
  | pml4 => exact congrArg some h.pml4
  | pdpt => exact congrArg some h.high
  | pd i => exact h.directory_eq i
  | pt i j => rw [addr_pt, addr_pt, h.directory_eq, h.entry_eq]

theorem SameTables.top_eq (h : SameTables s s') (i : Fin 512) : top s' i = top s i := by
  rw [Paging.top_eq, Paging.top_eq, h.pml4, h.high, h.dir, h.first]

theorem SameTables.wf (h : SameTables s s') (hs : Wf s) (hpages : s'.pages.Sublist s.pages) : Wf s' where
  root := by rw [h.pml4, hs.root]
  high := by rw [h.pml4, h.first, h.high]; exact hs.high
  distinct := by
    intro n m a hn hm
    rw [h.addr_eq] at hn hm
    exact hs.distinct n m a hn hm
  directory := by
    intro i
    rw [h.high, h.dir]
    exact hs.directory i
  table := by
    intro i j
    rw [h.entry_eq]
    exact hs.table i j
  free := by
    intro p hp
    obtain ⟨ha, hn⟩ := hs.free p (hpages.subset hp)
    exact ⟨ha, fun n => by rw [h.addr_eq]; exact hn n⟩
  nodup := hs.nodup.sublist hpages

theorem SameTables.space_eq (h : SameTables s s') (hl : ∀ i j k, leaf s' i j k = leaf s i j k) : space s' = space s := by
  funext ⟨i, j, k⟩
  show lookup s' i j k = lookup s i j k
  rw [lookup, lookup, h.entry_eq, h.top_eq, hl]

/-! What every operation keeps. -/

/-- The tables stay where they are, new ones are in pages that were free, and nothing is written outside of the tables. -/
structure Keeps (s s' : State) : Prop where
  wf : Wf s'
  root : s'.pml4 = s.pml4 ∧ s'.pdptHigh = s.pdptHigh
  nodes : ∀ n a, addr s n = some a → addr s' n = some a
  grown : ∀ n a, addr s' n = some a → addr s n = some a ∨ a ∈ s.pages
  pages : s'.pages.Sublist s.pages
  frames : s'.frames <:+ s.frames
  frame : ∀ p, (∀ n, addr s' n ≠ some p) → s'.mem p = s.mem p

theorem Keeps.refl (h : Wf s) : Keeps s s :=
  ⟨h, ⟨rfl, rfl⟩, fun _ _ h => h, fun _ _ h => .inl h, .refl _, List.suffix_rfl, fun _ _ => rfl⟩

theorem Keeps.trans (h : Keeps s s') (h' : Keeps s' s'') : Keeps s s'' where
  wf := h'.wf
  root := ⟨h'.root.1.trans h.root.1, h'.root.2.trans h.root.2⟩
  nodes n a ha := h'.nodes n a (h.nodes n a ha)
  grown n a ha := by
    rcases h'.grown n a ha with hold | hnew
    · exact h.grown n a hold
    · exact .inr (h.pages.subset hnew)
  pages := h'.pages.trans h.pages
  frames := h'.frames.trans h.frames
  frame p hp := by
    rw [h'.frame p hp]
    exact h.frame p fun n hn => hp n (h'.nodes n p hn)

theorem Keeps.of_same (h : SameTables s s') (hs : Wf s) (hpages : s'.pages.Sublist s.pages)
    (hframes : s'.frames <:+ s.frames)
    (hmem : ∀ p, (∀ n, addr s n ≠ some p) → s'.mem p = s.mem p) : Keeps s s' where
  wf := h.wf hs hpages
  root := ⟨h.pml4, h.high⟩
  nodes n a ha := by rw [h.addr_eq, ha]
  grown n a ha := .inl (by rw [← h.addr_eq, ha])
  pages := hpages
  frames := hframes
  frame p hp := hmem p fun n hn => hp n (by rw [h.addr_eq, hn])

/-! A leaf. -/

theorem write_leaf_same (h : Wf s) (ha : addr s (.pt i j) = some a) : SameTables s (s.write a k w) where
  pml4 := rfl
  high := rfl
  first := by rw [write_other (h.ne (n := .pml4) rfl ha (fun h' => by cases h'))]
  dir i' := by rw [write_other (h.ne (n := .pdpt) rfl ha (fun h' => by cases h'))]
  mem i' j' b hb := by rw [write_other (h.ne hb ha (fun h' => by cases h'))]

theorem write_leaf_keeps (h : Wf s) (ha : addr s (.pt i j) = some a) : Keeps s (s.write a k w) := by
  apply Keeps.of_same (write_leaf_same h ha) h (.refl _) List.suffix_rfl
  intro p hp
  exact write_other fun hpa => hp _ (hpa ▸ ha)

theorem leaf_write_leaf (h : Wf s) (ha : addr s (.pt i j) = some a) :
    leaf (s.write a k w) i' j' k' = if (i', j', k') = (i, j, k) then w else leaf s i' j' k' := by
  have haddr := (write_leaf_same (k := k) (w := w) h ha).addr_eq
  by_cases hij : Node.pt i' j' = .pt i j
  · obtain ⟨rfl, rfl⟩ : i' = i ∧ j' = j := by injection hij with h₁ h₂; exact ⟨h₁, h₂⟩
    rw [leaf, leaf, haddr, ha, Option.elim_some, Option.elim_some, write_same]
    by_cases hk : k' = k
    · rw [if_pos hk, if_pos (by rw [hk])]
    · rw [if_neg hk, if_neg fun h' => hk (congrArg (fun q => q.2.2) h')]
  · rw [if_neg fun h' => hij (by injection h' with h₁ h₂; injection h₂ with h₂ h₃; rw [h₁, h₂])]
    exact leaf_congr (haddr _) fun b hb => by rw [write_other (h.ne hb ha hij)]

/-! An entry of a page directory that has led to no table. -/

theorem directory_write_pde (h : Wf s) (hpd : addr s (.pd i) = some a) (i' : Fin 512) :
    addr (s.write a j e) (.pd i') = addr s (.pd i') := by
  rw [addr, addr]
  exact congrArg directoryAt (congrFun (write_other (h.ne (n := .pdpt) rfl hpd (fun h' => by cases h'))) i')

theorem entry_write_pde (h : Wf s) (hpd : addr s (.pd i) = some a) :
    entry (s.write a j e) i' j' = if (i', j') = (i, j) then e else entry s i' j' := by
  by_cases hi : i' = i
  · subst hi
    rw [entry, entry, directory_write_pde h hpd, hpd, Option.elim_some, Option.elim_some, write_same]
    by_cases hj : j' = j
    · rw [if_pos hj, if_pos (by rw [hj])]
    · rw [if_neg hj, if_neg fun h' => hj (congrArg Prod.snd h')]
  · rw [if_neg fun h' => hi (congrArg Prod.fst h')]
    apply entry_congr (directory_write_pde h hpd i')
    intro b hb
    rw [write_other (h.ne hb hpd fun h' => hi (by injection h'))]

theorem addr_write_pde (h : Wf s) (hpd : addr s (.pd i) = some a) :
    addr (s.write a j e) n = if n = .pt i j then tableAt e else addr s n := by
  by_cases hn : n = .pt i j
  · rw [if_pos hn, hn, addr_pt, directory_write_pde h hpd, hpd, Option.bind_some, entry_write_pde h hpd, if_pos rfl]
  rw [if_neg hn]
  cases n with
  | pml4 => rfl
  | pdpt => rfl
  | pd i' => exact directory_write_pde h hpd i'
  | pt i' j' =>
    rw [addr_pt, addr_pt, directory_write_pde h hpd, entry_write_pde h hpd, if_neg]
    intro h'
    injection h' with h₁ h₂
    exact hn (by rw [h₁, h₂])

theorem top_write_pde (h : Wf s) (hpd : addr s (.pd i) = some a) (i' : Fin 512) : top (s.write a j e) i' = top s i' := by
  rw [top_eq, top_eq]
  show combine (combine _ ((s.write a j e).mem s.pml4 511)) ((s.write a j e).mem s.pdptHigh i') = _
  rw [write_other (h.ne (n := .pml4) rfl hpd (fun h' => by cases h')),
    write_other (h.ne (n := .pdpt) rfl hpd (fun h' => by cases h'))]

theorem leaf_write_pde (h : Wf s) (hpd : addr s (.pd i) = some a)
    (he : ∀ p, tableAt e = some p → Free s p) :
    leaf (s.write a j e) i' j' k' =
      if (i', j') = (i, j) then (tableAt e).elim 0 fun p => s.mem p k' else leaf s i' j' k' := by
  by_cases hij : (i', j') = (i, j)
  · obtain ⟨rfl, rfl⟩ : i' = i ∧ j' = j := ⟨congrArg Prod.fst hij, congrArg Prod.snd hij⟩
    rw [if_pos rfl, leaf, addr_write_pde h hpd, if_pos rfl]
    cases hp : tableAt e with
    | none => rfl
    | some p =>
      rw [Option.elim_some, Option.elim_some, write_other]
      rintro rfl
      exact (he p hp).2 _ hpd
  · have hne : Node.pt i' j' ≠ .pt i j := by
      intro h'
      injection h' with h₁ h₂
      exact hij (by rw [h₁, h₂])
    rw [if_neg hij]
    apply leaf_congr
    · rw [addr_write_pde h hpd, if_neg hne]
    · intro b hb
      rw [write_other (h.ne hb hpd (fun h' => by cases h'))]

theorem Wf.write_pde (h : Wf s) (hpd : addr s (.pd i) = some a)
    (he : ∀ p, tableAt e = some p → Clean e ∧ Free s p ∧ p ∉ s.pages) :
    Wf (s.write a j e) where
  root := h.root
  high := by
    show (s.write a j e).mem s.pml4 511 &&& 1 ≠ 0 ∧ Clean ((s.write a j e).mem s.pml4 511) ∧
      (s.write a j e).mem s.pml4 511 &&& PHYS_MASK = s.pdptHigh
    rw [write_other (h.ne (n := .pml4) rfl hpd (fun h' => by cases h'))]
    exact h.high
  distinct := by
    intro n m b hn hm
    rw [addr_write_pde h hpd] at hn hm
    by_cases hn' : n = .pt i j
    · rw [if_pos hn'] at hn
      by_cases hm' : m = .pt i j
      · rw [hn', hm']
      · rw [if_neg hm'] at hm
        exact absurd hm ((he b hn).2.1.2 m)
    · rw [if_neg hn'] at hn
      by_cases hm' : m = .pt i j
      · rw [if_pos hm'] at hm
        exact absurd hn ((he b hm).2.1.2 n)
      · rw [if_neg hm'] at hm
        exact h.distinct n m b hn hm
  directory := by
    intro i'
    show (s.write a j e).mem s.pdptHigh i' &&& 1 ≠ 0 → Clean ((s.write a j e).mem s.pdptHigh i')
    rw [write_other (h.ne (n := .pdpt) rfl hpd (fun h' => by cases h'))]
    exact h.directory i'
  table := by
    intro i' j' hpresent htable
    rw [entry_write_pde h hpd] at hpresent htable ⊢
    by_cases hij : (i', j') = (i, j)
    · rw [if_pos hij] at hpresent htable ⊢
      exact (he _ (if_neg (by rintro (h' | h'); exacts [hpresent h', h' htable]))).1
    · rw [if_neg hij] at hpresent htable ⊢
      exact h.table i' j' hpresent htable
  free := by
    intro p hp
    obtain ⟨ha, hn⟩ := h.free p hp
    refine ⟨ha, fun n h' => ?_⟩
    rw [addr_write_pde h hpd] at h'
    by_cases hn' : n = .pt i j
    · rw [if_pos hn'] at h'
      exact (he p h').2.2 hp
    · rw [if_neg hn'] at h'
      exact hn n h'
  nodup := h.nodup

/-! A page of the allocator becomes a table. -/

def State.take (s : State) (p : Nat) : State := { s with pages := s.pages.erase p }

theorem Free.ne (hp : Free s p) (hn : addr s n = some a) : a ≠ p := by
  rintro rfl
  exact hp.2 n hn

theorem fill_tables (hp : Free s p) (f : Fin 512 → Nat) : SameTables s ((s.take p).fill p f) where
  pml4 := rfl
  high := rfl
  first := congrFun (fill_other f (hp.ne (n := .pml4) rfl)) 511
  dir i := congrFun (fill_other f (hp.ne (n := .pdpt) rfl)) i
  mem _ j _ ha := congrFun (fill_other f (hp.ne ha)) j

theorem leaf_fill (hp : Free s p) (f : Fin 512 → Nat) : leaf ((s.take p).fill p f) i j k = leaf s i j k :=
  leaf_congr ((fill_tables hp f).addr_eq _) fun _ ha => congrFun (fill_other f (hp.ne ha)) k

theorem fill_taken (h : Wf s) (hp : p ∈ s.pages) (f : Fin 512 → Nat) :
    Wf ((s.take p).fill p f) ∧ Free ((s.take p).fill p f) p ∧ p ∉ ((s.take p).fill p f).pages := by
  have hsame := fill_tables (h.free p hp) f
  obtain ⟨ha, hn⟩ := h.free p hp
  refine ⟨hsame.wf h List.erase_sublist, ⟨ha, fun n => ?_⟩, ?_⟩
  · rw [hsame.addr_eq]
    exact hn n
  · exact h.nodup.not_mem_erase

/-- A page table is made of a page: filled, and put into the page directory. -/
def State.install (s : State) (a : Nat) (j : Fin 512) (p : Nat) (f : Fin 512 → Nat) (e : Nat) : State :=
  ((s.take p).fill p f).write a j e

/-- What it takes. -/
structure Installs (s : State) (i j : Fin 512) (a p e : Nat) : Prop where
  wf : Wf s
  directory : addr s (.pd i) = some a
  absent : addr s (.pt i j) = none
  page : p ∈ s.pages
  clean : Clean e
  leads : tableAt e = some p

theorem Installs.addr_eq (h : Installs s i j a p e) (f : Fin 512 → Nat) :
    addr (s.install a j p f e) n = if n = .pt i j then some p else addr s n := by
  obtain ⟨hwf, -, -⟩ := fill_taken h.wf h.page f
  have hsame := fill_tables (h.wf.free p h.page) f
  rw [State.install, addr_write_pde hwf (by rw [hsame.addr_eq, h.directory]), h.leads, hsame.addr_eq]

theorem Installs.entry_eq (h : Installs s i j a p e) (f : Fin 512 → Nat) :
    entry (s.install a j p f e) i' j' = if (i', j') = (i, j) then e else entry s i' j' := by
  obtain ⟨hwf, -, -⟩ := fill_taken h.wf h.page f
  have hsame := fill_tables (h.wf.free p h.page) f
  rw [State.install, entry_write_pde hwf (by rw [hsame.addr_eq, h.directory]), hsame.entry_eq]

theorem Installs.top_eq (h : Installs s i j a p e) (f : Fin 512 → Nat) : top (s.install a j p f e) i' = top s i' := by
  obtain ⟨hwf, -, -⟩ := fill_taken h.wf h.page f
  have hsame := fill_tables (h.wf.free p h.page) f
  rw [State.install, top_write_pde hwf (by rw [hsame.addr_eq, h.directory]), hsame.top_eq]

theorem Installs.leaf_eq (h : Installs s i j a p e) (f : Fin 512 → Nat) :
    leaf (s.install a j p f e) i' j' k' = if (i', j') = (i, j) then f k' else leaf s i' j' k' := by
  obtain ⟨hwf, hfree, -⟩ := fill_taken h.wf h.page f
  have hp := h.wf.free p h.page
  rw [State.install, leaf_write_pde hwf (by rw [(fill_tables hp f).addr_eq, h.directory]), leaf_fill hp, h.leads,
    Option.elim_some, fill_same]
  intro q hq
  rw [h.leads] at hq
  injection hq with hq
  exact hq ▸ hfree

theorem Installs.keeps (h : Installs s i j a p e) (f : Fin 512 → Nat) : Keeps s (s.install a j p f e) where
  wf := by
    obtain ⟨hwf, hfree, hpage⟩ := fill_taken h.wf h.page f
    apply hwf.write_pde (by rw [(fill_tables (h.wf.free p h.page) f).addr_eq, h.directory])
    intro q hq
    rw [h.leads] at hq
    injection hq with hq
    exact hq ▸ ⟨h.clean, hfree, hpage⟩
  root := ⟨rfl, rfl⟩
  nodes n b hb := by
    rw [h.addr_eq, if_neg, hb]
    rintro rfl
    rw [h.absent] at hb
    cases hb
  grown n b hb := by
    rw [h.addr_eq] at hb
    by_cases hn : n = .pt i j
    · rw [if_pos hn] at hb
      injection hb with hb
      exact .inr (hb ▸ h.page)
    · rw [if_neg hn] at hb
      exact .inl hb
  pages := List.erase_sublist
  frames := List.suffix_rfl
  frame q hq := by
    have hqp : q ≠ p := by
      rintro rfl
      exact hq (.pt i j) (by rw [h.addr_eq, if_pos rfl])
    have hqa : q ≠ a := by
      rintro rfl
      exact hq (.pd i) (by rw [h.addr_eq, if_neg (fun h' => by cases h'), h.directory])
    rw [State.install, write_other hqa, fill_other f hqp]
    rfl

/-- An entry of a page directory that leads to no table and keeps leading to none. -/
theorem write_large_keeps (h : Wf s) (hpd : addr s (.pd i) = some a) (hno : addr s (.pt i j) = none)
    (he : tableAt e = none) : Keeps s (s.write a j e) where
  wf := h.write_pde hpd fun p hp => by rw [he] at hp; cases hp
  root := ⟨rfl, rfl⟩
  nodes n b hb := by
    rw [addr_write_pde h hpd, if_neg, hb]
    rintro rfl
    rw [hno] at hb
    cases hb
  grown n b hb := by
    rw [addr_write_pde h hpd, he] at hb
    by_cases hn : n = .pt i j
    · rw [if_pos hn] at hb
      cases hb
    · rw [if_neg hn] at hb
      exact .inl hb
  pages := .refl _
  frames := List.suffix_rfl
  frame q hq := by
    apply write_other
    rintro rfl
    exact hq (.pd i) (by rw [addr_write_pde h hpd, if_neg (fun h' => by cases h'), hpd])

/-! A new page directory. -/

def State.installDirectory (s : State) (i : Fin 512) (p e : Nat) : State :=
  ((s.take p).fill p fun _ => 0).write s.pdptHigh i e

structure InstallsDirectory (s : State) (i : Fin 512) (p e : Nat) : Prop where
  wf : Wf s
  absent : addr s (.pd i) = none
  page : p ∈ s.pages
  clean : Clean e
  leads : directoryAt e = some p

namespace InstallsDirectory

theorem high_ne (h : InstallsDirectory s i p e) : s.pdptHigh ≠ p := (h.wf.free p h.page).ne (n := .pdpt) rfl

theorem mem_other (hb : b ≠ p) (hb' : b ≠ s.pdptHigh) :
    (s.installDirectory i p e).mem b = s.mem b := by
  rw [State.installDirectory, write_other hb', fill_other _ hb]
  rfl

theorem mem_page (h : InstallsDirectory s i p e) : (s.installDirectory i p e).mem p = fun _ => 0 := by
  rw [State.installDirectory, write_other h.high_ne.symm, fill_same]

theorem mem_high (h : InstallsDirectory s i p e) :
    (s.installDirectory i p e).mem s.pdptHigh i' = if i' = i then e else s.mem s.pdptHigh i' := by
  rw [State.installDirectory, write_same, fill_other _ h.high_ne]
  rfl

theorem directory_eq (h : InstallsDirectory s i p e) :
    addr (s.installDirectory i p e) (.pd i') = if i' = i then some p else addr s (.pd i') := by
  have hmem : addr (s.installDirectory i p e) (.pd i') = directoryAt (if i' = i then e else s.mem s.pdptHigh i') :=
    congrArg directoryAt h.mem_high
  rw [hmem]
  by_cases hi : i' = i
  · rw [if_pos hi, if_pos hi, h.leads]
  · rw [if_neg hi, if_neg hi, addr]

theorem entry_eq (h : InstallsDirectory s i p e) : entry (s.installDirectory i p e) i' j = entry s i' j := by
  by_cases hi : i' = i
  · rw [entry, entry, h.directory_eq, if_pos hi, Option.elim_some, h.mem_page, hi, h.absent]
    rfl
  · apply entry_congr (by rw [h.directory_eq, if_neg hi])
    intro b hb
    rw [mem_other ((h.wf.free p h.page).ne hb) (h.wf.ne hb (m := .pdpt) rfl (fun h' => by cases h'))]

theorem addr_eq (h : InstallsDirectory s i p e) :
    addr (s.installDirectory i p e) n = if n = .pd i then some p else addr s n := by
  cases n with
  | pml4 => rfl
  | pdpt => rfl
  | pd i' =>
    rw [h.directory_eq]
    by_cases hi : i' = i
    · rw [if_pos hi, if_pos (by rw [hi])]
    · rw [if_neg hi, if_neg fun h' => hi (by injection h')]
  | pt i' j =>
    rw [if_neg (fun h' => by cases h'), addr_pt, addr_pt, h.entry_eq, h.directory_eq]
    by_cases hi : i' = i
    · rw [if_pos hi, hi, h.absent, Option.bind_some, Option.bind_none, entry_of_none h.absent]
      exact tableAt_absent (Nat.zero_and 1)
    · rw [if_neg hi]

theorem leaf_eq (h : InstallsDirectory s i p e) : leaf (s.installDirectory i p e) i' j k = leaf s i' j k := by
  apply leaf_congr
  · rw [h.addr_eq, if_neg fun h' => by cases h']
  · intro b hb
    rw [mem_other ((h.wf.free p h.page).ne hb) (h.wf.ne hb (m := .pdpt) rfl (fun h' => by cases h'))]

theorem first_eq (h : InstallsDirectory s i p e) : (s.installDirectory i p e).mem s.pml4 = s.mem s.pml4 :=
  mem_other ((h.wf.free p h.page).ne (n := .pml4) rfl) (h.wf.ne (n := .pml4) (m := .pdpt) rfl rfl (fun h' => by cases h'))

theorem space_eq (h : InstallsDirectory s i p e) : space (s.installDirectory i p e) = space s := by
  funext ⟨i', j, k⟩
  show lookup _ i' j k = lookup s i' j k
  by_cases hi : i' = i
  · have hzero : entry s i j = 0 := entry_of_none h.absent
    rw [hi, lookup_absent (by rw [h.entry_eq, hzero, Nat.zero_and]), lookup_absent (by rw [hzero, Nat.zero_and])]
  · have htop : top (s.installDirectory i p e) i' = top s i' := by
      rw [top_eq, top_eq]
      show combine (combine _ ((s.installDirectory i p e).mem s.pml4 511))
        ((s.installDirectory i p e).mem s.pdptHigh i') = _
      rw [h.first_eq, h.mem_high, if_neg hi]
    rw [lookup, lookup, h.entry_eq, h.leaf_eq, htop]

theorem keeps (h : InstallsDirectory s i p e) : Keeps s (s.installDirectory i p e) where
  wf := {
    root := h.wf.root
    high := by
      show (s.installDirectory i p e).mem s.pml4 511 &&& 1 ≠ 0 ∧ Clean ((s.installDirectory i p e).mem s.pml4 511) ∧
        (s.installDirectory i p e).mem s.pml4 511 &&& PHYS_MASK = s.pdptHigh
      rw [h.first_eq]
      exact h.wf.high
    distinct := by
      intro n m b hn hm
      rw [h.addr_eq] at hn hm
      have hp := (h.wf.free p h.page).2
      by_cases hn' : n = .pd i
      · rw [if_pos hn'] at hn
        by_cases hm' : m = .pd i
        · rw [hn', hm']
        · rw [if_neg hm', ← hn] at hm
          exact absurd hm (hp m)
      · rw [if_neg hn'] at hn
        by_cases hm' : m = .pd i
        · rw [if_pos hm'] at hm
          rw [← hm] at hn
          exact absurd hn (hp n)
        · rw [if_neg hm'] at hm
          exact h.wf.distinct n m b hn hm
    directory := by
      intro i'
      show (s.installDirectory i p e).mem s.pdptHigh i' &&& 1 ≠ 0 → Clean ((s.installDirectory i p e).mem s.pdptHigh i')
      rw [h.mem_high]
      by_cases hi : i' = i
      · rw [if_pos hi]
        exact fun _ => h.clean
      · rw [if_neg hi]
        exact h.wf.directory i'
    table := by
      intro i' j
      rw [h.entry_eq]
      exact h.wf.table i' j
    free := by
      intro q hq
      obtain ⟨ha, hn⟩ := h.wf.free q (List.erase_sublist.subset hq)
      refine ⟨ha, fun n h' => ?_⟩
      rw [h.addr_eq] at h'
      by_cases hn' : n = .pd i
      · rw [if_pos hn'] at h'
        injection h' with h'
        exact h.wf.nodup.not_mem_erase (h' ▸ hq)
      · rw [if_neg hn'] at h'
        exact hn n h'
    nodup := h.wf.nodup.sublist List.erase_sublist }
  root := ⟨rfl, rfl⟩
  nodes n b hb := by
    rw [h.addr_eq, if_neg, hb]
    rintro rfl
    rw [h.absent] at hb
    cases hb
  grown n b hb := by
    rw [h.addr_eq] at hb
    by_cases hn : n = .pd i
    · rw [if_pos hn] at hb
      injection hb with hb
      exact .inr (hb ▸ h.page)
    · rw [if_neg hn] at hb
      exact .inl hb
  pages := List.erase_sublist
  frames := List.suffix_rfl
  frame q hq := by
    apply mem_other
    · rintro rfl
      exact hq (.pd i) (by rw [h.addr_eq, if_pos rfl])
    · rintro rfl
      exact hq .pdpt rfl

end InstallsDirectory

end Lebirun.Paging
