import Lebirun.Mman.Records

/-!
The page table of a task by page numbers, and the loops of the memory calls over its pages. What
the allocators give is data of the call.
-/

namespace Lebirun.Mman
set_option autoImplicit true

abbrev pageSize : Nat := 4096
abbrev kernelVma : Nat := 0xFFFFFFFF80000000

abbrev Frame := { phys : Nat // phys ≠ 0 }

/-- A present entry of the page table. -/
structure Pte where
  phys : Frame
  flags : BitVec 64
deriving DecidableEq

abbrev Pages := Nat → Option Pte

/-- What other parts of the kernel answer during a call. -/
structure Answers where
  /-- whether an array of so many areas can be allocated -/
  grants : Nat → Bool
  /-- `pfa_alloc` for a page -/
  fresh : Nat → Option Frame
  /-- whether the tables for a page are there or can be allocated -/
  tables : Nat → Bool
  /-- whether the lists of mapped and of tracked pages can be allocated -/
  listed : Bool
  tracked : Bool
  /-- `pfa_ref_get` -/
  refs : Frame → Nat
  /-- whether `smp_tlb_flush_all_sync` is acknowledged everywhere -/
  flushed : Bool
  /-- `ramfs_node_has_seal` with the seals against writing, and mounts without execution -/
  sealed : Nat → Bool
  noexec : Nat → Bool
  /-- the buffer of `sync_user_range`, and whether an area's part at an address is written whole -/
  buffer : Bool
  written : Nat → Nat → Bool
  /-- `task_memory_allows` -/
  allows : Nat → Bool
  /-- whether the task has or gets its extension record -/
  ext : Bool
  /-- `task_handle_file_page_fault` -/
  fault : Pages → Nat → Pages

/-- An entry as it is read back: nothing unless it is present. -/
def leaf (phys : Frame) (flags : BitVec 64) : Option Pte :=
  if flags &&& vmmPtePresent ≠ 0 then some ⟨phys, flags⟩ else none

/-- `vmm_get_flags_in_pml4` at a present entry -/
def vmmGetFlags (pte : Pte) : BitVec 64 :=
  pte.flags &&& (vmmPtePresent ||| vmmPteWrite ||| vmmPteUser ||| vmmPteNx ||| vmmPteCow |||
    vmmPteNofree ||| vmmPteShared)

/-- `vmm_map_page_in_pml4`, where the tables are there -/
def vmmMapPage (pages : Pages) (page : Nat) (phys : Frame) (flags : BitVec 64) : Pages :=
  fun p => if p = page then leaf phys (flags &&& 0x8000000000000FFF) else pages p

/-- `vmm_unmap_page_in_pml4` at each page of a range -/
def unmapPages (start count : Nat) (pages : Pages) : Pages :=
  fun p => if start ≤ p ∧ p < start + count then none else pages p

/-- The entry that `vmm_protect_page_in_pml4` writes. -/
def protectedFlags (entry flags : BitVec 64) : BitVec 64 :=
  let changed := vmmPtePresent ||| vmmPteWrite ||| vmmPteUser ||| vmmPteNx ||| vmmPteCow
  (entry &&& ~~~changed) ||| (flags &&& changed)

/-- `vmm_protect_page_in_pml4`; nothing where it returns -1. -/
def vmmProtectPage (pages : Pages) (page : Nat) (flags : BitVec 64) : Option Pages :=
  match pages page with
  | none => none
  | some pte => some fun p =>
      if p = page then leaf pte.phys (protectedFlags pte.flags flags) else pages p

/-- The flags that `sys_mprotect` gives a page. -/
def pageFlags (o : Answers) (pteFlags : BitVec 64) (pte : Pte) : BitVec 64 :=
  if pteFlags &&& vmmPteWrite ≠ 0 ∧ vmmGetFlags pte &&& vmmPteShared = 0 then
    if vmmGetFlags pte &&& vmmPteNofree ≠ 0 then pteFlags &&& ~~~vmmPteWrite
    else if vmmGetFlags pte &&& vmmPteCow ≠ 0 ∨ 1 < o.refs pte.phys then
      (pteFlags &&& ~~~vmmPteWrite) ||| vmmPteCow
    else pteFlags
  else pteFlags

/-- The loop of `sys_mprotect` over the pages of the range. -/
def protectPages (o : Answers) (pteFlags : BitVec 64) : Nat → Nat → Pages → Bool × Pages
  | _, 0, pages => (true, pages)
  | page, count + 1, pages =>
    match pages page with
    | none => protectPages o pteFlags (page + 1) count pages
    | some pte =>
      match vmmProtectPage pages page (pageFlags o pteFlags pte) with
      | none => (false, pages)
      | some pages => protectPages o pteFlags (page + 1) count pages

/-- The loop of `vmm_map_range_in_pml4_tracked`: `done` pages from `start` are mapped. -/
def mapRangeTurns (o : Answers) (flags : BitVec 64) (start : Nat) :
    Nat → Nat → Pages → Bool × Pages
  | _, 0, pages => (true, pages)
  | done, count + 1, pages =>
    match o.fresh (start + done) with
    | none => (false, unmapPages start done pages)
    | some phys =>
      if o.tables (start + done) then
        mapRangeTurns o flags start (done + 1) count (vmmMapPage pages (start + done) phys flags)
      else (false, unmapPages start done pages)

/-- The pages that `map_user_pages` maps. -/
def userCount (base size : Nat) : Nat := (base + size + pageSize - 1) / pageSize - base / pageSize

/-- `map_user_pages` -/
def mapUserPages (o : Answers) (base size : Nat) (flags : BitVec 64) (pages : Pages) :
    Bool × Pages :=
  let start := base / pageSize
  if size = 0 ∨ 2 ^ 64 ≤ base + size + pageSize - 1 ∨ !o.listed then (false, pages)
  else
    match mapRangeTurns o flags start 0 (userCount base size) pages with
    | (false, pages) => (false, pages)
    | (true, pages) =>
      if o.tracked then (true, pages) else (false, unmapPages start (userCount base size) pages)

/-- The loop of `sys_mremap` which maps the pages of the old range in the new one as well. -/
def mapAgainTurns (o : Answers) (old new : Nat) : Nat → Nat → Pages → Bool × Pages
  | _, 0, pages => (true, pages)
  | done, count + 1, pages =>
    match pages (old + done) with
    | none => mapAgainTurns o old new (done + 1) count pages
    | some pte =>
      if o.tables (new + done) then
        mapAgainTurns o old new (done + 1) count
          (vmmMapPage pages (new + done) pte.phys (vmmGetFlags pte))
      else (false, unmapPages new done pages)

/-! ### What the loops do to the pages -/

/-- The page table outside a range is unchanged. -/
def AgreeOff (start count : Nat) (pages pages' : Pages) : Prop :=
  ∀ p, ¬(start ≤ p ∧ p < start + count) → pages' p = pages p

/-- Moreover each page of the range is unchanged or empty. -/
def EmptiedOnly (start count : Nat) (pages pages' : Pages) : Prop :=
  ∀ p, pages' p = pages p ∨ (pages' p = none ∧ start ≤ p ∧ p < start + count)

variable {o : Answers} {flags : BitVec 64} {pages orig pages' : Pages} {start count p : Nat}

theorem AgreeOff.refl : AgreeOff start count pages pages := fun _ _ => rfl

theorem EmptiedOnly.refl : EmptiedOnly start count pages pages := fun _ => .inl rfl

theorem AgreeOff.map (h : AgreeOff start done orig pages) :
    AgreeOff start (done + 1) orig (vmmMapPage pages (start + done) phys flags) := by
  intro p hp
  rw [vmmMapPage, if_neg (by omega), h p (by omega)]

theorem AgreeOff.unmap (h : AgreeOff start done orig pages) (hle : done ≤ count) :
    EmptiedOnly start count orig (unmapPages start done pages) := by
  intro p
  unfold unmapPages
  split
  · exact .inr ⟨rfl, by omega⟩
  · exact .inl (h p (by assumption))

/-- A range that was empty is as before once it is emptied. -/
theorem EmptiedOnly.restored (h : EmptiedOnly start count pages pages')
    (hfree : ∀ p, start ≤ p → p < start + count → pages p = none) : pages' = pages := by
  funext p
  obtain he | ⟨hn, hs, hc⟩ := h p
  · exact he
  · rw [hn, hfree p hs hc]

/-- Mapping a range leaves the rest alone, and where it fails the range is emptied again. -/
theorem mapRangeTurns_spec (o : Answers) (flags : BitVec 64) (count done : Nat)
    (h : AgreeOff start done orig pages) :
    AgreeOff start (done + count) orig (mapRangeTurns o flags start done count pages).2 ∧
      ((mapRangeTurns o flags start done count pages).1 = false →
        EmptiedOnly start (done + count) orig
          (mapRangeTurns o flags start done count pages).2) := by
  induction count generalizing done pages with
  | zero => exact ⟨h, fun hf => by cases hf⟩
  | succ count ih =>
    have hun : EmptiedOnly start (done + (count + 1)) orig (unmapPages start done pages) :=
      h.unmap (by omega)
    have hoff : AgreeOff start (done + (count + 1)) orig (unmapPages start done pages) := by
      intro p hp
      exact (hun p).resolve_right (fun hr => hp hr.2)
    rw [mapRangeTurns]
    split
    · exact ⟨hoff, fun _ => hun⟩
    · split
      · rw [show done + (count + 1) = done + 1 + count by omega]
        exact ih (done + 1) h.map
      · exact ⟨hoff, fun _ => hun⟩

/-- The same of mapping pages of another range. -/
theorem mapAgainTurns_spec (o : Answers) (old count done : Nat) (h : AgreeOff start done orig pages) :
    AgreeOff start (done + count) orig (mapAgainTurns o old start done count pages).2 ∧
      ((mapAgainTurns o old start done count pages).1 = false →
        EmptiedOnly start (done + count) orig (mapAgainTurns o old start done count pages).2) := by
  induction count generalizing done pages with
  | zero => exact ⟨h, fun hf => by cases hf⟩
  | succ count ih =>
    have hun : EmptiedOnly start (done + (count + 1)) orig (unmapPages start done pages) :=
      h.unmap (by omega)
    have hoff : AgreeOff start (done + (count + 1)) orig (unmapPages start done pages) := by
      intro p hp
      exact (hun p).resolve_right (fun hr => hp hr.2)
    have hskip : AgreeOff start (done + 1) orig pages := fun p hp => h p (by omega)
    rw [mapAgainTurns]
    split
    · rw [show done + (count + 1) = done + 1 + count by omega]
      exact ih (done + 1) hskip
    · split
      · rw [show done + (count + 1) = done + 1 + count by omega]
        exact ih (done + 1) h.map
      · exact ⟨hoff, fun _ => hun⟩

theorem mapUserPages_spec (o : Answers) (base size : Nat) (flags : BitVec 64) (pages : Pages) :
    AgreeOff (base / pageSize) (userCount base size) pages
        (mapUserPages o base size flags pages).2 ∧
      ((mapUserPages o base size flags pages).1 = false →
        EmptiedOnly (base / pageSize) (userCount base size) pages
          (mapUserPages o base size flags pages).2) := by
  have hspec := mapRangeTurns_spec o flags (userCount base size) 0
    (.refl : AgreeOff (base / pageSize) 0 pages pages)
  rw [Nat.zero_add] at hspec
  rw [mapUserPages]
  split
  · exact ⟨.refl, fun _ => .refl⟩
  · split
    · rename_i heq
      rw [heq] at hspec
      exact hspec
    · rename_i heq
      rw [heq] at hspec
      split
      · exact ⟨hspec.1, fun hf => by cases hf⟩
      · have hun := hspec.1.unmap (le_refl _)
        exact ⟨fun p hp => (hun p).resolve_right (fun hr => hp hr.2), fun _ => hun⟩

/-- What `sys_mprotect` makes of a present entry. -/
def reprotect (o : Answers) (pteFlags : BitVec 64) (pte : Pte) : Option Pte :=
  leaf pte.phys (protectedFlags pte.flags (pageFlags o pteFlags pte))

theorem protectPages_spec (o : Answers) (flags : BitVec 64) (page count : Nat) (pages : Pages) :
    (protectPages o flags page count pages).1 = true ∧
      ∀ p, (protectPages o flags page count pages).2 p =
        if page ≤ p ∧ p < page + count then (pages p).bind (reprotect o flags) else pages p := by
  induction count generalizing page pages with
  | zero =>
    simp only [protectPages, true_and]
    intro p
    rw [if_neg (by omega)]
  | succ count ih =>
    rw [protectPages]
    cases hp : pages page with
    | none =>
      obtain ⟨hok, hpages⟩ := ih (page + 1) pages
      refine ⟨hok, ?_⟩
      intro p
      simp only [hpages p]
      by_cases he : p = page
      · subst he
        simp [hp]
      · have hiff : page + 1 ≤ p ∧ p < page + 1 + count ↔ page ≤ p ∧ p < page + (count + 1) := by
          omega
        rw [if_congr hiff rfl rfl]
    | some pte =>
      simp only [vmmProtectPage, hp]
      obtain ⟨hok, hpages⟩ := ih (page + 1) (fun p =>
        if p = page then leaf pte.phys (protectedFlags pte.flags (pageFlags o flags pte))
        else pages p)
      refine ⟨hok, ?_⟩
      intro p
      simp only [hpages p]
      by_cases he : p = page
      · subst he
        simp [hp, reprotect]
      · have hiff : page + 1 ≤ p ∧ p < page + 1 + count ↔ page ≤ p ∧ p < page + (count + 1) := by
          omega
        rw [if_neg he, if_congr hiff rfl rfl]

end Lebirun.Mman
