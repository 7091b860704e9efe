import Mathlib
import Lebirun.Lib.NextFit
import Lebirun.Slab.Virtual

namespace Lebirun.Slab
set_option autoImplicit true

variable {mapped : Nat → Bool} {start size limit scan pages total fuel candidate checked c : Nat}

/-- Addresses are 64 bits wide. -/
abbrev wrap64 (a : Nat) : Nat := a % 2 ^ 64

/-- The loop of `slab_find_virtual_run` as the machine runs it: the address returned, 0 for
none, and what `*scan` holds afterwards; `none` when the fuel ends before the loop does.
`mapped` says for which page numbers `vmm_get_phys_in_pml4` gives an address. -/
def slabFindVirtualRunLoop (mapped : Nat → Bool) (start limit pages total scan : Nat) :
    Nat → Nat → Nat → Option (Nat × Nat)
  | 0, _, _ => none
  | fuel + 1, candidate, checked =>
    if checked < total then
      let candidate :=
        if candidate < start ∨ wrap64 (candidate + pages * pageSize) > limit then start else candidate
      match (List.range pages).find? fun page =>
          mapped (wrap64 (candidate + page * pageSize) / pageSize) with
      | some page =>
        slabFindVirtualRunLoop mapped start limit pages total scan fuel
          (wrap64 (candidate + (page + 1) * pageSize)) (checked + (page + 1))
      | none =>
        let scan := wrap64 (candidate + pages * pageSize)
        some (candidate, if scan ≥ limit then start else scan)
    else some (0, scan)

def slabFindVirtualRunWords (mapped : Nat → Bool) (slabVirtualDirty slabFlushActive : Bool)
    (fuel start size scan pages : Nat) : Option (Nat × Nat) :=
  let total := size / pageSize
  if pages = 0 ∨ pages > total then some (0, scan)
  else if slabVirtualDirty ∨ slabFlushActive then some (0, scan)
  else
    slabFindVirtualRunLoop mapped start (wrap64 (start + size)) pages total scan fuel scan 0

/-- A run of unmapped pages that lies in the region. -/
structure UnmappedRun (mapped : Nat → Bool) (start size pages virt : Nat) : Prop where
  aligned : pageSize ∣ virt
  le : start ≤ virt
  fits : virt + pages * pageSize ≤ start + size
  unmapped : ∀ a, virt ≤ a → a < virt + pages * pageSize → mapped (a / pageSize) = false

/-- What the search relies on: a region of pages that does not begin at 0 and ends a run below
the top of the address space, and a position that is at a page where the run would fit. -/
structure Searchable (start size scan pages : Nat) : Prop where
  nonzero : start ≠ 0
  aligned : pageSize ∣ start
  top : start + size + pages * pageSize < 2 ^ 64
  position : start ≤ scan → scan + pages * pageSize < 2 ^ 64 ∧
    (scan + pages * pageSize ≤ start + size → pageSize ∣ scan)

/-- Every turn counts a page at least. -/
theorem slabFindVirtualRunLoop_ends (hf : total ≤ checked + fuel) :
    ∃ r, ∀ more, slabFindVirtualRunLoop mapped start limit pages total scan (fuel + more + 1)
      candidate checked = some r := by
  induction fuel generalizing candidate checked with
  | zero =>
    exists (0, scan)
    intro more
    rw [slabFindVirtualRunLoop, if_neg (by omega)]
  | succ fuel ih =>
    by_cases hc : checked < total
    · generalize hd : (if candidate < start ∨ wrap64 (candidate + pages * pageSize) > limit
        then start else candidate) = d
      cases hfind : (List.range pages).find? fun page =>
          mapped (wrap64 (d + page * pageSize) / pageSize) with
      | none =>
        exists (d, if wrap64 (d + pages * pageSize) ≥ limit then start
          else wrap64 (d + pages * pageSize))
        intro more
        rw [slabFindVirtualRunLoop, if_pos hc]
        dsimp only
        rw [hd, hfind]
      | some page =>
        obtain ⟨r, hr⟩ : ∃ r, ∀ more, slabFindVirtualRunLoop mapped start limit pages total scan
            (fuel + more + 1) (wrap64 (d + (page + 1) * pageSize)) (checked + (page + 1)) = some r :=
          ih (by omega)
        exists r
        intro more
        rw [show fuel + 1 + more = fuel + more + 1 by omega, slabFindVirtualRunLoop, if_pos hc]
        dsimp only
        rw [hd, hfind]
        exact hr more
    · exists (0, scan)
      intro more
      rw [slabFindVirtualRunLoop, if_neg hc]

theorem slabFindVirtualRunWords_ends {dirty active : Bool} :
    ∃ r, ∀ fuel, size / pageSize < fuel →
      slabFindVirtualRunWords mapped dirty active fuel start size scan pages = some r := by
  by_cases hp : pages = 0 ∨ pages > size / pageSize
  · exists (0, scan)
    intro fuel _
    rw [slabFindVirtualRunWords, if_pos hp]
  · by_cases hb : dirty ∨ active
    · exists (0, scan)
      intro fuel _
      rw [slabFindVirtualRunWords, if_neg hp, if_pos hb]
    · obtain ⟨r, hr⟩ : ∃ r, ∀ more, slabFindVirtualRunLoop mapped start (wrap64 (start + size)) pages
          (size / pageSize) scan (size / pageSize + more + 1) scan 0 = some r :=
        slabFindVirtualRunLoop_ends (Nat.le_add_left _ _)
      exists r
      intro fuel hf
      obtain ⟨more, rfl⟩ := Nat.exists_eq_add_of_lt hf
      rw [slabFindVirtualRunWords, if_neg hp, if_neg hb]
      exact hr more

/-- The pages of the region as a row of cells. -/
def usedPage (mapped : Nat → Bool) (start : Nat) (j : Nat) : Bool := mapped (start / pageSize + j)

/-- The candidate is page `c` of the region, or both have to go back to the first page. -/
def AtPage (start size pages candidate c : Nat) : Prop :=
  candidate = start + c * pageSize ∧ c ≤ size / pageSize ∨
    (candidate < start ∨ candidate + pages * pageSize < 2 ^ 64 ∧
      start + size < candidate + pages * pageSize) ∧ size / pageSize < c + pages

theorem page_of_region : (start + j * pageSize) / pageSize = start / pageSize + j := by
  rw [Nat.add_mul_div_right _ _ (by decide)]

theorem fits_iff : start + c * pageSize + pages * pageSize ≤ start + size ↔
    c + pages ≤ size / pageSize := by
  rw [Nat.le_div_iff_mul_le (by decide), Nat.add_mul]
  omega

/-- The next candidate of the loop is the next candidate of the row. -/
theorem AtPage.plain (h : AtPage start size pages candidate c) :
    (if candidate < start ∨ candidate + pages * pageSize > start + size then start
      else candidate) =
      start + (if c + pages > size / pageSize then 0 else c) * pageSize := by
  have hfits : start + c * pageSize + pages * pageSize ≤ start + size ↔
    c + pages ≤ size / pageSize := fits_iff
  obtain ⟨rfl, hle⟩ | ⟨hback, hc⟩ := h
  · by_cases hc : c + pages > size / pageSize
    · rw [if_pos (by omega), if_pos hc, Nat.zero_mul, Nat.add_zero]
    · rw [if_neg (by omega), if_neg hc]
  · rw [if_pos hc, Nat.zero_mul, Nat.add_zero, if_pos]
    obtain hlt | ⟨-, hgt⟩ := hback
    · exact .inl hlt
    · exact .inr hgt

/-- The end of the run at a candidate wraps only where the candidate is given up anyway. -/
theorem AtPage.normal (h : AtPage start size pages candidate c)
    (htop : start + size + pages * pageSize < 2 ^ 64) :
    (if candidate < start ∨ wrap64 (candidate + pages * pageSize) > start + size then start
      else candidate) =
      start + (if c + pages > size / pageSize then 0 else c) * pageSize := by
  rw [← h.plain]
  by_cases hlt : candidate < start
  · rw [if_pos (.inl hlt), if_pos (.inl hlt)]
  · have hw : candidate + pages * pageSize < 2 ^ 64 := by
      obtain ⟨rfl, hle⟩ | ⟨hback, -⟩ := h
      · have hmul : c * pageSize ≤ size := (Nat.le_div_iff_mul_le (by decide)).mp hle
        omega
      · omega
    rw [wrap64, Nat.mod_eq_of_lt hw]

/-- While nothing wraps, the loop is the search of a row of pages. -/
theorem slabFindVirtualRunLoop_eq (hle : pages ≤ size / pageSize)
    (htop : start + size + pages * pageSize < 2 ^ 64) (hat : AtPage start size pages candidate c)
    (hf : size / pageSize ≤ checked + fuel) :
    slabFindVirtualRunLoop mapped start (start + size) pages (size / pageSize) scan (fuel + 1)
      candidate checked =
      some (match NextFit.search (usedPage mapped start) pages (size / pageSize) fuel c checked with
        | some x =>
          (start + x * pageSize,
            if start + x * pageSize + pages * pageSize ≥ start + size then start
            else start + x * pageSize + pages * pageSize)
        | none => (0, scan)) := by
  induction fuel generalizing candidate checked c with
  | zero => rw [slabFindVirtualRunLoop, if_neg (by omega), NextFit.search]
  | succ fuel ih =>
    rw [slabFindVirtualRunLoop, NextFit.search]
    by_cases hc : checked < size / pageSize
    · rw [if_pos hc, if_pos hc]
      dsimp only
      rw [hat.normal htop]
      generalize hn : (if c + pages > size / pageSize then 0 else c) = d
      have hlen : d + pages ≤ size / pageSize := by
        subst d
        split <;> omega
      have hfit : start + d * pageSize + pages * pageSize ≤ start + size := fits_iff.mpr hlen
      have hsame : ∀ i ∈ List.range pages,
          mapped (wrap64 (start + d * pageSize + i * pageSize) / pageSize) =
            usedPage mapped start (d + i) := by
        intro i hi
        have hi := Nat.mul_lt_mul_of_pos_right (List.mem_range.mp hi) (k := pageSize) (by decide)
        rw [wrap64, Nat.mod_eq_of_lt (by omega), Nat.add_assoc, ← Nat.add_mul, page_of_region,
          usedPage]
      have hfind : (List.range pages).find? (fun page =>
          mapped (wrap64 (start + d * pageSize + page * pageSize) / pageSize)) =
            (List.range pages).find? fun i => usedPage mapped start (d + i) :=
        List.find?_congr hsame
      rw [hfind]
      cases hs : (List.range pages).find? fun i => usedPage mapped start (d + i) with
      | none =>
        dsimp only
        rw [wrap64, Nat.mod_eq_of_lt (by omega)]
      | some i =>
        have hi := List.mem_range.mp (List.mem_of_find?_eq_some hs)
        have hmul : (d + (i + 1)) * pageSize ≤ size :=
          (Nat.le_div_iff_mul_le (by decide)).mp (by omega)
        have hw : wrap64 (start + d * pageSize + (i + 1) * pageSize) =
            start + (d + (i + 1)) * pageSize := by
          rw [Nat.add_assoc, ← Nat.add_mul, wrap64, Nat.mod_eq_of_lt (by omega)]
        dsimp only
        rw [hw]
        exact ih (.inl ⟨rfl, by omega⟩) (by omega)
    · rw [if_neg hc, if_neg hc]

/-- Free rows of pages are unmapped runs. -/
theorem unmappedRun_iff (hd : pageSize ∣ start) :
    UnmappedRun mapped start size pages virt ↔
      ∃ x, virt = start + x * pageSize ∧
        NextFit.Free (usedPage mapped start) pages (size / pageSize) x := by
  constructor
  · rintro ⟨ha, hle, hfit, hun⟩
    obtain ⟨x, hx⟩ := Nat.dvd_sub ha hd
    have hv : virt = start + x * pageSize := by
      rw [Nat.mul_comm] at hx
      omega
    subst virt
    refine ⟨x, rfl, fits_iff.mp hfit, ?_⟩
    intro i hi
    have hmul := Nat.mul_lt_mul_of_pos_right hi (k := pageSize) (by decide)
    have hfree := hun (start + (x + i) * pageSize) (by rw [Nat.add_mul]; omega)
      (by rw [Nat.add_mul]; omega)
    rwa [page_of_region] at hfree
  · rintro ⟨x, rfl, hfits, hfree⟩
    refine ⟨Nat.dvd_add hd (Nat.dvd_mul_left _ _), Nat.le_add_right _ _, fits_iff.mpr hfits, ?_⟩
    intro a hle hlt
    -- the page of `a` is one of the run
    obtain ⟨k, rfl⟩ := hd
    have hq : k + x ≤ a / pageSize := by
      rw [Nat.le_div_iff_mul_le (by decide), Nat.add_mul, Nat.mul_comm k]
      exact hle
    have hr : a / pageSize < k + x + pages := by
      rw [Nat.div_lt_iff_lt_mul (by decide), Nat.add_mul, Nat.add_mul, Nat.mul_comm k]
      exact hlt
    have hpage := hfree (a / pageSize - (k + x)) (by omega)
    rw [usedPage, Nat.mul_div_cancel_left _ (by decide)] at hpage
    rwa [show k + (x + (a / pageSize - (k + x))) = a / pageSize by omega] at hpage

theorem atPage_scan (h : Searchable start size scan pages) (hpos : 0 < pages) :
    ∃ c, AtPage start size pages scan c := by
  by_cases hlt : scan < start
  · exact ⟨size / pageSize, .inr ⟨.inl hlt, by omega⟩⟩
  · obtain ⟨hw, hd⟩ := h.position (by omega)
    by_cases hfit : scan + pages * pageSize ≤ start + size
    · obtain ⟨c, hc⟩ := Nat.dvd_sub (hd hfit) h.aligned
      have hscan : scan = start + c * pageSize := by
        rw [Nat.mul_comm] at hc
        omega
      subst scan
      have hlen := fits_iff.mp hfit
      exact ⟨c, .inl ⟨rfl, by omega⟩⟩
    · exact ⟨size / pageSize, .inr ⟨.inr ⟨hw, by omega⟩, by omega⟩⟩

/-- The loop of `slab_find_virtual_run` ends, whatever it is given. Where the position is usable
it finds an unmapped run if there is one, and leaves the position inside the region. -/
theorem slabFindVirtualRunWords_complete :
    ∃ virt scan',
      (∀ fuel, size / pageSize < fuel →
        slabFindVirtualRunWords mapped false false fuel start size scan pages =
          some (virt, scan')) ∧
      (1 ≤ pages → pages ≤ size / pageSize → Searchable start size scan pages →
        (virt ≠ 0 ↔ ∃ run, UnmappedRun mapped start size pages run) ∧
        (virt ≠ 0 → UnmappedRun mapped start size pages virt ∧ start ≤ scan' ∧
          scan' < start + size) ∧
        (virt = 0 → scan' = scan)) := by
  obtain ⟨⟨virt, scan'⟩, hr⟩ : ∃ r, ∀ fuel, size / pageSize < fuel →
      slabFindVirtualRunWords mapped false false fuel start size scan pages = some r :=
    slabFindVirtualRunWords_ends
  refine ⟨virt, scan', hr, ?_⟩
  intro hpos hle hs
  obtain ⟨c, hc⟩ := atPage_scan hs hpos
  have htop := hs.top
  have hstart := hs.nonzero
  have heq := hr (size / pageSize + 1) (Nat.lt_succ_self _)
  rw [slabFindVirtualRunWords, if_neg (by omega), if_neg (by simp), wrap64,
    Nat.mod_eq_of_lt (by omega), slabFindVirtualRunLoop_eq hle htop hc (by omega)] at heq
  have hex : (∃ run, UnmappedRun mapped start size pages run) ↔
      ∃ x, NextFit.Free (usedPage mapped start) pages (size / pageSize) x := by
    constructor
    · rintro ⟨run, hrun⟩
      obtain ⟨x, -, hx⟩ := (unmappedRun_iff hs.aligned).mp hrun
      exact ⟨x, hx⟩
    · rintro ⟨x, hx⟩
      exact ⟨_, (unmappedRun_iff hs.aligned).mpr ⟨x, rfl, hx⟩⟩
  rw [hex, ← NextFit.search_isSome_iff hpos hle (c := c)]
  cases hfind : NextFit.search (usedPage mapped start) pages (size / pageSize) (size / pageSize) c 0 with
  | none =>
    rw [hfind] at heq
    cases heq
    simp
  | some x =>
    rw [hfind] at heq
    have hfree := NextFit.search_sound hle hfind
    have hlen : start + x * pageSize + pages * pageSize ≤ start + size := fits_iff.mpr hfree.fits
    have hpage : pageSize ≤ pages * pageSize := Nat.le_mul_of_pos_left _ hpos
    cases heq
    refine ⟨by simp; omega, ?_, by omega⟩
    intro _
    refine ⟨(unmappedRun_iff hs.aligned).mpr ⟨x, rfl, hfree⟩, ?_⟩
    have hps : 0 < pageSize := by decide
    split <;> omega

/-- From a mapped page at the position the search goes on to the page after it. -/
theorem slabFindVirtualRunWords_complete_page :
    ∃ virt scan', slabFindVirtualRunWords (fun page => page == 2) false false 4 0x1000 0x3000 0x2000 1 =
        some (virt, scan') ∧
      UnmappedRun (fun page => page == 2) 0x1000 0x3000 1 virt ∧ scan' < 0x4000 := by
  obtain ⟨virt, scan', hr, h⟩ := @slabFindVirtualRunWords_complete (fun page => page == 2) 0x1000
    0x3000 0x2000 1
  obtain ⟨hiff, hfound, -⟩ := h (by decide) (by decide)
    ⟨by decide, by decide, by decide, fun _ => ⟨by decide, fun _ => by decide⟩⟩
  have hrun : UnmappedRun (fun page => page == 2) 0x1000 0x3000 1 0x1000 := by
    apply UnmappedRun.mk (by decide) (by decide) (by decide)
    intro a hle hlt
    have hpage : a / pageSize = 1 := by
      rw [Nat.div_eq_iff (by decide)]
      simp only [pageSize] at *
      omega
    rw [hpage]
    rfl
  obtain ⟨hun, -, hscan⟩ := hfound (hiff.mpr ⟨_, hrun⟩)
  exact ⟨virt, scan', hr 4 (by decide), hun, hscan⟩

/-- What each condition on the region and the position keeps away: a position whose run wraps
lies outside the region and is returned, a run from the middle of a page reaches into a mapped
page, page 0 is taken for none, and at the top of memory the end of a full region is returned. -/
theorem slabFindVirtualRunWords_outside :
    slabFindVirtualRunWords (fun _ => false) false false 4 0x1000 0x3000 (2 ^ 64 - 0x1000) 1 =
        some (2 ^ 64 - 0x1000, 0) ∧
      ¬UnmappedRun (fun _ => false) 0x1000 0x3000 1 (2 ^ 64 - 0x1000) ∧
    slabFindVirtualRunWords (fun page => page == 2) false false 3 0x1000 0x2000 0x1800 1 =
        some (0x1800, 0x2800) ∧
      ¬UnmappedRun (fun page => page == 2) 0x1000 0x2000 1 0x1800 ∧
    slabFindVirtualRunWords (fun _ => false) false false 2 0 0x1000 0 1 = some (0, 0) ∧
      UnmappedRun (fun _ => false) 0 0x1000 1 0 ∧
    slabFindVirtualRunWords (fun page => decide (page < 2 ^ 52 - 1)) false false 3 (2 ^ 64 - 0x3000)
        0x2000 (2 ^ 64 - 0x2000) 1 = some (2 ^ 64 - 0x1000, 0) ∧
      ¬UnmappedRun (fun page => decide (page < 2 ^ 52 - 1)) (2 ^ 64 - 0x3000) 0x2000 1
        (2 ^ 64 - 0x1000) := by
  refine ⟨by decide, ?_, by decide, ?_, by decide, ?_, by decide +kernel, ?_⟩
  · intro h
    exact absurd h.fits (by decide)
  · intro h
    have hpage := h.unmapped 0x2000 (by decide) (by decide)
    cases hpage
  · exact ⟨by decide, by decide, by decide, fun _ _ _ => rfl⟩
  · intro h
    exact absurd h.fits (by decide)

/-- The pages the regions have mapped. -/
def mappedPages (mem : Nat → Option PageMem) (page : Nat) : Bool := (mem (page * pageSize)).isSome

theorem slabFindVirtualRunFrom_eq {mem : Nat → Option PageMem} (hd : pageSize ∣ start)
    (hle : pages ≤ size / pageSize) (hat : AtPage start size pages candidate c) :
    slabFindVirtualRunFrom mem start (start + size) pages (size / pageSize) fuel candidate checked =
      (NextFit.search (usedPage (mappedPages mem) start) pages (size / pageSize) fuel c
        checked).map fun x => start + x * pageSize := by
  induction fuel generalizing candidate checked c with
  | zero => rfl
  | succ fuel ih =>
    rw [slabFindVirtualRunFrom, NextFit.search]
    by_cases hc : checked < size / pageSize
    · rw [if_pos hc, if_pos hc]
      dsimp only
      rw [hat.plain]
      generalize hn : (if c + pages > size / pageSize then 0 else c) = d
      have hlen : d + pages ≤ size / pageSize := by
        subst d
        split <;> omega
      have hsame : ∀ i ∈ List.range pages,
          (mem (start + d * pageSize + i * pageSize)).isSome =
            usedPage (mappedPages mem) start (d + i) := by
        intro i _
        rw [usedPage, mappedPages, Nat.add_mul, Nat.div_mul_cancel hd, Nat.add_mul, Nat.add_assoc]
      have hfind : (List.range pages).find? (fun page =>
          (mem (start + d * pageSize + page * pageSize)).isSome) =
            (List.range pages).find? fun i => usedPage (mappedPages mem) start (d + i) :=
        List.find?_congr hsame
      rw [hfind]
      cases hs : (List.range pages).find? fun i => usedPage (mappedPages mem) start (d + i) with
      | none => rfl
      | some i =>
        have hi := List.mem_range.mp (List.mem_of_find?_eq_some hs)
        dsimp only
        rw [Nat.add_assoc, ← Nat.add_mul]
        exact ih (.inl ⟨rfl, by omega⟩)
    · rw [if_neg hc, if_neg hc]
      rfl

/-- The search the allocator's state makes is the one the machine runs. -/
theorem slabFindVirtualRun_words {s : Slab} (hpos : 0 < pages) (hle : pages ≤ size / pageSize)
    (hs : Searchable start size scan pages) :
    slabFindVirtualRunWords (mappedPages s.mem) s.virtualDirty s.flushActive (size / pageSize + 1)
        start size scan pages =
      some ((slabFindVirtualRun s start size scan pages).getD (0, scan)) := by
  have htop := hs.top
  have hp : ¬(pages = 0 ∨ pages > size / pageSize) := by omega
  rw [slabFindVirtualRunWords, slabFindVirtualRun, if_neg hp, if_neg hp]
  by_cases hb : s.virtualDirty ∨ s.flushActive
  · rw [if_pos hb, if_pos hb]
    rfl
  · obtain ⟨c, hc⟩ := atPage_scan hs hpos
    rw [if_neg hb, if_neg hb, wrap64, Nat.mod_eq_of_lt (by omega),
      slabFindVirtualRunLoop_eq hle htop hc (by omega)]
    dsimp only
    rw [slabFindVirtualRunFrom_eq hs.aligned hle hc]
    cases NextFit.search (usedPage (mappedPages s.mem) start) pages (size / pageSize)
      (size / pageSize) c 0 <;> rfl

end Lebirun.Slab
