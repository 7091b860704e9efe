import Mathlib

namespace NextFit
set_option autoImplicit true

/-- Next-fit search for `len` free cells in a row of `total`: it begins at `c`, goes back to the
first cell where the row is too short, skips the first used cell it meets and gives up when
`total` cells were counted. -/
def search (used : Nat → Bool) (len total : Nat) : Nat → Nat → Nat → Option Nat
  | 0, _, _ => none
  | fuel + 1, c, checked =>
    if checked < total then
      let c := if c + len > total then 0 else c
      match (List.range len).find? fun i => used (c + i) with
      | some i => search used len total fuel (c + (i + 1)) (checked + (i + 1))
      | none => some c
    else none

/-- The `len` cells from `x` on are in the row, and free. -/
structure Free (used : Nat → Bool) (len total x : Nat) : Prop where
  fits : x + len ≤ total
  free : ∀ i < len, used (x + i) = false

variable {used : Nat → Bool} {len total fuel c checked x : Nat}

theorem free_of_find (h : (List.range len).find? (fun i => used (c + i)) = none)
    (hc : c + len ≤ total) : Free used len total c := by
  apply Free.mk hc
  intro i hi
  simpa using List.find?_eq_none.mp h i (List.mem_range.mpr hi)

/-- A used cell ends every row of free cells that begins at or before it. -/
theorem Free.after (h : Free used len total x) (hu : used j = true) (hj : j < x + len) : j < x := by
  by_contra hx
  have hfree := h.free (j - x) (by omega)
  rw [show x + (j - x) = j by omega, hu] at hfree
  cases hfree

theorem search_sound (hl : len ≤ total) (h : search used len total fuel c checked = some x) :
    Free used len total x := by
  induction fuel generalizing c checked with
  | zero => cases h
  | succ fuel ih =>
    rw [search] at h
    split at h
    · dsimp only at h
      generalize hd : (if c + len > total then 0 else c) = d at h
      have hd : d + len ≤ total := by
        subst d
        split <;> omega
      split at h
      · exact ih h
      · rename_i hfind
        cases h
        exact free_of_find hfind hd
    · cases h

/-- The cells the search counts, at most, before it reaches `x`. -/
def distance (len total x c : Nat) : Nat :=
  if c + len > total then x else if c ≤ x then x - c else total - c + x

/-- A row of free cells that the search reaches before it gives up ends the search. -/
theorem search_complete (hx : Free used len total x)
    (hd : checked + distance len total x c < total) (hf : total ≤ checked + fuel) :
    search used len total fuel c checked ≠ none := by
  induction fuel generalizing c checked with
  | zero => omega
  | succ fuel ih =>
    have hfits := hx.fits
    rw [search, if_pos (by omega)]
    dsimp only
    generalize hn : (if c + len > total then 0 else c) = d
    have hlen : d + len ≤ total := by
      subst d
      split <;> omega
    have hdist : checked + distance len total x d < total := by
      apply Nat.lt_of_le_of_lt _ hd
      apply Nat.add_le_add_left
      subst d
      by_cases hc : c + len > total
      · simp [distance, hc, show ¬total < len by omega]
      · simp [hc]
    cases hfind : (List.range len).find? fun i => used (d + i) with
    | none => simp
    | some i =>
      have hi := List.mem_range.mp (List.mem_of_find?_eq_some hfind)
      have hu := List.find?_some hfind
      apply ih
      · rw [distance, if_neg (by omega)] at hdist
        rw [distance]
        by_cases hle : d ≤ x
        · -- the used cell lies before `x`, so the search comes nearer without passing it
          have hbefore := hx.after hu (by omega)
          rw [if_pos hle] at hdist
          rw [if_neg (by omega), if_pos (by omega)]
          omega
        · rw [if_neg hle] at hdist
          split
          · omega
          · rw [if_neg (by omega)]
            omega
      · omega

/-- A search that may count the whole row finds a free row of cells whenever there is one,
wherever it begins. -/
theorem search_isSome_iff (hlen : 0 < len) (hl : len ≤ total) :
    (search used len total total c 0).isSome ↔ ∃ x, Free used len total x := by
  rw [Option.isSome_iff_ne_none]
  constructor
  · intro h
    obtain ⟨x, hx⟩ := Option.ne_none_iff_exists'.mp h
    exact ⟨x, search_sound hl hx⟩
  · rintro ⟨x, hx⟩
    have hfits := hx.fits
    apply search_complete hx
    · rw [distance]
      split
      · omega
      · split <;> omega
    · omega

end NextFit
