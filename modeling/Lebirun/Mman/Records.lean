import Lebirun.Mman.Areas

/-!
What the areas record of an address, and what the walks do to it. Areas may overlap, since the
loader does not compare the segments of a program; the records of an address are a multiset.
-/

namespace Lebirun.Mman
set_option autoImplicit true
open Worklist

/-- The backing of an address and its flags: the node with the position in it, and whether the
address is among those filled from the file. -/
structure Record extends Marks where
  node : Option Nat
  position : Nat
  backed : Bool
deriving DecidableEq

def Record.mark (upd : Marks → Marks) (r : Record) : Record := { r with toMarks := upd r.toMarks }

namespace Area

def recordAt (a : Area) (x : Nat) : Record :=
  { toMarks := a.toMarks
    node := a.node
    position := (a.offset + (x - a.vaddr)) % 2 ^ 64
    backed := decide (x < a.fileEnd) }

def recordsAt (x : Nat) (a : Area) : Multiset Record :=
  if a.vaddr ≤ x ∧ x < a.stop then {a.recordAt x} else 0

variable {a : Area} {address x : Nat}

theorem recordsAt_left (h : a.vaddr < address ∧ address < a.stop) :
    (a.left address h).recordsAt x = if x < address then a.recordsAt x else 0 := by
  unfold recordsAt
  rw [left_vaddr, left_stop]
  by_cases hx : x < address
  · have hstop : x < a.stop := by omega
    simp only [hx, hstop, and_true, if_true]
    split
    · have : (decide (x < (a.left address h).fileEnd)) = decide (x < a.fileEnd) := by
        have hf : (a.left address h).fileEnd = a.vaddr +
            (if address - a.vaddr < a.filesz then address - a.vaddr else a.filesz) := rfl
        have hf' : a.fileEnd = a.vaddr + a.filesz := rfl
        rw [hf, hf']
        apply decide_eq_decide.mpr
        split <;> omega
      unfold recordAt
      rw [this]
      rfl
    · rfl
  · simp [hx]

theorem recordsAt_right (h : a.vaddr < address ∧ address < a.stop) :
    (a.right address h).recordsAt x = if address ≤ x then a.recordsAt x else 0 := by
  unfold recordsAt
  rw [right_vaddr, right_stop]
  by_cases hx : address ≤ x
  · have hvaddr : a.vaddr ≤ x := by omega
    simp only [hx, hvaddr, true_and, if_true]
    split
    · have hb : (decide (x < (a.right address h).fileEnd)) = decide (x < a.fileEnd) := by
        have hf : (a.right address h).fileEnd = address +
            (if address < a.fileEnd then a.fileEnd - address else 0) := rfl
        rw [hf]
        apply decide_eq_decide.mpr
        split <;> omega
      have hp : ((a.right address h).offset + (x - address)) % 2 ^ 64 =
          (a.offset + (x - a.vaddr)) % 2 ^ 64 := by
        have ho : (a.right address h).offset = (a.offset + address - a.vaddr) % 2 ^ 64 := rfl
        rw [ho, Nat.mod_add_mod]
        congr 1
        omega
      unfold recordAt
      rw [hb, right_vaddr, hp]
      rfl
    · rfl
  · simp [hx]

theorem recordsAt_mark (upd : Marks → Marks) :
    (a.mark upd).recordsAt x = (a.recordsAt x).map (Record.mark upd) := by
  unfold recordsAt
  rw [mark_vaddr, mark_stop]
  split
  · rfl
  · rfl

theorem recordsAt_outside (h : x < a.vaddr ∨ a.stop ≤ x) : a.recordsAt x = 0 := by
  unfold recordsAt
  rw [if_neg (by omega)]

theorem recordsAt_inside (h : a.vaddr ≤ x) (h' : x < a.stop) : a.recordsAt x = {a.recordAt x} :=
  if_pos ⟨h, h'⟩

end Area

/-- What a list of areas records of an address. -/
def recordsAt (maps : List Area) (x : Nat) : Multiset Record := (maps.map (Area.recordsAt x)).sum

theorem mem_recordsAt : r ∈ recordsAt maps x ↔ ∃ a ∈ maps, r ∈ Area.recordsAt x a := by
  induction maps with
  | nil => simp [recordsAt]
  | cons a maps ih =>
    rw [recordsAt] at ih ⊢
    simp [ih]

variable {a : Area} {vaddr stop : Nat} {upd : Marks → Marks}

/-- A turn of the walk that unmaps takes the records of the range away. -/
theorem unmapTurn_records (hlt : vaddr < stop) (x : Nat) :
    ((unmapTurn vaddr stop a).parts.map (Area.recordsAt x)).sum =
      if vaddr ≤ x ∧ x < stop then 0 else a.recordsAt x := by
  by_cases hx : a.vaddr ≤ x ∧ x < a.stop
  · unfold unmapTurn
    by_cases hr : vaddr ≤ x ∧ x < stop
    · rw [if_pos hr]
      split_ifs with ho hc hl hs
      · omega
      · rfl
      · simp [Turn.parts, Area.recordsAt_right, hr.2]
      · simp [Turn.parts, Area.recordsAt_left, hr.1]
      · have hv : ¬x < vaddr := by omega
        have hs : ¬stop ≤ x := by omega
        simp [Turn.parts, Area.recordsAt_left, Area.recordsAt_right, hv, hs]
    · rw [if_neg hr]
      split_ifs with ho hc hl hs
      · simp [Turn.parts]
      · omega
      · have : stop ≤ x := by omega
        simp [Turn.parts, Area.recordsAt_right, this]
      · have : x < vaddr := by omega
        simp [Turn.parts, Area.recordsAt_left, this]
      · simp only [Turn.parts, List.map_cons, List.map_nil, List.sum_cons, List.sum_nil, add_zero,
          Area.recordsAt_left, Area.recordsAt_right]
        by_cases hv : x < vaddr
        · rw [if_pos hv, if_neg (by omega), add_zero]
        · rw [if_neg hv, if_pos (by omega), zero_add]
  · have h0 : a.recordsAt x = 0 := Area.recordsAt_outside (by omega)
    unfold unmapTurn
    split_ifs <;> simp [Turn.parts, Area.recordsAt_left, Area.recordsAt_right, h0]

/-- A turn of the walks that restrict marks the records of the range, unless the area starts
before it. -/
theorem restrictTurn_records (x : Nat) :
    ((restrictTurn upd vaddr stop a).parts.map (Area.recordsAt x)).sum =
      if vaddr ≤ a.vaddr ∧ x < stop then (a.recordsAt x).map (Record.mark upd)
      else a.recordsAt x := by
  unfold restrictTurn
  split_ifs with ho hr hr
  · have h0 : a.recordsAt x = 0 := by
      have := a.vaddr_lt_stop
      exact Area.recordsAt_outside (by omega)
    simp [Turn.parts, h0]
  · simp [Turn.parts]
  · have hv : a.splitAt vaddr = none := dif_neg (by omega)
    rw [hv]
    cases hs : a.splitAt stop with
    | none => simp [Turn.parts, Area.recordsAt_mark]
    | some parts =>
      obtain ⟨hi, hl, hr'⟩ := Area.splitAt_some hs
      have hx : ¬stop ≤ x := by omega
      simp [Turn.parts, hl, hr', Area.recordsAt_mark, Area.recordsAt_left, Area.recordsAt_right,
        hr.2, hx]
  · cases hv : a.splitAt vaddr with
    | some parts =>
      obtain ⟨hi, hl, hr'⟩ := Area.splitAt_some hv
      simp only [Turn.parts, List.map_cons, List.map_nil, List.sum_cons, List.sum_nil, add_zero,
        hl, hr', Area.recordsAt_left, Area.recordsAt_right]
      by_cases hx : x < vaddr
      · rw [if_pos hx, if_neg (by omega), add_zero]
      · rw [if_neg hx, if_pos (by omega), zero_add]
    | none =>
      have := Area.splitAt_none hv
      have hx : stop ≤ x := by omega
      cases hs : a.splitAt stop with
      | none =>
        have := Area.splitAt_none hs
        have h0 : a.recordsAt x = 0 := Area.recordsAt_outside (by omega)
        simp [Turn.parts, Area.recordsAt_mark, h0]
      | some parts =>
        obtain ⟨hi, hl, hr'⟩ := Area.splitAt_some hs
        have : ¬x < stop := by omega
        simp [Turn.parts, hl, hr', Area.recordsAt_mark, Area.recordsAt_left,
          Area.recordsAt_right, hx, this]

/-- The turn at an area leaves the flags as they are. -/
def Settled (upd : Marks → Marks) (vaddr stop : Nat) (a : Area) : Prop :=
  vaddr ≤ a.vaddr → a.vaddr < stop → upd a.toMarks = a.toMarks

/-- How many of the records would be changed by `upd`. -/
def changes (upd : Marks → Marks) (records : Multiset Record) : Nat :=
  records.countP fun r => upd r.toMarks ≠ r.toMarks

theorem changes_sum (records : List (Multiset Record)) :
    changes upd records.sum = (records.map (changes upd)).sum := by
  induction records with
  | nil => simp [changes]
  | cons r records ih =>
    rw [List.sum_cons, List.map_cons, List.sum_cons, ← ih]
    exact Multiset.countP_add (fun r : Record => upd r.toMarks ≠ r.toMarks) r records.sum

theorem changes_mark (hidem : ∀ m, upd (upd m) = upd m) (records : Multiset Record) :
    changes upd (records.map (Record.mark upd)) = 0 := by
  unfold changes
  rw [Multiset.countP_map]
  simp [Record.mark, hidem]

theorem turn_changes (x : Nat) :
    (((restrictTurns upd vaddr stop).turn a).parts.map fun a => changes upd (a.recordsAt x)).sum =
      changes upd (if vaddr ≤ a.vaddr ∧ x < stop then (a.recordsAt x).map (Record.mark upd)
        else a.recordsAt x) := by
  rw [← restrictTurn_records, changes_sum, List.map_map]
  rfl

variable {maps maps' met : List Area}

/-- Of the areas that a restricting walk went through, all were settled, or the records of some
address have changed. -/
theorem restrict_same_iff (hidem : ∀ m, upd (upd m) = upd m)
    (h : (restrictTurns upd vaddr stop).Exchanged maps maps' met) :
    (∀ x, recordsAt maps' x = recordsAt maps x) ↔ ∀ a ∈ met, Settled upd vaddr stop a := by
  constructor
  · intro hsame b hb hle hlt
    by_contra hne
    have hless := h.lessens (fun a => changes upd (a.recordsAt b.vaddr)) ?_ ⟨b, hb, ?_⟩
    · have hchanges := congrArg (changes upd) (hsame b.vaddr)
      simp only [recordsAt, changes_sum, List.map_map] at hchanges
      exact absurd hchanges (Nat.ne_of_lt hless)
    · intro a _
      rw [turn_changes]
      split_ifs
      · rw [changes_mark hidem]
        exact Nat.zero_le _
      · exact le_refl _
    · rw [turn_changes, if_pos ⟨hle, hlt⟩, changes_mark hidem,
        Area.recordsAt_inside (le_refl _) b.vaddr_lt_stop]
      apply Multiset.countP_pos.mpr
      exact ⟨_, Multiset.mem_singleton_self _, hne⟩
  · intro hs x
    apply h.keeps
    intro a ha
    show ((restrictTurn upd vaddr stop a).parts.map (Area.recordsAt x)).sum = _
    rw [restrictTurn_records]
    split_ifs with hr
    · by_cases hx : a.vaddr ≤ x ∧ x < a.stop
      · have := hs a ha hr.1 (by omega)
        rw [Area.recordsAt_inside hx.1 hx.2]
        simp [Record.mark, Area.recordAt, this]
      · rw [Area.recordsAt_outside (by omega)]
        rfl
    · rfl

/-- Of the areas that the unmapping walk went through, none met the range, or the records of
some address have changed. -/
theorem unmap_same_iff (hlt : vaddr < stop)
    (h : (unmapTurns vaddr stop).Exchanged maps maps' met) :
    (∀ x, recordsAt maps' x = recordsAt maps x) ↔
      ∀ a ∈ met, stop ≤ a.vaddr ∨ a.stop ≤ vaddr := by
  have hturn : ∀ x a, (((unmapTurns vaddr stop).turn a).parts.map (Area.recordsAt x)).sum =
      if vaddr ≤ x ∧ x < stop then 0 else a.recordsAt x := fun x a => unmapTurn_records hlt x
  constructor
  · intro hsame b hb
    by_contra hmeets
    have hx : ∃ x, vaddr ≤ x ∧ x < stop ∧ b.vaddr ≤ x ∧ x < b.stop := by
      have := b.vaddr_lt_stop
      exact ⟨max vaddr b.vaddr, by omega⟩
    obtain ⟨x, hv, hs, hin⟩ := hx
    have hsum := h.sum (Area.recordsAt x)
    rw [← recordsAt, ← recordsAt, hsame x] at hsum
    have hzero := add_left_cancel hsum
    have hnone : ((met.map fun a =>
        (((unmapTurns vaddr stop).turn a).parts.map (Area.recordsAt x)).sum).sum) = 0 := by
      apply List.sum_eq_zero
      intro s hs'
      obtain ⟨a, -, rfl⟩ := List.mem_map.mp hs'
      rw [hturn, if_pos ⟨hv, hs⟩]
    rw [hnone] at hzero
    have hmem : b.recordAt x ∈ recordsAt met x := by
      apply mem_recordsAt.mpr
      exact ⟨b, hb, by simp [Area.recordsAt_inside hin.1 hin.2]⟩
    rw [hzero] at hmem
    simp at hmem
  · intro hmiss x
    apply h.keeps
    intro a ha
    rw [hturn]
    split_ifs with hr
    · exact (Area.recordsAt_outside (by have := hmiss a ha; omega)).symm
    · rfl

end Lebirun.Mman
