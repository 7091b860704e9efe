import Lebirun.Ipv67.Asn
import Lebirun.Lib.Run
import Lebirun.Lib.Slots

namespace Lebirun.Ipv67
open Machine
set_option autoImplicit true

section Order

theorem cmp_ne_lt_iff {a b : Addr} : addrCmpOrder a b ≠ .lt ↔ b ≤ a := by
  have hswap : addrCmpOrder b a = (addrCmpOrder a b).swap := Std.OrientedCmp.eq_swap
  rw [addr_le_iff, hswap]
  cases addrCmpOrder a b <;> simp

theorem cmp_ne_gt_iff {a b : Addr} : addrCmpOrder a b ≠ .gt ↔ a ≤ b := Iff.rfl

variable {K : Type} {a b : AsnClaim K}

theorem AsnClaim.has_iff {addr : Addr} :
    a.has addr = true ↔ a.valid = true ∧ a.start ≤ addr ∧ addr ≤ a.finish := by
  simp only [AsnClaim.has, Bool.and_eq_true, decide_eq_true_eq, cmp_ne_lt_iff, cmp_ne_gt_iff, and_assoc]

theorem AsnClaim.overlaps_iff :
    a.overlaps b = true ↔ a.valid = true ∧ b.valid = true ∧ a.start ≤ b.finish ∧ b.start ≤ a.finish := by
  simp only [AsnClaim.overlaps, Bool.and_eq_true, decide_eq_true_eq, cmp_ne_gt_iff, and_assoc]

theorem AsnClaim.overlaps_of_has {addr : Addr} (ha : a.has addr = true) (hb : b.has addr = true) :
    a.overlaps b = true := by
  obtain ⟨hva, hsa, hfa⟩ := has_iff.mp ha
  obtain ⟨hvb, hsb, hfb⟩ := has_iff.mp hb
  exact overlaps_iff.mpr ⟨hva, hvb, hsa.trans hfb, hsb.trans hfa⟩

/-- Two claims with proper ranges overlap just when they share an address: the later start. -/
theorem AsnClaim.overlaps_iff_shared (ha : a.start ≤ a.finish) (hb : b.start ≤ b.finish) :
    a.overlaps b = true ↔ ∃ addr, a.has addr = true ∧ b.has addr = true := by
  constructor
  · intro h
    obtain ⟨hva, hvb, hab, hba⟩ := overlaps_iff.mp h
    obtain hle | hle := addr_le_total a.start b.start
    · exact ⟨b.start, has_iff.mpr ⟨hva, hle, hba⟩, has_iff.mpr ⟨hvb, le_refl _, hb⟩⟩
    · exact ⟨a.start, has_iff.mpr ⟨hva, le_refl _, ha⟩, has_iff.mpr ⟨hvb, hle, hab⟩⟩
  · rintro ⟨addr, h, h'⟩
    exact overlaps_of_has h h'

end Order

section Marks

variable {K : Type} {asns : List (AsnClaim K)}

theorem overlapCount_pos {i : Nat} {a : AsnClaim K} :
    0 < overlapCount asns i a ↔ ∃ j b, j ≠ i ∧ asns[j]? = some b ∧ a.overlaps b = true := by
  unfold overlapCount
  rw [List.countP_pos_iff]
  constructor
  · rintro ⟨⟨b, j⟩, hmem, hb⟩
    simp only [Bool.and_eq_true, decide_eq_true_eq] at hb
    exact ⟨j, b, hb.1.1, List.mk_mem_zipIdx_iff_getElem?.mp hmem, hb.2⟩
  · rintro ⟨j, b, hj, hb, ho⟩
    refine ⟨(b, j), List.mk_mem_zipIdx_iff_getElem?.mpr hb, ?_⟩
    obtain ⟨-, hvb, -⟩ := AsnClaim.overlaps_iff.mp ho
    simp [hj, ho, hvb]

/-- Nothing but the two conflict flags and the count differs. -/
def AsnClaim.SameButMarks (a b : AsnClaim K) : Prop :=
  ∃ conflict quarantine count, b = { a with
    conflictCount := count, flags := { a.flags with conflict := conflict, quarantine := quarantine } }

theorem AsnClaim.marked_same (a : AsnClaim K) (n : Nat) : a.SameButMarks (a.marked n) := ⟨_, _, _, rfl⟩

theorem AsnClaim.SameButMarks.refl (a : AsnClaim K) : a.SameButMarks a := ⟨_, _, _, rfl⟩

theorem AsnClaim.SameButMarks.overlaps {a a' b b' : AsnClaim K} (h : a.SameButMarks a')
    (h' : b.SameButMarks b') : a'.overlaps b' = a.overlaps b := by
  obtain ⟨_, _, _, rfl⟩ := h
  obtain ⟨_, _, _, rfl⟩ := h'
  rfl

/-- Every slot of the recomputed table is the old one up to its marks. -/
theorem recompute_getElem? (i : Nat) :
    (recomputeConflicts asns)[i]? =
      asns[i]?.map fun a => if a.valid then a.marked (overlapCount asns i a) else a :=
  List.getElem?_mapIdx

theorem recompute_same {i : Nat} {a' : AsnClaim K} (h : (recomputeConflicts asns)[i]? = some a') :
    ∃ a, asns[i]? = some a ∧ a.SameButMarks a' := by
  rw [recompute_getElem?, Option.map_eq_some_iff] at h
  obtain ⟨a, ha, rfl⟩ := h
  refine ⟨a, ha, ?_⟩
  split
  · exact a.marked_same _
  · exact .refl a

/-- The flags of the valid claims are those the overlaps of the table give. -/
def Marked (asns : List (AsnClaim K)) : Prop :=
  ∀ (i : Nat) (a : AsnClaim K), asns[i]? = some a → a.valid = true →
    (a.flags.conflict = true ↔ ∃ j b, j ≠ i ∧ asns[j]? = some b ∧ a.overlaps b = true) ∧
    (a.flags.quarantine = true ↔ a.flags.conflict = true ∧ a.flags.isLocal = false)

theorem recompute_marked (asns : List (AsnClaim K)) : Marked (recomputeConflicts asns) := by
  intro i a' ha' hv
  rw [recompute_getElem?, Option.map_eq_some_iff] at ha'
  obtain ⟨a, ha, rfl⟩ := ha'
  have hva : a.valid = true := by
    split at hv
    · exact hv
    · exact hv
  rw [if_pos hva]
  have hover : (∃ j b, j ≠ i ∧ (recomputeConflicts asns)[j]? = some b ∧
      (a.marked (overlapCount asns i a)).overlaps b = true) ↔
      ∃ j b, j ≠ i ∧ asns[j]? = some b ∧ a.overlaps b = true := by
    constructor
    · rintro ⟨j, b', hj, hb', ho⟩
      obtain ⟨b, hb, hsame⟩ := recompute_same hb'
      exact ⟨j, b, hj, hb, (a.marked_same _).overlaps hsame ▸ ho⟩
    · rintro ⟨j, b, hj, hb, ho⟩
      obtain ⟨b', hb'⟩ : ∃ b', (recomputeConflicts asns)[j]? = some b' := by
        rw [recompute_getElem?, hb]
        exact ⟨_, rfl⟩
      obtain ⟨b₀, hb₀, hsame⟩ := recompute_same hb'
      cases hb.symm.trans hb₀
      exact ⟨j, b', hj, hb', (a.marked_same _).overlaps hsame ▸ ho⟩
  rw [hover, ← overlapCount_pos]
  simp [AsnClaim.marked]

theorem marked_nil : Marked ([] : List (AsnClaim K)) := by
  intro i a h
  cases h

end Marks

section Made

variable {K : Type} (c : Crypto K)

theorem not_valid_zero {P : Prop} (h : (AsnClaim.zero c).valid = true) : P := by
  cases h

theorem measured_specificity (a : AsnClaim K) :
    a.measured.specificity ≤ asnRangeSpecificity a.measured.start a.measured.finish := by
  unfold AsnClaim.measured
  dsimp only
  split
  · exact le_refl _
  · rename_i hs
    push Not at hs
    exact hs.2

variable [DecidableEq K]

/-- A claim as `ipv67_set_asn_claim` and `ipv67_apply_asn_adv` let it in. -/
structure AsnClaim.Made (identity : Option (K × K)) (a : AsnClaim K) : Prop where
  ordered : a.start ≤ a.finish
  derived : c.asnFromPublicKey a.sourceKey = some a.asn
  specificity : a.specificity ≤ asnRangeSpecificity a.start a.finish
  own : a.flags.isLocal = true → identity.map (·.2) = some a.sourceKey

/-- Every valid claim of the table is well made. -/
def AllMade (identity : Option (K × K)) (asns : List (AsnClaim K)) : Prop :=
  ∀ a ∈ asns, a.valid = true → a.Made c identity

variable {c} {identity : Option (K × K)} {asns : List (AsnClaim K)} {a b : AsnClaim K}

theorem AsnClaim.Made.same (h : a.Made c identity) (hs : a.SameButMarks b) : b.Made c identity := by
  obtain ⟨_, _, _, rfl⟩ := hs
  exact ⟨h.ordered, h.derived, h.specificity, h.own⟩

theorem allMade_nil : AllMade c identity [] := by
  intro a h
  cases h

theorem AllMade.recompute (h : AllMade c identity asns) :
    AllMade c identity (recomputeConflicts asns) := by
  intro a' hmem hv
  obtain ⟨i, hi⟩ := List.mem_iff_getElem?.mp hmem
  obtain ⟨a, ha, hsame⟩ := recompute_same hi
  have hva : a.valid = true := by
    obtain ⟨_, _, _, rfl⟩ := hsame
    exact hv
  exact (h a (List.mem_of_getElem? ha) hva).same hsame

theorem AllMade.set (h : AllMade c identity asns) (i : Nat)
    (ha : a.valid = true → a.Made c identity) : AllMade c identity (asns.set i a) := by
  intro b hb hv
  obtain hb | rfl := List.mem_or_eq_of_mem_set hb
  · exact h b hb hv
  · exact ha hv

theorem AllMade.grow (h : AllMade c identity asns) (n : Nat) :
    AllMade c identity (asns ++ List.replicate n (AsnClaim.zero c)) := by
  intro a ha hv
  obtain ha | ha := List.mem_append.mp ha
  · exact h a ha hv
  · rw [List.eq_of_mem_replicate ha] at hv
    exact not_valid_zero c hv

theorem AllMade.map {f : AsnClaim K → AsnClaim K} (h : AllMade c identity asns)
    (hf : ∀ a, f a = a ∨ f a = .zero c) : AllMade c identity (asns.map f) := by
  intro b hb hv
  obtain ⟨a, ha, rfl⟩ := List.mem_map.mp hb
  obtain hfa | hfa := hf a
  · rw [hfa] at hv ⊢
    exact h a ha hv
  · rw [hfa] at hv
    exact not_valid_zero c hv

theorem AsnClaim.measured_made (hle : a.start ≤ a.finish)
    (hd : c.asnFromPublicKey a.sourceKey = some a.asn)
    (hown : a.flags.isLocal = true → identity.map (·.2) = some a.sourceKey) :
    a.measured.Made c identity := by
  refine ⟨?_, ?_, measured_specificity a, ?_⟩
  all_goals
    unfold AsnClaim.measured
    dsimp only
    split
    all_goals assumption

end Made

section Ops

variable {K : Type} (c : Crypto K)

/-- The table is as it was, or grown by empty slots. -/
theorem ensureAsnCap_cases (s : Ctx K) (e : Env) (needed : Nat) :
    ∃ n k, (s.ensureAsnCap c e needed).2 =
        { s with asns := s.asns ++ List.replicate n (AsnClaim.zero c), allocs := k } ∧
      ((s.ensureAsnCap c e needed).1 = true → needed ≤ s.asns.length + n) := by
  obtain ⟨n, hn, hcap⟩ := ensureCap_cases e s.allocs s.asns (.zero c) needed
  refine ⟨n, (ensureCap e s.allocs s.asns (.zero c) needed).2.2, ?_, hcap⟩
  rw [← hn]
  rfl

theorem asnReplaceScan_cases {e : Env} {claim : AsnClaim K} {l : List (AsnClaim K)} {i j : Nat}
    {best : Option (Nat × Nat × Nat)} (h : asnReplaceScan e claim l i best = some j) :
    (∃ b, best = some b ∧ b.1 = j) ∨
      ∃ d a, j = i + d ∧ l[d]? = some a ∧ (a.valid = true → a.flags.isLocal = false) := by
  induction l generalizing i best with
  | nil =>
    obtain ⟨b, hb, rfl⟩ := Option.map_eq_some_iff.mp h
    exact .inl ⟨b, hb, rfl⟩
  | cons a l ih =>
    have later : ∀ {best'}, asnReplaceScan e claim l (i + 1) best' = some j →
        (∃ b, best' = some b ∧ b.1 = j) ∨
          ∃ d a', j = i + d ∧ (a :: l)[d]? = some a' ∧ (a'.valid = true → a'.flags.isLocal = false) := by
      intro best' h'
      obtain hb | ⟨d, a', rfl, ha', hl⟩ := ih h'
      · exact .inl hb
      · exact .inr ⟨d + 1, a', by omega, by rwa [List.getElem?_cons_succ], hl⟩
    have here : a.flags.isLocal = false → ∀ score age,
        asnReplaceScan e claim l (i + 1) (some (i, score, age)) = some j →
        (∃ b, best = some b ∧ b.1 = j) ∨
          ∃ d a', j = i + d ∧ (a :: l)[d]? = some a' ∧ (a'.valid = true → a'.flags.isLocal = false) := by
      intro hl score age h'
      obtain ⟨b, hb, hbj⟩ | hlater := later h'
      · cases hb
        exact .inr ⟨0, a, hbj.symm, rfl, fun _ => hl⟩
      · exact .inr hlater
    unfold asnReplaceScan at h
    split at h
    · rename_i hv
      cases h
      exact .inr ⟨0, a, rfl, rfl, fun hva => by simp [hva] at hv⟩
    · split at h
      · exact later h
      · rename_i hl
        have hl := Bool.eq_false_iff.mpr hl
        dsimp only at h
        split at h
        · exact later h
        · split at h
          · split at h
            · exact here hl _ _ h
            · exact later h
          · exact here hl _ _ h

/-- A table that grew, or one slot of which was overwritten. -/
inductive AsnStored (P : AsnClaim K → AsnClaim K → Prop) (s : Ctx K) : Ctx K → Prop
  | grown (n k : Nat) :
    AsnStored P s { s with asns := s.asns ++ List.replicate n (AsnClaim.zero c), allocs := k }
  | put (n k i l : Nat) (old next : AsnClaim K)
    (hold : (s.asns ++ List.replicate n (AsnClaim.zero c))[i]? = some old) (hP : P old next)
    (hl : 0 < l → old.valid = true ∧ s.asnCount < s.asns.length + n ∧
      ∀ a ∈ s.asns ++ List.replicate n (AsnClaim.zero c), a.valid = true) :
    AsnStored P s { s with
      asns := (s.asns ++ List.replicate n (AsnClaim.zero c)).set i next
      asnCount := s.asnCount + if old.valid || 0 < l then 0 else 1
      allocs := k
      lost := s.lost + l }

theorem storeAsnClaim_cases (s : Ctx K) (e : Env) (claim : AsnClaim K) :
    AsnStored c (fun old next => next = claim ∧ (old.valid = true → old.flags.isLocal = false)) s
      (s.storeAsnClaim c e claim) := by
  obtain ⟨n, k, hs, hcap⟩ := ensureAsnCap_cases c s e (s.asnCount + 1)
  unfold Ctx.storeAsnClaim
  revert hs hcap
  cases s.ensureAsnCap c e (s.asnCount + 1) with
  | mk ok s₁ =>
    intro hs hcap
    dsimp only at hs hcap ⊢
    subst hs
    cases ok with
    | false => exact .grown n k
    | true =>
      have hcap := hcap rfl
      simp only [Bool.not_true, Bool.false_eq_true, if_false]
      split
      · rename_i i hi
        obtain ⟨old, hold, hp⟩ := Slots.find_some hi
        simp only [Bool.and_eq_true, Bool.not_eq_true'] at hp
        have := AsnStored.put (c := c) (s := s) n k i 0 old claim hold (P := fun old next =>
          next = claim ∧ (old.valid = true → old.flags.isLocal = false)) ⟨rfl, fun _ => hp.1.2⟩
          (fun h => absurd h (Nat.lt_irrefl 0))
        simpa [hp.1.1] using this
      · split
        · rename_i i hi
          obtain ⟨old, hold, hp⟩ := Slots.find_some hi
          simp only [Bool.not_eq_true'] at hp
          have := AsnStored.put (c := c) (s := s) n k i 0 old claim hold (P := fun old next =>
            next = claim ∧ (old.valid = true → old.flags.isLocal = false))
            ⟨rfl, fun h => by rw [hp] at h; cases h⟩ (fun h => absurd h (Nat.lt_irrefl 0))
          simpa [hp] using this
        · rename_i hfull
          split
          · rename_i i hi
            obtain ⟨b, hb, -⟩ | ⟨d, old, rfl, hold, hl⟩ := asnReplaceScan_cases hi
            · cases hb
            · rw [Nat.zero_add]
              have hall : ∀ a ∈ s.asns ++ List.replicate n (AsnClaim.zero c), a.valid = true := by
                intro a ha
                simpa using List.findIdx?_eq_none_iff.mp hfull a ha
              have hv := hall old (List.mem_of_getElem? hold)
              have := AsnStored.put (c := c) (s := s) n k d 1 old claim hold (P := fun old next =>
                next = claim ∧ (old.valid = true → old.flags.isLocal = false)) ⟨rfl, hl⟩
                (fun _ => ⟨hv, by omega, hall⟩)
              simpa [hv] using this
          · exact .grown n k

theorem AsnStored.refl (P : AsnClaim K → AsnClaim K → Prop) (s : Ctx K) : AsnStored c P s s := by
  have := AsnStored.grown (c := c) (P := P) (s := s) 0 s.allocs
  rwa [List.replicate_zero, List.append_nil] at this

variable [DecidableEq K]

theorem readAsnAdv_made {e : Env} {sourceKey : K} {entry : AsnAdv K} {claim : AsnClaim K}
    (identity : Option (K × K)) (h : readAsnAdv c e sourceKey entry = some claim) :
    claim.Made c identity ∧ claim.valid = true ∧ claim.flags.isLocal = false := by
  unfold readAsnAdv at h
  dsimp only at h
  split at h
  · cases h
  · split at h
    · cases h
    · rename_i hd
      have hd := not_not.mp hd
      split at h
      · split at h
        · cases h
        · rename_i hle
          cases h
          refine ⟨AsnClaim.measured_made hle hd (fun hl => by cases hl), ?_, ?_⟩
          all_goals
            unfold AsnClaim.measured
            dsimp only
            split
            all_goals rfl
      · cases h

/-- A claim of the node's own goes to a free slot or over another of them. -/
def OwnSlot (identity : Option (K × K)) (old next : AsnClaim K) : Prop :=
  next.Made c identity ∧ next.valid = true ∧ (old.valid = true → old.flags.isLocal = true)

/-- Either the table only grew, or a slot was overwritten and the marks set anew. -/
def OwnPlaced (identity : Option (K × K)) (s s' : Ctx K) : Prop :=
  (∃ n k, s' = { s with asns := s.asns ++ List.replicate n (AsnClaim.zero c), allocs := k }) ∨
    ∃ s₁, AsnStored c (OwnSlot c identity) s s₁ ∧ s' = s₁.recomputeAsnConflicts

theorem OwnPlaced.refl (identity : Option (K × K)) (s : Ctx K) : OwnPlaced c identity s s :=
  .inl ⟨0, s.allocs, by simp⟩

theorem placeAsnClaim_cases (s : Ctx K) (e : Env) {identity : Option (K × K)} {next : AsnClaim K}
    (hmade : next.Made c identity) (hv : next.valid = true) :
    OwnPlaced c identity s (s.placeAsnClaim c e next).2 := by
  obtain ⟨n, k, hs, -⟩ := ensureAsnCap_cases c s e (s.asnCount + 1)
  unfold Ctx.placeAsnClaim
  revert hs
  cases s.ensureAsnCap c e (s.asnCount + 1) with
  | mk ok s₁ =>
    intro hs
    dsimp only at hs ⊢
    subst hs
    have hgrown : OwnPlaced c identity s
        { s with asns := s.asns ++ List.replicate n (AsnClaim.zero c), allocs := k } :=
      .inl ⟨n, k, rfl⟩
    have hput := fun i old hold hown => AsnStored.put (c := c) (s := s) (P := OwnSlot c identity)
      n k i 0 old next hold ⟨hmade, hv, hown⟩ fun h => absurd h (Nat.lt_irrefl 0)
    cases ok with
    | false => exact hgrown
    | true =>
      simp only [Bool.not_true, Bool.false_eq_true, if_false]
      split
      · rename_i i hi
        split
        · obtain ⟨old, hold, hp⟩ := Slots.find_some hi
          simp only [Bool.and_eq_true] at hp
          exact .inr ⟨_, hput i old hold fun _ => hp.1.2, by simp [hp.1.1]⟩
        · exact hgrown
      · split
        · exact hgrown
        · rename_i i hi
          obtain ⟨old, hold, hp⟩ := Slots.find_some hi
          simp only [Bool.not_eq_true'] at hp
          exact .inr ⟨_, hput i old hold fun h => absurd h (by simp [hp]), by simp [hp]⟩

theorem AsnClaim.ofIdentity_made {claim : AsnClaim K} {e : Env} {id : K × K}
    (hle : claim.start ≤ claim.finish) (hd : c.asnFromPublicKey id.2 = some claim.asn) :
    (claim.ofIdentity e id.2).Made c (some id) ∧ (claim.ofIdentity e id.2).valid = true := by
  constructor
  · exact AsnClaim.measured_made hle hd fun _ => rfl
  · unfold AsnClaim.ofIdentity AsnClaim.measured
    dsimp only
    split
    all_goals rfl

theorem setAsnClaim_cases (s : Ctx K) (e : Env) (claim : AsnClaim K) :
    OwnPlaced c s.identity s (s.setAsnClaim c e claim).2 := by
  unfold Ctx.setAsnClaim
  split
  · rename_i id asn hid hasn
    split
    · exact .refl c _ s
    · rename_i heq
      split
      · exact .refl c _ s
      · rename_i hle
        have hd : c.asnFromPublicKey id.2 = some claim.asn := by
          rw [not_not.mp heq, ← hasn]
          simp [Ctx.localAsnFromIdentity, hid]
        obtain ⟨hmade, hv⟩ := AsnClaim.ofIdentity_made (e := e) c hle hd
        rw [hid]
        exact placeAsnClaim_cases c s e hmade hv
  · exact .refl c _ s

end Ops

section Invariant

variable {K : Type} {c : Crypto K}

theorem Marked.grow {asns : List (AsnClaim K)} (h : Marked asns) (n : Nat) :
    Marked (asns ++ List.replicate n (AsnClaim.zero c)) := by
  have hold : ∀ (i : Nat) (a : AsnClaim K), a.valid = true →
      ((asns ++ List.replicate n (AsnClaim.zero c))[i]? = some a ↔ asns[i]? = some a) := by
    intro i a hv
    by_cases hi : i < asns.length
    · rw [List.getElem?_append_left hi]
    · rw [List.getElem?_append_right (Nat.le_of_not_lt hi), List.getElem?_replicate,
        List.getElem?_eq_none (Nat.le_of_not_lt hi)]
      constructor
      · intro ha
        split at ha
        · cases ha
          cases hv
        · cases ha
      · intro ha
        cases ha
  intro i a ha hv
  obtain ⟨hc, hq⟩ := h i a ((hold i a hv).mp ha) hv
  refine ⟨?_, hq⟩
  rw [hc]
  constructor
  · rintro ⟨j, b, hj, hb, ho⟩
    exact ⟨j, b, hj, (hold j b (AsnClaim.overlaps_iff.mp ho).2.1).mpr hb, ho⟩
  · rintro ⟨j, b, hj, hb, ho⟩
    exact ⟨j, b, hj, (hold j b (AsnClaim.overlaps_iff.mp ho).2.1).mp hb, ho⟩

theorem release_asns (s : Ctx K) :
    s.releaseEmptyTables.asns = s.asns ∨ s.releaseEmptyTables.asns = [] := by
  dsimp only [Ctx.releaseEmptyTables]
  split
  · exact .inr rfl
  · exact .inl rfl

/-- A LOCAL claim, its marks cleared. -/
def AsnClaim.localClaim (a : AsnClaim K) : Option (AsnClaim K) :=
  if a.valid && a.flags.isLocal then some { a with
    conflictCount := 0, flags := { a.flags with conflict := false, quarantine := false } } else none

/-- The LOCAL claim in a slot of the table, up to its marks. -/
def localView (asns : List (AsnClaim K)) (i : Nat) : Option (AsnClaim K) :=
  asns[i]?.bind AsnClaim.localClaim

theorem localClaim_none {a : AsnClaim K} (h : a.valid = true → a.flags.isLocal = false) :
    a.localClaim = none := by
  unfold AsnClaim.localClaim
  cases hv : a.valid with
  | false => rfl
  | true => simp [h hv]

theorem localView_recompute (asns : List (AsnClaim K)) :
    localView (recomputeConflicts asns) = localView asns := by
  funext i
  unfold localView
  rw [recompute_getElem?]
  cases asns[i]? with
  | none => rfl
  | some a =>
    simp only [Option.map_some, Option.bind_some]
    split <;> rfl

theorem localView_grow (asns : List (AsnClaim K)) (n : Nat) :
    localView (asns ++ List.replicate n (AsnClaim.zero c)) = localView asns := by
  funext i
  unfold localView
  by_cases hi : i < asns.length
  · rw [List.getElem?_append_left hi]
  · rw [List.getElem?_append_right (Nat.le_of_not_lt hi), List.getElem?_replicate,
      List.getElem?_eq_none (Nat.le_of_not_lt hi)]
    split <;> rfl

theorem localView_set {asns : List (AsnClaim K)} {i : Nat} {old next : AsnClaim K}
    (hold : asns[i]? = some old) (ho : old.valid = true → old.flags.isLocal = false)
    (hn : next.valid = true → next.flags.isLocal = false) :
    localView (asns.set i next) = localView asns := by
  funext j
  unfold localView
  by_cases hj : j = i
  · subst hj
    rw [List.getElem?_set_self', hold]
    exact (localClaim_none hn).trans (localClaim_none ho).symm
  · rw [List.getElem?_set_ne (Ne.symm hj)]

theorem AsnStored.localView {s s' : Ctx K} {P : AsnClaim K → AsnClaim K → Prop}
    (h : AsnStored c P s s')
    (hP : ∀ old next, P old next → (old.valid = true → old.flags.isLocal = false) ∧
      (next.valid = true → next.flags.isLocal = false)) :
    localView s'.asns = localView s.asns := by
  cases h with
  | grown n k => exact localView_grow s.asns n
  | put n k i l old next hold hput =>
    obtain ⟨ho, hn⟩ := hP old next hput
    exact (localView_set hold ho hn).trans (localView_grow s.asns n)

variable [DecidableEq K]

/-- The claims are well made and marked by their overlaps. -/
structure Owned (c : Crypto K) (s : Ctx K) : Prop where
  made : AllMade c s.identity s.asns
  marks : Marked s.asns

theorem AsnStored.made {s s' : Ctx K} {P : AsnClaim K → AsnClaim K → Prop}
    (h : AsnStored c P s s') (hm : AllMade c s.identity s.asns)
    (hP : ∀ old next, P old next → next.Made c s.identity) :
    AllMade c s.identity s'.asns ∧ s'.identity = s.identity := by
  cases h with
  | grown n k => exact ⟨hm.grow n, rfl⟩
  | put n k i l old next hold hput =>
    exact ⟨(hm.grow n).set i fun _ => hP old next hput, rfl⟩

theorem AllMade.owned {s : Ctx K} (h : AllMade c s.identity s.asns) :
    Owned c s.recomputeAsnConflicts := ⟨h.recompute, recompute_marked s.asns⟩

theorem Owned.release {s : Ctx K} (h : Owned c s) : Owned c s.releaseEmptyTables := by
  constructor
  · obtain heq | heq := release_asns s
    · rw [heq]
      exact h.made
    · rw [heq]
      exact allMade_nil
  · obtain heq | heq := release_asns s
    · rw [heq]
      exact h.marks
    · rw [heq]
      exact marked_nil

theorem Owned.setAsnClaim {s : Ctx K} (h : Owned c s) (e : Env) (claim : AsnClaim K) :
    Owned c (s.setAsnClaim c e claim).2 := by
  obtain ⟨n, k, heq⟩ | ⟨s₁, hst, heq⟩ := setAsnClaim_cases c s e claim
  · rw [heq]
    exact ⟨h.made.grow n, h.marks.grow n⟩
  · obtain ⟨hmade, hid⟩ := hst.made h.made fun _ _ hp => hp.1
    rw [heq]
    exact AllMade.owned (hid ▸ hmade)

theorem Owned.removeAsnClaim {s : Ctx K} (h : Owned c s) (asn : Nat) (start finish : Addr) :
    Owned c (s.removeAsnClaim c asn start finish).2 := by
  unfold Ctx.removeAsnClaim
  split
  · exact h
  · split
    · exact h
    · rename_i i hi
      apply Owned.release
      exact AllMade.owned (h.made.set i fun hv => not_valid_zero c hv)

theorem Owned.removeAsnClaimsForPeer {s : Ctx K} (h : Owned c s) (key : K) :
    Owned c (s.removeAsnClaimsForPeer c key) := by
  unfold Ctx.removeAsnClaimsForPeer
  split
  · exact h
  · dsimp only
    split
    · exact h
    · apply Owned.release
      apply AllMade.owned
      apply h.made.map
      intro a
      split
      · exact .inr rfl
      · exact .inl rfl

/-- What storing one entry of an advertisement keeps. -/
theorem applyAsnEntry_keeps {s : Ctx K} (e : Env) (sourceKey : K) (entry : AsnAdv K)
    (h : AllMade c s.identity s.asns) :
    AllMade c s.identity (s.applyAsnEntry c e sourceKey entry).asns ∧
      (s.applyAsnEntry c e sourceKey entry).identity = s.identity ∧
      localView (s.applyAsnEntry c e sourceKey entry).asns = localView s.asns := by
  unfold Ctx.applyAsnEntry
  split
  · rename_i claim hclaim
    obtain ⟨hmade, -, hl⟩ := readAsnAdv_made c s.identity hclaim
    have hst := storeAsnClaim_cases c s e claim
    obtain ⟨hm, hid⟩ := hst.made h fun _ _ hp => hp.1 ▸ hmade
    exact ⟨hm, hid, hst.localView fun _ _ hp => ⟨hp.2, fun _ => hp.1 ▸ hl⟩⟩
  · exact ⟨h, rfl, rfl⟩

theorem applyAsnEntries_keeps (e : Env) (sourceKey : K) (entries : List (AsnAdv K)) {s : Ctx K}
    (h : AllMade c s.identity s.asns) :
    AllMade c s.identity (entries.foldl (Ctx.applyAsnEntry c e sourceKey) s).asns ∧
      (entries.foldl (Ctx.applyAsnEntry c e sourceKey) s).identity = s.identity ∧
      localView (entries.foldl (Ctx.applyAsnEntry c e sourceKey) s).asns = localView s.asns := by
  induction entries generalizing s with
  | nil => exact ⟨h, rfl, rfl⟩
  | cons entry entries ih =>
    obtain ⟨hm, hid, hl⟩ := applyAsnEntry_keeps e sourceKey entry h
    obtain ⟨hm', hid', hl'⟩ := ih (hid.symm ▸ hm)
    rw [hid] at hm' hid'
    exact ⟨hm', hid', hl'.trans hl⟩

theorem Owned.applyAsnAdv {s : Ctx K} (h : Owned c s) (e : Env) (sourceKey : K)
    (entries : List (AsnAdv K)) :
    Owned c (s.applyAsnAdv c e sourceKey entries) ∧
      localView (s.applyAsnAdv c e sourceKey entries).asns = localView s.asns := by
  obtain ⟨hm, hid, hl⟩ := applyAsnEntries_keeps e sourceKey entries h.made
  exact ⟨AllMade.owned (hid.symm ▸ hm), (localView_recompute _).trans hl⟩

/-- Two claims of different keys that grant ownership share no address. -/
theorem Owned.one_owner {s : Ctx K} (h : Owned c s) {addr : Addr} {key key' : K}
    (hk : s.asnClaimAllowsKeyAddr c key addr = true)
    (hk' : s.asnClaimAllowsKeyAddr c key' addr = true) : key = key' := by
  simp only [Ctx.asnClaimAllowsKeyAddr, AsnClaim.grantsOwnership, Bool.and_eq_true, List.any_eq_true,
    decide_eq_true_eq, Bool.not_eq_true'] at hk hk'
  obtain ⟨-, a, ha, ⟨⟨⟨⟨⟨⟨hva, -⟩, -⟩, hqa⟩, -⟩, -⟩, rfl⟩, hin⟩ := hk
  obtain ⟨-, b, hb, ⟨⟨⟨⟨⟨⟨hvb, -⟩, -⟩, hqb⟩, -⟩, -⟩, rfl⟩, hin'⟩ := hk'
  obtain ⟨i, hi⟩ := List.mem_iff_getElem?.mp ha
  obtain ⟨j, hj⟩ := List.mem_iff_getElem?.mp hb
  by_cases hij : i = j
  · subst hij
    rw [Option.some.inj (hi.symm.trans hj)]
  · obtain ⟨hca, hla⟩ := h.marks i a hi hva
    obtain ⟨hcb, hlb⟩ := h.marks j b hj hvb
    have hla : a.flags.isLocal = true := by
      have hconf := hca.mpr ⟨j, b, Ne.symm hij, hj, AsnClaim.overlaps_of_has hin hin'⟩
      by_contra hne
      rw [hla.mpr ⟨hconf, Bool.eq_false_iff.mpr hne⟩] at hqa
      cases hqa
    have hlb : b.flags.isLocal = true := by
      have hconf := hcb.mpr ⟨i, a, hij, hi, AsnClaim.overlaps_of_has hin' hin⟩
      by_contra hne
      rw [hlb.mpr ⟨hconf, Bool.eq_false_iff.mpr hne⟩] at hqb
      cases hqb
    have hown := (h.made a ha hva).own hla
    have hown' := (h.made b hb hvb).own hlb
    exact Option.some.inj (hown.symm.trans hown')

end Invariant

section Runs

variable {K : Type} [DecidableEq K]

/-- The calls that change the claims. -/
inductive AsnOp (K : Type)
  | setClaim (claim : AsnClaim K)
  | removeClaim (asn : Nat) (start finish : Addr)
  | advertised (sourceKey : K) (entries : List (AsnAdv K))
  | forgetPeer (key : K)

def asnStep (c : Crypto K) (s : Ctx K) : Env × AsnOp K → Ctx K
  | (e, .setClaim claim) => (s.setAsnClaim c e claim).2
  | (_, .removeClaim asn start finish) => (s.removeAsnClaim c asn start finish).2
  | (e, .advertised sourceKey entries) => s.applyAsnAdv c e sourceKey entries
  | (_, .forgetPeer key) => s.removeAsnClaimsForPeer c key

theorem asnStep_owned {c : Crypto K} {s : Ctx K} (h : Owned c s) (op : Env × AsnOp K) :
    Owned c (asnStep c s op) := by
  obtain ⟨e, op⟩ := op
  cases op with
  | setClaim claim => exact h.setAsnClaim e claim
  | removeClaim asn start finish => exact h.removeAsnClaim asn start finish
  | advertised sourceKey entries => exact (h.applyAsnAdv e sourceKey entries).1
  | forgetPeer key => exact h.removeAsnClaimsForPeer key

/-- What is said of the claims in one state. -/
structure ExclusiveOwnership (c : Crypto K) (s : Ctx K) : Prop where
  oneOwner : ∀ addr key key', s.asnClaimAllowsKeyAddr c key addr = true →
    s.asnClaimAllowsKeyAddr c key' addr = true → key = key'
  conflict : ∀ (i : Nat) (a : AsnClaim K), s.asns[i]? = some a → a.valid = true →
    (a.flags.conflict = true ↔ ∃ j b addr, j ≠ i ∧ s.asns[j]? = some b ∧ a.has addr = true ∧
      b.has addr = true)
  quarantine : ∀ a ∈ s.asns, a.valid = true →
    (a.flags.quarantine = true ↔ a.flags.conflict = true ∧ a.flags.isLocal = false)
  ordered : ∀ a ∈ s.asns, a.valid = true → a.start ≤ a.finish
  derived : ∀ a ∈ s.asns, a.valid = true → c.asnFromPublicKey a.sourceKey = some a.asn
  specificity : ∀ a ∈ s.asns, a.valid = true → a.specificity ≤ asnRangeSpecificity a.start a.finish

theorem Owned.exclusive {c : Crypto K} {s : Ctx K} (h : Owned c s) : ExclusiveOwnership c s := by
  constructor
  · intro addr key key'
    exact h.one_owner
  · intro i a hi hv
    rw [(h.marks i a hi hv).1]
    have ha := (h.made a (List.mem_of_getElem? hi) hv).ordered
    constructor
    · rintro ⟨j, b, hj, hb, ho⟩
      have hvb := (AsnClaim.overlaps_iff.mp ho).2.1
      have hb' := (h.made b (List.mem_of_getElem? hb) hvb).ordered
      obtain ⟨addr, hina, hinb⟩ := (AsnClaim.overlaps_iff_shared ha hb').mp ho
      exact ⟨j, b, addr, hj, hb, hina, hinb⟩
    · rintro ⟨j, b, addr, hj, hb, hina, hinb⟩
      exact ⟨j, b, hj, hb, AsnClaim.overlaps_of_has hina hinb⟩
  · intro a ha hv
    obtain ⟨i, hi⟩ := List.mem_iff_getElem?.mp ha
    exact (h.marks i a hi hv).2
  · intro a ha hv
    exact (h.made a ha hv).ordered
  · intro a ha hv
    exact (h.made a ha hv).derived
  · intro a ha hv
    exact (h.made a ha hv).specificity

/-- An advertisement leaves the LOCAL claims as they are, up to the marks. -/
def KeepsLocal (c : Crypto K) (s : Ctx K) (op : Env × AsnOp K) : Prop :=
  ∀ sourceKey entries, op.2 = .advertised sourceKey entries →
    ∀ i, localView (asnStep c s op).asns i = localView s.asns i

/-- From an empty table on, whatever the calls and the advertisements, an address has one owner. -/
theorem asn_ownership_exclusive (c : Crypto K) (s : Ctx K) (ops : List (Env × AsnOp K)) :
    ExclusiveOwnership c (ops.foldl (asnStep c) { s with asns := [], asnCount := 0 }) ∧
      Along (asnStep c) (fun s op => ExclusiveOwnership c s ∧ KeepsLocal c s op)
        { s with asns := [], asnCount := 0 } ops := by
  have hstart : Owned c { s with asns := [], asnCount := 0 } := ⟨allMade_nil, marked_nil⟩
  have hall : Along (asnStep c) (fun _ _ => True) { s with asns := [], asnCount := 0 } ops := by
    generalize { s with asns := [], asnCount := 0 } = s₀
    induction ops generalizing s₀ with
    | nil => trivial
    | cons op ops ih => exact ⟨trivial, ih _⟩
  constructor
  · exact (hall.invariant (I := Owned c) (fun _ op hs _ => asnStep_owned hs op) hstart).exclusive
  · apply hall.ensures (I := Owned c) _ hstart
    intro s op hs _
    refine ⟨asnStep_owned hs op, hs.exclusive, ?_⟩
    intro sourceKey entries hop i
    obtain ⟨e, op⟩ := op
    cases hop
    exact congrFun (hs.applyAsnAdv e sourceKey entries).2 i

end Runs

end Lebirun.Ipv67
