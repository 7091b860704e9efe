import Mathlib
import Lebirun.Tasks.Descriptors

namespace Lebirun.Tasks.Descriptors
set_option autoImplicit true

variable {s s' : State} {p q : Slot} {d e d' e' : Fd} {m n : Nat}

/-- The number of identifiers there are. -/
abbrev period : Nat := int32Max - 1

/-- The identifier of the draw `n`; the sequence starts at 1. -/
def groupId : Nat → Nat
  | 0 => 1
  | n + 1 => 2 + n % period

theorem draw_seq {g : Groups} (h : g.seq = groupId g.draws) : g.draw.seq = groupId g.draw.draws := by
  rw [Groups.draw, h]
  cases g.draws with
  | zero => rfl
  | succ m =>
    have hp : period = 0x7FFFFFFE ∧ int32Max = 0x7FFFFFFF := ⟨rfl, rfl⟩
    have hlt : m % period < period := Nat.mod_lt _ (by decide)
    rw [groupId, groupId, Nat.add_mod m 1, Nat.mod_eq_of_lt (show 1 < period by decide)]
    by_cases hlast : m % period + 1 = period
    · rw [hlast, Nat.mod_self, if_pos (.inl (by omega))]
    · rw [Nat.mod_eq_of_lt (by omega : m % period + 1 < period), if_neg (by omega)]
      dsimp only
      omega

theorem two_le_groupId (h : 1 ≤ m) : 2 ≤ groupId m := by
  cases m with
  | zero => omega
  | succ m => exact Nat.le_add_right _ _

/-- Draws that are less than a period apart give different identifiers. -/
theorem groupId_ne (hm : 1 ≤ m) (hlt : m < n) (hn : n < m + period) : groupId m ≠ groupId n := by
  obtain ⟨m, rfl⟩ := Nat.exists_eq_add_of_le' hm
  obtain ⟨n, rfl⟩ := Nat.exists_eq_add_of_le' (show 1 ≤ n by omega)
  intro h
  rw [groupId, groupId] at h
  have hmod : n ≡ m [MOD period] := (Nat.add_left_cancel h).symm
  have hdvd := (Nat.modEq_iff_dvd' (by omega)).mp hmod.symm
  have hle := Nat.le_of_dvd (by omega) hdvd
  omega

/-- An open file of the slot `p`. -/
structure Live (s : State) (p : Slot) (d : Fd) : Prop where
  at_eq : s.at p = some d
  inUse : d.inUse = true
  type : d.type = .file

theorem Live.unique (h : Live s p d) (h' : Live s p e) : d = e := by
  have heq := h.at_eq
  rw [h'.at_eq] at heq
  exact (Option.some.inj heq).symm

structure Inv (s : State) : Prop where
  seq : s.groups.seq = groupId s.groups.draws
  opened : ∀ p d, Live s p d → d.opened < s.opens
  node : ∀ p d, Live s p d → d.node.isSome
  grouped : ∀ p d, Live s p d → 1 < d.refCount →
    1 ≤ d.drawn ∧ d.drawn ≤ s.groups.draws ∧ d.refCount = groupId d.drawn
  same : ∀ p q d e, Live s p d → Live s q e → p ≠ q →
    (d.opened = e.opened ↔ d.refCount = e.refCount ∧ 1 < d.refCount)
  drawn : ∀ p q d e, Live s p d → Live s q e → d.refCount = e.refCount → 1 < d.refCount →
    d.drawn = e.drawn
  offset : ∀ p q d e, Live s p d → Live s q e → d.opened = e.opened → d.offset = e.offset

/-- The identifiers of the next `n` draws are different, and no open file has one of them. -/
structure Young (s : State) (n : Nat) : Prop where
  draws : n ≤ period
  live : ∀ p d, Live s p d → 1 < d.refCount → s.groups.draws + n < d.drawn + period

/-- `d'` is a copy of `d`, or `d` itself after the step; `m` is the draw made for `d`. -/
structure Taken (m : Option Nat) (d d' : Fd) : Prop where
  opened : d'.opened = d.opened
  offset : d'.offset = d.offset
  node : d'.node = d.node
  kept : m = none → d'.refCount = d.refCount ∧ d'.drawn = d.drawn
  fresh : ∀ n, m = some n → d.refCount ≤ 1 ∧ d'.refCount = groupId n ∧ d'.drawn = n

theorem Taken.refl : Taken none d d := ⟨rfl, rfl, rfl, fun _ => ⟨rfl, rfl⟩, by simp⟩

/-- The open files of `s'` come from those of `s`: the slot `p` from the slot `f p`, with the draw
`num` for a file that was alone and is copied. -/
structure CopyOf (s s' : State) (f : Slot → Slot) (num : Slot → Option Nat) : Prop where
  seq : s'.groups.seq = groupId s'.groups.draws
  opens : s.opens ≤ s'.opens
  draws : s.groups.draws ≤ s'.groups.draws
  range : ∀ p n, num p = some n → s.groups.draws < n ∧ n ≤ s'.groups.draws
  distinct : ∀ p q n, num p = some n → num q = some n → p = q
  source : ∀ p d', Live s' p d' → ∃ d, Live s (f p) d ∧ Taken (num (f p)) d d'
  sole : ∀ p q d d' e', Live s' p d' → Live s' q e' → f p = f q → p ≠ q → Live s (f p) d →
    d.refCount ≤ 1 → (num (f p)).isSome

/-- An identifier drawn by the step is not one of an open file. -/
theorem CopyOf.fresh_ne (hc : CopyOf s s' f num) (hi : Inv s)
    (hy : Young s (s'.groups.draws - s.groups.draws)) (hn : num p = some n) (hd : Live s q d)
    (hg : 1 < d.refCount) : d.refCount ≠ groupId n := by
  obtain ⟨hlow, hhigh⟩ := hc.range p n hn
  obtain ⟨hpos, hle, hid⟩ := hi.grouped q d hd hg
  have hage := hy.live q d hd hg
  rw [hid]
  exact groupId_ne hpos (by omega) (by omega)

theorem CopyOf.fresh_distinct (hc : CopyOf s s' f num)
    (hy : Young s (s'.groups.draws - s.groups.draws)) (hm : num p = some m) (hn : num q = some n)
    (h : groupId m = groupId n) : p = q := by
  obtain ⟨hml, hmh⟩ := hc.range p m hm
  obtain ⟨hnl, hnh⟩ := hc.range q n hn
  have hdraws := hy.draws
  obtain hlt | rfl | hlt := Nat.lt_trichotomy m n
  · exact absurd h (groupId_ne (by omega) hlt (by omega))
  · exact hc.distinct p q m hm hn
  · exact absurd h.symm (groupId_ne (by omega) hlt (by omega))

/-- The references of two open files after the step agree just when they come from one slot or
were in one group before. -/
theorem CopyOf.same (hc : CopyOf s s' f num) (hi : Inv s)
    (hy : Young s (s'.groups.draws - s.groups.draws)) (hd' : Live s' p d') (he' : Live s' q e')
    (hne : p ≠ q) (hd : Live s (f p) d) (he : Live s (f q) e) (hdt : Taken (num (f p)) d d')
    (het : Taken (num (f q)) e e') :
    (d.opened = e.opened ↔ d'.refCount = e'.refCount ∧ 1 < d'.refCount) ∧
      (d'.refCount = e'.refCount → 1 < d'.refCount → d'.drawn = e'.drawn) := by
  cases hnp : num (f p) with
  | some m =>
    obtain ⟨hd1, hdr, hdd⟩ := hdt.fresh m hnp
    obtain ⟨hlow, -⟩ := hc.range _ m hnp
    have hm2 := two_le_groupId (show 1 ≤ m by omega)
    cases hnq : num (f q) with
    | some n =>
      obtain ⟨-, her, hed⟩ := het.fresh n hnq
      by_cases hpq : f p = f q
      · have hmn : m = n := by
          rw [hpq, hnq] at hnp
          exact (Option.some.inj hnp).symm
        rw [hpq] at hd
        have hde := hd.unique he
        subst hde hmn
        simp only [hdr, her, hdd, hed, true_and, implies_true, and_true, true_iff]
        omega
      · have hid : groupId m ≠ groupId n := fun h => hpq (hc.fresh_distinct hy hnp hnq h)
        have hopen : d.opened ≠ e.opened := by
          intro h
          have hg := (hi.same _ _ d e hd he hpq).mp h
          omega
        rw [hdr, her]
        exact ⟨⟨fun h => absurd h hopen, fun h => absurd h.1 hid⟩, fun h => absurd h hid⟩
    | none =>
      obtain ⟨her, -⟩ := het.kept hnq
      have hpq : f p ≠ f q := by
        intro h
        rw [h, hnq] at hnp
        cases hnp
      have hopen : d.opened ≠ e.opened := by
        intro h
        have hg := (hi.same _ _ d e hd he hpq).mp h
        omega
      have hid : d'.refCount ≠ e'.refCount := by
        rw [hdr, her]
        intro h
        exact hc.fresh_ne hi hy hnp he (by omega) h.symm
      exact ⟨⟨fun h => absurd h hopen, fun h => absurd h.1 hid⟩, fun h => absurd h hid⟩
  | none =>
    obtain ⟨hdr, hdd⟩ := hdt.kept hnp
    by_cases hpq : f p = f q
    · have hsome := hc.sole p q d d' e' hd' he' hpq hne hd
      have hg : 1 < d.refCount := by
        by_contra hle
        have h := hsome (by omega)
        rw [hnp] at h
        cases h
      have hnq : num (f q) = none := by
        rw [← hpq]
        exact hnp
      obtain ⟨her, hed⟩ := het.kept hnq
      have hde := hd.unique (hpq ▸ he)
      subst hde
      rw [hdr, her, hdd, hed]
      exact ⟨⟨fun _ => ⟨rfl, hg⟩, fun _ => rfl⟩, fun _ _ => rfl⟩
    · cases hnq : num (f q) with
      | some n =>
        obtain ⟨he1, her, -⟩ := het.fresh n hnq
        obtain ⟨hlow, -⟩ := hc.range _ n hnq
        have hn2 := two_le_groupId (show 1 ≤ n by omega)
        have hopen : d.opened ≠ e.opened := by
          intro h
          have hg := (hi.same _ _ d e hd he hpq).mp h
          omega
        have hid : d'.refCount ≠ e'.refCount := by
          rw [hdr, her]
          intro h
          exact hc.fresh_ne hi hy hnq hd (by omega) h
        exact ⟨⟨fun h => absurd h hopen, fun h => absurd h.1 hid⟩, fun h => absurd h hid⟩
      | none =>
        obtain ⟨her, hed⟩ := het.kept hnq
        rw [hdr, her, hdd, hed]
        exact ⟨hi.same _ _ d e hd he hpq, hi.drawn _ _ d e hd he⟩

theorem CopyOf.inv (hc : CopyOf s s' f num) (hi : Inv s)
    (hy : Young s (s'.groups.draws - s.groups.draws)) : Inv s' := by
  refine ⟨hc.seq, ?_, ?_, ?_, ?_, ?_, ?_⟩
  · intro p d' hd'
    obtain ⟨d, hd, ht⟩ := hc.source p d' hd'
    rw [ht.opened]
    exact (hi.opened _ d hd).trans_le hc.opens
  · intro p d' hd'
    obtain ⟨d, hd, ht⟩ := hc.source p d' hd'
    rw [ht.node]
    exact hi.node _ d hd
  · intro p d' hd' hg
    obtain ⟨d, hd, ht⟩ := hc.source p d' hd'
    cases hn : num (f p) with
    | some n =>
      obtain ⟨-, hr, hdr⟩ := ht.fresh n hn
      obtain ⟨hlow, hhigh⟩ := hc.range _ n hn
      rw [hr, hdr]
      exact ⟨by omega, hhigh, rfl⟩
    | none =>
      obtain ⟨hr, hdr⟩ := ht.kept hn
      rw [hr] at hg
      obtain ⟨hpos, hle, hid⟩ := hi.grouped _ d hd hg
      rw [hr, hdr]
      exact ⟨hpos, hle.trans hc.draws, hid⟩
  · intro p q d' e' hd' he' hne
    obtain ⟨d, hd, hdt⟩ := hc.source p d' hd'
    obtain ⟨e, he, het⟩ := hc.source q e' he'
    rw [hdt.opened, het.opened]
    exact (hc.same hi hy hd' he' hne hd he hdt het).1
  · intro p q d' e' hd' he' hr hg
    by_cases hne : p = q
    · rw [hne] at hd'
      rw [hd'.unique he']
    · obtain ⟨d, hd, hdt⟩ := hc.source p d' hd'
      obtain ⟨e, he, het⟩ := hc.source q e' he'
      exact (hc.same hi hy hd' he' hne hd he hdt het).2 hr hg
  · intro p q d' e' hd' he' ho
    obtain ⟨d, hd, hdt⟩ := hc.source p d' hd'
    obtain ⟨e, he, het⟩ := hc.source q e' he'
    rw [hdt.opened, het.opened] at ho
    rw [hdt.offset, het.offset]
    exact hi.offset _ _ d e hd he ho

end Lebirun.Tasks.Descriptors
