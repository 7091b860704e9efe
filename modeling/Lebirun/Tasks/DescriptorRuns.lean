import Mathlib
import Lebirun.Lib.Run
import Lebirun.Tasks.DescriptorSteps

namespace Lebirun.Tasks.Descriptors
set_option autoImplicit true
open Machine

variable {s s' : State} {p q : Slot} {d e d' e' : Fd} {fds fds' l : List Fd} {t u i j k m n : Nat}

/-- A descriptor for which fork draws an identifier. -/
def forkDraws (d : Fd) : Bool := d.inUse && d.node.isSome && alone d

/-- The draw made for the entry `k` of a table. -/
def forkNum (draws : Nat) (l : List Fd) (k : Nat) : Option Nat :=
  match l[k]? with
  | none => none
  | some d => if forkDraws d then some (draws + (l.take k).countP forkDraws + 1) else none

theorem forkNum_some (h : forkNum m l k = some n) :
    ∃ d, l[k]? = some d ∧ forkDraws d ∧ n = m + (l.take k).countP forkDraws + 1 := by
  rw [forkNum] at h
  split at h
  · cases h
  · rename_i d hd
    split at h
    · rename_i hf
      cases h
      exact ⟨d, hd, hf, rfl⟩
    · cases h

theorem countP_take_lt {f : Fd → Bool} (hd : l[k]? = some d) (hf : f d) (hk : k < j) :
    (l.take k).countP f < (l.take j).countP f := by
  have hnext : (l.take (k + 1)).countP f = (l.take k).countP f + 1 := by
    rw [List.take_add_one, hd, List.countP_append, Option.toList_some, List.countP_singleton, if_pos hf]
  have hsub : (l.take (k + 1)).countP f ≤ (l.take j).countP f :=
    (List.take_sublist_take_left (by omega)).countP_le
  omega

theorem forkNum_range (h : forkNum m l k = some n) : m < n ∧ n ≤ m + l.countP forkDraws := by
  obtain ⟨d, hd, hf, rfl⟩ := forkNum_some h
  have hlt := countP_take_lt hd hf (List.getElem?_eq_some_iff.mp hd).1
  rw [List.take_length] at hlt
  omega

theorem forkNum_distinct (hj : forkNum m l j = some n) (hk : forkNum m l k = some n) : j = k := by
  obtain ⟨d, hd, hf, rfl⟩ := forkNum_some hj
  obtain ⟨e, he, hf', heq⟩ := forkNum_some hk
  obtain hlt | rfl | hlt := Nat.lt_trichotomy j k
  · have := countP_take_lt hd hf hlt
    omega
  · rfl
  · have := countP_take_lt he hf' hlt
    omega

theorem share_self {g : Groups} : (taskFdPositionShare g d d).2.1 = (taskFdPositionShare g d d).2.2 := by
  rw [taskFdPositionShare]
  split
  · rfl
  · split
    · rfl
    · rfl

/-- The child's entries are those of the parent after the copy. -/
theorem forkFds_copies {g : Groups} : (forkFds g l).2.1 = (forkFds g l).2.2 := by
  induction l generalizing g with
  | nil => rfl
  | cons d l ih =>
    simp only [forkFds, List.cons.injEq]
    refine ⟨?_, ih⟩
    split
    · exact share_self
    · rfl

/-- What one entry becomes. -/
theorem forkEntry_spec {g : Groups} (hg : g.seq = groupId g.draws) {r : Groups × Fd × Fd}
    (hr : r = if d.inUse ∧ d.type = .file ∧ d.node.isSome then taskFdPositionShare g d d else (g, d, d)) :
    r.1.draws = g.draws + (if forkDraws d then 1 else 0) ∧ r.1.seq = groupId r.1.draws ∧
      r.2.1.inUse = d.inUse ∧ r.2.1.type = d.type ∧
      Taken (if forkDraws d then some (g.draws + 1) else none) d r.2.1 := by
  by_cases hf : d.inUse ∧ d.type = .file ∧ d.node.isSome
  · have hsame : forkDraws d = alone d := by simp [forkDraws, hf.1, hf.2.2]
    rw [if_pos hf] at hr
    have hshare : Shares g d d r := hr ▸ share_spec hf.2.1 hf.2.1 rfl rfl hg
    rw [hsame]
    exact ⟨hshare.draws, hshare.seq hg, hshare.use.1, hshare.use.2.1, hshare.source⟩
  · have hno : ¬forkDraws d = true := by
      simp only [forkDraws, alone, Bool.and_eq_true, beq_iff_eq]
      intro h
      exact hf ⟨h.1.1, h.2.1, h.1.2⟩
    rw [if_neg hf] at hr
    subst hr
    rw [if_neg hno, if_neg hno]
    exact ⟨rfl, hg, rfl, rfl, Taken.refl⟩

theorem forkFds_spec {g : Groups} (hg : g.seq = groupId g.draws) :
    (forkFds g l).1.draws = g.draws + l.countP forkDraws ∧
      (forkFds g l).1.seq = groupId (forkFds g l).1.draws ∧
      ∀ (k : Nat) (d' : Fd), (forkFds g l).2.1[k]? = some d' → ∃ d, l[k]? = some d ∧
        d'.inUse = d.inUse ∧ d'.type = d.type ∧ Taken (forkNum g.draws l k) d d' := by
  induction l generalizing g with
  | nil => exact ⟨rfl, hg, by simp [forkFds]⟩
  | cons d l ih =>
    rw [forkFds]
    generalize hr : (if d.inUse ∧ d.type = .file ∧ d.node.isSome then taskFdPositionShare g d d
      else (g, d, d)) = r
    obtain ⟨hdraws, hseq, hu, hty, htaken⟩ := forkEntry_spec hg hr.symm
    obtain ⟨ihdraws, ihseq, ihget⟩ := ih hseq
    refine ⟨?_, ihseq, ?_⟩
    · rw [ihdraws, hdraws, List.countP_cons]
      omega
    · intro k d' hk
      cases k with
      | zero =>
        cases hk
        exact ⟨d, rfl, hu, hty, htaken⟩
      | succ k =>
        obtain ⟨e, he, heu, hety, het⟩ := ihget k d' hk
        have hnum : forkNum r.1.draws l k = forkNum g.draws (d :: l) (k + 1) := by
          rw [forkNum, forkNum, List.getElem?_cons_succ, List.take_succ_cons, List.countP_cons, hdraws]
          split
          · rfl
          · rw [show g.draws + (if forkDraws d then 1 else 0) + (l.take k).countP forkDraws + 1 =
              g.draws + ((l.take k).countP forkDraws + if forkDraws d then 1 else 0) + 1 by omega]
        exact ⟨e, he, heu, hety, hnum ▸ het⟩

theorem at_append {child : List Fd} (hs : s'.tasks = s.tasks ++ [child]) :
    s'.at (u, k) = if u = s.tasks.length then child[k]? else s.at (u, k) := by
  rw [State.at, hs]
  by_cases hu : u = s.tasks.length
  · subst hu
    rw [if_pos rfl, List.getElem?_concat_length]
    rfl
  · rw [if_neg hu, State.at]
    dsimp only
    by_cases hlt : u < s.tasks.length
    · rw [List.getElem?_append_left hlt]
    · rw [List.getElem?_eq_none (by simp; omega), List.getElem?_eq_none (by omega)]

/-- The files after a fork: those of the parent, of the child if there is one, and the others. -/
theorem taskFork_source (ht : s.tasks[t]? = some fds) (hearly : fork ≠ .early)
    (hp : Live (taskFork s t fork) (u, k) d') :
    (u = t ∨ u = s.tasks.length) ∧ (forkFds s.groups fds).2.1[k]? = some d' ∨
      u ≠ t ∧ u ≠ s.tasks.length ∧ Live s (u, k) d' := by
  have htlt := (List.getElem?_eq_some_iff.mp ht).1
  obtain ⟨hat, hu, hty⟩ := hp
  rw [taskFork, ht] at hat
  dsimp only at hat
  -- the tasks there were before
  have hold (h : u ≠ s.tasks.length)
      (hat : (⟨s.tasks.set t (forkFds s.groups fds).2.1, (forkFds s.groups fds).1, s.opens⟩ :
        State).at (u, k) = some d') : (u = t ∨ u = s.tasks.length) ∧
          (forkFds s.groups fds).2.1[k]? = some d' ∨
        u ≠ t ∧ u ≠ s.tasks.length ∧ Live s (u, k) d' := by
    rw [at_set ht rfl] at hat
    split at hat
    · rename_i hut
      exact .inl ⟨.inl hut, hat⟩
    · rename_i hut
      exact .inr ⟨hut, h, hat, hu, hty⟩
  cases fork with
  | early => exact absurd rfl hearly
  | late =>
    by_cases hlen : u = s.tasks.length
    · dsimp only at hat
      rw [at_set ht rfl, if_neg (by omega), State.at, List.getElem?_eq_none (by omega)] at hat
      cases hat
    · exact hold hlen hat
  | child =>
    by_cases hlen : u = s.tasks.length
    · dsimp only at hat
      rw [@at_append ⟨s.tasks.set t (forkFds s.groups fds).2.1, (forkFds s.groups fds).1, s.opens⟩ _ _ _ _ rfl,
        if_pos (by rw [List.length_set]; exact hlen), ← forkFds_copies] at hat
      have hgrown : Grown (forkFds s.groups fds).2.1
        ((forkFds s.groups fds).2.1 ++ List.replicate (taskInitFds - fds.length) Fd.zero) := ⟨_, rfl⟩
      exact .inl ⟨.inr hlen, hgrown.used hat hu⟩
    · apply hold hlen
      dsimp only at hat
      rw [@at_append ⟨s.tasks.set t (forkFds s.groups fds).2.1, (forkFds s.groups fds).1, s.opens⟩ _ _ _ _ rfl,
        if_neg (by rw [List.length_set]; exact hlen)] at hat
      exact hat

theorem taskFork_inv (hi : Inv s) (ht : s.tasks[t]? = some fds) (hearly : fork ≠ .early)
    (hy : Young s (fds.countP forkDraws)) :
    Inv (taskFork s t fork) ∧
      (taskFork s t fork).groups.draws = s.groups.draws + fds.countP forkDraws := by
  obtain ⟨hdraws, hseq, hget⟩ := forkFds_spec hi.seq (l := fds)
  have htlt := (List.getElem?_eq_some_iff.mp ht).1
  have hgroups : (taskFork s t fork).groups = (forkFds s.groups fds).1 ∧
      (taskFork s t fork).opens = s.opens := by
    rw [taskFork, ht]
    cases fork with
    | early => exact absurd rfl hearly
    | late => exact ⟨rfl, rfl⟩
    | child => exact ⟨rfl, rfl⟩
  rw [hgroups.1]
  refine ⟨?_, hdraws⟩
  apply @CopyOf.inv s _ (fun p => if p.1 = s.tasks.length then (t, p.2) else p)
    (fun p => if p.1 = t then forkNum s.groups.draws fds p.2 else none)
  · refine ⟨?_, hgroups.2.ge, ?_, ?_, ?_, ?_, ?_⟩
    · rw [hgroups.1]
      exact hseq
    · rw [hgroups.1, hdraws]
      omega
    · intro p n hn
      rw [hgroups.1, hdraws]
      split at hn
      · exact forkNum_range hn
      · cases hn
    · rintro ⟨u, k⟩ ⟨v, j⟩ n hu hv
      dsimp only at hu hv
      split at hu
      · split at hv
        · rename_i hut hvt
          rw [hut, hvt, forkNum_distinct hu hv]
        · cases hv
      · cases hu
    · rintro ⟨u, k⟩ d' hd'
      obtain ⟨hut, hk⟩ | ⟨hut, hul, hold⟩ := taskFork_source ht hearly hd'
      · obtain ⟨d, hd, hdu, hdty, htaken⟩ := hget k d' hk
        have hlive : Live s (t, k) d :=
          ⟨by rw [at_eq ht]; exact hd, hdu ▸ hd'.inUse, hdty ▸ hd'.type⟩
        have hf : (if u = s.tasks.length then (t, k) else (u, k)) = ((t, k) : Slot) := by
          obtain rfl | rfl := hut
          · rw [if_neg htlt.ne]
          · rw [if_pos rfl]
        dsimp only
        rw [hf]
        dsimp only
        rw [if_pos rfl]
        exact ⟨d, hlive, htaken⟩
      · dsimp only
        rw [if_neg hul]
        dsimp only
        rw [if_neg hut]
        exact ⟨d', hold, Taken.refl⟩
    · rintro ⟨u, k⟩ ⟨v, j⟩ d d' e' hd' he' hf hne hd hr
      dsimp only at hf hd ⊢
      -- two slots with one source: one of them is the child's
      have hfu : (if u = s.tasks.length then (t, k) else (u, k)) = ((t, k) : Slot) := by
        by_cases hu : u = s.tasks.length
        · rw [if_pos hu]
        · by_cases hv : v = s.tasks.length
          · rw [if_neg hu, if_pos hv] at hf
            rw [if_neg hu, hf]
            rw [Prod.mk.injEq] at hf
            rw [hf.2]
          · rw [if_neg hu, if_neg hv] at hf
            exact absurd hf hne
      rw [hfu] at hd ⊢
      dsimp only
      rw [if_pos rfl]
      have hfd : fds[k]? = some d := by
        rw [← at_eq ht]
        exact hd.at_eq
      have hdraw : forkDraws d = true := by
        simp [forkDraws, alone, hd.inUse, hd.type, hr, hi.node _ d hd]
      rw [forkNum, hfd]
      dsimp only
      rw [if_pos hdraw]
      rfl
  · exact hi
  · rw [hgroups.1, hdraws, Nat.add_sub_cancel_left]
    exact hy

/-- One opening's files get a new offset; nothing else changes. -/
structure SetTo (s s' : State) (opened : Nat) (v : UInt64) : Prop where
  groups : s'.groups = s.groups
  opens : s'.opens = s.opens
  at_eq : ∀ p, s'.at p = (s.at p).map fun e =>
    if e.inUse ∧ e.type = .file ∧ e.opened = opened then { e with offset := v } else e

theorem SetTo.live (h : SetTo s s' o v) (he : Live s q e) :
    Live s' q { e with offset := if e.opened = o then v else e.offset } := by
  refine ⟨?_, he.inUse, he.type⟩
  rw [h.at_eq, he.at_eq, Option.map_some]
  by_cases ho : e.opened = o
  · rw [if_pos ⟨he.inUse, he.type, ho⟩, if_pos ho]
  · rw [if_neg (fun hc => ho hc.2.2), if_neg ho]

theorem SetTo.source (h : SetTo s s' o v) (he : Live s' q e') :
    ∃ e, Live s q e ∧ e' = { e with offset := if e.opened = o then v else e.offset } := by
  obtain ⟨hat, hu, hty⟩ := he
  rw [h.at_eq, Option.map_eq_some_iff] at hat
  obtain ⟨e, hat, heq⟩ := hat
  have hsame : e'.inUse = e.inUse ∧ e'.type = e.type := by
    rw [← heq]
    split
    · exact ⟨rfl, rfl⟩
    · exact ⟨rfl, rfl⟩
  have hlive : Live s q e := ⟨hat, hsame.1 ▸ hu, hsame.2 ▸ hty⟩
  refine ⟨e, hlive, ?_⟩
  rw [← heq]
  by_cases ho : e.opened = o
  · rw [if_pos ⟨hlive.inUse, hlive.type, ho⟩, if_pos ho]
  · rw [if_neg (fun hc => ho hc.2.2), if_neg ho]

theorem SetTo.trans {s'' : State} (h : SetTo s s' o v) (h' : SetTo s' s'' o w) : SetTo s s'' o w := by
  refine ⟨h'.groups.trans h.groups, h'.opens.trans h.opens, ?_⟩
  intro p
  rw [h'.at_eq, h.at_eq, Option.map_map]
  congr 1
  funext e
  simp only [Function.comp_apply]
  by_cases he : e.inUse ∧ e.type = .file ∧ e.opened = o
  · rw [if_pos he, if_pos (by exact he), if_pos he]
  · rw [if_neg he, if_neg he]

theorem SetTo.inv (h : SetTo s s' o v) (hi : Inv s) : Inv s' := by
  refine ⟨by rw [h.groups]; exact hi.seq, ?_, ?_, ?_, ?_, ?_, ?_⟩
  · intro p d' hd'
    obtain ⟨d, hd, rfl⟩ := h.source hd'
    rw [h.opens]
    exact hi.opened p d hd
  · intro p d' hd'
    obtain ⟨d, hd, rfl⟩ := h.source hd'
    exact hi.node p d hd
  · intro p d' hd'
    obtain ⟨d, hd, rfl⟩ := h.source hd'
    rw [h.groups]
    exact hi.grouped p d hd
  · intro p q d' e' hd' he'
    obtain ⟨d, hd, rfl⟩ := h.source hd'
    obtain ⟨e, he, rfl⟩ := h.source he'
    exact hi.same p q d e hd he
  · intro p q d' e' hd' he'
    obtain ⟨d, hd, rfl⟩ := h.source hd'
    obtain ⟨e, he, rfl⟩ := h.source he'
    exact hi.drawn p q d e hd he
  · intro p q d' e' hd' he' ho
    obtain ⟨d, hd, rfl⟩ := h.source hd'
    obtain ⟨e, he, rfl⟩ := h.source he'
    have ho : d.opened = e.opened := ho
    dsimp only
    rw [ho, hi.offset p q d e hd he ho]

theorem at_modify : (s.modify p f).at q = (s.at q).map fun e => if q = p then f e else e := by
  obtain ⟨t, i⟩ := p
  obtain ⟨u, k⟩ := q
  rw [State.at, State.at, State.modify]
  dsimp only
  rw [List.getElem?_modify]
  cases s.tasks[u]? with
  | none => rfl
  | some fds =>
    by_cases hu : t = u
    · subst hu
      rw [Option.map_eq_map, Option.map_some, if_pos rfl, Option.bind_some, Option.bind_some,
        List.getElem?_modify]
      cases fds[k]? with
      | none => rfl
      | some e =>
        by_cases hk : i = k
        · subst hk
          simp
        · simp [hk, Ne.symm hk]
    · simp [hu, Ne.symm hu]

/-- Setting the position of a file sets it for its group, which is what came from its opening. -/
theorem taskFdPositionSet_setTo (hi : Inv s) (hd : Live s p d) :
    SetTo s (taskFdPositionSet s p v) d.opened v := by
  rw [taskFdPositionSet, hd.at_eq]
  dsimp only
  split
  · rename_i halone
    have hr : d.refCount ≤ 1 := halone.resolve_left (by simp [hd.type])
    refine ⟨rfl, rfl, ?_⟩
    intro q
    rw [at_modify]
    cases he : s.at q with
    | none => rfl
    | some e =>
      simp only [Option.map_some, Option.some.injEq]
      by_cases hq : q = p
      · subst hq
        have hde : d = e := Option.some.inj (hd.at_eq.symm.trans he)
        subst hde
        rw [if_pos rfl, if_pos ⟨hd.inUse, hd.type, rfl⟩]
      · rw [if_neg hq, if_neg]
        rintro ⟨hu, hty, ho⟩
        have hg := (hi.same p q d e hd ⟨he, hu, hty⟩ (Ne.symm hq)).mp ho.symm
        omega
  · rename_i hgroup
    simp only [hd.type, ne_eq, not_true_eq_false, false_or, Nat.not_le] at hgroup
    refine ⟨rfl, rfl, ?_⟩
    intro q
    have hat : ({ s.modify p fun d => { d with offset := v } with
        tasks := (s.modify p fun d => { d with offset := v }).tasks.map fun fds => fds.map fun e =>
          if inGroup d e then { e with offset := v } else e } : State).at q =
        ((s.modify p fun d => { d with offset := v }).at q).map fun e =>
          if inGroup d e then { e with offset := v } else e := by
      rw [State.at, State.at]
      dsimp only
      rw [List.getElem?_map]
      cases (s.modify p fun d => { d with offset := v }).tasks[q.1]? with
      | none => rfl
      | some fds => exact List.getElem?_map
    rw [hat, at_modify]
    cases he : s.at q with
    | none => rfl
    | some e =>
      simp only [Option.map_some, Option.some.injEq]
      by_cases hq : q = p
      · subst hq
        have hde : d = e := Option.some.inj (hd.at_eq.symm.trans he)
        subst hde
        simp [inGroup, hd.inUse, hd.type]
      · rw [if_neg hq]
        by_cases hlive : e.inUse ∧ e.type = .file
        · have hiff := hi.same p q d e hd ⟨he, hlive.1, hlive.2⟩ (Ne.symm hq)
          by_cases ho : e.opened = d.opened
          · have hg := hiff.mp ho.symm
            rw [if_pos (by simp [inGroup, hlive.1, hlive.2, hg.1]), if_pos ⟨hlive.1, hlive.2, ho⟩]
          · have hout : ¬inGroup d e = true := by
              simp only [inGroup, Bool.and_eq_true, beq_iff_eq]
              intro hc
              exact ho (hiff.mpr ⟨hc.2.symm, hgroup⟩).symm
            rw [if_neg hout, if_neg (fun hc => ho hc.2.2)]
        · have hout : ¬inGroup d e = true := by
            simp only [inGroup, Bool.and_eq_true, beq_iff_eq]
            intro hc
            exact hlive hc.1
          rw [if_neg hout, if_neg (fun hc => hlive ⟨hc.1, hc.2.1⟩)]

/-- Nothing is changed where the offset is set to what it was. -/
theorem SetTo.refl (hi : Inv s) (hd : Live s p d) : SetTo s s d.opened d.offset := by
  refine ⟨rfl, rfl, ?_⟩
  intro q
  cases he : s.at q with
  | none => rfl
  | some e =>
    rw [Option.map_some]
    by_cases hc : e.inUse ∧ e.type = .file ∧ e.opened = d.opened
    · rw [if_pos hc, ← hi.offset q p e d ⟨he, hc.1, hc.2.1⟩ hd hc.2.2]
    · rw [if_neg hc]

theorem taskFdPositionAdd_setTo (hi : Inv s) (hd : Live s p d) :
    ∃ w, SetTo s (taskFdPositionAdd s p v) d.opened w := by
  rw [taskFdPositionAdd, hd.at_eq]
  exact ⟨_, taskFdPositionSet_setTo hi hd⟩

theorem taskFdPositionMarkEof_setTo (hi : Inv s) (hd : Live s p d) :
    ∃ w, SetTo s (taskFdPositionMarkEof s p) d.opened w := by
  rw [taskFdPositionMarkEof, hd.at_eq]
  exact ⟨_, taskFdPositionSet_setTo hi hd⟩

theorem fileAt_live (h : fileAt s t fd = some (p, d)) : Live s p d := by
  rw [fileAt] at h
  split at h
  · cases h
  · rename_i fds ht
    split at h
    · cases h
    · rename_i i hidx
      split at h
      · cases h
      · rename_i e he
        split at h
        · rename_i hfile
          cases h
          obtain ⟨-, e, he', hu⟩ := fdIndex_spec hidx
          rw [he] at he'
          cases he'
          exact ⟨by rw [at_eq ht]; exact he, hu, hfile.1⟩
        · cases h

theorem sysRead_setTo (hi : Inv s) (hf : fileAt s t fd = some (p, d)) :
    ∃ v, SetTo s (sysRead s t fd x) d.opened v := by
  have hd := fileAt_live hf
  have hsame : ∃ v, SetTo s s d.opened v := ⟨_, SetTo.refl hi hd⟩
  rw [sysRead, hf]
  dsimp only
  split
  · exact hsame
  · split
    · split
      · exact hsame
      · exact taskFdPositionAdd_setTo hi hd
    · exact hsame
    · split
      · exact hsame
      · split
        · exact hsame
        · split
          · exact hsame
          · split
            · exact hsame
            · rename_i total _
              obtain ⟨v, hadd⟩ : ∃ v, SetTo s (taskFdPositionAdd s p total) d.opened v :=
                taskFdPositionAdd_setTo hi hd
              split
              · obtain ⟨w, hmark⟩ := taskFdPositionMarkEof_setTo (hadd.inv hi) (hadd.live hd)
                exact ⟨w, hadd.trans hmark⟩
              · exact ⟨v, hadd⟩

theorem sysWrite_setTo (hi : Inv s) (hf : fileAt s t fd = some (p, d)) :
    ∃ v, SetTo s (sysWrite s t fd x) d.opened v := by
  have hd := fileAt_live hf
  have hsame : ∃ v, SetTo s s d.opened v := ⟨_, SetTo.refl hi hd⟩
  unfold sysWrite
  rw [hf]
  cases x.work with
  | none => exact hsame
  | some work =>
    dsimp only
    split
    · exact hsame
    · generalize hs' : (if d.flags &&& vfsOAppend ≠ 0 then taskFdPositionSet s p x.length else s) = s'
      obtain ⟨v, happend⟩ : ∃ v, SetTo s s' d.opened v := by
        subst hs'
        split
        · exact ⟨_, taskFdPositionSet_setTo hi hd⟩
        · exact hsame
      split
      · exact ⟨v, happend⟩
      · rename_i total _
        have hlive := happend.live hd
        obtain ⟨w, hadd⟩ : ∃ w, SetTo s' (taskFdPositionAdd s' p total) _ w :=
          taskFdPositionAdd_setTo (happend.inv hi) hlive
        exact ⟨w, happend.trans hadd⟩

theorem sysLseekNew_setTo (hi : Inv s) (hf : fileAt s t fd = some (p, d)) :
    ∃ v, SetTo s (sysLseekNew s t fd offset whence length) d.opened v := by
  have hd := fileAt_live hf
  have hsame : ∃ v, SetTo s s d.opened v := ⟨_, SetTo.refl hi hd⟩
  rw [sysLseekNew, hf]
  dsimp only
  split
  · exact hsame
  · split
    · exact hsame
    · split
      · exact hsame
      · exact ⟨_, taskFdPositionSet_setTo hi hd⟩

/-- The file whose offset a call may move. -/
def moved (s : State) : Event → Option (Slot × Fd)
  | .read t fd _ => fileAt s t fd
  | .write t fd _ => fileAt s t fd
  | .lseek t fd _ _ _ => fileAt s t fd
  | _ => none

theorem moved_setTo (hi : Inv s) (hm : moved s ev = some (p, d)) :
    ∃ v, SetTo s (step s ev) d.opened v := by
  cases ev with
  | read => exact sysRead_setTo hi hm
  | write => exact sysWrite_setTo hi hm
  | lseek => exact sysLseekNew_setTo hi hm
  | «open» => cases hm
  | dup => cases hm
  | dup2 => cases hm
  | fork => cases hm
  | close => cases hm

/-- The number of identifiers a call draws. -/
def draws (s : State) : Event → Nat
  | .dup t oldfd room =>
    match s.tasks[t]? with
    | none => 0
    | some fds =>
      match fdIndex fds oldfd, fdAllocFrom room fds 0 with
      | some i, some _ => if fds[i]?.any alone then 1 else 0
      | _, _ => 0
  | .dup2 t oldfd newfd room =>
    match s.tasks[t]? with
    | none => 0
    | some fds =>
      match fdIndex fds oldfd with
      | none => 0
      | some i =>
        if newfd < 0 ∨ oldfd = newfd then 0
        else if newfd.toNat ≥ fds.length ∧ taskFdEnsureCapacity room fds newfd.toNat = none then 0
        else if fds[i]?.any alone then 1
        else 0
  | .fork t fork =>
    match s.tasks[t]? with
    | none => 0
    | some fds =>
      match fork with
      | .early => 0
      | .late => fds.countP forkDraws
      | .child => fds.countP forkDraws
  | _ => 0

theorem sysDup_inv (hi : Inv s) (hy : Young s (draws s (.dup t fd room))) :
    Inv (sysDup s t fd room) := by
  unfold sysDup
  rw [draws] at hy
  cases ht : s.tasks[t]? with
  | none => exact hi
  | some fds =>
    rw [ht] at hy
    dsimp only at hy ⊢
    cases hidx : fdIndex fds fd with
    | none => exact hi
    | some i =>
      cases halloc : fdAllocFrom room fds 0 with
      | none => exact hi
      | some r =>
        obtain ⟨j, fds'⟩ := r
        rw [hidx, halloc] at hy
        obtain ⟨-, d, hd, hu⟩ := fdIndex_spec hidx
        obtain ⟨hgrow, e, he, hfree⟩ := fdAllocFrom_spec halloc
        have hget := hgrow.get hd
        have hij : i ≠ j := by
          rintro rfl
          rw [hget] at he
          cases he
          rw [hu] at hfree
          cases hfree
        simp only [hd, Option.any_some] at hy
        exact (dupEntry_inv hi ht (fun k d hk hu => hgrow.used hk hu) hget hu hij hy).1

theorem sysDup2_inv (hi : Inv s) (hy : Young s (draws s (.dup2 t fd newfd room))) :
    Inv (sysDup2 s t fd newfd room) := by
  rw [sysDup2]
  rw [draws] at hy
  cases ht : s.tasks[t]? with
  | none => exact hi
  | some fds =>
    rw [ht] at hy
    dsimp only at hy ⊢
    cases hidx : fdIndex fds fd with
    | none => exact hi
    | some i =>
      rw [hidx] at hy
      dsimp only at hy ⊢
      obtain ⟨hfd, d, hd, hu⟩ := fdIndex_spec hidx
      by_cases hneg : newfd < 0
      · rw [if_pos hneg]
        exact hi
      · rw [if_neg hneg]
        split
        · exact hi
        · rename_i fds' hroom
          by_cases heq : fd = newfd
          · rw [if_pos heq]
            exact hi
          · rw [if_neg heq]
            have hgrow : Grown fds fds' := by
              split at hroom
              · exact grown_of_ensureCapacity hroom
              · cases hroom
                exact Grown.refl
            have hij : i ≠ newfd.toNat := by omega
            rw [if_neg (by omega), if_neg] at hy
            · simp only [hd, Option.any_some] at hy
              have hused : ∀ (k : Nat) (d : Fd), (fds'.set newfd.toNat Fd.zero)[k]? = some d →
                  d.inUse = true → fds[k]? = some d := by
                intro k d hk hu
                obtain ⟨-, rfl⟩ | ⟨-, hk⟩ := getElem?_set_or hk
                · cases hu
                · exact hgrow.used hk hu
              have hget : (fds'.set newfd.toNat Fd.zero)[i]? = some d := by
                rw [List.getElem?_set_ne (Ne.symm hij)]
                exact hgrow.get hd
              exact (dupEntry_inv hi ht hused hget hu hij hy).1
            · rintro ⟨hlen, hnone⟩
              rw [if_pos hlen, hnone] at hroom
              cases hroom

theorem sysFork_inv (hi : Inv s) (hy : Young s (draws s (.fork t fork))) : Inv (taskFork s t fork) := by
  cases ht : s.tasks[t]? with
  | none =>
    rw [taskFork, ht]
    exact hi
  | some fds =>
    rw [draws, ht] at hy
    cases fork with
    | early =>
      rw [taskFork, ht]
      exact hi
    | late => exact (taskFork_inv hi ht (by simp) hy).1
    | child => exact (taskFork_inv hi ht (by simp) hy).1

/-- A call that draws no identifier that is in use keeps the invariant. -/
theorem step_inv (hi : Inv s) (hy : Young s (draws s ev)) : Inv (step s ev) := by
  cases ev with
  | «open» => exact sysOpen_inv hi
  | dup => exact sysDup_inv hi hy
  | dup2 => exact sysDup2_inv hi hy
  | fork => exact sysFork_inv hi hy
  | close => exact sysVfsClose_inv hi
  | read t fd x =>
    cases hf : fileAt s t fd with
    | none =>
      rw [step, sysRead, hf]
      exact hi
    | some r =>
      obtain ⟨v, hset⟩ : ∃ v, SetTo s (sysRead s t fd x) r.2.opened v := sysRead_setTo hi hf
      exact hset.inv hi
  | write t fd x =>
    cases hf : fileAt s t fd with
    | none =>
      rw [step]
      unfold sysWrite
      rw [hf]
      exact hi
    | some r =>
      obtain ⟨v, hset⟩ : ∃ v, SetTo s (sysWrite s t fd x) r.2.opened v := sysWrite_setTo hi hf
      exact hset.inv hi
  | lseek t fd offset whence length =>
    cases hf : fileAt s t fd with
    | none =>
      rw [step, sysLseekNew, hf]
      exact hi
    | some r =>
      obtain ⟨v, hset⟩ : ∃ v, SetTo s (sysLseekNew s t fd offset whence length) r.2.opened v :=
        sysLseekNew_setTo hi hf
      exact hset.inv hi

theorem initial_inv : Inv (initial grants) := by
  have hno : ∀ p d, ¬Live (initial grants) p d := by
    rintro ⟨t, i⟩ d ⟨hat, -, hty⟩
    rw [State.at, initial] at hat
    dsimp only at hat
    rw [List.getElem?_map] at hat
    cases hg : grants[t]? with
    | none => simp [hg] at hat
    | some g =>
      have hmem : d ∈ taskInit g := by
        rw [hg, Option.map_some, Option.bind_some] at hat
        exact List.mem_of_getElem? hat
      cases g with
      | false => cases hmem
      | true =>
        simp only [taskInit, if_true, List.mem_cons, List.not_mem_nil, or_false] at hmem
        obtain rfl | rfl | rfl := hmem
        · cases hty
        · cases hty
        · cases hty
  exact ⟨rfl, fun p d h => absurd h (hno p d), fun p d h => absurd h (hno p d),
    fun p d h => absurd h (hno p d), fun p _ d _ h => absurd h (hno p d),
    fun p _ d _ h => absurd h (hno p d), fun p _ d _ h => absurd h (hno p d)⟩

/-- Two open files, or the same one twice, that share their position. -/
def SameGroup (p : Slot) (d : Fd) (q : Slot) (e : Fd) : Prop :=
  p = q ∨ d.refCount = e.refCount ∧ 1 < d.refCount

/-- The files of a state that share a position are those of one opening, identifiers stand for one
draw each, and a call that moves the offset of a file moves it for its group and for nothing else. -/
structure Shared (s : State) : Prop where
  group : ∀ p q d e, Live s p d → Live s q e → (SameGroup p d q e ↔ d.opened = e.opened)
  identifier : ∀ p q d e, Live s p d → Live s q e → d.refCount = e.refCount → 1 < d.refCount →
    d.drawn = e.drawn
  update : ∀ ev p d, moved s ev = some (p, d) → ∃ v, ∀ q e, Live s q e →
    (SameGroup p d q e → Live (step s ev) q { e with offset := v }) ∧
      (¬SameGroup p d q e → Live (step s ev) q e)

theorem Inv.shared (hi : Inv s) : Shared s := by
  have hgroup : ∀ p q d e, Live s p d → Live s q e → (SameGroup p d q e ↔ d.opened = e.opened) := by
    intro p q d e hd he
    by_cases hpq : p = q
    · subst hpq
      rw [hd.unique he]
      exact ⟨fun _ => rfl, fun _ => .inl rfl⟩
    · rw [SameGroup, hi.same p q d e hd he hpq]
      exact ⟨fun h => h.resolve_left hpq, .inr⟩
  refine ⟨hgroup, hi.drawn, ?_⟩
  intro ev p d hm
  obtain ⟨v, hset⟩ := moved_setTo hi hm
  have hd : Live s p d := by
    cases ev with
    | read => exact fileAt_live hm
    | write => exact fileAt_live hm
    | lseek => exact fileAt_live hm
    | «open» => cases hm
    | dup => cases hm
    | dup2 => cases hm
    | fork => cases hm
    | close => cases hm
  refine ⟨v, fun q e he => ?_⟩
  have hlive := hset.live he
  rw [hgroup p q d e hd he]
  constructor
  · intro ho
    rwa [if_pos ho.symm] at hlive
  · intro ho
    rwa [if_neg (fun h => ho h.symm)] at hlive

/-- No identifier drawn by the call was drawn before for a file that is still open: less than a
period of draws has passed since. -/
def Fresh (s : State) (ev : Event) : Prop := Young s (draws s ev)

/-- In a run whose calls draw no identifier that is in use, descriptors share their position just
when they come from one call of open. -/
theorem positions_shared (h : Along step Fresh (initial grants) (l₁ ++ l₂)) :
    Shared (l₁.foldl step (initial grants)) := by
  apply Inv.shared
  apply Along.invariant (fun _ _ hi hy => step_inv hi hy) (along_append.mp h).1
  exact initial_inv

/-- While fewer identifiers were drawn than there are, none is drawn twice. -/
theorem young_of_le (hi : Inv s) (h : s.groups.draws + n ≤ period) : Young s n := by
  refine ⟨by omega, ?_⟩
  intro p d hd hr
  obtain ⟨hpos, -⟩ := hi.grouped p d hd hr
  omega

/-- A file is opened and duplicated. -/
def openTwice : List Event := [.open 0 (some (.file 7 100)) 0 ⟨16, true⟩, .dup 0 3 ⟨16, true⟩]

theorem positions_shared_openTwice : Shared (openTwice.foldl step (initial [true])) := by
  have h₀ : Fresh (initial [true]) (.open 0 (some (.file 7 100)) 0 ⟨16, true⟩) :=
    young_of_le initial_inv (by decide)
  have h₁ : Fresh (step (initial [true]) (.open 0 (some (.file 7 100)) 0 ⟨16, true⟩))
      (.dup 0 3 ⟨16, true⟩) := young_of_le (step_inv initial_inv h₀) (by decide)
  have hrun : Along step Fresh (initial [true]) (openTwice ++ []) := ⟨h₀, h₁, trivial⟩
  exact positions_shared hrun

/-- A file and a copy of it in the slots 3 and 4, and room up to 12. -/
def twoCopies (g : Groups) (opens : Nat) : State :=
  ⟨[[.std .stdin, .std .stdout, .std .stderr, ⟨true, .file, some 7, 0, 0, 2, 0, 1⟩,
    ⟨true, .file, some 7, 0, 0, 2, 0, 1⟩, .zero, .zero, .zero, .zero, .zero, .zero, .zero]], g, opens⟩

def openAgain : Event := .open 0 (some (.file 8 100)) 0 ⟨16, true⟩

/-- Another file is opened, duplicated and closed. -/
def cycle : List Event := [openAgain, .dup 0 5 ⟨16, true⟩, .close 0 5 true, .close 0 6 true]

theorem cycle_run : cycle.foldl step (twoCopies g n) = twoCopies g.draw (n + 1) := rfl

theorem cycles_run :
    (List.replicate k cycle).flatten.foldl step (twoCopies g n) = twoCopies (Groups.draw^[k] g) (n + k) := by
  induction k generalizing g n with
  | zero => rfl
  | succ k ih =>
    rw [List.replicate_succ, List.flatten_cons, List.foldl_append, cycle_run, ih,
      Function.iterate_succ_apply, Nat.add_right_comm, Nat.add_assoc]

theorem iterate_draw {g : Groups} (h : g.seq = groupId g.draws) :
    (Groups.draw^[k] g) = ⟨groupId (g.draws + k), g.draws + k⟩ := by
  induction k with
  | zero => rw [Function.iterate_zero_apply, Nat.add_zero, ← h]
  | succ k ih =>
    have hnext : (Groups.draw ⟨groupId (g.draws + k), g.draws + k⟩).seq = groupId (g.draws + k + 1) :=
      draw_seq rfl
    rw [Function.iterate_succ_apply', ih, ← Nat.add_assoc, ← hnext]
    rfl

/-- The first file is kept open while as many others as there are identifiers left are opened,
duplicated and closed; then one more is opened and duplicated. -/
def longRun : List Event :=
  (openTwice ++ cycle) ++ (List.replicate (period - 2) cycle).flatten ++
    [openAgain, .dup 0 5 ⟨16, true⟩]

/-- The identifier of the last file is that of the first one again. -/
theorem longRun_not_shared : ¬Shared (longRun.foldl step (initial [true])) := by
  have hseq : Groups.draw^[period - 2] ⟨3, 2⟩ = ⟨int32Max, period⟩ := by
    rw [iterate_draw rfl, show 2 + (period - 2) = period by decide]
    rfl
  have hstart : (openTwice ++ cycle).foldl step (initial [true]) = twoCopies ⟨3, 2⟩ 2 := rfl
  rw [longRun, List.foldl_append, List.foldl_append, hstart, cycles_run, hseq]
  have hpos : 0 < 2 + (period - 2) := Nat.add_pos_left Nat.two_pos _
  generalize 2 + (period - 2) = n at hpos
  intro h
  have hfirst : Live ([openAgain, .dup 0 5 ⟨16, true⟩].foldl step (twoCopies ⟨int32Max, period⟩ n))
      (0, 3) ⟨true, .file, some 7, 0, 0, 2, 0, 1⟩ := ⟨rfl, rfl, rfl⟩
  have hlast : Live ([openAgain, .dup 0 5 ⟨16, true⟩].foldl step (twoCopies ⟨int32Max, period⟩ n))
      (0, 5) ⟨true, .file, some 8, 0, 0, 2, n, period + 1⟩ := ⟨rfl, rfl, rfl⟩
  have hopened := (h.group _ _ _ _ hfirst hlast).mp (.inr ⟨rfl, by decide⟩)
  exact absurd hopened hpos.ne

end Lebirun.Tasks.Descriptors
