import Mathlib
import Lebirun.Tasks.DescriptorInv

namespace Lebirun.Tasks.Descriptors
set_option autoImplicit true

variable {s s' : State} {p q : Slot} {d e d' e' : Fd} {fds fds' : List Fd} {t u i j k : Nat}

theorem at_set (ht : s.tasks[t]? = some fds) (hs : s'.tasks = s.tasks.set t fds') :
    s'.at (u, k) = if u = t then fds'[k]? else s.at (u, k) := by
  rw [State.at, hs]
  by_cases hu : u = t
  · subst hu
    have hlt := (List.getElem?_eq_some_iff.mp ht).1
    rw [if_pos rfl, List.getElem?_set_self hlt]
    rfl
  · rw [if_neg hu, List.getElem?_set_ne (Ne.symm hu)]
    rfl

theorem at_eq (ht : s.tasks[t]? = some fds) : s.at (t, k) = fds[k]? := by
  rw [State.at, ht]
  rfl

/-- A table as it was, with unused entries after it. -/
def Grown (fds fds' : List Fd) : Prop := ∃ n, fds' = fds ++ List.replicate n Fd.zero

theorem Grown.refl : Grown fds fds := ⟨0, (List.append_nil fds).symm⟩

/-- No entry in use is added. -/
theorem Grown.used (h : Grown fds fds') (hk : fds'[k]? = some d) (hu : d.inUse = true) :
    fds[k]? = some d := by
  obtain ⟨n, rfl⟩ := h
  rw [List.getElem?_append] at hk
  split at hk
  · exact hk
  · rw [List.getElem?_replicate] at hk
    split at hk
    · cases hk
      cases hu
    · cases hk

theorem Grown.get (h : Grown fds fds') (hk : fds[k]? = some d) : fds'[k]? = some d := by
  obtain ⟨n, rfl⟩ := h
  rw [List.getElem?_append_left (List.getElem?_eq_some_iff.mp hk).1]
  exact hk

theorem grown_of_ensureCapacity (h : taskFdEnsureCapacity room fds minFd = some fds') :
    Grown fds fds' := by
  rw [taskFdEnsureCapacity] at h
  generalize (if room.rlimit > int32Max then int32Max else room.rlimit) = limit at h
  split at h
  · cases h
  · split at h
    · cases h
    · split at h
      · cases h
        exact Grown.refl
      · split at h
        · cases h
        · split at h
          · cases h
            exact ⟨_, rfl⟩
          · cases h

theorem firstFree_spec (h : firstFree fds start = some j) :
    ∃ d, fds[j]? = some d ∧ d.inUse = false := by
  have hj := List.find?_some h
  cases hd : fds[j]? with
  | none => simp [hd] at hj
  | some d => exact ⟨d, rfl, by simpa [hd] using hj⟩

theorem fdAllocFrom_spec (h : fdAllocFrom room fds start = some (j, fds')) :
    Grown fds fds' ∧ ∃ d, fds'[j]? = some d ∧ d.inUse = false := by
  rw [fdAllocFrom] at h
  split at h
  · rename_i hfree
    cases h
    exact ⟨Grown.refl, firstFree_spec hfree⟩
  · split at h
    · cases h
    · rename_i hgrow
      rw [Option.map_eq_some_iff] at h
      obtain ⟨j', hfree, heq⟩ := h
      cases heq
      exact ⟨grown_of_ensureCapacity hgrow, firstFree_spec hfree⟩

theorem fdIndex_spec (h : fdIndex fds fd = some i) :
    fd = i ∧ ∃ d, fds[i]? = some d ∧ d.inUse = true := by
  rw [fdIndex] at h
  split at h
  · cases h
  · split at h
    · rename_i hr hany
      cases h
      cases hd : fds[fd.toNat]? with
      | none => simp [hd] at hany
      | some d => exact ⟨by omega, d, rfl, by simpa [hd] using hany⟩
    · cases h

/-- Files that go are no harm. -/
theorem Inv.sub (hi : Inv s) (hg : s'.groups = s.groups) (ho : s'.opens = s.opens)
    (hl : ∀ p d, Live s' p d → Live s p d) : Inv s' where
  seq := by rw [hg]; exact hi.seq
  opened p d h := by rw [ho]; exact hi.opened p d (hl p d h)
  node p d h := hi.node p d (hl p d h)
  grouped p d h := by rw [hg]; exact hi.grouped p d (hl p d h)
  same p q d e hd he := hi.same p q d e (hl p d hd) (hl q e he)
  drawn p q d e hd he := hi.drawn p q d e (hl p d hd) (hl q e he)
  offset p q d e hd he := hi.offset p q d e (hl p d hd) (hl q e he)

/-- A file that was just opened is in no group and has an opening of its own. -/
theorem Inv.open (hi : Inv s) (hg : s'.groups = s.groups) (ho : s'.opens = s.opens + 1)
    (hl : ∀ q e, Live s' q e → Live s q e ∨
      q = p ∧ e.opened = s.opens ∧ e.refCount = 1 ∧ e.node.isSome) : Inv s' := by
  have hnew : ∀ q e, Live s q e → e.opened ≠ s.opens := fun q e h => (hi.opened q e h).ne
  refine ⟨by rw [hg]; exact hi.seq, ?_, ?_, ?_, ?_, ?_, ?_⟩
  · intro q e he
    obtain h | ⟨-, h, -⟩ := hl q e he
    · have := hi.opened q e h
      omega
    · omega
  · intro q e he
    obtain h | ⟨-, -, -, h⟩ := hl q e he
    · exact hi.node q e h
    · exact h
  · intro q e he hr
    obtain h | ⟨-, -, h, -⟩ := hl q e he
    · rw [hg]
      exact hi.grouped q e h hr
    · omega
  · intro q q' e e' he he' hne
    obtain h | ⟨hq, ho, hr, -⟩ := hl q e he
    · obtain h' | ⟨hq', ho', hr', -⟩ := hl q' e' he'
      · exact hi.same q q' e e' h h' hne
      · have := hnew q e h
        constructor
        · intro heq
          rw [ho'] at heq
          exact absurd heq this
        · omega
    · obtain h' | ⟨hq', -⟩ := hl q' e' he'
      · have := hnew q' e' h'
        constructor
        · intro heq
          rw [ho] at heq
          exact absurd heq.symm this
        · omega
      · exact absurd (hq.trans hq'.symm) hne
  · intro q q' e e' he he' heq hgt
    obtain h | ⟨-, -, hr, -⟩ := hl q e he
    · obtain h' | ⟨-, -, hr', -⟩ := hl q' e' he'
      · exact hi.drawn q q' e e' h h' heq hgt
      · omega
    · omega
  · intro q q' e e' he he' heq
    obtain h | ⟨hq, ho, -⟩ := hl q e he
    · obtain h' | ⟨-, ho', -⟩ := hl q' e' he'
      · exact hi.offset q q' e e' h h' heq
      · rw [ho'] at heq
        exact absurd heq (hnew q e h)
    · obtain h' | ⟨hq', -⟩ := hl q' e' he'
      · rw [ho] at heq
        exact absurd heq.symm (hnew q' e' h')
      · rw [hq] at he
        rw [hq'] at he'
        rw [he.unique he']

/-- A table replaced by one whose entries in use it had before. -/
theorem live_of_set (ht : s.tasks[t]? = some fds) (hs : s'.tasks = s.tasks.set t fds')
    (hk : ∀ (k : Nat) (d : Fd), fds'[k]? = some d → d.inUse = true → fds[k]? = some d) :
    ∀ p d, Live s' p d → Live s p d := by
  rintro ⟨u, k⟩ d ⟨hat, hu, hty⟩
  rw [at_set ht hs] at hat
  split at hat
  · rename_i hut
    subst hut
    exact ⟨by rw [at_eq ht]; exact hk k d hat hu, hu, hty⟩
  · exact ⟨hat, hu, hty⟩

/-- Where the entry `j` of a table is written, the others stay. -/
theorem getElem?_set_or (h : (fds.set j d)[k]? = some e) : k = j ∧ e = d ∨ k ≠ j ∧ fds[k]? = some e := by
  by_cases hkj : k = j
  · left
    subst hkj
    rw [List.getElem?_set_self'] at h
    cases hold : fds[k]? with
    | none => simp [hold] at h
    | some old =>
      simp only [hold, Option.map_eq_map, Option.map_some, Option.some.injEq, Function.const_apply] at h
      exact ⟨rfl, h.symm⟩
  · right
    rw [List.getElem?_set_ne (Ne.symm hkj)] at h
    exact ⟨hkj, h⟩

theorem sysOpen_inv (hi : Inv s) : Inv (sysOpen s t found flags room) := by
  unfold sysOpen
  split
  · rename_i fds found ht
    split
    · exact hi
    · rename_i j fds' halloc
      obtain ⟨hgrow, -⟩ := fdAllocFrom_spec halloc
      apply @Inv.open s _ (t, j) hi
      · rfl
      · rfl
      rintro ⟨u, k⟩ e ⟨hat, hu, hty⟩
      rw [at_set ht rfl] at hat
      split at hat
      · rename_i hut
        subst hut
        obtain ⟨rfl, rfl⟩ | ⟨-, hold⟩ := getElem?_set_or hat
        · right
          cases found with
          | file node length => exact ⟨rfl, rfl, rfl, rfl⟩
          | other type h => exact absurd hty h
        · left
          exact ⟨by rw [at_eq ht]; exact hgrow.used hold hu, hu, hty⟩
      · left
        exact ⟨hat, hu, hty⟩
  · exact hi

theorem reclaim_take : ∃ n, taskFdReclaimUnused grant fds = fds.take n := by
  have hall : ∃ n, fds = fds.take n := ⟨fds.length, (List.take_length).symm⟩
  rw [taskFdReclaimUnused]
  split
  · exact hall
  · dsimp only
    generalize (if (fds.reverse.dropWhile fun d => !d.inUse).length ≤ taskInitFds then taskInitFds
      else (fds.reverse.dropWhile fun d => !d.inUse).length) = newCap
    split
    · exact hall
    · split
      · exact hall
      · split
        · exact hall
        · split
          · exact ⟨_, rfl⟩
          · exact hall

theorem sysVfsClose_inv (hi : Inv s) : Inv (sysVfsClose s t fd grant) := by
  rw [sysVfsClose]
  split
  · exact hi
  · rename_i fds ht
    split
    · exact hi
    · rename_i i hidx
      apply hi.sub
      · rfl
      · rfl
      apply live_of_set ht rfl
      intro k d hk hu
      obtain ⟨n, hn⟩ : ∃ n, taskFdReclaimUnused grant (fds.set i Fd.zero) =
        (fds.set i Fd.zero).take n := reclaim_take
      rw [hn, List.getElem?_take] at hk
      split at hk
      · obtain ⟨rfl, rfl⟩ | ⟨-, hold⟩ := getElem?_set_or hk
        · cases hu
        · exact hold
      · cases hk

/-- A file that is drawn for when it is shared. -/
def alone (d : Fd) : Bool := d.type == .file && decide (d.refCount ≤ 1)

/-- What sharing a file does: the source keeps everything but its group, and the copy is in it. -/
structure Shares (g : Groups) (d c : Fd) (r : Groups × Fd × Fd) : Prop where
  draws : r.1.draws = g.draws + if alone d then 1 else 0
  seq : g.seq = groupId g.draws → r.1.seq = groupId r.1.draws
  use : r.2.1.inUse = d.inUse ∧ r.2.1.type = d.type ∧ r.2.2.inUse = c.inUse ∧ r.2.2.type = c.type
  source : Taken (if alone d then some (g.draws + 1) else none) d r.2.1
  copy : Taken (if alone d then some (g.draws + 1) else none) d r.2.2

theorem share_spec {g : Groups} {c : Fd} (hd : d.type = .file) (hc : c.type = .file)
    (ho : c.opened = d.opened) (hn : c.node = d.node) (hg : g.seq = groupId g.draws) :
    Shares g d c (taskFdPositionShare g d c) := by
  rw [taskFdPositionShare, if_neg (by simp [hd, hc])]
  have hseq := draw_seq hg
  by_cases hr : d.refCount ≤ 1
  · have ha : alone d = true := by simp [alone, hd, hr]
    rw [if_pos hr]
    refine ⟨by rw [if_pos ha]; rfl, fun _ => hseq, ⟨rfl, rfl, rfl, rfl⟩, ?_, ?_⟩
    · rw [if_pos ha]
      refine ⟨rfl, rfl, rfl, by simp, ?_⟩
      intro n hn
      cases hn
      exact ⟨hr, hseq, rfl⟩
    · rw [if_pos ha]
      refine ⟨ho, rfl, hn, by simp, ?_⟩
      intro n hn
      cases hn
      exact ⟨hr, hseq, rfl⟩
  · have ha : ¬alone d = true := by simp [alone, hr]
    rw [if_neg hr]
    refine ⟨by rw [if_neg ha]; rfl, fun h => h, ⟨rfl, rfl, rfl, rfl⟩, ?_, ?_⟩
    · rw [if_neg ha]
      exact Taken.refl
    · rw [if_neg ha]
      exact ⟨ho, rfl, hn, fun _ => ⟨rfl, rfl⟩, by simp⟩

theorem share_other {g : Groups} {c : Fd} (hd : d.type ≠ .file) :
    taskFdPositionShare g d c = (g, d, c) := by
  rw [taskFdPositionShare, if_pos (.inl hd)]

/-- The step of dup and dup2: the slot `(t, j)` becomes a copy of `(t, i)`. -/
theorem dupEntry_inv (hi : Inv s) (ht : s.tasks[t]? = some fds)
    (hk : ∀ (k : Nat) (d : Fd), fds'[k]? = some d → d.inUse = true → fds[k]? = some d)
    (hd : fds'[i]? = some d) (hu : d.inUse = true) (hij : i ≠ j)
    (hy : Young s (if alone d then 1 else 0)) :
    Inv (dupEntry s t fds' i j) ∧ (dupEntry s t fds' i j).groups.draws =
      s.groups.draws + if alone d then 1 else 0 := by
  rw [dupEntry, hd]
  dsimp only
  by_cases hty : d.type = .file
  · have hshare : Shares s.groups d { d with refCount := 1, flags := d.flags &&& ~~~vfsOCloexec } _ :=
      share_spec hty hty rfl rfl hi.seq
    generalize taskFdPositionShare s.groups d _ = r at hshare
    refine ⟨?_, hshare.draws⟩
    have hlive : Live s (t, i) d := ⟨by rw [at_eq ht]; exact hk i d hd hu, hu, hty⟩
    -- where the open files come from
    have hsource : ∀ p d', Live { s with
          tasks := s.tasks.set t ((fds'.set j r.2.2).set i r.2.1), groups := r.1 } p d' →
        (p = (t, i) ∧ d' = r.2.1) ∨ (p = (t, j) ∧ d' = r.2.2) ∨
          p ≠ (t, i) ∧ p ≠ (t, j) ∧ Live s p d' := by
      rintro ⟨u, k⟩ d' ⟨hat, hu', hty'⟩
      rw [at_set ht rfl] at hat
      split at hat
      · rename_i hut
        subst hut
        obtain ⟨rfl, rfl⟩ | ⟨hki, hat⟩ := getElem?_set_or hat
        · exact .inl ⟨rfl, rfl⟩
        · obtain ⟨rfl, rfl⟩ | ⟨hkj, hat⟩ := getElem?_set_or hat
          · exact .inr (.inl ⟨rfl, rfl⟩)
          · refine .inr (.inr ⟨by simpa using hki, by simpa using hkj, ?_, hu', hty'⟩)
            rw [at_eq ht]
            exact hk k d' hat hu'
      · rename_i hut
        exact .inr (.inr ⟨by simp [hut], by simp [hut], hat, hu', hty'⟩)
    have hji : ((t, j) : Slot) ≠ (t, i) := by simpa using Ne.symm hij
    apply @CopyOf.inv s _ (fun p => if p = (t, j) then (t, i) else p)
      (fun p => if p = (t, i) ∧ alone d then some (s.groups.draws + 1) else none)
    · refine ⟨hshare.seq hi.seq, Nat.le_refl _, ?_, ?_, ?_, ?_, ?_⟩
      · dsimp only
        rw [hshare.draws]
        omega
      · intro p n hn
        split at hn
        · rename_i hp
          cases hn
          dsimp only
          rw [hshare.draws, if_pos hp.2]
          omega
        · cases hn
      · intro p q n hp hq
        split at hp
        · split at hq
          · rename_i h₁ h₂
            rw [h₁.1, h₂.1]
          · cases hq
        · cases hp
      · intro p d' hd'
        obtain ⟨rfl, rfl⟩ | ⟨rfl, rfl⟩ | ⟨hpi, hpj, hold⟩ := hsource p d' hd'
        · simp only [if_neg hji.symm, true_and]
          exact ⟨d, hlive, hshare.source⟩
        · simp only [if_true, true_and]
          exact ⟨d, hlive, hshare.copy⟩
        · simp only [if_neg hpj, hpi, false_and, if_false]
          exact ⟨d', hold, Taken.refl⟩
      · intro p q e d' e' hp hq hf hne he hr
        have hpi : (if p = (t, j) then (t, i) else p) = ((t, i) : Slot) := by
          by_cases hpj : p = (t, j)
          · rw [if_pos hpj]
          · by_cases hqj : q = (t, j)
            · rw [hf, if_pos hqj]
            · rw [if_neg hpj, if_neg hqj] at hf
              exact absurd hf hne
        rw [hpi] at he ⊢
        have hed := he.unique hlive
        subst hed
        rw [if_pos ⟨rfl, by simp [alone, hty, hr]⟩]
        rfl
    · exact hi
    · dsimp only
      rw [hshare.draws, Nat.add_sub_cancel_left]
      exact hy
  · have ha : ¬alone d = true := by simp [alone, hty]
    rw [share_other hty, if_neg ha]
    refine ⟨?_, rfl⟩
    apply hi.sub
    · rfl
    · rfl
    · rintro ⟨u, k⟩ d' ⟨hat, hu', hty'⟩
      rw [at_set ht rfl] at hat
      split at hat
      · rename_i hut
        subst hut
        obtain ⟨-, rfl⟩ | ⟨-, hat⟩ := getElem?_set_or hat
        · exact absurd hty' hty
        · obtain ⟨-, rfl⟩ | ⟨-, hat⟩ := getElem?_set_or hat
          · exact absurd hty' hty
          · exact ⟨by rw [at_eq ht]; exact hk k d' hat hu', hu', hty'⟩
      · exact ⟨hat, hu', hty'⟩

end Lebirun.Tasks.Descriptors
