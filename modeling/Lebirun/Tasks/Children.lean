import Lebirun.Lib.Run
import Lebirun.Tasks.Wait

namespace Lebirun.Tasks
set_option autoImplicit true

section Find

variable {s : Sched} {x y : Nat} {f : Task → Task} {t : Task}

theorem find_pid (h : s.find x = some t) : t.pid = x := by
  have hp := List.find?_some h
  simpa using hp

theorem mem_of_find (h : s.find x = some t) : t ∈ s.all := List.mem_of_find?_eq_some h

theorem find_of_mem (hn : (s.all.map Task.pid).Nodup) (ht : t ∈ s.all) : s.find t.pid = some t := by
  unfold Sched.find
  generalize s.all = l at hn ht
  induction l with
  | nil => cases ht
  | cons u l ih =>
    rw [List.map_cons, List.nodup_cons] at hn
    cases List.mem_cons.mp ht with
    | inl h => simp [h]
    | inr h =>
      have hne : ¬ u.pid = t.pid := by
        intro heq
        apply hn.1
        rw [heq]
        exact List.mem_map_of_mem h
      rw [List.find?_cons_of_neg (by simpa using hne)]
      exact ih hn.2 h

theorem find_update (s : Sched) (x : Nat) (hf : ∀ t, (f t).pid = t.pid) (y : Nat) :
    (s.update x f).find y = if y = x then (s.find x).map f else s.find y := by
  have hkey : ∀ t : Task, (if t.pid = x then f t else t).pid = t.pid := by
    intro t
    split
    · exact hf t
    · rfl
  unfold Sched.find Sched.update
  dsimp only
  generalize s.all = l
  induction l with
  | nil => simp
  | cons u l ih =>
    rw [List.map_cons, List.find?_cons, hkey]
    by_cases hy : u.pid = y
    · rw [decide_eq_true hy]
      by_cases hx : y = x
      · rw [if_pos hx, if_pos (hy.trans hx), List.find?_cons_of_pos (by simp [hy, hx])]
        rfl
      · have hux : ¬ u.pid = x := fun h => hx (hy.symm.trans h)
        rw [if_neg hx, if_neg hux, List.find?_cons_of_pos (by simpa using hy)]
    · rw [decide_eq_false hy]
      dsimp only
      rw [ih]
      by_cases hx : y = x
      · rw [if_pos hx, if_pos hx, List.find?_cons_of_neg (by simpa [← hx] using hy)]
      · rw [if_neg hx, if_neg hx, List.find?_cons_of_neg (by simpa using hy)]

theorem map_pid_update (s : Sched) (x : Nat) (hf : ∀ t, (f t).pid = t.pid) :
    (s.update x f).all.map Task.pid = s.all.map Task.pid := by
  unfold Sched.update
  rw [List.map_map]
  apply List.map_congr_left
  intro t _
  dsimp only [Function.comp]
  split
  · exact hf t
  · rfl

end Find

section Invariant

/-- The tasks a reaper holds. -/
def Reap.items : Reap → List Nat
  | .start => []
  | .loop todo keep => todo ++ keep
  | .unlink x todo keep => x :: (todo ++ keep)

/-- A number is on the dead queue, or with somebody who detached it. -/
def Sched.Held (s : Sched) (x : Nat) : Prop := x ∈ s.deadQueue ∨ ∃ a, x ∈ (s.reapers a).items

def Clean (code : BitVec 64) : Prop := code &&& waitBits = 0

instance : Decidable (Clean code) := inferInstanceAs (Decidable (_ = _))

def Sched.reported (s : Sched) (c : Nat) : Prop := c ∈ s.reports.map Prod.fst

/-- What a place in `wait_child` relies on. -/
def Sched.PcOk (s : Sched) (p : Nat) : Pc → Prop
  | .join d g _ | .joinBlocked d g _ => ∃ t, s.find d = some t ∧ childOf p g t = true ∧
      (t.state = .dead → t.waited = false)
  | .mark d code _ => Clean code → ∃ t, s.find d = some t ∧ t.ppid = p ∧ t.state = .dead ∧
      t.waited = false ∧ t.exitCode = code
  | .reaping d code _ => Clean code → (∃ e ∈ s.exits, e.pid = d ∧ e.ppid = p ∧ e.exitCode = code) ∧
      ¬ s.reported d ∧ ∀ t, s.find d = some t → t.waited = true
  | _ => True

/-- A task that died is reported, about to be, without a parent, or still there to be waited for. -/
def Sched.Kept (s : Sched) (e : Task) : Prop :=
  s.reported e.pid ∨ (∃ code nohang, s.pcs e.ppid = .reaping e.pid code nohang ∧ Clean code) ∨
    s.find e.ppid = none ∨ ∃ t, s.find e.pid = some t ∧ t.waited = false

/-- The record of a death matches the task on the lists. -/
def Same (e t : Task) : Prop :=
  e.pid = t.pid ∧ e.ppid = t.ppid ∧ e.pgid = t.pgid ∧ e.exitCode = t.exitCode

structure Inv (s : Sched) : Prop where
  nodup : (s.all.map Task.pid).Nodup
  ids : ∀ x t, s.find x = some t → 0 < x ∧ x < s.nextId ∧ t.ppid < s.nextId
  waited : ∀ x t, s.find x = some t → t.waited = true → t.state = .dead
  died : ∀ x t, s.find x = some t → t.state = .dead → ∃ e ∈ s.exits, Same e t
  ends : ∀ e ∈ s.exits, e.pid < s.nextId ∧ e.ppid < s.nextId ∧ Clean e.exitCode
  stays : ∀ e ∈ s.exits, ∀ t, s.find e.pid = some t → t.state = .dead
  exitsNodup : (s.exits.map Task.pid).Nodup
  kept : ∀ e ∈ s.exits, s.Kept e
  queued : ∀ x t, s.find x = some t → t.state = .dead → s.Held x
  entries : ∀ x, s.Held x → ∀ t, s.find x = some t → t.state = .dead
  heldIds : ∀ x, s.Held x → x < s.nextId
  unlinks : ∀ a x todo keep, s.reapers a = .unlink x todo keep → ∀ t, s.find x = some t →
    t.waited = true ∨ s.find t.ppid = none
  live : ∀ p, s.pcs p ≠ .idle → ∃ me, s.find p = some me ∧ me.state ≠ .dead
  places : ∀ p, s.PcOk p (s.pcs p)
  reports : ∀ c code, (c, code) ∈ s.reports →
    (∃ e ∈ s.exits, e.pid = c ∧ e.exitCode = code) ∧ ∀ t, s.find c = some t → t.waited = true
  reportsNodup : (s.reports.map Prod.fst).Nodup

end Invariant

section Moves

variable {s s' : Sched}

/-- Two records of a task that differ in nothing a wait or a reaper decides by. -/
structure Alike (t t' : Task) : Prop where
  pid : t'.pid = t.pid
  ppid : t'.ppid = t.ppid
  pgid : t'.pgid = t.pgid
  dead : t'.state = .dead ↔ t.state = .dead
  waited : t'.waited = t.waited
  exitCode : t.state = .dead → t'.exitCode = t.exitCode

theorem Alike.refl (t : Task) : Alike t t := ⟨rfl, rfl, rfl, Iff.rfl, rfl, fun _ => rfl⟩

theorem Alike.trans (h : Alike t u) (h' : Alike u v) : Alike t v where
  pid := h'.pid.trans h.pid
  ppid := h'.ppid.trans h.ppid
  pgid := h'.pgid.trans h.pgid
  dead := h'.dead.trans h.dead
  waited := h'.waited.trans h.waited
  exitCode := fun hd => (h'.exitCode (h.dead.mpr hd)).trans (h.exitCode hd)

/-- A step that changes the tasks only within `Alike`. -/
structure Quietly (s s' : Sched) : Prop where
  pids : s'.all.map Task.pid = s.all.map Task.pid
  back : ∀ x t', s'.find x = some t' → ∃ t, s.find x = some t ∧ Alike t t'
  forth : ∀ x t, s.find x = some t → ∃ t', s'.find x = some t' ∧ Alike t t'
  rest : s' = { s with all := s'.all }

theorem Quietly.refl (s : Sched) : Quietly s s where
  pids := rfl
  back := fun _ t h => ⟨t, h, .refl t⟩
  forth := fun _ t h => ⟨t, h, .refl t⟩
  rest := rfl

theorem Quietly.trans (h : Quietly s u) (h' : Quietly u v) : Quietly s v where
  pids := h'.pids.trans h.pids
  back := by
    intro x t' ht'
    obtain ⟨t₁, ht₁, ha'⟩ := h'.back x t' ht'
    obtain ⟨t, ht, ha⟩ := h.back x t₁ ht₁
    exact ⟨t, ht, ha.trans ha'⟩
  forth := by
    intro x t ht
    obtain ⟨t₁, ht₁, ha⟩ := h.forth x t ht
    obtain ⟨t', ht', ha'⟩ := h'.forth x t₁ ht₁
    exact ⟨t', ht', ha.trans ha'⟩
  rest := by
    rw [h'.rest, h.rest]

theorem Quietly.update (hpid : ∀ t, (f t).pid = t.pid)
    (hf : ∀ t, s.find x = some t → Alike t (f t)) : Quietly s (s.update x f) where
  pids := map_pid_update s x hpid
  back := by
    intro y t' ht'
    rw [find_update s x hpid] at ht'
    by_cases hy : y = x
    · rw [if_pos hy] at ht'
      obtain ⟨t, ht, rfl⟩ := Option.map_eq_some_iff.mp ht'
      exact ⟨t, hy ▸ ht, hf t ht⟩
    · rw [if_neg hy] at ht'
      exact ⟨t', ht', .refl t'⟩
  forth := by
    intro y t ht
    rw [find_update s x hpid]
    by_cases hy : y = x
    · subst hy
      exact ⟨f t, by rw [if_pos rfl, ht]; rfl, hf t ht⟩
    · exact ⟨t, by rw [if_neg hy]; exact ht, .refl t⟩
  rest := rfl

theorem Quietly.find_none (h : Quietly s s') (hx : s.find x = none) : s'.find x = none := by
  cases hx' : s'.find x with
  | none => rfl
  | some t' =>
    obtain ⟨t, ht, _⟩ := h.back x t' hx'
    rw [hx] at ht
    cases ht

theorem Alike.childOf (h : Alike t t') (p g : Nat) : childOf p g t' = childOf p g t := by
  unfold Tasks.childOf
  rw [h.ppid, h.pgid]

theorem Alike.same (h : Alike t t') (hd : t.state = .dead) (he : Same e t) : Same e t' := by
  obtain ⟨h₁, h₂, h₃, h₄⟩ := he
  exact ⟨h₁.trans h.pid.symm, h₂.trans h.ppid.symm, h₃.trans h.pgid.symm,
    h₄.trans (h.exitCode hd).symm⟩

theorem Quietly.pcOk (h : Quietly s s') {pc : Pc} (hok : s.PcOk p pc) : s'.PcOk p pc := by
  have hexits : s'.exits = s.exits := by rw [h.rest]
  have hreports : s'.reports = s.reports := by rw [h.rest]
  cases pc with
  | join d g n =>
    obtain ⟨t, ht, hchild, hdead⟩ := hok
    obtain ⟨t', ht', ha⟩ := h.forth d t ht
    exact ⟨t', ht', (ha.childOf p g).trans hchild, fun hd => ha.waited.trans (hdead (ha.dead.mp hd))⟩
  | joinBlocked d g n =>
    obtain ⟨t, ht, hchild, hdead⟩ := hok
    obtain ⟨t', ht', ha⟩ := h.forth d t ht
    exact ⟨t', ht', (ha.childOf p g).trans hchild, fun hd => ha.waited.trans (hdead (ha.dead.mp hd))⟩
  | mark d code n =>
    intro hc
    obtain ⟨t, ht, hp, hd, hw, hcode⟩ := hok hc
    obtain ⟨t', ht', ha⟩ := h.forth d t ht
    exact ⟨t', ht', ha.ppid.trans hp, ha.dead.mpr hd, ha.waited.trans hw, (ha.exitCode hd).trans hcode⟩
  | reaping d code n =>
    intro hc
    obtain ⟨he, hr, hw⟩ := hok hc
    unfold Sched.reported at hr ⊢
    rw [hexits, hreports]
    refine ⟨he, hr, ?_⟩
    intro t' ht'
    obtain ⟨t, ht, ha⟩ := h.back d t' ht'
    exact ha.waited.trans (hw t ht)
  | _ => trivial

theorem Inv.quietly (hs : Inv s) (h : Quietly s s') : Inv s' := by
  have hexits : s'.exits = s.exits := by rw [h.rest]
  have hreports : s'.reports = s.reports := by rw [h.rest]
  have hpcs : s'.pcs = s.pcs := by rw [h.rest]
  have hreapers : s'.reapers = s.reapers := by rw [h.rest]
  have hnext : s'.nextId = s.nextId := by rw [h.rest]
  have hheld : ∀ x, s'.Held x ↔ s.Held x := by
    intro x
    rw [h.rest]
    rfl
  refine ⟨h.pids ▸ hs.nodup, ?_, ?_, ?_, ?_, ?_, ?_, ?_, ?_, ?_, ?_, ?_, ?_, ?_, ?_, ?_⟩
  · intro x t' ht'
    obtain ⟨t, ht, ha⟩ := h.back x t' ht'
    rw [hnext, ha.ppid]
    exact hs.ids x t ht
  · intro x t' ht' hw
    obtain ⟨t, ht, ha⟩ := h.back x t' ht'
    exact ha.dead.mpr (hs.waited x t ht (ha.waited.symm.trans hw))
  · intro x t' ht' hd
    obtain ⟨t, ht, ha⟩ := h.back x t' ht'
    obtain ⟨e, he, hsame⟩ := hs.died x t ht (ha.dead.mp hd)
    exact ⟨e, hexits ▸ he, ha.same (ha.dead.mp hd) hsame⟩
  · rw [hexits, hnext]
    exact hs.ends
  · intro e he t' ht'
    obtain ⟨t, ht, ha⟩ := h.back e.pid t' ht'
    exact ha.dead.mpr (hs.stays e (hexits ▸ he) t ht)
  · exact hexits ▸ hs.exitsNodup
  · intro e he
    rw [hexits] at he
    unfold Sched.Kept Sched.reported
    rw [hreports, hpcs]
    obtain hr | hf | hn | ⟨t, ht, hw⟩ := hs.kept e he
    · exact .inl hr
    · exact .inr (.inl hf)
    · exact .inr (.inr (.inl (h.find_none hn)))
    · obtain ⟨t', ht', ha⟩ := h.forth _ t ht
      exact .inr (.inr (.inr ⟨t', ht', ha.waited.trans hw⟩))
  · intro x t' ht' hd
    obtain ⟨t, ht, ha⟩ := h.back x t' ht'
    exact (hheld x).mpr (hs.queued x t ht (ha.dead.mp hd))
  · intro x hx t' ht'
    obtain ⟨t, ht, ha⟩ := h.back x t' ht'
    exact ha.dead.mpr (hs.entries x ((hheld x).mp hx) t ht)
  · intro x hx
    rw [hnext]
    exact hs.heldIds x ((hheld x).mp hx)
  · intro a x todo keep hr t' ht'
    rw [hreapers] at hr
    obtain ⟨t, ht, ha⟩ := h.back x t' ht'
    rw [ha.waited, ha.ppid]
    exact (hs.unlinks a x todo keep hr t ht).imp id h.find_none
  · intro p hp
    rw [hpcs] at hp
    obtain ⟨me, hme, hd⟩ := hs.live p hp
    obtain ⟨me', hme', ha⟩ := h.forth p me hme
    exact ⟨me', hme', fun hd' => hd (ha.dead.mp hd')⟩
  · intro p
    rw [hpcs]
    exact h.pcOk (hs.places p)
  · intro c code hc
    rw [hreports] at hc
    obtain ⟨he, hw⟩ := hs.reports c code hc
    refine ⟨hexits ▸ he, ?_⟩
    intro t' ht'
    obtain ⟨t, ht, ha⟩ := h.back c t' ht'
    exact ha.waited.trans (hw t ht)
  · exact hreports ▸ hs.reportsNodup

/-- The two records of one death are the same. -/
theorem Inv.exit_unique (hs : Inv s) (he : e ∈ s.exits) (he' : e' ∈ s.exits) (h : e.pid = e'.pid) :
    e = e' := List.inj_on_of_nodup_map hs.exitsNodup he he' h

theorem Inv.unwaited_of_alive (hs : Inv s) (ht : s.find x = some t) (ha : t.state ≠ .dead) :
    t.waited = false := by
  cases hw : t.waited with
  | false => rfl
  | true => exact absurd (hs.waited x t ht hw) ha

/-- A task that is not waited for was not reported. -/
theorem Inv.not_reported (hs : Inv s) (ht : s.find c = some t) (hw : t.waited = false) :
    ¬ s.reported c := by
  intro hr
  obtain ⟨⟨c', code⟩, hmem, rfl⟩ := List.mem_map.mp hr
  have := (hs.reports _ _ hmem).2 t ht
  rw [hw] at this
  cases this

/-- A caller moves on to a place that relies on what holds. -/
theorem Inv.setPc (hs : Inv s) (hlive : pc ≠ .idle → ∃ me, s.find p = some me ∧ me.state ≠ .dead)
    (hok : s.PcOk p pc) (hold : ∀ d code n, s.pcs p = .reaping d code n → ¬ Clean code) :
    Inv (s.setPc p pc) where
  nodup := hs.nodup
  ids := hs.ids
  waited := hs.waited
  died := hs.died
  ends := hs.ends
  stays := hs.stays
  exitsNodup := hs.exitsNodup
  kept := by
    intro e he
    obtain hr | ⟨code, n, hpc, hc⟩ | hrest := hs.kept e he
    · exact .inl hr
    · have hne : e.ppid ≠ p := fun h => hold _ _ _ (h ▸ hpc) hc
      exact .inr (.inl ⟨code, n, by unfold Sched.setPc; dsimp only; rw [if_neg hne, hpc], hc⟩)
    · exact .inr (.inr hrest)
  queued := hs.queued
  entries := hs.entries
  heldIds := hs.heldIds
  unlinks := hs.unlinks
  live := by
    intro q hq
    unfold Sched.setPc at hq
    dsimp only at hq
    by_cases h : q = p
    · rw [if_pos h] at hq
      exact h ▸ hlive hq
    · rw [if_neg h] at hq
      exact hs.live q hq
  places := by
    intro q
    change s.PcOk q (if q = p then pc else s.pcs q)
    by_cases h : q = p
    · rw [if_pos h, h]
      exact hok
    · rw [if_neg h]
      exact hs.places q
  reports := hs.reports
  reportsNodup := hs.reportsNodup

theorem setPc_self (h : s.pcs p = pc) : s.setPc p pc = s := by
  have : (fun q => if q = p then pc else s.pcs q) = s.pcs := by
    funext q
    by_cases hq : q = p
    · rw [if_pos hq, hq, h]
    · rw [if_neg hq]
  unfold Sched.setPc
  rw [this]

theorem childOf_ppid (h : childOf p g t = true) : t.ppid = p := by
  unfold childOf at h
  exact (of_decide_eq_true h).1

/-- A caller takes a dead child that nobody was told of. -/
theorem Inv.take (hs : Inv s) (hme : s.find p = some me) (halive : me.state ≠ .dead)
    (ht : s.find c = some t) (hp : t.ppid = p) (hd : t.state = .dead) (hw : t.waited = false)
    (hold : ∀ d code n, s.pcs p = .reaping d code n → ¬ Clean code) (nohang : Bool) :
    Inv ((s.update c markWaited).setPc p
      (.reaping c t.exitCode nohang)) := by
  have hfind : ∀ y, (s.update c markWaited).find y =
      if y = c then (s.find c).map markWaited else s.find y :=
    find_update s c (f := markWaited) fun _ => rfl
  -- what a task on the lists looked like before
  have hback : ∀ y u, (s.update c markWaited).find y = some u →
      ∃ t, s.find y = some t ∧ u = (if y = c then markWaited t else t) := by
    intro y u hu
    rw [hfind] at hu
    by_cases hy : y = c
    · rw [if_pos hy] at hu
      obtain ⟨t, ht, rfl⟩ := Option.map_eq_some_iff.mp hu
      exact ⟨t, hy ▸ ht, by rw [if_pos hy]⟩
    · rw [if_neg hy] at hu
      exact ⟨u, hu, by rw [if_neg hy]⟩
  have hnone : ∀ y, s.find y = none → (s.update c markWaited).find y = none := by
    intro y hy
    rw [hfind]
    by_cases hyc : y = c
    · rw [if_pos hyc, ← hyc, hy]
      rfl
    · rw [if_neg hyc, hy]
  obtain ⟨e, he, hsame⟩ := hs.died c t ht hd
  obtain ⟨hpid, hppid, _, hcode⟩ := hsame
  have hec : e.pid = c := hpid.trans (find_pid ht)
  have hclean := (hs.ends e he).2.2
  refine ⟨?_, ?_, ?_, ?_, hs.ends, ?_, hs.exitsNodup, ?_, ?_, ?_, hs.heldIds, ?_, ?_, ?_, ?_,
    hs.reportsNodup⟩
  · change ((s.update c markWaited).all.map Task.pid).Nodup
    rw [map_pid_update s c (f := markWaited) fun _ => rfl]
    exact hs.nodup
  · intro y u hu
    obtain ⟨t, ht, rfl⟩ := hback y u hu
    have hids := hs.ids y t ht
    split <;> exact hids
  · intro y u hu hwu
    obtain ⟨t', ht', rfl⟩ := hback y u hu
    by_cases hy : y = c
    · rw [if_pos hy]
      rw [hy, ht] at ht'
      cases ht'
      exact hd
    · rw [if_neg hy] at hwu ⊢
      exact hs.waited y t' ht' hwu
  · intro y u hu hdu
    obtain ⟨t', ht', rfl⟩ := hback y u hu
    by_cases hy : y = c
    · rw [if_pos hy] at hdu ⊢
      exact hs.died y t' ht' hdu
    · rw [if_neg hy] at hdu ⊢
      exact hs.died y t' ht' hdu
  · intro e' he' u hu
    obtain ⟨t', ht', rfl⟩ := hback _ u hu
    have hd' := hs.stays e' he' t' ht'
    split <;> exact hd'
  · intro e' he'
    by_cases hc : e'.pid = c
    · have heq : e' = e := hs.exit_unique he' he (hc.trans hec.symm)
      refine .inr (.inl ⟨t.exitCode, nohang, ?_, hcode ▸ hclean⟩)
      rw [heq, hppid, hp, hec]
      exact if_pos rfl
    · obtain hr | ⟨code, n, hpc, hcl⟩ | hn | ⟨t', ht', hw'⟩ := hs.kept e' he'
      · exact .inl hr
      · have hne : e'.ppid ≠ p := fun h => hold _ _ _ (h ▸ hpc) hcl
        exact .inr (.inl ⟨code, n, (if_neg hne).trans hpc, hcl⟩)
      · exact .inr (.inr (.inl (hnone _ hn)))
      · exact .inr (.inr (.inr ⟨t', (hfind _).trans ((if_neg hc).trans ht'), hw'⟩))
  · intro y u hu hdu
    obtain ⟨t', ht', rfl⟩ := hback y u hu
    by_cases hy : y = c
    · rw [if_pos hy] at hdu
      exact hs.queued y t' ht' hdu
    · rw [if_neg hy] at hdu
      exact hs.queued y t' ht' hdu
  · intro y hy u hu
    obtain ⟨t', ht', rfl⟩ := hback y u hu
    have hd' := hs.entries y hy t' ht'
    split <;> exact hd'
  · intro a y todo keep hr u hu
    obtain ⟨t', ht', rfl⟩ := hback y u hu
    by_cases hy : y = c
    · exact .inl (by rw [if_pos hy]; rfl)
    · rw [if_neg hy]
      exact (hs.unlinks a y todo keep hr t' ht').imp id (hnone _)
  · intro q hq
    have hlive : ∃ me, s.find q = some me ∧ me.state ≠ .dead := by
      by_cases h : q = p
      · exact ⟨me, h ▸ hme, halive⟩
      · exact hs.live q (fun hidle => hq ((if_neg h).trans hidle))
    obtain ⟨mq, hmq, hdq⟩ := hlive
    have hqc : q ≠ c := by
      rintro rfl
      rw [ht] at hmq
      cases hmq
      exact hdq hd
    exact ⟨mq, (hfind q).trans ((if_neg hqc).trans hmq), hdq⟩
  · intro q
    change (s.update c markWaited).PcOk q
      (if q = p then .reaping c t.exitCode nohang else s.pcs q)
    by_cases h : q = p
    · rw [if_pos h]
      intro _
      refine ⟨⟨e, he, hec, (hppid.trans hp).trans h.symm, hcode⟩, hs.not_reported ht hw, ?_⟩
      intro u hu
      obtain ⟨t', _, rfl⟩ := hback c u hu
      rw [if_pos rfl]
      rfl
    · rw [if_neg h]
      -- the child is not one of another caller's
      have hother : ∀ d t', s.find d = some t' → t'.ppid = q → d ≠ c := by
        rintro d t' ht' hq rfl
        rw [ht] at ht'
        cases ht'
        exact h (hq.symm.trans hp)
      have hpc := hs.places q
      generalize s.pcs q = pc at hpc
      cases pc with
      | join d g n =>
        obtain ⟨t', ht', hchild, hdead⟩ := hpc
        have hdc := hother d t' ht' (childOf_ppid hchild)
        exact ⟨t', (hfind d).trans ((if_neg hdc).trans ht'), hchild, hdead⟩
      | joinBlocked d g n =>
        obtain ⟨t', ht', hchild, hdead⟩ := hpc
        have hdc := hother d t' ht' (childOf_ppid hchild)
        exact ⟨t', (hfind d).trans ((if_neg hdc).trans ht'), hchild, hdead⟩
      | mark d code n =>
        intro hcl
        obtain ⟨t', ht', hq, hrest⟩ := hpc hcl
        exact ⟨t', (hfind d).trans ((if_neg (hother d t' ht' hq)).trans ht'), hq, hrest⟩
      | reaping d code n =>
        intro hcl
        obtain ⟨hex, hnr, hwt⟩ := hpc hcl
        refine ⟨hex, hnr, ?_⟩
        intro u hu
        obtain ⟨t', ht', rfl⟩ := hback d u hu
        have hwt' := hwt t' ht'
        split
        · rfl
        · exact hwt'
      | _ => trivial
  · intro c' code hmem
    obtain ⟨hex, hwt⟩ := hs.reports c' code hmem
    refine ⟨hex, ?_⟩
    intro u hu
    obtain ⟨t', ht', rfl⟩ := hback c' u hu
    have hwt' := hwt t' ht'
    split
    · rfl
    · exact hwt'

/-- The end of a call that returns a child: the report of one that terminated. -/
theorem Inv.returned (hs : Inv s) (hpc : s.pcs p = .reaping d code n) :
    Inv ((s.setPc p .idle).log (.returned d code)) := by
  have hplace := hs.places p
  rw [hpc] at hplace
  by_cases hc : Clean code
  · obtain ⟨⟨e, he, hed, hep, hecode⟩, hnr, hwt⟩ := hplace hc
    have hlog : (s.setPc p .idle).log (.returned d code) =
        { s.setPc p .idle with reports := (d, code) :: s.reports } := if_pos hc
    rw [hlog]
    refine ⟨hs.nodup, hs.ids, hs.waited, hs.died, hs.ends, hs.stays, hs.exitsNodup, ?_, hs.queued,
      hs.entries, hs.heldIds, hs.unlinks, ?_, ?_, ?_, ?_⟩
    · intro e' he'
      obtain hr | ⟨code', n', hpc', hc'⟩ | hrest := hs.kept e' he'
      · exact .inl (List.mem_cons_of_mem _ hr)
      · by_cases h : e'.ppid = p
        · rw [h, hpc] at hpc'
          cases hpc'
          exact .inl (List.mem_cons_self ..)
        · exact .inr (.inl ⟨code', n', (if_neg h).trans hpc', hc'⟩)
      · exact .inr (.inr hrest)
    · intro q hq
      by_cases h : q = p
      · exact absurd (if_pos h) hq
      · exact hs.live q fun hidle => hq ((if_neg h).trans hidle)
    · intro q
      change Sched.PcOk _ q (if q = p then .idle else s.pcs q)
      by_cases h : q = p
      · rw [if_pos h]
        trivial
      · rw [if_neg h]
        have hq := hs.places q
        generalize s.pcs q = pc at hq
        cases pc with
        | reaping d' code' n' =>
          intro hcl
          obtain ⟨⟨e', he', hed', hep', hecode'⟩, hnr', hwt'⟩ := hq hcl
          refine ⟨⟨e', he', hed', hep', hecode'⟩, ?_, hwt'⟩
          intro hmem
          cases List.mem_cons.mp hmem with
          | inl heq =>
            have hsame := hs.exit_unique he he' (hed.trans (heq.symm.trans hed'.symm))
            exact h (hep'.symm.trans ((congrArg Task.ppid hsame.symm).trans hep))
          | inr hmem => exact hnr' hmem
        | _ => exact hq
    · intro c' code' hmem
      cases List.mem_cons.mp hmem with
      | inl heq =>
        cases heq
        exact ⟨⟨e, he, hed, hecode⟩, hwt⟩
      | inr hmem => exact hs.reports c' code' hmem
    · rw [List.map_cons, List.nodup_cons]
      exact ⟨hnr, hs.reportsNodup⟩
  · have hlog : (s.setPc p .idle).log (.returned d code) = s.setPc p .idle := if_neg hc
    rw [hlog]
    apply hs.setPc (fun h => absurd rfl h) trivial
    intro d' code' n' hpc'
    rw [hpc] at hpc'
    cases hpc'
    exact hc

theorem find_die (s : Sched) (t : Task) (code : BitVec 64) (y : Nat) :
    (s.die t code).find y =
      if y = t.pid then (s.find t.pid).map (deadWith code) else s.find y :=
  find_update s t.pid (f := deadWith code) (fun _ => rfl) y

/-- A task outside `wait_child` dies. -/
theorem Inv.die (hs : Inv s) (ht : s.find p = some t) (ha : t.state ≠ .dead)
    (hpc : s.pcs p = .idle) (hc : Clean code) : Inv (s.die t code) := by
  have htp : t.pid = p := find_pid ht
  subst htp
  have hw := hs.unwaited_of_alive ht ha
  have hself : (s.die t code).find t.pid = some (deadWith code t) := by
    rw [find_die, if_pos rfl, ht]
    rfl
  have hother : ∀ y, y ≠ t.pid → (s.die t code).find y = s.find y := by
    intro y hy
    rw [find_die, if_neg hy]
  have hnone : ∀ y, s.find y = none → (s.die t code).find y = none := by
    intro y hy
    have hne : y ≠ t.pid := by
      rintro rfl
      rw [ht] at hy
      cases hy
    rw [hother y hne, hy]
  -- nobody recorded an earlier death under its number
  have hfresh : ∀ e ∈ s.exits, e.pid ≠ t.pid := fun e he heq => ha (hs.stays e he t (heq ▸ ht))
  have hheld : ∀ y, (s.die t code).Held y ↔ y = t.pid ∨ s.Held y := by
    intro y
    unfold Sched.Held Sched.die
    dsimp only
    rw [List.mem_cons, or_assoc]
    rfl
  have hback : ∀ y u, (s.die t code).find y = some u → y ≠ t.pid → s.find y = some u := by
    intro y u hu hy
    rw [← hother y hy]
    exact hu
  refine ⟨?_, ?_, ?_, ?_, ?_, ?_, ?_, ?_, ?_, ?_, ?_, ?_, ?_, ?_, ?_, hs.reportsNodup⟩
  · change ((s.update t.pid (deadWith code)).all.map Task.pid).Nodup
    rw [map_pid_update s t.pid (f := deadWith code) fun _ => rfl]
    exact hs.nodup
  · intro y u hu
    by_cases hy : y = t.pid
    · subst hy
      rw [hself] at hu
      cases hu
      exact hs.ids t.pid t ht
    · exact hs.ids y u (hback y u hu hy)
  · intro y u hu hwu
    by_cases hy : y = t.pid
    · subst hy
      rw [hself] at hu
      cases hu
      rfl
    · exact hs.waited y u (hback y u hu hy) hwu
  · intro y u hu hdu
    by_cases hy : y = t.pid
    · subst hy
      rw [hself] at hu
      cases hu
      exact ⟨deadWith code t, List.mem_cons_self .., rfl, rfl, rfl, rfl⟩
    · obtain ⟨e, he, hsame⟩ := hs.died y u (hback y u hu hy) hdu
      exact ⟨e, List.mem_cons_of_mem _ he, hsame⟩
  · intro e he
    cases List.mem_cons.mp he with
    | inl heq =>
      subst heq
      have hids := hs.ids t.pid t ht
      exact ⟨hids.2.1, hids.2.2, hc⟩
    | inr he => exact hs.ends e he
  · intro e he u hu
    cases List.mem_cons.mp he with
    | inl heq =>
      subst heq
      rw [show (deadWith code t).pid = t.pid from rfl, hself] at hu
      cases hu
      rfl
    | inr he => exact hs.stays e he u (hback _ u hu (hfresh e he))
  · change ((deadWith code t :: s.exits).map Task.pid).Nodup
    rw [List.map_cons, List.nodup_cons]
    refine ⟨?_, hs.exitsNodup⟩
    intro hmem
    obtain ⟨e, he, heq⟩ := List.mem_map.mp hmem
    exact hfresh e he heq
  · intro e he
    cases List.mem_cons.mp he with
    | inl heq =>
      subst heq
      exact .inr (.inr (.inr ⟨deadWith code t, hself, hw⟩))
    | inr he =>
      obtain hr | hf | hn | ⟨u, hu, hwu⟩ := hs.kept e he
      · exact .inl hr
      · exact .inr (.inl hf)
      · exact .inr (.inr (.inl (hnone _ hn)))
      · exact .inr (.inr (.inr ⟨u, (hother _ (hfresh e he)).trans hu, hwu⟩))
  · intro y u hu hdu
    rw [hheld]
    by_cases hy : y = t.pid
    · exact .inl hy
    · exact .inr (hs.queued y u (hback y u hu hy) hdu)
  · intro y hy u hu
    by_cases hyt : y = t.pid
    · subst hyt
      rw [hself] at hu
      cases hu
      rfl
    · cases (hheld y).mp hy with
      | inl h => exact absurd h hyt
      | inr h => exact hs.entries y h u (hback y u hu hyt)
  · intro y hy
    cases (hheld y).mp hy with
    | inl h => exact h ▸ (hs.ids t.pid t ht).2.1
    | inr h => exact hs.heldIds y h
  · intro a y todo keep hr u hu
    by_cases hy : y = t.pid
    · -- a task that is taken off the lists was dead before
      have hheld : s.Held t.pid := .inr ⟨a, by rw [show s.reapers a = _ from hr, hy]; exact List.mem_cons_self ..⟩
      exact absurd (hs.entries t.pid hheld t ht) ha
    · exact (hs.unlinks a y todo keep hr u (hback y u hu hy)).imp id (hnone _)
  · intro q hq
    have hqp : q ≠ t.pid := by
      rintro rfl
      exact hq hpc
    obtain ⟨me, hme, hd⟩ := hs.live q hq
    exact ⟨me, (hother q hqp).trans hme, hd⟩
  · intro q
    have hq := hs.places q
    change (s.die t code).PcOk q (s.pcs q)
    generalize s.pcs q = pc at hq
    have hjoin : ∀ d g, (∃ u, s.find d = some u ∧ childOf q g u = true ∧ (u.state = .dead → u.waited = false)) →
        ∃ u, (s.die t code).find d = some u ∧ childOf q g u = true ∧ (u.state = .dead → u.waited = false) := by
      rintro d g ⟨u, hu, hchild, hdead⟩
      by_cases hd : d = t.pid
      · subst hd
        rw [ht] at hu
        cases hu
        exact ⟨deadWith code t, hself, hchild, fun _ => hw⟩
      · exact ⟨u, (hother d hd).trans hu, hchild, hdead⟩
    cases pc with
    | join d g n => exact hjoin d g hq
    | joinBlocked d g n => exact hjoin d g hq
    | mark d code' n =>
      intro hcl
      obtain ⟨u, hu, hp, hd, hrest⟩ := hq hcl
      have hne : d ≠ t.pid := by
        rintro rfl
        rw [ht] at hu
        cases hu
        exact ha hd
      exact ⟨u, (hother d hne).trans hu, hp, hd, hrest⟩
    | reaping d code' n =>
      intro hcl
      obtain ⟨⟨e, he, hed, hrest⟩, hnr, hwt⟩ := hq hcl
      refine ⟨⟨e, List.mem_cons_of_mem _ he, hed, hrest⟩, hnr, ?_⟩
      intro u hu
      exact hwt u (hback d u hu (hed ▸ hfresh e he))
    | _ => trivial
  · intro c code' hmem
    obtain ⟨⟨e, he, hec, hecode⟩, hwt⟩ := hs.reports c code' hmem
    refine ⟨⟨e, List.mem_cons_of_mem _ he, hec, hecode⟩, ?_⟩
    intro u hu
    exact hwt u (hback c u hu (hec ▸ hfresh e he))

theorem find_add (s : Sched) (t : Task) (y : Nat) :
    (s.add t).find y = if t.pid = y then some t else s.find y := by
  unfold Sched.add Sched.find
  dsimp only
  rw [List.find?_cons]
  by_cases h : t.pid = y
  · simp [h]
  · simp [h]

/-- A task is made, under a number never used. -/
theorem Inv.add (hs : Inv s) (hid : t.pid = s.nextId) (hp : t.ppid < s.nextId)
    (ha : t.state ≠ .dead) (hw : t.waited = false) : Inv (s.add t) := by
  have hnew : s.find s.nextId = none := by
    cases h : s.find s.nextId with
    | none => rfl
    | some u => exact absurd (hs.ids _ u h).2.1 (lt_irrefl _)
  have hpos : 0 < s.nextId := by omega
  have hback : ∀ y u, (s.add t).find y = some u → u = t ∧ y = s.nextId ∨ s.find y = some u ∧ y < s.nextId := by
    intro y u hu
    rw [find_add] at hu
    by_cases h : t.pid = y
    · rw [if_pos h] at hu
      cases hu
      exact .inl ⟨rfl, h.symm.trans hid⟩
    · rw [if_neg h] at hu
      exact .inr ⟨hu, (hs.ids y u hu).2.1⟩
  have hold : ∀ y, y < s.nextId → (s.add t).find y = s.find y := by
    intro y hy
    rw [find_add, if_neg (by omega)]
  have hnone : ∀ y, y < s.nextId → s.find y = none → (s.add t).find y = none := by
    intro y hy h
    rw [hold y hy, h]
  have hkeep : ∀ y u, s.find y = some u → (s.add t).find y = some u := by
    intro y u hu
    rw [hold y (hs.ids y u hu).2.1, hu]
  refine ⟨?_, ?_, ?_, ?_, ?_, ?_, hs.exitsNodup, ?_, ?_, ?_, ?_, ?_, ?_, ?_, ?_, hs.reportsNodup⟩
  · change ((t :: s.all).map Task.pid).Nodup
    rw [List.map_cons, List.nodup_cons]
    refine ⟨?_, hs.nodup⟩
    intro hmem
    obtain ⟨u, hu, heq⟩ := List.mem_map.mp hmem
    have hfind := find_of_mem hs.nodup hu
    rw [heq, hid, hnew] at hfind
    cases hfind
  · intro y u hu
    change 0 < y ∧ y < s.nextId + 1 ∧ u.ppid < s.nextId + 1
    obtain ⟨rfl, rfl⟩ | ⟨hu, _⟩ := hback y u hu
    · omega
    · have := hs.ids y u hu
      omega
  · intro y u hu hwu
    obtain ⟨rfl, rfl⟩ | ⟨hu, _⟩ := hback y u hu
    · rw [hw] at hwu
      cases hwu
    · exact hs.waited y u hu hwu
  · intro y u hu hdu
    obtain ⟨rfl, rfl⟩ | ⟨hu, _⟩ := hback y u hu
    · exact absurd hdu ha
    · exact hs.died y u hu hdu
  · intro e he
    obtain ⟨h₁, h₂, h₃⟩ := hs.ends e he
    exact ⟨Nat.lt_succ_of_lt h₁, Nat.lt_succ_of_lt h₂, h₃⟩
  · intro e he u hu
    rw [hold _ (hs.ends e he).1] at hu
    exact hs.stays e he u hu
  · intro e he
    obtain hr | hf | hn | ⟨u, hu, hwu⟩ := hs.kept e he
    · exact .inl hr
    · exact .inr (.inl hf)
    · exact .inr (.inr (.inl (hnone _ (hs.ends e he).2.1 hn)))
    · exact .inr (.inr (.inr ⟨u, hkeep _ u hu, hwu⟩))
  · intro y u hu hdu
    obtain ⟨rfl, rfl⟩ | ⟨hu, _⟩ := hback y u hu
    · exact absurd hdu ha
    · exact hs.queued y u hu hdu
  · intro y hy u hu
    rw [hold y (hs.heldIds y hy)] at hu
    exact hs.entries y hy u hu
  · intro y hy
    exact Nat.lt_succ_of_lt (hs.heldIds y hy)
  · intro a y todo keep hr u hu
    have hheld : s.Held y :=
      .inr ⟨a, by rw [show s.reapers a = _ from hr]; exact List.mem_cons_self ..⟩
    rw [hold y (hs.heldIds y hheld)] at hu
    exact (hs.unlinks a y todo keep hr u hu).imp id (hnone _ (hs.ids y u hu).2.2)
  · intro q hq
    obtain ⟨me, hme, hd⟩ := hs.live q hq
    exact ⟨me, hkeep q me hme, hd⟩
  · intro q
    have hq := hs.places q
    change (s.add t).PcOk q (s.pcs q)
    generalize s.pcs q = pc at hq
    cases pc with
    | join d g n =>
      obtain ⟨u, hu, hrest⟩ := hq
      exact ⟨u, hkeep d u hu, hrest⟩
    | joinBlocked d g n =>
      obtain ⟨u, hu, hrest⟩ := hq
      exact ⟨u, hkeep d u hu, hrest⟩
    | mark d code' n =>
      intro hcl
      obtain ⟨u, hu, hrest⟩ := hq hcl
      exact ⟨u, hkeep d u hu, hrest⟩
    | reaping d code' n =>
      intro hcl
      obtain ⟨⟨e, he, hed, hrest⟩, hnr, hwt⟩ := hq hcl
      refine ⟨⟨e, he, hed, hrest⟩, hnr, ?_⟩
      intro u hu
      rw [hold d (hed ▸ (hs.ends e he).1)] at hu
      exact hwt u hu
    | _ => trivial
  · intro c code' hmem
    obtain ⟨⟨e, he, hec, hecode⟩, hwt⟩ := hs.reports c code' hmem
    refine ⟨⟨e, he, hec, hecode⟩, ?_⟩
    intro u hu
    rw [hold c (hec ▸ (hs.ends e he).1)] at hu
    exact hwt u hu

/-- The dead tasks change hands between the queue and the reapers; a number of no task may be
dropped. -/
theorem Inv.handOver (hs : Inv s) {dq : List Nat} {reapers : Reaper → Reap}
    (hkeep : ∀ x, s.Held x → (s.find x).isSome →
      Sched.Held { s with deadQueue := dq, reapers := reapers } x)
    (hfrom : ∀ x, Sched.Held { s with deadQueue := dq, reapers := reapers } x → s.Held x)
    (hunlinks : ∀ a x todo keep, reapers a = .unlink x todo keep → ∀ t, s.find x = some t →
      t.waited = true ∨ s.find t.ppid = none) :
    Inv { s with deadQueue := dq, reapers := reapers } where
  nodup := hs.nodup
  ids := hs.ids
  waited := hs.waited
  died := hs.died
  ends := hs.ends
  stays := hs.stays
  exitsNodup := hs.exitsNodup
  kept := hs.kept
  queued := fun x t ht hd => hkeep x (hs.queued x t ht hd) (Option.isSome_of_eq_some ht)
  entries := fun x hx => hs.entries x (hfrom x hx)
  heldIds := fun x hx => hs.heldIds x (hfrom x hx)
  unlinks := hunlinks
  live := hs.live
  places := hs.places
  reports := hs.reports
  reportsNodup := hs.reportsNodup

theorem find_remove (s : Sched) (x y : Nat) : (s.remove x).find y = if y = x then none else s.find y := by
  unfold Sched.remove Sched.find
  dsimp only
  rw [List.find?_filter]
  by_cases h : y = x
  · rw [if_pos h, List.find?_eq_none]
    intro t _
    simp [h]
  · rw [if_neg h]
    congr 1
    funext t
    by_cases ht : t.pid = y
    · simp [ht, h]
    · simp [ht]

/-- A dead task leaves the lists once it was waited for or has no parent. -/
theorem Inv.remove (hs : Inv s) (hd : ∀ t, s.find x = some t → t.state = .dead)
    (hx : ∀ t, s.find x = some t → t.waited = true ∨ s.find t.ppid = none) : Inv (s.remove x) := by
  have hback : ∀ y u, (s.remove x).find y = some u → s.find y = some u := by
    intro y u hu
    rw [find_remove] at hu
    by_cases hy : y = x
    · rw [if_pos hy] at hu
      cases hu
    · rw [if_neg hy] at hu
      exact hu
  have hkeep : ∀ y u, s.find y = some u → y ≠ x → (s.remove x).find y = some u := by
    intro y u hu hy
    rw [find_remove, if_neg hy, hu]
  have hnone : ∀ y, s.find y = none → (s.remove x).find y = none := by
    intro y hy
    rw [find_remove]
    split
    · rfl
    · exact hy
  -- a child that its parent is still to be told of stays
  have hchild : ∀ p d u, s.find d = some u → s.pcs p ≠ .idle → u.ppid = p →
      (u.state = .dead → u.waited = false) → d ≠ x := by
    rintro p d u hu hpc hp hw rfl
    obtain ⟨me, hme, _⟩ := hs.live p hpc
    cases hx u hu with
    | inl h =>
      rw [hw (hd u hu)] at h
      cases h
    | inr h =>
      rw [hp, hme] at h
      cases h
  refine ⟨?_, ?_, ?_, ?_, hs.ends, ?_, hs.exitsNodup, ?_, ?_, ?_, hs.heldIds, ?_, ?_, ?_, ?_,
    hs.reportsNodup⟩
  · exact hs.nodup.sublist ((List.filter_sublist ..).map Task.pid)
  · exact fun y u hu => hs.ids y u (hback y u hu)
  · exact fun y u hu => hs.waited y u (hback y u hu)
  · exact fun y u hu => hs.died y u (hback y u hu)
  · exact fun e he u hu => hs.stays e he u (hback _ u hu)
  · intro e he
    obtain hr | hf | hn | ⟨u, hu, hwu⟩ := hs.kept e he
    · exact .inl hr
    · exact .inr (.inl hf)
    · exact .inr (.inr (.inl (hnone _ hn)))
    · by_cases hex : e.pid = x
      · obtain ⟨e', he', hsame⟩ := hs.died _ u hu (hs.stays e he u hu)
        have heq : e' = e := hs.exit_unique he' he (hsame.1.trans (find_pid hu))
        cases hx u (hex ▸ hu) with
        | inl h =>
          rw [hwu] at h
          cases h
        | inr h =>
          refine .inr (.inr (.inl (hnone _ ?_)))
          rw [← heq, hsame.2.1, h]
      · exact .inr (.inr (.inr ⟨u, hkeep _ u hu hex, hwu⟩))
  · exact fun y u hu => hs.queued y u (hback y u hu)
  · exact fun y hy u hu => hs.entries y hy u (hback y u hu)
  · exact fun a y todo keep hr u hu => (hs.unlinks a y todo keep hr u (hback y u hu)).imp id (hnone _)
  · intro q hq
    obtain ⟨me, hme, hdm⟩ := hs.live q hq
    refine ⟨me, hkeep q me hme ?_, hdm⟩
    rintro rfl
    exact hdm (hd me hme)
  · intro q
    change (s.remove x).PcOk q (s.pcs q)
    have hq := hs.places q
    have hne : ∀ d u, s.find d = some u → s.pcs q ≠ .idle → u.ppid = q →
        (u.state = .dead → u.waited = false) → d ≠ x := hchild q
    generalize s.pcs q = pc at hq hne
    cases pc with
    | join d g n =>
      obtain ⟨u, hu, hc, hw⟩ := hq
      exact ⟨u, hkeep d u hu (hne d u hu (by simp) (childOf_ppid hc) hw), hc, hw⟩
    | joinBlocked d g n =>
      obtain ⟨u, hu, hc, hw⟩ := hq
      exact ⟨u, hkeep d u hu (hne d u hu (by simp) (childOf_ppid hc) hw), hc, hw⟩
    | mark d code' n =>
      intro hcl
      obtain ⟨u, hu, hp, hdu, hw, hcode⟩ := hq hcl
      exact ⟨u, hkeep d u hu (hne d u hu (by simp) hp fun _ => hw), hp, hdu, hw, hcode⟩
    | reaping d code' n =>
      intro hcl
      obtain ⟨he, hnr, hwt⟩ := hq hcl
      exact ⟨he, hnr, fun u hu => hwt u (hback d u hu)⟩
    | _ => trivial
  · intro c code' hmem
    obtain ⟨he, hwt⟩ := hs.reports c code' hmem
    exact ⟨he, fun u hu => hwt u (hback c u hu)⟩

end Moves

section Reapers

variable {s : Sched} {r : Reaper}

theorem held_setReap {x : Nat} {dq : List Nat} {k : Reap} :
    Sched.Held (Sched.setReap { s with deadQueue := dq } r k) x ↔
      x ∈ dq ∨ x ∈ k.items ∨ ∃ a, a ≠ r ∧ x ∈ (s.reapers a).items := by
  unfold Sched.Held Sched.setReap
  dsimp only
  apply or_congr_right
  constructor
  · rintro ⟨a, ha⟩
    by_cases h : a = r
    · rw [if_pos h] at ha
      exact .inl ha
    · rw [if_neg h] at ha
      exact .inr ⟨a, h, ha⟩
  · rintro (h | ⟨a, hne, ha⟩)
    · exact ⟨r, by rw [if_pos rfl]; exact h⟩
    · exact ⟨a, by rw [if_neg hne]; exact ha⟩

theorem held_iff (s : Sched) (r : Reaper) (x : Nat) :
    s.Held x ↔ x ∈ s.deadQueue ∨ x ∈ (s.reapers r).items ∨ ∃ a, a ≠ r ∧ x ∈ (s.reapers a).items := by
  unfold Sched.Held
  apply or_congr_right
  constructor
  · rintro ⟨a, ha⟩
    by_cases h : a = r
    · exact .inl (h ▸ ha)
    · exact .inr ⟨a, h, ha⟩
  · rintro (h | ⟨a, _, ha⟩)
    · exact ⟨r, h⟩
    · exact ⟨a, ha⟩

/-- A reaper changes its place, and the queue with it. -/
theorem Inv.setReap (hs : Inv s) {q : List Nat} {k : Reap}
    (hkeep : ∀ x, x ∈ s.deadQueue ∨ x ∈ (s.reapers r).items → (s.find x).isSome → x ∈ q ∨ x ∈ k.items)
    (hfrom : ∀ x, x ∈ q ∨ x ∈ k.items → x ∈ s.deadQueue ∨ x ∈ (s.reapers r).items)
    (hk : ∀ x todo keep, k = .unlink x todo keep → ∀ t, s.find x = some t →
      t.waited = true ∨ s.find t.ppid = none) :
    Inv (Sched.setReap { s with deadQueue := q } r k) := by
  apply hs.handOver
  · intro x hx hsome
    have hx' := (held_iff s r x).mp hx
    apply (held_setReap (s := s) (r := r)).mpr
    rw [← or_assoc] at hx' ⊢
    exact hx'.imp (fun h => hkeep x h hsome) id
  · intro x hx
    have hx' := (held_setReap (s := s) (r := r)).mp hx
    apply (held_iff s r x).mpr
    rw [← or_assoc] at hx' ⊢
    exact hx'.imp (hfrom x) id
  · intro a x todo keep ha
    by_cases h : a = r
    · rw [if_pos h] at ha
      exact hk x todo keep ha
    · rw [if_neg h] at ha
      exact hs.unlinks a x todo keep ha

/-- What a section of a reaper does. -/
inductive ReapStep (s : Sched) (r : Reaper) : Sched × Bool → Prop
  | empty (hr : s.reapers r = .start) : ReapStep s r (s.setReap r .start, true)
  | detach (hr : s.reapers r = .start) :
    ReapStep s r (Sched.setReap { s with deadQueue := [] } r (.loop s.deadQueue []), false)
  | restore (hr : s.reapers r = .loop [] keep) :
    ReapStep s r (Sched.setReap { s with deadQueue := keep.reverse ++ s.deadQueue } r .start, true)
  | drop (hr : s.reapers r = .loop (x :: todo) keep ∨ s.reapers r = .unlink x todo keep)
    (hx : s.find x = none) : ReapStep s r (s.setReap r (.loop todo keep), false)
  | keep (hr : s.reapers r = .loop (x :: todo) keep ∨ s.reapers r = .unlink x todo keep)
    (hx : s.find x = some t) : ReapStep s r (s.setReap r (.loop todo (x :: keep)), false)
  | release (hr : s.reapers r = .loop (x :: todo) keep) (hx : s.find x = some t)
    (hk : s.keeps t = false) : ReapStep s r (s.setReap r (.unlink x todo keep), false)
  | remove (hr : s.reapers r = .unlink x todo keep) :
    ReapStep s r ((s.remove x).setReap r (.loop todo keep), false)

theorem reapBy_step (s : Sched) (r : Reaper) (released : Bool) : ReapStep s r (s.reapBy r released) := by
  unfold Sched.reapBy
  cases hr : s.reapers r with
  | start =>
    by_cases hq : s.deadQueue = []
    · rw [show s.reap released .start = (s, none) from if_pos hq]
      exact .empty hr
    · rw [show s.reap released .start = ({ s with deadQueue := [] }, some (.loop s.deadQueue [])) from
        if_neg hq]
      exact .detach hr
  | loop todo keep =>
    cases todo with
    | nil => exact .restore hr
    | cons x todo =>
      unfold Sched.reap
      dsimp only
      cases hx : s.find x with
      | none => exact .drop (.inl hr) hx
      | some t =>
        dsimp only
        cases hk : s.keeps t || !released with
        | true => exact .keep (.inl hr) hx
        | false => exact .release hr hx (Bool.or_eq_false_iff.mp hk).1
  | unlink x todo keep =>
    unfold Sched.reap
    dsimp only
    cases hx : s.find x with
    | none => exact .drop (.inr hr) hx
    | some t =>
      dsimp only
      by_cases href : t.refs ≠ 0
      · rw [if_pos href]
        exact .keep (.inr hr) hx
      · rw [if_neg href]
        exact .remove hr

/-- A task the reaper does not keep was waited for or has no parent. -/
theorem Inv.of_not_kept (hs : Inv s) (hk : s.keeps t = false) :
    t.waited = true ∨ s.find t.ppid = none := by
  cases hw : t.waited with
  | true => exact .inl rfl
  | false =>
    refine .inr ?_
    cases hparent : s.find t.ppid with
    | none => rfl
    | some u =>
      have hpos := (hs.ids _ u hparent).1
      simp [Sched.keeps, hw, hparent, hpos] at hk

/-- The items of a reaper that works on `x` next. -/
theorem items_next (hr : s.reapers r = .loop (x :: todo) keep ∨ s.reapers r = .unlink x todo keep) :
    (s.reapers r).items = x :: (todo ++ keep) := by
  cases hr with
  | inl h => rw [h]; rfl
  | inr h => rw [h]; rfl

/-- One section of a reaper. -/
theorem Inv.reapBy (hs : Inv s) (r : Reaper) (released : Bool) : Inv (s.reapBy r released).1 := by
  have hstep := reapBy_step s r released
  generalize s.reapBy r released = out at hstep
  cases hstep with
  | empty hr =>
    apply hs.setReap (q := s.deadQueue)
    · intro x hx _
      rw [hr] at hx
      exact hx
    · intro x hx
      rw [hr]
      exact hx
    · intro x todo keep h
      cases h
  | detach hr =>
    apply hs.setReap
    · intro x hx _
      rw [hr] at hx
      cases hx with
      | inl h => exact .inr (List.mem_append_left _ h)
      | inr h => cases h
    · intro x hx
      cases hx with
      | inl h => cases h
      | inr h => exact .inl (by simpa [Reap.items] using h)
    · intro x todo keep h
      cases h
  | restore hr =>
    apply hs.setReap
    · intro x hx _
      rw [hr] at hx
      exact .inl (by simpa [Reap.items, or_comm] using hx)
    · intro x hx
      rw [hr]
      simpa [Reap.items, or_comm] using hx
    · intro x todo keep h
      cases h
  | @drop x todo keep hr hx =>
    apply hs.setReap (q := s.deadQueue)
    · intro y hy hsome
      rw [items_next hr] at hy
      have hne : y ≠ x := by
        rintro rfl
        rw [hx] at hsome
        cases hsome
      exact hy.imp id fun h => (List.mem_cons.mp h).resolve_left hne
    · intro y hy
      rw [items_next hr]
      exact hy.imp id (List.mem_cons_of_mem _)
    · intro y todo keep h
      cases h
  | @keep x todo keep t hr hx =>
    apply hs.setReap (q := s.deadQueue)
    · intro y hy _
      rw [items_next hr] at hy
      exact hy.imp id fun h => List.perm_middle.mem_iff.mpr h
    · intro y hy
      rw [items_next hr]
      exact hy.imp id fun h => List.perm_middle.mem_iff.mp h
    · intro y todo keep h
      cases h
  | @release x todo keep t hr hx hk =>
    apply hs.setReap (q := s.deadQueue)
    · intro y hy _
      rw [items_next (.inl hr)] at hy
      exact hy
    · intro y hy
      rw [items_next (.inl hr)]
      exact hy
    · intro y todo' keep' h u hu
      cases h
      rw [hx] at hu
      cases hu
      exact hs.of_not_kept hk
  | @remove x todo keep hr =>
    have hheld : s.Held x := .inr ⟨r, by rw [hr]; exact List.mem_cons_self ..⟩
    have hgone : Inv (s.remove x) := hs.remove (hs.entries x hheld) (hs.unlinks r x todo keep hr)
    apply hgone.setReap (q := s.deadQueue)
    · intro y hy hsome
      change y ∈ s.deadQueue ∨ y ∈ (s.reapers r).items at hy
      rw [hr] at hy
      have hne : y ≠ x := by
        rintro rfl
        rw [find_remove, if_pos rfl] at hsome
        cases hsome
      exact hy.imp id fun h => (List.mem_cons.mp h).resolve_left hne
    · intro y hy
      change y ∈ s.deadQueue ∨ y ∈ (s.reapers r).items
      rw [hr]
      exact hy.imp id (List.mem_cons_of_mem _)
    · intro y todo keep h
      cases h

end Reapers

end Lebirun.Tasks
