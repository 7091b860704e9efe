import Lebirun.Lib.Run
import Lebirun.Tasks.Futex

namespace Lebirun.Futex
open Machine
set_option autoImplicit true

section Invariant

/-- The keys a place holds, each with the address it was computed from. -/
def Pc.keys : Pc → List (Nat × Nat)
  | .enter addr key _ _ _ | .wake addr key _ _ _ | .second addr key _ _ _ => [(addr, key)]
  | .requeue addr key addr2 key2 _ _ => [(addr, key), (addr2, key2)]
  | .clear addr (some key) => [(addr, key)]
  | _ => []

/-- The task is in `task_futex_wait` past its first section. -/
def Task.Waits (t : Task) : Prop := t.pc = .asleep ∨ ∃ b, t.pc = .check b

/-- The wait is on its way to return 0. -/
def Task.Woken (t : Task) : Prop :=
  t.state ≠ .dead ∧ t.state ≠ .blocked ∧ (t.pc = .asleep ∧ t.queue = none ∨ t.pc = .check false)

structure Ok (s : Sched) (t : Task) : Prop where
  call : t.Waits → t.call < s.nextCall ∧ t.call ∉ s.zero ∧ t.state ≠ .dead
  queued : ∀ k, t.queue = some k → t.pc = .asleep ∧ t.call ∉ s.counted ∧
    s.pages.key t.target.1 t.target.2 = some k ∧ ∃ u ∈ s.all, u.space = t.target.1
  woken : t.pc = .asleep → t.queue = none → t.state ≠ .blocked
  late : t.pc = .check true → t.call ∉ s.counted
  places : ∀ x ∈ t.pc.keys, s.pages.key t.space x.1 = some x.2

structure Inv (s : Sched) : Prop where
  ids : (s.all.map Task.id).Nodup
  tasks : ∀ t ∈ s.all, Ok s t
  apart : ∀ t ∈ s.all, ∀ u ∈ s.all, t.Waits → u.Waits → t.call = u.call → t.id = u.id
  nodup : s.counted.Nodup
  old : ∀ c ∈ s.counted, c < s.nextCall
  zeroNodup : s.zero.Nodup
  zero : ∀ c ∈ s.zero, c ∈ s.counted
  kept : ∀ c ∈ s.counted, c ∈ s.zero ∨ ∃ t ∈ s.all, t.call = c ∧ t.Woken

theorem Task.Woken.waits (h : Task.Woken t) : t.Waits := by
  obtain ⟨_, _, ⟨h, _⟩ | h⟩ := h
  · exact .inl h
  · exact .inr ⟨false, h⟩

end Invariant

section Replacing

variable {s : Sched} {t : Task}

/-- A task passes a section that leaves the pages and the other tasks as they are. -/
theorem Inv.replace (hs : Inv s) (ht : s.find t.id = some t) (t' : Task) (hid : t'.id = t.id)
    (hspace : t'.space = t.space) {n : Nat} {z : List Nat} (hn : s.nextCall ≤ n)
    (hok : Ok { s with all := Keyed.update Task.id s.all t.id fun _ => t', nextCall := n, zero := z } t')
    (hcall : t'.Waits → t.Waits ∧ t'.call = t.call ∨ t'.call = s.nextCall)
    (hgrow : ∀ c ∈ s.zero, c ∈ z) (hz : ∀ c ∈ z, c ∈ s.zero ∨ c = t.call ∧ t.Woken ∧ c ∈ s.counted)
    (hznodup : z.Nodup)
    (hkept : t.Woken → t.call ∈ s.counted → t.call ∈ z ∨ t'.Woken ∧ t'.call = t.call) :
    Inv { s with all := Keyed.update Task.id s.all t.id fun _ => t', nextCall := n, zero := z } := by
  have hkey : ∀ a : Task, a.id = t.id → t'.id = t.id := fun _ _ => hid
  have hmem : ∀ u, u ∈ Keyed.update Task.id s.all t.id (fun _ => t') ↔ u = t' ∨ u ∈ s.all ∧ u.id ≠ t.id :=
    fun u => Keyed.mem_update hs.ids ht
  have hin : t ∈ s.all := Keyed.mem_of_find ht
  have hspaces : ∀ sp, (∃ u ∈ s.all, u.space = sp) →
      ∃ u ∈ Keyed.update Task.id s.all t.id (fun _ => t'), u.space = sp := by
    rintro sp ⟨u, hu, rfl⟩
    by_cases h : u.id = t.id
    · have : u = t := List.inj_on_of_nodup_map hs.ids hu hin h
      exact ⟨t', (hmem t').mpr (.inl rfl), this ▸ hspace⟩
    · exact ⟨u, (hmem u).mpr (.inr ⟨hu, h⟩), rfl⟩
  constructor
  · change ((Keyed.update Task.id s.all t.id fun _ => t').map Task.id).Nodup
    rw [Keyed.map_key_update hkey]
    exact hs.ids
  · intro u hu
    cases (hmem u).mp hu with
    | inl h => exact h ▸ hok
    | inr h =>
      have hu' := hs.tasks u h.1
      constructor
      · intro hw
        obtain ⟨h₁, h₂, h₃⟩ := hu'.call hw
        refine ⟨lt_of_lt_of_le h₁ hn, fun hc => ?_, h₃⟩
        cases hz _ hc with
        | inl hc => exact h₂ hc
        | inr hc => exact h.2 (hs.apart u h.1 t hin hw hc.2.1.waits hc.1)
      · intro k hk
        obtain ⟨h₁, h₂, h₃, h₄⟩ := hu'.queued k hk
        exact ⟨h₁, h₂, h₃, hspaces _ h₄⟩
      · exact hu'.woken
      · exact hu'.late
      · exact hu'.places
  · intro u hu v hv hwu hwv hc
    cases (hmem u).mp hu with
    | inl h =>
      subst h
      cases (hmem v).mp hv with
      | inl h => rw [h]
      | inr h =>
        cases hcall hwu with
        | inl h' => exact absurd (hs.apart t hin v h.1 h'.1 hwv (h'.2 ▸ hc)).symm h.2
        | inr h' =>
          have := (hs.tasks v h.1).call hwv
          rw [← hc, h'] at this
          exact absurd this.1 (lt_irrefl _)
    | inr h =>
      cases (hmem v).mp hv with
      | inl h'' =>
        subst h''
        cases hcall hwv with
        | inl h' => exact absurd (hs.apart u h.1 t hin hwu h'.1 (h'.2 ▸ hc)) h.2
        | inr h' =>
          have := (hs.tasks u h.1).call hwu
          rw [hc, h'] at this
          exact absurd this.1 (lt_irrefl _)
      | inr h' => exact hs.apart u h.1 v h'.1 hwu hwv hc
  · exact hs.nodup
  · intro c hc
    exact lt_of_lt_of_le (hs.old c hc) hn
  · exact hznodup
  · intro c hc
    cases hz c hc with
    | inl h => exact hs.zero c h
    | inr h => exact h.2.2
  · intro c hc
    cases hs.kept c hc with
    | inl h => exact .inl (hgrow c h)
    | inr h =>
      obtain ⟨u, hu, rfl, hw⟩ := h
      by_cases hid' : u.id = t.id
      · have : u = t := List.inj_on_of_nodup_map hs.ids hu hin hid'
        subst this
        cases hkept hw hc with
        | inl h => exact .inl h
        | inr h => exact .inr ⟨t', (hmem t').mpr (.inl rfl), h.2, h.1⟩
      · exact .inr ⟨u, (hmem u).mpr (.inr ⟨hu, hid'⟩), rfl, hw⟩

end Replacing

section Easing

variable {s : Sched} {t t' : Task} {l l' : List Task}

/-- What wakes, timeouts and requeues do to a task. -/
structure Eased (s : Sched) (t t' : Task) : Prop where
  id : t'.id = t.id
  space : t'.space = t.space
  pc : t'.pc = t.pc
  call : t'.call = t.call
  state : t'.state = t.state ∨ t.state = .blocked ∧ t'.state = .ready
  queue : t'.queue = t.queue ∧ t'.target = t.target ∨ t'.queue = none ∧ t'.state ≠ .blocked ∨
    t.queue.isSome ∧ ∃ k, t'.queue = some k ∧ s.pages.key t'.target.1 t'.target.2 = some k ∧
      ∃ u ∈ s.all, u.space = t'.target.1

theorem Eased.refl (s : Sched) (t : Task) : Eased s t t := ⟨rfl, rfl, rfl, rfl, .inl rfl, .inl ⟨rfl, rfl⟩⟩

theorem mem_right {R : Task → Task → Prop} (h : List.Forall₂ R l l') (hb : t' ∈ l') :
    ∃ t ∈ l, R t t' := by
  induction h with
  | nil => cases hb
  | cons hr _ ih =>
    cases List.mem_cons.mp hb with
    | inl h => exact ⟨_, List.mem_cons_self .., h ▸ hr⟩
    | inr h =>
      obtain ⟨t, ht, hr⟩ := ih h
      exact ⟨t, List.mem_cons_of_mem _ ht, hr⟩

theorem mem_left {R : Task → Task → Prop} (h : List.Forall₂ R l l') (ha : t ∈ l) :
    ∃ t' ∈ l', R t t' := by
  induction h with
  | nil => cases ha
  | cons hr _ ih =>
    cases List.mem_cons.mp ha with
    | inl h => exact ⟨_, List.mem_cons_self .., h ▸ hr⟩
    | inr h =>
      obtain ⟨t', ht', hr⟩ := ih h
      exact ⟨t', List.mem_cons_of_mem _ ht', hr⟩

theorem map_id_eased (h : List.Forall₂ (Eased s) l l') : l'.map Task.id = l.map Task.id := by
  induction h with
  | nil => rfl
  | cons hr _ ih => rw [List.map_cons, List.map_cons, ih, hr.id]

theorem Eased.alive (h : Eased s t t') : t'.state ≠ .dead ↔ t.state ≠ .dead := by
  cases h.state with
  | inl h => rw [h]
  | inr h =>
    rw [h.1, h.2]
    decide

theorem Eased.awake (h : Eased s t t') (ha : t.state ≠ .blocked) : t'.state ≠ .blocked := by
  cases h.state with
  | inl h => exact h ▸ ha
  | inr h => exact absurd h.1 ha

theorem Eased.waits (h : Eased s t t') (hw : t'.Waits) : t.Waits := by
  unfold Task.Waits at hw ⊢
  rw [h.pc] at hw
  exact hw

theorem Eased.wokenStill (h : Eased s t t') (hw : t.Woken) : t'.Woken := by
  obtain ⟨halive, hawake, hw⟩ := hw
  refine ⟨h.alive.mpr halive, h.awake hawake, ?_⟩
  rw [h.pc]
  refine hw.imp (fun ⟨h₁, h₂⟩ => ⟨h₁, ?_⟩) fun h => h
  obtain ⟨hq, _⟩ | ⟨hq, _⟩ | ⟨hq, _⟩ := h.queue
  · rw [hq, h₂]
  · exact hq
  · rw [h₂] at hq
    cases hq

/-- A step that eases waiting tasks and counts those it takes off their queue. -/
theorem Inv.eased (hs : Inv s) (h : List.Forall₂ (Eased s) s.all l) (ended : List Nat)
    (hnodup : ended.Nodup) (hended : ∀ c ∈ ended, ∃ t ∈ s.all, t.call = c ∧ t.queue.isSome ∧
      ∃ t' ∈ l, t'.id = t.id ∧ t'.queue = none) :
    Inv { s with all := l, counted := ended ++ s.counted } := by
  have hids : (l.map Task.id).Nodup := by
    rw [map_id_eased h]
    exact hs.ids
  have hspaces : ∀ sp, (∃ u ∈ s.all, u.space = sp) → ∃ u ∈ l, u.space = sp := by
    rintro sp ⟨u, hu, rfl⟩
    obtain ⟨u', hu', he⟩ := mem_left h hu
    exact ⟨u', hu', he.space⟩
  -- a wait that this step ends was on no queue afterwards, and counted by nobody before
  have hnew : ∀ t ∈ s.all, ∀ t' ∈ l, Eased s t t' → t.Waits → t.call ∈ ended →
      t'.queue = none ∧ t.queue.isSome := by
    intro t ht t' ht' he hw hc
    obtain ⟨u, hu, hcall, hqueue, u', hu', hid, hnone⟩ := hended _ hc
    obtain ⟨k, hk⟩ := Option.isSome_iff_exists.mp hqueue
    have hwu : u.Waits := .inl ((hs.tasks u hu).queued k hk).1
    have hsame : u = t :=
      List.inj_on_of_nodup_map hs.ids hu ht (hs.apart u hu t ht hwu hw hcall)
    have hsame' : u' = t' := by
      apply List.inj_on_of_nodup_map hids hu' ht'
      rw [hid, hsame, he.id]
    exact ⟨hsame' ▸ hnone, hsame ▸ hqueue⟩
  have hfresh : ∀ c ∈ ended, c < s.nextCall ∧ c ∉ s.counted ∧ c ∉ s.zero := by
    intro c hc
    obtain ⟨u, hu, rfl, hqueue, _⟩ := hended c hc
    obtain ⟨k, hk⟩ := Option.isSome_iff_exists.mp hqueue
    obtain ⟨hpc, hcount, _⟩ := (hs.tasks u hu).queued k hk
    obtain ⟨hlt, hz, _⟩ := (hs.tasks u hu).call (.inl hpc)
    exact ⟨hlt, hcount, hz⟩
  constructor
  · exact hids
  · intro t' ht'
    obtain ⟨t, ht, he⟩ := mem_right h ht'
    have hok := hs.tasks t ht
    constructor
    · intro hw
      rw [he.call, he.alive]
      exact hok.call (he.waits hw)
    · intro k hk
      have hsome : t.queue.isSome := by
        obtain ⟨hq, _⟩ | ⟨hq, _⟩ | ⟨hq, _⟩ := he.queue
        · rw [← hq, hk]
          rfl
        · rw [hk] at hq
          cases hq
        · exact hq
      obtain ⟨j, hj⟩ := Option.isSome_iff_exists.mp hsome
      obtain ⟨hpc, hcount, hkey, hspace⟩ := hok.queued j hj
      refine ⟨he.pc.trans hpc, ?_, ?_⟩
      · intro hc
        rw [he.call] at hc
        cases List.mem_append.mp hc with
        | inl hc =>
          have := (hnew t ht t' ht' he (.inl hpc) hc).1
          rw [hk] at this
          cases this
        | inr hc => exact hcount hc
      · obtain ⟨hq, htarget⟩ | ⟨hq, _⟩ | ⟨_, k', hk', hkey', hspace'⟩ := he.queue
        · rw [htarget]
          rw [hk, hj] at hq
          cases hq
          exact ⟨hkey, hspaces _ hspace⟩
        · rw [hk] at hq
          cases hq
        · rw [hk] at hk'
          cases hk'
          exact ⟨hkey', hspaces _ hspace'⟩
    · intro hpc hq
      have hpc' : t.pc = .asleep := he.pc ▸ hpc
      obtain ⟨hq', _⟩ | ⟨_, ha⟩ | ⟨_, k, hk, _⟩ := he.queue
      · exact he.awake (hok.woken hpc' (hq' ▸ hq))
      · exact ha
      · rw [hq] at hk
        cases hk
    · intro hpc hc
      have hpc' : t.pc = .check true := he.pc ▸ hpc
      rw [he.call] at hc
      cases List.mem_append.mp hc with
      | inl hc =>
        have hsome := (hnew t ht t' ht' he (.inr ⟨true, hpc'⟩) hc).2
        obtain ⟨k, hk⟩ := Option.isSome_iff_exists.mp hsome
        rw [(hok.queued k hk).1] at hpc'
        cases hpc'
      | inr hc => exact hok.late hpc' hc
    · rw [he.pc, he.space]
      exact hok.places
  · intro t' ht' u' hu' hwt hwu hc
    obtain ⟨t, ht, he⟩ := mem_right h ht'
    obtain ⟨u, hu, heu⟩ := mem_right h hu'
    rw [he.id, heu.id]
    apply hs.apart t ht u hu (he.waits hwt) (heu.waits hwu)
    rw [← he.call, ← heu.call]
    exact hc
  · apply List.nodup_append'.mpr
    exact ⟨hnodup, hs.nodup, fun c hc hc' => (hfresh c hc).2.1 hc'⟩
  · intro c hc
    cases List.mem_append.mp hc with
    | inl hc => exact (hfresh c hc).1
    | inr hc => exact hs.old c hc
  · exact hs.zeroNodup
  · intro c hc
    exact List.mem_append_right _ (hs.zero c hc)
  · intro c hc
    cases List.mem_append.mp hc with
    | inl hc =>
      refine .inr ?_
      obtain ⟨u, hu, rfl, hqueue, u', hu', hid, hnone⟩ := hended c hc
      obtain ⟨k, hk⟩ := Option.isSome_iff_exists.mp hqueue
      have hpc := ((hs.tasks u hu).queued k hk).1
      have halive := ((hs.tasks u hu).call (.inl hpc)).2.2
      obtain ⟨v, hv, he⟩ := mem_right h hu'
      have hsame : v = u := List.inj_on_of_nodup_map hs.ids hv hu (by rw [← he.id, hid])
      subst hsame
      refine ⟨u', hu', he.call, he.alive.mpr halive, ?_, .inl ⟨he.pc.trans hpc, hnone⟩⟩
      obtain ⟨hq, _⟩ | ⟨_, ha⟩ | ⟨_, j, hj, _⟩ := he.queue
      · rw [hnone, hk] at hq
        cases hq
      · exact ha
      · rw [hnone] at hj
        cases hj
    | inr hc =>
      refine (hs.kept c hc).imp id ?_
      rintro ⟨t, ht, rfl, hw⟩
      obtain ⟨t', ht', he⟩ := mem_left h ht
      exact ⟨t', ht', he.call, he.wokenStill hw⟩

end Easing

end Lebirun.Futex
