import Lebirun.Tasks.FutexInv

namespace Lebirun.Futex
open Machine
set_option autoImplicit true

section Paging

variable {s : Sched} {t : Task} {m : Tables}

/-- Somebody waits at an address of the page, or is between taking its key and using it. -/
def Sched.Holds (s : Sched) (space page : Nat) : Prop :=
  ∃ t ∈ s.all, t.queue.isSome ∧ t.target.1 = space ∧ t.target.2 / pageSize = page ∨
    t.space = space ∧ ∃ x ∈ t.pc.keys, x.1 / pageSize = page

/-- No page that somebody holds moves to another frame. -/
def Sched.Steady (s : Sched) (m : Tables) : Prop :=
  ∀ space page, s.Holds space page → (m space page).map Pte.frame = (s.pages space page).map Pte.frame

theorem key_congr {m m' : Tables}
    (h : (m space (addr / pageSize)).map Pte.frame = (m' space (addr / pageSize)).map Pte.frame) :
    m.key space addr = m'.key space addr := by
  unfold Tables.key
  cases he : m space (addr / pageSize) with
  | none =>
    rw [he] at h
    cases he' : m' space (addr / pageSize) with
    | none => rfl
    | some e' =>
      rw [he'] at h
      cases h
  | some e =>
    rw [he] at h
    cases he' : m' space (addr / pageSize) with
    | none =>
      rw [he'] at h
      cases h
    | some e' =>
      rw [he'] at h
      have hframe : e.frame = e'.frame := Option.some.inj h
      dsimp only
      rw [hframe]

/-- Remapping pages that nobody holds. -/
theorem Inv.repage (hs : Inv s) (hm : s.Steady m) : Inv { s with pages := m } where
  ids := hs.ids
  tasks := by
    intro t ht
    have hok := hs.tasks t ht
    exact {
      call := hok.call
      queued := by
        intro k hk
        obtain ⟨h₁, h₂, h₃, h₄⟩ := hok.queued k hk
        refine ⟨h₁, h₂, ?_, h₄⟩
        rw [← h₃]
        exact key_congr (hm _ _ ⟨t, ht, .inl ⟨by rw [hk]; rfl, rfl, rfl⟩⟩)
      woken := hok.woken
      late := hok.late
      places := by
        intro x hx
        rw [← hok.places x hx]
        exact key_congr (hm _ _ ⟨t, ht, .inr ⟨rfl, x, hx, rfl⟩⟩) }
  apart := hs.apart
  nodup := hs.nodup
  old := hs.old
  zeroNodup := hs.zeroNodup
  zero := hs.zero
  kept := hs.kept

/-- A held page is mapped. -/
theorem Inv.held_mapped (hs : Inv s) (h : s.Holds space page) : ∃ e, s.pages space page = some e := by
  have hkey : ∀ addr k, s.pages.key space addr = some k → ∃ e, s.pages space (addr / pageSize) = some e := by
    intro addr k h
    unfold Tables.key at h
    cases he : s.pages space (addr / pageSize) with
    | none =>
      rw [he] at h
      cases h
    | some e => exact ⟨e, rfl⟩
  obtain ⟨t, ht, ⟨hq, rfl, rfl⟩ | ⟨rfl, x, hx, rfl⟩⟩ := h
  · obtain ⟨k, hk⟩ := Option.isSome_iff_exists.mp hq
    exact hkey _ k ((hs.tasks t ht).queued k hk).2.2.1
  · exact hkey _ _ ((hs.tasks t ht).places x hx)

theorem Inv.held_space (hs : Inv s) (h : s.Holds space page) : ∃ u ∈ s.all, u.space = space := by
  obtain ⟨t, ht, ⟨hq, rfl, rfl⟩ | ⟨rfl, x, hx, rfl⟩⟩ := h
  · obtain ⟨k, hk⟩ := Option.isSome_iff_exists.mp hq
    exact ((hs.tasks t ht).queued k hk).2.2.2
  · exact ⟨t, ht, rfl⟩

theorem forked_frame (e : Pte) : e.forked.frame = e.frame := by
  unfold Pte.forked
  split
  · rfl
  · rfl

/-- A fork moves no page of the parent, and the child's space is new. -/
theorem Inv.steady_fork (hs : Inv s) (hnew : ¬∃ t ∈ s.all, t.space = child) :
    s.Steady fun sp pg =>
      if sp = child ∨ sp = space then (s.pages space pg).map Pte.forked else s.pages sp pg := by
  intro sp pg h
  have hne : sp ≠ child := by
    rintro rfl
    exact hnew (hs.held_space h)
  dsimp only
  by_cases hsp : sp = space
  · rw [if_pos (.inr hsp), hsp, Option.map_map]
    congr 1
    funext e
    exact forked_frame e
  · rw [if_neg (by simp [hne, hsp])]

theorem Inv.steady_readFault (hs : Inv s) (hnone : s.pages space page = none) (e : Pte) :
    s.Steady (s.pages.set space page e) := by
  intro sp pg h
  obtain ⟨e', he'⟩ := hs.held_mapped h
  unfold Tables.set
  rw [if_neg]
  rintro ⟨rfl, rfl⟩
  rw [hnone] at he'
  cases he'

end Paging

section Loops

variable {s : Sched} {t : Task} {key n : Nat} {bitset : BitVec 32} {l : List Task}

theorem eased_release (s : Sched) (t : Task) : Eased s t (release t) := by
  unfold release markReady
  dsimp only
  split
  · next h => exact ⟨rfl, rfl, rfl, rfl, .inr ⟨h, rfl⟩, .inr (.inl ⟨rfl, by rintro ⟨⟩⟩)⟩
  · next h => exact ⟨rfl, rfl, rfl, rfl, .inl rfl, .inr (.inl ⟨rfl, h⟩)⟩

theorem release_queue (t : Task) : (release t).queue = none := by
  unfold release markReady
  dsimp only
  split
  · rfl
  · rfl

theorem release_id (t : Task) : (release t).id = t.id := (eased_release ⟨[], fun _ _ => none, 0, [], []⟩ t).id

/-- A task that a wake of the key takes. -/
def Task.Hit (key : Nat) (bitset : BitVec 32) (t : Task) : Prop :=
  t.queue = some key ∧ t.bitset &&& bitset ≠ 0

theorem wakeLoop_eased (s : Sched) (key : Nat) (bitset : BitVec 32) (n : Nat) (l : List Task) :
    List.Forall₂ (Eased s) l (wakeLoop key bitset n l).1 := by
  induction l generalizing n with
  | nil =>
    cases n with
    | zero => exact .nil
    | succ n => exact .nil
  | cons t l ih =>
    cases n with
    | zero => exact List.forall₂_same.mpr fun u _ => .refl s u
    | succ n =>
      unfold wakeLoop
      split
      · exact .cons (eased_release s t) (ih n)
      · exact .cons (.refl s t) (ih (n + 1))

/-- The waits that a wake ends, in the order of the list. -/
theorem wakeLoop_sublist (key : Nat) (bitset : BitVec 32) (n : Nat) (l : List Task) :
    (wakeLoop key bitset n l).2.Sublist ((l.filter fun t => t.queue.isSome).map Task.call) := by
  induction l generalizing n with
  | nil =>
    cases n with
    | zero => exact .slnil
    | succ n => exact .slnil
  | cons t l ih =>
    cases n with
    | zero => exact List.nil_sublist _
    | succ n =>
      unfold wakeLoop
      split
      · next h =>
        rw [List.filter_cons_of_pos (by rw [h.1]; rfl), List.map_cons]
        exact (ih n).cons_cons _
      · exact (ih (n + 1)).trans ((List.sublist_cons_self t l).filter _ |>.map _)

theorem wakeLoop_ended (h : c ∈ (wakeLoop key bitset n l).2) :
    ∃ t ∈ l, t.call = c ∧ t.Hit key bitset ∧ release t ∈ (wakeLoop key bitset n l).1 := by
  induction l generalizing n with
  | nil =>
    cases n with
    | zero => cases h
    | succ n => cases h
  | cons t l ih =>
    cases n with
    | zero => cases h
    | succ n =>
      unfold wakeLoop at h ⊢
      split at h
      · next hit =>
        rw [if_pos hit]
        cases List.mem_cons.mp h with
        | inl h => exact ⟨t, List.mem_cons_self .., h.symm, hit, List.mem_cons_self ..⟩
        | inr h =>
          obtain ⟨u, hu, hc, hhit, hr⟩ := ih h
          exact ⟨u, List.mem_cons_of_mem _ hu, hc, hhit, List.mem_cons_of_mem _ hr⟩
      · next hit =>
        rw [if_neg hit]
        obtain ⟨u, hu, hc, hhit, hr⟩ := ih h
        exact ⟨u, List.mem_cons_of_mem _ hu, hc, hhit, List.mem_cons_of_mem _ hr⟩

/-- A wake that does not use up its count leaves nobody it could take. -/
theorem wakeLoop_all (h : (wakeLoop key bitset n l).2.length < n) :
    ∀ t ∈ (wakeLoop key bitset n l).1, ¬ t.Hit key bitset := by
  induction l generalizing n with
  | nil =>
    cases n with
    | zero => cases h
    | succ n =>
      intro t ht
      cases ht
  | cons t l ih =>
    cases n with
    | zero => cases h
    | succ n =>
      unfold wakeLoop at h ⊢
      intro u hu
      split at h
      · next hit =>
        rw [if_pos hit] at hu
        cases List.mem_cons.mp hu with
        | inl hu =>
          rintro ⟨hq, _⟩
          rw [hu, release_queue] at hq
          cases hq
        | inr hu => exact ih (Nat.lt_of_succ_lt_succ h) u hu
      · next hit =>
        rw [if_neg hit] at hu
        cases List.mem_cons.mp hu with
        | inl hu => exact hu ▸ hit
        | inr hu => exact ih h u hu

theorem wakeLoop_length (key : Nat) (bitset : BitVec 32) (n : Nat) (l : List Task) :
    (wakeLoop key bitset n l).2.length ≤ n := by
  induction l generalizing n with
  | nil =>
    cases n with
    | zero => exact le_refl _
    | succ n => exact Nat.zero_le _
  | cons t l ih =>
    cases n with
    | zero => exact le_refl _
    | succ n =>
      unfold wakeLoop
      split
      · exact Nat.succ_le_succ (ih n)
      · exact ih (n + 1)

/-- Different queued tasks wait in different calls. -/
theorem Inv.calls_nodup (hs : Inv s) : ((s.all.filter fun t => t.queue.isSome).map Task.call).Nodup := by
  have hall : s.all.Nodup := hs.ids.of_map _
  apply (hall.filter _).map_on
  intro t ht u hu hc
  obtain ⟨ht, hqt⟩ := List.mem_filter.mp ht
  obtain ⟨hu, hqu⟩ := List.mem_filter.mp hu
  obtain ⟨k, hk⟩ := Option.isSome_iff_exists.mp hqt
  obtain ⟨j, hj⟩ := Option.isSome_iff_exists.mp hqu
  have hid := hs.apart t ht u hu (.inl ((hs.tasks t ht).queued k hk).1)
    (.inl ((hs.tasks u hu).queued j hj).1) hc
  exact List.inj_on_of_nodup_map hs.ids ht hu hid

theorem Inv.wakes (hs : Inv s) (key : Nat) (bitset : BitVec 32) (n : Nat) :
    Inv { s with
      all := (wakeLoop key bitset n s.all).1
      counted := (wakeLoop key bitset n s.all).2 ++ s.counted } := by
  apply hs.eased (wakeLoop_eased s key bitset n s.all) (wakeLoop key bitset n s.all).2
  · exact hs.calls_nodup.sublist (wakeLoop_sublist key bitset n s.all)
  · intro c hc
    obtain ⟨t, ht, hcall, hhit, hr⟩ := wakeLoop_ended hc
    exact ⟨t, ht, hcall, by rw [hhit.1]; rfl, release t, hr, (eased_release s t).id, release_queue t⟩

theorem wakeLoop_keeps (ht : t ∈ l) (hq : t.queue = none) : t ∈ (wakeLoop key bitset n l).1 := by
  induction l generalizing n with
  | nil => cases ht
  | cons u l ih =>
    cases n with
    | zero => exact ht
    | succ n =>
      unfold wakeLoop
      cases List.mem_cons.mp ht with
      | inl h =>
        subst h
        rw [if_neg (by rw [hq]; rintro ⟨⟨⟩, _⟩)]
        exact List.mem_cons_self ..
      | inr h =>
        split
        · exact List.mem_cons_of_mem _ (ih h)
        · exact List.mem_cons_of_mem _ (ih h)

end Loops

section Requeues

variable {s : Sched} {t : Task} {oldKey newKey w r : Nat} {target : Nat × Nat} {l : List Task}

/-- What the requeue does with one task that waits at the old key. -/
inductive RequeueStep (oldKey newKey : Nat) (target : Nat × Nat) (w r : Nat) (t : Task) (l : List Task) :
    List Task × List Nat × Nat → Prop
  | wake (v : Nat) (h : w = v + 1) (hq : t.queue = some oldKey)
    (out : List Task × List Nat × Nat) (hout : requeueLoop oldKey newKey target v r l = out) :
    RequeueStep oldKey newKey target w r t l (release t :: out.1, t.call :: out.2.1, out.2.2)
  | move (q : Nat) (h : r = q + 1) (hw : w = 0) (hq : t.queue = some oldKey)
    (out : List Task × List Nat × Nat) (hout : requeueLoop oldKey newKey target 0 q l = out) :
    RequeueStep oldKey newKey target w r t l
      ({ t with queue := some newKey, target := target } :: out.1, out.2.1, out.2.2 + 1)
  | pass (h : t.queue = some oldKey → w = 0 ∧ r = 0)
    (out : List Task × List Nat × Nat) (hout : requeueLoop oldKey newKey target w r l = out) :
    RequeueStep oldKey newKey target w r t l (t :: out.1, out.2.1, out.2.2)

theorem requeueLoop_step (oldKey newKey : Nat) (target : Nat × Nat) (w r : Nat) (t : Task)
    (l : List Task) :
    RequeueStep oldKey newKey target w r t l (requeueLoop oldKey newKey target w r (t :: l)) := by
  unfold requeueLoop
  by_cases hq : t.queue = some oldKey
  · rw [if_pos hq]
    cases w with
    | succ w => exact .wake w rfl hq _ rfl
    | zero =>
      cases r with
      | succ r => exact .move r rfl rfl hq _ rfl
      | zero => exact .pass (fun _ => ⟨rfl, rfl⟩) _ rfl
  · rw [if_neg hq]
    exact .pass (fun h => absurd h hq) _ rfl

theorem requeueLoop_eased (hkey : s.pages.key target.1 target.2 = some newKey)
    (hspace : ∃ u ∈ s.all, u.space = target.1) (oldKey w r : Nat) (l : List Task) :
    List.Forall₂ (Eased s) l (requeueLoop oldKey newKey target w r l).1 := by
  induction l generalizing w r with
  | nil => exact .nil
  | cons t l ih =>
    have hstep := requeueLoop_step oldKey newKey target w r t l
    generalize requeueLoop oldKey newKey target w r (t :: l) = out at hstep
    cases hstep with
    | wake v h hq out hout => exact .cons (eased_release s t) (hout ▸ ih v r)
    | move q h hw hq out hout =>
      refine .cons ⟨rfl, rfl, rfl, rfl, .inl rfl, .inr (.inr ⟨?_, newKey, rfl, hkey, hspace⟩)⟩ (hout ▸ ih 0 q)
      rw [hq]
      rfl
    | pass h out hout => exact .cons (.refl s t) (hout ▸ ih w r)

theorem requeueLoop_sublist (oldKey newKey : Nat) (target : Nat × Nat) (w r : Nat) (l : List Task) :
    (requeueLoop oldKey newKey target w r l).2.1.Sublist
      ((l.filter fun t => t.queue.isSome).map Task.call) := by
  induction l generalizing w r with
  | nil => exact .slnil
  | cons t l ih =>
    have hstep := requeueLoop_step oldKey newKey target w r t l
    generalize requeueLoop oldKey newKey target w r (t :: l) = out at hstep
    have hskip : ((l.filter fun t => t.queue.isSome).map Task.call).Sublist
        (((t :: l).filter fun t => t.queue.isSome).map Task.call) :=
      ((List.sublist_cons_self t l).filter _).map _
    cases hstep with
    | wake v h hq out hout =>
      rw [List.filter_cons_of_pos (by rw [hq]; rfl), List.map_cons]
      exact (hout ▸ ih v r).cons_cons _
    | move q h hw hq out hout => exact (hout ▸ ih 0 q).trans hskip
    | pass h out hout => exact (hout ▸ ih w r).trans hskip

theorem requeueLoop_ended (h : c ∈ (requeueLoop oldKey newKey target w r l).2.1) :
    ∃ t ∈ l, t.call = c ∧ t.queue = some oldKey ∧
      release t ∈ (requeueLoop oldKey newKey target w r l).1 := by
  induction l generalizing w r with
  | nil => cases h
  | cons t l ih =>
    have hstep := requeueLoop_step oldKey newKey target w r t l
    generalize requeueLoop oldKey newKey target w r (t :: l) = out at hstep h
    have hlater : ∀ {v q : Nat} {u' : Task}, c ∈ (requeueLoop oldKey newKey target v q l).2.1 →
        ∃ u ∈ t :: l, u.call = c ∧ u.queue = some oldKey ∧
          release u ∈ u' :: (requeueLoop oldKey newKey target v q l).1 := by
      intro v q u' h
      obtain ⟨u, hu, hc, hq, hr⟩ := ih h
      exact ⟨u, List.mem_cons_of_mem _ hu, hc, hq, List.mem_cons_of_mem _ hr⟩
    cases hstep with
    | wake v _ hq out hout =>
      subst hout
      cases List.mem_cons.mp h with
      | inl h => exact ⟨t, List.mem_cons_self .., h.symm, hq, List.mem_cons_self ..⟩
      | inr h => exact hlater h
    | move q _ hw hq out hout =>
      subst hout
      exact hlater h
    | pass _ out hout =>
      subst hout
      exact hlater h

theorem requeueLoop_keeps (ht : t ∈ l) (hq : t.queue = none) :
    t ∈ (requeueLoop oldKey newKey target w r l).1 := by
  induction l generalizing w r with
  | nil => cases ht
  | cons u l ih =>
    have hstep := requeueLoop_step oldKey newKey target w r u l
    generalize requeueLoop oldKey newKey target w r (u :: l) = out at hstep
    cases List.mem_cons.mp ht with
    | inl h =>
      subst h
      cases hstep with
      | wake v _ hq' out hout =>
        rw [hq] at hq'
        cases hq'
      | move q _ hw hq' out hout =>
        rw [hq] at hq'
        cases hq'
      | pass _ out hout => exact List.mem_cons_self ..
    | inr h =>
      cases hstep with
      | wake v _ hq' out hout => exact List.mem_cons_of_mem _ (hout ▸ ih h)
      | move q _ hw hq' out hout => exact List.mem_cons_of_mem _ (hout ▸ ih h)
      | pass _ out hout => exact List.mem_cons_of_mem _ (hout ▸ ih h)

/-- Who waits after a requeue waited before, or was moved. -/
theorem requeueLoop_mem (h : t ∈ (requeueLoop oldKey newKey target w r l).1) (hq : t.queue.isSome) :
    t ∈ l ∨ ∃ u ∈ l, u.queue = some oldKey ∧ t = { u with queue := some newKey, target := target } := by
  induction l generalizing w r with
  | nil => exact .inl h
  | cons u l ih =>
    have hstep := requeueLoop_step oldKey newKey target w r u l
    generalize requeueLoop oldKey newKey target w r (u :: l) = out at hstep h
    have hlater : ∀ {v q : Nat}, t ∈ (requeueLoop oldKey newKey target v q l).1 →
        t ∈ u :: l ∨ ∃ x ∈ u :: l, x.queue = some oldKey ∧
          t = { x with queue := some newKey, target := target } := by
      intro v q h
      refine (ih h).imp (List.mem_cons_of_mem _) ?_
      rintro ⟨x, hx, h⟩
      exact ⟨x, List.mem_cons_of_mem _ hx, h⟩
    cases hstep with
    | wake v _ hq' out hout =>
      subst hout
      cases List.mem_cons.mp h with
      | inl h =>
        rw [h, release_queue] at hq
        cases hq
      | inr h => exact hlater h
    | move q _ hw hq' out hout =>
      subst hout
      cases List.mem_cons.mp h with
      | inl h => exact .inr ⟨u, List.mem_cons_self .., hq', h⟩
      | inr h => exact hlater h
    | pass _ out hout =>
      subst hout
      cases List.mem_cons.mp h with
      | inl h => exact .inl (h ▸ List.mem_cons_self ..)
      | inr h => exact hlater h

theorem Inv.requeues (hs : Inv s) (target : Nat × Nat) (hkey : s.pages.key target.1 target.2 = some newKey)
    (hspace : ∃ u ∈ s.all, u.space = target.1) (oldKey w r : Nat) :
    Inv { s with
      all := (requeueLoop oldKey newKey target w r s.all).1
      counted := (requeueLoop oldKey newKey target w r s.all).2.1 ++ s.counted } := by
  apply hs.eased (requeueLoop_eased hkey hspace oldKey w r s.all)
    (requeueLoop oldKey newKey target w r s.all).2.1
  · exact hs.calls_nodup.sublist (requeueLoop_sublist oldKey newKey target w r s.all)
  · intro c hc
    obtain ⟨t, ht, hcall, hq, hr⟩ := requeueLoop_ended hc
    exact ⟨t, ht, hcall, by rw [hq]; rfl, release t, hr, (eased_release s t).id, release_queue t⟩

end Requeues

section Sections

variable {s : Sched} {t t' : Task} {p : Nat}

/-- A wait that a wake counted finds no signal when it ends, and one that was ended by nobody's count
finds one; no page moves while somebody waits at it or holds a key in it. -/
def Sched.Quiet (s : Sched) : Action → Prop
  | .go p _ signal fresh => ∀ t, s.find p = some t → match t.pc with
    | .check timedOut => (t.call ∈ s.counted → signal = false) ∧
      (timedOut = false → t.call ∉ s.counted → signal = true)
    | .clear addr _ => s.Steady (s.pages.write t.space (addr / pageSize) fresh)
    | _ => True
  | .write space page fresh => s.Steady (s.pages.write space page fresh)
  | .reclaim space page zeroPage => ∀ e, s.pages space page = some e →
    s.Steady (s.pages.set space page (e.reclaim zeroPage))
  | _ => True

/-- A task goes to a place outside the wait. -/
theorem Inv.settle (hs : Inv s) (ht : s.find t.id = some t) (t' : Task) (hid : t'.id = t.id)
    (hspace : t'.space = t.space) (hq : t'.queue = none) (hw : ¬ t'.Waits)
    (hplaces : ∀ x ∈ t'.pc.keys, s.pages.key t.space x.1 = some x.2) {z : List Nat}
    (hgrow : ∀ c ∈ s.zero, c ∈ z) (hz : ∀ c ∈ z, c ∈ s.zero ∨ c = t.call ∧ t.Woken ∧ c ∈ s.counted)
    (hznodup : z.Nodup) (hkept : t.Woken → t.call ∈ s.counted → t.call ∈ z) :
    Inv { s with all := Keyed.update Task.id s.all t.id fun _ => t', zero := z } := by
  apply hs.replace ht t' hid hspace (le_refl _) _ _ hgrow hz hznodup
  · intro hwoken hc
    exact .inl (hkept hwoken hc)
  · constructor
    · intro h
      exact absurd h hw
    · intro k hk
      rw [hq] at hk
      cases hk
    · intro hpc
      exact absurd (.inl hpc) hw
    · intro hpc
      exact absurd (.inr ⟨true, hpc⟩) hw
    · rw [hspace]
      exact hplaces
  · intro h
    exact absurd h hw

/-- The place is no part of the wait and holds keys of the tables. -/
def Sched.NextOk (s : Sched) (space : Nat) : Next → Prop
  | .at pc => (∀ x ∈ pc.keys, s.pages.key space x.1 = some x.2) ∧ pc ≠ .asleep ∧ ∀ b, pc ≠ .check b
  | .done _ => True

/-- A task that does not wait passes on. -/
theorem Inv.put (hs : Inv s) (ht : s.find t.id = some t) (hw : ¬ t.Waits) (hq : t.queue = none)
    {next : Next} (hok : s.NextOk t.space next) : Inv (s.put t next).1 := by
  have hstay : ∀ pc : Pc, (∀ x ∈ pc.keys, s.pages.key t.space x.1 = some x.2) → pc ≠ .asleep →
      (∀ b, pc ≠ .check b) → Inv (s.update t.id fun _ => { t with pc }) := by
    intro pc hkeys hasleep hcheck
    apply hs.settle ht { t with pc } rfl rfl hq _ hkeys
    · exact fun c hc => hc
    · exact fun c hc => .inl hc
    · exact hs.zeroNodup
    · intro h
      exact absurd h.waits hw
    · intro h
      cases h with
      | inl h => exact hasleep h
      | inr h =>
        obtain ⟨b, h⟩ := h
        exact hcheck b h
  cases next with
  | «at» pc => exact hstay pc hok.1 hok.2.1 hok.2.2
  | done r =>
    apply hstay .idle
    · intro x hx
      cases hx
    · rintro ⟨⟩
    · rintro b ⟨⟩

theorem futexGetKey_ok {m : Tables} (h : futexGetKey m space addr = .ok k) : m.key space addr = some k := by
  unfold futexGetKey at h
  split at h
  · cases h
  · split at h
    · cases h
    · next hk =>
      cases h
      exact hk

theorem nextOk_done (s : Sched) (space : Nat) (r : Result) : s.NextOk space (.done r) := trivial

/-- What a call starts with. -/
theorem nextOk_enter (s : Sched) (space : Nat) (c : Call) : s.NextOk space (c.enter s.pages space) := by
  have hone : ∀ {addr k} {pc : Pc}, s.pages.key space addr = some k → pc.keys = [(addr, k)] →
      ∀ x ∈ pc.keys, s.pages.key space x.1 = some x.2 := by
    intro addr k pc hk hkeys x hx
    rw [hkeys, List.mem_singleton] at hx
    rw [hx]
    exact hk
  cases c with
  | wait addr expected ticks bitset =>
    unfold Call.enter
    dsimp only
    cases hk : futexGetKey s.pages space addr with
    | error e => exact nextOk_done s space _
    | ok k =>
      dsimp only
      split
      · exact nextOk_done s space _
      · exact ⟨hone (futexGetKey_ok hk) rfl, by rintro ⟨⟩, by rintro b ⟨⟩⟩
  | wake addr count bitset =>
    unfold Call.enter
    dsimp only
    cases hk : futexGetKey s.pages space addr with
    | error e => exact nextOk_done s space _
    | ok k =>
      dsimp only
      split
      · exact nextOk_done s space _
      · exact ⟨hone (futexGetKey_ok hk) rfl, by rintro ⟨⟩, by rintro b ⟨⟩⟩
  | requeue addr addr2 wc rc =>
    unfold Call.enter
    dsimp only
    cases hk : futexGetKey s.pages space addr with
    | error e => exact nextOk_done s space _
    | ok k => exact ⟨hone (futexGetKey_ok hk) rfl, by rintro ⟨⟩, by rintro b ⟨⟩⟩
  | exit tid =>
    cases tid with
    | none => exact ⟨by rintro x ⟨⟩, by rintro ⟨⟩, by rintro b ⟨⟩⟩
    | some addr =>
      refine ⟨?_, by rintro ⟨⟩, by rintro b ⟨⟩⟩
      cases hk : s.pages.key space addr with
      | none => rintro x ⟨⟩
      | some k => exact hone hk rfl

theorem Inv.queue_none (hs : Inv s) (ht : t ∈ s.all) (hpc : t.pc ≠ .asleep) : t.queue = none := by
  cases hq : t.queue with
  | none => rfl
  | some k => exact absurd ((hs.tasks t ht).queued k hq).1 hpc

/-- The first section of a wait puts the task on the queue of its key. -/
theorem Inv.enters (hs : Inv s) (ht : s.find t.id = some t)
    (hpc : t.pc = .enter addr key expected ticks bitset) :
    Inv { s with
      nextCall := s.nextCall + 1
      all := Keyed.update Task.id s.all t.id fun _ =>
        { t.enqueue addr key ticks bitset s.nextCall with pc := .asleep } } := by
  have hin : t ∈ s.all := Keyed.mem_of_find ht
  have hwoken : ¬ t.Woken := by
    rintro ⟨_, _, ⟨h, _⟩ | h⟩
    · rw [hpc] at h
      cases h
    · rw [hpc] at h
      cases h
  have hkey : s.pages.key t.space addr = some key := by
    apply (hs.tasks t hin).places (addr, key)
    rw [hpc]
    exact List.mem_singleton.mpr rfl
  apply hs.replace ht { t.enqueue addr key ticks bitset s.nextCall with pc := .asleep } rfl rfl
    (Nat.le_succ _)
  · constructor
    · intro _
      refine ⟨Nat.lt_succ_self _, fun hc => ?_, by rintro ⟨⟩⟩
      exact absurd (hs.old _ (hs.zero _ hc)) (lt_irrefl _)
    · rintro k ⟨⟩
      refine ⟨rfl, fun hc => absurd (hs.old _ hc) (lt_irrefl _), hkey, ?_⟩
      refine ⟨_, (Keyed.mem_update hs.ids ht).mpr (.inl rfl), rfl⟩
    · rintro _ ⟨⟩
    · rintro ⟨⟩
    · rintro x ⟨⟩
  · exact fun _ => .inr rfl
  · exact fun c hc => hc
  · exact fun c hc => .inl hc
  · exact hs.zeroNodup
  · exact fun h => absurd h hwoken

/-- A wait goes on once its task runs again. -/
theorem Inv.wakesUp (hs : Inv s) (ht : s.find t.id = some t) (hpc : t.pc = .asleep) :
    Inv { s with
      all := Keyed.update Task.id s.all t.id fun _ =>
        { t.dequeue with pc := .check t.queue.isSome } } := by
  have hin : t ∈ s.all := Keyed.mem_of_find ht
  have hok := hs.tasks t hin
  apply hs.replace ht { t.dequeue with pc := .check t.queue.isSome } rfl rfl (le_refl _)
  · constructor
    · intro _
      obtain ⟨h₁, h₂, _⟩ := hok.call (.inl hpc)
      exact ⟨h₁, h₂, by rintro ⟨⟩⟩
    · rintro k ⟨⟩
    · rintro ⟨⟩
    · intro h
      dsimp only at h
      have hsome : t.queue.isSome = true := Pc.check.inj h
      obtain ⟨k, hk⟩ := Option.isSome_iff_exists.mp hsome
      exact (hok.queued k hk).2.1
    · rintro x ⟨⟩
  · exact fun _ => .inl ⟨.inl hpc, rfl⟩
  · exact fun c hc => hc
  · exact fun c hc => .inl hc
  · exact hs.zeroNodup
  · rintro ⟨_, _, hw⟩ _
    refine .inr ⟨⟨by rintro ⟨⟩, by rintro ⟨⟩, .inr ?_⟩, rfl⟩
    have hq : t.queue = none := by
      cases hw with
      | inl hw => exact hw.2
      | inr hw =>
        rw [hpc] at hw
        cases hw
    dsimp only
    rw [hq]
    rfl

/-- A wait ends, and is recorded when it returns 0. -/
theorem Inv.checks (hs : Inv s) (ht : s.find t.id = some t) (hpc : t.pc = .check timedOut)
    (hcount : t.call ∈ s.counted → signal = false)
    (hlost : timedOut = false → t.call ∉ s.counted → signal = true) :
    let out := s.pass t value signal fresh (.check timedOut)
    Inv (out.1.put out.2.1 out.2.2).1 := by
  have hin : t ∈ s.all := Keyed.mem_of_find ht
  have hok := hs.tasks t hin
  have hq : t.queue = none := by
    apply hs.queue_none hin
    rw [hpc]
    rintro ⟨⟩
  have hidle : ¬ ({ t with pc := .idle } : Task).Waits := by
    rintro (⟨⟨⟩⟩ | ⟨b, ⟨⟩⟩)
  -- the wait was not counted, and nothing is recorded
  have hquit : (t.call ∉ s.counted) → ∀ r, Inv (s.put t (.done r)).1 := by
    intro hnot r
    apply hs.settle ht { t with pc := .idle } rfl rfl hq hidle (by rintro x ⟨⟩)
    · exact fun c hc => hc
    · exact fun c hc => .inl hc
    · exact hs.zeroNodup
    · exact fun _ hc => absurd hc hnot
  unfold Sched.pass
  dsimp only
  cases signal with
  | true => exact hquit (fun hc => absurd (hcount hc) (by decide)) _
  | false =>
    cases timedOut with
    | true => exact hquit (hok.late hpc) _
    | false =>
      have hc : t.call ∈ s.counted := by
        by_contra h
        exact absurd (hlost rfl h) (by decide)
      obtain ⟨_, hz, _⟩ := hok.call (.inr ⟨false, hpc⟩)
      have hwoken : t.Woken := by
        obtain hc' | ⟨u, hu, hcall, hw⟩ := hs.kept _ hc
        · exact absurd hc' hz
        · have hid := hs.apart u hu t hin hw.waits (.inr ⟨false, hpc⟩) hcall
          exact List.inj_on_of_nodup_map hs.ids hu hin hid ▸ hw
      apply hs.settle ht { t with pc := .idle } rfl rfl hq hidle (by rintro x ⟨⟩)
      · exact fun c hc => List.mem_cons_of_mem _ hc
      · intro c hc'
        cases List.mem_cons.mp hc' with
        | inl h =>
          subst h
          exact .inr ⟨rfl, hwoken, hc⟩
        | inr h => exact .inl h
      · exact List.nodup_cons.mpr ⟨hz, hs.zeroNodup⟩
      · exact fun _ _ => List.mem_cons_self ..

/-- A section of any call. -/
theorem Inv.go (hs : Inv s) (ht : s.find t.id = some t) (hidle : t.pc ≠ .idle)
    (hquiet : s.Quiet (.go t.id value signal fresh)) :
    let out := s.pass t value signal fresh t.pc
    Inv (out.1.put out.2.1 out.2.2).1 := by
  have hin : t ∈ s.all := Keyed.mem_of_find ht
  have hok := hs.tasks t hin
  have hquiet' := hquiet t ht
  have hout : ∀ {pc}, t.pc = pc → pc ≠ .asleep → (∀ b, pc ≠ .check b) → ¬ t.Waits ∧ t.queue = none := by
    rintro _ rfl h₁ h₂
    refine ⟨?_, hs.queue_none hin h₁⟩
    rintro (h | ⟨b, h⟩)
    · exact h₁ h
    · exact h₂ b h
  cases hpc : t.pc with
  | idle => exact absurd hpc hidle
  | enter addr key expected ticks bitset =>
    obtain ⟨hw, hq⟩ := hout hpc (by rintro ⟨⟩) (by rintro b ⟨⟩)
    unfold Sched.pass
    dsimp only
    cases value with
    | none => exact hs.put ht hw hq (nextOk_done s _ _)
    | some v =>
      dsimp only
      split
      · exact hs.put ht hw hq (nextOk_done s _ _)
      · split
        · exact hs.put ht hw hq (nextOk_done s _ _)
        · split
          · exact hs.put ht hw hq (nextOk_done s _ _)
          · have hentered := hs.enters ht hpc
            exact hentered
  | asleep => exact hs.wakesUp ht hpc
  | check timedOut =>
    rw [hpc] at hquiet'
    exact hs.checks ht hpc hquiet'.1 hquiet'.2
  | wake addr key count bitset dying =>
    obtain ⟨hw, hq⟩ := hout hpc (by rintro ⟨⟩) (by rintro b ⟨⟩)
    unfold Sched.pass
    dsimp only
    split
    · exact hs.put ht hw hq (nextOk_done s _ _)
    · have hwakes := hs.wakes key bitset count.toNat
      apply hwakes.put _ hw hq
      · cases dying with
        | true => exact ⟨by rintro x ⟨⟩, by rintro ⟨⟩, by rintro b ⟨⟩⟩
        | false => exact nextOk_done _ _ _
      · exact Keyed.find_of_mem hwakes.ids (wakeLoop_keeps hin hq)
  | second addr key addr2 wc rc =>
    obtain ⟨hw, hq⟩ := hout hpc (by rintro ⟨⟩) (by rintro b ⟨⟩)
    unfold Sched.pass
    dsimp only
    cases hk : futexGetKey s.pages t.space addr2 with
    | error e => exact hs.put ht hw hq (nextOk_done s _ _)
    | ok key2 =>
      apply hs.put ht hw hq
      refine ⟨?_, by rintro ⟨⟩, by rintro b ⟨⟩⟩
      intro x hx
      cases List.mem_cons.mp hx with
      | inl h =>
        apply hok.places x
        rw [hpc, h]
        exact List.mem_singleton.mpr rfl
      | inr h =>
        rw [List.mem_singleton.mp h]
        exact futexGetKey_ok hk
  | requeue addr key addr2 key2 wc rc =>
    obtain ⟨hw, hq⟩ := hout hpc (by rintro ⟨⟩) (by rintro b ⟨⟩)
    unfold Sched.pass
    dsimp only
    split
    · exact hs.put ht hw hq (nextOk_done s _ _)
    · have hkey : s.pages.key t.space addr2 = some key2 := by
        apply hok.places (addr2, key2)
        rw [hpc]
        exact List.mem_cons_of_mem _ (List.mem_singleton.mpr rfl)
      have hmoved := hs.requeues (t.space, addr2) hkey ⟨t, hin, rfl⟩ key wc.toNat rc.toNat
      apply hmoved.put _ hw hq (nextOk_done _ _ _)
      exact Keyed.find_of_mem hmoved.ids (requeueLoop_keeps hin hq)
  | clear addr key =>
    obtain ⟨hw, hq⟩ := hout hpc (by rintro ⟨⟩) (by rintro b ⟨⟩)
    rw [hpc] at hquiet'
    have hpaged := hs.repage hquiet'
    apply hpaged.put ht hw hq
    cases key with
    | none => exact ⟨by rintro x ⟨⟩, by rintro ⟨⟩, by rintro b ⟨⟩⟩
    | some k =>
      refine ⟨?_, by rintro ⟨⟩, by rintro b ⟨⟩⟩
      intro x hx
      apply (hpaged.tasks t hin).places x
      rw [hpc]
      exact hx
  | die =>
    obtain ⟨hw, hq⟩ := hout hpc (by rintro ⟨⟩) (by rintro b ⟨⟩)
    apply hs.settle ht { t with queue := none, inSleepQueue := false, state := .dead, pc := .idle } rfl
      rfl rfl _ (by rintro x ⟨⟩)
    · exact fun c hc => hc
    · exact fun c hc => .inl hc
    · exact hs.zeroNodup
    · exact fun h => absurd h.waits hw
    · rintro (⟨⟨⟩⟩ | ⟨b, ⟨⟩⟩)

end Sections

section Runs

variable {s : Sched} {t : Task} {p : Nat}

theorem forall₂_update {f : Task → Task} (hf : ∀ t, Eased s t (f t)) (p : Nat) (l : List Task) :
    List.Forall₂ (Eased s) l (Keyed.update Task.id l p f) := by
  unfold Keyed.update
  rw [List.forall₂_map_right_iff, List.forall₂_same]
  intro t _
  split
  · exact hf t
  · exact .refl s t

/-- One task is eased, and nobody is counted. -/
theorem Inv.easedOne (hs : Inv s) {f : Task → Task} (hf : ∀ t, Eased s t (f t)) (p : Nat) :
    Inv (s.update p f) :=
  hs.eased (forall₂_update hf p s.all) [] List.nodup_nil (by rintro c ⟨⟩)

theorem eased_expire (s : Sched) (t : Task) : Eased s t (expire t) := by
  unfold expire markReady
  split
  · dsimp only
    split
    · next h => exact ⟨rfl, rfl, rfl, rfl, .inr ⟨h, rfl⟩, .inl ⟨rfl, rfl⟩⟩
    · exact ⟨rfl, rfl, rfl, rfl, .inl rfl, .inl ⟨rfl, rfl⟩⟩
  · exact .refl s t

theorem eased_wakeTask (s : Sched) (t : Task) : Eased s t (wakeTask t) := by
  unfold wakeTask
  split
  · exact eased_release s t
  · exact .refl s t

theorem Inv.spawn (hs : Inv s) (hnew : s.find p = none) (space : Nat) :
    Inv { s with all := newTask p space :: s.all } := by
  have hne : ∀ t ∈ s.all, t.id ≠ p := by
    rintro t ht rfl
    rw [show s.find t.id = some t from Keyed.find_of_mem hs.ids ht] at hnew
    cases hnew
  have hnot : ¬ (newTask p space).Waits := by
    rintro (⟨⟨⟩⟩ | ⟨b, ⟨⟩⟩)
  exact {
    ids := by
      rw [List.map_cons]
      apply List.nodup_cons.mpr
      refine ⟨?_, hs.ids⟩
      rintro h
      obtain ⟨t, ht, hid⟩ := List.mem_map.mp h
      exact hne t ht hid
    tasks := by
      intro t ht
      cases List.mem_cons.mp ht with
      | inl h =>
        subst h
        exact ⟨fun h => absurd h hnot, by rintro k ⟨⟩, by rintro ⟨⟩, by rintro ⟨⟩, by rintro x ⟨⟩⟩
      | inr h =>
        have hok := hs.tasks t h
        refine ⟨hok.call, ?_, hok.woken, hok.late, hok.places⟩
        intro k hk
        obtain ⟨h₁, h₂, h₃, u, hu, h₄⟩ := hok.queued k hk
        exact ⟨h₁, h₂, h₃, u, List.mem_cons_of_mem _ hu, h₄⟩
    apart := by
      intro t ht u hu hwt hwu hc
      cases List.mem_cons.mp ht with
      | inl h => exact absurd (h ▸ hwt) hnot
      | inr h =>
        cases List.mem_cons.mp hu with
        | inl h' => exact absurd (h' ▸ hwu) hnot
        | inr h' => exact hs.apart t h u h' hwt hwu hc
    nodup := hs.nodup
    old := hs.old
    zeroNodup := hs.zeroNodup
    zero := hs.zero
    kept := by
      intro c hc
      refine (hs.kept c hc).imp (fun h => h) ?_
      rintro ⟨t, ht, h⟩
      exact ⟨t, List.mem_cons_of_mem _ ht, h⟩ }

/-- Every step that meets the condition keeps the invariant. -/
theorem Inv.step (hs : Inv s) {a : Action} (hq : s.Quiet a) : Inv (s.next a) := by
  unfold Sched.next
  cases a with
  | call p c =>
    unfold Sched.step
    dsimp only
    cases ht : s.find p with
    | none => exact hs
    | some t =>
      have hp : t.id = p := Keyed.find_key ht
      subst hp
      dsimp only
      split
      · next h =>
        have hw : ¬ t.Waits := by
          rintro (h' | ⟨b, h'⟩)
          · rw [h.1] at h'
            cases h'
          · rw [h.1] at h'
            cases h'
        apply hs.put ht hw _ (nextOk_enter s t.space c)
        apply hs.queue_none (Keyed.mem_of_find ht)
        rw [h.1]
        rintro ⟨⟩
      · exact hs
  | go p value signal fresh =>
    unfold Sched.step
    dsimp only
    cases ht : s.find p with
    | none => exact hs
    | some t =>
      have hp : t.id = p := Keyed.find_key ht
      subst hp
      dsimp only
      split
      · exact hs
      · next h => exact hs.go ht (not_or.mp h).1 hq
  | timeout p => exact hs.easedOne (eased_expire s) p
  | interrupt p => exact hs.easedOne (eased_wakeTask s) p
  | write space page fresh => exact hs.repage hq
  | readFault space page e =>
    unfold Sched.step
    dsimp only
    cases he : s.pages space page with
    | none => exact hs.repage (hs.steady_readFault he e)
    | some e' => exact hs
  | reclaim space page zeroPage =>
    unfold Sched.step
    dsimp only
    cases he : s.pages space page with
    | none => exact hs
    | some e => exact hs.repage (hq e he)
  | fork space child =>
    unfold Sched.step
    dsimp only
    split
    · exact hs
    · next h => exact hs.repage (hs.steady_fork h)
  | spawn id space =>
    unfold Sched.step
    dsimp only
    cases ht : s.find id with
    | none => exact hs.spawn ht space
    | some t => exact hs

/-- Nobody is in a futex call. -/
structure Sched.Start (s : Sched) : Prop where
  ids : (s.all.map Task.id).Nodup
  tasks : ∀ t ∈ s.all, t.pc = .idle ∧ t.queue = none
  counted : s.counted = []
  zero : s.zero = []

theorem Sched.Start.inv (h : Sched.Start s) : Inv s := by
  have hnot : ∀ t ∈ s.all, ¬ t.Waits := by
    rintro t ht (hpc | ⟨b, hpc⟩)
    · rw [(h.tasks t ht).1] at hpc
      cases hpc
    · rw [(h.tasks t ht).1] at hpc
      cases hpc
  exact {
    ids := h.ids
    tasks := by
      intro t ht
      obtain ⟨hpc, hq⟩ := h.tasks t ht
      constructor
      · exact fun hw => absurd hw (hnot t ht)
      · intro k hk
        rw [hq] at hk
        cases hk
      · exact fun hw => absurd (.inl hw) (hnot t ht)
      · exact fun hw => absurd (.inr ⟨true, hw⟩) (hnot t ht)
      · rw [hpc]
        rintro x ⟨⟩
    apart := fun t ht _ _ hw => absurd hw (hnot t ht)
    nodup := by
      rw [h.counted]
      exact List.nodup_nil
    old := by
      rw [h.counted]
      rintro c ⟨⟩
    zeroNodup := by
      rw [h.zero]
      exact List.nodup_nil
    zero := by
      rw [h.zero]
      rintro c ⟨⟩
    kept := by
      rw [h.counted]
      rintro c ⟨⟩ }

end Runs

end Lebirun.Futex
