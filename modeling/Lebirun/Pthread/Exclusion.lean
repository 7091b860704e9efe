import Lebirun.Lib.Run
import Lebirun.Pthread.Sync

namespace Lebirun.Pthread
open Machine
open Function (update)
set_option autoImplicit true

section Invariant

/-- The mutex a place is about. -/
def Pc.mutex : Pc → Option Nat
  | .lock m | .lockAdd m _ | .lockSleep m | .tryLock m | .lockTake m | .lockAgain m | .lockSet m
  | .unlock m _ | .unlockDec m _ | .unlockTest m _ | .unlockFree m _ | .unlockWake m _ _
  | .condAdd _ _ m | .condSleep _ m => some m
  | _ => none

/-- The mutex a place is about to release or to lock once more. -/
def Pc.owned : Pc → Option Nat
  | .lockAgain m | .unlockDec m _ | .unlockTest m _ | .unlockFree m _ => some m
  | _ => none

/-- The condition variable a place is about, or comes to. -/
def Pc.cond : Pc → Option Nat
  | .unlock _ c | .unlockDec _ c | .unlockTest _ c | .unlockFree _ c | .unlockWake _ _ c => c
  | .condAdd c _ _ | .condSleep c _ | .signal c _ | .broadcast c _ => some c
  | _ => none

/-- The base of the array that a place has addressed. -/
def Pc.base : Pc → Option (Kind × Nat)
  | .lockAdd _ base | .unlockWake _ base _ => some (.mutex, base)
  | .condAdd _ base _ | .signal _ base | .broadcast _ base => some (.cond, base)
  | _ => none

/-- The condition variable on which a place will wait, with the mutex released already. -/
def Pc.released : Pc → Option Nat
  | .unlockWake _ _ c => c
  | .condAdd c _ _ => some c
  | _ => none

def Kernel.base (s : Kernel) : Kind → Nat
  | .mutex => s.mutexBase
  | .cond => s.condBase

/-- A queue of the tables as they are now. -/
def Kernel.Live (s : Kernel) (q : WaitQueue) : Prop := q.base = s.base q.kind

/-- The thread will test the mutex or wake somebody who does. -/
def Kernel.Coming (s : Kernel) (p m : Nat) : Prop :=
  (∃ base c, s.pcs p = .unlockWake m base c) ∨ s.pcs p = .lock m ∨ s.pcs p = .lockTake m ∨
    s.pcs p = .lockSet m ∨ s.pcs p = .lockSleep m ∧ s.blocked p = false

/-- Where a sleeping thread is. -/
def Kernel.SleepsAt (s : Kernel) (p : Nat) (q : WaitQueue) : Prop :=
  (∃ m, s.pcs p = .lockSleep m ∧ q = s.mutexQueue m) ∨ ∃ c m, s.pcs p = .condSleep c m ∧ q = s.condQueue c

structure Inv (s : Kernel) : Prop where
  range : ∀ p m, (s.pcs p).mutex = some m → m < s.mutexCapacity
  conds : ∀ p c, (s.pcs p).cond = some c → c < s.condCapacity
  held : ∀ p m, s.holds p m = true →
    m < s.mutexCapacity ∧ (s.mutexes m).locked = true ∧ (s.mutexes m).owner = p
  owned : ∀ p m, (s.pcs p).owned = some m → (s.mutexes m).locked = true ∧ (s.mutexes m).owner = p
  bases : ∀ p x, (s.pcs p).base = some x → x.2 = s.base x.1
  asleep : ∀ p, s.blocked p = true ↔ s.waitingQueue p ≠ none
  place : ∀ p q, s.waitingQueue p = some q → s.SleepsAt p q ∧ p ∈ s.heads q
  listed : ∀ q, s.Live q → (s.heads q).Nodup ∧ ∀ p ∈ s.heads q, s.waitingQueue p = some q
  coming : ∀ m, (s.mutexes m).locked = false → s.heads (s.mutexQueue m) ≠ [] → ∃ p, s.Coming p m

theorem live_mutex (s : Kernel) (m : Nat) : s.Live (s.mutexQueue m) := rfl

theorem live_cond (s : Kernel) (c : Nat) : s.Live (s.condQueue c) := rfl

/-- A thread that sleeps waits on a queue of the tables as they are. -/
theorem Inv.live (hs : Inv s) (h : s.waitingQueue p = some q) : s.Live q := by
  obtain ⟨⟨m, _, rfl⟩ | ⟨c, m, _, rfl⟩, _⟩ := hs.place p q h
  · exact live_mutex s m
  · exact live_cond s c

end Invariant

section Moving

variable {s : Kernel} {p r m : Nat} {c : Option Nat} {pc : Pc}

theorem goTo_self (s : Kernel) (p : Nat) (pc : Pc) : (s.goTo p pc).pcs p = pc := Function.update_self ..

theorem goTo_other (s : Kernel) (pc : Pc) (h : r ≠ p) : (s.goTo p pc).pcs r = s.pcs r :=
  Function.update_of_ne h ..

theorem coming_goTo_other (h : r ≠ p) : (s.goTo p pc).Coming r m ↔ s.Coming r m := by
  unfold Kernel.Coming
  rw [goTo_other s pc h]
  rfl

/-- A thread that is not asleep goes on. -/
theorem Inv.goTo (hs : Inv s) (hawake : s.waitingQueue p = none)
    (hrange : ∀ m, pc.mutex = some m → m < s.mutexCapacity)
    (hconds : ∀ c, pc.cond = some c → c < s.condCapacity)
    (howned : ∀ m, pc.owned = some m → (s.mutexes m).locked = true ∧ (s.mutexes m).owner = p)
    (hbase : ∀ x, pc.base = some x → x.2 = s.base x.1)
    (hcoming : ∀ m, s.Coming p m → (s.mutexes m).locked = false → s.heads (s.mutexQueue m) ≠ [] →
      ∃ r, (s.goTo p pc).Coming r m) : Inv (s.goTo p pc) where
  range := by
    intro r m h
    by_cases hr : r = p
    · rw [hr, goTo_self] at h
      exact hrange m h
    · rw [goTo_other s pc hr] at h
      exact hs.range r m h
  conds := by
    intro r c h
    by_cases hr : r = p
    · rw [hr, goTo_self] at h
      exact hconds c h
    · rw [goTo_other s pc hr] at h
      exact hs.conds r c h
  held := hs.held
  owned := by
    intro r m h
    by_cases hr : r = p
    · rw [hr, goTo_self] at h
      rw [hr]
      exact howned m h
    · rw [goTo_other s pc hr] at h
      exact hs.owned r m h
  bases := by
    intro r x h
    by_cases hr : r = p
    · rw [hr, goTo_self] at h
      exact hbase x h
    · rw [goTo_other s pc hr] at h
      exact hs.bases r x h
  asleep := hs.asleep
  place := by
    intro r q h
    have hr : r ≠ p := by
      rintro rfl
      change s.waitingQueue r = some q at h
      rw [hawake] at h
      cases h
    obtain ⟨h₁, h₂⟩ := hs.place r q h
    refine ⟨?_, h₂⟩
    unfold Kernel.SleepsAt
    rw [goTo_other s pc hr]
    exact h₁
  listed := hs.listed
  coming := by
    intro m hfree hne
    obtain ⟨r, hr⟩ := hs.coming m hfree hne
    by_cases h : r = p
    · exact hcoming m (h ▸ hr) hfree hne
    · exact ⟨r, (coming_goTo_other h).mpr hr⟩

/-- The count of a mutex changes. -/
theorem Inv.recount (hs : Inv s) (m : Nat) (n : Int) :
    Inv (s.setMutex m { s.mutexes m with recursiveCount := n }) := by
  have hsame : ∀ k, ((s.setMutex m { s.mutexes m with recursiveCount := n }).mutexes k).locked =
      (s.mutexes k).locked ∧ ((s.setMutex m { s.mutexes m with recursiveCount := n }).mutexes k).owner =
        (s.mutexes k).owner := by
    intro k
    unfold Kernel.setMutex
    by_cases h : k = m
    · subst h
      dsimp only
      rw [Function.update_self]
      exact ⟨rfl, rfl⟩
    · dsimp only
      rw [Function.update_of_ne h]
      exact ⟨rfl, rfl⟩
  exact {
    range := hs.range
    conds := hs.conds
    held := by
      intro p k h
      rw [(hsame k).1, (hsame k).2]
      exact hs.held p k h
    owned := by
      intro p k h
      rw [(hsame k).1, (hsame k).2]
      exact hs.owned p k h
    bases := hs.bases
    asleep := hs.asleep
    place := hs.place
    listed := hs.listed
    coming := by
      intro k h
      rw [(hsame k).1] at h
      exact hs.coming k h }

theorem setMutex_self (s : Kernel) (m : Nat) (e : Mutex) : (s.setMutex m e).mutexes m = e :=
  Function.update_self ..

theorem setMutex_other (s : Kernel) (e : Mutex) (h : k ≠ m) : (s.setMutex m e).mutexes k = s.mutexes k :=
  Function.update_of_ne h ..

/-- A free mutex is taken. -/
theorem Inv.acquire (hs : Inv s) (hfree : (s.mutexes m).locked = false) (hm : m < s.mutexCapacity)
    (p : Nat) :
    Inv ((s.setMutex m { s.mutexes m with locked := true, owner := p, recursiveCount := 1 }).setHolds p m
      true) where
  range := hs.range
  conds := hs.conds
  held := by
    intro r k h
    by_cases hk : k = m
    · subst hk
      change k < s.mutexCapacity ∧ ((s.setMutex k _).mutexes k).locked = true ∧
        ((s.setMutex k _).mutexes k).owner = r
      rw [setMutex_self]
      refine ⟨hm, rfl, ?_⟩
      by_contra hne
      have hold : s.holds r k = true := by
        change update s.holds p (update (s.holds p) k true) r k = true at h
        rw [Function.update_of_ne (fun hr => hne hr.symm)] at h
        exact h
      rw [(hs.held r k hold).2.1] at hfree
      cases hfree
    · have hold : s.holds r k = true := by
        change update s.holds p (update (s.holds p) m true) r k = true at h
        by_cases hr : r = p
        · subst hr
          rw [Function.update_self, Function.update_of_ne hk] at h
          exact h
        · rw [Function.update_of_ne hr] at h
          exact h
      change k < s.mutexCapacity ∧ ((s.setMutex m _).mutexes k).locked = true ∧
        ((s.setMutex m _).mutexes k).owner = r
      rw [setMutex_other s _ hk]
      exact hs.held r k hold
  owned := by
    intro r k h
    have hold := hs.owned r k h
    by_cases hk : k = m
    · rw [hk, hfree] at hold
      cases hold.1
    · change ((s.setMutex m _).mutexes k).locked = true ∧ ((s.setMutex m _).mutexes k).owner = r
      rw [setMutex_other s _ hk]
      exact hold
  bases := hs.bases
  asleep := hs.asleep
  place := hs.place
  listed := hs.listed
  coming := by
    intro k h hne
    change ((s.setMutex m _).mutexes k).locked = false at h
    by_cases hk : k = m
    · rw [hk, setMutex_self] at h
      cases h
    · rw [setMutex_other s _ hk] at h
      exact hs.coming k h hne

/-- The owner frees its mutex, and comes to wake somebody. -/
theorem Inv.free (hs : Inv s) (hpc : s.pcs p = .unlockFree m c) (hawake : s.waitingQueue p = none) :
    Inv (((s.setMutex m { s.mutexes m with locked := false, owner := 0 }).setHolds p m false).goTo p
      (.unlockWake m s.mutexBase c)) where
  range := by
    intro r k h
    by_cases hr : r = p
    · rw [hr, goTo_self] at h
      cases h
      apply hs.range p m
      rw [hpc]
      rfl
    · rw [goTo_other _ _ hr] at h
      exact hs.range r k h
  conds := by
    intro r d h
    by_cases hr : r = p
    · rw [hr, goTo_self] at h
      apply hs.conds p d
      rw [hpc]
      exact h
    · rw [goTo_other _ _ hr] at h
      exact hs.conds r d h
  held := by
    intro r k h
    change update s.holds p (update (s.holds p) m false) r k = true at h
    have howner := hs.owned p m (by rw [hpc]; rfl)
    have hold : s.holds r k = true ∧ ¬(r = p ∧ k = m) := by
      by_cases hr : r = p
      · subst hr
        rw [Function.update_self] at h
        by_cases hk : k = m
        · subst hk
          rw [Function.update_self] at h
          cases h
        · rw [Function.update_of_ne hk] at h
          exact ⟨h, fun h' => hk h'.2⟩
      · rw [Function.update_of_ne hr] at h
        exact ⟨h, fun h' => hr h'.1⟩
    have hk : k ≠ m := by
      rintro rfl
      exact hold.2 ⟨(hs.held r k hold.1).2.2.symm.trans howner.2, rfl⟩
    change k < s.mutexCapacity ∧ ((s.setMutex m _).mutexes k).locked = true ∧
      ((s.setMutex m _).mutexes k).owner = r
    rw [setMutex_other s _ hk]
    exact hs.held r k hold.1
  owned := by
    intro r k h
    by_cases hr : r = p
    · rw [hr, goTo_self] at h
      cases h
    · rw [goTo_other _ _ hr] at h
      have hold := hs.owned r k h
      have howner := hs.owned p m (by rw [hpc]; rfl)
      have hk : k ≠ m := by
        rintro rfl
        exact hr (hold.2.symm.trans howner.2)
      change ((s.setMutex m _).mutexes k).locked = true ∧ ((s.setMutex m _).mutexes k).owner = r
      rw [setMutex_other s _ hk]
      exact hold
  bases := by
    intro r x h
    by_cases hr : r = p
    · rw [hr, goTo_self] at h
      cases h
      rfl
    · rw [goTo_other _ _ hr] at h
      exact hs.bases r x h
  asleep := hs.asleep
  place := by
    intro r q h
    have hr : r ≠ p := by
      rintro rfl
      change s.waitingQueue r = some q at h
      rw [hawake] at h
      cases h
    obtain ⟨h₁, h₂⟩ := hs.place r q h
    refine ⟨?_, h₂⟩
    unfold Kernel.SleepsAt
    rw [goTo_other _ _ hr]
    exact h₁
  listed := hs.listed
  coming := by
    intro k h hne
    by_cases hk : k = m
    · exact ⟨p, .inl ⟨s.mutexBase, c, by rw [hk, goTo_self]⟩⟩
    · change ((s.setMutex m _).mutexes k).locked = false at h
      rw [setMutex_other s _ hk] at h
      obtain ⟨r, hr⟩ := hs.coming k h hne
      have hrp : r ≠ p := by
        rintro rfl
        unfold Kernel.Coming at hr
        rw [hpc] at hr
        simp at hr
      exact ⟨r, (coming_goTo_other hrp).mpr hr⟩

end Moving

section Queueing

variable {s : Kernel} {p r m : Nat} {q : WaitQueue} {pc : Pc}

/-- A thread goes to sleep: on the queue of a mutex that is taken, or of a condition variable. -/
theorem Inv.sleep (hs : Inv s) (hawake : s.waitingQueue p = none) (hnot : ∀ m, ¬ s.Coming p m)
    (hrange : ∀ m, pc.mutex = some m → m < s.mutexCapacity)
    (hconds : ∀ c, pc.cond = some c → c < s.condCapacity)
    (hpc : (∃ m, pc = .lockSleep m ∧ q = s.mutexQueue m ∧ (s.mutexes m).locked = true) ∨
      ∃ c m, pc = .condSleep c m ∧ q = s.condQueue c) : Inv ((s.waitqAdd q p).goTo p pc) := by
  have hlive : s.Live q := by
    obtain ⟨m, _, rfl, _⟩ | ⟨c, m, _, rfl⟩ := hpc
    · exact live_mutex s m
    · exact live_cond s c
  have hadd : s.waitqAdd q p =
      { s with
        heads := update s.heads q (p :: s.heads q)
        waitingQueue := update s.waitingQueue p (some q)
        blocked := update s.blocked p true } := if_pos hawake
  have hout : ∀ q', p ∉ s.heads q' ∨ ¬ s.Live q' := by
    intro q'
    by_cases h : s.Live q'
    · refine .inl fun hmem => ?_
      rw [(hs.listed q' h).2 p hmem] at hawake
      cases hawake
    · exact .inr h
  have hplain : pc.owned = none ∧ pc.base = none := by
    obtain ⟨m, rfl, _⟩ | ⟨c, m, rfl, _⟩ := hpc
    · exact ⟨rfl, rfl⟩
    · exact ⟨rfl, rfl⟩
  rw [hadd]
  exact {
    range := by
      intro r k h
      by_cases hr : r = p
      · rw [hr, goTo_self] at h
        exact hrange k h
      · rw [goTo_other _ _ hr] at h
        exact hs.range r k h
    conds := by
      intro r c h
      by_cases hr : r = p
      · rw [hr, goTo_self] at h
        exact hconds c h
      · rw [goTo_other _ _ hr] at h
        exact hs.conds r c h
    held := hs.held
    owned := by
      intro r k h
      by_cases hr : r = p
      · rw [hr, goTo_self, hplain.1] at h
        cases h
      · rw [goTo_other _ _ hr] at h
        exact hs.owned r k h
    bases := by
      intro r x h
      by_cases hr : r = p
      · rw [hr, goTo_self, hplain.2] at h
        cases h
      · rw [goTo_other _ _ hr] at h
        exact hs.bases r x h
    asleep := by
      intro r
      change update s.blocked p true r = true ↔ update s.waitingQueue p (some q) r ≠ none
      by_cases hr : r = p
      · subst hr
        rw [Function.update_self, Function.update_self]
        simp
      · rw [Function.update_of_ne hr, Function.update_of_ne hr]
        exact hs.asleep r
    place := by
      intro r q' h
      change update s.waitingQueue p (some q) r = some q' at h
      by_cases hr : r = p
      · subst hr
        rw [Function.update_self] at h
        cases h
        constructor
        · obtain ⟨m, h, hq, _⟩ | ⟨c, m, h, hq⟩ := hpc
          · exact .inl ⟨m, by rw [goTo_self, h], hq⟩
          · exact .inr ⟨c, m, by rw [goTo_self, h], hq⟩
        · change r ∈ update s.heads q (r :: s.heads q) q
          rw [Function.update_self]
          exact List.mem_cons_self ..
      · rw [Function.update_of_ne hr] at h
        obtain ⟨h₁, h₂⟩ := hs.place r q' h
        constructor
        · unfold Kernel.SleepsAt
          rw [goTo_other _ _ hr]
          exact h₁
        · change r ∈ update s.heads q (p :: s.heads q) q'
          by_cases hq : q' = q
          · rw [hq, Function.update_self]
            exact List.mem_cons_of_mem _ (hq ▸ h₂)
          · rw [Function.update_of_ne hq]
            exact h₂
    listed := by
      intro q' hl
      change (update s.heads q (p :: s.heads q) q').Nodup ∧ ∀ r ∈ update s.heads q (p :: s.heads q) q',
        update s.waitingQueue p (some q) r = some q'
      by_cases hq : q' = q
      · subst hq
        rw [Function.update_self]
        obtain ⟨hnd, hall⟩ := hs.listed q' hlive
        refine ⟨List.nodup_cons.mpr ⟨(hout q').resolve_right (fun h => h hlive), hnd⟩, ?_⟩
        intro r hr
        by_cases hrp : r = p
        · rw [hrp, Function.update_self]
        · rw [Function.update_of_ne hrp]
          exact hall r ((List.mem_cons.mp hr).resolve_left hrp)
      · rw [Function.update_of_ne hq]
        obtain ⟨hnd, hall⟩ := hs.listed q' hl
        refine ⟨hnd, fun r hr => ?_⟩
        have hrp : r ≠ p := by
          rintro rfl
          exact (hout q').resolve_right (fun h => h hl) hr
        rw [Function.update_of_ne hrp]
        exact hall r hr
    coming := by
      intro k hfree hne
      change (update s.heads q (p :: s.heads q) (s.mutexQueue k)) ≠ [] at hne
      have hq : s.mutexQueue k ≠ q := by
        rintro rfl
        obtain ⟨m, _, hq, hlocked⟩ | ⟨c, m, _, hq⟩ := hpc
        · cases hq
          rw [show (s.mutexes k).locked = false from hfree] at hlocked
          cases hlocked
        · cases hq
      rw [Function.update_of_ne hq] at hne
      obtain ⟨r, hr⟩ := hs.coming k hfree hne
      have hrp : r ≠ p := by
        rintro rfl
        exact hnot k hr
      refine ⟨r, (coming_goTo_other hrp).mpr ?_⟩
      obtain h | h | h | h | ⟨h, hb⟩ := hr
      · exact .inl h
      · exact .inr (.inl h)
      · exact .inr (.inr (.inl h))
      · exact .inr (.inr (.inr (.inl h)))
      · refine .inr (.inr (.inr (.inr ⟨h, ?_⟩)))
        change update s.blocked p true r = false
        rw [Function.update_of_ne hrp]
        exact hb }

/-- The threads of a list come off a queue. -/
def Kernel.wakeTo (s : Kernel) (q : WaitQueue) (woken rest : List Nat) : Kernel :=
  { s with
    heads := update s.heads q rest
    waitingQueue := fun p => if p ∈ woken then none else s.waitingQueue p
    blocked := fun p => if p ∈ woken then false else s.blocked p }

theorem waitqWakeAll_eq (s : Kernel) (q : WaitQueue) :
    s.waitqWakeAll q = s.wakeTo q (s.heads q) [] := rfl

theorem waitqWakeOne_eq (s : Kernel) (q : WaitQueue) :
    s.waitqWakeOne q = s.wakeTo q (s.heads q).head?.toList (s.heads q).tail := by
  unfold Kernel.waitqWakeOne Kernel.wakeTo
  cases h : s.heads q with
  | nil =>
    have hself : update s.heads q [] = s.heads := by
      rw [← h, Function.update_eq_self]
    simp [hself]
  | cons p l =>
    have hone : ∀ {α : Type} (f : Nat → α) (a : α),
        update f p a = fun r => if r ∈ [p] then a else f r := by
      intro α f a
      funext r
      by_cases hr : r = p
      · simp [hr]
      · simp [hr]
    dsimp only [List.head?_cons, Option.toList_some, List.tail_cons]
    rw [hone, hone]
    rfl

/-- Whoever comes off the queue of a mutex tests it again. -/
theorem Inv.coming_of_woken (hs : Inv s) (woken rest : List Nat) (hr : r ∈ woken)
    (hq : s.waitingQueue r = some (s.mutexQueue m)) : (s.wakeTo q woken rest).Coming r m := by
  obtain ⟨k, hk, hsame⟩ | ⟨c, k, _, hsame⟩ := (hs.place r _ hq).1
  · cases hsame
    exact .inr (.inr (.inr (.inr ⟨hk, if_pos hr⟩)))
  · cases hsame

theorem Inv.wakeTo (hs : Inv s) (hlive : s.Live q) {woken rest : List Nat}
    (hsplit : s.heads q = woken ++ rest) : Inv (s.wakeTo q woken rest) where
  range := hs.range
  conds := hs.conds
  held := hs.held
  owned := hs.owned
  bases := hs.bases
  asleep := by
    intro r
    change (if r ∈ woken then false else s.blocked r) = true ↔
      (if r ∈ woken then none else s.waitingQueue r) ≠ none
    by_cases h : r ∈ woken
    · simp [h]
    · rw [if_neg h, if_neg h]
      exact hs.asleep r
  place := by
    intro r q' h
    change (if r ∈ woken then none else s.waitingQueue r) = some q' at h
    by_cases hw : r ∈ woken
    · rw [if_pos hw] at h
      cases h
    · rw [if_neg hw] at h
      obtain ⟨h₁, h₂⟩ := hs.place r q' h
      refine ⟨h₁, ?_⟩
      change r ∈ update s.heads q rest q'
      by_cases hq : q' = q
      · rw [hq, hsplit] at h₂
        rw [hq, Function.update_self]
        exact (List.mem_append.mp h₂).resolve_left hw
      · rw [Function.update_of_ne hq]
        exact h₂
  listed := by
    intro q' hl
    change (update s.heads q rest q').Nodup ∧ ∀ r ∈ update s.heads q rest q',
      (if r ∈ woken then none else s.waitingQueue r) = some q'
    obtain ⟨hnd, hall⟩ := hs.listed q hlive
    rw [hsplit] at hnd hall
    by_cases hq : q' = q
    · subst hq
      rw [Function.update_self]
      refine ⟨(List.nodup_append.mp hnd).2.1, fun r hr => ?_⟩
      rw [if_neg fun hw => (List.nodup_append.mp hnd).2.2 r hw r hr rfl]
      exact hall r (List.mem_append_right _ hr)
    · rw [Function.update_of_ne hq]
      obtain ⟨hnd', hall'⟩ := hs.listed q' hl
      refine ⟨hnd', fun r hr => ?_⟩
      rw [if_neg]
      · exact hall' r hr
      · intro hw
        have h₁ := hall' r hr
        rw [hall r (List.mem_append_left _ hw)] at h₁
        exact hq (Option.some.inj h₁).symm
  coming := by
    intro k hfree hne
    change update s.heads q rest (s.mutexQueue k) ≠ [] at hne
    have hold : s.heads (s.mutexQueue k) ≠ [] := by
      by_cases hq : s.mutexQueue k = q
      · rw [hq, Function.update_self] at hne
        rw [hq, hsplit]
        simp [hne]
      · rw [Function.update_of_ne hq] at hne
        exact hne
    obtain ⟨r, hr⟩ := hs.coming k hfree hold
    refine ⟨r, ?_⟩
    obtain h | h | h | h | ⟨h, hb⟩ := hr
    · exact .inl h
    · exact .inr (.inl h)
    · exact .inr (.inr (.inl h))
    · exact .inr (.inr (.inr (.inl h)))
    · refine .inr (.inr (.inr (.inr ⟨h, ?_⟩)))
      change (if r ∈ woken then false else s.blocked r) = false
      split
      · rfl
      · exact hb

theorem Inv.wakeOne (hs : Inv s) (hlive : s.Live q) : Inv (s.waitqWakeOne q) := by
  rw [waitqWakeOne_eq]
  apply hs.wakeTo hlive
  cases s.heads q with
  | nil => rfl
  | cons p l => rfl

theorem Inv.wakeAll (hs : Inv s) (hlive : s.Live q) : Inv (s.waitqWakeAll q) := by
  rw [waitqWakeAll_eq]
  apply hs.wakeTo hlive
  rw [List.append_nil]

end Queueing

end Lebirun.Pthread
