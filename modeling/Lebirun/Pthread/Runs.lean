import Lebirun.Pthread.Exclusion

namespace Lebirun.Pthread
open Machine
open Function (update)
set_option autoImplicit true

section Condition

/-- The thread sleeps on the condition variable. -/
def Kernel.SleepsOn (s : Kernel) (p c : Nat) : Prop := (∃ m, s.pcs p = .condSleep c m) ∧ s.blocked p = true

/-- Nobody sleeps in the table or has addressed an entry of it. -/
def Kernel.Unused (s : Kernel) (kind : Kind) : Prop :=
  ∀ p, (∀ x, (s.pcs p).base = some x → x.1 ≠ kind) ∧ ∀ q, s.waitingQueue p = some q → q.kind ≠ kind

/-- A thread queues for a mutex only while it is taken, and takes it only while it is free; a signal
that comes while a thread has released its mutex and is not on the queue yet finds another one there;
and a table moves only while no thread sleeps in it or has addressed an entry of it. -/
def Kernel.Quiet (s : Kernel) : Action → Prop
  | .go p => match s.pcs p with
    | .lockAdd m _ => (s.mutexes m).taken p = true
    | .lockSet m => (s.mutexes m).locked = false
    | .signal c _ | .broadcast c _ => (∃ r, (s.pcs r).released = some c) → ∃ r, s.SleepsOn r c
    | _ => True
  | .growMutexes base => base = s.mutexBase ∨ s.Unused .mutex
  | .growConds base => base = s.condBase ∨ s.Unused .cond
  | _ => True

end Condition

section Preservation

variable {s : Kernel} {p r m : Nat} {c : Option Nat} {pc : Pc}

/-- Only a sleeping place is on a queue. -/
theorem Inv.awake (hs : Inv s) (h : ∀ m, s.pcs p ≠ .lockSleep m) (h' : ∀ c m, s.pcs p ≠ .condSleep c m) :
    s.waitingQueue p = none := by
  cases hq : s.waitingQueue p with
  | none => rfl
  | some q =>
    obtain ⟨⟨m, hm, _⟩ | ⟨c, m, hm, _⟩, _⟩ := hs.place p q hq
    · exact absurd hm (h m)
    · exact absurd hm (h' c m)

theorem Inv.unblocked (hs : Inv s) (h : s.blocked p = false) : s.waitingQueue p = none := by
  by_contra hne
  rw [(hs.asleep p).mpr hne] at h
  cases h

/-- A thread that nobody counts on goes on to a place that holds nothing. -/
theorem Inv.plain (hs : Inv s) (hawake : s.waitingQueue p = none)
    (hrange : ∀ m, pc.mutex = some m → m < s.mutexCapacity)
    (hconds : ∀ c, pc.cond = some c → c < s.condCapacity) (howned : pc.owned = none)
    (hbase : ∀ x, pc.base = some x → x.2 = s.base x.1)
    (hcoming : ∀ m, s.Coming p m → (s.mutexes m).locked = false → s.heads (s.mutexQueue m) ≠ [] →
      ∃ r, (s.goTo p pc).Coming r m) : Inv (s.goTo p pc) := by
  apply hs.goTo hawake hrange hconds _ hbase hcoming
  intro m h
  rw [howned] at h
  cases h

theorem Inv.not_coming (h : ∀ m base c, s.pcs p ≠ .unlockWake m base c) (h₁ : ∀ m, s.pcs p ≠ .lock m)
    (h₂ : ∀ m, s.pcs p ≠ .lockTake m) (h₃ : ∀ m, s.pcs p ≠ .lockSet m)
    (h₄ : ∀ m, s.pcs p ≠ .lockSleep m) (m : Nat) : ¬ s.Coming p m := by
  rintro (⟨base, c, hc⟩ | hc | hc | hc | ⟨hc, _⟩)
  · exact h m base c hc
  · exact h₁ m hc
  · exact h₂ m hc
  · exact h₃ m hc
  · exact h₄ m hc

/-- The end of an unlock, when nobody needs the thread any more. -/
theorem Inv.unlocked (hs : Inv s) (hawake : s.waitingQueue p = none) (hm : m < s.mutexCapacity)
    (hconds : ∀ d, c = some d → d < s.condCapacity)
    (hcoming : ∀ pc k, s.Coming p k → (s.mutexes k).locked = false → s.heads (s.mutexQueue k) ≠ [] →
      ∃ r, (s.goTo p pc).Coming r k) : Inv (s.unlocked p m c).1 := by
  cases c with
  | none => exact hs.plain hawake (by rintro m ⟨⟩) (by rintro d ⟨⟩) rfl (by rintro x ⟨⟩) (hcoming .idle)
  | some c =>
    apply hs.plain hawake _ _ rfl _ (hcoming _)
    · rintro k ⟨⟩
      exact hm
    · exact hconds
    · rintro x ⟨⟩
      rfl

/-- A wake of a mutex leaves somebody who tests it, if anybody slept there. -/
theorem Inv.wakeOne_coming (hs : Inv s) (hne : s.heads (s.mutexQueue m) ≠ []) :
    ∃ r, (s.waitqWakeOne (s.mutexQueue m)).pcs r = .lockSleep m ∧
      s.blocked r = true ∧ (s.waitqWakeOne (s.mutexQueue m)).blocked r = false := by
  rw [waitqWakeOne_eq]
  cases h : s.heads (s.mutexQueue m) with
  | nil => exact absurd h hne
  | cons r l =>
    have hq := (hs.listed _ (live_mutex s m)).2 r (by rw [h]; exact List.mem_cons_self ..)
    obtain ⟨⟨k, hk, hsame⟩ | ⟨c, k, _, hsame⟩, _⟩ := hs.place r _ hq
    · cases hsame
      refine ⟨r, hk, (hs.asleep r).mpr (by rw [hq]; rintro ⟨⟩), ?_⟩
      exact if_pos (List.mem_singleton.mpr rfl)
    · cases hsame

theorem wakeOne_pcs (s : Kernel) (q : WaitQueue) : (s.waitqWakeOne q).pcs = s.pcs := by
  rw [waitqWakeOne_eq]
  rfl

theorem wakeOne_mutexes (s : Kernel) (q : WaitQueue) : (s.waitqWakeOne q).mutexes = s.mutexes := by
  rw [waitqWakeOne_eq]
  rfl

theorem taken_locked {e : Mutex} (h : e.taken p = true) : e.locked = true := (of_decide_eq_true h).1

theorem mine_iff {e : Mutex} (h : e.mine p = true) : e.locked = true ∧ e.owner = p := of_decide_eq_true h

/-- A thread comes for the mutex of its place. -/
theorem coming_mutex (h : s.Coming p m) (hpc : s.pcs p = pc) : pc.mutex = some m := by
  subst hpc
  obtain ⟨base, c, h⟩ | h | h | h | ⟨h, _⟩ := h
  · rw [h]
    rfl
  · rw [h]
    rfl
  · rw [h]
    rfl
  · rw [h]
    rfl
  · rw [h]
    rfl

/-- One step of a thread. -/
theorem Inv.go (hs : Inv s) (hq : s.Quiet (.go p)) : Inv (s.go p).1 := by
  have hrange := hs.range p
  have hconds := hs.conds p
  have hbase := hs.bases p
  have hquiet : match s.pcs p with
    | .lockAdd m _ => (s.mutexes m).taken p = true
    | .lockSet m => (s.mutexes m).locked = false
    | .signal c _ | .broadcast c _ => (∃ r, (s.pcs r).released = some c) → ∃ r, s.SleepsOn r c
    | _ => True := hq
  unfold Kernel.go
  generalize hpc : s.pcs p = pc at *
  -- a step from `pc` that nobody counts on, or that stays on the way to the mutex
  have hnobody : (∀ m base c, pc ≠ .unlockWake m base c) → (∀ m, pc ≠ .lock m) → (∀ m, pc ≠ .lockTake m) →
      (∀ m, pc ≠ .lockSet m) → (∀ m, pc ≠ .lockSleep m) → ∀ m, ¬ s.Coming p m := by
    intro h h₁ h₂ h₃ h₄
    exact Inv.not_coming (hpc ▸ h) (hpc ▸ h₁) (hpc ▸ h₂) (hpc ▸ h₃) (hpc ▸ h₄)
  have hawake : (∀ m, pc ≠ .lockSleep m) → (∀ c m, pc ≠ .condSleep c m) → s.waitingQueue p = none := by
    intro h h'
    exact hs.awake (hpc ▸ h) (hpc ▸ h')
  cases pc with
  | idle => exact hs
  | lock m =>
    dsimp only
    have hw := hawake (by rintro m ⟨⟩) (by rintro c m ⟨⟩)
    have hm : m < s.mutexCapacity := hrange m rfl
    split
    · next htaken =>
      apply hs.plain hw (by rintro k ⟨⟩; exact hm) (by rintro d ⟨⟩) rfl (by rintro x ⟨⟩; rfl)
      intro k hk hfree _
      have hkm : k = m := (Option.some.inj (coming_mutex hk hpc)).symm
      subst hkm
      rw [taken_locked htaken] at hfree
      cases hfree
    · apply hs.plain hw (by rintro k ⟨⟩; exact hm) (by rintro d ⟨⟩) rfl (by rintro x ⟨⟩)
      intro k hk _ _
      have hkm : k = m := (Option.some.inj (coming_mutex hk hpc)).symm
      exact ⟨p, .inr (.inr (.inl (by rw [goTo_self, hkm])))⟩
  | lockAdd m base =>
    dsimp only
    have hw := hawake (by rintro m ⟨⟩) (by rintro c m ⟨⟩)
    have hb : base = s.mutexBase := hbase _ rfl
    subst hb
    apply hs.sleep hw
    · exact hnobody (by rintro m b c ⟨⟩) (by rintro m ⟨⟩) (by rintro m ⟨⟩) (by rintro m ⟨⟩) (by rintro m ⟨⟩)
    · rintro k ⟨⟩
      exact hrange m rfl
    · rintro d ⟨⟩
    · exact .inl ⟨m, rfl, rfl, taken_locked hquiet⟩
  | lockSleep m =>
    dsimp only
    cases hb : s.blocked p with
    | true => exact hs
    | false =>
      apply hs.plain (hs.unblocked hb) (by rintro k ⟨⟩; exact hrange m rfl) (by rintro d ⟨⟩) rfl (by rintro x ⟨⟩)
      intro k hk _ _
      have hkm : k = m := (Option.some.inj (coming_mutex hk hpc)).symm
      exact ⟨p, .inr (.inl (by rw [goTo_self, hkm]))⟩
  | tryLock m =>
    dsimp only
    have hw := hawake (by rintro m ⟨⟩) (by rintro c m ⟨⟩)
    have hnot := hnobody (by rintro m b c ⟨⟩) (by rintro m ⟨⟩) (by rintro m ⟨⟩) (by rintro m ⟨⟩)
      (by rintro m ⟨⟩)
    split
    · exact hs.plain hw (by rintro k ⟨⟩) (by rintro d ⟨⟩) rfl (by rintro x ⟨⟩) fun k hk => absurd hk (hnot k)
    · exact hs.plain hw (by rintro k ⟨⟩; exact hrange m rfl) (by rintro d ⟨⟩) rfl (by rintro x ⟨⟩)
        fun k hk => absurd hk (hnot k)
  | lockTake m =>
    dsimp only
    have hw := hawake (by rintro m ⟨⟩) (by rintro c m ⟨⟩)
    have honly : ∀ k, s.Coming p k → k = m := by
      intro k hk
      exact (Option.some.inj (coming_mutex hk hpc)).symm
    split
    · next hmine =>
      apply hs.goTo hw (by rintro k ⟨⟩; exact hrange m rfl) (by rintro d ⟨⟩)
        (by rintro k ⟨⟩; exact mine_iff hmine) (by rintro x ⟨⟩)
      intro k hk hfree _
      rw [honly k hk, (mine_iff hmine).1] at hfree
      cases hfree
    · apply hs.plain hw (by rintro k ⟨⟩; exact hrange m rfl) (by rintro d ⟨⟩) rfl (by rintro x ⟨⟩)
      intro k hk _ _
      exact ⟨p, .inr (.inr (.inr (.inl (by rw [goTo_self, honly k hk]))))⟩
  | lockAgain m =>
    have hw := hawake (by rintro m ⟨⟩) (by rintro c m ⟨⟩)
    have hnot := hnobody (by rintro m b c ⟨⟩) (by rintro m ⟨⟩) (by rintro m ⟨⟩) (by rintro m ⟨⟩)
      (by rintro m ⟨⟩)
    exact (hs.recount m _).plain hw (by rintro k ⟨⟩) (by rintro d ⟨⟩) rfl (by rintro x ⟨⟩) fun k hk => absurd hk (hnot k)
  | lockSet m =>
    have hw := hawake (by rintro m ⟨⟩) (by rintro c m ⟨⟩)
    have hlocked := hs.acquire hquiet (hrange m rfl) p
    apply hlocked.plain hw (by rintro k ⟨⟩) (by rintro d ⟨⟩) rfl (by rintro x ⟨⟩)
    intro k hk hfree _
    have hkm : k = m := (Option.some.inj (coming_mutex hk hpc)).symm
    subst hkm
    change ((s.setMutex k _).mutexes k).locked = false at hfree
    rw [setMutex_self] at hfree
    cases hfree
  | unlock m c =>
    dsimp only
    have hw := hawake (by rintro m ⟨⟩) (by rintro c m ⟨⟩)
    have hnot := hnobody (by rintro m b c ⟨⟩) (by rintro m ⟨⟩) (by rintro m ⟨⟩) (by rintro m ⟨⟩)
      (by rintro m ⟨⟩)
    split
    · next hmine =>
      exact hs.goTo hw (by rintro k ⟨⟩; exact hrange m rfl) hconds
        (by rintro k ⟨⟩; exact mine_iff hmine) (by rintro x ⟨⟩) fun k hk => absurd hk (hnot k)
    · exact hs.plain hw (by rintro k ⟨⟩) (by rintro d ⟨⟩) rfl (by rintro x ⟨⟩) fun k hk => absurd hk (hnot k)
  | unlockDec m c =>
    have hw := hawake (by rintro m ⟨⟩) (by rintro c m ⟨⟩)
    have hnot := hnobody (by rintro m b c ⟨⟩) (by rintro m ⟨⟩) (by rintro m ⟨⟩) (by rintro m ⟨⟩)
      (by rintro m ⟨⟩)
    apply (hs.recount m _).goTo hw (by rintro k ⟨⟩; exact hrange m rfl) _ _ (by rintro x ⟨⟩)
      fun k hk => absurd hk (hnot k)
    · exact hconds
    · rintro k ⟨⟩
      apply (hs.recount m _).owned p m
      rw [show (s.setMutex m _).pcs p = .unlockDec m c from hpc]
      rfl
  | unlockTest m c =>
    dsimp only
    have hw := hawake (by rintro m ⟨⟩) (by rintro c m ⟨⟩)
    have hnot := hnobody (by rintro m b c ⟨⟩) (by rintro m ⟨⟩) (by rintro m ⟨⟩) (by rintro m ⟨⟩)
      (by rintro m ⟨⟩)
    split
    · apply hs.goTo hw (by rintro k ⟨⟩; exact hrange m rfl) _ _ (by rintro x ⟨⟩)
        fun k hk => absurd hk (hnot k)
      · exact hconds
      · rintro k ⟨⟩
        apply hs.owned p m
        rw [hpc]
        rfl
    · exact hs.unlocked hw (hrange m rfl) hconds fun pc k hk => absurd hk (hnot k)
  | unlockFree m c => exact hs.free hpc (hawake (by rintro m ⟨⟩) (by rintro c m ⟨⟩))
  | unlockWake m base c =>
    have hb : base = s.mutexBase := hbase _ rfl
    subst hb
    have hlive := live_mutex s m
    have hw : (s.waitqWakeOne (s.mutexQueue m)).waitingQueue p = none := by
      apply (hs.wakeOne hlive).awake
      · intro k
        rw [wakeOne_pcs, hpc]
        rintro ⟨⟩
      · intro k j
        rw [wakeOne_pcs, hpc]
        rintro ⟨⟩
    apply (hs.wakeOne hlive).unlocked hw
    · rw [waitqWakeOne_eq]
      exact hrange m rfl
    · rw [waitqWakeOne_eq]
      exact hconds
    · intro pc k hk hfree hne
      have hkm : k = m :=
        (Option.some.inj (coming_mutex hk ((congrFun (wakeOne_pcs _ _) p).trans hpc))).symm
      subst hkm
      have hold : s.heads (s.mutexQueue k) ≠ [] := by
        intro h
        apply hne
        rw [waitqWakeOne_eq, h]
        exact Function.update_self ..
      obtain ⟨r, hr, _, hrb⟩ := hs.wakeOne_coming hold
      have hrp : r ≠ p := by
        rintro rfl
        rw [wakeOne_pcs, hpc] at hr
        cases hr
      exact ⟨r, (coming_goTo_other hrp).mpr (.inr (.inr (.inr (.inr ⟨hr, hrb⟩))))⟩
  | condAdd c base m =>
    have hw := hawake (by rintro m ⟨⟩) (by rintro c m ⟨⟩)
    have hb : base = s.condBase := hbase _ rfl
    subst hb
    apply hs.sleep hw
    · exact hnobody (by rintro m b c ⟨⟩) (by rintro m ⟨⟩) (by rintro m ⟨⟩) (by rintro m ⟨⟩) (by rintro m ⟨⟩)
    · rintro k ⟨⟩
      exact hrange m rfl
    · exact hconds
    · exact .inr ⟨c, m, rfl, rfl⟩
  | condSleep c m =>
    dsimp only
    have hnot := hnobody (by rintro m b c ⟨⟩) (by rintro m ⟨⟩) (by rintro m ⟨⟩) (by rintro m ⟨⟩)
      (by rintro m ⟨⟩)
    cases hb : s.blocked p with
    | true => exact hs
    | false =>
      exact hs.plain (hs.unblocked hb) (by rintro k ⟨⟩; exact hrange m rfl) (by rintro d ⟨⟩) rfl (by rintro x ⟨⟩)
        fun k hk => absurd hk (hnot k)
  | signal c base =>
    have hb : base = s.condBase := hbase _ rfl
    subst hb
    have hwoken := hs.wakeOne (live_cond s c)
    apply hwoken.plain _ (by rintro k ⟨⟩) (by rintro d ⟨⟩) rfl (by rintro x ⟨⟩)
    · intro k hk
      refine absurd hk (Inv.not_coming ?_ ?_ ?_ ?_ ?_ k)
      all_goals
        intros
        rw [wakeOne_pcs, hpc]
        rintro ⟨⟩
    · apply hwoken.awake
      all_goals
        intros
        rw [wakeOne_pcs, hpc]
        rintro ⟨⟩
  | broadcast c base =>
    have hb : base = s.condBase := hbase _ rfl
    subst hb
    have hwoken := hs.wakeAll (live_cond s c)
    have hpcs : (s.waitqWakeAll (s.condQueue c)).pcs p = .broadcast c s.condBase := hpc
    apply hwoken.plain _ (by rintro k ⟨⟩) (by rintro d ⟨⟩) rfl (by rintro x ⟨⟩)
    · intro k hk
      refine absurd hk (Inv.not_coming ?_ ?_ ?_ ?_ ?_ k)
      all_goals
        intros
        rw [hpcs]
        rintro ⟨⟩
    · apply hwoken.awake
      all_goals
        intros
        rw [hpcs]
        rintro ⟨⟩

end Preservation

section Growth

variable {s : Kernel} {p m c : Nat}

theorem le_grown (n : Nat) : n ≤ grown n := by
  unfold grown
  split
  · omega
  · omega

/-- A table that nobody sleeps in has empty queues. -/
theorem Inv.heads_empty (hs : Inv s) {kind : Kind} (h : ∀ p q, s.waitingQueue p = some q → q.kind ≠ kind)
    (slot : Nat) : s.heads ⟨kind, s.base kind, slot⟩ = [] := by
  cases hq : s.heads ⟨kind, s.base kind, slot⟩ with
  | nil => rfl
  | cons p l =>
    have := (hs.listed ⟨kind, s.base kind, slot⟩ rfl).2 p (by rw [hq]; exact List.mem_cons_self ..)
    exact absurd rfl (h p _ this)

theorem Inv.moved_empty (hs : Inv s) {kind : Kind} (h : ∀ p q, s.waitingQueue p = some q → q.kind ≠ kind)
    (base capacity slot : Nat) :
    moveHeads s.heads kind (s.base kind) capacity base ⟨kind, base, slot⟩ = [] := by
  unfold moveHeads
  rw [if_pos ⟨rfl, rfl⟩]
  split
  · exact hs.heads_empty h slot
  · rfl

theorem moveHeads_other (heads : WaitQueue → List Nat) (kind : Kind) {q : WaitQueue} (h : q.kind ≠ kind)
    (base capacity base' : Nat) : moveHeads heads kind base capacity base' q = heads q :=
  if_neg fun h' => h h'.1

theorem Inv.owned_lt (hs : Inv s) (h : (s.pcs p).owned = some m) : m < s.mutexCapacity := by
  apply hs.range p m
  generalize s.pcs p = pc at h ⊢
  cases pc with
  | lockAgain k => exact h
  | unlockDec k c => exact h
  | unlockTest k c => exact h
  | unlockFree k c => exact h
  | _ => cases h

theorem Inv.growMutexes (hs : Inv s) {base : Nat} (hq : s.Unused .mutex) :
    Inv (s.next (.growMutexes base)) := by
  have hnone : ∀ p q, s.waitingQueue p = some q → q.kind ≠ .mutex := fun p => (hq p).2
  have hentry : ∀ m, m < s.mutexCapacity → (s.next (.growMutexes base)).mutexes m = s.mutexes m :=
    fun m h => if_pos h
  have hempty : ∀ m, (s.next (.growMutexes base)).heads ((s.next (.growMutexes base)).mutexQueue m) = [] :=
    fun m => hs.moved_empty hnone base s.mutexCapacity m
  exact {
    range := fun p m h => lt_of_lt_of_le (hs.range p m h) (le_grown _)
    conds := hs.conds
    held := by
      intro p m h
      obtain ⟨h₁, h₂⟩ := hs.held p m h
      rw [hentry m h₁]
      exact ⟨lt_of_lt_of_le h₁ (le_grown _), h₂⟩
    owned := by
      intro p m h
      rw [hentry m (hs.owned_lt h)]
      exact hs.owned p m h
    bases := by
      intro p x hx
      have hkind := (hq p).1 x hx
      have hold := hs.bases p x hx
      obtain ⟨kind, b⟩ := x
      cases kind with
      | mutex => exact absurd rfl hkind
      | cond => exact hold
    asleep := hs.asleep
    place := by
      intro p q h
      obtain ⟨h₁, h₂⟩ := hs.place p q h
      have hkind := hnone p q h
      constructor
      · obtain ⟨m, _, rfl⟩ | ⟨c, m, hc, rfl⟩ := h₁
        · exact absurd rfl hkind
        · exact .inr ⟨c, m, hc, rfl⟩
      · change p ∈ moveHeads s.heads .mutex s.mutexBase s.mutexCapacity base q
        rw [moveHeads_other _ _ hkind]
        exact h₂
    listed := by
      intro q hl
      obtain ⟨kind, b, slot⟩ := q
      cases kind with
      | mutex =>
        cases hl
        rw [show (s.next (.growMutexes base)).heads ⟨.mutex, base, slot⟩ = [] from hempty slot]
        exact ⟨List.nodup_nil, by rintro p ⟨⟩⟩
      | cond =>
        have := hs.listed ⟨.cond, b, slot⟩ hl
        rw [← moveHeads_other s.heads .mutex (by rintro ⟨⟩) s.mutexBase s.mutexCapacity base]
          at this
        exact this
    coming := fun m _ h => absurd (hempty m) h }

theorem Inv.growConds (hs : Inv s) {base : Nat} (hq : s.Unused .cond) :
    Inv (s.next (.growConds base)) := by
  have hnone : ∀ p q, s.waitingQueue p = some q → q.kind ≠ .cond := fun p => (hq p).2
  have hsame : ∀ m, (s.next (.growConds base)).heads ((s.next (.growConds base)).mutexQueue m) =
      s.heads (s.mutexQueue m) := by
    intro m
    have hkind : (s.mutexQueue m).kind ≠ .cond := by
      rintro ⟨⟩
    exact moveHeads_other s.heads .cond hkind s.condBase s.condCapacity base
  exact {
    range := hs.range
    conds := fun p c h => lt_of_lt_of_le (hs.conds p c h) (le_grown _)
    held := hs.held
    owned := hs.owned
    bases := by
      intro p x hx
      have hkind := (hq p).1 x hx
      have hold := hs.bases p x hx
      obtain ⟨kind, b⟩ := x
      cases kind with
      | mutex => exact hold
      | cond => exact absurd rfl hkind
    asleep := hs.asleep
    place := by
      intro p q h
      obtain ⟨h₁, h₂⟩ := hs.place p q h
      have hkind := hnone p q h
      constructor
      · obtain ⟨m, hm, rfl⟩ | ⟨c, m, _, rfl⟩ := h₁
        · exact .inl ⟨m, hm, rfl⟩
        · exact absurd rfl hkind
      · change p ∈ moveHeads s.heads .cond s.condBase s.condCapacity base q
        rw [moveHeads_other _ _ hkind]
        exact h₂
    listed := by
      intro q hl
      obtain ⟨kind, b, slot⟩ := q
      cases kind with
      | mutex =>
        have := hs.listed ⟨.mutex, b, slot⟩ hl
        rw [← moveHeads_other s.heads .cond (by rintro ⟨⟩) s.condBase s.condCapacity base] at this
        exact this
      | cond =>
        cases hl
        have hempty : (s.next (.growConds base)).heads ⟨.cond, base, slot⟩ = [] :=
          hs.moved_empty hnone base s.condCapacity slot
        rw [hempty]
        exact ⟨List.nodup_nil, by rintro p ⟨⟩⟩
    coming := by
      intro m hfree hne
      rw [hsame m] at hne
      exact hs.coming m hfree hne }

/-- The queues past the end of a table are empty. -/
theorem Inv.heads_past (hs : Inv s) (h : s.mutexCapacity ≤ m) : s.heads (s.mutexQueue m) = [] := by
  cases hq : s.heads (s.mutexQueue m) with
  | nil => rfl
  | cons p l =>
    have hp := (hs.listed _ (live_mutex s m)).2 p (by rw [hq]; exact List.mem_cons_self ..)
    obtain ⟨⟨k, hk, hsame⟩ | ⟨c, k, _, hsame⟩, _⟩ := hs.place p _ hp
    · cases hsame
      have := hs.range p m (by rw [hk]; rfl)
      exact absurd this (Nat.not_lt.mpr h)
    · cases hsame

theorem Inv.conds_past (hs : Inv s) (h : s.condCapacity ≤ c) : s.heads (s.condQueue c) = [] := by
  cases hq : s.heads (s.condQueue c) with
  | nil => rfl
  | cons p l =>
    have hp := (hs.listed _ (live_cond s c)).2 p (by rw [hq]; exact List.mem_cons_self ..)
    obtain ⟨⟨k, _, hsame⟩ | ⟨d, k, hk, hsame⟩, _⟩ := hs.place p _ hp
    · cases hsame
    · cases hsame
      have := hs.conds p c (by rw [hk]; rfl)
      exact absurd this (Nat.not_lt.mpr h)

/-- A table that grows where it is keeps its queues. -/
theorem moveHeads_self {heads : WaitQueue → List Nat} {kind : Kind} {base capacity : Nat}
    (h : ∀ slot, capacity ≤ slot → heads ⟨kind, base, slot⟩ = []) :
    moveHeads heads kind base capacity base = heads := by
  funext q
  obtain ⟨k, b, slot⟩ := q
  unfold moveHeads
  split
  · next hq =>
    obtain ⟨rfl, rfl⟩ := hq
    split
    · rfl
    · next hslot => exact (h slot (Nat.not_lt.mp hslot)).symm
  · rfl

theorem Inv.growMutexesHere (hs : Inv s) : Inv (s.next (.growMutexes s.mutexBase)) := by
  have hheads : (s.next (.growMutexes s.mutexBase)).heads = s.heads :=
    moveHeads_self fun _ h => hs.heads_past h
  have hentry : ∀ m, m < s.mutexCapacity → (s.next (.growMutexes s.mutexBase)).mutexes m = s.mutexes m :=
    fun m h => if_pos h
  exact {
    range := fun p m h => lt_of_lt_of_le (hs.range p m h) (le_grown _)
    conds := hs.conds
    held := by
      intro p m h
      obtain ⟨h₁, h₂⟩ := hs.held p m h
      rw [hentry m h₁]
      exact ⟨lt_of_lt_of_le h₁ (le_grown _), h₂⟩
    owned := by
      intro p m h
      rw [hentry m (hs.owned_lt h)]
      exact hs.owned p m h
    bases := hs.bases
    asleep := hs.asleep
    place := by
      intro p q h
      rw [hheads]
      exact hs.place p q h
    listed := by
      intro q h
      rw [hheads]
      exact hs.listed q h
    coming := by
      intro m hfree hne
      rw [hheads] at hne
      by_cases hm : m < s.mutexCapacity
      · rw [hentry m hm] at hfree
        exact hs.coming m hfree hne
      · exact absurd (hs.heads_past (Nat.not_lt.mp hm)) hne }

theorem Inv.growCondsHere (hs : Inv s) : Inv (s.next (.growConds s.condBase)) := by
  have hheads : (s.next (.growConds s.condBase)).heads = s.heads :=
    moveHeads_self fun _ h => hs.conds_past h
  exact {
    range := hs.range
    conds := fun p c h => lt_of_lt_of_le (hs.conds p c h) (le_grown _)
    held := hs.held
    owned := hs.owned
    bases := hs.bases
    asleep := hs.asleep
    place := by
      intro p q h
      rw [hheads]
      exact hs.place p q h
    listed := by
      intro q h
      rw [hheads]
      exact hs.listed q h
    coming := by
      intro m hfree hne
      rw [hheads] at hne
      exact hs.coming m hfree hne }

end Growth

section Steps

variable {s : Kernel} {p m c : Nat}

theorem Inv.call (hs : Inv s) (hpc : s.pcs p = .idle) {call : Call} (he : s.enter call = some pc) : Inv (s.goTo p pc) := by
  have hw : s.waitingQueue p = none := by
    apply hs.awake
    all_goals
      intros
      rw [hpc]
      rintro ⟨⟩
  have hnot : ∀ m, ¬ s.Coming p m := by
    apply Inv.not_coming
    all_goals
      intros
      rw [hpc]
      rintro ⟨⟩
  have hplain : (∀ m, pc.mutex = some m → m < s.mutexCapacity) ∧
      (∀ c, pc.cond = some c → c < s.condCapacity) ∧ pc.owned = none ∧ ∀ x, pc.base = some x → x.2 = s.base x.1 := by
    have hm : ∀ {m}, s.mutexOk m = true → m < s.mutexCapacity := fun h => (of_decide_eq_true h).1
    have hc : ∀ {c}, s.condOk c = true → c < s.condCapacity := fun h => (of_decide_eq_true h).1
    cases call with
    | lock m =>
      obtain ⟨h, ⟨⟩⟩ := Option.ite_none_right_eq_some.mp he
      exact ⟨by rintro k ⟨⟩; exact hm h, by rintro d ⟨⟩, rfl, by rintro x ⟨⟩⟩
    | tryLock m =>
      obtain ⟨h, ⟨⟩⟩ := Option.ite_none_right_eq_some.mp he
      exact ⟨by rintro k ⟨⟩; exact hm h, by rintro d ⟨⟩, rfl, by rintro x ⟨⟩⟩
    | unlock m =>
      obtain ⟨h, ⟨⟩⟩ := Option.ite_none_right_eq_some.mp he
      exact ⟨by rintro k ⟨⟩; exact hm h, by rintro d ⟨⟩, rfl, by rintro x ⟨⟩⟩
    | condWait c m =>
      obtain ⟨h, ⟨⟩⟩ := Option.ite_none_right_eq_some.mp he
      exact ⟨by rintro k ⟨⟩; exact hm h.2, by rintro d ⟨⟩; exact hc h.1, rfl, by rintro x ⟨⟩⟩
    | condSignal c =>
      obtain ⟨h, ⟨⟩⟩ := Option.ite_none_right_eq_some.mp he
      exact ⟨by rintro k ⟨⟩, by rintro d ⟨⟩; exact hc h, rfl, by rintro x ⟨⟩; rfl⟩
    | condBroadcast c =>
      obtain ⟨h, ⟨⟩⟩ := Option.ite_none_right_eq_some.mp he
      exact ⟨by rintro k ⟨⟩, by rintro d ⟨⟩; exact hc h, rfl, by rintro x ⟨⟩; rfl⟩
  exact hs.plain hw hplain.1 hplain.2.1 hplain.2.2.1 hplain.2.2.2 fun m hm => absurd hm (hnot m)

/-- Every step that meets the condition keeps the invariant. -/
theorem Inv.step (hs : Inv s) {a : Action} (hq : s.Quiet a) : Inv (s.next a) := by
  cases a with
  | call p c =>
    unfold Kernel.next Kernel.step
    dsimp only
    split
    · next hpc =>
      cases he : s.enter c with
      | none => exact hs
      | some pc => exact hs.call hpc he
    · exact hs
  | go p => exact hs.go hq
  | growMutexes base =>
    obtain rfl | hunused := hq
    · exact hs.growMutexesHere
    · exact hs.growMutexes hunused
  | growConds base =>
    obtain rfl | hunused := hq
    · exact hs.growCondsHere
    · exact hs.growConds hunused

/-- Every mutex is free, and no thread is in a call. -/
structure Kernel.Start (s : Kernel) : Prop where
  free : ∀ m, (s.mutexes m).locked = false
  pcs : ∀ p, s.pcs p = .idle
  awake : ∀ p, s.blocked p = false ∧ s.waitingQueue p = none
  heads : ∀ q, s.Live q → s.heads q = []
  holds : ∀ p m, s.holds p m = false

theorem Kernel.Start.inv (h : Kernel.Start s) : Inv s where
  range := by
    intro p m hm
    rw [h.pcs p] at hm
    cases hm
  conds := by
    intro p c hc
    rw [h.pcs p] at hc
    cases hc
  held := by
    intro p m hm
    rw [h.holds p m] at hm
    cases hm
  owned := by
    intro p m hm
    rw [h.pcs p] at hm
    cases hm
  bases := by
    intro p x hx
    rw [h.pcs p] at hx
    cases hx
  asleep := by
    intro p
    rw [(h.awake p).1, (h.awake p).2]
    simp
  place := by
    intro p q hq
    rw [(h.awake p).2] at hq
    cases hq
  listed := by
    intro q hl
    rw [h.heads q hl]
    exact ⟨List.nodup_nil, by rintro p ⟨⟩⟩
  coming := by
    intro m _ hne
    exact absurd (h.heads _ (live_mutex s m)) hne

end Steps

section Result

variable {s : Kernel} {p m c : Nat}

/-- The thread entered `cond_wait`, released its mutex and was not woken since. -/
def Kernel.WaitsFor (s : Kernel) (p c : Nat) : Prop :=
  (s.pcs p).released = some c ∨ s.SleepsOn p c

/-- A signal wakes one of the waiters, a broadcast too and every sleeping one, and an unlock one of
those who sleep. -/
def Kernel.Wakes (s : Kernel) (a : Action) : Prop :=
  ∀ p, a = .go p →
    (∀ c base, s.pcs p = .signal c base → (∃ r, s.WaitsFor r c) →
      ∃ r, s.WaitsFor r c ∧ (s.next a).blocked r = false ∧ (s.next a).waitingQueue r = none) ∧
    (∀ c base, s.pcs p = .broadcast c base → (∃ r, s.WaitsFor r c) →
      (∃ r, s.SleepsOn r c) ∧ ∀ r, s.SleepsOn r c →
        (s.next a).blocked r = false ∧ (s.next a).waitingQueue r = none) ∧
    ∀ m base c, s.pcs p = .unlockWake m base c → (∃ r, s.pcs r = .lockSleep m ∧ s.blocked r = true) →
      ∃ r, s.pcs r = .lockSleep m ∧ s.blocked r = true ∧ (s.next a).blocked r = false

/-- Two threads do not hold one mutex; who sleeps is on a queue of the tables as they are; and a free
mutex that somebody sleeps on has somebody who comes for it. -/
structure Kernel.Sound (s : Kernel) : Prop where
  exclusive : ∀ p r m, s.holds p m = true → s.holds r m = true → p = r
  queues : ∀ p q, s.waitingQueue p = some q → s.Live q ∧ p ∈ s.heads q
  notStuck : ∀ m p, (s.mutexes m).locked = false → s.pcs p = .lockSleep m → ∃ r, s.Coming r m

theorem Inv.sound (hs : Inv s) : s.Sound where
  exclusive := by
    intro p r m hp hr
    exact (hs.held p m hp).2.2.symm.trans (hs.held r m hr).2.2
  queues := fun p q h => ⟨hs.live h, (hs.place p q h).2⟩
  notStuck := by
    intro m p hfree hpc
    cases hb : s.blocked p with
    | false => exact ⟨p, .inr (.inr (.inr (.inr ⟨hpc, hb⟩)))⟩
    | true =>
      obtain ⟨q, hq⟩ := Option.ne_none_iff_exists'.mp ((hs.asleep p).mp hb)
      obtain ⟨⟨k, hk, rfl⟩ | ⟨c, k, hk, _⟩, hmem⟩ := hs.place p q hq
      · rw [hpc] at hk
        cases hk
        exact hs.coming m hfree (List.ne_nil_of_mem hmem)
      · rw [hpc] at hk
        cases hk

/-- Who sleeps on a condition variable is on its queue. -/
theorem Inv.queued (hs : Inv s) (hr : s.SleepsOn p c) : p ∈ s.heads (s.condQueue c) := by
  obtain ⟨⟨m, hpc⟩, hb⟩ := hr
  obtain ⟨q, hq⟩ := Option.ne_none_iff_exists'.mp ((hs.asleep p).mp hb)
  obtain ⟨⟨k, hk, _⟩ | ⟨d, k, hk, rfl⟩, hmem⟩ := hs.place p q hq
  · rw [hpc] at hk
    cases hk
  · rw [hpc] at hk
    cases hk
    exact hmem

/-- Who is on the queue of a condition variable sleeps on it. -/
theorem Inv.sleepsOn (hs : Inv s) (h : p ∈ s.heads (s.condQueue c)) : s.SleepsOn p c := by
  have hq := (hs.listed _ (live_cond s c)).2 p h
  obtain ⟨⟨k, _, hsame⟩ | ⟨d, k, hk, hsame⟩, _⟩ := hs.place p _ hq
  · cases hsame
  · cases hsame
    refine ⟨⟨k, hk⟩, (hs.asleep p).mpr ?_⟩
    rw [hq]
    rintro ⟨⟩

theorem Inv.wakes (hs : Inv s) {a : Action} (hq : s.Quiet a) : s.Wakes a := by
  rintro p rfl
  have hquiet : match s.pcs p with
    | .lockAdd m _ => (s.mutexes m).taken p = true
    | .lockSet m => (s.mutexes m).locked = false
    | .signal c _ | .broadcast c _ => (∃ r, (s.pcs r).released = some c) → ∃ r, s.SleepsOn r c
    | _ => True := hq
  have hsleeper : ∀ c, ((∃ r, (s.pcs r).released = some c) → ∃ r, s.SleepsOn r c) →
      (∃ r, s.WaitsFor r c) → ∃ r, s.SleepsOn r c := by
    rintro c h ⟨r, hr | hr⟩
    · exact h ⟨r, hr⟩
    · exact ⟨r, hr⟩
  refine ⟨?_, ?_, ?_⟩
  · intro c base hpc hr
    rw [hpc] at hquiet
    have hb : base = s.condBase := hs.bases p (.cond, base) (by rw [hpc]; rfl)
    subst hb
    obtain ⟨r, hr⟩ := hsleeper c hquiet hr
    have hmem := hs.queued hr
    have hnext : (s.next (.go p)) = (s.waitqWakeOne (s.condQueue c)).goTo p .idle := by
      unfold Kernel.next Kernel.step Kernel.go
      dsimp only
      rw [hpc]
      rfl
    rw [hnext, waitqWakeOne_eq]
    cases hheads : s.heads (s.condQueue c) with
    | nil =>
      rw [hheads] at hmem
      cases hmem
    | cons t l =>
      refine ⟨t, .inr (hs.sleepsOn (by rw [hheads]; exact List.mem_cons_self ..)), ?_, ?_⟩
      · exact if_pos (List.mem_singleton.mpr rfl)
      · exact if_pos (List.mem_singleton.mpr rfl)
  · intro c base hpc hr
    rw [hpc] at hquiet
    have hb : base = s.condBase := hs.bases p (.cond, base) (by rw [hpc]; rfl)
    subst hb
    refine ⟨hsleeper c hquiet hr, fun r hr => ?_⟩
    have hmem := hs.queued hr
    have hnext : (s.next (.go p)) = (s.waitqWakeAll (s.condQueue c)).goTo p .idle := by
      unfold Kernel.next Kernel.step Kernel.go
      dsimp only
      rw [hpc]
      rfl
    rw [hnext]
    exact ⟨if_pos hmem, if_pos hmem⟩
  · intro m base c hpc hr
    have hb : base = s.mutexBase := hs.bases p (.mutex, base) (by rw [hpc]; rfl)
    subst hb
    obtain ⟨r, hr, hb⟩ := hr
    obtain ⟨q, hq'⟩ := Option.ne_none_iff_exists'.mp ((hs.asleep r).mp hb)
    obtain ⟨⟨k, hk, rfl⟩ | ⟨d, k, hk, _⟩, hmem⟩ := hs.place r q hq'
    · rw [hr] at hk
      cases hk
      obtain ⟨t, ht, htb, htn⟩ := hs.wakeOne_coming (List.ne_nil_of_mem hmem)
      rw [wakeOne_pcs] at ht
      refine ⟨t, ht, htb, ?_⟩
      have hnext : (s.next (.go p)) = ((s.waitqWakeOne (s.mutexQueue m)).unlocked p m c).1 := by
        unfold Kernel.next Kernel.step Kernel.go
        dsimp only
        rw [hpc]
        rfl
      rw [hnext]
      cases c with
      | none => exact htn
      | some c => exact htn
    · rw [hr] at hk
      cases hk

/-- One mutex and one condition variable, both free. -/
def oneMutex : Kernel where
  mutexes _ := ⟨true, false, 0, 0⟩
  mutexBase := 1
  mutexCapacity := 1
  condInUse _ := true
  condBase := 2
  condCapacity := 1
  heads _ := []
  pcs _ := .idle
  blocked _ := false
  waitingQueue _ := none
  holds _ _ := false

theorem oneMutex_start : oneMutex.Start where
  free _ := rfl
  pcs _ := rfl
  awake _ := ⟨rfl, rfl⟩
  heads _ _ := rfl
  holds _ _ := rfl

/-- One thread locks and unlocks the mutex. -/
def lockUnlock : List Action :=
  [.call 1 (.lock 0), .go 1, .go 1, .go 1, .call 1 (.unlock 0), .go 1, .go 1, .go 1, .go 1, .go 1]

/-- Two threads find the mutex free before one takes it. -/
def lockTwice : Kernel := List.foldl Kernel.next oneMutex
  [.call 1 (.lock 0), .call 2 (.lock 0), .go 1, .go 2, .go 1, .go 2, .go 1, .go 2]

/-- A thread finds the mutex taken, which is free before it sleeps. -/
def lockLate : Kernel := List.foldl Kernel.next oneMutex
  [.call 1 (.lock 0), .go 1, .go 1, .go 1, .call 2 (.lock 0), .go 2, .call 1 (.unlock 0), .go 1, .go 1,
    .go 1, .go 1, .go 1, .go 2]

/-- A thread sleeps on the mutex when the table moves. -/
def lockMoved : Kernel := List.foldl Kernel.next oneMutex
  [.call 1 (.lock 0), .go 1, .go 1, .go 1, .call 2 (.lock 0), .go 2, .go 2, .growMutexes 3]

end Result

end Lebirun.Pthread
