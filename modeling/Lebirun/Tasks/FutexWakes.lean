import Lebirun.Tasks.FutexRuns

namespace Lebirun.Futex
open Machine
set_option autoImplicit true

section Properties

/-- The task passes a section when it is asked to. -/
def Task.Runs (t : Task) : Prop := t.pc ≠ .idle ∧ t.state ≠ .blocked ∧ t.state ≠ .dead

/-- Whether the task is at a section that counts. -/
def Pc.counts : Pc → Bool
  | .wake _ _ count _ _ => 0 ≤ count
  | .requeue _ _ _ _ w r => 0 ≤ w ∧ 0 ≤ r
  | _ => false

/-- A wake ends waits on its key that its mask meets, and answers their number. -/
def Sched.Wakes (s : Sched) (a : Action) : Prop :=
  ∀ p value signal frame t, a = .go p value signal frame → s.find p = some t → t.Runs →
    ∀ addr key count bitset dying, t.pc = .wake addr key count bitset dying → 0 ≤ count →
      ∃ ended, (s.next a).counted = ended ++ s.counted ∧
        (dying = false → (s.step a).2 = some (p, .ok ended.length)) ∧
        (ended.length : Int) ≤ count ∧
        (∀ c ∈ ended, ∃ u ∈ s.all, u.call = c ∧ u.Hit key bitset ∧
          s.pages.key u.target.1 u.target.2 = some key) ∧
        ((ended.length : Int) = count ∨ ∀ u ∈ (s.next a).all, u.queue.isSome →
          u.target = (t.space, addr) → u.bitset &&& bitset = 0)

/-- A requeue ends waits on its first key, and the waits it moves are then at its second address. -/
def Sched.Requeues (s : Sched) (a : Action) : Prop :=
  ∀ p value signal frame t, a = .go p value signal frame → s.find p = some t → t.Runs →
    ∀ addr key addr2 key2 w r, t.pc = .requeue addr key addr2 key2 w r → 0 ≤ w → 0 ≤ r →
      ∃ ended moved, (s.next a).counted = ended ++ s.counted ∧
        (s.step a).2 = some (p, .ok (ended.length + moved)) ∧
        (∀ c ∈ ended, ∃ u ∈ s.all, u.call = c ∧ u.queue = some key) ∧
        s.pages.key t.space addr2 = some key2 ∧
        ∀ u ∈ (s.next a).all, u.queue.isSome → u ∈ s.all ∨ ∃ v ∈ s.all, v.queue = some key ∧
          u = { v with queue := some key2, target := (t.space, addr2) }

/-- Nobody else counts a wait. -/
def Sched.CountsOnly (s : Sched) (a : Action) : Prop :=
  (∀ p value signal frame t, a = .go p value signal frame → s.find p = some t → t.pc.counts = false) →
    (s.next a).counted = s.counted

/-- A counted wait that is still under way returns 0 with its next sections, and nobody stops it. -/
def Sched.Returns (s : Sched) (a : Action) : Prop :=
  ∀ t ∈ s.all, t.call ∈ s.counted → t.Woken →
    ((∀ value signal frame, a ≠ .go t.id value signal frame) →
      ∃ u ∈ (s.next a).all, u.id = t.id ∧ u.call = t.call ∧ u.pc = t.pc ∧ u.Woken) ∧
    ∀ value signal frame, a = .go t.id value signal frame →
      t.pc = .check false ∧ (s.step a).2 = some (t.id, .ok 0) ∨
      t.pc = .asleep ∧ ∃ u ∈ (s.next a).all, u.id = t.id ∧ u.call = t.call ∧ u.pc = .check false ∧ u.Woken

end Properties

section Proofs

variable {s : Sched} {t u : Task} {p : Nat}

theorem step_go (ht : s.find p = some t) (h : t.Runs) (value : Option Int) (signal : Bool)
    (frame : Option Nat) :
    s.step (.go p value signal frame) =
      (s.pass t value signal frame t.pc).1.put (s.pass t value signal frame t.pc).2.1
        (s.pass t value signal frame t.pc).2.2 := by
  obtain ⟨h₁, h₂, h₃⟩ := h
  unfold Sched.step
  dsimp only
  rw [ht]
  dsimp only
  rw [if_neg]
  simp [h₁, h₂, h₃]

theorem Inv.wakes_ok (hs : Inv s) (a : Action) : s.Wakes a := by
  rintro p value signal frame t rfl ht hruns addr key count bitset dying hpc hcount
  have hid : t.id = p := Keyed.find_key ht
  subst hid
  have hin : t ∈ s.all := Keyed.mem_of_find ht
  have hplace : s.pages.key t.space addr = some key := by
    apply (hs.tasks t hin).places (addr, key)
    rw [hpc]
    exact List.mem_singleton.mpr rfl
  have hwakes := hs.wakes key bitset count.toNat
  have hq : t.queue = none := by
    apply hs.queue_none hin
    rw [hpc]
    rintro ⟨⟩
  have hpass : s.pass t value signal frame t.pc =
      ({ s with
        all := (wakeLoop key bitset count.toNat s.all).1
        counted := (wakeLoop key bitset count.toNat s.all).2 ++ s.counted }, t,
        if dying then .at .die else .done (.ok (wakeLoop key bitset count.toNat s.all).2.length)) := by
    rw [hpc]
    unfold Sched.pass
    dsimp only
    rw [if_neg (by omega)]
  unfold Sched.next
  rw [step_go ht hruns, hpass]
  dsimp only
  refine ⟨(wakeLoop key bitset count.toNat s.all).2, ?_, ?_, ?_, ?_, ?_⟩
  · cases dying with
    | true => rfl
    | false => rfl
  · rintro rfl
    rfl
  · have := wakeLoop_length key bitset count.toNat s.all
    omega
  · intro c hc
    obtain ⟨u, hu, hcall, hhit, _⟩ := wakeLoop_ended hc
    exact ⟨u, hu, hcall, hhit, ((hs.tasks u hu).queued key hhit.1).2.2.1⟩
  · by_cases hfull : (wakeLoop key bitset count.toNat s.all).2.length < count.toNat
    · refine .inr ?_
      intro u hu hsome htarget
      have hmem : u ∈ (wakeLoop key bitset count.toNat s.all).1 := by
        have hfind : Keyed.find Task.id (wakeLoop key bitset count.toNat s.all).1 t.id = some t :=
          Keyed.find_of_mem hwakes.ids (wakeLoop_keeps hin hq)
        have hput : ∀ pc : Pc, u ∈ Keyed.update Task.id (wakeLoop key bitset count.toNat s.all).1 t.id
            (fun _ => { t with pc }) → u ∈ (wakeLoop key bitset count.toNat s.all).1 := by
          intro pc hu
          cases (Keyed.mem_update hwakes.ids hfind).mp hu with
          | inl h =>
            rw [h] at hsome
            change t.queue.isSome at hsome
            rw [hq] at hsome
            cases hsome
          | inr h => exact h.1
        cases dying with
        | true => exact hput _ hu
        | false => exact hput _ hu
      obtain ⟨k, hk⟩ := Option.isSome_iff_exists.mp hsome
      have hkey := ((hwakes.tasks u hmem).queued k hk).2.2.1
      rw [htarget] at hkey
      have hsame : k = key := Option.some.inj (hkey.symm.trans hplace)
      subst hsame
      by_contra hbits
      exact wakeLoop_all hfull u hmem ⟨hk, hbits⟩
    · refine .inl ?_
      have := wakeLoop_length key bitset count.toNat s.all
      omega

theorem Inv.requeues_ok (hs : Inv s) (a : Action) : s.Requeues a := by
  rintro p value signal frame t rfl ht hruns addr key addr2 key2 w r hpc hw hr
  have hid : t.id = p := Keyed.find_key ht
  subst hid
  have hin : t ∈ s.all := Keyed.mem_of_find ht
  have hplace : s.pages.key t.space addr2 = some key2 := by
    apply (hs.tasks t hin).places (addr2, key2)
    rw [hpc]
    exact List.mem_cons_of_mem _ (List.mem_singleton.mpr rfl)
  have hpass : s.pass t value signal frame t.pc =
      ({ s with
        all := (requeueLoop key key2 (t.space, addr2) w.toNat r.toNat s.all).1
        counted := (requeueLoop key key2 (t.space, addr2) w.toNat r.toNat s.all).2.1 ++ s.counted }, t,
        .done (.ok ((requeueLoop key key2 (t.space, addr2) w.toNat r.toNat s.all).2.1.length +
          (requeueLoop key key2 (t.space, addr2) w.toNat r.toNat s.all).2.2))) := by
    rw [hpc]
    unfold Sched.pass
    dsimp only
    rw [if_neg (by omega)]
  unfold Sched.next
  rw [step_go ht hruns, hpass]
  refine ⟨_, _, rfl, rfl, ?_, hplace, ?_⟩
  · intro c hc
    obtain ⟨u, hu, hcall, hq, _⟩ := requeueLoop_ended hc
    exact ⟨u, hu, hcall, hq⟩
  · intro u hu hsome
    have hmoved := hs.requeues (t.space, addr2) hplace ⟨t, hin, rfl⟩ key w.toNat r.toNat
    have hq : t.queue = none := by
      apply hs.queue_none hin
      rw [hpc]
      rintro ⟨⟩
    have hkept : t ∈ (requeueLoop key key2 (t.space, addr2) w.toNat r.toNat s.all).1 :=
      requeueLoop_keeps hin hq
    have hfind := Keyed.find_of_mem hmoved.ids hkept
    cases (Keyed.mem_update hmoved.ids hfind).mp hu with
    | inl h =>
      rw [h] at hsome
      change t.queue.isSome at hsome
      rw [hq] at hsome
      cases hsome
    | inr h => exact requeueLoop_mem h.1 hsome

theorem put_counted (s : Sched) (t : Task) (next : Next) : (s.put t next).1.counted = s.counted := by
  cases next with
  | «at» pc => rfl
  | done r => rfl

theorem pass_counted (h : t.pc.counts = false) (value : Option Int) (signal : Bool) (frame : Option Nat) :
    (s.pass t value signal frame t.pc).1.counted = s.counted := by
  unfold Sched.pass
  cases hpc : t.pc with
  | idle => rfl
  | enter addr key expected ticks bitset =>
    dsimp only
    split
    · rfl
    · split
      · rfl
      · split
        · rfl
        · split
          · rfl
          · rfl
  | asleep => rfl
  | check timedOut =>
    dsimp only
    split
    · rfl
    · split
      · rfl
      · rfl
  | wake addr key count bitset dying =>
    rw [hpc] at h
    have hneg : ¬ 0 ≤ count := of_decide_eq_false h
    dsimp only
    rw [if_pos (by omega)]
  | second addr key addr2 w r =>
    dsimp only
    split
    · rfl
    · rfl
  | requeue addr key addr2 key2 w r =>
    rw [hpc] at h
    have hneg : ¬ (0 ≤ w ∧ 0 ≤ r) := of_decide_eq_false h
    dsimp only
    rw [if_pos (by omega)]
  | clear addr key => rfl
  | die => rfl

theorem counts_only (s : Sched) (a : Action) : s.CountsOnly a := by
  intro h
  unfold Sched.next
  cases a with
  | call p c =>
    unfold Sched.step
    dsimp only
    split
    · rfl
    · split
      · exact put_counted ..
      · rfl
  | go p value signal frame =>
    unfold Sched.step
    dsimp only
    cases ht : s.find p with
    | none => rfl
    | some t =>
      dsimp only
      split
      · rfl
      · rw [put_counted]
        exact pass_counted (h p value signal frame t rfl ht) value signal frame
  | timeout p => rfl
  | interrupt p => rfl
  | write space page frame => rfl
  | readFault space page e =>
    unfold Sched.step
    dsimp only
    split
    · rfl
    · rfl
  | reclaim space page zeroPage =>
    unfold Sched.step
    dsimp only
    split
    · rfl
    · rfl
  | fork space child =>
    unfold Sched.step
    dsimp only
    split
    · rfl
    · rfl
  | spawn id space =>
    unfold Sched.step
    dsimp only
    split
    · rfl
    · rfl

/-- What a section leaves of the other tasks. -/
theorem Inv.pass_eased (hs : Inv s) (ht : t ∈ s.all) (value : Option Int) (signal : Bool)
    (frame : Option Nat) :
    List.Forall₂ (Eased s) s.all (s.pass t value signal frame t.pc).1.all ∧
      (s.pass t value signal frame t.pc).2.1.id = t.id := by
  have hsame : List.Forall₂ (Eased s) s.all s.all := List.forall₂_same.mpr fun u _ => .refl s u
  unfold Sched.pass
  cases hpc : t.pc with
  | idle => exact ⟨hsame, rfl⟩
  | enter addr key expected ticks bitset =>
    dsimp only
    split
    · exact ⟨hsame, rfl⟩
    · split
      · exact ⟨hsame, rfl⟩
      · split
        · exact ⟨hsame, rfl⟩
        · split
          · exact ⟨hsame, rfl⟩
          · exact ⟨hsame, rfl⟩
  | asleep => exact ⟨hsame, rfl⟩
  | check timedOut =>
    dsimp only
    split
    · exact ⟨hsame, rfl⟩
    · split
      · exact ⟨hsame, rfl⟩
      · exact ⟨hsame, rfl⟩
  | wake addr key count bitset dying =>
    dsimp only
    split
    · exact ⟨hsame, rfl⟩
    · exact ⟨wakeLoop_eased s key bitset count.toNat s.all, rfl⟩
  | second addr key addr2 w r =>
    dsimp only
    split
    · exact ⟨hsame, rfl⟩
    · exact ⟨hsame, rfl⟩
  | requeue addr key addr2 key2 w r =>
    dsimp only
    split
    · exact ⟨hsame, rfl⟩
    · refine ⟨requeueLoop_eased ?_ ⟨t, ht, rfl⟩ key w.toNat r.toNat s.all, rfl⟩
      apply (hs.tasks t ht).places (addr2, key2)
      rw [hpc]
      exact List.mem_cons_of_mem _ (List.mem_singleton.mpr rfl)
  | clear addr key => exact ⟨hsame, rfl⟩
  | die => exact ⟨hsame, rfl⟩

theorem put_others (s : Sched) (t : Task) (next : Next) (hu : u ∈ s.all) (hne : u.id ≠ t.id) :
    u ∈ (s.put t next).1.all := by
  cases next with
  | «at» pc => exact Keyed.mem_update_of_ne hu hne
  | done r => exact Keyed.mem_update_of_ne hu hne

/-- A step that is no section of a task in a call eases it at most. -/
theorem Inv.others (hs : Inv s) (hu : u ∈ s.all) (hpc : u.pc ≠ .idle) {a : Action}
    (ha : ∀ value signal frame, a ≠ .go u.id value signal frame) :
    ∃ v ∈ (s.next a).all, Eased s u v := by
  unfold Sched.next
  cases a with
  | call p c =>
    unfold Sched.step
    dsimp only
    cases ht : s.find p with
    | none => exact ⟨u, hu, .refl s u⟩
    | some t =>
      dsimp only
      split
      · next h =>
        refine ⟨u, put_others _ _ _ hu fun hid => ?_, .refl s u⟩
        have : u = t := List.inj_on_of_nodup_map hs.ids hu (Keyed.mem_of_find ht) hid
        exact hpc (this ▸ h.1)
      · exact ⟨u, hu, .refl s u⟩
  | go p value signal frame =>
    unfold Sched.step
    dsimp only
    cases ht : s.find p with
    | none => exact ⟨u, hu, .refl s u⟩
    | some t =>
      dsimp only
      split
      · exact ⟨u, hu, .refl s u⟩
      · obtain ⟨heased, hid⟩ := hs.pass_eased (Keyed.mem_of_find ht) value signal frame
        obtain ⟨v, hv, he⟩ := mem_left heased hu
        refine ⟨v, put_others _ _ _ hv fun h => ?_, he⟩
        apply ha value signal frame
        rw [← he.id, h, hid, Keyed.find_key ht]
  | timeout p => exact mem_left (forall₂_update (eased_expire s) p s.all) hu
  | interrupt p => exact mem_left (forall₂_update (eased_wakeTask s) p s.all) hu
  | write space page frame => exact ⟨u, hu, .refl s u⟩
  | readFault space page e =>
    unfold Sched.step
    dsimp only
    split
    · exact ⟨u, hu, .refl s u⟩
    · exact ⟨u, hu, .refl s u⟩
  | reclaim space page zeroPage =>
    unfold Sched.step
    dsimp only
    split
    · exact ⟨u, hu, .refl s u⟩
    · exact ⟨u, hu, .refl s u⟩
  | fork space child =>
    unfold Sched.step
    dsimp only
    split
    · exact ⟨u, hu, .refl s u⟩
    · exact ⟨u, hu, .refl s u⟩
  | spawn id space =>
    unfold Sched.step
    dsimp only
    split
    · exact ⟨u, List.mem_cons_of_mem _ hu, .refl s u⟩
    · exact ⟨u, hu, .refl s u⟩

theorem Inv.returns (hs : Inv s) {a : Action} (hq : s.Quiet a) : s.Returns a := by
  intro t ht hc hw
  have hfind : s.find t.id = some t := Keyed.find_of_mem hs.ids ht
  have hpc : t.pc ≠ .idle := by
    intro h
    obtain ⟨_, _, ⟨h', _⟩ | h'⟩ := hw
    · rw [h] at h'
      cases h'
    · rw [h] at h'
      cases h'
  constructor
  · intro ha
    obtain ⟨v, hv, he⟩ := hs.others ht hpc ha
    exact ⟨v, hv, he.id, he.call, he.pc, he.wokenStill hw⟩
  · rintro value signal frame rfl
    have hquiet := hq t hfind
    obtain ⟨halive, hawake, ⟨h₁, h₂⟩ | h₁⟩ := hw
    · refine .inr ⟨h₁, { t.dequeue with pc := .check false }, ?_, rfl, rfl, rfl, by rintro ⟨⟩,
        by rintro ⟨⟩, .inr rfl⟩
      unfold Sched.next
      rw [step_go hfind ⟨hpc, hawake, halive⟩, h₁]
      unfold Sched.pass
      dsimp only
      rw [h₂]
      exact (Keyed.mem_update hs.ids hfind).mpr (.inl rfl)
    · refine .inl ⟨h₁, ?_⟩
      rw [h₁] at hquiet
      have hsignal : signal = false := hquiet.1 hc
      rw [step_go hfind ⟨hpc, hawake, halive⟩, h₁, hsignal]
      rfl

end Proofs

section Result

/-- Over a run whose steps all meet the condition every counted wait is a wait of its own that
returns 0, no other wait does, and a wake on an address finds whoever waits there. -/
theorem wakes_not_lost {s : Sched} (h : s.Start) (hq : Along Sched.next Sched.Quiet s l) :
    (l.foldl Sched.next s).counted.Nodup ∧ (l.foldl Sched.next s).zero.Nodup ∧
      (∀ c ∈ (l.foldl Sched.next s).zero, c ∈ (l.foldl Sched.next s).counted) ∧
      (∀ c ∈ (l.foldl Sched.next s).counted, c ∈ (l.foldl Sched.next s).zero ∨
        ∃ t ∈ (l.foldl Sched.next s).all, t.call = c ∧ t.Woken) ∧
      Along Sched.next (fun s a => s.Wakes a ∧ s.Requeues a ∧ s.CountsOnly a ∧ s.Returns a) s l := by
  have hinv : Inv (l.foldl Sched.next s) := hq.invariant (fun _ _ hs ha => hs.step ha) h.inv
  refine ⟨hinv.nodup, hinv.zeroNodup, hinv.zero, hinv.kept, ?_⟩
  apply hq.ensures _ h.inv
  intro s a hs ha
  exact ⟨hs.step ha, hs.wakes_ok a, hs.requeues_ok a, counts_only s a, hs.returns ha⟩

/-- Two threads of one address space, with a word in a page that still is the shared zero page. -/
def twoThreads : Sched where
  all := [newTask 2 1, newTask 1 1]
  pages space page := if space = 1 ∧ page = 16 then some ⟨5, false, false, true, false⟩ else none
  nextCall := 0
  counted := []
  zero := []

theorem twoThreads_start : Sched.Start twoThreads where
  ids := by decide
  tasks := by decide
  counted := rfl
  zero := rfl

/-- A thread waits at the word. -/
def waitAtWord : List Action :=
  [.call 1 (.wait 65536 0 ticksForever 1), .go 1 (some 0) false none]

/-- The other thread wakes it. -/
def wakeAtWord : List Action :=
  [.call 2 (.wake 65536 1 1), .go 2 none false none]

theorem wakes_not_lost_example :
    (twoThreads.Start ∧ Along Sched.next Sched.Quiet twoThreads
      (waitAtWord ++ wakeAtWord ++ [.go 1 none false none, .go 1 none false none])) ∧
    ((waitAtWord ++ wakeAtWord ++ [Action.go 1 none false none, .go 1 none false none]).foldl
      Sched.next twoThreads).zero.Nodup := by
  have hquiet : Along Sched.next Sched.Quiet twoThreads
      (waitAtWord ++ wakeAtWord ++ [.go 1 none false none, .go 1 none false none]) := by
    refine ⟨trivial, ?_, trivial, ?_, ?_, ?_, trivial⟩
    · rintro t ⟨⟩
      trivial
    · rintro t ⟨⟩
      trivial
    · rintro t ⟨⟩
      trivial
    · rintro t ⟨⟩
      exact ⟨fun _ => rfl, by decide⟩
  exact ⟨⟨twoThreads_start, hquiet⟩, (wakes_not_lost twoThreads_start hquiet).2.1⟩

/-- The wait after a wake finds a signal. -/
def wakeThenSignal : Sched :=
  (waitAtWord ++ wakeAtWord ++ [Action.go 1 none false none, .go 1 none true none]).foldl Sched.next
    twoThreads

/-- A masked signal wakes the waiter. -/
def maskedSignal : Sched :=
  (waitAtWord ++ [Action.interrupt 1, .go 1 none false none, .go 1 none false none]).foldl Sched.next
    twoThreads

/-- A write gives the page a frame of its own, and the wake looks for another key; a signal swallows a
wake that was counted; and a masked signal ends a wait with 0 that nobody counted. -/
theorem wakes_lost : twoThreads.Start ∧
    ¬ Along Sched.next Sched.Wakes twoThreads (waitAtWord ++ [.write 1 16 (some 7)] ++ wakeAtWord) ∧
    (wakeThenSignal.counted = [0] ∧ wakeThenSignal.zero = [] ∧
      ∀ t ∈ wakeThenSignal.all, t.pc = .idle) ∧
    maskedSignal.zero = [0] ∧ maskedSignal.counted = [] := by
  refine ⟨twoThreads_start, ?_, by decide, by decide⟩
  intro h
  obtain ⟨_, _, _, _, hlast, _⟩ := h
  obtain ⟨ended, hcounted, _, _, _, hall⟩ := hlast 2 none false none _ rfl rfl
    ⟨by rintro ⟨⟩, by rintro ⟨⟩, by rintro ⟨⟩⟩ 65536 _ 1 1 false rfl (by decide)
  cases ended with
  | nil =>
    cases hall with
    | inl h => exact absurd h (by decide)
    | inr h => exact absurd h (by decide)
  | cons c ended => cases hcounted

end Result

end Lebirun.Futex
