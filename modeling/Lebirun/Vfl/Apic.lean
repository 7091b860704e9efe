import Mathlib
import Lebirun.Lib.Words

namespace Lebirun.Vfl
set_option autoImplicit true

abbrev irqExternal : Nat := 0
abbrev irqNmi : Nat := 2

structure Irq where
  vector : Nat
  type : Nat
  deriving DecidableEq

/-- The interrupt state of one vcpu. The first three fields are shared with the sources, the
others belong to the vcpu's own thread. -/
structure Apic where
  irr : Nat → Nat
  pending : Nat
  nmiPending : Bool
  isr : Nat → Nat
  tpr : Nat
  protectedMode : Bool
  interruptFlag : Bool
  intShadow : Bool
  nmiBlocked : Bool
  irq : Irq
  irqValid : Bool

/-- Where the vcpu's thread stands: between any two of its atomic operations. A scan of the eight
words carries the number of words it still has to load. -/
inductive Pc where
  | idle
  | readyNmi
  | readyPending
  | readyIrr (left : Nat)
  | readyIsr (vector left : Nat)
  | exchangeNmi
  | selectIrr (left : Nat)
  | fetchAndIrr (vector : Nat)
  | loadIrr (vector : Nat)
  | fetchAndPending (vector : Nat)
  | reloadIrr (vector : Nat)
  | fetchOrPending (vector : Nat)
  | deliver (vector : Nat)
  | eoiIsr (left : Nat)
  | eoiClear (vector : Nat)
  deriving DecidableEq

/-- What happened to a vector, for the record. -/
inductive Mark where
  | queued (vector : Nat)
  | took (vector : Nat)
  | returned (vector : Nat)
  deriving DecidableEq

/-- The vcpu with its sources; a source holds the vector of a `vfl_queue_irq` it is in the middle
of. The newest mark stands first. -/
structure Vcpu (ι : Type) where
  apic : Apic
  pc : Pc
  source : ι → Option Nat
  log : List Mark

/-- The end of `vfl_irq_ready`, with the highest vector in service. -/
def readyPriority (a : Apic) (vector : Nat) (service : Option Nat) : Bool :=
  let priority := a.tpr &&& 0xF0
  let priority := match service with
    | none => priority
    | some service => if priority < service &&& 0xF0 then service &&& 0xF0 else priority
  priority < vector &&& 0xF0

/-- One atomic operation of `vfl_irq_select` or `vfl_apic_eoi`. -/
def vcpuStep (v : Vcpu ι) : Vcpu ι :=
  let a := v.apic
  match v.pc with
  | .idle => v
  | .readyNmi =>
    if a.nmiPending ∧ !a.nmiBlocked then { v with pc := .exchangeNmi }
    else { v with pc := .readyPending }
  | .readyPending =>
    if a.pending = 0 ∨ a.intShadow ∨ !a.interruptFlag then { v with pc := .idle }
    else { v with pc := .readyIrr 8 }
  | .readyIrr 0 => { v with pc := .idle }
  | .readyIrr (n + 1) =>
    match Words.top 32 (a.irr n) with
    | none => { v with pc := .readyIrr n }
    | some b =>
      if !a.protectedMode then { v with pc := .exchangeNmi }
      else { v with pc := .readyIsr (n * 32 + b) 8 }
  | .readyIsr vector 0 =>
    { v with pc := if readyPriority a vector none then .exchangeNmi else .idle }
  | .readyIsr vector (n + 1) =>
    match Words.top 32 (a.isr n) with
    | none => { v with pc := .readyIsr vector n }
    | some b =>
      { v with pc := if readyPriority a vector (some (n * 32 + b)) then .exchangeNmi else .idle }
  | .exchangeNmi =>
    if !a.nmiBlocked ∧ a.nmiPending then
      { v with
        apic := { a with nmiPending := false, irq := ⟨2, irqNmi⟩, irqValid := true }
        pc := .idle }
    else { v with apic := { a with irq := ⟨0, irqExternal⟩ }, pc := .selectIrr 8 }
  | .selectIrr 0 => { v with pc := .idle }
  | .selectIrr (n + 1) =>
    match Words.top 32 (a.irr n) with
    | none => { v with pc := .selectIrr n }
    | some b => { v with pc := .fetchAndIrr (n * 32 + b) }
  | .fetchAndIrr vector =>
    { v with
      apic := { a with irr := Words.erase 32 a.irr vector }
      pc := .loadIrr vector
      log := .took vector :: v.log }
  | .loadIrr vector =>
    { v with pc := if a.irr (vector / 32) = 0 then .fetchAndPending vector else .deliver vector }
  | .fetchAndPending vector =>
    { v with
      apic := { a with pending := a.pending &&& ((2 ^ 32 - 1) ^^^ 2 ^ (vector / 32)) }
      pc := .reloadIrr vector }
  | .reloadIrr vector =>
    { v with pc := if a.irr (vector / 32) = 0 then .deliver vector else .fetchOrPending vector }
  | .fetchOrPending vector =>
    { v with apic := { a with pending := a.pending ||| 2 ^ (vector / 32) }, pc := .deliver vector }
  | .deliver vector =>
    { v with
      apic := { a with
        irq := { a.irq with vector := vector }
        isr := if a.protectedMode then Words.insert 32 a.isr vector else a.isr
        irqValid := true }
      pc := .idle
      log := .returned vector :: v.log }
  | .eoiIsr 0 => { v with pc := .idle }
  | .eoiIsr (n + 1) =>
    match Words.top 32 (a.isr n) with
    | none => { v with pc := .eoiIsr n }
    | some b => { v with pc := .eoiClear (n * 32 + b) }
  | .eoiClear vector =>
    { v with apic := { a with isr := Words.erase 32 a.isr vector }, pc := .idle }

/-- What the guest may change between two calls. -/
structure GuestState where
  tpr : Nat
  protectedMode : Bool
  interruptFlag : Bool
  intShadow : Bool
  nmiBlocked : Bool
  irqValid : Bool

inductive IrqEvent (ι : Type) where
  | queue (i : ι) (vector : Fin 256) (type : Nat)
  | light (i : ι)
  | select
  | eoi
  | vcpu
  | guest (g : GuestState)

section
variable [DecidableEq ι]

/-- `queue` and `light` are the two updates of `vfl_queue_irq`; a source that is between them
makes no other call. -/
def irqStep (v : Vcpu ι) : IrqEvent ι → Vcpu ι
  | .queue i vector type =>
    if (v.source i).isSome then v
    else if type ≠ irqNmi ∧ vector.val < 16 then v
    else if type = irqNmi then { v with apic := { v.apic with nmiPending := true } }
    else
      { v with
        apic := { v.apic with irr := Words.insert 32 v.apic.irr vector }
        source := Function.update v.source i (some vector.val)
        log := .queued vector :: v.log }
  | .light i =>
    match v.source i with
    | none => v
    | some vector =>
      { v with
        apic := { v.apic with pending := v.apic.pending ||| 2 ^ (vector / 32) }
        source := Function.update v.source i none }
  | .select => if v.pc = .idle then { v with pc := .readyNmi } else v
  | .eoi => if v.pc = .idle then { v with pc := .eoiIsr 8 } else v
  | .vcpu => vcpuStep v
  | .guest g =>
    if v.pc = .idle then
      { v with
        apic := { v.apic with
          tpr := g.tpr
          protectedMode := g.protectedMode
          interruptFlag := g.interruptFlag
          intShadow := g.intShadow
          nmiBlocked := g.nmiBlocked
          irqValid := g.irqValid } }
    else v

end

def vcpuInit : Vcpu ι where
  apic := {
    irr := fun _ => 0
    pending := 0
    nmiPending := false
    isr := fun _ => 0
    tpr := 0
    protectedMode := false
    interruptFlag := false
    intShadow := false
    nmiBlocked := false
    irq := ⟨0, irqExternal⟩
    irqValid := false }
  pc := .idle
  source := fun _ => none
  log := []

/-- `vfl_irq_select` has cleared the summary bit of word `w` and not yet looked again. -/
def Pc.Rechecks (pc : Pc) (w : Nat) : Prop :=
  ∃ vector, vector / 32 = w ∧ (pc = .reloadIrr vector ∨ pc = .fetchOrPending vector)

/-- `vfl_irq_select` has taken `vector` and will return it. -/
def Pc.Carries (pc : Pc) (vector : Nat) : Prop :=
  pc = .loadIrr vector ∨ pc = .fetchAndPending vector ∨ pc = .reloadIrr vector ∨
    pc = .fetchOrPending vector ∨ pc = .deliver vector

/-- The priority class of `vector` is above the task priority and everything in service. -/
structure Above (a : Apic) (vector : Nat) : Prop where
  lt : vector < 256
  task : a.tpr &&& 0xF0 < vector &&& 0xF0
  service : ∀ u, Words.Mem 32 a.isr u → u / 16 < vector / 16

def PcOk (a : Apic) : Pc → Prop
  | .readyIsr vector left =>
    vector < 256 ∧ Words.Mem 32 a.irr vector ∧ ∀ u, Words.Mem 32 a.isr u → u / 32 < left
  | .exchangeNmi =>
    (a.nmiPending = true ∧ a.nmiBlocked = false) ∨ a.protectedMode = false ∨
      ∃ u, Words.Mem 32 a.irr u ∧ Above a u
  | .selectIrr left =>
    a.protectedMode = false ∨ ∃ u, Words.Mem 32 a.irr u ∧ Above a u ∧ u / 32 < left
  | .fetchAndIrr vector => a.protectedMode = true → Above a vector
  | .loadIrr vector => a.protectedMode = true → Above a vector
  | .fetchAndPending vector => a.protectedMode = true → Above a vector
  | .reloadIrr vector => a.protectedMode = true → Above a vector
  | .fetchOrPending vector => a.protectedMode = true → Above a vector
  | .deliver vector => a.protectedMode = true → Above a vector
  | .eoiIsr left => ∀ u, Words.Mem 32 a.isr u → u / 32 < left
  | .eoiClear vector => Words.Mem 32 a.isr vector ∧ ∀ u, Words.Mem 32 a.isr u → u ≤ vector
  | _ => True

structure IrqInv (v : Vcpu ι) : Prop where
  lit : ∀ w, v.apic.irr w ≠ 0 → v.apic.pending.testBit w = true ∨
    (∃ i vector, v.source i = some vector ∧ vector / 32 = w) ∨ v.pc.Rechecks w
  words : ∀ w, 8 ≤ w → v.apic.irr w = 0
  irr_lt : ∀ u, Words.Mem 32 v.apic.irr u → u < 256
  isr_lt : ∀ u, Words.Mem 32 v.apic.isr u → u < 256
  classes : ∀ u u', Words.Mem 32 v.apic.isr u → Words.Mem 32 v.apic.isr u' → u / 16 = u' / 16 →
    u = u'
  thread : PcOk v.apic v.pc
  waiting : ∀ u later earlier, v.log = later ++ .queued u :: earlier →
    Words.Mem 32 v.apic.irr u ∨ .took u ∈ later
  taken : ∀ u later earlier, v.log = later ++ .took u :: earlier →
    .returned u ∈ later ∨ v.pc.Carries u

theorem class_lt (hu : u < 256) (hv : v < 256) : u &&& 0xF0 < v &&& 0xF0 ↔ u / 16 < v / 16 := by
  have hand : ∀ x < 256, x &&& 0xF0 = x / 16 * 16 := by decide +kernel
  rw [hand u hu, hand v hv]
  omega

theorem readyPriority_none (h : readyPriority a vector none = true)
    (hnone : ∀ u, ¬Words.Mem 32 a.isr u) (hlt : vector < 256) : Above a vector :=
  ⟨hlt, of_decide_eq_true h, fun u hu => absurd hu (hnone u)⟩

theorem readyPriority_some (h : readyPriority a vector (some service) = true) (hlt : vector < 256)
    (hs : service < 256) (htop : ∀ u, Words.Mem 32 a.isr u → u ≤ service) : Above a vector := by
  rw [readyPriority, decide_eq_true_eq] at h
  have hboth : a.tpr &&& 0xF0 < vector &&& 0xF0 ∧ service &&& 0xF0 < vector &&& 0xF0 := by
    split at h <;> omega
  refine ⟨hlt, hboth.1, ?_⟩
  intro u hu
  exact (Nat.div_le_div_right (htop u hu)).trans_lt ((class_lt hs hlt).1 hboth.2)

/-- A step that leaves the words alone. -/
theorem IrqInv.goto {v : Vcpu ι} {b : Apic} {next : Pc} (h : IrqInv v) (hirr : b.irr = v.apic.irr)
    (hpend : b.pending = v.apic.pending) (hisr : b.isr = v.apic.isr) (hpc : PcOk b next)
    (hre : ∀ w, v.pc.Rechecks w → v.apic.irr w = 0 ∨ next.Rechecks w)
    (hca : ∀ u, v.pc.Carries u → next.Carries u) : IrqInv { v with apic := b, pc := next } := by
  constructor
  · intro w hw
    dsimp only at hw ⊢
    rw [hirr] at hw
    rw [hpend]
    rcases h.lit w hw with hl | hl | hl
    · exact .inl hl
    · exact .inr (.inl hl)
    · rcases hre w hl with h0 | hr
      · exact absurd h0 hw
      · exact .inr (.inr hr)
  · dsimp only
    rw [hirr]
    exact h.words
  · dsimp only
    rw [hirr]
    exact h.irr_lt
  · dsimp only
    rw [hisr]
    exact h.isr_lt
  · dsimp only
    rw [hisr]
    exact h.classes
  · exact hpc
  · dsimp only
    rw [hirr]
    exact h.waiting
  · intro u later earlier hlog
    exact (h.taken u later earlier hlog).imp_right (hca u)

/-- The points where nothing is taken and no summary bit is out. -/
def Pc.Calm (pc : Pc) : Prop := (∀ w, ¬pc.Rechecks w) ∧ ∀ u, ¬pc.Carries u

theorem IrqInv.calm {v : Vcpu ι} {next : Pc} (h : IrqInv v) (hcalm : v.pc.Calm)
    (hpc : PcOk v.apic next) : IrqInv { v with pc := next } :=
  h.goto rfl rfl rfl hpc (fun w hw => absurd hw (hcalm.1 w)) fun u hu => absurd hu (hcalm.2 u)

@[simp]
theorem rechecks_reload : (Pc.reloadIrr vector).Rechecks w ↔ vector / 32 = w := by
  simp [Pc.Rechecks]

@[simp]
theorem rechecks_fetchOr : (Pc.fetchOrPending vector).Rechecks w ↔ vector / 32 = w := by
  simp [Pc.Rechecks]

theorem calm_scan (pc : Pc) (h : ∀ vector, pc ≠ .loadIrr vector ∧ pc ≠ .fetchAndPending vector ∧
    pc ≠ .reloadIrr vector ∧ pc ≠ .fetchOrPending vector ∧ pc ≠ .deliver vector) : pc.Calm := by
  constructor
  · rintro w ⟨vector, -, hpc | hpc⟩
    · exact (h vector).2.2.1 hpc
    · exact (h vector).2.2.2.1 hpc
  · rintro u (hpc | hpc | hpc | hpc | hpc)
    · exact (h u).1 hpc
    · exact (h u).2.1 hpc
    · exact (h u).2.2.1 hpc
    · exact (h u).2.2.2.1 hpc
    · exact (h u).2.2.2.2 hpc

/-- A mark that is not the newest was there before. -/
theorem split_cons {x y : Mark} {log later earlier : List Mark} (hne : x ≠ y)
    (h : x :: log = later ++ y :: earlier) :
    ∃ later', later = x :: later' ∧ log = later' ++ y :: earlier := by
  cases later with
  | nil => exact absurd (List.cons.inj h).1 hne
  | cons z later => exact ⟨later, by rw [(List.cons.inj h).1], (List.cons.inj h).2⟩

theorem mem_div_lt (hlt : ∀ u, Words.Mem 32 a u → u < 256) (u : Nat) (hu : Words.Mem 32 a u) :
    u / 32 < 8 := by
  have := hlt u hu
  omega

theorem IrqInv.vcpuStep {v : Vcpu ι} (h : IrqInv v) : IrqInv (vcpuStep v) := by
  have h32 : 0 < 32 := by decide
  obtain ⟨a, pc, source, log⟩ := v
  have hpc := h.thread
  dsimp only at hpc
  cases pc with
  | idle => exact h
  | readyNmi =>
    have hcalm : Pc.readyNmi.Calm := calm_scan _ fun _ => by simp
    simp only [Vfl.vcpuStep]
    split
    · rename_i hn
      exact h.calm hcalm (.inl ⟨hn.1, by simpa using hn.2⟩)
    · exact h.calm hcalm trivial
  | readyPending =>
    have hcalm : Pc.readyPending.Calm := calm_scan _ fun _ => by simp
    simp only [Vfl.vcpuStep]
    split
    · exact h.calm hcalm trivial
    · exact h.calm hcalm trivial
  | readyIrr left =>
    have hcalm : (Pc.readyIrr left).Calm := calm_scan _ fun _ => by simp
    cases left with
    | zero => exact h.calm hcalm trivial
    | succ n =>
      simp only [Vfl.vcpuStep]
      split
      · exact h.calm hcalm trivial
      · rename_i b hb
        have hmem := Words.mem_top hb
        split
        · rename_i hp
          exact h.calm hcalm (.inr (.inl (by simpa using hp)))
        · exact h.calm hcalm ⟨h.irr_lt _ hmem, hmem, mem_div_lt h.isr_lt⟩
  | readyIsr vector left =>
    have hcalm : (Pc.readyIsr vector left).Calm := calm_scan _ fun _ => by simp
    obtain ⟨hlt, hmem, hleft⟩ := hpc
    cases left with
    | zero =>
      simp only [Vfl.vcpuStep]
      split
      · rename_i hr
        have hab := readyPriority_none hr (fun u hu => absurd (hleft u hu) (Nat.not_lt_zero _)) hlt
        exact h.calm hcalm (.inr (.inr ⟨vector, hmem, hab⟩))
      · exact h.calm hcalm trivial
    | succ n =>
      simp only [Vfl.vcpuStep]
      split
      · rename_i hb
        exact h.calm hcalm ⟨hlt, hmem, fun u hu => Words.lt_of_top_none h32 hb hu (hleft u hu)⟩
      · rename_i b hb
        split
        · rename_i hr
          have hab := readyPriority_some hr hlt (h.isr_lt _ (Words.mem_top hb))
            fun u hu => Words.le_top h32 hb hu (hleft u hu)
          exact h.calm hcalm (.inr (.inr ⟨vector, hmem, hab⟩))
        · exact h.calm hcalm trivial
  | exchangeNmi =>
    have hcalm : Pc.exchangeNmi.Calm := calm_scan _ fun _ => by simp
    simp only [Vfl.vcpuStep]
    split
    · exact h.goto rfl rfl rfl trivial (fun w hw => absurd hw (hcalm.1 w))
        fun u hu => absurd hu (hcalm.2 u)
    · rename_i hn
      refine h.goto rfl rfl rfl ?_ (fun w hw => absurd hw (hcalm.1 w))
        fun u hu => absurd hu (hcalm.2 u)
      rcases hpc with ⟨hp, hb⟩ | hp | ⟨u, hu, hab⟩
      · exact absurd ⟨by rw [hb]; rfl, hp⟩ hn
      · exact .inl hp
      · exact .inr ⟨u, hu, ⟨hab.lt, hab.task, hab.service⟩, mem_div_lt h.irr_lt u hu⟩
  | selectIrr left =>
    have hcalm : (Pc.selectIrr left).Calm := calm_scan _ fun _ => by simp
    cases left with
    | zero => exact h.calm hcalm trivial
    | succ n =>
      simp only [Vfl.vcpuStep]
      split
      · rename_i hb
        apply h.calm hcalm
        rcases hpc with hp | ⟨u, hu, hab, hn⟩
        · exact .inl hp
        · exact .inr ⟨u, hu, hab, Words.lt_of_top_none h32 hb hu hn⟩
      · rename_i b hb
        apply h.calm hcalm
        intro hp
        rcases hpc with hp' | ⟨u, hu, hab, hn⟩
        · rw [hp'] at hp
          cases hp
        · -- nothing was cleared since `vfl_irq_ready`, so this one is at least as high
          have hle := Words.le_top h32 hb hu hn
          have hlt := h.irr_lt _ (Words.mem_top hb)
          refine ⟨hlt, hab.task.trans_le ?_, fun x hx => (hab.service x hx).trans_le (Nat.div_le_div_right hle)⟩
          by_contra hcon
          have := (class_lt hlt hab.lt).1 (Nat.not_le.1 hcon)
          exact absurd (Nat.div_le_div_right (c := 16) hle) (Nat.not_le.2 this)
  | fetchAndIrr vector =>
    have hcalm : (Pc.fetchAndIrr vector).Calm := calm_scan _ fun _ => by simp
    simp only [Vfl.vcpuStep]
    constructor
    · intro w hw
      rcases h.lit w (Words.erase_ne_zero hw) with hl | hl | hl
      · exact .inl hl
      · exact .inr (.inl hl)
      · exact absurd hl (hcalm.1 w)
    · intro w hw
      by_contra h0
      exact Words.erase_ne_zero h0 (h.words w hw)
    · intro u hu
      exact h.irr_lt u ((Words.mem_erase h32).1 hu).2
    · exact h.isr_lt
    · exact h.classes
    · intro hp
      exact ⟨(hpc hp).lt, (hpc hp).task, (hpc hp).service⟩
    · intro u later earlier hlog
      obtain ⟨later, rfl, hlog'⟩ := split_cons (by simp) hlog
      rcases h.waiting u later earlier hlog' with hw | hw
      · by_cases huv : u = vector
        · exact .inr (huv ▸ List.mem_cons_self)
        · exact .inl ((Words.mem_erase h32).2 ⟨huv, hw⟩)
      · exact .inr (List.mem_cons_of_mem _ hw)
    · intro u later earlier hlog
      cases later with
      | nil =>
        cases hlog
        exact .inr (.inl rfl)
      | cons x later =>
        obtain ⟨rfl, hlog'⟩ := List.cons.inj hlog
        rcases h.taken u later earlier hlog' with hr | hr
        · exact .inl (List.mem_cons_of_mem _ hr)
        · exact absurd hr (hcalm.2 u)
  | loadIrr vector =>
    simp only [Vfl.vcpuStep]
    split
    · exact h.goto rfl rfl rfl hpc (fun w hw => by simp [Pc.Rechecks] at hw)
        fun u hu => by simpa [Pc.Carries] using hu
    · exact h.goto rfl rfl rfl hpc (fun w hw => by simp [Pc.Rechecks] at hw)
        fun u hu => by simpa [Pc.Carries] using hu
  | fetchAndPending vector =>
    simp only [Vfl.vcpuStep]
    refine ⟨?_, h.words, h.irr_lt, h.isr_lt, h.classes, ?_, h.waiting, ?_⟩
    · intro w hw
      by_cases hwv : vector / 32 = w
      · exact .inr (.inr (rechecks_reload.2 hwv))
      · rcases h.lit w hw with hl | hl | hl
        · have hlt : w < 32 := by
            by_contra hge
            exact hw (h.words w (by omega))
          refine .inl ?_
          rw [Words.testBit_clear _ _ hlt, hl]
          simpa using hwv
        · exact .inr (.inl hl)
        · simp [Pc.Rechecks] at hl
    · intro hp
      exact ⟨(hpc hp).lt, (hpc hp).task, (hpc hp).service⟩
    · intro u later earlier hlog
      exact (h.taken u later earlier hlog).imp_right fun hu => by simpa [Pc.Carries] using hu
  | reloadIrr vector =>
    simp only [Vfl.vcpuStep]
    split
    · rename_i h0
      exact h.goto rfl rfl rfl hpc (fun w hw => .inl (rechecks_reload.1 hw ▸ h0))
        fun u hu => by simpa [Pc.Carries] using hu
    · exact h.goto rfl rfl rfl hpc (fun w hw => .inr (rechecks_fetchOr.2 (rechecks_reload.1 hw)))
        fun u hu => by simpa [Pc.Carries] using hu
  | fetchOrPending vector =>
    simp only [Vfl.vcpuStep]
    refine ⟨?_, h.words, h.irr_lt, h.isr_lt, h.classes, ?_, h.waiting, ?_⟩
    · intro w hw
      simp only [Words.testBit_set, Bool.or_eq_true, decide_eq_true_eq]
      rcases h.lit w hw with hl | hl | hl
      · exact .inl (.inl hl)
      · exact .inr (.inl hl)
      · exact .inl (.inr (rechecks_fetchOr.1 hl))
    · intro hp
      exact ⟨(hpc hp).lt, (hpc hp).task, (hpc hp).service⟩
    · intro u later earlier hlog
      exact (h.taken u later earlier hlog).imp_right fun hu => by simpa [Pc.Carries] using hu
  | deliver vector =>
    have hisr : ∀ u, Words.Mem 32 (if a.protectedMode then Words.insert 32 a.isr vector else a.isr) u →
        Words.Mem 32 a.isr u ∨ a.protectedMode = true ∧ u = vector := by
      intro u hu
      split at hu
      · rename_i hp
        rcases Words.mem_insert.1 hu with rfl | hu
        · exact .inr ⟨hp, rfl⟩
        · exact .inl hu
      · exact .inl hu
    simp only [Vfl.vcpuStep]
    constructor
    · intro w hw
      rcases h.lit w hw with hl | hl | hl
      · exact .inl hl
      · exact .inr (.inl hl)
      · simp [Pc.Rechecks] at hl
    · exact h.words
    · exact h.irr_lt
    · intro u hu
      rcases hisr u hu with hu | ⟨hp, rfl⟩
      · exact h.isr_lt u hu
      · exact (hpc hp).lt
    · intro u u' hu hu' hclass
      rcases hisr u hu with h₁ | ⟨hp, hu₁⟩
      · rcases hisr u' hu' with h₂ | ⟨hp, hu₂⟩
        · exact h.classes u u' h₁ h₂ hclass
        · exact absurd (hu₂ ▸ hclass) ((hpc hp).service u h₁).ne
      · rcases hisr u' hu' with h₂ | ⟨-, hu₂⟩
        · exact absurd (hu₁ ▸ hclass) ((hpc hp).service u' h₂).ne'
        · rw [hu₁, hu₂]
    · trivial
    · intro u later earlier hlog
      obtain ⟨later, rfl, hlog'⟩ := split_cons (by simp) hlog
      exact (h.waiting u later earlier hlog').imp_right (List.mem_cons_of_mem _)
    · intro u later earlier hlog
      obtain ⟨later, rfl, hlog'⟩ := split_cons (by simp) hlog
      rcases h.taken u later earlier hlog' with hr | hr
      · exact .inl (List.mem_cons_of_mem _ hr)
      · have hu : u = vector := by simpa [Pc.Carries, eq_comm] using hr
        exact .inl (hu ▸ List.mem_cons_self)
  | eoiIsr left =>
    have hcalm : (Pc.eoiIsr left).Calm := calm_scan _ fun _ => by simp
    cases left with
    | zero => exact h.calm hcalm trivial
    | succ n =>
      simp only [Vfl.vcpuStep]
      split
      · rename_i hb
        exact h.calm hcalm fun u hu => Words.lt_of_top_none h32 hb hu (hpc u hu)
      · rename_i b hb
        exact h.calm hcalm ⟨Words.mem_top hb, fun u hu => Words.le_top h32 hb hu (hpc u hu)⟩
  | eoiClear vector =>
    have hcalm : (Pc.eoiClear vector).Calm := calm_scan _ fun _ => by simp
    have hsub : ∀ u, Words.Mem 32 (Words.erase 32 a.isr vector) u → Words.Mem 32 a.isr u :=
      fun u hu => ((Words.mem_erase h32).1 hu).2
    refine ⟨?_, h.words, h.irr_lt, fun u hu => h.isr_lt u (hsub u hu),
      fun u u' hu hu' => h.classes u u' (hsub u hu) (hsub u' hu'), trivial, h.waiting, ?_⟩
    · intro w hw
      rcases h.lit w hw with hl | hl | hl
      · exact .inl hl
      · exact .inr (.inl hl)
      · exact absurd hl (hcalm.1 w)
    · intro u later earlier hlog
      exact (h.taken u later earlier hlog).imp_right fun hu => absurd hu (hcalm.2 u)

/-- More requests leave the thread's knowledge of the words true. -/
theorem PcOk.grow {b : Apic} {pc : Pc} (h : PcOk a pc)
    (hirr : ∀ u, Words.Mem 32 a.irr u → Words.Mem 32 b.irr u) (hisr : b.isr = a.isr)
    (htpr : b.tpr = a.tpr) (hp : b.protectedMode = a.protectedMode)
    (hn : a.nmiPending = true → b.nmiPending = true) (hb : b.nmiBlocked = a.nmiBlocked) :
    PcOk b pc := by
  have habove : ∀ u, Above a u → Above b u := by
    intro u hu
    exact ⟨hu.lt, htpr ▸ hu.task, hisr ▸ hu.service⟩
  cases pc with
  | idle => trivial
  | readyNmi => trivial
  | readyPending => trivial
  | readyIrr left => trivial
  | readyIsr vector left => exact ⟨h.1, hirr _ h.2.1, hisr ▸ h.2.2⟩
  | exchangeNmi =>
    rcases h with ⟨h₁, h₂⟩ | h | ⟨u, hu, hab⟩
    · exact .inl ⟨hn h₁, hb.trans h₂⟩
    · exact .inr (.inl (hp.trans h))
    · exact .inr (.inr ⟨u, hirr u hu, habove u hab⟩)
  | selectIrr left =>
    rcases h with h | ⟨u, hu, hab, hlt⟩
    · exact .inl (hp.trans h)
    · exact .inr ⟨u, hirr u hu, habove u hab, hlt⟩
  | fetchAndIrr vector => exact fun hb => habove _ (h (hp ▸ hb))
  | loadIrr vector => exact fun hb => habove _ (h (hp ▸ hb))
  | fetchAndPending vector => exact fun hb => habove _ (h (hp ▸ hb))
  | reloadIrr vector => exact fun hb => habove _ (h (hp ▸ hb))
  | fetchOrPending vector => exact fun hb => habove _ (h (hp ▸ hb))
  | deliver vector => exact fun hb => habove _ (h (hp ▸ hb))
  | eoiIsr left => exact fun u hu => h u (hisr ▸ hu)
  | eoiClear vector => exact ⟨hisr ▸ h.1, fun u hu => h.2 u (hisr ▸ hu)⟩

theorem calm_idle : Pc.idle.Calm := calm_scan _ fun _ => by simp

/-- Between two calls the vcpu's own registers may change. -/
theorem IrqInv.guest {v : Vcpu ι} {b : Apic} (h : IrqInv v) (hpc : v.pc = .idle)
    (hirr : b.irr = v.apic.irr) (hpend : b.pending = v.apic.pending)
    (hisr : b.isr = v.apic.isr) : IrqInv { v with apic := b } := by
  obtain ⟨a, pc, source, log⟩ := v
  dsimp only at hpc
  subst hpc
  exact h.goto hirr hpend hisr trivial (fun w hw => .inr hw) fun u hu => hu

section
variable [DecidableEq ι]

theorem IrqInv.queue {v : Vcpu ι} (h : IrqInv v) (hi : v.source i = none) (vector : Fin 256) :
    IrqInv { v with
      apic := { v.apic with irr := Words.insert 32 v.apic.irr vector }
      source := Function.update v.source i (some vector.val)
      log := .queued vector :: v.log } := by
  have hgrow : ∀ u, Words.Mem 32 v.apic.irr u → Words.Mem 32 (Words.insert 32 v.apic.irr vector) u :=
    fun u hu => Words.mem_insert.2 (.inr hu)
  have hlt := vector.isLt
  constructor
  · intro w hw
    by_cases hwv : vector.val / 32 = w
    · exact .inr (.inl ⟨i, vector, Function.update_self .., hwv⟩)
    · rcases Words.insert_ne_zero hw with h0 | h0
      · rcases h.lit w h0 with hl | ⟨j, u, hj, hu⟩ | hl
        · exact .inl hl
        · by_cases hji : j = i
          · rw [hji, hi] at hj
            cases hj
          · exact .inr (.inl ⟨j, u, (Function.update_of_ne hji ..).trans hj, hu⟩)
        · exact .inr (.inr hl)
      · exact absurd h0.symm hwv
  · intro w hw
    by_contra h0
    rcases Words.insert_ne_zero h0 with h0 | h0
    · exact h0 (h.words w hw)
    · omega
  · intro u hu
    rcases Words.mem_insert.1 hu with rfl | hu
    · exact hlt
    · exact h.irr_lt u hu
  · exact h.isr_lt
  · exact h.classes
  · exact h.thread.grow hgrow rfl rfl rfl (fun hn => hn) rfl
  · intro u later earlier hlog
    cases later with
    | nil =>
      cases hlog
      exact .inl (Words.mem_insert.2 (.inl rfl))
    | cons x later =>
      obtain ⟨rfl, hlog'⟩ := List.cons.inj hlog
      rcases h.waiting u later earlier hlog' with hw | hw
      · exact .inl (hgrow u hw)
      · exact .inr (List.mem_cons_of_mem _ hw)
  · intro u later earlier hlog
    obtain ⟨later, rfl, hlog'⟩ := split_cons (by simp) hlog
    exact (h.taken u later earlier hlog').imp_left (List.mem_cons_of_mem _)

theorem IrqInv.light {v : Vcpu ι} (h : IrqInv v) (hi : v.source i = some vector) :
    IrqInv { v with
      apic := { v.apic with pending := v.apic.pending ||| 2 ^ (vector / 32) }
      source := Function.update v.source i none } := by
  refine ⟨?_, h.words, h.irr_lt, h.isr_lt, h.classes, ?_, h.waiting, h.taken⟩
  · intro w hw
    simp only [Words.testBit_set, Bool.or_eq_true, decide_eq_true_eq]
    rcases h.lit w hw with hl | ⟨j, u, hj, hu⟩ | hl
    · exact .inl (.inl hl)
    · by_cases hji : j = i
      · rw [hji, hi] at hj
        cases hj
        exact .inl (.inr hu)
      · exact .inr (.inl ⟨j, u, (Function.update_of_ne hji ..).trans hj, hu⟩)
    · exact .inr (.inr hl)
  · exact h.thread.grow (fun _ hu => hu) rfl rfl rfl (fun hn => hn) rfl

theorem irqStep_inv {v : Vcpu ι} (h : IrqInv v) (e : IrqEvent ι) : IrqInv (irqStep v e) := by
  cases e with
  | queue i vector type =>
    rw [irqStep]
    split
    · exact h
    rename_i hi
    split
    · exact h
    split
    · exact ⟨h.lit, h.words, h.irr_lt, h.isr_lt, h.classes,
        h.thread.grow (fun _ hu => hu) rfl rfl rfl (fun _ => rfl) rfl, h.waiting, h.taken⟩
    · exact h.queue (by simpa using hi) vector
  | light i =>
    rw [irqStep]
    split
    · exact h
    · rename_i vector hi
      exact h.light hi
  | select =>
    rw [irqStep]
    split
    · rename_i hpc
      exact h.calm (hpc ▸ calm_idle) trivial
    · exact h
  | eoi =>
    rw [irqStep]
    split
    · rename_i hpc
      exact h.calm (hpc ▸ calm_idle) (mem_div_lt h.isr_lt)
    · exact h
  | vcpu => exact h.vcpuStep
  | guest g =>
    rw [irqStep]
    split
    · rename_i hpc
      exact h.guest hpc rfl rfl rfl
    · exact h

end

theorem vcpuInit_inv : IrqInv (vcpuInit : Vcpu ι) := by
  have hnone : ∀ u, ¬Words.Mem 32 (fun _ => 0) u := by
    intro u hu
    rw [Words.Mem, Nat.zero_testBit] at hu
    cases hu
  constructor
  · exact fun w hw => absurd rfl hw
  · exact fun _ _ => rfl
  · exact fun u hu => absurd hu (hnone u)
  · exact fun u hu => absurd hu (hnone u)
  · exact fun u _ hu => absurd hu (hnone u)
  · trivial
  · intro u later earlier hlog
    cases later <;> cases hlog
  · intro u later earlier hlog
    cases later <;> cases hlog

/-- What holds of the interrupt state between any two atomic operations. -/
structure IrqSound (v : Vcpu ι) : Prop where
  seen : (∀ i, v.source i = none) → ∀ w, ¬v.pc.Rechecks w → v.apic.irr w ≠ 0 →
    v.apic.pending.testBit w = true
  kept : ∀ vector later earlier, v.log = later ++ .queued vector :: earlier →
    Words.Mem 32 v.apic.irr vector ∨ ∃ newer older, later = newer ++ .took vector :: older ∧
      (.returned vector ∈ newer ∨ v.pc.Carries vector)
  classes : ∀ u u', Words.Mem 32 v.apic.isr u → Words.Mem 32 v.apic.isr u' → u ≠ u' →
    u / 16 ≠ u' / 16
  selected : ∀ vector, v.pc = .deliver vector → v.apic.protectedMode = true → Above v.apic vector
  eoi : ∀ vector, v.pc = .eoiClear vector → Words.Mem 32 v.apic.isr vector ∧
    (∀ u, Words.Mem 32 v.apic.isr u → u ≤ vector) ∧
    ∀ u, Words.Mem 32 (vcpuStep v).apic.isr u ↔ u ≠ vector ∧ Words.Mem 32 v.apic.isr u
  eoi_none : v.pc = .eoiIsr 0 → ∀ u, ¬Words.Mem 32 v.apic.isr u

theorem IrqInv.sound {v : Vcpu ι} (h : IrqInv v) : IrqSound v := by
  have hthread := h.thread
  constructor
  · intro hs w hre hw
    rcases h.lit w hw with hl | ⟨i, vector, hi, -⟩ | hl
    · exact hl
    · rw [hs i] at hi
      cases hi
    · exact absurd hl hre
  · intro vector later earlier hlog
    rcases h.waiting vector later earlier hlog with hw | hw
    · exact .inl hw
    · obtain ⟨newer, older, rfl⟩ := List.append_of_mem hw
      refine .inr ⟨newer, older, rfl, h.taken vector newer (older ++ .queued vector :: earlier) ?_⟩
      rw [hlog, List.append_assoc]
      rfl
  · intro u u' hu hu' hne hclass
    exact hne (h.classes u u' hu hu' hclass)
  · intro vector hpc hp
    rw [hpc] at hthread
    exact hthread hp
  · intro vector hpc
    rw [hpc] at hthread
    refine ⟨hthread.1, hthread.2, ?_⟩
    intro u
    rw [Vfl.vcpuStep, hpc]
    exact Words.mem_erase (by decide)
  · intro hpc u hu
    rw [hpc] at hthread
    exact Nat.not_lt_zero _ (hthread u hu)

/-- Over every interleaving of any number of sources with the vcpu's own thread: a request is seen
in the summary word unless one of the two sides is between its updates, a queued vector stays
until a selection takes and returns it, and what is in service is ordered by class. -/
theorem irq_run_sound [DecidableEq ι] (es : List (IrqEvent ι)) :
    IrqSound (es.foldl irqStep vcpuInit) := by
  have hinv : ∀ v : Vcpu ι, IrqInv v → IrqInv (es.foldl irqStep v) := by
    induction es with
    | nil => exact fun _ h => h
    | cons e es ih => exact fun v h => ih _ (irqStep_inv h e)
  exact (hinv _ vcpuInit_inv).sound

/-- A second vector of the same word is queued after the selection found the word empty and
before it clears the summary bit. -/
def lateVector : List (IrqEvent Unit) :=
  [.guest ⟨0, false, true, false, false, false⟩, .queue () 0x31 irqExternal, .light (), .select] ++
    List.replicate 19 .vcpu ++ [.queue () 0x32 irqExternal, .light (), .vcpu]

/-- No source is between its two updates, the word holds a request and its summary bit is clear. -/
theorem lateVector_unseen :
    (lateVector.foldl irqStep vcpuInit).source () = none ∧
      (lateVector.foldl irqStep vcpuInit).apic.irr 1 ≠ 0 ∧
      (lateVector.foldl irqStep vcpuInit).apic.pending.testBit 1 = false := by
  decide

end Lebirun.Vfl
