import Mathlib
import Lebirun.Lib.Run
import Lebirun.Pmm.Refht

namespace Lebirun.Pmm
set_option autoImplicit true
set_option linter.unusedSectionVars false

open Machine

/-- Where a thread stands between two locked sections of an operation on a frame. -/
inductive Phase where
  | idle
  /-- `refht_add` has its node and is about to link it. -/
  | linking (frame : Nat) (fresh : Option RefNode)
  /-- `pfa_free` is about to be called. -/
  | freeing (frame : Nat)
  /-- `pfa_free` is past `refht_release`. -/
  | clearing (frame : Nat)
  /-- `cow_handle_fault` has seen a count of one. -/
  | reusing (frame : Nat)
  deriving DecidableEq

def Phase.frame : Phase → Option Nat
  | .idle => none
  | .linking f _ => some f
  | .freeing f => some f
  | .clearing f => some f
  | .reusing f => some f

/-- The table, the bitmap and the threads. `owners` is not in the source: it counts the holders
of a frame. -/
structure RefSys (ι : Type) where
  table : Refht
  refcountEntries : Nat
  bit : Nat → Bool
  owners : Nat → Nat
  thread : ι → Phase

inductive RefAct where
  | alloc (frame : Nat)
  | share (frame : Nat) (mem : Bool)
  | link
  | cowRelease (frame : Nat)
  | free (frame : Nat)
  | continueFree
  | clear
  | breakDec (frame : Nat)
  | reuse (frame : Nat)
  | dropNode
  | resize (extra bits : Nat)
  | gc
  deriving DecidableEq

variable {ι : Type} [DecidableEq ι]

def RefSys.goto (s : RefSys ι) (t : ι) (p : Phase) : RefSys ι :=
  { s with thread := Function.update s.thread t p }

/-- The operation of `t` ends and its holder of the frame is gone. -/
def RefSys.finish (s : RefSys ι) (t : ι) (frame : Nat) : RefSys ι :=
  { s with owners := Function.update s.owners frame (s.owners frame - 1) }.goto t .idle

/-- `pfa_ref_share` up to the moment it has a node: `refht_init`, the bounds check and
`refht_alloc_node`, whose `kmalloc` answers `mem`. -/
def RefSys.shareBegin (s : RefSys ι) (m : MemMap) (t : ι) (frame : Nat) (mem : Bool) :
    RefSys ι :=
  let table := refhtInit s.table
  let s := { s with table := table, refcountEntries := m.totalPagesManaged }
  if m.totalPagesManaged ≤ frame then s
  else
    let r := refhtAllocNode table
    { s with table := r.2 }.goto t (.linking frame (r.1.or (if mem then some ⟨0, 0⟩ else none)))

def RefSys.pfaCowRelease (s : RefSys ι) (m : MemMap) (t : ι) (frame : Nat) : RefSys ι :=
  if frame = 0 then s
  else
    let r := refhtRelease s.table m frame true
    let s := { s with table := r.table }
    if r.freePage then s.goto t (.freeing frame) else s.finish t frame

/-- `pfa_free` up to the bitmap. -/
def RefSys.pfaFree (s : RefSys ι) (m : MemMap) (t : ι) (frame : Nat) : RefSys ι :=
  if !m.freeable frame then s.goto t .idle
  else if frame < s.refcountEntries then
    let r := refhtRelease s.table m frame false
    let s := { s with table := r.table }
    if r.result > 0 then s.finish t frame else s.goto t (.clearing frame)
  else s.goto t (.clearing frame)

/-- The end of the copying path of `cow_handle_fault`. -/
def RefSys.cowBreak (s : RefSys ι) (m : MemMap) (t : ι) (frame : Nat) : RefSys ι :=
  let r := refhtRelease s.table m frame false
  let s := { s with table := r.table }
  if r.result = 0 then s.goto t (.freeing frame) else s.finish t frame

/-- The path of `cow_handle_fault` for a count of at most one. -/
def RefSys.cowReuse (s : RefSys ι) (m : MemMap) (t : ι) (frame : Nat) : RefSys ι :=
  let ref := pfaRefGet s.table m frame
  if ref ≤ 1 then if ref > 0 then s.goto t (.reusing frame) else s else s

def refStep (m : MemMap) (s : RefSys ι) (e : ι × RefAct) : RefSys ι :=
  let t := e.1
  match e.2, s.thread t with
  | .alloc f, _ =>
    { s with bit := Function.update s.bit f true, owners := Function.update s.owners f 1 }
  | .share f mem, _ => s.shareBegin m t f mem
  | .link, .linking f fresh =>
    let r := refhtAdd s.table f 2 fresh
    let s := { s with
      table := r.2
      owners := Function.update s.owners f (if r.1 then s.owners f + 1 else s.owners f) }
    s.goto t .idle
  | .cowRelease f, _ => s.pfaCowRelease m t f
  | .free f, _ => s.pfaFree m t f
  | .continueFree, .freeing f => s.pfaFree m t f
  | .clear, .clearing f => { s with bit := Function.update s.bit f false }.finish t f
  | .breakDec f, _ => s.cowBreak m t f
  | .reuse f, _ => s.cowReuse m t f
  | .dropNode, .reusing f =>
    { s with table := (refhtRelease s.table m f false).table }.goto t .idle
  | .resize extra bits, _ => { s with table := refhtResize s.table extra bits }
  | .gc, _ => { s with table := pfaRefGc s.table }
  | _, _ => s

variable [Fintype ι]

/-- How many threads are in the middle of an operation on the frame. -/
def RefSys.busy (s : RefSys ι) (f : Nat) : Nat :=
  ∑ t, if (s.thread t).frame = some f then 1 else 0

/-- Each operation is made through a holder of its own: one that no other operation in progress
is using. Allocation hands out frames whose bit is clear. -/
def RefLegal (m : MemMap) (s : RefSys ι) (e : ι × RefAct) : Prop :=
  match e.2 with
  | .alloc f => s.thread e.1 = .idle ∧ f ≠ 0 ∧ m.freeable f = true ∧ s.bit f = false
  | .share f _ => s.thread e.1 = .idle ∧ s.busy f < s.owners f
  | .link => ∃ f n, s.thread e.1 = .linking f n
  | .cowRelease f => s.thread e.1 = .idle ∧ s.busy f < s.owners f
  | .free f => s.thread e.1 = .idle ∧ s.busy f < s.owners f
  | .continueFree => ∃ f, s.thread e.1 = .freeing f
  | .clear => ∃ f, s.thread e.1 = .clearing f
  | .breakDec f => s.thread e.1 = .idle ∧ s.busy f < s.owners f
  | .reuse f => s.thread e.1 = .idle ∧ s.busy f < s.owners f
  | .dropNode => ∃ f, s.thread e.1 = .reusing f
  | .resize _ _ => s.table.initialized = true
  | .gc => True

def refInit (bit : Nat → Bool) : RefSys ι where
  table := ⟨none, 0, [], 0, 0, false⟩
  refcountEntries := 0
  bit := bit
  owners := fun _ => 0
  thread := fun _ => .idle

/-- What a phase promises about its frame. -/
def PhaseOk (table : Refht) (owners : Nat → Nat) : Phase → Prop
  | .idle => True
  | .linking _ _ => True
  | .freeing f => owners f = 1 ∧ table.ref f = none
  | .clearing f => owners f = 1 ∧ table.ref f = none
  | .reusing f => owners f = 1 ∧ table.ref f = some 1

structure RefInv (m : MemMap) (s : RefSys ι) : Prop where
  table : s.table.Ok
  entries : s.table.initialized = true → s.refcountEntries = m.totalPagesManaged
  managed : ∀ f, 0 < s.owners f → f ≠ 0 ∧ m.freeable f = true ∧ s.bit f = true
  count : ∀ f, 0 < s.owners f → s.owners f = (s.table.ref f).getD 1
  unowned : ∀ f, s.owners f = 0 → s.table.ref f = none
  busy : ∀ f, s.busy f ≤ s.owners f
  phases : ∀ t, PhaseOk s.table s.owners (s.thread t)

variable {m : MemMap} {s : RefSys ι} {t t' : ι} {f : Nat}

theorem sum_update_add {α : Type*} (g : α → Nat) (v : ι → α) (t : ι) (p : α) :
    ∑ x, g (Function.update v t p x) + g (v t) = ∑ x, g (v x) + g p := by
  have hsplit : ∀ w : ι → α, ∑ x, g (w x) = g (w t) + ∑ x ∈ Finset.univ.erase t, g (w x) :=
    fun w => (Finset.add_sum_erase _ (fun x => g (w x)) (Finset.mem_univ t)).symm
  have hrest : ∑ x ∈ Finset.univ.erase t, g (Function.update v t p x) =
      ∑ x ∈ Finset.univ.erase t, g (v x) := by
    apply Finset.sum_congr rfl
    intro x hx
    rw [Function.update_of_ne (Finset.ne_of_mem_erase hx)]
  rw [hsplit (Function.update v t p), hsplit v, hrest, Function.update_self]
  omega

/-- Whether a phase counts for the frame. -/
def Phase.on (p : Phase) (f : Nat) : Nat := if p.frame = some f then 1 else 0

theorem busy_update (s : RefSys ι) (t : ι) (p : Phase) (f : Nat) :
    RefSys.busy { s with thread := Function.update s.thread t p } f + (s.thread t).on f =
      s.busy f + p.on f :=
  sum_update_add (fun p => p.on f) s.thread t p

theorem on_le_busy (s : RefSys ι) (t : ι) (f : Nat) : (s.thread t).on f ≤ s.busy f :=
  Finset.single_le_sum (f := fun t => (s.thread t).on f) (fun _ _ => Nat.zero_le _)
    (Finset.mem_univ t)

theorem on_add_le_busy (hne : t ≠ t') (f : Nat) :
    (s.thread t).on f + (s.thread t').on f ≤ s.busy f := by
  have hle := on_le_busy { s with thread := Function.update s.thread t .idle } t' f
  have hup := busy_update s t .idle f
  simp only [Function.update_of_ne hne.symm] at hle
  have hidle : Phase.on .idle f = 0 := rfl
  omega

/-- The thread starts an operation on the frame or is in the middle of one. -/
def Acts (s : RefSys ι) (t : ι) (f : Nat) : Prop :=
  (s.thread t = .idle ∧ s.busy f < s.owners f) ∨ (s.thread t).frame = some f

theorem Acts.busy_lt (hI : RefInv m s) (ha : Acts s t f) :
    s.busy f < s.owners f + (s.thread t).on f := by
  have hb := hI.busy f
  rcases ha with ⟨hi, hlt⟩ | hf
  · omega
  · have hon : (s.thread t).on f = 1 := if_pos hf
    omega

theorem Acts.owned (hI : RefInv m s) (ha : Acts s t f) : 0 < s.owners f := by
  have hlt := ha.busy_lt hI
  have hle := on_le_busy s t f
  omega

/-- While a thread acts on a frame no other one is about to free or to reuse it. -/
theorem Acts.alone (hI : RefInv m s) (ha : Acts s t f) (hne : t' ≠ t)
    (hf : (s.thread t').frame = some f) (hone : s.owners f = 1) : False := by
  have hlt := ha.busy_lt hI
  have hle := on_add_le_busy (s := s) hne f
  have hon : (s.thread t').on f = 1 := if_pos hf
  omega

/-- The state after a step of thread `t` on frame `f`. -/
theorem RefInv.act (hI : RefInv m s) (ha : Acts s t f) {T : Refht} {B : Nat → Bool} {o : Nat}
    {p : Phase} (hT : T.Ok) (hinit : T.initialized = s.table.initialized)
    (href : ∀ j ≠ f, T.ref j = s.table.ref j) (hB : ∀ j ≠ f, B j = s.bit j)
    (hBf : 0 < o → B f = true) (ho : 0 < o → o = (T.ref f).getD 1)
    (ho' : o = 0 → T.ref f = none) (hp : p = .idle ∨ p.frame = some f)
    (hbusy : s.busy f + p.on f ≤ o + (s.thread t).on f)
    (hphase : PhaseOk T (Function.update s.owners f o) p) :
    RefInv m ⟨T, s.refcountEntries, B, Function.update s.owners f o,
      Function.update s.thread t p⟩ := by
  have hold : ∀ j ≠ f, (s.thread t).on j = 0 := by
    intro j hj
    rcases ha with ⟨hi, -⟩ | hf
    · rw [hi]
      rfl
    · rw [Phase.on, hf, if_neg (by simpa using hj.symm)]
  have hnew : ∀ j ≠ f, p.on j = 0 := by
    intro j hj
    rcases hp with hp | hp
    · rw [hp]
      rfl
    · rw [Phase.on, hp, if_neg (by simpa using hj.symm)]
  refine ⟨hT, fun hi => hI.entries (hinit ▸ hi), ?_, ?_, ?_, ?_, ?_⟩
  · intro j hj
    by_cases hjf : j = f
    · subst j
      simp only [Function.update_self] at hj
      have hman := hI.managed f (ha.owned hI)
      exact ⟨hman.1, hman.2.1, hBf hj⟩
    · simp only [Function.update_of_ne hjf] at hj
      have hman := hI.managed j hj
      exact ⟨hman.1, hman.2.1, (hB j hjf).trans hman.2.2⟩
  · intro j hj
    by_cases hjf : j = f
    · subst j
      simp only [Function.update_self] at hj ⊢
      exact ho hj
    · simp only [Function.update_of_ne hjf, href j hjf] at hj ⊢
      exact hI.count j hj
  · intro j hj
    by_cases hjf : j = f
    · subst j
      simp only [Function.update_self] at hj
      exact ho' hj
    · simp only [Function.update_of_ne hjf] at hj
      rw [href j hjf]
      exact hI.unowned j hj
  · intro j
    have hup := busy_update s t p j
    have hle := hI.busy j
    show RefSys.busy { s with thread := Function.update s.thread t p } j ≤ _
    by_cases hjf : j = f
    · subst j
      simp only [Function.update_self]
      omega
    · have ho := hold j hjf
      have hn := hnew j hjf
      simp only [Function.update_of_ne hjf]
      omega
  · intro t'
    by_cases ht : t' = t
    · subst t'
      simp only [Function.update_self]
      exact hphase
    · simp only [Function.update_of_ne ht]
      have hphases := hI.phases t'
      have hkeep : ∀ j, (s.thread t').frame = some j → s.owners j = 1 → j ≠ f := by
        intro j hj hone hjf
        subst j
        exact ha.alone hI ht hj hone
      cases hq : s.thread t' with
      | idle => trivial
      | linking j n => trivial
      | freeing j =>
        rw [hq] at hphases hkeep
        have hjf := hkeep j rfl hphases.1
        exact ⟨(Function.update_of_ne hjf _ _).trans hphases.1, (href j hjf).trans hphases.2⟩
      | clearing j =>
        rw [hq] at hphases hkeep
        have hjf := hkeep j rfl hphases.1
        exact ⟨(Function.update_of_ne hjf _ _).trans hphases.1, (href j hjf).trans hphases.2⟩
      | reusing j =>
        rw [hq] at hphases hkeep
        have hjf := hkeep j rfl hphases.1
        exact ⟨(Function.update_of_ne hjf _ _).trans hphases.1, (href j hjf).trans hphases.2⟩

theorem freeable_lt (hf : m.freeable f = true) : f < m.totalPagesManaged := by
  simp only [MemMap.freeable, decide_eq_true_eq] at hf
  exact hf.1

/-- `refht_release` through a holder: either it was the last one, and the table has no node for
the frame any more, or the table counts one less. -/
theorem release_cases (hI : RefInv m s) (ha : Acts s t f) (cow : Bool) :
    let r := refhtRelease s.table m f cow
    r.table.Ok ∧ (∀ j ≠ f, r.table.ref j = s.table.ref j) ∧
      (r.freePage = true → cow = true) ∧
      (((if cow then r.freePage = true else r.result = 0) ∧ s.owners f = 1 ∧
          r.table.ref f = none) ∨
        (¬(if cow then r.freePage = true else r.result = 0) ∧ 2 ≤ s.owners f ∧
          s.owners f - 1 = (r.table.ref f).getD 1)) := by
  intro r
  have hown := ha.owned hI
  have hlt := freeable_lt (hI.managed f hown).2.1
  have hcount := hI.count f hown
  cases href : s.table.ref f with
  | none =>
    have hr : r = ⟨0, cow, s.table⟩ := refhtRelease_none hlt href cow
    rw [href, Option.getD_none] at hcount
    rw [hr]
    refine ⟨hI.table, fun _ _ => rfl, fun h => h, .inl ⟨?_, hcount, href⟩⟩
    cases cow with
    | true => rfl
    | false => rfl
  | some c =>
    rw [href, Option.getD_some] at hcount
    obtain ⟨hok, hrefs, hfree, hres⟩ := refhtRelease_some hI.table hlt href (by omega) cow
    refine ⟨hok, fun j hj => (hrefs j).trans (if_neg hj), ?_, ?_⟩
    · intro h
      have hcow : (cow && decide (c = 1)) = true := hfree.symm.trans h
      rw [Bool.and_eq_true] at hcow
      exact hcow.1
    · have hself := (hrefs f).trans (if_pos rfl)
      show ((if cow then (refhtRelease s.table m f cow).freePage = true
          else (refhtRelease s.table m f cow).result = 0) ∧ s.owners f = 1 ∧
          (refhtRelease s.table m f cow).table.ref f = none) ∨
        (¬(if cow then (refhtRelease s.table m f cow).freePage = true
          else (refhtRelease s.table m f cow).result = 0) ∧ 2 ≤ s.owners f ∧
          s.owners f - 1 = ((refhtRelease s.table m f cow).table.ref f).getD 1)
      rw [hself, hfree, hres]
      cases cow with
      | true =>
        by_cases h1 : c = 1
        · left
          simp [h1, hcount]
        · right
          by_cases h2 : c = 2
          · simp [h2, hcount]
          · have hgt : ¬c ≤ 2 := by omega
            simp [h1, hcount, hgt]
            omega
      | false =>
        by_cases h1 : c = 1
        · left
          simp [h1, hcount]
        · right
          simp [h1, hcount]
          omega

theorem RefInv.finish (hI : RefInv m s) (ha : Acts s t f) {T : Refht} {B : Nat → Bool}
    (hT : T.Ok) (hinit : T.initialized = s.table.initialized)
    (href : ∀ j ≠ f, T.ref j = s.table.ref j) (hB : ∀ j ≠ f, B j = s.bit j)
    (hBf : 0 < s.owners f - 1 → B f = true)
    (hcount : 0 < s.owners f - 1 → s.owners f - 1 = (T.ref f).getD 1)
    (hzero : s.owners f - 1 = 0 → T.ref f = none) :
    RefInv m (RefSys.finish { s with table := T, bit := B } t f) := by
  have hlt := ha.busy_lt hI
  have hidle : Phase.on .idle f = 0 := rfl
  have hown := ha.owned hI
  have hbusy : s.busy f + Phase.on .idle f ≤ s.owners f - 1 + (s.thread t).on f := by omega
  exact hI.act ha hT hinit href hB hBf hcount hzero (.inl rfl) hbusy trivial

/-- The frame's last holder goes on to free it or to reuse it. -/
theorem RefInv.goto (hI : RefInv m s) (ha : Acts s t f) {T : Refht} {p : Phase}
    (hT : T.Ok) (hinit : T.initialized = s.table.initialized)
    (href : ∀ j ≠ f, T.ref j = s.table.ref j) (hcount : s.owners f = (T.ref f).getD 1)
    (hp : p = .idle ∨ p.frame = some f) (hphase : PhaseOk T s.owners p) :
    RefInv m (RefSys.goto { s with table := T } t p) := by
  have hlt := ha.busy_lt hI
  have hown := ha.owned hI
  have hon : p.on f ≤ 1 := by
    rw [Phase.on]
    split
    · exact le_rfl
    · exact Nat.zero_le 1
  have hsame : Function.update s.owners f (s.owners f) = s.owners := Function.update_eq_self _ _
  have hact := hI.act ha (B := s.bit) (o := s.owners f) hT hinit href (fun _ _ => rfl)
    (fun _ => (hI.managed f hown).2.2) (fun _ => hcount) (by omega) hp (by omega)
    (hsame.symm ▸ hphase)
  rw [hsame] at hact
  exact hact

/-- The step keeps the bits and leaves every owned frame an owner. -/
def Quiet (s s' : RefSys ι) : Prop :=
  (∀ f, s.bit f = true → s'.bit f = true) ∧ ∀ f, 0 < s.owners f → 0 < s'.owners f

theorem Quiet.of_eq {s' : RefSys ι} (hb : s'.bit = s.bit) (ho : s'.owners = s.owners) :
    Quiet s s' := by
  rw [Quiet, hb, ho]
  exact ⟨fun _ h => h, fun _ h => h⟩

theorem quiet_finish {T : Refht} (htwo : 2 ≤ s.owners f) (t : ι) :
    Quiet s (RefSys.finish { s with table := T } t f) := by
  refine ⟨fun _ h => h, ?_⟩
  intro j hj
  show 0 < Function.update s.owners f (s.owners f - 1) j
  by_cases hjf : j = f
  · subst j
    rw [Function.update_self]
    omega
  · rw [Function.update_of_ne hjf]
    exact hj

/-- A release in general: the last holder goes on to `p`, any other one is gone. -/
theorem release_inv (hI : RefInv m s) (ha : Acts s t f) (cow : Bool) {p : Phase}
    (hp : p = .freeing f ∨ p = .clearing f) {s' : RefSys ι}
    (hlast : (if cow then (refhtRelease s.table m f cow).freePage = true
        else (refhtRelease s.table m f cow).result = 0) →
      s' = RefSys.goto { s with table := (refhtRelease s.table m f cow).table } t p)
    (hmore : ¬(if cow then (refhtRelease s.table m f cow).freePage = true
        else (refhtRelease s.table m f cow).result = 0) →
      s' = RefSys.finish { s with table := (refhtRelease s.table m f cow).table } t f) :
    RefInv m s' ∧ Quiet s s' := by
  obtain ⟨hT, href, -, hcase⟩ := release_cases hI ha cow
  have hinit := refhtRelease_initialized s.table m f cow
  have hman := hI.managed f (ha.owned hI)
  rcases hcase with ⟨hl, hone, hnone⟩ | ⟨hm, htwo, hcount⟩
  · rw [hlast hl]
    refine ⟨hI.goto ha hT hinit href ?_ ?_ ?_, Quiet.of_eq rfl rfl⟩
    · rw [hnone, hone]
      rfl
    · rcases hp with rfl | rfl
      · exact .inr rfl
      · exact .inr rfl
    · rcases hp with rfl | rfl
      · exact ⟨hone, hnone⟩
      · exact ⟨hone, hnone⟩
  · rw [hmore hm]
    refine ⟨?_, quiet_finish htwo t⟩
    exact hI.finish ha hT hinit href (fun _ _ => rfl) (fun _ => hman.2.2) (fun _ => hcount)
      (by omega)

theorem pfaCowRelease_inv (hI : RefInv m s) (ha : Acts s t f) :
    RefInv m (s.pfaCowRelease m t f) ∧ Quiet s (s.pfaCowRelease m t f) := by
  have hman := hI.managed f (ha.owned hI)
  rw [RefSys.pfaCowRelease, if_neg hman.1]
  apply release_inv hI ha true (.inl rfl)
  · intro hlast
    exact if_pos hlast
  · intro hmore
    exact if_neg hmore

theorem cowBreak_inv (hI : RefInv m s) (ha : Acts s t f) :
    RefInv m (s.cowBreak m t f) ∧ Quiet s (s.cowBreak m t f) := by
  rw [RefSys.cowBreak]
  apply release_inv hI ha false (.inl rfl)
  · intro hlast
    exact if_pos hlast
  · intro hmore
    exact if_neg hmore

theorem pfaFree_inv (hI : RefInv m s) (ha : Acts s t f) :
    RefInv m (s.pfaFree m t f) ∧ Quiet s (s.pfaFree m t f) := by
  have hown := ha.owned hI
  have hman := hI.managed f hown
  rw [RefSys.pfaFree, if_neg (by simp [hman.2.1])]
  split
  · apply release_inv hI ha false (.inr rfl)
    · intro hlast
      have hzero : (refhtRelease s.table m f false).result = 0 := hlast
      exact if_neg (by omega)
    · intro hmore
      have hpos : (refhtRelease s.table m f false).result ≠ 0 := hmore
      exact if_pos (by omega)
  · rename_i hlt
    -- the table was never set up, so the frame has one holder and no node
    have hu : s.table.initialized = false := by
      cases hi : s.table.initialized with
      | false => rfl
      | true =>
        rw [hI.entries hi] at hlt
        exact absurd (freeable_lt hman.2.1) hlt
    have hnone : s.table.ref f = none := by
      rw [Refht.ref, Refht.find, hI.table.uninit hu]
      rfl
    have hcount := hI.count f hown
    have hone : s.owners f = 1 := by rw [hcount, hnone]; rfl
    exact ⟨hI.goto ha hI.table rfl (fun _ _ => rfl) hcount (.inr rfl) ⟨hone, hnone⟩,
      Quiet.of_eq rfl rfl⟩

theorem cowReuse_inv (hI : RefInv m s) (ha : Acts s t f) :
    RefInv m (s.cowReuse m t f) ∧ Quiet s (s.cowReuse m t f) := by
  have hown := ha.owned hI
  have hman := hI.managed f hown
  have hcount := hI.count f hown
  rw [RefSys.cowReuse]
  split
  · rename_i hle
    split
    · rename_i hpos
      refine ⟨?_, Quiet.of_eq rfl rfl⟩
      have hone : s.table.ref f = some 1 := by
        rw [pfaRefGet] at hle hpos
        rw [Refht.ref]
        cases hf : s.table.find f with
        | none =>
          rw [hf] at hpos
          simp at hpos
        | some n =>
          have hi := initialized_of_ref hI.table (find_ref hf)
          rw [hf, hi, if_neg (by simp), if_neg (Nat.not_le.2 (freeable_lt hman.2.1))] at hle hpos
          dsimp only at hle hpos
          have h1 : n.refcount = 1 := by omega
          rw [Option.map_some, h1]
      rw [hone, Option.getD_some] at hcount
      exact hI.goto ha hI.table rfl (fun _ _ => rfl) (by rw [hone, hcount]; rfl) (.inr rfl)
        ⟨hcount, hone⟩
    · exact ⟨hI, Quiet.of_eq rfl rfl⟩
  · exact ⟨hI, Quiet.of_eq rfl rfl⟩

/-- Only the table changes, and no count in it. -/
theorem RefInv.retable (hI : RefInv m s) {T : Refht} {E : Nat} (hT : T.Ok)
    (hE : T.initialized = true → E = m.totalPagesManaged)
    (href : ∀ j, T.ref j = s.table.ref j) :
    RefInv m { s with table := T, refcountEntries := E } := by
  refine ⟨hT, hE, hI.managed, ?_, ?_, hI.busy, ?_⟩
  · intro f hf
    show s.owners f = (T.ref f).getD 1
    rw [href]
    exact hI.count f hf
  · intro f hf
    exact (href f).trans (hI.unowned f hf)
  · intro t
    have hphase := hI.phases t
    show PhaseOk T s.owners (s.thread t)
    cases hp : s.thread t with
    | idle => trivial
    | linking f n => trivial
    | freeing f =>
      rw [hp] at hphase
      exact ⟨hphase.1, (href f).trans hphase.2⟩
    | clearing f =>
      rw [hp] at hphase
      exact ⟨hphase.1, (href f).trans hphase.2⟩
    | reusing f =>
      rw [hp] at hphase
      exact ⟨hphase.1, (href f).trans hphase.2⟩

theorem refhtInit_spec (hok : h.Ok) : (refhtInit h).Ok ∧ ∀ j, (refhtInit h).ref j = h.ref j := by
  rw [refhtInit]
  split
  · exact ⟨hok, fun _ => rfl⟩
  · rename_i hi
    rw [Bool.not_eq_true] at hi
    refine ⟨⟨?_, ?_, rfl, rfl, ?_⟩, ?_⟩
    · intro t ht
      cases ht
    · exact ⟨fun _ => rfl, fun _ => rfl⟩
    · intro hu
      cases hu
    · intro j
      rw [Refht.ref, Refht.ref, Refht.find, Refht.find, hok.uninit hi]

theorem shareBegin_inv (hI : RefInv m s) (ha : Acts s t f) (mem : Bool) :
    RefInv m (s.shareBegin m t f mem) ∧ Quiet s (s.shareBegin m t f mem) := by
  have hown := ha.owned hI
  have hman := hI.managed f hown
  obtain ⟨hok, href⟩ := refhtInit_spec hI.table
  obtain ⟨hok', href'⟩ := refhtAllocNode_spec hok
  rw [RefSys.shareBegin]
  dsimp only
  rw [if_neg (Nat.not_le.2 (freeable_lt hman.2.1))]
  refine ⟨?_, Quiet.of_eq rfl rfl⟩
  have hT : ∀ j, (refhtAllocNode (refhtInit s.table)).2.ref j = s.table.ref j :=
    fun j => (href' j).trans (href j)
  have hI' : RefInv m { s with
      table := (refhtAllocNode (refhtInit s.table)).2
      refcountEntries := m.totalPagesManaged } := hI.retable hok' (fun _ => rfl) hT
  have ha' : Acts { s with
      table := (refhtAllocNode (refhtInit s.table)).2
      refcountEntries := m.totalPagesManaged } t f := ha
  exact hI'.goto ha' hok' rfl (fun _ _ => rfl) (hI'.count f hown) (.inr rfl) trivial

theorem link_inv (hI : RefInv m s) (ht : s.thread t = .linking f n) :
    RefInv m (refStep m s (t, .link)) ∧ Quiet s (refStep m s (t, .link)) := by
  have ha : Acts s t f := .inr (by rw [ht]; rfl)
  have hown := ha.owned hI
  have hcount := hI.count f hown
  obtain ⟨hok, href⟩ := refhtAdd_spec hI.table f 2 n
  have hinit := refhtAdd_initialized s.table f 2 n
  have hlt := ha.busy_lt hI
  have hidle : Phase.on .idle f = 0 := rfl
  simp only [refStep, ht, RefSys.goto]
  generalize refhtAdd s.table f 2 n = r at *
  obtain ⟨done, T⟩ := r
  dsimp only at *
  have hother : ∀ j ≠ f, T.ref j = s.table.ref j := by
    intro j hj
    rw [href j, if_neg fun hc => hj hc.2]
  cases done with
  | true =>
    have hself : T.ref f = some ((s.table.ref f).elim 2 (· + 1)) :=
      (href f).trans (if_pos ⟨rfl, rfl⟩)
    refine ⟨hI.act ha hok hinit hother (fun _ _ => rfl) (fun _ => (hI.managed f hown).2.2) ?_ ?_
      (.inl rfl) ?_ trivial, fun _ hb => hb, ?_⟩
    · intro _
      rw [if_pos rfl, hself, Option.getD_some, hcount]
      cases s.table.ref f with
      | none => rfl
      | some c => rfl
    · intro h0
      cases h0
    · rw [if_pos rfl]
      omega
    · intro j hj
      show 0 < Function.update s.owners f _ j
      by_cases hjf : j = f
      · rw [hjf, Function.update_self, if_pos rfl]
        exact Nat.succ_pos _
      · rw [Function.update_of_ne hjf]
        exact hj
  | false =>
    have hself : T.ref f = s.table.ref f := (href f).trans (if_neg (by simp))
    have hsame : Function.update s.owners f
        (if false = true then s.owners f + 1 else s.owners f) = s.owners :=
      Function.update_eq_self _ _
    rw [hsame]
    refine ⟨?_, Quiet.of_eq rfl rfl⟩
    exact hI.goto ha hok hinit hother (by rw [hself]; exact hcount) (.inl rfl) trivial

theorem dropNode_inv (hI : RefInv m s) (ht : s.thread t = .reusing f) :
    RefInv m (refStep m s (t, .dropNode)) ∧ Quiet s (refStep m s (t, .dropNode)) := by
  have ha : Acts s t f := .inr (by rw [ht]; rfl)
  have hphase := hI.phases t
  rw [ht] at hphase
  obtain ⟨hone, href⟩ := hphase
  have hlt := freeable_lt (hI.managed f (ha.owned hI)).2.1
  obtain ⟨hok, hrefs, -, -⟩ := refhtRelease_some hI.table hlt href Nat.one_pos false
  have hself : (refhtRelease s.table m f false).table.ref f = none :=
    (hrefs f).trans (if_pos rfl)
  simp only [refStep, ht]
  refine ⟨?_, Quiet.of_eq rfl rfl⟩
  exact hI.goto ha hok (refhtRelease_initialized s.table m f false)
    (fun j hj => (hrefs j).trans (if_neg hj)) (by rw [hself, hone]; rfl) (.inl rfl) trivial

/-- The bit is cleared, and the last holder is gone. -/
theorem clear_inv (hI : RefInv m s) (ht : s.thread t = .clearing f) :
    RefInv m (refStep m s (t, .clear)) ∧ s.bit f = true ∧ s.owners f = 1 := by
  have ha : Acts s t f := .inr (by rw [ht]; rfl)
  have hphase := hI.phases t
  rw [ht] at hphase
  obtain ⟨hone, href⟩ := hphase
  simp only [refStep, ht]
  refine ⟨?_, (hI.managed f (ha.owned hI)).2.2, hone⟩
  exact hI.finish ha hI.table rfl (fun _ _ => rfl)
    (fun j hj => Function.update_of_ne hj _ _) (by omega) (by omega) (fun _ => href)

theorem alloc_inv (hI : RefInv m s) (hf : f ≠ 0) (hfree : m.freeable f = true)
    (hbit : s.bit f = false) :
    RefInv m (refStep m s (t, .alloc f)) ∧ Quiet s (refStep m s (t, .alloc f)) := by
  have hzero : s.owners f = 0 := by
    by_contra hne
    have hb := (hI.managed f (Nat.pos_of_ne_zero hne)).2.2
    rw [hbit] at hb
    cases hb
  have hnone := hI.unowned f hzero
  have hown : ∀ j, 0 < s.owners j → j ≠ f := by
    rintro j hj rfl
    omega
  simp only [refStep]
  refine ⟨⟨hI.table, hI.entries, ?_, ?_, ?_, ?_, ?_⟩, ?_, ?_⟩
  · intro j hj
    by_cases hjf : j = f
    · subst j
      exact ⟨hf, hfree, Function.update_self _ _ _⟩
    · simp only [Function.update_of_ne hjf] at hj ⊢
      exact hI.managed j hj
  · intro j hj
    by_cases hjf : j = f
    · subst j
      simp only [Function.update_self, hnone, Option.getD_none]
    · simp only [Function.update_of_ne hjf] at hj ⊢
      exact hI.count j hj
  · intro j hj
    by_cases hjf : j = f
    · subst j
      exact hnone
    · simp only [Function.update_of_ne hjf] at hj
      exact hI.unowned j hj
  · intro j
    have hle := hI.busy j
    show s.busy j ≤ Function.update s.owners f 1 j
    by_cases hjf : j = f
    · subst j
      rw [Function.update_self]
      omega
    · rw [Function.update_of_ne hjf]
      exact hle
  · intro t'
    have hphase := hI.phases t'
    show PhaseOk s.table (Function.update s.owners f 1) (s.thread t')
    cases hp : s.thread t' with
    | idle => trivial
    | linking j n => trivial
    | freeing j =>
      rw [hp] at hphase
      have hj := hown j (by rw [hphase.1]; exact Nat.one_pos)
      exact ⟨(Function.update_of_ne hj _ _).trans hphase.1, hphase.2⟩
    | clearing j =>
      rw [hp] at hphase
      have hj := hown j (by rw [hphase.1]; exact Nat.one_pos)
      exact ⟨(Function.update_of_ne hj _ _).trans hphase.1, hphase.2⟩
    | reusing j =>
      rw [hp] at hphase
      have hj := hown j (by rw [hphase.1]; exact Nat.one_pos)
      exact ⟨(Function.update_of_ne hj _ _).trans hphase.1, hphase.2⟩
  · intro j hj
    show Function.update s.bit f true j = true
    by_cases hjf : j = f
    · rw [hjf, Function.update_self]
    · rw [Function.update_of_ne hjf]
      exact hj
  · intro j hj
    show 0 < Function.update s.owners f 1 j
    rw [Function.update_of_ne (hown j hj)]
    exact hj

/-- A bit is cleared exactly by the step that removes the frame's last owner. -/
def ClearsLast (s s' : RefSys ι) : Prop :=
  ∀ f, (s.bit f = true ∧ s'.bit f = false) ↔ (0 < s.owners f ∧ s'.owners f = 0)

theorem Quiet.clearsLast {s' : RefSys ι} (hq : Quiet s s') : ClearsLast s s' := by
  intro f
  constructor
  · intro hb
    rw [hq.1 f hb.1] at hb
    cases hb.2
  · intro ho
    have hpos := hq.2 f ho.1
    omega

theorem clear_clearsLast (hI : RefInv m s) (ht : s.thread t = .clearing f) :
    ClearsLast s (refStep m s (t, .clear)) := by
  obtain ⟨-, hbit, hone⟩ := clear_inv hI ht
  intro j
  simp only [refStep, ht, RefSys.finish, RefSys.goto]
  by_cases hjf : j = f
  · subst j
    simp only [Function.update_self, hbit, hone]
    simp
  · simp only [Function.update_of_ne hjf]
    constructor
    · intro hb
      rw [hb.1] at hb
      cases hb.2
    · intro ho
      omega

theorem refStep_inv (hI : RefInv m s) (e : ι × RefAct) (hl : RefLegal m s e) :
    RefInv m (refStep m s e) ∧ ClearsLast s (refStep m s e) := by
  obtain ⟨t, a⟩ := e
  have hstart : ∀ {f : Nat}, s.thread t = .idle ∧ s.busy f < s.owners f → Acts s t f := .inl
  have hquiet : ∀ {s' : RefSys ι}, RefInv m s' ∧ Quiet s s' → RefInv m s' ∧ ClearsLast s s' :=
    fun h => ⟨h.1, h.2.clearsLast⟩
  cases a with
  | alloc f => exact hquiet (alloc_inv hI hl.2.1 hl.2.2.1 hl.2.2.2)
  | share f mem => exact hquiet (shareBegin_inv hI (hstart hl) mem)
  | link =>
    obtain ⟨f, n, ht⟩ := hl
    exact hquiet (link_inv hI ht)
  | cowRelease f => exact hquiet (pfaCowRelease_inv hI (hstart hl))
  | free f => exact hquiet (pfaFree_inv hI (hstart hl))
  | continueFree =>
    obtain ⟨f, ht⟩ := hl
    simp only [refStep, ht]
    simp only at ht
    exact hquiet (pfaFree_inv hI (.inr (by rw [ht]; rfl)))
  | clear =>
    obtain ⟨f, ht⟩ := hl
    exact ⟨(clear_inv hI ht).1, clear_clearsLast hI ht⟩
  | breakDec f => exact hquiet (cowBreak_inv hI (hstart hl))
  | reuse f => exact hquiet (cowReuse_inv hI (hstart hl))
  | dropNode =>
    obtain ⟨f, ht⟩ := hl
    exact hquiet (dropNode_inv hI ht)
  | resize extra bits =>
    obtain ⟨hok, href⟩ := refhtResize_spec hI.table hl extra bits
    exact hquiet ⟨hI.retable hok (fun _ => hI.entries hl) href, Quiet.of_eq rfl rfl⟩
  | gc =>
    obtain ⟨hok, href⟩ := pfaRefGc_spec hI.table
    refine hquiet ⟨hI.retable hok ?_ href, Quiet.of_eq rfl rfl⟩
    intro hi
    apply hI.entries
    rw [pfaRefGc] at hi
    split at hi
    · exact hi
    · exact hi

theorem refInit_inv (m : MemMap) (bit : Nat → Bool) : RefInv m (refInit bit : RefSys ι) := by
  refine ⟨⟨?_, ?_, rfl, rfl, fun _ => rfl⟩, ?_, ?_, ?_, fun _ _ => rfl, ?_, fun _ => trivial⟩
  · intro t ht
    cases ht
  · exact ⟨fun _ => rfl, fun _ => rfl⟩
  · intro hi
    cases hi
  · intro f hf
    cases hf
  · intro f hf
    cases hf
  · intro f
    simp [RefSys.busy, refInit, Phase.frame]

def RefSys.run (m : MemMap) (bit : Nat → Bool) (es : List (ι × RefAct)) : RefSys ι :=
  es.foldl (refStep m) (refInit bit)

/-- In every run, at every interleaving of the locked sections of any number of threads with
resizing and collection, the table counts the owners of every frame, and a frame's bit goes with
its last owner. -/
theorem refcount_tracks_owners (m : MemMap) (bit : Nat → Bool) (es : List (ι × RefAct))
    (hl : Along (refStep m) (RefLegal m) (refInit bit) es) :
    let s := RefSys.run m bit es
    (∀ f, 0 < s.owners f → s.owners f = (s.table.ref f).getD 1) ∧
      (s.table.nodes.map RefNode.pageIdx).Nodup ∧
      s.table.activeNodeCount = s.table.nodes.length ∧
      ∀ e, RefLegal m s e → ClearsLast s (refStep m s e) := by
  have hI : RefInv m (RefSys.run m bit es) :=
    Along.invariant (fun s e hs he => (refStep_inv hs e he).1) hl (refInit_inv m bit)
  exact ⟨hI.count, hI.table.nodup, hI.table.active, fun e he => (refStep_inv hI e he).2⟩

def smallMap : MemMap := ⟨[⟨0, 65536⟩], [], 16, 4, 0, 0, 0, 0⟩

/-- A frame is shared while the table is resized, one holder breaks away and the other frees. -/
def shareAndBreak : List (Fin 2 × RefAct) :=
  [(0, .alloc 5), (0, .share 5 true), (1, .resize 1 6), (0, .link), (1, .breakDec 5),
    (0, .cowRelease 5), (0, .continueFree), (0, .clear)]

theorem shareAndBreak_counts :
    let s := RefSys.run smallMap (fun _ => false) shareAndBreak
    s.owners 5 = 0 ∧ s.table.activeNodeCount = s.table.nodes.length := by
  have hl : Along (refStep smallMap) (RefLegal smallMap)
      (refInit (ι := Fin 2) fun _ => false) shareAndBreak :=
    ⟨⟨rfl, by decide, by decide, rfl⟩, ⟨rfl, by decide⟩, rfl, ⟨_, _, rfl⟩, ⟨rfl, by decide⟩,
      ⟨rfl, by decide⟩, ⟨_, rfl⟩, ⟨_, rfl⟩, trivial⟩
  exact ⟨by decide, (refcount_tracks_owners smallMap _ shareAndBreak hl).2.2.1⟩

end Lebirun.Pmm
