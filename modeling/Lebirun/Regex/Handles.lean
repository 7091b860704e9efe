import Mathlib
import Lebirun.Lib.Run
import Lebirun.Lib.Threads

namespace Lebirun.Regex
set_option autoImplicit true

/-- A `regex_handle_t` less its compiled pattern. A destroyed handle keeps its identity here, with
the number of times `regex_handle_destroy` was called on it. -/
structure Handle where
  token : Nat
  ownerCr3 : Nat
  users : Nat
  removed : Bool
  destroys : Nat

/-- Where a task stands between two locked sections. `releasing` and `destroying` say what it
goes on with; handles are named by the order of their creation. -/
inductive Pc where
  | idle
  | created (h : Nat)
  | published (h : Nat)
  | matching (h : Nat)
  | removing (h : Nat)
  | releasing (h : Nat) (next : Pc)
  | destroying (hs : List Nat) (next : Pc)
  | cloneCount (src dst : Nat)
  | cloneAlloc (src dst count : Nat)
  | cloneSnapshot (src dst capacity : Nat)
  | cloning (src dst : Nat) (todo : List Nat)
  | inserting (src dst clone h : Nat) (todo : List Nat)
  | unwinding (dst : Nat) (todo : List Nat)
  | cloneFailed (dst : Nat)
  deriving DecidableEq

structure Sys (τ : Type) where
  handle : Nat → Handle
  fresh : Nat
  list : List Nat
  nextToken : Nat
  pc : τ → Pc

def Sys.modify (s : Sys τ) (h : Nat) (f : Handle → Handle) : Sys τ :=
  { s with handle := Function.update s.handle h (f (s.handle h)) }

/-- `kmalloc` and `memset` of a handle. -/
def Sys.create (s : Sys τ) (x : Handle) : Sys τ :=
  { s with handle := Function.update s.handle s.fresh x, fresh := s.fresh + 1 }

def regexHandleAcquire (s : Sys τ) (token ownerCr3 : Nat) : Option Nat × Sys τ :=
  match s.list.find? fun h =>
      !(s.handle h).removed ∧ (s.handle h).token = token ∧ (s.handle h).ownerCr3 = ownerCr3 with
  | none => (none, s)
  | some h => (some h, s.modify h fun x => { x with users := x.users + 1 })

/-- The token handed out and the next one; the counter is a `uint64_t` and 0 is skipped. -/
def regexAllocateToken (next : Nat) : Nat × Nat :=
  if next = 0 then ((next + 1) % 2 ^ 64, (next + 2) % 2 ^ 64) else (next, (next + 1) % 2 ^ 64)

def regexHandlePublish (s : Sys τ) (h : Nat) : Sys τ :=
  let r := regexAllocateToken s.nextToken
  { s.modify h (fun x => { x with token := r.1 }) with nextToken := r.2, list := h :: s.list }

/-- The locked section of `regex_handle_release` and whether the handle is to be destroyed. -/
def regexHandleRelease (s : Sys τ) (h : Nat) : Bool × Sys τ :=
  let users := (s.handle h).users - 1
  (decide ((s.handle h).removed = true ∧ users = 0),
    s.modify h fun x => { x with users := x.users - 1 })

def regexHandleRemove (s : Sys τ) (h : Nat) : Bool × Sys τ :=
  if (s.handle h).removed then (false, s)
  else
    (decide ((s.handle h).users = 0),
      { s.modify h (fun x => { x with removed := true }) with list := s.list.erase h })

/-- The locked section of `regex_release_address_space` and the handles it is to destroy. -/
def regexReleaseAddressSpace (s : Sys τ) (ownerCr3 : Nat) : List Nat × Sys τ :=
  let own := s.list.filter fun h => (s.handle h).ownerCr3 = ownerCr3
  ((own.filter fun h => (s.handle h).users = 0).reverse,
    { s with
      handle := fun h =>
        if h ∈ own then { s.handle h with removed := true } else s.handle h
      list := s.list.filter fun h => (s.handle h).ownerCr3 ≠ ownerCr3 })

/-- The handles `regex_clone_address_space` counts and takes a use of. -/
def Sys.live (s : Sys τ) (src : Nat) : List Nat :=
  s.list.filter fun h => !(s.handle h).removed ∧ (s.handle h).ownerCr3 = src

def cloneTake (s : Sys τ) (hs : List Nat) : Sys τ :=
  hs.foldl (fun s h => s.modify h fun x => { x with users := x.users + 1 }) s

/-- `regex_handle_destroy`. -/
def regexHandleDestroy (s : Sys τ) (h : Nat) : Sys τ :=
  s.modify h fun x => { x with destroys := x.destroys + 1 }

/-- One call begins or one outcome of an unlocked part (an allocation, the compiler, a copy to the
user) is known; `go` runs the next locked section or the next destruction. -/
inductive Event (τ : Type) where
  | regcomp (t : τ) (ownerCr3 : Nat) (allocated : Bool)
  | compiled (t : τ) (ok : Bool)
  | stored (t : τ) (ok : Bool)
  | regexec (t : τ) (token ownerCr3 : Nat)
  | matched (t : τ)
  | regfree (t : τ) (token ownerCr3 : Nat)
  | releaseSpace (t : τ) (ownerCr3 : Nat)
  | cloneSpace (t : τ) (src dst : Nat)
  | allocated (t : τ) (ok : Bool)
  | go (t : τ)

section
variable [DecidableEq τ]

def Sys.goto (s : Sys τ) (t : τ) (pc : Pc) : Sys τ :=
  { s with pc := Function.update s.pc t pc }

@[simp]
theorem goto_handle (s : Sys τ) (t : τ) (pc : Pc) : (s.goto t pc).handle = s.handle := rfl

theorem goto_pc (s : Sys τ) (t : τ) (pc : Pc) : (s.goto t pc).pc = Function.update s.pc t pc := rfl

@[simp]
theorem goto_list (s : Sys τ) (t : τ) (pc : Pc) : (s.goto t pc).list = s.list := rfl

/-- What follows a section that may have decided on a destruction. -/
def andDestroy (h : Nat) (destroy : Bool) (next : Pc) : Pc :=
  if destroy then .destroying [h] next else next

/-- The next locked section of task `t`, or its next destruction. -/
def goStep (s : Sys τ) (t : τ) : Sys τ :=
  match s.pc t with
  | .removing h =>
    let r := regexHandleRemove s h
    r.2.goto t (andDestroy h r.1 (.releasing h .idle))
  | .releasing h next =>
    let r := regexHandleRelease s h
    r.2.goto t (andDestroy h r.1 next)
  | .destroying [] next => s.goto t next
  | .destroying (h :: hs) next => (regexHandleDestroy s h).goto t (.destroying hs next)
  | .cloneCount src dst =>
    let count := (s.live src).length
    s.goto t (if count = 0 then .idle else .cloneAlloc src dst count)
  | .cloneSnapshot src dst capacity =>
    if (s.live src).length ≤ capacity then
      (cloneTake s (s.live src)).goto t (.cloning src dst (s.live src))
    else s.goto t (.cloneCount src dst)
  | .cloning _ _ [] => s.goto t .idle
  | .inserting src dst clone h todo =>
    { s with list := clone :: s.list }.goto t (.releasing h (.cloning src dst todo))
  | .unwinding dst [] =>
    let r := regexReleaseAddressSpace s dst
    r.2.goto t (.destroying r.1 (.cloneFailed dst))
  | .unwinding dst (h :: todo) => s.goto t (.releasing h (.unwinding dst todo))
  | .cloneFailed _ => s.goto t .idle
  | _ => s

/-- A call that begins with the handle its token names and does nothing if there is none. -/
def withHandle (s : Sys τ) (t : τ) (token ownerCr3 : Nat) (next : Nat → Pc) : Sys τ :=
  match regexHandleAcquire s token ownerCr3 with
  | (none, s) => s
  | (some h, s) => s.goto t (next h)

def regexStep (s : Sys τ) : Event τ → Sys τ
  | .regcomp t ownerCr3 allocated =>
    if s.pc t = .idle ∧ allocated then
      (s.create ⟨0, ownerCr3, 1, false, 0⟩).goto t (.created s.fresh)
    else s
  | .compiled t ok =>
    match s.pc t with
    | .created h =>
      if ok then (regexHandlePublish s h).goto t (.published h) else s.goto t (.removing h)
    | _ => s
  | .stored t ok =>
    match s.pc t with
    | .published h => s.goto t (if ok then .releasing h .idle else .removing h)
    | _ => s
  | .regexec t token ownerCr3 =>
    if s.pc t = .idle then withHandle s t token ownerCr3 .matching else s
  | .matched t =>
    match s.pc t with
    | .matching h => s.goto t (.releasing h .idle)
    | _ => s
  | .regfree t token ownerCr3 =>
    if s.pc t = .idle then withHandle s t token ownerCr3 .removing else s
  | .releaseSpace t ownerCr3 =>
    if s.pc t = .idle then
      let r := regexReleaseAddressSpace s ownerCr3
      r.2.goto t (.destroying r.1 .idle)
    else s
  | .cloneSpace t src dst =>
    if s.pc t = .idle ∧ src ≠ 0 ∧ dst ≠ 0 ∧ src ≠ dst then s.goto t (.cloneCount src dst) else s
  | .allocated t ok =>
    match s.pc t with
    | .cloneAlloc src dst count =>
      s.goto t (if ok then .cloneSnapshot src dst count else .cloneFailed dst)
    | .cloning src dst (h :: todo) =>
      if ok then
        (s.create ⟨(s.handle h).token, dst, 0, false, 0⟩).goto t
          (.inserting src dst s.fresh h todo)
      else s.goto t (.releasing h (.unwinding dst todo))
    | _ => s
  | .go t => goStep s t

end

def regexInit : Sys τ where
  handle := fun _ => ⟨0, 0, 0, false, 0⟩
  fresh := 0
  list := []
  nextToken := 1
  pc := fun _ => .idle

theorem acquire_some {s s' : Sys τ} (h : regexHandleAcquire s token owner = (some n, s')) :
    n ∈ s.list ∧ (s.handle n).removed = false ∧ (s.handle n).token = token ∧
      (s.handle n).ownerCr3 = owner ∧
      s' = s.modify n fun x => { x with users := x.users + 1 } := by
  rw [regexHandleAcquire] at h
  split at h
  · cases h
  · rename_i hf
    cases h
    have hmem := List.mem_of_find?_eq_some hf
    have hp := List.find?_some hf
    simp only [decide_eq_true_eq] at hp
    exact ⟨hmem, by simpa using hp.1, hp.2.1, hp.2.2, rfl⟩

theorem acquire_none {s s' : Sys τ} (h : regexHandleAcquire s token owner = (none, s')) : s' = s := by
  rw [regexHandleAcquire] at h
  split at h
  · cases h
    rfl
  · cases h

theorem modify_handle (s : Sys τ) (h : Nat) (f : Handle → Handle) (g : Nat) :
    (s.modify h f).handle g = if g = h then f (s.handle h) else s.handle g :=
  Function.update_apply ..

theorem live_mem {s : Sys τ} (hg : g ∈ s.live src) :
    g ∈ s.list ∧ (s.handle g).removed = false ∧ (s.handle g).ownerCr3 = src := by
  obtain ⟨hmem, hp⟩ := List.mem_filter.1 hg
  simp only [decide_eq_true_eq] at hp
  exact ⟨hmem, by simpa using hp.1, hp.2⟩

theorem cloneTake_spec (hs : List Nat) (s : Sys τ) :
    (∀ g, ((cloneTake s hs).handle g).users = (s.handle g).users + hs.count g ∧
      ((cloneTake s hs).handle g).removed = (s.handle g).removed ∧
      ((cloneTake s hs).handle g).destroys = (s.handle g).destroys ∧
      ((cloneTake s hs).handle g).token = (s.handle g).token ∧
      ((cloneTake s hs).handle g).ownerCr3 = (s.handle g).ownerCr3) ∧
      (cloneTake s hs).list = s.list ∧ (cloneTake s hs).fresh = s.fresh ∧
      (cloneTake s hs).nextToken = s.nextToken ∧ (cloneTake s hs).pc = s.pc := by
  induction hs generalizing s with
  | nil => exact ⟨fun g => ⟨rfl, rfl, rfl, rfl, rfl⟩, rfl, rfl, rfl, rfl⟩
  | cons h hs ih =>
    obtain ⟨h1, h2, h3, h4, h5⟩ := ih (s.modify h fun x => { x with users := x.users + 1 })
    refine ⟨?_, h2, h3, h4, h5⟩
    intro g
    obtain ⟨a1, a2, a3, a4, a5⟩ := h1 g
    rw [modify_handle] at a1 a2 a3 a4 a5
    rw [cloneTake, List.foldl_cons]
    by_cases hg : g = h
    · subst hg
      rw [if_pos rfl] at a1 a2 a3 a4 a5
      refine ⟨?_, a2, a3, a4, a5⟩
      rw [List.count_cons_self, ← Nat.add_assoc, Nat.add_right_comm]
      exact a1
    · rw [if_neg hg] at a1 a2 a3 a4 a5
      refine ⟨?_, a2, a3, a4, a5⟩
      rw [List.count_cons_of_ne (Ne.symm hg)]
      exact a1

/-- The handles a task has a use of. -/
def Pc.holds : Pc → List Nat
  | .created h => [h]
  | .published h => [h]
  | .matching h => [h]
  | .removing h => [h]
  | .releasing h next => h :: next.holds
  | .destroying _ next => next.holds
  | .cloning _ _ todo => todo
  | .inserting _ _ _ h todo => h :: todo
  | .unwinding _ todo => todo
  | _ => []

/-- The handles a task is about to destroy. -/
def Pc.doomed : Pc → List Nat
  | .releasing _ next => next.doomed
  | .destroying hs next => hs ++ next.doomed
  | _ => []

/-- The handle a task has made and not yet put on the list. -/
def Pc.unlisted : Pc → List Nat
  | .created h => [h]
  | .inserting _ _ clone _ _ => [clone]
  | _ => []

theorem andDestroy_holds (h : Nat) (d : Bool) (next : Pc) :
    (andDestroy h d next).holds = next.holds := by
  rw [andDestroy]
  split <;> rfl

theorem andDestroy_doomed (h : Nat) (d : Bool) (next : Pc) :
    (andDestroy h d next).doomed = (if d then [h] else []) ++ next.doomed := by
  rw [andDestroy]
  split <;> rfl

theorem andDestroy_unlisted (h : Nat) (d : Bool) (hn : next.unlisted = []) :
    (andDestroy h d next).unlisted = [] := by
  rw [andDestroy]
  split
  · rfl
  · exact hn

/-- What a task goes on with after a release is between handles of its own. -/
def Pc.Resumes : Pc → Prop
  | .releasing _ next => next.unlisted = [] ∧ next.Resumes
  | .destroying _ next => next.unlisted = [] ∧ next.Resumes
  | _ => True

theorem andDestroy_resumes (hu : p.unlisted = []) (hr : p.Resumes) :
    (andDestroy h d p).Resumes := by
  rw [andDestroy]
  split
  · exact ⟨hu, hr⟩
  · exact hr

section
variable [DecidableEq τ] {s s' : Sys τ} {t : τ} {p : Pc}

theorem goto_resumes (hr : ∀ t, (s.pc t).Resumes) (hpc : s'.pc = s.pc) (hp : p.Resumes) (t' : τ) :
    ((s'.goto t p).pc t').Resumes := by
  rw [goto_pc, hpc]
  by_cases h : t' = t
  · subst h
    rw [Function.update_self]
    exact hp
  · rw [Function.update_of_ne h]
    exact hr t'

theorem goStep_resumes (hr : ∀ t, (s.pc t).Resumes) (t t' : τ) :
    ((goStep s t).pc t').Resumes := by
  have ht := hr t
  rw [goStep]
  split
  · rename_i h _
    apply goto_resumes hr
    · rw [regexHandleRemove]
      split <;> rfl
    · exact andDestroy_resumes rfl ⟨rfl, trivial⟩
  · rename_i hpc
    rw [hpc] at ht
    apply goto_resumes hr rfl
    exact (andDestroy_resumes ht.1 ht.2)
  · rename_i hpc
    rw [hpc] at ht
    apply goto_resumes hr rfl
    exact ht.2
  · rename_i hpc
    rw [hpc] at ht
    apply goto_resumes hr rfl
    exact ht
  · apply goto_resumes hr rfl
    split <;> trivial
  · split
    · apply goto_resumes hr (cloneTake_spec _ s).2.2.2.2
      exact trivial
    · apply goto_resumes hr rfl
      exact trivial
  · apply goto_resumes hr rfl
    exact trivial
  · apply goto_resumes hr rfl
    exact ⟨rfl, trivial⟩
  · apply goto_resumes hr rfl
    exact ⟨rfl, trivial⟩
  · apply goto_resumes hr rfl
    exact ⟨rfl, trivial⟩
  · apply goto_resumes hr rfl
    exact trivial
  · exact hr t'

theorem withHandle_resumes (hr : ∀ t, (s.pc t).Resumes) {f : Nat → Pc} (hf : ∀ n, (f n).Resumes)
    (t' : τ) : ((withHandle s t token owner f).pc t').Resumes := by
  rw [withHandle]
  split
  · rename_i ha
    rw [acquire_none ha]
    exact hr t'
  · rename_i n s' ha
    obtain ⟨-, -, -, -, rfl⟩ := acquire_some ha
    apply goto_resumes hr rfl
    exact (hf n)

theorem regexStep_resumes (e : Event τ) (hr : ∀ t, (s.pc t).Resumes) (t' : τ) :
    ((regexStep s e).pc t').Resumes := by
  cases e with
  | go t => exact goStep_resumes hr t t'
  | regexec t token owner =>
    rw [regexStep]
    split
    · apply withHandle_resumes hr
      exact fun _ => trivial
    · exact hr t'
  | regfree t token owner =>
    rw [regexStep]
    split
    · apply withHandle_resumes hr
      exact fun _ => trivial
    · exact hr t'
  | regcomp t owner allocated =>
    rw [regexStep]
    split
    · apply goto_resumes hr rfl
      exact trivial
    · exact hr t'
  | compiled t ok =>
    rw [regexStep]
    split
    · split
      · apply goto_resumes hr rfl
        exact trivial
      · apply goto_resumes hr rfl
        exact trivial
    · exact hr t'
  | stored t ok =>
    rw [regexStep]
    split
    · apply goto_resumes hr rfl
      split
      · exact ⟨rfl, trivial⟩
      · trivial
    · exact hr t'
  | matched t =>
    rw [regexStep]
    split
    · apply goto_resumes hr rfl
      exact ⟨rfl, trivial⟩
    · exact hr t'
  | releaseSpace t owner =>
    rw [regexStep]
    split
    · apply goto_resumes hr rfl
      exact ⟨rfl, trivial⟩
    · exact hr t'
  | cloneSpace t src dst =>
    rw [regexStep]
    split
    · apply goto_resumes hr rfl
      exact trivial
    · exact hr t'
  | allocated t ok =>
    rw [regexStep]
    split
    · apply goto_resumes hr rfl
      split <;> trivial
    · split
      · apply goto_resumes hr rfl
        exact trivial
      · apply goto_resumes hr rfl
        exact ⟨rfl, trivial⟩
    · exact hr t'

end

open Threads

section
variable [Fintype τ]

def Sys.held (s : Sys τ) (h : Nat) : Nat := total (fun pc => pc.holds.count h) s.pc

def Sys.dying (s : Sys τ) (h : Nat) : Nat := total (fun pc => pc.doomed.count h) s.pc

def Sys.unlisted (s : Sys τ) (h : Nat) : Nat := total (fun pc => pc.unlisted.count h) s.pc

/-- A handle is gone, or about to be, exactly when it was removed and nobody uses it. -/
structure Life (s : Sys τ) : Prop where
  users : ∀ h, (s.handle h).users = s.held h
  dead : ∀ h, (s.handle h).destroys + s.dying h =
    if (s.handle h).removed = true ∧ (s.handle h).users = 0 then 1 else 0
  listed : ∀ h ∈ s.list, (s.handle h).removed = false
  nodup : s.list.Nodup
  bound : ∀ h, s.fresh ≤ h → s.held h = 0 ∧ s.dying h = 0 ∧ s.unlisted h = 0 ∧ h ∉ s.list
  alone : ∀ t h, h ∈ (s.pc t).unlisted → h ∉ s.list ∧ (s.handle h).removed = false ∧
    s.unlisted h = 1 ∧ s.held h = (s.pc t).holds.count h

theorem holds_le_held (s : Sys τ) (t : τ) (h : Nat) : (s.pc t).holds.count h ≤ s.held h :=
  le_total (fun pc => pc.holds.count h) s.pc t

theorem doomed_le_dying (s : Sys τ) (t : τ) (h : Nat) : (s.pc t).doomed.count h ≤ s.dying h :=
  le_total (fun pc => pc.doomed.count h) s.pc t

theorem unlisted_le (s : Sys τ) (t : τ) (h : Nat) : (s.pc t).unlisted.count h ≤ s.unlisted h :=
  le_total (fun pc => pc.unlisted.count h) s.pc t

variable {s s' : Sys τ} {t : τ} {p : Pc} {h g : Nat}

theorem Life.users_pos (hl : Life s) (hh : h ∈ (s.pc t).holds) : 0 < (s.handle h).users := by
  rw [hl.users]
  exact (List.count_pos_iff.2 hh).trans_le (holds_le_held s t h)

theorem Life.lt_fresh (hl : Life s) (hh : h ∈ (s.pc t).holds) : h < s.fresh := by
  by_contra hge
  have hpos := hl.users_pos hh
  rw [hl.users, (hl.bound h (Nat.not_lt.1 hge)).1] at hpos
  exact Nat.lt_irrefl _ hpos

theorem Life.listed_lt (hl : Life s) (hh : h ∈ s.list) : h < s.fresh := by
  by_contra hge
  exact (hl.bound h (Nat.not_lt.1 hge)).2.2.2 hh

/-- What belongs to another task's unlisted handle is out of reach. -/
theorem Life.others (hl : Life s) (hne : t' ≠ t) (hh : h ∈ (s.pc t').unlisted) :
    h ∉ (s.pc t).holds ∧ h ∉ (s.pc t).unlisted := by
  obtain ⟨-, -, hone, hheld⟩ := hl.alone t' h hh
  have hpos := List.count_pos_iff.2 hh
  constructor
  · intro hmem
    have hle : (s.pc t').holds.count h + (s.pc t).holds.count h ≤ s.held h :=
      add_le_total (fun pc => pc.holds.count h) s.pc hne
    have hcount := List.count_pos_iff.2 hmem
    omega
  · intro hmem
    have hle : (s.pc t').unlisted.count h + (s.pc t).unlisted.count h ≤ s.unlisted h :=
      add_le_total (fun pc => pc.unlisted.count h) s.pc hne
    have hcount := List.count_pos_iff.2 hmem
    omega

/-- A step of task `t`, seen handle by handle. -/
theorem Life.step [DecidableEq τ] (hl : Life s) (hpc : s'.pc = Function.update s.pc t p)
    (husers : ∀ g, (s'.handle g).users + (s.pc t).holds.count g =
      (s.handle g).users + p.holds.count g)
    (hdead : ∀ g, (s'.handle g).destroys + p.doomed.count g +
        (if (s.handle g).removed = true ∧ (s.handle g).users = 0 then 1 else 0) =
      (s.handle g).destroys + (s.pc t).doomed.count g +
        if (s'.handle g).removed = true ∧ (s'.handle g).users = 0 then 1 else 0)
    (hlisted : ∀ g ∈ s'.list, (s'.handle g).removed = false) (hnodup : s'.list.Nodup)
    (hbound : ∀ g, s'.fresh ≤ g → s.fresh ≤ g ∧ g ∉ p.holds ∧ g ∉ p.doomed ∧ g ∉ p.unlisted ∧
      g ∉ s'.list)
    (hother : ∀ g, g < s.fresh → g ∉ s.list → (s.handle g).removed = false →
      g ∉ (s.pc t).holds → g ∉ (s.pc t).unlisted →
      g ∉ s'.list ∧ (s'.handle g).removed = false ∧ g ∉ p.holds ∧ g ∉ p.unlisted)
    (hself : ∀ g ∈ p.unlisted, g ∉ s'.list ∧ (s'.handle g).removed = false ∧
      s.unlisted g + p.unlisted.count g = 1 + (s.pc t).unlisted.count g ∧
      s.held g = (s.pc t).holds.count g) : Life s' := by
  have hheld : ∀ g, s'.held g + (s.pc t).holds.count g = s.held g + p.holds.count g := by
    intro g
    rw [Sys.held, hpc]
    exact total_update (fun pc => pc.holds.count g) s.pc t p
  have hdying : ∀ g, s'.dying g + (s.pc t).doomed.count g = s.dying g + p.doomed.count g := by
    intro g
    rw [Sys.dying, hpc]
    exact total_update (fun pc => pc.doomed.count g) s.pc t p
  have hunl : ∀ g, s'.unlisted g + (s.pc t).unlisted.count g = s.unlisted g + p.unlisted.count g := by
    intro g
    rw [Sys.unlisted, hpc]
    exact total_update (fun pc => pc.unlisted.count g) s.pc t p
  constructor
  · intro g
    have h1 := hl.users g
    have h2 := husers g
    have h3 := hheld g
    have h4 := holds_le_held s t g
    omega
  · intro g
    have h1 := hl.dead g
    have h2 := hdead g
    have h3 := hdying g
    omega
  · exact hlisted
  · exact hnodup
  · intro g hg
    obtain ⟨hge, h1, h2, h3, h4⟩ := hbound g hg
    obtain ⟨b1, b2, b3, -⟩ := hl.bound g hge
    have c1 := hheld g
    have c2 := hdying g
    have c3 := hunl g
    rw [List.count_eq_zero_of_not_mem h1] at c1
    rw [List.count_eq_zero_of_not_mem h2] at c2
    rw [List.count_eq_zero_of_not_mem h3] at c3
    exact ⟨by omega, by omega, by omega, h4⟩
  · intro t' g hg
    rw [hpc] at hg ⊢
    by_cases htt : t' = t
    · subst htt
      rw [Function.update_self] at hg ⊢
      obtain ⟨h1, h2, h3, h4⟩ := hself g hg
      have c1 := hheld g
      have c3 := hunl g
      exact ⟨h1, h2, by omega, by omega⟩
    · rw [Function.update_of_ne htt] at hg ⊢
      obtain ⟨h1, h2, h3, h4⟩ := hl.alone t' g hg
      obtain ⟨o1, o2⟩ := hl.others htt hg
      have hlt : g < s.fresh := by
        by_contra hge
        have hpos := List.count_pos_iff.2 hg
        have hle := unlisted_le s t' g
        have h0 := (hl.bound g (Nat.not_lt.1 hge)).2.2.1
        omega
      obtain ⟨n1, n2, n3, n4⟩ := hother g hlt h1 h2 o1 o2
      have c1 := hheld g
      have c3 := hunl g
      rw [List.count_eq_zero_of_not_mem n3, List.count_eq_zero_of_not_mem o1] at c1
      rw [List.count_eq_zero_of_not_mem n4, List.count_eq_zero_of_not_mem o2] at c3
      exact ⟨n1, n2, by omega, by omega⟩

/-- Nobody knows of a handle that is not there yet. -/
theorem Life.not_fresh (hl : Life s) (t : τ) (hge : s.fresh ≤ g) :
    g ∉ (s.pc t).holds ∧ g ∉ (s.pc t).doomed ∧ g ∉ (s.pc t).unlisted := by
  obtain ⟨h1, h2, h3, -⟩ := hl.bound g hge
  have c1 := holds_le_held s t g
  have c2 := doomed_le_dying s t g
  have c3 := unlisted_le s t g
  exact ⟨List.count_eq_zero.1 (by omega), List.count_eq_zero.1 (by omega),
    List.count_eq_zero.1 (by omega)⟩

theorem regexInit_life : Life (regexInit : Sys τ) where
  users := fun h => by simp [Sys.held, regexInit, total, Pc.holds]
  dead := fun h => by simp [Sys.dying, regexInit, total, Pc.doomed]
  listed := nofun
  nodup := List.nodup_nil
  bound := fun h _ => by simp [Sys.held, Sys.dying, Sys.unlisted, regexInit, total, Pc.holds, Pc.doomed, Pc.unlisted]
  alone := nofun

variable [DecidableEq τ]

/-- A step that only moves the task on. -/
theorem Life.goto (hl : Life s) (hholds : p.holds = (s.pc t).holds)
    (hdoomed : p.doomed = (s.pc t).doomed) (hunl : p.unlisted = []) : Life (s.goto t p) := by
  apply hl.step (t := t) (p := p) rfl
  · intro g
    rw [hholds]
    rfl
  · intro g
    rw [hdoomed]
    rfl
  · exact hl.listed
  · exact hl.nodup
  · intro g hg
    obtain ⟨h1, h2, h3, h4⟩ := hl.bound g hg
    rw [hholds, hdoomed, hunl]
    have c1 := holds_le_held s t g
    have c2 := doomed_le_dying s t g
    exact ⟨hg, List.count_eq_zero.1 (by omega), List.count_eq_zero.1 (by omega), nofun, h4⟩
  · intro g _ h1 h2 h3 _
    rw [hholds, hunl]
    exact ⟨h1, h2, h3, nofun⟩
  · intro g hg
    rw [hunl] at hg
    cases hg

theorem Life.create (hl : Life s) {x : Handle} (hremoved : x.removed = false)
    (hdestroys : x.destroys = 0) (hu : x.users = p.holds.count s.fresh)
    (hholds : ∀ g ≠ s.fresh, p.holds.count g = (s.pc t).holds.count g)
    (hdoomed : p.doomed = (s.pc t).doomed) (hunl : p.unlisted = [s.fresh])
    (hold : (s.pc t).unlisted = []) : Life ((s.create x).goto t p) := by
  obtain ⟨f1, f2, -⟩ := hl.not_fresh t le_rfl
  obtain ⟨b1, b2, b3, b4⟩ := hl.bound s.fresh le_rfl
  have hhandle : ∀ g, ((s.create x).goto t p).handle g = if g = s.fresh then x else s.handle g :=
    fun g => Function.update_apply ..
  have hcount := List.count_eq_zero_of_not_mem f1
  apply hl.step (t := t) (p := p) rfl
  · intro g
    rw [hhandle]
    split
    · rename_i hg
      have husers := hl.users s.fresh
      rw [hg]
      omega
    · rename_i hg
      rw [hholds g hg]
  · intro g
    rw [hhandle, hdoomed]
    split
    · rename_i hg
      have hdead := hl.dead s.fresh
      rw [hg, hremoved, hdestroys]
      simp only [Bool.false_eq_true, false_and, if_false]
      omega
    · rfl
  · intro g hg
    rw [hhandle, if_neg (hl.listed_lt hg).ne]
    exact hl.listed g hg
  · exact hl.nodup
  · intro g hg
    have hlt : s.fresh < g := hg
    obtain ⟨o1, o2, o3⟩ := hl.not_fresh t hlt.le
    refine ⟨hlt.le, ?_, ?_, ?_, (hl.bound g hlt.le).2.2.2⟩
    · rw [← List.count_eq_zero, hholds g hlt.ne', List.count_eq_zero]
      exact o1
    · rw [hdoomed]
      exact o2
    · rw [hunl, List.mem_singleton]
      exact hlt.ne'
  · intro g hg h1 h2 h3 _
    rw [hhandle, if_neg hg.ne, hunl, List.mem_singleton]
    refine ⟨h1, h2, ?_, hg.ne⟩
    rw [← List.count_eq_zero, hholds g hg.ne, List.count_eq_zero]
    exact h3
  · intro g hg
    rw [hunl, List.mem_singleton] at hg
    subst hg
    rw [hhandle, if_pos rfl, hunl, hold, b1, b3, hcount]
    exact ⟨b4, hremoved, by simp, rfl⟩

/-- A handle the task has made goes on the list. -/
theorem Life.push (hl : Life s) (hh : h ∈ (s.pc t).unlisted) (hone : (s.pc t).unlisted = [h])
    (hhandle : ∀ g, (s'.handle g).users = (s.handle g).users ∧
      (s'.handle g).removed = (s.handle g).removed ∧
      (s'.handle g).destroys = (s.handle g).destroys)
    (hlist : s'.list = h :: s.list) (hfresh : s'.fresh = s.fresh)
    (hpc : s'.pc = Function.update s.pc t p) (hholds : p.holds = (s.pc t).holds)
    (hdoomed : p.doomed = (s.pc t).doomed) (hunl : p.unlisted = []) : Life s' := by
  obtain ⟨a1, a2, -, -⟩ := hl.alone t h hh
  apply hl.step hpc
  · intro g
    rw [hholds, (hhandle g).1]
  · intro g
    rw [hdoomed, (hhandle g).1, (hhandle g).2.1, (hhandle g).2.2]
  · intro g hg
    rw [(hhandle g).2.1]
    rw [hlist] at hg
    rcases List.mem_cons.1 hg with rfl | hg
    · exact a2
    · exact hl.listed g hg
  · rw [hlist]
    exact List.nodup_cons.2 ⟨a1, hl.nodup⟩
  · intro g hg
    rw [hfresh] at hg
    obtain ⟨o1, o2, o3⟩ := hl.not_fresh t hg
    rw [hholds, hdoomed, hunl, hlist]
    refine ⟨hg, o1, o2, nofun, ?_⟩
    intro hmem
    rcases List.mem_cons.1 hmem with rfl | hmem
    · exact o3 hh
    · exact (hl.bound g hg).2.2.2 hmem
  · intro g _ h1 h2 h3 h4
    rw [hlist, hholds, hunl, (hhandle g).2.1]
    refine ⟨?_, h2, h3, nofun⟩
    intro hmem
    rcases List.mem_cons.1 hmem with rfl | hmem
    · exact h4 hh
    · exact h1 hmem
  · intro g hg
    rw [hunl] at hg
    cases hg

/-- The task takes a use of handles on the list. -/
theorem Life.take (hl : Life s) {l : List Nat} (hmem : ∀ g ∈ l, g ∈ s.list)
    (hhandle : ∀ g, (s'.handle g).users = (s.handle g).users + l.count g ∧
      (s'.handle g).removed = (s.handle g).removed ∧
      (s'.handle g).destroys = (s.handle g).destroys)
    (hlist : s'.list = s.list) (hfresh : s'.fresh = s.fresh)
    (hpc : s'.pc = Function.update s.pc t p) (hold : (s.pc t).holds = [] ∧ (s.pc t).doomed = [])
    (hholds : p.holds = l) (hdoomed : p.doomed = []) (hunl : p.unlisted = []) : Life s' := by
  apply hl.step hpc
  · intro g
    rw [hholds, hold.1, (hhandle g).1]
    rfl
  · intro g
    rw [hdoomed, hold.2, (hhandle g).1, (hhandle g).2.1, (hhandle g).2.2]
    by_cases hg : g ∈ l
    · simp [hl.listed g (hmem g hg)]
    · simp [List.count_eq_zero_of_not_mem hg]
  · intro g hg
    rw [(hhandle g).2.1]
    rw [hlist] at hg
    exact hl.listed g hg
  · rw [hlist]
    exact hl.nodup
  · intro g hg
    rw [hfresh] at hg
    rw [hholds, hdoomed, hunl, hlist]
    have hnot := (hl.bound g hg).2.2.2
    exact ⟨hg, fun h => hnot (hmem g h), nofun, nofun, hnot⟩
  · intro g _ h1 h2 h3 _
    rw [hlist, hholds, hunl, (hhandle g).2.1]
    exact ⟨h1, h2, fun h => h1 (hmem g h), nofun⟩
  · intro g hg
    rw [hunl] at hg
    cases hg

/-- Handles leave the list; those nobody uses are now the task's to destroy. -/
theorem Life.sweep (hl : Life s) {l : List Nat} (hmem : ∀ g ∈ l, g ∈ s.list)
    (hhandle : ∀ g, (s'.handle g).users = (s.handle g).users ∧
      (s'.handle g).removed = (decide (g ∈ l) || (s.handle g).removed) ∧
      (s'.handle g).destroys = (s.handle g).destroys)
    (hlist : s'.list = s.list.filter (· ∉ l)) (hfresh : s'.fresh = s.fresh)
    (hpc : s'.pc = Function.update s.pc t p) (hholds : p.holds = (s.pc t).holds)
    (hdoomed : ∀ g, p.doomed.count g = (s.pc t).doomed.count g +
      if g ∈ l ∧ (s.handle g).users = 0 then 1 else 0)
    (hunl : p.unlisted = []) : Life s' := by
  have hdoom : ∀ g, g ∉ s.list → p.doomed.count g = (s.pc t).doomed.count g := by
    intro g hg
    rw [hdoomed, if_neg fun h => hg (hmem g h.1), Nat.add_zero]
  apply hl.step hpc
  · intro g
    rw [hholds, (hhandle g).1]
  · intro g
    rw [(hhandle g).1, (hhandle g).2.1, (hhandle g).2.2, hdoomed]
    by_cases hg : g ∈ l
    · simp [hg, hl.listed g (hmem g hg)]
      omega
    · simp [hg]
  · intro g hg
    rw [hlist, List.mem_filter] at hg
    have hg2 : g ∉ l := by simpa using hg.2
    rw [(hhandle g).2.1, hl.listed g hg.1]
    simpa using hg2
  · rw [hlist]
    exact hl.nodup.filter _
  · intro g hg
    rw [hfresh] at hg
    obtain ⟨o1, o2, -⟩ := hl.not_fresh t hg
    have hnot := (hl.bound g hg).2.2.2
    rw [hholds, hunl, hlist]
    refine ⟨hg, o1, ?_, nofun, fun h => hnot (List.mem_filter.1 h).1⟩
    rw [← List.count_eq_zero, hdoom g hnot, List.count_eq_zero]
    exact o2
  · intro g _ h1 h2 h3 _
    rw [hlist, hholds, hunl, (hhandle g).2.1, h2]
    refine ⟨fun h => h1 (List.mem_filter.1 h).1, ?_, h3, nofun⟩
    simpa using fun h => h1 (hmem g h)
  · intro g hg
    rw [hunl] at hg
    cases hg

/-- The task gives up a use; the last one of a removed handle dooms it. -/
theorem Life.release (hl : Life s) (hh : h ∈ (s.pc t).holds)
    (hhandle : ∀ g, (s'.handle g).users = (s.handle g).users - (if g = h then 1 else 0) ∧
      (s'.handle g).removed = (s.handle g).removed ∧
      (s'.handle g).destroys = (s.handle g).destroys)
    (hlist : s'.list = s.list) (hfresh : s'.fresh = s.fresh)
    (hpc : s'.pc = Function.update s.pc t p)
    (hholds : ∀ g, p.holds.count g + (if g = h then 1 else 0) = (s.pc t).holds.count g)
    (hdoomed : ∀ g, p.doomed.count g = (s.pc t).doomed.count g +
      if g = h ∧ (s.handle h).removed = true ∧ (s.handle h).users - 1 = 0 then 1 else 0)
    (hunl : p.unlisted = []) : Life s' := by
  have hpos := hl.users_pos hh
  have hsub : ∀ g, g ∉ (s.pc t).holds → g ∉ p.holds := by
    intro g hg
    have h1 := hholds g
    rw [List.count_eq_zero_of_not_mem hg] at h1
    exact List.count_eq_zero.1 (by omega)
  apply hl.step hpc
  · intro g
    have h1 := hholds g
    rw [(hhandle g).1]
    split at h1
    · rename_i hg
      rw [if_pos hg]
      rw [← hg] at hpos
      omega
    · rename_i hg
      rw [if_neg hg]
      omega
  · intro g
    rw [(hhandle g).1, (hhandle g).2.1, (hhandle g).2.2, hdoomed]
    by_cases hg : g = h
    · subst hg
      have hno : ¬((s.handle g).removed = true ∧ (s.handle g).users = 0) := fun hc => hpos.ne' hc.2
      simp only [true_and, if_true]
      rw [if_neg hno]
      omega
    · simp [hg]
  · intro g hg
    rw [(hhandle g).2.1]
    rw [hlist] at hg
    exact hl.listed g hg
  · rw [hlist]
    exact hl.nodup
  · intro g hg
    rw [hfresh] at hg
    obtain ⟨o1, o2, -⟩ := hl.not_fresh t hg
    have hgh : g ≠ h := by
      rintro rfl
      exact o1 hh
    rw [hunl, hlist]
    refine ⟨hg, hsub g o1, ?_, nofun, (hl.bound g hg).2.2.2⟩
    rw [← List.count_eq_zero, hdoomed, if_neg fun hc => hgh hc.1, Nat.add_zero, List.count_eq_zero]
    exact o2
  · intro g _ h1 h2 h3 _
    rw [hlist, hunl, (hhandle g).2.1]
    exact ⟨h1, h2, hsub g h3, nofun⟩
  · intro g hg
    rw [hunl] at hg
    cases hg

/-- The task takes a handle it uses off the list. -/
theorem Life.remove (hl : Life s) (hh : h ∈ (s.pc t).holds) (hnot : h ∉ (s.pc t).unlisted)
    (hhandle : ∀ g, (s'.handle g).users = (s.handle g).users ∧
      (s'.handle g).removed = (decide (g = h) || (s.handle g).removed) ∧
      (s'.handle g).destroys = (s.handle g).destroys)
    (hlist : s'.list = s.list.erase h) (hfresh : s'.fresh = s.fresh)
    (hpc : s'.pc = Function.update s.pc t p) (hholds : p.holds = (s.pc t).holds)
    (hdoomed : p.doomed = (s.pc t).doomed) (hunl : p.unlisted = []) : Life s' := by
  have hpos := hl.users_pos hh
  apply hl.step hpc
  · intro g
    rw [hholds, (hhandle g).1]
  · intro g
    rw [(hhandle g).1, (hhandle g).2.1, (hhandle g).2.2, hdoomed]
    by_cases hg : g = h
    · subst hg
      simp [hpos.ne']
    · simp [hg]
  · intro g hg
    rw [hlist] at hg
    have hgh : g ≠ h := by
      rintro rfl
      exact hl.nodup.not_mem_erase hg
    rw [(hhandle g).2.1, hl.listed g (List.mem_of_mem_erase hg)]
    simpa using hgh
  · rw [hlist]
    exact hl.nodup.erase h
  · intro g hg
    rw [hfresh] at hg
    obtain ⟨o1, o2, -⟩ := hl.not_fresh t hg
    rw [hholds, hdoomed, hunl, hlist]
    exact ⟨hg, o1, o2, nofun, fun h => (hl.bound g hg).2.2.2 (List.mem_of_mem_erase h)⟩
  · intro g _ h1 h2 h3 _
    have hgh : g ≠ h := by
      rintro rfl
      exact h3 hh
    rw [hlist, hholds, hunl, (hhandle g).2.1, h2]
    exact ⟨fun h => h1 (List.mem_of_mem_erase h), by simpa using hgh, h3, nofun⟩
  · intro g hg
    rw [hunl] at hg
    cases hg

/-- The task destroys a handle it had to destroy. -/
theorem Life.destroy (hl : Life s)
    (hhandle : ∀ g, (s'.handle g).users = (s.handle g).users ∧
      (s'.handle g).removed = (s.handle g).removed ∧
      (s'.handle g).destroys = (s.handle g).destroys + if g = h then 1 else 0)
    (hlist : s'.list = s.list) (hfresh : s'.fresh = s.fresh)
    (hpc : s'.pc = Function.update s.pc t p) (hholds : p.holds = (s.pc t).holds)
    (hdoomed : (s.pc t).doomed = h :: p.doomed) (hunl : p.unlisted = []) : Life s' := by
  apply hl.step hpc
  · intro g
    rw [hholds, (hhandle g).1]
  · intro g
    rw [(hhandle g).1, (hhandle g).2.1, (hhandle g).2.2, hdoomed, List.count_cons]
    by_cases hg : g = h
    · simp [hg]
      omega
    · simp [hg, Ne.symm hg]
  · intro g hg
    rw [(hhandle g).2.1]
    rw [hlist] at hg
    exact hl.listed g hg
  · rw [hlist]
    exact hl.nodup
  · intro g hg
    rw [hfresh] at hg
    obtain ⟨o1, o2, -⟩ := hl.not_fresh t hg
    rw [hdoomed] at o2
    rw [hunl, hlist, hholds]
    exact ⟨hg, o1, fun h => o2 (List.mem_cons_of_mem _ h), nofun, (hl.bound g hg).2.2.2⟩
  · intro g _ h1 h2 h3 _
    rw [hlist, hunl, hholds, (hhandle g).2.1]
    exact ⟨h1, h2, h3, nofun⟩
  · intro g hg
    rw [hunl] at hg
    cases hg

/-- `regexec` and `regfree` take a use of the handle they find. -/
theorem Life.acquire (hl : Life s) (hpc : s.pc t = .idle)
    (ha : regexHandleAcquire s token owner = (some n, s')) (hp : p.holds = [n])
    (hd : p.doomed = []) (hu : p.unlisted = []) : Life (s'.goto t p) := by
  obtain ⟨hmem, -, -, -, rfl⟩ := acquire_some ha
  apply hl.take (l := [n]) (t := t) (p := p)
  · intro g hg
    rw [List.mem_singleton.1 hg]
    exact hmem
  · intro g
    rw [goto_handle, modify_handle]
    by_cases hg : g = n
    · subst hg
      simp
    · simp [hg, Ne.symm hg]
  · rfl
  · rfl
  · rfl
  · rw [hpc]
    exact ⟨rfl, rfl⟩
  · exact hp
  · exact hd
  · exact hu

theorem Life.snapshot (hl : Life s) (hold : (s.pc t).holds = [] ∧ (s.pc t).doomed = []) :
    Life ((cloneTake s (s.live src)).goto t (.cloning src dst (s.live src))) := by
  obtain ⟨h1, h2, h3, h4, h5⟩ := cloneTake_spec (s.live src) s
  refine hl.take (l := s.live src) (t := t) (p := .cloning src dst (s.live src)) (fun g hg => (live_mem hg).1)
    (fun g => ⟨(h1 g).1, (h1 g).2.1, (h1 g).2.2.1⟩) h2 h3 ?_ hold rfl rfl rfl
  show Function.update (cloneTake s _).pc t _ = _
  rw [h5]

/-- A whole address space leaves the list. -/
theorem Life.releaseSpace (hl : Life s) (hold : (s.pc t).holds = [] ∧ (s.pc t).doomed = [])
    (hnext : p.holds = [] ∧ p.doomed = []) :
    Life ((regexReleaseAddressSpace s owner).2.goto t
      (.destroying (regexReleaseAddressSpace s owner).1 p)) := by
  have hmem : ∀ g, g ∈ s.list.filter (fun h => (s.handle h).ownerCr3 = owner) ↔
      g ∈ s.list ∧ (s.handle g).ownerCr3 = owner := by
    intro g
    rw [List.mem_filter, decide_eq_true_eq]
  apply hl.sweep (l := s.list.filter fun h => (s.handle h).ownerCr3 = owner) (t := t)
  · exact fun g hg => ((hmem g).1 hg).1
  · intro g
    simp only [goto_handle, regexReleaseAddressSpace]
    split
    · rename_i hg
      exact ⟨rfl, by simp [hg], rfl⟩
    · rename_i hg
      exact ⟨rfl, by simp [hg], rfl⟩
  · simp only [goto_list, regexReleaseAddressSpace]
    apply List.filter_congr
    intro g hg
    simp [hg]
  · rfl
  · rfl
  · exact hnext.1.trans hold.1.symm
  · intro g
    rw [hold.2]
    simp only [Pc.doomed, hnext.2, regexReleaseAddressSpace, List.append_nil, List.count_reverse]
    rw [((hl.nodup.filter _).filter _).count, List.count_nil, Nat.zero_add]
    apply if_congr _ rfl rfl
    rw [List.mem_filter, decide_eq_true_eq]
  · rfl

theorem Life.goStep (hl : Life s) (hr : (s.pc t).Resumes) : Life (goStep s t) := by
  rw [Regex.goStep]
  split
  · rename_i h hpc
    have hmem : h ∈ (s.pc t).holds := by
      rw [hpc]
      exact List.mem_singleton_self h
    rw [regexHandleRemove]
    split
    · exact hl.goto (by rw [hpc]; rfl) (by rw [hpc]; rfl) rfl
    · have hpos := hl.users_pos hmem
      have hd : decide ((s.handle h).users = 0) = false := by simpa using hpos.ne'
      dsimp only
      rw [hd]
      apply hl.remove hmem (t := t) (p := .releasing h .idle)
      · rw [hpc]
        nofun
      · intro g
        rw [goto_handle]
        dsimp only
        rw [modify_handle]
        by_cases hg : g = h
        · simp [hg]
        · simp [hg]
      · rfl
      · rfl
      · rfl
      · rw [hpc]
        rfl
      · rw [hpc]
        rfl
      · rfl
  · rename_i h next hpc
    rw [hpc] at hr
    have hmem : h ∈ (s.pc t).holds := by
      rw [hpc]
      exact List.mem_cons_self
    apply hl.release hmem (t := t) (p := andDestroy h (regexHandleRelease s h).1 next)
    · intro g
      rw [goto_handle]
      dsimp only [regexHandleRelease]
      rw [modify_handle]
      by_cases hg : g = h
      · simp [hg]
      · simp [hg]
    · rfl
    · rfl
    · rfl
    · intro g
      rw [andDestroy_holds, hpc, Pc.holds, List.count_cons]
      by_cases hg : g = h
      · simp [hg]
      · simp [hg, Ne.symm hg]
    · intro g
      rw [andDestroy_doomed, hpc, Pc.doomed, List.count_append, Nat.add_comm]
      congr 1
      by_cases hg : g = h
      · subst hg
        simp only [regexHandleRelease, decide_eq_true_eq, true_and]
        split <;> simp
      · have hno : ¬(g = h ∧ (s.handle h).removed = true ∧ (s.handle h).users - 1 = 0) :=
          fun hc => hg hc.1
        rw [if_neg hno]
        cases (regexHandleRelease s h).1
        · rfl
        · simp [Ne.symm hg]
    · exact andDestroy_unlisted h _ hr.1
  · rename_i next hpc
    rw [hpc] at hr
    exact hl.goto (by rw [hpc]; rfl) (by rw [hpc]; rfl) hr.1
  · rename_i h hs next hpc
    apply hl.destroy (h := h) (t := t) (p := .destroying hs next)
    · intro g
      rw [goto_handle, regexHandleDestroy, modify_handle]
      by_cases hg : g = h
      · simp [hg]
      · simp [hg]
    · rfl
    · rfl
    · rfl
    · rw [hpc]
      rfl
    · rw [hpc]
      rfl
    · rfl
  · rename_i src dst hpc
    dsimp only
    split
    · exact hl.goto (by rw [hpc]; rfl) (by rw [hpc]; rfl) rfl
    · exact hl.goto (by rw [hpc]; rfl) (by rw [hpc]; rfl) rfl
  · rename_i src dst capacity hpc
    split
    · exact hl.snapshot (by rw [hpc]; exact ⟨rfl, rfl⟩)
    · exact hl.goto (by rw [hpc]; rfl) (by rw [hpc]; rfl) rfl
  · rename_i hpc
    exact hl.goto (by rw [hpc]; rfl) (by rw [hpc]; rfl) rfl
  · rename_i src dst clone h todo hpc
    apply hl.push (h := clone) (t := t) (p := .releasing h (.cloning src dst todo))
    · rw [hpc]
      exact List.mem_singleton_self clone
    · rw [hpc]
      rfl
    · exact fun g => ⟨rfl, rfl, rfl⟩
    · rfl
    · rfl
    · rfl
    · rw [hpc]
      rfl
    · rw [hpc]
      rfl
    · rfl
  · rename_i dst hpc
    exact hl.releaseSpace (by rw [hpc]; exact ⟨rfl, rfl⟩) ⟨rfl, rfl⟩
  · rename_i dst h todo hpc
    exact hl.goto (by rw [hpc]; rfl) (by rw [hpc]; rfl) rfl
  · rename_i dst hpc
    exact hl.goto (by rw [hpc]; rfl) (by rw [hpc]; rfl) rfl
  · exact hl

theorem Life.withHandle (hl : Life s) {f : Nat → Pc} (token owner : Nat)
    (hpc : s.pc t = .idle) (hp : ∀ n, (f n).holds = [n] ∧ (f n).doomed = [] ∧ (f n).unlisted = []) :
    Life (withHandle s t token owner f) := by
  rw [Regex.withHandle]
  split
  · rename_i ha
    rw [acquire_none ha]
    exact hl
  · rename_i n s' ha
    exact hl.acquire hpc ha (hp n).1 (hp n).2.1 (hp n).2.2

theorem regexStep_life (e : Event τ) (hl : Life s) (hr : ∀ t, (s.pc t).Resumes) :
    Life (regexStep s e) := by
  cases e with
  | regcomp t owner allocated =>
    rw [regexStep]
    split
    · rename_i hc
      apply hl.create (p := .created s.fresh) rfl rfl
      · simp [Pc.holds]
      · intro g hg
        rw [hc.1]
        exact List.count_eq_zero_of_not_mem (fun h => hg (List.mem_singleton.1 h))
      · rw [hc.1]
        rfl
      · rfl
      · rw [hc.1]
        rfl
    · exact hl
  | compiled t ok =>
    rw [regexStep]
    split
    · rename_i h hpc
      split
      · apply hl.push (h := h) (t := t) (p := .published h)
        · rw [hpc]
          exact List.mem_singleton_self h
        · rw [hpc]
          rfl
        · intro g
          rw [goto_handle]
          dsimp only [regexHandlePublish]
          rw [modify_handle]
          by_cases hg : g = h
          · simp [hg]
          · simp [hg]
        · rfl
        · rfl
        · rfl
        · rw [hpc]
          rfl
        · rw [hpc]
          rfl
        · rfl
      · exact hl.goto (by rw [hpc]; rfl) (by rw [hpc]; rfl) rfl
    · exact hl
  | stored t ok =>
    rw [regexStep]
    split
    · rename_i h hpc
      split
      · exact hl.goto (by rw [hpc]; rfl) (by rw [hpc]; rfl) rfl
      · exact hl.goto (by rw [hpc]; rfl) (by rw [hpc]; rfl) rfl
    · exact hl
  | regexec t token owner =>
    rw [regexStep]
    split
    · rename_i hpc
      exact hl.withHandle token owner hpc fun n => ⟨rfl, rfl, rfl⟩
    · exact hl
  | matched t =>
    rw [regexStep]
    split
    · rename_i h hpc
      exact hl.goto (by rw [hpc]; rfl) (by rw [hpc]; rfl) rfl
    · exact hl
  | regfree t token owner =>
    rw [regexStep]
    split
    · rename_i hpc
      exact hl.withHandle token owner hpc fun n => ⟨rfl, rfl, rfl⟩
    · exact hl
  | releaseSpace t owner =>
    rw [regexStep]
    split
    · rename_i hpc
      exact hl.releaseSpace (by rw [hpc]; exact ⟨rfl, rfl⟩) ⟨rfl, rfl⟩
    · exact hl
  | cloneSpace t src dst =>
    rw [regexStep]
    split
    · rename_i hc
      exact hl.goto (by rw [hc.1]; rfl) (by rw [hc.1]; rfl) rfl
    · exact hl
  | allocated t ok =>
    rw [regexStep]
    split
    · rename_i hpc
      split
      · exact hl.goto (by rw [hpc]; rfl) (by rw [hpc]; rfl) rfl
      · exact hl.goto (by rw [hpc]; rfl) (by rw [hpc]; rfl) rfl
    · rename_i src dst h todo hpc
      have hmem : h ∈ (s.pc t).holds ∧ ∀ g ∈ todo, g ∈ (s.pc t).holds := by
        rw [hpc]
        exact ⟨List.mem_cons_self, fun g hg => List.mem_cons_of_mem _ hg⟩
      split
      · apply hl.create (p := .inserting src dst s.fresh h todo) rfl rfl
        · have hnot := (hl.not_fresh t le_rfl).1
          rw [hpc] at hnot
          exact (List.count_eq_zero_of_not_mem hnot).symm
        · intro g hg
          rw [hpc]
          rfl
        · rw [hpc]
          rfl
        · rfl
        · rw [hpc]
          rfl
      · exact hl.goto (by rw [hpc]; rfl) (by rw [hpc]; rfl) rfl
    · exact hl
  | go t => exact hl.goStep (hr t)

theorem regexStep_sound (e : Event τ) (h : Life s ∧ ∀ t, (s.pc t).Resumes) :
    Life (regexStep s e) ∧ ∀ t, ((regexStep s e).pc t).Resumes :=
  ⟨regexStep_life e h.1 h.2, regexStep_resumes e h.2⟩

end

end Lebirun.Regex
