import Mathlib
import Lebirun.Lib.Run
import Lebirun.Slab.Release

namespace Lebirun.Slab
set_option autoImplicit true

open Machine Tiling

/-- A call of `slab_alloc` or `slab_page_alloc` for the given number of bytes. -/
inductive Request where
  | alloc (size : Nat)
  | pages (size : Nat)
  deriving DecidableEq, Repr

/-- The checks both functions make before they take the lock. -/
def Request.Valid : Request → Prop
  | .alloc size => size ≠ 0 ∧ size ≤ slabMaxSize
  | .pages size => size ≠ 0 ∧ size ≤ uint64Max - pageSize + 1

instance (r : Request) : Decidable r.Valid :=
  match r with
  | .alloc _ => inferInstanceAs (Decidable (_ ∧ _))
  | .pages _ => inferInstanceAs (Decidable (_ ∧ _))

def Request.serve (r : Request) (s : Slab) (backed : Nat) : Outcome :=
  match r with
  | .alloc size => slabAllocate s size backed
  | .pages size => slabPageAllocate s (slabPageCount size) backed

/-- How far a call of `slab_flush_stale` is: before its test-and-set, before its first locked
section, before the flush, in the flush, before its second locked section, before it clears
`slab_flush_active`. -/
inductive FlushPc where
  | enter
  | prepare
  | start
  | wait (n : Nat)
  | finish (result : Int)
  | leave (result : Int)
  deriving DecidableEq, Repr

/-- How far a thread is. A flush an allocation asked for goes back to it. -/
inductive Pc where
  | idle
  | attempt (r : Request)
  | flush (k : Option Request) (ph : FlushPc)
  | fresh (r : Request)
  deriving DecidableEq, Repr

/-- The shared state, the threads, and the number of flushes started so far. -/
structure Sys where
  slab : Slab
  pc : Nat → Pc
  flushes : Nat

def Sys.init : Sys := ⟨slabInit, fun _ => .idle, 0⟩

/-- One thread's next step, with the outcomes it meets: how many pages can be backed, what the
flush returns, whether canaries are intact. -/
inductive Act where
  | call (r : Request)
  | callFlush
  | serve (backed : Nat)
  | flushStep (result : Int)
  | free (ptr : Nat) (canaries : Bool)
  | resize (ptr newSize : Nat) (canaries : Bool)
  | pageFree (ptr size : Nat)

/-- Where a thread goes on when its `slab_flush_stale` returns. -/
def flushReturn (k : Option Request) (result : Int) : Pc :=
  match k with
  | none => .idle
  | some r => if result ≠ 0 then .fresh r else .attempt r

def flushStep (s : Slab) (n : Nat) (k : Option Request) (result : Int) :
    FlushPc → Slab × Nat × Pc
  | .enter =>
    if s.flushActive then (s, n, flushReturn k 1)
    else ({ s with flushActive := true }, n, .flush k .prepare)
  | .prepare =>
    let s := slabDropSpare s
    if !s.virtualDirty then (s, n, .flush k (.leave 0))
    else ({ s with virtualDirty := false }, n, .flush k .start)
  | .start => ({ s with log := .flushStart n :: s.log }, n + 1, .flush k (.wait n))
  | .wait m => ({ s with log := .flushEnd m result :: s.log }, n, .flush k (.finish result))
  | .finish r =>
    (if r < 0 then { s with virtualDirty := true } else s, n, .flush k (.leave r))
  | .leave r => ({ s with flushActive := false }, n, flushReturn k r)

/-- What thread `t` does; an action that does not fit where the thread is does nothing. -/
def Sys.step (m : Sys) (e : Nat × Act) : Sys :=
  let t := e.1
  match e.2, m.pc t with
  | .call r, .idle => { m with pc := Function.update m.pc t (if r.Valid then .attempt r else .idle) }
  | .callFlush, .idle => { m with pc := Function.update m.pc t (.flush none .enter) }
  | .serve backed, .attempt r =>
    match r.serve m.slab backed with
    | (result, failed, s) =>
      let retry := result = none ∧ failed = false ∧ (s.virtualDirty ∨ s.flushActive)
      { m with
        slab := s
        pc := Function.update m.pc t (if retry then .flush (some r) .enter else .idle) }
  | .serve backed, .fresh r =>
    match r.serve (m.slab.setFreshOnly true) backed with
    | (_, _, s) => { m with slab := s.setFreshOnly false, pc := Function.update m.pc t .idle }
  | .flushStep result, .flush k ph =>
    match flushStep m.slab m.flushes k result ph with
    | (s, n, pc) => ⟨s, Function.update m.pc t pc, n⟩
  | .free ptr canaries, .idle => { m with slab := slabFree m.slab ptr canaries }
  | .resize ptr newSize canaries, .idle =>
    { m with slab := (slabResize m.slab ptr newSize canaries).2 }
  | .pageFree ptr size, .idle => { m with slab := slabPageFree m.slab ptr size }
  | _, _ => m

/-- The promise of the callers of `slab_page_free`. -/
def Sys.Legal (m : Sys) (e : Nat × Act) : Prop :=
  match e.2 with
  | .pageFree ptr size => PageRun m.slab ptr (slabPageCount size)
  | _ => True

def Sys.run (es : List (Nat × Act)) : Sys := es.foldl Sys.step .init

def LegalRun (es : List (Nat × Act)) : Prop := Along Sys.step Sys.Legal .init es

def Pc.request : Pc → Option Request
  | .idle => none
  | .attempt r => some r
  | .flush k _ => k
  | .fresh r => some r

/-- The invariant of the shared state, with threads that passed their first checks. -/
structure SysOk (m : Sys) : Prop where
  slab : ∃ ps, SlabOk m.slab ps
  valid : ∀ t r, (m.pc t).request = some r → r.Valid

theorem SlabOk.flags (hs : SlabOk s ps) (d f o : Bool) (log : List Note) :
    SlabOk { s with virtualDirty := d, flushActive := f, freshOnly := o, log := log } ps :=
  hs.congr rfl (hs.vm.congr rfl hs.vm.known) rfl rfl rfl

theorem Request.serve_ok (hs : SlabOk s ps) (hv : Request.Valid r)
    (h : r.serve s backed = (result, failed, s')) : ∃ ps', SlabOk s' ps' := by
  cases r with
  | alloc size => exact slabAllocate_ok hs (Nat.pos_of_ne_zero hv.1) h
  | pages size => exact ⟨ps, slabPageAllocate_ok hs h⟩

theorem flushReturn_request : (flushReturn k result).request = some r → k = some r := by
  intro h
  cases k with
  | none => cases h
  | some r' =>
    rw [flushReturn] at h
    split at h
    · exact h
    · exact h

theorem flushStep_ok (hs : SlabOk s ps) (h : flushStep s n k result ph = (s', n', pc)) :
    (∃ ps', SlabOk s' ps') ∧ ∀ r, pc.request = some r → k = some r := by
  cases ph with
  | enter =>
    rw [flushStep] at h
    split at h
    · cases h
      exact ⟨⟨ps, hs⟩, fun r hr => flushReturn_request hr⟩
    · cases h
      exact ⟨⟨ps, hs.flags _ _ _ _⟩, fun r hr => hr⟩
  | prepare =>
    obtain ⟨ps', hs'⟩ := slabDropSpare_ok hs
    simp only [flushStep] at h
    split at h
    · cases h
      exact ⟨⟨ps', hs'⟩, fun r hr => hr⟩
    · cases h
      exact ⟨⟨ps', hs'.flags _ _ _ _⟩, fun r hr => hr⟩
  | start =>
    cases h
    exact ⟨⟨ps, hs.flags _ _ _ _⟩, fun r hr => hr⟩
  | wait m =>
    cases h
    exact ⟨⟨ps, hs.flags _ _ _ _⟩, fun r hr => hr⟩
  | finish r =>
    cases h
    refine ⟨⟨ps, ?_⟩, fun r hr => hr⟩
    split
    · exact hs.flags _ _ _ _
    · exact hs
  | leave r =>
    cases h
    exact ⟨⟨ps, hs.flags _ _ _ _⟩, fun r hr => flushReturn_request hr⟩

theorem valid_update {pc : Nat → Pc} (hv : ∀ t r, (pc t).request = some r → r.Valid)
    (hn : ∀ r, new.request = some r → r.Valid) :
    ∀ u r, (Function.update pc t new u).request = some r → r.Valid := by
  intro u r hr
  by_cases hu : u = t
  · subst u
    rw [Function.update_self] at hr
    exact hn r hr
  · rw [Function.update_of_ne hu] at hr
    exact hv u r hr

theorem SysOk.step (hm : SysOk m) (hl : m.Legal e) : SysOk (m.step e) := by
  obtain ⟨ps, hs⟩ := hm.slab
  obtain ⟨t, act⟩ := e
  simp only [Sys.step]
  split
  · rename_i r hpc
    refine ⟨⟨ps, hs⟩, valid_update hm.valid ?_⟩
    intro r' hr
    split at hr
    · rename_i hv
      cases hr
      exact hv
    · cases hr
  · exact ⟨⟨ps, hs⟩, valid_update hm.valid fun r hr => by cases hr⟩
  · rename_i backed r hpc
    have hv : r.Valid := hm.valid t r (by rw [hpc]; rfl)
    rcases hsv : r.serve m.slab backed with ⟨result, failed, s⟩
    refine ⟨Request.serve_ok hs hv hsv, valid_update hm.valid ?_⟩
    intro r' hr
    split at hr
    · cases hr
      exact hv
    · cases hr
  · rename_i backed r hpc
    have hv : r.Valid := hm.valid t r (by rw [hpc]; rfl)
    rcases hsv : r.serve (m.slab.setFreshOnly true) backed with ⟨result, failed, s⟩
    have hfresh : SlabOk (m.slab.setFreshOnly true) ps := hs.flags _ _ _ _
    obtain ⟨ps', hs'⟩ := Request.serve_ok hfresh hv hsv
    exact ⟨⟨ps', hs'.flags _ _ _ _⟩, valid_update hm.valid fun r hr => by cases hr⟩
  · rename_i result k ph hpc
    rcases hfs : flushStep m.slab m.flushes k result ph with ⟨s, n, pc⟩
    obtain ⟨hs', hk⟩ := flushStep_ok hs hfs
    refine ⟨hs', valid_update hm.valid ?_⟩
    intro r hr
    apply hm.valid t r
    rw [hpc]
    exact hk r hr
  · exact ⟨slabFree_ok hs _ _, hm.valid⟩
  · exact ⟨⟨ps, slabResize_ok hs _ _ _⟩, hm.valid⟩
  · exact ⟨⟨ps, slabPageFree_ok hs hl⟩, hm.valid⟩
  · exact hm

theorem run_ok (hl : LegalRun es) : SysOk (Sys.run es) := by
  refine Along.invariant (fun m e hm he => hm.step he) hl ⟨⟨[], slabInit_ok⟩, ?_⟩
  intro t r hr
  cases hr

/-- A small allocation: what `slab_alloc_size` reports for a pointer into a small page. -/
structure Live (s : Slab) (ptr size : Nat) : Prop where
  reported : slabAllocSize s ptr = size
  pos : size ≠ 0
  small : ∃ h, s.page (pageOf ptr) = some h ∧ h.kind = .small

theorem le_roundup8 (n : Nat) : n ≤ roundup8 n := by
  simp only [roundup8]
  omega

/-- Where a small allocation lies in the blocks of its page. -/
theorem Live.split (hs : SlabOk s ps) (hl : Live s ptr size) :
    ∃ h l₁ b l₂, s.page (pageOf ptr) = some h ∧ PageOk h (l₁ ++ b :: l₂) ∧
      ptr = pageOf ptr + slabPageHead + extent SlabBlock.span l₁ + slabBlockHead ∧
      slabBlockHead + size ≤ b.span := by
  obtain ⟨h, hp, hk⟩ := hl.small
  obtain ⟨l, hlay⟩ := hs.layout _ h hp hk
  have hsize := hl.reported
  have hpos := hl.pos
  simp only [slabAllocSize, hp, hk] at hsize
  split at hsize
  · omega
  · split at hsize
    · omega
    · rename_i off hoff
      obtain ⟨l₁, b, l₂, rfl, ho, hptr⟩ := hlay.toLaid.blockForPtr hoff
      have hbe := hlay.toLaid.block_eq
      rw [← ho] at hbe
      rw [hbe] at hsize
      have hfit := (hlay.ok b (by simp)).fits (fun hf => hpos (hsize ▸ hf))
      have hr := le_roundup8 b.requested
      have hle : pageOf ptr ≤ ptr := Nat.div_mul_le_self _ _
      refine ⟨h, l₁, b, l₂, hp, hlay, ?_, ?_⟩
      · omega
      · simp only [slabBlockHead]
        omega

theorem Live.in_page (hs : SlabOk s ps) (hl : Live s ptr size) :
    pageOf ptr ≤ ptr ∧ ptr + size ≤ pageOf ptr + pageSize := by
  obtain ⟨h, l₁, b, l₂, -, hlay, hptr, hfit⟩ := hl.split hs
  have hfull := hlay.full
  simp only [extent_append, extent_cons] at hfull
  have hpage : pageSize = 4096 := rfl
  have hhead : slabPageHead = 32 := rfl
  omega

theorem Live.disjoint (hs : SlabOk s ps) (hl : Live s ptr size) (hl' : Live s ptr' size')
    (hlt : ptr < ptr') : ptr + size ≤ ptr' := by
  obtain ⟨hle, hend⟩ := hl.in_page hs
  obtain ⟨hle', hend'⟩ := hl'.in_page hs
  by_cases hpage : pageOf ptr = pageOf ptr'
  · obtain ⟨h, l₁, b, l₂, hp, hlay, hptr, hfit⟩ := hl.split hs
    obtain ⟨h', m₁, c, m₂, hp', hlay', hptr', -⟩ := hl'.split hs
    rw [← hpage, hp] at hp'
    cases hp'
    have hpos : ∀ d ∈ l₁ ++ b :: l₂, 0 < d.span := fun d hd => by
      have := (hlay.ok d hd).pos
      omega
    have hposm : ∀ d ∈ m₁ ++ c :: m₂, 0 < d.span := fun d hd => by
      have := (hlay'.ok d hd).pos
      omega
    have hsame : m₁ ++ c :: m₂ = l₁ ++ b :: l₂ :=
      Tiles.unique hlay'.tiles hlay.tiles hposm hpos (hlay'.full.trans hlay.full.symm)
    have hx : slabPageHead + extent SlabBlock.span m₁ ∈
        starts SlabBlock.span slabPageHead (l₁ ++ b :: l₂) := by
      rw [← hsame]
      exact mem_starts.2 ⟨m₁, c, m₂, rfl, rfl⟩
    have hnext := starts_of_lt (fun d hd => hpos d (List.mem_append_left _ hd)) hx (by omega)
    omega
  · have hdvd : pageOf ptr + pageSize ≤ pageOf ptr' := by
      simp only [pageOf] at hpage ⊢
      have hmono : ptr / pageSize ≤ ptr' / pageSize := Nat.div_le_div_right hlt.le
      have hne : ptr / pageSize ≠ ptr' / pageSize := fun he => hpage (by rw [he])
      have hs : ptr / pageSize + 1 ≤ ptr' / pageSize := by omega
      calc ptr / pageSize * pageSize + pageSize = (ptr / pageSize + 1) * pageSize := by ring
        _ ≤ ptr' / pageSize * pageSize := Nat.mul_le_mul_right _ hs
    omega

/-- In every run, at every interleaving of the locked sections of any number of threads, the
small allocator's pages and their list are in order. -/
theorem slab_run_pages (es : List (Nat × Act)) (hl : LegalRun es) :
    let s := (Sys.run es).slab
    ∃ ps, SlabOk s ps ∧
      (∀ ptr size, Live s ptr size →
        pageOf ptr ≤ ptr ∧ ptr + size ≤ pageOf ptr + pageSize) ∧
      ∀ ptr size ptr' size', Live s ptr size → Live s ptr' size' → ptr ≠ ptr' →
        ptr + size ≤ ptr' ∨ ptr' + size' ≤ ptr := by
  obtain ⟨ps, hs⟩ := (run_ok hl).slab
  refine ⟨ps, hs, fun ptr size h => h.in_page hs, ?_⟩
  intro ptr size ptr' size' h h' hne
  rcases Nat.lt_or_gt_of_ne hne with hlt | hlt
  · exact .inl (h.disjoint hs h' hlt)
  · exact .inr (h'.disjoint hs h hlt)

/-- Two threads allocate, one frees again and a third one flushes. -/
def threeThreads : List (Nat × Act) :=
  [(0, .call (.alloc 100)), (1, .call (.alloc 4056)), (0, .serve 1), (1, .serve 1),
    (0, .free (slabPrimaryStart + 40) true), (2, .callFlush), (2, .flushStep 0), (2, .flushStep 0)]

theorem threeThreads_pages :
    LegalRun threeThreads ∧ ∃ ps, SlabOk (Sys.run threeThreads).slab ps :=
  have hl : LegalRun threeThreads :=
    ⟨trivial, trivial, trivial, trivial, trivial, trivial, trivial, trivial, trivial⟩
  have ⟨ps, hs, _⟩ := slab_run_pages threeThreads hl
  ⟨hl, ps, hs⟩

end Lebirun.Slab
