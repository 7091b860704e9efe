import Mathlib
import Lebirun.Slab.Machine

namespace Lebirun.Slab
set_option autoImplicit true

open Machine

variable {s s' : Slab} {m : Sys} {a virt pages : Nat} {log : List Note}

/-- After each unmapping of `a` a flush was started that has ended without an error. The log
has its newest entry first. -/
def Flushed (log : List Note) (a : Nat) : Prop :=
  ∀ post pre, log = post ++ .unmapped a :: pre →
    ∃ n r, .flushStart n ∈ post ∧ .flushEnd n r ∈ post ∧ 0 ≤ r

/-- Nothing was unmapped since flush `n` was started. -/
def InFlight (log : List Note) (n : Nat) : Prop :=
  ∃ post pre, log = post ++ .flushStart n :: pre ∧ ∀ a, .unmapped a ∉ post

theorem Flushed.cons (h : Flushed log a) (hx : x ≠ .unmapped a) : Flushed (x :: log) a := by
  intro post pre he
  cases post with
  | nil =>
    rw [List.nil_append, List.cons.injEq] at he
    exact absurd he.1 hx
  | cons y post =>
    rw [List.cons_append, List.cons.injEq] at he
    obtain ⟨n, r, h₁, h₂, hr⟩ := h post pre he.2
    exact ⟨n, r, List.mem_cons_of_mem _ h₁, List.mem_cons_of_mem _ h₂, hr⟩

theorem Flushed.mapped (h : Flushed log a) (as : List Nat) :
    Flushed (as.map Note.mapped ++ log) a := by
  induction as with
  | nil => exact h
  | cons b as ih => exact ih.cons (by simp)

theorem InFlight.mapped (h : InFlight log n) (as : List Nat) :
    InFlight (as.map Note.mapped ++ log) n := by
  obtain ⟨post, pre, rfl, hno⟩ := h
  refine ⟨as.map Note.mapped ++ post, pre, by simp, ?_⟩
  intro b hb
  rcases List.mem_append.1 hb with hb | hb
  · obtain ⟨c, -, hc⟩ := List.mem_map.1 hb
    cases hc
  · exact hno b hb

/-- The end of a flush makes every earlier unmapping safe. -/
theorem InFlight.flushed (h : InFlight log n) (hr : 0 ≤ r) (a : Nat) :
    Flushed (.flushEnd n r :: log) a := by
  obtain ⟨post, pre, rfl, hno⟩ := h
  intro post' pre' he
  refine ⟨n, r, ?_, ?_, hr⟩
  · cases post' with
    | nil => cases he
    | cons y post' =>
      rw [List.cons_append, List.cons.injEq] at he
      obtain ⟨rfl, he⟩ := he
      rcases List.append_eq_append_iff.1 he with ⟨l, rfl, hl⟩ | ⟨l, rfl, hl⟩
      · cases l with
        | nil =>
          rw [List.nil_append, List.cons.injEq] at hl
          cases hl.1
        | cons z l =>
          rw [List.cons_append, List.cons.injEq] at hl
          simp [← hl.1]
      · cases l with
        | nil =>
          rw [List.nil_append, List.cons.injEq] at hl
          cases hl.1
        | cons z l =>
          rw [List.cons_append, List.cons.injEq] at hl
          exact absurd (by simp [hl.1]) (hno a)
  · cases post' with
    | nil => cases he
    | cons y post' =>
      rw [List.cons_append, List.cons.injEq] at he
      rw [← he.1]
      exact List.mem_cons_self

def FlushPc.Active : FlushPc → Prop
  | .enter => False
  | _ => True

/-- What the thread that flushes can rely on while the dirty flag is clear. -/
def PhaseOk (log : List Note) : FlushPc → Prop
  | .enter => True
  | .prepare => ∀ a, Flushed log a
  | .start => True
  | .wait n => InFlight log n
  | .finish r => 0 ≤ r → ∀ a, Flushed log a
  | .leave _ => ∀ a, Flushed log a

theorem PhaseOk.mapped (h : PhaseOk log ph) (as : List Nat) :
    PhaseOk (as.map Note.mapped ++ log) ph := by
  cases ph with
  | enter => trivial
  | prepare => exact fun a => (h a).mapped as
  | start => trivial
  | wait n => exact InFlight.mapped h as
  | finish r => exact fun hr a => (h hr a).mapped as
  | leave r => exact fun a => (h a).mapped as

structure FlushOk (m : Sys) : Prop where
  known : ∀ a, .mapped a ∈ m.slab.log → m.slab.Known a
  one : ∀ t u k k' ph ph', m.pc t = .flush k ph → m.pc u = .flush k' ph' →
    ph.Active → ph'.Active → t = u
  flag : m.slab.flushActive = true ↔ ∃ t k ph, m.pc t = .flush k ph ∧ ph.Active
  calm : m.slab.flushActive = false → m.slab.virtualDirty = false → ∀ a, Flushed m.slab.log a
  phase : ∀ t k ph, m.pc t = .flush k ph → m.slab.virtualDirty = false → PhaseOk m.slab.log ph

/-- What a locked section outside `slab_flush_stale` does to the flush: it maps known pages,
and it sets the dirty flag if it unmaps any. -/
structure Quiet (s s' : Slab) : Prop where
  active : s'.flushActive = s.flushActive
  mono : ∀ a, s.Known a → s'.Known a
  known : ∀ a, .mapped a ∈ s'.log → .mapped a ∈ s.log ∨ s'.Known a
  dirty : s'.virtualDirty = true ∨
    s'.virtualDirty = s.virtualDirty ∧ ∃ as : List Nat, s'.log = as.map Note.mapped ++ s.log

theorem Quiet.trans (h₁ : Quiet s s') (h₂ : Quiet s' s'') : Quiet s s'' := by
  refine ⟨h₂.active.trans h₁.active, fun a ha => h₂.mono a (h₁.mono a ha), ?_, ?_⟩
  · intro a ha
    rcases h₂.known a ha with ha | ha
    · rcases h₁.known a ha with ha | ha
      · exact .inl ha
      · exact .inr (h₂.mono a ha)
    · exact .inr ha
  · rcases h₂.dirty with hd | ⟨hd, as, hl⟩
    · exact .inl hd
    · rcases h₁.dirty with hd' | ⟨hd', bs, hl'⟩
      · exact .inl (hd.trans hd')
      · refine .inr ⟨hd.trans hd', as ++ bs, ?_⟩
        rw [hl, hl', List.map_append, List.append_assoc]

theorem Quiet.same (h : (s'.flushActive, s'.virtualDirty, s'.log, s'.primaryBump, s'.overflowBump) =
    (s.flushActive, s.virtualDirty, s.log, s.primaryBump, s.overflowBump)) : Quiet s s' := by
  simp only [Prod.mk.injEq] at h
  obtain ⟨h₁, h₂, h₃, h₄, h₅⟩ := h
  refine ⟨h₁, ?_, ?_, .inr ⟨h₂, [], ?_⟩⟩
  · intro a ha
    rwa [Slab.Known, h₄, h₅]
  · intro a ha
    rw [h₃] at ha
    exact .inl ha
  · rw [h₃]
    rfl

theorem Quiet.vAlloc (h : VAlloc s pages r s') : Quiet s s' := by
  have hmono := h.mono
  obtain ⟨pb, psc, ob, os, rfl⟩ := h.same
  exact ⟨rfl, hmono, fun a ha => .inl ha, .inr ⟨rfl, [], rfl⟩⟩

theorem Quiet.unmap (h : Quiet s s') (virt pages : Nat) :
    Quiet s (slabUnmapPages s' virt pages) := by
  refine h.trans ⟨rfl, fun _ h => h, ?_, .inl rfl⟩
  intro a ha
  rcases List.mem_append.1 ha with ha | ha
  · obtain ⟨b, -, hb⟩ := List.mem_map.1 ha
    cases hb
  · exact .inl ha

theorem Quiet.map (hv : pageSize ∣ virt) (hk : ∀ a, inRun virt pages a → s.Known a)
    (h : slabMapPages s virt pages backed = (ok, s')) : Quiet s s' := by
  rw [slabMapPages] at h
  split at h
  · cases h
    refine ⟨rfl, fun _ h => h, ?_, .inr ⟨rfl, (runPages virt pages).reverse, rfl⟩⟩
    intro a ha
    rcases List.mem_append.1 ha with ha | ha
    · obtain ⟨b, hb, hab⟩ := List.mem_map.1 ha
      cases hab
      rw [List.mem_reverse, mem_runPages hv] at hb
      exact .inr (hk a hb)
    · exact .inl ha
  · rename_i hlt
    cases h
    refine ⟨rfl, fun _ h => h, ?_, .inl rfl⟩
    intro a ha
    rcases List.mem_append.1 ha with ha | ha
    · obtain ⟨b, -, hab⟩ := List.mem_map.1 ha
      cases hab
    · rcases List.mem_append.1 ha with ha | ha
      · obtain ⟨b, hb, hab⟩ := List.mem_map.1 ha
        cases hab
        rw [List.mem_reverse, mem_runPages hv] at hb
        have hle : backed * pageSize ≤ pages * pageSize := Nat.mul_le_mul_right _ (by omega)
        exact .inr (hk a ⟨hb.1, hb.2.1.trans_le (Nat.add_le_add_left hle _), hb.2.2⟩)
      · exact .inl ha

/-- The common shape of the three allocation paths: addresses, then mappings, then changes
that do not concern the flush. -/
theorem Quiet.allocate (hv : VmOk s) (hva : slabVirtualAlloc s pages = (some virt, s₁))
    (hmp : slabMapPages s₁ virt pages backed = (ok, s₂)) : Quiet s s₂ := by
  have hspec := slabVirtualAlloc_spec hv hva
  exact (Quiet.vAlloc hspec).trans
    (Quiet.map (hspec.aligned virt rfl) (fun a ha => hspec.known virt a rfl ha) hmp)

theorem linkNext_traits (s : Slab) (node v : Option Nat) :
    Quiet s (s.linkNext node v) := by
  cases node with
  | none => exact Quiet.same rfl
  | some p => exact Quiet.same rfl

theorem linkPrev_traits (s : Slab) (node v : Option Nat) :
    Quiet s (s.linkPrev node v) := by
  cases node with
  | none => exact Quiet.same rfl
  | some p => exact Quiet.same rfl

theorem Quiet.modify (s : Slab) (a : Nat) (f : SlabPage → SlabPage) : Quiet s (s.modify a f) :=
  Quiet.same rfl

theorem slabSmallAdd_quiet (s : Slab) (p : Nat) : Quiet s (slabSmallAdd s p) :=
  ((Quiet.modify s p _).trans (linkNext_traits _ s.smallTail (some p))).trans (Quiet.same rfl)

theorem slabSmallRemove_quiet (s : Slab) (p : Nat) : Quiet s (slabSmallRemove s p) :=
  ((linkNext_traits _ _ _).trans (linkPrev_traits _ _ _)).trans (Quiet.modify _ _ _)

theorem slabSmallTake_quiet (s : Slab) (p off size : Nat) :
    Quiet s (slabSmallTake s p off size) := by
  simp only [slabSmallTake]
  split
  · exact Quiet.same rfl
  · exact Quiet.modify s p _

theorem slabSmallCreate_quiet (hv : VmOk s) (h : slabSmallCreate s backed = (r, failed, s')) :
    Quiet s s' := by
  rw [slabSmallCreate] at h
  rcases hva : slabVirtualAlloc s 1 with ⟨r₁, s₁⟩
  rw [hva] at h
  cases r₁ with
  | none =>
    cases h
    exact Quiet.vAlloc (slabVirtualAlloc_spec hv hva)
  | some virt =>
    dsimp only at h
    rcases hmp : slabMapPages s₁ virt 1 backed with ⟨ok, s₂⟩
    have hq := Quiet.allocate hv hva hmp
    rw [hmp] at h
    cases ok with
    | false =>
      cases h
      exact hq
    | true =>
      cases h
      have hadd := slabSmallAdd_quiet
        { s₂ with mem := Function.update s₂.mem virt (some (.slab slabSmallFresh)) } virt
      have hhead : Quiet s₂
          { s₂ with mem := Function.update s₂.mem virt (some (.slab slabSmallFresh)) } :=
        Quiet.same rfl
      refine Quiet.trans (hq.trans (hhead.trans hadd)) ?_
      exact Quiet.same rfl

theorem slabSmallAllocate_quiet (hv : VmOk s)
    (h : slabSmallAllocate s size backed = (r, failed, s')) : Quiet s s' := by
  simp only [slabSmallAllocate] at h
  split at h
  · split at h
    · cases h
      exact slabSmallTake_quiet _ _ _ _
    · cases h
      exact Quiet.same rfl
  · rcases hcr : slabSmallCreate s backed with ⟨r₁, failed₁, s₁⟩
    have hq := slabSmallCreate_quiet hv hcr
    rw [hcr] at h
    cases r₁ with
    | none =>
      cases h
      exact hq
    | some page =>
      dsimp only at h
      split at h
      · cases h
        exact hq
      · cases h
        exact hq.trans (slabSmallTake_quiet _ _ _ _)

theorem slabExtentAllocate_quiet (hv : VmOk s)
    (h : slabExtentAllocate s size backed = (r, failed, s')) : Quiet s s' := by
  simp only [slabExtentAllocate] at h
  rcases hva : slabVirtualAlloc s (slabExtentPages size) with ⟨r₁, s₁⟩
  rw [hva] at h
  cases r₁ with
  | none =>
    cases h
    exact Quiet.vAlloc (slabVirtualAlloc_spec hv hva)
  | some virt =>
    dsimp only at h
    rcases hmp : slabMapPages s₁ virt (slabExtentPages size) backed with ⟨ok, s₂⟩
    have hq := Quiet.allocate hv hva hmp
    rw [hmp] at h
    cases ok with
    | false =>
      cases h
      exact hq
    | true =>
      cases h
      exact hq.trans (Quiet.same rfl)

theorem slabPageAllocate_quiet (hv : VmOk s)
    (h : slabPageAllocate s pages backed = (r, failed, s')) : Quiet s s' := by
  rw [slabPageAllocate] at h
  rcases hva : slabVirtualAlloc s pages with ⟨r₁, s₁⟩
  rw [hva] at h
  cases r₁ with
  | none =>
    cases h
    exact Quiet.vAlloc (slabVirtualAlloc_spec hv hva)
  | some virt =>
    dsimp only at h
    rcases hmp : slabMapPages s₁ virt pages backed with ⟨ok, s₂⟩
    have hq := Quiet.allocate hv hva hmp
    rw [hmp] at h
    cases ok with
    | false =>
      cases h
      exact hq
    | true =>
      cases h
      exact hq.trans (Quiet.same rfl)

theorem Request.serve_quiet (hv : VmOk s) (r : Request)
    (h : r.serve s backed = (result, failed, s')) : Quiet s s' := by
  cases r with
  | alloc size =>
    simp only [Request.serve, slabAllocate] at h
    split at h
    · exact slabSmallAllocate_quiet hv h
    · exact slabExtentAllocate_quiet hv h
  | pages size => exact slabPageAllocate_quiet hv h

theorem slabFree_quiet (s : Slab) (ptr : Nat) (canaries : Bool) :
    Quiet s (slabFree s ptr canaries) := by
  have hid : Quiet s s := Quiet.same rfl
  simp only [slabFree]
  split
  · exact hid
  · split
    · exact hid
    · split
      · split
        · exact hid
        · split
          · exact hid
          · refine Quiet.unmap ?_ _ _
            exact Quiet.same rfl
      · split
        · exact hid
        · rename_i off _
          split
          · exact hid
          · have hclear := Quiet.modify s (pageOf ptr) fun h => slabSmallClear h off
            split
            · exact Quiet.same rfl
            · split
              · refine Quiet.unmap ?_ _ _
                exact (hclear.trans (slabSmallRemove_quiet _ _)).trans (Quiet.same rfl)
              · exact hclear.trans (Quiet.modify _ _ _)

theorem slabResize_quiet (s : Slab) (ptr newSize : Nat) (canaries : Bool) :
    Quiet s (slabResize s ptr newSize canaries).2 := by
  have hid : Quiet s s := Quiet.same rfl
  simp only [slabResize]
  split
  · exact hid
  split
  · exact hid
  split
  · exact hid
  split
  · split
    · exact hid
    split
    · exact hid
    split
    · exact hid
    split
    · exact hid
    · exact Quiet.modify _ _ _
  · split
    · exact hid
    split
    · exact hid
    split
    · exact hid
    split
    · exact hid
    split
    · refine Quiet.unmap ?_ _ _
      exact Quiet.same rfl
    · exact Quiet.modify _ _ _

theorem slabPageFree_quiet (s : Slab) (ptr size : Nat) : Quiet s (slabPageFree s ptr size) := by
  have hid : Quiet s s := Quiet.same rfl
  simp only [slabPageFree]
  split
  · exact hid
  split
  · exact hid
  split
  · exact hid
  split
  · exact hid
  split
  · exact hid
  split
  · exact hid
  split
  · exact hid
  · refine Quiet.unmap ?_ _ _
    exact Quiet.same rfl

theorem slabDropSpare_quiet (s : Slab) : Quiet s (slabDropSpare s) := by
  rw [slabDropSpare]
  split
  · exact Quiet.same rfl
  · exact ((slabSmallRemove_quiet _ _).unmap _ _).trans (Quiet.same rfl)

/-- A locked section outside `slab_flush_stale`, by a thread that is not in the middle of a
flush. -/
theorem FlushOk.quiet {pc' : Nat → Pc} (hm : FlushOk m) (hq : Quiet m.slab s')
    (hpc : ∀ u k ph, ph.Active → (pc' u = .flush k ph ↔ m.pc u = .flush k ph)) (n : Nat) :
    FlushOk ⟨s', pc', n⟩ := by
  refine ⟨?_, ?_, ?_, ?_, ?_⟩
  · intro a ha
    rcases hq.known a ha with ha | ha
    · exact hq.mono a (hm.known a ha)
    · exact ha
  · intro t u k k' ph ph' ht hu hp hp'
    exact hm.one t u k k' ph ph' ((hpc t k ph hp).1 ht) ((hpc u k' ph' hp').1 hu) hp hp'
  · show s'.flushActive = true ↔ _
    rw [hq.active, hm.flag]
    constructor
    · rintro ⟨t, k, ph, ht, hp⟩
      exact ⟨t, k, ph, (hpc t k ph hp).2 ht, hp⟩
    · rintro ⟨t, k, ph, ht, hp⟩
      exact ⟨t, k, ph, (hpc t k ph hp).1 ht, hp⟩
  · intro hf hd a
    rcases hq.dirty with hd' | ⟨hd', as, hl⟩
    · exact absurd (hd'.symm.trans hd) (by decide)
    · show Flushed s'.log a
      rw [hl]
      exact (hm.calm (hq.active.symm.trans hf) (hd'.symm.trans hd) a).mapped as
  · intro t k ph ht hd
    by_cases hp : ph.Active
    · rcases hq.dirty with hd' | ⟨hd', as, hl⟩
      · exact absurd (hd'.symm.trans hd) (by decide)
      · show PhaseOk s'.log ph
        rw [hl]
        exact (hm.phase t k ph ((hpc t k ph hp).1 ht) (hd'.symm.trans hd)).mapped as
    · cases ph with
      | enter => trivial
      | _ => exact absurd trivial hp

/-- The flushing thread goes from one of its active phases to the next. -/
theorem FlushOk.advance (hm : FlushOk m) (ht : m.pc t = .flush k ph) (hp : ph.Active)
    (hf : s'.flushActive = m.slab.flushActive)
    (hk : ∀ a, .mapped a ∈ s'.log → s'.Known a) (hp' : ph'.Active)
    (hph : s'.virtualDirty = false → PhaseOk s'.log ph') (n : Nat) :
    FlushOk ⟨s', Function.update m.pc t (.flush k ph'), n⟩ := by
  have hact : m.slab.flushActive = true := hm.flag.2 ⟨t, k, ph, ht, hp⟩
  have hother : ∀ u k' ph', u ≠ t → m.pc u = .flush k' ph' → ¬ph'.Active := by
    intro u k' ph' hne hu ha
    exact hne (hm.one u t k' k ph' ph hu ht ha hp)
  have honly : ∀ u k' ph₂, Function.update m.pc t (.flush k ph') u = .flush k' ph₂ →
      ph₂.Active → u = t := by
    intro u k' ph₂ hu ha
    by_contra hne
    rw [Function.update_of_ne hne] at hu
    exact hother u k' ph₂ hne hu ha
  refine ⟨hk, ?_, ?_, ?_, ?_⟩
  · intro u v k₁ k₂ ph₁ ph₂ hu hv h₁ h₂
    rw [honly u k₁ ph₁ hu h₁, honly v k₂ ph₂ hv h₂]
  · show s'.flushActive = true ↔ _
    rw [hf, hact]
    simp only [true_iff]
    exact ⟨t, k, ph', Function.update_self _ _ _, hp'⟩
  · intro hf'
    have : s'.flushActive = false := hf'
    rw [hf, hact] at this
    cases this
  · intro u k' ph₂ hu hd
    by_cases hne : u = t
    · subst u
      have hu' : Function.update m.pc t (.flush k ph') t = .flush k' ph₂ := hu
      rw [Function.update_self] at hu'
      cases hu'
      exact hph hd
    · have hu' : Function.update m.pc t (.flush k ph') u = .flush k' ph₂ := hu
      rw [Function.update_of_ne hne] at hu'
      cases ph₂ with
      | enter => trivial
      | _ => exact absurd trivial (hother u k' _ hne hu')

theorem flushReturn_ne (k k' : Option Request) (result : Int) (ph : FlushPc) :
    flushReturn k result ≠ .flush k' ph := by
  intro h
  cases k with
  | none => cases h
  | some r =>
    rw [flushReturn] at h
    split at h
    · cases h
    · cases h

theorem update_active_iff {pc : Nat → Pc} (hnew : ∀ k ph, ph.Active → new ≠ .flush k ph)
    (hold : ∀ k ph, ph.Active → pc t ≠ .flush k ph) :
    ∀ u k ph, FlushPc.Active ph →
      (Function.update pc t new u = .flush k ph ↔ pc u = .flush k ph) := by
  intro u k ph hp
  by_cases hu : u = t
  · subst u
    rw [Function.update_self]
    exact ⟨fun h => absurd h (hnew k ph hp), fun h => absurd h (hold k ph hp)⟩
  · rw [Function.update_of_ne hu]

theorem FlushOk.flushStep (hm : FlushOk m) (ht : m.pc t = .flush k ph)
    (h : flushStep m.slab m.flushes k result ph = (s', n', pc')) :
    FlushOk ⟨s', Function.update m.pc t pc', n'⟩ := by
  cases ph with
  | enter =>
    have hold : ∀ k' ph, FlushPc.Active ph → m.pc t ≠ .flush k' ph := by
      intro k' ph hp he
      rw [ht] at he
      cases he
      exact hp
    rw [Lebirun.Slab.flushStep] at h
    split at h
    · cases h
      exact hm.quiet (Quiet.same rfl)
        (update_active_iff (fun k' ph _ => flushReturn_ne k k' 1 ph) hold) _
    · rename_i hno
      cases h
      have hno' : m.slab.flushActive = false := by simpa using hno
      have hnone : ∀ u k' ph, m.pc u = .flush k' ph → ¬ph.Active := by
        intro u k' ph hu hp
        exact hno (hm.flag.2 ⟨u, k', ph, hu, hp⟩)
      have honly : ∀ u k' ph, Function.update m.pc t (.flush k .prepare) u = .flush k' ph →
          ph.Active → u = t := by
        intro u k' ph hu hp
        by_contra hne
        rw [Function.update_of_ne hne] at hu
        exact hnone u k' ph hu hp
      refine ⟨hm.known, ?_, ?_, ?_, ?_⟩
      · intro u v k₁ k₂ ph₁ ph₂ hu hv h₁ h₂
        rw [honly u k₁ ph₁ hu h₁, honly v k₂ ph₂ hv h₂]
      · simp only [true_iff]
        exact ⟨t, k, .prepare, Function.update_self _ _ _, trivial⟩
      · intro hf
        cases hf
      · intro u k' ph hu hd
        by_cases hne : u = t
        · subst u
          have hu' : Function.update m.pc t (.flush k .prepare) t = .flush k' ph := hu
          rw [Function.update_self] at hu'
          cases hu'
          exact hm.calm hno' hd
        · have hu' : Function.update m.pc t (.flush k .prepare) u = .flush k' ph := hu
          rw [Function.update_of_ne hne] at hu'
          cases ph with
          | enter => trivial
          | _ => exact absurd trivial (hnone u k' _ hu')
  | prepare =>
    have hq := hm.quiet (slabDropSpare_quiet m.slab) (fun _ _ _ _ => Iff.rfl) m.flushes
    simp only [Lebirun.Slab.flushStep] at h
    split at h
    · cases h
      refine hq.advance ht trivial ?_ ?_ ?_ ?_ _
      · rfl
      · exact hq.known
      · trivial
      · exact hq.phase t k .prepare ht
    · cases h
      refine hq.advance ht trivial ?_ ?_ ?_ ?_ _
      · rfl
      · exact hq.known
      · trivial
      · intro _
        trivial
  | start =>
    cases h
    refine hm.advance ht trivial ?_ ?_ ?_ ?_ _
    · rfl
    · intro a ha
      rcases List.mem_cons.1 ha with ha | ha
      · cases ha
      · exact hm.known a ha
    · trivial
    · intro _
      exact ⟨[], m.slab.log, rfl, fun _ h => by cases h⟩
  | wait n =>
    cases h
    refine hm.advance ht trivial ?_ ?_ ?_ ?_ _
    · rfl
    · intro a ha
      rcases List.mem_cons.1 ha with ha | ha
      · cases ha
      · exact hm.known a ha
    · trivial
    · intro hd hr
      exact InFlight.flushed (hm.phase t k (.wait n) ht hd) hr
  | finish r =>
    cases h
    split
    · refine hm.advance ht trivial ?_ ?_ ?_ ?_ _
      · rfl
      · exact hm.known
      · trivial
      · intro hd
        cases hd
    · rename_i hr
      refine hm.advance ht trivial ?_ ?_ ?_ ?_ _
      · rfl
      · exact hm.known
      · trivial
      · intro hd
        exact hm.phase t k (.finish r) ht hd (by omega)
  | leave r =>
    cases h
    have hnone : ∀ u k' ph, Function.update m.pc t (flushReturn k r) u = .flush k' ph →
        ¬ph.Active := by
      intro u k' ph hu hp
      by_cases hne : u = t
      · subst u
        rw [Function.update_self] at hu
        exact flushReturn_ne k k' r ph hu
      · rw [Function.update_of_ne hne] at hu
        exact hne (hm.one u t k' k ph _ hu ht hp trivial)
    refine ⟨hm.known, ?_, ?_, ?_, ?_⟩
    · intro u v k₁ k₂ ph₁ ph₂ hu _ h₁ _
      exact absurd h₁ (hnone u k₁ ph₁ hu)
    · constructor
      · intro hf
        cases hf
      · rintro ⟨u, k', ph, hu, hp⟩
        exact absurd hp (hnone u k' ph hu)
    · intro _ hd
      exact hm.phase t k (.leave r) ht hd
    · intro u k' ph hu hd
      cases ph with
      | enter => trivial
      | _ => exact absurd trivial (hnone u k' _ hu)

theorem FlushOk.step (hv : VmOk m.slab) (hm : FlushOk m) (e : Nat × Act) :
    FlushOk (m.step e) := by
  obtain ⟨t, act⟩ := e
  have hid : ∀ u k ph, FlushPc.Active ph → (m.pc u = .flush k ph ↔ m.pc u = .flush k ph) :=
    fun _ _ _ _ => Iff.rfl
  simp only [Sys.step]
  split
  · rename_i r hpc
    apply hm.quiet (Quiet.same rfl)
    apply update_active_iff
    · intro k ph _ he
      split at he
      · cases he
      · cases he
    · intro k ph _ he
      rw [hpc] at he
      cases he
  · rename_i hpc
    apply hm.quiet (Quiet.same rfl)
    apply update_active_iff
    · intro k ph hp he
      cases he
      exact hp
    · intro k ph _ he
      rw [hpc] at he
      cases he
  · rename_i backed r hpc
    rcases hsv : r.serve m.slab backed with ⟨result, failed, s⟩
    apply hm.quiet (Request.serve_quiet hv r hsv)
    apply update_active_iff
    · intro k ph hp he
      split at he
      · cases he
        exact hp
      · cases he
    · intro k ph _ he
      rw [hpc] at he
      cases he
  · rename_i backed r hpc
    rcases hsv : r.serve (m.slab.setFreshOnly true) backed with ⟨result, failed, s⟩
    have hvf : VmOk (m.slab.setFreshOnly true) := hv.congr rfl hv.known
    have hset : Quiet m.slab (m.slab.setFreshOnly true) := Quiet.same rfl
    have hq := hset.trans (Request.serve_quiet hvf r hsv)
    have hreset : Quiet s (s.setFreshOnly false) := Quiet.same rfl
    apply hm.quiet (hq.trans hreset)
    apply update_active_iff
    · intro k ph _ he
      cases he
    · intro k ph _ he
      rw [hpc] at he
      cases he
  · rename_i result k ph hpc
    rcases hfs : Lebirun.Slab.flushStep m.slab m.flushes k result ph with ⟨s, n, pc⟩
    exact hm.flushStep hpc hfs
  · exact hm.quiet (slabFree_quiet _ _ _) hid _
  · exact hm.quiet (slabResize_quiet _ _ _ _) hid _
  · exact hm.quiet (slabPageFree_quiet _ _ _) hid _
  · exact hm

theorem run_flushOk (hl : LegalRun es) : FlushOk (Sys.run es) := by
  have hinv : SysOk (Sys.run es) ∧ FlushOk (Sys.run es) := by
    refine @Along.invariant _ _ _ _ _ _ (fun m => SysOk m ∧ FlushOk m) ?_ hl ⟨⟨⟨[], slabInit_ok⟩, ?_⟩, ?_⟩
    · rintro m e ⟨hs, hf⟩ he
      obtain ⟨ps, hps⟩ := hs.slab
      exact ⟨hs.step he, hf.step hps.vm e⟩
    · intro t r hr
      cases hr
    · refine ⟨?_, ?_, ?_, ?_, ?_⟩
      · intro a ha
        cases ha
      · intro t u k k' ph ph' ht
        cases ht
      · constructor
        · intro h
          cases h
        · rintro ⟨t, k, ph, ht, -⟩
          cases ht
      · intro _ _ a post pre he
        cases post with
        | nil => cases he
        | cons => cases he
      · intro t k ph ht
        cases ht
  exact hinv.2

/-- Whatever `slab_virtual_alloc` returns at any point of any run: each unmapping of a page of
the run was followed by a flush that was started later and has succeeded, and while stale
addresses wait for a flush the pages were never mapped. -/
theorem slab_virtual_recycled (es : List (Nat × Act)) (hl : LegalRun es) (freshOnly : Bool)
    (pages virt : Nat) (s' : Slab)
    (h : slabVirtualAlloc ((Sys.run es).slab.setFreshOnly freshOnly) pages = (some virt, s')) :
    (∀ a, inRun virt pages a → .mapped a ∈ (Sys.run es).slab.log →
        Flushed (Sys.run es).slab.log a) ∧
      (freshOnly = true →
        (Sys.run es).slab.virtualDirty = true ∨ (Sys.run es).slab.flushActive = true →
        ∀ a, inRun virt pages a → .mapped a ∉ (Sys.run es).slab.log) := by
  obtain ⟨ps, hs⟩ := (run_ok hl).slab
  have hm := run_flushOk hl
  have hvm : VmOk ((Sys.run es).slab.setFreshOnly freshOnly) := hs.vm.congr rfl hs.vm.known
  have hspec := slabVirtualAlloc_spec hvm h
  rcases hspec.fresh virt rfl with ⟨hd, hf⟩ | hnew
  · have hd' : (Sys.run es).slab.virtualDirty = false := hd
    have hf' : (Sys.run es).slab.flushActive = false := hf
    refine ⟨fun a _ _ => hm.calm hf' hd' a, ?_⟩
    intro _ hbusy
    rw [hd', hf'] at hbusy
    simp at hbusy
  · refine ⟨fun a ha hmap => absurd (hm.known a hmap) (hnew a ha), ?_⟩
    intro _ _ a ha hmap
    exact hnew a ha (hm.known a hmap)

/-- Thread 1 frees an extent, thread 0 finds the region dirty and then a flush by thread 2
under way, which is over when it comes back. -/
def lateFresh : List (Nat × Act) :=
  [(1, .call (.alloc 5000)), (1, .serve 2), (1, .free (slabPrimaryStart + 40) true),
    (0, .call (.alloc 5000)), (0, .serve 2), (2, .callFlush), (2, .flushStep 0),
    (0, .flushStep 0), (2, .flushStep 0), (2, .flushStep 0), (2, .flushStep 0), (2, .flushStep 0),
    (2, .flushStep 0)]

theorem lateFresh_legal : LegalRun lateFresh :=
  ⟨trivial, trivial, trivial, trivial, trivial, trivial, trivial, trivial, trivial, trivial,
    trivial, trivial, trivial, trivial⟩

theorem lateFresh_alloc :
    (slabVirtualAlloc ((Sys.run lateFresh).slab.setFreshOnly true) 2).1 =
      some slabPrimaryStart := by
  decide +kernel

theorem lateFresh_mapped : Note.mapped slabPrimaryStart ∈ (Sys.run lateFresh).slab.log := by
  decide +kernel

/-- With `slab_fresh_only` set, an address that was mapped before comes back. -/
theorem lateFresh_recycles :
    LegalRun lateFresh ∧ (Sys.run lateFresh).pc 0 = .fresh (.alloc 5000) ∧
      (slabVirtualAlloc ((Sys.run lateFresh).slab.setFreshOnly true) (slabExtentPages 5000)).1 =
        some slabPrimaryStart ∧
      Note.mapped slabPrimaryStart ∈ (Sys.run lateFresh).slab.log :=
  ⟨lateFresh_legal, by decide +kernel, lateFresh_alloc, lateFresh_mapped⟩

theorem lateFresh_flushed :
    LegalRun lateFresh ∧ Flushed (Sys.run lateFresh).slab.log slabPrimaryStart :=
  ⟨lateFresh_legal, (slab_virtual_recycled lateFresh lateFresh_legal true 2 slabPrimaryStart _
    (Prod.ext lateFresh_alloc rfl)).1 slabPrimaryStart (by decide) lateFresh_mapped⟩

end Lebirun.Slab
