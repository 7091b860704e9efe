import Mathlib
import Lebirun.Lib.Run
import Lebirun.Paging.Maps

namespace Lebirun.Paging
open Machine
set_option autoImplicit true

/-! Runs of calls under `vmm_pae_lock`. -/

inductive Call where
  | mapPage (virtAddr physAddr flags : Nat)
  | mapPageEarly (virtAddr physAddr flags : Nat)
  | mapHugePage (virtAddr physAddr flags : Nat)
  | mapRangeAlloc (virtAddr size flags : Nat)
  | heapMapPage (virtAddr : Nat)
  | unmapPage (virtAddr : Nat)
  | ensurePhysMapped (physAddr : Nat)

/-- The state after a call, and whether the call came to its end. -/
def execute (s : State) : Call → State × Bool
  | .mapPage v p f => vmmMapPagePae s v p f
  | .mapPageEarly v p f => vmmMapPageEarlyPae s v p f
  | .mapHugePage v p f => ((vmmMapHugePagePae s v p f).1, (vmmMapHugePagePae s v p f).2 = 0)
  | .mapRangeAlloc v size f => vmmMapRangeAllocPae s v size f
  | .heapMapPage v => ((heapMapPagePae s v).1, (heapMapPagePae s v).2 = 0)
  | .unmapPage v => vmmUnmapPagePae s v
  | .ensurePhysMapped p => ((ptEnsurePhysMapped s p).1, (ptEnsurePhysMapped s p).2 = 0)

def step (s : State) (c : Call) : State := (execute s c).1

/-- The addresses of the kernel. -/
def Kernel (v : Nat) : Prop := KERNEL_VMA ≤ v ∧ v < 2 ^ 64

def Call.Valid : Call → Prop
  | .mapPage v _ _ => Kernel v
  | .mapPageEarly v p _ => Kernel v ∧ p < 2 ^ 52
  | .mapHugePage v _ _ => Kernel v
  | .mapRangeAlloc v _ _ => Kernel v
  | .heapMapPage v => Kernel v
  | .unmapPage v => Kernel v
  | .ensurePhysMapped _ => True

/-! What the calls mean for the pages, every other page being as it was. -/

/-- The page of an address gets another mapping. -/
def Sets (s s' : State) (v : Nat) (m : Option Mapping) : Prop := space s' = Function.update (space s) (page v) m

def Same (s s' : State) : Prop := space s' = space s

/-- A page without a frame gets one, and one that has a frame keeps it and the bit that forbids execution. -/
def Filled (f v : Nat) (s s' : State) : Prop :=
  (space s (page v) = none ∧ ∃ q, Taken s s' q ∧ Sets s s' v (mapped q (f &&& 0xfff))) ∨
    ∃ m, space s (page v) = some m ∧ Sets s s' v (mapped m.phys (m.flags &&& VMM_PTE_NX ||| f &&& 0xfff))

/-- The pages are filled in order, up to one for which there is no table or no frame. -/
inductive Rounds (f : Nat) : List Nat → State → State → Bool → Prop
  | nil : Rounds f [] s s true
  | stop : Same s s' → Exhausted s' ∨ s'.frames = [] → Rounds f (v :: vs) s s' false
  | next : Filled f v s s₁ → Rounds f vs s₁ s' r → Rounds f (v :: vs) s s' r

def Effect (s s' : State) (done : Bool) : Call → Prop
  | .mapPage v p f =>
    done = true ∧ Sets s s' v (mapped (p &&& PHYS_MASK) (kernelBits f)) ∨
      done = true ∧ Same s s' ∧ Already (space s) v p f ∨ done = false ∧ Same s s' ∧ Exhausted s'
  | .mapPageEarly v p f =>
    done = true ∧ Sets s s' v (mapped (p &&& PHYS_MASK) (f &&& 0xfffffffffffffffb &&& 0xfff)) ∨ done = false ∧ Same s s'
  | .mapHugePage v p f =>
    done = true ∧ p % VMM_HUGE_PAGE_SIZE = 0 ∧ space s' = setLarge (space s) v p (kernelBits f) ∨
      done = false ∧ Same s s' ∧ ((v ||| p) &&& (VMM_HUGE_PAGE_SIZE - 1) ≠ 0 ∨ PHYSICAL_ADDRESS_LIMIT ≤ p ∨
        Exhausted s' ∨ ∃ b, addr s' (.pt (ix v 30) (ix v 21)) = some b)
  | .mapRangeAlloc v size f =>
    Rounds (f &&& 0xfffffffffffffffb) (if size = 0 then [] else rangePages v size) s s' done
  | .heapMapPage v =>
    done = true ∧ (∃ q, Taken s s' q ∧ Sets s s' v (mapped q 3)) ∨ done = false ∧ Same s s' ∧ Exhausted s' ∨
      done = false ∧ Sets s s' v none ∧ s'.frames = []
  | .unmapPage v => done = true ∧ Sets s s' v none ∨ done = false ∧ Same s s' ∧ Exhausted s'
  | .ensurePhysMapped p =>
    (done = true → Direct (space s') (p &&& PAGE_MASK)) ∧
      (Same s s' ∨ done = true ∧ space s (direct (p &&& PAGE_MASK)) = none ∧
        Sets s s' ((p &&& PAGE_MASK) + KERNEL_VMA) (mapped (p &&& PAGE_MASK) 3)) ∧
      (done = false → Direct (space s) (p &&& PAGE_MASK) → Exhausted s')

variable {s s' : State} {f v : Nat} {c : Call} {cs : List Call} {vs : List Nat}

theorem mapAllocLoop_spec (hf : f &&& 4 = 0) (vs : List Nat) : ∀ s : State, Wf s →
    (∀ p ∈ s.frames, p &&& PHYS_MASK = p) → (∀ v ∈ vs, Kernel v) →
    Keeps s (mapAllocLoop f vs s).1 ∧ Rounds f vs s (mapAllocLoop f vs s).1 (mapAllocLoop f vs s).2 := by
  induction vs with
  | nil =>
    intro s h _ _
    exact ⟨.refl h, .nil⟩
  | cons v vs ih =>
    intro s h hframes hvs
    obtain ⟨hv, hlt⟩ := hvs v (.head _)
    have hone := mapAllocPage_spec h hv hlt hframes hf
    rw [mapAllocLoop]
    generalize mapAllocPage s v f = o at hone ⊢
    obtain ⟨s₁, r⟩ := o
    obtain ⟨hk, hone⟩ := hone
    cases r with
    | false =>
      rcases hone with ⟨h0, -⟩ | ⟨h0, -⟩ | ⟨-, hsame, hout⟩
      · cases h0
      · cases h0
      · exact ⟨hk, .stop hsame hout⟩
    | true =>
      have hframes₁ : ∀ p ∈ s₁.frames, p &&& PHYS_MASK = p := fun p hp => hframes p (hk.frames.subset hp)
      obtain ⟨hk', hrest⟩ := ih s₁ hk.wf hframes₁ fun w hw => hvs w (.tail _ hw)
      refine ⟨hk.trans hk', .next ?_ hrest⟩
      rcases hone with ⟨-, hfill⟩ | ⟨-, hfill⟩ | ⟨h0, -⟩
      · exact .inl hfill
      · exact .inr hfill
      · cases h0

theorem kernel_start (hv : Kernel v) : KERNEL_VMA ≤ v &&& PAGE_MASK := by
  have hle : 0xffffffff80000000 ≤ v := hv.1
  have hlt := hv.2
  rw [page_mask]
  show 0xffffffff80000000 ≤ _
  omega

theorem rangePages_kernel (hv : Kernel v) (size : Nat) : ∀ w ∈ rangePages v size, Kernel w := by
  intro w hw
  obtain ⟨n, hn, rfl⟩ := List.mem_map.1 hw
  rw [List.mem_range] at hn
  have hstart := kernel_start hv
  have hlast : (v + size + PAGE_SIZE - 1) % 2 ^ 64 &&& PAGE_MASK < 2 ^ 64 :=
    Nat.and_le_left.trans_lt (Nat.mod_lt _ (by decide))
  generalize (v + size + PAGE_SIZE - 1) % 2 ^ 64 &&& PAGE_MASK = last at hn hlast
  generalize v &&& PAGE_MASK = start at hn hstart ⊢
  refine ⟨hstart.trans (Nat.le_add_right _ _), ?_⟩
  have hpos := Nat.mul_le_of_le_div PAGE_SIZE (n + 1) (last - start) hn
  change (n + 1) * 4096 ≤ _ at hpos
  show start + n * 4096 < 2 ^ 64
  omega

/-- Each call does to the pages what it says. -/
theorem execute_effect (h : Wf s) (hframes : ∀ p ∈ s.frames, p &&& PHYS_MASK = p) (hc : c.Valid) :
    Keeps s (execute s c).1 ∧ Effect s (execute s c).1 (execute s c).2 c := by
  cases c with
  | mapPage v p f => exact vmmMapPagePae_spec h hc.1 hc.2 p f
  | mapPageEarly v p f => exact vmmMapPageEarlyPae_spec h hc.1.1 hc.1.2 hc.2 f
  | mapHugePage v p f =>
    obtain ⟨hk, hdone⟩ := vmmMapHugePagePae_spec h hc.1 hc.2 p f
    refine ⟨hk, ?_⟩
    rcases hdone with ⟨h0, hdone⟩ | ⟨h1, hdone⟩
    · exact .inl ⟨decide_eq_true h0, hdone⟩
    · exact .inr ⟨decide_eq_false (by rw [h1]; decide), hdone⟩
  | mapRangeAlloc v size f =>
    rw [execute, vmmMapRangeAllocPae]
    by_cases hsize : size = 0
    · rw [if_pos hsize]
      refine ⟨.refl h, ?_⟩
      rw [Effect, if_pos hsize]
      exact .nil
    · rw [if_neg hsize, kernelFlags_eq (kernel_start hc), Effect, if_neg hsize]
      exact mapAllocLoop_spec (and_user f) _ s h hframes (rangePages_kernel hc size)
  | heapMapPage v =>
    obtain ⟨hk, hdone⟩ := heapMapPagePae_spec h v hframes
    refine ⟨hk, ?_⟩
    rcases hdone with ⟨h0, hdone⟩ | ⟨h1, hdone⟩ | ⟨h1, hdone⟩
    · exact .inl ⟨decide_eq_true h0, hdone⟩
    · exact .inr (.inl ⟨decide_eq_false (by rw [h1]; decide), hdone⟩)
    · exact .inr (.inr ⟨decide_eq_false (by rw [h1]; decide), hdone⟩)
  | unmapPage v => exact vmmUnmapPagePae_spec h hc.1 hc.2
  | ensurePhysMapped p =>
    have hdone : Ensured s (p &&& PAGE_MASK) (ptEnsurePhysMapped s p) := ensureMapped_spec h p
    refine ⟨hdone.keeps, fun h0 => hdone.done (of_decide_eq_true h0), ?_, ?_⟩
    · rcases hdone.space_eq with hsame | ⟨h0, -, hnone, hset⟩
      · exact .inl hsame
      · exact .inr ⟨decide_eq_true h0, hnone, hset⟩
    · intro h0 hd
      rcases hdone.code with hcode | hcode
      · exact absurd hcode (of_decide_eq_false h0)
      · exact hdone.failed hcode hd

/-- A step of a run: the tables stay a tree, only tables are written, the pages change as the call says, and what the
walk of the tables finds is what the pages are mapped to. -/
def Refines (s : State) (c : Call) : Prop :=
  Keeps s (step s c) ∧ Effect s (step s c) (execute s c).2 c ∧
    ∀ v, Kernel v → translate (step s c) v = space (step s c) (page v)

/-- The first 2 MiB in a large page of the window, with two free frames in it. -/
def smallTables : State where
  pml4 := 0x1000
  pdptHigh := 0x2000
  pdptLow := 0
  mem p i :=
    if p = 0x1000 then if i.val = 511 then 0x2003 else 0
    else if p = 0x2000 then if i.val = 510 then 0x3003 else 0
    else if p = 0x3000 then if i.val = 0 then 0x83 else 0
    else 0
  pages := [0x5000, 0x6000]
  frames := [0x10000]
  lowIdentityActive := false
  heapPtCount := 0
  vmmPtCount := 0

theorem smallTables_directory (i : Fin 512) : addr smallTables (.pd i) = if i.val = 510 then some 0x3000 else none := by
  have hmem : addr smallTables (.pd i) = directoryAt (if i.val = 510 then 0x3003 else 0) := rfl
  rw [hmem]
  by_cases hi : i.val = 510
  · rw [if_pos hi, if_pos hi]
    rfl
  · rw [if_neg hi, if_neg hi]
    rfl

theorem smallTables_entry (i j : Fin 512) : entry smallTables i j = if i.val = 510 ∧ j.val = 0 then 0x83 else 0 := by
  rw [entry, smallTables_directory]
  by_cases hi : i.val = 510
  · have hmem : smallTables.mem 0x3000 j = if j.val = 0 then 0x83 else 0 := rfl
    rw [if_pos hi, Option.elim_some, hmem]
    by_cases hj : j.val = 0
    · rw [if_pos hj, if_pos ⟨hi, hj⟩]
    · rw [if_neg hj, if_neg fun h' => hj h'.2]
  · rw [if_neg hi, if_neg fun h' => hi h'.1]
    rfl

theorem smallTables_node (h : addr smallTables n = some a) :
    (a = 0x1000 ∧ n = .pml4) ∨ (a = 0x2000 ∧ n = .pdpt) ∨ a = 0x3000 ∧ n = .pd 510 := by
  cases n with
  | pml4 =>
    injection h with h
    exact .inl ⟨h.symm, rfl⟩
  | pdpt =>
    injection h with h
    exact .inr (.inl ⟨h.symm, rfl⟩)
  | pd i =>
    rw [smallTables_directory] at h
    by_cases hi : i.val = 510
    · rw [if_pos hi] at h
      injection h with h
      exact .inr (.inr ⟨h.symm, congrArg Node.pd (Fin.ext hi)⟩)
    · rw [if_neg hi] at h
      cases h
  | pt i j =>
    obtain ⟨hp, hs, -⟩ := table_entry h
    rw [smallTables_entry] at hp hs
    by_cases hij : i.val = 510 ∧ j.val = 0
    · rw [if_pos hij] at hs
      exact absurd hs (by decide)
    · rw [if_neg hij] at hp
      exact absurd rfl hp

theorem smallTables_wf : Wf smallTables where
  root := by decide
  high := ⟨by decide, ⟨by decide, by decide⟩, by decide⟩
  distinct n m a hn hm := by
    rcases smallTables_node hn with ⟨rfl, rfl⟩ | ⟨rfl, rfl⟩ | ⟨rfl, rfl⟩
    · rcases smallTables_node hm with ⟨-, rfl⟩ | ⟨h, -⟩ | ⟨h, -⟩
      · rfl
      · exact absurd h (by decide)
      · exact absurd h (by decide)
    · rcases smallTables_node hm with ⟨h, -⟩ | ⟨-, rfl⟩ | ⟨h, -⟩
      · exact absurd h (by decide)
      · rfl
      · exact absurd h (by decide)
    · rcases smallTables_node hm with ⟨h, -⟩ | ⟨h, -⟩ | ⟨-, rfl⟩
      · exact absurd h (by decide)
      · exact absurd h (by decide)
      · rfl
  directory i hp := by
    have hmem : smallTables.mem smallTables.pdptHigh i = if i.val = 510 then 0x3003 else 0 := rfl
    rw [hmem] at hp ⊢
    by_cases hi : i.val = 510
    · rw [if_pos hi]
      exact ⟨by decide, by decide⟩
    · rw [if_neg hi] at hp
      exact absurd rfl hp
  table i j hp hs := by
    rw [smallTables_entry] at hp hs
    by_cases hij : i.val = 510 ∧ j.val = 0
    · rw [if_pos hij] at hs
      exact absurd hs (by decide)
    · rw [if_neg hij] at hp
      exact absurd rfl hp
  free p hp := by
    have hpages : p = 0x5000 ∨ p = 0x6000 := by simpa [smallTables] using hp
    rcases hpages with rfl | rfl
    · refine ⟨by decide, fun n hn => ?_⟩
      rcases smallTables_node hn with ⟨h, -⟩ | ⟨h, -⟩ | ⟨h, -⟩
      · exact absurd h (by decide)
      · exact absurd h (by decide)
      · exact absurd h (by decide)
    · refine ⟨by decide, fun n hn => ?_⟩
      rcases smallTables_node hn with ⟨h, -⟩ | ⟨h, -⟩ | ⟨h, -⟩
      · exact absurd h (by decide)
      · exact absurd h (by decide)
      · exact absurd h (by decide)
  nodup := by decide

end Lebirun.Paging
