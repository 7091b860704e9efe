import Mathlib
import Lebirun.Paging.Words

namespace Lebirun.Paging
open Bits
set_option autoImplicit true

/-! The direct window: the pages at their physical address behind `KERNEL_VMA`. -/

variable {s s' : State} {a p pd v : Nat} {i j k : Fin 512}

/-- The page of a physical address in the window. -/
def direct (p : Nat) : Page := page (p + KERNEL_VMA)

theorem ix_val (v shift : Nat) : (ix v shift).val = v / 2 ^ shift % 512 := by
  show (v >>> shift) % 512 = _
  rw [Nat.shiftRight_eq_div_pow]

theorem direct_directory (hp : p < 2 ^ 30) : ix (p + KERNEL_VMA) 30 = 510 := by
  apply Fin.ext
  rw [ix_val]
  show (p + 0xffffffff80000000) / 2 ^ 30 % 512 = 510
  omega

theorem direct_offset (p : Nat) : p + KERNEL_VMA &&& 0x1ff000 = (ix (p + KERNEL_VMA) 12).val * PAGE_SIZE := by
  have h : p + KERNEL_VMA &&& 0x1ff000 = (p + KERNEL_VMA) / 2 ^ 12 % 2 ^ 9 * 2 ^ 12 := and_field _ 9 12
  rw [h, ix_val]
  rfl

/-- A page is mapped in the window, and can be written there. -/
def Direct (M : Page → Option Mapping) (p : Nat) : Prop :=
  p < HEAP_START - KERNEL_VMA ∧ ∃ m, M (direct p) = some m ∧ m.phys = p ∧ m.flags &&& 2 ≠ 0

theorem getKernelPd_eq (h : Wf s) (v : Nat) : ptGetKernelPd s v = addr s (.pd (ix v 30)) := by
  rw [ptGetKernelPd, addr, directoryAt]
  by_cases hp : s.mem s.pdptHigh (ix v 30) &&& 1 = 0
  · rw [if_pos hp, if_pos hp]
  · rw [if_neg hp, if_neg hp, masks_eq (h.directory _ hp).1]

theorem entry_of_some (ha : addr s (.pd i) = some a) : entry s i j = s.mem a j := by
  rw [entry, ha]
  rfl

theorem addr_table (ha : addr s (.pd i) = some a) (hp : entry s i j &&& 1 ≠ 0) (hh : entry s i j &&& 0x80 = 0) :
    addr s (.pt i j) = some (entry s i j &&& PHYS_MASK) := by
  rw [addr_pt, ha, Option.bind_some, tableAt, if_neg (by rintro (h | h); exacts [hp h, h hh])]

theorem leaf_of_table (ha : addr s (.pd i) = some a) (hp : entry s i j &&& 1 ≠ 0) (hh : entry s i j &&& 0x80 = 0) :
    leaf s i j k = s.mem (entry s i j &&& PHYS_MASK) k := by
  rw [leaf, addr_table ha hp hh]
  rfl

theorem directMapOk_iff (h : Wf s) (hp : p &&& PHYS_MASK = p) : ptDirectMapOk s p = true ↔ Direct (space s) p := by
  rw [ptDirectMapOk, page_of_phys hp]
  dsimp only
  by_cases hlt : HEAP_START - KERNEL_VMA ≤ p
  · rw [if_pos hlt]
    exact ⟨fun h' => absurd h' Bool.false_ne_true, fun h' => absurd hlt (Nat.not_le.2 h'.1)⟩
  have hlt' : p < HEAP_START - KERNEL_VMA := Nat.not_le.1 hlt
  rw [if_neg hlt, getKernelPd_eq h]
  have hspace : space s (direct p) = lookup s (ix (p + KERNEL_VMA) 30) (ix (p + KERNEL_VMA) 21) (ix (p + KERNEL_VMA) 12) :=
    rfl
  rw [Direct, hspace, direct_offset]
  cases ha : addr s (.pd (ix (p + KERNEL_VMA) 30)) with
  | none =>
    rw [lookup_absent (by rw [entry_of_none ha, Nat.zero_and])]
    exact ⟨fun h' => absurd h' Bool.false_ne_true, by rintro ⟨_, _, h', _⟩; cases h'⟩
  | some a =>
    dsimp only
    rw [← entry_of_some ha, lookup]
    generalize ix (p + KERNEL_VMA) 30 = i at *
    generalize ix (p + KERNEL_VMA) 21 = j at *
    generalize ix (p + KERNEL_VMA) 12 = k at *
    by_cases hpresent : entry s i j &&& 1 = 0
    · rw [if_pos hpresent, if_pos (by rw [Ne, three_iff]; exact fun h' => h'.1 hpresent)]
      exact ⟨fun h' => absurd h' Bool.false_ne_true, by rintro ⟨_, _, h', _⟩; cases h'⟩
    rw [if_neg hpresent]
    by_cases hhuge : entry s i j &&& 0x80 = 0
    · have hclean := h.table i j hpresent hhuge
      rw [if_neg (not_not_intro (three_iff.2 ⟨hpresent, hclean.2⟩)), if_neg (not_not_intro hhuge),
        if_neg (not_not_intro hhuge), ← leaf_of_table ha hpresent hhuge, decide_eq_true_iff, three_iff]
      constructor
      · rintro ⟨⟨hp1, hp2⟩, hphys⟩
        refine ⟨hlt', _, if_neg hp1, hphys, ?_⟩
        rw [and_sub (by decide)]
        exact hp2
      · rintro ⟨-, m, hm, hphys, hwrite⟩
        by_cases hp1 : leaf s i j k &&& 1 = 0
        · rw [if_pos hp1] at hm
          cases hm
        · rw [if_neg hp1] at hm
          injection hm with hm
          subst hm
          rw [and_sub (by decide)] at hwrite
          exact ⟨⟨hp1, hwrite⟩, hphys⟩
    · rw [if_pos hhuge, if_pos hhuge]
      by_cases hwrite : entry s i j &&& 2 = 0
      · rw [if_pos (by rw [Ne, three_iff]; exact fun h' => h'.2 hwrite)]
        constructor
        · exact fun h' => absurd h' Bool.false_ne_true
        · rintro ⟨-, m, hm, -, hm2⟩
          injection hm with hm
          subst hm
          rw [leafFlags_and _ (by decide) (by decide)] at hm2
          exact absurd hwrite hm2
      · rw [if_neg (not_not_intro (three_iff.2 ⟨hpresent, hwrite⟩)), decide_eq_true_iff]
        constructor
        · intro hphys
          refine ⟨hlt', _, rfl, hphys, ?_⟩
          rw [leafFlags_and _ (by decide) (by decide)]
          exact hwrite
        · rintro ⟨-, m, hm, hphys, -⟩
          injection hm with hm
          subst hm
          exact hphys

/-! The allocation of a table, and of a page directory. -/

/-- No free frame is mapped in the window. -/
def Exhausted (s : State) : Prop := ∀ p ∈ s.pages, ¬Direct (space s) p

theorem allocPtPage_none (h : Wf s) (ha : ptAllocPtPage s = (s', none)) : s' = s ∧ Exhausted s := by
  rw [ptAllocPtPage] at ha
  cases hf : s.pages.find? (ptDirectMapOk s) with
  | none =>
    rw [hf] at ha
    refine ⟨(Prod.mk.inj ha).1.symm, fun p hp hd => ?_⟩
    exact List.find?_eq_none.1 hf p hp ((directMapOk_iff h (h.free p hp).1).2 hd)
  | some p =>
    rw [hf] at ha
    cases (Prod.mk.inj ha).2

theorem allocPtPage_some (h : Wf s) (ha : ptAllocPtPage s = (s', some p)) :
    s' = s.take p ∧ p ∈ s.pages ∧ Direct (space s) p := by
  rw [ptAllocPtPage] at ha
  cases hf : s.pages.find? (ptDirectMapOk s) with
  | none =>
    rw [hf] at ha
    cases (Prod.mk.inj ha).2
  | some q =>
    rw [hf] at ha
    obtain ⟨hs, hq⟩ := Prod.mk.inj ha
    injection hq with hq
    subst hq
    have hmem := List.mem_of_find?_eq_some hf
    exact ⟨hs.symm, hmem, (directMapOk_iff h (h.free q hmem).1).1 (List.find?_some hf)⟩

theorem ensureKernelPd_none (h : Wf s) (he : ptEnsureKernelPd s v = (s', none)) : s' = s ∧ Exhausted s := by
  rw [ptEnsureKernelPd] at he
  by_cases hp : s.mem s.pdptHigh (ix v 30) &&& 1 ≠ 0
  · rw [if_pos hp] at he
    cases (Prod.mk.inj he).2
  rw [if_neg hp] at he
  cases hr : ptAllocPtPage s with
  | mk s₁ r =>
    cases r with
    | none =>
      rw [hr] at he
      rw [← (Prod.mk.inj he).1]
      exact allocPtPage_none h hr
    | some p =>
      rw [hr] at he
      cases (Prod.mk.inj he).2

theorem ensureKernelPd_some (h : Wf s) (he : ptEnsureKernelPd s v = (s', some pd)) :
    Keeps s s' ∧ space s' = space s ∧ addr s' (.pd (ix v 30)) = some pd := by
  rw [ptEnsureKernelPd] at he
  by_cases hp : s.mem s.pdptHigh (ix v 30) &&& 1 = 0
  · rw [if_neg (not_not_intro hp)] at he
    cases hr : ptAllocPtPage s with
    | mk s₁ r =>
      cases r with
      | none =>
        rw [hr] at he
        cases (Prod.mk.inj he).2
      | some p =>
        rw [hr] at he
        obtain ⟨hs, hpd⟩ := Prod.mk.inj he
        injection hpd with hpd
        subst hpd
        obtain ⟨rfl, hmem, -⟩ := allocPtPage_some h hr
        obtain ⟨hclean, -, hleads⟩ := table_word (h.free p hmem).1 (f := 3) (.inl rfl)
        have hinst : InstallsDirectory s (ix v 30) p (p &&& PAGE_MASK ||| 3) :=
          ⟨h, if_pos hp, hmem, hclean, hleads⟩
        subst hs
        refine ⟨hinst.keeps, hinst.space_eq, ?_⟩
        exact hinst.directory_eq.trans (if_pos rfl)
  · rw [if_pos hp] at he
    obtain ⟨rfl, hpd⟩ := Prod.mk.inj he
    injection hpd with hpd
    refine ⟨.refl h, rfl, ?_⟩
    rw [addr, directoryAt, if_neg hp, ← masks_eq (h.directory _ hp).1, hpd]

end Lebirun.Paging
