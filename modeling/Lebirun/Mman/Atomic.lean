import Lebirun.Mman.Calls

/-!
When a failed call leaves the records of every address and the page table as they were.
-/

namespace Lebirun.Mman
set_option autoImplicit true
open Worklist

/-- The areas record the same of every address, and the page table is the same. -/
def Same (s s' : Vm) : Prop :=
  (∀ x, recordsAt s'.file.maps x = recordsAt s.file.maps x) ∧ s'.pages = s.pages

/-- A call that returns an error has changed nothing. -/
def Keeps (s : Vm) (result : Int × Vm) : Prop := result.1 < 0 → Same s result.2

theorem Same.refl : Same s s := ⟨fun _ => rfl, rfl⟩

theorem keeps_same : Keeps s (result, s) := fun _ => .refl

theorem keeps_done (h : 0 ≤ result) : Keeps s (result, s') := fun hr => absurd h (Int.not_le.mpr hr)

theorem keeps_error (h : result < 0) : Keeps s (result, s') ↔ Same s s' :=
  ⟨fun hk => hk h, fun hs _ => hs⟩

theorem advise_idem (bits clear : BitVec 32) (m : Marks) :
    adviseMarks bits clear (adviseMarks bits clear m) = adviseMarks bits clear m := by
  unfold adviseMarks
  congr 1
  ext i
  simp
  grind

theorem protect_idem (flags : BitVec 64) (m : Marks) :
    protectMarks flags (protectMarks flags m) = protectMarks flags m := by
  unfold protectMarks
  congr 1
  · ext i
    simp
    grind
  · split
    · ext i
      simp
    · rfl

variable {o : Answers} {s : Vm} {m : FileMaps} {upd : Marks → Marks} {vaddr stop : Nat}

/-- Where a restricting walk is refused after areas that it changed, its failure shows. -/
def LateRefusal (grants : Nat → Bool) (m : FileMaps) (upd : Marks → Marks) (vaddr stop : Nat) :
    Prop :=
  let t := restrictTurns upd vaddr stop
  ∃ pre, t.Refused (m.fits grants) m.maps.length (t.visits m.maps) pre ∧
    ∃ a ∈ pre, ¬Settled upd vaddr stop a

/-- There is room for all the cuts of a walk. -/
def RoomForAll (grants : Nat → Bool) (m : FileMaps) (t : Turns Area) : Prop :=
  t.Roomy (m.fits grants) m.maps.length (t.visits m.maps)

theorem restrict_unchanged_iff (grants : Nat → Bool) (m : FileMaps) (vaddr stop : Nat)
    (hidem : ∀ m, upd (upd m) = upd m) :
    ((m.walk grants (restrictTurns upd vaddr stop)).1 = false →
      ∀ x, recordsAt (m.walk grants (restrictTurns upd vaddr stop)).2.maps x =
        recordsAt m.maps x) ↔ ¬LateRefusal grants m upd vaddr stop := by
  obtain ⟨hok, hroom, -⟩ | ⟨hno, pre, hpre, hx⟩ :=
    m.walk_ends grants (restrictTurns upd vaddr stop)
  · constructor
    · rintro - ⟨pre, hpre, -⟩
      exact hpre.not_roomy hroom
    · intro _ hf
      exact absurd (hok.symm.trans hf) (by simp)
  · have hsame := restrict_same_iff hidem hx
    constructor
    · rintro hkeep ⟨pre', hpre', a, ha, hns⟩
      obtain rfl := hpre'.unique hpre
      exact hns (hsame.mp (hkeep hno) a ha)
    · intro hlate _
      apply hsame.mpr
      intro a ha
      by_contra hns
      exact hlate ⟨pre, hpre, a, ha, hns⟩

theorem walk_done_iff (grants : Nat → Bool) (m : FileMaps) (t : Turns Area) :
    (m.walk grants t).1 = true ↔ RoomForAll grants m t := by
  obtain ⟨hok, hroom, -⟩ | ⟨hno, pre, hpre, -⟩ := m.walk_ends grants t
  · exact ⟨fun _ => hroom, fun _ => hok⟩
  · constructor
    · intro hok
      exact absurd (hok.symm.trans hno) (by simp)
    · intro hroom
      exact absurd hroom hpre.not_roomy

/-- All the areas that a walk with enough room goes through were settled, or records changed. -/
theorem restrict_done_iff {grants : Nat → Bool} (hidem : ∀ m, upd (upd m) = upd m)
    (hroom : RoomForAll grants m (restrictTurns upd vaddr stop)) :
    (∀ x, recordsAt (m.walk grants (restrictTurns upd vaddr stop)).2.maps x =
        recordsAt m.maps x) ↔
      ∀ a ∈ (restrictTurns upd vaddr stop).visits m.maps, Settled upd vaddr stop a := by
  obtain ⟨-, -, hx⟩ | ⟨hno, -⟩ := m.walk_ends grants (restrictTurns upd vaddr stop)
  · exact restrict_same_iff hidem hx
  · exact absurd (((walk_done_iff _ _ _).mpr hroom).symm.trans hno) (by simp)

theorem status_done {w : Bool × FileMaps} (h : w.1 = true) : status w = (0, w.2) := by
  rw [status, h]
  rfl

theorem status_refused {w : Bool × FileMaps} (h : w.1 = false) : status w = (-1, w.2) := by
  rw [status, h]
  rfl

/-! ### mprotect -/

/-- When `sys_mprotect` changes nothing if it fails: its checks stop it, or room for an area never
runs out after a change, and the other processors acknowledge unless there was nothing to change. -/
def MprotectHolds (o : Answers) (s : Vm) (base length : Nat) (prot : BitVec 32) : Prop :=
  mprotectChecks o s base length prot = none →
    let size := protectSize length
    let upd := protectMarks (mmapPteFlags prot)
    let t := restrictTurns upd base (base + size)
    ¬LateRefusal o.grants s.file upd base (base + size) ∧
      (RoomForAll o.grants s.file t → o.flushed = true ∨
        ((∀ a ∈ t.visits s.file.maps, Settled upd base (base + size) a) ∧
          ∀ p, base / pageSize ≤ p → p < base / pageSize + size / pageSize → ∀ pte,
            s.pages p = some pte → reprotect o (mmapPteFlags prot) pte = some pte))

theorem mprotectChecks_none (h : mprotectChecks o s base length prot = none) :
    protectSize length ≠ 0 ∧ base + protectSize length < 2 ^ 64 := by
  unfold mprotectChecks at h
  simp only at h
  split_ifs at h
  omega

theorem protect_walk (hsize : size ≠ 0) (hend : base + size < 2 ^ 64) :
    taskProtectVmAreas grants m base size flags =
      status (m.walk grants (restrictTurns (protectMarks flags) base (base + size))) := by
  unfold taskProtectVmAreas
  rw [if_neg (by omega)]

theorem protectPages_same_iff {pages : Pages} :
    (protectPages o flags page count pages).2 = pages ↔
      ∀ p, page ≤ p → p < page + count → ∀ pte, pages p = some pte →
        reprotect o flags pte = some pte := by
  obtain ⟨-, hspec⟩ := protectPages_spec o flags page count pages
  constructor
  · intro h p hp hp' pte hpte
    have := hspec p
    rw [h, if_pos ⟨hp, hp'⟩, hpte] at this
    exact this.symm
  · intro h
    funext p
    rw [hspec p]
    split
    · cases hp : pages p with
      | none => rfl
      | some pte => exact h p (by omega) (by omega) pte hp
    · rfl

theorem mprotect_keeps_iff (o : Answers) (s : Vm) (base length : Nat) (prot : BitVec 32) :
    Keeps s (sysMprotect o s base length prot) ↔ MprotectHolds o s base length prot := by
  unfold MprotectHolds sysMprotect
  cases hc : mprotectChecks o s base length prot with
  | some result => simp [keeps_same]
  | none =>
    obtain ⟨hsize, hend⟩ := mprotectChecks_none hc
    have hunch := restrict_unchanged_iff o.grants s.file base (base + protectSize length)
      (protect_idem (mmapPteFlags prot))
    have hdone := walk_done_iff o.grants s.file
      (restrictTurns (protectMarks (mmapPteFlags prot)) base (base + protectSize length))
    simp only [forall_const, protect_walk hsize hend, status]
    cases hw : (s.file.walk o.grants (restrictTurns (protectMarks (mmapPteFlags prot)) base
      (base + protectSize length))).1 with
    | false =>
      have hno : ¬RoomForAll o.grants s.file (restrictTurns (protectMarks (mmapPteFlags prot))
          base (base + protectSize length)) := by
        intro hroom
        exact absurd (hdone.mpr hroom) (by simp [hw])
      have hne : (-1 : Int) ≠ 0 := by decide
      simp only [Bool.false_eq_true, if_false, ← hunch, hw, forall_const, hno, false_implies,
        and_true]
      rw [if_pos hne, keeps_error (by decide)]
      exact and_iff_left rfl
    | true =>
      have hroom := hdone.mp hw
      have hpages := (protectPages_spec o (mmapPteFlags prot) (base / pageSize)
        (protectSize length / pageSize) s.pages).1
      have hlate : ¬LateRefusal o.grants s.file (protectMarks (mmapPteFlags prot)) base
          (base + protectSize length) := by
        apply hunch.mp
        intro hf
        exact absurd (hw.symm.trans hf) (by simp)
      simp only [if_true, hpages, hroom, hlate, not_false_iff, true_and, true_implies]
      cases hfl : o.flushed with
      | true => simp [Keeps]
      | false =>
        rw [← protectPages_same_iff, ← restrict_done_iff (protect_idem _) hroom]
        simp only [Bool.not_true, Bool.false_eq_true, if_false, Bool.not_false, if_true, ne_eq,
          not_true_eq_false, false_or]
        exact keeps_error (by decide)

/-! ### madvise -/

/-- When `sys_madvise` changes nothing if it fails: only the advice about forks can fail after a
change, where the room it has reserved is not enough. -/
def MadviseHolds (o : Answers) (s : Vm) (base length : Nat) (advice : Int) : Prop :=
  madviseChecks base length advice = none →
    advice = 10 ∨ advice = 11 ∨ advice = 18 ∨ advice = 19 →
    forkChecks s base (alignUp length) advice = none →
    ∀ file, s.file.reserve o.grants 2 = some file →
      ¬LateRefusal o.grants file (adviseMarks (adviceBits advice).1 (adviceBits advice).2) base
        (base + alignUp length)

theorem reserve_some {grants : Nat → Bool} (h : m.reserve grants additional = some m') :
    m'.maps = m.maps ∧ m.maps.length + additional ≤ m'.capacity := by
  unfold FileMaps.reserve at h
  split at h
  · cases h
  · split at h
    · cases h
    · rename_i hcap
      obtain rfl := Option.some.inj h
      refine ⟨rfl, ?_⟩
      unfold taskEnsureFileMapCapacity at hcap
      grind

theorem madviseChecks_none (h : madviseChecks base length advice = none) :
    alignUp length ≠ 0 ∧ base + alignUp length < 2 ^ 64 := by
  unfold madviseChecks at h
  simp only at h
  split_ifs at h
  omega

theorem advise_none (hr : m.reserve grants 2 = none) :
    taskAdviseVmAreas grants m base size bits clear = (-1, m) := by
  simp [taskAdviseVmAreas, hr]

theorem advise_walk (hsize : size ≠ 0) (hend : base + size < 2 ^ 64)
    (hr : m.reserve grants 2 = some m') :
    taskAdviseVmAreas grants m base size bits clear =
      status (m'.walk grants (restrictTurns (adviseMarks bits clear) base (base + size))) := by
  unfold taskAdviseVmAreas
  rw [if_neg (by omega), hr]

theorem adviseFork_keeps_iff (hsize : size ≠ 0) (hend : base + size < 2 ^ 64) :
    Keeps s (adviseFork o s base size advice) ↔
      (forkChecks s base size advice = none → ∀ file, s.file.reserve o.grants 2 = some file →
        ¬LateRefusal o.grants file (adviseMarks (adviceBits advice).1 (adviceBits advice).2) base
          (base + size)) := by
  unfold adviseFork
  cases hc : forkChecks s base size advice with
  | some result => simp [keeps_same]
  | none =>
    simp only [forall_const]
    generalize ht : taskAdviseVmAreas o.grants s.file base size (adviceBits advice).1
      (adviceBits advice).2 = t
    cases hr : s.file.reserve o.grants 2 with
    | none =>
      obtain rfl := (advise_none hr).symm.trans ht
      simp [keeps_same]
    | some file =>
      obtain ⟨hmaps, -⟩ := reserve_some hr
      obtain rfl := (advise_walk hsize hend hr).symm.trans ht
      simp only [Option.some.injEq, forall_eq']
      rw [← restrict_unchanged_iff _ _ _ _ (advise_idem _ _)]
      cases hw : (file.walk o.grants (restrictTurns
        (adviseMarks (adviceBits advice).1 (adviceBits advice).2) base (base + size))).1 with
      | true =>
        rw [status_done hw]
        exact iff_of_true (keeps_done (le_refl _)) (fun hf => by cases hf)
      | false =>
        rw [status_refused hw, hmaps]
        simp only [forall_const]
        exact (keeps_error (by simp [enomem])).trans (and_iff_left rfl)

theorem madvise_keeps_iff (o : Answers) (s : Vm) (base length : Nat) (advice : Int) :
    Keeps s (sysMadvise o s base length advice) ↔ MadviseHolds o s base length advice := by
  unfold MadviseHolds sysMadvise
  cases hc : madviseChecks base length advice with
  | some result => simp [keeps_same]
  | none =>
    obtain ⟨hsize, hend⟩ := madviseChecks_none hc
    simp only [forall_const]
    by_cases hf : advice = 10 ∨ advice = 11 ∨ advice = 18 ∨ advice = 19
    · rw [if_pos hf, adviseFork_keeps_iff hsize hend]
      simp only [hf, forall_const]
    · rw [if_neg hf]
      constructor
      · intro _ h
        exact absurd h hf
      · intro _
        split
        · exact keeps_same
        split
        · split
          · exact keeps_same
          · exact keeps_done (le_refl _)
        split
        · exact keeps_done (le_refl _)
        split
        · exact keeps_same
        split
        · exact keeps_same
        · exact keeps_done (le_refl _)

/-! ### munmap -/

/-- When `sys_munmap` changes nothing if it fails: it stops before the areas, or there is room for
every area that the range is cut out of. -/
def MunmapHolds (o : Answers) (s : Vm) (base length : Nat) : Prop :=
  ∀ stop, munmapRange base length = some stop → 0 ≤ syncUserRange o s base (stop - base) →
    ∀ file, s.file.reserve o.grants 1 = some file →
      RoomForAll o.grants file (unmapTurns base stop)

theorem munmapRange_some (h : munmapRange base length = some stop) : base < stop ∧ stop < 2 ^ 64 := by
  unfold munmapRange at h
  simp only at h
  have : pageSize = 4096 := rfl
  have : kernelVma = 0xFFFFFFFF80000000 := rfl
  split_ifs at h with h1 h2 h3
  · obtain rfl := Option.some.inj h
    omega
  · obtain rfl := Option.some.inj h
    omega

/-- Turns that leave their areas alone do not change the number of areas. -/
theorem lengthAfter_idle {pre : List Area} (hn : 0 < n)
    (h : ∀ a ∈ pre, stop ≤ a.vaddr ∨ a.stop ≤ vaddr) :
    (unmapTurns vaddr stop).lengthAfter n pre = n := by
  induction pre with
  | nil => rfl
  | cons a pre ih =>
    have hidle : (unmapTurns vaddr stop).turn a = .settle (some a) :=
      dif_pos (h a List.mem_cons_self)
    have hlen : n - 1 + ((unmapTurns vaddr stop).turn a).parts.length = n := by
      rw [hidle]
      show n - 1 + 1 = n
      omega
    rw [Turns.lengthAfter, hlen]
    exact ih (fun b hb => h b (List.mem_cons_of_mem a hb))

/-- The room for one more area is enough for the first cut, so a walk that is refused has
unmapped something before. -/
theorem unmap_refused_changes {maps maps' pre : List Area} {grants : Nat → Bool} (hlt : vaddr < stop)
    (hcap : maps.length + 1 ≤ capacity) (hsmall : capacity ≤ int32Max)
    (hpre : (unmapTurns vaddr stop).Refused (fits grants capacity) maps.length
      ((unmapTurns vaddr stop).visits maps) pre)
    (hx : (unmapTurns vaddr stop).Exchanged maps maps' pre) :
    ¬∀ x, recordsAt maps' x = recordsAt maps x := by
  intro hsame
  have hidle := (unmap_same_iff hlt hx).mp hsame
  obtain ⟨a, post, he, -, hfull, -⟩ := hpre
  have hpos : 0 < maps.length := by
    by_contra h0
    obtain rfl : maps = [] := List.eq_nil_of_length_eq_zero (by omega)
    simp [Turns.visits] at he
  rw [lengthAfter_idle hpos hidle] at hfull
  have hfits : fits grants capacity (maps.length + 1) = true := by
    simp only [fits, Bool.and_eq_true, Bool.or_eq_true, decide_eq_true_eq]
    exact ⟨by omega, .inl hcap⟩
  exact absurd (hfits.symm.trans hfull) (by simp)

theorem unmap_walk (hlt : base < stop) (hend : stop < 2 ^ 64) :
    taskUnmapVmAreas grants m base (stop - base) =
      status (m.walk grants (unmapTurns base stop)) := by
  unfold taskUnmapVmAreas
  rw [if_neg (by omega), Nat.add_sub_cancel' hlt.le]

theorem munmap_keeps_iff (o : Answers) (s : Vm) (base length : Nat) :
    Keeps s (sysMunmap o s base length) ↔ MunmapHolds o s base length := by
  unfold MunmapHolds sysMunmap
  cases hc : munmapRange base length with
  | none => simp [keeps_same]
  | some stop =>
    obtain ⟨hlt, hend⟩ := munmapRange_some hc
    simp only [Option.some.injEq, forall_eq']
    by_cases hs : syncUserRange o s base (stop - base) < 0
    · simp only [if_pos hs, keeps_same, true_iff]
      omega
    · rw [if_neg hs]
      simp only [Int.not_lt.mp hs, forall_const]
      cases hr : s.file.reserve o.grants 1 with
      | none => simp [keeps_same]
      | some file =>
        obtain ⟨hmaps, hcap⟩ := reserve_some hr
        simp only [Option.some.injEq, forall_eq']
        generalize ht : taskUnmapVmAreas o.grants file base (stop - base) = t
        obtain rfl := (unmap_walk hlt hend).symm.trans ht
        obtain ⟨hok, hroom, -⟩ | ⟨hno, pre, hpre, hx⟩ :=
          file.walk_ends o.grants (unmapTurns base stop)
        · rw [status_done hok]
          exact iff_of_true (keeps_done (le_refl _)) hroom
        · rw [status_refused hno]
          apply Iff.trans (keeps_error (by decide))
          apply iff_of_false
          · rintro ⟨hsame, -⟩
            exact unmap_refused_changes hlt (by rwa [hmaps]) file.small hpre hx
              (by rwa [hmaps])
          · exact fun hroom => hpre.not_roomy hroom

end Lebirun.Mman
