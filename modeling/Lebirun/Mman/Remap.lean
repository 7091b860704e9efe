import Lebirun.Mman.Atomic

/-!
`mremap` without the fixed flag changes nothing if it fails: the room it has reserved is enough to
cut out the old range, and the pages it maps are taken away again.
-/

namespace Lebirun.Mman
set_option autoImplicit true
open Worklist

variable {o : Answers} {s : Vm} {m : FileMaps}

/-! ### Cutting out a range -/

theorem split_room (grants : Nat → Bool) (address : Nat) (hi : index < m.maps.length)
    (hcap : m.maps.length + 1 ≤ m.capacity) :
    ∃ m', taskSplitVmArea grants m index address = some m' ∧ m'.capacity = m.capacity ∧
      m.maps.length ≤ m'.maps.length ∧ m'.maps.length ≤ m.maps.length + 1 := by
  have hgrow : taskEnsureFileMapCapacity grants m.capacity (m.maps.length + 1) =
      some m.capacity := by
    have := m.small
    rw [taskEnsureFileMapCapacity, if_neg (by omega), if_pos hcap]
  unfold taskSplitVmArea
  simp only [List.getElem?_eq_getElem hi]
  split
  · exact ⟨m, rfl, rfl, le_refl _, by omega⟩
  · split
    · simp_all
    · rename_i hsome
      refine ⟨_, rfl, ?_, ?_, ?_⟩
      · exact Option.some.inj (hsome.symm.trans hgrow)
      · simp
      · simp

theorem isolate_room (grants : Nat → Bool) (hsize : size ≠ 0) (hend : address + size < 2 ^ 64)
    (hcap : m.maps.length + 2 ≤ m.capacity)
    (hfind : m.maps.find? (fun a => a.vaddr ≤ address ∧ address + size ≤ a.stop) = some area) :
    ∃ index file, taskIsolateVmArea grants m address size = (some index, file) := by
  unfold taskIsolateVmArea
  rw [if_neg (by omega)]
  cases hidx : m.maps.findIdx? fun a => a.vaddr ≤ address ∧ address + size ≤ a.stop with
  | none =>
    exfalso
    have := List.findIdx?_eq_none_iff.mp hidx area (List.mem_of_find?_eq_some hfind)
    exact absurd ((List.find?_some hfind).symm.trans this) (by simp)
  | some i =>
    have hi : i < m.maps.length := (List.findIdx?_eq_some_iff_getElem.mp hidx).1
    simp only
    split
    · obtain ⟨m₁, h₁, hc₁, hge, hle⟩ := split_room grants address hi (by omega)
      have hlast : m₁.maps.length - 1 < m₁.maps.length := by omega
      obtain ⟨m₂, h₂, -⟩ := split_room grants (address + size) hlast (by omega)
      rw [h₁]
      simp only [h₂]
      exact ⟨_, _, rfl⟩
    · obtain ⟨m₁, h₁, -⟩ := split_room grants (address + size) hi (by omega)
      rw [h₁]
      exact ⟨_, _, rfl⟩

/-! ### Free ranges -/

/-- The pages of a range of addresses are not mapped. -/
def Unmapped (s : Vm) (addr size : Nat) : Prop :=
  ∀ p, addr / pageSize ≤ p → p ≤ (addr + size - 1) / pageSize → s.pages p = none

theorem Unmapped.end (h : Unmapped s base size) (hlt : len < size) :
    Unmapped s (base + len) (size - len) := by
  intro p hp hp'
  apply h p
  · exact (Nat.div_le_div_right (Nat.le_add_right _ _)).trans hp
  · rwa [Nat.add_assoc, Nat.add_sub_cancel' hlt.le] at hp'

theorem freePages_unmapped (h : userRangeFreePages s addr size 0 0 = true) (hsize : size ≠ 0) :
    Unmapped s addr size := by
  unfold userRangeFreePages at h
  rw [if_neg hsize] at h
  split at h
  · cases h
  · intro p hp hp'
    have hall := (Bool.and_eq_true _ _ ▸ h).2
    have := List.all_eq_true.mp hall p (List.mem_range'_1.mpr (by omega))
    simpa using this

theorem freeMem_unmapped (h : userRangeFreeMem s addr size 0 0 = true) (hsize : size ≠ 0) :
    Unmapped s addr size := by
  unfold userRangeFreeMem at h
  rw [if_neg hsize] at h
  split_ifs at h
  exact freePages_unmapped h hsize

theorem autoBaseFrom_some (h : autoBaseFrom s bottom size cursor = some base)
    (hc : pageSize ∣ cursor) (hs : pageSize ∣ size) :
    pageSize ∣ base ∧ userRangeFreePages s base size 0 0 = true := by
  induction cursor using Nat.strong_induction_on with
  | _ cursor ih =>
    rw [autoBaseFrom] at h
    split_ifs at h with hlt hfree
    · obtain rfl := Option.some.inj h
      exact ⟨Nat.dvd_sub hc hs, hfree⟩
    · exact ih (cursor - pageSize) (by have : pageSize = 4096 := rfl; omega) h
        (Nat.dvd_sub hc (dvd_refl _))

theorem userMmapAutoBase_some (h : userMmapAutoBase s next size = some base)
    (hs : pageSize ∣ size) : pageSize ∣ base ∧ userRangeFreePages s base size 0 0 = true := by
  unfold userMmapAutoBase at h
  split_ifs at h
  · exact autoBaseFrom_some h (Nat.dvd_mul_left _ _) hs
  all_goals
    simp only at h
    split at h
    · rename_i hsome
      obtain rfl := Option.some.inj h
      exact autoBaseFrom_some hsome (Nat.dvd_mul_left _ _) hs
    · exact autoBaseFrom_some h (Nat.dvd_mul_left _ _) hs

theorem alignUp_dvd (v : Nat) : pageSize ∣ alignUp v := Nat.dvd_mul_left _ _

/-- The place that `sys_mremap` finds without the fixed flag is free, or what follows the old
range is. -/
theorem mremapBase_ok (hf : flags &&& 2 = 0) (hbase : pageSize ∣ oldBase) (hs : pageSize ∣ size)
    (hlt : oldLen < size) (h : mremapBase s oldBase oldLen size flags newAddr = .ok base) :
    pageSize ∣ base ∧ (Unmapped s base size ∨
      (base = oldBase ∧ Unmapped s (oldBase + oldLen) (size - oldLen))) := by
  unfold mremapBase at h
  rw [if_neg (not_not.mpr hf)] at h
  split at h
  · rename_i hfree
    obtain rfl := Except.ok.inj h
    exact ⟨hbase, .inr ⟨rfl, freeMem_unmapped hfree (by omega)⟩⟩
  · split at h
    · cases h
    · split at h
      · cases h
      · rename_i hsome
        obtain rfl := Except.ok.inj h
        obtain ⟨hdvd, hfree⟩ := userMmapAutoBase_some hsome hs
        exact ⟨hdvd, .inl (freePages_unmapped hfree (by omega))⟩

/-! ### The calls -/

theorem mapUserPages_restored {size : Nat} (hfree : Unmapped s base size)
    (h : (mapUserPages o base size flags s.pages).1 = false) :
    (mapUserPages o base size flags s.pages).2 = s.pages := by
  apply ((mapUserPages_spec o base size flags s.pages).2 h).restored
  intro p hp hp'
  apply hfree p hp
  simp only [userCount, pageSize] at hp hp' ⊢
  omega

theorem mremapShrink_keeps (hsize : oldLen ≠ 0) (hend : oldBase + oldLen < 2 ^ 64)
    (hfind : s.file.maps.find? (fun a => a.vaddr ≤ oldBase ∧ oldBase + oldLen ≤ a.stop) =
      some original) : Keeps s (mremapShrink o s oldBase oldLen size) := by
  unfold mremapShrink
  split
  · cases hr : s.file.reserve o.grants 2 with
    | none => exact keeps_same
    | some file =>
      obtain ⟨hmaps, hcap⟩ := reserve_some hr
      obtain ⟨index, file', hiso⟩ := isolate_room o.grants hsize hend
        (hmaps ▸ hcap) (hmaps ▸ hfind)
      simp only [hiso]
      exact keeps_done (Int.natCast_nonneg _)
  · exact keeps_done (Int.natCast_nonneg _)

theorem mremapGrow_keeps {file : FileMaps} (hmaps : file.maps = s.file.maps)
    (hfree : Unmapped s (oldBase + oldLen) (size - oldLen))
    (hiso : ∃ index file', taskIsolateVmArea o.grants file oldBase oldLen = (some index, file')) :
    Keeps s (mremapGrow o { s with file := file } original oldBase oldLen size sharedGrowth) := by
  obtain ⟨index, file', hiso⟩ := hiso
  rw [mremapGrow]
  simp only [hiso]
  cases sharedGrowth with
  | false =>
    simp only [Bool.false_eq_true, if_false, Bool.not_true]
    exact keeps_done (Int.natCast_nonneg _)
  | true =>
    simp only [if_true]
    cases hm : (mapUserPages o (oldBase + oldLen) (size - oldLen) original.flags s.pages).1 with
    | false =>
      have hpages := mapUserPages_restored hfree hm
      simp only [Bool.not_false, if_true, hpages]
      intro _
      exact ⟨fun x => by rw [hmaps], rfl⟩
    | true =>
      simp only [Bool.not_true, Bool.false_eq_true, if_false]
      exact keeps_done (Int.natCast_nonneg _)

/-- The pages of a free range are as before once those mapped from its start on and those mapped
at its end have been taken away. -/
theorem pages_restored {grown pages' : Pages} (hbase : pageSize ∣ base) (hlen : pageSize ∣ oldLen)
    (hs : pageSize ∣ size) (hlt : oldLen < size) (hfree : Unmapped s base size)
    (hgrown : AgreeOff ((base + oldLen) / pageSize) (userCount (base + oldLen) (size - oldLen))
      s.pages grown)
    (hx : EmptiedOnly (base / pageSize) (oldLen / pageSize) grown pages') :
    releaseUserLeafRange (base + oldLen) (base + size) pages' = s.pages := by
  obtain ⟨b, rfl⟩ := hbase
  obtain ⟨l, rfl⟩ := hlen
  obtain ⟨z, rfl⟩ := hs
  have hstart : (pageSize * b + pageSize * l) / pageSize = b + l := by
    simp only [pageSize]
    omega
  have hcount : userCount (pageSize * b + pageSize * l) (pageSize * z - pageSize * l) = z - l := by
    simp only [userCount, pageSize] at hlt ⊢
    omega
  have hrel : (pageSize * b + pageSize * z - (pageSize * b + pageSize * l) + (pageSize - 1)) /
      pageSize = z - l := by
    simp only [pageSize] at hlt ⊢
    omega
  have hnone : ∀ p, b ≤ p → p < b + z → s.pages p = none := by
    intro p hp hp'
    apply hfree p
    · simp only [pageSize]
      omega
    · simp only [pageSize]
      omega
  have hb : pageSize * b / pageSize = b := Nat.mul_div_cancel_left b (by decide)
  have hl : pageSize * l / pageSize = l := Nat.mul_div_cancel_left l (by decide)
  rw [hstart, hcount] at hgrown
  rw [hb, hl] at hx
  have hlz : l < z := by
    simp only [pageSize] at hlt
    omega
  funext p
  rw [releaseUserLeafRange, hstart, hrel]
  unfold unmapPages
  split
  · rw [hnone p (by omega) (by omega)]
  · rename_i hp
    obtain he | ⟨hn, hp₁, hp₂⟩ := hx p
    · rw [he, hgrown p hp]
    · rw [hn, hnone p hp₁ (by omega)]

theorem mremapMove_keeps {file : FileMaps} (hmaps : file.maps = s.file.maps)
    (hbase : pageSize ∣ base) (hlen : pageSize ∣ oldLen) (hs : pageSize ∣ size) (hlt : oldLen < size)
    (hfree : Unmapped s base size)
    (hiso : ∃ index file', taskIsolateVmArea o.grants file oldBase oldLen = (some index, file')) :
    Keeps s (mremapMove o { s with file := file } original oldBase oldLen base size sharedGrowth) := by
  obtain ⟨index, file', hiso⟩ := hiso
  have hagain := fun pages : Pages => (mapAgainTurns_spec o (oldBase / pageSize)
    (oldLen / pageSize) 0 (.refl : AgreeOff (base / pageSize) 0 pages pages)).2
  simp only [Nat.zero_add] at hagain
  rw [mremapMove]
  simp only [hiso, if_pos hlt]
  cases sharedGrowth with
  | false =>
    simp only [Bool.false_eq_true, if_false, Bool.not_true]
    cases hm : (mapAgainTurns o (oldBase / pageSize) (base / pageSize) 0 (oldLen / pageSize)
      s.pages).1 with
    | false =>
      have hpages := (hagain s.pages hm).restored (fun p hp hp' => by
        apply hfree p hp
        obtain ⟨b, rfl⟩ := hbase
        obtain ⟨l, rfl⟩ := hlen
        simp only [pageSize] at hlt hp' ⊢
        omega)
      simp only [Bool.not_false, if_true, hpages]
      intro _
      exact ⟨fun x => by rw [hmaps], rfl⟩
    | true =>
      simp only [Bool.not_true, Bool.false_eq_true, if_false]
      exact keeps_done (Int.natCast_nonneg _)
  | true =>
    simp only [if_true]
    cases hg : (mapUserPages o (base + oldLen) (size - oldLen) original.flags s.pages).1 with
    | false =>
      have hpages := mapUserPages_restored (hfree.end hlt) hg
      simp only [Bool.not_false, if_true, hpages]
      intro _
      exact ⟨fun x => by rw [hmaps], rfl⟩
    | true =>
      simp only [Bool.not_true, Bool.false_eq_true, if_false]
      have hgrown := (mapUserPages_spec o (base + oldLen) (size - oldLen) original.flags s.pages).1
      generalize (mapUserPages o (base + oldLen) (size - oldLen) original.flags s.pages).2 = grown
        at hgrown
      cases hm : (mapAgainTurns o (oldBase / pageSize) (base / pageSize) 0 (oldLen / pageSize)
        grown).1 with
      | false =>
        have hpages := pages_restored hbase hlen hs hlt hfree hgrown (hagain grown hm)
        simp only [Bool.not_false, if_true, hpages]
        intro _
        exact ⟨fun x => by rw [hmaps], rfl⟩
      | true =>
        simp only [Bool.not_true, Bool.false_eq_true, if_false]
        exact keeps_done (Int.natCast_nonneg _)

/-- `mremap` without the fixed flag changes nothing if it fails. -/
theorem mremap_keeps (o : Answers) (s : Vm) (oldBase oldSize newSize : Nat) (flags : BitVec 32)
    (newAddr : Nat) (hf : flags &&& 2 = 0) :
    Keeps s (sysMremap o s oldBase oldSize newSize flags newAddr) := by
  unfold sysMremap
  simp only
  split
  · exact keeps_same
  split
  · exact keeps_same
  split
  · exact keeps_same
  split
  · exact keeps_same
  rename_i halign hlen
  have hold : pageSize ∣ oldBase := Nat.dvd_of_mod_eq_zero (by omega)
  cases hfind : s.file.maps.find? (fun a => a.vaddr ≤ oldBase ∧ oldBase + alignUp oldSize ≤ a.stop)
    with
  | none => exact keeps_same
  | some original =>
    simp only
    rw [mremapArea]
    split
    · exact keeps_same
    split
    · exact mremapShrink_keeps (by omega) (by omega) hfind
    rename_i hgrow
    have hlt : alignUp oldSize < alignUp newSize := by
      by_contra hle
      exact hgrow ⟨hf, by omega⟩
    split
    · exact keeps_same
    cases hb : mremapBase s oldBase (alignUp oldSize) (alignUp newSize) flags newAddr with
    | error result => exact keeps_same
    | ok base =>
      obtain ⟨hdvd, hplace⟩ := mremapBase_ok hf hold (alignUp_dvd _) hlt hb
      simp only
      split
      · exact keeps_same
      cases hr : s.file.reserve o.grants 3 with
      | none => exact keeps_same
      | some file =>
        obtain ⟨hmaps, hcap⟩ := reserve_some hr
        have hfind' : file.maps.find?
            (fun a => a.vaddr ≤ oldBase ∧ oldBase + alignUp oldSize ≤ a.stop) = some original := by
          rw [hmaps]
          exact hfind
        have hiso := isolate_room o.grants (by omega) (by omega) (by rw [hmaps]; omega) hfind'
        simp only
        split
        · rename_i he
          subst he
          apply mremapGrow_keeps hmaps _ hiso
          cases hplace with
          | inl hfree => exact hfree.end hlt
          | inr hfree => exact hfree.2
        · rename_i hne
          have hfree : Unmapped s base (alignUp newSize) := hplace.resolve_right (fun h => hne h.1)
          have hcleared : ¬flags &&& 2 ≠ 0 := not_not.mpr hf
          simp only [if_neg hcleared]
          split
          · intro _
            exact ⟨fun x => by rw [hmaps], rfl⟩
          split
          · intro _
            exact ⟨fun x => by rw [hmaps], rfl⟩
          · exact mremapMove_keeps hmaps hdvd (alignUp_dvd _) (alignUp_dvd _) hlt hfree hiso

/-! ### All the calls -/

/-- A call on the areas; `mremap` without the fixed flag. -/
inductive Call where
  | munmap (addr length : Nat)
  | mprotect (addr length : Nat) (prot : BitVec 32)
  | madvise (addr length : Nat) (advice : Int)
  | mremap (oldAddr oldSize newSize : Nat) (flags : { f : BitVec 32 // f &&& 2 = 0 }) (newAddr : Nat)

def Call.run (o : Answers) (s : Vm) : Call → Int × Vm
  | munmap addr length => sysMunmap o s addr length
  | mprotect addr length prot => sysMprotect o s addr length prot
  | madvise addr length advice => sysMadvise o s addr length advice
  | mremap oldAddr oldSize newSize flags newAddr =>
    sysMremap o s oldAddr oldSize newSize flags newAddr

/-- When a call that fails has changed nothing. -/
def Call.Holds (o : Answers) (s : Vm) : Call → Prop
  | munmap addr length => MunmapHolds o s addr length
  | mprotect addr length prot => MprotectHolds o s addr length prot
  | madvise addr length advice => MadviseHolds o s addr length advice
  | mremap _ _ _ _ _ => True

theorem failedCall_keeps_iff (o : Answers) (s : Vm) (call : Call) :
    Keeps s (call.run o s) ↔ call.Holds o s := by
  cases call with
  | munmap addr length => exact munmap_keeps_iff o s addr length
  | mprotect addr length prot => exact mprotect_keeps_iff o s addr length prot
  | madvise addr length advice => exact madvise_keeps_iff o s addr length advice
  | mremap oldAddr oldSize newSize flags newAddr =>
    exact iff_of_true (mremap_keeps o s oldAddr oldSize newSize flags newAddr flags.2) trivial

/-- Nothing can be allocated. -/
def noMemory : Answers where
  grants := fun _ => false
  fresh := fun _ => none
  tables := fun _ => false
  listed := false
  tracked := false
  refs := fun _ => 0
  flushed := true
  sealed := fun _ => false
  noexec := fun _ => false
  buffer := false
  written := fun _ _ => false
  allows := fun _ => false
  ext := false
  fault := fun pages _ => pages

/-- An anonymous writable area. -/
def writableArea (vaddr memsz : Nat) (nonempty : 0 < memsz) (below : vaddr + memsz < 2 ^ 64) :
    Area where
  flags := mmapPteFlags 3
  mapFlags := 0x25
  node := none
  vaddr := vaddr
  memsz := memsz
  filesz := 0
  offset := 0
  nonempty := nonempty
  below := below
  filled := Nat.zero_le _

/-- Two areas in an array with room for two. -/
def fullSpace : Vm where
  file :=
    { maps := [writableArea 0x1000000 0x1000 (by decide) (by decide), writableArea 0x1001000 0x2000 (by decide) (by decide)]
      capacity := 2
      small := by decide
      held := by decide }
  pages := fun _ => none
  mmapNextAddr := 0
  userBrkStart := 0
  userBrk := 0
  readaheadPages := 2

theorem coveredFrom_next {maps : List Area} {stop position next : Nat} {a : Area}
    (hlt : position < stop)
    (h : maps.find? (fun a => a.vaddr ≤ position ∧ position < a.stop) = some a)
    (hnext : (if a.stop < stop then a.stop else stop) = next) :
    coveredFrom maps stop position = coveredFrom maps stop next := by
  rw [coveredFrom, if_pos hlt, ← hnext]
  split
  · simp_all
  · simp_all

theorem fullSpace_covered : userRangeCoveredByVmas fullSpace 0x1000000 0x2000 = true := by
  have hfirst : coveredFrom fullSpace.file.maps 0x1002000 0x1000000 =
      coveredFrom fullSpace.file.maps 0x1002000 0x1001000 :=
    coveredFrom_next (a := writableArea 0x1000000 0x1000 (by decide) (by decide)) (by decide) (by decide)
      (by decide)
  have hsecond : coveredFrom fullSpace.file.maps 0x1002000 0x1001000 =
      coveredFrom fullSpace.file.maps 0x1002000 0x1002000 :=
    coveredFrom_next (a := writableArea 0x1001000 0x2000 (by decide) (by decide)) (by decide) (by decide)
      (by decide)
  show coveredFrom fullSpace.file.maps 0x1002000 0x1000000 = true
  rw [hfirst, hsecond, coveredFrom, if_neg (lt_irrefl _)]

/-- A range of one whole area and a part of the next: the first is write protected, and then
there is no room to cut the second in two. -/
theorem mprotect_half_done :
    ¬∀ (o : Answers) (s : Vm) (call : Call), Keeps s (call.run o s) := by
  intro h
  have hsize : protectSize 0x2000 = 0x2000 := by decide
  have hchecks : mprotectChecks noMemory fullSpace 0x1000000 0x2000 1 = none := by
    unfold mprotectChecks
    simp only [hsize, fullSpace_covered]
    decide
  have hwalk : (restrictTurns (protectMarks (mmapPteFlags 1)) 0x1000000 0x1002000).walk
      (taskEnsureFileMapCapacity noMemory.grants) [] fullSpace.file.maps 2 =
        (false, [{ writableArea 0x1000000 0x1000 (by decide) (by decide) with flags := mmapPteFlags 1 },
          writableArea 0x1001000 0x2000 (by decide) (by decide)], 2) := by
    rw [fullSpace, Turns.walk_settle rfl, Turns.walk_full rfl (by decide)]
    rfl
  have hfail : (fullSpace.file.walk noMemory.grants
      (restrictTurns (protectMarks (mmapPteFlags 1)) 0x1000000 0x1002000)).1 = false :=
    congrArg (fun r => r.1) hwalk
  have hmaps : (fullSpace.file.walk noMemory.grants
      (restrictTurns (protectMarks (mmapPteFlags 1)) 0x1000000 0x1002000)).2.maps =
        [{ writableArea 0x1000000 0x1000 (by decide) (by decide) with flags := mmapPteFlags 1 },
          writableArea 0x1001000 0x2000 (by decide) (by decide)] :=
    congrArg (fun r => r.2.1) hwalk
  have hrun : (Call.mprotect 0x1000000 0x2000 1).run noMemory fullSpace =
      (-enomem, { fullSpace with file := (fullSpace.file.walk noMemory.grants
        (restrictTurns (protectMarks (mmapPteFlags 1)) 0x1000000 0x1002000)).2 }) := by
    rw [Call.run, sysMprotect, hchecks]
    simp only [hsize]
    rw [protect_walk (by decide) (by decide), status_refused hfail]
    rfl
  have hkeeps := h noMemory fullSpace (.mprotect 0x1000000 0x2000 1)
  rw [hrun] at hkeeps
  have hsame := (hkeeps (by decide)).1 0x1000000
  rw [hmaps] at hsame
  exact absurd hsame (by decide)

end Lebirun.Mman
