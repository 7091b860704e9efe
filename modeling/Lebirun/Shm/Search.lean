import Mathlib
import Lebirun.Shm.State

namespace Lebirun.Shm
set_option autoImplicit true

/-- Where a segment can go: inside a window, and over no heap, no area and no mapped page. -/
structure Vacant (vm : Vm) (address size : Nat) : Prop where
  window : (USER_DYNAMIC_BASE ≤ address ∧ address + size ≤ USER_DYNAMIC_LIMIT) ∨
    (USER_HIGH_DYNAMIC_BASE ≤ address ∧ address + size ≤ USER_HIGH_DYNAMIC_LIMIT)
  heap : vm.userBrk ≤ address ∨ address + size ≤ vm.userBrkStart
  areas : ∀ area ∈ vm.fileMaps, area.vaddr + area.memsz < 2 ^ 64 ∧
    (area.vaddr + area.memsz ≤ address ∨ address + size ≤ area.vaddr)
  pages : ∀ x, address ≤ x → x < address + size → (x - address) % PAGE_SIZE = 0 → vm.mapped x = false

/-- What `shm_find_address` looks through: the window of the cursor below it, and from the low window also the high one. -/
def Reached (vm : Vm) (size a : Nat) : Prop :=
  if USER_HIGH_DYNAMIC_BASE ≤ vm.mmapNextAddr ∧ vm.mmapNextAddr ≤ USER_HIGH_DYNAMIC_LIMIT then
    USER_HIGH_DYNAMIC_BASE ≤ a ∧ a + size ≤ vm.mmapNextAddr
  else
    (USER_DYNAMIC_BASE ≤ a ∧ a + size ≤
      if vm.mmapNextAddr ≤ USER_DYNAMIC_BASE ∨ USER_DYNAMIC_LIMIT < vm.mmapNextAddr then USER_DYNAMIC_LIMIT
      else vm.mmapNextAddr) ∨
    (USER_HIGH_DYNAMIC_BASE ≤ a ∧ a + size ≤ USER_HIGH_DYNAMIC_LIMIT)

variable {vm : Vm} {base size address a n fuel : Nat}

theorem shmRangeFree_iff : shmRangeFree vm address size = true ↔ Vacant vm address size := by
  have hlow : USER_DYNAMIC_LIMIT = 0x3f800000 := rfl
  have hhigh : USER_HIGH_DYNAMIC_LIMIT = 0x00007fff00000000 := rfl
  rw [shmRangeFree]
  have hpages : ((List.range ((size + PAGE_SIZE - 1) / PAGE_SIZE)).all fun i => !vm.mapped (address + i * PAGE_SIZE)) = true ↔
      ∀ x, address ≤ x → x < address + size → (x - address) % PAGE_SIZE = 0 → vm.mapped x = false := by
    dsimp only [PAGE_SIZE]
    rw [List.all_eq_true]
    constructor
    · intro h x hle hlt hmod
      have hx : address + (x - address) / 4096 * 4096 = x := by omega
      have hmem : (x - address) / 4096 < (size + 4096 - 1) / 4096 := by omega
      have := h _ (List.mem_range.2 hmem)
      rw [hx, Bool.not_eq_true'] at this
      exact this
    · intro h i hi
      have hlt := List.mem_range.1 hi
      rw [h _ (Nat.le_add_right _ _) (by omega) (by omega)]
      rfl
  constructor
  · intro h
    split_ifs at h with h64 hwindow hheap hareas
    refine ⟨hwindow, by omega, ?_, hpages.1 h⟩
    intro area harea
    rw [List.any_eq_true] at hareas
    by_contra hbad
    apply hareas
    refine ⟨area, harea, ?_⟩
    rw [Bool.or_eq_true, Bool.and_eq_true, decide_eq_true_eq, decide_eq_true_eq, decide_eq_true_eq]
    omega
  · rintro ⟨hwindow, hheap, hareas, hmapped⟩
    have hnone : ¬(vm.fileMaps.any fun area => 2 ^ 64 ≤ area.vaddr + area.memsz ||
        (address < area.vaddr + area.memsz && area.vaddr < address + size)) = true := by
      rw [List.any_eq_true]
      rintro ⟨area, harea, hbad⟩
      rw [Bool.or_eq_true, Bool.and_eq_true, decide_eq_true_eq, decide_eq_true_eq, decide_eq_true_eq] at hbad
      have := hareas area harea
      omega
    rw [if_neg (by omega), if_neg (not_not_intro hwindow), if_neg (by omega), if_neg hnone]
    exact hpages.2 hmapped

/-- A loop finds the highest place that ends at a page boundary up to its start. -/
theorem findDown_spec (vm : Vm) (base size : Nat) (hbase : 0 < base) (hsize : base + size < 2 ^ 64) :
    ∀ fuel n, n < fuel → 4096 * n < 2 ^ 64 →
      let r := findDown vm base size fuel (4096 * n)
      (r ≠ 0 → Vacant vm r size ∧ base ≤ r ∧ r + size ≤ 4096 * n ∧ (r + size) % 4096 = 0) ∧
        ∀ a, Vacant vm a size → base ≤ a → a + size ≤ 4096 * n → (a + size) % 4096 = 0 → r ≠ 0 ∧ a ≤ r := by
  intro fuel
  induction fuel with
  | zero => exact fun n hn => absurd hn (Nat.not_lt_zero n)
  | succ fuel ih =>
    intro n hn h64
    rw [findDown, Nat.mod_eq_of_lt hsize]
    split
    · rename_i hroom
      have hstart : (4096 * n + 2 ^ 64 - size) % 2 ^ 64 = 4096 * n - size := by omega
      rw [hstart]
      dsimp only
      split
      · rename_i hfree
        refine ⟨?_, ?_⟩
        · intro _
          refine ⟨shmRangeFree_iff.1 hfree, by omega, by omega, ?_⟩
          rw [Nat.sub_add_cancel (by omega), Nat.mul_mod_right]
        · intro a _ hle hend _
          omega
      · rename_i htaken
        have hn0 : 0 < n := by
          apply Nat.pos_of_ne_zero
          rintro rfl
          omega
        have hnext : (4096 * n - size + size - 4096) % 2 ^ 64 = 4096 * (n - 1) := by omega
        rw [hnext]
        obtain ⟨hsound, hall⟩ := ih (n - 1) (by omega) (by omega)
        refine ⟨?_, ?_⟩
        · intro hr
          obtain ⟨hv, hb, he, hm⟩ := hsound hr
          exact ⟨hv, hb, by omega, hm⟩
        · intro a hv hle hend hmod
          apply hall a hv hle _ hmod
          have hne : a ≠ 4096 * n - size := by
            rintro rfl
            exact htaken (shmRangeFree_iff.2 hv)
          omega
    · rename_i hroom
      refine ⟨fun h => absurd rfl h, ?_⟩
      intro a _ hle hend _
      omega

theorem pageDown_eq (address : Nat) : pageDown address = 4096 * (address / 4096) := Nat.mul_comm _ _

/-- With a wish, the address is its page or none. -/
theorem shmFindAddress_requested (vm : Vm) (size : Nat) (hne : requested ≠ 0) :
    (Vacant vm (pageDown requested) size → shmFindAddress vm requested size = pageDown requested) ∧
      (¬Vacant vm (pageDown requested) size → shmFindAddress vm requested size = 0) := by
  rw [shmFindAddress, if_pos hne]
  constructor
  · intro hv
    exact if_pos (shmRangeFree_iff.2 hv)
  · intro hv
    exact if_neg fun h => hv (shmRangeFree_iff.1 h)

/-- Without a wish, the search gives an address for the segment exactly when there is one within reach: the highest of the
window it is in, and one of the high window only when the low one has none. -/
theorem shmFindAddress_exact (vm : Vm) (size : Nat) (hpages : size % PAGE_SIZE = 0)
    (hsize : USER_HIGH_DYNAMIC_BASE + size < 2 ^ 64) :
    let r := shmFindAddress vm 0 size
    (r ≠ 0 → Vacant vm r size ∧ Reached vm size r ∧ r % PAGE_SIZE = 0) ∧
      ∀ a, a % PAGE_SIZE = 0 → Vacant vm a size → Reached vm size a →
        r ≠ 0 ∧ (a ≤ r ∨ r + size ≤ USER_DYNAMIC_LIMIT ∧ USER_HIGH_DYNAMIC_BASE ≤ a) := by
  dsimp only [PAGE_SIZE] at hpages ⊢
  have hlow : USER_DYNAMIC_BASE = 0x00500000 := rfl
  have hlowEnd : USER_DYNAMIC_LIMIT = 0x3f800000 := rfl
  have hhigh : USER_HIGH_DYNAMIC_BASE = 0x100000000 := rfl
  have hhighEnd : USER_HIGH_DYNAMIC_LIMIT = 0x00007fff00000000 := rfl
  generalize hr : shmFindAddress vm 0 size = r
  replace hr := hr.symm
  rw [shmFindAddress, if_neg (not_not_intro rfl)] at hr
  dsimp only at hr
  dsimp only [PAGE_SIZE] at hr
  rw [pageDown_eq, pageDown_eq, pageDown_eq] at hr
  by_cases hcursor : USER_HIGH_DYNAMIC_BASE ≤ vm.mmapNextAddr ∧ vm.mmapNextAddr ≤ USER_HIGH_DYNAMIC_LIMIT
  · have hspec := findDown_spec vm USER_HIGH_DYNAMIC_BASE size (by omega) hsize
      (vm.mmapNextAddr / 4096 + 1) (vm.mmapNextAddr / 4096) (Nat.lt_succ_self _) (by omega)
    rw [if_pos hcursor] at hr
    rw [← hr] at hspec
    obtain ⟨hsound, hall⟩ := hspec
    simp only [Reached, if_pos hcursor]
    refine ⟨?_, ?_⟩
    · intro hne
      obtain ⟨hv, hb, he, hm⟩ := hsound hne
      exact ⟨hv, ⟨hb, by omega⟩, by omega⟩
    · intro a ha hv hreach
      obtain ⟨hne, hle⟩ := hall a hv hreach.1 (by omega) (by omega)
      exact ⟨hne, Or.inl hle⟩
  · rw [if_neg hcursor] at hr
    generalize hstart : (if vm.mmapNextAddr ≤ USER_DYNAMIC_BASE ∨ USER_DYNAMIC_LIMIT < vm.mmapNextAddr then
      USER_DYNAMIC_LIMIT else vm.mmapNextAddr) = start at hr
    have hbound : start ≤ USER_DYNAMIC_LIMIT := by
      rw [← hstart]
      split <;> omega
    obtain ⟨hsoundL, hallL⟩ := findDown_spec vm USER_DYNAMIC_BASE size (by omega) (by omega)
      (start / 4096 + 1) (start / 4096) (Nat.lt_succ_self _) (by omega)
    obtain ⟨hsoundH, hallH⟩ := findDown_spec vm USER_HIGH_DYNAMIC_BASE size (by omega) hsize
      (USER_HIGH_DYNAMIC_LIMIT / 4096 + 1) (USER_HIGH_DYNAMIC_LIMIT / 4096) (Nat.lt_succ_self _) (by omega)
    simp only [Reached, if_neg hcursor, hstart]
    generalize findDown vm USER_DYNAMIC_BASE size (start / 4096 + 1) (4096 * (start / 4096)) = low at *
    generalize findDown vm USER_HIGH_DYNAMIC_BASE size (USER_HIGH_DYNAMIC_LIMIT / 4096 + 1)
      (4096 * (USER_HIGH_DYNAMIC_LIMIT / 4096)) = high at *
    by_cases hzero : low = 0
    · rw [if_neg (not_not_intro hzero)] at hr
      subst hr
      refine ⟨?_, ?_⟩
      · intro hne
        obtain ⟨hv, hb, he, hm⟩ := hsoundH hne
        exact ⟨hv, Or.inr ⟨hb, by omega⟩, by omega⟩
      · intro a ha hv hreach
        rcases hreach with ⟨hb, he⟩ | ⟨hb, he⟩
        · exact absurd hzero (hallL a hv hb (by omega) (by omega)).1
        · obtain ⟨hne, hle⟩ := hallH a hv hb (by omega) (by omega)
          exact ⟨hne, Or.inl hle⟩
    · rw [if_pos hzero] at hr
      subst hr
      obtain ⟨hv, hb, he, hm⟩ := hsoundL hzero
      refine ⟨fun _ => ⟨hv, Or.inl ⟨hb, by omega⟩, by omega⟩, ?_⟩
      intro a ha hva hreach
      refine ⟨hzero, ?_⟩
      rcases hreach with ⟨hba, hea⟩ | ⟨hba, hea⟩
      · exact Or.inl (hallL a hva hba (by omega) (by omega)).2
      · exact Or.inr ⟨by omega, hba⟩

/-- A page below a cursor in the middle of the low window. -/
theorem shmFindAddress_exact_page :
    let vm : Vm := ⟨1, 0, 0, 0x10000000, [⟨0xffff000, 4096, 0, false⟩], fun _ => false⟩
    let r := shmFindAddress vm 0 4096
    (r ≠ 0 → Vacant vm r 4096 ∧ Reached vm 4096 r ∧ r % PAGE_SIZE = 0) ∧
      ∀ a, a % PAGE_SIZE = 0 → Vacant vm a 4096 → Reached vm 4096 a →
        r ≠ 0 ∧ (a ≤ r ∨ r + 4096 ≤ USER_DYNAMIC_LIMIT ∧ USER_HIGH_DYNAMIC_BASE ≤ a) :=
  shmFindAddress_exact ⟨1, 0, 0, 0x10000000, [⟨0xffff000, 4096, 0, false⟩], fun _ => false⟩ 4096 (by decide) (by decide)

end Lebirun.Shm
