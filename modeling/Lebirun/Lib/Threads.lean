import Mathlib

namespace Threads
set_option autoImplicit true

variable {ι α : Type*} [Fintype ι]

/-- What the threads of a system hold together, thread by thread. -/
def total (g : α → Nat) (v : ι → α) : Nat := ∑ x, g (v x)

theorem le_total (g : α → Nat) (v : ι → α) (t : ι) : g (v t) ≤ total g v :=
  Finset.single_le_sum (f := fun x => g (v x)) (fun _ _ => Nat.zero_le _) (Finset.mem_univ t)

theorem total_zero (h : ∀ a, g a = 0) (v : ι → α) : total g v = 0 := by
  simp [total, h]

theorem exists_pos_of_total {v : ι → α} (h : 0 < total g v) : ∃ t, 0 < g (v t) := by
  obtain ⟨t, -, ht⟩ := Finset.exists_ne_zero_of_sum_ne_zero (Nat.pos_iff_ne_zero.1 h)
  exact ⟨t, Nat.pos_of_ne_zero ht⟩

theorem add_le_total (g : α → Nat) (v : ι → α) {t t' : ι} (hne : t ≠ t') :
    g (v t) + g (v t') ≤ total g v := by
  classical
  calc
    g (v t) + g (v t') = ∑ x ∈ {t, t'}, g (v x) := (Finset.sum_pair (f := fun x => g (v x)) hne).symm
    _ ≤ total g v := Finset.sum_le_sum_of_subset (Finset.subset_univ _)

variable [DecidableEq ι]

theorem total_update (g : α → Nat) (v : ι → α) (t : ι) (p : α) :
    total g (Function.update v t p) + g (v t) = total g v + g p := by
  have hsplit : ∀ w : ι → α, total g w = g (w t) + ∑ x ∈ Finset.univ.erase t, g (w x) :=
    fun w => (Finset.add_sum_erase _ (fun x => g (w x)) (Finset.mem_univ t)).symm
  have hrest : ∑ x ∈ Finset.univ.erase t, g (Function.update v t p x) =
      ∑ x ∈ Finset.univ.erase t, g (v x) := by
    apply Finset.sum_congr rfl
    intro x hx
    rw [Function.update_of_ne (Finset.ne_of_mem_erase hx)]
  rw [hsplit (Function.update v t p), hsplit v, hrest, Function.update_self]
  omega

end Threads
