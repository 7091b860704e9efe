import Mathlib.Data.List.Basic
import Mathlib.Tactic.ByContra

namespace Copies
set_option autoImplicit true

/-! Runs of cells copied into a memory. -/

def write (m : Nat → α) (a : Nat) (l : List α) : Nat → α :=
  fun k => if a ≤ k then (l[k - a]?).getD (m k) else m k

def read (m : Nat → α) (a n : Nat) : List α := (List.range n).map fun i => m (a + i)

/-- The memory after the copies, in their order. -/
def apply (cs : List (Nat × List α)) (m : Nat → α) : Nat → α := cs.foldl (fun m c => write m c.1 c.2) m

/-- Two copies share no cell. -/
def Apart (c d : Nat × List α) : Prop := c.1 + c.2.length ≤ d.1 ∨ d.1 + d.2.length ≤ c.1

variable {m : Nat → α} {a b n : Nat} {l : List α} {c d : Nat × List α} {cs : List (Nat × List α)}

theorem read_write (m : Nat → α) (a : Nat) (l : List α) : read (write m a l) a l.length = l := by
  apply List.ext_getElem
  · rw [read, List.length_map, List.length_range]
  · intro i hi hi'
    have hcell : write m a l (a + i) = (l[i]?).getD (m (a + i)) := by
      rw [write, if_pos (Nat.le_add_right a i), Nat.add_sub_cancel_left]
    rw [List.getElem_eq_iff, read, List.getElem?_map, List.getElem?_range hi', Option.map_some, hcell,
      List.getElem?_eq_getElem hi']
    rfl

theorem read_write_apart (m : Nat → α) (h : a + n ≤ b ∨ b + l.length ≤ a) : read (write m b l) a n = read m a n := by
  apply List.map_congr_left
  intro i hi
  rw [List.mem_range] at hi
  rw [write]
  split
  · rw [List.getElem?_eq_none (by omega)]
    rfl
  · rfl

theorem read_apply_apart (h : ∀ d ∈ cs, a + n ≤ d.1 ∨ d.1 + d.2.length ≤ a) : read (apply cs m) a n = read m a n := by
  induction cs generalizing m with
  | nil => rfl
  | cons d cs ih =>
    have hrest := @ih (write m d.1 d.2) fun e he => h e (List.mem_cons_of_mem _ he)
    exact hrest.trans (read_write_apart m (h d (List.mem_cons_self ..)))

/-- Copies that share no cells are all there in the end. -/
theorem read_apply (h : cs.Pairwise Apart) (hc : c ∈ cs) : read (apply cs m) c.1 c.2.length = c.2 := by
  induction cs generalizing m with
  | nil => exact absurd hc List.not_mem_nil
  | cons d cs ih =>
    rw [List.pairwise_cons] at h
    obtain rfl | hc := List.mem_cons.1 hc
    · exact (read_apply_apart fun e he => h.1 e he).trans (read_write m c.1 c.2)
    · exact ih h.2 hc

end Copies
