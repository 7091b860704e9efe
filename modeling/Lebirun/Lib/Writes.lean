import Mathlib

namespace Writes
set_option autoImplicit true

variable {κ β : Type*} [DecidableEq κ]

/-- The store after the writes, in order. -/
def apply (ws : List (κ × β)) (d : κ → β) : κ → β :=
  ws.foldl (fun d w => Function.update d w.1 w.2) d

/-- The last value written to a key. -/
def last : List (κ × β) → κ → Option β
  | [], _ => none
  | w :: ws, k => (last ws k).or (if w.1 = k then some w.2 else none)

@[simp]
theorem apply_nil (d : κ → β) : apply [] d = d := rfl

@[simp]
theorem apply_cons (w : κ × β) (ws : List (κ × β)) (d : κ → β) :
    apply (w :: ws) d = apply ws (Function.update d w.1 w.2) := rfl

theorem apply_append (ws vs : List (κ × β)) (d : κ → β) :
    apply (ws ++ vs) d = apply vs (apply ws d) := by
  rw [apply, List.foldl_append]
  rfl

theorem apply_eq (ws : List (κ × β)) (d : κ → β) (k : κ) :
    apply ws d k = (last ws k).getD (d k) := by
  induction ws generalizing d with
  | nil => rfl
  | cons w ws ih =>
    rw [apply_cons, ih, last]
    by_cases h : w.1 = k
    · subst h
      cases last ws w.1 <;> simp
    · rw [if_neg h, Function.update_of_ne (Ne.symm h), Option.or_none]

theorem last_append (ws vs : List (κ × β)) (k : κ) :
    last (ws ++ vs) k = (last vs k).or (last ws k) := by
  induction ws with
  | nil => simp [last]
  | cons w ws ih => rw [List.cons_append, last, ih, last, Option.or_assoc]

theorem last_eq_none {ws : List (κ × β)} : last ws k = none ↔ ∀ w ∈ ws, w.1 ≠ k := by
  induction ws with
  | nil => simp [last]
  | cons w ws ih =>
    rw [last, Option.or_eq_none_iff, ih, List.forall_mem_cons]
    by_cases h : w.1 = k
    · simp [h]
    · simp [h]

/-- Writes to other keys only. -/
theorem apply_other {ws : List (κ × β)} (h : ∀ w ∈ ws, w.1 ≠ k) (d : κ → β) :
    apply ws d k = d k := by
  rw [apply_eq, last_eq_none.mpr h]
  rfl

theorem last_filter (p : κ → Bool) (ws : List (κ × β)) (k : κ) :
    last (ws.filter fun w => p w.1) k = if p k then last ws k else none := by
  induction ws with
  | nil => simp [last]
  | cons w ws ih =>
    rw [List.filter_cons, last]
    by_cases h : w.1 = k
    · subst h
      cases hp : p w.1 <;> simp [hp, last, ih]
    · cases hp : p w.1 <;> simp [last, ih, h]

/-- A part of the writes made before all of them changes nothing. -/
theorem apply_take_apply (ws : List (κ × β)) (n : Nat) (d : κ → β) :
    apply ws (apply (ws.take n) d) = apply ws d := by
  funext k
  rw [apply_eq, apply_eq ws d]
  cases h : last ws k with
  | some x => rfl
  | none =>
    have hne := last_eq_none.mp h
    rw [apply_other fun w hw => hne w (List.mem_of_mem_take hw)]

end Writes
