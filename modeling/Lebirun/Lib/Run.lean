import Mathlib

namespace Machine
set_option autoImplicit true

variable {σ α : Type*} {step : σ → α → σ} {P Q : σ → α → Prop}

/-- Every event of a run meets `P` in the state it finds. -/
def Along (step : σ → α → σ) (P : σ → α → Prop) : σ → List α → Prop
  | _, [] => True
  | s, a :: l => P s a ∧ Along step P (step s a) l

instance decidableAlong [∀ s a, Decidable (P s a)] : ∀ s l, Decidable (Along step P s l)
  | _, [] => inferInstanceAs (Decidable True)
  | s, a :: l =>
    have := decidableAlong (step s a) l
    inferInstanceAs (Decidable (P s a ∧ Along step P (step s a) l))

@[simp]
theorem along_nil : Along step P s [] := trivial

@[simp]
theorem along_cons : Along step P s (a :: l) ↔ P s a ∧ Along step P (step s a) l := Iff.rfl

theorem along_append :
    Along step P s (l₁ ++ l₂) ↔ Along step P s l₁ ∧ Along step P (l₁.foldl step s) l₂ := by
  induction l₁ generalizing s with
  | nil => simp
  | cons a l₁ ih => simp [ih, and_assoc]

/-- A property kept by every step that meets `P` holds at the end of every run that does. -/
theorem Along.invariant {I : σ → Prop} (hI : ∀ s a, I s → P s a → I (step s a))
    (h : Along step P s l) (hs : I s) : I (l.foldl step s) := by
  induction l generalizing s with
  | nil => exact hs
  | cons a l ih => exact ih h.2 (hI s a hs h.1)

/-- Where every step that meets `P` keeps the property and meets `Q`, a run that meets `P` meets `Q`. -/
theorem Along.ensures {I : σ → Prop} (hI : ∀ s a, I s → P s a → I (step s a) ∧ Q s a)
    (h : Along step P s l) (hs : I s) : Along step Q s l := by
  induction l generalizing s with
  | nil => trivial
  | cons a l ih =>
    obtain ⟨hnext, hq⟩ := hI s a hs h.1
    exact ⟨hq, ih h.2 hnext⟩

/-- Two properties of steps that agree where `I` holds agree along a run. -/
theorem along_iff {I : σ → Prop} (hI : ∀ s a, I s → P s a → I (step s a))
    (hPQ : ∀ s a, I s → (P s a ↔ Q s a)) (hs : I s) : Along step P s l ↔ Along step Q s l := by
  induction l generalizing s with
  | nil => rfl
  | cons a l ih =>
    rw [along_cons, along_cons, hPQ s a hs]
    apply and_congr_right
    intro hq
    exact ih (hI s a hs ((hPQ s a hs).mpr hq))

/-- A property every step keeps holds at the end of every run. -/
theorem foldl_invariant {I : σ → Prop} (hI : ∀ s a, I s → I (step s a)) (hs : I s) (l : List α) :
    I (l.foldl step s) := by
  induction l generalizing s with
  | nil => exact hs
  | cons a l ih => exact ih (hI s a hs)

end Machine
