import Mathlib.Data.List.Nodup

namespace Keyed
set_option autoImplicit true

variable {α κ : Type*} [DecidableEq κ] {key : α → κ} {f : α → α} {l : List α} {a b : α}

def find (key : α → κ) (l : List α) (k : κ) : Option α := l.find? fun a => key a = k

/-- The records of one key change. -/
def update (key : α → κ) (l : List α) (k : κ) (f : α → α) : List α :=
  l.map fun a => if key a = k then f a else a

theorem find_key (h : find key l k = some a) : key a = k := by
  have hp := List.find?_some h
  simpa using hp

theorem mem_of_find (h : find key l k = some a) : a ∈ l := List.mem_of_find?_eq_some h

theorem find_of_mem (hn : (l.map key).Nodup) (ha : a ∈ l) : find key l (key a) = some a := by
  unfold find
  induction l with
  | nil => cases ha
  | cons b l ih =>
    rw [List.map_cons, List.nodup_cons] at hn
    cases List.mem_cons.mp ha with
    | inl h => simp [h]
    | inr h =>
      have hne : key b ≠ key a := by
        intro heq
        apply hn.1
        rw [heq]
        exact List.mem_map_of_mem h
      rw [List.find?_cons_of_neg (by simpa using hne)]
      exact ih hn.2 h

theorem key_update (hf : ∀ a, key a = k → key (f a) = k) (a : α) :
    key (if key a = k then f a else a) = key a := by
  split
  · next h => exact (hf a h).trans h.symm
  · rfl

theorem map_key_update (hf : ∀ a, key a = k → key (f a) = k) (l : List α) :
    (update key l k f).map key = l.map key := by
  unfold update
  rw [List.map_map]
  apply List.map_congr_left
  intro a _
  exact key_update hf a

theorem find_update (hf : ∀ a, key a = k → key (f a) = k) (l : List α) (j : κ) :
    find key (update key l k f) j = if j = k then (find key l k).map f else find key l j := by
  unfold find update
  rw [List.find?_map]
  have hcomp : ((fun a => decide (key a = j)) ∘ fun a => if key a = k then f a else a) =
      fun a => decide (key a = j) := by
    funext a
    dsimp only [Function.comp]
    rw [key_update hf]
  rw [hcomp]
  by_cases hj : j = k
  · subst hj
    rw [if_pos rfl]
    cases h : l.find? fun a => decide (key a = j) with
    | none => rfl
    | some a =>
      have ha := find_key h
      simp [ha]
  · rw [if_neg hj]
    cases h : l.find? fun a => decide (key a = j) with
    | none => rfl
    | some a =>
      have ha := find_key h
      have hne : key a ≠ k := by
        rw [ha]
        exact hj
      simp [hne]

theorem mem_update_of_ne (hb : b ∈ l) (hne : key b ≠ k) : b ∈ update key l k f :=
  List.mem_map.mpr ⟨b, hb, if_neg hne⟩

/-- What the list holds after one record changed. -/
theorem mem_update (hn : (l.map key).Nodup) (h : find key l k = some a) :
    b ∈ update key l k f ↔ b = f a ∨ b ∈ l ∧ key b ≠ k := by
  have hk := find_key h
  have ha := mem_of_find h
  unfold update
  rw [List.mem_map]
  constructor
  · rintro ⟨c, hc, rfl⟩
    by_cases hck : key c = k
    · have : c = a := List.inj_on_of_nodup_map hn hc ha (hck.trans hk.symm)
      rw [if_pos hck, this]
      exact .inl rfl
    · rw [if_neg hck]
      exact .inr ⟨hc, hck⟩
  · intro hb
    cases hb with
    | inl hb => exact ⟨a, ha, by rw [if_pos hk, hb]⟩
    | inr hb => exact ⟨b, hb.1, if_neg hb.2⟩

end Keyed
