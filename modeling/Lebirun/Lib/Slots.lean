import Mathlib.Data.List.Basic

namespace Slots
set_option autoImplicit true

variable {α κ : Type*} {l : List α} {a b z : α} {i : Nat} {p q : α → Bool} {key : α → Option κ}
  {f : α → α}

theorem getD_of_some (h : l[i]? = some a) : l.getD i z = a := by
  rw [List.getD_eq_getElem?_getD, h]
  rfl

theorem find_some (h : l.findIdx? p = some i) : ∃ a, l[i]? = some a ∧ p a = true := by
  obtain ⟨hi, hp, -⟩ := List.findIdx?_eq_some_iff_getElem.mp h
  exact ⟨l[i], List.getElem?_eq_getElem hi, hp⟩

theorem find_none (h : l.findIdx? p = none) (ha : l[i]? = some a) : p a = false :=
  List.findIdx?_eq_none_iff.mp h a (List.mem_of_getElem? ha)

/-- A search is not changed by a slot whose new entry it treats like the old one. -/
theorem find_set (h : ∀ a, l[i]? = some a → q b = q a) :
    (l.set i b).findIdx? q = l.findIdx? q := by
  induction l generalizing i with
  | nil => rfl
  | cons x l ih =>
    cases i with
    | zero => simp only [List.set_cons_zero, List.findIdx?_cons, h x rfl]
    | succ i => simp only [List.set_cons_succ, List.findIdx?_cons, ih h]

/-- A table with fewer used slots than slots has a free one. -/
theorem exists_free (h : l.countP p < l.length) : ∃ i, l.findIdx? (fun a => !p a) = some i := by
  cases hf : l.findIdx? fun a => !p a with
  | some i => exact ⟨i, rfl⟩
  | none =>
    have hall : ∀ a ∈ l, p a = true := by
      intro a ha
      simpa using List.findIdx?_eq_none_iff.mp hf a ha
    rw [List.countP_eq_length.mpr hall] at h
    exact absurd h (Nat.lt_irrefl _)

theorem countP_set (ha : l[i]? = some a) :
    (l.set i b).countP p + (if p a then 1 else 0) = l.countP p + (if p b then 1 else 0) := by
  induction l generalizing i with
  | nil => cases ha
  | cons x l ih =>
    cases i with
    | zero =>
      cases ha
      simp only [List.set_cons_zero, List.countP_cons]
      omega
    | succ i =>
      have := ih ha
      simp only [List.set_cons_succ, List.countP_cons]
      omega

theorem countP_grow (hz : p z = false) (n : Nat) : (l ++ List.replicate n z).countP p = l.countP p := by
  rw [List.countP_append, List.countP_replicate, hz]
  simp

/-- Emptying the slots `q` picks, all of them used, takes their number off the count. -/
theorem countP_clear (hz : p z = false) (hq : ∀ a, q a = true → p a = true) :
    (l.map fun a => if q a then z else a).countP p + l.countP q = l.countP p := by
  induction l with
  | nil => rfl
  | cons a l ih =>
    rw [List.map_cons]
    simp only [List.countP_cons]
    cases hqa : q a with
    | true =>
      have := hq a hqa
      simp only [if_true, hz, this, Bool.false_eq_true, if_false]
      omega
    | false =>
      simp only [Bool.false_eq_true, if_false]
      omega

/-- Slots used alike are as many. -/
theorem countP_congr {l' : List α} (h : l'.map p = l.map p) : l'.countP p = l.countP p := by
  have hcount : ∀ l : List α, l.countP p = (l.map p).count true := by
    intro l
    rw [List.count, List.countP_map]
    exact List.countP_congr fun a _ => by simp
  rw [hcount, hcount, h]

/-- No two slots have one key; a slot that has none takes no part. -/
def Unique (key : α → Option κ) (l : List α) : Prop :=
  ∀ (i j : Nat) (k : κ), l[i]?.bind key = some k → l[j]?.bind key = some k → i = j

theorem unique_nil : Unique key [] := by
  intro i j k h
  cases h

theorem Unique.set (h : Unique key l)
    (hnew : ∀ (j : Nat) (k : κ), key a = some k → l[j]?.bind key = some k → j = i) : Unique key (l.set i a) := by
  have hat : ∀ (j : Nat) (k : κ), (l.set i a)[j]?.bind key = some k →
      j = i ∧ key a = some k ∨ j ≠ i ∧ l[j]?.bind key = some k := by
    intro j k hj
    by_cases hji : j = i
    · subst hji
      rw [List.getElem?_set_self'] at hj
      cases hl : l[j]? with
      | none => simp [hl] at hj
      | some b => exact .inl ⟨rfl, by simpa [hl] using hj⟩
    · rw [List.getElem?_set_ne (Ne.symm hji)] at hj
      exact .inr ⟨hji, hj⟩
  intro j j' k hj hj'
  obtain ⟨rfl, hk⟩ | ⟨hne, hk⟩ := hat j k hj
  · obtain ⟨rfl, -⟩ | ⟨hne', hk'⟩ := hat j' k hj'
    · rfl
    · exact absurd (hnew j' k hk hk') hne'
  · obtain ⟨rfl, hk'⟩ | ⟨-, hk'⟩ := hat j' k hj'
    · exact absurd (hnew j k hk' hk) hne
    · exact h j j' k hk hk'

theorem Unique.grow (h : Unique key l) (hz : key z = none) (n : Nat) :
    Unique key (l ++ List.replicate n z) := by
  have hat : ∀ (j : Nat) (k : κ), (l ++ List.replicate n z)[j]?.bind key = some k → l[j]?.bind key = some k := by
    intro j k hj
    by_cases hlt : j < l.length
    · rwa [List.getElem?_append_left hlt] at hj
    · rw [List.getElem?_append_right (Nat.le_of_not_lt hlt), List.getElem?_replicate] at hj
      split at hj
      · rw [Option.bind_some, hz] at hj
        cases hj
      · cases hj
  intro i j k hi hj
  exact h i j k (hat i k hi) (hat j k hj)

theorem Unique.map (h : Unique key l) (hf : ∀ a, key (f a) = key a ∨ key (f a) = none) :
    Unique key (l.map f) := by
  have hat : ∀ (j : Nat) (k : κ), (l.map f)[j]?.bind key = some k → l[j]?.bind key = some k := by
    intro j k hj
    rw [List.getElem?_map] at hj
    cases hl : l[j]? with
    | none => simp [hl] at hj
    | some a =>
      simp only [hl, Option.map_some, Option.bind_some] at hj ⊢
      obtain hfa | hfa := hf a
      · rwa [← hfa]
      · rw [hfa] at hj
        cases hj
  intro i j k hi hj
  exact h i j k (hat i k hi) (hat j k hj)

end Slots
