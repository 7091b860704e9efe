import Mathlib.Algebra.BigOperators.Group.Multiset.Basic
import Mathlib.Algebra.Order.BigOperators.Group.List
import Mathlib.Algebra.Order.Group.Multiset
import Mathlib.Algebra.Order.Group.Nat
import Mathlib.Tactic.Abel

/-!
A walk over a list whose turn at an entry may drop the entry, change it, or cut it in two. The
second part of a cut goes to the end of the list, where the walk meets it later. A cut needs
room for one more entry; where there is none, the walk is refused at that entry.
-/

namespace Lebirun.Worklist
set_option autoImplicit true

/-- What a turn does with the entry it is at. -/
inductive Turn (α : Type) where
  | settle (kept : Option α)
  | cut (left right : α)

def Turn.parts : Turn α → List α
  | settle kept => kept.toList
  | cut left right => [left, right]

/-- The turns of a walk. The weight bounds how often the parts of an entry are cut again. -/
structure Turns (α : Type) where
  turn : α → Turn α
  weight : α → Nat
  lighter : ∀ a l r, turn a = .cut l r → weight r < weight a

namespace Turns

def load (t : Turns α) (todo : List α) : Nat := (todo.map fun a => t.weight a + 1).sum

@[simp] theorem load_cons (t : Turns α) (a : α) (todo : List α) :
    t.load (a :: todo) = t.weight a + 1 + t.load todo := by
  simp [load]

@[simp] theorem load_snoc (t : Turns α) (todo : List α) (r : α) :
    t.load (todo ++ [r]) = t.load todo + (t.weight r + 1) := by
  simp [load]

/-- The walk itself: `done` is behind the cursor and `todo` is ahead of it, and `grow` makes
room for the given number of entries. The result says whether the walk reached the end. -/
def walk (t : Turns α) (grow : κ → Nat → Option κ) (done todo : List α) (c : κ) :
    Bool × List α × κ :=
  match todo with
  | [] => (true, done, c)
  | a :: todo =>
    match _h : t.turn a with
    | .settle kept => t.walk grow (done ++ kept.toList) todo c
    | .cut left right =>
      match grow c (done.length + todo.length + 1 + 1) with
      | none => (false, done ++ a :: todo, c)
      | some c => t.walk grow (done ++ [left]) (todo ++ [right]) c
termination_by t.load todo
decreasing_by
  · simp only [load_cons]
    omega
  · have := t.lighter a left right _h
    simp only [load_cons, load_snoc]
    omega

/-- The entries a walk meets if it is never refused, in the order it meets them. -/
def visits (t : Turns α) (todo : List α) : List α :=
  match todo with
  | [] => []
  | a :: todo =>
    match _h : t.turn a with
    | .settle _ => a :: t.visits todo
    | .cut _ right => a :: t.visits (todo ++ [right])
termination_by t.load todo
decreasing_by
  · simp only [load_cons]
    omega
  · have := t.lighter a _ right _h
    simp only [load_cons, load_snoc]
    omega

/-- How many entries the list has after the turns at `pre`. -/
def lengthAfter (t : Turns α) (n : Nat) : List α → Nat
  | [] => n
  | a :: pre => t.lengthAfter (n - 1 + (t.turn a).parts.length) pre

def Cuts (t : Turns α) (a : α) : Prop := ∃ l r, t.turn a = .cut l r

/-- There is room for every cut among the entries. -/
def Roomy (t : Turns α) (fits : Nat → Bool) (n : Nat) (met : List α) : Prop :=
  ∀ pre a post, met = pre ++ a :: post → t.Cuts a → fits (t.lengthAfter n pre + 1) = true

/-- The first cut for which there is no room comes right after the entries `pre`. -/
def Refused (t : Turns α) (fits : Nat → Bool) (n : Nat) (met pre : List α) : Prop :=
  ∃ a post, met = pre ++ a :: post ∧ t.Cuts a ∧ fits (t.lengthAfter n pre + 1) = false ∧
    t.Roomy fits n pre

variable {t : Turns α} {fits : Nat → Bool}

theorem visits_settle (h : t.turn a = .settle kept) : t.visits (a :: todo) = a :: t.visits todo := by
  rw [visits]
  split
  · rfl
  · simp_all

theorem visits_cut (h : t.turn a = .cut l r) :
    t.visits (a :: todo) = a :: t.visits (todo ++ [r]) := by
  rw [visits]
  split
  · simp_all
  · simp_all

theorem Roomy.nil : t.Roomy fits n [] := by
  intro pre a post h
  simp at h

theorem Roomy.cons (ha : t.Cuts a → fits (n + 1) = true)
    (h : t.Roomy fits (n - 1 + (t.turn a).parts.length) met) : t.Roomy fits n (a :: met) := by
  intro pre b post he hb
  cases pre with
  | nil =>
    obtain ⟨rfl, -⟩ := List.cons.inj he
    exact ha hb
  | cons c pre =>
    obtain ⟨rfl, he'⟩ := List.cons.inj he
    exact h pre b post he' hb

theorem Refused.cons (ha : t.Cuts a → fits (n + 1) = true)
    (h : t.Refused fits (n - 1 + (t.turn a).parts.length) met pre) :
    t.Refused fits n (a :: met) (a :: pre) := by
  obtain ⟨b, post, rfl, hb, hf, hr⟩ := h
  exact ⟨b, post, rfl, hb, hf, hr.cons ha⟩

theorem Refused.not_roomy (h : t.Refused fits n met pre) : ¬t.Roomy fits n met := by
  obtain ⟨a, post, he, ha, hf, -⟩ := h
  intro hr
  have := hr pre a post he ha
  simp_all

/-- A walk is refused at one place only. -/
theorem Refused.unique (h : t.Refused fits n met pre) (h' : t.Refused fits n met pre') :
    pre = pre' := by
  obtain ⟨a, post, he, ha, hf, hr⟩ := h
  obtain ⟨a', post', he', ha', hf', hr'⟩ := h'
  rw [he] at he'
  obtain ⟨mid, rfl, hm⟩ | ⟨mid, rfl, hm⟩ := List.append_eq_append_iff.mp he'
  · cases mid with
    | nil => simp
    | cons b mid =>
      obtain ⟨rfl, -⟩ := List.cons.inj hm
      have := hr' pre a mid rfl ha
      simp_all
  · cases mid with
    | nil => simp
    | cons b mid =>
      obtain ⟨rfl, -⟩ := List.cons.inj hm
      have := hr pre' a' mid rfl ha'
      simp_all

/-- `fits` says which lengths a list may grow to, whatever it went through before: `Room c n`
holds of the capacities `c` that a list of length `n` may have. -/
structure Growth (grow : κ → Nat → Option κ) (fits : Nat → Bool) (Room : κ → Nat → Prop) :
    Prop where
  down : ∀ c n m, Room c n → m ≤ n → Room c m
  room : ∀ c n, Room c n → fits (n + 1) = true → ∃ c', grow c (n + 1) = some c' ∧ Room c' (n + 1)
  full : ∀ c n, Room c n → fits (n + 1) = false → grow c (n + 1) = none

/-- The list `l'` is `l` with the entries `met` exchanged for what their turns make of them. -/
def Exchanged (t : Turns α) (l l' met : List α) : Prop :=
  (l' : Multiset α) + met = l + (met.flatMap fun a => (t.turn a).parts : List α)

theorem Exchanged.nil : t.Exchanged l l [] := by
  simp [Exchanged]

theorem Exchanged.cons {l l₁ : List α} (h : t.Exchanged l₁ l' met)
    (he : (l₁ : Multiset α) + {a} = l + ((t.turn a).parts : List α)) :
    t.Exchanged l l' (a :: met) := by
  simp only [Exchanged, List.flatMap_cons, ← Multiset.coe_add, ← Multiset.cons_coe,
    ← Multiset.singleton_add] at h ⊢
  calc (l' : Multiset α) + ({a} + met) = (l' + met) + {a} := by abel
    _ = (l₁ + {a}) + (met.flatMap fun a => (t.turn a).parts : List α) := by
      rw [h]
      abel
    _ = _ := by
      rw [he]
      abel

theorem walk_settle (h : t.turn a = .settle kept) :
    t.walk grow done (a :: todo) c = t.walk grow (done ++ kept.toList) todo c := by
  rw [walk]
  split
  · simp_all
  · simp_all

theorem walk_cut (h : t.turn a = .cut l r)
    (hg : grow c (done.length + todo.length + 1 + 1) = some c') :
    t.walk grow done (a :: todo) c = t.walk grow (done ++ [l]) (todo ++ [r]) c' := by
  rw [walk]
  split
  · simp_all
  · simp_all

theorem walk_full (h : t.turn a = .cut l r)
    (hg : grow c (done.length + todo.length + 1 + 1) = none) :
    t.walk grow done (a :: todo) c = (false, done ++ a :: todo, c) := by
  rw [walk]
  split
  · simp_all
  · simp_all

theorem toList_length_le (kept : Option α) : kept.toList.length ≤ 1 := by
  cases kept with
  | none => exact Nat.zero_le _
  | some a => exact le_refl _

/-- How a walk ends: it goes through all the entries that there are to meet, or through those
before the first cut for which there is no room. -/
def Ends (t : Turns α) (fits : Nat → Bool) (n : Nat) (l met : List α)
    (result : Bool × List α × κ) : Prop :=
  (result.1 = true ∧ t.Roomy fits n met ∧ t.Exchanged l result.2.1 met) ∨
    (result.1 = false ∧ ∃ pre, t.Refused fits n met pre ∧ t.Exchanged l result.2.1 pre)

theorem Ends.cons {l : List α} (l₁ : List α) {result : Bool × List α × κ} (ha : t.Cuts a → fits (n + 1) = true)
    (he : (l₁ : Multiset α) + {a} = l + ((t.turn a).parts : List α))
    (h : t.Ends fits (n - 1 + (t.turn a).parts.length) l₁ met result) :
    t.Ends fits n l (a :: met) result := by
  obtain ⟨ht, hr, hx⟩ | ⟨hf, pre, hr, hx⟩ := h
  · exact .inl ⟨ht, hr.cons ha, hx.cons he⟩
  · exact .inr ⟨hf, a :: pre, hr.cons ha, hx.cons he⟩

theorem walk_ends {grow : κ → Nat → Option κ} (hg : Growth grow fits Room) (done todo : List α) (c : κ)
    (hc : Room c (done.length + todo.length)) :
    t.Ends fits (done.length + todo.length) (done ++ todo) (t.visits todo)
      (t.walk grow done todo c) := by
  induction hn : t.load todo using Nat.strong_induction_on generalizing done todo c with
  | _ n ih =>
    cases todo with
    | nil =>
      simp only [walk, visits]
      exact .inl ⟨rfl, .nil, by simp [Exchanged]⟩
    | cons a todo =>
      rw [load_cons] at hn
      cases ht : t.turn a with
      | settle kept =>
        rw [visits_settle ht, walk_settle ht]
        have hle : (done ++ kept.toList).length + todo.length ≤
            done.length + (a :: todo).length := by
          have := toList_length_le kept
          rw [List.length_append, List.length_cons]
          omega
        have := ih (t.load todo) (by omega) (done ++ kept.toList) todo c (hg.down c _ _ hc hle) rfl
        apply Ends.cons (done ++ kept.toList ++ todo)
        · rintro ⟨l, r, hcut⟩
          simp_all
        · simp only [ht, Turn.parts, ← Multiset.coe_add, ← Multiset.cons_coe,
            ← Multiset.singleton_add]
          abel
        · convert this using 1
          simp [ht, Turn.parts]
          omega
      | cut left right =>
        have hcut : t.Cuts a := ⟨left, right, ht⟩
        have hlt := t.lighter a left right ht
        have hc' : Room c (done.length + todo.length + 1) := hc
        rw [visits_cut ht]
        cases hf : fits (done.length + todo.length + 1 + 1) with
        | false =>
          rw [walk_full ht (hg.full c _ hc' hf)]
          exact .inr ⟨rfl, [], ⟨a, _, rfl, hcut, hf, .nil⟩, .nil⟩
        | true =>
          obtain ⟨c', hgrow, hroom⟩ := hg.room c _ hc' hf
          rw [walk_cut ht hgrow]
          have hl : (done ++ [left]).length + (todo ++ [right]).length =
              done.length + todo.length + 1 + 1 := by
            simp
            omega
          have := ih (t.load (todo ++ [right])) (by rw [load_snoc]; omega) (done ++ [left])
            (todo ++ [right]) c' (hl ▸ hroom) rfl
          apply Ends.cons (done ++ [left] ++ (todo ++ [right]))
          · intro _
            exact hf
          · simp only [ht, Turn.parts, ← Multiset.coe_add, ← Multiset.cons_coe,
              ← Multiset.singleton_add, Multiset.coe_nil]
            abel
          · convert this using 1
            simp [ht, Turn.parts]
            omega

/-- The capacity a walk ends with is one that the list it ends with may have. -/
theorem walk_room {grow : κ → Nat → Option κ} (hg : Growth grow fits Room) (done todo : List α)
    (c : κ) (hc : Room c (done.length + todo.length)) :
    Room (t.walk grow done todo c).2.2 (t.walk grow done todo c).2.1.length := by
  induction hn : t.load todo using Nat.strong_induction_on generalizing done todo c with
  | _ n ih =>
    cases todo with
    | nil =>
      simp only [walk]
      exact hc
    | cons a todo =>
      rw [load_cons] at hn
      cases ht : t.turn a with
      | settle kept =>
        rw [walk_settle ht]
        apply ih (t.load todo) (by omega) _ _ _ _ rfl
        apply hg.down c _ _ hc
        have := toList_length_le kept
        rw [List.length_append, List.length_cons]
        omega
      | cut left right =>
        have hlt := t.lighter a left right ht
        have hc' : Room c (done.length + todo.length + 1) := hc
        cases hf : fits (done.length + todo.length + 1 + 1) with
        | false =>
          rw [walk_full ht (hg.full c _ hc' hf)]
          simpa using hc
        | true =>
          obtain ⟨c', hgrow, hroom⟩ := hg.room c _ hc' hf
          rw [walk_cut ht hgrow]
          apply ih (t.load (todo ++ [right])) (by rw [load_snoc]; omega) _ _ _ _ rfl
          have hl : (done ++ [left]).length + (todo ++ [right]).length =
              done.length + todo.length + 1 + 1 := by
            simp
            omega
          exact hl ▸ hroom

section Measures
variable {l l' met : List α}

/-- A measure of the entries added up, before and after the turns at `met`. -/
theorem Exchanged.sum [AddCommMonoid M] (μ : α → M) (h : t.Exchanged l l' met) :
    (l'.map μ).sum + (met.map μ).sum =
      (l.map μ).sum + (met.map fun a => ((t.turn a).parts.map μ).sum).sum := by
  have hm := congrArg (fun s : Multiset α => (s.map μ).sum) h
  simp only [Multiset.map_add, Multiset.sum_add, Multiset.map_coe, Multiset.sum_coe] at hm
  rw [hm]
  congr 1
  clear h hm
  induction met with
  | nil => rfl
  | cons a met ih => simp [ih]

theorem Exchanged.keeps [AddCancelCommMonoid M] (μ : α → M) (h : t.Exchanged l l' met)
    (he : ∀ a ∈ met, ((t.turn a).parts.map μ).sum = μ a) : (l'.map μ).sum = (l.map μ).sum := by
  have hs := h.sum μ
  rw [List.map_congr_left he] at hs
  exact add_right_cancel hs

theorem Exchanged.lessens (μ : α → Nat) (h : t.Exchanged l l' met)
    (hle : ∀ a ∈ met, ((t.turn a).parts.map μ).sum ≤ μ a)
    (hlt : ∃ a ∈ met, ((t.turn a).parts.map μ).sum < μ a) : (l'.map μ).sum < (l.map μ).sum := by
  have hs := h.sum μ
  have := List.sum_lt_sum _ _ hle hlt
  omega

end Measures
end Turns
end Lebirun.Worklist
