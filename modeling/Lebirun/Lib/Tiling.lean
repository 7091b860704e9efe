import Mathlib

namespace Tiling
set_option autoImplicit true

variable {β : Type*} {span : β → Nat} {mem : Nat → β} {a : Nat} {l l₁ l₂ : List β}

/-- The bytes a list of consecutive cells covers. -/
def extent (span : β → Nat) (l : List β) : Nat := (l.map span).sum

@[simp]
theorem extent_nil : extent span [] = 0 := rfl

@[simp]
theorem extent_cons : extent span (b :: l) = span b + extent span l := by
  simp [extent]

@[simp]
theorem extent_append : extent span (l₁ ++ l₂) = extent span l₁ + extent span l₂ := by
  simp [extent]

/-- Reading `mem` from `a` on, each cell followed by the one its span leads to, gives `l`. -/
def Tiles (span : β → Nat) (mem : Nat → β) : Nat → List β → Prop
  | _, [] => True
  | a, b :: l => mem a = b ∧ Tiles span mem (a + span b) l

@[simp]
theorem tiles_nil : Tiles span mem a [] := trivial

@[simp]
theorem tiles_cons : Tiles span mem a (b :: l) ↔ mem a = b ∧ Tiles span mem (a + span b) l :=
  Iff.rfl

theorem tiles_append :
    Tiles span mem a (l₁ ++ l₂) ↔
      Tiles span mem a l₁ ∧ Tiles span mem (a + extent span l₁) l₂ := by
  induction l₁ generalizing a with
  | nil => simp
  | cons b l₁ ih => simp [ih, and_assoc, Nat.add_assoc]

/-- Where the cells of a tiling start. -/
def starts (span : β → Nat) : Nat → List β → List Nat
  | _, [] => []
  | a, b :: l => a :: starts span (a + span b) l

@[simp]
theorem starts_nil : starts span a [] = [] := rfl

@[simp]
theorem starts_cons : starts span a (b :: l) = a :: starts span (a + span b) l := rfl

theorem starts_append :
    starts span a (l₁ ++ l₂) = starts span a l₁ ++ starts span (a + extent span l₁) l₂ := by
  induction l₁ generalizing a with
  | nil => simp
  | cons b l₁ ih => simp [ih, Nat.add_assoc]

@[simp]
theorem length_starts : (starts span a l).length = l.length := by
  induction l generalizing a with
  | nil => rfl
  | cons b l ih => simp [ih]

/-- A start is where some split of the list puts it. -/
theorem mem_starts {x : Nat} :
    x ∈ starts span a l ↔ ∃ l₁ b l₂, l = l₁ ++ b :: l₂ ∧ x = a + extent span l₁ := by
  constructor
  · intro h
    induction l generalizing a with
    | nil => simp at h
    | cons c l ih =>
      rcases List.mem_cons.1 h with rfl | h
      · exact ⟨[], c, l, rfl, rfl⟩
      · obtain ⟨l₁, b, l₂, rfl, rfl⟩ := ih h
        exact ⟨c :: l₁, b, l₂, rfl, by rw [extent_cons, Nat.add_assoc]⟩
  · rintro ⟨l₁, b, l₂, rfl, rfl⟩
    simp [starts_append]

theorem starts_ge {x : Nat} (h : x ∈ starts span a l) : a ≤ x := by
  obtain ⟨l₁, b, l₂, -, rfl⟩ := mem_starts.1 h
  exact Nat.le_add_right _ _

theorem starts_lt {x : Nat} (hp : ∀ b ∈ l, 0 < span b) (h : x ∈ starts span a l) :
    x < a + extent span l := by
  obtain ⟨l₁, b, l₂, rfl, rfl⟩ := mem_starts.1 h
  have hb := hp b (by simp)
  simp only [extent_append, extent_cons]
  omega

theorem starts_pairwise (hp : ∀ b ∈ l, 0 < span b) :
    (starts span a l).Pairwise (· < ·) := by
  induction l generalizing a with
  | nil => exact List.Pairwise.nil
  | cons b l ih =>
    apply List.Pairwise.cons
    · intro x hx
      have hge := starts_ge hx
      have hb := hp b List.mem_cons_self
      omega
    · exact ih fun c hc => hp c (List.mem_cons_of_mem _ hc)

/-- No cell starts inside another. -/
theorem starts_of_lt {x : Nat} (hp : ∀ c ∈ l₁, 0 < span c)
    (hx : x ∈ starts span a (l₁ ++ b :: l₂)) (hlt : a + extent span l₁ < x) :
    a + extent span l₁ + span b ≤ x := by
  rw [starts_append] at hx
  rcases List.mem_append.1 hx with hx | hx
  · have := starts_lt hp hx
    omega
  · rcases List.mem_cons.1 hx with rfl | hx
    · omega
    · exact starts_ge hx

/-- A tiling reads the memory at its starts only. -/
theorem Tiles.congr {mem' : Nat → β} (h : Tiles span mem a l)
    (he : ∀ x ∈ starts span a l, mem' x = mem x) : Tiles span mem' a l := by
  induction l generalizing a with
  | nil => trivial
  | cons b l ih =>
    refine ⟨(he a List.mem_cons_self).trans h.1, ih h.2 ?_⟩
    intro x hx
    exact he x (List.mem_cons_of_mem _ hx)

/-- A memory has one tiling of a given extent. -/
theorem Tiles.unique {l' : List β} (h : Tiles span mem a l) (h' : Tiles span mem a l')
    (hp : ∀ b ∈ l, 0 < span b) (hp' : ∀ b ∈ l', 0 < span b)
    (he : extent span l = extent span l') : l = l' := by
  induction l generalizing a l' with
  | nil =>
    cases l' with
    | nil => rfl
    | cons c l' =>
      have hc := hp' c List.mem_cons_self
      simp only [extent_nil, extent_cons] at he
      omega
  | cons b l ih =>
    cases l' with
    | nil =>
      have hb := hp b List.mem_cons_self
      simp only [extent_nil, extent_cons] at he
      omega
    | cons c l' =>
      obtain rfl : b = c := h.1.symm.trans h'.1
      simp only [extent_cons, Nat.add_left_cancel_iff] at he
      rw [ih h.2 h'.2 (fun d hd => hp d (List.mem_cons_of_mem _ hd))
        (fun d hd => hp' d (List.mem_cons_of_mem _ hd)) he]

theorem Tiles.update_lt (h : Tiles span mem a l) (hx : x < a) (v : β) :
    Tiles span (Function.update mem x v) a l := by
  apply h.congr
  intro y hy
  have hge := starts_ge hy
  exact Function.update_of_ne (by omega) _ _

theorem Tiles.update_ge (h : Tiles span mem a l) (hp : ∀ b ∈ l, 0 < span b)
    (hx : a + extent span l ≤ x) (v : β) : Tiles span (Function.update mem x v) a l := by
  apply h.congr
  intro y hy
  have hlt := starts_lt hp hy
  exact Function.update_of_ne (by omega) _ _

/-- The cell at a start of the tiling is the one the list has there. -/
theorem Tiles.split (h : Tiles span mem a l) (hx : x ∈ starts span a l) :
    ∃ l₁ l₂, l = l₁ ++ mem x :: l₂ ∧ x = a + extent span l₁ := by
  obtain ⟨l₁, b, l₂, rfl, rfl⟩ := mem_starts.1 hx
  have hb := (tiles_append.1 h).2.1
  exact ⟨l₁, l₂, by rw [hb], rfl⟩

/-- One cell of a tiling is replaced by cells that cover the same bytes. -/
theorem Tiles.replace {mem' : Nat → β} {m : List β} (h : Tiles span mem a (l₁ ++ l ++ l₂))
    (hm : Tiles span mem' (a + extent span l₁) m) (he : extent span m = extent span l)
    (hp : ∀ b ∈ l₁ ++ l ++ l₂, 0 < span b)
    (hout : ∀ x, x < a + extent span l₁ ∨ a + extent span l₁ + extent span l ≤ x →
      mem' x = mem x) : Tiles span mem' a (l₁ ++ m ++ l₂) := by
  rw [tiles_append, tiles_append] at h ⊢
  refine ⟨⟨h.1.1.congr ?_, hm⟩, ?_⟩
  · intro x hx
    exact hout x (.inl (starts_lt (fun b hb => hp b (by simp [hb])) hx))
  · rw [extent_append, he, ← extent_append]
    apply h.2.congr
    intro x hx
    have hge := starts_ge hx
    rw [extent_append] at hge
    exact hout x (.inr (by omega))

end Tiling
