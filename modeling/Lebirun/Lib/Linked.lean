import Mathlib

namespace Linked
set_option autoImplicit true

variable {ι : Type*} {next prev next' prev' : ι → Option ι} {p q : Option ι} {l l₁ l₂ : List ι}

/-- The nodes of `l` are linked both ways. The first one's `prev` is `p` and the last one's
`next` is `q`. -/
def Seg (next prev : ι → Option ι) : Option ι → List ι → Option ι → Prop
  | _, [], _ => True
  | p, a :: l, q => prev a = p ∧ next a = l.head?.or q ∧ Seg next prev (some a) l q

@[simp]
theorem seg_nil : Seg next prev p [] q := trivial

@[simp]
theorem seg_cons :
    Seg next prev p (a :: l) q ↔
      prev a = p ∧ next a = l.head?.or q ∧ Seg next prev (some a) l q :=
  Iff.rfl

theorem head?_append_or : (l₁ ++ l₂).head?.or q = l₁.head?.or (l₂.head?.or q) := by
  cases l₁ with
  | nil => simp
  | cons a l => rfl

theorem getLast?_cons_or : (a :: l).getLast?.or p = l.getLast?.or (some a) := by
  rw [List.getLast?_cons]
  cases l.getLast? with
  | none => rfl
  | some b => rfl

theorem seg_append :
    Seg next prev p (l₁ ++ l₂) q ↔
      Seg next prev p l₁ (l₂.head?.or q) ∧ Seg next prev (l₁.getLast?.or p) l₂ q := by
  induction l₁ generalizing p with
  | nil => simp
  | cons a l₁ ih =>
    rw [List.cons_append, seg_cons, seg_cons, head?_append_or, ih, getLast?_cons_or]
    simp only [and_assoc]

/-- The links of a segment are those of its own nodes. -/
theorem Seg.congr (h : Seg next prev p l q) (hn : ∀ a ∈ l, next' a = next a)
    (hp : ∀ a ∈ l, prev' a = prev a) : Seg next' prev' p l q := by
  induction l generalizing p with
  | nil => trivial
  | cons a l ih =>
    refine ⟨(hp a List.mem_cons_self).trans h.1, (hn a List.mem_cons_self).trans h.2.1, ?_⟩
    apply ih h.2.2
    · intro b hb
      exact hn b (List.mem_cons_of_mem _ hb)
    · intro b hb
      exact hp b (List.mem_cons_of_mem _ hb)

/-- Only the last node holds the link out of a segment. -/
theorem Seg.exit (h : Seg next prev p (l ++ [a]) q) (ha : next' a = q') (hpa : prev' a = prev a)
    (hn : ∀ b ∈ l, next' b = next b) (hp : ∀ b ∈ l, prev' b = prev b) :
    Seg next' prev' p (l ++ [a]) q' := by
  rw [seg_append] at h ⊢
  obtain ⟨h₁, h₂, -, -⟩ := h
  exact ⟨h₁.congr hn hp, hpa.trans h₂, by simpa using ha, trivial⟩

/-- Only the first node holds the link into a segment. -/
theorem Seg.enter (h : Seg next prev p (a :: l) q) (ha : prev' a = p') (hna : next' a = next a)
    (hn : ∀ b ∈ l, next' b = next b) (hp : ∀ b ∈ l, prev' b = prev b) :
    Seg next' prev' p' (a :: l) q :=
  ⟨ha, hna.trans h.2.1, h.2.2.congr hn hp⟩

/-- A node outside the list is linked in behind its last one. -/
theorem Seg.snoc [DecidableEq ι] (h : Seg next prev none l none) (hx : prev' x = l.getLast?)
    (hxn : next' x = none)
    (hn : ∀ b ∈ l, next' b = if l.getLast? = some b then some x else next b)
    (hp : ∀ b ∈ l, prev' b = prev b) (hnd : l.Nodup) : Seg next' prev' none (l ++ [x]) none := by
  rw [seg_append]
  refine ⟨?_, ?_, ?_, trivial⟩
  · rcases List.eq_nil_or_concat l with rfl | ⟨m, y, rfl⟩
    · trivial
    · rw [List.concat_eq_append] at h hn hp hnd ⊢
      have hlast : (m ++ [y]).getLast? = some y := by simp
      rw [hlast] at hn
      apply h.exit
      · rw [hn y (by simp), if_pos rfl]
        rfl
      · exact hp y (by simp)
      · intro b hb
        rw [hn b (by simp [hb]), if_neg]
        rintro he
        cases he
        exact (List.nodup_append.1 hnd).2.2 y hb y (by simp) rfl
      · intro b hb
        exact hp b (by simp [hb])
  · rw [hx, Option.or_none]
  · simpa using hxn

/-- A node outside the list is linked in right after one of its nodes. -/
theorem Seg.insert [DecidableEq ι] (h : Seg next prev none (l₁ ++ a :: l₂) none)
    (hnd : (l₁ ++ a :: l₂).Nodup) (hna : next' a = some x) (hnx : next' x = next a)
    (hpx : prev' x = some a) (hpa : prev' a = prev a) (hn₁ : ∀ b ∈ l₁, next' b = next b)
    (hp₁ : ∀ b ∈ l₁, prev' b = prev b) (hn₂ : ∀ b ∈ l₂, next' b = next b)
    (hp₂ : ∀ b ∈ l₂, prev' b = if next a = some b then some x else prev b) :
    Seg next' prev' none (l₁ ++ a :: x :: l₂) none := by
  rw [seg_append] at h ⊢
  obtain ⟨h₁, hpa', hna', h₂⟩ := h
  obtain ⟨-, hnd₂, -⟩ := List.nodup_append.1 hnd
  obtain ⟨-, hnd₂⟩ := List.nodup_cons.1 hnd₂
  refine ⟨h₁.congr hn₁ hp₁, hpa.trans hpa', hna, hpx, hnx.trans hna', ?_⟩
  rw [hna', Option.or_none] at hp₂
  cases l₂ with
  | nil => trivial
  | cons y m =>
    apply h₂.enter
    · rw [hp₂ y List.mem_cons_self, if_pos List.head?_cons]
    · exact hn₂ y List.mem_cons_self
    · intro b hb
      exact hn₂ b (List.mem_cons_of_mem _ hb)
    · intro b hb
      rw [hp₂ b (List.mem_cons_of_mem _ hb), if_neg]
      intro he
      cases he
      exact (List.nodup_cons.1 hnd₂).1 hb

theorem Seg.next_mem (h : Seg next prev p l none) (ha : a ∈ l) (hn : next a = some b) :
    b ∈ l := by
  obtain ⟨l₁, l₂, rfl⟩ := List.append_of_mem ha
  rw [seg_append] at h
  obtain ⟨-, -, hna, -⟩ := h
  rw [hn, Option.or_none] at hna
  exact List.mem_append_right _ (List.mem_cons_of_mem _ (List.mem_of_head? hna.symm))

/-- A node is unlinked from between its neighbours. -/
theorem Seg.remove [DecidableEq ι] (h : Seg next prev none (l₁ ++ a :: l₂) none)
    (hnd : (l₁ ++ a :: l₂).Nodup)
    (hn : ∀ b ∈ l₁ ++ l₂, next' b = if prev a = some b then next a else next b)
    (hp : ∀ b ∈ l₁ ++ l₂, prev' b = if next a = some b then prev a else prev b) :
    Seg next' prev' none (l₁ ++ l₂) none := by
  rw [seg_append] at h ⊢
  obtain ⟨h₁, hpa, hna, h₂⟩ := h
  rw [Option.or_none] at hpa hna ⊢
  obtain ⟨hnd₁, hnd₂, hdis⟩ := List.nodup_append.1 hnd
  obtain ⟨hnot, hnd₂⟩ := List.nodup_cons.1 hnd₂
  have hlast : ∀ b ∈ l₂, l₁.getLast? ≠ some b := by
    intro b hb he
    exact hdis b (List.mem_of_getLast? he) b (List.mem_cons_of_mem _ hb) rfl
  have hhead : ∀ b ∈ l₁, l₂.head? ≠ some b := by
    intro b hb he
    exact hdis b hb b (List.mem_cons_of_mem _ (List.mem_of_head? he)) rfl
  rw [hpa, hna] at hn hp
  constructor
  · rcases List.eq_nil_or_concat l₁ with rfl | ⟨m, y, rfl⟩
    · trivial
    · rw [List.concat_eq_append] at *
      have hy : (m ++ [y]).getLast? = some y := by simp
      apply h₁.exit
      · rw [hn y (by simp), if_pos hy]
      · rw [hp y (by simp), if_neg (hhead y (by simp))]
      · intro b hb
        rw [hn b (by simp [hb]), if_neg]
        rw [hy]
        rintro he
        cases he
        exact (List.nodup_append.1 hnd₁).2.2 y hb y (by simp) rfl
      · intro b hb
        rw [hp b (by simp [hb]), if_neg (hhead b (by simp [hb]))]
  · cases l₂ with
    | nil => trivial
    | cons y m =>
      apply h₂.enter
      · rw [hp y (by simp), if_pos List.head?_cons, Option.or_none]
      · rw [hn y (by simp), if_neg (hlast y (by simp))]
      · intro b hb
        rw [hn b (by simp [hb]), if_neg (hlast b (by simp [hb]))]
      · intro b hb
        rw [hp b (by simp [hb]), if_neg]
        rintro he
        cases he
        exact (List.nodup_cons.1 hnd₂).1 hb

/-- The loop that follows `next` until a node passes the test. -/
def search (next : ι → Option ι) (test : ι → Bool) : Nat → Option ι → Option ι
  | 0, _ => none
  | _ + 1, none => none
  | fuel + 1, some a => if test a then some a else search next test fuel (next a)

/-- A node the loop stops at is one of the list and passes the test. -/
theorem search_mem (h : Seg next prev p l none) (hs : search next test fuel l.head? = some a) :
    a ∈ l ∧ test a = true := by
  induction l generalizing p fuel with
  | nil =>
    cases fuel with
    | zero => cases hs
    | succ fuel => cases hs
  | cons b l ih =>
    cases fuel with
    | zero => cases hs
    | succ fuel =>
      obtain ⟨-, hn, ht⟩ := h
      rw [List.head?_cons, search] at hs
      split at hs
      · rename_i hb
        cases hs
        exact ⟨List.mem_cons_self, hb⟩
      · rw [hn, Option.or_none] at hs
        obtain ⟨hm, ha⟩ := ih ht hs
        exact ⟨List.mem_cons_of_mem _ hm, ha⟩

end Linked
