import Mathlib

namespace Machine
set_option autoImplicit true

variable {K R S : Type*}

/-- A chain of lookups from a state: `look` answers or names a key, `enter` is where the key leads. -/
inductive Ends (look : S → R ⊕ K) (enter : K → S) : S → Nat → R → Prop
  | done : look s = .inl r → Ends look enter s 0 r
  | next : look s = .inr k → Ends look enter (enter k) n r → Ends look enter s (n + 1) r

theorem Ends.unique {look : S → R ⊕ K} (h₁ : Ends look enter s n r₁) (h₂ : Ends look enter s m r₂) :
    n = m ∧ r₁ = r₂ := by
  induction h₁ generalizing m with
  | done hl =>
    cases h₂ with
    | done hl' =>
      rw [hl] at hl'
      exact ⟨rfl, Sum.inl.inj hl'⟩
    | next hl' => simp [hl] at hl'
  | next hl _ ih =>
    cases h₂ with
    | done hl' => simp [hl] at hl'
    | next hl' hk' =>
      rw [hl] at hl'
      cases hl'
      obtain ⟨rfl, hr⟩ := ih hk'
      exact ⟨rfl, hr⟩

theorem ends_inl {look : S → R ⊕ K} (h : look s = .inl r') :
    Ends look enter s n r ↔ n = 0 ∧ r = r' := by
  constructor
  · intro he
    cases he with
    | done hl =>
      rw [h] at hl
      exact ⟨rfl, (Sum.inl.inj hl).symm⟩
    | next hl => simp [h] at hl
  · intro he
    obtain ⟨rfl, rfl⟩ := he
    exact .done h

theorem ends_inr {look : S → R ⊕ K} (h : look s = .inr k) :
    Ends look enter s n r ↔ ∃ m, n = m + 1 ∧ Ends look enter (enter k) m r := by
  constructor
  · intro he
    cases he with
    | done hl => simp [h] at hl
    | next hl hk =>
      rw [h] at hl
      cases hl
      exact ⟨_, rfl, hk⟩
  · intro he
    obtain ⟨m, rfl, hk⟩ := he
    exact .next h hk

variable [DecidableEq K]

/-- One turn of a loop that follows redirections: `once n` is the lookup after `n` of them, `fail` the
result for a key that was met before or for one redirection more than `limit`. -/
def turn (once : Nat → K → R ⊕ K) (limit : Nat) (fail : R) (s : K × List K) : R ⊕ K × List K :=
  match once s.2.length s.1 with
  | .inl r => .inl r
  | .inr k =>
    if k ∈ s.2 then .inl fail
    else if s.2.length = limit then .inl fail
    else .inr (k, s.2 ++ [k])

/-- The state after `n` turns, or the result found on the way. -/
def turns (once : Nat → K → R ⊕ K) (limit : Nat) (fail : R) : Nat → K × List K → R ⊕ K × List K
  | 0, s => .inr s
  | n + 1, s =>
    match turn once limit fail s with
    | .inl r => .inl r
    | .inr s' => turns once limit fail n s'

def Returns (once : Nat → K → R ⊕ K) (limit : Nat) (fail : R) (k : K) (r : R) : Prop :=
  ∃ n, turns once limit fail n (k, []) = .inl r

theorem turn_inr {once : Nat → K → R ⊕ K} (h : turn once limit fail s = .inr s') :
    ∃ k, once s.2.length s.1 = .inr k ∧ k ∉ s.2 ∧ s.2.length ≠ limit ∧ s' = (k, s.2 ++ [k]) := by
  unfold turn at h
  cases ho : once s.2.length s.1 with
  | inl r => simp [ho] at h
  | inr k =>
    simp only [ho] at h
    split at h
    · cases h
    · rename_i hk
      split at h
      · cases h
      · rename_i hl
        cases h
        exact ⟨k, rfl, hk, hl, rfl⟩

/-- Whatever the lookups answer, the loop returns within `limit` redirections. -/
theorem turns_return (once : Nat → K → R ⊕ K) (fail : R) {s : K × List K}
    (h : s.2.length + m = limit) : ∃ n ≤ m + 1, ∃ r, turns once limit fail n s = .inl r := by
  induction m generalizing s with
  | zero =>
    apply Exists.intro 1
    cases ht : turn once limit fail s with
    | inl r => exact ⟨le_refl _, r, by simp [turns, ht]⟩
    | inr s' =>
      obtain ⟨k, -, -, hl, -⟩ := turn_inr ht
      exact absurd h hl
  | succ m ih =>
    cases ht : turn once limit fail s with
    | inl r => exact ⟨1, by omega, r, by simp [turns, ht]⟩
    | inr s' =>
      obtain ⟨k, -, -, -, rfl⟩ := turn_inr ht
      obtain ⟨n, hn, r, hr⟩ := ih (s := (k, s.2 ++ [k])) (by simp; omega)
      exact ⟨n + 1, by omega, r, by simp [turns, ht, hr]⟩

theorem turns_add {once : Nat → K → R ⊕ K} (h : turns once limit fail n s = .inl r) (m : Nat) :
    turns once limit fail (n + m) s = .inl r := by
  induction n generalizing s with
  | zero => cases h
  | succ n ih =>
    rw [Nat.succ_add]
    unfold turns at h ⊢
    cases ht : turn once limit fail s with
    | inl r' => simpa [ht] using h
    | inr s' =>
      simp only [ht] at h ⊢
      exact ih h

theorem Returns.unique {once : Nat → K → R ⊕ K} (h₁ : Returns once limit fail k r₁)
    (h₂ : Returns once limit fail k r₂) : r₁ = r₂ := by
  obtain ⟨n, hn⟩ := h₁
  obtain ⟨m, hm⟩ := h₂
  have h := turns_add hn m
  rw [Nat.add_comm, turns_add hm n] at h
  exact (Sum.inl.inj h).symm

theorem exists_returns (once : Nat → K → R ⊕ K) (limit : Nat) (fail : R) (k : K) :
    ∃ r, Returns once limit fail k r := by
  have hlen : ([] : List K).length + limit = limit := by simp
  obtain ⟨n, -, r, hr⟩ := turns_return once fail (s := (k, [])) hlen
  exact ⟨r, n, hr⟩

/-- Keys met are keys of chains longer than what is left, so none is met twice. -/
theorem turns_of_ends {look : S → R ⊕ K} {once : Nat → K → R ⊕ K} {s : K × List K}
    (ho : ∀ i k, s.2.length < i → once i k = look (enter k)) (hs : once s.2.length s.1 = look x)
    (h : Ends look enter x n r) (hn : s.2.length + n ≤ limit)
    (hseen : ∀ k ∈ s.2, ∃ m, n ≤ m ∧ Ends look enter (enter k) m r) :
    turns once limit fail (n + 1) s = .inl r := by
  induction n generalizing s x with
  | zero =>
    cases h with
    | done hl => simp [turns, turn, hs, hl]
  | succ n ih =>
    cases h with
    | next hl hk =>
      rename_i k
      have hfresh : k ∉ s.2 := by
        intro hmem
        obtain ⟨m, hm, he⟩ := hseen k hmem
        have := (hk.unique he).1
        omega
      have ht : turn once limit fail s = .inr (k, s.2 ++ [k]) := by
        simp only [turn, hs, hl, hfresh, if_false]
        rw [if_neg (by omega)]
      rw [turns, ht]
      apply ih (s := (k, s.2 ++ [k])) (x := enter k)
      · intro i k' hi
        simp only [List.length_append, List.length_singleton] at hi
        exact ho i k' (by omega)
      · exact ho _ k (by simp)
      · exact hk
      · simp only [List.length_append, List.length_singleton]
        omega
      · intro k' hk'
        obtain hk' | hk' := List.mem_append.mp hk'
        · obtain ⟨m, hm, he⟩ := hseen k' hk'
          exact ⟨m, by omega, he⟩
        · obtain rfl := List.mem_singleton.mp hk'
          exact ⟨n, le_refl _, hk⟩

theorem ends_of_turns {look : S → R ⊕ K} {once : Nat → K → R ⊕ K} {s : K × List K}
    (ho : ∀ i k, s.2.length < i → once i k = look (enter k)) (hs : once s.2.length s.1 = look x)
    (h : turns once limit fail n s = .inl r) (hr : r ≠ fail) (hle : s.2.length ≤ limit) :
    ∃ m, s.2.length + m ≤ limit ∧ Ends look enter x m r := by
  induction n generalizing s x with
  | zero => cases h
  | succ n ih =>
    unfold turns at h
    cases ht : turn once limit fail s with
    | inl r' =>
      rw [ht] at h
      cases h
      unfold turn at ht
      rw [hs] at ht
      cases hl : look x with
      | inl r' =>
        rw [hl] at ht
        cases ht
        exact ⟨0, hle, .done hl⟩
      | inr k =>
        simp only [hl] at ht
        split at ht
        · cases ht
          exact absurd rfl hr
        · split at ht
          · cases ht
            exact absurd rfl hr
          · cases ht
    | inr s' =>
      simp only [ht] at h
      obtain ⟨k, hok, -, hl, rfl⟩ := turn_inr ht
      obtain ⟨m, hm, he⟩ := ih (s := (k, s.2 ++ [k])) (x := enter k)
        (fun i k' hi => ho i k' (by simp only [List.length_append, List.length_singleton] at hi; omega))
        (ho _ k (by simp)) h (by simp only [List.length_append, List.length_singleton]; omega)
      simp only [List.length_append, List.length_singleton] at hm
      exact ⟨m + 1, by omega, .next (hs.symm.trans hok) he⟩

/-- The loop returns `r` exactly when the chain ends with it within the limit. -/
theorem returns_iff_ends {look : S → R ⊕ K} {once : Nat → K → R ⊕ K}
    (ho : ∀ i k, 0 < i → once i k = look (enter k)) (hs : once 0 k₀ = look x) (hr : r ≠ fail) :
    Returns once limit fail k₀ r ↔ ∃ n ≤ limit, Ends look enter x n r := by
  constructor
  · intro h
    obtain ⟨n, hn⟩ := h
    obtain ⟨m, hm, he⟩ := ends_of_turns (s := (k₀, [])) ho hs hn hr (Nat.zero_le _)
    exact ⟨m, by simpa using hm, he⟩
  · intro h
    obtain ⟨n, hn, he⟩ := h
    exact ⟨n + 1, turns_of_ends (s := (k₀, [])) ho hs he (by simpa using hn) (by simp)⟩

/-- Two loops with the same successful results have the same results. -/
theorem returns_congr {once₁ : Nat → K → R ⊕ K} {once₂ : Nat → K → R ⊕ K}
    (h : ∀ r, r ≠ fail → (Returns once₁ limit fail k₁ r ↔ Returns once₂ limit fail k₂ r)) (r : R) :
    Returns once₁ limit fail k₁ r ↔ Returns once₂ limit fail k₂ r := by
  by_cases hr : r = fail
  · subst hr
    constructor
    · intro h₁
      obtain ⟨r', h₂⟩ := exists_returns once₂ limit r k₂
      by_cases hr' : r' = r
      · exact hr' ▸ h₂
      · exact absurd (((h r' hr').mpr h₂).unique h₁) hr'
    · intro h₂
      obtain ⟨r', h₁⟩ := exists_returns once₁ limit r k₁
      by_cases hr' : r' = r
      · exact hr' ▸ h₁
      · exact absurd (((h r' hr').mp h₁).unique h₂) hr'
  · exact h r hr

end Machine
