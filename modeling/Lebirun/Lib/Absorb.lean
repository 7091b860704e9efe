import Mathlib.Data.List.Basic
import Mathlib.Tactic.Linarith

namespace Absorb
set_option autoImplicit true

/-! Messages taken in whole blocks of `n`, one element at a time. -/

/-- The first `k` blocks of a message. -/
def blocks (n : Nat) (f : S → List α → S) : Nat → S → List α → S
  | 0, s, _ => s
  | k + 1, s, l => blocks n f k (f s (l.take n)) (l.drop n)

/-- All whole blocks. -/
def absorb (n : Nat) (f : S → List α → S) (s : S) (l : List α) : S := blocks n f (l.length / n) s l

/-- What follows the whole blocks. -/
def rest (n : Nat) (l : List α) : List α := l.drop (l.length / n * n)

structure Buffer (S : Type u) (α : Type v) where
  state : S
  pending : List α

/-- One more element; a full buffer is taken as a block. -/
def push (n : Nat) (f : S → List α → S) (b : Buffer S α) (x : α) : Buffer S α :=
  if b.pending.length + 1 = n then ⟨f b.state (b.pending ++ [x]), []⟩ else ⟨b.state, b.pending ++ [x]⟩

variable {S : Type u} {α : Type v} {n k j : Nat} {f : S → List α → S} {s : S} {l r : List α}

theorem blocks_add (k j : Nat) (s : S) (l : List α) :
    blocks n f (k + j) s l = blocks n f j (blocks n f k s l) (l.drop (k * n)) := by
  induction k generalizing s l with
  | zero => rw [Nat.zero_add, Nat.zero_mul, List.drop_zero, blocks]
  | succ k ih => rw [Nat.succ_add, blocks, blocks, ih, List.drop_drop, Nat.succ_mul, Nat.add_comm n]

/-- What comes after the blocks is not read. -/
theorem blocks_append (h : k * n ≤ l.length) (r : List α) : blocks n f k s (l ++ r) = blocks n f k s l := by
  induction k generalizing s l with
  | zero => rfl
  | succ k ih =>
    rw [Nat.succ_mul] at h
    have hn : n ≤ l.length := by omega
    have hrest : k * n ≤ (l.drop n).length := by
      rw [List.length_drop]
      omega
    rw [blocks, blocks, List.take_append_of_le_length hn, List.drop_append_of_le_length hn, ih hrest]

theorem length_rest (l : List α) : (rest n l).length = l.length % n := by
  have hsplit := Nat.div_add_mod l.length n
  rw [rest, List.length_drop, Nat.mul_comm]
  omega

/-- A message goes on where the blocks of its first part end. -/
theorem absorb_append (hn : 0 < n) (s : S) (l r : List α) :
    absorb n f s (l ++ r) = absorb n f (absorb n f s l) (rest n l ++ r) := by
  have hle : l.length / n * n ≤ l.length := Nat.div_mul_le_self _ _
  have hcount : (l ++ r).length / n = l.length / n + (rest n l ++ r).length / n := by
    have hsplit := Nat.div_add_mod l.length n
    have hlen : (l ++ r).length = (rest n l ++ r).length + n * (l.length / n) := by
      rw [List.length_append, List.length_append, length_rest]
      omega
    rw [hlen, Nat.add_mul_div_left _ _ hn, Nat.add_comm]
  rw [absorb, hcount, blocks_add, blocks_append hle, List.drop_append_of_le_length hle]
  rfl

theorem rest_append (hn : 0 < n) (l r : List α) : rest n (l ++ r) = rest n (rest n l ++ r) := by
  have hle : l.length / n * n ≤ l.length := Nat.div_mul_le_self _ _
  have hsplit := Nat.div_add_mod l.length n
  have hcount : (l ++ r).length / n = l.length / n + (rest n l ++ r).length / n := by
    have hlen : (l ++ r).length = (rest n l ++ r).length + n * (l.length / n) := by
      rw [List.length_append, List.length_append, length_rest]
      omega
    rw [hlen, Nat.add_mul_div_left _ _ hn, Nat.add_comm]
  rw [rest, hcount, Nat.add_mul, ← List.drop_drop, List.drop_append_of_le_length hle]
  rfl

theorem absorb_short (h : l.length < n) : absorb n f s l = s ∧ rest n l = l := by
  rw [absorb, rest, Nat.div_eq_of_lt h, Nat.zero_mul, List.drop_zero]
  exact ⟨rfl, rfl⟩

theorem absorb_block (hn : 0 < n) (h : l.length = n) : absorb n f s l = f s l ∧ rest n l = [] := by
  rw [absorb, rest, h, Nat.div_self hn, Nat.one_mul, List.drop_of_length_le h.le, blocks, blocks, List.take_of_length_le h.le]
  exact ⟨rfl, rfl⟩

/-- The buffer after some elements, wherever it started. -/
theorem foldl_push (hn : 0 < n) (b : Buffer S α) (hb : b.pending.length < n) (l : List α) :
    l.foldl (push n f) b = ⟨absorb n f b.state (b.pending ++ l), rest n (b.pending ++ l)⟩ ∧
      (l.foldl (push n f) b).pending.length < n := by
  induction l generalizing b with
  | nil =>
    obtain ⟨habsorb, hrest⟩ := absorb_short (f := f) (s := b.state) hb
    rw [List.foldl_nil, List.append_nil, habsorb, hrest]
    exact ⟨rfl, hb⟩
  | cons x l ih =>
    have hstep : push n f b x =
        ⟨absorb n f b.state (b.pending ++ [x]), rest n (b.pending ++ [x])⟩ ∧ (push n f b x).pending.length < n := by
      rw [push]
      by_cases hfull : b.pending.length + 1 = n
      · have hlen : (b.pending ++ [x]).length = n := by rw [List.length_append, List.length_singleton, hfull]
        obtain ⟨habsorb, hrest⟩ := absorb_block (f := f) (s := b.state) hn hlen
        rw [if_pos hfull, habsorb, hrest]
        exact ⟨rfl, hn⟩
      · have hlen : (b.pending ++ [x]).length < n := by
          rw [List.length_append, List.length_singleton]
          omega
        obtain ⟨habsorb, hrest⟩ := absorb_short (f := f) (s := b.state) hlen
        rw [if_neg hfull, habsorb, hrest]
        exact ⟨rfl, hlen⟩
    obtain ⟨heq, hlt⟩ := ih (push n f b x) hstep.2
    have hcons : b.pending ++ x :: l = (b.pending ++ [x]) ++ l := by rw [List.append_assoc, List.singleton_append]
    rw [List.foldl_cons, hcons, absorb_append hn b.state (b.pending ++ [x]) l, rest_append hn (b.pending ++ [x]) l]
    rw [hstep.1] at heq hlt ⊢
    exact ⟨heq, hlt⟩

/-- Two states that are taken along together. -/
theorem absorb_prod {T : Type w} {g : T → T} (s : S) (t : T) (l : List α) :
    absorb n (fun (x : S × T) b => (f x.1 b, g x.2)) (s, t) l = (absorb n f s l, g^[l.length / n] t) := by
  have hblocks : ∀ k (s : S) (t : T) (l : List α),
      blocks n (fun (x : S × T) b => (f x.1 b, g x.2)) k (s, t) l = (blocks n f k s l, g^[k] t) := by
    intro k
    induction k with
    | zero => exact fun _ _ _ => rfl
    | succ k ih => exact fun s t l => ih (f s (l.take n)) (g t) (l.drop n)
  exact hblocks _ s t l

/-- A map of the states that goes along with the blocks. -/
theorem absorb_map {T : Type w} {g : T → List α → T} {φ : S → T} (h : ∀ s b, φ (f s b) = g (φ s) b) (s : S)
    (l : List α) : φ (absorb n f s l) = absorb n g (φ s) l := by
  have hblocks : ∀ k s (l : List α), φ (blocks n f k s l) = blocks n g k (φ s) l := by
    intro k
    induction k with
    | zero => exact fun _ _ => rfl
    | succ k ih =>
      intro s l
      rw [blocks, blocks, ih, h]
  exact hblocks _ s l

end Absorb
