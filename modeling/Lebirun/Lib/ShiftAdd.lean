import Mathlib

/-! Coefficients 0 and 1 in a ring where 2 is 0, and the product by shifts and additions. -/

namespace ShiftAdd
set_option autoImplicit true

variable {R : Type*} [CommRing R] {α : R} {l m : List Bool} {b : Bool}

def coefficient (R : Type*) [CommRing R] (b : Bool) : R := if b then 1 else 0

/-- The element with the coefficients `l`, the constant one first. -/
def value (α : R) : List Bool → R
  | [] => 0
  | b :: l => coefficient R b + α * value α l

theorem coefficient_xor (h : (2 : R) = 0) (b c : Bool) : coefficient R (b ^^ c) = coefficient R b + coefficient R c := by
  cases b with
  | false => rw [Bool.false_xor]; exact (zero_add _).symm
  | true =>
    cases c with
    | false => exact (add_zero _).symm
    | true => exact (one_add_one_eq_two.trans h).symm

theorem value_xor (h : (2 : R) = 0) (hlen : l.length = m.length) :
    value α (l.zipWith xor m) = value α l + value α m := by
  induction l generalizing m with
  | nil =>
    rw [List.length_eq_zero_iff.1 hlen.symm]
    exact (add_zero _).symm
  | cons b l ih =>
    cases m with
    | nil => exact absurd hlen (Nat.succ_ne_zero _)
    | cons c m =>
      rw [List.zipWith_cons_cons, value, value, value, ih (Nat.succ.inj hlen), coefficient_xor h]
      ring

theorem value_append (α : R) (l m : List Bool) : value α (l ++ m) = value α l + α ^ l.length * value α m := by
  induction l with
  | nil => rw [List.nil_append, List.length_nil, pow_zero, one_mul]; exact (zero_add _).symm
  | cons b l ih =>
    rw [List.cons_append, value, value, ih, List.length_cons, pow_succ']
    ring

theorem value_zeros (k : Nat) : value α (List.replicate k false) = 0 := by
  induction k with
  | zero => rfl
  | succ k ih => rw [List.replicate_succ, value, ih, mul_zero]; exact add_zero 0

/-- The coefficients moved up by one, the last taken out. -/
theorem value_shift (α : R) (h : l ≠ []) :
    value α (false :: l).dropLast + α ^ l.length * coefficient R (l.getLast h) = α * value α l := by
  have hlast : (false :: l).dropLast ++ [l.getLast h] = false :: l := by
    have := List.dropLast_append_getLast (List.cons_ne_nil false l)
    rwa [List.getLast_cons h] at this
  have hvalue : value α (false :: l) = α * value α l := zero_add _
  have hone : value α [l.getLast h] = coefficient R (l.getLast h) := by
    rw [value, value, mul_zero, add_zero]
  have hsplit := value_append α (false :: l).dropLast [l.getLast h]
  rw [hlast, hvalue, List.length_dropLast, List.length_cons, Nat.add_sub_cancel, hone] at hsplit
  exact hsplit.symm

/-- The loop: the bits of a factor from its constant one, the sum so far and the other factor. -/
def shiftAdd (step : β → β) (add : β → β → β) : List Bool → β → β → β
  | [], z, _ => z
  | b :: l, z, v => shiftAdd step add l (if b then add z v else z) (step v)

theorem shiftAdd_value (α : R) (step : β → β) (add : β → β → β) (φ : β → R) (P : β → Prop)
    (hadd : ∀ z v, P z → P v → P (add z v) ∧ φ (add z v) = φ z + φ v)
    (hstep : ∀ v, P v → P (step v) ∧ φ (step v) = α * φ v) (l : List Bool) :
    ∀ z v, P z → P v → P (shiftAdd step add l z v) ∧ φ (shiftAdd step add l z v) = φ z + value α l * φ v := by
  induction l with
  | nil =>
    intro z v hz hv
    exact ⟨hz, ((congrArg _ (zero_mul _)).trans (add_zero _)).symm⟩
  | cons b l ih =>
    intro z v hz hv
    obtain ⟨hsum, hφ⟩ := hadd z v hz hv
    obtain ⟨hv', hφ'⟩ := hstep v hv
    rw [shiftAdd]
    cases b with
    | false =>
      obtain ⟨h, heq⟩ := ih z (step v) hz hv'
      refine ⟨h, heq.trans ?_⟩
      rw [hφ', value, coefficient, if_neg Bool.false_ne_true]
      ring
    | true =>
      obtain ⟨h, heq⟩ := ih (add z v) (step v) hsum hv'
      refine ⟨h, heq.trans ?_⟩
      rw [hφ, hφ', value, coefficient, if_pos rfl]
      ring

/-- Horner's rule. -/
theorem horner (h : R) (l : List R) (y : R) :
    l.foldl (fun y b => (y + b) * h) y =
      y * h ^ l.length + ∑ i ∈ Finset.range l.length, l.getD i 0 * h ^ (l.length - i) := by
  induction l generalizing y with
  | nil => simp
  | cons b l ih =>
    rw [List.foldl_cons, ih, List.length_cons, Finset.sum_range_succ']
    simp only [List.getD_cons_zero, List.getD_cons_succ, Nat.sub_zero, Nat.add_sub_add_right]
    ring

open Polynomial

theorem value_map {S : Type*} [CommRing S] (f : R →+* S) (l : List Bool) : f (value α l) = value (f α) l := by
  induction l with
  | nil => exact map_zero f
  | cons b l ih =>
    rw [value, value, map_add, map_mul, ih]
    congr 1
    cases b with
    | false => exact map_zero f
    | true => exact map_one f

theorem coefficient_inj : coefficient (ZMod 2) b = coefficient (ZMod 2) c → b = c := by
  revert b c
  decide

theorem coefficient_C (b : Bool) : coefficient (ZMod 2)[X] b = C (coefficient (ZMod 2) b) := by
  cases b with
  | false => exact C_0.symm
  | true => exact C_1.symm

theorem value_degree (l : List Bool) : (value (X : (ZMod 2)[X]) l).degree < l.length := by
  induction l with
  | nil =>
    rw [value, degree_zero]
    exact WithBot.bot_lt_coe _
  | cons b l ih =>
    rw [value, coefficient_C, List.length_cons]
    apply (degree_add_le _ _).trans_lt
    rw [max_lt_iff]
    constructor
    · exact degree_C_le.trans_lt (by exact_mod_cast Nat.succ_pos l.length)
    · rw [degree_mul, degree_X, add_comm]
      exact_mod_cast WithBot.add_lt_add_right (by decide) ih

theorem value_inj_polynomial (hlen : l.length = m.length) (h : value (X : (ZMod 2)[X]) l = value X m) : l = m := by
  induction l generalizing m with
  | nil => exact (List.length_eq_zero_iff.1 hlen.symm).symm
  | cons b l ih =>
    cases m with
    | nil => exact absurd hlen (Nat.succ_ne_zero _)
    | cons c m =>
      rw [value, value, coefficient_C, coefficient_C] at h
      have hhead := congrArg (coeff · 0) h
      simp only [coeff_add, coeff_C_zero, mul_coeff_zero, coeff_X_zero, zero_mul, add_zero] at hhead
      rw [hhead] at h
      rw [coefficient_inj hhead, ih (Nat.succ.inj hlen) (mul_left_cancel₀ X_ne_zero (add_left_cancel h))]

/-- In the quotient by a polynomial, elements are told apart by as many coefficients as its degree. -/
theorem value_inj {f : (ZMod 2)[X]} (hf : f.Monic) (hl : l.length = f.natDegree) (hm : m.length = f.natDegree)
    (h : value (AdjoinRoot.root f) l = value (AdjoinRoot.root f) m) : l = m := by
  rw [← AdjoinRoot.mk_X, ← value_map, ← value_map, AdjoinRoot.mk_eq_mk] at h
  have hdegree : (value (X : (ZMod 2)[X]) l - value X m).degree < f.degree := by
    rw [degree_eq_natDegree hf.ne_zero]
    apply (degree_sub_le _ _).trans_lt
    rw [max_lt_iff]
    exact ⟨hl ▸ value_degree l, hm ▸ value_degree m⟩
  exact value_inj_polynomial (hl.trans hm.symm) (sub_eq_zero.1 (eq_zero_of_dvd_of_degree_lt h hdegree))

end ShiftAdd
