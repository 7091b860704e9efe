import Mathlib.Data.List.Prime
import Mathlib.NumberTheory.LucasPrimality

namespace Lucas
set_option autoImplicit true

/-! Primes, from elements whose powers show their order. The tests are Boolean, so that they run in the kernel. -/

/-- `a ^ n % m`, for an `n` of at most `k` bits -/
def powMod (m : Nat) : Nat → Nat → Nat → Nat
  | 0, _, _ => 1 % m
  | k + 1, a, n =>
    bif Nat.beq n 0 then 1 % m
    else bif Nat.beq (n % 2) 1 then a * powMod m k (a * a % m) (n / 2) % m
    else powMod m k (a * a % m) (n / 2)

/-- No `d` below the second number divides `q`, but for 1. -/
def undivided (q : Nat) : Nat → Bool
  | 0 => true
  | d + 1 => (Nat.ble d 1 || Nat.ble q d || Nat.ble 1 (q % d)) && undivided q d

/-- A prime small enough to try every divisor. -/
def tried (q : Nat) : Bool := Nat.ble 2 q && Nat.ble q 1023 && undivided q 32

/-- A number with an element of order one less, and the factors of that order. -/
structure Entry where
  p : Nat
  a : Nat
  factors : List Nat

/-- Lucas's test; the factors are primes that are known, or small. -/
def Entry.check (k : Nat) (known : List Nat) (e : Entry) : Bool :=
  Nat.ble 2 e.p && Nat.ble e.p (2 ^ k) && Nat.beq e.factors.prod (e.p - 1) &&
    Nat.beq (powMod e.p k e.a (e.p - 1)) 1 &&
    e.factors.all fun q => (known.any (Nat.beq q) || tried q) && !Nat.beq (powMod e.p k e.a ((e.p - 1) / q)) 1

/-- Every entry relies on those after it. -/
def check (k : Nat) : List Entry → Bool
  | [] => true
  | e :: es => e.check k (es.map (·.p)) && check k es

variable {k n q : Nat} {known : List Nat} {e : Entry} {es : List Entry}

theorem powMod_eq (m a : Nat) (h : n < 2 ^ k) : powMod m k a n = a ^ n % m := by
  induction k generalizing a n with
  | zero =>
    rw [Nat.lt_one_iff.1 h, pow_zero]
    rfl
  | succ k ih =>
    rw [pow_succ] at h
    have hhalf := ih (a * a % m) (by omega : n / 2 < 2 ^ k)
    have hsquare : (a * a % m) ^ (n / 2) % m = a ^ (2 * (n / 2)) % m := by
      rw [← Nat.pow_mod, pow_mul, sq]
    have hsplit := Nat.div_add_mod n 2
    rw [powMod, hhalf, hsquare]
    cases hzero : Nat.beq n 0 with
    | true =>
      rw [Nat.eq_of_beq_eq_true hzero]
      rfl
    | false =>
      cases hodd : Nat.beq (n % 2) 1 with
      | true =>
        rw [cond_false, cond_true, Nat.mul_mod_mod, ← pow_succ', ← Nat.eq_of_beq_eq_true hodd, hsplit]
      | false =>
        have hne := Nat.ne_of_beq_eq_false hodd
        rw [cond_false, cond_false, (by omega : 2 * (n / 2) = n)]

theorem undivided_spec {b : Nat} (h : undivided q b = true) : ∀ d < b, 2 ≤ d → d < q → q % d ≠ 0 := by
  induction b with
  | zero => exact fun d hd => absurd hd (Nat.not_lt_zero d)
  | succ b ih =>
    rw [undivided, Bool.and_eq_true, Bool.or_eq_true, Bool.or_eq_true, Nat.ble_eq, Nat.ble_eq, Nat.ble_eq] at h
    intro d hd htwo hq
    obtain hlt | rfl := Nat.lt_succ_iff_lt_or_eq.1 hd
    · exact ih h.2 d hlt htwo hq
    · omega

theorem tried_prime (h : tried q = true) : q.Prime := by
  rw [tried, Bool.and_eq_true, Bool.and_eq_true, Nat.ble_eq, Nat.ble_eq] at h
  obtain ⟨⟨htwo, hsmall⟩, hundivided⟩ := h
  rw [Nat.prime_def_le_sqrt]
  refine ⟨htwo, fun d hd hsqrt hdvd => ?_⟩
  have hsq := Nat.le_sqrt.1 hsqrt
  have hlow : d < 32 := by
    by_contra hge
    have hle := Nat.mul_le_mul (Nat.not_lt.1 hge) (Nat.not_lt.1 hge)
    omega
  have hdouble := Nat.mul_le_mul_right d hd
  exact undivided_spec hundivided d hlow hd (by omega) (Nat.mod_eq_zero_of_dvd hdvd)

theorem Entry.prime_of_check (h : e.check k known = true) (hknown : ∀ q ∈ known, q.Prime) : e.p.Prime := by
  rw [Entry.check, Bool.and_eq_true, Bool.and_eq_true, Bool.and_eq_true, Bool.and_eq_true, Nat.ble_eq, Nat.ble_eq,
    Nat.beq_eq, Nat.beq_eq, List.all_eq_true] at h
  obtain ⟨⟨⟨⟨htwo, hbits⟩, hproduct⟩, hfull⟩, hfactors⟩ := h
  have hpow : ∀ n ≤ e.p - 1, ((e.a : ZMod e.p) ^ n = 1 ↔ powMod e.p k e.a n = 1) := by
    intro n hn
    rw [powMod_eq _ _ (by omega : n < 2 ^ k), ← Nat.cast_pow, ← Nat.cast_one, ZMod.natCast_eq_natCast_iff',
      Nat.mod_eq_of_lt (by omega : 1 < e.p)]
  apply lucas_primality e.p e.a ((hpow _ le_rfl).2 hfull)
  intro q hq hdvd
  rw [← hproduct, hq.prime.dvd_prod_iff] at hdvd
  obtain ⟨r, hr, hdvd⟩ := hdvd
  have hfactor := hfactors r hr
  rw [Bool.and_eq_true, Bool.or_eq_true, List.any_eq_true, Bool.not_eq_true'] at hfactor
  have hprime : r.Prime := by
    obtain ⟨s, hs, heq⟩ | hsmall := hfactor.1
    · exact Nat.eq_of_beq_eq_true heq ▸ hknown s hs
    · exact tried_prime hsmall
  rw [(Nat.prime_dvd_prime_iff_eq hq hprime).1 hdvd, ne_eq, hpow _ (Nat.div_le_self ..)]
  exact Nat.ne_of_beq_eq_false hfactor.2

theorem prime_of_check (h : check k es = true) : ∀ q ∈ es.map (·.p), q.Prime := by
  induction es with
  | nil => exact fun q hq => absurd hq List.not_mem_nil
  | cons e es ih =>
    rw [check, Bool.and_eq_true] at h
    intro q hq
    rw [List.map_cons] at hq
    obtain rfl | hq := List.mem_cons.1 hq
    · exact e.prime_of_check h.1 (ih h.2)
    · exact ih h.2 q hq

end Lucas
