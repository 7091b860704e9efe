import Mathlib

namespace Limbs
set_option autoImplicit true

/-! Numbers as lists of 32-bit words, the least significant first. -/

def val : List UInt32 → Nat
  | [] => 0
  | x :: l => x.toNat + 2 ^ 32 * val l

/-- Compared from the last word down. -/
def cmp : List UInt32 → List UInt32 → Ordering
  | x :: a, y :: b =>
    match cmp a b with
    | .eq => compare x.toNat y.toNat
    | o => o
  | _, _ => .eq

/-- Sum with a carry, in words of 64 bits. -/
def add : Nat → List UInt32 → List UInt32 → List UInt32 × Nat
  | c, x :: a, y :: b =>
    let t := (c + (x.toNat + y.toNat)) % 2 ^ 64
    let r := add (t / 2 ^ 32) a b
    (UInt32.ofNat t :: r.1, r.2)
  | c, _, _ => ([], c)

/-- Difference with a borrow, in words of 64 bits. -/
def sub : Nat → List UInt32 → List UInt32 → List UInt32 × Nat
  | c, x :: a, y :: b =>
    let t := (x.toNat + 2 ^ 64 - y.toNat + 2 ^ 64 - c) % 2 ^ 64
    let r := sub (t / 2 ^ 63) a b
    (UInt32.ofNat t :: r.1, r.2)
  | c, _, _ => ([], c)

/-- One row of a product: `x * b` is added to the words of `r`, and the carry is put in the word after them. -/
def mulRow (x : UInt32) : Nat → List UInt32 → List UInt32 → List UInt32
  | c, z :: r, y :: b =>
    let t := (c + (z.toNat + x.toNat * y.toNat)) % 2 ^ 64
    UInt32.ofNat t :: mulRow x (t / 2 ^ 32) r b
  | c, _ :: r, [] => UInt32.ofNat c :: r
  | _, [], _ => []

/-- The rows of a product, each one word further. -/
def mulRows (b : List UInt32) : List UInt32 → List UInt32 → List UInt32
  | x :: a, r =>
    match mulRow x 0 r b with
    | z :: r => z :: mulRows b a r
    | [] => []
  | [], r => r

def shl1 : UInt32 → List UInt32 → List UInt32
  | c, x :: l => (x <<< 1 ||| c) :: shl1 (x >>> 31) l
  | _, [] => []

/-- The words shifted right, with the bit that falls out. -/
def shr1 : List UInt32 → List UInt32 × UInt32
  | x :: l => ((x >>> 1 ||| (shr1 l).2 <<< 31) :: (shr1 l).1, x &&& 1)
  | [] => ([], 0)

variable {a b l r : List UInt32} {x y z : UInt32} {c m n : Nat}

/-! The value of a list of words. -/

theorem val_cons (x : UInt32) (l : List UInt32) : val (x :: l) = x.toNat + 2 ^ 32 * val l := rfl

theorem size_succ (n : Nat) : (2 ^ 32) ^ (n + 1) = 2 ^ 32 * (2 ^ 32) ^ n := Nat.pow_succ'

theorem val_lt (l : List UInt32) : val l < (2 ^ 32) ^ l.length := by
  induction l with
  | nil => exact Nat.zero_lt_one
  | cons x l ih =>
    have hx := x.toNat_lt
    have hmul : 2 ^ 32 * (val l + 1) ≤ 2 ^ 32 * (2 ^ 32) ^ l.length := Nat.mul_le_mul_left (2 ^ 32) ih
    rw [val_cons, List.length_cons, size_succ]
    rw [Nat.mul_add] at hmul
    omega

theorem val_append (a b : List UInt32) : val (a ++ b) = val a + (2 ^ 32) ^ a.length * val b := by
  induction a with
  | nil => rw [List.nil_append, List.length_nil, Nat.pow_zero, Nat.one_mul, val, Nat.zero_add]
  | cons x a ih =>
    rw [List.cons_append, val_cons, val_cons, ih, List.length_cons, size_succ]
    ring

theorem val_zeros (n : Nat) : val (List.replicate n 0) = 0 := by
  induction n with
  | zero => rfl
  | succ n ih => rw [List.replicate_succ, val_cons, ih]; rfl

theorem val_eq_zero (l : List UInt32) : val l = 0 ↔ ∀ x ∈ l, x = 0 := by
  constructor
  · intro h
    induction l with
    | nil => exact fun x hx => absurd hx List.not_mem_nil
    | cons y l ih =>
      rw [val_cons] at h
      intro x hx
      obtain rfl | hx := List.mem_cons.1 hx
      · exact UInt32.toNat_inj.1 (by rw [UInt32.toNat_zero]; omega)
      · exact ih (by omega) x hx
  · intro h
    rw [List.eq_replicate_of_mem h, val_zeros]

theorem cmp_eq (h : a.length = b.length) : cmp a b = compare (val a) (val b) := by
  induction a generalizing b with
  | nil =>
    rw [List.length_nil] at h
    rw [List.length_eq_zero_iff.1 h.symm]
    rfl
  | cons x a ih =>
    obtain _ | ⟨y, b⟩ := b
    · cases h
    have hx := x.toNat_lt
    have hy := y.toNat_lt
    rw [cmp, ih (Nat.succ.inj h), val_cons, val_cons]
    obtain hlt | heq | hgt := Nat.lt_trichotomy (val a) (val b)
    · rw [Nat.compare_eq_lt.2 hlt]
      exact (Nat.compare_eq_lt.2 (by omega)).symm
    · rw [heq, Nat.compare_eq_eq.2 rfl]
      dsimp only
      rw [Nat.compare_eq_ite_lt, Nat.compare_eq_ite_lt]
      have hlt : x.toNat + 2 ^ 32 * val b < y.toNat + 2 ^ 32 * val b ↔ x.toNat < y.toNat := by omega
      have hgt : y.toNat + 2 ^ 32 * val b < x.toNat + 2 ^ 32 * val b ↔ y.toNat < x.toNat := by omega
      rw [if_congr hlt rfl (if_congr hgt rfl rfl)]
    · rw [Nat.compare_eq_gt.2 hgt]
      exact (Nat.compare_eq_gt.2 (by omega)).symm

theorem cmp_lt (h : a.length = b.length) : cmp a b = .lt ↔ val a < val b := by
  rw [cmp_eq h, Nat.compare_eq_lt]

theorem cmp_eq_eq (h : a.length = b.length) : cmp a b = .eq ↔ val a = val b := by
  rw [cmp_eq h, Nat.compare_eq_eq]

theorem toNat_ofNat (n : Nat) : (UInt32.ofNat n).toNat = n % 2 ^ 32 := UInt32.toNat_ofNat'

theorem add_val (h : a.length = b.length) (hc : c ≤ 1) :
    val (add c a b).1 + (2 ^ 32) ^ a.length * (add c a b).2 = val a + val b + c ∧ (add c a b).1.length = a.length ∧
      (add c a b).2 ≤ 1 := by
  induction a generalizing b c with
  | nil =>
    rw [List.length_nil] at h
    rw [List.length_eq_zero_iff.1 h.symm]
    refine ⟨?_, rfl, hc⟩
    rw [add, val, List.length_nil, Nat.pow_zero, Nat.one_mul]
    intros
    contradiction
  | cons x a ih =>
    obtain _ | ⟨y, b⟩ := b
    · cases h
    have hx := x.toNat_lt
    have hy := y.toNat_lt
    rw [add]
    dsimp only
    rw [Nat.mod_eq_of_lt (by omega)]
    obtain ⟨hval, hlen, hle⟩ := @ih b ((c + (x.toNat + y.toNat)) / 2 ^ 32) (Nat.succ.inj h) (by omega)
    refine ⟨?_, ?_, hle⟩
    · rw [val_cons, val_cons, val_cons, toNat_ofNat, List.length_cons, size_succ, Nat.mul_assoc]
      generalize (2 ^ 32) ^ a.length * (add ((c + (x.toNat + y.toNat)) / 2 ^ 32) a b).2 = d at hval ⊢
      omega
    · rw [List.length_cons, List.length_cons, hlen]

theorem sub_val (h : a.length = b.length) (hc : c ≤ 1) :
    val (sub c a b).1 + val b + c = val a + (2 ^ 32) ^ a.length * (sub c a b).2 ∧ (sub c a b).1.length = a.length ∧
      (sub c a b).2 ≤ 1 := by
  induction a generalizing b c with
  | nil =>
    rw [List.length_nil] at h
    rw [List.length_eq_zero_iff.1 h.symm]
    refine ⟨?_, rfl, hc⟩
    rw [sub, val, List.length_nil, Nat.pow_zero, Nat.one_mul]
    intros
    contradiction
  | cons x a ih =>
    obtain _ | ⟨y, b⟩ := b
    · cases h
    have hx := x.toNat_lt
    have hy := y.toNat_lt
    rw [sub]
    dsimp only
    generalize ht : (x.toNat + 2 ^ 64 - y.toNat + 2 ^ 64 - c) % 2 ^ 64 = t
    obtain ⟨hval, hlen, hle⟩ := @ih b (t / 2 ^ 63) (Nat.succ.inj h) (by omega)
    refine ⟨?_, ?_, hle⟩
    · rw [val_cons, val_cons, val_cons, toNat_ofNat, List.length_cons, size_succ, Nat.mul_assoc]
      generalize (2 ^ 32) ^ a.length * (sub (t / 2 ^ 63) a b).2 = d at hval ⊢
      omega
    · rw [List.length_cons, List.length_cons, hlen]

/-- A difference that is not negative. -/
theorem sub_of_le (h : a.length = b.length) (hle : val b ≤ val a) :
    val (sub 0 a b).1 = val a - val b ∧ (sub 0 a b).1.length = a.length := by
  obtain ⟨hval, hlen, hout⟩ := sub_val h (Nat.zero_le 1)
  refine ⟨?_, hlen⟩
  have hlt := val_lt (sub 0 a b).1
  have hlt' := val_lt a
  rw [hlen] at hlt
  obtain hzero | hone := Nat.le_one_iff_eq_zero_or_eq_one.1 hout
  · rw [hzero] at hval
    omega
  · rw [hone] at hval
    omega

theorem mulRow_val (x : UInt32) (hr : r.length = b.length) (hc : c < 2 ^ 32) (z : UInt32) (rest : List UInt32) :
    ∃ out, mulRow x c (r ++ z :: rest) b = out ++ rest ∧ out.length = b.length + 1 ∧
      val out = c + val r + x.toNat * val b := by
  induction b generalizing r c with
  | nil =>
    rw [List.length_nil] at hr
    rw [List.length_eq_zero_iff.1 hr]
    refine ⟨[UInt32.ofNat c], ?_, rfl, ?_⟩
    · rw [List.nil_append, mulRow, List.singleton_append]
    · rw [val_cons, toNat_ofNat, Nat.mod_eq_of_lt hc, val, Nat.mul_zero, Nat.mul_zero]
  | cons y b ih =>
    obtain _ | ⟨w, r⟩ := r
    · cases hr
    have hw := w.toNat_lt
    have hmul : x.toNat * y.toNat ≤ (2 ^ 32 - 1) * (2 ^ 32 - 1) :=
      Nat.mul_le_mul (Nat.le_pred_of_lt x.toNat_lt) (Nat.le_pred_of_lt y.toNat_lt)
    rw [List.cons_append, mulRow]
    rw [Nat.mod_eq_of_lt (by omega)]
    have hdiv := Nat.div_add_mod (c + (w.toNat + x.toNat * y.toNat)) (2 ^ 32)
    generalize ht : c + (w.toNat + x.toNat * y.toNat) = t at hdiv ⊢
    obtain ⟨out, hout, hlen, hval⟩ := @ih r (t / 2 ^ 32) (Nat.succ.inj hr) (by omega)
    refine ⟨UInt32.ofNat t :: out, ?_, ?_, ?_⟩
    · rw [hout, List.cons_append]
    · rw [List.length_cons, hlen, List.length_cons]
    · rw [val_cons, val_cons, val_cons, hval, toNat_ofNat]
      have hx : x.toNat * (y.toNat + 2 ^ 32 * val b) = x.toNat * y.toNat + 2 ^ 32 * (x.toNat * val b) := by ring
      rw [hx]
      generalize x.toNat * val b = q
      omega

/-- The product by rows. -/
theorem mulRows_val (b a : List UInt32) (hr : r.length = b.length) :
    val (mulRows b a (r ++ List.replicate a.length 0)) = val r + val a * val b ∧
      (mulRows b a (r ++ List.replicate a.length 0)).length = b.length + a.length := by
  induction a generalizing r with
  | nil =>
    rw [List.length_nil, List.replicate_zero, List.append_nil, mulRows, val, Nat.zero_mul, hr]
    exact ⟨rfl, rfl⟩
  | cons x a ih =>
    rw [List.length_cons, List.replicate_succ]
    obtain ⟨out, hout, hlen, hval⟩ := mulRow_val x hr (by decide : 0 < 2 ^ 32) 0 (List.replicate a.length 0)
    obtain _ | ⟨z, out⟩ := out
    · cases hlen
    obtain ⟨hrest, hsize⟩ := ih (Nat.succ.inj hlen)
    rw [mulRows, hout, List.cons_append]
    dsimp only
    rw [val_cons, hrest, List.length_cons, hsize]
    refine ⟨?_, rfl⟩
    rw [val_cons] at hval
    rw [val_cons, Nat.add_mul, Nat.mul_assoc, Nat.mul_add]
    omega

theorem or_shift (h : c ≤ 1) (n : Nat) : n <<< 1 % 2 ^ 32 ||| c = 2 * n % 2 ^ 32 + c := by
  have heven : n <<< 1 % 2 ^ 32 = 2 ^ 1 * (n % 2 ^ 31) := by
    rw [Nat.shiftLeft_eq]
    omega
  have hlow : c < 2 ^ 1 := by omega
  rw [heven, ← Nat.two_pow_add_eq_or_of_lt hlow]
  omega

/-- Doubled, without the bit that falls out at the top. -/
theorem shl1_val (l : List UInt32) (hy : y.toNat ≤ 1) :
    val (shl1 y l) = (2 * val l + y.toNat) % (2 ^ 32) ^ l.length ∧ (shl1 y l).length = l.length := by
  induction l generalizing y with
  | nil =>
    rw [shl1, List.length_nil, Nat.pow_zero, Nat.mod_one]
    exact ⟨rfl, rfl⟩
  | cons x l ih =>
    have hx := x.toNat_lt
    have hout : (x >>> 31).toNat = x.toNat / 2 ^ 31 := by
      rw [UInt32.toNat_shiftRight]
      exact Nat.shiftRight_eq_div_pow _ _
    have hword : (x <<< 1 ||| y).toNat = 2 * x.toNat % 2 ^ 32 + y.toNat := by
      rw [UInt32.toNat_or, UInt32.toNat_shiftLeft]
      exact or_shift hy _
    obtain ⟨hval, hlen⟩ := @ih (x >>> 31) (by omega)
    rw [shl1, val_cons, hval, hword, hout, List.length_cons, List.length_cons, hlen, size_succ, val_cons, Nat.mod_mul]
    refine ⟨?_, rfl⟩
    have hmod : (2 * (x.toNat + 2 ^ 32 * val l) + y.toNat) % 2 ^ 32 = 2 * x.toNat % 2 ^ 32 + y.toNat := by omega
    have hdiv : (2 * (x.toNat + 2 ^ 32 * val l) + y.toNat) / 2 ^ 32 = 2 * val l + x.toNat / 2 ^ 31 := by omega
    rw [hmod, hdiv]

/-- Halved. -/
theorem shr1_val (l : List UInt32) :
    2 * val (shr1 l).1 + (shr1 l).2.toNat = val l ∧ (shr1 l).2.toNat ≤ 1 ∧ (shr1 l).1.length = l.length := by
  induction l with
  | nil => exact ⟨rfl, by decide, rfl⟩
  | cons x l ih =>
    obtain ⟨hval, hle, hlen⟩ := ih
    have hx := x.toNat_lt
    have hlow : (x &&& 1).toNat = x.toNat % 2 := by
      rw [UInt32.toNat_and]
      exact Nat.and_one_is_mod _
    have hword : (x >>> 1 ||| (shr1 l).2 <<< 31).toNat = x.toNat / 2 + 2 ^ 31 * (shr1 l).2.toNat := by
      have hhalf : x.toNat / 2 < 2 ^ 31 := by omega
      have hhigh : ((shr1 l).2 <<< 31).toNat = 2 ^ 31 * (shr1 l).2.toNat := by
        rw [UInt32.toNat_shiftLeft]
        change (shr1 l).2.toNat <<< 31 % 2 ^ 32 = _
        rw [Nat.shiftLeft_eq]
        omega
      have hshift : (x >>> 1).toNat = x.toNat / 2 := by
        rw [UInt32.toNat_shiftRight]
        exact Nat.shiftRight_eq_div_pow _ _
      rw [UInt32.toNat_or, hhigh, hshift, Nat.or_comm, ← Nat.two_pow_add_eq_or_of_lt hhalf, Nat.add_comm]
    rw [shr1, val_cons, val_cons]
    dsimp only
    rw [hlow, hword, List.length_cons, List.length_cons, hlen]
    exact ⟨by omega, by omega, rfl⟩

end Limbs
