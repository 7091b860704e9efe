import Mathlib
import Lebirun.Lib.Limbs

namespace Lebirun.Tls.P256
open Limbs
set_option autoImplicit true

abbrev Field := List UInt32

/-- `p256_p` -/
def p256P : Field :=
  [0xFFFFFFFF, 0xFFFFFFFF, 0xFFFFFFFF, 0x00000000, 0x00000000, 0x00000000, 0x00000001, 0xFFFFFFFF]

/-- A value of type `__int128`; what does not fit is undefined. -/
def int128 (x : Int) : Option Int := if -2 ^ 127 ≤ x ∧ x < 2 ^ 127 then some x else none

/-- One row of the product: `acc[i + j] += a[i] * b[j]` for all `j`, from limb `i` on. -/
def productRow (x : UInt32) : Field → List Int → Option (List Int)
  | y :: b, z :: acc =>
    (int128 (z + x.toNat * y.toNat)).bind fun t => (productRow x b acc).map fun acc => t :: acc
  | _, acc => some acc

def productRows (b : Field) : Field → List Int → Option (List Int)
  | x :: a, acc =>
    (productRow x b acc).bind fun acc =>
      match acc with
      | z :: acc => (productRows b a acc).map fun acc => z :: acc
      | [] => some []
  | [], acc => some acc

/-- The loop of `p256_carry_fold` from the limb `z` on. -/
def carryFrom : Int → List Int → Option (List Int)
  | z, z' :: acc =>
    (int128 (z / 2 ^ 32 * 2 ^ 32)).bind fun c => (int128 (z - c)).bind fun t =>
      (int128 (z' + z / 2 ^ 32)).bind fun z' => (carryFrom z' acc).map fun acc => t :: acc
  | z, [] => some [z]

/-- `p256_carry_fold` -/
def p256CarryFold : List Int → Option (List Int)
  | z :: acc => carryFrom z acc
  | [] => some []

/-- `acc[k] += x` -/
def addAt : Nat → Int → List Int → Option (List Int)
  | 0, x, z :: acc => (int128 (z + x)).map fun z => z :: acc
  | k + 1, x, z :: acc => (addAt k x acc).map fun acc => z :: acc
  | _, _, [] => some []

/-- The loop that puts the high limbs, from `hi[i]` on, in the low half and just above it. -/
def foldHigh : Nat → List Int → List Int → Option (List Int)
  | _, [], acc => some acc
  | i, h :: hi, acc =>
    (addAt (i + 7) h acc).bind fun acc => (addAt (i + 6) (-h) acc).bind fun acc =>
      (addAt (i + 3) (-h) acc).bind fun acc => (addAt i h acc).bind fun acc => foldHigh (i + 1) hi acc

/-- The loop over `iter`, for the rounds that are left. -/
def reduceLoop : Nat → List Int → Option (List Int)
  | 0, acc => some acc
  | iter + 1, acc =>
    (p256CarryFold acc).bind fun acc =>
      if ∀ h ∈ acc.drop 8, h = 0 then some (acc.take 8 ++ List.replicate 8 0)
      else (foldHigh 0 (acc.drop 8) (acc.take 8 ++ List.replicate 8 0)).bind (reduceLoop iter)

/-- `p256_cmp` -/
def p256Cmp (a b : Field) : Ordering := Limbs.cmp a b

/-- `p256_sub_raw` into a buffer of its own -/
def p256SubRaw (a b : Field) : Field := (Limbs.sub 0 a b).1

/-- The last loop of `p256_mul`, for the turns that are left. -/
def subtractLoop : Nat → Field → Field
  | 0, r => r
  | i + 1, r => if p256Cmp r p256P = .lt then r else subtractLoop i (p256SubRaw r p256P)

/-- `p256_mul`; nothing when an accumulator overflows. -/
def p256Mul (a b : Field) : Option Field :=
  ((productRows b a (List.replicate 16 0)).bind (reduceLoop 16)).map fun acc =>
    subtractLoop 8 ((acc.take 8).map fun z => UInt32.ofNat (z % 2 ^ 32).toNat)

/-- `p256_add` -/
def p256Add (a b : Field) : Field :=
  let t := Limbs.add 0 a b
  if t.2 ≠ 0 ∨ p256Cmp t.1 p256P ≠ .lt then (Limbs.sub 0 t.1 p256P).1 else t.1

/-- `p256_sub` into a buffer of its own -/
def p256Sub (a b : Field) : Field :=
  if p256Cmp a b = .lt then p256SubRaw p256P (p256SubRaw b a) else p256SubRaw a b

/-- The modulus of the field. -/
abbrev p : Nat := 2 ^ 256 - 2 ^ 224 + 2 ^ 192 + 2 ^ 96 - 1

/-- What `2 ^ 256` is modulo `p`. -/
abbrev fold : Nat := 2 ^ 224 - 2 ^ 192 - 2 ^ 96 + 1

/-! Signed limbs. -/

def ival : List Int → Int
  | [] => 0
  | z :: l => z + 2 ^ 32 * ival l

/-- Every limb is at most `m` in absolute value. -/
def Within (m : Int) (l : List Int) : Prop := ∀ z ∈ l, -m ≤ z ∧ z ≤ m

variable {a b r : Field} {acc l hi : List Int} {m n c x z : Int} {i k : Nat}

theorem int128_some (h : -2 ^ 127 ≤ x ∧ x < 2 ^ 127) : int128 x = some x := if_pos h

theorem Within.cons (hz : -m ≤ z ∧ z ≤ m) (h : Within m l) : Within m (z :: l) := by
  intro y hy
  obtain rfl | hy := List.mem_cons.1 hy
  · exact hz
  · exact h y hy

theorem Within.head (h : Within m (z :: l)) : -m ≤ z ∧ z ≤ m := h z (List.mem_cons_self ..)

theorem Within.tail (h : Within m (z :: l)) : Within m l := fun y hy => h y (List.mem_cons_of_mem _ hy)

theorem Within.mono (h : Within m l) (hle : m ≤ n) : Within n l := by
  intro y hy
  have hm := h y hy
  omega

theorem ival_append (l l' : List Int) : ival (l ++ l') = ival l + (2 ^ 32) ^ l.length * ival l' := by
  induction l with
  | nil => rw [List.nil_append, List.length_nil, pow_zero, one_mul, ival, zero_add]
  | cons z l ih =>
    rw [List.cons_append, ival, ival, ih, List.length_cons, pow_succ]
    ring

theorem ival_zeros (n : Nat) : ival (List.replicate n 0) = 0 := by
  induction n with
  | zero => rfl
  | succ n ih => rw [List.replicate_succ, ival, ih]; rfl

theorem mul_words (x y : UInt32) : 0 ≤ (x.toNat : Int) * y.toNat ∧ (x.toNat : Int) * y.toNat < 2 ^ 64 := by
  have hx : (x.toNat : Int) ≤ 2 ^ 32 - 1 := by have := x.toNat_lt; omega
  have hy : (y.toNat : Int) ≤ 2 ^ 32 - 1 := by have := y.toNat_lt; omega
  have hmul := mul_le_mul hx hy (Int.natCast_nonneg _) (by norm_num)
  exact ⟨by positivity, hmul.trans_lt (by norm_num)⟩

/-- One row adds its multiple of `b`. -/
theorem productRow_val (x : UInt32) (hlen : b.length ≤ acc.length) (h : Within m acc) (hm : m + 2 ^ 64 < 2 ^ 127) :
    ∃ out, productRow x b acc = some out ∧ out.length = acc.length ∧ Within (m + 2 ^ 64) out ∧
      ival out = ival acc + x.toNat * val b := by
  induction b generalizing acc with
  | nil =>
    refine ⟨acc, rfl, rfl, h.mono (by omega), ?_⟩
    rw [val, Nat.cast_zero, mul_zero, add_zero]
  | cons y b ih =>
    obtain _ | ⟨z, acc⟩ := acc
    · exact absurd hlen (Nat.not_succ_le_zero _)
    obtain ⟨out, hout, hsize, hwithin, hval⟩ := ih (Nat.le_of_succ_le_succ hlen) h.tail
    obtain ⟨hlow, hhigh⟩ := mul_words x y
    obtain ⟨hz, hz'⟩ := h.head
    refine ⟨(z + x.toNat * y.toNat) :: out, ?_, ?_, ?_, ?_⟩
    · rw [productRow, int128_some ⟨by omega, by omega⟩, Option.bind_some, hout, Option.map_some]
    · rw [List.length_cons, hsize, List.length_cons]
    · exact hwithin.cons ⟨by omega, by omega⟩
    · rw [ival, hval, ival, val_cons, Nat.cast_add, Nat.cast_mul]
      push_cast
      ring

theorem productRows_val (b a : Field) (hlen : b.length + a.length ≤ acc.length) (h : Within m acc)
    (hm : m + 2 ^ 64 * a.length < 2 ^ 127) :
    ∃ out, productRows b a acc = some out ∧ out.length = acc.length ∧ Within (m + 2 ^ 64 * a.length) out ∧
      ival out = ival acc + val a * val b := by
  induction a generalizing acc m with
  | nil =>
    refine ⟨acc, rfl, rfl, h.mono (by rw [List.length_nil]; omega), ?_⟩
    rw [val, Nat.cast_zero, zero_mul, add_zero]
  | cons x a ih =>
    rw [List.length_cons] at hlen hm
    push_cast at hm
    obtain ⟨row, hrow, hsize, hwithin, hval⟩ := @productRow_val b acc m x (by omega) h (by omega)
    obtain _ | ⟨z, row⟩ := row
    · rw [List.length_nil] at hsize
      omega
    rw [List.length_cons] at hsize
    obtain ⟨out, hout, hsize', hwithin', hval'⟩ := @ih row (m + 2 ^ 64) (by omega) hwithin.tail (by omega)
    have hz := hwithin.head
    refine ⟨z :: out, ?_, ?_, ?_, ?_⟩
    · rw [productRows, hrow, Option.bind_some]
      dsimp only
      rw [hout, Option.map_some]
    · rw [List.length_cons, hsize', hsize]
    · rw [List.length_cons]
      push_cast
      refine (hwithin'.mono (by omega)).cons ?_
      omega
    · have hx : ival acc + ((val (x :: a) : Nat) : Int) * val b =
          ival acc + x.toNat * val b + 2 ^ 32 * (val a * val b) := by
        rw [val_cons, Nat.cast_add, Nat.cast_mul]
        push_cast
        ring
      rw [hx, ← hval, ival, ival, hval']
      ring

/-- Carrying leaves limbs of 32 bits below the last one. -/
theorem carryFrom_val (hz : -(2 * m) ≤ z ∧ z ≤ 2 * m) (h : Within m acc) (hm : 2 ≤ m) (hm' : m ≤ 2 ^ 120) :
    ∃ low top, carryFrom z acc = some (low ++ [top]) ∧ low.length = acc.length ∧
      (∀ y ∈ low, 0 ≤ y ∧ y < 2 ^ 32) ∧ ival (low ++ [top]) = z + 2 ^ 32 * ival acc := by
  induction acc generalizing z with
  | nil => exact ⟨[], z, rfl, rfl, fun y hy => absurd hy List.not_mem_nil, rfl⟩
  | cons z' acc ih =>
    obtain ⟨hz1, hz2⟩ := hz
    obtain ⟨hlow, hhigh⟩ := h.head
    rw [carryFrom]
    have hdiv := Int.mul_ediv_add_emod z (2 ^ 32)
    have hmod := Int.emod_nonneg z (by norm_num : (2 ^ 32 : Int) ≠ 0)
    have hmod' := Int.emod_lt_of_pos z (by norm_num : (0 : Int) < 2 ^ 32)
    generalize z / 2 ^ 32 = c at hdiv ⊢
    generalize z % 2 ^ 32 = d at hdiv hmod hmod'
    have hc : -m ≤ c ∧ c ≤ m := by omega
    obtain ⟨low, top, hout, hsize, hwords, hval⟩ := @ih (z' + c) (by omega) h.tail
    refine ⟨d :: low, top, ?_, ?_, ?_, ?_⟩
    · have ht : z - c * 2 ^ 32 = d := by omega
      rw [int128_some ⟨by omega, by omega⟩, Option.bind_some, ht, int128_some ⟨by omega, by omega⟩, Option.bind_some,
        int128_some ⟨by omega, by omega⟩, Option.bind_some, hout, Option.map_some]
      rfl
    · rw [List.length_cons, hsize, List.length_cons]
    · intro y hy
      obtain rfl | hy := List.mem_cons.1 hy
      · exact ⟨hmod, hmod'⟩
      · exact hwords y hy
    · rw [List.cons_append, ival, hval, ival]
      omega

theorem addAt_val (hk : k < acc.length) (h : Within m acc) (hx : -c ≤ x ∧ x ≤ c) (hm : m + c < 2 ^ 127) :
    ∃ out, addAt k x acc = some out ∧ out.length = acc.length ∧ Within (m + c) out ∧
      ival out = ival acc + x * (2 ^ 32) ^ k := by
  induction k generalizing acc with
  | zero =>
    obtain _ | ⟨z, acc⟩ := acc
    · exact absurd hk (Nat.not_lt_zero _)
    have hz := h.head
    refine ⟨(z + x) :: acc, ?_, rfl, (h.tail.mono (by omega)).cons ⟨by omega, by omega⟩, ?_⟩
    · rw [addAt, int128_some ⟨by omega, by omega⟩, Option.map_some]
    · rw [ival, ival, pow_zero]
      ring
  | succ k ih =>
    obtain _ | ⟨z, acc⟩ := acc
    · exact absurd hk (Nat.not_lt_zero _)
    obtain ⟨out, hout, hlen, hwithin, hval⟩ := ih (Nat.lt_of_succ_lt_succ hk) h.tail
    have hz := h.head
    refine ⟨z :: out, ?_, ?_, hwithin.cons ⟨by omega, by omega⟩, ?_⟩
    · rw [addAt, hout, Option.map_some]
    · rw [List.length_cons, hlen, List.length_cons]
    · rw [ival, hval, ival, pow_succ]
      ring

/-- Putting the high limbs back replaces `2 ^ 256` by `fold`. -/
theorem foldHigh_val (i : Nat) (hlen : i + hi.length + 7 ≤ acc.length) (h : Within m acc) (hhi : Within c hi)
    (hm : m + 4 * c * hi.length < 2 ^ 127) (hc : 0 ≤ c) :
    ∃ out, foldHigh i hi acc = some out ∧ out.length = acc.length ∧ Within (m + 4 * c * hi.length) out ∧
      ival out = ival acc + (2 ^ 32) ^ i * ival hi * fold := by
  induction hi generalizing i acc m with
  | nil =>
    refine ⟨acc, rfl, rfl, h.mono (by rw [List.length_nil]; omega), ?_⟩
    rw [ival, mul_zero, zero_mul, add_zero]
  | cons x hi ih =>
    rw [List.length_cons] at hlen hm
    have hroom : 4 * c * ((hi.length + 1 : Nat) : Int) = 4 * c * hi.length + 4 * c := by
      push_cast
      ring
    have hrest : 0 ≤ 4 * c * (hi.length : Int) := by positivity
    rw [hroom] at hm
    obtain ⟨hx, hx'⟩ := hhi.head
    obtain ⟨acc₁, h₁, hlen₁, hw₁, hv₁⟩ := @addAt_val acc m c x (i + 7) (by omega) h ⟨hx, hx'⟩ (by omega)
    obtain ⟨acc₂, h₂, hlen₂, hw₂, hv₂⟩ := @addAt_val acc₁ (m + c) c (-x) (i + 6) (by omega) hw₁ ⟨by omega, by omega⟩
      (by omega)
    obtain ⟨acc₃, h₃, hlen₃, hw₃, hv₃⟩ := @addAt_val acc₂ (m + c + c) c (-x) (i + 3) (by omega) hw₂
      ⟨by omega, by omega⟩ (by omega)
    obtain ⟨acc₄, h₄, hlen₄, hw₄, hv₄⟩ := @addAt_val acc₃ (m + c + c + c) c x i (by omega) hw₃ ⟨hx, hx'⟩ (by omega)
    obtain ⟨out, hout, hsize, hwithin, hval⟩ := @ih acc₄ (m + c + c + c + c) (i + 1) (by omega) hw₄ hhi.tail (by omega)
    refine ⟨out, ?_, by omega, ?_, ?_⟩
    · rw [foldHigh, h₁, Option.bind_some, h₂, Option.bind_some, h₃, Option.bind_some, h₄, Option.bind_some, hout]
    · rw [List.length_cons, hroom]
      exact hwithin.mono (by omega)
    · have hfold : (fold : Int) = (2 ^ 32) ^ 7 - (2 ^ 32) ^ 6 - (2 ^ 32) ^ 3 + 1 := by norm_num
      rw [hval, hv₄, hv₃, hv₂, hv₁, ival, hfold, pow_add, pow_add, pow_add, pow_add]
      ring

theorem ival_bounds (h : ∀ y ∈ l, 0 ≤ y ∧ y < 2 ^ 32) : 0 ≤ ival l ∧ ival l < (2 ^ 32) ^ l.length := by
  induction l with
  | nil => exact ⟨le_rfl, by rw [List.length_nil, pow_zero]; exact one_pos⟩
  | cons z l ih =>
    obtain ⟨hlow, hhigh⟩ := ih fun y hy => h y (List.mem_cons_of_mem _ hy)
    have hz := h z (List.mem_cons_self ..)
    have hpow : ((2 : Int) ^ 32) ^ (l.length + 1) = 2 ^ 32 * (2 ^ 32) ^ l.length := pow_succ' _ _
    rw [ival, List.length_cons, hpow]
    constructor
    · omega
    · omega

theorem ival_eq_zero (h : ∀ y ∈ l, 0 ≤ y ∧ y < 2 ^ 32) : (∀ y ∈ l, y = 0) ↔ ival l = 0 := by
  constructor
  · intro hzero
    rw [List.eq_replicate_of_mem hzero, ival_zeros]
  · intro hval
    induction l with
    | nil => exact fun y hy => absurd hy List.not_mem_nil
    | cons z l ih =>
      obtain ⟨hlow, -⟩ := ival_bounds fun y hy => h y (List.mem_cons_of_mem _ hy)
      have hz := h z (List.mem_cons_self ..)
      rw [ival] at hval
      intro y hy
      obtain rfl | hy := List.mem_cons.1 hy
      · omega
      · exact ih (fun y hy => h y (List.mem_cons_of_mem _ hy)) (by omega) y hy

/-- Limbs of 32 bits, eight of them low and eight high. -/
structure Carried (acc : List Int) (v : Int) : Prop where
  length : acc.length = 16
  words : ∀ y ∈ acc, 0 ≤ y ∧ y < 2 ^ 32
  value : ival acc = v

theorem carried_of_within (hlen : acc.length = 16) (h : Within m acc) (hm : 2 ≤ m) (hm' : m ≤ 2 ^ 120)
    (hv : 0 ≤ ival acc ∧ ival acc < 2 ^ 512) :
    ∃ out, p256CarryFold acc = some out ∧ Carried out (ival acc) := by
  obtain _ | ⟨z, acc⟩ := acc
  · cases hlen
  have hz := h.head
  obtain ⟨low, top, hout, hsize, hwords, hval⟩ := @carryFrom_val acc m z ⟨by omega, by omega⟩ h.tail hm hm'
  have hlow := ival_bounds hwords
  have htop := ival_append low [top]
  have hlen' : low.length = 15 := hsize.trans (Nat.succ.inj hlen)
  rw [ival, ival, mul_zero, add_zero, hval, hlen'] at htop
  rw [hlen'] at hlow
  rw [ival] at hv ⊢
  refine ⟨low ++ [top], hout, ?_, ?_, hval⟩
  · rw [List.length_append, hlen', List.length_singleton]
  · intro y hy
    rw [List.mem_append, List.mem_singleton] at hy
    obtain hy | rfl := hy
    · exact hwords y hy
    · -- the value leaves no more than a word for the last limb
      omega

/-- The halves of a carried number. -/
theorem Carried.halves (h : Carried acc v) :
    ival (acc.take 8) = v % 2 ^ 256 ∧ ival (acc.drop 8) = v / 2 ^ 256 := by
  have hlow := @ival_bounds (acc.take 8) fun y hy => h.words y (List.mem_of_mem_take hy)
  have hsplit := ival_append (acc.take 8) (acc.drop 8)
  have hlen : (acc.take 8).length = 8 := by rw [List.length_take, h.length]; rfl
  rw [List.take_append_drop, h.value, hlen] at hsplit
  rw [hlen] at hlow
  omega

/-- What one round makes of a value: `2 ^ 256` is replaced by `fold`. -/
def next (v : Int) : Int := v / 2 ^ 256 * fold + v % 2 ^ 256

/-- Sixteen limbs far from overflow. -/
structure Ready (acc : List Int) (v : Int) : Prop where
  length : acc.length = 16
  within : Within (2 ^ 80) acc
  value : ival acc = v

theorem foldHigh_ready (h : Carried acc v) :
    ∃ out, foldHigh 0 (acc.drop 8) (acc.take 8 ++ List.replicate 8 0) = some out ∧ Ready out (next v) := by
  obtain ⟨hlow, hhigh⟩ := h.halves
  have htake : (acc.take 8).length = 8 := by rw [List.length_take, h.length]; rfl
  have hdrop : (acc.drop 8).length = 8 := by rw [List.length_drop, h.length]
  have hsize : (acc.take 8 ++ List.replicate 8 0).length = 16 := by
    rw [List.length_append, htake, List.length_replicate]
  have hw : Within (2 ^ 32) (acc.take 8 ++ List.replicate 8 0) := by
    intro y hy
    obtain hy | hy := List.mem_append.1 hy
    · have hword := h.words y (List.mem_of_mem_take hy)
      omega
    · rw [List.eq_of_mem_replicate hy]
      norm_num
  have hw' : Within (2 ^ 32) (acc.drop 8) := by
    intro y hy
    have hword := h.words y (List.mem_of_mem_drop hy)
    omega
  obtain ⟨out, hout, hlen, hwithin, hval⟩ := @foldHigh_val _ _ (2 ^ 32) (2 ^ 32) 0 (by rw [hsize, hdrop]; norm_num) hw hw'
    (by rw [hdrop]; norm_num) (by norm_num)
  rw [hdrop] at hwithin
  rw [ival_append, ival_zeros, hlow, hhigh, pow_zero, one_mul, mul_zero, add_zero] at hval
  exact ⟨out, hout, hlen.trans hsize, hwithin.mono (by norm_num), by rw [hval, next, add_comm]⟩

/-- Within `iter` rounds the loop ends, however many more it may take, with a number of eight words that is the same
modulo `p`. -/
def Ends (iter : Nat) (acc : List Int) (v : Int) : Prop :=
  ∃ low, (∀ j, reduceLoop (j + iter) acc = some (low ++ List.replicate 8 0)) ∧ low.length = 8 ∧
    (∀ y ∈ low, 0 ≤ y ∧ y < 2 ^ 32) ∧ ival low % p = v % p

theorem next_emod (v : Int) : next v % p = v % p := by
  have hp : (2 : Int) ^ 256 = p + fold := by norm_num
  have hsplit := Int.mul_ediv_add_emod v (2 ^ 256)
  have heq : v = next v + p * (v / 2 ^ 256) := by
    rw [next]
    linear_combination -hsplit + (v / 2 ^ 256) * hp
  calc next v % p = (next v + p * (v / 2 ^ 256)) % p := (Int.add_mul_emod_self_left _ _ _).symm
    _ = v % p := by rw [← heq]

theorem next_nonneg (h : 0 ≤ v) : 0 ≤ next v := by
  have hdiv : 0 ≤ v / 2 ^ 256 := Int.ediv_nonneg h (by norm_num)
  have hmod : 0 ≤ v % 2 ^ 256 := Int.emod_nonneg _ (by norm_num)
  rw [next]
  positivity

/-- A round, or the end when nothing is above `2 ^ 256`. -/
theorem ends_step (h : Ready acc v) (hv : 0 ≤ v ∧ v < 2 ^ 512)
    (hnext : 2 ^ 256 ≤ v → ∀ acc', Ready acc' (next v) → Ends k acc' (next v)) : Ends (k + 1) acc v := by
  obtain ⟨out, hout, hcar⟩ := carried_of_within h.length h.within (by norm_num) (by norm_num) (by rw [h.value]; exact hv)
  rw [h.value] at hcar
  obtain ⟨hlow, hhigh⟩ := hcar.halves
  have hempty : (∀ y ∈ out.drop 8, y = 0) ↔ v < 2 ^ 256 := by
    rw [ival_eq_zero fun y hy => hcar.words y (List.mem_of_mem_drop hy), hhigh]
    omega
  by_cases hsmall : v < 2 ^ 256
  · refine ⟨out.take 8, ?_, ?_, fun y hy => hcar.words y (List.mem_of_mem_take hy), ?_⟩
    · intro j
      rw [← Nat.add_assoc, reduceLoop, hout, Option.bind_some, if_pos (hempty.2 hsmall)]
    · rw [List.length_take, hcar.length]
      rfl
    · rw [hlow, Int.emod_eq_of_lt hv.1 hsmall]
  · obtain ⟨acc', hacc', hready⟩ := foldHigh_ready hcar
    obtain ⟨low, hloop, hlen, hwords, hmod⟩ := hnext (Int.not_lt.1 hsmall) acc' hready
    refine ⟨low, fun j => ?_, hlen, hwords, hmod.trans (next_emod v)⟩
    rw [← Nat.add_assoc, reduceLoop, hout, Option.bind_some, if_neg (mt hempty.1 hsmall), hacc', Option.bind_some,
      hloop]

theorem next_carry (h : 2 ^ 256 ≤ v) (h' : v < 2 ^ 256 * 2) : next v = fold + (v - 2 ^ 256) := by
  have hdiv : v / 2 ^ 256 = 1 := by omega
  have hmod : v % 2 ^ 256 = v - 2 ^ 256 := by omega
  rw [next, hdiv, hmod, one_mul]

/-- A value with nothing but a carry above `2 ^ 256` takes at most three rounds. -/
theorem ends_carry (k : Nat) (h : Ready acc v) (hv : 0 ≤ v ∧ v < 2 ^ 256 * 2) : Ends (k + 3) acc v := by
  refine ends_step h ⟨hv.1, by omega⟩ fun hlarge acc₁ h₁ => ?_
  have hfold : (fold : Int) < 2 ^ 224 := by norm_num
  have hpos : (0 : Int) < fold := by norm_num
  have hfirst := next_carry hlarge hv.2
  refine ends_step h₁ ⟨by omega, by omega⟩ fun hlarge' acc₂ h₂ => ?_
  have hsecond := next_carry hlarge' (by omega)
  refine ends_step h₂ ⟨by omega, by omega⟩ fun hlarge'' => ?_
  omega

/-- The rounds that a value takes: one for each word above `2 ^ 256`, and three for a last carry. -/
theorem ends_level (m k : Nat) (h : Ready acc v) (hv : 0 ≤ v ∧ v < 2 ^ 512)
    (hm : v / 2 ^ 256 ≤ 2 ^ (32 * m)) (hm' : m ≤ 8) : Ends (m + (k + 3)) acc v := by
  induction m generalizing acc v with
  | zero =>
    rw [Nat.zero_add]
    exact ends_carry k h ⟨hv.1, by omega⟩
  | succ m ih =>
    have hnonneg := next_nonneg hv.1
    have hdiv : 0 ≤ v / 2 ^ 256 := Int.ediv_nonneg hv.1 (by norm_num)
    have hmod' : v % 2 ^ 256 < 2 ^ 256 := Int.emod_lt_of_pos _ (by norm_num)
    have hpow : (2 : Int) ^ (32 * (m + 1)) * 2 ^ 224 = 2 ^ 256 * 2 ^ (32 * m) := by ring
    have hmul : v / 2 ^ 256 * fold ≤ 2 ^ (32 * (m + 1)) * 2 ^ 224 :=
      mul_le_mul hm (by norm_num) (by norm_num) (by positivity)
    have hbound : next v < 2 ^ 256 * (2 ^ (32 * m) + 1) := by
      rw [next]
      linarith
    have hlarge : (2 : Int) ^ (32 * m) ≤ 2 ^ 224 := pow_le_pow_right₀ (by norm_num) (by omega)
    rw [Nat.add_right_comm]
    refine ends_step h hv fun _ acc' h' => ?_
    generalize (2 : Int) ^ (32 * m) = w at hbound hlarge ih
    exact ih h' ⟨hnonneg, by omega⟩ (by omega) (by omega)

/-! The last subtractions. -/

theorem p256P_val : val p256P = p := by decide

theorem p_bounds : 2 ^ 256 < 2 * p ∧ p < 2 ^ 256 := by decide

theorem subtractLoop_val (k : Nat) (hlen : r.length = 8) (hr : val r < 2 * p) :
    val (subtractLoop (k + 2) r) = val r % p ∧ (subtractLoop (k + 2) r).length = 8 := by
  have hcmp : ∀ {q : Field}, q.length = 8 → (p256Cmp q p256P = .lt ↔ val q < p) := by
    intro q hq
    rw [p256Cmp, cmp_lt (hq.trans rfl), p256P_val]
  rw [subtractLoop]
  by_cases hlt : val r < p
  · rw [if_pos ((hcmp hlen).2 hlt), Nat.mod_eq_of_lt hlt]
    exact ⟨rfl, hlen⟩
  · have hle := Nat.le_of_not_lt hlt
    obtain ⟨hval, hsize⟩ := @sub_of_le r p256P (hlen.trans rfl) (by rw [p256P_val]; exact hle)
    have hless : val (p256SubRaw r p256P) < p := by
      rw [p256SubRaw, hval, p256P_val]
      omega
    have hsize' : (p256SubRaw r p256P).length = 8 := hsize.trans hlen
    rw [if_neg (mt (hcmp hlen).1 hlt), subtractLoop, if_pos ((hcmp hsize').2 hless), p256SubRaw, hval, p256P_val,
      Nat.mod_eq_sub_mod hle, Nat.mod_eq_of_lt (by omega : val r - p < p)]
    exact ⟨rfl, hsize.trans hlen⟩

theorem words_val (h : ∀ y ∈ l, 0 ≤ y ∧ y < 2 ^ 32) :
    (val (l.map fun z => UInt32.ofNat (z % 2 ^ 32).toNat) : Int) = ival l := by
  induction l with
  | nil => rfl
  | cons z l ih =>
    obtain ⟨hz, hz'⟩ := h z (List.mem_cons_self ..)
    have hword : (z % 2 ^ 32).toNat % 2 ^ 32 = z.toNat := by omega
    rw [List.map_cons, val_cons, ival, Nat.cast_add, Nat.cast_mul, ih fun y hy => h y (List.mem_cons_of_mem _ hy),
      toNat_ofNat, hword]
    omega

/-- The folding loop of a product. -/
theorem product_ends (ha : a.length = 8) (hb : b.length = 8) :
    ∃ acc, productRows b a (List.replicate 16 0) = some acc ∧ Ends 11 acc (val a * val b) := by
  have hzero : Within 0 (List.replicate 16 0) := by
    intro y hy
    rw [List.eq_of_mem_replicate hy]
    exact ⟨le_rfl, le_rfl⟩
  obtain ⟨acc, hacc, hlen, hwithin, hval⟩ := productRows_val b a (by rw [ha, hb]; exact le_rfl) hzero
    (by rw [ha]; norm_num)
  rw [ival_zeros, zero_add] at hval
  rw [ha] at hwithin
  have hready : Ready acc (val a * val b) := ⟨hlen, hwithin.mono (by norm_num), hval⟩
  have hsmall : ∀ {l : Field}, l.length = 8 → (val l : Int) ≤ 2 ^ 256 - 1 := by
    intro l hl
    have hlt := val_lt l
    rw [hl] at hlt
    omega
  have hmul := mul_le_mul (hsmall ha) (hsmall hb) (Int.natCast_nonneg _) (by norm_num)
  have hnonneg : (0 : Int) ≤ val a * val b := by positivity
  have hpow : (2 : Int) ^ 512 = 2 ^ 256 * 2 ^ 256 := pow_add 2 256 256
  have hlt : (val a : Int) * val b < 2 ^ 512 := by
    rw [hpow]
    exact hmul.trans_lt (by norm_num)
  exact ⟨acc, hacc, ends_level 8 0 hready ⟨hnonneg, hlt⟩ (by omega) le_rfl⟩

theorem p256Mul_val (ha : a.length = 8) (hb : b.length = 8) :
    ∃ r, p256Mul a b = some r ∧ r.length = 8 ∧ val r = val a * val b % p := by
  obtain ⟨acc, hacc, low, hloop, hlen, hwords, hmod⟩ := product_ends ha hb
  have hrounds : reduceLoop 16 acc = some (low ++ List.replicate 8 0) := hloop 5
  have hval := words_val hwords
  have hlt := (ival_bounds hwords).2
  have htake : (low ++ List.replicate 8 0).take 8 = low := by
    rw [← hlen, List.take_left]
  rw [hlen] at hlt
  obtain ⟨hsub, hsize⟩ := @subtractLoop_val (low.map fun z => UInt32.ofNat (z % 2 ^ 32).toNat) 6
    (by rw [List.length_map, hlen]) (by have hp := p_bounds.1; omega)
  refine ⟨_, ?_, hsize, ?_⟩
  · rw [p256Mul, hacc, Option.bind_some, hrounds, Option.map_some, htake]
  · rw [hsub]
    rw [← hval] at hmod
    exact_mod_cast hmod

/-! Sums and differences. -/

theorem p256Add_val (ha : a.length = 8) (hb : b.length = 8) (ha' : val a < p) (hb' : val b < p) :
    (p256Add a b).length = 8 ∧ val (p256Add a b) = (val a + val b) % p := by
  obtain ⟨hval, hlen, hout⟩ := @add_val a b 0 (ha.trans hb.symm) (by decide)
  have hsize : (Limbs.add 0 a b).1.length = 8 := hlen.trans ha
  obtain ⟨hval', hlen', hout'⟩ := @sub_val (Limbs.add 0 a b).1 p256P 0 (hsize.trans rfl) (by decide)
  have hcmp : p256Cmp (Limbs.add 0 a b).1 p256P = .lt ↔ val (Limbs.add 0 a b).1 < p := by
    rw [p256Cmp, cmp_lt (hsize.trans rfl), p256P_val]
  have hlt := val_lt (Limbs.add 0 a b).1
  have hlt' := val_lt (Limbs.sub 0 (Limbs.add 0 a b).1 p256P).1
  obtain ⟨hp, hp'⟩ := p_bounds
  rw [ha] at hval
  rw [hlen', hsize] at hlt'
  rw [p256P_val, hsize] at hval'
  rw [hsize] at hlt
  rw [p256Add]
  by_cases hcond : (Limbs.add 0 a b).2 ≠ 0 ∨ p256Cmp (Limbs.add 0 a b).1 p256P ≠ .lt
  · rw [if_pos hcond]
    refine ⟨hlen'.trans hsize, ?_⟩
    rw [Ne, Ne, hcmp] at hcond
    have hle : p ≤ val a + val b := by omega
    rw [Nat.mod_eq_sub_mod hle, Nat.mod_eq_of_lt (by omega : val a + val b - p < p)]
    omega
  · rw [if_neg hcond]
    refine ⟨hsize, ?_⟩
    rw [not_or, not_not, not_not, hcmp] at hcond
    rw [hcond.1, Nat.mul_zero, Nat.add_zero, Nat.add_zero] at hval
    rw [hval] at hcond ⊢
    exact (Nat.mod_eq_of_lt hcond.2).symm

theorem p256Sub_val (ha : a.length = 8) (hb : b.length = 8) (ha' : val a < p) (hb' : val b < p) :
    (p256Sub a b).length = 8 ∧ val (p256Sub a b) = (val a + (p - val b)) % p := by
  rw [p256Sub, p256Cmp]
  by_cases hlt : val a < val b
  · obtain ⟨hval, hlen⟩ := @sub_of_le b a (hb.trans ha.symm) hlt.le
    obtain ⟨hval', hlen'⟩ := @sub_of_le p256P (Limbs.sub 0 b a).1 (hlen.trans hb).symm
      (by rw [hval, p256P_val]; omega)
    rw [if_pos ((cmp_lt (ha.trans hb.symm)).2 hlt), p256SubRaw, p256SubRaw, hval', hval, p256P_val,
      Nat.mod_eq_of_lt (by omega : val a + (p - val b) < p)]
    exact ⟨hlen', by omega⟩
  · obtain ⟨hval, hlen⟩ := @sub_of_le a b (ha.trans hb.symm) (Nat.le_of_not_lt hlt)
    have hwrap : val a + (p - val b) = val a - val b + p := by omega
    rw [if_neg (mt (cmp_lt (ha.trans hb.symm)).1 hlt), p256SubRaw, hval, hwrap, Nat.add_mod_right,
      Nat.mod_eq_of_lt (by omega : val a - val b < p)]
    exact ⟨hlen.trans ha, rfl⟩

end Lebirun.Tls.P256
