import Mathlib
import Lebirun.Tls.Certificate

namespace Lebirun.Tls
set_option autoImplicit true

/-! Numbers of a string of bytes. -/

theorem foldl_beNat (l : Bytes) (n : Nat) :
    l.foldl (fun v b => 256 * v + b.toNat) n = n * 256 ^ l.length + beNat l := by
  induction l generalizing n with
  | nil => simp [beNat]
  | cons b l ih =>
    have hhead := ih (256 * 0 + b.toNat)
    have hhead' := ih (256 * n + b.toNat)
    rw [beNat, List.foldl_cons, List.foldl_cons, hhead, hhead', List.length_cons, Nat.pow_succ]
    ring

theorem beNat_cons (b : UInt8) (l : Bytes) : beNat (b :: l) = b.toNat * 256 ^ l.length + beNat l := by
  rw [beNat, List.foldl_cons, foldl_beNat, Nat.mul_zero, Nat.zero_add]

theorem beNat_lt (l : Bytes) : beNat l < 256 ^ l.length := by
  induction l with
  | nil => exact Nat.zero_lt_one
  | cons b l ih =>
    have hbyte : b.toNat + 1 ≤ 256 := b.toNat_lt
    have hmul := Nat.mul_le_mul_right (256 ^ l.length) hbyte
    rw [beNat_cons, List.length_cons, Nat.pow_succ, Nat.mul_comm _ 256]
    rw [Nat.add_mul, Nat.one_mul] at hmul
    omega

theorem beNat_zeros (k : Nat) (l : Bytes) : beNat (List.replicate k 0 ++ l) = beNat l := by
  induction k with
  | zero => rfl
  | succ k ih =>
    rw [List.replicate_succ, List.cons_append, beNat_cons, ih]
    exact (congrArg (· + beNat l) (Nat.zero_mul _)).trans (Nat.zero_add _)

theorem beNat_append (v w : Bytes) : beNat (v ++ w) = beNat v * 256 ^ w.length + beNat w := by
  rw [beNat, List.foldl_append, foldl_beNat]
  rfl

theorem beNat_concat (v : Bytes) (b : UInt8) : beNat (v ++ [b]) = 256 * beNat v + b.toNat := by
  rw [beNat, List.foldl_append]
  rfl

end Lebirun.Tls
