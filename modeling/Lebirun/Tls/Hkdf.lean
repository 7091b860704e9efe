import Mathlib
import Lebirun.Crypto.Hmac
import Lebirun.Tls.Certificate

open Lebirun.Crypto (Context hmacSha256 standardHmac standard256 hmacSha256_standard standardHmac_length)

namespace Lebirun.Tls
set_option autoImplicit true

/-! The derivation of keys. Each call of HMAC finds three buffers of 64 bytes on the stack, with anything in them. -/

def Stack := { s : Context → Bytes // ∀ i, (s i).length = 64 }

/-- `lebtls_hkdf_extract`; a null pointer is an empty string. -/
def lebtlsHkdfExtract (stack : Stack) (salt ikm : Bytes) : Option Bytes :=
  let salt := if salt.isEmpty then List.replicate 32 0 else salt
  if ikm.isEmpty then none else some (hmacSha256 stack.1 salt ikm)

/-- The turns of the loop of `lebtls_hkdf_expand` for the values of `i`: the result, and what is written to `out`.
`kmalloc` has the outcome of each allocation. -/
def expandLoop (stack : Nat → Stack) (kmalloc : Nat → Bool) (secret info : Bytes) (outLen : Nat) :
    List Nat → Bytes → Bytes → Int × Bytes
  | [], _, out => (0, out)
  | i :: is, t, out =>
    let prev := if 1 < i then 32 else 0
    let msgLen := (prev + info.length + 1) % 2 ^ 64
    if msgLen < prev then (-1, out)
    else if kmalloc i then
      let t := hmacSha256 (stack i).1 secret (t.take prev ++ info ++ [UInt8.ofNat i])
      expandLoop stack kmalloc secret info outLen is t (out ++ t.take (min (outLen - out.length) 32))
    else (-1, out)

/-- `lebtls_hkdf_expand`; `t` holds anything at first. -/
def lebtlsHkdfExpand (stack : Nat → Stack) (kmalloc : Nat → Bool) (t secret info : Bytes) (outLen : Nat) :
    Int × Bytes :=
  if outLen = 0 then (0, [])
  else
    let n := (outLen + 32 - 1) % 2 ^ 64 / 32 % 2 ^ 32
    if n = 0 ∨ 255 < n then (-1, []) else expandLoop stack kmalloc secret info outLen (List.range' 1 n) t []

/-- `"tls13 "` -/
def tls13 : Bytes := [0x74, 0x6c, 0x73, 0x31, 0x33, 0x20]

/-- A string up to its first zero. -/
def cString (s : Bytes) : Bytes := s.takeWhile (· ≠ 0)

/-- The bytes that `lebtls_hkdf_label` puts together. -/
def labelInfo (outLen : Nat) (label ctx : Bytes) : Bytes :=
  [UInt8.ofNat (outLen >>> 8 &&& 0xff), UInt8.ofNat (outLen &&& 0xff), UInt8.ofNat (tls13.length + label.length)] ++
    tls13 ++ label ++ [UInt8.ofNat ctx.length] ++ ctx

/-- `lebtls_hkdf_label`; the allocation for `info` is the one with number 0. -/
def lebtlsHkdfLabel (stack : Nat → Stack) (kmalloc : Nat → Bool) (t secret label ctx : Bytes) (outLen : Nat) :
    Int × Bytes :=
  if outLen = 0 ∨ 255 < outLen then (-1, [])
  else
    let label := cString label
    if 255 - 7 < label.length then (-1, [])
    else if 255 < ctx.length then (-1, [])
    else if kmalloc 0 then lebtlsHkdfExpand stack kmalloc t secret (labelInfo outLen label ctx) outLen
    else (-1, [])

/-! The standard. -/

/-- `T(i)` -/
def standardT (hmac : Bytes → Bytes) (info : Bytes) : Nat → Bytes
  | 0 => []
  | i + 1 => hmac (standardT hmac info i ++ info ++ [UInt8.ofNat (i + 1)])

/-- `T(1)`, `T(2)` and so on up to `T(n)`. -/
def standardBlocks (hmac : Bytes → Bytes) (info : Bytes) (n : Nat) : Bytes :=
  (List.range n).flatMap fun i => standardT hmac info (i + 1)

def standardExpand (secret info : Bytes) (outLen : Nat) : Bytes :=
  (standardBlocks (standardHmac standard256 64 secret) info ((outLen + 31) / 32)).take outLen

/-- A string of at most 255 bytes after its length. -/
def standardVector (s : Bytes) : Bytes := UInt8.ofNat s.length :: s

/-- `HkdfLabel` -/
def standardLabel (outLen : Nat) (label ctx : Bytes) : Bytes :=
  [UInt8.ofNat (outLen / 256), UInt8.ofNat outLen] ++ standardVector (tls13 ++ label) ++ standardVector ctx

variable {stack : Nat → Stack} {kmalloc : Nat → Bool} {t secret info label ctx label' ctx' out : Bytes}
  {outLen outLen' i k n : Nat}

theorem standardT_length (i : Nat) :
    (standardT (standardHmac standard256 64 secret) info (i + 1)).length = 32 := standardHmac_length _ _

theorem standardBlocks_succ (hmac : Bytes → Bytes) (info : Bytes) (n : Nat) :
    standardBlocks hmac info (n + 1) = standardBlocks hmac info n ++ standardT hmac info (n + 1) := by
  rw [standardBlocks, List.range_succ, List.flatMap_append, List.flatMap_singleton]
  rfl

theorem standardBlocks_length (n : Nat) :
    (standardBlocks (standardHmac standard256 64 secret) info n).length = 32 * n := by
  induction n with
  | zero => rfl
  | succ n ih => rw [standardBlocks_succ, List.length_append, ih, standardT_length, Nat.mul_succ]

theorem standardBlocks_take (h : outLen ≤ 32 * n) (k : Nat) :
    (standardBlocks (standardHmac standard256 64 secret) info (n + k)).take outLen =
      (standardBlocks (standardHmac standard256 64 secret) info n).take outLen := by
  induction k with
  | zero => rfl
  | succ k ih =>
    rw [← Nat.add_assoc, standardBlocks_succ, List.take_append_of_le_length, ih]
    rw [standardBlocks_length]
    omega

theorem standardBlocks_initial (n k : Nat) :
    (standardBlocks (standardHmac standard256 64 secret) info n).take outLen <+:
      (standardBlocks (standardHmac standard256 64 secret) info (n + k)).take outLen := by
  induction k with
  | zero => exact List.prefix_rfl
  | succ k ih =>
    apply ih.trans
    rw [← Nat.add_assoc, standardBlocks_succ]
    exact (List.prefix_append _ _).take _

/-- What a turn adds to the output. -/
theorem take_turn (i outLen : Nat) :
    let T := standardT (standardHmac standard256 64 secret) info
    let out := (standardBlocks (standardHmac standard256 64 secret) info i).take outLen
    out ++ (T (i + 1)).take (min (outLen - out.length) 32) =
      (standardBlocks (standardHmac standard256 64 secret) info (i + 1)).take outLen := by
  intro T out
  have hlength : out.length = min outLen (32 * i) := by rw [List.length_take, standardBlocks_length]
  have hT : (T (i + 1)).length = 32 := standardT_length i
  rw [standardBlocks_succ, List.take_append, standardBlocks_length, hlength, ← List.take_take]
  congr 1
  rw [List.take_of_length_le (by rw [hT] : (T (i + 1)).length ≤ 32)]
  congr 1
  omega

/-- The turns after the first `i`, when `t` and `out` are what the standard says so far. -/
theorem expandLoop_run (hinfo : info.length + 33 < 2 ^ 64) (k : Nat) :
    ∀ i t, t.take (if 1 < i + 1 then 32 else 0) = standardT (standardHmac standard256 64 secret) info i →
      ∃ m ≤ k, (∀ j < m, kmalloc (i + j + 1) = true) ∧
        (m < k → kmalloc (i + m + 1) = false) ∧
        expandLoop stack kmalloc secret info outLen (List.range' (i + 1) k) t
            ((standardBlocks (standardHmac standard256 64 secret) info i).take outLen) =
          (if m = k then 0 else -1,
            (standardBlocks (standardHmac standard256 64 secret) info (i + m)).take outLen) := by
  induction k with
  | zero =>
    intro i t _
    exact ⟨0, le_rfl, fun j hj => absurd hj (Nat.not_lt_zero j), fun h => absurd h (Nat.lt_irrefl 0), rfl⟩
  | succ k ih =>
    intro i t ht
    have hmod : ((if 1 < i + 1 then 32 else 0) + info.length + 1) % 2 ^ 64 =
        (if 1 < i + 1 then 32 else 0) + info.length + 1 := by
      apply Nat.mod_eq_of_lt
      split <;> omega
    rw [List.range'_succ, expandLoop]
    dsimp only
    rw [hmod, if_neg (by omega), ht, hmacSha256_standard (stack (i + 1)).2]
    cases hm : kmalloc (i + 1) with
    | false =>
      refine ⟨0, Nat.zero_le _, fun j hj => absurd hj (Nat.not_lt_zero j), fun _ => hm, ?_⟩
      rw [if_neg Bool.false_ne_true, if_neg (Nat.succ_ne_zero k).symm]
      rfl
    | true =>
      have hT : standardHmac standard256 64 secret
          (standardT (standardHmac standard256 64 secret) info i ++ info ++ [UInt8.ofNat (i + 1)]) =
            standardT (standardHmac standard256 64 secret) info (i + 1) := rfl
      have hnext : (standardT (standardHmac standard256 64 secret) info (i + 1)).take
          (if 1 < i + 1 + 1 then 32 else 0) = standardT (standardHmac standard256 64 secret) info (i + 1) := by
        rw [if_pos (by omega), List.take_of_length_le (standardT_length i).le]
      obtain ⟨m, hle, hall, hend, heq⟩ := ih (i + 1) _ hnext
      refine ⟨m + 1, Nat.succ_le_succ hle, ?_, ?_, ?_⟩
      · intro j hj
        cases j with
        | zero => exact hm
        | succ j =>
          have := hall j (Nat.lt_of_succ_lt_succ hj)
          rwa [Nat.add_right_comm i 1 j] at this
      · intro hlt
        have := hend (Nat.lt_of_succ_lt_succ hlt)
        rwa [Nat.add_right_comm i 1 m] at this
      · rw [if_pos rfl, hT, take_turn i outLen, heq]
        congr 2
        · exact propext Nat.succ_inj.symm
        · rw [Nat.add_right_comm, Nat.add_assoc]

/-- For what `n` of the source holds without a wrap: the result, and the bytes written, after any allocations. -/
theorem lebtlsHkdfExpand_exact (hinfo : info.length + 33 < 2 ^ 64) (hlen : outLen ≤ 8160) :
    ∃ m ≤ (outLen + 31) / 32, (∀ j < m, kmalloc (j + 1) = true) ∧
      (m < (outLen + 31) / 32 → kmalloc (m + 1) = false) ∧
      lebtlsHkdfExpand stack kmalloc t secret info outLen =
        (if m = (outLen + 31) / 32 then 0 else -1,
          (standardBlocks (standardHmac standard256 64 secret) info m).take outLen) := by
  rw [lebtlsHkdfExpand]
  by_cases hzero : outLen = 0
  · subst hzero
    exact ⟨0, le_rfl, fun j hj => absurd hj (Nat.not_lt_zero j), fun h => absurd h (Nat.lt_irrefl 0), rfl⟩
  · have hn : (outLen + 32 - 1) % 2 ^ 64 / 32 % 2 ^ 32 = (outLen + 31) / 32 := by omega
    obtain ⟨m, hle, hall, hend, heq⟩ := @expandLoop_run stack kmalloc secret info
      outLen hinfo ((outLen + 31) / 32) 0 t rfl
    rw [if_neg hzero, hn, if_neg (by omega)]
    refine ⟨m, hle, ?_, ?_, ?_⟩
    · intro j hj
      have := hall j hj
      rwa [Nat.zero_add] at this
    · intro hlt
      have := hend hlt
      rwa [Nat.zero_add] at this
    · have hnone : (standardBlocks (standardHmac standard256 64 secret) info 0).take outLen = [] := List.take_nil
      rw [hnone, Nat.zero_add, Nat.zero_add] at heq
      exact heq

theorem labelInfo_eq (houtLen : outLen ≤ 255) (label ctx : Bytes) :
    labelInfo outLen label ctx = standardLabel outLen label ctx := by
  have hhigh : outLen >>> 8 &&& 0xff = outLen / 256 := by
    rw [Nat.shiftRight_eq_div_pow, (Nat.and_two_pow_sub_one_eq_mod _ 8 : _ &&& 0xff = _)]
    omega
  have hlow : outLen &&& 0xff = outLen := by
    rw [(Nat.and_two_pow_sub_one_eq_mod _ 8 : _ &&& 0xff = _)]
    omega
  rw [labelInfo, standardLabel, hhigh, hlow, standardVector, standardVector, List.length_append]
  simp only [List.cons_append, List.nil_append, List.append_assoc]

/-- What `lebtls_hkdf_label` accepts. -/
def LabelFits (outLen : Nat) (label ctx : Bytes) : Prop :=
  (0 < outLen ∧ outLen ≤ 255) ∧ (cString label).length ≤ 248 ∧ ctx.length ≤ 255

theorem ofNat_inj (hm : m ≤ 255) (hn : n ≤ 255) (h : UInt8.ofNat m = UInt8.ofNat n) : m = n := by
  have := congrArg UInt8.toNat h
  rw [UInt8.toNat_ofNat', UInt8.toNat_ofNat'] at this
  omega

/-- No two requests share a label. -/
theorem standardLabel_inj (h : LabelFits outLen label ctx) (h' : LabelFits outLen' label' ctx')
    (heq : standardLabel outLen (cString label) ctx = standardLabel outLen' (cString label') ctx') :
    outLen = outLen' ∧ cString label = cString label' ∧ ctx = ctx' := by
  obtain ⟨⟨_, hout⟩, hlabel, hctx⟩ := h
  obtain ⟨⟨_, hout'⟩, hlabel', hctx'⟩ := h'
  have htls : tls13.length = 6 := rfl
  simp only [standardLabel, standardVector, List.cons_append, List.nil_append, List.append_assoc, List.cons.injEq,
    List.append_cancel_left_eq] at heq
  obtain ⟨_, hlow, hsize, hrest⟩ := heq
  have hlengths := ofNat_inj (by rw [List.length_append]; omega) (by rw [List.length_append]; omega) hsize
  rw [List.length_append, List.length_append] at hlengths
  obtain ⟨hlabels, htail⟩ := List.append_inj hrest (by omega)
  exact ⟨ofNat_inj hout hout' hlow, hlabels, (List.cons.inj htail).2⟩

/-- The derivation of a key under a label: when it succeeds, what it gives then, what it leaves in the output when an
allocation fails, and that two requests expand different strings. -/
theorem lebtlsHkdfLabel_exact (stack : Nat → Stack) (kmalloc : Nat → Bool) (t secret label ctx : Bytes) (outLen : Nat) :
    let r := lebtlsHkdfLabel stack kmalloc t secret label ctx outLen
    let info := standardLabel outLen (cString label) ctx
    (r.1 = 0 ↔ LabelFits outLen label ctx ∧ ∀ j ≤ (outLen + 31) / 32, kmalloc j = true) ∧
    (r.1 = 0 → r.2 = standardExpand secret info outLen) ∧
    (r.1 = 0 ∨ r.1 = -1) ∧
    r.2 <+: standardExpand secret info outLen ∧
    ∀ outLen' label' ctx', LabelFits outLen label ctx → LabelFits outLen' label' ctx' →
      info = standardLabel outLen' (cString label') ctx' →
        outLen = outLen' ∧ cString label = cString label' ∧ ctx = ctx' := by
  intro r info
  by_cases hfits : LabelFits outLen label ctx ∧ kmalloc 0 = true
  · obtain ⟨hfits, hzero⟩ := hfits
    obtain ⟨⟨hpos, hout⟩, hlabel, hctx⟩ := hfits
    have hinfo : info = labelInfo outLen (cString label) ctx := (labelInfo_eq hout _ _).symm
    have hsize : info.length + 33 < 2 ^ 64 := by
      have htls : tls13.length = 6 := rfl
      simp only [info, standardLabel, standardVector, List.length_append, List.length_cons, List.length_nil, htls]
      omega
    obtain ⟨m, hle, hall, hend, heq⟩ := @lebtlsHkdfExpand_exact stack kmalloc t secret
      info outLen hsize (by omega)
    have hr : r = lebtlsHkdfExpand stack kmalloc t secret info outLen := by
      rw [hinfo]
      show lebtlsHkdfLabel _ _ _ _ _ _ _ = _
      rw [lebtlsHkdfLabel, if_neg (by omega)]
      dsimp only
      rw [if_neg (by omega), if_neg (by omega), if_pos hzero]
    have hcode : (if m = (outLen + 31) / 32 then (0 : Int) else -1) = 0 → m = (outLen + 31) / 32 := by
      intro h
      by_contra hne
      rw [if_neg hne] at h
      exact absurd h (by decide)
    rw [hr, heq]
    refine ⟨⟨?_, ?_⟩, ?_, ?_, ?_, ?_⟩
    · intro h
      have hm := hcode h
      refine ⟨⟨⟨hpos, hout⟩, hlabel, hctx⟩, ?_⟩
      intro j hj
      cases j with
      | zero => exact hzero
      | succ j => exact hall j (by omega)
    · rintro ⟨_, hok⟩
      apply if_pos
      by_contra hne
      have := hok (m + 1) (by omega)
      rw [hend (by omega)] at this
      exact Bool.false_ne_true this
    · intro h
      have hm := hcode h
      rw [hm, standardExpand]
    · split
      · exact Or.inl rfl
      · exact Or.inr rfl
    · have := @standardBlocks_initial secret info outLen m ((outLen + 31) / 32 - m)
      rwa [Nat.add_sub_cancel' hle] at this
    · intro outLen' label' ctx' h h' heq
      exact standardLabel_inj h h' heq
  · have hr : r = (-1, []) := by
      show lebtlsHkdfLabel _ _ _ _ _ _ _ = _
      rw [lebtlsHkdfLabel]
      dsimp only
      split_ifs with hlen hlabel hctx hzero
      · rfl
      · rfl
      · rfl
      · exact absurd ⟨⟨by omega, by omega, by omega⟩, hzero⟩ hfits
      · rfl
    rw [hr]
    refine ⟨⟨?_, ?_⟩, ?_, Or.inr rfl, List.nil_prefix, ?_⟩
    · intro h
      exact absurd h (by decide)
    · rintro ⟨h, hok⟩
      exact absurd ⟨h, hok 0 (Nat.zero_le _)⟩ hfits
    · intro h
      exact absurd h (by decide)
    · intro outLen' label' ctx' h h' heq
      exact standardLabel_inj h h' heq

end Lebirun.Tls
