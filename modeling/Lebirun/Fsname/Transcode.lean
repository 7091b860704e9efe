import Mathlib

namespace Lebirun.Fsname
set_option autoImplicit true

abbrev FSNAME_MAX : Nat := 255

/-- The characters of `"*/:<>?\|`. -/
def reserved : List Nat := [0x22, 0x2A, 0x2F, 0x3A, 0x3C, 0x3E, 0x3F, 0x5C, 0x7C]

def contCount (c : Nat) : Nat := if 0xF0 ≤ c then 3 else if 0xE0 ≤ c then 2 else if 0xC0 ≤ c then 1 else 0

/-- The `while (k--)` loop. -/
def contBytes : Nat → Nat → List UInt8 → Option (Nat × List UInt8)
  | 0, c, p => some (c, p)
  | _ + 1, _, [] => none
  | k + 1, c, b :: p => if b.toNat &&& 0xC0 ≠ 0x80 then none else contBytes k (c <<< 6 ||| b.toNat &&& 0x3F) p

/-- The character that begins with this byte, and what follows it. -/
def readChar (b : UInt8) (p : List UInt8) : Option (Nat × List UInt8) :=
  let k := contCount b.toNat
  if (0x80 ≤ b.toNat ∧ k = 0) ∨ 0xF8 ≤ b.toNat then none
  else contBytes k (if k = 0 then b.toNat else b.toNat &&& 0x3F >>> k) p

def Forbidden (c : Nat) : Prop := c < 0x20 ∨ c = 0x7F ∨ (c < 0x80 ∧ c ∈ reserved)

def Refused (c : Nat) : Prop := Forbidden c ∨ (0xD800 ≤ c ∧ c < 0xE000) ∨ 0x10FFFF < c

instance (c : Nat) : Decidable (Forbidden c) := inferInstanceAs (Decidable (_ ∨ _))
instance (c : Nat) : Decidable (Refused c) := inferInstanceAs (Decidable (_ ∨ _))

def units (c : Nat) : List UInt16 :=
  if 0x10000 ≤ c then
    [UInt16.ofNat (0xD800 ||| (c - 0x10000) >>> 10), UInt16.ofNat (0xDC00 ||| (c - 0x10000) &&& 0x3FF)]
  else [UInt16.ofNat c]

/-- The `while (*p)` loop, with the number of units written so far; one step for each byte is enough. -/
def utf16Loop : Nat → Nat → List UInt8 → Option (List UInt16)
  | _, _, [] => some []
  | 0, _, _ :: _ => none
  | m + 1, n, b :: p =>
    match readChar b p with
    | none => none
    | some (c, p) =>
      if Refused c then none
      else if FSNAME_MAX ≤ n + (if 0x10000 ≤ c then 1 else 0) then none
      else (utf16Loop m (n + (units c).length) p).map (units c ++ ·)

/-- `fsname_to_utf16` of the bytes before the NUL -/
def fsnameToUtf16 (s : List UInt8) : Option (List UInt16) :=
  if s = [0x2E] ∨ s = [0x2E, 0x2E] then none else utf16Loop s.length 0 s

def encode (c : Nat) : List UInt8 :=
  if c < 0x80 then [UInt8.ofNat c]
  else if c < 0x800 then [UInt8.ofNat (0xC0 ||| c >>> 6), UInt8.ofNat (0x80 ||| c &&& 0x3F)]
  else if c < 0x10000 then
    [UInt8.ofNat (0xE0 ||| c >>> 12), UInt8.ofNat (0x80 ||| c >>> 6 &&& 0x3F), UInt8.ofNat (0x80 ||| c &&& 0x3F)]
  else
    [UInt8.ofNat (0xF0 ||| c >>> 18), UInt8.ofNat (0x80 ||| c >>> 12 &&& 0x3F),
      UInt8.ofNat (0x80 ||| c >>> 6 &&& 0x3F), UInt8.ofNat (0x80 ||| c &&& 0x3F)]

abbrev High (u : UInt16) : Prop := 0xD800 ≤ u.toNat ∧ u.toNat < 0xDC00
abbrev Low (u : UInt16) : Prop := 0xDC00 ≤ u.toNat ∧ u.toNat < 0xE000

/-- `fsname_to_utf8`, the bytes before the NUL -/
def fsnameToUtf8 : List UInt16 → List UInt8
  | [] => []
  | [u] => encode u.toNat
  | u :: v :: rest =>
    if High u ∧ Low v then
      encode (0x10000 + (u.toNat - 0xD800) <<< 10 + (v.toNat - 0xDC00)) ++ fsnameToUtf8 rest
    else encode u.toNat ++ fsnameToUtf8 (v :: rest)

variable {b b₁ b₂ b₃ : UInt8} {p q s : List UInt8} {c m n : Nat} {cs : List Nat}

/-! The bytes of one character. -/

inductive Reads : List UInt8 → Nat → List UInt8 → Prop
  | one (p : List UInt8) (b : UInt8) : b.toNat < 0x80 → Reads (b :: p) b.toNat p
  | two (p : List UInt8) (x y : Nat) : x < 32 → y < 64 →
    Reads (UInt8.ofNat (0xC0 + x) :: UInt8.ofNat (0x80 + y) :: p) (64 * x + y) p
  | three (p : List UInt8) (x y z : Nat) : x < 16 → y < 64 → z < 64 →
    Reads (UInt8.ofNat (0xE0 + x) :: UInt8.ofNat (0x80 + y) :: UInt8.ofNat (0x80 + z) :: p)
      (64 * (64 * x + y) + z) p
  | four (p : List UInt8) (x y z w : Nat) : x < 8 → y < 64 → z < 64 → w < 64 →
    Reads (UInt8.ofNat (0xF0 + x) :: UInt8.ofNat (0x80 + y) :: UInt8.ofNat (0x80 + z) :: UInt8.ofNat (0x80 + w) :: p)
      (64 * (64 * (64 * x + y) + z) + w) p

theorem cont_iff (b : UInt8) : b.toNat &&& 0xC0 = 0x80 ↔ 0x80 ≤ b.toNat ∧ b.toNat < 0xC0 := by
  have hall : ∀ x : Fin 256, x.val &&& 0xC0 = 0x80 ↔ 0x80 ≤ x.val ∧ x.val < 0xC0 := by decide +kernel
  exact hall ⟨b.toNat, b.toNat_lt⟩

theorem low_six (n : Nat) : n &&& 0x3F = n % 64 := Nat.and_two_pow_sub_one_eq_mod n 6

theorem shift_or (h : n < 64) (c : Nat) : c <<< 6 ||| n = 64 * c + n := by
  rw [← Nat.shiftLeft_add_eq_or_of_lt h, Nat.shiftLeft_eq, Nat.mul_comm]

/-- One continuation byte. -/
theorem contBytes_cons (h : contBytes (k + 1) c p = some (n, q)) :
    ∃ y p', y < 64 ∧ p = UInt8.ofNat (0x80 + y) :: p' ∧ contBytes k (64 * c + y) p' = some (n, q) := by
  obtain _ | ⟨b, p⟩ := p
  · cases h
  rw [contBytes] at h
  by_cases hb : b.toNat &&& 0xC0 = 0x80
  · rw [if_neg (not_not.2 hb), low_six, shift_or (Nat.mod_lt _ (by decide))] at h
    obtain ⟨hlow, hhigh⟩ := (cont_iff b).1 hb
    refine ⟨b.toNat % 64, p, Nat.mod_lt _ (by decide), ?_, h⟩
    have hbyte : 0x80 + b.toNat % 64 = b.toNat := by omega
    rw [hbyte, UInt8.ofNat_toNat]
  · rw [if_pos hb] at h
    cases h

theorem contBytes_of_cons (hn : n < 64) (k c : Nat) (p : List UInt8) :
    contBytes (k + 1) c (UInt8.ofNat (0x80 + n) :: p) = contBytes k (64 * c + n) p := by
  have hbyte : (UInt8.ofNat (0x80 + n)).toNat = 0x80 + n := by
    rw [UInt8.toNat_ofNat']
    exact Nat.mod_eq_of_lt (by omega)
  have hcont := (cont_iff (UInt8.ofNat (0x80 + n))).2 (by omega)
  have hmod : (0x80 + n) % 64 = n := by omega
  rw [contBytes, if_neg (not_not.2 hcont), low_six, hbyte, hmod, shift_or hn]

theorem reads_of_readChar (h : readChar b p = some (c, q)) : Reads (b :: p) c q := by
  rw [readChar] at h
  by_cases hbad : (0x80 ≤ b.toNat ∧ contCount b.toNat = 0) ∨ 0xF8 ≤ b.toNat
  · rw [if_pos hbad] at h
    cases h
  rw [if_neg hbad] at h
  have hbyte := UInt8.ofNat_toNat (x := b)
  by_cases h3 : 0xF0 ≤ b.toNat
  · have hk : contCount b.toNat = 3 := if_pos h3
    have hlow : b.toNat &&& 0x3F >>> 3 = b.toNat - 0xF0 := by
      refine (Nat.and_two_pow_sub_one_eq_mod b.toNat 3).trans ?_
      omega
    rw [hk, if_neg (by decide), hlow] at h
    obtain ⟨y, _, hy, rfl, htwo⟩ := contBytes_cons h
    obtain ⟨z, _, hz, rfl, hone⟩ := contBytes_cons htwo
    obtain ⟨w, _, hw, rfl, hzero⟩ := contBytes_cons hone
    cases hzero
    have hread := Reads.four q (b.toNat - 0xF0) y z w (by omega) hy hz hw
    rw [Nat.add_sub_cancel' h3, hbyte] at hread
    exact hread
  by_cases h2 : 0xE0 ≤ b.toNat
  · have hk : contCount b.toNat = 2 := (if_neg h3).trans (if_pos h2)
    have hlow : b.toNat &&& 0x3F >>> 2 = b.toNat - 0xE0 := by
      refine (Nat.and_two_pow_sub_one_eq_mod b.toNat 4).trans ?_
      omega
    rw [hk, if_neg (by decide), hlow] at h
    obtain ⟨y, _, hy, rfl, hone⟩ := contBytes_cons h
    obtain ⟨z, _, hz, rfl, hzero⟩ := contBytes_cons hone
    cases hzero
    have hread := Reads.three q (b.toNat - 0xE0) y z (by omega) hy hz
    rw [Nat.add_sub_cancel' h2, hbyte] at hread
    exact hread
  by_cases h1 : 0xC0 ≤ b.toNat
  · have hk : contCount b.toNat = 1 := (if_neg h3).trans ((if_neg h2).trans (if_pos h1))
    have hlow : b.toNat &&& 0x3F >>> 1 = b.toNat - 0xC0 := by
      refine (Nat.and_two_pow_sub_one_eq_mod b.toNat 5).trans ?_
      omega
    rw [hk, if_neg (by decide), hlow] at h
    obtain ⟨y, _, hy, rfl, hzero⟩ := contBytes_cons h
    cases hzero
    have hread := Reads.two q (b.toNat - 0xC0) y (by omega) hy
    rw [Nat.add_sub_cancel' h1, hbyte] at hread
    exact hread
  · have hk : contCount b.toNat = 0 := (if_neg h3).trans ((if_neg h2).trans (if_neg h1))
    rw [hk, if_pos rfl] at h
    cases h
    exact Reads.one _ b (Nat.lt_of_not_le fun hle => hbad (Or.inl ⟨hle, hk⟩))

theorem readChar_of_reads (h : Reads (b :: p) c q) : readChar b p = some (c, q) := by
  cases h with
  | one _ _ hb =>
    have hk : contCount b.toNat = 0 :=
      (if_neg (by omega)).trans ((if_neg (by omega)).trans (if_neg (by omega)))
    rw [readChar, hk, if_neg (by omega), if_pos rfl, contBytes]
  | two p x y hx hy =>
    have hb : (UInt8.ofNat (0xC0 + x)).toNat = 0xC0 + x := UInt8.toNat_ofNat_of_lt' (show _ < 256 by omega)
    have hk : contCount (0xC0 + x) = 1 :=
      (if_neg (by omega)).trans ((if_neg (by omega)).trans (if_pos (by omega)))
    have hlow : 0xC0 + x &&& 0x3F >>> 1 = x := by
      refine (Nat.and_two_pow_sub_one_eq_mod _ 5).trans ?_
      omega
    rw [readChar, hb, hk, if_neg (by omega), if_neg (by decide), hlow, contBytes_of_cons hy, contBytes]
  | three p x y z hx hy hz =>
    have hb : (UInt8.ofNat (0xE0 + x)).toNat = 0xE0 + x := UInt8.toNat_ofNat_of_lt' (show _ < 256 by omega)
    have hk : contCount (0xE0 + x) = 2 := (if_neg (by omega)).trans (if_pos (by omega))
    have hlow : 0xE0 + x &&& 0x3F >>> 2 = x := by
      refine (Nat.and_two_pow_sub_one_eq_mod _ 4).trans ?_
      omega
    rw [readChar, hb, hk, if_neg (by omega), if_neg (by decide), hlow, contBytes_of_cons hy, contBytes_of_cons hz,
      contBytes]
  | four p x y z w hx hy hz hw =>
    have hb : (UInt8.ofNat (0xF0 + x)).toNat = 0xF0 + x := UInt8.toNat_ofNat_of_lt' (show _ < 256 by omega)
    have hk : contCount (0xF0 + x) = 3 := if_pos (by omega)
    have hlow : 0xF0 + x &&& 0x3F >>> 3 = x := by
      refine (Nat.and_two_pow_sub_one_eq_mod _ 3).trans ?_
      omega
    rw [readChar, hb, hk, if_neg (by omega), if_neg (by decide), hlow, contBytes_of_cons hy, contBytes_of_cons hz,
      contBytes_of_cons hw, contBytes]

/-! Characters written with the fewest bytes. -/

theorem or_low (i : Nat) (a : Nat) (h : n < 2 ^ i) : 2 ^ i * a ||| n = 2 ^ i * a + n :=
  (Nat.two_pow_add_eq_or_of_lt h a).symm

theorem tail_byte (n : Nat) : 0x80 ||| n &&& 0x3F = 0x80 + n % 64 := by
  rw [low_six]
  have hlt : n % 64 < 2 ^ 6 := Nat.mod_lt _ (by decide)
  exact or_low 6 2 hlt

theorem shift_digits (x : Nat) (hy : n < 64) : (64 * x + n) >>> 6 = x ∧ (64 * x + n) % 64 = n := by
  rw [Nat.shiftRight_eq_div_pow]
  omega

theorem encode_one (h : c < 0x80) : encode c = [UInt8.ofNat c] := if_pos h

theorem encode_two (hx : x < 32) (hy : y < 64) (h : 0x80 ≤ 64 * x + y) :
    encode (64 * x + y) = [UInt8.ofNat (0xC0 + x), UInt8.ofNat (0x80 + y)] := by
  obtain ⟨hdiv, hmod⟩ := shift_digits x hy
  have hor : 0xC0 ||| x = 0xC0 + x := or_low 5 6 hx
  rw [encode, if_neg (by omega), if_pos (by omega), tail_byte, hdiv, hmod, hor]

theorem encode_three (hx : x < 16) (hy : y < 64) (hz : z < 64) (h : 0x800 ≤ 64 * (64 * x + y) + z) :
    encode (64 * (64 * x + y) + z) =
      [UInt8.ofNat (0xE0 + x), UInt8.ofNat (0x80 + y), UInt8.ofNat (0x80 + z)] := by
  obtain ⟨hdiv, hmod⟩ := shift_digits (64 * x + y) hz
  obtain ⟨hdiv', hmod'⟩ := shift_digits x hy
  have hlead : (64 * (64 * x + y) + z) >>> 12 = x := by
    rw [Nat.shiftRight_add _ 6 6, hdiv, hdiv']
  have hor : 0xE0 ||| x = 0xE0 + x := or_low 4 14 hx
  rw [encode, if_neg (by omega), if_neg (by omega), if_pos (by omega), tail_byte, tail_byte, hlead, hdiv, hmod,
    hmod', hor]

theorem encode_four (hx : x < 8) (hy : y < 64) (hz : z < 64) (hw : w < 64)
    (h : 0x10000 ≤ 64 * (64 * (64 * x + y) + z) + w) :
    encode (64 * (64 * (64 * x + y) + z) + w) =
      [UInt8.ofNat (0xF0 + x), UInt8.ofNat (0x80 + y), UInt8.ofNat (0x80 + z), UInt8.ofNat (0x80 + w)] := by
  obtain ⟨hdiv, hmod⟩ := shift_digits (64 * (64 * x + y) + z) hw
  obtain ⟨hdiv', hmod'⟩ := shift_digits (64 * x + y) hz
  obtain ⟨hdiv'', hmod''⟩ := shift_digits x hy
  have hmid : (64 * (64 * (64 * x + y) + z) + w) >>> 12 = 64 * x + y := by
    rw [Nat.shiftRight_add _ 6 6, hdiv, hdiv']
  have hlead : (64 * (64 * (64 * x + y) + z) + w) >>> 18 = x := by
    rw [Nat.shiftRight_add _ 12 6, hmid, hdiv'']
  have hor : 0xF0 ||| x = 0xF0 + x := or_low 3 30 hx
  rw [encode, if_neg (by omega), if_neg (by omega), if_neg (by omega), tail_byte, tail_byte, tail_byte, hlead, hmid,
    hdiv, hmod, hmod', hmod'', hor]

/-- What is written for a character is read as it. -/
theorem encode_reads (h : c ≤ 0x1FFFFF) (p : List UInt8) : Reads (encode c ++ p) c p := by
  by_cases h1 : c < 0x80
  · have hb : (UInt8.ofNat c).toNat = c := UInt8.toNat_ofNat_of_lt' (show _ < 256 by omega)
    have hread := Reads.one p (UInt8.ofNat c) (by omega)
    rw [hb] at hread
    rw [encode_one h1]
    exact hread
  obtain ⟨n, y, hy, rfl⟩ : ∃ n y, y < 64 ∧ c = 64 * n + y := ⟨c / 64, c % 64, Nat.mod_lt _ (by decide), by omega⟩
  by_cases h2 : 64 * n + y < 0x800
  · rw [encode_two (by omega) hy (by omega)]
    exact Reads.two p n y (by omega) hy
  obtain ⟨m, z, hz, rfl⟩ : ∃ m z, z < 64 ∧ n = 64 * m + z := ⟨n / 64, n % 64, Nat.mod_lt _ (by decide), by omega⟩
  by_cases h3 : 64 * (64 * m + z) + y < 0x10000
  · rw [encode_three (by omega) hz hy (by omega)]
    exact Reads.three p m z y (by omega) hz hy
  obtain ⟨x, w, hw, rfl⟩ : ∃ x w, w < 64 ∧ m = 64 * x + w := ⟨m / 64, m % 64, Nat.mod_lt _ (by decide), by omega⟩
  rw [encode_four (by omega) hw hz hy (by omega)]
  exact Reads.four p x w z y (by omega) hw hz hy

/-- No character is written with more bytes than it needs. -/
structure Shortest (s : List UInt8) : Prop where
  two : (0xC0 : UInt8) ∉ s ∧ (0xC1 : UInt8) ∉ s
  three : ∀ p b q, s = p ++ 0xE0 :: b :: q → 0xA0 ≤ b.toNat
  four : ∀ p b q, s = p ++ 0xF0 :: b :: q → 0x90 ≤ b.toNat

theorem Shortest.of_append (h : Shortest (p ++ q)) : Shortest q where
  two := ⟨fun hmem => h.two.1 (List.mem_append_right p hmem), fun hmem => h.two.2 (List.mem_append_right p hmem)⟩
  three p' b q' heq := h.three (p ++ p') b q' (by rw [heq, List.append_assoc])
  four p' b q' heq := h.four (p ++ p') b q' (by rw [heq, List.append_assoc])

theorem Reads.encode_eq (h : Reads s c q) (hs : Shortest s) : s = encode c ++ q := by
  cases h with
  | one _ b hb =>
    rw [encode_one hb, UInt8.ofNat_toNat, List.singleton_append]
  | two _ x y hx hy =>
    have hx0 : x ≠ 0 := by
      rintro rfl
      exact hs.two.1 (List.mem_cons_self ..)
    have hx1 : x ≠ 1 := by
      rintro rfl
      exact hs.two.2 (List.mem_cons_self ..)
    rw [encode_two hx hy (by omega)]
    rfl
  | three _ x y z hx hy hz =>
    have hlow : x = 0 → 0x20 ≤ y := by
      rintro rfl
      have hbyte := hs.three [] _ _ rfl
      have hb : (UInt8.ofNat (0x80 + y)).toNat = 0x80 + y := UInt8.toNat_ofNat_of_lt' (show _ < 256 by omega)
      omega
    rw [encode_three hx hy hz (by omega)]
    rfl
  | four _ x y z w hx hy hz hw =>
    have hlow : x = 0 → 0x10 ≤ y := by
      rintro rfl
      have hbyte := hs.four [] _ _ rfl
      have hb : (UInt8.ofNat (0x80 + y)).toNat = 0x80 + y := UInt8.toNat_ofNat_of_lt' (show _ < 256 by omega)
      omega
    rw [encode_four hx hy hz hw (by omega)]
    rfl

/-! The units of one character. -/

theorem units_small (h : c < 0x10000) : units c = [UInt16.ofNat c] := if_neg (Nat.not_le.2 h)

theorem toNat_unit (h : c < 0x10000) : (UInt16.ofNat c).toNat = c := UInt16.toNat_ofNat_of_lt' h

theorem units_pair (hm : m < 0x400) (hn : n < 0x400) :
    units (0x10000 + (1024 * m + n)) = [UInt16.ofNat (0xD800 + m), UInt16.ofNat (0xDC00 + n)] := by
  have hdiv : (1024 * m + n) >>> 10 = m := by
    rw [Nat.shiftRight_eq_div_pow]
    omega
  have hmod : 1024 * m + n &&& 0x3FF = n := by
    refine (Nat.and_two_pow_sub_one_eq_mod _ 10).trans ?_
    omega
  have hhigh : 0xD800 ||| m = 0xD800 + m := or_low 10 54 hm
  have hlow : 0xDC00 ||| n = 0xDC00 + n := or_low 10 55 hn
  rw [units, if_pos (Nat.le_add_right _ _), Nat.add_sub_cancel_left, hdiv, hmod, hhigh, hlow]

theorem forbidden_lt (h : Forbidden c) : c < 0x80 := by
  obtain h | h | ⟨h, -⟩ := h
  · omega
  · omega
  · exact h

theorem not_refused_lt (h : ¬Refused c) : c ≤ 0x10FFFF ∧ ¬(0xD800 ≤ c ∧ c < 0xE000) :=
  ⟨Nat.le_of_not_lt fun hlt => h (Or.inr (Or.inr hlt)), fun hsur => h (Or.inr (Or.inl hsur))⟩

theorem fsnameToUtf8_single (u : UInt16) (h : ¬High u) (rest : List UInt16) :
    fsnameToUtf8 (u :: rest) = encode u.toNat ++ fsnameToUtf8 rest := by
  cases rest with
  | nil => rw [fsnameToUtf8, fsnameToUtf8, List.append_nil]
  | cons v rest => rw [fsnameToUtf8, if_neg fun hpair => h hpair.1]

theorem fsnameToUtf8_units (h : ¬Refused c) (rest : List UInt16) :
    fsnameToUtf8 (units c ++ rest) = encode c ++ fsnameToUtf8 rest := by
  obtain ⟨hmax, hsur⟩ := not_refused_lt h
  by_cases hc : c < 0x10000
  · have hu := toNat_unit hc
    have hhigh : ¬High (UInt16.ofNat c) := by
      rw [High, hu]
      omega
    rw [units_small hc, List.singleton_append, fsnameToUtf8_single _ hhigh, hu]
  · obtain ⟨m, n, hm, hn, rfl⟩ : ∃ m n, m < 0x400 ∧ n < 0x400 ∧ c = 0x10000 + (1024 * m + n) :=
      ⟨(c - 0x10000) / 1024, (c - 0x10000) % 1024, by omega, Nat.mod_lt _ (by decide), by omega⟩
    have hu := @toNat_unit (0xD800 + m) (by omega)
    have hv := @toNat_unit (0xDC00 + n) (by omega)
    have hcode : 0x10000 + (0xD800 + m - 0xD800) <<< 10 + (0xDC00 + n - 0xDC00) = 0x10000 + (1024 * m + n) := by
      rw [Nat.add_sub_cancel_left, Nat.add_sub_cancel_left, Nat.shiftLeft_eq]
      omega
    rw [units_pair hm hn]
    change fsnameToUtf8 (_ :: _ :: rest) = _
    have hhigh : High (UInt16.ofNat (0xD800 + m)) := ⟨by omega, by omega⟩
    have hlow : Low (UInt16.ofNat (0xDC00 + n)) := ⟨by omega, by omega⟩
    rw [fsnameToUtf8, if_pos ⟨hhigh, hlow⟩, hu, hv, hcode]

theorem fsnameToUtf8_flatMap (h : ∀ c ∈ cs, ¬Refused c) :
    fsnameToUtf8 (cs.flatMap units) = cs.flatMap encode := by
  induction cs with
  | nil => rfl
  | cons c cs ih =>
    rw [List.flatMap_cons, List.flatMap_cons, fsnameToUtf8_units (h c (List.mem_cons_self ..)),
      ih fun c hc => h c (List.mem_cons_of_mem _ hc)]

theorem units_length (c : Nat) : (units c).length = 1 + if 0x10000 ≤ c then 1 else 0 := by
  rw [units]
  split
  · rfl
  · rfl

theorem encode_length_pos (c : Nat) : 0 < (encode c).length := by
  rw [encode]
  split
  · exact Nat.succ_pos _
  split
  · exact Nat.succ_pos _
  split
  · exact Nat.succ_pos _
  · exact Nat.succ_pos _

theorem encode_length_le (c : Nat) : (encode c).length ≤ 3 * (units c).length := by
  rw [units_length, encode]
  split
  · split
    · omega
    · exact Nat.le_add_left 1 2
  split
  · rw [if_neg (by omega)]
    exact Nat.le_add_left 2 1
  split
  · rw [if_neg (by omega)]
    exact le_rfl
  · rw [if_pos (by omega)]
    exact Nat.le_add_left 4 2

/-! Whole names. -/

/-- The loop reads what was written for characters that it does not refuse. -/
theorem utf16Loop_encode (h : ∀ c ∈ cs, ¬Refused c) (hfuel : (cs.flatMap encode).length ≤ m)
    (hroom : n + (cs.flatMap units).length ≤ FSNAME_MAX) :
    utf16Loop m n (cs.flatMap encode) = some (cs.flatMap units) := by
  induction cs generalizing m n with
  | nil => rw [List.flatMap_nil, utf16Loop, List.flatMap_nil]
  | cons c cs ih =>
    have hc := h c (List.mem_cons_self ..)
    have hread := encode_reads ((not_refused_lt hc).1.trans (by decide)) (cs.flatMap encode)
    have hpos := encode_length_pos c
    rw [List.flatMap_cons] at hfuel hroom ⊢
    rw [List.length_append] at hfuel hroom
    generalize encode c ++ cs.flatMap encode = s at hread ⊢
    obtain _ | ⟨b, p⟩ := s
    · cases hread
    obtain _ | m := m
    · omega
    have hlen := units_length c
    rw [utf16Loop, readChar_of_reads hread]
    dsimp only
    rw [if_neg hc, if_neg (by omega), ih (fun c hc => h c (List.mem_cons_of_mem _ hc)) (by omega) (by omega)]
    rfl

/-- What the loop accepts is a string of characters that it does not refuse. -/
theorem utf16Loop_sound {u : List UInt16} (h : utf16Loop m n s = some u) (hn : n ≤ FSNAME_MAX) :
    ∃ cs : List Nat, (∀ c ∈ cs, ¬Refused c) ∧ u = cs.flatMap units ∧ n + u.length ≤ FSNAME_MAX ∧
      (Shortest s → s = cs.flatMap encode) := by
  induction m generalizing n s u with
  | zero =>
    cases s with
    | nil =>
      cases h
      exact ⟨[], fun _ hc => absurd hc List.not_mem_nil, rfl, hn, fun _ => rfl⟩
    | cons b p => cases h
  | succ m ih =>
    cases s with
    | nil =>
      cases h
      exact ⟨[], fun _ hc => absurd hc List.not_mem_nil, rfl, hn, fun _ => rfl⟩
    | cons b p =>
      rw [utf16Loop] at h
      cases hread : readChar b p with
      | none =>
        rw [hread] at h
        cases h
      | some pair =>
        obtain ⟨c, q⟩ := pair
        rw [hread] at h
        dsimp only at h
        by_cases hc : Refused c
        · rw [if_pos hc] at h
          cases h
        by_cases hfull : FSNAME_MAX ≤ n + if 0x10000 ≤ c then 1 else 0
        · rw [if_neg hc, if_pos hfull] at h
          cases h
        rw [if_neg hc, if_neg hfull, Option.map_eq_some_iff] at h
        obtain ⟨u', hloop, rfl⟩ := h
        have hlen := units_length c
        obtain ⟨cs, hcs, rfl, hroom, hs⟩ := ih hloop (by omega)
        refine ⟨c :: cs, ?_, rfl, ?_, ?_⟩
        · intro c' hmem
          obtain rfl | hmem := List.mem_cons.1 hmem
          · exact hc
          · exact hcs c' hmem
        · rw [List.length_append]
          omega
        · intro hshort
          have heq := (reads_of_readChar hread).encode_eq hshort
          rw [heq] at hshort
          rw [heq, List.flatMap_cons, ← hs hshort.of_append]

theorem flatMap_encode_length (cs : List Nat) : (cs.flatMap encode).length ≤ 3 * (cs.flatMap units).length := by
  induction cs with
  | nil => exact le_rfl
  | cons c cs ih =>
    have hle := encode_length_le c
    rw [List.flatMap_cons, List.flatMap_cons, List.length_append, List.length_append]
    omega

/-- Units without lone surrogates. -/
inductive WellFormed : List UInt16 → Prop
  | nil : WellFormed []
  | single (u : UInt16) (rest : List UInt16) : ¬High u → ¬Low u → WellFormed rest → WellFormed (u :: rest)
  | pair (u v : UInt16) (rest : List UInt16) : High u → Low v → WellFormed rest → WellFormed (u :: v :: rest)

theorem WellFormed.characters {u : List UInt16} (h : WellFormed u) (hok : ∀ x ∈ u, ¬Forbidden x.toNat) :
    ∃ cs : List Nat, (∀ c ∈ cs, ¬Refused c) ∧ u = cs.flatMap units := by
  induction h with
  | nil => exact ⟨[], fun _ hc => absurd hc List.not_mem_nil, rfl⟩
  | single u rest hhigh hlow _ ih =>
    obtain ⟨cs, hcs, rfl⟩ := ih fun x hx => hok x (List.mem_cons_of_mem _ hx)
    refine ⟨u.toNat :: cs, ?_, ?_⟩
    · intro c hmem
      obtain rfl | hmem := List.mem_cons.1 hmem
      · have hlt := u.toNat_lt
        have hfree := hok u (List.mem_cons_self ..)
        intro hbad
        obtain hbad | hbad | hbad := hbad
        · exact hfree hbad
        · omega
        · omega
      · exact hcs c hmem
    · rw [List.flatMap_cons, units_small u.toNat_lt, UInt16.ofNat_toNat]
      rfl
  | pair u v rest hhigh hlow _ ih =>
    obtain ⟨cs, hcs, rfl⟩ := ih fun x hx => hok x (List.mem_cons_of_mem _ (List.mem_cons_of_mem _ hx))
    obtain ⟨hu, hu'⟩ := hhigh
    obtain ⟨hv, hv'⟩ := hlow
    have hunits := @units_pair (u.toNat - 0xD800) (v.toNat - 0xDC00) (by omega) (by omega)
    rw [Nat.add_sub_cancel' hu, Nat.add_sub_cancel' hv, UInt16.ofNat_toNat, UInt16.ofNat_toNat] at hunits
    have hsize : 1024 * (u.toNat - 0xD800) + (v.toNat - 0xDC00) < 0x100000 := by omega
    generalize 1024 * (u.toNat - 0xD800) + (v.toNat - 0xDC00) = n at hunits hsize
    refine ⟨(0x10000 + n) :: cs, ?_, ?_⟩
    · intro c hmem
      obtain rfl | hmem := List.mem_cons.1 hmem
      · intro hbad
        obtain hbad | hbad | hbad := hbad
        · have hsmall := forbidden_lt hbad
          omega
        · omega
        · omega
      · exact hcs c hmem
    · rw [List.flatMap_cons, hunits]
      rfl

theorem fsnameToUtf16_sound {u : List UInt16} (h : fsnameToUtf16 s = some u) :
    ∃ cs : List Nat, (∀ c ∈ cs, ¬Refused c) ∧ u = cs.flatMap units ∧ u.length ≤ FSNAME_MAX ∧
      (Shortest s → s = cs.flatMap encode) := by
  rw [fsnameToUtf16] at h
  by_cases hdots : s = [0x2E] ∨ s = [0x2E, 0x2E]
  · rw [if_pos hdots] at h
    cases h
  rw [if_neg hdots] at h
  obtain ⟨cs, hcs, hu, hroom, hs⟩ := utf16Loop_sound h (Nat.zero_le _)
  exact ⟨cs, hcs, hu, by omega, hs⟩

theorem byte_ne_zero (h : 0 < n) (h' : n < 256) : (0 : UInt8) ≠ UInt8.ofNat n := by
  intro heq
  have hn := congrArg UInt8.toNat heq
  rw [UInt8.toNat_ofNat_of_lt' h'] at hn
  exact absurd hn (Nat.ne_of_lt h)

theorem Reads.ne_zero (h : Reads s c []) (hc : c ≠ 0) : (0 : UInt8) ∉ s := by
  intro hmem
  cases h with
  | one _ b hb =>
    have heq := List.mem_singleton.1 hmem
    rw [← heq] at hc
    exact hc rfl
  | two _ x y hx hy =>
    rw [List.mem_cons, List.mem_singleton] at hmem
    obtain heq | heq := hmem
    · exact byte_ne_zero (by omega) (by omega) heq
    · exact byte_ne_zero (by omega) (by omega) heq
  | three _ x y z hx hy hz =>
    rw [List.mem_cons, List.mem_cons, List.mem_singleton] at hmem
    obtain heq | heq | heq := hmem
    · exact byte_ne_zero (by omega) (by omega) heq
    · exact byte_ne_zero (by omega) (by omega) heq
    · exact byte_ne_zero (by omega) (by omega) heq
  | four _ x y z w hx hy hz hw =>
    rw [List.mem_cons, List.mem_cons, List.mem_cons, List.mem_singleton] at hmem
    obtain heq | heq | heq | heq := hmem
    · exact byte_ne_zero (by omega) (by omega) heq
    · exact byte_ne_zero (by omega) (by omega) heq
    · exact byte_ne_zero (by omega) (by omega) heq
    · exact byte_ne_zero (by omega) (by omega) heq

/-- A character that is not refused has no zero byte. -/
theorem encode_ne_zero (h : ¬Refused c) : (0 : UInt8) ∉ encode c := by
  have hread := encode_reads ((not_refused_lt h).1.trans (by decide)) []
  rw [List.append_nil] at hread
  apply hread.ne_zero
  rintro rfl
  exact h (by decide)

/-- Names between the two encodings. -/
theorem fsname_roundTrip :
    (∀ s u, fsnameToUtf16 s = some u → u ≠ [] →
      (fsnameToUtf8 u).length + 1 ≤ FSNAME_MAX * 3 + 1 ∧ (Shortest s → fsnameToUtf8 u = s)) ∧
    (∀ u, u.length ≤ FSNAME_MAX → WellFormed u → (∀ x ∈ u, ¬Forbidden x.toNat) → u ≠ [0x2E] → u ≠ [0x2E, 0x2E] →
      0 ∉ fsnameToUtf8 u ∧ fsnameToUtf16 (fsnameToUtf8 u) = some u) ∧
    (∀ s s' u, fsnameToUtf16 s = some u → fsnameToUtf16 s' = some u → Shortest s → Shortest s' → s = s') := by
  refine ⟨?_, ?_, ?_⟩
  · intro s u h _
    obtain ⟨cs, hcs, rfl, hroom, hs⟩ := fsnameToUtf16_sound h
    rw [fsnameToUtf8_flatMap hcs]
    have hlen := flatMap_encode_length cs
    exact ⟨by omega, fun hshort => (hs hshort).symm⟩
  · intro u hroom hwf hfree hdot hdots
    obtain ⟨cs, hcs, rfl⟩ := hwf.characters hfree
    rw [fsnameToUtf8_flatMap hcs]
    have hloop := @utf16Loop_encode _ 0 _ hcs le_rfl (by rw [Nat.zero_add]; exact hroom)
    refine ⟨?_, ?_⟩
    · intro hzero
      obtain ⟨c, hc, hmem⟩ := List.mem_flatMap.1 hzero
      exact encode_ne_zero (hcs c hc) hmem
    · rw [fsnameToUtf16, if_neg, hloop]
      intro hbad
      obtain hbad | hbad := hbad
      · rw [hbad] at hloop
        exact hdot (Option.some_inj.1 hloop.symm)
      · rw [hbad] at hloop
        exact hdots (Option.some_inj.1 hloop.symm)
  · intro s s' u h h' hshort hshort'
    obtain ⟨cs, hcs, rfl, -, hs⟩ := fsnameToUtf16_sound h
    obtain ⟨cs', hcs', heq, -, hs'⟩ := fsnameToUtf16_sound h'
    have hbytes := congrArg fsnameToUtf8 heq
    rw [fsnameToUtf8_flatMap hcs, fsnameToUtf8_flatMap hcs'] at hbytes
    rw [hs hshort, hs' hshort', hbytes]

/-- Two spellings of `A`, and a name that is refused as a whole. -/
theorem overlong_twice :
    fsnameToUtf16 [0xC1, 0x81] = some [0x41] ∧ fsnameToUtf8 [0x41] ≠ [0xC1, 0x81] ∧
      fsnameToUtf16 [0x41] = some [0x41] ∧
      WellFormed [0x2E] ∧ (∀ x ∈ [(0x2E : UInt16)], ¬Forbidden x.toNat) ∧
        fsnameToUtf16 (fsnameToUtf8 [0x2E]) = none := by
  refine ⟨by decide +kernel, by decide +kernel, by decide +kernel, ?_, ?_, by decide +kernel⟩
  · exact WellFormed.single _ _ (by decide) (by decide) WellFormed.nil
  · intro x hx
    have hdot : ¬Forbidden 0x2E := by decide
    rw [List.mem_singleton.1 hx]
    exact hdot

end Lebirun.Fsname
