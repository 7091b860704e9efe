import Mathlib
import Lebirun.Crypto.ShaStream

namespace Lebirun.Crypto
set_option autoImplicit true

/-! Hashes with a key. A context is on the stack, so its buffer holds anything before each use. -/

/-- `sha256_hash` -/
def sha256Hash (stack data : Bytes) : Bytes := sha256Final (sha256.update (sha256Init stack) data)

/-- `sha512_hash` -/
def sha512Hash (stack data : Bytes) : Bytes := sha512Final (sha512.update (sha512Init stack) data)

/-- `sha384_hash` -/
def sha384Hash (stack data : Bytes) : Bytes := sha384Final (sha512.update (sha384Init stack) data)

/-- `k_ipad` and `k_opad`, for a key of at most a block -/
def keyPad (block : Nat) (key : Bytes) (x : UInt8) : Bytes :=
  key.map (· ^^^ x) ++ List.replicate (block - key.length) x

/-- The three contexts of a call. -/
inductive Context where
  | key
  | inner
  | outer

/-- `hmac_sha256`; the contexts start with the buffers `stack`. -/
def hmacSha256 (stack : Context → Bytes) (key data : Bytes) : Bytes :=
  let key := if 64 < key.length then sha256Hash (stack .key) key else key
  let out := sha256Final (sha256.update (sha256.update (sha256Init (stack .inner)) (keyPad 64 key 0x36)) data)
  sha256Final (sha256.update (sha256.update (sha256Init (stack .outer)) (keyPad 64 key 0x5c)) out)

/-- `hmac_sha512` -/
def hmacSha512 (stack : Context → Bytes) (key data : Bytes) : Bytes :=
  let key := if 128 < key.length then sha512Hash (stack .key) key else key
  let out := sha512Final (sha512.update (sha512.update (sha512Init (stack .inner)) (keyPad 128 key 0x36)) data)
  sha512Final (sha512.update (sha512.update (sha512Init (stack .outer)) (keyPad 128 key 0x5c)) out)

/-- `crypto_constant_compare`; the second string has room for as many bytes. -/
def cryptoConstantCompare (a b : Bytes) : Int :=
  let result := (a.zip b).foldl (fun r x => r ||| (x.1 ^^^ x.2)) 0
  if result = 0 then 0 else -1

/-- HMAC of the standard, over a hash with blocks of `block` bytes. -/
def standardHmac (hash : Bytes → Bytes) (block : Nat) (key data : Bytes) : Bytes :=
  let key := if block < key.length then hash key else key
  let key := key ++ List.replicate (block - key.length) 0
  hash (key.map (· ^^^ 0x5c) ++ hash (key.map (· ^^^ 0x36) ++ data))

variable {a b data key stack : Bytes}

theorem sha256Hash_eq (h : stack.length = 64) (data : Bytes) : sha256Hash stack data = standard256 data := by
  have hstream := sha256Final_updates stack h [data]
  rw [List.flatten_singleton] at hstream
  exact hstream

theorem sha512Hash_eq (h : stack.length = 128) (data : Bytes) :
    sha512Hash stack data = standard512 init512 data := by
  have hstream := sha512Final_updates stack h [data]
  rw [List.flatten_singleton] at hstream
  exact hstream

theorem keyPad_eq (block : Nat) (key : Bytes) (x : UInt8) :
    keyPad block key x = (key ++ List.replicate (block - key.length) 0).map (· ^^^ x) := by
  rw [keyPad, List.map_append, List.map_replicate, UInt8.zero_xor]

/-- Two updates are one message. -/
theorem sha256_twice (h : stack.length = 64) (a b : Bytes) :
    sha256Final (sha256.update (sha256.update (sha256Init stack) a) b) = standard256 (a ++ b) := by
  have hstream := sha256Final_updates stack h [a, b]
  rw [List.flatten_cons, List.flatten_singleton] at hstream
  exact hstream

theorem sha512_twice (h : stack.length = 128) (a b : Bytes) :
    sha512Final (sha512.update (sha512.update (sha512Init stack) a) b) = standard512 init512 (a ++ b) := by
  have hstream := sha512Final_updates stack h [a, b]
  rw [List.flatten_cons, List.flatten_singleton] at hstream
  exact hstream

theorem hmacSha256_standard {stack : Context → Bytes} (h : ∀ i, (stack i).length = 64) (key data : Bytes) :
    hmacSha256 stack key data = standardHmac standard256 64 key data := by
  rw [hmacSha256, standardHmac, sha256Hash_eq (h .key)]
  rw [sha256_twice (h .inner), sha256_twice (h .outer), keyPad_eq, keyPad_eq]

theorem standardHmac_length (key data : Bytes) : (standardHmac standard256 64 key data).length = 32 :=
  standard256_length _

theorem hmacSha512_standard {stack : Context → Bytes} (h : ∀ i, (stack i).length = 128) (key data : Bytes) :
    hmacSha512 stack key data = standardHmac (standard512 init512) 128 key data := by
  rw [hmacSha512, standardHmac, sha512Hash_eq (h .key)]
  rw [sha512_twice (h .inner), sha512_twice (h .outer), keyPad_eq, keyPad_eq]

/-- Both functions are the HMAC of the standard, for keys and messages of any length. -/
theorem hmac_standard (key data : Bytes) :
    (∀ stack : Context → Bytes, (∀ i, (stack i).length = 64) →
      hmacSha256 stack key data = standardHmac standard256 64 key data) ∧
    (∀ stack : Context → Bytes, (∀ i, (stack i).length = 128) →
      hmacSha512 stack key data = standardHmac (standard512 init512) 128 key data) := by
  constructor
  · intro stack h
    exact hmacSha256_standard h key data
  · intro stack h
    exact hmacSha512_standard h key data

theorem or_eq_zero (x y : UInt8) : x ||| y = 0 ↔ x = 0 ∧ y = 0 := by
  rw [← UInt8.toNat_inj, ← UInt8.toNat_inj, ← UInt8.toNat_inj, UInt8.toNat_or]
  exact Nat.or_eq_zero_iff

/-- The comparison looks at every byte, and finds all differences. -/
theorem cryptoConstantCompare_eq (h : a.length = b.length) : cryptoConstantCompare a b = 0 ↔ a = b := by
  have hfold : ∀ (l : List (UInt8 × UInt8)) (r : UInt8),
      l.foldl (fun r x => r ||| (x.1 ^^^ x.2)) r = 0 ↔ r = 0 ∧ ∀ x ∈ l, x.1 = x.2 := by
    intro l
    induction l with
    | nil =>
      intro r
      exact ⟨fun hr => ⟨hr, fun _ hx => absurd hx List.not_mem_nil⟩, And.left⟩
    | cons x l ih =>
      intro r
      rw [List.foldl_cons, ih, or_eq_zero, UInt8.xor_eq_zero_iff, List.forall_mem_cons, and_assoc]
  have hzip : (∀ x ∈ a.zip b, x.1 = x.2) ↔ a = b := by
    induction a generalizing b with
    | nil =>
      rw [List.length_eq_zero_iff.1 h.symm]
      exact ⟨fun _ => rfl, fun _ _ hx => absurd hx List.not_mem_nil⟩
    | cons x a ih =>
      cases b with
      | nil => exact absurd h (Nat.succ_ne_zero _)
      | cons y b =>
        rw [List.zip_cons_cons, List.forall_mem_cons, ih (Nat.succ.inj h), List.cons.injEq]
  have hall := (hfold (a.zip b) 0).trans (and_iff_right rfl)
  rw [cryptoConstantCompare]
  split
  · rename_i hzero
    exact ⟨fun _ => hzip.1 (hall.1 hzero), fun _ => rfl⟩
  · rename_i hne
    exact ⟨fun h => absurd h (by decide), fun heq => absurd (hall.2 (hzip.2 heq)) hne⟩

end Lebirun.Crypto
