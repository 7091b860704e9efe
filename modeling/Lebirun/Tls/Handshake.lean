import Mathlib
import Lebirun.Tls.Verify

namespace Lebirun.Tls
set_option autoImplicit true

/-- What one call of `lebtls_handshake` fixes before its receive loop: the primitives, the clock and
the bundle that `lebtls_verify_server_certs` reads, `conn->host` and `fin_key`. -/
structure Session where
  crypto : Crypto
  rtc : UInt64
  bundle : Option Bytes
  host : Bytes
  finKey : Bytes

def Session.verify (e : Session) (msg : Bytes) : Option PublicKey :=
  lebtlsVerifyServerCerts e.crypto e.rtc e.bundle e.host msg

/-- `conn->transcript` and `stream` with the loop's `stage` and leaf key, and the byte strings that
were hashed so far. -/
structure Hs where
  transcript : Bytes
  stream : Bytes := []
  stage : Nat := 0
  leaf : Option PublicKey := none
  hashed : List Bytes := []
  deriving DecidableEq

inductive Next where
  | bad
  | more
  | message (type : UInt8) (body : Bytes)
  deriving DecidableEq

def hsNextMessage : Bytes → Next
  | t :: a :: b :: c :: rest =>
    if 16384 < beNat [a, b, c] then .bad
    else if rest.length < beNat [a, b, c] then .more
    else .message t (rest.take (beNat [a, b, c]))
  | _ => .more

/-- `hs_consume` with the move to the next stage. -/
def Hs.consume (s : Hs) (msgLen stage : Nat) : Except (List Bytes) Hs :=
  if s.stream.length < 4 + msgLen then .error s.hashed
  else .ok { s with stream := s.stream.drop (4 + msgLen), stage := stage }

/-- The first `conn->transcript_len - stream.len` bytes of the transcript. -/
def Hs.covered (s : Hs) : Bytes := s.transcript.take (s.transcript.length - s.stream.length)

def Hs.hash (s : Hs) : Hs := { s with hashed := s.hashed ++ [s.covered] }

/-- `TLS 1.3, server CertificateVerify` -/
def certVerifyCtx : Bytes :=
  [84, 76, 83, 32, 49, 46, 51, 44, 32, 115, 101, 114, 118, 101, 114, 32, 67, 101, 114, 116, 105, 102,
    105, 99, 97, 116, 101, 86, 101, 114, 105, 102, 121]

def certVerifyContent (cvhash : Bytes) : Bytes :=
  List.replicate 64 0x20 ++ certVerifyCtx ++ [0x00] ++ cvhash

/-- The algorithm and the signature of a CertificateVerify body. -/
def certVerifyParse : Bytes → Option (Nat × Bytes)
  | a :: b :: c :: d :: sig =>
    if beNat [a, b] ≠ 0x0804 ∧ beNat [a, b] ≠ 0x0403 ∧ beNat [a, b] ≠ 0x0503 then none
    else if beNat [c, d] ≠ sig.length then none
    else some (beNat [a, b], sig)
  | _ => none

def certVerifyOk (c : Crypto) (leaf : Option PublicKey) (alg : Nat) (sig content : Bytes) : Bool :=
  match leaf with
  | some (.rsa n e) => alg = 0x0804 && c.rsaVerifyPss n e content sig 32
  | some (.ec bits qx qy) =>
    if alg = 0x0403 ∧ bits = 256 then
      match lebtlsEcdsaSigParse sig 32 with
      | some (r, s) => c.ecdsaVerify qx qy (c.sha256 content) r s
      | none => false
    else if alg = 0x0503 ∧ bits = 384 then
      match lebtlsEcdsaSigParse sig 48 with
      | some (r, s) => c.ecdsa384Verify qx qy (c.sha384 content) r s
      | none => false
    else false
  | none => false

/-- `mem` is the outcome of the allocations, here and below. -/
def handleCertificate (e : Session) (mem : Bool) (s : Hs) (body : Bytes) :
    Except (List Bytes) Hs :=
  match if mem then e.verify body else none with
  | none => .error s.hashed
  | some leaf => { s with leaf := some leaf }.consume body.length 2

def handleCertificateVerify (e : Session) (mem : Bool) (s : Hs) (body : Bytes) :
    Except (List Bytes) Hs :=
  match certVerifyParse body with
  | none => .error s.hashed
  | some (alg, sig) =>
    if s.transcript.length < s.stream.length then .error s.hashed
    else if !mem then .error s.hash.hashed
    else if certVerifyOk e.crypto s.leaf alg sig (certVerifyContent (e.crypto.sha256 s.covered)) then
      { s.hash with leaf := none }.consume body.length 3
    else .error s.hash.hashed

def handleFinished (e : Session) (s : Hs) (body : Bytes) : Except (List Bytes) Hs :=
  if body.length ≠ 32 then .error s.hashed
  else if s.transcript.length < s.stream.length then .error s.hashed
  else if e.crypto.hmacSha256 e.finKey (e.crypto.sha256 s.covered) = body then
    s.hash.consume body.length 4
  else .error s.hash.hashed

def handleMessage (e : Session) (mem : Bool) (s : Hs) (type : UInt8) (body : Bytes) :
    Except (List Bytes) Hs :=
  match s.stage with
  | 0 => if type ≠ 8 then .error s.hashed else s.consume body.length 1
  | 1 => if type ≠ 11 then .error s.hashed else handleCertificate e mem s body
  | 2 => if type ≠ 15 then .error s.hashed else handleCertificateVerify e mem s body
  | 3 => if type ≠ 20 then .error s.hashed else handleFinished e s body
  | _ => .error s.hashed

/-- The inner loop. Each pass takes at least four bytes from the stream. -/
def messageLoop (e : Session) (mem : Bool) : Nat → Hs → Except (List Bytes) Hs
  | 0, s => .ok s
  | n + 1, s =>
    match hsNextMessage s.stream with
    | .bad => .error s.hashed
    | .more => .ok s
    | .message type body =>
      match handleMessage e mem s type body with
      | .error h => .error h
      | .ok s' => if s'.stage = 4 then .ok s' else messageLoop e mem n s'

def drain (e : Session) (mem : Bool) (s : Hs) : Except (List Bytes) Hs :=
  messageLoop e mem s.stream.length s

/-- The capacity after the doubling loop, none where it would overflow. -/
def growCap : Nat → Nat → Nat → Option Nat
  | 0, _, _ => none
  | n + 1, cap, need =>
    if cap < need then if (2 ^ 64 - 1) / 2 < cap then none else growCap n (2 * cap) need
    else some cap

/-- The capacity after `len` bytes grow by `extra`; `first` is the capacity of a fresh buffer. -/
def reserve (mem : Bool) (first cap len extra : Nat) : Option Nat :=
  if 2 ^ 64 ≤ len + extra then none
  else if len + extra ≤ cap then some cap
  else
    match growCap 64 (if cap = 0 then first else cap) (len + extra) with
    | some cap => if mem then some cap else none
    | none => none

/-- `transcript_cap` and the stream's `cap`. -/
structure Caps where
  transcript : Nat
  stream : Nat

def lebtlsTranscriptAppend (mem : Bool) (cap : Nat) (transcript data : Bytes) :
    Option (Nat × Bytes) :=
  if data = [] then some (cap, transcript)
  else (reserve mem 4096 cap transcript.length data.length).map (·, transcript ++ data)

def hsBytes (mem : Bool) (cap : Nat) (stream data : Bytes) : Option (Nat × Bytes) :=
  (reserve mem 256 cap stream.length data.length).map (·, stream ++ data)

def hsAppendRecord (mem : Bool) (caps : Caps) (s : Hs) (pt : Bytes) : Option (Caps × Hs) :=
  match lebtlsTranscriptAppend mem caps.transcript s.transcript pt with
  | none => none
  | some (tcap, transcript) =>
    (hsBytes mem caps.stream s.stream pt).map fun (scap, stream) =>
      (⟨tcap, scap⟩, { s with transcript := transcript, stream := stream })

/-- A decrypted record; `lebtls_rec_recv` takes none of more than 16384 + 256 bytes. -/
structure Plaintext where
  bytes : Bytes
  size : bytes.length ≤ 16640

/-- What one round of the receive loop meets: a pending signal, the outcome of `lebtls_rec_recv`, and
for a record its type, what `lebtls_traffic_open` made of it and the outcome of allocations. -/
inductive Event where
  | signal
  | recvError
  | timeout
  | record (type : UInt8) (opened : Option (UInt8 × Plaintext)) (mem : Bool)

inductive Outcome where
  | failed (hashed : List Bytes)
  | waiting (s : Hs)
  | reached (s : Hs)

/-- The receive loop over the events of its rounds. -/
def recvLoop (e : Session) : (rounds idleCount : Nat) → Caps → Hs → List Event → Outcome
  | _, _, _, s, [] => .waiting s
  | rounds, idleCount, caps, s, ev :: evs =>
    if 128 ≤ rounds then .failed s.hashed
    else
      match ev with
      | .signal => .failed s.hashed
      | .recvError => .failed s.hashed
      | .timeout =>
        if 3 < idleCount + 1 then .failed s.hashed
        else recvLoop e (rounds + 1) (idleCount + 1) caps s evs
      | .record type opened mem =>
        if type = 0x14 then recvLoop e (rounds + 1) 0 caps s evs
        else if type ≠ 23 then .failed s.hashed
        else
          match opened with
          | none => .failed s.hashed
          | some (inner, pt) =>
            if inner ≠ 22 then .failed s.hashed
            else
              match hsAppendRecord mem caps s pt.bytes with
              | none => .failed s.hashed
              | some (caps, s) =>
                match drain e mem s with
                | .error hashed => .failed hashed
                | .ok s => if s.stage = 4 then .reached s else recvLoop e (rounds + 1) 0 caps s evs

/-- The three length bytes of a handshake message. -/
def be24 (n : Nat) : Bytes := [UInt8.ofNat (n / 2 ^ 16), UInt8.ofNat (n / 2 ^ 8), UInt8.ofNat n]

def message (type : UInt8) (body : Bytes) : Bytes := type :: (be24 body.length ++ body)

@[simp]
theorem length_message : (message type body).length = 4 + body.length := by
  simp [message, be24]
  omega

theorem beNat_three (a b c : UInt8) :
    beNat [a, b, c] = 256 * (256 * a.toNat + b.toNat) + c.toNat := by
  simp [beNat]

theorem beNat_be24 (h : n < 2 ^ 24) : beNat (be24 n) = n := by
  rw [be24, beNat_three]
  simp only [UInt8.toNat_ofNat']
  omega

theorem be24_beNat (a b c : UInt8) : be24 (beNat [a, b, c]) = [a, b, c] := by
  have ha := a.toNat_lt
  have hb := b.toNat_lt
  have hc := c.toNat_lt
  rw [beNat_three, be24]
  congr 1
  · apply UInt8.toNat_inj.mp
    simp only [UInt8.toNat_ofNat']
    omega
  · congr 1
    · apply UInt8.toNat_inj.mp
      simp only [UInt8.toNat_ofNat']
      omega
    · congr 1
      apply UInt8.toNat_inj.mp
      simp only [UInt8.toNat_ofNat']
      omega

theorem hsNextMessage_message (h : body.length ≤ 16384) :
    hsNextMessage (message type body ++ rest) = .message type body := by
  have hn := beNat_be24 (show body.length < 2 ^ 24 by omega)
  rw [be24] at hn
  simp only [message, be24, List.cons_append, List.nil_append, hsNextMessage, hn]
  rw [if_neg (by omega), if_neg (by simp), List.take_left' rfl]

theorem hsNextMessage_eq_message (h : hsNextMessage l = .message type body) :
    body.length ≤ 16384 ∧ ∃ rest, l = message type body ++ rest := by
  obtain _ | ⟨t, _ | ⟨a, _ | ⟨b, _ | ⟨c, rest⟩⟩⟩⟩ := l
  · simp [hsNextMessage] at h
  · simp [hsNextMessage] at h
  · simp [hsNextMessage] at h
  · simp [hsNextMessage] at h
  · simp only [hsNextMessage] at h
    split at h
    · cases h
    · rename_i hmax
      split at h
      · cases h
      · rename_i hlen
        cases h
        have hl : (rest.take (beNat [a, b, c])).length = beNat [a, b, c] := by
          rw [List.length_take]
          omega
        refine ⟨by omega, rest.drop (beNat [a, b, c]), ?_⟩
        rw [message, hl, be24_beNat]
        simp

/-- More bytes change nothing about a header already refused. -/
theorem hsNextMessage_bad_append (h : hsNextMessage l = .bad) : hsNextMessage (l ++ t) = .bad := by
  obtain _ | ⟨t, _ | ⟨a, _ | ⟨b, _ | ⟨c, rest⟩⟩⟩⟩ := l
  · simp [hsNextMessage] at h
  · simp [hsNextMessage] at h
  · simp [hsNextMessage] at h
  · simp [hsNextMessage] at h
  · simp only [hsNextMessage, List.cons_append] at h ⊢
    split at h
    · rename_i hmax
      rw [if_pos hmax]
    · split at h <;> cases h

theorem hsNextMessage_message_append (h : hsNextMessage l = .message type body) :
    hsNextMessage (l ++ t) = .message type body := by
  obtain ⟨hlen, rest, rfl⟩ := hsNextMessage_eq_message h
  rw [List.append_assoc]
  exact hsNextMessage_message hlen

theorem Hs.consume_ok (h : Hs.consume s n k = .ok s') :
    s' = { s with stream := s.stream.drop (4 + n), stage := k } := by
  unfold Hs.consume at h
  split at h
  · cases h
  · cases h
    rfl

/-- The state in which `t` has been received as well. -/
def Hs.extend (s : Hs) (t : Bytes) : Hs :=
  { s with transcript := s.transcript ++ t, stream := s.stream ++ t }

@[simp] theorem Hs.extend_stage : (Hs.extend s t).stage = s.stage := rfl
@[simp] theorem Hs.extend_hashed : (Hs.extend s t).hashed = s.hashed := rfl
@[simp] theorem Hs.extend_stream : (Hs.extend s t).stream = s.stream ++ t := rfl

theorem Hs.extend_extend : (Hs.extend s t).extend u = s.extend (t ++ u) := by
  simp [Hs.extend]

@[simp]
theorem Hs.extend_nil : Hs.extend s [] = s := by
  simp [Hs.extend]

/-- What is not consumed is subtracted on both sides, so later bytes leave the hashed part alone. -/
@[simp]
theorem Hs.covered_extend : (Hs.extend s t).covered = s.covered := by
  unfold Hs.covered Hs.extend
  simp only [List.length_append]
  rw [List.take_append_of_le_length (by omega)]
  congr 1
  omega

theorem Hs.hash_extend : (Hs.extend s t).hash = s.hash.extend t := by
  simp [Hs.hash, Hs.extend, ← Hs.covered_extend (s := s) (t := t)]

theorem Hs.consume_extend (h : 4 + n ≤ s.stream.length) :
    (Hs.extend s t).consume n k = (s.consume n k).map (Hs.extend · t) := by
  unfold Hs.consume
  rw [if_neg (by simp; omega), if_neg (by omega)]
  simp [Except.map, Hs.extend, List.drop_append_of_le_length h]

theorem handleCertificate_extend (h : 4 + body.length ≤ s.stream.length) :
    handleCertificate e mem (s.extend t) body =
      (handleCertificate e mem s body).map (Hs.extend · t) := by
  unfold handleCertificate
  cases (if mem then e.verify body else none) with
  | none => rfl
  | some leaf => exact Hs.consume_extend (s := { s with leaf := some leaf }) h

theorem handleCertificateVerify_extend (h : 4 + body.length ≤ s.stream.length) :
    handleCertificateVerify e mem (s.extend t) body =
      (handleCertificateVerify e mem s body).map (Hs.extend · t) := by
  unfold handleCertificateVerify
  cases certVerifyParse body with
  | none => rfl
  | some p =>
    have hlen : (s.extend t).transcript.length < (s.extend t).stream.length ↔
        s.transcript.length < s.stream.length := by
      simp [Hs.extend]
    have hleaf : (s.extend t).leaf = s.leaf := rfl
    simp only [hlen, hleaf, Hs.hash_extend, Hs.covered_extend, Hs.extend_hashed]
    split
    · rfl
    · split
      · rfl
      · split
        · exact Hs.consume_extend (s := { s.hash with leaf := none }) h
        · rfl

theorem handleFinished_extend (h : 4 + body.length ≤ s.stream.length) :
    handleFinished e (s.extend t) body = (handleFinished e s body).map (Hs.extend · t) := by
  unfold handleFinished
  have hlen : (s.extend t).transcript.length < (s.extend t).stream.length ↔
      s.transcript.length < s.stream.length := by
    simp [Hs.extend]
  simp only [hlen, Hs.hash_extend, Hs.covered_extend, Hs.extend_hashed]
  split
  · rfl
  · split
    · rfl
    · split
      · exact Hs.consume_extend (s := s.hash) h
      · rfl

theorem handleMessage_extend (h : 4 + body.length ≤ s.stream.length) :
    handleMessage e mem (s.extend t) type body =
      (handleMessage e mem s type body).map (Hs.extend · t) := by
  unfold handleMessage
  rw [Hs.extend_stage]
  match s.stage with
  | 0 => simp only [Hs.extend_hashed, Hs.consume_extend h]; split <;> rfl
  | 1 => simp only [Hs.extend_hashed, handleCertificate_extend h]; split <;> rfl
  | 2 => simp only [Hs.extend_hashed, handleCertificateVerify_extend h]; split <;> rfl
  | 3 => simp only [Hs.extend_hashed, handleFinished_extend h]; split <;> rfl
  | _ + 4 => rfl

/-- The type of the message that stage `n` waits for. -/
def flightTypes : List UInt8 := [8, 11, 15, 20]

theorem handleCertificate_ok (h : handleCertificate e mem s body = .ok s') :
    ∃ leaf, e.verify body = some leaf ∧
      s' = { s with leaf := some leaf, stream := s.stream.drop (4 + body.length), stage := 2 } := by
  unfold handleCertificate at h
  split at h
  · cases h
  · rename_i leaf hv
    cases mem with
    | true => exact ⟨leaf, hv, Hs.consume_ok h⟩
    | false => cases hv

theorem handleCertificateVerify_ok (h : handleCertificateVerify e mem s body = .ok s') :
    ∃ alg sig, certVerifyParse body = some (alg, sig) ∧
      certVerifyOk e.crypto s.leaf alg sig (certVerifyContent (e.crypto.sha256 s.covered)) ∧
      s' = { s.hash with
        leaf := none, stream := s.stream.drop (4 + body.length), stage := 3 } := by
  unfold handleCertificateVerify at h
  split at h
  · cases h
  · rename_i alg sig hp
    split at h
    · cases h
    · split at h
      · cases h
      · split at h
        · rename_i hok
          exact ⟨alg, sig, hp, hok, Hs.consume_ok h⟩
        · cases h

theorem handleFinished_ok (h : handleFinished e s body = .ok s') :
    body.length = 32 ∧ e.crypto.hmacSha256 e.finKey (e.crypto.sha256 s.covered) = body ∧
      s' = { s.hash with stream := s.stream.drop (4 + body.length), stage := 4 } := by
  unfold handleFinished at h
  split at h
  · cases h
  · rename_i hlen
    split at h
    · cases h
    · split at h
      · rename_i hmac
        exact ⟨not_not.mp hlen, hmac, Hs.consume_ok h⟩
      · cases h

theorem of_type {x : Except (List Bytes) Hs} {type t : UInt8}
    (h : (if type ≠ t then .error hashed else x) = .ok s') : type = t ∧ x = .ok s' := by
  split at h
  · cases h
  · rename_i ht
    exact ⟨not_not.mp ht, h⟩

/-- A message that is taken has its stage's type; it leaves the stream and nothing else moves in the
transcript. -/
theorem handleMessage_ok (h : handleMessage e mem s type body = .ok s') :
    flightTypes[s.stage]? = some type ∧ s'.stage = s.stage + 1 ∧
      s'.stream = s.stream.drop (4 + body.length) ∧ s'.transcript = s.transcript := by
  unfold handleMessage at h
  match hstage : s.stage with
  | 0 =>
    simp only [hstage] at h
    obtain ⟨rfl, hc⟩ := of_type h
    rw [Hs.consume_ok hc]
    simp [flightTypes]
  | 1 =>
    simp only [hstage] at h
    obtain ⟨rfl, hc⟩ := of_type h
    obtain ⟨leaf, -, rfl⟩ := handleCertificate_ok hc
    simp [flightTypes]
  | 2 =>
    simp only [hstage] at h
    obtain ⟨rfl, hc⟩ := of_type h
    obtain ⟨alg, sig, -, -, rfl⟩ := handleCertificateVerify_ok hc
    simp [flightTypes, Hs.hash]
  | 3 =>
    simp only [hstage] at h
    obtain ⟨rfl, hc⟩ := of_type h
    obtain ⟨-, -, rfl⟩ := handleFinished_ok hc
    simp [flightTypes, Hs.hash]
  | n + 4 =>
    simp only [hstage] at h
    cases h

theorem handleMessage_shrinks (hn : hsNextMessage s.stream = .message type body)
    (h : handleMessage e mem s type body = .ok s') : s'.stream.length < s.stream.length := by
  obtain ⟨hlen, rest, hrest⟩ := hsNextMessage_eq_message hn
  rw [(handleMessage_ok h).2.2.1, hrest]
  simp

/-- Any number of passes from the length of the stream on gives the same. -/
theorem messageLoop_fuel (hn : s.stream.length ≤ n) (hm : s.stream.length ≤ m) :
    messageLoop e mem n s = messageLoop e mem m s := by
  induction n generalizing m s with
  | zero =>
    have hnil : s.stream = [] := List.length_eq_zero_iff.mp (by omega)
    cases m with
    | zero => rfl
    | succ m => simp [messageLoop, hnil, hsNextMessage]
  | succ n ih =>
    cases m with
    | zero =>
      have hnil : s.stream = [] := List.length_eq_zero_iff.mp (by omega)
      simp [messageLoop, hnil, hsNextMessage]
    | succ m =>
      cases hnext : hsNextMessage s.stream with
      | bad => simp only [messageLoop, hnext]
      | more => simp only [messageLoop, hnext]
      | message type body =>
        simp only [messageLoop, hnext]
        cases hh : handleMessage e mem s type body with
        | error hashed => rfl
        | ok s' =>
          have hlt := handleMessage_shrinks hnext hh
          simp only [ih (s := s') (m := m) (by omega) (by omega)]

theorem drain_bad (h : hsNextMessage s.stream = .bad) : drain e mem s = .error s.hashed := by
  rw [drain, messageLoop_fuel (le_refl _) (Nat.le_succ _), messageLoop, h]

theorem drain_more (h : hsNextMessage s.stream = .more) : drain e mem s = .ok s := by
  rw [drain, messageLoop_fuel (le_refl _) (Nat.le_succ _), messageLoop, h]

theorem drain_error (h : hsNextMessage s.stream = .message type body)
    (hh : handleMessage e mem s type body = .error hashed) : drain e mem s = .error hashed := by
  rw [drain, messageLoop_fuel (le_refl _) (Nat.le_succ _), messageLoop, h]
  simp only [hh]

theorem drain_message (h : hsNextMessage s.stream = .message type body)
    (hh : handleMessage e mem s type body = .ok s') :
    drain e mem s = if s'.stage = 4 then .ok s' else drain e mem s' := by
  rw [drain, messageLoop_fuel (le_refl _) (Nat.le_succ _), messageLoop, h]
  simp only [hh]
  rw [messageLoop_fuel (m := s'.stream.length) (handleMessage_shrinks h hh).le (le_refl _), drain]

/-- Messages taken before more bytes arrive are those taken after. -/
theorem drain_extend (hs : s.stage ≠ 4) :
    drain e mem (s.extend t) =
      match drain e mem s with
      | .error hashed => .error hashed
      | .ok s' => if s'.stage = 4 then .ok (s'.extend t) else drain e mem (s'.extend t) := by
  induction hk : s.stream.length using Nat.strong_induction_on generalizing s with
  | _ k ih =>
    subst hk
    cases hnext : hsNextMessage s.stream with
    | bad =>
      rw [drain_bad hnext, drain_bad (hsNextMessage_bad_append hnext)]
      rfl
    | more =>
      rw [drain_more hnext]
      simp only [hs, if_false]
    | message type body =>
      obtain ⟨hlen, rest, hrest⟩ := hsNextMessage_eq_message hnext
      have hext := hsNextMessage_message_append (t := t) hnext
      have hle : 4 + body.length ≤ s.stream.length := by simp [hrest]
      have hhe : handleMessage e mem (s.extend t) type body =
          (handleMessage e mem s type body).map (Hs.extend · t) := handleMessage_extend hle
      cases hh : handleMessage e mem s type body with
      | error hashed =>
        rw [hh] at hhe
        rw [drain_error hnext hh, drain_error hext hhe]
      | ok s' =>
        rw [hh] at hhe
        rw [drain_message hnext hh, drain_message hext hhe, Hs.extend_stage]
        by_cases h4 : s'.stage = 4
        · simp [h4]
        · rw [if_neg h4, if_neg h4]
          exact ih _ (handleMessage_shrinks hnext hh) h4 rfl

theorem growCap_isSome (hc : 0 < cap) (h : need ≤ 2 ^ n * cap) (hn : need ≤ 2 ^ 63) :
    (growCap (n + 1) cap need).isSome := by
  induction n generalizing cap with
  | zero =>
    rw [growCap, if_neg (by omega)]
    rfl
  | succ n ih =>
    rw [growCap]
    by_cases hlt : cap < need
    · rw [if_pos hlt, if_neg (by omega)]
      exact ih (by omega) (by rw [← Nat.mul_assoc, ← pow_succ]; exact h)
    · rw [if_neg hlt]
      rfl

theorem reserve_isSome (hf : 0 < first) (h : len + extra ≤ 2 ^ 63) :
    (reserve true first cap len extra).isSome := by
  unfold reserve
  rw [if_neg (by omega)]
  by_cases hc : len + extra ≤ cap
  · rw [if_pos hc]
    rfl
  · rw [if_neg hc]
    have hpos : 0 < if cap = 0 then first else cap := by split <;> omega
    have hle : len + extra ≤ 2 ^ 63 * if cap = 0 then first else cap :=
      h.trans (Nat.le_mul_of_pos_right _ hpos)
    obtain ⟨cap', hcap⟩ := Option.isSome_iff_exists.mp (growCap_isSome hpos hle h)
    rw [hcap]
    rfl

/-- A record is appended to both buffers as long as their lengths do not overflow. -/
theorem hsAppendRecord_some (ht : s.transcript.length + pt.length ≤ 2 ^ 63)
    (hs : s.stream.length ≤ s.transcript.length) :
    ∃ caps', hsAppendRecord true caps s pt = some (caps', s.extend pt) := by
  obtain ⟨tcap, htc⟩ : ∃ tcap, lebtlsTranscriptAppend true caps.transcript s.transcript pt =
      some (tcap, s.transcript ++ pt) := by
    unfold lebtlsTranscriptAppend
    by_cases hpt : pt = []
    · simp [hpt]
    · have hr : (reserve true 4096 caps.transcript s.transcript.length pt.length).isSome :=
        reserve_isSome (by omega) ht
      obtain ⟨tcap, h⟩ := Option.isSome_iff_exists.mp hr
      simp [hpt, h]
  have hr : (reserve true 256 caps.stream s.stream.length pt.length).isSome :=
    reserve_isSome (by omega) (by omega)
  obtain ⟨scap, hsc⟩ := Option.isSome_iff_exists.mp hr
  exact ⟨⟨tcap, scap⟩, by simp [hsAppendRecord, htc, hsBytes, hsc, Hs.extend]⟩

/-- The plaintexts that the events of a run deliver, none when an event ends the loop: a signal, an
error, four timeouts in a row, a foreign record, or a failed allocation. -/
def plaintexts : Nat → List Event → Option (List Plaintext)
  | _, [] => some []
  | idle, ev :: evs =>
    match ev with
    | .signal => none
    | .recvError => none
    | .timeout => if 3 < idle + 1 then none else plaintexts (idle + 1) evs
    | .record type opened mem =>
      if type = 0x14 then plaintexts 0 evs
      else if type ≠ 23 then none
      else
        match opened with
        | none => none
        | some (inner, pt) =>
          if inner ≠ 22 ∨ !mem then none else (plaintexts 0 evs).map (pt :: ·)

def received (pts : List Plaintext) : Bytes := (pts.map Plaintext.bytes).flatten

/-- Whether stage 4 was reached, and what was hashed on the way; the loop's end is hashed next. -/
def Outcome.result : Outcome → Bool × List Bytes
  | .failed hashed => (false, hashed)
  | .waiting s => (false, s.hashed)
  | .reached s => (true, s.hashed ++ [s.covered])

def verdict : Except (List Bytes) Hs → Bool × List Bytes
  | .error hashed => (false, hashed)
  | .ok s => if s.stage = 4 then (true, s.hashed ++ [s.covered]) else (false, s.hashed)

theorem drain_ok (h : drain e mem s = .ok s') (hs : s.stage ≠ 4) :
    s'.transcript = s.transcript ∧ s'.stream.length ≤ s.stream.length ∧
      (s'.stage = 4 ∨ drain e mem s' = .ok s') := by
  induction hk : s.stream.length using Nat.strong_induction_on generalizing s with
  | _ k ih =>
    subst hk
    cases hnext : hsNextMessage s.stream with
    | bad =>
      rw [drain_bad hnext] at h
      cases h
    | more =>
      rw [drain_more hnext] at h
      cases h
      exact ⟨rfl, le_refl _, .inr (drain_more hnext)⟩
    | message type body =>
      cases hh : handleMessage e mem s type body with
      | error hashed =>
        rw [drain_error hnext hh] at h
        cases h
      | ok s₁ =>
        rw [drain_message hnext hh] at h
        have hlt := handleMessage_shrinks hnext hh
        have htr := (handleMessage_ok hh).2.2.2
        by_cases h4 : s₁.stage = 4
        · rw [if_pos h4] at h
          cases h
          exact ⟨htr, hlt.le, .inl h4⟩
        · rw [if_neg h4] at h
          obtain ⟨ht, hl, hd⟩ := ih _ hlt h h4 rfl
          exact ⟨ht.trans htr, hl.trans hlt.le, hd⟩

/-- The loop over any records gives what one pass over all their bytes gives. -/
theorem recvLoop_result (hp : plaintexts idle evs = some pts) (hr : rounds + evs.length ≤ 128)
    (hs : s.stage ≠ 4) (hd : drain e true s = .ok s)
    (hb : s.transcript.length + 16640 * evs.length ≤ 2 ^ 63)
    (hle : s.stream.length ≤ s.transcript.length) :
    (recvLoop e rounds idle caps s evs).result = verdict (drain e true (s.extend (received pts))) := by
  induction evs generalizing rounds idle caps s pts with
  | nil =>
    cases hp
    simp [recvLoop, received, Outcome.result, hd, verdict, hs]
  | cons ev evs ih =>
    simp only [List.length_cons] at hr hb
    unfold recvLoop
    rw [if_neg (by omega)]
    unfold plaintexts at hp
    cases ev with
    | signal => cases hp
    | recvError => cases hp
    | timeout =>
      by_cases hi : 3 < idle + 1
      · simp [hi] at hp
      · simp only [if_neg hi] at hp ⊢
        exact ih hp (by omega) hs hd (by omega) hle
    | record type opened mem =>
      by_cases h14 : type = 0x14
      · simp only [if_pos h14] at hp ⊢
        exact ih hp (by omega) hs hd (by omega) hle
      · by_cases h23 : type ≠ 23
        · simp [h14, h23] at hp
        · simp only [if_neg h14, if_neg h23] at hp ⊢
          match opened with
          | none => cases hp
          | some (inner, pt) =>
            by_cases hin : inner ≠ 22 ∨ !mem
            · simp only [if_pos hin] at hp
              cases hp
            · simp only [if_neg hin] at hp
              obtain ⟨pts, htail, rfl⟩ := Option.map_eq_some_iff.mp hp
              simp only [not_or, not_not, Bool.not_eq_true, Bool.not_eq_false'] at hin
              obtain ⟨rfl, rfl⟩ := hin
              have hsize := pt.size
              obtain ⟨caps', happ⟩ : ∃ caps', hsAppendRecord true caps s pt.bytes =
                  some (caps', s.extend pt.bytes) := hsAppendRecord_some (by omega) hle
              have hsplit : s.extend (received (pt :: pts)) =
                  (s.extend pt.bytes).extend (received pts) := by
                rw [Hs.extend_extend]
                rfl
              rw [hsplit, drain_extend (s := s.extend pt.bytes) hs]
              simp only [ne_eq, not_true_eq_false, if_false, happ]
              cases hdr : drain e true (s.extend pt.bytes) with
              | error hashed => rfl
              | ok s' =>
                obtain ⟨htr, hlen, hfix⟩ := drain_ok hdr hs
                by_cases h4 : s'.stage = 4
                · simp [h4, Outcome.result, verdict]
                · simp only [if_neg h4]
                  have htl : s'.transcript.length = s.transcript.length + pt.bytes.length := by
                    rw [htr]
                    simp [Hs.extend]
                  simp only [Hs.extend_stream, List.length_append] at hlen
                  exact ih htail (by omega) h4 (hfix.resolve_left h4) (by omega) (by omega)

/-- A CertificateVerify body that carries a signature valid under the leaf's key. -/
inductive ValidCertVerify (c : Crypto) (covered : Bytes) : PublicKey → Bytes → Prop where
  | rsaPss : beNat [a, b] = sig.length →
      c.rsaVerifyPss n e (certVerifyContent (c.sha256 covered)) sig 32 →
      ValidCertVerify c covered (.rsa n e) ([0x08, 0x04, a, b] ++ sig)
  | ecdsa256 : beNat [a, b] = sig.length → lebtlsEcdsaSigParse sig 32 = some (r, s) →
      c.ecdsaVerify qx qy (c.sha256 (certVerifyContent (c.sha256 covered))) r s →
      ValidCertVerify c covered (.ec 256 qx qy) ([0x04, 0x03, a, b] ++ sig)
  | ecdsa384 : beNat [a, b] = sig.length → lebtlsEcdsaSigParse sig 48 = some (r, s) →
      c.ecdsa384Verify qx qy (c.sha384 (certVerifyContent (c.sha256 covered))) r s →
      ValidCertVerify c covered (.ec 384 qx qy) ([0x05, 0x03, a, b] ++ sig)

/-- The stream a server must send after `hello`, and what may follow it. -/
structure ServerFlight (e : Session) (hello stream : Bytes) : Prop where
  messages : ∃ ee cert cv fin rest leaf,
    stream = message 8 ee ++ message 11 cert ++ message 15 cv ++ message 20 fin ++ rest ∧
    ee.length ≤ 16384 ∧ cert.length ≤ 16384 ∧ cv.length ≤ 16384 ∧ fin.length = 32 ∧
    e.verify cert = some leaf ∧
    ValidCertVerify e.crypto (hello ++ message 8 ee ++ message 11 cert) leaf cv ∧
    fin = e.crypto.hmacSha256 e.finKey
      (e.crypto.sha256 (hello ++ message 8 ee ++ message 11 cert ++ message 15 cv))

theorem beNat_two (a b : UInt8) : beNat [a, b] = 256 * a.toNat + b.toNat := by
  simp [beNat]

theorem pair_of_beNat {a b x y : UInt8} (h : beNat [a, b] = beNat [x, y]) : a = x ∧ b = y := by
  rw [beNat_two, beNat_two] at h
  have ha := a.toNat_lt
  have hb := b.toNat_lt
  have hx := x.toNat_lt
  have hy := y.toNat_lt
  exact ⟨UInt8.toNat_inj.mp (by omega), UInt8.toNat_inj.mp (by omega)⟩

theorem certVerifyParse_some (h : certVerifyParse body = some (alg, sig)) :
    ∃ a b c d, body = a :: b :: c :: d :: sig ∧ alg = beNat [a, b] ∧ beNat [c, d] = sig.length ∧
      (alg = 0x0804 ∨ alg = 0x0403 ∨ alg = 0x0503) := by
  obtain _ | ⟨a, _ | ⟨b, _ | ⟨c, _ | ⟨d, rest⟩⟩⟩⟩ := body
  · cases h
  · cases h
  · cases h
  · cases h
  · simp only [certVerifyParse] at h
    split at h
    · cases h
    · rename_i halg
      split at h
      · cases h
      · rename_i hlen
        cases h
        exact ⟨a, b, c, d, rfl, rfl, not_not.mp hlen, by omega⟩

/-- The checks of stage 2 are the validity of the signature. -/
theorem validCertVerify_iff :
    ValidCertVerify c covered leaf body ↔ ∃ alg sig, certVerifyParse body = some (alg, sig) ∧
      certVerifyOk c (some leaf) alg sig (certVerifyContent (c.sha256 covered)) := by
  constructor
  · intro h
    cases h with
    | @rsaPss a b n e sig hlen hv =>
      exact ⟨0x0804, sig, by simp [certVerifyParse, beNat_two, ← hlen],
        by simpa [certVerifyOk] using hv⟩
    | @ecdsa256 a b sig r s qx qy hlen hp hv =>
      exact ⟨0x0403, sig, by simp [certVerifyParse, beNat_two, ← hlen],
        by simpa [certVerifyOk, hp] using hv⟩
    | @ecdsa384 a b sig r s qx qy hlen hp hv =>
      exact ⟨0x0503, sig, by simp [certVerifyParse, beNat_two, ← hlen],
        by simpa [certVerifyOk, hp] using hv⟩
  · intro h
    obtain ⟨alg, sig, hparse, hok⟩ := h
    obtain ⟨a, b, x, y, rfl, halg, hlen, hcase⟩ := certVerifyParse_some hparse
    cases leaf with
    | rsa n e =>
      simp only [certVerifyOk, Bool.and_eq_true, decide_eq_true_eq] at hok
      obtain ⟨rfl, rfl⟩ := pair_of_beNat (x := 0x08) (y := 0x04) (halg.symm.trans hok.1)
      exact .rsaPss hlen hok.2
    | ec bits qx qy =>
      simp only [certVerifyOk] at hok
      split at hok
      · rename_i h256
        obtain ⟨halg', rfl⟩ := h256
        obtain ⟨rfl, rfl⟩ := pair_of_beNat (x := 0x04) (y := 0x03) (halg.symm.trans halg')
        cases hp : lebtlsEcdsaSigParse sig 32 with
        | none => simp [hp] at hok
        | some p => exact .ecdsa256 hlen hp (by simpa [hp] using hok)
      · split at hok
        · rename_i h384
          obtain ⟨halg', rfl⟩ := h384
          obtain ⟨rfl, rfl⟩ := pair_of_beNat (x := 0x05) (y := 0x03) (halg.symm.trans halg')
          cases hp : lebtlsEcdsaSigParse sig 48 with
          | none => simp [hp] at hok
          | some p => exact .ecdsa384 hlen hp (by simpa [hp] using hok)
        · cases hok

def Reaches (e : Session) (s : Hs) : Prop := ∃ s', drain e true s = .ok s' ∧ s'.stage = 4

theorem Hs.consume_of (h : 4 + n ≤ s.stream.length) :
    Hs.consume s n k = .ok { s with stream := s.stream.drop (4 + n), stage := k } := by
  rw [Hs.consume, if_neg (by omega)]

/-- One message further. -/
theorem reaches_iff (hs : s.stage ≠ 4) :
    Reaches e s ↔ ∃ type body rest s', s.stream = message type body ++ rest ∧
      body.length ≤ 16384 ∧ handleMessage e true s type body = .ok s' ∧
      (s'.stage = 4 ∨ Reaches e s') := by
  constructor
  · intro h
    obtain ⟨s₁, hd, h4⟩ := h
    cases hnext : hsNextMessage s.stream with
    | bad =>
      rw [drain_bad hnext] at hd
      cases hd
    | more =>
      rw [drain_more hnext] at hd
      cases hd
      exact absurd h4 hs
    | message type body =>
      obtain ⟨hlen, rest, hrest⟩ := hsNextMessage_eq_message hnext
      cases hh : handleMessage e true s type body with
      | error hashed =>
        rw [drain_error hnext hh] at hd
        cases hd
      | ok s' =>
        rw [drain_message hnext hh] at hd
        by_cases h4' : s'.stage = 4
        · exact ⟨type, body, rest, s', hrest, hlen, hh, .inl h4'⟩
        · rw [if_neg h4'] at hd
          exact ⟨type, body, rest, s', hrest, hlen, hh, .inr ⟨s₁, hd, h4⟩⟩
  · intro h
    obtain ⟨type, body, rest, s', hrest, hlen, hh, hor⟩ := h
    have hnext : hsNextMessage s.stream = .message type body := by
      rw [hrest]
      exact hsNextMessage_message hlen
    unfold Reaches
    rw [drain_message hnext hh]
    by_cases h4 : s'.stage = 4
    · rw [if_pos h4]
      exact ⟨s', rfl, h4⟩
    · rw [if_neg h4]
      exact hor.resolve_left h4

theorem drop_message {s : Hs} (h : s.stream = message type body ++ rest) :
    s.stream.drop (4 + body.length) = rest := by
  have hl : (message type body).length = 4 + body.length := length_message
  rw [h, ← hl, List.drop_left]

theorem length_le_of_message {s : Hs} (h : s.stream = message type body ++ rest) :
    4 + body.length ≤ s.stream.length := by
  simp [h]

theorem reaches_encryptedExtensions (hs : s.stage = 0) :
    Reaches e s ↔ ∃ ee rest, s.stream = message 8 ee ++ rest ∧ ee.length ≤ 16384 ∧
      Reaches e { s with stream := rest, stage := 1 } := by
  rw [reaches_iff (by omega)]
  constructor
  · intro h
    obtain ⟨type, ee, rest, s', hrest, hlen, hh, hor⟩ := h
    rw [handleMessage, hs] at hh
    obtain ⟨rfl, hc⟩ := of_type hh
    have hs' := Hs.consume_ok hc
    rw [drop_message hrest] at hs'
    subst hs'
    exact ⟨ee, rest, hrest, hlen, hor.resolve_left (by simp)⟩
  · intro h
    obtain ⟨ee, rest, hrest, hlen, hr⟩ := h
    refine ⟨8, ee, rest, _, hrest, hlen, ?_, .inr hr⟩
    rw [handleMessage, hs]
    simp [Hs.consume_of (length_le_of_message hrest), drop_message hrest]

theorem reaches_certificate (hs : s.stage = 1) :
    Reaches e s ↔ ∃ cert rest leaf, s.stream = message 11 cert ++ rest ∧ cert.length ≤ 16384 ∧
      e.verify cert = some leaf ∧
      Reaches e { s with stream := rest, stage := 2, leaf := some leaf } := by
  rw [reaches_iff (by omega)]
  constructor
  · intro h
    obtain ⟨type, cert, rest, s', hrest, hlen, hh, hor⟩ := h
    rw [handleMessage, hs] at hh
    obtain ⟨rfl, hc⟩ := of_type hh
    obtain ⟨leaf, hv, hs'⟩ := handleCertificate_ok hc
    rw [drop_message hrest] at hs'
    subst hs'
    exact ⟨cert, rest, leaf, hrest, hlen, hv, hor.resolve_left (by simp)⟩
  · intro h
    obtain ⟨cert, rest, leaf, hrest, hlen, hv, hr⟩ := h
    refine ⟨11, cert, rest, _, hrest, hlen, ?_, .inr hr⟩
    rw [handleMessage, hs]
    simp [handleCertificate, hv,
      Hs.consume_of (s := { s with leaf := some leaf }) (length_le_of_message hrest),
      drop_message hrest]

theorem reaches_certificateVerify (hs : s.stage = 2) (hl : s.leaf = some leaf)
    (hle : s.stream.length ≤ s.transcript.length) :
    Reaches e s ↔ ∃ cv rest, s.stream = message 15 cv ++ rest ∧ cv.length ≤ 16384 ∧
      ValidCertVerify e.crypto s.covered leaf cv ∧
      Reaches e { s.hash with stream := rest, stage := 3, leaf := none } := by
  rw [reaches_iff (by omega)]
  constructor
  · intro h
    obtain ⟨type, cv, rest, s', hrest, hlen, hh, hor⟩ := h
    rw [handleMessage, hs] at hh
    obtain ⟨rfl, hc⟩ := of_type hh
    obtain ⟨alg, sig, hp, hok, hs'⟩ := handleCertificateVerify_ok hc
    rw [drop_message hrest] at hs'
    subst hs'
    rw [hl] at hok
    exact ⟨cv, rest, hrest, hlen, validCertVerify_iff.mpr ⟨alg, sig, hp, hok⟩,
      hor.resolve_left (by simp)⟩
  · intro h
    obtain ⟨cv, rest, hrest, hlen, hv, hr⟩ := h
    obtain ⟨alg, sig, hp, hok⟩ := validCertVerify_iff.mp hv
    refine ⟨15, cv, rest, _, hrest, hlen, ?_, .inr hr⟩
    rw [handleMessage, hs]
    simp only [ne_eq, not_true_eq_false, if_false, handleCertificateVerify, hp, hl, hok, if_true,
      Bool.not_true, Bool.false_eq_true, if_neg (show ¬ s.transcript.length < s.stream.length by omega)]
    rw [Hs.consume_of (s := { s.hash with leaf := none }) (length_le_of_message hrest)]
    simp only [Hs.hash, drop_message hrest]

theorem reaches_finished (hs : s.stage = 3) (hle : s.stream.length ≤ s.transcript.length) :
    Reaches e s ↔ ∃ fin rest, s.stream = message 20 fin ++ rest ∧ fin.length = 32 ∧
      fin = e.crypto.hmacSha256 e.finKey (e.crypto.sha256 s.covered) := by
  rw [reaches_iff (by omega)]
  constructor
  · intro h
    obtain ⟨type, fin, rest, s', hrest, hlen, hh, hor⟩ := h
    rw [handleMessage, hs] at hh
    obtain ⟨rfl, hc⟩ := of_type hh
    obtain ⟨h32, hmac, -⟩ := handleFinished_ok hc
    exact ⟨fin, rest, hrest, h32, hmac.symm⟩
  · intro h
    obtain ⟨fin, rest, hrest, h32, hmac⟩ := h
    let s' : Hs := { s.hash with stream := s.stream.drop (4 + fin.length), stage := 4 }
    refine ⟨20, fin, rest, s', hrest, by omega, ?_, .inl rfl⟩
    rw [handleMessage, hs]
    simp only [ne_eq, not_true_eq_false, if_false, handleFinished, h32, ← hmac, if_true,
      if_neg (show ¬ s.transcript.length < s.stream.length by omega)]
    rw [← h32]
    exact Hs.consume_of (s := s.hash) (length_le_of_message hrest)

theorem verdict_iff : (verdict (drain e true s)).1 = true ↔ Reaches e s := by
  unfold Reaches
  cases drain e true s with
  | error hashed => simp [verdict]
  | ok s' =>
    by_cases h4 : s'.stage = 4
    · simp [verdict, h4]
    · simp [verdict, h4]

theorem Hs.covered_of {s : Hs} (pre : Bytes) (h : s.transcript = pre ++ s.stream) :
    s.covered = pre := by
  rw [Hs.covered, h, List.length_append, Nat.add_sub_cancel, List.take_left]

/-- The client's and the server's hello, as large as their records may be. -/
structure Hellos where
  clientHello : Bytes
  serverHello : Bytes
  clientSize : clientHello.length ≤ 16384
  serverSize : serverHello.length ≤ 16640

def Hellos.bytes (h : Hellos) : Bytes := h.clientHello ++ h.serverHello

theorem Hellos.length_le (h : Hellos) : h.bytes.length ≤ 2 ^ 16 := by
  have hc := h.clientSize
  have hs := h.serverSize
  rw [Hellos.bytes, List.length_append]
  omega

/-- One pass over the whole stream reaches stage 4 exactly on the flight a server must send. -/
theorem reaches_serverFlight :
    Reaches e ((Hs.extend { transcript := hello } stream)) ↔ ServerFlight e hello stream := by
  constructor
  · intro h
    obtain ⟨ee, r₁, h₁, hee, h⟩ := (reaches_encryptedExtensions rfl).mp h
    obtain ⟨cert, r₂, leaf, h₂, hcert, hv, h⟩ := (reaches_certificate rfl).mp h
    simp only [Hs.extend, List.nil_append] at h₁ h₂ h
    subst h₁ h₂
    obtain ⟨cv, r₃, h₃, hcv, hvalid, h⟩ :=
      (reaches_certificateVerify rfl rfl (by simp; omega)).mp h
    dsimp only at h₃
    subst h₃
    rw [Hs.covered_of (hello ++ message 8 ee ++ message 11 cert) (by simp)] at hvalid
    obtain ⟨fin, rest, h₄, hfin, hmac⟩ := (reaches_finished rfl (by simp [Hs.hash]; omega)).mp h
    dsimp only at h₄
    subst h₄
    rw [Hs.covered_of (hello ++ message 8 ee ++ message 11 cert ++ message 15 cv)
      (by simp [Hs.hash])] at hmac
    exact ⟨ee, cert, cv, fin, rest, leaf, by simp, hee, hcert, hcv, hfin, hv, hvalid, hmac⟩
  · intro h
    obtain ⟨ee, cert, cv, fin, rest, leaf, rfl, hee, hcert, hcv, hfin, hv, hvalid, hmac⟩ := h
    apply (reaches_encryptedExtensions rfl).mpr
    refine ⟨ee, message 11 cert ++ (message 15 cv ++ (message 20 fin ++ rest)), by simp [Hs.extend],
      hee, (reaches_certificate rfl).mpr ?_⟩
    refine ⟨cert, _, leaf, rfl, hcert, hv, ?_⟩
    apply (reaches_certificateVerify rfl rfl (by simp [Hs.extend]; omega)).mpr
    refine ⟨cv, _, rfl, hcv, ?_, ?_⟩
    · rw [Hs.covered_of (hello ++ message 8 ee ++ message 11 cert) (by simp [Hs.extend])]
      exact hvalid
    · apply (reaches_finished rfl (by simp [Hs.extend, Hs.hash]; omega)).mpr
      refine ⟨fin, rest, rfl, hfin, ?_⟩
      rw [Hs.covered_of (hello ++ message 8 ee ++ message 11 cert ++ message 15 cv)
        (by simp [Hs.extend, Hs.hash])]
      exact hmac

/-- The transcript is `hello` with the messages of the stages passed, then what is not consumed. -/
def Consumed (hello : Bytes) (s : Hs) : Prop :=
  ∃ msgs : List (UInt8 × Bytes), msgs.map Prod.fst = flightTypes.take s.stage ∧
    s.transcript = hello ++ (msgs.map fun m => message m.1 m.2).flatten ++ s.stream

theorem Consumed.extend (h : Consumed hello s) : Consumed hello (s.extend t) := by
  obtain ⟨msgs, ht, hs⟩ := h
  exact ⟨msgs, ht, by simp [Hs.extend, hs]⟩

theorem Consumed.handleMessage (h : Consumed hello s) (hn : hsNextMessage s.stream = .message type body)
    (hh : handleMessage e mem s type body = .ok s') : Consumed hello s' := by
  obtain ⟨msgs, ht, htr⟩ := h
  obtain ⟨-, rest, hrest⟩ := hsNextMessage_eq_message hn
  obtain ⟨htype, hstage, hstream, htranscript⟩ := handleMessage_ok hh
  rw [drop_message hrest] at hstream
  refine ⟨msgs ++ [(type, body)], ?_, ?_⟩
  · rw [hstage, List.take_add_one, htype, List.map_append, ht]
    rfl
  · rw [htranscript, htr, hrest, hstream]
    simp

theorem Consumed.drain (h : Consumed hello s) (hd : drain e mem s = .ok s') :
    Consumed hello s' := by
  induction hk : s.stream.length using Nat.strong_induction_on generalizing s with
  | _ k ih =>
    subst hk
    cases hnext : hsNextMessage s.stream with
    | bad =>
      rw [drain_bad hnext] at hd
      cases hd
    | more =>
      rw [drain_more hnext] at hd
      cases hd
      exact h
    | message type body =>
      cases hh : Tls.handleMessage e mem s type body with
      | error hashed =>
        rw [drain_error hnext hh] at hd
        cases hd
      | ok s₁ =>
        rw [drain_message hnext hh] at hd
        have h₁ := h.handleMessage hnext hh
        by_cases h4 : s₁.stage = 4
        · rw [if_pos h4] at hd
          cases hd
          exact h₁
        · rw [if_neg h4] at hd
          exact ih _ (handleMessage_shrinks hnext hh) h₁ hd rfl

def Outcome.state? : Outcome → Option Hs
  | .failed _ => none
  | .waiting s => some s
  | .reached s => some s

def Outcome.isWaiting : Outcome → Bool
  | .waiting _ => true
  | _ => false

theorem hsAppendRecord_eq (h : hsAppendRecord mem caps s pt = some (caps', s')) :
    s' = s.extend pt := by
  simp only [hsAppendRecord, lebtlsTranscriptAppend, hsBytes] at h
  by_cases hpt : pt = []
  · simp only [hpt, if_true, Option.map_map, Option.map_eq_some_iff, Function.comp_apply,
      Prod.mk.injEq] at h
    obtain ⟨scap, -, -, rfl⟩ := h
    simp [hpt, Hs.extend]
  · rw [if_neg hpt] at h
    cases hr : reserve mem 4096 caps.transcript s.transcript.length pt.length with
    | none => simp [hr] at h
    | some tcap =>
      simp only [hr, Option.map_some, Option.map_map, Option.map_eq_some_iff, Function.comp_apply,
        Prod.mk.injEq] at h
      obtain ⟨scap, -, -, rfl⟩ := h
      rfl

/-- After any rounds the transcript holds every byte received and the stream those not consumed. -/
theorem recvLoop_state (hp : plaintexts idle evs = some pts) (hs : s.stage ≠ 4)
    (hc : Consumed hello s) (h : (recvLoop e rounds idle caps s evs).state? = some s') :
    Consumed hello s' ∧ ∃ pts₁, pts₁ <+: pts ∧ s'.transcript = s.transcript ++ received pts₁ ∧
      ((recvLoop e rounds idle caps s evs).isWaiting → pts₁ = pts) := by
  induction evs generalizing rounds idle caps s pts with
  | nil =>
    cases hp
    cases h
    exact ⟨hc, [], List.prefix_rfl, by simp [received], fun _ => rfl⟩
  | cons ev evs ih =>
    unfold recvLoop at h ⊢
    by_cases hr : 128 ≤ rounds
    · simp [hr, Outcome.state?] at h
    · rw [if_neg hr] at h ⊢
      unfold plaintexts at hp
      cases ev with
      | signal => cases hp
      | recvError => cases hp
      | timeout =>
        by_cases hi : 3 < idle + 1
        · simp [hi] at hp
        · simp only [if_neg hi] at hp h ⊢
          exact ih hp hs hc h
      | record type opened mem =>
        by_cases h14 : type = 0x14
        · simp only [if_pos h14] at hp h ⊢
          exact ih hp hs hc h
        · by_cases h23 : type ≠ 23
          · simp [h14, h23] at hp
          · simp only [if_neg h14, if_neg h23] at hp h ⊢
            match opened with
            | none => cases hp
            | some (inner, pt) =>
              by_cases hin : inner ≠ 22 ∨ !mem
              · simp only [if_pos hin] at hp
                cases hp
              · simp only [if_neg hin] at hp
                obtain ⟨tail, htail, rfl⟩ := Option.map_eq_some_iff.mp hp
                simp only [if_neg (not_or.mp hin).1] at h ⊢
                cases happ : hsAppendRecord mem caps s pt.bytes with
                | none => simp [happ, Outcome.state?] at h
                | some p =>
                  obtain ⟨caps', s₁⟩ := p
                  obtain rfl := hsAppendRecord_eq happ
                  simp only [happ] at h ⊢
                  cases hdr : drain e mem (s.extend pt.bytes) with
                  | error hashed => simp [hdr, Outcome.state?] at h
                  | ok s₂ =>
                    have htr : s₂.transcript = s.transcript ++ pt.bytes := (drain_ok hdr hs).1
                    have hc₂ : Consumed hello s₂ := hc.extend.drain hdr
                    simp only [hdr] at h ⊢
                    by_cases h4 : s₂.stage = 4
                    · simp only [if_pos h4, Outcome.state?, Option.some.injEq] at h ⊢
                      subst h
                      exact ⟨hc₂, [pt], by simp, by simp [received, htr],
                        by simp [Outcome.isWaiting]⟩
                    · simp only [if_neg h4] at h ⊢
                      obtain ⟨hc', pts₁, hpre, heq, hw⟩ := ih htail h4 hc₂ h
                      refine ⟨hc', pt :: pts₁, by simpa using hpre, ?_, fun hwait => ?_⟩
                      · rw [heq, htr]
                        simp [received]
                      · rw [hw hwait]

/-- The receive loop of `lebtls_handshake` after the hellos. -/
def serverFlight (e : Session) (hello : Hellos) (caps : Caps) (evs : List Event) : Outcome :=
  recvLoop e 0 0 caps { transcript := hello.bytes } evs

theorem serverFlight_result (hp : plaintexts 0 evs = some pts) (hl : evs.length ≤ 128) :
    (serverFlight e hello caps evs).result =
      verdict (drain e true (Hs.extend { transcript := hello.bytes } (received pts))) := by
  have hh := hello.length_le
  exact recvLoop_result hp (by omega) (by simp) rfl (by dsimp only; omega) (by simp)

/-- Records are only cuts in one stream: the loop reaches stage 4 exactly on the four messages in
their order, hashes the same byte strings for every fragmentation, and keeps what it received. -/
theorem flight_independent_of_records (hp : plaintexts 0 evs = some pts) (hl : evs.length ≤ 128) :
    ((serverFlight e hello caps evs).result.1 = true ↔
      ServerFlight e hello.bytes (received pts)) ∧
    (∀ caps' evs' pts', plaintexts 0 evs' = some pts' → evs'.length ≤ 128 →
      received pts' = received pts →
      (serverFlight e hello caps' evs').result = (serverFlight e hello caps evs).result) ∧
    ∀ s, (serverFlight e hello caps evs).state? = some s →
      Consumed hello.bytes s ∧ ∃ pts₁, pts₁ <+: pts ∧
        s.transcript = hello.bytes ++ received pts₁ ∧
        ((serverFlight e hello caps evs).isWaiting → pts₁ = pts) := by
  refine ⟨?_, ?_, ?_⟩
  · rw [serverFlight_result hp hl, verdict_iff, reaches_serverFlight]
  · intro caps' evs' pts' hp' hl' heq
    rw [serverFlight_result hp hl, serverFlight_result hp' hl', heq]
  · intro s hs
    exact recvLoop_state hp (by simp) ⟨[], rfl, by simp⟩ hs

/-- Primitives that accept every signature. -/
def accepting : Crypto where
  sha256 _ := []
  sha384 _ := []
  hmacSha256 _ _ := List.replicate 32 0
  rsaVerifyPkcs1 _ _ _ _ := true
  rsaVerifyPss _ _ _ _ _ := true
  ecdsaVerify _ _ _ _ _ := true
  ecdsa384Verify _ _ _ _ _ := true

def exampleSession : Session := ⟨accepting, 0, some (namesakeBundle 69), [97], []⟩

def exampleHello : Hellos := ⟨[1], [2], by decide, by decide⟩

def exampleFlight : Bytes :=
  message 8 [0, 0] ++ message 11 forgedMessage ++ message 15 [8, 4, 0, 0] ++
    message 20 (List.replicate 32 0)

/-- The flight cut after `n` bytes, with a record of another type and a timeout between. -/
def exampleRecords (n : Nat) (h : ((exampleFlight.take n).length ≤ 16640) ∧
    (exampleFlight.drop n).length ≤ 16640) : List Event :=
  [.record 23 (some (22, ⟨exampleFlight.take n, h.1⟩)) true, .record 0x14 none false, .timeout,
    .record 23 (some (22, ⟨exampleFlight.drop n, h.2⟩)) true]

theorem exampleFlight_reached :
    ServerFlight exampleSession exampleHello.bytes exampleFlight ∧
      (serverFlight exampleSession exampleHello ⟨0, 0⟩
          (exampleRecords 150 (by decide +kernel))).result =
        (serverFlight exampleSession exampleHello ⟨0, 0⟩
          (exampleRecords 5 (by decide +kernel))).result := by
  have hp : plaintexts 0 (exampleRecords 5 (by decide +kernel)) =
      some [⟨exampleFlight.take 5, by decide +kernel⟩, ⟨exampleFlight.drop 5, by decide +kernel⟩] :=
    rfl
  have hl : (exampleRecords 5 (by decide +kernel)).length ≤ 128 := by decide
  obtain ⟨hflight, hsame, -⟩ :=
    @flight_independent_of_records _ _ exampleSession exampleHello ⟨0, 0⟩ hp hl
  constructor
  · exact hflight.mp (by decide +kernel)
  · exact hsame ⟨0, 0⟩ _
      [⟨exampleFlight.take 150, by decide +kernel⟩, ⟨exampleFlight.drop 150, by decide +kernel⟩]
      rfl (by decide) (by simp [received])

end Lebirun.Tls
