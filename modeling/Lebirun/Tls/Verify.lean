import Mathlib
import Lebirun.Tls.Certificate

namespace Lebirun.Tls
set_option autoImplicit true

/-- `epoch_to_parts` put together as `time_now_num` does. -/
def timeNowNum (t : UInt64) : UInt64 :=
  let days := t / 86400 + 719468
  let rem := t % 86400
  let era := days / 146097
  let doe := days - era * 146097
  let yoe := (doe - doe / 1460 + doe / 36524 - doe / 146096) / 365
  let y2 := yoe + era * 400
  let doy := doe - (365 * yoe + yoe / 4 - yoe / 100)
  let mp := (5 * doy + 2) / 153
  let d := doy - (153 * mp + 2) / 5 + 1
  let mo := mp + if mp < 10 then 3 else 0 - 9
  let y := y2 + if mo ≤ 2 then 1 else 0
  timeNum y mo d (rem / 3600) (rem % 3600 / 60) (rem % 60)

def hostMatch (host pat : Bytes) : Bool :=
  if pat = [] then false
  else if pat = host then true
  else if 2 < pat.length ∧ pat.take 2 = [0x2A, 0x2E] then
    match host.findIdx? (· = 0x2E) with
    | none => false
    | some 0 => false
    | some dot => host.drop (dot + 1) = pat.drop 2
  else false

def certHostOk (host : Bytes) (cert : CertInfo) : Bool :=
  match cert.san with
  | some (b :: san) =>
    match derTlv (b :: san) with
    | none => false
    | some seq =>
      seq.tag = 0x30 && (items seq.val).any fun g => g.tag = 0x82 && hostMatch host g.val
  | _ =>
    match cert.cn with
    | some (b :: cn) => hostMatch host (b :: cn)
    | _ => false

/-- The certificates of the message after its first four bytes; what the function counts and then
walks again. A length field is three bytes and its extensions' two, so the count never passes
`cert_msg_len / 4 + 1`. -/
def certEntries : Nat → Bytes → Option (List Bytes)
  | _, [] => some []
  | 0, _ => none
  | n + 1, l =>
    if l.length < 3 then none
    else if beNat (l.take 3) = 0 ∨ l.length < 3 + beNat (l.take 3) + 2 then none
    else if l.length < 3 + beNat (l.take 3) + 2 + beNat ((l.drop (3 + beNat (l.take 3))).take 2) then
      none
    else
      (certEntries n (l.drop
        (3 + beNat (l.take 3) + 2 + beNat ((l.drop (3 + beNat (l.take 3))).take 2)))).map
        (((l.drop 3).take (beNat (l.take 3))) :: ·)

def parseCerts (msg : Bytes) : Option (List CertInfo) :=
  if msg.length < 4 then none
  else
    match certEntries msg.length (msg.drop 4) with
    | none => none
    | some [] => none
    | some (e :: es) => (e :: es).mapM parseCert

def b64Val (c : UInt8) : Option UInt64 :=
  if 65 ≤ c ∧ c ≤ 90 then some (c.toUInt64 - 65)
  else if 97 ≤ c ∧ c ≤ 122 then some (c.toUInt64 - 97 + 26)
  else if 48 ≤ c ∧ c ≤ 57 then some (c.toUInt64 - 48 + 52)
  else if c = 43 then some 62
  else if c = 47 then some 63
  else none

def pemBegin : Bytes :=
  [45, 45, 45, 45, 45, 66, 69, 71, 73, 78, 32, 67, 69, 82, 84, 73, 70, 73, 67, 65, 84, 69, 45, 45,
    45, 45, 45]

/-- What follows the next `-----BEGIN CERTIFICATE-----`. -/
def afterBegin : Bytes → Option Bytes
  | [] => none
  | c :: l => if pemBegin.isPrefixOf (c :: l) then some ((c :: l).drop 27) else afterBegin l

/-- The digits `pem_next` counts to size its buffer. -/
def countDigits : Bytes → Nat
  | [] => 0
  | c :: l =>
    if c = 45 then 0
    else if (b64Val c).isSome ∨ c = 61 then 1 + countDigits l
    else if c = 10 ∨ c = 13 ∨ c = 32 ∨ c = 9 then countDigits l
    else 0

/-- The decoding loop, with what it leaves unread. -/
def decode (v bits : UInt64) : Bytes → Bytes × Bytes
  | [] => ([], [])
  | c :: l =>
    if c = 45 ∨ c = 61 then ([], c :: l)
    else
      match b64Val c with
      | none => decode v bits l
      | some b =>
        if 8 ≤ bits + 6 then
          ((((v <<< 6) ||| b) >>> (bits + 6 - 8)).toUInt8 ::
            (decode ((v <<< 6) ||| b) (bits + 6 - 8) l).1,
            (decode ((v <<< 6) ||| b) (bits + 6 - 8) l).2)
        else decode ((v <<< 6) ||| b) (bits + 6) l

def pemNext (bundle : Bytes) : Option (Bytes × Bytes) :=
  match afterBegin bundle with
  | none => none
  | some l =>
    if countDigits (l.dropWhile (· ≠ 10)) / 4 * 3 = 0 then none
    else some (decode 0 0 (l.dropWhile (· ≠ 10)))

/-- The certificates that repeated calls of `pem_next` deliver. -/
def pemAll : Nat → Bytes → List Bytes
  | 0, _ => []
  | n + 1, bundle =>
    match pemNext bundle with
    | none => []
    | some (der, rest) => der :: pemAll n rest

/-- The bundle's certificates that parse, in order. -/
def anchors (bundle : Bytes) : List CertInfo := (pemAll bundle.length bundle).filterMap parseCert

def anchorKeyFor (bundle name : Bytes) : Option PublicKey :=
  ((anchors bundle).find? (fun a => a.subject = name)).map CertInfo.key

def CertInfo.inValidity (now : UInt64) (cert : CertInfo) : Bool :=
  !(now < cert.notBefore || cert.notAfter < now)

/-- The loop over adjacent certificates. -/
def chainOk (c : Crypto) : List CertInfo → Bool
  | a :: b :: rest => a.issuer = b.subject && sigVerify c a b.key && chainOk c (b :: rest)
  | _ => true

def CertInfo.selfIssued (cert : CertInfo) : Bool := cert.subject = cert.issuer

/-- One turn of the backward search for an anchor. -/
def anchorStep (c : Crypto) (bundle : Bytes) (cert : CertInfo) : Bool :=
  if cert.selfIssued then (anchorKeyFor bundle cert.subject).isSome
  else
    match anchorKeyFor bundle cert.issuer with
    | some key => sigVerify c cert key
    | none => false

/-- The search from the last certificate of the message to the first. -/
def searchAnchor (c : Crypto) (bundle : Bytes) : List CertInfo → Bool
  | [] => false
  | cert :: before => if anchorStep c bundle cert then true else searchAnchor c bundle before

/-- The key handed out; `kmalloc` gives nothing for an empty modulus or exponent. -/
def leafOut : PublicKey → Option PublicKey
  | .rsa n e => if n = [] ∨ e = [] then none else some (.rsa n e)
  | .ec bits qx qy => some (.ec bits qx qy)

/-- Everything checked before the bundle is loaded. -/
def presented (c : Crypto) (now : UInt64) (host : Bytes) (certs : List CertInfo) : Bool :=
  certs.all (CertInfo.inValidity now) && certs.head?.any (certHostOk host) && chainOk c certs

def lebtlsVerifyServerCerts (c : Crypto) (rtc : UInt64) (bundle : Option Bytes) (host msg : Bytes) :
    Option PublicKey :=
  match parseCerts msg, bundle with
  | some certs, some bundle =>
    if presented c (timeNowNum rtc) host certs then
      if searchAnchor c bundle certs.reverse then certs.head?.bind (fun leaf => leafOut leaf.key)
      else none
    else none
  | _, _ => none

/-- A certificate that the key of a bundle certificate certifies. -/
def Anchored (c : Crypto) (roots : List CertInfo) (cert : CertInfo) : Prop :=
  ∃ r ∈ roots, r.subject = cert.issuer ∧ sigVerify c cert r.key ∨
    r.subject = cert.subject ∧ r.key = cert.key

instance : Decidable (Anchored c roots cert) :=
  inferInstanceAs (Decidable (∃ r ∈ roots, _ ∨ _))

/-- A path of signatures from the first certificate to an anchored one. -/
structure Path (c : Crypto) (roots certs : List CertInfo) (k : Nat) : Prop where
  linked : ∀ i < k, ∃ a b, certs[i]? = some a ∧ certs[i + 1]? = some b ∧
    a.issuer = b.subject ∧ sigVerify c a b.key
  anchored : ∃ cert, certs[k]? = some cert ∧ Anchored c roots cert

/-- What an accepted message promises about the key it yields. -/
structure Authentic (c : Crypto) (now : UInt64) (roots : List CertInfo) (host : Bytes)
    (certs : List CertInfo) (key : PublicKey) : Prop where
  path : ∃ k, Path c roots certs k
  valid : ∀ cert ∈ certs, cert.notBefore ≤ now ∧ now ≤ cert.notAfter
  host : ∃ leaf, certs.head? = some leaf ∧ certHostOk host leaf
  leaf : certs.head?.map CertInfo.key = some key

def Sound (c : Crypto) (rtc : UInt64) (bundle : Option Bytes) (host msg : Bytes) : Prop :=
  ∀ key, lebtlsVerifyServerCerts c rtc bundle host msg = some key →
    ∃ certs b, parseCerts msg = some certs ∧ bundle = some b ∧
      Authentic c (timeNowNum rtc) (anchors b) host certs key

/-- The function compares names only where it finds a self-issued certificate's name in the bundle:
a message that has one, and passes every other check, must contain an anchored certificate. -/
def KeyTied (c : Crypto) (rtc : UInt64) (bundle : Option Bytes) (host msg : Bytes) : Prop :=
  ∀ certs b, parseCerts msg = some certs → bundle = some b →
    presented c (timeNowNum rtc) host certs →
    (certs.head?.bind fun leaf => leafOut leaf.key).isSome →
    (∃ cert ∈ certs, cert.selfIssued ∧ ∃ r ∈ anchors b, r.subject = cert.subject) →
    ∃ cert ∈ certs, Anchored c (anchors b) cert

theorem searchAnchor_iff :
    searchAnchor c bundle certs = true ↔ ∃ cert ∈ certs, anchorStep c bundle cert := by
  induction certs with
  | nil => simp [searchAnchor]
  | cons cert before ih =>
    simp only [searchAnchor, List.exists_mem_cons_iff, ← ih]
    cases anchorStep c bundle cert <;> simp

theorem anchorKeyFor_some (h : anchorKeyFor bundle name = some key) :
    ∃ r ∈ anchors bundle, r.subject = name ∧ r.key = key := by
  obtain ⟨r, hr, hk⟩ := Option.map_eq_some_iff.mp h
  exact ⟨r, List.mem_of_find?_eq_some hr, by simpa using List.find?_some hr, hk⟩

theorem anchorKeyFor_isSome :
    (anchorKeyFor bundle name).isSome ↔ ∃ r ∈ anchors bundle, r.subject = name := by
  simp [anchorKeyFor]

/-- The search stops at a certificate of a bundle's key or at a self-issued one of a bundle's name. -/
theorem anchorStep_cases (h : anchorStep c bundle cert = true) :
    Anchored c (anchors bundle) cert ∨
      cert.selfIssued ∧ ∃ r ∈ anchors bundle, r.subject = cert.subject := by
  unfold anchorStep at h
  by_cases hs : cert.selfIssued
  · rw [if_pos hs] at h
    exact .inr ⟨hs, anchorKeyFor_isSome.mp h⟩
  · rw [if_neg hs] at h
    cases hk : anchorKeyFor bundle cert.issuer with
    | none => simp [hk] at h
    | some key =>
      rw [hk] at h
      obtain ⟨r, hr, hname, rfl⟩ := anchorKeyFor_some hk
      exact .inl ⟨r, hr, .inl ⟨hname, h⟩⟩

theorem anchorStep_selfIssued (hs : cert.selfIssued)
    (hr : ∃ r ∈ anchors bundle, r.subject = cert.subject) : anchorStep c bundle cert = true := by
  rw [anchorStep, if_pos hs]
  exact anchorKeyFor_isSome.mpr hr

theorem chainOk_linked (h : chainOk c certs = true) :
    ∀ i a b, certs[i]? = some a → certs[i + 1]? = some b →
      a.issuer = b.subject ∧ sigVerify c a b.key := by
  induction certs with
  | nil => simp
  | cons cert rest ih =>
    cases rest with
    | nil => simp
    | cons next rest =>
      simp only [chainOk, Bool.and_eq_true, decide_eq_true_eq] at h
      intro i a b ha hb
      cases i with
      | zero =>
        simp only [List.getElem?_cons_zero, zero_add, List.getElem?_cons_succ,
          Option.some.injEq] at ha hb
        subst ha hb
        exact h.1
      | succ i => exact ih h.2 i a b ha hb

theorem Path.of_mem (hc : chainOk c certs = true) (hm : cert ∈ certs)
    (ha : Anchored c roots cert) : ∃ k, Path c roots certs k := by
  obtain ⟨k, hk⟩ := List.mem_iff_getElem?.mp hm
  have hlt : k < certs.length := (List.getElem?_eq_some_iff.mp hk).1
  apply Exists.intro k
  constructor
  · intro i hi
    have h₀ : i < certs.length := by omega
    have h₁ : i + 1 < certs.length := by omega
    have ha : certs[i]? = some certs[i] := List.getElem?_eq_getElem h₀
    have hb : certs[i + 1]? = some certs[i + 1] := List.getElem?_eq_getElem h₁
    exact ⟨_, _, ha, hb, chainOk_linked hc i _ _ ha hb⟩
  · exact ⟨cert, hk, ha⟩

theorem leafOut_some (h : leafOut k = some key) : key = k := by
  cases k with
  | rsa n e =>
    simp only [leafOut, Option.ite_none_left_eq_some, Option.some.injEq] at h
    exact h.2.symm
  | ec bits qx qy =>
    simp only [leafOut, Option.some.injEq] at h
    exact h.symm

/-- What acceptance says, check by check. -/
theorem verify_some (h : lebtlsVerifyServerCerts c rtc bundle host msg = some key) :
    ∃ certs b, parseCerts msg = some certs ∧ bundle = some b ∧
      presented c (timeNowNum rtc) host certs ∧ searchAnchor c b certs.reverse ∧
      (certs.head?.bind fun leaf => leafOut leaf.key) = some key := by
  unfold lebtlsVerifyServerCerts at h
  cases hp : parseCerts msg with
  | none => simp [hp] at h
  | some certs =>
    cases bundle with
    | none => simp [hp] at h
    | some b =>
      simp only [hp, Option.ite_none_right_eq_some] at h
      exact ⟨certs, b, rfl, rfl, h⟩

theorem verify_eq (hp : parseCerts msg = some certs)
    (hc : presented c (timeNowNum rtc) host certs) (hs : searchAnchor c b certs.reverse) :
    lebtlsVerifyServerCerts c rtc (some b) host msg =
      certs.head?.bind fun leaf => leafOut leaf.key := by
  simp only [lebtlsVerifyServerCerts, hp, hc, hs, if_true]

theorem presented_iff :
    presented c now host certs = true ↔
      (∀ cert ∈ certs, cert.notBefore ≤ now ∧ now ≤ cert.notAfter) ∧
        (∃ leaf, certs.head? = some leaf ∧ certHostOk host leaf) ∧ chainOk c certs := by
  simp [presented, CertInfo.inValidity, and_assoc, Option.any_eq_true]

/-- Primitives under which no signature is valid. -/
def refusing : Crypto where
  sha256 _ := []
  sha384 _ := []
  hmacSha256 _ _ := []
  rsaVerifyPkcs1 _ _ _ _ := false
  rsaVerifyPss _ _ _ _ _ := false
  ecdsaVerify _ _ _ _ _ := false
  ecdsa384Verify _ _ _ _ _ := false

/-- A Certificate message with one certificate: subject and issuer `CN=a`, an RSA key with modulus 7
and an empty signature. -/
def forgedMessage : Bytes :=
  [0, 0, 0, 105, 0, 0, 100, 48, 98, 48, 91, 2, 1, 1, 5, 0, 48, 12, 49, 10, 48, 8, 6, 3, 85, 4, 3,
   19, 1, 97, 48, 30, 23, 13, 55, 48, 48, 49, 48, 49, 48, 48, 48, 48, 48, 48, 90, 23, 13, 52, 57,
   49, 50, 51, 49, 50, 51, 53, 57, 53, 57, 90, 48, 12, 49, 10, 48, 8, 6, 3, 85, 4, 3, 19, 1, 97,
   48, 24, 48, 11, 6, 9, 42, 134, 72, 134, 247, 13, 1, 1, 1, 3, 9, 0, 48, 6, 2, 1, 7, 2, 1, 3, 48,
   0, 3, 1, 0, 0, 0]

/-- A bundle with one certificate of the same name; `c` is the base64 digit with the low bits of its
modulus. -/
def namesakeBundle (c : UInt8) : Bytes :=
  pemBegin ++ [10,
   77, 71, 73, 119, 87, 119, 73, 66, 65, 81, 85, 65, 77, 65, 119, 120, 67, 106, 65, 73, 66, 103,
   78, 86, 66, 65, 77, 84, 65, 87, 69, 119, 72, 104, 99, 78, 78, 122, 65, 119, 77, 84, 65, 120,
   77, 68, 65, 119, 77, 68, 65, 119, 87, 104, 99, 78, 78, 68, 107, 120, 77, 106, 77, 120, 77, 106,
   77, 49, 79, 84, 85, 53, 87, 106, 65, 77, 77, 81, 111, 119, 67, 65, 89, 68, 86, 81, 81, 68, 69,
   119, 70, 104, 77, 66, 103, 119, 67, 119, 89, 74, 75, 111, 90, 73, 104, 118, 99, 78, 65, 81, 69,
   66, 65, 119, 107, 65, 77, 65, 89, 67, 65, 81, c, 67, 65, 81, 77, 119, 65, 65, 77, 66, 65, 65,
   61, 61, 10]

theorem forged_unanchored :
    (parseCerts forgedMessage).all (fun certs => certs.all fun cert =>
      !decide (Anchored refusing (anchors (namesakeBundle 69)) cert)) = true := by
  decide +kernel

end Lebirun.Tls
