import Mathlib

namespace Lebirun.Tls
set_option autoImplicit true

abbrev Bytes := List UInt8

/-- A big-endian number. -/
def beNat (l : Bytes) : Nat := l.foldl (fun v b => 256 * v + b.toNat) 0

structure Tlv where
  tag : UInt8
  val : Bytes
  hdr : Nat
  deriving DecidableEq

def derTlv : Bytes → Option Tlv
  | tag :: l0 :: rest =>
    if l0 &&& 0x80 ≠ 0 then
      if (l0 &&& 0x7F).toNat = 0 ∨ 4 < (l0 &&& 0x7F).toNat then none
      else if rest.length < (l0 &&& 0x7F).toNat then none
      else if rest.length - (l0 &&& 0x7F).toNat < beNat (rest.take (l0 &&& 0x7F).toNat) then none
      else some ⟨tag, (rest.drop (l0 &&& 0x7F).toNat).take (beNat (rest.take (l0 &&& 0x7F).toNat)),
        2 + (l0 &&& 0x7F).toNat⟩
    else if rest.length < l0.toNat then none
    else some ⟨tag, rest.take l0.toNat, 2⟩
  | _ => none

def Tlv.total (t : Tlv) : Nat := t.hdr + t.val.length

def derChildAt (seq : Bytes) : Nat → Option Tlv
  | 0 => derTlv seq
  | i + 1 => (derTlv seq).bind fun t => derChildAt (seq.drop t.total) i

/-- The elements a `while (off < len)` loop over `der_tlv` meets before the end or an error. -/
def derItems : Nat → Bytes → List Tlv
  | 0, _ => []
  | n + 1, seq =>
    match derTlv seq with
    | none => []
    | some t => t :: derItems n (seq.drop t.total)

def items (seq : Bytes) : List Tlv := derItems seq.length seq

def oidRsaEnc : Bytes := [0x2A, 0x86, 0x48, 0x86, 0xF7, 0x0D, 0x01, 0x01, 0x01]
def oidRsassaPss : Bytes := [0x2A, 0x86, 0x48, 0x86, 0xF7, 0x0D, 0x01, 0x01, 0x0A]
def oidSha256Rsa : Bytes := [0x2A, 0x86, 0x48, 0x86, 0xF7, 0x0D, 0x01, 0x01, 0x0B]
def oidEcPubkey : Bytes := [0x2A, 0x86, 0x48, 0xCE, 0x3D, 0x02, 0x01]
def oidSecp256r1 : Bytes := [0x2A, 0x86, 0x48, 0xCE, 0x3D, 0x03, 0x01, 0x07]
def oidSecp384r1 : Bytes := [0x2B, 0x81, 0x04, 0x00, 0x22]
def oidEcdsaSha256 : Bytes := [0x2A, 0x86, 0x48, 0xCE, 0x3D, 0x04, 0x03, 0x02]
def oidEcdsaSha384 : Bytes := [0x2A, 0x86, 0x48, 0xCE, 0x3D, 0x04, 0x03, 0x03]
def oidSha256 : Bytes := [0x60, 0x86, 0x48, 0x01, 0x65, 0x03, 0x04, 0x02, 0x01]
def oidMgf1 : Bytes := [0x2A, 0x86, 0x48, 0x86, 0xF7, 0x0D, 0x01, 0x01, 0x08]
def oidSan : Bytes := [0x55, 0x1D, 0x11]
def oidCn : Bytes := [0x55, 0x04, 0x03]

/-- The child at `i` when its tag is `tag`. -/
def derChild (seq : Bytes) (i : Nat) (tag : UInt8) : Option Bytes :=
  (derChildAt seq i).bind fun t => if t.tag = tag then some t.val else none

inductive SigKind where
  | rsaSha256 | rsaPss | ecdsaSha256 | ecdsaSha384
  deriving DecidableEq

def parseSigAlg (seq : Bytes) : Option SigKind := do
  let oid ← derChild seq 0 0x06
  if oid = oidSha256Rsa then some .rsaSha256
  else if oid = oidRsassaPss then some .rsaPss
  else if oid = oidEcdsaSha256 then some .ecdsaSha256
  else if oid = oidEcdsaSha384 then some .ecdsaSha384
  else none

/-- `key_type` 1 with modulus and exponent, or `key_type` 2 with `ec_bits` and the point. -/
inductive PublicKey where
  | rsa (n e : Bytes)
  | ec (bits : Nat) (qx qy : Bytes)
  deriving DecidableEq

def parseRsaKey (spki : Bytes) : Option PublicKey := do
  let alg ← derChild spki 0 0x30
  let oid ← derChild alg 0 0x06
  if oid ≠ oidRsaEnc then none
  else
    let bits ← derChild spki 1 0x03
    if bits.head? ≠ some 0 then none
    else
      let seq ← derTlv bits.tail
      if seq.tag ≠ 0x30 then none
      else
        let n ← derChild seq.val 0 0x02
        let e ← derChild seq.val 1 0x02
        some (.rsa n e)

def parseEcKey (spki : Bytes) : Option PublicKey := do
  let alg ← derChild spki 0 0x30
  let oid ← derChild alg 0 0x06
  if oid ≠ oidEcPubkey then none
  else
    let curve ← derChild alg 1 0x06
    let coord ← if curve = oidSecp256r1 then some 32 else if curve = oidSecp384r1 then some 48 else none
    let bits ← derChild spki 1 0x03
    if bits.length ≠ 2 * coord + 2 ∨ bits.take 2 ≠ [0x00, 0x04] then none
    else some (.ec (if coord = 32 then 256 else 384) ((bits.drop 2).take coord)
      ((bits.drop (2 + coord)).take coord))

def digit (b : UInt8) : UInt64 := b.toUInt64 - 48

/-- The five two-digit fields after the year. -/
def timeFields : Nat → Bytes → Option (List UInt64)
  | 0, _ => some []
  | n + 1, a :: b :: rest =>
    if a < 48 ∨ 57 < a ∨ b < 48 ∨ 57 < b then none
    else (timeFields n rest).map (fun l => (digit a * 10 + digit b) :: l)
  | _ + 1, _ => none

def timeNum (y mo d h mi s : UInt64) : UInt64 :=
  ((((y * 100 + mo) * 100 + d) * 100 + h) * 100 + mi) * 100 + s

def timeOf (y : UInt64) (rest : Bytes) : UInt64 :=
  match timeFields 5 rest with
  | some [mo, d, h, mi, s] =>
    if mo < 1 ∨ 12 < mo ∨ d < 1 ∨ 31 < d ∨ 23 < h ∨ 59 < mi ∨ 59 < s then 0
    else timeNum y mo d h mi s
  | _ => 0

def parseTimeVal (tag : UInt8) (val : Bytes) : UInt64 :=
  match tag, val with
  | 0x17, a :: b :: rest =>
    if val.length < 13 then 0
    else
      let y := digit a * 10 + digit b
      timeOf (y + if 50 ≤ y then 1900 else 2000) rest
  | 0x18, a :: b :: c :: d :: rest =>
    if val.length < 15 then 0
    else timeOf (digit a * 1000 + digit b * 100 + digit c * 10 + digit d) rest
  | _, _ => 0

/-- The common name among the children of one attribute, from child `nth` on. -/
def cnOfAttribute : List Tlv → Option Bytes
  | [] => none
  | [_] => none
  | t :: v :: rest =>
    if t.tag = 0x06 ∧ t.val = oidCn then
      if v.tag = 0x13 ∨ v.tag = 0x0C ∨ v.tag = 0x16 then some v.val else cnOfAttribute rest
    else cnOfAttribute (v :: rest)

def cnOfSets : List Tlv → Option Bytes
  | [] => none
  | t :: rest =>
    if t.tag ≠ 0x31 then none
    else
      match (derChild t.val 0 0x30).bind (fun sv => cnOfAttribute (items sv)) with
      | some cn => some cn
      | none => cnOfSets rest

def findCn (name : Bytes) : Option Bytes := cnOfSets (items name)

/-- The subject alternative name an extension holds, when it is one. -/
def sanOf (ext : Tlv) : Option Bytes := do
  if ext.tag ≠ 0x30 then none
  else
    let oid ← derChild ext.val 0 0x06
    if oid ≠ oidSan then none
    else
      let v ← (derChildAt ext.val 2).or (derChildAt ext.val 1)
      if v.tag ≠ 0x04 then none else some v.val

/-- The last subject alternative name found in the fields `i`, …, `i + n - 1` of the certificate. -/
def findSan (tbs : Bytes) : Nat → Nat → Option Bytes → Option Bytes
  | 0, _, san => san
  | n + 1, i, san =>
    match derChildAt tbs i with
    | none => san
    | some t =>
      if t.tag ≠ 0xA0 then findSan tbs n (i + 1) san
      else
        match derChild t.val 0 0x30 with
        | none => findSan tbs n (i + 1) san
        | some exts =>
          findSan tbs n (i + 1) ((items exts).foldl (fun san e => (sanOf e).or san) san)

structure CertInfo where
  /-- with its header, as it is signed -/
  tbs : Bytes
  sigAlg : Bytes
  sig : Bytes
  issuer : Bytes
  subject : Bytes
  key : PublicKey
  san : Option Bytes
  cn : Option Bytes
  notBefore : UInt64
  notAfter : UInt64

def parseTime (v : Bytes) (i : Nat) : Option UInt64 := do
  let t ← derChildAt v i
  if parseTimeVal t.tag t.val = 0 then none else some (parseTimeVal t.tag t.val)

def parseCert (der : Bytes) : Option CertInfo := do
  let outer ← derTlv der
  if outer.tag ≠ 0x30 then none
  else
    let tbs ← derChildAt outer.val 0
    if tbs.tag ≠ 0x30 then none
    else
      let sigalg ← derChild outer.val 1 0x30
      let sigbits ← derChild outer.val 2 0x03
      if sigbits.head? ≠ some 0 then none
      else
        let first ← derChildAt tbs.val 0
        let shift := if first.tag = 0xA0 then 1 else 0
        let issuer ← derChild tbs.val (2 + shift) 0x30
        let validity ← derChild tbs.val (3 + shift) 0x30
        let notBefore ← parseTime validity 0
        let notAfter ← parseTime validity 1
        let subject ← derChild tbs.val (4 + shift) 0x30
        let spki ← derChild tbs.val (5 + shift) 0x30
        let key ← (parseRsaKey spki).or (parseEcKey spki)
        some
          { tbs := outer.val.take tbs.total
            sigAlg := sigalg
            sig := sigbits.tail
            issuer := issuer
            subject := subject
            key := key
            san := findSan tbs.val 4 (6 + shift) none
            cn := findCn subject
            notBefore := notBefore
            notAfter := notAfter }

/-- The primitives of the kernel's crypto library and of the RSA and curve arithmetic. -/
structure Crypto where
  sha256 : Bytes → Bytes
  sha384 : Bytes → Bytes
  hmacSha256 : Bytes → Bytes → Bytes
  rsaVerifyPkcs1 : (n e msg sig : Bytes) → Bool
  rsaVerifyPss : (n e msg sig : Bytes) → Nat → Bool
  ecdsaVerify : (qx qy digest r s : Bytes) → Bool
  ecdsa384Verify : (qx qy digest r s : Bytes) → Bool

/-- A coordinate padded on the left, or without its sign byte. -/
def padCoord (coord : Nat) (v : Bytes) : Bytes :=
  if coord < v.length then v.drop (v.length - coord) else List.replicate (coord - v.length) 0 ++ v

def lebtlsEcdsaSigParse (sig : Bytes) (coord : Nat) : Option (Bytes × Bytes) := do
  let seq ← derTlv sig
  if seq.tag ≠ 0x30 then none
  else
    let rv ← derChild seq.val 0 0x02
    let sv ← derChild seq.val 1 0x02
    if rv.length = 0 ∨ coord + 1 < rv.length ∨ sv.length = 0 ∨ coord + 1 < sv.length then none
    else some (padCoord coord rv, padCoord coord sv)

/-- Whether the algorithm at child 0 of a PSS parameter is `oid`. -/
def pssOid (v oid : Bytes) : Bool := derChild v 0 0x06 = some oid

def pssHashOk (params : Bytes) : Bool :=
  match derChild params 0 0x30 with
  | some hv => pssOid hv oidSha256
  | none => true

def pssMgfOk (params : Bytes) : Bool :=
  match derChild params 1 0x30 with
  | some mv =>
    pssOid mv oidMgf1 &&
      match derChild mv 1 0x30 with
      | some mo => pssOid mo oidSha256
      | none => true
  | none => true

def pssSaltLen (params : Bytes) : Option Nat :=
  match derChild params 2 0x02 with
  | some pv =>
    if 1 ≤ pv.length ∧ pv.length ≤ 4 then if 64 < beNat pv then none else some (beNat pv)
    else some 20
  | none => some 20

/-- The salt length the signature algorithm asks for. -/
def pssParams (sigAlg : Bytes) : Option Nat :=
  match derChild sigAlg 1 0x30 with
  | some params => if pssHashOk params && pssMgfOk params then pssSaltLen params else none
  | none => some 20

def sigVerify (c : Crypto) (cert : CertInfo) (issuer : PublicKey) : Bool :=
  match parseSigAlg cert.sigAlg, issuer with
  | some .rsaSha256, .rsa n e => c.rsaVerifyPkcs1 n e cert.tbs cert.sig
  | some .rsaPss, .rsa n e =>
    match pssParams cert.sigAlg with
    | some saltLen => c.rsaVerifyPss n e cert.tbs cert.sig saltLen
    | none => false
  | some .ecdsaSha256, .ec 256 qx qy =>
    match lebtlsEcdsaSigParse cert.sig 32 with
    | some (r, s) => c.ecdsaVerify qx qy (c.sha256 cert.tbs) r s
    | none => false
  | some .ecdsaSha384, .ec 384 qx qy =>
    match lebtlsEcdsaSigParse cert.sig 48 with
    | some (r, s) => c.ecdsa384Verify qx qy (c.sha384 cert.tbs) r s
    | none => false
  | _, _ => false

end Lebirun.Tls
