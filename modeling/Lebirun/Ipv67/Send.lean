import Lebirun.Ipv67.Tables

namespace Lebirun.Ipv67
set_option autoImplicit true

/-- `sizeof(ipv67_route_adv_entry_t)`, `sizeof(ipv67_asn_adv_entry_t)`, `sizeof(ipv67_auth_payload_t)`
and `sizeof(ipv67_punch_payload_t)`. -/
def routeAdvSize : Nat := 122
def asnAdvSize : Nat := 243
def authPayloadSize : Nat := 112
def punchPayloadSize : Nat := 93

/-- The room for a payload in the buffers packets are built and checked in. -/
def payloadRoom : Nat := 512

section Keys

variable {K : Type} (c : Crypto K) [DecidableEq K]

/-- Two keys in the order of `memcmp`. -/
def Crypto.ordered (a b : K) : K × K := if c.memLe a b then (a, b) else (b, a)

/-- `ipv67_derive_identity_secret`, the zero key where it derives none. -/
def Ctx.deriveIdentitySecret (s : Ctx K) (publicKey : K) : K :=
  match s.identity with
  | none => c.zero
  | some (identityKey, identityPublic) =>
    if !c.present publicKey then c.zero
    else
      let shared := c.x25519 identityKey publicKey
      if !c.present shared then c.zero
      else
        let keys := c.ordered identityPublic publicKey
        c.sha256 [shared, keys.1, keys.2]

/-- `ipv67_derive_session_key` -/
def Ctx.deriveSessionKey (s : Ctx K) (p : Peer K) : Peer K :=
  match s.identity with
  | none => p
  | some (_, identityPublic) =>
    if !c.present p.publicKey || p.localChallenge = 0 || p.remoteChallenge = 0 then p
    else
      let secret := s.deriveIdentitySecret c p.publicKey
      if !c.present secret then p
      else
        let keys := c.ordered identityPublic p.publicKey
        let sessionSecret := match s.authKey with
          | some key => c.hmac key (.secret secret)
          | none => c.sha256 [secret]
        { p with
          sessionKey := c.hmac sessionSecret (.session keys.1 keys.2
            (min p.localChallenge p.remoteChallenge) (max p.localChallenge p.remoteChallenge) secret)
          sessionEstablished := true
          authenticated := true }

/-- `ipv67_signing_key_for_peer` -/
def Ctx.signingKey (s : Ctx K) : Option (Peer K) → K
  | some p => if p.sessionEstablished then p.sessionKey else s.authKey.getD c.bootstrapKey
  | none => s.authKey.getD c.bootstrapKey

def PacketType.isAuth : PacketType → Bool
  | .authHello | .authReply | .authDone => true
  | _ => false

/-- `ipv67_is_bootstrap_type` and `ipv67_type_allows_unauthenticated`. -/
def PacketType.isBootstrap : PacketType → Bool
  | .hello | .peerReq | .peerAck | .authHello | .authReply | .authDone => true
  | _ => false

/-- `ipv67_type_known` -/
def PacketType.isKnown : PacketType → Bool
  | .other _ => false
  | _ => true

/-- The MAC of a packet: over the header with the signature zeroed, and the payload. -/
def Crypto.mac (key : K) (hdr : Header K) (payload : Payload K) : K :=
  c.hmac key (.packet { hdr with signature := c.zero } payload)

/-- `ipv67_sign_header_key`, `none` for a payload that is too long. -/
def Crypto.signHeaderKey (hdr : Header K) (payload : Payload K) (key : K) : Option (Header K) :=
  if hdr.payloadLen > payloadRoom then none
  else some { hdr with signature := c.mac key hdr payload }

/-- `ipv67_verify_header_key` -/
def Crypto.verifyHeaderKey (hdr : Header K) (payload : Payload K) (key : K) : Bool :=
  hdr.payloadLen ≤ payloadRoom && c.mac key hdr payload = hdr.signature

/-- `ipv67_verify_header` -/
def Ctx.verifyHeader (s : Ctx K) (hdr : Header K) (payload : Payload K) (p : Option (Peer K)) : Bool :=
  hdr.type.isBootstrap && c.verifyHeaderKey hdr payload c.bootstrapKey ||
    (match p with
      | some p => p.sessionEstablished && (!s.authRequired || p.authenticated) &&
          c.verifyHeaderKey hdr payload p.sessionKey
      | none => false) ||
    (match s.authKey with
      | some key => c.verifyHeaderKey hdr payload key
      | none => false)

/-- `ipv67_header_has_peer_auth` -/
def Crypto.headerHasPeerAuth (hdr : Header K) (payload : Payload K) : Option (Peer K) → Bool
  | some p => p.inSession && c.verifyHeaderKey hdr payload p.sessionKey
  | none => false

end Keys

section Sending

variable {K : Type} (c : Crypto K)

/-- A random number. -/
def Ctx.draw (s : Ctx K) (e : Env) : Nat × Ctx K := (e.rng s.draws, { s with draws := s.draws + 1 })

/-- `ipv67_prepare_header`: the sequence number, and a nonce and an identifier drawn at random. -/
def Ctx.prepareHeader (s : Ctx K) (e : Env) (hdr : Header K) : Header K × Ctx K :=
  let sequence := (s.nextSequence + 1) % 2 ^ 64
  let (nonce, s) := s.draw e
  let (packetId, s) := s.draw e
  ({ hdr with sequence, nonce, packetId }, { s with nextSequence := sequence })

/-- The header of a packet of the node's own. -/
def Ctx.newHeader (s : Ctx K) (type : PacketType) (payloadLen : Nat) (dst : Addr) : Header K :=
  let self := s.self.getD .empty
  { magic := ipv67Magic, type, payloadLen, hopLimit := defaultHops, sequence := 0, nonce := 0
    packetId := 0, signature := c.zero, src := addrFormat self
    dst := addrFormat (if dst.zone1 = [] then self else dst) }

/-- Giving a datagram to the network. -/
def Ctx.sendTo (s : Ctx K) (ep : Endpoint) (hdr : Header K) (payload : Payload K) : Ctx K :=
  { s with sent := (ep, hdr, payload) :: s.sent }

/-- Preparing, signing and sending a packet. -/
def Ctx.sendSigned (s : Ctx K) (e : Env) (ep : Endpoint) (hdr : Header K) (payload : Payload K)
    (key : K) : Ctx K :=
  let (hdr, s) := s.prepareHeader e hdr
  match c.signHeaderKey hdr payload key with
  | some hdr => s.sendTo ep hdr payload
  | none => s

variable [DecidableEq K]

/-- The `proof_data` of the AUTH messages. -/
def proofData (sender peer : K) (challenge response : Nat) (type : PacketType) : Msg K :=
  .proof sender peer challenge response type

/-- The challenge of `ipv67_make_auth_payload`: the peer's, or one drawn, twice if the first is 0. -/
def Ctx.challengeFor (s : Ctx K) (e : Env) (p : Peer K) : Nat × Ctx K :=
  if p.localChallenge ≠ 0 then (p.localChallenge, s)
  else if e.rng s.draws ≠ 0 then s.draw e
  else (s.draw e).2.draw e

/-- What `ipv67_make_auth_payload` writes for the challenge. -/
def Ctx.authPayload (s : Ctx K) (identityPublic : K) (p : Peer K) (challenge : Nat)
    (type : PacketType) : AuthPayload K :=
  let peerKey := if type = .authHello ∧ p.sessionEstablished = false then c.zero else p.publicKey
  let data := proofData identityPublic peerKey challenge p.remoteChallenge type
  let secret := s.deriveIdentitySecret c p.publicKey
  { publicKey := identityPublic
    challenge
    responseChallenge := p.remoteChallenge
    proof := c.hmac (s.authKey.getD c.bootstrapKey) data
    identityProof := if c.present p.publicKey && c.present secret then c.hmac secret data else c.zero }

/-- `ipv67_send_auth_to_peer` for the peer in slot `i`, with `ipv67_make_auth_payload`. -/
def Ctx.sendAuthToPeer (s : Ctx K) (e : Env) (i : Nat) (type : PacketType) : Ctx K :=
  match s.self, s.identity with
  | some _, some (_, identityPublic) =>
    let p := s.peerAt c i
    let (challenge, s) := s.challengeFor e p
    let auth := s.authPayload c identityPublic p challenge type
    let s := s.setPeer i { p with localChallenge := challenge, handshakeTicks := e.ticks }
    s.sendSigned c e p.endpoint (s.newHeader c type authPayloadSize p.addr) (.auth auth)
      c.bootstrapKey
  | _, _ => s

/-- `ipv67_find_valid_route`: the usable route with the least metric, the first of equals. -/
def Ctx.findValidRoute (s : Ctx K) (e : Env) (dst : Addr) : Option Nat :=
  (s.routes.zipIdx.foldl (fun (best : Option Nat × Nat) r =>
    if r.1.valid && addrEq r.1.dest dst && s.routeUsable c e r.1 && r.1.metric < best.2 then
      (some r.2, r.1.metric) else best) (none, maxHops + 1)).1

/-- `ipv67_peer_for_asn_claim` -/
def Ctx.peerForAsnClaim (s : Ctx K) (a : AsnClaim K) : Option Nat :=
  if !c.present a.sourceKey then none
  else s.peers.findIdx? fun p => p.active && p.inSession && c.present p.publicKey &&
    a.sourceKey = p.publicKey && p.addr.zone1 ≠ [] && a.has p.addr

/-- The score of a claim in `ipv67_route_from_asn`. -/
def AsnClaim.routeScore (a : AsnClaim K) : Nat :=
  a.specificity + (if a.flags.auth then 256 else 0) + (if a.flags.broad then 0 else 64)

/-- `ipv67_route_from_asn`; the first of the claims with the best score gives the peer. -/
def Ctx.routeFromAsn (s : Ctx K) (e : Env) (dst : Addr) : Bool × Ctx K :=
  let best := s.asns.foldl (fun (best : Option (Nat × Nat)) a =>
    if a.valid && !a.flags.isLocal && a.grantsOwnership c && a.has dst then
      match s.peerForAsnClaim c a, best with
      | none, _ => best
      | some i, none => some (i, a.routeScore)
      | some i, some (_, score) => if a.routeScore > score then some (i, a.routeScore) else best
    else best) none
  match best with
  | none => (false, s)
  | some (i, _) =>
    let p := s.peerAt c i
    (true, s.updateRouteEx c e dst p.endpoint 1 2 0 p.publicKey)

/-- `ipv67_find_route` -/
def Ctx.findRoute (s : Ctx K) (e : Env) (dst : Addr) : Option Nat × Ctx K :=
  let s := s.cleanupStale c e
  match s.findValidRoute c e dst with
  | some i => (some i, s)
  | none =>
    match s.routeFromAsn c e dst with
    | (true, s) => (s.findValidRoute c e dst, s)
    | (false, s) => (none, s)

/-- The peers and the routes `ipv67_build_route_adv` describes to all but the peer at `skip`. -/
def Ctx.routeAdvEntries (s : Ctx K) (e : Env) (skip : Endpoint) : List (RouteAdv K) :=
  (s.peers.filter fun p => p.active && p.addr.zone1 ≠ [] && p.inSession && s.peerAddrVerified c p &&
      c.present p.publicKey && p.endpoint ≠ skip).map
    (fun p => ⟨some p.endpoint, 1, 1, p.highestSequence % 2 ^ 32, addrFormat p.addr, p.publicKey⟩) ++
  (s.routes.filter fun r => r.valid && r.nextHop ≠ skip && s.routeUsable c e r &&
      r.hops ≠ 0 && r.hops < maxHops && r.metric < routeMetricMax).map
    fun r => ⟨some r.nextHop, r.hops, if r.metric = 0 then r.hops else r.metric, r.sequence,
      addrFormat r.dest, r.publicKey⟩

/-- `ipv67_build_route_adv` -/
def Ctx.buildRouteAdv (s : Ctx K) (e : Env) (maxLen : Nat) (skip : Endpoint) :
    List (RouteAdv K) × Ctx K :=
  if maxLen < routeAdvSize then ([], s)
  else
    let s := s.cleanupStale c e
    ((s.routeAdvEntries c e skip).take (maxLen / routeAdvSize), s)

/-- `ipv67_advertise_to_peer` for a copy of a peer. -/
def Ctx.advertiseToPeer (s : Ctx K) (e : Env) (p : Peer K) (type : PacketType) : Ctx K :=
  if s.self = none then s
  else
    let sessionOk := p.inSession && c.present p.publicKey && s.peerAddrVerified c p
    let (entries, s) :=
      if sessionOk then
        s.buildRouteAdv c e (min (routeAdvSize * max 1 (s.peerCount + s.routeCount)) payloadRoom)
          p.endpoint
      else ([], s)
    s.sendSigned c e p.endpoint (s.newHeader c type (routeAdvSize * entries.length) p.addr)
      (.routes entries) (s.signingKey c (some p))

/-- The claims `ipv67_build_asn_adv` describes. -/
def Ctx.asnAdvEntries (s : Ctx K) : List (AsnAdv K) :=
  (s.asns.filter fun a => a.valid && (a.flags.isLocal ||
      a.flags.auth && c.present a.sourceKey && (s.peerForAsnClaim c a).isSome)).map
    fun a => ⟨a.asn, a.specificity, a.flags, addrFormat a.start, addrFormat a.finish, a.sourceKey⟩

/-- `ipv67_advertise_asns_to_peer` for a copy of a peer. -/
def Ctx.advertiseAsnsToPeer (s : Ctx K) (e : Env) (p : Peer K) : Ctx K :=
  if s.self = none || !p.inSession || !c.present p.publicKey then s
  else
    let (count, s) := s.asnCountGet
    if count = 0 then s
    else
      let entries := s.asnAdvEntries c |>.take (min (asnAdvSize * s.asnCount) payloadRoom / asnAdvSize)
      if entries = [] then s
      else s.sendSigned c e p.endpoint
        (s.newHeader c .asnAdv (asnAdvSize * entries.length) p.addr) (.asns entries)
        (s.signingKey c (some p))

/-- The key of the holder of an address: that of the route to it, else that of the peer there. -/
def Ctx.holderKey (s : Ctx K) (route : Option Nat) (addr : Addr) : K :=
  let routeKey := (route.map fun j => (s.routeAt c j).publicKey).getD c.zero
  if c.present routeKey then routeKey
  else ((s.findPeerAddr addr).map fun i => (s.peerAt c i).publicKey).getD c.zero

/-- The end of `ipv67_punch_token_key_for`, the zero key where there is none. -/
def Ctx.tokenKey (s : Ctx K) (publicKey : K) : K :=
  let secret := if c.present publicKey then s.deriveIdentitySecret c publicKey else c.zero
  if !c.present secret then c.zero
  else
    match s.authKey with
    | some key => c.hmac key (.secret secret)
    | none => c.sha256 [secret]

/-- `ipv67_punch_token_key_for` -/
def Ctx.punchTokenKeyFor (s : Ctx K) (e : Env) (addr : Addr) : K × Ctx K :=
  if s.identity = none then (c.zero, s)
  else
    let (route, s) := s.findRoute c e addr
    (s.tokenKey c (s.holderKey c route addr), s)

/-- The end of `ipv67_punch_token_for`, 0 where there is none. -/
def Crypto.punchToken (key : K) (self dst : Addr) : Nat :=
  if !c.present key then 0
  else
    let names := if compare ((addrFormat self).map Char.toNat) ((addrFormat dst).map Char.toNat) ≠ .gt
      then (addrFormat self, addrFormat dst) else (addrFormat dst, addrFormat self)
    let token := c.word64 (c.hmac key (.names names.1 names.2))
    if token = 0 then 1 else token

/-- `ipv67_punch_token_for` -/
def Ctx.punchTokenFor (s : Ctx K) (e : Env) (dst : Addr) : Nat × Ctx K :=
  match s.self with
  | none => (0, s)
  | some self =>
    let (key, s) := s.punchTokenKeyFor c e dst
    (c.punchToken key self dst, s)

/-- `ipv67_send_punch_payload` -/
def Ctx.sendPunchPayload (s : Ctx K) (e : Env) (dst : Addr) (punch : PunchPayload) : Ctx K :=
  if s.self = none then s
  else
    let (route, s) := s.findRoute c e dst
    match route with
    | none => s
    | some j =>
      let r := s.routeAt c j
      match s.peerForRoute r with
      | none => s
      | some i =>
        let p := s.peerAt c i
        if !p.inSession || !s.peerAddrVerified c p || !c.present p.publicKey then s
        else s.sendSigned c e r.nextHop (s.newHeader c .punch punchPayloadSize dst) (.punch punch)
          (s.signingKey c (some p))

/-- `ipv67_send_punch_request` -/
def Ctx.sendPunchRequest (s : Ctx K) (e : Env) (dst : Addr) : Ctx K :=
  match s.self with
  | none => s
  | some self =>
    if addrEq dst self then s
    else
      let (token, s) := s.punchTokenFor c e dst
      if token = 0 then s
      else s.sendPunchPayload c e dst ⟨0, none, token, addrFormat self⟩

/-- `ipv67_send_punch_observed` -/
def Ctx.sendPunchObserved (s : Ctx K) (e : Env) (dst origin : Addr) (ep : Endpoint) (token : Nat) :
    Ctx K :=
  s.sendPunchPayload c e dst ⟨1, some ep, token, addrFormat origin⟩

end Sending

end Lebirun.Ipv67
