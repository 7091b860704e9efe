import Lebirun.Ipv67.Send

namespace Lebirun.Ipv67
set_option autoImplicit true

section Replay

variable {K : Type}

/-- The 64-bit age of an entry of the list of identifiers. -/
def Env.replayAge (e : Env) (seenAt : Nat) : Nat := (e.now + 2 ^ 64 - seenAt) % 2 ^ 64

def Env.replayFresh (e : Env) (entry : Nat × Nat) : Bool := e.replayAge entry.2 ≤ peerTtlTicks

/-- The loop of `ipv67_global_replay_seen`: the fresh entries before the one looked for, and whether
it was found. -/
def replayScan (e : Env) (packetId : Nat) : List (Nat × Nat) → Bool × List (Nat × Nat)
  | [] => (false, [])
  | entry :: rest =>
    if !e.replayFresh entry then replayScan e packetId rest
    else if entry.1 = packetId then (true, [])
    else
      let (found, kept) := replayScan e packetId rest
      (found, entry :: kept)

/-- `ipv67_global_replay_seen`. Where the identifier is found the array is left half compacted. -/
def Ctx.globalReplaySeen (s : Ctx K) (e : Env) (packetId : Nat) : Bool × Ctx K :=
  if packetId = 0 then (true, s)
  else
    match replayScan e packetId s.replayEntries with
    | (true, kept) => (true, { s with replayEntries := kept ++ s.replayEntries.drop kept.length })
    | (false, kept) =>
      if e.mem s.allocs then
        (false, { s with replayEntries := kept ++ [(packetId, e.now)], allocs := s.allocs + 1 })
      else (true, { s with replayEntries := kept, allocs := s.allocs + 1 })

def replayBits : Nat := 64

/-- A sequence number above the highest one shifts the window. -/
def Peer.advanceWindow (p : Peer K) (sequence : Nat) : Peer K :=
  let shift := sequence - p.highestSequence
  { p with
    replayWindow := if shift ≥ replayBits then 1 else p.replayWindow * 2 ^ shift % 2 ^ 64 ||| 1
    highestSequence := sequence }

/-- The window part of `ipv67_peer_replay_seen`. -/
def Peer.markSequence (p : Peer K) (sequence : Nat) : Peer K :=
  if sequence > p.highestSequence then p.advanceWindow sequence
  else if p.highestSequence - sequence < replayBits then
    { p with replayWindow := p.replayWindow ||| 2 ^ (p.highestSequence - sequence) }
  else p

/-- The window part of `ipv67_packet_replay_seen` for the bootstrap types. -/
def Peer.markBootstrap (p : Peer K) (sequence : Nat) : Peer K :=
  if sequence > p.highestSequence then p.advanceWindow sequence else p

variable (c : Crypto K)

/-- `ipv67_packet_replay_seen` for the peer in slot `i`, with `ipv67_peer_replay_seen`. -/
def Ctx.packetReplaySeen (s : Ctx K) (e : Env) (i : Option Nat) (type : PacketType)
    (sequence packetId : Nat) : Bool × Ctx K :=
  let (seen, s) := s.globalReplaySeen e packetId
  if seen then (true, s)
  else
    match i with
    | none => (false, s)
    | some i =>
      if type.isBootstrap then
        if sequence = 0 then (false, s)
        else (false, s.setPeer i ((s.peerAt c i).markBootstrap sequence))
      else if sequence = 0 then (true, s)
      else (false, s.setPeer i ((s.peerAt c i).markSequence sequence))

end Replay

section Auth

variable {K : Type} (c : Crypto K) [DecidableEq K]

/-- The checks of `ipv67_verify_auth_payload` before any MAC is computed. -/
def Ctx.authPayloadPlausible (s : Ctx K) (p : Peer K) (auth : AuthPayload K) (type : PacketType) :
    Bool :=
  (match s.identity with
    | some (_, identityPublic) => auth.publicKey ≠ identityPublic
    | none => false) &&
  auth.challenge ≠ 0 &&
  !(type ≠ .authHello && auth.responseChallenge = 0) &&
  !(auth.responseChallenge ≠ 0 && p.localChallenge ≠ 0 && auth.responseChallenge ≠ p.localChallenge) &&
  !(type ≠ .authHello && auth.responseChallenge ≠ p.localChallenge)

/-- Whether `ipv67_verify_auth_payload` tries the proof over an empty receiver key. -/
def Ctx.authRetries (s : Ctx K) (p : Peer K) (auth : AuthPayload K) (type : PacketType) : Bool :=
  !(c.hmac (s.authKey.getD c.bootstrapKey) (proofData auth.publicKey ((s.identity.map (·.2)).getD c.zero)
      auth.challenge auth.responseChallenge type) = auth.proof) &&
    type = .authHello && (!c.present p.publicKey || !p.sessionEstablished)

/-- What the proofs of the payload have to be computed over. -/
def Ctx.authProofData (s : Ctx K) (p : Peer K) (auth : AuthPayload K) (type : PacketType) : Msg K :=
  proofData auth.publicKey
    (if s.authRetries c p auth type then c.zero else (s.identity.map (·.2)).getD c.zero)
    auth.challenge auth.responseChallenge type

/-- `shared_ok` of `ipv67_verify_auth_payload`. -/
def Ctx.authSharedOk (s : Ctx K) (p : Peer K) (auth : AuthPayload K) (type : PacketType) : Bool :=
  c.hmac (s.authKey.getD c.bootstrapKey) (s.authProofData c p auth type) = auth.proof

/-- `identity_ok` of `ipv67_verify_auth_payload`. -/
def Ctx.authIdentityOk (s : Ctx K) (p : Peer K) (auth : AuthPayload K) (type : PacketType) : Bool :=
  let secret := s.deriveIdentitySecret c auth.publicKey
  c.present secret && c.hmac secret (s.authProofData c p auth type) = auth.identityProof

/-- `ipv67_verify_auth_payload` -/
def Ctx.verifyAuthPayload (s : Ctx K) (p : Peer K) (auth : AuthPayload K) (type : PacketType) : Bool :=
  if !s.authPayloadPlausible p auth type then false
  else if s.authKey.isSome && !s.authSharedOk c p auth type then false
  else if s.authIdentityOk c p auth type then true
  else if s.authKey.isNone && s.authSharedOk c p auth type && type ≠ .authHello then true
  else if type ≠ .authHello then false
  else if p.sessionEstablished then false
  else s.authSharedOk c p auth type

end Auth

section Advertised

variable {K : Type} (c : Crypto K) [DecidableEq K]

/-- The entry describes the endpoint the advertisement came from. -/
def RouteAdv.sameEndpoint (entry : RouteAdv K) (via : Endpoint) : Bool := entry.endpoint = some via

/-- The metric of the route over the sender: at least its hops, and one more. -/
def RouteAdv.metricVia (entry : RouteAdv K) : Nat :=
  if max entry.metric (entry.hops + 1) < routeMetricMax then max entry.metric (entry.hops + 1) + 1
  else max entry.metric (entry.hops + 1)

/-- Remembering the peer a one-hop entry names, which is then greeted. -/
def Ctx.rememberAdvertised (s : Ctx K) (e : Env) (entry : RouteAdv K) (dest : Addr) : Bool × Ctx K :=
  match entry.endpoint with
  | none => (false, s)
  | some ep =>
    if ep.port = 0 then (false, s)
    else
      match s.rememberPeerCandidate c e ep dest entry.publicKey with
      | (none, s) => (false, s)
      | (some i, s) =>
        (true, if s.identity ≠ none && !(s.peerAt c i).sessionEstablished then
          s.sendAuthToPeer c e i .authHello else s)

/-- The end of a turn of the loop of `ipv67_apply_route_adv`: the peer with the address gets the key. -/
def Ctx.keyAdvertised (s : Ctx K) (dest : Addr) (key : K) : Ctx K :=
  match s.findPeerAddr dest with
  | some i =>
    if s.peerPublicKeyAddrAllowed c (s.peerAt c i) key dest then
      s.setPeer i { s.peerAt c i with publicKey := key }
    else s
  | none => s

/-- One turn of the loop of `ipv67_apply_route_adv`. -/
def Ctx.applyRouteEntry (e : Env) (via : Endpoint) (sourceKey : K) (s : Ctx K) (entry : RouteAdv K) :
    Ctx K :=
  match addrParse entry.addr with
  | .error _ => s
  | .ok dest =>
    if !(c.present entry.publicKey && s.asnClaimRoutesKeyAddr c entry.publicKey dest) then s
    else if entry.hops = 0 || entry.hops ≥ maxHops || entry.metric = 0 || s.self = some dest then s
    else if entry.sameEndpoint via && entry.hops = 1 && entry.publicKey ≠ sourceKey then s
    else
      let (punch, s) :=
        if !entry.sameEndpoint via && entry.hops = 1 then s.rememberAdvertised c e entry dest
        else (false, s)
      let s := s.updateRouteEx c e dest via (entry.hops + 1) entry.metricVia entry.sequence
        entry.publicKey
      let s := if punch then s.sendPunchRequest c e dest else s
      s.keyAdvertised c dest entry.publicKey

/-- `ipv67_apply_route_adv`, which the receive path calls with `authenticated` set. -/
def Ctx.applyRouteAdv (s : Ctx K) (e : Env) (via : Endpoint) (sourceKey : K)
    (entries : List (RouteAdv K)) : Ctx K :=
  if !c.present sourceKey || via.port = 0 || via.isUnset then s
  else entries.foldl (Ctx.applyRouteEntry c e via sourceKey) s

/-- The branch of `ipv67_handle_punch` for an observed endpoint. -/
def Ctx.punchObserved (s : Ctx K) (e : Env) (punch : PunchPayload) (origin : Addr) : Ctx K :=
  let (token, s) := s.punchTokenFor c e origin
  if token ≠ punch.token then s
  else
    let (route, s) := s.findRoute c e origin
    let key := s.holderKey c route origin
    if !c.present key then s
    else
      match punch.endpoint with
      | none => s
      | some ep =>
        if ep.isUnset || ep = .ipv6 0 ep.port then s
        else
          match s.rememberPeerCandidate c e ep origin key with
          | (none, s) => s
          | (some i, s) =>
            let s := if s.identity ≠ none && !(s.peerAt c i).sessionEstablished then
              s.sendAuthToPeer c e i .authHello else s
            s.advertiseToPeer c e (s.peerAt c i) .peerReq

/-- `ipv67_handle_punch`, which the receive path calls with `peer_session_ok` set. -/
def Ctx.handlePunch (s : Ctx K) (e : Env) (src dst : Addr) (payload : Payload K) (rx : Endpoint) :
    Ctx K :=
  match payload with
  | .punch punch =>
    if punch.mode = 0 then
      if punch.token = 0 then s
      else if s.self.any fun self => !addrEq dst self then
        s.sendPunchObserved c e dst src rx punch.token
      else s
    else if punch.mode ≠ 1 then s
    else if s.self ≠ some dst then s
    else if punch.token = 0 || (punch.endpoint.any fun ep => ep.port = 0) then s
    else
      match addrParse punch.addr with
      | .error _ => s
      | .ok origin => if s.self = some origin then s else s.punchObserved c e punch origin
  | _ => s

end Advertised

/-- A datagram and where it came from; `room` is the number of bytes after the header, `none` if
there is no whole header or the datagram is over-long. -/
structure Datagram (K : Type) where
  source : Endpoint
  room : Option Nat
  hdr : Header K
  payload : Payload K
deriving DecidableEq, Repr

section Receive

variable {K : Type} (c : Crypto K) [DecidableEq K]

/-- The two addresses of a well-formed datagram. -/
def Datagram.parse (d : Datagram K) : Option (Addr × Addr) :=
  match d.room, addrParse d.hdr.src, addrParse d.hdr.dst with
  | some room, .ok src, .ok dst =>
    if d.hdr.magic = ipv67Magic && d.hdr.type.isKnown && d.hdr.hopLimit ≠ 0 &&
        d.hdr.payloadLen ≤ room then some (src, dst) else none
  | _, _, _ => none

/-- The PEER_ACK sent in answer to a HELLO. -/
def Ctx.answerHello (s : Ctx K) (e : Env) (d : Datagram K) (p : Option (Peer K)) : Ctx K :=
  s.sendSigned c e d.source
    { s.newHeader c .peerAck 0 .empty with
      src := (s.self.map addrFormat).getD [], dst := d.hdr.src }
    (.bytes []) (s.signingKey c p)

/-- The peer a datagram is handled for: its slot, whether the datagram is signed with its session key,
and the entry as it was before the datagram. -/
structure Admitted (K : Type) where
  slot : Nat
  peerAuthOk : Bool
  original : Option (Peer K)

/-- The drops of `ipv67_receive_common_on_port_locked` between the replay check and the learning of the
peer; `p` is the slot of the peer at the source. -/
def Ctx.dropsUnlearned (s : Ctx K) (d : Datagram K) (p existing : Option Nat) (peerAuthOk : Bool) :
    Bool :=
  s.authRequired && !peerAuthOk && !d.hdr.type.isBootstrap ||
  !d.hdr.type.isAuth && !peerAuthOk && (p.any fun i => (s.peerAt c i).inSession) ||
  (d.hdr.type = .hello || d.hdr.type = .peerReq || d.hdr.type = .peerAck) && s.authRequired && p.isNone ||
  !d.hdr.type.isAuth && !peerAuthOk && existing ≠ p && (existing.any fun i => (s.peerAt c i).inSession)

/-- The part of `ipv67_receive_common_on_port_locked` that learns the peer. -/
def Ctx.learnSource (s : Ctx K) (e : Env) (d : Datagram K) (src : Addr) (p existing : Option Nat)
    (peerAuthOk : Bool) : Option (Admitted K) × Ctx K :=
  let routedSource := peerAuthOk && p.any fun i =>
    (s.peerAt c i).addr.zone1 ≠ [] && !addrEq (s.peerAt c i).addr src
  match if routedSource then (p, s) else s.learnPeerEndpoint c e d.source src with
  | (none, s') => (none, s')
  | (some i, s') =>
    (some {
      slot := i
      peerAuthOk := peerAuthOk || c.headerHasPeerAuth d.hdr d.payload (some (s'.peerAt c i))
      original := existing.map (s.peerAt c) },
    s'.setPeer i { s'.peerAt c i with missedProbes := 0, lastSeenTicks := e.ticks })

/-- The head of `ipv67_receive_common_on_port_locked`: the checks up to the learning of the peer. -/
def Ctx.receiveHead (s : Ctx K) (e : Env) (d : Datagram K) (src : Addr) : Option (Admitted K) × Ctx K :=
  let p := s.findPeer d.source
  if !s.verifyHeader c d.hdr d.payload (p.map (s.peerAt c)) then (none, s)
  else
    let (seen, s) := if d.hdr.type.isAuth then (false, s)
      else s.packetReplaySeen c e p d.hdr.type d.hdr.sequence d.hdr.packetId
    if seen then (none, s)
    else
      let peerAuthOk := c.headerHasPeerAuth d.hdr d.payload (p.map (s.peerAt c))
      let existing := p.or (s.findPeerAddr src)
      if s.dropsUnlearned c d p existing peerAuthOk then
        (none, if d.hdr.type = .hello && s.authRequired && p.isNone then s.answerHello c e d none else s)
      else s.learnSource c e d src p existing peerAuthOk

/-- What a rejected AUTH message leaves: the entry as it was, or none. -/
def Ctx.undoAuth (s : Ctx K) (a : Admitted K) (src : Addr) : Ctx K :=
  match a.original with
  | some original => s.setPeer a.slot original
  | none => (s.removePeerByAddr c src).2

/-- The address check before `ipv67_verify_auth_payload`, and that check. -/
def Ctx.authAccepted (s : Ctx K) (p : Peer K) (auth : AuthPayload K) (type : PacketType) (src : Addr) :
    Bool :=
  c.present auth.publicKey &&
    (!p.sessionEstablished || s.peerPublicKeyAddrAllowed c p auth.publicKey src) &&
    s.verifyAuthPayload c p auth type

/-- Telling a peer with a new session the routes and the claims. -/
def Ctx.introduce (s : Ctx K) (e : Env) (i : Nat) : Ctx K :=
  if (s.peerAt c i).inSession then
    let s := s.advertiseToPeer c e (s.peerAt c i) .peerReq
    s.advertiseAsnsToPeer c e (s.peerAt c i)
  else s

/-- The end of the AUTH branch, for a message that was accepted. -/
def Ctx.authStep (s : Ctx K) (e : Env) (d : Datagram K) (i : Nat) (src : Addr) : Ctx K :=
  match d.hdr.type with
  | .authHello => s.sendAuthToPeer c e i .authReply
  | .authReply =>
    let s := s.setPeer i (s.deriveSessionKey c (s.peerAt c i))
    let s := if s.peerAddrVerified c (s.peerAt c i) then s.updateRoute c e src d.source 1 else s
    let s := s.sendAuthToPeer c e i .authDone
    s.introduce c e i
  | .authDone =>
    let s := s.setPeer i (s.deriveSessionKey c (s.peerAt c i))
    let s := if s.peerAddrVerified c (s.peerAt c i) then s.updateRoute c e src d.source 1 else s
    s.introduce c e i
  | _ => s

/-- The AUTH branch of `ipv67_receive_common_on_port_locked`. -/
def Ctx.receiveAuth (s : Ctx K) (e : Env) (d : Datagram K) (a : Admitted K) (src : Addr) : Ctx K :=
  match d.payload with
  | .auth auth =>
    if d.hdr.payloadLen < authPayloadSize then s.undoAuth c a src
    else if !s.authAccepted c (s.peerAt c a.slot) auth d.hdr.type src then s.undoAuth c a src
    else
      let (seen, s) :=
        s.packetReplaySeen c e (some a.slot) d.hdr.type d.hdr.sequence d.hdr.packetId
      if seen then s.undoAuth c a src
      else
        let p := s.peerAt c a.slot
        let s := s.setPeer a.slot
          { p with publicKey := auth.publicKey, remoteChallenge := auth.challenge }
        s.authStep c e d a.slot src
  | _ => s.undoAuth c a src

/-- The answer to a PING. -/
def Ctx.answerPing (s : Ctx K) (e : Env) (d : Datagram K) (i : Nat) (src : Addr) : Ctx K :=
  let hdr := { s.newHeader c .pong d.hdr.payloadLen src with src := (s.self.map addrFormat).getD [] }
  if addrEq src (s.peerAt c i).addr then
    s.sendSigned c e d.source hdr d.payload (s.signingKey c (some (s.peerAt c i)))
  else
    let (route, s) := s.findRoute c e src
    let target : Option (Nat × Endpoint) := match route with
      | some j => (s.peerForRoute (s.routeAt c j)).map fun k => (k, (s.routeAt c j).nextHop)
      | none => some (i, (s.peerAt c i).endpoint)
    match target with
    | some (k, ep) =>
      let p := s.peerAt c k
      if p.inSession && s.peerAddrVerified c p && c.present p.publicKey then
        s.sendSigned c e ep hdr d.payload (s.signingKey c (some p))
      else s
    | none => s

/-- The answer to the PING under way. -/
def Ctx.notePong (s : Ctx K) (d : Datagram K) (src : Addr) : Ctx K :=
  match s.ping, d.payload with
  | some ping, .bytes (token :: _) =>
    if ping.active && !ping.received && addrEq src ping.target && ping.token = token then
      { s with ping := some { ping with received := true } }
    else s
  | _, _ => s

/-- Sending a packet on that is for another node. -/
def Ctx.forward (s : Ctx K) (e : Env) (d : Datagram K) (dst : Addr) : Ctx K :=
  if d.hdr.hopLimit = 1 then s
  else
    let (hdr, s) := s.prepareHeader e { d.hdr with hopLimit := d.hdr.hopLimit - 1 }
    let (route, s) := s.findRoute c e dst
    let signTo := fun (s : Ctx K) (p : Peer K) (ep : Endpoint) =>
      match c.signHeaderKey hdr d.payload (s.signingKey c (some p)) with
      | some hdr => s.sendTo ep hdr d.payload
      | none => s
    let usable := fun (p : Peer K) => p.inSession && c.present p.publicKey && s.peerAddrVerified c p &&
      s.self ≠ some p.addr
    match route.filter fun j => (s.routeAt c j).nextHop ≠ d.source with
    | some j =>
      match s.peerForRoute (s.routeAt c j) with
      | some k => if usable (s.peerAt c k) then signTo s (s.peerAt c k) (s.routeAt c j).nextHop else s
      | none => s
    | none => (s.peers.filter fun p => p.active && usable p && p.endpoint ≠ d.source).foldl
        (fun s p => signTo s p p.endpoint) s

/-- The handling of the types from HELLO on, after the tables were updated. -/
def Ctx.dispatch (s : Ctx K) (e : Env) (d : Datagram K) (i : Nat) (src dst : Addr)
    (trusted routeAllowed : Bool) : Ctx K :=
  let p := s.peerAt c i
  let here := match s.self with
    | none => true
    | some self => addrEq dst self
  let greet := s.identity ≠ none && !p.sessionEstablished
  match d.hdr.type with
  | .hello => s.answerHello c e d (some p)
  | .peerReq =>
    if routeAllowed then s.advertiseToPeer c e p .peerAck
    else if greet then s.sendAuthToPeer c e i .authHello
    else s
  | .peerAck => if !routeAllowed && greet then s.sendAuthToPeer c e i .authHello else s
  | .routeAdv => s
  | .ping =>
    if here then if trusted then s.answerPing c e d i src else s
    else if trusted then s.forward c e d dst else s
  | .pong =>
    if here then if trusted then s.notePong d src else s
    else if trusted then s.forward c e d dst else s
  | .punch =>
    if !trusted then s
    else
      let s := s.handlePunch c e src dst d.payload d.source
      if here then s else s.forward c e d dst
  | _ => if here then s else if trusted then s.forward c e d dst else s

/-- The entries of a route advertisement; other bytes have none. -/
def Payload.routeEntries : Payload K → List (RouteAdv K)
  | .routes entries => entries
  | _ => []

def Payload.asnEntries : Payload K → List (AsnAdv K)
  | .asns entries => entries
  | _ => []

/-- The types that carry a route advertisement. -/
def PacketType.carriesRoutes (t : PacketType) : Bool :=
  t = .peerReq || t = .peerAck || t = .routeAdv

/-- The end of `ipv67_receive_common_on_port_locked`, for the types that are not AUTH. -/
def Ctx.receiveOther (s : Ctx K) (e : Env) (d : Datagram K) (a : Admitted K) (src dst : Addr) :
    Ctx K :=
  let p := s.peerAt c a.slot
  let inSession := a.peerAuthOk && p.inSession
  let peerAddrOk := s.peerAddrVerified c p
  if inSession && !peerAddrOk && d.hdr.type ≠ .asnAdv && d.hdr.type ≠ .peerReq then s
  else
    let routeAllowed := inSession && peerAddrOk
    let s := if routeAllowed then s.updateRoute c e src d.source 1 else s
    let s := if d.hdr.type.carriesRoutes && routeAllowed then
        s.applyRouteAdv c e d.source p.publicKey d.payload.routeEntries
      else s
    if d.hdr.type = .asnAdv then
      if inSession then
        let s := s.applyAsnAdv c e p.publicKey d.payload.asnEntries
        if s.peerAddrVerified c (s.peerAt c a.slot) then
          let s := s.updateRoute c e src d.source 1
          s.advertiseToPeer c e (s.peerAt c a.slot) .peerReq
        else s
      else s
    else s.dispatch c e d a.slot src dst routeAllowed routeAllowed

/-- `ipv67_receive_common_on_port_locked` -/
def Ctx.receive (s : Ctx K) (e : Env) (d : Datagram K) : Ctx K :=
  match d.parse with
  | none => s
  | some (src, dst) =>
    match s.receiveHead c e d src with
    | (none, s) => s
    | (some a, s) => if d.hdr.type.isAuth then s.receiveAuth c e d a src else s.receiveOther c e d a src dst

end Receive

end Lebirun.Ipv67
