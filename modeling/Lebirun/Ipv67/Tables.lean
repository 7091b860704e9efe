import Lebirun.Ipv67.Asn

namespace Lebirun.Ipv67
set_option autoImplicit true

section Find

variable {K : Type}

/-- `find_peer` and `find_peer6` -/
def Ctx.findPeer (s : Ctx K) (ep : Endpoint) : Option Nat :=
  s.peers.findIdx? fun p => p.active && p.endpoint = ep

/-- `find_peer_addr` -/
def Ctx.findPeerAddr (s : Ctx K) (addr : Addr) : Option Nat :=
  if addr.zone1 = [] then none else s.peers.findIdx? fun p => p.active && addrEq p.addr addr

/-- `ipv67_peer_for_route` -/
def Ctx.peerForRoute (s : Ctx K) (r : Route K) : Option Nat := s.findPeer r.nextHop

def Ctx.setPeer (s : Ctx K) (i : Nat) (p : Peer K) : Ctx K := { s with peers := s.peers.set i p }

def Ctx.setRoute (s : Ctx K) (i : Nat) (r : Route K) : Ctx K := { s with routes := s.routes.set i r }

/-- A peer whose session is up. -/
def Peer.inSession (p : Peer K) : Bool := p.authenticated && p.sessionEstablished

variable (c : Crypto K)

def Ctx.peerAt (s : Ctx K) (i : Nat) : Peer K := s.peers.getD i (.zero c)

def Ctx.routeAt (s : Ctx K) (i : Nat) : Route K := s.routes.getD i (.zero c)

/-- `ipv67_ensure_peer_cap` -/
def Ctx.ensurePeerCap (s : Ctx K) (e : Env) (needed : Nat) : Bool × Ctx K :=
  let (ok, peers, allocs) := ensureCap e s.allocs s.peers (Peer.zero c) needed
  (ok, { s with peers, allocs })

/-- `ipv67_ensure_route_cap` -/
def Ctx.ensureRouteCap (s : Ctx K) (e : Env) (needed : Nat) : Bool × Ctx K :=
  let (ok, routes, allocs) := ensureCap e s.allocs s.routes (Route.zero c) needed
  (ok, { s with routes, allocs })

variable [DecidableEq K]

/-- `ipv67_peer_public_key_allowed` -/
def Peer.publicKeyAllowed (p : Peer K) (key : K) : Bool :=
  c.present key &&
    (!c.present p.publicKey || !p.authenticated && !p.sessionEstablished || p.publicKey = key)

/-- `ipv67_peer_public_key_addr_allowed` and `ipv67_peer_auth_key_addr_allowed`. -/
def Ctx.peerPublicKeyAddrAllowed (s : Ctx K) (p : Peer K) (key : K) (addr : Addr) : Bool :=
  c.present key && p.publicKeyAllowed c key && s.asnClaimAllowsKeyAddr c key addr

/-- `ipv67_peer_addr_verified` -/
def Ctx.peerAddrVerified (s : Ctx K) (p : Peer K) : Bool :=
  p.active && p.addr.zone1 ≠ [] && p.inSession && c.present p.publicKey &&
    s.asnClaimAllowsKeyAddr c p.publicKey p.addr

/-- The checks that the queries, the advertisement and the clean-up make of a valid route. -/
def Ctx.routeUsable (s : Ctx K) (e : Env) (r : Route K) : Bool :=
  e.age r.ageTicks ≤ routeTtlTicks &&
    (match s.peerForRoute r with
      | some i => (s.peerAt c i).inSession && s.peerAddrVerified c (s.peerAt c i) &&
          c.present (s.peerAt c i).publicKey
      | none => false) &&
    c.present r.publicKey

end Find

section Removal

variable {K : Type} (c : Crypto K) [DecidableEq K]

/-- The routes `gone` picks are zeroed, the counter decremented for each while it is positive. -/
def Ctx.dropRoutes (s : Ctx K) (gone : Route K → Bool) : Ctx K :=
  { s with
    routes := s.routes.map fun r : Route K => if r.valid && gone r then .zero c else r
    routeCount := s.routeCount - s.routes.countP fun r => r.valid && gone r }

/-- `ipv67_remove_routes_for_peer` -/
def Ctx.removeRoutesForPeer (s : Ctx K) (ep : Endpoint) : Ctx K :=
  if s.routes = [] then s else (s.dropRoutes c fun r => r.nextHop = ep).releaseEmptyTables

/-- The slot of a peer is zeroed and the counter decremented while it is positive. -/
def Ctx.dropPeer (s : Ctx K) (i : Nat) : Ctx K :=
  { s.setPeer i (.zero c) with peerCount := s.peerCount - 1 }

/-- Zeroing a peer with its routes and its claims. -/
def Ctx.forgetPeer (s : Ctx K) (i : Nat) : Ctx K :=
  let s := s.removeRoutesForPeer c (s.peerAt c i).endpoint
  let s := s.removeAsnClaimsForPeer c (s.peerAt c i).publicKey
  s.dropPeer c i

/-- `ipv67_remove_peer` -/
def Ctx.removePeer (s : Ctx K) (ep : Endpoint) : Except Err Unit × Ctx K :=
  match s.findPeer ep with
  | none => (.error .nopeer, s)
  | some i => (.ok (), (s.forgetPeer c i).releaseEmptyTables)

/-- `ipv67_remove_peer_by_addr` -/
def Ctx.removePeerByAddr (s : Ctx K) (addr : Addr) : Except Err Unit × Ctx K :=
  match s.peers.findIdx? fun p => p.active && addrEq p.addr addr with
  | none => (.error .nopeer, s)
  | some i => (.ok (), (s.forgetPeer c i).releaseEmptyTables)

/-- One turn of the second loop of `ipv67_cleanup_stale`. -/
def Ctx.cleanupPeer (e : Env) (s : Ctx K) (i : Nat) : Ctx K :=
  if !(s.peerAt c i).active then s
  else if e.age (s.peerAt c i).lastSeenTicks ≤ peerTtlTicks then s
  else s.forgetPeer c i

/-- `ipv67_cleanup_stale` -/
def Ctx.cleanupStale (s : Ctx K) (e : Env) : Ctx K :=
  let s := s.dropRoutes c fun r => !s.routeUsable c e r
  if s.peers = [] then s
  else ((List.range s.peers.length).foldl (Ctx.cleanupPeer c e) s).releaseEmptyTables

end Removal

section Routes

variable {K : Type} (c : Crypto K) [DecidableEq K]

/-- The loop of `ipv67_update_route_ex` that looks for the oldest route. -/
def Ctx.oldestRoute (s : Ctx K) (e : Env) : Nat :=
  (s.routes.zipIdx.foldl (fun (best : Nat × Nat) r =>
    if e.age r.1.ageTicks > best.1 then (e.age r.1.ageTicks, r.2) else best) (0, 0)).2

/-- The branch of `ipv67_update_route_ex` for a destination that has a route. -/
def Ctx.updateKnownRoute (s : Ctx K) (e : Env) (i : Nat) (nextHop : Endpoint)
    (hops metric sequence : Nat) (key : K) : Ctx K :=
  let r := s.routeAt c i
  if c.present key && c.present r.publicKey && r.publicKey ≠ key then s
  else
    let r := if c.present key then { r with publicKey := key } else r
    let sameNext := r.nextHop = nextHop
    let older := sequence ≠ 0 && r.sequence ≠ 0 && sequence < r.sequence
    let same := sequence ≠ 0 && r.sequence ≠ 0 && sequence = r.sequence
    if older then s.setRoute i (if sameNext then { r with ageTicks := e.ticks } else r)
    else if same && !sameNext then s.setRoute i r
    else if metric < r.metric || !sameNext && metric ≤ r.metric || sequence > r.sequence ||
        e.age r.ageTicks > routeTtlTicks / 2 then
      let fresh := (s.routeSequence + 1) % 2 ^ 32
      { s.setRoute i { r with
          nextHop, hops, metric
          sequence := if sequence ≠ 0 then sequence else fresh
          ageTicks := e.ticks } with
        routeSequence := if sequence ≠ 0 then s.routeSequence else fresh }
    else s.setRoute i { r with ageTicks := e.ticks }

/-- The branch of `ipv67_update_route_ex` for a new destination. -/
def Ctx.insertRoute (s : Ctx K) (e : Env) (dest : Addr) (nextHop : Endpoint)
    (hops metric sequence : Nat) (key : K) : Ctx K :=
  let (ok, s) := s.ensureRouteCap c e (s.routeCount + 1)
  if !ok then s
  else
    let fresh := (s.routeSequence + 1) % 2 ^ 32
    let r : Route K :=
      { dest, nextHop, hops, metric, valid := true
        sequence := if sequence ≠ 0 then sequence else fresh
        ageTicks := e.ticks, publicKey := if c.present key then key else c.zero }
    let s := { s with routeSequence := if sequence ≠ 0 then s.routeSequence else fresh }
    match s.routes.findIdx? (!·.valid) with
    | some i => { s.setRoute i r with routeCount := s.routeCount + 1 }
    | none => { s.setRoute (s.oldestRoute e) r with lost := s.lost + 1 }

/-- `ipv67_update_route_ex`; the zero key stands for a null pointer. -/
def Ctx.updateRouteEx (s : Ctx K) (e : Env) (dest : Addr) (nextHop : Endpoint)
    (hops metric sequence : Nat) (publicKey : K) : Ctx K :=
  let key :=
    if hops ≤ 1 && !c.present publicKey then
      match s.findPeer nextHop with
      | some i => (s.peerAt c i).publicKey
      | none => c.zero
    else publicKey
  if hops > 1 && !c.present key then s
  else if c.present key && !s.asnClaimRoutesKeyAddr c key dest then s
  else
    let metric := if metric = 0 then 1 else metric
    let hops := if hops = 0 then 1 else hops
    match s.routes.findIdx? fun r => r.valid && addrEq r.dest dest with
    | some i => s.updateKnownRoute c e i nextHop hops metric sequence key
    | none => s.insertRoute c e dest nextHop hops metric sequence key

/-- `ipv67_update_route` -/
def Ctx.updateRoute (s : Ctx K) (e : Env) (dest : Addr) (nextHop : Endpoint) (hops : Nat) : Ctx K :=
  s.updateRouteEx c e dest nextHop hops (if hops = 0 then 1 else hops) 0 c.zero

/-- `ipv67_route_count_get` -/
def Ctx.routeCountGet (s : Ctx K) (e : Env) : Nat × Ctx K :=
  if s.routes = [] then (0, s)
  else
    let count := s.routes.countP fun r => r.valid && s.routeUsable c e r
    (count, { s with routeCount := count })

/-- `ipv67_peer_count` -/
def Ctx.peerCountQuery (s : Ctx K) : Nat × Ctx K :=
  if s.peers = [] then (0, s)
  else (s.peers.countP (·.active), { s with peerCount := s.peers.countP (·.active) })

end Routes

section Peers

variable {K : Type} (c : Crypto K) [DecidableEq K]

/-- How readily `ipv67_find_peer_slot` gives a peer up. -/
def Ctx.evictionScore (s : Ctx K) (p : Peer K) : Int :=
  if !p.inSession then 3
  else if !s.peerAddrVerified c p then 2
  else if p.missedProbes > 0 then 1
  else 0

/-- The loop of `ipv67_find_peer_slot` that chooses a peer to evict. -/
def Ctx.oldestPeer (s : Ctx K) (e : Env) : Nat :=
  (s.peers.zipIdx.foldl (fun (best : Nat × Nat × Int) p =>
    let score := s.evictionScore c p.1
    let age := e.age p.1.lastSeenTicks
    if score > best.2.2 || score = best.2.2 && age > best.2.1 then (p.2, age, score) else best)
    (0, 0, -1)).1

/-- `ipv67_find_peer_slot` -/
def Ctx.findPeerSlot (s : Ctx K) (e : Env) : Option Nat × Ctx K :=
  let (ok, s) := s.ensurePeerCap c e (s.peerCount + 1)
  if !ok then (none, s)
  else
    match s.peers.findIdx? (!·.active) with
    | some i => (some i, s)
    | none =>
      let i := s.oldestPeer c e
      (some i, { s.forgetPeer c i with lost := (s.forgetPeer c i).lost + 1 })

/-- A zeroed peer at an endpoint, seen now. -/
def Peer.fresh (e : Env) (endpoint : Endpoint) (addr : Addr) : Peer K :=
  { Peer.zero c with active := true, endpoint, addr, lastSeenTicks := e.ticks }

/-- `ipv67_learn_peer_endpoint` -/
def Ctx.learnPeerEndpoint (s : Ctx K) (e : Env) (ep : Endpoint) (addr : Addr) : Option Nat × Ctx K :=
  match (s.findPeer ep).or (s.findPeerAddr addr) with
  | some i =>
    let p := s.peerAt c i
    let sameAddr := p.addr.zone1 ≠ [] && addrEq p.addr addr
    if c.present p.publicKey && p.addr.zone1 ≠ [] && !sameAddr &&
        !s.peerPublicKeyAddrAllowed c p p.publicKey addr then (none, s)
    else (some i, s.setPeer i { p with
      endpoint := ep, addr := addr, active := true, missedProbes := 0, lastSeenTicks := e.ticks })
  | none =>
    match s.findPeerSlot c e with
    | (none, s) => (none, s)
    | (some i, s) => (some i, { s.setPeer i (.fresh c e ep addr) with peerCount := s.peerCount + 1 })

/-- `ipv67_apply_peer_public_key` -/
def Peer.applyPublicKey (p : Peer K) (key : K) : Peer K :=
  if p.publicKeyAllowed c key then { p with publicKey := key } else p

/-- `ipv67_remember_peer_candidate`; the zero key stands for a null pointer. -/
def Ctx.rememberPeerCandidate (s : Ctx K) (e : Env) (ep : Endpoint) (addr : Addr) (key : K) :
    Option Nat × Ctx K :=
  if addr.zone1 = [] || ep.port = 0 then (none, s)
  else if ep.isUnset then (none, s)
  else if ep.isLoopback then (none, s)
  else if s.self = some addr then (none, s)
  else
    match (s.findPeer ep).or (s.findPeerAddr addr) with
    | some i =>
      let p := s.peerAt c i
      if c.present key && !s.peerPublicKeyAddrAllowed c p key addr then (none, s)
      else
        let p := { p with endpoint := ep, addr := addr, active := true, lastSeenTicks := e.ticks }
        (some i, s.setPeer i (p.applyPublicKey c key))
    | none =>
      match s.findPeerSlot c e with
      | (none, s) => (none, s)
      | (some i, s) =>
        let p := Peer.fresh c e ep addr
        if c.present key && !s.peerPublicKeyAddrAllowed c p key addr then (none, s.setPeer i (.zero c))
        else (some i, { s.setPeer i (p.applyPublicKey c key) with peerCount := s.peerCount + 1 })

/-- The address `ipv67_add_peer_endpoint` gives the peer. -/
def Ctx.learnedAddr (s : Ctx K) (ep : Endpoint) : Option Addr → Option Addr
  | some addr => some addr
  | none =>
    if ep.port = s.port && (ep = .ipv4 0x7f000001 ep.port || ep = .ipv6 1 ep.port) then s.self
    else none

/-- The direct route to a peer added with an address. -/
def Ctx.routeToLearned (s : Ctx K) (e : Env) (ep : Endpoint) : Option Addr → Ctx K
  | some addr => s.updateRoute c e addr ep 1
  | none => s

/-- `ipv67_add_peer_endpoint` -/
def Ctx.addPeerEndpoint (s : Ctx K) (e : Env) (ep : Endpoint) (addr : Option Addr) :
    Except Err Unit × Ctx K :=
  if ep.isV6 && ep.port = 0 then (.error .inval, s)
  else
    let learned := s.learnedAddr ep addr
    match s.findPeer ep with
    | some i =>
      let s := s.setPeer i { s.peerAt c i with addr := learned.getD (s.peerAt c i).addr }
      let s := s.routeToLearned c e ep learned
      (.ok (), s.setPeer i { s.peerAt c i with lastSeenTicks := e.ticks })
    | none =>
      match learned.bind s.findPeerAddr with
      | some i =>
        let s := s.setPeer i { s.peerAt c i with endpoint := ep, lastSeenTicks := e.ticks }
        (.ok (), s.routeToLearned c e ep learned)
      | none =>
        match s.findPeerSlot c e with
        | (none, s) => (.error .nomem, s)
        | (some i, s) =>
          let s := (s.setPeer i (.fresh c e ep (learned.getD .empty))).routeToLearned c e ep learned
          (.ok (), { s with peerCount := s.peerCount + 1 })

end Peers

end Lebirun.Ipv67
