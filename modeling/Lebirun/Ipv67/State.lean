import Lebirun.Ipv67.Address


namespace Lebirun.Ipv67
set_option autoImplicit true

/-- The packet types; `other` is a type byte `ipv67_type_known` refuses. -/
inductive PacketType
  | data | hello | route | ping | pong | peerReq | peerAck | routeAdv
  | authHello | authReply | authDone | asnAdv | punch
  | other (byte : Nat)
deriving DecidableEq, Repr

/-- Where a peer is reached: the family with its address, and the UDP port. -/
inductive Endpoint
  | ipv4 (ip port : Nat)
  | ipv6 (ip port : Nat)
deriving DecidableEq, Repr

def Endpoint.port : Endpoint → Nat
  | .ipv4 _ port => port
  | .ipv6 _ port => port

/-- `ipv67_ipv4_is_loopback` and `ipv6_addr_is_loopback`. -/
def Endpoint.isLoopback : Endpoint → Bool
  | .ipv4 ip _ => ip / 2 ^ 24 % 256 = 127
  | .ipv6 ip _ => ip = 1

def Endpoint.isV6 : Endpoint → Bool
  | .ipv4 _ _ => false
  | .ipv6 _ _ => true

/-- The IPv4 address 0.0.0.0. -/
def Endpoint.isUnset : Endpoint → Bool
  | .ipv4 ip _ => ip = 0
  | .ipv6 _ _ => false

/-- `ipv67_peer_t`. The type `K` is that of the 32-byte keys, secrets and signatures. -/
structure Peer (K : Type) where
  active : Bool
  endpoint : Endpoint
  addr : Addr
  authenticated : Bool
  sessionEstablished : Bool
  highestSequence : Nat
  replayWindow : Nat
  publicKey : K
  sessionKey : K
  localChallenge : Nat
  remoteChallenge : Nat
  handshakeTicks : Nat
  missedProbes : Nat
  lastSeenTicks : Nat
deriving DecidableEq, Repr

/-- `ipv67_route_t` -/
structure Route (K : Type) where
  dest : Addr
  nextHop : Endpoint
  hops : Nat
  metric : Nat
  valid : Bool
  sequence : Nat
  ageTicks : Nat
  publicKey : K
deriving DecidableEq, Repr

/-- The bits of the flags byte of a claim. -/
structure AsnFlags where
  isLocal : Bool
  broad : Bool
  conflict : Bool
  auth : Bool
  relay : Bool
  quarantine : Bool
  spare : Bool × Bool
deriving DecidableEq, Repr

/-- `ipv67_asn_claim_t` without its texts for display. -/
structure AsnClaim (K : Type) where
  asn : Nat
  start : Addr
  finish : Addr
  specificity : Nat
  flags : AsnFlags
  valid : Bool
  conflictCount : Nat
  ageTicks : Nat
  sourceKey : K
deriving DecidableEq, Repr

/-- `ipv67_route_adv_entry_t`; `endpoint` is `none` for a family byte that is neither. -/
structure RouteAdv (K : Type) where
  endpoint : Option Endpoint
  hops : Nat
  metric : Nat
  sequence : Nat
  addr : List Char
  publicKey : K
deriving DecidableEq, Repr

/-- `ipv67_asn_adv_entry_t` -/
structure AsnAdv (K : Type) where
  asn : Nat
  specificity : Nat
  flags : AsnFlags
  start : List Char
  finish : List Char
  sourceKey : K
deriving DecidableEq, Repr

/-- `ipv67_auth_payload_t` -/
structure AuthPayload (K : Type) where
  publicKey : K
  challenge : Nat
  responseChallenge : Nat
  proof : K
  identityProof : K
deriving DecidableEq, Repr

/-- `ipv67_punch_payload_t` -/
structure PunchPayload where
  mode : Nat
  endpoint : Option Endpoint
  token : Nat
  addr : List Char
deriving DecidableEq, Repr

/-- A payload, its bytes read as the structure the handler of the packet's type copies them into;
`bytes` is one too short for that. -/
inductive Payload (K : Type)
  | auth (a : AuthPayload K)
  | routes (entries : List (RouteAdv K))
  | asns (entries : List (AsnAdv K))
  | punch (p : PunchPayload)
  | bytes (text : List Nat)
deriving DecidableEq, Repr

/-- `ipv67_header_t` -/
structure Header (K : Type) where
  magic : Nat
  type : PacketType
  payloadLen : Nat
  hopLimit : Nat
  sequence : Nat
  nonce : Nat
  packetId : Nat
  signature : K
  src : List Char
  dst : List Char
deriving DecidableEq, Repr

/-- What a MAC is computed over. -/
inductive Msg (K : Type)
  | packet (hdr : Header K) (payload : Payload K)
  | proof (sender peer : K) (challenge response : Nat) (type : PacketType)
  | session (first second : K) (lower upper : Nat) (secret : K)
  | secret (k : K)
  | names (first second : List Char)
deriving DecidableEq, Repr

/-- The primitives of the kernel's crypto library and the two constants of the module. -/
structure Crypto (K : Type) where
  /-- Zeroed memory. -/
  zero : K
  bootstrapKey : K
  hmac : K → Msg K → K
  sha256 : List K → K
  x25519 : K → K → K
  /-- `memcmp` of two keys gives at most 0. -/
  memLe : K → K → Bool
  /-- The first four bytes of a digest. -/
  word : K → Nat
  /-- The first eight bytes of a digest. -/
  word64 : K → Nat

/-- What a call reads from outside: the clock, the random numbers and the answers of `kmalloc`. -/
structure Env where
  now : Nat
  rng : Nat → Nat
  mem : Nat → Bool

def peerTtlTicks : Nat := 240000
def routeTtlTicks : Nat := 180000
def defaultHops : Nat := 16
def maxHops : Nat := 255
def routeMetricMax : Nat := 255
def ipv67Magic : Nat := 0x6937

/-- The 32-bit clock the tables keep. -/
def Env.ticks (e : Env) : Nat := e.now % 2 ^ 32

/-- The 32-bit age of a time stamp. -/
def Env.age (e : Env) (stamp : Nat) : Nat := (e.ticks + 2 ^ 32 - stamp) % 2 ^ 32

/-- `ipv67_ping_state_t` -/
structure PingState where
  target : Addr
  token : Nat
  active : Bool
  received : Bool
deriving DecidableEq, Repr

/-- `ipv67_context_t`. A table is the list of its slots, the null pointer the empty list. -/
structure Ctx (K : Type) where
  self : Option Addr
  port : Nat
  authRequired : Bool
  authKey : Option K
  /-- The identity key and its public key. -/
  identity : Option (K × K)
  nextSequence : Nat
  /-- The packet identifiers seen, each with the time. -/
  replayEntries : List (Nat × Nat)
  routeSequence : Nat
  peers : List (Peer K)
  peerCount : Nat
  routes : List (Route K)
  routeCount : Nat
  asns : List (AsnClaim K)
  asnCount : Nat
  ping : Option PingState
  /-- The datagrams sent, latest first. -/
  sent : List (Endpoint × Header K × Payload K)
  /-- How many random numbers and allocations were asked for. -/
  draws : Nat
  allocs : Nat
  /-- Ghost: the valid entries that were in a table when it was freed, or in a slot when it was
  taken although the table could grow. -/
  lost : Nat
deriving DecidableEq, Repr

section Zero

variable (c : Crypto K)

def Peer.zero : Peer K :=
  { active := false, endpoint := .ipv4 0 0, addr := .empty, authenticated := false,
    sessionEstablished := false, highestSequence := 0, replayWindow := 0, publicKey := c.zero,
    sessionKey := c.zero, localChallenge := 0, remoteChallenge := 0, handshakeTicks := 0,
    missedProbes := 0, lastSeenTicks := 0 }

def Route.zero : Route K :=
  { dest := .empty, nextHop := .ipv4 0 0, hops := 0, metric := 0, valid := false, sequence := 0,
    ageTicks := 0, publicKey := c.zero }

def AsnFlags.none : AsnFlags := ⟨false, false, false, false, false, false, (false, false)⟩

def AsnClaim.zero : AsnClaim K :=
  { asn := 0, start := .empty, finish := .empty, specificity := 0, flags := .none, valid := false,
    conflictCount := 0, ageTicks := 0, sourceKey := c.zero }

/-- `ipv67_context_reset` -/
def Ctx.reset (port : Nat) : Ctx K :=
  { self := none, port := if port = 0 then 6767 else port, authRequired := false, authKey := none,
    identity := none, nextSequence := 0, replayEntries := [], routeSequence := 0, peers := [],
    peerCount := 0, routes := [], routeCount := 0, asns := [], asnCount := 0, ping := none,
    sent := [], draws := 0, allocs := 0, lost := 0 }

end Zero

section Keys

variable (c : Crypto K) [DecidableEq K]

/-- `ipv67_identity_key_present` -/
def Crypto.present (k : K) : Bool := k ≠ c.zero

/-- `ipv67_asn_from_public_key`, `none` for its error. -/
def Crypto.asnFromPublicKey (key : K) : Option Nat :=
  if c.present key then some (100000 + c.word (c.sha256 [key]) % 900000) else none

/-- `ipv67_local_asn_from_identity` -/
def Ctx.localAsnFromIdentity (s : Ctx K) : Option Nat :=
  s.identity.bind fun key => c.asnFromPublicKey key.2

/-- The three `ipv67_ensure_*_cap`: a table too short for `needed` slots is copied to one that has
them, the new ones zeroed. -/
def ensureCap (e : Env) (allocs : Nat) (table : List α) (zero : α) (needed : Nat) :
    Bool × List α × Nat :=
  if needed ≤ table.length then (true, table, allocs)
  else if e.mem allocs then
    (true, table ++ List.replicate (needed - table.length) zero, allocs + 1)
  else (false, table, allocs + 1)

theorem ensureCap_cases (e : Env) (allocs : Nat) (table : List α) (zero : α) (needed : Nat) :
    ∃ n, (ensureCap e allocs table zero needed).2.1 = table ++ List.replicate n zero ∧
      ((ensureCap e allocs table zero needed).1 = true → needed ≤ table.length + n) := by
  unfold ensureCap
  split
  · rename_i h
    exact ⟨0, by simp, fun _ => h⟩
  · split
    · exact ⟨needed - table.length, rfl, fun _ => by omega⟩
    · exact ⟨0, by simp, fun h => absurd h (by simp)⟩

/-- `ipv67_release_empty_tables`: a table is freed when its counter is 0. -/
def Ctx.releaseEmptyTables (s : Ctx K) : Ctx K :=
  { s with
    peers := if s.peerCount = 0 then [] else s.peers
    routes := if s.routeCount = 0 then [] else s.routes
    asns := if s.asnCount = 0 then [] else s.asns
    lost := s.lost + (if s.peerCount = 0 then s.peers.countP (·.active) else 0) +
      (if s.routeCount = 0 then s.routes.countP (·.valid) else 0) +
      (if s.asnCount = 0 then s.asns.countP (·.valid) else 0) }

end Keys

section Sample

/-- A number for a message, for the examples: it tells packets of different sequence numbers apart. -/
def Msg.tag : Msg Nat → Nat
  | .packet hdr _ => 10 * hdr.sequence + 1
  | .proof sender peer challenge response _ => 10 * (sender + 7 * peer + 49 * challenge + 343 * response) + 2
  | .session first second lower upper shared =>
    10 * (first + 7 * second + 49 * lower + 343 * upper + 2401 * shared) + 3
  | .secret k => 10 * k + 4
  | .names first second => 10 * (first.length + 7 * second.length) + 5

/-- Small numbers for keys and digests, for the examples. -/
def sampleCrypto : Crypto Nat :=
  { zero := 0
    bootstrapKey := 1
    hmac := fun key m => 100000 * key + m.tag
    sha256 := fun l => l.foldl (fun h k => 13 * h + k) 1
    x25519 := fun secret point => secret * point
    memLe := fun a b => a ≤ b
    word := id
    word64 := id }

/-- The first moment of the clock, with memory at hand. -/
def sampleEnv : Env := { now := 1000, rng := fun n => n + 5, mem := fun _ => true }

end Sample

end Lebirun.Ipv67
