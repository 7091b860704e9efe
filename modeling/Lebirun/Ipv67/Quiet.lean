import Lebirun.Ipv67.TableRuns

namespace Lebirun.Ipv67
open Machine
set_option autoImplicit true

section Check

variable {K : Type} {c : Crypto K} {s : Ctx K}

theorem peerAt_setPeer {j : Nat} (h : j < s.peers.length) (p : Peer K) :
    (s.setPeer j p).peerAt c j = p := by simp [Ctx.setPeer, Ctx.peerAt, h]

theorem setPeer_setPeer (j : Nat) (p p' : Peer K) :
    (s.setPeer j p).setPeer j p' = s.setPeer j p' := by
  simp only [Ctx.setPeer, List.set_set]

theorem findPeer_setPeer {j : Nat} {p : Peer K} (hact : p.active = (s.peerAt c j).active)
    (hep : p.endpoint = (s.peerAt c j).endpoint) (ep : Endpoint) :
    (s.setPeer j p).findPeer ep = s.findPeer ep := by
  apply Slots.find_set
  intro q hq
  have hat : s.peerAt c j = q := peerAt_of_some hq
  rw [hact, hep, hat]

theorem globalReplaySeen_peers (s : Ctx K) (e : Env) (packetId : Nat) :
    (s.globalReplaySeen e packetId).2.peers = s.peers := by
  unfold Ctx.globalReplaySeen
  split
  · rfl
  · split
    · rfl
    · split <;> rfl

/-- `ipv67_packet_replay_seen` changes no more of the peers than one window. -/
theorem packetReplaySeen_peers (s : Ctx K) (e : Env) (i : Option Nat) (type : PacketType)
    (sequence packetId : Nat) :
    (s.packetReplaySeen c e i type sequence packetId).2.peers = s.peers ∨
    ∃ j n w, i = some j ∧ (s.packetReplaySeen c e i type sequence packetId).2.peers =
      (s.setPeer j { s.peerAt c j with highestSequence := n, replayWindow := w }).peers := by
  have hpeers := globalReplaySeen_peers s e packetId
  have hmark : ∀ p : Peer K, ∃ n w,
      p.markSequence sequence = { p with highestSequence := n, replayWindow := w } := by
    intro p
    unfold Peer.markSequence Peer.advanceWindow
    split
    · exact ⟨_, _, rfl⟩
    · split
      · exact ⟨p.highestSequence, _, rfl⟩
      · exact ⟨p.highestSequence, p.replayWindow, rfl⟩
  have hboot : ∀ p : Peer K, ∃ n w,
      p.markBootstrap sequence = { p with highestSequence := n, replayWindow := w } := by
    intro p
    unfold Peer.markBootstrap Peer.advanceWindow
    split
    · exact ⟨_, _, rfl⟩
    · exact ⟨p.highestSequence, p.replayWindow, rfl⟩
  unfold Ctx.packetReplaySeen
  generalize s.globalReplaySeen e packetId = x at hpeers ⊢
  obtain ⟨seen, s'⟩ := x
  dsimp only at hpeers ⊢
  split
  · exact .inl hpeers
  · split
    · exact .inl hpeers
    · rename_i j
      have hat : s'.peerAt c j = s.peerAt c j := by simp only [Ctx.peerAt, hpeers]
      split
      · split
        · exact .inl hpeers
        · obtain ⟨n, w, heq⟩ := hboot (s.peerAt c j)
          refine .inr ⟨j, n, w, rfl, ?_⟩
          rw [hat, heq]
          simp only [Ctx.setPeer, hpeers]
      · split
        · exact .inl hpeers
        · obtain ⟨n, w, heq⟩ := hmark (s.peerAt c j)
          refine .inr ⟨j, n, w, rfl, ?_⟩
          rw [hat, heq]
          simp only [Ctx.setPeer, hpeers]

theorem packetReplaySeen_findPeer (s : Ctx K) (e : Env) (i : Option Nat) (type : PacketType)
    (sequence packetId : Nat) (ep : Endpoint) :
    (s.packetReplaySeen c e i type sequence packetId).2.findPeer ep = s.findPeer ep := by
  obtain h | ⟨j, n, w, -, h⟩ := packetReplaySeen_peers (c := c) s e i type sequence packetId
  · unfold Ctx.findPeer
    rw [h]
  · rw [← findPeer_setPeer (s := s) (c := c) (j := j)
      (p := { s.peerAt c j with highestSequence := n, replayWindow := w }) rfl rfl ep]
    unfold Ctx.findPeer
    rw [h]

end Check

section Outside

variable {K : Type} {c : Crypto K} {s : Ctx K}

/-- What the work on the tables leaves alone: the configuration, the list of packet identifiers and the
datagrams sent. -/
def Ctx.outside (s : Ctx K) : (Option Addr × Bool × Option K × Option (K × K)) × List (Nat × Nat) ×
    List (Endpoint × Header K × Payload K) :=
  ((s.self, s.authRequired, s.authKey, s.identity), s.replayEntries, s.sent)

theorem setPeer_outside (i : Nat) (p : Peer K) : (s.setPeer i p).outside = s.outside := rfl

theorem setRoute_outside (i : Nat) (r : Route K) : (s.setRoute i r).outside = s.outside := rfl

theorem release_outside : s.releaseEmptyTables.outside = s.outside := rfl

theorem removeRoutesForPeer_outside (ep : Endpoint) :
    (s.removeRoutesForPeer c ep).outside = s.outside := by
  unfold Ctx.removeRoutesForPeer
  split <;> rfl

theorem storeAsnClaim_outside (e : Env) (claim : AsnClaim K) :
    (s.storeAsnClaim c e claim).outside = s.outside := by
  unfold Ctx.storeAsnClaim Ctx.ensureAsnCap
  dsimp only
  split
  · rfl
  · split
    · rfl
    · split
      · rfl
      · split <;> rfl

theorem asnCountGet_outside : s.asnCountGet.2.outside = s.outside := by
  unfold Ctx.asnCountGet
  split <;> rfl

variable [DecidableEq K]

theorem removeAsnClaimsForPeer_outside (key : K) :
    (s.removeAsnClaimsForPeer c key).outside = s.outside := by
  unfold Ctx.removeAsnClaimsForPeer
  split
  · rfl
  · dsimp only
    split <;> rfl

theorem forgetPeer_outside (i : Nat) : (s.forgetPeer c i).outside = s.outside :=
  (removeAsnClaimsForPeer_outside _).trans (removeRoutesForPeer_outside _)

theorem removePeerByAddr_outside (addr : Addr) : (s.removePeerByAddr c addr).2.outside = s.outside := by
  unfold Ctx.removePeerByAddr
  split
  · rfl
  · exact forgetPeer_outside _

theorem cleanupPeer_outside (e : Env) (i : Nat) : (s.cleanupPeer c e i).outside = s.outside := by
  unfold Ctx.cleanupPeer
  split
  · rfl
  · split
    · rfl
    · exact forgetPeer_outside i

theorem cleanupStale_outside (e : Env) : (s.cleanupStale c e).outside = s.outside := by
  unfold Ctx.cleanupStale
  dsimp only
  split
  · rfl
  · change Ctx.outside (List.foldl _ _ _) = _
    have hdrop : (s.dropRoutes c fun r => !s.routeUsable c e r).outside = s.outside := rfl
    apply foldl_invariant (I := fun t : Ctx K => t.outside = s.outside) _ hdrop
    intro t i ht
    exact (cleanupPeer_outside e i).trans ht

theorem updateKnownRoute_outside (e : Env) (i : Nat) (nextHop : Endpoint) (hops metric sequence : Nat)
    (key : K) : (s.updateKnownRoute c e i nextHop hops metric sequence key).outside = s.outside := by
  unfold Ctx.updateKnownRoute
  dsimp only
  generalize (if c.present key = true then { s.routeAt c i with publicKey := key } else _) = r
  split
  · rfl
  · split
    · rfl
    · split
      · rfl
      · split <;> rfl

theorem insertRoute_outside (e : Env) (dest : Addr) (nextHop : Endpoint) (hops metric sequence : Nat)
    (key : K) : (s.insertRoute c e dest nextHop hops metric sequence key).outside = s.outside := by
  unfold Ctx.insertRoute Ctx.ensureRouteCap
  dsimp only
  split
  · rfl
  · split <;> rfl

theorem updateRouteEx_outside (e : Env) (dest : Addr) (nextHop : Endpoint) (hops metric sequence : Nat)
    (key : K) : (s.updateRouteEx c e dest nextHop hops metric sequence key).outside = s.outside := by
  unfold Ctx.updateRouteEx
  dsimp only
  generalize (if (decide (hops ≤ 1) && !c.present key) = true then _ else key) = key'
  split
  · rfl
  · split
    · rfl
    · split
      · exact updateKnownRoute_outside e _ _ _ _ _ _
      · exact insertRoute_outside e _ _ _ _ _ _

theorem applyAsnAdv_outside (e : Env) (sourceKey : K) (entries : List (AsnAdv K)) :
    (s.applyAsnAdv c e sourceKey entries).outside = s.outside := by
  unfold Ctx.applyAsnAdv
  change (List.foldl _ s entries).outside = _
  apply foldl_invariant (I := fun t : Ctx K => t.outside = s.outside) _ rfl
  intro t entry ht
  unfold Ctx.applyAsnEntry
  split
  · exact (storeAsnClaim_outside e _).trans ht
  · exact ht

theorem findPeerSlot_outside (e : Env) : (s.findPeerSlot c e).2.outside = s.outside := by
  unfold Ctx.findPeerSlot
  dsimp only
  split
  · rfl
  · split
    · rfl
    · exact forgetPeer_outside _

theorem learnPeerEndpoint_outside (e : Env) (ep : Endpoint) (addr : Addr) :
    (s.learnPeerEndpoint c e ep addr).2.outside = s.outside := by
  unfold Ctx.learnPeerEndpoint
  split
  · dsimp only
    split <;> rfl
  · have hslot := findPeerSlot_outside (c := c) (s := s) e
    split
    · rename_i heq
      rwa [heq] at hslot
    · rename_i heq
      rwa [heq] at hslot

theorem rememberPeerCandidate_outside (e : Env) (ep : Endpoint) (addr : Addr) (key : K) :
    (s.rememberPeerCandidate c e ep addr key).2.outside = s.outside := by
  unfold Ctx.rememberPeerCandidate
  split
  · rfl
  · split
    · rfl
    · split
      · rfl
      · split
        · rfl
        · split
          · dsimp only
            split <;> rfl
          · have hslot := findPeerSlot_outside (c := c) (s := s) e
            split
            · rename_i heq
              rwa [heq] at hslot
            · rename_i heq
              rw [heq] at hslot
              dsimp only
              split <;> exact hslot

end Outside

section Quiet

variable {K : Type} {c : Crypto K} [DecidableEq K]

/-- What `ipv67_configure` and the two key calls set. -/
def Ctx.config (s : Ctx K) : Option Addr × Bool × Option K × Option (K × K) :=
  (s.self, s.authRequired, s.authKey, s.identity)

/-- A datagram that, if it is an AUTH message, is one `sendAuthToPeer` makes. -/
def Ctx.Makes (c : Crypto K) (s : Ctx K) (x : Endpoint × Header K × Payload K) : Prop :=
  x.2.1.type.isAuth = true → ∃ key p challenge, s.identity = some key ∧
    x.2.2 = .auth (s.authPayload c key.2 p challenge x.2.1.type)

/-- A call that leaves the configuration and the packet identifiers alone and sends only AUTH messages of
its own making. -/
structure Quiet (c : Crypto K) (s s' : Ctx K) : Prop where
  config : s'.config = s.config
  replays : s'.replayEntries = s.replayEntries
  sends : ∃ l, s'.sent = l ++ s.sent ∧ ∀ x ∈ l, s.Makes c x

theorem makes_congr {s s' : Ctx K} (h : s'.config = s.config) (x : Endpoint × Header K × Payload K) :
    s'.Makes c x ↔ s.Makes c x := by
  simp only [Ctx.config, Prod.mk.injEq] at h
  obtain ⟨-, -, hkey, hid⟩ := h
  have hpay : ∀ pub p challenge type,
      s'.authPayload c pub p challenge type = s.authPayload c pub p challenge type := by
    intro pub p challenge type
    simp only [Ctx.authPayload, Ctx.deriveIdentitySecret, hkey, hid]
  simp only [Ctx.Makes, hid, hpay]

theorem Quiet.refl (s : Ctx K) : Quiet c s s := ⟨rfl, rfl, [], rfl, by simp⟩

theorem Quiet.trans {s s' s'' : Ctx K} (h : Quiet c s s') (h' : Quiet c s' s'') : Quiet c s s'' := by
  obtain ⟨l, hl, hmade⟩ := h.sends
  obtain ⟨l', hl', hmade'⟩ := h'.sends
  refine ⟨h'.config.trans h.config, h'.replays.trans h.replays, l' ++ l, ?_, ?_⟩
  · rw [hl', hl, List.append_assoc]
  · intro x hx
    cases List.mem_append.mp hx with
    | inl hx => exact (makes_congr h.config x).mp (hmade' x hx)
    | inr hx => exact hmade x hx

theorem Quiet.of_outside {s s' : Ctx K} (h : s'.outside = s.outside) : Quiet c s s' := by
  simp only [Ctx.outside, Prod.mk.injEq] at h
  obtain ⟨hc, hr, hs⟩ := h
  exact ⟨by simp only [Ctx.config, hc], hr, [], by simpa using hs, by simp⟩

/-- The pieces the receive path is made of, but for `ipv67_packet_replay_seen`. -/
inductive Piece (c : Crypto K) (s : Ctx K) : Ctx K → Prop
  | cleanup (e : Env) : Piece c s (s.cleanupStale c e)
  | route (e : Env) (dest : Addr) (nextHop : Endpoint) (hops metric sequence : Nat) (key : K) :
    Piece c s (s.updateRouteEx c e dest nextHop hops metric sequence key)
  | learn (e : Env) (ep : Endpoint) (addr : Addr) : Piece c s (s.learnPeerEndpoint c e ep addr).2
  | remember (e : Env) (ep : Endpoint) (addr : Addr) (key : K) :
    Piece c s (s.rememberPeerCandidate c e ep addr key).2
  | forget (addr : Addr) : Piece c s (s.removePeerByAddr c addr).2
  | asnAdv (e : Env) (sourceKey : K) (entries : List (AsnAdv K)) :
    Piece c s (s.applyAsnAdv c e sourceKey entries)
  | asnCount : Piece c s s.asnCountGet.2
  | peer (i : Nat) (p : Peer K) (h : i < s.peers.length → p.active = (s.peerAt c i).active) :
    Piece c s (s.setPeer i p)
  | book (nextSequence draws : Nat) (ping : Option PingState) :
    Piece c s { s with nextSequence, draws, ping }
  | send (ep : Endpoint) (hdr : Header K) (payload : Payload K) (h : s.Makes c (ep, hdr, payload)) :
    Piece c s (s.sendTo ep hdr payload)

theorem Piece.quiet {s s' : Ctx K} (h : Piece c s s') : Quiet c s s' := by
  cases h with
  | cleanup e => exact Quiet.of_outside (cleanupStale_outside e)
  | route e dest nextHop hops metric sequence key =>
    exact Quiet.of_outside (updateRouteEx_outside e dest nextHop hops metric sequence key)
  | learn e ep addr => exact Quiet.of_outside (learnPeerEndpoint_outside e ep addr)
  | remember e ep addr key => exact Quiet.of_outside (rememberPeerCandidate_outside e ep addr key)
  | forget addr => exact Quiet.of_outside (removePeerByAddr_outside addr)
  | asnAdv e sourceKey entries => exact Quiet.of_outside (applyAsnAdv_outside e sourceKey entries)
  | asnCount => exact Quiet.of_outside asnCountGet_outside
  | peer i p _ => exact Quiet.of_outside (setPeer_outside i p)
  | book n k ping => exact Quiet.of_outside rfl
  | send ep hdr payload hmade =>
    refine ⟨rfl, rfl, [(ep, hdr, payload)], rfl, ?_⟩
    intro x hx
    rw [List.mem_singleton.mp hx]
    exact hmade

/-- A sequence of pieces. -/
def Work (c : Crypto K) : Ctx K → Ctx K → Prop := Relation.ReflTransGen (Piece c)

theorem Work.refl (s : Ctx K) : Work c s s := Relation.ReflTransGen.refl

theorem Work.trans {s s' s'' : Ctx K} (h : Work c s s') (h' : Work c s' s'') : Work c s s'' :=
  Relation.ReflTransGen.trans h h'

theorem Work.tail {s s' s'' : Ctx K} (h : Work c s s') (h' : Piece c s' s'') : Work c s s'' :=
  Relation.ReflTransGen.tail h h'

theorem Piece.work {s s' : Ctx K} (h : Piece c s s') : Work c s s' := Relation.ReflTransGen.single h

theorem Work.quiet {s s' : Ctx K} (h : Work c s s') : Quiet c s s' := by
  induction h with
  | refl => exact Quiet.refl s
  | tail _ hpiece ih => exact ih.trans hpiece.quiet

/-- What every piece keeps, all the work keeps. -/
theorem Work.invariant {I : Ctx K → Prop} (hI : ∀ t t', I t → Piece c t t' → I t') {s s' : Ctx K}
    (h : Work c s s') (hs : I s) : I s' := by
  induction h with
  | refl => exact hs
  | tail _ hpiece ih => exact hI _ _ ih hpiece

theorem Work.ite {s t u : Ctx K} {b : Prop} [Decidable b] (ht : Work c s t) (hu : Work c s u) :
    Work c s (if b then t else u) := by
  split
  · exact ht
  · exact hu

theorem Work.sendTo {s s' : Ctx K} (h : Work c s s') (ep : Endpoint) (hdr : Header K)
    (payload : Payload K) (hmade : s.Makes c (ep, hdr, payload)) :
    Work c s (s'.sendTo ep hdr payload) :=
  h.tail (.send ep hdr payload ((makes_congr h.quiet.config _).mpr hmade))

theorem makes_other {s : Ctx K} {ep : Endpoint} {hdr : Header K} {payload : Payload K}
    (h : hdr.type.isAuth = false) : s.Makes c (ep, hdr, payload) := by
  intro hauth
  rw [h] at hauth
  cases hauth

theorem Work.sendSigned {s s' : Ctx K} (h : Work c s s') (e : Env) (ep : Endpoint) (hdr : Header K)
    (payload : Payload K) (key : K)
    (hmade : hdr.type.isAuth = true → ∃ key p challenge, s.identity = some key ∧
      payload = .auth (s.authPayload c key.2 p challenge hdr.type)) :
    Work c s (s'.sendSigned c e ep hdr payload key) := by
  unfold Ctx.sendSigned Crypto.signHeaderKey Ctx.prepareHeader Ctx.draw
  dsimp only
  have hstart := h.tail (.book ((s'.nextSequence + 1) % 2 ^ 64) (s'.draws + 1 + 1) s'.ping)
  split
  · rename_i heq
    split at heq
    · cases heq
    · cases heq
      exact hstart.sendTo _ _ _ hmade
  · exact hstart

theorem Work.sendOther {s s' : Ctx K} (h : Work c s s') (e : Env) (ep : Endpoint) (hdr : Header K)
    (payload : Payload K) (key : K) (ht : hdr.type.isAuth = false) :
    Work c s (s'.sendSigned c e ep hdr payload key) := by
  apply h.sendSigned
  intro hauth
  rw [ht] at hauth
  cases hauth

/-- The one function that makes AUTH messages. -/
theorem sendAuthToPeer_work (s : Ctx K) (e : Env) (i : Nat) (type : PacketType) :
    Work c s (s.sendAuthToPeer c e i type) := by
  unfold Ctx.sendAuthToPeer
  split
  · rename_i key pub hself hid
    have hch := challengeFor_spec (s := s) e (s.peerAt c i)
    dsimp only
    generalize s.challengeFor e (s.peerAt c i) = x at hch ⊢
    obtain ⟨challenge, s'⟩ := x
    obtain ⟨n, hch⟩ := hch
    dsimp only at hch ⊢
    subst hch
    have hdrawn : Work c s _ := (Piece.book s.nextSequence n s.ping).work
    have hset := hdrawn.tail (.peer i { s.peerAt c i with
      localChallenge := challenge
      handshakeTicks := e.ticks } fun _ => rfl)
    apply hset.sendSigned
    intro _
    exact ⟨(key, pub), s.peerAt c i, challenge, hid, rfl⟩
  · exact Work.refl s

theorem buildRouteAdv_work (s : Ctx K) (e : Env) (maxLen : Nat) (skip : Endpoint) :
    Work c s (s.buildRouteAdv c e maxLen skip).2 := by
  unfold Ctx.buildRouteAdv
  split
  · exact Work.refl s
  · exact (Piece.cleanup (c := c) e).work

theorem routeFromAsn_work (s : Ctx K) (e : Env) (dst : Addr) :
    Work c s (s.routeFromAsn c e dst).2 := by
  unfold Ctx.routeFromAsn
  dsimp only
  split
  · exact Work.refl s
  · change Work c s (s.updateRouteEx c e dst _ 1 2 0 _)
    exact Piece.work (.route e _ _ _ _ _ _)

theorem findRoute_work (s : Ctx K) (e : Env) (dst : Addr) : Work c s (s.findRoute c e dst).2 := by
  have hclean : Work c s (s.cleanupStale c e) := (Piece.cleanup e).work
  have hroute := hclean.trans (routeFromAsn_work _ e dst)
  unfold Ctx.findRoute
  dsimp only
  split
  · exact hclean
  · split
    · rename_i heq
      rw [heq] at hroute
      exact hroute
    · rename_i heq
      rw [heq] at hroute
      exact hroute

theorem punchTokenFor_work (s : Ctx K) (e : Env) (dst : Addr) :
    Work c s (s.punchTokenFor c e dst).2 := by
  unfold Ctx.punchTokenFor
  split
  · exact Work.refl s
  · unfold Ctx.punchTokenKeyFor
    dsimp only
    split
    · exact Work.refl s
    · exact findRoute_work s e dst

theorem keyAdvertised_work (s : Ctx K) (dest : Addr) (key : K) :
    Work c s (s.keyAdvertised c dest key) := by
  unfold Ctx.keyAdvertised
  split
  · split
    · apply Piece.work (.peer _ _ _)
      intro _
      rfl
    · exact Work.refl s
  · exact Work.refl s

theorem advertiseToPeer_work (s : Ctx K) (e : Env) (p : Peer K) {type : PacketType}
    (ht : type.isAuth = false) : Work c s (s.advertiseToPeer c e p type) := by
  unfold Ctx.advertiseToPeer
  split
  · exact Work.refl s
  · dsimp only
    split
    · exact (buildRouteAdv_work s e _ _).sendOther e _ _ _ _ ht
    · exact (Work.refl s).sendOther e _ _ _ _ ht

theorem advertiseAsnsToPeer_work (s : Ctx K) (e : Env) (p : Peer K) :
    Work c s (s.advertiseAsnsToPeer c e p) := by
  have hq : Work c s s.asnCountGet.2 := Piece.asnCount.work
  unfold Ctx.advertiseAsnsToPeer
  split
  · exact Work.refl s
  · dsimp only
    split
    · exact hq
    · split
      · exact hq
      · exact hq.sendOther e _ _ _ _ rfl

theorem sendPunchPayload_work (s : Ctx K) (e : Env) (dst : Addr) (punch : PunchPayload) :
    Work c s (s.sendPunchPayload c e dst punch) := by
  have hq := findRoute_work (c := c) s e dst
  unfold Ctx.sendPunchPayload
  split
  · exact Work.refl s
  · dsimp only
    split
    · exact hq
    · split
      · exact hq
      · split
        · exact hq
        · exact hq.sendOther e _ _ _ _ rfl

theorem sendPunchRequest_work (s : Ctx K) (e : Env) (dst : Addr) :
    Work c s (s.sendPunchRequest c e dst) := by
  have hq := punchTokenFor_work (c := c) s e dst
  unfold Ctx.sendPunchRequest
  split
  · exact Work.refl s
  · split
    · exact Work.refl s
    · dsimp only
      split
      · exact hq
      · exact hq.trans (sendPunchPayload_work _ e dst _)

theorem rememberAdvertised_work (s : Ctx K) (e : Env) (entry : RouteAdv K) (dest : Addr) :
    Work c s (s.rememberAdvertised c e entry dest).2 := by
  unfold Ctx.rememberAdvertised
  split
  · exact Work.refl s
  · rename_i ep hep
    split
    · exact Work.refl s
    · have hq : Work c s _ := (Piece.remember e ep dest entry.publicKey).work
      split
      · rename_i heq
        rw [heq] at hq
        exact hq
      · rename_i heq
        rw [heq] at hq
        dsimp only
        split
        · exact hq.trans (sendAuthToPeer_work _ e _ _)
        · exact hq

theorem applyRouteEntry_work (e : Env) (via : Endpoint) (sourceKey : K) (s : Ctx K)
    (entry : RouteAdv K) : Work c s (s.applyRouteEntry c e via sourceKey entry) := by
  have tail : ∀ (x : Bool × Ctx K) (dest : Addr), Work c s x.2 → Work c s
      ((let s := x.2.updateRouteEx c e dest via (entry.hops + 1) entry.metricVia entry.sequence
          entry.publicKey
        let s := if x.1 then s.sendPunchRequest c e dest else s
        s.keyAdvertised c dest entry.publicKey) : Ctx K) := by
    intro x dest hx
    have hup := hx.tail (.route e dest via (entry.hops + 1) entry.metricVia entry.sequence entry.publicKey)
    dsimp only
    split
    · exact (hup.trans (sendPunchRequest_work _ e dest)).trans
        (keyAdvertised_work _ _ _)
    · exact hup.trans (keyAdvertised_work _ _ _)
  unfold Ctx.applyRouteEntry
  split
  · exact Work.refl s
  · rename_i dest hdest
    split
    · exact Work.refl s
    · split
      · exact Work.refl s
      · split
        · exact Work.refl s
        · refine tail (if !entry.sameEndpoint via && decide (entry.hops = 1) then
            s.rememberAdvertised c e entry dest else (false, s)) dest ?_
          split
          · exact rememberAdvertised_work s e entry _
          · exact Work.refl s

theorem applyRouteAdv_work (s : Ctx K) (e : Env) (via : Endpoint) (sourceKey : K)
    (entries : List (RouteAdv K)) : Work c s (s.applyRouteAdv c e via sourceKey entries) := by
  unfold Ctx.applyRouteAdv
  split
  · exact Work.refl s
  · apply foldl_invariant (I := Work c s) _ (Work.refl s)
    intro t entry ht
    exact ht.trans (applyRouteEntry_work e via sourceKey t entry)

theorem punchObserved_work (s : Ctx K) (e : Env) (punch : PunchPayload) (origin : Addr) :
    Work c s (s.punchObserved c e punch origin) := by
  have htok : Work c s (s.punchTokenFor c e origin).2 :=
    punchTokenFor_work s e origin
  have hq : Work c s ((s.punchTokenFor c e origin).2.findRoute c e origin).2 :=
    htok.trans (findRoute_work _ e origin)
  unfold Ctx.punchObserved
  dsimp only
  split
  · exact htok
  · split
    · exact hq
    · split
      · exact hq
      · rename_i ep hep
        split
        · exact hq
        · generalize Ctx.holderKey c _ _ origin = key
          have hr := hq.tail (.remember e ep origin key)
          split
          · rename_i heq
            rw [heq] at hr
            exact hr
          · rename_i heq
            rw [heq] at hr
            split
            · exact (hr.trans (sendAuthToPeer_work _ e _ _)).trans
                (advertiseToPeer_work _ e _ rfl)
            · exact hr.trans (advertiseToPeer_work _ e _ rfl)

theorem handlePunch_work (s : Ctx K) (e : Env) (src dst : Addr) (payload : Payload K)
    (rx : Endpoint) : Work c s (s.handlePunch c e src dst payload rx) := by
  unfold Ctx.handlePunch
  split
  · split
    · split
      · exact Work.refl s
      · split
        · exact sendPunchPayload_work s e _ _
        · exact Work.refl s
    · split
      · exact Work.refl s
      · split
        · exact Work.refl s
        · split
          · exact Work.refl s
          · split
            · exact Work.refl s
            · split
              · exact Work.refl s
              · exact punchObserved_work s e _ _
  · exact Work.refl s

end Quiet

section Live

variable {K : Type} {c : Crypto K}

/-- The entry a rejected AUTH message is undone to is active like the one it takes the place of. -/
def Admitted.Live (c : Crypto K) (s : Ctx K) (a : Admitted K) : Prop :=
  ∀ p, a.original = some p → a.slot < s.peers.length → p.active = (s.peerAt c a.slot).active

theorem packetReplaySeen_live {s : Ctx K} {a : Admitted K} (h : a.Live c s) (e : Env)
    (i : Option Nat) (type : PacketType) (sequence packetId : Nat) :
    a.Live c (s.packetReplaySeen c e i type sequence packetId).2 := by
  intro o ho hlt
  obtain hp | ⟨j, n, w, -, hp⟩ := packetReplaySeen_peers (c := c) s e i type sequence packetId
  · rw [hp] at hlt
    rw [h o ho hlt]
    simp only [Ctx.peerAt, hp]
  · rw [hp] at hlt
    simp only [Ctx.setPeer, List.length_set] at hlt
    rw [h o ho hlt]
    simp only [Ctx.peerAt, hp]
    by_cases hj : j = a.slot
    · subst hj
      simp [Ctx.setPeer, hlt]
    · simp [Ctx.setPeer, hj]

end Live

section Receive

variable {K : Type} {c : Crypto K} [DecidableEq K]

theorem answerHello_work (s : Ctx K) (e : Env) (d : Datagram K) (p : Option (Peer K)) :
    Work c s (s.answerHello c e d p) := (Work.refl s).sendOther e _ _ _ _ rfl

/-- Learning the source gives the slot of an active peer, unless its table was freed. -/
theorem learnPeerEndpoint_active {s s' : Ctx K} {e : Env} {ep : Endpoint} {addr : Addr} {i : Nat}
    (h : s.learnPeerEndpoint c e ep addr = (some i, s')) (hi : i < s'.peers.length) :
    (s'.peerAt c i).active = true := by
  unfold Ctx.learnPeerEndpoint at h
  have hset : ∀ (t : Ctx K) (p : Peer K), i < (t.setPeer i p).peers.length →
      (t.setPeer i p).peerAt c i = p := by
    intro t p hi
    simp only [Ctx.setPeer, List.length_set] at hi
    simp [Ctx.setPeer, Ctx.peerAt, hi]
  split at h
  · dsimp only at h
    split at h
    · cases h
    · cases h
      rw [hset _ _ hi]
  · split at h
    · cases h
    · cases h
      exact congrArg Peer.active (hset _ _ hi)

/-- Recording that a peer was seen, where there is one. -/
theorem seen_work (s : Ctx K) (e : Env) (allow : Nat → Ctx K → Admitted K)
    (x : Option Nat × Ctx K) (hx : Work c s x.2) :
    Work c s
      (match x with
        | (none, s') => (none, s')
        | (some i, s') => (some (allow i s'),
          s'.setPeer i { s'.peerAt c i with missedProbes := 0, lastSeenTicks := e.ticks })).2 := by
  obtain ⟨i, s'⟩ := x
  cases i with
  | none => exact hx
  | some i => exact hx.tail (.peer i _ fun _ => rfl)

theorem learnSource_work (s : Ctx K) (e : Env) (d : Datagram K) (src : Addr)
    (p existing : Option Nat) (peerAuthOk : Bool) :
    Work c s (s.learnSource c e d src p existing peerAuthOk).2 := by
  apply seen_work s e (fun i s' => {
    slot := i
    peerAuthOk := peerAuthOk || c.headerHasPeerAuth d.hdr d.payload (some (s'.peerAt c i))
    original := existing.map (s.peerAt c) })
  split
  · exact Work.refl s
  · exact (Piece.learn e _ _).work

theorem undoAuth_work {s : Ctx K} {a : Admitted K} (h : a.Live c s) (src : Addr) :
    Work c s (s.undoAuth c a src) := by
  unfold Ctx.undoAuth
  split
  · rename_i p hp
    exact (Piece.peer _ _ (h p hp)).work
  · exact (Piece.forget src).work

theorem introduce_work (s : Ctx K) (e : Env) (i : Nat) : Work c s (s.introduce c e i) := by
  unfold Ctx.introduce
  split
  · exact (advertiseToPeer_work s e _ rfl).trans (advertiseAsnsToPeer_work _ e _)
  · exact Work.refl s

theorem deriveSessionKey_active (s : Ctx K) (p : Peer K) :
    (s.deriveSessionKey c p).active = p.active := by
  unfold Ctx.deriveSessionKey
  split
  · rfl
  · split
    · rfl
    · dsimp only
      split <;> rfl

theorem establish_work (s : Ctx K) (e : Env) (i : Nat) (src : Addr) (ep : Endpoint) :
    Work c s (let s := s.setPeer i (s.deriveSessionKey c (s.peerAt c i))
      if s.peerAddrVerified c (s.peerAt c i) then s.updateRoute c e src ep 1 else s) := by
  have hkey : Work c s (s.setPeer i (s.deriveSessionKey c (s.peerAt c i))) :=
    (Piece.peer i _ fun _ => deriveSessionKey_active s (s.peerAt c i)).work
  exact (hkey.tail (.route e src ep 1 1 0 c.zero)).ite hkey

theorem authStep_work (s : Ctx K) (e : Env) (d : Datagram K) (i : Nat) (src : Addr) :
    Work c s (s.authStep c e d i src) := by
  have hest := establish_work (c := c) s e i src d.source
  unfold Ctx.authStep
  split
  · exact sendAuthToPeer_work s e i _
  · exact (hest.trans (sendAuthToPeer_work _ e i _)).trans (introduce_work _ e i)
  · exact hest.trans (introduce_work _ e i)
  · exact Work.refl s

theorem answerPing_work (s : Ctx K) (e : Env) (d : Datagram K) (i : Nat) (src : Addr) :
    Work c s (s.answerPing c e d i src) := by
  have hq := findRoute_work (c := c) s e src
  unfold Ctx.answerPing
  dsimp only
  split
  · exact (Work.refl s).sendOther e _ _ _ _ rfl
  · split
    · split
      · exact hq.sendOther e _ _ _ _ rfl
      · exact hq
    · exact hq

theorem notePong_work (s : Ctx K) (d : Datagram K) (src : Addr) : Work c s (s.notePong d src) := by
  unfold Ctx.notePong
  split
  · split
    · exact (Piece.book s.nextSequence s.draws _).work
    · exact Work.refl s
  · exact Work.refl s

/-- Sending a signed header, where it can be signed. -/
theorem sendSigned_work {s t : Ctx K} (d : Datagram K) (hdr : Header K) (key : K) (ep : Endpoint)
    (htype : hdr.type.isAuth = false) (ht : Work c s t) :
    Work c s (match c.signHeaderKey hdr d.payload key with
      | some hdr => t.sendTo ep hdr d.payload
      | none => t) := by
  unfold Crypto.signHeaderKey
  split
  · rename_i heq
    split at heq
    · cases heq
    · cases heq
      exact ht.sendTo _ _ _ (makes_other htype)
  · exact ht

theorem forward_work (s : Ctx K) (e : Env) (d : Datagram K) (dst : Addr)
    (ht : d.hdr.type.isAuth = false) : Work c s (s.forward c e d dst) := by
  unfold Ctx.forward Ctx.prepareHeader Ctx.draw
  split
  · exact Work.refl s
  · dsimp only
    have hstart : Work c s _ :=
      (Piece.book ((s.nextSequence + 1) % 2 ^ 64) (s.draws + 1 + 1) s.ping).work
    have hq := hstart.trans (findRoute_work _ e dst)
    split
    · split
      · split
        · exact sendSigned_work d _ _ _ ht hq
        · exact hq
      · exact hq
    · apply foldl_invariant (I := Work c s) _ hq
      intro t p htq
      exact sendSigned_work d _ _ _ ht htq

theorem dispatch_work (s : Ctx K) (e : Env) (d : Datagram K) (i : Nat) (src dst : Addr)
    (trusted routeAllowed : Bool) (ht : d.hdr.type.isAuth = false) :
    Work c s (s.dispatch c e d i src dst trusted routeAllowed) := by
  have hrefl := Work.refl (c := c) s
  have hforward := forward_work (c := c) s e d dst ht
  have hgreet := sendAuthToPeer_work (c := c) s e i .authHello
  unfold Ctx.dispatch
  cases d.hdr.type with
  | hello => exact answerHello_work s e d _
  | peerReq => exact (advertiseToPeer_work s e _ rfl).ite (hgreet.ite hrefl)
  | peerAck => exact hgreet.ite hrefl
  | routeAdv => exact hrefl
  | ping => exact ((answerPing_work s e d i src).ite hrefl).ite (hforward.ite hrefl)
  | pong => exact ((notePong_work s d src).ite hrefl).ite (hforward.ite hrefl)
  | punch =>
    have hpunch := handlePunch_work (c := c) s e src dst d.payload d.source
    exact hrefl.ite (hpunch.ite (hpunch.trans (forward_work _ e d dst ht)))
  | _ => exact hrefl.ite (hforward.ite hrefl)

theorem receiveOther_work (s : Ctx K) (e : Env) (d : Datagram K) (a : Admitted K) (src dst : Addr)
    (ht : d.hdr.type.isAuth = false) : Work c s (s.receiveOther c e d a src dst) := by
  have hrefl := Work.refl (c := c) s
  unfold Ctx.receiveOther
  apply Work.ite hrefl
  have hroute : Work c s (s.updateRoute c e src d.source 1) := (Piece.route e _ _ _ _ _ _).work
  dsimp only
  generalize (a.peerAuthOk && (s.peerAt c a.slot).inSession &&
    s.peerAddrVerified c (s.peerAt c a.slot)) = allowed
  generalize hs₁ : (if allowed then s.updateRoute c e src d.source 1 else s) = s₁
  have h₁ : Work c s s₁ := hs₁ ▸ hroute.ite hrefl
  generalize hs₂ : (if d.hdr.type.carriesRoutes && allowed then
    s₁.applyRouteAdv c e d.source _ _ else s₁) = s₂
  have h₂ : Work c s s₂ := hs₂ ▸ (h₁.trans (applyRouteAdv_work s₁ e _ _ _)).ite h₁
  apply Work.ite
  · refine Work.ite ?_ h₂
    have h₃ := h₂.tail (.asnAdv e (s.peerAt c a.slot).publicKey d.payload.asnEntries)
    have hroute₃ := h₃.tail (.route e src d.source 1 1 0 c.zero)
    exact (hroute₃.trans (advertiseToPeer_work _ e _ rfl)).ite h₃
  · exact h₂.trans (dispatch_work s₂ e d a.slot src dst _ _ ht)

/-- The payload is one `ipv67_verify_auth_payload` is called for and accepts. -/
def Ctx.acceptsAuth (c : Crypto K) (s : Ctx K) (d : Datagram K) (a : Admitted K) (src : Addr) : Bool :=
  match d.payload with
  | .auth auth => authPayloadSize ≤ d.hdr.payloadLen &&
      s.authAccepted c (s.peerAt c a.slot) auth d.hdr.type src
  | _ => false

/-- Where `ipv67_packet_replay_seen` is called for a datagram: the slot it is given, and the context. -/
def Ctx.replayPoint (c : Crypto K) (s : Ctx K) (e : Env) (d : Datagram K) :
    Option (Option Nat × Ctx K) :=
  match d.parse with
  | none => none
  | some (src, _) =>
    if !s.verifyHeader c d.hdr d.payload ((s.findPeer d.source).map (s.peerAt c)) then none
    else if !d.hdr.type.isAuth then some (s.findPeer d.source, s)
    else
      match s.receiveHead c e d src with
      | (some a, s') => if s'.acceptsAuth c d a src then some (some a.slot, s') else none
      | (none, _) => none

theorem head_auth_work (s : Ctx K) (e : Env) (d : Datagram K) (src : Addr)
    (ht : d.hdr.type.isAuth = true) : Work c s (s.receiveHead c e d src).2 := by
  unfold Ctx.receiveHead
  dsimp only
  split
  · exact Work.refl s
  · split
    · exact Work.refl s
    · split
      · dsimp only
        split
        · exact answerHello_work s e d none
        · exact Work.refl s
      · exact learnSource_work s e d src _ _ _

theorem head_unverified {s : Ctx K} {d : Datagram K} (e : Env) (src : Addr)
    (hv : s.verifyHeader c d.hdr d.payload ((s.findPeer d.source).map (s.peerAt c)) = false) :
    s.receiveHead c e d src = (none, s) := by
  unfold Ctx.receiveHead
  dsimp only
  rw [hv]
  rfl

/-- The peer a datagram is learnt for is active. -/
theorem head_live {s s' : Ctx K} {e : Env} {d : Datagram K} {src : Addr} {a : Admitted K}
    (h : s.receiveHead c e d src = (some a, s')) : a.Live c s' := by
  have hlearn : ∀ (t : Ctx K) (p existing : Option Nat) (ok : Bool),
      (∀ i, p = some i → (t.peerAt c i).active = true) →
      (∀ i, existing = some i → (t.peerAt c i).active = true) →
      t.learnSource c e d src p existing ok = (some a, s') → a.Live c s' := by
    intro t p existing ok hp hex h
    unfold Ctx.learnSource at h
    dsimp only at h
    split at h
    · cases h
    · rename_i i t' heq
      cases h
      intro o ho hlt
      simp only [Ctx.setPeer, List.length_set] at hlt
      have hact : (t'.peerAt c i).active = true := by
        split at heq
        · cases heq
          exact hp i rfl
        · exact learnPeerEndpoint_active heq hlt
      obtain ⟨j, hj, rfl⟩ := Option.map_eq_some_iff.mp ho
      rw [hex j hj, peerAt_setPeer hlt]
      exact hact.symm
  have hfind : ∀ (t : Ctx K) (ep : Endpoint) (i : Nat), t.findPeer ep = some i →
      (t.peerAt c i).active = true := by
    intro t ep i hi
    obtain ⟨p, hp, hact, -⟩ := findPeer_some hi
    rw [peerAt_of_some hp, hact]
  have hboth : ∀ (t : Ctx K) (ep : Endpoint) (i : Nat),
      (t.findPeer ep).or (t.findPeerAddr src) = some i → (t.peerAt c i).active = true := by
    intro t ep i hi
    obtain hi | ⟨-, hi⟩ := Option.or_eq_some_iff.mp hi
    · exact hfind t ep i hi
    · obtain ⟨p, hp, hact, -⟩ := findPeerAddr_some hi
      rw [peerAt_of_some hp, hact]
  unfold Ctx.receiveHead at h
  dsimp only at h
  split at h
  · cases h
  · have hpeers : (if d.hdr.type.isAuth = true then (false, s)
        else s.packetReplaySeen c e (s.findPeer d.source) d.hdr.type d.hdr.sequence
          d.hdr.packetId).2.findPeer d.source = s.findPeer d.source := by
      split
      · rfl
      · exact packetReplaySeen_findPeer s e _ _ _ _ _
    revert h hpeers
    generalize (if d.hdr.type.isAuth = true then (false, s) else _) = x
    intro h hpeers
    split at h
    · cases h
    · split at h
      · cases h
      · exact hlearn _ _ _ _ (fun i hi => hfind _ d.source i (hpeers.trans hi))
          (fun i hi => hboth _ d.source i (by rwa [hpeers])) h

theorem receiveAuth_rejected {s : Ctx K} {d : Datagram K} {a : Admitted K} {src : Addr} (e : Env)
    (h : s.acceptsAuth c d a src = false) : s.receiveAuth c e d a src = s.undoAuth c a src := by
  unfold Ctx.acceptsAuth at h
  unfold Ctx.receiveAuth
  split
  · rename_i auth hpay
    rw [hpay] at h
    simp only [Bool.and_eq_false_iff, decide_eq_false_iff_not, Nat.not_le] at h
    cases h with
    | inl hlen => rw [if_pos hlen]
    | inr hacc =>
      rw [hacc]
      split
      · rfl
      · rfl
  · rfl

theorem receiveAuth_accepted {s : Ctx K} {d : Datagram K} {a : Admitted K} {src : Addr} (e : Env)
    (hlive : a.Live c s) (h : s.acceptsAuth c d a src = true) :
    Work c (s.packetReplaySeen c e (some a.slot) d.hdr.type d.hdr.sequence d.hdr.packetId).2
      (s.receiveAuth c e d a src) := by
  unfold Ctx.acceptsAuth at h
  unfold Ctx.receiveAuth
  split
  · rename_i auth hpay
    rw [hpay] at h
    simp only [Bool.and_eq_true, decide_eq_true_eq] at h
    rw [if_neg (Nat.not_lt.mpr h.1), h.2]
    simp only [Bool.not_true, Bool.false_eq_true, if_false]
    split
    · exact undoAuth_work (packetReplaySeen_live hlive e _ _ _ _) src
    · apply Work.trans (Piece.work (.peer a.slot _ _)) (authStep_work _ e d a.slot src)
      intro _
      rfl
  · rename_i hpay
    cases hp : d.payload with
    | auth auth => exact absurd hp (hpay auth)
    | _ =>
      rw [hp] at h
      cases h

/-- What the head of the receive path does with a verified datagram of another type. -/
theorem head_other_work {s : Ctx K} {d : Datagram K} (e : Env) (src : Addr)
    (hv : s.verifyHeader c d.hdr d.payload ((s.findPeer d.source).map (s.peerAt c)) = true)
    (ht : d.hdr.type.isAuth = false) :
    Work c (s.packetReplaySeen c e (s.findPeer d.source) d.hdr.type d.hdr.sequence d.hdr.packetId).2
      (s.receiveHead c e d src).2 := by
  unfold Ctx.receiveHead
  dsimp only
  rw [hv, ht]
  simp only [Bool.not_true, Bool.false_eq_true, if_false]
  split
  · exact Work.refl _
  · split
    · exact (answerHello_work _ e d none).ite (Work.refl _)
    · exact learnSource_work _ e d src _ _ _

/-- Only `ipv67_packet_replay_seen` writes the list of identifiers, and it is called at most once. -/
theorem receive_frame (s : Ctx K) (e : Env) (d : Datagram K) :
    (s.replayPoint c e d = none ∧ Work c s (s.receive c e d)) ∨
    ∃ i t, s.replayPoint c e d = some (i, t) ∧ Work c s t ∧
      Work c (t.packetReplaySeen c e i d.hdr.type d.hdr.sequence d.hdr.packetId).2
        (s.receive c e d) := by
  unfold Ctx.receive Ctx.replayPoint
  cases d.parse with
  | none => exact .inl ⟨rfl, Work.refl s⟩
  | some addrs =>
    obtain ⟨src, dst⟩ := addrs
    dsimp only
    cases hv : s.verifyHeader c d.hdr d.payload ((s.findPeer d.source).map (s.peerAt c)) with
    | false =>
      rw [head_unverified e src hv]
      exact .inl ⟨rfl, Work.refl s⟩
    | true =>
      cases ht : d.hdr.type.isAuth with
      | true =>
        have hhead := head_auth_work (c := c) s e d src ht
        simp only [Bool.not_true, Bool.false_eq_true, if_false, if_true]
        generalize hhd : s.receiveHead c e d src = x at hhead ⊢
        obtain ⟨a, s'⟩ := x
        cases a with
        | none => exact .inl ⟨rfl, hhead⟩
        | some a =>
          dsimp only
          cases hacc : s'.acceptsAuth c d a src with
          | true => exact .inr ⟨_, _, rfl, hhead, receiveAuth_accepted e (head_live hhd) hacc⟩
          | false =>
            rw [receiveAuth_rejected e hacc]
            exact .inl ⟨rfl, hhead.trans (undoAuth_work (head_live hhd) src)⟩
      | false =>
        refine .inr ⟨_, _, rfl, Work.refl s, ?_⟩
        have hhead := head_other_work (c := c) e src hv ht
        generalize s.receiveHead c e d src = x at hhead ⊢
        obtain ⟨a, s'⟩ := x
        cases a with
        | none => exact hhead
        | some a => exact hhead.trans (receiveOther_work s' e d a src dst ht)

end Receive

end Lebirun.Ipv67
