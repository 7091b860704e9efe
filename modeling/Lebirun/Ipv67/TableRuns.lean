import Lebirun.Ipv67.Consistency
import Lebirun.Ipv67.Receive

namespace Lebirun.Ipv67
open Machine
set_option autoImplicit true

section Removal

variable {K : Type} {c : Crypto K} {s : Ctx K} {i : Nat} {p : Peer K}

theorem peerAt_of_some (hp : s.peers[i]? = some p) : s.peerAt c i = p := Slots.getD_of_some hp

theorem getElem?_of_active (h : (s.peerAt c i).active = true) :
    s.peers[i]? = some (s.peerAt c i) := by
  cases hp : s.peers[i]? with
  | some p => rw [peerAt_of_some hp]
  | none =>
    rw [Ctx.peerAt, List.getD_eq_getElem?_getD, hp] at h
    cases h

theorem findPeer_some {ep : Endpoint} (h : s.findPeer ep = some i) :
    ∃ p, s.peers[i]? = some p ∧ p.active = true ∧ p.endpoint = ep := by
  obtain ⟨p, hp, hpe⟩ := Slots.find_some h
  simp only [Bool.and_eq_true, decide_eq_true_eq] at hpe
  exact ⟨p, hp, hpe⟩

theorem findPeer_none {ep : Endpoint} (h : s.findPeer ep = none) {j : Nat} {x : Peer K}
    (hx : s.peers[j]? = some x) (hxa : x.active = true) : x.endpoint ≠ ep := by
  intro hep
  have := Slots.find_none h hx
  simp [hxa, hep] at this

theorem findPeerAddr_some {addr : Addr} (h : s.findPeerAddr addr = some i) :
    ∃ p, s.peers[i]? = some p ∧ p.active = true ∧ p.addr = addr := by
  unfold Ctx.findPeerAddr at h
  split at h
  · cases h
  · obtain ⟨p, hp, hpa⟩ := Slots.find_some h
    simp only [Bool.and_eq_true, addrEq_iff] at hpa
    exact ⟨p, hp, hpa⟩

theorem findPeerAddr_none {addr : Addr} (h : s.findPeerAddr addr = none) (hz : addr.zone1 ≠ [])
    {j : Nat} {x : Peer K} (hx : s.peers[j]? = some x) (hxa : x.active = true) : x.addr ≠ addr := by
  intro ha
  rw [Ctx.findPeerAddr, if_neg hz] at h
  have := Slots.find_none h hx
  simp [hxa, ha, addrEq_self] at this

theorem PeersOk.count_pos {peers : List (Peer K)} {count : Nat} (h : PeersOk peers count)
    (hp : peers[i]? = some p) (hact : p.active = true) : count ≠ 0 := by
  rw [h.counted]
  exact Nat.pos_iff_ne_zero.mp (List.countP_pos_iff.mpr ⟨p, List.mem_of_getElem? hp, hact⟩)

theorem Consistent.dropRoutes (h : Consistent s) (gone : Route K → Bool) :
    Consistent (s.dropRoutes c gone) :=
  ⟨h.peers, h.routes.drop c gone, h.asns, h.lost⟩

theorem release_peers (h : s.peerCount ≠ 0) : s.releaseEmptyTables.peers = s.peers := if_neg h

theorem removeRoutesForPeer_peers (h : s.peerCount ≠ 0) (ep : Endpoint) :
    (s.removeRoutesForPeer c ep).peers = s.peers ∧
      (s.removeRoutesForPeer c ep).peerCount = s.peerCount := by
  unfold Ctx.removeRoutesForPeer
  split
  · exact ⟨rfl, rfl⟩
  · exact ⟨release_peers h, rfl⟩

theorem Consistent.removeRoutesForPeer (h : Consistent s) (ep : Endpoint) :
    Consistent (s.removeRoutesForPeer c ep) := by
  unfold Ctx.removeRoutesForPeer
  split
  · exact h
  · exact (h.dropRoutes _).release

variable [DecidableEq K]

theorem removeAsnClaimsForPeer_peers (h : s.peerCount ≠ 0) (key : K) :
    (s.removeAsnClaimsForPeer c key).peers = s.peers ∧
      (s.removeAsnClaimsForPeer c key).peerCount = s.peerCount := by
  unfold Ctx.removeAsnClaimsForPeer
  split
  · exact ⟨rfl, rfl⟩
  · dsimp only
    split
    · exact ⟨rfl, rfl⟩
    · exact ⟨if_neg h, rfl⟩

/-- Forgetting an active peer empties its slot, and takes its routes and claims away. -/
theorem forgetPeer_spec (h : Consistent s) (hp : s.peers[i]? = some p) (hact : p.active = true) :
    Consistent (s.forgetPeer c i) ∧ (s.forgetPeer c i).peers = s.peers.set i (.zero c) ∧
      (s.forgetPeer c i).peerCount = s.peerCount - 1 := by
  have hpos := h.peers.count_pos hp hact
  unfold Ctx.forgetPeer
  dsimp only
  generalize (s.peerAt c i).endpoint = ep
  have h₁ := h.removeRoutesForPeer (c := c) ep
  obtain ⟨hp₁, hc₁⟩ := removeRoutesForPeer_peers (c := c) hpos ep
  revert h₁ hp₁ hc₁
  generalize s.removeRoutesForPeer c ep = s₁
  intro h₁ hp₁ hc₁
  have h₂ := h₁.removeAsnClaimsForPeer (c := c) (s₁.peerAt c i).publicKey
  obtain ⟨hp₂, hc₂⟩ := removeAsnClaimsForPeer_peers (c := c) (hc₁ ▸ hpos) (s₁.peerAt c i).publicKey
  revert h₂ hp₂ hc₂
  generalize s₁.removeAsnClaimsForPeer c (s₁.peerAt c i).publicKey = s₂
  intro h₂ hp₂ hc₂
  have hslot : s₂.peers[i]? = some p := by rw [hp₂, hp₁, hp]
  refine ⟨⟨h₂.peers.clear c hslot hact, h₂.routes, h₂.asns, h₂.lost⟩, ?_, ?_⟩
  · change s₂.peers.set i _ = _
    rw [hp₂, hp₁]
  · change s₂.peerCount - 1 = _
    rw [hc₂, hc₁]

theorem Consistent.removePeer (h : Consistent s) (ep : Endpoint) :
    Consistent (s.removePeer c ep).2 := by
  unfold Ctx.removePeer
  split
  · exact h
  · rename_i i hi
    obtain ⟨p, hp, hact, -⟩ := findPeer_some hi
    exact (forgetPeer_spec h hp hact).1.release

theorem Consistent.removePeerByAddr (h : Consistent s) (addr : Addr) :
    Consistent (s.removePeerByAddr c addr).2 := by
  unfold Ctx.removePeerByAddr
  split
  · exact h
  · rename_i i hi
    obtain ⟨p, hp, hact⟩ := Slots.find_some hi
    simp only [Bool.and_eq_true] at hact
    exact (forgetPeer_spec h hp hact.1).1.release

theorem Consistent.cleanupPeer (h : Consistent s) (e : Env) (i : Nat) :
    Consistent (s.cleanupPeer c e i) := by
  unfold Ctx.cleanupPeer
  split
  · exact h
  · rename_i hact
    split
    · exact h
    · have hact : (s.peerAt c i).active = true := by simpa using hact
      exact (forgetPeer_spec h (getElem?_of_active hact) hact).1

theorem Consistent.cleanupStale (h : Consistent s) (e : Env) : Consistent (s.cleanupStale c e) := by
  unfold Ctx.cleanupStale
  dsimp only
  split
  · exact h.dropRoutes _
  · apply Consistent.release
    exact foldl_invariant (fun s i hs => hs.cleanupPeer e i) (h.dropRoutes _) _

end Removal

section Entering

variable {K : Type} {c : Crypto K} {s : Ctx K}

/-- An active slot of the grown table is one of the old. -/
theorem grown_active {n j : Nat} {x : Peer K}
    (hx : (s.peers ++ List.replicate n (Peer.zero c))[j]? = some x) (hxa : x.active = true) :
    s.peers[j]? = some x := by
  by_cases hj : j < s.peers.length
  · rwa [List.getElem?_append_left hj] at hx
  · rw [List.getElem?_append_right (Nat.le_of_not_lt hj), List.getElem?_replicate] at hx
    split at hx
    · cases hx
      cases hxa
    · cases hx

/-- No peer but the one at the endpoint has the address. -/
def Ctx.AddrFree (s : Ctx K) (ep : Endpoint) (addr : Addr) : Prop :=
  ∀ i, s.findPeer ep = some i → ∀ j x, s.peers[j]? = some x → x.active = true → x.addr = addr →
    addr.zone1 ≠ [] → j = i

/-- A known peer is given the endpoint and the address. -/
theorem PeersOk.relocate {i : Nat} {p' : Peer K} {ep : Endpoint} {addr : Addr}
    (h : PeersOk s.peers s.peerCount) (hi : (s.findPeer ep).or (s.findPeerAddr addr) = some i)
    (hfree : s.AddrFree ep addr) (hact : p'.active = true) (hep : p'.endpoint = ep)
    (haddr : p'.addr = addr) : PeersOk (s.peers.set i p') s.peerCount := by
  have hslot : ∃ p, s.peers[i]? = some p ∧ p.active = true ∧
      (∀ (j : Nat) (x : Peer K), s.peers[j]? = some x → x.active = true → x.endpoint = ep → j = i) ∧
      ∀ (j : Nat) (x : Peer K), s.peers[j]? = some x → x.active = true → x.addr = addr →
        addr.zone1 ≠ [] → j = i := by
    cases hf : s.findPeer ep with
    | some i' =>
      rw [hf] at hi
      cases hi
      obtain ⟨p, hp, hpa, hpe⟩ := findPeer_some hf
      refine ⟨p, hp, hpa, ?_, hfree i hf⟩
      intro j x hx hxa hxe
      exact h.endpoint_inj hx hp hxa hpa (hxe.trans hpe.symm)
    | none =>
      rw [hf] at hi
      obtain ⟨p, hp, hpa, hpd⟩ := findPeerAddr_some hi
      refine ⟨p, hp, hpa, ?_, ?_⟩
      · intro j x hx hxa hxe
        exact absurd hxe (findPeer_none hf hx hxa)
      · intro j x hx hxa hxd hz
        exact h.addr_inj hx hp hxa hpa (hxd.trans hpd.symm) (hpd ▸ hz)
  obtain ⟨p, hp, hpa, heps, haddrs⟩ := hslot
  have := h.put hp hact (fun j x hx hxa hxe => heps j x hx hxa (hxe.trans hep))
    (fun j x hx hxa hxd hz => haddrs j x hx hxa (hxd.trans haddr) (haddr ▸ hz))
  simpa [hpa] using this

/-- A free slot is given to a peer with a new endpoint and a new address. -/
theorem PeersOk.enter {i n : Nat} {p p' : Peer K} (h : PeersOk s.peers s.peerCount)
    (hp : (s.peers ++ List.replicate n (Peer.zero c))[i]? = some p) (hpa : p.active = false)
    (hep : s.findPeer p'.endpoint = none) (haddr : s.findPeerAddr p'.addr = none)
    (hact : p'.active = true) :
    PeersOk ((s.peers ++ List.replicate n (Peer.zero c)).set i p') (s.peerCount + 1) := by
  have := (h.grow c n).put hp hact
    (fun j x hx hxa hxe => absurd hxe (findPeer_none hep (grown_active hx hxa) hxa))
    (fun j x hx hxa hxd hz => absurd hxd (findPeerAddr_none haddr hz (grown_active hx hxa) hxa))
  simpa [hpa] using this

theorem Consistent.withPeers (h : Consistent s) {peers : List (Peer K)} {n k : Nat}
    (hp : PeersOk peers n) : Consistent { s with peers := peers, peerCount := n, allocs := k } :=
  ⟨hp, h.routes, h.asns, h.lost⟩

theorem Consistent.keepPeer (h : Consistent s) {i : Nat} {p' : Peer K}
    (hact : p'.active = (s.peerAt c i).active) (hep : p'.endpoint = (s.peerAt c i).endpoint)
    (haddr : p'.addr = (s.peerAt c i).addr) : Consistent (s.setPeer i p') := by
  refine ⟨?_, h.routes, h.asns, h.lost⟩
  change PeersOk (s.peers.set i p') s.peerCount
  cases hp : s.peers[i]? with
  | some p =>
    rw [peerAt_of_some hp] at hact hep haddr
    exact h.peers.keep hp hact hep haddr
  | none =>
    rw [List.set_eq_of_length_le (List.getElem?_eq_none_iff.mp hp)]
    exact h.peers

/-- The slot of no peer is zeroed. -/
theorem PeersOk.wipe {peers : List (Peer K)} {count i : Nat} {p : Peer K} (h : PeersOk peers count)
    (hp : peers[i]? = some p) (hpa : p.active = false) : PeersOk (peers.set i (.zero c)) count := by
  constructor
  · have hset := Slots.countP_set (p := fun p : Peer K => p.active) (b := Peer.zero c) hp
    have hz : (Peer.zero c).active = false := rfl
    rw [hpa, hz, ← h.counted] at hset
    exact (Nat.add_right_cancel hset).symm
  · apply h.endpoints.set
    intro j k hk
    cases hk
  · apply h.addrs.set
    intro j k hk
    cases hk

variable [DecidableEq K]

/-- With an accurate counter a slot is found only by growing the table, or free. -/
theorem findPeerSlot_cases (h : PeersOk s.peers s.peerCount) (e : Env) :
    (∃ k n, s.findPeerSlot c e = (none, { s with
        peers := s.peers ++ List.replicate n (Peer.zero c), allocs := k })) ∨
      ∃ i k n p, s.findPeerSlot c e = (some i, { s with
          peers := s.peers ++ List.replicate n (Peer.zero c), allocs := k }) ∧
        (s.peers ++ List.replicate n (Peer.zero c))[i]? = some p ∧ p.active = false := by
  obtain ⟨n, hn, hcap⟩ := ensureCap_cases e s.allocs s.peers (Peer.zero c) (s.peerCount + 1)
  unfold Ctx.findPeerSlot Ctx.ensurePeerCap
  revert hn hcap
  obtain ⟨ok, peers, k⟩ := ensureCap e s.allocs s.peers (Peer.zero c) (s.peerCount + 1)
  intro hn hcap
  dsimp only at hn hcap ⊢
  subst hn
  cases ok with
  | false => exact .inl ⟨k, n, rfl⟩
  | true =>
    have hcap := hcap rfl
    have hroom : (s.peers ++ List.replicate n (Peer.zero c)).countP (·.active) <
        (s.peers ++ List.replicate n (Peer.zero c)).length := by
      rw [Slots.countP_grow rfl, ← h.counted, List.length_append, List.length_replicate]
      omega
    obtain ⟨i, hi⟩ := Slots.exists_free hroom
    obtain ⟨p, hp, hfree⟩ := Slots.find_some hi
    simp only [Bool.not_true, Bool.false_eq_true, if_false, hi]
    exact .inr ⟨i, k, n, p, rfl, hp, by simpa using hfree⟩

/-- The identity check of `ipv67_learn_peer_endpoint` turns the address down. -/
def Ctx.refusesAddr (c : Crypto K) (s : Ctx K) (ep : Endpoint) (addr : Addr) : Prop :=
  ∃ i, (s.findPeer ep).or (s.findPeerAddr addr) = some i ∧ (s.peerAt c i).addr.zone1 ≠ [] ∧
    (s.peerAt c i).addr ≠ addr ∧ c.present (s.peerAt c i).publicKey = true ∧
    s.peerPublicKeyAddrAllowed c (s.peerAt c i) (s.peerAt c i).publicKey addr = false

theorem Consistent.learnPeerEndpoint (h : Consistent s) (e : Env) (ep : Endpoint) (addr : Addr)
    (hfree : s.AddrFree ep addr ∨ s.refusesAddr c ep addr) :
    Consistent (s.learnPeerEndpoint c e ep addr).2 := by
  unfold Ctx.learnPeerEndpoint
  split
  · rename_i i hi
    dsimp only
    split
    · exact h
    · rename_i hok
      refine ⟨h.peers.relocate hi ?_ rfl rfl rfl, h.routes, h.asns, h.lost⟩
      obtain hfree | ⟨i', hi', hz, hne, hk, hno⟩ := hfree
      · exact hfree
      · cases hi.symm.trans hi'
        exfalso
        apply hok
        simp [hz, hne, hk, hno, ← Bool.not_eq_true, addrEq_iff]
  · rename_i hnone
    obtain ⟨hep, haddr⟩ := Option.or_eq_none_iff.mp hnone
    obtain ⟨k, n, heq⟩ | ⟨i, k, n, p, heq, hp, hpa⟩ := findPeerSlot_cases (c := c) h.peers e
    · rw [heq]
      exact h.withPeers (h.peers.grow c n)
    · rw [heq]
      exact h.withPeers (h.peers.enter hp hpa hep haddr rfl)

theorem applyPublicKey_same (p : Peer K) (key : K) :
    (p.applyPublicKey c key).active = p.active ∧ (p.applyPublicKey c key).endpoint = p.endpoint ∧
      (p.applyPublicKey c key).addr = p.addr := by
  unfold Peer.applyPublicKey
  split <;> exact ⟨rfl, rfl, rfl⟩

/-- The checks of `ipv67_remember_peer_candidate` turn the candidate down. -/
def Ctx.refusesCandidate (c : Crypto K) (s : Ctx K) (ep : Endpoint) (addr : Addr) (key : K) : Prop :=
  addr.zone1 = [] ∨ ep.port = 0 ∨ ep.isUnset = true ∨ ep.isLoopback = true ∨ s.self = some addr ∨
    ∃ i, (s.findPeer ep).or (s.findPeerAddr addr) = some i ∧ c.present key = true ∧
      s.peerPublicKeyAddrAllowed c (s.peerAt c i) key addr = false

theorem Consistent.rememberPeerCandidate (h : Consistent s) (e : Env) (ep : Endpoint) (addr : Addr)
    (key : K) (hfree : s.AddrFree ep addr ∨ s.refusesCandidate c ep addr key) :
    Consistent (s.rememberPeerCandidate c e ep addr key).2 := by
  unfold Ctx.rememberPeerCandidate
  split
  · exact h
  · rename_i hunset
    split
    · exact h
    · rename_i hzero
      split
      · exact h
      · rename_i hloop
        split
        · exact h
        · rename_i hself
          split
          · rename_i i hi
            dsimp only
            split
            · exact h
            · rename_i hok
              obtain ⟨hact, hep, haddr⟩ := applyPublicKey_same (c := c) { s.peerAt c i with
                endpoint := ep, addr := addr, active := true, lastSeenTicks := e.ticks } key
              refine ⟨h.peers.relocate hi ?_ hact hep haddr, h.routes, h.asns, h.lost⟩
              obtain hfree | hrefuse := hfree
              · exact hfree
              · exfalso
                simp only [Bool.or_eq_true, decide_eq_true_eq, not_or] at hunset
                obtain hr | hr | hr | hr | hr | ⟨i', hi', hk, hno⟩ := hrefuse
                · exact hunset.1 hr
                · exact hunset.2 hr
                · exact hzero hr
                · exact hloop hr
                · exact hself hr
                · cases hi.symm.trans hi'
                  exact hok (by simp [hk, hno])
          · rename_i hnone
            obtain ⟨hep, haddr⟩ := Option.or_eq_none_iff.mp hnone
            obtain ⟨k, n, heq⟩ | ⟨i, k, n, p, heq, hp, hpa⟩ :=
              findPeerSlot_cases (c := c) h.peers e
            · rw [heq]
              exact h.withPeers (h.peers.grow c n)
            · rw [heq]
              dsimp only
              split
              · exact h.withPeers ((h.peers.grow c n).wipe hp hpa)
              · obtain ⟨hact, hep', haddr'⟩ :=
                  applyPublicKey_same (c := c) (Peer.fresh c e ep addr) key
                exact h.withPeers (h.peers.enter hp hpa (hep' ▸ hep) (haddr' ▸ haddr) hact)

theorem Consistent.updateRoute (h : Consistent s) (e : Env) (dest : Addr) (ep : Endpoint)
    (hops : Nat) : Consistent (s.updateRoute c e dest ep hops) := h.updateRouteEx c e dest ep _ _ _ _

theorem routeToLearned_spec (h : RoutesOk s.routes s.routeCount) (e : Env) (ep : Endpoint)
    (learned : Option Addr) : ∃ routes n k q, s.routeToLearned c e ep learned =
      { s with routes := routes, routeCount := n, allocs := k, routeSequence := q } ∧
      RoutesOk routes n := by
  cases learned with
  | none => exact ⟨_, _, _, _, rfl, h⟩
  | some a => exact updateRouteEx_spec c h e a ep 1 1 0 c.zero

theorem Consistent.routeToLearned (h : Consistent s) (e : Env) (ep : Endpoint)
    (learned : Option Addr) : Consistent (s.routeToLearned c e ep learned) := by
  obtain ⟨routes, n, k, q, heq, hr⟩ := routeToLearned_spec (c := c) h.routes e ep learned
  rw [heq]
  exact h.withRoutes hr

theorem Consistent.addPeerEndpoint (h : Consistent s) (e : Env) (ep : Endpoint) (addr : Option Addr)
    (hfree : ∀ a, s.learnedAddr ep addr = some a → s.AddrFree ep a) :
    Consistent (s.addPeerEndpoint c e ep addr).2 := by
  unfold Ctx.addPeerEndpoint
  split
  · exact h
  · revert hfree
    generalize s.learnedAddr ep addr = learned
    intro hfree
    dsimp only
    split
    · rename_i i hi
      obtain ⟨p, hp, hpa, hpe⟩ := findPeer_some hi
      have hat : s.peerAt c i = p := peerAt_of_some hp
      have hmoved : Consistent
          (s.setPeer i { s.peerAt c i with addr := learned.getD (s.peerAt c i).addr }) := by
        cases learned with
        | none => exact h.keepPeer (c := c) rfl rfl rfl
        | some a =>
          refine ⟨h.peers.relocate (by rw [hi]; rfl) (hfree a rfl) ?_ ?_ rfl, h.routes, h.asns, h.lost⟩
          · rw [hat]
            exact hpa
          · rw [hat]
            exact hpe
      exact (hmoved.routeToLearned (c := c) e ep learned).keepPeer (c := c) rfl rfl rfl
    · rename_i hnone
      split
      · rename_i i hbind
        obtain ⟨a, rfl, hi⟩ := Option.bind_eq_some_iff.mp hbind
        obtain ⟨p, hp, hpa, hpd⟩ := findPeerAddr_some hi
        have hat : s.peerAt c i = p := peerAt_of_some hp
        have hfound : (s.findPeer ep).or (s.findPeerAddr a) = some i := by
          rw [hnone]
          exact hi
        have hnoone : s.AddrFree ep a := by
          intro i' hi'
          rw [hnone] at hi'
          cases hi'
        have hmoved : Consistent
            (s.setPeer i { s.peerAt c i with endpoint := ep, lastSeenTicks := e.ticks }) := by
          refine ⟨h.peers.relocate hfound hnoone ?_ rfl ?_, h.routes, h.asns, h.lost⟩
          · rw [hat]
            exact hpa
          · rw [hat]
            exact hpd
        exact hmoved.routeToLearned e ep (some a)
      · rename_i hno
        have haddr : s.findPeerAddr (learned.getD .empty) = none := by
          cases learned with
          | none => rfl
          | some a => exact hno
        obtain ⟨k, n, heq⟩ | ⟨i, k, n, p, heq, hp, hpa⟩ := findPeerSlot_cases (c := c) h.peers e
        · rw [heq]
          exact h.withPeers (h.peers.grow c n)
        · rw [heq]
          dsimp only
          have henter : PeersOk ((s.peers ++ List.replicate n (Peer.zero c)).set i
              (Peer.fresh c e ep (learned.getD .empty))) (s.peerCount + 1) :=
            h.peers.enter hp hpa hnone haddr rfl
          obtain ⟨routes, m, k', q, hupd, hr⟩ := routeToLearned_spec (c := c) (s := Ctx.setPeer
            { s with peers := s.peers ++ List.replicate n (Peer.zero c), allocs := k } i
            (.fresh c e ep (learned.getD .empty))) h.routes e ep learned
          rw [hupd]
          exact ⟨henter, hr, h.asns, h.lost⟩

end Entering

section Sending

variable {K : Type} {c : Crypto K} {s : Ctx K}

theorem sendSigned_tables (e : Env) (ep : Endpoint) (hdr : Header K) (payload : Payload K) (key : K) :
    (s.sendSigned c e ep hdr payload key).tables = s.tables := by
  unfold Ctx.sendSigned
  dsimp only
  split <;> rfl

theorem challengeFor_spec (e : Env) (p : Peer K) : ∃ k, (s.challengeFor e p).2 = { s with draws := k } := by
  unfold Ctx.challengeFor
  split
  · exact ⟨s.draws, rfl⟩
  · split <;> exact ⟨_, rfl⟩

variable [DecidableEq K]

theorem Consistent.sendAuthToPeer (h : Consistent s) (e : Env) (i : Nat) (type : PacketType) :
    Consistent (s.sendAuthToPeer c e i type) := by
  unfold Ctx.sendAuthToPeer
  split
  · obtain ⟨k, heq⟩ := challengeFor_spec (s := s) e (s.peerAt c i)
    dsimp only
    apply Consistent.congr _ (sendSigned_tables _ _ _ _ _)
    rw [heq]
    have hdrawn : Consistent { s with draws := k } := h.congr rfl
    exact hdrawn.keepPeer (c := c) rfl rfl rfl
  · exact h

theorem Consistent.routeFromAsn (h : Consistent s) (e : Env) (dst : Addr) :
    Consistent (s.routeFromAsn c e dst).2 := by
  unfold Ctx.routeFromAsn
  dsimp only
  split
  · exact h
  · exact h.updateRouteEx c e dst _ 1 2 0 _

theorem Consistent.findRoute (h : Consistent s) (e : Env) (dst : Addr) :
    Consistent (s.findRoute c e dst).2 := by
  unfold Ctx.findRoute
  have hclean := h.cleanupStale (c := c) e
  dsimp only
  split
  · exact hclean
  · have hroute := hclean.routeFromAsn (c := c) e dst
    split
    · rename_i heq
      rwa [heq] at hroute
    · rename_i heq
      rwa [heq] at hroute

theorem Consistent.punchTokenFor (h : Consistent s) (e : Env) (dst : Addr) :
    Consistent (s.punchTokenFor c e dst).2 := by
  unfold Ctx.punchTokenFor
  split
  · exact h
  · unfold Ctx.punchTokenKeyFor
    dsimp only
    split
    · exact h
    · exact h.findRoute e dst

theorem Consistent.sendPunchPayload (h : Consistent s) (e : Env) (dst : Addr) (punch : PunchPayload) :
    Consistent (s.sendPunchPayload c e dst punch) := by
  unfold Ctx.sendPunchPayload
  split
  · exact h
  · have hroute := h.findRoute (c := c) e dst
    dsimp only
    split
    · exact hroute
    · split
      · exact hroute
      · split
        · exact hroute
        · exact hroute.congr (sendSigned_tables _ _ _ _ _)

theorem Consistent.sendPunchRequest (h : Consistent s) (e : Env) (dst : Addr) :
    Consistent (s.sendPunchRequest c e dst) := by
  unfold Ctx.sendPunchRequest
  split
  · exact h
  · split
    · exact h
    · have htoken := h.punchTokenFor (c := c) e dst
      dsimp only
      split
      · exact htoken
      · exact htoken.sendPunchPayload e dst _

theorem Consistent.advertiseToPeer (h : Consistent s) (e : Env) (p : Peer K) (type : PacketType) :
    Consistent (s.advertiseToPeer c e p type) := by
  unfold Ctx.advertiseToPeer
  split
  · exact h
  · dsimp only
    apply Consistent.congr _ (sendSigned_tables _ _ _ _ _)
    split
    · unfold Ctx.buildRouteAdv
      split
      · exact h
      · exact h.cleanupStale e
    · exact h

theorem Consistent.advertiseAsnsToPeer (h : Consistent s) (e : Env) (p : Peer K) :
    Consistent (s.advertiseAsnsToPeer c e p) := by
  unfold Ctx.advertiseAsnsToPeer
  split
  · exact h
  · have hcount := h.asnCountGet
    dsimp only
    split
    · exact hcount
    · split
      · exact hcount
      · exact hcount.congr (sendSigned_tables _ _ _ _ _)

end Sending

section Advertised

variable {K : Type} {c : Crypto K} [DecidableEq K] {s : Ctx K}

theorem Consistent.rememberAdvertised (h : Consistent s) (e : Env) (entry : RouteAdv K) (dest : Addr)
    (hfree : ∀ ep, entry.endpoint = some ep → s.AddrFree ep dest ∨
      s.refusesCandidate c ep dest entry.publicKey) :
    Consistent (s.rememberAdvertised c e entry dest).2 := by
  unfold Ctx.rememberAdvertised
  split
  · exact h
  · rename_i ep hep
    split
    · exact h
    · have hrem := h.rememberPeerCandidate e ep dest entry.publicKey (hfree ep hep)
      revert hrem
      split
      · rename_i heq
        rw [heq]
        exact id
      · rename_i heq
        rw [heq]
        intro hrem
        dsimp only
        split
        · exact hrem.sendAuthToPeer e _ _
        · exact hrem

theorem Consistent.keyAdvertised (h : Consistent s) (dest : Addr) (key : K) :
    Consistent (s.keyAdvertised c dest key) := by
  unfold Ctx.keyAdvertised
  split
  · split
    · exact h.keepPeer (c := c) rfl rfl rfl
    · exact h
  · exact h

/-- The peer a one-hop entry names is found by its endpoint and takes the address of another one. -/
def Ctx.entryDuplicates (c : Crypto K) (via : Endpoint) (s : Ctx K) (entry : RouteAdv K) : Prop :=
  ∃ ep dest, addrParse entry.addr = .ok dest ∧ entry.endpoint = some ep ∧ entry.hops = 1 ∧
    entry.sameEndpoint via = false ∧ s.asnClaimRoutesKeyAddr c entry.publicKey dest = true ∧
    ¬ s.AddrFree ep dest ∧ ¬ s.refusesCandidate c ep dest entry.publicKey

theorem Consistent.applyRouteEntry (h : Consistent s) (e : Env) (via : Endpoint) (sourceKey : K)
    (entry : RouteAdv K) (hfree : ¬ s.entryDuplicates c via entry) :
    Consistent (s.applyRouteEntry c e via sourceKey entry) := by
  unfold Ctx.applyRouteEntry
  split
  · exact h
  · rename_i dest hdest
    split
    · exact h
    · rename_i hroutes
      split
      · exact h
      · split
        · exact h
        · have tail : ∀ r : Bool × Ctx K, Consistent r.2 → Consistent (Ctx.keyAdvertised c
              (if r.1 = true then Ctx.sendPunchRequest c (r.2.updateRouteEx c e dest via (entry.hops + 1)
                entry.metricVia entry.sequence entry.publicKey) e dest
              else r.2.updateRouteEx c e dest via (entry.hops + 1) entry.metricVia entry.sequence
                entry.publicKey) dest entry.publicKey) := by
            intro r hr
            have hroute := hr.updateRouteEx c e dest via (entry.hops + 1) entry.metricVia entry.sequence
              entry.publicKey
            apply Consistent.keyAdvertised
            split
            · exact hroute.sendPunchRequest e dest
            · exact hroute
          refine tail (if (!entry.sameEndpoint via && decide (entry.hops = 1)) = true then
            s.rememberAdvertised c e entry dest else (false, s)) ?_
          split
          · rename_i hone
            simp only [Bool.and_eq_true, Bool.not_eq_true', decide_eq_true_eq] at hone
            apply h.rememberAdvertised
            intro ep hep
            by_contra hno
            rw [not_or] at hno
            simp only [Bool.not_eq_true', Bool.not_eq_false, Bool.and_eq_true] at hroutes
            exact hfree ⟨ep, dest, hdest, hep, hone.2, hone.1, hroutes.2, hno.1, hno.2⟩
          · exact h

/-- No entry of the advertisement duplicates an address when its turn comes. -/
def Ctx.advFree (c : Crypto K) (e : Env) (via : Endpoint) (sourceKey : K) (s : Ctx K)
    (entries : List (RouteAdv K)) : Prop :=
  Along (Ctx.applyRouteEntry c e via sourceKey) (fun s entry => ¬ s.entryDuplicates c via entry) s
    entries

theorem Consistent.applyRouteAdv (h : Consistent s) (e : Env) (via : Endpoint) (sourceKey : K)
    (entries : List (RouteAdv K)) (hfree : s.advFree c e via sourceKey entries) :
    Consistent (s.applyRouteAdv c e via sourceKey entries) := by
  unfold Ctx.applyRouteAdv
  split
  · exact h
  · exact hfree.invariant (I := Consistent) (fun s entry hs hok =>
      hs.applyRouteEntry e via sourceKey entry hok) h

end Advertised

section Runs

variable {K : Type} [DecidableEq K]

/-- The calls that work on the tables. -/
inductive TableOp (K : Type)
  | addPeer (ep : Endpoint) (addr : Option Addr)
  | learnPeer (ep : Endpoint) (addr : Addr)
  | rememberCandidate (ep : Endpoint) (addr : Addr) (key : K)
  | removePeer (ep : Endpoint)
  | removePeerByAddr (addr : Addr)
  | cleanupStale
  | updateRoute (dest : Addr) (nextHop : Endpoint) (hops metric sequence : Nat) (key : K)
  | findRoute (dest : Addr)
  | routeAdv (via : Endpoint) (sourceKey : K) (entries : List (RouteAdv K))
  | asnAdv (sourceKey : K) (entries : List (AsnAdv K))
  | setAsnClaim (claim : AsnClaim K)
  | removeAsnClaim (asn : Nat) (start finish : Addr)
  | advertise (i : Nat) (type : PacketType)
  | advertiseAsns (i : Nat)
  | sendAuth (i : Nat) (type : PacketType)
  | peerCount
  | routeCount
  | asnCount

def tableStep (c : Crypto K) (s : Ctx K) : Env × TableOp K → Ctx K
  | (e, .addPeer ep addr) => (s.addPeerEndpoint c e ep addr).2
  | (e, .learnPeer ep addr) => (s.learnPeerEndpoint c e ep addr).2
  | (e, .rememberCandidate ep addr key) => (s.rememberPeerCandidate c e ep addr key).2
  | (_, .removePeer ep) => (s.removePeer c ep).2
  | (_, .removePeerByAddr addr) => (s.removePeerByAddr c addr).2
  | (e, .cleanupStale) => s.cleanupStale c e
  | (e, .updateRoute dest nextHop hops metric sequence key) =>
    s.updateRouteEx c e dest nextHop hops metric sequence key
  | (e, .findRoute dest) => (s.findRoute c e dest).2
  | (e, .routeAdv via sourceKey entries) => s.applyRouteAdv c e via sourceKey entries
  | (e, .asnAdv sourceKey entries) => s.applyAsnAdv c e sourceKey entries
  | (e, .setAsnClaim claim) => (s.setAsnClaim c e claim).2
  | (_, .removeAsnClaim asn start finish) => (s.removeAsnClaim c asn start finish).2
  | (e, .advertise i type) => s.advertiseToPeer c e (s.peerAt c i) type
  | (e, .advertiseAsns i) => s.advertiseAsnsToPeer c e (s.peerAt c i)
  | (e, .sendAuth i type) => s.sendAuthToPeer c e i type
  | (_, .peerCount) => s.peerCountQuery.2
  | (e, .routeCount) => (s.routeCountGet c e).2
  | (_, .asnCount) => s.asnCountGet.2

/-- The step takes neither of the two branches that go wrong: a peer found by its endpoint is not
given an address another active peer has, and the routes are counted only while each valid one is
usable. -/
def TableSound (c : Crypto K) (s : Ctx K) : Env × TableOp K → Prop
  | (_, .addPeer ep addr) => ∀ a, s.learnedAddr ep addr = some a → s.AddrFree ep a
  | (_, .learnPeer ep addr) => s.AddrFree ep addr ∨ s.refusesAddr c ep addr
  | (_, .rememberCandidate ep addr key) => s.AddrFree ep addr ∨ s.refusesCandidate c ep addr key
  | (e, .routeAdv via sourceKey entries) => s.advFree c e via sourceKey entries
  | (e, .routeCount) => ∀ r ∈ s.routes, r.valid = true → s.routeUsable c e r = true
  | _ => True

theorem tableStep_consistent {c : Crypto K} {s : Ctx K} (h : Consistent s) (op : Env × TableOp K)
    (hok : TableSound c s op) : Consistent (tableStep c s op) := by
  obtain ⟨e, op⟩ := op
  cases op with
  | addPeer ep addr => exact h.addPeerEndpoint e ep addr hok
  | learnPeer ep addr => exact h.learnPeerEndpoint e ep addr hok
  | rememberCandidate ep addr key => exact h.rememberPeerCandidate e ep addr key hok
  | removePeer ep => exact h.removePeer ep
  | removePeerByAddr addr => exact h.removePeerByAddr addr
  | cleanupStale => exact h.cleanupStale e
  | updateRoute dest nextHop hops metric sequence key =>
    exact h.updateRouteEx c e dest nextHop hops metric sequence key
  | findRoute dest => exact h.findRoute e dest
  | routeAdv via sourceKey entries => exact h.applyRouteAdv e via sourceKey entries hok
  | asnAdv sourceKey entries => exact h.applyAsnAdv e sourceKey entries
  | setAsnClaim claim => exact h.setAsnClaim e claim
  | removeAsnClaim asn start finish => exact h.removeAsnClaim asn start finish
  | advertise i type => exact h.advertiseToPeer e _ type
  | advertiseAsns i => exact h.advertiseAsnsToPeer e _
  | sendAuth i type => exact h.sendAuthToPeer e i type
  | peerCount =>
    simp only [tableStep, Ctx.peerCountQuery]
    split
    · exact h
    · exact ⟨⟨rfl, h.peers.endpoints, h.peers.addrs⟩, h.routes, h.asns, h.lost⟩
  | routeCount =>
    simp only [tableStep, Ctx.routeCountGet]
    split
    · exact h
    · refine ⟨h.peers, ⟨?_, h.routes.dests⟩, h.asns, h.lost⟩
      apply List.countP_congr
      intro r hr
      rw [Bool.and_eq_true]
      exact ⟨fun hu => hu.1, fun hv => ⟨hv, hok r hr hv⟩⟩
  | asnCount => exact h.asnCountGet

/-- A context before any peer, route or claim. -/
def Ctx.cleared (s : Ctx K) : Ctx K :=
  { s with
    peers := [], peerCount := 0, routes := [], routeCount := 0, asns := [], asnCount := 0, lost := 0 }

/-- What is promised of the tables in one state. -/
structure TablesConsistent (s : Ctx K) : Prop where
  peerCount : s.peerCount = s.peers.countP (·.active)
  routeCount : s.routeCount = s.routes.countP (·.valid)
  asnCount : s.asnCount = s.asns.countP (·.valid)
  endpoints : ∀ (i j : Nat) (p q : Peer K), s.peers[i]? = some p → s.peers[j]? = some q →
    p.active = true → q.active = true → p.endpoint = q.endpoint → i = j
  addrs : ∀ (i j : Nat) (p q : Peer K), s.peers[i]? = some p → s.peers[j]? = some q →
    p.active = true → q.active = true → p.addr.zone1 ≠ [] → p.addr = q.addr → i = j
  dests : ∀ (i j : Nat) (r t : Route K), s.routes[i]? = some r → s.routes[j]? = some t →
    r.valid = true → t.valid = true → r.dest = t.dest → i = j
  nothingLost : s.lost = 0

theorem Consistent.tablesConsistent {s : Ctx K} (h : Consistent s) : TablesConsistent s := by
  refine ⟨h.peers.counted, h.routes.counted, h.asns, ?_, ?_, ?_, h.lost⟩
  · intro i j p q hp hq hpa hqa hpq
    exact h.peers.endpoint_inj hp hq hpa hqa hpq
  · intro i j p q hp hq hpa hqa hz hpq
    exact h.peers.addr_inj hp hq hpa hqa hpq (hpq ▸ hz)
  · intro i j r t hr ht hrv htv hrt
    apply h.routes.dests i j r.dest
    · rw [hr]
      simp [Route.destKey, hrv]
    · rw [ht]
      simp [Route.destKey, htv, hrt]

/-- Along every run that never gives a peer found by its endpoint the address of another one, and
counts the routes only while all are usable, the tables stay consistent. -/
theorem tables_stay_consistent (c : Crypto K) (s : Ctx K) (ops : List (Env × TableOp K))
    (h : Along (tableStep c) (TableSound c) s.cleared ops) :
    Along (tableStep c) (fun s op => TablesConsistent s ∧ TablesConsistent (tableStep c s op))
      s.cleared ops := by
  have hstart : Consistent s.cleared :=
    ⟨⟨rfl, Slots.unique_nil, Slots.unique_nil⟩, ⟨rfl, Slots.unique_nil⟩, rfl, rfl⟩
  apply h.ensures (I := Consistent) _ hstart
  intro s op hs hok
  have hnext := tableStep_consistent hs op hok
  exact ⟨hnext, hs.tablesConsistent, hnext.tablesConsistent⟩

/-- Two peers with addresses are added and one removed. -/
theorem tables_stay_consistent_example :
    Along (tableStep sampleCrypto)
      (fun s op => TablesConsistent s ∧ TablesConsistent (tableStep sampleCrypto s op))
      (Ctx.cleared (.reset 0))
      [(sampleEnv, .addPeer (.ipv4 9 1) (some ⟨['a'], ['1'], ['x'], ['1'], ['1']⟩)),
       (sampleEnv, .addPeer (.ipv4 9 2) (some ⟨['b'], ['1'], ['x'], ['1'], ['1']⟩)),
       (sampleEnv, .removePeer (.ipv4 9 1)), (sampleEnv, .peerCount)] := by
  apply tables_stay_consistent
  refine ⟨?_, ?_, trivial, trivial, trivial⟩
  · intro a _ i hi
    cases (hi.symm.trans rfl : some i = none)
  · intro a _ i hi
    cases (hi.symm.trans rfl : some i = none)

/-- The query sets the counter to the usable routes; the next route then takes the only slot. -/
theorem route_query_miscounts :
    ¬ Along (tableStep sampleCrypto)
      (fun s op => TablesConsistent s ∧ TablesConsistent (tableStep sampleCrypto s op))
      (Ctx.cleared (.reset 0))
      [(sampleEnv, .addPeer (.ipv4 9 1) (some ⟨['a'], ['1'], ['x'], ['1'], ['1']⟩)),
       (sampleEnv, .routeCount),
       (sampleEnv, .addPeer (.ipv4 9 2) (some ⟨['b'], ['1'], ['x'], ['1'], ['1']⟩))] := by
  intro h
  obtain ⟨-, -, ⟨-, hlast⟩, -⟩ := h
  have hlost := hlast.nothingLost
  revert hlost
  decide

end Runs

end Lebirun.Ipv67
