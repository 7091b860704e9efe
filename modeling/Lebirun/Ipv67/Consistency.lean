import Lebirun.Ipv67.Ownership
import Lebirun.Ipv67.Send

namespace Lebirun.Ipv67
open Machine
set_option autoImplicit true

section Invariant

variable {K : Type}

/-- What no two peers may share. -/
def Peer.endpointKey (p : Peer K) : Option Endpoint := if p.active then some p.endpoint else none

def Peer.addrKey (p : Peer K) : Option Addr :=
  if p.active ∧ p.addr.zone1 ≠ [] then some p.addr else none

def Route.destKey (r : Route K) : Option Addr := if r.valid then some r.dest else none

structure PeersOk (peers : List (Peer K)) (count : Nat) : Prop where
  counted : count = peers.countP (·.active)
  endpoints : Slots.Unique Peer.endpointKey peers
  addrs : Slots.Unique Peer.addrKey peers

structure RoutesOk (routes : List (Route K)) (count : Nat) : Prop where
  counted : count = routes.countP (·.valid)
  dests : Slots.Unique Route.destKey routes

/-- The counters are those of the tables, no key occurs twice and nothing was lost. -/
structure Consistent (s : Ctx K) : Prop where
  peers : PeersOk s.peers s.peerCount
  routes : RoutesOk s.routes s.routeCount
  asns : s.asnCount = s.asns.countP (·.valid)
  lost : s.lost = 0

/-- The fields the invariant reads. -/
def Ctx.tables (s : Ctx K) : List (Peer K) × Nat × List (Route K) × Nat × List (AsnClaim K) × Nat × Nat :=
  (s.peers, s.peerCount, s.routes, s.routeCount, s.asns, s.asnCount, s.lost)

theorem Consistent.congr {s s' : Ctx K} (h : Consistent s) (ht : s'.tables = s.tables) :
    Consistent s' := by
  simp only [Ctx.tables, Prod.mk.injEq] at ht
  obtain ⟨hp, hpc, hr, hrc, ha, hac, hl⟩ := ht
  exact ⟨by rw [hp, hpc]; exact h.peers, by rw [hr, hrc]; exact h.routes, by rw [ha, hac]; exact h.asns,
    by rw [hl]; exact h.lost⟩

theorem Consistent.withRoutes {s : Ctx K} (h : Consistent s) {routes : List (Route K)} {n k q : Nat}
    (hr : RoutesOk routes n) : Consistent { s with
      routes := routes, routeCount := n, allocs := k, routeSequence := q } :=
  ⟨h.peers, hr, h.asns, h.lost⟩

end Invariant

section Routes

variable {K : Type} (c : Crypto K)

theorem RoutesOk.grow {routes : List (Route K)} {count : Nat} (h : RoutesOk routes count) (n : Nat) :
    RoutesOk (routes ++ List.replicate n (Route.zero c)) count :=
  ⟨h.counted.trans (Slots.countP_grow rfl n).symm, h.dests.grow rfl n⟩

theorem RoutesOk.keep {routes : List (Route K)} {count i : Nat} (h : RoutesOk routes count)
    {r r' : Route K} (hr : routes[i]? = some r) (hv : r'.valid = r.valid) (hd : r'.dest = r.dest) :
    RoutesOk (routes.set i r') count := by
  constructor
  · have hset := Slots.countP_set (p := fun r : Route K => r.valid) (b := r') hr
    rw [hv] at hset
    rw [h.counted]
    exact (Nat.add_right_cancel hset).symm
  · apply h.dests.set
    intro j k hk hj
    rw [Route.destKey, hv, hd] at hk
    exact h.dests j i k hj (by rw [hr]; exact hk)

theorem RoutesOk.insert {routes : List (Route K)} {count i : Nat} (h : RoutesOk routes count)
    {r r' : Route K} (hr : routes[i]? = some r) (hfree : r.valid = false) (hv : r'.valid = true)
    (hnew : ∀ (j : Nat) (x : Route K), routes[j]? = some x → x.valid = true → x.dest ≠ r'.dest) :
    RoutesOk (routes.set i r') (count + 1) := by
  constructor
  · have hset := Slots.countP_set (p := fun r : Route K => r.valid) (b := r') hr
    rw [hfree, hv] at hset
    rw [h.counted]
    simpa using hset.symm
  · apply h.dests.set
    intro j k hk hj
    obtain ⟨x, hx, hxk⟩ := Option.bind_eq_some_iff.mp hj
    unfold Route.destKey at hk hxk
    rw [hv, if_pos rfl] at hk
    cases hk
    split at hxk
    · rename_i hxv
      exact absurd (Option.some.inj hxk) (hnew j x hx hxv)
    · cases hxk

theorem RoutesOk.drop {s : Ctx K} (h : RoutesOk s.routes s.routeCount) (gone : Route K → Bool) :
    RoutesOk (s.dropRoutes c gone).routes (s.dropRoutes c gone).routeCount := by
  have hclear := Slots.countP_clear (l := s.routes) (p := fun r : Route K => r.valid)
    (q := fun r => r.valid && gone r) (z := Route.zero c) rfl
    (fun r hr => (Bool.and_eq_true _ _ ▸ hr).1)
  constructor
  · simp only [Ctx.dropRoutes]
    rw [h.counted, ← hclear]
    exact Nat.add_sub_cancel _ _
  · apply h.dests.map
    intro r
    split
    · exact .inr rfl
    · exact .inl rfl

variable [DecidableEq K]

theorem updateKnownRoute_spec {s : Ctx K} (h : RoutesOk s.routes s.routeCount) (e : Env) {i : Nat}
    {r : Route K} (hr : s.routes[i]? = some r) (nextHop : Endpoint) (hops metric sequence : Nat)
    (key : K) : ∃ routes n k q, s.updateKnownRoute c e i nextHop hops metric sequence key =
      { s with routes := routes, routeCount := n, allocs := k, routeSequence := q } ∧
      RoutesOk routes n := by
  have hat : s.routeAt c i = r := Slots.getD_of_some hr
  have hkeep : ∀ (r' : Route K) q, r'.valid = r.valid → r'.dest = r.dest →
      ∃ routes n k q', { s.setRoute i r' with routeSequence := q } =
        { s with routes := routes, routeCount := n, allocs := k, routeSequence := q' } ∧
        RoutesOk routes n := by
    intro r' q hv hd
    exact ⟨_, _, _, _, rfl, h.keep hr hv hd⟩
  unfold Ctx.updateKnownRoute
  dsimp only
  rw [hat]
  generalize hkeyed : (if c.present key = true then { r with publicKey := key } else r) = r'
  have hv : r'.valid = r.valid := by
    subst hkeyed
    split <;> rfl
  have hd : r'.dest = r.dest := by
    subst hkeyed
    split <;> rfl
  split
  · exact ⟨_, _, _, _, rfl, h⟩
  · split
    · apply hkeep _ s.routeSequence
      · split <;> exact hv
      · split <;> exact hd
    · split
      · exact hkeep r' s.routeSequence hv hd
      · split
        · exact hkeep _ _ hv hd
        · exact hkeep _ s.routeSequence hv hd

theorem insertRoute_spec {s : Ctx K} (h : RoutesOk s.routes s.routeCount) (e : Env) (dest : Addr)
    (nextHop : Endpoint) (hops metric sequence : Nat) (key : K)
    (hnew : ∀ (j : Nat) (x : Route K), s.routes[j]? = some x → x.valid = true → x.dest ≠ dest) :
    ∃ routes n k q, s.insertRoute c e dest nextHop hops metric sequence key =
      { s with routes := routes, routeCount := n, allocs := k, routeSequence := q } ∧
      RoutesOk routes n := by
  obtain ⟨n, hn, hcap⟩ := ensureCap_cases e s.allocs s.routes (Route.zero c) (s.routeCount + 1)
  unfold Ctx.insertRoute Ctx.ensureRouteCap
  revert hn hcap
  obtain ⟨ok, routes, k⟩ := ensureCap e s.allocs s.routes (Route.zero c) (s.routeCount + 1)
  intro hn hcap
  dsimp only at hn hcap ⊢
  subst hn
  have hgrown := h.grow c n
  split
  · exact ⟨_, _, _, _, rfl, hgrown⟩
  · rename_i hok
    have hcap := hcap (by simpa using hok)
    split
    · rename_i i hi
      obtain ⟨r, hr, hfree⟩ := Slots.find_some hi
      refine ⟨_, _, _, _, rfl, hgrown.insert hr (by simpa using hfree) rfl ?_⟩
      intro j x hx hxv
      by_cases hj : j < s.routes.length
      · rw [List.getElem?_append_left hj] at hx
        exact hnew j x hx hxv
      · rw [List.getElem?_append_right (Nat.le_of_not_lt hj), List.getElem?_replicate] at hx
        split at hx
        · cases hx
          cases hxv
        · cases hx
    · rename_i hfull
      exfalso
      have hroom : (s.routes ++ List.replicate n (Route.zero c)).countP (·.valid) <
          (s.routes ++ List.replicate n (Route.zero c)).length := by
        rw [Slots.countP_grow rfl, ← h.counted, List.length_append, List.length_replicate]
        omega
      obtain ⟨i, hi⟩ := Slots.exists_free hroom
      rw [hi] at hfull
      cases hfull

/-- With an accurate counter a route is entered without another one going. -/
theorem updateRouteEx_spec {s : Ctx K} (h : RoutesOk s.routes s.routeCount) (e : Env) (dest : Addr)
    (nextHop : Endpoint) (hops metric sequence : Nat) (key : K) :
    ∃ routes n k q, s.updateRouteEx c e dest nextHop hops metric sequence key =
      { s with routes := routes, routeCount := n, allocs := k, routeSequence := q } ∧
      RoutesOk routes n := by
  unfold Ctx.updateRouteEx
  dsimp only
  generalize (if (decide (hops ≤ 1) && !c.present key) = true then _ else key) = key'
  split
  · exact ⟨_, _, _, _, rfl, h⟩
  · split
    · exact ⟨_, _, _, _, rfl, h⟩
    · split
      · rename_i i hi
        obtain ⟨r, hr, -⟩ := Slots.find_some hi
        exact updateKnownRoute_spec c h e hr nextHop _ _ sequence key'
      · rename_i hnone
        apply insertRoute_spec c h
        intro j x hx hxv hxd
        have := Slots.find_none hnone hx
        rw [hxv, hxd, addrEq_self] at this
        cases this

theorem Consistent.updateRouteEx {s : Ctx K} (h : Consistent s) (e : Env) (dest : Addr)
    (nextHop : Endpoint) (hops metric sequence : Nat) (key : K) :
    Consistent (s.updateRouteEx c e dest nextHop hops metric sequence key) := by
  obtain ⟨routes, n, k, q, heq, hr⟩ := updateRouteEx_spec c h.routes e dest nextHop hops metric
    sequence key
  rw [heq]
  exact h.withRoutes hr

end Routes

section Asns

variable {K : Type} {c : Crypto K}

theorem recompute_countP (asns : List (AsnClaim K)) :
    (recomputeConflicts asns).countP (·.valid) = asns.countP (·.valid) := by
  apply Slots.countP_congr
  apply List.ext_getElem?
  intro i
  rw [List.getElem?_map, List.getElem?_map, recompute_getElem?]
  cases asns[i]? with
  | none => rfl
  | some a =>
    simp only [Option.map_some]
    split <;> rfl

theorem Consistent.recompute {s : Ctx K} (h : Consistent s) : Consistent s.recomputeAsnConflicts :=
  ⟨h.peers, h.routes, h.asns.trans (recompute_countP s.asns).symm, h.lost⟩

theorem AsnStored.consistent {s s' : Ctx K} {P : AsnClaim K → AsnClaim K → Prop}
    (hs : AsnStored c P s s') (hP : ∀ old next, P old next → next.valid = true) (h : Consistent s) :
    Consistent s' := by
  cases hs with
  | grown n k => exact ⟨h.peers, h.routes, h.asns.trans (Slots.countP_grow rfl n).symm, h.lost⟩
  | put n k i l old next hold hput hl =>
    have hgrown := Slots.countP_grow (l := s.asns) (p := fun a : AsnClaim K => a.valid)
      (z := AsnClaim.zero c) rfl n
    have hset := Slots.countP_set (p := fun a : AsnClaim K => a.valid) (b := next) hold
    rw [hP old next hput, hgrown, ← h.asns] at hset
    have hl0 : l = 0 := by
      by_contra hne
      obtain ⟨-, hroom, hall⟩ := hl (Nat.pos_of_ne_zero hne)
      have hfull := List.countP_eq_length.mpr hall
      rw [hgrown, ← h.asns, List.length_append, List.length_replicate] at hfull
      omega
    subst hl0
    refine ⟨h.peers, h.routes, ?_, h.lost⟩
    simp only [Nat.lt_irrefl, decide_false, Bool.or_false]
    cases hv : old.valid with
    | true =>
      rw [hv] at hset
      simpa using (Nat.add_right_cancel hset).symm
    | false =>
      rw [hv] at hset
      simpa using hset.symm

theorem Consistent.release {s : Ctx K} (h : Consistent s) : Consistent s.releaseEmptyTables := by
  constructor
  · dsimp only [Ctx.releaseEmptyTables]
    split
    · rename_i h0
      exact ⟨h0, Slots.unique_nil, Slots.unique_nil⟩
    · exact h.peers
  · dsimp only [Ctx.releaseEmptyTables]
    split
    · rename_i h0
      exact ⟨h0, Slots.unique_nil⟩
    · exact h.routes
  · dsimp only [Ctx.releaseEmptyTables]
    split
    · rename_i h0
      exact h0
    · exact h.asns
  · dsimp only [Ctx.releaseEmptyTables]
    rw [← h.peers.counted, ← h.routes.counted, ← h.asns, h.lost]
    simp

theorem Consistent.asnCountGet {s : Ctx K} (h : Consistent s) : Consistent s.asnCountGet.2 := by
  unfold Ctx.asnCountGet
  split
  · exact h
  · exact ⟨h.peers, h.routes, rfl, h.lost⟩

variable [DecidableEq K]

theorem Consistent.setAsnClaim {s : Ctx K} (h : Consistent s) (e : Env) (claim : AsnClaim K) :
    Consistent (s.setAsnClaim c e claim).2 := by
  obtain ⟨n, k, heq⟩ | ⟨s₁, hst, heq⟩ := setAsnClaim_cases c s e claim
  · rw [heq]
    exact AsnStored.consistent (AsnStored.grown (P := fun _ _ => False) n k) (fun _ _ hf => hf.elim) h
  · rw [heq]
    exact (hst.consistent (fun _ _ hp => hp.2.1) h).recompute

theorem Consistent.applyAsnAdv {s : Ctx K} (h : Consistent s) (e : Env) (sourceKey : K)
    (entries : List (AsnAdv K)) : Consistent (s.applyAsnAdv c e sourceKey entries) := by
  apply Consistent.recompute
  apply foldl_invariant _ h
  intro s entry h
  unfold Ctx.applyAsnEntry
  split
  · rename_i claim hclaim
    have hv := (readAsnAdv_made c s.identity hclaim).2.1
    exact (storeAsnClaim_cases c s e claim).consistent (fun _ _ hp => hp.1 ▸ hv) h
  · exact h

theorem Consistent.removeAsnClaim {s : Ctx K} (h : Consistent s) (asn : Nat) (start finish : Addr) :
    Consistent (s.removeAsnClaim c asn start finish).2 := by
  unfold Ctx.removeAsnClaim
  split
  · exact h
  · split
    · exact h
    · rename_i i hi
      obtain ⟨a, ha, hp⟩ := Slots.find_some hi
      have hv : a.valid = true := by
        simp only [Bool.and_eq_true] at hp
        exact hp.1.1.1.1
      apply Consistent.release
      apply Consistent.recompute
      refine ⟨h.peers, h.routes, ?_, h.lost⟩
      have hset := Slots.countP_set (p := fun a : AsnClaim K => a.valid) (b := AsnClaim.zero c) ha
      rw [hv, ← h.asns] at hset
      change s.asnCount - 1 = _
      have hz : (AsnClaim.zero c).valid = false := rfl
      rw [hz] at hset
      simp only [if_true, Bool.false_eq_true, if_false] at hset
      dsimp only
      omega

theorem Consistent.removeAsnClaimsForPeer {s : Ctx K} (h : Consistent s) (key : K) :
    Consistent (s.removeAsnClaimsForPeer c key) := by
  unfold Ctx.removeAsnClaimsForPeer
  split
  · exact h
  · dsimp only
    split
    · exact h
    · apply Consistent.release
      apply Consistent.recompute
      refine ⟨h.peers, h.routes, ?_, h.lost⟩
      have hclear := Slots.countP_clear (l := s.asns) (p := fun a : AsnClaim K => a.valid)
        (q := fun a => a.comesFrom c key) (z := AsnClaim.zero c) rfl (fun a ha => by
          simp only [AsnClaim.comesFrom, Bool.and_eq_true] at ha
          exact ha.1.1.1)
      change s.asnCount - _ = _
      rw [h.asns, ← hclear]
      exact Nat.add_sub_cancel _ _

end Asns

section Peers

variable {K : Type} (c : Crypto K) {peers : List (Peer K)} {count i : Nat} {p p' : Peer K}

theorem PeersOk.grow (h : PeersOk peers count) (n : Nat) :
    PeersOk (peers ++ List.replicate n (Peer.zero c)) count :=
  ⟨h.counted.trans (Slots.countP_grow rfl n).symm, h.endpoints.grow rfl n, h.addrs.grow rfl n⟩

theorem PeersOk.clear (h : PeersOk peers count) (hp : peers[i]? = some p) (hact : p.active = true) :
    PeersOk (peers.set i (Peer.zero c)) (count - 1) := by
  constructor
  · have hset := Slots.countP_set (p := fun p : Peer K => p.active) (b := Peer.zero c) hp
    have hz : (Peer.zero c).active = false := rfl
    rw [hact, hz, ← h.counted] at hset
    simp only [if_true, Bool.false_eq_true, if_false] at hset
    omega
  · apply h.endpoints.set
    intro j k hk
    cases hk
  · apply h.addrs.set
    intro j k hk
    cases hk

/-- A slot is given to a peer whose endpoint and address no other slot has. -/
theorem PeersOk.put (h : PeersOk peers count) (hp : peers[i]? = some p) (hact : p'.active = true)
    (hep : ∀ (j : Nat) (x : Peer K), peers[j]? = some x → x.active = true → x.endpoint = p'.endpoint →
      j = i)
    (haddr : ∀ (j : Nat) (x : Peer K), peers[j]? = some x → x.active = true → x.addr = p'.addr →
      p'.addr.zone1 ≠ [] → j = i) :
    PeersOk (peers.set i p') (count + if p.active then 0 else 1) := by
  constructor
  · have hset := Slots.countP_set (p := fun p : Peer K => p.active) (b := p') hp
    rw [hact, ← h.counted] at hset
    cases hpa : p.active with
    | true =>
      rw [hpa] at hset
      simpa using (Nat.add_right_cancel hset).symm
    | false =>
      rw [hpa] at hset
      simpa using hset.symm
  · apply h.endpoints.set
    intro j k hk hj
    obtain ⟨x, hx, hxk⟩ := Option.bind_eq_some_iff.mp hj
    unfold Peer.endpointKey at hk hxk
    rw [hact, if_pos rfl] at hk
    cases hk
    split at hxk
    · rename_i hxa
      exact hep j x hx hxa (Option.some.inj hxk)
    · cases hxk
  · apply h.addrs.set
    intro j k hk hj
    obtain ⟨x, hx, hxk⟩ := Option.bind_eq_some_iff.mp hj
    unfold Peer.addrKey at hk hxk
    split at hk
    · rename_i hz
      cases hk
      split at hxk
      · rename_i hxa
        exact haddr j x hx hxa.1 (Option.some.inj hxk) hz.2
      · cases hxk
    · cases hk

/-- The peer keeps its endpoint and its address. -/
theorem PeersOk.keep (h : PeersOk peers count) (hp : peers[i]? = some p) (hact : p'.active = p.active)
    (hep : p'.endpoint = p.endpoint) (haddr : p'.addr = p.addr) : PeersOk (peers.set i p') count := by
  constructor
  · have hset := Slots.countP_set (p := fun p : Peer K => p.active) (b := p') hp
    rw [hact, ← h.counted] at hset
    exact (Nat.add_right_cancel hset).symm
  · apply h.endpoints.set
    intro j k hk hj
    rw [Peer.endpointKey, hact, hep] at hk
    exact h.endpoints j i k hj (by rw [hp]; exact hk)
  · apply h.addrs.set
    intro j k hk hj
    rw [Peer.addrKey, hact, haddr] at hk
    exact h.addrs j i k hj (by rw [hp]; exact hk)

/-- Two active peers at one endpoint are one. -/
theorem PeersOk.endpoint_inj (h : PeersOk peers count) {i j : Nat} {x y : Peer K}
    (hx : peers[i]? = some x) (hy : peers[j]? = some y) (hxa : x.active = true) (hya : y.active = true)
    (hxy : x.endpoint = y.endpoint) : i = j := by
  apply h.endpoints i j x.endpoint
  · rw [hx]
    simp [Peer.endpointKey, hxa]
  · rw [hy]
    simp [Peer.endpointKey, hya, hxy]

theorem PeersOk.addr_inj (h : PeersOk peers count) {i j : Nat} {x y : Peer K}
    (hx : peers[i]? = some x) (hy : peers[j]? = some y) (hxa : x.active = true) (hya : y.active = true)
    (hxy : x.addr = y.addr) (hz : y.addr.zone1 ≠ []) : i = j := by
  apply h.addrs i j x.addr
  · rw [hx]
    simp [Peer.addrKey, hxa, hxy, hz]
  · rw [hy]
    simp [Peer.addrKey, hya, hxy, hz]

end Peers

end Lebirun.Ipv67
