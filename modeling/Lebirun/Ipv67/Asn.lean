import Lebirun.Ipv67.State
import Mathlib.Data.List.Count

namespace Lebirun.Ipv67
set_option autoImplicit true

def asnOwnershipSpecificity : Nat := 136

/-- `ipv67_asn_range_specificity` -/
def asnRangeSpecificity (start finish : Addr) : Nat :=
  if start.zone1 ≠ finish.zone1 then 0
  else if start.zone2 ≠ finish.zone2 then 24
  else if start.domain ≠ finish.domain then 48
  else if start.node1 ≠ finish.node1 then 112
  else if start.node2 ≠ finish.node2 then 136
  else 160

section Claims

variable {K : Type}

/-- `ipv67_asn_claim_same_range` -/
def AsnClaim.sameRange (a b : AsnClaim K) : Bool :=
  a.asn == b.asn && addrEq a.start b.start && addrEq a.finish b.finish

/-- `ipv67_asn_claim_overlaps` -/
def AsnClaim.overlaps (a b : AsnClaim K) : Bool :=
  a.valid && b.valid && addrCmpOrder a.start b.finish ≠ .gt && addrCmpOrder b.start a.finish ≠ .gt

/-- `ipv67_asn_claim_weakness` -/
def AsnClaim.weakness (a : AsnClaim K) (incoming : Nat) : Nat :=
  (if a.flags.auth then 0 else 4) + (if a.flags.relay then 3 else 0) +
    (if a.flags.broad then 2 else 0) + (if a.specificity < incoming then 1 else 0)

/-- `ipv67_asn_claim_is_broad` -/
def AsnClaim.isBroad (a : AsnClaim K) : Bool := a.specificity < asnOwnershipSpecificity

/-- `ipv67_addr_in_asn_claim` -/
def AsnClaim.has (a : AsnClaim K) (addr : Addr) : Bool :=
  a.valid && addrCmpOrder addr a.start ≠ .lt && addrCmpOrder addr a.finish ≠ .gt

/-- The claim with its specificity cut to what the range allows and the BROAD flag set from it. -/
def AsnClaim.measured (a : AsnClaim K) : AsnClaim K :=
  let most := asnRangeSpecificity a.start a.finish
  let a := if a.specificity = 0 ∨ a.specificity > most then { a with specificity := most } else a
  { a with flags := { a.flags with broad := a.isBroad } }

/-- How many other claims of the table the one in slot `i` overlaps. -/
def overlapCount (asns : List (AsnClaim K)) (i : Nat) (a : AsnClaim K) : Nat :=
  asns.zipIdx.countP fun b => b.2 ≠ i && b.1.valid && a.overlaps b.1

/-- One turn of `ipv67_recompute_asn_conflicts`. -/
def AsnClaim.marked (a : AsnClaim K) (count : Nat) : AsnClaim K :=
  { a with
    conflictCount := if count > 255 then 255 else count
    flags := { a.flags with
      conflict := count > 0
      quarantine := count > 0 && !a.flags.isLocal } }

/-- `ipv67_recompute_asn_conflicts` on the table. -/
def recomputeConflicts (asns : List (AsnClaim K)) : List (AsnClaim K) :=
  asns.mapIdx fun i a => if a.valid then a.marked (overlapCount asns i a) else a

def Ctx.recomputeAsnConflicts (s : Ctx K) : Ctx K := { s with asns := recomputeConflicts s.asns }

variable (c : Crypto K)

/-- `ipv67_ensure_asn_cap` -/
def Ctx.ensureAsnCap (s : Ctx K) (e : Env) (needed : Nat) : Bool × Ctx K :=
  let (ok, asns, allocs) := ensureCap e s.allocs s.asns (AsnClaim.zero c) needed
  (ok, { s with asns, allocs })

variable [DecidableEq K]

/-- `ipv67_asn_claim_grants_ownership` -/
def AsnClaim.grantsOwnership (a : AsnClaim K) : Bool :=
  a.valid && a.flags.auth && !a.flags.relay && !a.flags.quarantine &&
    !(a.specificity < asnOwnershipSpecificity) && c.present a.sourceKey

/-- `ipv67_asn_claim_grants_route` -/
def AsnClaim.grantsRoute (a : AsnClaim K) : Bool :=
  a.valid && a.flags.auth && !a.flags.quarantine &&
    !(a.specificity < asnOwnershipSpecificity) && c.present a.sourceKey

/-- `ipv67_asn_claim_allows_key_addr` -/
def Ctx.asnClaimAllowsKeyAddr (s : Ctx K) (key : K) (addr : Addr) : Bool :=
  c.present key && s.asns.any fun a =>
    a.grantsOwnership c && key = a.sourceKey && a.has addr

/-- `ipv67_asn_claim_routes_key_addr` -/
def Ctx.asnClaimRoutesKeyAddr (s : Ctx K) (key : K) (addr : Addr) : Bool :=
  c.present key && s.asns.any fun a => a.grantsRoute c && key = a.sourceKey && a.has addr

/-- The loop of `ipv67_find_asn_replace_slot`, from slot `i` on. -/
def asnReplaceScan (e : Env) (claim : AsnClaim K) :
    List (AsnClaim K) → Nat → Option (Nat × Nat × Nat) → Option Nat
  | [], _, best => best.map (·.1)
  | a :: rest, i, best =>
    if !a.valid then some i
    else if a.flags.isLocal then asnReplaceScan e claim rest (i + 1) best
    else
      let score := a.weakness claim.specificity
      let own := claim.weakness claim.specificity
      if score < own || score = own && a.specificity ≥ claim.specificity then
        asnReplaceScan e claim rest (i + 1) best
      else
        let age := e.age a.ageTicks
        match best with
        | some (j, bestScore, bestAge) =>
          if score > bestScore || score = bestScore && age > bestAge then
            asnReplaceScan e claim rest (i + 1) (some (i, score, age))
          else asnReplaceScan e claim rest (i + 1) (some (j, bestScore, bestAge))
        | none => asnReplaceScan e claim rest (i + 1) (some (i, score, age))

/-- The claim `ipv67_set_asn_claim` makes of the caller's. -/
def AsnClaim.ofIdentity (claim : AsnClaim K) (e : Env) (key : K) : AsnClaim K :=
  { claim with
    valid := true, flags := { claim.flags with isLocal := true, auth := true }
    sourceKey := key, ageTicks := e.ticks : AsnClaim K }.measured

/-- The loop of `ipv67_set_asn_claim`: the first LOCAL claim with the range is replaced, one that
overlaps is an error, and else the first free slot is taken. -/
def Ctx.placeAsnClaim (s : Ctx K) (e : Env) (next : AsnClaim K) : Except Err Unit × Ctx K :=
  let (ok, s) := s.ensureAsnCap c e (s.asnCount + 1)
  if !ok then (.error .nomem, s)
  else
    match s.asns.findIdx? fun a =>
        a.valid && a.flags.isLocal && (a.sameRange next || a.overlaps next) with
    | some i =>
      if (s.asns.getD i (.zero c)).sameRange next then
        (.ok (), { s with asns := s.asns.set i next }.recomputeAsnConflicts)
      else (.error .inval, s)
    | none =>
      match s.asns.findIdx? (!·.valid) with
      | none => (.error .nomem, s)
      | some i => (.ok (),
          { s with asns := s.asns.set i next, asnCount := s.asnCount + 1 }.recomputeAsnConflicts)

/-- `ipv67_set_asn_claim` -/
def Ctx.setAsnClaim (s : Ctx K) (e : Env) (claim : AsnClaim K) : Except Err Unit × Ctx K :=
  match s.identity, s.localAsnFromIdentity c with
  | some identity, some asn =>
    if claim.asn ≠ asn then (.error .inval, s)
    else if addrCmpOrder claim.start claim.finish = .gt then (.error .inval, s)
    else s.placeAsnClaim c e (claim.ofIdentity e identity.2)
  | _, _ => (.error .inval, s)

/-- `ipv67_remove_asn_claim` -/
def Ctx.removeAsnClaim (s : Ctx K) (asn : Nat) (start finish : Addr) : Except Err Unit × Ctx K :=
  if s.localAsnFromIdentity c ≠ some asn then (.error .inval, s)
  else
    match s.asns.findIdx? fun a => a.valid && a.flags.isLocal && a.asn = asn &&
        addrEq a.start start && addrEq a.finish finish with
    | none => (.error .nopeer, s)
    | some i => (.ok (), { s with
        asns := s.asns.set i (.zero c), asnCount := s.asnCount - 1
      }.recomputeAsnConflicts.releaseEmptyTables)

/-- `ipv67_asn_count_get` -/
def Ctx.asnCountGet (s : Ctx K) : Nat × Ctx K :=
  if s.asns = [] then (0, s)
  else (s.asns.countP (·.valid), { s with asnCount := s.asns.countP (·.valid) })

/-- Whether `ipv67_remove_asn_claims_for_peer` takes the claim. -/
def AsnClaim.comesFrom (a : AsnClaim K) (key : K) : Bool :=
  a.valid && !a.flags.isLocal && c.present a.sourceKey && a.sourceKey = key

/-- `ipv67_remove_asn_claims_for_peer` -/
def Ctx.removeAsnClaimsForPeer (s : Ctx K) (key : K) : Ctx K :=
  if !c.present key then s
  else
    let gone := s.asns.countP fun a => a.comesFrom c key
    if gone = 0 then s
    else
      { s with
        asns := s.asns.map fun a : AsnClaim K => if a.comesFrom c key then .zero c else a
        asnCount := s.asnCount - gone }.recomputeAsnConflicts.releaseEmptyTables

/-- The key an advertised claim is stored under: the entry's, else the sender's. -/
def AsnAdv.claimKey (entry : AsnAdv K) (sourceKey : K) : K :=
  if c.present entry.sourceKey then entry.sourceKey
  else if c.present sourceKey then sourceKey else c.zero

/-- The sender advertises a claim of its own. -/
def AsnAdv.keyMatches (entry : AsnAdv K) (sourceKey : K) : Bool :=
  c.present sourceKey && (!c.present entry.sourceKey || sourceKey = entry.sourceKey)

/-- The sender passes on a claim of the holder of another key. -/
def AsnAdv.relayed (entry : AsnAdv K) (sourceKey : K) : Bool :=
  !entry.keyMatches c sourceKey && c.present entry.sourceKey && entry.flags.auth &&
    c.asnFromPublicKey (entry.claimKey c sourceKey) = some entry.asn

/-- The claim `ipv67_apply_asn_adv` reads from an entry sent by the holder of `sourceKey`. -/
def readAsnAdv (e : Env) (sourceKey : K) (entry : AsnAdv K) : Option (AsnClaim K) :=
  if !(entry.keyMatches c sourceKey || entry.relayed c sourceKey) then none
  else if c.asnFromPublicKey (entry.claimKey c sourceKey) ≠ some entry.asn then none
  else
    match addrParse entry.start, addrParse entry.finish with
    | .ok start, .ok finish =>
      if addrCmpOrder start finish = .gt then none
      else some { asn := entry.asn, start, finish, specificity := entry.specificity
                  flags := { entry.flags with
                    isLocal := false, auth := true, relay := entry.relayed c sourceKey }
                  valid := true, conflictCount := 0, ageTicks := e.ticks
                  sourceKey := entry.claimKey c sourceKey : AsnClaim K }.measured
    | _, _ => none

/-- Where `ipv67_apply_asn_adv` puts a claim it has read. -/
def Ctx.storeAsnClaim (s : Ctx K) (e : Env) (claim : AsnClaim K) : Ctx K :=
  let (ok, s) := s.ensureAsnCap c e (s.asnCount + 1)
  if !ok then s
  else
    match s.asns.findIdx? fun a => a.valid && !a.flags.isLocal && a.sameRange claim with
    | some i => { s with asns := s.asns.set i claim }
    | none =>
      match s.asns.findIdx? (!·.valid) with
      | some i => { s with asns := s.asns.set i claim, asnCount := s.asnCount + 1 }
      | none =>
        match asnReplaceScan e claim s.asns 0 none with
        | some i => { s with asns := s.asns.set i claim, lost := s.lost + 1 }
        | none => s

/-- One turn of the loop of `ipv67_apply_asn_adv`. -/
def Ctx.applyAsnEntry (e : Env) (sourceKey : K) (s : Ctx K) (entry : AsnAdv K) : Ctx K :=
  match readAsnAdv c e sourceKey entry with
  | some claim => s.storeAsnClaim c e claim
  | none => s

/-- `ipv67_apply_asn_adv`, which the receive path calls with `authenticated` set. -/
def Ctx.applyAsnAdv (s : Ctx K) (e : Env) (sourceKey : K) (entries : List (AsnAdv K)) : Ctx K :=
  (entries.foldl (Ctx.applyAsnEntry c e sourceKey) s).recomputeAsnConflicts

end Claims

end Lebirun.Ipv67
