import Lebirun.Ipv67.Quiet

namespace Lebirun.Ipv67
open Machine
set_option autoImplicit true

section Identifiers

variable {K : Type} {e : Env} {packetId : Nat} {l : List (Nat × Nat)}

theorem replayScan_found :
    (replayScan e packetId l).1 = true ↔ ∃ x ∈ l, e.replayFresh x = true ∧ x.1 = packetId := by
  induction l with
  | nil => simp [replayScan]
  | cons x l ih =>
    rw [replayScan]
    cases hfresh : e.replayFresh x with
    | false => simpa [hfresh] using ih
    | true =>
      by_cases hid : x.1 = packetId
      · simp [hid, hfresh]
      · simpa [hid, hfresh] using ih

/-- A fresh identifier stays in the array, whether the scan compacts all of it or stops half-way. -/
theorem replayScan_keeps (packetId : Nat) (hx : x ∈ l) (hfresh : e.replayFresh x = true) :
    x ∈ (replayScan e packetId l).2 ++ l.drop (replayScan e packetId l).2.length := by
  induction l with
  | nil => cases hx
  | cons y l ih =>
    rw [replayScan]
    cases hy : e.replayFresh y with
    | false =>
      cases List.mem_cons.mp hx with
      | inl h =>
        rw [← h, hfresh] at hy
        cases hy
      | inr h =>
        cases List.mem_append.mp (ih h) with
        | inl hk => exact List.mem_append_left _ hk
        | inr hd =>
          apply List.mem_append_right
          rw [← List.drop_succ_cons] at hd
          exact List.drop_subset_drop_left _ (Nat.le_succ _) hd
    | true =>
      by_cases hid : y.1 = packetId
      · simpa [hid] using hx
      · simp only [Bool.not_true, Bool.false_eq_true, if_false, if_neg hid]
        cases List.mem_cons.mp hx with
        | inl h => simp [h]
        | inr h => exact List.mem_cons_of_mem _ (ih h)

/-- A scan that does not find the identifier keeps every fresh one. -/
theorem replayScan_fresh (packetId : Nat) (hx : x ∈ l) (hfresh : e.replayFresh x = true)
    (hno : (replayScan e packetId l).1 = false) : x ∈ (replayScan e packetId l).2 := by
  induction l with
  | nil => cases hx
  | cons y l ih =>
    rw [replayScan] at hno ⊢
    cases hy : e.replayFresh y with
    | false =>
      rw [hy] at hno
      cases List.mem_cons.mp hx with
      | inl h =>
        rw [← h, hfresh] at hy
        cases hy
      | inr h => exact ih h hno
    | true =>
      rw [hy] at hno
      by_cases hid : y.1 = packetId
      · simp [hid] at hno
      · simp only [Bool.not_true, Bool.false_eq_true, if_false, if_neg hid] at hno ⊢
        cases List.mem_cons.mp hx with
        | inl h => simp [h]
        | inr h => exact List.mem_cons_of_mem _ (ih h hno)

/-- The identifier is new and can be remembered. -/
def Ctx.freshId (s : Ctx K) (e : Env) (packetId : Nat) : Prop :=
  packetId ≠ 0 ∧ (¬ ∃ x ∈ s.replayEntries, e.replayFresh x = true ∧ x.1 = packetId) ∧
    e.mem s.allocs = true

instance (s : Ctx K) (e : Env) (packetId : Nat) : Decidable (s.freshId e packetId) :=
  inferInstanceAs (Decidable (_ ∧ _ ∧ _))

theorem globalReplaySeen_seen (s : Ctx K) (e : Env) (packetId : Nat) :
    (s.globalReplaySeen e packetId).1 = false ↔ s.freshId e packetId := by
  unfold Ctx.globalReplaySeen Ctx.freshId
  rw [← replayScan_found]
  by_cases hid : packetId = 0
  · simp [hid]
  · generalize replayScan e packetId s.replayEntries = scan
    obtain ⟨found, kept⟩ := scan
    cases found with
    | true => simp [hid]
    | false => cases e.mem s.allocs <;> simp [hid]

theorem globalReplaySeen_keeps {s : Ctx K} {x : Nat × Nat} (hx : x ∈ s.replayEntries)
    (hfresh : e.replayFresh x = true) : x ∈ (s.globalReplaySeen e packetId).2.replayEntries := by
  have hkeeps := replayScan_keeps packetId hx hfresh
  have hfound := replayScan_fresh packetId hx hfresh
  unfold Ctx.globalReplaySeen
  split
  · exact hx
  · generalize replayScan e packetId s.replayEntries = scan at hkeeps hfound ⊢
    obtain ⟨found, kept⟩ := scan
    cases found with
    | true => exact hkeeps
    | false =>
      have hkept := hfound rfl
      dsimp only
      split
      · exact List.mem_append_left _ hkept
      · exact hkept

theorem globalReplaySeen_adds {s : Ctx K} (h : (s.globalReplaySeen e packetId).1 = false) :
    (packetId, e.now) ∈ (s.globalReplaySeen e packetId).2.replayEntries := by
  unfold Ctx.globalReplaySeen at h ⊢
  split at h
  · cases h
  · rename_i hid
    rw [if_neg hid]
    generalize replayScan e packetId s.replayEntries = scan at h ⊢
    obtain ⟨found, kept⟩ := scan
    cases found with
    | true => cases h
    | false =>
      dsimp only at h ⊢
      split at h
      · rename_i hmem
        rw [if_pos hmem]
        simp
      · cases h

end Identifiers

section Window

variable {K : Type} {p : Peer K} {q sequence : Nat}

/-- The sequence number is marked in the window. -/
def Peer.marked (p : Peer K) (q : Nat) : Bool :=
  q ≤ p.highestSequence && p.highestSequence - q < replayBits &&
    p.replayWindow.testBit (p.highestSequence - q)

/-- The sequence number is older than the window. -/
def Peer.tooOld (p : Peer K) (q : Nat) : Bool := q + replayBits ≤ p.highestSequence

theorem marked_congr {p' : Peer K} (hhigh : p.highestSequence = p'.highestSequence)
    (hwin : p.replayWindow = p'.replayWindow) (q : Nat) : p.marked q = p'.marked q := by
  unfold Peer.marked
  rw [hhigh, hwin]

/-- The bit of a sequence number in a window that was shifted for a higher one. -/
theorem advanceWindow_testBit (p : Peer K) {k : Nat} (hk : k < replayBits) :
    (p.advanceWindow sequence).replayWindow.testBit k =
      (k = 0 || sequence - p.highestSequence ≤ k &&
        p.replayWindow.testBit (k - (sequence - p.highestSequence))) := by
  have hone : Nat.testBit 1 k = decide (k = 0) := by
    rw [← Nat.pow_zero 2, Nat.testBit_two_pow]
    simp only [eq_comm]
  unfold Peer.advanceWindow
  dsimp only
  split
  · rename_i hfar
    have hle : ¬ sequence - p.highestSequence ≤ k := by omega
    simp [hone, hle]
  · rw [Nat.testBit_or, hone, Nat.testBit_mod_two_pow, Nat.testBit_mul_two_pow]
    have hk' : k < 64 := hk
    simp only [hk', decide_true, Bool.true_and]
    exact Bool.or_comm _ _

theorem advanceWindow_marked (hseq : p.highestSequence < sequence)
    (hq : (p.advanceWindow sequence).tooOld q = false) :
    (p.advanceWindow sequence).marked q = (q = sequence || p.marked q) := by
  have hold : sequence - q < replayBits := by
    have hq : ¬ q + 64 ≤ sequence := of_decide_eq_false hq
    unfold replayBits
    omega
  unfold Peer.marked
  change (decide (q ≤ sequence) && decide (sequence - q < replayBits) &&
    (p.advanceWindow sequence).replayWindow.testBit (sequence - q)) = _
  rw [advanceWindow_testBit p hold]
  by_cases hle : q ≤ p.highestSequence
  · have hne : sequence - q ≠ 0 := by omega
    have hne' : q ≠ sequence := by omega
    have hshift : sequence - q - (sequence - p.highestSequence) = p.highestSequence - q := by omega
    have hnear : p.highestSequence - q < replayBits := by omega
    have hle' : sequence - p.highestSequence ≤ sequence - q := by omega
    have hqs : q ≤ sequence := by omega
    simp [hne, hne', hshift, hnear, hle, hle', hqs, hold]
  · by_cases hqs : q = sequence
    · simp [hqs, replayBits]
    · have hle' : ¬ sequence - p.highestSequence ≤ sequence - q ∨ ¬ q ≤ sequence := by omega
      have hne : q ≤ sequence → sequence - q ≠ 0 := by omega
      by_cases hqle : q ≤ sequence
      · simp [hle, hqs, hne hqle, hle'.resolve_right (fun h => h hqle)]
      · simp [hle, hqs, hqle]

theorem markSequence_marked (hseq : p.tooOld sequence = false)
    (hq : (p.markSequence sequence).tooOld q = false) :
    (p.markSequence sequence).marked q = (q = sequence || p.marked q) := by
  unfold Peer.markSequence at hq ⊢
  split at hq
  · rename_i hnew
    rw [if_pos hnew]
    exact advanceWindow_marked hnew hq
  · rename_i hnew
    have hseq : ¬ sequence + replayBits ≤ p.highestSequence := of_decide_eq_false hseq
    have hin : p.highestSequence - sequence < replayBits := by omega
    rw [if_neg hnew, if_pos hin]
    unfold Peer.marked
    dsimp only
    rw [Nat.testBit_or, Nat.testBit_two_pow]
    by_cases hqs : q = sequence
    · have hle : sequence ≤ p.highestSequence := by omega
      simp [hqs, hin, hle]
    · by_cases hqle : q ≤ p.highestSequence
      · have hne : p.highestSequence - sequence ≠ p.highestSequence - q := by omega
        simp [hqs, hne]
      · simp [hqs, hqle]

end Window

section Check

variable {K : Type} {c : Crypto K}

/-- `ipv67_packet_replay_seen` lets a packet with this identifier and sequence number pass. -/
def Ctx.freshPacket (s : Ctx K) (e : Env) (i : Option Nat) (hdr : Header K) : Prop :=
  s.freshId e hdr.packetId ∧ (i.isSome = true → hdr.type.isBootstrap = false → hdr.sequence ≠ 0)

instance (s : Ctx K) (e : Env) (i : Option Nat) (hdr : Header K) : Decidable (s.freshPacket e i hdr) :=
  inferInstanceAs (Decidable (_ ∧ _))

theorem packetReplaySeen_seen (s : Ctx K) (e : Env) (i : Option Nat) (hdr : Header K) :
    (s.packetReplaySeen c e i hdr.type hdr.sequence hdr.packetId).1 = false ↔ s.freshPacket e i hdr := by
  have hglobal := globalReplaySeen_seen s e hdr.packetId
  unfold Ctx.packetReplaySeen Ctx.freshPacket
  rw [← hglobal]
  generalize s.globalReplaySeen e hdr.packetId = x
  obtain ⟨seen, s'⟩ := x
  cases seen with
  | true => simp
  | false =>
    cases i with
    | none => simp
    | some i =>
      cases hdr.type.isBootstrap with
      | true => by_cases h : hdr.sequence = 0 <;> simp [h]
      | false => by_cases h : hdr.sequence = 0 <;> simp [h]

theorem packetReplaySeen_replays (s : Ctx K) (e : Env) (i : Option Nat) (type : PacketType)
    (sequence packetId : Nat) :
    (s.packetReplaySeen c e i type sequence packetId).2.replayEntries =
      (s.globalReplaySeen e packetId).2.replayEntries := by
  unfold Ctx.packetReplaySeen
  dsimp only
  split
  · rfl
  · split
    · rfl
    · split
      · split <;> rfl
      · split <;> rfl

/-- What `ipv67_packet_replay_seen` does to the peer of a packet it lets pass. -/
theorem packetReplaySeen_peer {s : Ctx K} {e : Env} {i : Nat} {hdr : Header K}
    (hi : i < s.peers.length)
    (h : (s.packetReplaySeen c e (some i) hdr.type hdr.sequence hdr.packetId).1 = false) :
    (s.packetReplaySeen c e (some i) hdr.type hdr.sequence hdr.packetId).2.peerAt c i =
      if hdr.type.isBootstrap then (s.peerAt c i).markBootstrap hdr.sequence
      else (s.peerAt c i).markSequence hdr.sequence := by
  have hpeers := globalReplaySeen_peers s e hdr.packetId
  unfold Ctx.packetReplaySeen at h ⊢
  generalize s.globalReplaySeen e hdr.packetId = x at h hpeers ⊢
  obtain ⟨seen, s'⟩ := x
  dsimp only at h hpeers ⊢
  have hset : ∀ p : Peer K, (s'.setPeer i p).peerAt c i = p := by
    intro p
    simp [Ctx.setPeer, Ctx.peerAt, hpeers, hi]
  have hat : s'.peerAt c i = s.peerAt c i := by simp only [Ctx.peerAt, hpeers]
  cases seen with
  | true => cases h
  | false =>
    cases hb : hdr.type.isBootstrap with
    | true =>
      by_cases hz : hdr.sequence = 0
      · simp [hz, hat, Peer.markBootstrap]
      · simp [hz, hset, hat]
    | false =>
      by_cases hz : hdr.sequence = 0
      · simp [hb, hz] at h
      · simp [hz, hset, hat]

end Check

section Arrivals

variable {K : Type} {c : Crypto K} [DecidableEq K]

/-- The slot of the peer at the source, if the datagram is signed with the key of its session. -/
def Ctx.signer (c : Crypto K) (s : Ctx K) (d : Datagram K) : Option Nat :=
  (s.findPeer d.source).filter fun j => c.headerHasPeerAuth d.hdr d.payload (some (s.peerAt c j))

/-- The datagram is let pass by `ipv67_packet_replay_seen` and is then processed. -/
def Ctx.processes (c : Crypto K) (s : Ctx K) (e : Env) (d : Datagram K) : Bool :=
  match d.parse with
  | none => false
  | some (src, _) =>
    match s.receiveHead c e d src with
    | (none, _) => false
    | (some a, s') =>
      if d.hdr.type.isAuth then
        s'.acceptsAuth c d a src &&
          !(s'.packetReplaySeen c e (some a.slot) d.hdr.type d.hdr.sequence d.hdr.packetId).1
      else
        !(a.peerAuthOk && (s'.peerAt c a.slot).inSession && !s'.peerAddrVerified c (s'.peerAt c a.slot) &&
          d.hdr.type ≠ .asnAdv && d.hdr.type ≠ .peerReq)

theorem head_other_some {s s' : Ctx K} {e : Env} {d : Datagram K} {src : Addr} {a : Admitted K}
    (ht : d.hdr.type.isAuth = false) (h : s.receiveHead c e d src = (some a, s')) :
    s.verifyHeader c d.hdr d.payload ((s.findPeer d.source).map (s.peerAt c)) = true ∧
      (s.packetReplaySeen c e (s.findPeer d.source) d.hdr.type d.hdr.sequence d.hdr.packetId).1 =
        false := by
  unfold Ctx.receiveHead at h
  dsimp only at h
  rw [ht] at h
  split at h
  · cases h
  · rename_i hv
    refine ⟨by simpa using hv, ?_⟩
    simp only [Bool.false_eq_true, if_false] at h
    split at h
    · cases h
    · rename_i hseen
      simpa using hseen

theorem processes_passed {s : Ctx K} {e : Env} {d : Datagram K} (h : s.processes c e d = true) :
    ∃ i t, s.replayPoint c e d = some (i, t) ∧
      (t.packetReplaySeen c e i d.hdr.type d.hdr.sequence d.hdr.packetId).1 = false := by
  unfold Ctx.processes at h
  unfold Ctx.replayPoint
  cases hparse : d.parse with
  | none =>
    rw [hparse] at h
    cases h
  | some addrs =>
    obtain ⟨src, dst⟩ := addrs
    rw [hparse] at h
    dsimp only at h ⊢
    cases hhead : s.receiveHead c e d src with
    | mk a s' =>
      rw [hhead] at h
      cases a with
      | none => cases h
      | some a =>
        dsimp only at h
        cases ht : d.hdr.type.isAuth with
        | false =>
          obtain ⟨hv, hseen⟩ := head_other_some ht hhead
          exact ⟨_, _, by simp [hv], hseen⟩
        | true =>
          rw [ht] at h
          simp only [if_true, Bool.and_eq_true, Bool.not_eq_true'] at h
          cases hv : s.verifyHeader c d.hdr d.payload ((s.findPeer d.source).map (s.peerAt c)) with
          | false =>
            rw [head_unverified e src hv] at hhead
            cases hhead
          | true => exact ⟨_, _, by simp [h.1], h.2⟩

theorem signer_some {s : Ctx K} {d : Datagram K} {j : Nat} (h : s.signer c d = some j) :
    s.findPeer d.source = some j ∧
      c.headerHasPeerAuth d.hdr d.payload (some (s.peerAt c j)) = true := by
  unfold Ctx.signer at h
  cases hfind : s.findPeer d.source with
  | none =>
    rw [hfind] at h
    cases h
  | some k =>
    rw [hfind, Option.filter_eq_some_iff] at h
    cases h.1
    exact ⟨rfl, h.2⟩

theorem learnPeerEndpoint_known {s : Ctx K} {ep : Endpoint} {j : Nat} (hj : s.findPeer ep = some j)
    (e : Env) (addr : Addr) :
    s.learnPeerEndpoint c e ep addr = (none, s) ∨
      s.learnPeerEndpoint c e ep addr = (some j, s.setPeer j { s.peerAt c j with
        endpoint := ep
        addr := addr
        active := true
        missedProbes := 0
        lastSeenTicks := e.ticks }) := by
  unfold Ctx.learnPeerEndpoint
  rw [hj, Option.some_or]
  dsimp only
  split
  · exact .inl rfl
  · exact .inr rfl

/-- Learning the source of a datagram from a known endpoint changes that peer only, and not its window. -/
theorem learnSource_known {s s' : Ctx K} {e : Env} {d : Datagram K} {src : Addr} {j : Nat}
    {existing : Option Nat} {ok : Bool} {a : Admitted K} (hj : s.findPeer d.source = some j)
    (h : s.learnSource c e d src (some j) existing ok = (some a, s')) :
    a.slot = j ∧ ∃ p, s' = s.setPeer j p ∧ p.highestSequence = (s.peerAt c j).highestSequence ∧
      p.replayWindow = (s.peerAt c j).replayWindow := by
  obtain ⟨p, hp, -⟩ := Slots.find_some hj
  have hlt : j < s.peers.length := (List.getElem?_eq_some_iff.mp hp).1
  unfold Ctx.learnSource at h
  dsimp only at h
  split at h
  · cases h
  · rename_i i s₁ heq
    cases h
    split at heq
    · cases heq
      exact ⟨rfl, _, rfl, rfl, rfl⟩
    · cases learnPeerEndpoint_known (c := c) hj e src with
      | inl hno =>
        rw [hno] at heq
        cases heq
      | inr hyes =>
        rw [hyes] at heq
        cases heq
        refine ⟨rfl, _, setPeer_setPeer j _ _, ?_, ?_⟩
        · rw [peerAt_setPeer hlt]
        · rw [peerAt_setPeer hlt]

/-- A datagram signed by the peer at its source is not dropped before that peer is learnt. -/
theorem head_signer {s s' : Ctx K} {e : Env} {d : Datagram K} {src : Addr} {j : Nat} {a : Admitted K}
    (hj : s.signer c d = some j) (ht : d.hdr.type.isAuth = true)
    (h : s.receiveHead c e d src = (some a, s')) :
    a.slot = j ∧ ∃ p, s' = s.setPeer j p ∧ p.highestSequence = (s.peerAt c j).highestSequence ∧
      p.replayWindow = (s.peerAt c j).replayWindow := by
  obtain ⟨hfind, -⟩ := signer_some hj
  unfold Ctx.receiveHead at h
  dsimp only at h
  rw [ht] at h
  split at h
  · cases h
  · simp only [if_true, Bool.false_eq_true, if_false] at h
    split at h
    · cases h
    · rw [hfind] at h
      exact learnSource_known hfind h

/-- For a datagram signed by the peer at its source that peer is the one the check is made for. -/
theorem replayPoint_signer {s t : Ctx K} {e : Env} {d : Datagram K} {j : Nat} {i : Option Nat}
    (hj : s.signer c d = some j) (h : s.replayPoint c e d = some (i, t)) :
    i = some j ∧ j < t.peers.length ∧ t.replayEntries = s.replayEntries ∧ t.allocs = s.allocs ∧
      (t.peerAt c j).highestSequence = (s.peerAt c j).highestSequence ∧
      (t.peerAt c j).replayWindow = (s.peerAt c j).replayWindow := by
  obtain ⟨hfind, -⟩ := signer_some hj
  obtain ⟨p, hp, -⟩ := Slots.find_some hfind
  have hlt : j < s.peers.length := (List.getElem?_eq_some_iff.mp hp).1
  unfold Ctx.replayPoint at h
  split at h
  · cases h
  · split at h
    · cases h
    · split at h
      · cases h
        exact ⟨hfind, hlt, rfl, rfl, rfl, rfl⟩
      · rename_i ht
        split at h
        · rename_i heq
          split at h
          · cases h
            obtain ⟨rfl, p', rfl, hhigh, hwin⟩ := head_signer hj (by simpa using ht) heq
            refine ⟨rfl, by simpa [Ctx.setPeer] using hlt, rfl, rfl, ?_, ?_⟩
            · rw [peerAt_setPeer hlt, hhigh]
            · rw [peerAt_setPeer hlt, hwin]
          · cases h
        · cases h

end Arrivals

section Runs

variable {K : Type}

/-- A packet signed with a session key that was accepted, with the time. -/
structure Accepted (K : Type) where
  key : K
  hdr : Header K
  payload : Payload K
  time : Nat
deriving DecidableEq

/-- A context with the time and, as a ghost, the packets it accepted. -/
structure Watch (K : Type) where
  ctx : Ctx K
  clock : Nat
  accepted : List (Accepted K)

/-- A datagram arrives some time after the last one; or another call does anything but write the list of
identifiers. -/
inductive WatchOp (K : Type)
  | arrive (elapsed : Nat) (rng : Nat → Nat) (mem : Nat → Bool) (d : Datagram K)
  | call (f : Ctx K → Ctx K)

/-- What an arrival reads from outside, at a time of the 64-bit clock. -/
def Watch.env (w : Watch K) (elapsed : Nat) (rng : Nat → Nat) (mem : Nat → Bool) : Env :=
  { now := (w.clock + elapsed) % 2 ^ 64, rng, mem }

theorem env_fresh {w : Watch K} {elapsed time : Nat} (rng : Nat → Nat) (mem : Nat → Bool)
    (packetId : Nat) (hle : time ≤ w.clock + elapsed) (hage : w.clock + elapsed ≤ time + peerTtlTicks) :
    (w.env elapsed rng mem).replayFresh (packetId, time % 2 ^ 64) = true := by
  unfold peerTtlTicks at hage
  unfold Env.replayFresh Env.replayAge Watch.env peerTtlTicks
  rw [decide_eq_true_iff]
  dsimp only
  omega

variable [DecidableEq K]

def watchStep (c : Crypto K) (w : Watch K) : WatchOp K → Watch K
  | .call f => { w with ctx := { f w.ctx with replayEntries := w.ctx.replayEntries } }
  | .arrive elapsed rng mem d =>
    let e := w.env elapsed rng mem
    { ctx := w.ctx.receive c e d
      clock := w.clock + elapsed
      accepted := match w.ctx.signer c d with
        | some j =>
          if w.ctx.processes c e d then
            ⟨(w.ctx.peerAt c j).sessionKey, d.hdr, d.payload, w.clock + elapsed⟩ :: w.accepted
          else w.accepted
        | none => w.accepted }

/-- The packet was accepted before, under the key of the peer in slot `j`. -/
def Accepted.same (c : Crypto K) (s : Ctx K) (j : Nat) (d : Datagram K) (x : Accepted K) : Prop :=
  x.key = (s.peerAt c j).sessionKey ∧ x.hdr = d.hdr ∧ x.payload = d.payload

/-- A packet signed with a session key is not accepted a second time, the check rejects its sequence
number exactly when that is marked or older than the window, and marks it otherwise. -/
def AcceptedOnce (c : Crypto K) (w : Watch K) : WatchOp K → Prop
  | .call _ => True
  | .arrive elapsed rng mem d =>
    let e := w.env elapsed rng mem
    ∀ j, w.ctx.signer c d = some j →
      (w.ctx.processes c e d = true → ∀ x ∈ w.accepted, ¬ x.same c w.ctx j d) ∧
      ∀ i t, w.ctx.replayPoint c e d = some (i, t) →
        let p := w.ctx.peerAt c j
        let r := t.packetReplaySeen c e i d.hdr.type d.hdr.sequence d.hdr.packetId
        (r.1 = (p.marked d.hdr.sequence || p.tooOld d.hdr.sequence)) ∧
        (r.1 = false → ∀ q, (r.2.peerAt c j).tooOld q = false →
          (r.2.peerAt c j).marked q = (q = d.hdr.sequence || p.marked q))

/-- The list of identifiers does the work of the window of the peer in slot `j`: the packet was not
accepted so long ago that its identifier is no longer listed; its sequence number is marked or too old
just when its identifier is listed, or it is refused for want of memory or of a number; and a bootstrap
type, which marks only a new highest number, has one. -/
def Watch.agrees (c : Crypto K) (w : Watch K) (e : Env) (time : Nat) (d : Datagram K) (j : Nat) : Prop :=
  let p := w.ctx.peerAt c j
  (∀ x ∈ w.accepted, x.same c w.ctx j d → time ≤ x.time + peerTtlTicks) ∧
  (p.marked d.hdr.sequence = true ∨ p.tooOld d.hdr.sequence = true ↔
    ¬ w.ctx.freshPacket e (some j) d.hdr) ∧
  (p.marked d.hdr.sequence = false → p.tooOld d.hdr.sequence = false →
    d.hdr.type.isBootstrap = true → p.highestSequence < d.hdr.sequence)

/-- Every packet signed with a session key that reaches the check finds list and window in agreement. -/
def ListAgrees (c : Crypto K) (w : Watch K) : WatchOp K → Prop
  | .call _ => True
  | .arrive elapsed rng mem d =>
    let e := w.env elapsed rng mem
    ∀ j, w.ctx.signer c d = some j → w.ctx.replayPoint c e d ≠ none →
      w.agrees c e (w.clock + elapsed) d j

instance (c : Crypto K) (s : Ctx K) (j : Nat) (d : Datagram K) (x : Accepted K) :
    Decidable (x.same c s j d) := inferInstanceAs (Decidable (_ ∧ _ ∧ _))

instance (c : Crypto K) (w : Watch K) (e : Env) (time : Nat) (d : Datagram K) (j : Nat) :
    Decidable (w.agrees c e time d j) := inferInstanceAs (Decidable (_ ∧ _ ∧ _))

instance (c : Crypto K) (w : Watch K) : (op : WatchOp K) → Decidable (ListAgrees c w op)
  | .call _ => isTrue trivial
  | .arrive elapsed rng mem d =>
    inferInstanceAs (Decidable (∀ j ∈ w.ctx.signer c d,
      w.ctx.replayPoint c (w.env elapsed rng mem) d ≠ none →
      w.agrees c (w.env elapsed rng mem) (w.clock + elapsed) d j))

/-- The identifier of an accepted packet stays listed for as long as its entry is fresh. -/
def Watch.Remembers (w : Watch K) : Prop :=
  ∀ x ∈ w.accepted, x.time ≤ w.clock ∧
    (w.clock ≤ x.time + peerTtlTicks → (x.hdr.packetId, x.time % 2 ^ 64) ∈ w.ctx.replayEntries)

theorem receive_keeps_fresh {c : Crypto K} {s : Ctx K} {e : Env} {d : Datagram K} {x : Nat × Nat}
    (hx : x ∈ s.replayEntries) (hfresh : e.replayFresh x = true) :
    x ∈ (s.receive c e d).replayEntries := by
  obtain ⟨-, hq⟩ | ⟨i, t, -, hq, hq'⟩ := receive_frame (c := c) s e d
  · rw [hq.quiet.replays]
    exact hx
  · rw [hq'.quiet.replays, packetReplaySeen_replays]
    apply globalReplaySeen_keeps _ hfresh
    rw [hq.quiet.replays]
    exact hx

/-- The identifier of a packet that passes is listed afterwards. -/
theorem receive_lists {c : Crypto K} {s : Ctx K} {e : Env} {d : Datagram K}
    (h : s.processes c e d = true) : (d.hdr.packetId, e.now) ∈ (s.receive c e d).replayEntries := by
  obtain ⟨i, t, hpoint, hpass⟩ := processes_passed h
  obtain ⟨hnone, -⟩ | ⟨i', t', hpoint', -, hq⟩ := receive_frame (c := c) s e d
  · rw [hnone] at hpoint
    cases hpoint
  · rw [hpoint'] at hpoint
    cases hpoint
    rw [hq.quiet.replays, packetReplaySeen_replays]
    apply globalReplaySeen_adds
    rw [packetReplaySeen_seen] at hpass
    exact (globalReplaySeen_seen _ _ _).mpr hpass.1

/-- Where the list of identifiers and the window agree the check is that of a sliding window. -/
theorem check_agrees {c : Crypto K} {s t : Ctx K} {e : Env} {d : Datagram K} {j : Nat} {i : Option Nat}
    (hj : s.signer c d = some j) (hpoint : s.replayPoint c e d = some (i, t))
    (hagree : (s.peerAt c j).marked d.hdr.sequence = true ∨ (s.peerAt c j).tooOld d.hdr.sequence = true ↔
      ¬ s.freshPacket e (some j) d.hdr)
    (hboot : (s.peerAt c j).marked d.hdr.sequence = false →
      (s.peerAt c j).tooOld d.hdr.sequence = false → d.hdr.type.isBootstrap = true →
      (s.peerAt c j).highestSequence < d.hdr.sequence) :
    let p := s.peerAt c j
    let r := t.packetReplaySeen c e i d.hdr.type d.hdr.sequence d.hdr.packetId
    (r.1 = (p.marked d.hdr.sequence || p.tooOld d.hdr.sequence)) ∧
      (r.1 = false → ∀ q, (r.2.peerAt c j).tooOld q = false →
        (r.2.peerAt c j).marked q = (q = d.hdr.sequence || p.marked q)) := by
  obtain ⟨rfl, hlt, hreplays, hallocs, hhigh, hwin⟩ := replayPoint_signer hj hpoint
  have hseen := packetReplaySeen_seen (c := c) t e (some j) d.hdr
  have hfresh : t.freshPacket e (some j) d.hdr ↔ s.freshPacket e (some j) d.hdr := by
    unfold Ctx.freshPacket Ctx.freshId
    rw [hreplays, hallocs]
  rw [hfresh] at hseen
  intro p r
  have hlaw : r.1 = (p.marked d.hdr.sequence || p.tooOld d.hdr.sequence) := by
    rw [Bool.eq_iff_iff, Bool.or_eq_true]
    apply Iff.trans _ hagree.symm
    rw [← hseen, Bool.not_eq_false]
  refine ⟨hlaw, ?_⟩
  intro hpass q hq
  rw [hpass] at hlaw
  obtain ⟨hmark, hold⟩ := Bool.or_eq_false_iff.mp hlaw.symm
  have hpeer := packetReplaySeen_peer hlt hpass
  change r.2.peerAt c j = _ at hpeer
  rw [hpeer] at hq ⊢
  rw [marked_congr hhigh.symm hwin.symm q]
  cases hb : d.hdr.type.isBootstrap with
  | true =>
    have hnew := hboot hmark hold hb
    rw [← hhigh] at hnew
    simp only [hb, if_true, Peer.markBootstrap, if_pos hnew] at hq ⊢
    exact advanceWindow_marked hnew hq
  | false =>
    simp only [hb, Bool.false_eq_true, if_false] at hq ⊢
    apply markSequence_marked _ hq
    unfold Peer.tooOld at hold ⊢
    rw [hhigh]
    exact hold

theorem watchStep_remembers {c : Crypto K} {w : Watch K} (h : w.Remembers) (op : WatchOp K) :
    (watchStep c w op).Remembers := by
  cases op with
  | call f => exact h
  | arrive elapsed rng mem d =>
    have hold : ∀ x ∈ w.accepted, x.time ≤ w.clock + elapsed ∧
        (w.clock + elapsed ≤ x.time + peerTtlTicks → (x.hdr.packetId, x.time % 2 ^ 64) ∈
          (w.ctx.receive c (w.env elapsed rng mem) d).replayEntries) := by
      intro x hx
      obtain ⟨hle, hlisted⟩ := h x hx
      refine ⟨by omega, ?_⟩
      intro hage
      exact receive_keeps_fresh (hlisted (by omega)) (env_fresh rng mem _ (by omega) hage)
    intro x hx
    dsimp only [watchStep] at hx ⊢
    split at hx
    · split at hx
      · rename_i hproc
        cases List.mem_cons.mp hx with
        | inl hnew =>
          subst hnew
          exact ⟨Nat.le_refl _, fun _ => receive_lists hproc⟩
        | inr hx => exact hold x hx
      · exact hold x hx
    · exact hold x hx

/-- A context with one peer in a session, at 1 of the address 9. -/
def sampleSession : Ctx Nat :=
  { Ctx.reset 0 with
    self := some ⟨['a'], ['1'], ['x'], ['1'], ['1']⟩
    identity := some (3, 5)
    peers := [{ Peer.zero sampleCrypto with
      active := true, endpoint := .ipv4 9 1, addr := ⟨['b'], ['1'], ['x'], ['1'], ['1']⟩
      authenticated := true, sessionEstablished := true, publicKey := 4, sessionKey := 77 }]
    peerCount := 1 }

/-- A claim advertisement of that peer, with the sequence number as its identifier. -/
def sampleAsnAdv (sequence : Nat) : Datagram Nat :=
  let hdr : Header Nat :=
    { magic := ipv67Magic, type := .asnAdv, payloadLen := 0, hopLimit := 16, sequence, nonce := 0
      packetId := sequence, signature := 0
      src := addrFormat ⟨['b'], ['1'], ['x'], ['1'], ['1']⟩
      dst := addrFormat ⟨['a'], ['1'], ['x'], ['1'], ['1']⟩ }
  { source := .ipv4 9 1, room := some 0
    hdr := { hdr with signature := sampleCrypto.mac 77 hdr (.asns []) }, payload := .asns [] }

end Runs

end Lebirun.Ipv67
