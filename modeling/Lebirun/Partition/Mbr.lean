import Mathlib
import Lebirun.Partition.Table

namespace Lebirun.Partition
set_option autoImplicit true
open Machine

variable {dev : Blkdev} {mem : Memory} {s s' : Scan} {i base port lba fuel : Nat}

abbrev mbrSignature : Nat := 0xAA55

/-- The fields a scan reads. -/
structure MbrPartitionEntry where
  type : Nat
  lbaStart : Nat
  sectorCount : Nat
  deriving DecidableEq

def mbrSignatureOf (buf : List UInt8) : Option Nat := (bytesAt buf 510 2).map leNat

def mbrEntry (buf : List UInt8) (i : Nat) : Option MbrPartitionEntry :=
  (bytesAt buf (446 + 16 * i) 16).map fun e => ⟨field e 4 1, field e 8 4, field e 12 4⟩

def MbrPartitionEntry.isExtended (pe : MbrPartitionEntry) : Bool := pe.type == 0x05 || pe.type == 0x0F

structure VisitSet where
  lbas : List Nat
  capacity : Nat

inductive Visit where
  | added (visited : VisitSet)
  | seen
  | failed

def ebrVisitAdd (grants : Nat → Bool) (visited : VisitSet) (lba : Nat) : Visit :=
  if lba ∈ visited.lbas then .seen
  else if visited.lbas.length = visited.capacity then
    if visited.capacity > uint64Max / 2 then .failed
    else if visited.capacity * 2 > uint64Max / 8 then .failed
    else if grants (visited.capacity * 2) then .added ⟨visited.lbas ++ [lba], visited.capacity * 2⟩
    else .failed
  else .added ⟨visited.lbas ++ [lba], visited.capacity⟩

theorem ebrVisitAdd_added (h : ebrVisitAdd grants visited lba = .added visited') :
    lba ∉ visited.lbas ∧ visited'.lbas = visited.lbas ++ [lba] := by
  rw [ebrVisitAdd] at h
  split at h
  · cases h
  · rename_i hmem
    apply And.intro hmem
    split at h
    · split at h
      · cases h
      · split at h
        · cases h
        · split at h
          · cases h
            rfl
          · cases h
    · cases h
      rfl

def partitionAddMbrEntry (mem : Memory) (port partNumber startLba sectorCount type : Nat) (s : Scan) :
    Option Scan :=
  s.put mem.parts ⟨true, port, partNumber, startLba, sectorCount, type, List.replicate 16 0, false⟩

/-- The partition an extended boot record describes. -/
def addLogical (dev : Blkdev) (mem : Memory) (port ebrLba : Nat) (logical : MbrPartitionEntry)
    (s : Scan) : Flow :=
  if logical.type ≠ 0 ∧ ¬logical.isExtended ∧ logical.lbaStart ≠ 0 ∧ logical.sectorCount ≠ 0 then
    if logical.lbaStart ≤ uint64Max - ebrLba then
      let logicalStart := ebrLba + logical.lbaStart
      if logicalStart < dev.sectors ∧ logical.sectorCount ≤ dev.sectors - logicalStart then
        match partitionAddMbrEntry mem port s.logicalNumber logicalStart logical.sectorCount
            logical.type s with
        | none => s.fail
        | some s => .ok { s with logicalNumber := s.logicalNumber + 1 }
      else .ok s
    else .ok s
  else .ok s

/-- Links count from the first record; 0 ends the chain. -/
def nextEbr (base : Nat) (link : MbrPartitionEntry) : Nat :=
  if link.isExtended ∧ link.lbaStart ≠ 0 ∧ link.lbaStart ≤ uint64Max - base then base + link.lbaStart
  else 0

/-- The chain of records of the primary entry `i`. -/
def ebrWalk (dev : Blkdev) (mem : Memory) (port i base : Nat) :
    Nat → VisitSet → Nat → Scan → Flow
  | 0, _, _, s => .error (.spin, s)
  | fuel + 1, visited, ebrLba, s =>
    if ebrLba = 0 then .ok s
    else if ebrLba ≥ dev.sectors then .ok s
    else
      match ebrVisitAdd (mem.visit i) visited ebrLba with
      | .failed => s.fail
      | .seen => .ok s
      | .added visited =>
        let data := blkdevRead dev s.requests.length ebrLba 1
        let s := s.request ⟨some i, ebrLba, 1⟩
        match data with
        | none => .ok s
        | some buf =>
          match mbrSignatureOf buf, mbrEntry buf 0, mbrEntry buf 1 with
          | some signature, some logical, some link =>
            if signature ≠ mbrSignature then .ok s
            else addLogical dev mem port ebrLba logical s >>=
              ebrWalk dev mem port i base fuel visited (nextEbr base link)
          | _, _, _ => .error (.outside, s)

def primaryTurn (fuel : Nat) (dev : Blkdev) (mem : Memory) (port i : Nat) (pe : MbrPartitionEntry)
    (s : Scan) : Flow :=
  if pe.type = 0 then .ok s
  else if pe.lbaStart = 0 ∨ pe.sectorCount = 0 then .ok s
  else if pe.isExtended then ebrWalk dev mem port i pe.lbaStart fuel ⟨[], 8⟩ pe.lbaStart s
  else if pe.lbaStart ≥ dev.sectors ∨ pe.sectorCount > dev.sectors - pe.lbaStart then .ok s
  else
    match partitionAddMbrEntry mem port (i + 1) pe.lbaStart pe.sectorCount pe.type s with
    | none => s.fail
    | some s => .ok s

def primaryTurns (fuel : Nat) (dev : Blkdev) (mem : Memory) (port : Nat) :
    Nat → List MbrPartitionEntry → Scan → Flow
  | _, [], s => .ok s
  | i, pe :: l, s => primaryTurn fuel dev mem port i pe s >>= primaryTurns fuel dev mem port (i + 1) l

/-- `table->count` is written at the end only. -/
def Flow.result : Flow → ScanResult
  | .ok s => ⟨s.requests, { s.table with count := s.count }, .ok⟩
  | .error (e, s) => ⟨s.requests, s.table, e⟩

/-- `partition_scan_mbr` on the device `blkdev_get` finds. -/
def partitionScanMbr (fuel : Nat) (dev : Option Blkdev) (mem : Memory) (port : Nat)
    (table : PartitionTable) : ScanResult :=
  match dev with
  | none => ⟨[], table, .failed⟩
  | some dev =>
    if ¬mem.buffer then ⟨[], table, .failed⟩
    else
      let requests := [⟨none, 0, 1⟩]
      match blkdevRead dev 0 0 1 with
      | none => ⟨requests, table, .failed⟩
      | some buf =>
        match mbrSignatureOf buf, (List.range mbrPartitionCount).mapM (mbrEntry buf) with
        | some signature, some primary =>
          if signature ≠ mbrSignature then ⟨requests, table, .failed⟩
          else
            Flow.result
              (primaryTurns fuel dev mem port 0 primary ⟨requests, { table with isGpt := false }, 0, 5⟩)
        | _, _ => ⟨requests, table, .outside⟩

/-- The sectors a request covers are sectors of the device. -/
def Request.Inside (sectors : Nat) (r : Request) : Prop := ∀ k < r.count, r.lba + k < sectors

/-- A partition of the device. -/
def PartitionInfo.Inside (sectors : Nat) (p : PartitionInfo) : Prop :=
  0 < p.sectorCount ∧ p.startLba + p.sectorCount ≤ sectors

/-- The records read for the primary entry `i`. -/
def walked (requests : List Request) (i : Nat) : List Nat :=
  (requests.filter fun r => r.extended == some i).map Request.lba

/-- What a scan that found the table `before` on a device of `sectors` sectors has to keep to. -/
structure Bounded (sectors : Nat) (before : PartitionTable) (r : ScanResult) : Prop where
  ends : r.stop ≠ .spin
  buffers : r.stop ≠ .outside
  requests : ∀ q ∈ r.requests, q.Inside sectors
  once : ∀ i, (walked r.requests i).Nodup
  reported : r.stop = .ok → ∀ p ∈ r.table.reported, p.Inside sectors
  failed : r.stop = .failed → r.table = ⟨0, false, []⟩ ∨ r.table = before

theorem walked_append :
    walked (requests ++ [r]) i =
      walked requests i ++ if r.extended = some i then [r.lba] else [] := by
  rw [walked, walked, List.filter_append, List.map_append]
  congr 1
  by_cases h : r.extended = some i
  · simp [h]
  · simp [h]

/-- The requests of a scan so far. -/
structure Asked (sectors : Nat) (requests : List Request) : Prop where
  inside : ∀ q ∈ requests, q.Inside sectors
  once : ∀ i, (walked requests i).Nodup

/-- What a scan keeps while it goes on, ... -/
structure Going (sectors : Nat) (s : Scan) : Prop where
  asked : Asked sectors s.requests
  room : s.count ≤ s.table.parts.length
  parts : ∀ p ∈ s.table.parts.take s.count, p.Inside sectors

/-- ... and what holds where it gives up. -/
structure GivenUp (sectors : Nat) (e : End) (s : Scan) : Prop where
  failed : e = .failed
  asked : Asked sectors s.requests
  freed : s.table = ⟨0, false, []⟩

theorem Going.fail (h : Going sectors s) : Post I (GivenUp sectors) s.fail :=
  Post.error ⟨rfl, h.asked, rfl⟩

theorem Going.put (h : Going sectors s) (hput : s.put grants p = some s') (hp : p.Inside sectors) :
    Going sectors s' ∧ s'.requests = s.requests := by
  obtain ⟨hreq, -, -, -, -, hroom, hparts⟩ := put_spec h.room hput
  refine ⟨⟨?_, hroom, ?_⟩, hreq⟩
  · rw [hreq]
    exact h.asked
  · intro q hq
    rw [hparts, List.mem_append, List.mem_singleton] at hq
    obtain hq | rfl := hq
    · exact h.parts q hq
    · exact hp

theorem addLogical_post (h : Going dev.sectors s) :
    Post (fun s' => Going dev.sectors s' ∧ s'.requests = s.requests) (GivenUp dev.sectors)
      (addLogical dev mem port lba logical s) := by
  rw [addLogical]
  split
  · rename_i hl
    split
    · dsimp only
      split
      · rename_i hfit
        split
        · exact h.fail
        · rename_i s' hput
          have hinside : PartitionInfo.Inside dev.sectors ⟨true, port, s.logicalNumber,
              lba + logical.lbaStart, logical.sectorCount, logical.type, List.replicate 16 0, false⟩ := by
            simp only [PartitionInfo.Inside]
            omega
          obtain ⟨hgoing, hreq⟩ := h.put hput hinside
          exact Post.ok ⟨⟨hgoing.asked, hgoing.room, hgoing.parts⟩, hreq⟩
      · exact Post.ok ⟨h, rfl⟩
    · exact Post.ok ⟨h, rfl⟩
  · exact Post.ok ⟨h, rfl⟩

/-- A sector that was read holds a signature and its entries. -/
theorem mbr_fields (h : blkdevRead dev k lba 1 = some buf) :
    (∃ signature, mbrSignatureOf buf = some signature) ∧ ∀ j < 4, ∃ pe, mbrEntry buf j = some pe := by
  have hlen : buf.length = 512 := by
    rw [blkdevRead] at h
    split at h
    · cases h
    · split at h
      · cases h
      · exact dev.transfer_length h
  constructor
  · rw [mbrSignatureOf, bytesAt, if_pos (by omega)]
    exact ⟨_, rfl⟩
  · intro j hj
    rw [mbrEntry, bytesAt, if_pos (by omega)]
    exact ⟨_, rfl⟩

/-- The walk of the chain of the primary entry `i`, after the records in `visited`. -/
theorem ebrWalk_post (h : Going dev.sectors s) (hw : walked s.requests i = visited.lbas)
    (hin : ∀ x ∈ visited.lbas, x < dev.sectors) (hlater : ∀ j, i < j → walked s.requests j = [])
    (hfuel : dev.sectors < fuel + visited.lbas.length) :
    Post (fun s' => Going dev.sectors s' ∧ ∀ j, i < j → walked s'.requests j = [])
      (GivenUp dev.sectors) (ebrWalk dev mem port i base fuel visited lba s) := by
  have hnodup : visited.lbas.Nodup := hw ▸ h.asked.once i
  induction fuel generalizing s visited lba with
  | zero =>
    have hle : visited.lbas.length ≤ dev.sectors := by
      have hsub : visited.lbas ⊆ List.range dev.sectors := fun x hx => List.mem_range.mpr (hin x hx)
      simpa using (hnodup.subperm hsub).length_le
    omega
  | succ fuel ih =>
    rw [ebrWalk]
    split
    · exact Post.ok ⟨h, hlater⟩
    · split
      · exact Post.ok ⟨h, hlater⟩
      · rename_i hlba
        split
        · exact h.fail
        · exact Post.ok ⟨h, hlater⟩
        · rename_i visited' hadd
          obtain ⟨hmem, hlbas⟩ := ebrVisitAdd_added hadd
          have hreq : Going dev.sectors (s.request ⟨some i, lba, 1⟩) := by
            refine ⟨⟨?_, ?_⟩, h.room, h.parts⟩
            · intro q hq
              rw [Scan.request, List.mem_append, List.mem_singleton] at hq
              obtain hq | rfl := hq
              · exact h.asked.inside q hq
              · intro k hk
                dsimp only at hk ⊢
                omega
            · intro j
              rw [Scan.request, walked_append]
              by_cases hj : i = j
              · subst hj
                rw [if_pos rfl, hw, List.nodup_append]
                refine ⟨hnodup, List.nodup_singleton _, ?_⟩
                intro a ha b hb
                rw [List.mem_singleton] at hb
                rintro rfl
                rw [hb] at ha
                exact hmem ha
              · rw [if_neg (by simpa using hj), List.append_nil]
                exact h.asked.once j
          have hw' : walked (s.request ⟨some i, lba, 1⟩).requests i = visited'.lbas := by
            rw [Scan.request, walked_append, if_pos rfl, hw, hlbas]
          have hlater' : ∀ j, i < j → walked (s.request ⟨some i, lba, 1⟩).requests j = [] := by
            intro j hj
            rw [Scan.request, walked_append, if_neg (by simp; omega), hlater j hj]
            rfl
          dsimp only
          split
          · exact Post.ok ⟨hreq, hlater'⟩
          · rename_i buf hread
            obtain ⟨⟨signature, hsig⟩, hentry⟩ := mbr_fields hread
            obtain ⟨logical, hlogical⟩ := hentry 0 (by decide)
            obtain ⟨link, hlink⟩ := hentry 1 (by decide)
            rw [hsig, hlogical, hlink]
            dsimp only
            split
            · exact Post.ok ⟨hreq, hlater'⟩
            · apply (addLogical_post hreq).bind
              rintro s' ⟨hgoing, hsame⟩
              apply ih hgoing
              · rw [hsame, hw']
              · intro x hx
                rw [hlbas, List.mem_append, List.mem_singleton] at hx
                obtain hx | rfl := hx
                · exact hin x hx
                · omega
              · rw [hsame]
                exact hlater'
              · rw [hlbas, List.length_append, List.length_singleton]
                omega
              · rw [← hw', ← hsame]
                exact hgoing.asked.once i

theorem primaryTurn_post (hfuel : dev.sectors < fuel) (h : Going dev.sectors s)
    (hlater : ∀ j, i ≤ j → walked s.requests j = []) :
    Post (fun s' => Going dev.sectors s' ∧ ∀ j, i + 1 ≤ j → walked s'.requests j = [])
      (GivenUp dev.sectors) (primaryTurn fuel dev mem port i pe s) := by
  have hnext : ∀ j, i + 1 ≤ j → walked s.requests j = [] := fun j hj => hlater j (by omega)
  rw [primaryTurn]
  split
  · exact Post.ok ⟨h, hnext⟩
  · split
    · exact Post.ok ⟨h, hnext⟩
    · rename_i hfields
      split
      · apply ebrWalk_post h
        · exact hlater i (Nat.le_refl i)
        · intro x hx
          cases hx
        · exact hnext
        · exact hfuel
      · split
        · exact Post.ok ⟨h, hnext⟩
        · rename_i hfit
          split
          · exact h.fail
          · rename_i s' hput
            have hinside : PartitionInfo.Inside dev.sectors ⟨true, port, i + 1, pe.lbaStart,
                pe.sectorCount, pe.type, List.replicate 16 0, false⟩ := by
              simp only [PartitionInfo.Inside]
              omega
            obtain ⟨hgoing, hreq⟩ := h.put hput hinside
            exact Post.ok ⟨hgoing, by rwa [hreq]⟩

theorem primaryTurns_post (hfuel : dev.sectors < fuel) (h : Going dev.sectors s)
    (hlater : ∀ j, i ≤ j → walked s.requests j = []) :
    Post (Going dev.sectors) (GivenUp dev.sectors) (primaryTurns fuel dev mem port i l s) := by
  induction l generalizing i s with
  | nil => exact Post.ok h
  | cons pe l ih =>
    rw [primaryTurns]
    apply (primaryTurn_post hfuel h hlater).bind
    rintro s' ⟨hgoing, hnext⟩
    exact ih hgoing hnext

/-- A table that is given back, or was not touched. -/
theorem bounded_failed (h : Asked sectors requests) (ht : table = ⟨0, false, []⟩ ∨ table = before) :
    Bounded sectors before ⟨requests, table, .failed⟩ :=
  ⟨by simp, by simp, h.inside, h.once, by simp, fun _ => ht⟩

theorem bounded_result (h : Post (Going sectors) (GivenUp sectors) flow) :
    Bounded sectors before (Flow.result flow) := by
  cases flow with
  | ok s => exact ⟨by simp [Flow.result], by simp [Flow.result], h.asked.inside, h.asked.once,
      fun _ => h.parts, by simp [Flow.result]⟩
  | error p =>
    obtain ⟨e, s⟩ := p
    obtain ⟨rfl, hasked, hfreed⟩ := h
    exact bounded_failed hasked (.inl hfreed)

theorem mapM_mbrEntry (h : ∀ j < 4, ∃ pe, mbrEntry buf j = some pe) :
    ∃ primary, (List.range mbrPartitionCount).mapM (mbrEntry buf) = some primary := by
  obtain ⟨a, ha⟩ := h 0 (by decide)
  obtain ⟨b, hb⟩ := h 1 (by decide)
  obtain ⟨c, hc⟩ := h 2 (by decide)
  obtain ⟨d, hd⟩ := h 3 (by decide)
  exact ⟨[a, b, c, d], by simp [List.range_succ, ha, hb, hc, hd]⟩

theorem asked_none : Asked sectors [] := ⟨by simp, fun _ => List.nodup_nil⟩

/-- The first request of a scan. -/
theorem asked_first (h : lba < sectors) : Asked sectors [⟨none, lba, 1⟩] := by
  constructor
  · intro q hq k hk
    rw [List.mem_singleton] at hq
    subst q
    dsimp only at hk ⊢
    omega
  · intro i
    exact List.nodup_nil

/-- Every device that has its first sector is scanned within its bounds. -/
theorem partitionScanMbr_bounded (hpos : 0 < dev.sectors) (hfuel : dev.sectors < fuel) :
    Bounded dev.sectors table (partitionScanMbr fuel (some dev) mem port table) := by
  rw [partitionScanMbr]
  dsimp only
  split
  · exact bounded_failed asked_none (.inr rfl)
  · split
    · exact bounded_failed (asked_first hpos) (.inr rfl)
    · rename_i buf hread
      obtain ⟨⟨signature, hsig⟩, hentry⟩ := mbr_fields hread
      obtain ⟨primary, hprimary⟩ := mapM_mbrEntry hentry
      rw [hsig, hprimary]
      dsimp only
      split
      · exact bounded_failed (asked_first hpos) (.inr rfl)
      · apply bounded_result
        apply primaryTurns_post hfuel
        · exact ⟨asked_first hpos, Nat.zero_le _, by simp⟩
        · intro j _
          rfl

/-- Where there are no sectors nothing but the first read is tried. -/
theorem primaryTurns_empty (hzero : dev.sectors = 0) (hfuel : 0 < fuel) :
    primaryTurns fuel dev mem port i l s = .ok s := by
  induction l generalizing i with
  | nil => rfl
  | cons pe l ih =>
    have hturn : primaryTurn fuel dev mem port i pe s = .ok s := by
      obtain ⟨n, rfl⟩ := Nat.exists_eq_add_of_lt hfuel
      rw [primaryTurn]
      split
      · rfl
      · split
        · rfl
        · split
          · rw [Nat.zero_add, ebrWalk, hzero, if_pos (Nat.zero_le _), ite_self]
          · rw [hzero, if_pos (.inl (Nat.zero_le _))]
    rw [primaryTurns, hturn]
    exact ih

theorem partitionScanMbr_first (hzero : dev.sectors = 0) (hfuel : 0 < fuel) (hmem : mem.buffer) :
    (partitionScanMbr fuel (some dev) mem port table).requests = [⟨none, 0, 1⟩] := by
  rw [partitionScanMbr]
  dsimp only
  rw [if_neg (by simpa using hmem)]
  split
  · rfl
  · split
    · split
      · rfl
      · rw [primaryTurns_empty hzero hfuel]
        rfl
    · rfl

def sectorsOf (dev : Option Blkdev) : Nat := (dev.map Blkdev.sectors).getD 0

/-- The scan of a boot record keeps its bounds on every device but an empty one, whose first
sector it asks for all the same. -/
theorem partitionScanMbr_iff {dev : Option Blkdev} (hfuel : sectorsOf dev < fuel) :
    Bounded (sectorsOf dev) table (partitionScanMbr fuel dev mem port table) ↔
      dev = none ∨ mem.buffer = false ∨ 0 < sectorsOf dev := by
  cases dev with
  | none => simp [partitionScanMbr, bounded_failed asked_none]
  | some dev =>
    constructor
    · intro h
      by_contra hc
      simp only [reduceCtorEq, false_or, not_or, Bool.not_eq_false, Nat.not_lt, Nat.le_zero] at hc
      have hreq := h.requests ⟨none, 0, 1⟩
      rw [partitionScanMbr_first hc.2 (by omega) hc.1, hc.2] at hreq
      exact absurd (hreq (List.mem_singleton.mpr rfl) 0 Nat.one_pos) (by simp)
    · rintro (h | h | h)
      · cases h
      · rw [partitionScanMbr]
        dsimp only
        rw [if_pos (by simp [h])]
        exact bounded_failed asked_none (.inr rfl)
      · exact partitionScanMbr_bounded h hfuel

end Lebirun.Partition
