import Mathlib
import Lebirun.Partition.Mbr

namespace Lebirun.Partition
set_option autoImplicit true
open Machine

variable {dev : Blkdev} {mem : Memory} {s s' : Scan} {i k port cap : Nat} {table : PartitionTable}

abbrev gptSignature : Nat := 0x5452415020494645
abbrev gptHeaderLba : Nat := 1
abbrev gptRevision : Nat := 0x00010000
abbrev gptEntrySize : Nat := 128
abbrev entryBufSize : Nat := 1024

/-- Sums and products of sector numbers are `uint64_t`. -/
abbrev wrap64 (n : Nat) : Nat := n % 2 ^ 64

structure GptHeader where
  signature : Nat
  revision : Nat
  partitionEntryLba : Nat
  numPartitionEntries : Nat
  partitionEntrySize : Nat

def gptHeader (buf : List UInt8) : Option GptHeader :=
  (bytesAt buf 0 92).map fun h => ⟨field h 0 8, field h 8 4, field h 72 8, field h 80 4, field h 84 4⟩

structure GptPartitionEntry where
  typeGuid : List UInt8
  startingLba : Nat
  endingLba : Nat

def gptEntry (buf : List UInt8) (offset : Nat) : Option GptPartitionEntry :=
  (bytesAt buf offset gptEntrySize).map fun e => ⟨e.take 16, field e 32 8, field e 40 8⟩

def partitionIsGuidZero (guid : List UInt8) : Bool := guid.all (· == 0)

/-- An entry that is not skipped. -/
def GptPartitionEntry.used (gpe : GptPartitionEntry) : Bool :=
  !partitionIsGuidZero gpe.typeGuid && gpe.startingLba != 0 && gpe.endingLba != 0 &&
    decide (gpe.startingLba ≤ gpe.endingLba)

def GptPartitionEntry.info (gpe : GptPartitionEntry) (port i : Nat) : PartitionInfo :=
  ⟨true, port, i + 1, gpe.startingLba, wrap64 (gpe.endingLba - gpe.startingLba + 1), 0, gpe.typeGuid,
    true⟩

/-- The checks on the header; `sectors_needed` is the size of the whole table of entries. -/
def GptHeader.usable (hdr : GptHeader) (sectors : Nat) : Bool :=
  let num := hdr.numPartitionEntries
  let size := hdr.partitionEntrySize
  let sectorsNeeded := (num * size + 511) / 512
  hdr.signature == gptSignature && decide (gptRevision ≤ hdr.revision) &&
    decide (gptEntrySize ≤ size) && num != 0 && decide (size ≤ uint64Max / num) &&
    decide (num * size ≤ uint64Max - 511) && decide (sectorsNeeded ≤ uint64Max / 512) &&
    decide (hdr.partitionEntryLba ≤ sectors) &&
    decide (sectorsNeeded ≤ sectors - hdr.partitionEntryLba)

def GptHeader.entryOffset (hdr : GptHeader) (i : Nat) : Nat := wrap64 (i * hdr.partitionEntrySize)

def GptHeader.entrySectorOffset (hdr : GptHeader) (i : Nat) : Nat := hdr.entryOffset i % 512

def GptHeader.entrySectors (hdr : GptHeader) (i : Nat) : Nat :=
  (hdr.entrySectorOffset i + gptEntrySize + 511) / 512

def GptHeader.entryRequest (hdr : GptHeader) (i : Nat) : Request :=
  ⟨none, wrap64 (hdr.partitionEntryLba + hdr.entryOffset i / 512), hdr.entrySectors i⟩

/-- One turn of the loop over the entries. -/
def gptTurn (dev : Blkdev) (mem : Memory) (port : Nat) (hdr : GptHeader) (i : Nat) (s : Scan) : Flow :=
  let q := hdr.entryRequest i
  if q.count * 512 > entryBufSize then .error (.outside, s)
  else
    let data := blkdevRead dev s.requests.length q.lba q.count
    let s := s.request q
    match data with
    | none => s.fail
    | some buf =>
      match gptEntry buf (hdr.entrySectorOffset i) with
      | none => .error (.outside, s)
      | some gpe =>
        if ¬gpe.used then .ok s
        else if i ≥ int32Max then s.fail
        else
          match s.put mem.parts (gpe.info port i) with
          | none => s.fail
          | some s => .ok s

/-- The loop up to the entry `k`. -/
def gptTurns (dev : Blkdev) (mem : Memory) (port : Nat) (hdr : GptHeader) : Nat → Scan → Flow
  | 0, s => .ok s
  | k + 1, s => gptTurns dev mem port hdr k s >>= gptTurn dev mem port hdr k

def partitionScanGpt (dev : Option Blkdev) (mem : Memory) (port : Nat) (table : PartitionTable) :
    ScanResult :=
  match dev with
  | none => ⟨[], table, .failed⟩
  | some dev =>
    if ¬mem.buffer then ⟨[], table, .failed⟩
    else
      let requests := [⟨none, gptHeaderLba, 1⟩]
      match blkdevRead dev 0 gptHeaderLba 1 with
      | none => ⟨requests, table, .failed⟩
      | some buf =>
        match gptHeader buf with
        | none => ⟨requests, table, .outside⟩
        | some hdr =>
          if ¬hdr.usable dev.sectors then ⟨requests, table, .failed⟩
          else
            Flow.result (gptTurns dev mem port hdr hdr.numPartitionEntries
              ⟨requests, { table with isGpt := true }, 0, 0⟩)

/-- The header of a device whose entries are scanned. -/
def gptFound (dev : Blkdev) : Option GptHeader :=
  ((blkdevRead dev 0 gptHeaderLba 1).bind gptHeader).filter fun hdr => hdr.usable dev.sectors

variable {hdr : GptHeader}

/-- The entry `i` as the device gives it. -/
def gptEntryRead (dev : Blkdev) (hdr : GptHeader) (i : Nat) : Option GptPartitionEntry :=
  (blkdevRead dev (i + 1) (hdr.entryRequest i).lba (hdr.entryRequest i).count).bind fun buf =>
    gptEntry buf (hdr.entrySectorOffset i)

def gptInfo (dev : Blkdev) (hdr : GptHeader) (port i : Nat) : Option PartitionInfo :=
  (gptEntryRead dev hdr i).bind fun gpe => if gpe.used then some (gpe.info port i) else none

/-- The capacity of the table after `n` entries were put in it one by one. -/
def capacityAfter (grants : Nat → Bool) (cap : Nat) : Nat → Option Nat
  | 0 => some cap
  | n + 1 => (capacityAfter grants cap n).bind fun c => partitionTableReserve grants c (n + 1)

/-- The first `k` entries can be read, have numbers that fit an `int` and a place in the table. -/
structure GptReadable (dev : Blkdev) (grants : Nat → Bool) (cap : Nat) (hdr : GptHeader) (port k : Nat) :
    Prop where
  entries : ∀ i < k, ∃ gpe, gptEntryRead dev hdr i = some gpe ∧ (gpe.used → i < int32Max)
  room : (capacityAfter grants cap ((List.range k).filterMap (gptInfo dev hdr port)).length).isSome

/-- After the entries before `k`. -/
structure GptDone (dev : Blkdev) (grants : Nat → Bool) (cap : Nat) (hdr : GptHeader) (port k : Nat)
    (s : Scan) : Prop where
  asked : Asked dev.sectors s.requests
  length : s.requests.length = k + 1
  room : s.count ≤ s.table.parts.length
  capacity : capacityAfter grants cap s.count = some s.table.parts.length
  entries : ∀ i < k, ∃ gpe, gptEntryRead dev hdr i = some gpe ∧ (gpe.used → i < int32Max)
  parts : s.table.parts.take s.count = (List.range k).filterMap (gptInfo dev hdr port)

theorem GptDone.count (h : GptDone dev grants cap hdr port k s) :
    s.count = ((List.range k).filterMap (gptInfo dev hdr port)).length := by
  rw [← h.parts, List.length_take_of_le h.room]

theorem GptDone.readable (h : GptDone dev grants cap hdr port k s) :
    GptReadable dev grants cap hdr port k := by
  refine ⟨h.entries, ?_⟩
  rw [← h.count, h.capacity]
  rfl

theorem filterMap_range_succ (f : Nat → Option α) :
    (List.range (k + 1)).filterMap f = (List.range k).filterMap f ++ (f k).toList := by
  rw [List.range_succ, List.filterMap_append]
  cases h : f k <;> simp [h]

theorem capacityAfter_le (h : (capacityAfter grants cap n).isSome) (hle : m ≤ n) :
    (capacityAfter grants cap m).isSome := by
  induction n with
  | zero =>
    rw [Nat.le_zero.mp hle]
    exact h
  | succ n ih =>
    obtain rfl | hlt := Nat.eq_or_lt_of_le hle
    · exact h
    · apply ih _ (by omega)
      rw [capacityAfter] at h
      cases hc : capacityAfter grants cap n with
      | none => simp [hc] at h
      | some c => rfl

theorem GptReadable.before (h : GptReadable dev grants cap hdr port (k + 1)) :
    GptReadable dev grants cap hdr port k := by
  refine ⟨fun i hi => h.entries i (by omega), capacityAfter_le h.room ?_⟩
  rw [filterMap_range_succ, List.length_append]
  omega

/-- What the checks on the header make sure of. -/
theorem usable_entries (h : hdr.usable sectors) :
    0 < hdr.numPartitionEntries ∧ gptEntrySize ≤ hdr.partitionEntrySize ∧
      hdr.numPartitionEntries * hdr.partitionEntrySize ≤ uint64Max - 511 ∧
      hdr.partitionEntryLba ≤ sectors ∧
      (hdr.numPartitionEntries * hdr.partitionEntrySize + 511) / 512 ≤
        sectors - hdr.partitionEntryLba := by
  simp only [GptHeader.usable, Bool.and_eq_true, decide_eq_true_eq, bne_iff_ne, beq_iff_eq] at h
  omega

/-- An entry is read from at most two sectors, which belong to the device and fit the buffer. -/
theorem entryRequest_inside (h : hdr.usable dev.sectors) (hi : i < hdr.numPartitionEntries) :
    (hdr.entryRequest i).Inside dev.sectors ∧ (hdr.entryRequest i).count * 512 ≤ entryBufSize ∧
      hdr.entrySectorOffset i + gptEntrySize ≤ (hdr.entryRequest i).count * 512 := by
  obtain ⟨-, hsize, hmax, hlba, hfit⟩ := usable_entries h
  have hsectors := dev.sectors_le
  have hvalue : uint64Max = 0xFFFFFFFFFFFFFFFF ∧ gptEntrySize = 128 ∧ entryBufSize = 1024 :=
    ⟨rfl, rfl, rfl⟩
  have hend : i * hdr.partitionEntrySize + hdr.partitionEntrySize ≤
      hdr.numPartitionEntries * hdr.partitionEntrySize := by
    rw [← Nat.succ_mul]
    exact Nat.mul_le_mul_right _ hi
  have hoffset : hdr.entryOffset i = i * hdr.partitionEntrySize := Nat.mod_eq_of_lt (by omega)
  have hmod : hdr.entrySectorOffset i = i * hdr.partitionEntrySize % 512 := by
    rw [GptHeader.entrySectorOffset, hoffset]
  have hcount : (hdr.entryRequest i).count =
      (i * hdr.partitionEntrySize % 512 + gptEntrySize + 511) / 512 := by
    rw [GptHeader.entryRequest, GptHeader.entrySectors, hmod]
  have hstart : (hdr.entryRequest i).lba =
      hdr.partitionEntryLba + i * hdr.partitionEntrySize / 512 := by
    rw [GptHeader.entryRequest, hoffset, wrap64, Nat.mod_eq_of_lt (by omega)]
  rw [hmod]
  refine ⟨?_, by omega, by omega⟩
  intro j hj
  omega

theorem blkdevRead_length (h : blkdevRead dev k lba count = some buf) : buf.length = count * 512 := by
  rw [blkdevRead] at h
  split at h
  · cases h
  · split at h
    · cases h
    · exact dev.transfer_length h

theorem asked_append (h : Asked sectors requests) (hq : q.Inside sectors) (hnone : q.extended = none) :
    Asked sectors (requests ++ [q]) := by
  constructor
  · intro r hr
    rw [List.mem_append, List.mem_singleton] at hr
    obtain hr | rfl := hr
    · exact h.inside r hr
    · exact hq
  · intro i
    rw [walked_append, hnone, if_neg (by simp), List.append_nil]
    exact h.once i

/-- A turn that finds the entry, with the request made. -/
theorem gptTurn_read (hin : hdr.usable dev.sectors) (hk : k < hdr.numPartitionEntries)
    (hlen : s.requests.length = k + 1) (hread : gptEntryRead dev hdr k = some gpe) :
    gptTurn dev mem port hdr k s =
      if ¬gpe.used then .ok (s.request (hdr.entryRequest k))
      else if k ≥ int32Max then (s.request (hdr.entryRequest k)).fail
      else
        match (s.request (hdr.entryRequest k)).put mem.parts (gpe.info port k) with
        | none => (s.request (hdr.entryRequest k)).fail
        | some s => .ok s := by
  rw [gptEntryRead, Option.bind_eq_some_iff] at hread
  obtain ⟨buf, hbuf, hgpe⟩ := hread
  have hsmall := (entryRequest_inside hin hk).2.1
  rw [gptTurn]
  dsimp only
  rw [if_neg (by omega), hlen, hbuf]
  dsimp only
  rw [hgpe]

/-- A turn that does not find it. -/
theorem gptTurn_unread (hin : hdr.usable dev.sectors) (hk : k < hdr.numPartitionEntries)
    (hlen : s.requests.length = k + 1) (hread : gptEntryRead dev hdr k = none) :
    gptTurn dev mem port hdr k s = (s.request (hdr.entryRequest k)).fail := by
  obtain ⟨-, hsmall, hroom⟩ := entryRequest_inside hin hk
  rw [gptTurn]
  dsimp only
  rw [if_neg (by omega), hlen]
  cases hbuf : blkdevRead dev (k + 1) (hdr.entryRequest k).lba (hdr.entryRequest k).count with
  | none => rfl
  | some buf =>
    rw [gptEntryRead, hbuf, Option.bind_some, gptEntry, bytesAt, blkdevRead_length hbuf,
      if_pos hroom] at hread
    cases hread

/-- The step of the loop: one more request and, for an entry that is used, one more partition. -/
theorem GptDone.turn (h : GptDone dev mem.parts cap hdr port k s) (hin : hdr.usable dev.sectors)
    (hk : k < hdr.numPartitionEntries) :
    Post (GptDone dev mem.parts cap hdr port (k + 1)) (GivenUp dev.sectors)
      (gptTurn dev mem port hdr k s) := by
  have hasked : Asked dev.sectors (s.request (hdr.entryRequest k)).requests :=
    asked_append h.asked (entryRequest_inside hin hk).1 rfl
  have hlength : (s.request (hdr.entryRequest k)).requests.length = k + 1 + 1 := by
    rw [Scan.request, List.length_append, h.length]
    rfl
  have hfail : Post (GptDone dev mem.parts cap hdr port (k + 1)) (GivenUp dev.sectors)
      (s.request (hdr.entryRequest k)).fail := Post.error ⟨rfl, hasked, rfl⟩
  cases hread : gptEntryRead dev hdr k with
  | none =>
    rw [gptTurn_unread hin hk h.length hread]
    exact hfail
  | some gpe =>
    have hentries (hi : gpe.used → k < int32Max) : ∀ i < k + 1, ∃ gpe,
        gptEntryRead dev hdr i = some gpe ∧ (gpe.used → i < int32Max) := by
      intro i hi'
      obtain hlt | rfl := Nat.lt_succ_iff_lt_or_eq.mp hi'
      · exact h.entries i hlt
      · exact ⟨gpe, hread, hi⟩
    rw [gptTurn_read hin hk h.length hread]
    by_cases hused : gpe.used
    · rw [if_neg (by simpa using hused)]
      split
      · exact hfail
      · rename_i hint
        split
        · exact hfail
        · rename_i s' hput
          have hbefore : (s.request (hdr.entryRequest k)).count ≤
              (s.request (hdr.entryRequest k)).table.parts.length := h.room
          obtain ⟨hreq, hcount, -, -, hcap, hroom, hparts⟩ := put_spec hbefore hput
          apply Post.ok
          refine ⟨hreq ▸ hasked, hreq ▸ hlength, hroom, ?_, hentries (fun _ => by omega), ?_⟩
          · rw [hcount, Scan.request, capacityAfter, h.capacity]
            exact hcap
          · rw [hparts, filterMap_range_succ, gptInfo, hread, Option.bind_some, if_pos hused]
            exact congrArg (· ++ _) h.parts
    · rw [if_pos hused]
      apply Post.ok
      refine ⟨hasked, hlength, h.room, h.capacity, hentries (fun hu => absurd hu hused), ?_⟩
      rw [filterMap_range_succ, gptInfo, hread, Option.bind_some, if_neg hused, Option.toList_none,
        List.append_nil]
      exact h.parts

/-- A turn whose entry is readable does not fail. -/
theorem GptDone.next (h : GptDone dev mem.parts cap hdr port k s) (hin : hdr.usable dev.sectors)
    (hk : k < hdr.numPartitionEntries) (hr : GptReadable dev mem.parts cap hdr port (k + 1)) :
    ∃ s', gptTurn dev mem port hdr k s = .ok s' := by
  obtain ⟨gpe, hread, hint⟩ := hr.entries k (Nat.lt_succ_self k)
  rw [gptTurn_read hin hk h.length hread]
  by_cases hused : gpe.used
  · rw [if_neg (by simpa using hused), if_neg (by have := hint hused; omega)]
    have hroom := hr.room
    rw [filterMap_range_succ, gptInfo, hread, Option.bind_some, if_pos hused, List.length_append,
      ← h.count, Option.toList_some, List.length_singleton, capacityAfter, h.capacity,
      Option.bind_some] at hroom
    rw [Scan.put]
    obtain ⟨c, hc⟩ := Option.isSome_iff_exists.mp hroom
    have hc' : partitionTableReserve mem.parts (s.request (hdr.entryRequest k)).table.parts.length
        ((s.request (hdr.entryRequest k)).count + 1) = some c := hc
    rw [hc']
    exact ⟨_, rfl⟩
  · rw [if_pos hused]
    exact ⟨_, rfl⟩

theorem gptTurns_post (h : GptDone dev mem.parts cap hdr port 0 s) (hin : hdr.usable dev.sectors)
    (hk : k ≤ hdr.numPartitionEntries) :
    Post (GptDone dev mem.parts cap hdr port k) (GivenUp dev.sectors) (gptTurns dev mem port hdr k s) := by
  induction k with
  | zero => exact Post.ok h
  | succ k ih =>
    apply (ih (by omega)).bind
    intro s' hs'
    exact hs'.turn hin (by omega)

theorem gptTurns_ok (h : GptDone dev mem.parts cap hdr port 0 s) (hin : hdr.usable dev.sectors)
    (hk : k ≤ hdr.numPartitionEntries) (hr : GptReadable dev mem.parts cap hdr port k) :
    ∃ s', gptTurns dev mem port hdr k s = .ok s' := by
  induction k with
  | zero => exact ⟨s, rfl⟩
  | succ k ih =>
    obtain ⟨s', hs'⟩ := ih (by omega) hr.before
    have hdone := gptTurns_post h hin (show k ≤ hdr.numPartitionEntries by omega)
    rw [hs'] at hdone
    obtain ⟨s'', hs''⟩ := hdone.next hin (by omega) hr
    exact ⟨s'', by rw [gptTurns, hs']; exact hs''⟩

/-- Every entry the scan reports ends below the end of the device. -/
def GptEndsInside (dev : Blkdev) (hdr : GptHeader) : Prop :=
  ∀ i < hdr.numPartitionEntries, ∀ gpe, gptEntryRead dev hdr i = some gpe → gpe.used →
    gpe.endingLba < dev.sectors

theorem field_lt : field entry offset 8 < 2 ^ 64 := by
  have hle (bytes : List UInt8) : leNat bytes < 256 ^ bytes.length := by
    induction bytes with
    | nil => exact Nat.one_pos
    | cons b l ih =>
      have hb := b.toNat_lt
      rw [leNat, List.foldr_cons, List.length_cons, Nat.pow_succ']
      rw [leNat] at ih
      omega
  apply (hle _).trans_le
  have hlen : ((entry.drop offset).take 8).length ≤ 8 := List.length_take_le 8 _
  calc 256 ^ ((entry.drop offset).take 8).length ≤ 256 ^ 8 := Nat.pow_le_pow_right (by decide) hlen
    _ = 2 ^ 64 := by norm_num

/-- The partition of an entry is one of the device just when the entry ends inside it. -/
theorem info_inside (h : gptEntryRead dev hdr i = some gpe) (hu : gpe.used) :
    (gpe.info port i).Inside dev.sectors ↔ gpe.endingLba < dev.sectors := by
  have hend : gpe.endingLba < 2 ^ 64 := by
    simp only [gptEntryRead, Option.bind_eq_some_iff, gptEntry, Option.map_eq_some_iff] at h
    obtain ⟨buf, -, e, -, rfl⟩ := h
    exact field_lt
  simp only [GptPartitionEntry.used, Bool.and_eq_true, bne_iff_ne, decide_eq_true_eq] at hu
  have hcount : (gpe.info port i).sectorCount = gpe.endingLba - gpe.startingLba + 1 :=
    Nat.mod_eq_of_lt (by omega)
  rw [PartitionInfo.Inside, hcount]
  simp only [GptPartitionEntry.info]
  omega

theorem gptDone_first (hpos : gptHeaderLba < dev.sectors) :
    GptDone dev grants table.parts.length hdr port 0
      ⟨[⟨none, gptHeaderLba, 1⟩], { table with isGpt := true }, 0, 0⟩ :=
  ⟨asked_first hpos, rfl, Nat.zero_le _, rfl, by simp, by simp⟩

theorem mem_gptInfo (hread : gptEntryRead dev hdr i = some gpe) (hu : gpe.used)
    (hi : i < hdr.numPartitionEntries) :
    gpe.info port i ∈ (List.range hdr.numPartitionEntries).filterMap (gptInfo dev hdr port) := by
  rw [List.mem_filterMap]
  exact ⟨i, List.mem_range.mpr hi, by rw [gptInfo, hread, Option.bind_some, if_pos hu]⟩

/-- The loop over the entries keeps its bounds unless it gets through with an entry that ends
outside. -/
theorem gptTurns_iff (hpos : gptHeaderLba < dev.sectors) (hin : hdr.usable dev.sectors) :
    Bounded dev.sectors table (Flow.result (gptTurns dev mem port hdr hdr.numPartitionEntries
        ⟨[⟨none, gptHeaderLba, 1⟩], { table with isGpt := true }, 0, 0⟩)) ↔
      (GptReadable dev mem.parts table.parts.length hdr port hdr.numPartitionEntries →
        GptEndsInside dev hdr) := by
  have hdone : GptDone dev mem.parts table.parts.length hdr port 0
      ⟨[⟨none, gptHeaderLba, 1⟩], { table with isGpt := true }, 0, 0⟩ := gptDone_first hpos
  generalize (⟨[⟨none, gptHeaderLba, 1⟩], { table with isGpt := true }, 0, 0⟩ : Scan) = s at *
  have hpost := gptTurns_post hdone hin (Nat.le_refl _)
  constructor
  · intro hb hr i hi gpe hread hu
    obtain ⟨s', hs'⟩ := gptTurns_ok hdone hin (Nat.le_refl _) hr
    rw [hs'] at hpost hb
    have hmem : gpe.info port i ∈ _ := mem_gptInfo hread hu hi
    rw [← hpost.parts] at hmem
    exact (info_inside hread hu).mp (hb.reported rfl _ hmem)
  · intro hc
    cases hflow : gptTurns dev mem port hdr hdr.numPartitionEntries s with
    | ok s' =>
      rw [hflow] at hpost
      have hends := hc hpost.readable
      apply bounded_result
      refine Post.ok ⟨hpost.asked, hpost.room, ?_⟩
      rw [hpost.parts]
      intro p hp
      rw [List.mem_filterMap] at hp
      obtain ⟨i, hi, hinfo⟩ := hp
      obtain ⟨gpe, hread, -⟩ := hpost.entries i (List.mem_range.mp hi)
      rw [gptInfo, hread, Option.bind_some] at hinfo
      split at hinfo
      · rename_i hu
        cases hinfo
        exact (info_inside hread hu).mpr (hends i (List.mem_range.mp hi) gpe hread hu)
      · cases hinfo
    | error e =>
      rw [hflow] at hpost
      exact bounded_result hpost

/-- A device with fewer than two sectors is asked for its header all the same, and for nothing
more. -/
theorem partitionScanGpt_first (hmem : mem.buffer) (hsmall : dev.sectors ≤ gptHeaderLba) :
    (partitionScanGpt (some dev) mem port table).requests = [⟨none, gptHeaderLba, 1⟩] := by
  rw [partitionScanGpt]
  dsimp only
  rw [if_neg (by simpa using hmem)]
  split
  · rfl
  · rename_i buf hread
    split
    · rfl
    · rename_i hdr hhdr
      rw [if_pos]
      · intro hin
        obtain ⟨hnum, hsize, -, hlba, hfit⟩ := usable_entries hin
        have hmul : gptEntrySize ≤ hdr.numPartitionEntries * hdr.partitionEntrySize :=
          hsize.trans (Nat.le_mul_of_pos_left _ hnum)
        have hvalue : gptEntrySize = 128 ∧ gptHeaderLba = 1 := ⟨rfl, rfl⟩
        -- a header can be read where the number of sectors is not known
        have hzero : dev.sectors = 0 := by
          by_contra hne
          rw [blkdevRead, if_neg (by decide), if_pos ⟨hne, .inl hsmall⟩] at hread
          cases hread
        omega

/-- When the scan of the entries keeps its bounds. -/
def GptBounded (dev : Blkdev) (mem : Memory) (port : Nat) (table : PartitionTable) : Prop :=
  gptHeaderLba < dev.sectors ∧ ∀ hdr, gptFound dev = some hdr →
    GptReadable dev mem.parts table.parts.length hdr port hdr.numPartitionEntries →
      GptEndsInside dev hdr

theorem partitionScanGpt_iff {dev : Option Blkdev} :
    Bounded (sectorsOf dev) table (partitionScanGpt dev mem port table) ↔
      ∀ d, dev = some d → mem.buffer → GptBounded d mem port table := by
  cases dev with
  | none => simp [partitionScanGpt, bounded_failed asked_none]
  | some dev =>
    simp only [Option.some.injEq, forall_eq']
    by_cases hmem : mem.buffer
    · by_cases hpos : gptHeaderLba < dev.sectors
      · rw [partitionScanGpt]
        dsimp only
        rw [if_neg (by simpa using hmem)]
        simp only [hmem, GptBounded, hpos, true_and, forall_const, gptFound, sectorsOf,
          Option.map_some, Option.getD_some]
        cases hread : blkdevRead dev 0 gptHeaderLba 1 with
        | none => simp [bounded_failed (asked_first hpos)]
        | some buf =>
          have hlen := blkdevRead_length hread
          have hhdr : ∃ hdr, gptHeader buf = some hdr := by
            rw [gptHeader, bytesAt, if_pos (by omega)]
            exact ⟨_, rfl⟩
          obtain ⟨hdr, hhdr⟩ := hhdr
          simp only [Option.bind_some, hhdr]
          by_cases hin : hdr.usable dev.sectors
          · rw [if_neg (by simpa using hin), gptTurns_iff hpos hin]
            simp [Option.filter_some, hin]
          · rw [if_pos hin]
            simp [Option.filter_some, hin, bounded_failed (asked_first hpos)]
      · constructor
        · intro h
          have hreq := h.requests ⟨none, gptHeaderLba, 1⟩
          rw [partitionScanGpt_first hmem (by omega)] at hreq
          exact absurd (hreq (List.mem_singleton.mpr rfl) 0 Nat.one_pos) hpos
        · intro h
          exact absurd (h hmem).1 hpos
    · rw [partitionScanGpt]
      dsimp only
      rw [if_pos hmem]
      simp [hmem, bounded_failed asked_none]

/-- Both scans, in full: the number of sectors bounds the turns of the walk of boot records. -/
theorem partitionScan_bounded {dev : Option Blkdev} :
    (Bounded (sectorsOf dev) table (partitionScanMbr (sectorsOf dev + 1 + more) dev mem port table) ↔
      dev = none ∨ mem.buffer = false ∨ 0 < sectorsOf dev) ∧
    (Bounded (sectorsOf dev) table (partitionScanGpt dev mem port table) ↔
      ∀ d, dev = some d → mem.buffer → GptBounded d mem port table) :=
  ⟨partitionScanMbr_iff (by omega), partitionScanGpt_iff⟩

/-- `v` in `n` bytes, the least one first. -/
def leBytes (n v : Nat) : List UInt8 := (List.range n).map fun i => UInt8.ofNat (v / 256 ^ i % 256)

/-- A disk with the header of a table of one entry in sector 1 and the entry, for the sectors 3 to
200, in sector 2. -/
def longEntrySector (lba : Nat) : List UInt8 :=
  let bytes :=
    if lba = gptHeaderLba then
      leBytes 8 gptSignature ++ leBytes 4 gptRevision ++ List.replicate 60 0 ++ leBytes 8 2 ++
        leBytes 4 1 ++ leBytes 4 gptEntrySize
    else if lba = 2 then List.replicate 16 1 ++ List.replicate 16 0 ++ leBytes 8 3 ++ leBytes 8 200
    else []
  (bytes ++ List.replicate 512 0).take 512

/-- The disk has 64 sectors. -/
def longEntryDisk : Blkdev where
  sectors := 64
  sectors_le := by decide
  transfer := fun _ lba count => some ((List.range count).flatMap fun k => longEntrySector (lba + k))
  transfer_length := by
    intro k lba count bytes h
    cases h
    have hlen : ∀ l, (longEntrySector l).length = 512 := by
      intro l
      rw [longEntrySector, List.length_take, List.length_append, List.length_replicate]
      omega
    simp only [List.length_flatMap, hlen, List.map_const', List.sum_replicate, List.length_range,
      smul_eq_mul]

/-- The scan reports a partition of the sectors 3 to 200 on a disk that has 64. -/
theorem longEntry_outside :
    ¬Bounded 64 ⟨0, false, []⟩
      (partitionScanGpt (some longEntryDisk) ⟨true, fun _ _ => true, fun _ => true⟩ 0 ⟨0, false, []⟩) := by
  intro h
  have hok : (partitionScanGpt (some longEntryDisk) ⟨true, fun _ _ => true, fun _ => true⟩ 0
      ⟨0, false, []⟩).stop = .ok := by decide +kernel
  have hparts : (partitionScanGpt (some longEntryDisk) ⟨true, fun _ _ => true, fun _ => true⟩ 0
      ⟨0, false, []⟩).table.reported =
        [⟨true, 0, 1, 3, 198, 0, List.replicate 16 1, true⟩] := by decide +kernel
  have hinside := h.reported hok
  rw [hparts] at hinside
  exact absurd (hinside _ (List.mem_singleton.mpr rfl)).2 (by decide)

end Lebirun.Partition
