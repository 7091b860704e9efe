import Mathlib
import Lebirun.Lib.Stops

namespace Lebirun.Partition
set_option autoImplicit true

abbrev int32Max : Nat := 0x7FFFFFFF
abbrev uint64Max : Nat := 0xFFFFFFFFFFFFFFFF
abbrev mbrPartitionCount : Nat := 4
abbrev blkdevSectorSize : Nat := 512

/-- A block device. `transfer` answers the calls of `blkdev_read` that pass its checks: the bytes
of the sectors, or nothing where the driver or the allocation of a bounce buffer fails. The first
argument tells the calls apart, so the same sectors may fail once and be read another time. -/
structure Blkdev where
  sectors : Nat
  sectors_le : sectors ≤ uint64Max
  transfer : Nat → Nat → Nat → Option (List UInt8)
  transfer_length : transfer k lba count = some bytes → bytes.length = count * blkdevSectorSize

/-- The allocations a scan makes: its sector buffer, the set of visited records of the extended
partition `i` at each capacity, and the table at each capacity. No capacity is asked for twice. -/
structure Memory where
  buffer : Bool
  visit : Nat → Nat → Bool
  parts : Nat → Bool

structure PartitionInfo where
  valid : Bool
  portIndex : Nat
  partNumber : Nat
  startLba : Nat
  sectorCount : Nat
  mbrType : Nat
  gptTypeGuid : List UInt8
  isGpt : Bool
  deriving DecidableEq

/-- Fresh entries are zeroed. -/
def PartitionInfo.zero : PartitionInfo := ⟨false, 0, 0, 0, 0, 0, List.replicate 16 0, false⟩

/-- `capacity` is the length of `parts`. -/
structure PartitionTable where
  count : Nat
  isGpt : Bool
  parts : List PartitionInfo
  deriving DecidableEq

/-- What `partition_table_free` leaves. -/
def partitionTableFree (_ : PartitionTable) : PartitionTable := ⟨0, false, []⟩

/-- The partitions a caller sees. -/
def PartitionTable.reported (t : PartitionTable) : List PartitionInfo := t.parts.take t.count

/-- A call of `blkdev_read`; `extended` is the primary entry whose chain of records it belongs to. -/
structure Request where
  extended : Option Nat
  lba : Nat
  count : Nat
  deriving DecidableEq

inductive End where
  | ok
  | failed
  /-- bytes outside a buffer were used -/
  | outside
  /-- the loop has not ended -/
  | spin
  deriving DecidableEq

structure Scan where
  requests : List Request
  table : PartitionTable
  count : Nat
  logicalNumber : Nat

abbrev Flow := Except (End × Scan) Scan

structure ScanResult where
  requests : List Request
  table : PartitionTable
  stop : End

/-- An error with the table given back. -/
def Scan.fail (s : Scan) : Flow := .error (.failed, { s with table := partitionTableFree s.table })

/-- `n` bytes of a buffer that holds `buf`. -/
def bytesAt (buf : List UInt8) (offset n : Nat) : Option (List UInt8) :=
  if offset + n ≤ buf.length then some ((buf.drop offset).take n) else none

def leNat (bytes : List UInt8) : Nat := bytes.foldr (fun b acc => b.toNat + 256 * acc) 0

/-- A field of a packed structure: `width` bytes at `offset`. -/
def field (entry : List UInt8) (offset width : Nat) : Nat := leNat ((entry.drop offset).take width)

def Scan.request (s : Scan) (r : Request) : Scan := { s with requests := s.requests ++ [r] }

/-- The checks of `blkdev_io`, then the transfer. -/
def blkdevRead (dev : Blkdev) (k lba count : Nat) : Option (List UInt8) :=
  if count = 0 ∨ count > uint64Max / blkdevSectorSize then none
  else if dev.sectors ≠ 0 ∧ (lba ≥ dev.sectors ∨ count > dev.sectors - lba) then none
  else dev.transfer k lba count

/-- The doubling loop of `partition_table_reserve`. -/
def growCapacity (needed : Nat) : Nat → Nat → Option Nat
  | 0, _ => none
  | fuel + 1, capacity =>
    if capacity < needed then
      if capacity > int32Max / 2 then none else growCapacity needed fuel (capacity * 2)
    else some capacity

/-- 32 turns are as good as any number of them. -/
theorem growCapacity_fuel (h : int32Max < capacity * 2 ^ fuel) :
    growCapacity needed (fuel + more + 1) capacity = growCapacity needed (fuel + 1) capacity := by
  induction fuel generalizing capacity with
  | zero =>
    rw [growCapacity, growCapacity]
    split
    · rw [if_pos (by omega), if_pos (by omega)]
    · rfl
  | succ fuel ih =>
    have hnext : int32Max < capacity * 2 * 2 ^ fuel := by
      rw [Nat.mul_assoc, ← Nat.pow_succ']
      exact h
    have heq := ih hnext
    rw [show fuel + 1 + more + 1 = (fuel + more + 1) + 1 by omega]
    simp only [growCapacity] at heq ⊢
    rw [heq]

theorem growCapacity_le (h : growCapacity needed fuel capacity = some c) :
    needed ≤ c ∧ capacity ≤ c := by
  induction fuel generalizing capacity with
  | zero => cases h
  | succ fuel ih =>
    rw [growCapacity] at h
    split at h
    · split at h
      · cases h
      · have hle := ih h
        omega
    · cases h
      omega

/-- The capacity after a successful call; `needed` is an `int`, so a count past the largest one is
negative and refused. -/
def partitionTableReserve (grants : Nat → Bool) (capacity needed : Nat) : Option Nat :=
  if needed > int32Max then none
  else if needed ≤ capacity then some capacity
  else
    match growCapacity needed 32 (if capacity ≠ 0 then capacity else mbrPartitionCount) with
    | none => none
    | some grown => if grants grown then some grown else none

theorem partitionTableReserve_le (h : partitionTableReserve grants capacity needed = some c) :
    needed ≤ c ∧ capacity ≤ c := by
  rw [partitionTableReserve] at h
  split at h
  · cases h
  · split at h
    · cases h
      omega
    · split at h
      · cases h
      · rename_i hgrow
        have hle := growCapacity_le hgrow
        split at h
        · cases h
          split at hle <;> omega
        · cases h

/-- The table with room for `capacity` entries. -/
def PartitionTable.grow (t : PartitionTable) (capacity : Nat) : PartitionTable :=
  { t with parts := t.parts ++ List.replicate (capacity - t.parts.length) PartitionInfo.zero }

/-- Writes the next entry of the table; nothing if there is no room for it. -/
def Scan.put (s : Scan) (grants : Nat → Bool) (p : PartitionInfo) : Option Scan :=
  (partitionTableReserve grants s.table.parts.length (s.count + 1)).map fun capacity =>
    let table := s.table.grow capacity
    { s with table := { table with parts := table.parts.set s.count p }, count := s.count + 1 }

theorem length_grow {t : PartitionTable} (h : t.parts.length ≤ capacity) : (t.grow capacity).parts.length = capacity := by
  rw [PartitionTable.grow, List.length_append, List.length_replicate]
  omega

/-- The entries written so far, and then the new one. -/
theorem put_spec (hcount : s.count ≤ s.table.parts.length) (h : Scan.put s grants p = some s') :
    s'.requests = s.requests ∧ s'.count = s.count + 1 ∧ s'.logicalNumber = s.logicalNumber ∧
      s'.table.isGpt = s.table.isGpt ∧
      partitionTableReserve grants s.table.parts.length (s.count + 1) =
        some s'.table.parts.length ∧
      s'.count ≤ s'.table.parts.length ∧
      s'.table.parts.take s'.count = s.table.parts.take s.count ++ [p] := by
  rw [Scan.put, Option.map_eq_some_iff] at h
  obtain ⟨capacity, hc, rfl⟩ := h
  obtain ⟨hroom, hle⟩ := partitionTableReserve_le hc
  have hlen := length_grow hle
  refine ⟨rfl, rfl, rfl, rfl, ?_, ?_, ?_⟩
  · dsimp only
    rw [List.length_set, hlen, hc]
  · dsimp only
    rw [List.length_set, hlen]
    exact hroom
  · dsimp only
    rw [List.take_add_one, List.take_set_of_le (Nat.le_refl _), List.getElem?_set_self (by omega),
      PartitionTable.grow, List.take_append_of_le_length hcount]
    rfl

end Lebirun.Partition
