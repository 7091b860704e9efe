import Mathlib

namespace Lebirun.Fat
set_option autoImplicit true

abbrev Bytes := Nat → UInt8

def fatGet16 (p : Bytes) (i : Nat) : Nat := (p i).toNat + 2 ^ 8 * (p (i + 1)).toNat

def fatGet32 (p : Bytes) (i : Nat) : Nat :=
  (p i).toNat + 2 ^ 8 * (p (i + 1)).toNat + 2 ^ 16 * (p (i + 2)).toNat + 2 ^ 24 * (p (i + 3)).toNat

/-- What `fat_mount_fs` works out once and leaves fixed. -/
structure FatFs where
  bps : Nat
  spc : Nat
  reserved : Nat
  fats : Nat
  fatSectors : Nat
  totalSectors : Nat
  dataStart : Nat
  rootCluster : Nat
  rootSectors : Nat
  clusterCount : Nat
  fatBits : Nat
  fsinfo : Nat

section Boot

variable (boot : Bytes)

def bootBps : Nat := fatGet16 boot 11
def bootReserved : Nat := fatGet16 boot 14
def bootFats : Nat := (boot 16).toNat
def bootRootEntries : Nat := fatGet16 boot 17
def bootTotal : Nat := if fatGet16 boot 19 = 0 then fatGet32 boot 32 else fatGet16 boot 19
def bootFatSz : Nat := if fatGet16 boot 22 = 0 then fatGet32 boot 36 else fatGet16 boot 22
def bootRootSectors : Nat := (bootRootEntries boot * 32 + bootBps boot - 1) / bootBps boot

/-- The sum is one of `uint32_t`. -/
def bootDataStart : Nat :=
  (bootReserved boot + bootFats boot * bootFatSz boot + bootRootSectors boot) % 2 ^ 32

def bootClusterCount : Nat := (bootTotal boot - bootDataStart boot) / (boot 13).toNat

def bootFatBits : Nat :=
  if bootClusterCount boot < 4085 then 12 else if bootClusterCount boot < 65525 then 16 else 32

/-- The mount with the boot sector read and the buffers allocated; without either it fails. -/
def fatMountFs : Option FatFs :=
  let bps := bootBps boot
  let spc := (boot 13).toNat
  if boot 510 ≠ 0x55 ∨ boot 511 ≠ 0xAA then none
  else if bps < 512 ∨ bps > 4096 ∨ bps &&& (bps - 1) ≠ 0 then none
  else if spc = 0 ∨ spc &&& (spc - 1) ≠ 0 then none
  else if bootFats boot = 0 ∨ bootReserved boot = 0 then none
  else if boot 21 ≠ 0xF0 ∧ boot 21 < 0xF8 then none
  else if spc * bps > 32768 then none
  else if bootTotal boot = 0 then none
  else if bootFatSz boot = 0 then none
  else if bootRootSectors boot = 0 ∧ fatGet32 boot 44 < 2 then none
  else if bootTotal boot ≤ bootDataStart boot then none
  else if bootFatBits boot ≠ 32 ∧ bootRootEntries boot = 0 then none
  else if bootFatSz boot * bps * 8 / bootFatBits boot < (bootClusterCount boot + 2) % 2 ^ 32 then none
  else some {
    bps := bps
    spc := spc
    reserved := bootReserved boot
    fats := bootFats boot
    fatSectors := bootFatSz boot
    totalSectors := bootTotal boot
    dataStart := bootDataStart boot
    rootCluster := if bootRootSectors boot = 0 then fatGet32 boot 44 else 0
    rootSectors := bootRootSectors boot
    clusterCount := bootClusterCount boot
    fatBits := bootFatBits boot
    fsinfo := if bootFatBits boot = 32 ∧ fatGet16 boot 48 < bootReserved boot then fatGet16 boot 48 else 0 }

end Boot

def fatClusterLba (fs : FatFs) (cluster : Nat) : Nat := fs.dataStart + (cluster - 2) * fs.spc

/-- The byte of a copy of the FAT at which the entry of a cluster begins. -/
def fatEntryByte (fatBits cluster : Nat) : Nat :=
  if fatBits = 32 then cluster * 4 else if fatBits = 16 then cluster * 2 else cluster + cluster / 2

/-- The sector of an entry in the first copy, with the entry's offset in it. -/
def fatTableLba (fs : FatFs) (cluster : Nat) : Nat × Nat :=
  (fs.reserved + fatEntryByte fs.fatBits cluster / fs.bps, fatEntryByte fs.fatBits cluster % fs.bps)

/-- The bytes an entry touches. -/
def fatEntryBytes (fatBits : Nat) : Nat := if fatBits = 32 then 4 else 2

/-- A volume whose tables lie before its data and whose data lies before its end. -/
structure FatFs.Inside (fs : FatFs) : Prop where
  layout : fs.reserved + fs.fats * fs.fatSectors + fs.rootSectors = fs.dataStart
  data : fs.dataStart < fs.totalSectors
  entries : ∀ f < fs.fats, ∀ c < fs.clusterCount + 2, ∀ j < fatEntryBytes fs.fatBits,
    (fatTableLba fs c).1 + f * fs.fatSectors + ((fatTableLba fs c).2 + j) / fs.bps < fs.dataStart
  clusters : ∀ c, 2 ≤ c → c < fs.clusterCount + 2 → ∀ k < fs.spc, fatClusterLba fs c + k < fs.totalSectors

variable {boot : Bytes} {fs : FatFs}

theorem fatGet16_lt (p : Bytes) (i : Nat) : fatGet16 p i < 2 ^ 16 := by
  have h0 := (p i).toNat_lt
  have h1 := (p (i + 1)).toNat_lt
  rw [fatGet16]
  omega

theorem fatGet32_lt (p : Bytes) (i : Nat) : fatGet32 p i < 2 ^ 32 := by
  have h0 := (p i).toNat_lt
  have h1 := (p (i + 1)).toNat_lt
  have h2 := (p (i + 2)).toNat_lt
  have h3 := (p (i + 3)).toNat_lt
  rw [fatGet32]
  omega

theorem bootTotal_lt (boot : Bytes) : bootTotal boot < 2 ^ 32 := by
  have h16 := fatGet16_lt boot 19
  have h32 := fatGet32_lt boot 32
  rw [bootTotal]
  split <;> omega

/-- What an accepted boot sector says, with the fields of the volume read from it. -/
structure Mounted (boot : Bytes) (fs : FatFs) : Prop where
  bps : fs.bps = bootBps boot
  spc : fs.spc = (boot 13).toNat
  reserved : fs.reserved = bootReserved boot
  fats : fs.fats = bootFats boot
  fatSectors : fs.fatSectors = bootFatSz boot
  rootSectors : fs.rootSectors = bootRootSectors boot
  totalSectors : fs.totalSectors = bootTotal boot
  dataStart : fs.dataStart = bootDataStart boot
  clusterCount : fs.clusterCount = bootClusterCount boot
  fatBits : fs.fatBits = bootFatBits boot
  bps_range : 512 ≤ fs.bps ∧ fs.bps ≤ 4096
  spc_pos : 0 < fs.spc
  fats_pos : 0 < fs.fats
  reserved_pos : 0 < fs.reserved
  fatSectors_pos : 0 < fs.fatSectors
  data_lt : fs.dataStart < fs.totalSectors
  room : (fs.clusterCount + 2) % 2 ^ 32 ≤ fs.fatSectors * fs.bps * 8 / fs.fatBits

/-- A check that was passed. -/
theorem passed {α : Type} {c : Prop} [Decidable c] {x : Option α} {a : α}
    (h : (if c then none else x) = some a) : ¬c ∧ x = some a := by
  by_cases hc : c
  · rw [if_pos hc] at h
    cases h
  · rw [if_neg hc] at h
    exact ⟨hc, h⟩

theorem fatMountFs_some (h : fatMountFs boot = some fs) : Mounted boot fs := by
  rw [fatMountFs] at h
  obtain ⟨-, h⟩ := passed h
  obtain ⟨hbps, h⟩ := passed h
  obtain ⟨hspc, h⟩ := passed h
  obtain ⟨hfats, h⟩ := passed h
  obtain ⟨-, h⟩ := passed h
  obtain ⟨-, h⟩ := passed h
  obtain ⟨-, h⟩ := passed h
  obtain ⟨hsz, h⟩ := passed h
  obtain ⟨-, h⟩ := passed h
  obtain ⟨hdata, h⟩ := passed h
  obtain ⟨-, h⟩ := passed h
  obtain ⟨hroom, h⟩ := passed h
  cases h
  obtain ⟨hlow, hhigh⟩ := not_or.1 hbps
  exact {
    bps := rfl
    spc := rfl
    reserved := rfl
    fats := rfl
    fatSectors := rfl
    rootSectors := rfl
    totalSectors := rfl
    dataStart := rfl
    clusterCount := rfl
    fatBits := rfl
    bps_range := ⟨Nat.not_lt.1 hlow, Nat.not_lt.1 (not_or.1 hhigh).1⟩
    spc_pos := Nat.pos_of_ne_zero (not_or.1 hspc).1
    fats_pos := Nat.pos_of_ne_zero (not_or.1 hfats).1
    reserved_pos := Nat.pos_of_ne_zero (not_or.1 hfats).2
    fatSectors_pos := Nat.pos_of_ne_zero hsz
    data_lt := Nat.not_le.1 hdata
    room := Nat.not_lt.1 hroom }

theorem bootFatBits_cases (boot : Bytes) :
    bootFatBits boot = 12 ∨ bootFatBits boot = 16 ∨ bootFatBits boot = 32 := by
  rw [bootFatBits]
  split
  · exact .inl rfl
  split
  · exact .inr (.inl rfl)
  · exact .inr (.inr rfl)

/-- Where the table has room for an entry of each cluster, every byte of an entry lies in it. -/
theorem entryByte_lt (hbits : bits = 12 ∨ bits = 16 ∨ bits = 32) (hroom : count ≤ size * 8 / bits)
    (hc : c < count) (hj : j < fatEntryBytes bits) : fatEntryByte bits c + j < size := by
  rw [fatEntryByte]
  rw [fatEntryBytes] at hj
  rcases hbits with rfl | rfl | rfl
  · simp only [Nat.reduceEqDiff, if_false] at hj ⊢
    omega
  · simp only [Nat.reduceEqDiff, if_false, if_true] at hj ⊢
    omega
  · simp only [if_true] at hj ⊢
    omega

/-- The volume lies inside itself when the sectors before its data are few enough to be counted. -/
theorem Mounted.inside (h : Mounted boot fs)
    (hfit : bootReserved boot + bootFats boot * bootFatSz boot + bootRootSectors boot < 2 ^ 32) : fs.Inside := by
  have hstart : fs.reserved + fs.fats * fs.fatSectors + fs.rootSectors = fs.dataStart := by
    rw [h.reserved, h.fats, h.fatSectors, h.rootSectors, h.dataStart, bootDataStart, Nat.mod_eq_of_lt hfit]
  have htotal : fs.totalSectors < 2 ^ 32 := h.totalSectors ▸ bootTotal_lt boot
  have hmul : fs.clusterCount * fs.spc ≤ fs.totalSectors - fs.dataStart := by
    rw [h.clusterCount, h.spc, h.totalSectors, h.dataStart]
    exact Nat.div_mul_le_self _ _
  have htable : 0 < fs.fats * fs.fatSectors := Nat.mul_pos h.fats_pos h.fatSectors_pos
  have hcount : fs.clusterCount ≤ fs.clusterCount * fs.spc := Nat.le_mul_of_pos_right _ h.spc_pos
  have hlt := h.data_lt
  have hres := h.reserved_pos
  have hroom := h.room
  rw [Nat.mod_eq_of_lt (by omega)] at hroom
  refine ⟨hstart, hlt, ?_, ?_⟩
  · intro f hf c hc j hj
    have hbits := bootFatBits_cases boot
    rw [← h.fatBits] at hbits
    have hin : fatEntryByte fs.fatBits c + j < fs.fatSectors * fs.bps := entryByte_lt hbits hroom hc hj
    have hbps : 0 < fs.bps := Nat.lt_of_lt_of_le (show 0 < 512 by decide) h.bps_range.1
    have hsector : fatEntryByte fs.fatBits c / fs.bps + (fatEntryByte fs.fatBits c % fs.bps + j) / fs.bps =
        (fatEntryByte fs.fatBits c + j) / fs.bps := by
      calc
        _ = (fatEntryByte fs.fatBits c % fs.bps + j + fs.bps * (fatEntryByte fs.fatBits c / fs.bps)) / fs.bps := by
          rw [Nat.add_mul_div_left _ _ hbps, Nat.add_comm]
        _ = (fatEntryByte fs.fatBits c + j) / fs.bps := by
          rw [Nat.add_right_comm, Nat.mod_add_div]
    have hsec : (fatEntryByte fs.fatBits c + j) / fs.bps < fs.fatSectors := (Nat.div_lt_iff_lt_mul hbps).2 hin
    have hcopy : f * fs.fatSectors + fs.fatSectors ≤ fs.fats * fs.fatSectors := by
      rw [← Nat.succ_mul]
      exact Nat.mul_le_mul_right _ hf
    rw [fatTableLba]
    dsimp only
    omega
  · intro c h2 hc k hk
    have hlast : (c - 2) * fs.spc + fs.spc ≤ fs.clusterCount * fs.spc := by
      rw [← Nat.succ_mul]
      exact Nat.mul_le_mul_right _ (by omega)
    rw [fatClusterLba]
    omega

/-- A mounted volume lies inside itself exactly when the sectors before its data are fewer than 2^32. -/
theorem fatMountFs_inside_iff (h : fatMountFs boot = some fs) :
    fs.Inside ↔ bootReserved boot + bootFats boot * bootFatSz boot + bootRootSectors boot < 2 ^ 32 := by
  have hm := fatMountFs_some h
  constructor
  · intro hin
    have hlayout := hin.layout
    rw [hm.reserved, hm.fats, hm.fatSectors, hm.rootSectors, hm.dataStart] at hlayout
    rw [hlayout]
    exact Nat.mod_lt _ (by decide)
  · exact hm.inside

/-- A boot sector by its non-zero bytes. -/
def bootOf (bytes : List (Nat × UInt8)) : Bytes := fun i => ((bytes.find? fun b => b.1 = i).map Prod.snd).getD 0

def smallVolume : Bytes :=
  bootOf [(12, 2), (13, 1), (14, 1), (16, 2), (17, 16), (19, 100), (21, 0xF8), (22, 1), (510, 0x55), (511, 0xAA)]

theorem smallVolume_inside : ∃ fs, fatMountFs smallVolume = some fs ∧ fs.Inside := by
  obtain ⟨fs, hfs⟩ : ∃ fs, fatMountFs smallVolume = some fs := by
    rw [← Option.isSome_iff_exists]
    decide +kernel
  refine ⟨fs, hfs, (fatMountFs_inside_iff hfs).2 ?_⟩
  decide +kernel

/-- Two copies of a table of 2^31 sectors. -/
def wrappedVolume : Bytes :=
  bootOf [(12, 2), (13, 1), (14, 1), (16, 2), (17, 16), (19, 100), (21, 0xF8), (39, 0x80), (510, 0x55), (511, 0xAA)]

/-- The tables of this volume end behind its 100 sectors, and it is mounted. -/
theorem wrappedVolume_mounts : ∃ fs, fatMountFs wrappedVolume = some fs ∧ ¬fs.Inside := by
  obtain ⟨fs, hfs⟩ : ∃ fs, fatMountFs wrappedVolume = some fs := by
    rw [← Option.isSome_iff_exists]
    decide +kernel
  refine ⟨fs, hfs, ?_⟩
  intro hin
  have hm := fatMountFs_some hfs
  have hlayout := hin.layout
  rw [hm.reserved, hm.fats, hm.fatSectors, hm.rootSectors, hm.dataStart] at hlayout
  exact absurd hlayout (by decide +kernel)

end Lebirun.Fat
