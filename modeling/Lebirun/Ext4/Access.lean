import Mathlib
import Lebirun.Ext4.BlockMap

namespace Lebirun.Ext4
set_option autoImplicit true

/-- An access of `length` bytes at an offset of a buffer of `size` bytes. -/
structure Touch where
  size : Nat
  offset : Nat
  length : Nat
  deriving DecidableEq, Repr

def Touch.Inside (t : Touch) : Prop := t.offset + t.length ≤ t.size

instance (t : Touch) : Decidable t.Inside := inferInstanceAs (Decidable (_ ≤ _))

def Inside (ts : List Touch) : Prop := ∀ t ∈ ts, t.Inside

instance (ts : List Touch) : Decidable (Inside ts) := inferInstanceAs (Decidable (∀ t ∈ ts, t.Inside))

/-- What a function computes, with its accesses to the buffers. -/
abbrev Traced (α : Type) := α × List Touch

/-- What `ext4_get_block` gives. -/
abbrev Blocks := Nat → Option Block

/-- The fields of an `ext4_fs_t` that the superblock sets. -/
structure Ext4Fs where
  blockSize : Nat
  inodeSize : Nat
  firstDataBlock : Nat
  totalBlocks : Nat
  totalInodes : Nat
  groupsCount : Nat
  descSize : Nat
  inodesPerGroup : Nat
  is64bit : Bool
  deriving DecidableEq, Repr

abbrev EXT4_SUPER_MAGIC : Nat := 0xEF53
abbrev EXT4_GOOD_OLD_INODE_SIZE : Nat := 128
abbrev EXT4_FEATURE_INCOMPAT_64BIT : Nat := 0x80

/-- `sizeof(ext4_group_desc_t)` -/
abbrev groupDescSize : Nat := 64

/-- `sizeof(ext4_inode_t)` -/
abbrev inodeStructSize : Nat := 160

def superblock64bit (sb : Block) : Bool := le32 sb 96 &&& EXT4_FEATURE_INCOMPAT_64BIT ≠ 0

def superblockTotal (sb : Block) : Nat :=
  if superblock64bit sb then le32 sb 4 + 2 ^ 32 * le32 sb 336 else le32 sb 4

def ext4ReadSuperblock (sb : Block) : Option Ext4Fs :=
  if le16 sb 56 ≠ EXT4_SUPER_MAGIC then none
  else if 6 < le32 sb 24 then none
  else if le32 sb 32 = 0 ∨ le32 sb 40 = 0 then none
  else if superblockTotal sb < le32 sb 20 then none
  else some {
    blockSize := 1024 * 2 ^ le32 sb 24
    inodeSize := if le16 sb 88 = 0 then EXT4_GOOD_OLD_INODE_SIZE else le16 sb 88
    firstDataBlock := le32 sb 20
    totalBlocks := superblockTotal sb
    totalInodes := le32 sb 0
    groupsCount := (superblockTotal sb - le32 sb 20 + le32 sb 32 - 1) % 2 ^ 64 / le32 sb 32
    descSize := if superblock64bit sb ∧ 0 < le16 sb 254 then le16 sb 254 else 32
    inodesPerGroup := le32 sb 40
    is64bit := superblock64bit sb }

def ext4ValidateSuperblock (sb : Block) : Bool :=
  if le16 sb 56 ≠ EXT4_SUPER_MAGIC then false
  else if 6 < le32 sb 24 then false
  else if le32 sb 32 = 0 ∨ le32 sb 40 = 0 then false
  else
    let blockSize := 1024 * 2 ^ le32 sb 24
    let inodeSize := if le16 sb 88 ≠ 0 then le16 sb 88 else EXT4_GOOD_OLD_INODE_SIZE
    !(inodeSize < EXT4_GOOD_OLD_INODE_SIZE || blockSize < inodeSize || inodeSize &&& (inodeSize - 1) ≠ 0)

/-- Both tests of the mount. -/
def ext4Accepts (sb : Block) : Option Ext4Fs :=
  if ext4ValidateSuperblock sb then ext4ReadSuperblock sb else none

section GroupDescriptors

def descBlock (fs : Ext4Fs) (group : Nat) : Nat :=
  (fs.firstDataBlock + 1 + group * fs.descSize / fs.blockSize) % 2 ^ 64

def descOffset (fs : Ext4Fs) (group : Nat) : Nat := group * fs.descSize % fs.blockSize

/-- The bytes of a buffer with some of them replaced. -/
def overwrite (b : Block) (offset length : Nat) (data : Block) : Block :=
  fun i => if offset ≤ i ∧ i < offset + length then data (i - offset) else b i

def tracedReadGroupDesc (fs : Ext4Fs) (get : Blocks) (group : Nat) : Traced (Option Block) :=
  if (2 ^ 64 - 1) / fs.descSize < group then (none, [])
  else
    match get (descBlock fs group) with
    | none => (none, [])
    | some block =>
      (some fun i => block (descOffset fs group + i), [⟨fs.blockSize, descOffset fs group, groupDescSize⟩])

/-- `ext4_write_group_desc`, with the block it has made dirty. -/
def tracedWriteGroupDesc (fs : Ext4Fs) (get : Blocks) (group : Nat) (desc : Block) : Traced (Option (Nat × Block)) :=
  if (2 ^ 64 - 1) / fs.descSize < group then (none, [])
  else
    match get (descBlock fs group) with
    | none => (none, [])
    | some block =>
      (some (descBlock fs group, overwrite block (descOffset fs group) groupDescSize desc),
        [⟨fs.blockSize, descOffset fs group, groupDescSize⟩])

end GroupDescriptors

section Inodes

/-- `bg_inode_table` of a descriptor. -/
def descInodeTable (fs : Ext4Fs) (desc : Block) : Nat :=
  if fs.is64bit then le32 desc 8 + 2 ^ 32 * le32 desc 40 else le32 desc 8

/-- The block of an inode of the table and its offset there, in 32-bit arithmetic. -/
def inodePlace (fs : Ext4Fs) (table ino : Nat) : Nat × Nat :=
  let bytes := (ino - 1) % fs.inodesPerGroup * fs.inodeSize % 2 ^ 32
  ((table + bytes / fs.blockSize) % 2 ^ 64, bytes % fs.blockSize)

def inodeCopySize (fs : Ext4Fs) : Nat := min fs.inodeSize inodeStructSize

/-- What reading and writing an inode have in common: where it is, with the block. -/
def tracedFindInode (fs : Ext4Fs) (get : Blocks) (ino : Nat) : Traced (Option (Nat × Nat × Block)) :=
  if ino = 0 ∨ fs.totalInodes < ino then (none, [])
  else
    match tracedReadGroupDesc fs get ((ino - 1) / fs.inodesPerGroup) with
    | (none, touches) => (none, touches)
    | (some desc, touches) =>
      match inodePlace fs (descInodeTable fs desc) ino with
      | (inodeBlock, offset) =>
        match get inodeBlock with
        | none => (none, touches)
        | some block => (some (inodeBlock, offset, block), touches ++ [⟨fs.blockSize, offset, inodeCopySize fs⟩])

def tracedReadInode (fs : Ext4Fs) (get : Blocks) (ino : Nat) : Traced (Option Block) :=
  match tracedFindInode fs get ino with
  | (none, touches) => (none, touches)
  | (some (_, offset, block), touches) =>
    (some fun i => if i < inodeCopySize fs then block (offset + i) else 0, touches)

def tracedWriteInode (fs : Ext4Fs) (get : Blocks) (ino : Nat) (inode : Block) : Traced (Option (Nat × Block)) :=
  match tracedFindInode fs get ino with
  | (none, touches) => (none, touches)
  | (some (inodeBlock, offset, block), touches) =>
    (some (inodeBlock, overwrite block offset (inodeCopySize fs) inode), touches)

end Inodes

section IndirectBlocks

def ptrsPerBlock (fs : Ext4Fs) : Nat := fs.blockSize / 4

/-- Along pointers through blocks of pointers; a null pointer and a block that cannot be had end the way. -/
def followPointers (fs : Ext4Fs) (get : Blocks) : Nat → List Nat → Traced Nat
  | b, [] => (b, [])
  | b, i :: is =>
    if b = 0 then (0, [])
    else
      match get b with
      | none => (0, [])
      | some block =>
        match followPointers fs get (le32 block (4 * i)) is with
        | (result, touches) => (result, ⟨fs.blockSize, 4 * i, 4⟩ :: touches)

/-- The entry of `i_block` and the indices the lookup follows from there; that into the triple-indirect block is cut
to 32 bits. -/
def indirectPath (fs : Ext4Fs) (logical : Nat) : Nat × List Nat :=
  let p := ptrsPerBlock fs
  if logical < EXT4_NDIR_BLOCKS then (logical, [])
  else
    let l := logical - EXT4_NDIR_BLOCKS
    if l < p then (EXT4_IND_BLOCK, [l])
    else
      let l := l - p
      if l < p * p then (EXT4_DIND_BLOCK, [l / p, l % p])
      else
        let l := l - p * p
        (EXT4_TIND_BLOCK, [l / (p * p) % 2 ^ 32, l % (p * p) / p, l % (p * p) % p])

def tracedIndirectGetBlock (fs : Ext4Fs) (get : Blocks) (iBlock : Block) (logical : Nat) : Traced Nat :=
  match indirectPath fs logical with
  | (slot, path) =>
    match followPointers fs get (le32 iBlock (4 * slot)) path with
    | (result, touches) => (result, ⟨60, 4 * slot, 4⟩ :: touches)

end IndirectBlocks

section Extents

def entryTouch (available i : Nat) : Touch := ⟨available, 12 + 12 * i, 12⟩

/-- The loop over the extents of a leaf, from extent `i` on. -/
def scanExtents (area : Block) (available logical maxBlocks : Nat) : Nat → Nat → Traced (Nat × Nat)
  | 0, _ => ((0, 0), [])
  | left + 1, i =>
    if extentHolds area logical i then (extentRun area logical maxBlocks i, [entryTouch available i])
    else
      match scanExtents area available logical maxBlocks left (i + 1) with
      | (result, touches) => (result, entryTouch available i :: touches)

/-- The loop over index entries, from the last one down. -/
def scanIndices (area : Block) (available logical : Nat) : Nat → Traced (Option Nat)
  | 0 => (none, [])
  | i + 1 =>
    if le32 area (12 + 12 * i) ≤ logical then (some i, [entryTouch available i])
    else
      match scanIndices area available logical i with
      | (found, touches) => (found, entryTouch available i :: touches)

def tracedExtentWalk (fs : Ext4Fs) (get : Blocks) (logical maxBlocks : Nat) :
    Nat → Block → Nat → Traced (Nat × Nat)
  | depth, area, available =>
    if available < 12 then ((0, 0), [])
    else if extentHeaderOk area available depth then
      match depth with
      | 0 =>
        match scanExtents area available logical maxBlocks (le16 area 2) 0 with
        | (result, touches) => (result, ⟨available, 0, 12⟩ :: touches)
      | depth + 1 =>
        match scanIndices area available logical (le16 area 2) with
        | (none, touches) => ((0, 0), ⟨available, 0, 12⟩ :: touches)
        | (some i, touches) =>
          match get (extentLeaf area i) with
          | none => ((0, 0), ⟨available, 0, 12⟩ :: touches)
          | some block =>
            match tracedExtentWalk fs get logical maxBlocks depth block fs.blockSize with
            | (result, below) => (result, ⟨available, 0, 12⟩ :: (touches ++ below))
    else ((0, 0), [⟨available, 0, 12⟩])

def tracedExtentGetRun (fs : Ext4Fs) (get : Blocks) (iBlock : Block) (logical maxBlocks : Nat) : Traced (Nat × Nat) :=
  if maxBlocks = 0 then ((0, 0), [])
  else if 5 < le16 iBlock 6 then ((0, 0), [⟨60, 6, 2⟩])
  else
    match tracedExtentWalk fs get logical maxBlocks (le16 iBlock 6) iBlock 60 with
    | (result, touches) => (result, ⟨60, 6, 2⟩ :: touches)

end Extents

section Sizes

variable {sb : Block} {fs : Ext4Fs}

/-- What both tests leave: powers of two, an inode being no larger than a block. -/
structure Ext4Fs.Sized (fs : Ext4Fs) : Prop where
  block : ∃ k, k ≤ 6 ∧ fs.blockSize = 2 ^ (10 + k)
  inode : ∃ j, fs.inodeSize = 2 ^ j
  fits : fs.inodeSize ≤ fs.blockSize
  desc : 0 < fs.descSize

theorem ext4ReadSuperblock_sizes (h : ext4ReadSuperblock sb = some fs) :
    le32 sb 24 ≤ 6 ∧ fs.blockSize = 1024 * 2 ^ le32 sb 24 ∧
      fs.inodeSize = (if le16 sb 88 = 0 then EXT4_GOOD_OLD_INODE_SIZE else le16 sb 88) ∧ 0 < fs.descSize := by
  rw [ext4ReadSuperblock] at h
  split at h
  · cases h
  split at h
  · cases h
  rename_i hlog
  split at h
  · cases h
  split at h
  · cases h
  obtain rfl := Option.some.inj h
  refine ⟨not_lt.mp hlog, rfl, rfl, ?_⟩
  dsimp only
  split
  · rename_i hdesc
    exact hdesc.2
  · decide

theorem ext4ValidateSuperblock_inode (h : ext4ValidateSuperblock sb = true) :
    let inodeSize := if le16 sb 88 = 0 then EXT4_GOOD_OLD_INODE_SIZE else le16 sb 88
    inodeSize ≠ 0 ∧ inodeSize ≤ 1024 * 2 ^ le32 sb 24 ∧ inodeSize &&& (inodeSize - 1) = 0 := by
  rw [ext4ValidateSuperblock] at h
  split at h
  · cases h
  split at h
  · cases h
  split at h
  · cases h
  dsimp only at h ⊢
  rw [ite_not] at h
  generalize (if le16 sb 88 = 0 then EXT4_GOOD_OLD_INODE_SIZE else le16 sb 88) = inodeSize at h ⊢
  rw [Bool.not_eq_true', Bool.or_eq_false_iff, Bool.or_eq_false_iff] at h
  obtain ⟨⟨hsmall, hlarge⟩, hpow⟩ := h
  refine ⟨?_, not_lt.mp (of_decide_eq_false hlarge), ?_⟩
  · intro hzero
    rw [hzero] at hsmall
    exact absurd hsmall (by decide)
  · exact not_not.mp (of_decide_eq_false hpow)

theorem ext4Accepts_sized (h : ext4Accepts sb = some fs) : fs.Sized := by
  rw [ext4Accepts] at h
  split at h
  · rename_i hvalid
    obtain ⟨hlog, hblock, hinode, hdesc⟩ := ext4ReadSuperblock_sizes h
    obtain ⟨hpos, hle, hpow⟩ := ext4ValidateSuperblock_inode hvalid
    refine ⟨⟨le32 sb 24, hlog, ?_⟩, ?_, ?_, hdesc⟩
    · rw [hblock, Nat.pow_add]
    · rw [hinode]
      exact (Nat.and_sub_one_eq_zero_iff_isPowerOfTwo hpos).mp hpow
    · rw [hinode, hblock]
      exact hle
  · cases h

variable {get : Blocks}

theorem Ext4Fs.Sized.block_ge (h : fs.Sized) : 1024 ≤ fs.blockSize := by
  obtain ⟨k, _, hk⟩ := h.block
  rw [hk, Nat.pow_add]
  exact Nat.le_mul_of_pos_right _ (Nat.two_pow_pos k)

/-- An inode begins at a multiple of its size, also where the product has wrapped. -/
theorem Ext4Fs.Sized.inode_inside (h : fs.Sized) (table ino : Nat) :
    (inodePlace fs table ino).2 + inodeCopySize fs ≤ fs.blockSize := by
  obtain ⟨k, hk6, hk⟩ := h.block
  obtain ⟨j, hj⟩ := h.inode
  have hfits := h.fits
  have hjk : j ≤ 10 + k := by
    rw [hk, hj] at hfits
    exact (Nat.pow_le_pow_iff_right Nat.one_lt_two).mp hfits
  have hblock : fs.inodeSize ∣ fs.blockSize := by
    rw [hj, hk]
    exact Nat.pow_dvd_pow 2 hjk
  have hword : fs.inodeSize ∣ 2 ^ 32 := by
    rw [hj]
    exact Nat.pow_dvd_pow 2 (by omega)
  have hbytes : fs.inodeSize ∣ (ino - 1) % fs.inodesPerGroup * fs.inodeSize % 2 ^ 32 :=
    (Nat.dvd_mod_iff hword).mpr (Nat.dvd_mul_left _ _)
  have hoffset : fs.inodeSize ∣ (inodePlace fs table ino).2 := (Nat.dvd_mod_iff hblock).mpr hbytes
  have hlt : (inodePlace fs table ino).2 < fs.blockSize := Nat.mod_lt _ (by have := h.block_ge; omega)
  have hcopy : inodeCopySize fs ≤ fs.inodeSize := min_le_left _ _
  obtain ⟨a, ha⟩ := hoffset
  obtain ⟨b, hb⟩ := hblock
  rw [ha, hb] at hlt
  have hab : a < b := Nat.lt_of_mul_lt_mul_left hlt
  have hroom : fs.inodeSize * a + fs.inodeSize ≤ fs.inodeSize * b := by
    rw [← Nat.mul_succ]
    exact Nat.mul_le_mul_left _ hab
  omega

end Sizes

section Conditions

variable {fs : Ext4Fs} {get : Blocks} {ts us : List Touch} {t : Touch}

theorem inside_nil : Inside [] := by
  intro t ht
  cases ht

theorem inside_cons : Inside (t :: ts) ↔ t.Inside ∧ Inside ts := List.forall_mem_cons

theorem inside_append : Inside (ts ++ us) ↔ Inside ts ∧ Inside us := List.forall_mem_append

/-- A descriptor begins at least 64 bytes before the end of its block, if it is touched at all. -/
def DescFits (fs : Ext4Fs) (get : Blocks) (group : Nat) : Prop :=
  group ≤ (2 ^ 64 - 1) / fs.descSize → get (descBlock fs group) ≠ none →
    descOffset fs group + groupDescSize ≤ fs.blockSize

theorem readGroupDesc_inside (group : Nat) : Inside (tracedReadGroupDesc fs get group).2 ↔ DescFits fs get group := by
  rw [tracedReadGroupDesc, DescFits]
  split
  · rename_i hlarge
    exact ⟨fun _ h => absurd h (not_le.mpr hlarge), fun _ => inside_nil⟩
  · rename_i hsmall
    split
    · rename_i hget
      exact ⟨fun _ _ h => absurd hget h, fun _ => inside_nil⟩
    · rename_i block hget
      rw [inside_cons]
      constructor
      · intro h _ _
        exact h.1
      · intro h
        exact ⟨h (not_lt.mp hsmall) (by rw [hget]; exact Option.some_ne_none block), inside_nil⟩

/-- Writing a descriptor touches what reading it does. -/
theorem writeGroupDesc_touches (group : Nat) (desc : Block) :
    (tracedWriteGroupDesc fs get group desc).2 = (tracedReadGroupDesc fs get group).2 := by
  rw [tracedWriteGroupDesc, tracedReadGroupDesc]
  split
  · rfl
  · split
    · rfl
    · rfl

theorem findInode_inside (h : fs.Sized) {ino : Nat} (hpos : 0 < ino) (hle : ino ≤ fs.totalInodes) :
    Inside (tracedFindInode fs get ino).2 ↔ DescFits fs get ((ino - 1) / fs.inodesPerGroup) := by
  rw [tracedFindInode, if_neg (by omega), ← readGroupDesc_inside]
  cases tracedReadGroupDesc fs get ((ino - 1) / fs.inodesPerGroup) with
  | mk desc touches =>
    cases desc with
    | none => exact Iff.rfl
    | some desc =>
      have hinode := h.inode_inside (descInodeTable fs desc) ino
      dsimp only
      split
      · exact Iff.rfl
      · rw [inside_append, inside_cons]
        exact ⟨fun h => h.1, fun h => ⟨h, hinode, inside_nil⟩⟩

theorem readInode_touches (ino : Nat) : (tracedReadInode fs get ino).2 = (tracedFindInode fs get ino).2 := by
  rw [tracedReadInode]
  split
  · rename_i hfind
    rw [hfind]
  · rename_i hfind
    rw [hfind]

theorem writeInode_touches (ino : Nat) (inode : Block) :
    (tracedWriteInode fs get ino inode).2 = (tracedFindInode fs get ino).2 := by
  rw [tracedWriteInode]
  split
  · rename_i hfind
    rw [hfind]
  · rename_i hfind
    rw [hfind]

/-- The index into the triple-indirect block, for a logical block behind the double-indirect range. -/
def tripleIndex (fs : Ext4Fs) (logical : Nat) : Nat :=
  let p := ptrsPerBlock fs
  (logical - EXT4_NDIR_BLOCKS - p - p * p) / (p * p) % 2 ^ 32

/-- A logical block is not behind the triple-indirect range, or its index wraps into it, or there is no
triple-indirect block to read. -/
def TripleFits (fs : Ext4Fs) (get : Blocks) (iBlock : Block) (logical : Nat) : Prop :=
  EXT4_NDIR_BLOCKS + ptrsPerBlock fs + ptrsPerBlock fs * ptrsPerBlock fs ≤ logical →
    le32 iBlock (4 * EXT4_TIND_BLOCK) ≠ 0 → get (le32 iBlock (4 * EXT4_TIND_BLOCK)) ≠ none →
      tripleIndex fs logical < ptrsPerBlock fs

theorem followPointers_inside (b : Nat) {is : List Nat} (h : ∀ i ∈ is, 4 * i + 4 ≤ fs.blockSize) :
    Inside (followPointers fs get b is).2 := by
  induction is generalizing b with
  | nil => exact inside_nil
  | cons i is ih =>
    rw [followPointers]
    split
    · exact inside_nil
    split
    · exact inside_nil
    · rename_i block _
      exact inside_cons.mpr ⟨h i List.mem_cons_self, ih _ fun k hk => h k (List.mem_cons_of_mem i hk)⟩

theorem followPointers_inside_iff (b i : Nat) {is : List Nat} (h : ∀ k ∈ is, 4 * k + 4 ≤ fs.blockSize) :
    Inside (followPointers fs get b (i :: is)).2 ↔ (b ≠ 0 → get b ≠ none → 4 * i + 4 ≤ fs.blockSize) := by
  rw [followPointers]
  split
  · rename_i hzero
    exact ⟨fun _ hne => absurd hzero hne, fun _ => inside_nil⟩
  rename_i hne
  split
  · rename_i hget
    exact ⟨fun _ _ hsome => absurd hget hsome, fun _ => inside_nil⟩
  · rename_i block hget
    dsimp only
    rw [inside_cons]
    constructor
    · intro hin _ _
      exact hin.1
    · intro hin
      exact ⟨hin hne (by rw [hget]; exact Option.some_ne_none block), followPointers_inside _ h⟩

theorem entry_inside {i p : Nat} (hp : p = fs.blockSize / 4) (hi : i < p) : 4 * i + 4 ≤ fs.blockSize := by
  omega

theorem indirectGetBlock_inside (h : fs.Sized) (iBlock : Block) (logical : Nat) :
    Inside (tracedIndirectGetBlock fs get iBlock logical).2 ↔ TripleFits fs get iBlock logical := by
  have hblock := h.block_ge
  rw [TripleFits, tripleIndex, tracedIndirectGetBlock, indirectPath]
  dsimp only
  generalize hp : ptrsPerBlock fs = p
  rw [ptrsPerBlock] at hp
  have hpos : 0 < p := by omega
  have hsq : 0 < p * p := Nat.mul_pos hpos hpos
  by_cases hdirect : logical < EXT4_NDIR_BLOCKS
  · rw [if_pos hdirect]
    dsimp only [followPointers]
    rw [inside_cons]
    constructor
    · intro _ hbehind
      exact absurd hbehind (by omega)
    · intro _
      refine ⟨?_, inside_nil⟩
      rw [Touch.Inside]
      change logical < 12 at hdirect
      dsimp only
      omega
  rw [if_neg hdirect]
  by_cases hind : logical - EXT4_NDIR_BLOCKS < p
  · rw [if_pos hind]
    dsimp only
    rw [inside_cons]
    constructor
    · intro _ hbehind
      exact absurd hbehind (by omega)
    · intro _
      refine ⟨by decide, followPointers_inside _ ?_⟩
      intro i hi
      rw [List.mem_singleton] at hi
      exact entry_inside hp.symm (hi ▸ hind)
  rw [if_neg hind]
  by_cases hdind : logical - EXT4_NDIR_BLOCKS - p < p * p
  · rw [if_pos hdind]
    dsimp only
    rw [inside_cons]
    constructor
    · intro _ hbehind
      exact absurd hbehind (by omega)
    · intro _
      refine ⟨by decide, followPointers_inside _ ?_⟩
      intro i hi
      rw [List.mem_pair] at hi
      obtain rfl | rfl := hi
      · exact entry_inside hp.symm (Nat.div_lt_of_lt_mul hdind)
      · exact entry_inside hp.symm (Nat.mod_lt _ hpos)
  rw [if_neg hdind]
  dsimp only
  rw [inside_cons, followPointers_inside_iff]
  · constructor
    · intro hin _ hne hget
      have hroom := hin.2 hne hget
      omega
    · intro hin
      refine ⟨(by decide : 4 * EXT4_TIND_BLOCK + 4 ≤ 60), fun hne hget => ?_⟩
      exact entry_inside hp.symm (hin (by omega) hne hget)
  · intro i hi
    rw [List.mem_pair] at hi
    obtain rfl | rfl := hi
    · exact entry_inside hp.symm (Nat.div_lt_of_lt_mul (Nat.mod_lt _ hsq))
    · exact entry_inside hp.symm (Nat.mod_lt _ hpos)

theorem scanExtents_inside {area : Block} {available logical maxBlocks : Nat} (left i : Nat)
    (h : 12 + 12 * (i + left) ≤ available) :
    Inside (scanExtents area available logical maxBlocks left i).2 := by
  induction left generalizing i with
  | zero => exact inside_nil
  | succ left ih =>
    have hentry : (entryTouch available i).Inside := by
      rw [Touch.Inside, entryTouch]
      dsimp only
      omega
    rw [scanExtents]
    split
    · exact inside_cons.mpr ⟨hentry, inside_nil⟩
    · exact inside_cons.mpr ⟨hentry, ih (i + 1) (by omega)⟩

theorem scanIndices_inside {area : Block} {available logical : Nat} (n : Nat) (h : 12 + 12 * n ≤ available) :
    Inside (scanIndices area available logical n).2 := by
  induction n with
  | zero => exact inside_nil
  | succ n ih =>
    have hentry : (entryTouch available n).Inside := by
      rw [Touch.Inside, entryTouch]
      dsimp only
      omega
    rw [scanIndices]
    split
    · exact inside_cons.mpr ⟨hentry, inside_nil⟩
    · exact inside_cons.mpr ⟨hentry, ih (by omega)⟩

/-- The test of the header bounds the entries by the area. -/
theorem extentHeaderOk_room {area : Block} {available depth : Nat} (h : extentHeaderOk area available depth = true) :
    12 + 12 * le16 area 2 ≤ available := by
  rw [extentHeaderOk] at h
  simp only [Bool.and_eq_true, decide_eq_true_eq] at h
  omega

theorem extentWalk_inside {logical maxBlocks : Nat} (depth : Nat) (area : Block) (available : Nat) :
    Inside (tracedExtentWalk fs get logical maxBlocks depth area available).2 := by
  induction depth generalizing area available with
  | zero =>
    rw [tracedExtentWalk.eq_def]
    dsimp only
    split
    · exact inside_nil
    rename_i hlarge
    have hheader : (Touch.mk available 0 12).Inside := not_lt.mp hlarge
    split
    · rename_i hok
      refine inside_cons.mpr ⟨hheader, scanExtents_inside _ 0 ?_⟩
      rw [Nat.zero_add]
      exact extentHeaderOk_room hok
    · exact inside_cons.mpr ⟨hheader, inside_nil⟩
  | succ depth ih =>
    rw [tracedExtentWalk.eq_def]
    dsimp only
    split
    · exact inside_nil
    rename_i hlarge
    have hheader : (Touch.mk available 0 12).Inside := not_lt.mp hlarge
    split
    · rename_i hok
      have hscan : Inside (scanIndices area available logical (le16 area 2)).2 :=
        scanIndices_inside _ (extentHeaderOk_room hok)
      split
      · rename_i touches hnone
        rw [hnone] at hscan
        exact inside_cons.mpr ⟨hheader, hscan⟩
      · rename_i i touches hsome
        rw [hsome] at hscan
        split
        · exact inside_cons.mpr ⟨hheader, hscan⟩
        · exact inside_cons.mpr ⟨hheader, inside_append.mpr ⟨hscan, ih _ _⟩⟩
    · exact inside_cons.mpr ⟨hheader, inside_nil⟩

theorem extentGetRun_inside (iBlock : Block) (logical maxBlocks : Nat) :
    Inside (tracedExtentGetRun fs get iBlock logical maxBlocks).2 := by
  rw [tracedExtentGetRun]
  split
  · exact inside_nil
  split
  · exact inside_cons.mpr ⟨by decide, inside_nil⟩
  · exact inside_cons.mpr ⟨by decide, extentWalk_inside _ _ _⟩

/-- With the 32-byte descriptors of a file system without the 64-bit feature the last one of each block is too close
to the end. -/
theorem descFits_small (h : fs.Sized) (hdesc : fs.descSize = 32) (group : Nat) :
    descOffset fs group + groupDescSize ≤ fs.blockSize ↔ (group + 1) % (fs.blockSize / 32) ≠ 0 := by
  obtain ⟨k, _, hk⟩ := h.block
  have hsplit : fs.blockSize = 32 * 2 ^ (5 + k) := by
    rw [hk, show 10 + k = 5 + (5 + k) by omega, Nat.pow_add]
  have hpos : 0 < 2 ^ (5 + k) := Nat.two_pow_pos _
  rw [descOffset, hdesc, hsplit, Nat.mul_comm group 32, Nat.mul_mod_mul_left, Nat.mul_div_cancel_left _ (by decide)]
  generalize 2 ^ (5 + k) = m at hpos
  have hlt : group % m < m := Nat.mod_lt _ hpos
  change 32 * (group % m) + 64 ≤ 32 * m ↔ _
  rw [← Nat.mod_add_mod group m 1]
  by_cases hlast : group % m + 1 = m
  · rw [hlast, Nat.mod_self]
    constructor
    · intro hfit
      omega
    · intro hne
      exact absurd rfl hne
  · have hnext : group % m + 1 < m := by omega
    rw [Nat.mod_eq_of_lt hnext]
    constructor
    · intro _ hzero
      omega
    · intro _
      omega

/-- Larger descriptors that divide the block are no trouble. -/
theorem descFits_large (h : fs.Sized) (hdesc : groupDescSize ≤ fs.descSize) (hdvd : fs.descSize ∣ fs.blockSize)
    (group : Nat) : descOffset fs group + groupDescSize ≤ fs.blockSize := by
  have hlt : descOffset fs group < fs.blockSize := Nat.mod_lt _ (by have := h.block_ge; omega)
  have hoffset : fs.descSize ∣ descOffset fs group := (Nat.dvd_mod_iff hdvd).mpr (Nat.dvd_mul_left _ _)
  obtain ⟨a, ha⟩ := hoffset
  obtain ⟨b, hb⟩ := hdvd
  rw [ha, hb] at hlt ⊢
  have hroom := Nat.mul_le_mul_left fs.descSize (Nat.lt_of_mul_lt_mul_left hlt : a < b)
  rw [Nat.mul_succ] at hroom
  omega

end Conditions

section BlockMapValues

variable {fs : Ext4Fs} {g : Geometry} {d : Disk}

theorem scanExtents_eq (area : Block) (available logical maxBlocks left i : Nat) :
    (scanExtents area available logical maxBlocks left i).1 =
      match (List.range' i left).find? (extentHolds area logical) with
      | some j => extentRun area logical maxBlocks j
      | none => (0, 0) := by
  induction left generalizing i with
  | zero => rfl
  | succ left ih =>
    rw [scanExtents, List.range'_succ, List.find?_cons]
    cases extentHolds area logical i with
    | true => rfl
    | false => exact ih (i + 1)

theorem scanIndices_eq (area : Block) (available logical n : Nat) :
    (scanIndices area available logical n).1 =
      (List.range n).reverse.find? fun i => le32 area (12 + 12 * i) ≤ logical := by
  induction n with
  | zero => rfl
  | succ n ih =>
    rw [scanIndices, List.range_succ, List.reverse_append, List.reverse_singleton, List.singleton_append, List.find?_cons]
    by_cases hle : le32 area (12 + 12 * n) ≤ logical
    · rw [if_pos hle, decide_eq_true hle]
    · rw [if_neg hle, decide_eq_false hle]
      exact ih

/-- With its accesses counted the walk finds what it finds without. -/
theorem tracedExtentWalk_eq (hsize : g.blockSize = fs.blockSize) (logical maxBlocks depth : Nat) (area : Block)
    (available : Nat) :
    (tracedExtentWalk fs (fun b => some (d b)) logical maxBlocks depth area available).1 =
      extentWalk g d logical maxBlocks depth area available := by
  have hshort : ∀ k, available < 12 → extentHeaderOk area available k = false := by
    intro k hlt
    rw [extentHeaderOk, decide_eq_false (not_le.mpr hlt)]
    rfl
  induction depth generalizing area available with
  | zero =>
    rw [tracedExtentWalk.eq_def, extentWalk]
    dsimp only
    split
    · rename_i hlt
      rw [hshort 0 hlt]
      rfl
    · split
      · rw [List.range_eq_range']
        have hscan := scanExtents_eq area available logical maxBlocks (le16 area 2) 0
        cases hfind : (List.range' 0 (le16 area 2)).find? (extentHolds area logical) with
        | none =>
          rw [hfind] at hscan
          exact hscan
        | some i =>
          rw [hfind] at hscan
          exact hscan
      · rfl
  | succ depth ih =>
    rw [tracedExtentWalk.eq_def, extentWalk, extentIndex]
    dsimp only
    split
    · rename_i hlt
      rw [hshort _ hlt]
      rfl
    · split
      · rw [← scanIndices_eq area available logical (le16 area 2)]
        split
        · rename_i hnone
          rw [hnone]
        · rename_i i touches hsome
          rw [hsome, hsize]
          exact ih _ _ fun k hlt => by
            rw [extentHeaderOk, decide_eq_false (not_le.mpr hlt)]
            rfl
      · rfl

theorem tracedExtentGetRun_eq (hsize : g.blockSize = fs.blockSize) (inode : MapInode) (logical maxBlocks : Nat) :
    (tracedExtentGetRun fs (fun b => some (d b)) inode.iBlock logical maxBlocks).1 =
      ext4ExtentGetRun g d inode logical maxBlocks := by
  rw [tracedExtentGetRun, ext4ExtentGetRun]
  by_cases hzero : maxBlocks = 0
  · rw [if_pos hzero, decide_eq_true hzero]
    rfl
  rw [if_neg hzero, decide_eq_false hzero, Bool.false_or]
  by_cases hdeep : 5 < le16 inode.iBlock 6
  · rw [if_pos hdeep, if_pos (decide_eq_true hdeep)]
  · rw [if_neg hdeep, if_neg (by simpa using hdeep)]
    exact tracedExtentWalk_eq hsize _ _ _ _ _

theorem followPointers_eq (b i : Nat) (is : List Nat) :
    (followPointers fs (fun b => some (d b)) b (i :: is)).1 =
      (followPointers fs (fun b => some (d b)) (indirectEntry d b i) is).1 := by
  rw [followPointers, indirectEntry]
  split
  · cases is with
    | nil => rfl
    | cons k is => rw [followPointers, if_pos rfl]
  · rfl

theorem tracedIndirectGetBlock_eq (hsize : g.blockSize = fs.blockSize) (inode : MapInode) {logical : Nat}
    (hrange : (logical - EXT4_NDIR_BLOCKS - ptrsPerBlock fs - ptrsPerBlock fs * ptrsPerBlock fs) /
      (ptrsPerBlock fs * ptrsPerBlock fs) < 2 ^ 32) :
    (tracedIndirectGetBlock fs (fun b => some (d b)) inode.iBlock logical).1 = ext4IndirectGetBlock g d inode logical := by
  rw [tracedIndirectGetBlock, indirectPath, ext4IndirectGetBlock, hsize]
  dsimp only
  rw [ptrsPerBlock] at hrange ⊢
  split
  · rfl
  split
  · exact followPointers_eq _ _ _
  split
  · dsimp only
    rw [followPointers_eq, followPointers_eq]
    rfl
  · dsimp only
    rw [followPointers_eq, followPointers_eq, followPointers_eq, Nat.mod_eq_of_lt hrange]
    rfl

end BlockMapValues

section Sample

/-- A superblock with 1 KiB blocks, 32-byte descriptors and 32 groups. -/
def sampleSuper : Block
  | 2 => 4
  | 4 => 1
  | 6 => 4
  | 20 => 1
  | 33 => 0x20
  | 41 => 0x20
  | 56 => 0x53
  | 57 => 0xEF
  | 88 => 128
  | _ => 0

def sampleFs : Ext4Fs where
  blockSize := 1024
  inodeSize := 128
  firstDataBlock := 1
  totalBlocks := 262145
  totalInodes := 262144
  groupsCount := 32
  descSize := 32
  inodesPerGroup := 8192
  is64bit := false

def zeroBlocks : Blocks := fun _ => some fun _ => 0

/-- An inode area with a triple-indirect block. -/
def sampleIBlock : Block
  | 56 => 5
  | _ => 0

end Sample

end Lebirun.Ext4
