import Mathlib

namespace Lebirun.Ext4
set_option autoImplicit true

/-- The bytes of a block by offset. -/
abbrev Block := Nat → UInt8

/-- What the block layer reads under each block number. -/
abbrev Disk := Nat → Block

def le16 (b : Block) (i : Nat) : Nat := (b i).toNat + 2 ^ 8 * (b (i + 1)).toNat

def le32 (b : Block) (i : Nat) : Nat := le16 b i + 2 ^ 16 * le16 b (i + 2)

/-- The fields of an `ext4_inode_t` that locate its blocks; `iBlock` is the area of `i_block`. -/
structure MapInode where
  iFlags : Nat
  iBlock : Block

/-- The constants of a mounted file system. -/
structure Geometry where
  blockSize : Nat
  totalBlocks : Nat
  sizeOk : 1024 ≤ blockSize

abbrev EXT4_NDIR_BLOCKS : Nat := 12
abbrev EXT4_IND_BLOCK : Nat := 12
abbrev EXT4_DIND_BLOCK : Nat := 13
abbrev EXT4_TIND_BLOCK : Nat := 14
abbrev EXT4_EXTENT_MAGIC : Nat := 0xF30A
abbrev EXT4_INODE_FLAG_EXTENTS : Nat := 0x00080000

/-- Does extent `i` of a leaf hold the logical block? -/
def extentHolds (area : Block) (logical i : Nat) : Bool :=
  let start := le32 area (12 + 12 * i)
  let rawLen := le16 area (12 + 12 * i + 4)
  let length := if rawLen > 32768 then rawLen - 32768 else rawLen
  !(length = 0 || logical < start || logical - start ≥ length)

/-- The run that extent `i` gives, and where it is; an unwritten extent is nowhere. -/
def extentRun (area : Block) (logical maxBlocks i : Nat) : Nat × Nat :=
  let start := le32 area (12 + 12 * i)
  let rawLen := le16 area (12 + 12 * i + 4)
  let length := if rawLen > 32768 then rawLen - 32768 else rawLen
  let run := min (length - (logical - start)) maxBlocks
  if rawLen > 32768 then (run, 0)
  else
    (run, le32 area (12 + 12 * i + 8) + 2 ^ 32 * le16 area (12 + 12 * i + 6) + (logical - start))

/-- The header test of `ext4_extent_get_run`, on an area of `available` bytes. -/
def extentHeaderOk (area : Block) (available depth : Nat) : Bool :=
  12 ≤ available && le16 area 0 = EXT4_EXTENT_MAGIC && le16 area 6 = depth &&
    le16 area 2 ≤ le16 area 4 && le16 area 4 ≤ (available - 12) / 12

/-- The last index entry that does not start behind the logical block. -/
def extentIndex (area : Block) (logical : Nat) : Option Nat :=
  (List.range (le16 area 2)).reverse.find? fun i => le32 area (12 + 12 * i) ≤ logical

def extentLeaf (area : Block) (i : Nat) : Nat :=
  le32 area (12 + 12 * i + 4) + 2 ^ 32 * le16 area (12 + 12 * i + 8)

/-- The loop of `ext4_extent_get_run`; no run when the tree is malformed or has a hole. -/
def extentWalk (fs : Geometry) (d : Disk) (logical maxBlocks : Nat) :
    Nat → Block → Nat → Nat × Nat
  | 0, area, available =>
    if extentHeaderOk area available 0 then
      match (List.range (le16 area 2)).find? (extentHolds area logical) with
      | some i => extentRun area logical maxBlocks i
      | none => (0, 0)
    else (0, 0)
  | depth + 1, area, available =>
    if extentHeaderOk area available (depth + 1) then
      match extentIndex area logical with
      | some i =>
        extentWalk fs d logical maxBlocks depth (d (extentLeaf area i)) fs.blockSize
      | none => (0, 0)
    else (0, 0)

def ext4ExtentGetRun (fs : Geometry) (d : Disk) (inode : MapInode) (logical maxBlocks : Nat) :
    Nat × Nat :=
  if maxBlocks = 0 || le16 inode.iBlock 6 > 5 then (0, 0)
  else extentWalk fs d logical maxBlocks (le16 inode.iBlock 6) inode.iBlock 60

def ext4ExtentGetBlock (fs : Geometry) (d : Disk) (inode : MapInode) (logical : Nat) : Nat :=
  if (ext4ExtentGetRun fs d inode logical 1).1 = 0 then 0
  else (ext4ExtentGetRun fs d inode logical 1).2

/-- Entry `i` of the indirect block `b`, none for a null pointer to it. -/
def indirectEntry (d : Disk) (b i : Nat) : Nat := if b = 0 then 0 else le32 (d b) (4 * i)

def ext4IndirectGetBlock (fs : Geometry) (d : Disk) (inode : MapInode) (logical : Nat) : Nat :=
  let p := fs.blockSize / 4
  if logical < EXT4_NDIR_BLOCKS then le32 inode.iBlock (4 * logical)
  else
    let l := logical - EXT4_NDIR_BLOCKS
    if l < p then indirectEntry d (le32 inode.iBlock (4 * EXT4_IND_BLOCK)) l
    else
      let l := l - p
      if l < p * p then
        indirectEntry d (indirectEntry d (le32 inode.iBlock (4 * EXT4_DIND_BLOCK)) (l / p)) (l % p)
      else
        let l := l - p * p
        let dind := indirectEntry d (le32 inode.iBlock (4 * EXT4_TIND_BLOCK)) (l / (p * p))
        indirectEntry d (indirectEntry d dind (l % (p * p) / p)) (l % (p * p) % p)

def ext4InodeGetBlock (fs : Geometry) (d : Disk) (inode : MapInode) (logical : Nat) : Nat :=
  if inode.iFlags &&& EXT4_INODE_FLAG_EXTENTS ≠ 0 then ext4ExtentGetBlock fs d inode logical
  else ext4IndirectGetBlock fs d inode logical

/-! The blocks that a lookup reads on its way. -/

def extentReads (fs : Geometry) (d : Disk) (logical : Nat) : Nat → Block → Nat → List Nat
  | 0, _, _ => []
  | depth + 1, area, available =>
    if extentHeaderOk area available (depth + 1) then
      match extentIndex area logical with
      | some i =>
        extentLeaf area i ::
          extentReads fs d logical depth (d (extentLeaf area i)) fs.blockSize
      | none => []
    else []

def indirectReads (fs : Geometry) (d : Disk) (inode : MapInode) (logical : Nat) : List Nat :=
  let p := fs.blockSize / 4
  let path :=
    if logical < EXT4_NDIR_BLOCKS then []
    else
      let l := logical - EXT4_NDIR_BLOCKS
      if l < p then [le32 inode.iBlock (4 * EXT4_IND_BLOCK)]
      else
        let l := l - p
        if l < p * p then
          [le32 inode.iBlock (4 * EXT4_DIND_BLOCK),
            indirectEntry d (le32 inode.iBlock (4 * EXT4_DIND_BLOCK)) (l / p)]
        else
          let l := l - p * p
          let dind := indirectEntry d (le32 inode.iBlock (4 * EXT4_TIND_BLOCK)) (l / (p * p))
          [le32 inode.iBlock (4 * EXT4_TIND_BLOCK), dind, indirectEntry d dind (l % (p * p) / p)]
  -- a null pointer ends the path
  path.filter (· ≠ 0)

def mapReads (fs : Geometry) (d : Disk) (inode : MapInode) (logical : Nat) : List Nat :=
  if inode.iFlags &&& EXT4_INODE_FLAG_EXTENTS ≠ 0 then
    if le16 inode.iBlock 6 > 5 then []
    else extentReads fs d logical (le16 inode.iBlock 6) inode.iBlock 60
  else indirectReads fs d inode logical

theorem extentWalk_congr {fs : Geometry} {d d' : Disk}
    (h : ∀ b ∈ extentReads fs d l depth area available, d' b = d b) :
    extentWalk fs d' l m depth area available = extentWalk fs d l m depth area available := by
  induction depth generalizing area available with
  | zero => rfl
  | succ depth ih =>
    rw [extentWalk, extentWalk]
    rw [extentReads] at h
    split
    · rename_i hok
      rw [if_pos hok] at h
      cases hi : extentIndex area l with
      | none => rfl
      | some i =>
        simp only [hi] at h ⊢
        have hd := h _ List.mem_cons_self
        rw [hd]
        exact ih fun b hb => h b (List.mem_cons_of_mem _ hb)
    · rfl

theorem indirectEntry_congr {d d' : Disk} (h : b ≠ 0 → d' b = d b) :
    indirectEntry d' b i = indirectEntry d b i := by
  rw [indirectEntry, indirectEntry]
  split
  · rfl
  · rename_i hb
    rw [h hb]

theorem ext4IndirectGetBlock_congr {fs : Geometry} {d d' : Disk} {inode : MapInode}
    (h : ∀ b ∈ indirectReads fs d inode l, d' b = d b) :
    ext4IndirectGetBlock fs d' inode l = ext4IndirectGetBlock fs d inode l := by
  simp only [indirectReads, List.mem_filter, decide_eq_true_eq, and_imp] at h
  simp only [ext4IndirectGetBlock]
  split
  · rfl
  · rename_i h1
    rw [if_neg h1] at h
    split
    · rename_i h2
      rw [if_pos h2] at h
      exact indirectEntry_congr (h _ List.mem_cons_self)
    · rename_i h2
      rw [if_neg h2] at h
      split
      · rename_i h3
        rw [if_pos h3] at h
        rw [indirectEntry_congr (h _ List.mem_cons_self)]
        exact indirectEntry_congr (h _ (List.mem_cons_of_mem _ List.mem_cons_self))
      · rename_i h3
        rw [if_neg h3] at h
        have h4 := h _ List.mem_cons_self
        have h5 := h _ (List.mem_cons_of_mem _ List.mem_cons_self)
        have h6 := h _ (List.mem_cons_of_mem _ (List.mem_cons_of_mem _ List.mem_cons_self))
        rw [indirectEntry_congr h4, indirectEntry_congr h5, indirectEntry_congr h6]

/-- A lookup depends on the disk through the blocks it reads. -/
theorem ext4InodeGetBlock_congr {fs : Geometry} {d d' : Disk} {inode : MapInode}
    (h : ∀ b ∈ mapReads fs d inode l, d' b = d b) :
    ext4InodeGetBlock fs d' inode l = ext4InodeGetBlock fs d inode l := by
  rw [ext4InodeGetBlock, ext4InodeGetBlock]
  rw [mapReads] at h
  split
  · rename_i he
    rw [if_pos he] at h
    have hrun : ext4ExtentGetRun fs d' inode l 1 = ext4ExtentGetRun fs d inode l 1 := by
      rw [ext4ExtentGetRun, ext4ExtentGetRun]
      by_cases hd : le16 inode.iBlock 6 > 5
      · simp [hd]
      · rw [if_neg hd] at h
        rw [extentWalk_congr h]
    rw [ext4ExtentGetBlock, ext4ExtentGetBlock, hrun]
  · rename_i he
    rw [if_neg he] at h
    exact ext4IndirectGetBlock_congr h

/-- A walk that finds a block has read well-formed tree blocks only. -/
theorem extentReads_magic {fs : Geometry} {d : Disk}
    (h : (extentWalk fs d l m depth area available).1 ≠ 0) :
    ∀ b ∈ extentReads fs d l depth area available, le16 (d b) 0 = EXT4_EXTENT_MAGIC := by
  induction depth generalizing area available with
  | zero => nofun
  | succ depth ih =>
    rw [extentWalk] at h
    rw [extentReads]
    split
    · rename_i hok
      rw [if_pos hok] at h
      cases hi : extentIndex area l with
      | none => nofun
      | some i =>
        simp only [hi] at h ⊢
        intro b hb
        rcases List.mem_cons.mp hb with rfl | hb
        · have hhead : ∃ k, extentHeaderOk (d (extentLeaf area i)) fs.blockSize k = true := by
            cases depth with
            | zero =>
              rw [extentWalk] at h
              split at h
              · exact ⟨_, ‹_›⟩
              · exact absurd rfl h
            | succ depth =>
              rw [extentWalk] at h
              split at h
              · exact ⟨_, ‹_›⟩
              · exact absurd rfl h
          obtain ⟨k, hk⟩ := hhead
          simp only [extentHeaderOk, Bool.and_eq_true, decide_eq_true_eq] at hk
          exact hk.1.1.1.2
        · exact ih h b hb
    · nofun

/-- The first block of a file, when it is no tree block, is not read on the way to itself. -/
theorem first_not_read {fs : Geometry} {d : Disk} {inode : MapInode}
    (h0 : ext4InodeGetBlock fs d inode 0 ≠ 0)
    (hm : le16 (d (ext4InodeGetBlock fs d inode 0)) 0 ≠ EXT4_EXTENT_MAGIC) :
    ext4InodeGetBlock fs d inode 0 ∉ mapReads fs d inode 0 := by
  intro hin
  rw [mapReads] at hin
  split at hin
  · rename_i he
    have hb : ext4InodeGetBlock fs d inode 0 = ext4ExtentGetBlock fs d inode 0 := by
      rw [ext4InodeGetBlock, if_pos he]
    split at hin
    · cases hin
    · rename_i hd
      apply hm
      refine extentReads_magic (m := 1) ?_ _ hin
      intro hz
      apply h0
      rw [hb, ext4ExtentGetBlock, ext4ExtentGetRun]
      simp [hd, hz]
  · simp [indirectReads] at hin

end Lebirun.Ext4
