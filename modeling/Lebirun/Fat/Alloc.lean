import Mathlib
import Lebirun.Lib.Run
import Lebirun.Fat.Table

namespace Lebirun.Fat
open Machine
set_option autoImplicit true

/-- The calls of `fat_set_next` in one allocation, by their place in the code. -/
inductive SetCall where
  | single
  | endNext
  | linkPrev
  | unlinkPrev
  | clearTurn
  | clear
  | zeroUnlink
  | zeroClear
  deriving DecidableEq

/-- The accesses to the device in one allocation: the read of an entry by the search; in
`fat_chain_append` those of the sector of `next`, which may be that of `prev` too, and of the sector of
`prev`, by copy; those of a `fat_set_next`, by copy and by sector of the entry; the writes of zeros. -/
inductive Access where
  | scan (cluster : Nat)
  | next (f : Nat) (write : Bool)
  | prev (f : Nat) (write : Bool)
  | set (call : SetCall) (f half : Nat) (write : Bool)
  | zero (i : Nat)
  deriving DecidableEq

/-- How the accesses turn out: which of them work, and how many pieces of 512 bytes, or of a sector for the
zeros, are on the disk after a write that does not. -/
structure Device where
  works : Access → Bool
  done : Access → Nat

section Operations

variable (fs : FatFs)

/-- `fat_eoc` -/
def fatEoc : Nat := if fs.fatBits = 32 then 0x0FFFFFFF else if fs.fatBits = 16 then 0xFFFF else 0x0FFF

/-- `fat_is_eoc` -/
def fatIsEoc (v : Nat) : Bool :=
  if fs.fatBits = 32 then 0x0FFFFFF8 ≤ v else if fs.fatBits = 16 then 0xFFF8 ≤ v else 0xFF8 ≤ v

/-- `fat_write_lba`, which writes piece by piece. -/
def writeLba (io : Device) (a : Access) (vol : FatVol) (lba : Nat) (buf : Bytes) : Bool × FatVol :=
  if io.works a then (true, fatWriteLba vol lba buf)
  else
    let pieces := min (io.done a) ((fs.bps + 511) / 512 - 1)
    (false, fatWriteLba vol lba fun i => if i < pieces * 512 then buf i else vol.disk lba i)

/-- `fat_next_cluster`, which answers 1 when it has to read and cannot. -/
def nextCluster (works : Bool) (vol : FatVol) (cluster : Nat) : Nat × FatVol :=
  if cluster < 2 ∨ fs.bound ≤ cluster then (1, vol)
  else
    match fatTableLba fs cluster with
    | (lba, off) =>
      if (vol.fbufLba + 1) % 2 ^ 64 = lba ∧ off + 4 ≤ fs.bps then fatNextCluster fs vol cluster
      else if vol.fbufLba ≠ lba ∧ !works then (1, { vol with fbufLba := noLba })
      else fatNextCluster fs vol cluster

def setCopy (io : Device) (call : SetCall) (vol : FatVol) (cluster value f : Nat) : Bool × FatVol :=
  match fatTableLba fs cluster with
  | (lba, off) =>
    let crossing : Bool := fs.fatBits = 12 ∧ fs.bps < off + 2
    let flba := lba + f * fs.fatSectors
    if !io.works (.set call f 0 false) then (false, vol)
    else if crossing && !io.works (.set call f 1 false) then (false, vol)
    else
      match fatPatchEntry fs (readRange fs vol.disk flba) cluster off value with
      | none => (false, vol)
      | some scratch =>
        let r := writeLba fs io (.set call f 0 true) vol flba scratch
        if !r.1 then r
        else if crossing then
          writeLba fs io (.set call f 1 true) r.2 (flba + 1) fun i => scratch (fs.bps + i)
        else r

def setCopies (io : Device) (call : SetCall) (cluster value : Nat) : Nat → Nat → FatVol → Bool × FatVol
  | 0, _, vol => (true, vol)
  | left + 1, f, vol =>
    let r := setCopy fs io call vol cluster value f
    if r.1 then setCopies io call cluster value left (f + 1) r.2 else r

/-- `fat_set_next` -/
def setNext (io : Device) (call : SetCall) (vol : FatVol) (cluster value : Nat) : Bool × FatVol :=
  if cluster < 2 ∨ fs.bound ≤ cluster then (false, vol)
  else setCopies fs io call cluster value fs.fats 0 vol

/-- One turn of the loop of `fat_chain_append`; without success it goes to `fail`. -/
def appendTurn (io : Device) (vol : FatVol) (prev next f : Nat) : Bool × FatVol :=
  match fatTableLba fs next, fatTableLba fs prev with
  | (lbaN, offN), (lbaP, offP) =>
    let flbaN := lbaN + f * fs.fatSectors
    let flbaP := lbaP + f * fs.fatSectors
    if !io.works (.next f false) then (false, vol)
    else
      match fatPatchEntry fs (readRange fs vol.disk flbaN) next offN (fatEoc fs) with
      | none => (false, vol)
      | some sector =>
        if flbaN = flbaP then
          match fatPatchEntry fs sector prev offP next with
          | none => (false, vol)
          | some sector => writeLba fs io (.next f true) vol flbaN sector
        else
          let r := writeLba fs io (.next f true) vol flbaN sector
          if !r.1 then r
          else if !io.works (.prev f false) then (false, (setNext fs io .clearTurn r.2 next 0).2)
          else
            match fatPatchEntry fs (readRange fs r.2.disk flbaP) prev offP next with
            | none => (false, (setNext fs io .clearTurn r.2 next 0).2)
            | some sector =>
              let r := writeLba fs io (.prev f true) r.2 flbaP sector
              if r.1 then r else (false, (setNext fs io .clearTurn r.2 next 0).2)

def appendTurns (io : Device) (prev next : Nat) : Nat → Nat → FatVol → Bool × FatVol
  | 0, _, vol => (true, vol)
  | left + 1, f, vol =>
    let r := appendTurn fs io vol prev next f
    if r.1 then appendTurns io prev next left (f + 1) r.2 else r

/-- The end of `fat_chain_append` from `fail` on. -/
def appendFail (io : Device) (vol : FatVol) (next : Nat) : Bool × FatVol :=
  (false, (setNext fs io .clear vol next 0).2)

/-- `fat_chain_append` -/
def chainAppend (io : Device) (vol : FatVol) (prev next : Nat) : Bool × FatVol :=
  if next < 2 ∨ fs.bound ≤ next then (false, vol)
  else if prev < 2 then setNext fs io .single vol next (fatEoc fs)
  else if fs.bound ≤ prev then (false, vol)
  else if fs.fatBits = 12 ∧
      (fs.bps < (fatTableLba fs next).2 + 2 ∨ fs.bps < (fatTableLba fs prev).2 + 2) then
    let r := setNext fs io .endNext vol next (fatEoc fs)
    if !r.1 then appendFail fs io r.2 next
    else
      let r := setNext fs io .linkPrev r.2 prev next
      if r.1 then r
      else
        let r := setNext fs io .unlinkPrev r.2 prev (fatEoc fs)
        if r.1 then appendFail fs io r.2 next else r
  else
    let r := appendTurns fs io prev next fs.fats 0 vol
    if r.1 then r else appendFail fs io r.2 next

/-- `n` sectors of zeros. -/
def writeZeros : Nat → FatVol → Nat → FatVol
  | 0, vol, _ => vol
  | n + 1, vol, lba => writeZeros n (fatWriteLba vol lba fun _ => 0) (lba + 1)

/-- The loop of `fat_zero_cluster` from sector `i` of the cluster on. -/
def zeroFrom (io : Device) (lba i : Nat) (vol : FatVol) : Bool × FatVol :=
  if i < fs.spc then
    let n := if fs.spc - i < 2 then 1 else 2
    if io.works (.zero i) then zeroFrom io lba (i + 2) (writeZeros n vol (lba + i))
    else (false, writeZeros (min (io.done (.zero i)) n) (fatInval vol (lba + i) n) (lba + i))
  else (true, vol)
termination_by fs.spc - i

/-- `fat_zero_cluster` -/
def zeroCluster (io : Device) (vol : FatVol) (cluster : Nat) : Bool × FatVol :=
  zeroFrom fs io (fatClusterLba fs cluster) 0 vol

end Operations

/-- The volume with the fields the allocation keeps. -/
structure FatState where
  vol : FatVol
  freeCount : Nat
  allocHint : Nat
  fsinfoDirty : Bool

/-- `UINT32_MAX`: the number of free clusters is not known. -/
abbrev unknownCount : Nat := 2 ^ 32 - 1

section Alloc

variable (fs : FatFs)

def FatFs.after (c : Nat) : Nat := if fs.bound ≤ c + 1 then 2 else c + 1

/-- What `fat_alloc_inner` does with a free cluster. -/
def allocFound (io : Device) (prev : Nat) (zero : Bool) (c : Nat) (st : FatState) : Nat × FatState :=
  let st := { st with allocHint := fs.after c }
  let r := chainAppend fs io st.vol prev c
  if !r.1 then (1, { st with vol := r.2 })
  else
    let z := if zero then zeroCluster fs io r.2 c else (true, r.2)
    if !z.1 then
      let vol := if 2 ≤ prev then (setNext fs io .zeroUnlink z.2 prev (fatEoc fs)).2 else z.2
      (1, { st with vol := (setNext fs io .zeroClear vol c 0).2 })
    else
      (c, { st with
        vol := z.2
        freeCount := if st.freeCount = unknownCount then unknownCount else st.freeCount - 1
        fsinfoDirty := true })

/-- The search of `fat_alloc_inner` over `left` more clusters. -/
def allocScan (io : Device) (prev : Nat) (zero : Bool) : Nat → Nat → FatState → Nat × FatState
  | 0, _, st => (1, st)
  | left + 1, c, st =>
    let r := nextCluster fs (io.works (.scan c)) st.vol c
    let st := { st with vol := r.2 }
    if r.1 = 0 then allocFound fs io prev zero c st else allocScan io prev zero left (fs.after c) st

/-- `fat_alloc_inner`: with `zero` it is `fat_alloc_cluster`, without `fat_alloc_cluster_nz`. -/
def fatAllocInner (io : Device) (st : FatState) (prev : Nat) (zero : Bool) : Nat × FatState :=
  if st.freeCount = 0 then (1, st)
  else
    let hint := if st.allocHint < 2 ∨ fs.bound ≤ st.allocHint then 2 else st.allocHint
    allocScan fs io prev zero fs.clusterCount hint { st with allocHint := hint }

/-- The loop of `fat_free_chain` for at most `left` clusters. -/
def freeFrom : Nat → Nat → FatState → FatState
  | 0, _, st => st
  | left + 1, c, st =>
    if c < 2 ∨ fs.bound ≤ c then st
    else
      let r := fatNextCluster fs st.vol c
      let st := { st with vol := r.2 }
      let st :=
        if r.1 = 0 then st
        else
          match fatSetNext fs st.vol c 0 with
          | none => st
          | some vol =>
            { st with
              vol := vol
              freeCount := if st.freeCount = unknownCount then unknownCount else st.freeCount + 1
              fsinfoDirty := true }
      if fatIsEoc fs r.1 then st
      else if r.1 < 2 ∨ fs.bound ≤ r.1 then st
      else freeFrom left r.1 st

/-- `fat_free_chain`, which gives up after `cluster_count + 2` clusters. -/
def fatFreeChain (st : FatState) (start : Nat) : FatState := freeFrom fs (fs.clusterCount + 2) start st

def countFrom : Nat → Nat → Nat → FatVol → Nat × FatVol
  | 0, _, n, vol => (n, vol)
  | left + 1, c, n, vol =>
    let r := fatNextCluster fs vol c
    countFrom left (c + 1) (if r.1 = 0 then n + 1 else n) r.2

/-- `fat_count_free` -/
def fatCountFree (st : FatState) : FatState :=
  if st.freeCount ≠ unknownCount then st
  else
    let r := countFrom fs (fs.bound - 2) 2 0 st.vol
    { st with vol := r.2, freeCount := r.1 }

end Alloc

/-! What an allocation should do. -/

/-- An entry of some copy leads to a cluster that is free. -/
def Dangling (fs : FatFs) (d : Nat → Bytes) : Prop :=
  ∃ f < fs.fats, ∃ c, 2 ≤ c ∧ c < fs.bound ∧ 2 ≤ fs.entry d f c ∧ fs.entry d f c < fs.bound ∧
    fs.entry d 0 (fs.entry d f c) = 0

structure AllOrNothing (fs : FatFs) (st : FatState) (prev : Nat) (r : Nat × FatState) : Prop where
  inside : 2 ≤ r.1 → r.1 < fs.bound
  free : 2 ≤ r.1 → fs.entry st.vol.disk 0 r.1 = 0
  ends : 2 ≤ r.1 → ∀ f < fs.fats, fs.entry r.2.vol.disk f r.1 = fatEoc fs
  linked : 2 ≤ r.1 → 2 ≤ prev → ∀ f < fs.fats, fs.entry r.2.vol.disk f prev = r.1
  counted : 2 ≤ r.1 → r.2.freeCount =
    if st.freeCount = unknownCount then unknownCount else st.freeCount - 1
  nothing : r.1 < 2 → ¬ Dangling fs r.2.vol.disk
  uncounted : r.1 < 2 → r.2.freeCount = st.freeCount

/-- The outcomes under which a failed allocation is undone: once the link to the new cluster stands in
the first copy, the other copies are written; when the new cluster cannot be zeroed, the link is taken
back; and no entry and no sector is left half written. -/
structure Calm (fs : FatFs) (io : Device) (prev : Nat) (zero : Bool) : Prop where
  ends : 2 ≤ prev → ∀ f write, 1 ≤ f → f < fs.fats → io.works (.next f write) = true
  links : 2 ≤ prev → ∀ f write, 1 ≤ f → f < fs.fats → io.works (.prev f write) = true
  unlink : zero = true → 2 ≤ prev → ∀ f half write, f < fs.fats →
    io.works (.set .zeroUnlink f half write) = true
  whole : fs.fatBits = 12 → ∀ call f, f < fs.fats → io.works (.set call f 1 true) = true
  pieces : fs.bps = 512 ∨ ∀ a, io.done a = 0

/-- Every access works. -/
def working : Device := ⟨fun _ => true, fun _ => 0⟩

/-- The cluster to append to is one of the volume, in use. -/
def InUse (fs : FatFs) (st : FatState) (prev : Nat) : Prop :=
  2 ≤ prev → prev < fs.bound → fs.entry st.vol.disk 0 prev ≠ 0

/-- The free clusters of the first copy. -/
def freeClusters (fs : FatFs) (d : Nat → Bytes) : Finset Nat :=
  (Finset.range fs.bound).filter fun c => 2 ≤ c ∧ fs.entry d 0 c = 0

inductive AllocOp where
  | alloc (prev : Nat) (zero : Bool)
  | freeChain (start : Nat)
  | countFree

/-- One call with working accesses. -/
def allocStep (fs : FatFs) (st : FatState) : AllocOp → FatState
  | .alloc prev zero => (fatAllocInner fs working st prev zero).2
  | .freeChain start => fatFreeChain fs st start
  | .countFree => fatCountFree fs st

def AllocOp.Sane (fs : FatFs) (st : FatState) : AllocOp → Prop
  | .alloc prev _ => InUse fs st prev
  | .freeChain _ => True
  | .countFree => True

/-- The count is right once it is known. -/
structure Counted (fs : FatFs) (st : FatState) : Prop where
  coherent : st.vol.Coherent fs
  count : st.freeCount ≠ unknownCount → st.freeCount = (freeClusters fs st.vol.disk).card

end Lebirun.Fat
