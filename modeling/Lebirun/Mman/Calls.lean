import Lebirun.Mman.Pages

/-!
The calls `munmap`, `mprotect`, `mremap` and `madvise`. A sum of addresses that wraps is tested
as a sum that reaches 2^64.
-/

namespace Lebirun.Mman
set_option autoImplicit true

abbrev esrch : Int := 3
abbrev eio : Int := 5
abbrev eagain : Int := 11
abbrev enomem : Int := 12
abbrev eacces : Int := 13
abbrev efault : Int := 14
abbrev einval : Int := 22

abbrev userDynamicBase : Nat := 0x00500000
abbrev userDynamicLimit : Nat := 0x3F800000
abbrev userHighDynamicBase : Nat := 0x0000000100000000
abbrev userHighDynamicLimit : Nat := 0x00007FFF00000000

/-- The memory of a task. -/
structure Vm where
  file : FileMaps
  pages : Pages
  mmapNextAddr : Nat
  userBrkStart : Nat
  userBrk : Nat
  readaheadPages : Nat

/-- `align_up_u64` to pages -/
def alignUp (v : Nat) : Nat := (v + (pageSize - 1)) % 2 ^ 64 / pageSize * pageSize

def Area.meets (a : Area) (base stop : Nat) : Bool := !(decide (stop ≤ a.vaddr ∨ a.stop ≤ base))

def Area.has (a : Area) (bits : BitVec 32) : Bool := a.mapFlags &&& bits != 0

/-- `mmap_pte_flags` -/
def mmapPteFlags (prot : BitVec 32) : BitVec 64 :=
  vmmPtePresent ||| (if prot ≠ 0 then vmmPteUser else 0) |||
    (if prot &&& 2 ≠ 0 then vmmPteWrite else 0) ||| (if prot &&& 4 = 0 then vmmPteNx else 0)

/-! ### Ranges -/

/-- The loop of `user_range_covered_by_vmas` from a position. -/
def coveredFrom (maps : List Area) (stop position : Nat) : Bool :=
  if position < stop then
    match _h : maps.find? fun a => a.vaddr ≤ position ∧ position < a.stop with
    | none => false
    | some a => coveredFrom maps stop (if a.stop < stop then a.stop else stop)
  else true
termination_by stop - position
decreasing_by
  have := List.find?_some _h
  simp only [decide_eq_true_eq] at this
  split <;> omega

/-- `user_range_covered_by_vmas` -/
def userRangeCoveredByVmas (s : Vm) (addr size : Nat) : Bool :=
  if size = 0 then true
  else if 2 ^ 64 ≤ addr + size ∨ kernelVma < addr + size then false
  else coveredFrom s.file.maps (addr + size) addr

/-- `user_range_free_pages` -/
def userRangeFreePages (s : Vm) (addr size allowBase allowSize : Nat) : Bool :=
  if size = 0 then true
  else if 2 ^ 64 ≤ addr + size - 1 then false
  else
    (s.file.maps.all fun a => decide (a.stop ≤ addr ∨ (addr + size) % 2 ^ 64 ≤ a.vaddr ∨
      (allowSize ≠ 0 ∧ allowBase ≤ a.vaddr ∧ a.stop ≤ allowBase + allowSize))) &&
    (List.range' (addr / pageSize) ((addr + size - 1) / pageSize - addr / pageSize + 1)).all
      fun p => (s.pages p).isNone || decide (allowSize ≠ 0 ∧ allowBase ≤ p * pageSize ∧
        p * pageSize < allowBase + allowSize)

def userMmapRangeValid (addr stop : Nat) : Bool :=
  decide ((userDynamicBase ≤ addr ∧ stop < userDynamicLimit) ∨
    (userHighDynamicBase ≤ addr ∧ stop < userHighDynamicLimit))

/-- `user_range_free_mem` -/
def userRangeFreeMem (s : Vm) (addr size allowBase allowSize : Nat) : Bool :=
  if size = 0 then true
  else if 2 ^ 64 ≤ addr + size - 1 then false
  else if !userMmapRangeValid addr (addr + size - 1) then false
  else userRangeFreePages s addr size allowBase allowSize

/-- A loop of `user_mmap_auto_base`: the highest free range at or below a cursor. -/
def autoBaseFrom (s : Vm) (bottom size cursor : Nat) : Option Nat :=
  if _h : 0 < cursor ∧ bottom + size ≤ cursor then
    if userRangeFreePages s (cursor - size) size 0 0 then some (cursor - size)
    else autoBaseFrom s bottom size (cursor - pageSize)
  else none
termination_by cursor
decreasing_by
  have : pageSize = 4096 := rfl
  omega

/-- `user_mmap_auto_base`; nothing where it returns 0. -/
def userMmapAutoBase (s : Vm) (next size : Nat) : Option Nat :=
  if size = 0 ∨ userHighDynamicLimit - userHighDynamicBase < size then none
  else if userHighDynamicBase ≤ next ∧ next ≤ userHighDynamicLimit then
    autoBaseFrom s userHighDynamicBase size (next / pageSize * pageSize)
  else
    let cursor := if next ≤ userDynamicBase ∨ userDynamicLimit < next then userDynamicLimit
      else next
    match autoBaseFrom s userDynamicBase size (cursor / pageSize * pageSize) with
    | some base => some base
    | none => autoBaseFrom s userHighDynamicBase size (userHighDynamicLimit / pageSize * pageSize)

/-! ### Writing back -/

/-- The inner loop of `sync_user_range` over the part of an area from a position on. -/
def syncPart (o : Answers) (pages : Pages) (index finish position : Nat) : Int :=
  if position < finish then
    let chunk := if pageSize < finish - position then pageSize else finish - position
    if (pages (position / pageSize)).isNone then syncPart o pages index finish (position + chunk)
    else if !o.buffer then -enomem
    else if !o.written index position then -eio
    else syncPart o pages index finish (position + chunk)
  else 0
termination_by finish - position
decreasing_by
  all_goals
    have : pageSize = 4096 := rfl
    split <;> omega

def syncAreas (o : Answers) (pages : Pages) (base stop : Nat) : Nat → List Area → Int
  | _, [] => 0
  | index, a :: maps =>
    if !a.meets base stop ∨ !a.has taskVmaShared ∨ !a.has taskVmaFile ∨ a.node.isNone then
      syncAreas o pages base stop (index + 1) maps
    else
      let start := if a.vaddr < base then base else a.vaddr
      let finish := if stop < a.stop then stop else a.stop
      let finish := if a.fileEnd < finish then a.fileEnd else finish
      let result := syncPart o pages index finish start
      if result < 0 then result else syncAreas o pages base stop (index + 1) maps

/-- `sync_user_range` with `MS_ASYNC`, on a range that need not be mapped -/
def syncUserRange (o : Answers) (s : Vm) (base length : Nat) : Int :=
  if base % pageSize ≠ 0 then -einval
  else if length = 0 then 0
  else if 2 ^ 64 ≤ base + length ∨ kernelVma < base + length then -enomem
  else syncAreas o s.pages base (base + length) 0 s.file.maps

/-- `release_user_leaf_range` -/
def releaseUserLeafRange (base stop : Nat) (pages : Pages) : Pages :=
  unmapPages (base / pageSize) ((stop - base + (pageSize - 1)) / pageSize) pages

/-! ### munmap -/

/-- The checks of `sys_munmap`: the end of the range, if they pass. -/
def munmapRange (base length : Nat) : Option Nat :=
  let size := alignUp length
  if base % pageSize ≠ 0 ∨ length = 0 ∨ kernelVma ≤ base then none
  else if size = 0 ∨ size < length ∨ 2 ^ 64 ≤ base + size then none
  else some (if kernelVma < base + size then kernelVma else base + size)

def sysMunmap (o : Answers) (s : Vm) (base length : Nat) : Int × Vm :=
  match munmapRange base length with
  | none => (-einval, s)
  | some stop =>
    if syncUserRange o s base (stop - base) < 0 then (-eio, s)
    else
      match s.file.reserve o.grants 1 with
      | none => (-enomem, s)
      | some file =>
        let (result, file) := taskUnmapVmAreas o.grants file base (stop - base)
        if result ≠ 0 then (-enomem, { s with file := file })
        else
          (0, { s with
            file := file
            pages := releaseUserLeafRange base stop s.pages
            mmapNextAddr := if base = s.mmapNextAddr ∧ userMmapRangeValid base (stop - 1) then stop
              else s.mmapNextAddr })

/-! ### mprotect -/

/-- The length of the range: the mask is an unsigned int. -/
def protectSize (length : Nat) : Nat := (length + 0xFFF) % 2 ^ 32 / pageSize * pageSize

/-- The checks of `sys_mprotect`: what it returns because of them. -/
def mprotectChecks (o : Answers) (s : Vm) (base length : Nat) (prot : BitVec 32) : Option Int :=
  let size := protectSize length
  if base % pageSize ≠ 0 then some (-einval)
  else if prot &&& ~~~7 ≠ 0 then some (-einval)
  else if prot &&& 6 = 6 then some (-eacces)
  else if length = 0 then some 0
  else if size < length ∨ kernelVma ≤ base ∨ 2 ^ 64 ≤ base + size ∨ kernelVma < base + size then
    some (-einval)
  else if s.file.maps.any fun a => a.meets base (base + size) && (prot &&& 2 != 0) &&
      a.has taskVmaShared && (!a.has taskVmaMaywrite || a.node.any o.sealed) then some (-eacces)
  else if (prot &&& 4 != 0) && s.file.maps.any fun a => a.meets base (base + size) &&
      a.node.any o.noexec then some (-eacces)
  else if !userRangeCoveredByVmas s base size then some (-enomem)
  else none

def sysMprotect (o : Answers) (s : Vm) (base length : Nat) (prot : BitVec 32) : Int × Vm :=
  match mprotectChecks o s base length prot with
  | some result => (result, s)
  | none =>
    let size := protectSize length
    let pteFlags := mmapPteFlags prot
    let (result, file) := taskProtectVmAreas o.grants s.file base size pteFlags
    if result ≠ 0 then (-enomem, { s with file := file })
    else
      let (ok, pages) := protectPages o pteFlags (base / pageSize) (size / pageSize) s.pages
      if !ok then (-enomem, { s with file := file, pages := pages })
      else if !o.flushed then (-eagain, { s with file := file, pages := pages })
      else (0, { s with file := file, pages := pages })

/-! ### mremap -/

/-- An area moved to a place. The call has checked that the place is a range of addresses. -/
def Area.place (base size : Nat) (whole : Bool) (a : Area) : Area :=
  if h : 0 < size ∧ base + size < 2 ^ 64 then
    { a with
      vaddr := base
      memsz := size
      filesz := if whole then size else if size < a.filesz then size else a.filesz
      nonempty := h.1
      below := h.2
      filled := by split_ifs <;> omega }
  else a

/-- The end of `sys_mremap`: the isolated area takes its new place. -/
def mremapPlace (s : Vm) (original : Area) (base size index : Nat) : Int × Vm :=
  (base, { s with
    file := s.file.update index (Area.place base size (original.has taskVmaFile))
    mmapNextAddr := if base < s.mmapNextAddr then base else s.mmapNextAddr })

/-- The shrinking of an area where it is. -/
def mremapShrink (o : Answers) (s : Vm) (oldBase oldLen size : Nat) : Int × Vm :=
  if size < oldLen then
    match s.file.reserve o.grants 2 with
    | none => (-enomem, s)
    | some file =>
      match taskIsolateVmArea o.grants file oldBase oldLen with
      | (none, file) => (-efault, { s with file := file })
      | (some index, file) =>
        (oldBase, { s with
          file := file.update index fun a => a.place a.vaddr size false
          pages := releaseUserLeafRange (oldBase + size) (oldBase + oldLen) s.pages })
  else (oldBase, s)

/-- The part of `sys_mremap` for a new place, which is free. -/
def mremapMove (o : Answers) (s : Vm) (original : Area) (oldBase oldLen base size : Nat)
    (sharedGrowth : Bool) : Int × Vm :=
  let moved := if oldLen < size then oldLen else size
  let (grown, pages) :=
    if sharedGrowth then mapUserPages o (base + oldLen) (size - oldLen) original.flags s.pages
    else (true, s.pages)
  let released (pages : Pages) : Pages :=
    if sharedGrowth then releaseUserLeafRange (base + oldLen) (base + size) pages else pages
  if !grown then (-enomem, { s with pages := pages })
  else
    let (mapped, pages) := mapAgainTurns o (oldBase / pageSize) (base / pageSize) 0
      (moved / pageSize) pages
    if !mapped then (-enomem, { s with pages := released pages })
    else
      match taskIsolateVmArea o.grants s.file oldBase oldLen with
      | (none, file) => (-efault, { s with
          file := file
          pages := released (unmapPages (base / pageSize) (moved / pageSize) pages) })
      | (some index, file) =>
        let pages := unmapPages (oldBase / pageSize) (moved / pageSize) pages
        let pages := if size < oldLen then
          releaseUserLeafRange (oldBase + size) (oldBase + oldLen) pages else pages
        mremapPlace { s with file := file, pages := pages } original base size index

/-- The growth of an area where it is. -/
def mremapGrow (o : Answers) (s : Vm) (original : Area) (oldBase oldLen size : Nat)
    (sharedGrowth : Bool) : Int × Vm :=
  let (grown, pages) :=
    if sharedGrowth then mapUserPages o (oldBase + oldLen) (size - oldLen) original.flags s.pages
    else (true, s.pages)
  if !grown then (-enomem, { s with pages := pages })
  else
    match taskIsolateVmArea o.grants s.file oldBase oldLen with
    | (none, file) => (-efault, { s with
        file := file
        pages := if sharedGrowth then
          releaseUserLeafRange (oldBase + oldLen) (oldBase + size) pages else pages })
    | (some index, file) =>
      mremapPlace { s with file := file, pages := pages } original oldBase size index

/-- Where `sys_mremap` puts the area. -/
def mremapBase (s : Vm) (oldBase oldLen size : Nat) (flags : BitVec 32) (newAddr : Nat) :
    Except Int Nat :=
  if flags &&& 2 ≠ 0 then
    if newAddr % pageSize ≠ 0 ∨
        (newAddr < oldBase + oldLen ∧ oldBase < (newAddr + size) % 2 ^ 64) ∨
        (newAddr < s.userBrk ∧ s.userBrkStart < (newAddr + size) % 2 ^ 64) then .error (-einval)
    else .ok newAddr
  else if userRangeFreeMem s (oldBase + oldLen) (size - oldLen) 0 0 then .ok oldBase
  else if flags &&& 1 = 0 then .error (-enomem)
  else
    match userMmapAutoBase s s.mmapNextAddr size with
    | none => .error (-enomem)
    | some base => .ok base

/-- The rest of `sys_mremap` once the old range is known to be in the area `original`. -/
def mremapArea (o : Answers) (s : Vm) (original : Area) (oldBase oldLen size : Nat)
    (flags : BitVec 32) (newAddr : Nat) : Int × Vm :=
  if original.has (taskVmaDevice ||| taskVmaShm) then (-einval, s)
  else if flags &&& 2 = 0 ∧ size ≤ oldLen then mremapShrink o s oldBase oldLen size
  else if oldLen < size ∧ !o.allows (size - oldLen) then (-enomem, s)
  else
    match mremapBase s oldBase oldLen size flags newAddr with
    | .error result => (result, s)
    | .ok base =>
      if 2 ^ 64 ≤ base + size ∨ !userMmapRangeValid base (base + size - 1) then (-einval, s)
      else
        match s.file.reserve o.grants 3 with
        | none => (-enomem, s)
        | some file =>
          let s := { s with file := file }
          let sharedGrowth := decide (oldLen < size) && original.has taskVmaShared &&
            original.has taskVmaAnonymous
          if base = oldBase then mremapGrow o s original oldBase oldLen size sharedGrowth
          else
            let (cleared, s) := if flags &&& 2 ≠ 0 then sysMunmap o s base size else (0, s)
            if cleared < 0 ∧ !userRangeFreeMem s base size 0 0 then (-enomem, s)
            else if !userRangeFreeMem s base size 0 0 then (-enomem, s)
            else mremapMove o s original oldBase oldLen base size sharedGrowth

def sysMremap (o : Answers) (s : Vm) (oldBase oldSize newSize : Nat) (flags : BitVec 32)
    (newAddr : Nat) : Int × Vm :=
  let oldLen := alignUp oldSize
  let size := alignUp newSize
  if oldBase = 0 ∨ oldSize = 0 ∨ newSize = 0 then (-einval, s)
  else if flags &&& ~~~3 ≠ 0 ∨ (flags &&& 2 ≠ 0 ∧ flags &&& 1 = 0) then (-einval, s)
  else if oldBase % pageSize ≠ 0 then (-einval, s)
  else if oldLen = 0 ∨ size = 0 ∨ oldLen < oldSize ∨ size < newSize ∨ 2 ^ 64 ≤ oldBase + oldLen then
    (-einval, s)
  else
    match s.file.maps.find? fun a => a.vaddr ≤ oldBase ∧ oldBase + oldLen ≤ a.stop with
    | none => (-efault, s)
    | some original => mremapArea o s original oldBase oldLen size flags newAddr

/-! ### madvise -/

/-- The checks of `sys_madvise`: what it returns because of them. -/
def madviseChecks (base length : Nat) (advice : Int) : Option Int :=
  let size := alignUp length
  if base % pageSize ≠ 0 then some (-einval)
  else if 0 < length ∧ (kernelVma ≤ base ∨ 2 ^ 64 ≤ base + length ∨ kernelVma < base + length) then
    some (-enomem)
  else if ¬((0 ≤ advice ∧ advice ≤ 4) ∨ (8 ≤ advice ∧ advice ≤ 21) ∨
      (100 ≤ advice ∧ advice ≤ 101)) then some (-einval)
  else if length = 0 then some 0
  else if size = 0 ∨ size < length ∨ 2 ^ 64 ≤ base + size ∨ kernelVma < base + size then
    some (-enomem)
  else none

/-- The map flags that the advice about forks sets and clears. -/
def adviceBits (advice : Int) : BitVec 32 × BitVec 32 :=
  (if advice = 10 then taskVmaDontfork else if advice = 18 then taskVmaWipeonfork else 0,
    if advice = 11 then taskVmaDontfork else if advice = 19 then taskVmaWipeonfork else 0)

/-- The checks of the advice about forks. -/
def forkChecks (s : Vm) (base size : Nat) (advice : Int) : Option Int :=
  if !userRangeCoveredByVmas s base size then some (-enomem)
  else if advice = 18 ∧ s.file.maps.any fun a => a.meets base (base + size) &&
      (!a.has taskVmaAnonymous || a.has taskVmaShared) then some (-einval)
  else none

def adviseFork (o : Answers) (s : Vm) (base size : Nat) (advice : Int) : Int × Vm :=
  match forkChecks s base size advice with
  | some result => (result, s)
  | none =>
    let (bits, clear) := adviceBits advice
    let (result, file) := taskAdviseVmAreas o.grants s.file base size bits clear
    (if result = 0 then 0 else -enomem, { s with file := file })

/-- The check of each page for the advice about its contents. -/
def advisePages (s : Vm) (advice : Int) : Nat → Nat → Int
  | _, 0 => 0
  | page, count + 1 =>
    match s.file.maps.find? fun a => a.vaddr ≤ page * pageSize ∧ page * pageSize < a.stop with
    | none =>
      if (s.pages page).isNone ∨ page * pageSize < 0x1000 then -enomem
      else advisePages s advice (page + 1) count
    | some a =>
      if advice = 8 ∧ (!a.has taskVmaAnonymous ∨ a.has taskVmaShared) then -einval
      else advisePages s advice (page + 1) count

/-- The pages that are dropped because of the advice: those of areas not shared and anonymous. -/
def dropPages (s : Vm) : Nat → Nat → Pages → Pages
  | _, 0, pages => pages
  | page, count + 1, pages =>
    match s.file.maps.find? fun a => a.vaddr ≤ page * pageSize ∧ page * pageSize < a.stop with
    | none => dropPages s (page + 1) count pages
    | some a =>
      if a.has taskVmaShared ∧ a.has taskVmaAnonymous then dropPages s (page + 1) count pages
      else dropPages s (page + 1) count (unmapPages page 1 pages)

/-- The pages that are read in ahead of their use. -/
def readPages (o : Answers) (s : Vm) : Nat → Nat → Pages → Pages
  | _, 0, pages => pages
  | page, count + 1, pages =>
    if s.file.maps.any fun a => a.node.isSome && !a.has taskVmaAnonymous &&
        decide (a.vaddr ≤ page * pageSize ∧ page * pageSize < a.stop) then
      readPages o s (page + 1) count (o.fault pages (page * pageSize))
    else readPages o s (page + 1) count pages

def sysMadvise (o : Answers) (s : Vm) (base length : Nat) (advice : Int) : Int × Vm :=
  match madviseChecks base length advice with
  | some result => (result, s)
  | none =>
    let size := alignUp length
    let page := base / pageSize
    let count := size / pageSize
    if advice = 10 ∨ advice = 11 ∨ advice = 18 ∨ advice = 19 then adviseFork o s base size advice
    else if (advice ≤ 4 ∨ advice = 8) ∧ advisePages s advice page count < 0 then
      (advisePages s advice page count, s)
    else if advice = 0 ∨ advice = 1 ∨ advice = 2 then
      if !o.ext then (-enomem, s)
      else (0, { s with
        readaheadPages := if advice = 2 then 17 else if advice = 1 then 1 else 2 })
    else if advice = 3 then (0, { s with pages := readPages o s page count s.pages })
    else if advice ≠ 4 ∧ advice ≠ 8 then (0, s)
    else if syncUserRange o s base length < 0 then (-eio, s)
    else (0, { s with pages := dropPages s page count s.pages })

end Lebirun.Mman
