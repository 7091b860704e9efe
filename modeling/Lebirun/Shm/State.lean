import Mathlib

namespace Lebirun.Shm
set_option autoImplicit true

abbrev PAGE_SIZE : Nat := 4096
abbrev SHM_RDONLY : UInt32 := 0x1000
abbrev SHM_RND : UInt32 := 0x2000
abbrev IPC_CREAT : UInt32 := 0x200
abbrev IPC_EXCL : UInt32 := 0x400
abbrev IPC_RMID : Int := 0
abbrev USER_DYNAMIC_BASE : Nat := 0x00500000
abbrev USER_DYNAMIC_LIMIT : Nat := 0x3f800000
abbrev USER_HIGH_DYNAMIC_BASE : Nat := 0x100000000
abbrev USER_HIGH_DYNAMIC_LIMIT : Nat := 0x00007fff00000000
abbrev EPERM : Int := 1
abbrev ENOENT : Int := 2
abbrev ESRCH : Int := 3
abbrev ENOMEM : Int := 12
abbrev EACCES : Int := 13
abbrev EFAULT : Int := 14
abbrev EEXIST : Int := 17
abbrev EINVAL : Int := 22

/-- The address of a page; 0 is no page. -/
abbrev Frame := Nat

/-- A `shm_seg_t`; `pages` is empty where the source has no array. -/
structure Segment where
  inUse : Bool
  removed : Bool
  key : Int
  size : Nat
  pages : List Frame
  pageCount : Nat
  nattach : Nat
  mode : UInt32
  uid : Nat
  gid : Nat
  deriving DecidableEq

/-- What `memset` leaves. -/
def Segment.zero : Segment := ⟨false, false, 0, 0, [], 0, 0, 0, 0, 0⟩

/-- A `shm_attachment_t`; an address space has a number. -/
structure Attachment where
  vm : Nat
  shmid : Nat
  address : Nat
  size : Nat
  deriving DecidableEq

/-- The tables, the pages got from `pfa_alloc` and not given back, and those given back without being held. -/
structure State where
  segs : List Segment
  attachments : List Attachment
  owned : List Frame
  stray : List Frame
  deriving DecidableEq

/-- `syscalls_shm_init` -/
def syscallsShmInit : State := ⟨[], [], [], []⟩

/-- An entry of `file_maps`. -/
structure Area where
  vaddr : Nat
  memsz : Nat
  offset : Nat
  shm : Bool
  deriving DecidableEq

/-- What is read of a `task_vm_t` and its page tables. -/
structure Vm where
  id : Nat
  userBrkStart : Nat
  userBrk : Nat
  mmapNextAddr : Nat
  fileMaps : List Area
  mapped : Nat → Bool

/-- What is read of `current_task`. -/
structure Caller where
  euid : Nat
  egid : Nat
  vm : Vm

def State.put (s : State) (i : Nat) (segment : Segment) : State := { s with segs := s.segs.set i segment }

/-! Pages. -/

def State.pfaAlloc (s : State) (f : Frame) : State := { s with owned := f :: s.owned }

def State.pfaFree (s : State) (f : Frame) : State :=
  if f ∈ s.owned then { s with owned := s.owned.erase f } else { s with stray := f :: s.stray }

/-- The loop of `shm_allocate_pages`; `frames` has the results of `pfa_alloc` in order. -/
def allocLoop (frames : Nat → Frame) : Nat → State → List Frame → State × Option (List Frame)
  | 0, s, got => (s, some got)
  | k + 1, s, got =>
    let f := frames got.length
    if f = 0 then (got.reverse.foldl State.pfaFree s, none) else allocLoop frames k (s.pfaAlloc f) (got ++ [f])

/-- `krealloc_grow_array`, with the outcome of `krealloc` -/
def shmGrow (s : State) (krealloc : Bool) : Option State :=
  if s.segs.length = 0 then
    if krealloc then some { s with segs := [Segment.zero] } else none
  else if 0x7fffffff / 2 < s.segs.length then none
  else if krealloc then some { s with segs := s.segs ++ List.replicate s.segs.length Segment.zero }
  else none

/-- `shm_reclaim_storage` -/
def shmReclaimStorage (s : State) : State :=
  if s.segs.any (·.inUse) then s else { s with segs := [] }

/-- `shm_permission` -/
def shmPermission (caller : Caller) (segment : Segment) (writeAccess : Bool) : Bool :=
  let bits :=
    if caller.euid = segment.uid then segment.mode >>> 6
    else if caller.egid = segment.gid then segment.mode >>> 3
    else segment.mode
  caller.euid = 0 || (bits &&& 4 ≠ 0 && (!writeAccess || bits &&& 2 ≠ 0))

/-- `shm_free_segment` of the segment in a slot -/
def shmFreeSegment (s : State) (i : Nat) : State :=
  match s.segs[i]? with
  | none => s
  | some segment =>
    if !segment.inUse || segment.nattach ≠ 0 then s
    else
      let s := ((segment.pages.take segment.pageCount).filter (· ≠ 0)).foldl State.pfaFree s
      s.put i Segment.zero

/-- `shm_drop_attachment` -/
def shmDropAttachment (s : State) (a : Attachment) : State :=
  match s.segs[a.shmid]? with
  | none => { s with attachments := s.attachments.erase a }
  | some segment =>
    let s := { s with attachments := s.attachments.erase a }.put a.shmid { segment with nattach := segment.nattach - 1 }
    if segment.removed ∧ segment.nattach - 1 = 0 then shmFreeSegment s a.shmid else s

/-- The walk of `shm_prune_task` and `shm_close_vm`, which drops the attachments with `p`. -/
def dropLoop (p : Attachment → Bool) : List Attachment → State → State
  | [], s => s
  | a :: l, s => dropLoop p l (if p a then shmDropAttachment s a else s)

/-! Addresses. -/

/-- `shm_range_free` -/
def shmRangeFree (vm : Vm) (address size : Nat) : Bool :=
  if 2 ^ 64 ≤ address + size then false
  else if ¬((USER_DYNAMIC_BASE ≤ address ∧ address + size ≤ USER_DYNAMIC_LIMIT) ∨
      (USER_HIGH_DYNAMIC_BASE ≤ address ∧ address + size ≤ USER_HIGH_DYNAMIC_LIMIT)) then false
  else if address < vm.userBrk ∧ vm.userBrkStart < address + size then false
  else if vm.fileMaps.any fun area =>
      2 ^ 64 ≤ area.vaddr + area.memsz || (address < area.vaddr + area.memsz && area.vaddr < address + size) then false
  else (List.range ((size + PAGE_SIZE - 1) / PAGE_SIZE)).all fun i => !vm.mapped (address + i * PAGE_SIZE)

/-- A loop of `shm_find_address`, down from `address`; each turn goes one page down. -/
def findDown (vm : Vm) (base size : Nat) : Nat → Nat → Nat
  | 0, _ => 0
  | fuel + 1, address =>
    if (base + size) % 2 ^ 64 ≤ address then
      let a := (address + 2 ^ 64 - size) % 2 ^ 64
      if shmRangeFree vm a size then a else findDown vm base size fuel ((a + size - PAGE_SIZE) % 2 ^ 64)
    else 0

def pageDown (address : Nat) : Nat := address / PAGE_SIZE * PAGE_SIZE

/-- `shm_find_address`; each loop has a turn for each page below its start. -/
def shmFindAddress (vm : Vm) (requested size : Nat) : Nat :=
  if requested ≠ 0 then
    let address := pageDown requested
    if shmRangeFree vm address size then address else 0
  else
    let address := vm.mmapNextAddr
    if USER_HIGH_DYNAMIC_BASE ≤ address ∧ address ≤ USER_HIGH_DYNAMIC_LIMIT then
      findDown vm USER_HIGH_DYNAMIC_BASE size (address / PAGE_SIZE + 1) (pageDown address)
    else
      let address :=
        if address ≤ USER_DYNAMIC_BASE ∨ USER_DYNAMIC_LIMIT < address then USER_DYNAMIC_LIMIT else address
      let low := findDown vm USER_DYNAMIC_BASE size (address / PAGE_SIZE + 1) (pageDown address)
      if low ≠ 0 then low
      else findDown vm USER_HIGH_DYNAMIC_BASE size (USER_HIGH_DYNAMIC_LIMIT / PAGE_SIZE + 1)
        (pageDown USER_HIGH_DYNAMIC_LIMIT)

/-- Whether `shm_attachment_area` finds an area. -/
def shmAttachmentArea (areas : List Area) (a : Attachment) : Bool :=
  areas.any fun area => area.shm && a.address ≤ area.vaddr && area.vaddr - a.address < a.size &&
    area.offset = (a.shmid + (area.vaddr - a.address)) % 2 ^ 64

/-! The calls. -/

/-- The outcomes of the allocations of `sys_shmget`. -/
structure GetOutcome where
  krealloc : Bool
  kmalloc : Bool
  frames : Nat → Frame

/-- The outcomes of the steps of `shmat_locked`. -/
structure AtOutcome where
  kmalloc : Bool
  mapped : Bool
  areaAdded : Bool

/-- A slot once it is cleared, with `page_count` set. -/
def Segment.counted (count : Nat) : Segment := { Segment.zero with pageCount := count }

/-- The segment that `sys_shmget` fills in. -/
def newSegment (caller : Option Caller) (key : Int) (size : Nat) (flags : UInt32) (pages : List Frame) : Segment where
  inUse := true
  removed := false
  key := key
  size := size
  pages := pages
  pageCount := size / PAGE_SIZE
  nattach := 0
  mode := flags &&& 0x1ff
  uid := caller.elim 0 (·.euid)
  gid := caller.elim 0 (·.egid)

/-- `size` in whole pages -/
def pageSize (size : Nat) : Nat :=
  ((if size = 0 then PAGE_SIZE else size) + PAGE_SIZE - 1) % 2 ^ 64 / PAGE_SIZE * PAGE_SIZE

/-- The end of `sys_shmget`, for a slot that is not in use. -/
def makeSegment (s : State) (caller : Option Caller) (key : Int) (size : Nat) (flags : UInt32) (outcome : GetOutcome)
    (slot : Nat) : State × Int :=
  let size := pageSize size
  if size = 0 then (s, -EINVAL)
  else
    let s := s.put slot (Segment.counted (size / PAGE_SIZE))
    if outcome.kmalloc then
      match allocLoop outcome.frames (size / PAGE_SIZE) s [] with
      | (s, none) => (s.put slot Segment.zero, -ENOMEM)
      | (s, some pages) => (s.put slot (newSegment caller key size flags pages), slot)
    else (s, -ENOMEM)

/-- `sys_shmget` -/
def sysShmget (s : State) (caller : Option Caller) (key : Int) (size : Nat) (flags : UInt32) (outcome : GetOutcome) :
    State × Int :=
  match if key = 0 then none else s.segs.findIdx? fun g => g.inUse && !g.removed && g.key = key with
  | some i =>
    if flags &&& IPC_CREAT ≠ 0 ∧ flags &&& IPC_EXCL ≠ 0 then (s, -EEXIST)
    else if size ≠ 0 ∧ (s.segs.getD i Segment.zero).size < size then (s, -EINVAL)
    else (s, i)
  | none =>
    if flags &&& IPC_CREAT = 0 ∧ key ≠ 0 then (s, -ENOENT)
    else
      match s.segs.findIdx? fun g => !g.inUse with
      | some slot => makeSegment s caller key size flags outcome slot
      | none =>
        match shmGrow s outcome.krealloc with
        | none => (s, -ENOMEM)
        | some grown => makeSegment grown caller key size flags outcome s.segs.length

/-- The slot that a `shmid` names. -/
def State.at (s : State) (shmid : Int) : Option (Nat × Segment) :=
  if shmid < 0 then none
  else match s.segs[shmid.toNat]? with
    | none => none
    | some segment => if segment.inUse then some (shmid.toNat, segment) else none

/-- `shmat_locked` -/
def shmatLocked (s : State) (caller : Option Caller) (shmid : Int) (requested : Nat) (flags : UInt32)
    (outcome : AtOutcome) : State × Int :=
  match caller with
  | none => (s, -ESRCH)
  | some caller =>
    if requested ≠ 0 ∧ flags &&& SHM_RND = 0 ∧ requested % PAGE_SIZE ≠ 0 then (s, -EINVAL)
    else if !outcome.kmalloc then (s, -ENOMEM)
    else
      match s.at shmid with
      | none => (s, -EINVAL)
      | some (i, segment) =>
        if segment.removed then (s, -EINVAL)
        else if !shmPermission caller segment (flags &&& SHM_RDONLY = 0) then (s, -EACCES)
        else
          let address := shmFindAddress caller.vm requested segment.size
          if address = 0 ∨ !outcome.mapped then (s, -ENOMEM)
          else if !outcome.areaAdded then (s, -ENOMEM)
          else
            ({ s with attachments := ⟨caller.vm.id, i, address, segment.size⟩ :: s.attachments }.put i
              { segment with nattach := segment.nattach + 1 }, address)

/-- `shmdt_locked` -/
def shmdtLocked (s : State) (caller : Option Caller) (shmaddr : Nat) : State × Int :=
  match caller with
  | none => (s, -ESRCH)
  | some caller =>
    match s.attachments.find? fun a => a.vm = caller.vm.id ∧ a.address = shmaddr with
    | none => (s, -EINVAL)
    | some a => (shmReclaimStorage (shmDropAttachment s a), 0)

/-- `shm_prune_task`, for the areas that its address space has left -/
def shmPruneTask (s : State) (vm : Nat) (areas : List Area) : State :=
  shmReclaimStorage (dropLoop (fun a => a.vm = vm && !shmAttachmentArea areas a) s.attachments s)

/-- `shm_close_vm` -/
def shmCloseVm (s : State) (vm : Nat) : State := shmReclaimStorage (dropLoop (fun a => a.vm = vm) s.attachments s)

/-- `sys_shmctl`; `cmd` is what is left of it without the bit 0x100. -/
def sysShmctl (s : State) (caller : Option Caller) (shmid cmd : Int) : State × Int :=
  match s.at shmid with
  | none => (s, -EINVAL)
  | some (i, segment) =>
    match caller with
    | none => (s, -EPERM)
    | some caller =>
      if caller.euid ≠ 0 ∧ caller.euid ≠ segment.uid then (s, -EPERM)
      else if cmd ≠ IPC_RMID then (s, -EINVAL)
      else
        let s := s.put i { segment with removed := true, key := -1 }
        (shmReclaimStorage (if segment.nattach = 0 then shmFreeSegment s i else s), 0)

/-- The first loop of `shm_fork_vm`: the copies so far, from the front of the list. -/
def forkLoop (parent child : Nat) (kmalloc : Nat → Bool) : List Attachment → List Attachment → Option (List Attachment)
  | [], copies => some copies
  | a :: l, copies =>
    if a.vm = parent then
      if kmalloc copies.length then forkLoop parent child kmalloc l ({ a with vm := child } :: copies) else none
    else forkLoop parent child kmalloc l copies

def countCopies : List Attachment → List Segment → List Segment
  | [], segs => segs
  | a :: l, segs => countCopies l (segs.modify a.shmid fun g => { g with nattach := g.nattach + 1 })

/-- `shm_fork_vm` -/
def shmForkVm (s : State) (parent child : Nat) (kmalloc : Nat → Bool) : State × Int :=
  match forkLoop parent child kmalloc s.attachments [] with
  | none => (s, -ENOMEM)
  | some copies => ({ s with segs := countCopies copies s.segs, attachments := copies ++ s.attachments }, 0)

/-- The `key` of `shm_name_key`, for a name that could be copied. -/
def shmNameKey (name : List UInt8) : Int :=
  Int.bmod (name.foldl (fun hash c => hash * 31 + c.toUInt32) (0 : UInt32)).toNat (2 ^ 32)

/-- `sys_shm_open`, with the name if it could be copied -/
def sysShmOpen (s : State) (caller : Option Caller) (name : Option (List UInt8)) (oflag mode : UInt32)
    (outcome : GetOutcome) : State × Int :=
  match name with
  | none => (s, -EFAULT)
  | some name =>
    let flags := mode &&& 0x1ff
    let flags := if oflag &&& 0x40 ≠ 0 then flags ||| IPC_CREAT else flags
    let flags := if oflag &&& 0x80 ≠ 0 then flags ||| IPC_EXCL else flags
    sysShmget s caller (shmNameKey name) PAGE_SIZE flags outcome

/-- The search of `sys_shm_unlink`, which lets the lock go before it calls `sys_shmctl` on what it found. -/
def sysShmUnlink (s : State) (name : Option (List UInt8)) : Except Int Nat :=
  match name with
  | none => .error (-EFAULT)
  | some name =>
    match s.segs.findIdx? fun g => g.inUse && !g.removed && g.key = shmNameKey name with
    | some i => .ok i
    | none => .error (-ENOENT)

end Lebirun.Shm
