import Mathlib

namespace Lebirun.Paging
set_option autoImplicit true

/-! The page tables of the kernel. A word of memory is a number below `2 ^ 64`. The tables are read and written through
their addresses in the direct window, which the pages that `pt_alloc_pt_page` gives have; here by physical address. -/

abbrev PAGE_SIZE : Nat := 0x1000
abbrev VMM_HUGE_PAGE_SIZE : Nat := 0x200000
abbrev KERNEL_VMA : Nat := 0xffffffff80000000
abbrev HEAP_START : Nat := 0xffffffffc0000000
abbrev PHYSICAL_ADDRESS_LIMIT : Nat := 0x10000000000000
abbrev PT_DIRECT_WINDOW_START : Nat := 0x20000000
abbrev VMM_PTE_PRESENT : Nat := 1
abbrev VMM_PTE_WRITE : Nat := 2
abbrev VMM_PTE_USER : Nat := 4
abbrev VMM_PTE_NX : Nat := 0x8000000000000000
abbrev PAGE_MASK : Nat := 0xfffffffffffff000
abbrev PHYS_MASK : Nat := 0xffffffffff000
abbrev HUGE_MASK : Nat := 0xfffffffe00000
abbrev LEAF_FLAGS : Nat := 0x8000000000000fff

/-- The memory of the tables, by physical page and index, the counts, and what the page allocator has: `pages` are the
free frames below `HEAP_START - KERNEL_VMA` in the order of the search, `frames` what `pmm_alloc_page` gives next. -/
structure State where
  pml4 : Nat
  pdptHigh : Nat
  pdptLow : Nat
  mem : Nat → Fin 512 → Nat
  pages : List Nat
  frames : List Nat
  lowIdentityActive : Bool
  heapPtCount : Nat
  vmmPtCount : Nat

variable (s : State)

/-- `(v >> shift) & 0x1FF` -/
def ix (v shift : Nat) : Fin 512 := Fin.ofNat 512 (v >>> shift)

def State.write (page : Nat) (index : Fin 512) (value : Nat) : State :=
  { s with mem := fun p i => if p = page ∧ i = index then value else s.mem p i }

def State.fill (page : Nat) (values : Fin 512 → Nat) : State :=
  { s with mem := fun p i => if p = page then values i else s.mem p i }

/-- `pt_get_kernel_pd` -/
def ptGetKernelPd (virtAddr : Nat) : Option Nat :=
  let pdpte := s.mem s.pdptHigh (ix virtAddr 30)
  if pdpte &&& 1 = 0 then none else some (pdpte &&& PAGE_MASK)

/-- `pt_direct_map_ok` -/
def ptDirectMapOk (physAddr : Nat) : Bool :=
  let physAddr := physAddr &&& PAGE_MASK
  if HEAP_START - KERNEL_VMA ≤ physAddr then false
  else
    let virt := physAddr + KERNEL_VMA
    match ptGetKernelPd s virt with
    | none => false
    | some pd =>
      let pde := s.mem pd (ix virt 21)
      if pde &&& 3 ≠ 3 then false
      else if pde &&& 0x80 ≠ 0 then (pde &&& HUGE_MASK) + (virt &&& 0x1ff000) = physAddr
      else
        let pte := s.mem (pde &&& PHYS_MASK) (ix virt 12)
        pte &&& 3 = 3 ∧ pte &&& PHYS_MASK = physAddr

/-- `pt_alloc_pt_page`, once the page allocator is up: `pmm_alloc_mapped_page`, which gives back the frames it
passes over. -/
def ptAllocPtPage : State × Option Nat :=
  match s.pages.find? (ptDirectMapOk s) with
  | none => (s, none)
  | some page => ({ s with pages := s.pages.erase page }, some page)

/-- `pmm_alloc_page` -/
def pmmAllocPage : State × Option Nat :=
  match s.frames with
  | [] => (s, none)
  | page :: frames => ({ s with frames := frames }, some page)

/-- `pt_huge_mapping_matches` -/
def ptHugeMappingMatches (pde virtAddr physAddr flags : Nat) : Bool :=
  if pde &&& 1 = 0 ∨ pde &&& 0x80 = 0 then false
  else if flags &&& LEAF_FLAGS ≠ 3 then false
  else if pde &&& 0x800000000000111e ≠ 2 then false
  else
    let mappedPhys := (pde &&& HUGE_MASK) + (virtAddr &&& 0x1fffff)
    mappedPhys &&& PAGE_MASK = physAddr &&& PAGE_MASK

/-- `pt_ensure_kernel_pd` -/
def ptEnsureKernelPd (virtAddr : Nat) : State × Option Nat :=
  let index := ix virtAddr 30
  let pdpte := s.mem s.pdptHigh index
  if pdpte &&& 1 ≠ 0 then (s, some (pdpte &&& PAGE_MASK))
  else
    match ptAllocPtPage s with
    | (s, none) => (s, none)
    | (s, some pd) => ((s.fill pd fun _ => 0).write s.pdptHigh index (pd &&& PAGE_MASK ||| 3), some pd)

/-- `leaf_flags` of `pt_split_huge_page` -/
def leafFlags (pde : Nat) : Nat :=
  let flags := pde &&& LEAF_FLAGS &&& 0xffffffffffffef7f
  if pde &&& 0x1000 ≠ 0 then flags ||| 0x80 else flags

/-- `pt_split_huge_page`; `ensure` is `pt_ensure_phys_mapped_locked`. -/
def ptSplitHugePage (ensure : State → Nat → State × Int) (pd : Nat) (index : Fin 512) : State × Int :=
  let pde := s.mem pd index
  if pde &&& 1 = 0 then (s, 0)
  else if pde &&& 0x80 = 0 then (s, 0)
  else
    match ptAllocPtPage s with
    | (s, none) => (s, -1)
    | (s, some pt) =>
      let s := s.fill pt fun i => (pde &&& HUGE_MASK) + i.val * PAGE_SIZE ||| leafFlags pde
      let s := s.write pd index (pt &&& PAGE_MASK ||| (VMM_PTE_PRESENT ||| VMM_PTE_WRITE ||| pde &&& VMM_PTE_USER))
      match ensure s pt with
      | (s, r) => if r < 0 then (s, -1) else ({ s with vmmPtCount := s.vmmPtCount + 1 }, 0)

/-- The new table of `pt_ensure_phys_mapped_locked` in the page `pt`, with its own entry when it maps itself. -/
def ensureTable (pd physAddr pt : Nat) : State :=
  let virt := physAddr + KERNEL_VMA
  let ptVirt := (pt + KERNEL_VMA) % 2 ^ 64
  let s := (s.fill pt fun _ => 0).write pt (ix virt 12) (physAddr ||| 3)
  let s := if ix ptVirt 21 = ix virt 21 then s.write pt (ix ptVirt 12) (pt ||| 3) else s
  s.write pd (ix virt 21) (pt &&& PAGE_MASK ||| 3)

/-- What follows when it does not. -/
def ensureSelf (ensure : State → Nat → State × Int) (physAddr pt : Nat) : State :=
  let ptVirt := (pt + KERNEL_VMA) % 2 ^ 64
  if ix ptVirt 21 = ix (physAddr + KERNEL_VMA) 21 then s
  else
    match ptGetKernelPd s ptVirt with
    | none => s
    | some ptPd => if s.mem ptPd (ix ptVirt 21) &&& 1 = 0 then (ensure s pt).1 else s

/-- The end of `pt_ensure_phys_mapped_locked`, where `pd` has no large page at the index. -/
def ensureEntry (ensure : State → Nat → State × Int) (pd physAddr : Nat) : State × Int :=
  let virt := physAddr + KERNEL_VMA
  let pteIdx := ix virt 12
  let pde := s.mem pd (ix virt 21)
  if pde &&& 1 = 0 then
    if PT_DIRECT_WINDOW_START ≤ physAddr then (s, -1)
    else
      match ptAllocPtPage s with
      | (s, none) => (s, -1)
      | (s, some pt) =>
        let s := ensureSelf (ensureTable s pd physAddr pt) ensure physAddr pt
        ({ s with vmmPtCount := s.vmmPtCount + 1 }, 0)
  else
    let pt := pde &&& PAGE_MASK
    let pte := s.mem pt pteIdx
    if pte &&& 1 ≠ 0 then (s, if pte &&& PHYS_MASK = physAddr ∧ pte &&& 2 ≠ 0 then 0 else -1)
    else if PT_DIRECT_WINDOW_START ≤ physAddr then (s, -1)
    else (s.write pt pteIdx (physAddr ||| 3), 0)

/-- `pt_ensure_phys_mapped_locked`. A call inside it has a page less to allocate; the first argument bounds the calls. -/
def ptEnsurePhysMappedLocked : Nat → State → Nat → State × Int
  | 0, s, _ => (s, -1)
  | fuel + 1, s, physAddr =>
    let physAddr := physAddr &&& PAGE_MASK
    if HEAP_START - KERNEL_VMA ≤ physAddr then (s, -1)
    else
      let virt := physAddr + KERNEL_VMA
      let pdeIdx := ix virt 21
      match ptEnsureKernelPd s virt with
      | (s, none) => (s, -1)
      | (s, some pd) =>
        let pde := s.mem pd pdeIdx
        if pde &&& 0x80 ≠ 0 then
          if ptHugeMappingMatches pde virt physAddr 3 then (s, 0)
          else if (pde &&& HUGE_MASK) + (virt &&& 0x1ff000) ≠ physAddr then (s, -1)
          else
            match ptSplitHugePage s (ptEnsurePhysMappedLocked fuel) pd pdeIdx with
            | (s, r) => if r < 0 then (s, -1) else ensureEntry s (ptEnsurePhysMappedLocked fuel) pd physAddr
        else ensureEntry s (ptEnsurePhysMappedLocked fuel) pd physAddr

/-- The call of it with a bound that is enough. -/
def ensureMapped (s : State) (physAddr : Nat) : State × Int := ptEnsurePhysMappedLocked (s.pages.length + 1) s physAddr

/-- `pt_ensure_phys_mapped` -/
def ptEnsurePhysMapped (physAddr : Nat) : State × Int := ensureMapped s physAddr

/-- What `pt_kernel_walk_leaf` finds. -/
structure Leaf where
  entry : Nat
  effective : Nat
  huge : Bool
  deriving DecidableEq

/-- The effect of an entry on `effective`. -/
def combine (effective entry : Nat) : Nat :=
  let effective := if entry &&& VMM_PTE_WRITE = 0 then effective &&& 0xfffffffffffffffd else effective
  let effective := if entry &&& VMM_PTE_USER = 0 then effective &&& 0xfffffffffffffffb else effective
  if entry &&& VMM_PTE_NX ≠ 0 then effective ||| VMM_PTE_NX else effective

/-- The loop of `pt_kernel_walk_leaf`, over the shifts that are left. -/
def walkLoop (virtAddr : Nat) : List Nat → Nat → Nat → Option Leaf
  | [], _, _ => none
  | shift :: shifts, table, effective =>
    let entry := s.mem table (ix virtAddr shift)
    if entry &&& VMM_PTE_PRESENT = 0 then
      if shift ≠ 12 then none else some ⟨entry, effective, false⟩
    else
      let effective := combine effective entry
      if shift = 21 ∧ entry &&& 0x80 ≠ 0 then some ⟨entry, effective, true⟩
      else if shift = 12 then some ⟨entry, effective, false⟩
      else walkLoop virtAddr shifts (entry &&& PHYS_MASK) effective

/-- `pt_kernel_walk_leaf` -/
def ptKernelWalkLeaf (pml4Phys virtAddr : Nat) : Option Leaf :=
  if pml4Phys &&& PAGE_MASK ≠ s.pml4 ∨ virtAddr < KERNEL_VMA then none
  else walkLoop s virtAddr [39, 30, 21, 12] s.pml4 (VMM_PTE_PRESENT ||| VMM_PTE_WRITE ||| VMM_PTE_USER)

/-- `pt_get_pd_for_pdpt` -/
def ptGetPdForPdpt (virtAddr : Nat) : State × Option Nat :=
  let pml4Idx := ix virtAddr 39
  if pml4Idx = 511 then ptEnsureKernelPd s virtAddr
  else if pml4Idx = 0 then
    if !s.lowIdentityActive then (s, none)
    else
      let pdpte := s.mem s.pdptLow (ix virtAddr 30)
      (s, if pdpte &&& 1 ≠ 0 then some (pdpte &&& PAGE_MASK) else none)
  else (s, none)

/-- The part of `vmm_map_page_pae` and of the other mappings that gives an absent entry of `pd` a table. -/
def newTable (pd virtAddr tableFlags : Nat) : State × Option Nat :=
  match ptAllocPtPage s with
  | (s, none) => (s, none)
  | (s, some pt) =>
    let ptVirt := (pt + KERNEL_VMA) % 2 ^ 64
    let s := (s.fill pt fun _ => 0).write pd (ix virtAddr 21) (pt &&& PAGE_MASK ||| tableFlags)
    if ptVirt >>> 21 = virtAddr >>> 21 then (s.write pt (ix ptVirt 12) (pt ||| 3), some pt)
    else
      match ensureMapped s pt with
      | (s, r) => if r < 0 then (s, none) else (s, some pt)

/-- The table for an address that `pd` has no huge page for, and the user bit on the way to it. -/
def tableFor (pd virtAddr flags : Nat) : State × Option Nat :=
  let index := ix virtAddr 21
  let pde := s.mem pd index
  if pde &&& 1 = 0 then
    match newTable s pd virtAddr (VMM_PTE_PRESENT ||| VMM_PTE_WRITE ||| flags &&& VMM_PTE_USER) with
    | (s, none) => (s, none)
    | (s, some pt) => ({ s with vmmPtCount := s.vmmPtCount + 1 }, some pt)
  else
    (if flags &&& 4 ≠ 0 ∧ pde &&& 4 = 0 then s.write pd index (pde ||| 4) else s, some (pde &&& PAGE_MASK))

/-- The same for `heap_map_page_pae`, with the entry as it was read. -/
def heapTable (pd virtAddr pde : Nat) : State × Option Nat :=
  if pde &&& 1 = 0 then
    match newTable s pd virtAddr 3 with
    | (s, none) => (s, none)
    | (s, some pt) => ({ s with heapPtCount := s.heapPtCount + 1 }, some pt)
  else (s, some (pde &&& PAGE_MASK))

def kernelFlags (virtAddr flags : Nat) : Nat := if KERNEL_VMA ≤ virtAddr then flags &&& 0xfffffffffffffffb else flags

/-- The split that every mapping begins with, where there is a large page. -/
def splitLarge (pd : Nat) (index : Fin 512) : State × Int :=
  if s.mem pd index &&& 0x80 ≠ 0 then ptSplitHugePage s ensureMapped pd index else (s, 0)

/-- `vmm_map_page_pae`, and whether it came to its end -/
def vmmMapPagePae (virtAddr physAddr flags : Nat) : State × Bool :=
  let index := ix virtAddr 21
  let flags := kernelFlags virtAddr flags
  match ptGetPdForPdpt s virtAddr with
  | (s, none) => (s, false)
  | (s, some pd) =>
    let pde := s.mem pd index
    if pde &&& 0x80 ≠ 0 ∧ ptHugeMappingMatches pde virtAddr physAddr flags then (s, true)
    else
      match splitLarge s pd index with
      | (s, r) =>
        if r < 0 then (s, false)
        else
          match tableFor s pd virtAddr flags with
          | (s, none) => (s, false)
          | (s, some pt) => (s.write pt (ix virtAddr 12) (physAddr &&& PHYS_MASK ||| flags &&& LEAF_FLAGS), true)

/-- `vmm_map_huge_page_pae` -/
def vmmMapHugePagePae (virtAddr physAddr flags : Nat) : State × Int :=
  if virtAddr < KERNEL_VMA then (s, -1)
  else if (virtAddr ||| physAddr) &&& (VMM_HUGE_PAGE_SIZE - 1) ≠ 0 then (s, -1)
  else if PHYSICAL_ADDRESS_LIMIT ≤ physAddr then (s, -1)
  else
    let flags := flags &&& 0xfffffffffffffffb
    let index := ix virtAddr 21
    match ptGetPdForPdpt s virtAddr with
    | (s, none) => (s, -1)
    | (s, some pd) =>
      let pde := s.mem pd index
      if pde &&& VMM_PTE_PRESENT ≠ 0 ∧ pde &&& 0x80 = 0 then (s, -1)
      else
        let hugeFlags := flags &&& LEAF_FLAGS &&& 0xffffffffffffef7f
        let hugeFlags := if flags &&& 0x80 ≠ 0 then hugeFlags ||| 0x1000 else hugeFlags
        (s.write pd index (physAddr &&& HUGE_MASK ||| hugeFlags ||| 0x80), 0)

/-- How `vmm_map_page_early_pae`, `vmm_map_range_alloc_pae` and `vmm_unmap_page_pae` begin: the page directory, without
a large page for the address. -/
def openPage (virtAddr : Nat) : State × Option Nat :=
  match ptGetPdForPdpt s virtAddr with
  | (s, none) => (s, none)
  | (s, some pd) =>
    match splitLarge s pd (ix virtAddr 21) with
    | (s, r) => if r < 0 then (s, none) else (s, some pd)

/-- `vmm_map_page_early_pae`, and whether it came to its end -/
def vmmMapPageEarlyPae (virtAddr physAddr flags : Nat) : State × Bool :=
  let flags := kernelFlags virtAddr flags
  match openPage s virtAddr with
  | (s, none) => (s, false)
  | (s, some pd) =>
    let pde := s.mem pd (ix virtAddr 21)
    if pde &&& 1 = 0 then (s, false)
    else (s.write (pde &&& PAGE_MASK) (ix virtAddr 12) (physAddr &&& PAGE_MASK ||| flags &&& 0xfff), true)

/-- A round of the loop of `vmm_map_range_alloc_pae`, and whether the loop goes on -/
def mapAllocPage (v flags : Nat) : State × Bool :=
  let slot := ix v 12
  match openPage s v with
  | (s, none) => (s, false)
  | (s, some pd) =>
    match tableFor s pd v flags with
    | (s, none) => (s, false)
    | (s, some pt) =>
      let pte := s.mem pt slot
      if pte &&& 1 = 0 then
        match pmmAllocPage s with
        | (s, none) => (s, false)
        | (s, some page) => (s.write pt slot (page &&& PAGE_MASK ||| flags &&& 0xfff), true)
      else (s.write pt slot (pte &&& PAGE_MASK ||| flags &&& 0xfff), true)

def mapAllocLoop (flags : Nat) : List Nat → State → State × Bool
  | [], s => (s, true)
  | v :: vs, s =>
    match mapAllocPage s v flags with
    | (s, false) => (s, false)
    | (s, true) => mapAllocLoop flags vs s

/-- The values of the loop variable of `vmm_map_range_alloc_pae`. -/
def rangePages (virtAddr size : Nat) : List Nat :=
  let start := virtAddr &&& PAGE_MASK
  let last := (virtAddr + size + PAGE_SIZE - 1) % 2 ^ 64 &&& PAGE_MASK
  (List.range ((last - start) / PAGE_SIZE)).map fun n => start + n * PAGE_SIZE

/-- `vmm_map_range_alloc_pae`, and whether it came to its end -/
def vmmMapRangeAllocPae (virtAddr size flags : Nat) : State × Bool :=
  if size = 0 then (s, true)
  else mapAllocLoop (kernelFlags (virtAddr &&& PAGE_MASK) flags) (rangePages virtAddr size) s

/-- The end of `heap_map_page_pae`: a frame for the page, which is not mapped until it has one. -/
def heapFrame (pt : Nat) (slot : Fin 512) : State × Int :=
  let s := if s.mem pt slot &&& 1 ≠ 0 then s.write pt slot 0 else s
  match pmmAllocPage s with
  | (s, none) => (s, -1)
  | (s, some page) => (s.write pt slot (page &&& PAGE_MASK ||| 3), 0)

/-- `heap_map_page_pae` -/
def heapMapPagePae (virtAddr : Nat) : State × Int :=
  let index := ix virtAddr 21
  let slot := ix virtAddr 12
  match ptEnsureKernelPd s virtAddr with
  | (s, none) => (s, -1)
  | (s, some pd) =>
    let pde := s.mem pd index
    match splitLarge s pd index with
    | (s, r) =>
      if r < 0 then (s, -1)
      else
        let split := s.mem pd index
        let s := if pde &&& 0x80 ≠ 0 ∧ split &&& 1 ≠ 0 then s.write (split &&& PAGE_MASK) slot 0 else s
        match heapTable s pd virtAddr split with
        | (s, none) => (s, -1)
        | (s, some pt) => heapFrame s pt slot

/-- `vmm_unmap_page_pae`, and whether it came to its end -/
def vmmUnmapPagePae (virtAddr : Nat) : State × Bool :=
  match openPage s virtAddr with
  | (s, none) => (s, false)
  | (s, some pd) =>
    let pde := s.mem pd (ix virtAddr 21)
    if pde &&& 1 = 0 then (s, true) else (s.write (pde &&& PAGE_MASK) (ix virtAddr 12) 0, true)

end Lebirun.Paging
