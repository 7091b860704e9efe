import Mathlib
import Lebirun.Lib.Linked

namespace Lebirun.Heap
set_option autoImplicit true

abbrev pageSize : Nat := 4096
abbrev heapStart : Nat := 0xFFFFFFFFC0000000
abbrev heapInitialSize : Nat := 0x10000
abbrev heapVirtualEnd : Nat := 0xFFFFFFFFD4000000
abbrev heapMagic : Nat := 0xDEADBEEF
abbrev heapMinBlock : Nat := 16
abbrev headSize : Nat := 40
abbrev canaryOverhead : Nat := 12
abbrev sizeMax : Nat := 0xFFFFFFFFFFFFFFFF

/-- The header in front of every block of the heap. -/
structure HeapBlock where
  size : Nat
  allocSize : Nat
  next : Option Nat
  prev : Option Nat
  magic : Nat
  flags : Nat
  isFree : Bool
  deriving DecidableEq, Repr

structure Heap where
  startAddr : Nat
  endAddr : Nat
  maxAddr : Nat
  freeList : Option Nat
  totalSize : Nat
  usedSize : Nat
  block : Nat → HeapBlock

def heapInit (block : Nat → HeapBlock) : Heap where
  startAddr := heapStart
  endAddr := heapStart
  maxAddr := heapVirtualEnd
  freeList := none
  totalSize := 0
  usedSize := 0
  block := block

def alignDown (x : Nat) : Nat := x / pageSize * pageSize

def alignUp (x : Nat) : Nat := (x + (pageSize - 1)) / pageSize * pageSize

def roundup8 (x : Nat) : Nat := (x + 7) / 8 * 8

def Heap.next (h : Heap) (a : Nat) : Option Nat := (h.block a).next

def Heap.prev (h : Heap) (a : Nat) : Option Nat := (h.block a).prev

/-- Where the block at `a` ends. -/
def Heap.blockEnd (h : Heap) (a : Nat) : Nat := a + headSize + (h.block a).size

def Heap.modify (h : Heap) (a : Nat) (f : HeapBlock → HeapBlock) : Heap :=
  { h with block := Function.update h.block a (f (h.block a)) }

/-- `if (node) node->prev = v`. -/
def Heap.setPrev (h : Heap) (node : Option Nat) (v : Option Nat) : Heap :=
  match node with
  | none => h
  | some a => h.modify a fun b => { b with prev := v }

def freshBlock (size : Nat) (next prev : Option Nat) : HeapBlock where
  size := size
  allocSize := 0
  next := next
  prev := prev
  magic := heapMagic
  flags := 0
  isFree := true

/-- More than the blocks the whole range can hold. -/
abbrev heapFuel : Nat := heapVirtualEnd - heapStart

/-- Where `find_best_fit` would put an allocation of `size` bytes in the block at `start`. -/
def placementIn (start size : Nat) : Nat :=
  let end₀ := start + headSize + size
  let placement :=
    if size + headSize * 2 ≤ pageSize ∧
        alignDown start ≠ alignDown (end₀ + headSize - 1) then
      alignUp (start + headSize)
    else if size + headSize * 2 > pageSize ∧ start % pageSize ≠ 0 then
      alignUp (start + headSize)
    else start
  let prefixSize := placement - start
  if prefixSize ≠ 0 ∧ prefixSize < headSize + heapMinBlock then placement + pageSize
  else placement

/-- The best block so far with its placement and the three keys it is ranked by. -/
structure Best where
  block : Nat
  placement : Nat
  uncommitted : Nat
  pages : Nat
  waste : Nat

/-- The candidate the block at `a` makes, if the allocation fits. -/
def Heap.candidate (h : Heap) (uncommitted : Nat → Nat → Nat) (size a : Nat) : Option Best :=
  if (h.block a).isFree ∧ (h.block a).size ≥ size then
    let extentEnd := h.blockEnd a
    let placement := placementIn a size
    let end₀ := placement + headSize + size
    if end₀ > extentEnd then none
    else
      let end₁ := if extentEnd - end₀ ≥ headSize + heapMinBlock then end₀ + headSize else end₀
      some ⟨a, placement, uncommitted placement end₁,
        (alignUp end₁ - alignDown placement) / pageSize, extentEnd - end₁⟩
  else none

def Best.better (c : Best) (best : Option Best) : Bool :=
  match best with
  | none => true
  | some b =>
    c.uncommitted < b.uncommitted ∨
      (c.uncommitted = b.uncommitted ∧ c.pages < b.pages) ∨
      (c.uncommitted = b.uncommitted ∧ c.pages = b.pages ∧ c.waste < b.waste)

def findBestFitFrom (h : Heap) (uncommitted : Nat → Nat → Nat) (size : Nat) :
    Nat → Option Nat → Option Best → Option Best
  | 0, _, best => best
  | _ + 1, none, best => best
  | fuel + 1, some a, best =>
    if (h.block a).magic ≠ heapMagic then none
    else
      match h.candidate uncommitted size a with
      | none => findBestFitFrom h uncommitted size fuel (h.next a) best
      | some c =>
        if c.better best then
          if c.waste = 0 ∧ c.uncommitted = 0 then some c
          else findBestFitFrom h uncommitted size fuel (h.next a) (some c)
        else findBestFitFrom h uncommitted size fuel (h.next a) best

/-- The block and the placement; `uncommitted` is what `demand_count_uncommitted` answers
during the call. -/
def findBestFit (h : Heap) (uncommitted : Nat → Nat → Nat) (size : Nat) : Option (Nat × Nat) :=
  (findBestFitFrom h uncommitted size heapFuel h.freeList none).map fun b =>
    (b.block, b.placement)

/-- Cuts the block at `a` down to `size` bytes; what follows becomes a free block. -/
def splitAt (h : Heap) (a size : Nat) : Heap :=
  let b := h.block a
  let n := a + headSize + size
  let new := freshBlock (b.size - size - headSize) b.next (some a)
  let h := { h with block := Function.update h.block n new }
  let h := h.setPrev b.next (some n)
  h.modify a fun b => { b with next := some n, size := size }

def splitBlockPrefix (h : Heap) (a placement : Nat) : Nat × Heap :=
  if placement = a then (a, h)
  else (placement, splitAt h a (placement - a - headSize))

def splitBlock (h : Heap) (a size : Nat) : Heap :=
  if (h.block a).size < size + headSize + heapMinBlock then h
  else splitAt h a size

/-- The block at `a` swallows its successor `n`, whose magic is spoilt. -/
def absorb (h : Heap) (a n magic : Nat) : Heap :=
  let c := h.block n
  let h := h.modify a fun b => { b with size := b.size + (headSize + c.size), next := c.next }
  let h := h.setPrev c.next (some a)
  h.modify n fun b => { b with magic := magic }

def coalesceNext (h : Heap) (a : Nat) : Heap :=
  match h.next a with
  | some n => if (h.block n).isFree ∧ h.blockEnd a = n then absorb h a n 0xDEAD0001 else h
  | none => h

def coalescePrev (h : Heap) (a : Nat) : Heap :=
  match h.prev a with
  | some p => if (h.block p).isFree ∧ h.blockEnd p = a then absorb h p a 0xDEAD0002 else h
  | none => h

def coalesceFreeBlocks (h : Heap) (a : Nat) : Heap := coalescePrev (coalesceNext h a) a

/-- The free block that ends at `limit`, as both `heap_trim_candidate` and `kmalloc_internal`
look for it. -/
def freeBlockEndingAt (h : Heap) (limit : Nat) : Option Nat :=
  Linked.search h.next (fun a => (h.block a).isFree && h.blockEnd a == limit) heapFuel h.freeList

/-- The block, the new end of the heap, and whether the block goes altogether. -/
def heapTrimCandidate (h : Heap) : Option (Nat × Nat × Bool) :=
  match freeBlockEndingAt h h.endAddr with
  | none => none
  | some last =>
    if last % pageSize = 0 then some (last, last, true)
    else
      let trimStart := alignUp (last + headSize)
      if trimStart ≥ h.endAddr then none
      else if trimStart ≤ last + headSize then none
      else some (last, trimStart, false)

/-- `heap_expand`, with the outcomes of the reservation and of the first page's commit. -/
def heapExpand (h : Heap) (newEnd : Nat) (reserve commit : Bool) : Bool × Heap :=
  let newEnd := alignUp (if newEnd > h.maxAddr then h.maxAddr else newEnd)
  if newEnd ≤ h.endAddr then (true, h)
  else if !reserve then (false, h)
  else if !commit then (false, h)
  else (true, { h with endAddr := newEnd, totalSize := newEnd - h.startAddr })

/-- What demand paging answers during one call of `kmalloc_internal`. -/
structure MallocEnv where
  uncommitted₀ : Nat → Nat → Nat
  uncommitted₁ : Nat → Nat → Nat
  uncommitted₂ : Nat → Nat → Nat
  reserve₀ : Bool
  commit₀ : Bool
  reserve₁ : Bool
  commit₁ : Bool
  span : Bool

/-- The first expansion of an empty heap; `none` is its failure. -/
def heapFirst (h : Heap) (env : MallocEnv) : Option Heap :=
  if h.freeList = none ∧ h.endAddr = heapStart then
    match heapExpand h (heapStart + heapInitialSize) env.reserve₀ env.commit₀ with
    | (false, _) => none
    | (true, h) =>
      some { h with
        block := Function.update h.block heapStart
          (freshBlock (h.totalSize - headSize) none none)
        freeList := some heapStart }
  else some h

/-- The last block below `limit`, as the insertion loop of `kmalloc_internal` finds it. -/
def lastBelow (h : Heap) (limit : Nat) : Nat → Option Nat → Option Nat → Option Nat
  | 0, prev, _ => prev
  | _ + 1, prev, none => prev
  | fuel + 1, prev, some a =>
    if a < limit then lastBelow h limit fuel (some a) (h.next a) else prev

/-- Puts a free block of the given size at `a`, in address order. -/
def insertBlock (h : Heap) (a size : Nat) : Heap :=
  match lastBelow h a heapFuel none h.freeList with
  | none =>
    let h₁ := { h with block := Function.update h.block a (freshBlock size h.freeList none) }
    { h₁.setPrev h.freeList (some a) with freeList := some a }
  | some p =>
    let h₁ := { h with block := Function.update h.block a (freshBlock size (h.next p) (some p)) }
    (h₁.setPrev (h.next p) (some a)).modify p fun b => { b with next := some a }

/-- The pages behind `oldEnd` go to the free block that ended there, or make a new one;
`false` is a `return NULL`. -/
def heapAttach (h : Heap) (oldEnd : Nat) : Bool × Heap :=
  match freeBlockEndingAt h oldEnd with
  | some a => (true, h.modify a fun b => { b with size := b.size + (h.endAddr - oldEnd) })
  | none =>
    if h.endAddr ≤ oldEnd + headSize then (false, h)
    else
      (true, coalesceFreeBlocks (insertBlock h oldEnd (h.endAddr - oldEnd - headSize)) oldEnd)

/-- The expansion for a request that found no block; `false` is a `return NULL`. -/
def heapGrow (h : Heap) (total : Nat) (env : MallocEnv) : Bool × Heap :=
  let oldEnd := h.endAddr
  if oldEnd ≥ h.maxAddr ∨ total > h.maxAddr - oldEnd ∨
      headSize > h.maxAddr - oldEnd - total then (false, h)
  else
    let newEnd := oldEnd + (total + headSize)
    if newEnd > h.maxAddr then (false, h)
    else
      match heapExpand h newEnd env.reserve₁ env.commit₁ with
      | (false, h) => (false, h)
      | (true, h) => if h.endAddr > h.maxAddr then (false, h) else heapAttach h oldEnd

/-- The tail of `kmalloc_internal` from `alloc_found` on. -/
def kmallocPlace (h : Heap) (a placement total size : Nat) (span : Bool) : Option Nat × Heap :=
  if !span then (none, h)
  else
    let (a, h) := splitBlockPrefix h a placement
    let h := splitBlock h a total
    let h := h.modify a fun b => { b with isFree := false, allocSize := size, flags := 0 }
    (some (a + headSize + 8), { h with usedSize := h.usedSize + ((h.block a).size + headSize) })

def kmallocInternal (h : Heap) (size : Nat) (env : MallocEnv) : Option Nat × Heap :=
  let total := roundup8 (size + canaryOverhead)
  match findBestFit h env.uncommitted₀ total with
  | some (a, placement) => kmallocPlace h a placement total size env.span
  | none =>
    match heapFirst h env with
    | none => (none, h)
    | some h₁ =>
      let found :=
        if h.freeList = none ∧ h.endAddr = heapStart then findBestFit h₁ env.uncommitted₁ total
        else none
      match found with
      | some (a, placement) => kmallocPlace h₁ a placement total size env.span
      | none =>
        match heapGrow h₁ total env with
        | (false, h₂) => (none, h₂)
        | (true, h₂) =>
          match findBestFit h₂ env.uncommitted₂ total with
          | none => (none, h₂)
          | some (a, placement) => kmallocPlace h₂ a placement total size env.span

/-- The end of all three ways to free a block. -/
def releaseBlock (h : Heap) (a : Nat) : Heap :=
  let h := h.modify a fun b => { b with isFree := true }
  coalesceFreeBlocks { h with usedSize := h.usedSize - ((h.block a).size + headSize) } a

def blockOfPtr (ptr : Nat) : Nat := ptr - headSize - 8

/-- `canaries` is the answer of `heap_check_canaries`. -/
def kfreeInternal (h : Heap) (ptr : Nat) (canaries : Bool) : Heap :=
  let a := blockOfPtr ptr
  if a < h.startAddr ∨ a ≥ h.endAddr then h
  else if (h.block a).magic ≠ heapMagic then h
  else if (h.block a).isFree then h
  else if !canaries then h
  else releaseBlock h a

/-- The heap branch of `kfree_secure`, which does not look at the bounds. -/
def kfreeSecure (h : Heap) (ptr : Nat) (canaries : Bool) : Heap :=
  let a := blockOfPtr ptr
  if (h.block a).magic ≠ heapMagic then h
  else if (h.block a).isFree then h
  else if !canaries then h
  else releaseBlock h a

/-- What a call of `krealloc` meets: the canaries, the commit of a grown block, and, if the
block has to move, what the slab allocator and demand paging answer. -/
structure ReallocEnv where
  canaries : Bool
  span : Bool
  slab : Option Nat
  malloc : MallocEnv
  canaries' : Bool

/-- The in-place half of the heap branch of `krealloc`, under the lock. `none` is the way out
to a new allocation. -/
def kreallocInPlace (h : Heap) (ptr newSize : Nat) (span : Bool) : Option Heap :=
  let a := blockOfPtr ptr
  let b := h.block a
  let newBlockSize := roundup8 (newSize + canaryOverhead)
  if b.allocSize ≥ newSize then
    let h₁ :=
      if b.size ≥ newBlockSize + headSize + heapMinBlock then
        let h := splitBlock h a newBlockSize
        let h := { h with usedSize := h.usedSize - (b.size - (h.block a).size) }
        match h.next a with
        | some r => if (h.block r).isFree then coalesceFreeBlocks h r else h
        | none => h
      else h
    some (h₁.modify a fun b => { b with allocSize := newSize })
  else if newBlockSize ≤ b.size then
    some (h.modify a fun b => { b with allocSize := newSize })
  else
    match b.next with
    | none => none
    | some n =>
      let c := h.block n
      let combined := b.size + headSize + c.size
      if c.isFree ∧ h.blockEnd a = n ∧ c.size ≤ sizeMax - headSize ∧
          b.size ≤ sizeMax - headSize - c.size ∧ combined ≥ newBlockSize ∧ span then
        let h := splitBlock (absorb h a n 0xDEAD0003) a newBlockSize
        let h := { h with usedSize := h.usedSize + ((h.block a).size - b.size) }
        some (h.modify a fun b => { b with allocSize := newSize })
      else none

/-- The heap branch of `krealloc` for a size that passed its checks. A block that has to move
is allocated anew, by the slab if that can take it, and the old one is freed. -/
def krealloc (h : Heap) (ptr newSize : Nat) (env : ReallocEnv) : Option Nat × Heap :=
  let a := blockOfPtr ptr
  if (h.block a).magic ≠ heapMagic then (none, h)
  else if !env.canaries then (none, h)
  else
    match kreallocInPlace h ptr newSize env.span with
    | some h => (some ptr, h)
    | none =>
      match env.slab with
      | some p => (some p, kfreeInternal h ptr env.canaries')
      | none =>
        match kmallocInternal h newSize env.malloc with
        | (none, h) => (none, h)
        | (some p, h) => (some p, kfreeInternal h ptr env.canaries')

/-- `heap_reclaim_unused`: whether a batch could be set up, and whether its flush succeeded. -/
def heapReclaimUnused (h : Heap) (batch flushed : Bool) : Heap :=
  if !batch then h
  else if !flushed then h
  else
    match heapTrimCandidate h with
    | none => h
    | some (last, trimStart, remove) =>
      let h₁ :=
        if remove then
          match h.prev last with
          | some p => h.modify p fun b => { b with next := none }
          | none => { h with freeList := none }
        else h.modify last fun b => { b with size := trimStart - last - headSize }
      { h₁ with endAddr := trimStart, totalSize := trimStart - h.startAddr }

end Lebirun.Heap
