import Mathlib
import Lebirun.Lib.Linked
import Lebirun.Slab.Layout

namespace Lebirun.Slab
set_option autoImplicit true

abbrev slabPrimaryStart : Nat := 0xFFFFFFFFD8002000
abbrev slabPrimarySize : Nat := 0x000FE000
abbrev slabOverflowStart : Nat := 0xFFFFFFFFD4000000
abbrev slabOverflowSize : Nat := 0xFFFFFFFFD8000000 - slabOverflowStart
abbrev uint64Max : Nat := 0xFFFFFFFFFFFFFFFF

/-- What a mapped page of the slab regions holds: data of a caller, or a header that starts
with the slab magic. Callers pass `slab_free` and `slab_resize` only pointers they got from
`slab_alloc`, so data is never taken for a header. -/
inductive PageMem where
  | data
  | slab (h : SlabPage)

/-- What happened to the mappings, for the record only: no function reads it. -/
inductive Note where
  | mapped (a : Nat)
  | unmapped (a : Nat)
  | flushStart (n : Nat)
  | flushEnd (n : Nat) (result : Int)
  deriving DecidableEq, Repr

structure Slab where
  mem : Nat → Option PageMem
  smallPages : Option Nat
  smallTail : Option Nat
  smallSpare : Option Nat
  pagesAllocated : Nat
  virtualDirty : Bool
  flushActive : Bool
  freshOnly : Bool
  primaryBump : Nat
  primaryScan : Nat
  overflowBump : Nat
  overflowScan : Nat
  log : List Note

def slabInit : Slab where
  mem := fun _ => none
  smallPages := none
  smallTail := none
  smallSpare := none
  pagesAllocated := 0
  virtualDirty := false
  flushActive := false
  freshOnly := false
  primaryBump := slabPrimaryStart
  primaryScan := slabPrimaryStart
  overflowBump := slabOverflowStart
  overflowScan := slabOverflowStart
  log := []

def Slab.setFreshOnly (s : Slab) (b : Bool) : Slab := { s with freshOnly := b }

/-- The page addresses of a run of pages. -/
def inRun (virt pages a : Nat) : Prop := virt ≤ a ∧ a < virt + pages * pageSize ∧ pageSize ∣ a

instance : Decidable (inRun virt pages a) := inferInstanceAs (Decidable (_ ∧ _))

def runPages (virt pages : Nat) : List Nat := (List.range pages).map fun i => virt + i * pageSize

def setRun (mem : Nat → Option PageMem) (virt pages : Nat) (v : Option PageMem) :
    Nat → Option PageMem :=
  fun a => if inRun virt pages a then v else mem a

/-- The header at `a`, if the page is mapped and carries the magic. -/
def Slab.page (s : Slab) (a : Nat) : Option SlabPage :=
  match s.mem a with
  | some (.slab h) => some h
  | _ => none

def Slab.next (s : Slab) (a : Nat) : Option Nat := (s.page a).bind SlabPage.next

def Slab.prev (s : Slab) (a : Nat) : Option Nat := (s.page a).bind SlabPage.prev

/-- Writes through a page pointer. -/
def Slab.modify (s : Slab) (a : Nat) (f : SlabPage → SlabPage) : Slab :=
  { s with mem := Function.update s.mem a ((s.mem a).map fun
      | .slab h => .slab (f h)
      | .data => .data) }

def slabRegionContains (virt start size : Nat) : Prop := virt ≥ start ∧ virt < start + size

instance : Decidable (slabRegionContains virt start size) := inferInstanceAs (Decidable (_ ∧ _))

/-- The loop of `slab_find_virtual_run`; its inner loop looks for the first mapped page of
the candidate run. -/
def slabFindVirtualRunFrom (mem : Nat → Option PageMem) (start limit pages total : Nat) :
    Nat → Nat → Nat → Option Nat
  | 0, _, _ => none
  | fuel + 1, candidate, checked =>
    if checked < total then
      let candidate :=
        if candidate < start ∨ candidate + pages * pageSize > limit then start else candidate
      match (List.range pages).find? (fun i => (mem (candidate + i * pageSize)).isSome) with
      | some page =>
        slabFindVirtualRunFrom mem start limit pages total fuel
          (candidate + (page + 1) * pageSize) (checked + (page + 1))
      | none => some candidate
    else none

/-- The run found and the new scan position. -/
def slabFindVirtualRun (s : Slab) (start size scan pages : Nat) : Option (Nat × Nat) :=
  let total := size / pageSize
  if pages = 0 ∨ pages > total then none
  else if s.virtualDirty ∨ s.flushActive then none
  else
    let limit := start + size
    (slabFindVirtualRunFrom s.mem start limit pages total total scan 0).map fun candidate =>
      let scan' := candidate + pages * pageSize
      (candidate, if scan' ≥ limit then start else scan')

def slabVirtualBump (s : Slab) (pages : Nat) : Option Nat × Slab :=
  if pages = 0 ∨ pages > uint64Max / pageSize then (none, s)
  else
    let bytes := pages * pageSize
    if s.primaryBump ≤ slabPrimaryStart + slabPrimarySize ∧
        bytes ≤ slabPrimaryStart + slabPrimarySize - s.primaryBump then
      (some s.primaryBump, { s with primaryBump := s.primaryBump + bytes })
    else if s.overflowBump ≤ slabOverflowStart + slabOverflowSize ∧
        bytes ≤ slabOverflowStart + slabOverflowSize - s.overflowBump then
      (some s.overflowBump, { s with overflowBump := s.overflowBump + bytes })
    else (none, s)

def slabVirtualAlloc (s : Slab) (pages : Nat) : Option Nat × Slab :=
  if pages = 0 ∨ pages > uint64Max / pageSize then (none, s)
  else if s.virtualDirty ∨ s.flushActive then
    if s.freshOnly then slabVirtualBump s pages else (none, s)
  else
    let primary :=
      if pages ≤ slabPrimarySize / pageSize then
        slabFindVirtualRun s slabPrimaryStart (s.primaryBump - slabPrimaryStart) s.primaryScan pages
      else none
    match primary with
    | some (virt, scan) => (some virt, { s with primaryScan := scan })
    | none =>
      let overflow :=
        if pages ≤ (s.overflowBump - slabOverflowStart) / pageSize then
          slabFindVirtualRun s slabOverflowStart (s.overflowBump - slabOverflowStart)
            s.overflowScan pages
        else none
      match overflow with
      | some (virt, scan) => (some virt, { s with overflowScan := scan })
      | none => slabVirtualBump s pages

/-- `slab_map_pages`, where frames and page tables for `backed` pages can be had. -/
def slabMapPages (s : Slab) (virt pages backed : Nat) : Bool × Slab :=
  if pages ≤ backed then
    (true, { s with
      mem := setRun s.mem virt pages (some .data)
      log := (runPages virt pages).reverse.map Note.mapped ++ s.log })
  else
    (false, { s with
      mem := setRun s.mem virt backed none
      virtualDirty := true
      log := (runPages virt backed).map Note.unmapped ++
        ((runPages virt backed).reverse.map Note.mapped ++ s.log) })

def slabUnmapPages (s : Slab) (virt pages : Nat) : Slab :=
  { s with
    mem := setRun s.mem virt pages none
    virtualDirty := true
    log := (runPages virt pages).reverse.map Note.unmapped ++ s.log }

/-- `node->next = v`, or the head of the list if `node` is null. -/
def Slab.linkNext (s : Slab) (node v : Option Nat) : Slab :=
  match node with
  | some p => s.modify p fun h => { h with next := v }
  | none => { s with smallPages := v }

/-- `node->prev = v`, or the tail of the list if `node` is null. -/
def Slab.linkPrev (s : Slab) (node v : Option Nat) : Slab :=
  match node with
  | some p => s.modify p fun h => { h with prev := v }
  | none => { s with smallTail := v }

def slabSmallAdd (s : Slab) (page : Nat) : Slab :=
  let s := s.modify page fun h => { h with prev := s.smallTail, next := none }
  let s := s.linkNext s.smallTail (some page)
  { s with smallTail := some page }

def slabSmallRemove (s : Slab) (page : Nat) : Slab :=
  let s := s.linkNext (s.prev page) (s.next page)
  let s := s.linkPrev (s.next page) (s.prev page)
  s.modify page fun h => { h with next := none, prev := none }

/-- The outcome of the allocation paths: the result, `backing_failed` and the state. -/
abbrev Outcome := Option Nat × Bool × Slab

def slabSmallCreate (s : Slab) (backed : Nat) : Outcome :=
  match slabVirtualAlloc s 1 with
  | (none, s) => (none, false, s)
  | (some virt, s) =>
    match slabMapPages s virt 1 backed with
    | (false, s) => (none, true, s)
    | (true, s) =>
      let s := { s with mem := Function.update s.mem virt (some (.slab slabSmallFresh)) }
      let s := slabSmallAdd s virt
      (some virt, false, { s with pagesAllocated := s.pagesAllocated + 1 })

/-- More than the pages both regions have. -/
abbrev slabSearchFuel : Nat := slabPrimarySize / pageSize + slabOverflowSize / pageSize + 1

/-- The free block `slab_small_allocate` takes in a page, if any. -/
def Slab.findIn (s : Slab) (needed a : Nat) : Option Nat :=
  (s.page a).bind fun h => if h.maxFree ≥ needed then slabSmallFind h needed else none

def slabSmallTake (s : Slab) (page off size : Nat) : Slab :=
  let s := s.modify page fun h => slabSmallPlace h off size
  if s.smallSpare = some page then { s with smallSpare := none } else s

def slabSmallAllocate (s : Slab) (size backed : Nat) : Outcome :=
  let needed := roundup8 size + slabBlockHead
  match Linked.search s.next (fun a => (s.findIn needed a).isSome) slabSearchFuel s.smallPages with
  | some page =>
    match s.findIn needed page with
    | some off => (some (page + off + slabBlockHead), false, slabSmallTake s page off size)
    | none => (none, false, s)
  | none =>
    match slabSmallCreate s backed with
    | (none, failed, s) => (none, failed, s)
    | (some page, failed, s) =>
      match (s.page page).bind fun h => slabSmallFind h needed with
      | none => (none, failed, s)
      | some off => (some (page + off + slabBlockHead), failed, slabSmallTake s page off size)

def slabExtentTotal (size : Nat) : Nat := size + slabPageHead + 8 + 4

def slabExtentPages (size : Nat) : Nat :=
  slabExtentTotal size / pageSize + if slabExtentTotal size % pageSize ≠ 0 then 1 else 0

def slabExtentHead (size pages : Nat) : SlabPage where
  next := none
  prev := none
  payloadSize := size
  pages := pages
  liveCount := 1
  kind := .extent
  maxFree := 0
  block := fun _ => ⟨0, 0⟩

def slabExtentAllocate (s : Slab) (size backed : Nat) : Outcome :=
  let pages := slabExtentPages size
  match slabVirtualAlloc s pages with
  | (none, s) => (none, false, s)
  | (some virt, s) =>
    match slabMapPages s virt pages backed with
    | (false, s) => (none, true, s)
    | (true, s) =>
      (some (virt + slabPageHead + 8), false, { s with
        mem := Function.update s.mem virt (some (.slab (slabExtentHead size pages)))
        pagesAllocated := s.pagesAllocated + pages })

/-- The body of both locked sections of `slab_alloc`. -/
def slabAllocate (s : Slab) (size backed : Nat) : Outcome :=
  if size ≤ slabSmallMax then slabSmallAllocate s size backed
  else slabExtentAllocate s size backed

/-- The body of both locked sections of `slab_page_alloc`. -/
def slabPageAllocate (s : Slab) (pages backed : Nat) : Outcome :=
  match slabVirtualAlloc s pages with
  | (none, s) => (none, false, s)
  | (some virt, s) =>
    match slabMapPages s virt pages backed with
    | (true, s) => (some virt, false, { s with pagesAllocated := s.pagesAllocated + pages })
    | (false, s) => (none, true, s)

def slabInRegions (a : Nat) : Prop :=
  slabRegionContains a slabPrimaryStart slabPrimarySize ∨
    slabRegionContains a slabOverflowStart slabOverflowSize

instance : Decidable (slabInRegions a) := inferInstanceAs (Decidable (_ ∨ _))

def pageOf (ptr : Nat) : Nat := ptr / pageSize * pageSize

/-- `slab_free`; `canaries` is whether the two canaries of an extent are intact. -/
def slabFree (s : Slab) (ptr : Nat) (canaries : Bool) : Slab :=
  let a := pageOf ptr
  if ptr = 0 ∨ ¬slabInRegions a then s
  else
    match s.page a with
    | none => s
    | some h =>
      match h.kind with
      | .extent =>
        if a + slabPageHead + 8 ≠ ptr ∨ h.liveCount ≠ 1 ∨ h.pages = 0 then s
        else if !canaries then s
        else
          slabUnmapPages { s with pagesAllocated := s.pagesAllocated - h.pages } a h.pages
      | .small =>
        match slabSmallBlockForPtr h (ptr - a) with
        | none => s
        | some off =>
          if (h.block off).requested = 0 then s
          else
            let s := s.modify a fun h => slabSmallClear h off
            if (slabSmallClear h off).liveCount = 0 ∧ s.smallSpare = none then
              { s.modify a slabSmallSpare with smallSpare := some a }
            else if (slabSmallClear h off).liveCount = 0 then
              let s := slabSmallRemove s a
              slabUnmapPages { s with pagesAllocated := s.pagesAllocated - 1 } a 1
            else s.modify a slabSmallCoalesce

def slabResize (s : Slab) (ptr newSize : Nat) (canaries : Bool) : Bool × Slab :=
  let a := pageOf ptr
  if ptr = 0 ∨ newSize = 0 ∨ newSize > slabMaxSize then (false, s)
  else if ¬slabInRegions a then (false, s)
  else
    match s.page a with
    | none => (false, s)
    | some h =>
      match h.kind with
      | .small =>
        if newSize > slabSmallMax then (false, s)
        else
          match slabSmallBlockForPtr h (ptr - a) with
          | none => (false, s)
          | some off =>
            if (h.block off).requested = 0 then (false, s)
            else
              match slabSmallResize h off newSize with
              | none => (false, s)
              | some h' => (true, s.modify a fun _ => h')
      | .extent =>
        if h.liveCount ≠ 1 ∨ h.pages = 0 ∨ a + slabPageHead + 8 ≠ ptr then (false, s)
        else if newSize ≤ slabSmallMax then (false, s)
        else
          let pages := (slabExtentTotal newSize + pageSize - 1) / pageSize
          if pages > h.pages then (false, s)
          else if !canaries then (false, s)
          else
            let s := s.modify a fun h => { h with payloadSize := newSize, pages := pages }
            if pages < h.pages then
              (true, slabUnmapPages
                { s with pagesAllocated := s.pagesAllocated - (h.pages - pages) }
                (a + pages * pageSize) (h.pages - pages))
            else (true, s)

def slabAllocSize (s : Slab) (ptr : Nat) : Nat :=
  let a := pageOf ptr
  if ptr = 0 then 0
  else
    match s.page a with
    | none => 0
    | some h =>
      match h.kind with
      | .extent => if a + slabPageHead + 8 ≠ ptr then 0 else h.payloadSize
      | .small =>
        match slabSmallBlockForPtr h (ptr - a) with
        | none => 0
        | some off => (h.block off).requested

def slabPageCount (size : Nat) : Nat := (size + pageSize - 1) / pageSize

def slabRegionEnd (a : Nat) : Nat :=
  if slabRegionContains a slabPrimaryStart slabPrimarySize then slabPrimaryStart + slabPrimarySize
  else slabOverflowStart + slabOverflowSize

def slabPageFree (s : Slab) (ptr size : Nat) : Slab :=
  let pages := slabPageCount size
  if ptr = 0 ∨ size = 0 ∨ size > uint64Max - pageSize + 1 then s
  else if ptr % pageSize ≠ 0 then s
  else if ¬slabInRegions ptr then s
  else if pages > uint64Max / pageSize ∨ ptr > uint64Max - pages * pageSize then s
  else if ptr + pages * pageSize > slabRegionEnd ptr then s
  else if ∃ a ∈ runPages ptr pages, (s.mem a).isNone then s
  else if pages > s.pagesAllocated then s
  else slabUnmapPages { s with pagesAllocated := s.pagesAllocated - pages } ptr pages

/-- The first locked section of `slab_flush_stale`: it gives the spare page up. Whether a
flush is needed is the dirty flag it leaves for the caller to clear. -/
def slabDropSpare (s : Slab) : Slab :=
  match s.smallSpare with
  | none => s
  | some p =>
    let s := slabUnmapPages (slabSmallRemove s p) p 1
    { s with pagesAllocated := s.pagesAllocated - 1, smallSpare := none }

end Lebirun.Slab
