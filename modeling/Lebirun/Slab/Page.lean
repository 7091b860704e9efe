import Mathlib
import Lebirun.Lib.Tiling

namespace Lebirun.Slab
set_option autoImplicit true

open Tiling

abbrev pageSize : Nat := 4096
abbrev slabPageHead : Nat := 32
abbrev slabBlockHead : Nat := 8
abbrev slabSmallMax : Nat := 4056
abbrev slabMaxSize : Nat := 65536

/-- The in-band header of a block of a small page. -/
structure SlabBlock where
  span : Nat
  requested : Nat
  deriving DecidableEq, Repr

inductive SlabKind where
  | small
  | extent
  deriving DecidableEq, Repr

/-- A page that carries the slab magic: its header, and the block headers by their offset
in the page. -/
structure SlabPage where
  next : Option Nat
  prev : Option Nat
  payloadSize : Nat
  pages : Nat
  liveCount : Nat
  kind : SlabKind
  maxFree : Nat
  block : Nat → SlabBlock

def roundup8 (n : Nat) : Nat := (n + 7) / 8 * 8

/-- The loop both searches of a small page run: it stops at the first block that passes the
test and gives up on a span that leaves the page. -/
def slabSmallWalk (block : Nat → SlabBlock) (test : Nat → SlabBlock → Bool) :
    Nat → Nat → Option Nat
  | 0, _ => none
  | fuel + 1, off =>
    if off + slabBlockHead ≤ pageSize then
      let b := block off
      if b.span < slabBlockHead ∨ b.span > pageSize - off then none
      else if test off b then some off
      else slabSmallWalk block test fuel (off + b.span)
    else none

def slabSmallFind (h : SlabPage) (needed : Nat) : Option Nat :=
  slabSmallWalk h.block (fun _ b => b.requested = 0 ∧ b.span ≥ needed) pageSize slabPageHead

/-- The block whose payload starts at offset `ptr` of the page. -/
def slabSmallBlockForPtr (h : SlabPage) (ptr : Nat) : Option Nat :=
  slabSmallWalk h.block (fun off _ => off + slabBlockHead = ptr) pageSize slabPageHead

/-- The loop of `slab_small_coalesce`, from the block at the given offset. -/
def slabSmallCoalesceFrom : Nat → (Nat → SlabBlock) → Nat → Nat → (Nat → SlabBlock) × Nat
  | 0, block, maxFree, _ => (block, maxFree)
  | fuel + 1, block, maxFree, off =>
    if off + slabBlockHead ≤ pageSize then
      let b := block off
      if b.span < slabBlockHead ∨ b.span > pageSize - off then (block, maxFree)
      else
        let nextOff := off + b.span
        let maxFree' := if b.requested = 0 ∧ b.span > maxFree then b.span else maxFree
        if nextOff < pageSize then
          let n := block nextOff
          if n.span < slabBlockHead ∨ n.span > pageSize - nextOff then (block, maxFree)
          else if b.requested = 0 ∧ n.requested = 0 then
            slabSmallCoalesceFrom fuel
              (Function.update block off { b with span := b.span + n.span }) maxFree off
          else slabSmallCoalesceFrom fuel block maxFree' nextOff
        else slabSmallCoalesceFrom fuel block maxFree' nextOff
    else (block, maxFree)

def slabSmallCoalesce (h : SlabPage) : SlabPage :=
  let r := slabSmallCoalesceFrom pageSize h.block 0 slabPageHead
  { h with block := r.1, maxFree := r.2 }

/-- Gives `size` bytes at `off` to a block of `span` bytes, as both `slab_small_allocate` and
`slab_resize` do: what is left over becomes a free block if it can hold anything. -/
def slabSmallCarve (block : Nat → SlabBlock) (off span size : Nat) : Nat → SlabBlock :=
  let needed := roundup8 size + slabBlockHead
  if span - needed ≥ slabBlockHead + 8 then
    Function.update (Function.update block (off + needed) ⟨span - needed, 0⟩) off ⟨needed, size⟩
  else Function.update block off ⟨span, size⟩

/-- The tail of `slab_small_allocate`, once the free block at `off` is found. -/
def slabSmallPlace (h : SlabPage) (off size : Nat) : SlabPage :=
  slabSmallCoalesce
    { h with
      block := slabSmallCarve h.block off (h.block off).span size
      liveCount := h.liveCount + 1
      payloadSize := h.payloadSize + size }

/-- What `slab_free` does to the page before it decides what becomes of it. -/
def slabSmallClear (h : SlabPage) (off : Nat) : SlabPage :=
  let b := h.block off
  { h with
    block := Function.update h.block off { b with requested := 0 }
    liveCount := h.liveCount - 1
    payloadSize := h.payloadSize - b.requested }

/-- The page `slab_free` keeps as the spare one. -/
def slabSmallSpare (h : SlabPage) : SlabPage :=
  { h with
    block := Function.update h.block slabPageHead ⟨pageSize - slabPageHead, 0⟩
    payloadSize := 0
    maxFree := pageSize - slabPageHead }

/-- The small branch of `slab_resize` on the live block at `off`; `none` is its `goto fail`. -/
def slabSmallResize (h : SlabPage) (off newSize : Nat) : Option SlabPage :=
  let b := h.block off
  let needed := roundup8 newSize + slabBlockHead
  let span : Option Nat :=
    if needed > b.span then
      if off + b.span ≥ pageSize then none
      else
        let n := h.block (off + b.span)
        if n.requested ≠ 0 ∨ n.span < slabBlockHead ∨ n.span > pageSize - (off + b.span) ∨
            needed > b.span + n.span then none
        else some (b.span + n.span)
    else some b.span
  span.map fun span =>
    slabSmallCoalesce
      { h with
        block := slabSmallCarve h.block off span newSize
        payloadSize := h.payloadSize - b.requested + newSize }

/-- The page `slab_small_create` makes of a cleared frame. -/
def slabSmallFresh : SlabPage where
  next := none
  prev := none
  payloadSize := 0
  pages := 1
  liveCount := 0
  kind := .small
  maxFree := pageSize - slabPageHead
  block := Function.update (fun _ => ⟨0, 0⟩) slabPageHead ⟨pageSize - slabPageHead, 0⟩

def SlabBlock.Free (b : SlabBlock) : Prop := b.requested = 0

instance (b : SlabBlock) : Decidable b.Free := inferInstanceAs (Decidable (_ = _))

def freeSpan (b : SlabBlock) : Nat := if b.Free then b.span else 0

/-- The largest free span of a list of blocks, `0` if it has none. -/
def largestFree (l : List SlabBlock) : Nat := (l.map freeSpan).foldr max 0

def liveBlocks (l : List SlabBlock) : Nat := l.countP (fun b => ¬b.Free)

def requestedBytes (l : List SlabBlock) : Nat := (l.map SlabBlock.requested).sum

structure BlockOk (b : SlabBlock) : Prop where
  aligned : 8 ∣ b.span
  pos : 8 ≤ b.span
  fits : ¬b.Free → 8 + roundup8 b.requested ≤ b.span

/-- The page's blocks are `l`, and its counters count them. -/
structure Laid (h : SlabPage) (l : List SlabBlock) : Prop where
  tiles : Tiles SlabBlock.span h.block slabPageHead l
  full : extent SlabBlock.span l = pageSize - slabPageHead
  ok : ∀ b ∈ l, BlockOk b
  live : h.liveCount = liveBlocks l
  payload : h.payloadSize = requestedBytes l

/-- No two neighbouring blocks are both free. -/
def Separated (l : List SlabBlock) : Prop := l.IsChain (fun b c => ¬(b.Free ∧ c.Free))

structure PageOk (h : SlabPage) (l : List SlabBlock) : Prop extends Laid h l where
  separated : Separated l
  maxFree : h.maxFree = largestFree l

/-- What coalescing does to the list of blocks, one block at a time from the right. -/
def join (b : SlabBlock) : List SlabBlock → List SlabBlock
  | [] => [b]
  | c :: l => if b.Free ∧ c.Free then { b with span := b.span + c.span } :: l else b :: c :: l

def coalesced (l : List SlabBlock) : List SlabBlock := l.foldr join []

end Lebirun.Slab
