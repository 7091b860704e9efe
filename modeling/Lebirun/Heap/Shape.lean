import Mathlib
import Lebirun.Lib.Linked
import Lebirun.Lib.Tiling
import Lebirun.Heap.State

namespace Lebirun.Heap
set_option autoImplicit true

open Linked Tiling

/-- What a header says about its block, the links left aside. -/
structure Cell where
  size : Nat
  allocSize : Nat
  magic : Nat
  isFree : Bool
  deriving DecidableEq, Repr

def HeapBlock.cell (b : HeapBlock) : Cell := ⟨b.size, b.allocSize, b.magic, b.isFree⟩

def Cell.span (c : Cell) : Nat := headSize + c.size

def freeCell (size : Nat) : Cell := ⟨size, 0, heapMagic, true⟩

def Heap.cells (h : Heap) (a : Nat) : Cell := (h.block a).cell

/-- The blocks from `start_addr` to `end_addr` are `l`, and the list links them in order. -/
structure Shape (h : Heap) (l : List Cell) : Prop where
  tiles : Tiles Cell.span h.cells h.startAddr l
  full : h.startAddr + extent Cell.span l = h.endAddr
  seg : Seg h.next h.prev none (starts Cell.span h.startAddr l) none
  head : h.freeList = (starts Cell.span h.startAddr l).head?

variable {h h' : Heap} {l l₁ l₂ : List Cell} {b c : Cell} {a n s : Nat}

theorem Cell.span_pos (c : Cell) : 0 < c.span := by
  simp only [Cell.span, headSize]
  omega

theorem starts_nodup : (starts Cell.span a l).Nodup :=
  (starts_pairwise fun c _ => c.span_pos).imp fun h => Nat.ne_of_lt h

@[simp]
theorem modify_next (h : Heap) (a : Nat) (f : HeapBlock → HeapBlock) (x : Nat) :
    (h.modify a f).next x = if x = a then (f (h.block a)).next else h.next x := by
  by_cases hx : x = a
  · simp [Heap.next, Heap.modify, hx]
  · simp [Heap.next, Heap.modify, hx]

@[simp]
theorem modify_prev (h : Heap) (a : Nat) (f : HeapBlock → HeapBlock) (x : Nat) :
    (h.modify a f).prev x = if x = a then (f (h.block a)).prev else h.prev x := by
  by_cases hx : x = a
  · simp [Heap.prev, Heap.modify, hx]
  · simp [Heap.prev, Heap.modify, hx]

@[simp]
theorem modify_cells (h : Heap) (a : Nat) (f : HeapBlock → HeapBlock) (x : Nat) :
    (h.modify a f).cells x = if x = a then (f (h.block a)).cell else h.cells x := by
  by_cases hx : x = a
  · simp [Heap.cells, Heap.modify, hx]
  · simp [Heap.cells, Heap.modify, hx]

@[simp]
theorem setPrev_next (h : Heap) (o v : Option Nat) (x : Nat) :
    (h.setPrev o v).next x = h.next x := by
  cases o with
  | none => rfl
  | some y =>
    rw [Heap.setPrev, modify_next]
    split
    · subst x
      rfl
    · rfl

@[simp]
theorem setPrev_prev (h : Heap) (o v : Option Nat) (x : Nat) :
    (h.setPrev o v).prev x = if o = some x then v else h.prev x := by
  cases o with
  | none => simp [Heap.setPrev]
  | some y =>
    rw [Heap.setPrev, modify_prev]
    simp only [Option.some.injEq, eq_comm]

@[simp]
theorem setPrev_cells (h : Heap) (o v : Option Nat) (x : Nat) :
    (h.setPrev o v).cells x = h.cells x := by
  cases o with
  | none => rfl
  | some y =>
    rw [Heap.setPrev, modify_cells]
    split
    · subst x
      rfl
    · rfl

/-- The fields of the heap itself, which the edits of its blocks leave alone. -/
def Heap.frame (h : Heap) : Nat × Nat × Nat × Option Nat × Nat × Nat :=
  (h.startAddr, h.endAddr, h.maxAddr, h.freeList, h.totalSize, h.usedSize)

@[simp]
theorem modify_frame (h : Heap) (a : Nat) (f : HeapBlock → HeapBlock) :
    (h.modify a f).frame = h.frame := rfl

@[simp]
theorem setPrev_frame (h : Heap) (o v : Option Nat) : (h.setPrev o v).frame = h.frame := by
  cases o with
  | none => rfl
  | some y => rfl

theorem modify_prev_keep {f : HeapBlock → HeapBlock} (hf : ∀ b, (f b).prev = b.prev)
    (x : Nat) : (h.modify a f).prev x = h.prev x := by
  rw [modify_prev]
  split
  · subst x
    exact hf _
  · rfl

theorem modify_next_keep {f : HeapBlock → HeapBlock} (hf : ∀ b, (f b).next = b.next)
    (x : Nat) : (h.modify a f).next x = h.next x := by
  rw [modify_next]
  split
  · subst x
    exact hf _
  · rfl

theorem splitAt_next (h : Heap) (a s x : Nat) :
    (splitAt h a s).next x =
      if x = a then some (a + headSize + s)
      else if x = a + headSize + s then h.next a else h.next x := by
  rw [splitAt, modify_next]
  by_cases hxa : x = a
  · simp [hxa]
  · rw [if_neg hxa, if_neg hxa, setPrev_next]
    by_cases hxn : x = a + headSize + s
    · simp [hxn, Heap.next, freshBlock]
    · simp [hxn, Heap.next]

theorem splitAt_prev (h : Heap) (a s x : Nat) :
    (splitAt h a s).prev x =
      if h.next a = some x then some (a + headSize + s)
      else if x = a + headSize + s then some a else h.prev x := by
  rw [splitAt, modify_prev_keep (by simp), setPrev_prev]
  congr 1
  by_cases hxn : x = a + headSize + s
  · simp [hxn, Heap.prev, freshBlock]
  · simp [hxn, Heap.prev]

theorem splitAt_cells (h : Heap) (a s x : Nat) :
    (splitAt h a s).cells x =
      if x = a then { h.cells a with size := s }
      else if x = a + headSize + s then freeCell ((h.block a).size - s - headSize)
      else h.cells x := by
  rw [splitAt, modify_cells]
  by_cases hxa : x = a
  · rw [if_pos hxa, if_pos hxa]
    have hne : a ≠ a + headSize + s := by
      have : headSize = 40 := rfl
      omega
    generalize hnew : freshBlock _ _ _ = new
    have hcells : (Heap.setPrev { h with block := Function.update h.block (a + headSize + s) new }
        (h.block a).next (some (a + headSize + s))).cells a = h.cells a := by
      rw [setPrev_cells]
      simp only [Heap.cells, Function.update_of_ne hne]
    rw [← hcells]
    rfl
  · rw [if_neg hxa, if_neg hxa, setPrev_cells]
    by_cases hxn : x = a + headSize + s
    · simp [hxn, Heap.cells, HeapBlock.cell, freshBlock, freeCell]
    · simp [hxn, Heap.cells]

theorem splitAt_frame (h : Heap) (a s : Nat) : (splitAt h a s).frame = h.frame := by
  rw [splitAt, modify_frame, setPrev_frame]
  rfl

theorem absorb_next (h : Heap) (a n magic x : Nat) :
    (absorb h a n magic).next x = if x = a then h.next n else h.next x := by
  rw [absorb, modify_next_keep (by simp), setPrev_next, modify_next]
  rfl

theorem absorb_prev (h : Heap) (a n magic x : Nat) :
    (absorb h a n magic).prev x = if h.next n = some x then some a else h.prev x := by
  rw [absorb, modify_prev_keep (by simp), setPrev_prev]
  congr 1
  apply modify_prev_keep
  intro b
  rfl

theorem absorb_cells (h : Heap) (hxn : x ≠ n) :
    (absorb h a n magic).cells x =
      if x = a then { h.cells a with size := (h.block a).size + (headSize + (h.block n).size) }
      else h.cells x := by
  rw [absorb, modify_cells, if_neg hxn, setPrev_cells, modify_cells]
  rfl

theorem absorb_frame (h : Heap) (a n magic : Nat) : (absorb h a n magic).frame = h.frame := by
  rw [absorb, modify_frame, setPrev_frame, modify_frame]

theorem Shape.cell_eq (hs : Shape h (l₁ ++ b :: l₂)) :
    h.cells (h.startAddr + extent Cell.span l₁) = b :=
  (tiles_append.1 hs.tiles).2.1

theorem Shape.size_eq (hs : Shape h (l₁ ++ b :: l₂)) :
    (h.block (h.startAddr + extent Cell.span l₁)).size = b.size :=
  congrArg Cell.size hs.cell_eq

theorem Shape.isFree_eq (hs : Shape h (l₁ ++ b :: l₂)) :
    (h.block (h.startAddr + extent Cell.span l₁)).isFree = b.isFree :=
  congrArg Cell.isFree hs.cell_eq

theorem Shape.next_eq (hs : Shape h (l₁ ++ b :: l₂)) :
    h.next (h.startAddr + extent Cell.span l₁) =
      (starts Cell.span (h.startAddr + extent Cell.span l₁ + b.span) l₂).head? := by
  have hseg := hs.seg
  rw [starts_append, starts_cons, seg_append] at hseg
  obtain ⟨-, -, hn, -⟩ := hseg
  rw [hn, Option.or_none]

theorem Shape.prev_eq (hs : Shape h (l₁ ++ b :: l₂)) :
    h.prev (h.startAddr + extent Cell.span l₁) =
      (starts Cell.span h.startAddr l₁).getLast? := by
  have hseg := hs.seg
  rw [starts_append, starts_cons, seg_append] at hseg
  obtain ⟨-, hp, -⟩ := hseg
  rw [hp, Option.or_none]

/-- Two heaps with the same fields, blocks and links have the same shape. -/
theorem Shape.congr (hs : Shape h l) (hc : ∀ x, h'.cells x = h.cells x)
    (hn : ∀ x, h'.next x = h.next x) (hp : ∀ x, h'.prev x = h.prev x)
    (ha : h'.startAddr = h.startAddr) (he : h'.endAddr = h.endAddr)
    (hf : h'.freeList = h.freeList) : Shape h' l := by
  refine ⟨?_, ?_, ?_, ?_⟩
  · rw [ha]
    exact hs.tiles.congr fun x _ => hc x
  · rw [ha, he]
    exact hs.full
  · rw [ha]
    exact hs.seg.congr (fun x _ => hn x) fun x _ => hp x
  · rw [ha, hf]
    exact hs.head

theorem Shape.counters (hs : Shape h l) (total used : Nat) :
    Shape { h with totalSize := total, usedSize := used } l :=
  hs.congr (fun _ => rfl) (fun _ => rfl) (fun _ => rfl) rfl rfl rfl

/-- A header changes other than in its links and its size. -/
theorem Shape.modify (hs : Shape h (l₁ ++ b :: l₂))
    (f : HeapBlock → HeapBlock) (hfn : ∀ x, (f x).next = x.next) (hfp : ∀ x, (f x).prev = x.prev)
    (hfc : (f (h.block (h.startAddr + extent Cell.span l₁))).cell = c) (hsize : c.size = b.size) :
    Shape (h.modify (h.startAddr + extent Cell.span l₁) f) (l₁ ++ c :: l₂) := by
  have hspan : c.span = b.span := by rw [Cell.span, Cell.span, hsize]
  have hst : starts Cell.span h.startAddr (l₁ ++ c :: l₂) =
      starts Cell.span h.startAddr (l₁ ++ b :: l₂) := by
    rw [starts_append, starts_append, starts_cons, starts_cons, hspan]
  have hfull := hs.full
  have htiles := hs.tiles
  rw [show l₁ ++ b :: l₂ = l₁ ++ [b] ++ l₂ by simp] at htiles
  refine ⟨?_, ?_, ?_, ?_⟩
  · rw [show l₁ ++ c :: l₂ = l₁ ++ [c] ++ l₂ by simp]
    apply htiles.replace
    · refine ⟨?_, trivial⟩
      rw [modify_cells, if_pos rfl, hfc]
    · simp [hspan]
    · intro x _
      exact x.span_pos
    · intro x hx
      have hb := b.span_pos
      simp only [extent_cons, extent_nil] at hx
      rw [modify_cells, if_neg (by omega)]
  · show h.startAddr + extent Cell.span (l₁ ++ c :: l₂) = h.endAddr
    rw [← hfull]
    simp only [extent_append, extent_cons, hspan]
  · show Seg _ _ none (starts Cell.span h.startAddr (l₁ ++ c :: l₂)) none
    rw [hst]
    apply hs.seg.congr
    · intro x _
      exact modify_next_keep hfn x
    · intro x _
      exact modify_prev_keep hfp x
  · show h.freeList = (starts Cell.span h.startAddr (l₁ ++ c :: l₂)).head?
    rw [hst]
    exact hs.head

theorem mem_starts_bounds {x : Nat} (hx : x ∈ starts Cell.span a l) :
    a ≤ x ∧ x < a + extent Cell.span l :=
  ⟨starts_ge hx, starts_lt (fun c _ => c.span_pos) hx⟩

/-- A block is cut in two. -/
theorem Shape.splitAt (hs : Shape h (l₁ ++ b :: l₂)) (hsize : s + headSize ≤ b.size) :
    Shape (splitAt h (h.startAddr + extent Cell.span l₁) s)
      (l₁ ++ { b with size := s } :: freeCell (b.size - s - headSize) :: l₂) := by
  have hcell := hs.cell_eq
  have hnext := hs.next_eq
  have hsz := hs.size_eq
  have htiles := hs.tiles
  have hseg := hs.seg
  have hhead := hs.head
  have hnd : (starts Cell.span h.startAddr (l₁ ++ b :: l₂)).Nodup := starts_nodup
  rw [show l₁ ++ b :: l₂ = l₁ ++ [b] ++ l₂ by simp] at htiles
  rw [starts_append, starts_cons] at hseg hnd hhead
  generalize ha : h.startAddr + extent Cell.span l₁ = a at *
  have hspan : b.span = headSize + b.size := rfl
  have hhs : headSize = 40 := rfl
  have h₁ : ∀ x ∈ starts Cell.span h.startAddr l₁, x < a := by
    intro x hx
    rw [← ha]
    exact (mem_starts_bounds hx).2
  have h₂ : ∀ x ∈ starts Cell.span (a + b.span) l₂, a + b.span ≤ x := fun x hx => starts_ge hx
  have hlate : ∀ x, x < a + b.span → h.next a ≠ some x := by
    intro x hx he
    rw [hnext] at he
    exact absurd (h₂ x (List.mem_of_head? he)) (by omega)
  have hframe := splitAt_frame h a s
  simp only [Heap.frame, Prod.mk.injEq] at hframe
  obtain ⟨hfs, hfe, -, hff, -⟩ := hframe
  have hst : starts Cell.span h.startAddr
      (l₁ ++ { b with size := s } :: freeCell (b.size - s - headSize) :: l₂) =
      starts Cell.span h.startAddr l₁ ++ a :: (a + headSize + s) ::
        starts Cell.span (a + b.span) l₂ := by
    rw [starts_append, starts_cons, starts_cons, ha]
    congr 3
    · simp only [Cell.span]
      omega
    · congr 1
      simp only [Cell.span, freeCell]
      omega
  refine ⟨?_, ?_, ?_, ?_⟩
  · rw [hfs, show l₁ ++ { b with size := s } :: freeCell (b.size - s - headSize) :: l₂ =
      l₁ ++ [{ b with size := s }, freeCell (b.size - s - headSize)] ++ l₂ by simp]
    apply htiles.replace
    · rw [ha]
      refine ⟨?_, ?_, trivial⟩
      · rw [splitAt_cells, if_pos rfl, hcell]
      · simp only [Cell.span]
        rw [splitAt_cells, if_neg (by omega), if_pos (by omega), hsz]
    · simp only [extent_cons, extent_nil, Cell.span, freeCell]
      omega
    · intro x _
      exact x.span_pos
    · intro x hx
      rw [ha] at hx
      simp only [extent_cons, extent_nil] at hx
      rw [splitAt_cells, if_neg (by omega), if_neg (by omega)]
  · rw [hfs, hfe, ← hs.full]
    simp only [extent_append, extent_cons, Cell.span, freeCell]
    omega
  · rw [hfs, hst]
    apply hseg.insert hnd
    · rw [splitAt_next, if_pos rfl]
    · rw [splitAt_next, if_neg (by omega), if_pos rfl]
    · rw [splitAt_prev, if_neg (hlate _ (by omega)), if_pos rfl]
    · rw [splitAt_prev, if_neg (hlate _ (by omega)), if_neg (by omega)]
    · intro x hx
      have hlt := h₁ x hx
      rw [splitAt_next, if_neg (by omega), if_neg (by omega)]
    · intro x hx
      have hlt := h₁ x hx
      rw [splitAt_prev, if_neg (hlate _ (by omega)), if_neg (by omega)]
    · intro x hx
      have hge := h₂ x hx
      rw [splitAt_next, if_neg (by omega), if_neg (by omega)]
    · intro x hx
      have hge := h₂ x hx
      rw [splitAt_prev, if_neg (by omega : ¬x = a + headSize + s)]
  · rw [hfs, hff, hst, hhead]
    cases starts Cell.span h.startAddr l₁ with
    | nil => rfl
    | cons y m => rfl

/-- A block takes in the one behind it. -/
theorem Shape.absorb (hs : Shape h (l₁ ++ b :: c :: l₂)) (magic : Nat) :
    Shape (absorb h (h.startAddr + extent Cell.span l₁)
        (h.startAddr + extent Cell.span l₁ + b.span) magic)
      (l₁ ++ { b with size := b.size + (headSize + c.size) } :: l₂) := by
  have hcell := hs.cell_eq
  have hsz := hs.size_eq
  have hs' : Shape h ((l₁ ++ [b]) ++ c :: l₂) := by simpa using hs
  have hat : h.startAddr + extent Cell.span (l₁ ++ [b]) =
      h.startAddr + extent Cell.span l₁ + b.span := by simp [Nat.add_assoc]
  have hnext := hs'.next_eq
  have hprev := hs'.prev_eq
  have hszc := hs'.size_eq
  rw [hat] at hnext hszc hprev
  have htiles := hs.tiles
  have hseg := hs.seg
  have hhead := hs.head
  have hnd : (starts Cell.span h.startAddr (l₁ ++ b :: c :: l₂)).Nodup := starts_nodup
  rw [show l₁ ++ b :: c :: l₂ = l₁ ++ [b, c] ++ l₂ by simp] at htiles
  rw [starts_append, starts_cons, starts_cons,
    show ∀ (u : List Nat) (x y : Nat) v, u ++ x :: y :: v = u ++ [x] ++ y :: v by simp] at hseg hnd
  rw [starts_append, starts_cons] at hhead
  rw [starts_append, starts_cons, starts_nil, List.getLast?_concat] at hprev
  generalize ha : h.startAddr + extent Cell.span l₁ = a at *
  have hspan : b.span = headSize + b.size := rfl
  have hhs : headSize = 40 := rfl
  have h₁ : ∀ x ∈ starts Cell.span h.startAddr l₁, x < a := by
    intro x hx
    rw [← ha]
    exact (mem_starts_bounds hx).2
  have h₂ : ∀ x ∈ starts Cell.span (a + b.span + c.span) l₂, a + b.span + c.span ≤ x :=
    fun x hx => starts_ge hx
  have hframe := absorb_frame h a (a + b.span) magic
  simp only [Heap.frame, Prod.mk.injEq] at hframe
  obtain ⟨hfs, hfe, -, hff, -⟩ := hframe
  have hst : starts Cell.span h.startAddr
      (l₁ ++ { b with size := b.size + (headSize + c.size) } :: l₂) =
      starts Cell.span h.startAddr l₁ ++ [a] ++ starts Cell.span (a + b.span + c.span) l₂ := by
    rw [starts_append, starts_cons, ha, List.append_assoc]
    congr 2
    simp only [Cell.span]
    congr 1
    omega
  refine ⟨?_, ?_, ?_, ?_⟩
  · rw [hfs, show l₁ ++ { b with size := b.size + (headSize + c.size) } :: l₂ =
      l₁ ++ [{ b with size := b.size + (headSize + c.size) }] ++ l₂ by simp]
    apply htiles.replace
    · rw [ha]
      refine ⟨?_, trivial⟩
      rw [absorb_cells _ (by omega), if_pos rfl, hcell, hsz, hszc]
    · simp only [extent_cons, extent_nil, Cell.span]
      omega
    · intro x _
      exact x.span_pos
    · intro x hx
      have hc := c.span_pos
      rw [ha] at hx
      simp only [extent_cons, extent_nil] at hx
      rw [absorb_cells _ (by omega), if_neg (by omega)]
  · rw [hfs, hfe, ← hs.full]
    simp only [extent_append, extent_cons, Cell.span]
    omega
  · rw [hfs, hst]
    apply hseg.remove hnd
    · intro x _
      rw [absorb_next, hprev]
      simp only [Option.some.injEq, eq_comm]
    · intro x _
      rw [absorb_prev, hprev]
  · rw [hfs, hff, hst, hhead]
    cases starts Cell.span h.startAddr l₁ with
    | nil => rfl
    | cons y m => rfl

end Lebirun.Heap
