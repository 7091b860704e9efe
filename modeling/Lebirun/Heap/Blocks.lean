import Mathlib
import Lebirun.Heap.Shape

namespace Lebirun.Heap
set_option autoImplicit true

open Linked Tiling

variable {h h' : Heap} {l l₁ l₂ m : List Cell} {b c d u : Cell} {a p s : Nat}

theorem Shape.blockEnd_eq (hs : Shape h (l₁ ++ b :: l₂)) :
    h.blockEnd (h.startAddr + extent Cell.span l₁) =
      h.startAddr + extent Cell.span l₁ + b.span := by
  rw [Heap.blockEnd, hs.size_eq, Cell.span, Nat.add_assoc _ headSize]

theorem Shape.reassoc (hs : Shape h (l₁ ++ b :: c :: l₂)) :
    Shape h ((l₁ ++ [b]) ++ c :: l₂) := by
  simpa using hs

theorem extent_snoc (l₁ : List Cell) (b : Cell) :
    a + extent Cell.span (l₁ ++ [b]) = a + extent Cell.span l₁ + b.span := by
  simp [Nat.add_assoc]

/-- A free neighbour behind `b` goes into it. -/
def mergeNext (b : Cell) : List Cell → List Cell
  | [] => [b]
  | c :: l =>
    if c.isFree then { b with size := b.size + (headSize + c.size) } :: l else b :: c :: l

theorem Shape.coalesceNext (hs : Shape h (l₁ ++ b :: l₂)) :
    Shape (coalesceNext h (h.startAddr + extent Cell.span l₁)) (l₁ ++ mergeNext b l₂) := by
  have hnext := hs.next_eq
  rw [Heap.coalesceNext, hnext]
  cases l₂ with
  | nil => exact hs
  | cons c l₂ =>
    have hfree := hs.reassoc.isFree_eq
    rw [extent_snoc] at hfree
    simp only [starts_cons, List.head?_cons, hfree, hs.blockEnd_eq, and_true]
    cases hc : c.isFree with
    | true =>
      rw [if_pos rfl, mergeNext, if_pos hc]
      exact hs.absorb _
    | false =>
      rw [if_neg (by simp), mergeNext, if_neg (by simp [hc])]
      exact hs

theorem Shape.coalescePrev_nil (hs : Shape h (b :: l₂)) :
    coalescePrev h h.startAddr = h := by
  have hprev : h.prev (h.startAddr + extent Cell.span []) =
      (starts Cell.span h.startAddr []).getLast? := Shape.prev_eq hs
  rw [extent_nil, Nat.add_zero, starts_nil, List.getLast?_nil] at hprev
  rw [coalescePrev, hprev]

theorem Shape.coalescePrev_snoc (hs : Shape h (m ++ d :: b :: l₂)) :
    Shape (coalescePrev h (h.startAddr + extent Cell.span (m ++ [d])))
      (m ++ if d.isFree then { d with size := d.size + (headSize + b.size) } :: l₂
        else d :: b :: l₂) := by
  have hprev := hs.reassoc.prev_eq
  rw [starts_append, starts_cons, starts_nil, List.getLast?_concat] at hprev
  rw [coalescePrev, hprev, extent_snoc]
  simp only [hs.isFree_eq, hs.blockEnd_eq, and_true]
  by_cases hd : d.isFree
  · rw [if_pos hd, if_pos hd]
    exact hs.absorb _
  · rw [if_neg hd, if_neg hd]
    exact hs

theorem coalesceNext_frame (h : Heap) (a : Nat) : (coalesceNext h a).frame = h.frame := by
  rw [coalesceNext]
  split
  · split
    · exact absorb_frame _ _ _ _
    · rfl
  · rfl

theorem coalescePrev_frame (h : Heap) (a : Nat) : (coalescePrev h a).frame = h.frame := by
  rw [coalescePrev]
  split
  · split
    · exact absorb_frame _ _ _ _
    · rfl
  · rfl

theorem coalesceFreeBlocks_frame (h : Heap) (a : Nat) :
    (coalesceFreeBlocks h a).frame = h.frame :=
  (coalescePrev_frame _ a).trans (coalesceNext_frame h a)

def Separated (l : List Cell) : Prop :=
  l.IsChain fun b c => ¬(b.isFree = true ∧ c.isFree = true)

structure Cell.Ok (c : Cell) : Prop where
  magic : c.magic = heapMagic
  fits : c.isFree = false → c.allocSize + canaryOverhead ≤ c.size

/-- What a block counts for in `used_size`. -/
def Cell.used (c : Cell) : Nat := if c.isFree then 0 else c.span

/-- Where the used blocks of a list start. -/
def usedStarts : Nat → List Cell → List Nat
  | _, [] => []
  | a, c :: l =>
    if c.isFree then usedStarts (a + c.span) l else a :: usedStarts (a + c.span) l

theorem usedStarts_append (a : Nat) (l₁ l₂ : List Cell) :
    usedStarts a (l₁ ++ l₂) = usedStarts a l₁ ++ usedStarts (a + extent Cell.span l₁) l₂ := by
  induction l₁ generalizing a with
  | nil => simp [usedStarts]
  | cons c l₁ ih =>
    rw [List.cons_append, usedStarts, usedStarts, ih, extent_cons, Nat.add_assoc]
    split
    · rfl
    · rfl

theorem usedStarts_free (hf : c.isFree = true) (a : Nat) (l : List Cell) :
    usedStarts a (c :: l) = usedStarts (a + c.span) l := by
  rw [usedStarts, if_pos hf]

theorem usedStarts_resized (hf : c.isFree = true) (s a : Nat) (l : List Cell) :
    usedStarts a ({ c with size := s } :: l) = usedStarts (a + (headSize + s)) l :=
  if_pos hf

theorem usedStarts_used (hf : c.isFree = false) (a : Nat) (l : List Cell) :
    usedStarts a (c :: l) = a :: usedStarts (a + c.span) l := by
  rw [usedStarts, if_neg (by simp [hf])]

structure Good (l : List Cell) : Prop where
  separated : Separated l
  ok : ∀ c ∈ l, c.Ok

theorem Cell.Ok.resize (hc : c.Ok) (hle : c.size ≤ s) : ({ c with size := s } : Cell).Ok :=
  ⟨hc.magic, fun hf => (hc.fits hf).trans hle⟩

theorem Cell.ok_of_free (hm : c.magic = heapMagic) (hf : c.isFree = true) : c.Ok :=
  ⟨hm, fun hf' => by simp [hf] at hf'⟩

theorem freeCell_ok (s : Nat) : (freeCell s).Ok := Cell.ok_of_free rfl rfl

theorem separated_split :
    Separated (l₁ ++ b :: l₂) ↔ Separated (l₁ ++ [b]) ∧ Separated (b :: l₂) :=
  List.isChain_split

theorem Separated.cons_congr (hs : Separated (b :: l)) (hf : c.isFree = b.isFree) :
    Separated (c :: l) := by
  rw [Separated, List.isChain_cons] at hs ⊢
  rw [hf]
  exact hs

theorem Separated.snoc_congr (hs : Separated (l ++ [b])) (hf : c.isFree = b.isFree) :
    Separated (l ++ [c]) := by
  rw [Separated, List.isChain_append] at hs ⊢
  simpa [hf] using hs

theorem separated_cons_used (hf : b.isFree = false) : Separated (b :: l) ↔ Separated l := by
  rw [Separated, Separated, List.isChain_cons]
  simp [hf]

theorem separated_snoc_used (hf : b.isFree = false) : Separated (l ++ [b]) ↔ Separated l := by
  rw [Separated, Separated, List.isChain_append]
  simp [hf]

theorem Separated.tail (hs : Separated (b :: l)) : Separated l := List.IsChain.tail hs

theorem Separated.init (hs : Separated (l ++ [b])) : Separated l := List.IsChain.left_of_append hs

theorem separated_used (hf : b.isFree = false) :
    Separated (l₁ ++ b :: l₂) ↔ Separated l₁ ∧ Separated l₂ := by
  rw [separated_split, separated_snoc_used hf, separated_cons_used hf]

/-- A free block and its free neighbour never stand together in a good list. -/
theorem Separated.used_next (hs : Separated (b :: c :: l)) (hb : b.isFree = true) :
    c.isFree = false := by
  have hbc := (List.isChain_cons_cons.1 hs).1
  simpa [hb] using hbc

theorem good_mergeNext (hb : b.isFree = true) (hm : b.magic = heapMagic)
    (hg : Good l) : Good (mergeNext b l) := by
  cases l with
  | nil =>
    refine ⟨List.isChain_singleton _, ?_⟩
    intro c hc
    rw [mergeNext, List.mem_singleton] at hc
    subst c
    exact Cell.ok_of_free hm hb
  | cons c l =>
    rw [mergeNext]
    split
    · rename_i hc
      refine ⟨hg.separated.cons_congr (hb.trans hc.symm), ?_⟩
      intro d hd
      rcases List.mem_cons.1 hd with rfl | hd
      · exact Cell.ok_of_free hm hb
      · exact hg.ok d (List.mem_cons_of_mem _ hd)
    · rename_i hc
      refine ⟨List.isChain_cons_cons.2 ⟨fun h => hc h.2, hg.separated⟩, ?_⟩
      intro d hd
      rcases List.mem_cons.1 hd with rfl | hd
      · exact Cell.ok_of_free hm hb
      · exact hg.ok d hd

theorem used_mergeNext (hb : b.isFree = true) :
    extent Cell.used (mergeNext b l) = extent Cell.used l := by
  have hused : b.used = 0 := if_pos hb
  cases l with
  | nil => simp [mergeNext, hused]
  | cons c l =>
    rw [mergeNext]
    split
    · rename_i hc
      have hc : c.used = 0 := if_pos hc
      have hbig : ({ b with size := b.size + (headSize + c.size) } : Cell).used = 0 := if_pos hb
      rw [extent_cons, extent_cons, hc, hbig]
    · rw [extent_cons, hused, Nat.zero_add]

theorem usedStarts_mergeNext (hb : b.isFree = true) (a : Nat) :
    usedStarts a (mergeNext b l) = usedStarts a (b :: l) := by
  cases l with
  | nil => rfl
  | cons c l =>
    rw [mergeNext]
    split
    · rename_i hc
      rw [usedStarts_resized hb, usedStarts_free hb, usedStarts_free hc, Cell.span, Cell.span]
      congr 1
      omega
    · rfl

theorem mergeNext_eq (b : Cell) (l : List Cell) :
    ∃ s l', mergeNext b l = { b with size := s } :: l' := by
  cases l with
  | nil => exact ⟨b.size, [], rfl⟩
  | cons c l =>
    rw [mergeNext]
    split
    · exact ⟨_, l, rfl⟩
    · exact ⟨b.size, c :: l, rfl⟩

theorem Good.append_used (hf : u.isFree = false) (hu : u.Ok) (h₁ : Good l₁) (h₂ : Good l₂) :
    Good (l₁ ++ u :: l₂) := by
  refine ⟨(separated_used hf).2 ⟨h₁.separated, h₂.separated⟩, ?_⟩
  intro c hc
  rcases List.mem_append.1 hc with hc | hc
  · exact h₁.ok c hc
  · rcases List.mem_cons.1 hc with rfl | hc
    · exact hu
    · exact h₂.ok c hc

theorem Good.left (hg : Good (l₁ ++ l₂)) : Good l₁ :=
  ⟨List.IsChain.left_of_append hg.separated, fun c hc => hg.ok c (List.mem_append_left _ hc)⟩

theorem Good.right (hg : Good (l₁ ++ l₂)) : Good l₂ :=
  ⟨List.IsChain.right_of_append hg.separated, fun c hc => hg.ok c (List.mem_append_right _ hc)⟩

theorem Good.tail (hg : Good (b :: l)) : Good l := by
  have hg' : Good ([b] ++ l) := hg
  exact hg'.right

/-- The block just freed is merged with its neighbours. -/
theorem Shape.coalesce (hs : Shape h (l₁ ++ b :: l₂)) (hb : b.isFree = true)
    (hm : b.magic = heapMagic) (h₁ : Good l₁) (h₂ : Good l₂) :
    ∃ l', Shape (coalesceFreeBlocks h (h.startAddr + extent Cell.span l₁)) l' ∧ Good l' ∧
      extent Cell.used l' = extent Cell.used l₁ + extent Cell.used l₂ ∧
      ∀ a, usedStarts a l' = usedStarts a (l₁ ++ b :: l₂) := by
  have hg := good_mergeNext hb hm h₂
  have hu := used_mergeNext (l := l₂) hb
  have hst : ∀ a, usedStarts a (mergeNext b l₂) = usedStarts a (b :: l₂) :=
    usedStarts_mergeNext hb
  have hn := hs.coalesceNext
  have hframe := coalesceNext_frame h (h.startAddr + extent Cell.span l₁)
  simp only [Heap.frame, Prod.mk.injEq] at hframe
  obtain ⟨s, l', hl'⟩ := mergeNext_eq b l₂
  rw [hl'] at hn hg hu hst
  rw [coalesceFreeBlocks]
  generalize Heap.coalesceNext h (h.startAddr + extent Cell.span l₁) = k at *
  rw [← hframe.1]
  rcases List.eq_nil_or_concat l₁ with rfl | ⟨m, d, rfl⟩
  · have hsame := Shape.coalescePrev_nil hn
    refine ⟨_, ?_, hg, ?_, hst⟩
    · rw [extent_nil, Nat.add_zero, hsame]
      exact hn
    · rw [hu, extent_nil, Nat.zero_add]
  · rw [List.concat_eq_append] at *
    rw [List.append_assoc, List.singleton_append] at hn
    refine ⟨_, hn.coalescePrev_snoc, ?_, ?_, ?_⟩
    · split
      · rename_i hd
        have hcell : ∀ (t : Nat), ({ d with size := t } : Cell).Ok := fun t =>
          Cell.ok_of_free (h₁.ok d (by simp)).magic hd
        refine ⟨separated_split.2 ⟨?_, ?_⟩, ?_⟩
        · exact h₁.separated.snoc_congr rfl
        · exact hg.separated.cons_congr (hd.trans hb.symm)
        · intro c hc
          rcases List.mem_append.1 hc with hc | hc
          · exact h₁.ok c (List.mem_append_left _ hc)
          · rcases List.mem_cons.1 hc with rfl | hc
            · exact hcell _
            · exact hg.ok c (List.mem_cons_of_mem _ hc)
      · rename_i hd
        rw [Bool.not_eq_true] at hd
        exact h₁.left.append_used hd (h₁.ok d (by simp)) hg
    · have hb' : ({ b with size := s } : Cell).used = 0 := if_pos hb
      rw [extent_cons, hb', Nat.zero_add] at hu
      split
      · rename_i hd
        have hd' : ∀ t, ({ d with size := t } : Cell).used = 0 := fun t => if_pos hd
        simp only [extent_append, extent_cons, extent_nil, hd', hu]
        omega
      · simp only [extent_append, extent_cons, extent_nil, hb', hu]
        omega
    · intro a
      rw [List.append_assoc, List.singleton_append, usedStarts_append, usedStarts_append]
      congr 1
      generalize a + extent Cell.span m = x
      split
      · rename_i hd
        rw [usedStarts_resized hd, usedStarts_free hd, ← hst, usedStarts_resized hb, Cell.span]
        dsimp only
        congr 1
        omega
      · rename_i hd
        rw [Bool.not_eq_true] at hd
        rw [usedStarts_used hd, usedStarts_used hd, hst]

/-- What a split leaves over: nothing, or one free block. -/
inductive Spare : List Cell → Prop
  | nothing : Spare []
  | block {e : Cell} (hm : e.magic = heapMagic) (hf : e.isFree = true) : Spare [e]

theorem Spare.used (hs : Spare l) : extent Cell.used l = 0 := by
  cases hs with
  | nothing => rfl
  | block hm hf => rw [extent_cons, extent_nil, Cell.used, if_pos hf]

theorem Spare.usedStarts (hs : Spare l) (a : Nat) : usedStarts a l = [] := by
  cases hs with
  | nothing => rfl
  | block hm hf =>
    rw [usedStarts_free hf]
    rfl

/-- The left-over in front of what was cut off keeps the list in order. -/
theorem Spare.good_left (hs : Spare m) (hg : Good (l ++ [b])) (hb : b.isFree = true) :
    Good (l ++ m) := by
  cases hs with
  | nothing =>
    rw [List.append_nil]
    exact hg.left
  | block hm hf =>
    refine ⟨hg.separated.snoc_congr (hf.trans hb.symm), ?_⟩
    intro c hc
    rcases List.mem_append.1 hc with hc | hc
    · exact hg.ok c (List.mem_append_left _ hc)
    · rw [List.mem_singleton] at hc
      subst c
      exact Cell.ok_of_free hm hf

theorem Spare.good_right (hs : Spare m) (hg : Good (b :: l)) (hb : b.isFree = true) :
    Good (m ++ l) := by
  cases hs with
  | nothing => exact hg.tail
  | block hm hf =>
    refine ⟨hg.separated.cons_congr (hf.trans hb.symm), ?_⟩
    intro c hc
    rcases List.mem_cons.1 hc with rfl | hc
    · exact Cell.ok_of_free hm hf
    · exact hg.ok c (List.mem_cons_of_mem _ hc)

theorem Shape.splitBlockPrefix (hs : Shape h (l₁ ++ b :: l₂)) (hm : b.magic = heapMagic)
    (hb : b.isFree = true)
    (hp : p = h.startAddr + extent Cell.span l₁ ∨
      h.startAddr + extent Cell.span l₁ + headSize ≤ p)
    (hle : p ≤ h.startAddr + extent Cell.span l₁ + b.size) :
    ∃ m c, Shape (splitBlockPrefix h (h.startAddr + extent Cell.span l₁) p).2
        (l₁ ++ m ++ c :: l₂) ∧
      (splitBlockPrefix h (h.startAddr + extent Cell.span l₁) p).1 = p ∧
      p = h.startAddr + extent Cell.span (l₁ ++ m) ∧ Spare m ∧ c.magic = heapMagic ∧
      c.isFree = true ∧ p + c.span = h.startAddr + extent Cell.span l₁ + b.span := by
  rw [Heap.splitBlockPrefix]
  have hhead : headSize = 40 := rfl
  split
  · rename_i he
    subst p
    refine ⟨[], b, ?_, rfl, ?_, .nothing, hm, hb, rfl⟩
    · simpa using hs
    · simp
  · rename_i hne
    have hsplit := hs.splitAt (s := p - (h.startAddr + extent Cell.span l₁) - headSize) (by omega)
    generalize ht : p - (h.startAddr + extent Cell.span l₁) - headSize = t at hsplit ⊢
    refine ⟨[{ b with size := t }], freeCell (b.size - t - headSize), ?_, rfl, ?_,
      .block hm hb, rfl, rfl, ?_⟩
    · rw [List.append_assoc, List.singleton_append]
      exact hsplit
    · rw [extent_snoc, Cell.span]
      simp only
      omega
    · simp only [Cell.span, freeCell]
      omega

theorem Shape.splitBlock (hs : Shape h (l₁ ++ b :: l₂)) (hle : s ≤ b.size) :
    ∃ t m, Shape (splitBlock h (h.startAddr + extent Cell.span l₁) s)
        (l₁ ++ { b with size := t } :: (m ++ l₂)) ∧ Spare m ∧ s ≤ t ∧ t ≤ b.size := by
  rw [Heap.splitBlock, hs.size_eq]
  split
  · exact ⟨b.size, [], hs, .nothing, hle, le_rfl⟩
  · rename_i hlt
    have hmin : heapMinBlock = 16 := rfl
    exact ⟨s, [_], hs.splitAt (by omega), .block rfl rfl, le_rfl, hle⟩

theorem splitBlock_frame (h : Heap) (a s : Nat) : (splitBlock h a s).frame = h.frame := by
  rw [splitBlock]
  split
  · rfl
  · exact splitAt_frame h a s

theorem splitBlockPrefix_frame (h : Heap) (a p : Nat) :
    (splitBlockPrefix h a p).2.frame = h.frame := by
  rw [splitBlockPrefix]
  split
  · rfl
  · exact splitAt_frame h a _

/-- The last block and the heap change their end together. -/
theorem Shape.resizeLast (hs : Shape h (l ++ [b])) (hst : h'.startAddr = h.startAddr)
    (he : h'.endAddr = h.startAddr + extent Cell.span l + (headSize + s))
    (hf : h'.freeList = h.freeList) (hn : ∀ x, h'.next x = h.next x)
    (hp : ∀ x, h'.prev x = h.prev x)
    (hc : ∀ x, h'.cells x =
      if x = h.startAddr + extent Cell.span l then { h.cells x with size := s } else h.cells x) :
    Shape h' (l ++ [{ b with size := s }]) := by
  have hstarts : starts Cell.span h.startAddr (l ++ [{ b with size := s }]) =
      starts Cell.span h.startAddr (l ++ [b]) := by
    rw [starts_append, starts_append, starts_cons, starts_cons, starts_nil, starts_nil]
  have hcell := hs.cell_eq
  have htiles := (tiles_append.1 hs.tiles).1
  refine ⟨?_, ?_, ?_, ?_⟩
  · rw [hst, tiles_append]
    refine ⟨htiles.congr ?_, ?_, trivial⟩
    · intro x hx
      rw [hc, if_neg (Nat.ne_of_lt (mem_starts_bounds hx).2)]
    · rw [hc, if_pos rfl, hcell]
  · rw [hst, he, extent_snoc]
    rfl
  · rw [hst, hstarts]
    exact hs.seg.congr (fun x _ => hn x) fun x _ => hp x
  · rw [hst, hf, hstarts]
    exact hs.head

/-- The last block goes and its start is the new end. -/
theorem Shape.dropLast (hs : Shape h (l ++ [b])) (hst : h'.startAddr = h.startAddr)
    (he : h'.endAddr = h.startAddr + extent Cell.span l)
    (hf : h'.freeList =
      if h.prev (h.startAddr + extent Cell.span l) = none then none else h.freeList)
    (hn : ∀ x, h'.next x =
      if h.prev (h.startAddr + extent Cell.span l) = some x then none else h.next x)
    (hp : ∀ x, h'.prev x = h.prev x) (hc : ∀ x, h'.cells x = h.cells x) : Shape h' l := by
  have hprev := hs.prev_eq
  have hseg := hs.seg
  have hhead := hs.head
  have hnext := hs.next_eq
  have hnd : (starts Cell.span h.startAddr (l ++ [b])).Nodup := starts_nodup
  rw [starts_append, starts_cons, starts_nil] at hseg hhead hnd
  rw [starts_nil, List.head?_nil] at hnext
  refine ⟨?_, ?_, ?_, ?_⟩
  · rw [hst]
    exact (tiles_append.1 hs.tiles).1.congr fun x _ => hc x
  · rw [hst, he]
  · have hrem : Seg h'.next h'.prev none (starts Cell.span h.startAddr l ++ []) none := by
      apply hseg.remove hnd
      · intro x _
        rw [hn, hnext]
      · intro x _
        rw [hp, hnext, if_neg (by simp)]
    rw [hst]
    simpa using hrem
  · rw [hst, hf, hprev, hhead]
    cases starts Cell.span h.startAddr l with
    | nil => rfl
    | cons y k =>
      rw [if_neg (by simp)]
      rfl

/-- A free block is linked in behind the last one and takes the heap to its new end. -/
theorem Shape.snoc (hs : Shape h l) (hst : h'.startAddr = h.startAddr)
    (he : h'.endAddr = h.endAddr + (headSize + s))
    (hf : h'.freeList = h.freeList.or (some h.endAddr))
    (hx : h'.block h.endAddr = freshBlock s none (starts Cell.span h.startAddr l).getLast?)
    (hn : ∀ x < h.endAddr, h'.next x =
      if (starts Cell.span h.startAddr l).getLast? = some x then some h.endAddr else h.next x)
    (hp : ∀ x < h.endAddr, h'.prev x = h.prev x)
    (hc : ∀ x < h.endAddr, h'.cells x = h.cells x) : Shape h' (l ++ [freeCell s]) := by
  have hlt : ∀ x ∈ starts Cell.span h.startAddr l, x < h.endAddr := by
    intro x hx
    rw [← hs.full]
    exact (mem_starts_bounds hx).2
  refine ⟨?_, ?_, ?_, ?_⟩
  · rw [hst, tiles_append, hs.full]
    refine ⟨hs.tiles.congr fun x hx => hc x (hlt x hx), ?_, trivial⟩
    rw [Heap.cells, hx]
    rfl
  · rw [hst, he, extent_snoc, hs.full]
    rfl
  · rw [hst, starts_append, starts_cons, starts_nil, hs.full]
    apply hs.seg.snoc
    · rw [Heap.prev, hx]
      rfl
    · rw [Heap.next, hx]
      rfl
    · intro x hx
      exact hn x (hlt x hx)
    · intro x hx
      exact hp x (hlt x hx)
    · exact starts_nodup
  · rw [hst, hf, hs.head, starts_append, starts_cons, starts_nil, hs.full]
    cases starts Cell.span h.startAddr l with
    | nil => rfl
    | cons y k => rfl

theorem Shape.length_le (hs : Shape h l) : h.startAddr + headSize * l.length ≤ h.endAddr := by
  have hfull := hs.full
  have hlen : headSize * l.length ≤ extent Cell.span l := by
    clear hs hfull
    induction l with
    | nil => simp
    | cons c l ih =>
      rw [List.length_cons, Nat.mul_succ, extent_cons, Cell.span]
      omega
  omega

theorem lastBelow_seg (hs : Seg h.next h.prev q as none) (hlt : ∀ x ∈ as, x < a)
    (hf : as.length < fuel) (p : Option Nat) :
    lastBelow h a fuel p as.head? = as.getLast?.or p := by
  induction as generalizing p q fuel with
  | nil =>
    cases fuel with
    | zero => simp at hf
    | succ fuel => rfl
  | cons x as ih =>
    cases fuel with
    | zero => simp at hf
    | succ fuel =>
      obtain ⟨-, hn, ht⟩ := hs
      rw [List.head?_cons, lastBelow, if_pos (hlt x List.mem_cons_self), hn, Option.or_none,
        getLast?_cons_or]
      apply ih ht
      · intro y hy
        exact hlt y (List.mem_cons_of_mem _ hy)
      · simpa using hf

end Lebirun.Heap
