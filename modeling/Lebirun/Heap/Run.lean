import Mathlib
import Lebirun.Lib.Run
import Lebirun.Heap.Preserve

namespace Lebirun.Heap
set_option autoImplicit true

open Linked Tiling Machine

/-- The blocks the list leads to. -/
inductive OnList (h : Heap) : Nat → Prop
  | first (hf : h.freeList = some a) : OnList h a
  | next (ha : OnList h a) (hn : h.next a = some b) : OnList h b

variable {h h' : Heap} {l l₁ l₂ m : List Cell} {b c d u : Cell} {a p s : Nat}

theorem OnList.split (hs : Shape h l) (ha : OnList h a) :
    ∃ l₁ b l₂, l = l₁ ++ b :: l₂ ∧ a = h.startAddr + extent Cell.span l₁ := by
  apply mem_starts.1
  induction ha with
  | first hf =>
    rw [hs.head] at hf
    exact List.mem_of_head? hf
  | next _ hn ih => exact hs.seg.next_mem ih hn

theorem release_onList_ok (hok : HeapOk h l) (ha : OnList h a)
    (hused : (h.block a).isFree = false) : ∃ l', HeapOk (releaseBlock h a) l' := by
  obtain ⟨l₁, b, l₂, rfl, rfl⟩ := ha.split hok.shape
  rw [hok.shape.isFree_eq] at hused
  exact releaseBlock_ok hok hused

theorem kfreeInternal_ok (hok : HeapOk h l)
    (ha : (h.block (blockOfPtr ptr)).magic = heapMagic → OnList h (blockOfPtr ptr))
    (canaries : Bool) : ∃ l', HeapOk (kfreeInternal h ptr canaries) l' := by
  rw [kfreeInternal]
  split
  · exact ⟨l, hok⟩
  · split
    · exact ⟨l, hok⟩
    · rename_i hmagic
      split
      · exact ⟨l, hok⟩
      · rename_i hfree
        split
        · exact ⟨l, hok⟩
        · exact release_onList_ok hok (ha (not_not.1 hmagic)) (by simpa using hfree)

theorem kfreeSecure_ok (hok : HeapOk h l)
    (ha : (h.block (blockOfPtr ptr)).magic = heapMagic → OnList h (blockOfPtr ptr))
    (canaries : Bool) : ∃ l', HeapOk (kfreeSecure h ptr canaries) l' := by
  rw [kfreeSecure]
  split
  · exact ⟨l, hok⟩
  · rename_i hmagic
    split
    · exact ⟨l, hok⟩
    · rename_i hfree
      split
      · exact ⟨l, hok⟩
      · exact release_onList_ok hok (ha (not_not.1 hmagic)) (by simpa using hfree)

/-- A used block's `alloc_size` is set. -/
theorem setAlloc_ok (hs : Shape h (l₁ ++ b :: l₂)) (hb : Bounds h)
    (hu : h.usedSize = extent Cell.used l₁ + (headSize + b.size) + extent Cell.used l₂)
    (hg₁ : Good l₁) (hg₂ : Good l₂) (hm : b.magic = heapMagic) (hused : b.isFree = false)
    (ha : a = h.startAddr + extent Cell.span l₁) (hn : n + canaryOverhead ≤ b.size) :
    ∃ l', HeapOk (h.modify a fun b => { b with allocSize := n }) l' := by
  subst a
  have hcell := hs.cell_eq
  have hs' := hs.modify (c := { b with allocSize := n }) (fun b => { b with allocSize := n })
    (fun _ => rfl) (fun _ => rfl)
    (by
      rw [← hcell]
      rfl) rfl
  refine ⟨_, hs', Good.append_used hused ⟨hm, fun _ => hn⟩ hg₁ hg₂, hb.congr rfl, ?_⟩
  have hbu : ({ b with allocSize := n } : Cell).used = headSize + b.size :=
    if_neg (by simp [hused])
  rw [extent_append, extent_cons, hbu, ← Nat.add_assoc]
  exact hu

/-- The remainder cut off a used block is merged with the free block behind it only. -/
theorem Shape.coalesce_behind (hs : Shape h (l₁ ++ u :: c :: l₂)) (hu : u.isFree = false) :
    Shape (coalesceFreeBlocks h (h.startAddr + extent Cell.span (l₁ ++ [u])))
      (l₁ ++ u :: mergeNext c l₂) := by
  have hn := hs.reassoc.coalesceNext
  have hst := startAddr_of_frame (coalesceNext_frame h (h.startAddr + extent Cell.span (l₁ ++ [u])))
  rw [coalesceFreeBlocks]
  generalize Heap.coalesceNext h (h.startAddr + extent Cell.span (l₁ ++ [u])) = k at *
  obtain ⟨t, l', hl'⟩ := mergeNext_eq c l₂
  rw [hl', List.append_assoc, List.singleton_append] at hn
  have hp := hn.coalescePrev_snoc
  rw [if_neg (by simp [hu]), hst] at hp
  rw [hl']
  exact hp

/-- A used block gives its tail back. -/
theorem shrink_ok (hok : HeapOk h (l₁ ++ b :: l₂)) (hb : b.isFree = false)
    (ha : a = h.startAddr + extent Cell.span l₁) (hn : n + canaryOverhead ≤ size)
    (hbig : size + headSize + heapMinBlock ≤ b.size)
    (hk : k = { splitBlock h a size with
      usedSize := (splitBlock h a size).usedSize -
        (b.size - ((splitBlock h a size).block a).size) }) :
    ∃ l', HeapOk
      ((match k.next a with
        | some r => if (k.block r).isFree then coalesceFreeBlocks k r else k
        | none => k).modify a fun b => { b with allocSize := n }) l' := by
  have hsz := hok.shape.size_eq
  have hspl := hok.shape.splitAt (s := size) (by omega)
  have hframe := splitBlock_frame h a size
  rw [← ha] at hsz hspl
  rw [splitBlock, hsz, if_neg (by omega)] at hk hframe
  have hst := startAddr_of_frame hframe
  have hu := usedSize_of_frame hframe
  generalize Heap.splitAt h a size = g at *
  have hsz' := hspl.size_eq
  rw [hst, ← ha] at hsz'
  have hks := hspl.setUsed (g.usedSize - (b.size - size))
  have hkb := (hok.bounds.congr hframe).setUsed (g.usedSize - (b.size - size))
  rw [hsz'] at hk
  rw [← hk] at hks hkb
  have hkst : k.startAddr = h.startAddr := by rw [hk, ← hst]
  have hku : k.usedSize = h.usedSize - (b.size - size) := by rw [hk, ← hu]
  have hnext := hks.next_eq
  have hfree := hks.reassoc.isFree_eq
  have hco := hks.coalesce_behind hb
  rw [extent_snoc] at hfree hco
  rw [hkst, ← ha] at hnext hfree hco
  rw [hnext, starts_cons, List.head?_cons]
  dsimp only at hfree ⊢
  rw [hfree, freeCell, if_pos rfl]
  rw [freeCell] at hco
  have hframe' := coalesceFreeBlocks_frame k (a + Cell.span { b with size := size })
  obtain ⟨hg₁, hg₂⟩ := hok.good.around_used hb
  refine setAlloc_ok hco (hkb.congr hframe') ?_ hg₁ (good_mergeNext rfl rfl hg₂)
    (hok.good.ok b (by simp)).magic hb ?_ hn
  · have huse := hok.used
    have hbu : b.used = headSize + b.size := if_neg (by simp [hb])
    rw [extent_append, extent_cons, hbu] at huse
    rw [usedSize_of_frame hframe', hku, used_mergeNext rfl]
    simp only
    omega
  · rw [startAddr_of_frame hframe', hkst, ha]

/-- A used block takes what it needs of the free one behind it. -/
theorem grow_ok (hok : HeapOk h (l₁ ++ b :: c :: l₂)) (hb : b.isFree = false)
    (hc : c.isFree = true) (ha : a = h.startAddr + extent Cell.span l₁)
    (hn : n + canaryOverhead ≤ size) (hle : size ≤ b.size + headSize + c.size)
    (hlt : b.size < size)
    (hk : k = splitBlock (absorb h a (a + b.span) 0xDEAD0003) a size) :
    ∃ l', HeapOk
      (Heap.modify { k with usedSize := k.usedSize + ((k.block a).size - b.size) } a
        fun b => { b with allocSize := n }) l' := by
  have hframe := absorb_frame h a (a + b.span) 0xDEAD0003
  have hs₁ := hok.shape.absorb 0xDEAD0003
  rw [← ha] at hs₁
  have hst := startAddr_of_frame hframe
  obtain ⟨t, m, hs₂, hspare, hge, hle'⟩ := hs₁.splitBlock (s := size) (by
    simp only
    omega)
  rw [hst, ← ha, ← hk] at hs₂
  have hframe₂ : k.frame = h.frame := by
    rw [hk, splitBlock_frame, hframe]
  have hst₂ := startAddr_of_frame hframe₂
  have hsz := hs₂.size_eq
  rw [hst₂, ← ha] at hsz
  obtain ⟨hg₁, hg₂⟩ := hok.good.around_used hb
  refine setAlloc_ok (hs₂.setUsed _) ((hok.bounds.congr hframe₂).setUsed _) ?_ hg₁
    (hspare.good_right hg₂ hc) (hok.good.ok b (by simp)).magic hb ?_ (hn.trans hge)
  · have huse := hok.used
    have hbu : b.used = headSize + b.size := if_neg (by simp [hb])
    have hcu : c.used = 0 := if_pos hc
    rw [extent_append, extent_cons, extent_cons, hbu, hcu] at huse
    rw [usedSize_of_frame hframe₂, hsz, extent_append, hspare.used]
    simp only
    omega
  · exact ha.trans (by rw [hst₂])

theorem krealloc_inPlace_ok (hok : HeapOk h l) (ha : OnList h (blockOfPtr ptr))
    (hused : (h.block (blockOfPtr ptr)).isFree = false) (n : Nat) (span : Bool)
    (hr : kreallocInPlace h ptr n span = some h') : ∃ l', HeapOk h' l' := by
  have hround := le_roundup8 (n + canaryOverhead)
  have hcan : canaryOverhead = 12 := rfl
  have hhead : headSize = 40 := rfl
  have hmin : heapMinBlock = 16 := rfl
  rw [kreallocInPlace] at hr
  generalize hx : blockOfPtr ptr = x at *
  obtain ⟨l₁, b, l₂, rfl, hat⟩ := ha.split hok.shape
  have hsz := hok.shape.size_eq
  have hcell := hok.shape.cell_eq
  have hnext := hok.shape.next_eq
  have hb := hok.shape.isFree_eq
  have hend := hok.shape.blockEnd_eq
  have hbok := hok.good.ok b (by simp)
  rw [← hat] at hsz hcell hnext hb hend
  rw [hused] at hb
  have hb := hb.symm
  have halloc : (h.block x).allocSize = b.allocSize := congrArg Cell.allocSize hcell
  have hfits := hbok.fits hb
  have hbu : b.used = headSize + b.size := if_neg (by simp [hb])
  have huse := hok.used
  rw [extent_append, extent_cons, hbu] at huse
  obtain ⟨hg₁, hg₂⟩ := hok.good.around_used hb
  rw [Nat.add_assoc, Nat.add_comm] at huse
  have hset : n + canaryOverhead ≤ b.size →
      ∃ l', HeapOk (h.modify x fun b => { b with allocSize := n }) l' := by
    intro hle
    exact setAlloc_ok hok.shape hok.bounds (by omega) hg₁ hg₂ hbok.magic hb hat hle
  generalize roundup8 (n + canaryOverhead) = size at *
  dsimp only at hr
  rw [halloc, hsz] at hr
  split at hr
  · rename_i hshrink
    cases hr
    split
    · rename_i hbig
      exact shrink_ok hok hb hat hround hbig rfl
    · exact hset (by omega)
  · split at hr
    · rename_i hle
      cases hr
      exact hset (by omega)
    · rename_i hgt
      have hn : (h.block x).next = h.next x := rfl
      rw [hn, hnext] at hr
      cases l₂ with
      | nil => cases hr
      | cons c l₂ =>
        have hszc := hok.shape.reassoc.size_eq
        have hfree := hok.shape.reassoc.isFree_eq
        rw [extent_snoc, ← hat] at hszc hfree
        rw [starts_cons, List.head?_cons] at hr
        dsimp only at hr
        rw [hszc, hfree, hend] at hr
        split at hr
        · rename_i hcond
          cases hr
          exact grow_ok hok hb hcond.1 hat hround hcond.2.2.2.2.1 (by omega) rfl
        · cases hr

theorem mem_usedStarts {x : Nat} :
    x ∈ usedStarts a l ↔
      ∃ l₁ b l₂, l = l₁ ++ b :: l₂ ∧ x = a + extent Cell.span l₁ ∧ b.isFree = false := by
  constructor
  · intro hx
    induction l generalizing a with
    | nil => cases hx
    | cons c l ih =>
      rw [usedStarts] at hx
      have hrest : x ∈ usedStarts (a + c.span) l →
          ∃ l₁ b l₂, c :: l = l₁ ++ b :: l₂ ∧ x = a + extent Cell.span l₁ ∧ b.isFree = false := by
        intro hx
        obtain ⟨l₁, b, l₂, rfl, rfl, hb⟩ := ih hx
        exact ⟨c :: l₁, b, l₂, rfl, by rw [extent_cons, Nat.add_assoc], hb⟩
      split at hx
      · exact hrest hx
      · rename_i hc
        rcases List.mem_cons.1 hx with rfl | hx
        · exact ⟨[], c, l, rfl, rfl, by simpa using hc⟩
        · exact hrest hx
  · intro hx
    obtain ⟨l₁, b, l₂, rfl, rfl, hb⟩ := hx
    rw [usedStarts_append, usedStarts_used hb]
    exact List.mem_append_right _ List.mem_cons_self

/-- A used block of the list, as the list of cells shows it. -/
theorem OnList.mem_usedStarts (hs : Shape h l) (ha : OnList h a)
    (hused : (h.block a).isFree = false) : a ∈ usedStarts h.startAddr l := by
  obtain ⟨l₁, b, l₂, rfl, rfl⟩ := ha.split hs
  rw [hs.isFree_eq] at hused
  exact Heap.mem_usedStarts.2 ⟨l₁, b, l₂, rfl, rfl, hused⟩

/-- The old block of a `krealloc` that has to move is still used when it is freed. -/
theorem kfree_moved_ok (hok : HeapOk h l) (ha : blockOfPtr ptr ∈ usedStarts h.startAddr l)
    (canaries : Bool) : ∃ l', HeapOk (kfreeInternal h ptr canaries) l' := by
  obtain ⟨l₁, b, l₂, rfl, hat, hb⟩ := mem_usedStarts.1 ha
  rw [kfreeInternal, hat]
  split
  · exact ⟨_, hok⟩
  · split
    · exact ⟨_, hok⟩
    · split
      · exact ⟨_, hok⟩
      · split
        · exact ⟨_, hok⟩
        · exact releaseBlock_ok hok hb

theorem krealloc_ok (hok : HeapOk h l)
    (ha : (h.block (blockOfPtr ptr)).magic = heapMagic →
      OnList h (blockOfPtr ptr) ∧ (h.block (blockOfPtr ptr)).isFree = false)
    (n : Nat) (env : ReallocEnv) : ∃ l', HeapOk (krealloc h ptr n env).2 l' := by
  rw [krealloc]
  split
  · exact ⟨l, hok⟩
  · rename_i hmagic
    obtain ⟨hon, hused⟩ := ha (not_not.1 hmagic)
    have hmem := hon.mem_usedStarts hok.shape hused
    split
    · exact ⟨l, hok⟩
    · split
      · rename_i h₁ hr
        exact krealloc_inPlace_ok hok hon hused n env.span hr
      · split
        · exact kfree_moved_ok hok hmem _
        · obtain ⟨l', hok', hext⟩ := kmallocInternal_ok hok n env.malloc
          split
          · rename_i h₁ hm
            rw [hm] at hok'
            exact ⟨l', hok'⟩
          · rename_i q h₁ hm
            rw [hm] at hok'
            apply kfree_moved_ok hok'
            rw [hok'.bounds.start, ← hok.bounds.start]
            exact hext _ hmem

theorem heapTrimCandidate_some (hok : HeapOk h l)
    (ht : heapTrimCandidate h = some (last, e, remove)) :
    ∃ m b, l = m ++ [b] ∧ b.isFree = true ∧ last = h.startAddr + extent Cell.span m ∧
      pageSize ∣ e ∧ e ≤ h.endAddr ∧
      ((remove = true ∧ e = last) ∨ (remove = false ∧ last + headSize < e)) := by
  rw [heapTrimCandidate] at ht
  split at ht
  · cases ht
  · rename_i x hx
    obtain ⟨m, b, rfl, rfl, hb⟩ := freeBlockEndingAt_some hok hx
    refine ⟨m, b, rfl, hb, ?_⟩
    have hfull := hok.shape.full
    rw [extent_snoc] at hfull
    split at ht
    · rename_i hmod
      cases ht
      exact ⟨rfl, Nat.dvd_of_mod_eq_zero hmod, by omega, .inl ⟨rfl, rfl⟩⟩
    · dsimp only at ht
      split at ht
      · cases ht
      · rename_i hge
        split at ht
        · cases ht
        · rename_i hgt
          cases ht
          exact ⟨rfl, dvd_alignUp _, by omega, .inr ⟨rfl, by omega⟩⟩

theorem dropLast_ok (hok : HeapOk h (l ++ [b])) (hb : b.isFree = true)
    (ha : a = h.startAddr + extent Cell.span l) (hd : pageSize ∣ a) (hle : a ≤ h.maxAddr)
    (hk : k = match h.prev a with
      | some p => h.modify p fun b => { b with next := none }
      | none => { h with freeList := none })
    (hh : h' = { k with endAddr := a, totalSize := a - h.startAddr }) : HeapOk h' l := by
  have hused := hok.used
  have hbu : b.used = 0 := if_pos hb
  rw [extent_append, extent_cons, hbu] at hused
  have hkeep : k.startAddr = h.startAddr ∧ k.maxAddr = h.maxAddr ∧ k.usedSize = h.usedSize ∧
      k.freeList = (if h.prev a = none then none else h.freeList) ∧
      (∀ x, k.next x = if h.prev a = some x then none else h.next x) ∧
      (∀ x, k.prev x = h.prev x) ∧ ∀ x, k.cells x = h.cells x := by
    cases hp : h.prev a with
    | none =>
      rw [hp] at hk
      subst k
      exact ⟨rfl, rfl, rfl, rfl, fun _ => rfl, fun _ => rfl, fun _ => rfl⟩
    | some p =>
      rw [hp] at hk
      subst k
      refine ⟨rfl, rfl, rfl, rfl, ?_, ?_, ?_⟩
      · intro x
        rw [modify_next]
        simp only [Option.some.injEq, eq_comm]
      · intro x
        rw [modify_prev_keep (by simp)]
      · intro x
        rw [modify_cells]
        split
        · subst x
          rfl
        · rfl
  obtain ⟨hst, hmx, hus, hfl, hn, hp, hc⟩ := hkeep
  subst hh
  refine ⟨?_, hok.good.left, ⟨hst.trans hok.bounds.start, hmx.trans hok.bounds.max, hd, ?_, ?_⟩, ?_⟩
  · subst ha
    exact hok.shape.dropLast hst rfl hfl hn hp hc
  · exact hle.trans (Nat.le_of_eq hmx.symm)
  · exact congrArg (a - ·) hst.symm
  · exact hus.trans hused

theorem heapReclaimUnused_ok (hok : HeapOk h l) (batch flushed : Bool) :
    ∃ l', HeapOk (heapReclaimUnused h batch flushed) l' := by
  rw [heapReclaimUnused]
  split
  · exact ⟨l, hok⟩
  · split
    · exact ⟨l, hok⟩
    · split
      · exact ⟨l, hok⟩
      · rename_i last e remove ht
        obtain ⟨m, b, rfl, hb, hlast, hd, hle, hcase⟩ := heapTrimCandidate_some hok ht
        have hmax := hle.trans hok.bounds.bound
        rcases hcase with ⟨hr, he⟩ | ⟨hr, he⟩
        · rw [hr, if_pos rfl]
          subst e
          exact ⟨m, dropLast_ok hok hb hlast hd hmax rfl rfl⟩
        · rw [hr, if_neg (by simp)]
          exact ⟨_, resizeLast_ok (s := e - last - headSize) hok hb (by rw [hlast]) rfl (by omega)
            hd hmax⟩

inductive HeapOp where
  | kmallocInternal (size : Nat) (env : MallocEnv)
  | kfreeInternal (ptr : Nat) (canaries : Bool)
  | kfreeSecure (ptr : Nat) (canaries : Bool)
  | krealloc (ptr newSize : Nat) (env : ReallocEnv)
  | heapReclaimUnused (batch flushed : Bool)

def heapStep (h : Heap) : HeapOp → Heap
  | .kmallocInternal size env => (kmallocInternal h size env).2
  | .kfreeInternal ptr canaries => kfreeInternal h ptr canaries
  | .kfreeSecure ptr canaries => kfreeSecure h ptr canaries
  | .krealloc ptr newSize env => (krealloc h ptr newSize env).2
  | .heapReclaimUnused batch flushed => heapReclaimUnused h batch flushed

/-- What the callers keep to. The sizes are those that pass the overflow checks of `kmalloc`
and `krealloc`. A pointer that is freed may be stale or wild, but no bytes in front of it may
look like a header unless they are one, and `krealloc` is not called on a freed block. -/
def HeapOp.Legal (h : Heap) : HeapOp → Prop
  | .kmallocInternal size _ => size ≤ sizeMax - canaryOverhead - 7
  | .kfreeInternal ptr _ =>
    (h.block (blockOfPtr ptr)).magic = heapMagic → OnList h (blockOfPtr ptr)
  | .kfreeSecure ptr _ =>
    (h.block (blockOfPtr ptr)).magic = heapMagic → OnList h (blockOfPtr ptr)
  | .krealloc ptr newSize _ =>
    newSize ≠ 0 ∧ newSize ≤ sizeMax - canaryOverhead - 7 ∧
      ((h.block (blockOfPtr ptr)).magic = heapMagic →
        OnList h (blockOfPtr ptr) ∧ (h.block (blockOfPtr ptr)).isFree = false)
  | .heapReclaimUnused _ _ => True

theorem heapStep_ok (op : HeapOp) (hok : ∃ l, HeapOk h l) (hl : op.Legal h) :
    ∃ l, HeapOk (heapStep h op) l := by
  obtain ⟨l, hok⟩ := hok
  cases op with
  | kmallocInternal size env =>
    obtain ⟨l', hok', -⟩ := kmallocInternal_ok hok size env
    exact ⟨l', hok'⟩
  | kfreeInternal ptr canaries => exact kfreeInternal_ok hok hl canaries
  | kfreeSecure ptr canaries => exact kfreeSecure_ok hok hl canaries
  | krealloc ptr newSize env => exact krealloc_ok hok hl.2.2 newSize env
  | heapReclaimUnused batch flushed => exact heapReclaimUnused_ok hok batch flushed

/-- The list from `free_list` runs through the blocks at `as`, and they are what the heap
consists of. -/
structure HeapRep (h : Heap) (as : List Nat) : Prop where
  head : h.freeList = as.head?
  linked : Seg h.next h.prev none as none
  ascending : as.Pairwise (· < ·)
  first : ∀ a ∈ as.head?, a = h.startAddr
  adjacent : as.IsChain fun a b => a + headSize + (h.block a).size = b
  last : ∀ a ∈ as.getLast?, a + headSize + (h.block a).size = h.endAddr
  empty : as = [] → h.endAddr = h.startAddr
  separated : as.IsChain fun a b => ¬((h.block a).isFree = true ∧ (h.block b).isFree = true)
  fits : ∀ a ∈ as, (h.block a).isFree = false →
    (h.block a).allocSize + canaryOverhead ≤ (h.block a).size
  aligned : pageSize ∣ h.endAddr
  start_le : h.startAddr ≤ h.endAddr
  le_max : h.endAddr ≤ h.maxAddr
  total : h.totalSize = h.endAddr - h.startAddr
  used : h.usedSize =
    ((as.filter fun a => !(h.block a).isFree).map fun a => (h.block a).size + headSize).sum

theorem chain_adjacent (ht : Tiles Cell.span h.cells a l) :
    (starts Cell.span a l).IsChain fun a b => a + headSize + (h.block a).size = b := by
  induction l generalizing a with
  | nil => exact List.IsChain.nil
  | cons c l ih =>
    obtain ⟨hc, ht⟩ := ht
    have hsz : (h.block a).size = c.size := congrArg Cell.size hc
    rw [starts_cons, List.isChain_cons]
    refine ⟨?_, ih ht⟩
    intro y hy
    cases l with
    | nil => cases hy
    | cons d l =>
      cases hy
      rw [hsz, Cell.span, Nat.add_assoc]

theorem chain_separated (ht : Tiles Cell.span h.cells a l) (hs : Separated l) :
    (starts Cell.span a l).IsChain
      fun a b => ¬((h.block a).isFree = true ∧ (h.block b).isFree = true) := by
  induction l generalizing a with
  | nil => exact List.IsChain.nil
  | cons c l ih =>
    obtain ⟨hc, ht⟩ := ht
    have hcf : (h.block a).isFree = c.isFree := congrArg Cell.isFree hc
    rw [starts_cons, List.isChain_cons]
    refine ⟨?_, ih ht hs.tail⟩
    intro y hy
    cases l with
    | nil => cases hy
    | cons d l =>
      cases hy
      have hdf : (h.block (a + c.span)).isFree = d.isFree := congrArg Cell.isFree ht.1
      rw [hcf, hdf]
      exact (List.isChain_cons_cons.1 hs).1

theorem used_eq_sum (ht : Tiles Cell.span h.cells a l) :
    extent Cell.used l =
      (((starts Cell.span a l).filter fun a => !(h.block a).isFree).map
        fun a => (h.block a).size + headSize).sum := by
  induction l generalizing a with
  | nil => rfl
  | cons c l ih =>
    obtain ⟨hc, ht⟩ := ht
    have hcf : (h.block a).isFree = c.isFree := congrArg Cell.isFree hc
    have hsz : (h.block a).size = c.size := congrArg Cell.size hc
    rw [extent_cons, starts_cons, List.filter_cons, hcf, ih ht, Cell.used]
    cases c.isFree with
    | true => simp
    | false => simp [hsz, Cell.span, Nat.add_comm]

theorem HeapOk.rep (hok : HeapOk h l) : HeapRep h (starts Cell.span h.startAddr l) := by
  have hs := hok.shape
  refine ⟨hs.head, hs.seg, ?_, ?_, chain_adjacent hs.tiles, ?_, ?_,
    chain_separated hs.tiles hok.good.separated, ?_, hok.bounds.aligned, ?_, hok.bounds.bound,
    hok.bounds.total, ?_⟩
  · exact starts_pairwise fun c _ => c.span_pos
  · intro a ha
    cases l with
    | nil => cases ha
    | cons c l =>
      cases ha
      rfl
  · intro a ha
    rcases List.eq_nil_or_concat l with rfl | ⟨m, b, rfl⟩
    · cases ha
    · rw [List.concat_eq_append] at *
      rw [starts_append, starts_cons, starts_nil, List.getLast?_concat] at ha
      cases ha
      rw [← hs.full, extent_snoc, hs.size_eq, Cell.span, Nat.add_assoc _ headSize]
  · intro he
    have hfull := hs.full
    cases l with
    | nil => exact hfull.symm
    | cons c l => cases he
  · intro a ha hf
    obtain ⟨l₁, b, l₂, rfl, rfl⟩ := mem_starts.1 ha
    have hcell := hs.cell_eq
    have hb := (hok.good.ok b (by simp)).fits
    rw [← hcell] at hb
    exact hb hf
  · rw [← hs.full]
    exact Nat.le_add_right _ _
  · rw [hok.used, used_eq_sum hs.tiles]

def heapRun (block : Nat → HeapBlock) (ops : List HeapOp) : Heap :=
  ops.foldl heapStep (heapInit block)

def LegalRun (block : Nat → HeapBlock) (ops : List HeapOp) : Prop :=
  Along heapStep (fun h op => op.Legal h) (heapInit block) ops

/-- In every run from `heap_init`, whatever demand paging answers and whatever the memory held
before, the list keeps the heap in order. -/
theorem heap_run_rep (block : Nat → HeapBlock) (ops : List HeapOp) (hl : LegalRun block ops) :
    ∃ as, HeapRep (heapRun block ops) as := by
  obtain ⟨l, hok⟩ := Along.invariant (I := fun h => ∃ l, HeapOk h l)
    (fun _ op hok hop => heapStep_ok op hok hop) hl ⟨[], heapInit_ok block⟩
  exact ⟨_, hok.rep⟩

/-- Demand paging that never fails. -/
def obliging : MallocEnv := ⟨fun _ _ => 0, fun _ _ => 0, fun _ _ => 0, true, true, true, true, true⟩

/-- A block is allocated, grows where it stands, is freed twice and the heap is trimmed. -/
def growAndFree : List HeapOp :=
  [.kmallocInternal 100 obliging,
    .krealloc (heapStart + 48) 500 ⟨true, true, none, obliging, true⟩,
    .kfreeInternal (heapStart + 48) true, .kfreeInternal (heapStart + 48) true,
    .heapReclaimUnused true true]

theorem growAndFree_rep :
    ∃ as, HeapRep (heapRun (fun _ => freshBlock 0 none none) growAndFree) as := by
  apply heap_run_rep
  have hat : blockOfPtr (heapStart + 48) = heapStart := by decide
  have hsize : 100 ≤ sizeMax - canaryOverhead - 7 := by decide
  refine ⟨hsize, ⟨by decide, by decide, fun _ => ⟨?_, ?_⟩⟩, fun _ => ?_, fun _ => ?_, trivial, trivial⟩
  · rw [hat]
    exact .first (by decide)
  · rw [hat]
    decide
  · rw [hat]
    exact .first (by decide)
  · rw [hat]
    exact .first (by decide)

end Lebirun.Heap
