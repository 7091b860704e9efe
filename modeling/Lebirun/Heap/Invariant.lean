import Mathlib
import Lebirun.Heap.Blocks

namespace Lebirun.Heap
set_option autoImplicit true

open Linked Tiling

variable {h h' : Heap} {l l₁ l₂ m : List Cell} {b c d u : Cell} {a p s : Nat}

/-- The fields of the heap that say where it lies. -/
structure Bounds (h : Heap) : Prop where
  start : h.startAddr = heapStart
  max : h.maxAddr = heapVirtualEnd
  aligned : pageSize ∣ h.endAddr
  bound : h.endAddr ≤ h.maxAddr
  total : h.totalSize = h.endAddr - h.startAddr

structure HeapOk (h : Heap) (l : List Cell) : Prop where
  shape : Shape h l
  good : Good l
  bounds : Bounds h
  used : h.usedSize = extent Cell.used l

theorem Bounds.congr (hb : Bounds h) (hf : h'.frame = h.frame) : Bounds h' := by
  simp only [Heap.frame, Prod.mk.injEq] at hf
  obtain ⟨hs, he, hm, -, ht, -⟩ := hf
  refine ⟨?_, ?_, ?_, ?_, ?_⟩
  · rw [hs, hb.start]
  · rw [hm, hb.max]
  · rw [he]
    exact hb.aligned
  · rw [he, hm]
    exact hb.bound
  · rw [ht, he, hs, hb.total]

theorem Bounds.setUsed (hb : Bounds h) (u : Nat) : Bounds { h with usedSize := u } :=
  ⟨hb.start, hb.max, hb.aligned, hb.bound, hb.total⟩

theorem Bounds.setEnd (hb : Bounds h) (e : Nat) (ha : pageSize ∣ e) (he : e ≤ h.maxAddr) :
    Bounds { h with endAddr := e, totalSize := e - h.startAddr } :=
  ⟨hb.start, hb.max, ha, he, rfl⟩

theorem usedSize_of_frame (hf : h'.frame = h.frame) : h'.usedSize = h.usedSize := by
  simp only [Heap.frame, Prod.mk.injEq] at hf
  exact hf.2.2.2.2.2

theorem startAddr_of_frame (hf : h'.frame = h.frame) : h'.startAddr = h.startAddr := by
  simp only [Heap.frame, Prod.mk.injEq] at hf
  exact hf.1

theorem Shape.setUsed (hs : Shape h l) (u : Nat) : Shape { h with usedSize := u } l :=
  hs.counters h.totalSize u

theorem heapInit_ok (block : Nat → HeapBlock) : HeapOk (heapInit block) [] := by
  have hd : pageSize ∣ heapStart := by decide
  have hle : heapStart ≤ heapVirtualEnd := by decide
  exact ⟨⟨trivial, Nat.add_zero _, trivial, rfl⟩, ⟨List.IsChain.nil, fun _ hc => nomatch hc⟩,
    ⟨rfl, rfl, hd, hle, (Nat.sub_self _).symm⟩, rfl⟩

/-- The list has fewer blocks than the loops have fuel. -/
theorem HeapOk.length_lt (hok : HeapOk h l) : (starts Cell.span h.startAddr l).length < heapFuel := by
  have hle := hok.shape.length_le
  have hb := hok.bounds.bound
  rw [hok.bounds.start, hok.bounds.max] at *
  rw [length_starts]
  simp only [heapFuel, heapStart, headSize, heapVirtualEnd] at *
  omega

section Search

theorem freeBlockEndingAt_congr (hb : h'.block = h.block) (hf : h'.freeList = h.freeList)
    (limit : Nat) : freeBlockEndingAt h' limit = freeBlockEndingAt h limit := by
  have hn : h'.next = h.next := by
    funext x
    rw [Heap.next, Heap.next, hb]
  have he : h'.blockEnd = h.blockEnd := by
    funext x
    rw [Heap.blockEnd, Heap.blockEnd, hb]
  simp only [freeBlockEndingAt, hn, he, hb, hf]

/-- The loop finds the block that ends at `limit` if it is free. -/
theorem freeBlockEndingAt_some (hok : HeapOk h l) (hf : freeBlockEndingAt h h.endAddr = some a) :
    ∃ l₁ b, l = l₁ ++ [b] ∧ a = h.startAddr + extent Cell.span l₁ ∧ b.isFree = true := by
  have hs := hok.shape
  rw [freeBlockEndingAt, hs.head] at hf
  obtain ⟨hm, ht⟩ := search_mem hs.seg hf
  obtain ⟨l₁, b, l₂, rfl, rfl⟩ := mem_starts.1 hm
  rw [hs.isFree_eq, hs.blockEnd_eq, Bool.and_eq_true, beq_iff_eq] at ht
  obtain ⟨hfree, hend⟩ := ht
  have hfull := hs.full
  rw [extent_append, extent_cons] at hfull
  cases l₂ with
  | nil => exact ⟨l₁, b, rfl, rfl, hfree⟩
  | cons c l₂ =>
    have hc := c.span_pos
    rw [extent_cons] at hfull
    omega

theorem le_alignUp (x : Nat) : x ≤ alignUp x := by
  simp only [alignUp, pageSize]
  omega

theorem dvd_alignUp (x : Nat) : pageSize ∣ alignUp x := Nat.dvd_mul_left _ _

theorem alignUp_le (hd : pageSize ∣ a) (hle : p ≤ a) : alignUp p ≤ a := by
  obtain ⟨k, rfl⟩ := hd
  simp only [alignUp, pageSize] at *
  omega

theorem placementIn_cases (a s : Nat) :
    placementIn a s = a ∨ a + (headSize + heapMinBlock) ≤ placementIn a s := by
  have hge := le_alignUp (a + headSize)
  -- the adjustment of a prefix too small for a block
  have hadjust : ∀ q, q = a ∨ a + headSize ≤ q →
      (if q - a ≠ 0 ∧ q - a < headSize + heapMinBlock then q + pageSize else q) = a ∨
        a + (headSize + heapMinBlock) ≤
          if q - a ≠ 0 ∧ q - a < headSize + heapMinBlock then q + pageSize else q := by
    intro q hq
    have hhead : headSize = 40 := rfl
    have hmin : heapMinBlock = 16 := rfl
    have hpage : pageSize = 4096 := rfl
    split
    · right
      omega
    · omega
  apply hadjust
  split
  · exact .inr hge
  · split
    · exact .inr hge
    · exact .inl rfl

theorem candidate_some (hc : h.candidate unc s a = some r) :
    r.block = a ∧ r.placement = placementIn a s ∧ (h.block a).isFree = true ∧
      placementIn a s + headSize + s ≤ h.blockEnd a := by
  rw [Heap.candidate] at hc
  split at hc
  · rename_i hf
    dsimp only at hc
    split at hc
    · cases hc
    · rename_i hle
      cases hc
      exact ⟨rfl, rfl, hf.1, Nat.not_lt.1 hle⟩
  · cases hc

/-- Whatever the ranking, the block chosen is one of the list. -/
theorem findBestFitFrom_some (hs : Seg h.next h.prev q as none)
    (hf : findBestFitFrom h unc s fuel as.head? best = some r) :
    best = some r ∨ ∃ a ∈ as, h.candidate unc s a = some r := by
  induction as generalizing q fuel best with
  | nil =>
    cases fuel with
    | zero => exact .inl hf
    | succ fuel => exact .inl hf
  | cons x as ih =>
    cases fuel with
    | zero => exact .inl hf
    | succ fuel =>
      obtain ⟨-, hn, ht⟩ := hs
      rw [Option.or_none] at hn
      rw [List.head?_cons, findBestFitFrom, hn] at hf
      have hlift : ∀ best', findBestFitFrom h unc s fuel as.head? best' = some r →
          best' = some r ∨ ∃ a ∈ x :: as, h.candidate unc s a = some r := by
        intro best' hr
        rcases ih ht hr with hr | ⟨y, hy, hc⟩
        · exact .inl hr
        · exact .inr ⟨y, List.mem_cons_of_mem _ hy, hc⟩
      split at hf
      · cases hf
      · split at hf
        · exact hlift best hf
        · rename_i c hc
          split at hf
          · split at hf
            · cases hf
              exact .inr ⟨x, List.mem_cons_self, hc⟩
            · rcases hlift (some c) hf with he | hr
              · cases he
                exact .inr ⟨x, List.mem_cons_self, hc⟩
              · exact .inr hr
          · exact hlift best hf

theorem findBestFit_some (hok : HeapOk h l) (hf : findBestFit h unc s = some (a, p)) :
    ∃ l₁ b l₂, l = l₁ ++ b :: l₂ ∧ a = h.startAddr + extent Cell.span l₁ ∧ b.isFree = true ∧
      (p = a ∨ a + (headSize + heapMinBlock) ≤ p) ∧ p + headSize + s ≤ a + b.span := by
  have hs := hok.shape
  rw [findBestFit, Option.map_eq_some_iff] at hf
  obtain ⟨r, hr, he⟩ := hf
  rw [hs.head] at hr
  rcases findBestFitFrom_some hs.seg hr with hn | ⟨x, hx, hc⟩
  · cases hn
  · obtain ⟨l₁, b, l₂, rfl, rfl⟩ := mem_starts.1 hx
    obtain ⟨hb, hp, hfree, hle⟩ := candidate_some hc
    rw [hb, hp] at he
    cases he
    rw [hs.isFree_eq] at hfree
    rw [hs.blockEnd_eq] at hle
    exact ⟨l₁, b, l₂, rfl, rfl, hfree, placementIn_cases _ _, hle⟩

end Search

end Lebirun.Heap
