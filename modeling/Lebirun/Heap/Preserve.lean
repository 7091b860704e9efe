import Mathlib
import Lebirun.Heap.Invariant

namespace Lebirun.Heap
set_option autoImplicit true

open Linked Tiling

variable {h h' : Heap} {l l₁ l₂ m : List Cell} {b c d u : Cell} {a p s : Nat}

theorem Good.around_used (hg : Good (l₁ ++ b :: l₂)) (hb : b.isFree = false) :
    Good l₁ ∧ Good l₂ := by
  have hsep := (separated_used hb).1 hg.separated
  exact ⟨⟨hsep.1, hg.left.ok⟩, hsep.2, hg.right.tail.ok⟩

theorem Good.around (hg : Good (l₁ ++ b :: l₂)) : Good (l₁ ++ [b]) ∧ Good (b :: l₂) := by
  have hsep := separated_split.1 hg.separated
  refine ⟨⟨hsep.1, ?_⟩, hg.right⟩
  intro c hc
  apply hg.ok c
  rcases List.mem_append.1 hc with hc | hc
  · exact List.mem_append_left _ hc
  · rw [List.mem_singleton] at hc
    simp [hc]

/-- The used blocks of `l` are used blocks of `l'`. -/
def Extends (l l' : List Cell) : Prop := ∀ a, usedStarts a l ⊆ usedStarts a l'

theorem Extends.refl (l : List Cell) : Extends l l := fun _ => List.Subset.refl _

theorem Extends.trans (h₁ : Extends l l₁) (h₂ : Extends l₁ l₂) : Extends l l₂ :=
  fun a => List.Subset.trans (h₁ a) (h₂ a)

/-- A free block makes place for other blocks of the same extent. -/
theorem extends_replace (hb : b.isFree = true) (he : extent Cell.span m = b.span) :
    Extends (l₁ ++ b :: l₂) (l₁ ++ m ++ l₂) := by
  intro a
  rw [usedStarts_append, usedStarts_append, usedStarts_append, usedStarts_free hb, extent_append,
    he, ← Nat.add_assoc, List.append_assoc]
  intro x hx
  rcases List.mem_append.1 hx with hx | hx
  · exact List.mem_append_left _ hx
  · exact List.mem_append_right _ (List.mem_append_right _ hx)

/-- An allocation cuts its block out of the free one that was found. -/
theorem kmallocPlace_ok (hok : HeapOk h (l₁ ++ b :: l₂)) (hb : b.isFree = true)
    (ha : a = h.startAddr + extent Cell.span l₁)
    (hp : p = a ∨ a + (headSize + heapMinBlock) ≤ p) (hfit : p + headSize + total ≤ a + b.span)
    (hsize : size + canaryOverhead ≤ total) (span : Bool) :
    ∃ l', HeapOk (kmallocPlace h a p total size span).2 l' ∧ Extends (l₁ ++ b :: l₂) l' := by
  have hhead : headSize = 40 := rfl
  have hbspan : b.span = headSize + b.size := rfl
  rw [kmallocPlace]
  cases span with
  | false => exact ⟨_, hok, Extends.refl _⟩
  | true =>
    subst a
    rw [if_neg (by simp)]
    have hm := (hok.good.ok b (by simp)).magic
    obtain ⟨m, c, hs₁, hfst, hat, hspare, hcm, hcf, hspan⟩ :=
      hok.shape.splitBlockPrefix hm hb (hp.imp_right fun h => by omega) (by omega)
    have hframe₁ := splitBlockPrefix_frame h (h.startAddr + extent Cell.span l₁) p
    generalize splitBlockPrefix h (h.startAddr + extent Cell.span l₁) p = r at *
    obtain ⟨p', h₁⟩ := r
    dsimp only at *
    subst p'
    have hcspan : c.span = headSize + c.size := rfl
    have hstart := startAddr_of_frame hframe₁
    obtain ⟨t, m', hs₂, hspare', hle, -⟩ := hs₁.splitBlock (s := total) (by omega)
    rw [hstart, ← hat] at hs₂
    have hframe₂ := (splitBlock_frame h₁ p total).trans hframe₁
    generalize Heap.splitBlock h₁ p total = h₂ at *
    have hstart₂ := startAddr_of_frame hframe₂
    have hat₂ : p = h₂.startAddr + extent Cell.span (l₁ ++ m) := hat.trans (by rw [hstart₂])
    have hcell := hs₂.cell_eq
    rw [← hat₂] at hcell
    have hs₃ := hs₂.modify (c := ⟨t, size, heapMagic, false⟩)
      (fun b => { b with isFree := false, allocSize := size, flags := 0 })
      (fun _ => rfl) (fun _ => rfl)
      (by
        rw [← hat₂]
        have ht := congrArg Cell.size hcell
        have hmag := congrArg Cell.magic hcell
        simp only [Heap.cells, HeapBlock.cell] at ht hmag
        simp only [HeapBlock.cell, ht, hmag, hcm]) rfl
    rw [← hat₂] at hs₃
    have hsz : ((h₂.modify p fun b => { b with isFree := false, allocSize := size, flags := 0 }).block
        p).size = t := by
      have ht := congrArg Cell.size hcell
      simpa [Heap.modify, Heap.cells, HeapBlock.cell] using ht
    refine ⟨_, ⟨hs₃.setUsed _, ?_, ?_, ?_⟩, ?_⟩
    · obtain ⟨hg₁, hg₂⟩ := hok.good.around
      exact Good.append_used rfl ⟨rfl, fun _ => hsize.trans hle⟩ (hspare.good_left hg₁ hb)
        (hspare'.good_right hg₂ hb)
    · have hbounds : Bounds (h₂.modify p fun b =>
          { b with isFree := false, allocSize := size, flags := 0 }) := hok.bounds.congr hframe₂
      exact hbounds.setUsed _
    · have hused := hok.used
      have hbu : b.used = 0 := if_pos hb
      have hu := usedSize_of_frame hframe₂
      rw [extent_append, extent_cons, hbu] at hused
      simp only [extent_append, extent_cons, hspare.used, hspare'.used, hsz]
      simp only [Cell.used, Cell.span, Bool.false_eq_true, ↓reduceIte]
      show h₂.usedSize + _ = _
      omega
    · have hfull := hok.shape.full
      have hfull₃ := hs₃.full
      have hframe₃ := hframe₂
      simp only [Heap.frame, Prod.mk.injEq] at hframe₃
      rw [show (h₂.modify p _).startAddr = h.startAddr from hframe₃.1,
        show (h₂.modify p _).endAddr = h.endAddr from hframe₃.2.1] at hfull₃
      simp only [extent_append, extent_cons] at hfull hfull₃
      have hext : Extends (l₁ ++ b :: l₂) (l₁ ++ (m ++ ⟨t, size, heapMagic, false⟩ :: m') ++ l₂) :=
        extends_replace hb (by
          simp only [extent_append, extent_cons]
          omega)
      simpa using hext

theorem releaseBlock_ok (hok : HeapOk h (l₁ ++ b :: l₂)) (hb : b.isFree = false) :
    ∃ l', HeapOk (releaseBlock h (h.startAddr + extent Cell.span l₁)) l' := by
  have hcell := hok.shape.cell_eq
  have hsz := hok.shape.size_eq
  obtain ⟨hg₁, hg₂⟩ := hok.good.around_used hb
  have hs₁ := hok.shape.modify (c := { b with isFree := true })
    (fun b => { b with isFree := true }) (fun _ => rfl) (fun _ => rfl)
    (by
      rw [← hcell]
      rfl) rfl
  generalize hx : h.startAddr + extent Cell.span l₁ = x at *
  rw [releaseBlock]
  have hsz' : ((h.modify x fun b => { b with isFree := true }).block x).size = b.size := by
    simpa [Heap.modify] using hsz
  have hframe₁ : (h.modify x fun b => { b with isFree := true }).frame = h.frame := rfl
  generalize h.modify x _ = k at *
  have hbounds := hok.bounds.congr hframe₁
  have hu := usedSize_of_frame hframe₁
  rw [← startAddr_of_frame hframe₁] at hx
  obtain ⟨l', hs', hg', hu', -⟩ := (hs₁.setUsed (k.usedSize - (b.size + headSize))).coalesce rfl
    (hok.good.ok b (by simp)).magic hg₁ hg₂
  have hframe := coalesceFreeBlocks_frame { k with usedSize := k.usedSize - (b.size + headSize) } x
  simp only [hx] at hs'
  simp only [hsz']
  refine ⟨l', hs', hg', (hbounds.setUsed _).congr hframe, ?_⟩
  have hused := hok.used
  have hbu : b.used = headSize + b.size := if_neg (by simp [hb])
  rw [extent_append, extent_cons, hbu] at hused
  rw [usedSize_of_frame hframe, hu']
  simp only
  omega

theorem heapExpand_true (he : heapExpand h e rs cm = (true, h')) (hlt : h.endAddr < e)
    (hle : e ≤ h.maxAddr) :
    h' = { h with endAddr := alignUp e, totalSize := alignUp e - h.startAddr } := by
  have hge := le_alignUp e
  rw [heapExpand, if_neg (Nat.not_lt.2 hle)] at he
  rw [if_neg (by omega)] at he
  split at he
  · cases he
  · split at he
    · cases he
    · cases he
      rfl

theorem heapExpand_false (he : heapExpand h e rs cm = (false, h')) : h' = h := by
  rw [heapExpand] at he
  generalize alignUp (if e > h.maxAddr then h.maxAddr else e) = e' at he
  split at he
  · cases he
  · split at he
    · cases he
      rfl
    · split at he
      · cases he
        rfl
      · cases he

theorem Good.single (s : Nat) : Good [freeCell s] := by
  refine ⟨List.isChain_singleton _, ?_⟩
  intro c hc
  rw [List.mem_singleton] at hc
  rw [hc]
  exact freeCell_ok s

theorem HeapOk.freeList_none (hok : HeapOk h l) (hf : h.freeList = none) : l = [] := by
  have hhead := hok.shape.head
  rw [hf] at hhead
  cases l with
  | nil => rfl
  | cons c l => cases hhead

theorem heapFirst_ok (hok : HeapOk h l) (env : MallocEnv) (hf : heapFirst h env = some h') :
    ∃ l', HeapOk h' l' ∧ l' ≠ [] ∧ Extends l l' := by
  rw [heapFirst] at hf
  split at hf
  · rename_i hempty
    have hl := hok.freeList_none hempty.1
    subst l
    have hmax : heapStart + heapInitialSize ≤ h.maxAddr := by
      rw [hok.bounds.max]
      decide
    have hlt : h.endAddr < heapStart + heapInitialSize := by
      rw [hempty.2]
      decide
    split at hf
    · cases hf
    · rename_i k hk
      cases hf
      have hk := heapExpand_true hk hlt hmax
      have hal : alignUp (heapStart + heapInitialSize) = heapStart + heapInitialSize := by decide
      have hd : pageSize ∣ heapStart + heapInitialSize := by decide
      have htot : heapStart + heapInitialSize - heapStart - headSize = 0xFFD8 := by decide
      have hend : heapStart + heapInitialSize = heapStart + (headSize + 0xFFD8) := by decide
      rw [hal, hok.bounds.start] at hk
      subst k
      refine ⟨[freeCell 0xFFD8], ⟨?_, Good.single _, ⟨rfl, hok.bounds.max, hd, hmax, rfl⟩, ?_⟩,
        by simp, fun a => List.nil_subset _⟩
      · dsimp only
        rw [htot, hend]
        rw [show ([freeCell 0xFFD8] : List Cell) = [] ++ [freeCell 0xFFD8] from rfl]
        apply hok.shape.snoc
        · exact hok.bounds.start.symm
        · rw [hempty.2]
        · rw [hempty.1, hempty.2]
          rfl
        · simp [hempty.2]
        · intro x hx
          rw [starts_nil, List.getLast?_nil, if_neg (by simp), Heap.next, Heap.next]
          exact congrArg HeapBlock.next (Function.update_of_ne (by omega) _ _)
        · intro x hx
          exact congrArg HeapBlock.prev (Function.update_of_ne (by omega) _ _)
        · intro x hx
          exact congrArg HeapBlock.cell (Function.update_of_ne (by omega) _ _)
      · exact hok.used
  · rename_i hne
    cases hf
    refine ⟨l, hok, ?_, Extends.refl l⟩
    rintro rfl
    have hfull := hok.shape.full
    rw [extent_nil, hok.bounds.start] at hfull
    exact hne ⟨hok.shape.head, hfull.symm⟩

/-- The block that comes with new pages is linked in at the end of the list. -/
theorem insertBlock_shape (hok : HeapOk h (l ++ [b])) (e total : Nat)
    (he : e = h.endAddr + (headSize + s)) :
    Shape (insertBlock { h with endAddr := e, totalSize := total } h.endAddr s)
      (l ++ [b] ++ [freeCell s]) := by
  have hs := hok.shape
  have hlast : (starts Cell.span h.startAddr (l ++ [b])).getLast? =
      some (h.startAddr + extent Cell.span l) := by
    rw [starts_append, starts_cons, starts_nil, List.getLast?_concat]
  have hlt : ∀ x ∈ starts Cell.span h.startAddr (l ++ [b]), x < h.endAddr := by
    intro x hx
    rw [← hs.full]
    exact (mem_starts_bounds hx).2
  have hbelow : lastBelow { h with endAddr := e, totalSize := total } h.endAddr heapFuel none
      h.freeList = some (h.startAddr + extent Cell.span l) := by
    have hseg := lastBelow_seg (h := { h with endAddr := e, totalSize := total }) hs.seg hlt
      hok.length_lt none
    rw [hlast, ← hs.head] at hseg
    exact hseg
  have hnext : (h.block (h.startAddr + extent Cell.span l)).next = none := hs.next_eq
  have hxlt := hlt _ (List.mem_of_getLast? hlast)
  rw [insertBlock]
  dsimp only
  rw [hbelow]
  dsimp only [Heap.next]
  rw [hnext, Heap.setPrev]
  generalize hx : h.startAddr + extent Cell.span l = x at *
  apply hs.snoc
  · rfl
  · exact he
  · rw [hs.head]
    show _ = ((starts Cell.span h.startAddr (l ++ [b])).head?).or _
    cases l with
    | nil => rfl
    | cons c l => rfl
  · rw [hlast]
    refine (Function.update_of_ne (by omega) _ _).trans ?_
    exact Function.update_self _ _ _
  · intro y hy
    rw [hlast, modify_next]
    by_cases hyx : y = x
    · rw [if_pos hyx, hyx, if_pos rfl]
    · rw [if_neg hyx, if_neg (by simpa [eq_comm] using hyx)]
      exact congrArg HeapBlock.next (Function.update_of_ne (by omega) _ _)
  · intro y hy
    rw [modify_prev_keep (by simp)]
    exact congrArg HeapBlock.prev (Function.update_of_ne (by omega) _ _)
  · intro y hy
    have hne : y ≠ h.endAddr := by omega
    rw [modify_cells]
    by_cases hyx : y = x
    · subst y
      rw [if_pos rfl, Heap.cells]
      simp only [Function.update_of_ne hne]
      rfl
    · rw [if_neg hyx]
      exact congrArg HeapBlock.cell (Function.update_of_ne hne _ _)

theorem Good.resizeLast (hg : Good (l ++ [b])) (hb : b.isFree = true) (s : Nat) :
    Good (l ++ [{ b with size := s }]) := by
  refine ⟨hg.separated.snoc_congr rfl, ?_⟩
  intro c hc
  rcases List.mem_append.1 hc with hc | hc
  · exact hg.ok c (List.mem_append_left _ hc)
  · rw [List.mem_singleton] at hc
    subst c
    exact Cell.ok_of_free (hg.ok b (by simp)).magic hb

/-- The last block, free, grows or shrinks with the heap. -/
theorem resizeLast_ok (hok : HeapOk h (l ++ [b])) (hb : b.isFree = true)
    (hblock : h'.block = (h.modify (h.startAddr + extent Cell.span l)
      fun b => { b with size := s }).block)
    (hframe : h'.frame = { h with endAddr := e, totalSize := e - h.startAddr }.frame)
    (he : e = h.startAddr + extent Cell.span l + (headSize + s)) (hd : pageSize ∣ e)
    (hle : e ≤ h.maxAddr) : HeapOk h' (l ++ [{ b with size := s }]) := by
  have hbounds : Bounds { h with endAddr := e, totalSize := e - h.startAddr } :=
    hok.bounds.setEnd e hd hle
  refine ⟨?_, hok.good.resizeLast hb s, hbounds.congr hframe, ?_⟩
  · simp only [Heap.frame, Prod.mk.injEq] at hframe
    obtain ⟨hst, hend, -, hfl, -⟩ := hframe
    apply hok.shape.resizeLast hst (hend.trans he) hfl
    · intro x
      rw [Heap.next, hblock, ← Heap.next, modify_next_keep (by simp)]
    · intro x
      rw [Heap.prev, hblock, ← Heap.prev, modify_prev_keep (by simp)]
    · intro x
      rw [Heap.cells, hblock, ← Heap.cells, modify_cells]
      split
      · subst x
        rfl
      · rfl
  · have hused := hok.used
    have hbu : b.used = 0 := if_pos hb
    have hbu' : ({ b with size := s } : Cell).used = 0 := if_pos hb
    rw [extent_append, extent_cons, hbu] at hused
    rw [usedSize_of_frame hframe, extent_append, extent_cons, hbu']
    exact hused

theorem insertBlock_frame (h : Heap) (a s : Nat) :
    ∃ f, (insertBlock h a s).frame = { h with freeList := f }.frame := by
  rw [insertBlock]
  split
  · refine ⟨some a, ?_⟩
    cases h.freeList with
    | none => rfl
    | some x => rfl
  · refine ⟨h.freeList, ?_⟩
    rw [modify_frame, setPrev_frame]
    rfl

theorem append_ok (hok : HeapOk h (l ++ [b])) (e : Nat)
    (he : e = h.endAddr + (headSize + s)) (hd : pageSize ∣ e) (hle : e ≤ h.maxAddr) :
    ∃ l', HeapOk (coalesceFreeBlocks
      (insertBlock { h with endAddr := e, totalSize := e - h.startAddr } h.endAddr s)
      h.endAddr) l' ∧ Extends (l ++ [b]) l' := by
  have hs := insertBlock_shape hok e (e - h.startAddr) he
  have hfull := hok.shape.full
  obtain ⟨f, hframe⟩ := insertBlock_frame { h with endAddr := e, totalSize := e - h.startAddr }
    h.endAddr s
  generalize insertBlock _ _ _ = k at *
  have hst := startAddr_of_frame hframe
  dsimp only at hst hframe
  obtain ⟨l', hs', hg', hu', hst'⟩ :=
    hs.coalesce rfl rfl hok.good ⟨List.IsChain.nil, fun _ hc => nomatch hc⟩
  rw [hst, hfull] at hs'
  have hbounds : Bounds { h with
      freeList := f, endAddr := e, totalSize := e - h.startAddr } :=
    ⟨hok.bounds.start, hok.bounds.max, hd, hle, rfl⟩
  have hframe' := (coalesceFreeBlocks_frame k h.endAddr).trans hframe
  refine ⟨l', ⟨hs', hg', hbounds.congr hframe', ?_⟩, ?_⟩
  · rw [usedSize_of_frame hframe', hu', extent_nil, Nat.add_zero]
    exact hok.used
  · intro a
    rw [hst', usedStarts_append a (l ++ [b])]
    exact List.subset_append_left _ _

theorem heapAttach_ok (hok : HeapOk h (l ++ [b]))
    (hk : k = { h with endAddr := e, totalSize := e - h.startAddr })
    (hlt : h.endAddr + headSize < e) (hd : pageSize ∣ e) (hle : e ≤ h.maxAddr) :
    ∃ l', HeapOk (heapAttach k h.endAddr).2 l' ∧ Extends (l ++ [b]) l' := by
  have hsame : freeBlockEndingAt k h.endAddr = freeBlockEndingAt h h.endAddr :=
    freeBlockEndingAt_congr (by rw [hk]) (by rw [hk]) _
  have hend : k.endAddr = e := by rw [hk]
  rw [heapAttach, hsame, hend]
  split
  · rename_i x hx
    obtain ⟨l₁, c, hl, rfl, hc⟩ := freeBlockEndingAt_some hok hx
    rw [hl] at hok
    have hsz := hok.shape.size_eq
    have hfull := hok.shape.full
    rw [extent_snoc, Cell.span] at hfull
    refine ⟨_, resizeLast_ok (s := c.size + (e - h.endAddr)) hok hc ?_ ?_ ?_ hd hle, ?_⟩
    · simp only [Heap.modify, hk, hsz]
    · rw [modify_frame, hk]
    · omega
    · intro a
      rw [hl, usedStarts_append, usedStarts_append, usedStarts_free hc, usedStarts_resized hc]
      exact List.Subset.refl _
  · rename_i hx
    rw [if_neg (by omega), hk]
    exact append_ok hok e (by omega) hd hle

theorem heapGrow_ok (hok : HeapOk h (l ++ [b])) (htot : 0 < total) (env : MallocEnv) :
    ∃ l', HeapOk (heapGrow h total env).2 l' ∧ Extends (l ++ [b]) l' := by
  rw [heapGrow]
  split
  · exact ⟨_, hok, Extends.refl _⟩
  · dsimp only
    split
    · exact ⟨_, hok, Extends.refl _⟩
    · rename_i hmax
      have hmax := Nat.not_lt.1 hmax
      split
      · rename_i k hk
        rw [heapExpand_false hk]
        exact ⟨_, hok, Extends.refl _⟩
      · rename_i k hk
        have hge := le_alignUp (h.endAddr + (total + headSize))
        have hle : alignUp (h.endAddr + (total + headSize)) ≤ h.maxAddr := by
          apply alignUp_le _ hmax
          rw [hok.bounds.max]
          decide
        have hk := heapExpand_true hk (by omega) hmax
        split
        · rename_i hgt
          rw [hk] at hgt
          exact absurd hle (Nat.not_le.2 hgt)
        · exact heapAttach_ok hok hk (by omega) (dvd_alignUp _) hle

theorem le_roundup8 (x : Nat) : x ≤ roundup8 x := by
  rw [roundup8]
  omega

theorem kmallocInternal_ok (hok : HeapOk h l) (size : Nat) (env : MallocEnv) :
    ∃ l', HeapOk (kmallocInternal h size env).2 l' ∧ Extends l l' := by
  have hround := le_roundup8 (size + canaryOverhead)
  have hpos : 0 < roundup8 (size + canaryOverhead) := by
    have hcan : canaryOverhead = 12 := rfl
    omega
  have hplace : ∀ {k : Heap} {m : List Cell} {unc a p}, HeapOk k m → Extends l m →
      findBestFit k unc (roundup8 (size + canaryOverhead)) = some (a, p) →
      ∃ l', HeapOk (kmallocPlace k a p (roundup8 (size + canaryOverhead)) size env.span).2 l' ∧
        Extends l l' := by
    intro k m unc a p hk hext hf
    obtain ⟨l₁, b, l₂, rfl, ha, hb, hp, hfit⟩ := findBestFit_some hk hf
    obtain ⟨l', hok', hext'⟩ := kmallocPlace_ok hk hb ha hp hfit hround env.span
    exact ⟨l', hok', hext.trans hext'⟩
  rw [kmallocInternal]
  dsimp only
  generalize roundup8 (size + canaryOverhead) = total at *
  split
  · rename_i hf
    exact hplace hok (Extends.refl l) hf
  · split
    · exact ⟨l, hok, Extends.refl l⟩
    · rename_i h₁ hfirst
      obtain ⟨l₁, hok₁, hne, hext₁⟩ := heapFirst_ok hok env hfirst
      split
      · rename_i hf
        split at hf
        · exact hplace hok₁ hext₁ hf
        · cases hf
      · obtain ⟨m, b, rfl⟩ := (List.eq_nil_or_concat l₁).resolve_left hne
        rw [List.concat_eq_append] at hok₁ hext₁
        have hgrow := heapGrow_ok hok₁ hpos env
        split
        · rename_i h₂ hg
          rw [hg] at hgrow
          obtain ⟨l₂, hok₂, hext₂⟩ := hgrow
          exact ⟨l₂, hok₂, hext₁.trans hext₂⟩
        · rename_i h₂ hg
          rw [hg] at hgrow
          obtain ⟨l₂, hok₂, hext₂⟩ := hgrow
          split
          · exact ⟨l₂, hok₂, hext₁.trans hext₂⟩
          · rename_i hf
            exact hplace hok₂ (hext₁.trans hext₂) hf

end Lebirun.Heap
