import Mathlib
import Lebirun.Slab.Page

namespace Lebirun.Slab
set_option autoImplicit true

open Tiling

variable {h : SlabPage} {l l₁ l₂ : List SlabBlock} {b c : SlabBlock}

@[simp]
theorem largestFree_cons : largestFree (b :: l) = max (freeSpan b) (largestFree l) := rfl

@[simp]
theorem liveBlocks_append : liveBlocks (l₁ ++ l₂) = liveBlocks l₁ + liveBlocks l₂ :=
  List.countP_append

@[simp]
theorem liveBlocks_cons :
    liveBlocks (b :: l) = (if b.Free then 0 else 1) + liveBlocks l := by
  rw [liveBlocks, List.countP_cons, liveBlocks]
  by_cases hb : b.Free
  · simp [hb]
  · simp [hb, Nat.add_comm]

@[simp]
theorem requestedBytes_append :
    requestedBytes (l₁ ++ l₂) = requestedBytes l₁ + requestedBytes l₂ := by
  simp [requestedBytes]

@[simp]
theorem requestedBytes_cons : requestedBytes (b :: l) = b.requested + requestedBytes l := by
  simp [requestedBytes]

@[simp]
theorem coalesced_nil : coalesced [] = [] := rfl

@[simp]
theorem coalesced_cons : coalesced (b :: l) = join b (coalesced l) := rfl

@[simp]
theorem extent_join : extent SlabBlock.span (join b l) = b.span + extent SlabBlock.span l := by
  cases l with
  | nil => rfl
  | cons c l =>
    rw [join]
    split
    · simp [Nat.add_assoc]
    · simp

@[simp]
theorem extent_coalesced : extent SlabBlock.span (coalesced l) = extent SlabBlock.span l := by
  induction l with
  | nil => rfl
  | cons b l ih => simp [ih]

theorem liveBlocks_join : liveBlocks (join b l) = liveBlocks (b :: l) := by
  cases l with
  | nil => rfl
  | cons c l =>
    rw [join]
    split
    · rename_i hf
      have hb : SlabBlock.Free { b with span := b.span + c.span } := hf.1
      simp [hf.1, hf.2, hb]
    · rfl

theorem liveBlocks_coalesced : liveBlocks (coalesced l) = liveBlocks l := by
  induction l with
  | nil => rfl
  | cons b l ih => rw [coalesced_cons, liveBlocks_join, liveBlocks_cons, liveBlocks_cons, ih]

theorem requestedBytes_join : requestedBytes (join b l) = requestedBytes (b :: l) := by
  cases l with
  | nil => rfl
  | cons c l =>
    rw [join]
    split
    · rename_i hf
      have hc : c.requested = 0 := hf.2
      simp [hc]
    · rfl

theorem requestedBytes_coalesced : requestedBytes (coalesced l) = requestedBytes l := by
  induction l with
  | nil => rfl
  | cons b l ih =>
    rw [coalesced_cons, requestedBytes_join, requestedBytes_cons, requestedBytes_cons, ih]

theorem ok_join (hb : BlockOk b) (hl : ∀ c ∈ l, BlockOk c) : ∀ c ∈ join b l, BlockOk c := by
  cases l with
  | nil => simpa [join] using hb
  | cons d l =>
    have hd := hl d List.mem_cons_self
    rw [join]
    split
    · rename_i hf
      intro c hc
      rcases List.mem_cons.1 hc with rfl | hc
      · exact ⟨Nat.dvd_add hb.aligned hd.aligned, Nat.le_add_right_of_le hb.pos,
          fun hn => absurd hf.1 hn⟩
      · exact hl c (List.mem_cons_of_mem _ hc)
    · intro c hc
      rcases List.mem_cons.1 hc with rfl | hc
      · exact hb
      · exact hl c hc

theorem ok_coalesced (hl : ∀ c ∈ l, BlockOk c) : ∀ c ∈ coalesced l, BlockOk c := by
  induction l with
  | nil => exact hl
  | cons b l ih =>
    apply ok_join (hl b List.mem_cons_self)
    exact ih fun c hc => hl c (List.mem_cons_of_mem _ hc)

theorem separated_join (h : Separated l) : Separated (join b l) := by
  cases l with
  | nil => exact List.isChain_singleton b
  | cons c l =>
    rw [join]
    split
    · rename_i hf
      cases l with
      | nil => exact List.isChain_singleton _
      | cons d l =>
        obtain ⟨hcd, hl⟩ := List.isChain_cons_cons.1 h
        exact List.isChain_cons_cons.2 ⟨fun hd => hcd ⟨hf.2, hd.2⟩, hl⟩
    · rename_i hf
      exact List.isChain_cons_cons.2 ⟨hf, h⟩

theorem separated_coalesced : Separated (coalesced l) := by
  induction l with
  | nil => exact List.isChain_nil
  | cons b l ih => exact separated_join ih

/-- Merging two free neighbours first makes no difference to the outcome. -/
theorem join_join (hb : b.Free) (hc : c.Free) :
    join b (join c l) = join { b with span := b.span + c.span } l := by
  cases l with
  | nil => simp [join, hb, hc]
  | cons d l =>
    by_cases hd : d.Free
    · have h₁ : SlabBlock.Free { c with span := c.span + d.span } := hc
      have h₂ : SlabBlock.Free { b with span := b.span + c.span } := hb
      simp [join, hb, hc, hd, h₁, h₂, Nat.add_assoc]
    · simp [join, hb, hc, hd]

theorem join_of_head (h : ¬(b.Free ∧ c.Free)) (l : List SlabBlock) :
    join b (join c l) = b :: join c l := by
  cases l with
  | nil => simp [join, h]
  | cons d l =>
    by_cases hd : c.Free ∧ d.Free
    · have h₁ : ¬(b.Free ∧ SlabBlock.Free { c with span := c.span + d.span }) := h
      simp [join, hd, h₁]
    · simp [join, hd, h]

theorem maxFree_step (m k : Nat) (b : SlabBlock) :
    max (if b.requested = 0 ∧ b.span > m then b.span else m) k = max m (max (freeSpan b) k) := by
  by_cases hf : b.requested = 0
  · by_cases hm : b.span > m
    · simp only [hf, hm, and_self, ↓reduceIte, freeSpan, SlabBlock.Free]
      omega
    · simp only [hf, hm, and_false, ↓reduceIte, freeSpan, SlabBlock.Free]
      omega
  · simp [freeSpan, SlabBlock.Free, hf]

/-- The loop of `slab_small_coalesce` run over the blocks `l` that fill the page from `off`:
it leaves the coalesced list behind and reports its largest free span. -/
theorem slabSmallCoalesceFrom_spec (ht : Tiles SlabBlock.span block off l)
    (he : off + extent SlabBlock.span l = pageSize) (hok : ∀ b ∈ l, BlockOk b)
    (hf : l.length ≤ fuel) (m : Nat) :
    Tiles SlabBlock.span (slabSmallCoalesceFrom fuel block m off).1 off (coalesced l) ∧
      (∀ x < off, (slabSmallCoalesceFrom fuel block m off).1 x = block x) ∧
      (slabSmallCoalesceFrom fuel block m off).2 = max m (largestFree (coalesced l)) := by
  have hpage : pageSize = 4096 := rfl
  have hhead : slabBlockHead = 8 := rfl
  induction fuel generalizing block off l m with
  | zero =>
    have hl : l = [] := List.eq_nil_of_length_eq_zero (Nat.le_zero.1 hf)
    subst l
    exact ⟨trivial, fun _ _ => rfl, (Nat.max_zero m).symm⟩
  | succ fuel ih =>
    cases l with
    | nil =>
      have ho : ¬off + slabBlockHead ≤ pageSize := by
        simp only [extent_nil] at he
        omega
      rw [slabSmallCoalesceFrom, if_neg ho]
      exact ⟨trivial, fun _ _ => rfl, (Nat.max_zero m).symm⟩
    | cons b l =>
      obtain ⟨hb, ht⟩ := ht
      have hbk := hok b List.mem_cons_self
      have hlk : ∀ c ∈ l, BlockOk c := fun c hc => hok c (List.mem_cons_of_mem _ hc)
      have hpos := hbk.pos
      simp only [extent_cons] at he
      rw [slabSmallCoalesceFrom, if_pos (by omega)]
      simp only [hb]
      rw [if_neg (by omega)]
      cases l with
      | nil =>
        simp only [extent_nil] at he
        rw [if_neg (by omega)]
        obtain ⟨-, h₂, h₃⟩ := ih ht he hlk (Nat.zero_le _)
          (if b.requested = 0 ∧ b.span > m then b.span else m)
        refine ⟨⟨?_, trivial⟩, ?_, ?_⟩
        · rw [h₂ off (by omega), hb]
        · intro x hx
          exact h₂ x (by omega)
        · rw [h₃]
          exact maxFree_step m 0 b
      | cons c l =>
        obtain ⟨hc, htl⟩ := id ht
        have hck := hlk c List.mem_cons_self
        have hcpos := hck.pos
        simp only [extent_cons] at he
        rw [if_pos (by omega)]
        simp only [hc]
        rw [if_neg (by omega)]
        by_cases hfree : b.requested = 0 ∧ c.requested = 0
        · rw [if_pos hfree]
          have ht' : Tiles SlabBlock.span
              (Function.update block off { b with span := b.span + c.span }) off
              ({ b with span := b.span + c.span } :: l) := by
            refine ⟨Function.update_self _ _ _, ?_⟩
            rw [← Nat.add_assoc]
            exact htl.update_lt (by omega) _
          have hok' : ∀ d ∈ { b with span := b.span + c.span } :: l, BlockOk d := by
            intro d hd
            rcases List.mem_cons.1 hd with rfl | hd
            · exact ⟨Nat.dvd_add hbk.aligned hck.aligned, Nat.le_add_right_of_le hpos,
                fun hn => absurd hfree.1 hn⟩
            · exact hlk d (List.mem_cons_of_mem _ hd)
          obtain ⟨h₁, h₂, h₃⟩ := ih ht' (by simp only [extent_cons]; omega) hok'
            (by simpa using hf) m
          have hj : coalesced ({ b with span := b.span + c.span } :: l) =
                coalesced (b :: c :: l) := by
              rw [coalesced_cons, coalesced_cons, coalesced_cons, join_join hfree.1 hfree.2]
          rw [hj] at h₁ h₃
          refine ⟨h₁, ?_, h₃⟩
          intro x hx
          rw [h₂ x hx, Function.update_of_ne (by omega)]
        · rw [if_neg hfree]
          obtain ⟨h₁, h₂, h₃⟩ := ih ht (by simp only [extent_cons]; omega) hlk
            (by simpa using hf)
            (if b.requested = 0 ∧ b.span > m then b.span else m)
          have hj : coalesced (b :: c :: l) = b :: coalesced (c :: l) :=
            join_of_head hfree (coalesced l)
          rw [hj]
          refine ⟨⟨?_, h₁⟩, ?_, ?_⟩
          · rw [h₂ off (by omega), hb]
          · intro x hx
            exact h₂ x (by omega)
          · rw [h₃, largestFree_cons]
            exact maxFree_step m _ b

theorem length_le_extent (h : ∀ b ∈ l, BlockOk b) : l.length ≤ extent SlabBlock.span l := by
  induction l with
  | nil => exact le_rfl
  | cons b l ih =>
    have hb := (h b List.mem_cons_self).pos
    have hl := ih fun c hc => h c (List.mem_cons_of_mem _ hc)
    simp only [List.length_cons, extent_cons]
    omega

theorem Laid.coalesce (hl : Laid h l) : PageOk (slabSmallCoalesce h) (coalesced l) := by
  have hfull := hl.full
  have hfuel : l.length ≤ pageSize := (length_le_extent hl.ok).trans (by rw [hfull]; decide)
  obtain ⟨ht, -, hm⟩ :=
    slabSmallCoalesceFrom_spec hl.tiles (by rw [hfull]; rfl) hl.ok hfuel 0
  refine ⟨⟨ht, ?_, ok_coalesced hl.ok, ?_, ?_⟩, separated_coalesced, ?_⟩
  · rw [extent_coalesced, hfull]
  · rw [liveBlocks_coalesced]
    exact hl.live
  · rw [requestedBytes_coalesced]
    exact hl.payload
  · rw [Nat.zero_max] at hm
    exact hm

/-- A walk of a page stops at a block of its list that passes the test. -/
theorem slabSmallWalk_some (ht : Tiles SlabBlock.span block off l)
    (he : off + extent SlabBlock.span l = pageSize) (hok : ∀ b ∈ l, BlockOk b)
    (hw : slabSmallWalk block test fuel off = some o) :
    ∃ l₁ b l₂, l = l₁ ++ b :: l₂ ∧ o = off + extent SlabBlock.span l₁ ∧ test o b = true := by
  have hpage : pageSize = 4096 := rfl
  have hhead : slabBlockHead = 8 := rfl
  induction fuel generalizing off l with
  | zero => cases hw
  | succ fuel ih =>
    cases l with
    | nil =>
      rw [extent_nil] at he
      rw [slabSmallWalk, if_neg (by omega)] at hw
      cases hw
    | cons b l =>
      obtain ⟨hb, ht⟩ := ht
      have hpos := (hok b List.mem_cons_self).pos
      rw [extent_cons] at he
      rw [slabSmallWalk, if_pos (by omega)] at hw
      simp only [hb] at hw
      rw [if_neg (by omega)] at hw
      split at hw
      · rename_i hp
        cases hw
        exact ⟨[], b, l, rfl, rfl, hp⟩
      · obtain ⟨l₁, c, l₂, rfl, rfl, hp⟩ :=
          ih ht (by omega) (fun c hc => hok c (List.mem_cons_of_mem _ hc)) hw
        refine ⟨b :: l₁, c, l₂, rfl, ?_, ?_⟩
        · rw [extent_cons, Nat.add_assoc]
        · simpa only [extent_cons, Nat.add_assoc] using hp

/-- A walk that can visit every block finds one that passes the test if there is one. -/
theorem slabSmallWalk_none (ht : Tiles SlabBlock.span block off (l₁ ++ b :: l₂))
    (he : off + extent SlabBlock.span (l₁ ++ b :: l₂) = pageSize)
    (hok : ∀ c ∈ l₁ ++ b :: l₂, BlockOk c) (hf : l₁.length < fuel)
    (hw : slabSmallWalk block test fuel off = none) :
    test (off + extent SlabBlock.span l₁) b = false := by
  have hpage : pageSize = 4096 := rfl
  have hhead : slabBlockHead = 8 := rfl
  induction fuel generalizing off l₁ with
  | zero => omega
  | succ fuel ih =>
    cases l₁ with
    | nil =>
      obtain ⟨hb, -⟩ := ht
      have hpos := (hok b List.mem_cons_self).pos
      rw [List.nil_append, extent_cons] at he
      rw [slabSmallWalk, if_pos (by omega)] at hw
      simp only [hb] at hw
      rw [if_neg (by omega)] at hw
      split at hw
      · cases hw
      · rename_i hp
        simpa using hp
    | cons c l₁ =>
      obtain ⟨hc, ht⟩ := ht
      have hpos := (hok c List.mem_cons_self).pos
      rw [List.cons_append, extent_cons] at he
      rw [slabSmallWalk, if_pos (by omega)] at hw
      simp only [hc] at hw
      rw [if_neg (by omega)] at hw
      split at hw
      · cases hw
      · have hr := ih ht (by omega) (fun d hd => hok d (List.mem_cons_of_mem _ hd))
          (by simpa using hf) hw
        simpa only [extent_cons, Nat.add_assoc] using hr

/-- The blocks `m` of a page give way to blocks `m'` over the same bytes. -/
theorem Laid.replace {h' : SlabPage} {m m' : List SlabBlock} (hl : Laid h (l₁ ++ m ++ l₂))
    (ht : Tiles SlabBlock.span h'.block (slabPageHead + extent SlabBlock.span l₁) m')
    (he : extent SlabBlock.span m' = extent SlabBlock.span m) (hok : ∀ b ∈ m', BlockOk b)
    (hout : ∀ x, x < slabPageHead + extent SlabBlock.span l₁ ∨
      slabPageHead + extent SlabBlock.span l₁ + extent SlabBlock.span m ≤ x →
        h'.block x = h.block x)
    (hlive : h'.liveCount + liveBlocks m = h.liveCount + liveBlocks m')
    (hpay : h'.payloadSize + requestedBytes m = h.payloadSize + requestedBytes m') :
    Laid h' (l₁ ++ m' ++ l₂) := by
  have hlive' := hl.live
  have hpay' := hl.payload
  simp only [liveBlocks_append] at hlive'
  simp only [requestedBytes_append] at hpay'
  refine ⟨?_, ?_, ?_, ?_, ?_⟩
  · apply hl.tiles.replace ht he _ hout
    intro b hb
    have := (hl.ok b hb).pos
    omega
  · rw [← hl.full]
    simp only [extent_append, he]
  · intro b hb
    simp only [List.mem_append] at hb
    rcases hb with (hb | hb) | hb
    · exact hl.ok b (by simp [hb])
    · exact hok b hb
    · exact hl.ok b (by simp [hb])
  · simp only [liveBlocks_append]
    omega
  · simp only [requestedBytes_append]
    omega

/-- The blocks `slabSmallCarve` makes. -/
def carved (span size : Nat) : List SlabBlock :=
  let needed := roundup8 size + slabBlockHead
  if span - needed ≥ slabBlockHead + 8 then [⟨needed, size⟩, ⟨span - needed, 0⟩]
  else [⟨span, size⟩]

theorem extent_carved (hs : roundup8 size + slabBlockHead ≤ span) :
    extent SlabBlock.span (carved span size) = span := by
  simp only [carved]
  split
  · simp only [extent_cons, extent_nil]
    omega
  · simp

theorem tiles_carve :
    Tiles SlabBlock.span (slabSmallCarve block off span size) off (carved span size) := by
  have hhead : slabBlockHead = 8 := rfl
  simp only [slabSmallCarve, carved]
  split
  · refine ⟨Function.update_self _ _ _, ?_, trivial⟩
    rw [Function.update_of_ne (by dsimp only; omega), Function.update_self]
  · exact ⟨Function.update_self _ _ _, trivial⟩

theorem carve_out (hs : roundup8 size + slabBlockHead ≤ span) (hx : x < off ∨ off + span ≤ x) :
    slabSmallCarve block off span size x = block x := by
  have hhead : slabBlockHead = 8 := rfl
  unfold slabSmallCarve
  split
  · rw [Function.update_of_ne (by omega), Function.update_of_ne (by omega)]
  · rw [Function.update_of_ne (by omega)]

theorem carved_ok (ha : 8 ∣ span) (hs : roundup8 size + slabBlockHead ≤ span) :
    ∀ b ∈ carved span size, BlockOk b := by
  have hhead : slabBlockHead = 8 := rfl
  have hr : 8 ∣ roundup8 size + slabBlockHead :=
    Nat.dvd_add (Nat.dvd_mul_left _ _) (by decide)
  simp only [carved]
  split
  · rename_i hrem
    intro b hb
    simp only [List.mem_cons, List.not_mem_nil, or_false] at hb
    rcases hb with rfl | rfl
    · exact ⟨hr, by dsimp only; omega, fun _ => by dsimp only; omega⟩
    · exact ⟨Nat.dvd_sub ha hr, by dsimp only; omega, fun hn => absurd rfl hn⟩
  · intro b hb
    rw [List.mem_singleton] at hb
    subst b
    exact ⟨ha, by dsimp only; omega, fun _ => by dsimp only; omega⟩

theorem liveBlocks_carved (hs : 0 < size) : liveBlocks (carved span size) = 1 := by
  have h₁ : ∀ s, ¬SlabBlock.Free ⟨s, size⟩ := fun _ h =>
    absurd (show size = 0 from h) (by omega)
  have h₂ : ∀ s, SlabBlock.Free ⟨s, 0⟩ := fun _ => rfl
  simp only [carved]
  split
  · simp [h₁, h₂, liveBlocks]
  · simp [h₁, liveBlocks]

theorem requestedBytes_carved : requestedBytes (carved span size) = size := by
  simp only [carved]
  split
  · simp [requestedBytes]
  · simp [requestedBytes]

theorem Laid.block_eq (hl : Laid h (l₁ ++ b :: l₂)) :
    h.block (slabPageHead + extent SlabBlock.span l₁) = b :=
  (tiles_append.1 hl.tiles).2.1

theorem Laid.place (hl : Laid h (l₁ ++ b :: l₂)) (hb : b.Free) (hs : 0 < size)
    (hn : roundup8 size + slabBlockHead ≤ b.span) :
    PageOk (slabSmallPlace h (slabPageHead + extent SlabBlock.span l₁) size)
      (coalesced (l₁ ++ carved b.span size ++ l₂)) := by
  have hb0 : b.requested = 0 := hb
  rw [show l₁ ++ b :: l₂ = l₁ ++ [b] ++ l₂ by simp] at hl
  have hbe : h.block (slabPageHead + extent SlabBlock.span l₁) = b :=
    (show Laid h (l₁ ++ b :: l₂) by simpa using hl).block_eq
  apply Laid.coalesce
  simp only [hbe]
  apply hl.replace
  · exact tiles_carve
  · rw [extent_carved hn]
    simp
  · exact carved_ok (hl.ok b (by simp)).aligned hn
  · intro x hx
    rw [show extent SlabBlock.span [b] = b.span by simp] at hx
    exact carve_out hn hx
  · rw [liveBlocks_carved hs]
    simp [liveBlocks, hb]
  · rw [requestedBytes_carved]
    simp [requestedBytes, hb0]

theorem Laid.clear (hl : Laid h (l₁ ++ b :: l₂)) (hb : ¬b.Free) :
    Laid (slabSmallClear h (slabPageHead + extent SlabBlock.span l₁))
      (l₁ ++ ⟨b.span, 0⟩ :: l₂) := by
  have hbe := hl.block_eq
  have hlive := hl.live
  have hpay := hl.payload
  simp only [liveBlocks_append, liveBlocks_cons, hb, ↓reduceIte] at hlive
  simp only [requestedBytes_append, requestedBytes_cons] at hpay
  have hbk := hl.ok b (by simp)
  rw [show l₁ ++ b :: l₂ = l₁ ++ [b] ++ l₂ by simp] at hl
  rw [show l₁ ++ ⟨b.span, 0⟩ :: l₂ = l₁ ++ [⟨b.span, 0⟩] ++ l₂ by simp]
  apply hl.replace
  · simp [slabSmallClear, hbe]
  · simp
  · intro c hc
    rw [List.mem_singleton] at hc
    subst c
    exact ⟨hbk.aligned, hbk.pos, fun hn => absurd rfl hn⟩
  · intro x hx
    have hp := hbk.pos
    simp only [extent_cons, extent_nil] at hx
    exact Function.update_of_ne (by omega) _ _
  · have hz : SlabBlock.Free ⟨b.span, 0⟩ := rfl
    simp only [slabSmallClear, liveBlocks, List.countP_cons, List.countP_nil, hb, hz]
    simp only [not_false_eq_true, decide_true, ↓reduceIte, not_true_eq_false, decide_false,
      Bool.false_eq_true]
    omega
  · simp only [slabSmallClear, hbe, requestedBytes, List.map_cons, List.map_nil, List.sum_cons,
      List.sum_nil]
    omega

/-- The two spans `slab_resize` can work with: the block's own, or that of the block and the
free one after it. -/
theorem Laid.resize (hl : Laid h (l₁ ++ b :: l₂)) (hb : ¬b.Free) (hs : 0 < size)
    (hr : slabSmallResize h (slabPageHead + extent SlabBlock.span l₁) size = some h') :
    ∃ l', PageOk h' l' ∧ h'.liveCount = h.liveCount ∧ h'.next = h.next ∧ h'.prev = h.prev ∧
      h'.kind = h.kind ∧ h'.pages = h.pages := by
  have hpage : pageSize = 4096 := rfl
  have hbe := hl.block_eq
  have hfull := hl.full
  have hpay := hl.payload
  simp only [requestedBytes_append, requestedBytes_cons] at hpay
  simp only [extent_append, extent_cons] at hfull
  have hbk := hl.ok b (by simp)
  have hlive₁ : liveBlocks [b] = 1 := by simp [liveBlocks, hb]
  simp only [slabSmallResize, hbe, Option.map_eq_some_iff] at hr
  obtain ⟨span, hspan, rfl⟩ := hr
  split at hspan
  · rename_i hgrow
    split at hspan
    · cases hspan
    · rename_i hin
      cases l₂ with
      | nil =>
        simp only [extent_nil] at hfull
        omega
      | cons c l₂ =>
        have hce : h.block (slabPageHead + extent SlabBlock.span l₁ + b.span) = c :=
          (tiles_append.1 hl.tiles).2.2.1
        simp only [hce] at hspan
        split at hspan
        · cases hspan
        · rename_i hno
          simp only [not_or, not_not] at hno
          cases hspan
          have hck := hl.ok c (by simp)
          have hn : roundup8 size + slabBlockHead ≤ b.span + c.span := by omega
          have hcf : c.Free := hno.1
          rw [show l₁ ++ b :: c :: l₂ = l₁ ++ [b, c] ++ l₂ by simp] at hl
          refine ⟨coalesced (l₁ ++ carved (b.span + c.span) size ++ l₂), ?_, rfl, rfl, rfl, rfl, rfl⟩
          apply Laid.coalesce
          apply hl.replace
          · exact tiles_carve
          · rw [extent_carved hn]
            simp
          · exact carved_ok (Nat.dvd_add hbk.aligned hck.aligned) hn
          · intro x hx
            simp only [extent_cons, extent_nil, Nat.add_zero] at hx
            exact carve_out hn hx
          · rw [liveBlocks_carved hs]
            simp [hb, hcf, liveBlocks]
          · rw [requestedBytes_carved]
            have hc0 : c.requested = 0 := hcf
            simp only [requestedBytes, List.map_cons, List.map_nil, List.sum_cons, List.sum_nil, hc0]
            omega
  · rename_i hfit
    cases hspan
    have hn : roundup8 size + slabBlockHead ≤ b.span := by omega
    rw [show l₁ ++ b :: l₂ = l₁ ++ [b] ++ l₂ by simp] at hl
    refine ⟨coalesced (l₁ ++ carved b.span size ++ l₂), ?_, rfl, rfl, rfl, rfl, rfl⟩
    apply Laid.coalesce
    apply hl.replace
    · exact tiles_carve
    · rw [extent_carved hn]
      simp
    · exact carved_ok hbk.aligned hn
    · intro x hx
      simp only [extent_cons, extent_nil, Nat.add_zero] at hx
      exact carve_out hn hx
    · rw [liveBlocks_carved hs, hlive₁]
    · rw [requestedBytes_carved]
      simp only [requestedBytes, List.map_cons, List.map_nil, List.sum_cons, List.sum_nil]
      omega

theorem PageOk.spare (hz : h.liveCount = 0) :
    PageOk (slabSmallSpare h) [⟨pageSize - slabPageHead, 0⟩] := by
  refine ⟨⟨?_, rfl, ?_, hz, rfl⟩, List.isChain_singleton _, rfl⟩
  · simp [slabSmallSpare]
  · intro b hb
    rw [List.mem_singleton] at hb
    subst b
    exact ⟨by decide, by decide, fun hn => absurd rfl hn⟩

theorem PageOk.fresh : PageOk slabSmallFresh [⟨pageSize - slabPageHead, 0⟩] := by
  refine ⟨⟨?_, rfl, ?_, rfl, rfl⟩, List.isChain_singleton _, rfl⟩
  · simp [slabSmallFresh]
  · intro b hb
    rw [List.mem_singleton] at hb
    subst b
    exact ⟨by decide, by decide, fun hn => absurd rfl hn⟩

/-- What `slab_small_find` returns is a free block large enough. -/
theorem Laid.find (hl : Laid h l) (hf : slabSmallFind h needed = some off) :
    ∃ l₁ b l₂, l = l₁ ++ b :: l₂ ∧ off = slabPageHead + extent SlabBlock.span l₁ ∧ b.Free ∧
      needed ≤ b.span := by
  obtain ⟨l₁, b, l₂, he, ho, ht⟩ :=
    slabSmallWalk_some hl.tiles (by rw [hl.full]; rfl) hl.ok hf
  obtain ⟨hb, hn⟩ := of_decide_eq_true ht
  exact ⟨l₁, b, l₂, he, ho, hb, hn⟩

/-- What `slab_small_block_for_ptr` returns is the block right before the pointer. -/
theorem Laid.blockForPtr (hl : Laid h l) (hf : slabSmallBlockForPtr h ptr = some off) :
    ∃ l₁ b l₂, l = l₁ ++ b :: l₂ ∧ off = slabPageHead + extent SlabBlock.span l₁ ∧
      off + slabBlockHead = ptr := by
  obtain ⟨l₁, b, l₂, he, ho, ht⟩ :=
    slabSmallWalk_some hl.tiles (by rw [hl.full]; rfl) hl.ok hf
  exact ⟨l₁, b, l₂, he, ho, of_decide_eq_true ht⟩

end Lebirun.Slab
