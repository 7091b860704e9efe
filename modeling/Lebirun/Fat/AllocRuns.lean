import Mathlib
import Lebirun.Lib.Run
import Lebirun.Fat.AllocSpec

namespace Lebirun.Fat
open Machine
set_option autoImplicit true

section Count

variable {fs : FatFs} {vol vol' : FatVol} {T T' : Copies} {st : FatState} {prev c : Nat}

def Copies.free (fs : FatFs) (T : Copies) : Finset Nat :=
  (Finset.range fs.bound).filter fun c => 2 ≤ c ∧ T 0 c = 0

theorem Copies.mem_free : c ∈ T.free fs ↔ c < fs.bound ∧ 2 ≤ c ∧ T 0 c = 0 := by
  rw [Copies.free, Finset.mem_filter, Finset.mem_range]

theorem Reads.free (hp : fs.Plain) (h : Reads fs vol T) : freeClusters fs vol.disk = T.free fs := by
  apply Finset.filter_congr
  intro c hc
  rw [Finset.mem_range] at hc
  apply and_congr_right
  intro hlow
  rw [h.entry 0 hp.regular.fats_pos c hlow hc]

theorem FatFs.Plain.eoc_pos (hp : fs.Plain) : fatEoc fs ≠ 0 := by
  have hcount := hp.count
  have hbound := hp.bound
  omega

/-- A cluster set in the first copy leaves the free clusters or joins them. -/
theorem Copies.free_put_used (hp : fs.Plain) (T : Copies) (c : Nat) (hv : v ≠ 0) :
    (T.put 0 fs.fats c v).free fs = (T.free fs).erase c := by
  ext d
  rw [Finset.mem_erase, Copies.mem_free, Copies.mem_free]
  by_cases hd : d = c
  · subst hd
    rw [Copies.put_same T le_rfl hp.regular.fats_pos]
    tauto
  · rw [Copies.put_other T 0 fs.fats v 0 hd]
    tauto

theorem Copies.free_put_zero (hp : fs.Plain) (T : Copies) (hc : 2 ≤ c) (hb : c < fs.bound) :
    (T.put 0 fs.fats c 0).free fs = insert c (T.free fs) := by
  ext d
  rw [Finset.mem_insert, Copies.mem_free, Copies.mem_free]
  by_cases hd : d = c
  · subst hd
    rw [Copies.put_same T le_rfl hp.regular.fats_pos]
    tauto
  · rw [Copies.put_other T 0 fs.fats 0 0 hd]
    tauto

/-- Only the new cluster is free no more after an append behind a cluster in use. -/
theorem Copies.free_append (hp : fs.Plain) (T : Copies) (hc : 2 ≤ c)
    (huse : 2 ≤ prev → prev < fs.bound → T 0 prev ≠ 0) :
    (T.append fs prev c).free fs = (T.free fs).erase c := by
  rw [Copies.append]
  split
  · exact Copies.free_put_used hp T c hp.eoc_pos
  · rename_i hprev
    rw [Copies.link, Copies.free_put_used hp _ prev (by omega), Copies.free_put_used hp T c hp.eoc_pos]
    apply Finset.erase_eq_of_notMem
    rw [Finset.mem_erase, Copies.mem_free]
    intro hin
    exact huse (by omega) hin.2.1 hin.2.2.2

theorem Copies.free_card_lt (hp : fs.Plain) (T : Copies) : (T.free fs).card < unknownCount - 1 := by
  have hle : (T.free fs).card ≤ fs.bound := by
    calc (T.free fs).card
        ≤ (Finset.range fs.bound).card := Finset.card_filter_le _ _
      _ = fs.bound := Finset.card_range _
  have heoc : fatEoc fs ≤ 2 ^ 28 := by
    rw [fatEoc]
    split
    · decide
    split
    · decide
    · decide
  have hbound := hp.bound
  show _ < 2 ^ 32 - 1 - 1
  omega

/-- The count of free clusters, if there is one, is that of the table `T`. -/
structure Tallied (fs : FatFs) (T : Copies) (st : FatState) : Prop where
  reads : Reads fs st.vol T
  count : st.freeCount ≠ unknownCount → st.freeCount = (T.free fs).card

theorem counted_iff (hp : fs.Plain) : Counted fs st ↔ ∃ T, Tallied fs T st := by
  constructor
  · intro h
    have hreads : Reads fs st.vol (fs.entry st.vol.disk) := ⟨fun _ _ _ _ _ => rfl, h.coherent⟩
    exact ⟨_, hreads, fun hknown => by rw [h.count hknown, hreads.free hp]⟩
  · intro h
    obtain ⟨T, hreads, hcount⟩ := h
    exact ⟨hreads.coherent, fun hknown => by rw [hcount hknown, hreads.free hp]⟩

theorem fatSetNext_reads (hp : fs.Plain) (h : Reads fs vol T) (hc : 2 ≤ c) (hb : c < fs.bound) (v : Nat) :
    ∃ vol', fatSetNext fs vol c v = some vol' ∧ Reads fs vol' (T.put 0 fs.fats c (v % 2 ^ fs.width)) := by
  obtain ⟨vol', hset, hthis, hother, -, -, -, -, hcoherent⟩ := fatSetNext_entries hp.regular hc hb vol v
  refine ⟨vol', hset, ?_, hcoherent h.coherent⟩
  intro f hf d hd hdb
  by_cases hdc : d = c
  · subst hdc
    rw [hthis f hf, Copies.put_same T (Nat.zero_le f) hf]
  · rw [hother f hf d hdc hdb, Copies.put_other T 0 fs.fats _ f hdc]
    exact h.entry f hf d hd hdb

theorem working_calm (fs : FatFs) (prev : Nat) (zero : Bool) : Calm fs working prev zero :=
  ⟨fun _ _ _ _ _ => rfl, fun _ _ _ _ _ => rfl, fun _ _ _ _ _ _ => rfl, fun _ _ _ _ => rfl,
    Or.inr fun _ => rfl⟩

/-- The count after a step, which does not forget it. -/
def Kept (fs : FatFs) (st st' : FatState) : Prop :=
  (∃ T', Tallied fs T' st') ∧ (st.freeCount ≠ unknownCount → st'.freeCount ≠ unknownCount)

theorem alloc_kept (hp : fs.Plain) (h : Tallied fs T st) (huse : InUse fs st prev) (zero : Bool) :
    Kept fs st (fatAllocInner fs working st prev zero).2 := by
  have huse' : 2 ≤ prev → prev < fs.bound → T 0 prev ≠ 0 := by
    intro hlow hhigh
    rw [← h.reads.entry 0 hp.regular.fats_pos prev hlow hhigh]
    exact huse hlow hhigh
  obtain htaken | hfailed := fatAllocInner_reads zero hp (working_calm fs prev zero) h.reads huse'
  · generalize fatAllocInner fs working st prev zero = r at htaken
    have hcount := htaken.counted
    have hmem : r.1 ∈ T.free fs := Copies.mem_free.mpr ⟨htaken.inside.2, htaken.inside.1, htaken.free⟩
    have hfree := Copies.free_append hp T htaken.inside.1 huse'
    have hcard := Finset.card_erase_of_mem hmem
    by_cases hknown : st.freeCount = unknownCount
    · rw [if_pos hknown] at hcount
      exact ⟨⟨_, htaken.reads, fun hne => absurd hcount hne⟩, fun hne => absurd hknown hne⟩
    · rw [if_neg hknown, h.count hknown] at hcount
      refine ⟨⟨_, htaken.reads, fun _ => ?_⟩, fun _ => ?_⟩
      · rw [hcount, hfree, hcard]
      · have hlt := Copies.free_card_lt hp T
        omega
  · have hreads := hfailed.works fun _ => rfl
    refine ⟨⟨T, hreads, ?_⟩, ?_⟩
    · rw [hfailed.counted]
      exact h.count
    · rw [hfailed.counted]
      exact id

theorem Kept.trans {st st' st'' : FatState} (h : Kept fs st st')
    (h' : Kept fs st' st'') : Kept fs st st'' :=
  ⟨h'.1, fun hknown => h'.2 (h.2 hknown)⟩

/-- A cluster that was in use is set free. -/
theorem freed_kept (hp : fs.Plain) (h : Tallied fs T st) (hc : 2 ≤ c) (hb : c < fs.bound) (hused : T 0 c ≠ 0)
    (hreads : Reads fs vol (T.put 0 fs.fats c 0)) :
    Kept fs st { st with
      vol := vol
      freeCount := if st.freeCount = unknownCount then unknownCount else st.freeCount + 1
      fsinfoDirty := true } := by
  by_cases hknown : st.freeCount = unknownCount
  · exact ⟨⟨_, hreads, fun hne => absurd (if_pos hknown) hne⟩, fun hne => absurd hknown hne⟩
  · have hnew : c ∉ T.free fs := fun hin => hused (Copies.mem_free.mp hin).2.2
    have hcard := Finset.card_insert_of_notMem hnew
    have hlt := Copies.free_card_lt hp T
    have hcount := h.count hknown
    refine ⟨⟨_, hreads, fun _ => ?_⟩, fun _ => ?_⟩
    · rw [Copies.free_put_zero hp T hc hb, hcard, ← hcount]
      exact if_neg hknown
    · change (if _ then _ else _) ≠ _
      rw [if_neg hknown]
      omega

/-- The clusters of a chain are counted one by one. -/
theorem freeFrom_kept (hp : fs.Plain) (h : Tallied fs T st) (left c : Nat) :
    Kept fs st (freeFrom fs left c st) := by
  induction left generalizing c T st with
  | zero => exact ⟨⟨T, h⟩, id⟩
  | succ left ih =>
    rw [freeFrom]
    split
    · exact ⟨⟨T, h⟩, id⟩
    rename_i hrange
    have hc : 2 ≤ c := by omega
    have hb : c < fs.bound := by omega
    obtain ⟨hvalue, hreads⟩ := fatNextCluster_reads hp h.reads hc hb
    generalize fatNextCluster fs st.vol c = r at hvalue hreads
    obtain ⟨vol', hset, hreads'⟩ := fatSetNext_reads hp hreads hc hb 0
    dsimp only
    rw [hset]
    dsimp only
    have hone : Kept fs st (if r.1 = 0 then { st with vol := r.2 } else { st with
        vol := vol'
        freeCount := if st.freeCount = unknownCount then unknownCount else st.freeCount + 1
        fsinfoDirty := true }) := by
      split
      · exact ⟨⟨T, hreads, h.count⟩, id⟩
      · rename_i hused
        rw [hvalue] at hused
        exact freed_kept hp h hc hb hused hreads'
    generalize (if r.1 = 0 then { st with vol := r.2 } else { st with
        vol := vol'
        freeCount := if st.freeCount = unknownCount then unknownCount else st.freeCount + 1
        fsinfoDirty := true }) = st₁ at hone
    obtain ⟨T₁, h₁⟩ := hone.1
    split
    · exact hone
    split
    · exact hone
    · exact hone.trans (ih h₁ r.1)

/-- The clusters counted so far are the free ones below the next. -/
theorem countFrom_reads (hp : fs.Plain) (h : Reads fs vol T) (left : Nat) {n : Nat} (hc : 2 ≤ c)
    (hleft : c + left = fs.bound) (hn : n = ((T.free fs).filter (· < c)).card) :
    (countFrom fs left c n vol).1 = (T.free fs).card ∧ Reads fs (countFrom fs left c n vol).2 T := by
  induction left generalizing c n vol with
  | zero =>
    refine ⟨?_, h⟩
    rw [countFrom, hn, Finset.filter_true_of_mem]
    intro d hd
    exact lt_of_lt_of_eq (Copies.mem_free.mp hd).1 hleft.symm
  | succ left ih =>
    obtain ⟨hvalue, hreads⟩ := fatNextCluster_reads hp h hc (by omega)
    rw [countFrom]
    apply ih hreads (Nat.le_succ_of_le hc) (by omega)
    rw [hvalue, hn]
    have hnew : c ∉ (T.free fs).filter (· < c) := fun hin => lt_irrefl c (Finset.mem_filter.mp hin).2
    split
    · rename_i hfree
      rw [← Finset.card_insert_of_notMem hnew]
      congr 1
      ext d
      rw [Finset.mem_insert, Finset.mem_filter, Finset.mem_filter, Copies.mem_free]
      constructor
      · intro hd
        obtain hd | hd := hd
        · subst hd
          exact ⟨⟨by omega, hc, hfree⟩, Nat.lt_succ_self d⟩
        · exact ⟨hd.1, Nat.lt_succ_of_lt hd.2⟩
      · intro hd
        obtain hlt | heq := Nat.lt_succ_iff_lt_or_eq.mp hd.2
        · exact Or.inr ⟨hd.1, hlt⟩
        · exact Or.inl heq
    · rename_i hused
      congr 1
      ext d
      rw [Finset.mem_filter, Finset.mem_filter]
      apply and_congr_right
      intro hd
      have hne : d ≠ c := by
        intro heq
        subst heq
        exact hused (Copies.mem_free.mp hd).2.2
      omega

theorem countFree_kept (hp : fs.Plain) (h : Tallied fs T st) : Kept fs st (fatCountFree fs st) := by
  rw [fatCountFree]
  split
  · exact ⟨⟨T, h⟩, id⟩
  · rename_i hknown
    have hcount := hp.count
    have hnone : 0 = ((T.free fs).filter (· < 2)).card := by
      symm
      rw [Finset.card_eq_zero]
      apply Finset.filter_false_of_mem
      intro d hd
      exact Nat.not_lt.mpr (Copies.mem_free.mp hd).2.1
    obtain ⟨hall, hreads⟩ :=
      countFrom_reads hp h.reads (fs.bound - 2) le_rfl (by omega) hnone
    exact ⟨⟨T, hreads, fun _ => hall⟩, fun hne => absurd (not_not.mp hknown) hne⟩

/-- One call with working accesses. -/
theorem allocStep_kept (hp : fs.Plain) (h : Counted fs st) (op : AllocOp) (hop : op.Sane fs st) :
    Counted fs (allocStep fs st op) ∧
      (st.freeCount ≠ unknownCount → (allocStep fs st op).freeCount ≠ unknownCount) := by
  obtain ⟨T, htallied⟩ := (counted_iff hp).mp h
  have hkept : Kept fs st (allocStep fs st op) := by
    cases op with
    | alloc prev zero => exact alloc_kept hp htallied hop zero
    | freeChain start => exact freeFrom_kept hp htallied _ start
    | countFree => exact countFree_kept hp htallied
  exact ⟨(counted_iff hp).mpr hkept.1, hkept.2⟩

theorem allocRun_counted (hp : fs.Plain) (h : Counted fs st) {ops : List AllocOp}
    (hops : Along (allocStep fs) (fun st op => op.Sane fs st) st ops) :
    Counted fs (ops.foldl (allocStep fs) st) ∧
      (st.freeCount ≠ unknownCount → (ops.foldl (allocStep fs) st).freeCount ≠ unknownCount) := by
  have hend := Along.invariant
    (I := fun s => Counted fs s ∧ (st.freeCount ≠ unknownCount → s.freeCount ≠ unknownCount))
    (fun s op hs hop => ?_) hops ⟨h, id⟩
  · exact hend
  · obtain ⟨hcounted, hknown⟩ := allocStep_kept hp hs.1 op hop
    exact ⟨hcounted, fun hne => hknown (hs.2 hne)⟩

end Count

section Volume

variable {fs : FatFs} {boot : Bytes}

/-- A mounted volume that lies inside itself, with clusters fewer than the number that ends a chain. -/
theorem fatMountFs_plain (h : fatMountFs boot = some fs) (hin : fs.Inside) (hfit : fs.bound ≤ fatEoc fs) :
    fs.Plain := by
  have hm := fatMountFs_some h
  have hlayout := hin.layout
  refine {
    regular := fatMountFs_regular h
    eoc := ?_
    bound := hfit
    count := ?_
    area := by omega }
  · rw [fatEoc, FatFs.width]
    obtain h12 | h16 | h32 := (fatMountFs_regular h).bits
    · rw [h12]
      rfl
    · rw [h16]
      rfl
    · rw [h32]
      rfl
  · have htotal : fs.totalSectors < 2 ^ 32 := hm.totalSectors ▸ bootTotal_lt boot
    have hcount : fs.clusterCount ≤ fs.totalSectors - fs.dataStart := by
      rw [hm.clusterCount, hm.totalSectors, hm.dataStart]
      exact Nat.div_le_self _ _
    have htable : 0 < fs.fats * fs.fatSectors := Nat.mul_pos hm.fats_pos hm.fatSectors_pos
    have hreserved := hm.reserved_pos
    have hdata := hin.data
    rw [FatFs.bound, Nat.mod_eq_of_lt (by omega)]

/-- The volume of `smallVolume`. -/
def smallFs : FatFs where
  bps := 512
  spc := 1
  reserved := 1
  fats := 2
  fatSectors := 1
  totalSectors := 100
  dataStart := 4
  rootCluster := 0
  rootSectors := 1
  clusterCount := 96
  fatBits := 12
  fsinfo := 0

/-- Its table with a chain of one cluster, and all other clusters free. -/
def oneCluster : FatState where
  vol := ⟨fun s i => if s = 1 ∨ s = 2 then (if i = 3 then 0xFF else if i = 4 then 0x0F else 0) else 0,
    noLba, fun _ => 0⟩
  freeCount := 95
  allocHint := 2
  fsinfoDirty := false

/-- A device on which one access fails. -/
def failing (a : Access) : Device := ⟨fun b => b ≠ a, fun _ => 0⟩

theorem smallFs_mount : fatMountFs smallVolume = some smallFs := rfl

theorem oneCluster_entries : ∀ f < 2, ∀ c < 98, 2 ≤ c →
    smallFs.entry oneCluster.vol.disk f c = if c = 2 then 0xFFF else 0 := by
  decide +kernel

theorem oneCluster_sound : ¬Dangling smallFs oneCluster.vol.disk := by
  intro hdangling
  obtain ⟨f, hf, c, hc, hb, hlow, hhigh, -⟩ := hdangling
  have hentry := oneCluster_entries f hf c hb hc
  change _ < 98 at hhigh
  split at hentry
  · omega
  · omega

theorem smallFs_inside : smallFs.Inside := by
  rw [fatMountFs_inside_iff smallFs_mount]
  decide +kernel

end Volume

end Lebirun.Fat
