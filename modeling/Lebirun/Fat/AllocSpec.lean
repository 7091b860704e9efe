import Mathlib
import Lebirun.Fat.Alloc

namespace Lebirun.Fat
open Machine
set_option autoImplicit true

/-- The entries of every copy, by copy and cluster. -/
abbrev Copies := Nat → Nat → Nat

/-- One entry set in the copies from `lo` up to `hi`. -/
def Copies.put (T : Copies) (lo hi c v : Nat) : Copies :=
  fun f c' => if lo ≤ f ∧ f < hi ∧ c' = c then v else T f c'

/-- What the volume has in its copies. -/
structure Reads (fs : FatFs) (vol : FatVol) (T : Copies) : Prop where
  entry : ∀ f < fs.fats, ∀ c, 2 ≤ c → c < fs.bound → fs.entry vol.disk f c = T f c
  coherent : vol.Coherent fs

/-- What the allocation needs of a volume, as it is after the mount. -/
structure FatFs.Plain (fs : FatFs) : Prop where
  regular : fs.Regular
  eoc : fatEoc fs % 2 ^ fs.width = fatEoc fs
  bound : fs.bound ≤ fatEoc fs
  count : fs.bound = fs.clusterCount + 2
  area : fs.reserved + fs.fats * fs.fatSectors ≤ fs.dataStart

section Tables

variable {fs : FatFs} {vol vol' : FatVol} {T T' : Copies} {io : Device} {call : SetCall}
  {prev : Nat} {zero : Bool}

theorem Copies.put_empty (T : Copies) (lo c v : Nat) : T.put lo lo c v = T := by
  funext f c'
  exact if_neg (by omega)

theorem Copies.put_put (T : Copies) (h : lo ≤ mid) (h' : mid ≤ hi) (c v : Nat) :
    (T.put lo mid c v).put mid hi c v = T.put lo hi c v := by
  funext f c'
  simp only [Copies.put]
  by_cases hc : c' = c
  · by_cases hf : lo ≤ f ∧ f < hi
    · by_cases hm : mid ≤ f
      · rw [if_pos ⟨hm, hf.2, hc⟩, if_pos ⟨hf.1, hf.2, hc⟩]
      · rw [if_neg (by omega), if_pos ⟨hf.1, by omega, hc⟩, if_pos ⟨hf.1, hf.2, hc⟩]
    · rw [if_neg (by omega), if_neg (by omega), if_neg (by omega)]
  · rw [if_neg (by tauto), if_neg (by tauto), if_neg (by tauto)]

theorem Copies.put_comm (T : Copies) (hne : c ≠ c') (lo hi lo' hi' v v' : Nat) :
    (T.put lo hi c v).put lo' hi' c' v' = (T.put lo' hi' c' v').put lo hi c v := by
  funext f d
  simp only [Copies.put]
  by_cases hd : d = c
  · rw [if_neg (by rintro ⟨-, -, rfl⟩; exact hne hd.symm)]
    split
    · rfl
    · rw [if_neg (by rintro ⟨-, -, rfl⟩; exact hne hd.symm)]
  · rw [if_neg (fun hin => hd hin.2.2 : ¬(lo ≤ f ∧ f < hi ∧ d = c))]
    rw [if_neg (fun hin => hd hin.2.2 : ¬(lo ≤ f ∧ f < hi ∧ d = c))]

theorem Copies.put_same (T : Copies) (h : lo ≤ f) (h' : f < hi) (c v : Nat) :
    T.put lo hi c v f c = v :=
  if_pos ⟨h, h', rfl⟩

theorem Copies.put_other (T : Copies) (lo hi v f : Nat) (h : c' ≠ c) :
    T.put lo hi c v f c' = T f c' :=
  if_neg fun hin => h hin.2.2

theorem Copies.put_cases (T : Copies) (lo hi c v f : Nat) :
    T.put lo hi c v f c = T f c ∨ T.put lo hi c v f c = v := by
  simp only [Copies.put]
  split
  · exact Or.inr rfl
  · exact Or.inl rfl

/-- To write what is there already changes no entry. -/
theorem Reads.rewrite (hp : fs.Plain) (h : Reads fs vol T) (lba : Nat) :
    Reads fs (fatWriteLba vol lba (vol.disk lba)) T := by
  have hdisk : (fatWriteLba vol lba (vol.disk lba)).disk = vol.disk := by
    rw [fatWriteLba_disk, Function.update_eq_self]
  exact ⟨by rw [hdisk]; exact h.entry, h.coherent.write hp.regular.bps_pos lba _⟩

/-- A write is done or, where no sector is left half written, not begun. -/
theorem writeLba_cases (hcalm : Calm fs io prev zero) (a : Access) (vol : FatVol) (lba : Nat) (buf : Bytes) :
    (writeLba fs io a vol lba buf = (true, fatWriteLba vol lba buf) ∧ io.works a = true) ∨
      (writeLba fs io a vol lba buf = (false, fatWriteLba vol lba (vol.disk lba)) ∧ io.works a = false) := by
  rw [writeLba]
  cases hworks : io.works a with
  | true => exact Or.inl ⟨rfl, rfl⟩
  | false =>
    right
    have hnone : min (io.done a) ((fs.bps + 511) / 512 - 1) = 0 := by
      obtain hbps | hdone := hcalm.pieces
      · rw [hbps]
        exact Nat.min_zero _
      · rw [hdone a]
        exact Nat.zero_min _
    refine ⟨?_, rfl⟩
    rw [hnone, if_neg Bool.false_ne_true]
    have hkeep : (fun i => if i < 0 * 512 then buf i else vol.disk lba i) = vol.disk lba := by
      funext i
      exact if_neg (by omega)
    exact congrArg (fun b => (false, fatWriteLba vol lba b)) hkeep

theorem fatSetCopy_reads (hp : fs.Plain) (h : Reads fs vol T) (hf : f < fs.fats) (hc : 2 ≤ c)
    (hb : c < fs.bound) (v : Nat) :
    ∃ vol', fatSetCopy fs vol c v f = some vol' ∧
      Reads fs vol' (T.put f (f + 1) c (v % 2 ^ fs.width)) := by
  have hr := hp.regular
  obtain ⟨vol', hset, hbytes, -, hkeep⟩ := @fatSetCopy_spec fs vol c f hr hc hb hf v
  refine ⟨vol', hset, ?_, hkeep h.coherent⟩
  intro f' hf' c' hc' hb'
  have hentry : fs.entry vol'.disk f' c' = entryAt fs.fatBits c' (if f' = f then
      patched fs.fatBits c v (fatByte fs vol.disk f) (fatEntryByte fs.fatBits c)
      else fatByte fs vol.disk f') (fatEntryByte fs.fatBits c') := by
    apply entryAt_congr
    intro j hj
    rw [hbytes f' _ (hr.room c' hb' j hj)]
    split
    · rfl
    · rfl
  rw [hentry, Copies.put]
  by_cases hff : f' = f
  · subst hff
    rw [if_pos rfl]
    by_cases hcc : c' = c
    · subst hcc
      rw [if_pos ⟨le_rfl, Nat.lt_succ_self _, rfl⟩, FatFs.width]
      exact entryAt_patched hr.bits v
    · rw [if_neg (by tauto), entryAt_patched_other hr.bits hcc]
      exact h.entry f' hf' c' hc' hb'
  · rw [if_neg hff, if_neg (by omega)]
    exact h.entry f' hf' c' hc' hb'

/-- One copy is set, or stays as it is. -/
theorem setCopy_reads (hp : fs.Plain) (hcalm : Calm fs io prev zero) (h : Reads fs vol T) (hf : f < fs.fats)
    (hc : 2 ≤ c) (hb : c < fs.bound) (hr : setCopy fs io call vol c v f = r) :
    (r.1 = true → Reads fs r.2 (T.put f (f + 1) c (v % 2 ^ fs.width))) ∧
      (r.1 = false → Reads fs r.2 T) ∧
      ((∀ half write, io.works (.set call f half write) = true) → r.1 = true) := by
  obtain ⟨vol', hset, hreads⟩ := fatSetCopy_reads hp h hf hc hb v
  have hpatch := fatPatchEntry_eq hp.regular hc hb
    (readRange fs vol.disk (fs.reserved + fatEntryByte fs.fatBits c / fs.bps + f * fs.fatSectors)) v
  rw [fatSetCopy, fatTableLba_eq] at hset
  rw [setCopy, fatTableLba_eq] at hr
  dsimp only at hset hr
  rw [hpatch] at hset hr
  dsimp only at hset hr
  have hstay : ∀ vol₁, Reads fs vol₁ T →
      (¬ ∀ half write, io.works (.set call f half write) = true) → r = (false, vol₁) →
      (r.1 = true → Reads fs r.2 (T.put f (f + 1) c (v % 2 ^ fs.width))) ∧
        (r.1 = false → Reads fs r.2 T) ∧
        ((∀ half write, io.works (.set call f half write) = true) → r.1 = true) := by
    intro vol₁ h₁ hio heq
    subst heq
    exact ⟨fun h => absurd h Bool.false_ne_true, fun _ => h₁, fun hall => absurd hall hio⟩
  cases h0 : io.works (.set call f 0 false) with
  | false =>
    rw [h0, Bool.not_false, if_pos rfl] at hr
    exact hstay vol h (fun hall => by rw [hall] at h0; cases h0) hr.symm
  | true =>
    rw [h0, Bool.not_true, if_neg Bool.false_ne_true] at hr
    split at hr
    · rename_i h1
      rw [Bool.and_eq_true, Bool.not_eq_true'] at h1
      exact hstay vol h (fun hall => by rw [hall] at h1; cases h1.2) hr.symm
    · obtain ⟨hwrite, hworks⟩ | ⟨hwrite, hworks⟩ := writeLba_cases hcalm (.set call f 0 true) vol
          (fs.reserved + fatEntryByte fs.fatBits c / fs.bps + f * fs.fatSectors)
          (patched fs.fatBits c v (readRange fs vol.disk
            (fs.reserved + fatEntryByte fs.fatBits c / fs.bps + f * fs.fatSectors))
            (fatEntryByte fs.fatBits c % fs.bps))
      · rw [hwrite, Bool.not_true, if_neg Bool.false_ne_true] at hr
        have hdone : r = (true, vol') := by
          split at hr
          · rename_i hcross
            rw [writeLba, hcalm.whole (of_decide_eq_true hcross).1 call f hf, if_pos rfl] at hr
            rw [if_pos hcross] at hset
            cases hset
            exact hr.symm
          · rename_i hcross
            rw [if_neg hcross] at hset
            cases hset
            exact hr.symm
        subst hdone
        exact ⟨fun _ => hreads, fun h => absurd h.symm Bool.false_ne_true, fun _ => rfl⟩
      · rw [hwrite, Bool.not_false, if_pos rfl] at hr
        exact hstay _ (h.rewrite hp _) (fun hall => by rw [hall] at hworks; cases hworks) hr.symm

theorem setCopies_reads (hp : fs.Plain) (hcalm : Calm fs io prev zero) (h : Reads fs vol T)
    (hf : f + left ≤ fs.fats) (hc : 2 ≤ c) (hb : c < fs.bound)
    (hr : setCopies fs io call c v left f vol = r) :
    ∃ k ≤ left, Reads fs r.2 (T.put f (f + k) c (v % 2 ^ fs.width)) ∧ (r.1 = true → k = left) ∧
      ((∀ f half write, f < fs.fats → io.works (.set call f half write) = true) → r.1 = true) := by
  induction left generalizing f vol T with
  | zero =>
    obtain rfl := hr
    refine ⟨0, le_rfl, ?_, fun _ => rfl, fun _ => rfl⟩
    rw [Nat.add_zero, Copies.put_empty]
    exact h
  | succ left ih =>
    rw [setCopies] at hr
    generalize hone : setCopy fs io call vol c v f = r₁ at hr
    obtain ⟨hok, hbad, hall⟩ := setCopy_reads hp hcalm h (by omega) hc hb hone
    split at hr
    · rename_i hyes
      obtain ⟨k, hk, hreads, hfull, hworks⟩ := ih (hok hyes) (by omega) hr
      refine ⟨k + 1, by omega, ?_, fun hyes => by rw [hfull hyes], hworks⟩
      rw [Copies.put_put T (by omega) (by omega)] at hreads
      rwa [show f + (k + 1) = f + 1 + k by omega]
    · rename_i hno
      rw [Bool.not_eq_true] at hno
      subst hr
      refine ⟨0, Nat.zero_le _, ?_, fun hyes => ?_, fun hio => hall fun half write => hio f half write (by omega)⟩
      · rw [Nat.add_zero, Copies.put_empty]
        exact hbad hno
      · rw [hno] at hyes
        cases hyes

/-- `fat_set_next` sets the copies from the first on, all of them when it succeeds. -/
theorem setNext_reads (hp : fs.Plain) (hcalm : Calm fs io prev zero) (h : Reads fs vol T) (hc : 2 ≤ c)
    (hb : c < fs.bound) (hr : setNext fs io call vol c v = r) :
    ∃ k ≤ fs.fats, Reads fs r.2 (T.put 0 k c (v % 2 ^ fs.width)) ∧ (r.1 = true → k = fs.fats) ∧
      ((∀ f half write, f < fs.fats → io.works (.set call f half write) = true) → r.1 = true) := by
  rw [setNext, if_neg (by omega)] at hr
  obtain ⟨k, hk, hreads, hfull, hworks⟩ :=
    setCopies_reads hp hcalm h (Nat.le_of_eq (Nat.zero_add _)) hc hb hr
  rw [Nat.zero_add] at hreads
  exact ⟨k, hk, hreads, hfull, hworks⟩

theorem FatFs.Plain.fits (hp : fs.Plain) (hb : c < fs.bound) : c % 2 ^ fs.width = c := by
  have heoc : fatEoc fs < 2 ^ fs.width := by
    rw [← hp.eoc]
    exact Nat.mod_lt _ (Nat.two_pow_pos _)
  exact Nat.mod_eq_of_lt (hb.trans (hp.bound.trans_lt heoc))

/-- An entry whose bytes are all in one sector. -/
def FatFs.Within (fs : FatFs) (c : Nat) : Prop :=
  ¬(fs.fatBits = 12 ∧ fs.bps < fatEntryByte fs.fatBits c % fs.bps + 2)

/-- The sector of an entry in a copy. -/
def FatFs.sector (fs : FatFs) (c f : Nat) : Nat :=
  fs.reserved + fatEntryByte fs.fatBits c / fs.bps + f * fs.fatSectors

theorem patch_reads (hp : fs.Plain) (h : Reads fs vol T) (hf : f < fs.fats) (hc : 2 ≤ c)
    (hb : c < fs.bound) (hwithin : fs.Within c) (v : Nat) :
    Reads fs (fatWriteLba vol (fs.sector c f) (patched fs.fatBits c v
      (readRange fs vol.disk (fs.sector c f)) (fatEntryByte fs.fatBits c % fs.bps)))
      (T.put f (f + 1) c (v % 2 ^ fs.width)) := by
  obtain ⟨vol', hset, hreads⟩ := fatSetCopy_reads hp h hf hc hb v
  rw [fatSetCopy, fatTableLba_eq] at hset
  dsimp only at hset
  rw [fatPatchEntry_eq hp.regular hc hb] at hset
  dsimp only at hset
  rw [if_neg (by simpa [FatFs.Within] using hwithin)] at hset
  cases hset
  exact hreads

/-- Of two writes of a sector the second counts. -/
theorem fatWriteLba_twice (vol : FatVol) (lba : Nat) (a b : Bytes) :
    fatWriteLba (fatWriteLba vol lba a) lba b = fatWriteLba vol lba b := by
  by_cases hin : lba ≤ (vol.fbufLba + 1) % 2 ^ 64 ∧ vol.fbufLba < (lba + 1) % 2 ^ 64
  · simp only [fatWriteLba, fatInval, if_pos hin, Function.update_idem, ite_self]
  · simp only [fatWriteLba, fatInval, if_neg hin, Function.update_idem]

theorem readRange_write (hb : 0 < fs.bps) {d : Nat → Bytes} {buf : Bytes}
    (hrest : ∀ i, fs.bps ≤ i → buf i = readRange fs d lba i) :
    readRange fs (Function.update d lba buf) lba = buf := by
  funext i
  rw [readRange]
  obtain hin | hout := Nat.lt_or_ge i fs.bps
  · rw [Nat.div_eq_of_lt hin, Nat.mod_eq_of_lt hin, Nat.add_zero, Function.update_self]
  · have hpos : 0 < i / fs.bps := Nat.div_pos hout hb
    rw [Function.update_of_ne (by omega), hrest i hout, readRange]

/-- Entries set in the same sector. -/
theorem patch_patch_reads (hp : fs.Plain) (h : Reads fs vol T) (hf : f < fs.fats) (hc : 2 ≤ c)
    (hb : c < fs.bound) (hwithin : fs.Within c) (hc' : 2 ≤ c') (hb' : c' < fs.bound)
    (hwithin' : fs.Within c') (hsame : fs.sector c f = fs.sector c' f) (v v' : Nat) :
    Reads fs (fatWriteLba vol (fs.sector c f) (patched fs.fatBits c' v' (patched fs.fatBits c v
      (readRange fs vol.disk (fs.sector c f)) (fatEntryByte fs.fatBits c % fs.bps))
      (fatEntryByte fs.fatBits c' % fs.bps)))
      ((T.put f (f + 1) c (v % 2 ^ fs.width)).put f (f + 1) c' (v' % 2 ^ fs.width)) := by
  have hone := patch_reads hp h hf hc hb hwithin v
  have htwo := patch_reads hp hone hf hc' hb' hwithin' v'
  rw [← hsame, fatWriteLba_twice, fatWriteLba_disk, readRange_write hp.regular.bps_pos] at htwo
  · exact htwo
  · intro i hi
    apply patched_outside
    right
    have hmod := Nat.mod_lt (fatEntryByte fs.fatBits c) hp.regular.bps_pos
    by_cases h12 : fs.fatBits = 12
    · have hin : ¬fs.bps < fatEntryByte fs.fatBits c % fs.bps + 2 := fun hlt => hwithin ⟨h12, hlt⟩
      have hbytes : fatEntryBytes fs.fatBits = 2 := by
        rw [h12]
        rfl
      omega
    · exact (entry_aligned hp.regular h12).trans hi

end Tables

section Append

variable {fs : FatFs} {vol vol' : FatVol} {T T' T'' : Copies} {io : Device} {call : SetCall}
  {next prev k k' hi : Nat} {zero : Bool}

/-- Only the entries of `next` have changed, and not to a link. -/
structure Touched (fs : FatFs) (next : Nat) (T T' : Copies) : Prop where
  others : ∀ f c, c ≠ next → T' f c = T f c
  ends : ∀ f, T' f next = T f next ∨ T' f next = fatEoc fs ∨ T' f next = 0

theorem Touched.refl (fs : FatFs) (next : Nat) (T : Copies) : Touched fs next T T :=
  ⟨fun _ _ _ => rfl, fun _ => Or.inl rfl⟩

theorem Touched.put (h : Touched fs next T T') (lo hi : Nat) (hv : v = fatEoc fs ∨ v = 0) :
    Touched fs next T (T'.put lo hi next v) := by
  refine ⟨fun f c hc => ?_, fun f => ?_⟩
  · rw [Copies.put_other T' lo hi v f hc]
    exact h.others f c hc
  · obtain heq | heq := Copies.put_cases T' lo hi next v f
    · rw [heq]
      exact h.ends f
    · rw [heq]
      exact Or.inr hv

/-- To set `next` free again leaves nothing but its own entries changed. -/
theorem clear_reads (call : SetCall) (hp : fs.Plain) (hcalm : Calm fs io prev zero) (h : Reads fs vol T')
    (htouched : Touched fs next T T') (hn : 2 ≤ next) (hnb : next < fs.bound) :
    ∃ T'', Reads fs (setNext fs io call vol next 0).2 T'' ∧ Touched fs next T T'' := by
  generalize hr : setNext fs io call vol next 0 = r
  obtain ⟨k, -, hreads, -, -⟩ := setNext_reads hp hcalm h hn hnb hr
  rw [Nat.zero_mod] at hreads
  exact ⟨_, hreads, htouched.put 0 k (Or.inr rfl)⟩

/-- A turn links `prev` to `next` in its copy or changes no other entry than that of `next`. -/
theorem appendTurn_reads (hp : fs.Plain) (hcalm : Calm fs io prev zero) (h : Reads fs vol T) (hf : f < fs.fats)
    (hn : 2 ≤ next) (hnb : next < fs.bound) (hprev : 2 ≤ prev) (hprevb : prev < fs.bound)
    (hwn : fs.Within next) (hwp : fs.Within prev) (hr : appendTurn fs io vol prev next f = r) :
    (r.1 = true → Reads fs r.2 ((T.put f (f + 1) next (fatEoc fs)).put f (f + 1) prev next)) ∧
      (r.1 = false → ∃ T', Reads fs r.2 T' ∧ Touched fs next T T') ∧
      ((∀ write, io.works (.next f write) = true ∧ io.works (.prev f write) = true) → r.1 = true) := by
  have hpatchN := fun sec => fatPatchEntry_eq hp.regular hn hnb sec (fatEoc fs)
  have hpatchP := fun sec => fatPatchEntry_eq hp.regular hprev hprevb sec next
  have hfits := hp.fits hnb
  have heoc := hp.eoc
  rw [appendTurn, fatTableLba_eq, fatTableLba_eq] at hr
  dsimp only at hr
  simp only [hpatchN, hpatchP] at hr
  have hsector : ∀ c, fs.reserved + fatEntryByte fs.fatBits c / fs.bps + f * fs.fatSectors =
      fs.sector c f := fun _ => rfl
  simp only [hsector] at hr
  have hfail : ∀ vol₁ T', Reads fs vol₁ T' → Touched fs next T T' →
      (¬ ∀ write, io.works (.next f write) = true ∧ io.works (.prev f write) = true) →
      r = (false, vol₁) →
      (r.1 = true → Reads fs r.2 ((T.put f (f + 1) next (fatEoc fs)).put f (f + 1) prev next)) ∧
        (r.1 = false → ∃ T', Reads fs r.2 T' ∧ Touched fs next T T') ∧
        ((∀ write, io.works (.next f write) = true ∧ io.works (.prev f write) = true) →
          r.1 = true) := by
    intro vol₁ T' hreads htouched hio heq
    subst heq
    exact ⟨fun h => absurd h Bool.false_ne_true, fun _ => ⟨T', hreads, htouched⟩,
      fun hall => absurd hall hio⟩
  cases h0 : io.works (.next f false) with
  | false =>
    rw [h0, Bool.not_false, if_pos rfl] at hr
    exact hfail vol T h (Touched.refl fs next T) (fun hall => by rw [(hall false).1] at h0; cases h0) hr.symm
  | true =>
    rw [h0, Bool.not_true, if_neg Bool.false_ne_true] at hr
    by_cases hsame : fs.sector next f = fs.sector prev f
    · rw [if_pos hsame] at hr
      obtain ⟨hwrite, hworks⟩ | ⟨hwrite, hworks⟩ := writeLba_cases hcalm (.next f true) vol
        (fs.sector next f) (patched fs.fatBits prev next (patched fs.fatBits next (fatEoc fs)
          (readRange fs vol.disk (fs.sector next f)) (fatEntryByte fs.fatBits next % fs.bps))
          (fatEntryByte fs.fatBits prev % fs.bps))
      · have hreads := patch_patch_reads hp h hf hn hnb hwn hprev hprevb hwp hsame (fatEoc fs) next
        rw [heoc, hfits] at hreads
        rw [← hr, hwrite]
        exact ⟨fun _ => hreads, fun h => absurd h.symm Bool.false_ne_true, fun _ => rfl⟩
      · exact hfail _ T (h.rewrite hp _) (Touched.refl fs next T)
          (fun hall => by rw [(hall true).1] at hworks; cases hworks) (hr.symm.trans hwrite)
    · rw [if_neg hsame] at hr
      have hfirst := patch_reads hp h hf hn hnb hwn (fatEoc fs)
      rw [heoc] at hfirst
      have htouched := (Touched.refl fs next T).put f (f + 1) (Or.inl rfl)
      obtain ⟨hwrite, hworks⟩ | ⟨hwrite, hworks⟩ := writeLba_cases hcalm (.next f true) vol
        (fs.sector next f) (patched fs.fatBits next (fatEoc fs)
          (readRange fs vol.disk (fs.sector next f)) (fatEntryByte fs.fatBits next % fs.bps))
      · rw [hwrite, Bool.not_true, if_neg Bool.false_ne_true] at hr
        dsimp only at hr
        generalize fatWriteLba vol (fs.sector next f) (patched fs.fatBits next (fatEoc fs)
          (readRange fs vol.disk (fs.sector next f)) (fatEntryByte fs.fatBits next % fs.bps)) = vol₁
          at hr hfirst
        obtain ⟨T'', hcleared, hundone⟩ :=
          clear_reads .clearTurn hp hcalm hfirst htouched hn hnb
        cases h1 : io.works (.prev f false) with
        | false =>
          rw [h1, Bool.not_false, if_pos rfl] at hr
          exact hfail _ T'' hcleared hundone
            (fun hall => by rw [(hall false).2] at h1; cases h1) hr.symm
        | true =>
          rw [h1, Bool.not_true, if_neg Bool.false_ne_true] at hr
          obtain ⟨hwrite', hworks'⟩ | ⟨hwrite', hworks'⟩ := writeLba_cases hcalm (.prev f true) vol₁
            (fs.sector prev f) (patched fs.fatBits prev next
              (readRange fs vol₁.disk (fs.sector prev f)) (fatEntryByte fs.fatBits prev % fs.bps))
          · have hreads := patch_reads hp hfirst hf hprev hprevb hwp next
            rw [hfits] at hreads
            rw [hwrite', if_pos rfl] at hr
            rw [← hr]
            exact ⟨fun _ => hreads, fun h => absurd h.symm Bool.false_ne_true, fun _ => rfl⟩
          · rw [hwrite', if_neg Bool.false_ne_true] at hr
            dsimp only at hr
            obtain ⟨T₃, hcleared', hundone'⟩ :=
              clear_reads .clearTurn hp hcalm (hfirst.rewrite hp (fs.sector prev f)) htouched hn hnb
            exact hfail _ T₃ hcleared' hundone'
              (fun hall => by rw [(hall true).2] at hworks'; cases hworks') hr.symm
      · rw [hwrite, Bool.not_false, if_pos rfl] at hr
        exact hfail _ T (h.rewrite hp _) (Touched.refl fs next T)
          (fun hall => by rw [(hall true).1] at hworks; cases hworks) hr.symm

/-- The copies from `lo` up to `hi` with `next` as the end of the chain behind `prev`. -/
def Copies.link (fs : FatFs) (T : Copies) (lo hi prev next : Nat) : Copies :=
  (T.put lo hi next (fatEoc fs)).put lo hi prev next

theorem Copies.link_link (T : Copies) (hne : next ≠ prev) (h : lo ≤ mid) (h' : mid ≤ hi) :
    ((T.link fs lo mid prev next).link fs mid hi prev next) = T.link fs lo hi prev next := by
  rw [Copies.link, Copies.link, Copies.link, Copies.put_comm _ hne.symm, Copies.put_put T h h',
    Copies.put_put _ h h']

theorem appendTurns_reads (hp : fs.Plain) (hcalm : Calm fs io prev zero) (h : Reads fs vol T)
    (hf : f + left ≤ fs.fats) (hn : 2 ≤ next) (hnb : next < fs.bound) (hprev : 2 ≤ prev)
    (hprevb : prev < fs.bound) (hne : next ≠ prev) (hwn : fs.Within next) (hwp : fs.Within prev)
    (hr : appendTurns fs io prev next left f vol = r) :
    (r.1 = true → Reads fs r.2 (T.link fs f (f + left) prev next)) ∧
      (r.1 = false → ∃ T', Reads fs r.2 T' ∧ Touched fs next T T') ∧
      ((∀ f', f ≤ f' → f' < fs.fats → ∀ write,
        io.works (.next f' write) = true ∧ io.works (.prev f' write) = true) → r.1 = true) := by
  induction left generalizing f vol T with
  | zero =>
    obtain rfl := hr
    refine ⟨fun _ => ?_, fun h => absurd h.symm Bool.false_ne_true, fun _ => rfl⟩
    rw [Nat.add_zero, Copies.link, Copies.put_empty, Copies.put_empty]
    exact h
  | succ left ih =>
    rw [appendTurns] at hr
    generalize hone : appendTurn fs io vol prev next f = r₁ at hr
    obtain ⟨hok, hbad, hall⟩ :=
      appendTurn_reads hp hcalm h (by omega) hn hnb hprev hprevb hwn hwp hone
    split at hr
    · rename_i hyes
      obtain ⟨hlinked, -, hworks⟩ := ih (hok hyes) (by omega) hr
      have hdone := hworks fun f' hf' hfats write =>
        ⟨hcalm.ends hprev f' write (by omega) hfats, hcalm.links hprev f' write (by omega) hfats⟩
      refine ⟨fun _ => ?_, fun hno => ?_, fun _ => hdone⟩
      · have hreads := hlinked hdone
        rw [← Copies.link, Copies.link_link T hne (by omega) (by omega)] at hreads
        rwa [show f + (left + 1) = f + 1 + left by omega]
      · rw [hdone] at hno
        cases hno
    · rename_i hno
      rw [Bool.not_eq_true] at hno
      subst hr
      refine ⟨fun hyes => ?_, hbad, fun hio => hall (hio f le_rfl (by omega))⟩
      rw [hno] at hyes
      cases hyes

/-- What a failed append may leave behind: no link that was not there, except one to a `next` in use. -/
structure Undone (fs : FatFs) (prev next : Nat) (T T' : Copies) : Prop where
  others : ∀ f c, c ≠ next → c ≠ prev → T' f c = T f c
  ends : ∀ f, T' f next = T f next ∨ T' f next = fatEoc fs ∨ T' f next = 0
  links : ∀ f, T' f prev = T f prev ∨ T' f prev = fatEoc fs ∨
    (T' f prev = next ∧ T' 0 next = fatEoc fs)

theorem Touched.undone (h : Touched fs next T T') (hne : next ≠ prev) : Undone fs prev next T T' :=
  ⟨fun f c hc _ => h.others f c hc, h.ends, fun f => Or.inl (h.others f prev hne.symm)⟩

/-- The entries of `prev` may be left as links when `next` is left as an end. -/
theorem Touched.relink (h : Touched fs next T T') (hends : T' 0 next = fatEoc fs) (hne : next ≠ prev) :
    Undone fs prev next T ((T'.put 0 k prev next).put 0 k' prev (fatEoc fs)) := by
  refine ⟨fun f c hc hc' => ?_, fun f => ?_, fun f => ?_⟩
  · rw [Copies.put_other _ _ _ _ _ hc', Copies.put_other _ _ _ _ _ hc']
    exact h.others f c hc
  · rw [Copies.put_other _ _ _ _ _ hne, Copies.put_other _ _ _ _ _ hne]
    exact h.ends f
  · rw [Copies.put_other _ 0 k' (fatEoc fs) 0 hne, Copies.put_other _ 0 k next 0 hne]
    obtain heq | heq := Copies.put_cases (T'.put 0 k prev next) 0 k' prev (fatEoc fs) f
    · rw [heq]
      obtain heq | heq := Copies.put_cases T' 0 k prev next f
      · rw [heq]
        exact Or.inl (h.others f prev hne.symm)
      · exact Or.inr (Or.inr ⟨heq, hends⟩)
    · exact Or.inr (Or.inl heq)

/-- Once no entry of `prev` is left as a link, `next` may be set free. -/
theorem Touched.unlink (h : Touched fs next T T') (hk : k ≤ hi)
    (hcleared : Touched fs next ((T'.put 0 k prev next).put 0 hi prev (fatEoc fs)) T'') (hne : next ≠ prev) :
    Undone fs prev next T T'' := by
  refine ⟨fun f c hc hc' => ?_, fun f => ?_, fun f => ?_⟩
  · rw [hcleared.others f c hc, Copies.put_other _ _ _ _ _ hc', Copies.put_other _ _ _ _ _ hc']
    exact h.others f c hc
  · have hends := hcleared.ends f
    rw [Copies.put_other _ _ _ _ _ hne, Copies.put_other _ _ _ _ _ hne] at hends
    obtain heq | heq := hends
    · rw [heq]
      exact h.ends f
    · exact Or.inr heq
  · rw [hcleared.others f prev hne.symm]
    by_cases hf : f < hi
    · rw [Copies.put_same _ (Nat.zero_le f) hf]
      exact Or.inr (Or.inl rfl)
    · rw [Copies.put, if_neg (by omega), Copies.put, if_neg (by omega)]
      exact Or.inl (h.others f prev hne.symm)

/-- The table after an append. -/
def Copies.append (fs : FatFs) (T : Copies) (prev next : Nat) : Copies :=
  if prev < 2 then T.put 0 fs.fats next (fatEoc fs) else T.link fs 0 fs.fats prev next

/-- `fat_chain_append` links `next` in every copy, or takes back what it did; with working accesses it
fails only for a `prev` that is no cluster, with nothing done. -/
theorem chainAppend_reads (hp : fs.Plain) (hcalm : Calm fs io prev zero) (h : Reads fs vol T) (hn : 2 ≤ next)
    (hnb : next < fs.bound) (hne : next ≠ prev) (hr : chainAppend fs io vol prev next = r) :
    (r.1 = true → prev < fs.bound ∧ Reads fs r.2 (T.append fs prev next)) ∧
      (r.1 = false → ∃ T', Reads fs r.2 T' ∧ Undone fs prev next T T') ∧
      ((∀ a, io.works a = true) → r.1 = false → Reads fs r.2 T) := by
  have hfits := hp.fits hnb
  have heoc := hp.eoc
  have hstart := Touched.refl fs next T
  rw [chainAppend, if_neg (by omega)] at hr
  by_cases hsmall : prev < 2
  · rw [if_pos hsmall] at hr
    obtain ⟨k, -, hreads, hfull, hworks⟩ := setNext_reads hp hcalm h hn hnb hr
    rw [heoc] at hreads
    refine ⟨fun hyes => ⟨by omega, ?_⟩, fun _ => ⟨_, hreads, (hstart.put 0 k (Or.inl rfl)).undone hne⟩,
      fun hio hno => ?_⟩
    · rw [Copies.append, if_pos hsmall, ← hfull hyes]
      exact hreads
    · rw [hworks fun _ _ _ _ => hio _] at hno
      cases hno
  rw [if_neg hsmall] at hr
  by_cases hprevb : fs.bound ≤ prev
  · rw [if_pos hprevb] at hr
    subst hr
    exact ⟨fun h => absurd h Bool.false_ne_true, fun _ => ⟨T, h, hstart.undone hne⟩, fun _ _ => h⟩
  rw [if_neg hprevb] at hr
  have happend : T.append fs prev next = T.link fs 0 fs.fats prev next := if_neg hsmall
  have hprev : 2 ≤ prev := Nat.not_lt.mp hsmall
  have hin : prev < fs.bound := Nat.not_le.mp hprevb
  rw [happend]
  split at hr
  · generalize hone : setNext fs io .endNext vol next (fatEoc fs) = r₁ at hr
    obtain ⟨k, -, hends, hfull, hworks⟩ := setNext_reads hp hcalm h hn hnb hone
    rw [heoc] at hends
    have htouched := hstart.put 0 k (Or.inl rfl)
    dsimp only at hr
    cases hok : r₁.1 with
    | false =>
      rw [hok, Bool.not_false, if_pos rfl] at hr
      subst hr
      obtain ⟨T', hreads, hcleared⟩ := clear_reads .clear hp hcalm hends htouched hn hnb
      refine ⟨fun h => absurd h Bool.false_ne_true, fun _ => ⟨T', hreads, hcleared.undone hne⟩,
        fun hio _ => ?_⟩
      rw [hworks fun _ _ _ _ => hio _] at hok
      cases hok
    | true =>
      rw [hok, Bool.not_true, if_neg Bool.false_ne_true] at hr
      rw [hfull hok] at hends
      have htouched' := hstart.put 0 fs.fats (Or.inl rfl)
      generalize htwo : setNext fs io .linkPrev r₁.2 prev next = r₂ at hr
      obtain ⟨k₂, hk₂, hlinks, hfull₂, hworks₂⟩ := setNext_reads hp hcalm hends hprev hin htwo
      rw [hfits] at hlinks
      split at hr
      · rename_i hyes
        subst hr
        rw [hfull₂ hyes] at hlinks
        refine ⟨fun _ => ⟨hin, hlinks⟩, fun hno => ?_, fun _ hno => ?_⟩
        · rw [hyes] at hno
          cases hno
        · rw [hyes] at hno
          cases hno
      · rename_i hno
        have hfails : ¬∀ a, io.works a = true := fun hio => hno (hworks₂ fun _ _ _ _ => hio _)
        generalize hthree : setNext fs io .unlinkPrev r₂.2 prev (fatEoc fs) = r₃ at hr
        obtain ⟨k₃, hk₃, hunlinks, hfull₃, -⟩ := setNext_reads hp hcalm hlinks hprev hin hthree
        rw [heoc] at hunlinks
        cases hback : r₃.1 with
        | false =>
          rw [hback, if_neg Bool.false_ne_true] at hr
          subst hr
          refine ⟨fun hyes => ?_, fun _ => ⟨_, hunlinks, ?_⟩, fun hio => absurd hio hfails⟩
          · rw [hback] at hyes
            cases hyes
          · exact htouched'.relink (Copies.put_same T (Nat.zero_le 0) hp.regular.fats_pos next _) hne
        | true =>
          rw [hback, if_pos rfl] at hr
          subst hr
          rw [hfull₃ hback] at hunlinks
          obtain ⟨T', hreads, hcleared⟩ :=
            clear_reads .clear hp hcalm hunlinks (Touched.refl fs next _) hn hnb
          exact ⟨fun h => absurd h Bool.false_ne_true,
            fun _ => ⟨T', hreads, htouched'.unlink hk₂ hcleared hne⟩, fun hio => absurd hio hfails⟩
  · rename_i hcross
    have hwn : fs.Within next := fun hin => hcross ⟨hin.1, Or.inl hin.2⟩
    have hwp : fs.Within prev := fun hin => hcross ⟨hin.1, Or.inr hin.2⟩
    generalize hturns : appendTurns fs io prev next fs.fats 0 vol = r₁ at hr
    obtain ⟨hok, hbad, hworks⟩ := appendTurns_reads hp hcalm h (Nat.le_of_eq (Nat.zero_add _)) hn hnb
      hprev hin hne hwn hwp hturns
    dsimp only at hr
    rw [Nat.zero_add] at hok
    split at hr
    · rename_i hyes
      subst hr
      refine ⟨fun _ => ⟨hin, hok hyes⟩, fun hno => ?_, fun _ hno => ?_⟩
      · rw [hyes] at hno
        cases hno
      · rw [hyes] at hno
        cases hno
    · rename_i hno
      have hfails : ¬∀ a, io.works a = true := fun hio => hno (hworks fun _ _ _ _ => ⟨hio _, hio _⟩)
      rw [Bool.not_eq_true] at hno
      subst hr
      obtain ⟨T', hreads, htouched⟩ := hbad hno
      obtain ⟨T'', hreads', htouched'⟩ := clear_reads .clear hp hcalm hreads htouched hn hnb
      exact ⟨fun h => absurd h Bool.false_ne_true, fun _ => ⟨T'', hreads', htouched'.undone hne⟩,
        fun hio => absurd hio hfails⟩

end Append

section Found

variable {fs : FatFs} {vol vol' : FatVol} {T T' : Copies} {io : Device} {st : FatState}
  {prev c : Nat} {zero : Bool}

/-- A write behind the table changes no entry. -/
theorem Reads.write (hp : fs.Plain) (h : Reads fs vol T)
    (hlba : fs.reserved + fs.fats * fs.fatSectors ≤ lba) (buf : Bytes) :
    Reads fs (fatWriteLba vol lba buf) T := by
  refine ⟨?_, h.coherent.write hp.regular.bps_pos lba buf⟩
  intro f hf c hc hb
  rw [← h.entry f hf c hc hb]
  apply entry_congr hp.regular hb
  intro k hk
  exact fatByte_write hp.regular buf hf (Or.inr hlba) hk

theorem Reads.inval (h : Reads fs vol T) (lba n : Nat) : Reads fs (fatInval vol lba n) T := by
  rw [fatInval]
  split
  · exact ⟨h.entry, le_rfl, fun hne => absurd rfl hne⟩
  · exact h

theorem Reads.zeros (hp : fs.Plain) (h : Reads fs vol T)
    (hlba : fs.reserved + fs.fats * fs.fatSectors ≤ lba) (n : Nat) :
    Reads fs (writeZeros n vol lba) T := by
  induction n generalizing vol lba with
  | zero => exact h
  | succ n ih => exact ih (h.write hp hlba _) (Nat.le_succ_of_le hlba)

theorem zeroFrom_reads (hp : fs.Plain) (h : Reads fs vol T)
    (hlba : fs.reserved + fs.fats * fs.fatSectors ≤ lba) (i : Nat) :
    Reads fs (zeroFrom fs io lba i vol).2 T := by
  fun_induction zeroFrom fs io lba i vol with
  | case1 i vol hi n hworks ih => exact ih (h.zeros hp (by omega) n)
  | case2 i vol hi n hfails => exact (h.inval _ n).zeros hp (by omega) _
  | case3 i vol hi => exact h

/-- The data of a cluster is behind the table. -/
theorem zeroCluster_reads (hp : fs.Plain) (h : Reads fs vol T) (c : Nat) :
    Reads fs (zeroCluster fs io vol c).2 T := by
  apply zeroFrom_reads hp h
  rw [fatClusterLba]
  exact hp.area.trans (Nat.le_add_right _ _)

theorem fatNextCluster_reads (hp : fs.Plain) (h : Reads fs vol T) (hc : 2 ≤ c) (hb : c < fs.bound) :
    (fatNextCluster fs vol c).1 = T 0 c ∧ Reads fs (fatNextCluster fs vol c).2 T := by
  obtain ⟨hvalue, hdisk, hcoherent⟩ := fatNextCluster_spec hp.regular h.coherent hc hb
  refine ⟨?_, ?_, hcoherent⟩
  · rw [hvalue]
    exact h.entry 0 hp.regular.fats_pos c hc hb
  · rw [hdisk]
    exact h.entry

/-- The search takes a cluster for free only when its entry is zero. -/
theorem nextCluster_reads (hp : fs.Plain) (h : Reads fs vol T) (works : Bool) (hc : 2 ≤ c)
    (hb : c < fs.bound) :
    ((nextCluster fs works vol c).1 = 0 → T 0 c = 0) ∧ Reads fs (nextCluster fs works vol c).2 T := by
  obtain ⟨hvalue, hreads⟩ := fatNextCluster_reads hp h hc hb
  rw [nextCluster, if_neg (by omega), fatTableLba_eq]
  dsimp only
  split
  · exact ⟨fun hzero => hvalue.symm.trans hzero, hreads⟩
  split
  · exact ⟨fun hone => absurd hone Nat.one_ne_zero, h.entry, le_rfl, fun hne => absurd rfl hne⟩
  · exact ⟨fun hzero => hvalue.symm.trans hzero, hreads⟩

theorem FatFs.after_range (hc : 2 ≤ c) (hb : c < fs.bound) : 2 ≤ fs.after c ∧ fs.after c < fs.bound := by
  rw [FatFs.after]
  split
  · exact ⟨le_rfl, hc.trans_lt hb⟩
  · exact ⟨Nat.le_succ_of_le hc, Nat.not_le.mp ‹_›⟩

theorem zeroFrom_works (hio : ∀ a, io.works a = true) (lba i : Nat) (vol : FatVol) :
    (zeroFrom fs io lba i vol).1 = true := by
  fun_induction zeroFrom fs io lba i vol with
  | case1 i vol hi n hworks ih => exact ih
  | case2 i vol hi n hfails => exact absurd (hio _) hfails
  | case3 i vol hi => rfl

/-- How an allocation ends that began with the table `T`. -/
structure Taken (fs : FatFs) (T : Copies) (prev count : Nat) (r : Nat × FatState) : Prop where
  inside : 2 ≤ r.1 ∧ r.1 < fs.bound
  behind : prev < fs.bound
  other : r.1 ≠ prev
  free : T 0 r.1 = 0
  reads : Reads fs r.2.vol (T.append fs prev r.1)
  counted : r.2.freeCount = if count = unknownCount then unknownCount else count - 1

structure Failed (fs : FatFs) (io : Device) (T : Copies) (prev count : Nat) (r : Nat × FatState) :
    Prop where
  answer : r.1 = 1
  reads : ∃ T', Reads fs r.2.vol T' ∧
    (T' = T ∨ ∃ c, 2 ≤ c ∧ c < fs.bound ∧ c ≠ prev ∧ T 0 c = 0 ∧ Undone fs prev c T T')
  works : (∀ a, io.works a = true) → Reads fs r.2.vol T
  counted : r.2.freeCount = count

/-- A free cluster is taken, or the chain is as it was but for what a failed append leaves. -/
theorem allocFound_reads (hp : fs.Plain) (hcalm : Calm fs io prev zero) (h : Reads fs st.vol T) (hc : 2 ≤ c)
    (hb : c < fs.bound) (hfree : T 0 c = 0) (huse : 2 ≤ prev → prev < fs.bound → T 0 prev ≠ 0)
    (hr : allocFound fs io prev zero c st = r) : Taken fs T prev st.freeCount r ∨ Failed fs io T prev st.freeCount r := by
  have hne : c ≠ prev := by
    intro heq
    subst heq
    exact huse hc hb hfree
  rw [allocFound] at hr
  dsimp only at hr
  generalize happend : chainAppend fs io st.vol prev c = r₁ at hr
  obtain ⟨hok, hbad, hworks⟩ := chainAppend_reads hp hcalm h hc hb hne happend
  cases hdone : r₁.1 with
  | false =>
    rw [hdone, Bool.not_false, if_pos rfl] at hr
    subst hr
    obtain ⟨T', hreads, hundone⟩ := hbad hdone
    exact Or.inr ⟨rfl, ⟨T', hreads, Or.inr ⟨c, hc, hb, hne, hfree, hundone⟩⟩,
      fun hio => hworks hio hdone, rfl⟩
  | true =>
    rw [hdone, Bool.not_true, if_neg Bool.false_ne_true] at hr
    obtain ⟨hprevb, hreads⟩ := hok hdone
    have hzero : Reads fs (if zero then zeroCluster fs io r₁.2 c else (true, r₁.2)).2
        (T.append fs prev c) := by
      split
      · exact zeroCluster_reads hp hreads c
      · exact hreads
    have hzeroed : (∀ a, io.works a = true) →
        (if zero then zeroCluster fs io r₁.2 c else (true, r₁.2)).1 = true := by
      intro hio
      split
      · exact zeroFrom_works hio _ _ _
      · rfl
    have hasked : (if zero then zeroCluster fs io r₁.2 c else (true, r₁.2)).1 = false → zero = true := by
      cases zero with
      | true => exact fun _ => rfl
      | false => exact fun h => absurd h.symm Bool.false_ne_true
    generalize (if zero then zeroCluster fs io r₁.2 c else (true, r₁.2)) = z at hr hzero hzeroed hasked
    cases hz : z.1 with
    | true =>
      rw [hz, Bool.not_true, if_neg Bool.false_ne_true] at hr
      subst hr
      exact Or.inl ⟨⟨hc, hb⟩, hprevb, hne, hfree, hzero, rfl⟩
    | false =>
      rw [hz, Bool.not_false, if_pos rfl] at hr
      subst hr
      have hfails : ¬∀ a, io.works a = true := by
        intro hio
        rw [hzeroed hio] at hz
        cases hz
      have htouched := (Touched.refl fs c T).put 0 fs.fats (Or.inl rfl)
      right
      refine ⟨rfl, ?_, fun hio => absurd hio hfails, rfl⟩
      by_cases hprev : 2 ≤ prev
      · rw [if_pos hprev]
        generalize hback : setNext fs io .zeroUnlink z.2 prev (fatEoc fs) = r₂
        obtain ⟨k, -, hunlinks, hfull, hall⟩ := setNext_reads hp hcalm hzero hprev hprevb hback
        rw [hp.eoc, hfull (hall (hcalm.unlink (hasked hz) hprev)), Copies.append, if_neg (by omega), Copies.link] at hunlinks
        obtain ⟨T', hcleared, hrest⟩ :=
          clear_reads .zeroClear hp hcalm hunlinks (Touched.refl fs c _) hc hb
        exact ⟨T', hcleared, Or.inr ⟨c, hc, hb, hne, hfree, htouched.unlink le_rfl hrest hne⟩⟩
      · rw [Copies.append, if_pos (by omega)] at hzero
        obtain ⟨T', hcleared, hrest⟩ :=
          clear_reads .zeroClear hp hcalm hzero htouched hc hb
        refine ⟨T', ?_, Or.inr ⟨c, hc, hb, hne, hfree, hrest.undone hne⟩⟩
        rw [if_neg hprev]
        exact hcleared

theorem allocScan_reads (hp : fs.Plain) (hcalm : Calm fs io prev zero) (h : Reads fs st.vol T) (hc : 2 ≤ c)
    (hb : c < fs.bound) (huse : 2 ≤ prev → prev < fs.bound → T 0 prev ≠ 0) {left : Nat}
    (hr : allocScan fs io prev zero left c st = r) : Taken fs T prev st.freeCount r ∨ Failed fs io T prev st.freeCount r := by
  induction left generalizing c st with
  | zero =>
    rw [allocScan] at hr
    subst hr
    exact Or.inr ⟨rfl, ⟨T, h, Or.inl rfl⟩, fun _ => h, rfl⟩
  | succ left ih =>
    rw [allocScan] at hr
    obtain ⟨hzero, hreads⟩ := nextCluster_reads hp h (io.works (.scan c)) hc hb
    generalize nextCluster fs (io.works (.scan c)) st.vol c = r₁ at hr hzero hreads
    split at hr
    · rename_i hfound
      exact @allocFound_reads fs T io { st with vol := r₁.2 } prev c zero _ hp hcalm hreads hc hb
        (hzero hfound) huse hr
    · obtain ⟨hlow, hhigh⟩ := FatFs.after_range hc hb
      exact @ih { st with vol := r₁.2 } _ hreads hlow hhigh hr

theorem fatAllocInner_reads (zero : Bool) (hp : fs.Plain) (hcalm : Calm fs io prev zero) (h : Reads fs st.vol T)
    (huse : 2 ≤ prev → prev < fs.bound → T 0 prev ≠ 0) :
    Taken fs T prev st.freeCount (fatAllocInner fs io st prev zero) ∨
      Failed fs io T prev st.freeCount (fatAllocInner fs io st prev zero) := by
  rw [fatAllocInner]
  split
  · exact Or.inr ⟨rfl, ⟨T, h, Or.inl rfl⟩, fun _ => h, rfl⟩
  dsimp only
  generalize hhint : (if st.allocHint < 2 ∨ fs.bound ≤ st.allocHint then 2 else st.allocHint) = hint
  by_cases hnone : fs.bound ≤ 2
  · have hcount := hp.count
    rw [show fs.clusterCount = 0 by omega, allocScan]
    exact Or.inr ⟨rfl, ⟨T, h, Or.inl rfl⟩, fun _ => h, rfl⟩
  · have hrange : 2 ≤ hint ∧ hint < fs.bound := by
      rw [← hhint]
      split
      · omega
      · omega
    exact @allocScan_reads fs T io { st with allocHint := hint } prev hint zero _ hp hcalm h hrange.1
      hrange.2 huse _ rfl

/-- The entries of a table lead to no free cluster. -/
def Copies.Sound (fs : FatFs) (T : Copies) : Prop :=
  ∀ f < fs.fats, ∀ c, 2 ≤ c → c < fs.bound → 2 ≤ T f c → T f c < fs.bound → T 0 (T f c) ≠ 0

theorem Reads.dangling_iff (hp : fs.Plain) (h : Reads fs vol T) : ¬Dangling fs vol.disk ↔ T.Sound fs := by
  constructor
  · intro hnot f hf c hc hb hlow hhigh hzero
    apply hnot
    refine ⟨f, hf, c, hc, hb, ?_⟩
    rw [h.entry f hf c hc hb, h.entry 0 hp.regular.fats_pos _ hlow hhigh]
    exact ⟨hlow, hhigh, hzero⟩
  · intro hsound hdangling
    obtain ⟨f, hf, c, hc, hb, hlow, hhigh, hzero⟩ := hdangling
    rw [h.entry f hf c hc hb] at hlow hhigh hzero
    rw [h.entry 0 hp.regular.fats_pos _ hlow hhigh] at hzero
    exact hsound f hf c hc hb hlow hhigh hzero

/-- What a failed append leaves has no link to a free cluster. -/
theorem Undone.sound (hp : fs.Plain) (h : Undone fs prev c T T') (hsound : T.Sound fs) (hfree : T 0 c = 0)
    (hc : 2 ≤ c) (hb : c < fs.bound) (hprev : 2 ≤ prev → prev < fs.bound → T 0 prev ≠ 0) :
    T'.Sound fs := by
  have heoc := hp.bound
  have hpos : 2 ≤ fatEoc fs := by omega
  -- no cluster in use becomes free
  have hused : ∀ d, 2 ≤ d → d < fs.bound → T 0 d ≠ 0 → T' 0 d ≠ 0 := by
    intro d hd hdb hne
    by_cases hdc : d = c
    · exact absurd (hdc ▸ hfree) hne
    by_cases hdp : d = prev
    · subst hdp
      obtain heq | heq | heq := h.links 0
      · rwa [heq]
      · omega
      · omega
    · rwa [h.others 0 d hdc hdp]
  intro f hf d hd hdb hlow hhigh
  -- a link is an old one or the one to `c`
  have hlink : T' f d = T f d ∨ (T' f d = c ∧ T' 0 c = fatEoc fs) := by
    by_cases hdc : d = c
    · subst hdc
      obtain heq | heq | heq := h.ends f
      · exact Or.inl heq
      · omega
      · omega
    by_cases hdp : d = prev
    · subst hdp
      obtain heq | heq | heq := h.links f
      · exact Or.inl heq
      · omega
      · exact Or.inr heq
    · exact Or.inl (h.others f d hdc hdp)
  obtain heq | ⟨heq, hends⟩ := hlink
  · rw [heq] at hlow hhigh ⊢
    exact hused _ hlow hhigh (hsound f hf d hd hdb hlow hhigh)
  · rw [heq, hends]
    omega

/-- An allocation under calm outcomes is all or nothing. -/
theorem fatAllocInner_allOrNothing (hp : fs.Plain) (hcalm : Calm fs io prev zero) (hcoherent : st.vol.Coherent fs)
    (hsound : ¬Dangling fs st.vol.disk) (huse : InUse fs st prev) :
    AllOrNothing fs st prev (fatAllocInner fs io st prev zero) := by
  have h : Reads fs st.vol (fs.entry st.vol.disk) := ⟨fun _ _ _ _ _ => rfl, hcoherent⟩
  have hfats := hp.regular.fats_pos
  obtain htaken | hfailed := fatAllocInner_reads zero hp hcalm h huse
  · generalize fatAllocInner fs io st prev zero = r at htaken
    obtain ⟨hlow, hhigh⟩ := htaken.inside
    refine {
      inside := fun _ => hhigh
      free := fun _ => htaken.free
      ends := fun _ f hf => ?_
      linked := fun _ hprev f hf => ?_
      counted := fun _ => htaken.counted
      nothing := fun hsmall => absurd hlow (by omega)
      uncounted := fun hsmall => absurd hlow (by omega) }
    · rw [htaken.reads.entry f hf _ hlow hhigh, Copies.append]
      split
      · exact Copies.put_same _ (Nat.zero_le f) hf _ _
      · rw [Copies.link, Copies.put_other _ _ _ _ _ htaken.other]
        exact Copies.put_same _ (Nat.zero_le f) hf _ _
    · rw [htaken.reads.entry f hf _ hprev htaken.behind, Copies.append, if_neg (by omega)]
      exact Copies.put_same _ (Nat.zero_le f) hf _ _
  · generalize fatAllocInner fs io st prev zero = r at hfailed
    have hone := hfailed.answer
    have hsound' := (h.dangling_iff hp).mp hsound
    refine {
      inside := fun hlow => absurd hone (by omega)
      free := fun hlow => absurd hone (by omega)
      ends := fun hlow => absurd hone (by omega)
      linked := fun hlow => absurd hone (by omega)
      counted := fun hlow => absurd hone (by omega)
      nothing := fun _ => ?_
      uncounted := fun _ => hfailed.counted }
    obtain ⟨T', hreads, hsame | ⟨c, hc, hb, -, hfree, hundone⟩⟩ := hfailed.reads
    · rw [hreads.dangling_iff hp, hsame]
      exact hsound'
    · rw [hreads.dangling_iff hp]
      exact hundone.sound hp hsound' hfree hc hb huse

end Found

end Lebirun.Fat
