import Mathlib
import Lebirun.Ext4.Replay
import Lebirun.Ext4.Access

namespace Lebirun.Ext4
set_option autoImplicit true

variable {fs : Geometry} {info : JournalInfo} {inode : MapInode} {sb block : Block} {d : Disk} {s : Span}

section Layout

/-! The tags as JBD2 writes them under each combination of features. -/

def has64bit (sb : Block) : Bool := be32 sb 40 &&& 2 ≠ 0

def hasCsumV2 (sb : Block) : Bool := be32 sb 40 &&& 8 ≠ 0

def hasCsumV3 (sb : Block) : Bool := be32 sb 40 &&& 16 ≠ 0

def jbd2TagSize (sb : Block) : Nat :=
  if hasCsumV3 sb then 16 else (if has64bit sb then 12 else 8) + if hasCsumV2 sb then 2 else 0

/-- The offset behind a tag and the UUID after it. -/
def jbd2TagEnd (sb : Block) (position : Nat) (tag : Tag) : Nat :=
  position + jbd2TagSize sb + if tag.has JBD2_FLAG_SAME_UUID then 0 else 16

/-- A tag stands at a position of a block; the bytes of its checksum are any. -/
structure TagWritten (fs : Geometry) (sb block : Block) (position : Nat) (tag : Tag) : Prop where
  low : be32 block position = tag.home % 2 ^ 32
  flags : (if hasCsumV3 sb then be32 block (position + 4)
    else 2 ^ 8 * (block (position + 6)).toNat + (block (position + 7)).toNat) = tag.flags
  high : if has64bit sb then be32 block (position + 8) = tag.home / 2 ^ 32 else tag.home < 2 ^ 32
  room : jbd2TagEnd sb position tag ≤ fs.blockSize

/-- Every tag is read back as it was written, with the offset of the next one. -/
def TagsFaithful (fs : Geometry) (sb : Block) (info : JournalInfo) : Prop :=
  ∀ block position tag, TagWritten fs sb block position tag →
    journalParseTag fs info block position = some (tag, jbd2TagEnd sb position tag)

/-- The two layouts `journal_parse_tag` knows. -/
def LayoutKnown (sb : Block) : Prop :=
  (has64bit sb = false ∧ hasCsumV2 sb = false ∧ hasCsumV3 sb = false) ∨ (has64bit sb = true ∧ hasCsumV3 sb = true)

theorem journalInfo_features (h : journalInfo fs sb = some info) :
    info.has64bit = has64bit sb ∧ info.hasCsum = (hasCsumV2 sb || hasCsumV3 sb) := by
  have hcsum : decide (be32 sb 40 &&& 24 ≠ 0) = (hasCsumV2 sb || hasCsumV3 sb) := by
    have hsplit : be32 sb 40 &&& 24 = (be32 sb 40 &&& 8) ||| (be32 sb 40 &&& 16) :=
      Nat.and_or_distrib_left (be32 sb 40) 8 16
    rw [hsplit, hasCsumV2, hasCsumV3, ← Bool.decide_or]
    congr 1
    rw [ne_eq, Nat.or_eq_zero_iff, not_and_or]
  simp only [journalInfo] at h
  split at h
  · cases h
  split at h
  · cases h
  split at h
  · cases h
  · cases h
    exact ⟨rfl, hcsum⟩

/-- The size `journal_parse_tag` takes a tag to have is the size it was written with under two layouts only. -/
theorem tagSize_eq_iff (h : journalInfo fs sb = some info) : tagSize info = jbd2TagSize sb ↔ LayoutKnown sb := by
  obtain ⟨h64, hcsum⟩ := journalInfo_features h
  rw [tagSize, jbd2TagSize, LayoutKnown, h64, hcsum]
  cases has64bit sb <;> cases hasCsumV2 sb <;> cases hasCsumV3 sb <;> decide

/-- A tag of block 0 at the beginning of a descriptor, with the flag `SAME_UUID` wherever the flags are looked for. -/
def plainTag : Block
  | 19 => 2
  | _ => 0

theorem plainTag_written (fs : Geometry) (sb : Block) : TagWritten fs sb plainTag 12 ⟨0, 2⟩ := by
  have hsize : jbd2TagSize sb ≤ 16 := by
    rw [jbd2TagSize]
    cases has64bit sb <;> cases hasCsumV2 sb <;> cases hasCsumV3 sb <;> decide
  have hroom := fs.sizeOk
  refine ⟨rfl, ?_, ?_, ?_⟩
  · cases hasCsumV3 sb <;> rfl
  · cases has64bit sb
    · exact (by decide : (0 : Nat) < 2 ^ 32)
    · rfl
  · change 12 + jbd2TagSize sb + 0 ≤ fs.blockSize
    omega

theorem tagEnd_plain (info : JournalInfo) : tagEnd info plainTag 12 = 12 + tagSize info := by
  have hflags : (tagAt info plainTag 12).flags = 2 := by
    rw [tagAt]
    cases info.has64bit <;> cases info.hasCsum <;> rfl
  rw [tagEnd, Tag.has, hflags]
  rfl

theorem tagsFaithful_iff (h : journalInfo fs sb = some info) : TagsFaithful fs sb info ↔ LayoutKnown sb := by
  obtain ⟨h64, hcsum⟩ := journalInfo_features h
  constructor
  · intro hfaithful
    have hparse := hfaithful plainTag 12 ⟨0, 2⟩ (plainTag_written fs sb)
    rw [journalParseTag] at hparse
    split at hparse
    · cases hparse
    split at hparse
    · cases hparse
    · have hend := congrArg Prod.snd (Option.some.inj hparse)
      rw [tagEnd_plain] at hend
      rw [← tagSize_eq_iff h]
      exact Nat.add_left_cancel hend
  · intro hknown block position tag hw
    have hsize := (tagSize_eq_iff h).mpr hknown
    have htag : tagAt info block position = tag := by
      have hlow := hw.low
      have hflags := hw.flags
      have hhigh := hw.high
      rw [tagAt, h64, hcsum]
      obtain ⟨hno64, hnoV2, hnoV3⟩ | ⟨hyes64, hyesV3⟩ := hknown
      · rw [hno64, if_neg Bool.false_ne_true] at hhigh
        rw [hnoV3, if_neg Bool.false_ne_true] at hflags
        rw [hno64, hnoV2, hnoV3, hlow, Nat.mod_eq_of_lt hhigh]
        cases tag
        exact congrArg _ hflags
      · rw [hyes64, if_pos rfl] at hhigh
        rw [hyesV3, if_pos rfl] at hflags
        rw [hyes64, hlow, hhigh]
        cases tag
        dsimp only at hflags
        rw [← hflags]
        dsimp only
        congr 1
        exact Nat.div_add_mod _ _
    have hend : tagEnd info block position = jbd2TagEnd sb position tag := by
      rw [tagEnd, jbd2TagEnd, htag, hsize]
    have hroom := hw.room
    have hfits : position + tagSize info ≤ fs.blockSize := by
      rw [hsize]
      exact (Nat.le_add_right _ _).trans hroom
    rw [journalParseTag, if_neg (by omega), hend, if_neg (not_lt.mpr hroom), htag]

end Layout

section Termination

/-! The loops over a descriptor and a revoke block have ended before their rounds run out. -/

theorem tagEnd_gt (info : JournalInfo) (block : Block) (position : Nat) : position + 8 ≤ tagEnd info block position := by
  rw [tagEnd, tagSize]
  split
  · omega
  · split
    · omega
    · omega

theorem journalParseTag_some {t : Tag} {position position' : Nat}
    (h : journalParseTag fs info block position = some (t, position')) :
    position + 8 ≤ position' ∧ position' ≤ fs.blockSize := by
  rw [journalParseTag] at h
  split at h
  · cases h
  split at h
  · cases h
  · rename_i hroom
    cases h
    exact ⟨tagEnd_gt info block position, not_lt.mp hroom⟩

theorem descriptorCount_rounds (n m offset k : Nat) (hn : fs.blockSize < offset + n) (hm : fs.blockSize < offset + m) :
    descriptorCountFrom fs info block n offset k = descriptorCountFrom fs info block m offset k := by
  induction n generalizing m offset k with
  | zero =>
    cases m with
    | zero => rfl
    | succ m => rw [descriptorCountFrom, descriptorCountFrom, if_neg (by omega)]
  | succ n ih =>
    cases m with
    | zero => rw [descriptorCountFrom, descriptorCountFrom, if_neg (by omega)]
    | succ m =>
      rw [descriptorCountFrom, descriptorCountFrom]
      cases hparse : journalParseTag fs info block offset with
      | none => rfl
      | some p =>
        have hstep := (journalParseTag_some hparse).1
        dsimp only
        rw [ih m p.2 _ (by omega) (by omega)]

theorem revokeScan_rounds (count home n m offset : Nat) (hn : count < offset + n) (hm : count < offset + m) :
    revokeScan info block count home n offset = revokeScan info block count home m offset := by
  have hpos : 4 ≤ revokeStep info := by
    rw [revokeStep]
    split
    · decide
    · decide
  induction n generalizing m offset with
  | zero =>
    cases m with
    | zero => rfl
    | succ m => rw [revokeScan, revokeScan, if_neg (by omega)]
  | succ n ih =>
    cases m with
    | zero => rw [revokeScan, revokeScan, if_neg (by omega)]
    | succ m =>
      rw [revokeScan, revokeScan]
      rw [ih m _ (by omega) (by omega)]

theorem replayTags_rounds (rounds n m : Nat) (io : Io) (offset data : Nat) (hn : fs.blockSize < offset + n)
    (hm : fs.blockSize < offset + m) :
    replayTags fs inode info s rounds block n io offset data = replayTags fs inode info s rounds block m io offset data := by
  have hparse : ∀ position, fs.blockSize ≤ position → journalParseTag fs info block position = none := by
    intro position hlarge
    cases h : journalParseTag fs info block position with
    | none => rfl
    | some p =>
      have hends := journalParseTag_some h
      omega
  induction n generalizing m io offset data with
  | zero =>
    cases m with
    | zero => rfl
    | succ m => rw [replayTags, replayTags, hparse offset (by omega)]
  | succ n ih =>
    cases m with
    | zero => rw [replayTags, replayTags, hparse offset (by omega)]
    | succ m =>
      rw [replayTags, replayTags]
      cases h : journalParseTag fs info block offset with
      | none => rfl
      | some p =>
        have hstep := (journalParseTag_some h).1
        dsimp only
        cases replayTag fs inode info s rounds io p.1 data with
        | mk io' res =>
          cases res with
          | error e => rfl
          | ok data' =>
            dsimp only
            rw [ih m io' p.2 data' (by omega) (by omega)]

/-! The writes of a run come one after the other. -/

/-- The disk is the given one with the writes made so far. -/
def Io.From (io : Io) (d : Disk) : Prop := io.disk = Writes.apply io.writes d

theorem Io.From.write {io : Io} (h : io.From d) (b : Nat) (x : Block) : (io.write b x).From d := by
  rw [Io.From, Io.write]
  dsimp only
  rw [Writes.apply_append, ← h]
  rfl

theorem replayTag_from {io : Io} {rounds : Nat} {t : Tag} {data : Nat} (h : io.From d) :
    (replayTag fs inode info s rounds io t data).1.From d ∧
      io.writes <+: (replayTag fs inode info s rounds io t data).1.writes := by
  rw [replayTag]
  split
  · exact ⟨h, List.prefix_rfl⟩
  split
  · exact ⟨h, List.prefix_rfl⟩
  split
  · exact ⟨h, List.prefix_rfl⟩
  · exact ⟨h, List.prefix_rfl⟩
  · exact ⟨h.write _ _, List.prefix_append _ _⟩

theorem replayTags_from {rounds n : Nat} {io : Io} {offset data : Nat} (h : io.From d) :
    (replayTags fs inode info s rounds block n io offset data).1.From d ∧
      io.writes <+: (replayTags fs inode info s rounds block n io offset data).1.writes := by
  induction n generalizing io offset data with
  | zero => exact ⟨h, List.prefix_rfl⟩
  | succ n ih =>
    rw [replayTags]
    cases journalParseTag fs info block offset with
    | none => exact ⟨h, List.prefix_rfl⟩
    | some p =>
      obtain ⟨t, offset'⟩ := p
      have htag : (replayTag fs inode info s rounds io t data).1.From d ∧
          io.writes <+: (replayTag fs inode info s rounds io t data).1.writes := replayTag_from h
      dsimp only
      cases hr : replayTag fs inode info s rounds io t data with
      | mk io' res =>
        rw [hr] at htag
        cases res with
        | error e => exact htag
        | ok data' =>
          dsimp only
          split
          · exact htag
          · exact ⟨(ih htag.1).1, htag.2.trans (ih htag.1).2⟩

theorem journalReplayTransaction_from {rounds n : Nat} {io : Io} {cursor : Nat} (h : io.From d) :
    (journalReplayTransaction fs inode info s rounds n io cursor).1.From d ∧
      io.writes <+: (journalReplayTransaction fs inode info s rounds n io cursor).1.writes := by
  induction n generalizing io cursor with
  | zero =>
    rw [journalReplayTransaction]
    split
    · exact ⟨h, List.prefix_rfl⟩
    · exact ⟨h, List.prefix_rfl⟩
  | succ n ih =>
    rw [journalReplayTransaction]
    split
    · exact ⟨h, List.prefix_rfl⟩
    split
    · exact ⟨h, List.prefix_rfl⟩
    rename_i metadata _
    split
    · exact ⟨h, List.prefix_rfl⟩
    split
    · exact ih h
    split
    · exact ⟨h, List.prefix_rfl⟩
    have htags : (replayTags fs inode info s rounds metadata fs.blockSize io 12 (journalNext info cursor)).1.From d ∧
        io.writes <+: (replayTags fs inode info s rounds metadata fs.blockSize io 12 (journalNext info cursor)).1.writes :=
      replayTags_from h
    split
    · rename_i hr
      rw [hr] at htags
      exact htags
    · rename_i hr
      rw [hr] at htags
      exact ⟨(ih htags.1).1, htags.2.trans (ih htags.1).2⟩

/-- The records of the transaction stand at the given places of the log. -/
def Stands (fs : Geometry) (info : JournalInfo) (inode : MapInode) (s : Span) (ps : List Nat) (d : Disk) : Prop :=
  ∃ t, TxnAt fs info (journalRead fs inode d) s.sequence s.start ps t s.commit

theorem IsRecord.head {k q : Nat} (h : IsRecord block k q) : ¬(be32 block 0 ≠ JBD2_MAGIC || be32 block 8 ≠ q) = true := by
  rw [h.1, h.2.2]
  simp

theorem TxnAt.tail {rd : Nat → Option Block} {pre suf : List Nat}
    (h : TxnAt fs info rd q c (pre ++ p :: suf) t e) : ∃ t', TxnAt fs info rd q p (p :: suf) t' e := by
  induction pre generalizing c t with
  | nil =>
    obtain ⟨tl, htl⟩ := h.head
    obtain rfl : p = c := (List.cons.inj htl).1
    exact ⟨t, h⟩
  | cons x pre ih =>
    generalize hps : x :: pre ++ p :: suf = ps at h
    cases h with
    | commit =>
      have hlen := congrArg List.length hps
      simp at hlen
    | revoke _ _ ht =>
      rw [List.cons_append, List.cons.injEq] at hps
      exact ih (hps.2 ▸ ht)
    | descriptor _ _ _ ht =>
      rw [List.cons_append, List.cons.injEq] at hps
      exact ih (hps.2 ▸ ht)

theorem replayTag_ends {ps : List Nat} {rounds : Nat} {io : Io} (tag : Tag) (data : Nat)
    (h : Stands fs info inode s ps io.disk) (hn : ps.length ≤ rounds + 1) :
    (replayTag fs inode info s rounds io tag data).2 ≠ .error .rounds ∧
      ∀ data', (replayTag fs inode info s rounds io tag data).2 = .ok data' →
        data' = journalSkip info (dataTags [tag]) data := by
  obtain ⟨t, ht⟩ := h
  rw [replayTag]
  cases hdel : tag.has JBD2_FLAG_DELETED with
  | true =>
    rw [if_pos rfl]
    refine ⟨(fun h => by cases h), fun data' heq => ?_⟩
    cases heq
    simp [dataTags, hdel, journalSkip]
  | false =>
    have hskip : journalSkip info (dataTags [tag]) data = journalNext info data := by
      simp [dataTags, hdel, journalSkip]
    rw [if_neg Bool.false_ne_true, hskip]
    cases journalRead fs inode io.disk data with
    | none => exact ⟨(fun h => by cases h), (fun _ h => by cases h)⟩
    | some block =>
      dsimp only
      obtain hrev | hrev := journalIsRevoked_spec ht hn tag.home
      · rw [hrev]
        exact ⟨(fun h => by cases h), (fun _ h => by cases h)⟩
      · rw [hrev]
        cases decide (tag.home ∈ t.revoked) with
        | true => exact ⟨(fun h => by cases h), fun data' heq => (Except.ok.inj heq).symm⟩
        | false => exact ⟨(fun h => by cases h), fun data' heq => (Except.ok.inj heq).symm⟩

theorem replayTags_ends {ps : List Nat} {rounds n : Nat} {io : Io} {offset data : Nat} {tags : List Tag}
    (hfrom : io.From d) (htags : tagsFrom fs info block n offset = some tags) (hn : ps.length ≤ rounds + 1)
    (hstands : ∀ ws, io.writes <+: ws → ws <+: (replayTags fs inode info s rounds block n io offset data).1.writes →
      Stands fs info inode s ps (Writes.apply ws d)) :
    (replayTags fs inode info s rounds block n io offset data).2 ≠ .error .rounds ∧
      ∀ data', (replayTags fs inode info s rounds block n io offset data).2 = .ok data' →
        data' = journalSkip info (dataTags tags) data := by
  induction n generalizing io offset data tags with
  | zero => cases htags
  | succ n ih =>
    have hnow : Stands fs info inode s ps io.disk := by
      rw [hfrom]
      exact hstands _ List.prefix_rfl (replayTags_from hfrom).2
    rw [tagsFrom] at htags
    rw [replayTags] at hstands ⊢
    split at htags
    · cases hparse : journalParseTag fs info block offset with
      | none =>
        rw [hparse] at htags
        cases htags
      | some p =>
        obtain ⟨t, offset'⟩ := p
        rw [hparse] at htags hstands
        dsimp only at htags hstands ⊢
        have htag := replayTag_ends t data hnow hn
        have hfrom' : (replayTag fs inode info s rounds io t data).1.From d ∧
            io.writes <+: (replayTag fs inode info s rounds io t data).1.writes := replayTag_from hfrom
        split at htags
        · cases htags
        cases hr : replayTag fs inode info s rounds io t data with
        | mk io' res =>
          rw [hr] at htag hfrom' hstands
          dsimp only at htag hfrom' hstands ⊢
          cases res with
          | error e => exact ⟨htag.1, (fun _ h => by cases h)⟩
          | ok data' =>
            obtain rfl := htag.2 data' rfl
            dsimp only at hstands ⊢
            split at htags
            · rename_i hlast
              cases htags
              rw [if_pos hlast]
              exact ⟨(fun h => by cases h), fun data' heq => (Except.ok.inj heq).symm⟩
            · rename_i hlast
              rw [if_neg hlast] at hstands ⊢
              obtain ⟨rest, hrest, rfl⟩ := Option.map_eq_some_iff.mp htags
              obtain ⟨hends, hdata⟩ := ih hfrom'.1 hrest fun ws hws hle => hstands ws (hfrom'.2.trans hws) hle
              refine ⟨hends, fun data' heq => ?_⟩
              rw [hdata data' heq, dataTags_cons t rest, journalSkip_add]
    · cases htags

/-- As long as each write leaves the records of the transaction where they are, its replay ends. -/
theorem journalReplayTransaction_ends {pre suf : List Nat} {rounds n c : Nat} {io : Io} (hfrom : io.From d)
    (hn : (pre ++ c :: suf).length ≤ rounds + 1) (hsuf : suf.length ≤ n)
    (hstands : ∀ ws, io.writes <+: ws →
      ws <+: (journalReplayTransaction fs inode info s rounds n io c).1.writes →
      Stands fs info inode s (pre ++ c :: suf) (Writes.apply ws d)) :
    (journalReplayTransaction fs inode info s rounds n io c).2 ≠ .error .rounds := by
  induction n generalizing pre c suf io with
  | zero =>
    obtain ⟨t, ht⟩ := hstands _ List.prefix_rfl (journalReplayTransaction_from hfrom).2
    obtain ⟨t', ht'⟩ := ht.tail
    obtain rfl := List.eq_nil_of_length_eq_zero (Nat.le_zero.mp hsuf)
    rw [journalReplayTransaction]
    cases ht' with
    | commit =>
      rw [if_pos rfl]
      intro h
      cases h
    | revoke _ _ ht =>
      obtain ⟨tl, htl⟩ := ht.head
      cases htl
    | descriptor _ _ _ ht =>
      obtain ⟨tl, htl⟩ := ht.head
      cases htl
  | succ n ih =>
    have hnow := hstands _ List.prefix_rfl (journalReplayTransaction_from hfrom).2
    rw [← hfrom] at hnow
    obtain ⟨t, ht⟩ := hnow
    obtain ⟨t', ht'⟩ := ht.tail
    rw [journalReplayTransaction] at hstands ⊢
    by_cases hcommit : c = s.commit
    · rw [if_pos hcommit]
      intro h
      cases h
    rw [if_neg hcommit] at hstands ⊢
    cases ht' with
    | commit => exact absurd rfl hcommit
    | @revoke _ record _ _ _ hb hr hnext =>
      obtain ⟨tl, rfl⟩ := hnext.head
      rw [hb] at hstands ⊢
      dsimp only at hstands ⊢
      rw [if_neg hr.head, if_pos hr.2.1] at hstands ⊢
      rw [List.append_cons] at hstands hn
      exact ih hfrom hn (Nat.le_of_succ_le_succ hsuf) hstands
    | @descriptor _ record tags _ _ _ hb hr hd hnext =>
      obtain ⟨tl, rfl⟩ := hnext.head
      have hrevoke : ¬be32 record 4 = JBD2_REVOKE_BLOCK := by
        rw [hr.2.1]
        decide
      rw [hb] at hstands ⊢
      dsimp only at hstands ⊢
      rw [if_neg hr.head, if_neg hrevoke, if_neg (not_not_intro hr.2.1)] at hstands ⊢
      have hfrom' : (replayTags fs inode info s rounds record fs.blockSize io 12 (journalNext info c)).1.From d ∧
          io.writes <+: (replayTags fs inode info s rounds record fs.blockSize io 12 (journalNext info c)).1.writes :=
        replayTags_from hfrom
      have htags : (∀ ws, io.writes <+: ws →
            ws <+: (replayTags fs inode info s rounds record fs.blockSize io 12 (journalNext info c)).1.writes →
            Stands fs info inode s (pre ++ c :: journalSkip info (dataTags tags + 1) c :: tl) (Writes.apply ws d)) → _ :=
        replayTags_ends hfrom hd hn
      cases hrun : replayTags fs inode info s rounds record fs.blockSize io 12 (journalNext info c) with
      | mk io' res =>
        rw [hrun] at hstands htags hfrom'
        dsimp only at hstands htags hfrom' ⊢
        cases res with
        | error e =>
          intro heq
          obtain rfl := Except.error.inj heq
          exact (htags hstands).1 rfl
        | ok data =>
          have hmore : io'.writes <+: (journalReplayTransaction fs inode info s rounds n io' data).1.writes :=
            (journalReplayTransaction_from hfrom'.1).2
          obtain ⟨_, hdata⟩ := htags fun ws hws hle => hstands ws hws (hle.trans hmore)
          obtain rfl := hdata data rfl
          rw [List.append_cons] at hstands hn
          exact ih hfrom'.1 hn (Nat.le_of_succ_le_succ hsuf) fun ws hws hle => hstands ws (hfrom'.2.trans hws) hle

end Termination

section Reads

/-! The accesses to the four block buffers. -/

/-- `journal_header` looks at the rest of a header only behind the magic number. -/
def headerTouches (fs : Geometry) (block : Block) : List Touch :=
  ⟨fs.blockSize, 0, 4⟩ ::
    if be32 block 0 = JBD2_MAGIC then [⟨fs.blockSize, 4, 4⟩, ⟨fs.blockSize, 8, 4⟩] else []

def parseTagTouches (fs : Geometry) (info : JournalInfo) (position : Nat) : List Touch :=
  if position > fs.blockSize - tagSize info then []
  else if info.has64bit then
    [⟨fs.blockSize, position, 4⟩, ⟨fs.blockSize, position + 4, 4⟩, ⟨fs.blockSize, position + 8, 4⟩]
  else if info.hasCsum then [⟨fs.blockSize, position, 4⟩, ⟨fs.blockSize, position + 4, 4⟩]
  else [⟨fs.blockSize, position, 4⟩, ⟨fs.blockSize, position + 6, 1⟩, ⟨fs.blockSize, position + 7, 1⟩]

def descriptorCountTouches (fs : Geometry) (info : JournalInfo) (block : Block) : Nat → Nat → List Touch
  | 0, _ => []
  | n + 1, offset =>
    if offset < fs.blockSize then
      parseTagTouches fs info offset ++
        match journalParseTag fs info block offset with
        | none => []
        | some (t, offset') =>
          if t.home ≥ fs.totalBlocks then []
          else if t.has JBD2_FLAG_LAST_TAG then []
          else descriptorCountTouches fs info block n offset'
    else []

def findCommitTouches (fs : Geometry) (info : JournalInfo) (rd : Nat → Option Block) (sequence : Nat) :
    Nat → Nat → List Touch
  | 0, _ => []
  | n + 1, cursor =>
    match rd cursor with
    | none => []
    | some block =>
      headerTouches fs block ++
        if be32 block 0 ≠ JBD2_MAGIC || be32 block 8 ≠ sequence then []
        else if be32 block 4 = JBD2_COMMIT_BLOCK then []
        else if be32 block 4 = JBD2_DESCRIPTOR_BLOCK then
          descriptorCountTouches fs info block fs.blockSize 12 ++
            match journalDescriptorCount fs info block with
            | none => []
            | some count => findCommitTouches fs info rd sequence n (journalSkip info (count + 1) cursor)
        else if be32 block 4 ≠ JBD2_REVOKE_BLOCK then []
        else findCommitTouches fs info rd sequence n (journalNext info cursor)

def revokeScanTouches (fs : Geometry) (info : JournalInfo) (block : Block) (count home : Nat) : Nat → Nat → List Touch
  | 0, _ => []
  | n + 1, offset =>
    if offset + revokeStep info ≤ count then
      ⟨fs.blockSize, offset, revokeStep info⟩ ::
        if revokedAt info block offset = home then []
        else revokeScanTouches fs info block count home n (offset + revokeStep info)
    else []

def isRevokedTouches (fs : Geometry) (info : JournalInfo) (rd : Nat → Option Block) (commit sequence home : Nat) :
    Nat → Nat → List Touch
  | 0, _ => []
  | n + 1, cursor =>
    if cursor = commit then []
    else
      match rd cursor with
      | none => []
      | some block =>
        headerTouches fs block ++
          if be32 block 0 ≠ JBD2_MAGIC || be32 block 8 ≠ sequence then []
          else if be32 block 4 = JBD2_REVOKE_BLOCK then
            ⟨fs.blockSize, 12, 4⟩ ::
              if be32 block 12 < 16 || be32 block 12 > fs.blockSize then []
              else
                revokeScanTouches fs info block (be32 block 12) home (be32 block 12) 16 ++
                  isRevokedTouches fs info rd commit sequence home n (journalNext info cursor)
          else if be32 block 4 ≠ JBD2_DESCRIPTOR_BLOCK then []
          else
            descriptorCountTouches fs info block fs.blockSize 12 ++
              match journalDescriptorCount fs info block with
              | none => []
              | some tags =>
                isRevokedTouches fs info rd commit sequence home n (journalSkip info (tags + 1) cursor)

/-- At least the accesses of the tag loop, with the magic number that is put back into an escaped block. -/
def replayTagsTouches (fs : Geometry) (inode : MapInode) (info : JournalInfo) (s : Span) (rounds : Nat) (metadata : Block) :
    Nat → Io → Nat → Nat → List Touch
  | 0, _, _, _ => []
  | n + 1, io, offset, data =>
    parseTagTouches fs info offset ++
      match journalParseTag fs info metadata offset with
      | none => []
      | some (t, offset') =>
        isRevokedTouches fs info (journalRead fs inode io.disk) s.commit s.sequence t.home rounds s.start ++
          ⟨fs.blockSize, 0, 4⟩ ::
            match replayTag fs inode info s rounds io t data with
            | (_, .error _) => []
            | (io', .ok data') => replayTagsTouches fs inode info s rounds metadata n io' offset' data'

def replayTransactionTouches (fs : Geometry) (inode : MapInode) (info : JournalInfo) (s : Span) (rounds : Nat) :
    Nat → Io → Nat → List Touch
  | 0, _, _ => []
  | n + 1, io, cursor =>
    match journalRead fs inode io.disk cursor with
    | none => []
    | some metadata =>
      headerTouches fs metadata ++
        (replayTagsTouches fs inode info s rounds metadata fs.blockSize io 12 (journalNext info cursor) ++
          if be32 metadata 4 = JBD2_REVOKE_BLOCK then
            replayTransactionTouches fs inode info s rounds n io (journalNext info cursor)
          else
            match replayTags fs inode info s rounds metadata fs.blockSize io 12 (journalNext info cursor) with
            | (_, .error _) => []
            | (io', .ok data) => replayTransactionTouches fs inode info s rounds n io' data)

theorem header_inside (fs : Geometry) (block : Block) : Inside (headerTouches fs block) := by
  have hsize := fs.sizeOk
  have hin : ∀ k, k ≤ 8 → (Touch.mk fs.blockSize k 4).Inside := by
    intro k hk
    change k + 4 ≤ fs.blockSize
    omega
  rw [headerTouches]
  apply inside_cons.mpr
  refine ⟨hin 0 (by decide), ?_⟩
  split
  · exact inside_cons.mpr ⟨hin 4 (by decide), inside_cons.mpr ⟨hin 8 (by decide), inside_nil⟩⟩
  · exact inside_nil

/-- The test before the first access of a tag covers all of them. -/
theorem parseTag_inside (fs : Geometry) (info : JournalInfo) (position : Nat) :
    Inside (parseTagTouches fs info position) := by
  have hsize := fs.sizeOk
  rw [parseTagTouches]
  split
  · exact inside_nil
  rename_i hroom
  have hin : ∀ k length, k + length ≤ tagSize info → (Touch.mk fs.blockSize (position + k) length).Inside := by
    intro k length hk
    have hle : tagSize info ≤ 16 := by
      rw [tagSize]
      cases info.has64bit <;> cases info.hasCsum <;> decide
    change position + k + length ≤ fs.blockSize
    omega
  rw [tagSize] at hin
  split
  · rename_i h64
    rw [if_pos h64] at hin
    exact inside_cons.mpr ⟨hin 0 4 (by decide), inside_cons.mpr ⟨hin 4 4 (by decide),
      inside_cons.mpr ⟨hin 8 4 (by decide), inside_nil⟩⟩⟩
  rename_i h64
  rw [if_neg h64] at hin
  split
  · rename_i hcsum
    rw [if_pos hcsum] at hin
    exact inside_cons.mpr ⟨hin 0 4 (by decide), inside_cons.mpr ⟨hin 4 4 (by decide), inside_nil⟩⟩
  · rename_i hcsum
    rw [if_neg hcsum] at hin
    exact inside_cons.mpr ⟨hin 0 4 (by decide), inside_cons.mpr ⟨hin 6 1 (by decide),
      inside_cons.mpr ⟨hin 7 1 (by decide), inside_nil⟩⟩⟩

theorem descriptorCount_inside (n offset : Nat) : Inside (descriptorCountTouches fs info block n offset) := by
  induction n generalizing offset with
  | zero => exact inside_nil
  | succ n ih =>
    rw [descriptorCountTouches]
    split
    · apply inside_append.mpr
      refine ⟨parseTag_inside fs info offset, ?_⟩
      split
      · exact inside_nil
      split
      · exact inside_nil
      split
      · exact inside_nil
      · exact ih _
    · exact inside_nil

theorem findCommit_inside {rd : Nat → Option Block} {sequence : Nat} (n cursor : Nat) :
    Inside (findCommitTouches fs info rd sequence n cursor) := by
  induction n generalizing cursor with
  | zero => exact inside_nil
  | succ n ih =>
    rw [findCommitTouches]
    split
    · exact inside_nil
    rename_i block _
    apply inside_append.mpr
    refine ⟨header_inside fs block, ?_⟩
    split
    · exact inside_nil
    split
    · exact inside_nil
    split
    · apply inside_append.mpr
      refine ⟨descriptorCount_inside _ _, ?_⟩
      split
      · exact inside_nil
      · exact ih _
    split
    · exact inside_nil
    · exact ih _

theorem revokeScan_inside {count home : Nat} (hcount : count ≤ fs.blockSize) (n offset : Nat) :
    Inside (revokeScanTouches fs info block count home n offset) := by
  induction n generalizing offset with
  | zero => exact inside_nil
  | succ n ih =>
    rw [revokeScanTouches]
    split
    · rename_i hroom
      apply inside_cons.mpr
      refine ⟨hroom.trans hcount, ?_⟩
      split
      · exact inside_nil
      · exact ih _
    · exact inside_nil

theorem isRevoked_inside {rd : Nat → Option Block} {commit sequence home : Nat} (n cursor : Nat) :
    Inside (isRevokedTouches fs info rd commit sequence home n cursor) := by
  have hsize := fs.sizeOk
  induction n generalizing cursor with
  | zero => exact inside_nil
  | succ n ih =>
    rw [isRevokedTouches]
    split
    · exact inside_nil
    split
    · exact inside_nil
    rename_i block _
    apply inside_append.mpr
    refine ⟨header_inside fs block, ?_⟩
    split
    · exact inside_nil
    split
    · apply inside_cons.mpr
      refine ⟨(by change 12 + 4 ≤ fs.blockSize; omega), ?_⟩
      split
      · exact inside_nil
      · rename_i hcount
        simp only [Bool.or_eq_true, decide_eq_true_eq, not_or, not_lt] at hcount
        exact inside_append.mpr ⟨revokeScan_inside hcount.2 _ _, ih _⟩
    split
    · exact inside_nil
    · apply inside_append.mpr
      refine ⟨descriptorCount_inside _ _, ?_⟩
      split
      · exact inside_nil
      · exact ih _

theorem replayTags_inside {rounds : Nat} (n : Nat) (io : Io) (offset data : Nat) :
    Inside (replayTagsTouches fs inode info s rounds block n io offset data) := by
  have hsize := fs.sizeOk
  induction n generalizing io offset data with
  | zero => exact inside_nil
  | succ n ih =>
    rw [replayTagsTouches]
    apply inside_append.mpr
    refine ⟨parseTag_inside fs info offset, ?_⟩
    split
    · exact inside_nil
    · apply inside_append.mpr
      refine ⟨isRevoked_inside _ _, inside_cons.mpr ⟨(by change 0 + 4 ≤ fs.blockSize; omega), ?_⟩⟩
      split
      · exact inside_nil
      · exact ih _ _ _

theorem replayTransaction_inside {rounds : Nat} (n : Nat) (io : Io) (cursor : Nat) :
    Inside (replayTransactionTouches fs inode info s rounds n io cursor) := by
  induction n generalizing io cursor with
  | zero => exact inside_nil
  | succ n ih =>
    rw [replayTransactionTouches]
    split
    · exact inside_nil
    · apply inside_append.mpr
      refine ⟨header_inside fs _, inside_append.mpr ⟨replayTags_inside _ _ _ _, ?_⟩⟩
      split
      · exact ih _ _
      split
      · exact inside_nil
      · exact ih _ _

end Reads

/-- The writes of a run of `journal_replay_transaction` on a disk leave the records of the transaction where the run has
found them. -/
def KeepsRecords (fs : Geometry) (inode : MapInode) (info : JournalInfo) (s : Span) (rounds : Nat) (d : Disk) : Prop :=
  ∀ ps ws, Stands fs info inode s ps d →
    ws <+: (journalReplayTransaction fs inode info s rounds rounds ⟨d, []⟩ s.start).1.writes →
      Stands fs info inode s ps (Writes.apply ws d)

section Turned

/-- The superblock of a journal with the 64-bit feature alone. -/
def small64Super : Block := putBe32 smallSuper 40 2

/-- Two tags, the first of the block the descriptor itself is in. -/
def turningDescriptor : Block :=
  bytes [0xC0, 0x3B, 0x39, 0x98, 0, 0, 0, 1, 0, 0, 0, 1, 0, 0, 0, 11, 0, 0, 0, 3, 0, 0, 0, 50, 0, 0, 0, 0x0A]

/-- What the transaction has for that block: a descriptor with six tags, once its magic number is put back. -/
def turningData : Block :=
  bytes [0, 0, 0, 0, 0, 0, 0, 1, 0, 0, 0, 1, 0, 0, 0, 50, 0, 0, 0, 2, 0, 0, 0, 50, 0, 0, 0, 2, 0, 0, 0, 50, 0, 0, 0, 2,
    0, 0, 0, 50, 0, 0, 0, 2, 0, 0, 0, 50, 0, 0, 0, 2, 0, 0, 0, 50, 0, 0, 0, 0x0A]

def turningDisk : Disk
  | 10 => smallSuper
  | 11 => turningDescriptor
  | 12 => turningData
  | 14 => smallCommit 1
  | _ => bytes []

def turnedDisk : Disk := Function.update turningDisk 11 (putBe32 turningData 0 JBD2_MAGIC)

/-- Once the descriptor is overwritten the search for revoke records goes round the log, past the commit block. -/
theorem turnedDisk_loops (n : Nat) :
    journalIsRevoked smallGeometry smallInfo (journalRead smallGeometry smallInode turnedDisk) 4 1 50 n 1 =
      .error .rounds := by
  have hread : journalRead smallGeometry smallInode turnedDisk 1 = some (putBe32 turningData 0 JBD2_MAGIC) := rfl
  have hcount : journalDescriptorCount smallGeometry smallInfo (putBe32 turningData 0 JBD2_MAGIC) = some 6 := by decide
  induction n with
  | zero => rfl
  | succ n ih =>
    rw [journalIsRevoked, if_neg (by decide), hread]
    dsimp only
    rw [if_neg (by decide), if_neg (by decide), if_neg (by decide), hcount]
    exact ih

theorem turningDisk_loops (n : Nat) :
    (journalReplayTransaction smallGeometry smallInode smallInfo ⟨1, 4, 1⟩ n n ⟨turningDisk, []⟩ 1).2 =
      .error .rounds := by
  cases n with
  | zero => rfl
  | succ n =>
    have hread : journalRead smallGeometry smallInode turningDisk 1 = some turningDescriptor := rfl
    have hfirst : replayTag smallGeometry smallInode smallInfo ⟨1, 4, 1⟩ (n + 1) ⟨turningDisk, []⟩ ⟨11, 3⟩ 2 =
        (⟨turnedDisk, [(11, putBe32 turningData 0 JBD2_MAGIC)]⟩, .ok 3) := by
      have hrevoked : journalIsRevoked smallGeometry smallInfo (journalRead smallGeometry smallInode turningDisk) 4 1 11
          (n + 1) 1 = .ok false := by
        have hcount : journalDescriptorCount smallGeometry smallInfo turningDescriptor = some 2 := by decide
        rw [journalIsRevoked, if_neg (by decide), hread]
        dsimp only
        rw [if_neg (by decide), if_neg (by decide), if_neg (by decide), hcount]
        dsimp only
        cases n with
        | zero => rfl
        | succ n => rfl
      have hdata : journalRead smallGeometry smallInode turningDisk 2 = some turningData := rfl
      rw [replayTag, if_neg (by decide), hdata]
      dsimp only
      rw [hrevoked]
      rfl
    have hsecond : (replayTag smallGeometry smallInode smallInfo ⟨1, 4, 1⟩ (n + 1)
        ⟨turnedDisk, [(11, putBe32 turningData 0 JBD2_MAGIC)]⟩ ⟨50, 10⟩ 3).2 = .error .rounds := by
      have hdata : journalRead smallGeometry smallInode turnedDisk 3 = some (bytes []) := rfl
      rw [replayTag, if_neg (by decide), hdata]
      dsimp only
      rw [turnedDisk_loops]
    have htags : (replayTags smallGeometry smallInode smallInfo ⟨1, 4, 1⟩ (n + 1) turningDescriptor
        smallGeometry.blockSize ⟨turningDisk, []⟩ 12 (journalNext smallInfo 1)).2 = .error .rounds := by
      change (replayTags smallGeometry smallInode smallInfo ⟨1, 4, 1⟩ (n + 1) turningDescriptor (1022 + 1 + 1)
        ⟨turningDisk, []⟩ 12 2).2 = .error .rounds
      have hparse : journalParseTag smallGeometry smallInfo turningDescriptor 12 = some (⟨11, 3⟩, 20) := by decide
      have hparse' : journalParseTag smallGeometry smallInfo turningDescriptor 20 = some (⟨50, 10⟩, 28) := by decide
      rw [replayTags, hparse]
      dsimp only
      rw [hfirst]
      dsimp only
      rw [if_neg (by decide), replayTags, hparse']
      dsimp only
      generalize replayTag smallGeometry smallInode smallInfo ⟨1, 4, 1⟩ (n + 1)
        ⟨turnedDisk, [(11, putBe32 turningData 0 JBD2_MAGIC)]⟩ ⟨50, 10⟩ 3 = second at hsecond
      obtain ⟨io, res⟩ := second
      dsimp only at hsecond
      rw [hsecond]
    rw [journalReplayTransaction, if_neg (by decide), hread]
    dsimp only
    rw [if_neg (by decide), if_neg (by decide), if_neg (by decide)]
    generalize replayTags smallGeometry smallInode smallInfo ⟨1, 4, 1⟩ (n + 1) turningDescriptor
      smallGeometry.blockSize ⟨turningDisk, []⟩ 12 (journalNext smallInfo 1) = run at htags
    obtain ⟨io, res⟩ := run
    dsimp only at htags
    rw [htags]

end Turned

end Lebirun.Ext4
