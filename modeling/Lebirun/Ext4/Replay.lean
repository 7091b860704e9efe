import Mathlib
import Lebirun.Ext4.Journal

namespace Lebirun.Ext4
set_option autoImplicit true

variable {fs : Geometry} {info : JournalInfo} {rd : Nat → Option Block} {block : Block}

theorem descriptorCountFrom_eq (n offset k : Nat) :
    descriptorCountFrom fs info block n offset k =
      (tagsFrom fs info block n offset).map fun tags => k + dataTags tags := by
  induction n generalizing offset k with
  | zero => rfl
  | succ n ih =>
    rw [descriptorCountFrom, tagsFrom]
    split
    · cases journalParseTag fs info block offset with
      | none => rfl
      | some p =>
        obtain ⟨t, offset'⟩ := p
        simp only
        split
        · rfl
        · split
          · simp only [Option.map_some, dataTags, List.countP_singleton]
            cases t.has JBD2_FLAG_DELETED <;> rfl
          · rw [ih, Option.map_map]
            congr 1
            funext tags
            simp only [Function.comp_apply, dataTags, List.countP_cons]
            cases t.has JBD2_FLAG_DELETED
            · simp
              omega
            · simp
    · rfl

theorem journalDescriptorCount_eq :
    journalDescriptorCount fs info block =
      (tagsFrom fs info block fs.blockSize 12).map dataTags := by
  rw [journalDescriptorCount, descriptorCountFrom_eq]
  simp

/-! A transaction is read one way only, and visits no record twice. -/

theorem TxnAt.record (h : TxnAt fs info rd q c ps t e) :
    ∃ block, rd c = some block ∧ be32 block 0 = JBD2_MAGIC ∧ be32 block 8 = q := by
  cases h with
  | commit hb hr => exact ⟨_, hb, hr.1, hr.2.2⟩
  | revoke hb hr _ => exact ⟨_, hb, hr.1, hr.2.2⟩
  | descriptor hb hr _ _ => exact ⟨_, hb, hr.1, hr.2.2⟩

theorem TxnAt.commit_record (h : TxnAt fs info rd q c ps t e) :
    ∃ block, rd e = some block ∧ IsRecord block JBD2_COMMIT_BLOCK q := by
  induction h with
  | commit hb hr => exact ⟨_, hb, hr⟩
  | revoke _ _ _ ih => exact ih
  | descriptor _ _ _ _ ih => exact ih

theorem IsRecord.ne (h : IsRecord block k q) (h' : IsRecord block k' q') (hne : k ≠ k') : False :=
  hne (h.2.1.symm.trans h'.2.1)

theorem TxnAt.det (h : TxnAt fs info rd q c ps t e) (h' : TxnAt fs info rd q c ps' t' e') :
    ps = ps' ∧ t = t' ∧ e = e' := by
  induction h generalizing ps' t' with
  | commit hb hr =>
    cases h' with
    | commit _ _ => exact ⟨rfl, rfl, rfl⟩
    | revoke hb' hr' _ =>
      rw [hb] at hb'
      cases hb'
      exact (hr.ne hr' (by decide)).elim
    | descriptor hb' hr' _ _ =>
      rw [hb] at hb'
      cases hb'
      exact (hr.ne hr' (by decide)).elim
  | revoke hb hr _ ih =>
    cases h' with
    | commit hb' hr' =>
      rw [hb] at hb'
      cases hb'
      exact (hr.ne hr' (by decide)).elim
    | revoke hb' _ ht' =>
      rw [hb] at hb'
      cases hb'
      obtain ⟨rfl, rfl, rfl⟩ := ih ht'
      exact ⟨rfl, rfl, rfl⟩
    | descriptor hb' hr' _ _ =>
      rw [hb] at hb'
      cases hb'
      exact (hr.ne hr' (by decide)).elim
  | descriptor hb hr hd _ ih =>
    cases h' with
    | commit hb' hr' =>
      rw [hb] at hb'
      cases hb'
      exact (hr.ne hr' (by decide)).elim
    | revoke hb' hr' _ =>
      rw [hb] at hb'
      cases hb'
      exact (hr.ne hr' (by decide)).elim
    | descriptor hb' _ hd' ht' =>
      rw [hb] at hb'
      cases hb'
      rw [hd] at hd'
      cases hd'
      obtain ⟨rfl, rfl, rfl⟩ := ih ht'
      exact ⟨rfl, rfl, rfl⟩

theorem TxnAt.head (h : TxnAt fs info rd q c ps t e) : ∃ tl, ps = c :: tl := by
  cases h with
  | commit _ _ => exact ⟨[], rfl⟩
  | revoke _ _ _ => exact ⟨_, rfl⟩
  | descriptor _ _ _ _ => exact ⟨_, rfl⟩

theorem TxnAt.suffix (h : TxnAt fs info rd q c ps t e) (hp : p ∈ ps) :
    ∃ ps' t', TxnAt fs info rd q p ps' t' e ∧ ps'.length ≤ ps.length := by
  induction h with
  | commit hb hr =>
    cases List.mem_singleton.mp hp
    exact ⟨_, _, .commit hb hr, Nat.le_refl _⟩
  | revoke hb hr ht ih =>
    rcases List.mem_cons.mp hp with rfl | hp
    · exact ⟨_, _, .revoke hb hr ht, Nat.le_refl _⟩
    · obtain ⟨ps', t', h', hlen⟩ := ih hp
      exact ⟨ps', t', h', Nat.le_succ_of_le hlen⟩
  | descriptor hb hr hd ht ih =>
    rcases List.mem_cons.mp hp with rfl | hp
    · exact ⟨_, _, .descriptor hb hr hd ht, Nat.le_refl _⟩
    · obtain ⟨ps', t', h', hlen⟩ := ih hp
      exact ⟨ps', t', h', Nat.le_succ_of_le hlen⟩

/-- A record met again would start the same transaction with fewer records. -/
theorem TxnAt.not_mem_tail (h : TxnAt fs info rd q c (c :: ps) t e)
    (ht : TxnAt fs info rd q c' ps t' e) : c ∉ ps := by
  intro hin
  obtain ⟨ps', t'', h', hlen⟩ := ht.suffix hin
  obtain ⟨rfl, -, -⟩ := h.det h'
  exact Nat.not_succ_le_self _ hlen

theorem TxnAt.nodup (h : TxnAt fs info rd q c ps t e) : ps.Nodup := by
  induction h with
  | commit _ _ => exact List.nodup_singleton _
  | revoke hb hr ht ih => exact List.nodup_cons.mpr ⟨(TxnAt.revoke hb hr ht).not_mem_tail ht, ih⟩
  | descriptor hb hr hd ht ih =>
    exact List.nodup_cons.mpr ⟨(TxnAt.descriptor hb hr hd ht).not_mem_tail ht, ih⟩

/-- `first` lies in the log, so every cursor does. -/
theorem journalNext_lt (hf : info.first < info.maxlen) : journalNext info c < info.maxlen := by
  rw [journalNext]
  split <;> omega

theorem journalSkip_succ_lt (hf : info.first < info.maxlen) (n c : Nat) :
    journalSkip info (n + 1) c < info.maxlen := by
  induction n generalizing c with
  | zero => exact journalNext_lt hf
  | succ n ih => exact ih (journalNext info c)

theorem TxnAt.lt (h : TxnAt fs info rd q c ps t e) (hf : info.first < info.maxlen)
    (hc : c < info.maxlen) : ∀ p ∈ ps, p < info.maxlen := by
  induction h with
  | commit _ _ =>
    intro p hp
    rw [List.mem_singleton.mp hp]
    exact hc
  | revoke _ _ _ ih => exact List.forall_mem_cons.mpr ⟨hc, ih (journalNext_lt hf)⟩
  | descriptor _ _ _ _ ih => exact List.forall_mem_cons.mpr ⟨hc, ih (journalSkip_succ_lt hf _ _)⟩

theorem TxnAt.commit_lt (h : TxnAt fs info rd q c ps t e) (hf : info.first < info.maxlen)
    (hc : c < info.maxlen) : e < info.maxlen := by
  induction h with
  | commit _ _ => exact hc
  | revoke _ _ _ ih => exact ih (journalNext_lt hf)
  | descriptor _ _ _ _ ih => exact ih (journalSkip_succ_lt hf _ _)

theorem TxnAt.length_le (h : TxnAt fs info rd q c ps t e) (hf : info.first < info.maxlen)
    (hc : c < info.maxlen) : ps.length ≤ info.maxlen := by
  have hsub : ps.toFinset ⊆ Finset.range info.maxlen := by
    intro p hp
    exact Finset.mem_range.mpr (h.lt hf hc p (List.mem_toFinset.mp hp))
  have := Finset.card_le_card hsub
  rwa [List.toFinset_card_of_nodup h.nodup, Finset.card_range] at this

theorem journalFindCommit_sound (h : journalFindCommit fs info rd q n c = some e) :
    ∃ ps t, TxnAt fs info rd q c ps t e := by
  induction n generalizing c with
  | zero => cases h
  | succ n ih =>
    rw [journalFindCommit] at h
    cases hb : rd c with
    | none =>
      rw [hb] at h
      cases h
    | some block =>
      simp only [hb] at h
      split at h
      · cases h
      · rename_i hhead
        simp only [ne_eq, Bool.or_eq_true, decide_eq_true_eq, not_or, not_not] at hhead
        split at h
        · rename_i htype
          cases h
          exact ⟨_, _, .commit hb ⟨hhead.1, htype, hhead.2⟩⟩
        · split at h
          · rename_i htype
            rw [journalDescriptorCount_eq] at h
            cases hd : tagsFrom fs info block fs.blockSize 12 with
            | none =>
              rw [hd] at h
              cases h
            | some tags =>
              simp only [hd, Option.map_some] at h
              obtain ⟨ps, t, ht⟩ := ih h
              exact ⟨_, _, .descriptor hb ⟨hhead.1, htype, hhead.2⟩ hd ht⟩
          · split at h
            · cases h
            · rename_i htype
              obtain ⟨ps, t, ht⟩ := ih h
              exact ⟨_, _, .revoke hb ⟨hhead.1, not_not.mp htype, hhead.2⟩ ht⟩

theorem journalFindCommit_complete (h : TxnAt fs info rd q c ps t e) (hn : ps.length ≤ n) :
    journalFindCommit fs info rd q n c = some e := by
  induction h generalizing n with
  | commit hb hr =>
    cases n with
    | zero => cases hn
    | succ n => simp [journalFindCommit, hb, hr.1, hr.2.1, hr.2.2]
  | @revoke c block ps t e hb hr _ ih =>
    cases n with
    | zero => cases hn
    | succ n =>
      have hstep : journalFindCommit fs info rd q (n + 1) c =
          journalFindCommit fs info rd q n (journalNext info c) := by
        simp [journalFindCommit, hb, hr.1, hr.2.1, hr.2.2]
      rw [hstep]
      exact ih (Nat.le_of_succ_le_succ hn)
  | @descriptor c block tags ps t e hb hr hd _ ih =>
    cases n with
    | zero => cases hn
    | succ n =>
      have hstep : journalFindCommit fs info rd q (n + 1) c =
          journalFindCommit fs info rd q n (journalSkip info (dataTags tags + 1) c) := by
        simp [journalFindCommit, hb, hr.1, hr.2.1, hr.2.2, journalDescriptorCount_eq, hd]
      rw [hstep]
      exact ih (Nat.le_of_succ_le_succ hn)

theorem revokeScan_eq (count home n offset : Nat) :
    revokeScan info block count home n offset =
      decide (home ∈ revokesFrom info block count n offset) := by
  induction n generalizing offset with
  | zero => rfl
  | succ n ih =>
    rw [revokeScan, revokesFrom]
    split
    · by_cases h : revokedAt info block offset = home
      · simp [h]
      · simp [h, ih, Ne.symm h]
    · rfl

/-- What `journal_is_revoked` can answer about a transaction it walks to its end. -/
theorem journalIsRevoked_spec (h : TxnAt fs info rd q c ps t e) (hn : ps.length ≤ n + 1)
    (home : Nat) :
    journalIsRevoked fs info rd e q home n c = .error .fail ∨
      journalIsRevoked fs info rd e q home n c = .ok (decide (home ∈ t.revoked)) := by
  induction h generalizing n with
  | commit hb hr =>
    right
    cases n <;> simp [journalIsRevoked]
  | @revoke c block ps t e hb hr ht ih =>
    have hne : c ≠ e := by
      rintro rfl
      obtain ⟨block', hb', hr'⟩ := ht.commit_record
      rw [hb] at hb'
      cases hb'
      exact hr.ne hr' (by decide)
    obtain ⟨tl, rfl⟩ := ht.head
    cases n with
    | zero => exact absurd hn (by simp)
    | succ n =>
      rw [journalIsRevoked, if_neg hne]
      simp only [hb, hr.1, hr.2.1, hr.2.2]
      by_cases hc : be32 block 12 < 16 ∨ be32 block 12 > fs.blockSize
      · left
        simp [hc]
      · have hlist : revokedBy fs info block =
            revokesFrom info block (be32 block 12) (be32 block 12) 16 := by
          rw [revokedBy]
          simp [hc]
        simp only [hlist, List.mem_append, revokeScan_eq]
        by_cases hin : home ∈ revokesFrom info block (be32 block 12) (be32 block 12) 16
        · right
          simp [hc, hin]
        · simpa [hc, hin] using ih (Nat.le_of_succ_le_succ hn)
  | @descriptor c block tags ps t e hb hr hd ht ih =>
    have hne : c ≠ e := by
      rintro rfl
      obtain ⟨block', hb', hr'⟩ := ht.commit_record
      rw [hb] at hb'
      cases hb'
      exact hr.ne hr' (by decide)
    obtain ⟨tl, rfl⟩ := ht.head
    cases n with
    | zero => exact absurd hn (by simp)
    | succ n =>
      have hstep : journalIsRevoked fs info rd e q home (n + 1) c =
          journalIsRevoked fs info rd e q home n (journalSkip info (dataTags tags + 1) c) := by
        rw [journalIsRevoked, if_neg hne]
        simp [hb, hr.1, hr.2.1, hr.2.2, journalDescriptorCount_eq, hd]
      rw [hstep]
      exact ih (Nat.le_of_succ_le_succ hn)

/-! The writes of the replay depend on the log only, which they leave as it is. -/

/-- The disk still has the journal of `d`. -/
def SameJournal (fs : Geometry) (inode : MapInode) (d d' : Disk) : Prop :=
  ∀ b, InJournal fs inode d b → d' b = d b

variable {inode : MapInode} {d d' : Disk}

theorem SameJournal.getBlock (h : SameJournal fs inode d d') (l : Nat) :
    ext4InodeGetBlock fs d' inode l = ext4InodeGetBlock fs d inode l :=
  ext4InodeGetBlock_congr fun b hb => h b ⟨l, .inl hb⟩

theorem SameJournal.read (h : SameJournal fs inode d d') :
    journalRead fs inode d' = journalRead fs inode d := by
  funext l
  rw [journalRead, journalRead, h.getBlock]
  split
  · rfl
  · rename_i hne
    rw [h _ ⟨l, .inr ⟨hne, rfl⟩⟩]

theorem SameJournal.apply {ws : List (Nat × Block)} (h : SameJournal fs inode d d')
    (hw : ∀ w ∈ ws, ¬ InJournal fs inode d w.1) : SameJournal fs inode d (Writes.apply ws d') := by
  intro b hb
  rw [Writes.apply_other, h b hb]
  intro w hin heq
  exact hw w hin (heq ▸ hb)

def Io.writeAll (io : Io) (ws : List (Nat × Block)) : Io where
  disk := Writes.apply ws io.disk
  writes := io.writes ++ ws

theorem Io.writeAll_nil (io : Io) : io.writeAll [] = io := by
  simp [Io.writeAll]

theorem Io.writeAll_writeAll (io : Io) (ws vs : List (Nat × Block)) :
    (io.writeAll ws).writeAll vs = io.writeAll (ws ++ vs) := by
  simp [Io.writeAll, Writes.apply_append]

theorem Io.write_eq (io : Io) (b : Nat) (x : Block) : io.write b x = io.writeAll [(b, x)] := rfl

/-- A step that makes the same writes and has the same result wherever the journal of `d` is. -/
def Replays {α : Type} (fs : Geometry) (inode : MapInode) (d : Disk) (f : Io → Io × Except Stop α)
    (ws : List (Nat × Block)) (res : Except Stop α) : Prop :=
  ∀ io, SameJournal fs inode d io.disk → f io = (io.writeAll ws, res)

/-- The tags of a descriptor of the transaction `t` that stands at `s`. -/
theorem replayTag_spec {s : Span} (tag : Tag)
    (h : TxnAt fs info (journalRead fs inode d) s.sequence s.start ps t s.commit)
    (hn : ps.length ≤ rounds + 1) (data : Nat) :
    ∃ ws res, Replays fs inode d (fun io => replayTag fs inode info s rounds io tag data) ws res ∧
      res ≠ .error .rounds ∧
      (∀ w ∈ ws, w ∈ loggedBy info (journalRead fs inode d) [tag] data) ∧
      ∀ data', res = .ok data' →
        data' = journalSkip info (dataTags [tag]) data ∧
          ws = (loggedBy info (journalRead fs inode d) [tag] data).filter
            fun w => decide (w.1 ∉ t.revoked) := by
  cases hdel : tag.has JBD2_FLAG_DELETED with
  | true =>
    refine ⟨[], .ok data, ?_, nofun, nofun, ?_⟩
    · intro io _
      simp [replayTag, hdel, Io.writeAll_nil]
    · intro data' he
      cases he
      simp [dataTags, loggedBy, hdel, journalSkip]
  | false =>
    cases hread : journalRead fs inode d data with
    | none =>
      refine ⟨[], .error .fail, ?_, nofun, nofun, nofun⟩
      intro io hio
      simp [replayTag, hdel, hio.read, hread, Io.writeAll_nil]
    | some block =>
      have hlogged : loggedBy info (journalRead fs inode d) [tag] data =
          [(tag.home, tag.content block)] := by
        simp [loggedBy, hdel, hread]
      have hskip : journalSkip info (dataTags [tag]) data = journalNext info data := by
        simp [dataTags, hdel, journalSkip]
      rcases journalIsRevoked_spec h hn tag.home with hrev | hrev
      · refine ⟨[], .error .fail, ?_, nofun, nofun, nofun⟩
        intro io hio
        simp [replayTag, hdel, hio.read, hread, hrev, Io.writeAll_nil]
      · by_cases hin : tag.home ∈ t.revoked
        · rw [decide_eq_true hin] at hrev
          refine ⟨[], .ok (journalNext info data), ?_, nofun, nofun, ?_⟩
          · intro io hio
            simp [replayTag, hdel, hio.read, hread, hrev, Io.writeAll_nil]
          · intro data' he
            cases he
            rw [hlogged, hskip]
            simp [hin]
        · rw [decide_eq_false hin] at hrev
          refine ⟨[(tag.home, tag.content block)], .ok (journalNext info data), ?_, nofun, ?_, ?_⟩
          · intro io hio
            simp [replayTag, hdel, hio.read, hread, hrev, Io.write_eq]
          · rw [hlogged]
            exact fun w hw => hw
          · intro data' he
            cases he
            rw [hlogged, hskip]
            simp [hin]

theorem journalSkip_add (m n c : Nat) :
    journalSkip info (m + n) c = journalSkip info n (journalSkip info m c) := by
  induction m generalizing c with
  | zero => rw [Nat.zero_add, journalSkip]
  | succ m ih => rw [Nat.succ_add, journalSkip, ih, journalSkip]

theorem dataTags_cons (t : Tag) (tags : List Tag) :
    dataTags (t :: tags) = dataTags [t] + dataTags tags := by
  rw [dataTags, List.countP_cons, Nat.add_comm]
  simp [dataTags]

theorem loggedBy_cons (t : Tag) (tags : List Tag) (pos : Nat) :
    loggedBy info rd (t :: tags) pos =
      loggedBy info rd [t] pos ++ loggedBy info rd tags (journalSkip info (dataTags [t]) pos) := by
  cases hdel : t.has JBD2_FLAG_DELETED <;> simp [loggedBy, hdel, dataTags, journalSkip]

theorem replayTags_spec {s : Span} {metadata : Block}
    (h : TxnAt fs info (journalRead fs inode d) s.sequence s.start ps t s.commit)
    (hn : ps.length ≤ rounds + 1) (htags : tagsFrom fs info metadata n offset = some tags)
    (hout : ∀ w ∈ loggedBy info (journalRead fs inode d) tags data, ¬ InJournal fs inode d w.1) :
    ∃ ws res,
      Replays fs inode d
        (fun io => replayTags fs inode info s rounds metadata n io offset data) ws res ∧
      res ≠ .error .rounds ∧
      (∀ w ∈ ws, w ∈ loggedBy info (journalRead fs inode d) tags data) ∧
      ∀ data', res = .ok data' →
        data' = journalSkip info (dataTags tags) data ∧
          ws = (loggedBy info (journalRead fs inode d) tags data).filter
            fun w => decide (w.1 ∉ t.revoked) := by
  induction n generalizing offset data tags with
  | zero => cases htags
  | succ n ih =>
    rw [tagsFrom] at htags
    split at htags
    · cases hparse : journalParseTag fs info metadata offset with
      | none =>
        rw [hparse] at htags
        cases htags
      | some p =>
        obtain ⟨tag, offset'⟩ := p
        simp only [hparse] at htags
        split at htags
        · cases htags
        · obtain ⟨ws, res, hrep, hres, hsub, hok⟩ := replayTag_spec tag h hn data
          by_cases hlast : tag.has JBD2_FLAG_LAST_TAG = true
          · rw [if_pos hlast] at htags
            cases htags
            refine ⟨ws, res, ?_, hres, hsub, hok⟩
            intro io hio
            have hstep := hrep io hio
            simp only [replayTags, hparse]
            simp only at hstep
            rw [hstep]
            cases res with
            | error e => rfl
            | ok data' => simp [hlast]
          · rw [if_neg hlast] at htags
            rw [Option.map_eq_some_iff] at htags
            obtain ⟨rest, hrest, rfl⟩ := htags
            rw [loggedBy_cons] at hout ⊢
            cases res with
            | error e =>
              refine ⟨ws, .error e, ?_, ?_, ?_, nofun⟩
              · intro io hio
                have hstep := hrep io hio
                simp only at hstep
                simp only [replayTags, hparse, hstep]
              · intro he
                cases he
                exact hres rfl
              · exact fun w hw => List.mem_append_left _ (hsub w hw)
            | ok data' =>
              obtain ⟨rfl, hws⟩ := hok data' rfl
              obtain ⟨ws', res', hrep', hres', hsub', hok'⟩ :=
                ih hrest fun w hw => hout w (List.mem_append_right _ hw)
              refine ⟨ws ++ ws', res', ?_, hres', ?_, ?_⟩
              · intro io hio
                have hstep := hrep io hio
                simp only at hstep
                have hnext := hrep' (io.writeAll ws)
                  (hio.apply fun w hw => hout w (List.mem_append_left _ (hsub w hw)))
                simp only at hnext
                simp only [replayTags, hparse, hstep, hlast, Bool.false_eq_true, if_false, hnext,
                  Io.writeAll_writeAll]
              · intro w hw
                rcases List.mem_append.mp hw with hw | hw
                · exact List.mem_append_left _ (hsub w hw)
                · exact List.mem_append_right _ (hsub' w hw)
              · intro data' he
                obtain ⟨rfl, hws'⟩ := hok' data' he
                rw [dataTags_cons tag rest, journalSkip_add, List.filter_append, ← hws, ← hws']
                exact ⟨rfl, rfl⟩
    · cases htags

/-- From any record of a transaction to its commit block. -/
theorem journalReplayTransaction_spec {s : Span}
    (h : TxnAt fs info (journalRead fs inode d) s.sequence s.start ps t s.commit)
    (hr : ps.length ≤ rounds + 1)
    (h' : TxnAt fs info (journalRead fs inode d) s.sequence c ps' t' e) (he : e = s.commit)
    (hn : ps'.length ≤ n + 1) (hout : ∀ w ∈ t'.logged, ¬ InJournal fs inode d w.1) :
    ∃ ws res,
      Replays fs inode d (fun io => journalReplayTransaction fs inode info s rounds n io c) ws res ∧
      res ≠ .error .rounds ∧ (∀ w ∈ ws, w ∈ t'.logged) ∧
      (res = .ok () → ws = t'.logged.filter fun w => decide (w.1 ∉ t.revoked)) := by
  induction h' generalizing n with
  | commit hb hrec =>
    refine ⟨[], .ok (), ?_, (fun h => by cases h), (fun _ h => by cases h), fun _ => rfl⟩
    intro io _
    cases n <;> simp [journalReplayTransaction, he, Io.writeAll_nil]
  | @revoke c block ps' t' e hb hrec ht ih =>
    have hne : c ≠ s.commit := by
      rintro rfl
      obtain ⟨block', hb', hr'⟩ := ht.commit_record
      rw [he, hb] at hb'
      cases hb'
      exact hrec.ne hr' (by decide)
    obtain ⟨tl, rfl⟩ := ht.head
    cases n with
    | zero => exact absurd hn (by simp)
    | succ n =>
      obtain ⟨ws, res, hrep, hres, hsub, hok⟩ := ih he (Nat.le_of_succ_le_succ hn) hout
      refine ⟨ws, res, ?_, hres, hsub, hok⟩
      intro io hio
      rw [← hrep io hio]
      simp [journalReplayTransaction, hne, hio.read, hb, hrec.1, hrec.2.1, hrec.2.2]
  | @descriptor c block tags ps' t' e hb hrec hd ht ih =>
    have hne : c ≠ s.commit := by
      rintro rfl
      obtain ⟨block', hb', hr'⟩ := ht.commit_record
      rw [he, hb] at hb'
      cases hb'
      exact hrec.ne hr' (by decide)
    obtain ⟨tl, rfl⟩ := ht.head
    cases n with
    | zero => exact absurd hn (by simp)
    | succ n =>
      obtain ⟨ws, res, hrep, hres, hsub, hok⟩ :=
        replayTags_spec h hr hd fun w hw => hout w (List.mem_append_left _ hw)
      have hstep : ∀ io, SameJournal fs inode d io.disk →
          (∀ e, res = .error e → journalReplayTransaction fs inode info s rounds (n + 1) io c =
            (io.writeAll ws, .error e)) ∧
          ∀ data, res = .ok data → journalReplayTransaction fs inode info s rounds (n + 1) io c =
            journalReplayTransaction fs inode info s rounds n (io.writeAll ws) data := by
        intro io hio
        have htags := hrep io hio
        simp only at htags
        constructor
        · rintro e rfl
          simp [journalReplayTransaction, hne, hio.read, hb, hrec.1, hrec.2.1, hrec.2.2, htags]
        · rintro data rfl
          simp [journalReplayTransaction, hne, hio.read, hb, hrec.1, hrec.2.1, hrec.2.2, htags]
      cases res with
      | error e =>
        refine ⟨ws, .error e, fun io hio => (hstep io hio).1 e rfl, ?_,
          fun w hw => List.mem_append_left _ (hsub w hw), (fun h => by cases h)⟩
        intro he
        cases he
        exact hres rfl
      | ok data =>
        obtain ⟨rfl, hws⟩ := hok data rfl
        obtain ⟨ws', res', hrep', hres', hsub', hok'⟩ := ih he (Nat.le_of_succ_le_succ hn)
          fun w hw => hout w (List.mem_append_right _ hw)
        refine ⟨ws ++ ws', res', ?_, hres', ?_, ?_⟩
        · intro io hio
          have hnext := hrep' (io.writeAll ws)
            (hio.apply fun w hw => hout w (List.mem_append_left _ (hsub w hw)))
          refine ((hstep io hio).2 _ rfl).trans ?_
          rw [← Io.writeAll_writeAll]
          exact hnext
        · intro w hw
          rcases List.mem_append.mp hw with hw | hw
          · exact List.mem_append_left _ (hsub w hw)
          · exact List.mem_append_right _ (hsub' w hw)
        · intro hres'
          rw [List.filter_append, ← hws, ← hok' hres']

/-! The loop over the transactions makes the run of the log. -/

/-- The blocks that the replay writes for a run of transactions. -/
def runWrites (ts : List Txn) : List (Nat × Block) :=
  ts.flatMap fun t => t.logged.filter fun w => decide (w.1 ∉ t.revoked)

theorem replayLoop_spec (hf : info.first < info.maxlen) (hr : info.maxlen ≤ rounds)
    (hl : LogRun fs info (journalRead fs inode d) c q ts) (hc : c < info.maxlen)
    (hn : ts.length ≤ n) (hq : q < 2 ^ 32)
    -- coming back to the start of the log ends the run
    (hstart : ∀ ts' k, 0 < k → k ≤ ts.length →
      LogRun fs info (journalRead fs inode d) info.start ((q + k) % 2 ^ 32) ts' → ts' = [])
    (hout : NoneInside fs inode d ts) :
    ∃ ws res,
      Replays fs inode d (fun io => replayLoop fs inode info rounds n io c q) ws res ∧
      res ≠ .error .rounds ∧ (∀ w ∈ ws, ∃ t ∈ ts, w ∈ t.logged) ∧
      ∀ q', res = .ok q' → q' < 2 ^ 32 ∧ ws = runWrites ts := by
  induction hl generalizing n with
  | @stop c q hstop =>
    refine ⟨[], .ok q, ?_, (fun h => by cases h), (fun _ h => by cases h), ?_⟩
    · intro io hio
      cases n with
      | zero => simp [replayLoop, Io.writeAll_nil]
      | succ n =>
        rcases hstop with h0 | hnone
        · simp [replayLoop, h0, Io.writeAll_nil]
        · have hfind : journalFindCommit fs info (journalRead fs inode d) q info.maxlen c = none := by
            cases hfc : journalFindCommit fs info (journalRead fs inode d) q info.maxlen c with
            | none => rfl
            | some e =>
              obtain ⟨ps, t, ht⟩ := journalFindCommit_sound hfc
              exact absurd ht (hnone ps t e)
          simp [replayLoop, hio.read, hfind, Io.writeAll_nil]
    · intro q' he
      cases he
      exact ⟨hq, rfl⟩
  | @step c q ps t e ts h0 ht hl ih =>
    cases n with
    | zero => cases hn
    | succ n =>
      have hlen := ht.length_le hf hc
      have hfind := journalFindCommit_complete ht hlen
      have hlogged : ∀ w ∈ t.logged, ¬ InJournal fs inode d w.1 := hout t List.mem_cons_self
      obtain ⟨ws, res, hrep, hres, hsub, hok⟩ :=
        journalReplayTransaction_spec (s := ⟨c, e, q⟩) (n := rounds) ht
          (Nat.le_succ_of_le (hlen.trans hr)) ht rfl (Nat.le_succ_of_le (hlen.trans hr)) hlogged
      have hstep : ∀ io, SameJournal fs inode d io.disk →
          (∀ e, res = .error e →
            replayLoop fs inode info rounds (n + 1) io c q = (io.writeAll ws, .error e)) ∧
          (res = .ok () → replayLoop fs inode info rounds (n + 1) io c q =
            if journalNext info e = info.start then (io.writeAll ws, .ok ((q + 1) % 2 ^ 32))
            else replayLoop fs inode info rounds n (io.writeAll ws) (journalNext info e)
              ((q + 1) % 2 ^ 32)) := by
        intro io hio
        have htxn := hrep io hio
        simp only at htxn
        constructor
        · rintro e rfl
          simp only [replayLoop, h0, if_false, hio.read, hfind, htxn]
        · rintro rfl
          simp only [replayLoop, h0, if_false, hio.read, hfind, htxn]
      have hwhere : ∀ w ∈ ws, ∃ u ∈ t :: ts, w ∈ u.logged :=
        fun w hw => ⟨t, List.mem_cons_self, hsub w hw⟩
      cases res with
      | error e =>
        refine ⟨ws, .error e, fun io hio => (hstep io hio).1 e rfl, ?_, hwhere,
          (fun _ h => by cases h)⟩
        intro he
        cases he
        exact hres rfl
      | ok u =>
        have hws := hok rfl
        have hq' : (q + 1) % 2 ^ 32 < 2 ^ 32 := Nat.mod_lt _ (by decide)
        by_cases hback : journalNext info e = info.start
        · have hnil : ts = [] := by
            rw [hback] at hl
            exact hstart ts 1 Nat.one_pos (by simp) hl
          subst hnil
          refine ⟨ws, .ok ((q + 1) % 2 ^ 32), ?_, (fun h => by cases h), hwhere, ?_⟩
          · intro io hio
            refine ((hstep io hio).2 rfl).trans ?_
            simp only [hback, if_true]
          · intro q' he
            cases he
            exact ⟨hq', by simpa [runWrites] using hws⟩
        · have hstart' : ∀ ts' k, 0 < k → k ≤ ts.length →
              LogRun fs info (journalRead fs inode d) info.start
                (((q + 1) % 2 ^ 32 + k) % 2 ^ 32) ts' → ts' = [] := by
            intro ts' k hk hkl hrun
            apply hstart ts' (k + 1) (Nat.succ_pos _) (Nat.succ_le_succ hkl)
            rw [Nat.mod_add_mod, Nat.add_assoc, Nat.add_comm 1 k] at hrun
            exact hrun
          obtain ⟨ws', res', hrep', hres', hsub', hok'⟩ :=
            ih (journalNext_lt hf) (Nat.le_of_succ_le_succ hn) hq' hstart'
              fun u hu => hout u (List.mem_cons_of_mem _ hu)
          refine ⟨ws ++ ws', res', ?_, hres', ?_, ?_⟩
          · intro io hio
            have hnext := hrep' (io.writeAll ws) (hio.apply fun w hw => hlogged w (hsub w hw))
            refine ((hstep io hio).2 rfl).trans ?_
            rw [← Io.writeAll_writeAll]
            simp only [hback, if_false]
            exact hnext
          · intro w hw
            rcases List.mem_append.mp hw with hw | hw
            · exact hwhere w hw
            · obtain ⟨u, hu, hwu⟩ := hsub' w hw
              exact ⟨u, List.mem_cons_of_mem _ hu, hwu⟩
          · intro q' he
            obtain ⟨hlt, hws'⟩ := hok' q' he
            refine ⟨hlt, ?_⟩
            rw [hws, hws']
            rfl

theorem be32_lt (b : Block) (i : Nat) : be32 b i < 2 ^ 32 := by
  have h0 := (b i).toNat_lt
  have h1 := (b (i + 1)).toNat_lt
  have h2 := (b (i + 2)).toNat_lt
  have h3 := (b (i + 3)).toNat_lt
  rw [be32]
  omega

/-- Different numbers stand in different blocks of the log. -/
theorem records_le (rd : Nat → Option Block) {f : Nat → Nat} (hk : k ≤ 2 ^ 32)
    (h : ∀ i < k, f i < m ∧ ∃ block, rd (f i) = some block ∧ be32 block 8 = (q + i) % 2 ^ 32) :
    k ≤ m := by
  have hinj : Set.InjOn f (Finset.range k) := by
    intro i hi j hj heq
    rw [Finset.coe_range, Set.mem_Iio] at hi hj
    obtain ⟨-, b, hb, hbi⟩ := h i hi
    obtain ⟨-, b', hb', hbj⟩ := h j hj
    rw [heq, hb'] at hb
    cases hb
    rw [hbi] at hbj
    omega
  have hmaps : ∀ i ∈ Finset.range k, f i ∈ Finset.range m := by
    intro i hi
    exact Finset.mem_range.mpr (h i (Finset.mem_range.mp hi)).1
  have := Finset.card_le_card_of_injOn f hmaps hinj
  rwa [Finset.card_range, Finset.card_range] at this

/-- The run of the log after `k` transactions with their commit blocks at `f`. -/
theorem logRun_exists (fs : Geometry) (rd : Nat → Option Block) (hf : info.first < info.maxlen) (hm : info.maxlen < 2 ^ 32) (f : Nat → Nat)
    (hk : k + m = info.maxlen) (hc : c < info.maxlen)
    (h : ∀ i < k, f i < info.maxlen ∧
      ∃ block, rd (f i) = some block ∧ be32 block 8 = (q + i) % 2 ^ 32) :
    ∃ ts, LogRun fs info rd c ((q + k) % 2 ^ 32) ts ∧ ts.length ≤ m := by
  induction m generalizing k c f with
  | zero =>
    refine ⟨[], .stop (.inr ?_), Nat.le_refl _⟩
    intro ps t e ht
    obtain ⟨block, hb, hr⟩ := ht.commit_record
    have hle := records_le (f := Function.update f k e) (k := k + 1) (m := info.maxlen)
      (q := q) rd (by omega) (by
        intro i hi
        by_cases hik : i = k
        · subst hik
          rw [Function.update_self]
          exact ⟨ht.commit_lt hf hc, block, hb, hr.2.2⟩
        · rw [Function.update_of_ne hik]
          exact h i (by omega))
    omega
  | succ m ih =>
    by_cases hstop : c = 0 ∨ ∀ ps t e, ¬ TxnAt fs info rd ((q + k) % 2 ^ 32) c ps t e
    · exact ⟨[], .stop hstop, Nat.zero_le _⟩
    · simp only [not_or, not_forall, not_not] at hstop
      obtain ⟨h0, ps, t, e, ht⟩ := hstop
      obtain ⟨block, hb, hr⟩ := ht.commit_record
      obtain ⟨ts, hts, hlen⟩ := ih (k := k + 1) (c := journalNext info e)
        (Function.update f k e) (by omega) (journalNext_lt hf) (by
          intro i hi
          by_cases hik : i = k
          · subst hik
            rw [Function.update_self]
            exact ⟨ht.commit_lt hf hc, block, hb, hr.2.2⟩
          · rw [Function.update_of_ne hik]
            exact h i (by omega))
      refine ⟨t :: ts, .step h0 ht ?_, Nat.succ_le_succ hlen⟩
      rw [Nat.mod_add_mod]
      exact hts

/-- The block at the start of a run has the number of its first transaction. -/
theorem LogRun.start_ends (h : LogRun fs info rd c q ts)
    (hlen : ts.length < 2 ^ 32) (hk : 0 < k) (hkl : k ≤ ts.length)
    (h' : LogRun fs info rd c ((q + k) % 2 ^ 32) ts') : ts' = [] := by
  cases h with
  | stop _ =>
    rw [List.length_nil] at hkl
    omega
  | step _ ht _ =>
    cases h' with
    | stop _ => rfl
    | step _ ht' _ =>
      obtain ⟨b, hb, -, hbq⟩ := ht.record
      obtain ⟨b', hb', -, hbq'⟩ := ht'.record
      rw [hb] at hb'
      cases hb'
      rw [hbq] at hbq'
      omega

theorem LogRun.det (h : LogRun fs info rd c q ts) (h' : LogRun fs info rd c q ts') : ts' = ts := by
  induction h generalizing ts' with
  | stop hstop =>
    cases h' with
    | stop _ => rfl
    | step h0 ht _ =>
      rcases hstop with hc | hno
      · exact absurd hc h0
      · exact absurd ht (hno _ _ _)
  | step h0 ht _ ih =>
    cases h' with
    | stop hstop =>
      rcases hstop with hc | hno
      · exact absurd hc h0
      · exact absurd ht (hno _ _ _)
    | step _ ht' hl' =>
      obtain ⟨-, rfl, rfl⟩ := ht.det ht'
      rw [ih hl']

/-! What the writes leave, against what the log asks for. -/

theorem last_runWrites_cons (t : Txn) (ts : List Txn) (b : Nat) :
    Writes.last (runWrites (t :: ts)) b =
      (Writes.last (runWrites ts) b).or (if b ∈ t.revoked then none else t.content b) := by
  rw [runWrites, List.flatMap_cons, Writes.last_append,
    Writes.last_filter fun b => decide (b ∉ t.revoked)]
  by_cases h : b ∈ t.revoked
  · simp [h, runWrites]
  · simp [h, runWrites, Txn.content]

theorem last_runWrites_of_unrevoked {ts : List Txn} (h : ∀ u ∈ ts, b ∉ u.revoked) :
    Writes.last (runWrites ts) b = lastLogged ts b := by
  induction ts with
  | nil => rfl
  | cons t ts ih =>
    obtain ⟨ht, hts⟩ := List.forall_mem_cons.mp h
    have hno : ¬ ∃ u ∈ t :: ts, b ∈ u.revoked := fun ⟨u, hu, hb⟩ => h u hu hb
    rw [last_runWrites_cons, lastLogged, ih hts, if_neg ht, if_neg hno]

theorem last_runWrites_of_lastLogged {ts : List Txn} (h : lastLogged ts b = some x) :
    Writes.last (runWrites ts) b = some x := by
  induction ts with
  | nil => cases h
  | cons t ts ih =>
    rw [lastLogged] at h
    rw [last_runWrites_cons]
    cases hl : lastLogged ts b with
    | some y =>
      rw [hl] at h
      rw [ih (hl.trans h)]
      rfl
    | none =>
      rw [hl, Option.none_or] at h
      split at h
      · cases h
      · rename_i hno
        have hall : ∀ u ∈ t :: ts, b ∉ u.revoked := fun u hu hb => hno ⟨u, hu, hb⟩
        obtain ⟨ht, hts⟩ := List.forall_mem_cons.mp hall
        rw [last_runWrites_of_unrevoked hts, hl, if_neg ht, Option.none_or]
        exact h

theorem last_runWrites_append (ts us : List Txn) (b : Nat) :
    Writes.last (runWrites (ts ++ us)) b =
      (Writes.last (runWrites us) b).or (Writes.last (runWrites ts) b) := by
  rw [runWrites, List.flatMap_append, Writes.last_append]
  rfl

theorem last_runWrites_none {ts : List Txn}
    (h : ∀ u ∈ ts, u.content b ≠ none → b ∈ u.revoked) : Writes.last (runWrites ts) b = none := by
  induction ts with
  | nil => rfl
  | cons t ts ih =>
    obtain ⟨ht, hts⟩ := List.forall_mem_cons.mp h
    rw [last_runWrites_cons, ih hts, Option.none_or]
    split
    · rfl
    · rename_i hb
      by_contra hne
      exact hb (ht hne)

/-- The transaction whose copy of a block the replay leaves. -/
theorem last_runWrites_some {ts : List Txn} (h : Writes.last (runWrites ts) b = some x) :
    ∃ before t after, ts = before ++ t :: after ∧ t.content b = some x ∧ b ∉ t.revoked ∧
      ∀ u ∈ after, u.content b ≠ none → b ∈ u.revoked := by
  induction ts with
  | nil => cases h
  | cons t ts ih =>
    rw [last_runWrites_cons] at h
    cases hl : Writes.last (runWrites ts) b with
    | some y =>
      rw [hl] at h
      obtain ⟨before, u, after, rfl, hu⟩ := ih (hl.trans h)
      exact ⟨t :: before, u, after, rfl, hu⟩
    | none =>
      rw [hl, Option.none_or] at h
      split at h
      · cases h
      · rename_i hb
        refine ⟨[], t, ts, rfl, h, hb, ?_⟩
        intro u hu hne
        by_contra hnot
        -- the last write of `u` and what follows is some copy
        obtain ⟨before, after, rfl⟩ := List.append_of_mem hu
        rw [last_runWrites_append, last_runWrites_cons, if_neg hnot] at hl
        obtain ⟨y, hy⟩ := Option.ne_none_iff_exists'.mp hne
        simp [hy] at hl

theorem lastLogged_append_some {ts us : List Txn} (h : lastLogged us b = some x) :
    lastLogged (ts ++ us) b = some x := by
  induction ts with
  | nil => exact h
  | cons t ts ih =>
    rw [List.cons_append, lastLogged, ih]
    rfl

theorem lastLogged_none_of_revoked {ts us : List Txn} (h : lastLogged us b = none)
    (hr : ∃ u ∈ us, b ∈ u.revoked) : lastLogged (ts ++ us) b = none := by
  obtain ⟨u, hu, hb⟩ := hr
  induction ts with
  | nil => exact h
  | cons t ts ih =>
    have hin : ∃ v ∈ t :: (ts ++ us), b ∈ v.revoked :=
      ⟨u, List.mem_cons_of_mem _ (List.mem_append_right _ hu), hb⟩
    rw [List.cons_append, lastLogged, ih, if_pos hin]
    rfl

/-- The writes agree with the log exactly when stale copies are what the disk already has. -/
theorem applied_iff {ts : List Txn} :
    (∀ b, Writes.apply (runWrites ts) d b = (lastLogged ts b).getD (d b)) ↔
      RevokedAreCurrent d ts := by
  constructor
  · intro h before t after b x hts hx hb hafter hrev
    have hlast : Writes.last (runWrites ts) b = some x := by
      rw [hts, last_runWrites_append, last_runWrites_cons, last_runWrites_none hafter, if_neg hb, hx]
      rfl
    have hnone : lastLogged ts b = none := by
      have hla : lastLogged after b = none := by
        by_contra hne
        obtain ⟨y, hy⟩ := Option.ne_none_iff_exists'.mp hne
        have := last_runWrites_of_lastLogged hy
        rw [last_runWrites_none hafter] at this
        cases this
      rw [hts, List.append_cons]
      exact lastLogged_none_of_revoked hla hrev
    have hb' := h b
    rw [Writes.apply_eq, hlast, hnone] at hb'
    exact hb'.symm
  · intro h b
    rw [Writes.apply_eq]
    cases hl : lastLogged ts b with
    | some x => rw [last_runWrites_of_lastLogged hl]
    | none =>
      cases hw : Writes.last (runWrites ts) b with
      | none => rfl
      | some x =>
        obtain ⟨before, t, after, rfl, hx, hb, hafter⟩ := last_runWrites_some hw
        have hrev : ∃ u ∈ after, b ∈ u.revoked := by
          by_contra hno
          have hun : ∀ u ∈ after, b ∉ u.revoked := fun u hu hbu => hno ⟨u, hu, hbu⟩
          have hall : ¬ ∃ u ∈ t :: after, b ∈ u.revoked := by
            rintro ⟨u, hu, hbu⟩
            rcases List.mem_cons.mp hu with rfl | hu
            · exact hb hbu
            · exact hun u hu hbu
          have ht : lastLogged (t :: after) b = some x := by
            rw [lastLogged, ← last_runWrites_of_unrevoked hun, last_runWrites_none hafter,
              if_neg hall, hx]
            rfl
          rw [lastLogged_append_some ht] at hl
          cases hl
        exact (h before t after b x rfl hx hb hafter hrev).symm

/-! The superblock that the replay writes back. -/

theorem be32_congr {b b' : Block} (h : ∀ j, i ≤ j → j < i + 4 → b' j = b j) :
    be32 b' i = be32 b i := by
  rw [be32, be32, h i (by omega) (by omega), h (i + 1) (by omega) (by omega),
    h (i + 2) (by omega) (by omega), h (i + 3) (by omega) (by omega)]

theorem putBe32_other (b : Block) (n : Nat) (h : j < i ∨ i + 4 ≤ j) : putBe32 b i n j = b j := by
  rw [putBe32]
  rw [if_neg (by omega), if_neg (by omega), if_neg (by omega), if_neg (by omega)]

theorem be32_putBe32_other (b : Block) (n : Nat) (h : k + 4 ≤ i ∨ i + 4 ≤ k) :
    be32 (putBe32 b i n) k = be32 b k := by
  apply be32_congr
  intro j h1 h2
  exact putBe32_other b n (by omega)

theorem be32_putBe32 (b : Block) (hn : n < 2 ^ 32) : be32 (putBe32 b i n) i = n := by
  have h0 : putBe32 b i n i = UInt8.ofNat (n / 2 ^ 24) := by simp [putBe32]
  have h1 : putBe32 b i n (i + 1) = UInt8.ofNat (n / 2 ^ 16) := by simp [putBe32]
  have h2 : putBe32 b i n (i + 2) = UInt8.ofNat (n / 2 ^ 8) := by simp [putBe32]
  have h3 : putBe32 b i n (i + 3) = UInt8.ofNat n := by simp [putBe32]
  rw [be32, h0, h1, h2, h3]
  simp only [UInt8.toNat_ofNat']
  omega

/-- The superblock with an empty log that goes on with transaction `q`. -/
def emptied (sb : Block) (q : Nat) : Block := putBe32 (putBe32 sb 28 0) 24 q

theorem be32_emptied_start (sb : Block) (q : Nat) : be32 (emptied sb q) 28 = 0 := by
  rw [emptied, be32_putBe32_other _ _ (by omega), be32_putBe32 _ (by decide)]

theorem be32_emptied_other (sb : Block) (q : Nat) (h : k + 4 ≤ 24 ∨ 32 ≤ k) :
    be32 (emptied sb q) k = be32 sb k := by
  rw [emptied, be32_putBe32_other _ _ (by omega), be32_putBe32_other _ _ (by omega)]

theorem emptied_emptied (sb : Block) (q : Nat) : emptied (emptied sb q) q = emptied sb q := by
  funext j
  by_cases h : 24 ≤ j ∧ j < 32
  · obtain ⟨h1, h2⟩ := h
    interval_cases j <;> simp [emptied, putBe32]
  · simp only [emptied]
    rw [putBe32_other _ _ (by omega), putBe32_other _ _ (by omega)]

theorem journalInfo_some {sb : Block} (h : journalInfo fs sb = some info) :
    be32 sb 0 = JBD2_MAGIC ∧ info.first < info.maxlen ∧ info.start < info.maxlen ∧
      info.maxlen < 2 ^ 32 ∧ info.sequence < 2 ^ 32 := by
  simp only [journalInfo] at h
  split at h
  · cases h
  · rename_i hm
    split at h
    · cases h
    · split at h
      · cases h
      · rename_i hc
        simp only [Bool.or_eq_true, decide_eq_true_eq, not_or, Nat.not_le] at hc
        cases h
        exact ⟨not_not.mp hm, hc.1.2, hc.2, be32_lt _ _, be32_lt _ _⟩

theorem journalInfo_emptied {sb : Block} (h : journalInfo fs sb = some info) (hq : q < 2 ^ 32) :
    journalInfo fs (emptied sb q) = some { info with start := 0, sequence := q } := by
  have hseq : be32 (emptied sb q) 24 = q := be32_putBe32 _ hq
  simp only [journalInfo] at h ⊢
  rw [be32_emptied_start, hseq, be32_emptied_other _ _ (by omega), be32_emptied_other _ _ (by omega),
    be32_emptied_other _ _ (by omega), be32_emptied_other _ _ (by omega),
    be32_emptied_other _ _ (by omega)]
  split at h
  · cases h
  · rename_i hm
    split at h
    · cases h
    · rename_i hs
      split at h
      · cases h
      · rename_i hc
        have hmax : 0 < be32 sb 16 := by
          simp only [Bool.or_eq_true, decide_eq_true_eq, not_or] at hc
          omega
        simp only [Bool.or_eq_true, decide_eq_true_eq, not_or] at hc
        cases h
        rw [if_neg hm, if_neg hs, if_neg]
        simp only [Bool.or_eq_true, decide_eq_true_eq, not_or]
        exact ⟨hc.1, by omega⟩

theorem le16_of_magic {b : Block} (h : be32 b 0 = JBD2_MAGIC) : le16 b 0 ≠ EXT4_EXTENT_MAGIC := by
  have h0 := (b 0).toNat_lt
  have h1 := (b 1).toNat_lt
  have h2 := (b 2).toNat_lt
  have h3 := (b 3).toNat_lt
  rw [be32] at h
  rw [le16]
  simp only [Nat.zero_add, JBD2_MAGIC] at h
  simp only [Nat.zero_add, EXT4_EXTENT_MAGIC]
  omega

theorem ext4JournalReplay_accepted (hsb : journalRead fs inode d 0 = some sb)
    (hinfo : journalInfo fs sb = some info) :
    ext4JournalReplay fs inode rounds true d = journalReplayLog fs inode rounds sb info d := by
  rw [ext4JournalReplay, if_neg (by decide)]
  split
  · rename_i hnone
    rw [hsb] at hnone
    cases hnone
  · rename_i sb' hsome
    rw [hsb] at hsome
    cases hsome
    split
    · rename_i hnone
      rw [hinfo] at hnone
      cases hnone
    · rename_i info' hsome
      rw [hinfo] at hsome
      cases hsome
      rfl

/-- What a replay of an accepted journal does: the writes of the loop, and the superblock when
that has succeeded. -/
theorem ext4JournalReplay_eq (hsb : journalRead fs inode d 0 = some sb)
    (hinfo : journalInfo fs sb = some info)
    (hrep : Replays fs inode d
      (fun io => replayLoop fs inode info rounds info.maxlen io info.start info.sequence) ws res)
    (hout : ∀ w ∈ ws, ¬ InJournal fs inode d w.1) (hd : SameJournal fs inode d d') :
    ext4JournalReplay fs inode rounds true d' =
      match res with
      | .error e => (Io.writeAll ⟨d', []⟩ ws, .error e)
      | .ok q => (Io.writeAll ⟨d', []⟩ (ws ++ [(ext4InodeGetBlock fs d inode 0, emptied sb q)]),
          .ok ()) := by
  have h0 : ext4InodeGetBlock fs d inode 0 ≠ 0 := by
    intro h0
    rw [journalRead, if_pos h0] at hsb
    cases hsb
  have hloop : replayLoop fs inode info rounds info.maxlen ⟨d', []⟩ info.start info.sequence =
      (Io.writeAll ⟨d', []⟩ ws, res) := hrep ⟨d', []⟩ hd
  have hsame : SameJournal fs inode d (Io.writeAll ⟨d', []⟩ ws).disk := hd.apply hout
  have hread : journalRead fs inode d' 0 = some sb := by rw [hd.read, hsb]
  rw [ext4JournalReplay_accepted hread hinfo, journalReplayLog, hloop]
  cases res with
  | error e => rfl
  | ok q =>
    have hfin : journalFinish fs inode sb (Io.writeAll ⟨d', []⟩ ws) q =
        ((Io.writeAll ⟨d', []⟩ ws).write (ext4InodeGetBlock fs d inode 0) (emptied sb q), .ok ()) := by
      rw [journalFinish, hsame.getBlock, if_neg h0, emptied]
    exact hfin.trans (by rw [Io.write_eq, Io.writeAll_writeAll])

/-- The superblock of an accepted journal is not among the blocks that map it. -/
theorem super_not_read (hsb : journalRead fs inode d 0 = some sb) (hm : be32 sb 0 = JBD2_MAGIC) :
    ext4InodeGetBlock fs d inode 0 ∉ mapReads fs d inode 0 := by
  rw [journalRead] at hsb
  split at hsb
  · cases hsb
  · rename_i h0
    cases hsb
    exact first_not_read h0 (le16_of_magic hm)

/-- A log that has been marked empty is replayed to the same disk. -/
theorem replay_emptied (hsb : journalRead fs inode d 0 = some sb)
    (hinfo : journalInfo fs sb = some info) (hq : q < 2 ^ 32) (hd : SameJournal fs inode d d') :
    (ext4JournalReplay fs inode rounds true
        (Function.update d' (ext4InodeGetBlock fs d inode 0) (emptied sb q))).1.disk =
      Function.update d' (ext4InodeGetBlock fs d inode 0) (emptied sb q) := by
  obtain ⟨hmagic, hf, -, -, -⟩ := journalInfo_some hinfo
  have hnot := super_not_read hsb hmagic
  have h0 : ext4InodeGetBlock fs d inode 0 ≠ 0 := by
    intro h0
    rw [journalRead, if_pos h0] at hsb
    cases hsb
  generalize hp : ext4InodeGetBlock fs d inode 0 = p at hnot h0 ⊢
  generalize he : Function.update d' p (emptied sb q) = e
  have hblock : ext4InodeGetBlock fs e inode 0 = p := by
    rw [← hp]
    apply ext4InodeGetBlock_congr
    intro b hb
    have hbp : b ≠ p := fun h => hnot (h ▸ hb)
    rw [← he, Function.update_of_ne hbp]
    exact hd b ⟨0, .inl hb⟩
  have hep : e p = emptied sb q := by rw [← he, Function.update_self]
  have hread : journalRead fs inode e 0 = some (emptied sb q) := by
    rw [journalRead, hblock, if_neg h0, hep]
  rw [ext4JournalReplay_accepted hread (journalInfo_emptied hinfo hq), journalReplayLog]
  obtain ⟨n, hn⟩ := Nat.exists_eq_succ_of_ne_zero (Nat.ne_of_gt (Nat.lt_of_le_of_lt (Nat.zero_le _) hf))
  have hloop : replayLoop fs inode { info with start := 0, sequence := q } rounds info.maxlen
      ⟨e, []⟩ 0 q = (⟨e, []⟩, .ok q) := by
    rw [hn, replayLoop, if_pos rfl]
  simp only [hloop, journalFinish, hblock, if_neg h0]
  have hwrite : putBe32 (putBe32 (emptied sb q) 28 0) 24 q = emptied sb q := emptied_emptied sb q
  rw [hwrite, Io.write]
  exact Function.update_eq_self_iff.mpr hep.symm

def bytes (l : List UInt8) : Block := fun i => l.getD i 0

def smallGeometry : Geometry := ⟨1024, 64, Nat.le_refl _⟩

/-- A journal of eight blocks in blocks 10 to 17 of the disk. -/
def smallInode : MapInode where
  iFlags := 0
  iBlock := bytes [10, 0, 0, 0, 11, 0, 0, 0, 12, 0, 0, 0, 13, 0, 0, 0,
    14, 0, 0, 0, 15, 0, 0, 0, 16, 0, 0, 0, 17, 0, 0, 0]

def smallSuper : Block :=
  bytes [0xC0, 0x3B, 0x39, 0x98, 0, 0, 0, 4, 0, 0, 0, 0, 0, 0, 4, 0, 0, 0, 0, 8, 0, 0, 0, 1,
    0, 0, 0, 1, 0, 0, 0, 1, 0, 0, 0, 0, 0, 0, 0, 0, 0, 0, 0, 1]

/-- One tag, of block 50, the last. -/
def smallDescriptor : Block :=
  bytes [0xC0, 0x3B, 0x39, 0x98, 0, 0, 0, 1, 0, 0, 0, 1, 0, 0, 0, 50, 0, 0, 0, 0x0A]

/-- The commit block of transaction `q`. -/
def smallCommit (q : UInt8) : Block :=
  bytes [0xC0, 0x3B, 0x39, 0x98, 0, 0, 0, 2, 0, 0, 0, q]

/-- Transaction 1 logs block 50; transaction 2 is what the given blocks say. -/
def smallDisk (fourth fifth : Block) : Disk
  | 10 => smallSuper
  | 11 => smallDescriptor
  | 12 => bytes [7]
  | 13 => smallCommit 1
  | 14 => fourth
  | 15 => fifth
  | 50 => bytes [9]
  | _ => bytes []

/-- Transaction 2 revokes block 50. -/
def revokingDisk : Disk :=
  smallDisk (bytes [0xC0, 0x3B, 0x39, 0x98, 0, 0, 0, 5, 0, 0, 0, 2, 0, 0, 0, 20, 0, 0, 0, 50])
    (smallCommit 2)

def smallInfo : JournalInfo :=
  { maxlen := 8, first := 1, sequence := 1, start := 1, has64bit := false, hasCsum := false }

theorem smallInode_reads (d : Disk) (l : Nat) :
    mapReads smallGeometry d smallInode l = [] := by
  have h12 : le32 smallInode.iBlock (4 * EXT4_IND_BLOCK) = 0 := rfl
  have h13 : le32 smallInode.iBlock (4 * EXT4_DIND_BLOCK) = 0 := rfl
  have h14 : le32 smallInode.iBlock (4 * EXT4_TIND_BLOCK) = 0 := rfl
  have hz : ∀ i, indirectEntry d 0 i = 0 := fun i => if_pos rfl
  have hflag : ¬ smallInode.iFlags &&& EXT4_INODE_FLAG_EXTENTS ≠ 0 := not_not.mpr rfl
  rw [mapReads, if_neg hflag]
  simp only [indirectReads, h12, h13, h14, hz]
  split_ifs <;> rfl

theorem smallInode_block (d : Disk) (l : Nat) :
    ext4InodeGetBlock smallGeometry d smallInode l ≤ 17 := by
  have h12 : le32 smallInode.iBlock (4 * EXT4_IND_BLOCK) = 0 := rfl
  have h13 : le32 smallInode.iBlock (4 * EXT4_DIND_BLOCK) = 0 := rfl
  have h14 : le32 smallInode.iBlock (4 * EXT4_TIND_BLOCK) = 0 := rfl
  have hz : ∀ i, indirectEntry d 0 i = 0 := fun i => if_pos rfl
  have hflag : ¬ smallInode.iFlags &&& EXT4_INODE_FLAG_EXTENTS ≠ 0 := not_not.mpr rfl
  rw [ext4InodeGetBlock, if_neg hflag]
  simp only [ext4IndirectGetBlock, h12, h13, h14, hz]
  split_ifs with hl
  · have : ∀ i < 12, le32 smallInode.iBlock (4 * i) ≤ 17 := by decide
    exact this l hl
  all_goals exact Nat.zero_le _

theorem smallInode_outside (d : Disk) : ¬ InJournal smallGeometry smallInode d 50 := by
  rintro ⟨l, hl | ⟨_, hl⟩⟩
  · rw [smallInode_reads] at hl
    cases hl
  · have := smallInode_block d l
    omega

/-- Transaction 1 of `smallDisk`, whatever follows it. -/
theorem smallDisk_first (fourth fifth : Block) :
    TxnAt smallGeometry smallInfo (journalRead smallGeometry smallInode (smallDisk fourth fifth))
      1 1 [1, 3] ⟨[(50, bytes [7])], []⟩ 3 := by
  have hb : journalRead smallGeometry smallInode (smallDisk fourth fifth) 1 =
      some smallDescriptor := rfl
  have hc : journalRead smallGeometry smallInode (smallDisk fourth fifth) 3 =
      some (smallCommit 1) := rfl
  have hd : tagsFrom smallGeometry smallInfo smallDescriptor smallGeometry.blockSize 12 =
      some [⟨50, 10⟩] := by decide
  have hlogged : loggedBy smallInfo
      (journalRead smallGeometry smallInode (smallDisk fourth fifth)) [⟨50, 10⟩]
      (journalNext smallInfo 1) = [(50, bytes [7])] := rfl
  have hcommit : TxnAt smallGeometry smallInfo
      (journalRead smallGeometry smallInode (smallDisk fourth fifth)) 1
      (journalSkip smallInfo (dataTags [⟨50, 10⟩] + 1) 1) [3] {} 3 :=
    .commit hc ⟨rfl, rfl, rfl⟩
  have ht := TxnAt.descriptor hb ⟨rfl, rfl, rfl⟩ hd hcommit
  rw [hlogged] at ht
  exact ht

/-- Only transaction 1, which logs block 50, is in the log. -/
def committedDisk : Disk := smallDisk (bytes []) (bytes [])

end Lebirun.Ext4
