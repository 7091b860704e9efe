import Mathlib
import Lebirun.Lib.Writes
import Lebirun.Ext4.BlockMap

namespace Lebirun.Ext4
set_option autoImplicit true

abbrev JBD2_MAGIC : Nat := 0xC03B3998
abbrev JBD2_DESCRIPTOR_BLOCK : Nat := 1
abbrev JBD2_COMMIT_BLOCK : Nat := 2
abbrev JBD2_REVOKE_BLOCK : Nat := 5
abbrev JBD2_FLAG_ESCAPE : Nat := 1
abbrev JBD2_FLAG_SAME_UUID : Nat := 2
abbrev JBD2_FLAG_DELETED : Nat := 4
abbrev JBD2_FLAG_LAST_TAG : Nat := 8
abbrev JBD2_FEATURE_INCOMPAT_64BIT : Nat := 2

def be32 (b : Block) (i : Nat) : Nat :=
  2 ^ 24 * (b i).toNat + 2 ^ 16 * (b (i + 1)).toNat + 2 ^ 8 * (b (i + 2)).toNat + (b (i + 3)).toNat

def putBe32 (b : Block) (i n : Nat) : Block := fun j =>
  if j = i then UInt8.ofNat (n / 2 ^ 24)
  else if j = i + 1 then UInt8.ofNat (n / 2 ^ 16)
  else if j = i + 2 then UInt8.ofNat (n / 2 ^ 8)
  else if j = i + 3 then UInt8.ofNat n
  else b j

structure JournalInfo where
  maxlen : Nat
  first : Nat
  sequence : Nat
  start : Nat
  has64bit : Bool
  hasCsum : Bool

def journalNext (info : JournalInfo) (block : Nat) : Nat :=
  if block + 1 ≥ info.maxlen then info.first else block + 1

/-- `n` blocks further along the log. -/
def journalSkip (info : JournalInfo) : Nat → Nat → Nat
  | 0, c => c
  | n + 1, c => journalSkip info n (journalNext info c)

def journalRead (fs : Geometry) (inode : MapInode) (d : Disk) (logical : Nat) : Option Block :=
  if ext4InodeGetBlock fs d inode logical = 0 then none
  else some (d (ext4InodeGetBlock fs d inode logical))

structure Tag where
  home : Nat
  flags : Nat
  deriving DecidableEq

def Tag.has (t : Tag) (flag : Nat) : Bool := t.flags &&& flag ≠ 0

def tagSize (info : JournalInfo) : Nat := if info.has64bit then 16 else if info.hasCsum then 12 else 8

def tagAt (info : JournalInfo) (block : Block) (position : Nat) : Tag where
  home := if info.has64bit then 2 ^ 32 * be32 block (position + 8) + be32 block position
    else be32 block position
  flags := if info.has64bit || info.hasCsum then be32 block (position + 4)
    else 2 ^ 8 * (block (position + 6)).toNat + (block (position + 7)).toNat

def tagEnd (info : JournalInfo) (block : Block) (position : Nat) : Nat :=
  position + tagSize info + if (tagAt info block position).has JBD2_FLAG_SAME_UUID then 0 else 16

/-- The tag at `position` and the offset behind it. -/
def journalParseTag (fs : Geometry) (info : JournalInfo) (block : Block) (position : Nat) :
    Option (Tag × Nat) :=
  if position > fs.blockSize - tagSize info then none
  else if tagEnd info block position > fs.blockSize then none
  else some (tagAt info block position, tagEnd info block position)

/-- The loop of `journal_descriptor_count`. A tag has at least 8 bytes, so `blockSize` rounds
are more than it makes. -/
def descriptorCountFrom (fs : Geometry) (info : JournalInfo) (block : Block) :
    Nat → Nat → Nat → Option Nat
  | 0, _, _ => none
  | n + 1, offset, tags =>
    if offset < fs.blockSize then
      match journalParseTag fs info block offset with
      | none => none
      | some (t, offset') =>
        if t.home ≥ fs.totalBlocks then none
        else
          let tags' := if t.has JBD2_FLAG_DELETED then tags else tags + 1
          if t.has JBD2_FLAG_LAST_TAG then some tags'
          else descriptorCountFrom fs info block n offset' tags'
    else none

def journalDescriptorCount (fs : Geometry) (info : JournalInfo) (block : Block) : Option Nat :=
  descriptorCountFrom fs info block fs.blockSize 12 0

/-- `journal_find_commit` after `maxlen - n` rounds. -/
def journalFindCommit (fs : Geometry) (info : JournalInfo) (rd : Nat → Option Block)
    (sequence : Nat) : Nat → Nat → Option Nat
  | 0, _ => none
  | n + 1, cursor =>
    match rd cursor with
    | none => none
    | some block =>
      if be32 block 0 ≠ JBD2_MAGIC || be32 block 8 ≠ sequence then none
      else if be32 block 4 = JBD2_COMMIT_BLOCK then some cursor
      else if be32 block 4 = JBD2_DESCRIPTOR_BLOCK then
        match journalDescriptorCount fs info block with
        | none => none
        | some count => journalFindCommit fs info rd sequence n (journalSkip info (count + 1) cursor)
      else if be32 block 4 ≠ JBD2_REVOKE_BLOCK then none
      else journalFindCommit fs info rd sequence n (journalNext info cursor)

/-- How a loop can end early: with an error of the code, or with the rounds it was given. -/
inductive Stop where
  | fail
  | rounds
  deriving DecidableEq

def revokeStep (info : JournalInfo) : Nat := if info.has64bit then 8 else 4

def revokedAt (info : JournalInfo) (block : Block) (offset : Nat) : Nat :=
  if info.has64bit then 2 ^ 32 * be32 block offset + be32 block (offset + 4)
  else be32 block offset

def revokeScan (info : JournalInfo) (block : Block) (count home : Nat) : Nat → Nat → Bool
  | 0, _ => false
  | n + 1, offset =>
    if offset + revokeStep info ≤ count then
      if revokedAt info block offset = home then true
      else revokeScan info block count home n (offset + revokeStep info)
    else false

/-- `journal_is_revoked` with its loop cut off after `n` rounds. -/
def journalIsRevoked (fs : Geometry) (info : JournalInfo) (rd : Nat → Option Block)
    (commit sequence home : Nat) : Nat → Nat → Except Stop Bool
  | n, cursor =>
    if cursor = commit then .ok false
    else
      match n with
      | 0 => .error .rounds
      | n + 1 =>
        match rd cursor with
        | none => .error .fail
        | some block =>
          if be32 block 0 ≠ JBD2_MAGIC || be32 block 8 ≠ sequence then .error .fail
          else if be32 block 4 = JBD2_REVOKE_BLOCK then
            let count := be32 block 12
            if count < 16 || count > fs.blockSize then .error .fail
            else if revokeScan info block count home count 16 then .ok true
            else journalIsRevoked fs info rd commit sequence home n (journalNext info cursor)
          else if be32 block 4 ≠ JBD2_DESCRIPTOR_BLOCK then .error .fail
          else
            match journalDescriptorCount fs info block with
            | none => .error .fail
            | some tags =>
              journalIsRevoked fs info rd commit sequence home n (journalSkip info (tags + 1) cursor)

/-- The disk and the writes made to it. -/
structure Io where
  disk : Disk
  writes : List (Nat × Block) := []

def Io.write (io : Io) (b : Nat) (x : Block) : Io where
  disk := Function.update io.disk b x
  writes := io.writes ++ [(b, x)]

def Tag.content (t : Tag) (data : Block) : Block :=
  if t.has JBD2_FLAG_ESCAPE then putBe32 data 0 JBD2_MAGIC else data

/-- The transaction at hand: where it begins and ends, and its number. -/
structure Span where
  start : Nat
  commit : Nat
  sequence : Nat

/-- One tag of a descriptor; the cursor moves on when the tag has data. -/
def replayTag (fs : Geometry) (inode : MapInode) (info : JournalInfo) (s : Span) (rounds : Nat)
    (io : Io) (t : Tag) (data : Nat) : Io × Except Stop Nat :=
  if t.has JBD2_FLAG_DELETED then (io, .ok data)
  else
    match journalRead fs inode io.disk data with
    | none => (io, .error .fail)
    | some block =>
      match journalIsRevoked fs info (journalRead fs inode io.disk) s.commit s.sequence t.home
          rounds s.start with
      | .error e => (io, .error e)
      | .ok true => (io, .ok (journalNext info data))
      | .ok false => (io.write t.home (t.content block), .ok (journalNext info data))

/-- The tag loop of `journal_replay_transaction`; it ends where a tag does not parse. -/
def replayTags (fs : Geometry) (inode : MapInode) (info : JournalInfo) (s : Span) (rounds : Nat)
    (metadata : Block) : Nat → Io → Nat → Nat → Io × Except Stop Nat
  | 0, io, _, _ => (io, .error .fail)
  | n + 1, io, offset, data =>
    match journalParseTag fs info metadata offset with
    | none => (io, .error .fail)
    | some (t, offset') =>
      match replayTag fs inode info s rounds io t data with
      | (io', .error e) => (io', .error e)
      | (io', .ok data') =>
        if t.has JBD2_FLAG_LAST_TAG then (io', .ok data')
        else replayTags fs inode info s rounds metadata n io' offset' data'

/-- `journal_replay_transaction` with its loop cut off after `n` rounds. -/
def journalReplayTransaction (fs : Geometry) (inode : MapInode) (info : JournalInfo) (s : Span)
    (rounds : Nat) : Nat → Io → Nat → Io × Except Stop Unit
  | n, io, cursor =>
    if cursor = s.commit then (io, .ok ())
    else
      match n with
      | 0 => (io, .error .rounds)
      | n + 1 =>
        match journalRead fs inode io.disk cursor with
        | none => (io, .error .fail)
        | some metadata =>
          if be32 metadata 0 ≠ JBD2_MAGIC || be32 metadata 8 ≠ s.sequence then (io, .error .fail)
          else if be32 metadata 4 = JBD2_REVOKE_BLOCK then
            journalReplayTransaction fs inode info s rounds n io (journalNext info cursor)
          else if be32 metadata 4 ≠ JBD2_DESCRIPTOR_BLOCK then (io, .error .fail)
          else
            match replayTags fs inode info s rounds metadata fs.blockSize io 12
                (journalNext info cursor) with
            | (io', .error e) => (io', .error e)
            | (io', .ok data) => journalReplayTransaction fs inode info s rounds n io' data

/-- The loop of `ext4_journal_replay` with `n` transactions to go. -/
def replayLoop (fs : Geometry) (inode : MapInode) (info : JournalInfo) (rounds : Nat) :
    Nat → Io → Nat → Nat → Io × Except Stop Nat
  | 0, io, _, sequence => (io, .ok sequence)
  | n + 1, io, cursor, sequence =>
    if cursor = 0 then (io, .ok sequence)
    else
      match journalFindCommit fs info (journalRead fs inode io.disk) sequence info.maxlen cursor with
      | none => (io, .ok sequence)
      | some commit =>
        match journalReplayTransaction fs inode info ⟨cursor, commit, sequence⟩ rounds rounds io
            cursor with
        | (io', .error e) => (io', .error e)
        | (io', .ok ()) =>
          if journalNext info commit = info.start then (io', .ok ((sequence + 1) % 2 ^ 32))
          else
            replayLoop fs inode info rounds n io' (journalNext info commit)
              ((sequence + 1) % 2 ^ 32)

/-- The superblock test of `ext4_journal_replay`. The features it knows are 1, 2, 8 and 16. -/
def journalInfo (fs : Geometry) (superblock : Block) : Option JournalInfo :=
  let maxlen := be32 superblock 16
  let first := be32 superblock 20
  let start := be32 superblock 28
  let incompat := be32 superblock 40
  if be32 superblock 0 ≠ JBD2_MAGIC then none
  else if be32 superblock 12 ≠ fs.blockSize then none
  else if incompat ≠ incompat &&& 27 || maxlen ≤ first || start ≥ maxlen then none
  else
    some
      { maxlen := maxlen, first := first, sequence := be32 superblock 24, start := start
        has64bit := incompat &&& JBD2_FEATURE_INCOMPAT_64BIT ≠ 0
        hasCsum := incompat &&& 24 ≠ 0 }

/-- The superblock goes back with an empty log that continues with transaction `sequence`. -/
def journalFinish (fs : Geometry) (inode : MapInode) (superblock : Block) (io : Io)
    (sequence : Nat) : Io × Except Stop Unit :=
  if ext4InodeGetBlock fs io.disk inode 0 = 0 then (io, .error .fail)
  else
    (io.write (ext4InodeGetBlock fs io.disk inode 0)
      (putBe32 (putBe32 superblock 28 0) 24 sequence), .ok ())

/-- The replay of a journal whose superblock has been accepted. -/
def journalReplayLog (fs : Geometry) (inode : MapInode) (rounds : Nat) (superblock : Block)
    (info : JournalInfo) (d : Disk) : Io × Except Stop Unit :=
  match replayLoop fs inode info rounds info.maxlen ⟨d, []⟩ info.start info.sequence with
  | (io, .error e) => (io, .error e)
  | (io, .ok sequence) => journalFinish fs inode superblock io sequence

/-- `mem`: the four buffers can be had. `rounds` bounds the loops that look for the commit block
of a transaction they are in. -/
def ext4JournalReplay (fs : Geometry) (inode : MapInode) (rounds : Nat) (mem : Bool) (d : Disk) :
    Io × Except Stop Unit :=
  if !mem then (⟨d, []⟩, .error .fail)
  else
    match journalRead fs inode d 0 with
    | none => (⟨d, []⟩, .error .fail)
    | some superblock =>
      match journalInfo fs superblock with
      | none => (⟨d, []⟩, .error .fail)
      | some info => journalReplayLog fs inode rounds superblock info d

/-! What the log holds. -/

/-- The tags of a descriptor up to its last, all of blocks of the file system. -/
def tagsFrom (fs : Geometry) (info : JournalInfo) (block : Block) : Nat → Nat → Option (List Tag)
  | 0, _ => none
  | n + 1, offset =>
    if offset < fs.blockSize then
      match journalParseTag fs info block offset with
      | none => none
      | some (t, offset') =>
        if t.home ≥ fs.totalBlocks then none
        else if t.has JBD2_FLAG_LAST_TAG then some [t]
        else (tagsFrom fs info block n offset').map (t :: ·)
    else none

def dataTags (tags : List Tag) : Nat := tags.countP fun t => !t.has JBD2_FLAG_DELETED

/-- The blocks a descriptor logs, with the contents that stand in the log from `pos` on. -/
def loggedBy (info : JournalInfo) (rd : Nat → Option Block) : List Tag → Nat → List (Nat × Block)
  | [], _ => []
  | t :: tags, pos =>
    if t.has JBD2_FLAG_DELETED then loggedBy info rd tags pos
    else
      (t.home, t.content ((rd pos).getD fun _ => 0)) ::
        loggedBy info rd tags (journalNext info pos)

def revokesFrom (info : JournalInfo) (block : Block) (count : Nat) : Nat → Nat → List Nat
  | 0, _ => []
  | n + 1, offset =>
    if offset + revokeStep info ≤ count then
      revokedAt info block offset :: revokesFrom info block count n (offset + revokeStep info)
    else []

/-- The blocks a revoke block names; none when its count is malformed. -/
def revokedBy (fs : Geometry) (info : JournalInfo) (block : Block) : List Nat :=
  if be32 block 12 < 16 || be32 block 12 > fs.blockSize then []
  else revokesFrom info block (be32 block 12) (be32 block 12) 16

def IsRecord (block : Block) (type sequence : Nat) : Prop :=
  be32 block 0 = JBD2_MAGIC ∧ be32 block 4 = type ∧ be32 block 8 = sequence

structure Txn where
  logged : List (Nat × Block) := []
  revoked : List Nat := []

section Log
variable (fs : Geometry) (info : JournalInfo) (rd : Nat → Option Block)

/-- Transaction `sequence` stands at a place of the log: its records are at the given positions,
the last of them its commit block. -/
inductive TxnAt (sequence : Nat) : Nat → List Nat → Txn → Nat → Prop
  | commit (hb : rd c = some block) (hr : IsRecord block JBD2_COMMIT_BLOCK sequence) :
      TxnAt sequence c [c] {} c
  | revoke (hb : rd c = some block) (hr : IsRecord block JBD2_REVOKE_BLOCK sequence)
      (ht : TxnAt sequence (journalNext info c) ps t e) :
      TxnAt sequence c (c :: ps) ⟨t.logged, revokedBy fs info block ++ t.revoked⟩ e
  | descriptor (hb : rd c = some block) (hr : IsRecord block JBD2_DESCRIPTOR_BLOCK sequence)
      (hd : tagsFrom fs info block fs.blockSize 12 = some tags)
      (ht : TxnAt sequence (journalSkip info (dataTags tags + 1) c) ps t e) :
      TxnAt sequence c (c :: ps)
        ⟨loggedBy info rd tags (journalNext info c) ++ t.logged, t.revoked⟩ e

/-- The maximal run of transactions with consecutive numbers. No transaction stands in block 0,
the superblock. -/
inductive LogRun : Nat → Nat → List Txn → Prop
  | stop (h : c = 0 ∨ ∀ ps t e, ¬ TxnAt fs info rd q c ps t e) : LogRun c q []
  | step (hc : c ≠ 0) (ht : TxnAt fs info rd q c ps t e)
      (hl : LogRun (journalNext info e) ((q + 1) % 2 ^ 32) ts) : LogRun c q (t :: ts)

end Log

/-- What a transaction logs for a block. -/
def Txn.content (t : Txn) (b : Nat) : Option Block := Writes.last t.logged b

/-- The content of a block in the last transaction that logs it and is not followed, from itself
on, by one that revokes it. -/
def lastLogged : List Txn → Nat → Option Block
  | [], _ => none
  | t :: ts, b =>
    (lastLogged ts b).or (if ∃ u ∈ t :: ts, b ∈ u.revoked then none else t.content b)

/-- A block of the journal file, or one of those that map it. -/
def InJournal (fs : Geometry) (inode : MapInode) (d : Disk) (b : Nat) : Prop :=
  ∃ l, b ∈ mapReads fs d inode l ∨ b ≠ 0 ∧ ext4InodeGetBlock fs d inode l = b

/-- No logged block lies inside the journal. -/
def NoneInside (fs : Geometry) (inode : MapInode) (d : Disk) (ts : List Txn) : Prop :=
  ∀ t ∈ ts, ∀ w ∈ t.logged, ¬ InJournal fs inode d w.1

/-- The log has been applied: every block outside the journal superblock is as the committed
log has it or as before, and the log is marked empty. -/
def Applied (fs : Geometry) (inode : MapInode) (ts : List Txn) (d d' : Disk) : Prop :=
  (∀ b, b ≠ ext4InodeGetBlock fs d inode 0 → d' b = (lastLogged ts b).getD (d b)) ∧
    be32 (d' (ext4InodeGetBlock fs d inode 0)) 28 = 0

/-- A block that a transaction revokes after the last transaction to log it (one that does not
revoke it itself) already has the content logged there. -/
def RevokedAreCurrent (d : Disk) (ts : List Txn) : Prop :=
  ∀ before t after b x, ts = before ++ t :: after → t.content b = some x → b ∉ t.revoked →
    (∀ u ∈ after, u.content b ≠ none → b ∈ u.revoked) → (∃ u ∈ after, b ∈ u.revoked) → d b = x

end Lebirun.Ext4
