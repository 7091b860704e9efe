import Mathlib
import Lebirun.Lib.Run
import Lebirun.Lib.Sparse
import Lebirun.Ramfs.Names

namespace Lebirun.Ramfs
open Machine
set_option autoImplicit true

namespace State

/-- The loop of `ramfs_zero_range` over a file that has only its backing; `mem` is whether `krealloc`
succeeds in the write that starts after `done` bytes. -/
def zeroChunks (s : State) (i offset total done : Nat) (mem : Nat → Bool) : Int × State :=
  if done < total then
    let chunk := min (total - done) 256
    let r := s.vfsWrite i (offset + done) (List.replicate chunk 0) (mem done)
    if r.1 ≠ chunk then (errNospc, r.2) else zeroChunks r.2 i offset total (done + chunk) mem
  else (0, s)
termination_by total - done

variable (s : State)

/-- `ramfs_zero_range`. The `memset` may run past the buffer: what it does there is not part of the
file. -/
def zeroRange (i offset length : Nat) (mem : Nat → Bool) : Int × State :=
  if length = 0 || offset + length > 18446744073709551615 then (errInval, s)
  else
    match s.entries (s.inode i) with
    | none => (errIsdir, s)
    | some e =>
      if e.kind ≠ .file then (errIsdir, s)
      else if s.kindOf i ≠ some .file && s.kindOf i ≠ some .symlink then (-95, s)
      else if e.isMemfd && e.seals &&& sealWrite ≠ 0 then (-1, s)
      else if e.length ≤ offset then (0, s)
      else
        let stop := min (offset + length) e.length
        if e.data ≠ [] then
          (0, s.modify (s.inode i) fun e => { e with
            data := (splice e.data offset (List.replicate (stop - offset) 0)).take e.capacity })
        else if offset < e.backing.length then s.zeroChunks i offset (stop - offset) 0 mem
        else (0, s)

end State

/-- The calls on an open file. -/
inductive FileOp where
  | read (i offset size : Nat)
  | write (i offset : Nat) (bytes : List UInt8) (mem : Bool)
  | truncate (i length : Nat) (mem : Bool)
  | openNode (i : Nat) (trunc : Bool)
  | zeroRange (i offset length : Nat) (mem : Nat → Bool)
  | addSeals (i : Nat) (seals : BitVec 32) (mapped : Bool)

/-- The node a call is made on. -/
def FileOp.node : FileOp → Nat
  | .read i _ _ => i
  | .write i _ _ _ => i
  | .truncate i _ _ => i
  | .openNode i _ => i
  | .zeroRange i _ _ _ => i
  | .addSeals i _ _ => i

def fileStep (s : State) : FileOp → State
  | .read _ _ _ => s
  | .write i offset bytes mem => (s.vfsWrite i offset bytes mem).2
  | .truncate i length mem => (s.vfsTruncate i length mem).2
  | .openNode i trunc => s.vfsOpen i trunc
  | .zeroRange i offset length mem => (s.zeroRange i offset length mem).2
  | .addSeals i seals mapped => (s.nodeAddSeals i seals mapped).2

def fileRun (s : State) (ops : List FileOp) : State := ops.foldl fileStep s

/-! The accesses to `node->data`. -/

/-- An access from `start` up to `stop` in a buffer of `capacity` bytes. -/
structure DataAccess where
  capacity : Nat
  start : Nat
  stop : Nat

def DataAccess.Inside (a : DataAccess) : Prop := a.start ≤ a.stop ∧ a.stop ≤ a.capacity

/-- The copy of the backing, the zeros and the copy of the bytes in a `ramfs_write_data_locked` that
goes through. -/
def Entry.writeAccesses (e : Entry) (offset n : Nat) : List DataAccess :=
  let newCap := max (offset + n) e.backed
  if e.capacity < newCap then
    [⟨newCap, 0, e.backed⟩, ⟨newCap, max e.capacity e.backed, newCap⟩, ⟨newCap, offset, offset + n⟩]
  else [⟨e.capacity, offset, offset + n⟩]

def Entry.readAccesses (e : Entry) (offset size : Nat) : List DataAccess :=
  let n := min size (e.length - offset)
  if offset < e.length ∧ offset < e.capacity then
    [⟨e.capacity, offset, offset + min n (e.capacity - offset)⟩]
  else []

/-- The `memset` of `ramfs_shrink_node_data` when `krealloc` fails. -/
def Entry.truncateAccesses (e : Entry) (length : Nat) : List DataAccess :=
  if 0 < length ∧ length < e.length ∧ length < e.capacity then [⟨e.capacity, length, e.capacity⟩]
  else []

namespace State

/-- The inode behind a node, when it is a regular file. -/
def file (s : State) (i : Nat) : Option Entry := (s.entries (s.inode i)).filter fun e => e.kind = .file

def writeAccesses (s : State) (i offset n : Nat) : List DataAccess :=
  (s.file i).elim [] fun e => e.writeAccesses offset n

def zeroChunksAccesses (s : State) (i offset total done : Nat) (mem : Nat → Bool) :
    List DataAccess :=
  if done < total then
    let chunk := min (total - done) 256
    let r := s.vfsWrite i (offset + done) (List.replicate chunk 0) (mem done)
    s.writeAccesses i (offset + done) chunk ++
      if r.1 ≠ chunk then [] else zeroChunksAccesses r.2 i offset total (done + chunk) mem
  else []
termination_by total - done

def zeroAccesses (s : State) (i offset length : Nat) (mem : Nat → Bool) : List DataAccess :=
  (s.file i).elim [] fun e =>
    let stop := min (offset + length) e.length
    if length = 0 || offset + length > 18446744073709551615 then []
    else if s.kindOf i ≠ some .file && s.kindOf i ≠ some .symlink then []
    else if e.isMemfd && e.seals &&& sealWrite ≠ 0 then []
    else if e.length ≤ offset then []
    else if e.data ≠ [] then [⟨e.capacity, offset, stop⟩]
    else if offset < e.backing.length then s.zeroChunksAccesses i offset (stop - offset) 0 mem
    else []

end State

def FileOp.accesses (s : State) : FileOp → List DataAccess
  | .read i offset size => (s.file i).elim [] fun e => e.readAccesses offset size
  | .write i offset bytes _ => s.writeAccesses i offset bytes.length
  | .truncate i length _ => (s.file i).elim [] fun e => e.truncateAccesses length
  | .openNode _ _ => []
  | .zeroRange i offset length mem => s.zeroAccesses i offset length mem
  | .addSeals _ _ _ => []

/-! What a file is: a sparse array of bytes. -/

/-- The buffer, or the backing while there is none. -/
def Entry.store (e : Entry) : List UInt8 := if e.data = [] then e.backing else e.data

def Entry.view (e : Entry) : Sparse UInt8 := Sparse.ofList e.store e.length

/-- A buffer replaces the backing, the backing ends within the file, and the buffer is zero past it. -/
structure Entry.Stored (e : Entry) : Prop where
  one : e.data ≠ [] → e.backing = []
  backed : e.backing.length ≤ e.length
  tail : ∀ k, e.length ≤ k → e.data.getD k 0 = 0

/-- A file as it is made, backed by the boot image, or with its backing copied into a buffer. -/
def Entry.Fresh (e : Entry) : Prop :=
  (e.data = [] ∧ e.length = e.backing.length) ∨ (e.backing = [] ∧ e.length = e.data.length)

/-- A range of zeros, or its first bytes when the answer is an error. -/
def Cleared (offset length : Nat) (answer : Int) (v v' : Sparse UInt8) : Prop :=
  (answer = 0 → v' = v.clear offset length) ∧ ∃ n ≤ length, v' = v.clear offset n

/-- What a call does to the array of the file it is made on, given what it answers. -/
def FileOp.Effect (s : State) (v v' : Sparse UInt8) : FileOp → Prop
  | .read i offset size => s.vfsRead i offset size = v.read offset size ∧ v' = v
  | .write i offset bytes mem =>
    v' = if (s.vfsWrite i offset bytes mem).1 = 0 then v else v.write offset bytes
  | .truncate i length mem =>
    v' = if (s.vfsTruncate i length mem).1 = 0 then v.resize length else v
  | .openNode i trunc => v' = if trunc && s.hasCallbacks i then Sparse.empty else v
  | .zeroRange i offset length mem =>
    Cleared offset length (s.zeroRange i offset length mem).1 v v'
  | .addSeals _ _ _ => v' = v

/-- What the seals of a memfd promise from one state to a later one. -/
structure Entry.Keeps (e e' : Entry) : Prop where
  seals : e.seals &&& e'.seals = e.seals
  write : e.seals &&& sealWrite ≠ 0 →
    e.length ≤ e'.length ∧ ∀ k < e.length, e'.view.cell k = e.view.cell k
  grow : e.seals &&& sealGrow ≠ 0 → e'.length ≤ e.length
  shrink : e.seals &&& sealShrink ≠ 0 → e.length ≤ e'.length

/-- One call from `s`, seen by the file at `t`. -/
structure FileOp.Seen (s : State) (op : FileOp) (t : Nat) (e e' : Entry) : Prop where
  here : (fileStep s op).entries t = some e'
  kind : e'.kind = .file
  first : e'.linkTarget = none
  memfd : e'.isMemfd = e.isMemfd
  stored : e'.Stored
  effect : t = s.inode op.node → op.Effect s e.view e'.view
  frame : t ≠ s.inode op.node → e'.view = e.view
  seals : e.isMemfd = true → e.Keeps e'

/-- The call stays inside the buffer, every file is the array of bytes it should be, and every seal
holds. -/
def FileOp.Sound (s : State) (op : FileOp) : Prop :=
  (∀ a ∈ op.accesses s, a.Inside) ∧
    ∀ t e, s.entries t = some e → e.kind = .file → e.linkTarget = none →
      ∃ e', op.Seen s t e e'

/-- Every name leads to a first name, and no file has been written yet. -/
structure State.Ready (s : State) : Prop where
  first : ∀ i, s.target (s.inode i) = none
  fresh : ∀ i e, s.entries i = some e → e.kind = .file → e.Fresh

/-- What the calls keep of that. -/
structure State.Holds (s : State) : Prop where
  first : ∀ i, s.target (s.inode i) = none
  stored : ∀ i e, s.entries i = some e → e.kind = .file → e.linkTarget = none → e.Stored

/-- The calls that keep to the buffer and to the seals: a range of zeros ends within the buffer if there
is one, a memfd sealed against writing or shrinking is not truncated by `open`, and one sealed against
writing only is not made shorter. -/
def FileOp.Careful (s : State) : FileOp → Prop
  | .read _ _ _ => True
  | .write _ _ _ _ => True
  | .truncate i length _ => ∀ e, s.file i = some e → e.isMemfd = true → e.seals &&& sealWrite ≠ 0 →
      e.seals &&& sealShrink = 0 → e.length ≤ length
  | .openNode i trunc => trunc = true → s.hasCallbacks i = true → ∀ e, s.file i = some e →
      e.isMemfd = true → e.length ≠ 0 → e.seals &&& sealWrite = 0 ∧ e.seals &&& sealShrink = 0
  | .zeroRange i offset length _ => length ≠ 0 → offset + length ≤ 18446744073709551615 →
      (s.kindOf i = some .file ∨ s.kindOf i = some .symlink) → ∀ e, s.file i = some e →
      ¬ (e.isMemfd = true ∧ e.seals &&& sealWrite ≠ 0) → e.data ≠ [] → offset < e.length →
      min (offset + length) e.length ≤ e.capacity
  | .addSeals _ _ _ => True

/-! The buffer after a copy, a growth or a shrink, byte by byte. -/

theorem splice_length (h : offset + bytes.length ≤ data.length) :
    (splice data offset bytes).length = data.length := by
  simp only [splice, List.length_append, List.length_take, List.length_drop]
  omega

theorem splice_getD (h : offset + bytes.length ≤ data.length) (k : Nat) :
    (splice data offset bytes).getD k 0 =
      if offset ≤ k ∧ k < offset + bytes.length then bytes.getD (k - offset) 0
      else data.getD k 0 := by
  have htake : (data.take offset).length = offset := by
    rw [List.length_take]
    omega
  simp only [splice, List.getD_eq_getElem?_getD, List.append_assoc]
  by_cases h₁ : k < offset
  · rw [if_neg (by omega), List.getElem?_append_left (by omega), List.getElem?_take_of_lt h₁]
  · rw [List.getElem?_append_right (by omega), htake]
    by_cases h₂ : k < offset + bytes.length
    · rw [if_pos (by omega), List.getElem?_append_left (by omega)]
    · rw [if_neg (by omega), List.getElem?_append_right (by omega), List.getElem?_drop]
      congr 2
      omega

theorem append_zeros_getD (l : List UInt8) (n k : Nat) :
    (l ++ List.replicate n 0).getD k 0 = l.getD k 0 := by
  simp only [List.getD_eq_getElem?_getD]
  by_cases h : k < l.length
  · rw [List.getElem?_append_left h]
  · have hnone : l[k]? = none := List.getElem?_eq_none (Nat.not_lt.mp h)
    rw [List.getElem?_append_right (Nat.not_lt.mp h), hnone, List.getElem?_replicate]
    split <;> rfl

theorem take_getD (l : List UInt8) (n k : Nat) :
    (l.take n).getD k 0 = if k < n then l.getD k 0 else 0 := by
  simp only [List.getD_eq_getElem?_getD, List.getElem?_take]
  split <;> rfl

section Views

variable {e : Entry}

theorem Entry.Stored.hole (h : e.Stored) (hk : e.length ≤ k) : e.store.getD k 0 = 0 := by
  rw [Entry.store]
  split
  · exact List.getD_eq_default _ _ (Nat.le_trans h.backed hk)
  · exact h.tail k hk

theorem Entry.Stored.cell (h : e.Stored) (k : Nat) : e.view.cell k = e.store.getD k 0 := by
  change (if k < e.length then e.store.getD k 0 else 0) = e.store.getD k 0
  split
  · rfl
  · rename_i hk
    exact (h.hole (Nat.not_lt.mp hk)).symm

theorem Entry.Stored.backed_eq (h : e.Stored) :
    e.backed = if e.data = [] then e.backing.length else 0 := by
  rw [Entry.backed, Nat.min_eq_left h.backed]

theorem Entry.Stored.grown_getD (h : e.Stored) (n k : Nat) :
    (e.grown n).getD k 0 = e.store.getD k 0 := by
  rw [Entry.grown, append_zeros_getD, Entry.store]
  split
  · rename_i hd
    rw [h.backed_eq, if_pos hd, List.take_length]
  · rfl

theorem Entry.grown_length (hc : e.capacity ≤ n) (hb : e.backed ≤ n) : (e.grown n).length = n := by
  rw [Entry.grown]
  simp only [List.length_append, List.length_replicate]
  split
  · rw [List.length_take]
    omega
  · change e.data.length ≤ n at hc
    omega

theorem Entry.Fresh.stored (h : e.Fresh) : e.Stored := by
  rcases h with ⟨hd, hl⟩ | ⟨hb, hl⟩
  · refine ⟨fun hne => absurd hd hne, Nat.le_of_eq hl.symm, ?_⟩
    intro k _
    rw [hd]
    rfl
  · refine ⟨fun _ => hb, ?_, ?_⟩
    · rw [hb]
      exact Nat.zero_le _
    · intro k hk
      exact List.getD_eq_default _ _ (hl ▸ hk)

/-- A file with another buffer, backing and length. -/
def Entry.refill (e : Entry) (data backing : List UInt8) (length : Nat) : Entry :=
  { e with data := data, backing := backing, length := length }

/-- The write that needs a larger buffer. -/
theorem Entry.Stored.grow (h : e.Stored) (hn : offset + bytes.length ≤ n) (hb : e.backed ≤ n)
    (hc : e.capacity < n) :
    (e.refill (splice (e.grown n) offset bytes) [] (max e.length (offset + bytes.length))).Stored ∧
      (e.refill (splice (e.grown n) offset bytes) [] (max e.length (offset + bytes.length))).view =
        e.view.write offset bytes := by
  have hlen := Entry.grown_length (Nat.le_of_lt hc) hb
  have hroom : offset + bytes.length ≤ (e.grown n).length := by omega
  have hstored : (e.refill (splice (e.grown n) offset bytes) []
      (max e.length (offset + bytes.length))).Stored := by
    refine ⟨fun _ => rfl, Nat.zero_le _, ?_⟩
    intro k hk
    change max e.length (offset + bytes.length) ≤ k at hk
    change (splice (e.grown n) offset bytes).getD k 0 = 0
    rw [splice_getD hroom, if_neg (by omega), h.grown_getD]
    exact h.hole (by omega)
  refine ⟨hstored, ?_⟩
  apply Sparse.ext
  · rfl
  · funext k
    have hne : splice (e.grown n) offset bytes ≠ [] := by
      apply List.ne_nil_of_length_pos
      rw [splice_length hroom]
      omega
    rw [hstored.cell]
    change (if splice (e.grown n) offset bytes = [] then _ else
      splice (e.grown n) offset bytes).getD k 0 = _
    rw [if_neg hne, splice_getD hroom, h.grown_getD, ← h.cell]
    rfl

/-- The write that fits the buffer. -/
theorem Entry.Stored.overwrite (h : e.Stored) (hn : offset + bytes.length ≤ e.capacity)
    (hd : e.data ≠ []) :
    (e.refill (splice e.data offset bytes) e.backing (max e.length (offset + bytes.length))).Stored ∧
      (e.refill (splice e.data offset bytes) e.backing (max e.length (offset + bytes.length))).view =
        e.view.write offset bytes := by
  have hstore : e.store = e.data := if_neg hd
  have hstored : (e.refill (splice e.data offset bytes) e.backing
      (max e.length (offset + bytes.length))).Stored := by
    refine ⟨fun _ => h.one hd, ?_, ?_⟩
    · exact Nat.le_trans h.backed (Nat.le_max_left _ _)
    · intro k hk
      change max e.length (offset + bytes.length) ≤ k at hk
      change (splice e.data offset bytes).getD k 0 = 0
      rw [splice_getD hn, if_neg (by omega)]
      exact h.tail k (by omega)
  refine ⟨hstored, ?_⟩
  apply Sparse.ext
  · rfl
  · funext k
    have hne : splice e.data offset bytes ≠ [] := by
      apply List.ne_nil_of_length_pos
      rw [splice_length hn]
      exact List.length_pos_of_ne_nil hd
    rw [hstored.cell]
    change (if splice e.data offset bytes = [] then _ else
      splice e.data offset bytes).getD k 0 = _
    rw [if_neg hne, splice_getD hn, ← hstore, ← h.cell]
    rfl

theorem Entry.shrunk_getD (hn : 0 < n) (k : Nat) :
    (e.shrunk n mem).getD k 0 = if k < n then e.data.getD k 0 else 0 := by
  rw [Entry.shrunk]
  split
  · rename_i hkeep
    have hle : e.data.length ≤ n := by
      simp only [Bool.or_eq_true, decide_eq_true_eq] at hkeep
      rcases hkeep with (hnil | h0) | hcap
      · simp [hnil]
      · omega
      · exact hcap
    split
    · rfl
    · exact List.getD_eq_default _ _ (by omega)
  · split
    · exact take_getD e.data n k
    · rw [append_zeros_getD, take_getD]

theorem Entry.shrunk_eq_nil (hn : 0 < n) : e.shrunk n mem = [] ↔ e.data = [] := by
  rw [Entry.shrunk]
  split
  · rfl
  · split
    · rw [List.take_eq_nil_iff]
      exact or_iff_right (by omega)
    · rw [List.append_eq_nil_iff, List.take_eq_nil_iff]
      constructor
      · intro h
        exact h.1.resolve_left (by omega)
      · intro h
        refine ⟨Or.inr h, ?_⟩
        rw [Entry.capacity, h, List.length_nil, Nat.zero_sub, List.replicate_zero]

/-- A file made shorter. -/
theorem Entry.Stored.cut (h : e.Stored) (hn : 0 < n) (mem : Bool) :
    (e.refill (e.shrunk n mem) (e.backing.take n) n).Stored ∧
      (e.refill (e.shrunk n mem) (e.backing.take n) n).view = e.view.resize n := by
  have hstored : (e.refill (e.shrunk n mem) (e.backing.take n) n).Stored := by
    refine ⟨?_, ?_, ?_⟩
    · intro hne
      change e.backing.take n = []
      rw [h.one ((Entry.shrunk_eq_nil hn).not.mp hne), List.take_nil]
    · change (e.backing.take n).length ≤ n
      rw [List.length_take]
      exact Nat.min_le_left _ _
    · intro k hk
      change n ≤ k at hk
      change (e.shrunk n mem).getD k 0 = 0
      rw [Entry.shrunk_getD hn, if_neg (by omega)]
  refine ⟨hstored, ?_⟩
  apply Sparse.ext
  · rfl
  · funext k
    rw [hstored.cell]
    change (if e.shrunk n mem = [] then e.backing.take n else e.shrunk n mem).getD k 0 =
      if k < n then e.view.cell k else 0
    rw [h.cell, Entry.store]
    by_cases hd : e.data = []
    · rw [if_pos ((Entry.shrunk_eq_nil hn).mpr hd), if_pos hd, take_getD]
    · rw [if_neg ((Entry.shrunk_eq_nil hn).not.mpr hd), if_neg hd, Entry.shrunk_getD hn]

/-- A file made longer. -/
theorem Entry.Stored.lengthen (h : e.Stored) (hn : e.length ≤ n) :
    ({ e with length := max e.length n } : Entry).Stored ∧
      ({ e with length := max e.length n } : Entry).view = e.view.resize n := by
  have hmax : max e.length n = n := Nat.max_eq_right hn
  rw [hmax]
  have hstored : ({ e with length := n } : Entry).Stored := by
    refine ⟨h.one, Nat.le_trans h.backed hn, ?_⟩
    intro k hk
    exact h.tail k (Nat.le_trans hn hk)
  refine ⟨hstored, ?_⟩
  apply Sparse.ext
  · rfl
  · funext k
    change (if k < n then e.store.getD k 0 else 0) = if k < n then e.view.cell k else 0
    rw [h.cell]

theorem Entry.stored_empty (e : Entry) : (e.refill [] [] 0).Stored :=
  ⟨fun h => absurd rfl h, Nat.zero_le _, fun _ _ => rfl⟩

theorem Entry.view_empty (e : Entry) : (e.refill [] [] 0).view = Sparse.empty :=
  Sparse.ofList_zero []

/-- A range of the buffer set to zero. -/
theorem Entry.Stored.zeroed (h : e.Stored) (hd : e.data ≠ []) (hle : start ≤ stop)
    (hcap : stop ≤ e.capacity) :
    (e.refill ((splice e.data start (List.replicate (stop - start) 0)).take e.capacity)
        e.backing e.length).Stored ∧
      (e.refill ((splice e.data start (List.replicate (stop - start) 0)).take e.capacity)
        e.backing e.length).view = e.view.clear start (stop - start) := by
  have hroom : start + (List.replicate (stop - start) (0 : UInt8)).length ≤ e.data.length := by
    rw [List.length_replicate]
    change stop ≤ e.data.length at hcap
    omega
  have hlen := splice_length hroom
  have htake : (splice e.data start (List.replicate (stop - start) 0)).take e.capacity =
      splice e.data start (List.replicate (stop - start) 0) :=
    List.take_of_length_le (Nat.le_of_eq hlen)
  have hcell : ∀ k, (splice e.data start (List.replicate (stop - start) 0)).getD k 0 =
      if start ≤ k ∧ k < start + (stop - start) then 0 else e.data.getD k 0 := by
    intro k
    rw [splice_getD hroom, List.length_replicate]
    split
    · rw [List.getD_eq_getElem?_getD, List.getElem?_replicate]
      split <;> rfl
    · rfl
  have hstored : (e.refill (splice e.data start (List.replicate (stop - start) 0))
      e.backing e.length).Stored := by
    refine ⟨fun _ => h.one hd, h.backed, ?_⟩
    intro k hk
    change (splice e.data start (List.replicate (stop - start) 0)).getD k 0 = 0
    rw [hcell, h.tail k hk, ite_self]
  rw [htake]
  refine ⟨hstored, ?_⟩
  apply Sparse.ext
  · rfl
  · funext k
    have hne : splice e.data start (List.replicate (stop - start) 0) ≠ [] := by
      apply List.ne_nil_of_length_pos
      rw [hlen]
      exact List.length_pos_of_ne_nil hd
    have hstore : e.store = e.data := if_neg hd
    rw [hstored.cell]
    change (if splice e.data start (List.replicate (stop - start) 0) = [] then _ else
      splice e.data start (List.replicate (stop - start) 0)).getD k 0 = _
    rw [if_neg hne, hcell, ← hstore, ← h.cell]
    rfl

end Views

/-! One call changes the file it is made on, and keeps every other. -/

/-- What a file is made of. -/
def Entry.content (e : Entry) : Kind × List UInt8 × List UInt8 × Nat × Bool × BitVec 32 :=
  (e.kind, e.data, e.backing, e.length, e.isMemfd, e.seals)

/-- From `e` to `e'` at `t`, and nothing elsewhere. -/
structure Changes (s s' : State) (t : Nat) (e e' : Entry) : Prop where
  here : s'.entries t = some e'
  others : ∀ j, j ≠ t → (s'.entries j).map Entry.content = (s.entries j).map Entry.content
  kind : e'.kind = e.kind
  memfd : e'.isMemfd = e.isMemfd

section Changes

variable {s s' s'' : State}

theorem Changes.same (he : s.entries t = some e) : Changes s s t e e :=
  ⟨he, fun _ _ => rfl, rfl, rfl⟩

theorem Changes.trans (h : Changes s s' t e e') (h' : Changes s' s'' t e' e'') :
    Changes s s'' t e e'' :=
  ⟨h'.here, fun j hj => (h'.others j hj).trans (h.others j hj), h'.kind.trans h.kind,
    h'.memfd.trans h.memfd⟩

/-- An entry rewritten in a state with the same entries. -/
theorem Changes.modify (he : s.entries t = some e) (hs : s'.entries = s.entries) {f : Entry → Entry}
    (hk : (f e).kind = e.kind) (hm : (f e).isMemfd = e.isMemfd) :
    Changes s (s'.modify t f) t e (f e) := by
  refine ⟨?_, ?_, hk, hm⟩
  · rw [State.modify_entries, if_pos rfl, hs, he]
    rfl
  · intro j hj
    rw [State.modify_entries, if_neg hj, hs]

theorem writeDataLocked_changes (he : s.entries t = some e) (h : e.Stored) (hne : bytes ≠ [])
    (offset : Nat) (mem : Bool) :
    ∃ e', Changes s (s.writeDataLocked t e offset bytes mem).2 t e e' ∧ e'.Stored ∧
      e'.seals = e.seals ∧
      ((s.writeDataLocked t e offset bytes mem).1 = 0 → e'.view = e.view.write offset bytes ∧
        (e.isMemfd = true → e.seals &&& sealWrite = 0 ∧
          (e.seals &&& sealGrow ≠ 0 → offset + bytes.length ≤ e.length))) ∧
      ((s.writeDataLocked t e offset bytes mem).1 ≠ 0 → e' = e) := by
  have hpos := List.length_pos_of_ne_nil hne
  rw [State.writeDataLocked]
  dsimp only
  split
  · exact ⟨e, .same he, h, rfl, fun h0 => absurd h0 (show errPerm ≠ 0 by decide), fun _ => rfl⟩
  · rename_i hseal
    have hfree : e.isMemfd = true → e.seals &&& sealWrite = 0 ∧
        (e.seals &&& sealGrow ≠ 0 → offset + bytes.length ≤ e.length) := by
      intro hm
      simp only [hm, Bool.true_and, Bool.or_eq_true, Bool.and_eq_true, decide_eq_true_eq, not_or,
        not_and, not_not] at hseal
      refine ⟨hseal.1, ?_⟩
      intro hg
      by_contra hgt
      exact hg (hseal.2 (Nat.not_le.mp hgt))
    split
    · rename_i hcap
      split
      · exact ⟨e, .same he, h, rfl, fun h0 => absurd h0 (show errNospc ≠ 0 by decide), fun _ => rfl⟩
      · split
        · exact ⟨e, .same he, h, rfl, fun h0 => absurd h0 (show errNomem ≠ 0 by decide), fun _ => rfl⟩
        · obtain ⟨hstored, hview⟩ := h.grow (Nat.le_max_left (offset + bytes.length) e.backed)
            (Nat.le_max_right _ _) hcap
          exact ⟨_, .modify he sameEntries_charge.entries rfl rfl, hstored, rfl,
            fun _ => ⟨hview, hfree⟩, fun h0 => absurd rfl h0⟩
    · rename_i hcap
      have hroom : offset + bytes.length ≤ e.capacity :=
        Nat.le_trans (Nat.le_max_left _ _) (Nat.not_lt.mp hcap)
      have hd : e.data ≠ [] := by
        apply List.ne_nil_of_length_pos
        change offset + bytes.length ≤ e.data.length at hroom
        omega
      obtain ⟨hstored, hview⟩ := h.overwrite hroom hd
      exact ⟨_, .modify he rfl rfl rfl, hstored, rfl, fun _ => ⟨hview, hfree⟩,
        fun h0 => absurd rfl h0⟩

theorem file_some (hf : s.file i = some e) :
    s.entries (s.inode i) = some e ∧ e.kind = .file := by
  obtain ⟨he, hk⟩ := Option.filter_eq_some_iff.mp hf
  exact ⟨he, by simpa using hk⟩

theorem vfsWrite_changes (hf : s.file i = some e) (h : e.Stored) (offset : Nat)
    (bytes : List UInt8) (mem : Bool) :
    ∃ e', Changes s (s.vfsWrite i offset bytes mem).2 (s.inode i) e e' ∧ e'.Stored ∧
      e'.seals = e.seals ∧
      ((s.vfsWrite i offset bytes mem).1 ≠ 0 → (s.vfsWrite i offset bytes mem).1 = bytes.length ∧
        e'.view = e.view.write offset bytes ∧
        (e.isMemfd = true → e.seals &&& sealWrite = 0 ∧
          (e.seals &&& sealGrow ≠ 0 → offset + bytes.length ≤ e.length))) ∧
      ((s.vfsWrite i offset bytes mem).1 = 0 → e' = e) := by
  obtain ⟨he, hk⟩ := file_some hf
  rw [State.vfsWrite]
  split
  · exact ⟨e, .same he, h, rfl, fun h0 => absurd rfl h0, fun _ => rfl⟩
  · rename_i hguard
    have hne : bytes ≠ [] := by
      intro hnil
      exact hguard (by simp [hnil])
    rw [he]
    dsimp only
    rw [if_neg (by simp [hk])]
    obtain ⟨e', hch, hst, hseals, hok, hbad⟩ :=
      writeDataLocked_changes he h hne offset mem
    refine ⟨e', hch, hst, hseals, ?_, ?_⟩
    · dsimp only
      split
      · rename_i h0
        exact fun _ => ⟨rfl, hok h0⟩
      · exact fun h0 => absurd rfl h0
    · dsimp only
      split
      · intro hlen
        exact absurd (List.length_eq_zero_iff.mp hlen) hne
      · rename_i h0
        exact fun _ => hbad h0

theorem Changes.file (h : Changes s s' (s.inode i) e e') (hl : SameLinks s s') (hf : s.file i = some e) :
    s'.file i = some e' := by
  have hk := (file_some hf).2
  rw [State.file, hl.inode i, h.here]
  simp [h.kind, hk]

/-- Every chunk is a write within the length, so what was reached is zero and the rest is as before. -/
theorem zeroChunks_changes (hf : s.file i = some e) (h : e.Stored) (hin : offset + total ≤ e.length)
    (hd : done ≤ total) (mem : Nat → Bool) :
    ∃ e' n, Changes s (s.zeroChunks i offset total done mem).2 (s.inode i) e e' ∧ e'.Stored ∧
      e'.seals = e.seals ∧ n ≤ total - done ∧ e'.view = e.view.clear (offset + done) n ∧
      ((s.zeroChunks i offset total done mem).1 = 0 → n = total - done) := by
  fun_induction State.zeroChunks s i offset total done mem generalizing e with
  | case1 s done hlt chunk r =>
    rename_i hfail
    obtain ⟨e', hch, hst, hseals, hok, hbad⟩ := vfsWrite_changes hf h (offset + done)
      (List.replicate chunk 0) (mem done)
    have h0 : r.1 = 0 := by
      by_contra h0
      exact hfail ((hok h0).1.trans List.length_replicate)
    refine ⟨e', 0, hch, hst, hseals, Nat.zero_le _, ?_,
      fun h0 => absurd h0 (show errNospc ≠ 0 by decide)⟩
    rw [hbad h0, Sparse.clear_zero]
  | case2 s done hlt chunk r hmore =>
    rename_i ih
    obtain ⟨e', hch, hst, hseals, hok, -⟩ := vfsWrite_changes hf h (offset + done)
      (List.replicate chunk 0) (mem done)
    have hchunk : 0 < chunk ∧ done + chunk ≤ total := by
      change 0 < min (total - done) 256 ∧ done + min (total - done) 256 ≤ total
      omega
    have h0 : r.1 ≠ 0 := by
      intro h0
      exact hmore (by omega)
    have hsame := (vfsWrite_sameNodes (s := s) i (offset + done) (List.replicate chunk 0)
      (mem done)).sameLinks
    have hview : e'.view = e.view.clear (offset + done) chunk := by
      rw [(hok h0).2.1]
      apply Sparse.write_zeros
      change offset + done + chunk ≤ e.length
      omega
    have hlen : e'.length = e.length := congrArg Sparse.length hview
    obtain ⟨e'', n, hch', hst', hseals', hn, hview', hall⟩ :=
      ih (hch.file hsame hf) hst (by omega) hchunk.2
    rw [hsame.inode i] at hch'
    refine ⟨e'', chunk + n, hch.trans hch', hst', hseals'.trans hseals, by omega, ?_, ?_⟩
    · rw [hview', hview, ← Nat.add_assoc, Sparse.clear_clear]
    · intro hzero
      have := hall hzero
      omega
  | case3 s done hge =>
    refine ⟨e, 0, .same (file_some hf).1, h, rfl, Nat.zero_le _, ?_, fun _ => by omega⟩
    rw [Sparse.clear_zero]

theorem zeroChunks_effect (hf : s.file i = some e) (h : e.Stored) (hoff : offset < e.length)
    (length : Nat) (mem : Nat → Bool) :
    ∃ e', Changes s (s.zeroChunks i offset (min (offset + length) e.length - offset) 0 mem).2
        (s.inode i) e e' ∧ e'.Stored ∧ e'.seals = e.seals ∧
      Cleared offset length
        (s.zeroChunks i offset (min (offset + length) e.length - offset) 0 mem).1 e.view e'.view := by
  have hin : offset + (min (offset + length) e.length - offset) ≤ e.length := by omega
  obtain ⟨e', n, hch, hst, hseals, hn, hview, hall⟩ :=
    zeroChunks_changes hf h hin (Nat.zero_le _) mem
  refine ⟨e', hch, hst, hseals, ?_, n, by omega, hview⟩
  intro hok
  rw [hview, hall hok]
  exact e.view.clear_min offset length

theorem Cleared.same (h : ∀ k, offset ≤ k → v.cell k = 0) (answer : Int) :
    Cleared offset length answer v v :=
  ⟨fun _ => (v.clear_holes h length).symm, 0, Nat.zero_le _, (v.clear_zero offset).symm⟩

theorem Cleared.refused (h : answer ≠ 0) : Cleared offset length answer v v :=
  ⟨fun h0 => absurd h0 h, 0, Nat.zero_le _, (v.clear_zero offset).symm⟩

theorem file_or_symlink
    (h : ¬ (decide (s.kindOf i ≠ some .file) && decide (s.kindOf i ≠ some .symlink)) = true) :
    s.kindOf i = some .file ∨ s.kindOf i = some .symlink := by
  by_contra hnot
  rw [not_or] at hnot
  exact h (by simp [hnot.1, hnot.2])

theorem not_write_sealed {e : Entry}
    (h : ¬ (e.isMemfd && decide (e.seals &&& sealWrite ≠ 0)) = true) :
    ¬ (e.isMemfd = true ∧ e.seals &&& sealWrite ≠ 0) := by
  rwa [Bool.and_eq_true, decide_eq_true_eq] at h

theorem zeroRange_changes (hf : s.file i = some e) (h : e.Stored)
    (hc : (FileOp.zeroRange i offset length mem).Careful s) :
    ∃ e', Changes s (s.zeroRange i offset length mem).2 (s.inode i) e e' ∧ e'.Stored ∧
      e'.seals = e.seals ∧ Cleared offset length (s.zeroRange i offset length mem).1 e.view e'.view ∧
      (e.isMemfd = true → e.seals &&& sealWrite ≠ 0 → e' = e) := by
  obtain ⟨he, hk⟩ := file_some hf
  have hrefused : ∀ r : Int, r ≠ 0 → ∃ e', Changes s s (s.inode i) e e' ∧ e'.Stored ∧
      e'.seals = e.seals ∧ Cleared offset length r e.view e'.view ∧
      (e.isMemfd = true → e.seals &&& sealWrite ≠ 0 → e' = e) :=
    fun r hr => ⟨e, .same he, h, rfl, .refused hr, fun _ _ => rfl⟩
  rw [State.zeroRange]
  split
  · exact hrefused errInval (by decide)
  · rename_i hguard
    simp only [Bool.or_eq_true, decide_eq_true_eq, not_or] at hguard
    rw [he]
    dsimp only
    rw [if_neg (by simp [hk])]
    split
    · exact hrefused (-95) (by decide)
    · rename_i hnode
      split
      · exact hrefused (-1) (by decide)
      · rename_i hseal
        have hfree := not_write_sealed hseal
        have hnever : e.isMemfd = true → e.seals &&& sealWrite ≠ 0 → ∀ e' : Entry, e' = e :=
          fun hm hw => absurd ⟨hm, hw⟩ hfree
        split
        · rename_i hpast
          refine ⟨e, .same he, h, rfl, .same ?_ _, fun _ _ => rfl⟩
          intro k hk
          exact e.view.hole k (Nat.le_trans hpast hk)
        · rename_i hoff
          have hoff := Nat.not_le.mp hoff
          split
          · rename_i hd
            have hcap := hc hguard.1 (Nat.not_lt.mp hguard.2) (file_or_symlink hnode) e hf hfree
              hd hoff
            obtain ⟨hst, hview⟩ := h.zeroed hd (Nat.le_min.mpr ⟨Nat.le_add_right offset length,
              Nat.le_of_lt hoff⟩) hcap
            refine ⟨_, .modify he rfl rfl rfl, hst, rfl, ⟨?_, ?_⟩, fun hm hw => hnever hm hw _⟩
            · intro _
              exact hview.trans (e.view.clear_min offset length)
            · exact ⟨_, by omega, hview⟩
          · rename_i hd
            split
            · obtain ⟨e', hch, hst, hseals, heffect⟩ :=
                zeroChunks_effect hf h hoff length mem
              exact ⟨e', hch, hst, hseals, heffect, fun hm hw => hnever hm hw _⟩
            · rename_i hback
              refine ⟨e, .same he, h, rfl, .same ?_ _, fun _ _ => rfl⟩
              intro k hk
              rw [h.cell, Entry.store, if_pos (not_not.mp hd)]
              exact List.getD_eq_default _ _ (by omega)

theorem dropData_changes (he : s.entries t = some e) :
    Changes s (s.dropData t) t e (e.refill [] [] 0) := by
  rw [State.dropData, he]
  dsimp only
  split
  · exact .modify he rfl rfl rfl
  · exact .modify he sameEntries_refund.entries rfl rfl

theorem vfsTruncate_changes (hf : s.file i = some e) (h : e.Stored) (length : Nat) (mem : Bool) :
    ∃ e', Changes s (s.vfsTruncate i length mem).2 (s.inode i) e e' ∧ e'.Stored ∧
      e'.seals = e.seals ∧
      ((s.vfsTruncate i length mem).1 = 0 → e'.view = e.view.resize length ∧
        (e.isMemfd = true → (e.seals &&& sealShrink ≠ 0 → e.length ≤ length) ∧
          (e.seals &&& sealGrow ≠ 0 → length ≤ e.length))) ∧
      ((s.vfsTruncate i length mem).1 ≠ 0 → e' = e) := by
  obtain ⟨he, hk⟩ := file_some hf
  rw [State.vfsTruncate, he]
  dsimp only
  rw [if_neg (by simp [hk])]
  split
  · exact ⟨e, .same he, h, rfl, fun h0 => absurd h0 (show (-1 : Int) ≠ 0 by decide), fun _ => rfl⟩
  · rename_i hshrink
    split
    · exact ⟨e, .same he, h, rfl, fun h0 => absurd h0 (show (-1 : Int) ≠ 0 by decide),
        fun _ => rfl⟩
    · rename_i hgrow
      have hfree : e.isMemfd = true → (e.seals &&& sealShrink ≠ 0 → e.length ≤ length) ∧
          (e.seals &&& sealGrow ≠ 0 → length ≤ e.length) := by
        intro hm
        simp only [hm, Bool.true_and, Bool.and_eq_true, decide_eq_true_eq, not_and, not_not]
          at hshrink hgrow
        constructor
        · intro hsealed
          by_contra hlt
          exact hsealed (hshrink (Nat.not_le.mp hlt))
        · intro hsealed
          by_contra hlt
          exact hsealed (hgrow (Nat.not_le.mp hlt))
      split
      · rename_i hzero
        subst hzero
        refine ⟨_, dropData_changes he, e.stored_empty, rfl, ?_, fun h0 => absurd rfl h0⟩
        intro _
        rw [e.view_empty, Sparse.resize_zero]
        exact ⟨rfl, hfree⟩
      · rename_i hpos
        split
        · obtain ⟨hst, hview⟩ := h.cut (Nat.pos_of_ne_zero hpos) mem
          exact ⟨_, .modify he sameEntries_refund.entries rfl rfl, hst, rfl,
            fun _ => ⟨hview, hfree⟩, fun h0 => absurd rfl h0⟩
        · rename_i hge
          obtain ⟨hst, hview⟩ := h.lengthen (Nat.not_lt.mp hge)
          exact ⟨_, .modify he rfl rfl rfl, hst, rfl, fun _ => ⟨hview, hfree⟩,
            fun h0 => absurd rfl h0⟩

/-! Opening a node counts a reference, which is no part of the file. -/

theorem content_some (h : (x : Option Entry).map Entry.content = some c) :
    ∃ e', x = some e' ∧ e'.content = c :=
  Option.map_eq_some_iff.mp h

theorem Entry.view_congr {e e' : Entry} (h : e'.content = e.content) : e'.view = e.view := by
  simp only [Entry.content, Prod.mk.injEq] at h
  obtain ⟨-, hdata, hback, hlen, -, -⟩ := h
  rw [Entry.view, Entry.view, Entry.store, Entry.store, hdata, hback, hlen]

theorem Entry.Stored.congr {e e' : Entry} (hs : e.Stored) (h : e'.content = e.content) :
    e'.Stored := by
  simp only [Entry.content, Prod.mk.injEq] at h
  obtain ⟨-, hdata, hback, hlen, -, -⟩ := h
  constructor
  · rw [hdata, hback]
    exact hs.one
  · rw [hback, hlen]
    exact hs.backed
  · rw [hdata, hlen]
    exact hs.tail

theorem addRef_content (i j : Nat) :
    ((s.addRef i).entries j).map Entry.content = (s.entries j).map Entry.content := by
  change ((s.modify i _).entries j).map Entry.content = _
  rw [State.modify_entries]
  split
  · rename_i hj
    subst hj
    cases s.entries j <;> rfl
  · rfl

theorem addRef_changes (he : s.entries t = some e) :
    ∃ e₁, Changes s (s.addRef i) t e e₁ ∧ e₁.content = e.content := by
  have hmap := addRef_content (s := s) i t
  rw [he] at hmap
  obtain ⟨e₁, he₁, hc⟩ := content_some hmap
  have hparts := hc
  simp only [Entry.content, Prod.mk.injEq] at hparts
  exact ⟨e₁, ⟨he₁, fun j _ => addRef_content i j, hparts.1, hparts.2.2.2.2.1⟩, hc⟩

theorem vfsOpen_changes (hf : s.file i = some e) (h : e.Stored) (trunc : Bool) :
    ∃ e', Changes s (s.vfsOpen i trunc) (s.inode i) e e' ∧ e'.Stored ∧ e'.seals = e.seals ∧
      (FileOp.openNode i trunc).Effect s e.view e'.view := by
  obtain ⟨he, hk⟩ := file_some hf
  have hlinks := addRef_sameLinks (s := s) i
  obtain ⟨e₁, hch, hc⟩ := addRef_changes (i := i) he
  have hparts := hc
  simp only [Entry.content, Prod.mk.injEq] at hparts
  obtain ⟨-, -, -, -, -, hseals⟩ := hparts
  have hback : (s.addRef i).hasCallbacks i = s.hasCallbacks i := by
    rw [State.hasCallbacks, State.hasCallbacks, hlinks.kindOf]
  have hkind : (s.addRef i).kindOf ((s.addRef i).inode i) = some .file := by
    rw [hlinks.inode, State.kindOf, hch.here, Option.map_some, hch.kind, hk]
  have hopen : s.vfsOpen i trunc =
      if trunc && s.hasCallbacks i then (s.addRef i).dropData (s.inode i) else s.addRef i := by
    have hdef : s.vfsOpen i trunc =
        if trunc && (s.addRef i).hasCallbacks i &&
          decide ((s.addRef i).kindOf ((s.addRef i).inode i) = some .file) then
            (s.addRef i).dropData ((s.addRef i).inode i) else s.addRef i := rfl
    rw [hdef, hback, hkind, hlinks.inode]
    simp
  rw [hopen]
  simp only [FileOp.Effect]
  split
  · exact ⟨_, hch.trans (dropData_changes hch.here), e₁.stored_empty, hseals, e₁.view_empty⟩
  · exact ⟨e₁, hch, h.congr hc, hseals, Entry.view_congr hc⟩

/-! The accesses of a careful call are inside the buffer. -/

theorem Entry.writeAccesses_inside (e : Entry) (offset n : Nat) :
    ∀ a ∈ e.writeAccesses offset n, a.Inside := by
  rw [Entry.writeAccesses]
  split
  · rename_i hcap
    simp only [List.forall_mem_cons]
    refine ⟨⟨Nat.zero_le _, Nat.le_max_right _ _⟩, ⟨?_, Nat.le_refl _⟩, ⟨by simp, ?_⟩, nofun⟩
    · exact Nat.max_le.mpr ⟨Nat.le_of_lt hcap, Nat.le_max_right _ _⟩
    · exact Nat.le_max_left _ _
  · rename_i hcap
    intro a ha
    rw [List.mem_singleton.mp ha]
    exact ⟨Nat.le_add_right _ _, Nat.le_trans (Nat.le_max_left _ _) (Nat.not_lt.mp hcap)⟩

theorem writeAccesses_inside (s : State) (i offset n : Nat) :
    ∀ a ∈ s.writeAccesses i offset n, a.Inside := by
  rw [State.writeAccesses]
  cases s.file i with
  | none => exact nofun
  | some e => exact e.writeAccesses_inside offset n

theorem zeroChunksAccesses_inside (s : State) (i offset total done : Nat) (mem : Nat → Bool) :
    ∀ a ∈ s.zeroChunksAccesses i offset total done mem, a.Inside := by
  fun_induction State.zeroChunksAccesses s i offset total done mem with
  | case1 s done hlt chunk r =>
    rename_i ih
    intro a ha
    rcases List.mem_append.mp ha with ha | ha
    · exact writeAccesses_inside _ _ _ _ a ha
    · split at ha
      · cases ha
      · rename_i hmore
        exact ih hmore a ha
  | case2 => exact nofun

theorem accesses_inside (hc : op.Careful s) : ∀ a ∈ FileOp.accesses s op, a.Inside := by
  cases op with
  | read i offset size =>
    simp only [FileOp.accesses]
    cases s.file i with
    | none => exact nofun
    | some e =>
      simp only [Option.elim, Entry.readAccesses]
      split
      · intro a ha
        rw [List.mem_singleton.mp ha]
        exact ⟨Nat.le_add_right _ _, by dsimp only; omega⟩
      · exact nofun
  | write i offset bytes mem => exact writeAccesses_inside s i offset bytes.length
  | truncate i length mem =>
    simp only [FileOp.accesses]
    cases s.file i with
    | none => exact nofun
    | some e =>
      simp only [Option.elim, Entry.truncateAccesses]
      split
      · rename_i hcut
        intro a ha
        rw [List.mem_singleton.mp ha]
        exact ⟨Nat.le_of_lt hcut.2.2, Nat.le_refl _⟩
      · exact nofun
  | openNode i trunc => exact nofun
  | zeroRange i offset length mem =>
    simp only [FileOp.accesses, State.zeroAccesses]
    cases hf : s.file i with
    | none => exact nofun
    | some e =>
      simp only [Option.elim]
      split
      · exact nofun
      · rename_i hguard
        simp only [Bool.or_eq_true, decide_eq_true_eq, not_or] at hguard
        split
        · exact nofun
        · rename_i hnode
          split
          · exact nofun
          · rename_i hseal
            split
            · exact nofun
            · rename_i hoff
              have hoff := Nat.not_le.mp hoff
              split
              · rename_i hd
                have hcap := hc hguard.1 (Nat.not_lt.mp hguard.2) (file_or_symlink hnode) e hf
                  (not_write_sealed hseal) hd hoff
                intro a ha
                rw [List.mem_singleton.mp ha]
                exact ⟨by dsimp only; omega, hcap⟩
              · split
                · exact zeroChunksAccesses_inside _ _ _ _ _ _
                · exact nofun
  | addSeals i seals mapped => exact nofun

/-! A careful call is sound. -/

theorem zeroChunks_sameNodes (s : State) (i offset total done : Nat) (mem : Nat → Bool) :
    SameNodes s (s.zeroChunks i offset total done mem).2 := by
  fun_induction State.zeroChunks s i offset total done mem with
  | case1 s done hlt chunk r => exact vfsWrite_sameNodes _ _ _ _
  | case2 s done hlt chunk r hmore =>
    rename_i ih
    exact (vfsWrite_sameNodes _ _ _ _).trans ih
  | case3 => exact .refl _

theorem zeroRange_sameNodes (i offset length : Nat) (mem : Nat → Bool) :
    SameNodes s (s.zeroRange i offset length mem).2 := by
  rw [State.zeroRange]
  split
  · exact .refl s
  split
  · exact .refl s
  split
  · exact .refl s
  split
  · exact .refl s
  split
  · exact .refl s
  split
  · exact .refl s
  dsimp only
  split
  · apply sameNodes_modify
    exact fun _ => rfl
  split
  · exact zeroChunks_sameNodes _ _ _ _ _ _
  · exact .refl s

theorem fileStep_sameLinks (s : State) (op : FileOp) : SameLinks s (fileStep s op) := by
  cases op with
  | read => exact .refl s
  | write => exact (vfsWrite_sameNodes _ _ _ _).sameLinks
  | truncate => exact (vfsTruncate_sameNodes _ _ _).sameLinks
  | openNode i trunc => exact (addRef_sameLinks i).trans (vfsOpen_sameNodes i trunc).sameLinks
  | zeroRange => exact (zeroRange_sameNodes _ _ _ _).sameLinks
  | addSeals => exact (nodeAddSeals_sameNodes _ _ _).sameLinks

theorem Entry.Keeps.refl (e : Entry) : e.Keeps e :=
  ⟨BitVec.and_self, fun _ => ⟨Nat.le_refl _, fun _ _ => rfl⟩, fun _ => Nat.le_refl _,
    fun _ => Nat.le_refl _⟩

theorem Entry.Keeps.congr {e e' : Entry} (h : e'.content = e.content) : e.Keeps e' := by
  have hview := Entry.view_congr h
  simp only [Entry.content, Prod.mk.injEq] at h
  obtain ⟨-, -, -, hlen, -, hseals⟩ := h
  constructor
  · rw [hseals, BitVec.and_self]
  · intro _
    rw [hlen, hview]
    exact ⟨Nat.le_refl _, fun _ _ => rfl⟩
  · intro _
    rw [hlen]
  · intro _
    rw [hlen]

theorem Entry.Keeps.of_seals {e e' : Entry} (hs : e'.seals = e.seals)
    (hw : e.seals &&& sealWrite ≠ 0 → e.length ≤ e'.length ∧
      ∀ k < e.length, e'.view.cell k = e.view.cell k)
    (hg : e.seals &&& sealGrow ≠ 0 → e'.length ≤ e.length)
    (hsh : e.seals &&& sealShrink ≠ 0 → e.length ≤ e'.length) : e.Keeps e' :=
  ⟨by rw [hs, BitVec.and_self], hw, hg, hsh⟩

/-- A seal that is set stays set. -/
theorem Entry.Keeps.sealed {e e' : Entry} (h : e.Keeps e') {mask : BitVec 32}
    (hs : e.seals &&& mask ≠ 0) : e'.seals &&& mask ≠ 0 := by
  intro h0
  apply hs
  rw [← h.seals, BitVec.and_assoc, h0]
  exact BitVec.and_zero

theorem Entry.Keeps.trans {e e' e'' : Entry} (h : e.Keeps e') (h' : e'.Keeps e'') :
    e.Keeps e'' := by
  constructor
  · rw [← h.seals, BitVec.and_assoc, h'.seals]
  · intro hs
    obtain ⟨hlen, hcell⟩ := h.write hs
    obtain ⟨hlen', hcell'⟩ := h'.write (h.sealed hs)
    exact ⟨Nat.le_trans hlen hlen', fun k hk => (hcell' k (by omega)).trans (hcell k hk)⟩
  · intro hs
    exact Nat.le_trans (h'.grow (h.sealed hs)) (h.grow hs)
  · intro hs
    exact Nat.le_trans (h.shrink hs) (h'.shrink (h.sealed hs))

/-- The stored bytes and the zeros after them are the array from the offset on. -/
theorem vfsRead_view (hf : s.file i = some e) (h : e.Stored) (offset size : Nat) :
    s.vfsRead i offset size = e.view.read offset size := by
  obtain ⟨he, hk⟩ := file_some hf
  have hstored : ∀ j, j < min size (e.length - offset) →
      (if offset < e.capacity then (e.data.drop offset).take (min size (e.length - offset))
        else (e.backing.drop offset).take (min size (e.length - offset))).getD j 0 =
      e.view.cell (offset + j) := by
    intro j hj
    rw [h.cell, Entry.store]
    by_cases hd : e.data = []
    · have hcap : ¬ offset < e.capacity := by simp [Entry.capacity, hd]
      rw [if_neg hcap, if_pos hd, take_getD, if_pos hj]
      simp [List.getD_eq_getElem?_getD]
    · rw [if_neg hd]
      by_cases hcap : offset < e.capacity
      · rw [if_pos hcap, take_getD, if_pos hj]
        simp [List.getD_eq_getElem?_getD]
      · have hpast : e.data.length ≤ offset + j := Nat.le_trans (Nat.not_lt.mp hcap) (by omega)
        rw [if_neg hcap, h.one hd, List.getD_eq_default e.data 0 hpast]
        simp
  rw [State.vfsRead, he]
  dsimp only
  rw [if_neg (by simp [hk])]
  have hlen : (if offset < e.capacity then (e.data.drop offset).take (min size (e.length - offset))
      else (e.backing.drop offset).take (min size (e.length - offset))).length ≤
        min size (e.length - offset) := by
    split <;> exact List.length_take_le _ _
  apply Sparse.read_congr
  · rw [List.length_append, List.length_replicate]
    change _ = min size (e.length - offset)
    omega
  · intro j hj
    rw [List.length_append, List.length_replicate] at hj
    rw [append_zeros_getD]
    exact hstored j (by omega)

/-- What a careful call does to its file, the addition of seals apart. -/
theorem fileStep_changes (hf : s.file op.node = some e) (h : e.Stored) (hc : op.Careful s)
    (hop : ∀ i seals mapped, op ≠ .addSeals i seals mapped) :
    ∃ e', Changes s (fileStep s op) (s.inode op.node) e e' ∧ e'.Stored ∧
      op.Effect s e.view e'.view ∧ (e.isMemfd = true → e.Keeps e') := by
  cases op with
  | read i offset size =>
    exact ⟨e, .same (file_some hf).1, h, ⟨vfsRead_view hf h offset size, rfl⟩, fun _ => .refl e⟩
  | write i offset bytes mem =>
    obtain ⟨e', hch, hst, hseals, hok, hbad⟩ :=
      vfsWrite_changes hf h offset bytes mem
    refine ⟨e', hch, hst, ?_, ?_⟩
    · simp only [FileOp.Effect]
      split
      · rename_i h0
        rw [hbad h0]
      · rename_i h0
        exact (hok h0).2.1
    · intro hm
      by_cases h0 : (s.vfsWrite i offset bytes mem).1 = 0
      · rw [hbad h0]
        exact .refl e
      · obtain ⟨-, hview, hfree⟩ := hok h0
        obtain ⟨hw, hg⟩ := hfree hm
        have hlen : e'.length = max e.length (offset + bytes.length) :=
          congrArg Sparse.length hview
        refine .of_seals hseals (fun hs => absurd hw hs) ?_ ?_
        · intro hs
          have := hg hs
          omega
        · intro _
          omega
  | truncate i length mem =>
    obtain ⟨e', hch, hst, hseals, hok, hbad⟩ :=
      vfsTruncate_changes hf h length mem
    refine ⟨e', hch, hst, ?_, ?_⟩
    · simp only [FileOp.Effect]
      split
      · rename_i h0
        exact (hok h0).1
      · rename_i h0
        rw [hbad h0]
    · intro hm
      by_cases h0 : (s.vfsTruncate i length mem).1 = 0
      · obtain ⟨hview, hfree⟩ := hok h0
        obtain ⟨hsh, hg⟩ := hfree hm
        have hlen : e'.length = length := congrArg Sparse.length hview
        refine .of_seals hseals ?_ ?_ ?_
        · intro hs
          have hle : e.length ≤ length := by
            by_cases hshrink : e.seals &&& sealShrink = 0
            · exact hc e hf hm hs hshrink
            · exact hsh hshrink
          rw [hlen]
          refine ⟨hle, ?_⟩
          intro k hk
          rw [hview]
          exact if_pos (Nat.lt_of_lt_of_le hk hle)
        · intro hs
          rw [hlen]
          exact hg hs
        · intro hs
          rw [hlen]
          exact hsh hs
      · rw [hbad h0]
        exact .refl e
  | openNode i trunc =>
    obtain ⟨e', hch, hst, hseals, heffect⟩ := vfsOpen_changes hf h trunc
    refine ⟨e', hch, hst, heffect, ?_⟩
    intro hm
    simp only [FileOp.Effect] at heffect
    split at heffect
    · rename_i htrunc
      rw [Bool.and_eq_true] at htrunc
      have hlen : e'.length = 0 := congrArg Sparse.length heffect
      have hempty : e.length = 0 ∨ e.seals &&& sealWrite = 0 ∧ e.seals &&& sealShrink = 0 := by
        by_cases h0 : e.length = 0
        · exact Or.inl h0
        · exact Or.inr (hc htrunc.1 htrunc.2 e hf hm h0)
      rcases hempty with h0 | ⟨hw, hsh⟩
      · refine .of_seals hseals (fun _ => ⟨by omega, fun k hk => absurd hk (by omega)⟩) ?_ ?_
        · intro _
          omega
        · intro _
          omega
      · refine .of_seals hseals (fun hs => absurd hw hs) ?_ (fun hs => absurd hsh hs)
        intro _
        omega
    · have hlen : e'.length = e.length := congrArg Sparse.length heffect
      refine .of_seals hseals (fun _ => ⟨by omega, fun k _ => by rw [heffect]⟩) ?_ ?_
      · intro _
        omega
      · intro _
        omega
  | zeroRange i offset length mem =>
    obtain ⟨e', hch, hst, hseals, heffect, hsealed⟩ := zeroRange_changes hf h hc
    refine ⟨e', hch, hst, heffect, ?_⟩
    intro hm
    obtain ⟨n, -, hview⟩ := heffect.2
    have hlen : e'.length = e.length := congrArg Sparse.length hview
    refine .of_seals hseals ?_ ?_ ?_
    · intro hs
      rw [hsealed hm hs]
      exact ⟨Nat.le_refl _, fun _ _ => rfl⟩
    · intro _
      omega
    · intro _
      omega
  | addSeals i seals mapped => exact absurd rfl (hop i seals mapped)

/-- A call on what is no file leaves the files alone, the addition of seals apart. -/
theorem fileStep_other (hf : s.file op.node = none)
    (hop : ∀ i seals mapped, op ≠ .addSeals i seals mapped) (j : Nat) :
    ((fileStep s op).entries j).map Entry.content = (s.entries j).map Entry.content := by
  have hkind : ∀ e, s.entries (s.inode op.node) = some e → e.kind ≠ .file := by
    intro e he hk
    rw [State.file, he] at hf
    simp [hk] at hf
  cases op with
  | read => rfl
  | write i offset bytes mem =>
    simp only [fileStep, State.vfsWrite]
    split
    · rfl
    · split
      · rfl
      · rename_i e he
        rw [if_pos (hkind e he)]
  | truncate i length mem =>
    simp only [fileStep, State.vfsTruncate]
    split
    · rfl
    · rename_i e he
      rw [if_pos (hkind e he)]
  | openNode i trunc =>
    have hnot : (s.addRef i).kindOf ((s.addRef i).inode i) ≠ some .file := by
      have hlinks := addRef_sameLinks (s := s) i
      rw [hlinks.inode, hlinks.kindOf, State.kindOf]
      intro hk
      obtain ⟨e, he, hek⟩ := Option.map_eq_some_iff.mp hk
      exact hkind e he hek
    have hopen : fileStep s (.openNode i trunc) = if trunc && (s.addRef i).hasCallbacks i &&
        decide ((s.addRef i).kindOf ((s.addRef i).inode i) = some .file) then
          (s.addRef i).dropData ((s.addRef i).inode i) else s.addRef i := rfl
    rw [hopen, if_neg (by simp [hnot])]
    exact addRef_content i j
  | zeroRange i offset length mem =>
    simp only [fileStep, State.zeroRange]
    split
    · rfl
    · split
      · rfl
      · rename_i e he
        rw [if_pos (hkind e he)]
  | addSeals i seals mapped => exact absurd rfl (hop i seals mapped)

theorem addSeals_seen (he : s.entries t = some e) (hk : e.kind = .file) (hl : e.linkTarget = none)
    (h : e.Stored) (i : Nat) (seals : BitVec 32) (mapped : Bool) :
    ∃ e', (FileOp.addSeals i seals mapped).Seen s t e e' := by
  have hsame : ∀ x : State, x.entries t = some e → fileStep s (.addSeals i seals mapped) = x →
      ∃ e', (FileOp.addSeals i seals mapped).Seen s t e e' := by
    intro x hx hstep
    exact ⟨e, hstep ▸ hx, hk, hl, rfl, h, fun _ => rfl, fun _ => rfl, fun _ => .refl e⟩
  have hstep : fileStep s (.addSeals i seals mapped) = (s.nodeAddSeals i seals mapped).2 := rfl
  rw [State.nodeAddSeals] at hstep
  split at hstep
  · exact hsame s he hstep
  split at hstep
  · exact hsame s he hstep
  split at hstep
  · exact hsame s he hstep
  split at hstep
  · exact hsame s he hstep
  · by_cases ht : t = i
    · subst ht
      refine ⟨{ e with seals := e.seals ||| seals }, ?_, hk, hl, rfl, ?_, fun _ => rfl,
        fun _ => rfl, ?_⟩
      · rw [hstep, State.modify_entries, if_pos rfl, he]
        rfl
      · exact ⟨h.one, h.backed, h.tail⟩
      · intro _
        refine ⟨?_, fun _ => ⟨Nat.le_refl _, fun _ _ => rfl⟩, fun _ => Nat.le_refl _,
          fun _ => Nat.le_refl _⟩
        ext j hj
        simp
        grind
    · refine hsame _ ?_ hstep
      rw [State.modify_entries, if_neg ht, he]

theorem seen_of_content (op : FileOp) (he : s.entries t = some e) (hk : e.kind = .file)
    (hl : e.linkTarget = none) (h : e.Stored) (ht : t ≠ s.inode op.node ∨ s.file op.node = none)
    (hsame : ((fileStep s op).entries t).map Entry.content = (s.entries t).map Entry.content) :
    ∃ e', op.Seen s t e e' := by
  rw [he] at hsame
  obtain ⟨e', he', hc⟩ := content_some hsame
  have hparts := hc
  simp only [Entry.content, Prod.mk.injEq] at hparts
  have hfirst : e'.linkTarget = none := by
    have htarget := (fileStep_sameLinks s op).target t
    rw [State.target, State.target, he', he] at htarget
    exact htarget.trans hl
  have hne : t ≠ s.inode op.node := by
    rcases ht with ht | ht
    · exact ht
    · rintro rfl
      rw [State.file, he] at ht
      simp [hk] at ht
  exact ⟨e', he', hparts.1.trans hk, hfirst, hparts.2.2.2.2.1, h.congr hc,
    fun heq => absurd heq hne, fun _ => Entry.view_congr hc, fun _ => .congr hc⟩

/-- What every careful call does, for every file. -/
theorem careful_sound {op : FileOp} (hs : s.Holds) (hc : op.Careful s) : op.Sound s := by
  refine ⟨accesses_inside hc, ?_⟩
  intro t e he hk hl
  have h := hs.stored t e he hk hl
  by_cases hop : ∃ i seals mapped, op = .addSeals i seals mapped
  · obtain ⟨i, seals, mapped, rfl⟩ := hop
    exact addSeals_seen he hk hl h i seals mapped
  · have hop : ∀ i seals mapped, op ≠ .addSeals i seals mapped :=
      fun i seals mapped heq => hop ⟨i, seals, mapped, heq⟩
    cases hf : s.file op.node with
    | none => exact seen_of_content op he hk hl h (Or.inr hf) (fileStep_other hf hop t)
    | some e₀ =>
      obtain ⟨he₀, hk₀⟩ := file_some hf
      have hl₀ : e₀.linkTarget = none := by
        have htarget := hs.first op.node
        rwa [State.target, he₀] at htarget
      obtain ⟨e', hch, hst, heffect, hkeeps⟩ :=
        fileStep_changes hf (hs.stored _ e₀ he₀ hk₀ hl₀) hc hop
      by_cases ht : t = s.inode op.node
      · subst ht
        obtain rfl : e₀ = e := Option.some.inj (he₀.symm.trans he)
        have hfirst : e'.linkTarget = none := by
          have htarget := (fileStep_sameLinks s op).target (s.inode op.node)
          rw [State.target, State.target, hch.here, he] at htarget
          exact htarget.trans hl
        exact ⟨e', hch.here, hch.kind.trans hk, hfirst, hch.memfd, hst, fun _ => heffect,
          fun hne => absurd rfl hne, hkeeps⟩
      · exact seen_of_content op he hk hl h (Or.inl ht) (hch.others t ht)

theorem sound_holds {op : FileOp} (hs : s.Holds) (h : op.Sound s) : (fileStep s op).Holds := by
  have hlinks := fileStep_sameLinks s op
  constructor
  · intro i
    rw [hlinks.inode, hlinks.target]
    exact hs.first i
  · intro t e' he' hk hl
    have hkind := hlinks.kindOf t
    rw [State.kindOf, State.kindOf, he'] at hkind
    obtain ⟨e, he, hek⟩ := Option.map_eq_some_iff.mp hkind.symm
    have htarget := hlinks.target t
    rw [State.target, State.target, he', he] at htarget
    obtain ⟨e'', hseen⟩ := h.2 t e he (hek.trans hk) (htarget.symm.trans hl)
    obtain rfl : e'' = e' := Option.some.inj (hseen.here.symm.trans he')
    exact hseen.stored

theorem Ready.holds (h : s.Ready) : s.Holds :=
  ⟨h.first, fun i e he hk _ => (h.fresh i e he hk).stored⟩

/-- A call that is not careful leaves the buffer or breaks a seal. -/
theorem sound_careful {op : FileOp} (hs : s.Holds) (h : op.Sound s) : op.Careful s := by
  have hseen : ∀ i e, s.file i = some e → op.node = i →
      ∃ e', op.Effect s e.view e'.view ∧ (e.isMemfd = true → e.Keeps e') := by
    intro i e hf hi
    subst hi
    obtain ⟨he, hk⟩ := file_some hf
    have htarget := hs.first op.node
    rw [State.target, he] at htarget
    obtain ⟨e', hseen⟩ := h.2 _ e he hk htarget
    exact ⟨e', hseen.effect rfl, hseen.seals⟩
  cases op with
  | read => trivial
  | write => trivial
  | truncate i length mem =>
    intro e hf hm hw hsh
    obtain ⟨he, hk⟩ := file_some hf
    obtain ⟨e', heffect, hkeeps⟩ := hseen i e hf rfl
    by_contra hlt
    have hok : (s.vfsTruncate i length mem).1 = 0 := by
      simp only [State.vfsTruncate, he]
      have hopen : ¬ (e.isMemfd && decide (length < e.length) && decide (e.seals &&& sealShrink ≠ 0)) =
          true := by
        rw [Bool.and_eq_true, decide_eq_true_eq]
        exact fun hsealed => hsealed.2 hsh
      rw [if_neg (by simp [hk]), if_neg hopen, if_neg (by simp; omega)]
      split
      · rfl
      · split <;> rfl
    simp only [FileOp.Effect, hok, if_true] at heffect
    have hlen : e'.length = length := congrArg Sparse.length heffect
    have := ((hkeeps hm).write hw).1
    omega
  | openNode i trunc =>
    intro ht hback e hf hm hne
    obtain ⟨e', heffect, hkeeps⟩ := hseen i e hf rfl
    simp only [FileOp.Effect, ht, hback, Bool.and_self, if_true] at heffect
    have hlen : e'.length = 0 := congrArg Sparse.length heffect
    constructor
    · by_contra hw
      have := ((hkeeps hm).write hw).1
      omega
    · by_contra hsh
      have := (hkeeps hm).shrink hsh
      omega
  | zeroRange i offset length mem =>
    intro hpos hmax hkind e hf hfree hd hoff
    have hmem : (⟨e.capacity, offset, min (offset + length) e.length⟩ : DataAccess) ∈
        (FileOp.zeroRange i offset length mem).accesses s := by
      simp only [FileOp.accesses, State.zeroAccesses, hf, Option.elim]
      rw [if_neg (by simp [hpos]; omega), if_neg, if_neg, if_neg (by omega), if_pos hd]
      · exact List.mem_singleton.mpr rfl
      · rwa [Bool.and_eq_true, decide_eq_true_eq]
      · rcases hkind with hkind | hkind <;> simp [hkind]
    exact (h.1 _ hmem).2
  | addSeals => trivial

/-- What a seal promised in one state of a run holds in every later one. -/
theorem run_keeps (hs : s.Holds) (ops : List FileOp) (h : Along fileStep FileOp.Careful s ops)
    (he : s.entries t = some e) (hk : e.kind = .file) (hl : e.linkTarget = none)
    (hm : e.isMemfd = true) : ∃ e', (fileRun s ops).entries t = some e' ∧ e.Keeps e' := by
  induction ops generalizing s e with
  | nil => exact ⟨e, he, .refl e⟩
  | cons op ops ih =>
    have hsound := careful_sound hs h.1
    obtain ⟨e', hseen⟩ := hsound.2 t e he hk hl
    obtain ⟨e'', he'', hkeeps⟩ := ih (sound_holds hs hsound) h.2 hseen.here hseen.kind hseen.first
      (hseen.memfd.trans hm)
    exact ⟨e'', he'', (hseen.seals hm).trans hkeeps⟩

/-- A run keeps to the buffers, to the arrays of bytes and to the seals exactly when all its calls are
careful, and then the seals hold from any state to any later one. -/
theorem ramfs_file_bytes (hs : s.Ready) (ops : List FileOp) :
    (Along fileStep FileOp.Sound s ops ↔ Along fileStep FileOp.Careful s ops) ∧
    (Along fileStep FileOp.Careful s ops → ∀ before between after,
      ops = before ++ between ++ after → ∀ t e, (fileRun s before).entries t = some e →
      e.kind = .file → e.linkTarget = none → e.isMemfd = true →
      ∃ e', (fileRun s (before ++ between)).entries t = some e' ∧ e.Keeps e') := by
  have hstep : ∀ s op, State.Holds s → FileOp.Careful s op → (fileStep s op).Holds :=
    fun s op hs hc => sound_holds hs (careful_sound hs hc)
  constructor
  · apply Iff.symm
    exact along_iff hstep (fun s op hs => ⟨careful_sound hs, sound_careful hs⟩) (Ready.holds hs)
  · intro h before between after hops t e he hk hl hm
    subst hops
    obtain ⟨h, -⟩ := along_append.mp h
    obtain ⟨hbefore, hbetween⟩ := along_append.mp h
    have hholds : (fileRun s before).Holds := hbefore.invariant hstep (Ready.holds hs)
    rw [fileRun, List.foldl_append]
    exact run_keeps hholds between hbetween he hk hl hm

end Changes

/-- A ramfs tree with one memfd, numbered 1. -/
def oneMemfd : State := ((State.start 4096).createMemfd ['m'] true).2

theorem oneMemfd_entries (i : Nat) :
    oneMemfd.entries i =
      if i = 1 then some { Entry.new ['m'] .file with isMemfd := true, vfsNode := some ⟨1, true⟩ }
      else if i = 0 then some { Entry.new ['/'] .dir with vfsNode := some ⟨0, false⟩ }
      else none := by
  change Table.put (Table.put (fun _ => none) 0 _) 1 _ i = _
  rw [Table.put_apply, Table.put_apply]

theorem oneMemfd_ready : oneMemfd.Ready := by
  constructor
  · intro i
    rw [State.target, oneMemfd_entries]
    split
    · rfl
    · split <;> rfl
  · intro i e he hk
    rw [oneMemfd_entries] at he
    split at he
    · cases he
      exact Or.inl ⟨rfl, rfl⟩
    · split at he
      · cases he
        cases hk
      · cases he

theorem oneMemfd_bytes :
    Along fileStep FileOp.Sound oneMemfd
      [.write 1 2 [7] true, .zeroRange 1 0 2 (fun _ => true), .addSeals 1 sealGrow false,
        .truncate 1 1 true] := by
  apply (ramfs_file_bytes oneMemfd_ready _).1.mpr
  refine ⟨trivial, ?_, trivial, ?_, trivial⟩
  · intro _ _ _ e hf _ _ _
    have hall : ((fileStep oneMemfd (.write 1 2 [7] true)).file 1).all
        (fun e => min (0 + 2) e.length ≤ e.capacity) = true := by decide
    simpa using (Option.all_eq_true _ _).mp hall e hf
  · intro e hf _ hw
    have hall : ((fileRun oneMemfd [.write 1 2 [7] true, .zeroRange 1 0 2 (fun _ => true),
        .addSeals 1 sealGrow false]).file 1).all (fun e => e.seals &&& sealWrite = 0) = true := by
      decide
    exact absurd (of_decide_eq_true ((Option.all_eq_true _ _).mp hall e hf)) hw

/-- The zeros run past the buffer of a file that was made longer, and `open` empties a sealed memfd. -/
theorem zero_range_leaves_buffer :
    ¬ Along fileStep FileOp.Sound oneMemfd
      [.write 1 0 [7] true, .truncate 1 2 true, .zeroRange 1 0 2 (fun _ => true)] ∧
    ¬ Along fileStep FileOp.Sound oneMemfd
      [.write 1 0 [7] true, .addSeals 1 sealWrite false, .openNode 1 true] := by
  constructor
  · rintro ⟨-, -, h, -⟩
    have hin : (⟨1, 0, 2⟩ : DataAccess).Inside := h.1 _ (List.mem_singleton.mpr rfl)
    exact absurd hin.2 (by decide)
  · rintro ⟨-, -, h, -⟩
    obtain ⟨e', hseen⟩ := h.2 1 _ rfl rfl rfl
    obtain rfl := Option.some.inj (hseen.here.symm.trans rfl)
    have hlen := ((hseen.seals rfl).write (by decide)).1
    exact absurd hlen (by decide)

end Lebirun.Ramfs
