import Mathlib
import Lebirun.Lib.Copies

namespace Lebirun.Tasks.ExecStack
open Copies
set_option autoImplicit true

abbrev PAGE_SIZE : Nat := 4096
abbrev USER_STACK_INITIAL_MIN : Nat := 0x1000
abbrev USER_STACK_GAP : Nat := 0x1000
abbrev USER_STACK_TOP : Nat := 0x40000000
abbrev USER_STACK_FLOOR : Nat := 0x3F800000

/-- The bytes of a string before its NUL. -/
structure CString where
  bytes : List UInt8
  noNul : (0 : UInt8) ∉ bytes

/-- What exec passes on, and what it knows of the program. -/
structure Exec where
  argv : List CString
  envp : List CString
  phdrVaddr : Nat
  phent : Nat
  phnum : Nat
  entryPoint : Nat
  interpEntry : Nat
  interpBase : Nat
  uid : Nat
  euid : Nat
  gid : Nat
  egid : Nat
  randomBytes : List UInt8
  randomLen : randomBytes.length = 16
  /-- `rng_get_u32` for the top of the stack -/
  randomTop : Nat
  /-- the soft limit on the stack -/
  rlimit : Nat

def taskAlignUp (v align : Nat) : Nat := (v + (align - 1)) / align * align

def stringsSize (l : List CString) : Nat := (l.map fun s => taskAlignUp (s.bytes.length + 1) 8).sum

/-- `task_initial_stack_size` with the name `program` -/
def taskInitialStackSize (argv envp : List CString) (auxEntries : Nat) : Nat :=
  let bytes := 16 + 16 + auxEntries * 16 + 8 + 8 + (envp.length + 1) * 8 + (argv.length + 1) * 8 + 8
  let bytes := bytes + if 0 < argv.length then stringsSize argv else taskAlignUp (7 + 1) 8
  let bytes := bytes + stringsSize envp
  let size := taskAlignUp bytes PAGE_SIZE
  if size < USER_STACK_INITIAL_MIN then USER_STACK_INITIAL_MIN else size

namespace Exec

variable (x : Exec)

def stackSize : Nat := taskInitialStackSize x.argv x.envp 11

def stackLimit : Nat := min x.rlimit (USER_STACK_TOP - USER_STACK_FLOOR - USER_STACK_GAP)

def stackTop : Nat :=
  if USER_STACK_TOP - x.randomTop % 256 * PAGE_SIZE < USER_STACK_FLOOR + USER_STACK_GAP + x.stackSize then USER_STACK_TOP
  else USER_STACK_TOP - x.randomTop % 256 * PAGE_SIZE

/-- The end of the range that is mapped for the stack. -/
def stackEnd : Nat := x.stackTop - USER_STACK_GAP

/-- Its start. -/
def stackBase : Nat := x.stackEnd - x.stackSize

def tblCap : Nat := x.argv.length + x.envp.length + 32

end Exec

/-- The stack while it is built: `sp`, what was copied to the new address space, and the entries of `tbl_buf`. -/
structure Build where
  sp : Nat
  copies : List (Nat × List UInt8)
  tbl : List Nat

/-- `tbl_buf[tbl_idx++] = v` -/
def Build.push (cap v : Nat) (b : Build) : Option Build :=
  if b.tbl.length < cap then some { b with tbl := b.tbl ++ [v] } else none

def Build.pushAll (cap : Nat) : List Nat → Build → Option Build
  | [], b => some b
  | v :: l, b => (b.push cap v).bind (pushAll cap l)

/-- One turn of the loops over the strings, with `tbl_buf[i] = sp`. -/
def Build.pushString (cap i : Nat) (s : CString) (b : Build) : Option Build :=
  if i < cap then
    let sp := b.sp - taskAlignUp (s.bytes.length + 1) 8
    some { sp := sp, copies := b.copies ++ [(sp, s.bytes ++ [0])], tbl := b.tbl.set i sp }
  else none

/-- The loop over the strings, from the last one to the first, which belongs at index `i`. -/
def Build.pushStrings (cap : Nat) : Nat → List CString → Build → Option Build
  | _, [], b => some b
  | i, s :: rest, b => (pushStrings cap (i + 1) rest b).bind (pushString cap i s)

/-- The auxiliary entries and their values. -/
def auxv (x : Exec) (random : Nat) : List Nat :=
  (if x.phdrVaddr ≠ 0 ∧ x.phnum ≠ 0 then [3, x.phdrVaddr] else []) ++
    [4, x.phent, 5, x.phnum, 9, x.entryPoint, 6, 4096] ++
    (if x.interpEntry ≠ 0 then [7, x.interpBase] else []) ++
    [11, x.uid, 12, x.euid, 13, x.gid, 14, x.egid, 25, random, 0, 0]

def le64 (v : Nat) : List UInt8 := (List.range 8).map fun i => UInt8.ofNat (v / 256 ^ i % 256)

/-- The part of `task_exec_with_args_common` that builds the stack; nothing when `tbl_buf` is indexed beyond its end. -/
def buildStack (x : Exec) : Option Build :=
  (Build.pushAll x.tblCap
      (x.argv.length :: (List.replicate (x.argv.length + 1) 0 ++ List.replicate (x.envp.length + 1) 0))
      ⟨x.stackEnd - 16, [], []⟩).bind fun b =>
    (b.pushStrings x.tblCap (1 + (x.argv.length + 1)) x.envp).bind fun b =>
      (b.pushStrings x.tblCap 1 x.argv).bind fun b =>
        let random := b.sp - 16
        let sp := random / 16 * 16
        (Build.pushAll x.tblCap (auxv x random) ⟨sp, b.copies ++ [(random, x.randomBytes)], b.tbl⟩).map fun b =>
          let sp := b.sp - b.tbl.length * 8
          ⟨sp, b.copies ++ [(sp, b.tbl.flatMap le64)], b.tbl⟩

/-- What the table says, and where the strings are. -/
structure Layout (x : Exec) (b : Build) (mem : Nat → UInt8) (argp envp : List Nat) (random : Nat) : Prop where
  argc : argp.length = x.argv.length
  envc : envp.length = x.envp.length
  table : read mem b.sp (8 * b.tbl.length) =
    (x.argv.length :: (argp ++ 0 :: (envp ++ 0 :: auxv x random))).flatMap le64
  args : List.Forall₂ (fun a (s : CString) => read mem a (s.bytes.length + 1) = s.bytes ++ [0]) argp x.argv
  env : List.Forall₂ (fun a (s : CString) => read mem a (s.bytes.length + 1) = s.bytes ++ [0]) envp x.envp
  bytes : read mem random 16 = x.randomBytes

/-- A stack as it should be. -/
structure WellFormed (x : Exec) (b : Build) : Prop where
  inside : ∀ c ∈ b.copies, x.stackBase ≤ c.1 ∧ c.1 + c.2.length ≤ x.stackEnd
  aligned : b.sp % 16 = 0
  apart : b.copies.Pairwise Apart
  layout : ∀ mem, ∃ argp envp random, Layout x b (apply b.copies mem) argp envp random

variable {x : Exec} {b b' : Build} {l : List CString} {cap i n v : Nat}

theorem taskAlignUp_eight (n : Nat) : n ≤ taskAlignUp n 8 ∧ taskAlignUp n 8 % 8 = 0 := by
  rw [taskAlignUp]
  omega

theorem taskAlignUp_page (n : Nat) : n ≤ taskAlignUp n PAGE_SIZE ∧ taskAlignUp n PAGE_SIZE % 4096 = 0 := by
  have hpage : PAGE_SIZE = 4096 := rfl
  rw [taskAlignUp, hpage]
  omega

theorem stringsSize_cons (s : CString) (l : List CString) :
    stringsSize (s :: l) = taskAlignUp (s.bytes.length + 1) 8 + stringsSize l := List.sum_cons

theorem stringsSize_mod (l : List CString) : stringsSize l % 8 = 0 := by
  induction l with
  | nil => rfl
  | cons s l ih =>
    have halign := taskAlignUp_eight (s.bytes.length + 1)
    rw [stringsSize_cons]
    omega

theorem pushAll_eq (l : List Nat) (h : b.tbl.length + l.length ≤ cap) :
    b.pushAll cap l = some { b with tbl := b.tbl ++ l } := by
  induction l generalizing b with
  | nil => rw [Build.pushAll, List.append_nil]
  | cons v l ih =>
    rw [List.length_cons] at h
    rw [Build.pushAll, Build.push, if_pos (by omega), Option.bind_some, ih (by
      rw [List.length_append, List.length_singleton]
      omega), List.append_assoc, List.singleton_append]

/-- The addresses of strings that are put below `sp` one after another, the last one first. -/
def addresses (sp : Nat) : List CString → List Nat
  | [] => []
  | s :: rest => (sp - stringsSize (s :: rest)) :: addresses sp rest

/-- Copies below `top`, each below the ones before it and none below `sp`. -/
structure Stacked (top sp : Nat) (cs : List (Nat × List UInt8)) : Prop where
  inside : ∀ c ∈ cs, sp ≤ c.1 ∧ c.1 + c.2.length ≤ top
  down : cs.Pairwise fun c d => d.1 + d.2.length ≤ c.1

theorem Stacked.append {top sp sp' : Nat} {cs : List (Nat × List UInt8)} (h : Stacked top sp cs) {c : List UInt8}
    (hsp : sp' ≤ a) (ha : a + c.length ≤ sp) (htop : sp ≤ top) : Stacked top sp' (cs ++ [(a, c)]) where
  inside d hd := by
    obtain hd | hd := List.mem_append.1 hd
    · have hin := h.inside d hd
      omega
    · rw [List.mem_singleton.1 hd]
      exact ⟨hsp, ha.trans htop⟩
  down := by
    rw [List.pairwise_append]
    refine ⟨h.down, List.pairwise_singleton _ _, ?_⟩
    intro d hd e he
    have hin := h.inside d hd
    rw [List.mem_singleton.1 he]
    exact ha.trans hin.1

theorem Stacked.apart {top sp : Nat} {cs : List (Nat × List UInt8)} (h : Stacked top sp cs) : cs.Pairwise Apart :=
  h.down.imp fun hle => Or.inr hle

/-- What the loop over the strings does. -/
structure Pushed (top i : Nat) (l : List CString) (b b' : Build) : Prop where
  sp : b'.sp = b.sp - stringsSize l
  tbl : b'.tbl = b.tbl.take i ++ (addresses b.sp l ++ b.tbl.drop (i + l.length))
  stacked : Stacked top b'.sp b'.copies
  old : ∀ c ∈ b.copies, c ∈ b'.copies
  strings : List.Forall₂ (fun a (s : CString) => (a, s.bytes ++ [0]) ∈ b'.copies) (addresses b.sp l) l

theorem pushStrings_pushed {top : Nat} (i : Nat) (l : List CString) (hi : i + l.length ≤ b.tbl.length)
    (hcap : b.tbl.length ≤ cap) (hb : Stacked top b.sp b.copies) (htop : b.sp ≤ top) (hroom : stringsSize l ≤ b.sp) :
    ∃ b', b.pushStrings cap i l = some b' ∧ Pushed top i l b b' := by
  induction l generalizing i with
  | nil =>
    refine ⟨b, rfl, rfl, ?_, hb, fun _ hc => hc, List.Forall₂.nil⟩
    rw [addresses, List.nil_append, List.length_nil, Nat.add_zero, List.take_append_drop]
  | cons s rest ih =>
    rw [List.length_cons] at hi
    rw [stringsSize_cons] at hroom
    obtain ⟨b₁, hb₁, hsp, htbl, hstacked, hold, hstrings⟩ := ih (i + 1) (by omega) (by omega)
    have halign := (taskAlignUp_eight (s.bytes.length + 1)).1
    have haddr : b₁.sp - taskAlignUp (s.bytes.length + 1) 8 = b.sp - stringsSize (s :: rest) := by
      rw [hsp, stringsSize_cons]
      omega
    have hbytes : (s.bytes ++ [0]).length = s.bytes.length + 1 := List.length_append
    refine ⟨⟨b.sp - stringsSize (s :: rest), b₁.copies ++ [(b.sp - stringsSize (s :: rest), s.bytes ++ [0])],
      b₁.tbl.set i (b.sp - stringsSize (s :: rest))⟩, ?_, rfl, ?_, ?_, ?_, ?_⟩
    · rw [Build.pushStrings, hb₁, Option.bind_some, Build.pushString, if_pos (by omega), haddr]
    · dsimp only
      have htake : (b.tbl.take i).length = i := by
        rw [List.length_take]
        omega
      rw [htbl, ← List.take_append_getElem (by omega : i < b.tbl.length), List.append_assoc,
        List.set_append_right _ _ htake.le, htake, Nat.sub_self, List.singleton_append, List.set_cons_zero, addresses,
        List.length_cons, List.cons_append, Nat.add_right_comm, Nat.add_assoc]
    · have hbelow : b.sp - stringsSize (s :: rest) + (s.bytes ++ [0]).length ≤ b₁.sp := by
        have hcons := stringsSize_cons s rest
        omega
      exact hstacked.append le_rfl hbelow (hsp.le.trans ((Nat.sub_le ..).trans htop))
    · exact fun c hc => List.mem_append_left _ (hold c hc)
    · rw [addresses]
      refine List.Forall₂.cons (List.mem_append_right _ (List.mem_singleton.2 rfl)) ?_
      exact hstrings.imp fun a s hmem => List.mem_append_left _ hmem

theorem addresses_length (sp : Nat) (l : List CString) : (addresses sp l).length = l.length := by
  induction l with
  | nil => rfl
  | cons s l ih => rw [addresses, List.length_cons, List.length_cons, ih]

/-- Filling the slots of a table that were left zero, but for the last one. -/
theorem fill_slots (front rest l : List Nat) (k : Nat) (h : i = front.length) :
    (front ++ (List.replicate (k + 1) 0 ++ rest)).take i ++
        (l ++ (front ++ (List.replicate (k + 1) 0 ++ rest)).drop (i + k)) =
      front ++ (l ++ 0 :: rest) := by
  have hlast : front ++ (List.replicate (k + 1) 0 ++ rest) = (front ++ List.replicate k 0) ++ 0 :: rest := by
    rw [List.replicate_succ', List.append_assoc, List.append_assoc, List.singleton_append]
  have hlength : (front ++ List.replicate k 0).length = i + k := by
    rw [List.length_append, List.length_replicate, h]
  rw [List.take_left' h.symm, hlast, List.drop_left' hlength]

theorem le64_length (v : Nat) : (le64 v).length = 8 := by
  rw [le64, List.length_map, List.length_range]

theorem flatMap_le64_length (l : List Nat) : (l.flatMap le64).length = 8 * l.length := by
  induction l with
  | nil => rfl
  | cons v l ih =>
    rw [List.flatMap_cons, List.length_append, ih, le64_length, List.length_cons]
    omega

theorem auxv_length (x : Exec) (random : Nat) : (auxv x random).length ≤ 24 ∧ (auxv x random).length % 2 = 0 := by
  rw [auxv]
  split <;> split <;> simp

/-- What is below the zeroed top of the stack, once it is built. -/
structure Built (x : Exec) (b : Build) (random : Nat) : Prop where
  below : random + 32 + stringsSize x.envp + stringsSize x.argv = x.stackEnd
  sp : b.sp + 8 * b.tbl.length = random / 16 * 16
  tbl : b.tbl = x.argv.length :: (addresses (random + 16 + stringsSize x.argv) x.argv ++
    0 :: (addresses (random + 16 + stringsSize x.argv + stringsSize x.envp) x.envp ++ 0 :: auxv x random))
  stacked : Stacked x.stackEnd b.sp b.copies
  table : (b.sp, b.tbl.flatMap le64) ∈ b.copies
  bytes : (random, x.randomBytes) ∈ b.copies
  args : List.Forall₂ (fun a (s : CString) => (a, s.bytes ++ [0]) ∈ b.copies)
    (addresses (random + 16 + stringsSize x.argv) x.argv) x.argv
  env : List.Forall₂ (fun a (s : CString) => (a, s.bytes ++ [0]) ∈ b.copies)
    (addresses (random + 16 + stringsSize x.argv + stringsSize x.envp) x.envp) x.envp

theorem stackSize_eq (x : Exec) : x.stackSize % 4096 = 0 ∧
    248 + 8 * (x.argv.length + x.envp.length) + stringsSize x.argv + stringsSize x.envp ≤ x.stackSize := by
  have hargv : stringsSize x.argv ≤ if 0 < x.argv.length then stringsSize x.argv else taskAlignUp (7 + 1) 8 := by
    split
    · exact le_rfl
    · rename_i hnone
      rw [List.length_pos_iff, not_not] at hnone
      rw [hnone]
      exact Nat.zero_le _
  have hmin : USER_STACK_INITIAL_MIN = 4096 := rfl
  rw [Exec.stackSize, taskInitialStackSize]
  generalize (if 0 < x.argv.length then stringsSize x.argv else taskAlignUp (7 + 1) 8) = a at hargv ⊢
  have halign := taskAlignUp_page
    (16 + 16 + 11 * 16 + 8 + 8 + (x.envp.length + 1) * 8 + (x.argv.length + 1) * 8 + 8 + a + stringsSize x.envp)
  split <;> omega

theorem stackLimit_le (x : Exec) : x.stackLimit ≤ 0x7FF000 := min_le_right ..

theorem stackTop_eq (x : Exec) (h : x.stackSize ≤ 0x7FF000) :
    x.stackTop % 4096 = 0 ∧ 0x3F801000 + x.stackSize ≤ x.stackTop := by
  have htop : USER_STACK_TOP = 0x40000000 := rfl
  have hfloor : USER_STACK_FLOOR = 0x3F800000 := rfl
  have hgap : USER_STACK_GAP = 0x1000 := rfl
  have hpage : PAGE_SIZE = 0x1000 := rfl
  rw [Exec.stackTop, hpage, htop, hfloor, hgap]
  split <;> omega

theorem stackEnd_eq (x : Exec) (h : x.stackSize ≤ x.stackLimit) :
    x.stackEnd % 4096 = 0 ∧ 0x3F800000 + x.stackSize ≤ x.stackEnd := by
  obtain ⟨hmod, hle⟩ := stackTop_eq x (h.trans (stackLimit_le x))
  have hend : x.stackEnd = x.stackTop - 0x1000 := rfl
  rw [hend]
  constructor
  · omega
  · exact Nat.le_sub_of_add_le (by omega)

/-- The table before the strings are known. -/
def blank (x : Exec) : List Nat :=
  x.argv.length :: (List.replicate (x.argv.length + 1) 0 ++ List.replicate (x.envp.length + 1) 0)

theorem blank_length (x : Exec) : (blank x).length = x.argv.length + x.envp.length + 3 := by
  rw [blank, List.length_cons, List.length_append, List.length_replicate, List.length_replicate]
  omega

/-- The strings are on the stack, and the table has their addresses. -/
theorem pushStrings_both {top : Nat} (hroom : 16 + stringsSize x.envp + stringsSize x.argv ≤ top) :
    ∃ b₁ b₂, Build.pushStrings x.tblCap (1 + (x.argv.length + 1)) x.envp ⟨top - 16, [], blank x⟩ = some b₁ ∧
      b₁.pushStrings x.tblCap 1 x.argv = some b₂ ∧
      b₂.sp = top - 16 - stringsSize x.envp - stringsSize x.argv ∧ Stacked top b₂.sp b₂.copies ∧
      b₂.tbl = x.argv.length :: (addresses (top - 16 - stringsSize x.envp) x.argv ++
        0 :: (addresses (top - 16) x.envp ++ [0])) ∧
      List.Forall₂ (fun a (s : CString) => (a, s.bytes ++ [0]) ∈ b₂.copies)
        (addresses (top - 16 - stringsSize x.envp) x.argv) x.argv ∧
      List.Forall₂ (fun a (s : CString) => (a, s.bytes ++ [0]) ∈ b₂.copies) (addresses (top - 16) x.envp) x.envp := by
  have hcap : x.tblCap = x.argv.length + x.envp.length + 32 := rfl
  have hlength := blank_length x
  have hempty : Stacked top (top - 16) [] := ⟨fun _ hc => absurd hc List.not_mem_nil, List.Pairwise.nil⟩
  obtain ⟨b₁, hb₁, hsp₁, htbl₁, hstacked₁, -, hstrings₁⟩ :
      ∃ b₁, Build.pushStrings x.tblCap (1 + (x.argv.length + 1)) x.envp ⟨top - 16, [], blank x⟩ = some b₁ ∧
        Pushed top (1 + (x.argv.length + 1)) x.envp ⟨top - 16, [], blank x⟩ b₁ :=
    pushStrings_pushed _ _ (by dsimp only; omega) (by dsimp only; omega) hempty (Nat.sub_le ..) (by dsimp only; omega)
  have htable₁ : b₁.tbl = [x.argv.length] ++ (List.replicate (x.argv.length + 1) 0 ++ (addresses (top - 16) x.envp ++ [0])) := by
    have hfill := fill_slots (i := 1 + (x.argv.length + 1)) ([x.argv.length] ++ List.replicate (x.argv.length + 1) 0) []
      (addresses (top - 16) x.envp) x.envp.length (by rw [List.length_append, List.length_replicate]; rfl)
    rw [List.append_nil, List.append_assoc, List.append_assoc] at hfill
    rw [htbl₁]
    exact hfill
  have hlength₁ : b₁.tbl.length = x.argv.length + x.envp.length + 3 := by
    rw [htable₁]
    simp only [List.length_append, List.length_replicate, addresses_length, List.length_singleton]
    omega
  obtain ⟨b₂, hb₂, hsp₂, htbl₂, hstacked₂, hold₂, hstrings₂⟩ :
      ∃ b₂, Build.pushStrings x.tblCap 1 x.argv b₁ = some b₂ ∧ Pushed top 1 x.argv b₁ b₂ :=
    pushStrings_pushed 1 x.argv (by omega) (by omega) hstacked₁
      (by rw [hsp₁]; exact (Nat.sub_le ..).trans (Nat.sub_le ..)) (by rw [hsp₁]; dsimp only; omega)
  refine ⟨b₁, b₂, hb₁, hb₂, hsp₂.trans (congrArg (· - stringsSize x.argv) hsp₁), hstacked₂, ?_, ?_, ?_⟩
  · have hfill := fill_slots (i := 1) [x.argv.length] (addresses (top - 16) x.envp ++ [0])
      (addresses b₁.sp x.argv) x.argv.length rfl
    rw [htbl₂, htable₁, hfill, hsp₁]
    rfl
  · rw [hsp₁] at hstrings₂
    exact hstrings₂
  · exact hstrings₁.imp fun a s hmem => hold₂ _ hmem

theorem buildStack_built (h : x.stackSize ≤ x.stackLimit) : ∃ b random, buildStack x = some b ∧ Built x b random := by
  obtain ⟨-, hsize⟩ := stackSize_eq x
  obtain ⟨-, hend⟩ := stackEnd_eq x h
  have hroom : 1024 + 8 * (x.argv.length + x.envp.length) + stringsSize x.envp + stringsSize x.argv ≤ x.stackEnd := by
    omega
  have hcap : x.tblCap = x.argv.length + x.envp.length + 32 := rfl
  have hlength := blank_length x
  clear hsize hend
  obtain ⟨b₁, b₂, hb₁, hb₂, hsp, hstacked, htbl, hargs, henv⟩ :=
    pushStrings_both (x := x) (by omega : 16 + stringsSize x.envp + stringsSize x.argv ≤ x.stackEnd)
  obtain ⟨random, hrandom⟩ : ∃ random, random + 32 + stringsSize x.envp + stringsSize x.argv = x.stackEnd :=
    ⟨x.stackEnd - (32 + stringsSize x.envp + stringsSize x.argv), by omega⟩
  have hbelow : b₂.sp - 16 = random := by omega
  have haddr : x.stackEnd - 16 = random + 16 + stringsSize x.argv + stringsSize x.envp := by omega
  have haddr' : x.stackEnd - 16 - stringsSize x.envp = random + 16 + stringsSize x.argv := by omega
  rw [haddr'] at hargs htbl
  rw [haddr] at henv htbl
  have haux := auxv_length x random
  have hlength₂ : b₂.tbl.length = x.argv.length + x.envp.length + 3 := by
    rw [htbl]
    simp only [List.length_append, List.length_cons, addresses_length, List.length_nil]
    omega
  have htable : (b₂.tbl ++ auxv x random).length = x.argv.length + x.envp.length + 3 + (auxv x random).length := by
    rw [List.length_append, hlength₂]
  have hbytes : x.randomBytes.length = 16 := x.randomLen
  have hrandoms : Stacked x.stackEnd random (b₂.copies ++ [(random, x.randomBytes)]) :=
    hstacked.append le_rfl (by omega) (by omega)
  have hafter := hrandoms.append (c := (b₂.tbl ++ auxv x random).flatMap le64)
    (le_refl (random / 16 * 16 - 8 * (b₂.tbl ++ auxv x random).length)) (by rw [flatMap_le64_length]; omega) (by omega)
  have hinit : Build.pushAll x.tblCap (blank x) ⟨x.stackEnd - 16, [], []⟩ = some ⟨x.stackEnd - 16, [], blank x⟩ :=
    pushAll_eq _ (by rw [List.length_nil]; omega)
  have hbuild : buildStack x = some ⟨random / 16 * 16 - (b₂.tbl ++ auxv x random).length * 8,
      b₂.copies ++ [(random, x.randomBytes)] ++
        [(random / 16 * 16 - (b₂.tbl ++ auxv x random).length * 8, (b₂.tbl ++ auxv x random).flatMap le64)],
      b₂.tbl ++ auxv x random⟩ := by
    rw [blank] at hinit
    have haux : Build.pushAll x.tblCap (auxv x random) ⟨random / 16 * 16, b₂.copies ++ [(random, x.randomBytes)], b₂.tbl⟩ =
        some ⟨random / 16 * 16, b₂.copies ++ [(random, x.randomBytes)], b₂.tbl ++ auxv x random⟩ :=
      pushAll_eq _ (by dsimp only; omega)
    rw [buildStack, hinit, Option.bind_some, ← blank, hb₁, Option.bind_some, hb₂, Option.bind_some, hbelow]
    dsimp only
    rw [haux, Option.map_some]
  rw [Nat.mul_comm _ 8] at hbuild
  refine ⟨_, random, hbuild, hrandom, ?_, ?_, hafter, ?_, ?_, ?_, ?_⟩
  · dsimp only
    omega
  · rw [htbl, List.cons_append, List.append_assoc, List.cons_append, List.append_assoc]
    rfl
  · exact List.mem_append_right _ (List.mem_singleton.2 rfl)
  · exact List.mem_append_left _ (List.mem_append_right _ (List.mem_singleton.2 rfl))
  · exact hargs.imp fun a s hmem => List.mem_append_left _ (List.mem_append_left _ hmem)
  · exact henv.imp fun a s hmem => List.mem_append_left _ (List.mem_append_left _ hmem)

theorem Built.layout {random : Nat} (h : Built x b random) (mem : Nat → UInt8) :
    Layout x b (apply b.copies mem) (addresses (random + 16 + stringsSize x.argv) x.argv)
      (addresses (random + 16 + stringsSize x.argv + stringsSize x.envp) x.envp) random where
  argc := addresses_length ..
  envc := addresses_length ..
  table := by
    have hread := read_apply (m := mem) h.stacked.apart h.table
    rw [flatMap_le64_length] at hread
    rw [hread, h.tbl]
  args := h.args.imp fun a s hmem => by
    have hread := read_apply (m := mem) h.stacked.apart hmem
    rw [List.length_append] at hread
    exact hread
  env := h.env.imp fun a s hmem => by
    have hread := read_apply (m := mem) h.stacked.apart hmem
    rw [List.length_append] at hread
    exact hread
  bytes := by
    have hread := read_apply (m := mem) h.stacked.apart h.bytes
    rw [x.randomLen] at hread
    exact hread

theorem Built.length_tbl {random : Nat} (h : Built x b random) :
    b.tbl.length = x.argv.length + x.envp.length + 3 + (auxv x random).length := by
  rw [h.tbl]
  simp only [List.length_append, List.length_cons, addresses_length]
  omega

/-- The pointer is aligned before an odd or an even number of table entries is put below it. -/
theorem Built.aligned_iff {random : Nat} (h : Built x b random) :
    b.sp % 16 = 0 ↔ (x.argv.length + x.envp.length) % 2 = 1 := by
  have haux := auxv_length x random
  have hlength := h.length_tbl
  have hsp := h.sp
  omega

/-- With an odd number of strings, the rounding of the size leaves room for the twelfth pair. -/
theorem Built.above {random : Nat} (h : Built x b random) (hle : x.stackSize ≤ x.stackLimit)
    (hodd : (x.argv.length + x.envp.length) % 2 = 1) : x.stackBase ≤ b.sp := by
  have haux := auxv_length x random
  have hlength := h.length_tbl
  have hsp := h.sp
  have hbelow := h.below
  have hargs := stringsSize_mod x.argv
  have henv := stringsSize_mod x.envp
  have hsize := stackSize_eq x
  have hend := (stackEnd_eq x hle).1
  rw [Exec.stackBase]
  omega

theorem execStack_wellFormed_iff (x : Exec) :
    (x.stackSize ≤ x.stackLimit → ∃ b, buildStack x = some b ∧ WellFormed x b) ↔
      x.stackLimit < x.stackSize ∨ (x.argv.length + x.envp.length) % 2 = 1 := by
  constructor
  · intro h
    by_cases hle : x.stackSize ≤ x.stackLimit
    · obtain ⟨b, hb, hwell⟩ := h hle
      obtain ⟨b', random, hb', hbuilt⟩ := buildStack_built hle
      rw [hb, Option.some.injEq] at hb'
      subst hb'
      exact Or.inr (hbuilt.aligned_iff.1 hwell.aligned)
    · exact Or.inl (not_le.1 hle)
  · intro h hle
    obtain hlt | hodd := h
    · exact absurd hle (not_le.2 hlt)
    · obtain ⟨b, random, hb, hbuilt⟩ := buildStack_built hle
      refine ⟨b, hb, ?_, hbuilt.aligned_iff.2 hodd, hbuilt.stacked.apart, fun mem => ⟨_, _, random, hbuilt.layout mem⟩⟩
      intro c hc
      have hin := hbuilt.stacked.inside c hc
      exact ⟨(hbuilt.above hle hodd).trans hin.1, hin.2⟩

/-- Two strings that fill the page the size was rounded to, for a program with headers and an interpreter. -/
def fullPage : Exec where
  argv := [⟨List.replicate 3 97, by decide⟩, ⟨List.replicate 3823 97, fun h => absurd (List.eq_of_mem_replicate h) (by decide)⟩]
  envp := []
  phdrVaddr := 0x400040
  phent := 56
  phnum := 9
  entryPoint := 0x401000
  interpEntry := 0x7F001000
  interpBase := 0x7F000000
  uid := 0
  euid := 0
  gid := 0
  egid := 0
  randomBytes := List.replicate 16 0
  randomLen := List.length_replicate
  randomTop := 0
  rlimit := 0x800000

theorem fullPage_strings : stringsSize fullPage.argv = 3832 ∧ stringsSize fullPage.envp = 0 := by
  have hshort : taskAlignUp ((List.replicate 3 (97 : UInt8)).length + 1) 8 = 8 := rfl
  have hlong : taskAlignUp ((List.replicate 3823 (97 : UInt8)).length + 1) 8 = 3824 := by
    rw [List.length_replicate, taskAlignUp]
  rw [fullPage, stringsSize_cons, stringsSize_cons, hshort, hlong]
  exact ⟨rfl, rfl⟩

/-- The stack pointer is 8 modulo 16, and 8 bytes of the table are below the range. -/
theorem fullPage_malformed : ¬ (fullPage.stackSize ≤ fullPage.stackLimit → ∃ b, buildStack fullPage = some b ∧ WellFormed fullPage b) ∧
    ∃ b, buildStack fullPage = some b ∧ b.sp % 16 = 8 ∧ b.sp + 8 = fullPage.stackBase := by
  obtain ⟨hargs, henv⟩ := fullPage_strings
  have hsize : fullPage.stackSize = 4096 := by
    have hargc : fullPage.argv.length = 2 := rfl
    have henvc : fullPage.envp.length = 0 := rfl
    have hpage : taskAlignUp 4096 PAGE_SIZE = 4096 := rfl
    rw [Exec.stackSize, taskInitialStackSize, hargc, henvc, if_pos Nat.two_pos, hargs, henv, hpage]
    exact if_neg (lt_irrefl _)
  have hle : fullPage.stackSize ≤ fullPage.stackLimit := hsize.le.trans (by decide)
  obtain ⟨b, random, hb, hbuilt⟩ := buildStack_built hle
  have hend := (stackEnd_eq fullPage hle).1
  have hlength : b.tbl.length = 29 := hbuilt.length_tbl
  have hsp := hbuilt.sp
  have hbelow := hbuilt.below
  have hbase : fullPage.stackBase = fullPage.stackEnd - 4096 := by rw [Exec.stackBase, hsize]
  have hmod : b.sp % 16 = 8 := by omega
  refine ⟨fun h => ?_, b, hb, hmod, by omega⟩
  obtain ⟨b', hb', hwell⟩ := h hle
  rw [hb, Option.some.injEq] at hb'
  subst hb'
  have haligned := hwell.aligned
  omega

end Lebirun.Tasks.ExecStack
