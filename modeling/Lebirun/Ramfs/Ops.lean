import Mathlib
import Lebirun.Ramfs.State

namespace Lebirun.Ramfs
set_option autoImplicit true

abbrev errNoent : Int := -2
abbrev errExist : Int := -3
abbrev errNotdir : Int := -4
abbrev errIsdir : Int := -5
abbrev errNotempty : Int := -6
abbrev errNospc : Int := -7
abbrev errInval : Int := -8
abbrev errNomem : Int := -1
abbrev errPerm : Int := -10

abbrev sealSeal : BitVec 32 := 0x1
abbrev sealShrink : BitVec 32 := 0x2
abbrev sealGrow : BitVec 32 := 0x4
abbrev sealWrite : BitVec 32 := 0x8
abbrev sealAll : BitVec 32 := 0x1f

/-- The bytes that a write needs in the buffer from the file the kernel was loaded with. -/
def Entry.backed (e : Entry) : Nat := if e.data = [] then min e.backing.length e.length else 0

/-- The buffer of `n` bytes that `krealloc` gives, filled from the old one or the backing. -/
def Entry.grown (e : Entry) (n : Nat) : List UInt8 :=
  let old := if e.data = [] then e.backing.take e.backed else e.data
  old ++ List.replicate (n - old.length) 0

/-- `memcpy` into the buffer. -/
def splice (data : List UInt8) (offset : Nat) (bytes : List UInt8) : List UInt8 :=
  data.take offset ++ bytes ++ data.drop (offset + bytes.length)

/-- `ramfs_shrink_node_data`; `mem` is whether `krealloc` gives the smaller buffer. -/
def Entry.shrunk (e : Entry) (length : Nat) (mem : Bool) : List UInt8 :=
  if e.data = [] || length = 0 || e.capacity ≤ length then e.data
  else if mem then e.data.take length
  else e.data.take length ++ List.replicate (e.capacity - length) 0

/-- The bytes of a symlink, with the terminating NUL. -/
def targetBytes (target : List UInt8) : List UInt8 := target ++ [0]

namespace State

variable (s : State)

/-- `ramfs_vfs_create`; `sock` is `VFS_CREATE_SOCKET`, `mem` whether the node and its name are
allocated. -/
def vfsCreate (d : Nat) (name : Text) (excl sock mem : Bool) : Int × State :=
  if s.kindOf d ≠ some .dir then (errNotdir, s)
  else if (s.findChild d name).isSome then (if excl then errExist else 0, s)
  else if !s.limitsFits (s.limitsOf d) 0 1 then (errNospc, s)
  else if !mem then (errNomem, s)
  else
    let e := { Entry.new name (if sock then .socket else .file) with limits := s.limitsOf d }
    let s := (s.addEntry d e).limitsAdd (s.limitsOf d) 0 1
    (0, { s with fileCount := add64 s.fileCount 1 })

def mknodNode (d : Nat) (name : Text) (sock mem : Bool) : Int × State :=
  if s.kindOf d ≠ some .dir then (errNotdir, s)
  else if (s.findChild d name).isSome then (errExist, s)
  else if !s.limitsFits (s.limitsOf d) 0 1 then (errNospc, s)
  else if !mem then (errNomem, s)
  else
    let e := { Entry.new name (if sock then .socket else .fifo) with limits := s.limitsOf d }
    let s := (s.addEntry d e).limitsAdd (s.limitsOf d) 0 1
    (0, { s with fileCount := add64 s.fileCount 1 })

def vfsMkdir (d : Nat) (name : Text) (mem : Bool) : Int × State :=
  if s.kindOf d ≠ some .dir then (-20, s)
  else if (s.findChild d name).isSome then (-17, s)
  else if !s.limitsFits (s.limitsOf d) 0 1 then (errNospc, s)
  else if !mem then (-12, s)
  else
    let e := { Entry.new name .dir with limits := s.limitsOf d }
    let s := (s.addEntry d e).limitsAdd (s.limitsOf d) 0 1
    (0, { s with dirCount := add64 s.dirCount 1 })

/-- `ramfs_create_symlink_node` -/
def createSymlinkNode (d : Nat) (name : Text) (target : List UInt8) (mem : Bool) : Int × State :=
  if s.kindOf d ≠ some .dir then (errNotdir, s)
  else if (s.findChild d name).isSome then (errExist, s)
  else if !s.checkSpace target.length then (errNospc, s)
  else if !s.limitsFits (s.limitsOf d) target.length 1 then (errNospc, s)
  else if !mem then (errNomem, s)
  else
    let e := { Entry.new name .symlink with
      limits := s.limitsOf d
      data := targetBytes target
      length := target.length }
    let s := ({ s.addEntry d e with usedSize := add64 s.usedSize target.length }).limitsAdd
      (s.limitsOf d) target.length 1
    (0, { s with fileCount := add64 s.fileCount 1 })

/-- `ramfs_create_symlink`, in a directory of the ramfs tree; the entry has no limits. -/
def createSymlink (d : Nat) (name : Text) (target : List UInt8) (mem : Bool) : Int × State :=
  if target = [] then (errInval, s)
  else if s.kindOf d ≠ some .dir then (errNoent, s)
  else if (s.findChild d name).isSome then (errExist, s)
  else if !s.checkSpace (target.length + 1) then (errNospc, s)
  else if !mem then (errNomem, s)
  else
    let e := { Entry.new name .symlink with data := targetBytes target, length := target.length }
    let s := { s.addEntry d e with usedSize := add64 s.usedSize target.length }
    (0, { s with fileCount := add64 s.fileCount 1 })

/-- The new name of an inode, first in the list of its later names. -/
def addLink (d t : Nat) (name : Text) : State :=
  let s' := s.modify t fun e => { e with hardlinks := s.next :: e.hardlinks }
  s'.addEntry d { Entry.new name .file with linkTarget := some t, limits := s.limitsOf d }

/-- `ramfs_link_node` -/
def linkNode (source d : Nat) (name : Text) (mem : Bool) : Int × State :=
  let t := s.inode source
  if s.kindOf t ≠ some .file || s.kindOf d ≠ some .dir then (errInval, s)
  else if s.limitsOf t ≠ s.limitsOf d then (-18, s)
  else if (s.findChild d name).isSome then (errExist, s)
  else if !s.limitsFits (s.limitsOf d) 0 1 then (errNospc, s)
  else if !mem then (errNomem, s)
  else
    let s := (s.addLink d t name).limitsAdd (s.limitsOf d) 0 1
    (0, { s with fileCount := add64 s.fileCount 1 })

def vfsUnlink (d : Nat) (name : Text) : Int × State :=
  if s.kindOf d ≠ some .dir then (-20, s)
  else
    match s.findChild d name with
    | none => (-2, s)
    | some i =>
      if s.kindOf i = some .dir && s.kids i ≠ [] then (-39, s)
      else (0, (s.detach d i).disposeRemoved i)

/-- The entry leaves one directory for the front of another under a new name. -/
def moveEntry (d i d' : Nat) (name : Text) : State :=
  ((s.detach d i).modify i fun e => { e with name := name, parent := some d' }).modify d' fun e =>
    { e with children := i :: e.children }

/-- `ramfs_vfs_rename` -/
def vfsRename (d : Nat) (name : Text) (d' : Nat) (name' : Text) (mem : Bool) : Int × State :=
  if s.kindOf d ≠ some .dir || s.kindOf d' ≠ some .dir then (errNotdir, s)
  else if s.limitsOf d ≠ s.limitsOf d' then (-18, s)
  else
    match s.findChild d name with
    | none => (errNoent, s)
    | some i =>
      if !mem then (errNomem, s)
      else
        match s.findChild d' name' with
        | none => (0, s.moveEntry d i d' name')
        | some j =>
          if j = i then (0, s)
          else if s.kindOf j = some .dir && s.kids j ≠ [] then (errNotempty, s)
          else (0, ((s.detach d' j).disposeRemoved j).moveEntry d i d' name')

def swapNames (i j : Nat) : State :=
  let name := fun k => ((s.entries k).map Entry.name).getD []
  (s.modify i fun e => { e with name := name j }).modify j fun e => { e with name := name i }

/-- `ramfs_exchange_nodes` -/
def exchangeNodes (d : Nat) (name : Text) (d' : Nat) (name' : Text) : Int × State :=
  if s.kindOf d ≠ some .dir || s.kindOf d' ≠ some .dir then (errNotdir, s)
  else
    match s.findChild d name, s.findChild d' name' with
    | some i, some j =>
      if i = j then (0, s)
      else
        let s := s.swapNames i j
        if d = d' then (0, s)
        else
          let s := (s.detach d i).detach d' j
          let s := (s.modify d' fun e => { e with children := i :: e.children }).modify d fun e =>
            { e with children := j :: e.children }
          (0, (s.modify i fun e => { e with parent := some d' }).modify j fun e =>
            { e with parent := some d })
    | _, _ => (errNoent, s)

/-- `ramfs_create_memfd` and the `vfs_open` of its node. -/
def createMemfd (name : Text) (mem : Bool) : Int × State :=
  if name = [] || '/' ∈ name || !mem then (errNomem, s)
  else
    let e := { Entry.new name .file with isMemfd := true, vfsNode := some ⟨1, true⟩ }
    (0, { s with
      entries := Table.put s.entries s.next e
      next := s.next + 1
      origin := Function.update s.origin s.next s.next
      opens := Function.update s.opens s.next 1
      fileCount := add64 s.fileCount 1 })

/-- The data of an inode given up. -/
def dropData (t : Nat) : State :=
  match s.entries t with
  | none => s
  | some e =>
    let s := if e.capacity = 0 then s else s.refund e.limits e.capacity
    s.modify t fun e => { e with data := [], backing := [], length := 0 }

/-- Whether `ramfs_get_vfs_node` sets the open and close functions of the node. -/
def hasCallbacks (i : Nat) : Bool :=
  s.kindOf i = some .file || s.kindOf i = some .dir || s.kindOf i = some .symlink

/-- `vfs_open` of the node of an entry, made by the lookup when there is none; `trunc` is
`VFS_O_TRUNC`. -/
def vfsOpen (i : Nat) (trunc : Bool) : State :=
  let s := s.modify i fun e =>
    { e with vfsNode := some (e.vfsNode.elim ⟨1, false⟩ fun v => ⟨v.refCount + 1, v.embedded⟩) }
  let s := { s with opens := Function.update s.opens i (s.opens i + 1) }
  if trunc && s.hasCallbacks i && s.kindOf (s.inode i) = some .file then s.dropData (s.inode i) else s

/-- `vfs_close` with `ramfs_vfs_close`. -/
def vfsClose (i : Nat) : State :=
  let s := { s with opens := Function.update s.opens i (s.opens i - 1) }
  if s.refs i = 0 then s
  else
    let s := s.modify i fun e =>
      { e with vfsNode := e.vfsNode.map fun v => ⟨v.refCount - 1, v.embedded⟩ }
    if s.hasCallbacks i && s.embedded i && s.refs i = 0 then s.destroyEntry i else s

/-- `ramfs_write_data_locked` on an inode. -/
def writeDataLocked (t : Nat) (e : Entry) (offset : Nat) (bytes : List UInt8) (mem : Bool) :
    Int × State :=
  let needed := offset + bytes.length
  if e.isMemfd && (e.seals &&& sealWrite ≠ 0 || (needed > e.length && e.seals &&& sealGrow ≠ 0)) then
    (errPerm, s)
  else
    let newCap := max needed e.backed
    if e.capacity < newCap then
      let more := newCap - e.capacity
      if !(s.checkSpace more && s.limitsFits e.limits more 0) then (errNospc, s)
      else if !mem then (errNomem, s)
      else
        (0, (s.charge e.limits more).modify t fun e => { e with
          data := splice (e.grown newCap) offset bytes
          backing := []
          length := max e.length needed })
    else
      (0, s.modify t fun e => { e with
        data := splice e.data offset bytes
        length := max e.length needed })

/-- `ramfs_vfs_write` -/
def vfsWrite (i offset : Nat) (bytes : List UInt8) (mem : Bool) : Nat × State :=
  if bytes = [] || offset + bytes.length > 18446744073709551615 then (0, s)
  else
    match s.entries (s.inode i) with
    | none => (0, s)
    | some e =>
      if e.kind ≠ .file then (0, s)
      else
        let r := s.writeDataLocked (s.inode i) e offset bytes mem
        (if r.1 = 0 then bytes.length else 0, r.2)

/-- `ramfs_vfs_truncate` -/
def vfsTruncate (i length : Nat) (mem : Bool) : Int × State :=
  match s.entries (s.inode i) with
  | none => (errIsdir, s)
  | some e =>
    if e.kind ≠ .file then (errIsdir, s)
    else if e.isMemfd && length < e.length && e.seals &&& sealShrink ≠ 0 then (-1, s)
    else if e.isMemfd && length > e.length && e.seals &&& sealGrow ≠ 0 then (-1, s)
    else if length = 0 then (0, s.dropData (s.inode i))
    else if length < e.length then
      let data := e.shrunk length mem
      (0, (s.refund e.limits (e.capacity - data.length)).modify (s.inode i) fun e => { e with
        data := data
        backing := e.backing.take length
        length := length })
    else (0, s.modify (s.inode i) fun e => { e with length := max e.length length })

/-- `ramfs_node_add_seals`; `mapped` is whether the node is mapped shared and writable. -/
def nodeAddSeals (i : Nat) (seals : BitVec 32) (mapped : Bool) : Int × State :=
  match s.entries i with
  | none => (-22, s)
  | some e =>
    if seals &&& ~~~sealAll ≠ 0 || e.kind ≠ .file || !e.isMemfd then (-22, s)
    else if e.seals &&& sealSeal ≠ 0 then (-1, s)
    else if seals &&& sealWrite ≠ 0 && e.seals &&& sealWrite = 0 && mapped then (-16, s)
    else (0, s.modify i fun e => { e with seals := e.seals ||| seals })

/-- `tmpfs_vfs_do_mount` with the maxima its options give. -/
def tmpfsMount (maxBytes maxInodes : Nat) (mem : Bool) : State :=
  if !mem then s
  else
    let e := { Entry.new [] .dir with limits := some s.nextLimits, vfsNode := some ⟨0, false⟩ }
    { s with
      entries := Table.put s.entries s.next e
      next := s.next + 1
      roots := s.next :: s.roots
      origin := Function.update s.origin s.next s.next
      limits := Function.update s.limits s.nextLimits ⟨maxBytes, maxInodes, 0, 1⟩
      nextLimits := s.nextLimits + 1
      dirCount := add64 s.dirCount 1 }

/-- `ramfs_vfs_read`: the bytes from `offset`, zeros past the buffer. -/
def vfsRead (i offset size : Nat) : List UInt8 :=
  match s.entries (s.inode i) with
  | none => []
  | some e =>
    if e.kind ≠ .file && e.kind ≠ .symlink then []
    else
      let n := min size (e.length - offset)
      let stored :=
        if offset < e.capacity then (e.data.drop offset).take n else (e.backing.drop offset).take n
      stored ++ List.replicate (n - stored.length) 0

/-- `ramfs_node_link_count`, 1 for a node without `ramfs_vfs_read`. -/
def nodeLinkCount (i : Nat) : Nat :=
  if s.kindOf i ≠ some .file && s.kindOf i ≠ some .symlink then 1
  else (s.inode i :: s.later (s.inode i)).countP fun e => (s.par e).isSome

end State

/-- An entry as a call names it: by the path from a root, or as an open node. -/
inductive Place where
  | path (root : Nat) (names : List Text)
  | node (i : Nat)

def State.find (s : State) : Place → Option Nat
  | .path root names => if root ∈ s.roots then s.walk root names else none
  | .node i => if 0 < s.opens i then some i else none

/-- A directory, by its path. -/
structure DirPath where
  root : Nat
  names : List Text

def State.dir (s : State) (p : DirPath) : Option Nat := s.find (.path p.root p.names)

inductive Op where
  | create (p : DirPath) (name : Text) (excl sock mem : Bool)
  | mknod (p : DirPath) (name : Text) (sock mem : Bool)
  | mkdir (p : DirPath) (name : Text) (mem : Bool)
  | symlink (p : DirPath) (name : Text) (target : List UInt8) (mem : Bool)
  | symlinkPath (names : List Text) (name : Text) (target : List UInt8) (mem : Bool)
  | link (source : Place) (p : DirPath) (name : Text) (mem : Bool)
  | unlink (p : DirPath) (name : Text)
  | rename (p : DirPath) (name : Text) (p' : DirPath) (name' : Text) (mem : Bool)
  | exchange (root : Nat) (names : List Text) (name : Text) (names' : List Text) (name' : Text)
  | openNode (place : Place) (trunc : Bool)
  | close (i : Nat)
  | write (place : Place) (offset : Nat) (bytes : List UInt8) (mem : Bool)
  | truncate (place : Place) (length : Nat) (mem : Bool)
  | memfd (name : Text) (mem : Bool)
  | addSeals (i : Nat) (seals : BitVec 32) (mapped : Bool)
  | mount (maxBytes maxInodes : Nat) (mem : Bool)

/-- One call; nothing happens when a path or a node is not there. -/
def step (s : State) : Op → State
  | .create p name excl sock mem => (s.dir p).elim s fun d => (s.vfsCreate d name excl sock mem).2
  | .mknod p name sock mem => (s.dir p).elim s fun d => (s.mknodNode d name sock mem).2
  | .mkdir p name mem => (s.dir p).elim s fun d => (s.vfsMkdir d name mem).2
  | .symlink p name target mem =>
    (s.dir p).elim s fun d => (s.createSymlinkNode d name target mem).2
  | .symlinkPath names name target mem =>
    (s.dir ⟨0, names⟩).elim s fun d => (s.createSymlink d name target mem).2
  | .link source p name mem =>
    (s.find source).elim s fun i => (s.dir p).elim s fun d => (s.linkNode i d name mem).2
  | .unlink p name => (s.dir p).elim s fun d => (s.vfsUnlink d name).2
  | .rename p name p' name' mem =>
    (s.dir p).elim s fun d => (s.dir p').elim s fun d' => (s.vfsRename d name d' name' mem).2
  | .exchange root names name names' name' =>
    (s.dir ⟨root, names⟩).elim s fun d => (s.dir ⟨root, names'⟩).elim s fun d' =>
      (s.exchangeNodes d name d' name').2
  | .openNode place trunc => (s.find place).elim s fun i => s.vfsOpen i trunc
  | .close i => if 0 < s.opens i then s.vfsClose i else s
  | .write place offset bytes mem =>
    (s.find place).elim s fun i => (s.vfsWrite i offset bytes mem).2
  | .truncate place length mem => (s.find place).elim s fun i => (s.vfsTruncate i length mem).2
  | .memfd name mem => (s.createMemfd name mem).2
  | .addSeals i seals mapped => if 0 < s.opens i then (s.nodeAddSeals i seals mapped).2 else s
  | .mount maxBytes maxInodes mem => s.tmpfsMount maxBytes maxInodes mem

/-- `ramfs_init` -/
def State.start (totalSize : Nat) : State where
  entries := Table.put (fun _ => none) 0 { Entry.new ['/'] .dir with vfsNode := some ⟨0, false⟩ }
  next := 1
  roots := [0]
  limits _ := ⟨0, 0, 0, 0⟩
  nextLimits := 0
  totalSize := totalSize
  usedSize := 0
  fileCount := 0
  dirCount := 1
  origin i := i
  opens _ := 0
  freed := []

end Lebirun.Ramfs
