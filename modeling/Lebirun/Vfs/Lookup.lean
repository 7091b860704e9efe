import Mathlib
import Lebirun.Lib.Chase
import Lebirun.Vfs.Path

namespace Lebirun.Vfs
open Machine
set_option autoImplicit true

/-- An in-use entry of the namespace's mount table. -/
structure Mount (Node : Type*) where
  path : Text
  root : Node
  deriving DecidableEq

/-- The file systems as a lookup meets them. `search` is the permission test on a directory,
`finddir` is `vfs_finddir`, `ptr` the mounted root of a node with `VFS_MOUNTPOINT`, and `readlink` the
text of a symbolic link, none when it is empty or cannot be read. -/
structure Fs (Node : Type*) where
  root : Node
  search : Node → Bool
  finddir : Node → Text → Option Node
  ptr : Node → Option Node
  parent : Node → Option Node
  isSymlink : Node → Bool
  readlink : Node → Option Text
  mounts : List (Mount Node)
  squashfsAccessBlocked : Bool

/-- `current_task`; the working directory is empty when `cwd` is null. -/
structure Task where
  isUser : Bool
  root : Option Text
  cwd : Text

def vfsResolvePath (task : Task) (path : Text) : Text :=
  if path.head? = some '/' then path
  else
    let cwd := if task.cwd = [] then ['/'] else task.cwd
    if cwd.getLast? = some '/' then cwd ++ path else cwd ++ '/' :: path

def vfsApplyTaskRoot (task : Task) (redirectedBefore : Bool) (path : Text) : Text :=
  match if task.isUser then task.root else none with
  | none => path
  | some root =>
    if redirectedBefore && startsAt path root then path
    else
      vfsNormalizePath
        ((if 1 < root.length ∧ root.getLast? = some '/' then root.dropLast else root) ++ path)

/-- One entry of the table against the longest match so far. -/
def mountStep (path : Text) (best : Option (Mount Node)) (m : Mount Node) : Option (Mount Node) :=
  if m.path.length ≤ (best.map fun b => b.path.length).getD 0 then best
  else if startsAt path m.path || (m.path = ['/'] && path.head? = some '/') then some m
  else best

def findMountForPath (mounts : List (Mount Node)) (path : Text) : Option (Mount Node) :=
  mounts.foldl (mountStep path) none

/-- `rest` are the components of `rest_raw`. -/
def vfsBuildSymlinkPath (baseDir target : Text) (rest : List Text) : Text :=
  let base :=
    if target.head? = some '/' then []
    else if baseDir.getLast? = some '/' then baseDir else baseDir ++ ['/']
  vfsNormalizePath (base ++ target ++ tailText rest)

/-- The path of the walk with its last component cut off. -/
def cutLast (pfx : Text) : Text :=
  if pfx = ['/'] then pfx
  else
    match ((pfx.reverse.dropWhile (· ≠ '/')).drop 1).reverse with
    | [] => ['/']
    | cut => cut

def extendPath (pfx comp : Text) : Text :=
  if 1 < pfx.length then pfx ++ '/' :: comp else pfx ++ comp

/-- The entry `comp` of a directory, or the file system mounted on it. -/
def Fs.enter (fs : Fs Node) (node : Node) (comp : Text) : Option Node :=
  ((if fs.search node then fs.finddir node comp else none)).map fun next =>
    (fs.ptr next).getD next

/-- The target of a link that the walk follows: one with more components after it, or any when the
last component is followed too. -/
def Fs.followed (fs : Fs Node) (followFinal : Bool) (rest : List Text) (next : Node) : Option Text :=
  if (rest ≠ [] || followFinal) && fs.isSymlink next then fs.readlink next else none

/-- The walk over the components of `remaining`. A result is a node, null, or a redirected path. -/
def walk (fs : Fs Node) (followFinal : Bool) : Node → Text → List Text → Option Node ⊕ Text
  | node, _, [] => .inl (some node)
  | node, pfx, comp :: rest =>
    if comp = dot then walk fs followFinal node pfx rest
    else if comp = dotdot then
      match fs.parent node with
      | some parent => walk fs followFinal parent (cutLast pfx) rest
      | none => walk fs followFinal node pfx rest
    else
      match fs.enter node comp with
      | none => .inl none
      | some next =>
        match fs.followed followFinal rest next with
        | some target => .inr (vfsBuildSymlinkPath pfx target rest)
        | none => walk fs followFinal next (extendPath pfx comp) rest

def squashfsPath : Text := ['/', 's', 'q', 'u', 'a', 's', 'h', 'f', 's']

/-- `vfs_namei_once_dynamic` from the resolved path on. -/
def lookResolved (fs : Fs Node) (followFinal : Bool) (resolved : Text) : Option Node ⊕ Text :=
  if resolved.head? ≠ some '/' then .inl none
  else if fs.squashfsAccessBlocked && startsAt resolved squashfsPath then .inl none
  else if resolved = ['/'] then .inl (some fs.root)
  else
    match findMountForPath fs.mounts resolved with
    | some m =>
      walk fs followFinal m.root
        (if 1 < m.path.length ∧ m.path.getLast? = some '/' then m.path.dropLast else m.path)
        (components (resolved.drop m.path.length))
    | none => walk fs followFinal fs.root ['/'] (components (resolved.drop 1))

def resolved (task : Task) (redirectedBefore : Bool) (path : Text) : Text :=
  vfsApplyTaskRoot task redirectedBefore (vfsNormalizePath (vfsResolvePath task path))

def vfsNameiOnceDynamic (fs : Fs Node) (task : Task) (followFinal redirectedBefore : Bool)
    (path : Text) : Option Node ⊕ Text :=
  lookResolved fs followFinal (resolved task redirectedBefore path)

/-- `SIZE_MAX / sizeof(char *)` -/
def maxRedirects : Nat := 2 ^ 61 - 1

/-- `Namei fs task followFinal path result`: `vfs_namei_internal` returns `result`. -/
def Namei (fs : Fs Node) (task : Task) (followFinal : Bool) (path : Text) (result : Option Node) :
    Prop :=
  Returns (fun count => vfsNameiOnceDynamic fs task followFinal (count ≠ 0)) maxRedirects none path
    result

/-- The lookups of one call when other tasks change the file systems between them: `fs n` are the file
systems after `n` redirections and `mem n` says whether that turn's allocations succeed. -/
def nameiLookups (fs : Nat → Fs Node) (mem : Nat → Bool) (task : Task) (followFinal : Bool)
    (count : Nat) (path : Text) : Option Node ⊕ Text :=
  if mem count then vfsNameiOnceDynamic (fs count) task followFinal (count ≠ 0) path else .inl none

/-- Whatever links a user makes, a lookup returns within `SIZE_MAX / sizeof(char *)` redirections. -/
theorem vfs_namei_returns (fs : Nat → Fs Node) (mem : Nat → Bool) (task : Task)
    (followFinal : Bool) (path : Text) :
    ∃ n ≤ maxRedirects + 1, ∃ result,
      turns (nameiLookups fs mem task followFinal) maxRedirects none n (path, []) = .inl result :=
  turns_return _ none (Nat.zero_add _)

end Lebirun.Vfs
