import VeritableLasagna.Filesys.Path

/-!
# The directory iterator

`vl_filesys_iter` walks a directory tree with a stack of open directories. All iterators of the stack
share one path object, the path of the directory on top: a descent joins the name of the current
entry to it, and a pop takes the parent.

What the operating system answers is a parameter (`FileSystem`). A directory stream is modelled by
the directory it reads and the entries `readdir` has not returned yet.
-/

namespace VeritableLasagna

/-! ### The operating system -/

/-- `d_type`, as far as the iterator looks at it. -/
inductive DirentType
  | dir
  | unknown
  | other
  deriving DecidableEq

/-- `struct dirent`. -/
structure Dirent where
  dName : List Char
  dType : DirentType
  deriving DecidableEq

/-- `DIR`: the directory that is read, and the entries that are left. -/
structure DirStream where
  directory : Location
  entries : List Dirent
  deriving DecidableEq

/-- `errno`, as far as the iterator looks at it. -/
inductive Errno
  | eacces
  | enoent
  | enotdir
  | other
  deriving DecidableEq

/-- What the operating system answers: `opendir`, and whether `stat` finds a directory (`none` when
it fails). -/
structure FileSystem where
  opendir : List Char → Except Errno DirStream
  stat : List Char → Option Bool

/-! ### The iterator -/

/-- `vl_filesys_result`. -/
inductive VlFilesysResult
  | success
  | errorAccessDenied
  | errorNotFound
  | errorPathInvalid
  | errorIo
  deriving DecidableEq

/-- `vl_filesys_iter_`, without the path it shares with the others of its stack. -/
structure VlFilesysFrame where
  dir : Option DirStream
  entry : Option Dirent
  recursive : Bool
  deriving DecidableEq

/-- `vl_filesys_iter`: the string of the shared path, the iterator on top and those below it. -/
structure VlFilesysIter where
  dirPath : List Char
  top : VlFilesysFrame
  stackPrev : List VlFilesysFrame
  deriving DecidableEq

/-- `vlFSIterNew`. The path of a new iterator has no string yet. -/
def vlFSIterNew : VlFilesysIter := ⟨[], ⟨none, none, false⟩, []⟩

/-- `vl_FSIterImplicitSkip`: the first entry from `entry` on that is not implicit, and what is left
behind it. -/
def vlFSIterImplicitSkip (entry : Dirent) (entries : List Dirent) :
    Option (Dirent × List Dirent) :=
  if entry.dName = ['.'] ∨ entry.dName = ['.', '.'] then
    match entries with
    | [] => none
    | next :: rest => vlFSIterImplicitSkip next rest
  else some (entry, entries)

/-- `vl_FSIterInit`. -/
def vlFSIterInit (os : FileSystem) (iter : VlFilesysIter) (path : Option (List Char)) :
    VlFilesysResult × VlFilesysIter :=
  match path with
  | none => (.errorPathInvalid, iter)
  | some pathString =>
    let bottom := iter.stackPrev.getLastD iter.top
    let iter := { iter with top := { bottom with dir := none, entry := none }, stackPrev := [] }
    match os.opendir pathString with
    | .error .eacces => (.errorAccessDenied, iter)
    | .error .enoent => (.errorNotFound, iter)
    | .error .enotdir => (.errorPathInvalid, iter)
    | .error .other => (.errorIo, iter)
    | .ok dir =>
      match dir.entries with
      | [] => (.errorNotFound, iter)
      | entry :: entries =>
        match vlFSIterImplicitSkip entry entries with
        | none => (.errorNotFound, iter)
        | some (entry, entries) =>
          (.success, { iter with top :=
            { iter.top with dir := some { dir with entries }, entry := some entry } })

/-- `vlFSIterDirRecursive`. -/
def vlFSIterDirRecursive (os : FileSystem) (iter : VlFilesysIter) (path : Option (List Char)) :
    VlFilesysResult × VlFilesysIter :=
  match vlFSIterInit os iter path with
  | (.success, iter) =>
    (.success, ⟨path.getD iter.dirPath, { iter.top with recursive := true }, []⟩)
  | (initStatus, iter) =>
    (initStatus, { iter with top := { iter.top with dir := none, entry := none } })

/-- The loop of `vlFSIterNext` over `vl_FSIterPop`, at the end of the directory on top: the next entry
of the first directory below that has one. -/
def vlFSIterPopLoop (dirPath : List Char) (top : VlFilesysFrame) :
    List VlFilesysFrame → Except Fault (Bool × VlFilesysIter)
  | [] => .ok (false, ⟨dirPath, top, []⟩)
  | prev :: stackPrev => do
    let dirPath ← vlFSPathParent dirPath
    let dir ← deref prev.dir
    match dir.entries with
    | [] => vlFSIterPopLoop dirPath { prev with entry := none } stackPrev
    | entry :: entries =>
      return (true,
        ⟨dirPath, { prev with dir := some { dir with entries }, entry := some entry }, stackPrev⟩)

/-- The end of `vlFSIterNext`: move to the next entry of the directory on top. -/
def vlFSIterAdvance (iter : VlFilesysIter) (dir : DirStream) :
    Except Fault (Bool × VlFilesysIter) :=
  match dir.entries with
  | [] => vlFSIterPopLoop iter.dirPath { iter.top with dir := none, entry := none } iter.stackPrev
  | entry :: entries =>
    .ok (true, { iter with top :=
      { iter.top with dir := some { dir with entries }, entry := some entry } })

/-- The test of `vlFSIterNext` for a directory. Where `readdir` does not tell, the entry's path is
looked up. -/
def vlFSIterIsDirectory (os : FileSystem) (dirPath : List Char) (entry : Dirent) : Bool :=
  match entry.dType with
  | .dir => true
  | .unknown => os.stat (vlFSPathJoin dirPath entry.dName) = some true
  | .other => false

/-- `vlFSIterNext`. A directory that cannot be opened leaves its name on the shared path. -/
def vlFSIterNext (os : FileSystem) (iter : VlFilesysIter) : Except Fault (Bool × VlFilesysIter) :=
  match iter.top.dir, iter.top.entry with
  | some dir, some entry =>
    if vlFSIterIsDirectory os iter.dirPath entry ∧ iter.top.recursive then
      let childPath := vlFSPathJoin iter.dirPath entry.dName
      match os.opendir childPath with
      | .ok childDir =>
        match childDir.entries.head?.bind (vlFSIterImplicitSkip · childDir.entries.tail) with
        | some (childEntry, childEntries) =>
          .ok (true, ⟨childPath, ⟨some { childDir with entries := childEntries }, some childEntry,
            true⟩, iter.top :: iter.stackPrev⟩)
        | none => do
          let dirPath ← vlFSPathParent childPath
          vlFSIterAdvance { iter with dirPath } dir
      | .error _ => vlFSIterAdvance { iter with dirPath := childPath } dir
    else vlFSIterAdvance iter dir
  | _, _ => .ok (false, iter)

/-- The entry the iterator is at. -/
def VlFilesysIter.current (iter : VlFilesysIter) : Option Location := do
  let dir ← iter.top.dir
  let entry ← iter.top.entry
  return dir.directory.child entry.dName

end VeritableLasagna
