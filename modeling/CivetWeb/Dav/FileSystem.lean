import CivetWeb.Lib.FileTree
import CivetWeb.Http.Uri

namespace CivetWeb

open FileTree

abbrev FileSys := Tree (List Byte) (List Byte)

/-- What the server's process may do, and where it stands. A call that is denied fails with that
error, whatever its reason; `diskSpace` is how much can be written to a file, `closeFails` a file that
cannot be written back when it is closed. -/
structure Process where
  cwd : List (List Byte)
  statDenied : List Byte → Option Errno
  removeDenied : List Byte → Option Errno
  renameDenied : List Byte → List Byte → Option Errno
  mkdirDenied : List Byte → Option Errno
  openDenied : List Byte → Option Errno
  writable : List Byte → Bool
  diskSpace : Nat
  closeFails : Bool

def pathComp (c : List Byte) : Comp (List Byte) :=
  if c = [DOT] then .here else if c = [DOT, DOT] then .up else .name c

/-- A path as the system calls take it; several slashes count as one. -/
def Process.fileName (proc : Process) (path : List Byte) : FileName (List Byte) where
  comps := (if deref path = SLASH then [] else proc.cwd.map .name) ++
    ((path.splitOn SLASH).filter (· ≠ [])).map pathComp
  slash := path.getLast? == some SLASH

/-- `stat`. -/
def Process.stat (proc : Process) (fs : FileSys) (path : List Byte) :
    Except Errno (List (List Byte) × Node (List Byte)) :=
  if path = [] then .error .ENOENT
  else
    match proc.statDenied path with
    | some e => .error e
    | none => fs.find (proc.fileName path)

/-- `remove`. -/
def Process.remove (proc : Process) (fs : FileSys) (path : List Byte) : Except Errno FileSys :=
  if path = [] then .error .ENOENT
  else
    match proc.removeDenied path with
    | some e => .error e
    | none => fs.remove (proc.fileName path)

/-- `rename`. -/
def Process.rename (proc : Process) (fs : FileSys) (old new : List Byte) : Except Errno FileSys :=
  if old = [] ∨ new = [] then .error .ENOENT
  else
    match proc.renameDenied old new with
    | some e => .error e
    | none => fs.rename (proc.fileName old) (proc.fileName new)

/-- `mg_stat`: the node that is found. -/
def Process.mgStat (proc : Process) (fs : FileSys) (path : List Byte) : Option (Node (List Byte)) :=
  match proc.stat fs path with
  | .ok (_, n) => some n
  | .error _ => none

/-- `mkdir`. -/
def Process.mkdir (proc : Process) (fs : FileSys) (path : List Byte) : Except Errno FileSys :=
  if path = [] then .error .ENOENT
  else
    match proc.mkdirDenied path with
    | some e => .error e
    | none => fs.mkdir (proc.fileName path)

/-- `mg_fopen` for writing: the file that is opened, in the file system where it is empty. -/
def Process.mgFopenWrite (proc : Process) (fs : FileSys) (path : List Byte) :
    Option (List (List Byte) × FileSys) :=
  if path = [] then none
  else
    match proc.openDenied path with
    | some _ => none
    | none =>
      match fs.openWrite (proc.fileName path) with
      | .error _ => none
      | .ok p => some (p, fs.set p (some (.file [])))

/-- What is removed is one node, and a removal that fails changes nothing. -/
theorem Process.remove_spec (proc : Process) (fs fs' : FileSys) (path : List Byte)
    (h : proc.remove fs path = .ok fs') :
    ∃ p n, fs.walk (proc.fileName path) = .ok p ∧ fs.node p = some n ∧ fs' = fs.set p none := by
  unfold Process.remove at h
  split_ifs at h
  split at h
  · cases h
  · exact FileTree.remove_spec fs fs' _ h

theorem Process.rename_spec (proc : Process) (fs fs' : FileSys) (old new : List Byte)
    (h : proc.rename fs old new = .ok fs') :
    ∃ s d n, fs.walk (proc.fileName old) = .ok s ∧ fs.node s = some n ∧
      fs.walk (proc.fileName new) = .ok d ∧
      (s = d ∧ fs' = fs ∨
        (∀ q, fs'.node (d ++ q) = fs.node (s ++ q)) ∧ (∀ q, fs'.node (s ++ q) = none) ∧
          ¬ s <+: d ∧ ∀ p, ¬ s <+: p → ¬ d <+: p → fs'.node p = fs.node p) := by
  unfold Process.rename at h
  split_ifs at h
  split at h
  · cases h
  · exact FileTree.rename_spec fs fs' _ _ h

end CivetWeb
