import WinIndex.Indexer
import WinIndex.Lib.PathTree

/-!
# The watched tree

A file tree, what can happen in it below a watched root, and what `ReadDirectoryChangesW` reports of that to `ChangeWatcher`
(src/core/indexer/ChangeWatcher.cpp): one record for a file created or deleted, and an old and a new name for a rename, of a
directory as of a file. The watcher makes events of the records and `ApplyChange` takes them one by one, as late as it may
be. Paths are those of a file system that takes no account of case: the tree knows them folded.
-/

namespace WinIndex

open PathTree

/-- A file tree, its paths folded. -/
abbrev FileTree := Tree backslash AttributeData.isDirectory

/-- The path of a name below the watched root, as the tree knows it. -/
def treePath (Γ : Locale) (root name : WString) : WString := Γ.lower (fullPath root name)

/-- What can happen below the watched root. Names are relative to it, as the records give them. -/
inductive TreeOp where
  | createFile (name : WString) (fad : AttributeData)
  | deleteFile (name : WString)
  | renameFile (oldName newName : WString)
  | renameDirectory (oldName newName : WString)

/-- `CreateFile`: nothing may be there yet. -/
def FileTree.createFile (t : FileTree) (path : WString) (fad : AttributeData) : Option FileTree :=
  if h : t.node path = none ∧ t.HasParents path then some (t.create path fad h.1 h.2) else none

/-- `DeleteFile`. -/
def FileTree.deleteFile (t : FileTree) (path : WString) : Option FileTree :=
  if h : t.IsFile path then some (t.erase path h) else none

/-- `MoveFile` of a directory: the new place is free, and not below the old one. -/
def FileTree.moveDirectory (t : FileTree) (old new : WString) : Option FileTree :=
  if h : t.node new = none ∧ t.HasParents new ∧ ¬Below backslash old new then
    some (t.move old new h.1 h.2.1 h.2.2)
  else none

/-- The tree after an operation; `none` where the operation fails. A rename that changes only the case of a name leaves the
tree as it is. A rename onto an existing file is a deletion of that file, followed by a rename. -/
def TreeOp.apply (Γ : Locale) (root : WString) (t : FileTree) : TreeOp → Option FileTree
  | .createFile name fad => if fad.isDirectory then none else FileTree.createFile t (treePath Γ root name) fad
  | .deleteFile name => FileTree.deleteFile t (treePath Γ root name)
  | .renameFile oldName newName =>
    let old := treePath Γ root oldName
    let new := treePath Γ root newName
    match t.node old with
    | none => none
    | some fad =>
      if fad.isDirectory then none
      else if new = old then some t
      else (FileTree.deleteFile t old).bind (fun t' => FileTree.createFile t' new fad)
  | .renameDirectory oldName newName =>
    let old := treePath Γ root oldName
    let new := treePath Γ root newName
    if t.IsDir old then
      if new = old then some t else FileTree.moveDirectory t old new
    else none

/-- The records of an operation. -/
def TreeOp.notifications : TreeOp → List (FileAction × WString)
  | .createFile name _ => [(.added, name)]
  | .deleteFile name => [(.removed, name)]
  | .renameFile oldName newName | .renameDirectory oldName newName =>
    [(.renamedOldName, oldName), (.renamedNewName, newName)]

/-- The events the watcher makes of them. -/
def TreeOp.events (root : WString) (op : TreeOp) : List FileChangeEvent :=
  op.notifications.map (fun n => ChangeWatcher.eventOf root n.1 n.2)

/-- A watched tree with the index: the tree, the events not applied yet, the oldest first, and the store. -/
structure Monitor where
  tree : FileTree
  pending : List FileChangeEvent
  store : IndexStore

/-- What happens: an operation in the tree, or `ApplyChange` of the oldest event. -/
inductive MonitorStep where
  | op (op : TreeOp)
  | deliver

/-- What `GetFileAttributesExW` says of a path. The paths are ones that the calls of Windows answer for, below `MAX_PATH`: the
program is not declared to be aware of longer ones. -/
def Monitor.attributes (Γ : Locale) (s : Monitor) (path : WString) : Option AttributeData := s.tree.node (Γ.lower path)

/-- The effect of a step. An operation that fails changes nothing and is not reported. -/
def Monitor.step (Γ : Locale) (root : WString) (s : Monitor) : MonitorStep → Monitor
  | .op op =>
    match op.apply Γ root s.tree with
    | some tree => { s with tree := tree, pending := s.pending ++ op.events root }
    | none => s
  | .deliver =>
    match s.pending with
    | evt :: rest => { s with pending := rest, store := s.store.applyChange Γ (s.attributes Γ) evt }
    | [] => s

variable {Γ : Locale} {root : WString} {s : Monitor}

/-- An operation that succeeds changes the tree and is reported. -/
theorem Monitor.step_op_some {op : TreeOp} {tree : FileTree} (h : op.apply Γ root s.tree = some tree) :
    s.step Γ root (.op op) = { s with tree := tree, pending := s.pending ++ op.events root } := by
  simp only [step, h]

/-- One that fails leaves everything as it is. -/
theorem Monitor.step_op_none {op : TreeOp} (h : op.apply Γ root s.tree = none) : s.step Γ root (.op op) = s := by
  simp only [step, h]

end WinIndex
