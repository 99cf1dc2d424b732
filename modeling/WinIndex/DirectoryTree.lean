import WinIndex.Scanners

/-!
# The directory walk

`FindFileScanner::ScanDirectory` (src/core/indexer/FindFileScanner.cpp) as it stands: a loop over a queue of directories, of
which nothing says beforehand that it ends. What it walks is a `DirectoryTree`: the listing of every directory, by the names on
the way to it from the root.
-/

namespace WinIndex

/-! ## The loop -/

/-- `FindFileScanner::ScanDirectory`, for as many rounds of its loop as there is fuel: nothing when that is used up before the
queue is. `findFiles` is what `FindFirstFileW` and `FindNextFileW` give. -/
def FindFileScanner.scanDirectory (Γ : Locale) (findFiles : WString → Option (List FindData)) (excludedPaths : List WString) :
    Nat → List WString → Option (List FileEntry)
  | _, [] => some []
  | 0, _ :: _ => none
  | fuel + 1, current :: dirQueue =>
    if FindFileScanner.isExcluded Γ current excludedPaths then scanDirectory Γ findFiles excludedPaths fuel dirQueue
    else
      match findFiles (searchPattern current) with
      | none => scanDirectory Γ findFiles excludedPaths fuel dirQueue
      | some fds =>
        (scanDirectory Γ findFiles excludedPaths fuel (dirQueue ++ subdirs current fds)).map (filesIn Γ current fds ++ ·)

/-- On a file system whose directories are bounded the loop ends: with as much fuel as there are directories pending it takes
the queue to its end. -/
theorem FindFileScanner.scanDirectory_eq_scanQueue (Γ : Locale) (fs : FileSystem) (excludedPaths : List WString) {fuel : Nat}
    {dirQueue : List WString} (h : fs.pending dirQueue ≤ fuel) :
    scanDirectory Γ fs.findFiles excludedPaths fuel dirQueue = some (scanQueue Γ fs excludedPaths fuel dirQueue) := by
  induction fuel generalizing dirQueue with
  | zero =>
    cases dirQueue with
    | nil => rfl
    | cons dir dirQueue =>
      simp only [FileSystem.pending, List.map_cons, List.sum_cons] at h
      omega
  | succ fuel ih =>
    cases dirQueue with
    | nil => rfl
    | cons dir dirQueue =>
      have hp : fs.pending (dir :: dirQueue) = fs.below dir + 1 + fs.pending dirQueue := by
        simp [FileSystem.pending]
      rw [scanDirectory, scanQueue]
      split
      · exact ih (by omega)
      · cases hf : fs.findFiles (searchPattern dir) with
        | none => exact ih (by omega)
        | some fds =>
          have hsub := fs.below_subdirs dir fds hf
          have hq : fs.pending (dirQueue ++ subdirs dir fds) =
              fs.pending dirQueue + ((subdirs dir fds).map (fun sub => fs.below sub + 1)).sum := by
            simp [FileSystem.pending]
          simp only
          rw [ih (by omega), Option.map_some]

/-! ## Trees -/

/-- `.` and `..`. -/
def FindData.isDot (fd : FindData) : Bool := fd.cFileName = wide ['.'] || fd.cFileName = wide ['.', '.']

/-- A reparse point. -/
def FindData.isReparsePoint (fd : FindData) : Bool := fd.dwFileAttributes &&& fileAttributeReparsePoint ≠ 0

/-- There is a directory at the end of the names, the root or one that its parent's listing names. -/
inductive DirectoryAt (listing : List WString → List FindData) : List WString → Prop where
  | root : DirectoryAt listing []
  | child {dir : List WString} {fd : FindData} (hdir : DirectoryAt listing dir) (hfd : fd ∈ listing dir)
      (hdirectory : fd.isDirectory = true) (hdot : fd.isDot = false) : DirectoryAt listing (dir ++ [fd.cFileName])

/-- A directory below the root, on the way to one or that one itself, is a reparse point. -/
def BehindReparsePointAt (listing : List WString → List FindData) (dir : List WString) : Prop :=
  ∃ parent fd, fd ∈ listing parent ∧ parent ++ [fd.cFileName] <+: dir ∧ fd.isReparsePoint = true

/-- A finite tree of directories: what each of them lists, `.` and `..` included. Behind reparse points it need not be finite,
since these may lead back up the tree. The names in a listing are names, and different. -/
structure DirectoryTree where
  listing : List WString → List FindData
  height : Nat
  finite : ∀ dir, DirectoryAt listing dir → ¬BehindReparsePointAt listing dir → dir.length ≤ height
  named : ∀ dir, DirectoryAt listing dir → ∀ fd ∈ listing dir, fd.cFileName ≠ [] ∧ backslash ∉ fd.cFileName
  distinct : ∀ dir, DirectoryAt listing dir → ((listing dir).map FindData.cFileName).Nodup

/-- What the tree has at the end of the names is a directory. -/
def DirectoryTree.IsDirectory (T : DirectoryTree) (dir : List WString) : Prop := DirectoryAt T.listing dir

/-- A file that is not a reparse point is in a directory. -/
def DirectoryTree.HasFile (T : DirectoryTree) (dir : List WString) (fd : FindData) : Prop :=
  T.IsDirectory dir ∧ fd ∈ T.listing dir ∧ fd.isDirectory = false ∧ fd.isDot = false ∧ fd.isReparsePoint = false

/-- What the tree has at the end of the names is a reparse point or behind one. -/
def DirectoryTree.BehindReparsePoint (T : DirectoryTree) (dir : List WString) : Prop := BehindReparsePointAt T.listing dir

/-- The path at the end of the names: the root as it is given, or the root, a separator and the names with separators. -/
def pathUnder (root : WString) (names : List WString) : WString :=
  if names = [] then root else withBackslash root ++ [backslash].intercalate names

/-- Windows lists the tree below the root: every directory that is not behind a reparse point can be read. -/
def DirectoryTree.ListedAt (T : DirectoryTree) (findFiles : WString → Option (List FindData)) (root : WString) : Prop :=
  ∀ dir, T.IsDirectory dir → ¬T.BehindReparsePoint dir → findFiles (searchPattern (pathUnder root dir)) = some (T.listing dir)

end WinIndex
