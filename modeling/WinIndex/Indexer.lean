import WinIndex.IndexStore
import WinIndex.Scanners
import WinIndex.Lib.Trace

/-!
# The indexer

`Indexer` (src/core/indexer/Indexer.cpp), the drive enumeration it uses, the events `ChangeWatcher` makes, and the handler
of the settings dialog (src/ui/MainWindow.cpp). What the indexer does to the store is given as the list of store mutations
it issues, so that the threads that issue them can be interleaved. Cancellation and the status messages are left out.
-/

namespace WinIndex

/-! ## Drives -/

/-- `GetFilesystem`. -/
def getFilesystem (fs : FileSystem) (root : WString) : DriveFilesystem :=
  match fs.fsName root with
  | none => .other
  | some name =>
    if name = wide ['N', 'T', 'F', 'S'] then .ntfs
    else if name = wide ['F', 'A', 'T', '3', '2'] ∨ name = wide ['F', 'A', 'T'] then .fat32
    else .other

/-- The root of the drive with the given number: `A:\`, `B:\` and so on. -/
def driveRoot (i : Nat) : WString := [UInt16.ofNat (0x41 + i), 0x3A, backslash]

/-- The roots of `EnumerateLocalFixedDrives`. -/
def enumerateLocalFixedDrives (fs : FileSystem) : List WString :=
  ((List.range 26).filter (fun i => fs.logicalDrives &&& ((1 : UInt32) <<< UInt32.ofNat i) ≠ 0)).map driveRoot |>.filter
    (fun root => fs.isFixed root && getFilesystem fs root ≠ .other)

/-! ## Scans -/

/-- Whether `ScanDriveInto` picks the scanner of the master file table. -/
def usesMft (fs : FileSystem) (root : WString) : Bool :=
  decide (getFilesystem fs root = .ntfs) && MftScanner.isMftAvailable fs root

/-- `ScanDriveInto`: the entries of one root, in the order they are reported. -/
def scanDriveInto (Γ : Locale) (fs : FileSystem) (excludedPaths : List WString) (root : WString) : List FileEntry :=
  if usesMft fs root then MftScanner.scan Γ fs excludedPaths root else FindFileScanner.scan Γ fs excludedPaths root

/-- The drives `IndexingThread` scans: the selected ones, or all local fixed drives when none is. -/
def effectiveDrives (fs : FileSystem) (selectedDrives : List WString) : List WString :=
  if selectedDrives = [] then enumerateLocalFixedDrives fs else selectedDrives

/-- The entries of several roots, one after the other. -/
def scanAll (Γ : Locale) (fs : FileSystem) (excludedPaths : List WString) (roots : List WString) : List FileEntry :=
  roots.flatMap (scanDriveInto Γ fs excludedPaths)

/-- `IndexingThread`: the scans of all drives, then the whole rebuild of the store. -/
def indexingThread (Γ : Locale) (fs : FileSystem) (selectedDrives excludedPaths : List WString) : List StoreOp :=
  .beginWrite :: (scanAll Γ fs excludedPaths (effectiveDrives fs selectedDrives)).map .addEntry ++ [.endWrite]

/-- `IndexPathsThread`. -/
def indexPathsThread (Γ : Locale) (fs : FileSystem) (excludedPaths paths : List WString) : List StoreOp :=
  (scanAll Γ fs excludedPaths paths).map .applyAdd

/-- `RemovePathsThread`. -/
def removePathsThread (paths : List WString) : List StoreOp := paths.map .removeEntriesUnderPath

/-! ## Live updates -/

/-- The fields of `WIN32_FILE_ATTRIBUTE_DATA` that are read. -/
structure AttributeData where
  dwFileAttributes : UInt32
  nFileSizeHigh : UInt32
  nFileSizeLow : UInt32
  dwHighDateTime : UInt32
  dwLowDateTime : UInt32

/-- Whether the attributes are those of a directory. -/
def AttributeData.isDirectory (fad : AttributeData) : Bool := fad.dwFileAttributes &&& fileAttributeDirectory ≠ 0

/-- `FileChangeType`. -/
inductive FileChangeType where
  | added | removed | modified | renamed
  deriving DecidableEq

/-- `FileChangeEvent`. -/
structure FileChangeEvent where
  type : FileChangeType
  path : WString
  oldPath : WString

/-- The entry `BuildAndApplyAdd` adds. -/
def builtEntry (Γ : Locale) (path : WString) (fad : AttributeData) : FileEntry where
  name := nameOf path
  nameLower := Γ.lower (nameOf path)
  path := path
  size := combine fad.nFileSizeHigh fad.nFileSizeLow
  lastModified := combine fad.dwHighDateTime fad.dwLowDateTime
  attributes := fad.dwFileAttributes

/-- `BuildAndApplyAdd`, given what `GetFileAttributesExW` says of the path at that moment: nothing is added for a path that
is not there or is a directory. -/
def buildAndApplyAdd (Γ : Locale) (attributes : WString → Option AttributeData) (path : WString) : List StoreOp :=
  match attributes path with
  | none => []
  | some fad => if fad.isDirectory then [] else [.applyAdd (builtEntry Γ path fad)]

/-- `GetFileAttributesExW` finds a file at the path, and not a directory. -/
def IsFile (attributes : WString → Option AttributeData) (path : WString) : Prop :=
  ∃ fad, attributes path = some fad ∧ fad.isDirectory = false

instance (attributes : WString → Option AttributeData) (path : WString) : Decidable (IsFile attributes path) :=
  match h : attributes path with
  | none => .isFalse (by rintro ⟨fad, hfad, -⟩; rw [h] at hfad; cases hfad)
  | some fad => decidable_of_iff (fad.isDirectory = false)
      ⟨fun hd => ⟨fad, h, hd⟩, by rintro ⟨fad', hfad, hd⟩; rw [h] at hfad; cases hfad; exact hd⟩

/-- `BuildAndApplyAdd` adds one entry for a file. -/
theorem buildAndApplyAdd_of_isFile (Γ : Locale) {attributes : WString → Option AttributeData} {path : WString}
    (h : IsFile attributes path) :
    ∃ fad, buildAndApplyAdd Γ attributes path = [.applyAdd (builtEntry Γ path fad)] := by
  obtain ⟨fad, hfad, hdir⟩ := h
  exact ⟨fad, by rw [buildAndApplyAdd, hfad]; simp [hdir]⟩

/-- For anything else it does nothing. -/
theorem buildAndApplyAdd_of_not_isFile (Γ : Locale) {attributes : WString → Option AttributeData} {path : WString}
    (h : ¬IsFile attributes path) : buildAndApplyAdd Γ attributes path = [] := by
  unfold buildAndApplyAdd
  cases hfad : attributes path with
  | none => rfl
  | some fad =>
    have hdir : fad.isDirectory = true := by
      by_contra hd
      exact h ⟨fad, hfad, by simpa using hd⟩
    simp [hdir]

/-- `ApplyChange`. -/
def applyChange (Γ : Locale) (attributes : WString → Option AttributeData) (evt : FileChangeEvent) : List StoreOp :=
  match evt.type with
  | .added => buildAndApplyAdd Γ attributes evt.path
  | .modified => .applyRemove evt.path :: buildAndApplyAdd Γ attributes evt.path
  | .removed => [.applyRemove evt.path]
  | .renamed =>
    if evt.oldPath ≠ [] then [.applyRename evt.oldPath evt.path] else buildAndApplyAdd Γ attributes evt.path

/-- What `ApplyChange` leaves in the store, when nothing comes between its mutations. -/
def IndexStore.applyChange (Γ : Locale) (attributes : WString → Option AttributeData) (evt : FileChangeEvent)
    (s : IndexStore) : IndexStore :=
  Trace.final (StoreOp.run Γ) s (WinIndex.applyChange Γ attributes evt)

/-- The actions of `FILE_NOTIFY_INFORMATION`. -/
inductive FileAction where
  | added | removed | modified | renamedOldName | renamedNewName
  deriving DecidableEq

/-- The event `RunWatch` makes of a notification: a rename is reported as a removal and an addition. -/
def ChangeWatcher.eventOf (root : WString) (action : FileAction) (name : WString) : FileChangeEvent where
  type :=
    match action with
    | .added => .added
    | .removed => .removed
    | .renamedNewName => .added
    | .renamedOldName => .removed
    | .modified => .modified
  path := fullPath root name
  oldPath := []

/-! ## The settings dialog -/

/-- What the handler asks of the indexer. -/
inductive IndexerCall where
  | startIndexing
  | indexPaths (paths : List WString)
  | removePaths (paths : List WString)
  | none
  deriving DecidableEq

/-- `OnCommand(ID_INDEX_SETTINGS)`, from the paths selected before the dialog and after it. -/
def onIndexSettings (oldPaths newPaths : List WString) : IndexerCall :=
  let addedPaths := newPaths.filter (fun q => !oldPaths.contains q)
  let removedPaths := oldPaths.filter (fun q => !newPaths.contains q)
  if addedPaths ≠ [] ∧ removedPaths ≠ [] then .startIndexing
  else if addedPaths ≠ [] then .indexPaths addedPaths
  else if removedPaths ≠ [] then .removePaths removedPaths
  else .none

/-- The paths of one selection that are not in another, as the handler computes them. -/
def pathsNotIn (paths others : List WString) : List WString := paths.filter (fun q => !others.contains q)

theorem mem_pathsNotIn {paths others : List WString} {q : WString} : q ∈ pathsNotIn paths others ↔ q ∈ paths ∧ q ∉ others := by
  simp [pathsNotIn]

/-- The branch the handler takes, from the two differences. -/
theorem onIndexSettings_eq (oldPaths newPaths : List WString) :
    onIndexSettings oldPaths newPaths =
      if pathsNotIn newPaths oldPaths ≠ [] ∧ pathsNotIn oldPaths newPaths ≠ [] then .startIndexing
      else if pathsNotIn newPaths oldPaths ≠ [] then .indexPaths (pathsNotIn newPaths oldPaths)
      else if pathsNotIn oldPaths newPaths ≠ [] then .removePaths (pathsNotIn oldPaths newPaths)
      else .none := rfl

/-- The mutations a call of the indexer issues, with the settings as they are then. -/
def IndexerCall.ops (Γ : Locale) (fs : FileSystem) (selectedDrives excludedPaths : List WString) : IndexerCall → List StoreOp
  | .startIndexing => indexingThread Γ fs selectedDrives excludedPaths
  | .indexPaths paths => indexPathsThread Γ fs excludedPaths paths
  | .removePaths paths => removePathsThread paths
  | .none => []

end WinIndex
