import WinIndex.IndexPool

/-!
# The file system and the two scanners

`FileSystem` is what the program asks Windows: the directory listings, the records of a volume's master file table, the
drives. The scanners (src/core/indexer/FindFileScanner.cpp, MftScanner.cpp) turn it into file entries; which of them scans a
root is `scanDriveInto` in the next module.
-/

namespace WinIndex

/-! ## What Windows reports -/

/-- The fields of `WIN32_FIND_DATAW` that the scanner reads. -/
structure FindData where
  cFileName : WString
  dwFileAttributes : UInt32
  nFileSizeHigh : UInt32
  nFileSizeLow : UInt32
  dwHighDateTime : UInt32
  dwLowDateTime : UInt32
  deriving DecidableEq

/-- `FILE_ATTRIBUTE_DIRECTORY`. -/
def fileAttributeDirectory : UInt32 := 0x10

/-- `FILE_ATTRIBUTE_REPARSE_POINT`. -/
def fileAttributeReparsePoint : UInt32 := 0x400

/-- `high << 32 | low`, as the scanner and the live updates combine sizes and times. -/
def combine (high low : UInt32) : UInt64 := (high.toUInt64 <<< 32) ||| low.toUInt64

/-- A directory with a trailing backslash and a name behind it. -/
def fullPath (dir name : WString) : WString := withBackslash dir ++ name

/-- The pattern `FindFirstFileW` gets for a directory. -/
def searchPattern (dir : WString) : WString := withBackslash dir ++ wide ['*']

/-- Whether the scanner skips what it found: a reparse point, or one of `.` and `..`. -/
def FindData.skipped (fd : FindData) : Bool :=
  fd.dwFileAttributes &&& fileAttributeReparsePoint ≠ 0 || fd.cFileName = wide ['.'] || fd.cFileName = wide ['.', '.']

/-- Whether it is a directory. -/
def FindData.isDirectory (fd : FindData) : Bool := fd.dwFileAttributes &&& fileAttributeDirectory ≠ 0

/-- The subdirectories of a directory that the scanner goes into, from its listing. -/
def subdirs (dir : WString) (fds : List FindData) : List WString :=
  (fds.filter (fun fd => !fd.skipped && fd.isDirectory)).map (fun fd => fullPath dir fd.cFileName)

theorem mem_subdirs {dir sub : WString} {fds : List FindData} :
    sub ∈ subdirs dir fds ↔
      ∃ fd ∈ fds, fd.skipped = false ∧ fd.isDirectory = true ∧ fullPath dir fd.cFileName = sub := by
  simp [subdirs, and_assoc]

/-- A record of the master file table, as `FSCTL_ENUM_USN_DATA` gives it. -/
structure MftEntry where
  name : WString
  parentFrn : UInt64
  attributes : UInt32

/-- `isDirectory`. -/
def MftEntry.isDirectory (e : MftEntry) : Bool := e.attributes &&& fileAttributeDirectory ≠ 0

/-- The map from file reference numbers that `ScanVolume` builds, in iteration order. The directories of a volume are a
tree: `depth` decreases from a record to its parent, except at the root, which is its own parent. -/
structure MftVolume where
  entries : List (UInt64 × MftEntry)
  nodup : (entries.map Prod.fst).Nodup
  depth : UInt64 → Nat
  depth_parent : ∀ frn e, entries.lookup frn = some e → e.parentFrn ≠ frn → depth e.parentFrn < depth frn

/-- The file systems Windows names that the program tells apart. -/
inductive DriveFilesystem where
  | ntfs | fat32 | other
  deriving DecidableEq

/-- What the program asks Windows about files. Names in a listing hold no backslash, and the tree below a directory is
finite: `below` bounds the directories the scanner can find in it. -/
structure FileSystem where
  /-- `FindFirstFileW` and `FindNextFileW` on a pattern; `none` when the first fails. -/
  findFiles : WString → Option (List FindData)
  below : WString → Nat
  /-- The volume a root names, when it can be opened for `FSCTL_ENUM_USN_DATA`. -/
  mft : WString → Option MftVolume
  /-- The name `GetVolumeInformationW` gives the file system of a root. -/
  fsName : WString → Option WString
  /-- The mask `GetLogicalDrives` gives. -/
  logicalDrives : UInt32
  /-- Whether `GetDriveTypeW` says `DRIVE_FIXED`. -/
  isFixed : WString → Bool
  name_findFiles : ∀ pattern fds, findFiles pattern = some fds → ∀ fd ∈ fds, backslash ∉ fd.cFileName
  name_mft : ∀ volume m, mft volume = some m → ∀ e ∈ m.entries, backslash ∉ e.2.name
  below_subdirs : ∀ dir fds, findFiles (searchPattern dir) = some fds →
    ((subdirs dir fds).map (fun sub => below sub + 1)).sum ≤ below dir

/-- A machine without files or drives. -/
def FileSystem.empty : FileSystem where
  findFiles _ := none
  below _ := 0
  mft _ := none
  fsName _ := none
  logicalDrives := 0
  isFixed _ := false
  name_findFiles _ _ h := nomatch h
  name_mft _ _ h := nomatch h
  below_subdirs _ _ h := nomatch h

/-! ## Exclusions -/

/-- The test both scanners make against one excluded path: the path itself, or a path under it, up to case. -/
def excludedBy (Γ : Locale) (path excl : WString) : Bool :=
  decide (Γ.lower path = Γ.lower excl) || (withBackslash (Γ.lower excl)).isPrefixOf (Γ.lower path)

/-- `IsExcluded`. -/
def isExcluded (Γ : Locale) (path : WString) (excludedPaths : List WString) : Bool :=
  excludedPaths.any (excludedBy Γ path)

/-- `FindFileScanner::IsExcluded`. -/
def FindFileScanner.isExcluded (Γ : Locale) : WString → List WString → Bool := WinIndex.isExcluded Γ

/-- `MftScanner::IsExcluded`. -/
def MftScanner.isExcluded (Γ : Locale) : WString → List WString → Bool := WinIndex.isExcluded Γ

/-! ## FindFileScanner -/

/-- The entry of a file found in a directory. -/
def FindData.entry (Γ : Locale) (dir : WString) (fd : FindData) : FileEntry where
  name := fd.cFileName
  nameLower := Γ.lower fd.cFileName
  path := fullPath dir fd.cFileName
  size := combine fd.nFileSizeHigh fd.nFileSizeLow
  lastModified := combine fd.dwHighDateTime fd.dwLowDateTime
  attributes := fd.dwFileAttributes

/-- The files of a directory that the scanner reports, from its listing. -/
def filesIn (Γ : Locale) (dir : WString) (fds : List FindData) : List FileEntry :=
  (fds.filter (fun fd => !fd.skipped && !fd.isDirectory)).map (FindData.entry Γ dir)

theorem mem_filesIn {Γ : Locale} {dir : WString} {fds : List FindData} {fe : FileEntry} :
    fe ∈ filesIn Γ dir fds ↔ ∃ fd ∈ fds, fd.skipped = false ∧ fd.isDirectory = false ∧ fd.entry Γ dir = fe := by
  simp [filesIn, and_assoc]

/-- `FindFileScanner::ScanDirectory`: the loop over the queue of directories, which `fuel` bounds. -/
def FindFileScanner.scanQueue (Γ : Locale) (fs : FileSystem) (excludedPaths : List WString) :
    Nat → List WString → List FileEntry
  | 0, _ => []
  | _ + 1, [] => []
  | fuel + 1, current :: dirQueue =>
    if FindFileScanner.isExcluded Γ current excludedPaths then scanQueue Γ fs excludedPaths fuel dirQueue
    else
      match fs.findFiles (searchPattern current) with
      | none => scanQueue Γ fs excludedPaths fuel dirQueue
      | some fds => filesIn Γ current fds ++ scanQueue Γ fs excludedPaths fuel (dirQueue ++ subdirs current fds)

/-- The directories that the loop can still take out of a queue. -/
def FileSystem.pending (fs : FileSystem) (dirQueue : List WString) : Nat := (dirQueue.map (fun dir => fs.below dir + 1)).sum

/-- `FindFileScanner::Scan` of one root. -/
def FindFileScanner.scan (Γ : Locale) (fs : FileSystem) (excludedPaths : List WString) (root : WString) : List FileEntry :=
  scanQueue Γ fs excludedPaths (fs.pending [root]) [root]

/-! ## MftScanner -/

/-- `resolvePath`: the path of a directory, from the names on the way to the root. -/
def resolvePath (entries : List (UInt64 × MftEntry)) (root : WString) : Nat → UInt64 → WString
  | 0, _ => root
  | fuel + 1, frn =>
    match entries.lookup frn with
    | none => root
    | some e => if e.parentFrn = frn then root else resolvePath entries root fuel e.parentFrn ++ e.name ++ [backslash]

/-- The depth of a directory is fuel enough: `resolvePath` satisfies its recursion. -/
theorem resolvePath_depth (m : MftVolume) (root : WString) {frn : UInt64} {e : MftEntry}
    (he : m.entries.lookup frn = some e) (hp : e.parentFrn ≠ frn) {fuel : Nat} (h : m.depth frn ≤ fuel) :
    resolvePath m.entries root (fuel + 1) frn =
      resolvePath m.entries root (m.depth e.parentFrn + 1) e.parentFrn ++ e.name ++ [backslash] := by
  have hfuel : ∀ (k : Nat) (frn : UInt64) (fuel : Nat), m.depth frn ≤ k → m.depth frn ≤ fuel →
      resolvePath m.entries root (fuel + 1) frn = resolvePath m.entries root (m.depth frn + 1) frn := by
    intro k
    induction k with
    | zero =>
      intro frn fuel hk hf
      rw [resolvePath, resolvePath]
      cases hl : m.entries.lookup frn with
      | none => rfl
      | some e =>
        simp only
        split
        · rfl
        · rename_i hne
          have := m.depth_parent frn e hl hne
          omega
    | succ k ih =>
      intro frn fuel hk hf
      rw [resolvePath, resolvePath]
      cases hl : m.entries.lookup frn with
      | none => rfl
      | some e =>
        simp only
        split
        · rfl
        · rename_i hne
          have hlt := m.depth_parent frn e hl hne
          obtain ⟨n, hn⟩ : ∃ n, fuel = n + 1 := ⟨fuel - 1, by omega⟩
          obtain ⟨d, hd⟩ : ∃ d, m.depth frn = d + 1 := ⟨m.depth frn - 1, by omega⟩
          rw [hn, hd, ih e.parentFrn n (by omega) (by omega), ih e.parentFrn d (by omega) (by omega)]
  have hlt := m.depth_parent frn e he hp
  obtain ⟨n, hn⟩ : ∃ n, fuel = n + 1 := ⟨fuel - 1, by omega⟩
  rw [resolvePath, he, hn]
  simp only
  rw [if_neg hp, hfuel (m.depth e.parentFrn) e.parentFrn n (Nat.le_refl _) (by omega)]

/-- The entry of a record of the table; the table has neither sizes nor times. -/
def MftEntry.entry (Γ : Locale) (m : MftVolume) (root : WString) (e : MftEntry) : FileEntry where
  name := e.name
  nameLower := Γ.lower e.name
  path := resolvePath m.entries root (m.depth e.parentFrn + 1) e.parentFrn ++ e.name
  size := 0
  lastModified := 0
  attributes := e.attributes

/-- The volume of a root: `root.substr(0, 2)`. -/
def FileSystem.mftOf (fs : FileSystem) (root : WString) : Option MftVolume := fs.mft (root.take 2)

/-- `MftScanner::IsMftAvailable`. -/
def MftScanner.isMftAvailable (fs : FileSystem) (root : WString) : Bool := (fs.mftOf root).isSome

/-- `MftScanner::Scan` of one root: every file of the volume, under the root's path. -/
def MftScanner.scan (Γ : Locale) (fs : FileSystem) (excludedPaths : List WString) (root : WString) : List FileEntry :=
  match fs.mftOf root with
  | none => []
  | some m =>
    ((m.entries.filter (fun e => e.2.attributes &&& fileAttributeDirectory = 0)).map
      (fun e => e.2.entry Γ m root)).filter (fun fe => !MftScanner.isExcluded Γ fe.path excludedPaths)

end WinIndex
