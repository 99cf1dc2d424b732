import WinIndex.Lemmas.Scan
import WinIndex.Lib.Assoc

/-!
# The two scanners on one volume

`FindFileScanner` goes down the directories that are not excluded and reports every file in them; `MftScanner` puts the path of
every file together from its parents and tests only that. A `VolumeTree` is a volume that both see: its file table and its
listings describe one tree. The scanners report the same files unless an exclusion names a file, or a directory with a
trailing backslash, and nothing above is excluded.
-/

namespace WinIndex

open Relation

/-! ## A volume -/

/-- The path of a directory, with its trailing backslash: what `resolvePath` gives. -/
def MftVolume.dirPath (m : MftVolume) (root : WString) (frn : UInt64) : WString :=
  resolvePath m.entries root (m.depth frn + 1) frn

/-- A directory of the volume: the root, or one with a record. -/
def MftVolume.IsDir (m : MftVolume) (rootFrn frn : UInt64) : Prop :=
  frn = rootFrn ∨ ∃ e, (frn, e) ∈ m.entries ∧ e.isDirectory = true

/-- A finite tree of directories and files below a drive root. Its table has one record for each, whose parents lead to the
root; its listings give the names in each directory, with no reparse point among them, so that none is skipped. So the paths of
the directories are ones that `FindFirstFileW` answers for, below `MAX_PATH`: the program is not declared to be aware of longer
ones, and the table has them all the same. -/
structure VolumeTree (fs : FileSystem) (root : WString) where
  table : MftVolume
  rootFrn : UInt64
  drive : ∃ letter, root = [letter, 0x3A, backslash]
  mft : fs.mftOf root = some table
  rootRecord : ∀ e, (rootFrn, e) ∈ table.entries → e.parentFrn = rootFrn ∧ e.isDirectory = true
  parent : ∀ frn e, (frn, e) ∈ table.entries → frn ≠ rootFrn → e.parentFrn ≠ frn ∧ table.IsDir rootFrn e.parentFrn
  named : ∀ frn e, (frn, e) ∈ table.entries → e.name ≠ []
  listing : ∀ dir, table.IsDir rootFrn dir → ∃ fds,
    fs.findFiles (table.dirPath root dir ++ wide ['*']) = some fds ∧
    ∀ name isDirectory, (∃ fd ∈ fds, fd.skipped = false ∧ fd.cFileName = name ∧ fd.isDirectory = isDirectory) ↔
      ∃ frn e, (frn, e) ∈ table.entries ∧ frn ≠ rootFrn ∧ e.parentFrn = dir ∧ e.name = name ∧ e.isDirectory = isDirectory

namespace VolumeTree

variable {Γ : Locale} {fs : FileSystem} {root : WString} {excludedPaths : List WString} (T : VolumeTree fs root)

/-- The path of a directory with its trailing backslash. -/
def dirPath (frn : UInt64) : WString := T.table.dirPath root frn

/-- The path of a directory as `FindFileScanner` spells it: only the root has its backslash. -/
def spelled (frn : UInt64) : WString := if frn = T.rootFrn then root else (T.dirPath frn).dropLast

/-- The path of a record. -/
def pathOf (e : MftEntry) : WString := T.dirPath e.parentFrn ++ e.name

/-- A directory and a subdirectory of it. -/
def Child (dir sub : UInt64) : Prop :=
  ∃ e, (sub, e) ∈ T.table.entries ∧ sub ≠ T.rootFrn ∧ e.isDirectory = true ∧ e.parentFrn = dir

/-- A directory is on the way from the root to another, or is the other. -/
def Above : UInt64 → UInt64 → Prop := ReflTransGen T.Child

variable {T}

theorem lookup_eq {frn : UInt64} {e : MftEntry} (h : (frn, e) ∈ T.table.entries) : T.table.entries.lookup frn = some e :=
  Assoc.lookup_of_mem T.table.nodup h

/-! ## Paths -/

theorem dirPath_rootFrn : T.dirPath T.rootFrn = root := by
  rw [dirPath, MftVolume.dirPath, resolvePath]
  cases h : T.table.entries.lookup T.rootFrn with
  | none => rfl
  | some e =>
    have hmem : (T.rootFrn, e) ∈ T.table.entries := Assoc.mem_of_lookup h
    simp only [(T.rootRecord e hmem).1, if_true]

theorem dirPath_of_mem {frn : UInt64} {e : MftEntry} (h : (frn, e) ∈ T.table.entries) (hne : frn ≠ T.rootFrn) :
    T.dirPath frn = T.pathOf e ++ [backslash] :=
  resolvePath_depth T.table root (lookup_eq h) (T.parent frn e h hne).1 (Nat.le_refl _)

theorem spelled_rootFrn : T.spelled T.rootFrn = root := if_pos rfl

theorem spelled_of_mem {frn : UInt64} {e : MftEntry} (h : (frn, e) ∈ T.table.entries) (hne : frn ≠ T.rootFrn) :
    T.spelled frn = T.pathOf e := by
  rw [spelled, if_neg hne, dirPath_of_mem h hne, List.dropLast_concat]

theorem backslash_not_mem_name {frn : UInt64} {e : MftEntry} (h : (frn, e) ∈ T.table.entries) : backslash ∉ e.name :=
  fs.name_mft _ _ T.mft (frn, e) h

/-- With its backslash the scanner's spelling is the path that the table gives. -/
theorem withBackslash_spelled {frn : UInt64} (h : T.table.IsDir T.rootFrn frn) : withBackslash (T.spelled frn) = T.dirPath frn := by
  by_cases hroot : frn = T.rootFrn
  · obtain ⟨letter, hletter⟩ := T.drive
    subst hroot
    rw [spelled_rootFrn, dirPath_rootFrn, hletter]
    exact withBackslash_of_getLast? rfl
  · rcases h with h | ⟨e, he, -⟩
    · exact absurd h hroot
    · rw [spelled_of_mem he hroot, dirPath_of_mem he hroot, withBackslash, if_neg]
      intro hlast
      rw [pathOf, List.getLast?_append_of_ne_nil _ (T.named frn e he)] at hlast
      exact backslash_not_mem_name he (List.mem_of_getLast? hlast)

/-- The path of a record is its name in its parent, as the scanner puts it together. -/
theorem fullPath_spelled {frn : UInt64} (h : T.table.IsDir T.rootFrn frn) (name : WString) :
    fullPath (T.spelled frn) name = T.dirPath frn ++ name := by
  rw [fullPath, withBackslash_spelled h]

/-! ## Directories -/

theorem Child.isDir {dir sub : UInt64} (h : T.Child dir sub) : T.table.IsDir T.rootFrn sub := by
  obtain ⟨e, he, -, hd, -⟩ := h
  exact .inr ⟨e, he, hd⟩

theorem Above.isDir {dir : UInt64} (h : T.Above T.rootFrn dir) : T.table.IsDir T.rootFrn dir := by
  rcases h.cases_tail with rfl | ⟨mid, -, hchild⟩
  · exact .inl rfl
  · exact hchild.isDir

/-- The root is above every directory. -/
theorem above_of_isDir {dir : UInt64} (h : T.table.IsDir T.rootFrn dir) : T.Above T.rootFrn dir := by
  generalize hn : T.table.depth dir = n
  induction n using Nat.strong_induction_on generalizing dir with
  | _ n ih =>
    by_cases hroot : dir = T.rootFrn
    · rw [hroot]
      exact ReflTransGen.refl
    · rcases h with h | ⟨e, he, hd⟩
      · exact absurd h hroot
      · obtain ⟨hne, hparent⟩ := T.parent dir e he hroot
        have hlt := T.table.depth_parent dir e (lookup_eq he) hne
        exact (ih _ (hn ▸ hlt) hparent rfl).tail ⟨e, he, hroot, hd, rfl⟩

/-- A directory has one parent. -/
theorem Child.unique {dir dir' sub : UInt64} (h : T.Child dir sub) (h' : T.Child dir' sub) : dir = dir' := by
  obtain ⟨e, he, -, -, rfl⟩ := h
  obtain ⟨e', he', -, -, rfl⟩ := h'
  have : e = e' := Option.some.inj ((lookup_eq he).symm.trans (lookup_eq he'))
  rw [this]

/-- The listing of a directory, as the scanner asks for it. -/
theorem findFiles_spelled {dir : UInt64} (h : T.table.IsDir T.rootFrn dir) : ∃ fds,
    fs.findFiles (searchPattern (T.spelled dir)) = some fds ∧
    ∀ name isDirectory, (∃ fd ∈ fds, fd.skipped = false ∧ fd.cFileName = name ∧ fd.isDirectory = isDirectory) ↔
      ∃ frn e, (frn, e) ∈ T.table.entries ∧ frn ≠ T.rootFrn ∧ e.parentFrn = dir ∧ e.name = name ∧
        e.isDirectory = isDirectory := by
  rw [searchPattern, withBackslash_spelled h]
  exact T.listing dir h

/-! ## What FindFileScanner reports -/

/-- No directory from the root to this one is excluded. -/
def Open (Γ : Locale) (excludedPaths : List WString) (T : VolumeTree fs root) (dir : UInt64) : Prop :=
  ∀ a, T.Above a dir → isExcluded Γ (T.spelled a) excludedPaths = false

/-- The scanner goes into a subdirectory of a directory that is not excluded. -/
theorem goesInto_of_child {dir sub : UInt64} (hdir : T.table.IsDir T.rootFrn dir)
    (hex : isExcluded Γ (T.spelled dir) excludedPaths = false) (h : T.Child dir sub) :
    GoesInto Γ fs excludedPaths (T.spelled dir) (T.spelled sub) := by
  obtain ⟨e, he, hne, hd, hparent⟩ := h
  obtain ⟨fds, hfds, hlist⟩ := findFiles_spelled hdir
  obtain ⟨fd, hfd, hskip, hname, hdirectory⟩ := (hlist e.name true).2 ⟨sub, e, he, hne, hparent, rfl, hd⟩
  refine ⟨hex, fds, hfds, mem_subdirs.2 ⟨fd, hfd, hskip, hdirectory, ?_⟩⟩
  rw [fullPath_spelled hdir, hname, spelled_of_mem he hne, pathOf, hparent]

/-- Whatever the scanner goes into from a directory of the volume is a subdirectory. -/
theorem child_of_goesInto {dir : UInt64} (hdir : T.table.IsDir T.rootFrn dir) {path : WString}
    (h : GoesInto Γ fs excludedPaths (T.spelled dir) path) : ∃ sub, T.Child dir sub ∧ path = T.spelled sub := by
  obtain ⟨-, fds, hfds, hsub⟩ := h
  obtain ⟨fds', hfds', hlist⟩ := findFiles_spelled hdir
  rw [hfds, Option.some.injEq] at hfds'
  subst hfds'
  obtain ⟨fd, hfd, hskip, hdirectory, rfl⟩ := mem_subdirs.1 hsub
  obtain ⟨sub, e, he, hne, hparent, hname, hd⟩ := (hlist fd.cFileName true).1 ⟨fd, hfd, hskip, rfl, hdirectory⟩
  refine ⟨sub, ⟨e, he, hne, hd, hparent⟩, ?_⟩
  rw [fullPath_spelled hdir, spelled_of_mem he hne, pathOf, hparent, hname]

/-- The scanner gets to an open directory. -/
theorem goesInto_of_open {dir : UInt64} (h : T.Open Γ excludedPaths dir) (hdir : T.table.IsDir T.rootFrn dir) :
    ReflTransGen (GoesInto Γ fs excludedPaths) root (T.spelled dir) := by
  have habove := above_of_isDir hdir
  induction habove with
  | refl =>
    rw [spelled_rootFrn]
  | @tail mid sub hmid hchild ih =>
    have hopen : T.Open Γ excludedPaths mid := fun a ha => h a (ReflTransGen.tail ha hchild)
    exact (ih hopen (Above.isDir hmid)).tail (goesInto_of_child (Above.isDir hmid) (hopen mid ReflTransGen.refl) hchild)

/-- What the scanner gets to is a directory of the volume, and none above it is excluded. -/
theorem open_of_goesInto {path : WString} (h : ReflTransGen (GoesInto Γ fs excludedPaths) root path) :
    ∃ dir, T.table.IsDir T.rootFrn dir ∧ path = T.spelled dir ∧
      ∀ a, TransGen T.Child a dir → isExcluded Γ (T.spelled a) excludedPaths = false := by
  induction h with
  | refl =>
    refine ⟨T.rootFrn, .inl rfl, spelled_rootFrn.symm, ?_⟩
    intro a ha
    obtain ⟨mid, -, e, -, hne, -⟩ := TransGen.tail'_iff.1 ha
    exact absurd rfl hne
  | tail _ hgoes ih =>
    obtain ⟨dir, hdir, rfl, habove⟩ := ih
    obtain ⟨sub, hchild, rfl⟩ := child_of_goesInto hdir hgoes
    refine ⟨sub, hchild.isDir, rfl, ?_⟩
    intro a ha
    obtain ⟨mid, hmid, hchild'⟩ := TransGen.tail'_iff.1 ha
    rw [hchild'.unique hchild] at hmid
    rcases reflTransGen_iff_eq_or_transGen.1 hmid with heq | htrans
    · rw [← heq]
      exact hgoes.1
    · exact habove a htrans

/-- `FindFileScanner` reports the files of the open directories. -/
theorem mem_findFileScan_iff {path : WString} :
    (∃ fe ∈ FindFileScanner.scan Γ fs excludedPaths root, fe.path = path) ↔
      ∃ frn e, (frn, e) ∈ T.table.entries ∧ e.isDirectory = false ∧ T.pathOf e = path ∧ T.Open Γ excludedPaths e.parentFrn := by
  constructor
  · rintro ⟨fe, hfe, rfl⟩
    obtain ⟨path, fds, hreach, hex, hfds, hfile⟩ := FindFileScanner.mem_scan_iff.1 hfe
    obtain ⟨dir, hdir, rfl, habove⟩ := open_of_goesInto (T := T) hreach
    obtain ⟨fds', hfds', hlist⟩ := findFiles_spelled hdir
    rw [hfds, Option.some.injEq] at hfds'
    subst hfds'
    obtain ⟨fd, hfd, hskip, hnot, rfl⟩ := mem_filesIn.1 hfile
    obtain ⟨frn, e, he, -, hparent, hname, hd⟩ := (hlist fd.cFileName false).1 ⟨fd, hfd, hskip, rfl, hnot⟩
    refine ⟨frn, e, he, hd, ?_, ?_⟩
    · show _ = fullPath (T.spelled dir) fd.cFileName
      rw [fullPath_spelled hdir, pathOf, hparent, hname]
    · intro a ha
      rw [hparent] at ha
      rcases reflTransGen_iff_eq_or_transGen.1 ha with heq | htrans
      · rw [← heq]
        exact hex
      · exact habove a htrans
  · rintro ⟨frn, e, he, hd, rfl, hopen⟩
    have hne : frn ≠ T.rootFrn := by
      rintro rfl
      rw [(T.rootRecord e he).2] at hd
      cases hd
    have hdir := (T.parent frn e he hne).2
    obtain ⟨fds, hfds, hlist⟩ := findFiles_spelled hdir
    obtain ⟨fd, hfd, hskip, hname, hfile⟩ := (hlist e.name false).2 ⟨frn, e, he, hne, rfl, rfl, hd⟩
    refine ⟨fd.entry Γ (T.spelled e.parentFrn), FindFileScanner.mem_scan_iff.2 ⟨T.spelled e.parentFrn, fds,
      goesInto_of_open hopen hdir, hopen _ ReflTransGen.refl, hfds, ?_⟩, ?_⟩
    · exact mem_filesIn.2 ⟨fd, hfd, hskip, hfile, rfl⟩
    · show fullPath (T.spelled e.parentFrn) fd.cFileName = _
      rw [fullPath_spelled hdir, hname, pathOf]

/-! ## What MftScanner reports -/

/-- `MftScanner` reports the files whose paths are not excluded. -/
theorem mem_mftScan_iff {path : WString} :
    (∃ fe ∈ MftScanner.scan Γ fs excludedPaths root, fe.path = path) ↔
      ∃ frn e, (frn, e) ∈ T.table.entries ∧ e.isDirectory = false ∧ T.pathOf e = path ∧
        isExcluded Γ (T.pathOf e) excludedPaths = false := by
  rw [MftScanner.scan, T.mft]
  constructor
  · rintro ⟨fe, hfe, rfl⟩
    obtain ⟨hfe, hex⟩ := List.mem_filter.1 hfe
    obtain ⟨⟨frn, e⟩, hmem, rfl⟩ := List.mem_map.1 hfe
    obtain ⟨he, hfile⟩ := List.mem_filter.1 hmem
    have hex' : (!MftScanner.isExcluded Γ (T.pathOf e) excludedPaths) = true := hex
    refine ⟨frn, e, he, ?_, rfl, ?_⟩
    · simpa [MftEntry.isDirectory] using hfile
    · simpa [MftScanner.isExcluded] using hex'
  · rintro ⟨frn, e, he, hfile, rfl, hex⟩
    refine ⟨e.entry Γ T.table root, List.mem_filter.2 ⟨List.mem_map.2 ⟨(frn, e), List.mem_filter.2 ⟨he, ?_⟩, rfl⟩, ?_⟩, rfl⟩
    · simpa [MftEntry.isDirectory] using hfile
    · show (!MftScanner.isExcluded Γ (T.pathOf e) excludedPaths) = true
      simpa [MftScanner.isExcluded] using hex

/-! ## Agreement -/

/-- What is below an excluded directory is excluded. -/
theorem isExcluded_spelled_of_above {a dir : UInt64} (h : T.Above a dir) (ha : isExcluded Γ (T.spelled a) excludedPaths = true) :
    isExcluded Γ (T.spelled dir) excludedPaths = true := by
  induction h with
  | refl => exact ha
  | tail _ hchild ih =>
    obtain ⟨e, he, hne, -, rfl⟩ := hchild
    rw [spelled_of_mem he hne, pathOf, ← fullPath_spelled (T.parent _ e he hne).2]
    exact isExcluded_fullPath_of_dir _ ih

/-- A file that is not excluded is in an open directory. -/
theorem open_of_not_isExcluded {frn : UInt64} {e : MftEntry} (he : (frn, e) ∈ T.table.entries) (hne : frn ≠ T.rootFrn)
    (hex : isExcluded Γ (T.pathOf e) excludedPaths = false) : T.Open Γ excludedPaths e.parentFrn := by
  intro a ha
  by_contra hbad
  have hdir := isExcluded_spelled_of_above ha (by simpa using hbad)
  have hfile := isExcluded_fullPath_of_dir e.name hdir
  rw [fullPath_spelled (T.parent frn e he hne).2] at hfile
  exact absurd (hex.symm.trans hfile) (by simp)

/-- An exclusion names a file itself, or its directory with the trailing backslash. -/
def Names (Γ : Locale) (excludedPaths : List WString) (T : VolumeTree fs root) (e : MftEntry) : Prop :=
  ∃ excl ∈ excludedPaths, Γ.lower excl = Γ.lower (T.pathOf e) ∨ Γ.lower excl = Γ.lower (T.dirPath e.parentFrn)

/-- In an open directory the files excluded are those that an exclusion names. -/
theorem isExcluded_pathOf_iff {frn : UInt64} {e : MftEntry} (he : (frn, e) ∈ T.table.entries) (hne : frn ≠ T.rootFrn)
    (hopen : T.Open Γ excludedPaths e.parentFrn) :
    isExcluded Γ (T.pathOf e) excludedPaths = true ↔ T.Names Γ excludedPaths e := by
  have hdir := (T.parent frn e he hne).2
  have h := isExcluded_fullPath (backslash_not_mem_name he) (hopen _ ReflTransGen.refl)
  rw [fullPath_spelled hdir, withBackslash_spelled hdir] at h
  exact h

end VolumeTree

/-- The two scanners report the same paths. -/
def ScansAgree (Γ : Locale) (fs : FileSystem) (excludedPaths : List WString) (root : WString) : Prop :=
  ∀ path, (∃ fe ∈ FindFileScanner.scan Γ fs excludedPaths root, fe.path = path) ↔
    ∃ fe ∈ MftScanner.scan Γ fs excludedPaths root, fe.path = path

/-- For every volume and every list of exclusions: the two scanners report the same paths exactly when every file that an
exclusion names, itself or by its directory with the trailing backslash, has an excluded directory above it. -/
theorem scansAgree_iff (Γ : Locale) {fs : FileSystem} {root : WString} (T : VolumeTree fs root) (excludedPaths : List WString) :
    ScansAgree Γ fs excludedPaths root ↔
      ∀ frn e, (frn, e) ∈ T.table.entries → e.isDirectory = false → T.Names Γ excludedPaths e →
        ∃ dir, T.Above dir e.parentFrn ∧ isExcluded Γ (T.spelled dir) excludedPaths = true := by
  have hfile : ∀ {frn e}, (frn, e) ∈ T.table.entries → e.isDirectory = false → frn ≠ T.rootFrn := by
    rintro frn e he hd rfl
    rw [(T.rootRecord e he).2] at hd
    cases hd
  constructor
  · intro hagree frn e he hd hnames
    by_contra hnone
    have hopen : T.Open Γ excludedPaths e.parentFrn := by
      intro a ha
      by_contra hbad
      exact hnone ⟨a, ha, by simpa using hbad⟩
    obtain ⟨frn', e', he', -, hpath, hex⟩ := (VolumeTree.mem_mftScan_iff (T := T)).1
      ((hagree (T.pathOf e)).1 (VolumeTree.mem_findFileScan_iff.2 ⟨frn, e, he, hd, rfl, hopen⟩))
    have hexcluded := (VolumeTree.isExcluded_pathOf_iff he (hfile he hd) hopen).2 hnames
    rw [← hpath] at hexcluded
    exact absurd (hex.symm.trans hexcluded) (by simp)
  · intro hcond path
    rw [VolumeTree.mem_findFileScan_iff (T := T), VolumeTree.mem_mftScan_iff (T := T)]
    constructor
    · rintro ⟨frn, e, he, hd, hpath, hopen⟩
      refine ⟨frn, e, he, hd, hpath, ?_⟩
      by_contra hbad
      have hnames := (VolumeTree.isExcluded_pathOf_iff he (hfile he hd) hopen).1 (by simpa using hbad)
      obtain ⟨a, ha, hex⟩ := hcond frn e he hd hnames
      exact absurd ((hopen a ha).symm.trans hex) (by simp)
    · rintro ⟨frn, e, he, hd, hpath, hex⟩
      exact ⟨frn, e, he, hd, hpath, VolumeTree.open_of_not_isExcluded he (hfile he hd) hex⟩

namespace TwoLevels

/-- `C:\`. -/
def drive : WString := wide ['C', ':', '\\']

/-- The directory `d`, the file `a` in it, and the file `b` in the root. -/
def d : MftEntry := ⟨wide ['d'], 5, 0x10⟩
def a : MftEntry := ⟨wide ['a'], 6, 0x20⟩
def b : MftEntry := ⟨wide ['b'], 5, 0x20⟩

theorem depth_decreases {frn : UInt64} {e : MftEntry}
    (h : (frn, e) ∈ [(5, ⟨wide ['.'], 5, 0x10⟩), (6, d), (7, a), (8, b)]) (hne : e.parentFrn ≠ frn) :
    (if e.parentFrn = 5 then 0 else if e.parentFrn = 7 then 2 else 1) < if frn = 5 then 0 else if frn = 7 then 2 else 1 := by
  simp only [List.mem_cons, List.not_mem_nil, or_false, Prod.mk.injEq] at h
  rcases h with ⟨rfl, rfl⟩ | ⟨rfl, rfl⟩ | ⟨rfl, rfl⟩ | ⟨rfl, rfl⟩
  · exact absurd rfl hne
  · decide
  · decide
  · decide

def table : MftVolume where
  entries := [(5, ⟨wide ['.'], 5, 0x10⟩), (6, d), (7, a), (8, b)]
  nodup := by decide
  depth frn := if frn = 5 then 0 else if frn = 7 then 2 else 1
  depth_parent _ _ h hne := depth_decreases (Assoc.mem_of_lookup h) hne

/-- What a listing says of a record. -/
def found (e : MftEntry) : FindData := ⟨e.name, e.attributes, 0, 0, 0, 0⟩

def listings (pattern : WString) : Option (List FindData) :=
  if pattern = drive ++ wide ['*'] then some [found d, found b]
  else if pattern = drive ++ wide ['d', '\\', '*'] then some [found a]
  else none

theorem listings_eq {pattern : WString} {fds : List FindData} (h : listings pattern = some fds) :
    pattern = drive ++ wide ['*'] ∧ fds = [found d, found b] ∨ pattern = drive ++ wide ['d', '\\', '*'] ∧ fds = [found a] := by
  rw [listings] at h
  split at h
  · rename_i hroot
    exact .inl ⟨hroot, (Option.some.inj h).symm⟩
  · split at h
    · rename_i hd
      exact .inr ⟨hd, (Option.some.inj h).symm⟩
    · cases h

/-- The volume as Windows reports it. -/
def system : FileSystem where
  findFiles := listings
  below dir := if withBackslash dir = drive then 1 else 0
  mft _ := some table
  fsName _ := some (wide ['N', 'T', 'F', 'S'])
  logicalDrives := 4
  isFixed _ := true
  name_findFiles pattern fds h fd hfd := by
    rcases listings_eq h with ⟨-, rfl⟩ | ⟨-, rfl⟩
    · have hall : ∀ fd ∈ [found d, found b], backslash ∉ fd.cFileName := by decide
      exact hall fd hfd
    · have hall : ∀ fd ∈ [found a], backslash ∉ fd.cFileName := by decide
      exact hall fd hfd
  name_mft := by
    rintro volume m ⟨⟩ e he
    have hall : ∀ e ∈ table.entries, backslash ∉ e.2.name := by decide
    exact hall e he
  below_subdirs dir fds h := by
    rcases listings_eq h with ⟨hpattern, rfl⟩ | ⟨-, rfl⟩
    · have hdir : withBackslash dir = drive := List.append_cancel_right hpattern
      have hsubs : subdirs dir [found d, found b] = [fullPath dir d.name] := rfl
      have hsub : fullPath dir d.name = drive ++ wide ['d'] := by rw [fullPath, hdir]; rfl
      rw [hsubs, hsub, if_pos hdir]
      decide
    · exact Nat.zero_le _

theorem mem_table {frn : UInt64} {e : MftEntry} (h : (frn, e) ∈ table.entries) :
    frn = 5 ∧ e = ⟨wide ['.'], 5, 0x10⟩ ∨ frn = 6 ∧ e = d ∨ frn = 7 ∧ e = a ∨ frn = 8 ∧ e = b := by
  simpa only [table, List.mem_cons, List.not_mem_nil, or_false, Prod.mk.injEq] using h

theorem isDir_cases {dir : UInt64} (h : table.IsDir 5 dir) : dir = 5 ∨ dir = 6 := by
  rcases h with h | ⟨e, he, hd⟩
  · exact .inl h
  · rcases mem_table he with ⟨h, -⟩ | ⟨h, -⟩ | ⟨-, rfl⟩ | ⟨-, rfl⟩
    · exact .inl h
    · exact .inr h
    · exact absurd hd (by decide)
    · exact absurd hd (by decide)

/-- The volume is a tree that both scanners see. -/
def tree : VolumeTree system drive where
  table := table
  rootFrn := 5
  drive := ⟨0x43, rfl⟩
  mft := rfl
  rootRecord e he := by
    rcases mem_table he with ⟨-, rfl⟩ | ⟨h, -⟩ | ⟨h, -⟩ | ⟨h, -⟩
    · decide
    all_goals exact absurd h (by decide)
  parent frn e he hne := by
    rcases mem_table he with ⟨h, -⟩ | ⟨rfl, rfl⟩ | ⟨rfl, rfl⟩ | ⟨rfl, rfl⟩
    · exact absurd h hne
    · exact ⟨by decide, .inl rfl⟩
    · exact ⟨by decide, .inr ⟨d, by simp [table, a], by decide⟩⟩
    · exact ⟨by decide, .inl rfl⟩
  named frn e he := by
    rcases mem_table he with ⟨-, rfl⟩ | ⟨-, rfl⟩ | ⟨-, rfl⟩ | ⟨-, rfl⟩ <;> decide
  listing dir hdir := by
    rcases isDir_cases hdir with rfl | rfl
    · refine ⟨[found d, found b], by decide +kernel, fun name isDirectory => ⟨?_, ?_⟩⟩
      · rintro ⟨fd, hfd, -, rfl, rfl⟩
        rcases List.mem_pair.1 hfd with rfl | rfl
        · exact ⟨6, d, by simp [table], by decide, rfl, rfl, rfl⟩
        · exact ⟨8, b, by simp [table], by decide, rfl, rfl, rfl⟩
      · rintro ⟨frn, e, he, hne, hparent, rfl, rfl⟩
        rcases mem_table he with ⟨h, -⟩ | ⟨-, rfl⟩ | ⟨-, rfl⟩ | ⟨-, rfl⟩
        · exact absurd h hne
        · exact ⟨found d, by simp, by decide, rfl, rfl⟩
        · exact absurd hparent (by decide)
        · exact ⟨found b, by simp, by decide, rfl, rfl⟩
    · refine ⟨[found a], by decide +kernel, fun name isDirectory => ⟨?_, ?_⟩⟩
      · rintro ⟨fd, hfd, -, rfl, rfl⟩
        rw [List.mem_singleton.1 hfd]
        exact ⟨7, a, by simp [table], by decide, rfl, rfl, rfl⟩
      · rintro ⟨frn, e, he, hne, hparent, rfl, rfl⟩
        rcases mem_table he with ⟨h, -⟩ | ⟨-, rfl⟩ | ⟨-, rfl⟩ | ⟨-, rfl⟩
        · exact absurd h hne
        · exact absurd hparent (by decide)
        · exact ⟨found a, List.mem_singleton_self _, by decide, rfl, rfl⟩
        · exact absurd hparent (by decide)

/-- `C:\d` and `C:\d\a`. -/
def excluded : List WString := [drive ++ wide ['d'], drive ++ wide ['d', '\\', 'a']]

/-- With the directory excluded it makes no difference that the file is, too. -/
theorem scansAgree_iff_excluded : ScansAgree .c system excluded drive := by
  refine (scansAgree_iff .c tree excluded).2 (fun frn e he hd hnames => ?_)
  rcases mem_table he with ⟨-, rfl⟩ | ⟨-, rfl⟩ | ⟨-, rfl⟩ | ⟨-, rfl⟩
  · exact absurd hd (by decide)
  · exact absurd hd (by decide)
  · exact ⟨6, ReflTransGen.refl, by decide +kernel⟩
  · obtain ⟨excl, hexcl, hnames⟩ := hnames
    rcases List.mem_pair.1 hexcl with rfl | rfl
    · exact absurd hnames (by decide +kernel)
    · exact absurd hnames (by decide +kernel)

end TwoLevels

namespace OneFile

/-- `C:\`. -/
def drive : WString := wide ['C', ':', '\\']

/-- `C:\a`. -/
def file : WString := drive ++ wide ['a']

/-- The table of a volume with one file, `a`, in its root. -/
def table : MftVolume where
  entries := [(5, ⟨wide ['.'], 5, 0x10⟩), (6, ⟨wide ['a'], 5, 0x20⟩)]
  nodup := by decide
  depth frn := if frn = 5 then 0 else 1
  depth_parent := by
    intro frn e h hne
    have hmem := Assoc.mem_of_lookup h
    simp only [List.mem_cons, List.not_mem_nil, or_false, Prod.mk.injEq] at hmem
    rcases hmem with ⟨rfl, rfl⟩ | ⟨rfl, rfl⟩
    · exact absurd rfl hne
    · decide

/-- The volume as Windows reports it. -/
def system : FileSystem where
  findFiles pattern := if pattern = drive ++ wide ['*'] then some [⟨wide ['a'], 0x20, 0, 0, 0, 0⟩] else none
  below _ := 0
  mft _ := some table
  fsName _ := some (wide ['N', 'T', 'F', 'S'])
  logicalDrives := 4
  isFixed _ := true
  name_findFiles := by
    intro pattern fds h fd hfd
    split at h
    · cases h
      rw [List.mem_singleton.1 hfd]
      decide
    · cases h
  name_mft := by
    rintro volume m ⟨⟩ e he
    simp only [table, List.mem_cons, List.not_mem_nil, or_false] at he
    rcases he with rfl | rfl <;> decide
  below_subdirs := by
    intro dir fds h
    split at h
    · cases h
      exact Nat.le_refl _
    · cases h

theorem mem_table {frn : UInt64} {e : MftEntry} (h : (frn, e) ∈ table.entries) :
    frn = 5 ∧ e = ⟨wide ['.'], 5, 0x10⟩ ∨ frn = 6 ∧ e = ⟨wide ['a'], 5, 0x20⟩ := by
  simpa only [table, List.mem_cons, List.not_mem_nil, or_false, Prod.mk.injEq] using h

theorem isDir_eq {dir : UInt64} (h : table.IsDir 5 dir) : dir = 5 := by
  rcases h with h | ⟨e, he, hd⟩
  · exact h
  · rcases mem_table he with ⟨h, -⟩ | ⟨-, rfl⟩
    · exact h
    · exact absurd hd (by decide)

/-- The volume is a tree that both scanners see. -/
def tree : VolumeTree system drive where
  table := table
  rootFrn := 5
  drive := ⟨0x43, rfl⟩
  mft := rfl
  rootRecord := by
    intro e he
    rcases mem_table he with ⟨-, rfl⟩ | ⟨h, -⟩
    · decide
    · exact absurd h (by decide)
  parent := by
    intro frn e he hne
    rcases mem_table he with ⟨h, -⟩ | ⟨rfl, rfl⟩
    · exact absurd h hne
    · exact ⟨by decide, .inl rfl⟩
  named := by
    intro frn e he
    rcases mem_table he with ⟨-, rfl⟩ | ⟨-, rfl⟩ <;> decide
  listing := by
    intro dir hdir
    rw [isDir_eq hdir]
    refine ⟨[⟨wide ['a'], 0x20, 0, 0, 0, 0⟩], by decide +kernel, ?_⟩
    intro name isDirectory
    constructor
    · rintro ⟨fd, hfd, -, rfl, rfl⟩
      rw [List.mem_singleton.1 hfd]
      exact ⟨6, ⟨wide ['a'], 5, 0x20⟩, by simp [table], by decide, rfl, rfl, by decide⟩
    · rintro ⟨frn, e, he, hne, -, rfl, rfl⟩
      rcases mem_table he with ⟨h, -⟩ | ⟨-, rfl⟩
      · exact absurd h hne
      · exact ⟨_, List.mem_singleton_self _, by decide, rfl, by decide⟩

end OneFile

/-- The exclusion of one file is heeded by the scanner of the table and not by the other: on a volume with that file alone the
first reports nothing, the second the file. -/
theorem excluded_file_found_by_one_scanner :
    Nonempty (VolumeTree OneFile.system OneFile.drive) ∧ ¬ScansAgree .c OneFile.system [OneFile.file] OneFile.drive := by
  refine ⟨⟨OneFile.tree⟩, ?_⟩
  intro h
  have hfound : (FindFileScanner.scan .c OneFile.system [OneFile.file] OneFile.drive).map FileEntry.path = [OneFile.file] := by
    decide +kernel
  have hnone : MftScanner.scan .c OneFile.system [OneFile.file] OneFile.drive = [] := by
    decide +kernel
  have hmem : OneFile.file ∈ (FindFileScanner.scan .c OneFile.system [OneFile.file] OneFile.drive).map FileEntry.path := by
    rw [hfound]
    exact List.mem_singleton_self _
  obtain ⟨fe, hfe, hpath⟩ := List.mem_map.1 hmem
  obtain ⟨fe', hfe', -⟩ := (h OneFile.file).1 ⟨fe, hfe, hpath⟩
  rw [hnone] at hfe'
  cases hfe'

end WinIndex
