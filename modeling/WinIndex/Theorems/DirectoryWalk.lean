import WinIndex.DirectoryTree
import WinIndex.Lemmas.Scan
import WinIndex.Lib.PathTree
import WinIndex.Lib.Worklist

/-!
# What the directory walk reports

The loop of `ScanDirectory` is a worklist over the directories of a tree: an excluded directory has no children and nothing to
report, and reparse points are no children. On every finite tree it ends, and has reported each file once whose directory is
neither excluded nor behind a reparse point.
-/

namespace WinIndex

open Worklist

variable {Γ : Locale} {excludedPaths : List WString} {root : WString} {findFiles : WString → Option (List FindData)}

namespace DirectoryTree

variable {T : DirectoryTree} {dir : List WString}

/-! ## Names and paths -/

theorem IsDirectory.names (h : T.IsDirectory dir) : ∀ n ∈ dir, n ≠ [] ∧ backslash ∉ n := by
  induction h with
  | root => simp
  | child hdir hfd _ _ ih =>
    intro n hn
    rcases List.mem_append.1 hn with hn | hn
    · exact ih n hn
    · rw [List.mem_singleton.1 hn]
      exact T.named _ hdir _ hfd

/-- The path of what is in a directory: the names on the way to it with single separators. -/
theorem fullPath_pathUnder (hnames : ∀ n ∈ dir, n ≠ [] ∧ backslash ∉ n) (root name : WString) :
    fullPath (pathUnder root dir) name = withBackslash root ++ [backslash].intercalate (dir ++ [name]) := by
  rw [fullPath, PathTree.intercalate_concat]
  rcases List.eq_nil_or_concat dir with rfl | ⟨above, last, rfl⟩
  · simp [pathUnder]
  · obtain ⟨hne, hlast⟩ := hnames last (by simp)
    have hend : (withBackslash root ++ (above.flatMap (· ++ [backslash]) ++ last)).getLast? ≠ some backslash := by
      rw [← List.append_assoc, List.getLast?_append_of_ne_nil _ hne]
      exact fun h => hlast (List.mem_of_getLast? h)
    rw [pathUnder, if_neg (by simp), List.concat_eq_append, PathTree.intercalate_concat, withBackslash, if_neg hend]
    simp [List.append_assoc]

theorem pathUnder_child (hnames : ∀ n ∈ dir, n ≠ [] ∧ backslash ∉ n) (root name : WString) :
    pathUnder root (dir ++ [name]) = fullPath (pathUnder root dir) name := by
  rw [fullPath_pathUnder hnames, pathUnder, if_neg (by simp)]

/-- Names can be read off the path they make. -/
theorem path_injective {names names' : List WString} (hne : names ≠ []) (hne' : names' ≠ [])
    (hnames : ∀ n ∈ names, backslash ∉ n) (hnames' : ∀ n ∈ names', backslash ∉ n)
    (h : withBackslash root ++ [backslash].intercalate names = withBackslash root ++ [backslash].intercalate names') :
    names = names' :=
  PathTree.intercalate_inj hne hne' hnames hnames' (List.append_cancel_left h)

/-! ## Reparse points -/

/-- What is in a directory behind a reparse point is behind it, too, and so is a reparse point itself. -/
theorem behindReparsePointAt_child {listing : List WString → List FindData} {fd : FindData} (hfd : fd ∈ listing dir)
    (h : BehindReparsePointAt listing dir ∨ fd.isReparsePoint = true) : BehindReparsePointAt listing (dir ++ [fd.cFileName]) := by
  rcases h with ⟨parent, fd', hfd', hpre, hreparse⟩ | hreparse
  · exact ⟨parent, fd', hfd', hpre.trans (List.prefix_append _ _), hreparse⟩
  · exact ⟨dir, fd, hfd, List.prefix_refl _, hreparse⟩

/-- A directory is behind a reparse point when its parent is, or it is one. -/
theorem behindReparsePoint_child (h : T.IsDirectory dir) {fd : FindData} (hfd : fd ∈ T.listing dir) :
    T.BehindReparsePoint (dir ++ [fd.cFileName]) ↔ T.BehindReparsePoint dir ∨ fd.isReparsePoint = true := by
  constructor
  · rintro ⟨parent, fd', hfd', hpre, hreparse⟩
    rcases List.prefix_concat_iff.1 hpre with heq | hpre
    · obtain ⟨rfl, hname⟩ := List.append_inj' heq rfl
      rw [List.cons.injEq] at hname
      have := List.inj_on_of_nodup_map (T.distinct _ h) hfd' hfd hname.1
      exact .inr (this ▸ hreparse)
    · exact .inl ⟨parent, fd', hfd', hpre, hreparse⟩
  · exact behindReparsePointAt_child hfd

theorem not_behindReparsePoint_nil : ¬T.BehindReparsePoint [] := by
  rintro ⟨parent, fd, -, hpre, -⟩
  simpa using hpre.length_le

/-! ## The walk over the names -/

/-- The directories that the walk goes on to, by their names. -/
def goesOnTo (T : DirectoryTree) (Γ : Locale) (excludedPaths : List WString) (root : WString) (dir : List WString) :
    List (List WString) :=
  if isExcluded Γ (pathUnder root dir) excludedPaths = true then [] else
    ((T.listing dir).filter (fun fd => !fd.skipped && fd.isDirectory)).map (fun fd => dir ++ [fd.cFileName])

/-- The files that the walk finds in a directory. -/
def found (T : DirectoryTree) (Γ : Locale) (excludedPaths : List WString) (root : WString) (dir : List WString) :
    List FileEntry :=
  if isExcluded Γ (pathUnder root dir) excludedPaths = true then [] else filesIn Γ (pathUnder root dir) (T.listing dir)

theorem skipped_eq_false_iff {fd : FindData} : fd.skipped = false ↔ fd.isDot = false ∧ fd.isReparsePoint = false := by
  simp only [FindData.skipped, FindData.isDot, FindData.isReparsePoint, Bool.or_eq_false_iff, decide_eq_false_iff_not]
  tauto

theorem mem_goesOnTo {sub : List WString} :
    sub ∈ T.goesOnTo Γ excludedPaths root dir ↔ isExcluded Γ (pathUnder root dir) excludedPaths = false ∧
      ∃ fd ∈ T.listing dir, fd.skipped = false ∧ fd.isDirectory = true ∧ dir ++ [fd.cFileName] = sub := by
  rw [goesOnTo]
  cases isExcluded Γ (pathUnder root dir) excludedPaths <;> simp [and_assoc]

/-- The walk stays in front of reparse points. -/
theorem of_mem_goesOnTo (h : T.IsDirectory dir ∧ ¬T.BehindReparsePoint dir) {sub : List WString}
    (hsub : sub ∈ T.goesOnTo Γ excludedPaths root dir) : T.IsDirectory sub ∧ ¬T.BehindReparsePoint sub := by
  obtain ⟨hdir, hbehind⟩ := h
  obtain ⟨-, fd, hfd, hskip, hd, rfl⟩ := mem_goesOnTo.1 hsub
  obtain ⟨hdot, hreparse⟩ := skipped_eq_false_iff.1 hskip
  refine ⟨.child hdir hfd hd hdot, ?_⟩
  rw [behindReparsePoint_child hdir hfd, not_or]
  exact ⟨hbehind, by simp [hreparse]⟩

/-- The queue that the walk begins with. -/
theorem of_mem_start : ∀ dir ∈ [([] : List WString)], T.IsDirectory dir ∧ ¬T.BehindReparsePoint dir := by
  intro dir hdir
  rw [List.mem_singleton.1 hdir]
  exact ⟨.root, not_behindReparsePoint_nil⟩

/-- The walk over the paths is the walk over the names. -/
theorem scanDirectory_eq_run (hlisted : T.ListedAt findFiles root) (fuel : Nat) :
    FindFileScanner.scanDirectory Γ findFiles excludedPaths fuel [root] =
      Worklist.run (T.goesOnTo Γ excludedPaths root) (T.found Γ excludedPaths root) fuel [[]] := by
  rw [FindFileScanner.scanDirectory_eq_run]
  refine Worklist.run_map (pathUnder root) (fun dir hdir sub => of_mem_goesOnTo hdir) ?_ ?_ fuel of_mem_start
  · rintro dir ⟨hdir, hbehind⟩
    rw [FindFileScanner.queued, goesOnTo, hlisted dir hdir hbehind]
    split
    · rfl
    · simp only [subdirs, List.map_map]
      exact List.map_congr_left (fun fd _ => (pathUnder_child hdir.names root fd.cFileName).symm)
  · rintro dir ⟨hdir, hbehind⟩
    rw [FindFileScanner.reported, found, hlisted dir hdir hbehind]

/-! ## The walk ends -/

/-- Every way down the tree ends. -/
theorem acc_goesOnTo (h : T.IsDirectory dir ∧ ¬T.BehindReparsePoint dir) :
    Acc (fun sub dir => sub ∈ T.goesOnTo Γ excludedPaths root dir) dir := by
  obtain ⟨n, hn⟩ : ∃ n, T.height - dir.length = n := ⟨_, rfl⟩
  induction n using Nat.strongRecOn generalizing dir with
  | _ n ih =>
    refine Acc.intro dir (fun sub hsub => ?_)
    have hopen := of_mem_goesOnTo h hsub
    have hheight := T.finite sub hopen.1 hopen.2
    obtain ⟨-, fd, -, -, -, rfl⟩ := mem_goesOnTo.1 hsub
    rw [List.length_append, List.length_singleton] at hheight
    exact ih (T.height - (dir ++ [fd.cFileName]).length) (by simp only [List.length_append, List.length_singleton]; omega) hopen rfl

/-! ## What the walk gets to -/

/-- What is in an excluded directory is excluded. -/
theorem isExcluded_child (h : T.IsDirectory dir) (name : WString)
    (hex : isExcluded Γ (pathUnder root (dir ++ [name])) excludedPaths = false) :
    isExcluded Γ (pathUnder root dir) excludedPaths = false := by
  rw [pathUnder_child h.names] at hex
  by_contra hdir
  exact absurd (isExcluded_fullPath_of_dir name (by simpa using hdir)) (by simp [hex])

/-- The walk gets to the directories that are not behind a reparse point, through directories that are not excluded. -/
theorem of_reaches (h : Reaches (T.goesOnTo Γ excludedPaths root) [] dir) : T.IsDirectory dir ∧ ¬T.BehindReparsePoint dir := by
  induction h with
  | refl => exact of_mem_start [] (by simp)
  | tail _ hsub ih => exact of_mem_goesOnTo ih hsub

theorem reaches_of_not_excluded (h : T.IsDirectory dir) (hbehind : ¬T.BehindReparsePoint dir)
    (hex : isExcluded Γ (pathUnder root dir) excludedPaths = false) : Reaches (T.goesOnTo Γ excludedPaths root) [] dir := by
  induction h with
  | root => exact .refl
  | child hdir hfd hd hdot ih =>
    rw [behindReparsePoint_child hdir hfd, not_or] at hbehind
    have hparent := isExcluded_child hdir _ hex
    have hskip := skipped_eq_false_iff.2 ⟨hdot, by simpa using hbehind.2⟩
    exact (ih hbehind.1 hparent).tail (mem_goesOnTo.2 ⟨hparent, _, hfd, hskip, hd, rfl⟩)

/-! ## Nothing comes twice -/

/-- Whatever the walk gets to from a directory has its names in front. -/
theorem prefix_of_reaches {sub : List WString} (h : Reaches (T.goesOnTo Γ excludedPaths root) dir sub) : dir <+: sub := by
  induction h with
  | refl => exact List.prefix_refl dir
  | tail _ hsub ih =>
    obtain ⟨-, fd, -, -, -, rfl⟩ := mem_goesOnTo.1 hsub
    exact ih.trans (List.prefix_append _ _)

/-- Different directories in one have nothing in common. -/
theorem pairwise_apart_goesOnTo (h : T.IsDirectory dir) :
    (T.goesOnTo Γ excludedPaths root dir).Pairwise (Apart (T.goesOnTo Γ excludedPaths root)) := by
  have hnodup : (((T.listing dir).filter (fun fd => !fd.skipped && fd.isDirectory)).map FindData.cFileName).Nodup :=
    (T.distinct dir h).sublist (List.filter_sublist.map _)
  have hnames : (T.goesOnTo Γ excludedPaths root dir).Pairwise (fun a b => a.length = b.length ∧ a ≠ b) := by
    rw [goesOnTo]
    split
    · exact List.Pairwise.nil
    · rw [List.pairwise_map]
      exact (List.pairwise_map.1 hnodup).imp (fun hne => ⟨by simp, fun heq => hne (by simpa using heq)⟩)
  refine hnames.imp (fun {a b} hab c hac hbc => hab.2 ?_)
  exact (List.prefix_of_prefix_length_le (prefix_of_reaches hac) (prefix_of_reaches hbc) (Nat.le_of_eq hab.1)).eq_of_length hab.1

theorem mem_found {fe : FileEntry} :
    fe ∈ T.found Γ excludedPaths root dir ↔ isExcluded Γ (pathUnder root dir) excludedPaths = false ∧
      ∃ fd ∈ T.listing dir, fd.skipped = false ∧ fd.isDirectory = false ∧ fd.entry Γ (pathUnder root dir) = fe := by
  rw [found]
  cases isExcluded Γ (pathUnder root dir) excludedPaths <;> simp [mem_filesIn]

/-- The path of a file tells its directory and its name. -/
theorem eq_of_path_eq {dir' : List WString} (h : T.IsDirectory dir) (h' : T.IsDirectory dir') {fd fd' : FindData}
    (hfd : fd ∈ T.listing dir) (hfd' : fd' ∈ T.listing dir')
    (hpath : fullPath (pathUnder root dir) fd.cFileName = fullPath (pathUnder root dir') fd'.cFileName) :
    dir = dir' ∧ fd.cFileName = fd'.cFileName := by
  rw [fullPath_pathUnder h.names, fullPath_pathUnder h'.names] at hpath
  have hno : ∀ {d : List WString} {f : FindData}, T.IsDirectory d → f ∈ T.listing d → ∀ n ∈ d ++ [f.cFileName], backslash ∉ n := by
    intro d f hd hf n hn
    rcases List.mem_append.1 hn with hn | hn
    · exact (hd.names n hn).2
    · rw [List.mem_singleton.1 hn]
      exact (T.named d hd f hf).2
  have heq := path_injective (by simp) (by simp) (hno h hfd) (hno h' hfd') hpath
  obtain ⟨hdir, hname⟩ := List.append_inj' heq rfl
  exact ⟨hdir, by simpa using hname⟩

/-- The paths found in one directory are different. -/
theorem nodup_found (h : T.IsDirectory dir) : ((T.found Γ excludedPaths root dir).map FileEntry.path).Nodup := by
  rw [found]
  split
  · exact List.nodup_nil
  · have hnodup : (((T.listing dir).filter (fun fd => !fd.skipped && !fd.isDirectory)).map FindData.cFileName).Nodup :=
      (T.distinct dir h).sublist (List.filter_sublist.map _)
    rw [filesIn, List.map_map]
    refine List.pairwise_map.2 ((List.pairwise_map.1 hnodup).imp (fun hne heq => hne ?_))
    exact List.append_cancel_left heq

/-- The paths found on the whole walk are different: no directory comes twice, no name in a directory, and the path tells both. -/
theorem nodup_files {nodes : List (List WString)} (h : Unfolds (T.goesOnTo Γ excludedPaths root) [[]] nodes) :
    ((nodes.flatMap (T.found Γ excludedPaths root)).map FileEntry.path).Nodup := by
  have hnodup : nodes.Nodup :=
    h.nodup (P := fun dir => T.IsDirectory dir ∧ ¬T.BehindReparsePoint dir) (fun dir hdir sub => of_mem_goesOnTo hdir)
      (fun dir hdir => pairwise_apart_goesOnTo hdir.1) of_mem_start (List.pairwise_singleton _ _)
  have hdir : ∀ dir ∈ nodes, T.IsDirectory dir := by
    intro dir hdir
    obtain ⟨start, hstart, hreaches⟩ := (h.mem_iff dir).1 hdir
    rw [List.mem_singleton.1 hstart] at hreaches
    exact (of_reaches hreaches).1
  rw [List.map_flatMap, List.nodup_flatMap]
  refine ⟨fun dir hmem => nodup_found (hdir dir hmem), hnodup.imp_of_mem (fun {a b} ha hb hne path hpa hpb => hne ?_)⟩
  obtain ⟨fe, hfe, rfl⟩ := List.mem_map.1 hpa
  obtain ⟨fe', hfe', hpath⟩ := List.mem_map.1 hpb
  obtain ⟨-, fd, hfd, -, -, rfl⟩ := mem_found.1 hfe
  obtain ⟨-, fd', hfd', -, -, rfl⟩ := mem_found.1 hfe'
  exact (eq_of_path_eq (hdir a ha) (hdir b hb) hfd hfd' hpath.symm).1

end DirectoryTree

/-- For every finite tree of directories that can be read, whatever is behind its reparse points, every root and every list of
exclusions: the walk ends and reports each file that is no reparse point once, under the root with the names on the way to it,
exactly when no directory on the way is a reparse point and its own directory is not excluded; and it reports nothing else. -/
theorem scanDirectory_reports_each_file_once (Γ : Locale) (T : DirectoryTree)
    {findFiles : WString → Option (List FindData)} {root : WString} (hlisted : T.ListedAt findFiles root)
    (excludedPaths : List WString) :
    ∃ files, (∃ fuel, ∀ more ≥ fuel, FindFileScanner.scanDirectory Γ findFiles excludedPaths more [root] = some files) ∧
      (files.map FileEntry.path).Nodup ∧
      (∀ fe ∈ files, ∃ dir fd, T.HasFile dir fd ∧ fe = fd.entry Γ (pathUnder root dir)) ∧
      ∀ dir fd, T.HasFile dir fd →
        (fd.entry Γ (pathUnder root dir)).path = withBackslash root ++ [backslash].intercalate (dir ++ [fd.cFileName]) ∧
          (fd.entry Γ (pathUnder root dir) ∈ files ↔
            ¬T.BehindReparsePoint dir ∧ isExcluded Γ (pathUnder root dir) excludedPaths = false) := by
  obtain ⟨nodes, hnodes⟩ : ∃ nodes, Unfolds (T.goesOnTo Γ excludedPaths root) [[]] nodes :=
    exists_unfolds (fun dir hdir => DirectoryTree.acc_goesOnTo (DirectoryTree.of_mem_start dir hdir))
  obtain ⟨files, hperm, hrun⟩ := run_of_unfolds (T.found Γ excludedPaths root) hnodes
  have hfiles : ∀ fe, fe ∈ files ↔
      ∃ dir, Reaches (T.goesOnTo Γ excludedPaths root) [] dir ∧ fe ∈ T.found Γ excludedPaths root dir := by
    intro fe
    rw [mem_run_iff (hrun _ (Nat.le_refl _))]
    simp
  refine ⟨files, ⟨nodes.length, fun more hmore => ?_⟩, ?_, ?_, ?_⟩
  · rw [DirectoryTree.scanDirectory_eq_run hlisted]
    exact hrun more hmore
  · exact (hperm.map FileEntry.path).nodup_iff.2 (DirectoryTree.nodup_files hnodes)
  · intro fe hfe
    obtain ⟨dir, hdir, hfound⟩ := (hfiles fe).1 hfe
    obtain ⟨-, fd, hfd, hskip, hd, rfl⟩ := DirectoryTree.mem_found.1 hfound
    obtain ⟨hdot, hreparse⟩ := DirectoryTree.skipped_eq_false_iff.1 hskip
    exact ⟨dir, fd, ⟨(DirectoryTree.of_reaches hdir).1, hfd, hd, hdot, hreparse⟩, rfl⟩
  · rintro dir fd ⟨hdir, hfd, hd, hdot, hreparse⟩
    refine ⟨DirectoryTree.fullPath_pathUnder hdir.names root fd.cFileName, ?_⟩
    rw [hfiles]
    constructor
    · rintro ⟨dir', hdir', hfound⟩
      obtain ⟨hex, fd', hfd', -, -, heq⟩ := DirectoryTree.mem_found.1 hfound
      obtain ⟨hisdir, hbehind⟩ := DirectoryTree.of_reaches hdir'
      obtain ⟨rfl, -⟩ := DirectoryTree.eq_of_path_eq hdir hisdir hfd hfd' (congrArg FileEntry.path heq.symm)
      exact ⟨hbehind, hex⟩
    · rintro ⟨hbehind, hex⟩
      have hskip := DirectoryTree.skipped_eq_false_iff.2 ⟨hdot, hreparse⟩
      exact ⟨dir, DirectoryTree.reaches_of_not_excluded hdir hbehind hex,
        DirectoryTree.mem_found.2 ⟨hex, fd, hfd, hskip, hd, rfl⟩⟩

namespace TwoDirectories

/-- `C:`. -/
def drive : WString := wide ['C', ':']

/-- The junction `l` in the directory `a`. -/
def junction : FindData := ⟨wide ['l'], 0x410, 0, 0, 0, 0⟩

/-- A file `f` and a directory `a`, which holds a file `g` and a junction `l` that leads back to `a`. -/
def listing (dir : List WString) : List FindData :=
  if dir = [] then [⟨wide ['f'], 0x20, 0, 0, 0, 0⟩, ⟨wide ['a'], 0x10, 0, 0, 0, 0⟩]
  else [⟨wide ['.'], 0x10, 0, 0, 0, 0⟩, ⟨wide ['.', '.'], 0x10, 0, 0, 0, 0⟩, ⟨wide ['g'], 0x20, 0, 0, 0, 0⟩, junction]

theorem directoryAt_cases {dir : List WString} (h : DirectoryAt listing dir) (hbehind : ¬BehindReparsePointAt listing dir) :
    dir = [] ∨ dir = [wide ['a']] := by
  induction h with
  | root => exact .inl rfl
  | @child dir fd _ hfd hd hdot ih =>
    obtain ⟨hparent, hreparse⟩ := not_or.1 (mt (DirectoryTree.behindReparsePointAt_child hfd) hbehind)
    rcases ih hparent with rfl | rfl
    · simp only [listing, if_true, List.mem_cons, List.not_mem_nil, or_false] at hfd
      rcases hfd with rfl | rfl
      · exact absurd hd (by decide)
      · exact .inr rfl
    · rw [listing, if_neg (by decide)] at hfd
      simp only [List.mem_cons, List.not_mem_nil, or_false] at hfd
      rcases hfd with rfl | rfl | rfl | rfl
      · exact absurd hdot (by decide)
      · exact absurd hdot (by decide)
      · exact absurd hd (by decide)
      · exact absurd (by decide) hreparse

/-- The tree of the two directories. -/
def tree : DirectoryTree where
  listing := listing
  height := 1
  finite := by
    intro dir h hbehind
    rcases directoryAt_cases h hbehind with rfl | rfl <;> decide
  named := by
    intro dir _
    rw [listing]
    split <;> decide
  distinct := by
    intro dir _
    rw [listing]
    split <;> decide

/-- The listings of the drive. -/
def listings (pattern : WString) : Option (List FindData) :=
  if pattern = searchPattern drive then some (listing [])
  else if pattern = searchPattern (fullPath drive (wide ['a'])) then some (listing [wide ['a']])
  else none

/-- The walk of the drive with the directory excluded: it reports `f` and not `g`. -/
theorem scanDirectory_reports_each_file_once_drive :
    ∃ files, (∃ fuel, ∀ more ≥ fuel, FindFileScanner.scanDirectory .c listings [wide ['C', ':', '\\', 'A']] more [drive] =
        some files) ∧
      (files.map FileEntry.path).Nodup ∧
      (∀ fe ∈ files, ∃ dir fd, tree.HasFile dir fd ∧ fe = fd.entry .c (pathUnder drive dir)) ∧
      ∀ dir fd, tree.HasFile dir fd →
        (fd.entry .c (pathUnder drive dir)).path = withBackslash drive ++ [backslash].intercalate (dir ++ [fd.cFileName]) ∧
          (fd.entry .c (pathUnder drive dir) ∈ files ↔
            ¬tree.BehindReparsePoint dir ∧ isExcluded .c (pathUnder drive dir) [wide ['C', ':', '\\', 'A']] = false) := by
  refine scanDirectory_reports_each_file_once .c tree ?_ [wide ['C', ':', '\\', 'A']]
  intro dir hdir hbehind
  rcases directoryAt_cases hdir hbehind with rfl | rfl <;> decide

end TwoDirectories

end WinIndex
