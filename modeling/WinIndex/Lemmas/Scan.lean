import WinIndex.DirectoryTree
import WinIndex.Indexer
import WinIndex.Lib.Worklist

/-!
# What the scanners report

Every file a scan reports was listed in a directory that is not excluded, under the root; and its own path is excluded, for
the scanner that only looks at directories, exactly when an exclusion names the file itself or its directory with a trailing
backslash.
-/

namespace WinIndex

variable {Γ : Locale}

/-! ## Prefixes and backslashes -/

theorem getLast?_withBackslash (s : WString) : (withBackslash s).getLast? = some backslash := by
  unfold withBackslash
  split
  · assumption
  · exact List.getLast?_append_of_ne_nil _ (by simp) |>.trans rfl

theorem withBackslash_of_getLast? {s : WString} (h : s.getLast? = some backslash) : withBackslash s = s := if_pos h

/-- A prefix that ends in a character the tail does not have is a prefix of what is before the tail. -/
theorem prefix_of_prefix_append {w d f : WString} {c : WChar} (hc : c ∉ f) (h : w ++ [c] <+: d ++ f) : w ++ [c] <+: d := by
  rcases List.prefix_or_prefix_of_prefix h (List.prefix_append d f) with hle | ⟨t, ht⟩
  · exact hle
  · rcases List.eq_nil_or_concat t with rfl | ⟨t', c', rfl⟩
    · rw [List.append_nil] at ht
      rw [ht]
    · -- the tail then ends in the character
      obtain ⟨u, hu⟩ := h
      rw [← ht, List.append_assoc, List.append_cancel_left_eq] at hu
      rw [List.concat_eq_append] at ht hu
      rw [← List.append_assoc] at ht
      have hlast := (List.append_inj' ht rfl).2
      rw [List.cons.injEq] at hlast
      exact absurd (by rw [← hu, hlast.1]; simp) hc

/-- The name in a directory begins behind the directory's backslash. -/
theorem nameStart_fullPath (dir : WString) {name : WString} (hn : backslash ∉ name) :
    nameStart (fullPath dir name) = (withBackslash dir).length := by
  obtain ⟨d, hd⟩ := withBackslash_eq dir
  rw [fullPath, hd, List.append_assoc, List.singleton_append, nameStart, rfind_append_cons d hn]
  simp

/-! ## Exclusions -/

theorem excludedBy_iff {path excl : WString} :
    excludedBy Γ path excl = true ↔
      Γ.lower path = Γ.lower excl ∨ withBackslash (Γ.lower excl) <+: Γ.lower path := by
  rw [excludedBy, Bool.or_eq_true, decide_eq_true_iff, List.isPrefixOf_iff_prefix]

/-- A file in a directory that an exclusion does not cover is covered when the exclusion is the file or its directory with a
backslash. -/
theorem excludedBy_fullPath {dir name excl : WString} (hn : backslash ∉ name) (hd : excludedBy Γ dir excl = false) :
    excludedBy Γ (fullPath dir name) excl = true ↔
      Γ.lower excl = Γ.lower (fullPath dir name) ∨ Γ.lower excl = Γ.lower (withBackslash dir) := by
  have hd' := mt excludedBy_iff.2 (by rw [hd]; exact Bool.false_ne_true)
  rw [not_or] at hd'
  obtain ⟨hne, hpre⟩ := hd'
  have hlow : Γ.lower (fullPath dir name) = withBackslash (Γ.lower dir) ++ Γ.lower name := by
    rw [fullPath, Γ.lower_append, Γ.lower_withBackslash]
  rw [excludedBy_iff, eq_comm (a := Γ.lower (fullPath dir name)), hlow, Γ.lower_withBackslash]
  apply or_congr_right
  constructor
  · intro h
    obtain ⟨w, hw⟩ := withBackslash_eq (Γ.lower excl)
    rw [hw] at h
    have hle := prefix_of_prefix_append (mt (Γ.backslash_mem_lower name).1 hn) h
    rw [← hw] at hle
    by_cases hlast : (Γ.lower dir).getLast? = some backslash
    · rw [withBackslash_of_getLast? hlast] at hle
      exact absurd hle hpre
    · have hwd : withBackslash (Γ.lower dir) = Γ.lower dir ++ [backslash] := if_neg hlast
      rw [hwd] at hle ⊢
      rcases List.prefix_concat_iff.1 hle with heq | hle
      · by_cases hx : (Γ.lower excl).getLast? = some backslash
        · rwa [withBackslash_of_getLast? hx] at heq
        · rw [withBackslash, if_neg hx] at heq
          exact absurd (List.append_inj' heq rfl).1.symm hne
      · exact absurd hle hpre
  · intro h
    rw [h, withBackslash_of_getLast? (getLast?_withBackslash _)]
    exact List.prefix_append _ _

/-- A file in a directory that is not excluded is excluded when an exclusion is the file or its directory with a backslash. -/
theorem isExcluded_fullPath {dir name : WString} {excludedPaths : List WString} (hn : backslash ∉ name)
    (hd : isExcluded Γ dir excludedPaths = false) :
    isExcluded Γ (fullPath dir name) excludedPaths = true ↔
      ∃ excl ∈ excludedPaths, Γ.lower excl = Γ.lower (fullPath dir name) ∨ Γ.lower excl = Γ.lower (withBackslash dir) := by
  rw [isExcluded, List.any_eq_true]
  refine exists_congr (fun excl => and_congr_right (fun hx => ?_))
  have hall := List.any_eq_false.1 hd excl hx
  exact excludedBy_fullPath hn (by simpa using hall)

/-- What is in an excluded directory is excluded. -/
theorem isExcluded_fullPath_of_dir {dir : WString} (name : WString) {excludedPaths : List WString}
    (h : isExcluded Γ dir excludedPaths = true) : isExcluded Γ (fullPath dir name) excludedPaths = true := by
  obtain ⟨excl, hx, hd⟩ := List.any_eq_true.1 h
  refine List.any_eq_true.2 ⟨excl, hx, excludedBy_iff.2 (.inr ?_)⟩
  have hlow : Γ.lower (fullPath dir name) = withBackslash (Γ.lower dir) ++ Γ.lower name := by
    rw [fullPath, Γ.lower_append, Γ.lower_withBackslash]
  rw [hlow]
  rcases excludedBy_iff.1 hd with heq | hpre
  · rw [heq]
    exact List.prefix_append _ _
  · exact (hpre.trans (prefix_withBackslash _)).trans (List.prefix_append _ _)

/-! ## FindFileScanner -/

section

variable {findFiles : WString → Option (List FindData)} {excludedPaths : List WString}

/-- The directories that the loop puts into the queue for one that it takes out. -/
def FindFileScanner.queued (Γ : Locale) (findFiles : WString → Option (List FindData)) (excludedPaths : List WString)
    (path : WString) : List WString :=
  if WinIndex.isExcluded Γ path excludedPaths = true then [] else
    match findFiles (searchPattern path) with
    | none => []
    | some fds => subdirs path fds

/-- The files that the loop reports for a directory that it takes out of the queue. -/
def FindFileScanner.reported (Γ : Locale) (findFiles : WString → Option (List FindData)) (excludedPaths : List WString)
    (path : WString) : List FileEntry :=
  if WinIndex.isExcluded Γ path excludedPaths = true then [] else
    match findFiles (searchPattern path) with
    | none => []
    | some fds => filesIn Γ path fds

theorem FindFileScanner.scanDirectory_eq_run (fuel : Nat) (dirQueue : List WString) :
    scanDirectory Γ findFiles excludedPaths fuel dirQueue =
      Worklist.run (queued Γ findFiles excludedPaths) (reported Γ findFiles excludedPaths) fuel dirQueue := by
  induction fuel generalizing dirQueue with
  | zero => cases dirQueue <;> rfl
  | succ fuel ih =>
    cases dirQueue with
    | nil => rfl
    | cons current dirQueue =>
      rw [scanDirectory, Worklist.run, queued, reported]
      by_cases hex : WinIndex.isExcluded Γ current excludedPaths = true
      · simp [FindFileScanner.isExcluded, hex, ih]
      · cases hf : findFiles (searchPattern current) with
        | none => simp [FindFileScanner.isExcluded, hex, ih]
        | some fds => simp [FindFileScanner.isExcluded, hex, ih]

theorem FindFileScanner.mem_queued {dir sub : WString} :
    sub ∈ queued Γ findFiles excludedPaths dir ↔ WinIndex.isExcluded Γ dir excludedPaths = false ∧
      ∃ fds, findFiles (searchPattern dir) = some fds ∧ sub ∈ subdirs dir fds := by
  rw [queued]
  cases WinIndex.isExcluded Γ dir excludedPaths with
  | true => simp
  | false => cases findFiles (searchPattern dir) <;> simp

theorem FindFileScanner.mem_reported {dir : WString} {fe : FileEntry} :
    fe ∈ reported Γ findFiles excludedPaths dir ↔ WinIndex.isExcluded Γ dir excludedPaths = false ∧
      ∃ fds, findFiles (searchPattern dir) = some fds ∧ fe ∈ filesIn Γ dir fds := by
  rw [reported]
  cases WinIndex.isExcluded Γ dir excludedPaths with
  | true => simp
  | false => cases findFiles (searchPattern dir) <;> simp

end

/-- The scanner goes from a directory that is not excluded into those its listing gives. -/
def GoesInto (Γ : Locale) (fs : FileSystem) (excludedPaths : List WString) (dir sub : WString) : Prop :=
  isExcluded Γ dir excludedPaths = false ∧ ∃ fds, fs.findFiles (searchPattern dir) = some fds ∧ sub ∈ subdirs dir fds

/-- What a scan reports: the files of every directory that is not excluded and can be got to through such directories. -/
theorem FindFileScanner.mem_scan_iff {fs : FileSystem} {excludedPaths : List WString} {root : WString} {fe : FileEntry} :
    fe ∈ FindFileScanner.scan Γ fs excludedPaths root ↔
      ∃ dir fds, Relation.ReflTransGen (GoesInto Γ fs excludedPaths) root dir ∧
        WinIndex.isExcluded Γ dir excludedPaths = false ∧ fs.findFiles (searchPattern dir) = some fds ∧
        fe ∈ filesIn Γ dir fds := by
  have hrun := scanDirectory_eq_scanQueue Γ fs excludedPaths (Nat.le_refl (fs.pending [root]))
  have hgoes : (fun dir sub => sub ∈ queued Γ fs.findFiles excludedPaths dir) = GoesInto Γ fs excludedPaths := by
    funext dir sub
    exact propext mem_queued
  rw [scanDirectory_eq_run] at hrun
  rw [scan, Worklist.mem_run_iff hrun]
  simp only [List.mem_singleton, exists_eq_left, Worklist.Reaches, hgoes, mem_reported]
  constructor
  · rintro ⟨dir, hreach, hex, fds, hf, hfe⟩
    exact ⟨dir, fds, hreach, hex, hf, hfe⟩
  · rintro ⟨dir, fds, hreach, hex, hf, hfe⟩
    exact ⟨dir, hreach, hex, fds, hf, hfe⟩

/-- What the scanner gets to begins with the root and a backslash. -/
theorem prefix_of_goesInto {fs : FileSystem} {excludedPaths : List WString} {root dir : WString}
    (h : Relation.ReflTransGen (GoesInto Γ fs excludedPaths) root dir) : withBackslash root <+: withBackslash dir := by
  induction h with
  | refl => exact List.prefix_refl _
  | @tail dir _ _ hgoes ih =>
    obtain ⟨-, fds, -, hsub⟩ := hgoes
    obtain ⟨fd, -, -, -, rfl⟩ := mem_subdirs.1 hsub
    have hle : withBackslash dir <+: fullPath dir fd.cFileName := List.prefix_append _ _
    exact (ih.trans hle).trans (prefix_withBackslash _)

/-- A file reported for a root was listed in a directory under the root. -/
theorem FindFileScanner.mem_scan {fs : FileSystem} {excludedPaths : List WString} {root : WString} {fe : FileEntry}
    (h : fe ∈ FindFileScanner.scan Γ fs excludedPaths root) :
    ∃ dir name, withBackslash root <+: withBackslash dir ∧ WinIndex.isExcluded Γ dir excludedPaths = false ∧
      backslash ∉ name ∧ fe.path = fullPath dir name := by
  obtain ⟨dir, fds, hreach, hex, hf, hfe⟩ := mem_scan_iff.1 h
  obtain ⟨fd, hfd, -, -, rfl⟩ := mem_filesIn.1 hfe
  exact ⟨dir, fd.cFileName, prefix_of_goesInto hreach, hex, fs.name_findFiles _ fds hf fd hfd, rfl⟩

/-! ## MftScanner -/

/-- The path of a directory of the table begins with the root. -/
theorem prefix_resolvePath (entries : List (UInt64 × MftEntry)) (root : WString) (fuel : Nat) (frn : UInt64) :
    root <+: resolvePath entries root fuel frn := by
  induction fuel generalizing frn with
  | zero => exact List.prefix_refl root
  | succ fuel ih =>
    rw [resolvePath]
    cases entries.lookup frn with
    | none => exact List.prefix_refl root
    | some e =>
      simp only
      split
      · exact List.prefix_refl root
      · rw [List.append_assoc]
        exact (ih e.parentFrn).trans (List.prefix_append _ _)

/-- A file reported from the table is not excluded, and its path begins with the root. -/
theorem MftScanner.mem_scan {fs : FileSystem} {excludedPaths : List WString} {root : WString} {fe : FileEntry}
    (h : fe ∈ MftScanner.scan Γ fs excludedPaths root) :
    root <+: fe.path ∧ WinIndex.isExcluded Γ fe.path excludedPaths = false := by
  unfold MftScanner.scan at h
  cases hm : fs.mftOf root with
  | none =>
    rw [hm] at h
    cases h
  | some m =>
    rw [hm] at h
    obtain ⟨hfe, hex⟩ := List.mem_filter.1 h
    obtain ⟨e, -, rfl⟩ := List.mem_map.1 hfe
    refine ⟨?_, by simpa [MftScanner.isExcluded] using hex⟩
    exact (prefix_resolvePath m.entries root _ _).trans (List.prefix_append _ _)

/-! ## Under a root -/

/-- A path under a root, in the sense of `RemoveEntriesUnderPath`. -/
def Under (Γ : Locale) (root path : WString) : Prop := underPrefix Γ (removalPrefix Γ root) path = true

/-- A path under one of several roots. -/
def UnderSome (Γ : Locale) (roots : List WString) (path : WString) : Prop := ∃ root ∈ roots, Under Γ root path

instance Under.decidable (Γ : Locale) (root path : WString) : Decidable (Under Γ root path) :=
  inferInstanceAs (Decidable (_ = true))

instance UnderSome.decidable (Γ : Locale) (roots : List WString) (path : WString) : Decidable (UnderSome Γ roots path) :=
  inferInstanceAs (Decidable (∃ root ∈ roots, _))

theorem UnderSome.mono {roots roots' : List WString} {path : WString} (h : ∀ q ∈ roots, q ∈ roots')
    (hp : UnderSome Γ roots path) : UnderSome Γ roots' path := by
  obtain ⟨q, hq, hunder⟩ := hp
  exact ⟨q, h q hq, hunder⟩

/-- A path that is under some root and not under the first is under one of the others. -/
theorem UnderSome.of_cons {root : WString} {roots : List WString} {path : WString} (h : UnderSome Γ (root :: roots) path)
    (hnot : ¬Under Γ root path) : UnderSome Γ roots path := by
  obtain ⟨q, hq, hunder⟩ := h
  rcases List.mem_cons.1 hq with rfl | hq
  · exact absurd hunder hnot
  · exact ⟨q, hq, hunder⟩

/-- `RemoveEntriesUnderPath` leaves the live entries that are not under the root. -/
theorem mem_live_removeEntriesUnderPath {s : IndexStore} {root : WString} {r : Record} (hs : s.pool.Sound) :
    r ∈ (s.removeEntriesUnderPath Γ root).pool.live ↔ r ∈ s.pool.live ∧ ¬Under Γ root r.path := by
  rw [IndexStore.live_removeEntriesUnderPath root hs, List.mem_filter, underRecord, Under]
  simp only [Bool.not_eq_true', Bool.not_eq_true]

/-- A path that begins with a root and a backslash is under the root. -/
theorem under_of_prefix {root path : WString} (h : withBackslash root <+: path) : Under Γ root path := by
  obtain ⟨t, rfl⟩ := h
  have hlow : Γ.lower (withBackslash root ++ t) = withBackslash (Γ.lower root) ++ Γ.lower t := by
    rw [Γ.lower_append, Γ.lower_withBackslash]
  rw [Under, underPrefix, decide_eq_true_iff, removalPrefix, hlow]
  split
  · exact List.take_left
  · rename_i hnil
    rw [not_not.1 hnil]
    rfl

/-- Whether the paths reported for a root begin with the root and a backslash: not where the table is read for a root that
has no trailing backslash, since its paths are the root with names directly behind it. -/
def Separates (fs : FileSystem) (root : WString) : Prop := usesMft fs root = true → root.getLast? = some backslash

instance Separates.decidable (fs : FileSystem) (root : WString) : Decidable (Separates fs root) :=
  inferInstanceAs (Decidable (_ → _))

/-- Every file reported for a root that separates is under the root. -/
theorem under_of_mem_scanDriveInto {fs : FileSystem} {excludedPaths : List WString} {root : WString} {fe : FileEntry}
    (hroot : Separates fs root) (h : fe ∈ scanDriveInto Γ fs excludedPaths root) : Under Γ root fe.path := by
  rw [scanDriveInto] at h
  split at h
  · rename_i hmft
    obtain ⟨hpre, -⟩ := MftScanner.mem_scan h
    exact under_of_prefix (by rwa [withBackslash_of_getLast? (hroot hmft)])
  · obtain ⟨dir, name, hpre, -, -, hpath⟩ := FindFileScanner.mem_scan h
    rw [hpath]
    exact under_of_prefix (hpre.trans (List.prefix_append _ _))

end WinIndex
