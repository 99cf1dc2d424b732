import WinIndex.Lemmas.Batch

/-!
# The incremental update and the full rebuild

After the settings dialog the handler indexes the added paths, or drops everything under the removed ones, instead of
rebuilding. Both branches look at the changed paths only: an addition keeps the fallback to all fixed drives that an empty
selection meant, a removal drops files that another selected path still covers.
-/

namespace WinIndex

open Trace

/-- A full rebuild with the given selection. -/
def rebuilt (Γ : Locale) (fs : FileSystem) (excludedPaths selectedDrives : List WString) (s : IndexStore) : IndexStore :=
  final (StoreOp.run Γ) s (indexingThread Γ fs selectedDrives excludedPaths)

/-- What the handler leaves, from the selections before and after the dialog. -/
def afterSettings (Γ : Locale) (fs : FileSystem) (excludedPaths oldPaths newPaths : List WString) (s : IndexStore) :
    IndexStore :=
  final (StoreOp.run Γ) s ((onIndexSettings oldPaths newPaths).ops Γ fs newPaths excludedPaths)

/-- The incremental update from the index of the old selection has the live paths of a rebuild with the new one. -/
def AgreesWithRebuild (Γ : Locale) (fs : FileSystem) (excludedPaths oldPaths newPaths : List WString) (s : IndexStore) : Prop :=
  ∀ p, p ∈ (afterSettings Γ fs excludedPaths oldPaths newPaths (rebuilt Γ fs excludedPaths oldPaths s)).livePaths ↔
    p ∈ (rebuilt Γ fs excludedPaths newPaths s).livePaths

/-- When only additions agree: something was selected before, or the added paths cover the fixed drives. -/
def AdditionsAgree (Γ : Locale) (fs : FileSystem) (excludedPaths oldPaths addedPaths : List WString) : Prop :=
  oldPaths = [] → ∀ p ∈ scannedPaths Γ fs excludedPaths (enumerateLocalFixedDrives fs),
    p ∈ scannedPaths Γ fs excludedPaths addedPaths

/-- When only removals agree. -/
structure RemovalsAgree (Γ : Locale) (fs : FileSystem) (excludedPaths oldPaths newPaths removedPaths : List WString) :
    Prop where
  /-- No file of a path that is scanned from now on is under a removed path. -/
  kept : ∀ p ∈ scannedPaths Γ fs excludedPaths (effectiveDrives fs newPaths), ∀ root ∈ removedPaths, ¬Under Γ root p
  /-- A removed path without a trailing backslash, scanned from the file table, has its files under a removed path or among
  those scanned from now on. -/
  gone : ∀ root ∈ removedPaths, ¬Separates fs root → ∀ p ∈ scannedPaths Γ fs excludedPaths [root],
    (∃ r ∈ removedPaths, Under Γ r p) ∨ p ∈ scannedPaths Γ fs excludedPaths (effectiveDrives fs newPaths)
  /-- When nothing is left selected, the fixed drives have no file that was not indexed. -/
  fallback : newPaths = [] → ∀ p ∈ scannedPaths Γ fs excludedPaths (enumerateLocalFixedDrives fs),
    p ∈ scannedPaths Γ fs excludedPaths oldPaths

/-- When the branch the handler takes agrees with a rebuild. -/
def UpdateAgrees (Γ : Locale) (fs : FileSystem) (excludedPaths oldPaths newPaths : List WString) : Prop :=
  match onIndexSettings oldPaths newPaths with
  | .indexPaths addedPaths => AdditionsAgree Γ fs excludedPaths oldPaths addedPaths
  | .removePaths removedPaths => RemovalsAgree Γ fs excludedPaths oldPaths newPaths removedPaths
  | .startIndexing | .none => True

variable {Γ : Locale} {fs : FileSystem} {excludedPaths oldPaths newPaths : List WString} {s : IndexStore}

/-! ## The live paths of each branch -/

theorem livePaths_rebuilt (s : IndexStore)
    (h : IndexPool.empty.HasRoom (scanAll Γ fs excludedPaths (effectiveDrives fs newPaths))) :
    (rebuilt Γ fs excludedPaths newPaths s).livePaths = scannedPaths Γ fs excludedPaths (effectiveDrives fs newPaths) ∧
      (rebuilt Γ fs excludedPaths newPaths s).pool.Sound := by
  have hpool : (rebuilt Γ fs excludedPaths newPaths s).pool = _ := pool_indexingThread s fs newPaths excludedPaths
  obtain ⟨hlive, hsound⟩ := IndexPool.live_ofEntries (Γ := Γ) h
  rw [IndexStore.livePaths, hpool, hlive, map_path_map_record]
  exact ⟨rfl, hsound⟩

/-- Adding paths appends what their scans report. -/
theorem livePaths_indexPaths {paths : List WString} (hs : s.pool.Sound)
    (h : s.pool.HasRoom (scanAll Γ fs excludedPaths paths)) :
    (final (StoreOp.run Γ) s (indexPathsThread Γ fs excludedPaths paths)).livePaths =
      s.livePaths ++ scannedPaths Γ fs excludedPaths paths := by
  obtain ⟨hlive, -⟩ := IndexPool.live_addAll (Γ := Γ) hs h
  rw [IndexStore.livePaths, indexPathsThread, final_applyAdd, hlive, List.map_append, map_path_map_record]
  rfl

/-- Removing paths leaves the live paths under none of them. -/
theorem mem_livePaths_removePaths {paths : List WString} (hs : s.pool.Sound) {p : WString} :
    p ∈ (final (StoreOp.run Γ) s (removePathsThread paths)).livePaths ↔
      p ∈ s.livePaths ∧ ∀ root ∈ paths, ¬Under Γ root p := by
  rw [IndexStore.livePaths, live_removePathsThread hs]
  simp only [IndexStore.livePaths, List.mem_map, List.mem_filter, Bool.not_eq_true', List.any_eq_false]
  constructor
  · rintro ⟨r, ⟨hr, hnot⟩, rfl⟩
    exact ⟨⟨r, hr, rfl⟩, hnot⟩
  · rintro ⟨⟨r, hr, rfl⟩, hnot⟩
    exact ⟨r, ⟨hr, hnot⟩, rfl⟩

theorem scannedPaths_mono {roots roots' : List WString} (h : ∀ r ∈ roots, r ∈ roots') {p : WString}
    (hp : p ∈ scannedPaths Γ fs excludedPaths roots) : p ∈ scannedPaths Γ fs excludedPaths roots' := by
  obtain ⟨root, hroot, hfe⟩ := mem_scannedPaths.1 hp
  exact mem_scannedPaths.2 ⟨root, h root hroot, hfe⟩

theorem effectiveDrives_of_ne {selectedDrives : List WString} (h : selectedDrives ≠ []) :
    effectiveDrives fs selectedDrives = selectedDrives := if_neg h

theorem effectiveDrives_nil : effectiveDrives fs [] = enumerateLocalFixedDrives fs := rfl

theorem ne_nil_of_mem {paths : List WString} {q : WString} (h : q ∈ paths) : paths ≠ [] := by
  rintro rfl
  cases h

/-! ## Each branch against the rebuild -/

/-- Additions: the old index and the added scans are the new scans, when the old selection is part of the new one. -/
theorem additions_agree_iff (hsub : ∀ q ∈ oldPaths, q ∈ newPaths) (hadd : pathsNotIn newPaths oldPaths ≠ []) :
    (∀ p, p ∈ scannedPaths Γ fs excludedPaths (effectiveDrives fs oldPaths) ++
        scannedPaths Γ fs excludedPaths (pathsNotIn newPaths oldPaths) ↔
        p ∈ scannedPaths Γ fs excludedPaths (effectiveDrives fs newPaths)) ↔
      AdditionsAgree Γ fs excludedPaths oldPaths (pathsNotIn newPaths oldPaths) := by
  obtain ⟨q, hq⟩ := List.exists_mem_of_ne_nil _ hadd
  have hnew : newPaths ≠ [] := ne_nil_of_mem (mem_pathsNotIn.1 hq).1
  rw [effectiveDrives_of_ne hnew]
  constructor
  · rintro h rfl p hp
    have hnewp := (h p).1 (List.mem_append_left _ hp)
    refine scannedPaths_mono (fun r hr => ?_) hnewp
    exact mem_pathsNotIn.2 ⟨hr, by simp⟩
  · intro h p
    rw [List.mem_append]
    constructor
    · rintro (hp | hp)
      · by_cases hold : oldPaths = []
        · rw [hold, effectiveDrives_nil] at hp
          exact scannedPaths_mono (fun r hr => (mem_pathsNotIn.1 hr).1) (h hold p hp)
        · rw [effectiveDrives_of_ne hold] at hp
          exact scannedPaths_mono hsub hp
      · exact scannedPaths_mono (fun r hr => (mem_pathsNotIn.1 hr).1) hp
    · intro hp
      obtain ⟨root, hroot, hfe⟩ := mem_scannedPaths.1 hp
      by_cases hmem : root ∈ oldPaths
      · rw [effectiveDrives_of_ne (ne_nil_of_mem hmem)]
        exact .inl (mem_scannedPaths.2 ⟨root, hmem, hfe⟩)
      · exact .inr (mem_scannedPaths.2 ⟨root, mem_pathsNotIn.2 ⟨hroot, hmem⟩, hfe⟩)

/-- Removals: what is left of the old index is the new scans, when the new selection is part of the old one. -/
theorem removals_agree_iff (hsub : ∀ q ∈ newPaths, q ∈ oldPaths) (hrem : pathsNotIn oldPaths newPaths ≠ []) :
    (∀ p, (p ∈ scannedPaths Γ fs excludedPaths (effectiveDrives fs oldPaths) ∧
        ∀ root ∈ pathsNotIn oldPaths newPaths, ¬Under Γ root p) ↔
        p ∈ scannedPaths Γ fs excludedPaths (effectiveDrives fs newPaths)) ↔
      RemovalsAgree Γ fs excludedPaths oldPaths newPaths (pathsNotIn oldPaths newPaths) := by
  obtain ⟨q, hq⟩ := List.exists_mem_of_ne_nil _ hrem
  have hold : oldPaths ≠ [] := ne_nil_of_mem (mem_pathsNotIn.1 hq).1
  rw [effectiveDrives_of_ne hold]
  constructor
  · intro h
    refine ⟨fun p hp => ((h p).2 hp).2, ?_, ?_⟩
    · intro root hroot _ p hp
      by_cases hu : ∃ r ∈ pathsNotIn oldPaths newPaths, Under Γ r p
      · exact .inl hu
      · refine .inr ((h p).1 ⟨?_, fun r hr hur => hu ⟨r, hr, hur⟩⟩)
        refine scannedPaths_mono (fun r hr => ?_) hp
        rw [List.mem_singleton] at hr
        rw [hr]
        exact (mem_pathsNotIn.1 hroot).1
    · intro hnil p hp
      rw [hnil, effectiveDrives_nil] at h
      exact ((h p).2 hp).1
  · intro h p
    constructor
    · rintro ⟨hp, hnot⟩
      obtain ⟨root, hroot, fe, hfe, rfl⟩ := mem_scannedPaths.1 hp
      by_cases hmem : root ∈ newPaths
      · rw [effectiveDrives_of_ne (ne_nil_of_mem hmem)]
        exact mem_scannedPaths.2 ⟨root, hmem, fe, hfe, rfl⟩
      · have hr : root ∈ pathsNotIn oldPaths newPaths := mem_pathsNotIn.2 ⟨hroot, hmem⟩
        by_cases hsep : Separates fs root
        · exact absurd (under_of_mem_scanDriveInto hsep hfe) (hnot root hr)
        · have hone := mem_scannedPaths.2 ⟨root, List.mem_singleton_self root, fe, hfe, rfl⟩
          rcases h.gone root hr hsep _ hone with ⟨r, hr', hu⟩ | hin
          · exact absurd hu (hnot r hr')
          · exact hin
    · intro hp
      refine ⟨?_, h.kept p hp⟩
      by_cases hnil : newPaths = []
      · rw [hnil, effectiveDrives_nil] at hp
        exact h.fallback hnil p hp
      · rw [effectiveDrives_of_ne hnil] at hp
        exact scannedPaths_mono hsub hp

/-- An empty difference means that the one selection is part of the other. -/
theorem subset_of_pathsNotIn_nil {paths others : List WString} (h : pathsNotIn paths others = []) :
    ∀ q ∈ paths, q ∈ others := by
  intro q hq
  by_contra hn
  have hmem := mem_pathsNotIn.2 ⟨hq, hn⟩
  rw [h] at hmem
  cases hmem

/-- Two selections of the same paths mean the same drives. -/
theorem scannedPaths_congr (h : ∀ q, q ∈ oldPaths ↔ q ∈ newPaths) (p : WString) :
    p ∈ scannedPaths Γ fs excludedPaths (effectiveDrives fs oldPaths) ↔
      p ∈ scannedPaths Γ fs excludedPaths (effectiveDrives fs newPaths) := by
  by_cases hnil : oldPaths = []
  · have hnil' : newPaths = [] := List.eq_nil_iff_forall_not_mem.2 (fun x hx => by simpa [hnil] using (h x).2 hx)
    rw [hnil, hnil']
  · obtain ⟨x, hx⟩ := List.exists_mem_of_ne_nil _ hnil
    rw [effectiveDrives_of_ne hnil, effectiveDrives_of_ne (ne_nil_of_mem ((h x).1 hx))]
    exact ⟨scannedPaths_mono (fun q => (h q).1), scannedPaths_mono (fun q => (h q).2)⟩

/-- The handler's branch agrees with a full rebuild exactly under its condition, whenever the index has room for all that is
scanned. -/
theorem agreesWithRebuild_iff (Γ : Locale) (fs : FileSystem) (excludedPaths oldPaths newPaths : List WString) (s : IndexStore)
    (hold : IndexPool.empty.HasRoom (scanAll Γ fs excludedPaths (effectiveDrives fs oldPaths) ++
      scanAll Γ fs excludedPaths (pathsNotIn newPaths oldPaths)))
    (hnew : IndexPool.empty.HasRoom (scanAll Γ fs excludedPaths (effectiveDrives fs newPaths))) :
    AgreesWithRebuild Γ fs excludedPaths oldPaths newPaths s ↔ UpdateAgrees Γ fs excludedPaths oldPaths newPaths := by
  obtain ⟨hroom, hroom'⟩ := hold.append (Γ := Γ)
  obtain ⟨hlive, hsound⟩ := livePaths_rebuilt s hroom
  unfold AgreesWithRebuild UpdateAgrees afterSettings
  rw [(livePaths_rebuilt s hnew).1, onIndexSettings_eq]
  by_cases ha : pathsNotIn newPaths oldPaths = []
  · have hsub := subset_of_pathsNotIn_nil ha
    by_cases hr : pathsNotIn oldPaths newPaths = []
    · -- the same paths are selected, and nothing is done
      have hsup := subset_of_pathsNotIn_nil hr
      simp only [ha, hr, ne_eq, not_true_eq_false, and_false, if_false, IndexerCall.ops, final_nil, hlive, iff_true]
      exact scannedPaths_congr (fun q => ⟨hsup q, hsub q⟩)
    · simp only [ha, hr, ne_eq, not_true_eq_false, false_and, if_false, not_false_eq_true, if_true, IndexerCall.ops]
      rw [← removals_agree_iff hsub hr, ← hlive]
      exact forall_congr' (fun p => iff_congr (mem_livePaths_removePaths hsound) Iff.rfl)
  · by_cases hr : pathsNotIn oldPaths newPaths = []
    · have hsup := subset_of_pathsNotIn_nil hr
      have hpool : (rebuilt Γ fs excludedPaths oldPaths s).pool.HasRoom
          (scanAll Γ fs excludedPaths (pathsNotIn newPaths oldPaths)) := by
        rw [rebuilt, pool_indexingThread]
        exact hroom'
      simp only [ha, hr, ne_eq, not_true_eq_false, and_false, if_false, not_false_eq_true, if_true, IndexerCall.ops,
        livePaths_indexPaths hsound hpool, hlive]
      exact additions_agree_iff hsup ha
    · simp only [ha, hr, ne_eq, not_false_eq_true, and_self, if_true, IndexerCall.ops, iff_true]
      intro p
      rw [← (livePaths_rebuilt (rebuilt Γ fs excludedPaths oldPaths s) hnew).1]
      rfl

namespace NestedRoots

/-- `E:\`. -/
def drive : WString := wide ['E', ':', '\\']

/-- `E:\projects`. -/
def projects : WString := drive ++ wide ['p', 'r', 'o', 'j', 'e', 'c', 't', 's']

/-- `E:\projects\a`. -/
def file : WString := projects ++ wide ['\\', 'a']

/-- The listings of a drive with one directory, `projects`, and one file in it, `a`. -/
def findFiles (pattern : WString) : Option (List FindData) :=
  if pattern = drive ++ wide ['*'] then some [⟨wide ['p', 'r', 'o', 'j', 'e', 'c', 't', 's'], 0x10, 0, 0, 0, 0⟩]
  else if pattern = projects ++ wide ['\\', '*'] then some [⟨wide ['a'], 0x20, 0, 1, 2, 3⟩]
  else none

/-- What is listed is one of the two listings. -/
theorem findFiles_eq {pattern : WString} {fds : List FindData} (h : findFiles pattern = some fds) :
    (pattern = drive ++ wide ['*'] ∧ fds = [⟨wide ['p', 'r', 'o', 'j', 'e', 'c', 't', 's'], 0x10, 0, 0, 0, 0⟩]) ∨
      fds = [⟨wide ['a'], 0x20, 0, 1, 2, 3⟩] := by
  unfold findFiles at h
  split at h
  · rename_i hp
    cases h
    exact .inl ⟨hp, rfl⟩
  · split at h
    · cases h
      exact .inr rfl
    · cases h

/-- The drive, on a file system that has no file table to read. -/
def system : FileSystem where
  findFiles := findFiles
  below dir := if searchPattern dir = drive ++ wide ['*'] then 1 else 0
  mft _ := none
  fsName _ := some (wide ['F', 'A', 'T', '3', '2'])
  logicalDrives := 0
  isFixed _ := false
  name_findFiles := by
    intro pattern fds h fd hfd
    rcases findFiles_eq h with ⟨-, rfl⟩ | rfl
    · rw [List.mem_singleton.1 hfd]
      decide
    · rw [List.mem_singleton.1 hfd]
      decide
  name_mft := FileSystem.empty.name_mft
  below_subdirs := by
    intro dir fds h
    rcases findFiles_eq h with ⟨hp, rfl⟩ | rfl
    · have hd : withBackslash dir = drive := List.append_cancel_right hp
      simp only [hp, if_true, subdirs, fullPath, hd]
      decide
    · exact Nat.zero_le _

/-- Removing the nested root and keeping the drive. -/
theorem agreesWithRebuild_iff_nested :
    AgreesWithRebuild .c system [] [drive, projects] [drive] .empty ↔ UpdateAgrees .c system [] [drive, projects] [drive] :=
  agreesWithRebuild_iff .c system [] [drive, projects] [drive] .empty (by decide +kernel) (by decide +kernel)

end NestedRoots

/-- The file of the nested root is still on a selected drive, but the removal takes it out of the index. -/
theorem nested_root_removal_loses_file :
    ¬AgreesWithRebuild .c NestedRoots.system [] [NestedRoots.drive, NestedRoots.projects] [NestedRoots.drive] .empty := by
  intro h
  exact absurd ((h NestedRoots.file).2 (by decide +kernel)) (by decide +kernel)

end WinIndex
