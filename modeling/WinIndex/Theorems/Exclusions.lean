import WinIndex.Lemmas.Batch

/-!
# Which runs keep excluded paths out of the index

The routes into the store: the entries of scans, staged for a rebuild or added one by one, and the live events. The table
scanner tests the path of every file, the directory scanner only the directories it goes into, the live events nothing. A
run keeps excluded paths out exactly when what the last two add is not excluded.
-/

namespace WinIndex

open Tombstone Trace

/-- One action of the indexer on the store, with where it comes from: the file system that was scanned and the root, or what
`GetFileAttributesExW` said when an event was applied. -/
inductive IndexerStep where
  | beginWrite
  | addEntry (fs : FileSystem) (root : WString) (fe : FileEntry)
  | endWrite
  | indexPath (fs : FileSystem) (root : WString) (fe : FileEntry)
  | removePath (root : WString)
  | change (attributes : WString → Option AttributeData) (evt : FileChangeEvent)

/-- The mutations of an action. -/
def IndexerStep.ops (Γ : Locale) : IndexerStep → List StoreOp
  | .beginWrite => [.beginWrite]
  | .addEntry _ _ fe => [.addEntry fe]
  | .endWrite => [.endWrite]
  | .indexPath _ _ fe => [.applyAdd fe]
  | .removePath root => [.removeEntriesUnderPath root]
  | .change attributes evt => applyChange Γ attributes evt

/-- The entries a scan hands over are those of the scan of their root. -/
def IndexerStep.Issued (Γ : Locale) (excludedPaths : List WString) : IndexerStep → Prop
  | .addEntry fs root fe | .indexPath fs root fe => fe ∈ scanDriveInto Γ fs excludedPaths root
  | _ => True

/-- The pool has room for what an action adds. -/
def IndexerStep.HasRoom (s : IndexStore) : IndexerStep → Prop
  | .endWrite => IndexPool.empty.HasRoom s.stagingBuf
  | .indexPath _ _ fe => s.pool.Fits fe.path ∧ s.pool.entryMeta.length < 2 ^ 32
  | .change _ evt => s.pool.Fits evt.path ∧ s.pool.entryMeta.length < 2 ^ 32
  | _ => True

/-- No exclusion is, up to case, the path of the file or its directory with the trailing backslash. -/
def NotNamed (Γ : Locale) (excludedPaths : List WString) (path : WString) : Prop :=
  ∀ excl ∈ excludedPaths, Γ.lower excl ≠ Γ.lower path ∧
    (nameStart path ≠ 0 → Γ.lower excl ≠ Γ.lower (path.take (nameStart path)))

/-- An action adds no excluded path: no exclusion names a scanned file or its directory with a backslash, and an event that
adds a file, or moves a live entry, is for a path that is not excluded. -/
def IndexerStep.AddsNoExcluded (Γ : Locale) (excludedPaths : List WString) (s : IndexStore) : IndexerStep → Prop
  | .endWrite => ∀ fe ∈ s.stagingBuf, NotNamed Γ excludedPaths fe.path
  | .indexPath _ _ fe => NotNamed Γ excludedPaths fe.path
  | .change attributes evt =>
    match evt.type with
    | .added | .modified => IsFile attributes evt.path → isExcluded Γ evt.path excludedPaths = false
    | .removed => True
    | .renamed =>
      if evt.oldPath ≠ [] then
        (∃ r ∈ s.pool.live, Γ.lower r.path = Γ.lower evt.oldPath) → isExcluded Γ evt.path excludedPaths = false
      else IsFile attributes evt.path → isExcluded Γ evt.path excludedPaths = false
  | _ => True

/-- No live entry has an excluded path. -/
def NoneExcluded (Γ : Locale) (excludedPaths : List WString) (s : IndexStore) : Prop :=
  ∀ r ∈ s.pool.live, isExcluded Γ r.path excludedPaths = false

/-- What holds between the actions in any case: the pool is sound, and what is staged has been scanned. -/
structure Scanned (Γ : Locale) (excludedPaths : List WString) (s : IndexStore) : Prop where
  sound : s.pool.Sound
  staged : ∀ fe ∈ s.stagingBuf, ∃ fs root, fe ∈ scanDriveInto Γ fs excludedPaths root

variable {Γ : Locale} {excludedPaths : List WString} {s : IndexStore}

/-! ## Scanned entries -/

/-- A path that is not excluded is not named by an exclusion, nor is its directory. -/
theorem notNamed_of_not_excluded {path : WString} (h : isExcluded Γ path excludedPaths = false) :
    NotNamed Γ excludedPaths path := by
  intro excl hx
  have hne : ¬excludedBy Γ path excl = true := by
    have := List.any_eq_false.1 h excl hx
    simpa using this
  rw [excludedBy_iff, not_or] at hne
  constructor
  · intro heq
    exact hne.1 heq.symm
  · intro hpos heq
    apply hne.2
    have hslash : (path.take (nameStart path)).getLast? = some backslash := getLast?_take_nameStart hpos
    rw [heq, withBackslash_of_getLast? ((Γ.getLast?_lower _).2 hslash)]
    exact (List.take_prefix _ _).map _

/-- A scanned entry is excluded exactly when an exclusion names it or its directory with a backslash. -/
theorem not_excluded_iff_notNamed {fs : FileSystem} {root : WString} {fe : FileEntry}
    (h : fe ∈ scanDriveInto Γ fs excludedPaths root) :
    isExcluded Γ fe.path excludedPaths = false ↔ NotNamed Γ excludedPaths fe.path := by
  refine ⟨notNamed_of_not_excluded, fun hnot => ?_⟩
  rw [scanDriveInto] at h
  split at h
  · exact (MftScanner.mem_scan h).2
  · obtain ⟨dir, name, -, hdir, hname, hpath⟩ := FindFileScanner.mem_scan h
    by_contra hex
    rw [Bool.not_eq_false, hpath, isExcluded_fullPath hname hdir] at hex
    obtain ⟨excl, hx, heq⟩ := hex
    obtain ⟨hself, hparent⟩ := hnot excl hx
    rw [hpath] at hself hparent
    rw [nameStart_fullPath dir hname] at hparent
    rcases heq with heq | heq
    · exact hself heq
    · refine hparent ?_ ?_
      · intro h0
        have hlast := getLast?_withBackslash dir
        rw [List.length_eq_zero_iff.1 h0] at hlast
        cases hlast
      · rw [fullPath, List.take_left]
        exact heq

/-! ## One action -/

theorem noneExcluded_append {r : Record} {rs : List Record} :
    (∀ x ∈ rs ++ [r], isExcluded Γ x.path excludedPaths = false) ↔
      (∀ x ∈ rs, isExcluded Γ x.path excludedPaths = false) ∧ isExcluded Γ r.path excludedPaths = false := by
  rw [List.forall_mem_append, List.forall_mem_singleton]

/-- Adding an entry that fits keeps excluded paths out exactly when its path is not excluded. -/
theorem noneExcluded_applyAdd_iff (hs : s.pool.Sound) (hP : NoneExcluded Γ excludedPaths s) {fe : FileEntry}
    (hf : s.pool.Fits fe.path) :
    NoneExcluded Γ excludedPaths (s.applyAdd Γ fe) ↔ isExcluded Γ fe.path excludedPaths = false := by
  unfold NoneExcluded
  rw [IndexStore.live_applyAdd fe hs, noneExcluded_append, hf.stored_eq]
  exact ⟨fun h => h.2, fun h => ⟨hP, h⟩⟩

theorem noneExcluded_applyRemove (hs : s.pool.Sound) (hP : NoneExcluded Γ excludedPaths s) (path : WString) :
    NoneExcluded Γ excludedPaths (s.applyRemove Γ path) := by
  intro r hr
  rw [IndexStore.live_applyRemove path hs] at hr
  exact hP r (List.mem_of_mem_eraseP hr)

theorem noneExcluded_removeEntriesUnderPath (hs : s.pool.Sound) (hP : NoneExcluded Γ excludedPaths s) (root : WString) :
    NoneExcluded Γ excludedPaths (s.removeEntriesUnderPath Γ root) := by
  intro r hr
  rw [IndexStore.live_removeEntriesUnderPath root hs] at hr
  exact hP r (List.mem_of_mem_filter hr)

/-- Renaming a live entry keeps excluded paths out exactly when the new path is not excluded. -/
theorem noneExcluded_applyRename_iff (hs : s.pool.Sound) (hP : NoneExcluded Γ excludedPaths s) (oldPath : WString)
    {newPath : WString} (hf : s.pool.Fits newPath) :
    NoneExcluded Γ excludedPaths (s.applyRename Γ oldPath newPath) ↔
      ((∃ r ∈ s.pool.live, Γ.lower r.path = Γ.lower oldPath) → isExcluded Γ newPath excludedPaths = false) := by
  unfold NoneExcluded
  rw [IndexStore.live_applyRename oldPath newPath hs]
  cases hfind : s.pool.live.find? (samePath Γ (Γ.lower oldPath)) with
  | none =>
    constructor
    · rintro - ⟨r, hr, heq⟩
      exact absurd (decide_eq_true heq) (List.find?_eq_none.1 hfind r hr)
    · intro _
      exact hP
  | some r =>
    have hhit : samePath Γ (Γ.lower oldPath) r = true := List.find?_some hfind
    have hex : ∃ r ∈ s.pool.live, Γ.lower r.path = Γ.lower oldPath :=
      ⟨r, List.mem_of_find?_eq_some hfind, of_decide_eq_true hhit⟩
    simp only
    rw [noneExcluded_append, hf.storedPath_eq]
    constructor
    · intro h _
      exact h.2
    · intro h
      exact ⟨fun x hx => hP x (List.mem_of_mem_eraseP hx), h hex⟩

/-- A rebuild keeps excluded paths out exactly when no exclusion names a staged entry or its directory. -/
theorem noneExcluded_endWrite_iff (hI : Scanned Γ excludedPaths s) (hroom : IndexPool.empty.HasRoom s.stagingBuf) :
    NoneExcluded Γ excludedPaths (s.endWrite Γ) ↔ ∀ fe ∈ s.stagingBuf, NotNamed Γ excludedPaths fe.path := by
  obtain ⟨hlive, -⟩ := IndexPool.live_ofEntries (Γ := Γ) hroom
  have hpool : (s.endWrite Γ).pool.live = s.stagingBuf.map FileEntry.record := hlive
  rw [NoneExcluded, hpool, List.forall_mem_map]
  refine forall₂_congr (fun fe hfe => ?_)
  obtain ⟨fs, root, hscan⟩ := hI.staged fe hfe
  exact not_excluded_iff_notNamed hscan

/-- Along the mutations of `BuildAndApplyAdd`: the path is not excluded if it is a file. -/
theorem along_buildAndApplyAdd_iff (hs : s.pool.Sound) (hP : NoneExcluded Γ excludedPaths s) {path : WString}
    (hf : s.pool.Fits path) (attributes : WString → Option AttributeData) :
    Along (NoneExcluded Γ excludedPaths) (StoreOp.run Γ) s (buildAndApplyAdd Γ attributes path) ↔
      (IsFile attributes path → isExcluded Γ path excludedPaths = false) := by
  by_cases hfile : IsFile attributes path
  · obtain ⟨fad, hops⟩ := buildAndApplyAdd_of_isFile Γ hfile
    have hadd : NoneExcluded Γ excludedPaths (s.applyAdd Γ (builtEntry Γ path fad)) ↔ _ := noneExcluded_applyAdd_iff hs hP hf
    rw [hops, along_cons, along_nil]
    exact ⟨fun h _ => hadd.1 h.2, fun h => ⟨hP, hadd.2 (h hfile)⟩⟩
  · rw [buildAndApplyAdd_of_not_isFile Γ hfile, along_nil]
    exact ⟨fun _ h => absurd h hfile, fun _ => hP⟩

/-- A removal in front of the mutations of an event. -/
theorem along_applyRemove_cons_iff (hP : NoneExcluded Γ excludedPaths s) (path : WString)
    (ops : List StoreOp) :
    Along (NoneExcluded Γ excludedPaths) (StoreOp.run Γ) s (.applyRemove path :: ops) ↔
      Along (NoneExcluded Γ excludedPaths) (StoreOp.run Γ) (s.applyRemove Γ path) ops := by
  rw [along_cons]
  exact ⟨fun h => h.2, fun h => ⟨hP, h⟩⟩

/-- Along the mutations of an action no live entry is excluded exactly when the action adds no excluded path. -/
theorem along_ops_iff (step : IndexerStep) (hI : Scanned Γ excludedPaths s) (hP : NoneExcluded Γ excludedPaths s)
    (hside : step.Issued Γ excludedPaths ∧ step.HasRoom s) :
    Along (NoneExcluded Γ excludedPaths) (StoreOp.run Γ) s (step.ops Γ) ↔ step.AddsNoExcluded Γ excludedPaths s := by
  obtain ⟨hissued, hroom⟩ := hside
  cases step with
  | beginWrite => exact ⟨fun _ => trivial, fun _ => along_cons.2 ⟨hP, along_nil.2 hP⟩⟩
  | addEntry fs root fe => exact ⟨fun _ => trivial, fun _ => along_cons.2 ⟨hP, along_nil.2 hP⟩⟩
  | endWrite =>
    have hend := noneExcluded_endWrite_iff hI hroom
    rw [IndexerStep.ops, along_cons, along_nil]
    exact ⟨fun h => hend.1 h.2, fun h => ⟨hP, hend.2 h⟩⟩
  | indexPath fs root fe =>
    have hadd := (noneExcluded_applyAdd_iff hI.sound hP hroom.1).trans (not_excluded_iff_notNamed hissued)
    rw [IndexerStep.ops, along_cons, along_nil]
    exact ⟨fun h => hadd.1 h.2, fun h => ⟨hP, hadd.2 h⟩⟩
  | removePath root =>
    exact ⟨fun _ => trivial, fun _ => along_cons.2 ⟨hP, along_nil.2 (noneExcluded_removeEntriesUnderPath hI.sound hP root)⟩⟩
  | change attributes evt =>
    obtain ⟨type, path, oldPath⟩ := evt
    cases type with
    | added => exact along_buildAndApplyAdd_iff hI.sound hP hroom.1 attributes
    | removed =>
      exact ⟨fun _ => trivial, fun _ => along_cons.2 ⟨hP, along_nil.2 (noneExcluded_applyRemove hI.sound hP path)⟩⟩
    | modified =>
      have hrem := noneExcluded_applyRemove hI.sound hP path
      have hsound := IndexStore.sound_applyRemove (Γ := Γ) path hI.sound
      refine (along_applyRemove_cons_iff hP path _).trans ?_
      exact along_buildAndApplyAdd_iff hsound hrem (IndexStore.fits_applyRemove hroom.1) attributes
    | renamed =>
      have hren := noneExcluded_applyRename_iff hI.sound hP oldPath hroom.1
      show Along _ _ s (if oldPath ≠ [] then _ else _) ↔ if oldPath ≠ [] then _ else _
      split
      · rw [along_cons, along_nil]
        exact ⟨fun h => hren.1 h.2, fun h => ⟨hP, hren.2 h⟩⟩
      · exact along_buildAndApplyAdd_iff hI.sound hP hroom.1 attributes

/-! ## Every run -/

/-- What `BuildAndApplyAdd` does to the store keeps it sound and stages nothing. -/
theorem scanned_buildAndApplyAdd (hI : Scanned Γ excludedPaths s) (hc : s.pool.entryMeta.length < 2 ^ 32)
    (attributes : WString → Option AttributeData) (path : WString) :
    Scanned Γ excludedPaths (final (StoreOp.run Γ) s (buildAndApplyAdd Γ attributes path)) := by
  by_cases hfile : IsFile attributes path
  · obtain ⟨fad, hops⟩ := buildAndApplyAdd_of_isFile Γ hfile
    rw [hops]
    exact ⟨hI.sound.addEntry hc Γ _, hI.staged⟩
  · rw [buildAndApplyAdd_of_not_isFile Γ hfile]
    exact hI

theorem scanned_applyRemove (hI : Scanned Γ excludedPaths s) (path : WString) :
    Scanned Γ excludedPaths (s.applyRemove Γ path) := by
  refine ⟨IndexStore.sound_applyRemove path hI.sound, ?_⟩
  rw [IndexStore.stagingBuf_applyRemove]
  exact hI.staged

/-- What holds between the actions is kept by every action that was issued and that the pool has room for. -/
theorem scanned_step (step : IndexerStep) (hI : Scanned Γ excludedPaths s)
    (hside : step.Issued Γ excludedPaths ∧ step.HasRoom s) :
    Scanned Γ excludedPaths (final (StoreOp.run Γ) s (step.ops Γ)) := by
  obtain ⟨hissued, hroom⟩ := hside
  cases step with
  | beginWrite => exact ⟨hI.sound, fun fe hfe => nomatch hfe⟩
  | addEntry fs root fe =>
    refine ⟨hI.sound, ?_⟩
    intro x hx
    rcases List.mem_append.1 hx with hx | hx
    · exact hI.staged x hx
    · rw [List.mem_singleton] at hx
      exact ⟨fs, root, hx ▸ hissued⟩
  | endWrite => exact ⟨(IndexPool.live_ofEntries hroom).2, fun fe hfe => nomatch hfe⟩
  | indexPath fs root fe => exact ⟨hI.sound.addEntry hroom.2 Γ fe, hI.staged⟩
  | removePath root => exact ⟨IndexStore.sound_removeEntriesUnderPath root hI.sound, hI.staged⟩
  | change attributes evt =>
    obtain ⟨type, path, oldPath⟩ := evt
    cases type with
    | added => exact scanned_buildAndApplyAdd hI hroom.2 attributes path
    | removed => exact scanned_applyRemove hI path
    | modified =>
      refine scanned_buildAndApplyAdd (scanned_applyRemove hI path) ?_ attributes path
      rw [IndexStore.length_applyRemove]
      exact hroom.2
    | renamed =>
      show Scanned _ _ (final _ s (if oldPath ≠ [] then _ else _))
      split
      · refine ⟨IndexStore.sound_applyRename oldPath path hI.sound hroom.2, ?_⟩
        intro fe hfe
        exact hI.staged fe (IndexStore.stagingBuf_applyRename Γ s oldPath path ▸ hfe)
      · exact scanned_buildAndApplyAdd hI hroom.2 attributes path

/-- In every run of the indexer from an empty store, no live entry is ever excluded exactly when no action adds an excluded
path. -/
theorem run_noneExcluded_iff (Γ : Locale) (excludedPaths : List WString) (steps : List IndexerStep)
    (hside : Meets (fun s step => step.Issued Γ excludedPaths ∧ step.HasRoom s)
      (fun s step => final (StoreOp.run Γ) s (step.ops Γ)) .empty steps) :
    Along (NoneExcluded Γ excludedPaths) (StoreOp.run Γ) .empty (steps.flatMap (IndexerStep.ops Γ)) ↔
      Meets (fun s step => step.AddsNoExcluded Γ excludedPaths s) (fun s step => final (StoreOp.run Γ) s (step.ops Γ))
        .empty steps :=
  along_flatMap_iff (I := Scanned Γ excludedPaths) (fun _ step hI hside => scanned_step step hI hside)
    (fun _ step hI hP hside => along_ops_iff step hI hP hside) ⟨IndexPool.sound_empty, fun _ h => nomatch h⟩
    (fun _ h => nomatch h) hside

namespace ExclusionWitness

/-- `C:\Windows`. -/
def windows : WString := wide ['C', ':', '\\', 'W', 'i', 'n', 'd', 'o', 'w', 's']

/-- `C:\Windows\a.tmp`. -/
def file : WString := windows ++ wide ['\\', 'a', '.', 't', 'm', 'p']

/-- A file is created in an excluded directory, while it is watched. -/
def steps : List IndexerStep := [.change (fun _ => some ⟨0x20, 0, 1, 2, 3⟩) (ChangeWatcher.eventOf windows .added
  (wide ['a', '.', 't', 'm', 'p']))]

theorem run_noneExcluded_iff_steps :
    Along (NoneExcluded .c [windows]) (StoreOp.run .c) .empty (steps.flatMap (IndexerStep.ops .c)) ↔
      Meets (fun s step => step.AddsNoExcluded .c [windows] s) (fun s step => final (StoreOp.run .c) s (step.ops .c))
        .empty steps :=
  run_noneExcluded_iff .c [windows] steps ⟨⟨trivial, ⟨by decide, by decide⟩, by decide⟩, trivial⟩

end ExclusionWitness

/-- A file created in an excluded directory is live after its event. -/
theorem event_indexes_excluded_file :
    ¬NoneExcluded .c [ExclusionWitness.windows]
      (final (StoreOp.run .c) .empty (ExclusionWitness.steps.flatMap (IndexerStep.ops .c))) := by
  intro h
  have hmem : ∃ r ∈ (final (StoreOp.run .c) .empty (ExclusionWitness.steps.flatMap (IndexerStep.ops .c))).pool.live,
      isExcluded .c r.path [ExclusionWitness.windows] = true := by
    decide +kernel
  obtain ⟨r, hr, hex⟩ := hmem
  rw [h r hr] at hex
  cases hex

end WinIndex
