import WinIndex.SettingsRuns
import WinIndex.Theorems.ReindexInterval

/-!
# What the settings are after a restart

The file is read into a buffer and split again, so not every list that a dialog stores comes back. Here, over whole runs: as long
as every list and interval that is accepted comes back, the file always says what the program has in memory, and what it has in
memory is what the user chose, however often it is started again; and as soon as one does not, they differ.
-/

namespace WinIndex

open Runs Trace

/-! ## The other values -/

/-- The name of a level is in capital letters. -/
theorem capital_of_mem_logLevel (level : LogLevel) : ∀ c ∈ level.toWString, 0x41 ≤ c ∧ c ≤ 0x5A := by
  have hall : level.toWString.all (fun c => 0x41 ≤ c ∧ c ≤ 0x5A) = true := by cases level <;> decide
  simpa using hall

/-- Every level is read back from its name, if `towupper` leaves capital letters as they are. -/
theorem tryParseLogLevel_toWString {towupper : WChar → WChar} (h : ∀ c, 0x41 ≤ c → c ≤ 0x5A → towupper c = c)
    (level : LogLevel) : tryParseLogLevel towupper level.toWString = some level := by
  have hupper : level.toWString.map towupper = level.toWString := by
    nth_rewrite 2 [← List.map_id level.toWString]
    exact List.map_congr_left (fun c hc =>
      h c (capital_of_mem_logLevel level c hc).1 (capital_of_mem_logLevel level c hc).2)
  rw [tryParseLogLevel, hupper]
  cases level <;> decide

theorem flag_ne_zero (value : Bool) : decide (flag value ≠ 0) = value := by
  cases value <;> rfl

section

variable {Ini : Type} [ProfileApi Ini] [AsciiProfileApi Ini]

/-- The options of the search, the first-run flag and the log level come back from the file, whatever they are. -/
theorem load_save (env : Environment) (ini : Ini) (s : Settings) (h : ∀ c, 0x41 ≤ c → c ≤ 0x5A → env.towupper c = c) :
    (Settings.load env (s.save ini)).searchOptions = s.searchOptions ∧
      (Settings.load env (s.save ini)).ignoreDiacritics = s.ignoreDiacritics ∧
      (Settings.load env (s.save ini)).firstRun = s.firstRun ∧ (Settings.load env (s.save ini)).logLevel = s.logLevel := by
  have hint : ∀ key value, s.iniValue key = toWstring (flag value) → Settings.readInt (s.save ini) key 0 = flag value :=
    fun key value hvalue => s.readInt_save ini key hvalue 0
  have hcapital := capital_of_mem_logLevel s.logLevel
  have hlevel := s.readString_save ini .logLevel (AsciiProfileApi.keeps_capitals _ hcapital)
    (fun hmem => absurd (hcapital 0 hmem).1 (by decide)) LogLevel.warning.toWString
  refine ⟨?_, ?_, ?_, ?_⟩
  · simp only [Settings.load, hint .useRegex _ rfl, hint .caseSensitive _ rfl, hint .wholeWord _ rfl, hint .matchPath _ rfl,
      flag_ne_zero]
  · simp only [Settings.load, hint .ignoreDiacritics _ rfl, flag_ne_zero]
  · simp only [Settings.load, hint .firstRunComplete _ rfl]
    cases s.firstRun <;> rfl
  · simp only [Settings.load, hlevel, Settings.iniValue]
    rw [List.take_of_length_le (by cases s.logLevel <;> decide), tryParseLogLevel_toWString h, Option.getD_some]

end

/-! ## Lists that come back -/

/-- The paths hold no zero, which would end them early, and are not empty. -/
structure Settings.Paths (s : Settings) : Prop where
  drives : ∀ d ∈ s.selectedDrives, d ≠ [] ∧ 0 ∉ d
  exclusions : ∀ d ∈ s.excludedPaths, d ≠ [] ∧ 0 ∉ d ∧ verticalBar ∉ d

/-- The lists fit the buffer, each path with its separator, no selected path holds one, and there are exclusions. The interval
is one that 32 bits with a sign say. -/
structure Settings.Fits (s : Settings) : Prop where
  semicolons : ∀ d ∈ s.selectedDrives, semicolon ∉ d
  drives : joinedLength s.selectedDrives ≤ bufSize
  someExclusion : s.excludedPaths ≠ []
  exclusions : joinedLength s.excludedPaths ≤ bufSize
  interval : s.reindexIntervalHours.toNat < 2 ^ 31 ∨ 2 ^ 64 - 2 ^ 31 ≤ s.reindexIntervalHours.toNat

/-- The file keeps both lists. -/
structure Settings.Held (Ini : Type) [ProfileApi Ini] (s : Settings) : Prop where
  drives : Keeps Ini .selectedDrives (joinPaths semicolon s.selectedDrives)
  exclusions : Keeps Ini .excludedPaths (joinPaths verticalBar s.excludedPaths)

section

variable {Ini : Type} [ProfileApi Ini] [AsciiProfileApi Ini] {env : Environment} {ini : Ini} {s : Settings}

theorem load_save_selectedDrives_iff (hheld : s.Held Ini) (h : s.Paths) :
    (Settings.load env (s.save ini)).selectedDrives = s.selectedDrives ↔
      (∀ d ∈ s.selectedDrives, semicolon ∉ d) ∧ joinedLength s.selectedDrives ≤ bufSize := by
  rw [load_save_selectedDrives env ini s hheld.drives (fun d hd => (h.drives d hd).2)]
  exact splitPaths_take_iff semicolon (fun d hd => (h.drives d hd).1) (bufSize - 1)

/-- The settings come back from the file as a whole if and only if they fit. -/
theorem load_save_eq_iff (hupper : ∀ c, 0x41 ≤ c → c ≤ 0x5A → env.towupper c = c) (hheld : s.Held Ini) (h : s.Paths) :
    Settings.load env (s.save ini) = s ↔ s.Fits := by
  obtain ⟨hopts, hdia, hfirst, hlevel⟩ := load_save env ini s hupper
  have hinterval := load_save_interval env ini s
  have heq : Settings.load env (s.save ini) = s ↔
      (Settings.load env (s.save ini)).selectedDrives = s.selectedDrives ∧
        (Settings.load env (s.save ini)).excludedPaths = s.excludedPaths ∧
        (Settings.load env (s.save ini)).reindexIntervalHours = s.reindexIntervalHours := by
    constructor
    · intro h
      rw [h]
      exact ⟨rfl, rfl, rfl⟩
    · rintro ⟨hdrives, hexcl, hhours⟩
      generalize Settings.load env (s.save ini) = t at *
      cases t
      cases s
      simp only at *
      subst hopts hdia hfirst hlevel hdrives hexcl hhours
      rfl
  rw [heq, load_save_selectedDrives_iff hheld h, load_save_excludedPaths_iff hheld.exclusions h.exclusions, hinterval, narrow_iff]
  constructor
  · rintro ⟨⟨h1, h2⟩, ⟨h3, h4⟩, h5⟩
    exact ⟨h1, h2, h3, h4, h5⟩
  · intro h
    exact ⟨⟨h.semicolons, h.drives⟩, ⟨h.someExclusion, h.exclusions⟩, h.interval⟩

end

/-! ## What is read fits -/

/-- The pieces of a text are not empty, hold no separator and only units of the text. -/
theorem mem_splitPaths (sep : WChar) {str d : WString} (h : d ∈ splitPaths sep str) : d ≠ [] ∧ sep ∉ d ∧ ∀ c ∈ d, c ∈ str := by
  rw [splitPaths_eq_runs] at h
  obtain ⟨hne, hfree⟩ := (renders_runs (isSep sep) str).free d h
  refine ⟨hne, fun hmem => ?_, (renders_runs (isSep sep) str).mem d h⟩
  exact absurd (hfree sep hmem) (by simp [isSep])

/-- The pieces of a text, each with a separator, are at most one unit longer than the text. -/
theorem joinedLength_splitPaths_le (sep : WChar) (str : WString) : joinedLength (splitPaths sep str) ≤ str.length + 1 := by
  rw [splitPaths_eq_runs]
  exact (renders_runs (isSep sep) str).sum_length_le

theorem zero_not_mem_cString (value : WString) : 0 ∉ cString value :=
  fun h => absurd (List.mem_takeWhile_imp h) (by simp)

theorem length_readString_lt {Ini : Type} [ProfileApi Ini] [LawfulProfileApi Ini] (ini : Ini) (key : IniKey)
    (defaultVal : WString) : (Settings.readString ini key defaultVal).length < bufSize :=
  Nat.lt_of_le_of_lt (List.takeWhile_sublist _).length_le
    (LawfulProfileApi.length_get_lt ini key (cString defaultVal) (by decide))

/-- The low half of a number whose sign was extended is the number. -/
theorem toInt32_extended (v : Int32) : v.toInt64.toUInt64.toUInt32.toInt32 = v := by
  rw [← Int32.toBitVec_inj]
  show (v.toBitVec.signExtend 64).setWidth 32 = v.toBitVec
  ext i hi
  rw [BitVec.getElem_setWidth, BitVec.getLsbD_signExtend]
  simp [hi, Nat.lt_trans hi (by decide : 32 < 64)]

/-- What the program relies on of the system it runs on: `towupper` leaves capital letters as they are, and the folders of
Windows and of the applications are paths, which fit their buffers. -/
structure Environment.Usual (env : Environment) : Prop where
  towupper : ∀ c, 0x41 ≤ c → c ≤ 0x5A → env.towupper c = c
  windowsDirectory : LegalPath env.windowsDirectory ∧ 3 ≤ env.windowsDirectory.length
  appFolders : ∀ d ∈ env.appData.toList ++ env.localAppData.toList, LegalPath d ∧ d.length < 260

theorem LegalPath.cString {path : WString} (h : LegalPath path) : cString path = path := cString_eq h.zero_not_mem

/-- What stands behind a path with characters a path may hold makes it another one. -/
theorem LegalPath.append {path rel : WString} (h : LegalPath path)
    (hrel : rel.all (fun c => 0x20 ≤ c ∧ c ∉ [(0x3C : WChar), 0x3E, 0x22, 0x7C, 0x3F, 0x2A, 0x2F]) = true) :
    LegalPath (path ++ rel) where
  nonempty hnil := h.nonempty (List.append_eq_nil_iff.1 hnil).1
  chars c hc := by
    rcases List.mem_append.1 hc with hc | hc
    · exact h.chars c hc
    · simpa using List.all_eq_true.1 hrel c hc

namespace Environment.Usual

variable {env : Environment}

theorem sysDrive_eq (h : env.Usual) : env.sysDrive = env.windowsDirectory.take 3 := by
  rw [Environment.sysDrive, List.take_append_of_le_length h.windowsDirectory.2]

theorem length_sysDrive (h : env.Usual) : env.sysDrive.length = 3 := by
  rw [h.sysDrive_eq, List.length_take]
  exact Nat.min_eq_left h.windowsDirectory.2

theorem legalPath_sysDrive (h : env.Usual) : LegalPath env.sysDrive where
  nonempty hnil := by
    have := h.length_sysDrive
    rw [hnil] at this
    exact absurd this (by decide)
  chars c hc := h.windowsDirectory.1.chars c (List.mem_of_mem_take (h.sysDrive_eq ▸ hc))

theorem map_cString_appFolders (h : env.Usual) :
    (env.appData.toList ++ env.localAppData.toList).map cString = env.appData.toList ++ env.localAppData.toList := by
  conv_rhs => rw [← List.map_id (env.appData.toList ++ env.localAppData.toList)]
  exact List.map_congr_left (fun d hd => (h.appFolders d hd).1.cString)

/-- Every default exclusion is a path. -/
theorem legalPath_defaultExcludedPaths (h : env.Usual) : ∀ d ∈ defaultExcludedPaths env, LegalPath d := by
  rw [defaultExcludedPaths, h.map_cString_appFolders, List.forall_mem_append]
  refine ⟨?_, fun d hd => (h.appFolders d hd).1⟩
  simp only [List.forall_mem_cons]
  have hrel : ∀ rel : List Char,
      (wide rel).all (fun c => 0x20 ≤ c ∧ c ∉ [(0x3C : WChar), 0x3E, 0x22, 0x7C, 0x3F, 0x2A, 0x2F]) = true →
        LegalPath (env.sysDrive ++ wide rel) := fun rel => h.legalPath_sysDrive.append
  exact ⟨hrel _ (by rfl), hrel _ (by rfl), hrel _ (by rfl), hrel _ (by rfl), hrel _ (by rfl), hrel _ (by rfl),
    hrel _ (by rfl), by simp⟩

/-- The default exclusions fit the buffer. -/
theorem joinedLength_defaultExcludedPaths_le (h : env.Usual) : joinedLength (defaultExcludedPaths env) ≤ bufSize := by
  have happ : joinedLength (env.appData.toList ++ env.localAppData.toList) ≤ 2 * 260 := by
    have hlen : (env.appData.toList ++ env.localAppData.toList).length ≤ 2 := by
      cases env.appData <;> cases env.localAppData <;> simp
    have hsum : joinedLength (env.appData.toList ++ env.localAppData.toList) ≤
        (env.appData.toList ++ env.localAppData.toList).length * 260 := by
      rw [joinedLength, ← List.length_map (f := fun d : WString => d.length + 1), ← smul_eq_mul]
      refine List.sum_le_card_nsmul _ _ (fun n hn => ?_)
      obtain ⟨d, hd, rfl⟩ := List.mem_map.1 hn
      exact (h.appFolders d hd).2
    exact Nat.le_trans hsum (Nat.mul_le_mul_right _ hlen)
  have hsplit : ∀ a b : List WString, joinedLength (a ++ b) = joinedLength a + joinedLength b := by
    intro a b
    simp [joinedLength]
  rw [defaultExcludedPaths, h.map_cString_appFolders, hsplit]
  refine Nat.le_trans (Nat.add_le_add_left happ _) ?_
  simp [joinedLength, h.length_sysDrive, wide, bufSize]

end Environment.Usual

section

variable {Ini : Type} [ProfileApi Ini] {env : Environment} {ini : Ini}

/-- The paths that are read hold no zero and no separator of theirs. -/
theorem paths_load (henv : env.Usual) : (Settings.load env ini).Paths where
  drives d hd := by
    rw [load_selectedDrives] at hd
    obtain ⟨hne, -, hmem⟩ := mem_splitPaths semicolon hd
    exact ⟨hne, fun h => zero_not_mem_cString _ (hmem 0 h)⟩
  exclusions d hd := by
    rcases load_excludedPaths_cases env ini with hload | hload <;> rw [hload] at hd
    · have hlegal := henv.legalPath_defaultExcludedPaths d hd
      exact ⟨hlegal.nonempty, hlegal.zero_not_mem, hlegal.verticalBar_not_mem⟩
    · obtain ⟨hne, hbar, hmem⟩ := mem_splitPaths verticalBar hd
      exact ⟨hne, fun h => zero_not_mem_cString _ (hmem 0 h), hbar⟩

/-- What is read fits, but for a file whose exclusions are separators and nothing else. -/
theorem fits_load [LawfulProfileApi Ini] (henv : env.Usual) (h : (Settings.load env ini).excludedPaths ≠ []) :
    (Settings.load env ini).Fits where
  semicolons d hd := by
    rw [load_selectedDrives] at hd
    exact (mem_splitPaths semicolon hd).2.1
  drives := by
    rw [load_selectedDrives]
    exact Nat.le_trans (joinedLength_splitPaths_le semicolon _) (length_readString_lt ini .selectedDrives [])
  someExclusion := h
  exclusions := by
    rcases load_excludedPaths_cases env ini with hload | hload <;> rw [hload]
    · exact henv.joinedLength_defaultExcludedPaths_le
    · exact Nat.le_trans (joinedLength_splitPaths_le verticalBar _) (length_readString_lt ini .excludedPaths [])
  interval := by
    rw [← narrow_iff]
    exact congrArg (fun v : Int32 => v.toInt64.toUInt64) (toInt32_extended _)

end

/-! ## What the dialogs store -/

section

variable {sameItem : WString → WString → Bool} {s : Settings}

theorem PickedFolder.zero_not_mem (folder : PickedFolder) : 0 ∉ folder.path := fun h => (folder.chars 0 h).1 rfl

theorem PickedFolder.verticalBar_not_mem (folder : PickedFolder) : verticalBar ∉ folder.path :=
  fun h => (folder.chars verticalBar h).2 rfl

theorem mem_of_mem_deleteString {items : List WString} {d : WString} : ∀ {sel : Option Nat}, d ∈ deleteString items sel → d ∈ items
  | none, h => h
  | some _, h => List.mem_of_mem_eraseIdx h

/-- The lists of the controls hold what settings may hold. -/
structure SettingsControls.Paths (c : SettingsControls) : Prop where
  paths : ∀ d ∈ c.pathList, d ≠ [] ∧ 0 ∉ d
  exclusions : ∀ d ∈ c.exclList, d ≠ [] ∧ 0 ∉ d ∧ verticalBar ∉ d

/-- An edit puts only folders on the lists. -/
theorem SettingsControls.Paths.edit {c : SettingsControls} (h : c.Paths) (e : DialogEdit) : (c.edit sameItem e).Paths := by
  cases e with
  | addLocation picked =>
    cases picked with
    | none => exact h
    | some fullPath =>
      rw [SettingsControls.edit]
      split
      · exact h
      · refine ⟨List.forall_mem_append.2 ⟨h.paths, ?_⟩, h.exclusions⟩
        simpa using ⟨fullPath.nonempty, fullPath.zero_not_mem⟩
  | removePath sel => exact ⟨fun d hd => h.paths d (mem_of_mem_deleteString hd), h.exclusions⟩
  | addExclusion picked =>
    cases picked with
    | none => exact h
    | some fullPath =>
      refine ⟨h.paths, List.forall_mem_append.2 ⟨h.exclusions, ?_⟩⟩
      simpa using ⟨fullPath.nonempty, fullPath.zero_not_mem, fullPath.verticalBar_not_mem⟩
  | removeExclusion sel => exact ⟨h.paths, fun d hd => h.exclusions d (mem_of_mem_deleteString hd)⟩
  | setManualOnly checked => exact ⟨h.paths, h.exclusions⟩
  | setInterval text => exact ⟨h.paths, h.exclusions⟩
  | setUnit unit => exact ⟨h.paths, h.exclusions⟩

theorem Settings.Paths.dialogControls (h : s.Paths) (edits : List DialogEdit) : (s.dialogControls sameItem edits).Paths := by
  have hinit : (SettingsDialog.onInit s).Paths := ⟨h.drives, h.exclusions⟩
  rw [Settings.dialogControls]
  generalize SettingsDialog.onInit s = c at hinit
  induction edits generalizing c with
  | nil => exact hinit
  | cons e edits ih => exact ih _ (hinit.edit e)

theorem Settings.Paths.firstRunControls (h : s.Paths) (drives : List DriveInfo) (edits : List FirstRunEdit) :
    (s.firstRunControls sameItem drives edits).toSettingsControls.Paths := by
  have hinit : (FirstRunDialog.onInit s drives).toSettingsControls.Paths := ⟨by simp [FirstRunDialog.onInit], h.exclusions⟩
  rw [Settings.firstRunControls]
  generalize FirstRunDialog.onInit s drives = c at hinit
  induction edits generalizing c with
  | nil => exact hinit
  | cons e edits ih =>
    refine ih _ ?_
    cases e with
    | select item selected => exact hinit
    | control edit => exact hinit.edit edit

/-! The first-run dialog stores roots of drives, of which there are few. -/

theorem mem_selected {c : FirstRunControls} {drives : List DriveInfo} {d : WString} (h : d ∈ c.selected drives) :
    ∃ drive ∈ drives, drive.root = d := by
  obtain ⟨⟨item, drive⟩, hmem, hd⟩ := List.mem_filterMap.1 h
  refine ⟨drive, (List.of_mem_zip hmem).2, ?_⟩
  simp only at hd
  split at hd
  · exact Option.some.inj hd
  · cases hd

theorem length_selected_le (c : FirstRunControls) (drives : List DriveInfo) : (c.selected drives).length ≤ drives.length := by
  refine Nat.le_trans (List.length_filterMap_le _ _) ?_
  rw [List.length_zip]
  exact Nat.min_le_right _ _

/-- A local fixed drive is named by a letter. -/
theorem mem_localFixedDrives {fs : FileSystem} {volumeLabel : WString → WString} {drive : DriveInfo}
    (h : drive ∈ localFixedDrives fs volumeLabel) : ∃ i < 26, drive.root = driveRoot i := by
  obtain ⟨root, hroot, rfl⟩ := List.mem_map.1 h
  obtain ⟨i, hi, rfl⟩ := List.mem_map.1 (List.mem_filter.1 hroot).1
  exact ⟨i, List.mem_range.1 (List.mem_filter.1 hi).1, rfl⟩

theorem length_localFixedDrives_le (fs : FileSystem) (volumeLabel : WString → WString) :
    (localFixedDrives fs volumeLabel).length ≤ 26 := by
  rw [localFixedDrives, List.length_map, enumerateLocalFixedDrives]
  refine Nat.le_trans (List.length_filter_le _ _) ?_
  rw [List.length_map]
  exact Nat.le_trans (List.length_filter_le _ _) (by rw [List.length_range])

/-- The root of a drive holds no zero and no separator. -/
theorem driveRoot_chars {i : Nat} (hi : i < 26) : 0 ∉ driveRoot i ∧ semicolon ∉ driveRoot i := by
  have hall : ∀ i < 26, 0 ∉ driveRoot i ∧ semicolon ∉ driveRoot i := by decide
  exact hall i hi

variable {fs : FileSystem} {volumeLabel : WString → WString} {edits : List FirstRunEdit}

theorem mem_completeFirstRun {d : WString}
    (h : d ∈ (s.completeFirstRun sameItem (localFixedDrives fs volumeLabel) edits).selectedDrives) :
    ∃ i < 26, d = driveRoot i := by
  obtain ⟨drive, hdrive, rfl⟩ := mem_selected h
  exact mem_localFixedDrives hdrive

theorem Settings.Paths.completeFirstRun (h : s.Paths) :
    (s.completeFirstRun sameItem (localFixedDrives fs volumeLabel) edits).Paths where
  drives d hd := by
    obtain ⟨i, hi, rfl⟩ := mem_completeFirstRun hd
    exact ⟨by simp [driveRoot], (driveRoot_chars hi).1⟩
  exclusions := (h.firstRunControls _ edits).exclusions

/-- Whatever drives are selected at the first run, they fit the buffer. -/
theorem joinedLength_completeFirstRun_le :
    joinedLength (s.completeFirstRun sameItem (localFixedDrives fs volumeLabel) edits).selectedDrives ≤ bufSize := by
  have hlen : (s.completeFirstRun sameItem (localFixedDrives fs volumeLabel) edits).selectedDrives.length ≤ 26 :=
    Nat.le_trans (length_selected_le _ _) (length_localFixedDrives_le fs volumeLabel)
  have hsum : joinedLength (s.completeFirstRun sameItem (localFixedDrives fs volumeLabel) edits).selectedDrives ≤
      (s.completeFirstRun sameItem (localFixedDrives fs volumeLabel) edits).selectedDrives.length * 4 := by
    rw [joinedLength, ← List.length_map (f := fun d : WString => d.length + 1), ← smul_eq_mul]
    refine List.sum_le_card_nsmul _ _ (fun n hn => ?_)
    obtain ⟨d, hd, rfl⟩ := List.mem_map.1 hn
    obtain ⟨i, -, rfl⟩ := mem_completeFirstRun hd
    exact Nat.le_refl _
  have : (26 * 4 : Nat) ≤ bufSize := by decide
  omega

end

/-! ## Whole runs -/

/-- There are exclusions on the list of a dialog, they fit the buffer, and so does the interval. -/
structure SettingsControls.Fits (c : SettingsControls) : Prop where
  someExclusion : c.exclList ≠ []
  exclusions : joinedLength c.exclList ≤ bufSize
  interval : c.intervalHours.toNat < 2 ^ 31 ∨ 2 ^ 64 - 2 ^ 31 ≤ c.intervalHours.toNat

section

variable {Ini : Type} [ProfileApi Ini]

/-- If the event closes a dialog with OK, what the dialog shows then comes back from the file. The drives of the first-run dialog
always do. -/
def SettingsEvent.Fits (env : Environment) (sameItem : WString → WString → Bool) (m : Installation Ini) : SettingsEvent → Prop
  | .start fs volumeLabel edits accepted =>
    let s := Settings.load env m.ini
    s.firstRun ∧ accepted → (s.firstRunControls sameItem (localFixedDrives fs volumeLabel) edits).toSettingsControls.Fits
  | .toggle _ => True
  | .dialog edits accepted =>
    let c := m.memory.dialogControls sameItem edits
    accepted → (∀ d ∈ c.pathList, semicolon ∉ d) ∧ joinedLength c.pathList ≤ bufSize ∧ c.Fits

/-- The file says what the program has in memory. -/
def Installation.Agrees (env : Environment) (m : Installation Ini) : Prop := Settings.load env m.ini = m.memory

/-- The file says what the program has in memory, and it can be written and read again. -/
structure Installation.Sound (env : Environment) (m : Installation Ini) : Prop where
  agrees : m.Agrees env
  paths : m.memory.Paths
  fits : m.memory.Fits

/-- What an event writes, the file keeps. -/
def SettingsEvent.Kept (env : Environment) (sameItem : WString → WString → Bool) (m : Installation Ini) (e : SettingsEvent) :
    Prop :=
  e.Writes env m → (m.step env sameItem e).memory.Held Ini

variable {env : Environment} {sameItem : WString → WString → Bool} {m : Installation Ini}

/-- A start that shows the first-run dialog and has it accepted. -/
theorem step_start_shown {fs : FileSystem} {volumeLabel : WString → WString} {edits : List FirstRunEdit} {accepted : Bool}
    (h : (Settings.load env m.ini).firstRun ∧ accepted) :
    m.step env sameItem (.start fs volumeLabel edits accepted) =
      m.keep ((Settings.load env m.ini).completeFirstRun sameItem (localFixedDrives fs volumeLabel) edits) :=
  if_pos h

/-- Any other start. -/
theorem step_start_not_shown {fs : FileSystem} {volumeLabel : WString → WString} {edits : List FirstRunEdit} {accepted : Bool}
    (h : ¬((Settings.load env m.ini).firstRun ∧ accepted)) :
    m.step env sameItem (.start fs volumeLabel edits accepted) = .launch env m.ini :=
  if_neg h

/-- One event, where the file and the memory agree: the memory is what the user chose. -/
theorem memory_step (h : m.Agrees env) (e : SettingsEvent) : (m.step env sameItem e).memory = m.memory.chosen sameItem e := by
  cases e with
  | start fs volumeLabel edits accepted =>
    have hload : Settings.load env m.ini = m.memory := h
    by_cases hshown : (Settings.load env m.ini).firstRun ∧ accepted
    · rw [step_start_shown hshown, hload, Settings.chosen, if_pos (hload ▸ hshown)]
      rfl
    · rw [step_start_not_shown hshown, Settings.chosen, if_neg (hload ▸ hshown)]
      exact hload
  | toggle item => rfl
  | dialog edits accepted =>
    simp only [Installation.step, Settings.chosen]
    split <;> rfl

variable [AsciiProfileApi Ini]

/-- Settings that are saved agree with the file if and only if they fit. -/
theorem agrees_keep_iff (henv : env.Usual) {s : Settings} (hheld : s.Held Ini) (h : s.Paths) :
    (m.keep s).Agrees env ↔ s.Fits :=
  load_save_eq_iff henv.towupper hheld h

theorem Settings.Paths.toggle {s : Settings} (h : s.Paths) (item : SearchToggle) : (s.toggle item).Paths := ⟨h.drives, h.exclusions⟩

theorem Settings.Fits.toggle {s : Settings} (h : s.Fits) (item : SearchToggle) : (s.toggle item).Fits :=
  ⟨h.semicolons, h.drives, h.someExclusion, h.exclusions, h.interval⟩

theorem Settings.Paths.acceptDialog {s : Settings} (h : s.Paths) (edits : List DialogEdit) :
    (s.acceptDialog sameItem edits).Paths :=
  ⟨(h.dialogControls edits).paths, (h.dialogControls edits).exclusions⟩

/-- What the settings dialog stores fits if and only if what it shows does. -/
theorem fits_acceptDialog_iff {s : Settings} {edits : List DialogEdit} :
    (s.acceptDialog sameItem edits).Fits ↔
      (∀ d ∈ (s.dialogControls sameItem edits).pathList, semicolon ∉ d) ∧
        joinedLength (s.dialogControls sameItem edits).pathList ≤ bufSize ∧ (s.dialogControls sameItem edits).Fits :=
  ⟨fun h => ⟨h.semicolons, h.drives, h.someExclusion, h.exclusions, h.interval⟩,
    fun h => ⟨h.1, h.2.1, h.2.2.someExclusion, h.2.2.exclusions, h.2.2.interval⟩⟩

/-- What the first-run dialog stores fits if and only if its exclusions and its interval do. -/
theorem fits_completeFirstRun_iff {s : Settings} {fs : FileSystem} {volumeLabel : WString → WString} {edits : List FirstRunEdit} :
    (s.completeFirstRun sameItem (localFixedDrives fs volumeLabel) edits).Fits ↔
      (s.firstRunControls sameItem (localFixedDrives fs volumeLabel) edits).toSettingsControls.Fits := by
  refine ⟨fun h => ⟨h.someExclusion, h.exclusions, h.interval⟩, fun h => ⟨fun d hd => ?_, joinedLength_completeFirstRun_le,
    h.someExclusion, h.exclusions, h.interval⟩⟩
  obtain ⟨i, hi, rfl⟩ := mem_completeFirstRun hd
  exact (driveRoot_chars hi).2

/-- One event: the file and the memory agree again if and only if what it stores fits. -/
theorem agrees_step_iff (henv : env.Usual) (h : m.Sound env) {e : SettingsEvent} (hkept : e.Kept env sameItem m) :
    (m.step env sameItem e).Agrees env ↔ e.Fits env sameItem m := by
  cases e with
  | start fs volumeLabel edits accepted =>
    by_cases hshown : (Settings.load env m.ini).firstRun ∧ accepted
    · have hpaths : (Settings.load env m.ini).Paths := paths_load henv
      have hheld : ((Settings.load env m.ini).completeFirstRun sameItem (localFixedDrives fs volumeLabel) edits).Held Ini := by
        have hheld := hkept hshown
        rwa [step_start_shown hshown] at hheld
      rw [step_start_shown hshown, agrees_keep_iff henv hheld hpaths.completeFirstRun, fits_completeFirstRun_iff]
      exact ⟨fun hfits _ => hfits, fun hfits => hfits hshown⟩
    · rw [step_start_not_shown hshown]
      exact iff_of_true rfl (fun h => absurd h hshown)
  | toggle item =>
    exact iff_of_true ((agrees_keep_iff henv (hkept trivial) (h.paths.toggle item)).2 (h.fits.toggle item)) trivial
  | dialog edits accepted =>
    cases accepted with
    | false => exact iff_of_true h.agrees (fun hfalse => absurd hfalse Bool.false_ne_true)
    | true =>
      have hheld : (m.memory.acceptDialog sameItem edits).Held Ini := hkept rfl
      simp only [Installation.step, SettingsEvent.Fits, if_true, true_imp_iff]
      rw [agrees_keep_iff henv hheld (h.paths.acceptDialog edits), fits_acceptDialog_iff]

/-- What is stored and fits can be written and read again after the next event. -/
theorem sound_step (henv : env.Usual) (h : m.Sound env) {e : SettingsEvent} (hkept : e.Kept env sameItem m)
    (he : e.Fits env sameItem m) : (m.step env sameItem e).Sound env := by
  have hagrees := (agrees_step_iff henv h hkept).2 he
  cases e with
  | start fs volumeLabel edits accepted =>
    by_cases hshown : (Settings.load env m.ini).firstRun ∧ accepted
    · rw [step_start_shown hshown] at hagrees ⊢
      exact ⟨hagrees, (paths_load henv).completeFirstRun, fits_completeFirstRun_iff.2 (he hshown)⟩
    · rw [step_start_not_shown hshown] at hagrees ⊢
      have hmemory : (Installation.launch env m.ini).memory = m.memory := h.agrees
      exact ⟨hagrees, paths_load henv, hmemory ▸ h.fits⟩
  | toggle item => exact ⟨hagrees, h.paths.toggle item, h.fits.toggle item⟩
  | dialog edits accepted =>
    cases accepted with
    | false => exact h
    | true => exact ⟨hagrees, h.paths.acceptDialog edits, fits_acceptDialog_iff.2 (he rfl)⟩

end

/-- From a file with exclusions, over every run of starts, dialogs and menu commands, as long as the file keeps what is written:
it says at every time what the program has in memory if and only if every dialog that is accepted shows lists and an interval that
fit; and then the memory is, after any number of starts, what the user chose. -/
theorem settings_survive_restarts {Ini : Type} [ProfileApi Ini] [AsciiProfileApi Ini] (env : Environment) (henv : env.Usual)
    (sameItem : WString → WString → Bool) (ini : Ini) (hexcl : (Settings.load env ini).excludedPaths ≠ [])
    (events : List SettingsEvent)
    (hkept : Meets (SettingsEvent.Kept env sameItem) (Installation.step env sameItem) (.launch env ini) events) :
    (Along (Installation.Agrees env) (Installation.step env sameItem) (.launch env ini) events ↔
      Meets (SettingsEvent.Fits env sameItem) (Installation.step env sameItem) (.launch env ini) events) ∧
    (Meets (SettingsEvent.Fits env sameItem) (Installation.step env sameItem) (.launch env ini) events →
      (final (Installation.step env sameItem) (.launch env ini) events).memory =
        final (Settings.chosen sameItem) (Settings.load env ini) events) := by
  have hsound : (Installation.launch env ini).Sound env := ⟨rfl, paths_load henv, fits_load henv hexcl⟩
  have hiff : Along (Installation.Agrees env) (Installation.step env sameItem) (.launch env ini) events ↔
      Meets (SettingsEvent.Fits env sameItem) (Installation.step env sameItem) (.launch env ini) events :=
    along_iff_meets (I := Installation.Sound env) (fun m e h hk he => sound_step henv h hk he)
      (fun m e h _ hk => agrees_step_iff henv h hk) hsound hsound.agrees hkept
  refine ⟨hiff, fun h => ?_⟩
  exact (hiff.2 h).map_final Installation.memory (fun m e hm => memory_step hm e)

namespace SettingsWitness

/-- `C:\Temp`. -/
def temp : PickedFolder := ⟨wide ['C', ':', '\\', 'T', 'e', 'm', 'p'], by decide, by simp [wide, verticalBar]⟩

theorem usual_env : env.Usual := ⟨fun _ _ _ => rfl, by decide, by simp [env]⟩

/-- The first run, with a folder excluded; an option switched; a location added, and the interval set to 3 days; a second start. -/
def events : List SettingsEvent :=
  [.start .empty (fun _ => []) [.control (.addExclusion (some temp))] true, .toggle .wholeWord,
    .dialog [.addLocation (some temp), .setInterval (wide ['3']), .setUnit .days] true, .start .empty (fun _ => []) [] false]

theorem settings_survive_restarts_events :
    (final (Installation.step env (fun a b => a = b)) (.launch env ini) events).memory =
      final (Settings.chosen (fun a b => a = b)) (Settings.load env ini) events :=
  (settings_survive_restarts env usual_env _ ini (by decide +kernel) events
    (meets_of_forall (fun _ _ _ => ⟨IniFile.keeps _ _, IniFile.keeps _ _⟩) _ _ _)).2
    ⟨fun _ => ⟨by decide +kernel, by decide +kernel, .inl (by decide +kernel)⟩, trivial,
      fun _ => ⟨by decide +kernel, by decide +kernel, by decide +kernel, by decide +kernel, .inl (by decide +kernel)⟩,
      fun h => absurd h.2 (by decide), trivial⟩

end SettingsWitness

end WinIndex
