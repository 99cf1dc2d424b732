import WinIndex.Lib.Runs
import WinIndex.Settings
import WinIndex.Theorems.Search

/-!
# What the settings file keeps

A list of paths is saved as one value, each path with a separator behind it, and read through a buffer. It comes back if no
path holds the separator and the value fits the buffer, where the last separator may be cut off; and only then. For the
excluded paths the list must not be empty, either: an empty value stands for one that was never saved.
-/

namespace WinIndex

open Runs

/-! ## One value -/

/-- A path that Windows allows, as far as its characters go: not empty, no control character, and none of `<`, `>`, `"`, `|`,
`?`, `*` and `/`. -/
structure LegalPath (path : WString) : Prop where
  nonempty : path ≠ []
  chars : ∀ c ∈ path, 0x20 ≤ c ∧ c ∉ [(0x3C : WChar), 0x3E, 0x22, 0x7C, 0x3F, 0x2A, 0x2F]

theorem legalPath_iff_all (path : WString) :
    (path ≠ [] ∧ path.all (fun c => 0x20 ≤ c ∧ c ∉ [(0x3C : WChar), 0x3E, 0x22, 0x7C, 0x3F, 0x2A, 0x2F]) = true) ↔
      LegalPath path := by
  simp only [List.all_eq_true, decide_eq_true_eq]
  exact ⟨fun h => ⟨h.1, h.2⟩, fun h => ⟨h.nonempty, h.chars⟩⟩

instance LegalPath.decidable (path : WString) : Decidable (LegalPath path) := decidable_of_iff _ (legalPath_iff_all path)

theorem LegalPath.zero_not_mem {path : WString} (h : LegalPath path) : 0 ∉ path :=
  fun hmem => absurd (h.chars 0 hmem).1 (by decide)

theorem LegalPath.verticalBar_not_mem {path : WString} (h : LegalPath path) : verticalBar ∉ path :=
  fun hmem => absurd (h.chars verticalBar hmem).2 (by decide)

/-- What is a separator. -/
def isSep (sep c : WChar) : Bool := c = sep

/-- The loop over the lines that are not empty collects the runs between separators. -/
theorem filter_getlines (sep : WChar) (str token : WString) (htoken : ∀ c ∈ token, isSep sep c = false) :
    (getlines sep token str).filter (fun t => !t.isEmpty) = runs (isSep sep) (token ++ str) := by
  induction str generalizing token with
  | nil =>
    rw [List.append_nil, runs_of_free htoken, getlines]
    split
    · rfl
    · rename_i hne
      simpa using hne
  | cons c cs ih =>
    rw [getlines]
    by_cases hc : c = sep
    · have hsep : isSep sep c = true := by simpa [isSep] using hc
      have hrest := ih [] (by simp)
      rw [List.nil_append] at hrest
      rw [if_pos hc, runs_append_cons token cs hsep, runs_of_free htoken, List.filter_cons, hrest]
      by_cases hempty : token = []
      · simp [hempty]
      · simp [hempty]
    · have hfree : ∀ x ∈ token ++ [c], isSep sep x = false := by
        rw [List.forall_mem_append]
        exact ⟨htoken, by simpa [isSep] using hc⟩
      rw [if_neg hc, ih _ hfree, List.append_assoc]
      rfl

theorem splitPaths_eq_runs (sep : WChar) (str : WString) : splitPaths sep str = runs (isSep sep) str :=
  filter_getlines sep str [] (by simp)

theorem joinPaths_eq_flatten (sep : WChar) (paths : List WString) :
    joinPaths sep paths = (paths.map (fun d => d ++ [sep])).flatten := by
  have hacc : ∀ str : WString, paths.foldl (fun str d => str ++ (d ++ [sep])) str =
      str ++ (paths.map (fun d => d ++ [sep])).flatten := by
    induction paths with
    | nil => simp
    | cons d ds ih =>
      intro str
      rw [List.foldl_cons, ih, List.map_cons, List.flatten_cons, List.append_assoc]
  rw [joinPaths, hacc, List.nil_append]

/-- How much room a list of paths takes: each path, and a separator. -/
def joinedLength (paths : List WString) : Nat := (paths.map (fun d => d.length + 1)).sum

theorem length_joinPaths (sep : WChar) (paths : List WString) : (joinPaths sep paths).length = joinedLength paths := by
  rw [joinPaths_eq_flatten, List.length_flatten, List.map_map, joinedLength]
  congr 1
  exact List.map_congr_left (fun d _ => by simp)

/-- A list joined, cut and split again is the list, if no path holds the separator and at most the last separator is cut off;
and only then. -/
theorem splitPaths_take_iff (sep : WChar) {paths : List WString} (hne : ∀ d ∈ paths, d ≠ []) (n : Nat) :
    splitPaths sep ((joinPaths sep paths).take n) = paths ↔ (∀ d ∈ paths, sep ∉ d) ∧ joinedLength paths ≤ n + 1 := by
  have hisSep : ∀ d : WString, (∀ c ∈ d, isSep sep c = false) ↔ sep ∉ d := by
    intro d
    simp only [isSep, decide_eq_false_iff_not]
    exact ⟨fun h hmem => h sep hmem rfl, fun h c hc heq => h (heq ▸ hc)⟩
  have hlen := length_joinPaths sep paths
  rw [splitPaths_eq_runs]
  constructor
  · intro h
    have hrenders := renders_iff.2 h
    refine ⟨fun d hd => (hisSep d).1 (hrenders.free d hd).2, ?_⟩
    have hsum := hrenders.sum_length_le
    rw [List.length_take] at hsum
    exact Nat.le_trans hsum (by omega)
  · rintro ⟨hsep, hle⟩
    have hself : isSep sep sep = true := decide_eq_true rfl
    have hall : runs (isSep sep) (joinPaths sep paths) = paths := by
      rw [joinPaths_eq_flatten]
      exact (renders_flatten hself (fun d hd => ⟨hne d hd, (hisSep d).2 (hsep d hd)⟩)).runs_eq
    by_cases hfits : joinedLength paths ≤ n
    · rw [List.take_of_length_le (by omega), hall]
    · -- the last separator is cut off
      rcases List.eq_nil_or_concat paths with rfl | ⟨front, last, rfl⟩
      · exact absurd (Nat.zero_le n) hfits
      · have hend : joinPaths sep (front ++ [last]) = (joinPaths sep front ++ last) ++ [sep] := by
          simp [joinPaths]
        rw [List.concat_eq_append] at *
        rw [hend, List.length_append, List.length_singleton] at hlen
        rw [hend, runs_concat _ hself] at hall
        rw [hend, List.take_append_of_le_length (by omega), List.take_of_length_le (by omega), hall]

/-! ## Through the file -/

/-- A string without a zero is what `c_str` points to. -/
theorem cString_eq {value : WString} (h : 0 ∉ value) : cString value = value := by
  rw [cString, List.takeWhile_eq_self_iff]
  intro c hc
  have hne : c ≠ 0 := fun hzero => h (by rwa [hzero] at hc)
  simpa using hne

/-- Joined paths hold what one of them holds, and the separator. -/
theorem not_mem_joinPaths {sep c : WChar} (hsep : sep ≠ c) {paths : List WString} (h : ∀ d ∈ paths, c ∉ d) :
    c ∉ joinPaths sep paths := by
  rw [joinPaths_eq_flatten, List.mem_flatten]
  rintro ⟨piece, hpiece, hc⟩
  obtain ⟨d, hd, rfl⟩ := List.mem_map.1 hpiece
  rcases List.mem_append.1 hc with hc | hc
  · exact h d hd hc
  · exact hsep (List.mem_singleton.1 hc).symm

/-- A value that is read is empty if no path was saved, and only then. -/
theorem joinPaths_take_eq_nil {sep : WChar} {paths : List WString} :
    (joinPaths sep paths).take (bufSize - 1) = [] ↔ paths = [] := by
  rw [List.take_eq_nil_iff, ← List.length_eq_zero_iff, length_joinPaths]
  cases paths with
  | nil => simp [joinedLength]
  | cons d ds => simp [joinedLength, bufSize]

/-- What `Save` writes under each key. -/
def Settings.iniValue (s : Settings) : IniKey → WString
  | .firstRunComplete => toWstring (flag (!s.firstRun))
  | .selectedDrives => joinPaths semicolon s.selectedDrives
  | .excludedPaths => joinPaths verticalBar s.excludedPaths
  | .reindexIntervalHours => toWstring s.reindexIntervalHours.toUInt32.toInt32
  | .useRegex => toWstring (flag s.searchOptions.useRegex)
  | .caseSensitive => toWstring (flag s.searchOptions.caseSensitive)
  | .wholeWord => toWstring (flag s.searchOptions.wholeWord)
  | .matchPath => toWstring (flag s.searchOptions.matchPath)
  | .ignoreDiacritics => toWstring (flag s.ignoreDiacritics)
  | .logLevel => s.logLevel.toWString

/-- The keys, in the order in which `Save` writes them. -/
def savedKeys : List IniKey :=
  [.firstRunComplete, .selectedDrives, .excludedPaths, .reindexIntervalHours, .useRegex, .caseSensitive, .wholeWord, .matchPath,
    .ignoreDiacritics, .logLevel]

section

open ProfileApi LawfulProfileApi

variable {Ini : Type} [ProfileApi Ini]

/-- `Save` writes every key once. -/
theorem Settings.save_eq_foldl (s : Settings) (ini : Ini) :
    s.save ini = savedKeys.foldl (fun ini k => writePrivateProfileString ini k (cString (s.iniValue k))) ini := by
  have hflag : (if s.firstRun then 0 else 1) = flag (!s.firstRun) := by cases s.firstRun <;> rfl
  rw [save, hflag]
  rfl

/-- The selected paths are the pieces of their value; an empty one has none. -/
theorem load_selectedDrives (env : Environment) (ini : Ini) :
    (Settings.load env ini).selectedDrives = splitPaths semicolon (Settings.readString ini .selectedDrives []) := by
  rw [Settings.load]
  show (if Settings.readString ini .selectedDrives [] ≠ [] then _ else []) = _
  split
  · rfl
  · rename_i hnil
    rw [not_not.1 hnil]
    rfl

/-- The excluded paths are the default ones, or the pieces of their value. -/
theorem load_excludedPaths_cases (env : Environment) (ini : Ini) :
    (Settings.load env ini).excludedPaths = defaultExcludedPaths env ∨
      (Settings.load env ini).excludedPaths = splitPaths verticalBar (Settings.readString ini .excludedPaths []) := by
  rw [Settings.load]
  by_cases hnil : Settings.readString ini .excludedPaths [] = []
  · exact .inl (if_pos hnil)
  · exact .inr (if_neg hnil)

/-- Under a key, two files read the same. -/
structure ReadsAs (key : IniKey) (ini ini' : Ini) : Prop where
  get : ∀ defaultVal size, getPrivateProfileString ini key defaultVal size = getPrivateProfileString ini' key defaultVal size
  getInt : ∀ defaultVal, getPrivateProfileInt ini key defaultVal = getPrivateProfileInt ini' key defaultVal

variable [LawfulProfileApi Ini]

/-- Values that are written under other keys are not read. -/
theorem readsAs_foldl_write {key : IniKey} (value : IniKey → WString) {keys : List IniKey} (h : key ∉ keys) (ini : Ini) :
    ReadsAs key (keys.foldl (fun ini k => writePrivateProfileString ini k (value k)) ini) ini := by
  induction keys generalizing ini with
  | nil => exact ⟨fun _ _ => rfl, fun _ => rfl⟩
  | cons k keys ih =>
    rw [List.mem_cons, not_or] at h
    have hrest := ih h.2 (writePrivateProfileString ini k (value k))
    exact ⟨fun defaultVal size => (hrest.get defaultVal size).trans (get_write_of_ne ini _ _ _ h.1),
      fun defaultVal => (hrest.getInt defaultVal).trans (getInt_write_of_ne ini _ _ h.1)⟩

/-- Among values written under different keys, each is read as if it were the last. -/
theorem exists_write_of_foldl {key : IniKey} (value : IniKey → WString) {keys : List IniKey} (hnodup : keys.Nodup)
    (h : key ∈ keys) (ini : Ini) : ∃ before : Ini,
      ReadsAs key (keys.foldl (fun ini k => writePrivateProfileString ini k (value k)) ini)
        (writePrivateProfileString before key (value key)) := by
  induction keys generalizing ini with
  | nil => exact absurd h List.not_mem_nil
  | cons k keys ih =>
    obtain ⟨hk, hkeys⟩ := List.nodup_cons.1 hnodup
    rcases List.mem_cons.1 h with rfl | h
    · exact ⟨ini, readsAs_foldl_write value hk _⟩
    · exact ih hkeys h _

/-- After `Save`, the file has under every key the value of its setting. -/
theorem Settings.exists_write_of_save (s : Settings) (ini : Ini) (key : IniKey) :
    ∃ before : Ini, ReadsAs key (s.save ini) (writePrivateProfileString before key (cString (s.iniValue key))) := by
  rw [s.save_eq_foldl]
  exact exists_write_of_foldl (fun k => cString (s.iniValue k)) (by decide) (by cases key <;> decide) ini

/-- A value that the file keeps, and that no zero ends early, is read after `Save` as it is, cut to the buffer. -/
theorem Settings.readString_save (s : Settings) (ini : Ini) (key : IniKey) (hkeeps : Keeps Ini key (s.iniValue key))
    (hzero : 0 ∉ s.iniValue key) (defaultVal : WString) :
    readString (s.save ini) key defaultVal = (s.iniValue key).take (bufSize - 1) := by
  obtain ⟨before, hreads⟩ := s.exists_write_of_save ini key
  rw [readString, hreads.get, cString_eq hzero, hkeeps before _ bufSize (by decide)]
  exact cString_eq (fun hmem => hzero (List.mem_of_mem_take hmem))

/-- The selected paths that `Load` finds after `Save`. -/
theorem load_save_selectedDrives (env : Environment) (ini : Ini) (s : Settings)
    (hkeeps : Keeps Ini .selectedDrives (joinPaths semicolon s.selectedDrives)) (hzero : ∀ d ∈ s.selectedDrives, 0 ∉ d) :
    (Settings.load env (s.save ini)).selectedDrives =
      splitPaths semicolon ((joinPaths semicolon s.selectedDrives).take (bufSize - 1)) := by
  rw [load_selectedDrives, s.readString_save ini .selectedDrives hkeeps (not_mem_joinPaths (by decide) hzero)]
  rfl

/-- The excluded paths that `Load` finds after `Save`: where none were saved, the default ones. -/
theorem load_save_excludedPaths (env : Environment) (ini : Ini) (s : Settings)
    (hkeeps : Keeps Ini .excludedPaths (joinPaths verticalBar s.excludedPaths)) (hzero : ∀ d ∈ s.excludedPaths, 0 ∉ d) :
    (Settings.load env (s.save ini)).excludedPaths =
      if s.excludedPaths = [] then defaultExcludedPaths env
      else splitPaths verticalBar ((joinPaths verticalBar s.excludedPaths).take (bufSize - 1)) := by
  have hread := s.readString_save ini .excludedPaths hkeeps (not_mem_joinPaths (by decide) hzero) []
  rw [Settings.load, hread]
  exact if_congr joinPaths_take_eq_nil rfl rfl

/-- A list of exclusions, of paths without a zero and without a vertical bar, comes back if and only if it is not empty and fits
the buffer. -/
theorem load_save_excludedPaths_iff {env : Environment} {ini : Ini} {s : Settings}
    (hkeeps : Keeps Ini .excludedPaths (joinPaths verticalBar s.excludedPaths))
    (h : ∀ d ∈ s.excludedPaths, d ≠ [] ∧ 0 ∉ d ∧ verticalBar ∉ d) :
    (Settings.load env (s.save ini)).excludedPaths = s.excludedPaths ↔
      s.excludedPaths ≠ [] ∧ joinedLength s.excludedPaths ≤ bufSize := by
  rw [load_save_excludedPaths env ini s hkeeps (fun d hd => (h d hd).2.1)]
  by_cases hnil : s.excludedPaths = []
  · -- nothing saved reads as never saved
    rw [if_pos hnil, hnil]
    simp [defaultExcludedPaths]
  · rw [if_neg hnil, splitPaths_take_iff verticalBar (fun d hd => (h d hd).1)]
    exact and_congr_left (fun _ => iff_of_true (fun d hd => (h d hd).2.2) hnil)

end

/-- The selected paths come back from the file if and only if none of them holds a semicolon and they fit the buffer, each with
its separator. -/
theorem selectedDrives_roundTrip_iff (env : Environment) (ini : IniFile) (s : Settings) (drives : List WString)
    (h : ∀ d ∈ drives, LegalPath d) :
    (Settings.load env ((s.setSelectedDrives drives).save ini)).selectedDrives = drives ↔
      (∀ d ∈ drives, semicolon ∉ d) ∧ joinedLength drives ≤ bufSize := by
  have hload := load_save_selectedDrives env ini (s.setSelectedDrives drives) (IniFile.keeps .selectedDrives _)
    (fun d hd => (h d hd).zero_not_mem)
  rw [hload]
  exact splitPaths_take_iff semicolon (fun d hd => (h d hd).nonempty) (bufSize - 1)

namespace SettingsWitness

/-- A system on `C:`, whose folders for application data are not known. -/
def env : Environment := ⟨fun c => c, wide ['C', ':', '\\', 'W', 'i', 'n', 'd', 'o', 'w', 's'], none, none⟩

/-- A file without values. -/
def ini : IniFile := ⟨[]⟩

/-- The settings of a first run. -/
def settings : Settings := ⟨[], [], kReindexDefaultHours, SearchWitness.plain, false, true, .warning⟩

/-- `C:\` and `D:\`. -/
def drives : List WString := [wide ['C', ':', '\\'], wide ['D', ':', '\\']]

/-- `C:\a;b`. -/
def withSemicolon : WString := wide ['C', ':', '\\', 'a', ';', 'b']

theorem selectedDrives_roundTrip_iff_drives :
    (Settings.load env ((settings.setSelectedDrives drives).save ini)).selectedDrives = drives :=
  (selectedDrives_roundTrip_iff env ini settings drives (by decide)).2 (by decide)

end SettingsWitness

/-- The folder `C:\a;b` comes back as the two paths `C:\a` and `b`. -/
theorem selectedDrives_split_at_semicolon :
    LegalPath SettingsWitness.withSemicolon ∧
      (Settings.load SettingsWitness.env ((SettingsWitness.settings.setSelectedDrives [SettingsWitness.withSemicolon]).save
        SettingsWitness.ini)).selectedDrives = [wide ['C', ':', '\\', 'a'], wide ['b']] := by
  decide +kernel

/-- Excluded paths whose value the file keeps come back from it if and only if there are any and they fit the buffer, each with
its separator. -/
theorem excludedPaths_roundTrip_iff {Ini : Type} [ProfileApi Ini] [LawfulProfileApi Ini] (env : Environment) (ini : Ini)
    (s : Settings) (paths : List WString) (h : ∀ d ∈ paths, LegalPath d)
    (hkeeps : Keeps Ini .excludedPaths (joinPaths verticalBar paths)) :
    (Settings.load env ((s.setExcludedPaths paths).save ini)).excludedPaths = paths ↔
      paths ≠ [] ∧ joinedLength paths ≤ bufSize :=
  load_save_excludedPaths_iff (s := s.setExcludedPaths paths) hkeeps
    (fun d hd => ⟨(h d hd).nonempty, (h d hd).zero_not_mem, (h d hd).verticalBar_not_mem⟩)

namespace SettingsWitness

theorem excludedPaths_roundTrip_iff_drives :
    (Settings.load env ((settings.setExcludedPaths drives).save ini)).excludedPaths = drives :=
  (excludedPaths_roundTrip_iff env ini settings drives (by decide) (IniFile.keeps .excludedPaths _)).2 (by decide)

end SettingsWitness

/-- A list without exclusions, once saved, comes back as the seven default ones of the system drive. -/
theorem excludedPaths_defaults_again :
    (Settings.load SettingsWitness.env ((SettingsWitness.settings.setExcludedPaths []).save
      SettingsWitness.ini)).excludedPaths = defaultExcludedPaths SettingsWitness.env ∧
    defaultExcludedPaths SettingsWitness.env ≠ [] := by
  decide +kernel

end WinIndex
