import WinIndex.FirstRunDialog
import WinIndex.Lib.Trace
import WinIndex.ResultList

/-!
# The settings from one start of the program to the next

What changes the settings and the file (src/ui/MainWindow.cpp): `OnCreate` reads the file and shows the first-run dialog until it
is accepted, the search menu switches an option and saves, the settings dialog is edited and accepted or cancelled. The program
may be started again at any time; what it kept in memory is then what it reads from the file.
-/

namespace WinIndex

/-- A folder of the file system that was picked: a C string with the characters of a path. -/
structure PickedFolder where
  path : WString
  nonempty : path ≠ []
  chars : ∀ c ∈ path, c ≠ 0 ∧ c ≠ verticalBar

/-! ## Editing the controls -/

/-- What the user does in a dialog, but for the drives. -/
inductive DialogEdit where
  | addLocation (picked : Option PickedFolder)
  | removePath (sel : Option Nat)
  | addExclusion (picked : Option PickedFolder)
  | removeExclusion (sel : Option Nat)
  | setManualOnly (checked : Bool)
  | setInterval (text : WString)
  | setUnit (unit : ReindexUnit)

/-- The item `LB_GETCURSEL` names is deleted, if there is one. -/
def deleteString (items : List WString) : Option Nat → List WString
  | none => items
  | some sel => items.eraseIdx sel

/-- One edit: `OnAddLocation`, `OnRemovePath`, `OnAddExclusion`, `OnRemoveExclusion`, or a control of the interval. `sameItem` is
the comparison of `LB_FINDSTRINGEXACT`; only `OnAddLocation` looks whether the list has the folder. -/
def SettingsControls.edit (sameItem : WString → WString → Bool) (c : SettingsControls) : DialogEdit → SettingsControls
  | .addLocation none | .addExclusion none => c
  | .addLocation (some fullPath) =>
    if c.pathList.any (sameItem fullPath.path) then c else { c with pathList := c.pathList ++ [fullPath.path] }
  | .removePath sel => { c with pathList := deleteString c.pathList sel }
  | .addExclusion (some fullPath) => { c with exclList := c.exclList ++ [fullPath.path] }
  | .removeExclusion sel => { c with exclList := deleteString c.exclList sel }
  | .setManualOnly checked => { c with manualOnly := checked }
  | .setInterval text => { c with interval := text }
  | .setUnit unit => { c with unit := unit }

/-- What the user does in the first-run dialog. -/
inductive FirstRunEdit where
  | select (item : Nat) (selected : Bool)
  | control (edit : DialogEdit)

/-- One edit. The dialog handles `IDC_EXCL_ADD` and `IDC_EXCL_REMOVE` as the settings dialog does; it has no list of paths. -/
def FirstRunControls.edit (sameItem : WString → WString → Bool) (c : FirstRunControls) : FirstRunEdit → FirstRunControls
  | .select item selected => { c with driveList := c.driveList.modify item (fun entry => (entry.1, selected)) }
  | .control edit => { c with toSettingsControls := c.toSettingsControls.edit sameItem edit }

/-! ## The installation -/

/-- `toggleOpt`: one option of the search is switched. -/
def Settings.toggle (s : Settings) (item : SearchToggle) : Settings :=
  { s with
    searchOptions := item.flip s.searchOptions
    ignoreDiacritics := if item = .ignoreDiacritics then !s.ignoreDiacritics else s.ignoreDiacritics }

/-- What happens to the settings. -/
inductive SettingsEvent where
  /-- `OnCreate`, with the first-run dialog if it is shown. The drives are those that are found then. -/
  | start (fs : FileSystem) (volumeLabel : WString → WString) (edits : List FirstRunEdit) (accepted : Bool)
  /-- `OnCommand` for an item of the search menu. -/
  | toggle (item : SearchToggle)
  /-- `OnCommand` for the settings dialog. -/
  | dialog (edits : List DialogEdit) (accepted : Bool)

section

variable (sameItem : WString → WString → Bool)

/-- The controls of the first-run dialog when it is closed. -/
def Settings.firstRunControls (s : Settings) (drives : List DriveInfo) (edits : List FirstRunEdit) : FirstRunControls :=
  edits.foldl (·.edit sameItem) (FirstRunDialog.onInit s drives)

/-- The controls of the settings dialog when it is closed. -/
def Settings.dialogControls (s : Settings) (edits : List DialogEdit) : SettingsControls :=
  edits.foldl (·.edit sameItem) (SettingsDialog.onInit s)

/-- The settings after the first-run dialog. -/
def Settings.completeFirstRun (s : Settings) (drives : List DriveInfo) (edits : List FirstRunEdit) : Settings :=
  (FirstRunDialog.onOk s drives (s.firstRunControls sameItem drives edits)).setFirstRunComplete

/-- The settings after the settings dialog. -/
def Settings.acceptDialog (s : Settings) (edits : List DialogEdit) : Settings :=
  SettingsDialog.onOk s (s.dialogControls sameItem edits)

end

/-- The file and the settings of the running program. -/
structure Installation (Ini : Type) where
  ini : Ini
  memory : Settings

section

variable {Ini : Type} [ProfileApi Ini] (env : Environment) (sameItem : WString → WString → Bool)

/-- The program has read the file. -/
def Installation.launch (ini : Ini) : Installation Ini := ⟨ini, Settings.load env ini⟩

/-- The settings take new values, and `Save` writes them. -/
def Installation.keep (m : Installation Ini) (s : Settings) : Installation Ini := ⟨s.save m.ini, s⟩

/-- What `m_settings` and the file are after an event. -/
def Installation.step (m : Installation Ini) : SettingsEvent → Installation Ini
  | .start fs volumeLabel edits accepted =>
    let m := launch env m.ini
    if m.memory.firstRun ∧ accepted then m.keep (m.memory.completeFirstRun sameItem (localFixedDrives fs volumeLabel) edits)
    else m
  | .toggle item => m.keep (m.memory.toggle item)
  | .dialog edits accepted => if accepted then m.keep (m.memory.acceptDialog sameItem edits) else m

/-- The event writes the file. -/
def SettingsEvent.Writes (m : Installation Ini) : SettingsEvent → Prop
  | .start _ _ _ accepted => (Settings.load env m.ini).firstRun ∧ accepted
  | .toggle _ => True
  | .dialog _ accepted => accepted

end

/-! ## What the user chose -/

/-- What an event says the settings are to be, by one who forgets nothing: a start changes nothing but for the dialog that may
come with it. -/
def Settings.chosen (sameItem : WString → WString → Bool) (s : Settings) : SettingsEvent → Settings
  | .start fs volumeLabel edits accepted =>
    if s.firstRun ∧ accepted then s.completeFirstRun sameItem (localFixedDrives fs volumeLabel) edits else s
  | .toggle item => s.toggle item
  | .dialog edits accepted => if accepted then s.acceptDialog sameItem edits else s

end WinIndex
