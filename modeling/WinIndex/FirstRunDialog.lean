import WinIndex.Indexer
import WinIndex.SettingsDialog

/-!
# The first-run dialog

`FirstRunDialog` (src/ui/FirstRunDialog.cpp) offers the local fixed drives (src/core/indexer/DriveEnumerator.cpp) in a list box:
the drive of an item is the one that stands at the index of the item in `m_drives`.
-/

namespace WinIndex

/-- `DriveInfo`. -/
structure DriveInfo where
  root : WString
  label : WString
  filesystem : DriveFilesystem

/-- `EnumerateLocalFixedDrives`. `volumeLabel` is what `GetVolumeInformationW` leaves of the label of a root in a buffer of
zeros. -/
def localFixedDrives (fs : FileSystem) (volumeLabel : WString → WString) : List DriveInfo :=
  (enumerateLocalFixedDrives fs).map (fun root => ⟨root, cString (volumeLabel root), getFilesystem fs root⟩)

/-- The controls: the list of drives, each with its text and whether it is selected, and those that the settings dialog has, too.
-/
structure FirstRunControls extends SettingsControls where
  driveList : List (WString × Bool)

/-- The text of a drive. -/
def DriveInfo.text (drive : DriveInfo) : WString :=
  drive.root ++ (if drive.label = [] then [] else wide [' ', '('] ++ drive.label ++ wide [')']) ++
    (if drive.filesystem = .ntfs then wide [' ', '[', 'N', 'T', 'F', 'S', ']']
      else wide [' ', '[', 'F', 'A', 'T', '3', '2', ']'])

/-- `drive.root == L"C:\\" || drive.root == L"C:/"`. -/
def DriveInfo.isC (drive : DriveInfo) : Bool := drive.root = wide ['C', ':', '\\'] || drive.root = wide ['C', ':', '/']

/-- `OnInit`. -/
def FirstRunDialog.onInit (s : Settings) (drives : List DriveInfo) : FirstRunControls where
  driveList := drives.map (fun drive => (drive.text, drive.isC))
  pathList := []
  manualOnly := false
  interval := wide ['4', '8']
  unit := .hours
  exclList := s.excludedPaths

/-- The drives `OnOk` stores: `m_drives[i].root` for each selected item. -/
def FirstRunControls.selected (c : FirstRunControls) (drives : List DriveInfo) : List WString :=
  (c.driveList.zip drives).filterMap (fun (item, drive) => if item.2 then some drive.root else none)

/-- `OnOk`. -/
def FirstRunDialog.onOk (s : Settings) (drives : List DriveInfo) (c : FirstRunControls) : Settings :=
  { s with
    selectedDrives := c.selected drives
    reindexIntervalHours := c.intervalHours
    excludedPaths := c.exclList }

/-- `SetFirstRunComplete`. -/
def Settings.setFirstRunComplete (s : Settings) : Settings := { s with firstRun := false }

end WinIndex
