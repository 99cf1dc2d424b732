import WinIndex.Settings

/-!
# The settings dialog

`SettingsDialog` (src/ui/SettingsDialog.cpp): how `OnInit` fills the controls from the settings and `OnOk` reads them again. The
interval is a number in a text field and a unit beside it; the settings keep it in hours, and 0 hours for manual only.
-/

namespace WinIndex

/-- `kReindexManualOnly`. -/
def kReindexManualOnly : UInt64 := 0

/-- What the box `IDC_REINDEX_UNIT` offers. -/
inductive ReindexUnit where
  | hours | days
  deriving DecidableEq

/-- The hours of a unit. -/
def ReindexUnit.inHours : ReindexUnit → Nat
  | .hours => 1
  | .days => 24

/-- The controls that are read and written: the two lists, the check box and the text field and unit of the interval. -/
structure SettingsControls where
  pathList : List WString
  manualOnly : Bool
  interval : WString
  unit : ReindexUnit
  exclList : List WString

/-- `std::to_wstring(uint64_t)`. -/
def toWstringU64 (value : UInt64) : WString := wide (Nat.toDigits 10 value.toNat)

/-! ## Reading a number -/

/-- The white space of the C locale. -/
def isWhiteSpace (c : WChar) : Bool := c = 0x20 || (0x09 ≤ c && c ≤ 0x0D)

/-- The number that the digits at the start of a text continue. -/
def digitsValue : Nat → WString → Nat
  | acc, [] => acc
  | acc, c :: cs => if 0x30 ≤ c ∧ c ≤ 0x39 then digitsValue (acc * 10 + (c.toNat - 0x30)) cs else acc

/-- `_wtoi64`: white space, a sign, digits; a number that does not fit becomes the greatest or the least that does. -/
def wtoi64 (text : WString) : Int64 :=
  match text.dropWhile isWhiteSpace with
  | [] => 0
  | c :: cs =>
    if c = 0x2D then .ofInt (max (-(digitsValue 0 cs : Int)) (-2 ^ 63))
    else if c = 0x2B then .ofInt (min (digitsValue 0 cs) (2 ^ 63 - 1))
    else .ofInt (min (digitsValue 0 (c :: cs)) (2 ^ 63 - 1))

/-! ## The dialog -/

/-- `OnInit`. -/
def SettingsDialog.onInit (s : Settings) : SettingsControls :=
  let interval := s.reindexIntervalHours
  let (text, unit) :=
    if interval = kReindexManualOnly then (wide ['4', '8'], ReindexUnit.hours)
    else if interval % 24 = 0 ∧ interval ≥ 24 then (toWstringU64 (interval / 24), ReindexUnit.days)
    else (toWstringU64 interval, ReindexUnit.hours)
  { pathList := s.selectedDrives
    manualOnly := interval = kReindexManualOnly
    interval := text
    unit := unit
    exclList := s.excludedPaths }

/-- The interval `OnOk` stores. `GetDlgItemTextW` gets a buffer of 32 units. -/
def SettingsControls.intervalHours (c : SettingsControls) : UInt64 :=
  if c.manualOnly then kReindexManualOnly
  else
    let val := (wtoi64 (cString (c.interval.take 31))).toUInt64
    let val := if c.unit = .days then val * 24 else val
    if val > 0 then val else kReindexDefaultHours

/-- `OnOk`. -/
def SettingsDialog.onOk (s : Settings) (c : SettingsControls) : Settings :=
  { s with
    selectedDrives := c.pathList
    reindexIntervalHours := c.intervalHours
    excludedPaths := c.exclList }

end WinIndex
