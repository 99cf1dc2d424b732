import WinIndex.Lib.Assoc
import WinIndex.SearchEngine

/-!
# The settings file

`Settings` (src/core/settings/Settings.h, Settings.cpp): what the program keeps in `winindex.ini`. The profile functions of
Windows are a parameter, with what the code relies on as laws; which values a file gives back depends on its encoding. Two lists
of paths are kept in one value each, joined and split at a separator.
-/

namespace WinIndex

/-! ## The profile functions -/

/-- The keys of `winindex.ini` that the program uses. -/
inductive IniKey where
  | firstRunComplete | logLevel | selectedDrives | excludedPaths | reindexIntervalHours
  | useRegex | caseSensitive | wholeWord | matchPath | ignoreDiacritics
  deriving DecidableEq

/-- The section of a key and its name. -/
def IniKey.names : IniKey → List Char × List Char
  | .firstRunComplete => (['G', 'e', 'n', 'e', 'r', 'a', 'l'],
      ['F', 'i', 'r', 's', 't', 'R', 'u', 'n', 'C', 'o', 'm', 'p', 'l', 'e', 't', 'e'])
  | .logLevel => (['G', 'e', 'n', 'e', 'r', 'a', 'l'], ['L', 'o', 'g', 'L', 'e', 'v', 'e', 'l'])
  | .selectedDrives => (['I', 'n', 'd', 'e', 'x', 'i', 'n', 'g'],
      ['S', 'e', 'l', 'e', 'c', 't', 'e', 'd', 'D', 'r', 'i', 'v', 'e', 's'])
  | .excludedPaths => (['I', 'n', 'd', 'e', 'x', 'i', 'n', 'g'],
      ['E', 'x', 'c', 'l', 'u', 'd', 'e', 'd', 'P', 'a', 't', 'h', 's'])
  | .reindexIntervalHours => (['I', 'n', 'd', 'e', 'x', 'i', 'n', 'g'],
      ['R', 'e', 'i', 'n', 'd', 'e', 'x', 'I', 'n', 't', 'e', 'r', 'v', 'a', 'l', 'H', 'o', 'u', 'r', 's'])
  | .useRegex => (['S', 'e', 'a', 'r', 'c', 'h'], ['U', 's', 'e', 'R', 'e', 'g', 'e', 'x'])
  | .caseSensitive => (['S', 'e', 'a', 'r', 'c', 'h'], ['C', 'a', 's', 'e', 'S', 'e', 'n', 's', 'i', 't', 'i', 'v', 'e'])
  | .wholeWord => (['S', 'e', 'a', 'r', 'c', 'h'], ['W', 'h', 'o', 'l', 'e', 'W', 'o', 'r', 'd'])
  | .matchPath => (['S', 'e', 'a', 'r', 'c', 'h'], ['M', 'a', 't', 'c', 'h', 'P', 'a', 't', 'h'])
  | .ignoreDiacritics => (['S', 'e', 'a', 'r', 'c', 'h'],
      ['I', 'g', 'n', 'o', 'r', 'e', 'D', 'i', 'a', 'c', 'r', 'i', 't', 'i', 'c', 's'])

/-- No two keys share a section and a name. -/
theorem IniKey.names_inj {k k' : IniKey} (h : k.names = k'.names) : k = k' := by
  cases k <;> cases k' <;> first | rfl | exact absurd h (by decide)

/-- The profile functions of Windows, over what one file holds: `WritePrivateProfileStringW`, which takes a C string,
`GetPrivateProfileStringW`, with a default and the size of a buffer, and `GetPrivateProfileIntW`. -/
class ProfileApi (Ini : Type) where
  writePrivateProfileString : Ini → IniKey → WString → Ini
  getPrivateProfileString : Ini → IniKey → WString → Nat → WString
  getPrivateProfileInt : Ini → IniKey → Int32 → UInt32

open ProfileApi

/-- A value comes back: once it is written under the key, it is what is read, cut so that a zero fits behind it. A file keeps the
values whose characters its encoding has, if no blanks and no quotes stand around them. -/
def Keeps (Ini : Type) [ProfileApi Ini] (key : IniKey) (value : WString) : Prop :=
  ∀ (ini : Ini) (defaultVal : WString) (size : Nat), 0 < size →
    getPrivateProfileString (writePrivateProfileString ini key value) key defaultVal size = value.take (size - 1)

/-- What the program relies on of the profile functions, whatever the file's encoding is. -/
class LawfulProfileApi (Ini : Type) [ProfileApi Ini] : Prop where
  /-- What is written under one key is not read under another. -/
  get_write_of_ne : ∀ (ini : Ini) {key key' : IniKey} (value defaultVal : WString) (size : Nat), key' ≠ key →
    getPrivateProfileString (writePrivateProfileString ini key value) key' defaultVal size =
      getPrivateProfileString ini key' defaultVal size
  getInt_write_of_ne : ∀ (ini : Ini) {key key' : IniKey} (value : WString) (defaultVal : Int32), key' ≠ key →
    getPrivateProfileInt (writePrivateProfileString ini key value) key' defaultVal = getPrivateProfileInt ini key' defaultVal
  /-- A zero fits behind what is read. -/
  length_get_lt : ∀ (ini : Ini) (key : IniKey) (defaultVal : WString) {size : Nat}, 0 < size →
    (getPrivateProfileString ini key defaultVal size).length < size

/-- `std::to_wstring(int)`. -/
def toWstring (value : Int32) : WString :=
  wide ((if value < 0 then ['-'] else []) ++ Nat.toDigits 10 value.toInt.natAbs)

/-- Every encoding has capital letters, digits and the minus sign. -/
class AsciiProfileApi (Ini : Type) [ProfileApi Ini] : Prop extends LawfulProfileApi Ini where
  keeps_capitals : ∀ (key : IniKey) {value : WString}, (∀ c ∈ value, 0x41 ≤ c ∧ c ≤ 0x5A) → Keeps Ini key value
  getInt_write : ∀ (ini : Ini) (key : IniKey) (value defaultVal : Int32),
    getPrivateProfileInt (writePrivateProfileString ini key (toWstring value)) key defaultVal = value.toUInt32

/-- `value.c_str()`: a string up to its first zero. -/
def cString (value : WString) : WString := value.takeWhile (fun c => c ≠ 0)

/-- The size of the buffer `ReadString` passes, `wchar_t buf[4096]`. -/
def bufSize : Nat := 4096

namespace Settings

variable {Ini : Type} [ProfileApi Ini]

/-- `WriteString`. -/
def writeString (ini : Ini) (key : IniKey) (value : WString) : Ini := writePrivateProfileString ini key (cString value)

/-- `ReadString`: the buffer, up to its first zero. -/
def readString (ini : Ini) (key : IniKey) (defaultVal : WString) : WString :=
  cString (getPrivateProfileString ini key (cString defaultVal) bufSize)

/-- `WriteInt`. -/
def writeInt (ini : Ini) (key : IniKey) (value : Int32) : Ini :=
  writePrivateProfileString ini key (cString (toWstring value))

/-- `ReadInt`: `static_cast<int>(GetPrivateProfileIntW(...))`. -/
def readInt (ini : Ini) (key : IniKey) (defaultVal : Int32) : Int32 := (getPrivateProfileInt ini key defaultVal).toInt32

end Settings

/-! ## A file that keeps every string -/

/-- The decimal digits at the start of a string, in 32 bits. -/
def parseDigits : UInt32 → WString → UInt32
  | acc, [] => acc
  | acc, c :: cs => if 0x30 ≤ c ∧ c ≤ 0x39 then parseDigits (acc * 10 + (c - 0x30).toUInt32) cs else acc

/-- The number `GetPrivateProfileIntW` makes of a value. -/
def parseInt (value : WString) : UInt32 :=
  match value with
  | [] => 0
  | c :: cs => if c = 0x2D then 0 - parseDigits 0 cs else parseDigits 0 (c :: cs)

/-- An INI file whose encoding has all characters: values, by section and name. -/
structure IniFile where
  values : List ((List Char × List Char) × WString)

/-- The value of a key, if the file has one. -/
def IniFile.find? (ini : IniFile) (key : IniKey) : Option WString := ini.values.lookup key.names

/-- The profile functions where the stored string is what is returned, cut to the buffer. -/
instance IniFile.profileApi : ProfileApi IniFile where
  writePrivateProfileString ini key value := ⟨(key.names, value) :: ini.values.filter (fun e => e.1 ≠ key.names)⟩
  getPrivateProfileString ini key defaultVal size := ((ini.find? key).getD defaultVal).take (size - 1)
  getPrivateProfileInt ini key defaultVal :=
    match ini.find? key with
    | none => defaultVal.toUInt32
    | some value => parseInt value

theorem IniFile.get_eq (ini : IniFile) (key : IniKey) (defaultVal : WString) (size : Nat) :
    getPrivateProfileString ini key defaultVal size = ((ini.find? key).getD defaultVal).take (size - 1) := rfl

theorem IniFile.getInt_eq (ini : IniFile) (key : IniKey) (defaultVal : Int32) :
    getPrivateProfileInt ini key defaultVal = ((ini.find? key).map parseInt).getD defaultVal.toUInt32 := by
  cases hfind : ini.find? key <;> simp only [getPrivateProfileInt, hfind] <;> rfl

/-- What was written is found, and other keys keep their values. -/
theorem IniFile.find?_write (ini : IniFile) (key key' : IniKey) (value : WString) :
    (writePrivateProfileString ini key value).find? key' = if key' = key then some value else ini.find? key' := by
  rw [find?, find?, writePrivateProfileString, profileApi, List.lookup_cons]
  by_cases h : key' = key
  · rw [if_pos h, h, beq_self_eq_true]
  · have hne : key'.names ≠ key.names := mt IniKey.names_inj h
    rw [if_neg h, beq_eq_false_iff_ne.2 hne]
    exact Assoc.lookup_filter_ne _ hne

theorem IniFile.keeps (key : IniKey) (value : WString) : Keeps IniFile key value := by
  intro ini defaultVal size _
  rw [get_eq, find?_write, if_pos rfl, Option.getD_some]

instance IniFile.lawfulProfileApi : LawfulProfileApi IniFile where
  get_write_of_ne ini key key' value defaultVal size h := by
    rw [get_eq, get_eq, find?_write, if_neg h]
  getInt_write_of_ne ini key key' value defaultVal h := by
    rw [getInt_eq, getInt_eq, find?_write, if_neg h]
  length_get_lt ini key defaultVal size h := by
    rw [get_eq, List.length_take]
    omega

/-! ## Log levels -/

/-- `LogLevel`. -/
inductive LogLevel where
  | critical | error | warning | info | debug | verbose
  deriving DecidableEq

/-- `ToWString(LogLevel)`. -/
def LogLevel.toWString : LogLevel → WString
  | .critical => wide ['C', 'R', 'I', 'T', 'I', 'C', 'A', 'L']
  | .error => wide ['E', 'R', 'R', 'O', 'R']
  | .warning => wide ['W', 'A', 'R', 'N', 'I', 'N', 'G']
  | .info => wide ['I', 'N', 'F', 'O']
  | .debug => wide ['D', 'E', 'B', 'U', 'G']
  | .verbose => wide ['V', 'E', 'R', 'B', 'O', 'S', 'E']

/-- `TryParseLogLevel`, with `towupper` of the C runtime. -/
def tryParseLogLevel (towupper : WChar → WChar) (text : WString) : Option LogLevel :=
  let upper := text.map towupper
  if upper = LogLevel.critical.toWString then some .critical
  else if upper = LogLevel.error.toWString then some .error
  else if upper = LogLevel.warning.toWString then some .warning
  else if upper = LogLevel.info.toWString then some .info
  else if upper = LogLevel.debug.toWString then some .debug
  else if upper = LogLevel.verbose.toWString then some .verbose
  else none

/-! ## Default exclusions -/

/-- What `Load` asks the system besides the file. -/
structure Environment where
  towupper : WChar → WChar
  /-- What `GetWindowsDirectoryW` leaves in a buffer of zeros. -/
  windowsDirectory : WString
  /-- `SHGetFolderPathW` for `CSIDL_APPDATA` and `CSIDL_LOCAL_APPDATA`, when it returns `S_OK`. -/
  appData : Option WString
  localAppData : Option WString

/-- `std::wstring sysDrive(winDir, 3)`. -/
def Environment.sysDrive (env : Environment) : WString := (env.windowsDirectory ++ [0, 0, 0]).take 3

/-- `DefaultExcludedPaths`. -/
def defaultExcludedPaths (env : Environment) : List WString :=
  let p (rel : List Char) : WString := env.sysDrive ++ wide rel
  [p ['W', 'i', 'n', 'd', 'o', 'w', 's'],
    p ['P', 'r', 'o', 'g', 'r', 'a', 'm', ' ', 'F', 'i', 'l', 'e', 's'],
    p ['P', 'r', 'o', 'g', 'r', 'a', 'm', ' ', 'F', 'i', 'l', 'e', 's', ' ', '(', 'x', '8', '6', ')'],
    p ['P', 'r', 'o', 'g', 'r', 'a', 'm', 'D', 'a', 't', 'a'],
    p ['$', 'R', 'e', 'c', 'y', 'c', 'l', 'e', '.', 'B', 'i', 'n'],
    p ['S', 'y', 's', 't', 'e', 'm', ' ', 'V', 'o', 'l', 'u', 'm', 'e', ' ', 'I', 'n', 'f', 'o', 'r', 'm', 'a', 't', 'i', 'o',
      'n'],
    p ['d', 'r', 'i', 'v', 'e', 'r', 's']] ++ (env.appData.toList ++ env.localAppData.toList).map cString

/-! ## Settings -/

/-- `L';'`, which stands behind each selected path. -/
def semicolon : WChar := 0x3B

/-- `L'|'`, which stands behind each excluded path. -/
def verticalBar : WChar := 0x7C

/-- The members of `Settings` that are saved. -/
structure Settings where
  selectedDrives : List WString
  excludedPaths : List WString
  reindexIntervalHours : UInt64
  searchOptions : SearchOptions
  /-- The fifth field of `SearchOptions`. -/
  ignoreDiacritics : Bool
  firstRun : Bool
  logLevel : LogLevel

/-- `kReindexDefaultHours`. -/
def kReindexDefaultHours : UInt64 := 48

/-- `SetSelectedDrives`. -/
def Settings.setSelectedDrives (s : Settings) (drives : List WString) : Settings := { s with selectedDrives := drives }

/-- `SetExcludedPaths`. -/
def Settings.setExcludedPaths (s : Settings) (paths : List WString) : Settings := { s with excludedPaths := paths }

/-- `for (const auto& d : paths) str += d + sep;`. -/
def joinPaths (sep : WChar) (paths : List WString) : WString := paths.foldl (fun str d => str ++ (d ++ [sep])) []

/-- The lines `std::getline` reads up to a separator, from a stream of which `token` has been read since the last one. -/
def getlines (sep : WChar) (token : WString) : WString → List WString
  | [] => if token = [] then [] else [token]
  | c :: cs => if c = sep then token :: getlines sep [] cs else getlines sep (token ++ [c]) cs

/-- `while (std::getline(ss, token, sep)) if (!token.empty()) paths.push_back(token);`. -/
def splitPaths (sep : WChar) (str : WString) : List WString := (getlines sep [] str).filter (fun token => !token.isEmpty)

/-- `value ? 1 : 0`. -/
def flag (value : Bool) : Int32 := if value then 1 else 0

/-- `Load`. -/
def Settings.load {Ini : Type} [ProfileApi Ini] (env : Environment) (ini : Ini) : Settings where
  firstRun := readInt ini .firstRunComplete 0 = 0
  selectedDrives :=
    let drivesStr := readString ini .selectedDrives []
    if drivesStr ≠ [] then splitPaths semicolon drivesStr else []
  excludedPaths :=
    let exclStr := readString ini .excludedPaths []
    if exclStr = [] then defaultExcludedPaths env else splitPaths verticalBar exclStr
  reindexIntervalHours := (readInt ini .reindexIntervalHours kReindexDefaultHours.toUInt32.toInt32).toInt64.toUInt64
  searchOptions :=
    ⟨readInt ini .useRegex 0 ≠ 0, readInt ini .caseSensitive 0 ≠ 0, readInt ini .wholeWord 0 ≠ 0,
      readInt ini .matchPath 0 ≠ 0⟩
  ignoreDiacritics := readInt ini .ignoreDiacritics 0 ≠ 0
  logLevel := (tryParseLogLevel env.towupper (readString ini .logLevel LogLevel.warning.toWString)).getD .warning

/-- `Save`: the file, with the settings written over its values. -/
def Settings.save {Ini : Type} [ProfileApi Ini] (s : Settings) (ini : Ini) : Ini :=
  let ini := writeInt ini .firstRunComplete (if s.firstRun then 0 else 1)
  let ini := writeString ini .selectedDrives (joinPaths semicolon s.selectedDrives)
  let ini := writeString ini .excludedPaths (joinPaths verticalBar s.excludedPaths)
  let ini := writeInt ini .reindexIntervalHours s.reindexIntervalHours.toUInt32.toInt32
  let ini := writeInt ini .useRegex (flag s.searchOptions.useRegex)
  let ini := writeInt ini .caseSensitive (flag s.searchOptions.caseSensitive)
  let ini := writeInt ini .wholeWord (flag s.searchOptions.wholeWord)
  let ini := writeInt ini .matchPath (flag s.searchOptions.matchPath)
  let ini := writeInt ini .ignoreDiacritics (flag s.ignoreDiacritics)
  writeString ini .logLevel s.logLevel.toWString

end WinIndex
