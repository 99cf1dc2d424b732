import WinIndex.Lib.Trace
import WinIndex.Settings

/-!
# The log file

`Logger` (src/core/settings/Logger.cpp). Its members lock one mutex, so the calls of all threads come one after the other: a run
is a list of calls, in the order in which they get the mutex. A file is opened to append in text mode, where the C runtime writes a
line feed as carriage return and line feed. Whether a file can be opened, and what the clock says, comes with the call.
-/

namespace WinIndex

/-! ## Bytes -/

/-- A narrow string literal, from its characters. -/
def narrow (cs : List Char) : List UInt8 := cs.map (fun c => UInt8.ofNat c.toNat)

/-- What is on disk of bytes that are written in text mode. -/
def textMode (bytes : List UInt8) : List UInt8 := bytes.flatMap (fun b => if b = 0x0A then [0x0D, 0x0A] else [b])

/-- What `snprintf` leaves in a buffer of the given size, the zero at the end left out. -/
def snprintf (size : Nat) (text : List UInt8) : List UInt8 := text.take (size - 1)

/-- A number as `%04d` and `%02d` print it. -/
def padded (width : Nat) (n : UInt16) : List UInt8 := narrow (List.leftpad width '0' (Nat.toDigits 10 n.toNat))

/-! ## Time -/

/-- `SYSTEMTIME`, as `GetLocalTime` fills it in. -/
structure SystemTime where
  wYear : UInt16
  wMonth : UInt16
  wDay : UInt16
  wHour : UInt16
  wMinute : UInt16
  wSecond : UInt16
  year_le : wYear ≤ 30827
  others_le : wMonth ≤ 12 ∧ wDay ≤ 31 ∧ wHour ≤ 23 ∧ wMinute ≤ 59 ∧ wSecond ≤ 59
  deriving DecidableEq

/-- `"%04d-%02d-%02d %02d:%02d:%02d"`. -/
def SystemTime.format (st : SystemTime) : List UInt8 :=
  padded 4 st.wYear ++ narrow ['-'] ++ padded 2 st.wMonth ++ narrow ['-'] ++ padded 2 st.wDay ++ narrow [' '] ++
    padded 2 st.wHour ++ narrow [':'] ++ padded 2 st.wMinute ++ narrow [':'] ++ padded 2 st.wSecond

/-! ## The logger -/

/-- The value of a level in the enumeration. -/
def LogLevel.value : LogLevel → Nat
  | .critical => 0
  | .error => 1
  | .warning => 2
  | .info => 3
  | .debug => 4
  | .verbose => 5

/-- The members of `Logger`. -/
structure Logger where
  path : WString
  level : LogLevel

/-- `s_instance`, when the program starts. -/
def Logger.initial : Logger := ⟨[], .warning⟩

/-- `escaped`: a backslash before each quotation mark and each backslash. -/
def escapeMessage (message : WString) : WString :=
  message.foldl (fun escaped c => (if c = 0x22 ∨ c = backslash then escaped ++ [backslash] else escaped) ++ [c]) []

/-- `line`. -/
def logLine (level : LogLevel) (message : WString) : WString :=
  wide ['l', 'e', 'v', 'e', 'l', '='] ++ level.toWString ++ wide [' ', 'm', 's', 'g', '=', '"'] ++ escapeMessage message ++
    wide ['"']

/-- What `Init` writes. -/
def sessionHeader (st : SystemTime) : List UInt8 :=
  snprintf 96 (narrow ['\n', '-', '-', '-', ' ', 'S', 'e', 's', 's', 'i', 'o', 'n', ' ', 's', 't', 'a', 'r', 't', 'e', 'd', ' '] ++
    st.format ++ narrow [' ', '-', '-', '-', '\n'])

/-- What `Log` writes: `timeBuf`, the line in UTF-8 up to its first zero, and a line feed. -/
def logEntry (st : SystemTime) (level : LogLevel) (message : WString) : List UInt8 :=
  snprintf 32 (st.format ++ narrow [' ', ' ']) ++ wideToUtf8 (cString (logLine level message)) ++ narrow ['\n']

/-- A call of a member of `Logger`, or the start of the program, from which on there is a new `s_instance`. -/
inductive LogCall where
  | restart
  | init (logPath : WString) (level : LogLevel) (st : SystemTime) (opened : Bool)
  | setLevel (level : LogLevel)
  | log (level : LogLevel) (message : WString) (st : SystemTime) (opened : Bool)

/-- The logger, and what the files of the disk hold. -/
structure Logging (F : Type) where
  logger : Logger
  files : F → List UInt8

section

variable {F : Type} [DecidableEq F] (fileOf : WString → F)

/-- `f.write`, on a file opened with `std::ios::app`. An empty path cannot be opened. -/
def Logging.append (s : Logging F) (opened : Bool) (bytes : List UInt8) : Logging F :=
  if opened ∧ s.logger.path ≠ [] then
    { s with files := Function.update s.files (fileOf s.logger.path) (s.files (fileOf s.logger.path) ++ textMode bytes) }
  else s

/-- `Init`, `SetLevel` and `Log`. -/
def Logging.step (s : Logging F) : LogCall → Logging F
  | .restart => { s with logger := .initial }
  | .init logPath level st opened => { s with logger := ⟨logPath, level⟩ }.append fileOf opened (sessionHeader st)
  | .setLevel level => { s with logger := { s.logger with level := level } }
  | .log level message st opened =>
    if s.logger.path = [] ∨ level.value > s.logger.level.value then s
    else s.append fileOf opened (logEntry st level message)

end

end WinIndex
