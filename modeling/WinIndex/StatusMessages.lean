import WinIndex.Indexer
import WinIndex.Lib.Mailbox
import WinIndex.SettingsDialog

/-!
# The status messages of the indexer

What the threads of `Indexer` (src/core/indexer/Indexer.cpp) tell the window: `EmitStatus` and `EmitStatusDone` post a message, and
`OnIndexerStatus` (src/ui/MainWindow.cpp) handles one after the other. The threads that scan drives post their progress in any
order. `Cancel` is left out: it is called when the program ends, and nothing is shown after it.
-/

namespace WinIndex

/-! ## Texts -/

/-- `L','`. -/
def comma : WChar := 0x2C

/-- `for (i; i > 0; i -= 3) s.insert(i, L",")`. -/
def insertCommas (s : WString) (i : Nat) : WString :=
  if i = 0 then s else insertCommas (s.insertIdx i comma) (i - 3)
termination_by i

/-- `FormatFileCount`. -/
def formatFileCount (n : UInt64) : WString :=
  let s := toWstringU64 n
  insertCommas s (s.length - 3)

/-- `FormatAge`. -/
def formatAge (ageSeconds : UInt64) : WString :=
  if ageSeconds < 60 then wide ['j', 'u', 's', 't', ' ', 'i', 'n', 'd', 'e', 'x', 'e', 'd']
  else if ageSeconds < 3600 then toWstringU64 (ageSeconds / 60) ++ wide [' ', 'm', 'i', 'n', ' ', 'o', 'l', 'd']
  else if ageSeconds < 172800 then toWstringU64 (ageSeconds / 3600) ++ wide [' ', 'h', 'r', 's', ' ', 'o', 'l', 'd']
  else
    toWstringU64 (ageSeconds / 86400) ++ wide [' ', 'd', 'a', 'y', 's', ',', ' '] ++
      toWstringU64 (ageSeconds % 86400 / 3600) ++ wide [' ', 'h', 'r', 's', ' ', 'o', 'l', 'd']

/-- A path as `FormatLocationList` shows it: without the backslash at its end. -/
def locationText (p : WString) : WString :=
  if p.length = 3 ∧ p[1]? = some 0x3A ∧ p[2]? = some backslash then p.take 2
  else if p.getLast? = some backslash then p.dropLast
  else p

/-- `FormatLocationList`. -/
def formatLocationList (paths : List WString) : WString :=
  paths.foldl (fun result p => (if result = [] then result else result ++ wide [',', ' ']) ++ locationText p) []

/-! ## Messages -/

/-- `IndexerState`. -/
inductive IndexerState where
  | idle | scanning | loadingIndex | watchingForChanges | error
  deriving DecidableEq

/-- `IndexerStatus`. -/
structure IndexerStatus where
  state : IndexerState
  message : WString
  filesIndexed : UInt64
  skippedPaths : UInt32
  locations : List WString
  indexAgeSeconds : UInt64

/-- What `EmitStatus` posts; nobody passes a number of skipped paths. -/
def emitStatus (state : IndexerState) (message : WString) (filesIndexed : UInt64) : IndexerStatus :=
  ⟨state, message, filesIndexed, 0, [], 0⟩

/-- What `EmitStatusDone` posts. -/
def emitStatusDone (filesIndexed : UInt64) (locations : List WString) (ageSeconds : UInt64) : IndexerStatus :=
  ⟨.watchingForChanges, [], filesIndexed, 0, locations, ageSeconds⟩

/-- `hasIndex` in `OnIndexerStatus`. -/
def IndexerStatus.hasIndex (status : IndexerStatus) : Bool := status.state = .watchingForChanges || status.state = .idle

/-- What `OnIndexerStatus` puts in the status bar. -/
def IndexerStatus.text (status : IndexerStatus) : WString :=
  if status.state = .watchingForChanges ∧ status.locations ≠ [] then
    formatFileCount status.filesIndexed ++ wide [' ', 'f', 'i', 'l', 'e', 's', ' ', '|', ' '] ++
      formatLocationList status.locations ++
      if status.indexAgeSeconds ≠ 0xFFFFFFFFFFFFFFFF then wide [' ', '|', ' '] ++ formatAge status.indexAgeSeconds else []
  else status.message

/-- The search bar, and what the indexer has last put in the status bar. -/
structure StatusBar where
  enabled : Bool
  statusText : WString

/-- `InitControls`. -/
def StatusBar.initial : StatusBar := ⟨true, wide ['R', 'e', 'a', 'd', 'y', '.']⟩

/-- `OnIndexerStatus`. -/
def StatusBar.onIndexerStatus (_ : StatusBar) (status : IndexerStatus) : StatusBar := ⟨status.hasIndex, status.text⟩

/-! ## What the threads post -/

/-- `L"Indexing " + root`. -/
def indexingText (root : WString) : WString := wide ['I', 'n', 'd', 'e', 'x', 'i', 'n', 'g', ' '] ++ root

/-- What `ScanDriveInto` posts: the scanner it has picked, and every 10000 files their number. -/
def scanStatuses (fs : FileSystem) (filesFound : WString → Nat) (root : WString) : List IndexerStatus :=
  let mode :=
    if usesMft fs root then wide [' ', '(', 'M', 'F', 'T', ' ', 'm', 'o', 'd', 'e', ')', '.', '.', '.']
    else if getFilesystem fs root = .ntfs then
      wide [' ', '(', 's', 't', 'a', 'n', 'd', 'a', 'r', 'd', ' ', 'm', 'o', 'd', 'e', ' ', '-', ' ', 'r', 'u', 'n', ' ', 'a', 's',
        ' ', 'a', 'd', 'm', 'i', 'n', 'i', 's', 't', 'r', 'a', 't', 'o', 'r', ' ', 'f', 'o', 'r', ' ', 'f', 'a', 's', 't', 'e', 'r',
        ' ', 'M', 'F', 'T', ' ', 's', 'c', 'a', 'n', ')', '.', '.', '.']
    else wide [' ', '(', 'F', 'A', 'T', '3', '2', ')', '.', '.', '.']
  emitStatus .scanning (indexingText root ++ mode) 0 ::
    (List.range (filesFound root / 10000)).map (fun k =>
      let count := UInt64.ofNat (10000 * (k + 1))
      emitStatus .scanning
        (indexingText root ++ wide ['.', '.', '.', ' '] ++ toWstringU64 count ++ wide [' ', 'f', 'i', 'l', 'e', 's']) count)

/-- The first status of a thread. -/
def IndexerCall.announcement : IndexerCall → IndexerStatus
  | .startIndexing =>
    emitStatus .scanning
      (wide ['S', 't', 'a', 'r', 't', 'i', 'n', 'g', ' ', 'i', 'n', 'd', 'e', 'x', ' ', 'b', 'u', 'i', 'l', 'd', '.', '.', '.']) 0
  | .indexPaths _ =>
    emitStatus .scanning
      (wide ['I', 'n', 'd', 'e', 'x', 'i', 'n', 'g', ' ', 'n', 'e', 'w', ' ', 'p', 'a', 't', 'h', 's', '.', '.', '.']) 0
  | .removePaths _ =>
    emitStatus .scanning
      (wide ['R', 'e', 'm', 'o', 'v', 'i', 'n', 'g', ' ', 'p', 'a', 't', 'h', 's', ' ', 'f', 'r', 'o', 'm', ' ', 'i', 'n', 'd', 'e',
        'x', '.', '.', '.']) 0
  | .none => emitStatus .idle [] 0

/-- What is posted then, before the work is done: by the threads of a rebuild, one for each drive; by `IndexPathsThread` itself. -/
def IndexerCall.progress (fs : FileSystem) (filesFound : WString → Nat) (selectedDrives : List WString) :
    IndexerCall → List (List IndexerStatus)
  | .startIndexing => (effectiveDrives fs selectedDrives).map (scanStatuses fs filesFound)
  | .indexPaths paths => [paths.flatMap (scanStatuses fs filesFound)]
  | .removePaths _ | .none => []

/-- What `EmitStatusDone` is told of the locations. -/
def IndexerCall.locations (selectedDrives : List WString) : IndexerCall → List WString
  | .indexPaths paths => paths
  | .startIndexing | .removePaths _ | .none => selectedDrives

/-- Where a thread is: before its first status; about to scan; scanning, with what the scans have still to post; or behind
`EmitStatusDone`. -/
inductive StatusPlace where
  | announcing
  | preparing
  | scanning (jobs : List (List IndexerStatus))
  | reported

/-- What `m_completionEvent` tells: that no thread is at work, that one is, or, when `CreateThread` has failed, that one is though
there is none. -/
inductive StatusWorker where
  | none
  | running (c : IndexerCall) (place : StatusPlace)
  | notCreated

/-- The window, the drives selected in the settings, and the thread. -/
structure StatusSystem where
  window : Mailbox StatusBar IndexerStatus
  selectedDrives : List WString
  worker : StatusWorker

/-- The window has been created. -/
def StatusSystem.initial (selectedDrives : List WString) : StatusSystem := ⟨⟨.initial, []⟩, selectedDrives, .none⟩

/-- A message is posted. -/
def StatusSystem.post (s : StatusSystem) (status : IndexerStatus) : StatusSystem := { s with window := s.window.send status }

/-- What happens. -/
inductive StatusStep where
  /-- `StartIndexing(true)`, `IndexPaths`, `RemovePaths`; whether `CreateThread` succeeds. -/
  | call (c : IndexerCall) (created : Bool)
  /-- `StartIndexing(false)`, with the number of entries `Load` finds and the age of the file if `IsIndexValid`. -/
  | load (index : Option (UInt64 × UInt64)) (created : Bool)
  /-- Other drives are selected in the settings. -/
  | select (selectedDrives : List WString)
  /-- The thread goes on, with what a scan finds, and the number of files it reports when it is done. -/
  | thread (fs : FileSystem) (filesFound : WString → Nat) (filesIndexed : UInt64)
  /-- The scan at index `i` posts its next status. -/
  | scan (i : Nat)
  /-- The window handles a message. -/
  | message

/-- A thread is created, if no other is at work. -/
def StatusSystem.call (s : StatusSystem) (c : IndexerCall) (created : Bool) : StatusSystem :=
  match s.worker with
  | .none => if c = .none then s else { s with worker := if created then .running c .announcing else .notCreated }
  | _ => s

/-- `StartIndexing(false)`. -/
def StatusSystem.startIndexing (s : StatusSystem) (index : Option (UInt64 × UInt64)) (created : Bool) : StatusSystem :=
  match s.worker, index with
  | .none, some (entryCount, ageSeconds) =>
    let s := s.post (emitStatus .loadingIndex
      (wide ['L', 'o', 'a', 'd', 'i', 'n', 'g', ' ', 'i', 'n', 'd', 'e', 'x', ' ', 'f', 'r', 'o', 'm', ' ', 'd', 'i', 's', 'k', '.',
        '.', '.']) 0)
    if 0 < entryCount then s.post (emitStatusDone entryCount s.selectedDrives ageSeconds)
    else
      (s.post (emitStatus .scanning
        (wide ['I', 'n', 'd', 'e', 'x', ' ', 'e', 'm', 'p', 't', 'y', ' ', 'o', 'r', ' ', 'c', 'o', 'r', 'r', 'u', 'p', 't', ' ',
          '-', ' ', 'r', 'e', 'b', 'u', 'i', 'l', 'd', 'i', 'n', 'g', '.', '.', '.']) 0)).call .startIndexing created
  | .none, none => s.call .startIndexing created
  | _, _ => s

/-- The thread goes on. While scans have something to post it waits. -/
def StatusSystem.thread (s : StatusSystem) (fs : FileSystem) (filesFound : WString → Nat) (filesIndexed : UInt64) : StatusSystem :=
  match s.worker with
  | .running c .announcing => { s.post c.announcement with worker := .running c .preparing }
  | .running c .preparing => { s with worker := .running c (.scanning (c.progress fs filesFound s.selectedDrives)) }
  | .running c (.scanning jobs) =>
    if jobs.all List.isEmpty then
      { s.post (emitStatusDone filesIndexed (c.locations s.selectedDrives) 0) with worker := .running c .reported }
    else s
  | .running _ .reported => { s with worker := .none }
  | .none | .notCreated => s

/-- A scan posts its next status. -/
def StatusSystem.scan (s : StatusSystem) (i : Nat) : StatusSystem :=
  match s.worker with
  | .running c (.scanning jobs) =>
    match jobs[i]? with
    | some (status :: rest) => { s.post status with worker := .running c (.scanning (jobs.set i rest)) }
    | _ => s
  | _ => s

/-- The effect of a step. -/
def StatusSystem.step (s : StatusSystem) : StatusStep → StatusSystem
  | .call c created => s.call c created
  | .load index created => s.startIndexing index created
  | .select selectedDrives => { s with selectedDrives := selectedDrives }
  | .thread fs filesFound filesIndexed => s.thread fs filesFound filesIndexed
  | .scan i => s.scan i
  | .message => { s with window := s.window.receive StatusBar.onIndexerStatus }

end WinIndex
