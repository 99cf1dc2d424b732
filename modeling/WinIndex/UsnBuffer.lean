import WinIndex.Lib.Bytes
import WinIndex.Lib.RecordWalk
import WinIndex.MftTable
import WinIndex.UsnJournalMonitor

/-!
# The buffers of USN records

`ReplaySince` and `StartMonitoring` (src/core/indexer/UsnJournalMonitor.cpp) and `ScanVolume` (src/core/indexer/MftScanner.cpp) get
USN records from the driver in a buffer of bytes: a USN or a file reference number, and then the records, each as long as its
first field says. They go from one record to the next up to the number of bytes returned, and read the fields where they stand
in `USN_RECORD`. Behind these bytes the buffer holds what was there before.
-/

namespace WinIndex

open LittleEndian RecordWalk Segments

/-! ## A record as it stands in the buffer -/

/-- `USN_RECORD`: all of its fields but the two lengths, with the name, and what the driver puts behind it. -/
structure RawUsnRecord where
  majorVersion : UInt16
  minorVersion : UInt16
  fileReferenceNumber : UInt64
  parentFileReferenceNumber : UInt64
  usn : UInt64
  timeStamp : UInt64
  reason : UInt32
  sourceInfo : UInt32
  securityId : UInt32
  fileAttributes : UInt32
  fileName : WString
  padding : List UInt8

/-- Where `FileName` stands. -/
def fileNameOffset : Nat := 60

/-- `RecordLength`. -/
def RawUsnRecord.recordLength (r : RawUsnRecord) : Nat := fileNameOffset + 2 * r.fileName.length + r.padding.length

/-- The bytes of the record. -/
def RawUsnRecord.bytes (r : RawUsnRecord) : List UInt8 :=
  u32 (UInt32.ofNat r.recordLength) ++ u16 r.majorVersion ++ u16 r.minorVersion ++ u64 r.fileReferenceNumber ++
    u64 r.parentFileReferenceNumber ++ u64 r.usn ++ u64 r.timeStamp ++ u32 r.reason ++ u32 r.sourceInfo ++ u32 r.securityId ++
    u32 r.fileAttributes ++ u16 (UInt16.ofNat (2 * r.fileName.length)) ++ u16 (UInt16.ofNat fileNameOffset) ++
    LittleEndian.wide r.fileName ++ r.padding

/-- The lengths fit their fields. -/
structure RawUsnRecord.Fits (r : RawUsnRecord) : Prop where
  name : 2 * r.fileName.length < 2 ^ 16
  record : r.recordLength < 2 ^ 32

/-! ## Reading a record -/

/-- The fields that are read through `record->`. -/
structure UsnView where
  fileReferenceNumber : UInt64
  parentFileReferenceNumber : UInt64
  reason : UInt32
  fileAttributes : UInt32
  fileNameLength : UInt16
  fileName : WString
  deriving DecidableEq

/-- `record->FileNameLength / sizeof(wchar_t)`: the characters of the name that is made of the record. -/
def nameLength (buf : List UInt8) (pos : Nat) : Nat := (fieldU16 buf (pos + 56)).toNat / 2

/-- The fields of the record at a position. -/
def usnView (buf : List UInt8) (pos : Nat) : UsnView where
  fileReferenceNumber := fieldU64 buf (pos + 8)
  parentFileReferenceNumber := fieldU64 buf (pos + 16)
  reason := fieldU32 buf (pos + 40)
  fileAttributes := fieldU32 buf (pos + 52)
  fileNameLength := fieldU16 buf (pos + 56)
  fileName := toWide (slice buf (pos + fileNameOffset) (2 * nameLength buf pos))

/-- What is read of a record lies in the buffer: the fields up to `FileNameLength`, and the name, if it has characters. -/
def UsnRecordInside (buf : List UInt8) (pos : Nat) : Prop :=
  pos + 58 ≤ buf.length ∧ (nameLength buf pos = 0 ∨ pos + fileNameOffset + 2 * nameLength buf pos ≤ buf.length)

instance decidableUsnRecordInside (buf : List UInt8) (pos : Nat) : Decidable (UsnRecordInside buf pos) :=
  inferInstanceAs (Decidable (_ ∧ _))

/-- The loop `while (reinterpret_cast<BYTE*>(record) < buf.data() + bytesReturned)` at a position. -/
def usnNode (buf : List UInt8) (bytesReturned pos : Nat) : Node UsnView :=
  if bytesReturned ≤ pos then .done
  else if ¬UsnRecordInside buf pos then .outside
  else .more (usnView buf pos) (pos + (fieldU32 buf pos).toNat)

/-- The loop over a buffer, from behind the first eight bytes. It is given as many records as there can be. -/
def usnWalk (buf : List UInt8) (bytesReturned : Nat) : Outcome UsnView :=
  walk (usnNode buf bytesReturned) (bytesReturned - 8 + 1) 8

/-- The event made of a record. -/
def UsnView.event (root : WString) (v : UsnView) : FileChangeEvent where
  type := changeTypeOf v.reason
  path := root ++ v.fileName
  oldPath := []

/-! ## The loops over the driver's answers -/

/-- What a call of `DeviceIoControl` leaves: it fails, or it fills the first bytes of the buffer. -/
inductive DriverAnswer where
  | failed
  | filled (buf : List UInt8) (bytesReturned : Nat)

/-- `while (true)` of `ReplaySince`: nothing while the driver still answers, nor when the walk over a buffer goes wrong. -/
def replayBuffers (root : WString) : Usn → List DriverAnswer → Option (List FileChangeEvent × Usn)
  | _, [] => none
  | lastUsn, .failed :: _ => some ([], lastUsn)
  | lastUsn, .filled buf bytesReturned :: answers =>
    if bytesReturned ≤ 8 then some ([], lastUsn)
    else
      match usnWalk buf bytesReturned with
      | .ended records =>
        (replayBuffers root (fieldU64 buf 0).toInt64 answers).map
          (fun r => (records.map (UsnView.event root) ++ r.1, r.2))
      | _ => none

/-- `ReplaySince` on the buffers, if the volume can be opened and its journal queried. -/
def replaySinceBuffers (root : WString) (volume : Option (List DriverAnswer)) (savedUsn : UInt64) :
    Option (List FileChangeEvent × UInt64) :=
  match volume with
  | none => some ([], savedUsn)
  | some answers => (replayBuffers root savedUsn.toInt64 answers).map (fun r => (r.1, r.2.toUInt64))

/-- `while (!stopToken.load())` of `StartMonitoring`, as often as it comes round before it is told to stop: the events given to the
callback and `rjd.StartUsn`; nothing when the walk over a buffer goes wrong. -/
def monitorBuffers (root : WString) : Usn → List DriverAnswer → Option (List FileChangeEvent × Usn)
  | startUsn, [] => some ([], startUsn)
  | startUsn, .failed :: _ => some ([], startUsn)
  | startUsn, .filled buf bytesReturned :: answers =>
    if bytesReturned ≤ 8 then monitorBuffers root startUsn answers
    else
      match usnWalk buf bytesReturned with
      | .ended records =>
        (monitorBuffers root (fieldU64 buf 0).toInt64 answers).map
          (fun r => (records.map (UsnView.event root) ++ r.1, r.2))
      | _ => none

/-- A buffer that the driver has filled with a number and records, and what it held behind them before. -/
def driverBuffer (first : UInt64) (records : List RawUsnRecord) (rest : List UInt8) : List UInt8 :=
  u64 first ++ records.flatMap RawUsnRecord.bytes ++ rest

/-- The bytes it returns. -/
def bytesReturned (records : List RawUsnRecord) : Nat := 8 + (records.flatMap RawUsnRecord.bytes).length

/-- The fields that are read. -/
def RawUsnRecord.view (r : RawUsnRecord) : UsnView where
  fileReferenceNumber := r.fileReferenceNumber
  parentFileReferenceNumber := r.parentFileReferenceNumber
  reason := r.reason
  fileAttributes := r.fileAttributes
  fileNameLength := UInt16.ofNat (2 * r.fileName.length)
  fileName := r.fileName

/-- The record of the file table that it is. -/
def RawUsnRecord.usnRecord (r : RawUsnRecord) : UsnRecord where
  fileReferenceNumber := r.fileReferenceNumber
  parentFileReferenceNumber := r.parentFileReferenceNumber
  fileAttributes := r.fileAttributes
  fileName := r.fileName

/-- The record of the journal that it is. -/
def RawUsnRecord.journalRecord (r : RawUsnRecord) : JournalRecord where
  usn := r.usn.toInt64
  reason := r.reason
  fileName := r.fileName

/-- What the driver leaves of a read of the journal. -/
inductive DriverAnswer.Spells : DriverAnswer → ReadAnswer → Prop
  | failed : Spells .failed .failed
  | short {buf : List UInt8} {count : Nat} (h : count < 8) : Spells (.filled buf count) .short
  | batch (nextUsn : UInt64) {records : List RawUsnRecord} (h : ∀ r ∈ records, r.Fits) (rest : List UInt8) :
      Spells (.filled (driverBuffer nextUsn records rest) (bytesReturned records))
        (.batch nextUsn.toInt64 (records.map RawUsnRecord.journalRecord))

/-- `ReturnOnlyOnClose = TRUE`: of the records with one of the reasons, those that a close has written. -/
def JournalRecord.isClosed (record : JournalRecord) : Bool := record.isMasked && record.reason &&& usnReasonClose ≠ 0

/-- A turn of `StartMonitoring`. A buffer with a USN only is left as it is. -/
def ReadAnswer.toTurn : ReadAnswer → Cursor.Turn JournalRecord Usn
  | .failed => .leave
  | .short => .wait
  | .batch nextUsn records => if records.isEmpty then .wait else .batch nextUsn records

/-- While it monitors, the journal grows, and the driver answers from what it has grown to. -/
def UsnJournal.Monitored (j : UsnJournal) (startUsn : UInt64) (turns : List (UsnJournal × ReadAnswer)) : Prop :=
  Cursor.Followed JournalRecord.isClosed j startUsn.toInt64 (turns.map (fun t => (t.1, t.2.toTurn)))

/-- The journal at the end. -/
def UsnJournal.afterTurns (j : UsnJournal) (turns : List (UsnJournal × ReadAnswer)) : UsnJournal :=
  Cursor.Log.last j (turns.map (fun t => (t.1, t.2.toTurn)))

/-- The events of the records between two USNs that a close has written. -/
def UsnJournal.closedBetween (root : WString) (j : UsnJournal) (s c : UInt64) : List FileChangeEvent :=
  (Cursor.between JournalRecord.usn s.toInt64 c.toInt64 (Cursor.Log.filter j JournalRecord.isClosed).entries).map
    (UsnJournalMonitor.eventOf root)

end WinIndex
