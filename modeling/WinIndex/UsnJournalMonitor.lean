import WinIndex.Indexer
import WinIndex.Lib.Cursor

/-!
# The replay of the USN journal

`UsnJournalMonitor::ReplaySince` (src/core/indexer/UsnJournalMonitor.cpp): it reads the journal of a volume from a saved USN,
one buffer after the other, and makes an event of each record. What the driver answers is given: a read may fail, or return the
next USN with the records up to there, or without any.
-/

namespace WinIndex

/-! ## Records -/

/-- `USN`: the position of a record in the journal. -/
abbrev Usn := Int64

instance linearOrderInt64 : LinearOrder Int64 where
  le_refl := Int64.le_refl
  le_trans _ _ _ := Int64.le_trans
  lt_iff_le_not_ge a b := by
    rw [Int64.lt_iff_toInt_lt, Int64.le_iff_toInt_le, Int64.le_iff_toInt_le]
    exact Int.lt_iff_le_and_not_ge
  le_antisymm _ _ := Int64.le_antisymm
  le_total := Int64.le_total
  toDecidableLE := inferInstance

/-- The reasons a record may give, `USN_REASON_*`. -/
def usnReasonDataOverwrite : UInt32 := 0x1
def usnReasonDataExtend : UInt32 := 0x2
def usnReasonFileCreate : UInt32 := 0x100
def usnReasonFileDelete : UInt32 := 0x200
def usnReasonRenameOldName : UInt32 := 0x1000
def usnReasonRenameNewName : UInt32 := 0x2000
def usnReasonClose : UInt32 := 0x80000000

/-- `rjd.ReasonMask`: only records with one of these reasons are asked for. -/
def reasonMask : UInt32 :=
  usnReasonFileCreate ||| usnReasonFileDelete ||| usnReasonRenameNewName ||| usnReasonRenameOldName |||
    usnReasonDataOverwrite ||| usnReasonDataExtend

/-- The fields of a `USN_RECORD` of the journal that are read, and the position it stands at. -/
structure JournalRecord where
  usn : Usn
  reason : UInt32
  fileName : WString

/-- The driver returns the record. -/
def JournalRecord.isMasked (record : JournalRecord) : Bool := record.reason &&& reasonMask ≠ 0

/-- The type of the event: the first of the tests on `record->Reason` that succeeds decides. -/
def changeTypeOf (reason : UInt32) : FileChangeType :=
  if reason &&& usnReasonFileCreate ≠ 0 then .added
  else if reason &&& usnReasonFileDelete ≠ 0 then .removed
  else if reason &&& usnReasonRenameOldName ≠ 0 then .removed
  else if reason &&& usnReasonRenameNewName ≠ 0 then .added
  else .modified

/-- The event made of a record: `evt.path = root + name`. -/
def UsnJournalMonitor.eventOf (root : WString) (record : JournalRecord) : FileChangeEvent where
  type := changeTypeOf record.reason
  path := root ++ record.fileName
  oldPath := []

/-! ## The loop -/

/-- What a call of `DeviceIoControl` with `FSCTL_READ_USN_JOURNAL` leaves: it fails, it returns fewer bytes than a USN, or the
next USN and some records. -/
inductive ReadAnswer where
  | failed
  | short
  | batch (nextUsn : Usn) (records : List JournalRecord)

/-- `while (true)`: the events of all records read and the last USN, or nothing while the driver still answers. A buffer with a
USN only is left as it is, since `bytesReturned <= sizeof(USN)`. -/
def replayLoop (root : WString) : Usn → List ReadAnswer → Option (List FileChangeEvent × Usn)
  | _, [] => none
  | lastUsn, .failed :: _ => some ([], lastUsn)
  | lastUsn, .short :: _ => some ([], lastUsn)
  | lastUsn, .batch nextUsn records :: answers =>
    if records.isEmpty then some ([], lastUsn)
    else
      (replayLoop root nextUsn answers).map (fun r => (records.map (UsnJournalMonitor.eventOf root) ++ r.1, r.2))

/-- `ReplaySince`: the events given to the callback, and the USN returned. `volume` is what the driver answers to each read, if
the volume can be opened and its journal queried. -/
def replaySince (root : WString) (volume : Option (List ReadAnswer)) (savedUsn : UInt64) :
    Option (List FileChangeEvent × UInt64) :=
  match volume with
  | none => some ([], savedUsn)
  | some answers => (replayLoop root savedUsn.toInt64 answers).map (fun r => (r.1, r.2.toUInt64))

/-! ## The journal -/

/-- The journal of a volume: records at increasing USNs, and the next USN. -/
abbrev UsnJournal := Cursor.Log JournalRecord.usn

/-- The records that the driver returns. -/
def UsnJournal.masked (j : UsnJournal) : UsnJournal := Cursor.Log.filter j JournalRecord.isMasked

/-- What the loop makes of an answer: it stops, or goes on with the batch. -/
def ReadAnswer.toAnswer : ReadAnswer → Cursor.Answer JournalRecord Usn
  | .failed | .short => .stop
  | .batch nextUsn records => .batch nextUsn records

/-- The driver answers from a journal: every batch has the records at or behind the USN asked for and before the next one, which
is not behind the end of the journal. -/
def UsnJournal.Serves (j : UsnJournal) (savedUsn : UInt64) (volume : Option (List ReadAnswer)) : Prop :=
  ∀ answers, volume = some answers → Cursor.Served j.masked savedUsn.toInt64 (answers.map ReadAnswer.toAnswer)

/-- The journal has no record at or behind a USN that the driver would return: a replay that ends there was not interrupted. -/
def UsnJournal.ReadTo (j : UsnJournal) (usn : UInt64) : Prop := Cursor.Log.ReadTo j.masked usn.toInt64

/-- The loop reads from a cursor. -/
theorem replayLoop_eq_read (root : WString) (lastUsn : Usn) (answers : List ReadAnswer) :
    replayLoop root lastUsn answers =
      (Cursor.read lastUsn (answers.map ReadAnswer.toAnswer)).map
        (fun r => (r.1.map (UsnJournalMonitor.eventOf root), r.2)) := by
  induction answers generalizing lastUsn with
  | nil => rfl
  | cons answer answers ih =>
    cases answer with
    | failed => rfl
    | short => rfl
    | batch nextUsn records =>
      rw [List.map_cons, ReadAnswer.toAnswer, replayLoop, Cursor.read]
      split
      · rfl
      · rw [ih, Option.map_map, Option.map_map]
        refine congrArg (fun f => Option.map f _) (funext fun r => ?_)
        simp

end WinIndex
