import WinIndex.UsnJournalMonitor

/-!
# What NTFS writes to the journal

The files directly under the root of a volume, and the records that creating, writing, renaming, deleting and closing them
leaves in the journal. The reasons of a file accumulate from when it is opened until it is closed for good: each record gives
all of them. That a name is an old one is said of the record with that name alone, and a deleted file has no further records.
-/

namespace WinIndex

/-! ## Reasons -/

theorem or_and_eq_zero_iff {a b m : UInt32} : (a ||| b) &&& m = 0 ↔ a &&& m = 0 ∧ b &&& m = 0 := by
  have hdistrib : (a ||| b) &&& m = (a &&& m) ||| (b &&& m) := UInt32.toBitVec_inj.1 BitVec.and_or_distrib_right
  rw [hdistrib, UInt32.or_eq_zero_iff]

/-- Reasons outside of a mask make no difference to it. -/
theorem or_and_eq_zero_iff_left {a b m : UInt32} (hb : b &&& m = 0) : (a ||| b) &&& m = 0 ↔ a &&& m = 0 :=
  or_and_eq_zero_iff.trans (and_iff_left hb)

/-- A reason of a mask is not lost. -/
theorem or_and_ne_zero {a b m : UInt32} (hb : b &&& m ≠ 0) : (a ||| b) &&& m ≠ 0 :=
  fun h => hb (or_and_eq_zero_iff.1 h).2

theorem and_or_eq_zero_iff {a m n : UInt32} : a &&& (m ||| n) = 0 ↔ a &&& m = 0 ∧ a &&& n = 0 := by
  have hdistrib : a &&& (m ||| n) = (a &&& m) ||| (a &&& n) := UInt32.toBitVec_inj.1 BitVec.and_or_distrib_left
  rw [hdistrib, UInt32.or_eq_zero_iff]

/-- The reasons that never accumulate on a file that is there: that it is deleted, and that its name is an old one. -/
def finalReasons : UInt32 := usnReasonFileDelete ||| usnReasonRenameOldName

theorem fileCreate_live : usnReasonFileCreate &&& finalReasons = 0 := by decide
theorem renameNewName_live : usnReasonRenameNewName &&& finalReasons = 0 := by decide
theorem close_live : usnReasonClose &&& finalReasons = 0 := by decide

/-- The reasons accumulated by a file that is there. -/
structure Accumulated where
  reasons : UInt32
  live : reasons &&& finalReasons = 0

/-- A file that was not changed since it was opened, or is closed. -/
def Accumulated.none : Accumulated := ⟨0, UInt32.zero_and⟩

/-- One reason more, or several. -/
def Accumulated.add (acc : Accumulated) (reason : UInt32) (h : reason &&& finalReasons = 0) : Accumulated :=
  ⟨acc.reasons ||| reason, or_and_eq_zero_iff.2 ⟨acc.live, h⟩⟩

/-- The reasons of a write, of whatever kind: none of those for names and for closing. -/
structure DataReason where
  reason : UInt32
  data : reason &&& (finalReasons ||| usnReasonFileCreate ||| usnReasonRenameNewName ||| usnReasonClose) = 0

theorem DataReason.live (r : DataReason) : r.reason &&& finalReasons = 0 := by
  have h := r.data
  rw [and_or_eq_zero_iff, and_or_eq_zero_iff, and_or_eq_zero_iff] at h
  exact h.1.1.1

/-! ## Histories -/

/-- A record but for its position. -/
structure JournalNote where
  reason : UInt32
  fileName : WString

/-- What a record says. -/
def JournalRecord.note (record : JournalRecord) : JournalNote := ⟨record.reason, record.fileName⟩

/-- The files there are, by name, and the records written so far. -/
structure JournalHistory where
  files : WString → Option Accumulated
  written : List JournalNote

/-- What can be done to a file directly under the root, which is given by its name. -/
inductive FileStep where
  | create (name : WString)
  | write (name : WString) (reason : DataReason)
  | rename (old new : WString)
  | delete (name : WString)
  | close (name : WString)

/-- The files with another entry for a name. -/
def setFile (files : WString → Option Accumulated) (name : WString) (acc : Option Accumulated) : WString → Option Accumulated :=
  fun n => if n = name then acc else files n

/-- A step. It does nothing where it fails: what is created must not be there, nor must the new name of another file, and every
other step needs its file. A write is recorded if it adds a reason, and so is the close of a file that was changed. A rename onto
an existing file is a deletion of that file, followed by a rename. -/
def JournalHistory.step (h : JournalHistory) : FileStep → JournalHistory
  | .create name =>
    match h.files name with
    | some _ => h
    | none =>
      { files := setFile h.files name (some (Accumulated.none.add usnReasonFileCreate fileCreate_live))
        written := h.written ++ [⟨usnReasonFileCreate, name⟩] }
  | .write name reason =>
    match h.files name with
    | none => h
    | some acc =>
      let acc' := acc.add reason.reason reason.live
      if acc'.reasons = acc.reasons then h
      else { files := setFile h.files name (some acc'), written := h.written ++ [⟨acc'.reasons, name⟩] }
  | .rename old new =>
    match h.files old with
    | none => h
    | some acc =>
      if new ≠ old ∧ (h.files new).isSome then h
      else
        let acc' := acc.add usnReasonRenameNewName renameNewName_live
        { files := setFile (setFile h.files old none) new (some acc')
          written := h.written ++ [⟨acc.reasons ||| usnReasonRenameOldName, old⟩] ++ [⟨acc'.reasons, new⟩] }
  | .delete name =>
    match h.files name with
    | none => h
    | some acc =>
      { files := setFile h.files name none
        written := h.written ++ [⟨acc.reasons ||| usnReasonFileDelete ||| usnReasonClose, name⟩] }
  | .close name =>
    match h.files name with
    | none => h
    | some acc =>
      if acc.reasons = 0 then h
      else
        { files := setFile h.files name (some .none)
          written := h.written ++ [⟨acc.reasons ||| usnReasonClose, name⟩] }

/-- The records of a journal from a USN on say what was written. -/
def UsnJournal.Holds (j : UsnJournal) (s : UInt64) (written : List JournalNote) : Prop :=
  (j.entries.filter (fun r => s.toInt64 ≤ r.usn)).map JournalRecord.note = written

/-- A replay from a USN, of a journal that holds from there what was written, gave these events and was not interrupted. -/
def JournalHistory.Replayed (root : WString) (h : JournalHistory) (events : List FileChangeEvent) : Prop :=
  ∃ (j : UsnJournal) (s c : UInt64) (volume : Option (List ReadAnswer)), j.Holds s h.written ∧ j.Serves s volume ∧
    replaySince root volume s = some (events, c) ∧ j.ReadTo c

end WinIndex
