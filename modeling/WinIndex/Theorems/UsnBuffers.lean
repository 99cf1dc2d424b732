import WinIndex.Theorems.JournalReplay
import WinIndex.UsnBuffer

/-!
# USN records read from bytes

The loops over the buffers check nothing but the number of bytes returned. On what the driver writes they find the records that
it wrote, whatever the buffer held before, so the loops on bytes do what they do on lists of records. On any other bytes they
come to their end exactly when no record on the way says that it is empty or reaches outside the buffer.
-/

namespace WinIndex

open LittleEndian RecordWalk Segments

/-! ## The records of a buffer that the driver has filled -/

theorem RawUsnRecord.length_bytes (r : RawUsnRecord) : r.bytes.length = r.recordLength := by
  simp only [bytes, List.length_append, length_u16, length_u32, length_u64, length_wide, recordLength, fileNameOffset]

variable {pre post : List UInt8} {r : RawUsnRecord}

/-- The fields of a record, where they stand. -/
theorem RawUsnRecord.fields (r : RawUsnRecord) (post : List UInt8) :
    fieldU32 (r.bytes ++ post) 0 = UInt32.ofNat r.recordLength ∧ fieldU64 (r.bytes ++ post) 8 = r.fileReferenceNumber ∧
      fieldU64 (r.bytes ++ post) 16 = r.parentFileReferenceNumber ∧ fieldU32 (r.bytes ++ post) 40 = r.reason ∧
      fieldU32 (r.bytes ++ post) 52 = r.fileAttributes ∧
      fieldU16 (r.bytes ++ post) 56 = UInt16.ofNat (2 * r.fileName.length) ∧
      slice (r.bytes ++ post) 60 (2 * r.fileName.length) = LittleEndian.wide r.fileName := by
  refine ⟨?_, ?_, ?_, ?_, ?_, ?_, ?_⟩ <;>
    simp (disch := simp) [fieldU16, fieldU32, fieldU64, bytes, slice_append_right, slice_append_here]

/-- The length of the name fits its field. -/
theorem RawUsnRecord.Fits.nameLength (h : r.Fits) : WinIndex.nameLength (pre ++ (r.bytes ++ post)) pre.length = r.fileName.length := by
  rw [WinIndex.nameLength, fieldU16_append, (r.fields post).2.2.2.2.2.1, UInt16.toNat_ofNat_of_lt' h.name]
  omega

/-- What is read of a record is what was written. -/
theorem RawUsnRecord.Fits.view_laid (h : r.Fits) : usnView (pre ++ (r.bytes ++ post)) pre.length = r.view := by
  obtain ⟨-, hfrn, hparent, hreason, hattributes, hlen, hname⟩ := r.fields post
  rw [usnView, fieldU64_append, fieldU64_append, fieldU32_append, fieldU32_append, fieldU16_append, h.nameLength,
    slice_append_add, hfrn, hparent, hreason, hattributes, hlen, fileNameOffset, hname, toWide_wide]
  rfl

/-- A record that was written is found at its place, and the next one behind it. -/
theorem RawUsnRecord.Fits.node_laid (h : r.Fits) {limit : Nat} (hlimit : pre.length + r.recordLength ≤ limit) :
    usnNode (pre ++ (r.bytes ++ post)) limit pre.length = .more r.view (pre.length + r.recordLength) := by
  have hlen := r.length_bytes
  have hrecord : r.recordLength = 60 + 2 * r.fileName.length + r.padding.length := rfl
  have hbuf : (pre ++ (r.bytes ++ post)).length = pre.length + (r.recordLength + post.length) := by
    rw [List.length_append, List.length_append, hlen]
  have hin : UsnRecordInside (pre ++ (r.bytes ++ post)) pre.length := by
    rw [UsnRecordInside, h.nameLength, hbuf, fileNameOffset]
    omega
  have hnext : (fieldU32 (pre ++ (r.bytes ++ post)) pre.length).toNat = r.recordLength := by
    have hfield : fieldU32 (pre ++ (r.bytes ++ post)) (pre.length + 0) = fieldU32 (r.bytes ++ post) 0 := fieldU32_append _ _ 0
    rw [Nat.add_zero, (r.fields post).1] at hfield
    rw [hfield, UInt32.toNat_ofNat_of_lt' h.record]
  rw [usnNode, if_neg (by omega), if_neg (not_not.2 hin), h.view_laid, hnext]

/-- On a buffer that the driver has filled, the loop finds the records that it wrote. -/
theorem usnWalk_driverBuffer (first : UInt64) {records : List RawUsnRecord} (h : ∀ r ∈ records, r.Fits) (rest : List UInt8) :
    usnWalk (driverBuffer first records rest) (bytesReturned records) = .ended (records.map RawUsnRecord.view) := by
  have hcount : ∀ rs : List RawUsnRecord, rs.length ≤ (rs.flatMap RawUsnRecord.bytes).length := by
    intro rs
    induction rs with
    | nil => exact Nat.le_refl 0
    | cons r rs ih =>
      have hlen := r.length_bytes
      rw [RawUsnRecord.recordLength, fileNameOffset] at hlen
      rw [List.flatMap_cons, List.length_append, List.length_cons]
      omega
  refine walk_laid RawUsnRecord.bytes RawUsnRecord.view records ?_ (fun before r after heq => ?_) ?_
  · have := hcount records
    rw [bytesReturned]
    omega
  · have hmem : r ∈ records := by rw [heq]; simp
    have hpre : (u64 first ++ before.flatMap RawUsnRecord.bytes).length = 8 + (before.flatMap RawUsnRecord.bytes).length := by
      rw [List.length_append, length_u64]
    have hbuf : driverBuffer first records rest =
        (u64 first ++ before.flatMap RawUsnRecord.bytes) ++ (r.bytes ++ (after.flatMap RawUsnRecord.bytes ++ rest)) := by
      simp [driverBuffer, heq]
    have hnext : 8 + ((before ++ [r]).flatMap RawUsnRecord.bytes).length =
        8 + (before.flatMap RawUsnRecord.bytes).length + r.recordLength := by
      rw [List.flatMap_append, List.length_append, List.flatMap_singleton, r.length_bytes, Nat.add_assoc]
    rw [hbuf, hnext, ← hpre]
    refine (h r hmem).node_laid ?_
    rw [bytesReturned, heq, hpre, List.flatMap_append, List.flatMap_cons, List.length_append, List.length_append, r.length_bytes]
    omega
  · exact if_pos (Nat.le_refl _)

/-- The first word of the buffer. -/
theorem fieldU64_driverBuffer (first : UInt64) (records : List RawUsnRecord) (rest : List UInt8) :
    fieldU64 (driverBuffer first records rest) 0 = first := by
  rw [fieldU64, driverBuffer, List.append_assoc, slice_append_here _ _ (length_u64 _), toU64_u64]

/-! ## Buffers of any content -/

variable {buf : List UInt8} {limit pos next : Nat} {v : UsnView}

theorem usnNode_eq_more (h : usnNode buf limit pos = .more v next) :
    pos < limit ∧ UsnRecordInside buf pos ∧ next = pos + (fieldU32 buf pos).toNat := by
  unfold usnNode at h
  split at h
  · nomatch h
  · rename_i hlt
    split at h
    · nomatch h
    · rename_i hin
      cases h
      exact ⟨Nat.lt_of_not_le hlt, not_not.1 hin, rfl⟩

/-- A record traps the loop if it is not all in the buffer, or is empty. -/
theorem traps_usnNode_iff :
    Traps (usnNode buf limit) pos ↔ pos < limit ∧ (¬UsnRecordInside buf pos ∨ (fieldU32 buf pos).toNat = 0) := by
  constructor
  · rintro (hout | ⟨v, hself⟩)
    · unfold usnNode at hout
      split at hout
      · nomatch hout
      · rename_i hlt
        split at hout
        · rename_i hin
          exact ⟨Nat.lt_of_not_le hlt, .inl hin⟩
        · nomatch hout
    · obtain ⟨hlt, -, hnext⟩ := usnNode_eq_more hself
      exact ⟨hlt, .inr (by omega)⟩
  · rintro ⟨hlt, h⟩
    rw [Traps, usnNode, if_neg (Nat.not_le.2 hlt)]
    by_cases hin : UsnRecordInside buf pos
    · have hempty := h.resolve_left (not_not.2 hin)
      exact .inr ⟨usnView buf pos, by rw [if_neg (not_not.2 hin), hempty, Nat.add_zero]⟩
    · exact .inl (if_pos hin)

/-- For every content of the buffer and every number of bytes returned: the loop over the records comes to its end exactly when
every record that it gets to lies in the buffer, as far as it is read, and is not empty; then it is through after as many records
as there are bytes returned. -/
theorem usnWalk_ends_iff (buf : List UInt8) (bytesReturned : Nat) :
    ((∃ records, usnWalk buf bytesReturned = .ended records) ↔
      ∀ pos, Reaches (usnNode buf bytesReturned) 8 pos → pos < bytesReturned →
        UsnRecordInside buf pos ∧ (fieldU32 buf pos).toNat ≠ 0) ∧
    ∀ fuel records, walk (usnNode buf bytesReturned) fuel 8 = .ended records → usnWalk buf bytesReturned = .ended records := by
  have hforward : ∀ pos v next, usnNode buf bytesReturned pos = .more v next → pos ≤ next ∧ pos < bytesReturned := by
    intro pos v next h
    obtain ⟨hlt, -, hnext⟩ := usnNode_eq_more h
    exact ⟨by omega, hlt⟩
  have hiff := ended_iff hforward 8
  refine ⟨hiff.trans (forall₂_congr fun pos _ => ?_), fun fuel records h => ?_⟩
  · rw [traps_usnNode_iff]
    constructor
    · intro h hlt
      exact ⟨by_contra fun hin => h ⟨hlt, .inl hin⟩, fun hempty => h ⟨hlt, .inr hempty⟩⟩
    · rintro h ⟨hlt, hin | hempty⟩
      · exact hin (h hlt).1
      · exact (h hlt).2 hempty
  · obtain ⟨records', h'⟩ := hiff.2 (fun pos hreach => not_traps_of_ended h hreach)
    have hmax := walk_mono h (Nat.le_max_left fuel (bytesReturned - 8 + 1))
    rw [walk_mono h' (Nat.le_max_right fuel (bytesReturned - 8 + 1))] at hmax
    exact h'.trans hmax

/-! ## The journal read from buffers -/

variable {root : WString} {buffers : List DriverAnswer} {answers : List ReadAnswer}

/-- More bytes than a USN were returned if there are records. -/
theorem bytesReturned_le_iff {records : List RawUsnRecord} : bytesReturned records ≤ 8 ↔ records = [] := by
  constructor
  · intro h
    cases records with
    | nil => rfl
    | cons r records =>
      rw [bytesReturned, List.flatMap_cons, List.length_append, r.length_bytes, RawUsnRecord.recordLength, fileNameOffset] at h
      omega
  · rintro rfl
    exact Nat.le_refl _

/-- The events made of the bytes are those of the records. -/
theorem map_event_view (root : WString) (records : List RawUsnRecord) :
    (records.map RawUsnRecord.view).map (UsnView.event root) =
      (records.map RawUsnRecord.journalRecord).map (UsnJournalMonitor.eventOf root) := by
  rw [List.map_map, List.map_map]
  rfl

/-- The loop of `ReplaySince` on the buffers is that on the records. -/
theorem replayBuffers_eq (h : List.Forall₂ DriverAnswer.Spells buffers answers) (lastUsn : Usn) :
    replayBuffers root lastUsn buffers = replayLoop root lastUsn answers := by
  induction h generalizing lastUsn with
  | nil => rfl
  | cons hspells _ ih =>
    cases hspells with
    | failed => rfl
    | short hlt => exact if_pos (Nat.le_of_lt hlt)
    | batch nextUsn hfits rest =>
      rename_i records
      rw [replayBuffers, replayLoop]
      cases records with
      | nil => rfl
      | cons r records =>
        have hsome : ¬bytesReturned (r :: records) ≤ 8 := fun hle => List.cons_ne_nil _ _ (bytesReturned_le_iff.1 hle)
        rw [if_neg hsome, usnWalk_driverBuffer nextUsn hfits rest, fieldU64_driverBuffer, if_neg (by simp), ih]
        simp only [map_event_view]

/-- The loop of `StartMonitoring` on the buffers follows the journal. -/
theorem monitorBuffers_eq (h : List.Forall₂ DriverAnswer.Spells buffers answers) (startUsn : Usn) :
    monitorBuffers root startUsn buffers =
      some ((Cursor.follow startUsn (answers.map ReadAnswer.toTurn)).1.map (UsnJournalMonitor.eventOf root),
        (Cursor.follow startUsn (answers.map ReadAnswer.toTurn)).2) := by
  induction h generalizing startUsn with
  | nil => rfl
  | cons hspells _ ih =>
    cases hspells with
    | failed => rfl
    | short hlt =>
      rw [monitorBuffers, if_pos (Nat.le_of_lt hlt), ih]
      rfl
    | batch nextUsn hfits rest =>
      rename_i records
      rw [monitorBuffers, List.map_cons, ReadAnswer.toTurn]
      cases records with
      | nil =>
        rw [if_pos (bytesReturned_le_iff.2 rfl), ih]
        rfl
      | cons r records =>
        have hsome : ¬bytesReturned (r :: records) ≤ 8 := fun hle => List.cons_ne_nil _ _ (bytesReturned_le_iff.1 hle)
        rw [if_neg hsome, usnWalk_driverBuffer nextUsn hfits rest, fieldU64_driverBuffer]
        simp only [ih, map_event_view]
        rw [if_neg (by simp), Cursor.follow, Option.map_some, List.map_append]

/-- For every journal, every USN and every way the driver cuts what it returns into buffers, whatever these held before: a replay
on the bytes gives the events of the records between that USN and the one it returns; and monitoring from there, while the journal
grows between the reads in whatever way, gives the events of the records of a close between there and where it stops. So none is
lost between the two or given twice, as long as the driver answers from the journal. -/
theorem journal_followed (root : WString) (j : UsnJournal) (s c : UInt64) (answers : List ReadAnswer) (buffers : List DriverAnswer)
    (hbuffers : List.Forall₂ DriverAnswer.Spells buffers answers) (hserves : j.Serves s (some answers)) (events : List FileChangeEvent)
    (hreplay : replaySinceBuffers root (some buffers) s = some (events, c)) (turns : List (UsnJournal × ReadAnswer))
    (hturns : j.Monitored c turns) (monitored : List DriverAnswer)
    (hmonitored : List.Forall₂ DriverAnswer.Spells monitored (turns.map Prod.snd)) :
    s.toInt64 ≤ c.toInt64 ∧ events = (j.afterTurns turns).eventsBetween root s c ∧
      ∃ c' : UInt64, c.toInt64 ≤ c'.toInt64 ∧
        monitorBuffers root c.toInt64 monitored = some ((j.afterTurns turns).closedBetween root c c', c'.toInt64) := by
  have hreplay' : replaySince root (some answers) s = some (events, c) := by
    rw [← hreplay, replaySince, replaySinceBuffers, replayBuffers_eq hbuffers]
  obtain ⟨answers', records, hread, rfl, hserved⟩ := replaySince_eq_some hreplay'
  obtain ⟨hle, hmax, rfl⟩ := Cursor.read_eq_between (hserved j hserves) hread
  have hgrows : j.Grows (j.afterTurns turns) := Cursor.Followed.grows hturns
  obtain ⟨hle', -, hfollow⟩ := Cursor.Followed.follow_eq hturns
  have hsnd : (turns.map fun t => (t.1, t.2.toTurn)).map Prod.snd = (turns.map Prod.snd).map ReadAnswer.toTurn := by
    rw [List.map_map, List.map_map]
    rfl
  rw [hsnd] at hle' hfollow
  refine ⟨hle, ?_, (Cursor.follow c.toInt64 ((turns.map Prod.snd).map ReadAnswer.toTurn)).2.toUInt64, ?_, ?_⟩
  · exact congrArg (List.map _) ((hgrows.filter JournalRecord.isMasked).between_eq hmax).symm
  · rwa [Int64.toInt64_toUInt64]
  · rw [UsnJournal.closedBetween, Int64.toInt64_toUInt64]
    refine (monitorBuffers_eq hmonitored c.toInt64).trans ?_
    rw [hfollow]
    rfl

namespace BufferWitness

open ReplayWitness

/-- The record of the creation of `a` as it stands in the buffer, and that of the close of `b`. -/
def raw (usn : UInt64) (reason : UInt32) (name : WString) : RawUsnRecord where
  majorVersion := 2
  minorVersion := 0
  fileReferenceNumber := 40
  parentFileReferenceNumber := 5
  usn := usn
  timeStamp := 0
  reason := reason
  sourceInfo := 0
  securityId := 0
  fileAttributes := 0x20
  fileName := name
  padding := [0, 0]

def rawA : RawUsnRecord := raw 8 usnReasonFileCreate (wide ['a'])
def rawB : RawUsnRecord := raw 72 (usnReasonFileCreate ||| usnReasonClose) (wide ['b'])

theorem rawA_fits : ∀ r ∈ [rawA], r.Fits := fun r hr => by
  rw [List.mem_singleton.1 hr]
  exact ⟨by decide, by decide⟩

theorem rawB_fits : ∀ r ∈ [rawB], r.Fits := fun r hr => by
  rw [List.mem_singleton.1 hr]
  exact ⟨by decide, by decide⟩

/-- The journal when `b` is closed too. -/
def closed : UsnJournal := ⟨[createdA, rawB.journalRecord], 136, by decide, by decide⟩

theorem journal_grows_closed : journal.Grows closed := ⟨by decide, [rawB.journalRecord], rfl, by decide⟩

/-- A buffer that held other bytes before, and a read that fails. -/
def replayed : List DriverAnswer := [.filled (driverBuffer 72 [rawA] [0xff, 0xff]) (bytesReturned [rawA]), .failed]

theorem replayed_spells : List.Forall₂ DriverAnswer.Spells replayed cutA :=
  .cons (.batch 72 rawA_fits [0xff, 0xff]) (.cons .failed .nil)

/-- A read that waits in vain, and one that gets the close. -/
def turns : List (UsnJournal × ReadAnswer) := [(journal, .short), (closed, .batch 136 [rawB.journalRecord])]

def monitored : List DriverAnswer := [.filled [] 0, .filled (driverBuffer 136 [rawB] []) (bytesReturned [rawB])]

theorem monitored_spells : List.Forall₂ DriverAnswer.Spells monitored (turns.map Prod.snd) :=
  .cons (.short (by decide)) (.cons (.batch 136 rawB_fits []) .nil)

theorem journal_monitored : journal.Monitored 72 turns :=
  ⟨.refl journal, journal_grows_closed, by decide, by decide, rfl, trivial⟩

theorem replay_replayed : replaySinceBuffers ReplayWitness.root (some replayed) 0 = some ([event createdA], 72) := by
  rw [replaySinceBuffers, replayBuffers_eq replayed_spells]
  rfl

theorem journal_followed_closed : ∃ c' : UInt64, (72 : UInt64).toInt64 ≤ c'.toInt64 ∧
    monitorBuffers ReplayWitness.root (72 : UInt64).toInt64 monitored =
      some (closed.closedBetween ReplayWitness.root 72 c', c'.toInt64) :=
  (journal_followed ReplayWitness.root journal 0 72 cutA replayed replayed_spells serves_cutA [event createdA] replay_replayed turns
    journal_monitored monitored monitored_spells).2.2

end BufferWitness

end WinIndex
