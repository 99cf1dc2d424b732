import WinIndex.Theorems.UsnBuffers

/-!
# The file table read from buffers

The enumeration asks for the records from a number on and gets as many as fit a buffer, again and again, while files and
directories may be moved. When the driver has no more, every record of the table is in the map, with a parent that it had at some
moment. The loop reads this from the bytes of the buffers, one buffer after the other.
-/

namespace WinIndex

open Trace

/-! ## What the driver leaves -/

/-- The answers to the calls in a run of the volume and the enumeration: a buffer with the next records, if there are any, or an
error, which is the end; and there may be none any more, since the scan was cancelled. -/
inductive VolumeScan.Answers : VolumeScan → List VolumeEvent → List DriverAnswer → Prop
  | cancelled (s : VolumeScan) : Answers s [] []
  | move {s : VolumeScan} (frn newParent : UInt64) {es : List VolumeEvent} {answers : List DriverAnswer}
      (h : Answers (s.step (.move frn newParent)) es answers) : Answers s (.move frn newParent :: es) answers
  | ended {s : VolumeScan} {count : Nat} (hnone : s.nextRecords count = []) : Answers s [.deviceIoControl count] [.failed]
  | filled {s : VolumeScan} {count : Nat} {records : List RawUsnRecord} {last : UsnRecord} (hfits : ∀ r ∈ records, r.Fits)
      (hrecords : records.map RawUsnRecord.usnRecord = s.nextRecords count) (hlast : (s.nextRecords count).getLast? = some last)
      (rest : List UInt8) {es : List VolumeEvent} {answers : List DriverAnswer}
      (h : Answers (s.step (.deviceIoControl count)) es answers) :
      Answers s (.deviceIoControl count :: es)
        (.filled (driverBuffer (last.fileReferenceNumber + 1) records rest) (bytesReturned records) :: answers)

/-- A number is in the map after a buffer if it was there before, or a record of the buffer has it and a name. -/
theorem isSome_lookup_readBuffer {entries : List (UInt64 × MftEntry)} {records : List UsnRecord} {frn : UInt64}
    (h : (entries.lookup frn).isSome ∨ ∃ record ∈ records, record.fileName.length > 0 ∧ record.fileReferenceNumber = frn) :
    ((readBuffer entries records).lookup frn).isSome := by
  induction records generalizing entries with
  | nil => exact h.resolve_right (fun ⟨_, hmem, _⟩ => absurd hmem List.not_mem_nil)
  | cons first records ih =>
    rw [readBuffer, List.foldl_cons]
    refine ih ?_
    rw [lookup_readRecord]
    split
    · exact .inl rfl
    · rename_i hother
      rcases h with hthere | ⟨record, hmem, hrecord⟩
      · exact .inl hthere
      · rcases List.mem_cons.1 hmem with rfl | hmem
        · exact absurd hrecord hother
        · exact .inr ⟨record, hmem, hrecord⟩

/-- Of a list in order the first elements are all that are not behind the last of them. -/
theorem mem_take_of_le {records : List UsnRecord}
    (hsorted : records.Pairwise (fun r r' => r.fileReferenceNumber < r'.fileReferenceNumber)) {count : Nat}
    {last record : UsnRecord} (hlast : (records.take count).getLast? = some last) (hmem : record ∈ records)
    (hle : record.fileReferenceNumber ≤ last.fileReferenceNumber) : record ∈ records.take count := by
  rw [← List.take_append_drop count records, List.pairwise_append] at hsorted
  rw [← List.take_append_drop count records] at hmem
  rcases List.mem_append.1 hmem with hmem | hmem
  · exact hmem
  · have hlt := hsorted.2.2 last (List.mem_of_getLast? hlast) record hmem
    exact absurd hle (UInt64.not_le.2 hlt)

/-- The table is in the order of the numbers, which do not come to their end. -/
structure TableOrdered (volume : List UsnRecord) : Prop where
  sorted : volume.Pairwise (fun r r' => r.fileReferenceNumber < r'.fileReferenceNumber)
  bounded : ∀ record ∈ volume, record.fileReferenceNumber.toNat + 1 < 2 ^ 64

/-- The record but for its parent. -/
def UsnRecord.still (record : UsnRecord) : UInt64 × WString × UInt32 :=
  (record.fileReferenceNumber, record.fileName, record.fileAttributes)

/-- The record is in the table at some moment of the run. -/
def VolumeScan.Seen (s : VolumeScan) (es : List VolumeEvent) (record : UsnRecord) : Prop :=
  ∃ k ≤ es.length, record ∈ (final VolumeScan.step s (es.take k)).volume

/-- Where the enumeration of a table is after a run: only parents have changed, what is in the map was in the table, and what
stands before the number to go on from is in the map. -/
structure Enumerating (volume : List UsnRecord) (es : List VolumeEvent) (s : VolumeScan) : Prop where
  still : s.volume.map UsnRecord.still = volume.map UsnRecord.still
  seen : ∀ frn e, s.entries.lookup frn = some e → ∃ record : UsnRecord, (VolumeScan.start volume).Seen es record ∧
    record.fileReferenceNumber = frn ∧ record.fileName.length > 0 ∧ e = record.entry
  read : ∀ record ∈ s.volume, record.fileName.length > 0 → record.fileReferenceNumber < s.startFileReferenceNumber →
    (s.entries.lookup record.fileReferenceNumber).isSome

variable {volume : List UsnRecord} {es : List VolumeEvent} {s : VolumeScan}

theorem VolumeScan.Seen.append {record : UsnRecord} (h : s.Seen es record) (es' : List VolumeEvent) : s.Seen (es ++ es') record := by
  obtain ⟨k, hk, hmem⟩ := h
  refine ⟨k, by rw [List.length_append]; omega, ?_⟩
  rwa [List.take_append_of_le_length hk]

theorem still_moveRecord (frn newParent : UInt64) (record : UsnRecord) :
    (moveRecord frn newParent record).still = record.still := by
  rw [moveRecord]
  split <;> rfl

/-- Numbers that are the same in two tables are in the same order. -/
theorem TableOrdered.of_still (h : TableOrdered volume) {volume' : List UsnRecord}
    (heq : volume'.map UsnRecord.still = volume.map UsnRecord.still) : TableOrdered volume' := by
  have hfrn : volume'.map UsnRecord.fileReferenceNumber = volume.map UsnRecord.fileReferenceNumber := by
    have hfst := congrArg (List.map Prod.fst) heq
    rw [List.map_map, List.map_map] at hfst
    exact hfst
  constructor
  · have hsorted := List.pairwise_map.2 h.sorted
    rw [← hfrn] at hsorted
    exact List.pairwise_map.1 hsorted
  · intro record hrecord
    have hmem : record.fileReferenceNumber ∈ volume'.map UsnRecord.fileReferenceNumber := List.mem_map_of_mem hrecord
    rw [hfrn] at hmem
    obtain ⟨record', hrecord', heq'⟩ := List.mem_map.1 hmem
    rw [← heq']
    exact h.bounded record' hrecord'

/-- A move keeps it. -/
theorem Enumerating.move (h : Enumerating volume es s) (frn newParent : UInt64) :
    Enumerating volume (es ++ [.move frn newParent]) (s.step (.move frn newParent)) := by
  refine ⟨?_, fun frn' e hlookup => ?_, fun record hrecord hname hlt => ?_⟩
  · show (s.volume.map (moveRecord frn newParent)).map UsnRecord.still = _
    rw [List.map_map, ← h.still]
    exact List.map_congr_left (fun record _ => still_moveRecord frn newParent record)
  · obtain ⟨record, hseen, hrecord⟩ := h.seen frn' e hlookup
    exact ⟨record, hseen.append _, hrecord⟩
  · obtain ⟨old, hold, rfl⟩ := List.mem_map.1 hrecord
    have hstill := still_moveRecord frn newParent old
    have hnumber := congrArg Prod.fst hstill
    have hfileName := congrArg (fun r => r.2.1) hstill
    simp only [UsnRecord.still] at hnumber hfileName
    rw [hnumber] at hlt ⊢
    rw [hfileName] at hname
    exact h.read old hold hname hlt

/-- So does a call of the driver. -/
theorem Enumerating.deviceIoControl (h : Enumerating volume es s) (hordered : TableOrdered volume)
    (hs : s = final VolumeScan.step (.start volume) es) (count : Nat) :
    Enumerating volume (es ++ [.deviceIoControl count]) (s.step (.deviceIoControl count)) := by
  have hnow := hordered.of_still h.still
  rw [VolumeScan.step]
  cases hlast : (s.nextRecords count).getLast? with
  | none => exact ⟨h.still, fun frn e hlookup => (h.seen frn e hlookup).imp fun _ hr => ⟨hr.1.append _, hr.2⟩, h.read⟩
  | some last =>
    refine ⟨h.still, fun frn e hlookup => ?_, fun record hrecord hname hlt => ?_⟩
    · rcases lookup_readBuffer hlookup with hbefore | ⟨record, hmem, hname, hfrn, hentry⟩
      · obtain ⟨record, hseen, hr⟩ := h.seen frn e hbefore
        exact ⟨record, hseen.append _, hr⟩
      · have hvolume : record ∈ s.volume := List.mem_of_mem_filter (List.mem_of_mem_take hmem)
        refine ⟨record, ⟨es.length, by simp, ?_⟩, hfrn, hname, hentry.symm⟩
        rwa [List.take_left', ← hs]
        rfl
    · refine isSome_lookup_readBuffer ?_
      by_cases hbefore : record.fileReferenceNumber < s.startFileReferenceNumber
      · exact .inl (h.read record hrecord hname hbefore)
      · -- it is one of the next, and not behind the last of those that were returned
        have hnext : record ∈ s.volume.filter (fun r => s.startFileReferenceNumber ≤ r.fileReferenceNumber) :=
          List.mem_filter.2 ⟨hrecord, decide_eq_true (UInt64.not_lt.1 hbefore)⟩
        have hmem : last ∈ s.volume := List.mem_of_mem_filter (List.mem_of_mem_take (List.mem_of_getLast? hlast))
        have hroom := hnow.bounded last hmem
        have hle : record.fileReferenceNumber ≤ last.fileReferenceNumber := by
          have hlt' : record.fileReferenceNumber.toNat < (last.fileReferenceNumber + 1).toNat := hlt
          rw [UInt64.toNat_add] at hlt'
          have hone : (1 : UInt64).toNat = 1 := rfl
          rw [hone, Nat.mod_eq_of_lt hroom] at hlt'
          exact UInt64.le_iff_toNat_le.2 (Nat.le_of_lt_succ hlt')
        exact .inr ⟨record, mem_take_of_le (hnow.sorted.filter _) hlast hnext hle, hname, rfl⟩

/-- It holds after every run. -/
theorem enumerating (hordered : TableOrdered volume) (es : List VolumeEvent) :
    Enumerating volume es (final VolumeScan.step (.start volume) es) := by
  induction es using List.reverseRecOn with
  | nil => exact ⟨rfl, fun _ _ h => (nomatch h), fun _ _ _ h => absurd h UInt64.not_lt_zero⟩
  | append_singleton es e ih =>
    rw [final_append, final_cons, final_nil]
    cases e with
    | move frn newParent => exact ih.move frn newParent
    | deviceIoControl count => exact ih.deviceIoControl hordered rfl count

namespace EnumerationWitness

open BufferWitness

/-- A directory with a file, in this order. -/
def directory : RawUsnRecord := { raw 0 0 (wide ['d']) with fileReferenceNumber := 40, fileAttributes := 0x10 }
def file : RawUsnRecord := { raw 0 0 (wide ['f']) with fileReferenceNumber := 50, parentFileReferenceNumber := 40 }

def table : List UsnRecord := [directory.usnRecord, file.usnRecord]

/-- The file is moved before it is read. -/
def moved : RawUsnRecord := { file with parentFileReferenceNumber := 5 }

def run : List VolumeEvent := [.deviceIoControl 1, .move 50 5, .deviceIoControl 9, .deviceIoControl 9]

def answers : List DriverAnswer :=
  [.filled (driverBuffer (directory.usnRecord.fileReferenceNumber + 1) [directory] []) (bytesReturned [directory]),
    .filled (driverBuffer (moved.usnRecord.fileReferenceNumber + 1) [moved] [0xff]) (bytesReturned [moved]), .failed]

end EnumerationWitness

end WinIndex
