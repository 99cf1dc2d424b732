import WinIndex.Scanners
import WinIndex.Lib.Assoc
import WinIndex.Lib.Chain
import WinIndex.Lib.Trace

/-!
# Reading a volume's file table

`MftScanner::ScanVolume` (src/core/indexer/MftScanner.cpp) in its two halves: first it asks for the records of the table, one
buffer after the other, and makes a map of them; then it puts the path of every file together from the map. The volume is not
held still between two buffers, so the map need not be the table of any one moment.
-/

namespace WinIndex

/-! ## The records -/

/-- The fields of `USN_RECORD` that are read. -/
structure UsnRecord where
  fileReferenceNumber : UInt64
  parentFileReferenceNumber : UInt64
  fileAttributes : UInt32
  fileName : WString

/-- The entry made of a record. -/
def UsnRecord.entry (record : UsnRecord) : MftEntry where
  name := record.fileName
  parentFrn := record.parentFileReferenceNumber
  attributes := record.fileAttributes

/-- The body of the loop over a buffer: `entries[record->FileReferenceNumber] = std::move(entry)`, for a record with a name. -/
def readRecord (entries : List (UInt64 × MftEntry)) (record : UsnRecord) : List (UInt64 × MftEntry) :=
  if record.fileName.length > 0 then
    (record.fileReferenceNumber, record.entry) :: entries.filter (fun r => r.1 ≠ record.fileReferenceNumber)
  else entries

/-- The records of one buffer. -/
def readBuffer (entries : List (UInt64 × MftEntry)) (records : List UsnRecord) : List (UInt64 × MftEntry) :=
  records.foldl readRecord entries

/-- A record with a name is in the map afterwards, and nothing else has changed. -/
theorem lookup_readRecord (entries : List (UInt64 × MftEntry)) (record : UsnRecord) (frn : UInt64) :
    (readRecord entries record).lookup frn =
      if record.fileName.length > 0 ∧ record.fileReferenceNumber = frn then some record.entry else entries.lookup frn := by
  rw [readRecord]
  by_cases hname : record.fileName.length > 0
  · rw [if_pos hname]
    by_cases hfrn : record.fileReferenceNumber = frn
    · rw [if_pos ⟨hname, hfrn⟩, hfrn, List.lookup_cons_self]
    · have hne : frn ≠ record.fileReferenceNumber := fun h => hfrn h.symm
      rw [if_neg (fun h => hfrn h.2), List.lookup_cons, beq_false_of_ne hne]
      exact Assoc.lookup_filter_ne entries hne
  · rw [if_neg hname, if_neg (fun h => hname h.1)]

/-- What is in the map after a buffer was there before or is in the buffer. -/
theorem lookup_readBuffer {entries : List (UInt64 × MftEntry)} {records : List UsnRecord} {frn : UInt64} {e : MftEntry}
    (h : (readBuffer entries records).lookup frn = some e) :
    entries.lookup frn = some e ∨
      ∃ record ∈ records, record.fileName.length > 0 ∧ record.fileReferenceNumber = frn ∧ record.entry = e := by
  induction records generalizing entries with
  | nil => exact .inl h
  | cons record records ih =>
    rcases ih h with hlookup | ⟨record', hmem, hrecord⟩
    · rw [lookup_readRecord] at hlookup
      split at hlookup
      · rename_i hread
        rw [Option.some.injEq] at hlookup
        exact .inr ⟨record, by simp, hread.1, hread.2, hlookup⟩
      · exact .inl hlookup
    · exact .inr ⟨record', by simp [hmem], hrecord⟩

/-- A buffer leaves the numbers alone that are not in it. -/
theorem lookup_readBuffer_of_not_mem {entries : List (UInt64 × MftEntry)} {records : List UsnRecord} {frn : UInt64}
    (h : frn ∉ records.map UsnRecord.fileReferenceNumber) : (readBuffer entries records).lookup frn = entries.lookup frn := by
  induction records generalizing entries with
  | nil => rfl
  | cons record records ih =>
    rw [List.map_cons, List.mem_cons, not_or] at h
    rw [readBuffer, List.foldl_cons]
    refine (ih h.2).trans ?_
    rw [lookup_readRecord, if_neg (fun hread => h.1 hread.2.symm)]

/-- Of records with different numbers every one that has a name is in the map after the buffer. -/
theorem lookup_readBuffer_of_mem {entries : List (UInt64 × MftEntry)} {records : List UsnRecord}
    (hnodup : (records.map UsnRecord.fileReferenceNumber).Nodup) {record : UsnRecord} (hmem : record ∈ records)
    (hname : record.fileName.length > 0) :
    (readBuffer entries records).lookup record.fileReferenceNumber = some record.entry := by
  induction records generalizing entries with
  | nil => cases hmem
  | cons first records ih =>
    rw [List.map_cons, List.nodup_cons] at hnodup
    rw [readBuffer, List.foldl_cons]
    rcases List.mem_cons.1 hmem with rfl | hmem
    · refine (lookup_readBuffer_of_not_mem hnodup.1).trans ?_
      rw [lookup_readRecord, if_pos ⟨hname, rfl⟩]
    · exact ih hnodup.2 hmem

/-! ## The enumeration -/

/-- The enumeration under way: the file table of the volume, in the order of the reference numbers, the number to go on from,
and the map so far. -/
structure VolumeScan where
  volume : List UsnRecord
  startFileReferenceNumber : UInt64
  entries : List (UInt64 × MftEntry)

/-- What happens while a volume is enumerated: a file or directory is moved, or `DeviceIoControl` fills a buffer with the next
records, as many as fit. -/
inductive VolumeEvent where
  | move (frn newParent : UInt64)
  | deviceIoControl (count : Nat)
  deriving DecidableEq

/-- A move changes the parent in the one record. -/
def moveRecord (frn newParent : UInt64) (record : UsnRecord) : UsnRecord :=
  if record.fileReferenceNumber = frn then { record with parentFileReferenceNumber := newParent } else record

/-- The records that a call gives. -/
def VolumeScan.nextRecords (s : VolumeScan) (count : Nat) : List UsnRecord :=
  (s.volume.filter (fun record => s.startFileReferenceNumber ≤ record.fileReferenceNumber)).take count

/-- A step of the volume or of the enumeration. The first word of a buffer is the number behind that of its last record. -/
def VolumeScan.step (s : VolumeScan) : VolumeEvent → VolumeScan
  | .move frn newParent => { s with volume := s.volume.map (moveRecord frn newParent) }
  | .deviceIoControl count =>
    match (s.nextRecords count).getLast? with
    | none => s
    | some last =>
      { s with
        startFileReferenceNumber := last.fileReferenceNumber + 1
        entries := readBuffer s.entries (s.nextRecords count) }

/-- `med.StartFileReferenceNumber = 0`, and no entries. -/
def VolumeScan.start (volume : List UsnRecord) : VolumeScan where
  volume := volume
  startFileReferenceNumber := 0
  entries := []

/-! ## Parents -/

/-- The way from a record to its parent: there is none from a record that is absent or its own parent. -/
def parentLink (entries : List (UInt64 × MftEntry)) (frn : UInt64) : Option UInt64 :=
  match entries.lookup frn with
  | none => none
  | some e => if e.parentFrn = frn then none else some e.parentFrn

/-- No way up the parents comes back to where it was. -/
def ParentsAcyclic (entries : List (UInt64 × MftEntry)) : Prop := Chain.Acyclic (parentLink entries)

/-- The map of the whole table of a volume at one moment. -/
def VolumeScan.table (s : VolumeScan) : List (UInt64 × MftEntry) := readBuffer [] s.volume

/-- The directories of the volume are a tree at the moment. -/
def VolumeScan.IsTree (s : VolumeScan) : Prop := ParentsAcyclic s.table

/-! ## The paths -/

/-- `resolvePath`, with the depth of its calls bounded: nothing when they go deeper than `fuel`. -/
def resolvePathWithin (entries : List (UInt64 × MftEntry)) (root : WString) : Nat → UInt64 → Option WString
  | 0, _ => none
  | fuel + 1, frn =>
    match entries.lookup frn with
    | none => some root
    | some e =>
      if e.parentFrn = frn then some root
      else (resolvePathWithin entries root fuel e.parentFrn).map (fun dir => dir ++ e.name ++ [backslash])

/-- `resolvePath` returns. -/
def ResolvePathReturns (entries : List (UInt64 × MftEntry)) (root : WString) (frn : UInt64) : Prop :=
  ∃ fuel path, resolvePathWithin entries root fuel frn = some path

/-- The entry of a file whose directory has been resolved. -/
def MftEntry.entryIn (Γ : Locale) (dir : WString) (e : MftEntry) : FileEntry where
  name := e.name
  nameLower := Γ.lower e.name
  path := dir ++ e.name
  size := 0
  lastModified := 0
  attributes := e.attributes

/-- The second loop of `ScanVolume`, over the entries still to come. -/
def MftScanner.emitEntries (Γ : Locale) (entries : List (UInt64 × MftEntry)) (excludedPaths : List WString) (root : WString)
    (fuel : Nat) : List (UInt64 × MftEntry) → Option (List FileEntry)
  | [] => some []
  | (_, entry) :: rest =>
    if entry.isDirectory then emitEntries Γ entries excludedPaths root fuel rest
    else
      match resolvePathWithin entries root fuel entry.parentFrn with
      | none => none
      | some dir =>
        if MftScanner.isExcluded Γ (dir ++ entry.name) excludedPaths then emitEntries Γ entries excludedPaths root fuel rest
        else (emitEntries Γ entries excludedPaths root fuel rest).map (entry.entryIn Γ dir :: ·)

/-- `MftScanner::ScanVolume` from the map on: the entries in the order of its iteration, with `resolvePath` bounded. -/
def MftScanner.scanVolume (Γ : Locale) (entries : List (UInt64 × MftEntry)) (excludedPaths : List WString) (root : WString)
    (fuel : Nat) : Option (List FileEntry) :=
  emitEntries Γ entries excludedPaths root fuel entries

end WinIndex
