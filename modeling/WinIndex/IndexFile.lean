import WinIndex.IndexAge
import WinIndex.RecordStore

/-!
# The index file over starts of the program

What becomes of the index while the program runs, is closed or killed at some moment, and is started again: the mutations of the
store and its `Save` (src/core/storage/IndexStore.cpp), which truncates the index file and writes it anew
(src/core/storage/IndexSerializer.cpp), and the beginning of `StartIndexing` (src/core/indexer/Indexer.cpp), which loads the file
unless it is missing or too old. The bytes go to the file in their order, so where a write is cut short, as the disk is full or the
program is killed, the file holds the first of them; what `Serialize` returns nobody looks at.
-/

namespace WinIndex

open Tombstone

/-- What becomes of writing a file. -/
inductive WriteOutcome where
  /-- It cannot be opened, and stays as it is. -/
  | notOpened
  | whole
  /-- It is truncated, and its last bytes are not written: one at least. -/
  | cut (missing : Nat)

/-- The file after it was to be written. -/
def WriteOutcome.written (bytes : List UInt8) (old : Option (List UInt8)) : WriteOutcome → Option (List UInt8)
  | .notOpened => old
  | .whole => some bytes
  | .cut missing => some (bytes.take (bytes.length - (missing + 1)))

/-- The store of the program, while it has not been ended by an exception, and the contents of the index file, when there is one.
`rebuilds` says that the last start has begun a rebuild. -/
structure StoredIndex where
  store : Option IndexStore
  file : Option (List UInt8)
  rebuilds : Bool

/-- The first start: there is no file to load. -/
def StoredIndex.initial : StoredIndex := ⟨some .empty, none, true⟩

/-- What happens to the index. -/
inductive IndexEvent where
  | mutate (op : StoreOp)
  /-- `Save` at a time, and what becomes of the file. -/
  | save (now : UInt64) (outcome : WriteOutcome)
  /-- The program is started, again: the last write of the file, the interval of the settings, the time, and the address of the
  buffer that the file is read into. -/
  | start (lastWrite : AttributeData) (reindexIntervalHours : UInt64) (now : FileTime) (base : Nat)

/-- `StartIndexing(false)` with a new store. -/
def StoredIndex.start (Γ : Locale) (s : StoredIndex) (lastWrite : AttributeData) (reindexIntervalHours : UInt64) (now : FileTime)
    (base : Nat) : StoredIndex :=
  match s.file with
  | none => { s with store := some .empty, rebuilds := true }
  | some file =>
    if isIndexValid (some lastWrite) reindexIntervalHours now then
      match IndexStore.empty.load Γ base file with
      | .ok store => { s with store := some store, rebuilds := !decide (0 < store.getEntryCount) }
      | .error _ => { s with store := none, rebuilds := false }
    else { s with store := some .empty, rebuilds := true }

/-- The effect of an event. -/
def StoredIndex.step (Γ : Locale) (s : StoredIndex) : IndexEvent → StoredIndex
  | .mutate op => { s with store := s.store.map (fun store => op.run Γ store) }
  | .save now outcome =>
    match s.store with
    | none => s
    | some store => { s with file := outcome.written (store.save now) s.file }
  | .start lastWrite reindexIntervalHours now base => s.start Γ lastWrite reindexIntervalHours now base

/-! ## What the file is for -/

/-- The records of the program, and those that are kept for the next start, if any. -/
structure KeptRecords where
  records : RecordStore
  kept : Option (List Record)
  rebuilds : Bool

/-- Nothing is known yet, and nothing kept. -/
def KeptRecords.initial : KeptRecords := ⟨.empty, none, true⟩

/-- A save keeps the live records, or nothing if it is cut short; a start takes up what is kept, unless it is too old, and begins
a rebuild when that is nothing. -/
def KeptRecords.step (Γ : Locale) (a : KeptRecords) : IndexEvent → KeptRecords
  | .mutate op => { a with records := a.records.step Γ op }
  | .save _ .notOpened => a
  | .save _ .whole => { a with kept := some (lives a.records.records) }
  | .save _ (.cut _) => { a with kept := none }
  | .start lastWrite reindexIntervalHours now _ =>
    let live := if isIndexValid (some lastWrite) reindexIntervalHours now then a.kept.getD [] else []
    { a with records := ⟨live.map (fun r => ⟨r, true⟩), []⟩, rebuilds := live.isEmpty }

end WinIndex
