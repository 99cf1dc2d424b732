import Mathlib.Tactic
import WinIndex.Lib.Tombstone
import WinIndex.Text

/-!
# The flat pool

`IndexPool` (src/core/storage/IndexPool.h, IndexPool.cpp): one metadata record an entry and two flat character arrays, the
full paths and the lowercased names, into which the records point with 32-bit offsets and 16-bit lengths. The three vectors
are lists here; the narrow integers are the fixed-width types of the source, so a value that does not fit wraps.
-/

namespace WinIndex

open Segments Tombstone

/-- A single file entry in the index, as a scanner hands it over (IFileSystemScanner.h). -/
structure FileEntry where
  name : WString
  nameLower : WString
  path : WString
  size : UInt64
  lastModified : UInt64
  attributes : UInt32
  deriving DecidableEq

/-- An entry for a path, named as the scanners name it. -/
def FileEntry.ofPath (Γ : Locale) (path : WString) (size lastModified : UInt64) (attributes : UInt32) : FileEntry :=
  ⟨nameOf path, Γ.lower (nameOf path), path, size, lastModified, attributes⟩

/-- The fixed-size metadata record of one entry. `deleted` is the tombstone byte, which is only ever 0 or 1. -/
structure EntryMeta where
  size : UInt64
  lastModified : UInt64
  pathOffset : UInt32
  nameLowerOffset : UInt32
  attributes : UInt32
  pathLen : UInt16
  nameLowerLen : UInt16
  nameStart : UInt16
  deleted : Bool
  deriving DecidableEq

/-- The pool. `entryMeta` is the vector `meta` of the source. -/
structure IndexPool where
  entryMeta : List EntryMeta
  nameLowerPool : List WChar
  pathPool : List WChar
  deriving DecidableEq

/-- An empty pool: the default constructor and `Clear`. -/
def IndexPool.empty : IndexPool := ⟨[], [], []⟩

/-- `static_cast<size_t>(a - b)` on two `uint16_t`: the difference is an `int`, which wraps when it is negative. -/
def subSizeT (a b : UInt16) : Nat := (a.toNat + 2 ^ 64 - b.toNat) % 2 ^ 64

theorem subSizeT_eq {a b : UInt16} (h : b.toNat ≤ a.toNat) : subSizeT a b = a.toNat - b.toNat := by
  have := a.toNat_lt
  unfold subSizeT
  omega

/-! ## AddEntry -/

/-- What `AddEntry` appends to `nameLowerPool`: the entry's `nameLower`, or, when it is empty, the lowercased `name`, or, when
that is empty too, the lowercased path tail. -/
def FileEntry.lowerName (Γ : Locale) (e : FileEntry) : WString :=
  if e.nameLower ≠ [] then e.nameLower
  else if e.name = [] then
    let ns := UInt16.ofNat (nameStart e.path)
    Γ.lower (slice e.path ns.toNat (subSizeT (UInt16.ofNat e.path.length) ns))
  else Γ.lower e.name

/-- The metadata record `AddEntry` builds. -/
def IndexPool.newMeta (Γ : Locale) (p : IndexPool) (e : FileEntry) : EntryMeta where
  size := e.size
  lastModified := e.lastModified
  pathOffset := UInt32.ofNat p.pathPool.length
  nameLowerOffset := UInt32.ofNat p.nameLowerPool.length
  attributes := e.attributes
  pathLen := UInt16.ofNat e.path.length
  nameLowerLen := UInt16.ofNat (e.lowerName Γ).length
  nameStart := UInt16.ofNat (nameStart e.path)
  deleted := false

/-- `IndexPool::AddEntry`. -/
def IndexPool.addEntry (Γ : Locale) (p : IndexPool) (e : FileEntry) : IndexPool where
  entryMeta := p.entryMeta ++ [p.newMeta Γ e]
  nameLowerPool := p.nameLowerPool ++ e.lowerName Γ
  pathPool := p.pathPool ++ e.path

/-- A pool built by a sequence of `AddEntry` calls. -/
def IndexPool.ofEntries (Γ : Locale) (es : List FileEntry) : IndexPool := es.foldl (IndexPool.addEntry Γ) .empty

/-- `pool.meta[i].deleted = 1`. -/
def IndexPool.markDeleted (p : IndexPool) (i : Nat) : IndexPool :=
  { p with entryMeta := p.entryMeta.modify i (fun m => { m with deleted := true }) }

/-! ## The accessors -/

/-- The view `GetPath` returns for a record of the pool. -/
def IndexPool.pathView (p : IndexPool) (m : EntryMeta) : WString := slice p.pathPool m.pathOffset.toNat m.pathLen.toNat

/-- The view `GetName` returns for a record of the pool: the tail of the path after the last backslash. -/
def IndexPool.nameView (p : IndexPool) (m : EntryMeta) : WString :=
  slice p.pathPool (m.pathOffset.toNat + m.nameStart.toNat) (subSizeT m.pathLen m.nameStart)

/-- The view `GetNameLower` returns for a record of the pool. -/
def IndexPool.nameLowerView (p : IndexPool) (m : EntryMeta) : WString :=
  slice p.nameLowerPool m.nameLowerOffset.toNat m.nameLowerLen.toNat

/-- `GetPath(idx)`. An index outside `meta` has no entry. -/
def IndexPool.getPath (p : IndexPool) (idx : UInt32) : Option WString := p.entryMeta[idx.toNat]?.map p.pathView

/-- `GetName(idx)`. -/
def IndexPool.getName (p : IndexPool) (idx : UInt32) : Option WString := p.entryMeta[idx.toNat]?.map p.nameView

/-- `GetNameLower(idx)`. -/
def IndexPool.getNameLower (p : IndexPool) (idx : UInt32) : Option WString :=
  p.entryMeta[idx.toNat]?.map p.nameLowerView

/-! ## What a pool says: its records -/

/-- What one entry means: a path with its metadata. -/
structure Record where
  path : WString
  size : UInt64
  lastModified : UInt64
  attributes : UInt32
  deriving DecidableEq

/-- The record of an entry. -/
def FileEntry.record (e : FileEntry) : Record := ⟨e.path, e.size, e.lastModified, e.attributes⟩

@[simp] theorem FileEntry.record_path (e : FileEntry) : e.record.path = e.path := rfl

/-- The record a metadata record of the pool stands for. -/
def IndexPool.recordOf (p : IndexPool) (m : EntryMeta) : Record := ⟨p.pathView m, m.size, m.lastModified, m.attributes⟩

/-- The same with the tombstone: a cell of the log that the pool is. -/
def IndexPool.cellOf (p : IndexPool) (m : EntryMeta) : Cell Record := ⟨p.recordOf m, !m.deleted⟩

/-- The records of a pool, in index order, tombstoned ones included. -/
def IndexPool.records (p : IndexPool) : List (Cell Record) := p.entryMeta.map p.cellOf

/-- The records of the live entries, in index order. -/
def IndexPool.live (p : IndexPool) : List Record := lives p.records

@[simp] theorem IndexPool.length_records (p : IndexPool) : p.records.length = p.entryMeta.length := List.length_map _

theorem IndexPool.getElem?_records (p : IndexPool) (i : Nat) : p.records[i]? = p.entryMeta[i]?.map p.cellOf :=
  List.getElem?_map

/-- The views of one record of the pool lie inside the two character arrays. -/
structure IndexPool.InBounds (p : IndexPool) (m : EntryMeta) : Prop where
  path : m.pathOffset.toNat + m.pathLen.toNat ≤ p.pathPool.length
  name : m.nameStart.toNat ≤ m.pathLen.toNat
  nameLower : m.nameLowerOffset.toNat + m.nameLowerLen.toNat ≤ p.nameLowerPool.length

/-- Every view of the pool lies inside it: no accessor reads outside. -/
def IndexPool.WellFormed (p : IndexPool) : Prop := ∀ m ∈ p.entryMeta, p.InBounds m

/-- Every path lies inside the path array. -/
def IndexPool.PathsIn (p : IndexPool) : Prop := ∀ m ∈ p.entryMeta, m.pathOffset.toNat + m.pathLen.toNat ≤ p.pathPool.length

theorem IndexPool.WellFormed.pathsIn {p : IndexPool} (h : p.WellFormed) : p.PathsIn := fun m hm => (h m hm).path

theorem IndexPool.pathsIn_empty : IndexPool.empty.PathsIn := by
  intro m hm
  cases hm

/-! ## AddEntry appends one record -/

/-- The path `AddEntry` stores for a text: the one its offset and its length find, which both wrap. -/
def IndexPool.storedPath (p : IndexPool) (text : WString) : WString :=
  slice (p.pathPool ++ text) (p.pathPool.length % 2 ^ 32) (text.length % 2 ^ 16)

/-- The record `AddEntry` appends. -/
def IndexPool.stored (p : IndexPool) (e : FileEntry) : Record := { e.record with path := p.storedPath e.path }

@[simp] theorem IndexPool.stored_path (p : IndexPool) (e : FileEntry) : (p.stored e).path = p.storedPath e.path := rfl

/-- A path fits the narrow fields of the pool: its length 16 bits, and its offset 32. -/
structure IndexPool.Fits (p : IndexPool) (text : WString) : Prop where
  path : text.length < 2 ^ 16
  pool : p.pathPool.length < 2 ^ 32

instance (p : IndexPool) (text : WString) : Decidable (p.Fits text) :=
  decidable_of_iff (text.length < 2 ^ 16 ∧ p.pathPool.length < 2 ^ 32) ⟨fun h => ⟨h.1, h.2⟩, fun h => ⟨h.path, h.pool⟩⟩

/-- A path that fits is stored as it is. -/
theorem IndexPool.Fits.storedPath_eq {p : IndexPool} {text : WString} (h : p.Fits text) : p.storedPath text = text := by
  rw [storedPath, Nat.mod_eq_of_lt h.pool, Nat.mod_eq_of_lt h.path]
  exact slice_append_self _ _

theorem IndexPool.Fits.stored_eq {p : IndexPool} {e : FileEntry} (h : p.Fits e.path) : p.stored e = e.record := by
  rw [stored, h.storedPath_eq]
  rfl

/-- The record of an entry already there is not changed by what is appended to the arrays. -/
theorem IndexPool.cellOf_addEntry {Γ : Locale} {p : IndexPool} (e : FileEntry) {m : EntryMeta}
    (h : m.pathOffset.toNat + m.pathLen.toNat ≤ p.pathPool.length) : (p.addEntry Γ e).cellOf m = p.cellOf m := by
  simp only [cellOf, recordOf, pathView, addEntry]
  rw [slice_append_left _ h]

/-- `AddEntry` appends exactly one live record, and keeps the others. -/
theorem IndexPool.records_addEntry {Γ : Locale} {p : IndexPool} (e : FileEntry) (hp : p.PathsIn) :
    (p.addEntry Γ e).records = add p.records (p.stored e) := by
  have hm : (p.addEntry Γ e).entryMeta = p.entryMeta ++ [p.newMeta Γ e] := rfl
  have hn : (p.addEntry Γ e).cellOf (p.newMeta Γ e) = ⟨p.stored e, true⟩ := by
    simp only [cellOf, recordOf, pathView, newMeta, UInt32.toNat_ofNat', UInt16.toNat_ofNat']
    rfl
  rw [records, hm, List.map_append, List.map_singleton, hn, records, add]
  congr 1
  exact List.map_congr_left (fun m h => cellOf_addEntry e (hp m h))

/-- `AddEntry` keeps every path inside the array, even where an offset or a length wraps: it is then smaller still. -/
theorem IndexPool.pathsIn_addEntry {Γ : Locale} {p : IndexPool} (e : FileEntry) (hp : p.PathsIn) :
    (p.addEntry Γ e).PathsIn := by
  intro m hm
  have hl : (p.addEntry Γ e).pathPool.length = p.pathPool.length + e.path.length := List.length_append
  rcases List.mem_append.1 hm with hm | hm
  · have := hp m hm
    omega
  · rw [List.mem_singleton] at hm
    subst hm
    simp only [newMeta, UInt32.toNat_ofNat', UInt16.toNat_ofNat']
    have h1 := Nat.mod_le p.pathPool.length (2 ^ 32)
    have h2 := Nat.mod_le e.path.length (2 ^ 16)
    omega

@[simp] theorem IndexPool.length_addEntry (Γ : Locale) (p : IndexPool) (e : FileEntry) :
    (p.addEntry Γ e).entryMeta.length = p.entryMeta.length + 1 := by simp [addEntry]

/-! ## Tombstones -/

@[simp] theorem IndexPool.length_markDeleted (p : IndexPool) (i : Nat) :
    (p.markDeleted i).entryMeta.length = p.entryMeta.length := List.length_modify _ _ _

/-- Marking an entry kills its record and leaves the others as they were. -/
theorem IndexPool.records_markDeleted (p : IndexPool) (i : Nat) : (p.markDeleted i).records = killAt i p.records := by
  apply List.ext_getElem?
  intro j
  rw [killAt, List.getElem?_modify, getElem?_records, getElem?_records, markDeleted]
  simp only [List.getElem?_modify]
  cases p.entryMeta[j]? with
  | none => rfl
  | some m => by_cases h : i = j <;> simp [h, cellOf, recordOf, Cell.kill, pathView]

theorem IndexPool.pathsIn_markDeleted {p : IndexPool} (hp : p.PathsIn) (i : Nat) : (p.markDeleted i).PathsIn := by
  intro m hm
  obtain ⟨j, hj⟩ := List.mem_iff_getElem?.1 hm
  rw [markDeleted, List.getElem?_modify] at hj
  cases hm' : p.entryMeta[j]? with
  | none => rw [hm'] at hj; cases hj
  | some m' =>
    rw [hm'] at hj
    have hin := hp m' (List.mem_of_getElem? hm')
    by_cases h : i = j
    · simp only [h, if_true, Option.map_eq_map, Option.map_some, Option.some.injEq] at hj
      subst hj
      exact hin
    · simp only [h, if_false, Option.map_eq_map, Option.map_some, Option.some.injEq] at hj
      subst hj
      exact hin

end WinIndex
