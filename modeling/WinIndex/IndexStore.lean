import WinIndex.IndexSerializer

/-!
# The index store

`IndexStore` (src/core/storage/IndexStore.h, IndexStore.cpp): the published pool, the USN map and the staging buffer of a
rebuild. Every mutation takes the exclusive lock for its whole effect on the pool, so each is one atomic step here
(`StoreOp`); `BeginWrite` and `AddEntry` touch only the staging buffer, which belongs to the indexing thread.

After the operations, what each does to the records of the pool, as an operation on a log with tombstones.
-/

namespace WinIndex

open Tombstone

/-- The members of `IndexStore` that its operations change. -/
structure IndexStore where
  pool : IndexPool
  usnMap : UsnMap
  stagingBuf : List FileEntry

/-- A store as constructed. -/
def IndexStore.empty : IndexStore := ⟨.empty, .empty, []⟩

/-! ## The operations -/

/-- `BeginWrite`. -/
def IndexStore.beginWrite (s : IndexStore) : IndexStore := { s with stagingBuf := [] }

/-- `AddEntry`: onto the staging buffer. -/
def IndexStore.addEntry (s : IndexStore) (e : FileEntry) : IndexStore := { s with stagingBuf := s.stagingBuf ++ [e] }

/-- `EndWrite`: a fresh pool from the staging buffer replaces the published one. -/
def IndexStore.endWrite (Γ : Locale) (s : IndexStore) : IndexStore :=
  { s with pool := .ofEntries Γ s.stagingBuf, stagingBuf := [] }

/-- `ApplyAdd`. -/
def IndexStore.applyAdd (Γ : Locale) (s : IndexStore) (e : FileEntry) : IndexStore :=
  { s with pool := s.pool.addEntry Γ e }

/-- Whether the loops of `ApplyRemove` and `ApplyRename` stop at index `i`: the entry is live and its path folds to `lower`.
`GetPath` takes a `uint32_t`, so the loop index is cast. -/
def IndexPool.matchesAt (Γ : Locale) (p : IndexPool) (lower : WString) (i : Nat) : Bool :=
  match p.entryMeta[i]? with
  | some m => !m.deleted && decide ((p.getPath (UInt32.ofNat i)).map Γ.lower = some lower)
  | none => false

/-- The first index at which those loops stop. -/
def IndexPool.firstMatch (Γ : Locale) (p : IndexPool) (lower : WString) : Option Nat :=
  (List.range p.entryMeta.length).find? (p.matchesAt Γ lower)

/-- `ApplyRemove`. -/
def IndexStore.applyRemove (Γ : Locale) (s : IndexStore) (path : WString) : IndexStore :=
  match s.pool.firstMatch Γ (Γ.lower path) with
  | some i => { s with pool := s.pool.markDeleted i }
  | none => s

/-- The entry `ApplyRename` adds: the new path with the metadata of the old record. -/
def renamedEntry (Γ : Locale) (om : EntryMeta) (newPath : WString) : FileEntry where
  name := nameOf newPath
  nameLower := Γ.lower (nameOf newPath)
  path := newPath
  size := om.size
  lastModified := om.lastModified
  attributes := om.attributes

/-- `ApplyRename`. -/
def IndexStore.applyRename (Γ : Locale) (s : IndexStore) (oldPath newPath : WString) : IndexStore :=
  match s.pool.firstMatch Γ (Γ.lower oldPath) with
  | some i =>
    match s.pool.entryMeta[i]? with
    | some om => { s with pool := (s.pool.markDeleted i).addEntry Γ (renamedEntry Γ om newPath) }
    | none => s
  | none => s

/-- The prefix `RemoveEntriesUnderPath` compares with: folded, and ending in a backslash unless it is empty. -/
def removalPrefix (Γ : Locale) (pfx : WString) : WString :=
  if Γ.lower pfx ≠ [] then withBackslash (Γ.lower pfx) else Γ.lower pfx

/-- `pl.compare(0, lp.size(), lp) == 0` on the folded path. -/
def underPrefix (Γ : Locale) (lp path : WString) : Bool := decide ((Γ.lower path).take lp.length = lp)

/-- Whether `RemoveEntriesUnderPath` tombstones the entry at index `i`. -/
def IndexPool.underAt (Γ : Locale) (p : IndexPool) (lp : WString) (i : Nat) (m : EntryMeta) : Bool :=
  !m.deleted && ((p.getPath (UInt32.ofNat i)).map (underPrefix Γ lp)).getD false

/-- `RemoveEntriesUnderPath`. -/
def IndexStore.removeEntriesUnderPath (Γ : Locale) (s : IndexStore) (pfx : WString) : IndexStore :=
  let lp := removalPrefix Γ pfx
  { s with
    pool := { s.pool with
      entryMeta := s.pool.entryMeta.mapIdx
        (fun i m => if s.pool.underAt Γ lp i m then { m with deleted := true } else m) } }

/-- `GetEntryCount`: the entries not tombstoned. -/
def IndexStore.getEntryCount (s : IndexStore) : Nat := s.pool.liveMeta.length

/-- The mutations of the store, each one locked step. -/
inductive StoreOp where
  | beginWrite
  | addEntry (e : FileEntry)
  | endWrite
  | applyAdd (e : FileEntry)
  | applyRemove (path : WString)
  | applyRename (oldPath newPath : WString)
  | removeEntriesUnderPath (pfx : WString)

/-- The effect of a mutation. -/
def StoreOp.run (Γ : Locale) (s : IndexStore) : StoreOp → IndexStore
  | .beginWrite => s.beginWrite
  | .addEntry e => s.addEntry e
  | .endWrite => s.endWrite Γ
  | .applyAdd e => s.applyAdd Γ e
  | .applyRemove path => s.applyRemove Γ path
  | .applyRename oldPath newPath => s.applyRename Γ oldPath newPath
  | .removeEntriesUnderPath pfx => s.removeEntriesUnderPath Γ pfx

/-! ## Save and Load -/

/-- `Save`: the contents of the index file written at time `now`. -/
def IndexStore.save (s : IndexStore) (now : UInt64) : List UInt8 := serialize now s.pool s.usnMap

/-- `Load` from the contents of the index file: what was read replaces the pool and the USN map, and both are cleared where
`Deserialize` returns false. Its other ends are those of `Load`. -/
def IndexStore.load (Γ : Locale) (base : Nat) (s : IndexStore) (file : List UInt8) : Except LoadStop IndexStore :=
  match (deserialize Γ base file .empty).result with
  | .ok loaded => .ok { s with pool := loaded.pool, usnMap := loaded.usnMap }
  | .error .returnsFalse => .ok { s with pool := .empty, usnMap := .empty }
  | .error stop => .error stop

/-! ## What the operations leave alone -/

theorem IndexStore.stagingBuf_applyRemove (Γ : Locale) (s : IndexStore) (path : WString) :
    (s.applyRemove Γ path).stagingBuf = s.stagingBuf := by
  unfold applyRemove
  split <;> rfl

theorem IndexStore.stagingBuf_applyRename (Γ : Locale) (s : IndexStore) (oldPath newPath : WString) :
    (s.applyRename Γ oldPath newPath).stagingBuf = s.stagingBuf := by
  unfold applyRename
  split
  · split <;> rfl
  · rfl

/-- `ApplyRemove` grows nothing: the arrays are as they were, and the entries as many. -/
theorem IndexStore.length_applyRemove (Γ : Locale) (s : IndexStore) (path : WString) :
    (s.applyRemove Γ path).pool.entryMeta.length = s.pool.entryMeta.length := by
  unfold applyRemove
  split
  · exact IndexPool.length_markDeleted _ _
  · rfl

/-! ## What the operations do to the records -/

/-- The test for a path up to case. -/
def samePath (Γ : Locale) (lower : WString) (r : Record) : Bool := decide (Γ.lower r.path = lower)

/-- The test for a path under a prefix. -/
def underRecord (Γ : Locale) (pfx : WString) (r : Record) : Bool := underPrefix Γ (removalPrefix Γ pfx) r.path

/-- The pool can be addressed: its paths lie inside it, and its indices are `uint32_t`. -/
structure IndexPool.Sound (p : IndexPool) : Prop where
  pathsIn : p.PathsIn
  count : p.entryMeta.length ≤ 2 ^ 32

theorem IndexPool.sound_empty : IndexPool.empty.Sound := ⟨pathsIn_empty, Nat.zero_le _⟩

/-- Below `2 ^ 32` entries the cast of the loop index is the index. -/
theorem IndexPool.Sound.getPath_ofNat {p : IndexPool} (h : p.Sound) {i : Nat} (hi : i < p.entryMeta.length) :
    p.getPath (UInt32.ofNat i) = some (p.pathView p.entryMeta[i]) := by
  have hc : (UInt32.ofNat i).toNat = i := UInt32.toNat_ofNat_of_lt' (Nat.lt_of_lt_of_le hi h.count)
  rw [getPath, hc, List.getElem?_eq_getElem hi]
  rfl

/-- The loops stop at an index exactly when its record is live and has the path. -/
theorem IndexPool.Sound.matchesAt_eq {Γ : Locale} {p : IndexPool} (h : p.Sound) (lower : WString) {i : Nat}
    (hi : i < p.entryMeta.length) : p.matchesAt Γ lower i = (p.cellOf p.entryMeta[i]).hit (samePath Γ lower) := by
  rw [matchesAt, List.getElem?_eq_getElem hi]
  simp only [h.getPath_ofNat hi, Option.map_some, Option.some.injEq]
  rfl

/-- Searching the indices of a list for one whose element passes a test is searching the list. -/
theorem find?_range_eq_findIdx? {α : Type} (xs : List α) (P : α → Bool) (Q : Nat → Bool)
    (h : ∀ i (hi : i < xs.length), Q i = P xs[i]) : (List.range xs.length).find? Q = xs.findIdx? P := by
  induction xs generalizing Q with
  | nil => rfl
  | cons x xs ih =>
    rw [List.length_cons, List.range_succ_eq_map, List.find?_cons, List.findIdx?_cons]
    have h0 : Q 0 = P x := h 0 (by simp)
    rw [h0]
    cases P x with
    | true => rfl
    | false =>
      rw [List.find?_map, ih (Q ∘ Nat.succ) (fun i hi => h (i + 1) (by simpa using hi))]
      rfl

/-- The loops find the first live record with the path. -/
theorem IndexPool.Sound.firstMatch_eq {Γ : Locale} {p : IndexPool} (h : p.Sound) (lower : WString) :
    p.firstMatch Γ lower = findLive (samePath Γ lower) p.records := by
  rw [firstMatch, findLive, records, List.findIdx?_map]
  exact find?_range_eq_findIdx? _ _ _ (fun i hi => h.matchesAt_eq lower hi)

/-- `ApplyAdd` appends a live record. -/
theorem IndexStore.records_applyAdd {Γ : Locale} {s : IndexStore} (e : FileEntry) (hs : s.pool.Sound) :
    (s.applyAdd Γ e).pool.records = add s.pool.records (s.pool.stored e) :=
  IndexPool.records_addEntry e hs.pathsIn

/-- `ApplyRemove` kills the first live record with the path. -/
theorem IndexStore.records_applyRemove {Γ : Locale} {s : IndexStore} (path : WString) (hs : s.pool.Sound) :
    (s.applyRemove Γ path).pool.records = killFirst (samePath Γ (Γ.lower path)) s.pool.records := by
  rw [applyRemove, killFirst, hs.firstMatch_eq]
  cases findLive (samePath Γ (Γ.lower path)) s.pool.records with
  | none => rfl
  | some i => exact IndexPool.records_markDeleted _ _

/-- `RemoveEntriesUnderPath` kills every live record under the prefix. -/
theorem IndexStore.records_removeEntriesUnderPath {Γ : Locale} {s : IndexStore} (pfx : WString) (hs : s.pool.Sound) :
    (s.removeEntriesUnderPath Γ pfx).pool.records = killAll (underRecord Γ pfx) s.pool.records := by
  apply List.ext_getElem?
  intro i
  rw [IndexPool.getElem?_records, killAll, List.getElem?_map, IndexPool.getElem?_records, removeEntriesUnderPath,
    List.getElem?_mapIdx]
  by_cases hi : i < s.pool.entryMeta.length
  · have hu : s.pool.underAt Γ (removalPrefix Γ pfx) i s.pool.entryMeta[i] =
        (s.pool.cellOf s.pool.entryMeta[i]).hit (underRecord Γ pfx) := by
      rw [IndexPool.underAt, hs.getPath_ofNat hi]
      rfl
    rw [List.getElem?_eq_getElem hi]
    simp only [Option.map_some, hu]
    cases (s.pool.cellOf s.pool.entryMeta[i]).hit (underRecord Γ pfx) <;> rfl
  · rw [List.getElem?_eq_none (by omega)]
    rfl

/-- `ApplyRename` kills the first live record with the old path and appends it again under the new path, or does nothing. -/
theorem IndexStore.records_applyRename {Γ : Locale} {s : IndexStore} (oldPath newPath : WString) (hs : s.pool.Sound) :
    (s.applyRename Γ oldPath newPath).pool.records =
      match s.pool.live.find? (samePath Γ (Γ.lower oldPath)) with
      | some r => add (killFirst (samePath Γ (Γ.lower oldPath)) s.pool.records) { r with path := s.pool.storedPath newPath }
      | none => s.pool.records := by
  rw [applyRename, IndexPool.live, ← findLive_val, hs.firstMatch_eq]
  cases hl : findLive (samePath Γ (Γ.lower oldPath)) s.pool.records with
  | none => rfl
  | some i =>
    have hi : i < s.pool.entryMeta.length := by
      have := findLive_lt hl
      rwa [IndexPool.length_records] at this
    simp only [List.getElem?_eq_getElem hi, IndexPool.getElem?_records, Option.map_some, Option.bind_some, killFirst, hl]
    rw [IndexPool.records_addEntry _ (IndexPool.pathsIn_markDeleted hs.pathsIn i), IndexPool.records_markDeleted]
    rfl

/-! ## The live records -/

theorem IndexStore.live_applyAdd {Γ : Locale} {s : IndexStore} (e : FileEntry) (hs : s.pool.Sound) :
    (s.applyAdd Γ e).pool.live = s.pool.live ++ [s.pool.stored e] := by
  rw [IndexPool.live, records_applyAdd e hs, lives_add, IndexPool.live]

theorem IndexStore.live_applyRemove {Γ : Locale} {s : IndexStore} (path : WString) (hs : s.pool.Sound) :
    (s.applyRemove Γ path).pool.live = s.pool.live.eraseP (samePath Γ (Γ.lower path)) := by
  rw [IndexPool.live, records_applyRemove path hs, lives_killFirst, IndexPool.live]

theorem IndexStore.live_removeEntriesUnderPath {Γ : Locale} {s : IndexStore} (pfx : WString) (hs : s.pool.Sound) :
    (s.removeEntriesUnderPath Γ pfx).pool.live = s.pool.live.filter (fun r => !underRecord Γ pfx r) := by
  rw [IndexPool.live, records_removeEntriesUnderPath pfx hs, lives_killAll, IndexPool.live]

theorem IndexStore.live_applyRename {Γ : Locale} {s : IndexStore} (oldPath newPath : WString) (hs : s.pool.Sound) :
    (s.applyRename Γ oldPath newPath).pool.live =
      match s.pool.live.find? (samePath Γ (Γ.lower oldPath)) with
      | some r => s.pool.live.eraseP (samePath Γ (Γ.lower oldPath)) ++ [{ r with path := s.pool.storedPath newPath }]
      | none => s.pool.live := by
  rw [IndexPool.live, records_applyRename oldPath newPath hs]
  cases s.pool.live.find? (samePath Γ (Γ.lower oldPath)) with
  | none => rfl
  | some r => rw [lives_add, lives_killFirst, IndexPool.live]

/-! ## The pool stays sound -/

theorem IndexPool.Sound.addEntry {p : IndexPool} (hp : p.Sound) (hc : p.entryMeta.length < 2 ^ 32) (Γ : Locale)
    (e : FileEntry) : (p.addEntry Γ e).Sound :=
  ⟨pathsIn_addEntry e hp.pathsIn, by rw [length_addEntry]; exact hc⟩

theorem IndexPool.Sound.markDeleted {p : IndexPool} (hp : p.Sound) (i : Nat) : (p.markDeleted i).Sound :=
  ⟨pathsIn_markDeleted hp.pathsIn i, by rw [length_markDeleted]; exact hp.count⟩

theorem IndexStore.sound_applyRemove {Γ : Locale} {s : IndexStore} (path : WString) (hs : s.pool.Sound) :
    (s.applyRemove Γ path).pool.Sound := by
  unfold applyRemove
  split
  · exact hs.markDeleted _
  · exact hs

/-- A removal leaves the room there was. -/
theorem IndexStore.fits_applyRemove {Γ : Locale} {s : IndexStore} {path text : WString} (h : s.pool.Fits text) :
    (s.applyRemove Γ path).pool.Fits text := by
  unfold applyRemove
  split
  · exact ⟨h.path, h.pool⟩
  · exact h

theorem IndexStore.sound_applyRename {Γ : Locale} {s : IndexStore} (oldPath newPath : WString) (hs : s.pool.Sound)
    (hc : s.pool.entryMeta.length < 2 ^ 32) : (s.applyRename Γ oldPath newPath).pool.Sound := by
  unfold applyRename
  split
  · split
    · exact (hs.markDeleted _).addEntry (by rwa [IndexPool.length_markDeleted]) Γ _
    · exact hs
  · exact hs

theorem IndexStore.sound_removeEntriesUnderPath {Γ : Locale} {s : IndexStore} (pfx : WString) (hs : s.pool.Sound) :
    (s.removeEntriesUnderPath Γ pfx).pool.Sound := by
  refine ⟨?_, by simpa [removeEntriesUnderPath] using hs.count⟩
  intro m hm
  simp only [removeEntriesUnderPath, List.mem_mapIdx] at hm
  obtain ⟨i, hi, rfl⟩ := hm
  have hin := hs.pathsIn _ (List.getElem_mem hi)
  split
  · exact hin
  · exact hin

end WinIndex
