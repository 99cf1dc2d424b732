import WinIndex.Lemmas.Scan
import WinIndex.Lib.Trace

/-!
# Batches of mutations

What the threads of the indexer leave in the store: a rebuild publishes the scanned entries, added paths are appended entry
by entry, removed paths filter the live entries.
-/

namespace WinIndex

open Tombstone Trace

variable {Γ : Locale}

/-- A pool has room for entries: each path fits its length field, all of them its offsets, and each entry gets an index. -/
structure IndexPool.HasRoom (p : IndexPool) (es : List FileEntry) : Prop where
  path : ∀ e ∈ es, e.path.length < 2 ^ 16
  pool : p.pathPool.length + (es.map FileEntry.path).flatten.length < 2 ^ 32
  count : p.entryMeta.length + es.length ≤ 2 ^ 32

instance (p : IndexPool) (es : List FileEntry) : Decidable (p.HasRoom es) :=
  decidable_of_iff ((∀ e ∈ es, e.path.length < 2 ^ 16) ∧
      p.pathPool.length + (es.map FileEntry.path).flatten.length < 2 ^ 32 ∧ p.entryMeta.length + es.length ≤ 2 ^ 32)
    ⟨fun h => ⟨h.1, h.2.1, h.2.2⟩, fun h => ⟨h.path, h.pool, h.count⟩⟩

/-- The first of several entries fits, and after it there is room for the others. -/
theorem IndexPool.HasRoom.cons {p : IndexPool} {e : FileEntry} {es : List FileEntry} (h : p.HasRoom (e :: es)) :
    p.Fits e.path ∧ p.entryMeta.length < 2 ^ 32 ∧ (p.addEntry Γ e).HasRoom es := by
  obtain ⟨hpath, hpool, hcount⟩ := h
  rw [List.map_cons, List.flatten_cons, List.length_append] at hpool
  rw [List.length_cons] at hcount
  refine ⟨⟨hpath e (by simp), by omega⟩, by omega, fun x hx => hpath x (by simp [hx]), ?_, ?_⟩
  · have hl : (p.addEntry Γ e).pathPool.length = p.pathPool.length + e.path.length := List.length_append
    omega
  · rw [length_addEntry]
    omega

/-- Room for two lists of entries is room for the first, and then for the second. -/
theorem IndexPool.HasRoom.append {p : IndexPool} {es es' : List FileEntry} (h : p.HasRoom (es ++ es')) :
    p.HasRoom es ∧ (es.foldl (addEntry Γ) p).HasRoom es' := by
  induction es generalizing p with
  | nil =>
    obtain ⟨hpath, hpool, hcount⟩ := h
    rw [List.nil_append] at hpool hcount
    refine ⟨⟨by simp, ?_, ?_⟩, ⟨hpath, hpool, hcount⟩⟩
    · exact Nat.lt_of_le_of_lt (Nat.le_add_right _ _) hpool
    · exact Nat.le_trans (Nat.le_add_right _ _) hcount
  | cons e es ih =>
    obtain ⟨-, -, hrest⟩ := h.cons (Γ := Γ)
    obtain ⟨-, hlast⟩ := ih hrest
    refine ⟨⟨fun x hx => h.path x (List.mem_append_left _ hx), ?_, ?_⟩, hlast⟩
    · have hp := h.pool
      rw [List.map_append, List.flatten_append, List.length_append] at hp
      omega
    · have hc := h.count
      rw [List.length_append] at hc
      omega

/-- Adding entries that there is room for appends their records to the live ones. -/
theorem IndexPool.live_addAll {p : IndexPool} (hp : p.Sound) {es : List FileEntry} (h : p.HasRoom es) :
    (es.foldl (addEntry Γ) p).live = p.live ++ es.map FileEntry.record ∧ (es.foldl (addEntry Γ) p).Sound := by
  induction es generalizing p with
  | nil => simpa using hp
  | cons e es ih =>
    obtain ⟨hfit, hcount, hrest⟩ := h.cons (Γ := Γ)
    obtain ⟨hlive, hsound⟩ := ih (hp.addEntry hcount Γ e) hrest
    refine ⟨?_, hsound⟩
    rw [List.foldl_cons, hlive, live, records_addEntry e hp.pathsIn, lives_add, hfit.stored_eq, live, List.map_cons,
      List.append_assoc]
    rfl

/-- The entries a pool was built from are live in it, when there was room for them. -/
theorem IndexPool.live_ofEntries {es : List FileEntry} (h : IndexPool.empty.HasRoom es) :
    (ofEntries Γ es).live = es.map FileEntry.record ∧ (ofEntries Γ es).Sound := live_addAll sound_empty h

/-! ## The threads of the indexer -/

theorem final_applyAdd (s : IndexStore) (es : List FileEntry) :
    (final (StoreOp.run Γ) s (es.map .applyAdd)).pool = es.foldl (IndexPool.addEntry Γ) s.pool := by
  induction es generalizing s with
  | nil => rfl
  | cons e es ih =>
    rw [List.map_cons, final_cons, ih]
    rfl

theorem final_addEntry (s : IndexStore) (es : List FileEntry) :
    final (StoreOp.run Γ) s (es.map .addEntry) = { s with stagingBuf := s.stagingBuf ++ es } := by
  induction es generalizing s with
  | nil => simp
  | cons e es ih =>
    rw [List.map_cons, final_cons, ih]
    simp [StoreOp.run, IndexStore.addEntry]

/-- What a rebuild leaves of the store: the entries it has staged, published. -/
theorem final_publish (s : IndexStore) (es : List FileEntry) :
    final (StoreOp.run Γ) s (.beginWrite :: es.map .addEntry ++ [.endWrite]) =
      { s with pool := .ofEntries Γ es, stagingBuf := [] } := by
  rw [List.cons_append, final_cons, final_append, final_addEntry]
  rfl

/-- A rebuild publishes the entries it has staged. -/
theorem pool_publish (s : IndexStore) (es : List FileEntry) :
    (final (StoreOp.run Γ) s (.beginWrite :: es.map .addEntry ++ [.endWrite])).pool = .ofEntries Γ es := by
  rw [final_publish]

/-- Those are the entries of the scans. -/
theorem pool_indexingThread (s : IndexStore) (fs : FileSystem) (selectedDrives excludedPaths : List WString) :
    (final (StoreOp.run Γ) s (indexingThread Γ fs selectedDrives excludedPaths)).pool =
      .ofEntries Γ (scanAll Γ fs excludedPaths (effectiveDrives fs selectedDrives)) := pool_publish s _

/-- Removing several paths leaves the live entries that are under none of them. -/
theorem live_removePathsThread {s : IndexStore} (hs : s.pool.Sound) (paths : List WString) :
    (final (StoreOp.run Γ) s (removePathsThread paths)).pool.live =
      s.pool.live.filter (fun r => !paths.any (fun root => underPrefix Γ (removalPrefix Γ root) r.path)) := by
  induction paths generalizing s with
  | nil => simp [removePathsThread]
  | cons root paths ih =>
    have hnext : (StoreOp.removeEntriesUnderPath root).run Γ s = s.removeEntriesUnderPath Γ root := rfl
    have h := ih (s := s.removeEntriesUnderPath Γ root) (IndexStore.sound_removeEntriesUnderPath root hs)
    rw [removePathsThread] at h
    rw [removePathsThread, List.map_cons, final_cons, hnext, h, IndexStore.live_removeEntriesUnderPath root hs,
      List.filter_filter]
    refine List.filter_congr (fun r _ => ?_)
    rw [List.any_cons, Bool.not_or, Bool.and_comm]
    rfl

/-- The paths of the live entries. -/
def IndexStore.livePaths (s : IndexStore) : List WString := s.pool.live.map Record.path

/-- The paths that scanning some roots reports. -/
def scannedPaths (Γ : Locale) (fs : FileSystem) (excludedPaths roots : List WString) : List WString :=
  (scanAll Γ fs excludedPaths roots).map FileEntry.path

theorem mem_scannedPaths {fs : FileSystem} {excludedPaths roots : List WString} {p : WString} :
    p ∈ scannedPaths Γ fs excludedPaths roots ↔ ∃ root ∈ roots, ∃ fe ∈ scanDriveInto Γ fs excludedPaths root, fe.path = p := by
  simp only [scannedPaths, scanAll, List.mem_map, List.mem_flatMap]
  constructor
  · rintro ⟨fe, ⟨root, hroot, hfe⟩, rfl⟩
    exact ⟨root, hroot, fe, hfe, rfl⟩
  · rintro ⟨root, hroot, fe, hfe, rfl⟩
    exact ⟨fe, ⟨root, hroot, hfe⟩, rfl⟩

theorem map_path_map_record (es : List FileEntry) : (es.map FileEntry.record).map Record.path = es.map FileEntry.path := by
  rw [List.map_map]
  rfl

end WinIndex
