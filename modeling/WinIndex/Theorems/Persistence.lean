import WinIndex.Lemmas.Reload

/-!
# When an index survives being saved and loaded

The writer stores the whole path array but only the live records, and the reader takes each record's path from the running
sum of the lengths before it. So the live entries come back exactly when their paths, end to end, are how the path array
begins: a tombstone in front of a live entry shifts that entry's text.
-/

namespace WinIndex

open Segments Tombstone LittleEndian

/-- Saving a pool and a USN map and loading the file gives the live entries and the map back. -/
def RoundTrips (Γ : Locale) (base : Nat) (now : UInt64) (p : IndexPool) (usnMap : UsnMap) : Prop :=
  ∃ loaded, (deserialize Γ base (serialize now p usnMap) .empty).result = .ok loaded ∧
    (∀ root, loaded.usnMap.find? root = usnMap.find? root) ∧
    loaded.pool.entryMeta.map loaded.pool.reading = p.liveMeta.map p.reading

/-- The pool with the entries of the given indices tombstoned. -/
def IndexPool.markAll (p : IndexPool) (deleted : List Nat) : IndexPool := deleted.foldl IndexPool.markDeleted p

variable {Γ : Locale} {p : IndexPool}

/-! ## Readings -/

/-- The live records are those of the entries that are written. -/
theorem IndexPool.live_eq_map_liveMeta (p : IndexPool) : p.live = p.liveMeta.map p.recordOf := by
  rw [live, lives, records, List.filter_map, List.map_map, liveMeta]
  rfl

/-- Names agree with paths: the accessors read an entry as its path says. -/
def IndexPool.NamesAgree (Γ : Locale) (p : IndexPool) : Prop := ∀ m ∈ p.entryMeta, p.reading m = textReading Γ m (p.pathView m)

/-- The layout of a log has names that agree with its paths. -/
theorem IndexPool.namesAgree_layout {cs : List (Cell Record)} (h : LogTexts cs) : (layout Γ cs).NamesAgree Γ := by
  intro m hm
  obtain ⟨i, hi, rfl⟩ := mem_layout hm
  obtain ⟨-, -, hn⟩ := layoutMeta_path h hi (offset (lowerNames Γ cs) i)
  simp only [reading, textReading, pathView_layout h hi, nameView_layout h hi, nameLowerView_layout h hi, hn, nameOf_eq_drop]

/-- The readings of the live entries, from their texts. -/
theorem IndexPool.map_reading_liveMeta (h : p.NamesAgree Γ) :
    p.liveMeta.map p.reading = List.zipWith (textReading Γ) p.liveMeta (p.live.map Record.path) := by
  have hpath : p.live.map Record.path = p.liveMeta.map p.pathView := by
    rw [live_eq_map_liveMeta, List.map_map]
    rfl
  rw [hpath, List.zipWith_map_right, List.zipWith_self]
  exact List.map_congr_left (fun m hm => h m (List.mem_of_mem_filter hm))

/-- The lengths that are written are those of the live paths. -/
theorem IndexPool.map_pathLen_liveMeta (h : p.PathsIn) :
    p.liveMeta.map (fun m => m.pathLen.toNat) = (p.live.map Record.path).map List.length := by
  rw [live_eq_map_liveMeta, List.map_map, List.map_map]
  exact List.map_congr_left (fun m hm => (length_slice (h m (List.mem_of_mem_filter hm))).symm)

/-! ## The layout of a log with tombstones -/

/-- Tombstones on the layout of a log. -/
theorem IndexPool.markAll_layout (cs : List (Cell Record)) (deleted : List Nat) :
    (layout Γ cs).markAll deleted = layout Γ (deleted.foldl (fun l i => killAt i l) cs) := by
  induction deleted generalizing cs with
  | nil => rfl
  | cons i deleted ih =>
    rw [List.foldl_cons, ← ih, ← markDeleted_layout]
    rfl

theorem map_val_foldl_killAt (cs : List (Cell Record)) (deleted : List Nat) :
    (deleted.foldl (fun l i => killAt i l) cs).map Cell.val = cs.map Cell.val := by
  induction deleted generalizing cs with
  | nil => rfl
  | cons i deleted ih => rw [List.foldl_cons, ih, map_val_killAt]

/-- Whether the texts of a log fit depends on its values only. -/
theorem LogTexts.congr {cs cs' : List (Cell Record)} (h : LogTexts cs) (hv : cs'.map Cell.val = cs.map Cell.val) :
    LogTexts cs' := by
  refine ⟨?_, by rw [paths_congr hv]; exact h.pool⟩
  intro c hc
  have hmem : c.val ∈ cs.map Cell.val := hv ▸ List.mem_map_of_mem hc
  obtain ⟨c', hc', heq⟩ := List.mem_map.1 hmem
  rw [← heq]
  exact h.path c' hc'

/-- The live paths of a log are together no longer than all its paths. -/
theorem length_live_paths_le (cs : List (Cell Record)) :
    ((lives cs).map Record.path).flatten.length ≤ (paths cs).flatten.length := by
  have hsub : ((lives cs).map Record.path).Sublist (paths cs) := by
    rw [lives, List.map_map]
    exact (List.filter_sublist).map _
  exact hsub.flatten.length_le

/-! ## The round trip -/

/-- For every pool built from well-named entries whose texts fit, every set of tombstones on it and every USN map: saving
and loading gives the live entries back exactly when their paths, end to end, are how the path array begins. -/
theorem roundTrips_iff (Γ : Locale) (base : Nat) (now : UInt64) (es : List FileEntry) (deleted : List Nat) (usnMap : UsnMap)
    (hw : ∀ e ∈ es, e.WellNamed Γ) (hp : ∀ e ∈ es, e.path.length < 2 ^ 16)
    (hpool : (es.map FileEntry.path).flatten.length < 2 ^ 32) (hc : usnMap.entries.length < 2 ^ 32)
    (hroot : ∀ e ∈ usnMap.entries, e.1.length < 2 ^ 16)
    (hmem : InMemory base (serialize now ((IndexPool.ofEntries Γ es).markAll deleted) usnMap).length) :
    RoundTrips Γ base now ((IndexPool.ofEntries Γ es).markAll deleted) usnMap ↔
      (((IndexPool.ofEntries Γ es).markAll deleted).live.map Record.path).flatten <+:
        ((IndexPool.ofEntries Γ es).markAll deleted).pathPool := by
  have htexts : LogTexts (es.map FileEntry.cell) := by
    refine ⟨?_, by rw [paths, List.map_map]; exact hpool⟩
    intro c hcell
    obtain ⟨e, he, rfl⟩ := List.mem_map.1 hcell
    exact hp e he
  rw [IndexPool.ofEntries_layout hw hp, IndexPool.markAll_layout] at hmem ⊢
  generalize hcs : deleted.foldl (fun l i => killAt i l) (es.map FileEntry.cell) = cs at hmem ⊢
  have htexts : LogTexts cs := htexts.congr (by rw [← hcs]; exact map_val_foldl_killAt _ _)
  have hin := (IndexPool.wellFormed_layout (Γ := Γ) htexts).pathsIn
  have hlens := IndexPool.map_pathLen_liveMeta hin
  have hnames : ∀ m ∈ (IndexPool.layout Γ cs).liveMeta, m.nameStart.toNat ≤ m.pathLen.toNat :=
    fun m hm => (IndexPool.wellFormed_layout htexts m (List.mem_of_mem_filter hm)).name
  have hsum : ((IndexPool.layout Γ cs).liveMeta.map (fun m => m.pathLen.toNat)).sum ≤
      (IndexPool.layout Γ cs).pathPool.length := by
    rw [hlens, ← List.length_flatten, IndexPool.live, IndexPool.records_layout htexts]
    exact length_live_paths_le cs
  obtain ⟨loaded, hres, husn, hread⟩ := deserialize_serialize Γ now htexts.pool hnames hsum hc hroot hmem
  have hiff := cut_eq_iff ((IndexPool.layout Γ cs).live.map Record.path) (IndexPool.layout Γ cs).pathPool
  have hlen : ∀ ts : List WString, ts.length = (IndexPool.layout Γ cs).live.length →
      ts.length = (IndexPool.layout Γ cs).liveMeta.length := by
    intro ts h
    rw [h, IndexPool.live_eq_map_liveMeta, List.length_map]
  rw [hlens] at hread
  constructor
  · rintro ⟨loaded', hres', -, hsame⟩
    rw [hres, Except.ok.injEq] at hres'
    subst hres'
    rw [hread, IndexPool.map_reading_liveMeta (IndexPool.namesAgree_layout htexts)] at hsame
    have hpaths := congrArg (List.map Reading.path) hsame
    rw [map_path_zipWith_textReading Γ _ _ (hlen _ (by simp [length_cut])),
      map_path_zipWith_textReading Γ _ _ (hlen _ (by simp))] at hpaths
    exact hiff.1 hpaths
  · intro hpre
    refine ⟨loaded, hres, fun root => by rw [husn], ?_⟩
    rw [hread, hiff.2 hpre, IndexPool.map_reading_liveMeta (IndexPool.namesAgree_layout htexts)]

namespace PersistenceWitness

/-- A file as a scanner reports it. -/
def file (path : WString) : FileEntry := .ofPath .c path 3 5 0x20

/-- `C:\A` and `C:\Bc`. -/
def files : List FileEntry := [file (wide ['C', ':', '\\', 'A']), file (wide ['C', ':', '\\', 'B', 'c'])]

/-- One root, `C:\`. -/
def roots : UsnMap := UsnMap.empty.set (wide ['C', ':', '\\']) 7

theorem roundTrips_iff_files :
    RoundTrips .c 0x10000 1 ((IndexPool.ofEntries .c files).markAll [1]) roots ↔
      (((IndexPool.ofEntries .c files).markAll [1]).live.map Record.path).flatten <+:
        ((IndexPool.ofEntries .c files).markAll [1]).pathPool :=
  roundTrips_iff .c 0x10000 1 files [1] roots (by decide) (by decide +kernel) (by decide +kernel) (by decide +kernel)
    (by decide +kernel) (by decide +kernel)

end PersistenceWitness

/-- With the first of two files tombstoned, the second comes back as the first characters of the path array. -/
theorem tombstone_shifts_later_paths :
    ¬RoundTrips .c 0x10000 1 ((IndexPool.ofEntries .c PersistenceWitness.files).markAll [0]) .empty := by
  rintro ⟨loaded, hres, -, hread⟩
  have hload : (deserialize .c 0x10000 (serialize 1 ((IndexPool.ofEntries .c PersistenceWitness.files).markAll [0])
      .empty) .empty).result.toOption.map (fun l => l.pool.entryMeta.map (fun m => l.pool.pathView m)) =
      some [wide ['C', ':', '\\', 'A', 'C']] := by
    decide +kernel
  rw [hres] at hload
  have hpaths := congrArg (List.map Reading.path) hread
  rw [List.map_map, List.map_map] at hpaths
  have hsame : [wide ['C', ':', '\\', 'A', 'C']] = [wide ['C', ':', '\\', 'B', 'c']] :=
    (Option.some.inj hload).symm.trans hpaths
  exact absurd hsame (by decide)

end WinIndex
