import WinIndex.Lemmas.Events
import WinIndex.Theorems.Persistence

/-!
# Renames as one event and as two

`ApplyChange` takes a rename as one event with both paths, which goes to `ApplyRename`, or as a removal and an addition, as
`ChangeWatcher` reports it. The two leave the same paths where the old path is found; where it is not, `ApplyRename` does
nothing, while the addition adds the new path all the same.
-/

namespace WinIndex

open Tombstone Segments Trace

/-! ## Paths of the live entries -/

/-- The paths of the live entries, in index order. -/
def IndexPool.livePaths (p : IndexPool) : List WString := p.live.map Record.path

theorem IndexPool.length_livePaths (p : IndexPool) : p.livePaths.length = p.liveMeta.length := by
  rw [livePaths, List.length_map, live_eq_map_liveMeta, List.length_map]

variable {Γ : Locale}

/-- Which paths there are after an addition depends on the path added only. -/
theorem IndexPool.livePaths_addEntry (p : IndexPool) (e : FileEntry) : (p.addEntry Γ e).livePaths =
    p.liveMeta.map (fun m => slice (p.pathPool ++ e.path) m.pathOffset.toNat m.pathLen.toNat) ++ [p.storedPath e.path] := by
  have hlive : (p.addEntry Γ e).liveMeta = p.liveMeta ++ [p.newMeta Γ e] := by
    rw [liveMeta, addEntry, List.filter_append]
    rfl
  rw [livePaths, live_eq_map_liveMeta, List.map_map, hlive, List.map_append, List.map_singleton]
  simp only [Function.comp_apply, recordOf, pathView, newMeta, UInt32.toNat_ofNat', UInt16.toNat_ofNat']
  rfl

/-- An addition adds one path. -/
theorem IndexPool.length_livePaths_addEntry (p : IndexPool) (e : FileEntry) :
    (p.addEntry Γ e).livePaths.length = p.livePaths.length + 1 := by
  rw [livePaths_addEntry, List.length_append, List.length_map, length_livePaths, List.length_singleton]

/-- A tombstone on a live entry takes one away. -/
theorem IndexPool.length_livePaths_markDeleted {p : IndexPool} {i : Nat} {m : EntryMeta} (h : p.entryMeta[i]? = some m)
    (hlive : m.deleted = false) : (p.markDeleted i).livePaths.length + 1 = p.livePaths.length := by
  have hcell : p.records[i]? = some (p.cellOf m) := by rw [getElem?_records, h, Option.map_some]
  have hlt := length_lives_killAt hcell (by simp [cellOf, hlive])
  rw [← records_markDeleted, ← live, ← live] at hlt
  rwa [livePaths, List.length_map, livePaths, List.length_map]

/-! ## Where a path is found -/

/-- The loops of `ApplyRemove` and `ApplyRename` find an entry with the path: one that is live and has it up to case. -/
def IndexPool.Indexed (Γ : Locale) (p : IndexPool) (path : WString) : Prop :=
  ∃ i < p.entryMeta.length, p.matchesAt Γ (Γ.lower path) i = true

instance (p : IndexPool) (path : WString) : Decidable (p.Indexed Γ path) := inferInstanceAs (Decidable (∃ i < _, _))

/-- In a sound pool they find a path that is live. -/
theorem IndexPool.Sound.indexed_iff {p : IndexPool} (h : p.Sound) (path : WString) :
    p.Indexed Γ path ↔ p.IsLive Γ (Γ.lower path) := by
  constructor
  · rintro ⟨i, hi, hmatch⟩
    rw [h.matchesAt_eq _ hi, Cell.hit, Bool.and_eq_true, samePath_iff] at hmatch
    refine ⟨p.recordOf p.entryMeta[i], ?_, hmatch.2⟩
    rw [live_eq_map_liveMeta]
    exact List.mem_map_of_mem (List.mem_filter.2 ⟨List.getElem_mem hi, hmatch.1⟩)
  · rintro ⟨r, hr, hpath⟩
    rw [live_eq_map_liveMeta] at hr
    obtain ⟨m, hm, rfl⟩ := List.mem_map.1 hr
    obtain ⟨hmem, hlive⟩ := List.mem_filter.1 hm
    obtain ⟨i, hi, rfl⟩ := List.mem_iff_getElem.1 hmem
    refine ⟨i, hi, ?_⟩
    rw [h.matchesAt_eq _ hi, Cell.hit, Bool.and_eq_true, samePath_iff]
    exact ⟨hlive, hpath⟩

/-- Where the loops stop, there is a live entry. -/
theorem IndexPool.getElem?_of_firstMatch {p : IndexPool} {lower : WString} {i : Nat} (h : p.firstMatch Γ lower = some i) :
    ∃ m, p.entryMeta[i]? = some m ∧ m.deleted = false := by
  have hmatch := List.find?_some h
  unfold matchesAt at hmatch
  split at hmatch
  · rename_i m hm
    rw [Bool.and_eq_true] at hmatch
    exact ⟨m, hm, by simpa using hmatch.1⟩
  · cases hmatch

theorem IndexPool.firstMatch_of_indexed {p : IndexPool} {path : WString} (h : p.Indexed Γ path) :
    ∃ i, p.firstMatch Γ (Γ.lower path) = some i := by
  obtain ⟨i, hi, hmatch⟩ := h
  exact Option.isSome_iff_exists.1 (List.find?_isSome.2 ⟨i, List.mem_range.2 hi, hmatch⟩)

theorem IndexPool.firstMatch_of_not_indexed {p : IndexPool} {path : WString} (h : ¬p.Indexed Γ path) :
    p.firstMatch Γ (Γ.lower path) = none := by
  rw [firstMatch, List.find?_eq_none]
  intro i hi hmatch
  exact h ⟨i, List.mem_range.1 hi, hmatch⟩

/-! ## One event or two -/

section

variable (attributes : WString → Option AttributeData)

/-- The store after the rename as one event. -/
def IndexStore.afterRenamed (Γ : Locale) (s : IndexStore) (old new : WString) : IndexStore :=
  s.applyChange Γ attributes ⟨.renamed, new, old⟩

/-- The store after the rename as a removal and an addition. -/
def IndexStore.afterRemovedAdded (Γ : Locale) (s : IndexStore) (old new : WString) : IndexStore :=
  (s.applyChange Γ attributes ⟨.removed, old, []⟩).applyChange Γ attributes ⟨.added, new, []⟩

variable {attributes} {s : IndexStore} {old new : WString}

/-- Where the old path is found, both tombstone the same entry and add one with the new path. -/
theorem livePaths_of_indexed (hfile : IsFile attributes new) (hne : old ≠ []) (h : s.pool.Indexed Γ old) :
    (s.afterRenamed attributes Γ old new).pool.livePaths = (s.afterRemovedAdded attributes Γ old new).pool.livePaths := by
  obtain ⟨fad, hops⟩ := buildAndApplyAdd_of_isFile Γ hfile
  obtain ⟨i, hi⟩ := IndexPool.firstMatch_of_indexed h
  obtain ⟨m, hm, -⟩ := IndexPool.getElem?_of_firstMatch hi
  have hrenamed : (s.afterRenamed attributes Γ old new).pool =
      (s.pool.markDeleted i).addEntry Γ (renamedEntry Γ m new) := by
    unfold IndexStore.afterRenamed IndexStore.applyChange applyChange
    simp only [if_pos hne, final_cons, final_nil, StoreOp.run, IndexStore.applyRename, hi, hm]
  have htwo : (s.afterRemovedAdded attributes Γ old new).pool =
      (s.pool.markDeleted i).addEntry Γ (builtEntry Γ new fad) := by
    unfold IndexStore.afterRemovedAdded IndexStore.applyChange applyChange
    simp only [hops, final_cons, final_nil, StoreOp.run, IndexStore.applyRemove, hi]
    rfl
  rw [hrenamed, htwo, IndexPool.livePaths_addEntry, IndexPool.livePaths_addEntry]
  rfl

/-- Where it is not, the removal does nothing, and the addition adds the new path. -/
theorem afterRemovedAdded_of_not_indexed (h : ¬s.pool.Indexed Γ old) :
    s.afterRemovedAdded attributes Γ old new = s.applyChange Γ attributes ⟨.added, new, []⟩ := by
  have hnone := IndexPool.firstMatch_of_not_indexed h
  have hremoved : s.applyChange Γ attributes ⟨.removed, old, []⟩ = s := by
    unfold IndexStore.applyChange applyChange
    simp only [final_cons, final_nil, StoreOp.run, IndexStore.applyRemove, hnone]
  rw [IndexStore.afterRemovedAdded, hremoved]

/-- `ApplyRename` then does nothing at all. -/
theorem afterRenamed_of_not_indexed (hne : old ≠ []) (h : ¬s.pool.Indexed Γ old) : s.afterRenamed attributes Γ old new = s := by
  have hnone := IndexPool.firstMatch_of_not_indexed h
  unfold IndexStore.afterRenamed IndexStore.applyChange applyChange
  simp only [if_pos hne, final_cons, final_nil, StoreOp.run, IndexStore.applyRename, hnone]

/-- A rename without an old path is an addition. -/
theorem afterRenamed_nil : s.afterRenamed attributes Γ [] new = s.applyChange Γ attributes ⟨.added, new, []⟩ := rfl

/-- The addition of a file adds one path. -/
theorem length_livePaths_added (hfile : IsFile attributes new) (s : IndexStore) :
    (s.applyChange Γ attributes ⟨.added, new, []⟩).pool.livePaths.length = s.pool.livePaths.length + 1 := by
  obtain ⟨fad, hops⟩ := buildAndApplyAdd_of_isFile Γ hfile
  unfold IndexStore.applyChange applyChange
  simp only [hops]
  exact IndexPool.length_livePaths_addEntry _ _

/-- The removal of a path that is found takes one away. -/
theorem length_livePaths_removed (attributes : WString → Option AttributeData) (h : s.pool.Indexed Γ old) :
    (s.applyChange Γ attributes ⟨.removed, old, []⟩).pool.livePaths.length + 1 = s.pool.livePaths.length := by
  obtain ⟨i, hi⟩ := IndexPool.firstMatch_of_indexed h
  obtain ⟨m, hm, hlive⟩ := IndexPool.getElem?_of_firstMatch hi
  unfold IndexStore.applyChange applyChange
  simp only [final_cons, final_nil, StoreOp.run, IndexStore.applyRemove, hi]
  exact IndexPool.length_livePaths_markDeleted hm hlive

end

/-- A rename to an existing file leaves the same live paths as one event and as two if and only if the event has an old path
exactly where the index finds one. -/
theorem renamed_eq_removed_added_iff (Γ : Locale) (attributes : WString → Option AttributeData) (s : IndexStore)
    (old new : WString) (hfile : IsFile attributes new) :
    (s.afterRenamed attributes Γ old new).pool.livePaths.Perm (s.afterRemovedAdded attributes Γ old new).pool.livePaths ↔
      (old ≠ [] ↔ s.pool.Indexed Γ old) := by
  have hadded := length_livePaths_added (Γ := Γ) hfile
  by_cases hindexed : s.pool.Indexed Γ old
  · by_cases hne : old = []
    · -- the removal of the empty path takes away an entry that the rename leaves
      refine iff_of_false (fun hperm => ?_) (fun h => absurd hne (h.2 hindexed))
      have hlen := hperm.length_eq
      have hremoved := length_livePaths_removed attributes hindexed
      rw [IndexStore.afterRemovedAdded, hadded] at hlen
      rw [hne] at hlen hremoved
      rw [afterRenamed_nil, hadded] at hlen
      omega
    · refine iff_of_true ?_ (iff_of_true hne hindexed)
      rw [livePaths_of_indexed hfile hne hindexed]
  · by_cases hne : old = []
    · refine iff_of_true ?_ (iff_of_false (not_not.2 hne) hindexed)
      rw [afterRemovedAdded_of_not_indexed hindexed, hne, afterRenamed_nil]
    · refine iff_of_false (fun hperm => ?_) (fun h => hindexed (h.1 hne))
      have hlen := hperm.length_eq
      rw [afterRemovedAdded_of_not_indexed hindexed, afterRenamed_of_not_indexed hne hindexed, hadded] at hlen
      omega

namespace RenameWitness

/-- Every path has a file of three bytes. -/
def attributes : WString → Option AttributeData := fun _ => some ⟨0x20, 0, 3, 0, 5⟩

/-- `C:\\a` and `C:\\B`. -/
def old : WString := wide ['C', ':', '\\', 'a']
def new : WString := wide ['C', ':', '\\', 'B']

/-- A store that holds the old path in another case. -/
def store : IndexStore := IndexStore.empty.applyAdd .c (.ofPath .c (wide ['c', ':', '\\', 'A']) 3 5 0x20)

theorem isFile_attributes (path : WString) : IsFile attributes path := ⟨_, rfl, rfl⟩

theorem renamed_eq_removed_added_iff_store :
    (store.afterRenamed attributes .c old new).pool.livePaths.Perm
      (store.afterRemovedAdded attributes .c old new).pool.livePaths :=
  (renamed_eq_removed_added_iff .c attributes store old new (isFile_attributes new)).2 (by decide)

end RenameWitness

/-- In an empty index the rename of a file leaves no path, the removal and the addition leave the new one. -/
theorem rename_of_unindexed_is_lost :
    IsFile RenameWitness.attributes RenameWitness.new ∧
    ¬(IndexStore.empty.afterRenamed RenameWitness.attributes .c RenameWitness.old RenameWitness.new).pool.livePaths.Perm
      (IndexStore.empty.afterRemovedAdded RenameWitness.attributes .c RenameWitness.old RenameWitness.new).pool.livePaths := by
  decide

end WinIndex
