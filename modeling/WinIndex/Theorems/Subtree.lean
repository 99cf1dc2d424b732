import WinIndex.Lemmas.Scan
import WinIndex.Lib.PathTree
import WinIndex.Theorems.Refinement

/-!
# The removal of a subtree

`RemoveEntriesUnderPath` compares the beginning of each folded path with the folded prefix and its backslash. On components,
what stands between backslashes, that is the relation of an ancestor to what lies below it. The loop changes nothing but
tombstones, and a tombstone does not change what it looks at; so removals may be repeated and exchanged.
-/

namespace WinIndex

open Tombstone Trace

/-! ## Ancestors -/

/-- The components of a path. -/
def components (path : WString) : List WString := path.splitOn backslash

/-- The folder that a prefix stands for: without its last backslash, where it ends in one. -/
def folderOf (pfx : WString) : WString := if pfx.getLast? = some backslash then pfx.dropLast else pfx

/-- Up to case, the components of the folder are those that the path begins with, and the path has more. -/
def IsAncestor (Γ : Locale) (pfx path : WString) : Prop :=
  (components (folderOf pfx)).map Γ.lower <+: (components path).map Γ.lower ∧
    (components (folderOf pfx)).length < (components path).length

instance (Γ : Locale) (pfx path : WString) : Decidable (IsAncestor Γ pfx path) := inferInstanceAs (Decidable (_ ∧ _))

theorem withBackslash_eq_folderOf (pfx : WString) : withBackslash pfx = folderOf pfx ++ [backslash] := by
  unfold withBackslash folderOf
  split
  · rename_i h
    obtain ⟨t, rfl⟩ := List.getLast?_eq_some_iff.1 h
    rw [List.dropLast_concat]
  · rfl

@[simp] theorem withBackslash_withBackslash (pfx : WString) : withBackslash (withBackslash pfx) = withBackslash pfx := by
  have h : (withBackslash pfx).getLast? = some backslash := by
    rw [withBackslash_eq_folderOf]
    exact List.getLast?_concat
  rw [withBackslash, if_pos h]

theorem withBackslash_ne_nil (pfx : WString) : withBackslash pfx ≠ [] := by
  rw [withBackslash_eq_folderOf]
  exact List.append_ne_nil_of_right_ne_nil _ (by simp)

theorem components_lower (Γ : Locale) (path : WString) : components (Γ.lower path) = (components path).map Γ.lower :=
  PathTree.splitOn_map Γ.towlower_backslash path

/-- What the comparison with a prefix tests is whether the prefix is an ancestor. -/
theorem under_iff_isAncestor (Γ : Locale) {pfx : WString} (h : pfx ≠ []) (path : WString) :
    Under Γ pfx path ↔ IsAncestor Γ pfx path := by
  have hlow : Γ.lower pfx ≠ [] := by simpa [Locale.lower] using h
  have hprefix : removalPrefix Γ pfx = Γ.lower (folderOf pfx) ++ [backslash] := by
    rw [removalPrefix, if_pos hlow, ← Γ.lower_withBackslash, withBackslash_eq_folderOf, Γ.lower_append, Γ.lower_backslash]
  have hbelow : Under Γ pfx path ↔ PathTree.Below backslash (Γ.lower (folderOf pfx)) (Γ.lower path) := by
    rw [Under, underPrefix, decide_eq_true_iff, hprefix, PathTree.Below, List.prefix_iff_eq_take]
    exact eq_comm
  rw [hbelow, PathTree.below_iff_splitOn, ← components, ← components, components_lower, components_lower, List.length_map,
    List.length_map, IsAncestor]

/-- A prefix and the same with a backslash remove the same. -/
theorem removalPrefix_withBackslash (Γ : Locale) {pfx : WString} (h : pfx ≠ []) :
    removalPrefix Γ (withBackslash pfx) = removalPrefix Γ pfx := by
  have hlow : Γ.lower pfx ≠ [] := by simpa [Locale.lower] using h
  rw [removalPrefix, removalPrefix, if_pos hlow, Γ.lower_withBackslash, if_pos (withBackslash_ne_nil _),
    withBackslash_withBackslash]

/-! ## The loop -/

/-- The entry with its tombstone set where a test says so. -/
def EntryMeta.deleteIf (b : Bool) (m : EntryMeta) : EntryMeta := { m with deleted := m.deleted || b }

theorem EntryMeta.deleteIf_deleteIf (b b' : Bool) (m : EntryMeta) : (m.deleteIf b).deleteIf b' = m.deleteIf (b || b') := by
  simp [deleteIf, Bool.or_assoc]

/-- Whether the path that the loop finds for an index is under a prefix, live or not. -/
def IndexPool.pathUnderAt (Γ : Locale) (p : IndexPool) (lp : WString) (i : Nat) : Bool :=
  ((p.getPath (UInt32.ofNat i)).map (underPrefix Γ lp)).getD false

/-- The loop sets the tombstone of each entry whose path is found under the prefix. -/
theorem IndexStore.entryMeta_removeEntriesUnderPath (Γ : Locale) (s : IndexStore) (pfx : WString) :
    (s.removeEntriesUnderPath Γ pfx).pool.entryMeta =
      s.pool.entryMeta.mapIdx (fun i m => m.deleteIf (s.pool.pathUnderAt Γ (removalPrefix Γ pfx) i)) := by
  rw [removeEntriesUnderPath]
  refine congrArg (List.mapIdx · s.pool.entryMeta) (funext fun i => funext fun m => ?_)
  show (if !m.deleted && s.pool.pathUnderAt Γ (removalPrefix Γ pfx) i then _ else m) = _
  cases m with
  | mk size lastModified pathOffset nameLowerOffset attributes pathLen nameLowerLen nameStart deleted =>
    cases deleted <;> cases s.pool.pathUnderAt Γ (removalPrefix Γ pfx) i <;> rfl

/-- A removal does not change the paths that the loop finds. -/
theorem IndexStore.pathUnderAt_removeEntriesUnderPath (Γ : Locale) (s : IndexStore) (pfx lp : WString) (i : Nat) :
    (s.removeEntriesUnderPath Γ pfx).pool.pathUnderAt Γ lp i = s.pool.pathUnderAt Γ lp i := by
  have hpath : (s.removeEntriesUnderPath Γ pfx).pool.getPath (UInt32.ofNat i) = s.pool.getPath (UInt32.ofNat i) := by
    rw [IndexPool.getPath, IndexPool.getPath, entryMeta_removeEntriesUnderPath, List.getElem?_mapIdx, Option.map_map]
    rfl
  rw [IndexPool.pathUnderAt, IndexPool.pathUnderAt, hpath]

/-- Two removals, one after the other, set the tombstone of each entry found under one of the prefixes. -/
theorem IndexStore.removeEntriesUnderPath_twice (Γ : Locale) (s : IndexStore) (pfx pfx' : WString) :
    (s.removeEntriesUnderPath Γ pfx).removeEntriesUnderPath Γ pfx' =
      { s with
        pool := { s.pool with
          entryMeta := s.pool.entryMeta.mapIdx (fun i m => m.deleteIf
            (s.pool.pathUnderAt Γ (removalPrefix Γ pfx) i || s.pool.pathUnderAt Γ (removalPrefix Γ pfx') i)) } } := by
  have hmeta : ((s.removeEntriesUnderPath Γ pfx).removeEntriesUnderPath Γ pfx').pool.entryMeta =
      s.pool.entryMeta.mapIdx (fun i m => m.deleteIf
        (s.pool.pathUnderAt Γ (removalPrefix Γ pfx) i || s.pool.pathUnderAt Γ (removalPrefix Γ pfx') i)) := by
    rw [entryMeta_removeEntriesUnderPath, entryMeta_removeEntriesUnderPath, List.mapIdx_mapIdx]
    refine congrArg (List.mapIdx · s.pool.entryMeta) (funext fun i => funext fun m => ?_)
    simp only [Function.comp_apply, pathUnderAt_removeEntriesUnderPath, EntryMeta.deleteIf_deleteIf]
  rw [← hmeta]
  rfl

/-! ## What a removal does as a whole -/

/-- Removing a prefix hits exactly what it is an ancestor of: every entry keeps its fields but the tombstone, which is set if
the prefix is an ancestor of the entry's path and kept otherwise; nothing else changes; a backslash behind the prefix makes no
difference; a second removal does nothing; and removals may be exchanged. -/
structure RemovesSubtree (Γ : Locale) (s : IndexStore) (pfx : WString) : Prop where
  entries : (s.removeEntriesUnderPath Γ pfx).pool.entryMeta =
    s.pool.entryMeta.map (fun m => m.deleteIf (decide (IsAncestor Γ pfx (s.pool.pathView m))))
  nameLowerPool : (s.removeEntriesUnderPath Γ pfx).pool.nameLowerPool = s.pool.nameLowerPool
  pathPool : (s.removeEntriesUnderPath Γ pfx).pool.pathPool = s.pool.pathPool
  usnMap : (s.removeEntriesUnderPath Γ pfx).usnMap = s.usnMap
  stagingBuf : (s.removeEntriesUnderPath Γ pfx).stagingBuf = s.stagingBuf
  slash : s.removeEntriesUnderPath Γ (withBackslash pfx) = s.removeEntriesUnderPath Γ pfx
  again : (s.removeEntriesUnderPath Γ pfx).removeEntriesUnderPath Γ pfx = s.removeEntriesUnderPath Γ pfx
  exchange : ∀ pfx', (s.removeEntriesUnderPath Γ pfx).removeEntriesUnderPath Γ pfx' =
    (s.removeEntriesUnderPath Γ pfx').removeEntriesUnderPath Γ pfx

theorem IndexStore.removeEntriesUnderPath_exchange (Γ : Locale) (s : IndexStore) (pfx pfx' : WString) :
    (s.removeEntriesUnderPath Γ pfx).removeEntriesUnderPath Γ pfx' =
      (s.removeEntriesUnderPath Γ pfx').removeEntriesUnderPath Γ pfx := by
  rw [removeEntriesUnderPath_twice, removeEntriesUnderPath_twice]
  simp only [Bool.or_comm]

theorem IndexStore.removeEntriesUnderPath_again (Γ : Locale) (s : IndexStore) (pfx : WString) :
    (s.removeEntriesUnderPath Γ pfx).removeEntriesUnderPath Γ pfx = s.removeEntriesUnderPath Γ pfx := by
  rw [removeEntriesUnderPath_twice]
  simp only [Bool.or_self]
  rw [← entryMeta_removeEntriesUnderPath]
  rfl

/-- Below 2^32 entries the path that the loop finds for an index is the entry's. -/
theorem IndexPool.pathUnderAt_eq {Γ : Locale} {p : IndexPool} (hcount : p.entryMeta.length ≤ 2 ^ 32) (lp : WString) {i : Nat}
    {m : EntryMeta} (hm : p.entryMeta[i]? = some m) : p.pathUnderAt Γ lp i = underPrefix Γ lp (p.pathView m) := by
  have hi : i < p.entryMeta.length := (List.getElem?_eq_some_iff.1 hm).1
  have hindex : (UInt32.ofNat i).toNat = i := UInt32.toNat_ofNat_of_lt' (Nat.lt_of_lt_of_le hi hcount)
  rw [pathUnderAt, getPath, hindex, hm]
  rfl

/-- In a store of at most 2^32 entries the removal of a prefix that is not empty hits exactly the subtree. -/
theorem removeEntriesUnderPath_removes_subtree (Γ : Locale) (s : IndexStore) (pfx : WString) (hne : pfx ≠ [])
    (hcount : s.pool.entryMeta.length ≤ 2 ^ 32) : RemovesSubtree Γ s pfx where
  entries := by
    rw [IndexStore.entryMeta_removeEntriesUnderPath]
    apply List.ext_getElem?
    intro i
    rw [List.getElem?_mapIdx, List.getElem?_map]
    cases hm : s.pool.entryMeta[i]? with
    | none => rfl
    | some m =>
      have hunder : underPrefix Γ (removalPrefix Γ pfx) (s.pool.pathView m) =
          decide (IsAncestor Γ pfx (s.pool.pathView m)) := by
        rw [Bool.eq_iff_iff, decide_eq_true_iff]
        exact under_iff_isAncestor Γ hne _
      rw [Option.map_some, Option.map_some, IndexPool.pathUnderAt_eq hcount _ hm, hunder]
  nameLowerPool := rfl
  pathPool := rfl
  usnMap := rfl
  stagingBuf := rfl
  slash := by rw [IndexStore.removeEntriesUnderPath, IndexStore.removeEntriesUnderPath, removalPrefix_withBackslash Γ hne]
  again := s.removeEntriesUnderPath_again Γ pfx
  exchange := s.removeEntriesUnderPath_exchange Γ pfx

namespace SubtreeWitness

/-- The file `C:\\a`. -/
def file : FileEntry := .ofPath .c (wide ['C', ':', '\\', 'a']) 3 5 0x20

/-- A store of it and `C:\\ab\\c`. -/
def store : IndexStore :=
  (IndexStore.empty.applyAdd .c file).applyAdd .c (.ofPath .c (wide ['C', ':', '\\', 'a', 'b', '\\', 'c']) 3 5 0x20)

theorem removeEntriesUnderPath_removes_subtree_store : RemovesSubtree .c store (wide ['c', ':', '\\', 'A', 'B']) :=
  removeEntriesUnderPath_removes_subtree .c store (wide ['c', ':', '\\', 'A', 'B']) (by decide) (by decide)

/-- The file, behind a number of entries with empty paths. -/
def outgrown (n : Nat) : IndexStore :=
  final (StoreOp.run .c) .empty (List.replicate n (.applyAdd Outgrown.blank) ++ [.applyAdd file])

theorem entryMeta_outgrown (n : Nat) : (outgrown n).pool.entryMeta =
    List.replicate n (IndexPool.empty.newMeta .c Outgrown.blank) ++ [IndexPool.empty.newMeta .c file] := by
  rw [outgrown, final_append, Outgrown.pool_blank]
  rfl

theorem pathPool_outgrown (n : Nat) : (outgrown n).pool.pathPool = file.path := by
  rw [outgrown, final_append, Outgrown.pool_blank]
  rfl

/-- At the index 2^32 the loop looks at the path of the first entry. -/
theorem pathUnderAt_outgrown {n : Nat} (hn : n = 2 ^ 32) (lp : WString) :
    (outgrown n).pool.pathUnderAt .c lp n = underPrefix .c lp [] := by
  have hzero : (UInt32.ofNat n).toNat = 0 := by rw [UInt32.toNat_ofNat', hn, Nat.mod_self]
  have hpos : 0 < n := by omega
  have hpath : (outgrown n).pool.getPath (UInt32.ofNat n) = some [] := by
    rw [IndexPool.getPath, hzero, entryMeta_outgrown, List.getElem?_append_left (by rwa [List.length_replicate]),
      List.getElem?_replicate_of_lt hpos]
    rfl
  rw [IndexPool.pathUnderAt, hpath]
  rfl

theorem getElem?_outgrown (n : Nat) : (outgrown n).pool.entryMeta[n]? = some (IndexPool.empty.newMeta .c file) := by
  rw [entryMeta_outgrown, List.getElem?_append_right (by simp), List.length_replicate, Nat.sub_self]
  rfl

/-- So the file survives the removal of its folder. -/
theorem not_removesSubtree_outgrown {n : Nat} (hn : n = 2 ^ 32) : ¬RemovesSubtree .c (outgrown n) (wide ['C', ':']) := by
  intro h
  have hmeta := congrArg (fun l => l[n]?) (h.entries.symm.trans (IndexStore.entryMeta_removeEntriesUnderPath _ _ _))
  simp only [List.getElem?_map, List.getElem?_mapIdx, getElem?_outgrown, Option.map_some, Option.some.injEq,
    pathUnderAt_outgrown hn] at hmeta
  have hdeleted := congrArg EntryMeta.deleted hmeta
  rw [IndexPool.pathView, pathPool_outgrown] at hdeleted
  exact absurd hdeleted (by decide)

end SubtreeWitness

/-- Behind 2^32 entries with empty paths, a file on `C:` survives the removal of `C:`. -/
theorem removal_misses_outgrown : ¬RemovesSubtree .c (SubtreeWitness.outgrown (2 ^ 32)) (wide ['C', ':']) :=
  SubtreeWitness.not_removesSubtree_outgrown rfl

end WinIndex
