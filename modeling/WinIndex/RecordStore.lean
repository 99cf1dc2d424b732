import WinIndex.IndexStore

/-!
# What the store is for: a list of records

The abstract store keeps a log of records with tombstones and a staged list of entries, and says what each mutation means
without pools, offsets or lengths. `IndexPool.layout` is the flat pool that holds a given log: every text at the sum of the
lengths before it. It determines the pool, so the abstract store and the flat one go through the same states.
-/

namespace WinIndex

open Segments Tombstone

/-- The abstract store. -/
structure RecordStore where
  records : List (Cell Record)
  staged : List FileEntry

/-- An empty abstract store. -/
def RecordStore.empty : RecordStore := ⟨[], []⟩

/-- The live record of a scanned entry. -/
def FileEntry.cell (e : FileEntry) : Cell Record := ⟨e.record, true⟩

/-- What each mutation of the store means. -/
def RecordStore.step (Γ : Locale) (a : RecordStore) : StoreOp → RecordStore
  | .beginWrite => { a with staged := [] }
  | .addEntry e => { a with staged := a.staged ++ [e] }
  | .endWrite => ⟨a.staged.map FileEntry.cell, []⟩
  | .applyAdd e => { a with records := add a.records e.record }
  | .applyRemove path => { a with records := killFirst (samePath Γ (Γ.lower path)) a.records }
  | .applyRename oldPath newPath =>
    match (lives a.records).find? (samePath Γ (Γ.lower oldPath)) with
    | some r =>
      { a with records := add (killFirst (samePath Γ (Γ.lower oldPath)) a.records) { r with path := newPath } }
    | none => a
  | .removeEntriesUnderPath pfx => { a with records := killAll (underRecord Γ pfx) a.records }

theorem RecordStore.step_staged_applyRename (Γ : Locale) (a : RecordStore) (oldPath newPath : WString) :
    (a.step Γ (.applyRename oldPath newPath)).staged = a.staged := by
  simp only [step]
  split <;> rfl

/-- An added entry is named as the scanners and the live updates name it: its name is its path's last component, its
lowercased name the folded name or left empty. -/
structure FileEntry.WellNamed (Γ : Locale) (e : FileEntry) : Prop where
  name : e.name = nameOf e.path
  nameLower : e.nameLower = Γ.lower e.name ∨ e.nameLower = []

/-- The entries a mutation adds are well named. -/
def StoreOp.WellNamed (Γ : Locale) : StoreOp → Prop
  | .addEntry e => e.WellNamed Γ
  | .applyAdd e => e.WellNamed Γ
  | _ => True

instance (Γ : Locale) (e : FileEntry) : Decidable (e.WellNamed Γ) :=
  decidable_of_iff (e.name = nameOf e.path ∧ (e.nameLower = Γ.lower e.name ∨ e.nameLower = []))
    ⟨fun h => ⟨h.1, h.2⟩, fun h => ⟨h.1, h.2⟩⟩

instance (Γ : Locale) : (op : StoreOp) → Decidable (op.WellNamed Γ)
  | .addEntry e => inferInstanceAs (Decidable (e.WellNamed Γ))
  | .applyAdd e => inferInstanceAs (Decidable (e.WellNamed Γ))
  | .beginWrite | .endWrite | .applyRemove _ | .applyRename _ _ | .removeEntriesUnderPath _ => .isTrue trivial

/-! ## The layout of a log -/

/-- The paths of a log, tombstoned ones included. -/
def paths (cs : List (Cell Record)) : List WString := cs.map (fun c => c.val.path)

/-- The folded names of a log. -/
def lowerNames (Γ : Locale) (cs : List (Cell Record)) : List WString := cs.map (fun c => Γ.lower (nameOf c.val.path))

/-- The metadata record of a cell whose path and folded name start at the given offsets. -/
def layoutMeta (c : Cell Record) (pathOffset nameLowerOffset : Nat) : EntryMeta where
  size := c.val.size
  lastModified := c.val.lastModified
  pathOffset := UInt32.ofNat pathOffset
  nameLowerOffset := UInt32.ofNat nameLowerOffset
  attributes := c.val.attributes
  pathLen := UInt16.ofNat c.val.path.length
  nameLowerLen := UInt16.ofNat (nameOf c.val.path).length
  nameStart := UInt16.ofNat (nameStart c.val.path)
  deleted := !c.live

/-- The flat pool that holds a log. -/
def IndexPool.layout (Γ : Locale) (cs : List (Cell Record)) : IndexPool where
  entryMeta := cs.mapIdx (fun i c => layoutMeta c (offset (paths cs) i) (offset (lowerNames Γ cs) i))
  nameLowerPool := (lowerNames Γ cs).flatten
  pathPool := (paths cs).flatten

/-- The texts of a log fit the narrow fields of a pool: each path 16 bits, all of them together 32. -/
structure LogTexts (cs : List (Cell Record)) : Prop where
  path : ∀ c ∈ cs, c.val.path.length < 2 ^ 16
  pool : (paths cs).flatten.length < 2 ^ 32

/-- A log that a pool can address: its texts fit, and there is an index of 32 bits for each entry. -/
structure LogFits (cs : List (Cell Record)) : Prop extends LogTexts cs where
  count : cs.length ≤ 2 ^ 32

instance (cs : List (Cell Record)) : Decidable (LogFits cs) :=
  decidable_of_iff ((∀ c ∈ cs, c.val.path.length < 2 ^ 16) ∧ (paths cs).flatten.length < 2 ^ 32 ∧ cs.length ≤ 2 ^ 32)
    ⟨fun h => ⟨⟨h.1, h.2.1⟩, h.2.2⟩, fun h => ⟨h.path, h.pool, h.count⟩⟩

@[simp] theorem IndexPool.length_layout (Γ : Locale) (cs : List (Cell Record)) :
    (layout Γ cs).entryMeta.length = cs.length := List.length_mapIdx

theorem IndexPool.getElem?_layout (Γ : Locale) (cs : List (Cell Record)) (i : Nat) :
    (layout Γ cs).entryMeta[i]? =
      cs[i]?.map (fun c => layoutMeta c (offset (paths cs) i) (offset (lowerNames Γ cs) i)) := List.getElem?_mapIdx

@[simp] theorem IndexPool.layout_pathPool (Γ : Locale) (cs : List (Cell Record)) :
    (layout Γ cs).pathPool = (paths cs).flatten := rfl

@[simp] theorem IndexPool.layout_nameLowerPool (Γ : Locale) (cs : List (Cell Record)) :
    (layout Γ cs).nameLowerPool = (lowerNames Γ cs).flatten := rfl

@[simp] theorem length_paths (cs : List (Cell Record)) : (paths cs).length = cs.length := List.length_map _
@[simp] theorem length_lowerNames (Γ : Locale) (cs : List (Cell Record)) : (lowerNames Γ cs).length = cs.length :=
  List.length_map _

@[simp] theorem getElem_paths (cs : List (Cell Record)) (i : Nat) (h : i < (paths cs).length) :
    (paths cs)[i] = (cs.get ⟨i, by simpa using h⟩).val.path := List.getElem_map _

@[simp] theorem getElem_lowerNames (Γ : Locale) (cs : List (Cell Record)) (i : Nat) (h : i < (lowerNames Γ cs).length) :
    (lowerNames Γ cs)[i] = Γ.lower (nameOf (cs.get ⟨i, by simpa using h⟩).val.path) := List.getElem_map _

/-- A folded name is no longer than its path. -/
theorem length_lowerNames_flatten_le (Γ : Locale) (cs : List (Cell Record)) :
    (lowerNames Γ cs).flatten.length ≤ (paths cs).flatten.length := by
  induction cs with
  | nil => exact Nat.le_refl _
  | cons c cs ih =>
    simp only [lowerNames, paths, List.map_cons, List.flatten_cons, List.length_append, Locale.length_lower,
      length_nameOf] at ih ⊢
    omega

end WinIndex
