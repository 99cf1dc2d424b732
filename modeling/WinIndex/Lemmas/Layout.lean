import WinIndex.RecordStore

/-!
# The layout of a log

The pool that `IndexPool.layout` gives follows the mutations: adding a well-named entry to it is laying out one more record,
a tombstone moves nothing. What its accessors return is what the records say.
-/

namespace WinIndex

open Segments Tombstone

/-! ## The layout follows the mutations -/

/-- The folded name `AddEntry` stores for a well-named entry is the folded last component of its path. -/
theorem FileEntry.WellNamed.lowerName_eq {Γ : Locale} {e : FileEntry} (h : e.WellNamed Γ) (hp : e.path.length < 2 ^ 16) :
    e.lowerName Γ = Γ.lower (nameOf e.path) := by
  unfold lowerName
  rcases h.nameLower with hl | hl
  · by_cases hn : e.nameLower = []
    · have hnil : nameOf e.path = [] := by
        rw [← h.name]
        exact List.map_eq_nil_iff.1 (hl ▸ hn)
      have hs : (UInt16.ofNat (nameStart e.path)).toNat = nameStart e.path :=
        UInt16.toNat_ofNat_of_lt' (Nat.lt_of_le_of_lt (nameStart_le _) hp)
      rw [nameOf_eq_drop] at hnil
      rw [if_neg (by simpa using hn), if_pos (by rw [h.name, nameOf_eq_drop, hnil])]
      simp only [slice, hs, hnil, nameOf_eq_drop, List.take_nil]
    · rw [if_pos hn, hl, h.name]
  · rw [if_neg (by simpa using hl)]
    by_cases hn : e.name = []
    · have hnil : e.path.drop (nameStart e.path) = [] := by rw [← nameOf_eq_drop, ← h.name, hn]
      have hs : (UInt16.ofNat (nameStart e.path)).toNat = nameStart e.path :=
        UInt16.toNat_ofNat_of_lt' (Nat.lt_of_le_of_lt (nameStart_le _) hp)
      rw [if_pos hn]
      simp only [slice, hs, hnil, nameOf_eq_drop, List.take_nil]
    · rw [if_neg hn, h.name]

/-- Adding a well-named entry to the layout of a log gives the layout of the log with the entry's record. -/
theorem IndexPool.addEntry_layout {Γ : Locale} (cs : List (Cell Record)) {e : FileEntry} (h : e.WellNamed Γ)
    (hp : e.path.length < 2 ^ 16) : (layout Γ cs).addEntry Γ e = layout Γ (add cs e.record) := by
  have hps : paths (add cs e.record) = paths cs ++ [e.path] := by simp [paths, add]
  have hns : lowerNames Γ (add cs e.record) = lowerNames Γ cs ++ [Γ.lower (nameOf e.path)] := by simp [lowerNames, add]
  have hm : (layout Γ (add cs e.record)).entryMeta = (layout Γ cs).entryMeta ++ [(layout Γ cs).newMeta Γ e] := by
    apply List.ext_getElem?
    intro i
    rw [getElem?_layout, hps, hns, add]
    rcases Nat.lt_trichotomy i cs.length with hi | hi | hi
    · rw [List.getElem?_append_left hi, List.getElem?_append_left (by simpa using hi), getElem?_layout,
        offset_append _ (by simpa using hi.le), offset_append _ (by simpa using hi.le)]
    · have ho : offset (paths cs ++ [e.path]) cs.length = (paths cs).flatten.length := by
        rw [offset_append _ (by simp), ← length_paths cs, offset_length]
      have ho' : offset (lowerNames Γ cs ++ [Γ.lower (nameOf e.path)]) cs.length = (lowerNames Γ cs).flatten.length := by
        rw [offset_append _ (by simp), ← length_lowerNames Γ cs, offset_length]
      subst hi
      rw [ho, ho']
      simp [layoutMeta, newMeta, layout, FileEntry.record, h.lowerName_eq hp]
    · rw [List.getElem?_eq_none (by simp; omega), List.getElem?_eq_none (by simp; omega)]
      rfl
  have hn : (layout Γ (add cs e.record)).nameLowerPool = (layout Γ cs).nameLowerPool ++ e.lowerName Γ := by
    simp only [layout, hns, List.flatten_append, List.flatten_singleton, h.lowerName_eq hp]
  have hpp : (layout Γ (add cs e.record)).pathPool = (layout Γ cs).pathPool ++ e.path := by
    simp only [layout, hps, List.flatten_append, List.flatten_singleton]
  rw [addEntry, ← hm, ← hn, ← hpp]

/-- The two arrays of a layout depend on the values of the log only. -/
theorem paths_congr {cs cs' : List (Cell Record)} (h : cs'.map Cell.val = cs.map Cell.val) : paths cs' = paths cs := by
  have hp : ∀ l : List (Cell Record), paths l = (l.map Cell.val).map Record.path := fun l => by simp [paths]
  rw [hp, hp, h]

theorem lowerNames_congr {Γ : Locale} {cs cs' : List (Cell Record)} (h : cs'.map Cell.val = cs.map Cell.val) :
    lowerNames Γ cs' = lowerNames Γ cs := by
  have hp : ∀ l : List (Cell Record), lowerNames Γ l = (l.map Cell.val).map (fun r => Γ.lower (nameOf r.path)) :=
    fun l => by simp [lowerNames]
  rw [hp, hp, h]

/-- A pool is the layout of a log with the same values when its arrays are untouched and its metadata is that of the log. -/
theorem IndexPool.eq_layout {Γ : Locale} {cs cs' : List (Cell Record)} (h : cs'.map Cell.val = cs.map Cell.val)
    {ms : List EntryMeta}
    (hm : ∀ i, ms[i]? = cs'[i]?.map (fun c => layoutMeta c (offset (paths cs) i) (offset (lowerNames Γ cs) i))) :
    { layout Γ cs with entryMeta := ms } = layout Γ cs' := by
  have hps := paths_congr h
  have hns := lowerNames_congr (Γ := Γ) h
  have hms : ms = (layout Γ cs').entryMeta := by
    apply List.ext_getElem?
    intro i
    rw [hm, getElem?_layout, hps, hns]
  rw [hms]
  simp only [layout, hps, hns]

/-- A tombstone moves nothing. -/
theorem IndexPool.markDeleted_layout (Γ : Locale) (cs : List (Cell Record)) (i : Nat) :
    (layout Γ cs).markDeleted i = layout Γ (killAt i cs) := by
  refine eq_layout (map_val_killAt i cs) ?_
  intro j
  rw [List.getElem?_modify, getElem?_layout, killAt, List.getElem?_modify]
  cases cs[j]? with
  | none => rfl
  | some c => by_cases h : i = j <;> simp [h, layoutMeta]

/-! ## What a layout says -/

/-- The offsets of a log that fits are those of its layout, and the lengths too. -/
theorem layoutMeta_path {cs : List (Cell Record)} (h : LogTexts cs) {i : Nat} (hi : i < cs.length) (k : Nat) :
    (layoutMeta cs[i] (offset (paths cs) i) k).pathOffset.toNat = offset (paths cs) i ∧
      (layoutMeta cs[i] (offset (paths cs) i) k).pathLen.toNat = cs[i].val.path.length ∧
      (layoutMeta cs[i] (offset (paths cs) i) k).nameStart.toNat = nameStart cs[i].val.path := by
  have hp := h.path cs[i] (List.getElem_mem hi)
  have ho := offset_add_length_le (paths cs) (i := i) (by simpa using hi)
  have hl := h.pool
  refine ⟨UInt32.toNat_ofNat_of_lt' (show _ < 2 ^ 32 by omega), UInt16.toNat_ofNat_of_lt' hp, ?_⟩
  exact UInt16.toNat_ofNat_of_lt' (Nat.lt_of_le_of_lt (nameStart_le _) hp)

theorem layoutMeta_nameLower {Γ : Locale} {cs : List (Cell Record)} (h : LogTexts cs) {i : Nat} (hi : i < cs.length)
    (k : Nat) :
    (layoutMeta cs[i] k (offset (lowerNames Γ cs) i)).nameLowerOffset.toNat = offset (lowerNames Γ cs) i ∧
      (layoutMeta cs[i] k (offset (lowerNames Γ cs) i)).nameLowerLen.toNat = (nameOf cs[i].val.path).length := by
  have hp := h.path cs[i] (List.getElem_mem hi)
  have ho := offset_add_length_le (lowerNames Γ cs) (i := i) (by simpa using hi)
  have hl := h.pool
  have hle := length_lowerNames_flatten_le Γ cs
  refine ⟨UInt32.toNat_ofNat_of_lt' (show _ < 2 ^ 32 by omega), UInt16.toNat_ofNat_of_lt' (show _ < 2 ^ 16 from ?_)⟩
  rw [length_nameOf]
  omega

variable {Γ : Locale} {cs : List (Cell Record)}

/-- The metadata of a layout at an index inside the log. -/
theorem IndexPool.getElem?_layout_of_lt (Γ : Locale) {i : Nat} (hi : i < cs.length) :
    (layout Γ cs).entryMeta[i]? = some (layoutMeta cs[i] (offset (paths cs) i) (offset (lowerNames Γ cs) i)) := by
  rw [getElem?_layout, List.getElem?_eq_getElem hi]
  rfl

/-- The path of a record is the text at its offset. -/
theorem IndexPool.pathView_layout (h : LogTexts cs) {i : Nat} (hi : i < cs.length) (k : Nat) :
    (layout Γ cs).pathView (layoutMeta cs[i] (offset (paths cs) i) k) = cs[i].val.path := by
  obtain ⟨ho, hl, -⟩ := layoutMeta_path h hi k
  have hs := slice_flatten (paths cs) (i := i) (by simpa using hi)
  rw [pathView, ho, hl]
  simpa using hs

/-- The name of a record is the tail of that text. -/
theorem IndexPool.nameView_layout (h : LogTexts cs) {i : Nat} (hi : i < cs.length) (k : Nat) :
    (layout Γ cs).nameView (layoutMeta cs[i] (offset (paths cs) i) k) = nameOf cs[i].val.path := by
  obtain ⟨ho, hl, hn⟩ := layoutMeta_path h hi k
  have hle : nameStart cs[i].val.path ≤ cs[i].val.path.length := nameStart_le _
  have hp : (layout Γ cs).pathView (layoutMeta cs[i] (offset (paths cs) i) k) = cs[i].val.path := pathView_layout h hi k
  rw [pathView, ho, hl] at hp
  rw [nameView, subSizeT_eq (by omega), ho, hl, hn, ← drop_slice, hp, nameOf_eq_drop]

/-- The folded name of a record is the text at its offset in the other array. -/
theorem IndexPool.nameLowerView_layout (h : LogTexts cs) {i : Nat} (hi : i < cs.length) (k : Nat) :
    (layout Γ cs).nameLowerView (layoutMeta cs[i] k (offset (lowerNames Γ cs) i)) = Γ.lower (nameOf cs[i].val.path) := by
  obtain ⟨ho, hl⟩ := layoutMeta_nameLower h hi k
  have hs := slice_flatten (lowerNames Γ cs) (i := i) (by simpa using hi)
  rw [nameLowerView, ho, hl]
  simpa using hs

/-- The layout of a log that fits has the records of the log. -/
theorem IndexPool.records_layout (h : LogTexts cs) : (layout Γ cs).records = cs := by
  apply List.ext_getElem?
  intro i
  rw [getElem?_records]
  by_cases hi : i < cs.length
  · rw [getElem?_layout_of_lt Γ hi, List.getElem?_eq_getElem hi]
    simp only [Option.map_some, cellOf, recordOf, pathView_layout h hi]
    simp [layoutMeta]
  · rw [List.getElem?_eq_none (by simpa using Nat.le_of_not_lt hi), List.getElem?_eq_none (by omega)]
    rfl

/-- The metadata of a layout is that of its records. -/
theorem IndexPool.mem_layout {m : EntryMeta} (hm : m ∈ (layout Γ cs).entryMeta) :
    ∃ (i : Nat) (hi : i < cs.length), m = layoutMeta cs[i] (offset (paths cs) i) (offset (lowerNames Γ cs) i) := by
  obtain ⟨i, hm⟩ := List.mem_iff_getElem?.1 hm
  have hi : i < cs.length := by
    by_contra hn
    rw [List.getElem?_eq_none (by simpa using Nat.le_of_not_lt hn)] at hm
    cases hm
  rw [getElem?_layout_of_lt Γ hi, Option.some.injEq] at hm
  exact ⟨i, hi, hm.symm⟩

/-- Every view of the layout of a log that fits lies inside it. -/
theorem IndexPool.wellFormed_layout (h : LogTexts cs) : (layout Γ cs).WellFormed := by
  intro m hm
  obtain ⟨i, hi, rfl⟩ := mem_layout hm
  obtain ⟨ho, hl, hn⟩ := layoutMeta_path h hi (offset (lowerNames Γ cs) i)
  obtain ⟨ho', hl'⟩ := layoutMeta_nameLower (Γ := Γ) h hi (offset (paths cs) i)
  have hb := offset_add_length_le (paths cs) (i := i) (by simpa using hi)
  have hb' := offset_add_length_le (lowerNames Γ cs) (i := i) (by simpa using hi)
  refine ⟨?_, ?_, ?_⟩
  · rw [ho, hl]
    simpa using hb
  · rw [hn, hl]
    exact nameStart_le _
  · have e : (layoutMeta cs[i] (offset (paths cs) i) (offset (lowerNames Γ cs) i)).nameLowerOffset.toNat =
        offset (lowerNames Γ cs) i := ho'
    have e' : (layoutMeta cs[i] (offset (paths cs) i) (offset (lowerNames Γ cs) i)).nameLowerLen.toNat =
        (nameOf cs[i].val.path).length := hl'
    rw [e, e']
    simpa using hb'

theorem IndexPool.sound_layout (h : LogFits cs) : (layout Γ cs).Sound :=
  ⟨(wellFormed_layout h.toLogTexts).pathsIn, by simpa using h.count⟩

/-! ## The other mutations -/

/-- Building a pool from the staged entries lays their records out. -/
theorem IndexPool.ofEntries_layout {es : List FileEntry} (hw : ∀ e ∈ es, e.WellNamed Γ)
    (hp : ∀ e ∈ es, e.path.length < 2 ^ 16) : ofEntries Γ es = layout Γ (es.map FileEntry.cell) := by
  induction es using List.reverseRecOn with
  | nil => rfl
  | append_singleton es e ih =>
    have ih' := ih (fun x hx => hw x (by simp [hx])) (fun x hx => hp x (by simp [hx]))
    rw [ofEntries, List.foldl_append, List.foldl_cons, List.foldl_nil, ← ofEntries, ih',
      addEntry_layout _ (hw e (by simp)) (hp e (by simp)), List.map_append]
    rfl

/-- The entry a rename adds is well named. -/
theorem wellNamed_renamedEntry (Γ : Locale) (om : EntryMeta) (newPath : WString) :
    (renamedEntry Γ om newPath).WellNamed Γ := ⟨rfl, .inl rfl⟩

/-- `ApplyRemove` on the layout of a log kills its first live record with the path. -/
theorem IndexStore.applyRemove_layout {s : IndexStore} (h : LogFits cs) (hs : s.pool = .layout Γ cs) (path : WString) :
    (s.applyRemove Γ path).pool = .layout Γ (killFirst (samePath Γ (Γ.lower path)) cs) := by
  have hf : s.pool.firstMatch Γ (Γ.lower path) = findLive (samePath Γ (Γ.lower path)) cs := by
    rw [hs, (IndexPool.sound_layout h).firstMatch_eq, IndexPool.records_layout h.toLogTexts]
  rw [applyRemove, killFirst, hf]
  cases findLive (samePath Γ (Γ.lower path)) cs with
  | none => exact hs
  | some i =>
    rw [← IndexPool.markDeleted_layout, ← hs]

/-- `ApplyRename` on the layout of a log without a live record of the old path changes nothing. -/
theorem IndexStore.applyRename_layout_none {s : IndexStore} (h : LogFits cs) (hs : s.pool = .layout Γ cs)
    {oldPath newPath : WString} (hr : (lives cs).find? (samePath Γ (Γ.lower oldPath)) = none) :
    (s.applyRename Γ oldPath newPath).pool = .layout Γ cs := by
  have hf : s.pool.firstMatch Γ (Γ.lower oldPath) = findLive (samePath Γ (Γ.lower oldPath)) cs := by
    rw [hs, (IndexPool.sound_layout h).firstMatch_eq, IndexPool.records_layout h.toLogTexts]
  rw [← findLive_val] at hr
  rw [applyRename, hf]
  cases hl : findLive (samePath Γ (Γ.lower oldPath)) cs with
  | none => exact hs
  | some i =>
    rw [hl, Option.bind_some, List.getElem?_eq_getElem (findLive_lt hl)] at hr
    cases hr

/-- Otherwise it kills the first one, and lays out the record under the new path. -/
theorem IndexStore.applyRename_layout_some {s : IndexStore} (h : LogFits cs) (hs : s.pool = .layout Γ cs)
    {oldPath newPath : WString} {r : Record} (hr : (lives cs).find? (samePath Γ (Γ.lower oldPath)) = some r)
    (hn : newPath.length < 2 ^ 16) :
    (s.applyRename Γ oldPath newPath).pool =
      .layout Γ (add (killFirst (samePath Γ (Γ.lower oldPath)) cs) { r with path := newPath }) := by
  have hf : s.pool.firstMatch Γ (Γ.lower oldPath) = findLive (samePath Γ (Γ.lower oldPath)) cs := by
    rw [hs, (IndexPool.sound_layout h).firstMatch_eq, IndexPool.records_layout h.toLogTexts]
  rw [← findLive_val] at hr
  rw [applyRename, hf, killFirst]
  cases hl : findLive (samePath Γ (Γ.lower oldPath)) cs with
  | none =>
    rw [hl] at hr
    cases hr
  | some i =>
    have hi : i < cs.length := findLive_lt hl
    rw [hl, Option.bind_some, List.getElem?_eq_getElem hi, Option.map_some, Option.some.injEq] at hr
    have hm := IndexPool.getElem?_layout_of_lt Γ hi
    rw [← hs] at hm
    simp only [hm]
    rw [hs, IndexPool.markDeleted_layout,
      IndexPool.addEntry_layout _ (wellNamed_renamedEntry Γ _ newPath) (by simpa [renamedEntry] using hn), ← hr]
    rfl

/-- `RemoveEntriesUnderPath` on the layout of a log kills every live record under the prefix. -/
theorem IndexStore.removeEntriesUnderPath_layout {s : IndexStore} (h : LogFits cs) (hs : s.pool = .layout Γ cs)
    (pfx : WString) : (s.removeEntriesUnderPath Γ pfx).pool = .layout Γ (killAll (underRecord Γ pfx) cs) := by
  rw [removeEntriesUnderPath, hs]
  refine IndexPool.eq_layout (map_val_killAll _ cs) ?_
  intro i
  rw [List.getElem?_mapIdx, killAll, List.getElem?_map]
  by_cases hi : i < cs.length
  · have hu : (IndexPool.layout Γ cs).underAt Γ (removalPrefix Γ pfx) i
        (layoutMeta cs[i] (offset (paths cs) i) (offset (lowerNames Γ cs) i)) = cs[i].hit (underRecord Γ pfx) := by
      have hlt : i < (IndexPool.layout Γ cs).entryMeta.length := by simpa using hi
      have hg := (List.getElem?_eq_getElem hlt).symm.trans (IndexPool.getElem?_layout_of_lt Γ hi)
      rw [Option.some.injEq] at hg
      rw [IndexPool.underAt, (IndexPool.sound_layout h).getPath_ofNat hlt, hg, IndexPool.pathView_layout h.toLogTexts hi]
      simp [layoutMeta, Cell.hit, underRecord]
    rw [IndexPool.getElem?_layout_of_lt Γ hi, List.getElem?_eq_getElem hi]
    simp only [Option.map_some, hu]
    cases cs[i].hit (underRecord Γ pfx) <;> simp [layoutMeta]
  · rw [List.getElem?_eq_none (by simpa using Nat.le_of_not_lt hi), List.getElem?_eq_none (by omega)]
    rfl

end WinIndex
