import WinIndex.IndexStore
import WinIndex.Lib.Trace

/-!
# The 32-bit offsets over a long run

The two arrays of a pool only grow: a removed entry and the earlier text of a modified one stay. `TrackedStore` keeps beside
the store what each entry was added as, and `Right` says that the accessors give it back. An entry that is added when an array
has reached `2 ^ 32` characters is stored at a wrapped offset, and reads as whatever stands there.
-/

namespace WinIndex

open Segments Trace

/-- A store, with the entry that each record of its pool was added as. -/
structure TrackedStore where
  store : IndexStore
  added : List FileEntry

/-- A tracked store as constructed. -/
def TrackedStore.empty : TrackedStore := ⟨.empty, []⟩

/-- What `ApplyRename` adds: the entry under its new name, or nothing. -/
def IndexStore.renamedEntries (Γ : Locale) (s : IndexStore) (oldPath newPath : WString) : List FileEntry :=
  match s.pool.firstMatch Γ (Γ.lower oldPath) with
  | some i =>
    match s.pool.entryMeta[i]? with
    | some om => [renamedEntry Γ om newPath]
    | none => []
  | none => []

/-- A mutation, and what it adds. -/
def TrackedStore.step (Γ : Locale) (t : TrackedStore) (op : StoreOp) : TrackedStore where
  store := op.run Γ t.store
  added :=
    match op with
    | .endWrite => t.store.stagingBuf
    | .applyAdd e => t.added ++ [e]
    | .applyRename oldPath newPath => t.added ++ t.store.renamedEntries Γ oldPath newPath
    | .beginWrite | .addEntry _ | .applyRemove _ | .removeEntriesUnderPath _ => t.added

/-- `GetPath` and `GetNameLower` give, for every live entry, the path and the folded name it was added with. -/
def IndexPool.ReadsAs (Γ : Locale) (p : IndexPool) (added : List FileEntry) : Prop :=
  ∀ (idx : UInt32) (m : EntryMeta), p.entryMeta[idx.toNat]? = some m → m.deleted = false →
    p.getPath idx = added[idx.toNat]?.map FileEntry.path ∧
      p.getNameLower idx = added[idx.toNat]?.map (FileEntry.lowerName Γ)

/-- The published pool reads as what was added. -/
def TrackedStore.Right (Γ : Locale) (t : TrackedStore) : Prop := t.store.pool.ReadsAs Γ t.added

/-! ## One text appended to an array -/

/-- The text that is read back after it was appended to an array: its offset wraps at `2 ^ 32`, its length at `2 ^ 16`. -/
def storedText (array text : List WChar) : List WChar :=
  slice (array ++ text) (array.length % 2 ^ 32) (text.length % 2 ^ 16)

/-- A text that fits is read back as it is. -/
theorem storedText_of_fits {array text : List WChar} (ha : array.length < 2 ^ 32) (ht : text.length < 2 ^ 16) :
    storedText array text = text := by
  rw [storedText, Nat.mod_eq_of_lt ha, Nat.mod_eq_of_lt ht]
  exact slice_append_self _ _

/-- An entry added as number `count` to the two arrays is read back as it is, or no accessor reaches it. -/
def StoredRight (Γ : Locale) (count : Nat) (pathPool nameLowerPool : List WChar) (e : FileEntry) : Prop :=
  2 ^ 32 ≤ count ∨ storedText pathPool e.path = e.path ∧ storedText nameLowerPool (e.lowerName Γ) = e.lowerName Γ

/-- Every view of a record lies inside the arrays, and each record has the entry it was added as. -/
structure IndexPool.Tracks (p : IndexPool) (added : List FileEntry) : Prop where
  count : added.length = p.entryMeta.length
  path : ∀ m ∈ p.entryMeta, m.pathOffset.toNat + m.pathLen.toNat ≤ p.pathPool.length
  nameLower : ∀ m ∈ p.entryMeta, m.nameLowerOffset.toNat + m.nameLowerLen.toNat ≤ p.nameLowerPool.length

theorem IndexPool.tracks_empty : IndexPool.empty.Tracks [] := ⟨rfl, nofun, nofun⟩

variable {Γ : Locale} {p : IndexPool} {added : List FileEntry}

/-- `AddEntry` keeps every view inside the arrays, wrapped or not. -/
theorem IndexPool.Tracks.addEntry (h : p.Tracks added) (e : FileEntry) : (p.addEntry Γ e).Tracks (added ++ [e]) := by
  refine ⟨by simp [h.count, IndexPool.addEntry], pathsIn_addEntry e h.path, ?_⟩
  intro m hm
  have hl : (p.addEntry Γ e).nameLowerPool.length = p.nameLowerPool.length + (e.lowerName Γ).length := List.length_append
  rcases List.mem_append.1 hm with hm | hm
  · have := h.nameLower m hm
    omega
  · rw [List.mem_singleton] at hm
    subst hm
    simp only [newMeta, UInt32.toNat_ofNat', UInt16.toNat_ofNat']
    have h1 := Nat.mod_le p.nameLowerPool.length (2 ^ 32)
    have h2 := Nat.mod_le (e.lowerName Γ).length (2 ^ 16)
    omega

/-- The entries there read as before, and the new one as what its offsets find. -/
theorem IndexPool.views_addEntry (h : p.Tracks added) (e : FileEntry) :
    (∀ m ∈ p.entryMeta, (p.addEntry Γ e).pathView m = p.pathView m ∧ (p.addEntry Γ e).nameLowerView m = p.nameLowerView m) ∧
      (p.addEntry Γ e).pathView (p.newMeta Γ e) = storedText p.pathPool e.path ∧
      (p.addEntry Γ e).nameLowerView (p.newMeta Γ e) = storedText p.nameLowerPool (e.lowerName Γ) := by
  refine ⟨?_, ?_, ?_⟩
  · intro m hm
    exact ⟨slice_append_left _ (h.path m hm), slice_append_left _ (h.nameLower m hm)⟩
  · simp only [pathView, newMeta, UInt32.toNat_ofNat', UInt16.toNat_ofNat']
    rfl
  · simp only [nameLowerView, newMeta, UInt32.toNat_ofNat', UInt16.toNat_ofNat']
    rfl

/-- A pool with one entry more reads right exactly when it did before and the entry is stored right. -/
theorem IndexPool.readsAs_addEntry (h : p.Tracks added) (e : FileEntry) :
    (p.addEntry Γ e).ReadsAs Γ (added ++ [e]) ↔
      p.ReadsAs Γ added ∧ StoredRight Γ p.entryMeta.length p.pathPool p.nameLowerPool e := by
  obtain ⟨hold, hpath, hname⟩ := views_addEntry (Γ := Γ) h e
  have hcount := h.count
  have hgetOld : ∀ i, i < p.entryMeta.length → (p.addEntry Γ e).entryMeta[i]? = p.entryMeta[i]? := by
    intro i hi
    exact List.getElem?_append_left hi
  have hgetNew : (p.addEntry Γ e).entryMeta[p.entryMeta.length]? = some (p.newMeta Γ e) := by
    show (p.entryMeta ++ [p.newMeta Γ e])[p.entryMeta.length]? = _
    simp
  have haddedNew : (added ++ [e])[p.entryMeta.length]? = some e := by
    rw [← h.count]
    simp
  constructor
  · intro hr
    constructor
    · intro idx m hm hlive
      have hi : idx.toNat < p.entryMeta.length := (List.getElem?_eq_some_iff.1 hm).1
      have hmem := hold m (List.mem_of_getElem? hm)
      have := hr idx m ((hgetOld _ hi).trans hm) hlive
      rw [getPath, getNameLower, hgetOld _ hi, hm, List.getElem?_append_left (by omega)] at this
      rw [getPath, getNameLower, hm]
      simp only [Option.map_some, hmem.1, hmem.2] at this ⊢
      exact this
    · by_cases hfull : 2 ^ 32 ≤ p.entryMeta.length
      · exact .inl hfull
      · have hidx : (UInt32.ofNat p.entryMeta.length).toNat = p.entryMeta.length :=
          UInt32.toNat_ofNat_of_lt' (show _ < 2 ^ 32 by omega)
        have := hr (UInt32.ofNat p.entryMeta.length) (p.newMeta Γ e) (by rw [hidx]; exact hgetNew) rfl
        rw [getPath, getNameLower, hidx, hgetNew, haddedNew] at this
        simp only [Option.map_some, hpath, hname, Option.some.injEq] at this
        exact .inr this
  · rintro ⟨hr, hnew⟩ idx m hm hlive
    by_cases hi : idx.toNat < p.entryMeta.length
    · rw [hgetOld _ hi] at hm
      have hmem := hold m (List.mem_of_getElem? hm)
      have := hr idx m hm hlive
      rw [getPath, getNameLower, hm] at this
      rw [getPath, getNameLower, hgetOld _ hi, hm, List.getElem?_append_left (by omega)]
      simp only [Option.map_some, hmem.1, hmem.2] at this ⊢
      exact this
    · have hlen : idx.toNat = p.entryMeta.length := by
        have := (List.getElem?_eq_some_iff.1 hm).1
        rw [length_addEntry] at this
        omega
      have hlt := idx.toNat_lt
      rw [getPath, getNameLower, hlen, hgetNew, haddedNew]
      rcases hnew with hfull | ⟨h1, h2⟩
      · omega
      · simp only [Option.map_some, hpath, hname, h1, h2, and_self]

/-- A pool built from a list of entries reads right exactly when each is stored right behind those before it. -/
theorem IndexPool.readsAs_ofEntries (Γ : Locale) (es : List FileEntry) :
    (ofEntries Γ es).Tracks es ∧
      ((ofEntries Γ es).ReadsAs Γ es ↔
        ∀ k e, es[k]? = some e →
          StoredRight Γ k ((es.take k).map FileEntry.path).flatten ((es.take k).map (FileEntry.lowerName Γ)).flatten e) ∧
      (ofEntries Γ es).pathPool = (es.map FileEntry.path).flatten ∧
      (ofEntries Γ es).nameLowerPool = (es.map (FileEntry.lowerName Γ)).flatten := by
  induction es using List.reverseRecOn with
  | nil =>
    refine ⟨tracks_empty, ⟨?_, ?_⟩, rfl, rfl⟩
    · intro _ k e he
      cases he
    · intro _ idx m hm
      cases hm
  | append_singleton es e ih =>
    obtain ⟨htracks, hiff, hpaths, hnames⟩ := ih
    have hsnoc : ofEntries Γ (es ++ [e]) = (ofEntries Γ es).addEntry Γ e := by
      simp only [ofEntries, List.foldl_append, List.foldl_cons, List.foldl_nil]
    rw [hsnoc]
    refine ⟨htracks.addEntry e, ?_, ?_, ?_⟩
    · rw [readsAs_addEntry htracks, hiff, hpaths, hnames, ← htracks.count]
      constructor
      · rintro ⟨hbefore, hlast⟩ k x hk
        rcases Nat.lt_or_ge k es.length with hlt | hge
        · rw [List.getElem?_append_left hlt] at hk
          rw [List.take_append_of_le_length (by omega)]
          exact hbefore k x hk
        · have hkl : k = es.length := by
            have := (List.getElem?_eq_some_iff.1 hk).1
            simp at this
            omega
          subst hkl
          rw [List.getElem?_append_right (Nat.le_refl _), Nat.sub_self, List.getElem?_cons_zero, Option.some.injEq] at hk
          subst hk
          rw [List.take_left]
          exact hlast
      · intro hall
        constructor
        · intro k x hk
          have hlt := (List.getElem?_eq_some_iff.1 hk).1
          have := hall k x (by rwa [List.getElem?_append_left hlt])
          rwa [List.take_append_of_le_length (by omega)] at this
        · have := hall es.length e (by simp)
          rwa [List.take_left] at this
    · rw [List.map_append, List.flatten_append, ← hpaths]
      simp [IndexPool.addEntry]
    · rw [List.map_append, List.flatten_append, ← hnames]
      simp [IndexPool.addEntry]

/-! ## Tombstones -/

/-- A pool that differs from another in tombstones only, and has those of the other. -/
structure IndexPool.Tombstoned (p p' : IndexPool) : Prop where
  pathPool : p'.pathPool = p.pathPool
  nameLowerPool : p'.nameLowerPool = p.nameLowerPool
  count : p'.entryMeta.length = p.entryMeta.length
  records : ∀ (i : Nat) (m' : EntryMeta), p'.entryMeta[i]? = some m' →
    ∃ m : EntryMeta, p.entryMeta[i]? = some m ∧ (m' = m ∨ m' = { m with deleted := true })

theorem IndexPool.tombstoned_refl (p : IndexPool) : p.Tombstoned p := ⟨rfl, rfl, rfl, fun _ m hm => ⟨m, hm, .inl rfl⟩⟩

theorem IndexPool.tombstoned_markDeleted (p : IndexPool) (i : Nat) : p.Tombstoned (p.markDeleted i) := by
  refine ⟨rfl, rfl, length_markDeleted p i, ?_⟩
  intro j m' hm'
  rw [markDeleted, List.getElem?_modify] at hm'
  cases hm : p.entryMeta[j]? with
  | none =>
    rw [hm] at hm'
    cases hm'
  | some m =>
    rw [hm] at hm'
    by_cases hij : i = j
    · simp only [hij, if_true, Option.map_eq_map, Option.map_some, Option.some.injEq] at hm'
      exact ⟨m, rfl, .inr hm'.symm⟩
    · simp only [hij, if_false, Option.map_eq_map, Option.map_some, Option.some.injEq] at hm'
      exact ⟨m, rfl, .inl hm'.symm⟩

theorem IndexStore.tombstoned_applyRemove (Γ : Locale) (s : IndexStore) (path : WString) :
    s.pool.Tombstoned (s.applyRemove Γ path).pool := by
  unfold applyRemove
  split
  · exact IndexPool.tombstoned_markDeleted _ _
  · exact IndexPool.tombstoned_refl _

theorem IndexStore.tombstoned_removeEntriesUnderPath (Γ : Locale) (s : IndexStore) (pfx : WString) :
    s.pool.Tombstoned (s.removeEntriesUnderPath Γ pfx).pool := by
  refine ⟨rfl, rfl, List.length_mapIdx, ?_⟩
  intro i m' hm'
  rw [removeEntriesUnderPath, List.getElem?_mapIdx] at hm'
  obtain ⟨m, hm, rfl⟩ := Option.map_eq_some_iff.1 hm'
  refine ⟨m, hm, ?_⟩
  split
  · exact .inr rfl
  · exact .inl rfl

/-- A record's views do not depend on its tombstone. -/
theorem IndexPool.Tombstoned.views {p' : IndexPool} (h : p.Tombstoned p') {m m' : EntryMeta}
    (hm : m' = m ∨ m' = { m with deleted := true }) :
    p'.pathView m' = p.pathView m ∧ p'.nameLowerView m' = p.nameLowerView m := by
  rcases hm with rfl | rfl <;> simp only [pathView, nameLowerView, h.pathPool, h.nameLowerPool, and_self]

theorem IndexPool.Tracks.tombstoned {p' : IndexPool} (h : p.Tracks added) (ht : p.Tombstoned p') : p'.Tracks added := by
  refine ⟨h.count.trans ht.count.symm, ?_, ?_⟩
  · intro m' hm'
    obtain ⟨i, hi⟩ := List.mem_iff_getElem?.1 hm'
    obtain ⟨m, hm, heq⟩ := ht.records i m' hi
    rw [ht.pathPool]
    have := h.path m (List.mem_of_getElem? hm)
    rcases heq with rfl | rfl <;> exact this
  · intro m' hm'
    obtain ⟨i, hi⟩ := List.mem_iff_getElem?.1 hm'
    obtain ⟨m, hm, heq⟩ := ht.records i m' hi
    rw [ht.nameLowerPool]
    have := h.nameLower m (List.mem_of_getElem? hm)
    rcases heq with rfl | rfl <;> exact this

/-- Tombstones make no live entry read wrong. -/
theorem IndexPool.ReadsAs.tombstoned {p' : IndexPool} (h : p.ReadsAs Γ added) (ht : p.Tombstoned p') :
    p'.ReadsAs Γ added := by
  intro idx m' hm' hlive
  obtain ⟨m, hm, heq⟩ := ht.records _ m' hm'
  have hmlive : m.deleted = false := by
    rcases heq with rfl | rfl
    · exact hlive
    · cases hlive
  have := h idx m hm hmlive
  rw [getPath, getNameLower, hm] at this
  rw [getPath, getNameLower, hm']
  simp only [Option.map_some, (ht.views heq).1, (ht.views heq).2] at this ⊢
  exact this

/-! ## Every run -/

/-- What a mutation adds is stored right. -/
def StoresRight (Γ : Locale) (t : TrackedStore) : StoreOp → Prop
  | .endWrite => ∀ k e, t.store.stagingBuf[k]? = some e →
      StoredRight Γ k ((t.store.stagingBuf.take k).map FileEntry.path).flatten
        ((t.store.stagingBuf.take k).map (FileEntry.lowerName Γ)).flatten e
  | .applyAdd e =>
    StoredRight Γ t.store.pool.entryMeta.length t.store.pool.pathPool t.store.pool.nameLowerPool e
  | .applyRename oldPath newPath => ∀ e ∈ t.store.renamedEntries Γ oldPath newPath,
      StoredRight Γ t.store.pool.entryMeta.length t.store.pool.pathPool t.store.pool.nameLowerPool e
  | .beginWrite | .addEntry _ | .applyRemove _ | .removeEntriesUnderPath _ => True

/-- What `ApplyRename` makes of the pool: nothing, or a tombstone and the renamed entry. -/
theorem IndexStore.applyRename_cases (Γ : Locale) (s : IndexStore) (oldPath newPath : WString) :
    (s.renamedEntries Γ oldPath newPath = [] ∧ (s.applyRename Γ oldPath newPath).pool = s.pool) ∨
    ∃ i e, s.renamedEntries Γ oldPath newPath = [e] ∧
      (s.applyRename Γ oldPath newPath).pool = (s.pool.markDeleted i).addEntry Γ e := by
  unfold renamedEntries applyRename
  cases s.pool.firstMatch Γ (Γ.lower oldPath) with
  | none => exact .inl ⟨rfl, rfl⟩
  | some i =>
    cases hm : s.pool.entryMeta[i]? with
    | none =>
      simp only [hm]
      exact .inl ⟨trivial, trivial⟩
    | some om =>
      simp only [hm]
      exact .inr ⟨i, renamedEntry Γ om newPath, rfl, rfl⟩

/-- Every mutation keeps the views inside the arrays. -/
theorem tracks_step {t : TrackedStore} (h : t.store.pool.Tracks t.added) (op : StoreOp) :
    (t.step Γ op).store.pool.Tracks (t.step Γ op).added := by
  cases op with
  | beginWrite | addEntry e => exact h
  | endWrite => exact (IndexPool.readsAs_ofEntries Γ t.store.stagingBuf).1
  | applyAdd e => exact h.addEntry e
  | applyRemove path => exact h.tombstoned (IndexStore.tombstoned_applyRemove Γ t.store path)
  | applyRename oldPath newPath =>
    show (t.store.applyRename Γ oldPath newPath).pool.Tracks (t.added ++ t.store.renamedEntries Γ oldPath newPath)
    rcases t.store.applyRename_cases Γ oldPath newPath with ⟨hnone, hpool⟩ | ⟨i, e, hsome, hpool⟩
    · rw [hnone, hpool, List.append_nil]
      exact h
    · rw [hsome, hpool]
      exact (h.tombstoned (IndexPool.tombstoned_markDeleted _ i)).addEntry e
  | removeEntriesUnderPath pfx => exact h.tombstoned (IndexStore.tombstoned_removeEntriesUnderPath Γ t.store pfx)

/-- From a state that reads right, a mutation leads to one exactly when what it adds is stored right. -/
theorem right_step_iff {t : TrackedStore} (h : t.store.pool.Tracks t.added) (hr : t.Right Γ) (op : StoreOp) :
    (t.step Γ op).Right Γ ↔ StoresRight Γ t op := by
  cases op with
  | beginWrite | addEntry e => exact ⟨fun _ => trivial, fun _ => hr⟩
  | endWrite => exact (IndexPool.readsAs_ofEntries Γ t.store.stagingBuf).2.1
  | applyAdd e =>
    refine (IndexPool.readsAs_addEntry h e).trans ⟨fun hboth => hboth.2, fun hs => ⟨hr, hs⟩⟩
  | applyRemove path => exact ⟨fun _ => trivial, fun _ => hr.tombstoned (IndexStore.tombstoned_applyRemove Γ t.store path)⟩
  | applyRename oldPath newPath =>
    show (t.store.applyRename Γ oldPath newPath).pool.ReadsAs Γ (t.added ++ t.store.renamedEntries Γ oldPath newPath) ↔
      ∀ e ∈ t.store.renamedEntries Γ oldPath newPath,
        StoredRight Γ t.store.pool.entryMeta.length t.store.pool.pathPool t.store.pool.nameLowerPool e
    rcases t.store.applyRename_cases Γ oldPath newPath with ⟨hnone, hpool⟩ | ⟨i, e, hsome, hpool⟩
    · rw [hnone, hpool, List.append_nil]
      exact ⟨fun _ => by simp, fun _ => hr⟩
    · have hmark := IndexPool.tombstoned_markDeleted t.store.pool i
      rw [hsome, hpool, IndexPool.readsAs_addEntry (h.tombstoned hmark), hmark.count, hmark.pathPool, hmark.nameLowerPool]
      simp only [List.mem_singleton, forall_eq]
      exact ⟨fun hboth => hboth.2, fun hs => ⟨IndexPool.ReadsAs.tombstoned hr hmark, hs⟩⟩
  | removeEntriesUnderPath pfx =>
    exact ⟨fun _ => trivial, fun _ => hr.tombstoned (IndexStore.tombstoned_removeEntriesUnderPath Γ t.store pfx)⟩

/-- In every run of store operations of any length, every live entry reads as the path and the folded name it was added with in
every state exactly when everything that is added is stored right: as entry number `2 ^ 32` or later, which no accessor reaches,
or with its texts found at the sizes of the two arrays modulo `2 ^ 32`. -/
theorem always_right_iff (Γ : Locale) (ops : List StoreOp) :
    Along (TrackedStore.Right Γ) (TrackedStore.step Γ) .empty ops ↔ Meets (StoresRight Γ) (TrackedStore.step Γ) .empty ops := by
  refine along_iff_meets (I := fun t => t.store.pool.Tracks t.added) ?_ ?_ IndexPool.tracks_empty ?_ (meets_trivial _ _ _)
  · intro t op h _ _
    exact tracks_step h op
  · intro t op h hr _
    exact right_step_iff h hr op
  · intro idx m hm
    cases hm

/-! ## While the arrays are small -/

/-- Both arrays are below `2 ^ 32` characters, and every text below `2 ^ 16`. -/
structure TrackedStore.Small (Γ : Locale) (t : TrackedStore) : Prop where
  pathPool : t.store.pool.pathPool.length < 2 ^ 32
  nameLowerPool : t.store.pool.nameLowerPool.length < 2 ^ 32
  texts : ∀ e ∈ t.added, e.path.length < 2 ^ 16 ∧ (e.lowerName Γ).length < 2 ^ 16

/-- The texts of the first entries are no longer than those of all. -/
theorem length_flatten_take_le {es : List FileEntry} (text : FileEntry → List WChar) (k : Nat) :
    ((es.take k).map text).flatten.length ≤ (es.map text).flatten.length := by
  rw [List.map_take, List.length_flatten, List.length_flatten, List.map_take]
  exact List.Sublist.sum_le_sum (List.take_sublist k _) (fun _ _ => Nat.zero_le _)

/-- What a mutation adds is stored right if the arrays are small after it. -/
theorem storesRight_of_small {t : TrackedStore} {op : StoreOp} (h : (t.step Γ op).Small Γ) : StoresRight Γ t op := by
  have hstored : ∀ {e count pathPool nameLowerPool}, e ∈ (t.step Γ op).added → pathPool.length < 2 ^ 32 →
      nameLowerPool.length < 2 ^ 32 → StoredRight Γ count pathPool nameLowerPool e := fun he hpath hname =>
    .inr ⟨storedText_of_fits hpath (h.texts _ he).1, storedText_of_fits hname (h.texts _ he).2⟩
  have hpath := h.pathPool
  have hname := h.nameLowerPool
  cases op with
  | beginWrite | addEntry _ | applyRemove _ | removeEntriesUnderPath _ => trivial
  | endWrite =>
    obtain ⟨-, -, hpaths, hnames⟩ := IndexPool.readsAs_ofEntries Γ t.store.stagingBuf
    have hpath : (IndexPool.ofEntries Γ t.store.stagingBuf).pathPool.length < 2 ^ 32 := hpath
    have hname : (IndexPool.ofEntries Γ t.store.stagingBuf).nameLowerPool.length < 2 ^ 32 := hname
    rw [hpaths] at hpath
    rw [hnames] at hname
    exact fun k e he => hstored (List.mem_of_getElem? he) (Nat.lt_of_le_of_lt (length_flatten_take_le _ k) hpath)
      (Nat.lt_of_le_of_lt (length_flatten_take_le _ k) hname)
  | applyAdd e =>
    have hpath : (t.store.pool.pathPool ++ e.path).length < 2 ^ 32 := hpath
    have hname : (t.store.pool.nameLowerPool ++ e.lowerName Γ).length < 2 ^ 32 := hname
    rw [List.length_append] at hpath hname
    exact hstored (List.mem_append_right _ (List.mem_singleton_self e)) (by omega) (by omega)
  | applyRename oldPath newPath =>
    intro e he
    have hadded : e ∈ (t.step Γ (.applyRename oldPath newPath)).added := List.mem_append_right _ he
    rcases t.store.applyRename_cases Γ oldPath newPath with ⟨hnone, -⟩ | ⟨i, e', hsome, hpool⟩
    · rw [hnone] at he
      cases he
    · have hmark := IndexPool.tombstoned_markDeleted t.store.pool i
      have hpath : (t.store.applyRename Γ oldPath newPath).pool.pathPool.length < 2 ^ 32 := hpath
      have hname : (t.store.applyRename Γ oldPath newPath).pool.nameLowerPool.length < 2 ^ 32 := hname
      rw [hpool] at hpath hname
      have hpath : ((t.store.pool.markDeleted i).pathPool ++ e'.path).length < 2 ^ 32 := hpath
      have hname : ((t.store.pool.markDeleted i).nameLowerPool ++ e'.lowerName Γ).length < 2 ^ 32 := hname
      rw [hmark.pathPool, List.length_append] at hpath
      rw [hmark.nameLowerPool, List.length_append] at hname
      exact hstored hadded (by omega) (by omega)

/-- In every run of store operations, however long, in which the arrays stay below `2 ^ 32` characters and the texts below
`2 ^ 16`, every live entry reads as the path and the folded name it was added with. -/
theorem right_while_small (Γ : Locale) (ops : List StoreOp) (h : Along (TrackedStore.Small Γ) (TrackedStore.step Γ) .empty ops) :
    Along (TrackedStore.Right Γ) (TrackedStore.step Γ) .empty ops := by
  have hright : Along (fun t => t.store.pool.Tracks t.added ∧ t.Right Γ) (TrackedStore.step Γ) .empty ops := by
    refine along_of_step (fun t op ht hop => ⟨tracks_step ht.1 op, (right_step_iff ht.1 ht.2 op).2 hop⟩)
      ⟨IndexPool.tracks_empty, fun idx m hm => ?_⟩ (h.meets (fun t op => storesRight_of_small))
    cases hm
  exact hright.imp (fun _ ht => ht.2)

/-! ## A long run -/

namespace LongRun

/-- The file that is modified over and over, `C:\a`. -/
def busy : FileEntry := .ofPath .c (wide ['C', ':', '\\', 'a']) 0 0 0x20

/-- The file that is created at last, `C:\b`. -/
def late : FileEntry := .ofPath .c (wide ['C', ':', '\\', 'b']) 0 0 0x20

/-- What `ApplyChange` does to the store for a Modified event of the busy file. -/
def modified : List StoreOp := [.applyRemove busy.path, .applyAdd busy]

/-- The busy file is added, modified `n` times, and then the late file is added. -/
def ops (n : Nat) : List StoreOp := .applyAdd busy :: (List.replicate n modified).flatten ++ [.applyAdd late]

/-- A Modified event appends an entry and its path, whether or not it finds one to remove. -/
theorem pool_modified (t : TrackedStore) :
    (final (TrackedStore.step .c) t modified).store.pool.pathPool = t.store.pool.pathPool ++ busy.path ∧
      (final (TrackedStore.step .c) t modified).store.pool.entryMeta.length = t.store.pool.entryMeta.length + 1 := by
  have ht := IndexStore.tombstoned_applyRemove .c t.store busy.path
  constructor
  · show (t.store.applyRemove .c busy.path).pool.pathPool ++ busy.path = _
    rw [ht.pathPool]
  · show ((t.store.applyRemove .c busy.path).pool.addEntry .c busy).entryMeta.length = _
    rw [IndexPool.length_addEntry, ht.count]

theorem pool_replicate_modified (n : Nat) (t : TrackedStore) :
    (final (TrackedStore.step .c) t (List.replicate n modified).flatten).store.pool.pathPool =
        t.store.pool.pathPool ++ (List.replicate n busy.path).flatten ∧
      (final (TrackedStore.step .c) t (List.replicate n modified).flatten).store.pool.entryMeta.length =
        t.store.pool.entryMeta.length + n := by
  induction n generalizing t with
  | zero => simp
  | succ n ih =>
    obtain ⟨hpath, hcount⟩ := ih (final (TrackedStore.step .c) t modified)
    obtain ⟨hpath1, hcount1⟩ := pool_modified t
    rw [List.replicate_succ, List.flatten_cons, final_append, hpath, hcount, hpath1, hcount1, List.replicate_succ,
      List.flatten_cons, List.append_assoc]
    exact ⟨rfl, by omega⟩

/-- No path in the run is longer than four characters. -/
theorem short_paths (n : Nat) : ∀ e, StoreOp.applyAdd e ∈ ops n → e.path.length = 4 := by
  intro e he
  rcases List.mem_append.1 he with he | he
  · rcases List.mem_cons.1 he with he | he
    · cases he
      rfl
    · obtain ⟨l, hl, he⟩ := List.mem_flatten.1 he
      rw [(List.mem_replicate.1 hl).2, modified, List.mem_cons, List.mem_singleton] at he
      rcases he with he | he
      · cases he
      · cases he
        rfl
  · rw [List.mem_singleton] at he
    cases he
    rfl

/-- When the array holds `2 ^ 32` characters, the late file is stored at offset 0 and reads as the first file. -/
theorem not_storedRight {pathPool nameLowerPool : List WChar} {count : Nat} (hcount : count < 2 ^ 32)
    (hpool : pathPool = busy.path ++ pathPool.drop 4) (hlen : pathPool.length = 2 ^ 32) :
    ¬StoredRight .c count pathPool nameLowerPool late := by
  rintro (h | ⟨h, -⟩)
  · omega
  · rw [storedText, hlen, Nat.mod_self, hpool, List.append_assoc] at h
    have hbusy : 0 + 4 ≤ busy.path.length := by decide
    exact absurd ((slice_append_left _ hbusy).symm.trans h) (by decide)

/-- The run with the late file breaks off right, when the array then holds `2 ^ 32` characters. -/
theorem not_right {n : Nat} (hn : 4 * (n + 1) = 2 ^ 32) :
    ¬Along (TrackedStore.Right .c) (TrackedStore.step .c) .empty (ops n) := by
  intro h
  obtain ⟨hbefore, hafter⟩ := along_append.1 h
  have hright := hbefore.final
  have hlast := (along_cons.1 hafter).2.start
  have hmeets := meets_trivial (TrackedStore.step .c) .empty (.applyAdd busy :: (List.replicate n modified).flatten)
  have htracks := (along_of_step (P := fun t => t.store.pool.Tracks t.added) (fun t op ht _ => tracks_step (Γ := .c) ht op)
    IndexPool.tracks_empty hmeets).final
  obtain ⟨hpath, hcount⟩ := pool_replicate_modified n (TrackedStore.empty.step .c (.applyAdd busy))
  rw [← final_cons] at hpath hcount
  have hstores := (right_step_iff htracks hright (.applyAdd late)).1 hlast
  have hone : (TrackedStore.empty.step .c (.applyAdd busy)).store.pool.entryMeta.length = 1 := rfl
  have hpool : (TrackedStore.empty.step .c (.applyAdd busy)).store.pool.pathPool = busy.path := rfl
  have hbusy : busy.path.length = 4 := rfl
  rw [hone] at hcount
  rw [hpool] at hpath
  refine not_storedRight ?_ ?_ ?_ hstores
  · omega
  · rw [hpath, List.drop_left' hbusy]
  · rw [hpath, List.length_append, List.length_flatten, List.map_replicate, List.sum_replicate, hbusy, smul_eq_mul]
    omega

end LongRun

/-- After `2 ^ 30` entries for one file of four characters, that is after it was modified `2 ^ 30 - 1` times, the path of the
next file reads as the path of the first. -/
theorem offsets_wrap : (∀ e, StoreOp.applyAdd e ∈ LongRun.ops (2 ^ 30 - 1) → e.path.length = 4) ∧
    ¬Along (TrackedStore.Right .c) (TrackedStore.step .c) .empty (LongRun.ops (2 ^ 30 - 1)) :=
  ⟨LongRun.short_paths _, LongRun.not_right (by norm_num)⟩

end WinIndex
