import WinIndex.IndexFile
import WinIndex.Lemmas.Batch
import WinIndex.Theorems.LoadSafety
import WinIndex.Theorems.Offsets
import WinIndex.Theorems.Persistence

/-!
# The index over starts of the program

A pool that was loaded is not the layout of its records: the text of what was removed before the save may still be in it, behind
the live paths. What every pool has that the program gets is that its views lie inside it and its names are those of its paths;
that is enough for the mutations, and for the next save. So what a start finds is what the last save kept, as long as the live
paths are how the path array begins whenever a file is written, and the checksum tells a file that was cut short.
-/

namespace WinIndex

open Segments Tombstone Trace LittleEndian

/-! ## Pools that can be read -/

/-- Every view of the pool lies inside it, every name is that of its path, and the arrays are within the narrow fields. -/
structure IndexPool.Readable (Γ : Locale) (p : IndexPool) : Prop where
  inBounds : p.WellFormed
  name : ∀ m ∈ p.entryMeta, p.nameView m = nameOf (p.pathView m)
  nameLower : ∀ m ∈ p.entryMeta, p.nameLowerView m = Γ.lower (nameOf (p.pathView m))
  size : p.pathPool.length < 2 ^ 32
  names : p.nameLowerPool.length ≤ p.pathPool.length
  count : p.entryMeta.length ≤ 2 ^ 32

variable {Γ : Locale} {p : IndexPool} {usnMap : UsnMap}

theorem IndexPool.Readable.sound (h : p.Readable Γ) : p.Sound := ⟨h.inBounds.pathsIn, h.count⟩

theorem IndexPool.readable_empty : IndexPool.empty.Readable Γ :=
  ⟨fun _ hm => absurd hm List.not_mem_nil, fun _ hm => absurd hm List.not_mem_nil, fun _ hm => absurd hm List.not_mem_nil,
    by decide, Nat.le_refl _, by decide⟩

/-- Tombstones leave a pool readable. -/
theorem IndexPool.Readable.tombstoned (h : p.Readable Γ) {p' : IndexPool} (ht : p.Tombstoned p') : p'.Readable Γ := by
  -- an entry has the views of the one it was, in the same arrays
  have hentry : ∀ m' ∈ p'.entryMeta, ∃ m ∈ p.entryMeta, (p.InBounds m → p'.InBounds m') ∧ p'.pathView m' = p.pathView m ∧
      p'.nameView m' = p.nameView m ∧ p'.nameLowerView m' = p.nameLowerView m := by
    intro m' hm'
    obtain ⟨i, hi⟩ := List.mem_iff_getElem?.1 hm'
    obtain ⟨m, hm, heq⟩ := ht.records i m' hi
    obtain ⟨hpath, hlower⟩ := ht.views heq
    refine ⟨m, List.mem_of_getElem? hm, fun hin => ?_, hpath, ?_, hlower⟩
    · obtain ⟨h1, h2, h3⟩ := hin
      rw [← ht.pathPool] at h1
      rw [← ht.nameLowerPool] at h3
      rcases heq with rfl | rfl <;> exact ⟨h1, h2, h3⟩
    · rcases heq with rfl | rfl <;> simp only [nameView, ht.pathPool]
  refine ⟨fun m' hm' => ?_, fun m' hm' => ?_, fun m' hm' => ?_, ht.pathPool ▸ h.size, ?_, ht.count ▸ h.count⟩
  · obtain ⟨m, hm, hin, -⟩ := hentry m' hm'
    exact hin (h.inBounds m hm)
  · obtain ⟨m, hm, -, hpath, hname, -⟩ := hentry m' hm'
    rw [hpath, hname, h.name m hm]
  · obtain ⟨m, hm, -, hpath, -, hlower⟩ := hentry m' hm'
    rw [hpath, hlower, h.nameLower m hm]
  · rw [ht.pathPool, ht.nameLowerPool]
    exact h.names

/-- The views of an entry that is there already. -/
theorem IndexPool.InBounds.views_addEntry {m : EntryMeta} (h : p.InBounds m) (e : FileEntry) :
    (p.addEntry Γ e).InBounds m ∧ (p.addEntry Γ e).pathView m = p.pathView m ∧ (p.addEntry Γ e).nameView m = p.nameView m ∧
      (p.addEntry Γ e).nameLowerView m = p.nameLowerView m := by
  have hpath := h.path
  have hname := h.name
  have hnameLower := h.nameLower
  refine ⟨⟨?_, hname, ?_⟩, ?_, ?_, ?_⟩
  · rw [IndexPool.addEntry, List.length_append]
    omega
  · rw [IndexPool.addEntry, List.length_append]
    omega
  · exact slice_append_left _ hpath
  · refine slice_append_left _ ?_
    rw [subSizeT_eq hname]
    omega
  · exact slice_append_left _ hnameLower

/-- The views of an entry that is added. -/
theorem IndexPool.views_newMeta {e : FileEntry} (hw : e.WellNamed Γ) (hpath : e.path.length < 2 ^ 16)
    (hsize : p.pathPool.length < 2 ^ 32) (hnames : p.nameLowerPool.length ≤ p.pathPool.length) :
    (p.addEntry Γ e).InBounds (p.newMeta Γ e) ∧ (p.addEntry Γ e).pathView (p.newMeta Γ e) = e.path ∧
      (p.addEntry Γ e).nameView (p.newMeta Γ e) = nameOf e.path ∧
      (p.addEntry Γ e).nameLowerView (p.newMeta Γ e) = Γ.lower (nameOf e.path) := by
  have hoff : (p.newMeta Γ e).pathOffset.toNat = p.pathPool.length := UInt32.toNat_ofNat_of_lt' hsize
  have hlen : (p.newMeta Γ e).pathLen.toNat = e.path.length := UInt16.toNat_ofNat_of_lt' hpath
  have hstart : (p.newMeta Γ e).nameStart.toNat = nameStart e.path :=
    UInt16.toNat_ofNat_of_lt' (Nat.lt_of_le_of_lt (nameStart_le _) hpath)
  have hoff' : (p.newMeta Γ e).nameLowerOffset.toNat = p.nameLowerPool.length :=
    UInt32.toNat_ofNat_of_lt' (Nat.lt_of_le_of_lt hnames hsize)
  have hlower := hw.lowerName_eq hpath
  have hlen' : (p.newMeta Γ e).nameLowerLen.toNat = (nameOf e.path).length := by
    rw [newMeta, hlower, Locale.length_lower]
    refine UInt16.toNat_ofNat_of_lt' (show _ < 2 ^ 16 from ?_)
    rw [length_nameOf]
    omega
  have hle := nameStart_le e.path
  have hview : (p.addEntry Γ e).pathView (p.newMeta Γ e) = e.path := by
    rw [pathView, hoff, hlen]
    exact slice_append_self _ _
  refine ⟨⟨?_, ?_, ?_⟩, hview, ?_, ?_⟩
  · rw [hoff, hlen, addEntry, List.length_append]
  · rw [hstart, hlen]
    exact hle
  · rw [hoff', hlen', addEntry, List.length_append, hlower, Locale.length_lower]
  · rw [pathView] at hview
    rw [nameView, subSizeT_eq (by rw [hstart, hlen]; exact hle), ← drop_slice, hview, hstart, nameOf_eq_drop]
  · rw [nameLowerView, hoff', hlen', addEntry, hlower, ← Locale.length_lower Γ (nameOf e.path)]
    exact slice_append_self _ _

/-- Adding a well-named entry leaves a pool readable while there is room. -/
theorem IndexPool.Readable.addEntry (h : p.Readable Γ) {e : FileEntry} (hw : e.WellNamed Γ) (hpath : e.path.length < 2 ^ 16)
    (hsize : (p.addEntry Γ e).pathPool.length < 2 ^ 32) (hcount : (p.addEntry Γ e).entryMeta.length ≤ 2 ^ 32) :
    (p.addEntry Γ e).Readable Γ := by
  have hnew := views_newMeta (p := p) hw hpath h.size h.names
  have hcases : ∀ m ∈ (p.addEntry Γ e).entryMeta, m ∈ p.entryMeta ∨ m = p.newMeta Γ e := by
    intro m hm
    rcases List.mem_append.1 hm with hm | hm
    · exact .inl hm
    · exact .inr (List.mem_singleton.1 hm)
  refine ⟨fun m hm => ?_, fun m hm => ?_, fun m hm => ?_, hsize, ?_, hcount⟩
  · rcases hcases m hm with hm | rfl
    · exact ((h.inBounds m hm).views_addEntry e).1
    · exact hnew.1
  · rcases hcases m hm with hm | rfl
    · obtain ⟨-, hpv, hnv, -⟩ := (h.inBounds m hm).views_addEntry (Γ := Γ) e
      rw [hpv, hnv, h.name m hm]
    · rw [hnew.2.1, hnew.2.2.1]
  · rcases hcases m hm with hm | rfl
    · obtain ⟨-, hpv, -, hnlv⟩ := (h.inBounds m hm).views_addEntry (Γ := Γ) e
      rw [hpv, hnlv, h.nameLower m hm]
    · rw [hnew.2.1, hnew.2.2.2]
  · rw [IndexPool.addEntry, List.length_append, List.length_append, hw.lowerName_eq hpath, Locale.length_lower, length_nameOf]
    have := h.names
    omega

/-! ## The mutations -/

/-- The paths that a mutation adds. -/
def StoreOp.newPaths (s : IndexStore) : StoreOp → List WString
  | .endWrite => s.stagingBuf.map FileEntry.path
  | .applyAdd e => [e.path]
  | .applyRename _ newPath => [newPath]
  | _ => []

/-- What a mutation adds is well named and has room in the pool. -/
structure StoreOp.HasRoom (Γ : Locale) (s : IndexStore) (op : StoreOp) : Prop where
  wellNamed : op.WellNamed Γ
  path : ∀ path ∈ op.newPaths s, path.length < 2 ^ 16
  size : (op.run Γ s).pool.pathPool.length < 2 ^ 32
  count : (op.run Γ s).pool.entryMeta.length ≤ 2 ^ 32

instance (Γ : Locale) (s : IndexStore) (op : StoreOp) : Decidable (op.HasRoom Γ s) :=
  decidable_of_iff (op.WellNamed Γ ∧ (∀ path ∈ op.newPaths s, path.length < 2 ^ 16) ∧
      (op.run Γ s).pool.pathPool.length < 2 ^ 32 ∧ (op.run Γ s).pool.entryMeta.length ≤ 2 ^ 32)
    ⟨fun h => ⟨h.1, h.2.1, h.2.2.1, h.2.2.2⟩, fun h => ⟨h.wellNamed, h.path, h.size, h.count⟩⟩

/-- The store has the live records of the abstract one, in a pool that can be read. -/
structure IndexStore.Says (Γ : Locale) (s : IndexStore) (a : RecordStore) : Prop where
  live : s.pool.live = lives a.records
  staged : s.stagingBuf = a.staged
  wellNamed : ∀ e ∈ a.staged, e.WellNamed Γ
  readable : s.pool.Readable Γ

variable {s : IndexStore} {a : RecordStore}

/-- Adding entries one after the other appends their records. -/
theorem readable_ofEntries {es : List FileEntry} (hw : ∀ e ∈ es, e.WellNamed Γ) (hpath : ∀ e ∈ es, e.path.length < 2 ^ 16)
    (hsize : (IndexPool.ofEntries Γ es).pathPool.length < 2 ^ 32)
    (hcount : (IndexPool.ofEntries Γ es).entryMeta.length ≤ 2 ^ 32) :
    (IndexPool.ofEntries Γ es).Readable Γ ∧ (IndexPool.ofEntries Γ es).live = es.map FileEntry.record := by
  induction es using List.reverseRecOn with
  | nil => exact ⟨IndexPool.readable_empty, rfl⟩
  | append_singleton es e ih =>
    have hlast : IndexPool.ofEntries Γ (es ++ [e]) = (IndexPool.ofEntries Γ es).addEntry Γ e := by
      rw [IndexPool.ofEntries, List.foldl_append]
      rfl
    rw [hlast] at hsize hcount ⊢
    have hsize' : (IndexPool.ofEntries Γ es).pathPool.length < 2 ^ 32 := by
      rw [IndexPool.addEntry, List.length_append] at hsize
      omega
    have hcount' : (IndexPool.ofEntries Γ es).entryMeta.length ≤ 2 ^ 32 := by
      rw [IndexPool.length_addEntry] at hcount
      omega
    obtain ⟨hreadable, hlive⟩ :=
      ih (fun x hx => hw x (by simp [hx])) (fun x hx => hpath x (by simp [hx])) hsize' hcount'
    have he := hpath e (by simp)
    refine ⟨hreadable.addEntry (hw e (by simp)) he hsize hcount, ?_⟩
    have hfits : (IndexPool.ofEntries Γ es).Fits e.path := ⟨he, hsize'⟩
    rw [IndexPool.live, IndexPool.records_addEntry e hreadable.sound.pathsIn, lives_add, ← IndexPool.live, hlive, hfits.stored_eq,
      List.map_append]
    rfl

/-- A mutation with room does to the live records what it does to those of the abstract store. -/
theorem IndexStore.Says.run (h : s.Says Γ a) {op : StoreOp} (hroom : op.HasRoom Γ s) :
    (op.run Γ s).Says Γ (a.step Γ op) := by
  have hsound := h.readable.sound
  cases op with
  | beginWrite => exact ⟨h.live, rfl, fun _ he => absurd he List.not_mem_nil, h.readable⟩
  | addEntry e =>
    refine ⟨h.live, ?_, ?_, h.readable⟩
    · show s.stagingBuf ++ [e] = a.staged ++ [e]
      rw [h.staged]
    · intro x hx
      rcases List.mem_append.1 hx with hx | hx
      · exact h.wellNamed x hx
      · exact List.mem_singleton.1 hx ▸ hroom.wellNamed
  | endWrite =>
    have hpath : ∀ e ∈ s.stagingBuf, e.path.length < 2 ^ 16 :=
      fun e he => hroom.path e.path (List.mem_map_of_mem he)
    obtain ⟨hreadable, hlive⟩ := readable_ofEntries (h.staged ▸ h.wellNamed) hpath hroom.size hroom.count
    refine ⟨?_, rfl, fun _ he => absurd he List.not_mem_nil, hreadable⟩
    show (IndexPool.ofEntries Γ s.stagingBuf).live = lives (a.staged.map FileEntry.cell)
    have hcells : a.staged.map FileEntry.cell = (a.staged.map FileEntry.record).map (fun r => ⟨r, true⟩) := by
      rw [List.map_map]
      rfl
    rw [hlive, h.staged, hcells, lives_map_live]
  | applyAdd e =>
    have hfits : s.pool.Fits e.path := ⟨hroom.path e.path (by simp [StoreOp.newPaths]), h.readable.size⟩
    refine ⟨?_, h.staged, h.wellNamed, h.readable.addEntry hroom.wellNamed hfits.path hroom.size hroom.count⟩
    show (s.applyAdd Γ e).pool.live = lives (add a.records e.record)
    rw [IndexStore.live_applyAdd e hsound, lives_add, h.live, hfits.stored_eq]
  | applyRemove path =>
    refine ⟨?_, ?_, h.wellNamed, ?_⟩
    · show (s.applyRemove Γ path).pool.live = lives (killFirst _ a.records)
      rw [IndexStore.live_applyRemove path hsound, lives_killFirst, h.live]
    · exact (IndexStore.stagingBuf_applyRemove Γ s path).trans h.staged
    · exact h.readable.tombstoned (IndexStore.tombstoned_applyRemove Γ s path)
  | applyRename oldPath newPath =>
    have hfits : s.pool.Fits newPath := ⟨hroom.path newPath (by simp [StoreOp.newPaths]), h.readable.size⟩
    refine ⟨?_, ?_, ?_, ?_⟩
    · show (s.applyRename Γ oldPath newPath).pool.live = lives (a.step Γ (.applyRename oldPath newPath)).records
      rw [IndexStore.live_applyRename oldPath newPath hsound, hfits.storedPath_eq, h.live]
      simp only [RecordStore.step]
      cases (lives a.records).find? (samePath Γ (Γ.lower oldPath)) with
      | none => rfl
      | some r => rw [lives_add, lives_killFirst]
    · exact (IndexStore.stagingBuf_applyRename Γ s oldPath newPath).trans
        (h.staged.trans (RecordStore.step_staged_applyRename Γ a _ _).symm)
    · rw [RecordStore.step_staged_applyRename]
      exact h.wellNamed
    · have hsize := hroom.size
      have hcount := hroom.count
      show (s.applyRename Γ oldPath newPath).pool.Readable Γ
      simp only [StoreOp.run] at hsize hcount
      unfold IndexStore.applyRename at hsize hcount ⊢
      split
      · rename_i i hi
        rw [hi] at hsize hcount
        simp only at hsize hcount ⊢
        split
        · rename_i om hom
          rw [hom] at hsize hcount
          exact (h.readable.tombstoned (IndexPool.tombstoned_markDeleted _ i)).addEntry (wellNamed_renamedEntry Γ om newPath)
            hfits.path hsize hcount
        · exact h.readable
      · exact h.readable
  | removeEntriesUnderPath pfx =>
    refine ⟨?_, h.staged, h.wellNamed, h.readable.tombstoned (IndexStore.tombstoned_removeEntriesUnderPath Γ s pfx)⟩
    show (s.removeEntriesUnderPath Γ pfx).pool.live = lives (killAll _ a.records)
    rw [IndexStore.live_removeEntriesUnderPath pfx hsound, lives_killAll, h.live]

/-! ## What is loaded -/

/-- The live paths, end to end, are how the path array begins. -/
def IndexPool.LiveFirst (p : IndexPool) : Prop := (p.live.map Record.path).flatten <+: p.pathPool

instance (p : IndexPool) : Decidable p.LiveFirst := inferInstanceAs (Decidable (_ <+: _))

theorem IndexPool.Readable.namesAgree (h : p.Readable Γ) : p.NamesAgree Γ := by
  intro m hm
  have hname : (p.pathView m).drop m.nameStart.toNat = nameOf (p.pathView m) := by
    rw [← h.name m hm, nameView, subSizeT_eq (h.inBounds m hm).name, pathView, drop_slice]
  simp only [reading, textReading, hname, h.name m hm, h.nameLower m hm]

theorem IndexPool.Readable.nameStart_le (h : p.Readable Γ) : ∀ m ∈ p.liveMeta, m.nameStart.toNat ≤ m.pathLen.toNat :=
  fun m hm => (h.inBounds m (List.mem_of_mem_filter hm)).name

/-- The lengths that are written add up to no more than the path array holds. -/
theorem IndexPool.Readable.sum_pathLen_le (h : p.Readable Γ) (hfirst : p.LiveFirst) :
    (p.liveMeta.map (fun m => m.pathLen.toNat)).sum ≤ p.pathPool.length := by
  rw [map_pathLen_liveMeta h.inBounds.pathsIn, ← List.length_flatten]
  exact hfirst.length_le

/-- The records of the reader fit into the path array. -/
theorem IndexPool.Readable.offsetsFit (h : p.Readable Γ) (hfirst : p.LiveFirst) :
    OffsetsFit p.pathPool.length (reloadEntries p.liveMeta 0) 0 := by
  refine offsetsFit_of_sum h.size ?_
  rw [map_pathLen_reloadEntries]
  exact (Nat.zero_add _).trans_le (h.sum_pathLen_le hfirst)

theorem IndexPool.Readable.nameStart_reloadEntries (h : p.Readable Γ) :
    ∀ x ∈ reloadEntries p.liveMeta 0, x.nameStart.toNat ≤ x.pathLen.toNat := by
  intro x hx
  obtain ⟨m, hm, n, rfl⟩ := mem_reloadEntries hx
  exact h.nameStart_le m hm

theorem IndexPool.Readable.name_reloadEntries (h : p.Readable Γ) :
    ∀ x ∈ reloadEntries p.liveMeta 0, x.nameStart.toNat + x.nameLowerLen.toNat = x.pathLen.toNat := by
  intro x hx
  obtain ⟨m, hm, n, rfl⟩ := mem_reloadEntries hx
  exact nameStart_add_nameLowerLen (m := reloadMeta m n) rfl (h.nameStart_le m hm)

/-- Each record that is read back reads as the live entry it was written for. -/
theorem IndexPool.Readable.map_reading_reloadedPool (h : p.Readable Γ) (hfirst : p.LiveFirst) :
    (reloadedPool Γ p).entryMeta.map (reloadedPool Γ p).reading = p.liveMeta.map p.reading := by
  have hread := reading_placeMetas (p := reloadedPool Γ p) (o := 0) h.size h.nameStart_le
    ((Nat.zero_add _).trans_le (h.sum_pathLen_le hfirst)) [] 0 0 rfl (Nat.le_refl _) rfl
  have hcut : cut (p.liveMeta.map (fun m => m.pathLen.toNat)) p.pathPool = p.live.map Record.path := by
    rw [map_pathLen_liveMeta h.inBounds.pathsIn]
    exact (cut_eq_iff _ _).2 hfirst
  rw [map_reading_liveMeta h.namesAgree, ← hcut]
  exact hread

/-- What the reader places is not tombstoned. -/
theorem deleted_of_mem_placeMetas_reload {ms : List EntryMeta} {n nl : Nat} {o : UInt32} {m : EntryMeta}
    (h : m ∈ placeMetas (reloadEntries ms n) o nl) : m.deleted = false := by
  induction ms generalizing n nl o with
  | nil => cases h
  | cons x ms ih =>
    rw [reloadEntries, placeMetas, List.mem_cons] at h
    rcases h with rfl | h
    · rfl
    · exact ih h

theorem IndexPool.liveMeta_reloadedPool (p : IndexPool) : (reloadedPool Γ p).liveMeta = (reloadedPool Γ p).entryMeta :=
  List.filter_eq_self.2 (fun m hm => by simp [deleted_of_mem_placeMetas_reload hm])

/-- The record of a reading. -/
def Reading.record (r : Reading) : Record := ⟨r.path, r.size, r.lastModified, r.attributes⟩

/-- The pool that is loaded has the live records of the one that was saved. -/
theorem IndexPool.Readable.live_reloadedPool (h : p.Readable Γ) (hfirst : p.LiveFirst) : (reloadedPool Γ p).live = p.live := by
  have hrecords := congrArg (List.map Reading.record) (h.map_reading_reloadedPool hfirst)
  rw [List.map_map, List.map_map, ← liveMeta_reloadedPool] at hrecords
  rw [live_eq_map_liveMeta, live_eq_map_liveMeta]
  exact hrecords

/-- The pool that is loaded can be read, too. -/
theorem IndexPool.Readable.reloadedPool (h : p.Readable Γ) (hfirst : p.LiveFirst) : (reloadedPool Γ p).Readable Γ := by
  have hfit := h.offsetsFit hfirst
  have hlast := h.name_reloadEntries
  -- the views of a loaded entry are those of the saved one that it reads as
  have hviews : ∀ x ∈ (WinIndex.reloadedPool Γ p).entryMeta, ∃ m ∈ p.entryMeta,
      p.reading m = (WinIndex.reloadedPool Γ p).reading x := by
    intro x hx
    have hmem := List.mem_map_of_mem (f := (WinIndex.reloadedPool Γ p).reading) hx
    rw [h.map_reading_reloadedPool hfirst] at hmem
    obtain ⟨m, hm, heq⟩ := List.mem_map.1 hmem
    exact ⟨m, List.mem_of_mem_filter hm, heq⟩
  refine ⟨wellFormed_place hfit h.nameStart_reloadEntries (fun x hx => (hlast x hx).le), fun x hx => ?_, fun x hx => ?_, h.size,
    ?_, ?_⟩
  · obtain ⟨m, hm, heq⟩ := hviews x hx
    obtain ⟨hpath, hname, -⟩ := Reading.mk.inj heq
    rw [← hpath, ← hname]
    exact h.name m hm
  · obtain ⟨m, hm, heq⟩ := hviews x hx
    obtain ⟨hpath, -, hlower, -⟩ := Reading.mk.inj heq
    rw [← hpath, ← hlower]
    exact h.nameLower m hm
  · have hlen : (placeNames Γ p.pathPool (reloadEntries p.liveMeta 0) 0).length = _ :=
      length_placeNames hfit (fun x hx => (hlast x hx).le)
    have hle : ((reloadEntries p.liveMeta 0).map (fun m => m.nameLowerLen.toNat)).sum ≤
        ((reloadEntries p.liveMeta 0).map (fun m => m.pathLen.toNat)).sum :=
      List.sum_le_sum (fun x hx => (Nat.le_add_left _ _).trans (hlast x hx).le)
    rw [map_pathLen_reloadEntries] at hle
    show (placeNames Γ p.pathPool (reloadEntries p.liveMeta 0) 0).length ≤ p.pathPool.length
    rw [hlen]
    exact hle.trans (h.sum_pathLen_le hfirst)
  · have hcount := congrArg List.length (h.map_reading_reloadedPool hfirst)
    rw [List.length_map, List.length_map] at hcount
    rw [hcount]
    exact (List.length_filter_le _ _).trans h.count

/-! ## Save and Load -/

variable {base : Nat} {now : UInt64}

/-- A file that was written whole is loaded as the pool it was written from. -/
theorem IndexStore.load_whole (h : s.pool.Readable Γ) (hfirst : s.pool.LiveFirst) (hmem : InUserSpace base (s.save now).length) :
    ∃ usnMap', ∀ fresh : IndexStore,
      fresh.load Γ base (s.save now) = .ok { fresh with pool := reloadedPool Γ s.pool, usnMap := usnMap' } := by
  have hle := le_length_payloadBytes s.pool s.usnMap
  have hspace : base + (payloadBytes s.pool s.usnMap).length + 2 ^ 18 ≤ 2 ^ 64 := by
    have hmem' := hmem
    rw [save, length_serialize, InUserSpace] at hmem'
    omega
  obtain ⟨usnMap', husn⟩ := readUsnMap_go hspace .empty hle
  refine ⟨usnMap', fun fresh => ?_⟩
  rw [load, save, deserialize_serialize_pool Γ now h.size h.nameStart_le (h.sum_pathLen_le hfirst) hmem.inMemory husn]

/-- The checksum tells a file apart that lacks its last bytes. -/
def CutTells (payload : List UInt8) (missing : Nat) : Prop :=
  missing < payload.length → crc32 (payload.take (payload.length - (missing + 1))) ≠ crc32 payload

instance (payload : List UInt8) (missing : Nat) : Decidable (CutTells payload missing) := inferInstanceAs (Decidable (_ → _))

/-- The header stores the checksum. -/
theorem crc_headerBytes (timestamp entryCount : UInt64) (crc : UInt32) (rest : List UInt8) :
    toU32 (slice (headerBytes timestamp entryCount crc ++ rest) 22 4) = crc := by
  have := (slice_mid (u32 kMagic ++ u16 kVersion ++ u64 timestamp ++ u64 entryCount) (u32 crc) rest
    (by simp) (by simp) : slice _ 22 4 = _)
  simp only [headerBytes, List.append_assoc] at this ⊢
  rw [this, toU32_u32]

/-- A file that was cut short is not accepted. -/
theorem not_accepted_cut {missing : Nat} (h : CutTells (payloadBytes p usnMap) missing) :
    ¬Accepted ((serialize now p usnMap).take ((serialize now p usnMap).length - (missing + 1))) := by
  intro haccepted
  have hsize := haccepted.size
  rw [List.length_take, length_serialize, Nat.min_eq_left (Nat.sub_le _ _), headerSize] at hsize
  have hmissing : missing < (payloadBytes p usnMap).length := by omega
  have hhead := length_headerBytes now (UInt64.ofNat p.liveMeta.length) (crc32 (payloadBytes p usnMap))
  have hcut : (serialize now p usnMap).take ((serialize now p usnMap).length - (missing + 1)) =
      headerBytes now (UInt64.ofNat p.liveMeta.length) (crc32 (payloadBytes p usnMap)) ++
        (payloadBytes p usnMap).take ((payloadBytes p usnMap).length - (missing + 1)) := by
    rw [length_serialize, serialize, Nat.add_sub_assoc hmissing, ← hhead, List.take_length_add_append]
  have hcrc := haccepted.crc
  rw [hcut, crc_headerBytes, List.drop_left' hhead] at hcrc
  exact h hmissing hcrc

/-- A file that was cut short is loaded as an empty index. -/
theorem IndexStore.load_cut {missing : Nat} (h : CutTells (payloadBytes s.pool s.usnMap) missing) (fresh : IndexStore) :
    fresh.load Γ base ((s.save now).take ((s.save now).length - (missing + 1))) =
      .ok { fresh with pool := .empty, usnMap := .empty } := by
  rw [load, save, deserialize_of_not_accepted base .empty (not_accepted_cut h)]
  rfl

/-! ## Over starts of the program -/

/-- What an event has to meet: a mutation has room, a file that is written whole begins with the live paths, the checksum tells
one that is cut short, and a start reads the file into the user's half of the address space. -/
def IndexEvent.Fits (Γ : Locale) (s : StoredIndex) : IndexEvent → Prop
  | .mutate op => ∀ store ∈ s.store, op.HasRoom Γ store
  | .save _ .notOpened => True
  | .save _ .whole => ∀ store ∈ s.store, store.pool.LiveFirst
  | .save _ (.cut missing) => ∀ store ∈ s.store, CutTells (payloadBytes store.pool store.usnMap) missing
  | .start _ _ _ base => ∀ file ∈ s.file, InUserSpace base file.length

instance (Γ : Locale) (s : StoredIndex) (e : IndexEvent) : Decidable (e.Fits Γ s) :=
  match e with
  | .mutate op => inferInstanceAs (Decidable (∀ store ∈ s.store, op.HasRoom Γ store))
  | .save _ .notOpened => .isTrue trivial
  | .save _ .whole => inferInstanceAs (Decidable (∀ store ∈ s.store, store.pool.LiveFirst))
  | .save _ (.cut missing) =>
    inferInstanceAs (Decidable (∀ store ∈ s.store, CutTells (payloadBytes store.pool store.usnMap) missing))
  | .start _ _ _ base => inferInstanceAs (Decidable (∀ file ∈ s.file, InUserSpace base file.length))

/-- A file holds the records that are kept, for whoever loads it. -/
def Holds (Γ : Locale) (file : List UInt8) (kept : Option (List Record)) : Prop :=
  ∀ base, InUserSpace base file.length → ∃ pool usnMap', pool.Readable Γ ∧ pool.live = kept.getD [] ∧
    ∀ fresh : IndexStore, fresh.load Γ base file = .ok { fresh with pool := pool, usnMap := usnMap' }

theorem holds_whole (now : UInt64) (h : s.pool.Readable Γ) (hfirst : s.pool.LiveFirst) : Holds Γ (s.save now) (some s.pool.live) := by
  intro base hmem
  obtain ⟨usnMap', hload⟩ := IndexStore.load_whole h hfirst hmem
  exact ⟨_, usnMap', h.reloadedPool hfirst, h.live_reloadedPool hfirst, hload⟩

theorem holds_cut {missing : Nat} (h : CutTells (payloadBytes s.pool s.usnMap) missing) :
    Holds Γ ((s.save now).take ((s.save now).length - (missing + 1))) none :=
  fun _ _ => ⟨.empty, .empty, IndexPool.readable_empty, rfl, IndexStore.load_cut h⟩

/-- The program and its file are what the records and the kept ones say. -/
structure StoredIndex.Agrees (Γ : Locale) (s : StoredIndex) (a : KeptRecords) : Prop where
  store : ∃ store, s.store = some store ∧ store.Says Γ a.records
  keeps : (s.file = none ∧ a.kept = none) ∨ ∃ file, s.file = some file ∧ Holds Γ file a.kept
  rebuilds : s.rebuilds = a.rebuilds

theorem StoredIndex.agrees_initial : StoredIndex.initial.Agrees Γ .initial :=
  ⟨⟨.empty, rfl, rfl, rfl, fun _ he => absurd he List.not_mem_nil, IndexPool.readable_empty⟩, .inl ⟨rfl, rfl⟩, rfl⟩

/-- A store with a pool that can be read and nothing staged has the records that are live in it. -/
theorem IndexStore.says_pool (hstaged : s.stagingBuf = []) (h : s.pool.Readable Γ) :
    s.Says Γ ⟨s.pool.live.map (fun r => ⟨r, true⟩), []⟩ :=
  ⟨(lives_map_live _).symm, hstaged, fun _ he => absurd he List.not_mem_nil, h⟩

theorem IndexStore.getEntryCount_eq (s : IndexStore) : s.getEntryCount = s.pool.live.length := by
  rw [getEntryCount, IndexPool.live_eq_map_liveMeta, List.length_map]

/-- A start finds what is kept, unless it is too old. -/
theorem StoredIndex.Agrees.start {s : StoredIndex} {a : KeptRecords} (h : s.Agrees Γ a) (lastWrite : AttributeData)
    (reindexIntervalHours : UInt64) (now : FileTime) {base : Nat} (hbase : ∀ file ∈ s.file, InUserSpace base file.length) :
    (s.start Γ lastWrite reindexIntervalHours now base).Agrees Γ
      (a.step Γ (.start lastWrite reindexIntervalHours now base)) := by
  rcases h.keeps with ⟨hfile, hkept⟩ | ⟨file, hfile, hholds⟩
  · have hlive : (if isIndexValid (some lastWrite) reindexIntervalHours now then a.kept.getD [] else []) = [] := by
      rw [hkept]
      exact ite_self _
    simp only [StoredIndex.start, hfile, KeptRecords.step, hlive]
    exact ⟨⟨.empty, rfl, IndexStore.says_pool (s := .empty) rfl IndexPool.readable_empty⟩, .inl ⟨rfl, hkept⟩, rfl⟩
  · by_cases hvalid : isIndexValid (some lastWrite) reindexIntervalHours now
    · obtain ⟨pool, usnMap', hreadable, hlive, hload⟩ := hholds base (hbase file hfile)
      simp only [StoredIndex.start, hfile, hvalid, if_true, hload, KeptRecords.step]
      refine ⟨⟨_, rfl, ?_⟩, .inr ⟨file, rfl, hholds⟩, ?_⟩
      · rw [← hlive]
        exact IndexStore.says_pool (s := { IndexStore.empty with pool := pool, usnMap := usnMap' }) rfl hreadable
      · rw [IndexStore.getEntryCount_eq, ← hlive]
        cases pool.live <;> rfl
    · simp only [StoredIndex.start, hfile, hvalid, Bool.false_eq_true, if_false, KeptRecords.step]
      exact ⟨⟨.empty, rfl, IndexStore.says_pool (s := .empty) rfl IndexPool.readable_empty⟩, .inr ⟨file, rfl, hholds⟩, rfl⟩

/-- Every event keeps the agreement. -/
theorem StoredIndex.Agrees.step {s : StoredIndex} {a : KeptRecords} {e : IndexEvent} (h : s.Agrees Γ a) (hfits : e.Fits Γ s) :
    (s.step Γ e).Agrees Γ (a.step Γ e) := by
  obtain ⟨store, hstore, hrecords⟩ := h.store
  cases e with
  | mutate op =>
    refine ⟨⟨op.run Γ store, ?_, hrecords.run (hfits store hstore)⟩, h.keeps, h.rebuilds⟩
    show s.store.map _ = _
    rw [hstore]
    rfl
  | save now outcome =>
    have hstep : s.step Γ (.save now outcome) = { s with file := outcome.written (store.save now) s.file } := by
      simp only [StoredIndex.step, hstore]
    rw [hstep]
    cases outcome with
    | notOpened => exact h
    | whole =>
      have hholds := holds_whole now hrecords.readable (hfits store hstore)
      rw [hrecords.live] at hholds
      exact ⟨h.store, .inr ⟨_, rfl, hholds⟩, h.rebuilds⟩
    | cut missing => exact ⟨h.store, .inr ⟨_, rfl, holds_cut (hfits store hstore)⟩, h.rebuilds⟩
  | start lastWrite reindexIntervalHours now base => exact h.start lastWrite reindexIntervalHours now hfits

/-- However often the program is ended, at whatever point of writing its file, and started again: it is not ended by what it
loads, its live entries are those of the last file that was written whole with the mutations since, under the names of their paths,
and it rebuilds the index just when nothing was kept or what was kept is too old. -/
theorem index_survives_restarts (Γ : Locale) (events : List IndexEvent)
    (h : Meets (IndexEvent.Fits Γ) (StoredIndex.step Γ) .initial events) :
    ∃ store, (final (StoredIndex.step Γ) .initial events).store = some store ∧
      store.pool.live = lives (final (KeptRecords.step Γ) .initial events).records.records ∧
      (∀ m ∈ store.pool.entryMeta, store.pool.nameView m = nameOf (store.pool.pathView m) ∧
        store.pool.nameLowerView m = Γ.lower (nameOf (store.pool.pathView m))) ∧
      (final (StoredIndex.step Γ) .initial events).rebuilds = (final (KeptRecords.step Γ) .initial events).rebuilds := by
  have hrun := simulation_of_meets (R := StoredIndex.Agrees Γ) (g := KeptRecords.step Γ) (fun _ _ _ h hok => h.step hok)
    StoredIndex.agrees_initial h
  obtain ⟨store, hstore, hrecords⟩ := hrun.store
  exact ⟨store, hstore, hrecords.live, fun m hm => ⟨hrecords.readable.name m hm, hrecords.readable.nameLower m hm⟩, hrun.rebuilds⟩

namespace KeptIndexWitness

open PersistenceWitness

/-- A start one hour after the file was written, where it is taken for four. -/
def start : IndexEvent := .start ⟨0, 0, 0, 0, 0⟩ 4 ⟨8, 1640261632⟩ 0x10000

/-- Two files are indexed and saved, and the program is started again. The second of them is removed, and the file written anew;
the next start finds the first. Then a write is cut short, and the program started once more. -/
def events : List IndexEvent :=
  [.mutate .beginWrite] ++ files.map (fun e => .mutate (.addEntry e)) ++
    [.mutate .endWrite, .save 1 .whole, start, .mutate (.applyRemove (wide ['c', ':', '\\', 'b', 'C'])), .save 2 .whole, start,
      .mutate (.applyAdd (file (wide ['C', ':', '\\', 'D']))), .save 3 (.cut 4), start]

set_option maxRecDepth 20000 in
theorem index_survives_restarts_cut :
    ∃ store, (final (StoredIndex.step .c) .initial events).store = some store ∧
      store.pool.live = lives (final (KeptRecords.step .c) .initial events).records.records ∧
      (∀ m ∈ store.pool.entryMeta, store.pool.nameView m = nameOf (store.pool.pathView m) ∧
        store.pool.nameLowerView m = Locale.c.lower (nameOf (store.pool.pathView m))) ∧
      (final (StoredIndex.step .c) .initial events).rebuilds = (final (KeptRecords.step .c) .initial events).rebuilds :=
  index_survives_restarts .c events (by decide +kernel)

set_option maxRecDepth 20000 in
/-- Before the last write, the first file is there, and the one that was added. -/
example : (final (StoredIndex.step .c) .initial (events.take 10)).store.map (fun store => store.pool.live.map Record.path) =
    some [wide ['C', ':', '\\', 'A'], wide ['C', ':', '\\', 'D']] := by decide +kernel

end KeptIndexWitness

end WinIndex
