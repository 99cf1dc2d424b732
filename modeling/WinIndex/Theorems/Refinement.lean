import WinIndex.Lemmas.Layout
import WinIndex.Lib.Trace

/-!
# The flat pool refines a list of records

Every mutation of the store is the mutation of the abstract one: the published pool stays the layout of the abstract log as
long as the log fits the narrow fields. `Simulates` reads off what that means for the accessors.
-/

namespace WinIndex

open Segments Tombstone Trace

/-- The views of a pool lie end to end: each offset is the sum of the lengths before it. -/
def IndexPool.Adjacent (p : IndexPool) : Prop :=
  ∀ i (h : i < p.entryMeta.length),
    p.entryMeta[i].pathOffset.toNat = ((p.entryMeta.take i).map (fun m => m.pathLen.toNat)).sum ∧
      p.entryMeta[i].nameLowerOffset.toNat = ((p.entryMeta.take i).map (fun m => m.nameLowerLen.toNat)).sum

/-- The store says what the abstract store says: the accessors and the metadata of entry `i` are those of record `i`. -/
structure Simulates (Γ : Locale) (s : IndexStore) (a : RecordStore) : Prop where
  staged : s.stagingBuf = a.staged
  path : ∀ idx, s.pool.getPath idx = a.records[idx.toNat]?.map (fun c => c.val.path)
  name : ∀ idx, s.pool.getName idx = a.records[idx.toNat]?.map (fun c => nameOf c.val.path)
  nameLower : ∀ idx, s.pool.getNameLower idx = a.records[idx.toNat]?.map (fun c => Γ.lower (nameOf c.val.path))
  metadata : s.pool.entryMeta.map (fun m => (m.size, m.lastModified, m.attributes, !m.deleted)) =
    a.records.map (fun c => (c.val.size, c.val.lastModified, c.val.attributes, c.live))
  wellFormed : s.pool.WellFormed
  adjacent : s.pool.Adjacent

variable {Γ : Locale} {cs : List (Cell Record)}

/-- An accessor of the layout of a log, from the view it returns. -/
theorem IndexPool.view_layout {α : Type} {view : EntryMeta → α} {f : Record → α}
    (h : ∀ i (hi : i < cs.length),
      view (layoutMeta cs[i] (offset (paths cs) i) (offset (lowerNames Γ cs) i)) = f cs[i].val) (i : Nat) :
    (layout Γ cs).entryMeta[i]?.map view = cs[i]?.map (fun c => f c.val) := by
  by_cases hi : i < cs.length
  · rw [getElem?_layout_of_lt Γ hi, List.getElem?_eq_getElem hi]
    exact congrArg some (h i hi)
  · rw [List.getElem?_eq_none (by simpa using Nat.le_of_not_lt hi), List.getElem?_eq_none (by omega)]
    rfl

/-- A length field of the layout of a log is the list of the lengths of its texts. -/
theorem IndexPool.map_layout {α : Type} {field : EntryMeta → α} {f : Record → α}
    (h : ∀ i (hi : i < cs.length),
      field (layoutMeta cs[i] (offset (paths cs) i) (offset (lowerNames Γ cs) i)) = f cs[i].val) :
    (layout Γ cs).entryMeta.map field = cs.map (fun c => f c.val) := by
  apply List.ext_getElem?
  intro i
  rw [List.getElem?_map, List.getElem?_map]
  exact view_layout h i

/-- The views of the layout of a log that fits lie end to end. -/
theorem IndexPool.adjacent_layout (h : LogTexts cs) : (layout Γ cs).Adjacent := by
  intro i hi
  have hi' : i < cs.length := by simpa using hi
  have hm := (List.getElem?_eq_getElem hi).symm.trans (getElem?_layout_of_lt Γ hi')
  rw [Option.some.injEq] at hm
  have hp : (layout Γ cs).entryMeta.map (fun m => m.pathLen.toNat) = (paths cs).map List.length := by
    rw [map_layout (f := fun r => r.path.length) (fun j hj => (layoutMeta_path h hj _).2.1), paths, List.map_map]
    rfl
  have hn : (layout Γ cs).entryMeta.map (fun m => m.nameLowerLen.toNat) = (lowerNames Γ cs).map List.length := by
    rw [map_layout (f := fun r => (nameOf r.path).length) (fun j hj => (layoutMeta_nameLower h hj _).2), lowerNames,
      List.map_map]
    exact List.map_congr_left (fun c _ => (Γ.length_lower _).symm)
  rw [hm, List.map_take, List.map_take, hp, hn, ← List.map_take, ← List.map_take]
  exact ⟨(layoutMeta_path h hi' _).1, (layoutMeta_nameLower h hi' _).1⟩

/-- A store whose pool is the layout of a log that fits simulates the abstract store with that log. -/
theorem simulates_layout {s : IndexStore} {a : RecordStore} (h : LogTexts a.records) (hp : s.pool = .layout Γ a.records)
    (hs : s.stagingBuf = a.staged) : Simulates Γ s a := by
  refine ⟨hs, ?_, ?_, ?_, ?_, ?_, ?_⟩
  · intro idx
    rw [hp]
    exact IndexPool.view_layout (fun i hi => IndexPool.pathView_layout h hi _) _
  · intro idx
    rw [hp]
    exact IndexPool.view_layout (f := fun r => nameOf r.path) (fun i hi => IndexPool.nameView_layout h hi _) _
  · intro idx
    rw [hp]
    exact IndexPool.view_layout (f := fun r => Γ.lower (nameOf r.path))
      (fun i hi => IndexPool.nameLowerView_layout h hi _) _
  · rw [hp]
    apply List.ext_getElem?
    intro i
    rw [List.getElem?_map, List.getElem?_map, IndexPool.getElem?_layout, Option.map_map]
    cases a.records[i]? with
    | none => rfl
    | some c => simp [layoutMeta]
  · rw [hp]
    exact IndexPool.wellFormed_layout h
  · rw [hp]
    exact IndexPool.adjacent_layout h

/-! ## Every run -/

/-- The store lays the abstract store out: its pool is the layout of the log, its staging buffer the staged entries. -/
structure LaysOut (Γ : Locale) (s : IndexStore) (a : RecordStore) : Prop where
  pool : s.pool = .layout Γ a.records
  staged : s.stagingBuf = a.staged
  wellNamed : ∀ e ∈ a.staged, e.WellNamed Γ

/-- One mutation: the new pool is the layout of the new log. -/
theorem laysOut_step {s : IndexStore} {a : RecordStore} (op : StoreOp) (h : LaysOut Γ s a) (hf : LogFits a.records)
    (hw : op.WellNamed Γ) (hf' : LogFits (a.step Γ op).records) : LaysOut Γ (op.run Γ s) (a.step Γ op) := by
  cases op with
  | beginWrite => exact ⟨h.pool, rfl, by simp [RecordStore.step]⟩
  | addEntry e =>
    refine ⟨h.pool, ?_, ?_⟩
    · show s.stagingBuf ++ [e] = a.staged ++ [e]
      rw [h.staged]
    · intro x hx
      rcases List.mem_append.1 hx with hx | hx
      · exact h.wellNamed x hx
      · rw [List.mem_singleton] at hx
        subst hx
        exact hw
  | endWrite =>
    have hp : ∀ e ∈ a.staged, e.path.length < 2 ^ 16 := fun e he => hf'.path e.cell (List.mem_map_of_mem he)
    refine ⟨?_, rfl, by simp [RecordStore.step]⟩
    show IndexPool.ofEntries Γ s.stagingBuf = _
    rw [h.staged, IndexPool.ofEntries_layout h.wellNamed hp]
    rfl
  | applyAdd e =>
    have he : e.path.length < 2 ^ 16 := hf'.path ⟨e.record, true⟩ (by simp [RecordStore.step, add])
    refine ⟨?_, h.staged, h.wellNamed⟩
    show s.pool.addEntry Γ e = _
    rw [h.pool, IndexPool.addEntry_layout _ hw he]
    rfl
  | applyRemove path =>
    refine ⟨IndexStore.applyRemove_layout hf h.pool path, ?_, h.wellNamed⟩
    exact (IndexStore.stagingBuf_applyRemove Γ s path).trans h.staged
  | applyRename oldPath newPath =>
    refine ⟨?_, ?_, ?_⟩
    · show (s.applyRename Γ oldPath newPath).pool = _
      simp only [RecordStore.step] at hf' ⊢
      cases hr : (lives a.records).find? (samePath Γ (Γ.lower oldPath)) with
      | none => rw [IndexStore.applyRename_layout_none hf h.pool hr]
      | some r =>
        rw [hr] at hf'
        have hn : newPath.length < 2 ^ 16 := hf'.path ⟨{ r with path := newPath }, true⟩ (by simp [add])
        rw [IndexStore.applyRename_layout_some hf h.pool hr hn]
    · have hl : ((StoreOp.applyRename oldPath newPath).run Γ s).stagingBuf = s.stagingBuf :=
        IndexStore.stagingBuf_applyRename Γ s oldPath newPath
      rw [hl, h.staged, RecordStore.step_staged_applyRename]
    · rw [RecordStore.step_staged_applyRename]
      exact h.wellNamed
  | removeEntriesUnderPath pfx =>
    exact ⟨IndexStore.removeEntriesUnderPath_layout hf h.pool pfx, h.staged, h.wellNamed⟩

/-- For every sequence of mutations that add well-named entries and keep the log within the narrow fields, the flat store
is in simulation with the list of records. -/
theorem store_simulates_records (Γ : Locale) (ops : List StoreOp) (hw : ∀ op ∈ ops, op.WellNamed Γ)
    (hf : Along (fun a => LogFits a.records) (RecordStore.step Γ) .empty ops) :
    Simulates Γ (final (StoreOp.run Γ) .empty ops) (final (RecordStore.step Γ) .empty ops) := by
  have h0 : LaysOut Γ .empty .empty := ⟨rfl, rfl, by simp [RecordStore.empty]⟩
  have h := simulation (R := LaysOut Γ) (fun s a op hR hQ hg hQ' => laysOut_step op hR hQ hg hQ') h0 hw hf
  exact simulates_layout hf.final.toLogTexts h.pool h.staged

namespace RefinementWitness

/-- A rebuild of two files, then a file added, one renamed, one removed, and a directory dropped. -/
def ops : List StoreOp :=
  let file (path : WString) : FileEntry := .ofPath .c path 3 5 0x20
  [.beginWrite,
    .addEntry (file (wide ['C', ':', '\\', 'R', '.', 'T'])),
    .addEntry (file (wide ['C', ':', '\\', 'd', '\\', 'a'])),
    .endWrite,
    .applyAdd { file (wide ['C', ':', '\\', 'b']) with nameLower := [] },
    .applyRename (wide ['c', ':', '\\', 'r', '.', 't']) (wide ['C', ':', '\\', 'd', '\\', 'S']),
    .applyRemove (wide ['C', ':', '\\', 'B']),
    .removeEntriesUnderPath (wide ['C', ':', '\\', 'D'])]

theorem store_simulates_records_ops :
    Simulates .c (final (StoreOp.run .c) .empty ops) (final (RecordStore.step .c) .empty ops) :=
  store_simulates_records .c ops (by decide +kernel) (by decide +kernel)

end RefinementWitness

/-! ## Beyond the indices

The accessors take a `uint32_t`, so a pool of more entries than that type has values does not simulate its records, even
when its texts fit: the loop of `ApplyRemove` then reads the paths of other entries.
-/

namespace Outgrown

/-- An entry of no text at all. -/
def blank : FileEntry := ⟨[], [], [], 0, 0, 0⟩

/-- An entry of one character. -/
def single : FileEntry := ⟨wide ['A'], wide ['a'], wide ['A'], 0, 0, 0⟩

/-- As many blank entries as asked for, and one entry more, which is then removed. -/
def ops (n : Nat) : List StoreOp := List.replicate n (.applyAdd blank) ++ [.applyAdd single, .applyRemove single.path]

/-- The abstract store after `n` blank entries. -/
theorem records_blank (n : Nat) (a : RecordStore) :
    final (RecordStore.step .c) a (List.replicate n (.applyAdd blank)) =
      { a with records := a.records ++ List.replicate n blank.cell } := by
  induction n generalizing a with
  | zero => simp
  | succ n ih => rw [List.replicate_succ, final_cons, ih]; simp [RecordStore.step, add, List.replicate_succ, FileEntry.cell]

/-- The flat store after `n` blank entries: their metadata is all the same, since no array grows. -/
theorem pool_blank (n : Nat) (s : IndexStore) :
    final (StoreOp.run .c) s (List.replicate n (.applyAdd blank)) =
      { s with pool := { s.pool with entryMeta := s.pool.entryMeta ++ List.replicate n (s.pool.newMeta .c blank) } } := by
  induction n generalizing s with
  | zero => simp
  | succ n ih =>
    have hl : blank.lowerName .c = [] := rfl
    have hp : blank.path = [] := rfl
    rw [List.replicate_succ, final_cons, ih]
    simp [StoreOp.run, IndexStore.applyAdd, IndexPool.addEntry, IndexPool.newMeta, List.replicate_succ, hl, hp]

/-- The pool when the last entry has been added after `n` blank ones. -/
def pool (n : Nat) : IndexPool :=
  ⟨List.replicate n (IndexPool.empty.newMeta .c blank) ++ [IndexPool.empty.newMeta .c single], wide ['a'], wide ['A']⟩

theorem final_pool (n : Nat) :
    (final (StoreOp.run .c) .empty (List.replicate n (.applyAdd blank) ++ [.applyAdd single])).pool = pool n := by
  rw [final_append, pool_blank]
  rfl

/-- With an entry at every index before it, the last entry is never reached: its index wraps to one of theirs. -/
theorem firstMatch_pool {n : Nat} (hn : 2 ^ 32 ≤ n) : (pool n).firstMatch .c (wide ['a']) = none := by
  rw [IndexPool.firstMatch, List.find?_eq_none]
  intro i hi
  have hlt : i % 2 ^ 32 < n := Nat.lt_of_lt_of_le (Nat.mod_lt _ (by decide)) hn
  have hg : (pool n).getPath (UInt32.ofNat i) = some [] := by
    rw [IndexPool.getPath, UInt32.toNat_ofNat', pool, List.getElem?_append_left (by rwa [List.length_replicate]),
      List.getElem?_replicate_of_lt hlt]
    rfl
  simp only [IndexPool.matchesAt, hg]
  cases (pool n).entryMeta[i]? with
  | none => simp
  | some m => simp [wide]

/-- The entry that was to be removed is still there. -/
theorem final_pool_ops {n : Nat} (hn : 2 ^ 32 ≤ n) : (final (StoreOp.run .c) .empty (ops n)).pool = pool n := by
  have hs : ops n = (List.replicate n (.applyAdd blank) ++ [.applyAdd single]) ++ [.applyRemove single.path] := by
    simp [ops]
  rw [hs, final_append]
  show (IndexStore.applyRemove .c _ single.path).pool = _
  have hl : Locale.c.lower single.path = wide ['a'] := by decide
  rw [IndexStore.applyRemove, hl, final_pool, firstMatch_pool hn]
  exact final_pool n

/-- In the abstract store it is not. -/
theorem final_records_ops (n : Nat) :
    (final (RecordStore.step .c) .empty (ops n)).records = List.replicate n blank.cell ++ [single.cell.kill] := by
  have hb : ∀ c ∈ List.replicate n blank.cell, c.hit (samePath .c (Locale.c.lower single.path)) = false := by
    intro c hc
    rw [(List.mem_replicate.1 hc).2]
    decide
  rw [ops, final_append, records_blank]
  show killFirst _ (([] ++ List.replicate n blank.cell) ++ [single.cell]) = _
  rw [List.nil_append, killFirst_append_of_not _ hb]
  rfl

theorem path_of_mem_blank {n : Nat} {c : Cell Record} (h : c ∈ List.replicate n blank.cell) : c.val.path = [] := by
  rw [(List.mem_replicate.1 h).2]
  rfl

/-- A log of empty paths and of one short one behind them. -/
theorem logTexts_blank_append {cs cs' : List (Cell Record)} (h : ∀ c ∈ cs, c.val.path = []) (h' : LogTexts cs') :
    LogTexts (cs ++ cs') := by
  have hb : (paths cs).flatten = [] := by
    rw [List.flatten_eq_nil_iff]
    intro t ht
    obtain ⟨c, hc, rfl⟩ := List.mem_map.1 ht
    exact h c hc
  refine ⟨?_, ?_⟩
  · intro c hc
    rcases List.mem_append.1 hc with hc | hc
    · rw [h c hc]
      decide
    · exact h'.path c hc
  · rw [paths, List.map_append, List.flatten_append, ← paths, hb]
    exact h'.pool

theorem logTexts_blank {cs : List (Cell Record)} (h : ∀ c ∈ cs, c.val.path = []) : LogTexts cs := by
  have := logTexts_blank_append h (⟨by simp, by decide⟩ : LogTexts [])
  rwa [List.append_nil] at this

/-- No text ever grows beyond one character. -/
theorem along_logTexts (n : Nat) : Along (fun a => LogTexts a.records) (RecordStore.step .c) .empty (ops n) := by
  have h0 : Along (fun a => ∀ c ∈ a.records, c.val.path = []) (RecordStore.step .c) .empty
      (List.replicate n (.applyAdd blank)) := by
    refine along_replicate n ?_ (by simp [RecordStore.empty])
    intro a h c hc
    rcases List.mem_append.1 hc with hc | hc
    · exact h c hc
    · rw [List.mem_singleton.1 hc]
      rfl
  have hlast : ∀ a : RecordStore, a.records = List.replicate n blank.cell ++ [single.cell.kill] → LogTexts a.records := by
    intro a ha
    rw [ha]
    exact logTexts_blank_append (fun c hc => path_of_mem_blank hc) ⟨by decide, by decide⟩
  have hend := hlast _ (final_records_ops n)
  refine along_append.2 ⟨h0.imp (fun a h => logTexts_blank h), ?_⟩
  rw [ops, final_append] at hend
  rw [records_blank] at hend ⊢
  refine along_cons.2 ⟨logTexts_blank (fun c hc => path_of_mem_blank hc), along_cons.2 ⟨?_, along_nil.2 hend⟩⟩
  exact logTexts_blank_append (fun c hc => path_of_mem_blank hc) ⟨by decide, by decide⟩

/-- Every entry added is well named. -/
theorem wellNamed_ops (n : Nat) : ∀ op ∈ ops n, op.WellNamed .c := by
  intro op hop
  rcases List.mem_append.1 hop with hop | hop
  · rw [(List.mem_replicate.1 hop).2]
    decide
  · simp only [List.mem_cons, List.not_mem_nil, or_false] at hop
    rcases hop with rfl | rfl <;> decide

end Outgrown

/-- Without the bound on the number of entries the simulation fails, though every text fits. -/
theorem store_outgrows_its_indices :
    (∀ op ∈ Outgrown.ops (2 ^ 32), op.WellNamed .c) ∧
      Along (fun a => LogTexts a.records) (RecordStore.step .c) .empty (Outgrown.ops (2 ^ 32)) ∧
      ¬Simulates .c (final (StoreOp.run .c) .empty (Outgrown.ops (2 ^ 32)))
        (final (RecordStore.step .c) .empty (Outgrown.ops (2 ^ 32))) := by
  refine ⟨Outgrown.wellNamed_ops _, Outgrown.along_logTexts _, ?_⟩
  intro h
  have hm := h.metadata
  rw [Outgrown.final_pool_ops (Nat.le_refl _), Outgrown.final_records_ops, Outgrown.pool, List.map_append,
    List.map_append] at hm
  exact absurd (List.append_inj_right' hm rfl) (by decide)

end WinIndex
