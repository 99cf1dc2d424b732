import WinIndex.IndexStore
import WinIndex.Lib.Trace

/-!
# The store as a map keyed by folded path

`ApplyRemove` and `ApplyRename` stop at the first live match, which is the only one as long as no two live entries have the
same path up to case. The additions do not look for one: `ApplyAdd` and the target of `ApplyRename` append. So the store
behaves as a map exactly in the runs that never append a path that is live.
-/

namespace WinIndex

open Tombstone Trace

/-- The key of a record: its path up to case. -/
def foldedPath (Γ : Locale) (r : Record) : WString := Γ.lower r.path

theorem samePath_eq_hasKey (Γ : Locale) (lower : WString) : samePath Γ lower = hasKey (foldedPath Γ) lower := rfl

/-- A mutation of the published pool that has an index left for the entry it may add. -/
def StoreOp.HasIndex (s : IndexStore) : StoreOp → Prop
  | .applyAdd _ | .applyRename _ _ => s.pool.entryMeta.length < 2 ^ 32
  | .applyRemove _ | .removeEntriesUnderPath _ => True
  | .beginWrite | .addEntry _ | .endWrite => False

instance (s : IndexStore) : (op : StoreOp) → Decidable (op.HasIndex s)
  | .applyAdd _ | .applyRename _ _ => inferInstanceAs (Decidable (_ < _))
  | .applyRemove _ | .removeEntriesUnderPath _ => .isTrue trivial
  | .beginWrite | .addEntry _ | .endWrite => .isFalse id

/-- What a mutation must do for the store to be a map: it leaves the live paths distinct up to case, `ApplyRemove` leaves no
live entry with its path, and `ApplyAdd` of a path already live replaces the entry. -/
structure StoreOp.AsMap (Γ : Locale) (s : IndexStore) (op : StoreOp) : Prop where
  distinct : Distinct (foldedPath Γ) (op.run Γ s).pool.live
  removed : ∀ path, op = .applyRemove path → ∀ r ∈ (op.run Γ s).pool.live, foldedPath Γ r ≠ Γ.lower path
  replaced : ∀ e, op = .applyAdd e → (∃ r ∈ s.pool.live, foldedPath Γ r = Γ.lower e.path) →
    ∀ r, r ∈ (op.run Γ s).pool.live ↔ (r ∈ s.pool.live ∧ foldedPath Γ r ≠ Γ.lower e.path) ∨ r = e.record

/-- The path a mutation appends is not live: neither the path given to `ApplyAdd` nor the one the pool stores for it, and
nor, where the old path of `ApplyRename` is live, the new one among the other entries. -/
def StoreOp.Fresh (Γ : Locale) (s : IndexStore) : StoreOp → Prop
  | .applyAdd e => ∀ r ∈ s.pool.live,
      foldedPath Γ r ≠ Γ.lower e.path ∧ foldedPath Γ r ≠ Γ.lower (s.pool.storedPath e.path)
  | .applyRename oldPath newPath => (∃ r ∈ s.pool.live, foldedPath Γ r = Γ.lower oldPath) →
      ∀ r ∈ s.pool.live, foldedPath Γ r ≠ Γ.lower oldPath → foldedPath Γ r ≠ Γ.lower (s.pool.storedPath newPath)
  | _ => True

variable {Γ : Locale} {s : IndexStore}

/-! ## One mutation -/

/-- `ApplyAdd` acts as on a map exactly when the path is not live. -/
theorem asMap_applyAdd_iff (hs : s.pool.Sound) (hd : Distinct (foldedPath Γ) s.pool.live) (e : FileEntry) :
    (StoreOp.applyAdd e).AsMap Γ s ↔ (StoreOp.applyAdd e).Fresh Γ s := by
  have hlive : ((StoreOp.applyAdd e).run Γ s).pool.live = s.pool.live ++ [s.pool.stored e] := IndexStore.live_applyAdd e hs
  have hiff := distinct_append_iff hd (s.pool.stored e)
  constructor
  · intro h r hr
    have hdis := h.distinct
    rw [hlive, hiff] at hdis
    refine ⟨?_, hdis r hr⟩
    intro heq
    -- the entry of that path would have to go, but appending removes nothing
    have hrep := h.replaced e rfl ⟨r, hr, heq⟩
    rw [hlive] at hrep
    have hre : r = e.record := by
      rcases (hrep r).1 (List.mem_append_left _ hr) with ⟨-, hne⟩ | hre
      · exact absurd heq hne
      · exact hre
    rcases (hrep (s.pool.stored e)).1 (by simp) with ⟨hmem, -⟩ | hst
    · exact hdis _ hmem rfl
    · exact hdis r hr (by rw [hst, hre])
  · intro h
    refine ⟨?_, ?_, ?_⟩
    · rw [hlive, hiff]
      exact fun r hr => (h r hr).2
    · rintro path ⟨⟩
    · rintro e' he' ⟨r, hr, heq⟩
      cases he'
      exact absurd heq (h r hr).1

/-- `ApplyRemove` acts as on a map: the first match is the only one. -/
theorem asMap_applyRemove (hs : s.pool.Sound) (hd : Distinct (foldedPath Γ) s.pool.live) (path : WString) :
    (StoreOp.applyRemove path).AsMap Γ s := by
  have hlive : ((StoreOp.applyRemove path).run Γ s).pool.live = s.pool.live.eraseP (hasKey (foldedPath Γ) (Γ.lower path)) :=
    IndexStore.live_applyRemove path hs
  refine ⟨?_, ?_, ?_⟩
  · rw [hlive]
    exact hd.eraseP _
  · intro path' heq
    cases heq
    rw [hlive]
    exact hd.not_mem_eraseP _
  · rintro e ⟨⟩

theorem asMap_removeEntriesUnderPath (hs : s.pool.Sound) (hd : Distinct (foldedPath Γ) s.pool.live) (pfx : WString) :
    (StoreOp.removeEntriesUnderPath pfx).AsMap Γ s := by
  refine ⟨?_, ?_, ?_⟩
  · show Distinct (foldedPath Γ) (s.removeEntriesUnderPath Γ pfx).pool.live
    rw [IndexStore.live_removeEntriesUnderPath pfx hs]
    exact hd.filter _
  · rintro path ⟨⟩
  · rintro e ⟨⟩

/-- `ApplyRename` acts as on a map exactly when the new path is not live but as the entry renamed. -/
theorem asMap_applyRename_iff (hs : s.pool.Sound) (hd : Distinct (foldedPath Γ) s.pool.live) (oldPath newPath : WString) :
    (StoreOp.applyRename oldPath newPath).AsMap Γ s ↔ (StoreOp.applyRename oldPath newPath).Fresh Γ s := by
  have hlive : ((StoreOp.applyRename oldPath newPath).run Γ s).pool.live = _ :=
    IndexStore.live_applyRename oldPath newPath hs
  have hdis : (StoreOp.applyRename oldPath newPath).AsMap Γ s ↔
      Distinct (foldedPath Γ) ((StoreOp.applyRename oldPath newPath).run Γ s).pool.live :=
    ⟨fun h => h.distinct, fun h => ⟨h, by rintro path ⟨⟩, by rintro e ⟨⟩⟩⟩
  rw [hdis, hlive, samePath_eq_hasKey]
  cases hf : s.pool.live.find? (hasKey (foldedPath Γ) (Γ.lower oldPath)) with
  | none =>
    have hno : ¬∃ r ∈ s.pool.live, foldedPath Γ r = Γ.lower oldPath := by
      rintro ⟨r, hr, heq⟩
      have := List.find?_eq_none.1 hf r hr
      exact this ((hasKey_iff _ _ _).2 heq)
    exact ⟨fun _ h => absurd h hno, fun _ => hd⟩
  | some r =>
    have hex : ∃ r ∈ s.pool.live, foldedPath Γ r = Γ.lower oldPath :=
      ⟨r, List.mem_of_find?_eq_some hf, (hasKey_iff _ _ _).1 (List.find?_some hf)⟩
    simp only
    rw [distinct_append_iff (hd.eraseP _), hd.eraseP_eq_filter]
    constructor
    · intro h _ x hx hne
      exact h x (List.mem_filter.2 ⟨hx, by simpa [hasKey] using hne⟩)
    · intro h x hx
      obtain ⟨hx, hne⟩ := List.mem_filter.1 hx
      exact h hex x hx (by simpa [hasKey] using hne)

theorem asMap_iff_fresh (hs : s.pool.Sound) (hd : Distinct (foldedPath Γ) s.pool.live) {op : StoreOp} (hi : op.HasIndex s) :
    op.AsMap Γ s ↔ op.Fresh Γ s := by
  cases op with
  | applyAdd e => exact asMap_applyAdd_iff hs hd e
  | applyRemove path => exact ⟨fun _ => trivial, fun _ => asMap_applyRemove hs hd path⟩
  | applyRename oldPath newPath => exact asMap_applyRename_iff hs hd oldPath newPath
  | removeEntriesUnderPath pfx => exact ⟨fun _ => trivial, fun _ => asMap_removeEntriesUnderPath hs hd pfx⟩
  | beginWrite | addEntry _ | endWrite => exact hi.elim

/-- A mutation that has an index left keeps the pool sound. -/
theorem sound_run (Γ : Locale) (hs : s.pool.Sound) {op : StoreOp} (hi : op.HasIndex s) : (op.run Γ s).pool.Sound := by
  cases op with
  | applyAdd e => exact hs.addEntry hi Γ e
  | applyRemove path => exact IndexStore.sound_applyRemove path hs
  | applyRename oldPath newPath => exact IndexStore.sound_applyRename oldPath newPath hs hi
  | removeEntriesUnderPath pfx => exact IndexStore.sound_removeEntriesUnderPath pfx hs
  | beginWrite | addEntry _ | endWrite => exact hi.elim

/-! ## Every run -/

/-- From a store with distinct live paths, a run acts as on a map at every step exactly when no step appends a path that is
live. -/
theorem run_asMap_iff_fresh (Γ : Locale) (s : IndexStore) (ops : List StoreOp) (hs : s.pool.Sound)
    (hd : Distinct (foldedPath Γ) s.pool.live) (hi : Meets (fun s op => op.HasIndex s) (StoreOp.run Γ) s ops) :
    Meets (fun s op => op.AsMap Γ s) (StoreOp.run Γ) s ops ↔ Meets (fun s op => op.Fresh Γ s) (StoreOp.run Γ) s ops :=
  meets_congr (I := fun s => s.pool.Sound ∧ Distinct (foldedPath Γ) s.pool.live)
    (fun _ _ h hi hm => ⟨sound_run Γ h.1 hi, hm.distinct⟩) (fun _ _ h hi => asMap_iff_fresh h.1 h.2 hi) ⟨hs, hd⟩ hi

namespace KeyedWitness

/-- A file as a scanner reports it. -/
def file (path : WString) : FileEntry := .ofPath .c path 3 5 0x20

/-- `C:\A`. -/
def pathA : WString := wide ['C', ':', '\\', 'A']

/-- `C:\B`. -/
def pathB : WString := wide ['C', ':', '\\', 'B']

/-- A file added, renamed onto a free path, and another added where the first one was. -/
def ops : List StoreOp := [.applyAdd (file pathA), .applyRename pathA pathB, .applyAdd (file pathA), .applyRemove pathB]

theorem run_asMap_iff_fresh_ops :
    Meets (fun s op => op.AsMap .c s) (StoreOp.run .c) .empty ops ↔
      Meets (fun s op => op.Fresh .c s) (StoreOp.run .c) .empty ops :=
  run_asMap_iff_fresh .c .empty ops IndexPool.sound_empty (by decide) (by decide +kernel)

end KeyedWitness

/-- The same file reported twice is live twice, and removing it once leaves it live. -/
theorem removed_path_stays_live :
    let e := KeyedWitness.file KeyedWitness.pathA
    let twice := final (StoreOp.run .c) .empty [.applyAdd e, .applyAdd e]
    Distinct (foldedPath .c) IndexStore.empty.pool.live ∧
      ¬Distinct (foldedPath .c) twice.pool.live ∧
      ∃ r ∈ ((StoreOp.applyRemove e.path).run .c twice).pool.live, foldedPath .c r = Locale.c.lower e.path := by
  decide +kernel

end WinIndex
