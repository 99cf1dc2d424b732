import WinIndex.Lemmas.Batch

/-!
# What an event does to the live entries of a path

Up to case, an event for an added file makes its path live, one for a removed file leaves one live entry less of it, and
neither touches another path. That is all the rebuild and the watchers need to know of the pool.
-/

namespace WinIndex

open Trace

variable {Γ : Locale}

/-- How many live entries have a path, up to case; the path is given folded. -/
def IndexPool.liveCount (Γ : Locale) (p : IndexPool) (key : WString) : Nat := p.live.countP (samePath Γ key)

/-- A live entry has the path, up to case. -/
def IndexPool.IsLive (Γ : Locale) (p : IndexPool) (key : WString) : Prop := ∃ r ∈ p.live, Γ.lower r.path = key

instance (p : IndexPool) (key : WString) : Decidable (p.IsLive Γ key) := inferInstanceAs (Decidable (∃ r ∈ p.live, _))

theorem IndexPool.isLive_iff {p : IndexPool} {key : WString} : p.IsLive Γ key ↔ 0 < p.liveCount Γ key := by
  rw [liveCount, List.countP_pos_iff]
  simp only [samePath, decide_eq_true_eq]
  exact Iff.rfl

theorem samePath_iff {key : WString} {r : Record} : samePath Γ key r = true ↔ Γ.lower r.path = key := decide_eq_true_iff

/-- Erasing the first value that passes a test leaves one less to count. -/
theorem countP_eraseP_self {α : Type} (P : α → Bool) (xs : List α) : (xs.eraseP P).countP P = xs.countP P - 1 := by
  induction xs with
  | nil => rfl
  | cons x xs ih =>
    cases hP : P x with
    | true => simp [hP]
    | false => simp [hP, ih]

/-- Erasing a value that passes one test leaves as many that pass another, when no value passes both. -/
theorem countP_eraseP_of_disjoint {α : Type} {P Q : α → Bool} (h : ∀ x, P x = true → Q x = false) (xs : List α) :
    (xs.eraseP P).countP Q = xs.countP Q := by
  induction xs with
  | nil => rfl
  | cons x xs ih =>
    cases hP : P x with
    | true => simp [hP, h x hP]
    | false => simp [hP, ih, List.countP_cons]

/-! ## The mutations -/

theorem isLive_applyAdd {s : IndexStore} {e : FileEntry} (hs : s.pool.Sound) (hf : s.pool.Fits e.path) (key : WString) :
    (s.applyAdd Γ e).pool.IsLive Γ key ↔ s.pool.IsLive Γ key ∨ Γ.lower e.path = key := by
  have hlive := IndexStore.live_applyAdd (Γ := Γ) e hs
  rw [hf.stored_eq] at hlive
  rw [IndexPool.IsLive, IndexPool.IsLive, hlive]
  constructor
  · rintro ⟨r, hr, hkey⟩
    rcases List.mem_append.1 hr with hr | hr
    · exact .inl ⟨r, hr, hkey⟩
    · rw [List.mem_singleton.1 hr] at hkey
      exact .inr hkey
  · rintro (⟨r, hr, hkey⟩ | hkey)
    · exact ⟨r, List.mem_append_left _ hr, hkey⟩
    · exact ⟨e.record, by simp, hkey⟩

/-- An addition is one more live entry of its path. -/
theorem liveCount_applyAdd {s : IndexStore} {e : FileEntry} (hs : s.pool.Sound) (hf : s.pool.Fits e.path) (key : WString) :
    (s.applyAdd Γ e).pool.liveCount Γ key = s.pool.liveCount Γ key + if Γ.lower e.path = key then 1 else 0 := by
  have hrecord : samePath Γ key e.record = decide (Γ.lower e.path = key) := rfl
  rw [IndexPool.liveCount, IndexPool.liveCount, IndexStore.live_applyAdd e hs, hf.stored_eq, List.countP_append,
    List.countP_singleton, hrecord]
  simp only [decide_eq_true_eq]

theorem liveCount_applyRemove {s : IndexStore} (hs : s.pool.Sound) (path key : WString) :
    (s.applyRemove Γ path).pool.liveCount Γ key =
      if Γ.lower path = key then s.pool.liveCount Γ key - 1 else s.pool.liveCount Γ key := by
  rw [IndexPool.liveCount, IndexPool.liveCount, IndexStore.live_applyRemove path hs]
  split
  · rename_i h
    rw [h, countP_eraseP_self]
  · rename_i h
    refine countP_eraseP_of_disjoint (fun r hr => ?_) _
    rw [samePath_iff] at hr
    simpa [samePath, hr] using h

/-- After a rebuild the live paths are the staged ones. -/
theorem isLive_endWrite {s : IndexStore} (hroom : IndexPool.empty.HasRoom s.stagingBuf) (key : WString) :
    (s.endWrite Γ).pool.IsLive Γ key ↔ ∃ fe ∈ s.stagingBuf, Γ.lower fe.path = key := by
  obtain ⟨hlive, -⟩ := IndexPool.live_ofEntries (Γ := Γ) hroom
  have hpool : (s.endWrite Γ).pool.live = s.stagingBuf.map FileEntry.record := hlive
  rw [IndexPool.IsLive, hpool]
  simp only [List.mem_map, exists_exists_and_eq_and, FileEntry.record_path]

/-! ## The events -/

variable {s : IndexStore} (attributes : WString → Option AttributeData)

/-- An `Added` event makes its path live, when a file is there. -/
theorem isLive_added {path : WString} (hs : s.pool.Sound) (hf : s.pool.Fits path) (oldPath key : WString) :
    (s.applyChange Γ attributes ⟨.added, path, oldPath⟩).pool.IsLive Γ key ↔
      s.pool.IsLive Γ key ∨ (IsFile attributes path ∧ Γ.lower path = key) := by
  unfold IndexStore.applyChange applyChange
  by_cases hfile : IsFile attributes path
  · obtain ⟨fad, hops⟩ := buildAndApplyAdd_of_isFile Γ hfile
    simp only [hops, final_cons, final_nil, hfile, true_and]
    exact isLive_applyAdd hs hf key
  · simp only [buildAndApplyAdd_of_not_isFile Γ hfile, final_nil, hfile, false_and, or_false]

theorem sound_added {path : WString} (hs : s.pool.Sound) (hc : s.pool.entryMeta.length < 2 ^ 32) (oldPath : WString) :
    (s.applyChange Γ attributes ⟨.added, path, oldPath⟩).pool.Sound := by
  unfold IndexStore.applyChange applyChange
  by_cases hfile : IsFile attributes path
  · obtain ⟨fad, hops⟩ := buildAndApplyAdd_of_isFile Γ hfile
    simp only [hops]
    exact hs.addEntry hc Γ _
  · simp only [buildAndApplyAdd_of_not_isFile Γ hfile]
    exact hs

end WinIndex
