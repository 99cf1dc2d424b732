import WinIndex.Lemmas.Events
import WinIndex.Lib.Assoc

/-!
# A rebuild while the watchers go on

A forced rebuild leaves the watchers of the earlier build running. Their events go to the published pool, which `EndWrite`
replaces by what the scans reported: an event delivered before it survives only if the scan has seen the change already.
After `EndWrite` the events find the new pool, where a path can be live twice.
-/

namespace WinIndex

open Tombstone Trace

/-- A rebuild under way: the store, the buffers of the scanning threads, the mutations the indexing thread has still to issue
(`none` while it waits for the scans), and, the newest first, what each event delivered since the start said of its folded
path: that a file is there, or not. -/
structure Rebuild where
  store : IndexStore
  perDrive : List (List FileEntry)
  todo : Option (List StoreOp)
  delivered : List (WString × Bool)

/-- A rebuild that has just started, of so many drives. -/
def Rebuild.start (store : IndexStore) (drives : Nat) : Rebuild := ⟨store, List.replicate drives [], none, []⟩

/-- One step of the threads. A scan reports an entry, any entry, as the tree may change under it; `indexing` is the next step
of the indexing thread; `added` and `removed` are events a watcher delivers, with what `GetFileAttributesExW` says then. -/
inductive RebuildStep where
  | emit (drive : Nat) (fe : FileEntry)
  | indexing
  | added (attributes : WString → Option AttributeData) (path : WString)
  | removed (attributes : WString → Option AttributeData) (path : WString)

/-- What `IndexingThread` does to the store once the scanning threads are joined. -/
def rebuildOps (perDrive : List (List FileEntry)) : List StoreOp :=
  .beginWrite :: perDrive.flatten.map .addEntry ++ [.endWrite]

/-- With the scans of an unchanging file system in the buffers, that is the indexing thread. -/
theorem indexingThread_eq (Γ : Locale) (fs : FileSystem) (selectedDrives excludedPaths : List WString) :
    indexingThread Γ fs selectedDrives excludedPaths =
      rebuildOps ((effectiveDrives fs selectedDrives).map (scanDriveInto Γ fs excludedPaths)) := by
  rw [indexingThread, rebuildOps, scanAll, List.flatMap_def]

/-- The effect of a step. -/
def Rebuild.step (Γ : Locale) (s : Rebuild) : RebuildStep → Rebuild
  | .emit drive fe =>
    match s.todo with
    | none => { s with perDrive := s.perDrive.modify drive (fun buf => buf ++ [fe]) }
    | some _ => s
  | .indexing =>
    match s.todo with
    | none => { s with todo := some (rebuildOps s.perDrive) }
    | some [] => s
    | some (op :: rest) => { s with store := op.run Γ s.store, todo := some rest }
  | .added attributes path =>
    { s with
      store := s.store.applyChange Γ attributes ⟨.added, path, []⟩
      delivered := (Γ.lower path, decide (IsFile attributes path)) :: s.delivered }
  | .removed attributes path =>
    { s with
      store := s.store.applyChange Γ attributes ⟨.removed, path, []⟩
      delivered := (Γ.lower path, false) :: s.delivered }

/-- The indexing thread is done. -/
def Rebuild.Completed (s : Rebuild) : Prop := s.todo.any List.isEmpty = true

/-- The next step of the indexing thread is `EndWrite`. -/
def Rebuild.AtEndWrite (s : Rebuild) : Prop :=
  match s.todo with
  | some [.endWrite] => True
  | _ => False

instance (s : Rebuild) : Decidable s.Completed := inferInstanceAs (Decidable (_ = true))

instance (s : Rebuild) : Decidable s.AtEndWrite := by
  unfold Rebuild.AtEndWrite
  split
  · exact .isTrue trivial
  · exact .isFalse id

/-- A scan has reported the path, up to case. -/
def Rebuild.Emitted (Γ : Locale) (s : Rebuild) (key : WString) : Prop := ∃ fe ∈ s.perDrive.flatten, Γ.lower fe.path = key

instance (Γ : Locale) (s : Rebuild) (key : WString) : Decidable (s.Emitted Γ key) :=
  inferInstanceAs (Decidable (∃ fe ∈ _, _))

/-- A path ought to be live: the last event for it found a file, or there was none and a scan reported it. -/
def Rebuild.Expected (Γ : Locale) (s : Rebuild) (key : WString) : Prop :=
  match s.delivered.lookup key with
  | some present => present = true
  | none => s.Emitted Γ key

instance (Γ : Locale) (s : Rebuild) (key : WString) : Decidable (s.Expected Γ key) := by
  unfold Rebuild.Expected
  split <;> infer_instance

/-- No delivered change is lost: once the rebuild has completed, exactly the paths are live that ought to be. -/
def Rebuild.LosesNothing (Γ : Locale) (s : Rebuild) : Prop :=
  s.Completed → ∀ key, s.store.pool.IsLive Γ key ↔ s.Expected Γ key

/-- A step that loses nothing. When `EndWrite` comes, the scans have reported, of the paths with an event, those whose last
event found a file. From then on a removed path is live at most once, and an added path where there is no file is not
live. -/
def RebuildStep.Keeps (Γ : Locale) (s : Rebuild) : RebuildStep → Prop
  | .emit _ _ => True
  | .indexing => s.AtEndWrite → ∀ d ∈ s.delivered, s.Emitted Γ d.1 ↔ s.delivered.lookup d.1 = some true
  | .added attributes path => s.Completed → ¬IsFile attributes path → ¬s.store.pool.IsLive Γ (Γ.lower path)
  | .removed _ path => s.Completed → s.store.pool.liveCount Γ (Γ.lower path) ≤ 1

/-- The pool has room for what a step adds. -/
def RebuildStep.HasRoom (s : Rebuild) : RebuildStep → Prop
  | .emit _ _ | .removed _ _ => True
  | .indexing => s.AtEndWrite → IndexPool.empty.HasRoom s.store.stagingBuf
  | .added _ path => s.store.pool.Fits path ∧ s.store.pool.entryMeta.length < 2 ^ 32

instance (Γ : Locale) (s : Rebuild) : (step : RebuildStep) → Decidable (step.Keeps Γ s)
  | .emit _ _ => .isTrue trivial
  | .indexing => inferInstanceAs (Decidable (s.AtEndWrite → _))
  | .added _ _ => inferInstanceAs (Decidable (s.Completed → _ → _))
  | .removed _ _ => inferInstanceAs (Decidable (s.Completed → _))

/-! ## Where the indexing thread is -/

/-- How far the indexing thread has got, from the entries the scans have reported and what is staged. -/
inductive IndexingAt (emitted : List FileEntry) : Option (List StoreOp) → List FileEntry → Prop
  | scanning (buf : List FileEntry) : IndexingAt emitted none buf
  | joined (buf : List FileEntry) : IndexingAt emitted (some (.beginWrite :: emitted.map .addEntry ++ [.endWrite])) buf
  | staging (staged rest : List FileEntry) (h : staged ++ rest = emitted) :
      IndexingAt emitted (some (rest.map .addEntry ++ [.endWrite])) staged
  | completed (buf : List FileEntry) : IndexingAt emitted (some []) buf

/-- What holds in every state of a rebuild. -/
structure Rebuild.Valid (s : Rebuild) : Prop where
  sound : s.store.pool.Sound
  indexing : IndexingAt s.perDrive.flatten s.todo s.store.stagingBuf

variable {Γ : Locale} {s : Rebuild}

/-- An event stages nothing. -/
theorem stagingBuf_added (attributes : WString → Option AttributeData) (path : WString) (store : IndexStore) :
    (store.applyChange Γ attributes ⟨.added, path, []⟩).stagingBuf = store.stagingBuf := by
  unfold IndexStore.applyChange applyChange
  by_cases hfile : IsFile attributes path
  · obtain ⟨fad, hops⟩ := buildAndApplyAdd_of_isFile Γ hfile
    simp only [hops]
    rfl
  · simp only [buildAndApplyAdd_of_not_isFile Γ hfile]
    rfl

/-- At `EndWrite` everything the scans reported is staged. -/
theorem Rebuild.Valid.stagingBuf_eq (hs : s.Valid) (h : s.AtEndWrite) : s.store.stagingBuf = s.perDrive.flatten := by
  obtain ⟨store, perDrive, todo, delivered⟩ := s
  obtain ⟨-, hat⟩ := hs
  simp only at hat h ⊢
  generalize store.stagingBuf = buf at hat ⊢
  cases hat with
  | scanning | joined | completed => exact h.elim
  | staging _ rest hemitted =>
    cases rest with
    | nil => rwa [List.append_nil] at hemitted
    | cons fe rest => exact h.elim

theorem valid_step (Γ : Locale) (s : Rebuild) (step : RebuildStep) (hs : s.Valid) (hroom : step.HasRoom s) :
    (s.step Γ step).Valid := by
  obtain ⟨store, perDrive, todo, delivered⟩ := s
  obtain ⟨hsound, hat⟩ := hs
  cases step with
  | emit drive fe =>
    cases todo with
    | none => exact ⟨hsound, .scanning _⟩
    | some ops => exact ⟨hsound, hat⟩
  | indexing =>
    simp only at hat
    generalize hbuf : store.stagingBuf = buf at hat
    cases hat with
    | scanning => exact ⟨hsound, .joined _⟩
    | joined => exact ⟨hsound, .staging [] _ rfl⟩
    | staging _ rest hemitted =>
      cases rest with
      | nil => exact ⟨(IndexPool.live_ofEntries (hroom trivial)).2, .completed _⟩
      | cons fe rest =>
        have hstaged : ((StoreOp.addEntry fe).run Γ store).stagingBuf = buf ++ [fe] := by
          rw [← hbuf]
          rfl
        have hemitted' : buf ++ [fe] ++ rest = perDrive.flatten := by
          rw [← hemitted, List.append_assoc, List.singleton_append]
        refine ⟨hsound, ?_⟩
        show IndexingAt _ _ ((StoreOp.addEntry fe).run Γ store).stagingBuf
        rw [hstaged]
        exact .staging _ _ hemitted'
    | completed => exact ⟨hsound, .completed _⟩
  | added attributes path =>
    refine ⟨sound_added attributes hsound hroom.2 [], ?_⟩
    rw [← stagingBuf_added (Γ := Γ) attributes path store] at hat
    exact hat
  | removed attributes path =>
    refine ⟨IndexStore.sound_applyRemove path hsound, ?_⟩
    rw [← IndexStore.stagingBuf_applyRemove Γ store path] at hat
    exact hat

/-! ## One step -/

/-- The scans and the events agree on every path exactly when they do on the paths that have an event. -/
theorem emitted_iff_expected :
    (∀ key, s.Emitted Γ key ↔ s.Expected Γ key) ↔
      ∀ d ∈ s.delivered, s.Emitted Γ d.1 ↔ s.delivered.lookup d.1 = some true := by
  constructor
  · intro h d hd
    rw [h d.1, Rebuild.Expected]
    cases hl : s.delivered.lookup d.1 with
    | none => exact absurd (List.lookup_eq_none_iff.1 hl d hd) (by simp)
    | some present => simp
  · intro h key
    rw [Rebuild.Expected]
    cases hl : s.delivered.lookup key with
    | none => exact Iff.rfl
    | some present =>
      have hd := h (key, present) (Assoc.mem_of_lookup hl)
      rw [hd, hl]
      simp

/-- Once the rebuild has completed, an event that touches its own path alone loses nothing exactly when it leaves that path
live or not as it says. -/
theorem losesNothing_event_iff (hP : s.LosesNothing Γ) (hc : s.Completed) {store : IndexStore} {key : WString}
    (present : Bool) (hother : ∀ key', key' ≠ key → (store.pool.IsLive Γ key' ↔ s.store.pool.IsLive Γ key')) :
    Rebuild.LosesNothing Γ { s with store := store, delivered := (key, present) :: s.delivered } ↔
      (store.pool.IsLive Γ key ↔ present = true) := by
  constructor
  · intro h
    have hkey := h hc key
    rwa [Rebuild.Expected, List.lookup_cons_self] at hkey
  · intro h _ key'
    by_cases hkey : key' = key
    · rw [hkey, Rebuild.Expected, List.lookup_cons_self]
      exact h
    · have hlookup : ((key, present) :: s.delivered).lookup key' = s.delivered.lookup key' := by
        rw [List.lookup_cons, beq_false_of_ne hkey]
      rw [Rebuild.Expected, hlookup, hother key' hkey]
      exact hP hc key'

/-- A rebuild that has not completed has lost nothing yet. -/
theorem losesNothing_of_not_completed (h : ¬s.Completed) : s.LosesNothing Γ := fun hc => absurd hc h

theorem losesNothing_of_scanning (h : s.todo = none) : s.LosesNothing Γ :=
  losesNothing_of_not_completed (by simp [Rebuild.Completed, h])

theorem losesNothing_of_todo {op : StoreOp} {ops : List StoreOp} (h : s.todo = some (op :: ops)) : s.LosesNothing Γ :=
  losesNothing_of_not_completed (by simp [Rebuild.Completed, h])

/-- `EndWrite` loses nothing exactly when the scans have seen what the events said. -/
theorem losesNothing_indexing_iff (hs : s.Valid) (hP : s.LosesNothing Γ) (hroom : RebuildStep.indexing.HasRoom s) :
    (s.step Γ .indexing).LosesNothing Γ ↔ RebuildStep.indexing.Keeps Γ s := by
  have hstaged := hs.stagingBuf_eq
  obtain ⟨store, perDrive, todo, delivered⟩ := s
  obtain ⟨hsound, hat⟩ := hs
  simp only at hat hstaged
  generalize hbuf : store.stagingBuf = buf at hat
  cases hat with
  | scanning => exact ⟨fun _ h => h.elim, fun _ => losesNothing_of_todo rfl⟩
  | joined =>
    refine ⟨fun _ h => h.elim, fun _ => losesNothing_of_not_completed ?_⟩
    simp [Rebuild.step, Rebuild.Completed]
  | staging _ rest =>
    cases rest with
    | nil =>
      have hlive : ∀ key, (store.endWrite Γ).pool.IsLive Γ key ↔ ∃ fe ∈ perDrive.flatten, Γ.lower fe.path = key := by
        intro key
        rw [isLive_endWrite (hroom trivial), hstaged trivial]
      have hall : RebuildStep.indexing.Keeps Γ ⟨store, perDrive, some [.endWrite], delivered⟩ ↔ _ :=
        forall_prop_of_true trivial
      rw [List.map_nil, List.nil_append, hall, ← emitted_iff_expected]
      constructor
      · intro h key
        exact (hlive key).symm.trans (h rfl key)
      · intro h _ key
        exact (hlive key).trans (h key)
    | cons fe rest =>
      refine ⟨fun _ h => h.elim, fun _ => losesNothing_of_not_completed ?_⟩
      simp [Rebuild.step, Rebuild.Completed]
  | completed => exact ⟨fun _ h => h.elim, fun _ => hP⟩

/-- A step loses nothing exactly under its condition. -/
theorem losesNothing_step_iff (step : RebuildStep) (hs : s.Valid) (hP : s.LosesNothing Γ) (hroom : step.HasRoom s) :
    (s.step Γ step).LosesNothing Γ ↔ step.Keeps Γ s := by
  cases step with
  | emit drive fe =>
    constructor
    · intro _
      trivial
    · intro _
      obtain ⟨store, perDrive, todo, delivered⟩ := s
      cases todo with
      | none => exact losesNothing_of_scanning rfl
      | some ops => exact hP
  | indexing => exact losesNothing_indexing_iff hs hP hroom
  | added attributes path =>
    have hlive := isLive_added (Γ := Γ) attributes hs.sound hroom.1 []
    by_cases hc : s.Completed
    · refine (losesNothing_event_iff hP hc _ ?_).trans ?_
      · intro key hne
        exact (hlive key).trans (or_iff_left (fun h => hne h.2.symm))
      · have hkeeps : (RebuildStep.added attributes path).Keeps Γ s ↔ _ := forall_prop_of_true hc
        rw [hlive, decide_eq_true_iff, hkeeps]
        by_cases hfile : IsFile attributes path
        · simp [hfile]
        · simp [hfile]
    · exact ⟨fun _ h => absurd h hc, fun _ => losesNothing_of_not_completed hc⟩
  | removed attributes path =>
    have hcount : ∀ key, (s.store.applyChange Γ attributes ⟨.removed, path, []⟩).pool.liveCount Γ key = _ :=
      liveCount_applyRemove hs.sound path
    by_cases hc : s.Completed
    · refine (losesNothing_event_iff hP hc _ ?_).trans ?_
      · intro key hne
        rw [IndexPool.isLive_iff, IndexPool.isLive_iff, hcount, if_neg (fun h => hne h.symm)]
      · rw [IndexPool.isLive_iff, hcount, if_pos rfl]
        have hkeeps : (RebuildStep.removed attributes path).Keeps Γ s ↔ _ := forall_prop_of_true hc
        rw [hkeeps]
        constructor
        · intro h
          by_contra hlt
          exact Bool.false_ne_true (h.1 (by omega))
        · intro h
          exact ⟨fun hpos => by omega, fun hf => absurd hf Bool.false_ne_true⟩
    · exact ⟨fun _ h => absurd h hc, fun _ => losesNothing_of_not_completed hc⟩

/-! ## Every run -/

/-- In every run of a rebuild and the watchers, from any index, no delivered change is ever lost exactly when every step
keeps what the events said. -/
theorem rebuild_losesNothing_iff (Γ : Locale) (store : IndexStore) (drives : Nat) (steps : List RebuildStep)
    (hs : store.pool.Sound) (hroom : Meets (fun s step => step.HasRoom s) (Rebuild.step Γ) (.start store drives) steps) :
    Along (Rebuild.LosesNothing Γ) (Rebuild.step Γ) (.start store drives) steps ↔
      Meets (fun s step => step.Keeps Γ s) (Rebuild.step Γ) (.start store drives) steps :=
  along_iff_meets (fun s step hs hroom _ => valid_step Γ s step hs hroom)
    (fun _ step hs hP hroom => losesNothing_step_iff step hs hP hroom) ⟨hs, .scanning _⟩ (losesNothing_of_scanning rfl) hroom

namespace RebuildWitness

/-- `E:\a`. -/
def pathA : WString := wide ['E', ':', '\\', 'a']

/-- `E:\b`. -/
def pathB : WString := wide ['E', ':', '\\', 'b']

/-- A file as a scan reports it. -/
def file (path : WString) : FileEntry := .ofPath .c path 1 2 0x20

/-- There is a file at every path. -/
def allFiles (_ : WString) : Option AttributeData := some ⟨0x20, 0, 1, 2, 3⟩

/-- A file the scan sees before its event comes, and another that is removed after `EndWrite`. -/
def steps : List RebuildStep :=
  [.emit 0 (file pathA), .emit 0 (file pathB), .added allFiles pathA, .indexing, .indexing, .indexing, .indexing, .indexing,
    .removed allFiles pathB]

theorem rebuild_losesNothing_iff_steps :
    Along (Rebuild.LosesNothing .c) (Rebuild.step .c) (.start .empty 1) steps ↔
      Meets (fun s step => step.Keeps .c s) (Rebuild.step .c) (.start .empty 1) steps := by
  refine rebuild_losesNothing_iff .c .empty 1 steps IndexPool.sound_empty ?_
  exact ⟨trivial, trivial, ⟨⟨by decide, by decide⟩, by decide⟩, fun h => h.elim, fun h => h.elim, fun h => h.elim,
    fun h => h.elim, fun _ => by decide +kernel, trivial, trivial⟩

/-- The run keeps every change. -/
example : Meets (fun s step => step.Keeps .c s) (Rebuild.step .c) (.start .empty 1) steps := by decide +kernel

/-- A file created after the scan has passed, while the indexing thread is at work. -/
def late : List RebuildStep := [.indexing, .added allFiles pathA, .indexing, .indexing]

end RebuildWitness

/-- A file created between the scan and `EndWrite` is not live after the rebuild, though its event was delivered. -/
theorem late_event_is_lost :
    ¬Rebuild.LosesNothing .c (final (Rebuild.step .c) (.start .empty 1) RebuildWitness.late) := by
  intro h
  have hlive := h (by decide +kernel) (Locale.c.lower RebuildWitness.pathA)
  have hexpected : Rebuild.Expected .c (final (Rebuild.step .c) (.start .empty 1) RebuildWitness.late)
      (Locale.c.lower RebuildWitness.pathA) := by
    decide +kernel
  exact absurd (hlive.2 hexpected) (by decide +kernel)

end WinIndex
