import WinIndex.Indexer

/-!
# The threads of the watchers

Every `ChangeWatcher` (src/core/indexer/ChangeWatcher.cpp) has a thread of its own. It calls `Indexer::ApplyChange` for one
record after the other, and `ApplyChange` is no single step: each mutation of the store takes the exclusive lock for itself,
and between the removal and the addition of a `Modified` event the thread asks the file system about the file. Here the
watchers of one store take turns, one such step at a time.
-/

namespace WinIndex

open Trace

/-- What `ApplyChange` does in one turn: a mutation of the store, or `look`, the call of `GetFileAttributesExW` in
`BuildAndApplyAdd`. -/
inductive ChangeStep where
  | remove (path : WString)
  | rename (oldPath newPath : WString)
  | look (path : WString)
  | add (e : FileEntry)

/-- The turns of `ApplyChange`, up to its look at the file system. -/
def changeSteps (evt : FileChangeEvent) : List ChangeStep :=
  match evt.type with
  | .added => [.look evt.path]
  | .modified => [.remove evt.path, .look evt.path]
  | .removed => [.remove evt.path]
  | .renamed => if evt.oldPath ≠ [] then [.rename evt.oldPath evt.path] else [.look evt.path]

/-- What a turn does to the store. -/
def ChangeStep.run (Γ : Locale) (s : IndexStore) : ChangeStep → IndexStore
  | .remove path => s.applyRemove Γ path
  | .rename oldPath newPath => s.applyRename Γ oldPath newPath
  | .look _ => s
  | .add e => s.applyAdd Γ e

/-- The turns that a turn adds to those still to come: `BuildAndApplyAdd` goes on when it has found a file. -/
def ChangeStep.next (Γ : Locale) (attributes : WString → Option AttributeData) : ChangeStep → List ChangeStep
  | .look path =>
    match attributes path with
    | none => []
    | some fad => if fad.isDirectory then [] else [.add (builtEntry Γ path fad)]
  | .remove _ | .rename _ _ | .add _ => []

/-- The path that a turn adds an entry for, if any. -/
def ChangeStep.addedPath : ChangeStep → Option WString
  | .add e => some e.path
  | .rename _ newPath => some newPath
  | .remove _ | .look _ => none

/-- A watcher: the root it watches, and what its thread has still to do for the record it is at. -/
structure Watcher where
  root : WString
  todo : List ChangeStep

/-- The index store and `m_watchers`. -/
structure Watching where
  store : IndexStore
  watchers : List Watcher

/-- What a watcher's thread can do: take up a record of a change, or take a turn, given what `GetFileAttributesExW` says of
each path at that moment. -/
inductive WatchStep where
  | event (i : Nat) (action : FileAction) (name : WString)
  | apply (i : Nat) (attributes : WString → Option AttributeData)

/-- The effect of a step. A thread takes up no record before it is done with the one it is at. -/
def Watching.step (Γ : Locale) (s : Watching) : WatchStep → Watching
  | .event i action name =>
    match s.watchers[i]? with
    | some ⟨root, []⟩ =>
      { s with watchers := s.watchers.set i ⟨root, changeSteps (ChangeWatcher.eventOf root action name)⟩ }
    | _ => s
  | .apply i attributes =>
    match s.watchers[i]? with
    | some ⟨root, c :: rest⟩ =>
      { store := c.run Γ s.store, watchers := s.watchers.set i ⟨root, c.next Γ attributes ++ rest⟩ }
    | _ => s

/-- The turn that a step takes, if any. -/
def WatchStep.turn (s : Watching) : WatchStep → Option ChangeStep
  | .event _ _ _ => none
  | .apply i _ => s.watchers[i]?.bind (fun w => w.todo.head?)

/-- The pool has room for what a step adds. -/
def WatchStep.HasRoom (s : Watching) (l : WatchStep) : Prop :=
  ∀ path ∈ (l.turn s).bind ChangeStep.addedPath, s.store.pool.Fits path ∧ s.store.pool.entryMeta.length < 2 ^ 32

instance WatchStep.decidableHasRoom (s : Watching) (l : WatchStep) : Decidable (l.HasRoom s) :=
  inferInstanceAs (Decidable (∀ path ∈ (l.turn s).bind ChangeStep.addedPath, _ ∧ _))

/-- Every thread is between two records. -/
def Watching.Idle (s : Watching) : Prop := ∀ w ∈ s.watchers, w.todo = []

instance Watching.decidableIdle (s : Watching) : Decidable s.Idle := inferInstanceAs (Decidable (∀ w ∈ s.watchers, _))

variable {Γ : Locale} {s : Watching}

/-- All that a step can do. -/
theorem Watching.step_cases (l : WatchStep) :
    (l.turn s = none ∧ s.step Γ l = s) ∨
    (∃ i action name root, l = .event i action name ∧ s.watchers[i]? = some ⟨root, []⟩ ∧
      s.step Γ l =
        { s with watchers := s.watchers.set i ⟨root, changeSteps (ChangeWatcher.eventOf root action name)⟩ }) ∨
    (∃ i attributes root c rest, l = .apply i attributes ∧ s.watchers[i]? = some ⟨root, c :: rest⟩ ∧ l.turn s = some c ∧
      s.step Γ l = ⟨c.run Γ s.store, s.watchers.set i ⟨root, c.next Γ attributes ++ rest⟩⟩) := by
  cases l with
  | event i action name =>
    simp only [step]
    split
    · rename_i root hw
      exact .inr (.inl ⟨i, action, name, root, rfl, hw, rfl⟩)
    · exact .inl ⟨rfl, rfl⟩
  | apply i attributes =>
    simp only [step, WatchStep.turn]
    cases hw : s.watchers[i]? with
    | none => exact .inl ⟨rfl, rfl⟩
    | some w =>
      obtain ⟨root, todo⟩ := w
      cases todo with
      | nil => exact .inl ⟨rfl, rfl⟩
      | cons c rest => exact .inr (.inr ⟨i, attributes, root, c, rest, rfl, hw, rfl, rfl⟩)

/-- The watchers of a store keep their roots. -/
theorem Watching.roots_step (l : WatchStep) : (s.step Γ l).watchers.map Watcher.root = s.watchers.map Watcher.root := by
  have hset : ∀ i root todo todo', s.watchers[i]? = some ⟨root, todo⟩ →
      (s.watchers.set i ⟨root, todo'⟩).map Watcher.root = s.watchers.map Watcher.root := by
    intro i root todo todo' hw
    have hroot : (s.watchers.map Watcher.root)[i]? = some root := by rw [List.getElem?_map, hw]; rfl
    obtain ⟨hi, hget⟩ := List.getElem?_eq_some_iff.1 hroot
    have hself := List.set_getElem_self hi
    rw [hget] at hself
    rw [List.map_set]
    exact hself
  rcases s.step_cases (Γ := Γ) l with ⟨-, h⟩ | ⟨i, action, name, root, -, hw, h⟩ | ⟨i, attributes, root, c, rest, -, hw, -, h⟩
  · rw [h]
  · rw [h]
    exact hset i root _ _ hw
  · rw [h]
    exact hset i root _ _ hw

/-! ## One turn -/

variable {store : IndexStore} {c : ChangeStep}

/-- A turn leaves the live entries that were there, or fewer, and adds one for the path it names. -/
theorem ChangeStep.mem_live_run (hs : store.pool.Sound) (hfit : ∀ path ∈ c.addedPath, store.pool.Fits path) {r : Record}
    (hr : r ∈ (c.run Γ store).pool.live) : r ∈ store.pool.live ∨ c.addedPath = some r.path := by
  cases c with
  | remove path =>
    have hr : r ∈ (store.applyRemove Γ path).pool.live := hr
    rw [IndexStore.live_applyRemove path hs] at hr
    exact .inl (List.mem_of_mem_eraseP hr)
  | rename oldPath newPath =>
    have hr : r ∈ (store.applyRename Γ oldPath newPath).pool.live := hr
    have hnew : store.pool.storedPath newPath = newPath := (hfit newPath rfl).storedPath_eq
    rw [IndexStore.live_applyRename oldPath newPath hs, hnew] at hr
    split at hr
    · rcases List.mem_append.1 hr with hr | hr
      · exact .inl (List.mem_of_mem_eraseP hr)
      · rw [List.mem_singleton.1 hr]
        exact .inr rfl
    · exact .inl hr
  | look path => exact .inl hr
  | add e =>
    have hr : r ∈ (store.applyAdd Γ e).pool.live := hr
    rw [IndexStore.live_applyAdd e hs, (hfit e.path rfl).stored_eq] at hr
    rcases List.mem_append.1 hr with hr | hr
    · exact .inl hr
    · rw [List.mem_singleton.1 hr]
      exact .inr rfl

theorem ChangeStep.sound_run (hs : store.pool.Sound)
    (hlen : ∀ path ∈ c.addedPath, store.pool.entryMeta.length < 2 ^ 32) : (c.run Γ store).pool.Sound := by
  cases c with
  | remove path => exact IndexStore.sound_applyRemove path hs
  | rename oldPath newPath => exact IndexStore.sound_applyRename oldPath newPath hs (hlen newPath rfl)
  | look path => exact hs
  | add e => exact hs.addEntry (hlen e.path rfl) Γ e

/-- A step with room for what it adds keeps the pool sound; what is live after it was live before, or is what it adds. -/
theorem Watching.step_spec {l : WatchStep} (hs : s.store.pool.Sound) (hroom : l.HasRoom s) :
    (s.step Γ l).store.pool.Sound ∧
      ∀ r ∈ (s.step Γ l).store.pool.live, r ∈ s.store.pool.live ∨ (l.turn s).bind ChangeStep.addedPath = some r.path := by
  rcases s.step_cases (Γ := Γ) l with ⟨-, h⟩ | ⟨i, action, name, root, rfl, -, h⟩ |
    ⟨i, attributes, root, c, rest, rfl, -, hturn, h⟩
  · rw [h]
    exact ⟨hs, fun r hr => .inl hr⟩
  · rw [h]
    exact ⟨hs, fun r hr => .inl hr⟩
  · unfold WatchStep.HasRoom at hroom
    rw [hturn] at hroom
    rw [h, hturn]
    exact ⟨ChangeStep.sound_run hs (fun path hpath => (hroom path hpath).2),
      fun r hr => ChangeStep.mem_live_run hs (fun path hpath => (hroom path hpath).1) hr⟩

/-! ## One thread alone -/

/-- A thread that takes its turns one after the other, with the same attributes all the time. -/
def runTurns (Γ : Locale) (attributes : WString → Option AttributeData) : Nat → IndexStore → List ChangeStep → IndexStore
  | 0, s, _ => s
  | _ + 1, s, [] => s
  | n + 1, s, c :: rest => runTurns Γ attributes n (c.run Γ s) (c.next Γ attributes ++ rest)

/-- Looking for a path, with turns enough, is `BuildAndApplyAdd`. -/
theorem runTurns_look (attributes : WString → Option AttributeData) (n : Nat) (s : IndexStore) (path : WString) :
    runTurns Γ attributes (n + 2) s [.look path] = final (StoreOp.run Γ) s (buildAndApplyAdd Γ attributes path) := by
  have hdone : ∀ s, runTurns Γ attributes n s [] = s := fun s => by cases n <;> rfl
  have hdone' : ∀ s, runTurns Γ attributes (n + 1) s [] = s := fun _ => rfl
  simp only [runTurns, ChangeStep.run, ChangeStep.next, buildAndApplyAdd, List.append_nil]
  cases attributes path with
  | none => exact hdone' s
  | some fad =>
    simp only
    split
    · exact hdone' s
    · exact hdone _

/-- When no other thread comes between them, the turns of an event are `ApplyChange`; there are three at most. -/
theorem runTurns_changeSteps (attributes : WString → Option AttributeData) (s : IndexStore) (evt : FileChangeEvent) :
    runTurns Γ attributes 3 s (changeSteps evt) = s.applyChange Γ attributes evt := by
  unfold IndexStore.applyChange applyChange changeSteps
  cases evt.type with
  | added => exact runTurns_look attributes 1 s evt.path
  | modified => exact runTurns_look attributes 0 _ evt.path
  | removed => rfl
  | renamed =>
    by_cases hold : evt.oldPath = []
    · simp only [hold, ne_eq, not_true_eq_false, if_false]
      exact runTurns_look attributes 1 s evt.path
    · simp only [hold, ne_eq, not_false_eq_true, if_true]
      rfl

end WinIndex
