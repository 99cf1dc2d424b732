import WinIndex.WatchThread

/-!
# A session

The settings, the one worker thread of `Indexer` (src/core/indexer/Indexer.cpp), its watchers and the index store, and what
the user does to them (src/ui/MainWindow.cpp). `StartIndexing`, `IndexPaths` and `RemovePaths` start a worker, or return at
once while one is running; the worker then goes from phase to phase, one store mutation or one look at shared state at a time,
while the watchers and the user interface go on. The user interface is one thread: it accepts no second command before it is
done with the first.
-/

namespace WinIndex

/-- The roots that are indexed and watched: the selected paths, or the local fixed drives when none is selected. -/
def effectiveRoots (fixedDrives selectedDrives : List WString) : List WString :=
  if selectedDrives = [] then fixedDrives else selectedDrives

/-- Two lists of roots have the same members. -/
def SameRoots (xs ys : List WString) : Prop := (∀ r ∈ xs, r ∈ ys) ∧ ∀ r ∈ ys, r ∈ xs

instance SameRoots.decidable (xs ys : List WString) : Decidable (SameRoots xs ys) := inferInstanceAs (Decidable (_ ∧ _))

/-- With the fixed drives of a file system those are the drives a rebuild scans. -/
theorem effectiveDrives_eq (fs : FileSystem) (selectedDrives : List WString) :
    effectiveDrives fs selectedDrives = effectiveRoots (enumerateLocalFixedDrives fs) selectedDrives := rfl

/-! ## The worker -/

/-- Where the worker thread is. -/
inductive Worker where
  /-- No worker runs: `m_completionEvent` is set. -/
  | finished
  /-- `IndexingThread` before it reads the selection. -/
  | rebuilding
  /-- It has the drives still to scan, and the entries of those scanned. -/
  | scanning (todo : List WString) (entries : List FileEntry)
  /-- It has not been cancelled and is about to replace the index. -/
  | publishing (entries : List FileEntry)
  /-- It has replaced the index and is about to save it and to report. -/
  | savingRebuilt
  /-- `StartLiveMonitoring` before it reads the selection. -/
  | monitoring
  /-- `IndexPathsThread`, with the paths still to scan. -/
  | indexing (paths todo : List WString)
  /-- It has scanned a path and has still to add these entries. -/
  | adding (paths todo : List WString) (entries : List FileEntry)
  /-- It has not been cancelled and is about to save and to report. -/
  | savingIndexed (paths : List WString)
  /-- `RemovePathsThread`, with the paths whose entries are still to be removed. -/
  | removing (paths todo : List WString)
  /-- `StopWatchersForRoots`. -/
  | stopping (paths : List WString)
  /-- `RemovePathsThread` before it saves and reports. -/
  | savingRemoved
  /-- `StartWatchersForRoots`, with the roots still to come. -/
  | watching (todo : List WString)
  /-- It has found that it is not cancelled, and waits for `m_watchersMutex`. -/
  | starting (root : WString) (todo : List WString)

/-- What the user interface thread is at. -/
inductive UiTask where
  | idle
  /-- The handler of the settings dialog, with the call it is about to make. -/
  | call (c : IndexerCall)
  /-- `Cancel`, which has set `m_cancel` and is about to stop the watchers. -/
  | stopWatchers
  deriving DecidableEq

/-- The state of the program. `saved` is the pool that was saved last. `reported` says that the operation begun last has
reported `WatchingForChanges`, and that no command has come since it completed. -/
structure Session where
  selectedDrives : List WString
  cancel : Bool
  worker : Worker
  ui : UiTask
  watching : Watching
  saved : Option IndexPool
  reported : Bool

/-- `IsIndexing`. -/
def Session.isIndexing (s : Session) : Bool :=
  match s.worker with
  | .finished => false
  | _ => true

/-- The roots of `m_watchers`. -/
def Session.roots (s : Session) : List WString := s.watching.watchers.map Watcher.root

/-- The session when the program has started. -/
def Session.launch (selectedDrives : List WString) (store : IndexStore) : Session where
  selectedDrives := selectedDrives
  cancel := false
  worker := .finished
  ui := .idle
  watching := ⟨store, []⟩
  saved := none
  reported := false

/-- The store after a mutation of the worker. -/
def Session.mutate (s : Session) (f : IndexStore → IndexStore) : Session :=
  { s with watching := { s.watching with store := f s.watching.store } }

/-- `Save` and `EmitStatusDone`. -/
def Session.saveAndReport (s : Session) : Session := { s with saved := some s.watching.store.pool, reported := true }

/-- The body of the loop of `StartWatchersForRoots`, under `m_watchersMutex`. -/
def startWatcher (watchers : List Watcher) (root : WString) : List Watcher :=
  if root ∈ watchers.map Watcher.root then watchers else watchers ++ [⟨root, []⟩]

/-- One step of the worker, with the file system as it is then and the excluded paths of the settings. -/
def Session.workerStep (Γ : Locale) (fixedDrives : List WString) (fs : FileSystem) (excludedPaths : List WString)
    (s : Session) : Session :=
  match s.worker with
  | .finished => s
  | .rebuilding => { s with worker := .scanning (effectiveRoots fixedDrives s.selectedDrives) [] }
  | .scanning (root :: todo) entries =>
    { s with worker := .scanning todo (entries ++ scanDriveInto Γ fs excludedPaths root) }
  | .scanning [] entries => { s with worker := if s.cancel then .finished else .publishing entries }
  | .publishing entries =>
    { s.mutate (fun store => Trace.final (StoreOp.run Γ) store (.beginWrite :: entries.map .addEntry ++ [.endWrite])) with
      worker := .savingRebuilt }
  | .savingRebuilt => { s.saveAndReport with worker := .monitoring }
  | .monitoring => { s with worker := .watching (effectiveRoots fixedDrives s.selectedDrives) }
  | .indexing paths (root :: todo) =>
    { s with worker := if s.cancel then .finished else .adding paths todo (scanDriveInto Γ fs excludedPaths root) }
  | .indexing paths [] => { s with worker := if s.cancel then .finished else .savingIndexed paths }
  | .adding paths todo (e :: entries) => { s.mutate (fun store => store.applyAdd Γ e) with worker := .adding paths todo entries }
  | .adding paths todo [] => { s with worker := .indexing paths todo }
  | .savingIndexed paths => { s.saveAndReport with worker := .watching paths }
  | .removing paths (root :: todo) =>
    { s.mutate (fun store => store.removeEntriesUnderPath Γ root) with worker := .removing paths todo }
  | .removing paths [] => { s with worker := .stopping paths }
  | .stopping paths =>
    -- `Stop` waits for the watcher's thread, which first does what it has still to do.
    match s.watching.watchers.find? (fun w => paths.contains w.root) with
    | some w =>
      if w.todo = [] then
        { s with
          watching := { s.watching with watchers := s.watching.watchers.eraseP (fun w => paths.contains w.root) } }
      else s
    | none => { s with worker := .savingRemoved }
  | .savingRemoved => { s.saveAndReport with worker := .finished }
  | .watching (root :: todo) => { s with worker := if s.cancel then .finished else .starting root todo }
  | .watching [] => { s with worker := .finished }
  | .starting root todo =>
    { s with
      watching := { s.watching with watchers := startWatcher s.watching.watchers root }
      worker := .watching todo }

/-! ## The user interface -/

/-- What a call sets going, when no worker is running. -/
def IndexerCall.worker : IndexerCall → Worker
  | .startIndexing => .rebuilding
  | .indexPaths paths => .indexing paths paths
  | .removePaths paths => .removing paths paths
  | .none => .finished

/-- `StartIndexing(true)`, `IndexPaths` and `RemovePaths`: the call returns at once while a worker is running. -/
def Session.call (s : Session) (c : IndexerCall) : Session :=
  if s.isIndexing = true ∨ c = .none then s else { s with cancel := false, worker := c.worker, reported := false }

/-- `StartIndexing(false)`, with the store that `Load` leaves if `IsIndexValid`. When it has entries, it is reported and
watched, with `m_cancel` as it is. -/
def Session.startIndexing (fixedDrives : List WString) (s : Session) (loaded : Option IndexStore) : Session :=
  if s.isIndexing then s
  else
    match loaded with
    | none => s.call .startIndexing
    | some store =>
      let s := s.mutate (fun _ => store)
      if 0 < store.getEntryCount then
        let watchers :=
          if s.cancel then s.watching.watchers
          else (effectiveRoots fixedDrives s.selectedDrives).foldl startWatcher s.watching.watchers
        { s with watching := { s.watching with watchers := watchers }, reported := true }
      else s.call .startIndexing

/-- What happens in a session. -/
inductive SessionStep where
  /-- The settings dialog is accepted: the selection is stored, and the handler is about to make its call. -/
  | settings (newPaths : List WString)
  /-- `OnCommand(ID_INDEX_REBUILD)`. -/
  | rebuild
  /-- `StartIndexing(false)`, with what `Load` makes of the index file if that is valid. -/
  | start (loaded : Option IndexStore)
  | cancel
  /-- The user interface thread goes on. -/
  | ui
  /-- The worker thread goes on. -/
  | worker (fs : FileSystem) (excludedPaths : List WString)
  | watch (l : WatchStep)

/-- The effect of a step. A command waits until the user interface is done with the one before, and so does `Cancel` until
`StopWatchersForRoots` is through and the watchers have stopped. -/
def Session.step (Γ : Locale) (fixedDrives : List WString) (s : Session) : SessionStep → Session
  | .settings newPaths =>
    if s.ui = .idle then
      { s with
        selectedDrives := newPaths
        ui := .call (onIndexSettings s.selectedDrives newPaths)
        reported := s.reported && s.isIndexing }
    else s
  | .rebuild => if s.ui = .idle then s.call .startIndexing else s
  | .start loaded => if s.ui = .idle then s.startIndexing fixedDrives loaded else s
  | .cancel => if s.ui = .idle then { s with cancel := true, reported := false, ui := .stopWatchers } else s
  | .ui =>
    match s.ui with
    | .idle => s
    | .call c => { s.call c with ui := .idle }
    | .stopWatchers =>
      match s.worker with
      | .stopping _ => s
      | _ =>
        if s.watching.Idle then { s with watching := { s.watching with watchers := [] }, ui := .idle } else s
  | .worker fs excludedPaths => s.workerStep Γ fixedDrives fs excludedPaths
  | .watch l => { s with watching := s.watching.step Γ l }

variable {Γ : Locale} {fixedDrives : List WString} {s : Session}

theorem Session.isIndexing_eq_false : s.isIndexing = false ↔ s.worker = .finished := by
  unfold isIndexing
  cases s.worker <;> simp

/-- A call that finds no worker running starts one. -/
theorem Session.call_idle {c : IndexerCall} (h : s.isIndexing = false) (hc : c ≠ .none) :
    s.call c = { s with cancel := false, worker := c.worker, reported := false } := by
  rw [call, h]
  simp [hc]

/-- Any other call does nothing. -/
theorem Session.call_dropped {c : IndexerCall} (h : s.isIndexing = true ∨ c = .none) : s.call c = s := if_pos h

/-- All that a call can do. -/
theorem Session.call_cases (s : Session) (c : IndexerCall) :
    ((s.isIndexing = true ∨ c = .none) ∧ s.call c = s) ∨
      (s.isIndexing = false ∧ c ≠ .none ∧ s.call c = { s with cancel := false, worker := c.worker, reported := false }) := by
  by_cases h : s.isIndexing = true ∨ c = .none
  · exact .inl ⟨h, call_dropped h⟩
  · obtain ⟨hrun, hc⟩ := not_or.1 h
    have hidle : s.isIndexing = false := by simpa using hrun
    exact .inr ⟨hidle, hc, call_idle hidle hc⟩

end WinIndex
