import WinIndex.Session
import WinIndex.Lib.Gate

/-!
# The threads of the indexer

`StartIndexing`, `IndexPaths` and `RemovePaths` of `Indexer` (src/core/indexer/Indexer.cpp) return at once when `IsIndexing`
finds `m_completionEvent` reset. Otherwise they reset it and create a thread, and the last thing the thread does to the indexer
is to set it. A session has one worker because it is made so; here there are as many threads as were created, each at its own
place, and `CreateThread` may fail. Between `BeginWrite` and `EndWrite` a thread adds one entry after the other to the staging
buffer, which has no lock.
-/

namespace WinIndex

/-- Where a thread is: in a phase, or between `BeginWrite` and `EndWrite`, with the entries it has added and has still to
add. -/
inductive Body where
  | phase (worker : Worker)
  | writing (added todo : List FileEntry)

/-- The thread is in `StopWatchersForRoots`, and holds `m_watchersMutex`. -/
def Body.holdsWatchers : Body → Bool
  | .phase (.stopping _) => true
  | _ => false

/-- The thread waits for `m_watchersMutex`. -/
def Body.waitsForWatchers : Body → Bool
  | .phase (.starting _ _) => true
  | _ => false

/-- The state of the program: `gate` is `m_completionEvent` with the threads that have not set it yet, and `shared` all that is
not the threads' own. -/
structure IndexerThreads where
  shared : Session
  gate : Gate Body

/-- `IsIndexing`. -/
def IndexerThreads.isIndexing (s : IndexerThreads) : Bool :=
  match s.gate.event with
  | none => false
  | some isSet => !isSet

/-- `WaitForCompletion` returns. -/
def IndexerThreads.waitForCompletion (s : IndexerThreads) : Bool :=
  match s.gate.event with
  | none => true
  | some isSet => isSet

/-- The program when it has started. `eventCreated` says whether `CreateEventW` has returned an event. -/
def IndexerThreads.launch (eventCreated : Bool) (selectedDrives : List WString) (store : IndexStore) : IndexerThreads :=
  ⟨.launch selectedDrives store, .new eventCreated⟩

/-- `StartIndexing(true)`, `IndexPaths` and `RemovePaths`; `created` says whether `CreateThread` succeeds. -/
def IndexerThreads.call (s : IndexerThreads) (c : IndexerCall) (created : Bool) : IndexerThreads :=
  if s.isIndexing = true ∨ c = .none then s
  else { shared := { s.shared with cancel := false, reported := false }, gate := s.gate.start created (.phase c.worker) }

/-- What `Load` leaves in the store. -/
def IndexStore.loaded (s : IndexStore) (contents : IndexPool × UsnMap) : IndexStore :=
  { s with pool := contents.1, usnMap := contents.2 }

/-- `StartIndexing(false)`, with what `Load` reads if `IsIndexValid`. The index that has entries is watched at once, by the
thread of the user interface itself. -/
def IndexerThreads.startIndexing (fixedDrives : List WString) (s : IndexerThreads) (contents : Option (IndexPool × UsnMap))
    (created : Bool) : IndexerThreads :=
  if s.isIndexing then s
  else
    match contents with
    | none => s.call .startIndexing created
    | some contents =>
      let store := s.shared.watching.store.loaded contents
      let shared := s.shared.mutate (fun _ => store)
      if 0 < store.getEntryCount then
        if s.gate.running.any Body.holdsWatchers then s
        else
          let watchers :=
            if shared.cancel then shared.watching.watchers
            else (effectiveRoots fixedDrives shared.selectedDrives).foldl startWatcher shared.watching.watchers
          { s with
            shared := { shared with watching := { shared.watching with watchers := watchers }, reported := true } }
      else { s with shared := shared }.call .startIndexing created

/-- One turn of a thread: what it does to the state, and where it is then, unless it has ended and sets the event. -/
def Body.turn (Γ : Locale) (fixedDrives : List WString) (fs : FileSystem) (excludedPaths : List WString) (s : Session) :
    Body → Session × Option Body
  | .phase (.publishing entries) => (s.mutate IndexStore.beginWrite, some (.writing [] entries))
  | .writing added (e :: todo) => (s.mutate (fun store => store.addEntry e), some (.writing (added ++ [e]) todo))
  | .writing _ [] => (s.mutate (fun store => store.endWrite Γ), some (.phase .savingRebuilt))
  | .phase worker =>
    let next := { s with worker := worker }.workerStep Γ fixedDrives fs excludedPaths
    match next.worker with
    | .finished => (next, none)
    | worker => (next, some (.phase worker))

/-- What happens. -/
inductive ThreadStep where
  /-- `StartIndexing(true)`, `IndexPaths` or `RemovePaths`. -/
  | call (c : IndexerCall) (created : Bool)
  /-- `StartIndexing(false)`. -/
  | load (contents : Option (IndexPool × UsnMap)) (created : Bool)
  /-- Another selection is stored in the settings. -/
  | select (newPaths : List WString)
  /-- `Cancel`, as far as setting `m_cancel`. -/
  | cancel
  /-- `Cancel` goes on. -/
  | stopWatchers
  /-- The thread at index `i` goes on. -/
  | thread (i : Nat) (fs : FileSystem) (excludedPaths : List WString)
  | watch (l : WatchStep)

/-- The effect of a step. The thread of the user interface makes no call before it is done with `Cancel`. -/
def IndexerThreads.step (Γ : Locale) (fixedDrives : List WString) (s : IndexerThreads) : ThreadStep → IndexerThreads
  | .call c created => if s.shared.ui = .idle then s.call c created else s
  | .load contents created => if s.shared.ui = .idle then s.startIndexing fixedDrives contents created else s
  | .select newPaths => if s.shared.ui = .idle then { s with shared := { s.shared with selectedDrives := newPaths } } else s
  | .cancel =>
    if s.shared.ui = .idle then
      { s with shared := { s.shared with cancel := true, reported := false, ui := .stopWatchers } }
    else s
  | .stopWatchers =>
    if s.shared.ui = .stopWatchers ∧ s.gate.running.any Body.holdsWatchers = false ∧ s.shared.watching.Idle then
      { s with shared := { s.shared with watching := { s.shared.watching with watchers := [] }, ui := .idle } }
    else s
  | .thread i fs excludedPaths =>
    match s.gate.running[i]? with
    | none => s
    | some body =>
      if body.waitsForWatchers && s.gate.running.any Body.holdsWatchers then s
      else
        match body.turn Γ fixedDrives fs excludedPaths s.shared with
        | (shared, some body) => { shared := shared, gate := s.gate.goOn i body }
        | (shared, none) => { shared := shared, gate := s.gate.finish i }
  | .watch l => { s with shared := { s.shared with watching := s.shared.watching.step Γ l } }

/-- What `CreateThread` returns to the step, if it comes to it. -/
def ThreadStep.creates (s : IndexerThreads) : ThreadStep → Option Bool
  | .call c created => if s.shared.ui = .idle ∧ s.isIndexing = false ∧ c ≠ .none then some created else none
  | .load contents created =>
    if s.shared.ui = .idle ∧ s.isIndexing = false ∧
        (∀ c ∈ contents, (s.shared.watching.store.loaded c).getEntryCount = 0) then some created
    else none
  | _ => none

variable {Γ : Locale} {s : IndexerThreads}

theorem IndexerThreads.isIndexing_eq (s : IndexerThreads) : s.isIndexing = !s.gate.stands := by
  unfold isIndexing Gate.stands
  cases s.gate.event <;> rfl

theorem IndexerThreads.waitForCompletion_eq (s : IndexerThreads) : s.waitForCompletion = s.gate.stands := by
  unfold waitForCompletion Gate.stands
  cases s.gate.event <;> rfl

/-- All that a turn of a thread can do. -/
theorem Body.turn_cases (fixedDrives : List WString) (fs : FileSystem) (excludedPaths : List WString) (t : Session)
    (body : Body) :
    (∃ entries, body = .phase (.publishing entries) ∧
      body.turn Γ fixedDrives fs excludedPaths t = (t.mutate IndexStore.beginWrite, some (.writing [] entries))) ∨
    (∃ added e todo, body = .writing added (e :: todo) ∧
      body.turn Γ fixedDrives fs excludedPaths t =
        (t.mutate (fun store => store.addEntry e), some (.writing (added ++ [e]) todo))) ∨
    (∃ added, body = .writing added [] ∧
      body.turn Γ fixedDrives fs excludedPaths t =
        (t.mutate (fun store => store.endWrite Γ), some (.phase .savingRebuilt))) ∨
    (∃ worker next, body = .phase worker ∧ (∀ entries, worker ≠ .publishing entries) ∧
      next = { t with worker := worker }.workerStep Γ fixedDrives fs excludedPaths ∧
      (next.worker = .finished ∧ body.turn Γ fixedDrives fs excludedPaths t = (next, none) ∨
        next.worker ≠ .finished ∧
          body.turn Γ fixedDrives fs excludedPaths t = (next, some (.phase next.worker)))) := by
  fun_cases turn Γ fixedDrives fs excludedPaths t body with
  | case1 entries => exact .inl ⟨entries, rfl, rfl⟩
  | case2 added e todo => exact .inr (.inl ⟨added, e, todo, rfl, rfl⟩)
  | case3 added => exact .inr (.inr (.inl ⟨added, rfl, rfl⟩))
  | case4 worker hworker next hdone => exact .inr (.inr (.inr ⟨worker, next, rfl, hworker, rfl, .inl ⟨hdone, rfl⟩⟩))
  | case5 worker hworker next hnext => exact .inr (.inr (.inr ⟨worker, next, rfl, hworker, rfl, .inr ⟨hnext, rfl⟩⟩))

/-- A call that finds no thread running creates one, or fails to. -/
theorem IndexerThreads.call_idle {c : IndexerCall} (h : s.isIndexing = false) (hc : c ≠ .none) (created : Bool) :
    s.call c created =
      { shared := { s.shared with cancel := false, reported := false }
        gate := s.gate.start created (.phase c.worker) } := by
  rw [call, h]
  simp [hc]

/-- All that a call can do. -/
theorem IndexerThreads.call_cases (s : IndexerThreads) (c : IndexerCall) (created : Bool) :
    ((s.isIndexing = true ∨ c = .none) ∧ s.call c created = s) ∨
      (s.isIndexing = false ∧ c ≠ .none ∧
        s.call c created =
          { shared := { s.shared with cancel := false, reported := false }
            gate := s.gate.start created (.phase c.worker) }) := by
  by_cases h : s.isIndexing = true ∨ c = .none
  · exact .inl ⟨h, if_pos h⟩
  · obtain ⟨hrun, hc⟩ := not_or.1 h
    have hidle : s.isIndexing = false := by simpa using hrun
    exact .inr ⟨hidle, hc, call_idle hidle hc created⟩

end WinIndex
