import WinIndex.SearchEngine

/-!
# The search bar and the result list

What `MainWindow` (src/ui/MainWindow.cpp) does from an edit of the search bar to the list of results: the debounce timer, the
search thread with its cancel flag, and the messages in which a search posts its results. The index and the options do not
change. The user interface is one thread, so a handler is one step; a search ends, and a timer expires, between any two.
`KillTimer` does not take back a `WM_TIMER` that is in the queue already.
-/

namespace WinIndex

open Fanout

/-- `DisplayEntry`. -/
structure DisplayEntry where
  name : WString
  path : WString
  size : UInt64
  lastModified : UInt64
  attributes : UInt32
  matchStart : UInt32
  matchLen : UInt32
  deriving DecidableEq

/-- What a search depends on: the engine, the options, the index, and how many threads there are. -/
structure SearchSetup where
  ctx : SearchContext
  options : SearchOptions
  pool : IndexPool
  hardwareConcurrency : UInt32

/-- The cap `ExecuteSearch` passes. -/
def searchCap : UInt32 := 10000

/-! ## The search thread -/

/-- What the thread makes of one result. -/
def displayEntry (p : IndexPool) (m : EntryMeta) (r : SearchResult) : DisplayEntry where
  name := Segments.slice p.pathPool (m.pathOffset.toNat + m.nameStart.toNat) (m.pathLen - m.nameStart).toNat
  path := p.pathView m
  size := m.size
  lastModified := m.lastModified
  attributes := m.attributes
  matchStart := r.matchStart
  matchLen := r.matchLen

/-- What the thread makes of the results of the engine; each has an index of `meta`. -/
def display (p : IndexPool) (raw : List SearchResult) : List DisplayEntry :=
  raw.filterMap (fun r => (p.entryMeta[r.entryIndex.toNat]?).map (fun m => displayEntry p m r))

/-- A search that is not cancelled, for the turns its threads take; `none` when they do not bring it to its end. -/
def SearchSetup.completed (u : SearchSetup) (query : WString) (turns : List Turn) : Option (List DisplayEntry) :=
  (search u.ctx query u.options u.pool searchCap u.hardwareConcurrency turns).map (display u.pool)

/-- A search whose threads have seen the cancel flag after some turns: what they have found up to there. -/
def SearchSetup.cancelled (u : SearchSetup) (query : WString) (turns : List Turn) : List DisplayEntry :=
  let threads := threadsAfter (searchTest u.ctx query u.options u.pool) u.pool.entryMeta.length searchCap.toNat
    (numThreads u.hardwareConcurrency) turns
  if query.length < 2 || (u.options.useRegex && !u.ctx.re2.ok u.options.caseSensitive (wideToUtf8 query)) then []
  else display u.pool (mergeResults searchCap.toNat (threads.workers.map Worker.found))

/-! ## The window -/

/-- What the search writes into the status bar. -/
inductive SearchStatus where
  /-- `Enter a search term to begin.` -/
  | enterTerm
  /-- `Type at least 2 characters to search...` -/
  | typeMore
  /-- `No results found.` -/
  | noResults
  /-- The number of results, and whether the first 10,000 are shown. -/
  | results (count : Nat) (capped : Bool)
  deriving DecidableEq

/-- The window as far as the search goes. `timerQueued` says that a `WM_TIMER` is in the queue; `running` is the query of the
search thread that has not ended; `posted` are the `WM_SEARCH_RESULTS` in the queue. -/
structure SearchWindow where
  text : WString
  timer : Bool
  timerQueued : Bool
  running : Option WString
  posted : List (List DisplayEntry)
  currentResults : List DisplayEntry
  totalMatches : Nat
  sortColumn : Option Nat
  sortDescending : Bool
  status : Option SearchStatus
  deriving DecidableEq

/-- The window when it has been created. -/
def SearchWindow.start : SearchWindow := ⟨[], false, false, none, [], [], 0, none, false, none⟩

/-- `GetWindowTextW` into a buffer of 1024 units. -/
def windowText (text : WString) : WString := (text.take 1023).takeWhile (fun c => c ≠ 0)

/-- `a.compare(b)`, and the comparison of two numbers. -/
def threeWay {α : Type} [LT α] [DecidableLT α] (a b : α) : Ordering :=
  if a < b then .lt else if b < a then .gt else .eq

/-- The comparison of two entries in a column. -/
def compareColumn (col : Nat) (a b : DisplayEntry) : Ordering :=
  match col with
  | 0 => threeWay a.name b.name
  | 1 => threeWay a.path b.path
  | 2 => threeWay a.size b.size
  | 3 => threeWay a.lastModified b.lastModified
  | _ => .eq

/-- The order `std::sort` gets. -/
def sortsBefore (col : Nat) (desc : Bool) (a b : DisplayEntry) : Bool :=
  if desc then compareColumn col a b = .gt else compareColumn col a b = .lt

/-- `ApplyCurrentSort`; of the orders `std::sort` may leave equal entries in, the one they were in. -/
def SearchWindow.applyCurrentSort (s : SearchWindow) : SearchWindow :=
  match s.sortColumn with
  | none => s
  | some col =>
    if s.currentResults = [] then s
    else { s with currentResults := s.currentResults.mergeSort (fun a b => !sortsBefore col s.sortDescending b a) }

/-- `OnSearchChanged`, when the bar's text has become another. -/
def SearchWindow.onSearchChanged (s : SearchWindow) (text : WString) : SearchWindow :=
  let query := windowText text
  let s := { s with text := text, timer := false }
  if query.length < 2 then
    { s with currentResults := [], status := some (if query = [] then .enterTerm else .typeMore) }
  else { s with timer := true }

/-- `ExecuteSearch`: the flag is set and the thread that runs, if any, joined, which has then posted what it had found; the
new thread starts. -/
def SearchWindow.executeSearch (u : SearchSetup) (s : SearchWindow) (query : WString) (turns : List Turn) : SearchWindow :=
  match s.running with
  | none => { s with running := some query }
  | some old => { s with posted := s.posted ++ [u.cancelled old turns], running := some query }

/-- `TriggerSearch`. -/
def SearchWindow.triggerSearch (u : SearchSetup) (s : SearchWindow) (turns : List Turn) : SearchWindow :=
  let query := windowText s.text
  if 2 ≤ query.length then s.executeSearch u query turns else s

/-- `OnSearchResults`. -/
def SearchWindow.onSearchResults (s : SearchWindow) (results : List DisplayEntry) : SearchWindow :=
  let s := { s with totalMatches := results.length, currentResults := results }.applyCurrentSort
  { s with status := some (if s.currentResults = [] then .noResults
      else .results s.currentResults.length (s.currentResults.length = 10000)) }

/-- `OnColumnClick`. -/
def SearchWindow.onColumnClick (s : SearchWindow) (col : Nat) : SearchWindow :=
  if s.sortColumn = some col then { s with sortDescending := !s.sortDescending }.applyCurrentSort
  else { s with sortColumn := some col, sortDescending := col = 2 }.applyCurrentSort

/-- What happens next to the window. -/
inductive SearchEvent where
  /-- The text of the search bar becomes another: `EN_CHANGE`. -/
  | edit (text : WString)
  /-- The timer runs out. -/
  | timerExpires
  /-- `WM_TIMER`. A search that is still running is cancelled after these turns of its threads. -/
  | timerMessage (turns : List Turn)
  /-- The threads of the search have taken these turns and ended, and their results are posted. -/
  | searchEnds (turns : List Turn)
  /-- `WM_SEARCH_RESULTS`. -/
  | resultsMessage
  /-- A click on the header of a column. -/
  | columnClick (col : Nat)

/-- The window after an event. An event that cannot happen changes nothing. -/
def SearchWindow.step (u : SearchSetup) (s : SearchWindow) : SearchEvent → SearchWindow
  | .edit text => s.onSearchChanged text
  | .timerExpires => if s.timer then { s with timerQueued := true } else s
  | .timerMessage turns =>
    if s.timerQueued then { s with timer := false, timerQueued := false }.triggerSearch u turns else s
  | .searchEnds turns =>
    match s.running with
    | none => s
    | some query =>
      match u.completed query turns with
      | none => s
      | some results => { s with running := none, posted := s.posted ++ [results] }
  | .resultsMessage =>
    match s.posted with
    | [] => s
    | results :: posted => { s with posted := posted }.onSearchResults results
  | .columnClick col => s.onColumnClick col

/-- No timer is pending, no search is running and no results are in the queue. -/
def SearchWindow.Quiescent (s : SearchWindow) : Prop :=
  s.timer = false ∧ s.timerQueued = false ∧ s.running = none ∧ s.posted = []

instance SearchWindow.decidableQuiescent (s : SearchWindow) : Decidable s.Quiescent := inferInstanceAs (Decidable (_ ∧ _))

end WinIndex
