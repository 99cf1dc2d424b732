import WinIndex.Lib.Bytes
import WinIndex.Lib.Terminated
import WinIndex.StoreAccess

/-!
# The result list of the running program

The search bar and the result list (src/ui/MainWindow.cpp) with what goes on around them: the index changes, the options of the
search are switched in the menu (`OnCommand`), and the indexer reports its state (`OnIndexerStatus`). A search looks at the
options and the index as they are when `ExecuteSearch` starts it. It holds the lock of the store until it is through, so no
mutation comes between; but one may come while `ExecuteSearch` waits for the lock, when it has joined the search before.

The list view has a number of items of its own, which is set by some of the handlers.
-/

namespace WinIndex

open Fanout

/-- The items of the search menu. -/
inductive SearchToggle where
  | useRegex | caseSensitive | wholeWord | matchPath | ignoreDiacritics
  deriving DecidableEq

/-- `field = !field` in `OnCommand`, as far as the engine reads the options. -/
def SearchToggle.flip (o : SearchOptions) : SearchToggle → SearchOptions
  | .useRegex => { o with useRegex := !o.useRegex }
  | .caseSensitive => { o with caseSensitive := !o.caseSensitive }
  | .wholeWord => { o with wholeWord := !o.wholeWord }
  | .matchPath => { o with matchPath := !o.matchPath }
  | .ignoreDiacritics => o

/-- The window, the options in the settings and those the search thread was started with, the pool of the store, the number of
items of the list view, and whether the search bar is enabled. -/
structure ResultWindow where
  window : SearchWindow
  options : SearchOptions
  captured : SearchOptions
  pool : IndexPool
  itemCount : Nat
  enabled : Bool

/-- The processor and RE2, and how many threads there are. -/
structure Machine where
  ctx : SearchContext
  hardwareConcurrency : UInt32

/-- What the search that was started last depends on. -/
def ResultWindow.setup (M : Machine) (s : ResultWindow) : SearchSetup := ⟨M.ctx, s.captured, s.pool, M.hardwareConcurrency⟩

/-- The program when it has started. -/
def ResultWindow.start (options : SearchOptions) (pool : IndexPool) : ResultWindow where
  window := .start
  options := options
  captured := options
  pool := pool
  itemCount := 0
  enabled := true

/-- `TriggerSearch`. While it waits for the lock these mutations are made. -/
def ResultWindow.triggerSearch (M : Machine) (Γ : Locale) (s : ResultWindow) (turns : List Turn) (ops : List PoolOp) :
    ResultWindow :=
  let window := s.window.triggerSearch (s.setup M) turns
  if 2 ≤ (windowText s.window.text).length then
    { s with window := window, captured := s.options, pool := ops.foldl (PoolOp.run Γ) s.pool }
  else { s with window := window }

/-- What happens. -/
inductive ResultEvent where
  /-- `EN_CHANGE`. -/
  | edit (text : WString)
  | timerExpires
  /-- `WM_TIMER`. -/
  | timerMessage (turns : List Turn) (ops : List PoolOp)
  /-- The search thread has posted its results and ended. -/
  | searchEnds (turns : List Turn)
  /-- `WM_SEARCH_RESULTS`. -/
  | resultsMessage
  | columnClick (col : Nat)
  /-- A command of the search menu. -/
  | toggle (item : SearchToggle) (turns : List Turn) (ops : List PoolOp)
  /-- `WM_INDEXER_STATUS`; `hasIndex` says that the state is `WatchingForChanges` or `Idle`. -/
  | status (hasIndex : Bool)
  /-- A watcher or the worker gets the exclusive lock. -/
  | mutate (op : PoolOp)

/-- The effect of an event. -/
def ResultWindow.step (M : Machine) (Γ : Locale) (s : ResultWindow) : ResultEvent → ResultWindow
  | .edit text =>
    { s with
      window := s.window.onSearchChanged text
      itemCount := if (windowText text).length < 2 then 0 else s.itemCount }
  | .timerExpires => { s with window := s.window.step (s.setup M) .timerExpires }
  | .timerMessage turns ops =>
    if s.window.timerQueued then
      { s with window := { s.window with timer := false, timerQueued := false } }.triggerSearch M Γ turns ops
    else s
  | .searchEnds turns => { s with window := s.window.step (s.setup M) (.searchEnds turns) }
  | .resultsMessage =>
    match s.window.posted with
    | [] => s
    | results :: posted =>
      let window := { s.window with posted := posted }.onSearchResults results
      { s with window := window, itemCount := window.currentResults.length }
  | .columnClick col =>
    let window := s.window.onColumnClick col
    { s with window := window, itemCount := window.currentResults.length }
  | .toggle item turns ops => { s with options := item.flip s.options }.triggerSearch M Γ turns ops
  | .status hasIndex => { s with enabled := hasIndex, itemCount := if hasIndex then s.itemCount else 0 }
  | .mutate op => if s.window.running = none then { s with pool := op.run Γ s.pool } else s

/-! ## The selected rows -/

/-- The loop over the selected items of the list view, which stops at one that is no row. -/
def selectedRows (rows : List DisplayEntry) : List Nat → List DisplayEntry
  | [] => []
  | i :: selection =>
    match rows[i]? with
    | none => []
    | some row => row :: selectedRows rows selection

/-- The paths of the selected rows as `CutSelectedFiles`, `OnBeginDrag` and `DeleteSelectedFiles` put them together; nothing when
there is none. `DeleteSelectedFiles` passes these to the shell as they are. -/
def pathBlock (rows : List DisplayEntry) (selection : List Nat) : Option WString :=
  let paths := (selectedRows rows selection).foldl (fun paths row => paths ++ (row.path ++ [0])) []
  if paths = [] then none else some (paths ++ [0])

/-- The `DROPFILES` of the clipboard and of a drag: `pFiles`, a point and a flag that are zero, `fWide`, and the paths. -/
def dropFiles (paths : WString) : List UInt8 :=
  LittleEndian.u32 20 ++ List.replicate 12 0 ++ LittleEndian.u32 1 ++ LittleEndian.wide paths

/-- What the shell reads from a list of paths: up to the first empty one. -/
def readPaths (text : WString) : Option (List WString) := Terminated.read 0 [] text

/-- What the shell reads from a `DROPFILES` of wide characters: the paths where `pFiles` says. -/
def readDropFiles (bytes : List UInt8) : Option (List WString) :=
  if LittleEndian.toU32 (Segments.slice bytes 16 4) = 0 then none
  else readPaths (LittleEndian.toWide (bytes.drop (LittleEndian.toU32 (bytes.take 4)).toNat))

end WinIndex
