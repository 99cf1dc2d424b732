import WinIndex.IndexStore
import WinIndex.Lib.SharedMutex
import WinIndex.MainWindow

/-!
# The lock of the store

`IndexStore` (src/core/storage/IndexStore.h, IndexStore.cpp) has one `std::shared_mutex`. A mutation of the published pool holds
it exclusively while it changes the three arrays of the pool one after the other. `ExecuteSearch` (src/ui/MainWindow.cpp) takes
it shared, takes the addresses of the arrays, and moves the lock into the search thread, which reads the arrays until it has
made its list of results. Here nothing is done at once: a mutation is a list of moves, and a search takes turns, its threads'
and its own.
-/

namespace WinIndex

open Fanout SharedMutex

/-! ## Mutations -/

/-- What is done to the published pool under the exclusive lock. `replace` is the end of `EndWrite`, with the pool made of the
staging buffer before the lock is taken, and of `Load`, with the pool read, or an empty one. -/
inductive PoolOp where
  | applyAdd (e : FileEntry)
  | applyRemove (path : WString)
  | applyRename (oldPath newPath : WString)
  | removeEntriesUnderPath (pfx : WString)
  | replace (fresh : IndexPool)

/-- The moves of `AddEntry`: the path is appended, then the folded name, then the record, which is made first. -/
def IndexPool.addMoves (Γ : Locale) (p : IndexPool) (e : FileEntry) : List (IndexPool → IndexPool) :=
  [fun q => { q with pathPool := q.pathPool ++ e.path },
    fun q => { q with nameLowerPool := q.nameLowerPool ++ e.lowerName Γ },
    fun q => { q with entryMeta := q.entryMeta ++ [p.newMeta Γ e] }]

/-- The body of the loop of `RemoveEntriesUnderPath` at an index. -/
def IndexPool.removeUnderAt (Γ : Locale) (lp : WString) (i : Nat) (p : IndexPool) : IndexPool :=
  if p.entryMeta[i]?.any (p.underAt Γ lp i) then p.markDeleted i else p

/-- The moves of a mutation that finds the pool as it is. -/
def PoolOp.moves (Γ : Locale) (p : IndexPool) : PoolOp → List (IndexPool → IndexPool)
  | .applyAdd e => p.addMoves Γ e
  | .applyRemove path =>
    match p.firstMatch Γ (Γ.lower path) with
    | some i => [fun q => q.markDeleted i]
    | none => []
  | .applyRename oldPath newPath =>
    match p.firstMatch Γ (Γ.lower oldPath) with
    | some i =>
      match p.entryMeta[i]? with
      | some om => (fun q => q.markDeleted i) :: (p.markDeleted i).addMoves Γ (renamedEntry Γ om newPath)
      | none => []
    | none => []
  | .removeEntriesUnderPath pfx => (List.range p.entryMeta.length).map (IndexPool.removeUnderAt Γ (removalPrefix Γ pfx))
  | .replace fresh =>
    [fun q => { q with entryMeta := fresh.entryMeta }, fun q => { q with nameLowerPool := fresh.nameLowerPool },
      fun q => { q with pathPool := fresh.pathPool }]

/-- The whole of a mutation. -/
def PoolOp.run (Γ : Locale) (p : IndexPool) : PoolOp → IndexPool
  | .applyAdd e => p.addEntry Γ e
  | .applyRemove path => (IndexStore.applyRemove Γ ⟨p, .empty, []⟩ path).pool
  | .applyRename oldPath newPath => (IndexStore.applyRename Γ ⟨p, .empty, []⟩ oldPath newPath).pool
  | .removeEntriesUnderPath pfx => (IndexStore.removeEntriesUnderPath Γ ⟨p, .empty, []⟩ pfx).pool
  | .replace fresh => fresh

/-! ## Searches -/

/-- The search thread: it has the lock and the addresses; its threads search; it makes the rows of the results, the first of which
are made. `cancelled` says that the threads have seen the flag. -/
inductive SearchThread where
  | started (query : WString) (options : SearchOptions)
  | searching (query : WString) (options : SearchOptions) (threads : State SearchResult)
  | displaying (raw : List SearchResult) (rows : List DisplayEntry) (cancelled : Bool)

/-- What happens in a search: a thread of it takes a turn, its threads have seen the cancel flag and ended, or the search thread
itself goes on. -/
inductive SearchTurn where
  | worker (t : Turn)
  | cancel
  | goOn

/-- A turn of a search that looks at the pool. -/
def SearchThread.look (ctx : SearchContext) (hardwareConcurrency : UInt32) (p : IndexPool) :
    SearchThread → SearchTurn → SearchThread
  | .started query options, _ =>
    if query.length < 2 then .displaying [] [] false
    else if options.useRegex && !ctx.re2.ok options.caseSensitive (wideToUtf8 query) then .displaying [] [] false
    else .searching query options (.start (ceilChunks p.entryMeta.length (numThreads hardwareConcurrency)))
  | .searching query options threads, .worker t =>
    .searching query options (Fanout.step (searchTest ctx query options p) searchCap.toNat (2 ^ 32) threads t)
  | .searching _ _ threads, .cancel =>
    .displaying (mergeResults searchCap.toNat (threads.workers.map Worker.found)) [] true
  | .searching query options threads, .goOn =>
    if threads.Done then .displaying (mergeResults searchCap.toNat (threads.workers.map Worker.found)) [] false
    else .searching query options threads
  | .displaying (r :: raw) rows cancelled, _ =>
    .displaying raw (rows ++ ((p.entryMeta[r.entryIndex.toNat]?).map (fun m => displayEntry p m r)).toList) cancelled
  | .displaying [] rows cancelled, _ => .displaying [] rows cancelled

/-- The search thread has made its list, and gives up the lock when it has posted it. -/
def SearchThread.through : SearchThread → Bool
  | .displaying [] _ _ => true
  | _ => false

/-- The rows that a search that is through posts. -/
def SearchThread.rows : SearchThread → List DisplayEntry
  | .displaying _ rows _ => rows
  | _ => []

/-- The search saw the cancel flag. -/
def SearchThread.isCancelled : SearchThread → Bool
  | .displaying _ _ cancelled => cancelled
  | _ => false

/-! ## The threads of the store -/

/-- What a thread does under the lock next: a mutation or a search. -/
inductive StoreAccess where
  | mutate (op : PoolOp)
  | search (query : WString) (options : SearchOptions)

/-- As a section under the lock. -/
def StoreAccess.section (Γ : Locale) : StoreAccess → Section IndexPool SearchThread
  | .mutate op => .exclusive (fun p => op.moves Γ p)
  | .search query options => .shared (.started query options)

/-- How searches look at the pool. -/
def searchReaders (ctx : SearchContext) (hardwareConcurrency : UInt32) : Readers IndexPool SearchThread SearchTurn :=
  ⟨SearchThread.look ctx hardwareConcurrency, SearchThread.through⟩

/-- The store when its threads start: the thread of each watcher, the worker and the user interface, with what each will do. -/
def storeStart (Γ : Locale) (p : IndexPool) (programs : List (List StoreAccess)) : SharedMutex.State IndexPool SearchThread :=
  .start p (programs.map (List.map (StoreAccess.section Γ)))

/-! ## Mutations are what their moves do -/

variable {Γ : Locale} {p : IndexPool}

theorem IndexPool.apply_addMoves (p : IndexPool) (e : FileEntry) : apply (p.addMoves Γ e) p = p.addEntry Γ e := rfl

/-- The pool after the first indices of that loop. -/
def IndexPool.removedUnder (Γ : Locale) (lp : WString) (n : Nat) (p : IndexPool) : IndexPool :=
  { p with
    entryMeta := p.entryMeta.mapIdx (fun i m => if i < n ∧ p.underAt Γ lp i m = true then { m with deleted := true } else m) }

theorem IndexPool.getElem?_removedUnder (lp : WString) (n i : Nat) : (p.removedUnder Γ lp n).entryMeta[i]? =
    p.entryMeta[i]?.map (fun m => if i < n ∧ p.underAt Γ lp i m = true then { m with deleted := true } else m) :=
  List.getElem?_mapIdx

/-- A path is where it was, tombstoned or not. -/
theorem IndexPool.getPath_removedUnder (lp : WString) (n : Nat) (idx : UInt32) :
    (p.removedUnder Γ lp n).getPath idx = p.getPath idx := by
  rw [getPath, getPath, getElem?_removedUnder]
  cases p.entryMeta[idx.toNat]? with
  | none => rfl
  | some m =>
    simp only [Option.map_some]
    split <;> rfl

/-- One index more. -/
theorem IndexPool.removeUnderAt_removedUnder (lp : WString) (n : Nat) :
    IndexPool.removeUnderAt Γ lp n (p.removedUnder Γ lp n) = p.removedUnder Γ lp (n + 1) := by
  have hunder : ∀ m, (p.removedUnder Γ lp n).underAt Γ lp n m = p.underAt Γ lp n m := fun m => by
    rw [underAt, underAt, getPath_removedUnder]
  have hentry : (p.removedUnder Γ lp n).entryMeta[n]? = p.entryMeta[n]? := by
    rw [getElem?_removedUnder]
    cases p.entryMeta[n]? <;> simp
  have hentries : (IndexPool.removeUnderAt Γ lp n (p.removedUnder Γ lp n)).entryMeta =
      (p.removedUnder Γ lp (n + 1)).entryMeta := by
    apply List.ext_getElem?
    intro i
    unfold removeUnderAt
    rw [hentry, getElem?_removedUnder]
    by_cases hi : i = n
    · subst hi
      cases hm : p.entryMeta[i]? with
      | none => simp [hentry, hm]
      | some m =>
        simp only [Option.any_some, hunder]
        split
        · rename_i hu
          simp [markDeleted, hentry, hm, hu]
        · rename_i hu
          simp [hentry, hm, hu]
    · have hlt : i < n + 1 ↔ i < n := by omega
      have hsame : (IndexPool.markDeleted (p.removedUnder Γ lp n) n).entryMeta[i]? = (p.removedUnder Γ lp n).entryMeta[i]? := by
        simp only [markDeleted, List.getElem?_modify, if_neg (Ne.symm hi), id_map']
      simp only [hlt]
      split
      · rw [hsame, getElem?_removedUnder]
      · rw [getElem?_removedUnder]
  unfold removeUnderAt at hentries ⊢
  split at hentries
  · rename_i h
    rw [if_pos h]
    exact congrArg (fun entries => IndexPool.mk entries p.nameLowerPool p.pathPool) hentries
  · rename_i h
    rw [if_neg h]
    exact congrArg (fun entries => IndexPool.mk entries p.nameLowerPool p.pathPool) hentries

/-- After the first indices, the loop of `RemoveEntriesUnderPath` has tombstoned what is under the prefix there. -/
theorem IndexPool.apply_removeUnderAt (lp : WString) (p : IndexPool) (n : Nat) :
    apply ((List.range n).map (IndexPool.removeUnderAt Γ lp)) p = p.removedUnder Γ lp n := by
  induction n with
  | zero =>
    have hself : (p.removedUnder Γ lp 0).entryMeta = p.entryMeta := by
      apply List.ext_getElem?
      intro i
      rw [getElem?_removedUnder]
      cases p.entryMeta[i]? <;> simp
    exact congrArg (fun entries => IndexPool.mk entries p.nameLowerPool p.pathPool) hself.symm
  | succ n ih =>
    rw [← removeUnderAt_removedUnder, ← ih, List.range_succ, List.map_append, SharedMutex.apply, List.foldl_append]
    rfl

/-- The moves of a mutation, one after the other, are the mutation. -/
theorem PoolOp.apply_moves (p : IndexPool) (op : PoolOp) : apply (op.moves Γ p) p = op.run Γ p := by
  cases op with
  | applyAdd e => rfl
  | applyRemove path =>
    simp only [moves, run, IndexStore.applyRemove]
    cases p.firstMatch Γ (Γ.lower path) <;> rfl
  | applyRename oldPath newPath =>
    simp only [moves, run, IndexStore.applyRename]
    cases p.firstMatch Γ (Γ.lower oldPath) with
    | none => rfl
    | some i =>
      simp only
      cases p.entryMeta[i]? <;> rfl
  | removeEntriesUnderPath pfx =>
    rw [moves, IndexPool.apply_removeUnderAt]
    have hall : (p.removedUnder Γ (removalPrefix Γ pfx) p.entryMeta.length).entryMeta =
        ((PoolOp.removeEntriesUnderPath pfx).run Γ p).entryMeta := by
      apply List.ext_getElem?
      intro i
      rw [IndexPool.getElem?_removedUnder, run, IndexStore.removeEntriesUnderPath, List.getElem?_mapIdx]
      by_cases hi : i < p.entryMeta.length
      · simp only [hi, true_and]
      · rw [List.getElem?_eq_none (by omega)]
        rfl
    exact congrArg (fun entries => IndexPool.mk entries p.nameLowerPool p.pathPool) hall
  | replace fresh => rfl

end WinIndex
