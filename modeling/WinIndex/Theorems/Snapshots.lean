import WinIndex.StoreAccess

/-!
# Searches while the index changes

The watchers, the worker and the searches of the user interface come to the store in any order, and each takes many turns for
what it does there. Still every search sees the pool as it was at one moment, between two whole mutations, and the mutations
are those of the threads, each at one moment and in the order of its thread.
-/

namespace WinIndex

open Fanout SharedMutex Trace

variable {Γ : Locale} {ctx : SearchContext} {hardwareConcurrency : UInt32} {p : IndexPool} {query : WString}
  {options : SearchOptions}

/-! ## A search of a pool that does not change -/

/-- The rows are those of a search of the pool that came to its end, or saw the cancel flag. -/
def SearchedOn (ctx : SearchContext) (hardwareConcurrency : UInt32) (p : IndexPool) (query : WString) (options : SearchOptions)
    (rows : List DisplayEntry) (cancelled : Bool) : Prop :=
  if cancelled then ∃ turns, SearchSetup.cancelled ⟨ctx, options, p, hardwareConcurrency⟩ query turns = rows
  else ∃ turns, SearchSetup.completed ⟨ctx, options, p, hardwareConcurrency⟩ query turns = some rows

/-- The engine is past the checks it makes before any thread is started. -/
def SearchThread.Proper (ctx : SearchContext) (query : WString) (options : SearchOptions) : Prop :=
  2 ≤ query.length ∧ (options.useRegex && !ctx.re2.ok options.caseSensitive (wideToUtf8 query)) = false

/-- Where a search of a pool can be. -/
def SearchThread.Reached (ctx : SearchContext) (hardwareConcurrency : UInt32) (p : IndexPool) (query : WString)
    (options : SearchOptions) : SearchThread → Prop
  | .started query' options' => query' = query ∧ options' = options
  | .searching query' options' threads =>
    query' = query ∧ options' = options ∧ Proper ctx query options ∧ ∃ turns,
      threads = threadsAfter (searchTest ctx query options p) p.entryMeta.length searchCap.toNat
        (numThreads hardwareConcurrency) turns
  | .displaying raw rows cancelled => SearchedOn ctx hardwareConcurrency p query options (rows ++ display p raw) cancelled

/-- A search that is proper is the fan-out. -/
theorem SearchThread.Proper.search_eq (h : Proper ctx query options) (turns : List Turn) :
    search ctx query options p searchCap hardwareConcurrency turns =
      fanOut (searchTest ctx query options p) p.entryMeta.length searchCap.toNat (numThreads hardwareConcurrency) turns := by
  obtain ⟨hlen, hok⟩ := h
  rw [search, if_neg (Nat.not_lt.2 hlen)]
  split
  · rename_i hregex
    rw [hregex, Bool.true_and] at hok
    rw [searchRegex, hok]
    rfl
  · rfl

theorem SearchThread.Proper.completed_of_done (h : Proper ctx query options) {turns : List Turn}
    (hdone : (threadsAfter (searchTest ctx query options p) p.entryMeta.length searchCap.toNat
      (numThreads hardwareConcurrency) turns).Done) :
    SearchSetup.completed ⟨ctx, options, p, hardwareConcurrency⟩ query turns =
      some (display p (mergeResults searchCap.toNat ((threadsAfter (searchTest ctx query options p) p.entryMeta.length
        searchCap.toNat (numThreads hardwareConcurrency) turns).workers.map Worker.found))) := by
  rw [SearchSetup.completed, h.search_eq, fanOut]
  simp only [if_pos hdone]
  rfl

theorem SearchThread.Proper.cancelled_eq (h : Proper ctx query options) (turns : List Turn) :
    SearchSetup.cancelled ⟨ctx, options, p, hardwareConcurrency⟩ query turns =
      display p (mergeResults searchCap.toNat ((threadsAfter (searchTest ctx query options p) p.entryMeta.length
        searchCap.toNat (numThreads hardwareConcurrency) turns).workers.map Worker.found)) := by
  obtain ⟨hlen, hok⟩ := h
  have hcond : (decide (query.length < 2) || (options.useRegex && !ctx.re2.ok options.caseSensitive (wideToUtf8 query))) =
      false := by
    rw [hok, Bool.or_false, decide_eq_false_iff_not]
    exact Nat.not_lt.2 hlen
  simp only [SearchSetup.cancelled, hcond]
  rfl

/-- A search that is not proper has no results. -/
theorem SearchThread.completed_of_not_proper (h : query.length < 2 ∨
    (options.useRegex && !ctx.re2.ok options.caseSensitive (wideToUtf8 query)) = true) :
    SearchSetup.completed ⟨ctx, options, p, hardwareConcurrency⟩ query [] = some [] := by
  have hnone : search ctx query options p searchCap hardwareConcurrency [] = some [] := by
    unfold search
    split
    · rfl
    · rename_i hlen
      obtain ⟨hregex, hok⟩ := Bool.and_eq_true_iff.1 (h.resolve_left hlen)
      rw [if_pos hregex, searchRegex, if_pos hok]
  rw [SearchSetup.completed, hnone]
  rfl

/-- One result more is one row more. -/
theorem display_cons (p : IndexPool) (r : SearchResult) (raw : List SearchResult) :
    display p (r :: raw) = ((p.entryMeta[r.entryIndex.toNat]?).map (fun m => displayEntry p m r)).toList ++ display p raw := by
  rw [display, display, List.filterMap_cons]
  cases p.entryMeta[r.entryIndex.toNat]? <;> rfl

/-- A turn of a search while the pool is the same. -/
theorem SearchThread.Reached.look {s : SearchThread} (h : s.Reached ctx hardwareConcurrency p query options) (t : SearchTurn) :
    (s.look ctx hardwareConcurrency p t).Reached ctx hardwareConcurrency p query options := by
  cases s with
  | started query' options' =>
    obtain ⟨rfl, rfl⟩ := h
    simp only [SearchThread.look]
    split
    · rename_i hlen
      exact ⟨[], completed_of_not_proper (.inl hlen)⟩
    · rename_i hlen
      split
      · rename_i hok
        exact ⟨[], completed_of_not_proper (.inr hok)⟩
      · rename_i hok
        exact ⟨rfl, rfl, ⟨Nat.not_lt.1 hlen, by simpa using hok⟩, [], rfl⟩
  | searching query' options' threads =>
    obtain ⟨rfl, rfl, hproper, turns, rfl⟩ := h
    cases t with
    | worker t =>
      refine ⟨rfl, rfl, hproper, turns ++ [t], ?_⟩
      rw [threadsAfter, threadsAfter, final_append]
      rfl
    | cancel => exact ⟨turns, hproper.cancelled_eq turns⟩
    | goOn =>
      simp only [SearchThread.look]
      split
      · rename_i hdone
        exact ⟨turns, hproper.completed_of_done hdone⟩
      · exact ⟨rfl, rfl, hproper, turns, rfl⟩
  | displaying raw rows cancelled =>
    cases raw with
    | nil => exact h
    | cons r raw =>
      have h : SearchedOn ctx hardwareConcurrency p query options (rows ++ display p (r :: raw)) cancelled := h
      rw [display_cons, ← List.append_assoc] at h
      exact h

/-- A search that is through, and looked at one pool all the time, has the rows of a search of that pool. -/
theorem SearchThread.searchedOn_of_through {turns : List SearchTurn}
    (h : (turns.foldl (SearchThread.look ctx hardwareConcurrency p) (.started query options)).through = true) :
    SearchedOn ctx hardwareConcurrency p query options
      (turns.foldl (SearchThread.look ctx hardwareConcurrency p) (.started query options)).rows
      (turns.foldl (SearchThread.look ctx hardwareConcurrency p) (.started query options)).isCancelled := by
  have hreached : ∀ s : SearchThread, s.Reached ctx hardwareConcurrency p query options →
      (turns.foldl (SearchThread.look ctx hardwareConcurrency p) s).Reached ctx hardwareConcurrency p query options := by
    clear h
    induction turns with
    | nil => exact fun s hs => hs
    | cons t turns ih => exact fun s hs => ih _ (hs.look t)
  have hend := hreached (.started query options) ⟨rfl, rfl⟩
  generalize turns.foldl (SearchThread.look ctx hardwareConcurrency p) (.started query options) = s at h hend ⊢
  cases s with
  | started query' options' => nomatch h
  | searching query' options' threads => nomatch h
  | displaying raw rows cancelled =>
    cases raw with
    | cons r raw => nomatch h
    | nil =>
      have hend : SearchedOn ctx hardwareConcurrency p query options (rows ++ []) cancelled := hend
      rwa [List.append_nil] at hend

/-! ## What happened to the store -/

/-- What a thread has done to the store, or seen of it, at one moment. -/
inductive StoreEvent where
  | mutated (op : PoolOp)
  | searched (query : WString) (options : SearchOptions) (rows : List DisplayEntry) (cancelled : Bool)

/-- What it was to do. -/
def StoreEvent.access : StoreEvent → StoreAccess
  | .mutated op => .mutate op
  | .searched query options _ _ => .search query options

/-- The pool behind the event. -/
def StoreEvent.pool (Γ : Locale) (p : IndexPool) : StoreEvent → IndexPool
  | .mutated op => op.run Γ p
  | .searched _ _ _ _ => p

/-- The rows of an event that is a search are those of a search of the pool. -/
def StoreEvent.Seen (ctx : SearchContext) (hardwareConcurrency : UInt32) (p : IndexPool) : StoreEvent → Prop
  | .mutated _ => True
  | .searched query options rows cancelled => SearchedOn ctx hardwareConcurrency p query options rows cancelled

/-- The rows a search posts. -/
def StoreEvent.posted : Nat × StoreEvent → Option (Nat × List DisplayEntry)
  | (_, .mutated _) => none
  | (i, .searched _ _ rows _) => some (i, rows)

/-- The pool after some events, each with the index of its thread. -/
def poolAfter (Γ : Locale) (p : IndexPool) (events : List (Nat × StoreEvent)) : IndexPool :=
  events.foldl (fun p e => e.2.pool Γ p) p

/-- Every search among the events saw the pool as it was when its turn had come. -/
def AllSeen (Γ : Locale) (ctx : SearchContext) (hardwareConcurrency : UInt32) (p : IndexPool)
    (events : List (Nat × StoreEvent)) : Prop :=
  ∀ before e after, events = before ++ e :: after → e.2.Seen ctx hardwareConcurrency (poolAfter Γ p before)

/-- What a thread did. -/
def accessesOf (i : Nat) (events : List (Nat × StoreEvent)) : List StoreAccess :=
  (events.filter (fun e => e.1 = i)).map (fun e => e.2.access)

/-- Events, one after the other, explain what the threads have posted, what they have still to do, and the pool. -/
structure Explains (Γ : Locale) (ctx : SearchContext) (hardwareConcurrency : UInt32) (p : IndexPool)
    (programs : List (List StoreAccess)) (events : List (Nat × StoreEvent)) (value : IndexPool)
    (todos : List (List (Section IndexPool SearchThread))) (results : List (Nat × SearchThread)) : Prop where
  seen : AllSeen Γ ctx hardwareConcurrency p events
  todo : todos.length = programs.length
  order : ∀ i (program : List StoreAccess), programs[i]? = some program →
    ∃ rest, program = accessesOf i events ++ rest ∧ todos[i]? = some (rest.map (StoreAccess.section Γ))
  posted : results.map (fun r => (r.1, r.2.rows)) = events.filterMap StoreEvent.posted
  pool : value = poolAfter Γ p events

variable {programs : List (List StoreAccess)} {events : List (Nat × StoreEvent)}

theorem poolAfter_concat (e : Nat × StoreEvent) : poolAfter Γ p (events ++ [e]) = e.2.pool Γ (poolAfter Γ p events) := by
  rw [poolAfter, List.foldl_append]
  rfl

theorem accessesOf_concat_self (i : Nat) (e : StoreEvent) :
    accessesOf i (events ++ [(i, e)]) = accessesOf i events ++ [e.access] := by
  simp [accessesOf, List.filter_append]

theorem accessesOf_concat_of_ne {i j : Nat} (h : i ≠ j) (e : StoreEvent) :
    accessesOf j (events ++ [(i, e)]) = accessesOf j events := by
  simp [accessesOf, List.filter_append, h]

/-- One event more, which saw the pool as it was. -/
theorem AllSeen.concat (h : AllSeen Γ ctx hardwareConcurrency p events) {e : Nat × StoreEvent}
    (he : e.2.Seen ctx hardwareConcurrency (poolAfter Γ p events)) : AllSeen Γ ctx hardwareConcurrency p (events ++ [e]) := by
  intro before e' after heq
  rcases List.eq_nil_or_concat after with rfl | ⟨after, last, rfl⟩
  · obtain ⟨rfl, hlast⟩ := List.append_inj' heq rfl
    cases hlast
    exact he
  · rw [List.concat_eq_append, ← List.cons_append, ← List.append_assoc] at heq
    exact h before e' after (List.append_inj' heq rfl).1

/-- The next thing a thread does is explained by one event more. -/
theorem Explains.concat {value : IndexPool} {todos : List (List (Section IndexPool SearchThread))}
    {results : List (Nat × SearchThread)} (h : Explains Γ ctx hardwareConcurrency p programs events value todos results) {i : Nat}
    {program rest : List StoreAccess} {e : StoreEvent} (hprogram : programs[i]? = some program)
    (hrest : program = accessesOf i events ++ e.access :: rest) (he : e.Seen ctx hardwareConcurrency value)
    {results' : List (Nat × SearchThread)}
    (hposted : results'.map (fun r => (r.1, r.2.rows)) = (events ++ [(i, e)]).filterMap StoreEvent.posted) :
    Explains Γ ctx hardwareConcurrency p programs (events ++ [(i, e)]) (e.pool Γ value)
      (todos.set i (rest.map (StoreAccess.section Γ))) results' where
  seen := h.seen.concat (by rw [← h.pool]; exact he)
  todo := by rw [List.length_set, h.todo]
  order j program' hj := by
    by_cases hij : i = j
    · subst hij
      rw [hprogram] at hj
      cases hj
      have hlen : i < todos.length := by
        rw [h.todo]
        exact (List.getElem?_eq_some_iff.1 hprogram).1
      refine ⟨rest, ?_, List.getElem?_set_self hlen⟩
      rw [accessesOf_concat_self, List.append_assoc]
      exact hrest
    · obtain ⟨rest', horder, htodo⟩ := h.order j program' hj
      exact ⟨rest', by rw [accessesOf_concat_of_ne hij]; exact horder, by rw [List.getElem?_set_ne hij]; exact htodo⟩
  posted := hposted
  pool := by rw [poolAfter_concat, ← h.pool]

/-- A section that is taken at once is an event. -/
theorem Explains.serialStep {t : Serial IndexPool SearchThread}
    (h : Explains Γ ctx hardwareConcurrency p programs events t.value t.todos t.results) (k : Nat × List SearchTurn) :
    ∃ more, Explains Γ ctx hardwareConcurrency p programs (events ++ more)
      (SharedMutex.serialStep (searchReaders ctx hardwareConcurrency) t k).value
      (SharedMutex.serialStep (searchReaders ctx hardwareConcurrency) t k).todos
      (SharedMutex.serialStep (searchReaders ctx hardwareConcurrency) t k).results := by
  have hstay : ∃ more, Explains Γ ctx hardwareConcurrency p programs (events ++ more) t.value t.todos t.results :=
    ⟨[], by rw [List.append_nil]; exact h⟩
  obtain ⟨i, turns⟩ := k
  unfold SharedMutex.serialStep
  simp only
  cases htodo : t.todos[i]? with
  | none => exact hstay
  | some todo =>
    have hi : i < programs.length := by
      rw [← h.todo]
      exact (List.getElem?_eq_some_iff.1 htodo).1
    obtain ⟨rest, hrest, hmap⟩ := h.order i programs[i] (List.getElem?_eq_getElem hi)
    rw [htodo, Option.some.injEq] at hmap
    subst hmap
    cases rest with
    | nil => exact hstay
    | cons a rest =>
      cases a with
      | mutate op =>
        refine ⟨[(i, .mutated op)], ?_⟩
        have hvalue : SharedMutex.apply (op.moves Γ t.value) t.value = (StoreEvent.mutated op).pool Γ t.value :=
          PoolOp.apply_moves t.value op
        simp only [List.map_cons, StoreAccess.section]
        rw [hvalue]
        exact h.concat (e := .mutated op) (List.getElem?_eq_getElem hi) hrest trivial (by simp [h.posted, StoreEvent.posted])
      | search query options =>
        simp only [List.map_cons, StoreAccess.section]
        split
        · rename_i hthrough
          have hseen := SearchThread.searchedOn_of_through hthrough
          exact ⟨[(i, .searched query options _ _)],
            h.concat (e := .searched query options _ _) (List.getElem?_eq_getElem hi) hrest hseen
              (by simp [h.posted, StoreEvent.posted, searchReaders])⟩
        · exact hstay

theorem Explains.serialRun {t : Serial IndexPool SearchThread}
    (h : Explains Γ ctx hardwareConcurrency p programs events t.value t.todos t.results) (ks : List (Nat × List SearchTurn)) :
    ∃ more, Explains Γ ctx hardwareConcurrency p programs (events ++ more)
      (final (SharedMutex.serialStep (searchReaders ctx hardwareConcurrency)) t ks).value
      (final (SharedMutex.serialStep (searchReaders ctx hardwareConcurrency)) t ks).todos
      (final (SharedMutex.serialStep (searchReaders ctx hardwareConcurrency)) t ks).results := by
  induction ks generalizing events t with
  | nil => exact ⟨[], by rw [List.append_nil]; exact h⟩
  | cons k ks ih =>
    obtain ⟨more, hstep⟩ := h.serialStep k
    obtain ⟨more', hrest⟩ := ih hstep
    exact ⟨more ++ more', by rw [← List.append_assoc]; exact hrest⟩

/-! ## Any order of turns -/

/-- The events explain a state of the store whose threads may be in the middle of something: no thread has come to its lock
again before it is through, and while none holds it the pool is the one behind the events. -/
def ExplainsState (Γ : Locale) (ctx : SearchContext) (hardwareConcurrency : UInt32) (p : IndexPool)
    (programs : List (List StoreAccess)) (events : List (Nat × StoreEvent)) (s : SharedMutex.State IndexPool SearchThread) :
    Prop :=
  Explains Γ ctx hardwareConcurrency p programs events (poolAfter Γ p events) s.todos s.results ∧
    (s.Outside → s.value = poolAfter Γ p events)

/-- For every pool, whatever the threads of the program do to it and search in it, and for every order of their turns: there are
events, each a whole mutation or a search of the pool as it is between two mutations, that explain what the threads have
done and what the searches have posted; and what happens later is explained by events behind these. -/
theorem searches_see_one_pool (Γ : Locale) (ctx : SearchContext) (hardwareConcurrency : UInt32) (p : IndexPool)
    (programs : List (List StoreAccess)) (turns turns' : List (Nat × SearchTurn)) :
    ∃ events events',
      ExplainsState Γ ctx hardwareConcurrency p programs events
        (final (SharedMutex.step (searchReaders ctx hardwareConcurrency)) (storeStart Γ p programs) turns) ∧
      ExplainsState Γ ctx hardwareConcurrency p programs (events ++ events')
        (final (SharedMutex.step (searchReaders ctx hardwareConcurrency)) (storeStart Γ p programs) (turns ++ turns')) := by
  have hvalid := State.valid_start (searchReaders ctx hardwareConcurrency) p (programs.map (List.map (StoreAccess.section Γ)))
  obtain ⟨ks, b, hvalid, hserial⟩ := hvalid.run turns
  obtain ⟨ks', b', hvalid', hserial'⟩ := hvalid.run turns'
  have hstart : Explains Γ ctx hardwareConcurrency p programs [] ((storeStart Γ p programs).serial p).value
      ((storeStart Γ p programs).serial p).todos ((storeStart Γ p programs).serial p).results := by
    have htodos : ((storeStart Γ p programs).serial p).todos = programs.map (List.map (StoreAccess.section Γ)) := by
      show (storeStart Γ p programs).todos = _
      rw [SharedMutex.State.todos, storeStart, SharedMutex.State.start, List.map_map]
      exact List.map_id' _
    refine ⟨fun before e after h => ?_, ?_, fun i program hi => ⟨program, rfl, ?_⟩, rfl, rfl⟩
    · exact absurd h (List.append_ne_nil_of_right_ne_nil before (List.cons_ne_nil e after)).symm
    · rw [htodos, List.length_map]
    · rw [htodos, List.getElem?_map, hi]
      rfl
  obtain ⟨events, hevents⟩ := hstart.serialRun ks
  rw [storeStart, hserial, List.nil_append] at hevents
  obtain ⟨events', hevents'⟩ := hevents.serialRun ks'
  rw [hserial'] at hevents'
  have hb : b = poolAfter Γ p events := hevents.pool
  have hb' : b' = poolAfter Γ p (events ++ events') := hevents'.pool
  refine ⟨events, events', ⟨hb ▸ hevents, fun hout => ?_⟩, ?_⟩
  · rw [← hb]
    exact hvalid.value_of_outside hout
  · rw [final_append]
    exact ⟨hb' ▸ hevents', fun hout => (hvalid'.value_of_outside hout).trans hb'⟩

end WinIndex
