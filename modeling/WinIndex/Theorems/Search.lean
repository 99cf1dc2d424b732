import WinIndex.SearchEngine

/-!
# The parallel search and the sequential filter

Whatever the turns of its threads, a search finds as many entries as the sequential filter, up to the cap, each of them one
that the filter finds, and in its order. Below the cap it is the filter; above it, which entries are found depends on the
turns.
-/

namespace WinIndex

open Fanout Trace

variable {ctx : SearchContext} {query : WString} {options : SearchOptions} {p : IndexPool}

/-- The sequential filter: what the test makes of each entry, in index order. -/
def acceptedEntries (ctx : SearchContext) (query : WString) (options : SearchOptions) (p : IndexPool) : List SearchResult :=
  (List.range p.entryMeta.length).filterMap (searchTest ctx query options p)

/-- An entry that the search returns when the cap allows it: it is live, and passes the test. -/
def Passes (ctx : SearchContext) (query : WString) (options : SearchOptions) (p : IndexPool) (m : EntryMeta) : Bool :=
  !m.deleted && (entryTest ctx query options p m).isSome

/-- A result is right: its entry is live, and the test of that entry gives its position and length. -/
def SearchResult.Right (ctx : SearchContext) (query : WString) (options : SearchOptions) (p : IndexPool) (r : SearchResult) :
    Prop :=
  ∃ m pos len, p.entryMeta[r.entryIndex.toNat]? = some m ∧ m.deleted = false ∧
    entryTest ctx query options p m = some (pos, len) ∧ r.matchStart = UInt32.ofNat pos ∧ r.matchLen = UInt32.ofNat len

/-- The threads have enough turns: two for each entry of its chunk, and one. -/
def EnoughTurns (p : IndexPool) (hardwareConcurrency : UInt32) (turns : List Turn) : Prop :=
  ∀ i chunk, (ceilChunks p.entryMeta.length (numThreads hardwareConcurrency))[i]? = some chunk →
    2 * (chunk.2 - chunk.1) + 1 ≤ turnsOf i turns

/-! ## The sequential filter -/

/-- What the test accepts at an index is a right result with that index. -/
theorem searchTest_eq_some (hN : p.entryMeta.length < 2 ^ 32) {i : Nat} {r : SearchResult}
    (h : searchTest ctx query options p i = some r) : r.entryIndex.toNat = i ∧ r.Right ctx query options p := by
  unfold searchTest at h
  cases hm : p.entryMeta[i]? with
  | none =>
    rw [hm] at h
    cases h
  | some m =>
    rw [hm] at h
    simp only at h
    split at h
    · cases h
    · rename_i hlive
      obtain ⟨⟨pos, len⟩, htest, rfl⟩ := Option.map_eq_some_iff.1 h
      have hi : i < 2 ^ 32 := Nat.lt_trans (List.getElem?_eq_some_iff.1 hm).1 hN
      have hcast : (UInt32.ofNat i).toNat = i := UInt32.toNat_ofNat_of_lt' hi
      exact ⟨hcast, m, pos, len, by rwa [hcast], by simpa using hlive, htest, rfl, rfl⟩

/-- The filter lists its entries in index order. -/
theorem pairwise_acceptedEntries (hN : p.entryMeta.length < 2 ^ 32) :
    (acceptedEntries ctx query options p).Pairwise (fun r r' => r.entryIndex.toNat < r'.entryIndex.toNat) := by
  rw [acceptedEntries, List.pairwise_filterMap]
  refine List.pairwise_lt_range.imp (fun hlt r hr r' hr' => ?_)
  rw [(searchTest_eq_some hN hr).1, (searchTest_eq_some hN hr').1]
  exact hlt

/-- A list is what stands at its indices. -/
theorem filterMap_getElem?_range {α : Type*} (as : List α) : (List.range as.length).filterMap (fun i => as[i]?) = as := by
  induction as with
  | nil => rfl
  | cons a as ih =>
    rw [List.length_cons, List.range_succ_eq_map, List.filterMap_cons, List.filterMap_map]
    exact congrArg (a :: ·) ih

/-- The filter lists as many as there are live entries that pass the test. -/
theorem length_acceptedEntries (ctx : SearchContext) (query : WString) (options : SearchOptions) (p : IndexPool) :
    (acceptedEntries ctx query options p).length = p.entryMeta.countP (Passes ctx query options p) := by
  have htest : ∀ i, (searchTest ctx query options p i).isSome =
      ((p.entryMeta[i]?).map (Passes ctx query options p)).getD false := by
    intro i
    rw [searchTest]
    cases p.entryMeta[i]? with
    | none => rfl
    | some m => cases hlive : m.deleted <;> simp [Passes, hlive]
  calc (acceptedEntries ctx query options p).length
      = (List.range p.entryMeta.length).countP (fun i => (searchTest ctx query options p i).isSome) :=
        List.length_filterMap_eq_countP
    _ = (List.range p.entryMeta.length).countP (fun i => ((p.entryMeta[i]?).map (Passes ctx query options p)).getD false) := by
        simp only [htest]
    _ = ((List.range p.entryMeta.length).filterMap (fun i => p.entryMeta[i]?)).countP (Passes ctx query options p) :=
        List.countP_filterMap.symm
    _ = p.entryMeta.countP (Passes ctx query options p) := by rw [filterMap_getElem?_range]

/-- Putting results together stops at the cap. -/
theorem mergeResults_eq_take (maxResults : Nat) (chunks : List (List SearchResult)) :
    mergeResults maxResults chunks = chunks.flatten.take maxResults := by
  rw [mergeResults, ← List.foldl_flatten, foldl_capped maxResults _ (Nat.zero_le _), List.nil_append]

/-! ## The fan-out -/

variable {maxResults hardwareConcurrency : UInt32} {turns : List Turn}

theorem numThreads_pos (hardwareConcurrency : UInt32) : 0 < numThreads hardwareConcurrency :=
  Nat.lt_of_lt_of_le Nat.zero_lt_one (Nat.le_max_left _ _)

/-- What holds of the threads after any turns. -/
theorem valid_threadsAfter (test : Nat → Option SearchResult) (entryCount maxResults threads : Nat) (turns : List Turn) :
    (threadsAfter test entryCount maxResults threads turns).Valid test maxResults (ceilChunks entryCount threads) :=
  (State.valid_start le_of_mem_ceilChunks).after (2 ^ 32) turns

/-- The fan-out returns once every thread has ended, what they have found up to the cap. -/
theorem fanOut_eq_some_iff {test : Nat → Option SearchResult} {entryCount maxResults threads : Nat}
    {results : List SearchResult} :
    fanOut test entryCount maxResults threads turns = some results ↔
      (threadsAfter test entryCount maxResults threads turns).Done ∧
        (threadsAfter test entryCount maxResults threads turns).found.take maxResults = results := by
  unfold fanOut
  simp only [mergeResults_eq_take]
  split
  · rename_i hdone
    rw [Option.some.injEq]
    exact ⟨fun h => ⟨hdone, h⟩, fun h => h.2⟩
  · rename_i hdone
    exact ⟨(nomatch ·), fun h => absurd h.1 hdone⟩

/-- An invalid pattern accepts nothing. -/
theorem searchTest_of_not_ok (hregex : options.useRegex = true)
    (hok : ctx.re2.ok options.caseSensitive (wideToUtf8 query) = false) (i : Nat) :
    searchTest ctx query options p i = none := by
  unfold searchTest
  cases p.entryMeta[i]? with
  | none => rfl
  | some m =>
    simp only [entryTest, hregex, if_true, regexTest, hok]
    simp

/-- A search of at least two characters is the fan-out of its test; where the pattern is invalid, it returns at once with what
the fan-out would find. -/
theorem search_cases (ctx : SearchContext) (options : SearchOptions) (p : IndexPool) (maxResults hardwareConcurrency : UInt32)
    (turns : List Turn) (hq : 2 ≤ query.length) :
    search ctx query options p maxResults hardwareConcurrency turns =
        fanOut (searchTest ctx query options p) p.entryMeta.length maxResults.toNat (numThreads hardwareConcurrency) turns ∨
      (search ctx query options p maxResults hardwareConcurrency turns = some [] ∧
        acceptedEntries ctx query options p = []) := by
  unfold search
  rw [if_neg (Nat.not_lt.2 hq)]
  split
  · rename_i hregex
    unfold searchRegex
    split
    · rename_i hok
      refine .inr ⟨rfl, ?_⟩
      rw [acceptedEntries, List.filterMap_eq_nil_iff]
      exact fun i _ => searchTest_of_not_ok hregex (by simpa using hok) i
    · exact .inl rfl
  · exact .inl rfl

/-- Threads that have enough turns end, in whatever order they take them. -/
theorem search_isSome (hq : 2 ≤ query.length) (h : EnoughTurns p hardwareConcurrency turns) :
    (search ctx query options p maxResults hardwareConcurrency turns).isSome := by
  rcases search_cases ctx options p maxResults hardwareConcurrency turns hq with hfan | ⟨hnil, -⟩
  · rw [hfan, fanOut, if_pos]
    · rfl
    · exact done_of_turns le_of_mem_ceilChunks h
  · rw [hnil]
    rfl

/-- What a search returns is a part of the filter, as much of it as the cap allows. -/
theorem search_sublist (hq : 2 ≤ query.length) {results : List SearchResult}
    (h : search ctx query options p maxResults hardwareConcurrency turns = some results) :
    results.Sublist (acceptedEntries ctx query options p) ∧
      results.length = min maxResults.toNat (acceptedEntries ctx query options p).length := by
  rcases search_cases ctx options p maxResults hardwareConcurrency turns hq with hfan | ⟨hnil, hnone⟩
  · rw [hfan, fanOut_eq_some_iff] at h
    obtain ⟨hdone, rfl⟩ := h
    have hvalid := valid_threadsAfter (searchTest ctx query options p) p.entryMeta.length maxResults.toNat
      (numThreads hardwareConcurrency) turns
    have hflat := flatten_ceilChunks (searchTest ctx query options p) (n := p.entryMeta.length)
      (numThreads_pos hardwareConcurrency)
    have hsub := (List.take_sublist maxResults.toNat _).trans hvalid.found_sublist
    have hlen := hdone.length_take_found hvalid
    rw [hflat] at hsub hlen
    exact ⟨hsub, hlen⟩
  · rw [hnil, Option.some.injEq] at h
    rw [← h, hnone]
    exact ⟨List.Sublist.refl _, (Nat.min_zero _).symm⟩

/-! ## The search against the filter -/

/-- A search of at least two characters returns, however its threads are interleaved and however late they see the counter,
right results in index order, as many as there are live entries that pass the test or as the cap allows, and all that pass when
the cap allows it. -/
theorem search_agrees_with_filter (ctx : SearchContext) (query : WString) (options : SearchOptions) (p : IndexPool)
    (maxResults hardwareConcurrency : UInt32) (hN : p.entryMeta.length < 2 ^ 32) (hq : 2 ≤ query.length) :
    (∀ turns, EnoughTurns p hardwareConcurrency turns →
      (search ctx query options p maxResults hardwareConcurrency turns).isSome) ∧
    ∀ turns results, search ctx query options p maxResults hardwareConcurrency turns = some results →
      results.Pairwise (fun r r' => r.entryIndex.toNat < r'.entryIndex.toNat) ∧
      (∀ r ∈ results, r.Right ctx query options p) ∧
      results.length = min maxResults.toNat (p.entryMeta.countP (Passes ctx query options p)) ∧
      (acceptedEntries ctx query options p).length = p.entryMeta.countP (Passes ctx query options p) ∧
      ((acceptedEntries ctx query options p).length ≤ maxResults.toNat → results = acceptedEntries ctx query options p) := by
  refine ⟨fun turns h => search_isSome hq h, ?_⟩
  intro turns results h
  obtain ⟨hsub, hlen⟩ := search_sublist hq h
  have hcount := length_acceptedEntries ctx query options p
  refine ⟨(pairwise_acceptedEntries hN).sublist hsub, ?_, hcount ▸ hlen, hcount, ?_⟩
  · intro r hr
    obtain ⟨i, -, hi⟩ := List.mem_filterMap.1 (hsub.subset hr)
    exact (searchTest_eq_some hN hi).2
  · intro hle
    refine hsub.eq_of_length ?_
    rw [hlen, Nat.min_eq_right hle]

namespace SearchWitness

/-- `C:\ab`. -/
def pathAb : WString := wide ['C', ':', '\\', 'a', 'b']

/-- `C:\abc`. -/
def pathAbc : WString := wide ['C', ':', '\\', 'a', 'b', 'c']

/-- A file as a scanner reports it. -/
def file (path : WString) : FileEntry := .ofPath .c path 3 5 0x20

/-- Two files. -/
def pool : IndexPool := .ofEntries .c [file pathAb, file pathAbc]

/-- The "C" locale on a processor without AVX2, and a matcher that no pattern compiles for. -/
def context : SearchContext := ⟨.c, false, ⟨fun _ _ => false, fun _ _ _ => none⟩, fun _ => 0⟩

/-- No option set. -/
def plain : SearchOptions := ⟨false, false, false, false⟩

/-- `ab`. -/
def queryAb : WString := wide ['a', 'b']

theorem search_agrees_with_filter_pool :
    (∀ turns, EnoughTurns pool 2 turns → (search context queryAb plain pool 1 2 turns).isSome) ∧
    ∀ turns results, search context queryAb plain pool 1 2 turns = some results →
      results.Pairwise (fun r r' => r.entryIndex.toNat < r'.entryIndex.toNat) ∧
      (∀ r ∈ results, r.Right context queryAb plain pool) ∧
      results.length = min (1 : UInt32).toNat (pool.entryMeta.countP (Passes context queryAb plain pool)) ∧
      (acceptedEntries context queryAb plain pool).length = pool.entryMeta.countP (Passes context queryAb plain pool) ∧
      ((acceptedEntries context queryAb plain pool).length ≤ (1 : UInt32).toNat →
        results = acceptedEntries context queryAb plain pool) :=
  search_agrees_with_filter context queryAb plain pool 1 2 (by decide) (by decide)

end SearchWitness

/-! ## Which runs agree with each other -/

/-- What a search ought to return from: the filter, but nothing for less than two characters. -/
def searchMatches (ctx : SearchContext) (query : WString) (options : SearchOptions) (p : IndexPool) : List SearchResult :=
  if query.length < 2 then [] else acceptedEntries ctx query options p

/-- Every run of a search, with any number of threads, returns the first matches up to the cap. -/
def ScheduleIndependent (ctx : SearchContext) (query : WString) (options : SearchOptions) (p : IndexPool)
    (maxResults : UInt32) : Prop :=
  ∀ hardwareConcurrency turns results, search ctx query options p maxResults hardwareConcurrency turns = some results →
    results = (searchMatches ctx query options p).take maxResults.toNat

/-- With no more matches than the cap, or a cap of nothing, all runs agree. -/
theorem scheduleIndependent_of_le
    (h : (searchMatches ctx query options p).length ≤ maxResults.toNat ∨ maxResults.toNat = 0) :
    ScheduleIndependent ctx query options p maxResults := by
  intro hardwareConcurrency turns results hsearch
  unfold searchMatches at h ⊢
  by_cases hq : query.length < 2
  · rw [search, if_pos hq, Option.some.injEq] at hsearch
    rw [if_pos hq, ← hsearch, List.take_nil]
  · rw [if_neg hq] at h ⊢
    obtain ⟨hsub, hlen⟩ := search_sublist (Nat.not_lt.1 hq) hsearch
    rcases h with hle | hzero
    · rw [List.take_of_length_le hle]
      refine hsub.eq_of_length ?_
      rw [hlen, Nat.min_eq_right hle]
    · rw [hzero, Nat.zero_min] at hlen
      rw [List.length_eq_zero_iff.1 hlen, hzero, List.take_zero]

/-- With more matches than the cap, and a cap, there is a run that misses the first match: a thread for each entry, and the
one of that match comes last. -/
theorem exists_run_without_first (hN : p.entryMeta.length < 2 ^ 32) (hq : 2 ≤ query.length) (hpos : 0 < maxResults.toNat)
    (hmore : maxResults.toNat < (acceptedEntries ctx query options p).length) :
    ∃ hardwareConcurrency turns results, search ctx query options p maxResults hardwareConcurrency turns = some results ∧
      results ≠ (acceptedEntries ctx query options p).take maxResults.toNat := by
  obtain ⟨first, rest, hfirst⟩ := List.exists_cons_of_length_pos (Nat.zero_lt_of_lt hmore)
  obtain ⟨i, hi, htest⟩ := List.mem_filterMap.1 (hfirst ▸ List.mem_cons_self : first ∈ acceptedEntries ctx query options p)
  have hi := List.mem_range.1 hi
  have hn : 0 < p.entryMeta.length := Nat.zero_lt_of_lt hi
  have hthreads : numThreads (UInt32.ofNat p.entryMeta.length) = p.entryMeta.length := by
    rw [numThreads, UInt32.toNat_ofNat_of_lt' hN, Nat.max_eq_right hn]
  have hflat : ((ceilChunks p.entryMeta.length p.entryMeta.length).map (accepted (searchTest ctx query options p))).flatten =
      acceptedEntries ctx query options p := flatten_ceilChunks _ hn
  have hlen : (acceptedEntries ctx query options p).length ≤ p.entryMeta.length := by
    refine Nat.le_trans (List.length_filterMap_le _ _) ?_
    rw [List.length_range]
  obtain ⟨turns, hdone, hfound⟩ := exists_late (searchTest ctx query options p) maxResults.toNat (2 ^ 32)
    le_of_mem_ceilChunks (getElem?_ceilChunks_self hi) (by rw [hflat]; omega)
    (by rw [hflat, accepted_single, htest, Option.toList_some, List.length_singleton]; omega)
  have hsome : search ctx query options p maxResults (UInt32.ofNat p.entryMeta.length) turns =
      some ((threadsAfter (searchTest ctx query options p) p.entryMeta.length maxResults.toNat p.entryMeta.length
        turns).found.take maxResults.toNat) := by
    rcases search_cases ctx options p maxResults (UInt32.ofNat p.entryMeta.length) turns hq with hfan | ⟨-, hnil⟩
    · rw [hfan, hthreads]
      exact fanOut_eq_some_iff.2 ⟨hdone, rfl⟩
    · rw [hfirst] at hnil
      cases hnil
  refine ⟨_, turns, _, hsome, fun heq => ?_⟩
  -- the first match would be found by the thread of another index
  have hmem : first ∈ (acceptedEntries ctx query options p).take maxResults.toNat := by
    rw [hfirst]
    obtain ⟨n, hsucc⟩ := Nat.exists_eq_succ_of_ne_zero (Nat.ne_of_gt hpos)
    rw [hsucc, List.take_succ_cons]
    exact List.mem_cons_self
  rw [← heq] at hmem
  obtain ⟨k, chunk, hne, hk, hmem⟩ := hfound first (List.mem_of_mem_take hmem)
  obtain ⟨hlt, -⟩ := List.getElem?_eq_some_iff.1 hk
  rw [length_ceilChunks_self hn] at hlt
  rw [getElem?_ceilChunks_self hlt, Option.some.injEq] at hk
  rw [← hk, accepted_single, Option.mem_toList] at hmem
  exact hne ((searchTest_eq_some hN hmem).1.symm.trans (searchTest_eq_some hN htest).1)

/-- The runs of a search agree when there are no more matches than the cap, or the cap is nothing, and only then where the
indices of the entries are what a result can hold. -/
theorem scheduleIndependent_iff (ctx : SearchContext) (query : WString) (options : SearchOptions) (p : IndexPool)
    (maxResults : UInt32) :
    ((searchMatches ctx query options p).length ≤ maxResults.toNat ∨ maxResults.toNat = 0 →
      ScheduleIndependent ctx query options p maxResults) ∧
    (p.entryMeta.length < 2 ^ 32 →
      (ScheduleIndependent ctx query options p maxResults ↔
        (searchMatches ctx query options p).length ≤ maxResults.toNat ∨ maxResults.toNat = 0)) := by
  refine ⟨scheduleIndependent_of_le, fun hN => ⟨fun hind => ?_, scheduleIndependent_of_le⟩⟩
  by_contra hnot
  rw [not_or, Nat.not_le] at hnot
  obtain ⟨hmore, hpos⟩ := hnot
  unfold ScheduleIndependent at hind
  unfold searchMatches at hmore hind
  by_cases hq : query.length < 2
  · rw [if_pos hq] at hmore
    exact Nat.not_lt_zero _ hmore
  · rw [if_neg hq] at hmore hind
    obtain ⟨hardwareConcurrency, turns, results, hsearch, hne⟩ :=
      exists_run_without_first hN (Nat.not_lt.1 hq) (Nat.pos_of_ne_zero hpos) hmore
    exact hne (hind hardwareConcurrency turns results hsearch)

namespace SearchWitness

/-- The thread of the first entry comes first. -/
def inOrder : List Turn := [⟨0, 0⟩, ⟨0, 0⟩, ⟨0, 0⟩, ⟨1, 0⟩]

/-- The thread of the second entry comes first. -/
def outOfOrder : List Turn := [⟨1, 0⟩, ⟨1, 0⟩, ⟨1, 0⟩, ⟨0, 0⟩]

theorem scheduleIndependent_iff_pool :
    ScheduleIndependent context queryAb plain pool 2 ∧ ¬ ScheduleIndependent context queryAb plain pool 1 :=
  ⟨(scheduleIndependent_iff context queryAb plain pool 2).1 (.inl (by decide +kernel)),
    fun h => absurd (((scheduleIndependent_iff context queryAb plain pool 1).2 (by decide)).1 h) (by decide +kernel)⟩

end SearchWitness

/-- Two files match and one result is wanted: which one is returned depends on the order of the two threads. -/
theorem search_depends_on_schedule :
    search SearchWitness.context SearchWitness.queryAb SearchWitness.plain SearchWitness.pool 1 2 SearchWitness.inOrder =
        some [⟨0, 0, 2⟩] ∧
      search SearchWitness.context SearchWitness.queryAb SearchWitness.plain SearchWitness.pool 1 2 SearchWitness.outOfOrder =
        some [⟨1, 0, 2⟩] := by
  decide +kernel

end WinIndex
