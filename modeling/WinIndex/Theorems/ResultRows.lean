import WinIndex.ResultList
import WinIndex.Theorems.Search
import WinIndex.Theorems.SearchBar

/-!
# Where the rows come from

Whatever the user types, sorts and switches, and whatever happens to the index meanwhile, every row of the result list is a live
entry that matched the text of the search bar, with the options and the index as they were at one earlier moment; the list is
in the order that the header of its column shows; and the list view has no item that is not a row.
-/

namespace WinIndex

open Fanout Trace

variable {M : Machine} {Γ : Locale} {s : ResultWindow}

/-! ## The rows of one search -/

/-- A row shows a live entry of a pool that the test accepts for a query. -/
def IsRow (ctx : SearchContext) (query : WString) (options : SearchOptions) (p : IndexPool) (row : DisplayEntry) : Prop :=
  ∃ i m pos len, p.entryMeta[i]? = some m ∧ m.deleted = false ∧ entryTest ctx query options p m = some (pos, len) ∧
    row = displayEntry p m ⟨UInt32.ofNat i, UInt32.ofNat pos, UInt32.ofNat len⟩

/-- What is displayed of results that the sequential filter has is rows. -/
theorem isRow_of_sublist {ctx : SearchContext} {query : WString} {options : SearchOptions} {p : IndexPool}
    (hN : p.entryMeta.length < 2 ^ 32) {raw : List SearchResult} (h : raw.Sublist (acceptedEntries ctx query options p))
    {row : DisplayEntry} (hrow : row ∈ display p raw) : IsRow ctx query options p row := by
  obtain ⟨r, hr, hdisplay⟩ := List.mem_filterMap.1 hrow
  obtain ⟨m, hm, rfl⟩ := Option.map_eq_some_iff.1 hdisplay
  obtain ⟨i, -, htest⟩ := List.mem_filterMap.1 (h.subset hr)
  obtain ⟨hi, m', pos, len, hm', hlive, hentry, hstart, hlen⟩ := searchTest_eq_some hN htest
  rw [hm, Option.some.injEq] at hm'
  subst hm'
  refine ⟨i, m, pos, len, by rw [← hi]; exact hm, hlive, hentry, ?_⟩
  rw [← hi, UInt32.ofNat_toNat, ← hstart, ← hlen]

theorem length_display_le (p : IndexPool) (raw : List SearchResult) : (display p raw).length ≤ raw.length :=
  List.length_filterMap_le _ _

/-- A search that has come to its end lists rows, as many as the cap at most. -/
theorem SearchSetup.completed_rows {u : SearchSetup} (hN : u.pool.entryMeta.length < 2 ^ 32) {query : WString}
    {turns : List Turn} {rows : List DisplayEntry} (h : u.completed query turns = some rows) :
    rows.length ≤ searchCap.toNat ∧ ∀ row ∈ rows, IsRow u.ctx query u.options u.pool row := by
  obtain ⟨raw, hsearch, rfl⟩ := Option.map_eq_some_iff.1 h
  by_cases hq : 2 ≤ query.length
  · obtain ⟨hsub, hlen⟩ := search_sublist hq hsearch
    refine ⟨(length_display_le _ _).trans ?_, fun row hrow => isRow_of_sublist hN hsub hrow⟩
    rw [hlen]
    exact Nat.min_le_left _ _
  · rw [search, if_pos (Nat.lt_of_not_le hq), Option.some.injEq] at hsearch
    rw [← hsearch]
    exact ⟨Nat.zero_le _, fun row hrow => absurd hrow List.not_mem_nil⟩

/-- So does a search that is cancelled. -/
theorem SearchSetup.cancelled_rows {u : SearchSetup} (hN : u.pool.entryMeta.length < 2 ^ 32) (query : WString)
    (turns : List Turn) :
    (u.cancelled query turns).length ≤ searchCap.toNat ∧
      ∀ row ∈ u.cancelled query turns, IsRow u.ctx query u.options u.pool row := by
  simp only [SearchSetup.cancelled]
  split
  · exact ⟨Nat.zero_le _, fun row hrow => absurd hrow List.not_mem_nil⟩
  · have hvalid := valid_threadsAfter (searchTest u.ctx query u.options u.pool) u.pool.entryMeta.length searchCap.toNat
      (numThreads u.hardwareConcurrency) turns
    have hsub := hvalid.found_sublist
    rw [flatten_ceilChunks _ (numThreads_pos u.hardwareConcurrency)] at hsub
    rw [mergeResults_eq_take]
    refine ⟨(length_display_le _ _).trans ?_, fun row hrow => isRow_of_sublist hN ((List.take_sublist _ _).trans hsub) hrow⟩
    rw [List.length_take]
    exact Nat.min_le_left _ _

/-! ## The rows of a run -/

/-- A text, options and a pool that a search may have been started with. -/
abbrev SearchMoment := WString → SearchOptions → IndexPool → Prop

/-- The rows are of searches at some of the moments, and not too many. -/
structure RowsOf (M : Machine) (P : SearchMoment) (rows : List DisplayEntry) : Prop where
  length : rows.length ≤ searchCap.toNat
  row : ∀ row ∈ rows, ∃ query options p, P query options p ∧ IsRow M.ctx query options p row

/-- All rows that are in the list or on their way there are of searches at some of the moments; so is the search that runs. -/
structure ResultWindow.From (M : Machine) (P : SearchMoment) (s : ResultWindow) : Prop where
  shown : RowsOf M P s.window.currentResults
  posted : ∀ rows ∈ s.window.posted, RowsOf M P rows
  running : ∀ query, s.window.running = some query → P query s.captured s.pool
  small : s.pool.entryMeta.length < 2 ^ 32

/-- The moment that a state is, if a search is started there. -/
def ResultWindow.IsMoment (P : SearchMoment) (s : ResultWindow) : Prop :=
  P (windowText s.window.text) s.options s.pool ∧ s.pool.entryMeta.length < 2 ^ 32

variable {P : SearchMoment}

theorem RowsOf.perm {rows rows' : List DisplayEntry} (h : RowsOf M P rows) (hperm : rows'.Perm rows) : RowsOf M P rows' :=
  ⟨by rw [hperm.length_eq]; exact h.length, fun row hrow => h.row row (hperm.subset hrow)⟩

theorem RowsOf.nil : RowsOf M P [] := ⟨Nat.zero_le _, fun _ hrow => absurd hrow List.not_mem_nil⟩

/-- What the running search posts when it is cancelled. -/
theorem ResultWindow.From.cancelled (h : s.From M P) {query : WString} (hrunning : s.window.running = some query)
    (turns : List Turn) : RowsOf M P ((s.setup M).cancelled query turns) := by
  obtain ⟨hlen, hrows⟩ := SearchSetup.cancelled_rows (u := s.setup M) h.small query turns
  exact ⟨hlen, fun row hrow => ⟨query, s.captured, s.pool, h.running query hrunning, hrows row hrow⟩⟩

/-- A search is started at the moment that it leaves. -/
theorem ResultWindow.From.triggerSearch (h : s.From M P) (turns : List Turn) (ops : List PoolOp)
    (hmoment : (s.triggerSearch M Γ turns ops).IsMoment P) : (s.triggerSearch M Γ turns ops).From M P := by
  by_cases hlen : 2 ≤ (windowText s.window.text).length
  · simp only [ResultWindow.triggerSearch, if_pos hlen, SearchWindow.triggerSearch, SearchWindow.executeSearch] at hmoment ⊢
    cases hrunning : s.window.running with
    | none =>
      simp only [hrunning] at hmoment ⊢
      refine ⟨h.shown, h.posted, fun query hquery => ?_, hmoment.2⟩
      cases hquery
      exact hmoment.1
    | some old =>
      simp only [hrunning] at hmoment ⊢
      refine ⟨h.shown, fun rows hrows => ?_, fun query hquery => ?_, hmoment.2⟩
      · rcases List.mem_append.1 hrows with hrows | hrows
        · exact h.posted rows hrows
        · rw [List.mem_singleton.1 hrows]
          exact h.cancelled hrunning turns
      · cases hquery
        exact hmoment.1
  · simp only [ResultWindow.triggerSearch, if_neg hlen, SearchWindow.triggerSearch]
    exact h

/-- One event, in a state that is then one of the moments. -/
theorem ResultWindow.From.step (h : s.From M P) (e : ResultEvent) (hmoment : (s.step M Γ e).IsMoment P) :
    (s.step M Γ e).From M P := by
  cases e with
  | edit text =>
    simp only [ResultWindow.step, SearchWindow.onSearchChanged]
    split
    · exact ⟨RowsOf.nil, h.posted, h.running, h.small⟩
    · exact ⟨h.shown, h.posted, h.running, h.small⟩
  | timerExpires =>
    simp only [ResultWindow.step, SearchWindow.step]
    split <;> exact ⟨h.shown, h.posted, h.running, h.small⟩
  | timerMessage turns ops =>
    simp only [ResultWindow.step] at hmoment ⊢
    split
    · rename_i hqueued
      rw [if_pos hqueued] at hmoment
      exact ResultWindow.From.triggerSearch (s := { s with window := { s.window with timer := false, timerQueued := false } })
        ⟨h.shown, h.posted, h.running, h.small⟩ turns ops hmoment
    · exact h
  | searchEnds turns =>
    simp only [ResultWindow.step, SearchWindow.step]
    split
    · exact h
    · rename_i query hrunning
      split
      · exact h
      · rename_i rows hrows
        obtain ⟨hlen, hrow⟩ := SearchSetup.completed_rows (u := s.setup M) h.small hrows
        refine ⟨h.shown, fun rows' hrows' => ?_, fun query hquery => (by cases hquery), h.small⟩
        rcases List.mem_append.1 hrows' with hrows' | hrows'
        · exact h.posted rows' hrows'
        · rw [List.mem_singleton.1 hrows']
          exact ⟨hlen, fun row hmem => ⟨query, s.captured, s.pool, h.running query hrunning, hrow row hmem⟩⟩
  | resultsMessage =>
    simp only [ResultWindow.step]
    split
    · exact h
    · rename_i rows posted hposted
      obtain ⟨shown, status, hperm, heq⟩ := onSearchResults_eq { s.window with posted := posted } rows
      rw [heq]
      have hrows : RowsOf M P rows := h.posted rows (by rw [hposted]; exact List.mem_cons_self)
      exact ⟨hrows.perm hperm, fun rows' hrows' => h.posted rows' (by rw [hposted]; exact List.mem_cons_of_mem _ hrows'),
        h.running, h.small⟩
  | columnClick col =>
    obtain ⟨shown, desc, hperm, heq⟩ := onColumnClick_eq s.window col
    simp only [ResultWindow.step, heq]
    exact ⟨h.shown.perm hperm, h.posted, h.running, h.small⟩
  | toggle item turns ops =>
    exact ResultWindow.From.triggerSearch (s := { s with options := item.flip s.options })
      ⟨h.shown, h.posted, h.running, h.small⟩ turns ops hmoment
  | status hasIndex => exact ⟨h.shown, h.posted, h.running, h.small⟩
  | mutate op =>
    simp only [ResultWindow.step] at hmoment ⊢
    split
    · rename_i hnone
      rw [if_pos hnone] at hmoment
      exact ⟨h.shown, h.posted, fun query hquery => (by rw [hnone] at hquery; cases hquery), hmoment.2⟩
    · exact h

/-! ## The order of the rows -/

theorem threeWay_eq_lt_iff {α : Type} [LT α] [DecidableLT α] (a b : α) : threeWay a b = .lt ↔ a < b := by
  unfold threeWay
  split
  · simp [*]
  · split <;> simp [*]

section Keys

variable {α : Type} [LE α] [LT α] [DecidableLT α] [Std.IsLinearOrder α] [Std.LawfulOrderLT α]

theorem threeWay_eq_gt_iff (a b : α) : threeWay a b = .gt ↔ b < a := by
  unfold threeWay
  split
  · rename_i h
    have hle : a ≤ b := Std.le_of_lt h
    simp [Std.not_lt.2 hle]
  · split <;> simp [*]

/-- The order by one field of the rows, ascending or descending. -/
def keyBefore (key : DisplayEntry → α) (desc : Bool) (a b : DisplayEntry) : Bool :=
  if desc then threeWay (key a) (key b) = .gt else threeWay (key a) (key b) = .lt

theorem not_keyBefore_iff (key : DisplayEntry → α) (desc : Bool) (a b : DisplayEntry) :
    (!keyBefore key desc b a) = true ↔ if desc then key b ≤ key a else key a ≤ key b := by
  unfold keyBefore
  cases desc
  · simp only [Bool.false_eq_true, if_false, Bool.not_eq_true', decide_eq_false_iff_not, threeWay_eq_lt_iff]
    exact Std.not_lt
  · simp only [if_true, Bool.not_eq_true', decide_eq_false_iff_not, threeWay_eq_gt_iff]
    exact Std.not_lt

theorem not_keyBefore_trans (key : DisplayEntry → α) (desc : Bool) (a b c : DisplayEntry)
    (hab : (!keyBefore key desc b a) = true) (hbc : (!keyBefore key desc c b) = true) : (!keyBefore key desc c a) = true := by
  rw [not_keyBefore_iff] at hab hbc ⊢
  cases desc
  · exact Std.le_trans hab hbc
  · exact Std.le_trans hbc hab

theorem not_keyBefore_total (key : DisplayEntry → α) (desc : Bool) (a b : DisplayEntry) :
    ((!keyBefore key desc b a) || !keyBefore key desc a b) = true := by
  rw [Bool.or_eq_true, not_keyBefore_iff, not_keyBefore_iff]
  cases desc
  · exact Std.le_total
  · exact Std.le_total

end Keys

/-- The order of every column is one that `std::sort` may be given: what does not stand before is a total preorder. -/
theorem not_sortsBefore_trans (col : Nat) (desc : Bool) (a b c : DisplayEntry) (hab : (!sortsBefore col desc b a) = true)
    (hbc : (!sortsBefore col desc c b) = true) : (!sortsBefore col desc c a) = true := by
  match col with
  | 0 => exact not_keyBefore_trans DisplayEntry.name desc a b c hab hbc
  | 1 => exact not_keyBefore_trans DisplayEntry.path desc a b c hab hbc
  | 2 => exact not_keyBefore_trans DisplayEntry.size desc a b c hab hbc
  | 3 => exact not_keyBefore_trans DisplayEntry.lastModified desc a b c hab hbc
  | col + 4 => cases desc <;> rfl

theorem not_sortsBefore_total (col : Nat) (desc : Bool) (a b : DisplayEntry) :
    ((!sortsBefore col desc b a) || !sortsBefore col desc a b) = true := by
  match col with
  | 0 => exact not_keyBefore_total DisplayEntry.name desc a b
  | 1 => exact not_keyBefore_total DisplayEntry.path desc a b
  | 2 => exact not_keyBefore_total DisplayEntry.size desc a b
  | 3 => exact not_keyBefore_total DisplayEntry.lastModified desc a b
  | col + 4 => cases desc <;> rfl

/-- The rows are in the order of the column that was clicked, if any. -/
def SearchWindow.InOrder (w : SearchWindow) : Prop :=
  ∀ col, w.sortColumn = some col →
    w.currentResults.Pairwise (fun a b => sortsBefore col w.sortDescending b a = false)

/-- Sorting puts the rows in order, whatever they were in before. -/
theorem SearchWindow.inOrder_applyCurrentSort (w : SearchWindow) : w.applyCurrentSort.InOrder := by
  unfold applyCurrentSort
  split
  · rename_i hcol
    intro col h
    rw [hcol] at h
    cases h
  · rename_i col hcol
    split
    · rename_i hnil
      intro _ _
      rw [hnil]
      exact List.Pairwise.nil
    · intro col' hcol'
      have hcol' : w.sortColumn = some col' := hcol'
      rw [hcol, Option.some.injEq] at hcol'
      subst hcol'
      exact (List.pairwise_mergeSort (not_sortsBefore_trans col w.sortDescending) (not_sortsBefore_total col w.sortDescending)
        w.currentResults).imp (fun h => by simpa using h)

/-- What holds of the list view besides: its items are the rows, or it has none, and the rows are in order. -/
structure ResultWindow.Listed (s : ResultWindow) : Prop where
  items : s.itemCount = 0 ∨ s.itemCount = s.window.currentResults.length
  order : s.window.InOrder

theorem ResultWindow.Listed.triggerSearch (h : s.Listed) (turns : List Turn) (ops : List PoolOp) :
    (s.triggerSearch M Γ turns ops).Listed := by
  have hsame : (s.triggerSearch M Γ turns ops).itemCount = s.itemCount ∧
      (s.triggerSearch M Γ turns ops).window.currentResults = s.window.currentResults ∧
      (s.triggerSearch M Γ turns ops).window.sortColumn = s.window.sortColumn ∧
      (s.triggerSearch M Γ turns ops).window.sortDescending = s.window.sortDescending := by
    simp only [ResultWindow.triggerSearch, SearchWindow.triggerSearch, SearchWindow.executeSearch]
    split
    · cases s.window.running <;> exact ⟨rfl, rfl, rfl, rfl⟩
    · exact ⟨rfl, rfl, rfl, rfl⟩
  obtain ⟨hitems, hrows, hcol, hdesc⟩ := hsame
  refine ⟨by rw [hitems, hrows]; exact h.items, ?_⟩
  rw [SearchWindow.InOrder, hrows, hcol, hdesc]
  exact h.order

theorem ResultWindow.Listed.step (h : s.Listed) (e : ResultEvent) : (s.step M Γ e).Listed := by
  cases e with
  | edit text =>
    simp only [ResultWindow.step, SearchWindow.onSearchChanged]
    split
    · exact ⟨.inl rfl, fun _ _ => List.Pairwise.nil⟩
    · exact ⟨h.items, h.order⟩
  | timerExpires =>
    simp only [ResultWindow.step, SearchWindow.step]
    split <;> exact ⟨h.items, h.order⟩
  | timerMessage turns ops =>
    simp only [ResultWindow.step]
    split
    · exact ResultWindow.Listed.triggerSearch (s := { s with window := { s.window with timer := false, timerQueued := false } })
        ⟨h.items, h.order⟩ turns ops
    · exact h
  | searchEnds turns =>
    simp only [ResultWindow.step, SearchWindow.step]
    split
    · exact h
    · split
      · exact h
      · exact ⟨h.items, h.order⟩
  | resultsMessage =>
    simp only [ResultWindow.step]
    split
    · exact h
    · exact ⟨.inr rfl, SearchWindow.inOrder_applyCurrentSort _⟩
  | columnClick col =>
    refine ⟨.inr rfl, ?_⟩
    simp only [ResultWindow.step, SearchWindow.onColumnClick]
    split <;> exact SearchWindow.inOrder_applyCurrentSort _
  | toggle item turns ops =>
    exact ResultWindow.Listed.triggerSearch (s := { s with options := item.flip s.options }) ⟨h.items, h.order⟩ turns ops
  | status hasIndex =>
    refine ⟨?_, h.order⟩
    cases hasIndex
    · exact .inl rfl
    · exact h.items
  | mutate op =>
    simp only [ResultWindow.step]
    split <;> exact ⟨h.items, h.order⟩

theorem ResultWindow.listed_start (options : SearchOptions) (pool : IndexPool) : (ResultWindow.start options pool).Listed :=
  ⟨.inl rfl, fun _ _ => List.Pairwise.nil⟩

/-! ## Any run -/

/-- The selected items, if they are items of the list view. -/
theorem selectedRows_eq {rows : List DisplayEntry} {selection : List Nat} (h : ∀ i ∈ selection, i < rows.length) :
    (selectedRows rows selection).map some = selection.map (rows[·]?) := by
  induction selection with
  | nil => rfl
  | cons i selection ih =>
    obtain ⟨hi, hrest⟩ := List.forall_mem_cons.1 h
    rw [selectedRows, List.getElem?_eq_getElem hi, List.map_cons, List.map_cons, ih hrest, List.getElem?_eq_getElem hi]

/-- In every state of every run (of pools below 2 ^ 32 entries), each row of the list is a live entry that matched the text of
the search bar in one state of the run, with the options and the pool of that state. The rows are 10,000 at most, in the order
of the column that was clicked. The list view has an item for each, or none; so whatever of its items is selected, a command on
the selection goes through all of them. -/
theorem rows_come_from_searches (M : Machine) (Γ : Locale) (options : SearchOptions) (pool : IndexPool)
    (es : List ResultEvent)
    (hsmall : Along (fun s => s.pool.entryMeta.length < 2 ^ 32) (ResultWindow.step M Γ) (.start options pool) es) :
    let s := final (ResultWindow.step M Γ) (.start options pool) es
    (∀ row ∈ s.window.currentResults, ∃ k, let s' := final (ResultWindow.step M Γ) (.start options pool) (es.take k)
      IsRow M.ctx (windowText s'.window.text) s'.options s'.pool row) ∧
    s.window.currentResults.length ≤ 10000 ∧ s.window.InOrder ∧
    ∀ selection : List Nat, (∀ i ∈ selection, i < s.itemCount) →
      (selectedRows s.window.currentResults selection).map some = selection.map (s.window.currentResults[·]?) := by
  intro s
  let P : SearchMoment := fun query options' p =>
    ∃ k, let s' := final (ResultWindow.step M Γ) (.start options pool) (es.take k)
      windowText s'.window.text = query ∧ s'.options = options' ∧ s'.pool = p
  have hfrom : ∀ n, (final (ResultWindow.step M Γ) (.start options pool) (es.take n)).From M P := by
    intro n
    induction n with
    | zero =>
      exact ⟨RowsOf.nil, fun rows hrows => absurd hrows List.not_mem_nil, fun query hquery => (by cases hquery), hsmall 0⟩
    | succ n ih =>
      cases he : es[n]? with
      | none =>
        rw [List.take_of_length_le (Nat.le_succ_of_le (List.getElem?_eq_none_iff.1 he)),
          ← List.take_of_length_le (List.getElem?_eq_none_iff.1 he)]
        exact ih
      | some e =>
        have hsnoc : es.take (n + 1) = es.take n ++ [e] := by rw [List.take_add_one, he]; rfl
        have hmoment : (final (ResultWindow.step M Γ) (.start options pool) (es.take (n + 1))).IsMoment P :=
          ⟨⟨n + 1, rfl, rfl, rfl⟩, hsmall (n + 1)⟩
        rw [hsnoc, final_append] at hmoment ⊢
        exact ih.step e hmoment
  have hlisted : Along ResultWindow.Listed (ResultWindow.step M Γ) (.start options pool) es :=
    along_of_step (fun _ e h _ => h.step e) (ResultWindow.listed_start options pool) (meets_trivial _ _ es)
  have hlast := hfrom es.length
  rw [List.take_length] at hlast
  refine ⟨fun row hrow => ?_, hlast.shown.length, hlisted.final.order, fun selection hselection => selectedRows_eq ?_⟩
  · obtain ⟨query, options', p, ⟨k, rfl, rfl, rfl⟩, hisRow⟩ := hlast.shown.row row hrow
    exact ⟨k, hisRow⟩
  · intro i hi
    have hlt := hselection i hi
    have hitems : s.itemCount = 0 ∨ s.itemCount = s.window.currentResults.length := hlisted.final.items
    omega

namespace ResultWitness

open SearchWitness

/-- `ab` is typed and found; then case matters, a file is added, the rows are sorted by path and an index is built. -/
def events : List ResultEvent :=
  [.edit queryAb, .timerExpires, .timerMessage [] [], .searchEnds (List.replicate 8 ⟨0, 0⟩), .resultsMessage,
    .toggle .caseSensitive [] [.applyAdd (file pathAb)], .columnClick 1, .status false]

/-- One thread and no vector instructions. -/
def machine : Machine := ⟨context, 1⟩

/-- There are two entries, and then three. -/
theorem events_small :
    Along (fun s => s.pool.entryMeta.length < 2 ^ 32) (ResultWindow.step machine .c) (.start plain pool) events := by
  decide +kernel

theorem rows_come_from_searches_events :
    let s := final (ResultWindow.step machine .c) (.start plain pool) events
    (∀ row ∈ s.window.currentResults, ∃ k, let s' := final (ResultWindow.step machine .c) (.start plain pool) (events.take k)
      IsRow machine.ctx (windowText s'.window.text) s'.options s'.pool row) ∧
    s.window.currentResults.length ≤ 10000 ∧ s.window.InOrder ∧
    ∀ selection : List Nat, (∀ i ∈ selection, i < s.itemCount) →
      (selectedRows s.window.currentResults selection).map some = selection.map (s.window.currentResults[·]?) :=
  rows_come_from_searches machine .c plain pool events events_small

end ResultWitness

end WinIndex
