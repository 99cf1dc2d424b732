import WinIndex.MainWindow
import WinIndex.Theorems.Search

/-!
# The result list belongs to the search bar

Every edit that leaves two characters or more sets the timer, and the search it starts is the last one to post its results.
An edit that leaves less clears the list, but lets a search go on that is running, and leaves what is posted in the queue: what
arrives then is shown under the short text. Without such edits the list belongs to the text whenever nothing is pending.
-/

namespace WinIndex

open Fanout Trace

variable {u : SearchSetup} {s : SearchWindow}

/-- The list shows the results of a search for a query that has been completed, in some order. -/
def ShowsResultsOf (u : SearchSetup) (query : WString) (shown : List DisplayEntry) : Prop :=
  ∃ turns results, u.completed query turns = some results ∧ shown.Perm results

/-- When nothing is pending, the list shows the results for the text if that has at least two characters, and nothing
otherwise. -/
def ListBelongs (u : SearchSetup) (s : SearchWindow) : Prop :=
  s.Quiescent → (2 ≤ s.text.length → ShowsResultsOf u s.text s.currentResults) ∧
    (s.text.length < 2 → s.currentResults = [])

/-- An edit that the handler takes as it is: the text fits its buffer, and if it leaves less than two characters, no search is
running and no results are in the queue. -/
def TakenWhole (s : SearchWindow) : SearchEvent → Prop
  | .edit text => text.length ≤ 1023 ∧ 0 ∉ text ∧ (text.length < 2 → s.running = none ∧ s.posted = [])
  | _ => True

instance decidableTakenWhole (s : SearchWindow) : (e : SearchEvent) → Decidable (TakenWhole s e)
  | .edit _ => inferInstanceAs (Decidable (_ ∧ _))
  | .timerExpires => .isTrue trivial
  | .timerMessage _ => .isTrue trivial
  | .searchEnds _ => .isTrue trivial
  | .resultsMessage => .isTrue trivial
  | .columnClick _ => .isTrue trivial

/-! ## What the handlers change -/

theorem windowText_eq {text : WString} (hlen : text.length ≤ 1023) (hzero : 0 ∉ text) : windowText text = text := by
  rw [windowText, List.take_of_length_le hlen, List.takeWhile_eq_self_iff]
  intro c hc
  have hne : c ≠ 0 := fun heq => hzero (heq ▸ hc)
  simpa using hne

/-- Sorting reorders the list and changes nothing else. -/
theorem applyCurrentSort_eq (s : SearchWindow) :
    ∃ shown, shown.Perm s.currentResults ∧ s.applyCurrentSort = { s with currentResults := shown } := by
  unfold SearchWindow.applyCurrentSort
  split
  · exact ⟨_, List.Perm.refl _, rfl⟩
  · split
    · exact ⟨_, List.Perm.refl _, rfl⟩
    · exact ⟨_, List.mergeSort_perm _ _, rfl⟩

/-- Results that arrive replace the list. -/
theorem onSearchResults_eq (s : SearchWindow) (results : List DisplayEntry) :
    ∃ shown status, shown.Perm results ∧
      s.onSearchResults results = { s with totalMatches := results.length, currentResults := shown, status := status } := by
  obtain ⟨shown, hperm, heq⟩ := applyCurrentSort_eq { s with totalMatches := results.length, currentResults := results }
  exact ⟨shown, _, hperm, by rw [SearchWindow.onSearchResults, heq]⟩

/-- A click on a column reorders the list. -/
theorem onColumnClick_eq (s : SearchWindow) (col : Nat) :
    ∃ shown desc, shown.Perm s.currentResults ∧
      s.onColumnClick col = { s with currentResults := shown, sortColumn := some col, sortDescending := desc } := by
  unfold SearchWindow.onColumnClick
  split
  · rename_i hcol
    obtain ⟨shown, hperm, heq⟩ := applyCurrentSort_eq { s with sortDescending := !s.sortDescending }
    exact ⟨shown, _, hperm, by rw [heq, ← hcol]⟩
  · obtain ⟨shown, hperm, heq⟩ := applyCurrentSort_eq { s with sortColumn := some col, sortDescending := col = 2 }
    exact ⟨shown, _, hperm, by rw [heq]⟩

/-- A search that is started is for the text of the bar. -/
theorem triggerSearch_eq (htext : windowText s.text = s.text) (hlen : 2 ≤ s.text.length) (turns : List Turn) :
    ∃ posted, s.triggerSearch u turns = { s with posted := posted, running := some s.text } := by
  rw [SearchWindow.triggerSearch, htext]
  simp only [if_pos hlen]
  unfold SearchWindow.executeSearch
  split
  · exact ⟨s.posted, rfl⟩
  · exact ⟨_, rfl⟩

theorem triggerSearch_of_short (htext : windowText s.text = s.text) (hlen : s.text.length < 2) (turns : List Turn) :
    s.triggerSearch u turns = s := by
  rw [SearchWindow.triggerSearch, htext]
  exact if_neg (Nat.not_le.2 hlen)

/-! ## The invariant -/

/-- The search begun last is for the text: it is running, or its results are the last in the queue, or the list shows them. -/
structure NewestForText (u : SearchSetup) (s : SearchWindow) : Prop where
  running : ∀ query, s.running = some query → query = s.text
  posted : s.running = none → ∀ results, s.posted.getLast? = some results → ∃ turns, u.completed s.text turns = some results
  shown : s.running = none → s.posted = [] → ShowsResultsOf u s.text s.currentResults

/-- What holds of the window all along. -/
structure WindowInv (u : SearchSetup) (s : SearchWindow) : Prop where
  whole : windowText s.text = s.text
  newest : 2 ≤ s.text.length → s.timer = true ∨ NewestForText u s
  idle : s.text.length < 2 → s.running = none ∧ s.posted = [] ∧ s.currentResults = []

theorem WindowInv.start (u : SearchSetup) : WindowInv u .start where
  whole := rfl
  newest h := absurd h (by decide)
  idle _ := ⟨rfl, rfl, rfl⟩

/-- With nothing pending the list belongs to the text. -/
theorem WindowInv.listBelongs (h : WindowInv u s) : ListBelongs u s := by
  rintro ⟨htimer, -, hrunning, hposted⟩
  refine ⟨fun hlen => ?_, fun hlen => (h.idle hlen).2.2⟩
  rcases h.newest hlen with hset | hnewest
  · rw [htimer] at hset
    cases hset
  · exact hnewest.shown hrunning hposted

/-- What a search is posted for is what it was started for. -/
theorem WindowInv.searchEnds (h : WindowInv u s) {query : WString} {turns : List Turn} {results : List DisplayEntry}
    (hrunning : s.running = some query) (hresults : u.completed query turns = some results) :
    WindowInv u { s with running := none, posted := s.posted ++ [results] } where
  whole := h.whole
  newest hlen := by
    refine (h.newest hlen).imp id (fun hnewest => ⟨fun q hq => (by cases hq), fun _ last hlast => ?_, fun _ hnil => ?_⟩)
    · rw [List.getLast?_concat, Option.some.injEq] at hlast
      rw [hnewest.running query hrunning, hlast] at hresults
      exact ⟨turns, hresults⟩
    · exact absurd hnil (by simp)
  idle hlen := by
    rw [(h.idle hlen).1] at hrunning
    cases hrunning

/-- The results that arrive last are those of the search begun last. -/
theorem WindowInv.resultsMessage (h : WindowInv u s) {results shown : List DisplayEntry} {posted : List (List DisplayEntry)}
    (hposted : s.posted = results :: posted) (hperm : shown.Perm results) (total : Nat) (status : Option SearchStatus) :
    WindowInv u { s with posted := posted, totalMatches := total, currentResults := shown, status := status } where
  whole := h.whole
  newest hlen := by
    refine (h.newest hlen).imp id (fun hnewest => ⟨hnewest.running, fun hrunning last hlast => ?_, fun hrunning hnil => ?_⟩)
    · refine hnewest.posted hrunning last ?_
      rw [hposted, List.getLast?_cons, show posted.getLast? = some last from hlast]
      rfl
    · obtain ⟨turns, hresults⟩ := hnewest.posted hrunning results (by
        rw [hposted, show posted = [] from hnil]
        rfl)
      exact ⟨turns, results, hresults, hperm⟩
  idle hlen := by
    rw [(h.idle hlen).2.1] at hposted
    cases hposted

/-- Every event keeps the invariant, if an edit is taken whole. -/
theorem WindowInv.step (h : WindowInv u s) {e : SearchEvent} (he : TakenWhole s e) : WindowInv u (s.step u e) := by
  cases e with
  | edit text =>
    obtain ⟨hlen, hzero, hshort⟩ := he
    have htext := windowText_eq hlen hzero
    show WindowInv u (s.onSearchChanged text)
    unfold SearchWindow.onSearchChanged
    simp only [htext]
    split
    · rename_i hlt
      exact ⟨htext, fun hge => absurd hlt (Nat.not_lt.2 hge), fun _ => ⟨(hshort hlt).1, (hshort hlt).2, rfl⟩⟩
    · rename_i hge
      exact ⟨htext, fun _ => .inl rfl, fun hlt => absurd hlt hge⟩
  | timerExpires =>
    show WindowInv u (if s.timer = true then { s with timerQueued := true } else s)
    split
    · exact ⟨h.whole, fun hlen => (h.newest hlen).imp id (fun hn => ⟨hn.running, hn.posted, hn.shown⟩), h.idle⟩
    · exact h
  | timerMessage turns =>
    show WindowInv u (if s.timerQueued = true then
      SearchWindow.triggerSearch u { s with timer := false, timerQueued := false } turns else s)
    split
    · by_cases hlen : 2 ≤ s.text.length
      · obtain ⟨posted, heq⟩ := triggerSearch_eq (u := u) (s := { s with timer := false, timerQueued := false }) h.whole hlen turns
        rw [heq]
        refine ⟨h.whole, fun _ => .inr ⟨fun q hq => (Option.some.inj hq).symm, ?_, ?_⟩, fun hlt => absurd hlen (Nat.not_le.2 hlt)⟩
        · exact fun hnone => (by cases hnone)
        · exact fun hnone => (by cases hnone)
      · have hlt := Nat.not_le.1 hlen
        rw [triggerSearch_of_short (u := u) (s := { s with timer := false, timerQueued := false }) h.whole hlt turns]
        exact ⟨h.whole, fun hge => absurd hge hlen, h.idle⟩
    · exact h
  | searchEnds turns =>
    simp only [SearchWindow.step]
    split
    · exact h
    · rename_i query hrunning
      split
      · exact h
      · rename_i results hresults
        exact h.searchEnds hrunning hresults
  | resultsMessage =>
    simp only [SearchWindow.step]
    split
    · exact h
    · rename_i results posted hposted
      obtain ⟨shown, status, hperm, heq⟩ := onSearchResults_eq { s with posted := posted } results
      rw [heq]
      exact h.resultsMessage hposted hperm _ _
  | columnClick col =>
    obtain ⟨shown, desc, hperm, heq⟩ := onColumnClick_eq s col
    show WindowInv u (s.onColumnClick col)
    rw [heq]
    refine ⟨h.whole, fun hlen => (h.newest hlen).imp id (fun hn => ⟨hn.running, hn.posted, fun hr hp => ?_⟩), fun hlen => ?_⟩
    · obtain ⟨turns, results, hresults, hshown⟩ := hn.shown hr hp
      exact ⟨turns, results, hresults, hperm.trans hshown⟩
    · obtain ⟨hrunning, hposted, hnil⟩ := h.idle hlen
      rw [hnil] at hperm
      exact ⟨hrunning, hposted, hperm.eq_nil⟩

/-- In every run in which each edit is taken whole, the list belongs to the text in every state with nothing pending. -/
theorem results_belong_to_text (u : SearchSetup) (es : List SearchEvent)
    (h : Meets TakenWhole (SearchWindow.step u) .start es) : Along (ListBelongs u) (SearchWindow.step u) .start es := by
  refine Along.imp ?_ (fun s hs => WindowInv.listBelongs hs)
  exact along_of_step (fun s e hs he => WindowInv.step hs he) (WindowInv.start u) h

namespace SearchBarWitness

/-- Two files that match `ab`, and a thread for each. -/
def setup : SearchSetup := ⟨SearchWitness.context, SearchWitness.plain, SearchWitness.pool, 2⟩

/-- The turns that bring both threads to their ends. -/
def turns : List Turn := [⟨0, 0⟩, ⟨0, 0⟩, ⟨0, 0⟩, ⟨1, 0⟩, ⟨1, 0⟩, ⟨1, 0⟩]

/-- The user types `ab` and waits. -/
def typed : List SearchEvent :=
  [.edit SearchWitness.queryAb, .timerExpires, .timerMessage [], .searchEnds turns, .resultsMessage]

/-- The user types `ab` and clears the bar while the search is running. -/
def cleared : List SearchEvent :=
  [.edit SearchWitness.queryAb, .timerExpires, .timerMessage [], .edit [], .searchEnds turns, .resultsMessage]

theorem results_belong_to_text_typed : Along (ListBelongs setup) (SearchWindow.step setup) .start typed :=
  results_belong_to_text setup typed (by decide +kernel)

end SearchBarWitness

/-- The bar is cleared while a search is running: when nothing is pending any more, its two results stand under the empty
text. -/
theorem cleared_bar_shows_results :
    (final (SearchWindow.step SearchBarWitness.setup) .start SearchBarWitness.cleared).Quiescent ∧
      (final (SearchWindow.step SearchBarWitness.setup) .start SearchBarWitness.cleared).text = [] ∧
      (final (SearchWindow.step SearchBarWitness.setup) .start SearchBarWitness.cleared).currentResults.length = 2 ∧
      ¬Along (ListBelongs SearchBarWitness.setup) (SearchWindow.step SearchBarWitness.setup) .start
        SearchBarWitness.cleared := by
  have hquiet : (final (SearchWindow.step SearchBarWitness.setup) .start SearchBarWitness.cleared).Quiescent := by
    decide +kernel
  have htext : (final (SearchWindow.step SearchBarWitness.setup) .start SearchBarWitness.cleared).text = [] := by
    decide +kernel
  have htwo : (final (SearchWindow.step SearchBarWitness.setup) .start SearchBarWitness.cleared).currentResults.length = 2 := by
    decide +kernel
  refine ⟨hquiet, htext, htwo, fun h => ?_⟩
  rw [(h.final hquiet).2 (by rw [htext]; decide)] at htwo
  cases htwo

end WinIndex
