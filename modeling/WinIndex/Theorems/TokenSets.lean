import WinIndex.Lib.Runs
import WinIndex.TokenMatcher

/-!
# Token-set matching is set inclusion

`TokenizeView` returns the maximal runs between separators, in order, and `AllQueryTokensPresent` on the sorted tokens of a
query and a file name says whether every token of the query is one of the name's. Only the two sets of tokens count: not their
order, not how often they occur, and not what stands between them.
-/

namespace WinIndex

open Runs Segments TokenMatcher

/-- What `AllQueryTokensPresent` answers for a query and a file name. -/
def tokensMatch (query name : WString) : Bool :=
  allQueryTokensPresent (sortTokens (tokenizeView query)) (sortTokens (tokenizeView name))

/-! ## The loop of the tokenizer -/

/-- What the tokens so far are, for the runs a scan has passed. -/
def tokensOf (s : WString) (spans : List (Nat × Nat)) : List WString := spans.map (fun a => slice s a.1 (a.2 - a.1))

/-- One pass of the loop is one step of the scan. -/
theorem tokenizeStep_spec {s : WString} {n start : Nat} {spans : List (Nat × Nat)}
    (h : RunsBefore isTokenSep s n spans start) (hn : n ≤ s.length) :
    ∃ spans' start', RunsBefore isTokenSep s (n + 1) spans' start' ∧
      tokenizeStep s (tokensOf s spans, start) n = (tokensOf s spans', start') ∧ (n = s.length → start' = n + 1) := by
  unfold tokenizeStep
  by_cases hbreak : n = s.length ∨ (s[n]?).any isTokenSep = true
  · rw [if_pos hbreak]
    refine ⟨_, _, h.push hn hbreak, ?_, fun _ => rfl⟩
    by_cases hlt : start < n
    · simp only [if_pos hlt, tokensOf, List.map_append, List.map_singleton]
    · simp only [if_neg hlt]
  · rw [if_neg hbreak]
    rw [not_or] at hbreak
    exact ⟨spans, start, h.pass (Nat.lt_of_le_of_ne hn hbreak.1) hbreak.2, rfl, fun heq => absurd heq hbreak.1⟩

/-- What the loop has when it gets to a position. -/
theorem tokenize_loop (s : WString) (n : Nat) (hn : n ≤ s.length + 1) :
    ∃ spans start, RunsBefore isTokenSep s n spans start ∧
      (List.range n).foldl (tokenizeStep s) ([], 0) = (tokensOf s spans, start) ∧ (n = s.length + 1 → start = n) := by
  induction n with
  | zero => exact ⟨[], 0, .zero isTokenSep s, rfl, fun _ => rfl⟩
  | succ n ih =>
    obtain ⟨spans, start, h, hloop, -⟩ := ih (by omega)
    obtain ⟨spans', start', h', hstep, hend⟩ := tokenizeStep_spec h (by omega)
    refine ⟨spans', start', h', ?_, fun hlast => hend (by omega)⟩
    rw [List.range_succ, List.foldl_append, hloop]
    exact hstep

/-- `TokenizeView` lists the maximal runs of its text, all of them and in order. -/
theorem tokenizeView_spec (s : WString) :
    ∃ spans : List (Nat × Nat), spans.Pairwise (fun a b => a.2 < b.1) ∧
      (∀ i j, (i, j) ∈ spans ↔ IsRun isTokenSep s i j) ∧ tokenizeView s = tokensOf s spans ∧
      tokensOf s spans = runs isTokenSep s := by
  obtain ⟨spans, start, h, hloop, hend⟩ := tokenize_loop s (s.length + 1) (Nat.le_refl _)
  rw [hend rfl] at h
  obtain ⟨hordered, hmem, hslices⟩ := h.complete
  refine ⟨spans, hordered, hmem, ?_, hslices⟩
  rw [tokenizeView, hloop]

theorem tokenizeView_eq_runs (s : WString) : tokenizeView s = runs isTokenSep s := by
  obtain ⟨spans, -, -, htokens, hruns⟩ := tokenizeView_spec s
  rw [htokens, hruns]

/-! ## Sorting and searching -/

theorem mem_sortTokens {tokens : List WString} {t : WString} : t ∈ sortTokens tokens ↔ t ∈ tokens :=
  (List.mergeSort_perm tokens _).mem_iff

/-- What `std::binary_search` is given is sorted. -/
theorem sorted_sortTokens (tokens : List WString) : (sortTokens tokens).Pairwise (fun a b => a ≤ b) := by
  have htrans : ∀ a b c : WString, decide (a ≤ b) = true → decide (b ≤ c) = true → decide (a ≤ c) = true := by
    intro a b c hab hbc
    exact decide_eq_true (List.le_trans (of_decide_eq_true hab) (of_decide_eq_true hbc))
  have htotal : ∀ a b : WString, (decide (a ≤ b) || decide (b ≤ a)) = true := by
    intro a b
    rw [Bool.or_eq_true, decide_eq_true_iff, decide_eq_true_iff]
    exact List.le_total a b
  exact (List.pairwise_mergeSort htrans htotal tokens).imp (fun hab => of_decide_eq_true hab)

/-- Equivalent tokens are equal. -/
theorem binarySearch_iff {sorted : List WString} {token : WString} : binarySearch sorted token = true ↔ token ∈ sorted := by
  rw [binarySearch, List.any_eq_true]
  constructor
  · rintro ⟨t, ht, heq⟩
    rw [Bool.and_eq_true, Bool.not_eq_true', Bool.not_eq_true', decide_eq_false_iff_not, decide_eq_false_iff_not,
      List.not_lt, List.not_lt] at heq
    rwa [List.le_antisymm heq.1 heq.2]
  · intro h
    exact ⟨token, h, by simp [List.lt_irrefl]⟩

/-- Every token of the query, and there is one, is a token of the name. -/
theorem tokensMatch_iff (query name : WString) :
    tokensMatch query name = true ↔ tokenizeView query ≠ [] ∧ ∀ t ∈ tokenizeView query, t ∈ tokenizeView name := by
  have hnil : sortTokens (tokenizeView query) = [] ↔ tokenizeView query = [] := by
    simp only [List.eq_nil_iff_forall_not_mem, mem_sortTokens]
  rw [tokensMatch, allQueryTokensPresent]
  by_cases hempty : tokenizeView query = []
  · rw [if_pos (hnil.2 hempty)]
    simp [hempty]
  · rw [if_neg (mt hnil.1 hempty), List.all_eq_true]
    simp only [mem_sortTokens, binarySearch_iff]
    exact ⟨fun h => ⟨hempty, h⟩, fun h => h.2⟩

/-- Equal sets of tokens give equal answers. -/
theorem tokensMatch_congr {query query' name name' : WString}
    (hq : ∀ t, t ∈ tokenizeView query ↔ t ∈ tokenizeView query') (hn : ∀ t, t ∈ tokenizeView name ↔ t ∈ tokenizeView name') :
    tokensMatch query name = tokensMatch query' name' := by
  rw [Bool.eq_iff_iff, tokensMatch_iff, tokensMatch_iff]
  refine and_congr (not_congr ?_) (forall_congr' (fun t => ?_))
  · simp only [List.eq_nil_iff_forall_not_mem, hq]
  · rw [hq t, hn t]

/-! ## The answer depends on the two sets alone -/

/-- `TokenizeView` returns exactly the maximal runs between separators in order, `AllQueryTokensPresent` on sorted tokens says
whether the query has a token and all of them are the name's, and so its answer stays when tokens are permuted or repeated and
when separators are replaced or repeated, in the query and in the name. -/
theorem tokenSets_included :
    (∀ s, ∃ spans : List (Nat × Nat), spans.Pairwise (fun a b => a.2 < b.1) ∧
      (∀ i j, (i, j) ∈ spans ↔ IsRun isTokenSep s i j) ∧ tokenizeView s = spans.map (fun a => slice s a.1 (a.2 - a.1))) ∧
    (∀ s, (sortTokens (tokenizeView s)).Perm (tokenizeView s) ∧
      (sortTokens (tokenizeView s)).Pairwise (fun a b => a ≤ b)) ∧
    (∀ q f, allQueryTokensPresent (sortTokens (tokenizeView q)) (sortTokens (tokenizeView f)) = true ↔
      tokenizeView q ≠ [] ∧ ∀ t ∈ tokenizeView q, t ∈ tokenizeView f) ∧
    ∀ qs qs' fs fs' q q' f f', (∀ t, t ∈ qs ↔ t ∈ qs') → (∀ t, t ∈ fs ↔ t ∈ fs') →
      Renders isTokenSep qs q → Renders isTokenSep qs' q' → Renders isTokenSep fs f → Renders isTokenSep fs' f' →
      allQueryTokensPresent (sortTokens (tokenizeView q)) (sortTokens (tokenizeView f)) =
        allQueryTokensPresent (sortTokens (tokenizeView q')) (sortTokens (tokenizeView f')) := by
  refine ⟨fun s => ?_, fun s => ⟨List.mergeSort_perm _ _, sorted_sortTokens _⟩, tokensMatch_iff, ?_⟩
  · obtain ⟨spans, hordered, hmem, htokens, -⟩ := tokenizeView_spec s
    exact ⟨spans, hordered, hmem, htokens⟩
  · intro qs qs' fs fs' q q' f f' hqs hfs hq hq' hf hf'
    apply tokensMatch_congr
    · intro t
      rw [tokenizeView_eq_runs, tokenizeView_eq_runs, hq.runs_eq, hq'.runs_eq, hqs t]
    · intro t
      rw [tokenizeView_eq_runs, tokenizeView_eq_runs, hf.runs_eq, hf'.runs_eq, hfs t]

namespace TokenWitness

/-- `foo`. -/
def foo : WString := wide ['f', 'o', 'o']

/-- `bar`. -/
def bar : WString := wide ['b', 'a', 'r']

/-- Neither word holds a separator. -/
theorem free_words : (∀ c ∈ foo, isTokenSep c = false) ∧ ∀ c ∈ bar, isTokenSep c = false := by
  have hall : (foo ++ bar).all (fun c => !isTokenSep c) = true := by decide
  simpa using hall

/-- `foo-old.bar`. -/
def fileName : WString := wide ['f', 'o', 'o', '-', 'o', 'l', 'd', '.', 'b', 'a', 'r']

/-- The query `bar_foo` and the query `foo  bar` have one answer for the name. -/
theorem tokenSets_included_words :
    tokensMatch (bar ++ 0x5F :: foo) fileName = tokensMatch (foo ++ 0x20 :: 0x20 :: bar) fileName := by
  refine tokenSets_included.2.2.2 [bar, foo] [foo, bar] _ _ _ _ fileName fileName ?_ (fun t => Iff.rfl) ?_ ?_
    (renders_runs _ fileName) (renders_runs _ fileName)
  · intro t
    simp only [List.mem_cons, List.not_mem_nil, or_false]
    exact Or.comm
  · exact .piece (by decide) free_words.2 (by decide) (.last (by decide) free_words.1)
  · exact .piece (by decide) free_words.1 (by decide) (.sep (by decide) (.last (by decide) free_words.2))

end TokenWitness

end WinIndex
