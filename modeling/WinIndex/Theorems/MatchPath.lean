import WinIndex.Lemmas.Match

/-!
# Match Path widens a search, or not

A name is the tail of its path, so an occurrence in the name is one in the path. With tokens it is not so: no separator stands
at a directory's end, and the first token of the name is glued to what is before it in the path. An entry that its name's
tokens alone have matched is lost where the query needs that token.
-/

namespace WinIndex

open Fanout Runs Segments TokenMatcher

variable {ctx : SearchContext} {query : WString} {options : SearchOptions} {p : IndexPool}

/-- The pool invariant on names: the name is the tail of the path, and `nameLower` its lowercase. -/
def IndexPool.NamesAreTails (Γ : Locale) (p : IndexPool) : Prop :=
  ∀ m ∈ p.entryMeta, p.nameView m <:+ p.pathView m ∧ p.nameLowerView m = Γ.lower (p.nameView m)

/-- The same options with Match Path on or off. -/
def SearchOptions.withMatchPath (options : SearchOptions) (on : Bool) : SearchOptions := { options with matchPath := on }

/-- Nothing is lost in the path: a name in which the query does not occur, but all its tokens do, is in a path in which the
query occurs, or its first token is not one of the query's, or is a token of the path, too. -/
def PathKeeps (Γ : Locale) (options : SearchOptions) (query name path : WString) : Prop :=
  TokensApply options query → (∀ i, ¬OccursAt name (needleOf Γ options query) i) →
    tokenizeView (needleOf Γ options query) ≠ [] →
    (∀ t ∈ tokenizeView (needleOf Γ options query), t ∈ tokenizeView name) →
    (∃ i, OccursAt path (needleOf Γ options query) i) ∨
      ∀ t, (tokenizeView name).head? = some t → t ∈ tokenizeView (needleOf Γ options query) → t ∈ tokenizeView path

/-- An occurrence in the tail of a text is one in the text. -/
theorem OccursAt.append {hay needle : WString} {i : Nat} (h : OccursAt hay needle i) (d : WString) :
    OccursAt (d ++ hay) needle (d.length + i) := by
  refine ⟨?_, ?_⟩
  · have := h.1
    rw [List.length_append]
    omega
  · rw [slice_append_add]
    exact h.2

/-- The text searched without Match Path is the tail of the one searched with it. -/
theorem haystack_suffix (options : SearchOptions) {Γ : Locale} {m : EntryMeta} (htail : p.nameView m <:+ p.pathView m)
    (hlower : p.nameLowerView m = Γ.lower (p.nameView m)) :
    haystack Γ (options.withMatchPath false) p m <:+ haystack Γ (options.withMatchPath true) p m := by
  obtain ⟨useRegex, caseSensitive, wholeWord, matchPath⟩ := options
  obtain ⟨d, hd⟩ := htail
  cases caseSensitive with
  | true =>
    simp only [haystack, SearchOptions.withMatchPath, if_true, Bool.false_eq_true, if_false]
    exact ⟨d, hd⟩
  | false =>
    simp only [haystack, SearchOptions.withMatchPath, if_true, Bool.false_eq_true, if_false]
    rw [hlower, ← hd, Γ.lower_append]
    exact List.suffix_append _ _

/-- Without whole words, the test passes where the query occurs, or by tokens. -/
theorem substringTest_isSome_iff (hword : options.wholeWord = false) {m : EntryMeta} :
    (substringTest ctx query options p m).isSome = true ↔
      (∃ i, OccursAt (haystack ctx.locale options p m) (needleOf ctx.locale options query) i) ∨
        (TokensApply options query ∧ tokenizeView (needleOf ctx.locale options query) ≠ [] ∧
          ∀ t ∈ tokenizeView (needleOf ctx.locale options query), t ∈ tokenizeView (haystack ctx.locale options p m)) := by
  rw [← tokensMatch_iff]
  rcases firstOccurrence_cases (haystack ctx.locale options p m) (needleOf ctx.locale options query) with ⟨i, hi⟩ | hnone
  · rw [substringTest_of_occurs hi, hword]
    exact iff_of_true (fun h => absurd h (by simp)) (.inl ⟨i, hi.1⟩)
  · rw [substringTest_of_not_occurs hnone, or_iff_right (by rintro ⟨i, hi⟩; exact hnone i hi)]

/-- Where all tokens of the query are tokens of the name, only the name's first token can be missing in the path. -/
theorem tokens_subset_path_iff {name path : WString} (htail : name <:+ path) {ts : List WString}
    (hsub : ∀ t ∈ ts, t ∈ tokenizeView name) :
    (∀ t ∈ ts, t ∈ tokenizeView path) ↔
      ∀ t, (tokenizeView name).head? = some t → t ∈ ts → t ∈ tokenizeView path := by
  constructor
  · intro h t _ ht
    exact h t ht
  · intro h t ht
    obtain ⟨d, rfl⟩ := htail
    have hname := hsub t ht
    rw [tokenizeView_eq_runs] at hname
    rcases mem_runs_append d hname with hfirst | hmem
    · exact h t (by rwa [tokenizeView_eq_runs]) ht
    · rwa [tokenizeView_eq_runs]

/-- Both searches end, and below the cap an entry that is returned with Match Path off is returned with Match Path on if and only
if nothing that its name's tokens have matched is lost in the path. -/
theorem matchPath_widens_iff (ctx : SearchContext) (query : WString) (options : SearchOptions) (p : IndexPool)
    (hp : p.NamesAreTails ctx.locale) (hN : p.entryMeta.length < 2 ^ 32) (hq : 2 ≤ query.length)
    (hregex : options.useRegex = false) (hword : options.wholeWord = false) :
    (∀ on maxResults hardwareConcurrency turns, EnoughTurns p hardwareConcurrency turns →
      (search ctx query (options.withMatchPath on) p maxResults hardwareConcurrency turns).isSome) ∧
    ∀ (maxResults maxResults' hardwareConcurrency hardwareConcurrency' : UInt32) (turns turns' : List Turn)
      (results results' : List SearchResult),
      search ctx query (options.withMatchPath false) p maxResults hardwareConcurrency turns = some results →
      results.length < maxResults.toNat →
      search ctx query (options.withMatchPath true) p maxResults' hardwareConcurrency' turns' = some results' →
      results'.length < maxResults'.toNat → ∀ (i : Nat) (m : EntryMeta), p.entryMeta[i]? = some m → m.deleted = false →
      ((Returned results i → Returned results' i) ↔
        PathKeeps ctx.locale options query (haystack ctx.locale (options.withMatchPath false) p m)
          (haystack ctx.locale (options.withMatchPath true) p m)) := by
  refine ⟨fun on maxResults hardwareConcurrency turns henough => search_isSome hq henough, ?_⟩
  intro maxResults maxResults' hardwareConcurrency hardwareConcurrency' turns turns' results results' h hcap h' hcap' i m hm
    hlive
  obtain ⟨htail, hlower⟩ := hp m (List.mem_of_getElem? hm)
  have hsuffix := haystack_suffix options htail hlower
  have htest : ∀ on, (entryTest ctx query (options.withMatchPath on) p m).isSome = true ↔
      (∃ k, OccursAt (haystack ctx.locale (options.withMatchPath on) p m) (needleOf ctx.locale options query) k) ∨
        (TokensApply options query ∧ tokenizeView (needleOf ctx.locale options query) ≠ [] ∧
          ∀ t ∈ tokenizeView (needleOf ctx.locale options query),
            t ∈ tokenizeView (haystack ctx.locale (options.withMatchPath on) p m)) := by
    intro on
    have hsub : entryTest ctx query (options.withMatchPath on) p m = substringTest ctx query (options.withMatchPath on) p m :=
      if_neg (by simp [SearchOptions.withMatchPath, hregex])
    rw [hsub]
    exact substringTest_isSome_iff (show (options.withMatchPath on).wholeWord = false from hword)
  rw [returned_iff hN hq h hcap hm hlive, returned_iff hN hq h' hcap' hm hlive, htest, htest, PathKeeps]
  constructor
  · intro hwiden happly _ hne hsub
    refine (hwiden (.inr ⟨happly, hne, hsub⟩)).imp id ?_
    rintro ⟨-, -, hpath⟩ t _ ht
    exact hpath t ht
  · rintro hkeeps (⟨k, hk⟩ | ⟨happly, hne, hsub⟩)
    · obtain ⟨d, hd⟩ := hsuffix
      exact .inl ⟨_, hd ▸ hk.append d⟩
    · by_cases hocc : ∃ k, OccursAt (haystack ctx.locale (options.withMatchPath false) p m) (needleOf ctx.locale options query) k
      · obtain ⟨k, hk⟩ := hocc
        obtain ⟨d, hd⟩ := hsuffix
        exact .inl ⟨_, hd ▸ hk.append d⟩
      · refine (hkeeps happly (not_exists.1 hocc) hne hsub).imp id (fun hfirst => ⟨happly, hne, ?_⟩)
        exact (tokens_subset_path_iff hsuffix hsub).2 hfirst

namespace MatchPathWitness

/-- `C:\d\bar_foo.txt`. -/
def path : WString := wide ['C', ':', '\\', 'd', '\\', 'b', 'a', 'r', '_', 'f', 'o', 'o', '.', 't', 'x', 't']

/-- One file. -/
def pool : IndexPool := .ofEntries .c [.ofPath .c path 3 5 0x20]

/-- The file's metadata. -/
def fileMeta : EntryMeta := ⟨3, 5, 0, 0, 0x20, 16, 11, 5, false⟩

theorem entryMeta_pool : pool.entryMeta = [fileMeta] := by decide +kernel

/-- `txt foo`. -/
def txtFoo : WString := wide ['t', 'x', 't', ' ', 'f', 'o', 'o']

/-- `bar foo`. -/
def barFoo : WString := wide ['b', 'a', 'r', ' ', 'f', 'o', 'o']

/-- The turns of the one thread. -/
def turns : List Turn := [⟨0, 0⟩, ⟨0, 0⟩, ⟨0, 0⟩]

/-- No option set but Match Path, on or off. -/
def plainOn (on : Bool) : SearchOptions := SearchWitness.plain.withMatchPath on

theorem namesAreTails_pool : pool.NamesAreTails .c := by
  intro m hm
  rw [entryMeta_pool, List.mem_singleton] at hm
  subst hm
  exact ⟨⟨path.take 5, by decide +kernel⟩, by decide +kernel⟩

/-- A search through the one file ends with what its test says. -/
theorem search_pool (query : WString) (on : Bool) (hq : 2 ≤ query.length) :
    ∃ results, search SearchWitness.context query (plainOn on) pool 10 1 turns = some results ∧
      results.length < (10 : UInt32).toNat := by
  have henough : EnoughTurns pool 1 turns := by
    have hlist : ceilChunks pool.entryMeta.length (numThreads 1) = [(0, 1)] := by decide +kernel
    intro i chunk hchunk
    rw [hlist] at hchunk
    rcases i with _ | i
    · rw [← Option.some.inj hchunk]
      decide
    · cases hchunk
  have hends : (search SearchWitness.context query (plainOn on) pool 10 1 turns).isSome := search_isSome hq henough
  obtain ⟨results, hresults⟩ := Option.isSome_iff_exists.1 hends
  refine ⟨results, hresults, ?_⟩
  have hone : pool.entryMeta.length = 1 := by rw [entryMeta_pool, List.length_singleton]
  have hten : (10 : UInt32).toNat = 10 := rfl
  have hle := List.length_filterMap_le (searchTest SearchWitness.context query (plainOn on) pool)
    (List.range pool.entryMeta.length)
  rw [List.length_range, hone] at hle
  rw [(search_sublist hq hresults).2, acceptedEntries, hone, hten]
  omega

/-- The tests of the two searches for `bar foo`. -/
theorem entryTest_barFoo :
    (entryTest SearchWitness.context barFoo (plainOn false) pool fileMeta).isSome = true ∧
      ¬(entryTest SearchWitness.context barFoo (plainOn true) pool fileMeta).isSome = true := by
  have hoff : haystack .c (plainOn false) pool fileMeta = path.drop 5 := by decide +kernel
  have hon : haystack .c (plainOn true) pool fileMeta = Locale.c.lower path := by decide +kernel
  constructor
  · show (substringTest SearchWitness.context barFoo (plainOn false) pool fileMeta).isSome = true
    rw [substringTest_isSome_iff rfl]
    refine .inr ⟨⟨rfl, by decide⟩, by decide +kernel, ?_⟩
    rw [show SearchWitness.context.locale = Locale.c from rfl, hoff]
    decide +kernel
  · show ¬(substringTest SearchWitness.context barFoo (plainOn true) pool fileMeta).isSome = true
    rw [substringTest_isSome_iff rfl, show SearchWitness.context.locale = Locale.c from rfl, hon]
    rintro (⟨k, hk⟩ | ⟨-, -, hsub⟩)
    · have hfind := (simdFindSubstring_spec false (Locale.c.lower path) (needleOf .c (plainOn true) barFoo))
      rw [show simdFindSubstring false (Locale.c.lower path) (needleOf .c (plainOn true) barFoo) = none by decide +kernel] at hfind
      exact hfind k hk
    · exact absurd hsub (by decide +kernel)

/-- `txt foo` needs the tokens of `bar_foo.txt` but the first, and finds the file either way. -/
theorem matchPath_widens_iff_txtFoo : ∃ results results',
    search SearchWitness.context txtFoo (plainOn false) pool 10 1 turns = some results ∧
      search SearchWitness.context txtFoo (plainOn true) pool 10 1 turns = some results' ∧
      ((Returned results 0 → Returned results' 0) ↔
        PathKeeps .c SearchWitness.plain txtFoo (haystack .c (plainOn false) pool fileMeta)
          (haystack .c (plainOn true) pool fileMeta)) := by
  obtain ⟨results, h, hcap⟩ := search_pool txtFoo false (by decide)
  obtain ⟨results', h', hcap'⟩ := search_pool txtFoo true (by decide)
  refine ⟨results, results', h, h', ?_⟩
  exact (matchPath_widens_iff SearchWitness.context txtFoo SearchWitness.plain pool namesAreTails_pool (by decide) (by decide)
    rfl rfl).2 10 10 1 1 turns turns results results' h hcap h' hcap' 0 fileMeta (by rw [entryMeta_pool]; rfl) rfl

end MatchPathWitness

/-- `bar foo` finds `bar_foo.txt` by its name's tokens. With Match Path on it does not: the path's tokens are `c:\d\bar`, `foo`
and `txt`. -/
theorem matchPath_narrows :
    MatchPathWitness.pool.NamesAreTails .c ∧ ∃ results results',
      search SearchWitness.context MatchPathWitness.barFoo (MatchPathWitness.plainOn false) MatchPathWitness.pool 10 1
          MatchPathWitness.turns = some results ∧ results.length < (10 : UInt32).toNat ∧
        search SearchWitness.context MatchPathWitness.barFoo (MatchPathWitness.plainOn true) MatchPathWitness.pool 10 1
          MatchPathWitness.turns = some results' ∧ results'.length < (10 : UInt32).toNat ∧
        Returned results 0 ∧ ¬Returned results' 0 := by
  obtain ⟨results, h, hcap⟩ := MatchPathWitness.search_pool MatchPathWitness.barFoo false (by decide)
  obtain ⟨results', h', hcap'⟩ := MatchPathWitness.search_pool MatchPathWitness.barFoo true (by decide)
  have hm : MatchPathWitness.pool.entryMeta[0]? = some MatchPathWitness.fileMeta := by
    rw [MatchPathWitness.entryMeta_pool]
    rfl
  have hN : MatchPathWitness.pool.entryMeta.length < 2 ^ 32 := by
    rw [MatchPathWitness.entryMeta_pool]
    decide
  refine ⟨MatchPathWitness.namesAreTails_pool, results, results', h, hcap, h', hcap', ?_, ?_⟩
  · exact (returned_iff hN (by decide) h hcap hm rfl).2 MatchPathWitness.entryTest_barFoo.1
  · rw [returned_iff hN (by decide) h' hcap' hm rfl]
    exact MatchPathWitness.entryTest_barFoo.2

end WinIndex
