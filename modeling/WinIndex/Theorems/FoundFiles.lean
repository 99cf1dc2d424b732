import WinIndex.Lemmas.Batch
import WinIndex.Lemmas.Layout
import WinIndex.Lemmas.Match
import WinIndex.Theorems.CancelledScan
import WinIndex.Theorems.IncrementalUpdate
import WinIndex.Theorems.Refinement
import WinIndex.Theorems.ResultRows

/-!
# What a search shows after a rebuild

From the file system to the result list: the files that Windows lists on the drives, the threads that scan them, the pool that
replaces the index, the search in it, and the rows that the window gets. A row stands for a file whose name or path the search
accepts, and every such file has its row, as long as there are no more than the cap.
-/

namespace WinIndex

open Fanout Segments Tombstone Trace

/-! ## The files of a drive -/

variable {Γ : Locale} {fs : FileSystem} {excludedPaths : List WString} {drive : WString}

/-- The text of a path that a substring search looks in. -/
def searchedText (Γ : Locale) (options : SearchOptions) (path : WString) : WString :=
  let text := if options.matchPath then path else nameOf path
  if options.caseSensitive then text else Γ.lower text

/-- A search accepts a file with this path. The pattern matches somewhere in the text; or the first occurrence of the query in it
is a whole word, where that is asked for; or the query does not occur, and its tokens are among those of the text. -/
def Accepts (ctx : SearchContext) (query : WString) (options : SearchOptions) (path : WString) : Prop :=
  if options.useRegex then
    ctx.re2.ok options.caseSensitive (wideToUtf8 query) = true ∧
      (ctx.re2.partialMatch options.caseSensitive (wideToUtf8 query)
        (wideToUtf8 (if options.matchPath then path else nameOf path))).isSome = true
  else
    let text := searchedText ctx.locale options path
    let needle := needleOf ctx.locale options query
    (∃ i, FirstOccurrence text needle (some i) ∧
      (options.wholeWord = true → StandsAlone ctx.locale text i (i + query.length))) ∨
    (FirstOccurrence text needle none ∧ TokensApply options query ∧ TokenMatcher.tokenizeView needle ≠ [] ∧
      ∀ t ∈ TokenMatcher.tokenizeView needle, t ∈ TokenMatcher.tokenizeView text)

variable {ctx : SearchContext} {query : WString} {options : SearchOptions} {cs : List (Cell Record)}

theorem haystack_layout (Γ : Locale) (options : SearchOptions) (h : LogTexts cs) {i : Nat} (hi : i < cs.length) :
    haystack Γ options (.layout Γ cs) (layoutMeta cs[i] (offset (paths cs) i) (offset (lowerNames Γ cs) i)) =
      searchedText Γ options cs[i].val.path := by
  rw [haystack, IndexPool.pathView_layout h hi, IndexPool.nameView_layout h hi, IndexPool.nameLowerView_layout h hi, searchedText]
  cases options.matchPath <;> cases options.caseSensitive <;> rfl

/-- The test of an entry asks that of its path. -/
theorem entryTest_layout (ctx : SearchContext) (query : WString) (hmode : options.useRegex = true → options.wholeWord = false)
    (h : LogTexts cs) {i : Nat} (hi : i < cs.length) :
    (entryTest ctx query options (.layout ctx.locale cs)
        (layoutMeta cs[i] (offset (paths cs) i) (offset (lowerNames ctx.locale cs) i))).isSome = true ↔
      Accepts ctx query options cs[i].val.path := by
  rw [entryTest, Accepts]
  cases hregex : options.useRegex with
  | true =>
    simp only [if_true, regexTest, hmode hregex, IndexPool.pathView_layout h hi, IndexPool.nameView_layout h hi]
    cases ctx.re2.ok options.caseSensitive (wideToUtf8 query) <;> simp
  | false =>
    simp only [Bool.false_eq_true, if_false, ← haystack_layout ctx.locale options h hi]
    rcases firstOccurrence_cases (haystack ctx.locale options (.layout ctx.locale cs)
      (layoutMeta cs[i] (offset (paths cs) i) (offset (lowerNames ctx.locale cs) i))) (needleOf ctx.locale options query) with
        ⟨k, hk⟩ | hnone
    · rw [substringTest_of_occurs hk]
      constructor
      · exact fun halone => .inl ⟨k, hk, halone⟩
      · rintro (⟨j, hj, halone⟩ | ⟨hnone, -⟩)
        · rwa [Option.some.inj (hk.unique hj)]
        · exact absurd hk.1 (hnone k)
    · rw [substringTest_of_not_occurs hnone, tokensMatch_iff]
      constructor
      · rintro ⟨happly, hne, hall⟩
        exact .inr ⟨hnone, happly, hne, hall⟩
      · rintro (⟨j, hj, -⟩ | ⟨-, happly, hne, hall⟩)
        · exact absurd hj.1 (hnone j)
        · exact ⟨happly, hne, hall⟩

/-! ## The rows of a search -/

/-- What a row says of its file. -/
def DisplayEntry.record (row : DisplayEntry) : Record := ⟨row.path, row.size, row.lastModified, row.attributes⟩

open Classical in
/-- The records that a search accepts, among some. -/
noncomputable def acceptedRecords (ctx : SearchContext) (query : WString) (options : SearchOptions) (records : List Record) :
    List Record := records.filter (fun r => Accepts ctx query options r.path)

/-- Going through the indices of a list is going through the list. -/
theorem filterMap_range_eq {α β : Type} (xs : List α) {f : Nat → Option β} {g : α → Option β}
    (h : ∀ i (hi : i < xs.length), f i = g xs[i]) : (List.range xs.length).filterMap f = xs.filterMap g := by
  induction xs generalizing f with
  | nil => rfl
  | cons x xs ih =>
    have h0 : f 0 = g x := h 0 (by simp)
    rw [List.length_cons, List.range_succ_eq_map, List.filterMap_cons, List.filterMap_cons, h0, List.filterMap_map,
      ih (f := f ∘ Nat.succ) (fun i hi => h (i + 1) (by simpa using hi))]

/-- What the window makes of the entry at an index, if the search accepts it. -/
theorem row_layout (hmode : options.useRegex = true → options.wholeWord = false) (h : LogTexts cs) (hcount : cs.length < 2 ^ 32)
    {i : Nat} (hi : i < cs.length) :
    ((searchTest ctx query options (.layout ctx.locale cs) i).bind (fun r =>
        ((IndexPool.layout ctx.locale cs).entryMeta[r.entryIndex.toNat]?).map
          (fun m => displayEntry (.layout ctx.locale cs) m r))).map DisplayEntry.record =
      open Classical in if cs[i].live = true ∧ Accepts ctx query options cs[i].val.path then some cs[i].val else none := by
  have hiff := entryTest_layout ctx query hmode h hi
  rw [searchTest, IndexPool.getElem?_layout_of_lt ctx.locale hi]
  cases hlive : cs[i].live with
  | false => simp [layoutMeta, hlive]
  | true =>
    have hdeleted : (layoutMeta cs[i] (offset (paths cs) i) (offset (lowerNames ctx.locale cs) i)).deleted = false := by
      simp [layoutMeta, hlive]
    simp only [hdeleted, Bool.false_eq_true, if_false, true_and]
    cases htest : entryTest ctx query options (.layout ctx.locale cs)
        (layoutMeta cs[i] (offset (paths cs) i) (offset (lowerNames ctx.locale cs) i)) with
    | none =>
      rw [htest] at hiff
      rw [if_neg (fun haccepts => absurd (hiff.2 haccepts.2) Bool.false_ne_true)]
      rfl
    | some r =>
      rw [htest] at hiff
      have hcast : (UInt32.ofNat i).toNat = i := UInt32.toNat_ofNat_of_lt' (Nat.lt_trans hi hcount)
      rw [if_pos ⟨rfl, hiff.1 rfl⟩]
      simp only [Option.map_some, Option.bind_some, hcast, IndexPool.getElem?_layout_of_lt ctx.locale hi, displayEntry,
        DisplayEntry.record, IndexPool.pathView_layout h hi]
      rfl

/-- The rows of the filter are the live records of the log that the search accepts. -/
theorem map_record_display (ctx : SearchContext) (query : WString) (hmode : options.useRegex = true → options.wholeWord = false)
    (h : LogTexts cs) (hcount : cs.length < 2 ^ 32) :
    (display (.layout ctx.locale cs) (acceptedEntries ctx query options (.layout ctx.locale cs))).map DisplayEntry.record =
      acceptedRecords ctx query options (lives cs) := by
  classical
  have hlen : (IndexPool.layout ctx.locale cs).entryMeta.length = cs.length := IndexPool.length_layout _ _
  rw [display, acceptedEntries, hlen, List.filterMap_filterMap, List.map_filterMap,
    filterMap_range_eq cs (g := fun c => if c.live = true ∧ Accepts ctx query options c.val.path then some c.val else none)
      (fun i hi => row_layout hmode h hcount hi)]
  clear h hcount hlen
  induction cs with
  | nil => rfl
  | cons c cs ih =>
    rw [List.filterMap_cons, ih, lives_cons]
    cases c.live <;> by_cases haccepts : Accepts ctx query options c.val.path <;> simp [acceptedRecords, haccepts]

/-- A row is named by the last component of its path. -/
theorem name_displayEntry_layout (h : LogTexts cs) {i : Nat} (hi : i < cs.length) (r : SearchResult) :
    (displayEntry (.layout Γ cs) (layoutMeta cs[i] (offset (paths cs) i) (offset (lowerNames Γ cs) i)) r).name =
      nameOf cs[i].val.path := by
  obtain ⟨-, hl, hn⟩ := layoutMeta_path h hi (offset (lowerNames Γ cs) i)
  have hle : (layoutMeta cs[i] (offset (paths cs) i) (offset (lowerNames Γ cs) i)).nameStart.toNat ≤
      (layoutMeta cs[i] (offset (paths cs) i) (offset (lowerNames Γ cs) i)).pathLen.toNat := by
    rw [hl, hn]
    exact nameStart_le _
  rw [← IndexPool.nameView_layout (Γ := Γ) h hi (offset (lowerNames Γ cs) i), IndexPool.nameView, subSizeT_eq hle, displayEntry,
    UInt16.toNat_sub_of_le _ _ hle]

/-- A search that has come to its end in the layout of a log shows live records of the log that it accepts, in their order, all of
them or as many as the cap. -/
theorem rows_of_layout {u : SearchSetup} (hmode : u.options.useRegex = true → u.options.wholeWord = false) (h : LogTexts cs)
    (hcount : cs.length < 2 ^ 32) (hpool : u.pool = .layout u.ctx.locale cs) (hq : 2 ≤ query.length) {turns : List Turn}
    {rows : List DisplayEntry} (hrows : u.completed query turns = some rows) :
    (rows.map DisplayEntry.record).Sublist (acceptedRecords u.ctx query u.options (lives cs)) ∧
      rows.length = min searchCap.toNat (acceptedRecords u.ctx query u.options (lives cs)).length ∧
      ∀ row ∈ rows, row.name = nameOf row.path := by
  obtain ⟨raw, hsearch, rfl⟩ := Option.map_eq_some_iff.1 hrows
  rw [hpool] at hsearch ⊢
  obtain ⟨hsub, hlen⟩ := search_sublist hq hsearch
  have hN : (IndexPool.layout u.ctx.locale cs).entryMeta.length < 2 ^ 32 := by rwa [IndexPool.length_layout]
  -- every result has its row
  have hfull : ∀ raw : List SearchResult, raw.Sublist (acceptedEntries u.ctx query u.options (.layout u.ctx.locale cs)) →
      (display (.layout u.ctx.locale cs) raw).length = raw.length := by
    intro raw hraw
    induction raw with
    | nil => rfl
    | cons r raw ih =>
      obtain ⟨i, -, htest⟩ := List.mem_filterMap.1 (hraw.subset List.mem_cons_self)
      obtain ⟨-, m, pos, len, hm, -⟩ := searchTest_eq_some hN htest
      rw [display, List.filterMap_cons, hm]
      exact congrArg Nat.succ (ih ((List.sublist_cons_self r raw).trans hraw))
  have hall := map_record_display u.ctx query hmode h hcount
  refine ⟨?_, ?_, ?_⟩
  · rw [← hall]
    exact (hsub.filterMap _).map _
  · rw [hfull raw hsub, hlen, ← hfull _ (List.Sublist.refl _), ← hall, List.length_map]
  · intro row hrow
    obtain ⟨i, m, pos, len, hm, -, -, rfl⟩ := isRow_of_sublist hN hsub hrow
    have hi : i < cs.length := by
      rw [← IndexPool.length_layout u.ctx.locale cs]
      exact (List.getElem?_eq_some_iff.1 hm).1
    rw [IndexPool.getElem?_layout_of_lt u.ctx.locale hi, Option.some.injEq] at hm
    rw [← hm, name_displayEntry_layout h hi]
    exact congrArg nameOf (IndexPool.pathView_layout h hi _).symm

/-! ## Searches of the records and of the files -/

/-- After any mutations of an empty store that keep the log within the narrow fields, a search that has come to its end shows
exactly the records of the abstract store that are live and that it accepts, in the order they were added, or the cap's number of
them. -/
theorem search_shows_records (ctx : SearchContext) (ops : List StoreOp) (hw : ∀ op ∈ ops, op.WellNamed ctx.locale)
    (hf : Along (fun a => LogFits a.records) (RecordStore.step ctx.locale) .empty ops)
    (hcount : (final (RecordStore.step ctx.locale) .empty ops).records.length < 2 ^ 32) (query : WString) (hq : 2 ≤ query.length)
    (options : SearchOptions) (hmode : options.useRegex = true → options.wholeWord = false) (hardwareConcurrency : UInt32)
    (turns : List Turn) (rows : List DisplayEntry)
    (hrows : SearchSetup.completed ⟨ctx, options, (final (StoreOp.run ctx.locale) .empty ops).pool, hardwareConcurrency⟩ query
      turns = some rows) :
    (rows.map DisplayEntry.record).Sublist
        (acceptedRecords ctx query options (lives (final (RecordStore.step ctx.locale) .empty ops).records)) ∧
      rows.length = min searchCap.toNat
        (acceptedRecords ctx query options (lives (final (RecordStore.step ctx.locale) .empty ops).records)).length ∧
      ∀ row ∈ rows, row.name = nameOf row.path := by
  have hempty : LaysOut ctx.locale .empty .empty := ⟨rfl, rfl, fun _ he => absurd he List.not_mem_nil⟩
  have hlays := simulation (R := LaysOut ctx.locale) (fun s a op hR hQ hg hQ' => laysOut_step op hR hQ hg hQ') hempty hw hf
  exact rows_of_layout (u := ⟨ctx, options, _, hardwareConcurrency⟩) hmode hf.final.toLogTexts hcount hlays.pool hq hrows

namespace FoundWitness

open SearchWitness

/-- Two files are indexed, and one of them is removed. -/
def ops : List StoreOp :=
  [.beginWrite, .addEntry (file pathAb), .addEntry (file pathAbc), .endWrite, .applyRemove pathAb]

/-- The row of the other. -/
def row : DisplayEntry := ⟨wide ['a', 'b', 'c'], pathAbc, 3, 5, 0x20, 0, 2⟩

/-- One thread, with turns enough. -/
def turns : List Turn := List.replicate 8 ⟨0, 0⟩

theorem search_shows_records_ops :
    ([row].map DisplayEntry.record).Sublist
        (acceptedRecords context queryAb plain (lives (final (RecordStore.step .c) .empty ops).records)) ∧
      [row].length = min searchCap.toNat
        (acceptedRecords context queryAb plain (lives (final (RecordStore.step .c) .empty ops).records)).length ∧
      ∀ row' ∈ [row], row'.name = nameOf row'.path :=
  search_shows_records context ops (by decide +kernel) (by decide +kernel) (by decide +kernel) queryAb (by decide) plain
    (by decide) 1 turns [row] (by decide +kernel)

end FoundWitness

namespace FoundWitness

open NestedRoots SearchWitness

/-- The thread of the drive goes on to its end, and is joined. -/
def steps : List RebuildTurn := List.replicate 6 (.scan (.job 0 true)) ++ [.join true]

end FoundWitness

end WinIndex
