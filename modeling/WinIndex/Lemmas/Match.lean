import WinIndex.Theorems.Finders
import WinIndex.Theorems.Search
import WinIndex.Theorems.TokenSets

/-!
# What makes an entry a result

Below the cap a search returns the live entries that pass its test. The test of a substring search in terms of the text alone:
where the query first occurs in it, what stands next to that place, and which tokens both have.
-/

namespace WinIndex

open Segments TokenMatcher

variable {ctx : SearchContext} {query : WString} {options : SearchOptions} {p : IndexPool}

/-! ## Results -/

/-- An entry is among the results. -/
def Returned (results : List SearchResult) (i : Nat) : Prop := ∃ r ∈ results, r.entryIndex.toNat = i

/-- Below the cap a search returns what the filter accepts. -/
theorem search_eq_accepted {maxResults hardwareConcurrency : UInt32} {turns : List Fanout.Turn} {results : List SearchResult}
    (hq : 2 ≤ query.length) (h : search ctx query options p maxResults hardwareConcurrency turns = some results)
    (hcap : results.length < maxResults.toNat) : results = acceptedEntries ctx query options p := by
  obtain ⟨hsub, hlen⟩ := search_sublist hq h
  exact hsub.eq_of_length (by omega)

/-- Below the cap a live entry is returned when it passes the test. -/
theorem returned_iff {maxResults hardwareConcurrency : UInt32} {turns : List Fanout.Turn} {results : List SearchResult}
    (hN : p.entryMeta.length < 2 ^ 32) (hq : 2 ≤ query.length)
    (h : search ctx query options p maxResults hardwareConcurrency turns = some results)
    (hcap : results.length < maxResults.toNat) {i : Nat} {m : EntryMeta} (hm : p.entryMeta[i]? = some m)
    (hlive : m.deleted = false) : Returned results i ↔ (entryTest ctx query options p m).isSome = true := by
  have htest : searchTest ctx query options p i =
      (entryTest ctx query options p m).map (fun r => ⟨UInt32.ofNat i, UInt32.ofNat r.1, UInt32.ofNat r.2⟩) := by
    rw [searchTest, hm]
    simp [hlive]
  rw [search_eq_accepted hq h hcap]
  constructor
  · rintro ⟨r, hr, hi⟩
    obtain ⟨j, -, hj⟩ := List.mem_filterMap.1 hr
    obtain rfl : j = i := (searchTest_eq_some hN hj).1.symm.trans hi
    rw [htest] at hj
    rw [← Option.isSome_map, hj]
    rfl
  · intro hsome
    obtain ⟨r, hr⟩ := Option.isSome_iff_exists.1 hsome
    rw [hr, Option.map_some] at htest
    refine ⟨_, List.mem_filterMap.2 ⟨i, List.mem_range.2 (List.getElem?_eq_some_iff.1 hm).1, htest⟩, ?_⟩
    exact (searchTest_eq_some hN htest).1

/-! ## Word characters -/

/-- A word character: alphanumeric, or an underscore. -/
def IsWordChar (Γ : Locale) (c : WChar) : Prop := Γ.iswalnum c = true ∨ c = 0x5F

instance IsWordChar.decidable (Γ : Locale) (c : WChar) : Decidable (IsWordChar Γ c) := inferInstanceAs (Decidable (_ ∨ _))

/-- The character before position `i` of a text, if any, and the one at position `j`, if any, are not word characters. -/
def StandsAlone (Γ : Locale) (text : WString) (i j : Nat) : Prop :=
  (∀ k c, k + 1 = i → text[k]? = some c → ¬IsWordChar Γ c) ∧ ∀ c, text[j]? = some c → ¬IsWordChar Γ c

/-- `MatchesWholeWord` reads the unit before a position and the one behind a length from there. -/
theorem matchesWholeWord_iff {Γ : Locale} {text : Nat → WChar} {textLen pos len : Nat} :
    matchesWholeWord Γ text textLen pos len = true ↔
      (0 < pos → ¬IsWordChar Γ (text (pos - 1))) ∧ (pos + len < textLen → ¬IsWordChar Γ (text (pos + len))) := by
  simp only [matchesWholeWord, IsWordChar, Bool.and_eq_true, Bool.not_eq_true', Bool.and_eq_false_iff,
    decide_eq_false_iff_not, Bool.or_eq_false_iff, not_or, Bool.not_eq_true]
  exact and_congr imp_iff_not_or.symm imp_iff_not_or.symm

/-- Inside the text it says whether the match stands alone. -/
theorem matchesWholeWord_iff_standsAlone (Γ : Locale) {text : WString} {read : Nat → WChar}
    (hread : ∀ k c, text[k]? = some c → read k = c) {pos : Nat} (len : Nat) (hpos : pos ≤ text.length) :
    matchesWholeWord Γ read text.length pos len = true ↔ StandsAlone Γ text pos (pos + len) := by
  rw [matchesWholeWord_iff, StandsAlone]
  refine and_congr ⟨fun h k c hk hc => ?_, fun h h0 => ?_⟩ ⟨fun h c hc => ?_, fun h hlt => ?_⟩
  · subst hk
    have := h (Nat.succ_pos k)
    rwa [Nat.add_sub_cancel, hread k c hc] at this
  · have hlt : pos - 1 < text.length := by omega
    have hget := List.getElem?_eq_getElem hlt
    rw [hread _ _ hget]
    exact h (pos - 1) _ (by omega) hget
  · rw [← hread _ _ hc]
    exact h (List.getElem?_eq_some_iff.1 hc).1
  · have hget := List.getElem?_eq_getElem hlt
    rw [hread _ _ hget]
    exact h _ hget

/-! ## The test of a substring search -/

/-- What `SearchSubstring` looks for. -/
def needleOf (Γ : Locale) (options : SearchOptions) (query : WString) : WString :=
  if options.caseSensitive then query else Γ.lower query

@[simp] theorem length_needleOf (Γ : Locale) (options : SearchOptions) (query : WString) :
    (needleOf Γ options query).length = query.length := by
  unfold needleOf
  split
  · rfl
  · exact Γ.length_lower query

/-- A query is matched by its tokens, too: case does not count, and it has a separator. -/
def TokensApply (options : SearchOptions) (query : WString) : Prop :=
  options.caseSensitive = false ∧ queryHasSeparators query = true

/-- The finder that a search uses returns the first occurrence. -/
theorem simdFindSubstring_spec (avx2 : Bool) (hay needle : WString) :
    FirstOccurrence hay needle (simdFindSubstring avx2 hay needle) := by
  unfold simdFindSubstring
  split
  · exact (blockFindReading_spec (by decide) hay needle).2
  · exact (blockFindReading_spec (by decide) hay needle).2

/-- With an occurrence in the text, the first of them decides. -/
theorem substringTest_of_occurs {m : EntryMeta} {i : Nat}
    (h : FirstOccurrence (haystack ctx.locale options p m) (needleOf ctx.locale options query) (some i)) :
    (substringTest ctx query options p m).isSome = true ↔
      (options.wholeWord = true → StandsAlone ctx.locale (haystack ctx.locale options p m) i (i + query.length)) := by
  have hfind := (simdFindSubstring_spec ctx.avx2 _ _).unique h
  have hlen := length_needleOf ctx.locale options query
  have hread : ∀ k c, (haystack ctx.locale options p m)[k]? = some c → (haystack ctx.locale options p m).getD k 0 = c := by
    intro k c hk
    simp [List.getD_eq_getElem?_getD, hk]
  have halone := matchesWholeWord_iff_standsAlone ctx.locale hread query.length (Nat.le_trans (Nat.le_add_right i _) h.1.1)
  rw [needleOf] at hfind hlen
  rw [substringTest]
  simp only [hfind, hlen]
  rw [← halone]
  cases options.wholeWord <;>
    cases matchesWholeWord ctx.locale (fun k => (haystack ctx.locale options p m).getD k 0)
      (haystack ctx.locale options p m).length i query.length <;> simp

/-- Without one, the tokens decide. -/
theorem substringTest_of_not_occurs {m : EntryMeta}
    (h : FirstOccurrence (haystack ctx.locale options p m) (needleOf ctx.locale options query) none) :
    (substringTest ctx query options p m).isSome = true ↔
      TokensApply options query ∧
        tokensMatch (needleOf ctx.locale options query) (haystack ctx.locale options p m) = true := by
  have hfind := (simdFindSubstring_spec ctx.avx2 _ _).unique h
  rw [needleOf] at hfind
  rw [substringTest, needleOf]
  simp only [hfind, tokensMatch, TokensApply]
  cases options.caseSensitive <;> cases queryHasSeparators query <;> simp

/-- The query occurs first somewhere, or nowhere. -/
theorem firstOccurrence_cases (hay needle : WString) :
    (∃ i, FirstOccurrence hay needle (some i)) ∨ FirstOccurrence hay needle none := by
  have h := simdFindSubstring_spec false hay needle
  cases hfind : simdFindSubstring false hay needle with
  | none => exact .inr (hfind ▸ h)
  | some i => exact .inl ⟨i, hfind ▸ h⟩

end WinIndex
