import WinIndex.Lemmas.Match

/-!
# Whole words

A whole-word search looks at the first occurrence of the query in a text and at no other; its tokens are compared only where
the query does not occur at all. So a text is missed when a later occurrence is the whole word, or when the tokens match and
the first occurrence is not one.
-/

namespace WinIndex

open Fanout TokenMatcher

variable {ctx : SearchContext} {query : WString} {options : SearchOptions} {p : IndexPool}

/-- The text contains the query somewhere as a whole word. -/
def HasWord (Γ : Locale) (text needle : WString) : Prop :=
  ∃ i, OccursAt text needle i ∧ StandsAlone Γ text i (i + needle.length)

/-- The query is matched by its tokens, and each of them is a token of the text. -/
def TokenSetMatch (Γ : Locale) (options : SearchOptions) (query text : WString) : Prop :=
  TokensApply options query ∧ ∀ t ∈ tokenizeView (needleOf Γ options query), t ∈ tokenizeView text

/-- What a whole-word search ought to find: the whole word, anywhere, or else the tokens. -/
def WholeWordMatch (Γ : Locale) (options : SearchOptions) (query text : WString) : Prop :=
  HasWord Γ text (needleOf Γ options query) ∨ TokenSetMatch Γ options query text

/-- The first occurrence tells: it is a whole word, or no occurrence is one and the tokens do not match; and where the query
does not occur at all, it does not consist of separators alone. -/
def FirstTells (Γ : Locale) (options : SearchOptions) (query text : WString) : Prop :=
  (∀ i, FirstOccurrence text (needleOf Γ options query) (some i) →
    StandsAlone Γ text i (i + query.length) ∨
      (¬HasWord Γ text (needleOf Γ options query) ∧ ¬TokenSetMatch Γ options query text)) ∧
  (FirstOccurrence text (needleOf Γ options query) none → TokensApply options query →
    tokenizeView (needleOf Γ options query) ≠ [])

/-- Where the query does not occur, no word is found and the code compares the tokens as it ought to, unless there are none. -/
theorem wholeWord_of_not_occurs {m : EntryMeta}
    (h : FirstOccurrence (haystack ctx.locale options p m) (needleOf ctx.locale options query) none) :
    ((substringTest ctx query options p m).isSome = true ↔
        WholeWordMatch ctx.locale options query (haystack ctx.locale options p m)) ↔
      (TokensApply options query → tokenizeView (needleOf ctx.locale options query) ≠ []) := by
  have hword : ¬HasWord ctx.locale (haystack ctx.locale options p m) (needleOf ctx.locale options query) := by
    rintro ⟨i, hocc, -⟩
    exact h i hocc
  rw [substringTest_of_not_occurs h, tokensMatch_iff, WholeWordMatch, or_iff_right hword, TokenSetMatch]
  constructor
  · intro heq happly hnil
    have hall : ∀ t ∈ tokenizeView (needleOf ctx.locale options query),
        t ∈ tokenizeView (haystack ctx.locale options p m) := by simp [hnil]
    exact (heq.2 ⟨happly, hall⟩).2.1 hnil
  · intro hne
    exact ⟨fun ⟨happly, _, hall⟩ => ⟨happly, hall⟩, fun ⟨happly, hall⟩ => ⟨happly, hne happly, hall⟩⟩

/-- Where it occurs, the code asks the first occurrence. -/
theorem wholeWord_of_occurs (hword : options.wholeWord = true) {m : EntryMeta} {i : Nat}
    (h : FirstOccurrence (haystack ctx.locale options p m) (needleOf ctx.locale options query) (some i)) :
    ((substringTest ctx query options p m).isSome = true ↔
        WholeWordMatch ctx.locale options query (haystack ctx.locale options p m)) ↔
      StandsAlone ctx.locale (haystack ctx.locale options p m) i (i + query.length) ∨
        (¬HasWord ctx.locale (haystack ctx.locale options p m) (needleOf ctx.locale options query) ∧
          ¬TokenSetMatch ctx.locale options query (haystack ctx.locale options p m)) := by
  have hfound : StandsAlone ctx.locale (haystack ctx.locale options p m) i (i + query.length) →
      HasWord ctx.locale (haystack ctx.locale options p m) (needleOf ctx.locale options query) := by
    intro halone
    refine ⟨i, h.1, ?_⟩
    rwa [length_needleOf]
  rw [substringTest_of_occurs h, WholeWordMatch, ← not_or]
  simp only [hword, forall_const]
  constructor
  · intro heq
    by_cases halone : StandsAlone ctx.locale (haystack ctx.locale options p m) i (i + query.length)
    · exact .inl halone
    · exact .inr (mt heq.2 halone)
  · rintro (halone | hnone)
    · exact ⟨fun _ => .inl (hfound halone), fun _ => halone⟩
    · exact ⟨fun halone => .inl (hfound halone), fun hmatch => absurd hmatch hnone⟩

/-- A whole-word search ends, and below the cap it returns a live entry when its text contains the whole word, or matches by
tokens, if and only if the first occurrence in the text tells. -/
theorem wholeWord_complete_iff (ctx : SearchContext) (query : WString) (options : SearchOptions) (p : IndexPool)
    (maxResults hardwareConcurrency : UInt32) (hN : p.entryMeta.length < 2 ^ 32) (hq : 2 ≤ query.length)
    (hregex : options.useRegex = false) (hword : options.wholeWord = true) :
    (∀ turns, EnoughTurns p hardwareConcurrency turns →
      (search ctx query options p maxResults hardwareConcurrency turns).isSome) ∧
    ∀ turns results, search ctx query options p maxResults hardwareConcurrency turns = some results →
      results.length < maxResults.toNat → ∀ (i : Nat) (m : EntryMeta), p.entryMeta[i]? = some m → m.deleted = false →
      ((Returned results i ↔ WholeWordMatch ctx.locale options query (haystack ctx.locale options p m)) ↔
        FirstTells ctx.locale options query (haystack ctx.locale options p m)) := by
  refine ⟨fun turns henough => search_isSome hq henough, ?_⟩
  intro turns results h hcap i m hm hlive
  have htest : entryTest ctx query options p m = substringTest ctx query options p m := by
    rw [entryTest, hregex]
    rfl
  rw [returned_iff hN hq h hcap hm hlive, htest, FirstTells]
  rcases firstOccurrence_cases (haystack ctx.locale options p m) (needleOf ctx.locale options query) with ⟨k, hk⟩ | hnone
  · have huniq : ∀ j, FirstOccurrence (haystack ctx.locale options p m) (needleOf ctx.locale options query) (some j) → j = k :=
      fun j hj => Option.some.inj (hj.unique hk)
    rw [wholeWord_of_occurs hword hk]
    constructor
    · intro htells
      refine ⟨fun j hj => ?_, fun hnone => absurd hk.1 (hnone k)⟩
      rw [huniq j hj]
      exact htells
    · exact fun htells => htells.1 k hk
  · rw [wholeWord_of_not_occurs hnone]
    exact ⟨fun htells => ⟨fun j hj => absurd hj.1 (hnone j), fun _ => htells⟩, fun htells => htells.2 hnone⟩

namespace WholeWordWitness

/-- `C:\scatter cat.txt`. -/
def path : WString :=
  wide ['C', ':', '\\', 's', 'c', 'a', 't', 't', 'e', 'r', ' ', 'c', 'a', 't', '.', 't', 'x', 't']

/-- One file. -/
def pool : IndexPool := .ofEntries .c [.ofPath .c path 3 5 0x20]

/-- `cat`. -/
def cat : WString := wide ['c', 'a', 't']

/-- `txt`. -/
def txt : WString := wide ['t', 'x', 't']

/-- Whole words only. -/
def words : SearchOptions := ⟨false, false, true, false⟩

/-- The turns of the one thread. -/
def turns : List Turn := [⟨0, 0⟩, ⟨0, 0⟩, ⟨0, 0⟩]

/-- The name as it is searched. -/
def name : WString := wide ['s', 'c', 'a', 't', 't', 'e', 'r', ' ', 'c', 'a', 't', '.', 't', 'x', 't']

theorem wholeWord_complete_iff_txt :
    (Returned [⟨0, 12, 3⟩] 0 ↔ WholeWordMatch .c words txt name) ↔ FirstTells .c words txt name := by
  have hm : pool.entryMeta[0]? = some ⟨3, 5, 0, 0, 0x20, 18, 15, 3, false⟩ := by decide +kernel
  have hhay : haystack .c words pool ⟨3, 5, 0, 0, 0x20, 18, 15, 3, false⟩ = name := by decide +kernel
  have h := (wholeWord_complete_iff SearchWitness.context txt words pool 10 1 (by decide) (by decide) rfl rfl).2 turns
    [⟨0, 12, 3⟩] (by decide +kernel) (by decide) 0 _ hm rfl
  rw [show SearchWitness.context.locale = Locale.c from rfl, hhay] at h
  exact h

end WholeWordWitness

/-- The name `scatter cat.txt` contains the whole word `cat`, and the search for it returns nothing: its first occurrence is
inside `scatter`. -/
theorem wholeWord_misses_later :
    search SearchWitness.context WholeWordWitness.cat WholeWordWitness.words WholeWordWitness.pool 10 1
        WholeWordWitness.turns = some [] ∧
      (∃ m, WholeWordWitness.pool.entryMeta[0]? = some m ∧ m.deleted = false ∧
        haystack .c WholeWordWitness.words WholeWordWitness.pool m = WholeWordWitness.name) ∧
      WholeWordMatch .c WholeWordWitness.words WholeWordWitness.cat WholeWordWitness.name := by
  refine ⟨by decide +kernel, ⟨⟨3, 5, 0, 0, 0x20, 18, 15, 3, false⟩, by decide +kernel, rfl, by decide +kernel⟩, ?_⟩
  refine .inl ⟨8, ⟨by decide, by decide⟩, ?_, ?_⟩
  · intro k c hk hc
    obtain rfl : k = 7 := by omega
    have hspace : c = 0x20 := by
      rw [show WholeWordWitness.name[7]? = some 0x20 by decide] at hc
      exact (Option.some.inj hc).symm
    rw [hspace]
    decide
  · intro c hc
    have hdot : c = 0x2E := by
      rw [show WholeWordWitness.name[8 + (needleOf .c WholeWordWitness.words WholeWordWitness.cat).length]? = some 0x2E by
        decide] at hc
      exact (Option.some.inj hc).symm
    rw [hdot]
    decide

end WinIndex
