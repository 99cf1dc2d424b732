import WinIndex.Lemmas.Find

/-!
# The substring finders and the plain definition

`Avx2Find` and `Sse2Find` return the first position at which the needle stands in the haystack, and `npos` when it stands
nowhere; they never read a unit behind the haystack's end. `ScalarFindInsensitive` returns what either returns on the two
texts folded to lower case.
-/

namespace WinIndex

open Segments

/-- The needle stands in the haystack at `i`. -/
def OccursAt (hay needle : WString) (i : Nat) : Prop :=
  i + needle.length ≤ hay.length ∧ slice hay i needle.length = needle

/-- The plain definition of a substring search: the least position at which the needle stands, or none. The empty needle stands
at 0. -/
def FirstOccurrence (hay needle : WString) : Option Nat → Prop
  | some i => OccursAt hay needle i ∧ ∀ j, j < i → ¬OccursAt hay needle j
  | none => ∀ i, ¬OccursAt hay needle i

/-- There is one first occurrence. -/
theorem FirstOccurrence.unique {hay needle : WString} {r r' : Option Nat} (h : FirstOccurrence hay needle r)
    (h' : FirstOccurrence hay needle r') : r = r' := by
  rcases r with _ | i <;> rcases r' with _ | i'
  · rfl
  · exact absurd h'.1 (h i')
  · exact absurd h.1 (h' i)
  · have h1 : ¬i < i' := fun hlt => h'.2 i hlt h.1
    have h2 : ¬i' < i := fun hlt => h.2 i' hlt h'.1
    rw [show i = i' by omega]

/-- The empty needle stands at the start. -/
theorem firstOccurrence_nil (hay : WString) : FirstOccurrence hay [] (some 0) := by
  constructor
  · exact ⟨Nat.zero_le _, slice_zero_len _ _⟩
  · intro j hj
    omega

/-- A needle longer than the haystack stands nowhere. -/
theorem firstOccurrence_of_longer {hay needle : WString} (h : hay.length < needle.length) : FirstOccurrence hay needle none := by
  rintro i ⟨hi, -⟩
  omega

/-- An answer for all positions at which the needle fits is the first occurrence. -/
theorem firstOccurrence_of_firstIn {hay needle : WString} {r : Option Nat} (hle : needle.length ≤ hay.length)
    (h : FirstIn (MatchesAt hay needle) 0 (hay.length - needle.length + 1) r) : FirstOccurrence hay needle r := by
  rcases r with _ | i
  · rintro i ⟨hi, hmatch⟩
    exact h i (Nat.zero_le i) (by omega) hmatch
  · obtain ⟨-, hi, hmatch, hmin⟩ := h
    refine ⟨⟨by omega, hmatch⟩, ?_⟩
    rintro j hj ⟨-, hmatch'⟩
    exact hmin j (Nat.zero_le j) hj hmatch'

/-- A finder with up to sixteen lanes returns the first occurrence, and its reads stay inside the haystack. -/
theorem blockFindReading_spec {lanes : Nat} (hlanes : lanes ≤ 16) (hay needle : WString) :
    blockFindReading lanes hay needle = .go (blockFind lanes hay needle) ∧
      FirstOccurrence hay needle (blockFind lanes hay needle) := by
  rcases needle with _ | ⟨first, rest⟩
  · exact ⟨rfl, firstOccurrence_nil hay⟩
  · rw [blockFindReading, blockFind]
    by_cases hlong : hay.length < (first :: rest).length
    · rw [if_pos hlong, if_pos hlong]
      exact ⟨rfl, firstOccurrence_of_longer hlong⟩
    · rw [if_neg hlong, if_neg hlong]
      have hlast : hay.length - (first :: rest).length + 1 + (first :: rest).length ≤ hay.length + 1 := by omega
      obtain ⟨hreads, hfirst⟩ := scanBlocksReading_spec hlanes hlast (hay.length - (first :: rest).length + 1) 0 (Nat.zero_le _)
      exact ⟨hreads, firstOccurrence_of_firstIn (by omega) hfirst⟩

/-- The scalar finder returns the first occurrence of the folded needle in the folded haystack. -/
theorem scalarFindInsensitive_spec (Γ : Locale) (hay needle : WString) :
    ∃ r, scalarFindInsensitive Γ hay needle = .go r ∧ FirstOccurrence (Γ.lower hay) (Γ.lower needle) r := by
  unfold scalarFindInsensitive
  by_cases hempty : needle.length = 0
  · rw [if_pos hempty, List.eq_nil_of_length_eq_zero hempty, Γ.lower_nil]
    exact ⟨some 0, rfl, firstOccurrence_nil _⟩
  · rw [if_neg hempty]
    by_cases hlong : hay.length < needle.length
    · rw [if_pos hlong]
      exact ⟨none, rfl, firstOccurrence_of_longer (by simpa using hlong)⟩
    · rw [if_neg hlong]
      have hfit : 0 + (hay.length - needle.length + 1) + needle.length ≤ hay.length + 1 := by omega
      obtain ⟨r, hr, hfirst⟩ := scalarScan_spec Γ _ 0 hfit
      refine ⟨r, hr, firstOccurrence_of_firstIn ?_ ?_⟩
      · simpa using Nat.le_of_not_lt hlong
      · simpa using hfirst

/-- The scalar finder returns what a finder with lanes returns on the folded texts. -/
theorem scalarFindInsensitive_eq_blockFind {lanes : Nat} (hlanes : lanes ≤ 16) (Γ : Locale) (hay needle : WString) :
    scalarFindInsensitive Γ hay needle = .go (blockFind lanes (Γ.lower hay) (Γ.lower needle)) := by
  obtain ⟨r, hr, hfirst⟩ := scalarFindInsensitive_spec Γ hay needle
  rw [hr, hfirst.unique (blockFindReading_spec hlanes (Γ.lower hay) (Γ.lower needle)).2]

/-- All finders agree with the plain definition, for every haystack and needle: `Avx2Find` and `Sse2Find` meet no read outside
the haystack and return the first occurrence, and `ScalarFindInsensitive` returns what they return on the folded texts. -/
theorem finders_agree (Γ : Locale) (hay needle : WString) :
    (avx2FindReading hay needle = .go (avx2Find hay needle) ∧ FirstOccurrence hay needle (avx2Find hay needle)) ∧
    (sse2FindReading hay needle = .go (sse2Find hay needle) ∧ FirstOccurrence hay needle (sse2Find hay needle)) ∧
    scalarFindInsensitive Γ hay needle = .go (avx2Find (Γ.lower hay) (Γ.lower needle)) ∧
    scalarFindInsensitive Γ hay needle = .go (sse2Find (Γ.lower hay) (Γ.lower needle)) :=
  ⟨blockFindReading_spec (by decide) hay needle, blockFindReading_spec (by decide) hay needle,
    scalarFindInsensitive_eq_blockFind (by decide) Γ hay needle, scalarFindInsensitive_eq_blockFind (by decide) Γ hay needle⟩

end WinIndex
