import Mathlib.Tactic

/-!
# Maps as lists of pairs

A map given by a list of keys and values, the first pair of a key being the one that counts.
-/

namespace Assoc

variable {κ ν : Type*} [BEq κ] [LawfulBEq κ]

/-- What is looked up is a pair of the list. -/
theorem mem_of_lookup {l : List (κ × ν)} {k : κ} {v : ν} (h : l.lookup k = some v) : (k, v) ∈ l := by
  obtain ⟨front, rest, rfl, -⟩ := List.lookup_eq_some_iff.1 h
  simp

/-- Where the keys are different, every pair can be looked up. -/
theorem lookup_of_mem {l : List (κ × ν)} (hnodup : (l.map Prod.fst).Nodup) {k : κ} {v : ν} (h : (k, v) ∈ l) :
    l.lookup k = some v := by
  induction l with
  | nil => cases h
  | cons x l ih =>
    obtain ⟨k', v'⟩ := x
    rw [List.map_cons, List.nodup_cons] at hnodup
    rcases List.mem_cons.1 h with heq | hmem
    · rw [Prod.mk.injEq] at heq
      rw [heq.1, heq.2]
      simp
    · have hne : k ≠ k' := by
        rintro rfl
        exact hnodup.1 (List.mem_map.2 ⟨(k, v), hmem, rfl⟩)
      rw [List.lookup_cons, beq_false_of_ne hne]
      exact ih hnodup.2 hmem

/-- Taking one key out leaves what is under the others. -/
theorem lookup_filter_ne [DecidableEq κ] (l : List (κ × ν)) {k k' : κ} (h : k' ≠ k) :
    (l.filter (fun x => x.1 ≠ k)).lookup k' = l.lookup k' := by
  induction l with
  | nil => rfl
  | cons x l ih =>
    rw [List.filter_cons]
    by_cases hx : x.1 = k
    · have hk : (k' == x.1) = false := beq_eq_false_iff_ne.2 (hx ▸ h)
      rw [if_neg (by simpa using hx), ih, List.lookup_cons, hk]
    · rw [if_pos (by simpa using hx), List.lookup_cons, List.lookup_cons, ih]

end Assoc
