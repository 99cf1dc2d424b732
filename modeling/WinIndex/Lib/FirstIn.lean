import Mathlib.Tactic

/-!
# The first position that holds

A search over an interval of positions answers with the first one that has a property, or with nothing. `FirstIn P lo hi r`
says that `r` is the right answer for `[lo, hi)`; the rules put the answers for parts of an interval together, so that a
search that goes by blocks and one that goes by single positions are measured against one statement. The set bits of a number,
taken from the lowest one on, are such a search: `Lowest` is a number's lowest set bit, and `x &&& (x - 1)` clears it.
-/

/-- `r` is the first position of `[lo, hi)` at which `P` holds, or nothing where there is none. -/
def FirstIn (P : Nat → Prop) (lo hi : Nat) : Option Nat → Prop
  | some i => lo ≤ i ∧ i < hi ∧ P i ∧ ∀ j, lo ≤ j → j < i → ¬P j
  | none => ∀ j, lo ≤ j → j < hi → ¬P j

namespace FirstIn

variable {P : Nat → Prop} {lo mid hi i : Nat} {r r' : Option Nat}

/-- Nothing is found in an empty interval. -/
theorem empty (h : hi ≤ lo) : FirstIn P lo hi none := by
  intro j h1 h2
  omega

/-- The first position may be the answer at once. -/
theorem here (h : lo < hi) (hP : P lo) : FirstIn P lo hi (some lo) := by
  refine ⟨le_refl lo, h, hP, ?_⟩
  intro j h1 h2
  omega

/-- An answer for the first part of an interval is one for the whole. -/
theorem extend (h : FirstIn P lo mid (some i)) (hm : mid ≤ hi) : FirstIn P lo hi (some i) := by
  obtain ⟨h1, h2, hP, hmin⟩ := h
  exact ⟨h1, by omega, hP, hmin⟩

/-- Where the first part of an interval holds nothing, the answer is that of the second part. -/
theorem append (h : FirstIn P lo mid none) (hl : lo ≤ mid) (h' : FirstIn P mid hi r) : FirstIn P lo hi r := by
  rcases r with _ | i
  · intro j h1 h2
    by_cases hj : j < mid
    · exact h j h1 hj
    · exact h' j (by omega) h2
  · obtain ⟨h1, h2, hP, hmin⟩ := h'
    refine ⟨by omega, h2, hP, ?_⟩
    intro j h3 h4
    by_cases hj : j < mid
    · exact h j h3 hj
    · exact hmin j (by omega) h4

/-- A position that does not have the property is passed over. -/
theorem step (hP : ¬P lo) (h : FirstIn P (lo + 1) hi r) : FirstIn P lo hi r := by
  have hnone : FirstIn P lo (lo + 1) none := by
    intro j h1 h2
    have : j = lo := by omega
    rwa [this]
  exact append hnone (Nat.le_succ lo) h

/-- There is one answer. -/
theorem unique (h : FirstIn P lo hi r) (h' : FirstIn P lo hi r') : r = r' := by
  rcases r with _ | i <;> rcases r' with _ | i'
  · rfl
  · obtain ⟨h1, h2, hP, -⟩ := h'
    exact absurd hP (h i' h1 h2)
  · obtain ⟨h1, h2, hP, -⟩ := h
    exact absurd hP (h' i h1 h2)
  · obtain ⟨h1, -, hP, hmin⟩ := h
    obtain ⟨h1', -, hP', hmin'⟩ := h'
    have h2 : ¬i < i' := fun hlt => hmin' i h1 hlt hP
    have h3 : ¬i' < i := fun hlt => hmin i' h1' hlt hP'
    rw [show i = i' by omega]

/-- Properties that agree on the interval have the same answers. -/
theorem congr {Q : Nat → Prop} (hPQ : ∀ j, lo ≤ j → j < hi → (P j ↔ Q j)) (h : FirstIn P lo hi r) : FirstIn Q lo hi r := by
  rcases r with _ | i
  · intro j h1 h2 hQ
    exact h j h1 h2 ((hPQ j h1 h2).2 hQ)
  · obtain ⟨h1, h2, hP, hmin⟩ := h
    refine ⟨h1, h2, (hPQ i h1 h2).1 hP, ?_⟩
    intro j h3 h4 hQ
    exact hmin j h3 h4 ((hPQ j h3 (by omega)).2 hQ)

end FirstIn

/-! ## Set bits, from the lowest on -/

/-- `i` is the lowest set bit of `x`. -/
structure Lowest (x i : Nat) : Prop where
  set : x.testBit i = true
  below : ∀ j, j < i → x.testBit j = false

/-- The lowest set bit is what a search through the bits finds. -/
theorem Lowest.find_range {x i : Nat} (h : Lowest x i) {n : Nat} (hi : i < n) : (List.range n).find? x.testBit = some i := by
  rw [List.find?_range_eq_some]
  refine ⟨h.set, List.mem_range.2 hi, ?_⟩
  intro j hj
  rw [h.below j hj]
  rfl

/-- `x &&& (x - 1)` clears the lowest set bit and no other. -/
theorem Lowest.testBit_land_pred {x i : Nat} (h : Lowest x i) (j : Nat) :
    (x &&& (x - 1)).testBit j = (x.testBit j && decide (j ≠ i)) := by
  induction i generalizing x j with
  | zero =>
    have hodd : x % 2 = 1 := by simpa [Nat.testBit_zero] using h.set
    rw [Nat.testBit_and]
    rcases j with _ | j
    · have : (x - 1) % 2 = 0 := by omega
      simp [Nat.testBit_zero, this]
    · rw [Nat.testBit_succ, Nat.testBit_succ, show (x - 1) / 2 = x / 2 by omega]
      simp
  | succ i ih =>
    have heven : x % 2 = 0 := by
      have := h.below 0 (Nat.succ_pos i)
      rw [Nat.testBit_zero] at this
      simpa using this
    have hhalf : Lowest (x / 2) i := by
      constructor
      · rw [← Nat.testBit_succ]
        exact h.set
      · intro k hk
        rw [← Nat.testBit_succ]
        exact h.below (k + 1) (by omega)
    rcases j with _ | j
    · simp [Nat.testBit_zero, heven]
    · have hih := ih hhalf j
      rw [Nat.testBit_and] at hih ⊢
      rw [Nat.testBit_succ, Nat.testBit_succ, show (x - 1) / 2 = x / 2 - 1 by omega, hih]
      simp
