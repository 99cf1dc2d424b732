import WinIndex.Lib.FirstIn
import WinIndex.SimdSearch

/-!
# The substring finders, block by block

What one block's mask says, lane by lane, and from it what each loop of a finder answers: the first position of the part it
covers at which the needle is found (`FirstIn`), with no read outside the haystack.
-/

namespace WinIndex

open Segments

/-! ## Masks with two bits for each lane -/

/-- The mask has both bits of the lanes in `p` set, and no others. -/
def Lanes (mask : Nat) (p : Nat → Bool) : Prop := ∀ b, mask.testBit b = p (b / 2)

theorem testBit_three (b : Nat) : (3 : Nat).testBit b = decide (b < 2) := by
  rcases b with _ | _ | b
  · rfl
  · rfl
  · rw [Nat.testBit_lt_two_pow]
    · simp
    · calc 3 < 2 ^ 2 := by norm_num
        _ ≤ 2 ^ (b + 1 + 1) := Nat.pow_le_pow_right (by norm_num) (by omega)

/-- A block's mask has the lanes that hold the unit. -/
theorem lanes_moveMask (first : WChar) (cs : List WChar) : Lanes (moveMask first cs) (fun l => decide (cs[l]? = some first)) := by
  induction cs with
  | nil =>
    intro b
    simp [moveMask]
  | cons c cs ih =>
    intro b
    have hsplit : moveMask first (c :: cs) = 2 ^ 2 * moveMask first cs + (if c = first then 3 else 0) := by
      rw [moveMask]
      omega
    have hlow : (if c = first then 3 else 0) < 2 ^ 2 := by split <;> decide
    rw [hsplit, Nat.testBit_two_pow_mul_add _ hlow]
    by_cases hb : b < 2
    · rw [if_pos hb, show b / 2 = 0 by omega]
      by_cases hc : c = first
      · simp [hc, testBit_three, hb]
      · simp [hc]
    · rw [if_neg hb, ih (b - 2)]
      obtain ⟨l, hl⟩ : ∃ l, b / 2 = l + 1 := ⟨b / 2 - 1, by omega⟩
      simp only [show (b - 2) / 2 = l by omega, hl, List.getElem?_cons_succ]

theorem Lanes.eq_zero_iff {mask : Nat} {p : Nat → Bool} (h : Lanes mask p) : mask = 0 ↔ ∀ l, p l = false := by
  constructor
  · rintro rfl l
    have := h (2 * l)
    rw [Nat.zero_testBit, show 2 * l / 2 = l by omega] at this
    exact this.symm
  · intro hp
    apply Nat.eq_of_testBit_eq
    intro b
    rw [h b, hp, Nat.zero_testBit]

/-- The lowest set bit of a mask is the lower bit of its first lane. -/
theorem Lanes.lowest {mask : Nat} {p : Nat → Bool} (h : Lanes mask p) {l : Nat} (hl : p l = true)
    (hmin : ∀ k, k < l → p k = false) : Lowest mask (2 * l) := by
  constructor
  · rw [h, show 2 * l / 2 = l by omega, hl]
  · intro j hj
    rw [h, hmin _ (by omega)]

/-- Clearing the lowest bit twice takes the first lane out. -/
theorem Lanes.clearLowest_twice {mask : Nat} {p : Nat → Bool} (h : Lanes mask p) {l : Nat} (hl : p l = true)
    (hmin : ∀ k, k < l → p k = false) : Lanes (clearLowest (clearLowest mask)) (fun k => p k && decide (k ≠ l)) := by
  have hlow := h.lowest hl hmin
  have hnext : Lowest (clearLowest mask) (2 * l + 1) := by
    constructor
    · rw [clearLowest, hlow.testBit_land_pred, h, show (2 * l + 1) / 2 = l by omega, hl]
      simp
    · intro j hj
      rw [clearLowest, hlow.testBit_land_pred]
      by_cases hj' : j = 2 * l
      · simp [hj']
      · rw [hlow.below j (by omega), Bool.false_and]
  intro b
  rw [clearLowest, hnext.testBit_land_pred, clearLowest, hlow.testBit_land_pred, h]
  by_cases hb : b / 2 = l
  · have : b = 2 * l ∨ b = 2 * l + 1 := by omega
    rcases this with rfl | rfl <;> simp [hb]
  · have h1 : b ≠ 2 * l := by omega
    have h2 : b ≠ 2 * l + 1 := by omega
    simp [hb, h1, h2]

/-! ## One finder, loop by loop -/

/-- The needle is found at a position. -/
def MatchesAt (hay needle : WString) (i : Nat) : Prop := slice hay i needle.length = needle

theorem matchesAtPos_eq_true_iff {hay needle : WString} {i : Nat} :
    matchesAtPos hay needle i = true ↔ MatchesAt hay needle i := decide_eq_true_iff

/-- Where the needle is found, the haystack holds its first unit. -/
theorem MatchesAt.getElem?_eq {hay rest : WString} {first : WChar} {i : Nat} (h : MatchesAt hay (first :: rest) i) :
    hay[i]? = some first := by
  have h0 : (slice hay i (first :: rest).length)[0]? = some first := by
    rw [h]
    rfl
  rw [slice, List.getElem?_take_of_lt (by simp), List.getElem?_drop] at h0
  exact h0

/-- The lanes of a block that are still to be tried: those from `k` on that hold the first unit. -/
def lanesFrom (hay : WString) (first : WChar) (p lanes k : Nat) (l : Nat) : Bool :=
  decide (k ≤ l ∧ l < lanes ∧ hay[p + l]? = some first)

/-- A block's mask, before any lane has been tried. -/
theorem lanes_moveMask_slice (hay : WString) (first : WChar) (p lanes : Nat) :
    Lanes (moveMask first (slice hay p lanes)) (lanesFrom hay first p lanes 0) := by
  intro b
  rw [lanes_moveMask, lanesFrom, slice, decide_eq_decide]
  by_cases hb : b / 2 < lanes
  · rw [List.getElem?_take_of_lt hb, List.getElem?_drop]
    simp [hb]
  · rw [List.getElem?_take_eq_none (by omega)]
    simp [hb]

/-- A mask with a lane left has a first one. -/
theorem exists_first_lane {p : Nat → Bool} (h : ¬∀ l, p l = false) : ∃ l, p l = true ∧ ∀ k, k < l → p k = false := by
  simp only [not_forall, Bool.not_eq_false] at h
  refine ⟨Nat.find h, Nat.find_spec h, ?_⟩
  intro k hk
  simpa using Nat.find_min h hk

/-- Trying a lane leaves the lanes behind it. -/
theorem lanesFrom_succ {hay : WString} {first : WChar} {p lanes k l : Nat} {mask : Nat}
    (hm : Lanes mask (fun j => lanesFrom hay first p lanes k j && decide (j ≠ l)))
    (hl : lanesFrom hay first p lanes k l = true) (hmin : ∀ j, j < l → lanesFrom hay first p lanes k j = false) :
    Lanes mask (lanesFrom hay first p lanes (l + 1)) := by
  intro b
  rw [hm b, Bool.eq_iff_iff]
  simp only [Bool.and_eq_true, lanesFrom, decide_eq_true_eq, decide_eq_false_iff_not] at hl hmin ⊢
  constructor
  · rintro ⟨⟨h1, h2, h3⟩, h4⟩
    refine ⟨?_, h2, h3⟩
    have : ¬b / 2 < l := fun hlt => hmin _ hlt ⟨h1, h2, h3⟩
    omega
  · rintro ⟨h1, h2, h3⟩
    exact ⟨⟨by omega, h2, h3⟩, by omega⟩

/-- The loop over a block's mask answers for the lanes from `k` on, and reads the haystack only where the needle fits. -/
theorem scanMaskReading_spec {hay rest : WString} {first : WChar} {p lanes : Nat} (hlanes : lanes ≤ 16)
    (hfit : p + lanes + (first :: rest).length ≤ hay.length + 1) (passes k mask : Nat)
    (hm : Lanes mask (lanesFrom hay first p lanes k)) (hpasses : lanes ≤ k + passes) :
    scanMaskReading hay (first :: rest) p passes mask = .go (scanMask hay (first :: rest) p passes mask) ∧
      FirstIn (MatchesAt hay (first :: rest)) (p + k) (p + lanes) (scanMask hay (first :: rest) p passes mask) := by
  have hnone : ∀ j l, (∀ i, i < l → lanesFrom hay first p lanes j i = false) → l ≤ lanes →
      FirstIn (MatchesAt hay (first :: rest)) (p + j) (p + l) none := by
    intro j l hl hle i h1 h2 hmatch
    have := hl (i - p) (by omega)
    simp only [lanesFrom, decide_eq_false_iff_not, show p + (i - p) = i by omega] at this
    exact this ⟨by omega, by omega, hmatch.getElem?_eq⟩
  induction passes generalizing k mask with
  | zero =>
    refine ⟨rfl, FirstIn.empty ?_⟩
    omega
  | succ passes ih =>
    rw [scanMaskReading, scanMask]
    by_cases hzero : mask = 0
    · rw [if_pos hzero, if_pos hzero]
      exact ⟨rfl, hnone k lanes (fun i _ => hm.eq_zero_iff.1 hzero i) (le_refl _)⟩
    · rw [if_neg hzero, if_neg hzero]
      obtain ⟨l, hl, hmin⟩ := exists_first_lane (fun h => hzero (hm.eq_zero_iff.2 h))
      obtain ⟨hkl, hllanes, -⟩ : k ≤ l ∧ l < lanes ∧ hay[p + l]? = some first := by
        simpa only [lanesFrom, decide_eq_true_eq] using hl
      have hoff : bitScanForward mask / 2 = l := by
        rw [bitScanForward, (hm.lowest hl hmin).find_range (by omega)]
        simp
      have hread : ¬hay.length < p + l + (first :: rest).length := by omega
      have hrest := ih (l + 1) _ (lanesFrom_succ (hm.clearLowest_twice hl hmin) hl hmin) (by omega)
      simp only [hoff, readUnits, Run.hazardIf_of_not hread, Run.go_bind, Run.pure_eq]
      by_cases hmatch : slice hay (p + l) (first :: rest).length = first :: rest
      · rw [if_pos hmatch, if_pos (matchesAtPos_eq_true_iff.2 hmatch)]
        refine ⟨rfl, (hnone k l hmin (by omega)).append (by omega) (FirstIn.here (by omega) hmatch)⟩
      · rw [if_neg hmatch, if_neg (fun h => hmatch (matchesAtPos_eq_true_iff.1 h))]
        refine ⟨hrest.1, (hnone k l hmin (by omega)).append (by omega) (FirstIn.step hmatch ?_)⟩
        rw [Nat.add_assoc]
        exact hrest.2

/-- The loop over single units answers for the positions left. -/
theorem scanTailReading_spec {hay needle : WString} (hne : needle ≠ []) (left p : Nat)
    (hfit : p + left + needle.length ≤ hay.length + 1) :
    scanTailReading hay needle left p = .go (scanTail hay needle left p) ∧
      FirstIn (MatchesAt hay needle) p (p + left) (scanTail hay needle left p) := by
  obtain ⟨first, rest, rfl⟩ := List.exists_cons_of_ne_nil hne
  induction left generalizing p with
  | zero => exact ⟨rfl, FirstIn.empty (by omega)⟩
  | succ left ih =>
    have hlen : (first :: rest).length = rest.length + 1 := List.length_cons
    have hrest := ih (p + 1) (by omega)
    rw [show p + 1 + left = p + (left + 1) by omega] at hrest
    have h1 : ¬hay.length < p + 1 := by omega
    have h2 : ¬hay.length < p + (first :: rest).length := by omega
    have hunit : slice hay p 1 = slice (first :: rest) 0 1 ↔ hay[p]? = some first := by
      have hp : p < hay.length := by omega
      rw [slice, slice, List.drop_eq_getElem_cons hp, List.getElem?_eq_getElem hp, List.take_succ_cons, List.take_zero]
      simp
    rw [scanTailReading, scanTail]
    simp only [readUnits, Run.hazardIf_of_not h1, Run.hazardIf_of_not h2, Run.go_bind, Run.pure_eq, hunit,
      List.getElem?_cons_zero]
    by_cases hmatch : slice hay p (first :: rest).length = first :: rest
    · have hfirst := MatchesAt.getElem?_eq hmatch
      rw [if_pos hfirst, if_pos hmatch, if_pos ⟨hfirst, matchesAtPos_eq_true_iff.2 hmatch⟩]
      exact ⟨rfl, FirstIn.here (by omega) hmatch⟩
    · have hpos : ¬(hay[p]? = some first ∧ matchesAtPos hay (first :: rest) p = true) :=
        fun h => hmatch (matchesAtPos_eq_true_iff.1 h.2)
      rw [if_neg hmatch, ite_self, if_neg hpos]
      exact ⟨hrest.1, FirstIn.step hmatch hrest.2⟩

/-- The loop over the blocks answers for the positions from `p` on. -/
theorem scanBlocksReading_spec {hay rest : WString} {first : WChar} {lanes last : Nat} (hlanes : lanes ≤ 16)
    (hlast : last + (first :: rest).length ≤ hay.length + 1) (passes p : Nat) (hp : p ≤ last) :
    scanBlocksReading lanes hay (first :: rest) first last passes p =
        .go (scanBlocks lanes hay (first :: rest) first last passes p) ∧
      FirstIn (MatchesAt hay (first :: rest)) p last (scanBlocks lanes hay (first :: rest) first last passes p) := by
  have htail : ∀ p, p ≤ last → scanTailReading hay (first :: rest) (last - p) p =
        .go (scanTail hay (first :: rest) (last - p) p) ∧
      FirstIn (MatchesAt hay (first :: rest)) p last (scanTail hay (first :: rest) (last - p) p) := by
    intro p hp
    have hfit : p + (last - p) + (first :: rest).length ≤ hay.length + 1 := by omega
    have := scanTailReading_spec (List.cons_ne_nil first rest) (last - p) p hfit
    rwa [show p + (last - p) = last by omega] at this
  induction passes generalizing p with
  | zero => exact htail p hp
  | succ passes ih =>
    rw [scanBlocksReading, scanBlocks]
    by_cases hblock : p + lanes ≤ last
    · have hlen : (first :: rest).length = rest.length + 1 := List.length_cons
      have hread : ¬hay.length < p + lanes := by omega
      have hfit : p + lanes + (first :: rest).length ≤ hay.length + 1 := by omega
      obtain ⟨hmask, hfirst⟩ := scanMaskReading_spec hlanes hfit lanes 0 _ (lanes_moveMask_slice hay first p lanes) (by omega)
      rw [if_pos hblock, if_pos hblock]
      simp only [readUnits, Run.hazardIf_of_not hread, Run.go_bind, Run.pure_eq, hmask]
      rcases hres : scanMask hay (first :: rest) p lanes (moveMask first (slice hay p lanes)) with _ | pos
      · rw [hres] at hfirst
        obtain ⟨h1, h2⟩ := ih (p + lanes) hblock
        exact ⟨h1, FirstIn.append hfirst (by omega) h2⟩
      · rw [hres] at hfirst
        exact ⟨rfl, FirstIn.extend hfirst hblock⟩
    · rw [if_neg hblock, if_neg hblock]
      exact htail p hp

/-! ## The scalar finder -/

/-- The inner loop compares the rest of the needle, both texts folded. -/
theorem foldedMatch_eq (Γ : Locale) {hay needle : WString} {i : Nat} (hfit : i + needle.length ≤ hay.length) (left j : Nat)
    (hj : j + left = needle.length) : foldedMatch Γ hay needle i left j =
      .go (decide (slice (Γ.lower hay) (i + j) left = (Γ.lower needle).drop j)) := by
  induction left generalizing j with
  | zero =>
    have : (Γ.lower needle).drop j = [] := List.drop_eq_nil_of_le (by rw [Γ.length_lower]; omega)
    rw [foldedMatch, this]
    simp [slice_zero_len]
  | succ left ih =>
    have hread : ¬hay.length < i + j + 1 := by omega
    have hh : i + j < (Γ.lower hay).length := by
      rw [Γ.length_lower]
      omega
    have hn : j < (Γ.lower needle).length := by
      rw [Γ.length_lower]
      omega
    have hunit : ((slice hay (i + j) 1).map Γ.towlower = (slice needle j 1).map Γ.towlower) ↔
        (Γ.lower hay)[i + j] = (Γ.lower needle)[j] := by
      rw [slice, slice, List.map_take, List.map_drop, List.map_take, List.map_drop]
      show (List.drop (i + j) (Γ.lower hay)).take 1 = (List.drop j (Γ.lower needle)).take 1 ↔ _
      rw [List.drop_eq_getElem_cons hh, List.drop_eq_getElem_cons hn]
      simp only [List.take_succ_cons, List.take_zero, List.cons.injEq, and_true]
    have hstep : slice (Γ.lower hay) (i + j) (left + 1) = (Γ.lower needle).drop j ↔
        (Γ.lower hay)[i + j] = (Γ.lower needle)[j] ∧
          slice (Γ.lower hay) (i + (j + 1)) left = (Γ.lower needle).drop (j + 1) := by
      rw [slice, List.drop_eq_getElem_cons hh, List.drop_eq_getElem_cons hn, List.take_succ_cons, List.cons.injEq, slice,
        Nat.add_assoc]
    rw [foldedMatch]
    simp only [readUnits, Run.hazardIf_of_not hread, Run.go_bind, Run.pure_eq, ne_eq, hunit]
    by_cases heq : (Γ.lower hay)[i + j] = (Γ.lower needle)[j]
    · rw [if_neg (not_not.2 heq), ih (j + 1) (by omega)]
      simp [hstep, heq]
    · rw [if_pos heq]
      simp [hstep, heq]

/-- The outer loop answers for the positions left, both texts folded, without a read outside the haystack. -/
theorem scalarScan_spec (Γ : Locale) {hay needle : WString} (left i : Nat)
    (hfit : i + left + needle.length ≤ hay.length + 1) : ∃ r, scalarScan Γ hay needle left i = .go r ∧
      FirstIn (MatchesAt (Γ.lower hay) (Γ.lower needle)) i (i + left) r := by
  induction left generalizing i with
  | zero => exact ⟨none, rfl, FirstIn.empty (by omega)⟩
  | succ left ih =>
    have hmatch : foldedMatch Γ hay needle i needle.length 0 =
        .go (decide (slice (Γ.lower hay) i (Γ.lower needle).length = Γ.lower needle)) := by
      rw [foldedMatch_eq Γ (by omega) needle.length 0 (by omega)]
      simp
    rw [scalarScan, hmatch]
    simp only [Run.go_bind, Run.pure_eq, decide_eq_true_eq]
    by_cases h : slice (Γ.lower hay) i (Γ.lower needle).length = Γ.lower needle
    · rw [if_pos h]
      exact ⟨some i, rfl, FirstIn.here (by omega) h⟩
    · rw [if_neg h]
      obtain ⟨r, hr, hfirst⟩ := ih (i + 1) (by omega)
      rw [show i + 1 + left = i + (left + 1) by omega] at hfirst
      exact ⟨r, hr, FirstIn.step h hfirst⟩

end WinIndex
