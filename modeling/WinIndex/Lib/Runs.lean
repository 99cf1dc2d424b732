import Mathlib.Tactic
import WinIndex.Lib.Segments

/-!
# Maximal runs between separators

A list is split at the elements a predicate calls separators, and the empty pieces are dropped: what is left are the maximal
runs of other elements. Three descriptions of them agree: `runs`, which splits; `IsRun`, which says which intervals of
positions are runs; `Renders`, which says which lists are made of given pieces with separators around them. `RunsBefore` is
what a scan from left to right knows when it gets to a position, and its rules are the scan's steps.
-/

namespace Runs

open Segments

variable {α : Type*} {sep : α → Bool}

/-- The pieces between separators that are not empty. -/
def runs (sep : α → Bool) (xs : List α) : List (List α) := (xs.splitOnP sep).filter (fun t => !t.isEmpty)

@[simp] theorem runs_nil : runs sep [] = [] := rfl

/-- A separator splits. -/
theorem runs_append_cons (xs ys : List α) {c : α} (hc : sep c = true) :
    runs sep (xs ++ c :: ys) = runs sep xs ++ runs sep ys := by
  rw [runs, List.splitOnP_append_cons xs ys hc, List.filter_append]
  rfl

theorem runs_cons (ys : List α) {c : α} (hc : sep c = true) : runs sep (c :: ys) = runs sep ys :=
  runs_append_cons [] ys hc

theorem runs_concat (xs : List α) {c : α} (hc : sep c = true) : runs sep (xs ++ [c]) = runs sep xs := by
  rw [runs_append_cons xs [] hc, runs_nil, List.append_nil]

/-- Without a separator there is one piece, if anything. -/
theorem runs_of_free {xs : List α} (h : ∀ c ∈ xs, sep c = false) : runs sep xs = if xs = [] then [] else [xs] := by
  rw [runs, List.splitOnP_eq_singleton h]
  cases xs <;> rfl

/-- A piece before a separator comes first. -/
theorem runs_free_append_cons {xs : List α} (ys : List α) {c : α} (hne : xs ≠ []) (h : ∀ c ∈ xs, sep c = false)
    (hc : sep c = true) : runs sep (xs ++ c :: ys) = xs :: runs sep ys := by
  rw [runs_append_cons xs ys hc, runs_of_free h, if_neg hne, List.singleton_append]

/-! ## Pieces with separators around them -/

/-- `xs` is made of the pieces in order, with separators before, between and behind them, at least one between two. -/
inductive Renders (sep : α → Bool) : List (List α) → List α → Prop
  | nil : Renders sep [] []
  | sep {c : α} {ts : List (List α)} {xs : List α} (hc : sep c = true) (h : Renders sep ts xs) : Renders sep ts (c :: xs)
  | last {t : List α} (hne : t ≠ []) (ht : ∀ c ∈ t, sep c = false) : Renders sep [t] t
  | piece {t : List α} {c : α} {ts : List (List α)} {xs : List α} (hne : t ≠ []) (ht : ∀ c ∈ t, sep c = false)
      (hc : sep c = true) (h : Renders sep ts xs) : Renders sep (t :: ts) (t ++ c :: xs)

/-- The pieces are the runs. -/
theorem Renders.runs_eq {ts : List (List α)} {xs : List α} (h : Renders sep ts xs) : runs sep xs = ts := by
  induction h with
  | nil => rfl
  | sep hc _ ih => rw [runs_cons _ hc, ih]
  | last hne ht => rw [runs_of_free ht, if_neg hne]
  | piece hne ht hc _ ih => rw [runs_free_append_cons _ hne ht hc, ih]

/-- A list is its part before the first separator, and from there on nothing or a separator with a rest. -/
theorem exists_free_append (sep : α → Bool) (xs : List α) :
    ∃ t, (∀ c ∈ t, sep c = false) ∧ (xs = t ∨ ∃ c ys, sep c = true ∧ xs = t ++ c :: ys) := by
  induction xs with
  | nil => exact ⟨[], by simp, .inl rfl⟩
  | cons x xs ih =>
    cases hx : sep x with
    | true => exact ⟨[], by simp, .inr ⟨x, xs, hx, rfl⟩⟩
    | false =>
      obtain ⟨t, ht, hxs⟩ := ih
      refine ⟨x :: t, by simpa [hx] using ht, ?_⟩
      rcases hxs with rfl | ⟨c, ys, hc, rfl⟩
      · exact .inl rfl
      · exact .inr ⟨c, ys, hc, rfl⟩

/-- Every list is made of its runs. -/
theorem renders_runs (sep : α → Bool) (xs : List α) : Renders sep (runs sep xs) xs := by
  induction hn : xs.length using Nat.strong_induction_on generalizing xs with
  | _ n ih =>
    obtain ⟨t, ht, rfl | ⟨c, ys, hc, rfl⟩⟩ := exists_free_append sep xs
    · rw [runs_of_free ht]
      split
      · rename_i hnil
        rw [hnil]
        exact .nil
      · rename_i hne
        exact .last hne ht
    · have hys := ih ys.length (by simp at hn; omega) ys rfl
      by_cases hne : t = []
      · rw [hne, List.nil_append, runs_cons _ hc]
        exact .sep hc hys
      · rw [runs_free_append_cons _ hne ht hc]
        exact .piece hne ht hc hys

/-- What is put before a list changes its first run at most. -/
theorem mem_runs_append (ds : List α) {t xs : List α} (h : t ∈ runs sep xs) :
    (runs sep xs).head? = some t ∨ t ∈ runs sep (ds ++ xs) := by
  obtain ⟨u, hu, rfl | ⟨c, ys, hc, rfl⟩⟩ := exists_free_append sep xs
  · rw [runs_of_free hu] at h ⊢
    split at h
    · cases h
    · rename_i hne
      rw [if_neg hne, List.mem_singleton.1 h]
      exact .inl rfl
  · rw [runs_append_cons u ys hc, runs_of_free hu] at h ⊢
    rw [← List.append_assoc, runs_append_cons (ds ++ u) ys hc]
    rcases List.mem_append.1 h with hfirst | hrest
    · split at hfirst
      · cases hfirst
      · rename_i hne
        rw [if_neg hne, List.mem_singleton.1 hfirst]
        exact .inl rfl
    · exact .inr (List.mem_append_right _ hrest)

theorem renders_iff {ts : List (List α)} {xs : List α} : Renders sep ts xs ↔ runs sep xs = ts :=
  ⟨Renders.runs_eq, fun h => h ▸ renders_runs sep xs⟩

/-- A run is not empty and holds no separator. -/
theorem Renders.free {ts : List (List α)} {xs : List α} (h : Renders sep ts xs) :
    ∀ t ∈ ts, t ≠ [] ∧ ∀ c ∈ t, sep c = false := by
  induction h with
  | nil => simp
  | sep _ _ ih => exact ih
  | last hne ht => simpa using ⟨hne, ht⟩
  | piece hne ht _ _ ih => exact List.forall_mem_cons.2 ⟨⟨hne, ht⟩, ih⟩

/-- A run is made of elements of the list. -/
theorem Renders.mem {ts : List (List α)} {xs : List α} (h : Renders sep ts xs) : ∀ t ∈ ts, ∀ c ∈ t, c ∈ xs := by
  induction h with
  | nil => simp
  | sep _ _ ih => exact fun t ht c hc => List.mem_cons_of_mem _ (ih t ht c hc)
  | last _ _ => simp
  | piece _ _ _ _ ih =>
    exact List.forall_mem_cons.2 ⟨fun c hc => List.mem_append_left _ hc,
      fun t ht c hc => List.mem_append_right _ (List.mem_cons_of_mem _ (ih t ht c hc))⟩

/-- The runs, each with a separator behind it, are at most one longer than the list. -/
theorem Renders.sum_length_le {ts : List (List α)} {xs : List α} (h : Renders sep ts xs) :
    (ts.map (fun t => t.length + 1)).sum ≤ xs.length + 1 := by
  induction h with
  | nil => simp
  | sep _ _ ih =>
    rw [List.length_cons]
    omega
  | last _ _ => simp
  | piece _ _ _ _ ih =>
    rw [List.map_cons, List.sum_cons, List.length_append, List.length_cons]
    omega

/-- Pieces with a separator behind each. -/
theorem renders_flatten {ts : List (List α)} {c : α} (hc : sep c = true) (h : ∀ t ∈ ts, t ≠ [] ∧ ∀ c ∈ t, sep c = false) :
    Renders sep ts (ts.map (fun t => t ++ [c])).flatten := by
  induction ts with
  | nil => exact .nil
  | cons t ts ih =>
    rw [List.forall_mem_cons] at h
    rw [List.map_cons, List.flatten_cons, List.append_assoc, List.singleton_append]
    exact .piece h.1.1 h.1.2 hc (ih h.2)

/-! ## Runs as intervals of positions -/

/-- There is a separator at a position. -/
def SepAt (sep : α → Bool) (xs : List α) (k : Nat) : Prop := (xs[k]?).any sep = true

theorem SepAt.exists {xs : List α} {k : Nat} (h : SepAt sep xs k) : ∃ c, xs[k]? = some c ∧ sep c = true :=
  (Option.any_eq_true sep _).1 h

/-- The interval `[i, j)` is a maximal run: not empty, without a separator, and with one at either end, or the list's end. -/
structure IsRun (sep : α → Bool) (xs : List α) (i j : Nat) : Prop where
  lt : i < j
  le : j ≤ xs.length
  free : ∀ k, i ≤ k → k < j → ¬SepAt sep xs k
  left : ∀ k, k + 1 = i → SepAt sep xs k
  right : j < xs.length → SepAt sep xs j

/-- Of two runs the one that ends first ends before the other begins. -/
theorem IsRun.lt_of_lt {xs : List α} {i j i' j' : Nat} (h : IsRun sep xs i j) (h' : IsRun sep xs i' j') (hlt : j < j') :
    j < i' := by
  by_contra hle
  exact h'.free j (by omega) hlt (h.right (by have := h'.le; omega))

/-- Runs that end at one position begin at one. -/
theorem IsRun.start_eq {xs : List α} {i i' j : Nat} (h : IsRun sep xs i j) (h' : IsRun sep xs i' j) : i = i' := by
  have aux : ∀ {a b : Nat}, IsRun sep xs a j → IsRun sep xs b j → ¬a < b := by
    intro a b ha hb hlt
    exact ha.free (b - 1) (by omega) (by have := hb.lt; omega) (hb.left (b - 1) (by omega))
  have h1 := aux h h'
  have h2 := aux h' h
  omega

/-! ## A scan from left to right -/

/-- What a scan knows when it gets to position `n`: the runs that end before `n`, in order, and where the next one starts. -/
structure RunsBefore (sep : α → Bool) (xs : List α) (n : Nat) (spans : List (Nat × Nat)) (start : Nat) : Prop where
  ordered : spans.Pairwise (fun a b => a.2 < b.1)
  mem : ∀ i j, (i, j) ∈ spans ↔ IsRun sep xs i j ∧ j < n
  le : start ≤ n
  left : ∀ k, k + 1 = start → k < xs.length → SepAt sep xs k
  free : ∀ k, start ≤ k → k < n → ¬SepAt sep xs k
  slices : spans.map (fun a => slice xs a.1 (a.2 - a.1)) = runs sep (xs.take start)

namespace RunsBefore

variable {xs : List α} {n start : Nat} {spans : List (Nat × Nat)}

/-- Before the first position there is nothing. -/
theorem zero (sep : α → Bool) (xs : List α) : RunsBefore sep xs 0 [] 0 where
  ordered := .nil
  mem i j := by simp
  le := Nat.le_refl 0
  left k h := by omega
  free k _ h := by omega
  slices := rfl

/-- A position that is no separator is passed over. -/
theorem pass (h : RunsBefore sep xs n spans start) (hn : n < xs.length) (hsep : ¬SepAt sep xs n) :
    RunsBefore sep xs (n + 1) spans start where
  ordered := h.ordered
  mem i j := by
    rw [h.mem i j]
    refine and_congr_right (fun hrun => ⟨fun hlt => by omega, fun hlt => ?_⟩)
    have : j ≠ n := fun heq => hsep (heq ▸ hrun.right (heq ▸ hn))
    omega
  le := Nat.le_succ_of_le h.le
  left := h.left
  free k h1 h2 := by
    by_cases hk : k = n
    · rwa [hk]
    · exact h.free k h1 (by omega)
  slices := h.slices

/-- A run that ends where the scan is starts where the scan says. -/
theorem isRun_iff (h : RunsBefore sep xs n spans start) (hn : n ≤ xs.length) (hbreak : n = xs.length ∨ SepAt sep xs n)
    {i : Nat} : IsRun sep xs i n ↔ i = start ∧ start < n := by
  have hstart : start < n → IsRun sep xs start n := by
    intro hlt
    refine ⟨hlt, hn, h.free, fun k hk => h.left k hk (by omega), fun hlt' => ?_⟩
    exact hbreak.resolve_left (by omega)
  constructor
  · intro hrun
    have hlt : start < n := by
      by_contra hge
      have heq : start = n := Nat.le_antisymm h.le (Nat.not_lt.1 hge)
      have hpos := hrun.lt
      exact hrun.free (n - 1) (by omega) (by omega) (h.left (n - 1) (by omega) (by omega))
    exact ⟨hrun.start_eq (hstart hlt), hlt⟩
  · rintro ⟨rfl, hlt⟩
    exact hstart hlt

/-- The runs up to a separator are those before the part the scan is in, and that part. -/
theorem runs_take_succ (h : RunsBefore sep xs n spans start) (hn : n ≤ xs.length)
    (hbreak : n = xs.length ∨ SepAt sep xs n) :
    runs sep (xs.take (n + 1)) = runs sep (xs.take start) ++ runs sep (slice xs start (n - start)) := by
  have hsplit : xs.take n = xs.take start ++ slice xs start (n - start) := by
    have : start + (n - start) = n := by have := h.le; omega
    rw [slice, ← this, List.take_add, this]
  have htake : runs sep (xs.take (n + 1)) = runs sep (xs.take n) := by
    rcases hbreak with rfl | hsep
    · rw [List.take_of_length_le (Nat.le_succ _), List.take_length]
    · obtain ⟨c, hc, hcs⟩ := hsep.exists
      rw [List.take_add_one, hc]
      exact runs_concat _ hcs
  rw [htake, hsplit]
  rcases Nat.eq_zero_or_pos start with rfl | hpos
  · simp
  · -- the part before ends in a separator
    by_cases hlen : start - 1 < xs.length
    · obtain ⟨c, hc, hcs⟩ := (h.left (start - 1) (by omega) hlen).exists
      have hlast : xs.take start = xs.take (start - 1) ++ [c] := by
        rw [show start = start - 1 + 1 by omega, List.take_add_one, hc]
        rfl
      rw [hlast, List.append_assoc, List.singleton_append, runs_append_cons _ _ hcs, runs_concat _ hcs]
    · have := h.le
      omega

theorem free_slice (h : RunsBefore sep xs n spans start) : ∀ c ∈ slice xs start (n - start), sep c = false := by
  intro c hc
  obtain ⟨k, hk⟩ := List.mem_iff_getElem?.1 hc
  rw [slice, List.getElem?_take, List.getElem?_drop] at hk
  split at hk
  · have := h.free (start + k) (by omega) (by omega)
    rw [SepAt, hk] at this
    simpa using this
  · cases hk

/-- At a separator, or at the end, the part the scan is in is a run if it is not empty. -/
theorem push (h : RunsBefore sep xs n spans start) (hn : n ≤ xs.length) (hbreak : n = xs.length ∨ SepAt sep xs n) :
    RunsBefore sep xs (n + 1) (if start < n then spans ++ [(start, n)] else spans) (n + 1) where
  ordered := by
    split
    · rename_i hlt
      refine List.pairwise_append.2 ⟨h.ordered, List.pairwise_singleton _ _, ?_⟩
      rintro ⟨i, j⟩ hmem b hb
      rw [List.mem_singleton.1 hb]
      obtain ⟨hrun, hjn⟩ := (h.mem i j).1 hmem
      exact hrun.lt_of_lt ((h.isRun_iff hn hbreak).2 ⟨rfl, hlt⟩) hjn
    · exact h.ordered
  mem i j := by
    have hsplit : IsRun sep xs i j ∧ j < n + 1 ↔ (i, j) ∈ spans ∨ (IsRun sep xs i n ∧ j = n) := by
      rw [h.mem i j]
      constructor
      · rintro ⟨hrun, hj⟩
        by_cases hjn : j = n
        · exact .inr ⟨hjn ▸ hrun, hjn⟩
        · exact .inl ⟨hrun, by omega⟩
      · rintro (⟨hrun, hj⟩ | ⟨hrun, rfl⟩)
        · exact ⟨hrun, by omega⟩
        · exact ⟨hrun, by omega⟩
    rw [hsplit, h.isRun_iff hn hbreak]
    split
    · rename_i hlt
      simp [hlt]
    · rename_i hlt
      simp [hlt]
  le := Nat.le_refl _
  left k hk hlt := by
    obtain rfl : k = n := by omega
    exact hbreak.resolve_left (by omega)
  free k h1 h2 := by omega
  slices := by
    rw [h.runs_take_succ hn hbreak, runs_of_free h.free_slice, ← h.slices]
    have hlen : (slice xs start (n - start)).length = n - start := by
      have := h.le
      exact length_slice (by omega)
    split
    · rename_i hlt
      have hne : slice xs start (n - start) ≠ [] := by
        intro hnil
        rw [hnil, List.length_nil] at hlen
        omega
      rw [if_neg hne, List.map_append, List.map_singleton]
    · rename_i hge
      rw [if_pos (List.eq_nil_of_length_eq_zero (by omega)), List.append_nil]

/-- At the end the scan has the runs, all of them and in order. -/
theorem complete (h : RunsBefore sep xs (xs.length + 1) spans (xs.length + 1)) :
    spans.Pairwise (fun a b => a.2 < b.1) ∧ (∀ i j, (i, j) ∈ spans ↔ IsRun sep xs i j) ∧
      spans.map (fun a => slice xs a.1 (a.2 - a.1)) = runs sep xs := by
  refine ⟨h.ordered, fun i j => ?_, ?_⟩
  · rw [h.mem i j]
    exact and_iff_left_of_imp (fun hrun => Nat.lt_succ_of_le hrun.le)
  · rw [h.slices, List.take_of_length_le (Nat.le_succ _)]

end RunsBefore

end Runs
