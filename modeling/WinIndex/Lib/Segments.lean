import Mathlib.Tactic
import Mathlib.Data.List.Basic
import Mathlib.Data.List.Infix

/-!
# Segments laid end to end

A flat pool holds many texts one after the other and addresses each by an offset and a length. Here is what that layout
gives: the text at the sum of the earlier lengths is the segment itself, appending leaves every earlier view as it was, and
reading a text off with running offsets gives a list of segments back exactly when their concatenation is a prefix of it.
-/

namespace Segments

variable {α : Type*}

/-- The part of `xs` of length `len` that starts at `off`. -/
def slice (xs : List α) (off len : Nat) : List α := (xs.drop off).take len

theorem slice_zero_len (xs : List α) (off : Nat) : slice xs off 0 = [] := by
  simp [slice]

/-- A slice that lies inside has the length asked for. -/
theorem length_slice {xs : List α} {off len : Nat} (h : off + len ≤ xs.length) : (slice xs off len).length = len := by
  simp only [slice, List.length_take, List.length_drop]
  omega

/-- What is appended behind a slice does not change it. -/
theorem slice_append_left {xs : List α} (ys : List α) {off len : Nat} (h : off + len ≤ xs.length) :
    slice (xs ++ ys) off len = slice xs off len := by
  unfold slice
  rw [List.drop_append_of_le_length (by omega), List.take_append_of_le_length]
  rw [List.length_drop]
  omega

/-- The slice at the end of a list is what was appended to it. -/
theorem slice_append_self (xs ys : List α) : slice (xs ++ ys) xs.length ys.length = ys := by
  simp [slice]

/-- A slice behind a prefix is a slice of the rest. -/
theorem slice_append_add (xs ys : List α) (off len : Nat) : slice (xs ++ ys) (xs.length + off) len = slice ys off len := by
  rw [slice, ← List.drop_drop, List.drop_left, slice]

/-- A slice from behind a prefix on does not see it. -/
theorem slice_append_right (xs ys : List α) {off : Nat} (len : Nat) (h : xs.length ≤ off) :
    slice (xs ++ ys) off len = slice ys (off - xs.length) len := by
  obtain ⟨k, rfl⟩ : ∃ k, off = xs.length + k := ⟨off - xs.length, by omega⟩
  rw [slice_append_add, Nat.add_sub_cancel_left]

/-- The slice at the start of a list is a prefix of that length. -/
theorem slice_append_here (xs ys : List α) {len : Nat} (h : xs.length = len) : slice (xs ++ ys) 0 len = xs := by
  rw [← h, slice, List.drop_zero, List.take_left]

theorem drop_slice (xs : List α) (off len n : Nat) : (slice xs off len).drop n = slice xs (off + n) (len - n) := by
  simp [slice, List.drop_take, List.drop_drop]

/-! ## Offsets -/

/-- The offset of segment `i`: the sum of the lengths of the segments before it. -/
def offset (xss : List (List α)) (i : Nat) : Nat := ((xss.take i).map List.length).sum

theorem offset_cons_succ (xs : List α) (xss : List (List α)) (i : Nat) :
    offset (xs :: xss) (i + 1) = xs.length + offset xss i := by
  simp [offset]

theorem offset_eq_length_flatten (xss : List (List α)) (i : Nat) : offset xss i = (xss.take i).flatten.length := by
  simp [offset, List.length_flatten]

/-- The offset past the last segment is the length of the whole. -/
theorem offset_length (xss : List (List α)) : offset xss xss.length = xss.flatten.length := by
  rw [offset_eq_length_flatten, List.take_length]

/-- Offsets of the segments already there do not move when one is appended. -/
theorem offset_append {xss : List (List α)} (yss : List (List α)) {i : Nat} (h : i ≤ xss.length) :
    offset (xss ++ yss) i = offset xss i := by
  rw [offset, List.take_append_of_le_length h, offset]

/-- A segment lies inside the flat list. -/
theorem offset_add_length_le (xss : List (List α)) {i : Nat} (h : i < xss.length) :
    offset xss i + xss[i].length ≤ xss.flatten.length := by
  induction xss generalizing i with
  | nil => simp at h
  | cons xs xss ih =>
    cases i with
    | zero => simp [offset]
    | succ i =>
      have h' : i < xss.length := by simpa using h
      rw [offset_cons_succ, List.flatten_cons, List.length_append, List.getElem_cons_succ]
      have := ih h'
      omega

/-- The text at the offset of a segment is the segment. -/
theorem slice_flatten (xss : List (List α)) {i : Nat} (h : i < xss.length) :
    slice xss.flatten (offset xss i) xss[i].length = xss[i] := by
  induction xss generalizing i with
  | nil => simp at h
  | cons xs xss ih =>
    cases i with
    | zero => simp [slice, offset]
    | succ i =>
      have h' : i < xss.length := by simpa using h
      rw [offset_cons_succ, List.flatten_cons, slice_append_add, List.getElem_cons_succ]
      exact ih h'

/-! ## Cutting a text into segments -/

/-- The segments a reader cuts off a text that knows only their lengths. -/
def cut : List Nat → List α → List (List α)
  | [], _ => []
  | n :: ns, xs => xs.take n :: cut ns (xs.drop n)

theorem length_cut (ns : List Nat) (xs : List α) : (cut ns xs).length = ns.length := by
  induction ns generalizing xs with
  | nil => rfl
  | cons n ns ih => simp [cut, ih]

/-- Reading the lengths of `yss` off a text gives `yss` exactly when the text starts with all of them in order. -/
theorem cut_eq_iff (yss : List (List α)) (xs : List α) : cut (yss.map List.length) xs = yss ↔ yss.flatten <+: xs := by
  induction yss generalizing xs with
  | nil => simp [cut]
  | cons ys yss ih =>
    simp only [List.map_cons, cut, List.cons.injEq, ih, List.flatten_cons]
    constructor
    · rintro ⟨h1, h2⟩
      obtain ⟨t, ht⟩ := h2
      refine ⟨t, ?_⟩
      rw [List.append_assoc, ht]
      nth_rewrite 1 [← h1]
      exact List.take_append_drop _ _
    · rintro ⟨t, rfl⟩
      rw [List.append_assoc]
      refine ⟨by simp, ?_⟩
      rw [List.drop_left]
      exact List.prefix_append _ _

end Segments
