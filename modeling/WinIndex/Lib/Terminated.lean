import Mathlib.Data.List.Basic

/-!
# Blocks of terminated strings

Strings one after the other, each with a terminator behind it and one more terminator behind the last: a reader takes strings
up to the first empty one, and looks at nothing behind it. It finds the strings that were written exactly when none of them is
empty or holds the terminator.
-/

namespace Terminated

variable {α : Type*}

/-- Strings, each with the terminator behind it. -/
def strings (z : α) (items : List (List α)) : List α := (items.map (fun item => item ++ [z])).flatten

/-- Strings up to one that is empty. -/
def block (z : α) (items : List (List α)) : List α := strings z items ++ [z]

variable [DecidableEq α]

/-- The strings up to the first empty one, with `token` read of the first; none when the block has no end. -/
def read (z : α) (token : List α) : List α → Option (List (List α))
  | [] => none
  | c :: cs =>
    if c = z then if token = [] then some [] else (read z [] cs).map (token :: ·)
    else read z (token ++ [c]) cs

variable {z : α}

/-- What has no terminator in it is read as the beginning of a string. -/
theorem read_append {item : List α} (h : z ∉ item) (token rest : List α) :
    read z token (item ++ rest) = read z (token ++ item) rest := by
  induction item generalizing token with
  | nil => rw [List.nil_append, List.append_nil]
  | cons c item ih =>
    rw [List.mem_cons, not_or] at h
    obtain ⟨hc, hitem⟩ := h
    rw [List.cons_append, read, if_neg (Ne.symm hc), ih hitem, List.append_assoc]
    rfl

/-- One string. -/
theorem read_item {item : List α} (hne : item ≠ []) (h : z ∉ item) (rest : List α) :
    read z [] (item ++ z :: rest) = (read z [] rest).map (item :: ·) := by
  rw [read_append h, List.nil_append, read, if_pos rfl, if_neg hne]

/-- The strings are read as they were written; what follows the block is not looked at. -/
theorem read_block {items : List (List α)} (h : ∀ item ∈ items, item ≠ [] ∧ z ∉ item) (rest : List α) :
    read z [] (block z items ++ rest) = some items := by
  induction items with
  | nil => rw [block, strings, List.map_nil, List.flatten_nil, List.nil_append, List.singleton_append, read, if_pos rfl, if_pos rfl]
  | cons item items ih =>
    obtain ⟨⟨hne, hz⟩, hitems⟩ := List.forall_mem_cons.1 h
    have hblock : block z (item :: items) ++ rest = item ++ z :: (block z items ++ rest) := by
      simp [block, strings]
    rw [hblock, read_item hne hz, ih hitems]
    rfl

/-- What is read has no terminator in it and is not empty. -/
theorem of_mem_read {text token : List α} {items : List (List α)} (htoken : z ∉ token) (h : read z token text = some items) :
    ∀ item ∈ items, item ≠ [] ∧ z ∉ item := by
  induction text generalizing token items with
  | nil => nomatch h
  | cons c cs ih =>
    rw [read] at h
    split at h
    · split at h
      · rw [Option.some.injEq] at h
        rw [← h]
        exact fun item hitem => absurd hitem List.not_mem_nil
      · rename_i hne
        obtain ⟨items', hread, rfl⟩ := Option.map_eq_some_iff.1 h
        exact List.forall_mem_cons.2 ⟨⟨hne, htoken⟩, ih List.not_mem_nil hread⟩
    · rename_i hc
      refine ih ?_ h
      rw [List.mem_append, List.mem_singleton]
      exact not_or.2 ⟨htoken, Ne.symm hc⟩

/-- The strings come back exactly when none of them is empty or holds the terminator. -/
theorem read_block_iff (items : List (List α)) (rest : List α) :
    read z [] (block z items ++ rest) = some items ↔ ∀ item ∈ items, item ≠ [] ∧ z ∉ item :=
  ⟨fun h => of_mem_read List.not_mem_nil h, fun h => read_block h rest⟩

end Terminated
