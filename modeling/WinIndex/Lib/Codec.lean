import Mathlib.Data.List.Basic
import Mathlib.Data.List.Infix

/-!
# Texts that say where they end

A reader takes a value off the front of a text and leaves the rest. A way of writing values can be read one behind the other when
the reader takes each off its text whatever stands behind; sequences of such texts are read by the readers in sequence, and a
list of such values by one reader again and again.
-/

namespace Codec

variable {β α γ : Type}

/-- What takes a value off the front of a text. -/
abbrev Reader (β α : Type) := StateT (List β) Option α

/-- The reader takes `x` off `w`, whatever stands behind it. -/
def Takes (p : Reader β α) (w : List β) (x : α) : Prop := ∀ rest, p (w ++ rest) = some (x, rest)

theorem takes_pure (x : α) : Takes (pure x : Reader β α) [] x := fun _ => rfl

theorem takes_lift (x : α) : Takes (liftM (some x) : Reader β α) [] x := fun _ => rfl

/-- One text behind the other. -/
theorem Takes.bind {p : Reader β α} {f : α → Reader β γ} {w w' : List β} {x : α} {y : γ} (hp : Takes p w x)
    (hf : Takes (f x) w' y) : Takes (p >>= f) (w ++ w') y := by
  intro rest
  show (p (w ++ w' ++ rest)).bind (fun r => f r.1 r.2) = _
  rw [List.append_assoc, hp (w' ++ rest), Option.bind_some, hf rest]

/-! ## Three readers -/

section

variable [DecidableEq β]

/-- A text that is known. -/
def literal (w : List β) : Reader β Unit := fun s => if w <+: s then some ((), s.drop w.length) else none

theorem takes_literal (w : List β) : Takes (literal w) w () := by
  intro rest
  rw [literal, if_pos (List.prefix_append w rest), List.drop_left]

/-- What stands before the first `c`; the `c` is taken as well. -/
def upTo (c : β) : Reader β (List β)
  | [] => none
  | b :: s => if b = c then some ([], s) else (upTo c s).map (fun r => (b :: r.1, r.2))

theorem takes_upTo {c : β} : ∀ {w : List β}, c ∉ w → Takes (upTo c) (w ++ [c]) w
  | [], _, rest => if_pos rfl
  | b :: w, h, rest => by
    have hne : b ≠ c := fun heq => h (heq ▸ List.mem_cons_self)
    have ih := takes_upTo (fun hmem => h (List.mem_cons_of_mem _ hmem)) rest
    rw [List.cons_append, List.cons_append, upTo, if_neg hne, ih, Option.map_some]

/-- A text in which `mark` stands before each `quote` and each `mark`. -/
def escape (quote mark : β) (w : List β) : List β := w.flatMap (fun b => if b = quote ∨ b = mark then [mark, b] else [b])

/-- What was escaped, up to the first `quote` that is not; the `quote` is taken as well. -/
def quoted (quote mark : β) : Reader β (List β)
  | [] => none
  | [b] => if b = quote then some ([], []) else none
  | b :: b' :: s =>
    if b = quote then some ([], b' :: s)
    else if b = mark then (quoted quote mark s).map (fun r => (b' :: r.1, r.2))
    else (quoted quote mark (b' :: s)).map (fun r => (b :: r.1, r.2))

/-- A quote ends the text. -/
theorem quoted_quote {quote mark : β} : ∀ (s : List β), quoted quote mark (quote :: s) = some ([], s)
  | [] => if_pos rfl
  | _ :: _ => if_pos rfl

/-- What is not special stands for itself. -/
theorem quoted_plain {quote mark b : β} (hquote : b ≠ quote) (hmark : b ≠ mark) :
    ∀ {s : List β}, s ≠ [] → quoted quote mark (b :: s) = (quoted quote mark s).map (fun r => (b :: r.1, r.2))
  | [], h => absurd rfl h
  | b' :: s, _ => by rw [quoted, if_neg hquote, if_neg hmark]

/-- What stands behind a mark stands for itself. -/
theorem quoted_mark {quote mark : β} (hne : mark ≠ quote) (b : β) (s : List β) :
    quoted quote mark (mark :: b :: s) = (quoted quote mark s).map (fun r => (b :: r.1, r.2)) := by
  rw [quoted, if_neg hne, if_pos rfl]

theorem takes_quoted {quote mark : β} (hne : mark ≠ quote) (w : List β) :
    Takes (quoted quote mark) (escape quote mark w ++ [quote]) w := by
  intro rest
  rw [List.append_assoc, List.singleton_append]
  induction w with
  | nil => exact quoted_quote rest
  | cons b w ih =>
    have hcons : escape quote mark (b :: w) = (if b = quote ∨ b = mark then [mark, b] else [b]) ++ escape quote mark w := rfl
    rw [hcons]
    by_cases hspecial : b = quote ∨ b = mark
    · rw [if_pos hspecial]
      show quoted quote mark (mark :: b :: (escape quote mark w ++ quote :: rest)) = _
      rw [quoted_mark hne, ih, Option.map_some]
    · obtain ⟨hquote, hmark⟩ := not_or.1 hspecial
      rw [if_neg hspecial, List.singleton_append, List.cons_append, quoted_plain hquote hmark (by simp), ih, Option.map_some]

end

/-! ## One value after another -/

/-- The values a text is made of, at most `fuel` of them. -/
def readAll (p : Reader β α) : Nat → List β → Option (List α)
  | _, [] => some []
  | 0, _ :: _ => none
  | fuel + 1, b :: s => (p (b :: s)).bind (fun r => (readAll p fuel r.2).map (r.1 :: ·))

/-- Values that are written one behind the other are read again. -/
theorem readAll_flatMap {p : Reader β α} {write : α → List β} {xs : List α}
    (h : ∀ x ∈ xs, write x ≠ [] ∧ Takes p (write x) x) :
    ∀ {fuel : Nat}, xs.length ≤ fuel → readAll p fuel (xs.flatMap write) = some xs := by
  induction xs with
  | nil => exact fun {fuel} _ => by cases fuel <;> rfl
  | cons x xs ih =>
    intro fuel hfuel
    cases fuel with
    | zero => exact absurd hfuel (Nat.not_succ_le_zero _)
    | succ fuel =>
      obtain ⟨hne, htakes⟩ := h x List.mem_cons_self
      have hrest := ih (fun y hy => h y (List.mem_cons_of_mem _ hy)) (Nat.le_of_succ_le_succ hfuel)
      have hread := htakes (xs.flatMap write)
      rw [List.flatMap_cons]
      obtain ⟨b, w, hw⟩ := List.exists_cons_of_ne_nil hne
      rw [hw, List.cons_append] at hread ⊢
      rw [readAll, hread, Option.bind_some, hrest, Option.map_some]

/-- There are at most as many values as symbols. -/
theorem length_le_length_flatMap {write : α → List β} {xs : List α} (h : ∀ x ∈ xs, write x ≠ []) :
    xs.length ≤ (xs.flatMap write).length := by
  induction xs with
  | nil => exact Nat.le_refl _
  | cons x xs ih =>
    have hpos := List.length_pos_iff.2 (h x List.mem_cons_self)
    have hrest := ih (fun y hy => h y (List.mem_cons_of_mem _ hy))
    rw [List.flatMap_cons, List.length_append, List.length_cons]
    omega

end Codec
