import Mathlib.Tactic
import WinIndex.Lib.Segments

/-!
# Walking the records of a buffer

Records of different lengths lie in a buffer one after the other, and each says how far the next one is from it. A reader goes
from one to the next and checks nothing else. So it may be sent outside the buffer, and a record that says the next one is where
it is itself keeps the reader for ever; where neither is met, the walk ends. Records that were laid end to end are found again.
-/

namespace RecordWalk

variable {ρ : Type*}

/-- What there is at a position: nothing any more, something that reaches outside the buffer, the last record, or a record and
where the next one is. -/
inductive Node (ρ : Type*) where
  | done
  | outside
  | last (r : ρ)
  | more (r : ρ) (next : Nat)

/-- How a walk ends, with the records met: at its end, or outside; or it has not ended. -/
inductive Outcome (ρ : Type*) where
  | ended (records : List ρ)
  | outside (records : List ρ)
  | unfinished (records : List ρ)

/-- The records met, one before them. -/
def Outcome.cons (r : ρ) : Outcome ρ → Outcome ρ
  | .ended records => .ended (r :: records)
  | .outside records => .outside (r :: records)
  | .unfinished records => .unfinished (r :: records)

/-- A walk of so many records at most. -/
def walk (node : Nat → Node ρ) : Nat → Nat → Outcome ρ
  | 0, _ => .unfinished []
  | fuel + 1, pos =>
    match node pos with
    | .done => .ended []
    | .outside => .outside []
    | .last r => .ended [r]
    | .more r next => (walk node fuel next).cons r

/-- The walk gets from one position to another. -/
inductive Reaches (node : Nat → Node ρ) : Nat → Nat → Prop
  | refl (pos : Nat) : Reaches node pos pos
  | step {pos next pos' : Nat} {r : ρ} (h : node pos = .more r next) (h' : Reaches node next pos') : Reaches node pos pos'

variable {node : Nat → Node ρ}

theorem Outcome.cons_eq_ended {r : ρ} {o : Outcome ρ} {records : List ρ} (h : o.cons r = .ended records) :
    ∃ records', o = .ended records' ∧ records = r :: records' := by
  cases o with
  | ended records' =>
    cases h
    exact ⟨records', rfl, rfl⟩
  | outside records' => nomatch h
  | unfinished records' => nomatch h

/-- A walk that ends is the same with more fuel. -/
theorem walk_mono {fuel fuel' pos : Nat} {records : List ρ} (h : walk node fuel pos = .ended records) (hle : fuel ≤ fuel') :
    walk node fuel' pos = .ended records := by
  induction fuel generalizing fuel' pos records with
  | zero => nomatch h
  | succ fuel ih =>
    obtain ⟨n, rfl⟩ : ∃ n, fuel' = n + 1 := ⟨fuel' - 1, by omega⟩
    rw [walk] at h ⊢
    cases hnode : node pos with
    | done => rw [hnode] at h; exact h
    | outside => rw [hnode] at h; exact h
    | last r => rw [hnode] at h; exact h
    | more r next =>
      simp only [hnode] at h ⊢
      obtain ⟨records', hrest, rfl⟩ := Outcome.cons_eq_ended h
      rw [ih hrest (by omega)]
      rfl

/-- The record at a position sends the reader outside, or to itself. -/
def Traps (node : Nat → Node ρ) (pos : Nat) : Prop := node pos = .outside ∨ ∃ r, node pos = .more r pos

/-- A walk that ends meets no trap. -/
theorem not_traps_of_ended {fuel pos : Nat} {records : List ρ} (h : walk node fuel pos = .ended records) {pos' : Nat}
    (hreach : Reaches node pos pos') : ¬Traps node pos' := by
  induction hreach generalizing fuel records with
  | refl pos =>
    rintro (hout | ⟨r, hself⟩)
    · cases fuel with
      | zero => nomatch h
      | succ fuel =>
        rw [walk, hout] at h
        nomatch h
    · -- with less and less fuel, but the same record
      induction fuel generalizing records with
      | zero => nomatch h
      | succ fuel ih =>
        rw [walk, hself] at h
        obtain ⟨records', hrest, -⟩ := Outcome.cons_eq_ended h
        exact ih hrest
  | step hnode _ ih =>
    cases fuel with
    | zero => nomatch h
    | succ fuel =>
      rw [walk, hnode] at h
      obtain ⟨records', hrest, -⟩ := Outcome.cons_eq_ended h
      exact ih hrest

/-- A walk that never goes back, nor on from a limit, ends when it meets no trap, within as many records as there are positions
before the limit. -/
theorem exists_ended {limit : Nat} (hnext : ∀ pos r next, node pos = .more r next → pos ≤ next ∧ pos < limit) {fuel pos : Nat}
    (hfuel : limit - pos < fuel) (h : ∀ pos', Reaches node pos pos' → ¬Traps node pos') :
    ∃ records, walk node fuel pos = .ended records := by
  induction fuel generalizing pos with
  | zero => exact absurd hfuel (Nat.not_lt_zero _)
  | succ fuel ih =>
    have hhere := h pos (.refl pos)
    rw [walk]
    cases hnode : node pos with
    | done => exact ⟨[], rfl⟩
    | outside => exact absurd (.inl hnode) hhere
    | last r => exact ⟨[r], rfl⟩
    | more r next =>
      obtain ⟨hle, hlt⟩ := hnext pos r next hnode
      have hne : next ≠ pos := fun heq => hhere (.inr ⟨r, by rw [hnode, heq]⟩)
      have hless : limit - next < fuel := by omega
      obtain ⟨records, hrest⟩ := ih hless (fun pos' hreach => h pos' (.step hnode hreach))
      exact ⟨r :: records, by simp only [hrest]; rfl⟩

/-- The walk ends exactly when it meets no trap. -/
theorem ended_iff {limit : Nat} (hnext : ∀ pos r next, node pos = .more r next → pos ≤ next ∧ pos < limit) (pos : Nat) :
    (∃ records, walk node (limit - pos + 1) pos = .ended records) ↔ ∀ pos', Reaches node pos pos' → ¬Traps node pos' :=
  ⟨fun ⟨_, h⟩ _ hreach => not_traps_of_ended h hreach, exists_ended hnext (Nat.lt_succ_self _)⟩

/-! ## Records laid end to end -/

section Laid

variable {τ β : Type*} (bytes : τ → List β) (view : τ → ρ)

/-- Where every record of a list is found at the sum of the lengths of those before it, and there is nothing behind the last, the
walk finds the list. -/
theorem walk_laid (records : List τ) {pos fuel : Nat} (hfuel : records.length < fuel)
    (hnode : ∀ before r after, records = before ++ r :: after →
      node (pos + (before.flatMap bytes).length) = .more (view r) (pos + ((before ++ [r]).flatMap bytes).length))
    (hend : node (pos + (records.flatMap bytes).length) = .done) :
    walk node fuel pos = .ended (records.map view) := by
  induction records generalizing pos fuel with
  | nil =>
    obtain ⟨n, rfl⟩ : ∃ n, fuel = n + 1 := ⟨fuel - 1, by simp only [List.length_nil] at hfuel; omega⟩
    have hhere : node pos = .done := hend
    rw [walk, hhere]
    rfl
  | cons r records ih =>
    rw [List.length_cons] at hfuel
    obtain ⟨n, rfl⟩ : ∃ n, fuel = n + 1 := ⟨fuel - 1, by omega⟩
    have hhere : node pos = .more (view r) (pos + (bytes r).length) := by simpa using hnode [] r records rfl
    rw [walk, hhere]
    simp only
    rw [ih (by omega)]
    · rfl
    · intro before r' after heq
      have := hnode (r :: before) r' after (by rw [heq]; rfl)
      simpa [Nat.add_assoc] using this
    · simpa [Nat.add_assoc] using hend

/-- The same when the last record is known to be the last. -/
theorem walk_laid_last (records : List τ) (final : τ) {pos fuel : Nat} (hfuel : records.length < fuel)
    (hnode : ∀ before r after, records = before ++ r :: after →
      node (pos + (before.flatMap bytes).length) = .more (view r) (pos + ((before ++ [r]).flatMap bytes).length))
    (hend : node (pos + (records.flatMap bytes).length) = .last (view final)) :
    walk node fuel pos = .ended ((records ++ [final]).map view) := by
  induction records generalizing pos fuel with
  | nil =>
    obtain ⟨n, rfl⟩ : ∃ n, fuel = n + 1 := ⟨fuel - 1, by simp only [List.length_nil] at hfuel; omega⟩
    have hhere : node pos = .last (view final) := hend
    rw [walk, hhere]
    rfl
  | cons r records ih =>
    rw [List.length_cons] at hfuel
    obtain ⟨n, rfl⟩ : ∃ n, fuel = n + 1 := ⟨fuel - 1, by omega⟩
    have hhere : node pos = .more (view r) (pos + (bytes r).length) := by simpa using hnode [] r records rfl
    rw [walk, hhere]
    simp only
    rw [ih (by omega)]
    · rfl
    · intro before r' after heq
      have := hnode (r :: before) r' after (by rw [heq]; rfl)
      simpa [Nat.add_assoc] using this
    · simpa [Nat.add_assoc] using hend

end Laid

end RecordWalk
