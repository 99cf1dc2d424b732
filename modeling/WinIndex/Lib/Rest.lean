import Mathlib.Logic.Relation
import Mathlib.Order.WellFounded
import Mathlib.Tactic

/-!
# Systems that come to rest

A system in which something can go on as long as it is not done, and in which everything that goes on uses up something that is
limited, comes to rest: none of its runs goes on for ever, and where one cannot go on, the system is done. So it neither blocks
nor runs on, whatever the order of the steps.
-/

namespace Rest

variable {σ ω : Type*} {r : σ → σ → Prop} {done : σ → Prop} {s : σ}

/-- No run from the state goes on for ever, and where one cannot go on, the system is done. -/
structure ComesToRest (r : σ → σ → Prop) (done : σ → Prop) (s : σ) : Prop where
  ends : Acc (fun s' s => r s s') s
  done_of_stuck : ∀ s', Relation.ReflTransGen r s s' → (∀ s'', ¬r s' s'') → done s'

/-- The rule: under an invariant every step lowers a measure, and a state without a step is done. -/
theorem comesToRest [Preorder ω] [WellFoundedLT ω] {I : σ → Prop} {m : σ → ω} (hI : ∀ s s', I s → r s s' → I s')
    (hm : ∀ s s', I s → r s s' → m s' < m s) (hdone : ∀ s, I s → (∀ s', ¬r s s') → done s) (h : I s) :
    ComesToRest r done s := by
  constructor
  · have hacc : ∀ n : ω, ∀ s, I s → m s = n → Acc (fun s' s => r s s') s := by
      intro n
      induction n using WellFoundedLT.induction with
      | ind n ih =>
        rintro s hs rfl
        exact ⟨s, fun s' hstep => ih (m s') (hm s s' hs hstep) s' (hI s s' hs hstep) rfl⟩
    exact hacc (m s) s h rfl
  · have hall : ∀ s', Relation.ReflTransGen r s s' → I s' := by
      intro s' hreach
      induction hreach with
      | refl => exact h
      | tail _ hstep ih => exact hI _ _ ih hstep
    exact fun s' hreach hstuck => hdone s' (hall s' hreach) hstuck

/-- A run without end stands still at some point. -/
theorem ComesToRest.stands_still (h : ComesToRest r done s) (run : Nat → σ) (hstart : run 0 = s) : ∃ n, ¬r (run n) (run (n + 1)) := by
  obtain ⟨hacc, -⟩ := h
  induction hacc generalizing run with
  | intro s _ ih =>
    by_cases hstep : r (run 0) (run 1)
    · obtain ⟨n, hn⟩ := ih (run 1) (hstart ▸ hstep) (fun n => run (n + 1)) rfl
      exact ⟨n + 1, hn⟩
    · exact ⟨0, hstep⟩

end Rest
