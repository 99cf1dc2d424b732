import Mathlib.Data.List.Forall2
import Mathlib.Logic.Relation

/-!
# Jobs that may be cancelled

Several jobs go on side by side, each from place to place until it is through. A flag is raised at some time and never lowered;
now and then a job looks at it, and stops where it is if it finds it raised. A look may come too early, and miss that the flag was
raised, but none finds it raised that is not. So wherever a job is, it would have come there alone; and as long as none has
stopped, those that are through have done all that they would have done alone.
-/

namespace Cancel

open Relation

variable {σ : Type*}

/-- A job: where it is, and whether it has stopped there as it was cancelled. -/
structure Job (σ : Type*) where
  place : σ
  stopped : Bool

/-- The flag and the jobs. -/
structure State (σ : Type*) where
  flag : Bool
  jobs : List (Job σ)

/-- The flag is raised; or a job has its turn, and `looks` says whether it would find the flag raised. -/
inductive Turn where
  | cancel
  | job (i : Nat) (looks : Bool)

/-- A turn of a job. -/
def Job.turn (next : σ → Option σ) (flag looks : Bool) (j : Job σ) : Job σ :=
  if j.stopped then j
  else
    match next j.place with
    | none => j
    | some place => if looks && flag then { j with stopped := true } else { j with place := place }

/-- The effect of a turn. -/
def State.step (next : σ → Option σ) (s : State σ) : Turn → State σ
  | .cancel => { s with flag := true }
  | .job i looks => { s with jobs := s.jobs.modify i (Job.turn next s.flag looks) }

/-- The jobs at their first places. -/
def State.start (places : List σ) : State σ := ⟨false, places.map (⟨·, false⟩)⟩

/-- A job has stopped, or has nowhere to go. -/
def Job.isThrough (next : σ → Option σ) (j : Job σ) : Bool := j.stopped || (next j.place).isNone

/-- A job gets from one place to another when it is alone. -/
def GoesTo (next : σ → Option σ) : σ → σ → Prop := ReflTransGen (fun a b => next a = some b)

variable {next : σ → Option σ} {places : List σ}

/-- What a whole job comes to does not change on the way. -/
theorem GoesTo.invariant {α : Type*} {whole : σ → α} (h : ∀ a b, next a = some b → whole b = whole a) {a b : σ}
    (hgo : GoesTo next a b) : whole b = whole a := by
  induction hgo with
  | refl => rfl
  | tail _ hstep ih => rw [h _ _ hstep, ih]

theorem forall₂_modify {α β : Type*} {R S : α → β → Prop} {f : β → β} (hf : ∀ a b, R a b → S a (f b))
    (hR : ∀ a b, R a b → S a b) {as : List α} {bs : List β} (h : List.Forall₂ R as bs) (i : Nat) :
    List.Forall₂ S as (bs.modify i f) := by
  induction h generalizing i with
  | nil => cases i <;> exact .nil
  | cons hab hrest ih =>
    cases i with
    | zero => exact .cons (hf _ _ hab) (hrest.imp hR)
    | succ i => exact .cons (hR _ _ hab) (ih i)

/-- Where the jobs are after a run, and why they have stopped. -/
def Alone (next : σ → Option σ) (places : List σ) (s : State σ) : Prop :=
  List.Forall₂ (fun a j => GoesTo next a j.place ∧ (j.stopped = true → s.flag = true)) places s.jobs

theorem alone_start (places : List σ) : Alone next places (.start places) := by
  induction places with
  | nil => exact .nil
  | cons a places ih => exact .cons ⟨.refl, fun h => (nomatch h)⟩ ih

theorem Alone.step {s : State σ} (h : Alone next places s) (t : Turn) : Alone next places (s.step next t) := by
  cases t with
  | cancel => exact h.imp (fun _ _ hj => ⟨hj.1, fun _ => rfl⟩)
  | job i looks =>
    refine forall₂_modify (fun a j hj => ?_) (fun _ _ hj => hj) h i
    unfold Job.turn
    split
    · exact hj
    · split
      · exact hj
      · rename_i place hplace
        split
        · rename_i hseen
          exact ⟨hj.1, fun _ => (Bool.and_eq_true_iff.1 hseen).2⟩
        · exact ⟨hj.1.tail hplace, hj.2⟩

/-- Jobs that are through, none of which has stopped, are where they end. -/
theorem Alone.ended {s : State σ} (h : Alone next places s) (hthrough : ∀ j ∈ s.jobs, j.isThrough next = true)
    (hnone : ∀ j ∈ s.jobs, j.stopped = false) :
    List.Forall₂ (fun a j => GoesTo next a j.place ∧ next j.place = none) places s.jobs := by
  unfold Alone at h
  generalize s.jobs = jobs at h hthrough hnone
  induction h with
  | nil => exact .nil
  | cons hj _ ih =>
    obtain ⟨hfirst, hrest⟩ := List.forall_mem_cons.1 hthrough
    obtain ⟨hgoes, hgo⟩ := List.forall_mem_cons.1 hnone
    refine .cons ⟨hj.1, ?_⟩ (ih hrest hgo)
    rw [Job.isThrough, hgoes, Bool.false_or] at hfirst
    exact Option.isNone_iff_eq_none.1 hfirst

end Cancel
