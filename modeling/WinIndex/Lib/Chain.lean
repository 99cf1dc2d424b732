import Mathlib.Tactic

/-!
# Chains of links

Every element has one link to a next one, or none. Following the links from an element ends exactly when it does not get into
a cycle, provided that only finitely many elements have a link.
-/

namespace Chain

open Relation

variable {α : Type*} {next : α → Option α} {a b : α}

/-- The link from one element to the next. -/
def Link (next : α → Option α) (a b : α) : Prop := next a = some b

/-- Following the links from an element ends. -/
def Ends (next : α → Option α) (a : α) : Prop := Acc (fun b a => Link next a b) a

/-- Following the links from an element gets into a cycle. -/
def EntersCycle (next : α → Option α) (a : α) : Prop := ∃ c, ReflTransGen (Link next) a c ∧ TransGen (Link next) c c

/-- There is no cycle. -/
def Acyclic (next : α → Option α) : Prop := ∀ c, ¬TransGen (Link next) c c

/-- A chain of one element ends. -/
theorem Ends.of_none (h : next a = none) : Ends next a := by
  refine Acc.intro a (fun b hb => ?_)
  rw [Link, h] at hb
  cases hb

/-- A chain ends when it does so from its second element on. -/
theorem ends_iff_of_link (h : next a = some b) : Ends next a ↔ Ends next b := by
  constructor
  · intro ha
    exact ha.inv h
  · intro hb
    refine Acc.intro a (fun c hc => ?_)
    rw [Link, h, Option.some.injEq] at hc
    rwa [← hc]

/-- A chain that ends stays out of cycles. -/
theorem Ends.not_entersCycle (h : Ends next a) : ¬EntersCycle next a := by
  induction h with
  | intro a _ ih =>
    rintro ⟨c, hac, hcycle⟩
    rcases hac.cases_head with rfl | ⟨b, hab, hbc⟩
    · obtain ⟨b, hab, hba⟩ := TransGen.head'_iff.1 hcycle
      exact ih b hab ⟨a, hba, hcycle⟩
    · exact ih b hab ⟨c, hbc, hcycle⟩

/-- With finitely many links a chain that stays out of cycles ends. -/
theorem ends_of_not_entersCycle (support : List α) (hsupport : ∀ x y, next x = some y → x ∈ support)
    (h : ¬EntersCycle next a) : Ends next a := by
  -- the elements with links that the chain gets to, the later ones smaller
  let S := {x : α // x ∈ support ∧ ReflTransGen (Link next) a x}
  let later : S → S → Prop := fun y x => TransGen (Link next) x.1 y.1
  have hsupportFinite : Finite {x : α // x ∈ support} := (List.finite_toSet support).to_subtype
  have hfinite : Finite S := Finite.of_injective (β := {x : α // x ∈ support}) (fun x => ⟨x.1, x.2.1⟩) (by
    rintro ⟨x, hx⟩ ⟨y, hy⟩ hxy
    exact Subtype.ext (by simpa using hxy))
  have htrans : IsTrans S later := ⟨fun x y z hxy hyz => TransGen.trans hyz hxy⟩
  have hirrefl : Std.Irrefl later := ⟨fun x hx => h ⟨x.1, x.2.2, hx⟩⟩
  have hwf : WellFounded later := Finite.wellFounded_of_trans_of_irrefl later
  have hS : ∀ x : S, Ends next x.1 := by
    intro x
    induction x using hwf.induction with
    | _ x ih =>
      cases hx : next x.1 with
      | none => exact .of_none hx
      | some y =>
        rw [ends_iff_of_link hx]
        by_cases hy : y ∈ support
        · exact ih ⟨y, hy, x.2.2.tail hx⟩ (TransGen.single hx)
        · cases hnext : next y with
          | none => exact .of_none hnext
          | some z => exact absurd (hsupport y z hnext) hy
  by_cases ha : a ∈ support
  · exact hS ⟨a, ha, ReflTransGen.refl⟩
  · cases hnext : next a with
    | none => exact .of_none hnext
    | some b => exact absurd (hsupport a b hnext) ha

theorem ends_iff (support : List α) (hsupport : ∀ x y, next x = some y → x ∈ support) :
    Ends next a ↔ ¬EntersCycle next a :=
  ⟨Ends.not_entersCycle, ends_of_not_entersCycle support hsupport⟩

theorem Acyclic.ends (h : Acyclic next) (support : List α) (hsupport : ∀ x y, next x = some y → x ∈ support) (a : α) :
    Ends next a :=
  ends_of_not_entersCycle support hsupport (fun ⟨c, _, hc⟩ => h c hc)

/-- Fewer links make no new cycle. -/
theorem Acyclic.mono {next' : α → Option α} (h : Acyclic next) (hle : ∀ a b, next' a = some b → next a = some b) :
    Acyclic next' :=
  fun c hc => h c (TransGen.mono hle c c hc)

/-- Where every chain ends there is no cycle. -/
theorem acyclic_of_ends (h : ∀ a b, next a = some b → Ends next b) : Acyclic next := by
  intro c hc
  obtain ⟨b, hcb, hbc⟩ := TransGen.head'_iff.1 hc
  exact (h c b hcb).not_entersCycle ⟨c, hbc, hc⟩

end Chain
