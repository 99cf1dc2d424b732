import Mathlib.Tactic

/-!
# A worklist that grows while it is consumed

A loop takes the first element off a queue, reports what there is to report of it and puts its children at the end. What comes
out of a queue is the forest below its elements; when that is finite the loop ends and has reported, in some order, what there
is to report of each node of it.
-/

namespace Worklist

open Relation

variable {α β γ : Type*} {children : α → List α} {report : α → List β}

/-- The loop, for as many rounds as there is fuel: nothing when that is used up before the queue is. -/
def run (children : α → List α) (report : α → List β) : Nat → List α → Option (List β)
  | _, [] => some []
  | 0, _ :: _ => none
  | fuel + 1, a :: queue => (run children report fuel (queue ++ children a)).map (report a ++ ·)

/-- The nodes of the forest below a queue: each element, the nodes below its children, and those of the rest. -/
inductive Unfolds (children : α → List α) : List α → List α → Prop where
  | nil : Unfolds children [] []
  | cons {a : α} {queue under rest : List α} (hunder : Unfolds children (children a) under)
      (hrest : Unfolds children queue rest) : Unfolds children (a :: queue) (a :: (under ++ rest))

/-- A node is below another, or the other. -/
def Reaches (children : α → List α) : α → α → Prop := ReflTransGen (fun a b => b ∈ children a)

/-- Nothing is below both of two nodes. -/
def Apart (children : α → List α) (a b : α) : Prop := ∀ c, Reaches children a c → ¬Reaches children b c

/-! ## Forests -/

theorem Unfolds.append {queue queue' nodes nodes' : List α} (h : Unfolds children queue nodes)
    (h' : Unfolds children queue' nodes') : Unfolds children (queue ++ queue') (nodes ++ nodes') := by
  induction h with
  | nil => exact h'
  | cons hunder _ _ ih =>
    rw [List.cons_append, List.cons_append, List.append_assoc]
    exact .cons hunder ih

theorem exists_unfolds_of_children {queue : List α} (h : ∀ a ∈ queue, ∃ under, Unfolds children (children a) under) :
    ∃ nodes, Unfolds children queue nodes := by
  induction queue with
  | nil => exact ⟨[], .nil⟩
  | cons a queue ih =>
    obtain ⟨under, hunder⟩ := h a (by simp)
    obtain ⟨rest, hrest⟩ := ih (fun b hb => h b (by simp [hb]))
    exact ⟨a :: (under ++ rest), .cons hunder hrest⟩

/-- There is a finite forest below elements from which every way down ends. -/
theorem exists_unfolds {queue : List α} (h : ∀ a ∈ queue, Acc (fun b a => b ∈ children a) a) :
    ∃ nodes, Unfolds children queue nodes := by
  refine exists_unfolds_of_children (fun a ha => ?_)
  have hacc := h a ha
  clear h ha
  induction hacc with
  | intro a _ ih => exact exists_unfolds_of_children ih

/-- The nodes of the forest are what the elements of the queue reach. -/
theorem Unfolds.mem_iff {queue nodes : List α} (h : Unfolds children queue nodes) (n : α) :
    n ∈ nodes ↔ ∃ a ∈ queue, Reaches children a n := by
  induction h with
  | nil => simp
  | @cons a queue under rest _ _ ihunder ihrest =>
    have ha : Reaches children a n ↔ n = a ∨ n ∈ under := by
      rw [ihunder, Reaches, ReflTransGen.cases_head_iff, eq_comm]
    rw [List.mem_cons, List.mem_append, ihrest, ← or_assoc, ← ha]
    simp

/-- Where there is a finite forest every way down ends. -/
theorem Unfolds.acc {queue nodes : List α} (h : Unfolds children queue nodes) :
    ∀ a ∈ queue, Acc (fun b a => b ∈ children a) a := by
  induction h with
  | nil => simp
  | cons _ _ ihunder ihrest =>
    intro b hb
    rcases List.mem_cons.1 hb with rfl | hb
    · exact Acc.intro b ihunder
    · exact ihrest b hb

/-- A node is not below its children. -/
theorem not_reaches_of_acc {a b : α} (h : Acc (fun b a => b ∈ children a) a) (hb : b ∈ children a) :
    ¬Reaches children b a := by
  intro hba
  have hcycle : TransGen (fun b a => b ∈ children a) a a := by
    rw [← transGen_swap]
    exact TransGen.head' hb hba
  have hirrefl : ∀ x, Acc (TransGen (fun b a => b ∈ children a)) x → ¬TransGen (fun b a => b ∈ children a) x x := by
    intro x hx
    induction hx with
    | intro x _ ih => exact fun hxx => ih x hxx hxx
  exact hirrefl a h.transGen hcycle

/-- Where nothing is below two siblings or two elements of the queue, no node comes twice. -/
theorem Unfolds.nodup {P : α → Prop} (hP : ∀ a, P a → ∀ c ∈ children a, P c)
    (hchildren : ∀ a, P a → (children a).Pairwise (Apart children)) {queue nodes : List α} (h : Unfolds children queue nodes)
    (hPqueue : ∀ a ∈ queue, P a) (hqueue : queue.Pairwise (Apart children)) : nodes.Nodup := by
  induction h with
  | nil => exact List.nodup_nil
  | @cons a queue under rest hunder hrest ihunder ihrest =>
    rw [List.pairwise_cons] at hqueue
    have ha := hPqueue a (by simp)
    have hbelow : ∀ n ∈ under, ∃ c ∈ children a, Reaches children c n := fun n hn => (hunder.mem_iff n).1 hn
    rw [List.nodup_cons, List.mem_append, not_or, List.nodup_append]
    refine ⟨⟨?_, ?_⟩, ihunder (hP a ha) (hchildren a ha), ihrest (fun b hb => hPqueue b (by simp [hb])) hqueue.2, ?_⟩
    · intro hmem
      obtain ⟨c, hc, hca⟩ := hbelow a hmem
      exact not_reaches_of_acc (Acc.intro a hunder.acc) hc hca
    · intro hmem
      obtain ⟨q, hq, hqa⟩ := (hrest.mem_iff a).1 hmem
      exact hqueue.1 q hq a .refl hqa
    · rintro n hn n' hn' rfl
      obtain ⟨c, hc, hcn⟩ := hbelow n hn
      obtain ⟨q, hq, hqn⟩ := (hrest.mem_iff n).1 hn'
      exact hqueue.1 q hq n (.head hc hcn) hqn

/-! ## The loop -/

/-- With a round for each node of the forest the loop ends, and has reported each of them. -/
theorem run_of_unfolds (report : α → List β) {queue nodes : List α} (h : Unfolds children queue nodes) :
    ∃ out : List β, out.Perm (nodes.flatMap report) ∧ ∀ fuel ≥ nodes.length, run children report fuel queue = some out := by
  obtain ⟨n, hn⟩ : ∃ n, nodes.length = n := ⟨_, rfl⟩
  induction n generalizing queue nodes with
  | zero =>
    rw [List.length_eq_zero_iff] at hn
    subst hn
    cases h
    exact ⟨[], .refl _, fun fuel _ => by cases fuel <;> rfl⟩
  | succ n ih =>
    cases h with
    | nil => cases hn
    | @cons a queue under rest hunder hrest =>
      -- what the queue still owes after a round is one node less
      have hlength : (rest ++ under).length = n := by
        simp only [List.length_cons, List.length_append] at hn ⊢
        omega
      obtain ⟨out, hperm, hrun⟩ := ih (hrest.append hunder) hlength
      refine ⟨report a ++ out, ?_, fun fuel hfuel => ?_⟩
      · rw [List.flatMap_cons]
        exact (hperm.trans (List.perm_append_comm.flatMap_right report)).append_left (report a)
      · obtain ⟨fuel, rfl⟩ := Nat.exists_eq_succ_of_ne_zero (show fuel ≠ 0 by omega)
        rw [run, hrun fuel (by omega), Option.map_some]

/-- Whatever the loop has reported is of a node that the queue reaches. -/
theorem mem_run_iff {fuel : Nat} {queue : List α} {out : List β} (h : run children report fuel queue = some out) (b : β) :
    b ∈ out ↔ ∃ a ∈ queue, ∃ n, Reaches children a n ∧ b ∈ report n := by
  induction fuel generalizing queue out with
  | zero =>
    cases queue with
    | nil =>
      cases h
      simp
    | cons a queue => cases h
  | succ fuel ih =>
    cases queue with
    | nil =>
      cases h
      simp
    | cons a queue =>
      rw [run, Option.map_eq_some_iff] at h
      obtain ⟨out, hrun, rfl⟩ := h
      rw [List.mem_append, ih hrun]
      constructor
      · rintro (hb | ⟨q, hq, n, hn, hb⟩)
        · exact ⟨a, by simp, a, .refl, hb⟩
        · rcases List.mem_append.1 hq with hq | hq
          · exact ⟨q, by simp [hq], n, hn, hb⟩
          · exact ⟨a, by simp, n, .head hq hn, hb⟩
      · rintro ⟨q, hq, n, hn, hb⟩
        rcases List.mem_cons.1 hq with rfl | hq
        · rcases ReflTransGen.cases_head hn with rfl | ⟨c, hc, hcn⟩
          · exact .inl hb
          · exact .inr ⟨c, List.mem_append_right _ hc, n, hcn, hb⟩
        · exact .inr ⟨q, List.mem_append_left _ hq, n, hn, hb⟩

/-- The loop over the images of a queue, for a map under which children go to children and reports stay what they are. -/
theorem run_map {children' : γ → List γ} {report' : γ → List β} (f : γ → α) {P : γ → Prop}
    (hP : ∀ g, P g → ∀ c ∈ children' g, P c) (hchildren : ∀ g, P g → children (f g) = (children' g).map f)
    (hreport : ∀ g, P g → report (f g) = report' g) (fuel : Nat) {queue : List γ} (hqueue : ∀ g ∈ queue, P g) :
    run children report fuel (queue.map f) = run children' report' fuel queue := by
  induction fuel generalizing queue with
  | zero => cases queue <;> rfl
  | succ fuel ih =>
    cases queue with
    | nil => rfl
    | cons g queue =>
      have hg := hqueue g (by simp)
      have hnext : ∀ c ∈ queue ++ children' g, P c := by
        intro c hc
        rcases List.mem_append.1 hc with hc | hc
        · exact hqueue c (by simp [hc])
        · exact hP g hg c hc
      rw [List.map_cons, run, run, hchildren g hg, ← List.map_append, ih hnext, hreport g hg]

end Worklist
