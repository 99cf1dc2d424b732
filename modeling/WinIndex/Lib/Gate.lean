import Mathlib.Tactic

/-!
# A gate that is shut while a body runs

A caller that finds the gate open shuts it and starts a body of its own thread; the body opens it when it ends. The gate is an
event that stays as it was set until it is reset, and there may be none: then the gate always stands open. The thread may fail
to start.
-/

/-- An event, set or not, if there is one, and the bodies that run. -/
structure Gate (β : Type*) where
  event : Option Bool
  running : List β

namespace Gate

variable {β : Type*}

/-- A gate where nothing runs; `created` says that there is an event. -/
def new (created : Bool) : Gate β := ⟨if created then some true else none, []⟩

/-- A wait for the event returns. -/
def stands (g : Gate β) : Bool := g.event.getD true

/-- The event is reset, and a thread with the body is created, or is not. -/
def start (g : Gate β) (created : Bool) (b : β) : Gate β where
  event := g.event.map (fun _ => false)
  running := if created then g.running ++ [b] else g.running

/-- A body goes on. -/
def goOn (g : Gate β) (i : Nat) (b : β) : Gate β := { g with running := g.running.set i b }

/-- A body ends by setting the event. -/
def finish (g : Gate β) (i : Nat) : Gate β where
  event := g.event.map (fun _ => true)
  running := g.running.eraseIdx i

/-- One body runs at most, and the gate is shut while it does. -/
structure Guarded (g : Gate β) : Prop where
  single : g.running.length ≤ 1
  shut : g.running ≠ [] → g.stands = false

/-- And it stands open while none does. -/
structure Exclusive (g : Gate β) : Prop extends g.Guarded where
  opens : g.running = [] → g.stands = true

theorem exclusive_new (created : Bool) : (new created : Gate β).Exclusive := by
  refine ⟨⟨Nat.zero_le 1, fun h => absurd rfl h⟩, fun _ => ?_⟩
  cases created <;> rfl

variable {g : Gate β} {i : Nat} {b : β}

/-- Nothing runs behind an open gate. -/
theorem Guarded.idle (h : g.Guarded) (hopen : g.stands = true) : g.running = [] := by
  by_contra hne
  have hshut := h.shut hne
  rw [hopen] at hshut
  nomatch hshut

/-- The body that runs is the only one. -/
theorem Guarded.running_eq (h : g.Guarded) (hb : g.running[i]? = some b) : i = 0 ∧ g.running = [b] := by
  obtain ⟨hi, hget⟩ := List.getElem?_eq_some_iff.1 hb
  have hsingle := h.single
  have hzero : i = 0 := by omega
  have hone : g.running.length = 1 := by omega
  obtain ⟨b', hrun⟩ := List.length_eq_one_iff.1 hone
  simp only [hrun, hzero, List.getElem_cons_zero] at hget
  exact ⟨hzero, by rw [hrun, hget]⟩

/-- An event that is there is reset by the start, and no longer set. -/
theorem stands_start (g : Gate β) (created : Bool) (b : β) : (g.start created b).stands = !g.event.isSome := by
  rw [start, stands]
  cases g.event <;> rfl

/-- What runs when an open gate has been shut. -/
theorem Guarded.running_start (h : g.Guarded) (hopen : g.stands = true) (created : Bool) (b : β) :
    (g.start created b).running = if created then [b] else [] := by
  rw [start, h.idle hopen]
  rfl

/-- Who shuts an open gate, if there is an event, runs alone, or nothing does. -/
theorem Guarded.start (h : g.Guarded) (hopen : g.stands = true) (hevent : g.event.isSome = true) (created : Bool) (b : β) :
    (g.start created b).Guarded := by
  refine ⟨?_, fun _ => ?_⟩
  · rw [h.running_start hopen]
    split <;> simp
  · rw [stands_start, hevent]
    rfl

theorem Guarded.goOn (h : g.Guarded) (i : Nat) (b : β) : (g.goOn i b).Guarded := by
  refine ⟨?_, fun hne => ?_⟩
  · rw [Gate.goOn, List.length_set]
    exact h.single
  · have hrun : g.running ≠ [] := by simpa [Gate.goOn] using hne
    exact h.shut hrun

/-- With the body that runs the last one ends, and sets the event. -/
theorem Guarded.finish (h : g.Guarded) (hb : g.running[i]? = some b) : (g.finish i).Exclusive := by
  obtain ⟨rfl, hrun⟩ := h.running_eq hb
  have hdone : (g.finish 0).running = [] := by rw [Gate.finish, hrun]; rfl
  refine ⟨⟨by simp [hdone], fun hne => absurd hdone hne⟩, fun _ => ?_⟩
  rw [Gate.finish, stands]
  cases g.event <;> rfl

theorem Exclusive.goOn (h : g.Exclusive) (i : Nat) (b : β) : (g.goOn i b).Exclusive := by
  refine ⟨h.toGuarded.goOn i b, fun hidle => ?_⟩
  have hrun : g.running = [] := by simpa [Gate.goOn] using hidle
  exact h.opens hrun

/-- Who shuts an open gate keeps the rule exactly if the thread is created where there is an event for it to set, and is not
where there is none. -/
theorem Exclusive.start_iff (h : g.Exclusive) (hopen : g.stands = true) (created : Bool) (b : β) :
    (g.start created b).Exclusive ↔ created = g.event.isSome := by
  have hrun := h.running_start hopen created b
  have hstands := g.stands_start created b
  constructor
  · intro hex
    cases created with
    | true =>
      have hshut := hex.shut (by simp [hrun])
      simpa [hstands] using hshut.symm
    | false =>
      have hopens := hex.opens (by simp [hrun])
      simpa [hstands] using hopens
  · intro hcreated
    rw [← hcreated] at hstands
    refine ⟨⟨?_, ?_⟩, ?_⟩
    · rw [hrun]
      split <;> simp
    · rw [hrun, hstands]
      cases created <;> simp
    · rw [hrun, hstands]
      cases created <;> simp

end Gate
