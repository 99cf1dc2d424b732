import Mathlib.Tactic

/-!
# Computations that may stop early and meet hazards on their way

A `Run` is one execution of straight-line code with checks: it either goes on with a value or stops early with a reason,
and it records the hazards it met (a wrapped product, a premature allocation) without being stopped by them. `Clean` says
that every hazard recorded is harmless and every early stop a fine one; `clean_bind` is the rule for sequencing.
-/

/-- An execution that records hazards of type `η` and may stop early with a reason of type `ε`. -/
structure Run (η ε α : Type) where
  hazards : List η
  result : Except ε α

namespace Run

variable {η ε α β : Type}

/-- Go on with a value. -/
def go (a : α) : Run η ε α := ⟨[], .ok a⟩

/-- Stop early. -/
def stop (e : ε) : Run η ε α := ⟨[], .error e⟩

/-- Record a hazard if it is there, and go on. -/
def hazardIf (c : Prop) [Decidable c] (h : η) : Run η ε Unit := ⟨if c then [h] else [], .ok ()⟩

/-- Sequencing: what comes after an early stop is not executed. -/
def bind (x : Run η ε α) (f : α → Run η ε β) : Run η ε β :=
  match x.result with
  | .ok a => ⟨x.hazards ++ (f a).hazards, (f a).result⟩
  | .error e => ⟨x.hazards, .error e⟩

instance : Monad (Run η ε) where
  pure := go
  bind := bind

@[simp] theorem pure_eq (a : α) : (pure a : Run η ε α) = go a := rfl

@[simp] theorem result_go (a : α) : (go a : Run η ε α).result = .ok a := rfl

@[simp] theorem hazards_go (a : α) : (go a : Run η ε α).hazards = [] := rfl

@[simp] theorem result_stop (e : ε) : (stop e : Run η ε α).result = .error e := rfl

@[simp] theorem result_hazardIf (c : Prop) [Decidable c] (h : η) : (hazardIf c h : Run η ε Unit).result = .ok () := rfl

@[simp] theorem go_bind (a : α) (f : α → Run η ε β) : (go a >>= f) = f a := rfl

@[simp] theorem stop_bind (e : ε) (f : α → Run η ε β) : (stop e >>= f) = stop e := rfl

/-- A hazard that is absent changes nothing. -/
theorem hazardIf_of_not {c : Prop} [Decidable c] (hc : ¬c) (h : η) : (hazardIf c h : Run η ε Unit) = go () := by
  simp [hazardIf, hc, go]

/-- A hazard that is there is recorded. -/
theorem hazardIf_bind {c : Prop} [Decidable c] (hc : c) (h : η) (f : Unit → Run η ε β) :
    (hazardIf c h >>= f) = ⟨h :: (f ()).hazards, (f ()).result⟩ := by
  show bind (hazardIf c h) f = _
  simp [bind, hazardIf, hc]

/-- The result of a sequence whose first part goes on. -/
theorem result_bind_ok {x : Run η ε α} {a : α} (h : x.result = .ok a) (f : α → Run η ε β) :
    (x >>= f).result = (f a).result := by
  show (bind x f).result = _
  simp only [bind, h]

/-- The result of a sequence whose first part stops. -/
theorem result_bind_error {x : Run η ε α} {e : ε} (h : x.result = .error e) (f : α → Run η ε β) :
    (x >>= f).result = .error e := by
  show (bind x f).result = _
  simp only [bind, h]

/-- A sequence goes on exactly when both parts do. -/
theorem result_bind_eq_ok {x : Run η ε α} {f : α → Run η ε β} {b : β} :
    (x >>= f).result = .ok b ↔ ∃ a, x.result = .ok a ∧ (f a).result = .ok b := by
  cases h : x.result with
  | error e => simp [result_bind_error h]
  | ok a => simp [result_bind_ok h]

/-! ## Clean executions -/

/-- Every hazard recorded is harmless (`H`) and an early stop, if there is one, is a fine one (`E`). -/
structure Clean (H : η → Prop) (E : ε → Prop) (x : Run η ε α) : Prop where
  harmless : ∀ h ∈ x.hazards, H h
  fine : ∀ e, x.result = .error e → E e

variable {H : η → Prop} {E : ε → Prop}

@[simp] theorem clean_go (a : α) : (go a : Run η ε α).Clean H E := ⟨by simp, by simp⟩

@[simp] theorem clean_stop (e : ε) : (stop e : Run η ε α).Clean H E ↔ E e :=
  ⟨fun h => h.fine e rfl, fun h => ⟨by simp [stop], by rintro e' ⟨⟩; exact h⟩⟩

@[simp] theorem clean_hazardIf (c : Prop) [Decidable c] (h : η) :
    (hazardIf c h : Run η ε Unit).Clean H E ↔ (c → H h) := by
  constructor
  · intro hc hp
    exact hc.harmless h (by simp [hazardIf, hp])
  · intro hc
    refine ⟨?_, by simp⟩
    intro h' hh
    by_cases hp : c
    · simp only [hazardIf, hp, if_true, List.mem_singleton] at hh
      exact hh ▸ hc hp
    · simp [hazardIf, hp] at hh

/-- A sequence is clean exactly when its first part is, and the second is for the value the first goes on with. -/
theorem clean_bind {x : Run η ε α} {f : α → Run η ε β} :
    (x >>= f).Clean H E ↔ x.Clean H E ∧ ∀ a, x.result = .ok a → (f a).Clean H E := by
  show (bind x f).Clean H E ↔ _
  cases h : x.result with
  | error e =>
    simp only [bind, h]
    constructor
    · intro hc
      refine ⟨⟨hc.harmless, fun e' he => ?_⟩, by simp⟩
      rw [h] at he
      cases he
      exact hc.fine e rfl
    · rintro ⟨hc, -⟩
      refine ⟨hc.harmless, fun e' he => ?_⟩
      cases he
      exact hc.fine e h
  | ok a =>
    simp only [bind, h]
    constructor
    · intro hc
      refine ⟨⟨fun y hy => hc.harmless y (List.mem_append_left _ hy), fun e he => ?_⟩, ?_⟩
      · rw [h] at he
        cases he
      · rintro b ⟨⟩
        exact ⟨fun y hy => hc.harmless y (List.mem_append_right _ hy), hc.fine⟩
    · rintro ⟨hc, hf⟩
      have hfa := hf a rfl
      refine ⟨?_, hfa.fine⟩
      intro y hy
      rcases List.mem_append.1 hy with hy | hy
      · exact hc.harmless y hy
      · exact hfa.harmless y hy

end Run
