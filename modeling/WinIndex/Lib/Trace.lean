import Mathlib.Tactic

/-!
# Runs of a system that takes one labelled step after another

A run is the list of the labels taken; the label carries every choice, so a step is a function. `Along P` says that every
state of a run satisfies `P`, `Meets ok` that every step is taken in a state in which it meets `ok`. The rules below turn a
fact about one step into a fact about every run.
-/

namespace Trace

variable {σ τ ι : Type*}

/-- The state a run ends in. -/
def final (f : σ → ι → σ) (s : σ) (ls : List ι) : σ := ls.foldl f s

/-- Every state of the run, the first and the last included, satisfies `P`. -/
def Along (P : σ → Prop) (f : σ → ι → σ) (s : σ) (ls : List ι) : Prop := ∀ k, P (final f s (ls.take k))

/-- Every step of the run meets `ok` in the state it is taken in. -/
def Meets (ok : σ → ι → Prop) (f : σ → ι → σ) : σ → List ι → Prop
  | _, [] => True
  | s, l :: ls => ok s l ∧ Meets ok f (f s l) ls

@[simp] theorem final_nil (f : σ → ι → σ) (s : σ) : final f s [] = s := rfl
@[simp] theorem final_cons (f : σ → ι → σ) (s : σ) (l : ι) (ls : List ι) : final f s (l :: ls) = final f (f s l) ls := rfl

theorem final_append (f : σ → ι → σ) (s : σ) (ls ls' : List ι) : final f s (ls ++ ls') = final f (final f s ls) ls' :=
  List.foldl_append

variable {P : σ → Prop} {ok ok' : σ → ι → Prop} {f : σ → ι → σ}

theorem Along.start {s : σ} {ls : List ι} (h : Along P f s ls) : P s := h 0

/-- The last state of a run is one of its states. -/
theorem Along.final {s : σ} {ls : List ι} (h : Along P f s ls) : P (final f s ls) := by
  have := h ls.length
  rwa [List.take_length] at this

theorem Along.imp {Q : σ → Prop} {s : σ} {ls : List ι} (h : Along P f s ls) (hPQ : ∀ s, P s → Q s) : Along Q f s ls :=
  fun k => hPQ _ (h k)

theorem along_nil {s : σ} : Along P f s [] ↔ P s :=
  ⟨fun h => h 0, fun h k => by simpa using h⟩

theorem along_cons {s : σ} {l : ι} {ls : List ι} : Along P f s (l :: ls) ↔ P s ∧ Along P f (f s l) ls := by
  constructor
  · intro h
    exact ⟨h 0, fun k => h (k + 1)⟩
  · rintro ⟨h0, h⟩ k
    cases k with
    | zero => exact h0
    | succ k => exact h k

/-- A property that can be decided can be decided along a run. -/
instance decidableAlong [DecidablePred P] (f : σ → ι → σ) : (s : σ) → (ls : List ι) → Decidable (Along P f s ls)
  | _, [] => decidable_of_iff _ along_nil.symm
  | s, l :: ls =>
    have := decidableAlong f (f s l) ls
    decidable_of_iff (P s ∧ Along P f (f s l) ls) along_cons.symm

/-- A step condition that can be decided can be decided for a run. -/
instance decidableMeets (ok : σ → ι → Prop) [∀ s l, Decidable (ok s l)] (f : σ → ι → σ) :
    (s : σ) → (ls : List ι) → Decidable (Meets ok f s ls)
  | _, [] => .isTrue trivial
  | s, l :: ls =>
    have := decidableMeets ok f (f s l) ls
    inferInstanceAs (Decidable (ok s l ∧ Meets ok f (f s l) ls))

theorem along_append {s : σ} {ls ls' : List ι} :
    Along P f s (ls ++ ls') ↔ Along P f s ls ∧ Along P f (Trace.final f s ls) ls' := by
  induction ls generalizing s with
  | nil => exact ⟨fun h => ⟨along_nil.2 h.start, h⟩, fun h => h.2⟩
  | cons l ls ih => rw [List.cons_append, along_cons, along_cons, ih, final_cons, and_assoc]

/-- A condition that every step meets is met by every run. -/
theorem meets_of_forall (h : ∀ s l, ok s l) (f : σ → ι → σ) (s : σ) (ls : List ι) : Meets ok f s ls := by
  induction ls generalizing s with
  | nil => trivial
  | cons l ls ih => exact ⟨h s l, ih _⟩

theorem meets_trivial (f : σ → ι → σ) (s : σ) (ls : List ι) : Meets (fun _ _ => True) f s ls :=
  meets_of_forall (fun _ _ => trivial) f s ls

/-- A condition on a step that its result shows, where every state of the run satisfies `P`. -/
theorem Along.meets (hstep : ∀ s l, P (f s l) → ok s l) {s : σ} {ls : List ι} (h : Along P f s ls) : Meets ok f s ls := by
  induction ls generalizing s with
  | nil => trivial
  | cons l ls ih =>
    obtain ⟨-, hls⟩ := along_cons.1 h
    exact ⟨hstep s l hls.start, ih hls⟩

/-- A condition on the labels alone. -/
theorem meets_of_forall_mem {good : ι → Prop} {s : σ} {ls : List ι} (h : ∀ l ∈ ls, good l) :
    Meets (fun _ l => good l) f s ls := by
  induction ls generalizing s with
  | nil => trivial
  | cons l ls ih => exact ⟨h l (by simp), ih (fun x hx => h x (by simp [hx]))⟩

theorem Meets.and {s : σ} {ls : List ι} (h : Meets ok f s ls) (h' : Meets ok' f s ls) :
    Meets (fun s l => ok s l ∧ ok' s l) f s ls := by
  induction ls generalizing s with
  | nil => trivial
  | cons l ls ih => exact ⟨⟨h.1, h'.1⟩, ih h.2 h'.2⟩

/-- The invariant rule: what holds at the start and is kept by every step that meets `ok` holds all along. -/
theorem along_of_step (hstep : ∀ s l, P s → ok s l → P (f s l)) {s : σ} {ls : List ι} (h0 : P s) (h : Meets ok f s ls) :
    Along P f s ls := by
  induction ls generalizing s with
  | nil => exact along_nil.2 h0
  | cons l ls ih => exact along_cons.2 ⟨h0, ih (hstep s l h0 h.1) h.2⟩

/-- The invariant rule for a run of one label alone. -/
theorem along_replicate (n : Nat) {l : ι} (hstep : ∀ s, P s → P (f s l)) {s : σ} (h0 : P s) :
    Along P f s (List.replicate n l) := by
  induction n generalizing s with
  | zero => exact along_nil.2 h0
  | succ n ih => exact along_cons.2 ⟨h0, ih (hstep s h0)⟩

/-- The projection rule: where `P` holds, a step shows as one of another system; along a run on which it holds the run shows as a
run of that system. -/
theorem Along.map_final {g : τ → ι → τ} (φ : σ → τ) (hstep : ∀ s l, P s → φ (f s l) = g (φ s) l) {s : σ} {ls : List ι}
    (h : Along P f s ls) : φ (Trace.final f s ls) = Trace.final g (φ s) ls := by
  induction ls generalizing s with
  | nil => rfl
  | cons l ls ih =>
    obtain ⟨hs, hls⟩ := along_cons.1 h
    rw [final_cons, final_cons, ih hls, hstep s l hs]

/-- The exact invariant rule: where a step keeps `P` exactly when it meets `ok`, a run keeps it all along exactly when every
step meets `ok`. `I` is what holds besides as long as the steps meet `side` and `ok`. -/
theorem along_iff_meets {I : σ → Prop} {side : σ → ι → Prop} (hI : ∀ s l, I s → side s l → ok s l → I (f s l))
    (hstep : ∀ s l, I s → P s → side s l → (P (f s l) ↔ ok s l)) {s : σ} {ls : List ι} (hI0 : I s) (hP0 : P s)
    (hside : Meets side f s ls) : Along P f s ls ↔ Meets ok f s ls := by
  induction ls generalizing s with
  | nil => exact ⟨fun _ => trivial, fun _ => along_nil.2 hP0⟩
  | cons l ls ih =>
    obtain ⟨hl, hls⟩ := hside
    rw [along_cons]
    constructor
    · rintro ⟨-, h⟩
      have hP : P (f s l) := h.start
      have hok : ok s l := (hstep s l hI0 hP0 hl).1 hP
      exact ⟨hok, (ih (hI s l hI0 hl hok) hP hls).1 h⟩
    · rintro ⟨hok, h⟩
      have hP : P (f s l) := (hstep s l hI0 hP0 hl).2 hok
      exact ⟨hP0, (ih (hI s l hI0 hl hok) hP hls).2 h⟩

/-- The exact rule for a measure that no step lowers: a run ends where it started exactly when every step leaves it as it
is. -/
theorem conserved_iff_meets {E : σ → Nat} {I : σ → Prop} {side : σ → ι → Prop} (hI : ∀ s l, I s → side s l → I (f s l))
    (hle : ∀ s l, I s → side s l → E s ≤ E (f s l)) (hstep : ∀ s l, I s → side s l → (E (f s l) = E s ↔ ok s l)) {s : σ}
    {ls : List ι} (hI0 : I s) (hside : Meets side f s ls) :
    E s ≤ E (final f s ls) ∧ (E (final f s ls) = E s ↔ Meets ok f s ls) := by
  induction ls generalizing s with
  | nil => exact ⟨Nat.le_refl _, fun _ => trivial, fun _ => rfl⟩
  | cons l ls ih =>
    obtain ⟨hl, hls⟩ := hside
    obtain ⟨hrest, hiff⟩ := ih (hI s l hI0 hl) hls
    have hfirst := hle s l hI0 hl
    refine ⟨Nat.le_trans hfirst hrest, ?_⟩
    rw [final_cons]
    constructor
    · intro h
      exact ⟨(hstep s l hI0 hl).1 (by omega), hiff.1 (by omega)⟩
    · rintro ⟨hok, h⟩
      rw [hiff.2 h, (hstep s l hI0 hl).2 hok]

/-- Two step conditions that agree under an invariant, which every step that meets the first keeps, are met by the same runs.
The run is only asked about where its steps meet `side`. -/
theorem meets_congr {I : σ → Prop} {side : σ → ι → Prop} (hstep : ∀ s l, I s → side s l → ok s l → I (f s l))
    (hiff : ∀ s l, I s → side s l → (ok s l ↔ ok' s l)) {s : σ} {ls : List ι} (h0 : I s) (hside : Meets side f s ls) :
    Meets ok f s ls ↔ Meets ok' f s ls := by
  induction ls generalizing s with
  | nil => exact Iff.rfl
  | cons l ls ih =>
    constructor
    · rintro ⟨hl, hls⟩
      exact ⟨(hiff s l h0 hside.1).1 hl, (ih (hstep s l h0 hside.1 hl) hside.2).1 hls⟩
    · rintro ⟨hl, hls⟩
      have hl' := (hiff s l h0 hside.1).2 hl
      exact ⟨hl', (ih (hstep s l h0 hside.1 hl') hside.2).2 hls⟩

/-- The simulation rule: two systems that take the same labels stay related when every step relates again, as long as the
states of the second one satisfy `Q`. -/
theorem simulation {g : τ → ι → τ} {R : σ → τ → Prop} {Q : τ → Prop} {good : ι → Prop}
    (hstep : ∀ s t l, R s t → Q t → good l → Q (g t l) → R (f s l) (g t l)) {s : σ} {t : τ} {ls : List ι} (h0 : R s t)
    (hl : ∀ l ∈ ls, good l) (hQ : Along Q g t ls) : R (final f s ls) (final g t ls) := by
  induction ls generalizing s t with
  | nil => exact h0
  | cons l ls ih =>
    obtain ⟨hQt, hQ'⟩ := along_cons.1 hQ
    exact ih (hstep s t l h0 hQt (hl l (by simp)) hQ'.start) (fun x hx => hl x (by simp [hx])) hQ'

/-- The same, where it is the first system's steps that have to meet a condition. -/
theorem simulation_of_meets {g : τ → ι → τ} {R : σ → τ → Prop} (hstep : ∀ s t l, R s t → ok s l → R (f s l) (g t l)) {s : σ}
    {t : τ} {ls : List ι} (h0 : R s t) (h : Meets ok f s ls) : R (final f s ls) (final g t ls) := by
  induction ls generalizing s t with
  | nil => exact h0
  | cons l ls ih => exact ih (hstep s t l h0 h.1) h.2

/-- The exact invariant rule for a system whose steps are themselves short runs: every state on the way, those inside the
steps included, satisfies `P` exactly when every step meets `ok`. `I` is what holds between steps in any case, where they
meet `side`. -/
theorem along_flatMap_iff {κ : Type*} {ops : κ → List ι} {I : σ → Prop} {side ok : σ → κ → Prop}
    (hI : ∀ s k, I s → side s k → I (final f s (ops k)))
    (hstep : ∀ s k, I s → P s → side s k → (Along P f s (ops k) ↔ ok s k)) {s : σ} {ks : List κ} (hI0 : I s) (hP0 : P s)
    (hside : Meets side (fun s k => final f s (ops k)) s ks) :
    Along P f s (ks.flatMap ops) ↔ Meets ok (fun s k => final f s (ops k)) s ks := by
  induction ks generalizing s with
  | nil => exact ⟨fun _ => trivial, fun _ => along_nil.2 hP0⟩
  | cons k ks ih =>
    rw [List.flatMap_cons, along_append]
    constructor
    · rintro ⟨hk, hks⟩
      exact ⟨(hstep s k hI0 hP0 hside.1).1 hk, (ih (hI s k hI0 hside.1) hks.start hside.2).1 hks⟩
    · rintro ⟨hk, hks⟩
      have hk' := (hstep s k hI0 hP0 hside.1).2 hk
      exact ⟨hk', (ih (hI s k hI0 hside.1) hk'.final hside.2).2 hks⟩

end Trace
