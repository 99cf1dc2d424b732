import WinIndex.Lib.Trace

/-!
# Sections under a shared mutex

Threads go through sections of two kinds. In an exclusive one a thread changes a value, in several moves; in a shared one it
looks at the value, turn after turn, and leaves a result behind. A thread enters an exclusive section only while no thread is
in any, and a shared one only while none is in an exclusive one.

Whatever the order of their turns, the threads do what a machine does that takes every section at once, when it is left. So no
reader sees a value that is half changed, nor two values.
-/

namespace SharedMutex

open Trace

variable {α σ ι : Type*}

/-- A section: the moves of a writer, which may depend on the value it finds; or a reader as it begins. -/
inductive Section (α σ : Type*) where
  | exclusive (moves : α → List (α → α))
  | shared (reader : σ)

/-- What readers do: a turn, given the value, and whether they are through. -/
structure Readers (α σ ι : Type*) where
  look : α → σ → ι → σ
  through : σ → Bool

/-- Where a thread is: in no section, in an exclusive one with some moves left, or in a shared one. -/
inductive Place (α σ : Type*) where
  | outside
  | writing (left : List (α → α))
  | reading (now : σ)

/-- A thread: where it is, and the sections it has not left yet; the one it is in comes first. -/
structure Thread (α σ : Type*) where
  place : Place α σ
  todo : List (Section α σ)

/-- The thread holds the mutex exclusively. -/
def Thread.isWriting (x : Thread α σ) : Bool :=
  match x.place with
  | .writing _ => true
  | _ => false

/-- The thread holds the mutex. -/
def Thread.isInside (x : Thread α σ) : Bool :=
  match x.place with
  | .outside => false
  | _ => true

/-- The value, the threads, and what the readers have left behind, each with its thread. -/
structure State (α σ : Type*) where
  value : α
  threads : List (Thread α σ)
  results : List (Nat × σ)

/-- The state in which no thread is in a section. -/
def State.start (value : α) (todos : List (List (Section α σ))) : State α σ := ⟨value, todos.map (⟨.outside, ·⟩), []⟩

/-- A thread takes up or leaves a place. -/
def State.put (s : State α σ) (i : Nat) (x : Thread α σ) : State α σ := { s with threads := s.threads.set i x }

/-- The turn of a thread. One that may not enter its section waits. -/
def step (R : Readers α σ ι) (s : State α σ) (l : Nat × ι) : State α σ :=
  match s.threads[l.1]? with
  | some ⟨.outside, .exclusive moves :: todo⟩ =>
    if s.threads.any Thread.isInside then s else s.put l.1 ⟨.writing (moves s.value), .exclusive moves :: todo⟩
  | some ⟨.outside, .shared reader :: todo⟩ =>
    if s.threads.any Thread.isWriting then s else s.put l.1 ⟨.reading reader, .shared reader :: todo⟩
  | some ⟨.writing (move :: left), todo⟩ => { s with value := move s.value }.put l.1 ⟨.writing left, todo⟩
  | some ⟨.writing [], _ :: todo⟩ => s.put l.1 ⟨.outside, todo⟩
  | some ⟨.reading now, sec :: todo⟩ =>
    if R.through now then { s with results := s.results ++ [(l.1, now)] }.put l.1 ⟨.outside, todo⟩
    else s.put l.1 ⟨.reading (R.look s.value now l.2), sec :: todo⟩
  | _ => s

/-! ## One section at a time -/

/-- The same with every section taken at once: no thread is ever in one. -/
structure Serial (α σ : Type*) where
  value : α
  todos : List (List (Section α σ))
  results : List (Nat × σ)

/-- The moves of a writer, one after the other. -/
def apply (moves : List (α → α)) (value : α) : α := moves.foldl (fun value move => move value) value

/-- A thread takes its next section, a reader with these turns, which bring it through. -/
def serialStep (R : Readers α σ ι) (t : Serial α σ) (l : Nat × List ι) : Serial α σ :=
  match t.todos[l.1]? with
  | some (.exclusive moves :: todo) => { t with value := apply (moves t.value) t.value, todos := t.todos.set l.1 todo }
  | some (.shared reader :: todo) =>
    let now := l.2.foldl (R.look t.value) reader
    if R.through now then { t with todos := t.todos.set l.1 todo, results := t.results ++ [(l.1, now)] } else t
  | _ => t

/-- What the threads have still to do. -/
def State.todos (s : State α σ) : List (List (Section α σ)) := s.threads.map Thread.todo

/-- The state as it is when no thread is in a section, the value being another. -/
def State.serial (s : State α σ) (value : α) : Serial α σ := ⟨value, s.todos, s.results⟩

/-! ## What holds in every state -/

/-- A thread has come where it is from a value `b`, which was there before the section of a writer: `v` is there now. -/
def Thread.From (R : Readers α σ ι) (b v : α) (x : Thread α σ) : Prop :=
  match x.place with
  | .outside => True
  | .writing left => ∃ moves todo done, x.todo = .exclusive moves :: todo ∧ moves b = done ++ left ∧ v = apply done b
  | .reading now => ∃ reader todo turns, x.todo = .shared reader :: todo ∧ now = List.foldl (R.look b) reader turns

/-- The threads have come where they are from the value `b`; a writer is in its section alone, and while there is none the value
is `b`. -/
structure State.Valid (R : Readers α σ ι) (b : α) (s : State α σ) : Prop where
  come : ∀ (i : Nat) (x : Thread α σ), s.threads[i]? = some x → x.From R b s.value
  alone : ∀ (i j : Nat) (x y : Thread α σ), s.threads[i]? = some x → s.threads[j]? = some y → x.isWriting = true →
    y.isInside = true → i = j
  value : (∀ x ∈ s.threads, x.isWriting = false) → s.value = b

variable {R : Readers α σ ι} {b : α} {s : State α σ}

theorem Thread.isInside_of_isWriting {x : Thread α σ} (h : x.isWriting = true) : x.isInside = true := by
  unfold isWriting at h
  unfold isInside
  split at h
  · rename_i left hplace
    rw [hplace]
  · nomatch h

/-- What is outside has come from anywhere. -/
theorem Thread.from_outside {x : Thread α σ} {v : α} (h : x.isInside = false) : x.From R b v := by
  unfold isInside at h
  unfold From
  split at h
  · rename_i hplace
    rw [hplace]
    trivial
  · nomatch h

theorem State.valid_start (R : Readers α σ ι) (value : α) (todos : List (List (Section α σ))) :
    (State.start value todos).Valid R value := by
  have hout : ∀ x ∈ (State.start value todos).threads, x.isInside = false := by
    intro x hx
    obtain ⟨todo, -, rfl⟩ := List.mem_map.1 hx
    rfl
  refine ⟨fun i x hx => Thread.from_outside (hout x (List.mem_of_getElem? hx)), fun i j x y hx hy _ hin => ?_, fun _ => rfl⟩
  rw [hout y (List.mem_of_getElem? hy)] at hin
  nomatch hin

/-- The thread at an index of a list in which one was replaced. -/
theorem getElem?_put {i j : Nat} {x y : Thread α σ} (h : (s.put i x).threads[j]? = some y) :
    j = i ∧ y = x ∨ j ≠ i ∧ s.threads[j]? = some y := by
  rw [State.put, List.getElem?_set] at h
  by_cases hij : i = j
  · rw [if_pos hij] at h
    split at h
    · exact .inl ⟨hij.symm, (Option.some.inj h).symm⟩
    · nomatch h
  · rw [if_neg hij] at h
    exact .inr ⟨Ne.symm hij, h⟩

/-- While a thread is in an exclusive section, every other is outside. -/
theorem State.Valid.others_outside (h : s.Valid R b) {i j : Nat} {x y : Thread α σ} (hx : s.threads[i]? = some x)
    (hw : x.isWriting = true) (hy : s.threads[j]? = some y) (hij : j ≠ i) : y.isInside = false := by
  by_contra hin
  exact hij (h.alone i j x y hx hy hw (by simpa using hin)).symm

theorem State.todos_put (i : Nat) (x : Thread α σ) : (s.put i x).todos = s.todos.set i x.todo := List.map_set

/-- To the serial machine nothing happens while a thread keeps the sections it has to leave. -/
theorem State.serial_put {i : Nat} {place : Place α σ} {todo : List (Section α σ)}
    (hx : s.threads[i]? = some ⟨place, todo⟩) (v : α) (place' : Place α σ) :
    ({ s with value := v }.put i ⟨place', todo⟩).serial b = s.serial b := by
  have hself : s.todos[i]? = some todo := by rw [State.todos, List.getElem?_map, hx]; rfl
  obtain ⟨hi, hget⟩ := List.getElem?_eq_some_iff.1 hself
  have htodos : s.todos.set i todo = s.todos := by rw [← hget, List.set_getElem_self]
  rw [State.serial, State.todos_put]
  exact congrArg (fun todos => Serial.mk b todos s.results) htodos

/-! ## One turn -/

/-- A thread that takes up an exclusive section. -/
theorem State.Valid.enterExclusive (h : s.Valid R b) {i : Nat} {moves : α → List (α → α)} {todo : List (Section α σ)}
    (hfree : s.threads.any Thread.isInside = false) :
    (s.put i ⟨.writing (moves s.value), .exclusive moves :: todo⟩).Valid R b := by
  have hout : ∀ x ∈ s.threads, x.isInside = false := by simpa using hfree
  have hvalue : s.value = b := h.value (fun x hx => by
    by_contra hw
    have := Thread.isInside_of_isWriting (x := x) (by simpa using hw)
    rw [hout x hx] at this
    nomatch this)
  refine ⟨fun j y hy => ?_, fun j k y z hy hz hyw hzin => ?_, fun hnone => hvalue⟩
  · rcases getElem?_put hy with ⟨-, rfl⟩ | ⟨-, hy⟩
    · exact ⟨moves, todo, [], rfl, by rw [hvalue]; rfl, hvalue⟩
    · exact Thread.from_outside (hout y (List.mem_of_getElem? hy))
  · have hinside : ∀ j y, (s.put i ⟨.writing (moves s.value), .exclusive moves :: todo⟩).threads[j]? = some y →
        y.isInside = true → j = i := by
      intro j y hy hin
      rcases getElem?_put hy with ⟨hj, -⟩ | ⟨-, hy⟩
      · exact hj
      · rw [hout y (List.mem_of_getElem? hy)] at hin
        nomatch hin
    rw [hinside j y hy (Thread.isInside_of_isWriting hyw), hinside k z hz hzin]

/-- A thread in a shared section, as it begins or after a turn. -/
theorem State.Valid.read (h : s.Valid R b) {i : Nat} {reader now : σ} {todo : List (Section α σ)} (turns : List ι)
    (hnone : s.threads.any Thread.isWriting = false) (hnow : now = turns.foldl (R.look b) reader) :
    (s.put i ⟨.reading now, .shared reader :: todo⟩).Valid R b := by
  have hno : ∀ x ∈ s.threads, x.isWriting = false := by simpa using hnone
  refine ⟨fun j y hy => ?_, fun j k y z hy _ hyw _ => ?_, fun _ => h.value hno⟩
  · rcases getElem?_put hy with ⟨-, rfl⟩ | ⟨-, hy⟩
    · exact ⟨reader, todo, turns, rfl, hnow⟩
    · exact h.come j y hy
  · rcases getElem?_put hy with ⟨-, rfl⟩ | ⟨-, hy⟩
    · nomatch hyw
    · rw [hno y (List.mem_of_getElem? hy)] at hyw
      nomatch hyw

/-- A writer makes a move; all others are outside. -/
theorem State.Valid.write (h : s.Valid R b) {i : Nat} {move : α → α} {left : List (α → α)} {todo : List (Section α σ)}
    (hx : s.threads[i]? = some ⟨.writing (move :: left), todo⟩) :
    ({ s with value := move s.value }.put i ⟨.writing left, todo⟩).Valid R b := by
  have hothers : ∀ (j : Nat) (y : Thread α σ), j ≠ i → s.threads[j]? = some y → y.isInside = false :=
    fun j y hj hy => h.others_outside hx rfl hy hj
  have hinside : ∀ (j : Nat) (y : Thread α σ),
      ({ s with value := move s.value }.put i ⟨.writing left, todo⟩).threads[j]? = some y → y.isInside = true → j = i := by
    intro j y hy hin
    rcases getElem?_put hy with ⟨hj, -⟩ | ⟨hj, hy⟩
    · exact hj
    · rw [hothers j y hj hy] at hin
      nomatch hin
  obtain ⟨moves, rest, done, htodo, hmoves, hvalue⟩ := h.come i _ hx
  refine ⟨fun j y hy => ?_, fun j k y z hy hz hyw hzin => ?_, fun hnone => ?_⟩
  · rcases getElem?_put hy with ⟨-, rfl⟩ | ⟨hj, hy⟩
    · refine ⟨moves, rest, done ++ [move], htodo, by simp [hmoves], ?_⟩
      show move s.value = _
      rw [hvalue, apply, apply, List.foldl_append]
      rfl
    · exact Thread.from_outside (hothers j y hj hy)
  · rw [hinside j y hy (Thread.isInside_of_isWriting hyw), hinside k z hz hzin]
  · have hi := (List.getElem?_eq_some_iff.1 hx).1
    have := hnone ⟨.writing left, todo⟩ (List.mem_of_getElem? (i := i) (List.getElem?_set_self hi))
    nomatch this

/-- While a thread is in a shared section, none is in an exclusive one. -/
theorem State.Valid.none_writing (h : s.Valid R b) {i : Nat} {now : σ} {todo : List (Section α σ)}
    (hx : s.threads[i]? = some ⟨.reading now, todo⟩) : ∀ y ∈ s.threads, y.isWriting = false := by
  intro y hy
  by_contra hw
  obtain ⟨j, hj⟩ := List.mem_iff_getElem?.1 hy
  have hji := h.alone j i y _ hj hx (by simpa using hw) rfl
  rw [hji, hx] at hj
  cases hj
  exact hw rfl

/-- A thread outside takes the place of one. -/
theorem State.Valid.leave (h : s.Valid R b) {i : Nat} {b' : α} {todo : List (Section α σ)} {results : List (Nat × σ)}
    (hcome : ∀ (j : Nat) (y : Thread α σ), j ≠ i → s.threads[j]? = some y → y.From R b' s.value)
    (hvalue : (∀ (j : Nat) (y : Thread α σ), j ≠ i → s.threads[j]? = some y → y.isWriting = false) → s.value = b') :
    ({ s with results := results }.put i ⟨.outside, todo⟩).Valid R b' := by
  refine ⟨fun j y hy => ?_, fun j k y z hy hz hyw hzin => ?_, fun hnone => hvalue (fun j y hj hy => ?_)⟩
  · rcases getElem?_put hy with ⟨-, rfl⟩ | ⟨hj, hy⟩
    · trivial
    · exact hcome j y hj hy
  · rcases getElem?_put hy with ⟨-, rfl⟩ | ⟨-, hy⟩
    · nomatch hyw
    · rcases getElem?_put hz with ⟨-, rfl⟩ | ⟨-, hz⟩
      · nomatch hzin
      · exact h.alone j k y z hy hz hyw hzin
  · refine hnone y (List.mem_of_getElem? (i := j) ?_)
    show (s.threads.set i _)[j]? = some y
    rw [List.getElem?_set_ne (Ne.symm hj), hy]

/-- A turn of a thread is a section of the serial machine, which comes to its end, or nothing. -/
theorem State.Valid.step (h : s.Valid R b) (l : Nat × ι) :
    ∃ ks b', (SharedMutex.step R s l).Valid R b' ∧
      final (serialStep R) (s.serial b) ks = (SharedMutex.step R s l).serial b' := by
  obtain ⟨i, l⟩ := l
  simp only [SharedMutex.step]
  cases hx : s.threads[i]? with
  | none => exact ⟨[], b, h, rfl⟩
  | some x =>
    have hcome := h.come i x hx
    obtain ⟨place, todo⟩ := x
    have hself : s.todos[i]? = some todo := by rw [State.todos, List.getElem?_map, hx]; rfl
    cases place with
    | outside =>
      cases todo with
      | nil => exact ⟨[], b, h, rfl⟩
      | cons sec todo =>
        cases sec with
        | exclusive moves =>
          simp only
          split
          · exact ⟨[], b, h, rfl⟩
          · rename_i hfree
            exact ⟨[], b, h.enterExclusive (by simpa using hfree), (State.serial_put hx _ _).symm⟩
        | shared reader =>
          simp only
          split
          · exact ⟨[], b, h, rfl⟩
          · rename_i hnone
            exact ⟨[], b, h.read [] (by simpa using hnone) rfl, (State.serial_put hx _ _).symm⟩
    | writing left =>
      obtain ⟨moves, rest, done, htodo, hmoves, hvalue⟩ := hcome
      simp only at htodo
      subst htodo
      cases left with
      | nil =>
        -- the section is left: the serial machine takes it now
        rw [List.append_nil] at hmoves
        refine ⟨[(i, [])], s.value, ?_, ?_⟩
        · exact h.leave (fun j y hj hy => Thread.from_outside (h.others_outside hx rfl hy hj)) (fun _ => rfl)
        · rw [final_cons, final_nil, State.serial, serialStep]
          simp only [hself]
          rw [hmoves, ← hvalue, State.serial, State.todos_put]
          rfl
      | cons move left =>
        exact ⟨[], b, h.write hx, (State.serial_put hx _ _).symm⟩
    | reading now =>
      obtain ⟨reader, rest, turns, htodo, hnow⟩ := hcome
      simp only at htodo
      subst htodo
      have hnone := h.none_writing hx
      have hvalue : s.value = b := h.value hnone
      simp only
      split
      · -- the reader leaves its result: the serial machine takes its turns now
        rename_i hthrough
        refine ⟨[(i, turns)], b, ?_, ?_⟩
        · exact h.leave (fun j y _ hy => h.come j y hy) (fun _ => hvalue)
        · rw [final_cons, final_nil, State.serial, serialStep]
          simp only [hself]
          rw [← hnow, if_pos hthrough, State.serial, State.todos_put]
          rfl
      · refine ⟨[], b, h.read (turns ++ [l]) (by simpa using hnone) ?_, (State.serial_put hx _ _).symm⟩
        rw [List.foldl_append, ← hnow, hvalue]
        rfl

/-! ## A run -/

/-- A run from a state that has come from a value: the serial machine gets from there to where the run ends. -/
theorem State.Valid.run (h : s.Valid R b) (ls : List (Nat × ι)) :
    ∃ ks b', (final (SharedMutex.step R) s ls).Valid R b' ∧
      final (serialStep R) (s.serial b) ks = (final (SharedMutex.step R) s ls).serial b' := by
  induction ls generalizing s b with
  | nil => exact ⟨[], b, h, rfl⟩
  | cons l ls ih =>
    obtain ⟨ks, b', hstep, hserial⟩ := h.step l
    obtain ⟨ks', b'', hrest, hserial'⟩ := ih hstep
    exact ⟨ks ++ ks', b'', hrest, by rw [final_append, hserial, hserial', final_cons]⟩

/-- No thread is in a section. -/
def State.Outside (s : State α σ) : Prop := ∀ x ∈ s.threads, x.isInside = false

/-- While no thread is in a section, the value is the one of the serial machine. -/
theorem State.Valid.value_of_outside (h : s.Valid R b) (hout : s.Outside) : s.value = b := by
  refine h.value (fun x hx => ?_)
  by_contra hw
  have := Thread.isInside_of_isWriting (x := x) (by simpa using hw)
  rw [hout x hx] at this
  nomatch this

end SharedMutex
