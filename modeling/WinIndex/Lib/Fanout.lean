import Mathlib.Data.List.TakeWhile
import WinIndex.Lib.Trace

/-!
# A filter fanned out over workers

Workers go through consecutive chunks of a range of indices, each testing its own in order and keeping what passes. A counter
they share says how much has been found; a worker that sees it at the cap stops. The counter has a width, and a load of it
may be stale: it sees the value of any earlier moment. The results are put together in the order of the chunks and cut off at
the cap.

Whatever the order of their turns, what the workers find is a sublist of the sequential filter, and the whole of it unless
the cap is reached. Which part of it, when there is more than the cap, is up to the order.
-/

namespace Fanout

open Trace

variable {ρ : Type*}

/-- What a worker does next: look at an index, count what it has just found, or nothing any more. -/
inductive Phase where
  | testing | counting | ended
  deriving DecidableEq

/-- A worker: the index it is at, where its chunk stops, and what it has found. -/
structure Worker (ρ : Type*) where
  next : Nat
  stop : Nat
  found : List ρ
  phase : Phase

/-- A worker at the start of its chunk. -/
def Worker.start (chunk : Nat × Nat) : Worker ρ := ⟨chunk.1, chunk.2, [], .testing⟩

/-- The workers, in the order of their chunks, and how often the counter has been incremented. -/
structure State (ρ : Type*) where
  workers : List (Worker ρ)
  count : Nat

/-- The state in which every worker is at the start of its chunk. -/
def State.start (chunks : List (Nat × Nat)) : State ρ := ⟨chunks.map Worker.start, 0⟩

/-- A turn of one worker, and by how many increments its load of the counter is late. -/
structure Turn where
  worker : Nat
  stale : Nat

/-- One step of a worker that sees the counter at a value. -/
def Worker.step (test : Nat → Option ρ) (cap seen : Nat) (w : Worker ρ) : Worker ρ :=
  match w.phase with
  | .testing =>
    if w.next < w.stop ∧ seen < cap then
      match test w.next with
      | none => { w with next := w.next + 1 }
      | some r => { w with found := w.found ++ [r], phase := .counting }
    else { w with phase := .ended }
  | .counting => { w with next := w.next + 1, phase := .testing }
  | .ended => w

/-- What a step of the worker adds to the counter. -/
def Worker.adds (w : Worker ρ) : Nat := if w.phase = .counting then 1 else 0

/-- A turn. The counter is one of the given size. -/
def step (test : Nat → Option ρ) (cap size : Nat) (s : State ρ) (t : Turn) : State ρ :=
  match s.workers[t.worker]? with
  | none => s
  | some w => ⟨s.workers.set t.worker (w.step test cap ((s.count - t.stale) % size)), s.count + w.adds⟩

/-- Every worker has ended. -/
def State.Done (s : State ρ) : Prop := ∀ w ∈ s.workers, w.phase = .ended

/-- What passes the test between two indices. -/
def accepted (test : Nat → Option ρ) (chunk : Nat × Nat) : List ρ :=
  (List.range' chunk.1 (chunk.2 - chunk.1)).filterMap test

/-- What the workers have found, put together in the order of the chunks. -/
def State.found (s : State ρ) : List ρ := (s.workers.map Worker.found).flatten

/-! ## One worker -/

/-- Where a worker of a chunk can be: it has found what passes before the index it is at, that index included when it is about
to count it. -/
structure Worker.Valid (test : Nat → Option ρ) (chunk : Nat × Nat) (w : Worker ρ) : Prop where
  stop : w.stop = chunk.2
  start : chunk.1 ≤ w.next
  le : w.next ≤ w.stop
  counting : w.phase = .counting → w.next < w.stop
  found : w.found = accepted test (chunk.1, w.next + w.adds)

variable {test : Nat → Option ρ} {cap size seen : Nat} {chunk : Nat × Nat} {w : Worker ρ}

theorem accepted_self (b : Nat) : accepted test (b, b) = [] := by
  simp [accepted]

/-- One index more. -/
theorem accepted_succ (test : Nat → Option ρ) {b e : Nat} (h : b ≤ e) :
    accepted test (b, e + 1) = accepted test (b, e) ++ (test e).toList := by
  have hlen : e + 1 - b = e - b + 1 := by omega
  have hlast : b + (e - b) = e := by omega
  simp only [accepted, hlen, List.range'_1_concat, List.filterMap_append, hlast]
  cases htest : test e <;> simp [htest]

/-- A chunk of one index. -/
theorem accepted_single (b : Nat) : accepted test (b, b + 1) = (test b).toList := by
  rw [accepted_succ test (Nat.le_refl b), accepted_self, List.nil_append]

/-- What passes in a part of a chunk is the beginning of what passes in the chunk. -/
theorem accepted_prefix {b e e' : Nat} (h : e ≤ e') : accepted test (b, e) <+: accepted test (b, e') := by
  obtain ⟨n, hn⟩ : ∃ n, e' - b = (e - b) + n := ⟨e' - b - (e - b), by omega⟩
  simp only [accepted]
  rw [hn, ← List.range'_append_1, List.filterMap_append]
  exact List.prefix_append _ _

theorem valid_start (h : chunk.1 ≤ chunk.2) : (Worker.start chunk : Worker ρ).Valid test chunk :=
  ⟨rfl, Nat.le_refl _, h, (nomatch ·), (accepted_self _).symm⟩

theorem Worker.Valid.step (h : w.Valid test chunk) (cap seen : Nat) : (w.step test cap seen).Valid test chunk := by
  obtain ⟨next, stop, found, phase⟩ := w
  obtain ⟨hstop, hstart, hle, hcounting, hfound⟩ := h
  cases phase with
  | testing =>
    simp only [Worker.step, Worker.adds, reduceCtorEq, if_false, Nat.add_zero] at hstop hstart hle hfound ⊢
    split
    · rename_i hgo
      have hmore := accepted_succ test hstart
      cases htest : test next with
      | none =>
        rw [htest, Option.toList_none, List.append_nil] at hmore
        exact ⟨hstop, Nat.le_succ_of_le hstart, hgo.1, (nomatch ·), hfound.trans hmore.symm⟩
      | some r =>
        rw [htest, Option.toList_some, ← hfound] at hmore
        exact ⟨hstop, hstart, hle, fun _ => hgo.1, hmore.symm⟩
    · exact ⟨hstop, hstart, hle, (nomatch ·), hfound⟩
  | counting => exact ⟨hstop, Nat.le_succ_of_le hstart, hcounting rfl, (nomatch ·), hfound⟩
  | ended => exact ⟨hstop, hstart, hle, hcounting, hfound⟩

/-- What a worker has found is the beginning of what passes in its chunk. -/
theorem Worker.Valid.found_prefix (h : w.Valid test chunk) : w.found <+: accepted test chunk := by
  rw [h.found]
  refine accepted_prefix ?_
  have hstop := h.stop
  have hle := h.le
  by_cases hc : w.phase = .counting
  · have := h.counting hc
    simp only [Worker.adds, hc, if_true]
    omega
  · simp only [Worker.adds, hc, if_false]
    omega

/-- A worker that has ended at the end of its chunk has found all that passes in it. -/
theorem Worker.Valid.found_eq (h : w.Valid test chunk) (hended : w.phase = .ended) (hstop : w.stop ≤ w.next) :
    w.found = accepted test chunk := by
  have hnext : w.next = chunk.2 := by
    have := h.stop
    have := h.le
    omega
  rw [h.found, Worker.adds, hended, hnext]
  rfl

/-! ## All workers -/

/-- What holds in every state: each worker is in its chunk, the counter says how much has been found but for what is about to
be counted, and a worker that stopped before the end of its chunk had seen the counter at the cap. -/
structure State.Valid (test : Nat → Option ρ) (cap : Nat) (chunks : List (Nat × Nat)) (s : State ρ) : Prop where
  workers : List.Forall₂ (fun w chunk => w.Valid test chunk) s.workers chunks
  count : s.count + (s.workers.map Worker.adds).sum = (s.workers.map (fun w => w.found.length)).sum
  early : ∀ w ∈ s.workers, w.phase = .ended → w.next < w.stop → cap ≤ s.count

variable {chunks : List (Nat × Nat)} {s : State ρ}

theorem State.valid_start (h : ∀ chunk ∈ chunks, chunk.1 ≤ chunk.2) :
    (State.start chunks : State ρ).Valid test cap chunks := by
  refine ⟨?_, ?_, ?_⟩
  · rw [start, List.forall₂_map_left_iff, List.forall₂_same]
    exact fun chunk hchunk => Fanout.valid_start (h chunk hchunk)
  · simp [start, Worker.start, Worker.adds, Function.comp_def]
  · intro w hw hended
    obtain ⟨chunk, -, rfl⟩ := List.mem_map.1 hw
    cases hended

/-- Each worker is somewhere in its chunk. -/
theorem State.Valid.worker (h : s.Valid test cap chunks) {i : Nat} (hw : s.workers[i]? = some w) :
    ∃ chunk, chunks[i]? = some chunk ∧ w.Valid test chunk := by
  obtain ⟨hi, rfl⟩ := List.getElem?_eq_some_iff.1 hw
  have hi' := h.workers.length_eq ▸ hi
  exact ⟨chunks[i], List.getElem?_eq_getElem hi', h.workers.get hi hi'⟩

/-- Replacing one element of a list changes a sum over it by the difference. -/
theorem sum_map_set {α : Type*} (f : α → Nat) {xs : List α} {i : Nat} {x : α} (y : α) (h : xs[i]? = some x) :
    ((xs.set i y).map f).sum + f x = (xs.map f).sum + f y := by
  induction xs generalizing i with
  | nil => cases h
  | cons z xs ih =>
    cases i with
    | zero =>
      cases h
      simp only [List.set_cons_zero, List.map_cons, List.sum_cons]
      omega
    | succ i =>
      have := ih h
      simp only [List.set_cons_succ, List.map_cons, List.sum_cons]
      omega

/-- Replacing the elements of two lists at one index keeps a relation between them. -/
theorem forall₂_set {α β : Type*} {R : α → β → Prop} {xs : List α} {ys : List β} (h : List.Forall₂ R xs ys) {i : Nat}
    {x x' : α} (hi : xs[i]? = some x) (hx : ∀ y, R x y → R x' y) : List.Forall₂ R (xs.set i x') ys := by
  induction h generalizing i with
  | nil => exact .nil
  | cons hxy hrest ih =>
    cases i with
    | zero =>
      cases hi
      exact .cons (hx _ hxy) hrest
    | succ i => exact .cons hxy (ih hi)

/-- A step of a worker finds something exactly when it will be counted next. -/
theorem Worker.length_step (w : Worker ρ) (test : Nat → Option ρ) (cap seen : Nat) :
    (w.step test cap seen).found.length + w.adds = w.found.length + w.adds + (w.step test cap seen).adds := by
  obtain ⟨next, stop, found, phase⟩ := w
  cases phase with
  | testing =>
    simp only [Worker.step, Worker.adds, reduceCtorEq, if_false, Nat.add_zero]
    split
    · cases test next <;> simp
    · simp
  | counting => simp [Worker.step, Worker.adds]
  | ended => simp [Worker.step, Worker.adds]

/-- A worker that sees the counter at the cap ends. -/
theorem Worker.step_of_cap (hw : w.phase = .testing) (h : cap ≤ seen) :
    w.step test cap seen = { w with phase := .ended } := by
  obtain ⟨next, stop, found, phase⟩ := w
  subst hw
  simp only [Worker.step]
  rw [if_neg (fun hgo => absurd hgo.2 (Nat.not_lt.2 h))]

/-- A worker that ends before the end of its chunk sees the cap reached. -/
theorem Worker.early_step (hw : w.phase ≠ .ended) (hended : (w.step test cap seen).phase = .ended)
    (hlt : (w.step test cap seen).next < (w.step test cap seen).stop) : cap ≤ seen := by
  obtain ⟨next, stop, found, phase⟩ := w
  cases phase with
  | testing =>
    simp only [Worker.step] at hended hlt
    split at hended
    · cases htest : test next <;> simp [htest] at hended
    · rename_i hgo
      rw [if_neg hgo] at hlt
      simp only at hlt
      omega
  | counting => cases hended
  | ended => exact absurd rfl hw

/-- Every turn keeps what holds. -/
theorem State.Valid.turn (h : s.Valid test cap chunks) (size : Nat) (t : Turn) :
    (step test cap size s t).Valid test cap chunks := by
  unfold step
  cases hw : s.workers[t.worker]? with
  | none => exact h
  | some w =>
    simp only
    have hadds := sum_map_set Worker.adds (w.step test cap ((s.count - t.stale) % size)) hw
    have hfound := sum_map_set (fun w => w.found.length) (w.step test cap ((s.count - t.stale) % size)) hw
    have hlength := w.length_step test cap ((s.count - t.stale) % size)
    have hcount := h.count
    refine ⟨forall₂_set h.workers hw (fun chunk hv => hv.step cap _), ?_, ?_⟩
    · simp only at hadds hfound ⊢
      omega
    · intro w' hw' hended hlt
      rcases List.mem_or_eq_of_mem_set hw' with hw' | rfl
      · exact Nat.le_add_right_of_le (h.early w' hw' hended hlt)
      · by_cases hphase : w.phase = .ended
        · have hsame : w.step test cap ((s.count - t.stale) % size) = w := by
            simp only [Worker.step, hphase]
          rw [hsame] at hended hlt
          exact Nat.le_add_right_of_le (h.early w (List.mem_of_getElem? hw) hended hlt)
        · have hseen := Worker.early_step hphase hended hlt
          exact Nat.le_add_right_of_le ((hseen.trans (Nat.mod_le _ _)).trans (Nat.sub_le _ _))

/-- What holds in every state holds along every run. -/
theorem State.Valid.after (h : s.Valid test cap chunks) (size : Nat) (ts : List Turn) :
    (final (step test cap size) s ts).Valid test cap chunks := by
  induction ts generalizing s with
  | nil => exact h
  | cons t ts ih => exact ih (h.turn size t)

/-! ## What the workers find -/

/-- What the workers have found is a sublist of what passes in their chunks. -/
theorem State.Valid.found_sublist (h : s.Valid test cap chunks) : s.found.Sublist (chunks.map (accepted test)).flatten := by
  have hall : List.Forall₂ (fun (a b : List ρ) => a.Sublist b) (s.workers.map Worker.found) (chunks.map (accepted test)) := by
    rw [List.forall₂_map_left_iff, List.forall₂_map_right_iff]
    exact h.workers.imp (fun w chunk hv => hv.found_prefix.sublist)
  unfold State.found
  generalize s.workers.map Worker.found = founds at hall ⊢
  generalize chunks.map (accepted test) = all at hall ⊢
  induction hall with
  | nil => exact List.Sublist.refl _
  | cons hab _ ih => exact hab.append ih

/-- The counter and what is about to be counted are what has been found. -/
theorem State.Valid.count_eq (h : s.Valid test cap chunks) : s.count + (s.workers.map Worker.adds).sum = s.found.length := by
  rw [h.count, State.found, List.length_flatten, List.map_map]
  rfl

/-- The counter is never above what passes. -/
theorem State.Valid.count_le (h : s.Valid test cap chunks) : s.count ≤ (chunks.map (accepted test)).flatten.length :=
  (Nat.le_add_right _ _).trans (h.count_eq.le.trans h.found_sublist.length_le)

/-- When every worker has ended, nothing is left to count. -/
theorem State.Done.count_eq (hd : s.Done) (h : s.Valid test cap chunks) : s.count = s.found.length := by
  have hadds : (s.workers.map Worker.adds).sum = 0 := by
    rw [List.sum_eq_zero_iff]
    intro n hn
    obtain ⟨w, hw, rfl⟩ := List.mem_map.1 hn
    simp [Worker.adds, hd w hw]
  rw [← h.count_eq, hadds, Nat.add_zero]

/-- When every worker has ended, they have found all that passes, or as much as the cap. -/
theorem State.Done.found_eq_or (hd : s.Done) (h : s.Valid test cap chunks) :
    s.found = (chunks.map (accepted test)).flatten ∨ cap ≤ s.found.length := by
  by_cases hearly : ∃ w ∈ s.workers, w.next < w.stop
  · obtain ⟨w, hw, hlt⟩ := hearly
    right
    rw [← hd.count_eq h]
    exact h.early w hw (hd w hw) hlt
  · left
    have hall : List.Forall₂ (fun w chunk => w.found = accepted test chunk) s.workers chunks := by
      refine List.forall₂_iff_get.2 ⟨h.workers.length_eq, fun i hi hi' => ?_⟩
      have hv := h.workers.get hi hi'
      have hw := List.get_mem s.workers ⟨i, hi⟩
      exact hv.found_eq (hd _ hw) (Nat.not_lt.1 (fun hlt => hearly ⟨_, hw, hlt⟩))
    rw [State.found]
    congr 1
    exact List.forall₂_eq_eq_eq ▸ (List.forall₂_map_left_iff.2 (List.forall₂_map_right_iff.2 hall))

/-- Cut off at the cap, what the workers have found is as much as the sequential filter, cut off at the cap. -/
theorem State.Done.length_take_found (hd : s.Done) (h : s.Valid test cap chunks) :
    (s.found.take cap).length = min cap (chunks.map (accepted test)).flatten.length := by
  rw [List.length_take]
  rcases hd.found_eq_or h with heq | hcap
  · rw [heq]
  · have := h.found_sublist.length_le
    omega

/-- Appending one by one up to a cap is appending all and cutting off at the cap. -/
theorem foldl_capped {α : Type*} (cap : Nat) (xs : List α) {ys : List α} (h : ys.length ≤ cap) :
    xs.foldl (fun ys x => if cap ≤ ys.length then ys else ys ++ [x]) ys = (ys ++ xs).take cap := by
  induction xs generalizing ys with
  | nil => rw [List.foldl_nil, List.append_nil, List.take_of_length_le h]
  | cons x xs ih =>
    rw [List.foldl_cons]
    split
    · rename_i hfull
      rw [ih h, ← Nat.le_antisymm h hfull, List.take_left, List.take_left]
    · rename_i hroom
      rw [ih (by rw [List.length_append, List.length_singleton]; omega), List.append_assoc, List.singleton_append]

/-! ## Every worker ends -/

/-- How many turns a worker may still need. -/
def Worker.fuel (w : Worker ρ) : Nat :=
  match w.phase with
  | .testing => 2 * (w.stop - w.next) + 1
  | .counting => 2 * (w.stop - w.next)
  | .ended => 0

/-- A step uses one up. -/
theorem Worker.Valid.fuel_step (h : w.Valid test chunk) (cap seen : Nat) : (w.step test cap seen).fuel ≤ w.fuel - 1 := by
  obtain ⟨next, stop, found, phase⟩ := w
  obtain ⟨-, -, -, hcounting, -⟩ := h
  cases phase with
  | testing =>
    simp only [Worker.step]
    split
    · cases test next with
      | none =>
        simp only [Worker.fuel]
        omega
      | some r =>
        simp only [Worker.fuel]
        omega
    · exact Nat.zero_le _
  | counting =>
    have hlt : next < stop := hcounting rfl
    simp only [Worker.step, Worker.fuel]
    omega
  | ended => exact Nat.le_refl _

theorem Worker.Valid.ended_of_fuel (h : w.Valid test chunk) (hf : w.fuel = 0) : w.phase = .ended := by
  obtain ⟨next, stop, found, phase⟩ := w
  cases phase with
  | testing => cases hf
  | counting =>
    have hlt := h.counting rfl
    have hf : 2 * (stop - next) = 0 := hf
    have hlt : next < stop := hlt
    omega
  | ended => rfl

/-- How many of the turns are a worker's. -/
def turnsOf (i : Nat) (ts : List Turn) : Nat := ts.countP (fun t => decide (t.worker = i))

/-- A turn of another worker leaves a worker as it is. -/
theorem getElem?_step_of_ne {i : Nat} {t : Turn} (h : t.worker ≠ i) :
    (step test cap size s t).workers[i]? = s.workers[i]? := by
  unfold step
  cases s.workers[t.worker]? with
  | none => rfl
  | some w => exact List.getElem?_set_ne h

/-- Its own turn takes it a step further. -/
theorem getElem?_step_self {i : Nat} {t : Turn} (ht : t.worker = i) (hw : s.workers[i]? = some w) :
    (step test cap size s t).workers[i]? = some (w.step test cap ((s.count - t.stale) % size)) := by
  subst ht
  obtain ⟨hi, -⟩ := List.getElem?_eq_some_iff.1 hw
  simp only [step, hw]
  rw [List.getElem?_set_self hi]

/-- A run without a turn of a worker leaves it as it is. -/
theorem getElem?_final_of_not_mem {i : Nat} {ts : List Turn} (h : ∀ t ∈ ts, t.worker ≠ i) :
    (final (step test cap size) s ts).workers[i]? = s.workers[i]? := by
  induction ts generalizing s with
  | nil => rfl
  | cons t ts ih =>
    rw [final_cons, ih (fun t' ht' => h t' (List.mem_cons_of_mem _ ht')), getElem?_step_of_ne (h t List.mem_cons_self)]

/-- A worker uses up a turn with each of its turns. -/
theorem State.Valid.fuel_final (h : s.Valid test cap chunks) (size : Nat) {i : Nat} (hw : s.workers[i]? = some w)
    (ts : List Turn) :
    ∃ w', (final (step test cap size) s ts).workers[i]? = some w' ∧ w'.fuel ≤ w.fuel - turnsOf i ts := by
  induction ts generalizing s w with
  | nil => exact ⟨w, hw, Nat.le_refl _⟩
  | cons t ts ih =>
    by_cases ht : t.worker = i
    · obtain ⟨w', hw', hfuel⟩ := ih (h.turn size t) (getElem?_step_self ht hw)
      obtain ⟨chunk, -, hv⟩ := h.worker hw
      have hstep := hv.fuel_step cap ((s.count - t.stale) % size)
      refine ⟨w', hw', ?_⟩
      rw [turnsOf, List.countP_cons_of_pos (by simpa using ht)]
      rw [turnsOf] at hfuel
      omega
    · obtain ⟨w', hw', hfuel⟩ := ih (h.turn size t) ((getElem?_step_of_ne ht).trans hw)
      refine ⟨w', hw', ?_⟩
      rwa [turnsOf, List.countP_cons_of_neg (by simpa using ht)]

/-- A worker that has had enough turns has ended. -/
theorem State.Valid.ended_of_turns (h : s.Valid test cap chunks) (size : Nat) {i : Nat} (hw : s.workers[i]? = some w)
    {ts : List Turn} (hturns : w.fuel ≤ turnsOf i ts) :
    ∃ w', (final (step test cap size) s ts).workers[i]? = some w' ∧ w'.phase = .ended := by
  obtain ⟨w', hw', hfuel⟩ := h.fuel_final size hw ts
  obtain ⟨chunk, -, hv⟩ := (h.after size ts).worker hw'
  exact ⟨w', hw', hv.ended_of_fuel (by omega)⟩

/-- A run in which every worker has had enough turns is over, whatever the order. -/
theorem done_of_turns (h : ∀ chunk ∈ chunks, chunk.1 ≤ chunk.2) {ts : List Turn}
    (hturns : ∀ i chunk, chunks[i]? = some chunk → 2 * (chunk.2 - chunk.1) + 1 ≤ turnsOf i ts) :
    (final (step test cap size) (.start chunks) ts).Done := by
  intro w hw
  obtain ⟨i, hi⟩ := List.mem_iff_getElem?.1 hw
  have hvalid : (State.start chunks).Valid test cap chunks := State.valid_start h
  have hlen : i < chunks.length := by
    obtain ⟨hlt, -⟩ := List.getElem?_eq_some_iff.1 hi
    rwa [(hvalid.after size ts).workers.length_eq] at hlt
  have hstart : (State.start chunks : State ρ).workers[i]? = some (Worker.start chunks[i]) := by
    rw [State.start, List.getElem?_map, List.getElem?_eq_getElem hlen]
    rfl
  obtain ⟨w', hw', hended⟩ := hvalid.ended_of_turns size hstart (hturns i _ (List.getElem?_eq_getElem hlen))
  rw [hi, Option.some.injEq] at hw'
  rw [hw']
  exact hended

/-! ## A run in which one worker comes too late -/

theorem turnsOf_append (i : Nat) (ts ts' : List Turn) : turnsOf i (ts ++ ts') = turnsOf i ts + turnsOf i ts' :=
  List.countP_append

/-- Turns for all workers but one, as many as one likes. -/
theorem exists_turns_without (n i b : Nat) :
    ∃ ts : List Turn, (∀ t ∈ ts, t.worker ≠ i) ∧ ∀ k < n, k ≠ i → b ≤ turnsOf k ts := by
  induction n with
  | zero => exact ⟨[], by simp, by simp⟩
  | succ n ih =>
    obtain ⟨ts, hnot, henough⟩ := ih
    by_cases hn : n = i
    · refine ⟨ts, hnot, fun k hk hne => henough k ?_ hne⟩
      omega
    · refine ⟨ts ++ List.replicate b ⟨n, 0⟩, ?_, ?_⟩
      · intro t ht
        rcases List.mem_append.1 ht with ht | ht
        · exact hnot t ht
        · rw [List.eq_of_mem_replicate ht]
          exact hn
      · intro k hk hne
        rw [turnsOf_append]
        rcases Nat.lt_succ_iff_lt_or_eq.1 hk with hlt | rfl
        · exact Nat.le_add_right_of_le (henough k hlt hne)
        · have : turnsOf k (List.replicate b ⟨k, 0⟩) = b := by simp [turnsOf, List.countP_replicate]
          omega

/-- There is a run after which one worker has not begun and all others have ended. -/
theorem exists_run_without (test : Nat → Option ρ) (cap size : Nat) (h : ∀ chunk ∈ chunks, chunk.1 ≤ chunk.2) {i : Nat}
    (hi : chunks[i]? = some chunk) :
    ∃ ts, (final (step test cap size) (.start chunks) ts).workers[i]? = some (.start chunk) ∧
      ∀ k w, k ≠ i → (final (step test cap size) (.start chunks) ts).workers[k]? = some w → w.phase = .ended := by
  have hvalid : (State.start chunks).Valid test cap chunks := State.valid_start h
  obtain ⟨ts, hnot, henough⟩ := exists_turns_without chunks.length i
    ((chunks.map (fun chunk => 2 * (chunk.2 - chunk.1) + 1)).sum)
  refine ⟨ts, ?_, ?_⟩
  · rw [getElem?_final_of_not_mem hnot, State.start, List.getElem?_map, hi]
    rfl
  · intro k w hne hk
    obtain ⟨chunk', hchunk', -⟩ := (hvalid.after size ts).worker hk
    have hk₀ : (State.start chunks : State ρ).workers[k]? = some (.start chunk') := by
      rw [State.start, List.getElem?_map, hchunk']
      rfl
    obtain ⟨hlt, -⟩ := List.getElem?_eq_some_iff.1 hchunk'
    have hfuel : 2 * (chunk'.2 - chunk'.1) + 1 ≤ turnsOf k ts := by
      refine Nat.le_trans ?_ (henough k hlt hne)
      exact List.single_le_sum (fun _ _ => Nat.zero_le _) _ (List.mem_map_of_mem (List.mem_of_getElem? hchunk'))
    obtain ⟨w', hw', hended⟩ := hvalid.ended_of_turns size hk₀ hfuel
    rw [hk, Option.some.injEq] at hw'
    rw [hw']
    exact hended

/-- When the other workers have come to the end of their chunks and one has not begun, they have found all that passes but for
what passes in its chunk. -/
theorem State.Valid.map_found_of_others (h : s.Valid test cap chunks) {i : Nat} (hi : chunks[i]? = some chunk)
    (hstart : s.workers[i]? = some (.start chunk))
    (hothers : ∀ k w, k ≠ i → s.workers[k]? = some w → w.phase = .ended ∧ w.stop ≤ w.next) :
    s.workers.map Worker.found = (chunks.map (accepted test)).set i [] := by
  apply List.ext_getElem?
  intro k
  rw [List.getElem?_map, List.getElem?_set, List.getElem?_map]
  by_cases hne : i = k
  · obtain ⟨hlt, -⟩ := List.getElem?_eq_some_iff.1 hi
    subst hne
    simp [hstart, hlt, Worker.start]
  · rw [if_neg hne]
    rcases hk : s.workers[k]? with _ | w
    · have hlen : chunks.length ≤ k := h.workers.length_eq ▸ List.getElem?_eq_none_iff.1 hk
      rw [List.getElem?_eq_none hlen]
      rfl
    · obtain ⟨chunk', hchunk', hv⟩ := h.worker hk
      obtain ⟨hended, hstop⟩ := hothers k w (Ne.symm hne) hk
      rw [hchunk', Option.map_some, Option.map_some, hv.found_eq hended hstop]

/-- When the other workers have ended and one has not begun, and more passes than the cap even without its chunk, the counter
is at the cap. -/
theorem State.Valid.cap_le_of_others (h : s.Valid test cap chunks) {i : Nat} (hi : chunks[i]? = some chunk)
    (hstart : s.workers[i]? = some (.start chunk)) (hothers : ∀ k w, k ≠ i → s.workers[k]? = some w → w.phase = .ended)
    (hmore : cap + (accepted test chunk).length ≤ (chunks.map (accepted test)).flatten.length) : cap ≤ s.count := by
  by_cases hearly : ∃ w ∈ s.workers, w.phase = .ended ∧ w.next < w.stop
  · obtain ⟨w, hw, hended, hlt⟩ := hearly
    exact h.early w hw hended hlt
  · have hadds : (s.workers.map Worker.adds).sum = 0 := by
      rw [List.sum_eq_zero_iff]
      intro n hn
      obtain ⟨w, hw, rfl⟩ := List.mem_map.1 hn
      obtain ⟨k, hk⟩ := List.mem_iff_getElem?.1 hw
      by_cases hne : k = i
      · rw [hne, hstart, Option.some.injEq] at hk
        rw [← hk]
        rfl
      · simp [Worker.adds, hothers k w hne hk]
    have hfound := h.map_found_of_others hi hstart (fun k w hne hk =>
      have hended := hothers k w hne hk
      ⟨hended, Nat.not_lt.1 (fun hlt => hearly ⟨w, List.mem_of_getElem? hk, hended, hlt⟩)⟩)
    have hi' : (chunks.map (accepted test))[i]? = some (accepted test chunk) := by
      rw [List.getElem?_map, hi]
      rfl
    have hsum := sum_map_set List.length [] hi'
    have hcount := h.count_eq
    rw [hadds, State.found, hfound, List.length_flatten] at hcount
    rw [List.length_flatten] at hmore
    simp only [List.length_nil] at hsum
    omega

/-- The last turn of a run in which one worker comes too late: it sees the cap reached, and ends with nothing found. -/
theorem State.Valid.done_of_late (h : s.Valid test cap chunks) {i : Nat} (hstart : s.workers[i]? = some (.start chunk))
    (hothers : ∀ k w, k ≠ i → s.workers[k]? = some w → w.phase = .ended) (hcap : cap ≤ s.count) (hsize : s.count < size) :
    (step test cap size s ⟨i, 0⟩).Done ∧
      ∀ r ∈ (step test cap size s ⟨i, 0⟩).found,
        ∃ k chunk', k ≠ i ∧ chunks[k]? = some chunk' ∧ r ∈ accepted test chunk' := by
  have hlast : (step test cap size s ⟨i, 0⟩).workers[i]? = some { Worker.start chunk with phase := .ended } := by
    rw [getElem?_step_self rfl hstart, Nat.sub_zero, Nat.mod_eq_of_lt hsize, Worker.step_of_cap rfl hcap]
  have hrest : ∀ k, k ≠ i → (step test cap size s ⟨i, 0⟩).workers[k]? = s.workers[k]? :=
    fun k hne => getElem?_step_of_ne (fun heq => hne heq.symm)
  refine ⟨?_, ?_⟩
  · intro w hw
    obtain ⟨k, hk⟩ := List.mem_iff_getElem?.1 hw
    by_cases hne : k = i
    · rw [hne, hlast, Option.some.injEq] at hk
      rw [← hk]
    · rw [hrest k hne] at hk
      exact hothers k w hne hk
  · intro r hr
    obtain ⟨found, hfound, hr⟩ := List.mem_flatten.1 hr
    obtain ⟨w, hw, rfl⟩ := List.mem_map.1 hfound
    obtain ⟨k, hk⟩ := List.mem_iff_getElem?.1 hw
    by_cases hne : k = i
    · rw [hne, hlast, Option.some.injEq] at hk
      rw [← hk] at hr
      cases hr
    · rw [hrest k hne] at hk
      obtain ⟨chunk', hchunk', hv⟩ := h.worker hk
      exact ⟨k, chunk', hne, hchunk', hv.found_prefix.subset hr⟩

/-- When there is more to find than the cap, even without what passes in one chunk, there is a run in which the worker of that
chunk finds nothing. -/
theorem exists_late (test : Nat → Option ρ) (cap size : Nat) (h : ∀ chunk ∈ chunks, chunk.1 ≤ chunk.2) {i : Nat}
    (hi : chunks[i]? = some chunk) (hsize : (chunks.map (accepted test)).flatten.length < size)
    (hmore : cap + (accepted test chunk).length ≤ (chunks.map (accepted test)).flatten.length) :
    ∃ ts, (final (step test cap size) (.start chunks) ts).Done ∧
      ∀ r ∈ (final (step test cap size) (.start chunks) ts).found,
        ∃ k chunk', k ≠ i ∧ chunks[k]? = some chunk' ∧ r ∈ accepted test chunk' := by
  obtain ⟨ts, hstart, hothers⟩ := exists_run_without test cap size h hi
  have hvalid := (State.valid_start h : (State.start chunks).Valid test cap chunks).after size ts
  refine ⟨ts ++ [⟨i, 0⟩], ?_⟩
  rw [final_append]
  exact hvalid.done_of_late hstart hothers (hvalid.cap_le_of_others hi hstart hothers hmore)
    (Nat.lt_of_le_of_lt hvalid.count_le hsize)

/-! ## Chunks of equal size -/

/-- The chunks of so many indices for some workers: all of one size, rounded up, the last one shorter; a worker whose chunk
would begin at the end or behind it gets none. -/
def ceilChunks (n workers : Nat) : List (Nat × Nat) :=
  let size := (n + workers - 1) / workers
  ((List.range workers).takeWhile (fun t => decide (t * size < n))).map (fun t => (t * size, min (t * size + size) n))

theorem le_of_mem_ceilChunks {n workers : Nat} : ∀ chunk ∈ ceilChunks n workers, chunk.1 ≤ chunk.2 := by
  intro chunk hchunk
  obtain ⟨t, ht, rfl⟩ := List.mem_map.1 hchunk
  have hlt := List.mem_takeWhile_imp ht
  exact Nat.le_min.2 ⟨Nat.le_add_right _ _, Nat.le_of_lt (of_decide_eq_true hlt)⟩

/-- What passes before an index, and from there on. -/
theorem filterMap_range_add (test : Nat → Option ρ) (b n : Nat) :
    (List.range b).filterMap test ++ accepted test (b, b + n) = (List.range (b + n)).filterMap test := by
  rw [accepted, Nat.add_sub_cancel_left, List.range_eq_range', List.range_eq_range', ← List.filterMap_append]
  have := List.range'_append_1 (s := 0) (m := b) (n := n)
  rw [Nat.zero_add] at this
  rw [this]

/-- The chunks of the first workers, put together. -/
theorem flatten_takeWhile (test : Nat → Option ρ) (n size workers : Nat) :
    ((((List.range workers).takeWhile (fun t => decide (t * size < n))).map
      (fun t => (t * size, min (t * size + size) n))).map (accepted test)).flatten =
      (List.range (min (workers * size) n)).filterMap test := by
  induction workers with
  | zero => simp
  | succ k ih =>
    rw [List.range_succ, List.takeWhile_append]
    have hmul : (k + 1) * size = k * size + size := Nat.succ_mul k size
    split
    · rename_i hall
      rw [List.takeWhile_eq_self_iff.2 ?_] at ih
      · by_cases hk : k * size < n
        · simp only [List.takeWhile_cons, hk, decide_true, if_true, List.takeWhile_nil, List.map_append, List.flatten_append,
            ih, List.map_cons, List.map_nil, List.flatten_cons, List.flatten_nil, List.append_nil]
          have hmin : min (k * size) n = k * size := by omega
          have hadd : min (k * size + size) n = k * size + (min (k * size + size) n - k * size) := by omega
          rw [hmin, hmul, hadd, filterMap_range_add]
        · simp only [List.takeWhile_cons, hk, decide_false, Bool.false_eq_true, if_false, List.append_nil, ih]
          have hmin : min (k * size) n = min ((k + 1) * size) n := by omega
          rw [hmin]
      · exact List.takeWhile_eq_self_iff.1 (List.IsPrefix.eq_of_length (List.takeWhile_prefix _) hall)
    · rename_i hsome
      have hk : n ≤ k * size := by
        by_contra hlt
        refine hsome (congrArg List.length (List.takeWhile_eq_self_iff.2 fun t ht => decide_eq_true ?_))
        have := Nat.mul_le_mul_right size (Nat.le_of_lt (List.mem_range.1 ht))
        omega
      have hmin : min (k * size) n = min ((k + 1) * size) n := by omega
      rw [ih, hmin]

/-- The chunks cover the indices, each once and in order. -/
theorem flatten_ceilChunks (test : Nat → Option ρ) {n workers : Nat} (h : 0 < workers) :
    ((ceilChunks n workers).map (accepted test)).flatten = (List.range n).filterMap test := by
  have hcover : n ≤ workers * ((n + workers - 1) / workers) := by
    have := Nat.lt_div_mul_add (a := n + workers - 1) h
    rw [Nat.mul_comm]
    omega
  rw [ceilChunks, flatten_takeWhile, Nat.min_eq_right hcover]

/-- With a worker for each index, each chunk is one index. -/
theorem ceilChunks_self {n : Nat} (hn : 0 < n) : ceilChunks n n = (List.range n).map (fun t => (t, t + 1)) := by
  have hsize : (n + n - 1) / n = 1 := by
    rw [Nat.div_eq_iff hn]
    omega
  simp only [ceilChunks, hsize, Nat.mul_one]
  rw [List.takeWhile_eq_self_iff.2 (fun t ht => decide_eq_true (List.mem_range.1 ht))]
  refine List.map_congr_left (fun t ht => ?_)
  rw [Nat.min_eq_left (List.mem_range.1 ht)]

theorem length_ceilChunks_self {n : Nat} (hn : 0 < n) : (ceilChunks n n).length = n := by
  rw [ceilChunks_self hn, List.length_map, List.length_range]

theorem getElem?_ceilChunks_self {n k : Nat} (hk : k < n) : (ceilChunks n n)[k]? = some (k, k + 1) := by
  rw [ceilChunks_self (Nat.zero_lt_of_lt hk), List.getElem?_map, List.getElem?_range hk, Option.map_some]

end Fanout
