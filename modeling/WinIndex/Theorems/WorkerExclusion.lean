import WinIndex.IndexerThreads
import WinIndex.Lemmas.Batch

/-!
# One worker at a time

The completion event is reset before the thread is created that is to set it. So one thread runs at most, and is alone in
writing the staging buffer. As long as every thread is created, `IsIndexing` is true exactly while one runs. A call whose
`CreateThread` fails leaves the event reset with no thread to set it: from then on `IsIndexing` is true, every call returns at
once, and `WaitForCompletion` waits for ever.
-/

namespace WinIndex

open Trace

/-- Every thread that writes the staging buffer finds there what it has added, and nothing else. -/
def IndexerThreads.Staged (s : IndexerThreads) : Prop :=
  ∀ added todo, Body.writing added todo ∈ s.gate.running → s.shared.watching.store.stagingBuf = added

/-- One thread runs at most, which then is the only one to write the staging buffer; `IsIndexing` is true exactly while one
runs; and while none runs, `WaitForCompletion` returns. -/
structure IndexerThreads.Signalled (s : IndexerThreads) : Prop where
  single : s.gate.running.length ≤ 1
  staged : s.Staged
  indexing : s.isIndexing = true ↔ s.gate.running ≠ []
  returns : s.gate.running = [] → s.waitForCompletion = true

/-- A step that creates a thread if it comes to that: `CreateThread` succeeds where there is an event. Where there is none, it
is the other way round, as nothing would say that the thread runs. -/
def ThreadStep.ThreadCreated (s : IndexerThreads) (l : ThreadStep) : Prop :=
  ∀ created ∈ l.creates s, created = s.gate.event.isSome

instance ThreadStep.decidableThreadCreated (s : IndexerThreads) (l : ThreadStep) : Decidable (l.ThreadCreated s) :=
  inferInstanceAs (Decidable (∀ created ∈ l.creates s, _))

variable {Γ : Locale} {fixedDrives : List WString} {s : IndexerThreads}

/-- The two signals are one gate. -/
theorem IndexerThreads.signalled_iff : s.Signalled ↔ s.gate.Exclusive ∧ s.Staged := by
  have hindexing : s.isIndexing = true ↔ s.gate.stands = false := by rw [s.isIndexing_eq, Bool.not_eq_true']
  constructor
  · intro h
    refine ⟨⟨⟨h.single, fun hrun => hindexing.1 (h.indexing.2 hrun)⟩, fun hidle => ?_⟩, h.staged⟩
    rw [← s.waitForCompletion_eq]
    exact h.returns hidle
  · rintro ⟨hgate, hstaged⟩
    refine ⟨hgate.single, hstaged, ⟨fun hrun hidle => ?_, fun hrun => hindexing.2 (hgate.shut hrun)⟩, fun hidle => ?_⟩
    · have hshut := hindexing.1 hrun
      rw [hgate.opens hidle] at hshut
      nomatch hshut
    · rw [s.waitForCompletion_eq]
      exact hgate.opens hidle

theorem IndexerThreads.signalled_launch (eventCreated : Bool) (selectedDrives : List WString) (store : IndexStore) :
    (launch eventCreated selectedDrives store).Signalled :=
  signalled_iff.2 ⟨Gate.exclusive_new eventCreated, fun _ _ h => nomatch h⟩

/-! ## What a step does to the gate -/

/-- A thread that has added what is in the staging buffer, if it writes there, has done so after its turn. -/
theorem Body.turn_staged (fixedDrives : List WString) (fs : FileSystem) (excludedPaths : List WString) {t : Session} {b : Body}
    (h : ∀ added todo, b = .writing added todo → t.watching.store.stagingBuf = added) :
    ∀ added todo, (b.turn Γ fixedDrives fs excludedPaths t).2 = some (.writing added todo) →
      (b.turn Γ fixedDrives fs excludedPaths t).1.watching.store.stagingBuf = added := by
  intro added' todo' hnext
  rcases b.turn_cases (Γ := Γ) fixedDrives fs excludedPaths t with
    ⟨entries, -, hturn⟩ | ⟨added, e, todo, rfl, hturn⟩ | ⟨added, -, hturn⟩ |
    ⟨worker, next, -, -, -, ⟨-, hturn⟩ | ⟨-, hturn⟩⟩
  · rw [hturn] at hnext ⊢
    cases hnext
    rfl
  · rw [hturn] at hnext ⊢
    cases hnext
    have hbuf := h added (e :: todo') rfl
    show t.watching.store.stagingBuf ++ [e] = added ++ [e]
    rw [hbuf]
  · rw [hturn] at hnext
    nomatch hnext
  · rw [hturn] at hnext
    nomatch hnext
  · rw [hturn] at hnext
    nomatch hnext

/-- A thread that goes on has not ended. -/
theorem Body.turn_ne_finished (fixedDrives : List WString) (fs : FileSystem) (excludedPaths : List WString) (t : Session)
    (b : Body) : (b.turn Γ fixedDrives fs excludedPaths t).2 ≠ some (.phase .finished) := by
  rcases b.turn_cases (Γ := Γ) fixedDrives fs excludedPaths t with
    ⟨entries, -, hturn⟩ | ⟨added, e, todo, -, hturn⟩ | ⟨added, -, hturn⟩ |
    ⟨worker, next, -, -, -, ⟨-, hturn⟩ | ⟨hgoes, hturn⟩⟩
  · simp [hturn]
  · simp [hturn]
  · simp [hturn]
  · simp [hturn]
  · simpa [hturn] using hgoes

/-- Nor has one that is in its first phase. -/
theorem IndexerCall.worker_ne_finished {c : IndexerCall} (hc : c ≠ .none) : c.worker ≠ .finished := by
  cases c with
  | none => exact absurd rfl hc
  | startIndexing | indexPaths _ | removePaths _ => nofun

/-- The watchers leave the staging buffer alone. -/
theorem Watching.stagingBuf_step (t : Watching) (l : WatchStep) :
    (t.step Γ l).store.stagingBuf = t.store.stagingBuf := by
  rcases t.step_cases (Γ := Γ) l with ⟨-, h⟩ | ⟨i, action, name, root, -, -, h⟩ | ⟨i, attributes, root, c, rest, -, -, -, h⟩
  · rw [h]
  · rw [h]
  · rw [h]
    cases c with
    | remove path => exact IndexStore.stagingBuf_applyRemove Γ t.store path
    | rename oldPath newPath => exact IndexStore.stagingBuf_applyRename Γ t.store oldPath newPath
    | look path => rfl
    | add e => rfl

/-- All that a step can do to the gate: nothing, and then to the staging buffer neither; a thread is created, or fails to be,
which then is in its first phase; a thread goes on, or ends. -/
inductive IndexerThreads.GateStep (s s' : IndexerThreads) : Option Bool → Prop
  | same (hgate : s'.gate = s.gate) (hbuf : s'.shared.watching.store.stagingBuf = s.shared.watching.store.stagingBuf) :
      GateStep s s' none
  | start (created : Bool) (worker : Worker) (hopen : s.gate.stands = true) (hworker : worker ≠ .finished)
      (hgate : s'.gate = s.gate.start created (.phase worker)) : GateStep s s' (some created)
  | goOn (i : Nat) (body next : Body) (hbody : s.gate.running[i]? = some body) (hnext : next ≠ .phase .finished)
      (hgate : s'.gate = s.gate.goOn i next)
      (hbuf : (∀ added todo, body = .writing added todo → s.shared.watching.store.stagingBuf = added) →
        ∀ added todo, next = .writing added todo → s'.shared.watching.store.stagingBuf = added) : GateStep s s' none
  | finish (i : Nat) (body : Body) (hbody : s.gate.running[i]? = some body) (hgate : s'.gate = s.gate.finish i) :
      GateStep s s' none

theorem IndexerThreads.gateStep_call (s : IndexerThreads) (c : IndexerCall) (created : Bool) :
    GateStep s (s.call c created) (if s.isIndexing = false ∧ c ≠ .none then some created else none) := by
  rcases s.call_cases c created with ⟨hdropped, hcall⟩ | ⟨hidle, hc, hcall⟩
  · have hnone : ¬(s.isIndexing = false ∧ c ≠ .none) := by
      rintro ⟨hidle, hc⟩
      rcases hdropped with hrun | hnone
      · rw [hidle] at hrun
        nomatch hrun
      · exact hc hnone
    rw [hcall, if_neg hnone]
    exact .same rfl rfl
  · rw [hcall, if_pos ⟨hidle, hc⟩]
    rw [s.isIndexing_eq, Bool.not_eq_false'] at hidle
    exact .start created c.worker hidle (IndexerCall.worker_ne_finished hc) rfl

theorem IndexerThreads.gateStep_startIndexing (s : IndexerThreads) (contents : Option (IndexPool × UsnMap)) (created : Bool) :
    GateStep s (s.startIndexing fixedDrives contents created)
      (if s.isIndexing = false ∧ (∀ c ∈ contents, (s.shared.watching.store.loaded c).getEntryCount = 0) then some created
      else none) := by
  unfold startIndexing
  by_cases hrun : s.isIndexing = true
  · simp only [hrun, if_true, Bool.true_eq_false, false_and, if_false]
    exact .same rfl rfl
  · have hidle : s.isIndexing = false := by simpa using hrun
    simp only [hidle, Bool.false_eq_true, if_false, true_and]
    cases contents with
    | none =>
      have h := s.gateStep_call .startIndexing created
      simpa [hidle] using h
    | some contents =>
      simp only [Option.mem_def, Option.some.injEq, forall_eq']
      by_cases hpos : 0 < (s.shared.watching.store.loaded contents).getEntryCount
      · have hne : ¬(s.shared.watching.store.loaded contents).getEntryCount = 0 := by omega
        rw [if_pos hpos, if_neg hne]
        split
        · exact .same rfl rfl
        · exact .same rfl rfl
      · have hzero : (s.shared.watching.store.loaded contents).getEntryCount = 0 := by omega
        rw [if_neg hpos, if_pos hzero]
        -- The empty index has been loaded, and the rebuild starts as without it.
        have hcall := call_idle (s := { s with
          shared := s.shared.mutate (fun _ => s.shared.watching.store.loaded contents) }) (c := .startIndexing) hidle
          (by nofun) created
        rw [hcall]
        rw [s.isIndexing_eq, Bool.not_eq_false'] at hidle
        exact .start created _ hidle (IndexerCall.worker_ne_finished (c := .startIndexing) nofun) rfl

theorem IndexerThreads.gateStep_thread (s : IndexerThreads) (i : Nat) (fs : FileSystem) (excludedPaths : List WString) :
    GateStep s (s.step Γ fixedDrives (.thread i fs excludedPaths)) none := by
  simp only [step]
  split
  · exact .same rfl rfl
  · rename_i body hbody
    split
    · exact .same rfl rfl
    · have hstaged := Body.turn_staged (Γ := Γ) fixedDrives fs excludedPaths (t := s.shared) (b := body)
      split
      · rename_i shared next hturn
        rw [hturn] at hstaged
        have hactive : next ≠ .phase .finished := by
          rintro rfl
          exact body.turn_ne_finished fixedDrives fs excludedPaths s.shared (congrArg Prod.snd hturn)
        exact .goOn i body next hbody hactive rfl (fun h added todo hnext => hstaged h added todo (congrArg some hnext))
      · exact .finish i body hbody rfl

/-- What a step does to the gate, with what `CreateThread` returns to it. -/
theorem IndexerThreads.gateStep_step (Γ : Locale) (fixedDrives : List WString) (s : IndexerThreads) (l : ThreadStep) :
    GateStep s (s.step Γ fixedDrives l) (l.creates s) := by
  cases l with
  | call c created =>
    by_cases hui : s.shared.ui = .idle
    · simpa only [step, ThreadStep.creates, hui, if_true, true_and] using s.gateStep_call c created
    · simp only [step, ThreadStep.creates, hui, if_false, false_and]
      exact .same rfl rfl
  | load contents created =>
    by_cases hui : s.shared.ui = .idle
    · simpa only [step, ThreadStep.creates, hui, if_true, true_and] using s.gateStep_startIndexing contents created
    · simp only [step, ThreadStep.creates, hui, if_false, false_and]
      exact .same rfl rfl
  | select _ | cancel | stopWatchers =>
    simp only [step, ThreadStep.creates]
    split <;> exact .same rfl rfl
  | thread i fs excludedPaths => exact s.gateStep_thread i fs excludedPaths
  | watch l => exact .same rfl (Watching.stagingBuf_step _ l)

/-! ## What holds in every run -/

variable {s' : IndexerThreads} {r : Option Bool}

/-- The thread that runs stays alone with the staging buffer. -/
theorem IndexerThreads.GateStep.staged (h : GateStep s s' r) (hgate : s.gate.Guarded) (hstaged : s.Staged) : s'.Staged := by
  intro added todo hmem
  cases h with
  | same hsame hbuf =>
    rw [hsame] at hmem
    rw [hbuf]
    exact hstaged added todo hmem
  | start created worker hopen _ hstart =>
    rw [hstart, hgate.running_start hopen] at hmem
    split at hmem
    · cases List.mem_singleton.1 hmem
    · exact absurd hmem List.not_mem_nil
  | goOn i body next hbody _ hgoOn hbuf =>
    obtain ⟨rfl, hrun⟩ := hgate.running_eq hbody
    rw [hgoOn, Gate.goOn, hrun] at hmem
    refine hbuf (fun added todo hwriting => hstaged added todo ?_) added todo (List.mem_singleton.1 hmem).symm
    rw [hrun, hwriting]
    exact List.mem_singleton_self _
  | finish i body hbody hfinish =>
    obtain ⟨rfl, hrun⟩ := hgate.running_eq hbody
    rw [hfinish, Gate.finish, hrun] at hmem
    exact absurd hmem List.not_mem_nil

/-- One thread runs at most, with the event reset, whatever `CreateThread` returns, if there is an event. -/
theorem IndexerThreads.GateStep.guarded (h : GateStep s s' r) (hevent : s.gate.event.isSome = true)
    (hgate : s.gate.Guarded) : s'.gate.event.isSome = true ∧ s'.gate.Guarded := by
  cases h with
  | same hsame => exact hsame ▸ ⟨hevent, hgate⟩
  | start created worker hopen _ hstart =>
    rw [hstart]
    exact ⟨by simpa [Gate.start] using hevent, hgate.start hopen hevent created _⟩
  | goOn i body next hbody _ hgoOn =>
    rw [hgoOn]
    exact ⟨hevent, hgate.goOn i next⟩
  | finish i body hbody hfinish =>
    rw [hfinish]
    exact ⟨by simpa [Gate.finish] using hevent, (hgate.finish hbody).toGuarded⟩

/-- The event is reset exactly while one runs, if the thread is created that a step comes to create, and only then. -/
theorem IndexerThreads.GateStep.exclusive_iff (h : GateStep s s' r) (hgate : s.gate.Exclusive) :
    s'.gate.Exclusive ↔ ∀ created ∈ r, created = s.gate.event.isSome := by
  cases h with
  | same hsame =>
    rw [hsame]
    exact ⟨fun _ _ h => (nomatch h), fun _ => hgate⟩
  | start created worker hopen _ hstart =>
    rw [hstart, hgate.start_iff hopen]
    simp
  | goOn i body next hbody _ hgoOn =>
    rw [hgoOn]
    exact ⟨fun _ _ h => (nomatch h), fun _ => hgate.goOn i next⟩
  | finish i body hbody hfinish =>
    rw [hfinish]
    exact ⟨fun _ _ h => (nomatch h), fun _ => hgate.finish hbody⟩

/-- So what holds of the threads goes on holding if the thread is created that a step comes to create, and only then. -/
theorem IndexerThreads.GateStep.signalled_iff (h : GateStep s s' r) (hs : s.Signalled) :
    s'.Signalled ↔ ∀ created ∈ r, created = s.gate.event.isSome := by
  obtain ⟨hgate, hstaged⟩ := IndexerThreads.signalled_iff.1 hs
  have hstaged' := h.staged hgate.toGuarded hstaged
  rw [IndexerThreads.signalled_iff, h.exclusive_iff hgate]
  exact ⟨fun h => h.1, fun h => ⟨h, hstaged'⟩⟩

/-- With the event reset and no thread to set it, no step starts one. -/
theorem IndexerThreads.GateStep.blocked (h : GateStep s s' r) (hs : s.gate = ⟨some false, []⟩) :
    s'.gate = ⟨some false, []⟩ := by
  cases h with
  | same hsame => rw [hsame, hs]
  | start created worker hopen =>
    rw [hs] at hopen
    nomatch hopen
  | goOn i body next hbody | finish i body hbody =>
    rw [hs] at hbody
    nomatch hbody

/-- In every run of a program that has its event, one thread runs at most, and is alone in writing the staging buffer. -/
theorem one_worker (Γ : Locale) (fixedDrives selectedDrives : List WString) (store : IndexStore) (steps : List ThreadStep) :
    Along (fun s => s.gate.running.length ≤ 1 ∧ s.Staged) (IndexerThreads.step Γ fixedDrives)
      (.launch true selectedDrives store) steps := by
  have hlaunch := IndexerThreads.signalled_iff.1 (IndexerThreads.signalled_launch true selectedDrives store)
  have hrun : Along (fun s => (s.gate.event.isSome = true ∧ s.gate.Guarded) ∧ s.Staged) (IndexerThreads.step Γ fixedDrives)
      (.launch true selectedDrives store) steps := by
    refine along_of_step ?_ ⟨⟨rfl, hlaunch.1.toGuarded⟩, hlaunch.2⟩ (meets_trivial _ _ steps)
    rintro s l ⟨⟨hevent, hgate⟩, hstaged⟩ -
    have hstep := s.gateStep_step Γ fixedDrives l
    exact ⟨hstep.guarded hevent hgate, hstep.staged hgate hstaged⟩
  exact hrun.imp (fun s hs => ⟨hs.1.2.single, hs.2⟩)

/-- Over any run of calls, threads and watchers, one thread runs at most and is alone in writing the staging buffer,
`IsIndexing` is true exactly while it runs, and `WaitForCompletion` returns while none runs, exactly if every step creates the
thread it comes to create. -/
theorem signalled_iff_threadCreated (Γ : Locale) (fixedDrives : List WString) (eventCreated : Bool)
    (selectedDrives : List WString) (store : IndexStore) (steps : List ThreadStep) :
    Along IndexerThreads.Signalled (IndexerThreads.step Γ fixedDrives) (.launch eventCreated selectedDrives store) steps ↔
      Meets (fun s l => l.ThreadCreated s) (IndexerThreads.step Γ fixedDrives)
        (.launch eventCreated selectedDrives store) steps := by
  refine along_iff_meets (I := fun _ => True) (fun _ _ _ _ _ => trivial) ?_ trivial
    (IndexerThreads.signalled_launch eventCreated selectedDrives store) (meets_trivial _ _ steps)
  intro s l _ hs _
  exact (s.gateStep_step Γ fixedDrives l).signalled_iff hs

/-- A failed `CreateThread` ends it all: no run after it starts a thread, and none lets `WaitForCompletion` return. -/
theorem blocked_for_ever (Γ : Locale) (fixedDrives : List WString) (hs : s.gate = ⟨some false, []⟩) (steps : List ThreadStep) :
    Along (fun s => s.gate.running = [] ∧ s.isIndexing = true ∧ s.waitForCompletion = false)
      (IndexerThreads.step Γ fixedDrives) s steps := by
  have hrun : Along (fun s => s.gate = ⟨some false, []⟩) (IndexerThreads.step Γ fixedDrives) s steps := by
    refine along_of_step ?_ hs (meets_trivial _ _ steps)
    intro s l hs _
    exact (s.gateStep_step Γ fixedDrives l).blocked hs
  refine hrun.imp (fun s hs => ?_)
  rw [s.isIndexing_eq, s.waitForCompletion_eq, hs]
  exact ⟨rfl, rfl, rfl⟩

/-- The first rebuild of a program, and its thread is not created: nothing runs, `IsIndexing` is true, and
`WaitForCompletion` does not return. -/
theorem failed_thread_blocks :
    ¬Along IndexerThreads.Signalled (IndexerThreads.step .c []) (.launch true [] .empty) [.call .startIndexing false] ∧
      ∀ steps, Along (fun s => s.gate.running = [] ∧ s.isIndexing = true ∧ s.waitForCompletion = false)
        (IndexerThreads.step .c []) ((IndexerThreads.launch true [] .empty).step .c [] (.call .startIndexing false))
        steps := by
  refine ⟨fun h => ?_, fun steps => blocked_for_ever .c [] rfl steps⟩
  have hlast := h.final
  have hreturns := hlast.returns rfl
  nomatch hreturns

end WinIndex
