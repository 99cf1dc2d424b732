import WinIndex.Theorems.WorkerExclusion

/-!
# The one worker of a session

A session has one worker, which publishes what it has scanned in one step. While every thread that is to be created is created,
the threads of the indexer are such a session: the thread that runs is the worker, the calls of `AddEntry` go unnoticed, and
`EndWrite` publishes just what this thread has added.
-/

namespace WinIndex

open Trace

/-- What a session shows of a thread: from `BeginWrite` to `EndWrite` it is about to publish what it adds. -/
def Body.worker : Body → Worker
  | .phase worker => worker
  | .writing added todo => .publishing (added ++ todo)

/-- A session does not show the staging buffer. -/
def IndexStore.unstaged (s : IndexStore) : IndexStore := { s with stagingBuf := [] }

def Watching.unstaged (s : Watching) : Watching := { s with store := s.store.unstaged }

def Session.unstaged (s : Session) : Session := { s with watching := s.watching.unstaged }

/-- The session of the threads. -/
def IndexerThreads.session (s : IndexerThreads) : Session :=
  { s.shared.unstaged with worker := (s.gate.running.head?.map Body.worker).getD .finished }

/-- A step, as the session makes it. -/
def ThreadStep.onSession (Γ : Locale) (fixedDrives : List WString) (t : Session) : ThreadStep → Session
  | .call c _ => if t.ui = .idle then t.call c else t
  | .load contents _ =>
    if t.ui = .idle then t.startIndexing fixedDrives (contents.map t.watching.store.loaded) else t
  | .select newPaths => if t.ui = .idle then { t with selectedDrives := newPaths } else t
  | .cancel => t.step Γ fixedDrives .cancel
  | .stopWatchers => if t.ui = .stopWatchers then t.step Γ fixedDrives .ui else t
  | .thread _ fs excludedPaths => t.step Γ fixedDrives (.worker fs excludedPaths)
  | .watch l => t.step Γ fixedDrives (.watch l)

/-- What a session needs of the threads: one runs at most, which has not ended, with the event reset exactly while it does,
and alone in writing the staging buffer. -/
structure IndexerThreads.Showable (s : IndexerThreads) : Prop where
  signalled : s.Signalled
  event : s.gate.event.isSome = true
  active : Body.phase .finished ∉ s.gate.running

variable {Γ : Locale} {fixedDrives : List WString} {fs : FileSystem} {excludedPaths : List WString} {s : IndexerThreads}

/-! ## The staging buffer goes unnoticed -/

theorem IndexStore.unstaged_applyRemove (s : IndexStore) (path : WString) :
    s.unstaged.applyRemove Γ path = (s.applyRemove Γ path).unstaged := by
  unfold applyRemove unstaged
  simp only
  split <;> rfl

theorem IndexStore.unstaged_applyRename (s : IndexStore) (oldPath newPath : WString) :
    s.unstaged.applyRename Γ oldPath newPath = (s.applyRename Γ oldPath newPath).unstaged := by
  unfold applyRename unstaged
  simp only
  split
  · split <;> rfl
  · rfl

theorem Watching.unstaged_step (t : Watching) (l : WatchStep) : t.unstaged.step Γ l = (t.step Γ l).unstaged := by
  cases l with
  | event i action name =>
    simp only [step, unstaged]
    split <;> rfl
  | apply i attributes =>
    simp only [step, unstaged]
    split
    · rename_i root c rest hw
      cases c with
      | remove path => simp only [ChangeStep.run, IndexStore.unstaged_applyRemove]
      | rename oldPath newPath => simp only [ChangeStep.run, IndexStore.unstaged_applyRename]
      | look path => rfl
      | add e => rfl
    · rfl

/-- Outside of its write to the store the worker does not look at the staging buffer. -/
theorem Session.unstaged_workerStep {t : Session} (h : ∀ entries, t.worker ≠ .publishing entries) :
    t.unstaged.workerStep Γ fixedDrives fs excludedPaths = (t.workerStep Γ fixedDrives fs excludedPaths).unstaged := by
  have hworker : t.unstaged.worker = t.worker := rfl
  unfold workerStep
  rw [hworker]
  cases hw : t.worker with
  | publishing entries => exact absurd hw (h entries)
  | stopping paths =>
    have hwatchers : t.unstaged.watching.watchers = t.watching.watchers := rfl
    simp only [hwatchers]
    split
    · split <;> rfl
    · rfl
  | scanning todo _ | indexing _ todo | removing _ todo | watching todo => cases todo <;> rfl
  | adding _ _ entries => cases entries <;> rfl
  | _ => rfl

/-- A worker that has added its entries publishes them. -/
theorem Session.unstaged_publishing {t : Session} {added : List FileEntry} (hbuf : t.watching.store.stagingBuf = added) :
    { t.unstaged with worker := .publishing added }.workerStep Γ fixedDrives fs excludedPaths =
      { (t.mutate (fun store => store.endWrite Γ)).unstaged with worker := .savingRebuilt } := by
  simp only [workerStep, mutate, final_publish, ← hbuf]
  rfl

/-! ## The calls -/

/-- The thread that runs is the worker of the session. -/
theorem IndexerThreads.isIndexing_session (h : s.Showable) : s.session.isIndexing = s.isIndexing := by
  rcases hrun : s.gate.running with _ | ⟨body, rest⟩
  · have hworker : s.session.worker = .finished := by simp [session, hrun]
    have hidle : s.isIndexing = false := by
      refine Bool.eq_false_of_not_eq_true (fun htrue => ?_)
      exact h.signalled.indexing.1 htrue hrun
    rw [hidle]
    exact Session.isIndexing_eq_false.2 hworker
  · have hworker : s.session.worker = body.worker := by simp [session, hrun]
    have hbusy : s.isIndexing = true := h.signalled.indexing.2 (by simp [hrun])
    have hactive : s.session.worker ≠ .finished := by
      rw [hworker]
      cases body with
      | phase worker =>
        rintro rfl
        exact h.active (by simp [hrun])
      | writing added todo => nofun
    rw [hbusy]
    refine Bool.eq_true_of_not_eq_false (fun hfalse => ?_)
    exact hactive (Session.isIndexing_eq_false.1 hfalse)

/-- While no thread runs, the session has no worker. -/
theorem IndexerThreads.running_of_idle (h : s.Showable) (hidle : s.isIndexing = false) : s.gate.running = [] := by
  by_contra hne
  have hbusy := h.signalled.indexing.2 hne
  rw [hidle] at hbusy
  nomatch hbusy

theorem IndexerThreads.session_call (h : s.Showable) {c : IndexerCall} {created : Bool}
    (hcreated : s.isIndexing = false → c ≠ .none → created = true) : (s.call c created).session = s.session.call c := by
  rcases s.call_cases c created with ⟨hdropped, hcall⟩ | ⟨hidle, hc, hcall⟩
  · rw [← isIndexing_session h] at hdropped
    rw [hcall, Session.call_dropped hdropped]
  · have hrun := running_of_idle h hidle
    have hsession : s.session.isIndexing = false := (isIndexing_session h).trans hidle
    rw [hcall, Session.call_idle hsession hc, hcreated hidle hc]
    simp only [session, Gate.start, hrun]
    rfl

theorem IndexerThreads.session_startIndexing (h : s.Showable) {contents : Option (IndexPool × UsnMap)} {created : Bool}
    (hcreated : s.isIndexing = false → (∀ c ∈ contents, (s.shared.watching.store.loaded c).getEntryCount = 0) →
      created = true) :
    (s.startIndexing fixedDrives contents created).session =
      s.session.startIndexing fixedDrives (contents.map s.session.watching.store.loaded) := by
  unfold startIndexing Session.startIndexing
  rw [isIndexing_session h]
  by_cases hrun : s.isIndexing = true
  · rw [if_pos hrun, if_pos hrun]
  · have hidle : s.isIndexing = false := by simpa using hrun
    have hnone := running_of_idle h hidle
    rw [if_neg hrun, if_neg hrun]
    cases contents with
    | none => exact session_call h (fun hidle _ => hcreated hidle (by simp))
    | some contents =>
      have hcount : (s.session.watching.store.loaded contents).getEntryCount =
          (s.shared.watching.store.loaded contents).getEntryCount := rfl
      simp only [Option.map_some, hcount]
      split
      · simp only [hnone, List.any_nil, Bool.false_eq_true, if_false]
        rfl
      · rename_i hpos
        have hzero : (s.shared.watching.store.loaded contents).getEntryCount = 0 := by omega
        have hsame : GateStep s { s with
            shared := s.shared.mutate (fun _ => s.shared.watching.store.loaded contents) } none := .same rfl rfl
        have hloaded : ({ s with
            shared := s.shared.mutate (fun _ => s.shared.watching.store.loaded contents) } : IndexerThreads).Showable :=
          ⟨(hsame.signalled_iff h.signalled).2 nofun, h.event, h.active⟩
        rw [session_call hloaded (fun hidle _ => hcreated hidle (by simpa using hzero))]
        rfl

/-! ## The threads -/

/-- The session of the thread that runs. -/
theorem IndexerThreads.session_of_running {body : Body} (hrun : s.gate.running = [body]) :
    s.session = { s.shared.unstaged with worker := body.worker } := by
  rw [session, hrun]
  rfl

/-- `Cancel` goes on once the watchers have stopped, if the worker does not keep it from them. -/
theorem Session.step_stopWatchers {t : Session} (hui : t.ui = .stopWatchers) (hworker : ∀ paths, t.worker ≠ .stopping paths) :
    t.step Γ fixedDrives .ui =
      if t.watching.Idle then { t with watching := { t.watching with watchers := [] }, ui := .idle } else t := by
  simp only [step, hui]

/-- `Cancel` waits for the same in both. -/
theorem IndexerThreads.session_stopWatchers (h : s.Showable) :
    (s.step Γ fixedDrives .stopWatchers).session = ThreadStep.onSession Γ fixedDrives s.session .stopWatchers := by
  have hui : s.session.ui = s.shared.ui := rfl
  have hidle : s.session.watching.Idle ↔ s.shared.watching.Idle := Iff.rfl
  have hholds : s.gate.running.any Body.holdsWatchers = true ↔ ∃ paths, s.session.worker = .stopping paths := by
    rcases hrun : s.gate.running with _ | ⟨body, rest⟩
    · simp [session, hrun]
    · have hrest : rest = [] := by
        have hsingle := h.signalled.single
        rw [hrun, List.length_cons] at hsingle
        exact List.length_eq_zero_iff.1 (by omega)
      subst hrest
      rw [session_of_running hrun, List.any_cons, List.any_nil, Bool.or_false]
      cases body with
      | phase worker => cases worker <;> simp [Body.holdsWatchers, Body.worker]
      | writing added todo => simp [Body.holdsWatchers, Body.worker]
  rw [ThreadStep.onSession, hui]
  by_cases hstop : s.shared.ui = .stopWatchers
  · rw [if_pos hstop]
    by_cases hbusy : s.gate.running.any Body.holdsWatchers = true
    · obtain ⟨paths, hpaths⟩ := hholds.1 hbusy
      simp only [step, hbusy, Bool.true_eq_false, false_and, and_false, if_false, Session.step, hui, hstop, hpaths]
    · have hworker : ∀ paths, s.session.worker ≠ .stopping paths := fun paths hpaths => hbusy (hholds.2 ⟨paths, hpaths⟩)
      have hfree : s.gate.running.any Body.holdsWatchers = false := Bool.eq_false_of_not_eq_true hbusy
      rw [Session.step_stopWatchers (hui.trans hstop) hworker]
      simp only [step, hstop, hfree, true_and, hidle]
      split <;> rfl
  · simp only [step, hstop, if_false, false_and]

/-- The turn of the thread that runs is a turn of the worker, or goes unnoticed. -/
theorem IndexerThreads.session_thread (h : s.Showable) (i : Nat) :
    (s.step Γ fixedDrives (.thread i fs excludedPaths)).session = s.session ∨
      (s.step Γ fixedDrives (.thread i fs excludedPaths)).session = s.session.workerStep Γ fixedDrives fs excludedPaths := by
  obtain ⟨hgate, hstaged⟩ := signalled_iff.1 h.signalled
  simp only [step]
  split
  · exact .inl rfl
  · rename_i body hbody
    split
    · exact .inl rfl
    · obtain ⟨rfl, hrun⟩ := hgate.running_eq hbody
      have hgoOn : ∀ next, (s.gate.goOn 0 next).running = [next] := fun next => by rw [Gate.goOn, hrun]; rfl
      have hfinish : (s.gate.finish 0).running = [] := by rw [Gate.finish, hrun]; rfl
      rw [session_of_running hrun]
      rcases body.turn_cases (Γ := Γ) fixedDrives fs excludedPaths s.shared with
        ⟨entries, rfl, hturn⟩ | ⟨added, e, todo, rfl, hturn⟩ | ⟨added, rfl, hturn⟩ |
        ⟨worker, next, rfl, hworker, hnext, hturn⟩
      · -- `BeginWrite`
        rw [hturn, session_of_running (hgoOn _)]
        exact .inl rfl
      · -- `AddEntry`
        rw [hturn, session_of_running (hgoOn _), Body.worker, Body.worker, List.append_assoc]
        exact .inl rfl
      · -- `EndWrite`
        have hbuf := hstaged added [] (by simp [hrun])
        rw [hturn, session_of_running (hgoOn _), Body.worker, Body.worker, List.append_nil,
          Session.unstaged_publishing hbuf]
        exact .inr rfl
      · -- any other phase
        have hstep : { s.shared with worker := worker }.unstaged.workerStep Γ fixedDrives fs excludedPaths =
            next.unstaged := by
          rw [hnext]
          exact Session.unstaged_workerStep hworker
        rcases hturn with ⟨hdone, hturn⟩ | ⟨-, hturn⟩
        · have hlast : ({ shared := next, gate := s.gate.finish 0 } : IndexerThreads).session = next.unstaged := by
            rw [session, hfinish, List.head?_nil, Option.map_none, Option.getD_none, ← hdone]
            rfl
          rw [hturn, hlast]
          exact .inr hstep.symm
        · rw [hturn, session_of_running (hgoOn _)]
          exact .inr hstep.symm

/-! ## Runs -/

/-- A step shows the session nothing, or one of its own steps. -/
theorem IndexerThreads.session_step (Γ : Locale) (fixedDrives : List WString) (h : s.Showable) {l : ThreadStep}
    (hcreated : l.ThreadCreated s) :
    (s.step Γ fixedDrives l).session = s.session ∨
      (s.step Γ fixedDrives l).session = l.onSession Γ fixedDrives s.session := by
  have hui : s.session.ui = s.shared.ui := rfl
  have hsome : s.gate.event.isSome = true := h.event
  rw [ThreadStep.ThreadCreated, hsome] at hcreated
  cases l with
  | call c created =>
    refine .inr ?_
    rw [step, ThreadStep.onSession, hui]
    split
    · rename_i hidle
      refine session_call h (fun hfree hc => hcreated created ?_)
      simp [ThreadStep.creates, hidle, hfree, hc]
    · rfl
  | load contents created =>
    refine .inr ?_
    rw [step, ThreadStep.onSession, hui]
    split
    · rename_i hidle
      refine session_startIndexing h (fun hfree hzero => hcreated created ?_)
      simp only [ThreadStep.creates, hidle, hfree, true_and]
      exact if_pos hzero
    · rfl
  | select newPaths =>
    refine .inr ?_
    rw [step, ThreadStep.onSession, hui]
    split <;> rfl
  | cancel =>
    refine .inr ?_
    rw [step, ThreadStep.onSession, Session.step, hui]
    split <;> rfl
  | stopWatchers => exact .inr (session_stopWatchers h)
  | thread i fs excludedPaths => exact session_thread h i
  | watch l =>
    refine .inr ?_
    show _ = { s.session with watching := s.shared.watching.unstaged.step Γ l }
    rw [Watching.unstaged_step]
    rfl

variable {s' : IndexerThreads} {r : Option Bool}

/-- The thread that runs has not ended. -/
theorem IndexerThreads.GateStep.active (h : GateStep s s' r) (hgate : s.gate.Guarded)
    (hactive : Body.phase .finished ∉ s.gate.running) : Body.phase .finished ∉ s'.gate.running := by
  intro hmem
  cases h with
  | same hsame => exact hactive (hsame ▸ hmem)
  | start created worker hopen hworker hstart =>
    rw [hstart, hgate.running_start hopen] at hmem
    split at hmem
    · exact hworker (Body.phase.inj (List.mem_singleton.1 hmem)).symm
    · exact absurd hmem List.not_mem_nil
  | goOn i body next hbody hnext hgoOn =>
    obtain ⟨rfl, hrun⟩ := hgate.running_eq hbody
    rw [hgoOn, Gate.goOn, hrun] at hmem
    exact hnext (List.mem_singleton.1 hmem).symm
  | finish i body hbody hfinish =>
    obtain ⟨rfl, hrun⟩ := hgate.running_eq hbody
    rw [hfinish, Gate.finish, hrun] at hmem
    exact absurd hmem List.not_mem_nil

theorem IndexerThreads.showable_launch (selectedDrives : List WString) (store : IndexStore) :
    (launch true selectedDrives store).Showable :=
  ⟨signalled_launch true selectedDrives store, rfl, List.not_mem_nil⟩

theorem IndexerThreads.showable_step (h : s.Showable) {l : ThreadStep} (hcreated : l.ThreadCreated s) :
    (s.step Γ fixedDrives l).Showable := by
  obtain ⟨hgate, -⟩ := signalled_iff.1 h.signalled
  have hstep := s.gateStep_step Γ fixedDrives l
  exact ⟨(hstep.signalled_iff h.signalled).2 hcreated, (hstep.guarded h.event hgate.toGuarded).1,
    hstep.active hgate.toGuarded h.active⟩

/-- A run from a state that a session can be shown of is a run of the session, with what goes unnoticed left out. -/
theorem IndexerThreads.session_run (Γ : Locale) (fixedDrives : List WString) {steps : List ThreadStep} (h : s.Showable)
    (hcreated : Meets (fun s l => l.ThreadCreated s) (step Γ fixedDrives) s steps) :
    ∃ shown : List ThreadStep, shown.Sublist steps ∧
      (final (step Γ fixedDrives) s steps).session = final (ThreadStep.onSession Γ fixedDrives) s.session shown := by
  induction steps generalizing s with
  | nil => exact ⟨[], .slnil, rfl⟩
  | cons l steps ih =>
    obtain ⟨hl, hrest⟩ := hcreated
    obtain ⟨shown, hsub, hshown⟩ := ih (showable_step h hl) hrest
    rcases session_step Γ fixedDrives h hl with hsame | hstep
    · refine ⟨shown, hsub.cons l, ?_⟩
      rw [final_cons, hshown, hsame]
    · refine ⟨l :: shown, hsub.cons_cons l, ?_⟩
      rw [final_cons, hshown, hstep, final_cons]

/-- A run of the threads in which every thread is created that is to be created is a run of the session: some of its steps, in
their order, take the session to where the threads are. -/
theorem threads_run_session (Γ : Locale) (fixedDrives selectedDrives : List WString) (store : IndexStore)
    (steps : List ThreadStep) (h : Meets (fun s l => l.ThreadCreated s) (IndexerThreads.step Γ fixedDrives)
      (.launch true selectedDrives store) steps) :
    ∃ shown : List ThreadStep, shown.Sublist steps ∧
      (final (IndexerThreads.step Γ fixedDrives) (.launch true selectedDrives store) steps).session =
        final (ThreadStep.onSession Γ fixedDrives) (.launch selectedDrives store.unstaged) shown :=
  IndexerThreads.session_run Γ fixedDrives (IndexerThreads.showable_launch selectedDrives store) h

namespace OneWorkerWitness

/-- A rebuild is asked for and runs, a second call meets it, and it is cancelled on the way. -/
def steps : List ThreadStep :=
  [.call .startIndexing true, .thread 0 .empty [], .call (.indexPaths []) true, .cancel, .thread 0 .empty [], .stopWatchers]

theorem threads_run_session_steps :
    ∃ shown : List ThreadStep, shown.Sublist steps ∧
      (final (IndexerThreads.step .c []) (.launch true [] .empty) steps).session =
        final (ThreadStep.onSession .c []) (.launch [] IndexStore.empty.unstaged) shown :=
  threads_run_session .c [] [] .empty steps (by decide +kernel)

end OneWorkerWitness

end WinIndex
