import WinIndex.Lemmas.Worker

/-!
# Settings changes

The settings dialog stores the new selection at once, and its handler makes one call for the difference. When a worker is
running that call returns at once and is never made again, so the index keeps what is no longer selected and lacks what is
newly selected. When it finds no worker running, or the one it finds is a rebuild that reads the selection after it was
stored, every change takes effect: the call makes up for exactly what the dialog has changed.
-/

namespace WinIndex

open Trace

/-- A session with the history of its selection: the paths that were ever selected, those whose scan has begun since they
were last added, and those that have been scanned into the index since then. `unread` says that a rebuild was running when the
selection was last stored, and had not read it yet. -/
structure TrackedSession where
  session : Session
  everSelected : List WString
  underway : List WString
  scanned : List WString
  unread : Bool

/-- The worker is a rebuild that has not read the selection yet. -/
def Worker.beforeReading : Worker → Bool
  | .rebuilding => true
  | _ => false

/-- The effect of a step, and what it adds to the history. -/
def TrackedSession.step (Γ : Locale) (fixedDrives : List WString) (t : TrackedSession) (l : SessionStep) : TrackedSession :=
  let next := { t with session := t.session.step Γ fixedDrives l }
  match l with
  | .settings newPaths =>
    if t.session.ui = .idle then
      let addedPaths := pathsNotIn newPaths t.session.selectedDrives
      { next with
        everSelected := t.everSelected ++ newPaths
        underway := pathsNotIn t.underway addedPaths
        scanned := pathsNotIn t.scanned addedPaths
        unread := t.session.worker.beforeReading }
    else next
  | .ui => { next with unread := false }
  | .worker _ _ =>
    match t.session.worker with
    | .rebuilding => { next with underway := effectiveRoots fixedDrives t.session.selectedDrives }
    | .publishing _ => { next with scanned := t.underway, underway := [] }
    | .indexing _ (root :: _) => { next with underway := [root] }
    | .adding _ _ [] => { next with scanned := t.scanned ++ t.underway, underway := [] }
    | _ => next
  | _ => next

/-- While no worker is running, and no handler is about to start one, every selected path has been scanned into the index
since it was last added, and no live entry lies only under paths that are no longer selected. -/
def TrackedSession.NothingDropped (Γ : Locale) (t : TrackedSession) : Prop :=
  t.session.isIndexing = false → t.session.ui = .idle →
    (∀ q ∈ t.session.selectedDrives, q ∈ t.scanned) ∧
      ∀ r ∈ t.session.watching.store.pool.live, UnderSome Γ t.everSelected r.path →
        UnderSome Γ t.session.selectedDrives r.path

instance TrackedSession.decidableNothingDropped (Γ : Locale) : DecidablePred (TrackedSession.NothingDropped Γ) :=
  fun t => inferInstanceAs (Decidable (t.session.isIndexing = false → _ → _ ∧ _))

/-- The step is one of a settings dialog or of the worker. -/
def SessionStep.OfDialogs : SessionStep → Prop
  | .settings _ | .ui | .worker _ _ => True
  | .rebuild | .start _ | .cancel | .watch _ => False

/-- A step by which the changes of the dialogs take effect: a handler's call finds no worker running, or one that reads the
selection after the dialog has stored it, and no rebuild reads a selection that has become empty. -/
def SessionStep.TakesEffect (t : TrackedSession) : SessionStep → Prop
  | .ui =>
    match t.session.ui with
    | .call c => t.session.isIndexing = true → c ≠ .none → t.unread = true
    | .idle | .stopWatchers => True
  | .worker _ _ => t.session.worker.beforeReading = true → t.session.selectedDrives ≠ []
  | _ => True

/-- The worker scans a root only so that what it reports lies under the root, and there is room for what it adds. -/
def Worker.Fits (fs : FileSystem) (p : IndexPool) : Worker → Prop
  | .scanning (root :: _) _ | .indexing _ (root :: _) => Separates fs root
  | .publishing entries => IndexPool.empty.HasRoom entries
  | .adding _ _ (e :: _) => p.Fits e.path ∧ p.entryMeta.length < 2 ^ 32
  | _ => True

/-- Every step of the worker fits. -/
def SessionStep.Fits (s : Session) : SessionStep → Prop
  | .worker fs _ => s.worker.Fits fs s.watching.store.pool
  | _ => True

instance SessionStep.decidableTakesEffect (t : TrackedSession) : (l : SessionStep) → Decidable (l.TakesEffect t)
  | .ui =>
    match hui : t.session.ui with
    | .call c => decidable_of_iff (t.session.isIndexing = true → c ≠ .none → t.unread = true) (by rw [TakesEffect, hui])
    | .idle | .stopWatchers => .isTrue (by rw [TakesEffect, hui]; trivial)
  | .worker _ _ => inferInstanceAs (Decidable (_ → t.session.selectedDrives ≠ []))
  | .settings _ | .rebuild | .start _ | .cancel | .watch _ => .isTrue trivial

instance Worker.decidableFits (fs : FileSystem) (p : IndexPool) : (w : Worker) → Decidable (w.Fits fs p)
  | .scanning (root :: _) _ | .indexing _ (root :: _) => inferInstanceAs (Decidable (Separates fs root))
  | .publishing entries => inferInstanceAs (Decidable (IndexPool.empty.HasRoom entries))
  | .adding _ _ (e :: _) => inferInstanceAs (Decidable (p.Fits e.path ∧ p.entryMeta.length < 2 ^ 32))
  | .scanning [] _ | .indexing _ [] | .adding _ _ [] | .finished | .rebuilding | .savingRebuilt | .monitoring
  | .savingIndexed _ | .removing _ _ | .stopping _ | .savingRemoved | .watching _ | .starting _ _ => .isTrue trivial

instance SessionStep.decidableFits (s : Session) : (l : SessionStep) → Decidable (l.Fits s)
  | .worker fs _ => inferInstanceAs (Decidable (s.worker.Fits fs s.watching.store.pool))
  | .settings _ | .rebuild | .start _ | .cancel | .ui | .watch _ => .isTrue trivial

variable {Γ : Locale} {fixedDrives : List WString} {t : TrackedSession}

/-! ## What is outstanding -/

/-- All is done for the selection but that some paths are still to be scanned, and the entries under some still to be
removed. -/
structure TrackedSession.Settled (Γ : Locale) (t : TrackedSession) (toScan toRemove : List WString) : Prop where
  scanned : ∀ q ∈ t.session.selectedDrives, q ∈ t.scanned ∨ q ∈ toScan
  covered : ∀ r ∈ t.session.watching.store.pool.live, UnderSome Γ t.everSelected r.path →
    UnderSome Γ (t.session.selectedDrives ++ toRemove) r.path

/-- The same is outstanding in a state with the same selection, history and live entries. -/
theorem TrackedSession.Settled.congr {toScan toRemove : List WString} {t' : TrackedSession} (h : t.Settled Γ toScan toRemove)
    (hselected : t'.session.selectedDrives = t.session.selectedDrives) (hever : t'.everSelected = t.everSelected)
    (hscanned : t'.scanned = t.scanned) (hstore : t'.session.watching.store = t.session.watching.store) :
    t'.Settled Γ toScan toRemove := by
  refine ⟨?_, ?_⟩
  · rw [hselected, hscanned]
    exact h.scanned
  · rw [hselected, hever, hstore]
    exact h.covered

theorem TrackedSession.Settled.mono {toScan toRemove toScan' toRemove' : List WString} (h : t.Settled Γ toScan toRemove)
    (hscan : ∀ q ∈ toScan, q ∈ toScan') (hremove : ∀ q ∈ toRemove, q ∈ toRemove') : t.Settled Γ toScan' toRemove' := by
  refine ⟨fun q hq => (h.scanned q hq).imp_right (hscan q), fun r hr he => (h.covered r hr he).mono ?_⟩
  intro q hq
  exact List.mem_append.2 ((List.mem_append.1 hq).imp_right (hremove q))

/-- The state when a dialog was accepted, and its handler is about to make its call. -/
def TrackedSession.accept (t : TrackedSession) (newPaths : List WString) : TrackedSession where
  session :=
    { t.session with
      selectedDrives := newPaths
      ui := .call (onIndexSettings t.session.selectedDrives newPaths)
      reported := t.session.reported && t.session.isIndexing }
  everSelected := t.everSelected ++ newPaths
  underway := pathsNotIn t.underway (pathsNotIn newPaths t.session.selectedDrives)
  scanned := pathsNotIn t.scanned (pathsNotIn newPaths t.session.selectedDrives)
  unread := t.session.worker.beforeReading

theorem TrackedSession.step_settings (hui : t.session.ui = .idle) (newPaths : List WString) :
    t.step Γ fixedDrives (.settings newPaths) = t.accept newPaths := by
  simp only [step, Session.step, hui, if_true]
  rfl

/-- A path that a list held and that the dialog has not added is still there, the others are added by the dialog. -/
theorem mem_pathsNotIn_or_added {q : WString} {paths newPaths oldPaths : List WString} (hq : q ∈ newPaths)
    (hpaths : q ∈ oldPaths → q ∈ paths) : q ∈ pathsNotIn paths (pathsNotIn newPaths oldPaths) ∨ q ∈ pathsNotIn newPaths oldPaths := by
  by_cases hold : q ∈ oldPaths
  · exact .inl (mem_pathsNotIn.2 ⟨hpaths hold, fun ha => (mem_pathsNotIn.1 ha).2 hold⟩)
  · exact .inr (mem_pathsNotIn.2 ⟨hq, hold⟩)

/-- A path that was selected still is, or the dialog has removed it. -/
theorem mem_selected_or_removed {q : WString} {oldPaths : List WString} (newPaths : List WString) (hq : q ∈ oldPaths) :
    q ∈ newPaths ++ pathsNotIn oldPaths newPaths := by
  by_cases hnew : q ∈ newPaths
  · exact List.mem_append_left _ hnew
  · exact List.mem_append_right _ (mem_pathsNotIn.2 ⟨hq, hnew⟩)

/-! ## Where the worker and the handler are -/

/-- The calls of the handlers make up for these paths, which are still to be scanned or to be removed: the call that a handler
is about to make asks for them. For a call that rebuilds there is nothing to tell, and a rebuild that has not read the selection
has nothing to make up for. -/
def TrackedSession.Outstanding (t : TrackedSession) (added removed : List WString) : Prop :=
  if t.unread then added = [] ∧ removed = []
  else
    match t.session.ui with
    | .call .startIndexing | .stopWatchers => False
    | .call (.indexPaths paths) => added = paths ∧ removed = []
    | .call (.removePaths paths) => added = [] ∧ removed = paths
    | .idle | .call .none => added = [] ∧ removed = []

/-- What the worker has still to do in each phase, besides what the handler is about to ask for. -/
def TrackedSession.PhaseOk (Γ : Locale) (t : TrackedSession) (added removed : List WString) : Prop :=
  let selected := t.session.selectedDrives
  match t.session.worker with
  | .rebuilding => True
  | .scanning todo entries =>
    (∀ q ∈ selected, q ∈ t.underway ∨ q ∈ added) ∧ (∀ q ∈ todo, q ∈ selected ++ removed) ∧
      ∀ e ∈ entries, UnderSome Γ (selected ++ removed) e.path
  | .publishing entries =>
    (∀ q ∈ selected, q ∈ t.underway ∨ q ∈ added) ∧ ∀ e ∈ entries, UnderSome Γ (selected ++ removed) e.path
  | .indexing _ todo => t.Settled Γ (todo ++ added) removed ∧ ∀ q ∈ todo, q ∈ selected ++ removed
  | .adding _ todo entries =>
    t.Settled Γ (t.underway ++ (todo ++ added)) removed ∧ (∀ q ∈ todo, q ∈ selected ++ removed) ∧
      ∀ e ∈ entries, UnderSome Γ (selected ++ removed) e.path
  | .removing _ todo => t.Settled Γ added (todo ++ removed)
  | .finished | .savingRebuilt | .monitoring | .savingIndexed _ | .stopping _ | .savingRemoved | .watching _ | .starting _ _ =>
    t.Settled Γ added removed

/-- The paths that the handler is about to have scanned are selected. -/
def UiTask.Serves (selectedDrives : List WString) : UiTask → Prop
  | .call (.indexPaths paths) => ∀ q ∈ paths, q ∈ selectedDrives
  | .idle | .call .startIndexing | .call (.removePaths _) | .call .none => True
  | .stopWatchers => False

/-- What holds all the time. -/
structure TrackedSession.Consistent (Γ : Locale) (t : TrackedSession) : Prop where
  sound : t.session.watching.store.pool.Sound
  running : t.session.isIndexing = true → t.session.cancel = false
  serves : t.session.ui.Serves t.session.selectedDrives
  phase : ∀ added removed, t.Outstanding added removed → t.PhaseOk Γ added removed

/-- Then nothing has been dropped. -/
theorem TrackedSession.Consistent.nothingDropped (h : t.Consistent Γ) : t.NothingDropped Γ := by
  intro hidle hui
  have hout : t.Outstanding [] [] := by simp [Outstanding, hui]
  have hphase := h.phase [] [] hout
  rw [PhaseOk, Session.isIndexing_eq_false.1 hidle] at hphase
  have hsettled : t.Settled Γ [] [] := hphase
  refine ⟨fun q hq => (hsettled.scanned q hq).resolve_right (by simp), fun r hr he => ?_⟩
  simpa using hsettled.covered r hr he

/-! ## The worker -/

/-- What a scan reports lies under the root that was scanned. -/
theorem underSome_of_mem_scan {fs : FileSystem} {excludedPaths selected : List WString} {root : WString}
    (hroot : root ∈ selected) (hsep : Separates fs root) :
    ∀ e ∈ scanDriveInto Γ fs excludedPaths root, UnderSome Γ selected e.path :=
  fun _ he => ⟨root, hroot, under_of_mem_scanDriveInto hsep he⟩

/-- What is published lies where the scans have reported it. -/
theorem underSome_of_mem_publish {entries : List FileEntry} {roots : List WString} (store : IndexStore)
    (hfit : IndexPool.empty.HasRoom entries) (hentries : ∀ e ∈ entries, UnderSome Γ roots e.path) :
    ∀ r ∈ (final (StoreOp.run Γ) store (.beginWrite :: entries.map .addEntry ++ [.endWrite])).pool.live,
      UnderSome Γ roots r.path := by
  intro r hr
  rw [pool_publish store, (IndexPool.live_ofEntries hfit).1] at hr
  obtain ⟨e, he, rfl⟩ := List.mem_map.1 hr
  exact hentries e he

/-- What has been scanned into the index need not be scanned any more. -/
theorem TrackedSession.Settled.scanned_underway {toScan toRemove : List WString}
    (h : t.Settled Γ (t.underway ++ toScan) toRemove) :
    ∀ q ∈ t.session.selectedDrives, q ∈ t.scanned ++ t.underway ∨ q ∈ toScan := by
  intro q hq
  rcases h.scanned q hq with hs | hs
  · exact .inl (List.mem_append_left _ hs)
  · exact (List.mem_append.1 hs).imp_left (List.mem_append_right _)

/-- An entry may be added under a selected path, and under one whose entries are still to be removed. -/
theorem TrackedSession.Settled.covered_applyAdd {toScan toRemove : List WString} {e : FileEntry}
    (h : t.Settled Γ toScan toRemove) (hs : t.session.watching.store.pool.Sound)
    (hfit : t.session.watching.store.pool.Fits e.path)
    (he : UnderSome Γ (t.session.selectedDrives ++ toRemove) e.path) :
    ∀ r ∈ (t.session.watching.store.applyAdd Γ e).pool.live, UnderSome Γ t.everSelected r.path →
      UnderSome Γ (t.session.selectedDrives ++ toRemove) r.path := by
  intro r hr hever
  rw [IndexStore.live_applyAdd e hs, hfit.stored_eq] at hr
  rcases List.mem_append.1 hr with hr | hr
  · exact h.covered r hr hever
  · rw [List.mem_singleton.1 hr]
    exact he

/-- The entries under a path are removed. -/
theorem TrackedSession.Settled.covered_removeEntriesUnderPath {toScan toRemove : List WString} {root : WString}
    (h : t.Settled Γ toScan (root :: toRemove)) (hs : t.session.watching.store.pool.Sound) :
    ∀ r ∈ (t.session.watching.store.removeEntriesUnderPath Γ root).pool.live, UnderSome Γ t.everSelected r.path →
      UnderSome Γ (t.session.selectedDrives ++ toRemove) r.path := by
  intro r hr hever
  obtain ⟨hold, hnot⟩ := (mem_live_removeEntriesUnderPath hs).1 hr
  obtain ⟨q, hq, hunder⟩ := h.covered r hold hever
  have hne : q ≠ root := fun heq => hnot (heq ▸ hunder)
  exact ⟨q, by simpa [hne] using hq, hunder⟩

/-- A worker that has finished does nothing. -/
theorem TrackedSession.step_worker_finished {fs : FileSystem} {excludedPaths : List WString}
    (hw : t.session.worker = .finished) : t.step Γ fixedDrives (.worker fs excludedPaths) = t := by
  simp only [step, Session.step, Session.workerStep, hw]

/-- The worker leaves the selection, its history and the user interface alone. -/
theorem TrackedSession.step_worker_frame (t : TrackedSession) (fixedDrives : List WString) (fs : FileSystem)
    (excludedPaths : List WString) :
    (t.step Γ fixedDrives (.worker fs excludedPaths)).session = t.session.workerStep Γ fixedDrives fs excludedPaths ∧
      (t.step Γ fixedDrives (.worker fs excludedPaths)).unread = t.unread := by
  unfold step
  cases t.session.worker with
  | indexing _ todo => cases todo <;> exact ⟨rfl, rfl⟩
  | adding _ _ entries => cases entries <;> exact ⟨rfl, rfl⟩
  | _ => exact ⟨rfl, rfl⟩

theorem sound_workerStep {s : Session} {fs : FileSystem} {excludedPaths : List WString}
    (hs : s.watching.store.pool.Sound) (hfit : s.worker.Fits fs s.watching.store.pool) :
    (s.workerStep Γ fixedDrives fs excludedPaths).watching.store.pool.Sound := by
  unfold Session.workerStep
  cases hw : s.worker with
  | publishing entries =>
    rw [hw] at hfit
    have hsound := (IndexPool.live_ofEntries (Γ := Γ) hfit).2
    rwa [← pool_publish s.watching.store] at hsound
  | adding paths todo entries =>
    rw [hw] at hfit
    cases entries with
    | nil => exact hs
    | cons e entries => exact hs.addEntry hfit.2 Γ e
  | removing paths todo =>
    cases todo with
    | nil => exact hs
    | cons root todo => exact IndexStore.sound_removeEntriesUnderPath root hs
  | stopping paths =>
    simp only
    split
    · split <;> exact hs
    · exact hs
  | scanning todo _ | indexing _ todo | watching todo => cases todo <;> exact hs
  | _ => exact hs

/-- The worker goes on, and what it has still to do is what its next phase says, whatever the handler is about to ask for. -/
theorem phaseOk_worker {fs : FileSystem} {excludedPaths added removed : List WString}
    (hs : t.session.watching.store.pool.Sound) (hc : t.session.cancel = false)
    (hfit : t.session.worker.Fits fs t.session.watching.store.pool)
    (hread : t.session.worker.beforeReading = true → t.session.selectedDrives ≠ []) (h : t.PhaseOk Γ added removed) :
    (t.step Γ fixedDrives (.worker fs excludedPaths)).PhaseOk Γ added removed := by
  simp only [Worker.Fits] at hfit
  simp only [TrackedSession.PhaseOk] at h
  simp only [TrackedSession.step, Session.step, Session.workerStep]
  cases hw : t.session.worker with
  | finished =>
    simp only [TrackedSession.PhaseOk, hw]
    rwa [hw] at h
  | rebuilding =>
    rw [hw] at hread
    have heff : effectiveRoots fixedDrives t.session.selectedDrives = t.session.selectedDrives := if_neg (hread rfl)
    rw [heff]
    exact ⟨fun q hq => .inl hq, fun q hq => List.mem_append_left _ hq, by simp⟩
  | scanning todo entries =>
    rw [hw] at h hfit
    obtain ⟨hunderway, htodo, hentries⟩ := h
    cases todo with
    | nil =>
      simp only [hc, Bool.false_eq_true, if_false]
      exact ⟨hunderway, hentries⟩
    | cons root todo =>
      refine ⟨hunderway, fun q hq => htodo q (by simp [hq]), ?_⟩
      intro e he
      rcases List.mem_append.1 he with he | he
      · exact hentries e he
      · exact underSome_of_mem_scan (htodo root (by simp)) hfit e he
  | publishing entries =>
    rw [hw] at h hfit
    exact ⟨h.1, fun r hr _ => underSome_of_mem_publish t.session.watching.store hfit h.2 r hr⟩
  | indexing paths todo =>
    rw [hw] at h hfit
    obtain ⟨hsettled, htodo⟩ := h
    cases todo with
    | nil =>
      simp only [hc, Bool.false_eq_true, if_false]
      exact hsettled.congr rfl rfl rfl rfl
    | cons root todo =>
      simp only [hc, Bool.false_eq_true, if_false]
      exact ⟨hsettled.congr rfl rfl rfl rfl, fun q hq => htodo q (by simp [hq]),
        underSome_of_mem_scan (htodo root (by simp)) hfit⟩
  | adding paths todo entries =>
    rw [hw] at h hfit
    obtain ⟨hsettled, htodo, hentries⟩ := h
    cases entries with
    | nil =>
      exact ⟨⟨hsettled.scanned_underway, hsettled.covered⟩, htodo⟩
    | cons e entries =>
      exact ⟨⟨hsettled.scanned, hsettled.covered_applyAdd hs hfit.1 (hentries e (by simp))⟩, htodo,
        fun x hx => hentries x (by simp [hx])⟩
  | removing paths todo =>
    rw [hw] at h
    cases todo with
    | nil => exact h.congr rfl rfl rfl rfl
    | cons root todo =>
      have h : t.Settled Γ added (root :: (todo ++ removed)) := h
      exact ⟨h.scanned, h.covered_removeEntriesUnderPath hs⟩
  | stopping paths =>
    rw [hw] at h
    simp only
    split
    · split
      · exact h.congr rfl rfl rfl rfl
      · simp only [TrackedSession.PhaseOk]
        rw [hw]
        exact h.congr rfl rfl rfl rfl
    · exact h.congr rfl rfl rfl rfl
  | watching todo =>
    rw [hw] at h
    cases todo with
    | nil => exact h.congr rfl rfl rfl rfl
    | cons root todo =>
      simp only [hc, Bool.false_eq_true, if_false]
      exact h.congr rfl rfl rfl rfl
  | _ =>
    rw [hw] at h
    exact h.congr rfl rfl rfl rfl

/-- The worker goes on. -/
theorem consistent_worker {fs : FileSystem} {excludedPaths : List WString} (h : t.Consistent Γ)
    (hfit : (SessionStep.worker fs excludedPaths).Fits t.session)
    (hok : (SessionStep.worker fs excludedPaths).TakesEffect t) :
    (t.step Γ fixedDrives (.worker fs excludedPaths)).Consistent Γ := by
  cases hidle : t.session.isIndexing with
  | false =>
    rw [TrackedSession.step_worker_finished (Session.isIndexing_eq_false.1 hidle)]
    exact h
  | true =>
    have hc := h.running hidle
    obtain ⟨hsession, hunread⟩ := t.step_worker_frame (Γ := Γ) fixedDrives fs excludedPaths
    obtain ⟨hselected, hcancel, hui⟩ := workerStep_frame (Γ := Γ) (s := t.session) fixedDrives fs excludedPaths
    refine ⟨?_, ?_, ?_, ?_⟩
    · rw [hsession]
      exact sound_workerStep h.sound hfit
    · rw [hsession, hcancel]
      exact fun _ => hc
    · rw [hsession, hselected, hui]
      exact h.serves
    · intro added removed hout
      rw [TrackedSession.Outstanding, hunread, hsession, hui] at hout
      exact phaseOk_worker h.sound hc hfit hok (h.phase added removed hout)

/-! ## The dialog and its handler -/

/-- The handler is about to have selected paths scanned. -/
theorem serves_onIndexSettings (oldPaths newPaths : List WString) :
    (UiTask.call (onIndexSettings oldPaths newPaths)).Serves newPaths := by
  rw [onIndexSettings_eq]
  split
  · trivial
  · split
    · exact fun q hq => (mem_pathsNotIn.1 hq).1
    · split <;> trivial

/-- The call makes up for just what the dialog has changed, unless it rebuilds. -/
theorem outstanding_accept {newPaths added removed : List WString} (hread : t.session.worker.beforeReading = false)
    (h : (t.accept newPaths).Outstanding added removed) :
    added = pathsNotIn newPaths t.session.selectedDrives ∧ removed = pathsNotIn t.session.selectedDrives newPaths := by
  simp only [TrackedSession.Outstanding, TrackedSession.accept, hread, onIndexSettings_eq] at h
  by_cases ha : pathsNotIn newPaths t.session.selectedDrives = []
  · by_cases hr : pathsNotIn t.session.selectedDrives newPaths = []
    · simpa [ha, hr] using h
    · simpa [ha, hr] using h
  · by_cases hr : pathsNotIn t.session.selectedDrives newPaths = []
    · simpa [ha, hr] using h
    · simp [ha, hr] at h

/-- After a dialog the paths it adds and those it removes are outstanding besides. -/
theorem TrackedSession.Settled.accept {toScan toRemove : List WString} (h : t.Settled Γ toScan toRemove)
    (newPaths : List WString) :
    (t.accept newPaths).Settled Γ (toScan ++ pathsNotIn newPaths t.session.selectedDrives)
      (toRemove ++ pathsNotIn t.session.selectedDrives newPaths) := by
  refine ⟨?_, ?_⟩
  · intro q hq
    by_cases hscan : q ∈ toScan
    · exact .inr (List.mem_append_left _ hscan)
    · exact (mem_pathsNotIn_or_added hq (fun hold => (h.scanned q hold).resolve_right hscan)).imp_right
        (List.mem_append_right _)
  · rintro r hr ⟨q, hq, hunder⟩
    rcases List.mem_append.1 hq with hq | hq
    · obtain ⟨p, hp, hp'⟩ := h.covered r hr ⟨q, hq, hunder⟩
      refine ⟨p, ?_, hp'⟩
      rcases List.mem_append.1 hp with hp | hp
      · have hp := mem_selected_or_removed newPaths hp
        exact List.mem_append.2 ((List.mem_append.1 hp).imp_right (List.mem_append_right _))
      · exact List.mem_append_right _ (List.mem_append_left _ hp)
    · exact ⟨q, List.mem_append_left _ hq, hunder⟩

/-- What a phase says of the selection before the dialog, it says of the new one with what the dialog has changed. -/
theorem phaseOk_accept {newPaths : List WString} (h : t.PhaseOk Γ [] []) :
    (t.accept newPaths).PhaseOk Γ (pathsNotIn newPaths t.session.selectedDrives)
      (pathsNotIn t.session.selectedDrives newPaths) := by
  have hworker : (t.accept newPaths).session.worker = t.session.worker := rfl
  have hunderway : (∀ q ∈ t.session.selectedDrives, q ∈ t.underway ∨ q ∈ ([] : List WString)) → ∀ q ∈ newPaths,
      q ∈ (t.accept newPaths).underway ∨ q ∈ pathsNotIn newPaths t.session.selectedDrives :=
    fun h q hq => mem_pathsNotIn_or_added hq (fun hold => (h q hold).resolve_right (by simp))
  have hselected : ∀ q ∈ t.session.selectedDrives ++ [], q ∈ newPaths ++ pathsNotIn t.session.selectedDrives newPaths := by
    rw [List.append_nil]
    exact fun q hq => mem_selected_or_removed newPaths hq
  simp only [TrackedSession.PhaseOk] at h ⊢
  rw [hworker]
  cases hw : t.session.worker with
  | rebuilding => trivial
  | scanning todo entries =>
    rw [hw] at h
    exact ⟨hunderway h.1, fun q hq => hselected q (h.2.1 q hq), fun e he => (h.2.2 e he).mono hselected⟩
  | publishing entries =>
    rw [hw] at h
    exact ⟨hunderway h.1, fun e he => (h.2 e he).mono hselected⟩
  | indexing paths todo =>
    rw [hw] at h
    refine ⟨?_, fun q hq => hselected q (h.2 q hq)⟩
    simpa using h.1.accept newPaths
  | adding paths todo entries =>
    rw [hw] at h
    refine ⟨(h.1.accept newPaths).mono ?_ (fun q hq => hq), fun q hq => hselected q (h.2.1 q hq),
      fun e he => (h.2.2 e he).mono hselected⟩
    intro q hq
    by_cases hadded : q ∈ pathsNotIn newPaths t.session.selectedDrives
    · simp [hadded]
    · have hkept : q ∈ t.underway → q ∈ (t.accept newPaths).underway := fun hq => mem_pathsNotIn.2 ⟨hq, hadded⟩
      have hq : q ∈ t.underway ∨ q ∈ todo := by simpa [hadded] using hq
      rcases hq with hq | hq
      · exact List.mem_append_left _ (hkept hq)
      · simp [hq]
  | removing paths todo =>
    rw [hw] at h
    simpa using h.accept newPaths
  | _ =>
    rw [hw] at h
    exact h.accept newPaths

/-- A dialog is accepted. -/
theorem consistent_settings {newPaths : List WString} (h : t.Consistent Γ) :
    (t.step Γ fixedDrives (.settings newPaths)).Consistent Γ := by
  by_cases hui : t.session.ui = .idle
  · rw [TrackedSession.step_settings hui]
    refine ⟨h.sound, h.running, serves_onIndexSettings _ _, ?_⟩
    intro added removed hout
    cases hread : t.session.worker.beforeReading with
    | true =>
      -- the rebuild will read the selection that was stored just now
      have hw : (t.accept newPaths).session.worker = .rebuilding := by
        change t.session.worker = .rebuilding
        revert hread
        cases t.session.worker <;> simp [Worker.beforeReading]
      simp only [TrackedSession.PhaseOk, hw]
    | false =>
      obtain ⟨rfl, rfl⟩ := outstanding_accept hread hout
      exact phaseOk_accept (h.phase [] [] (by simp [TrackedSession.Outstanding, hui]))
  · have hsame : t.step Γ fixedDrives (.settings newPaths) = t := by simp only [TrackedSession.step, Session.step, hui, if_false]
    rwa [hsame]

/-- The handler is done: nothing is outstanding but what the worker is at. -/
theorem TrackedSession.Consistent.handled {s : Session} (hs : s.watching.store.pool.Sound)
    (hrun : s.isIndexing = true → s.cancel = false) (hui : s.ui = .idle)
    (hphase : TrackedSession.PhaseOk Γ { t with session := s, unread := false } [] []) :
    TrackedSession.Consistent Γ { t with session := s, unread := false } := by
  refine ⟨hs, hrun, ?_, ?_⟩
  · simp only [hui]
    trivial
  · intro added removed hout
    simp only [TrackedSession.Outstanding, hui] at hout
    obtain ⟨rfl, rfl⟩ : added = [] ∧ removed = [] := by simpa using hout
    exact hphase

/-- A phase says the same of a session that differs in the handler and what is reported. -/
theorem TrackedSession.PhaseOk.congr {s : Session} {added removed : List WString} {unread : Bool}
    (h : t.PhaseOk Γ added removed) (hselected : s.selectedDrives = t.session.selectedDrives)
    (hworker : s.worker = t.session.worker) (hwatching : s.watching = t.session.watching) :
    TrackedSession.PhaseOk Γ { t with session := s, unread := unread } added removed := by
  have hsettled : ∀ toScan toRemove, t.Settled Γ toScan toRemove →
      TrackedSession.Settled Γ { t with session := s, unread := unread } toScan toRemove :=
    fun toScan toRemove h => h.congr hselected rfl rfl (congrArg Watching.store hwatching)
  simp only [TrackedSession.PhaseOk] at h ⊢
  rw [hworker, hselected]
  cases hw : t.session.worker with
  | scanning todo entries | publishing entries | rebuilding =>
    rw [hw] at h
    exact h
  | indexing paths todo | adding paths todo entries =>
    rw [hw] at h
    exact ⟨hsettled _ _ h.1, h.2⟩
  | _ =>
    rw [hw] at h
    exact hsettled _ _ h

/-- A worker that the handler starts has to do what is outstanding. -/
theorem phaseOk_begin {c : IndexerCall} (h : t.Consistent Γ) (hui : t.session.ui = .call c)
    (hidle : t.session.isIndexing = false) (hc : c ≠ .none) {s : Session}
    (hselected : s.selectedDrives = t.session.selectedDrives) (hworker : s.worker = c.worker)
    (hwatching : s.watching = t.session.watching) :
    TrackedSession.PhaseOk Γ { t with session := s, unread := false } [] [] := by
  have hserves := h.serves
  rw [hui] at hserves
  have hfin : ∀ added removed, t.Outstanding added removed → t.Settled Γ added removed := by
    intro added removed hout
    have hphase := h.phase added removed hout
    rwa [TrackedSession.PhaseOk, Session.isIndexing_eq_false.1 hidle] at hphase
  simp only [TrackedSession.Outstanding, hui] at hfin
  simp only [TrackedSession.PhaseOk]
  rw [hworker, hselected]
  cases c with
  | none => exact absurd rfl hc
  | startIndexing => trivial
  | indexPaths paths =>
    have hsettled : t.Settled Γ paths [] := by
      cases hunread : t.unread with
      | true => exact (hfin [] [] (by simp [hunread])).mono (by simp) (fun q hq => hq)
      | false => exact hfin paths [] (by simp [hunread])
    refine ⟨?_, fun q hq => List.mem_append_left _ (hserves q hq)⟩
    rw [List.append_nil]
    exact hsettled.congr hselected rfl rfl (congrArg Watching.store hwatching)
  | removePaths paths =>
    have hsettled : t.Settled Γ [] paths := by
      cases hunread : t.unread with
      | true => exact (hfin [] [] (by simp [hunread])).mono (fun q hq => hq) (by simp)
      | false => exact hfin [] paths (by simp [hunread])
    simp only [IndexerCall.worker, List.append_nil]
    exact hsettled.congr hselected rfl rfl (congrArg Watching.store hwatching)

/-- The handler makes its call: it begins an operation for what is outstanding, or there is nothing outstanding but what the
worker is at. -/
theorem consistent_ui (h : t.Consistent Γ) (hok : SessionStep.ui.TakesEffect t) :
    (t.step Γ fixedDrives .ui).Consistent Γ := by
  have hserves := h.serves
  simp only [SessionStep.TakesEffect] at hok
  simp only [TrackedSession.step, Session.step]
  cases hui : t.session.ui with
  | idle => exact .handled h.sound h.running hui ((h.phase [] [] (by simp [TrackedSession.Outstanding, hui])).congr rfl rfl rfl)
  | stopWatchers =>
    rw [hui] at hserves
    exact hserves.elim
  | call c =>
    rw [hui] at hok
    rcases t.session.call_cases c with ⟨hdrop, hcall⟩ | ⟨hidle, hc, hcall⟩
    · have hout : t.Outstanding [] [] := by
        rcases hdrop with hrun | rfl
        · by_cases hc : c = .none
          · simp [TrackedSession.Outstanding, hui, hc]
          · simp [TrackedSession.Outstanding, hok hrun hc]
        · simp [TrackedSession.Outstanding, hui]
      simp only [hcall]
      exact .handled h.sound h.running rfl ((h.phase [] [] hout).congr rfl rfl rfl)
    · simp only [hcall]
      exact .handled h.sound (fun _ => rfl) rfl (phaseOk_begin h hui hidle hc rfl rfl rfl)

/-- In every run of settings dialogs and the worker from a state in which nothing has been dropped, in which every step is one
by which the changes take effect, nothing is dropped: whenever no worker is running, every selected path has been scanned since
it was last added, and no live entry lies only under paths no longer selected. -/
theorem settings_not_dropped (Γ : Locale) (fixedDrives : List WString) (t : TrackedSession) (steps : List SessionStep)
    (hs : t.session.watching.store.pool.Sound) (hidle : t.session.isIndexing = false) (hui : t.session.ui = .idle)
    (hstart : t.NothingDropped Γ) (hsteps : ∀ l ∈ steps, l.OfDialogs)
    (hfit : Meets (fun t l => l.Fits t.session) (TrackedSession.step Γ fixedDrives) t steps)
    (hok : Meets (fun t l => l.TakesEffect t) (TrackedSession.step Γ fixedDrives) t steps) :
    Along (TrackedSession.NothingDropped Γ) (TrackedSession.step Γ fixedDrives) t steps := by
  have hconsistent : t.Consistent Γ := by
    obtain ⟨hscanned, hcovered⟩ := hstart hidle hui
    refine ⟨hs, fun hrun => ?_, by rw [hui]; trivial, ?_⟩
    · exact absurd (hidle.symm.trans hrun) (by decide)
    · intro added removed hout
      simp only [TrackedSession.Outstanding, hui] at hout
      obtain ⟨rfl, rfl⟩ : added = [] ∧ removed = [] := by simpa using hout
      rw [TrackedSession.PhaseOk, Session.isIndexing_eq_false.1 hidle]
      exact ⟨fun q hq => .inl (hscanned q hq), by simpa using hcovered⟩
  have hdialogs := (meets_of_forall_mem hsteps).and (hfit.and hok)
  refine (along_of_step (P := TrackedSession.Consistent Γ) ?_ hconsistent hdialogs).imp (fun _ h => h.nothingDropped)
  rintro t l h ⟨hl, hfit, hok⟩
  cases l with
  | settings newPaths => exact consistent_settings h
  | ui => exact consistent_ui h hok
  | worker fs excludedPaths => exact consistent_worker h hfit hok
  | _ => cases hl

namespace SettingsWitness

/-- `C:\`. -/
def driveC : WString := wide ['C', ':', '\\']

/-- `D:\`. -/
def driveD : WString := wide ['D', ':', '\\']

/-- `E:\`. -/
def driveE : WString := wide ['E', ':', '\\']

/-- One drive is selected, and it has been scanned. -/
def settled : TrackedSession := ⟨.launch [driveC] .empty, [driveC], [], [driveC], false⟩

theorem noTable (volume : WString) (m : MftVolume) (h : (fun _ : WString => none) volume = some m) :
    ∀ e ∈ m.entries, backslash ∉ e.2.name := by
  cases h

/-- One file, `a`, in the root of every drive. -/
def oneFileEach : FileSystem where
  findFiles pattern := if pattern.drop 1 = wide [':', '\\', '*'] then some [⟨wide ['a'], 0x20, 0, 3, 0, 5⟩] else none
  below _ := 0
  mft _ := none
  fsName _ := none
  logicalDrives := 0x1C
  isFixed _ := true
  name_findFiles pattern fds h fd hfd := by
    split at h
    · cases h
      rw [List.mem_singleton.1 hfd]
      decide
    · cases h
  name_mft := noTable
  below_subdirs dir fds h := by
    split at h
    · cases h
      exact Nat.le_refl _
    · cases h

/-- The worker goes on until it is done. -/
def worker : List SessionStep := List.replicate 12 (.worker oneFileEach [])

/-- A drive is added. While it is being scanned the first one is removed, and the handler makes its call when the worker is
done. Then the drive is exchanged for another, and the first one is added again before the rebuild has read the selection. -/
def patient : List SessionStep :=
  .settings [driveC, driveD] :: .ui :: .worker oneFileEach [] :: .settings [driveD] :: worker ++ .ui :: worker ++
    .settings [driveE] :: .ui :: .settings [driveE, driveC] :: .worker oneFileEach [] :: .ui :: worker

/-- A second drive is added while the first is still being scanned. -/
def hasty : List SessionStep :=
  .settings [driveC, driveD] :: .ui :: .worker oneFileEach [] :: .settings [driveC, driveD, driveE] :: .ui :: worker

theorem settings_not_dropped_patient :
    Along (TrackedSession.NothingDropped .c) (TrackedSession.step .c []) settled patient := by
  refine settings_not_dropped .c [] settled patient IndexPool.sound_empty rfl rfl (by decide) ?_ (by decide +kernel)
    (by decide +kernel)
  simp [patient, worker, SessionStep.OfDialogs]

end SettingsWitness

open SettingsWitness in
/-- A drive that is added while a worker is running is not scanned. -/
theorem hasty_change_is_dropped :
    (final (TrackedSession.step .c []) settled hasty).session.isIndexing = false ∧
      driveE ∈ (final (TrackedSession.step .c []) settled hasty).session.selectedDrives ∧
      driveE ∉ (final (TrackedSession.step .c []) settled hasty).scanned ∧
      ¬TrackedSession.NothingDropped .c (final (TrackedSession.step .c []) settled hasty) := by
  decide +kernel

end WinIndex
