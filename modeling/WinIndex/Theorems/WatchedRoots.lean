import WinIndex.Lemmas.Worker

/-!
# The watched roots

Each operation changes the watchers by a rule of its own: a rebuild only adds the selected roots, `IndexPaths` adds its paths,
`RemovePaths` drops its paths, and `Cancel` drops all and leaves `m_cancel` set. So the roots that will be watched when the
running worker is done can be told at any time, and the worker and the watchers do not change them. They are the selected ones
as long as every operation is begun, and every selection is stored, where its rule leads there.
-/

namespace WinIndex

open Trace

/-- When an operation has reported and completed, the watched roots are the selected ones, each watched once. -/
def Session.Follows (fixedDrives : List WString) (s : Session) : Prop :=
  s.isIndexing = false → s.reported = true →
    s.roots.Nodup ∧ SameRoots s.roots (effectiveRoots fixedDrives s.selectedDrives)

instance Session.decidableFollows (fixedDrives : List WString) : DecidablePred (Session.Follows fixedDrives) :=
  fun s => inferInstanceAs (Decidable (s.isIndexing = false → _ → _))

/-- The roots that will be watched when the worker is done, if it is not cancelled and the selection stays as it is. -/
def Worker.leaves (effective roots : List WString) : Worker → List WString
  | .finished | .savingRemoved => roots
  | .rebuilding | .scanning _ _ | .publishing _ | .savingRebuilt | .monitoring => roots ++ effective
  | .indexing paths _ | .adding paths _ _ | .savingIndexed paths => roots ++ paths
  | .removing paths _ | .stopping paths => roots.filter (fun r => !paths.contains r)
  | .watching todo => roots ++ todo
  | .starting root todo => roots ++ root :: todo

/-- The worker, if there is one, will look at `m_cancel` before it reports. -/
def Worker.BeforeReport : Worker → Prop
  | .finished | .rebuilding | .scanning _ _ | .indexing _ _ | .adding _ _ _ => True
  | .publishing _ | .savingRebuilt | .monitoring | .savingIndexed _ | .removing _ _ | .stopping _ | .savingRemoved
  | .watching _ | .starting _ _ => False

instance Worker.decidableBeforeReport : DecidablePred Worker.BeforeReport
  | .finished | .rebuilding | .scanning _ _ | .indexing _ _ | .adding _ _ _ => .isTrue trivial
  | .publishing _ | .savingRebuilt | .monitoring | .savingIndexed _ | .removing _ _ | .stopping _ | .savingRemoved
  | .watching _ | .starting _ _ => .isFalse id

/-- The worker leaves just the roots that are selected. -/
def Worker.Leads (fixedDrives selectedDrives roots : List WString) (w : Worker) : Prop :=
  SameRoots (w.leaves (effectiveRoots fixedDrives selectedDrives) roots) (effectiveRoots fixedDrives selectedDrives)

instance Worker.decidableLeads (fixedDrives selectedDrives roots : List WString) (w : Worker) :
    Decidable (w.Leads fixedDrives selectedDrives roots) := inferInstanceAs (Decidable (SameRoots _ _))

/-- A step after which the watched roots will be the selected ones: a selection stored under a worker that will report is the
one to which it leads, an operation is begun where it leads to the selection, an index is loaded only while `m_cancel` is not
set, and no operation is cancelled that reports in spite of it. -/
def SessionStep.Leads (fixedDrives : List WString) (s : Session) : SessionStep → Prop
  | .settings newPaths => s.ui = .idle → s.isIndexing = true → s.cancel = false →
      s.worker.Leads fixedDrives newPaths s.roots
  | .rebuild => s.ui = .idle → s.isIndexing = false → Worker.rebuilding.Leads fixedDrives s.selectedDrives s.roots
  | .start loaded => s.ui = .idle → s.isIndexing = false →
      Worker.rebuilding.Leads fixedDrives s.selectedDrives s.roots ∧
        ∀ store ∈ loaded, 0 < store.getEntryCount → s.cancel = false
  | .cancel => s.ui = .idle → s.worker.BeforeReport
  | .ui =>
    match s.ui with
    | .call c => s.isIndexing = false → c ≠ .none → c.worker.Leads fixedDrives s.selectedDrives s.roots
    | .idle | .stopWatchers => True
  | .worker _ _ | .watch _ => True

instance SessionStep.decidableLeads (fixedDrives : List WString) (s : Session) :
    (l : SessionStep) → Decidable (l.Leads fixedDrives s)
  | .settings _ => inferInstanceAs (Decidable (s.ui = .idle → _ → _ → _))
  | .rebuild => inferInstanceAs (Decidable (s.ui = .idle → _ → _))
  | .start _ => inferInstanceAs (Decidable (s.ui = .idle → _ → _ ∧ _))
  | .cancel => inferInstanceAs (Decidable (s.ui = .idle → _))
  | .ui =>
    match hui : s.ui with
    | .call c =>
      decidable_of_iff (s.isIndexing = false → c ≠ .none → c.worker.Leads fixedDrives s.selectedDrives s.roots)
        (by rw [Leads, hui])
    | .idle | .stopWatchers => .isTrue (by rw [Leads, hui]; trivial)
  | .worker _ _ | .watch _ => .isTrue trivial

variable {Γ : Locale} {fixedDrives : List WString} {s : Session}

/-! ## On course -/

/-- What holds all the time. -/
structure Session.OnCourse (fixedDrives : List WString) (s : Session) : Prop where
  nodup : s.roots.Nodup
  cancelled : s.cancel = true → s.reported = false ∧ s.worker.BeforeReport
  clearing : s.ui = .stopWatchers → s.cancel = true
  leads : s.isIndexing = true → s.cancel = false → s.worker.Leads fixedDrives s.selectedDrives s.roots
  follows : s.Follows fixedDrives

theorem onCourse_launch (selectedDrives : List WString) (store : IndexStore) :
    (Session.launch selectedDrives store).OnCourse fixedDrives :=
  ⟨List.nodup_nil, nofun, nofun, nofun, nofun⟩

/-- The worker moves on, and still leads where it led. -/
theorem Session.OnCourse.moves {s' : Session} (h : s.OnCourse fixedDrives) (hs : s.isIndexing = true)
    (hselected : s'.selectedDrives = s.selectedDrives) (hcancel : s'.cancel = s.cancel) (hui : s'.ui = s.ui)
    (hnodup : s'.roots.Nodup) (hbefore : s.cancel = true → s'.reported = s.reported ∧ s'.worker.BeforeReport)
    (hleaves : s.cancel = false → ∀ r, r ∈ s'.worker.leaves (effectiveRoots fixedDrives s.selectedDrives) s'.roots ↔
      r ∈ s.worker.leaves (effectiveRoots fixedDrives s.selectedDrives) s.roots) :
    s'.OnCourse fixedDrives := by
  have hleads : s.cancel = false → s'.worker.Leads fixedDrives s'.selectedDrives s'.roots := by
    intro hc
    obtain ⟨hsub, hsup⟩ := h.leads hs hc
    rw [hselected]
    exact ⟨fun r hr => hsub r ((hleaves hc r).1 hr), fun r hr => (hleaves hc r).2 (hsup r hr)⟩
  refine ⟨hnodup, ?_, ?_, fun _ hc => hleads (hcancel ▸ hc), ?_⟩
  · intro hc
    rw [hcancel] at hc
    obtain ⟨hrep, hb⟩ := hbefore hc
    exact ⟨hrep.trans (h.cancelled hc).1, hb⟩
  · intro hclear
    rw [hcancel]
    exact h.clearing (hui ▸ hclear)
  · intro hdone hrep
    have hfin := Session.isIndexing_eq_false.1 hdone
    have hc : s.cancel = false := by
      by_contra hc
      have hc : s.cancel = true := by simpa using hc
      rw [(hbefore hc).1, (h.cancelled hc).1] at hrep
      cases hrep
    have hl := hleads hc
    rw [Worker.Leads, hfin] at hl
    exact ⟨hnodup, hl⟩

/-! ## The worker -/

/-- Starting the watcher of a root watches the root besides those watched already. -/
theorem mem_startWatcher {ws : List Watcher} {root r : WString} :
    r ∈ (startWatcher ws root).map Watcher.root ↔ r ∈ ws.map Watcher.root ∨ r = root := by
  unfold startWatcher
  split
  · rename_i hroot
    exact ⟨.inl, fun h => h.elim id (fun h => h ▸ hroot)⟩
  · simp

theorem nodup_startWatcher {ws : List Watcher} (h : (ws.map Watcher.root).Nodup) (root : WString) :
    ((startWatcher ws root).map Watcher.root).Nodup := by
  unfold startWatcher
  split
  · exact h
  · rename_i hroot
    rw [List.map_append, List.map_singleton, List.nodup_append]
    refine ⟨h, List.nodup_singleton _, fun a ha b hb hab => ?_⟩
    rw [hab, List.mem_singleton.1 hb] at ha
    exact hroot ha

/-- Dropping a root that is filtered out anyway leaves what is filtered. -/
theorem filter_map_eraseP (ws : List Watcher) (paths : List WString) :
    ((ws.eraseP (fun w => paths.contains w.root)).map Watcher.root).filter (fun r => !paths.contains r) =
      (ws.map Watcher.root).filter (fun r => !paths.contains r) := by
  induction ws with
  | nil => rfl
  | cons w ws ih =>
    rw [List.eraseP_cons]
    cases hw : paths.contains w.root with
    | true => rw [List.map_cons, List.filter_cons, hw]; rfl
    | false => rw [cond_false, List.map_cons, List.map_cons, List.filter_cons, List.filter_cons, hw, ih]

theorem nodup_workerStep (fs : FileSystem) (excludedPaths : List WString) (h : s.roots.Nodup) :
    (s.workerStep Γ fixedDrives fs excludedPaths).roots.Nodup := by
  unfold Session.workerStep
  cases s.worker with
  | stopping paths =>
    simp only
    split
    · split
      · exact h.sublist (List.eraseP_sublist.map _)
      · exact h
    · exact h
  | starting root todo => exact nodup_startWatcher h root
  | scanning todo _ | indexing _ todo | removing _ todo | watching todo => cases todo <;> exact h
  | adding _ _ entries => cases entries <;> exact h
  | _ => exact h

/-- A worker that is cancelled before it reports never reports. -/
theorem beforeReport_workerStep (fs : FileSystem) (excludedPaths : List WString) (hc : s.cancel = true)
    (hb : s.worker.BeforeReport) :
    (s.workerStep Γ fixedDrives fs excludedPaths).reported = s.reported ∧
      (s.workerStep Γ fixedDrives fs excludedPaths).worker.BeforeReport := by
  unfold Session.workerStep
  cases hw : s.worker with
  | finished => exact ⟨rfl, by rw [hw]; trivial⟩
  | rebuilding => exact ⟨rfl, trivial⟩
  | scanning todo entries => cases todo <;> simp [hc, Worker.BeforeReport]
  | indexing paths todo => cases todo <;> simp [hc, Worker.BeforeReport]
  | adding paths todo entries => cases entries <;> exact ⟨rfl, trivial⟩
  | _ => rw [hw] at hb; exact hb.elim

/-- The roots to which a worker leads stay the same while it goes on. -/
theorem mem_leaves_workerStep (fs : FileSystem) (excludedPaths : List WString) (hc : s.cancel = false) (r : WString) :
    r ∈ (s.workerStep Γ fixedDrives fs excludedPaths).worker.leaves (effectiveRoots fixedDrives s.selectedDrives)
        (s.workerStep Γ fixedDrives fs excludedPaths).roots ↔
      r ∈ s.worker.leaves (effectiveRoots fixedDrives s.selectedDrives) s.roots := by
  unfold Session.workerStep
  cases hw : s.worker with
  | finished => rw [hw]
  | scanning todo entries => cases todo <;> simp [hc] <;> rfl
  | indexing paths todo => cases todo <;> simp [hc] <;> rfl
  | adding paths todo entries => cases entries <;> rfl
  | removing paths todo => cases todo <;> rfl
  | stopping paths =>
    simp only
    split
    · split
      · simp only [Worker.leaves, Session.roots, filter_map_eraseP]
      · rw [hw]
    · rename_i hnone
      have hall : s.roots.filter (fun r => !paths.contains r) = s.roots := by
        rw [List.filter_eq_self]
        intro root hroot
        obtain ⟨w, hw, rfl⟩ := List.mem_map.1 hroot
        simpa using List.find?_eq_none.1 hnone w hw
      simp only [Worker.leaves, hall]
      rfl
  | watching todo => cases todo <;> simp [hc, Worker.leaves, Session.roots]
  | starting root todo =>
    simp only [Worker.leaves, Session.roots, List.mem_append, mem_startWatcher, List.mem_cons]
    exact or_assoc
  | _ => rfl

/-- The worker stays on course. -/
theorem onCourse_workerStep (fs : FileSystem) (excludedPaths : List WString) (h : s.OnCourse fixedDrives) :
    (s.workerStep Γ fixedDrives fs excludedPaths).OnCourse fixedDrives := by
  cases hs : s.isIndexing with
  | false =>
    have hfin : s.workerStep Γ fixedDrives fs excludedPaths = s := by
      rw [Session.workerStep, Session.isIndexing_eq_false.1 hs]
    rwa [hfin]
  | true =>
    exact h.moves hs (workerStep_frame fixedDrives fs excludedPaths).1 (workerStep_frame fixedDrives fs excludedPaths).2.1
      (workerStep_frame fixedDrives fs excludedPaths).2.2 (nodup_workerStep fs excludedPaths h.nodup)
      (fun hc => beforeReport_workerStep fs excludedPaths hc (h.cancelled hc).2)
      (fun hc r => mem_leaves_workerStep fs excludedPaths hc r)

/-! ## The user interface and the watchers -/

/-- What the watchers do, or the worker to the store, changes nothing as long as the roots are the same. -/
theorem Session.OnCourse.watching {w : Watching} (h : s.OnCourse fixedDrives) (hroots : w.watchers.map Watcher.root = s.roots) :
    Session.OnCourse fixedDrives { s with watching := w } := by
  have hroots : Session.roots { s with watching := w } = s.roots := hroots
  refine ⟨hroots ▸ h.nodup, h.cancelled, h.clearing, ?_, ?_⟩
  · rw [hroots]
    exact h.leads
  · intro hidle hrep
    rw [hroots]
    exact h.follows hidle hrep

theorem Session.OnCourse.idle (h : s.OnCourse fixedDrives) : Session.OnCourse fixedDrives { s with ui := .idle } :=
  ⟨h.nodup, h.cancelled, nofun, h.leads, h.follows⟩

/-- A call is dropped, or begins an operation that leads to the selection. -/
theorem onCourse_call {c : IndexerCall} (h : s.OnCourse fixedDrives) (hui : s.ui ≠ .stopWatchers)
    (hleads : s.isIndexing = false → c ≠ .none → c.worker.Leads fixedDrives s.selectedDrives s.roots) :
    (s.call c).OnCourse fixedDrives := by
  rcases s.call_cases c with ⟨-, hcall⟩ | ⟨hidle, hc, hcall⟩
  · rwa [hcall]
  · rw [hcall]
    exact ⟨h.nodup, nofun, fun hstop => absurd hstop hui, fun _ _ => hleads hidle hc, nofun⟩

/-- Starting the watchers of several roots watches them besides those watched already. -/
theorem mem_foldl_startWatcher (roots : List WString) (ws : List Watcher) (r : WString) :
    r ∈ (roots.foldl startWatcher ws).map Watcher.root ↔ r ∈ ws.map Watcher.root ∨ r ∈ roots := by
  induction roots generalizing ws with
  | nil => simp
  | cons root roots ih => rw [List.foldl_cons, ih, mem_startWatcher, List.mem_cons, or_assoc]

theorem nodup_foldl_startWatcher (roots : List WString) {ws : List Watcher} (h : (ws.map Watcher.root).Nodup) :
    ((roots.foldl startWatcher ws).map Watcher.root).Nodup := by
  induction roots generalizing ws with
  | nil => exact h
  | cons root roots ih => exact ih (nodup_startWatcher h root)

/-- `StartIndexing(false)`: the loaded index is watched at once, or a rebuild begins. -/
theorem onCourse_startIndexing {loaded : Option IndexStore} (h : s.OnCourse fixedDrives) (hui : s.ui = .idle)
    (hok : (SessionStep.start loaded).Leads fixedDrives s) : (s.startIndexing fixedDrives loaded).OnCourse fixedDrives := by
  have hnot : s.ui ≠ .stopWatchers := by rw [hui]; nofun
  cases hs : s.isIndexing with
  | true => simpa [Session.startIndexing, hs] using h
  | false =>
    obtain ⟨hleads, hcancel⟩ := hok hui hs
    cases loaded with
    | none =>
      have hcall := onCourse_call (c := .startIndexing) h hnot (fun _ _ => hleads)
      simpa [Session.startIndexing, hs] using hcall
    | some store =>
      have hstore : (s.mutate (fun _ => store)).OnCourse fixedDrives := h.watching rfl
      by_cases hcount : 0 < store.getEntryCount
      · have hc : s.cancel = false := hcancel store rfl hcount
        have hfin := Session.isIndexing_eq_false.1 hs
        simp only [Session.startIndexing, hs, Session.mutate, hc, hcount, if_true, Bool.false_eq_true, if_false]
        refine ⟨nodup_foldl_startWatcher _ h.nodup, nofun, ?_, ?_, ?_⟩
        · intro hstop
          exact absurd hstop hnot
        · intro hrun
          exact absurd (hs.symm.trans hrun) (by decide)
        · rintro - -
          refine ⟨nodup_foldl_startWatcher _ h.nodup, ?_, ?_⟩
          · intro r hr
            exact hleads.1 r (List.mem_append.2 ((mem_foldl_startWatcher _ _ r).1 hr))
          · intro r hr
            exact (mem_foldl_startWatcher _ _ r).2 (.inr hr)
      · have hcall := onCourse_call (c := .startIndexing) hstore hnot (fun _ _ => hleads)
        simpa [Session.startIndexing, hs, hcount] using hcall

/-- A selection is stored under a worker that leads to it. -/
theorem Session.OnCourse.settings {newPaths : List WString} (h : s.OnCourse fixedDrives)
    (hleads : s.isIndexing = true → s.cancel = false → s.worker.Leads fixedDrives newPaths s.roots) :
    Session.OnCourse fixedDrives
      { s with
        selectedDrives := newPaths
        ui := .call (onIndexSettings s.selectedDrives newPaths)
        reported := s.reported && s.isIndexing } := by
  refine ⟨h.nodup, ?_, nofun, hleads, ?_⟩
  · intro hc
    obtain ⟨hrep, hb⟩ := h.cancelled hc
    exact ⟨by simp [hrep], hb⟩
  · intro hidle hrep
    have hidle : s.isIndexing = false := hidle
    simp [hidle] at hrep

/-- `Cancel` has stopped the watchers. -/
theorem Session.OnCourse.cleared (h : s.OnCourse fixedDrives) (hc : s.cancel = true) :
    Session.OnCourse fixedDrives { s with watching := { s.watching with watchers := [] }, ui := .idle } := by
  refine ⟨List.nodup_nil, h.cancelled, nofun, ?_, ?_⟩
  · intro _ hnc
    exact absurd (hc.symm.trans hnc) (by decide)
  · intro _ hrep
    exact absurd ((h.cancelled hc).1.symm.trans hrep) (by decide)

/-- Every step that leads to the selection stays on course. -/
theorem onCourse_step (l : SessionStep) (h : s.OnCourse fixedDrives) (hok : l.Leads fixedDrives s) :
    (s.step Γ fixedDrives l).OnCourse fixedDrives := by
  cases l with
  | settings newPaths =>
    simp only [Session.step]
    split
    · rename_i hui
      exact h.settings (hok hui)
    · exact h
  | rebuild =>
    simp only [Session.step]
    split
    · rename_i hui
      exact onCourse_call h (by simp [hui]) (fun hidle _ => hok hui hidle)
    · exact h
  | start loaded =>
    simp only [Session.step]
    split
    · rename_i hui
      exact onCourse_startIndexing h hui hok
    · exact h
  | cancel =>
    simp only [Session.step]
    split
    · rename_i hui
      exact ⟨h.nodup, fun _ => ⟨rfl, hok hui⟩, fun _ => rfl, by simp, fun _ hrep => (by cases hrep)⟩
    · exact h
  | ui =>
    simp only [Session.step]
    simp only [SessionStep.Leads] at hok
    cases hui : s.ui with
    | idle => exact h
    | call c =>
      rw [hui] at hok
      exact (onCourse_call h (by simp [hui]) hok).idle
    | stopWatchers =>
      simp only
      split
      · exact h
      · split
        · exact h.cleared (h.clearing hui)
        · exact h
  | worker fs excludedPaths => exact onCourse_workerStep fs excludedPaths h
  | watch l => exact h.watching (Watching.roots_step l)

/-! ## Each root is watched once -/

theorem roots_call (s : Session) (c : IndexerCall) : (s.call c).roots = s.roots := by
  unfold Session.call
  split <;> rfl

theorem nodup_startIndexing (h : s.roots.Nodup) (loaded : Option IndexStore) :
    (s.startIndexing fixedDrives loaded).roots.Nodup := by
  unfold Session.startIndexing
  split
  · exact h
  · cases loaded with
    | none => rwa [roots_call]
    | some store =>
      have hstore : (s.mutate (fun _ => store)).roots.Nodup := h
      simp only
      split
      · split
        · exact hstore
        · exact nodup_foldl_startWatcher _ hstore
      · rwa [roots_call]

/-- No step watches a root twice, whether it leads to the selection or not. -/
theorem nodup_step (l : SessionStep) (h : s.roots.Nodup) : (s.step Γ fixedDrives l).roots.Nodup := by
  cases l with
  | settings newPaths | cancel => simp only [Session.step]; split <;> exact h
  | rebuild =>
    simp only [Session.step]
    split
    · rwa [roots_call]
    · exact h
  | start loaded =>
    simp only [Session.step]
    split
    · exact nodup_startIndexing h loaded
    · exact h
  | ui =>
    simp only [Session.step]
    cases s.ui with
    | idle => exact h
    | call c => exact (roots_call s c).symm ▸ h
    | stopWatchers =>
      simp only
      split
      · exact h
      · split
        · exact List.nodup_nil
        · exact h
  | worker fs excludedPaths => exact nodup_workerStep fs excludedPaths h
  | watch l =>
    have hroots : (s.step Γ fixedDrives (.watch l)).roots = s.roots := Watching.roots_step l
    rwa [hroots]

/-! ## Runs -/

/-- In every run from the start of the program each root is watched once. -/
theorem roots_nodup (Γ : Locale) (fixedDrives selectedDrives : List WString) (store : IndexStore) (steps : List SessionStep) :
    Along (fun s => s.roots.Nodup) (Session.step Γ fixedDrives) (.launch selectedDrives store) steps :=
  along_of_step (P := fun s : Session => s.roots.Nodup) (fun _ l h _ => nodup_step l h) List.nodup_nil (meets_trivial _ _ steps)

/-- In every run from the start of the program in which every step leads to the selection, whenever an operation has reported
and completed, the watched roots are the selected ones, each watched once. -/
theorem watchers_follow_selection (Γ : Locale) (fixedDrives selectedDrives : List WString) (store : IndexStore)
    (steps : List SessionStep)
    (hok : Meets (fun s l => l.Leads fixedDrives s) (Session.step Γ fixedDrives) (.launch selectedDrives store) steps) :
    Along (Session.Follows fixedDrives) (Session.step Γ fixedDrives) (.launch selectedDrives store) steps :=
  (along_of_step (fun _ l h hok => onCourse_step l h hok) (onCourse_launch selectedDrives store) hok).imp
    (fun _ h => h.follows)

namespace WatchedRootsWitness

/-- `C:\`. -/
def driveC : WString := wide ['C', ':', '\\']

/-- `D:\`. -/
def driveD : WString := wide ['D', ':', '\\']

/-- The worker goes on until it is done. -/
def worker : List SessionStep := List.replicate 12 (.worker .empty [])

/-- The user rebuilds the index, adds a drive, removes the other one, and quits. -/
def steps : List SessionStep :=
  .rebuild :: worker ++ .settings [driveC, driveD] :: .ui :: worker ++ .settings [driveD] :: .ui :: worker ++ [.cancel, .ui]

theorem watchers_follow_selection_steps :
    Along (Session.Follows []) (Session.step .c []) (.launch [driveC] .empty) steps :=
  watchers_follow_selection .c [] [driveC] .empty steps (by decide +kernel)

/-- The user rebuilds the index and exchanges one drive for the other. -/
def exchange : List SessionStep := .rebuild :: worker ++ .settings [driveD] :: .ui :: worker

end WatchedRootsWitness

open WatchedRootsWitness in
/-- When one drive is exchanged for another, the drive that is no longer selected is still watched. -/
theorem removed_root_stays_watched :
    (final (Session.step .c []) (.launch [driveC] .empty) exchange).reported = true ∧
      (final (Session.step .c []) (.launch [driveC] .empty) exchange).selectedDrives = [driveD] ∧
      (final (Session.step .c []) (.launch [driveC] .empty) exchange).roots = [driveC, driveD] ∧
      ¬Session.Follows [] (final (Session.step .c []) (.launch [driveC] .empty) exchange) := by
  decide +kernel

end WinIndex
