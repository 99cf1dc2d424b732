import WinIndex.Session
import WinIndex.Lemmas.Scan

/-!
# The removal of roots

`RemovePathsThread` removes the entries under each root and stops the roots' watchers only then. What a watcher adds in between
stays: it is in the index when the removal completes, and in the file that was saved. Nothing is left as long as every such
addition still comes before the removal of a root above it.
-/

namespace WinIndex

open Trace

/-- No live entry lies under one of the roots. -/
def IndexPool.NoneUnder (Γ : Locale) (p : IndexPool) (roots : List WString) : Prop := ∀ r ∈ p.live, ¬UnderSome Γ roots r.path

instance IndexPool.decidableNoneUnder (Γ : Locale) (p : IndexPool) (roots : List WString) : Decidable (p.NoneUnder Γ roots) :=
  inferInstanceAs (Decidable (∀ r ∈ p.live, _))

/-- Once the worker is done, nothing under the roots is live, in memory or in what was saved. -/
def Session.Removed (Γ : Locale) (paths : List WString) (s : Session) : Prop :=
  s.isIndexing = false → s.watching.store.pool.NoneUnder Γ paths ∧ ∀ p ∈ s.saved, p.NoneUnder Γ paths

instance Session.decidableRemoved (Γ : Locale) (paths : List WString) : DecidablePred (Session.Removed Γ paths) :=
  fun s => inferInstanceAs (Decidable (s.isIndexing = false → _))

/-- The roots whose entries are still to be removed. -/
def Session.stillToRemove (s : Session) : List WString :=
  match s.worker with
  | .removing _ todo => todo
  | _ => []

/-- The step is one of the worker's or of the watchers'. -/
def SessionStep.OfThreads : SessionStep → Prop
  | .worker _ _ | .watch _ => True
  | .settings _ | .rebuild | .start _ | .cancel | .ui => False

/-- The pool has room for what a watcher's step adds. -/
def SessionStep.HasRoom (s : Session) : SessionStep → Prop
  | .watch l => l.HasRoom s.watching
  | _ => True

/-- What a watcher's step adds under one of the roots is added while the entries under a root above it are still to be
removed. -/
def SessionStep.AddsInTime (Γ : Locale) (paths : List WString) (s : Session) : SessionStep → Prop
  | .watch l => ∀ path ∈ (l.turn s.watching).bind ChangeStep.addedPath, UnderSome Γ paths path →
      UnderSome Γ s.stillToRemove path
  | _ => True

instance SessionStep.decidableHasRoom (s : Session) : (l : SessionStep) → Decidable (l.HasRoom s)
  | .watch l => inferInstanceAs (Decidable (l.HasRoom s.watching))
  | .settings _ | .rebuild | .start _ | .cancel | .ui | .worker _ _ => .isTrue trivial

instance SessionStep.decidableAddsInTime (Γ : Locale) (paths : List WString) (s : Session) :
    (l : SessionStep) → Decidable (l.AddsInTime Γ paths s)
  | .watch l => inferInstanceAs (Decidable (∀ path ∈ (l.turn s.watching).bind ChangeStep.addedPath, _))
  | .settings _ | .rebuild | .start _ | .cancel | .ui | .worker _ _ => .isTrue trivial

/-! ## While the worker removes -/

/-- The phases of `RemovePathsThread`, and its end. -/
inductive RemovalPhase : Worker → Prop
  | removing (paths todo : List WString) : RemovalPhase (.removing paths todo)
  | stopping (paths : List WString) : RemovalPhase (.stopping paths)
  | saving : RemovalPhase .savingRemoved
  | finished : RemovalPhase .finished

/-- What holds all the time: the live entries under the roots are those still to be removed. -/
structure Session.Removing (Γ : Locale) (paths : List WString) (s : Session) : Prop where
  sound : s.watching.store.pool.Sound
  phase : RemovalPhase s.worker
  left : ∀ r ∈ s.watching.store.pool.live, UnderSome Γ paths r.path → UnderSome Γ s.stillToRemove r.path
  saved : s.worker = .finished → ∀ p ∈ s.saved, p.NoneUnder Γ paths

variable {Γ : Locale} {fixedDrives paths : List WString} {s : Session}

/-- When nothing is still to be removed, nothing is left under the roots. -/
theorem Session.Removing.noneUnder (h : s.Removing Γ paths) (hdone : s.stillToRemove = []) :
    s.watching.store.pool.NoneUnder Γ paths := by
  intro r hr hunder
  obtain ⟨root, hroot, -⟩ := h.left r hr hunder
  rw [hdone] at hroot
  cases hroot

theorem Session.Removing.removed (h : s.Removing Γ paths) : s.Removed Γ paths := by
  intro hidle
  have hfin := Session.isIndexing_eq_false.1 hidle
  exact ⟨h.noneUnder (by rw [stillToRemove, hfin]), h.saved hfin⟩

/-- The worker goes on. -/
theorem removing_workerStep (fs : FileSystem) (excludedPaths : List WString) (h : s.Removing Γ paths) :
    (s.workerStep Γ fixedDrives fs excludedPaths).Removing Γ paths := by
  have hphase := h.phase
  have hleft := h.left
  cases hw : s.worker with
  | removing ps todo =>
    simp only [Session.stillToRemove, hw] at hleft
    cases todo with
    | nil =>
      have hstep : s.workerStep Γ fixedDrives fs excludedPaths = { s with worker := .stopping ps } := by
        rw [Session.workerStep, hw]
      rw [hstep]
      exact ⟨h.sound, .stopping ps, hleft, nofun⟩
    | cons root todo =>
      have hstep : s.workerStep Γ fixedDrives fs excludedPaths =
          { s.mutate (fun store => store.removeEntriesUnderPath Γ root) with worker := .removing ps todo } := by
        rw [Session.workerStep, hw]
      rw [hstep]
      refine ⟨IndexStore.sound_removeEntriesUnderPath root h.sound, .removing ps todo, ?_, nofun⟩
      intro r hr hunder
      obtain ⟨hold, hnot⟩ := (mem_live_removeEntriesUnderPath h.sound).1 hr
      exact (hleft r hold hunder).of_cons hnot
  | stopping ps =>
    simp only [Session.stillToRemove, hw] at hleft
    rw [Session.workerStep, hw]
    simp only
    split
    · split
      · exact ⟨h.sound, .stopping ps, hleft, nofun⟩
      · exact h
    · exact ⟨h.sound, .saving, hleft, nofun⟩
  | savingRemoved =>
    have hnone : s.watching.store.pool.NoneUnder Γ paths := h.noneUnder (by rw [Session.stillToRemove, hw])
    simp only [Session.stillToRemove, hw] at hleft
    have hstep : s.workerStep Γ fixedDrives fs excludedPaths = { s.saveAndReport with worker := .finished } := by
      rw [Session.workerStep, hw]
    rw [hstep]
    refine ⟨h.sound, .finished, hleft, ?_⟩
    rintro - p hp
    cases hp
    exact hnone
  | finished =>
    have hstep : s.workerStep Γ fixedDrives fs excludedPaths = s := by rw [Session.workerStep, hw]
    rwa [hstep]
  | _ => rw [hw] at hphase; cases hphase

/-- A watcher goes on, and adds in time what it adds under the roots. -/
theorem removing_watch {l : WatchStep} (h : s.Removing Γ paths) (hroom : l.HasRoom s.watching)
    (hok : (SessionStep.watch l).AddsInTime Γ paths s) :
    (s.step Γ fixedDrives (.watch l)).Removing Γ paths := by
  obtain ⟨hsound, hlive⟩ := Watching.step_spec (Γ := Γ) h.sound hroom
  refine ⟨hsound, h.phase, ?_, h.saved⟩
  intro r hr hunder
  rcases hlive r hr with hold | hadd
  · exact h.left r hold hunder
  · exact hok r.path hadd hunder

/-- In every run of the worker and the watchers from the call of `RemovePaths`, in which every addition under a removed root
comes while a root above it is still to be removed: once the removal has completed, and ever after, nothing under the removed
roots is live, in memory or in what was saved. -/
theorem removal_removes (Γ : Locale) (fixedDrives paths : List WString) (s : Session) (steps : List SessionStep)
    (hidle : s.isIndexing = false) (hs : s.watching.store.pool.Sound) (hsteps : ∀ l ∈ steps, l.OfThreads)
    (hroom : Meets (fun s l => l.HasRoom s) (Session.step Γ fixedDrives) (s.call (.removePaths paths)) steps)
    (hok : Meets (fun s l => l.AddsInTime Γ paths s) (Session.step Γ fixedDrives) (s.call (.removePaths paths)) steps) :
    Along (Session.Removed Γ paths) (Session.step Γ fixedDrives) (s.call (.removePaths paths)) steps := by
  have hstart : (s.call (.removePaths paths)).Removing Γ paths := by
    rw [Session.call_idle (c := .removePaths paths) hidle (by nofun)]
    exact ⟨hs, .removing paths paths, fun r _ h => h, nofun⟩
  have hthreads := (meets_of_forall_mem hsteps).and (hroom.and hok)
  refine (along_of_step (P := Session.Removing Γ paths) ?_ hstart hthreads).imp (fun s h => h.removed)
  rintro s l h ⟨hl, hroom, hok⟩
  cases l with
  | worker fs excludedPaths => exact removing_workerStep fs excludedPaths h
  | watch l => exact removing_watch h hroom hok
  | _ => cases hl

namespace RemovalWitness

/-- `C:\d`, which is watched and then removed. -/
def folder : WString := wide ['C', ':', '\\', 'd']

/-- `C:\d\a`. -/
def file : WString := wide ['C', ':', '\\', 'd', '\\', 'a']

/-- There is a file at every path. -/
def allFiles (_ : WString) : Option AttributeData := some ⟨0x20, 0, 1, 2, 3⟩

/-- One file is indexed, and no worker runs. -/
def watched : Session :=
  { Session.launch [] (IndexStore.empty.applyAdd .c (.ofPath .c file 1 2 0x20)) with
    watching := ⟨IndexStore.empty.applyAdd .c (.ofPath .c file 1 2 0x20), [⟨folder, []⟩]⟩ }

/-- The worker goes on. -/
def worker : SessionStep := .worker .empty []

/-- A second file is created, and the watcher takes its turns. -/
def created : List SessionStep :=
  [.watch (.event 0 .added (wide ['b'])), .watch (.apply 0 allFiles), .watch (.apply 0 allFiles)]

/-- The file comes before the removal. -/
def early : List SessionStep := created ++ [worker, worker, worker, worker, worker]

/-- The file comes when the entries have been removed, but the watcher has not been stopped. -/
def late : List SessionStep := worker :: created ++ [worker, worker, worker, worker]

theorem removal_removes_early :
    Along (Session.Removed .c [folder]) (Session.step .c []) (watched.call (.removePaths [folder])) early := by
  refine removal_removes .c [] [folder] watched early rfl ?_ ?_ (by decide +kernel) (by decide +kernel)
  · exact IndexPool.sound_empty.addEntry (by decide) .c _
  · simp [early, created, worker, SessionStep.OfThreads]

/-- The worker completes. -/
example : (final (Session.step .c []) (watched.call (.removePaths [folder])) early).isIndexing = false := by decide +kernel

end RemovalWitness

open RemovalWitness in
/-- A file that is created after the entries under its root were removed is live when the removal has completed, and it was
saved. -/
theorem removal_is_undone :
    (final (Session.step .c []) (watched.call (.removePaths [folder])) late).isIndexing = false ∧
      ¬(final (Session.step .c []) (watched.call (.removePaths [folder])) late).watching.store.pool.NoneUnder .c [folder] ∧
      ¬∀ p ∈ (final (Session.step .c []) (watched.call (.removePaths [folder])) late).saved, p.NoneUnder .c [folder] := by
  decide +kernel

end WinIndex
