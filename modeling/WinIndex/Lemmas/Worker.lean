import WinIndex.Session
import WinIndex.Lemmas.Batch

/-!
# The worker alone

A worker that no watcher and no command disturbs, over a file system that does not change, comes to its end, and what it has
done to the store is the list of mutations that the call was taken for where no threads were looked at (`IndexerCall.ops`).
-/

namespace WinIndex

open Trace

/-- Left alone, the worker of a state comes to its end, and then leaves this store. -/
def Session.Finishes (Γ : Locale) (fs : FileSystem) (excludedPaths : List WString) (s : Session) (store : IndexStore) : Prop :=
  ∃ n, (final (Session.step Γ (enumerateLocalFixedDrives fs)) s (List.replicate n (.worker fs excludedPaths))).isIndexing =
      false ∧
    (final (Session.step Γ (enumerateLocalFixedDrives fs)) s (List.replicate n (.worker fs excludedPaths))).watching.store =
      store

variable {Γ : Locale} {fs : FileSystem} {excludedPaths : List WString} {s : Session} {store : IndexStore}

/-- The worker leaves the settings, `m_cancel` and the user interface alone. -/
theorem workerStep_frame (fixedDrives : List WString) (fs : FileSystem) (excludedPaths : List WString) :
    (s.workerStep Γ fixedDrives fs excludedPaths).selectedDrives = s.selectedDrives ∧
      (s.workerStep Γ fixedDrives fs excludedPaths).cancel = s.cancel ∧
      (s.workerStep Γ fixedDrives fs excludedPaths).ui = s.ui := by
  unfold Session.workerStep
  cases s.worker with
  | stopping paths =>
    simp only
    split
    · split <;> exact ⟨rfl, rfl, rfl⟩
    · exact ⟨rfl, rfl, rfl⟩
  | scanning todo _ | indexing _ todo | removing _ todo | watching todo => cases todo <;> exact ⟨rfl, rfl, rfl⟩
  | adding _ _ entries => cases entries <;> exact ⟨rfl, rfl, rfl⟩
  | _ => exact ⟨rfl, rfl, rfl⟩

theorem finishes_of_finished (h : s.worker = .finished) : s.Finishes Γ fs excludedPaths s.watching.store :=
  ⟨0, Session.isIndexing_eq_false.2 h, rfl⟩

/-- What the next state of the worker finishes with, the state finishes with. -/
theorem finishes_of_step
    (h : (s.workerStep Γ (enumerateLocalFixedDrives fs) fs excludedPaths).Finishes Γ fs excludedPaths store) :
    s.Finishes Γ fs excludedPaths store := by
  obtain ⟨n, hdone, hstore⟩ := h
  exact ⟨n + 1, hdone, hstore⟩

/-! ## The phases, from the last to the first -/

theorem finishes_watching {todo : List WString} (hw : s.worker = .watching todo) (hc : s.cancel = false) :
    s.Finishes Γ fs excludedPaths s.watching.store := by
  induction todo generalizing s with
  | nil =>
    refine finishes_of_step ?_
    rw [Session.workerStep, hw]
    exact finishes_of_finished rfl
  | cons root todo ih =>
    refine finishes_of_step (finishes_of_step ?_)
    have hstart : s.workerStep Γ (enumerateLocalFixedDrives fs) fs excludedPaths =
        { s with worker := .starting root todo } := by
      rw [Session.workerStep, hw]
      simp [hc]
    rw [hstart]
    exact ih rfl hc

/-- The scans of `IndexingThread`, and the rest of it. -/
theorem finishes_scanning {todo : List WString} {entries : List FileEntry} (hw : s.worker = .scanning todo entries)
    (hc : s.cancel = false) :
    s.Finishes Γ fs excludedPaths (final (StoreOp.run Γ) s.watching.store
      (.beginWrite :: (entries ++ scanAll Γ fs excludedPaths todo).map .addEntry ++ [.endWrite])) := by
  induction todo generalizing s entries with
  | nil =>
    refine finishes_of_step (finishes_of_step (finishes_of_step (finishes_of_step ?_)))
    have hpublish : s.workerStep Γ (enumerateLocalFixedDrives fs) fs excludedPaths =
        { s with worker := .publishing entries } := by
      rw [Session.workerStep, hw]
      simp [hc]
    rw [hpublish, scanAll, List.flatMap_nil, List.append_nil]
    exact finishes_watching rfl hc
  | cons root todo ih =>
    refine finishes_of_step ?_
    have hscan : s.workerStep Γ (enumerateLocalFixedDrives fs) fs excludedPaths =
        { s with worker := .scanning todo (entries ++ scanDriveInto Γ fs excludedPaths root) } := by
      rw [Session.workerStep, hw]
    rw [hscan, scanAll, List.flatMap_cons, ← List.append_assoc]
    exact ih rfl hc

/-- The entries of one root, and what comes after them. -/
theorem finishes_adding {paths todo : List WString} {entries : List FileEntry} {ops : List StoreOp}
    (hnext : ∀ s : Session, s.worker = .indexing paths todo → s.cancel = false →
      s.Finishes Γ fs excludedPaths (final (StoreOp.run Γ) s.watching.store ops))
    (hw : s.worker = .adding paths todo entries) (hc : s.cancel = false) :
    s.Finishes Γ fs excludedPaths (final (StoreOp.run Γ) s.watching.store (entries.map .applyAdd ++ ops)) := by
  induction entries generalizing s with
  | nil =>
    refine finishes_of_step ?_
    rw [Session.workerStep, hw]
    exact hnext _ rfl hc
  | cons e entries ih =>
    refine finishes_of_step ?_
    rw [Session.workerStep, hw]
    exact ih rfl hc

/-- `IndexPathsThread`. -/
theorem finishes_indexing {paths todo : List WString} (hw : s.worker = .indexing paths todo) (hc : s.cancel = false) :
    s.Finishes Γ fs excludedPaths
      (final (StoreOp.run Γ) s.watching.store ((scanAll Γ fs excludedPaths todo).map .applyAdd)) := by
  induction todo generalizing s with
  | nil =>
    refine finishes_of_step (finishes_of_step ?_)
    have hsave : s.workerStep Γ (enumerateLocalFixedDrives fs) fs excludedPaths = { s with worker := .savingIndexed paths } := by
      rw [Session.workerStep, hw]
      simp [hc]
    rw [hsave]
    exact finishes_watching rfl hc
  | cons root todo ih =>
    refine finishes_of_step ?_
    have hadd : s.workerStep Γ (enumerateLocalFixedDrives fs) fs excludedPaths =
        { s with worker := .adding paths todo (scanDriveInto Γ fs excludedPaths root) } := by
      rw [Session.workerStep, hw]
      simp [hc]
    rw [hadd, scanAll, List.flatMap_cons, List.map_append]
    exact finishes_adding (fun s hw hc => ih hw hc) rfl hc

/-- `StopWatchersForRoots`, when no thread has anything left to do: each watcher is stopped at once. -/
theorem finishes_stopping {paths : List WString} (hw : s.worker = .stopping paths) (hidle : s.watching.Idle) :
    s.Finishes Γ fs excludedPaths s.watching.store := by
  obtain ⟨n, hn⟩ : ∃ n, s.watching.watchers.length = n := ⟨_, rfl⟩
  induction n using Nat.strong_induction_on generalizing s with
  | _ n ih =>
    refine finishes_of_step ?_
    rw [Session.workerStep, hw]
    simp only
    split
    · rename_i w hfind
      have hmem := List.mem_of_find?_eq_some hfind
      have hmatch := List.find?_some hfind
      have hlen := List.length_eraseP_of_mem (p := fun w => paths.contains w.root) hmem hmatch
      have hpos := List.length_pos_of_mem hmem
      rw [if_pos (hidle w hmem)]
      refine ih (n - 1) (by omega) rfl ?_ (hlen.trans (by omega))
      intro x hx
      exact hidle x (List.mem_of_mem_eraseP hx)
    · refine finishes_of_step ?_
      exact finishes_of_finished rfl

/-- `RemovePathsThread`. -/
theorem finishes_removing {paths todo : List WString} (hw : s.worker = .removing paths todo) (hidle : s.watching.Idle) :
    s.Finishes Γ fs excludedPaths (final (StoreOp.run Γ) s.watching.store (removePathsThread todo)) := by
  induction todo generalizing s with
  | nil =>
    refine finishes_of_step ?_
    rw [Session.workerStep, hw]
    exact finishes_stopping rfl hidle
  | cons root todo ih =>
    refine finishes_of_step ?_
    rw [Session.workerStep, hw]
    exact ih rfl hidle

/-! ## The calls -/

/-- A call that finds no worker running, and threads of the watchers with nothing left to do, comes to its end and leaves what
its list of mutations leaves. -/
theorem call_finishes (Γ : Locale) (fs : FileSystem) (excludedPaths : List WString) (s : Session) (c : IndexerCall)
    (hs : s.isIndexing = false) (hidle : s.watching.Idle) :
    (s.call c).Finishes Γ fs excludedPaths
      (final (StoreOp.run Γ) s.watching.store (c.ops Γ fs s.selectedDrives excludedPaths)) := by
  cases c with
  | none =>
    rw [Session.call_dropped (.inr rfl)]
    exact finishes_of_finished (Session.isIndexing_eq_false.1 hs)
  | startIndexing =>
    rw [Session.call_idle (c := .startIndexing) hs (by nofun)]
    refine finishes_of_step ?_
    have hscan : ∀ s : Session, s.worker = .scanning (effectiveDrives fs s.selectedDrives) [] → s.cancel = false →
        s.Finishes Γ fs excludedPaths
          (final (StoreOp.run Γ) s.watching.store (indexingThread Γ fs s.selectedDrives excludedPaths)) :=
      fun s hw hc => finishes_scanning hw hc
    exact hscan _ rfl rfl
  | indexPaths paths =>
    rw [Session.call_idle (c := .indexPaths paths) hs (by nofun)]
    exact finishes_indexing rfl rfl
  | removePaths paths =>
    rw [Session.call_idle (c := .removePaths paths) hs (by nofun)]
    exact finishes_removing rfl hidle

end WinIndex
