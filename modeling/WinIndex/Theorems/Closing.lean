import WinIndex.Lemmas.Worker
import WinIndex.Lib.Rest
import WinIndex.Theorems.WorkerExclusion

/-!
# The threads come to rest

`Cancel` waits for the watchers, and so does `StopWatchersForRoots`, with `m_watchersMutex` held that `Cancel` and
`StartWatchersForRoots` wait for; `WaitForCompletion` waits for the worker. None of them waits for ever, if every thread is
created: as long as one is not through, one of them can go on, and each has only so far to go.
-/

namespace WinIndex

open Rest Trace

/-! ## How far the threads have to go -/

/-- How far a worker has to go: through its phases, and in each through what it has still to do. In `StopWatchersForRoots` these
are the watchers. -/
def Worker.left (watchers : Nat) : Worker → ℕ ×ₗ ℕ ×ₗ ℕ
  | .finished => toLex (1, toLex (0, 0))
  | .watching todo => toLex (2, toLex (todo.length, 0))
  | .starting _ todo => toLex (2, toLex (todo.length, 1))
  | .monitoring => toLex (3, toLex (0, 0))
  | .savingRemoved => toLex (3, toLex (0, 0))
  | .savingIndexed _ => toLex (3, toLex (0, 0))
  | .savingRebuilt => toLex (4, toLex (0, 0))
  | .stopping _ => toLex (4, toLex (watchers, 0))
  | .publishing _ => toLex (6, toLex (0, 0))
  | .scanning todo _ => toLex (7, toLex (todo.length, 0))
  | .indexing _ todo => toLex (7, toLex (todo.length, 0))
  | .adding _ todo entries => toLex (7, toLex (todo.length, entries.length + 1))
  | .removing _ todo => toLex (7, toLex (todo.length, 0))
  | .rebuilding => toLex (8, toLex (0, 0))

/-- How far a thread has to go. -/
def Body.left (watchers : Nat) : Body → ℕ ×ₗ ℕ ×ₗ ℕ
  | .phase worker => worker.left watchers
  | .writing _ todo => toLex (5, toLex (todo.length, 0))

/-- A look at the file system may be followed by an addition. -/
def ChangeStep.left : ChangeStep → Nat
  | .look _ => 2
  | .remove _ | .rename _ _ | .add _ => 1

/-- How far a watcher has to go with the record it is at. -/
def Watcher.left (w : Watcher) : Nat := (w.todo.map ChangeStep.left).sum

/-- How far the thread has to go that runs, if any. -/
def leftOf (watchers : Nat) : Option Body → ℕ ×ₗ ℕ ×ₗ ℕ
  | none => toLex (0, toLex (0, 0))
  | some body => body.left watchers

/-- How far the watchers have to go. -/
def Watching.left (t : Watching) : Nat := (t.watchers.map Watcher.left).sum

/-- How far the program has to go: first its worker, then the watchers, then the user interface. -/
def IndexerThreads.left (s : IndexerThreads) : (ℕ ×ₗ ℕ ×ₗ ℕ) ×ₗ ℕ ×ₗ ℕ :=
  toLex (leftOf s.shared.watching.watchers.length s.gate.running.head?,
    toLex (s.shared.watching.left, if s.shared.ui = .idle then 0 else 1))

/-! ## What goes on -/

/-- The step is one of a thread that is under way, and asks for nothing new. -/
def ThreadStep.Internal : ThreadStep → Prop
  | .stopWatchers | .thread _ _ _ | .watch (.apply _ _) => True
  | .call _ _ | .load _ _ | .select _ | .cancel | .watch (.event _ _ _) => False

/-- A thread goes on from a state to another. -/
def IndexerThreads.GoesOn (Γ : Locale) (fixedDrives : List WString) (s s' : IndexerThreads) : Prop :=
  ∃ l : ThreadStep, l.Internal ∧ s.step Γ fixedDrives l = s' ∧ s' ≠ s

/-- The user interface and the watchers are idle, no worker runs, and `WaitForCompletion` returns. -/
structure IndexerThreads.AtRest (s : IndexerThreads) : Prop where
  ui : s.shared.ui = .idle
  watchers : s.shared.watching.Idle
  worker : s.gate.running = []
  returns : s.waitForCompletion = true

/-- What holds in every run: the rule of the gate; the user interface is idle or in `Cancel`; a thread in `StopWatchersForRoots`
has been there for a turn. -/
structure IndexerThreads.UnderWay (s : IndexerThreads) : Prop where
  gate : s.gate.Exclusive
  ui : s.shared.ui = .idle ∨ s.shared.ui = .stopWatchers
  stopping : ∀ paths, .phase (.stopping paths) ∈ s.gate.running → s.shared.worker = .stopping paths

variable {Γ : Locale} {fixedDrives : List WString} {s s' : IndexerThreads}

/-! ## Each step goes some way -/

theorem lex_lt_of_fst {a b : ℕ} {x y : ℕ ×ₗ ℕ} (h : a < b) : (toLex (a, x) : ℕ ×ₗ ℕ ×ₗ ℕ) < toLex (b, y) :=
  Prod.Lex.toLex_lt_toLex.2 (.inl h)

theorem lex_lt_of_snd {a b c d e : ℕ} (h : b < d) : (toLex (a, toLex (b, c)) : ℕ ×ₗ ℕ ×ₗ ℕ) < toLex (a, toLex (d, e)) :=
  Prod.Lex.toLex_lt_toLex.2 (.inr ⟨rfl, Prod.Lex.toLex_lt_toLex.2 (.inl h)⟩)

theorem lex_lt_of_thd {a b c e : ℕ} (h : c < e) : (toLex (a, toLex (b, c)) : ℕ ×ₗ ℕ ×ₗ ℕ) < toLex (a, toLex (b, e)) :=
  Prod.Lex.toLex_lt_toLex.2 (.inr ⟨rfl, Prod.Lex.toLex_lt_toLex.2 (.inr ⟨rfl, h⟩)⟩)

/-- A step of the worker goes some way, or waits in `StopWatchersForRoots` for a watcher. -/
theorem Session.workerStep_left (Γ : Locale) (fixedDrives : List WString) {t : Session} (fs : FileSystem)
    (excludedPaths : List WString) (hrun : t.worker ≠ .finished) (hpublish : ∀ entries, t.worker ≠ .publishing entries) :
    (t.workerStep Γ fixedDrives fs excludedPaths).worker.left
        (t.workerStep Γ fixedDrives fs excludedPaths).watching.watchers.length < t.worker.left t.watching.watchers.length ∨
      (t.workerStep Γ fixedDrives fs excludedPaths = t ∧ (∃ paths, t.worker = .stopping paths) ∧ ¬t.watching.Idle) := by
  unfold workerStep
  cases hworker : t.worker with
  | finished => exact absurd hworker hrun
  | publishing entries => exact absurd hworker (hpublish entries)
  | rebuilding | savingRebuilt | monitoring | savingIndexed paths | savingRemoved => exact .inl (lex_lt_of_fst (by decide))
  | starting root todo => exact .inl (lex_lt_of_thd (by decide))
  | scanning todo entries =>
    cases todo with
    | nil => by_cases hcancel : t.cancel <;> exact .inl (by simp only [hcancel]; exact lex_lt_of_fst (by decide))
    | cons root todo => exact .inl (lex_lt_of_snd (Nat.lt_succ_self _))
  | indexing paths todo =>
    cases todo with
    | nil => by_cases hcancel : t.cancel <;> exact .inl (by simp only [hcancel]; exact lex_lt_of_fst (by decide))
    | cons root todo =>
      by_cases hcancel : t.cancel
      · exact .inl (by simp only [hcancel]; exact lex_lt_of_fst (by decide))
      · exact .inl (by simp only [hcancel]; exact lex_lt_of_snd (Nat.lt_succ_self _))
  | adding paths todo entries =>
    cases entries with
    | nil => exact .inl (lex_lt_of_thd (by decide))
    | cons e entries => exact .inl (lex_lt_of_thd (Nat.lt_succ_self _))
  | removing paths todo =>
    cases todo with
    | nil => exact .inl (lex_lt_of_fst (by decide))
    | cons root todo => exact .inl (lex_lt_of_snd (Nat.lt_succ_self _))
  | watching todo =>
    cases todo with
    | nil => exact .inl (lex_lt_of_fst (by decide))
    | cons root todo =>
      by_cases hcancel : t.cancel
      · exact .inl (by simp only [hcancel]; exact lex_lt_of_fst (by decide))
      · exact .inl (by simp only [hcancel]; exact lex_lt_of_snd (Nat.lt_succ_self _))
  | stopping paths =>
    simp only
    cases hfind : t.watching.watchers.find? (fun w => paths.contains w.root) with
    | none => exact .inl (lex_lt_of_fst (by decide))
    | some w =>
      have hmem := List.mem_of_find?_eq_some hfind
      have hmatch := List.find?_some hfind
      simp only
      by_cases htodo : w.todo = []
      · refine .inl ?_
        rw [if_pos htodo]
        refine lex_lt_of_snd ?_
        have hlen := List.length_eraseP_of_mem (p := fun w => paths.contains w.root) hmem hmatch
        have hpos := List.length_pos_of_mem hmem
        rw [hlen]
        omega
      · refine .inr ⟨if_neg htodo, ⟨paths, rfl⟩, fun hidle => htodo (hidle w hmem)⟩

/-- How far a thread has to go does not depend on the watchers if it does not hold their mutex. -/
theorem leftOf_congr {bodies : List Body} (h : bodies.any Body.holdsWatchers = false) (n m : Nat) :
    leftOf n bodies.head? = leftOf m bodies.head? := by
  cases bodies with
  | nil => rfl
  | cons b _ =>
    cases b with
    | writing _ _ => rfl
    | phase worker =>
      cases worker with
      | stopping paths => nomatch h
      | _ => rfl

/-- A worker that runs has some way to go. -/
theorem Worker.left_pos (watchers : Nat) (worker : Worker) : leftOf watchers none < worker.left watchers := by
  cases worker <;> exact lex_lt_of_fst (by decide)

/-- A turn of a thread goes some way, or waits for a watcher. -/
theorem Body.turn_left (fixedDrives : List WString) (fs : FileSystem) (excludedPaths : List WString) (t : Session) (b : Body) :
    leftOf (b.turn Γ fixedDrives fs excludedPaths t).1.watching.watchers.length (b.turn Γ fixedDrives fs excludedPaths t).2 <
        b.left t.watching.watchers.length ∨
      ∃ paths, b = .phase (.stopping paths) ∧ ¬t.watching.Idle ∧
        b.turn Γ fixedDrives fs excludedPaths t = ({ t with worker := .stopping paths }, some b) := by
  rcases b.turn_cases (Γ := Γ) fixedDrives fs excludedPaths t with
    ⟨entries, rfl, hturn⟩ | ⟨added, e, todo, rfl, hturn⟩ | ⟨added, rfl, hturn⟩ |
    ⟨worker, next, rfl, hworker, hnext, ⟨hdone, hturn⟩ | ⟨hgoes, hturn⟩⟩
  · rw [hturn]
    exact .inl (lex_lt_of_fst (by decide))
  · rw [hturn]
    exact .inl (lex_lt_of_snd (Nat.lt_succ_self _))
  · rw [hturn]
    exact .inl (lex_lt_of_fst (by decide))
  · rw [hturn]
    exact .inl (worker.left_pos t.watching.watchers.length)
  · by_cases hrun : worker = .finished
    · subst hrun
      rw [Session.workerStep] at hnext
      exact absurd (congrArg Session.worker hnext) hgoes
    · rw [hturn]
      have hleft := Session.workerStep_left Γ fixedDrives (t := { t with worker := worker }) fs excludedPaths hrun hworker
      rcases hleft with hlt | ⟨hsame, ⟨paths, hpaths⟩, hbusy⟩
      · rw [← hnext] at hlt
        exact .inl hlt
      · have hpaths : worker = .stopping paths := hpaths
        subst hpaths
        rw [hsame] at hnext
        exact .inr ⟨paths, rfl, hbusy, by rw [hnext]⟩

/-- A turn leaves the user interface alone. -/
theorem Body.turn_ui (fixedDrives : List WString) (fs : FileSystem) (excludedPaths : List WString) (t : Session) (b : Body) :
    (b.turn Γ fixedDrives fs excludedPaths t).1.ui = t.ui := by
  rcases b.turn_cases (Γ := Γ) fixedDrives fs excludedPaths t with
    ⟨entries, -, hturn⟩ | ⟨added, e, todo, -, hturn⟩ | ⟨added, -, hturn⟩ |
    ⟨worker, next, -, -, hnext, ⟨-, hturn⟩ | ⟨-, hturn⟩⟩
  · rw [hturn]
    rfl
  · rw [hturn]
    rfl
  · rw [hturn]
    rfl
  · rw [hturn, hnext]
    exact (workerStep_frame fixedDrives fs excludedPaths).2.2
  · rw [hturn, hnext]
    exact (workerStep_frame fixedDrives fs excludedPaths).2.2

/-- A thread that is in `StopWatchersForRoots` after a turn is so in the session. -/
theorem Body.turn_worker (fixedDrives : List WString) (fs : FileSystem) (excludedPaths : List WString) (t : Session) (b : Body) :
    ∀ paths, (b.turn Γ fixedDrives fs excludedPaths t).2 = some (.phase (.stopping paths)) →
      (b.turn Γ fixedDrives fs excludedPaths t).1.worker = .stopping paths := by
  intro paths hstopping
  rcases b.turn_cases (Γ := Γ) fixedDrives fs excludedPaths t with
    ⟨entries, -, hturn⟩ | ⟨added, e, todo, -, hturn⟩ | ⟨added, -, hturn⟩ |
    ⟨worker, next, -, -, -, ⟨-, hturn⟩ | ⟨-, hturn⟩⟩
  · rw [hturn] at hstopping
    nomatch hstopping
  · rw [hturn] at hstopping
    nomatch hstopping
  · rw [hturn] at hstopping
    nomatch hstopping
  · rw [hturn] at hstopping
    nomatch hstopping
  · rw [hturn] at hstopping ⊢
    exact Body.phase.inj (Option.some.inj hstopping)

/-! ## The watchers -/

/-- A turn leaves less than itself to do. -/
theorem ChangeStep.left_next (attributes : WString → Option AttributeData) (c : ChangeStep) :
    ((c.next Γ attributes).map ChangeStep.left).sum < c.left := by
  cases c with
  | look path =>
    rw [next]
    split
    · exact Nat.zero_lt_two
    · split
      · exact Nat.zero_lt_two
      · exact Nat.one_lt_two
  | remove _ | rename _ _ | add _ => exact Nat.zero_lt_one

/-- Less in one place of a list is less in the sum. -/
theorem sum_map_set_lt {α : Type*} (f : α → Nat) {xs : List α} {i : Nat} {x y : α} (hx : xs[i]? = some x) (hlt : f y < f x) :
    ((xs.set i y).map f).sum < (xs.map f).sum := by
  induction xs generalizing i with
  | nil => nomatch hx
  | cons a xs ih =>
    cases i with
    | zero =>
      cases hx
      simpa using hlt
    | succ i => simpa using ih hx

/-- While a watcher is busy it can take a turn, and then the watchers have less to do. -/
theorem Watching.exists_apply {t : Watching} (h : ¬t.Idle) : ∃ i, ∀ attributes,
    (t.step Γ (.apply i attributes)).left < t.left := by
  obtain ⟨w, hw⟩ := Classical.not_forall.1 h
  obtain ⟨hmem, hbusy⟩ := Classical.not_imp.1 hw
  obtain ⟨i, hi⟩ := List.getElem?_of_mem hmem
  obtain ⟨root, todo⟩ := w
  cases todo with
  | nil => exact absurd rfl hbusy
  | cons c rest =>
    refine ⟨i, fun attributes => ?_⟩
    simp only [step, hi]
    refine sum_map_set_lt _ hi ?_
    simp only [Watcher.left, List.map_append, List.map_cons, List.sum_append, List.sum_cons]
    exact Nat.add_lt_add_right (c.left_next attributes) _

/-- A turn of a watcher changes nothing, or leaves the watchers less to do; there are as many as before. -/
theorem Watching.apply_left (t : Watching) (i : Nat) (attributes : WString → Option AttributeData) :
    t.step Γ (.apply i attributes) = t ∨
      (t.step Γ (.apply i attributes)).watchers.length = t.watchers.length ∧
        (t.step Γ (.apply i attributes)).left < t.left := by
  rcases t.step_cases (Γ := Γ) (.apply i attributes) with ⟨-, h⟩ | ⟨j, action, name, root, heq, -, -⟩ |
    ⟨j, attributes', root, c, rest, heq, hw, -, h⟩
  · exact .inl h
  · nomatch heq
  · cases heq
    rw [h]
    refine .inr ⟨List.length_set, sum_map_set_lt _ hw ?_⟩
    simp only [Watcher.left, List.map_append, List.map_cons, List.sum_append, List.sum_cons]
    exact Nat.add_lt_add_right (c.left_next attributes) _

/-! ## What holds in every run -/

theorem IndexerCall.worker_ne_stopping (c : IndexerCall) (paths : List WString) : c.worker ≠ .stopping paths := by
  cases c <;> nofun

/-- A call leaves the user interface and the session's worker alone, and the thread that it creates is not in
`StopWatchersForRoots`. -/
theorem IndexerThreads.call_frame (s : IndexerThreads) (c : IndexerCall) (created : Bool) :
    (s.call c created).shared.ui = s.shared.ui ∧ (s.call c created).shared.worker = s.shared.worker ∧
      ∀ paths, .phase (.stopping paths) ∈ (s.call c created).gate.running → .phase (.stopping paths) ∈ s.gate.running := by
  rcases s.call_cases c created with ⟨-, hcall⟩ | ⟨-, -, hcall⟩
  · rw [hcall]
    exact ⟨rfl, rfl, fun _ h => h⟩
  · rw [hcall]
    refine ⟨rfl, rfl, fun paths hmem => ?_⟩
    rw [Gate.start] at hmem
    cases created with
    | false => exact hmem
    | true =>
      rcases List.mem_append.1 hmem with hmem | hmem
      · exact hmem
      · exact absurd (Body.phase.inj (List.mem_singleton.1 hmem)).symm (c.worker_ne_stopping paths)

/-- So does the start of the program. -/
theorem IndexerThreads.startIndexing_frame (s : IndexerThreads) (fixedDrives : List WString)
    (contents : Option (IndexPool × UsnMap)) (created : Bool) :
    (s.startIndexing fixedDrives contents created).shared.ui = s.shared.ui ∧
      (s.startIndexing fixedDrives contents created).shared.worker = s.shared.worker ∧
      ∀ paths, .phase (.stopping paths) ∈ (s.startIndexing fixedDrives contents created).gate.running →
        .phase (.stopping paths) ∈ s.gate.running := by
  have hsame : ∀ t : IndexerThreads, t = s → t.shared.ui = s.shared.ui ∧ t.shared.worker = s.shared.worker ∧
      ∀ paths, .phase (.stopping paths) ∈ t.gate.running → .phase (.stopping paths) ∈ s.gate.running := by
    rintro t rfl
    exact ⟨rfl, rfl, fun _ h => h⟩
  unfold startIndexing
  split
  · exact hsame _ rfl
  · split
    · exact s.call_frame .startIndexing created
    · simp only
      split
      · split
        · exact hsame _ rfl
        · exact ⟨rfl, rfl, fun _ h => h⟩
      · exact IndexerThreads.call_frame _ .startIndexing created

/-- What holds goes on holding as long as the threads are created that steps come to create. -/
theorem IndexerThreads.UnderWay.step (h : s.UnderWay) {l : ThreadStep} (hcreated : l.ThreadCreated s) :
    (s.step Γ fixedDrives l).UnderWay := by
  have hgate := ((s.gateStep_step Γ fixedDrives l).exclusive_iff h.gate).2 hcreated
  suffices hrest : ((s.step Γ fixedDrives l).shared.ui = .idle ∨ (s.step Γ fixedDrives l).shared.ui = .stopWatchers) ∧
      ∀ paths, .phase (.stopping paths) ∈ (s.step Γ fixedDrives l).gate.running →
        (s.step Γ fixedDrives l).shared.worker = .stopping paths from ⟨hgate, hrest.1, hrest.2⟩
  cases l with
  | call c created =>
    simp only [IndexerThreads.step]
    split
    · obtain ⟨hui, hworker, hstopping⟩ := s.call_frame c created
      exact ⟨hui ▸ h.ui, fun paths hmem => hworker ▸ h.stopping paths (hstopping paths hmem)⟩
    · exact ⟨h.ui, h.stopping⟩
  | load contents created =>
    simp only [IndexerThreads.step]
    split
    · obtain ⟨hui, hworker, hstopping⟩ := s.startIndexing_frame fixedDrives contents created
      exact ⟨hui ▸ h.ui, fun paths hmem => hworker ▸ h.stopping paths (hstopping paths hmem)⟩
    · exact ⟨h.ui, h.stopping⟩
  | select newPaths =>
    simp only [IndexerThreads.step]
    split <;> exact ⟨h.ui, h.stopping⟩
  | cancel =>
    simp only [IndexerThreads.step]
    split
    · exact ⟨.inr rfl, h.stopping⟩
    · exact ⟨h.ui, h.stopping⟩
  | stopWatchers =>
    simp only [IndexerThreads.step]
    split
    · exact ⟨.inl rfl, h.stopping⟩
    · exact ⟨h.ui, h.stopping⟩
  | watch l => exact ⟨h.ui, h.stopping⟩
  | thread i fs excludedPaths =>
    simp only [IndexerThreads.step]
    split
    · exact ⟨h.ui, h.stopping⟩
    · rename_i body hbody
      obtain ⟨rfl, hrun⟩ := h.gate.toGuarded.running_eq hbody
      split
      · exact ⟨h.ui, h.stopping⟩
      · have hui := body.turn_ui (Γ := Γ) fixedDrives fs excludedPaths s.shared
        have hworker := body.turn_worker (Γ := Γ) fixedDrives fs excludedPaths s.shared
        split
        · rename_i shared next hturn
          rw [hturn] at hui hworker
          refine ⟨hui ▸ h.ui, fun paths hmem => ?_⟩
          rw [Gate.goOn, hrun] at hmem
          exact hworker paths (congrArg some (List.mem_singleton.1 hmem).symm)
        · rename_i shared hturn
          rw [hturn] at hui
          refine ⟨hui ▸ h.ui, fun paths hmem => ?_⟩
          rw [Gate.finish, hrun] at hmem
          exact absurd hmem List.not_mem_nil

/-! ## Coming to rest -/

/-- A step of the thread that runs goes some way, or changes nothing, as it waits for a watcher. -/
theorem IndexerThreads.UnderWay.thread_left (h : s.UnderWay) (fixedDrives : List WString) {body : Body}
    (hrun : s.gate.running = [body]) (fs : FileSystem) (excludedPaths : List WString) :
    (s.step Γ fixedDrives (.thread 0 fs excludedPaths)).left < s.left ∨
      s.step Γ fixedDrives (.thread 0 fs excludedPaths) = s ∧ ¬s.shared.watching.Idle := by
  have hfree : (body.waitsForWatchers && s.gate.running.any Body.holdsWatchers) = false := by
    rw [hrun]
    cases body with
    | writing _ _ => rfl
    | phase worker => cases worker <;> rfl
  have hzero : s.gate.running[0]? = some body := by rw [hrun]; rfl
  have hhead : s.gate.running.head? = some body := by rw [hrun]; rfl
  simp only [IndexerThreads.step, hzero, hfree, Bool.false_eq_true, if_false]
  rcases body.turn_left (Γ := Γ) fixedDrives fs excludedPaths s.shared with hlt | ⟨paths, rfl, hbusy, hturn⟩
  · left
    refine Prod.Lex.toLex_lt_toLex.2 (.inl ?_)
    rw [hhead]
    split
    · rename_i shared next hturn
      rw [hturn] at hlt
      simp only [Gate.goOn, hrun]
      exact hlt
    · rename_i shared hturn
      rw [hturn] at hlt
      simp only [Gate.finish, hrun]
      exact hlt
  · right
    have hworker := h.stopping paths (by rw [hrun]; exact List.mem_singleton_self _)
    have hshared : { s.shared with worker := .stopping paths } = s.shared := by rw [← hworker]
    have hgate : s.gate.goOn 0 (.phase (.stopping paths)) = s.gate := by rw [Gate.goOn, hrun, List.set_cons_zero, ← hrun]
    refine ⟨?_, hbusy⟩
    rw [hturn]
    simp only [hshared, hgate]

/-- Whatever goes on goes some way. -/
theorem IndexerThreads.UnderWay.left_lt (h : s.UnderWay) (hgo : s.GoesOn Γ fixedDrives s') : s'.left < s.left := by
  obtain ⟨l, hl, rfl, hne⟩ := hgo
  cases l with
  | call _ _ | load _ _ | select _ | cancel => exact absurd hl id
  | stopWatchers =>
    simp only [IndexerThreads.step] at hne ⊢
    split at hne
    · rename_i hgo
      obtain ⟨hui, hfree, hidle⟩ := hgo
      rw [if_pos ⟨hui, hfree, hidle⟩]
      refine Prod.Lex.toLex_lt_toLex.2 (.inr ⟨leftOf_congr hfree _ _, Prod.Lex.toLex_lt_toLex.2 ?_⟩)
      have hbusy : ¬s.shared.ui = .idle := by
        rw [hui]
        exact UiTask.noConfusion
      simp only [if_neg hbusy, if_true]
      rcases Nat.eq_zero_or_pos s.shared.watching.left with hzero | hpos
      · exact .inr ⟨hzero.symm, Nat.one_pos⟩
      · exact .inl hpos
    · exact absurd rfl hne
  | thread i fs excludedPaths =>
    cases hbody : s.gate.running[i]? with
    | none =>
      simp only [IndexerThreads.step, hbody] at hne
      exact absurd rfl hne
    | some body =>
      obtain ⟨rfl, hrun⟩ := h.gate.toGuarded.running_eq hbody
      exact (h.thread_left fixedDrives hrun fs excludedPaths).resolve_right (fun hsame => hne hsame.1)
  | watch l =>
    cases l with
    | event _ _ _ => exact absurd hl id
    | apply i attributes =>
      rcases s.shared.watching.apply_left (Γ := Γ) i attributes with hsame | ⟨hlen, hlt⟩
      · simp only [IndexerThreads.step, hsame] at hne
        exact absurd rfl hne
      · refine Prod.Lex.toLex_lt_toLex.2 (.inr ⟨?_, Prod.Lex.toLex_lt_toLex.2 (.inl hlt)⟩)
        exact congrArg (leftOf · s.gate.running.head?) hlen

/-- While a watcher is busy it can go on. -/
theorem IndexerThreads.goesOn_of_busy (Γ : Locale) (fixedDrives : List WString) (hbusy : ¬s.shared.watching.Idle) :
    ∃ s', s.GoesOn Γ fixedDrives s' := by
  obtain ⟨i, hi⟩ := Watching.exists_apply (Γ := Γ) hbusy
  refine ⟨_, .watch (.apply i (fun _ => none)), trivial, rfl, fun hsame => ?_⟩
  have hwatching : s.shared.watching.step Γ (.apply i fun _ => none) = s.shared.watching :=
    congrArg (fun t : IndexerThreads => t.shared.watching) hsame
  have hlt := hi (fun _ => none)
  rw [hwatching] at hlt
  exact absurd hlt (Nat.lt_irrefl _)

/-- Where nothing goes on, the program is at rest. -/
theorem IndexerThreads.UnderWay.atRest (h : s.UnderWay) (hstuck : ∀ s', ¬s.GoesOn Γ fixedDrives s') : s.AtRest := by
  have hidle : s.shared.watching.Idle := by
    by_contra hbusy
    obtain ⟨s', hgo⟩ := goesOn_of_busy Γ fixedDrives hbusy
    exact hstuck s' hgo
  have hworker : s.gate.running = [] := by
    by_contra hne
    obtain ⟨body, hrun⟩ : ∃ body, s.gate.running = [body] :=
      List.length_eq_one_iff.1 (Nat.le_antisymm h.gate.single (List.length_pos_iff.2 hne))
    rcases h.thread_left (Γ := Γ) fixedDrives hrun .empty [] with hlt | ⟨-, hbusy⟩
    · refine hstuck _ ⟨.thread 0 .empty [], trivial, rfl, fun hsame => ?_⟩
      rw [hsame] at hlt
      exact absurd hlt (lt_irrefl _)
    · exact hbusy hidle
  have hui : s.shared.ui = .idle := by
    refine h.ui.resolve_right (fun hui => ?_)
    have hfree : s.gate.running.any Body.holdsWatchers = false := by rw [hworker]; rfl
    refine hstuck _ ⟨.stopWatchers, trivial, rfl, fun hsame => ?_⟩
    have hafter := congrArg (fun t : IndexerThreads => t.shared.ui) hsame
    simp only [IndexerThreads.step, if_pos (⟨hui, hfree, hidle⟩ : _ ∧ _ ∧ _)] at hafter
    rw [hui] at hafter
    cases hafter
  exact ⟨hui, hidle, hworker, by rw [s.waitForCompletion_eq]; exact h.gate.opens hworker⟩

/-- After every run of calls, threads, watchers and the user interface in which every thread is created that a step comes to
create: however the threads go on that are under way, and whatever the file system is then, they do not go on for ever, and where
none of them can go on, `Cancel` is through, the watchers are idle, no worker runs, and `WaitForCompletion` returns. -/
theorem threads_come_to_rest (Γ : Locale) (fixedDrives : List WString) (eventCreated : Bool) (selectedDrives : List WString)
    (store : IndexStore) (steps : List ThreadStep)
    (h : Meets (fun s l => l.ThreadCreated s) (IndexerThreads.step Γ fixedDrives) (.launch eventCreated selectedDrives store) steps) :
    let s := final (IndexerThreads.step Γ fixedDrives) (.launch eventCreated selectedDrives store) steps
    (∀ run : Nat → IndexerThreads, run 0 = s → ∃ n, ¬(run n).GoesOn Γ fixedDrives (run (n + 1))) ∧
      ∀ s', Relation.ReflTransGen (IndexerThreads.GoesOn Γ fixedDrives) s s' → (∀ s'', ¬s'.GoesOn Γ fixedDrives s'') → s'.AtRest := by
  intro s
  have hlaunch : (IndexerThreads.launch eventCreated selectedDrives store).UnderWay :=
    ⟨Gate.exclusive_new eventCreated, .inl rfl, fun _ hmem => absurd hmem List.not_mem_nil⟩
  have hs : s.UnderWay := (along_of_step (fun _ _ hs hcreated => hs.step hcreated) hlaunch h).final
  have hinternal : ∀ s s', s.UnderWay → IndexerThreads.GoesOn Γ fixedDrives s s' → s'.UnderWay := by
    rintro s s' hs ⟨l, hl, rfl, -⟩
    refine hs.step ?_
    cases l with
    | call _ _ | load _ _ | select _ | cancel => exact absurd hl id
    | stopWatchers | thread _ _ _ | watch _ => exact fun _ hnone => (nomatch hnone)
  have hrest : ComesToRest (IndexerThreads.GoesOn Γ fixedDrives) IndexerThreads.AtRest s :=
    comesToRest hinternal (fun _ _ hs hgo => hs.left_lt hgo) (fun _ hs hstuck => hs.atRest hstuck) hs
  exact ⟨fun run hstart => hrest.stands_still run hstart, hrest.done_of_stuck⟩

namespace ClosingWitness

/-- A rebuild is asked for, and then the program is closed. -/
def steps : List ThreadStep := [.call .startIndexing true, .cancel]

theorem threads_come_to_rest_cancelled :
    let s := final (IndexerThreads.step .c []) (.launch true [] .empty) steps
    ∀ s', Relation.ReflTransGen (IndexerThreads.GoesOn .c []) s s' → (∀ s'', ¬s'.GoesOn .c [] s'') → s'.AtRest :=
  (threads_come_to_rest .c [] true [] .empty steps ⟨fun _ h => (Option.some.inj h).symm, fun _ h => (nomatch h), trivial⟩).2

end ClosingWitness

end WinIndex
