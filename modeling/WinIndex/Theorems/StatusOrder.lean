import WinIndex.Lib.Rest
import WinIndex.Lib.Trace
import WinIndex.StatusMessages
import WinIndex.Theorems.ReindexInterval

/-!
# What the window shows of the indexer

The threads of an operation post in any order, but all behind its first status and before its last one, and no operation starts
before the one before it is through. So the search bar is disabled while an operation is under way, as far as its messages have
been handled, and it never stays disabled: the threads and the messages come to rest, and then the last message handled is that of
a finished operation, unless `CreateThread` has failed.
-/

namespace WinIndex

open Trace Rest

/-! ## The number of files in the status bar -/

/-- The number that stands in front of the first blank, without its commas. -/
def readFileCount (text : WString) : Nat := digitsValue 0 ((text.takeWhile (fun c => c ≠ 0x20)).filter (fun c => c ≠ comma))

theorem filter_insertIdx_comma (s : WString) (i : Nat) :
    (s.insertIdx i comma).filter (fun c => c ≠ comma) = s.filter (fun c => c ≠ comma) := by
  induction s generalizing i with
  | nil => cases i <;> rfl
  | cons c s ih =>
    cases i with
    | zero => rfl
    | succ i => rw [List.insertIdx_succ_cons, List.filter_cons, List.filter_cons, ih]

theorem filter_insertCommas (s : WString) (i : Nat) :
    (insertCommas s i).filter (fun c => c ≠ comma) = s.filter (fun c => c ≠ comma) := by
  fun_induction insertCommas s i with
  | case1 s => rfl
  | case2 s i hi ih =>
    rw [ih, filter_insertIdx_comma]

theorem mem_insertCommas {s : WString} {i : Nat} {c : WChar} (h : c ∈ insertCommas s i) : c = comma ∨ c ∈ s := by
  fun_induction insertCommas s i with
  | case1 s => exact .inr h
  | case2 s i hi ih =>
    rcases ih h with hcomma | hmem
    · exact .inl hcomma
    · by_cases hle : i ≤ s.length
      · exact (List.mem_insertIdx hle).1 hmem
      · rw [List.insertIdx_of_length_lt (Nat.not_le.1 hle)] at hmem
        exact .inr hmem

/-- The digits of a number, and commas among them. -/
theorem readFileCount_formatFileCount (n : UInt64) (rest : WString) : readFileCount (formatFileCount n ++ 0x20 :: rest) = n.toNat := by
  have hdigits : ∀ c ∈ toWstringU64 n, IsDigit c := fun c hc => isDigit_of_mem_toDigits hc
  have hblank : ∀ c ∈ formatFileCount n, c ≠ 0x20 := by
    rintro c hc rfl
    rcases mem_insertCommas hc with hcomma | hmem
    · exact absurd hcomma (by decide)
    · exact absurd (hdigits _ hmem) (by decide)
  have hnumber : (formatFileCount n ++ 0x20 :: rest).takeWhile (fun c => c ≠ 0x20) = formatFileCount n := by
    rw [List.takeWhile_append_of_pos (by simpa using hblank)]
    simp
  have hplain : (toWstringU64 n).filter (fun c => c ≠ comma) = toWstringU64 n := by
    rw [List.filter_eq_self]
    intro c hc
    have hne : c ≠ comma := by
      rintro rfl
      exact absurd (hdigits _ hc) (by decide)
    simpa using hne
  rw [readFileCount, hnumber, formatFileCount, filter_insertCommas, hplain]
  exact digitsValue_toDigits n.toNat

/-- The text of a finished operation says how many files it reports, if there are locations to show. -/
theorem readFileCount_text {filesIndexed ageSeconds : UInt64} {locations : List WString} (h : locations ≠ []) :
    readFileCount (emitStatusDone filesIndexed locations ageSeconds).text = filesIndexed.toNat := by
  have htext : ∃ rest, (emitStatusDone filesIndexed locations ageSeconds).text = formatFileCount filesIndexed ++ 0x20 :: rest := by
    rw [IndexerStatus.text, if_pos ⟨rfl, h⟩]
    exact ⟨_, by simp only [List.append_assoc]; rfl⟩
  obtain ⟨rest, htext⟩ := htext
  rw [htext, readFileCount_formatFileCount]

/-! ## The order of the messages -/

/-- The window shows what a finished operation has reported. If there are locations to show, the number of files can be read. -/
structure StatusBar.Shows (bar : StatusBar) (filesIndexed : UInt64) (locations : List WString) (ageSeconds : UInt64) : Prop where
  enabled : bar.enabled = true
  text : bar.statusText = (emitStatusDone filesIndexed locations ageSeconds).text
  count : locations ≠ [] → readFileCount bar.statusText = filesIndexed.toNat

/-- The window as it was created, or as the message of a finished operation leaves it. -/
def StatusBar.Reported (bar : StatusBar) : Prop :=
  bar = .initial ∨ ∃ filesIndexed locations ageSeconds, bar.Shows filesIndexed locations ageSeconds

/-- What the window will be when it has handled all that was posted. -/
def StatusSystem.settled (s : StatusSystem) : StatusBar := s.window.settled StatusBar.onIndexerStatus

/-- How far the thread has come tells what the last message posted says. -/
def StatusSystem.InOrder (s : StatusSystem) : Prop :=
  match s.worker with
  | .none | .running _ .reported => s.settled.Reported
  | .running _ .preparing => s.settled.enabled = false
  | .running _ (.scanning jobs) => s.settled.enabled = false ∧ ∀ job ∈ jobs, ∀ status ∈ job, status.hasIndex = false
  | .running c .announcing => c ≠ .none
  | .notCreated => True

section

variable {s : StatusSystem}

theorem settled_post (s : StatusSystem) (status : IndexerStatus) : (s.post status).settled = ⟨status.hasIndex, status.text⟩ :=
  Mailbox.settled_send _ _ _

/-- The last message of an operation. -/
theorem reported_settled_post (s : StatusSystem) (filesIndexed : UInt64) (locations : List WString) (ageSeconds : UInt64) :
    (s.post (emitStatusDone filesIndexed locations ageSeconds)).settled.Reported := by
  rw [settled_post]
  exact .inr ⟨filesIndexed, locations, ageSeconds, rfl, rfl, readFileCount_text⟩

/-- The messages of a scan are not those of an index. -/
theorem hasIndex_scanStatuses {fs : FileSystem} {filesFound : WString → Nat} {root : WString} :
    ∀ status ∈ scanStatuses fs filesFound root, status.hasIndex = false := by
  intro status h
  rw [scanStatuses, List.mem_cons, List.mem_map] at h
  rcases h with rfl | ⟨k, -, rfl⟩ <;> rfl

theorem hasIndex_progress {fs : FileSystem} {filesFound : WString → Nat} {selectedDrives : List WString} {c : IndexerCall} :
    ∀ job ∈ c.progress fs filesFound selectedDrives, ∀ status ∈ job, status.hasIndex = false := by
  intro job hjob status hstatus
  cases c with
  | startIndexing =>
    obtain ⟨root, -, rfl⟩ := List.mem_map.1 hjob
    exact hasIndex_scanStatuses status hstatus
  | indexPaths paths =>
    rw [List.mem_singleton.1 hjob] at hstatus
    obtain ⟨root, -, hmem⟩ := List.mem_flatMap.1 hstatus
    exact hasIndex_scanStatuses status hmem
  | removePaths _ | none => exact absurd hjob List.not_mem_nil

theorem hasIndex_announcement {c : IndexerCall} (h : c ≠ .none) : c.announcement.hasIndex = false := by
  cases c with
  | none => exact absurd rfl h
  | startIndexing | indexPaths _ | removePaths _ => rfl

theorem StatusSystem.InOrder.call (h : s.InOrder) (c : IndexerCall) (created : Bool) : (s.call c created).InOrder := by
  rw [StatusSystem.call]
  split
  · split
    · exact h
    · rename_i hc
      cases created with
      | true => exact hc
      | false => trivial
  · exact h

/-- A call is made when no thread is at work, whatever the window is going to show. -/
theorem inOrder_call_startIndexing (hworker : s.worker = .none) (created : Bool) : (s.call .startIndexing created).InOrder := by
  rw [StatusSystem.call, hworker, if_neg (by decide)]
  cases created with
  | true => exact (by decide : IndexerCall.startIndexing ≠ .none)
  | false => trivial

theorem StatusSystem.InOrder.startIndexing (h : s.InOrder) (index : Option (UInt64 × UInt64)) (created : Bool) :
    (s.startIndexing index created).InOrder := by
  unfold StatusSystem.startIndexing
  split
  · rename_i entryCount ageSeconds hworker
    split
    · -- the index was loaded
      have hnone : ∀ status, ((s.post status).post (emitStatusDone entryCount s.selectedDrives ageSeconds)).InOrder := by
        intro status
        rw [StatusSystem.InOrder]
        split
        · exact reported_settled_post _ _ _ _
        all_goals
          rename_i hother
          exact absurd (hworker.symm.trans hother) (by simp)
      exact hnone _
    · -- it was empty
      exact inOrder_call_startIndexing (s := (s.post _).post _) hworker created
  · exact h.call _ created
  · exact h

theorem StatusSystem.InOrder.thread (h : s.InOrder) (fs : FileSystem) (filesFound : WString → Nat) (filesIndexed : UInt64) :
    (s.thread fs filesFound filesIndexed).InOrder := by
  rw [StatusSystem.InOrder] at h
  rw [StatusSystem.thread]
  split
  · rename_i c hworker
    rw [hworker] at h
    show (s.post c.announcement).settled.enabled = false
    rw [settled_post]
    exact hasIndex_announcement h
  · rename_i c hworker
    rw [hworker] at h
    exact ⟨h, hasIndex_progress⟩
  · rename_i c jobs hworker
    split
    · exact reported_settled_post _ _ _ _
    · rw [StatusSystem.InOrder, hworker]
      rwa [hworker] at h
  · rename_i c hworker
    rw [hworker] at h
    exact h
  · rename_i hworker
    rw [StatusSystem.InOrder, hworker]
    rwa [hworker] at h
  · rename_i hworker
    rw [StatusSystem.InOrder, hworker]
    trivial

theorem StatusSystem.InOrder.scan (h : s.InOrder) (i : Nat) : (s.scan i).InOrder := by
  rw [StatusSystem.scan]
  split
  · rename_i c jobs hworker
    split
    · rename_i status rest hjob
      rw [StatusSystem.InOrder, hworker] at h
      obtain ⟨-, hjobs⟩ := h
      have hmem := List.mem_of_getElem? hjob
      refine ⟨?_, fun job hnew => ?_⟩
      · show (s.post status).settled.enabled = false
        rw [settled_post]
        exact hjobs _ hmem status List.mem_cons_self
      · rcases List.mem_or_eq_of_mem_set hnew with hold | rfl
        · exact hjobs job hold
        · exact fun status hstatus => hjobs _ hmem status (List.mem_cons_of_mem _ hstatus)
    · exact h
  · exact h

theorem StatusSystem.InOrder.step (h : s.InOrder) (l : StatusStep) : (s.step l).InOrder := by
  cases l with
  | call c created => exact h.call c created
  | load index created => exact h.startIndexing index created
  | select selectedDrives => exact h
  | thread fs filesFound filesIndexed => exact h.thread fs filesFound filesIndexed
  | scan i => exact h.scan i
  | message =>
    have hsettled : (s.step .message).settled = s.settled := Mailbox.settled_receive _ _
    rw [StatusSystem.InOrder, hsettled]
    exact h

/-! ## What goes on comes to rest -/

/-- The thread, a scan or the window goes on, and something changes. -/
def StatusSystem.GoesOn (s s' : StatusSystem) : Prop :=
  s' ≠ s ∧ ((∃ fs filesFound filesIndexed, s.step (.thread fs filesFound filesIndexed) = s') ∨ (∃ i, s.step (.scan i) = s') ∨
    s.step .message = s')

/-- How far the thread has to go. -/
def StatusWorker.stage : StatusWorker → Nat
  | .none | .notCreated => 0
  | .running _ .reported => 1
  | .running _ (.scanning _) => 2
  | .running _ .preparing => 3
  | .running _ .announcing => 4

/-- What the scans have still to post. -/
def StatusWorker.toPost : StatusWorker → Nat
  | .running _ (.scanning jobs) => (jobs.map List.length).sum
  | _ => 0

/-- What is left: first the way of the thread, then what the scans post, then the messages in the queue. -/
def StatusSystem.left (s : StatusSystem) : ℕ ×ₗ ℕ ×ₗ ℕ :=
  toLex (s.worker.stage, toLex (s.worker.toPost, s.window.queue.length))

theorem left_lt_of_stage_lt {s' : StatusSystem} (h : s'.worker.stage < s.worker.stage) : s'.left < s.left :=
  Prod.Lex.toLex_lt_toLex.2 (.inl h)

theorem left_lt_of_toPost_lt {s' : StatusSystem} (hstage : s'.worker.stage = s.worker.stage)
    (h : s'.worker.toPost < s.worker.toPost) : s'.left < s.left :=
  Prod.Lex.toLex_lt_toLex.2 (.inr ⟨hstage, Prod.Lex.toLex_lt_toLex.2 (.inl h)⟩)

theorem left_lt_of_queue_lt {s' : StatusSystem} (hworker : s'.worker = s.worker)
    (h : s'.window.queue.length < s.window.queue.length) : s'.left < s.left :=
  Prod.Lex.toLex_lt_toLex.2
    (.inr ⟨by rw [hworker], Prod.Lex.toLex_lt_toLex.2 (.inr ⟨by rw [hworker], h⟩)⟩)

/-- The thread goes on, or waits. -/
theorem thread_eq_or_lt (fs : FileSystem) (filesFound : WString → Nat) (filesIndexed : UInt64) :
    s.thread fs filesFound filesIndexed = s ∨ (s.thread fs filesFound filesIndexed).left < s.left := by
  have hstage : ∀ {s' : StatusSystem} {worker : StatusWorker}, s.worker = worker → s'.worker.stage < worker.stage →
      s'.left < s.left := by
    rintro s' worker rfl h
    exact left_lt_of_stage_lt h
  unfold StatusSystem.thread
  split
  · rename_i hworker
    exact .inr (hstage hworker (by decide : 3 < 4))
  · rename_i hworker
    exact .inr (hstage hworker (by decide : 2 < 3))
  · rename_i hworker
    split
    · exact .inr (hstage hworker (by decide : 1 < 2))
    · exact .inl rfl
  · rename_i hworker
    exact .inr (hstage hworker (by decide : 0 < 1))
  · exact .inl rfl
  · exact .inl rfl

theorem sum_length_set_lt {jobs : List (List IndexerStatus)} {i : Nat} {status : IndexerStatus} {rest : List IndexerStatus}
    (h : jobs[i]? = some (status :: rest)) : ((jobs.set i rest).map List.length).sum < (jobs.map List.length).sum := by
  induction jobs generalizing i with
  | nil => cases h
  | cons job jobs ih =>
    cases i with
    | zero =>
      cases h
      simp only [List.set_cons_zero, List.map_cons, List.sum_cons, List.length_cons]
      omega
    | succ i =>
      have := ih (i := i) h
      simp only [List.set_cons_succ, List.map_cons, List.sum_cons]
      omega

/-- A scan posts its next status, or has nothing to post. -/
theorem scan_eq_or_lt (i : Nat) : s.scan i = s ∨ (s.scan i).left < s.left := by
  unfold StatusSystem.scan
  split
  · rename_i c jobs hworker
    split
    · rename_i status rest hjob
      refine .inr (left_lt_of_toPost_lt (by rw [hworker]; rfl) ?_)
      rw [hworker]
      exact sum_length_set_lt hjob
    · exact .inl rfl
  · exact .inl rfl

/-- The window handles a message, or its queue is empty. -/
theorem message_eq_or_lt : s.step .message = s ∧ s.window.queue = [] ∨ (s.step .message).left < s.left := by
  obtain ⟨⟨bar, queue⟩, selectedDrives, worker⟩ := s
  cases queue with
  | nil => exact .inl ⟨rfl, rfl⟩
  | cons status queue => exact .inr (left_lt_of_queue_lt rfl (Nat.lt_succ_self _))

theorem StatusSystem.GoesOn.left_lt {s' : StatusSystem} (h : s.GoesOn s') : s'.left < s.left := by
  obtain ⟨hne, ⟨fs, filesFound, filesIndexed, rfl⟩ | ⟨i, rfl⟩ | rfl⟩ := h
  · exact (thread_eq_or_lt fs filesFound filesIndexed).resolve_left hne
  · exact (scan_eq_or_lt i).resolve_left hne
  · exact message_eq_or_lt.resolve_left (fun h => hne h.1)

/-- All messages are handled. No thread is at work, and the window shows what a finished operation has reported or is as it was
created; or the thread could not be created. -/
def StatusSystem.AtRest (s : StatusSystem) : Prop :=
  s.window.queue = [] ∧ (s.worker = .none ∧ s.window.state.Reported ∨ s.worker = .notCreated)

/-- A system in which nothing goes on is at rest. -/
theorem StatusSystem.InOrder.atRest (h : s.InOrder) (hstuck : ∀ s', ¬s.GoesOn s') : s.AtRest := by
  have hstep : ∀ s', ((∃ fs filesFound filesIndexed, s.step (.thread fs filesFound filesIndexed) = s') ∨
      (∃ i, s.step (.scan i) = s') ∨ s.step .message = s') → s' = s :=
    fun s' hs' => not_not.1 (fun hne => hstuck s' ⟨hne, hs'⟩)
  have hthread : s.thread .empty (fun _ => 0) 0 = s := hstep _ (.inl ⟨_, _, _, rfl⟩)
  have hqueue : s.window.queue = [] := by
    rcases message_eq_or_lt (s := s) with h | h
    · exact h.2
    · rw [hstep _ (.inr (.inr rfl))] at h
      exact absurd h (lt_irrefl _)
  have hstage := congrArg (fun s => s.worker.stage) hthread
  refine ⟨hqueue, ?_⟩
  have hsettled : s.settled = s.window.state := Mailbox.settled_of_queue_eq_nil _ hqueue
  rw [StatusSystem.InOrder] at h
  unfold StatusSystem.thread at hstage
  cases hworker : s.worker with
  | none =>
    rw [hworker, hsettled] at h
    exact .inl ⟨rfl, h⟩
  | notCreated => exact .inr rfl
  | running c place =>
    exfalso
    cases place with
    | announcing =>
      rw [hworker] at hstage
      exact (by decide : (3 : Nat) ≠ 4) hstage
    | preparing =>
      rw [hworker] at hstage
      exact (by decide : (2 : Nat) ≠ 3) hstage
    | reported =>
      rw [hworker] at hstage
      exact (by decide : (0 : Nat) ≠ 1) hstage
    | scanning jobs =>
      rw [hworker] at hstage
      by_cases hall : jobs.all List.isEmpty
      · simp only [if_pos hall] at hstage
        exact (by decide : (1 : Nat) ≠ 2) hstage
      · -- a scan has something to post
        rw [List.all_eq_true] at hall
        obtain ⟨job, hnot⟩ := Classical.not_forall.1 hall
        obtain ⟨hjob, hne⟩ := Classical.not_imp.1 hnot
        obtain ⟨i, hi⟩ := List.mem_iff_getElem?.1 hjob
        obtain ⟨status, rest, rfl⟩ := List.exists_cons_of_ne_nil (l := job) (by simpa using hne)
        have hscan : s.scan i = s := hstep _ (.inr (.inl ⟨i, rfl⟩))
        have hpost := congrArg (fun s => s.worker.toPost) hscan
        unfold StatusSystem.scan at hpost
        rw [hworker] at hpost
        simp only [hi] at hpost
        exact absurd hpost (Nat.ne_of_lt (sum_length_set_lt hi))

/-- The thread of an operation is behind its first status and before its last one. -/
def StatusSystem.Busy (s : StatusSystem) : Prop :=
  match s.worker with
  | .running _ .preparing | .running _ (.scanning _) => True
  | _ => False

/-- The search bar is disabled while an operation is under way and all its messages have been handled. -/
def StatusSystem.ShowsBusy (s : StatusSystem) : Prop := s.Busy → s.window.queue = [] → s.window.state.enabled = false

theorem StatusSystem.InOrder.showsBusy (h : s.InOrder) : s.ShowsBusy := by
  intro hbusy hqueue
  have hsettled : s.settled = s.window.state := Mailbox.settled_of_queue_eq_nil _ hqueue
  rw [StatusSystem.InOrder, hsettled] at h
  rw [StatusSystem.Busy] at hbusy
  cases hworker : s.worker with
  | none | notCreated =>
    rw [hworker] at hbusy
    exact hbusy.elim
  | running c place =>
    rw [hworker] at h hbusy
    cases place with
    | announcing | reported => exact hbusy.elim
    | preparing => exact h
    | scanning jobs => exact h.1

/-- After every run of calls, threads, scans and messages, in every order: while an operation is under way the search bar is
disabled as soon as the messages are handled; and however the threads and the window go on, they do not go on for ever, and where
nothing goes on the search bar is enabled again and the last message handled is that of a finished operation, unless a thread could
not be created. -/
theorem status_comes_to_rest (selectedDrives : List WString) (steps : List StatusStep) :
    let s := final StatusSystem.step (.initial selectedDrives) steps
    s.ShowsBusy ∧ ComesToRest StatusSystem.GoesOn StatusSystem.AtRest s := by
  intro s
  have hinitial : (StatusSystem.initial selectedDrives).InOrder := .inl rfl
  have hs : s.InOrder := (along_of_step (fun _ l h _ => h.step l) hinitial (meets_trivial _ _ steps)).final
  have hgo : ∀ s s' : StatusSystem, s.InOrder → s.GoesOn s' → s'.InOrder := by
    rintro s s' hs ⟨-, ⟨fs, filesFound, filesIndexed, rfl⟩ | ⟨i, rfl⟩ | rfl⟩
    · exact hs.step _
    · exact hs.step _
    · exact hs.step _
  exact ⟨hs.showsBusy, comesToRest hgo (fun _ _ _ h => h.left_lt) (fun _ h hstuck => h.atRest hstuck) hs⟩

end

end WinIndex
