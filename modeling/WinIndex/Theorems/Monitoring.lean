import WinIndex.Watcher
import WinIndex.Lemmas.Events

/-!
# The index follows the watched tree

However late the events of a watched tree are applied, the index ends up with the files of the tree, as long as no directory
is moved with a file in it and no removal leaves a path live for good. A rename of a directory is one pair of names: the
files below it move without an event of their own.
-/

namespace WinIndex

open PathTree Trace

/-- Once the events have been applied, exactly the files of the tree are live. -/
def Monitor.Tracks (Γ : Locale) (s : Monitor) : Prop :=
  s.pending = [] → ∀ path, s.store.pool.IsLive Γ path ↔ s.tree.IsFile path

/-- A rename moves no file: unless it changes only the case of the name, nothing within the directory is one. -/
def TreeOp.MovesNoFile (Γ : Locale) (root : WString) (t : FileTree) : TreeOp → Prop
  | .renameDirectory oldName newName =>
    treePath Γ root newName ≠ treePath Γ root oldName →
      ∀ path, Within backslash (treePath Γ root oldName) path → ¬t.IsFile path
  | _ => True

/-- The types of the events for a path, the oldest first. -/
def typesFor (Γ : Locale) (path : WString) (evts : List FileChangeEvent) : List FileChangeType :=
  (evts.filter (fun evt => decide (Γ.lower evt.path = path))).map FileChangeEvent.type

/-- A removal leaves no path live for good: it is live at most once, or is a file again, or another removal is to come. -/
def Monitor.Removes (Γ : Locale) (s : Monitor) (path : WString) : Prop :=
  s.store.pool.liveCount Γ path ≤ 1 ∨ s.tree.IsFile path ∨ .removed ∈ typesFor Γ path s.pending.tail

/-- A step the index can follow. -/
def MonitorStep.Follows (Γ : Locale) (root : WString) (s : Monitor) : MonitorStep → Prop
  | .op treeOp => treeOp.MovesNoFile Γ root s.tree
  | .deliver => ∀ evt ∈ s.pending.head?, evt.type = .removed → s.Removes Γ (Γ.lower evt.path)

/-- The pool has room for the entry an event may add. -/
def MonitorStep.HasRoom (s : Monitor) : MonitorStep → Prop
  | .op _ => True
  | .deliver => ∀ evt ∈ s.pending.head?, s.store.pool.Fits evt.path ∧ s.store.pool.entryMeta.length < 2 ^ 32

/-! ## One path -/

/-- What the index knows of a path agrees with the tree, but for the events that are pending: a file is live or the last of
them will add it, and what is live without being a file will be removed. -/
structure Agrees (isFile live : Prop) (pending : List FileChangeType) : Prop where
  added : isFile → pending.getLast? = some .added ∨ (pending = [] ∧ live)
  removed : live → isFile ∨ .removed ∈ pending

/-- The events of an operation say what becomes of a path: if it is a file then, the last one adds it, and if it was one and
no longer is, one removes it. A path without an event is a file if it was. -/
structure Reported (isFile isFile' : Prop) (types : List FileChangeType) : Prop where
  unchanged : types = [] → (isFile' ↔ isFile)
  added : types ≠ [] → isFile' → types.getLast? = some .added
  removed : types ≠ [] → isFile → isFile' ∨ .removed ∈ types

variable {isFile isFile' live live' : Prop} {pending types : List FileChangeType}

theorem Agrees.iff (h : Agrees isFile live []) : live ↔ isFile := by
  constructor
  · intro hl
    exact (h.removed hl).resolve_right List.not_mem_nil
  · intro hf
    rcases h.added hf with hlast | ⟨-, hl⟩
    · cases hlast
    · exact hl

theorem agrees_nil (h : live ↔ isFile) : Agrees isFile live [] := ⟨fun hf => .inr ⟨rfl, h.2 hf⟩, fun hl => .inl (h.1 hl)⟩

/-- An operation whose events say what becomes of the path keeps the agreement. -/
theorem Agrees.report (h : Agrees isFile live pending) (hr : Reported isFile isFile' types) :
    Agrees isFile' live (pending ++ types) := by
  by_cases hnil : types = []
  · have hsame := hr.unchanged hnil
    rw [hnil, List.append_nil]
    exact ⟨fun hf => h.added (hsame.1 hf), fun hl => (h.removed hl).imp_left hsame.2⟩
  · constructor
    · intro hf
      rw [List.getLast?_append_of_ne_nil _ hnil]
      exact .inl (hr.added hnil hf)
    · intro hl
      rcases h.removed hl with hf | hmem
      · exact (hr.removed hnil hf).imp_right (List.mem_append_right _)
      · exact .inr (List.mem_append_left _ hmem)

/-- Behind a first event the last one is the last. -/
theorem getLast?_of_cons {type : FileChangeType} (h : (type :: pending).getLast? = some .added) :
    pending.getLast? = some .added ∨ (pending = [] ∧ type = .added) := by
  cases pending with
  | nil => exact .inr ⟨rfl, by simpa using h⟩
  | cons t ts => exact .inl (by rwa [List.getLast?_cons_cons] at h)

/-- An `Added` event makes the path live, if it is a file. -/
theorem Agrees.deliver_added (h : Agrees isFile live (.added :: pending)) (hl : live' ↔ live ∨ isFile) :
    Agrees isFile live' pending := by
  constructor
  · intro hf
    rcases h.added hf with hlast | ⟨hnil, -⟩
    · exact (getLast?_of_cons hlast).imp_right (fun hp => ⟨hp.1, hl.2 (.inr hf)⟩)
    · cases hnil
  · intro hlive
    rcases hl.1 hlive with hlive | hf
    · refine (h.removed hlive).imp_right (fun hmem => ?_)
      rcases List.mem_cons.1 hmem with heq | hmem
      · cases heq
      · exact hmem
    · exact .inl hf

/-- A `Removed` event may leave the path live if it is a file, or will be removed once more. -/
theorem Agrees.deliver_removed (h : Agrees isFile live (.removed :: pending)) (hl : live' → isFile ∨ .removed ∈ pending) :
    Agrees isFile live' pending := by
  constructor
  · intro hf
    rcases h.added hf with hlast | ⟨hnil, -⟩
    · rcases getLast?_of_cons hlast with hlast | ⟨-, heq⟩
      · exact .inl hlast
      · cases heq
    · cases hnil
  · exact hl

/-- A path that is no file, before and after, may have any events. -/
theorem reported_of_not (h : ¬isFile) (h' : ¬isFile') : Reported isFile isFile' types :=
  ⟨fun _ => iff_of_false h' h, fun _ hf => absurd hf h', fun _ hf => absurd hf h⟩

theorem reported_nil (h : isFile' ↔ isFile) : Reported isFile isFile' [] :=
  ⟨fun _ => h, fun hne => absurd rfl hne, fun hne => absurd rfl hne⟩

/-- A path that is a file after the operation, with its addition reported last. -/
theorem reported_added (h' : isFile') (types : List FileChangeType) : Reported isFile isFile' (types ++ [.added]) :=
  ⟨fun hnil => absurd hnil (by simp), fun _ _ => by simp, fun _ _ => .inl h'⟩

/-- A path that is no file after the operation, with its removal reported. -/
theorem reported_removed (h' : ¬isFile') : Reported isFile isFile' [.removed] :=
  ⟨fun hnil => absurd hnil (by simp), fun _ hf => absurd hf h', fun _ _ => .inr (by simp)⟩

/-! ## The operations -/

variable {Γ : Locale} {root : WString} {t t' : FileTree}

theorem typesFor_append (path : WString) (evts evts' : List FileChangeEvent) :
    typesFor Γ path (evts ++ evts') = typesFor Γ path evts ++ typesFor Γ path evts' := by
  simp [typesFor]

theorem typesFor_cons (path : WString) (evt : FileChangeEvent) (evts : List FileChangeEvent) :
    typesFor Γ path (evt :: evts) =
      if Γ.lower evt.path = path then evt.type :: typesFor Γ path evts else typesFor Γ path evts := by
  by_cases h : Γ.lower evt.path = path <;> simp [typesFor, h]

theorem typesFor_nil (path : WString) : typesFor Γ path [] = [] := rfl

/-- The event of a record is for the path of its name. -/
theorem typesFor_eventOf (path : WString) (action : FileAction) (name : WString) (evts : List FileChangeEvent) :
    typesFor Γ path (ChangeWatcher.eventOf root action name :: evts) =
      if treePath Γ root name = path then (ChangeWatcher.eventOf root action name).type :: typesFor Γ path evts
      else typesFor Γ path evts := typesFor_cons path _ evts

theorem createFile_eq_some {path : WString} {fad : AttributeData} (hfad : fad.isDirectory = false)
    (h : FileTree.createFile t path fad = some t') (p : WString) : t'.IsFile p ↔ p = path ∨ t.IsFile p := by
  unfold FileTree.createFile at h
  split at h
  · cases h
    exact Tree.isFile_create hfad p
  · cases h

theorem deleteFile_eq_some {path : WString} (h : FileTree.deleteFile t path = some t') (p : WString) :
    t'.IsFile p ↔ t.IsFile p ∧ p ≠ path := by
  unfold FileTree.deleteFile at h
  split at h
  · cases h
    exact Tree.isFile_erase p
  · cases h

/-- A file that is renamed is a file at its new path, and no longer at the old one unless that is the same. -/
theorem renameFile_eq_some {oldName newName : WString} (h : (TreeOp.renameFile oldName newName).apply Γ root t = some t')
    (p : WString) :
    t'.IsFile p ↔ p = treePath Γ root newName ∨ (t.IsFile p ∧ p ≠ treePath Γ root oldName) := by
  simp only [TreeOp.apply] at h
  cases hnode : t.node (treePath Γ root oldName) with
  | none =>
    rw [hnode] at h
    cases h
  | some fad =>
    rw [hnode] at h
    simp only at h
    split at h
    · cases h
    · rename_i hdir
      have hdir : fad.isDirectory = false := by simpa using hdir
      split at h
      · -- only the case of the name changes
        rename_i hsame
        cases h
        have hfile : t.IsFile (treePath Γ root oldName) := ⟨fad, hnode, hdir⟩
        rw [hsame]
        by_cases hp : p = treePath Γ root oldName
        · simp [hp, hfile]
        · simp [hp]
      · obtain ⟨t₁, hdel, hcreate⟩ := Option.bind_eq_some_iff.1 h
        rw [createFile_eq_some hdir hcreate, deleteFile_eq_some hdel]

/-- A directory that is renamed is no file, nor is there one at its new path; what moves no file leaves every file. -/
theorem renameDirectory_eq_some {oldName newName : WString}
    (h : (TreeOp.renameDirectory oldName newName).apply Γ root t = some t') :
    ¬t.IsFile (treePath Γ root oldName) ∧ ¬t.IsFile (treePath Γ root newName) ∧
      ((TreeOp.renameDirectory oldName newName).MovesNoFile Γ root t → ∀ p, t'.IsFile p ↔ t.IsFile p) := by
  simp only [TreeOp.apply] at h
  split at h
  · rename_i hdir
    have hold : ¬t.IsFile (treePath Γ root oldName) := fun hf => Tree.not_isDir_of_isFile hf hdir
    split at h
    · rename_i hsame
      cases h
      rw [hsame]
      exact ⟨hold, hold, fun _ _ => Iff.rfl⟩
    · unfold FileTree.moveDirectory at h
      split at h
      · rename_i hne hfree
        cases h
        exact ⟨hold, Tree.not_isFile_of_none hfree.1, fun hnone p => Tree.isFile_move (hnone hne) p⟩
      · cases h
  · cases h

/-- The events of an operation that moves no file say what becomes of every path. -/
theorem reported_events {op : TreeOp} (h : op.apply Γ root t = some t') (hno : op.MovesNoFile Γ root t) (path : WString) :
    Reported (t.IsFile path) (t'.IsFile path) (typesFor Γ path (op.events root)) := by
  cases op with
  | createFile name fad =>
    simp only [TreeOp.apply] at h
    split at h
    · cases h
    · rename_i hfad
      have hfile := createFile_eq_some (by simpa using hfad) h path
      simp only [TreeOp.events, TreeOp.notifications, List.map_cons, List.map_nil, typesFor_eventOf, typesFor_nil]
      by_cases heq : treePath Γ root name = path
      · rw [if_pos heq]
        exact reported_added (hfile.2 (.inl heq.symm)) []
      · rw [if_neg heq]
        exact reported_nil (hfile.trans (or_iff_right (fun h => heq h.symm)))
  | deleteFile name =>
    have hfile := deleteFile_eq_some h path
    simp only [TreeOp.events, TreeOp.notifications, List.map_cons, List.map_nil, typesFor_eventOf, typesFor_nil]
    by_cases heq : treePath Γ root name = path
    · rw [if_pos heq]
      exact reported_removed (fun hf => (hfile.1 hf).2 heq.symm)
    · rw [if_neg heq]
      exact reported_nil (hfile.trans (and_iff_left (fun h => heq h.symm)))
  | renameFile oldName newName =>
    have hfile := renameFile_eq_some h path
    simp only [TreeOp.events, TreeOp.notifications, List.map_cons, List.map_nil, typesFor_eventOf, typesFor_nil]
    by_cases hnew : treePath Γ root newName = path
    · have hf := hfile.2 (.inl hnew.symm)
      rw [if_pos hnew]
      by_cases hold : treePath Γ root oldName = path
      · rw [if_pos hold]
        exact reported_added hf [.removed]
      · rw [if_neg hold]
        exact reported_added hf []
    · rw [if_neg hnew]
      by_cases hold : treePath Γ root oldName = path
      · rw [if_pos hold]
        refine reported_removed (fun hf => ?_)
        rcases hfile.1 hf with heq | ⟨-, hne⟩
        · exact hnew heq.symm
        · exact hne hold.symm
      · rw [if_neg hold]
        refine reported_nil (hfile.trans ?_)
        rw [or_iff_right (fun heq => hnew heq.symm), and_iff_left (fun heq => hold heq.symm)]
  | renameDirectory oldName newName =>
    obtain ⟨hold, hnew, hkeep⟩ := renameDirectory_eq_some h
    have hfile := hkeep hno path
    by_cases hmem : treePath Γ root oldName = path ∨ treePath Γ root newName = path
    · have hnot : ¬t.IsFile path := by
        rcases hmem with rfl | rfl
        · exact hold
        · exact hnew
      exact reported_of_not hnot (fun hf => hnot (hfile.1 hf))
    · rw [not_or] at hmem
      simp only [TreeOp.events, TreeOp.notifications, List.map_cons, List.map_nil, typesFor_eventOf, typesFor_nil,
        if_neg hmem.1, if_neg hmem.2]
      exact reported_nil hfile

/-! ## Every run -/

/-- What holds in every state of a watched tree that the index follows. -/
structure Monitor.Valid (Γ : Locale) (s : Monitor) : Prop where
  sound : s.store.pool.Sound
  events : ∀ evt ∈ s.pending, evt.type = .added ∨ evt.type = .removed
  agrees : ∀ path, Agrees (s.tree.IsFile path) (s.store.pool.IsLive Γ path) (typesFor Γ path s.pending)

variable {s : Monitor}

/-- An operation reports additions and removals only. -/
theorem type_of_mem_events {op : TreeOp} {evt : FileChangeEvent} (h : evt ∈ op.events root) :
    evt.type = .added ∨ evt.type = .removed := by
  obtain ⟨n, hn, rfl⟩ := List.mem_map.1 h
  cases op with
  | createFile name fad =>
    rw [List.mem_singleton.1 hn]
    exact .inl rfl
  | deleteFile name =>
    rw [List.mem_singleton.1 hn]
    exact .inr rfl
  | renameFile oldName newName | renameDirectory oldName newName =>
    rcases List.mem_pair.1 hn with rfl | rfl
    · exact .inr rfl
    · exact .inl rfl

theorem valid_op (hs : s.Valid Γ) {op : TreeOp} (hno : op.MovesNoFile Γ root s.tree) :
    (s.step Γ root (.op op)).Valid Γ := by
  cases happly : op.apply Γ root s.tree with
  | none =>
    rw [Monitor.step_op_none happly]
    exact hs
  | some t' =>
    rw [Monitor.step_op_some happly]
    refine ⟨hs.sound, ?_, ?_⟩
    · intro evt hevt
      rcases List.mem_append.1 hevt with hevt | hevt
      · exact hs.events evt hevt
      · exact type_of_mem_events hevt
    · intro path
      have hr := reported_events happly hno path
      simp only [typesFor_append]
      exact (hs.agrees path).report hr

/-- What an event does to a path it is not for: nothing. -/
theorem Agrees.other {evt : FileChangeEvent} {rest : List FileChangeEvent} {path : WString} (hne : Γ.lower evt.path ≠ path)
    (h : Agrees isFile live (typesFor Γ path (evt :: rest))) (hl : live' ↔ live) :
    Agrees isFile live' (typesFor Γ path rest) := by
  rw [typesFor_cons, if_neg hne] at h
  exact ⟨fun hf => (h.added hf).imp_right (fun hp => ⟨hp.1, hl.2 hp.2⟩), fun hlive => h.removed (hl.1 hlive)⟩

theorem valid_deliver (hs : s.Valid Γ) (hroom : MonitorStep.deliver.HasRoom s)
    (hfollows : MonitorStep.deliver.Follows Γ root s) : (s.step Γ root .deliver).Valid Γ := by
  obtain ⟨tree, pending, store⟩ := s
  obtain ⟨hsound, hevents, hagrees⟩ := hs
  cases pending with
  | nil => exact ⟨hsound, hevents, hagrees⟩
  | cons evt rest =>
    obtain ⟨type, evtPath, oldPath⟩ := evt
    obtain ⟨hfits, hcount⟩ := hroom _ rfl
    have hrest : ∀ e ∈ rest, e.type = .added ∨ e.type = .removed := fun e he => hevents e (List.mem_cons_of_mem _ he)
    generalize hnext : Monitor.step Γ root ⟨tree, ⟨type, evtPath, oldPath⟩ :: rest, store⟩ .deliver = next
    rcases hevents _ List.mem_cons_self with rfl | rfl
    · have hlive : ∀ key, next.store.pool.IsLive Γ key ↔
          store.pool.IsLive Γ key ∨ (tree.IsFile (Γ.lower evtPath) ∧ Γ.lower evtPath = key) := by
        rw [← hnext]
        exact isLive_added _ hsound hfits oldPath
      subst hnext
      refine ⟨sound_added _ hsound hcount oldPath, hrest, fun path => ?_⟩
      by_cases hp : Γ.lower evtPath = path
      · have h := hagrees path
        rw [typesFor_cons, if_pos hp] at h
        refine h.deliver_added ((hlive path).trans ?_)
        rw [hp]
        exact or_congr_right (and_iff_left rfl)
      · exact (hagrees path).other hp ((hlive path).trans (or_iff_left (fun h => hp h.2)))
    · have hlive : ∀ key, next.store.pool.liveCount Γ key =
          if Γ.lower evtPath = key then store.pool.liveCount Γ key - 1 else store.pool.liveCount Γ key := by
        rw [← hnext]
        exact liveCount_applyRemove hsound evtPath
      subst hnext
      refine ⟨IndexStore.sound_applyRemove evtPath hsound, hrest, fun path => ?_⟩
      by_cases hp : Γ.lower evtPath = path
      · have h := hagrees path
        rw [typesFor_cons, if_pos hp] at h
        refine h.deliver_removed ?_
        rw [IndexPool.isLive_iff, hlive, if_pos hp]
        intro hpos
        rcases hfollows _ rfl rfl with honce | hmore
        · simp only [hp] at honce
          omega
        · rw [hp] at hmore
          exact hmore
      · refine (hagrees path).other hp ?_
        rw [IndexPool.isLive_iff, IndexPool.isLive_iff, hlive, if_neg hp]

/-- A step that the index can follow, and that it has room for, keeps what holds. -/
theorem valid_monitor_step (s : Monitor) (step : MonitorStep) (hs : s.Valid Γ) (h : step.HasRoom s ∧ step.Follows Γ root s) :
    (s.step Γ root step).Valid Γ := by
  cases step with
  | op op => exact valid_op hs h.2
  | deliver => exact valid_deliver hs h.1 h.2

theorem Monitor.Valid.tracks (hs : s.Valid Γ) : s.Tracks Γ := by
  intro hnil path
  have h := hs.agrees path
  rw [hnil, typesFor_nil] at h
  exact h.iff

/-- Every run of steps the index can follow keeps what holds. -/
theorem along_valid (hs : s.Valid Γ) {steps : List MonitorStep}
    (hroom : Meets (fun s step => step.HasRoom s) (Monitor.step Γ root) s steps)
    (hfollows : Meets (fun s step => step.Follows Γ root s) (Monitor.step Γ root) s steps) :
    Along (Monitor.Valid Γ) (Monitor.step Γ root) s steps :=
  along_of_step (fun s step hs h => valid_monitor_step s step hs h) hs (hroom.and hfollows)

/-! ## The condition is no weaker than it must be -/

/-- A removal leaves a path live that is live twice, or that it is not for. -/
theorem isLive_applyRemove_of {store : IndexStore} (hs : store.pool.Sound) {removed path : WString}
    (h : 1 < store.pool.liveCount Γ path ∨ (store.pool.IsLive Γ path ∧ Γ.lower removed ≠ path)) :
    (store.applyRemove Γ removed).pool.IsLive Γ path := by
  rw [IndexPool.isLive_iff, liveCount_applyRemove hs]
  rcases h with htwice | ⟨hlive, hne⟩
  · split <;> omega
  · rw [if_neg hne]
    exact IndexPool.isLive_iff.1 hlive

theorem removed_mem_typesFor {path evtPath : WString} (h : Γ.lower evtPath = path) (evts : List FileChangeEvent) :
    .removed ∈ typesFor Γ path (⟨.removed, evtPath, []⟩ :: evts) := by
  rw [typesFor_cons, if_pos h]
  exact List.mem_cons_self

/-- What is live with no event pending stays live through an operation and its events, when its removal is not reported or it
is live twice. -/
theorem isLive_settled (hs : s.Valid Γ) (hnil : s.pending = []) {op : TreeOp} (happly : op.apply Γ root s.tree = some t')
    (hroom : Meets (fun s step => step.HasRoom s) (Monitor.step Γ root) s [.op op, .deliver, .deliver]) {path : WString}
    (h : 1 < s.store.pool.liveCount Γ path ∨
      (s.store.pool.IsLive Γ path ∧ .removed ∉ typesFor Γ path (op.events root))) :
    (final (Monitor.step Γ root) s [.op op, .deliver, .deliver]).store.pool.IsLive Γ path := by
  obtain ⟨tree, pending, store⟩ := s
  obtain ⟨hsound, -, -⟩ := hs
  simp only at hnil hsound h
  subst hnil
  have hlive : store.pool.IsLive Γ path := h.elim (fun hc => IndexPool.isLive_iff.2 (by omega)) And.left
  rw [final_cons, Monitor.step_op_some happly]
  obtain ⟨-, hroom⟩ := hroom
  rw [Monitor.step_op_some happly] at hroom
  obtain ⟨hfirst, hsecond, -⟩ := hroom
  cases op with
  | createFile name fad => exact (isLive_added _ hsound (hfirst _ rfl).1 [] path).2 (.inl hlive)
  | deleteFile name =>
    exact isLive_applyRemove_of hsound (h.imp_right (fun hp => ⟨hp.1, fun heq => hp.2 (removed_mem_typesFor heq _)⟩))
  | renameFile oldName newName | renameDirectory oldName newName =>
    have hremoved : (store.applyRemove Γ (fullPath root oldName)).pool.IsLive Γ path :=
      isLive_applyRemove_of hsound (h.imp_right (fun hp => ⟨hp.1, fun heq => hp.2 (removed_mem_typesFor heq _)⟩))
    exact (isLive_added _ (IndexStore.sound_applyRemove _ hsound) (hsecond _ rfl).1 [] path).2 (.inl hremoved)

/-- A file below a directory that is renamed is not where it was. -/
theorem not_isFile_renameDirectory {oldName newName : WString}
    (h : (TreeOp.renameDirectory oldName newName).apply Γ root t = some t')
    (hne : treePath Γ root newName ≠ treePath Γ root oldName) {path : WString}
    (hp : Within backslash (treePath Γ root oldName) path) (hfile : t.IsFile path) : ¬t'.IsFile path := by
  simp only [TreeOp.apply, if_neg hne, FileTree.moveDirectory] at h
  split at h
  · split at h
    · cases h
      exact Tree.not_isFile_move hp hfile
    · cases h
  · cases h

/-- An operation and its events leave the tree the operation made, and nothing pending. -/
theorem settled_eq (hnil : s.pending = []) {op : TreeOp} (happly : op.apply Γ root s.tree = some t') :
    (final (Monitor.step Γ root) s [.op op, .deliver, .deliver]).pending = [] ∧
      (final (Monitor.step Γ root) s [.op op, .deliver, .deliver]).tree = t' := by
  rw [final_cons, Monitor.step_op_some happly, hnil]
  cases op <;> exact ⟨rfl, rfl⟩

/-- With no event pending and the index up to date, an operation that succeeds and whose events are applied at once leaves the
index up to date exactly when it can be followed. -/
theorem settled_tracks_iff (hs : s.Valid Γ) (hnil : s.pending = []) {op : TreeOp} (happly : op.apply Γ root s.tree = some t')
    (hroom : Meets (fun s step => step.HasRoom s) (Monitor.step Γ root) s [.op op, .deliver, .deliver]) :
    (final (Monitor.step Γ root) s [.op op, .deliver, .deliver]).Tracks Γ ↔
      Meets (fun s step => step.Follows Γ root s) (Monitor.step Γ root) s [.op op, .deliver, .deliver] := by
  constructor
  · intro htracks
    obtain ⟨hpending, htree⟩ := settled_eq hnil happly
    -- what stays live through the events is a file of the new tree
    have hfile : ∀ path, (1 < s.store.pool.liveCount Γ path ∨
        (s.store.pool.IsLive Γ path ∧ .removed ∉ typesFor Γ path (op.events root))) → t'.IsFile path := by
      intro path h
      rw [← htree]
      exact (htracks hpending path).1 (isLive_settled hs hnil happly hroom h)
    refine ⟨?_, ?_, ?_, trivial⟩
    · cases op with
      | createFile | deleteFile | renameFile => trivial
      | renameDirectory oldName newName =>
        intro hne path hp hbefore
        refine not_isFile_renameDirectory happly hne hp hbefore (hfile path (.inr ⟨(hs.tracks hnil path).2 hbefore, ?_⟩))
        obtain ⟨hold, -, -⟩ := renameDirectory_eq_some happly
        have hpath : treePath Γ root oldName ≠ path := fun heq => hold (heq ▸ hbefore)
        simp only [TreeOp.events, TreeOp.notifications, List.map_cons, List.map_nil, typesFor_eventOf, typesFor_nil,
          if_neg hpath]
        by_cases hnew : treePath Γ root newName = path <;> simp [hnew, ChangeWatcher.eventOf]
    · intro evt _ _
      by_contra hnot
      simp only [Monitor.Removes, not_or, Monitor.step_op_some happly, Nat.not_le] at hnot
      exact hnot.2.1 (hfile _ (.inl hnot.1))
    · rw [Monitor.step_op_some happly, hnil]
      cases op with
      | createFile | deleteFile => exact fun evt hevt => nomatch hevt
      | renameFile | renameDirectory =>
        rintro evt ⟨⟩ hremoved
        cases hremoved
  · intro hfollows
    exact (along_valid hs hroom hfollows).final.tracks

/-! ## The index follows the tree -/

/-- Every run of operations and events, in any order, in which the index can follow every step: whenever no event is pending,
exactly the files of the tree are live, if they were at the start. -/
theorem monitor_tracks (Γ : Locale) (root : WString) (s : Monitor) (steps : List MonitorStep) (hstart : s.pending = [])
    (hsound : s.store.pool.Sound) (hfiles : ∀ path, s.store.pool.IsLive Γ path ↔ s.tree.IsFile path)
    (hroom : Meets (fun s step => step.HasRoom s) (Monitor.step Γ root) s steps)
    (hfollows : Meets (fun s step => step.Follows Γ root s) (Monitor.step Γ root) s steps) :
    Along (Monitor.Tracks Γ) (Monitor.step Γ root) s steps := by
  have hvalid : s.Valid Γ := by
    refine ⟨hsound, ?_, ?_⟩
    · rw [hstart]
      exact fun evt hevt => absurd hevt List.not_mem_nil
    · intro path
      rw [hstart]
      exact agrees_nil (hfiles path)
  exact (along_valid hvalid hroom hfollows).imp (fun s hs => hs.tracks)

instance : Decidable (MonitorStep.deliver.HasRoom s) := inferInstanceAs (Decidable (∀ evt ∈ s.pending.head?, _ ∧ _))

instance (path : WString) : Decidable (s.Removes Γ path) := inferInstanceAs (Decidable (_ ∨ _ ∨ _))

instance : Decidable (MonitorStep.deliver.Follows Γ root s) :=
  inferInstanceAs (Decidable (∀ evt ∈ s.pending.head?, _ → _))

namespace WatchedDrive

/-- `e:`, of which the watched root is `E:\`. -/
def drive : WString := wide ['e', ':']

/-- The watched root. -/
def watchedRoot : WString := wide ['E', ':', '\\']

/-- `D`, a directory. -/
def nameD : WString := wide ['D']

/-- `F`, a directory. -/
def nameF : WString := wide ['F']

/-- `D\A`. -/
def nameDA : WString := wide ['D', '\\', 'A']

/-- `F\A`. -/
def nameFA : WString := wide ['F', '\\', 'A']

/-- The attributes of a directory. -/
def dirData : AttributeData := ⟨0x10, 0, 0, 0, 0⟩

/-- The attributes of a file. -/
def fileData : AttributeData := ⟨0x20, 0, 1, 2, 3⟩

/-- A drive with an empty directory, `D`. -/
def emptyDir : FileTree :=
  .ofList _ _ [(drive, dirData), (treePath .c watchedRoot nameD, dirData)] (by decide)

/-- A drive with a directory, `D`, and a file in it, `A`. -/
def fileInDir : FileTree :=
  .ofList _ _ [(drive, dirData), (treePath .c watchedRoot nameD, dirData), (treePath .c watchedRoot nameDA, fileData)]
    (by decide)

/-- The empty directory is renamed, and a file is created in it, before any event is applied; then it is deleted. -/
def steps : List MonitorStep :=
  [.op (.renameDirectory nameD nameF), .op (.createFile nameFA fileData), .deliver, .deliver, .deliver,
    .op (.deleteFile nameFA), .deliver]

theorem not_isFile_emptyDir (path : WString) : ¬emptyDir.IsFile path := by
  intro h
  obtain ⟨n, hn, hfile⟩ := Tree.isFile_ofList h
  simp only [List.mem_cons, Prod.mk.injEq, List.not_mem_nil, or_false] at hn
  rcases hn with ⟨-, rfl⟩ | ⟨-, rfl⟩ <;> cases hfile

theorem monitor_tracks_steps : Along (Monitor.Tracks .c) (Monitor.step .c watchedRoot) ⟨emptyDir, [], .empty⟩ steps := by
  refine monitor_tracks .c watchedRoot ⟨emptyDir, [], .empty⟩ steps rfl IndexPool.sound_empty ?_ ?_ ?_
  · exact fun path => iff_of_false (fun ⟨r, hr, _⟩ => nomatch hr) (not_isFile_emptyDir path)
  · exact ⟨trivial, trivial, by decide +kernel, by decide +kernel, by decide +kernel, trivial, by decide +kernel, trivial⟩
  · exact ⟨fun _ path _ => not_isFile_emptyDir path, trivial, by decide +kernel, by decide +kernel, by decide +kernel, trivial,
      by decide +kernel, trivial⟩

/-- The index of the drive with the file. -/
def indexed : IndexStore := IndexStore.empty.applyAdd .c (builtEntry .c (fullPath watchedRoot nameDA) fileData)

/-- The index has exactly the file of the drive. -/
theorem isLive_indexed_iff (path : WString) : indexed.pool.IsLive .c path ↔ fileInDir.IsFile path := by
  have hlive : indexed.pool.live.map Record.path = [fullPath watchedRoot nameDA] := by decide +kernel
  constructor
  · rintro ⟨r, hr, rfl⟩
    have hpath := List.mem_map_of_mem (f := Record.path) hr
    rw [hlive, List.mem_singleton] at hpath
    rw [hpath]
    decide +kernel
  · intro h
    obtain ⟨n, hn, hfile⟩ := Tree.isFile_ofList h
    simp only [List.mem_cons, Prod.mk.injEq, List.not_mem_nil, or_false] at hn
    rcases hn with ⟨-, rfl⟩ | ⟨-, rfl⟩ | ⟨rfl, -⟩
    · cases hfile
    · cases hfile
    · decide +kernel

end WatchedDrive

/-- A directory with a file in it is renamed: the index, which had exactly the files of the tree, keeps the file at its old
path and has none at the new one. -/
theorem renamed_directory_loses_file :
    let s : Monitor := ⟨WatchedDrive.fileInDir, [], WatchedDrive.indexed⟩
    (∀ path, s.store.pool.IsLive .c path ↔ s.tree.IsFile path) ∧
      ¬(final (Monitor.step .c WatchedDrive.watchedRoot) s
        [.op (.renameDirectory WatchedDrive.nameD WatchedDrive.nameF), .deliver, .deliver]).Tracks .c := by
  refine ⟨WatchedDrive.isLive_indexed_iff, fun h => ?_⟩
  have hfile := h (by decide +kernel) (treePath .c WatchedDrive.watchedRoot WatchedDrive.nameFA)
  exact absurd (hfile.2 (by decide +kernel)) (by decide +kernel)

end WinIndex
