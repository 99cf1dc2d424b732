import WinIndex.WatchThread
import WinIndex.Lemmas.Events

/-!
# Modified events

A `Modified` event of a file is a removal and an addition, each under its own lock. A search between the two finds no entry of
the file, and when a second thread removes in between it finds none to remove, while both add: the file then has two entries
for good. The searches take part in a run only as those that may look at any of its states.
-/

namespace WinIndex

open Trace

/-- The turn is a removal. -/
def ChangeStep.Removes : ChangeStep → Prop
  | .remove _ => True
  | .rename _ _ | .look _ | .add _ => False

/-- A removal finds a live entry of its path. -/
def ChangeStep.FindsEntry (Γ : Locale) (p : IndexPool) : ChangeStep → Prop
  | .remove path => p.IsLive Γ (Γ.lower path)
  | .rename _ _ | .look _ | .add _ => True

instance ChangeStep.decidableRemoves : DecidablePred ChangeStep.Removes
  | .remove _ => .isTrue trivial
  | .rename _ _ | .look _ | .add _ => .isFalse id

instance ChangeStep.decidableFindsEntry (Γ : Locale) (p : IndexPool) : DecidablePred (ChangeStep.FindsEntry Γ p)
  | .remove path => inferInstanceAs (Decidable (p.IsLive Γ (Γ.lower path)))
  | .rename _ _ | .look _ | .add _ => .isTrue trivial

/-- Exactly one live entry has the path, which is given folded. -/
def Watching.HasOne (Γ : Locale) (key : WString) (s : Watching) : Prop := s.store.pool.liveCount Γ key = 1

instance Watching.decidableHasOne (Γ : Locale) (key : WString) : DecidablePred (Watching.HasOne Γ key) :=
  fun s => inferInstanceAs (Decidable (s.store.pool.liveCount Γ key = 1))

/-- The step is one of the `Modified` events of an existing file: every record reports a modification of it, by whatever
root the watcher names it, and `GetFileAttributesExW` always finds it. -/
def WatchStep.ModifiesFile (Γ : Locale) (key : WString) (s : Watching) : WatchStep → Prop
  | .event i action name => action = .modified ∧ ∀ w ∈ s.watchers[i]?, Γ.lower (fullPath w.root name) = key
  | .apply _ attributes => ∀ path, Γ.lower path = key → IsFile attributes path

variable {Γ : Locale} {key : WString} {s : Watching}

/-! ## Where the threads are -/

/-- Where a thread is with a `Modified` event of the file. -/
inductive ModifyingAt (Γ : Locale) (key : WString) : List ChangeStep → Prop
  | idle : ModifyingAt Γ key []
  | taken (path : WString) (h : Γ.lower path = key) : ModifyingAt Γ key [.remove path, .look path]
  | removed (path : WString) (h : Γ.lower path = key) : ModifyingAt Γ key [.look path]
  | found (e : FileEntry) (h : Γ.lower e.path = key) : ModifyingAt Γ key [.add e]

/-- The thread has removed the file's entry and not yet added the new one. -/
def Watcher.owesEntry (w : Watcher) : Bool :=
  match w.todo with
  | .look _ :: _ | .add _ :: _ => true
  | _ => false

/-- How many threads owe an entry. -/
def Watching.owed (s : Watching) : Nat := s.watchers.countP Watcher.owesEntry

/-- What holds between the steps. -/
structure Watching.Modifying (Γ : Locale) (key : WString) (s : Watching) : Prop where
  sound : s.store.pool.Sound
  threads : ∀ w ∈ s.watchers, ModifyingAt Γ key w.todo

theorem Watching.owed_idle (h : s.Idle) : s.owed = 0 := by
  rw [owed, List.countP_eq_zero]
  intro w hw
  simp [Watcher.owesEntry, h w hw]

theorem Watching.modifying_idle (hs : s.store.pool.Sound) (h : s.Idle) : s.Modifying Γ key :=
  ⟨hs, fun w hw => by rw [h w hw]; exact .idle⟩

/-- One thread moves on: the others owe what they owed. -/
theorem countP_owesEntry_set {ws : List Watcher} {i : Nat} {w : Watcher} (hw : ws[i]? = some w) (w' : Watcher) :
    (ws.set i w').countP Watcher.owesEntry + w.owesEntry.toNat = ws.countP Watcher.owesEntry + w'.owesEntry.toNat := by
  obtain ⟨hi, hget⟩ := List.getElem?_eq_some_iff.1 hw
  have hpos : w.owesEntry = true → 0 < ws.countP Watcher.owesEntry := by
    intro h
    exact List.countP_pos_iff.2 ⟨w, List.mem_of_getElem? hw, h⟩
  rw [List.countP_set hi, hget]
  cases hold : w.owesEntry with
  | true =>
    have := hpos hold
    cases w'.owesEntry <;> simp <;> omega
  | false => cases w'.owesEntry <;> simp

/-- The threads stay where a `Modified` event can have them when one of them moves on to such a place. -/
theorem Watching.modifying_set {store : IndexStore} (h : s.Modifying Γ key) (hs : store.pool.Sound) (i : Nat) {w : Watcher}
    (hw : ModifyingAt Γ key w.todo) : Watching.Modifying Γ key ⟨store, s.watchers.set i w⟩ := by
  refine ⟨hs, ?_⟩
  intro x hx
  rcases List.mem_or_eq_of_mem_set hx with hx | rfl
  · exact h.threads x hx
  · exact hw

/-- The thread that takes a turn is somewhere in a `Modified` event. -/
theorem Watching.Modifying.at (h : s.Modifying Γ key) {i : Nat} {w : Watcher} (hw : s.watchers[i]? = some w) :
    ModifyingAt Γ key w.todo := h.threads w (List.mem_of_getElem? hw)

/-! ## One step -/

/-- A record of a modification is taken up: nothing is owed for it yet. -/
theorem modifying_event {i : Nat} {action : FileAction} {name root : WString} (h : s.Modifying Γ key)
    (hw : s.watchers[i]? = some ⟨root, []⟩) (hmod : (WatchStep.event i action name).ModifiesFile Γ key s) :
    let s' : Watching :=
      { s with watchers := s.watchers.set i ⟨root, changeSteps (ChangeWatcher.eventOf root action name)⟩ }
    s'.Modifying Γ key ∧ s'.owed = s.owed := by
  obtain ⟨rfl, hkey⟩ := hmod
  have hpath : Γ.lower (fullPath root name) = key := hkey ⟨root, []⟩ hw
  have hset := countP_owesEntry_set hw ⟨root, [.remove (fullPath root name), .look (fullPath root name)]⟩
  exact ⟨Watching.modifying_set h h.sound i (.taken _ hpath), hset⟩

/-- While nothing is owed, the only turn a thread can take is a removal. -/
theorem removes_of_owed_zero (h : s.Modifying Γ key) (howed : s.owed = 0) {i : Nat} {root : WString} {c : ChangeStep}
    {rest : List ChangeStep} (hw : s.watchers[i]? = some ⟨root, c :: rest⟩) :
    ∃ path, c = .remove path ∧ Γ.lower path = key ∧ rest = [.look path] := by
  have howes : ¬Watcher.owesEntry ⟨root, c :: rest⟩ = true := List.countP_eq_zero.1 howed _ (List.mem_of_getElem? hw)
  cases h.at hw with
  | taken path hpath => exact ⟨path, rfl, hpath, rfl⟩
  | removed path => exact absurd rfl howes
  | found e => exact absurd rfl howes

/-- While nothing is owed, the file keeps its one entry exactly when no removal comes. -/
theorem hasOne_step_iff {l : WatchStep} (h : s.Modifying Γ key) (howed : s.owed = 0) (hone : s.HasOne Γ key)
    (hmod : l.ModifiesFile Γ key s) : (s.step Γ l).HasOne Γ key ↔ ∀ c ∈ l.turn s, ¬c.Removes := by
  rcases s.step_cases (Γ := Γ) l with ⟨hturn, hstep⟩ | ⟨i, action, name, root, rfl, hw, hstep⟩ |
    ⟨i, attributes, root, c, rest, rfl, hw, hturn, hstep⟩
  · rw [hstep, hturn]
    exact ⟨fun _ _ hc => (nomatch hc), fun _ => hone⟩
  · rw [hstep]
    exact ⟨fun _ _ hc => (nomatch hc), fun _ => hone⟩
  · obtain ⟨path, rfl, hpath, -⟩ := removes_of_owed_zero h howed hw
    have hcount : (s.store.applyRemove Γ path).pool.liveCount Γ key = 0 := by
      rw [liveCount_applyRemove h.sound, if_pos hpath, hone]
    rw [hturn, hstep]
    constructor
    · intro hafter
      exact absurd (hcount.symm.trans hafter) (by decide)
    · intro hrem
      exact absurd trivial (hrem _ rfl)

/-- While nothing is owed and no removal comes, nothing is owed. -/
theorem modifying_step_of_not_removes {l : WatchStep} (h : s.Modifying Γ key) (howed : s.owed = 0)
    (hmod : l.ModifiesFile Γ key s) (hok : ∀ c ∈ l.turn s, ¬c.Removes) :
    (s.step Γ l).Modifying Γ key ∧ (s.step Γ l).owed = 0 := by
  rcases s.step_cases (Γ := Γ) l with ⟨-, hstep⟩ | ⟨i, action, name, root, rfl, hw, hstep⟩ |
    ⟨i, attributes, root, c, rest, rfl, hw, hturn, hstep⟩
  · rw [hstep]
    exact ⟨h, howed⟩
  · obtain ⟨hnext, howes⟩ := modifying_event h hw hmod
    rw [hstep]
    exact ⟨hnext, howes.trans howed⟩
  · obtain ⟨path, rfl, -⟩ := removes_of_owed_zero h howed hw
    exact absurd trivial (hok _ hturn)

/-- The live entries of the file and those owed to it, taken together. -/
def Watching.entries (Γ : Locale) (key : WString) (s : Watching) : Nat := s.store.pool.liveCount Γ key + s.owed

/-- A step takes away none of them, and makes one more when a removal finds nothing to remove. -/
theorem entries_step {l : WatchStep} (h : s.Modifying Γ key) (hmod : l.ModifiesFile Γ key s) (hroom : l.HasRoom s) :
    (s.step Γ l).Modifying Γ key ∧ s.entries Γ key ≤ (s.step Γ l).entries Γ key ∧
      ((s.step Γ l).entries Γ key = s.entries Γ key ↔ ∀ c ∈ l.turn s, c.FindsEntry Γ s.store.pool) := by
  rcases s.step_cases (Γ := Γ) l with ⟨hturn, hstep⟩ | ⟨i, action, name, root, rfl, hw, hstep⟩ |
    ⟨i, attributes, root, c, rest, rfl, hw, hturn, hstep⟩
  · rw [hstep, hturn]
    exact ⟨h, Nat.le_refl _, fun _ _ hc => (nomatch hc), fun _ => rfl⟩
  · obtain ⟨hnext, howes⟩ := modifying_event h hw hmod
    have hentries : (s.step Γ (.event i action name)).entries Γ key = s.entries Γ key := by
      rw [hstep]
      exact congrArg (s.store.pool.liveCount Γ key + ·) howes
    rw [hentries, hstep]
    exact ⟨hnext, Nat.le_refl _, fun _ _ hc => (nomatch hc), fun _ => rfl⟩
  · have hset := fun w' => countP_owesEntry_set hw w'
    rw [hstep, hturn]
    simp only [Watching.entries, Watching.owed, Option.mem_some_iff, forall_eq']
    cases h.at hw with
    | taken path hpath =>
      have howed := hset ⟨root, [.look path]⟩
      have hcount := liveCount_applyRemove (Γ := Γ) h.sound path key
      rw [if_pos hpath] at hcount
      simp only [ChangeStep.run, ChangeStep.next, List.nil_append, ChangeStep.FindsEntry, hpath, IndexPool.isLive_iff]
      simp only [Watcher.owesEntry, Bool.toNat_false, Bool.toNat_true] at howed
      refine ⟨Watching.modifying_set h (IndexStore.sound_applyRemove path h.sound) i (.removed path hpath), ?_, ?_⟩
      · omega
      · omega
    | removed path hpath =>
      obtain ⟨fad, hfad, hdir⟩ := hmod path hpath
      have hnext : (ChangeStep.look path).next Γ attributes = [.add (builtEntry Γ path fad)] := by
        rw [ChangeStep.next, hfad]
        simp [hdir]
      have howed := hset ⟨root, [.add (builtEntry Γ path fad)]⟩
      simp only [Watcher.owesEntry] at howed
      rw [hnext]
      simp only [ChangeStep.run, List.append_nil, ChangeStep.FindsEntry]
      refine ⟨Watching.modifying_set h h.sound i (.found _ hpath), ?_, ?_⟩
      · omega
      · exact ⟨fun _ => trivial, fun _ => by omega⟩
    | found e he =>
      obtain ⟨hfit, hlen⟩ := hroom e.path (by rw [hturn]; rfl)
      have howed := hset ⟨root, []⟩
      have hcount := liveCount_applyAdd (Γ := Γ) h.sound hfit key
      rw [if_pos he] at hcount
      simp only [Watcher.owesEntry, Bool.toNat_false, Bool.toNat_true] at howed
      simp only [ChangeStep.run, ChangeStep.next, List.append_nil, ChangeStep.FindsEntry]
      refine ⟨Watching.modifying_set h (h.sound.addEntry hlen Γ e) i .idle, ?_, ?_⟩
      · omega
      · exact ⟨fun _ => trivial, fun _ => by omega⟩

/-! ## Every run -/

/-- In every run of any number of threads with `Modified` events of one file that has one live entry: a search can always see
exactly one entry of it exactly when no removal has been run at all, that is, never once an event is applied. When all is
done, and there was room for what was added, there is exactly one entry exactly when each removal found one to remove. -/
theorem modified_hasOne_iff (Γ : Locale) (key : WString) (s : Watching) (steps : List WatchStep) (hs : s.store.pool.Sound)
    (hidle : s.Idle) (hone : s.HasOne Γ key)
    (hmod : Meets (fun s l => l.ModifiesFile Γ key s) (Watching.step Γ) s steps) :
    (Along (Watching.HasOne Γ key) (Watching.step Γ) s steps ↔
        Meets (fun s l => ∀ c ∈ l.turn s, ¬c.Removes) (Watching.step Γ) s steps) ∧
      (Meets (fun s l => l.HasRoom s) (Watching.step Γ) s steps → (final (Watching.step Γ) s steps).Idle →
        ((final (Watching.step Γ) s steps).HasOne Γ key ↔
          Meets (fun s l => ∀ c ∈ l.turn s, c.FindsEntry Γ s.store.pool) (Watching.step Γ) s steps)) := by
  have hstart : s.Modifying Γ key := Watching.modifying_idle hs hidle
  have howed : s.owed = 0 := s.owed_idle hidle
  constructor
  · refine along_iff_meets (I := fun s => s.Modifying Γ key ∧ s.owed = 0) ?_ ?_ ⟨hstart, howed⟩ hone hmod
    · intro s l h hmod hok
      exact modifying_step_of_not_removes h.1 h.2 hmod hok
    · intro s l h hone hmod
      exact hasOne_step_iff h.1 h.2 hone hmod
  · intro hroom hdone
    obtain ⟨-, hiff⟩ := conserved_iff_meets (E := Watching.entries Γ key) (I := fun s => s.Modifying Γ key)
      (fun s l h hside => (entries_step h hside.1 hside.2).1) (fun s l h hside => (entries_step h hside.1 hside.2).2.1)
      (fun s l h hside => (entries_step h hside.1 hside.2).2.2) hstart (hmod.and hroom)
    have hfirst : s.entries Γ key = 1 := by rw [Watching.entries, howed, hone]
    have hlast : (final (Watching.step Γ) s steps).entries Γ key =
        (final (Watching.step Γ) s steps).store.pool.liveCount Γ key := by
      rw [Watching.entries, Watching.owed_idle hdone, Nat.add_zero]
    rw [hlast, hfirst] at hiff
    exact hiff

namespace ModifiedWitness

/-- `C:\`. -/
def drive : WString := wide ['C', ':', '\\']

/-- `C:\d`. -/
def folder : WString := wide ['C', ':', '\\', 'd']

/-- `C:\d\a`. -/
def file : WString := wide ['C', ':', '\\', 'd', '\\', 'a']

/-- There is a file at every path. -/
def allFiles (_ : WString) : Option AttributeData := some ⟨0x20, 0, 1, 2, 3⟩

/-- The file is indexed once, and watched by way of two roots, of which one is above the other. -/
def start : Watching where
  store := IndexStore.empty.applyAdd .c (.ofPath .c file 1 2 0x20)
  watchers := [⟨drive, []⟩, ⟨folder, []⟩]

/-- The event as the watcher of the drive gets it, and as that of the folder does. -/
def reports : List WatchStep :=
  [.event 0 .modified (wide ['d', '\\', 'a']), .event 1 .modified (wide ['a'])]

/-- One watcher after the other. -/
def serial : List WatchStep :=
  reports ++ [.apply 0 allFiles, .apply 0 allFiles, .apply 0 allFiles, .apply 1 allFiles, .apply 1 allFiles, .apply 1 allFiles]

/-- Both remove, and then both add. -/
def interleaved : List WatchStep :=
  reports ++ [.apply 0 allFiles, .apply 1 allFiles, .apply 0 allFiles, .apply 1 allFiles, .apply 0 allFiles, .apply 1 allFiles]

theorem modified_hasOne_iff_serial :
    (Along (Watching.HasOne .c (Locale.c.lower file)) (Watching.step .c) start serial ↔
        Meets (fun s l => ∀ c ∈ l.turn s, ¬c.Removes) (Watching.step .c) start serial) ∧
      (Meets (fun s l => l.HasRoom s) (Watching.step .c) start serial → (final (Watching.step .c) start serial).Idle →
        ((final (Watching.step .c) start serial).HasOne .c (Locale.c.lower file) ↔
          Meets (fun s l => ∀ c ∈ l.turn s, c.FindsEntry .c s.store.pool) (Watching.step .c) start serial)) := by
  refine modified_hasOne_iff .c (Locale.c.lower file) start serial ?_ (by decide) (by decide +kernel) ?_
  · exact IndexPool.sound_empty.addEntry (by decide) .c _
  · have hfile : ∀ path, Locale.c.lower path = Locale.c.lower file → IsFile allFiles path := fun _ _ => ⟨_, rfl, rfl⟩
    exact ⟨⟨rfl, by decide⟩, ⟨rfl, by decide⟩, hfile, hfile, hfile, hfile, hfile, hfile, trivial⟩

/-- One after the other, they leave one entry. -/
example : Meets (fun s l => ∀ c ∈ l.turn s, c.FindsEntry .c s.store.pool) (Watching.step .c) start serial := by
  decide +kernel

end ModifiedWitness

open ModifiedWitness in
/-- One event is enough for a search to find no entry of the file, and two that are applied at the same time leave two. -/
theorem modified_leaves_two :
    start.HasOne .c (Locale.c.lower file) ∧
      ¬Along (Watching.HasOne .c (Locale.c.lower file)) (Watching.step .c) start serial ∧
      (final (Watching.step .c) start interleaved).Idle ∧
      (final (Watching.step .c) start interleaved).store.pool.liveCount .c (Locale.c.lower file) = 2 := by
  decide +kernel

end WinIndex
