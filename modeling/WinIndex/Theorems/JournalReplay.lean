import WinIndex.UsnJournalMonitor

/-!
# Replays that resume

The USN that a replay returns is where it stopped reading, so a replay from there, on what the journal has grown to, gives the
events behind those given already, however the driver cut the journal into buffers. The two are what one replay gives that is
not interrupted, if the second is not.
-/

namespace WinIndex

/-- The events of the records between two USNs. -/
def UsnJournal.eventsBetween (root : WString) (j : UsnJournal) (s c : UInt64) : List FileChangeEvent :=
  (Cursor.between JournalRecord.usn s.toInt64 c.toInt64 j.masked.entries).map (UsnJournalMonitor.eventOf root)

/-- What the loop returned was read from a cursor. -/
theorem replaySince_eq_some {root : WString} {volume : Option (List ReadAnswer)} {s c : UInt64} {events : List FileChangeEvent}
    (h : replaySince root volume s = some (events, c)) :
    ∃ answers records, Cursor.read s.toInt64 answers = some (records, c.toInt64) ∧
      events = records.map (UsnJournalMonitor.eventOf root) ∧ ∀ j : UsnJournal, j.Serves s volume →
        Cursor.Served j.masked s.toInt64 answers := by
  cases volume with
  | none =>
    cases h
    exact ⟨[.stop], [], rfl, rfl, fun _ _ => trivial⟩
  | some answers =>
    rw [replaySince, replayLoop_eq_read, Option.map_map] at h
    obtain ⟨⟨records, usn⟩, hread, heq⟩ := Option.map_eq_some_iff.1 h
    cases heq
    exact ⟨answers.map ReadAnswer.toAnswer, records, by rw [hread, Int64.toInt64_toUInt64], rfl, fun _ h => h answers rfl⟩

/-- A replay gives the events of the records between the USN it starts from and the one it returns. -/
theorem replaySince_events {root : WString} {j : UsnJournal} {volume : Option (List ReadAnswer)} {s c : UInt64}
    {events : List FileChangeEvent} (hserves : j.Serves s volume) (h : replaySince root volume s = some (events, c)) :
    s.toInt64 ≤ c.toInt64 ∧ events = j.eventsBetween root s c := by
  obtain ⟨answers, records, hread, rfl, hserved⟩ := replaySince_eq_some h
  obtain ⟨hle, -, rfl⟩ := Cursor.read_eq_between (hserved j hserves) hread
  exact ⟨hle, rfl⟩

/-- Two replays, one from the USN that the other returned, give the events of the records between the first USN and the last. -/
theorem replaySince_twice {root : WString} {j j' : UsnJournal} (hgrow : j.Grows j') {volume volume' : Option (List ReadAnswer)}
    {s c c' : UInt64} {events events' : List FileChangeEvent} (hserves : j.Serves s volume) (hserves' : j'.Serves c volume')
    (h : replaySince root volume s = some (events, c)) (h' : replaySince root volume' c = some (events', c')) :
    s.toInt64 ≤ c'.toInt64 ∧ events ++ events' = j'.eventsBetween root s c' := by
  obtain ⟨answers, records, hread, rfl, hserved⟩ := replaySince_eq_some h
  obtain ⟨answers', records', hread', rfl, hserved'⟩ := replaySince_eq_some h'
  obtain ⟨hle, hrecords⟩ := Cursor.read_resumes (hgrow.filter JournalRecord.isMasked) (hserved j hserves)
    (hserved' j' hserves') hread hread'
  exact ⟨hle, by rw [UsnJournal.eventsBetween, ← List.map_append, hrecords]; rfl⟩

/-- Every replay that the driver answers often enough returns: as often as there are records, and once more. -/
theorem replaySince_returns (root : WString) {j : UsnJournal} {volume : Option (List ReadAnswer)} {s : UInt64}
    (hserves : j.Serves s volume) (hlen : ∀ answers, volume = some answers → j.entries.length < answers.length) :
    (replaySince root volume s).isSome := by
  cases volume with
  | none => rfl
  | some answers =>
    have hmasked : j.masked.entries.length ≤ j.entries.length := List.length_filter_le _ _
    have hcount := List.countP_le_length (p := fun r : JournalRecord => s.toInt64 ≤ r.usn) (l := j.masked.entries)
    have henough := hlen answers rfl
    rw [replaySince, replayLoop_eq_read, Option.isSome_map, Option.isSome_map]
    exact Cursor.read_isSome (hserves answers rfl) (by rw [List.length_map]; omega)

/-- For every journal and what it grows to, every USN and every way the driver answers three replays, the first two of which
are a replay from that USN and one from the USN it returned on the grown journal, the third one from the first USN on the grown
journal: the events of the first two are those of the third if it returns the same USN, and also if neither the second nor the
third was interrupted; and they are the beginning of the third's if only the third was not. -/
theorem replay_resumes (root : WString) (j j' : UsnJournal) (hgrow : j.Grows j') (s c c' c'' : UInt64)
    (first second whole : Option (List ReadAnswer)) (e₁ e₂ e : List FileChangeEvent) (hfirst : j.Serves s first)
    (hsecond : j'.Serves c second) (hwhole : j'.Serves s whole) (h₁ : replaySince root first s = some (e₁, c))
    (h₂ : replaySince root second c = some (e₂, c')) (h : replaySince root whole s = some (e, c'')) :
    (j'.ReadTo c' → j'.ReadTo c'' → e₁ ++ e₂ = e) ∧ (c'' = c' → e₁ ++ e₂ = e) ∧ (j'.ReadTo c'' → e₁ ++ e₂ <+: e) := by
  obtain ⟨hle, htwo⟩ := replaySince_twice hgrow hfirst hsecond h₁ h₂
  obtain ⟨-, hone⟩ := replaySince_events hwhole h
  have hsame : j'.ReadTo c' → j'.ReadTo c'' → e₁ ++ e₂ = e := by
    intro hread hread'
    rw [htwo, hone, UsnJournal.eventsBetween, UsnJournal.eventsBetween, Cursor.Log.ReadTo.between_eq hread hread']
  refine ⟨hsame, fun hc => by rw [htwo, hone, hc], fun hread => ?_⟩
  rcases le_total c'.toInt64 c''.toInt64 with hlt | hlt
  · rw [htwo, hone, UsnJournal.eventsBetween, UsnJournal.eventsBetween,
      ← Cursor.between_append_between j'.masked.ordered hle hlt, List.map_append]
    exact List.prefix_append _ _
  · -- the two read no less far than the one, which left nothing
    rw [hsame (fun r hr => (hread r hr).trans_le hlt) hread]

namespace ReplayWitness

/-- `C:\`. -/
def root : WString := wide ['C', ':', '\\']

/-- The creation of `a`, `b` and `c`. -/
def createdA : JournalRecord := ⟨8, usnReasonFileCreate, wide ['a']⟩
def createdB : JournalRecord := ⟨72, usnReasonFileCreate, wide ['b']⟩
def createdC : JournalRecord := ⟨136, usnReasonFileCreate, wide ['c']⟩

/-- A journal with the first, and with all. -/
def journal : UsnJournal := ⟨[createdA], 72, by decide, by decide⟩
def grown : UsnJournal := ⟨[createdA, createdB, createdC], 200, by decide, by decide⟩

theorem journal_grows : journal.Grows grown := ⟨by decide, [createdB, createdC], rfl, by decide⟩

/-- A read that fails behind the first record; one that fails behind the second; the second and the third, and all. -/
def cutA : List ReadAnswer := [.batch 72 [createdA], .failed]
def cutB : List ReadAnswer := [.batch 136 [createdB], .failed]
def bufferBC : List ReadAnswer := [.batch 136 [createdB], .batch 200 [createdC], .batch 200 []]
def bufferABC : List ReadAnswer := [.batch 200 [createdA, createdB, createdC], .batch 200 []]

theorem serves_cutA : journal.Serves 0 (some cutA) := by
  rintro answers ⟨⟩
  exact ⟨by decide, by decide, rfl, trivial⟩

theorem serves_cutB : grown.Serves 72 (some cutB) := by
  rintro answers ⟨⟩
  exact ⟨by decide, by decide, rfl, trivial⟩

theorem serves_bufferBC : grown.Serves 72 (some bufferBC) := by
  rintro answers ⟨⟩
  exact ⟨by decide, by decide, rfl, by decide, by decide, rfl, by decide, by decide, rfl, trivial⟩

theorem serves_bufferABC : grown.Serves 0 (some bufferABC) := by
  rintro answers ⟨⟩
  exact ⟨by decide, by decide, rfl, by decide, by decide, rfl, trivial⟩

/-- The events of the three records. -/
def event (record : JournalRecord) : FileChangeEvent := UsnJournalMonitor.eventOf root record

theorem replay_cutA : replaySince root (some cutA) 0 = some ([event createdA], 72) := rfl
theorem replay_cutB : replaySince root (some cutB) 72 = some ([event createdB], 136) := rfl
theorem replay_bufferBC : replaySince root (some bufferBC) 72 = some ([event createdB, event createdC], 200) := rfl
theorem replay_bufferABC :
    replaySince root (some bufferABC) 0 = some ([event createdA, event createdB, event createdC], 200) := rfl

theorem readTo_grown : grown.ReadTo 200 := by
  intro r hr
  have hmem : r ∈ [createdA, createdB, createdC].filter JournalRecord.isMasked := hr
  have hall : ∀ r ∈ [createdA, createdB, createdC], r.usn < (200 : UInt64).toInt64 := by decide
  exact hall r (List.mem_of_mem_filter hmem)

theorem replay_resumes_grown : [event createdA] ++ [event createdB, event createdC] =
    [event createdA, event createdB, event createdC] :=
  (replay_resumes root journal grown journal_grows 0 72 200 200 (some cutA) (some bufferBC) (some bufferABC) _ _ _ serves_cutA
    serves_bufferBC serves_bufferABC replay_cutA replay_bufferBC replay_bufferABC).1 readTo_grown readTo_grown

end ReplayWitness

open ReplayWitness in
/-- When a read fails in the second replay too, the events of the two are not those of one that is not interrupted. -/
theorem second_replay_interrupted :
    journal.Grows grown ∧ journal.Serves 0 (some cutA) ∧ grown.Serves 72 (some cutB) ∧ grown.Serves 0 (some bufferABC) ∧
      grown.ReadTo 200 ∧
      ∃ e₁ e₂ e, replaySince root (some cutA) 0 = some (e₁, 72) ∧ replaySince root (some cutB) 72 = some (e₂, 136) ∧
        replaySince root (some bufferABC) 0 = some (e, 200) ∧ e₁ ++ e₂ ≠ e :=
  ⟨journal_grows, serves_cutA, serves_cutB, serves_bufferABC, readTo_grown, _, _, _, replay_cutA, replay_cutB, replay_bufferABC,
    fun h => absurd (congrArg List.length h) (by decide)⟩

end WinIndex
