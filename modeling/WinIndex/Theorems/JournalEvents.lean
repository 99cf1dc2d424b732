import WinIndex.JournalHistory
import WinIndex.Theorems.JournalReplay

/-!
# What a replay says of the files

The chain of tests looks for `USN_REASON_FILE_CREATE` first. So the record of a deletion says that its file is there if the file
was created since it was opened, and the record with the old name of a renamed file says the same of that name. Every other
record is classified as the files are: a history without such a deletion or renaming is replayed with a right last event for
each name, and only such a history is at every moment.
-/

namespace WinIndex

open Trace

/-! ## The last event for a name -/

/-- The type that an event has to have: a file is there, or not. -/
def RightType (there : Bool) (type : FileChangeType) : Prop :=
  if there then type = .added ∨ type = .modified else type = .removed

instance (there : Bool) (type : FileChangeType) : Decidable (RightType there type) :=
  inferInstanceAs (Decidable (if there then type = .added ∨ type = .modified else type = .removed))

/-- For every name the last event, if there is one, says whether a file is there. -/
def LastEventsRight (root : WString) (files : WString → Option Accumulated) (events : List FileChangeEvent) : Prop :=
  ∀ name, ∀ event ∈ (events.filter (fun e => e.path = root ++ name)).getLast?, RightType (files name).isSome event.type

/-- The driver returns a record that says this. -/
def JournalNote.isMasked (r : JournalNote) : Bool := r.reason &&& reasonMask ≠ 0

/-- The event made of it. -/
def JournalNote.event (root : WString) (r : JournalNote) : FileChangeEvent := ⟨changeTypeOf r.reason, root ++ r.fileName, []⟩

/-- The type of the last event for a name. -/
def lastType (written : List JournalNote) (name : WString) : Option FileChangeType :=
  ((written.filter (fun r => r.isMasked && r.fileName = name)).getLast?).map (fun r => changeTypeOf r.reason)

/-- A record more is the last for its name, if the driver returns it. -/
theorem lastType_concat (written : List JournalNote) (r : JournalNote) (name : WString) :
    lastType (written ++ [r]) name =
      if r.isMasked = true ∧ r.fileName = name then some (changeTypeOf r.reason) else lastType written name := by
  rw [lastType, List.filter_append, List.filter_cons, List.filter_nil]
  by_cases h : r.isMasked = true ∧ r.fileName = name
  · rw [if_pos h, if_pos (by simpa using h), List.getLast?_concat]
    rfl
  · rw [if_neg h, if_neg (by simpa using h), List.append_nil]
    rfl

/-- A record makes no difference to another name. -/
theorem lastType_concat_of_ne (written : List JournalNote) {r : JournalNote} {name : WString} (h : name ≠ r.fileName) :
    lastType (written ++ [r]) name = lastType written name := by
  rw [lastType_concat, if_neg (fun hm => h hm.2.symm)]

/-- For every name the last record that the driver returns says whether a file is there. -/
def JournalHistory.LastRight (h : JournalHistory) : Prop :=
  ∀ name, ∀ type ∈ lastType h.written name, RightType (h.files name).isSome type

/-- The events of all records written are right exactly where the last records are. -/
theorem lastEventsRight_iff (root : WString) (h : JournalHistory) :
    LastEventsRight root h.files ((h.written.filter JournalNote.isMasked).map (JournalNote.event root)) ↔ h.LastRight := by
  have hlast : ∀ name, (((h.written.filter JournalNote.isMasked).map (JournalNote.event root)).filter
      (fun e => e.path = root ++ name)).getLast?.map FileChangeEvent.type = lastType h.written name := by
    intro name
    rw [List.filter_map, List.getLast?_map, Option.map_map, List.filter_filter, lastType]
    congr 2
    refine List.filter_congr (fun r _ => ?_)
    simp [JournalNote.event, Bool.and_comm]
  refine forall_congr' (fun name => ?_)
  rw [← hlast]
  simp only [Option.mem_def, Option.map_eq_some_iff, forall_exists_index, and_imp, forall_apply_eq_imp_iff₂]

/-! ## The tests on the reasons -/

/-- A record of a file that is there is classified as one. -/
theorem rightType_of_live {reason : UInt32} (h : reason &&& finalReasons = 0) : RightType true (changeTypeOf reason) := by
  obtain ⟨hdelete, hold⟩ := and_or_eq_zero_iff.1 h
  rw [RightType, if_pos rfl, changeTypeOf, if_neg (not_not.2 hdelete), if_neg (not_not.2 hold)]
  split
  · exact .inl rfl
  · split
    · exact .inl rfl
    · exact .inr rfl

/-- A record that a name is gone is classified as one if the file was not created since it was opened. -/
theorem rightType_of_final {reason : UInt32} (h : reason &&& finalReasons ≠ 0) :
    RightType false (changeTypeOf reason) ↔ reason &&& usnReasonFileCreate = 0 := by
  rw [RightType, if_neg Bool.false_ne_true, changeTypeOf]
  by_cases hcreate : reason &&& usnReasonFileCreate = 0
  · rw [if_neg (not_not.2 hcreate)]
    refine iff_of_true ?_ hcreate
    by_cases hdelete : reason &&& usnReasonFileDelete = 0
    · have hold : reason &&& usnReasonRenameOldName ≠ 0 := fun hold => h (and_or_eq_zero_iff.2 ⟨hdelete, hold⟩)
      rw [if_neg (not_not.2 hdelete), if_pos hold]
    · rw [if_pos hdelete]
  · rw [if_pos hcreate]
    exact iff_of_false (by simp) hcreate

/-- The driver returns it. -/
theorem isMasked_of_final {reason : UInt32} (h : reason &&& finalReasons ≠ 0) (name : WString) :
    JournalNote.isMasked ⟨reason, name⟩ = true := by
  refine decide_eq_true (fun hmask => h ?_)
  simp only [reasonMask, and_or_eq_zero_iff] at hmask
  exact and_or_eq_zero_iff.2 ⟨hmask.1.1.1.1.2, hmask.1.1.2⟩

/-! ## Steps -/

variable {h : JournalHistory} {name : WString}

theorem setFile_self (files : WString → Option Accumulated) (name : WString) (acc : Option Accumulated) :
    setFile files name acc name = acc := if_pos rfl

theorem setFile_of_ne (files : WString → Option Accumulated) {name n : WString} (acc : Option Accumulated) (hn : n ≠ name) :
    setFile files name acc n = files n := if_neg hn

/-- A record of a file that is there keeps the last records right, if the driver returns it or the file was there before. -/
theorem JournalHistory.LastRight.report_live (hright : h.LastRight) {reason : UInt32} (hlive : reason &&& finalReasons = 0)
    (acc : Accumulated) (hthere : JournalNote.isMasked ⟨reason, name⟩ = true ∨ (h.files name).isSome) :
    LastRight ⟨setFile h.files name (some acc), h.written ++ [⟨reason, name⟩]⟩ := by
  intro n type htype
  by_cases hn : n = name
  · subst hn
    show RightType (setFile h.files n (some acc) n).isSome type
    rw [lastType_concat] at htype
    rw [setFile_self]
    split at htype
    · obtain rfl : changeTypeOf reason = type := by simpa using htype
      exact rightType_of_live hlive
    · rename_i hmasked
      have hsome : (h.files n).isSome = true := hthere.resolve_left (fun hm => hmasked ⟨hm, rfl⟩)
      have hbefore := hright n type htype
      rwa [hsome] at hbefore
  · rw [lastType_concat_of_ne _ hn] at htype
    show RightType (setFile h.files name (some acc) n).isSome type
    rw [setFile_of_ne _ _ hn]
    exact hright n type htype

/-- A record that a name is gone keeps them right exactly if the file was not created since it was opened. -/
theorem JournalHistory.LastRight.report_final (hright : h.LastRight) {reason : UInt32} (hfinal : reason &&& finalReasons ≠ 0)
    (name : WString) :
    LastRight ⟨setFile h.files name none, h.written ++ [⟨reason, name⟩]⟩ ↔ reason &&& usnReasonFileCreate = 0 := by
  have hmasked := isMasked_of_final hfinal name
  rw [← rightType_of_final hfinal]
  constructor
  · intro hafter
    have hlast : lastType (h.written ++ [⟨reason, name⟩]) name = some (changeTypeOf reason) := by
      rw [lastType_concat, if_pos ⟨hmasked, rfl⟩]
    have hname := hafter name (changeTypeOf reason) hlast
    simp only [setFile_self, Option.isSome_none] at hname
    exact hname
  · intro htype n type hlast
    by_cases hn : n = name
    · subst hn
      rw [lastType_concat, if_pos ⟨hmasked, rfl⟩] at hlast
      obtain rfl : changeTypeOf reason = type := by simpa using hlast
      simp only [setFile_self, Option.isSome_none]
      exact htype
    · rw [lastType_concat_of_ne _ hn] at hlast
      simp only [setFile_of_ne _ _ hn]
      exact hright n type hlast

/-- A deletion does exactly if the file was not created since it was opened. -/
theorem JournalHistory.LastRight.report_deleted (hright : h.LastRight) (acc : Accumulated) :
    LastRight ⟨setFile h.files name none,
      h.written ++ [⟨acc.reasons ||| usnReasonFileDelete ||| usnReasonClose, name⟩]⟩ ↔
        acc.reasons &&& usnReasonFileCreate = 0 := by
  have hcreate : (acc.reasons ||| usnReasonFileDelete ||| usnReasonClose) &&& usnReasonFileCreate = 0 ↔
      acc.reasons &&& usnReasonFileCreate = 0 :=
    (or_and_eq_zero_iff_left (by decide)).trans (or_and_eq_zero_iff_left (by decide))
  have hfinal : (acc.reasons ||| usnReasonFileDelete ||| usnReasonClose) &&& finalReasons ≠ 0 :=
    fun h => or_and_ne_zero (by decide) (or_and_eq_zero_iff.1 h).1
  rw [hright.report_final hfinal name, hcreate]

/-- No file was created since it was opened, of those that are deleted or renamed to another name. -/
def FileStep.ClosedBefore (h : JournalHistory) : FileStep → Prop
  | .delete name => ∀ acc ∈ h.files name, acc.reasons &&& usnReasonFileCreate = 0
  | .rename old new => new ≠ old → h.files new = none → ∀ acc ∈ h.files old, acc.reasons &&& usnReasonFileCreate = 0
  | .create _ | .write _ _ | .close _ => True

instance FileStep.decidableClosedBefore (h : JournalHistory) : (l : FileStep) → Decidable (l.ClosedBefore h)
  | .delete name => inferInstanceAs (Decidable (∀ acc ∈ h.files name, acc.reasons &&& usnReasonFileCreate = 0))
  | .rename old new =>
    inferInstanceAs (Decidable (new ≠ old → h.files new = none → ∀ acc ∈ h.files old, acc.reasons &&& usnReasonFileCreate = 0))
  | .create _ | .write _ _ | .close _ => .isTrue trivial

/-- The two records of a renaming, the second of which is right whatever the first is. -/
def JournalHistory.renamed (h : JournalHistory) (acc : Accumulated) (old new : WString) : JournalHistory where
  files := setFile (setFile h.files old none) new (some (acc.add usnReasonRenameNewName renameNewName_live))
  written := h.written ++ [⟨acc.reasons ||| usnReasonRenameOldName, old⟩] ++
    [⟨(acc.add usnReasonRenameNewName renameNewName_live).reasons, new⟩]

theorem isMasked_renamed (acc : Accumulated) (name : WString) :
    JournalNote.isMasked ⟨(acc.add usnReasonRenameNewName renameNewName_live).reasons, name⟩ = true := by
  refine decide_eq_true (fun hmask => ?_)
  have hname := (or_and_eq_zero_iff.1 hmask).2
  exact absurd hname (by decide)

/-- A renaming to the same name keeps the last records right. -/
theorem JournalHistory.LastRight.report_same (hright : h.LastRight) (acc : Accumulated) :
    (h.renamed acc name name).LastRight := by
  intro n type hlast
  rw [renamed] at hlast
  by_cases hn : n = name
  · subst hn
    rw [lastType_concat, if_pos ⟨isMasked_renamed acc n, rfl⟩] at hlast
    obtain rfl := Option.some.inj hlast
    simp only [renamed, setFile_self]
    exact rightType_of_live (acc.add usnReasonRenameNewName renameNewName_live).live
  · rw [lastType_concat_of_ne _ hn, lastType_concat_of_ne _ hn] at hlast
    simp only [renamed, setFile_of_ne _ _ hn]
    exact hright n type hlast

/-- A renaming to another name does exactly if the file was not created since it was opened. -/
theorem JournalHistory.LastRight.report_renamed (hright : h.LastRight) (acc : Accumulated) {old new : WString}
    (hne : new ≠ old) :
    (h.renamed acc old new).LastRight ↔ acc.reasons &&& usnReasonFileCreate = 0 := by
  have hcreate : (acc.reasons ||| usnReasonRenameOldName) &&& usnReasonFileCreate = 0 ↔
      acc.reasons &&& usnReasonFileCreate = 0 := or_and_eq_zero_iff_left (by decide)
  have hfinal : (acc.reasons ||| usnReasonRenameOldName) &&& finalReasons ≠ 0 := or_and_ne_zero (by decide)
  rw [← hcreate, ← hright.report_final hfinal old]
  constructor
  · intro hafter n type hlast
    by_cases hn : n = new
    · -- the new name had the records it has now, but for the last
      subst hn
      rw [lastType_concat_of_ne _ hne] at hlast
      simp only [setFile_of_ne _ _ hne]
      exact hright n type hlast
    · have hrenamed := hafter n type (by rw [renamed, lastType_concat_of_ne _ hn]; exact hlast)
      simp only [renamed, setFile_of_ne _ _ hn] at hrenamed
      exact hrenamed
  · intro hbefore
    exact hbefore.report_live (acc.add usnReasonRenameNewName renameNewName_live).live _ (.inl (isMasked_renamed acc new))

/-- The steps that keep the last records right are those. -/
theorem JournalHistory.lastRight_step_iff (hright : h.LastRight) (l : FileStep) :
    (h.step l).LastRight ↔ l.ClosedBefore h := by
  cases l with
  | create name =>
    refine iff_of_true ?_ trivial
    rw [step]
    split
    · exact hright
    · have hmasked : usnReasonFileCreate &&& reasonMask ≠ 0 := by decide
      exact hright.report_live fileCreate_live _ (.inl (decide_eq_true hmasked))
  | write name reason =>
    refine iff_of_true ?_ trivial
    rw [step]
    split
    · exact hright
    · rename_i acc hacc
      simp only
      split
      · exact hright
      · exact hright.report_live (acc.add reason.reason reason.live).live _ (.inr (by rw [hacc]; rfl))
  | close name =>
    refine iff_of_true ?_ trivial
    rw [step]
    split
    · exact hright
    · rename_i acc hacc
      split
      · exact hright
      · exact hright.report_live (or_and_eq_zero_iff.2 ⟨acc.live, close_live⟩) _ (.inr (by rw [hacc]; rfl))
  | delete name =>
    rw [step, FileStep.ClosedBefore]
    split
    · rename_i hnone
      exact iff_of_true hright (by rw [hnone]; simp)
    · rename_i acc hacc
      rw [hacc]
      refine (hright.report_deleted acc).trans ?_
      simp
  | rename old new =>
    rw [step, FileStep.ClosedBefore]
    split
    · rename_i hnone
      exact iff_of_true hright (by rw [hnone]; simp)
    · rename_i acc hacc
      split
      · rename_i htaken
        refine iff_of_true hright (fun _ hfree => ?_)
        rw [hfree] at htaken
        exact absurd htaken.2 (by simp)
      · rename_i hfree
        by_cases hne : new = old
        · subst hne
          exact iff_of_true (hright.report_same acc) (fun h => absurd rfl h)
        · have hnone : h.files new = none := by
            by_contra hsome
            exact hfree ⟨hne, Option.isSome_iff_ne_none.2 hsome⟩
          have hrenamed := hright.report_renamed acc hne
          rw [hacc]
          refine hrenamed.trans ?_
          simp [hne, hnone]

/-! ## Runs -/

/-- The last records are right all along exactly in the histories of such steps. -/
theorem lastRight_iff_meets (files : WString → Option Accumulated) (steps : List FileStep) :
    Along JournalHistory.LastRight JournalHistory.step ⟨files, []⟩ steps ↔
      Meets (fun h l => FileStep.ClosedBefore h l) JournalHistory.step ⟨files, []⟩ steps := by
  have hstart : JournalHistory.LastRight ⟨files, []⟩ := by
    intro name type hlast
    cases hlast
  exact along_iff_meets (I := fun _ => True) (fun _ _ _ _ _ => trivial)
    (fun _ l _ hright _ => JournalHistory.lastRight_step_iff hright l) trivial hstart (meets_trivial _ _ _)

/-- A step only adds records. -/
theorem JournalHistory.length_written_step_le (h : JournalHistory) (l : FileStep) :
    h.written.length ≤ (h.step l).written.length := by
  cases l <;> simp only [step] <;> repeat' split
  all_goals simp

theorem JournalHistory.length_written_final_le (h : JournalHistory) (steps : List FileStep) :
    h.written.length ≤ (final step h steps).written.length := by
  induction steps generalizing h with
  | nil => exact Nat.le_refl _
  | cons l steps ih => exact (h.length_written_step_le l).trans (ih (h.step l))

/-! ## Replays -/

/-- A replay that was not interrupted gives the events of all that was written. -/
theorem JournalHistory.Replayed.events_eq {root : WString} {h : JournalHistory} {events : List FileChangeEvent}
    (hreplayed : h.Replayed root events) :
    events = (h.written.filter JournalNote.isMasked).map (JournalNote.event root) := by
  obtain ⟨j, s, c, volume, hholds, hserves, hreplay, hread⟩ := hreplayed
  obtain ⟨-, rfl⟩ := replaySince_events hserves hreplay
  have hall : Cursor.between JournalRecord.usn s.toInt64 c.toInt64 j.masked.entries =
      (j.entries.filter (fun r => s.toInt64 ≤ r.usn)).filter JournalRecord.isMasked := by
    have hbefore : Cursor.between JournalRecord.usn s.toInt64 c.toInt64 j.masked.entries =
        (j.entries.filter JournalRecord.isMasked).filter (fun r => s.toInt64 ≤ r.usn) :=
      List.filter_congr (fun r hr => by simp [hread r hr])
    rw [hbefore, List.filter_filter, List.filter_filter]
    exact List.filter_congr (fun r _ => Bool.and_comm _ _)
  rw [UsnJournal.eventsBetween, hall, ← hholds, List.filter_map, List.map_map]
  rfl

/-- The records written, at the USNs 0, 1, 2 and so on. -/
def numbered (written : List JournalNote) (hlen : written.length < 2 ^ 63) : UsnJournal where
  entries := written.mapIdx (fun i note => ⟨Int64.ofNat i, note.reason, note.fileName⟩)
  frontier := Int64.ofNat written.length
  ordered := by
    rw [List.pairwise_iff_getElem]
    intro i k hi hk hlt
    rw [List.length_mapIdx] at hi hk
    simp only [List.getElem_mapIdx]
    rw [Int64.lt_iff_toInt_lt, Int64.toInt_ofNat_of_lt (by omega), Int64.toInt_ofNat_of_lt (by omega)]
    omega
  below := by
    intro r hr
    obtain ⟨i, hi, rfl⟩ := List.mem_mapIdx.1 hr
    simp only
    rw [Int64.lt_iff_toInt_lt, Int64.toInt_ofNat_of_lt (by omega), Int64.toInt_ofNat_of_lt hlen]
    omega

/-- Such a journal holds what was written. -/
theorem holds_numbered {written : List JournalNote} (hlen : written.length < 2 ^ 63) :
    (numbered written hlen).Holds 0 written := by
  have hall : (numbered written hlen).entries.filter (fun r => (0 : UInt64).toInt64 ≤ r.usn) =
      (numbered written hlen).entries := by
    rw [List.filter_eq_self]
    intro r hr
    obtain ⟨i, hi, rfl⟩ := List.mem_mapIdx.1 hr
    refine decide_eq_true ?_
    rw [Int64.le_iff_toInt_le, Int64.toInt_ofNat_of_lt (by omega)]
    exact Int.natCast_nonneg i
  rw [UsnJournal.Holds, hall]
  apply List.ext_getElem?
  intro i
  rw [List.getElem?_map, numbered, List.getElem?_mapIdx]
  cases written[i]? <;> rfl

/-- Any journal can be replayed in one batch. -/
theorem UsnJournal.exists_replay (root : WString) (j : UsnJournal) (s : UInt64) :
    ∃ events c volume, j.Serves s volume ∧ replaySince root volume s = some (events, c) ∧ j.ReadTo c := by
  have hbelow : ∀ r ∈ j.masked.entries, r.usn < j.frontier := fun r hr => j.below r (List.mem_of_mem_filter hr)
  by_cases hend : s.toInt64 ≤ j.frontier
  · generalize hbatch : Cursor.between JournalRecord.usn s.toInt64 j.frontier j.masked.entries = batch
    have hserves : j.Serves s (some [.batch j.frontier batch, .short]) := by
      rintro answers ⟨⟩
      exact ⟨hend, le_max_right _ _, hbatch.symm, trivial⟩
    cases batch with
    | nil =>
      refine ⟨[], s, _, hserves, by simp [replaySince, replayLoop], fun r hr => not_le.1 (fun hle => ?_)⟩
      have hmem : r ∈ Cursor.between JournalRecord.usn s.toInt64 j.frontier j.masked.entries :=
        Cursor.mem_between.2 ⟨hr, hle, hbelow r hr⟩
      rw [hbatch] at hmem
      cases hmem
    | cons r batch =>
      refine ⟨_, j.frontier.toUInt64, _, hserves, rfl, fun r hr => ?_⟩
      rw [Int64.toInt64_toUInt64]
      exact hbelow r hr
  · exact ⟨[], s, none, fun _ h => (by cases h), rfl, fun r hr => (hbelow r hr).trans (not_le.1 hend)⟩

/-- What was written is replayed from some journal, if USNs are enough for it. -/
theorem JournalHistory.exists_replayed (root : WString) {h : JournalHistory} (hlen : h.written.length < 2 ^ 63) :
    ∃ events, h.Replayed root events := by
  obtain ⟨events, c, volume, hserves, hreplay, hread⟩ := (numbered h.written hlen).exists_replay root 0
  exact ⟨events, numbered h.written hlen, 0, c, volume, holds_numbered hlen, hserves, hreplay, hread⟩

/-- A replay that is not interrupted says for every name what is there. -/
def JournalHistory.Classified (root : WString) (h : JournalHistory) : Prop :=
  ∀ events, h.Replayed root events → LastEventsRight root h.files events

/-- What the last records say is what every replay says. -/
theorem JournalHistory.LastRight.classified {h : JournalHistory} (hright : h.LastRight) (root : WString) :
    h.Classified root := by
  intro events hreplayed
  rw [hreplayed.events_eq]
  exact (lastEventsRight_iff root h).2 hright

theorem JournalHistory.Classified.lastRight {root : WString} {h : JournalHistory} (hclassified : h.Classified root)
    (hlen : h.written.length < 2 ^ 63) : h.LastRight := by
  obtain ⟨events, hreplayed⟩ := exists_replayed root hlen
  have hright := hclassified events hreplayed
  rw [hreplayed.events_eq] at hright
  exact (lastEventsRight_iff root h).1 hright

/-- In every history that deletes and renames no file between its creation and its close, every replay says of each name what
is there, at every moment; and, as long as the USNs are enough, in no other history. -/
theorem replay_classifies_iff (root : WString) (files : WString → Option Accumulated) (steps : List FileStep) :
    (Meets (fun h l => FileStep.ClosedBefore h l) JournalHistory.step ⟨files, []⟩ steps →
        Along (JournalHistory.Classified root) JournalHistory.step ⟨files, []⟩ steps) ∧
      ((final JournalHistory.step ⟨files, []⟩ steps).written.length < 2 ^ 63 →
        Along (JournalHistory.Classified root) JournalHistory.step ⟨files, []⟩ steps →
          Meets (fun h l => FileStep.ClosedBefore h l) JournalHistory.step ⟨files, []⟩ steps) := by
  constructor
  · intro hmeets
    exact ((lastRight_iff_meets files steps).2 hmeets).imp (fun _ hright => hright.classified root)
  · intro hlen halong
    refine (lastRight_iff_meets files steps).1 (fun k => (halong k).lastRight ?_)
    have hle := JournalHistory.length_written_final_le (final JournalHistory.step ⟨files, []⟩ (steps.take k)) (steps.drop k)
    rw [← final_append, List.take_append_drop] at hle
    omega

namespace JournalWitness

open ReplayWitness

/-- A history that starts with no file. -/
def start : JournalHistory := ⟨fun _ => none, []⟩

/-- A file is created, written and closed, then renamed, and deleted without being closed again. -/
def closedBefore : List FileStep :=
  [.create (wide ['a']), .write (wide ['a']) ⟨usnReasonDataExtend, by decide⟩, .close (wide ['a']),
    .rename (wide ['a']) (wide ['b']), .delete (wide ['b'])]

theorem replay_classifies_iff_closedBefore :
    Along (JournalHistory.Classified root) JournalHistory.step start closedBefore :=
  (replay_classifies_iff root start.files closedBefore).1 (by decide)

/-- A file is created and deleted before it is closed. -/
def createDelete : List FileStep := [.create (wide ['a']), .delete (wide ['a'])]

/-- Its records, the second of which gives the reasons of the first too. -/
def journalOfDeleted : UsnJournal :=
  ⟨[⟨8, usnReasonFileCreate, wide ['a']⟩, ⟨72, usnReasonFileCreate ||| usnReasonFileDelete ||| usnReasonClose, wide ['a']⟩],
    136, by decide, by decide⟩

/-- Both events for the file. -/
def addedTwice : List FileChangeEvent := [event createdA, event createdA]

theorem replayed_createDelete : (final JournalHistory.step start createDelete).Replayed root addedTwice := by
  refine ⟨journalOfDeleted, 0, 136, some [.batch 136 journalOfDeleted.entries, .short], ?_, ?_, ?_, ?_⟩
  · rfl
  · rintro answers ⟨⟩
    exact ⟨by decide, by decide, rfl, trivial⟩
  · rfl
  · intro r hr
    exact journalOfDeleted.below r (List.mem_of_mem_filter (p := JournalRecord.isMasked) hr)

end JournalWitness

open JournalWitness in
/-- A file that is created and deleted before it is closed is not there, and the last event says that it was added. -/
theorem deleted_file_reported_added :
    (final JournalHistory.step start createDelete).Replayed ReplayWitness.root addedTwice ∧
      (final JournalHistory.step start createDelete).files (wide ['a']) = none ∧
      ¬LastEventsRight ReplayWitness.root (final JournalHistory.step start createDelete).files addedTwice := by
  refine ⟨replayed_createDelete, rfl, fun h => ?_⟩
  have hlast := h (wide ['a']) (ReplayWitness.event ReplayWitness.createdA) rfl
  exact absurd hlast (by decide)

end WinIndex
