import WinIndex.DirectoryTree
import WinIndex.ScanThreads

/-!
# A rebuild publishes whole scans

However the threads of a rebuild and `Cancel` take turns, the entries that replace the index are those of complete scans of all
drives, one drive after the other, as if one thread had scanned them without being cancelled. A thread that was cancelled has
reported the beginning of its scan, and that is never published.
-/

namespace WinIndex

open Cancel Trace

variable {Γ : Locale} {fs : FileSystem} {excludedPaths : List WString} {calls : WString → Nat}

/-! ## What a scan comes to -/

/-- The loop over a queue reports the same with as much fuel as there are directories pending, and with more. -/
theorem FindFileScanner.scanQueue_of_le {fuel : Nat} {dirQueue : List WString} (h : fs.pending dirQueue ≤ fuel) :
    scanQueue Γ fs excludedPaths fuel dirQueue = scanQueue Γ fs excludedPaths (fs.pending dirQueue) dirQueue := by
  have hmono : ∀ fuel fuel' dirQueue out, fuel ≤ fuel' →
      scanDirectory Γ fs.findFiles excludedPaths fuel dirQueue = some out →
        scanDirectory Γ fs.findFiles excludedPaths fuel' dirQueue = some out := by
    intro fuel
    induction fuel with
    | zero =>
      intro fuel' dirQueue out _ hout
      cases dirQueue with
      | nil => cases fuel' <;> exact hout
      | cons dir dirQueue => nomatch hout
    | succ fuel ih =>
      intro fuel' dirQueue out hle hout
      obtain ⟨n, rfl⟩ : ∃ n, fuel' = n + 1 := ⟨fuel' - 1, by omega⟩
      cases dirQueue with
      | nil => exact hout
      | cons dir dirQueue =>
        rw [scanDirectory] at hout ⊢
        split at hout
        · rename_i hexcl
          rw [if_pos hexcl]
          exact ih n dirQueue out (by omega) hout
        · rename_i hexcl
          rw [if_neg hexcl]
          cases hf : fs.findFiles (searchPattern dir) with
          | none =>
            rw [hf] at hout
            exact ih n dirQueue out (by omega) hout
          | some fds =>
            rw [hf] at hout
            obtain ⟨rest, hrest, rfl⟩ := Option.map_eq_some_iff.1 hout
            simp only
            rw [ih n _ rest (by omega) hrest, Option.map_some]
  have hleast := scanDirectory_eq_scanQueue Γ fs excludedPaths (Nat.le_refl (fs.pending dirQueue))
  have hmore := hmono _ fuel dirQueue _ h hleast
  rw [scanDirectory_eq_scanQueue Γ fs excludedPaths h] at hmore
  exact Option.some.inj hmore

/-- What the loop over a queue reports. -/
def FindFileScanner.under (Γ : Locale) (fs : FileSystem) (excludedPaths : List WString) (dirQueue : List WString) :
    List FileEntry := scanQueue Γ fs excludedPaths (fs.pending dirQueue) dirQueue

/-- The directory that is taken out of the queue reports its files, and puts its subdirectories at the end. -/
theorem FindFileScanner.under_cons (current : WString) (dirQueue : List WString) :
    under Γ fs excludedPaths (current :: dirQueue) =
      if FindFileScanner.isExcluded Γ current excludedPaths then under Γ fs excludedPaths dirQueue
      else
        match fs.findFiles (searchPattern current) with
        | none => under Γ fs excludedPaths dirQueue
        | some fds => filesIn Γ current fds ++ under Γ fs excludedPaths (dirQueue ++ subdirs current fds) := by
  have hp : fs.pending (current :: dirQueue) = fs.below current + fs.pending dirQueue + 1 := by
    simp only [FileSystem.pending, List.map_cons, List.sum_cons]
    omega
  rw [under, hp, scanQueue]
  split
  · exact scanQueue_of_le (by omega)
  · cases hf : fs.findFiles (searchPattern current) with
    | none => exact scanQueue_of_le (by omega)
    | some fds =>
      have hsub := fs.below_subdirs current fds hf
      have hq : fs.pending (dirQueue ++ subdirs current fds) =
          fs.pending dirQueue + ((subdirs current fds).map (fun sub => fs.below sub + 1)).sum := by
        simp [FileSystem.pending]
      exact congrArg (filesIn Γ current fds ++ ·) (scanQueue_of_le (by omega))

/-- What the records of a table report. -/
def MftScanner.emitted (Γ : Locale) (excludedPaths : List WString) (root : WString) (m : MftVolume)
    (rest : List (UInt64 × MftEntry)) : List FileEntry :=
  ((rest.filter (fun e => e.2.attributes &&& fileAttributeDirectory = 0)).map (fun e => e.2.entry Γ m root)).filter
    (fun fe => !MftScanner.isExcluded Γ fe.path excludedPaths)

/-- What a scanner will have reported when it is through, if it is not cancelled. -/
def ScanPlace.whole (Γ : Locale) (fs : FileSystem) (excludedPaths : List WString) : ScanPlace → List FileEntry
  | .starting root => scanDriveInto Γ fs excludedPaths root
  | .queued dirQueue found => found ++ FindFileScanner.under Γ fs excludedPaths dirQueue
  | .listing current fd rest dirQueue found =>
    found ++ (filesIn Γ current (fd :: rest) ++
      FindFileScanner.under Γ fs excludedPaths (dirQueue ++ subdirs current (fd :: rest)))
  | .enumerating root _ => MftScanner.scan Γ fs excludedPaths root
  | .resolving root rest found => found ++ (fs.mftOf root).elim [] (fun m => MftScanner.emitted Γ excludedPaths root m rest)

/-- What it has reported is the beginning of that. -/
theorem ScanPlace.found_prefix (p : ScanPlace) : p.found <+: p.whole Γ fs excludedPaths := by
  cases p with
  | starting root | enumerating root calls => exact List.nil_prefix
  | queued _ _ | listing _ _ _ _ _ | resolving _ _ _ => exact List.prefix_append _ _

theorem whole_nextEntry (current : WString) (rest : List FindData) (dirQueue : List WString) (found : List FileEntry) :
    (nextEntry current rest dirQueue found).whole Γ fs excludedPaths =
      found ++ (filesIn Γ current rest ++ FindFileScanner.under Γ fs excludedPaths (dirQueue ++ subdirs current rest)) := by
  cases rest with
  | nil => simp [nextEntry, ScanPlace.whole, filesIn, subdirs]
  | cons fd rest => rfl

/-- An entry in front of a listing adds a file, or a directory to go into, or nothing. -/
theorem filesIn_cons (current : WString) (fd : FindData) (rest : List FindData) :
    filesIn Γ current (fd :: rest) =
      if !fd.skipped && !fd.isDirectory then fd.entry Γ current :: filesIn Γ current rest else filesIn Γ current rest := by
  rw [filesIn, List.filter_cons]
  split <;> rfl

theorem subdirs_cons (current : WString) (fd : FindData) (rest : List FindData) :
    subdirs current (fd :: rest) =
      if !fd.skipped && fd.isDirectory then fullPath current fd.cFileName :: subdirs current rest else subdirs current rest := by
  rw [subdirs, List.filter_cons]
  split <;> rfl

/-- A record in front of others adds its file, or nothing. -/
theorem MftScanner.emitted_cons (root : WString) (m : MftVolume) (frn : UInt64) (e : MftEntry) (rest : List (UInt64 × MftEntry)) :
    emitted Γ excludedPaths root m ((frn, e) :: rest) =
      if e.isDirectory || MftScanner.isExcluded Γ (e.entry Γ m root).path excludedPaths then emitted Γ excludedPaths root m rest
      else e.entry Γ m root :: emitted Γ excludedPaths root m rest := by
  rw [emitted, List.filter_cons, MftEntry.isDirectory]
  by_cases hdir : e.attributes &&& fileAttributeDirectory = 0
  · rw [if_pos (decide_eq_true hdir), List.map_cons, List.filter_cons]
    by_cases hexcl : MftScanner.isExcluded Γ (e.entry Γ m root).path excludedPaths = true <;> simp [hdir, hexcl, emitted]
  · rw [if_neg (by simpa using hdir), if_pos (by simp [hdir]), emitted]

/-- It does not change on the way. -/
theorem whole_scanNext (p p' : ScanPlace) (h : scanNext Γ fs excludedPaths calls p = some p') :
    p'.whole Γ fs excludedPaths = p.whole Γ fs excludedPaths := by
  cases p with
  | starting root =>
    cases h
    rw [ScanPlace.whole, scanDriveInto]
    split
    · rfl
    · rfl
  | queued dirQueue found =>
    cases dirQueue with
    | nil => nomatch h
    | cons current dirQueue =>
      rw [ScanPlace.whole, FindFileScanner.under_cons]
      rw [scanNext] at h
      split at h
      · rename_i hexcl
        cases h
        rw [if_pos hexcl]
        rfl
      · rename_i hexcl
        rw [if_neg hexcl]
        cases hf : fs.findFiles (searchPattern current) with
        | none =>
          rw [hf] at h
          cases h
          rfl
        | some fds =>
          rw [hf] at h
          cases h
          exact whole_nextEntry current fds dirQueue found
  | listing current fd rest dirQueue found =>
    rw [scanNext] at h
    rw [ScanPlace.whole, filesIn_cons, subdirs_cons]
    split at h
    · rename_i hskipped
      cases h
      simp [whole_nextEntry, hskipped]
    · rename_i hskipped
      split at h
      · rename_i hdir
        cases h
        simp [whole_nextEntry, hskipped, hdir]
      · rename_i hdir
        cases h
        simp [whole_nextEntry, hskipped, hdir]
  | enumerating root calls =>
    cases calls with
    | zero =>
      cases h
      rw [ScanPlace.whole, ScanPlace.whole, MftScanner.scan, List.nil_append]
      cases fs.mftOf root <;> rfl
    | succ calls =>
      cases h
      rfl
  | resolving root rest found =>
    cases rest with
    | nil => nomatch h
    | cons r rest =>
      obtain ⟨frn, e⟩ := r
      rw [scanNext] at h
      rw [ScanPlace.whole]
      cases hm : fs.mftOf root with
      | none =>
        rw [hm] at h
        nomatch h
      | some m =>
        rw [hm] at h
        simp only at h
        rw [Option.elim_some, MftScanner.emitted_cons]
        split at h
        · rename_i hskip
          cases h
          rw [if_pos hskip, ScanPlace.whole, hm]
          rfl
        · rename_i hskip
          cases h
          rw [if_neg hskip, ScanPlace.whole, hm, List.append_assoc]
          rfl

/-- A scanner that is through has reported it. -/
theorem found_of_scanNext_eq_none {p : ScanPlace} (h : scanNext Γ fs excludedPaths calls p = none) :
    p.found = p.whole Γ fs excludedPaths := by
  cases p with
  | starting root => cases h
  | queued dirQueue found =>
    cases dirQueue with
    | nil => simp [ScanPlace.found, ScanPlace.whole, FindFileScanner.under, FileSystem.pending, FindFileScanner.scanQueue]
    | cons current dirQueue =>
      rw [scanNext] at h
      split at h
      · cases h
      · split at h <;> cases h
  | listing current fd rest dirQueue found =>
    rw [scanNext] at h
    split at h
    · cases h
    · split at h <;> cases h
  | enumerating root calls => cases calls <;> cases h
  | resolving root rest found =>
    cases rest with
    | nil =>
      rw [ScanPlace.whole]
      cases fs.mftOf root <;> simp [ScanPlace.found, MftScanner.emitted]
    | cons r rest =>
      rw [scanNext] at h
      rw [ScanPlace.whole]
      cases hm : fs.mftOf root with
      | none => simp [ScanPlace.found]
      | some m =>
        rw [hm] at h
        simp only at h
        split at h <;> cases h

/-! ## Rebuilds -/

/-- The state of a rebuild: the threads scan side by side, and what is published is a complete scan. -/
structure RebuildThreads.Sound (Γ : Locale) (fs : FileSystem) (excludedPaths : List WString) (calls : WString → Nat)
    (drives : List WString) (s : RebuildThreads) : Prop where
  alone : Alone (scanNext Γ fs excludedPaths calls) (drives.map .starting) s.scans
  whole : ∀ entries, s.outcome = .published entries → entries = scanAll Γ fs excludedPaths drives

variable {drives : List WString} {s : RebuildThreads}

/-- The threads that are through, and none of which has stopped, have reported complete scans. -/
theorem flatMap_found_of_through
    (halone : Alone (scanNext Γ fs excludedPaths calls) (drives.map .starting) s.scans)
    (hthrough : ∀ j ∈ s.scans.jobs, j.isThrough (scanNext Γ fs excludedPaths calls) = true)
    (hnone : ∀ j ∈ s.scans.jobs, j.stopped = false) :
    s.scans.jobs.flatMap (fun j => j.place.found) = scanAll Γ fs excludedPaths drives := by
  have hended := halone.ended hthrough hnone
  rw [List.forall₂_map_left_iff] at hended
  clear halone
  generalize s.scans.jobs = jobs at hended
  induction hended with
  | nil => rfl
  | cons hj _ ih =>
    rw [List.flatMap_cons, ih, scanAll, scanAll, List.flatMap_cons, found_of_scanNext_eq_none hj.2,
      hj.1.invariant whole_scanNext]
    rfl

theorem RebuildThreads.Sound.step (h : s.Sound Γ fs excludedPaths calls drives) (l : RebuildTurn) :
    (s.step Γ fs excludedPaths calls l).Sound Γ fs excludedPaths calls drives := by
  cases l with
  | scan t => exact ⟨h.alone.step t, h.whole⟩
  | join looks =>
    rw [RebuildThreads.step]
    split
    · split
      · rename_i hthrough
        split
        · exact ⟨h.alone, fun _ hpublished => (nomatch hpublished)⟩
        · rename_i hgo
          rw [Bool.or_eq_true, not_or] at hgo
          refine ⟨h.alone, fun entries hpublished => ?_⟩
          cases hpublished
          exact flatMap_found_of_through h.alone (List.all_eq_true.1 hthrough) (by simpa using hgo.2)
      · exact h
    · exact h

/-- The state of a rebuild stays that way from the beginning. -/
theorem RebuildThreads.sound_run (Γ : Locale) (fs : FileSystem) (excludedPaths : List WString) (calls : WString → Nat)
    (drives : List WString) (steps : List RebuildTurn) :
    (final (RebuildThreads.step Γ fs excludedPaths calls) (.start drives) steps).Sound Γ fs excludedPaths calls drives := by
  have hstart : (RebuildThreads.start drives).Sound Γ fs excludedPaths calls drives := ⟨alone_start _, fun _ h => (nomatch h)⟩
  exact (along_of_step (fun _ l h _ => h.step l) hstart (meets_trivial _ _ steps)).final

/-- For every file system, every list of drives, and every order in which the threads of a rebuild, `Cancel` and the thread that
joins them take their turns, however late they see that the token is set: at every moment each thread has reported the beginning
of the scan of its drive, and what replaces the index is what one thread reports that scans the drives one after the other and is
not cancelled. -/
theorem rebuild_publishes_whole_scans (Γ : Locale) (fs : FileSystem) (excludedPaths : List WString) (calls : WString → Nat)
    (drives : List WString) (steps : List RebuildTurn) :
    let s := final (RebuildThreads.step Γ fs excludedPaths calls) (.start drives) steps
    List.Forall₂ (fun drive j => j.place.found <+: scanDriveInto Γ fs excludedPaths drive) drives s.scans.jobs ∧
      ∀ entries, s.outcome = .published entries → entries = scanAll Γ fs excludedPaths drives := by
  intro s
  have h : s.Sound Γ fs excludedPaths calls drives := RebuildThreads.sound_run Γ fs excludedPaths calls drives steps
  refine ⟨?_, h.whole⟩
  refine (List.forall₂_map_left_iff.1 h.alone).imp (fun drive j hj => ?_)
  have hwhole : j.place.whole Γ fs excludedPaths = scanDriveInto Γ fs excludedPaths drive := hj.1.invariant whole_scanNext
  have hprefix : j.place.found <+: j.place.whole Γ fs excludedPaths := j.place.found_prefix
  rwa [hwhole] at hprefix

end WinIndex
