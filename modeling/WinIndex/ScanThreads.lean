import WinIndex.Indexer
import WinIndex.Lib.Cancel

/-!
# The threads of a rebuild

`IndexingThread` (src/core/indexer/Indexer.cpp) scans every drive on a thread of its own, into a buffer of its own, waits for all
of them, and replaces the index if it has not been cancelled. The scanners look at `m_cancel` before every directory and every
file of a directory, and before every call of the driver and every file of the table; where they find it set they leave.
-/

namespace WinIndex

open Trace

/-! ## The scanners, from one look at the token to the next -/

/-- Where a scanner is when it is about to look at the token, with the entries it has reported. -/
inductive ScanPlace where
  /-- `Scan`, before the root. -/
  | starting (root : WString)
  /-- `FindFileScanner::ScanDirectory`, before the first directory of the queue. -/
  | queued (dirQueue : List WString) (found : List FileEntry)
  /-- At an entry of a directory, with those behind it. -/
  | listing (current : WString) (fd : FindData) (rest : List FindData) (dirQueue : List WString) (found : List FileEntry)
  /-- `MftScanner::ScanVolume`, before a call of the driver, with the number of calls that are answered. -/
  | enumerating (root : WString) (calls : Nat)
  /-- Before a record of the table, with those behind it. -/
  | resolving (root : WString) (rest : List (UInt64 × MftEntry)) (found : List FileEntry)

/-- What it has reported. -/
def ScanPlace.found : ScanPlace → List FileEntry
  | .starting _ | .enumerating _ _ => []
  | .queued _ found | .listing _ _ _ _ found | .resolving _ _ found => found

/-- Behind an entry of a directory: at the next one, or back in the loop over the queue. -/
def nextEntry (current : WString) (rest : List FindData) (dirQueue : List WString) (found : List FileEntry) : ScanPlace :=
  match rest with
  | [] => .queued dirQueue found
  | fd :: rest => .listing current fd rest dirQueue found

/-- What a scanner does behind a look at the token that has found it clear, up to the next; nothing where it does not look
again, as it is through. -/
def scanNext (Γ : Locale) (fs : FileSystem) (excludedPaths : List WString) (calls : WString → Nat) : ScanPlace → Option ScanPlace
  | .starting root => some (if usesMft fs root then .enumerating root (calls root) else .queued [root] [])
  | .queued [] _ => none
  | .queued (current :: dirQueue) found =>
    if FindFileScanner.isExcluded Γ current excludedPaths then some (.queued dirQueue found)
    else
      match fs.findFiles (searchPattern current) with
      | none => some (.queued dirQueue found)
      | some fds => some (nextEntry current fds dirQueue found)
  | .listing current fd rest dirQueue found =>
    if fd.skipped then some (nextEntry current rest dirQueue found)
    else if fd.isDirectory then some (nextEntry current rest (dirQueue ++ [fullPath current fd.cFileName]) found)
    else some (nextEntry current rest dirQueue (found ++ [fd.entry Γ current]))
  | .enumerating root (calls + 1) => some (.enumerating root calls)
  | .enumerating root 0 => some (.resolving root ((fs.mftOf root).elim [] MftVolume.entries) [])
  | .resolving _ [] _ => none
  | .resolving root ((_, e) :: rest) found =>
    match fs.mftOf root with
    | none => none
    | some m =>
      if e.isDirectory || MftScanner.isExcluded Γ (e.entry Γ m root).path excludedPaths then some (.resolving root rest found)
      else some (.resolving root rest (found ++ [e.entry Γ m root]))

/-! ## The rebuild -/

/-- What has become of a rebuild: the threads are scanning; it was cancelled; or the index was replaced by these entries. -/
inductive RebuildOutcome where
  | scanning
  | cancelled
  | published (entries : List FileEntry)

/-- A rebuild: `m_cancel` with the threads that scan, and what has become of it. -/
structure RebuildThreads where
  scans : Cancel.State ScanPlace
  outcome : RebuildOutcome

/-- A thread has its turn, or `Cancel` is called; or `IndexingThread` has joined all threads and looks at the token. -/
inductive RebuildTurn where
  | scan (t : Cancel.Turn)
  | join (looks : Bool)

/-- The effect of a step. What a thread has seen that was joined the thread that joined it sees too. -/
def RebuildThreads.step (Γ : Locale) (fs : FileSystem) (excludedPaths : List WString) (calls : WString → Nat) (s : RebuildThreads) :
    RebuildTurn → RebuildThreads
  | .scan t => { s with scans := s.scans.step (scanNext Γ fs excludedPaths calls) t }
  | .join looks =>
    match s.outcome with
    | .scanning =>
      if s.scans.jobs.all (Cancel.Job.isThrough (scanNext Γ fs excludedPaths calls)) then
        if (looks && s.scans.flag) || s.scans.jobs.any Cancel.Job.stopped then { s with outcome := .cancelled }
        else { s with outcome := .published (s.scans.jobs.flatMap (fun j => j.place.found)) }
      else s
    | _ => s

/-- The threads have been created. -/
def RebuildThreads.start (drives : List WString) : RebuildThreads := ⟨.start (drives.map .starting), .scanning⟩

end WinIndex
