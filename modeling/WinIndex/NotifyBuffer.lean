import WinIndex.Indexer
import WinIndex.Lib.Bytes
import WinIndex.Lib.RecordWalk
import WinIndex.Lib.Trace

/-!
# The buffers of change notifications

`ChangeWatcher::RunWatch` (src/core/indexer/ChangeWatcher.cpp) gets the changes below a root in a buffer of bytes, each as a
`FILE_NOTIFY_INFORMATION` that says how far the next one is, and the last one that there is none. The system keeps the changes
until they are asked for, and when there are too many it forgets them all and returns no bytes for once.
-/

namespace WinIndex

open LittleEndian RecordWalk Segments

/-! ## Reading a buffer -/

/-- The fields that are read through `info->`, but for `NextEntryOffset`. -/
structure NotifyView where
  action : UInt32
  fileName : WString
  deriving DecidableEq

/-- Where `FileName` stands. -/
def notifyNameOffset : Nat := 12

/-- `info->FileNameLength / sizeof(wchar_t)`. -/
def notifyNameLength (buf : List UInt8) (pos : Nat) : Nat := (fieldU32 buf (pos + 8)).toNat / 2

/-- The fields of the notification at a position. -/
def notifyView (buf : List UInt8) (pos : Nat) : NotifyView where
  action := fieldU32 buf (pos + 4)
  fileName := toWide (slice buf (pos + notifyNameOffset) (2 * notifyNameLength buf pos))

/-- What is read of a notification lies in the buffer. -/
def NotifyInside (buf : List UInt8) (pos : Nat) : Prop :=
  pos + notifyNameOffset + 2 * notifyNameLength buf pos ≤ buf.length

instance decidableNotifyInside (buf : List UInt8) (pos : Nat) : Decidable (NotifyInside buf pos) := inferInstanceAs (Decidable (_ ≤ _))

/-- `while (info)` at a position. -/
def notifyNode (buf : List UInt8) (pos : Nat) : Node NotifyView :=
  if ¬NotifyInside buf pos then .outside
  else if fieldU32 buf pos = 0 then .last (notifyView buf pos)
  else .more (notifyView buf pos) (pos + (fieldU32 buf pos).toNat)

/-- The loop over a buffer. It is given as many notifications as there can be. -/
def notifyWalk (buf : List UInt8) : Outcome NotifyView := walk (notifyNode buf) (buf.length + 1) 0

/-- The event made of a notification: `switch (info->Action)`, and the root with a backslash before the name. -/
def NotifyView.event (root : WString) (v : NotifyView) : FileChangeEvent where
  type :=
    if v.action = 1 then .added
    else if v.action = 2 then .removed
    else if v.action = 5 then .added
    else if v.action = 4 then .removed
    else .modified
  path := fullPath root v.fileName
  oldPath := []

/-! ## What the system writes -/

/-- `FILE_ACTION_*`. -/
def FileAction.code : FileAction → UInt32
  | .added => 1
  | .removed => 2
  | .modified => 3
  | .renamedOldName => 4
  | .renamedNewName => 5

/-- `FILE_NOTIFY_INFORMATION`, and what the system puts behind it. -/
structure RawNotification where
  action : FileAction
  fileName : WString
  padding : List UInt8

def RawNotification.length (r : RawNotification) : Nat := notifyNameOffset + 2 * r.fileName.length + r.padding.length

/-- The bytes of a notification with its `NextEntryOffset`. -/
def RawNotification.bytesWith (r : RawNotification) (nextEntryOffset : UInt32) : List UInt8 :=
  u32 nextEntryOffset ++ u32 r.action.code ++ u32 (UInt32.ofNat (2 * r.fileName.length)) ++ LittleEndian.wide r.fileName ++ r.padding

/-- The bytes of a notification that is not the last. -/
def RawNotification.bytes (r : RawNotification) : List UInt8 := r.bytesWith (UInt32.ofNat r.length)

/-- The length fits its field, so that of the name does. -/
def RawNotification.Fits (r : RawNotification) : Prop := r.length < 2 ^ 32

/-- What it says. -/
def RawNotification.note (r : RawNotification) : FileAction × WString := (r.action, r.fileName)

/-- The fields that are read. -/
def RawNotification.view (r : RawNotification) : NotifyView := ⟨r.action.code, r.fileName⟩

/-- A buffer that the system has filled, and what it held behind the notifications before. -/
def notifyBuffer (records : List RawNotification) (last : RawNotification) (rest : List UInt8) : List UInt8 :=
  records.flatMap RawNotification.bytes ++ last.bytesWith 0 ++ rest

/-! ## Watching -/

/-- What a turn of `RunWatch` waits for: the stop event, or an error; or a buffer and the number of bytes returned. -/
inductive WatchAnswer where
  | stopped
  | filled (buf : List UInt8) (bytesReturned : Nat)

/-- `while (!m_stop.load())`: the events given to the callback, or nothing when the walk over a buffer goes wrong. -/
def runWatch (root : WString) : List WatchAnswer → Option (List FileChangeEvent)
  | [] => some []
  | .stopped :: _ => some []
  | .filled buf bytesReturned :: answers =>
    if bytesReturned = 0 then runWatch root answers
    else
      match notifyWalk buf with
      | .ended records => (runWatch root answers).map (records.map (NotifyView.event root) ++ ·)
      | _ => none

/-- The changes that the system keeps for the watcher, and whether it has forgotten some. -/
structure ChangeQueue where
  queue : List (FileAction × WString)
  overflowed : Bool

/-- A change below the root is kept, all that are kept are forgotten, or a read is answered: with what is kept up to some
notification, if nothing was forgotten. -/
inductive ChangeStepOfRoot where
  | changed (action : FileAction) (name : WString)
  | overflow
  | read (records : List RawNotification) (last : RawNotification) (rest : List UInt8)

/-- What a step leaves of the changes. -/
def ChangeQueue.step (s : ChangeQueue) : ChangeStepOfRoot → ChangeQueue
  | .changed action name => { s with queue := s.queue ++ [(action, name)] }
  | .overflow => { queue := [], overflowed := true }
  | .read records _ _ => if s.overflowed then { s with overflowed := false } else { s with queue := s.queue.drop (records.length + 1) }

/-- What the turn of the watcher gets, if the step is a read. -/
def ChangeQueue.answer (s : ChangeQueue) : ChangeStepOfRoot → Option WatchAnswer
  | .changed _ _ | .overflow => none
  | .read records last rest =>
    if s.overflowed then some (.filled rest 0)
    else
      some (.filled (notifyBuffer records last rest) ((records.flatMap RawNotification.bytes).length + (last.bytesWith 0).length))

/-- A read that is answered with changes has those that were kept first. -/
def ChangeStepOfRoot.Answers (s : ChangeQueue) : ChangeStepOfRoot → Prop
  | .changed _ _ | .overflow => True
  | .read records last _ =>
    s.overflowed = true ∨
      (∀ r ∈ records ++ [last], r.Fits) ∧ (records ++ [last]).map RawNotification.note <+: s.queue

/-- The answers of a run. -/
def ChangeQueue.answers : ChangeQueue → List ChangeStepOfRoot → List WatchAnswer
  | _, [] => []
  | s, l :: ls => (s.answer l).toList ++ (s.step l).answers ls

/-- The changes of a run, in their order. -/
def changesOf (ls : List ChangeStepOfRoot) : List (FileAction × WString) :=
  ls.flatMap (fun l => match l with
    | .changed action name => [(action, name)]
    | .overflow | .read _ _ _ => [])

end WinIndex
