import WinIndex.NotifyBuffer

/-!
# Changes read from bytes

The watcher does not look at the number of bytes returned, only at the offsets in the buffer. What the system writes is found
again, so the changes arrive in their order, each once, and what is missing was forgotten by the system. On any other bytes the
loop comes to its end exactly when no notification that it gets to reaches outside the buffer.
-/

namespace WinIndex

open LittleEndian RecordWalk Segments Trace

/-! ## The notifications of a buffer that the system has filled -/

variable {pre post : List UInt8} {r : RawNotification} {offset : UInt32}

theorem RawNotification.length_bytesWith (r : RawNotification) (offset : UInt32) : (r.bytesWith offset).length = r.length := by
  simp only [bytesWith, List.length_append, length_u32, length_wide, length, notifyNameOffset]

/-- The fields of a notification, where they stand. -/
theorem RawNotification.fields (r : RawNotification) (offset : UInt32) (post : List UInt8) :
    fieldU32 (r.bytesWith offset ++ post) 0 = offset ∧ fieldU32 (r.bytesWith offset ++ post) 4 = r.action.code ∧
      fieldU32 (r.bytesWith offset ++ post) 8 = UInt32.ofNat (2 * r.fileName.length) ∧
      slice (r.bytesWith offset ++ post) 12 (2 * r.fileName.length) = LittleEndian.wide r.fileName := by
  refine ⟨?_, ?_, ?_, ?_⟩ <;> simp (disch := simp) [fieldU32, bytesWith, slice_append_right, slice_append_here]

theorem RawNotification.Fits.nameLength (h : r.Fits) :
    notifyNameLength (pre ++ (r.bytesWith offset ++ post)) pre.length = r.fileName.length := by
  have hname : 2 * r.fileName.length < 2 ^ 32 := by
    unfold Fits RawNotification.length at h
    omega
  rw [notifyNameLength, fieldU32_append, (r.fields offset post).2.2.1, UInt32.toNat_ofNat_of_lt' hname]
  omega

theorem RawNotification.Fits.view_laid (h : r.Fits) : notifyView (pre ++ (r.bytesWith offset ++ post)) pre.length = r.view := by
  obtain ⟨-, haction, -, hname⟩ := r.fields offset post
  rw [notifyView, fieldU32_append, h.nameLength, slice_append_add, haction, notifyNameOffset, hname, toWide_wide]
  rfl

theorem RawNotification.Fits.inside_laid (h : r.Fits) : NotifyInside (pre ++ (r.bytesWith offset ++ post)) pre.length := by
  rw [NotifyInside, h.nameLength, List.length_append, List.length_append, r.length_bytesWith, RawNotification.length]
  omega

/-- The notification at its place: the last one, or with the next one behind it. -/
theorem RawNotification.Fits.node_laid (h : r.Fits) (offset : UInt32) : notifyNode (pre ++ (r.bytesWith offset ++ post)) pre.length =
    if offset = 0 then .last r.view else .more r.view (pre.length + offset.toNat) := by
  have hfield : fieldU32 (pre ++ (r.bytesWith offset ++ post)) (pre.length + 0) = fieldU32 (r.bytesWith offset ++ post) 0 :=
    fieldU32_append _ _ 0
  rw [Nat.add_zero, (r.fields offset post).1] at hfield
  rw [notifyNode, if_neg (not_not.2 h.inside_laid), h.view_laid, hfield]

/-- On a buffer that the system has filled, the loop finds the notifications that it wrote. -/
theorem notifyWalk_notifyBuffer {records : List RawNotification} {last : RawNotification} (h : ∀ r ∈ records ++ [last], r.Fits)
    (rest : List UInt8) : notifyWalk (notifyBuffer records last rest) = .ended ((records ++ [last]).map RawNotification.view) := by
  have hcount : ∀ rs : List RawNotification, rs.length ≤ (rs.flatMap RawNotification.bytes).length := by
    intro rs
    induction rs with
    | nil => exact Nat.le_refl 0
    | cons r rs ih =>
      have hlen := r.length_bytesWith (UInt32.ofNat r.length)
      rw [List.flatMap_cons, List.length_append, List.length_cons, RawNotification.bytes, hlen, RawNotification.length,
        notifyNameOffset]
      omega
  refine walk_laid_last RawNotification.bytes RawNotification.view records last ?_ (fun before r after heq => ?_) ?_
  · have := hcount records
    rw [notifyBuffer, List.length_append, List.length_append]
    omega
  · have hfits : r.Fits := h r (by rw [heq]; simp)
    have hbuf : notifyBuffer records last rest = before.flatMap RawNotification.bytes ++
        (r.bytesWith (UInt32.ofNat r.length) ++ (after.flatMap RawNotification.bytes ++ last.bytesWith 0 ++ rest)) := by
      simp [notifyBuffer, heq, RawNotification.bytes]
    have hoffset : (UInt32.ofNat r.length).toNat = r.length := UInt32.toNat_ofNat_of_lt' hfits
    have hne : UInt32.ofNat r.length ≠ 0 := by
      intro hzero
      rw [hzero] at hoffset
      unfold RawNotification.length notifyNameOffset at hoffset
      exact absurd hoffset (by simp; omega)
    rw [hbuf, Nat.zero_add, Nat.zero_add, hfits.node_laid, if_neg hne, hoffset, List.flatMap_append, List.length_append,
      List.flatMap_singleton, RawNotification.bytes, r.length_bytesWith]
  · have hbuf : notifyBuffer records last rest = records.flatMap RawNotification.bytes ++ (last.bytesWith 0 ++ rest) :=
      List.append_assoc _ _ _
    rw [hbuf, Nat.zero_add, (h last (by simp)).node_laid, if_pos rfl]

/-! ## Buffers of any content -/

theorem notifyNode_eq_more {buf : List UInt8} {pos next : Nat} {v : NotifyView} (h : notifyNode buf pos = .more v next) :
    pos < next ∧ pos < buf.length := by
  unfold notifyNode at h
  split at h
  · nomatch h
  · rename_i hin
    split at h
    · nomatch h
    · rename_i hoffset
      cases h
      rw [not_not, NotifyInside, notifyNameOffset] at hin
      have hpos : (fieldU32 buf pos).toNat ≠ 0 := fun hzero => hoffset (UInt32.toNat_inj.1 hzero)
      omega

/-- For every content of the buffer: the loop over the notifications comes to its end exactly when each that it gets to lies in
the buffer, as far as it is read. -/
theorem notifyWalk_ends_iff (buf : List UInt8) :
    (∃ records, notifyWalk buf = .ended records) ↔ ∀ pos, Reaches (notifyNode buf) 0 pos → NotifyInside buf pos := by
  have hforward : ∀ pos v next, notifyNode buf pos = .more v next → pos ≤ next ∧ pos < buf.length :=
    fun pos v next h => ⟨Nat.le_of_lt (notifyNode_eq_more h).1, (notifyNode_eq_more h).2⟩
  refine (ended_iff hforward 0).trans (forall₂_congr fun pos _ => ?_)
  constructor
  · intro h
    by_contra hin
    exact h (.inl (if_pos hin))
  · rintro hin (hout | ⟨v, hself⟩)
    · rw [notifyNode, if_neg (not_not.2 hin)] at hout
      split at hout
      · nomatch hout
      · nomatch hout
    · exact absurd (notifyNode_eq_more hself).1 (Nat.lt_irrefl _)

/-! ## Watching -/

variable {root : WString} {s : ChangeQueue}

/-- The events made of changes. -/
def eventsOf (root : WString) (changes : List (FileAction × WString)) : List FileChangeEvent :=
  changes.map (fun c => ChangeWatcher.eventOf root c.1 c.2)

theorem eventsOf_append (root : WString) (changes changes' : List (FileAction × WString)) :
    eventsOf root (changes ++ changes') = eventsOf root changes ++ eventsOf root changes' := List.map_append

/-- The event made of the bytes is that of the change. -/
theorem RawNotification.event_view (root : WString) (r : RawNotification) :
    r.view.event root = ChangeWatcher.eventOf root r.action r.fileName := by
  obtain ⟨action, name, padding⟩ := r
  cases action <;> rfl

theorem map_event_notifyView (root : WString) (records : List RawNotification) :
    (records.map RawNotification.view).map (NotifyView.event root) = eventsOf root (records.map RawNotification.note) := by
  rw [List.map_map, eventsOf, List.map_map]
  exact List.map_congr_left (fun r _ => r.event_view root)

/-- The turn that a read gives the watcher: it delivers what is taken from the changes that are kept. -/
theorem runWatch_read {records : List RawNotification} {last : RawNotification} {rest : List UInt8}
    (h : (ChangeStepOfRoot.read records last rest).Answers s) (answers : List WatchAnswer) :
    ∃ events, runWatch root ((s.answer (.read records last rest)).toList ++ answers) = (runWatch root answers).map (events ++ ·) ∧
      events ++ eventsOf root (s.step (.read records last rest)).queue = eventsOf root s.queue := by
  rw [ChangeQueue.answer, ChangeQueue.step]
  by_cases hover : s.overflowed = true
  · rw [if_pos hover, if_pos hover]
    exact ⟨[], by simp [runWatch], rfl⟩
  · obtain ⟨hfits, hprefix⟩ := h.resolve_left hover
    rw [if_neg hover, if_neg hover]
    refine ⟨eventsOf root ((records ++ [last]).map RawNotification.note), ?_, ?_⟩
    · have hlen := last.length_bytesWith 0
      rw [RawNotification.length, notifyNameOffset] at hlen
      have hsome : (records.flatMap RawNotification.bytes).length + (last.bytesWith 0).length ≠ 0 := by omega
      rw [Option.toList_some, List.singleton_append, runWatch, if_neg hsome, notifyWalk_notifyBuffer hfits]
      simp only [map_event_notifyView]
    · obtain ⟨queue, hqueue⟩ := hprefix
      have hlen : ((records ++ [last]).map RawNotification.note).length = records.length + 1 := by simp
      rw [← eventsOf_append, ← hqueue, ← hlen, List.drop_left]

/-- The changes after some moment of a run without overflows since, and what was delivered and is kept at its end. -/
def Since (root : WString) (ls : List ChangeStepOfRoot) (delivered : List FileChangeEvent) : Prop :=
  ∀ before after, ls = before ++ after → .overflow ∉ after → eventsOf root (changesOf after) <:+ delivered

/-- It holds of a run if it does of the rest, and the whole run is in order. -/
theorem Since.cons {kept : List (FileAction × WString)} {l : ChangeStepOfRoot} {ls : List ChangeStepOfRoot}
    {delivered rest : List FileChangeEvent} (h : Since root ls rest) (hsuffix : rest <:+ delivered)
    (hall : .overflow ∉ l :: ls → delivered = eventsOf root (kept ++ changesOf (l :: ls))) : Since root (l :: ls) delivered := by
  intro before after heq hno
  cases before with
  | nil =>
    obtain rfl : l :: ls = after := heq
    rw [hall hno, eventsOf_append]
    exact List.suffix_append _ _
  | cons l' before =>
    rw [List.cons_append, List.cons.injEq] at heq
    exact (h before after heq.2 hno).trans hsuffix

/-- What was delivered of a run and what is still kept: a part of what was kept before and the changes, in their order; all of it
if nothing was forgotten, and at least what was changed since. -/
theorem runWatch_run (root : WString) (ls : List ChangeStepOfRoot) (h : Meets (fun s l => l.Answers s) ChangeQueue.step s ls) :
    ∃ events, runWatch root (s.answers ls) = some events ∧
      (events ++ eventsOf root (final ChangeQueue.step s ls).queue).Sublist (eventsOf root (s.queue ++ changesOf ls)) ∧
      (.overflow ∉ ls → events ++ eventsOf root (final ChangeQueue.step s ls).queue = eventsOf root (s.queue ++ changesOf ls)) ∧
      Since root ls (events ++ eventsOf root (final ChangeQueue.step s ls).queue) := by
  induction ls generalizing s with
  | nil =>
    refine ⟨[], rfl, by simp [changesOf], fun _ => by simp [changesOf], fun before after heq _ => ?_⟩
    rw [(List.append_eq_nil_iff.1 heq.symm).2]
    exact List.nil_suffix
  | cons l ls ih =>
    obtain ⟨hl, hls⟩ := h
    obtain ⟨events, hrun, hsub, hall, hsince⟩ := ih hls
    have hrest : ∀ {l : ChangeStepOfRoot}, .overflow ∉ l :: ls → .overflow ∉ ls := fun hno hmem => hno (.tail _ hmem)
    cases l with
    | changed action name =>
      have hqueue : (s.step (.changed action name)).queue ++ changesOf ls = s.queue ++ changesOf (.changed action name :: ls) := by
        simp [ChangeQueue.step, changesOf]
      rw [hqueue] at hsub hall
      have hall' := fun hno : .overflow ∉ (.changed action name :: ls) => hall (hrest hno)
      exact ⟨events, hrun, hsub, hall', hsince.cons (List.suffix_refl _) hall'⟩
    | overflow =>
      refine ⟨events, hrun, hsub.trans ?_, fun hno => absurd List.mem_cons_self hno,
        hsince.cons (List.suffix_refl _) (fun hno => absurd List.mem_cons_self hno : _ → _ = eventsOf root (s.queue ++ _))⟩
      show (eventsOf root ([] ++ changesOf ls)).Sublist (eventsOf root (s.queue ++ changesOf ls))
      rw [List.nil_append, eventsOf_append]
      exact List.sublist_append_right _ _
    | read records last rest =>
      obtain ⟨first, hturn, hqueue⟩ := runWatch_read hl (ChangeQueue.answers _ ls)
      have hchanges : eventsOf root (s.queue ++ changesOf (.read records last rest :: ls)) =
          first ++ eventsOf root ((s.step (.read records last rest)).queue ++ changesOf ls) := by
        rw [eventsOf_append, eventsOf_append, ← hqueue, List.append_assoc]
        rfl
      have hall' : .overflow ∉ (.read records last rest :: ls) →
          first ++ events ++ eventsOf root (final ChangeQueue.step s (.read records last rest :: ls)).queue =
            eventsOf root (s.queue ++ changesOf (.read records last rest :: ls)) := by
        intro hno
        rw [hchanges, List.append_assoc]
        exact congrArg (first ++ ·) (hall (hrest hno))
      refine ⟨first ++ events, hturn.trans (by rw [hrun, Option.map_some]), ?_, hall', hsince.cons ?_ hall'⟩
      · rw [hchanges, List.append_assoc]
        exact hsub.append_left first
      · rw [List.append_assoc]
        exact List.suffix_append _ _

/-- For every order of changes below a root, overflows and reads, and every way the system writes the changes into buffers: the
watcher reads every buffer to its end, and with what is still kept it has delivered some of the changes, in their order and each
once; without an overflow none is missing, and with one none that came after the last. -/
theorem changes_delivered (root : WString) (ls : List ChangeStepOfRoot)
    (h : Meets (fun s l => l.Answers s) ChangeQueue.step ⟨[], false⟩ ls) :
    ∃ events, runWatch root (ChangeQueue.answers ⟨[], false⟩ ls) = some events ∧
      (events ++ eventsOf root (final ChangeQueue.step ⟨[], false⟩ ls).queue).Sublist (eventsOf root (changesOf ls)) ∧
      (.overflow ∉ ls → events ++ eventsOf root (final ChangeQueue.step ⟨[], false⟩ ls).queue = eventsOf root (changesOf ls)) ∧
      ∀ before after, ls = before ++ after → .overflow ∉ after →
        eventsOf root (changesOf after) <:+ events ++ eventsOf root (final ChangeQueue.step ⟨[], false⟩ ls).queue :=
  runWatch_run root ls h

namespace WatchWitness

/-- The creation of `a`, an overflow with it, and the creation of `b`. -/
def watched : WString := wide ['C', ':', '\\']
def createdA : RawNotification := ⟨.added, wide ['a'], [0, 0]⟩
def createdB : RawNotification := ⟨.added, wide ['b'], []⟩

def steps : List ChangeStepOfRoot :=
  [.changed .added (wide ['a']), .overflow, .changed .added (wide ['b']), .read [] createdA [], .read [] createdB [0xff]]

theorem steps_answer : Meets (fun s l => l.Answers s) ChangeQueue.step ⟨[], false⟩ steps := by
  refine ⟨trivial, trivial, trivial, .inl rfl, .inr ⟨fun r hr => ?_, by simp [ChangeQueue.step, createdB, RawNotification.note]⟩,
    trivial⟩
  rw [List.mem_singleton.1 hr]
  show createdB.length < 2 ^ 32
  decide

theorem changes_delivered_steps : ∃ events, runWatch watched (ChangeQueue.answers ⟨[], false⟩ steps) = some events ∧
    eventsOf watched [(.added, wide ['b'])] <:+ events := by
  obtain ⟨events, hrun, -, -, hsince⟩ := changes_delivered watched steps steps_answer
  refine ⟨events, hrun, ?_⟩
  have hlast := hsince (steps.take 2) (steps.drop 2) rfl (by simp [steps])
  have hempty : eventsOf watched (final ChangeQueue.step ⟨[], false⟩ steps).queue = [] := rfl
  rwa [hempty, List.append_nil] at hlast

end WatchWitness

end WinIndex
