import Mathlib.Order.MinMax
import Mathlib.Data.List.Basic

/-!
# Reading a log from a cursor

A log only grows at its end, and its entries stand at increasing positions. A reader asks for what stands at or behind its
cursor and is given a batch: a next position, and the entries up to there. It takes the next position as its cursor, and stops
when it is given nothing. Wherever it stops, it has read exactly what stands between the two cursors; so reading may be broken
off and resumed, on a log that has grown meanwhile. A reader that waits instead, while the log grows, reads the same.
-/

namespace Cursor

variable {ρ π : Type*}

section Between

variable [LinearOrder π] (pos : ρ → π)

/-- The entries at or behind one position, and before another. -/
def between (a b : π) (entries : List ρ) : List ρ := entries.filter (fun r => a ≤ pos r ∧ pos r < b)

variable {pos}

theorem mem_between {a b : π} {entries : List ρ} {r : ρ} :
    r ∈ between pos a b entries ↔ r ∈ entries ∧ a ≤ pos r ∧ pos r < b := by
  simp [between]

theorem between_cons (a b : π) (r : ρ) (entries : List ρ) : between pos a b (r :: entries) =
    if a ≤ pos r ∧ pos r < b then r :: between pos a b entries else between pos a b entries := by
  unfold between
  rw [List.filter_cons]
  simp only [decide_eq_true_eq]

/-- There is nothing between a position and one that is not behind it. -/
theorem between_eq_nil {a b : π} (h : b ≤ a) (entries : List ρ) : between pos a b entries = [] := by
  rw [between, List.filter_eq_nil_iff]
  intro r _
  simp only [decide_eq_true_eq, not_and, not_lt]
  exact fun ha => h.trans ha

/-- What stands between two positions stands before a position between them, or behind it. -/
theorem between_append_between {entries : List ρ} (hs : entries.Pairwise (fun r r' => pos r < pos r')) {a b c : π} (hab : a ≤ b)
    (hbc : b ≤ c) : between pos a b entries ++ between pos b c entries = between pos a c entries := by
  induction entries with
  | nil => rfl
  | cons r rs ih =>
    obtain ⟨hr, hrs⟩ := List.pairwise_cons.1 hs
    by_cases hb : b ≤ pos r
    · -- this entry and all behind it are in the second part
      have hall : ∀ x ∈ r :: rs, b ≤ pos x := by
        intro x hx
        rcases List.mem_cons.1 hx with rfl | hx
        · exact hb
        · exact hb.trans (hr x hx).le
      have hfirst : between pos a b (r :: rs) = [] := by
        rw [between, List.filter_eq_nil_iff]
        intro x hx
        simp [hall x hx]
      rw [hfirst, List.nil_append]
      exact List.filter_congr (fun x hx => by simp [hall x hx, hab.trans (hall x hx)])
    · have hlt : pos r < b := not_le.1 hb
      have hsecond : ¬(b ≤ pos r ∧ pos r < c) := fun h => hb h.1
      rw [between_cons, between_cons, between_cons, if_neg hsecond]
      by_cases ha : a ≤ pos r
      · rw [if_pos ⟨ha, hlt⟩, if_pos ⟨ha, hlt.trans_le hbc⟩, List.cons_append, ih hrs]
      · rw [if_neg (fun h => ha h.1), if_neg (fun h => ha h.1), ih hrs]

/-- What stands at or behind a position stands before another, or at or behind that. -/
theorem countP_le_eq_add {a b : π} (hab : a ≤ b) (entries : List ρ) :
    entries.countP (fun r => a ≤ pos r) = (between pos a b entries).length + entries.countP (fun r => b ≤ pos r) := by
  induction entries with
  | nil => rfl
  | cons r rs ih =>
    rw [between_cons, List.countP_cons, List.countP_cons, ih]
    simp only [decide_eq_true_eq]
    by_cases hb : b ≤ pos r
    · rw [if_pos (hab.trans hb), if_pos hb, if_neg (fun h => absurd h.2 (not_lt.2 hb))]
      omega
    · by_cases ha : a ≤ pos r
      · rw [if_pos ha, if_neg hb, if_pos ⟨ha, not_le.1 hb⟩, List.length_cons]
        omega
      · rw [if_neg ha, if_neg hb, if_neg (fun h => ha h.1)]
        omega

end Between

/-! ## Logs -/

/-- A log: its entries at increasing positions, and the position behind them from which it grows. -/
structure Log [LinearOrder π] (pos : ρ → π) where
  entries : List ρ
  frontier : π
  ordered : entries.Pairwise (fun r r' => pos r < pos r')
  below : ∀ r ∈ entries, pos r < frontier

section Logs

variable [LinearOrder π] {pos : ρ → π}

/-- A log has grown to another: entries were appended, none before the old frontier. -/
def Log.Grows (l l' : Log pos) : Prop :=
  l.frontier ≤ l'.frontier ∧ ∃ new, l'.entries = l.entries ++ new ∧ ∀ r ∈ new, l.frontier ≤ pos r

/-- The entries of a log that pass a test are a log. -/
def Log.filter (l : Log pos) (P : ρ → Bool) : Log pos where
  entries := l.entries.filter P
  frontier := l.frontier
  ordered := l.ordered.filter P
  below r hr := l.below r (List.mem_of_mem_filter hr)

theorem Log.Grows.filter {l l' : Log pos} (h : l.Grows l') (P : ρ → Bool) : (l.filter P).Grows (l'.filter P) := by
  obtain ⟨hle, new, hnew, hpos⟩ := h
  refine ⟨hle, new.filter P, ?_, fun r hr => hpos r (List.mem_of_mem_filter hr)⟩
  show l'.entries.filter P = l.entries.filter P ++ new.filter P
  rw [hnew, List.filter_append]

/-- Growing changes nothing before the old frontier. -/
theorem Log.Grows.between_eq {l l' : Log pos} (h : l.Grows l') {a b : π} (hb : b ≤ max a l.frontier) :
    between pos a b l'.entries = between pos a b l.entries := by
  obtain ⟨-, new, hnew, hpos⟩ := h
  by_cases hab : b ≤ a
  · rw [between_eq_nil hab, between_eq_nil hab]
  · have hfrontier : b ≤ l.frontier := (le_max_iff.1 hb).resolve_left hab
    have hnone : between pos a b new = [] := by
      rw [between, List.filter_eq_nil_iff]
      intro r hr
      have hle : b ≤ pos r := hfrontier.trans (hpos r hr)
      simp [hle]
    unfold between at hnone ⊢
    rw [hnew, List.filter_append, hnone, List.append_nil]

end Logs

/-! ## Reading -/

/-- What the reader is given: nothing at all, or a next position with entries. -/
inductive Answer (ρ π : Type*) where
  | stop
  | batch (next : π) (entries : List ρ)

/-- Read until nothing is given, or no entry. The answers may run out before that. -/
def read : π → List (Answer ρ π) → Option (List ρ × π)
  | _, [] => none
  | cursor, .stop :: _ => some ([], cursor)
  | cursor, .batch next entries :: answers =>
    if entries.isEmpty then some ([], cursor)
    else (read next answers).map (fun r => (entries ++ r.1, r.2))

section Reading

variable [LinearOrder π] {pos : ρ → π}

/-- The answers are those of a log: each batch holds what stands between the cursor and its next position, which is not behind
the end of the log. -/
def Served (l : Log pos) : π → List (Answer ρ π) → Prop
  | _, [] => True
  | _, .stop :: _ => True
  | cursor, .batch next entries :: answers =>
    cursor ≤ next ∧ next ≤ max cursor l.frontier ∧ entries = between pos cursor next l.entries ∧ Served l next answers

/-- Wherever reading stops, what was read is what stands between the cursors. -/
theorem read_eq_between {l : Log pos} {cursor : π} {answers : List (Answer ρ π)} (h : Served l cursor answers)
    {entries : List ρ} {cursor' : π} (hread : read cursor answers = some (entries, cursor')) :
    cursor ≤ cursor' ∧ cursor' ≤ max cursor l.frontier ∧ entries = between pos cursor cursor' l.entries := by
  have hstay : cursor ≤ cursor ∧ cursor ≤ max cursor l.frontier ∧ [] = between pos cursor cursor l.entries :=
    ⟨le_refl _, le_max_left _ _, (between_eq_nil (le_refl _) _).symm⟩
  induction answers generalizing cursor entries with
  | nil => cases hread
  | cons answer answers ih =>
    cases answer with
    | stop =>
      cases hread
      exact hstay
    | batch next batch =>
      obtain ⟨hle, hmax, hbatch, hrest⟩ := h
      rw [read] at hread
      split at hread
      · cases hread
        exact hstay
      · rename_i hne
        obtain ⟨⟨rest, cursor''⟩, hnext, heq⟩ := Option.map_eq_some_iff.1 hread
        cases heq
        obtain ⟨hle', hmax', hentries⟩ :=
          ih hrest hnext ⟨le_refl _, le_max_left _ _, (between_eq_nil (le_refl _) _).symm⟩
        have hbound : cursor'' ≤ max cursor l.frontier := hmax'.trans (max_le hmax (le_max_right _ _))
        refine ⟨hle.trans hle', hbound, ?_⟩
        simp only
        rw [hbatch, hentries, between_append_between l.ordered hle hle']

/-- Every entry stands before the position: nothing is left to read there. -/
def Log.ReadTo (l : Log pos) (cursor : π) : Prop := ∀ r ∈ l.entries, pos r < cursor

/-- Nothing stands behind what was read to. -/
theorem Log.ReadTo.between_eq {l : Log pos} {a b b' : π} (h : l.ReadTo b) (h' : l.ReadTo b') :
    between pos a b l.entries = between pos a b' l.entries :=
  List.filter_congr (fun r hr => by simp [h r hr, h' r hr])

/-- Reading resumes where it stopped: what two readings gave, the second from the cursor of the first and on what the log has
grown to, is what stands between the first cursor and the last. -/
theorem read_resumes {l l' : Log pos} (hgrow : l.Grows l') {s c c' : π} {first second : List (Answer ρ π)}
    (hfirst : Served l s first) (hsecond : Served l' c second) {entries entries' : List ρ}
    (hread : read s first = some (entries, c)) (hread' : read c second = some (entries', c')) :
    s ≤ c' ∧ entries ++ entries' = between pos s c' l'.entries := by
  obtain ⟨hle, hmax, rfl⟩ := read_eq_between hfirst hread
  obtain ⟨hle', -, rfl⟩ := read_eq_between hsecond hread'
  refine ⟨hle.trans hle', ?_⟩
  rw [← hgrow.between_eq hmax, between_append_between l'.ordered hle hle']

/-- Reading ends: each batch with an entry leaves one less at or behind the cursor, so more answers than there are entries are
enough. -/
theorem read_isSome {l : Log pos} {cursor : π} {answers : List (Answer ρ π)} (h : Served l cursor answers)
    (hlen : l.entries.countP (fun r => cursor ≤ pos r) < answers.length) : (read cursor answers).isSome := by
  induction answers generalizing cursor with
  | nil => exact absurd hlen (Nat.not_lt_zero _)
  | cons answer answers ih =>
    cases answer with
    | stop => rfl
    | batch next batch =>
      obtain ⟨hle, -, hbatch, hrest⟩ := h
      rw [read]
      split
      · rfl
      · rename_i hne
        rw [Option.isSome_map]
        refine ih hrest ?_
        have hpos : 0 < batch.length := List.length_pos_iff.2 (by simpa using hne)
        rw [countP_le_eq_add hle, ← hbatch, List.length_cons] at hlen
        omega

end Reading

/-! ## Waiting for a log to grow -/

/-- A turn of a reader that waits: it leaves, is given nothing, or is given a next position with entries. -/
inductive Turn (ρ π : Type*) where
  | leave
  | wait
  | batch (next : π) (entries : List ρ)

/-- Read until it leaves. -/
def follow : π → List (Turn ρ π) → List ρ × π
  | cursor, [] => ([], cursor)
  | cursor, .leave :: _ => ([], cursor)
  | cursor, .wait :: turns => follow cursor turns
  | _, .batch next entries :: turns => (entries ++ (follow next turns).1, (follow next turns).2)

section Waiting

variable [LinearOrder π] {pos : ρ → π}

theorem Log.Grows.refl (l : Log pos) : l.Grows l := ⟨le_refl _, [], (List.append_nil _).symm, fun _ h => absurd h List.not_mem_nil⟩

theorem Log.Grows.trans {l l' l'' : Log pos} (h : l.Grows l') (h' : l'.Grows l'') : l.Grows l'' := by
  obtain ⟨hle, new, hnew, hpos⟩ := h
  obtain ⟨hle', new', hnew', hpos'⟩ := h'
  refine ⟨hle.trans hle', new ++ new', by rw [hnew', hnew, List.append_assoc], fun r hr => ?_⟩
  rcases List.mem_append.1 hr with hr | hr
  · exact hpos r hr
  · exact hle.trans (hpos' r hr)

/-- The log at the end of the turns. -/
def Log.last (l : Log pos) : List (Log pos × Turn ρ π) → Log pos
  | [] => l
  | (l', _) :: turns => l'.last turns

/-- Between two turns the log grows, and a batch holds those of its entries that pass a test and stand between the cursor and the
next position, which is not behind the end of what the log has grown to by then. -/
def Followed (P : ρ → Bool) : Log pos → π → List (Log pos × Turn ρ π) → Prop
  | _, _, [] => True
  | l, _, (l', .leave) :: turns => l.Grows l' ∧ l'.Grows (l'.last turns)
  | l, cursor, (l', .wait) :: turns => l.Grows l' ∧ Followed P l' cursor turns
  | l, cursor, (l', .batch next entries) :: turns =>
    l.Grows l' ∧ cursor ≤ next ∧ next ≤ max cursor l'.frontier ∧ entries = between pos cursor next (l'.filter P).entries ∧
      Followed P l' next turns

variable {P : ρ → Bool} {l : Log pos} {cursor : π} {turns : List (Log pos × Turn ρ π)}

theorem Followed.grows (h : Followed P l cursor turns) : l.Grows (l.last turns) := by
  induction turns generalizing l cursor with
  | nil => exact .refl l
  | cons t turns ih =>
    obtain ⟨l', turn⟩ := t
    cases turn with
    | leave => exact h.1.trans h.2
    | wait => exact h.1.trans (ih h.2)
    | batch next entries => exact h.1.trans (ih h.2.2.2.2)

/-- However the turns fall, what was read is what passes the test and stands between the first cursor and the last. -/
theorem Followed.follow_eq (h : Followed P l cursor turns) :
    cursor ≤ (follow cursor (turns.map Prod.snd)).2 ∧
      (follow cursor (turns.map Prod.snd)).2 ≤ max cursor (l.last turns).frontier ∧
      (follow cursor (turns.map Prod.snd)).1 =
        between pos cursor (follow cursor (turns.map Prod.snd)).2 ((l.last turns).filter P).entries := by
  have hstay : ∀ l' : Log pos, cursor ≤ cursor ∧ cursor ≤ max cursor l'.frontier ∧
      [] = between pos cursor cursor (l'.filter P).entries :=
    fun l' => ⟨le_refl _, le_max_left _ _, (between_eq_nil (le_refl _) _).symm⟩
  induction turns generalizing l cursor with
  | nil => exact hstay l
  | cons t turns ih =>
    obtain ⟨l', turn⟩ := t
    cases turn with
    | leave => exact hstay _
    | wait => exact ih h.2 hstay
    | batch next entries =>
      obtain ⟨-, hle, hmax, hentries, hrest⟩ := h
      have hgrows := hrest.grows
      obtain ⟨hle', hmax', hread⟩ :=
        ih hrest (fun l' => ⟨le_refl _, le_max_left _ _, (between_eq_nil (le_refl _) _).symm⟩)
      have hbound : next ≤ max cursor (l'.last turns).frontier := hmax.trans (max_le_max (le_refl _) hgrows.1)
      refine ⟨hle.trans hle', hmax'.trans (max_le hbound (le_max_right _ _)), ?_⟩
      rw [List.map_cons, Log.last, follow]
      simp only
      rw [hread, hentries, ← (hgrows.filter P).between_eq hmax,
        between_append_between ((l'.last turns).filter P).ordered hle hle']

end Waiting

end Cursor
