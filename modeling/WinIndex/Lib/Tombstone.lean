import Mathlib.Tactic

/-!
# Append-only logs with tombstones

A log only grows: a value is appended as a live cell, and removing it marks its cell dead. What such a log says is the list
of its live values. Appending appends to that list, killing the first live value that satisfies a test erases it
(`List.eraseP`), and killing all that satisfy it filters them out, so statements about live values are statements about
plain lists.
-/

namespace Tombstone

variable {ρ σ κ : Type}

/-- A value and whether it is live. -/
structure Cell (ρ : Type) where
  val : ρ
  live : Bool
  deriving DecidableEq

/-- Mark a cell dead. -/
def Cell.kill (c : Cell ρ) : Cell ρ := { c with live := false }

@[simp] theorem Cell.kill_val (c : Cell ρ) : c.kill.val = c.val := rfl
@[simp] theorem Cell.kill_live (c : Cell ρ) : c.kill.live = false := rfl

/-- A cell is found by a test when it is live and its value passes. -/
def Cell.hit (P : ρ → Bool) (c : Cell ρ) : Bool := c.live && P c.val

/-- Append a live cell. -/
def add (l : List (Cell ρ)) (r : ρ) : List (Cell ρ) := l ++ [⟨r, true⟩]

/-- The index of the first live cell whose value passes the test. -/
def findLive (P : ρ → Bool) (l : List (Cell ρ)) : Option Nat := l.findIdx? (Cell.hit P)

/-- Mark the cell at an index dead. -/
def killAt (i : Nat) (l : List (Cell ρ)) : List (Cell ρ) := l.modify i Cell.kill

/-- Mark the first live cell whose value passes the test dead. -/
def killFirst (P : ρ → Bool) (l : List (Cell ρ)) : List (Cell ρ) :=
  match findLive P l with
  | none => l
  | some i => killAt i l

/-- Mark every live cell whose value passes the test dead. -/
def killAll (P : ρ → Bool) (l : List (Cell ρ)) : List (Cell ρ) := l.map (fun c => if c.hit P then c.kill else c)

/-- The live values, in order. -/
def lives (l : List (Cell ρ)) : List ρ := (l.filter Cell.live).map Cell.val

@[simp] theorem lives_nil : lives ([] : List (Cell ρ)) = [] := rfl

theorem lives_cons (c : Cell ρ) (l : List (Cell ρ)) : lives (c :: l) = if c.live then c.val :: lives l else lives l := by
  cases h : c.live <;> simp [lives, h]

@[simp] theorem lives_append (l l' : List (Cell ρ)) : lives (l ++ l') = lives l ++ lives l' := by
  simp [lives]

@[simp] theorem lives_add (l : List (Cell ρ)) (r : ρ) : lives (add l r) = lives l ++ [r] := by
  simp [add, lives]

theorem lives_map_live (rs : List ρ) : lives (rs.map (fun r => (⟨r, true⟩ : Cell ρ))) = rs := by
  induction rs with
  | nil => rfl
  | cons r rs ih => rw [List.map_cons, lives_cons, if_pos rfl, ih]

/-- Killing changes no value. -/
theorem map_val_killAt (i : Nat) (l : List (Cell ρ)) : (killAt i l).map Cell.val = l.map Cell.val := by
  apply List.ext_getElem?
  intro j
  rw [killAt, List.getElem?_map, List.getElem?_map, List.getElem?_modify]
  cases l[j]? with
  | none => rfl
  | some c => by_cases h : i = j <;> simp [h]

/-- Killing a live cell leaves one live value less. -/
theorem length_lives_killAt {l : List (Cell ρ)} {i : Nat} {c : Cell ρ} (h : l[i]? = some c) (hlive : c.live = true) :
    (lives (killAt i l)).length + 1 = (lives l).length := by
  induction l generalizing i with
  | nil => cases h
  | cons d l ih =>
    cases i with
    | zero =>
      obtain rfl : d = c := by simpa using h
      simp [killAt, lives_cons, hlive]
    | succ i =>
      have hrest := ih (i := i) (by simpa using h)
      rw [killAt] at hrest
      rw [killAt, List.modify_succ_cons, lives_cons, lives_cons]
      split
      · rw [List.length_cons, List.length_cons, hrest]
      · exact hrest

theorem map_val_killAll (P : ρ → Bool) (l : List (Cell ρ)) : (killAll P l).map Cell.val = l.map Cell.val := by
  rw [killAll, List.map_map]
  apply List.map_congr_left
  intro c _
  by_cases h : c.hit P <;> simp [h]

/-! ## Killing the first -/

/-- A cell that is not found stays in front. -/
theorem killFirst_cons_of_not {P : ρ → Bool} {c : Cell ρ} (l : List (Cell ρ)) (h : c.hit P = false) :
    killFirst P (c :: l) = c :: killFirst P l := by
  unfold killFirst findLive
  rw [List.findIdx?_cons, h]
  cases l.findIdx? (Cell.hit P) <;> rfl

/-- A cell that is found is killed, and nothing behind it. -/
theorem killFirst_cons_of {P : ρ → Bool} {c : Cell ρ} (l : List (Cell ρ)) (h : c.hit P = true) :
    killFirst P (c :: l) = c.kill :: l := by
  unfold killFirst findLive
  rw [List.findIdx?_cons, h]
  rfl

theorem killFirst_append_of_not {P : ρ → Bool} {l : List (Cell ρ)} (l' : List (Cell ρ)) (h : ∀ c ∈ l, c.hit P = false) :
    killFirst P (l ++ l') = l ++ killFirst P l' := by
  induction l with
  | nil => rfl
  | cons c l ih =>
    rw [List.cons_append, killFirst_cons_of_not _ (h c (by simp)), ih (fun x hx => h x (by simp [hx])), List.cons_append]

/-- Killing the first live value that passes the test erases it from the live values. -/
theorem lives_killFirst (P : ρ → Bool) (l : List (Cell ρ)) : lives (killFirst P l) = (lives l).eraseP P := by
  induction l with
  | nil => rfl
  | cons c l ih =>
    cases h : c.hit P with
    | false =>
      rw [killFirst_cons_of_not l h, lives_cons, lives_cons, ih]
      cases hl : c.live with
      | false => rfl
      | true =>
        have hP : P c.val = false := by simpa [Cell.hit, hl] using h
        simp [hP]
    | true =>
      rw [killFirst_cons_of l h, lives_cons, lives_cons]
      have hh : c.live = true ∧ P c.val = true := by simpa [Cell.hit] using h
      simp [hh.1, hh.2]

/-- The first live cell that passes the test holds the first live value that does. -/
theorem findLive_val (P : ρ → Bool) (l : List (Cell ρ)) :
    (findLive P l).bind (fun i => l[i]?.map Cell.val) = (lives l).find? P := by
  induction l with
  | nil => rfl
  | cons c l ih =>
    unfold findLive at ih ⊢
    rw [List.findIdx?_cons, lives_cons]
    cases h : c.hit P with
    | false =>
      rw [if_neg Bool.false_ne_true]
      have hr : (if c.live = true then c.val :: lives l else lives l).find? P = (lives l).find? P := by
        cases hl : c.live with
        | false => rfl
        | true =>
          have hP : P c.val = false := by simpa [Cell.hit, hl] using h
          simp [hP]
      rw [hr, ← ih]
      cases l.findIdx? (Cell.hit P) <;> rfl
    | true =>
      have hh : c.live = true ∧ P c.val = true := by simpa [Cell.hit] using h
      simp [hh.1, hh.2]

theorem findLive_lt {P : ρ → Bool} {l : List (Cell ρ)} {i : Nat} (h : findLive P l = some i) : i < l.length := by
  obtain ⟨hi, -⟩ := List.findIdx?_eq_some_iff_getElem.1 h
  exact hi

/-! ## Killing all -/

/-- Killing every live value that passes the test filters them out. -/
theorem lives_killAll (P : ρ → Bool) (l : List (Cell ρ)) : lives (killAll P l) = (lives l).filter (fun r => !P r) := by
  induction l with
  | nil => rfl
  | cons c l ih =>
    have hc : killAll P (c :: l) = (if c.hit P then c.kill else c) :: killAll P l := rfl
    rw [hc, lives_cons, lives_cons, ih]
    cases hl : c.live <;> cases hP : P c.val <;> simp [Cell.hit, hl, hP]

/-! ## Live values with distinct keys -/

/-- No two live values have the same key. -/
def Distinct (key : ρ → κ) (rs : List ρ) : Prop := (rs.map key).Nodup

instance [DecidableEq κ] (key : ρ → κ) (rs : List ρ) : Decidable (Distinct key rs) :=
  inferInstanceAs (Decidable (List.Nodup (rs.map key)))

/-- Appending keeps the keys distinct exactly when the new key is not there yet. -/
theorem distinct_append_iff {key : ρ → κ} {rs : List ρ} (h : Distinct key rs) (r : ρ) :
    Distinct key (rs ++ [r]) ↔ ∀ x ∈ rs, key x ≠ key r := by
  unfold Distinct at *
  rw [List.map_append, List.nodup_append]
  constructor
  · rintro ⟨-, -, hd⟩ x hx
    exact hd (key x) (List.mem_map_of_mem hx) (key r) (by simp)
  · intro hd
    refine ⟨h, by simp, ?_⟩
    intro a ha b hb
    obtain ⟨x, hx, rfl⟩ := List.mem_map.1 ha
    simp only [List.map_cons, List.map_nil, List.mem_singleton] at hb
    exact hb ▸ hd x hx

/-- Erasing keeps the keys distinct. -/
theorem Distinct.eraseP {key : ρ → κ} {rs : List ρ} (h : Distinct key rs) (P : ρ → Bool) : Distinct key (rs.eraseP P) :=
  List.Nodup.sublist ((List.eraseP_sublist).map key) h

theorem Distinct.filter {key : ρ → κ} {rs : List ρ} (h : Distinct key rs) (P : ρ → Bool) : Distinct key (rs.filter P) :=
  List.Nodup.sublist ((List.filter_sublist).map key) h

variable [DecidableEq κ]

/-- The test for a key. -/
def hasKey (key : ρ → κ) (k : κ) (r : ρ) : Bool := decide (key r = k)

@[simp] theorem hasKey_iff (key : ρ → κ) (k : κ) (r : ρ) : hasKey key k r = true ↔ key r = k := decide_eq_true_iff

/-- With distinct keys, erasing the first value with a key erases the only one. -/
theorem Distinct.eraseP_eq_filter {key : ρ → κ} {rs : List ρ} (h : Distinct key rs) (k : κ) :
    rs.eraseP (hasKey key k) = rs.filter (fun r => !hasKey key k r) := by
  induction rs with
  | nil => rfl
  | cons r rs ih =>
    obtain ⟨hr, hrs⟩ := List.nodup_cons.1 h
    by_cases hk : key r = k
    · have hall : ∀ x ∈ rs, (!hasKey key k x) = true := by
        intro x hx
        have hne : key x ≠ k := fun e => hr (hk ▸ e ▸ List.mem_map_of_mem hx)
        simpa [hasKey] using hne
      rw [List.eraseP_cons_of_pos (by simpa using hk), List.filter_cons_of_neg (by simpa [hasKey] using hk),
        List.filter_eq_self.2 hall]
    · rw [List.eraseP_cons_of_neg (by simpa using hk), List.filter_cons_of_pos (by simpa [hasKey] using hk), ih hrs]

/-- With distinct keys, no value with the key is left. -/
theorem Distinct.not_mem_eraseP {key : ρ → κ} {rs : List ρ} (h : Distinct key rs) (k : κ) :
    ∀ x ∈ rs.eraseP (hasKey key k), key x ≠ k := by
  intro x hx
  rw [h.eraseP_eq_filter, List.mem_filter] at hx
  simpa [hasKey] using hx.2

end Tombstone
