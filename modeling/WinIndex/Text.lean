import Mathlib.Data.List.Basic
import Mathlib.Data.List.Infix
import WinIndex.Lib.Segments

/-!
# Wide strings and paths

`wchar_t` is 16 bits wide on Windows and a `std::wstring` is a sequence of them. Case folding is `towlower` of the C
runtime, which depends on the locale: the locale is a parameter of the model, of which nothing is assumed but that folding
neither makes nor removes a backslash. `Locale.c` is the locale the program starts in.
-/

namespace WinIndex

/-- `wchar_t`. -/
abbrev WChar := UInt16

/-- `std::wstring`, and the `std::wstring_view` of one. -/
abbrev WString := List WChar

/-- `L'\\'`. -/
def backslash : WChar := 0x5C

/-- A wide string literal, from its characters. -/
def wide (cs : List Char) : WString := cs.map (fun c => UInt16.ofNat c.toNat)

/-! ## Case folding -/

/-- The character class and the case mapping of the C runtime's current locale. -/
structure Locale where
  towlower : WChar → WChar
  iswalnum : WChar → Bool
  towlower_backslash : ∀ c, towlower c = backslash ↔ c = backslash

/-- The "C" locale, which is in force until `setlocale` is called: only ASCII letters and digits count. -/
def Locale.c : Locale where
  towlower c := if 0x41 ≤ c ∧ c ≤ 0x5A then c + 0x20 else c
  iswalnum c := (0x30 ≤ c && c ≤ 0x39) || (0x41 ≤ c && c ≤ 0x5A) || (0x61 ≤ c && c ≤ 0x7A)
  towlower_backslash c := by
    by_cases h : 0x41 ≤ c ∧ c ≤ 0x5A
    · rw [if_pos h]
      simp only [backslash, UInt16.le_iff_toNat_le, ← UInt16.toNat_inj, UInt16.toNat_add] at h ⊢
      simp at h ⊢
      omega
    · rw [if_neg h]

/-- `std::transform(s.begin(), s.end(), s.begin(), ::towlower)`. -/
def Locale.lower (Γ : Locale) (s : WString) : WString := s.map Γ.towlower

@[simp] theorem Locale.lower_nil (Γ : Locale) : Γ.lower [] = [] := rfl

@[simp] theorem Locale.length_lower (Γ : Locale) (s : WString) : (Γ.lower s).length = s.length := List.length_map _

@[simp] theorem Locale.lower_append (Γ : Locale) (s t : WString) : Γ.lower (s ++ t) = Γ.lower s ++ Γ.lower t :=
  List.map_append

theorem Locale.lower_backslash (Γ : Locale) : Γ.lower [backslash] = [backslash] := by
  simp [Locale.lower, (Γ.towlower_backslash backslash).2 rfl]

/-- Folding keeps backslashes where they are: none appears. -/
theorem Locale.backslash_mem_lower (Γ : Locale) (s : WString) : backslash ∈ Γ.lower s ↔ backslash ∈ s := by
  simp only [Locale.lower, List.mem_map]
  constructor
  · rintro ⟨c, hc, h⟩
    rwa [← (Γ.towlower_backslash c).1 h]
  · intro h
    exact ⟨backslash, h, (Γ.towlower_backslash backslash).2 rfl⟩

/-- Folding keeps the trailing backslash, and makes none. -/
theorem Locale.getLast?_lower (Γ : Locale) (s : WString) :
    (Γ.lower s).getLast? = some backslash ↔ s.getLast? = some backslash := by
  rw [Locale.lower, List.getLast?_map, Option.map_eq_some_iff]
  constructor
  · rintro ⟨c, hc, h⟩
    rw [hc, (Γ.towlower_backslash c).1 h]
  · intro h
    exact ⟨backslash, h, (Γ.towlower_backslash backslash).2 rfl⟩

/-! ## Paths -/

/-- `s.rfind(c)`; `none` is `npos`. -/
def rfind (c : WChar) : WString → Option Nat
  | [] => none
  | x :: xs =>
    match rfind c xs with
    | some i => some (i + 1)
    | none => if x = c then some 0 else none

/-- Where the last component of a path begins: `slash != npos ? slash + 1 : 0` for its last backslash. -/
def nameStart (path : WString) : Nat :=
  match rfind backslash path with
  | some slash => slash + 1
  | none => 0

/-- The last component of a path: `slash != npos ? path.substr(slash + 1) : path`. -/
def nameOf (path : WString) : WString :=
  match rfind backslash path with
  | some slash => path.drop (slash + 1)
  | none => path

/-- `if (s.back() != L'\\') s += L'\\';` -/
def withBackslash (s : WString) : WString :=
  if s.getLast? = some backslash then s else s ++ [backslash]

theorem rfind_lt {c : WChar} {s : WString} {i : Nat} (h : rfind c s = some i) : i < s.length := by
  induction s generalizing i with
  | nil => cases h
  | cons x xs ih =>
    rw [rfind] at h
    cases hr : rfind c xs with
    | some j =>
      rw [hr] at h
      cases h
      have := ih hr
      simp only [List.length_cons]
      omega
    | none =>
      rw [hr] at h
      simp only at h
      split at h
      · cases h
        simp
      · cases h

/-- What is found is the character. -/
theorem getElem?_rfind {c : WChar} {s : WString} {i : Nat} (h : rfind c s = some i) : s[i]? = some c := by
  induction s generalizing i with
  | nil => cases h
  | cons x xs ih =>
    rw [rfind] at h
    cases hr : rfind c xs with
    | some j =>
      rw [hr] at h
      cases h
      exact ih hr
    | none =>
      rw [hr] at h
      simp only at h
      split at h
      · rename_i hx
        cases h
        rw [hx]
        rfl
      · cases h

theorem rfind_eq_none_iff {c : WChar} {s : WString} : rfind c s = none ↔ c ∉ s := by
  induction s with
  | nil => simp [rfind]
  | cons x xs ih =>
    rw [rfind]
    cases hr : rfind c xs with
    | some j =>
      have : c ∈ xs := by
        by_contra hn
        rw [ih.2 hn] at hr
        cases hr
      simp [this]
    | none =>
      have := ih.1 hr
      by_cases hx : x = c
      · simp [hx]
      · simp [hx, Ne.symm hx, this]

/-- The last backslash of a path whose tail holds none is the one before that tail. -/
theorem rfind_append_cons {c : WChar} (s : WString) {t : WString} (ht : c ∉ t) :
    rfind c (s ++ c :: t) = some s.length := by
  induction s with
  | nil => simp [rfind, rfind_eq_none_iff.2 ht]
  | cons x xs ih => rw [List.cons_append, rfind, ih]; rfl

theorem nameOf_eq_drop (path : WString) : nameOf path = path.drop (nameStart path) := by
  unfold nameOf nameStart
  cases rfind backslash path <;> rfl

theorem nameStart_le (path : WString) : nameStart path ≤ path.length := by
  unfold nameStart
  cases h : rfind backslash path with
  | none => exact Nat.zero_le _
  | some i => exact rfind_lt h

theorem length_nameOf (path : WString) : (nameOf path).length = path.length - nameStart path := by
  rw [nameOf_eq_drop, List.length_drop]

/-- A directory with its backslash, as a directory, a backslash and nothing. -/
theorem withBackslash_eq (s : WString) : ∃ d, withBackslash s = d ++ [backslash] := by
  unfold withBackslash
  split
  · rename_i h
    obtain ⟨t, ht⟩ := List.getLast?_eq_some_iff.1 h
    exact ⟨t, ht⟩
  · exact ⟨s, rfl⟩

/-- Folding commutes with adding the trailing backslash. -/
theorem Locale.lower_withBackslash (Γ : Locale) (s : WString) : Γ.lower (withBackslash s) = withBackslash (Γ.lower s) := by
  unfold withBackslash
  by_cases h : s.getLast? = some backslash
  · rw [if_pos h, if_pos ((Γ.getLast?_lower s).2 h)]
  · rw [if_neg h, if_neg (fun h' => h ((Γ.getLast?_lower s).1 h')), Γ.lower_append, Γ.lower_backslash]

theorem prefix_withBackslash (s : WString) : s <+: withBackslash s := by
  unfold withBackslash
  split
  · exact List.prefix_refl s
  · exact List.prefix_append s _

/-- Where the last component of a path is not the whole path, a backslash is right before it. -/
theorem getLast?_take_nameStart {path : WString} (h : nameStart path ≠ 0) :
    (path.take (nameStart path)).getLast? = some backslash := by
  unfold nameStart at h ⊢
  cases hr : rfind backslash path with
  | none =>
    rw [hr] at h
    exact absurd rfl h
  | some slash =>
    simp only
    rw [List.take_add_one, getElem?_rfind hr]
    simp

end WinIndex
