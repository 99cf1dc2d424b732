import WinIndex.IndexAge
import WinIndex.SettingsDialog
import WinIndex.Theorems.SettingsFile

/-!
# The reindex interval

An interval goes from the text field of the dialog through 64 bits into the settings, through a 32-bit `int` and its decimal
text into the file, and back; and the store compares it with the age of the index file. The way is exact for intervals that an
`int` holds, the comparison agrees with the age shown unless the file is newer than the clock.
-/

namespace WinIndex

/-! ## Decimal texts -/

/-- A digit. -/
def IsDigit (c : WChar) : Prop := 0x30 ≤ c ∧ c ≤ 0x39

instance (c : WChar) : Decidable (IsDigit c) := inferInstanceAs (Decidable (_ ∧ _))

theorem IsDigit.toNat {c : WChar} (h : IsDigit c) : 48 ≤ c.toNat ∧ c.toNat ≤ 57 := by
  simpa [IsDigit, UInt16.le_iff_toNat_le] using h

/-- A digit of a number is one in wide characters. -/
theorem isDigit_ofNat {d : Char} (h : d.isDigit = true) :
    (UInt16.ofNat d.toNat).toNat = d.toNat ∧ IsDigit (UInt16.ofNat d.toNat) := by
  have hd : 48 ≤ d.toNat ∧ d.toNat ≤ 57 := by simpa [Char.isDigit, UInt32.le_iff_toNat_le] using h
  have hnat : (UInt16.ofNat d.toNat).toNat = d.toNat := UInt16.toNat_ofNat_of_lt' (by show _ < 65536; omega)
  refine ⟨hnat, ?_⟩
  rw [IsDigit, UInt16.le_iff_toNat_le, UInt16.le_iff_toNat_le, hnat]
  exact hd

theorem isDigit_of_mem_toDigits {n : Nat} {c : WChar} (h : c ∈ wide (Nat.toDigits 10 n)) : IsDigit c := by
  obtain ⟨d, hd, rfl⟩ := List.mem_map.1 h
  exact (isDigit_ofNat (Nat.isDigit_of_mem_toDigits (by decide) (by decide) hd)).2

/-- Digits read as the number they are. -/
theorem digitsValue_wide {cs : List Char} (h : ∀ c ∈ cs, c.isDigit = true) (acc : Nat) :
    digitsValue acc (wide cs) = Nat.ofDigitChars 10 cs acc := by
  induction cs generalizing acc with
  | nil => rfl
  | cons c cs ih =>
    obtain ⟨hnat, hdigit⟩ := isDigit_ofNat (h c (by simp))
    have hif : (0x30 : WChar) ≤ UInt16.ofNat c.toNat ∧ UInt16.ofNat c.toNat ≤ 0x39 := hdigit
    have hstep : digitsValue acc (wide (c :: cs)) = digitsValue (acc * 10 + (c.toNat - 0x30)) (wide cs) := by
      rw [wide, List.map_cons, digitsValue, if_pos hif, hnat]
      rfl
    rw [hstep, ih (fun x hx => h x (by simp [hx])), Nat.ofDigitChars_cons, Nat.mul_comm 10 acc]
    rfl

theorem digitsValue_toDigits (n : Nat) : digitsValue 0 (wide (Nat.toDigits 10 n)) = n := by
  rw [digitsValue_wide (fun c hc => Nat.isDigit_of_mem_toDigits (by decide) (by decide) hc), Nat.ofDigitChars_ten_toDigits]

theorem wide_toDigits_ne_nil (n : Nat) : wide (Nat.toDigits 10 n) ≠ [] := by
  rw [wide, ne_eq, List.map_eq_nil_iff]
  exact Nat.toDigits_ne_nil

theorem isWhiteSpace_of_isDigit {c : WChar} (h : IsDigit c) : isWhiteSpace c = false := by
  have hc := h.toNat
  have hblank : c ≠ 0x20 := by
    rintro rfl
    exact absurd h (by decide)
  have hcontrol : ¬c ≤ 0x0D := by
    rw [UInt16.le_iff_toNat_le]
    show ¬c.toNat ≤ 13
    omega
  simp [isWhiteSpace, hblank, hcontrol]

/-- A text of digits is its number, or the greatest that fits. -/
theorem wtoi64_of_digits {text : WString} (h : ∀ c ∈ text, IsDigit c) :
    (wtoi64 text).toUInt64 = .ofNat (min (digitsValue 0 text) (2 ^ 63 - 1)) := by
  cases text with
  | nil => rfl
  | cons c cs =>
    have hc := h c (by simp)
    have hminus : c ≠ 0x2D := by
      rintro rfl
      exact absurd hc (by decide)
    have hplus : c ≠ 0x2B := by
      rintro rfl
      exact absurd hc (by decide)
    have hmin : min (digitsValue 0 (c :: cs) : Int) (2 ^ 63 - 1) = ((min (digitsValue 0 (c :: cs)) (2 ^ 63 - 1) : Nat) : Int) := by
      omega
    rw [wtoi64, List.dropWhile_cons_of_neg (by simp [isWhiteSpace_of_isDigit hc])]
    simp only [if_neg hminus, if_neg hplus]
    rw [hmin, Int64.ofInt_eq_ofNat, Int64.toUInt64_ofNat']

theorem cString_of_digits {text : WString} (h : ∀ c ∈ text, IsDigit c) : cString text = text :=
  cString_eq (fun h0 => absurd (h 0 h0) (by decide))

/-- The profile functions read digits in 32 bits. -/
theorem parseDigits_ofNat (n : Nat) (text : WString) : parseDigits (.ofNat n) text = .ofNat (digitsValue n text) := by
  induction text generalizing n with
  | nil => rfl
  | cons c cs ih =>
    rw [parseDigits, digitsValue]
    by_cases h : 0x30 ≤ c ∧ c ≤ 0x39
    · have hle : (0x30 : WChar) ≤ c := h.1
      have hdigit : (c - 0x30).toUInt32 = .ofNat (c.toNat - 0x30) := by
        rw [← UInt32.toNat_inj, UInt16.toNat_toUInt32, UInt16.toNat_sub_of_le _ _ hle, UInt32.toNat_ofNat_of_lt']
        · rfl
        · have := c.toNat_lt
          show _ < 4294967296
          omega
      rw [if_pos h, if_pos h, ← ih, UInt32.ofNat_add, UInt32.ofNat_mul, hdigit]
      rfl
    · rw [if_neg h, if_neg h]

/-- A decimal text holds no zero. -/
theorem cString_toWstring (v : Int32) : cString (toWstring v) = toWstring v := by
  refine cString_eq (fun h0 => ?_)
  rw [toWstring, wide, List.map_append, List.mem_append] at h0
  rcases h0 with h0 | h0
  · split at h0
    · exact absurd h0 (by decide)
    · cases h0
  · exact absurd (isDigit_of_mem_toDigits h0) (by decide)

/-- A number that an `int` holds is read from its decimal text. -/
theorem parseInt_toWstring (v : Int32) : (parseInt (toWstring v)).toInt32 = v := by
  have hdigits : ∀ c ∈ wide (Nat.toDigits 10 v.toInt.natAbs), IsDigit c := fun c hc => isDigit_of_mem_toDigits hc
  have hparse : parseDigits 0 (wide (Nat.toDigits 10 v.toInt.natAbs)) = .ofNat v.toInt.natAbs := by
    rw [show (0 : UInt32) = .ofNat 0 from rfl, parseDigits_ofNat, digitsValue_toDigits]
  by_cases hneg : v < 0
  · have htext : toWstring v = 0x2D :: wide (Nat.toDigits 10 v.toInt.natAbs) := by
      rw [toWstring, if_pos hneg]
      rfl
    rw [htext, parseInt, if_pos rfl, hparse]
    have hle : v.toInt ≤ 0 := by
      rw [Int32.lt_iff_toInt_lt] at hneg
      exact Int.le_of_lt hneg
    rw [UInt32.toInt32_sub, UInt32.toInt32_ofNat', ← Int32.ofInt_eq_ofNat, Int.ofNat_natAbs_of_nonpos hle, Int32.ofInt_neg,
      Int32.ofInt_toInt, show (0 : UInt32).toInt32 = 0 from rfl, Int32.zero_sub, Int32.neg_neg]
  · have htext : toWstring v = wide (Nat.toDigits 10 v.toInt.natAbs) := by rw [toWstring, if_neg hneg, List.nil_append]
    have hsame : parseInt (wide (Nat.toDigits 10 v.toInt.natAbs)) = parseDigits 0 (wide (Nat.toDigits 10 v.toInt.natAbs)) := by
      cases htext : wide (Nat.toDigits 10 v.toInt.natAbs) with
      | nil => exact absurd htext (wide_toDigits_ne_nil _)
      | cons c cs =>
        rw [htext] at hdigits
        rw [parseInt]
        exact if_neg (fun h => absurd (hdigits c (by simp)) (by rw [h]; decide))
    have hle : 0 ≤ v.toInt := by
      rw [Int32.lt_iff_toInt_lt, Int.not_lt] at hneg
      exact hneg
    rw [htext, hsame, hparse, UInt32.toInt32_ofNat', ← Int32.ofInt_eq_ofNat, Int.natAbs_of_nonneg hle, Int32.ofInt_toInt]

/-! ## Through the settings -/

/-- A number of hours is the one that is read from 32 bits, with the sign extended. -/
theorem narrow_iff (h : UInt64) : h.toUInt32.toInt32.toInt64.toUInt64 = h ↔ h.toNat < 2 ^ 31 ∨ 2 ^ 64 - 2 ^ 31 ≤ h.toNat := by
  have hwide : h.toInt64.toInt = Int.bmod h.toNat (2 ^ 64) := by
    rw [← Int64.toInt_toBitVec]
    show h.toBitVec.toInt = _
    rw [BitVec.toInt_eq_toNat_bmod]
    rfl
  have hnarrow : h.toUInt32.toInt32.toInt = Int.bmod h.toNat (2 ^ 32) := by
    rw [← Int32.toInt_toBitVec]
    show h.toUInt32.toBitVec.toInt = _
    rw [BitVec.toInt_eq_toNat_bmod]
    show Int.bmod (h.toUInt32.toNat : Nat) _ = _
    rw [UInt64.toNat_toUInt32, Int.natCast_mod]
    exact Int.emod_bmod _ _
  have hback : h.toUInt32.toInt32.toInt64.toUInt64 = h ↔ h.toUInt32.toInt32.toInt64 = h.toInt64 :=
    ⟨congrArg UInt64.toInt64, congrArg Int64.toUInt64⟩
  have hlt := h.toNat_lt
  rw [hback, ← Int64.toInt_inj, Int32.toInt_toInt64, hwide, hnarrow, Int.bmod_def, Int.bmod_def]
  omega

/-- The file that keeps every string gives numbers back, too. -/
instance IniFile.asciiProfileApi : AsciiProfileApi IniFile where
  keeps_capitals key value _ := IniFile.keeps key value
  getInt_write ini key value defaultVal := by
    rw [getInt_eq, find?_write, if_pos rfl]
    exact congrArg Int32.toUInt32 (parseInt_toWstring value)

section

variable {Ini : Type} [ProfileApi Ini] [AsciiProfileApi Ini]

/-- A number is read back after `Save`. -/
theorem Settings.readInt_save (s : Settings) (ini : Ini) (key : IniKey) {value : Int32} (h : s.iniValue key = toWstring value)
    (defaultVal : Int32) : readInt (s.save ini) key defaultVal = value := by
  obtain ⟨before, hreads⟩ := s.exists_write_of_save ini key
  rw [readInt, hreads.getInt, h, cString_toWstring, AsciiProfileApi.getInt_write]
  rfl

/-- The interval that `Load` finds after `Save`. -/
theorem load_save_interval (env : Environment) (ini : Ini) (s : Settings) :
    (Settings.load env (s.save ini)).reindexIntervalHours = s.reindexIntervalHours.toUInt32.toInt32.toInt64.toUInt64 := by
  rw [Settings.load, s.readInt_save ini .reindexIntervalHours rfl]

end

/-! ## Through the dialog -/

/-- A positive decimal number that the field holds: at most 31 digits. -/
structure DecimalText (text : WString) : Prop where
  length : text.length ≤ 31
  digits : ∀ c ∈ text, IsDigit c
  positive : 0 < digitsValue 0 text

instance DecimalText.decidable (text : WString) : Decidable (DecimalText text) :=
  decidable_of_iff (text.length ≤ 31 ∧ text.all (fun c => IsDigit c) = true ∧ 0 < digitsValue 0 text)
    ⟨fun ⟨h, hall, hpos⟩ => ⟨h, fun c hc => of_decide_eq_true (List.all_eq_true.1 hall c hc), hpos⟩,
      fun h => ⟨h.length, List.all_eq_true.2 (fun c hc => decide_eq_true (h.digits c hc)), h.positive⟩⟩

theorem DecimalText.cString_take {text : WString} (h : DecimalText text) : cString (text.take 31) = text := by
  rw [List.take_of_length_le h.length, cString_of_digits h.digits]

/-- The text of a number of 64 bits fits the field. -/
theorem decimalText_toWstringU64 {value : UInt64} (h : 0 < value.toNat) :
    DecimalText (toWstringU64 value) ∧ digitsValue 0 (toWstringU64 value) = value.toNat := by
  have hvalue : digitsValue 0 (toWstringU64 value) = value.toNat := digitsValue_toDigits _
  refine ⟨⟨?_, fun c hc => isDigit_of_mem_toDigits hc, by rwa [hvalue]⟩, hvalue⟩
  rw [toWstringU64, wide, List.length_map]
  have hlen : (Nat.toDigits 10 value.toNat).length ≤ 20 :=
    (Nat.length_toDigits_le_iff (by decide) (by decide)).2 (Nat.lt_trans value.toNat_lt (by decide))
  omega

/-- The number of the field, as `_wtoi64` limits it, times the hours of the unit, in 64 bits. -/
def SettingsControls.product (c : SettingsControls) : UInt64 :=
  .ofNat (min (digitsValue 0 c.interval) (2 ^ 63 - 1) * c.unit.inHours)

/-- What `OnOk` makes of a decimal number: the product, or the default interval where it wraps to zero. -/
theorem intervalHours_of_decimal {c : SettingsControls} (hmanual : c.manualOnly = false) (htext : DecimalText c.interval) :
    c.intervalHours = if c.product > 0 then c.product else kReindexDefaultHours := by
  have hval : (wtoi64 (cString (c.interval.take 31))).toUInt64 = .ofNat (min (digitsValue 0 c.interval) (2 ^ 63 - 1)) := by
    rw [htext.cString_take, wtoi64_of_digits htext.digits]
  have hproduct : (if c.unit = .days then UInt64.ofNat (min (digitsValue 0 c.interval) (2 ^ 63 - 1)) * 24
      else .ofNat (min (digitsValue 0 c.interval) (2 ^ 63 - 1))) = c.product := by
    rw [SettingsControls.product, UInt64.ofNat_mul]
    cases c.unit with
    | hours => exact (UInt64.mul_one _).symm
    | days => rfl
  rw [SettingsControls.intervalHours, if_neg (by simp [hmanual])]
  simp only [hval, hproduct]

/-- A product that does not wrap is the number of hours. -/
theorem toNat_product {c : SettingsControls} (hnumber : digitsValue 0 c.interval ≤ 2 ^ 63 - 1)
    (hlt : digitsValue 0 c.interval * c.unit.inHours < 2 ^ 64) :
    c.product.toNat = digitsValue 0 c.interval * c.unit.inHours := by
  rw [SettingsControls.product, Nat.min_eq_left hnumber]
  exact UInt64.toNat_ofNat_of_lt' hlt

theorem ReindexUnit.inHours_pos (unit : ReindexUnit) : 0 < unit.inHours := by
  cases unit <;> decide

/-- The hours that `OnOk` stores, where nothing wraps. -/
theorem toNat_intervalHours {c : SettingsControls} (hmanual : c.manualOnly = false) (htext : DecimalText c.interval)
    (hnumber : digitsValue 0 c.interval ≤ 2 ^ 63 - 1) (hlt : digitsValue 0 c.interval * c.unit.inHours < 2 ^ 64) :
    c.intervalHours.toNat = digitsValue 0 c.interval * c.unit.inHours := by
  have hproduct := toNat_product hnumber hlt
  have hpos : c.product > 0 := by
    rw [gt_iff_lt, UInt64.lt_iff_toNat_lt, hproduct]
    exact Nat.mul_pos htext.positive c.unit.inHours_pos
  rw [intervalHours_of_decimal hmanual htext, if_pos hpos, hproduct]

/-- A number of hours is at most the greatest that `_wtoi64` returns. -/
theorem intervalHours_le_of_hours {c : SettingsControls} (hmanual : c.manualOnly = false) (htext : DecimalText c.interval)
    (hunit : c.unit = .hours) : c.intervalHours.toNat ≤ 2 ^ 63 - 1 := by
  have hproduct : c.product.toNat = min (digitsValue 0 c.interval) (2 ^ 63 - 1) := by
    rw [SettingsControls.product, hunit, ReindexUnit.inHours, Nat.mul_one]
    exact UInt64.toNat_ofNat_of_lt' (by show _ < 2 ^ 64; omega)
  rw [intervalHours_of_decimal hmanual htext]
  split
  · omega
  · decide

/-- A number that the dialog shows is read again. -/
theorem toNat_intervalHours_shown (value : UInt64) (paths excl : List WString) (unit : ReindexUnit) (hpos : 0 < value.toNat)
    (hle : value.toNat ≤ 2 ^ 63 - 1) (hlt : value.toNat * unit.inHours < 2 ^ 64) :
    (SettingsControls.intervalHours ⟨paths, false, toWstringU64 value, unit, excl⟩).toNat = value.toNat * unit.inHours := by
  obtain ⟨htext, hvalue⟩ := decimalText_toWstringU64 hpos
  rw [toNat_intervalHours rfl htext, hvalue]
  · rwa [hvalue]
  · rwa [hvalue]

/-- The dialog shows an interval so that `OnOk` reads it again: in days where these divide it, in hours where it is not too long
for `_wtoi64`. -/
theorem intervalHours_onInit {s : Settings} (hpos : 0 < s.reindexIntervalHours.toNat)
    (hle : s.reindexIntervalHours.toNat ≤ 2 ^ 63 - 1 ∨ 24 ∣ s.reindexIntervalHours.toNat) :
    (SettingsDialog.onInit s).intervalHours = s.reindexIntervalHours := by
  have hne : s.reindexIntervalHours ≠ kReindexManualOnly := by
    intro h
    rw [h] at hpos
    exact absurd hpos (by decide)
  have hlt := s.reindexIntervalHours.toNat_lt
  rw [← UInt64.toNat_inj]
  by_cases hdays : s.reindexIntervalHours % 24 = 0 ∧ s.reindexIntervalHours ≥ 24
  · have hmod : s.reindexIntervalHours.toNat % 24 = 0 := by
      have h := congrArg UInt64.toNat hdays.1
      rwa [UInt64.toNat_mod] at h
    have hdiv : (s.reindexIntervalHours / 24).toNat = s.reindexIntervalHours.toNat / 24 := UInt64.toNat_div _ _
    have hinit : SettingsDialog.onInit s =
        ⟨s.selectedDrives, false, toWstringU64 (s.reindexIntervalHours / 24), .days, s.excludedPaths⟩ := by
      rw [SettingsDialog.onInit, if_neg hne, if_pos hdays, decide_eq_false hne]
    have hhours : s.reindexIntervalHours.toNat / 24 * 24 = s.reindexIntervalHours.toNat := by omega
    have hread := toNat_intervalHours_shown (s.reindexIntervalHours / 24) s.selectedDrives s.excludedPaths .days
    rw [hdiv, ReindexUnit.inHours, hhours] at hread
    rw [hinit, hread (by omega) (by omega) hlt]
  · have hle' : s.reindexIntervalHours.toNat ≤ 2 ^ 63 - 1 := by
      refine hle.resolve_right (fun hdvd => hdays ⟨?_, ?_⟩)
      · rw [← UInt64.toNat_inj, UInt64.toNat_mod]
        exact Nat.mod_eq_zero_of_dvd hdvd
      · exact UInt64.le_iff_toNat_le.2 (Nat.le_of_dvd hpos hdvd)
    have hinit : SettingsDialog.onInit s =
        ⟨s.selectedDrives, false, toWstringU64 s.reindexIntervalHours, .hours, s.excludedPaths⟩ := by
      rw [SettingsDialog.onInit, if_neg hne, if_neg hdays, decide_eq_false hne]
    have hread := toNat_intervalHours_shown s.reindexIntervalHours s.selectedDrives s.excludedPaths .hours hpos hle'
    rw [ReindexUnit.inHours, Nat.mul_one] at hread
    rw [hinit, hread hlt]

/-- The interval of the controls goes through the dialog and the file unchanged, and never becomes that of manual only. -/
structure IntervalSurvives (env : Environment) (ini : IniFile) (s : Settings) (c : SettingsControls) : Prop where
  positive : 0 < (SettingsDialog.onOk s c).reindexIntervalHours
  exact : (SettingsDialog.onOk s c).reindexIntervalHours.toNat = digitsValue 0 c.interval * c.unit.inHours
  loaded : (Settings.load env ((SettingsDialog.onOk s c).save ini)).reindexIntervalHours =
    (SettingsDialog.onOk s c).reindexIntervalHours
  again : (SettingsDialog.onOk (SettingsDialog.onOk s c)
    (SettingsDialog.onInit (SettingsDialog.onOk s c))).reindexIntervalHours = (SettingsDialog.onOk s c).reindexIntervalHours
  notManual : (SettingsDialog.onOk s c).reindexIntervalHours ≠ kReindexManualOnly →
    (Settings.load env ((SettingsDialog.onOk s c).save ini)).reindexIntervalHours ≠ kReindexManualOnly

/-- The hours fit the `int` of the file, or, in days, 64 bits from where the low half stands for a negative `int`. -/
def FitsInt (c : SettingsControls) : Prop :=
  digitsValue 0 c.interval * c.unit.inHours < 2 ^ 31 ∨
    (c.unit = .days ∧ 2 ^ 64 - 2 ^ 31 ≤ digitsValue 0 c.interval * c.unit.inHours ∧
      digitsValue 0 c.interval * c.unit.inHours < 2 ^ 64)

/-- A positive interval survives the dialog and the file if and only if its hours fit. -/
theorem interval_survives_iff (env : Environment) (ini : IniFile) (s : Settings) (c : SettingsControls)
    (hmanual : c.manualOnly = false) (htext : DecimalText c.interval) : IntervalSurvives env ini s c ↔ FitsInt c := by
  have hpos : 0 < digitsValue 0 c.interval * c.unit.inHours := Nat.mul_pos htext.positive c.unit.inHours_pos
  constructor
  · intro h
    have hexact : c.intervalHours.toNat = digitsValue 0 c.interval * c.unit.inHours := h.exact
    have hloaded := h.loaded
    rw [load_save_interval, narrow_iff] at hloaded
    rw [show (SettingsDialog.onOk s c).reindexIntervalHours = c.intervalHours from rfl, hexact] at hloaded
    refine hloaded.imp_right (fun hge => ⟨?_, hge, hexact ▸ c.intervalHours.toNat_lt⟩)
    cases hunit : c.unit with
    | days => rfl
    | hours =>
      have hle := intervalHours_le_of_hours hmanual htext hunit
      omega
  · intro h
    have hnumber : digitsValue 0 c.interval ≤ 2 ^ 63 - 1 := by
      rcases h with h | ⟨hunit, -, h⟩
      · have := Nat.le_mul_of_pos_right (digitsValue 0 c.interval) c.unit.inHours_pos
        omega
      · rw [hunit, ReindexUnit.inHours] at h
        omega
    have hlt : digitsValue 0 c.interval * c.unit.inHours < 2 ^ 64 := by
      rcases h with h | ⟨-, -, h⟩
      · omega
      · exact h
    have hhours : (SettingsDialog.onOk s c).reindexIntervalHours.toNat = digitsValue 0 c.interval * c.unit.inHours :=
      toNat_intervalHours hmanual htext hnumber hlt
    have hpositive : 0 < (SettingsDialog.onOk s c).reindexIntervalHours := by
      rw [UInt64.lt_iff_toNat_lt, hhours]
      exact hpos
    have hload : (Settings.load env ((SettingsDialog.onOk s c).save ini)).reindexIntervalHours =
        (SettingsDialog.onOk s c).reindexIntervalHours := by
      rw [load_save_interval, narrow_iff, hhours]
      exact h.imp_right (fun h => h.2.1)
    refine ⟨hpositive, hhours, hload, intervalHours_onInit (by rwa [hhours]) ?_, fun hne => by rwa [hload]⟩
    rw [hhours]
    rcases h with h | ⟨hunit, -, -⟩
    · exact .inl (by omega)
    · exact .inr (by rw [hunit]; exact Nat.dvd_mul_left _ _)

namespace IntervalWitness

/-- The text of digits, in hours. -/
def hours (digits : List Char) : SettingsControls := ⟨[], false, wide digits, .hours, []⟩

theorem interval_survives_iff_twelve :
    IntervalSurvives SettingsWitness.env SettingsWitness.ini SettingsWitness.settings (hours ['1', '2']) :=
  (interval_survives_iff _ _ _ (hours ['1', '2']) rfl (by decide)).2 (.inl (by decide))

end IntervalWitness

/-- 4294967296 hours, which the settings hold, are saved as 0, manual only. -/
theorem interval_lost_at_two_to_32 :
    DecimalText (wide ['4', '2', '9', '4', '9', '6', '7', '2', '9', '6']) ∧
      ¬IntervalSurvives SettingsWitness.env SettingsWitness.ini SettingsWitness.settings
        (IntervalWitness.hours ['4', '2', '9', '4', '9', '6', '7', '2', '9', '6']) ∧
      (Settings.load SettingsWitness.env ((SettingsDialog.onOk SettingsWitness.settings
        (IntervalWitness.hours ['4', '2', '9', '4', '9', '6', '7', '2', '9', '6'])).save
          SettingsWitness.ini)).reindexIntervalHours = kReindexManualOnly := by
  have hmanual : (Settings.load SettingsWitness.env ((SettingsDialog.onOk SettingsWitness.settings
      (IntervalWitness.hours ['4', '2', '9', '4', '9', '6', '7', '2', '9', '6'])).save
        SettingsWitness.ini)).reindexIntervalHours = kReindexManualOnly := by
    decide +kernel
  refine ⟨by decide, fun h => ?_, hmanual⟩
  have hloaded := h.loaded
  rw [hmanual] at hloaded
  exact absurd h.positive (by rw [← hloaded]; decide)

/-! ## Against the age of the file -/

/-- The index is valid while the difference, wrapped at 64 bits, is under the interval. -/
theorem isIndexValid_iff (fad : AttributeData) {h : UInt64} (hpos : 0 < h) (now : FileTime) :
    isIndexValid (some fad) h now = true ↔ (now.val - fad.fileVal).toNat < h.toNat * 36000000000 := by
  have hne : h ≠ 0 := UInt64.pos_iff_ne_zero.1 hpos
  have hhour : (hundredNsPerHour : UInt64).toNat = 36000000000 := rfl
  rw [isIndexValid, if_neg hne]
  show decide ((now.val - fad.fileVal) / hundredNsPerHour < h) = true ↔ _
  rw [decide_eq_true_iff, UInt64.lt_iff_toNat_lt, UInt64.toNat_div, hhour]
  exact Nat.div_lt_iff_lt_mul (by decide)

/-- The age in hours is under the interval while the difference is, or the file is not older than the clock. -/
theorem ageHours_lt_iff (fad : AttributeData) {h : UInt64} (hpos : 0 < h) (now : FileTime) :
    getIndexAgeSeconds (some fad) now / 3600 < h ↔
      now.val ≤ fad.fileVal ∨ (now.val - fad.fileVal).toNat < h.toNat * 36000000000 := by
  rw [getIndexAgeSeconds]
  by_cases hle : now.val ≤ fad.fileVal
  · rw [if_pos hle]
    exact iff_of_true hpos (.inl hle)
  · rw [if_neg hle, or_iff_right hle, UInt64.lt_iff_toNat_lt, UInt64.toNat_div, UInt64.toNat_div]
    show (now.val - fad.fileVal).toNat / 10000000 / 3600 < h.toNat ↔ _
    rw [Nat.div_div_eq_div_mul]
    exact Nat.div_lt_iff_lt_mul (by decide)

/-- The check of the interval agrees with the age shown if and only if the file is not newer than the clock, or the interval is
over the difference that wraps. -/
theorem isIndexValid_agrees_iff (fad : AttributeData) (h : UInt64) (hpos : 0 < h) (now : FileTime) :
    (isIndexValid (some fad) h now = true ↔ getIndexAgeSeconds (some fad) now / 3600 < h) ↔
      (fad.fileVal ≤ now.val ∨ 2 ^ 64 + now.val.toNat < fad.fileVal.toNat + h.toNat * 36000000000) := by
  rw [isIndexValid_iff fad hpos, ageHours_lt_iff fad hpos]
  have hfile := fad.fileVal.toNat_lt
  have hnow := now.val.toNat_lt
  have hh : 0 < h.toNat := UInt64.lt_iff_toNat_lt.1 hpos
  simp only [UInt64.le_iff_toNat_le, UInt64.toNat_sub]
  by_cases hle : fad.fileVal.toNat ≤ now.val.toNat
  · have hdiff : (2 ^ 64 - fad.fileVal.toNat + now.val.toNat) % 2 ^ 64 = now.val.toNat - fad.fileVal.toNat := by omega
    rw [hdiff]
    omega
  · have hdiff : (2 ^ 64 - fad.fileVal.toNat + now.val.toNat) % 2 ^ 64 = 2 ^ 64 + now.val.toNat - fad.fileVal.toNat := by omega
    rw [hdiff]
    omega

namespace IntervalWitness

/-- A file written when the clock showed a number. -/
def written (low : UInt32) : AttributeData where
  dwFileAttributes := 0
  dwHighDateTime := 0
  dwLowDateTime := low
  nFileSizeHigh := 0
  nFileSizeLow := 0

theorem isIndexValid_agrees_iff_older :
    isIndexValid (some (written 5)) 48 ⟨0, 7⟩ = true ↔ getIndexAgeSeconds (some (written 5)) ⟨0, 7⟩ / 3600 < 48 :=
  (isIndexValid_agrees_iff (written 5) 48 (by decide) ⟨0, 7⟩).2 (.inl (by decide))

end IntervalWitness

/-- A file newer than the clock by 100 nanoseconds is zero seconds old, and the index is stale. -/
theorem isIndexValid_false_of_newer :
    ¬(isIndexValid (some (IntervalWitness.written 8)) 48 ⟨0, 7⟩ = true ↔
      getIndexAgeSeconds (some (IntervalWitness.written 8)) ⟨0, 7⟩ / 3600 < 48) := by
  decide +kernel

end WinIndex
