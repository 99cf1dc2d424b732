import WinIndex.Lib.Codec
import WinIndex.Logger
import WinIndex.Theorems.SettingsFile

/-!
# What the log file says

A message is escaped, converted to UTF-8 and written between times and line feeds. One who reads the file from its start finds
again what was logged: after any calls of any threads, over any number of starts of the program, the file is a text of records,
one for each session and each message that was not below the level in force, in the order of the calls.
-/

namespace WinIndex

open Trace Codec

/-! ## Records and how they are read -/

/-- What the log file is made of. A message is in UTF-8. -/
inductive LogRecord where
  | session (st : SystemTime)
  | entry (st : SystemTime) (level : LogLevel) (message : List UInt8)
  deriving DecidableEq

/-- The number that decimal digits say. -/
def digitsNumber (digits : List UInt8) : UInt16 :=
  UInt16.ofNat (Nat.ofDigitChars 10 (digits.map (fun b => Char.ofNat b.toNat)) 0)

/-- The time of six numbers, if it is one. -/
def readSystemTime (year month day hour minute second : UInt16) : Option SystemTime :=
  if h : year ≤ 30827 ∧ month ≤ 12 ∧ day ≤ 31 ∧ hour ≤ 23 ∧ minute ≤ 59 ∧ second ≤ 59 then
    some ⟨year, month, day, hour, minute, second, h.1, h.2⟩
  else none

/-- A time and the blank behind it. -/
def readTime : Reader UInt8 SystemTime := do
  let year ← upTo 0x2D
  let month ← upTo 0x2D
  let day ← upTo 0x20
  let hour ← upTo 0x3A
  let minute ← upTo 0x3A
  let second ← upTo 0x20
  readSystemTime (digitsNumber year) (digitsNumber month) (digitsNumber day) (digitsNumber hour) (digitsNumber minute)
    (digitsNumber second)

/-- The level of a name. -/
def readLevel (name : List UInt8) : Option LogLevel :=
  [LogLevel.critical, .error, .warning, .info, .debug, .verbose].find? (fun level => wideToUtf8 level.toWString = name)

def readSession : Reader UInt8 LogRecord := do
  literal (narrow ['\n', '-', '-', '-', ' ', 'S', 'e', 's', 's', 'i', 'o', 'n', ' ', 's', 't', 'a', 'r', 't', 'e', 'd', ' '])
  let st ← readTime
  literal (narrow ['-', '-', '-', '\n'])
  return .session st

def readEntry : Reader UInt8 LogRecord := do
  let st ← readTime
  literal (narrow [' ', 'l', 'e', 'v', 'e', 'l', '='])
  let name ← upTo 0x20
  let level ← readLevel name
  literal (narrow ['m', 's', 'g', '=', '"'])
  let message ← quoted 0x22 0x5C
  literal (narrow ['\n'])
  return .entry st level message

/-- A session starts with a line feed. -/
def readLogRecord : Reader UInt8 LogRecord := fun s => if s.head? = some 0x0A then readSession s else readEntry s

/-- Text mode for a reader: a carriage return before a line feed is left out. -/
def fromTextMode : List UInt8 → List UInt8
  | [] => []
  | [b] => [b]
  | b :: b' :: bytes => if b = 0x0D ∧ b' = 0x0A then 0x0A :: fromTextMode bytes else b :: fromTextMode (b' :: bytes)

/-- The records of a log file, if it is made of records. -/
def readLog (bytes : List UInt8) : Option (List LogRecord) :=
  readAll readLogRecord (fromTextMode bytes).length (fromTextMode bytes)

/-! ## What the calls record -/

/-- The path a call sets. -/
def LogCall.setsPath : LogCall → Option WString
  | .restart => some []
  | .init logPath _ _ _ => some logPath
  | .setLevel _ | .log _ _ _ _ => none

/-- The level a call sets. -/
def LogCall.setsLevel : LogCall → Option LogLevel
  | .restart => some .warning
  | .init _ level _ _ | .setLevel level => some level
  | .log _ _ _ _ => none

/-- The path in force after some calls. -/
def pathAfter (calls : List LogCall) : WString := (calls.reverse.findSome? LogCall.setsPath).getD []

/-- The level in force after some calls. -/
def levelAfter (calls : List LogCall) : LogLevel := (calls.reverse.findSome? LogCall.setsLevel).getD .warning

section

variable {F : Type} [DecidableEq F] (fileOf : WString → F)

/-- What a call records, after the calls before it, and in which file: a session when a path is set, a message that is not above
the level in force, each if the file can be opened. -/
def LogCall.record (before : List LogCall) : LogCall → Option (F × LogRecord)
  | .restart | .setLevel _ => none
  | .init logPath _ st opened => if opened ∧ logPath ≠ [] then some (fileOf logPath, .session st) else none
  | .log level message st opened =>
    if opened ∧ pathAfter before ≠ [] ∧ level.value ≤ (levelAfter before).value then
      some (fileOf (pathAfter before), .entry st level (wideToUtf8 message))
    else none

/-- What the calls record in a file, in order. -/
def recordsIn (f : F) (calls : List LogCall) : List LogRecord :=
  ((List.range calls.length).filterMap (fun k => calls[k]?.bind (LogCall.record fileOf (calls.take k)))).filterMap
    (fun r => if r.1 = f then some r.2 else none)

end

/-! ## Reading back one record -/

theorem fromTextMode_cons_of_ne {b : UInt8} {bytes : List UInt8} (h : bytes.head? ≠ some 0x0A) :
    fromTextMode (b :: bytes) = b :: fromTextMode bytes := by
  cases bytes with
  | nil => rfl
  | cons b' bytes => rw [fromTextMode, if_neg (fun hb => h (by rw [hb.2]; rfl))]

theorem head?_textMode_ne (bytes : List UInt8) : (textMode bytes).head? ≠ some 0x0A := by
  cases bytes with
  | nil => simp [textMode]
  | cons b bytes =>
    rw [textMode, List.flatMap_cons]
    split
    · simp
    · rename_i hb
      simpa using hb

/-- Text mode is undone. -/
theorem fromTextMode_textMode (bytes : List UInt8) : fromTextMode (textMode bytes) = bytes := by
  induction bytes with
  | nil => rfl
  | cons b bytes ih =>
    have hcons : textMode (b :: bytes) = (if b = 0x0A then [0x0D, 0x0A] else [b]) ++ textMode bytes := rfl
    rw [hcons]
    by_cases hb : b = 0x0A
    · rw [if_pos hb, hb]
      show (0x0A : UInt8) :: fromTextMode (textMode bytes) = _
      rw [ih]
    · rw [if_neg hb, List.singleton_append, fromTextMode_cons_of_ne (head?_textMode_ne bytes), ih]

theorem textMode_append (a b : List UInt8) : textMode (a ++ b) = textMode a ++ textMode b := List.flatMap_append

/-! Numbers and times. -/

/-- The characters a number is printed with. -/
theorem isDigit_of_mem_leftpad {width n : Nat} {c : Char} (h : c ∈ List.leftpad width '0' (Nat.toDigits 10 n)) :
    c.isDigit = true := by
  rw [List.leftpad, List.mem_append] at h
  rcases h with h | h
  · rw [(List.mem_replicate.1 h).2]
    rfl
  · exact Nat.isDigit_of_mem_toDigits (by decide) (by decide) h

theorem toNat_ofNat_of_isDigit {c : Char} (h : c.isDigit = true) : (UInt8.ofNat c.toNat).toNat = c.toNat := by
  rw [Char.isDigit, Bool.and_eq_true, decide_eq_true_eq, decide_eq_true_eq] at h
  have hle : c.val ≤ 57 := h.2
  have : c.toNat ≤ 57 := UInt32.le_iff_toNat_le.1 hle
  rw [UInt8.toNat_ofNat']
  exact Nat.mod_eq_of_lt (by omega)

/-- A number is read as it was printed. -/
theorem digitsNumber_padded (width : Nat) (n : UInt16) : digitsNumber (padded width n) = n := by
  have hchars : (padded width n).map (fun b => Char.ofNat b.toNat) = List.leftpad width '0' (Nat.toDigits 10 n.toNat) := by
    rw [padded, narrow, List.map_map]
    conv_rhs => rw [← List.map_id (List.leftpad width '0' (Nat.toDigits 10 n.toNat))]
    refine List.map_congr_left (fun c hc => ?_)
    rw [Function.comp_apply, toNat_ofNat_of_isDigit (isDigit_of_mem_leftpad hc), Char.ofNat_toNat]
    rfl
  rw [digitsNumber, hchars, List.leftpad, Nat.ofDigitChars_append, Nat.ofDigitChars_replicate_zero, Nat.mul_zero,
    Nat.ofDigitChars_ten_toDigits, UInt16.ofNat_toNat]

/-- The bytes a number is printed with. -/
theorem mem_padded {width : Nat} {n : UInt16} {b : UInt8} (h : b ∈ padded width n) : 0x30 ≤ b.toNat ∧ b.toNat ≤ 0x39 := by
  obtain ⟨c, hc, rfl⟩ := List.mem_map.1 h
  have hdigit := isDigit_of_mem_leftpad hc
  rw [toNat_ofNat_of_isDigit hdigit]
  rw [Char.isDigit, Bool.and_eq_true, decide_eq_true_eq, decide_eq_true_eq] at hdigit
  have hle : c.val ≤ 57 := hdigit.2
  have hge : 48 ≤ c.val := hdigit.1
  exact ⟨UInt32.le_iff_toNat_le.1 hge, UInt32.le_iff_toNat_le.1 hle⟩

theorem not_mem_padded {width : Nat} {n : UInt16} {b : UInt8} (hb : b.toNat < 0x30 ∨ 0x39 < b.toNat) : b ∉ padded width n := by
  intro h
  have := mem_padded h
  omega

/-- A number with few digits is printed with few bytes. -/
theorem length_padded_le {width digits : Nat} {n : UInt16} (hpos : 0 < digits) (hwidth : width ≤ digits)
    (h : n.toNat < 10 ^ digits) : (padded width n).length ≤ digits := by
  have hlen := (Nat.length_toDigits_le_iff (by decide : 1 < 10) hpos).2 h
  rw [padded, narrow, List.length_map, List.leftpad, List.length_append, List.length_replicate]
  omega

/-- A time fits the buffers it is printed to. -/
theorem SystemTime.length_format_le (st : SystemTime) : st.format.length ≤ 20 := by
  have htwo : ∀ {n bound : UInt16}, n ≤ bound → bound.toNat < 100 → (padded 2 n).length ≤ 2 := by
    intro n bound hn hbound
    exact length_padded_le (by decide) (by decide) (Nat.lt_of_le_of_lt (UInt16.le_iff_toNat_le.1 hn) hbound)
  have hyear : (padded 4 st.wYear).length ≤ 5 :=
    length_padded_le (by decide) (by decide) (Nat.lt_of_le_of_lt (UInt16.le_iff_toNat_le.1 st.year_le) (by decide))
  have hmonth := htwo st.others_le.1 (by decide)
  have hday := htwo st.others_le.2.1 (by decide)
  have hhour := htwo st.others_le.2.2.1 (by decide)
  have hminute := htwo st.others_le.2.2.2.1 (by decide)
  have hsecond := htwo st.others_le.2.2.2.2 (by decide)
  simp only [SystemTime.format, List.length_append, narrow, List.length_map, List.length_cons, List.length_nil]
  omega

/-- A number and what stands behind it. -/
theorem takes_padded {width : Nat} {n : UInt16} {b : UInt8} (hb : b.toNat < 0x30 ∨ 0x39 < b.toNat) :
    Takes (upTo b) (padded width n ++ [b]) (padded width n) :=
  takes_upTo (not_mem_padded hb)

theorem takes_time (st : SystemTime) : Takes readTime (st.format ++ narrow [' ']) st := by
  have htext : st.format ++ narrow [' '] =
      (padded 4 st.wYear ++ [0x2D]) ++ ((padded 2 st.wMonth ++ [0x2D]) ++ ((padded 2 st.wDay ++ [0x20]) ++
        ((padded 2 st.wHour ++ [0x3A]) ++ ((padded 2 st.wMinute ++ [0x3A]) ++ ((padded 2 st.wSecond ++ [0x20]) ++ []))))) := by
    simp only [SystemTime.format, List.append_assoc, List.append_nil]
    rfl
  have hread : readSystemTime (digitsNumber (padded 4 st.wYear)) (digitsNumber (padded 2 st.wMonth))
      (digitsNumber (padded 2 st.wDay)) (digitsNumber (padded 2 st.wHour)) (digitsNumber (padded 2 st.wMinute))
      (digitsNumber (padded 2 st.wSecond)) = some st := by
    simp only [digitsNumber_padded]
    exact dif_pos ⟨st.year_le, st.others_le⟩
  rw [htext]
  refine (takes_padded (by decide)).bind ((takes_padded (by decide)).bind ((takes_padded (by decide)).bind
    ((takes_padded (by decide)).bind ((takes_padded (by decide)).bind ((takes_padded (by decide)).bind ?_)))))
  rw [hread]
  exact takes_lift st

/-! ## The text of a message -/

section

/-- A unit that is not half of a pair. -/
theorem codePoints_cons {c : WChar} (hc : ¬(0xD800 ≤ c ∧ c ≤ 0xDFFF)) (s : WString) :
    codePoints (c :: s) = c.toNat :: codePoints s := by
  cases s with
  | nil => simp only [codePoints, if_neg hc]
  | cons d s =>
    have hhigh : ¬(0xD800 ≤ c ∧ c ≤ 0xDBFF) := fun h => hc ⟨h.1, UInt16.le_trans h.2 (by decide)⟩
    have hlow : ¬(0xDC00 ≤ c ∧ c ≤ 0xDFFF) := fun h => hc ⟨UInt16.le_trans (by decide) h.1, h.2⟩
    rw [codePoints, if_neg hhigh, if_neg hlow]

/-- Half of a pair, without the other half behind it. -/
theorem codePoints_cons_lone {c : WChar} (hc : 0xD800 ≤ c ∧ c ≤ 0xDFFF) {s : WString}
    (hs : c ≤ 0xDBFF → ∀ d ∈ s.head?, ¬(0xDC00 ≤ d ∧ d ≤ 0xDFFF)) : codePoints (c :: s) = 0xFFFD :: codePoints s := by
  cases s with
  | nil => simp only [codePoints, if_pos hc]
  | cons d s =>
    rw [codePoints]
    by_cases hhigh : 0xD800 ≤ c ∧ c ≤ 0xDBFF
    · rw [if_pos hhigh, if_neg (hs hhigh.2 d rfl)]
    · have hgt : 0xDBFF < c := UInt16.not_le.1 (fun hle => hhigh ⟨hc.1, hle⟩)
      have hlow : 0xDC00 ≤ c ∧ c ≤ 0xDFFF := ⟨by rw [UInt16.lt_iff_toNat_lt] at hgt; exact UInt16.le_iff_toNat_le.2 hgt, hc.2⟩
      rw [if_neg hhigh, if_pos hlow]

theorem not_surrogate_of_ascii {c : WChar} (hc : c < 0x80) : ¬(0xD800 ≤ c ∧ c ≤ 0xDFFF) := by
  rintro ⟨h, -⟩
  exact absurd (UInt16.lt_of_le_of_lt h hc) (by decide)

/-- Code points are less than 0x110000. -/
theorem lt_of_mem_codePoints {s : WString} {cp : Nat} (h : cp ∈ codePoints s) : cp < 0x110000 := by
  have hunit : ∀ c : WChar, c.toNat < 0x110000 := by
    intro c
    have := c.toNat_lt
    omega
  fun_induction codePoints s with
  | case1 => cases h
  | case2 c =>
    rw [List.mem_singleton.1 h]
    split
    · norm_num
    · exact hunit c
  | case3 c d rest hhigh hlow ih =>
    rcases List.mem_cons.1 h with heq | h
    · have hc := UInt16.le_iff_toNat_le.1 hhigh.2
      have hd := UInt16.le_iff_toNat_le.1 hlow.2
      simp at hc hd
      omega
    · exact ih h
  | case4 c d rest hhigh hlow ih =>
    rcases List.mem_cons.1 h with rfl | h
    · norm_num
    · exact ih h
  | case5 c d rest hhigh hlow ih =>
    rcases List.mem_cons.1 h with rfl | h
    · norm_num
    · exact ih h
  | case6 c d rest hhigh hlow ih =>
    rcases List.mem_cons.1 h with rfl | h
    · exact hunit c
    · exact ih h

/-- ASCII in front of a text. -/
theorem wideToUtf8_append {ascii : WString} (h : ∀ c ∈ ascii, c < 0x80) (s : WString) :
    wideToUtf8 (ascii ++ s) = wideToUtf8 ascii ++ wideToUtf8 s := by
  have hpoints : codePoints (ascii ++ s) = codePoints ascii ++ codePoints s := by
    induction ascii with
    | nil => rfl
    | cons c ascii ih =>
      have hc := not_surrogate_of_ascii (h c List.mem_cons_self)
      rw [List.cons_append, codePoints_cons hc, codePoints_cons hc, ih (fun d hd => h d (List.mem_cons_of_mem _ hd)),
        List.cons_append]
  rw [wideToUtf8, hpoints, List.flatMap_append]
  rfl

theorem escapeMessage_eq (message : WString) : escapeMessage message = escape 0x22 0x5C message := by
  have hacc : ∀ (message acc : WString),
      message.foldl (fun escaped c => (if c = 0x22 ∨ c = backslash then escaped ++ [backslash] else escaped) ++ [c]) acc =
        acc ++ escape 0x22 0x5C message := by
    intro message
    induction message with
    | nil => exact fun acc => (List.append_nil acc).symm
    | cons c message ih =>
      intro acc
      have hcons : escape 0x22 0x5C (c :: message) = (if c = 0x22 ∨ c = 0x5C then [0x5C, c] else [c]) ++
          escape 0x22 0x5C message := rfl
      rw [List.foldl_cons, ih, hcons, ← List.append_assoc]
      by_cases hc : c = 0x22 ∨ c = backslash
      · rw [if_pos hc, if_pos (show c = 0x22 ∨ c = 0x5C from hc), List.append_assoc, List.append_assoc, List.append_assoc]
        rfl
      · rw [if_neg hc, if_neg (show ¬(c = 0x22 ∨ c = 0x5C) from hc)]
  rw [escapeMessage, hacc, List.nil_append]

/-- A code point with a backslash before it where it is special. -/
def escapePoint (cp : Nat) : List Nat := if cp = 0x22 ∨ cp = 0x5C then [0x5C, cp] else [cp]

/-- The code points of a message that was escaped, with the quotation mark behind it. -/
theorem codePoints_escape (message : WString) :
    codePoints (escape 0x22 0x5C message ++ [0x22]) = (codePoints message).flatMap escapePoint ++ [0x22] := by
  have hcons : ∀ (c : WChar) (rest : WString),
      escape 0x22 0x5C (c :: rest) ++ [0x22] = (if c = 0x22 ∨ c = 0x5C then [0x5C, c] else [c]) ++ (escape 0x22 0x5C rest ++ [0x22]) :=
    fun c rest => List.append_assoc _ _ _
  have hplain : ∀ c : WChar, 0xD800 ≤ c → ¬(c = 0x22 ∨ c = 0x5C) := by
    rintro c hc (rfl | rfl)
    · exact absurd hc (by decide)
    · exact absurd hc (by decide)
  -- what follows a unit that stays alone is not the second half of a pair, either
  have hhead : ∀ s : WString, (∀ d ∈ s.head?, ¬(0xDC00 ≤ d ∧ d ≤ 0xDFFF)) →
      ∀ d ∈ (escape 0x22 0x5C s ++ [0x22]).head?, ¬(0xDC00 ≤ d ∧ d ≤ 0xDFFF) := by
    intro s hs d hd
    cases s with
    | nil =>
      cases hd
      decide
    | cons c rest =>
      rw [hcons] at hd
      split at hd
      · cases hd
        decide
      · cases hd
        exact hs d rfl
  have hunit : ∀ (c : WChar) (rest : WString), ¬(0xD800 ≤ c ∧ c ≤ 0xDFFF) →
      codePoints (escape 0x22 0x5C (c :: rest) ++ [0x22]) =
        escapePoint c.toNat ++ codePoints (escape 0x22 0x5C rest ++ [0x22]) := by
    intro c rest hc
    have hspecial : (c = 0x22 ∨ c = 0x5C) ↔ (c.toNat = 0x22 ∨ c.toNat = 0x5C) := by
      rw [← UInt16.toNat_inj, ← UInt16.toNat_inj]
      rfl
    rw [hcons, escapePoint]
    by_cases h : c = 0x22 ∨ c = 0x5C
    · rw [if_pos h, if_pos (hspecial.1 h), List.cons_append, List.singleton_append, codePoints_cons (by decide), codePoints_cons hc]
      rfl
    · rw [if_neg h, if_neg (mt hspecial.2 h), List.singleton_append, codePoints_cons hc]
      rfl
  have hlone : ∀ (c : WChar) (rest : WString), 0xD800 ≤ c ∧ c ≤ 0xDFFF →
      (c ≤ 0xDBFF → ∀ d ∈ rest.head?, ¬(0xDC00 ≤ d ∧ d ≤ 0xDFFF)) →
      codePoints (escape 0x22 0x5C (c :: rest) ++ [0x22]) = 0xFFFD :: codePoints (escape 0x22 0x5C rest ++ [0x22]) := by
    intro c rest hc hrest
    rw [hcons, if_neg (hplain c hc.1), List.singleton_append, codePoints_cons_lone hc (fun hhigh => hhead rest (hrest hhigh))]
  fun_induction codePoints message with
  | case1 => rfl
  | case2 c =>
    split
    · rename_i hc
      rw [hlone c [] hc (fun _ d hd => nomatch hd)]
      rfl
    · rename_i hc
      rw [hunit c [] hc, List.flatMap_cons, List.append_assoc]
      rfl
  | case3 c d rest hhigh hlow ih =>
    have hd : 0xD800 ≤ d := UInt16.le_trans (by decide) hlow.1
    have hpair : ¬(0x10000 + (c.toNat - 0xD800) * 0x400 + (d.toNat - 0xDC00) = 0x22 ∨
        0x10000 + (c.toNat - 0xD800) * 0x400 + (d.toNat - 0xDC00) = 0x5C) := by omega
    rw [hcons, hcons, if_neg (hplain c hhigh.1), if_neg (hplain d hd), List.singleton_append, List.singleton_append, codePoints,
      if_pos hhigh, if_pos hlow, ih, List.flatMap_cons, escapePoint, if_neg hpair]
    rfl
  | case4 c d rest hhigh hlow ih =>
    rw [hlone c (d :: rest) ⟨hhigh.1, UInt16.le_trans hhigh.2 (by decide)⟩ (fun _ e he => by cases he; exact hlow), ih]
    rfl
  | case5 c d rest hhigh hlow ih =>
    have hgt : ¬c ≤ 0xDBFF := fun hle => hhigh ⟨UInt16.le_trans (by decide) hlow.1, hle⟩
    rw [hlone c (d :: rest) ⟨UInt16.le_trans (by decide) hlow.1, hlow.2⟩ (fun hle => absurd hle hgt), ih]
    rfl
  | case6 c d rest hhigh hlow ih =>
    have hc : ¬(0xD800 ≤ c ∧ c ≤ 0xDFFF) := by
      rintro ⟨hge, hle⟩
      by_cases hsplit : c ≤ 0xDBFF
      · exact hhigh ⟨hge, hsplit⟩
      · have hgt := UInt16.lt_iff_toNat_lt.1 (UInt16.not_le.1 hsplit)
        exact hlow ⟨UInt16.le_iff_toNat_le.2 hgt, hle⟩
    rw [hunit c (d :: rest) hc, ih, List.flatMap_cons, List.append_assoc]

/-- The bytes of a code point that is not ASCII are not ASCII, either. -/
theorem utf8Bytes_ge {cp : Nat} (hge : 0x80 ≤ cp) (hlt : cp < 0x110000) : ∀ b ∈ utf8Bytes cp, 0x80 ≤ b.toNat := by
  have hbyte : ∀ n, 0x80 ≤ n → n < 0x100 → 0x80 ≤ (UInt8.ofNat n).toNat := by
    intro n hn hn'
    rwa [UInt8.toNat_ofNat', Nat.mod_eq_of_lt hn']
  have htail : ∀ n, 0x80 ≤ (UInt8.ofNat (0x80 + n % 0x40)).toNat := fun n => hbyte _ (by omega) (by omega)
  rw [utf8Bytes, if_neg (by omega)]
  split
  · simpa using ⟨hbyte _ (by omega) (by omega), htail _⟩
  · split
    · simpa using ⟨hbyte _ (by omega) (by omega), htail _, htail _⟩
    · simpa using ⟨hbyte _ (by omega) (by omega), htail _, htail _, htail _⟩

/-- To escape a code point and to escape its bytes is the same: no byte of another character looks like a special one. -/
theorem utf8Bytes_escapePoint {cp : Nat} (hlt : cp < 0x110000) :
    (escapePoint cp).flatMap utf8Bytes = escape 0x22 0x5C (utf8Bytes cp) := by
  have hplain : ∀ w : List UInt8, (∀ b ∈ w, ¬(b = 0x22 ∨ b = 0x5C)) → escape 0x22 0x5C w = w := by
    intro w hw
    induction w with
    | nil => rfl
    | cons b w ih =>
      have hcons : escape 0x22 0x5C (b :: w) = (if b = 0x22 ∨ b = 0x5C then [0x5C, b] else [b]) ++ escape 0x22 0x5C w := rfl
      rw [hcons, if_neg (hw b List.mem_cons_self), ih (fun c hc => hw c (List.mem_cons_of_mem _ hc)), List.singleton_append]
  by_cases hspecial : cp = 0x22 ∨ cp = 0x5C
  · rcases hspecial with rfl | rfl <;> rfl
  · rw [escapePoint, if_neg hspecial, List.flatMap_singleton]
    refine (hplain _ (fun b hb => ?_)).symm
    by_cases hascii : cp < 0x80
    · rw [utf8Bytes, if_pos hascii] at hb
      have hcp : b.toNat = cp := by
        rw [List.mem_singleton.1 hb, UInt8.toNat_ofNat', Nat.mod_eq_of_lt (by omega)]
      rintro (rfl | rfl)
      · exact hspecial (.inl hcp.symm)
      · exact hspecial (.inr hcp.symm)
    · have hge := utf8Bytes_ge (Nat.not_lt.1 hascii) hlt b hb
      rintro (rfl | rfl)
      · exact absurd hge (by decide)
      · exact absurd hge (by decide)

/-- To escape a message and to escape its UTF-8 is the same. -/
theorem wideToUtf8_escape (message : WString) :
    wideToUtf8 (escape 0x22 0x5C message ++ [0x22]) = escape 0x22 0x5C (wideToUtf8 message) ++ [0x22] := by
  have hpoints : ∀ cps : List Nat, (∀ cp ∈ cps, cp < 0x110000) →
      (cps.flatMap escapePoint).flatMap utf8Bytes = escape 0x22 0x5C (cps.flatMap utf8Bytes) := by
    intro cps hcps
    induction cps with
    | nil => rfl
    | cons cp cps ih =>
      have happend : ∀ a b : List UInt8, escape 0x22 0x5C (a ++ b) = escape 0x22 0x5C a ++ escape 0x22 0x5C b :=
        fun a b => List.flatMap_append
      rw [List.flatMap_cons, List.flatMap_append, List.flatMap_cons, happend, utf8Bytes_escapePoint (hcps cp List.mem_cons_self),
        ih (fun x hx => hcps x (List.mem_cons_of_mem _ hx))]
  rw [wideToUtf8, codePoints_escape, List.flatMap_append, hpoints _ (fun cp hcp => lt_of_mem_codePoints hcp)]
  rfl

end

/-! ## The text of a record -/

/-- The bytes of a record, before text mode. -/
def LogRecord.text : LogRecord → List UInt8
  | .session st =>
    narrow ['\n', '-', '-', '-', ' ', 'S', 'e', 's', 's', 'i', 'o', 'n', ' ', 's', 't', 'a', 'r', 't', 'e', 'd', ' '] ++
      ((st.format ++ narrow [' ']) ++ (narrow ['-', '-', '-', '\n'] ++ []))
  | .entry st level message =>
    (st.format ++ narrow [' ']) ++ (narrow [' ', 'l', 'e', 'v', 'e', 'l', '='] ++ ((wideToUtf8 level.toWString ++ [0x20]) ++
      ([] ++ (narrow ['m', 's', 'g', '=', '"'] ++ ((escape 0x22 0x5C message ++ [0x22]) ++ (narrow ['\n'] ++ []))))))

/-- `Init` writes the record of a session. -/
theorem sessionHeader_eq (st : SystemTime) : sessionHeader st = (LogRecord.session st).text := by
  have hlen := st.length_format_le
  rw [sessionHeader, snprintf, List.take_of_length_le]
  · simp only [LogRecord.text, List.append_assoc, List.append_nil]
    rfl
  · simp only [List.length_append, narrow, List.length_map, List.length_cons, List.length_nil]
    omega

theorem ascii_toWString (level : LogLevel) : ∀ c ∈ level.toWString, c ≠ 0 ∧ c < 0x80 := by
  have hall : level.toWString.all (fun c => c ≠ 0 ∧ c < 0x80) = true := by cases level <;> rfl
  simpa using hall

/-- A message without a zero makes a line without one. -/
theorem zero_not_mem_logLine (level : LogLevel) {message : WString} (h : 0 ∉ message) : 0 ∉ logLine level message := by
  have hescape : 0 ∉ escape 0x22 0x5C message := by
    intro hmem
    obtain ⟨c, hc, hzero⟩ := List.mem_flatMap.1 hmem
    split at hzero
    · rcases List.mem_cons.1 hzero with hzero | hzero
      · exact absurd hzero (by decide)
      · exact h (List.mem_singleton.1 hzero ▸ hc)
    · exact h (List.mem_singleton.1 hzero ▸ hc)
  rw [logLine, escapeMessage_eq]
  simp only [List.mem_append, not_or]
  exact ⟨⟨⟨⟨by decide, fun hmem => (ascii_toWString level 0 hmem).1 rfl⟩, by decide⟩, hescape⟩, by decide⟩

/-- `Log` writes the record of a message. -/
theorem logEntry_eq (st : SystemTime) (level : LogLevel) {message : WString} (h : 0 ∉ message) :
    logEntry st level message = (LogRecord.entry st level (wideToUtf8 message)).text := by
  have hlen := st.length_format_le
  have htime : snprintf 32 (st.format ++ narrow [' ', ' ']) = st.format ++ narrow [' ', ' '] := by
    rw [snprintf, List.take_of_length_le]
    simp only [List.length_append, narrow, List.length_map, List.length_cons, List.length_nil]
    omega
  have hlevel : ∀ c ∈ wide ['l', 'e', 'v', 'e', 'l', '='], c < 0x80 := by simp [wide]
  have hmsg : ∀ c ∈ wide [' ', 'm', 's', 'g', '=', '"'], c < 0x80 := by simp [wide]
  have hline : wideToUtf8 (logLine level message) =
      narrow ['l', 'e', 'v', 'e', 'l', '='] ++ (wideToUtf8 level.toWString ++ (narrow [' ', 'm', 's', 'g', '=', '"'] ++
        (escape 0x22 0x5C (wideToUtf8 message) ++ [0x22]))) := by
    rw [logLine, escapeMessage_eq]
    simp only [List.append_assoc]
    rw [wideToUtf8_append hlevel, wideToUtf8_append (fun c hc => (ascii_toWString level c hc).2), wideToUtf8_append hmsg,
      show wide ['"'] = [0x22] from rfl, wideToUtf8_escape]
    rfl
  rw [logEntry, htime, cString_eq (zero_not_mem_logLine level h), hline]
  simp only [LogRecord.text, List.append_assoc, List.append_nil, List.nil_append]
  rfl

theorem readLevel_toWString (level : LogLevel) : readLevel (wideToUtf8 level.toWString) = some level := by
  cases level <;> rfl

/-- A record is read off its text. -/
theorem takes_text (r : LogRecord) : Takes readLogRecord r.text r := by
  intro rest
  cases r with
  | session st =>
    have htakes : Takes readSession (LogRecord.session st).text (.session st) :=
      (takes_literal _).bind ((takes_time st).bind ((takes_literal _).bind (takes_pure _)))
    have hfeed : ((LogRecord.session st).text ++ rest).head? = some 0x0A := rfl
    rw [readLogRecord, if_pos hfeed]
    exact htakes rest
  | entry st level message =>
    have hname : (0x20 : UInt8) ∉ wideToUtf8 level.toWString := by cases level <;> decide
    have htakes : Takes readEntry (LogRecord.entry st level message).text (.entry st level message) := by
      refine (takes_time st).bind ((takes_literal _).bind ((takes_upTo hname).bind ?_))
      refine Takes.bind (x := level) ?_ ((takes_literal _).bind ((takes_quoted (by decide) message).bind
        ((takes_literal _).bind (takes_pure _))))
      rw [readLevel_toWString]
      exact takes_lift level
    have hdigit : ((LogRecord.entry st level message).text ++ rest).head? ≠ some 0x0A := by
      have hne : padded 4 st.wYear ≠ [] := by
        rw [padded, narrow, ne_eq, List.map_eq_nil_iff, List.leftpad, List.append_eq_nil_iff, not_and]
        exact fun _ => Nat.toDigits_ne_nil
      obtain ⟨b, bytes, hbytes⟩ := List.exists_cons_of_ne_nil hne
      have hb : b ≠ 0x0A := by
        rintro rfl
        exact absurd (mem_padded (hbytes ▸ List.mem_cons_self)).1 (by decide)
      simp only [LogRecord.text, SystemTime.format, hbytes, List.cons_append, List.head?_cons]
      exact fun h => hb (Option.some.inj h)
    rw [readLogRecord, if_neg hdigit]
    exact htakes rest

theorem text_ne_nil (r : LogRecord) : r.text ≠ [] := by
  cases r with
  | session st => simp [LogRecord.text, narrow]
  | entry st level message => simp [LogRecord.text, narrow]

/-- The file of some records is read as these records. -/
theorem readLog_textMode (rs : List LogRecord) : readLog (textMode (rs.flatMap LogRecord.text)) = some rs := by
  rw [readLog, fromTextMode_textMode]
  exact readAll_flatMap (fun r _ => ⟨text_ne_nil r, takes_text r⟩) (length_le_length_flatMap (fun r _ => text_ne_nil r))

/-! ## Whole runs -/

section

variable {F : Type} [DecidableEq F] {fileOf : WString → F}

/-- The message of a call holds no zero. -/
def LogCall.Textual : LogCall → Prop
  | .log _ message _ _ => 0 ∉ message
  | _ => True

theorem recordsIn_concat (f : F) (calls : List LogCall) (call : LogCall) :
    recordsIn fileOf f (calls ++ [call]) =
      recordsIn fileOf f calls ++ ((call.record fileOf calls).toList.filterMap (fun r => if r.1 = f then some r.2 else none)) := by
  have hbefore : (List.range calls.length).filterMap
      (fun k => (calls ++ [call])[k]?.bind (LogCall.record fileOf ((calls ++ [call]).take k))) =
      (List.range calls.length).filterMap (fun k => calls[k]?.bind (LogCall.record fileOf (calls.take k))) := by
    refine List.filterMap_congr (fun k hk => ?_)
    have hlt := List.mem_range.1 hk
    rw [List.getElem?_append_left hlt, List.take_append_of_le_length (Nat.le_of_lt hlt)]
  have hlast : (calls ++ [call])[calls.length]?.bind (LogCall.record fileOf ((calls ++ [call]).take calls.length)) =
      call.record fileOf calls := by
    rw [List.getElem?_concat_length, List.take_left, Option.bind_some]
  rw [recordsIn, List.length_append, List.length_singleton, List.range_succ, List.filterMap_append, List.filterMap_append, hbefore,
    List.filterMap_cons, List.filterMap_nil, hlast]
  cases call.record fileOf calls <;> rfl

theorem pathAfter_concat (calls : List LogCall) (call : LogCall) :
    pathAfter (calls ++ [call]) = call.setsPath.getD (pathAfter calls) := by
  rw [pathAfter, List.reverse_append, List.reverse_singleton, List.singleton_append, List.findSome?_cons]
  cases call.setsPath <;> rfl

theorem levelAfter_concat (calls : List LogCall) (call : LogCall) :
    levelAfter (calls ++ [call]) = call.setsLevel.getD (levelAfter calls) := by
  rw [levelAfter, List.reverse_append, List.reverse_singleton, List.singleton_append, List.findSome?_cons]
  cases call.setsLevel <;> rfl

/-- What is appended to the file of the path in force, and to no other. -/
theorem append_files (s : Logging F) (opened : Bool) (bytes : List UInt8) (f : F) :
    (s.append fileOf opened bytes).files f =
      s.files f ++ if opened ∧ s.logger.path ≠ [] ∧ fileOf s.logger.path = f then textMode bytes else [] := by
  rw [Logging.append]
  by_cases hopen : opened ∧ s.logger.path ≠ []
  · rw [if_pos hopen]
    by_cases hf : fileOf s.logger.path = f
    · rw [if_pos ⟨hopen.1, hopen.2, hf⟩, ← hf]
      exact Function.update_self _ _ _
    · rw [if_neg (fun h => hf h.2.2), List.append_nil]
      exact Function.update_of_ne (Ne.symm hf) _ _
  · rw [if_neg hopen, if_neg (fun h => hopen ⟨h.1, h.2.1⟩), List.append_nil]

theorem append_logger (s : Logging F) (opened : Bool) (bytes : List UInt8) : (s.append fileOf opened bytes).logger = s.logger := by
  rw [Logging.append]
  split <;> rfl

/-- The logger and the files after some calls. -/
structure Logging.Follows (s : Logging F) (fileOf : WString → F) (calls : List LogCall) : Prop where
  path : s.logger.path = pathAfter calls
  level : s.logger.level = levelAfter calls
  files : ∀ f, s.files f = textMode ((recordsIn fileOf f calls).flatMap LogRecord.text)

/-- A call that records something in the file and appends its text. -/
theorem Logging.Follows.files_some {s s' : Logging F} {calls : List LogCall} {call : LogCall} (h : s.Follows fileOf calls) {f : F}
    {r : LogRecord} (hrecord : call.record fileOf calls = some (f, r)) (hfile : s'.files f = s.files f ++ textMode r.text) :
    s'.files f = textMode ((recordsIn fileOf f (calls ++ [call])).flatMap LogRecord.text) := by
  have hshown : (Option.toList (some (f, r))).filterMap (fun r => if r.1 = f then some r.2 else none) = [r] := by simp
  rw [hfile, h.files, recordsIn_concat, hrecord, hshown, List.flatMap_append, List.flatMap_singleton, textMode_append]

/-- A call that records nothing in the file and appends nothing. -/
theorem Logging.Follows.files_none {s s' : Logging F} {calls : List LogCall} {call : LogCall} (h : s.Follows fileOf calls) {f : F}
    (hrecord : ∀ r, call.record fileOf calls ≠ some (f, r)) (hfile : s'.files f = s.files f) :
    s'.files f = textMode ((recordsIn fileOf f (calls ++ [call])).flatMap LogRecord.text) := by
  have hshown : (call.record fileOf calls).toList.filterMap (fun r => if r.1 = f then some r.2 else none) = [] := by
    rw [List.filterMap_eq_nil_iff]
    rintro ⟨f', r⟩ hr
    rw [if_neg]
    rintro rfl
    exact hrecord r (Option.mem_toList.1 hr)
  rw [hfile, h.files, recordsIn_concat, hshown, List.append_nil]

/-- The file after `Init`. -/
theorem Logging.Follows.files_init {s : Logging F} {calls : List LogCall} (h : s.Follows fileOf calls) (logPath : WString)
    (level : LogLevel) (st : SystemTime) (opened : Bool) (f : F) :
    (s.step fileOf (.init logPath level st opened)).files f =
      textMode ((recordsIn fileOf f (calls ++ [.init logPath level st opened])).flatMap LogRecord.text) := by
  have hfile : (s.step fileOf (.init logPath level st opened)).files f =
      s.files f ++ if opened ∧ logPath ≠ [] ∧ fileOf logPath = f then textMode (sessionHeader st) else [] :=
    append_files { s with logger := ⟨logPath, level⟩ } opened (sessionHeader st) f
  by_cases hopen : opened ∧ logPath ≠ [] ∧ fileOf logPath = f
  · obtain ⟨hopened, hpath, rfl⟩ := hopen
    rw [if_pos ⟨hopened, hpath, rfl⟩, sessionHeader_eq] at hfile
    exact h.files_some (if_pos ⟨hopened, hpath⟩) hfile
  · rw [if_neg hopen, List.append_nil] at hfile
    refine h.files_none (fun r hr => hopen ?_) hfile
    rw [LogCall.record] at hr
    split at hr
    · rename_i hsome
      exact ⟨hsome.1, hsome.2, (Prod.mk.inj (Option.some.inj hr)).1⟩
    · cases hr

/-- The file after `Log`. -/
theorem Logging.Follows.files_log {s : Logging F} {calls : List LogCall} (h : s.Follows fileOf calls) (level : LogLevel)
    {message : WString} (htext : 0 ∉ message) (st : SystemTime) (opened : Bool) (f : F) :
    (s.step fileOf (.log level message st opened)).files f =
      textMode ((recordsIn fileOf f (calls ++ [.log level message st opened])).flatMap LogRecord.text) := by
  have hrecord : LogCall.record fileOf calls (.log level message st opened) =
      if opened ∧ s.logger.path ≠ [] ∧ level.value ≤ s.logger.level.value then
        some (fileOf s.logger.path, .entry st level (wideToUtf8 message))
      else none := by rw [h.path, h.level, LogCall.record]
  by_cases hwritten : opened ∧ s.logger.path ≠ [] ∧ level.value ≤ s.logger.level.value
  · obtain ⟨hopened, hpath, hlevel⟩ := hwritten
    have hstep : s.step fileOf (.log level message st opened) = s.append fileOf opened (logEntry st level message) := by
      rw [Logging.step, if_neg (not_or.2 ⟨hpath, Nat.not_lt.2 hlevel⟩)]
    rw [if_pos ⟨hopened, hpath, hlevel⟩] at hrecord
    have hfile : (s.append fileOf opened (logEntry st level message)).files f = _ := append_files s opened _ f
    rw [← hstep] at hfile
    by_cases hf : fileOf s.logger.path = f
    · rw [if_pos ⟨hopened, hpath, hf⟩, logEntry_eq st level htext] at hfile
      exact h.files_some (hrecord.trans (by rw [hf])) hfile
    · rw [if_neg (fun hopen => hf hopen.2.2), List.append_nil] at hfile
      refine h.files_none (fun r hr => hf ?_) hfile
      rw [hrecord] at hr
      exact (Prod.mk.inj (Option.some.inj hr)).1
  · rw [if_neg hwritten] at hrecord
    refine h.files_none (fun r hr => ?_) ?_
    · rw [hrecord] at hr
      cases hr
    · rw [Logging.step]
      split
      · rfl
      · rename_i hloud
        obtain ⟨hpath, hlevel⟩ := not_or.1 hloud
        rw [append_files, if_neg (fun hopen => hwritten ⟨hopen.1, hpath, Nat.not_lt.1 hlevel⟩), List.append_nil]

/-- One call. -/
theorem Logging.Follows.step {s : Logging F} {calls : List LogCall} {call : LogCall} (h : s.Follows fileOf calls)
    (htext : call.Textual) : (s.step fileOf call).Follows fileOf (calls ++ [call]) := by
  cases call with
  | restart =>
    refine ⟨by rw [pathAfter_concat]; rfl, by rw [levelAfter_concat]; rfl, fun f => ?_⟩
    exact h.files_none (fun _ hr => nomatch hr) rfl
  | setLevel level =>
    refine ⟨by rw [pathAfter_concat]; exact h.path, by rw [levelAfter_concat]; rfl, fun f => ?_⟩
    exact h.files_none (fun _ hr => nomatch hr) rfl
  | init logPath level st opened =>
    have hlogger : (s.step fileOf (.init logPath level st opened)).logger = ⟨logPath, level⟩ := append_logger _ _ _
    exact ⟨by rw [pathAfter_concat, hlogger]; rfl, by rw [levelAfter_concat, hlogger]; rfl, h.files_init logPath level st opened⟩
  | log level message st opened =>
    have hlogger : (s.step fileOf (.log level message st opened)).logger = s.logger := by
      rw [Logging.step]
      split
      · rfl
      · exact append_logger s opened _
    exact ⟨by rw [pathAfter_concat, hlogger]; exact h.path, by rw [levelAfter_concat, hlogger]; exact h.level,
      h.files_log level htext st opened⟩

/-- After any calls, of however many threads and over any number of starts of the program, one who reads a log file finds exactly
the sessions and messages that the calls recorded there, in order: each with its time, its level and its text. -/
theorem log_reads_back (fileOf : WString → F) (calls : List LogCall) (htext : ∀ call ∈ calls, call.Textual) (f : F) :
    readLog ((final (Logging.step fileOf) ⟨.initial, fun _ => []⟩ calls).files f) = some (recordsIn fileOf f calls) := by
  have hfollows : (final (Logging.step fileOf) ⟨.initial, fun _ => []⟩ calls).Follows fileOf calls := by
    induction calls using List.reverseRecOn with
    | nil => exact ⟨rfl, rfl, fun _ => rfl⟩
    | append_singleton calls call ih =>
      rw [final_append]
      exact (ih (fun c hc => htext c (List.mem_append_left _ hc))).step (htext call (by simp))
  rw [hfollows.files, readLog_textMode]

end

namespace LogWitness

/-- Noon on a day of the year 2024. -/
def noon : SystemTime := ⟨2024, 5, 17, 12, 0, 0, by decide, by decide⟩

/-- A session, a warning with a quotation mark, an error over two lines, a message that is above the level, and a second start. -/
def calls : List LogCall :=
  [.init (wide ['l', 'o', 'g']) .warning noon true, .log .warning (wide ['a', '"', 'b']) noon true,
    .log .error (wide ['c', '\n', 'd']) noon true, .log .info (wide ['e']) noon true, .restart, .log .error (wide ['f']) noon true]

theorem log_reads_back_calls :
    readLog ((final (Logging.step id) ⟨.initial, fun _ => []⟩ calls).files (wide ['l', 'o', 'g'])) =
      some [.session noon, .entry noon .warning [0x61, 0x22, 0x62], .entry noon .error [0x63, 0x0A, 0x64]] :=
  (log_reads_back id calls (by simp [calls, LogCall.Textual, wide]) (wide ['l', 'o', 'g'])).trans (by rfl)

end LogWitness

end WinIndex
