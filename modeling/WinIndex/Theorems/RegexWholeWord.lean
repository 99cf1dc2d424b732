import WinIndex.Lemmas.Match

/-!
# Whole words in a regex search

RE2 finds a match in the UTF-8 text and reports it in bytes; the boundary test takes these numbers for positions in the wide
text. Both agree as long as every character up to the end of the match is an ASCII one. Otherwise the test looks at two other
units, perhaps behind the name and in the next path of the pool, and what stands there decides.
-/

namespace WinIndex

open Fanout

variable {ctx : SearchContext} {query : WString} {options : SearchOptions} {p : IndexPool}

/-! ## Bytes and units -/

/-- A character below U+0080 takes one byte and any other more, one outside the basic plane four. -/
theorem length_utf8Bytes (cp : Nat) :
    0 < (utf8Bytes cp).length ∧ ((utf8Bytes cp).length = 1 ↔ cp < 0x80) ∧ (0x10000 ≤ cp → (utf8Bytes cp).length = 4) := by
  unfold utf8Bytes
  split
  · simp; omega
  · split
    · simp; omega
    · split
      · simp; omega
      · simp; omega

/-- One unit in front that is a character of its own. -/
theorem length_utf8_cons {c : WChar} {cp bytes : Nat} {tail : WString} (hcp : cp < 0x80 ↔ c < 0x80)
    (h : tail.length ≤ bytes ∧ (bytes = tail.length ↔ ∀ x ∈ tail, x < 0x80)) :
    (c :: tail).length ≤ (utf8Bytes cp).length + bytes ∧
      ((utf8Bytes cp).length + bytes = (c :: tail).length ↔ ∀ x ∈ c :: tail, x < 0x80) := by
  obtain ⟨hpos, hone, -⟩ := length_utf8Bytes cp
  simp only [List.length_cons, List.mem_cons, forall_eq_or_imp, ← hcp, ← hone, ← h.2]
  omega

/-- A text takes at least as many bytes as units, and as many only when all of it is ASCII. -/
theorem length_wideToUtf8 (s : WString) :
    s.length ≤ (wideToUtf8 s).length ∧ ((wideToUtf8 s).length = s.length ↔ ∀ c ∈ s, c < 0x80) := by
  have hbmp : ∀ c : WChar, c.toNat < 0x80 ↔ c < 0x80 := by
    intro c
    rw [UInt16.lt_iff_toNat_lt]
    rfl
  have hlone : ∀ c : WChar, 0xD800 ≤ c → (0xFFFD < 0x80 ↔ c < 0x80) := by
    intro c hc
    rw [UInt16.le_iff_toNat_le] at hc
    rw [← hbmp]
    simp at hc ⊢
    omega
  unfold wideToUtf8
  fun_induction codePoints s with
  | case1 => simp
  | case2 c =>
    rw [List.flatMap_cons, List.length_append]
    refine length_utf8_cons ?_ (by simp)
    split
    · rename_i hc
      exact hlone c hc.1
    · exact hbmp c
  | case3 c d rest hhigh hlow ih =>
    -- a surrogate pair: two units, four bytes
    have hfour := (length_utf8Bytes (0x10000 + (c.toNat - 0xD800) * 0x400 + (d.toNat - 0xDC00))).2.2 (by omega)
    have hc : ¬c < 0x80 := fun hlt => absurd ((hlone c hhigh.1).2 hlt) (by decide)
    simp only [List.flatMap_cons, List.length_append, hfour, List.length_cons, List.mem_cons, forall_eq_or_imp, hc, false_and,
      iff_false]
    omega
  | case4 c d rest hhigh hlow ih =>
    rw [List.flatMap_cons, List.length_append]
    exact length_utf8_cons (hlone c hhigh.1) ih
  | case5 c d rest hhigh hlow ih =>
    rw [List.flatMap_cons, List.length_append]
    exact length_utf8_cons (hlone c (UInt16.le_trans (by decide) hlow.1)) ih
  | case6 c d rest hhigh hlow ih =>
    rw [List.flatMap_cons, List.length_append]
    exact length_utf8_cons (hbmp c) ih

/-! ## What RE2 reports -/

/-- The leftmost match of a pattern in a wide text: what is before it, the text it covers, and what is behind it. -/
structure Match where
  before : WString
  matched : WString
  after : WString

/-- RE2 reports the leftmost match of a valid pattern in a text: it matches where there is one, and the group around the whole
pattern is then the match, as a slice of the text in UTF-8. -/
structure Re2.ReportsLeftmost (re2 : Re2) (caseSensitive : Bool) (pattern : List UInt8) (target : WString)
    (leftmost : Option Match) : Prop where
  found : (re2.partialMatch caseSensitive pattern (wideToUtf8 target)).isSome = leftmost.isSome
  captured : re2.ok caseSensitive (capturePattern pattern) = true →
    re2.partialMatch caseSensitive (capturePattern pattern) (wideToUtf8 target) =
      leftmost.map (fun s => ((wideToUtf8 s.before).length, (wideToUtf8 s.matched).length))
  slice : ∀ s, leftmost = some s → target = s.before ++ s.matched ++ s.after ∧
    wideToUtf8 target = wideToUtf8 s.before ++ wideToUtf8 s.matched ++ wideToUtf8 s.after

/-- The text of an entry that a regex search looks in. -/
def regexTarget (options : SearchOptions) (p : IndexPool) (m : EntryMeta) : WString :=
  if options.matchPath then p.pathView m else p.nameView m

/-- Where that text starts in the path pool. -/
def regexTargetOffset (options : SearchOptions) (m : EntryMeta) : Nat :=
  if options.matchPath then m.pathOffset.toNat else m.pathOffset.toNat + m.nameStart.toNat

/-- How long it is. -/
def regexTargetLen (options : SearchOptions) (m : EntryMeta) : Nat :=
  if options.matchPath then m.pathLen.toNat else subSizeT m.pathLen m.nameStart

/-- A word character stands next to the match. -/
def Match.WordNextTo (Γ : Locale) (s : Match) : Prop :=
  (∃ c, s.before.getLast? = some c ∧ IsWordChar Γ c) ∨ ∃ c, s.after.head? = some c ∧ IsWordChar Γ c

/-- What a whole-word regex search ought to accept: a text with a leftmost match that no word character stands next to. -/
def RegexWholeWord (Γ : Locale) (leftmost : Option Match) : Prop := ∃ s, leftmost = some s ∧ ¬s.WordNextTo Γ

/-- The test accepts the text of an entry just when it ought to. -/
def RegexTestAgrees (ctx : SearchContext) (query : WString) (options : SearchOptions) (p : IndexPool) (m : EntryMeta)
    (leftmost : Option Match) : Prop :=
  (regexTest ctx query options p m).isSome = true ↔ RegexWholeWord ctx.locale leftmost

/-- A word character stands at one of the places the test looks at: the numbers of bytes, taken for units. -/
def WordAtBytes (Γ : Locale) (read : Nat → WChar) (targetLen : Nat) (s : Match) : Prop :=
  (0 < (wideToUtf8 s.before).length ∧ IsWordChar Γ (read ((wideToUtf8 s.before).length - 1))) ∨
    ((wideToUtf8 s.before).length + (wideToUtf8 s.matched).length < targetLen ∧
      IsWordChar Γ (read ((wideToUtf8 s.before).length + (wideToUtf8 s.matched).length)))

theorem matchesWholeWord_iff_not_wordAtBytes {Γ : Locale} {read : Nat → WChar} {targetLen : Nat} {s : Match} :
    matchesWholeWord Γ read targetLen (wideToUtf8 s.before).length (wideToUtf8 s.matched).length = true ↔
      ¬WordAtBytes Γ read targetLen s := by
  rw [matchesWholeWord_iff, WordAtBytes, not_or, not_and, not_and]

/-- The test accepts a text with a match where it sees no word character. -/
theorem regexTest_isSome_iff (hword : options.wholeWord = true)
    (hvalid : ctx.re2.ok options.caseSensitive (wideToUtf8 query) = true) {m : EntryMeta} {leftmost : Option Match}
    (hre2 : ctx.re2.ReportsLeftmost options.caseSensitive (wideToUtf8 query) (regexTarget options p m) leftmost) :
    (regexTest ctx query options p m).isSome = true ↔
      ∃ s, leftmost = some s ∧ ctx.re2.ok options.caseSensitive (capturePattern (wideToUtf8 query)) = true ∧
        ¬WordAtBytes ctx.locale (ctx.readPathPool p (regexTargetOffset options m)) (regexTargetLen options m) s := by
  unfold regexTest
  simp only [hvalid, hword, Bool.not_true, Bool.false_eq_true, if_false, if_true]
  cases hok : ctx.re2.ok options.caseSensitive (capturePattern (wideToUtf8 query)) with
  | false => simp
  | true =>
    have hcap := hre2.captured hok
    rw [regexTarget] at hcap
    simp only [Bool.not_true, Bool.false_eq_true, if_false, hcap]
    cases leftmost with
    | none => simp
    | some s =>
      simp only [Option.map_some, Option.some.injEq, true_and, exists_eq_left', ← matchesWholeWord_iff_not_wordAtBytes]
      rw [regexTargetOffset, regexTargetLen]
      split
      · simp
      · simp

/-! ## Where the bytes are the units -/

/-- The text of an entry whose views lie in the pool is as long as its metadata says. -/
theorem length_regexTarget {m : EntryMeta} (h : p.InBounds m) :
    (regexTarget options p m).length = regexTargetLen options m := by
  have hpath := h.path
  have hname := h.name
  rw [regexTarget, regexTargetLen]
  split
  · exact Segments.length_slice hpath
  · refine Segments.length_slice ?_
    rw [subSizeT_eq hname]
    omega

/-- The test reads the text where it reads inside it. -/
theorem readPathPool_regexTarget {m : EntryMeta} {k : Nat} {c : WChar} (hc : (regexTarget options p m)[k]? = some c) :
    ctx.readPathPool p (regexTargetOffset options m) k = c := by
  have hslice : ∀ off len, (Segments.slice p.pathPool off len)[k]? = some c → ctx.readPathPool p off k = c := by
    intro off len h
    rw [Segments.slice, List.getElem?_take, List.getElem?_drop] at h
    split at h
    · rw [SearchContext.readPathPool, List.getD_eq_getElem?_getD, h]
      rfl
    · cases h
  rw [regexTarget] at hc
  rw [regexTargetOffset]
  split at hc
  · rename_i h
    rw [if_pos h]
    exact hslice _ _ hc
  · rename_i h
    rw [if_neg h]
    exact hslice _ _ hc

/-- A match stands alone when no word character stands next to it. -/
theorem standsAlone_match {Γ : Locale} {s : Match} :
    StandsAlone Γ (s.before ++ s.matched ++ s.after) s.before.length (s.before.length + s.matched.length) ↔
      ¬s.WordNextTo Γ := by
  have hafter : (s.before ++ s.matched ++ s.after)[s.before.length + s.matched.length]? = s.after.head? := by
    rw [← List.length_append, List.getElem?_append_right (Nat.le_refl _), Nat.sub_self, List.head?_eq_getElem?]
  have hbefore : ∀ k, k + 1 = s.before.length → (s.before ++ s.matched ++ s.after)[k]? = s.before.getLast? := by
    intro k hk
    rw [List.append_assoc, List.getElem?_append_left (by omega), List.getLast?_eq_getElem?, ← hk, Nat.add_sub_cancel]
  rw [StandsAlone, Match.WordNextTo, not_or, hafter]
  refine and_congr ⟨fun h => ?_, fun h => ?_⟩ ⟨fun h => ?_, fun h => ?_⟩
  · rintro ⟨c, hc, hword⟩
    obtain ⟨k, hk⟩ : ∃ k, k + 1 = s.before.length := by
      rw [List.getLast?_eq_getElem?] at hc
      have := (List.getElem?_eq_some_iff.1 hc).1
      exact ⟨s.before.length - 1, by omega⟩
    exact h k c hk (by rw [hbefore k hk, hc]) hword
  · intro k c hk hc hword
    rw [hbefore k hk] at hc
    exact h ⟨c, hc, hword⟩
  · rintro ⟨c, hc, hword⟩
    exact h c hc hword
  · intro c hc hword
    exact h ⟨c, hc, hword⟩

/-- The bytes up to a match and in it are as many as the units when all of them are ASCII, and only then. -/
theorem bytes_eq_units_iff (s : Match) :
    (wideToUtf8 s.before).length = s.before.length ∧ (wideToUtf8 s.matched).length = s.matched.length ↔
      ∀ c ∈ s.before ++ s.matched, c < 0x80 := by
  rw [(length_wideToUtf8 s.before).2, (length_wideToUtf8 s.matched).2, List.forall_mem_append]

/-- Then the test looks at what stands next to the match. -/
theorem wordAtBytes_iff_of_ascii {m : EntryMeta} {s : Match} (hm : p.InBounds m)
    (htarget : regexTarget options p m = s.before ++ s.matched ++ s.after) (hascii : ∀ c ∈ s.before ++ s.matched, c < 0x80) :
    WordAtBytes ctx.locale (ctx.readPathPool p (regexTargetOffset options m)) (regexTargetLen options m) s ↔
      s.WordNextTo ctx.locale := by
  obtain ⟨hbefore, hmatched⟩ := (bytes_eq_units_iff s).2 hascii
  have hpos : s.before.length ≤ (regexTarget options p m).length := by
    rw [htarget, List.append_assoc, List.length_append]
    exact Nat.le_add_right _ _
  have hread : ∀ k c, (regexTarget options p m)[k]? = some c → ctx.readPathPool p (regexTargetOffset options m) k = c :=
    fun k c hc => readPathPool_regexTarget hc
  have halone := matchesWholeWord_iff_standsAlone ctx.locale hread s.matched.length hpos
  rw [length_regexTarget hm, ← hbefore, ← hmatched, matchesWholeWord_iff_not_wordAtBytes, hbefore, hmatched, htarget,
    standsAlone_match] at halone
  exact not_iff_not.1 halone

/-! ## Where they are not -/

/-- A character up to the end of the match that is not ASCII takes the bytes past the units. -/
theorem units_lt_bytes {before matched : WString} (h : ∃ c ∈ before ++ matched, 0x80 ≤ c) :
    before.length + matched.length < (wideToUtf8 before).length + (wideToUtf8 matched).length := by
  obtain ⟨hbefore, hbefore'⟩ := length_wideToUtf8 before
  obtain ⟨hmatched, hmatched'⟩ := length_wideToUtf8 matched
  obtain ⟨c, hc, hlarge⟩ := h
  by_contra hle
  have hsmall : c < 0x80 := by
    rcases List.mem_append.1 hc with hc | hc
    · exact hbefore'.1 (by omega) c hc
    · exact hmatched'.1 (by omega) c hc
  exact absurd hsmall (UInt16.not_lt.2 hlarge)

/-- A text behind a match that has a separator next to it, and an underscore where the bytes end. -/
def misleading (separator : WChar) (before matched : WString) : WString :=
  List.replicate ((wideToUtf8 before).length + (wideToUtf8 matched).length - (before.length + matched.length)) separator ++
    [0x5F]

/-- In front of such a text the test sees the underscore. -/
theorem wordAtBytes_misleading {separator : WChar} {before matched : WString} {m : EntryMeta} (hm : p.InBounds m)
    (h : ∃ c ∈ before ++ matched, 0x80 ≤ c)
    (htarget : regexTarget options p m = before ++ matched ++ misleading separator before matched) :
    WordAtBytes ctx.locale (ctx.readPathPool p (regexTargetOffset options m)) (regexTargetLen options m)
      ⟨before, matched, misleading separator before matched⟩ := by
  have hlt := units_lt_bytes h
  have hlen : (regexTarget options p m).length = regexTargetLen options m := length_regexTarget hm
  rw [htarget, misleading, List.length_append, List.length_append, List.length_append, List.length_replicate,
    List.length_singleton] at hlen
  have hunit : (regexTarget options p m)[(wideToUtf8 before).length + (wideToUtf8 matched).length]? = some 0x5F := by
    rw [htarget, misleading, ← List.append_assoc, List.getElem?_append_right (by simp; omega)]
    simp only [List.length_append, List.length_replicate]
    rw [show (wideToUtf8 before).length + (wideToUtf8 matched).length - (before.length + matched.length +
      ((wideToUtf8 before).length + (wideToUtf8 matched).length - (before.length + matched.length))) = 0 by omega]
    rfl
  refine .inr ⟨?_, ?_⟩
  · show (wideToUtf8 before).length + (wideToUtf8 matched).length < _
    omega
  · show IsWordChar _ (ctx.readPathPool p _ ((wideToUtf8 before).length + (wideToUtf8 matched).length))
    rw [readPathPool_regexTarget hunit]
    exact .inr rfl

/-- No word character stands next to a match in front of such a text, unless one stands before it. -/
theorem not_wordNextTo_misleading {Γ : Locale} {separator : WChar} (hseparator : ¬IsWordChar Γ separator)
    {before matched : WString} (h : ∃ c ∈ before ++ matched, 0x80 ≤ c)
    (hbefore : ∀ c, before.getLast? = some c → ¬IsWordChar Γ c) :
    ¬(⟨before, matched, misleading separator before matched⟩ : Match).WordNextTo Γ := by
  have hlt := units_lt_bytes h
  obtain ⟨k, hk⟩ : ∃ k,
      (wideToUtf8 before).length + (wideToUtf8 matched).length - (before.length + matched.length) = k + 1 :=
    ⟨_, (Nat.succ_pred_eq_of_pos (by omega)).symm⟩
  rintro (⟨c, hc, hword⟩ | ⟨c, hc, hword⟩)
  · exact hbefore c hc hword
  · have hhead : some separator = some c := by
      rw [← hc]
      simp [misleading, hk, List.replicate_succ]
    rw [← Option.some.inj hhead] at hword
    exact hseparator hword

/-- The test of `SearchRegex` accepts a text when no word character stands next to the leftmost match, for every text that is
ASCII up to the end of that match and every valid pattern that also compiles in a group; where there is no match, for every text.
The numbers of bytes are those of the units nowhere else: when a text is not ASCII up to there, and no word character stands
before the match, then behind the match there can be a text with which the test is wrong. And a pattern that does not compile in a
group is found nowhere. -/
theorem regexWholeWord_of_ascii (ctx : SearchContext) (query : WString) (options : SearchOptions)
    (hword : options.wholeWord = true) (hvalid : ctx.re2.ok options.caseSensitive (wideToUtf8 query) = true) :
    (∀ (p : IndexPool) (m : EntryMeta) (leftmost : Option Match), p.InBounds m →
      ctx.re2.ReportsLeftmost options.caseSensitive (wideToUtf8 query) (regexTarget options p m) leftmost →
      (∀ s, leftmost = some s → ctx.re2.ok options.caseSensitive (capturePattern (wideToUtf8 query)) = true ∧
        ∀ c ∈ s.before ++ s.matched, c < 0x80) →
      RegexTestAgrees ctx query options p m leftmost) ∧
    (∀ s : Match, (wideToUtf8 s.before).length = s.before.length ∧ (wideToUtf8 s.matched).length = s.matched.length ↔
      ∀ c ∈ s.before ++ s.matched, c < 0x80) ∧
    (∀ (separator : WChar) (before matched : WString), ¬IsWordChar ctx.locale separator →
      (∃ c ∈ before ++ matched, 0x80 ≤ c) → (∀ c, before.getLast? = some c → ¬IsWordChar ctx.locale c) →
      ∃ after, ∀ (p : IndexPool) (m : EntryMeta), p.InBounds m → regexTarget options p m = before ++ matched ++ after →
        ctx.re2.ReportsLeftmost options.caseSensitive (wideToUtf8 query) (regexTarget options p m)
          (some ⟨before, matched, after⟩) →
        ¬RegexTestAgrees ctx query options p m (some ⟨before, matched, after⟩)) ∧
    (ctx.re2.ok options.caseSensitive (capturePattern (wideToUtf8 query)) = false →
      ∀ (p : IndexPool) (m : EntryMeta), regexTest ctx query options p m = none) := by
  refine ⟨fun p m leftmost hm hre2 hcond => ?_, bytes_eq_units_iff, fun separator before matched hseparator hnot hbefore =>
    ⟨misleading separator before matched, fun p m hm htarget hre2 hagrees => ?_⟩, fun hgroup p m => ?_⟩
  · rw [RegexTestAgrees, regexTest_isSome_iff hword hvalid hre2, RegexWholeWord]
    refine exists_congr (fun s => and_congr_right (fun hs => ?_))
    obtain ⟨hgroup, hascii⟩ := hcond s hs
    rw [wordAtBytes_iff_of_ascii hm (hre2.slice s hs).1 hascii]
    exact ⟨fun h => h.2, fun h => ⟨hgroup, h⟩⟩
  · have hfound := hagrees.2 ⟨_, rfl, not_wordNextTo_misleading hseparator hnot hbefore⟩
    obtain ⟨s, hs, -, hnone⟩ := (regexTest_isSome_iff hword hvalid hre2).1 hfound
    rw [← Option.some.inj hs] at hnone
    exact hnone (wordAtBytes_misleading hm hnot htarget)
  · unfold regexTest
    simp only [hvalid, hword, hgroup, Bool.not_true, Bool.not_false, Bool.false_eq_true, if_true, if_false]

namespace RegexWitness

/-- RE2 for patterns of letters alone, in a group or not: such a pattern matches where its bytes first occur. -/
def literalMatch (pattern : List UInt8) : List UInt8 → Nat → Option (Nat × Nat)
  | [], pos => if pattern = [] then some (pos, 0) else none
  | b :: bytes, pos =>
    if pattern.isPrefixOf (b :: bytes) then some (pos, pattern.length) else literalMatch pattern bytes (pos + 1)

/-- The letters of such a pattern, out of its group. -/
def letters (pattern : List UInt8) : List UInt8 := pattern.filter (fun b => !(b = 0x28 || b = 0x29))

/-- A matcher that every pattern of letters compiles for. -/
def literals : Re2 := ⟨fun _ _ => true, fun _ pattern text => literalMatch (letters pattern) text 0⟩

/-- A search with it, where what lies behind the pool is zero. -/
def context : SearchContext := ⟨.c, false, literals, fun _ => 0⟩

/-- Whole words by regex. -/
def regexWords : SearchOptions := ⟨true, true, true, false⟩

/-- `cat`. -/
def cat : WString := wide ['c', 'a', 't']

/-- `C:\a cat.txt`. -/
def plainPath : WString := wide ['C', ':', '\\', 'a', ' ', 'c', 'a', 't', '.', 't', 'x', 't']

/-- `C:\é cat.txt`. -/
def accentPath : WString := wide ['C', ':', '\\', 'é', ' ', 'c', 'a', 't', '.', 't', 'x', 't']

/-- One file, of a path. -/
def pool (path : WString) : IndexPool := .ofEntries .c [.ofPath .c path 3 5 0x20]

/-- Its metadata. -/
def fileMeta : EntryMeta := ⟨3, 5, 0, 0, 0x20, 12, 9, 3, false⟩

/-- The match in a name that is one letter, a space and `cat.txt`. -/
def catIn (letter : Char) : Match := ⟨wide [letter, ' '], cat, wide ['.', 't', 'x', 't']⟩

theorem reportsLeftmost_plain :
    literals.ReportsLeftmost true (wideToUtf8 cat) (regexTarget regexWords (pool plainPath) fileMeta) (some (catIn 'a')) where
  found := by decide +kernel
  captured := by decide +kernel
  slice s hs := by
    obtain rfl := Option.some.inj hs
    decide +kernel

theorem reportsLeftmost_accent :
    literals.ReportsLeftmost true (wideToUtf8 cat) (regexTarget regexWords (pool accentPath) fileMeta) (some (catIn 'é')) where
  found := by decide +kernel
  captured := by decide +kernel
  slice s hs := by
    obtain rfl := Option.some.inj hs
    decide +kernel

theorem ascii_plain : ∀ c ∈ (catIn 'a').before ++ (catIn 'a').matched, c < 0x80 := by
  have hall : ((catIn 'a').before ++ (catIn 'a').matched).all (fun c => decide (c < 0x80)) = true := by decide +kernel
  exact fun c hc => of_decide_eq_true (List.all_eq_true.1 hall c hc)

theorem regexWholeWord_of_ascii_plain :
    RegexTestAgrees context cat regexWords (pool plainPath) fileMeta (some (catIn 'a')) :=
  (regexWholeWord_of_ascii context cat regexWords rfl rfl).1 (pool plainPath) fileMeta _
    ⟨by decide +kernel, by decide +kernel, by decide +kernel⟩ reportsLeftmost_plain (fun s hs => by
      obtain rfl := Option.some.inj hs
      exact ⟨rfl, ascii_plain⟩)

end RegexWitness

/-- In `é cat.txt` the match of `cat` has a space before it and a dot behind it. The test reads the unit before position 3, which
is the `c` of `cat`, and refuses the file. -/
theorem regexWholeWord_refused :
    RegexWitness.literals.ReportsLeftmost true (wideToUtf8 RegexWitness.cat)
        (regexTarget RegexWitness.regexWords (RegexWitness.pool RegexWitness.accentPath) RegexWitness.fileMeta)
        (some (RegexWitness.catIn 'é')) ∧
      RegexWholeWord .c (some (RegexWitness.catIn 'é')) ∧
      regexTest RegexWitness.context RegexWitness.cat RegexWitness.regexWords (RegexWitness.pool RegexWitness.accentPath)
        RegexWitness.fileMeta = none ∧
      search RegexWitness.context RegexWitness.cat RegexWitness.regexWords (RegexWitness.pool RegexWitness.accentPath) 10 1
        [⟨0, 0⟩, ⟨0, 0⟩, ⟨0, 0⟩] = some [] := by
  refine ⟨RegexWitness.reportsLeftmost_accent, ⟨_, rfl, ?_⟩, by decide +kernel, by decide +kernel⟩
  rintro (⟨c, hc, hword⟩ | ⟨c, hc, hword⟩)
  · rw [← Option.some.inj hc] at hword
    exact absurd hword (by decide)
  · rw [← Option.some.inj hc] at hword
    exact absurd hword (by decide)

end WinIndex
