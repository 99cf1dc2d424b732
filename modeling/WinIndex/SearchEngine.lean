import WinIndex.IndexPool
import WinIndex.Lib.Fanout
import WinIndex.SimdSearch
import WinIndex.TokenMatcher

/-!
# The search engine

`SearchEngine` (src/core/search/SearchEngine.h, SearchEngine.cpp): every entry that is not tombstoned is tested by itself, as
a substring, by its tokens or with RE2, and the entries are fanned out over threads that share a counter of results. RE2 and
the processor are parameters. The cancel token is not set. No sum or product of the source wraps below 2 ^ 32 entries, so
indices and chunk bounds are plain numbers; what is stored in a result is cast as there.
-/

namespace WinIndex

open Fanout Trace

/-- `SearchOptions`. `ignoreDiacritics` is not read by the engine. -/
structure SearchOptions where
  useRegex : Bool
  caseSensitive : Bool
  wholeWord : Bool
  matchPath : Bool

/-- `SearchResult`. -/
structure SearchResult where
  entryIndex : UInt32
  matchStart : UInt32
  matchLen : UInt32
  deriving DecidableEq

/-- RE2, for a pattern with or without regard to case: whether it compiles, and whether it matches in a text; where its first
group has matched, if it has one, as an offset in bytes and a size. -/
structure Re2 where
  ok : (caseSensitive : Bool) → (pattern : List UInt8) → Bool
  partialMatch : (caseSensitive : Bool) → (pattern text : List UInt8) → Option (Nat × Nat)

/-- What a search depends on besides its arguments. -/
structure SearchContext where
  locale : Locale
  /-- `g_simdCaps.avx2`. -/
  avx2 : Bool
  re2 : Re2
  /-- What is in memory behind the path pool. -/
  beyond : Nat → WChar

/-! ## UTF-8 -/

/-- The code points of a wide string; half a surrogate pair is replaced by U+FFFD. -/
def codePoints : WString → List Nat
  | [] => []
  | [c] => [if 0xD800 ≤ c ∧ c ≤ 0xDFFF then 0xFFFD else c.toNat]
  | c :: d :: rest =>
    if 0xD800 ≤ c ∧ c ≤ 0xDBFF then
      if 0xDC00 ≤ d ∧ d ≤ 0xDFFF then
        (0x10000 + (c.toNat - 0xD800) * 0x400 + (d.toNat - 0xDC00)) :: codePoints rest
      else 0xFFFD :: codePoints (d :: rest)
    else if 0xDC00 ≤ c ∧ c ≤ 0xDFFF then 0xFFFD :: codePoints (d :: rest)
    else c.toNat :: codePoints (d :: rest)

/-- The bytes of a code point. -/
def utf8Bytes (cp : Nat) : List UInt8 :=
  if cp < 0x80 then [UInt8.ofNat cp]
  else if cp < 0x800 then [UInt8.ofNat (0xC0 + cp / 0x40), UInt8.ofNat (0x80 + cp % 0x40)]
  else if cp < 0x10000 then
    [UInt8.ofNat (0xE0 + cp / 0x1000), UInt8.ofNat (0x80 + cp / 0x40 % 0x40), UInt8.ofNat (0x80 + cp % 0x40)]
  else
    [UInt8.ofNat (0xF0 + cp / 0x40000), UInt8.ofNat (0x80 + cp / 0x1000 % 0x40), UInt8.ofNat (0x80 + cp / 0x40 % 0x40),
      UInt8.ofNat (0x80 + cp % 0x40)]

/-- `WideToUtf8`: `WideCharToMultiByte` for CP_UTF8 without flags. -/
def wideToUtf8 (s : WString) : List UInt8 := (codePoints s).flatMap utf8Bytes

/-! ## The test of one entry -/

/-- `MatchesWholeWord`: neither the unit before the match nor the one behind it is a word character. `text` is what the
pointer reads; a position behind the text is not refused. -/
def matchesWholeWord (Γ : Locale) (text : Nat → WChar) (textLen pos len : Nat) : Bool :=
  let isWordChar (c : WChar) : Bool := Γ.iswalnum c || c = 0x5F
  !(decide (0 < pos) && isWordChar (text (pos - 1))) && !(decide (pos + len < textLen) && isWordChar (text (pos + len)))

/-- What a pointer into the path pool reads. -/
def SearchContext.readPathPool (ctx : SearchContext) (p : IndexPool) (off i : Nat) : WChar :=
  p.pathPool.getD (off + i) (ctx.beyond (off + i - p.pathPool.length))

/-- The text `SearchSubstring` looks in: the path or the name, as it is or folded. -/
def haystack (Γ : Locale) (options : SearchOptions) (p : IndexPool) (m : EntryMeta) : WString :=
  if options.matchPath then
    if options.caseSensitive then p.pathView m else Γ.lower (p.pathView m)
  else if options.caseSensitive then p.nameView m
  else p.nameLowerView m

/-- The test of `SearchSubstring`: where the match starts and how long it is; a match by tokens has neither. -/
def substringTest (ctx : SearchContext) (query : WString) (options : SearchOptions) (p : IndexPool) (m : EntryMeta) :
    Option (Nat × Nat) :=
  let needle := if options.caseSensitive then query else ctx.locale.lower query
  let doTokenMatch := !options.caseSensitive && TokenMatcher.queryHasSeparators query
  let hay := haystack ctx.locale options p m
  match simdFindSubstring ctx.avx2 hay needle with
  | none =>
    if doTokenMatch && TokenMatcher.allQueryTokensPresent (TokenMatcher.sortTokens (TokenMatcher.tokenizeView needle))
        (TokenMatcher.sortTokens (TokenMatcher.tokenizeView hay)) then
      some (0, 0)
    else none
  | some pos =>
    if options.wholeWord && !matchesWholeWord ctx.locale (fun i => hay.getD i 0) hay.length pos needle.length then none
    else some (pos, needle.length)

/-- The pattern of a query in a group of its own. -/
def capturePattern (pattern : List UInt8) : List UInt8 := 0x28 :: pattern ++ [0x29]

/-- The test of `SearchRegex`; a query that does not compile matches nothing. The position of a whole word is one in the UTF-8
text, and is looked up in the wide one. -/
def regexTest (ctx : SearchContext) (query : WString) (options : SearchOptions) (p : IndexPool) (m : EntryMeta) :
    Option (Nat × Nat) :=
  let pattern := wideToUtf8 query
  let target := if options.matchPath then p.pathView m else p.nameView m
  let targetOffset := if options.matchPath then m.pathOffset.toNat else m.pathOffset.toNat + m.nameStart.toNat
  let targetLen := if options.matchPath then m.pathLen.toNat else subSizeT m.pathLen m.nameStart
  if !ctx.re2.ok options.caseSensitive pattern then none
  else if options.wholeWord then
    if !ctx.re2.ok options.caseSensitive (capturePattern pattern) then none
    else
      match ctx.re2.partialMatch options.caseSensitive (capturePattern pattern) (wideToUtf8 target) with
      | none => none
      | some (matchPos, size) =>
        if matchesWholeWord ctx.locale (ctx.readPathPool p targetOffset) targetLen matchPos size then some (0, 0) else none
  else if (ctx.re2.partialMatch options.caseSensitive pattern (wideToUtf8 target)).isSome then some (0, 0)
  else none

/-- The test of an entry that is not tombstoned. -/
def entryTest (ctx : SearchContext) (query : WString) (options : SearchOptions) (p : IndexPool) (m : EntryMeta) :
    Option (Nat × Nat) :=
  if options.useRegex then regexTest ctx query options p m else substringTest ctx query options p m

/-- What the loop of a thread makes of the entry at an index. -/
def searchTest (ctx : SearchContext) (query : WString) (options : SearchOptions) (p : IndexPool) (i : Nat) :
    Option SearchResult :=
  match p.entryMeta[i]? with
  | none => none
  | some m =>
    if m.deleted then none
    else (entryTest ctx query options p m).map (fun r => ⟨UInt32.ofNat i, UInt32.ofNat r.1, UInt32.ofNat r.2⟩)

/-! ## The threads -/

/-- `std::max(1u, std::thread::hardware_concurrency())`. -/
def numThreads (hardwareConcurrency : UInt32) : Nat := max 1 hardwareConcurrency.toNat

/-- The loop that puts the results of the threads together. Once there are `maxResults` the source leaves it, here the rest
changes nothing. -/
def mergeResults (maxResults : Nat) (chunks : List (List SearchResult)) : List SearchResult :=
  chunks.foldl (fun results chunk =>
    chunk.foldl (fun results sr => if maxResults ≤ results.length then results else results ++ [sr]) results) []

instance {ρ : Type} (s : State ρ) : Decidable s.Done := inferInstanceAs (Decidable (∀ w ∈ s.workers, _))

/-- The threads after their turns. -/
def threadsAfter (test : Nat → Option SearchResult) (entryCount maxResults threads : Nat) (turns : List Turn) :
    State SearchResult :=
  final (step test maxResults (2 ^ 32)) (.start (ceilChunks entryCount threads)) turns

/-- The fan-out of `SearchSubstring` and `SearchRegex`: the results, when the turns bring every thread to its end. -/
def fanOut (test : Nat → Option SearchResult) (entryCount maxResults threads : Nat) (turns : List Turn) :
    Option (List SearchResult) :=
  let s := threadsAfter test entryCount maxResults threads turns
  if s.Done then some (mergeResults maxResults (s.workers.map Worker.found)) else none

/-- `SearchRegex`. -/
def searchRegex (ctx : SearchContext) (query : WString) (options : SearchOptions) (p : IndexPool) (maxResults : UInt32)
    (hardwareConcurrency : UInt32) (turns : List Turn) : Option (List SearchResult) :=
  if !ctx.re2.ok options.caseSensitive (wideToUtf8 query) then some []
  else
    fanOut (searchTest ctx query options p) p.entryMeta.length maxResults.toNat (numThreads hardwareConcurrency) turns

/-- `SearchSubstring`. -/
def searchSubstring (ctx : SearchContext) (query : WString) (options : SearchOptions) (p : IndexPool) (maxResults : UInt32)
    (hardwareConcurrency : UInt32) (turns : List Turn) : Option (List SearchResult) :=
  fanOut (searchTest ctx query options p) p.entryMeta.length maxResults.toNat (numThreads hardwareConcurrency) turns

/-- `Search`, for the turns the threads take; `none` when they do not bring every thread to its end. -/
def search (ctx : SearchContext) (query : WString) (options : SearchOptions) (p : IndexPool) (maxResults : UInt32)
    (hardwareConcurrency : UInt32) (turns : List Turn) : Option (List SearchResult) :=
  if query.length < 2 then some []
  else if options.useRegex then searchRegex ctx query options p maxResults hardwareConcurrency turns
  else searchSubstring ctx query options p maxResults hardwareConcurrency turns

end WinIndex
