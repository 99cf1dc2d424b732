import Mathlib.Data.List.Sort
import WinIndex.Text

/-!
# Token-set matching

`TokenMatcher` (src/core/search/TokenMatcher.h, TokenMatcher.cpp): a text is split at separators, and a query matches when
each of its tokens is one of the text's. Tokens are compared as `std::wstring_view` compares them, unit by unit.
-/

namespace WinIndex.TokenMatcher

open Segments

/-- `IsTokenSep`: a space, an underscore, a hyphen or a dot. -/
def isTokenSep (c : WChar) : Bool := c = 0x20 || c = 0x5F || c = 0x2D || c = 0x2E

/-- `QueryHasSeparators`. -/
def queryHasSeparators (query : WString) : Bool := query.any isTokenSep

/-- One pass of the loop of `TokenizeView`, at the end of the text or at one of its units: the tokens so far, and where the
next one starts. -/
def tokenizeStep (s : WString) (state : List WString × Nat) (i : Nat) : List WString × Nat :=
  if i = s.length ∨ (s[i]?).any isTokenSep = true then
    (if state.2 < i then state.1 ++ [slice s state.2 (i - state.2)] else state.1, i + 1)
  else state

/-- `TokenizeView`. -/
def tokenizeView (s : WString) : List WString := ((List.range (s.length + 1)).foldl (tokenizeStep s) ([], 0)).1

/-- `std::sort` of the tokens. -/
def sortTokens (tokens : List WString) : List WString := tokens.mergeSort (fun a b => decide (a ≤ b))

/-- `std::binary_search` in sorted tokens: one of them is equivalent to the token. -/
def binarySearch (sorted : List WString) (token : WString) : Bool :=
  sorted.any (fun t => !decide (t < token) && !decide (token < t))

/-- `AllQueryTokensPresent`. -/
def allQueryTokensPresent (sortedQueryTokens sortedFilenameTokens : List WString) : Bool :=
  if sortedQueryTokens = [] then false else sortedQueryTokens.all (binarySearch sortedFilenameTokens)

end WinIndex.TokenMatcher
