import WinIndex.Lib.Hazard
import WinIndex.Text

/-!
# Substring search, a block at a time

`SimdFindSubstring` (src/core/search/SimdSearch.cpp, SimdSearchAvx2.cpp): `Sse2Find` and `Avx2Find` are one algorithm with 8
and with 16 lanes. A block of the haystack is compared with the first unit of the needle, a mask gets two bits for each lane
that is equal, and the lanes are tried from the lowest bit on; what is left behind the last whole block is tried unit by unit.
-/

namespace WinIndex

open Segments

/-- `movemask_epi8(cmpeq_epi16(chunk, vFirst))`: the two bits of each lane that holds the unit. -/
def moveMask (first : WChar) : List WChar → Nat
  | [] => 0
  | c :: cs => (if c = first then 3 else 0) + 4 * moveMask first cs

/-- `_BitScanForward` of a mask that is not zero: the lowest bit set. -/
def bitScanForward (mask : Nat) : Nat := ((List.range 32).find? mask.testBit).getD 0

/-- `mask &= mask - 1`. -/
def clearLowest (mask : Nat) : Nat := mask &&& (mask - 1)

/-- `wmemcmp(p, needle, needleLen) == 0`. -/
def matchesAtPos (hay needle : WString) (p : Nat) : Bool := decide (slice hay p needle.length = needle)

/-- The loop over the bits of a block's mask. Each pass clears the two bits of a lane, so as many passes as lanes are enough. -/
def scanMask (hay needle : WString) (p : Nat) : Nat → Nat → Option Nat
  | 0, _ => none
  | passes + 1, mask =>
    if mask = 0 then none
    else
      let off := bitScanForward mask / 2
      if matchesAtPos hay needle (p + off) then some (p + off)
      else scanMask hay needle p passes (clearLowest (clearLowest mask))

/-- The loop over the units behind the last whole block. -/
def scanTail (hay needle : WString) : Nat → Nat → Option Nat
  | 0, _ => none
  | left + 1, p =>
    if hay[p]? = needle[0]? ∧ matchesAtPos hay needle p then some p else scanTail hay needle left (p + 1)

/-- The loop over the blocks. `last` is where it stops: one past the last position at which the needle fits. A pass goes on by
at least one unit, so `last` passes are enough. -/
def scanBlocks (lanes : Nat) (hay needle : WString) (first : WChar) (last : Nat) : Nat → Nat → Option Nat
  | 0, p => scanTail hay needle (last - p) p
  | passes + 1, p =>
    if p + lanes ≤ last then
      match scanMask hay needle p lanes (moveMask first (slice hay p lanes)) with
      | some pos => some pos
      | none => scanBlocks lanes hay needle first last passes (p + lanes)
    else scanTail hay needle (last - p) p

/-- `Sse2Find` and `Avx2Find`, for their number of lanes; `none` is `npos`. -/
def blockFind (lanes : Nat) (hay needle : WString) : Option Nat :=
  match needle with
  | [] => some 0
  | first :: _ =>
    if hay.length < needle.length then none
    else
      let last := hay.length - needle.length + 1
      scanBlocks lanes hay needle first last last 0

/-- `Sse2Find`. -/
def sse2Find (hay needle : WString) : Option Nat := blockFind 8 hay needle

/-- `Avx2Find`. -/
def avx2Find (hay needle : WString) : Option Nat := blockFind 16 hay needle

/-- `SimdFindSubstring`, on a processor with AVX2 or without. -/
def simdFindSubstring (avx2 : Bool) (hay needle : WString) : Option Nat :=
  if avx2 then avx2Find hay needle else sse2Find hay needle

/-! ## What the finders read

The same searches with every read of the haystack written out: a block load, `*p` and `wmemcmp` ask for units at a position,
and a read that leaves the haystack is recorded. `ScalarFindInsensitive` has this form only.
-/

/-- A read that leaves the haystack: where it starts and how many units it asks for. -/
structure OutsideRead where
  pos : Nat
  len : Nat
deriving DecidableEq

/-- A finder's execution. -/
abbrev FinderRun (α : Type) := Run OutsideRead Empty α

/-- `len` units of the haystack from `p` on. -/
def readUnits (hay : WString) (p len : Nat) : FinderRun WString := do
  Run.hazardIf (hay.length < p + len) ⟨p, len⟩
  return slice hay p len

/-- The loop over the bits of a block's mask, with its reads. -/
def scanMaskReading (hay needle : WString) (p : Nat) : Nat → Nat → FinderRun (Option Nat)
  | 0, _ => return none
  | passes + 1, mask =>
    if mask = 0 then return none
    else do
      let off := bitScanForward mask / 2
      let units ← readUnits hay (p + off) needle.length
      if units = needle then return some (p + off)
      else scanMaskReading hay needle p passes (clearLowest (clearLowest mask))

/-- The loop over the units behind the last whole block, with its reads. -/
def scanTailReading (hay needle : WString) : Nat → Nat → FinderRun (Option Nat)
  | 0, _ => return none
  | left + 1, p => do
    let unit ← readUnits hay p 1
    if unit = slice needle 0 1 then
      let units ← readUnits hay p needle.length
      if units = needle then return some p else scanTailReading hay needle left (p + 1)
    else scanTailReading hay needle left (p + 1)

/-- The loop over the blocks, with its reads. -/
def scanBlocksReading (lanes : Nat) (hay needle : WString) (first : WChar) (last : Nat) : Nat → Nat → FinderRun (Option Nat)
  | 0, p => scanTailReading hay needle (last - p) p
  | passes + 1, p =>
    if p + lanes ≤ last then do
      let chunk ← readUnits hay p lanes
      match ← scanMaskReading hay needle p lanes (moveMask first chunk) with
      | some pos => return some pos
      | none => scanBlocksReading lanes hay needle first last passes (p + lanes)
    else scanTailReading hay needle (last - p) p

/-- `Sse2Find` and `Avx2Find` with their reads, for their number of lanes. -/
def blockFindReading (lanes : Nat) (hay needle : WString) : FinderRun (Option Nat) :=
  match needle with
  | [] => return some 0
  | first :: _ =>
    if hay.length < needle.length then return none
    else
      let last := hay.length - needle.length + 1
      scanBlocksReading lanes hay needle first last last 0

/-- `Sse2Find` with its reads. -/
def sse2FindReading (hay needle : WString) : FinderRun (Option Nat) := blockFindReading 8 hay needle

/-- `Avx2Find` with its reads. -/
def avx2FindReading (hay needle : WString) : FinderRun (Option Nat) := blockFindReading 16 hay needle

/-- The inner loop of `ScalarFindInsensitive`: `left` units of the needle are still to be compared, from `j` on. -/
def foldedMatch (Γ : Locale) (hay needle : WString) (i : Nat) : Nat → Nat → FinderRun Bool
  | 0, _ => return true
  | left + 1, j => do
    let unit ← readUnits hay (i + j) 1
    if unit.map Γ.towlower ≠ (slice needle j 1).map Γ.towlower then return false
    else foldedMatch Γ hay needle i left (j + 1)

/-- The outer loop of `ScalarFindInsensitive`: `left` positions are still to be tried, from `i` on. -/
def scalarScan (Γ : Locale) (hay needle : WString) : Nat → Nat → FinderRun (Option Nat)
  | 0, _ => return none
  | left + 1, i => do
    if ← foldedMatch Γ hay needle i needle.length 0 then return some i
    else scalarScan Γ hay needle left (i + 1)

/-- `ScalarFindInsensitive`. -/
def scalarFindInsensitive (Γ : Locale) (hay needle : WString) : FinderRun (Option Nat) :=
  if needle.length = 0 then return some 0
  else if hay.length < needle.length then return none
  else scalarScan Γ hay needle (hay.length - needle.length + 1) 0

end WinIndex
