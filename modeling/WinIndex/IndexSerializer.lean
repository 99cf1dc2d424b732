import WinIndex.IndexPool
import WinIndex.Lib.Bytes
import WinIndex.Lib.Hazard

/-!
# The index file

`IndexSerializer` (src/core/storage/IndexSerializer.h, IndexSerializer.cpp). A file is a 26-byte header and a payload: the
path pool, one 24-byte record a live entry, and the USN map. The lowercased names and every offset are not stored; the
reader rebuilds them.

`serialize` gives the bytes `Serialize` writes. `deserialize` follows the reader check by check. The reader walks raw
pointers over a buffer whose address the allocator chooses (`base`), so `p + n > end` is a comparison of 64-bit addresses;
a read outside the buffer or the path pool, a vector asked for more than its `max_size`, and a `reserve` that the allocator
refuses stop the run; a size computation that wraps, and a `reserve` for a count the file does not bear out, are recorded as
hazards.
-/

namespace WinIndex

open Segments LittleEndian

/-! ## The USN map -/

/-- `std::unordered_map<std::wstring, uint64_t>`: its entries in iteration order, each key once. -/
@[ext] structure UsnMap where
  entries : List (WString × UInt64)
  nodup : (entries.map Prod.fst).Nodup

/-- The empty map. -/
def UsnMap.empty : UsnMap := ⟨[], List.nodup_nil⟩

/-- `map.find(root)`. -/
def UsnMap.find? (m : UsnMap) (root : WString) : Option UInt64 := (m.entries.find? (fun e => e.1 = root)).map Prod.snd

/-- `map[root] = usn` on the list of entries: assign in place, or add. -/
def setEntry (root : WString) (usn : UInt64) : List (WString × UInt64) → List (WString × UInt64)
  | [] => [(root, usn)]
  | e :: es => if e.1 = root then (root, usn) :: es else e :: setEntry root usn es

theorem keys_setEntry (root : WString) (usn : UInt64) (es : List (WString × UInt64)) :
    (setEntry root usn es).map Prod.fst = if root ∈ es.map Prod.fst then es.map Prod.fst else es.map Prod.fst ++ [root] := by
  induction es with
  | nil => rfl
  | cons e es ih =>
    by_cases h : e.1 = root
    · simp [setEntry, h]
    · rw [setEntry, if_neg h, List.map_cons, ih]
      by_cases h' : root ∈ es.map Prod.fst
      · simp [h']
      · rw [if_neg h', if_neg]
        · rfl
        · rw [List.map_cons, List.mem_cons]
          rintro (h'' | h'')
          · exact h h''.symm
          · exact h' h''

/-- `map[root] = usn`. -/
def UsnMap.set (m : UsnMap) (root : WString) (usn : UInt64) : UsnMap where
  entries := setEntry root usn m.entries
  nodup := by
    rw [keys_setEntry]
    split
    · exact m.nodup
    · rename_i h
      exact List.nodup_append.2 ⟨m.nodup, List.nodup_singleton _, fun a ha b hb => by
        rw [List.mem_singleton] at hb
        rintro rfl
        exact h (hb ▸ ha)⟩

/-! ## The checksum -/

/-- `table[i]`: eight shift-and-xor steps of the reflected polynomial. -/
def crcTable (i : UInt8) : UInt32 :=
  (List.range 8).foldl (fun c _ => if c &&& 1 ≠ 0 then (0xEDB88320 : UInt32) ^^^ (c >>> 1) else c >>> 1) i.toUInt32

/-- `crc = table[(crc ^ byte) & 0xFF] ^ (crc >> 8)`. -/
def crcStep (crc : UInt32) (byte : UInt8) : UInt32 := crcTable (crc ^^^ byte.toUInt32).toUInt8 ^^^ (crc >>> 8)

/-- `IndexSerializer::Crc32`. -/
def crc32 (data : List UInt8) : UInt32 := data.foldl crcStep 0xFFFFFFFF ^^^ 0xFFFFFFFF

/-! ## Serialize -/

/-- `kMagic`, "WIDX". -/
def kMagic : UInt32 := 0x58444957

/-- `kVersion`. -/
def kVersion : UInt16 := 2

/-- `sizeof(IndexFileHeader)`. -/
def headerSize : Nat := 26

/-- `sizeof(DiskEntry)`. -/
def diskEntrySize : Nat := 24

/-- The bytes of one `DiskEntry`. -/
def diskEntryBytes (m : EntryMeta) : List UInt8 :=
  u64 m.size ++ u64 m.lastModified ++ u32 m.attributes ++ u16 m.pathLen ++ u16 m.nameStart

/-- The bytes of one entry of the USN map. -/
def usnEntryBytes (e : WString × UInt64) : List UInt8 :=
  u16 (UInt16.ofNat e.1.length) ++ LittleEndian.wide e.1 ++ u64 e.2

/-- The entries `Serialize` writes: those not tombstoned. -/
def IndexPool.liveMeta (p : IndexPool) : List EntryMeta := p.entryMeta.filter (fun m => !m.deleted)

/-- The payload: the whole path pool, the record of each live entry, the USN map. -/
def payloadBytes (p : IndexPool) (usnMap : UsnMap) : List UInt8 :=
  u64 (UInt64.ofNat p.pathPool.length) ++ LittleEndian.wide p.pathPool ++ p.liveMeta.flatMap diskEntryBytes ++
    u32 (UInt32.ofNat usnMap.entries.length) ++ usnMap.entries.flatMap usnEntryBytes

/-- The header. -/
def headerBytes (timestamp entryCount : UInt64) (crc : UInt32) : List UInt8 :=
  u32 kMagic ++ u16 kVersion ++ u64 timestamp ++ u64 entryCount ++ u32 crc

/-- `IndexSerializer::Serialize`: the contents of the file it writes at time `now`. -/
def serialize (now : UInt64) (p : IndexPool) (usnMap : UsnMap) : List UInt8 :=
  let payload := payloadBytes p usnMap
  headerBytes now (UInt64.ofNat p.liveMeta.length) (crc32 payload) ++ payload

/-! ## Deserialize -/

/-- How `Deserialize` can end without having loaded: it returns false, a vector throws because it is asked for more than
`max_size` elements or because the allocator refuses, or it reads outside the payload or the path pool. -/
inductive LoadStop where
  | returnsFalse | lengthError | badAlloc | outOfBounds
  deriving DecidableEq

/-- What can go wrong in `Deserialize` without stopping it: a size computation that wraps, and a `reserve` made before the
count was compared with the file. `borne` tells whether the file holds that many records. -/
inductive LoadHazard where
  | wrapped
  | reserved (entryCount : UInt64) (borne : Bool)
  deriving DecidableEq

/-- A run of `Deserialize` or a part of it. -/
abbrev LoadRun := Run LoadHazard LoadStop

/-- What `Deserialize` hands back when it returns true. -/
structure Loaded where
  pool : IndexPool
  usnMap : UsnMap
  timestamp : UInt64

/-- `std::vector<T>::max_size()` for elements of `size` bytes. -/
def vectorMaxSize (size : Nat) : Nat := min (2 ^ 63 - 1) ((2 ^ 64 - 1) / size)

/-- Whether the allocator gives so many bytes. -/
abbrev Allocator := Nat → Bool

/-- An allocator that gives every vector what its `max_size` allows. -/
def Allocator.ample : Allocator := fun _ => true

/-- `reserve(n)` of an empty vector with elements of `size` bytes. -/
def reserve (allocates : Allocator) (size n : Nat) : LoadRun Unit :=
  if vectorMaxSize size < n then .stop .lengthError
  else if n = 0 ∨ allocates (size * n) then .go ()
  else .stop .badAlloc

/-- `p + n > end`, where `p` is at offset `pos` of a buffer of `len` bytes at address `base`: the addition is 64 bits wide. -/
def pastEnd (base len pos n : Nat) : Prop := base + len < (base + pos + n) % 2 ^ 64

instance (base len pos n : Nat) : Decidable (pastEnd base len pos n) := inferInstanceAs (Decidable (_ < _))

/-- `memcpy` of `n` bytes from offset `pos` of the payload. -/
def readBytes (payload : List UInt8) (pos n : Nat) : LoadRun (List UInt8) :=
  if pos + n ≤ payload.length then .go (slice payload pos n) else .stop .outOfBounds

/-- Read `n` characters of the path pool from `pos`; reading none touches no memory. -/
def readPath (pathPool : List WChar) (pos n : Nat) : LoadRun WString :=
  if n = 0 then .go []
  else if pos + n ≤ pathPool.length then .go (slice pathPool pos n)
  else .stop .outOfBounds

/-- The path pool: its size, checked against the rest of the payload, and its characters. Gives the offset behind it. -/
def readPathPool (base : Nat) (payload : List UInt8) : LoadRun (List WChar × Nat) := do
  if pastEnd base payload.length 0 8 then
    Run.stop .returnsFalse
  else
    let pathPoolSize := toU64 (← readBytes payload 0 8)
    let pathPoolBytes := pathPoolSize * 2
    Run.hazardIf (2 ^ 64 ≤ pathPoolSize.toNat * 2) .wrapped
    if pastEnd base payload.length 8 pathPoolBytes.toNat then
      Run.stop .returnsFalse
    else if vectorMaxSize 2 < pathPoolSize.toNat then
      Run.stop .lengthError
    else
      let bytes ← readBytes payload 8 pathPoolBytes.toNat
      return (toWide bytes, 8 + pathPoolBytes.toNat)

/-- The allocations made for `entryCount` entries, and the check of the count against the rest of the payload. -/
def checkEntryCount (allocates : Allocator) (base : Nat) (payload : List UInt8) (pos : Nat) (entryCount : UInt64) :
    LoadRun Unit := do
  Run.hazardIf True (.reserved entryCount (decide (pos + diskEntrySize * entryCount.toNat ≤ payload.length)))
  reserve allocates 40 entryCount.toNat
  reserve allocates 2 (entryCount * 15).toNat
  Run.hazardIf (2 ^ 64 ≤ 24 * entryCount.toNat) .wrapped
  if pastEnd base payload.length pos (24 * entryCount).toNat then
    Run.stop .returnsFalse
  else
    return ()

/-- The metadata record the first pass builds from the 24 bytes of a `DiskEntry`; `nameLowerOffset` is the size of the
lowercase pool so far, and `pathOffset` a sentinel. -/
def diskEntryMeta (bytes : List UInt8) (nameLowerSize : Nat) : EntryMeta :=
  let pathLen := toU16 (slice bytes 20 2)
  let nameStart := toU16 (slice bytes 22 2)
  { size := toU64 (slice bytes 0 8)
    lastModified := toU64 (slice bytes 8 8)
    pathOffset := 0
    nameLowerOffset := UInt32.ofNat nameLowerSize
    attributes := toU32 (slice bytes 16 4)
    pathLen := pathLen
    nameLowerLen := pathLen - nameStart
    nameStart := nameStart
    deleted := false }

/-- The first pass: `count` disk records from offset `pos`. -/
def readEntries (payload : List UInt8) : Nat → Nat → Nat → LoadRun (List EntryMeta)
  | 0, _, _ => .go []
  | count + 1, pos, nameLowerSize => do
    let m := diskEntryMeta (← readBytes payload pos diskEntrySize) nameLowerSize
    Run.hazardIf (m.pathLen.toNat < m.nameStart.toNat) .wrapped
    let rest ← readEntries payload count (pos + diskEntrySize) (nameLowerSize + m.nameLowerLen.toNat)
    return m :: rest

/-- The second pass: path offsets as a running 32-bit sum, and the lowercase pool from the path tails. -/
def assignOffsets (Γ : Locale) (pathPool : List WChar) :
    List EntryMeta → UInt32 → Nat → LoadRun (List EntryMeta × List WChar)
  | [], _, _ => .go ([], [])
  | m :: ms, runningPathOffset, runningNlOffset => do
    let name ← readPath pathPool (runningPathOffset.toNat + m.nameStart.toNat) m.nameLowerLen.toNat
    let rest ← assignOffsets Γ pathPool ms (runningPathOffset + m.pathLen.toUInt32) (runningNlOffset + m.nameLowerLen.toNat)
    return ({ m with pathOffset := runningPathOffset, nameLowerOffset := UInt32.ofNat runningNlOffset } :: rest.1,
      Γ.lower name ++ rest.2)

/-- The entries of the USN map; a truncated one ends the loop. -/
def readUsnEntries (base : Nat) (payload : List UInt8) : Nat → Nat → UsnMap → LoadRun UsnMap
  | 0, _, usnMap => .go usnMap
  | count + 1, pos, usnMap =>
    if pastEnd base payload.length pos 2 then .go usnMap
    else do
      let rootLen := (toU16 (← readBytes payload pos 2)).toNat
      if pastEnd base payload.length (pos + 2) (rootLen * 2 + 8) then
        return usnMap
      else
        let root := toWide (← readBytes payload (pos + 2) (rootLen * 2))
        let usn := toU64 (← readBytes payload (pos + 2 + rootLen * 2) 8)
        readUsnEntries base payload count (pos + 2 + rootLen * 2 + 8) (usnMap.set root usn)

/-- The USN section, absent when the payload ends before its count. -/
def readUsnMap (base : Nat) (payload : List UInt8) (pos : Nat) (usnMap : UsnMap) : LoadRun UsnMap :=
  if pastEnd base payload.length pos 4 then .go usnMap
  else do
    let usnCount := toU32 (← readBytes payload pos 4)
    readUsnEntries base payload usnCount.toNat (pos + 4) usnMap

/-- What `Deserialize` does with a payload whose checksum matches. -/
def readPayload (allocates : Allocator) (Γ : Locale) (base : Nat) (payload : List UInt8) (entryCount timestamp : UInt64)
    (usnMap : UsnMap) : LoadRun Loaded := do
  let (pathPool, pos) ← readPathPool base payload
  checkEntryCount allocates base payload pos entryCount
  let ms ← readEntries payload entryCount.toNat pos 0
  let (ms, nameLowerPool) ← assignOffsets Γ pathPool ms 0 0
  let usnMap ← readUsnMap base payload (pos + diskEntrySize * entryCount.toNat) usnMap
  return ⟨⟨ms, nameLowerPool, pathPool⟩, usnMap, timestamp⟩

/-- `IndexSerializer::Deserialize` on an existing file. `base` is the address of the payload buffer. The allocator is asked for the
two vectors of an entry count that the header gives; what else is allocated is no more than the file holds. -/
def deserializeWith (allocates : Allocator) (Γ : Locale) (base : Nat) (file : List UInt8) (usnMap : UsnMap) : LoadRun Loaded :=
  if file.length < headerSize then .stop .returnsFalse
  else if toU32 (slice file 0 4) ≠ kMagic then .stop .returnsFalse
  else if toU16 (slice file 4 2) ≠ kVersion then .stop .returnsFalse
  else
    let payload := file.drop headerSize
    if crc32 payload ≠ toU32 (slice file 22 4) then .stop .returnsFalse
    else readPayload allocates Γ base payload (toU64 (slice file 14 8)) (toU64 (slice file 6 8)) usnMap

/-- `Deserialize` where memory is ample. -/
def deserialize (Γ : Locale) (base : Nat) (file : List UInt8) (usnMap : UsnMap) : LoadRun Loaded :=
  deserializeWith .ample Γ base file usnMap

end WinIndex
