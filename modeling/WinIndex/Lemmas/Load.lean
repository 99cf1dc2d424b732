import WinIndex.IndexSerializer

/-!
# The reader of the index file, part by part

What each part of `deserialize` does with a payload it was not necessarily written for: when it goes on and with what, and
when it goes on cleanly. The two passes over the records are first restated as plain functions of the bytes.
-/

namespace WinIndex

open Segments LittleEndian

/-- Which hazards leave the index usable: a wrapped size never does, a `reserve` does when the file bears the count out. -/
def Harmless : LoadHazard → Prop
  | .wrapped => False
  | .reserved _ borne => borne = true

/-- The only fine way not to load: returning false. -/
def ReturnsFalse (stop : LoadStop) : Prop := stop = .returnsFalse

/-! ## Reading bytes -/

theorem readBytes_of_le {payload : List UInt8} {pos n : Nat} (h : pos + n ≤ payload.length) :
    readBytes payload pos n = .go (slice payload pos n) := if_pos h

/-- Inside the buffer the address comparison does not wrap. -/
theorem not_pastEnd {base len pos n : Nat} (hb : base + len < 2 ^ 64) (h : pos + n ≤ len) : ¬pastEnd base len pos n := by
  unfold pastEnd
  rw [Nat.mod_eq_of_lt (by omega)]
  omega

/-- Where the addition does not wrap, the address comparison is the comparison meant. -/
theorem pastEnd_iff {base len pos n : Nat} (hn : base + pos + n < 2 ^ 64) : pastEnd base len pos n ↔ len < pos + n := by
  unfold pastEnd
  rw [Nat.mod_eq_of_lt hn]
  omega

/-! ## The first pass -/

/-- The records of `count` disk entries, as the first pass leaves them. -/
def diskEntries (payload : List UInt8) : Nat → Nat → Nat → List EntryMeta
  | 0, _, _ => []
  | count + 1, pos, nameLowerSize =>
    let m := diskEntryMeta (slice payload pos diskEntrySize) nameLowerSize
    m :: diskEntries payload count (pos + diskEntrySize) (nameLowerSize + m.nameLowerLen.toNat)

/-- A disk entry gives its name the length its path has behind the name start. -/
theorem nameLowerLen_of_mem_diskEntries {payload : List UInt8} {count pos nameLowerSize : Nat} {m : EntryMeta}
    (h : m ∈ diskEntries payload count pos nameLowerSize) : m.nameLowerLen = m.pathLen - m.nameStart := by
  induction count generalizing pos nameLowerSize with
  | zero => cases h
  | succ count ih =>
    rw [diskEntries, List.mem_cons] at h
    rcases h with rfl | h
    · rfl
    · exact ih h

/-- The first pass reads the records, when the payload holds them. -/
theorem result_readEntries {payload : List UInt8} {count pos : Nat} (nameLowerSize : Nat)
    (h : pos + diskEntrySize * count ≤ payload.length) :
    (readEntries payload count pos nameLowerSize).result = .ok (diskEntries payload count pos nameLowerSize) := by
  induction count generalizing pos nameLowerSize with
  | zero => rfl
  | succ count ih =>
    have hd := Nat.mul_add_one diskEntrySize count
    have hpos : pos + diskEntrySize + diskEntrySize * count ≤ payload.length := by omega
    have hnext := ih (nameLowerSize + (diskEntryMeta (slice payload pos diskEntrySize) nameLowerSize).nameLowerLen.toNat) hpos
    rw [readEntries, readBytes_of_le (by omega), Run.go_bind, Run.result_bind_ok (Run.result_hazardIf _ _),
      Run.result_bind_ok hnext]
    rfl

/-- It meets no hazard when no name start lies behind its path. -/
theorem readEntries_of_names {payload : List UInt8} {count pos nameLowerSize : Nat}
    (h : pos + diskEntrySize * count ≤ payload.length)
    (hn : ∀ m ∈ diskEntries payload count pos nameLowerSize, m.nameStart.toNat ≤ m.pathLen.toNat) :
    readEntries payload count pos nameLowerSize = .go (diskEntries payload count pos nameLowerSize) := by
  induction count generalizing pos nameLowerSize with
  | zero => rfl
  | succ count ih =>
    have hd := Nat.mul_add_one diskEntrySize count
    rw [diskEntries, List.forall_mem_cons] at hn
    rw [readEntries, readBytes_of_le (by omega), Run.go_bind]
    simp only
    rw [Run.hazardIf_of_not (Nat.not_lt.2 hn.1), Run.go_bind, ih (by omega) hn.2, Run.go_bind]
    rfl

/-- It does so cleanly when no name start lies behind its path. -/
theorem clean_readEntries {payload : List UInt8} {count pos : Nat} (nameLowerSize : Nat)
    (h : pos + diskEntrySize * count ≤ payload.length) :
    (readEntries payload count pos nameLowerSize).Clean Harmless ReturnsFalse ↔
      ∀ m ∈ diskEntries payload count pos nameLowerSize, m.nameStart.toNat ≤ m.pathLen.toNat := by
  induction count generalizing pos nameLowerSize with
  | zero => simp [readEntries, diskEntries]
  | succ count ih =>
    have hd := Nat.mul_add_one diskEntrySize count
    have hpos : pos + diskEntrySize + diskEntrySize * count ≤ payload.length := by omega
    have hnext := ih (nameLowerSize + (diskEntryMeta (slice payload pos diskEntrySize) nameLowerSize).nameLowerLen.toNat) hpos
    rw [readEntries, readBytes_of_le (by omega), Run.go_bind, Run.clean_bind, diskEntries, List.forall_mem_cons]
    constructor
    · rintro ⟨hw, hrest⟩
      rw [Run.clean_hazardIf] at hw
      refine ⟨Nat.le_of_not_lt hw, hnext.1 ?_⟩
      exact (Run.clean_bind.1 (hrest () rfl)).1
    · rintro ⟨hw, hrest⟩
      rw [Run.clean_hazardIf]
      refine ⟨fun hlt => absurd hlt (Nat.not_lt.2 hw), fun _ _ => ?_⟩
      rw [Run.clean_bind]
      exact ⟨hnext.2 hrest, fun _ _ => Run.clean_go _⟩

/-! ## The second pass -/

/-- The records of the second pass: each at the running offsets. -/
def placeMetas : List EntryMeta → UInt32 → Nat → List EntryMeta
  | [], _, _ => []
  | m :: ms, runningPathOffset, runningNlOffset =>
    { m with pathOffset := runningPathOffset, nameLowerOffset := UInt32.ofNat runningNlOffset } ::
      placeMetas ms (runningPathOffset + m.pathLen.toUInt32) (runningNlOffset + m.nameLowerLen.toNat)

/-- The lowercase pool of the second pass. -/
def placeNames (Γ : Locale) (pathPool : List WChar) : List EntryMeta → UInt32 → List WChar
  | [], _ => []
  | m :: ms, runningPathOffset =>
    Γ.lower (slice pathPool (runningPathOffset.toNat + m.nameStart.toNat) m.nameLowerLen.toNat) ++
      placeNames Γ pathPool ms (runningPathOffset + m.pathLen.toUInt32)

/-- Every record's path lies inside a path pool of the given size, at the running offset. -/
def OffsetsFit (size : Nat) : List EntryMeta → UInt32 → Prop
  | [], _ => True
  | m :: ms, runningPathOffset =>
    runningPathOffset.toNat + m.pathLen.toNat ≤ size ∧ OffsetsFit size ms (runningPathOffset + m.pathLen.toUInt32)

instance decidableOffsetsFit (size : Nat) : (ms : List EntryMeta) → (o : UInt32) → Decidable (OffsetsFit size ms o)
  | [], _ => .isTrue trivial
  | m :: ms, o =>
    have := decidableOffsetsFit size ms (o + m.pathLen.toUInt32)
    inferInstanceAs (Decidable (_ ≤ size ∧ OffsetsFit size ms (o + m.pathLen.toUInt32)))

variable {Γ : Locale} {pathPool : List WChar}

/-- A path read is the slice asked for. -/
theorem result_readPath_eq {pos n : Nat} {text : WString} (h : (readPath pathPool pos n).result = .ok text) :
    text = slice pathPool pos n := by
  unfold readPath at h
  split at h
  · rename_i hn
    cases h
    rw [hn, slice_zero_len]
  · split at h
    · cases h
      rfl
    · cases h

/-- When the second pass goes on, it has placed the records. -/
theorem result_assignOffsets_eq {ms : List EntryMeta} {o : UInt32} {nl : Nat} {r : List EntryMeta × List WChar}
    (h : (assignOffsets Γ pathPool ms o nl).result = .ok r) : r = (placeMetas ms o nl, placeNames Γ pathPool ms o) := by
  induction ms generalizing o nl r with
  | nil => cases h; rfl
  | cons m ms ih =>
    rw [assignOffsets] at h
    obtain ⟨name, hname, h⟩ := Run.result_bind_eq_ok.1 h
    obtain ⟨rest, hrest, h⟩ := Run.result_bind_eq_ok.1 h
    have hr := ih hrest
    cases h
    rw [result_readPath_eq hname, hr]
    rfl

/-- It goes on when every path lies inside the pool and every name inside its path. -/
theorem assignOffsets_of_fit {ms : List EntryMeta} {o : UInt32} (nl : Nat) (hf : OffsetsFit pathPool.length ms o)
    (hn : ∀ m ∈ ms, m.nameStart.toNat + m.nameLowerLen.toNat ≤ m.pathLen.toNat) :
    assignOffsets Γ pathPool ms o nl = .go (placeMetas ms o nl, placeNames Γ pathPool ms o) := by
  induction ms generalizing o nl with
  | nil => rfl
  | cons m ms ih =>
    have hm := hn m (by simp)
    have hr : readPath pathPool (o.toNat + m.nameStart.toNat) m.nameLowerLen.toNat =
        .go (slice pathPool (o.toNat + m.nameStart.toNat) m.nameLowerLen.toNat) := by
      unfold readPath
      by_cases h0 : m.nameLowerLen.toNat = 0
      · rw [if_pos h0, h0, slice_zero_len]
      · rw [if_neg h0, if_pos (by have := hf.1; omega)]
    rw [assignOffsets, hr, Run.go_bind, ih _ hf.2 (fun x hx => hn x (by simp [hx])), Run.go_bind]
    rfl

/-- If it does not go on, it has read outside the path pool. -/
theorem stop_assignOffsets {ms : List EntryMeta} {o : UInt32} {nl : Nat} {stop : LoadStop}
    (h : (assignOffsets Γ pathPool ms o nl).result = .error stop) : stop = .outOfBounds := by
  induction ms generalizing o nl with
  | nil => cases h
  | cons m ms ih =>
    rw [assignOffsets] at h
    cases hname : (readPath pathPool (o.toNat + m.nameStart.toNat) m.nameLowerLen.toNat).result with
    | error e =>
      rw [Run.result_bind_error hname] at h
      cases h
      unfold readPath at hname
      split at hname
      · cases hname
      · split at hname
        · cases hname
        · cases hname
          rfl
    | ok name =>
      rw [Run.result_bind_ok hname] at h
      cases hrest : (assignOffsets Γ pathPool ms (o + m.pathLen.toUInt32) (nl + m.nameLowerLen.toNat)).result with
      | error e =>
        rw [Run.result_bind_error hrest] at h
        cases h
        exact ih hrest
      | ok rest =>
        rw [Run.result_bind_ok hrest] at h
        cases h

/-- The lowercase pool has the room the records ask for. -/
theorem length_placeNames {ms : List EntryMeta} {o : UInt32} (hf : OffsetsFit pathPool.length ms o)
    (hn : ∀ m ∈ ms, m.nameStart.toNat + m.nameLowerLen.toNat ≤ m.pathLen.toNat) :
    (placeNames Γ pathPool ms o).length = (ms.map (fun m => m.nameLowerLen.toNat)).sum := by
  induction ms generalizing o with
  | nil => rfl
  | cons m ms ih =>
    have hm := hn m (by simp)
    have hl := hf.1
    rw [placeNames, List.length_append, Locale.length_lower, length_slice (by omega), List.map_cons, List.sum_cons,
      ih hf.2 (fun x hx => hn x (by simp [hx]))]

/-- The placed records lie inside the path pool exactly when their paths fit at the running offsets. -/
theorem placeMetas_path_iff (size : Nat) (ms : List EntryMeta) (o : UInt32) (nl : Nat) :
    (∀ m ∈ placeMetas ms o nl, m.pathOffset.toNat + m.pathLen.toNat ≤ size) ↔ OffsetsFit size ms o := by
  induction ms generalizing o nl with
  | nil => simp [placeMetas, OffsetsFit]
  | cons m ms ih => rw [placeMetas, List.forall_mem_cons, ih]; rfl

theorem placeMetas_nameStart_iff (ms : List EntryMeta) (o : UInt32) (nl : Nat) :
    (∀ m ∈ placeMetas ms o nl, m.nameStart.toNat ≤ m.pathLen.toNat) ↔ ∀ m ∈ ms, m.nameStart.toNat ≤ m.pathLen.toNat := by
  induction ms generalizing o nl with
  | nil => simp [placeMetas]
  | cons m ms ih => rw [placeMetas, List.forall_mem_cons, List.forall_mem_cons, ih]

/-- The lowercased names lie inside a pool that has room for all of them, even where their offset wraps. -/
theorem placeMetas_nameLower (ms : List EntryMeta) (o : UInt32) (nl : Nat) :
    ∀ m ∈ placeMetas ms o nl,
      m.nameLowerOffset.toNat + m.nameLowerLen.toNat ≤ nl + (ms.map (fun m => m.nameLowerLen.toNat)).sum := by
  induction ms generalizing o nl with
  | nil => simp [placeMetas]
  | cons m ms ih =>
    intro x hx
    rw [placeMetas, List.mem_cons] at hx
    rw [List.map_cons, List.sum_cons]
    rcases hx with rfl | hx
    · have hle : (UInt32.ofNat nl).toNat ≤ nl := by
        rw [UInt32.toNat_ofNat']
        exact Nat.mod_le _ _
      simp only
      omega
    · have := ih _ _ x hx
      omega

/-- With its name start inside the path, a disk entry's name ends where its path ends. -/
theorem nameStart_add_nameLowerLen {m : EntryMeta} (hl : m.nameLowerLen = m.pathLen - m.nameStart)
    (hs : m.nameStart.toNat ≤ m.pathLen.toNat) : m.nameStart.toNat + m.nameLowerLen.toNat = m.pathLen.toNat := by
  rw [hl, UInt16.toNat_sub_of_le _ _ hs]
  omega

/-! ## The USN section -/

/-- Below the top of the address space the USN section is read without a hazard, whatever it holds. -/
theorem readUsnEntries_go {base : Nat} {payload : List UInt8} (hb : base + payload.length + 2 ^ 18 ≤ 2 ^ 64) (count : Nat)
    {pos : Nat} (usnMap : UsnMap) (hpos : pos ≤ payload.length) :
    ∃ usnMap', readUsnEntries base payload count pos usnMap = .go usnMap' := by
  induction count generalizing pos usnMap with
  | zero => exact ⟨usnMap, rfl⟩
  | succ count ih =>
    rw [readUsnEntries]
    split
    · exact ⟨usnMap, rfl⟩
    · rename_i h
      rw [pastEnd_iff (by omega)] at h
      rw [readBytes_of_le (by omega), Run.go_bind]
      have hr : (toU16 (slice payload pos 2)).toNat < 2 ^ 16 := UInt16.toNat_lt _
      simp only
      split
      · exact ⟨usnMap, rfl⟩
      · rename_i h'
        rw [pastEnd_iff (by omega)] at h'
        rw [readBytes_of_le (by omega), Run.go_bind, readBytes_of_le (by omega), Run.go_bind]
        exact ih _ (by omega)

theorem readUsnMap_go {base : Nat} {payload : List UInt8} (hb : base + payload.length + 2 ^ 18 ≤ 2 ^ 64) {pos : Nat}
    (usnMap : UsnMap) (hpos : pos ≤ payload.length) : ∃ usnMap', readUsnMap base payload pos usnMap = .go usnMap' := by
  rw [readUsnMap]
  split
  · exact ⟨usnMap, rfl⟩
  · rename_i h
    rw [pastEnd_iff (by omega)] at h
    rw [readBytes_of_le (by omega), Run.go_bind]
    exact readUsnEntries_go hb _ _ (by omega)

/-! ## The path pool -/

/-- The number of characters the payload says its path pool has. -/
def pathPoolSizeOf (payload : List UInt8) : Nat := (toU64 (slice payload 0 8)).toNat

/-- The payload ends before the path pool does, and the address comparison tells. -/
def PathPoolCut (base : Nat) (payload : List UInt8) : Prop :=
  payload.length < 8 ∨
    payload.length < 8 + 2 * pathPoolSizeOf payload ∧ base + 8 + 2 * pathPoolSizeOf payload < 2 ^ 64

instance (base : Nat) (payload : List UInt8) : Decidable (PathPoolCut base payload) := inferInstanceAs (Decidable (_ ∨ _))

section

variable {base : Nat} {payload : List UInt8}

/-- Doubling the size of the path pool in 64 bits. -/
theorem toNat_mul_two (size : UInt64) : (size * 2).toNat = size.toNat * 2 % 2 ^ 64 := by
  rw [UInt64.toNat_mul]
  rfl

/-- A path pool that the payload holds is read. -/
theorem readPathPool_of_fit (hb : base + payload.length < 2 ^ 64) (h : 8 + 2 * pathPoolSizeOf payload ≤ payload.length) :
    readPathPool base payload =
      .go (toWide (slice payload 8 (2 * pathPoolSizeOf payload)), 8 + 2 * pathPoolSizeOf payload) := by
  unfold pathPoolSizeOf at *
  have hbytes : (toU64 (slice payload 0 8) * 2).toNat = 2 * (toU64 (slice payload 0 8)).toNat := by
    rw [toNat_mul_two, Nat.mod_eq_of_lt (by omega)]
    omega
  have hmax : vectorMaxSize 2 = 2 ^ 63 - 1 := by decide
  rw [readPathPool, if_neg (not_pastEnd hb (by omega)), readBytes_of_le (by omega), Run.go_bind]
  simp only
  rw [Run.hazardIf_of_not (by omega), Run.go_bind, hbytes, if_neg (not_pastEnd hb (by omega)), hmax, if_neg (by omega),
    readBytes_of_le (by omega), Run.go_bind]
  rfl

/-- A path pool that is cut is rejected. -/
theorem readPathPool_of_cut (hb : base + 8 < 2 ^ 64) (h : PathPoolCut base payload) :
    readPathPool base payload = .stop .returnsFalse := by
  rw [readPathPool]
  by_cases h8 : payload.length < 8
  · rw [if_pos ((pastEnd_iff (by omega)).2 (by omega))]
  · rcases h with h | ⟨h, hw⟩
    · exact absurd h h8
    · unfold pathPoolSizeOf at *
      have hbytes : (toU64 (slice payload 0 8) * 2).toNat = 2 * (toU64 (slice payload 0 8)).toNat := by
        rw [toNat_mul_two, Nat.mod_eq_of_lt (by omega)]
        omega
      rw [if_neg (by rw [pastEnd_iff (by omega)]; omega), readBytes_of_le (by omega), Run.go_bind]
      simp only
      rw [Run.hazardIf_of_not (by omega), Run.go_bind, hbytes, if_pos ((pastEnd_iff (by omega)).2 (by omega))]

/-- Any other path pool is not read cleanly: its size in bytes wraps, or the address behind it does. -/
theorem readPathPool_unclean {H : LoadHazard → Prop} (hH : ¬H .wrapped) (hb : base + payload.length < 2 ^ 64)
    (h : payload.length < 8 + 2 * pathPoolSizeOf payload) (hc : ¬PathPoolCut base payload) :
    ¬(readPathPool base payload).Clean H ReturnsFalse := by
  unfold PathPoolCut pathPoolSizeOf at *
  have h8 : 8 ≤ payload.length := by omega
  have hs := (toU64 (slice payload 0 8)).toNat_lt
  intro hclean
  rw [readPathPool, if_neg (not_pastEnd hb (by omega)), readBytes_of_le (by omega), Run.go_bind] at hclean
  simp only at hclean
  obtain ⟨hw, hclean⟩ := Run.clean_bind.1 hclean
  rw [Run.clean_hazardIf] at hw
  have hlt : (toU64 (slice payload 0 8)).toNat * 2 < 2 ^ 64 := Nat.lt_of_not_le (fun hle => hH (hw hle))
  have hbytes : (toU64 (slice payload 0 8) * 2).toNat = 2 * (toU64 (slice payload 0 8)).toNat := by
    rw [toNat_mul_two, Nat.mod_eq_of_lt hlt]
    omega
  have hmax : vectorMaxSize 2 = 2 ^ 63 - 1 := by decide
  have hclean := hclean () rfl
  have hpast : ¬pastEnd base payload.length 8 (2 * (toU64 (slice payload 0 8)).toNat) := by
    unfold pastEnd
    omega
  rw [hbytes, if_neg hpast, hmax, if_neg (by omega)] at hclean
  have hread : readBytes payload 8 (2 * (toU64 (slice payload 0 8)).toNat) = .stop .outOfBounds := if_neg (by omega)
  rw [hread, Run.stop_bind, Run.clean_stop] at hclean
  cases hclean

/-! ## The entry count -/

/-- The products with a count that is small enough do not wrap. -/
theorem toNat_entryCount_mul (entryCount : UInt64) (h : 24 * entryCount.toNat < 2 ^ 64) :
    (entryCount * 15).toNat = entryCount.toNat * 15 ∧ (24 * entryCount).toNat = 24 * entryCount.toNat := by
  rw [UInt64.toNat_mul, UInt64.toNat_mul]
  exact ⟨Nat.mod_eq_of_lt (show entryCount.toNat * 15 < 2 ^ 64 by omega), Nat.mod_eq_of_lt h⟩

/-- An allocator that gives all refuses none. -/
theorem reserve_ample (size n : Nat) :
    reserve .ample size n = if vectorMaxSize size < n then .stop .lengthError else .go () := by
  have hgives : n = 0 ∨ Allocator.ample (size * n) = true := .inr rfl
  rw [reserve, if_pos hgives]

/-- A count the payload bears out is reserved for and accepted. -/
theorem checkEntryCount_of_borne (hb : base + payload.length < 2 ^ 64) (hl : payload.length < 2 ^ 63) {pos : Nat}
    {entryCount : UInt64} (h : pos + diskEntrySize * entryCount.toNat ≤ payload.length) :
    checkEntryCount .ample base payload pos entryCount = ⟨[.reserved entryCount true], .ok ()⟩ := by
  have hd : diskEntrySize = 24 := rfl
  rw [hd] at h
  have hmax : vectorMaxSize 2 = 2 ^ 63 - 1 := by decide
  have hmax' : vectorMaxSize 40 = 461168601842738790 := by decide
  obtain ⟨h15, h24⟩ := toNat_entryCount_mul entryCount (by omega)
  rw [checkEntryCount, Run.hazardIf_bind trivial, reserve_ample, reserve_ample, hmax, hmax', h15, h24, hd, decide_eq_true h,
    if_neg (by omega), Run.go_bind, if_neg (by omega), Run.go_bind, Run.hazardIf_of_not (by omega), Run.go_bind,
    if_neg (not_pastEnd hb h)]
  rfl

/-- A count the payload does not bear out is reserved for before it is compared. -/
theorem checkEntryCount_unclean {allocates : Allocator} {H : LoadHazard → Prop} {pos : Nat} {entryCount : UInt64}
    (hH : ¬H (.reserved entryCount (decide (pos + diskEntrySize * entryCount.toNat ≤ payload.length)))) :
    ¬(checkEntryCount allocates base payload pos entryCount).Clean H ReturnsFalse := by
  intro hclean
  rw [checkEntryCount] at hclean
  have hw := (Run.clean_bind.1 hclean).1
  rw [Run.clean_hazardIf] at hw
  exact hH (hw trivial)

end

/-! ## The header -/

/-- The header of a file is accepted: its length, magic, version and checksum. -/
structure Accepted (file : List UInt8) : Prop where
  size : headerSize ≤ file.length
  magic : toU32 (slice file 0 4) = kMagic
  version : toU16 (slice file 4 2) = kVersion
  crc : crc32 (file.drop headerSize) = toU32 (slice file 22 4)

instance (file : List UInt8) : Decidable (Accepted file) :=
  decidable_of_iff (headerSize ≤ file.length ∧ toU32 (slice file 0 4) = kMagic ∧ toU16 (slice file 4 2) = kVersion ∧
      crc32 (file.drop headerSize) = toU32 (slice file 22 4))
    ⟨fun h => ⟨h.1, h.2.1, h.2.2.1, h.2.2.2⟩, fun h => ⟨h.size, h.magic, h.version, h.crc⟩⟩

/-- The entry count the header gives. -/
def entryCountOf (file : List UInt8) : UInt64 := toU64 (slice file 14 8)

/-- A file whose header is not accepted is rejected. -/
theorem deserializeWith_of_not_accepted (allocates : Allocator) (base : Nat) {file : List UInt8} (usnMap : UsnMap)
    (h : ¬Accepted file) : deserializeWith allocates Γ base file usnMap = .stop .returnsFalse := by
  unfold deserializeWith
  split
  · rfl
  split
  · rfl
  split
  · rfl
  rename_i h1 h2 h3
  simp only
  split
  · rfl
  rename_i h4
  exact absurd ⟨Nat.le_of_not_lt h1, not_not.1 h2, not_not.1 h3, not_not.1 h4⟩ h

/-- A file whose header is accepted has its payload read. -/
theorem deserializeWith_of_accepted (allocates : Allocator) (base : Nat) {file : List UInt8} (usnMap : UsnMap)
    (h : Accepted file) :
    deserializeWith allocates Γ base file usnMap =
      readPayload allocates Γ base (file.drop headerSize) (entryCountOf file) (toU64 (slice file 6 8)) usnMap := by
  unfold deserializeWith
  rw [if_neg (Nat.not_lt.2 h.size), if_neg (not_not.2 h.magic), if_neg (not_not.2 h.version)]
  simp only
  rw [if_neg (not_not.2 h.crc)]
  rfl

theorem deserialize_of_not_accepted (base : Nat) {file : List UInt8} (usnMap : UsnMap) (h : ¬Accepted file) :
    deserialize Γ base file usnMap = .stop .returnsFalse := deserializeWith_of_not_accepted .ample base usnMap h

theorem deserialize_of_accepted (base : Nat) {file : List UInt8} (usnMap : UsnMap) (h : Accepted file) :
    deserialize Γ base file usnMap =
      readPayload .ample Γ base (file.drop headerSize) (entryCountOf file) (toU64 (slice file 6 8)) usnMap :=
  deserializeWith_of_accepted .ample base usnMap h

end WinIndex
