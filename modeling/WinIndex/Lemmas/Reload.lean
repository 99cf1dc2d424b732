import WinIndex.Lemmas.Layout
import WinIndex.Lemmas.Load

/-!
# Reading back what was written

The bytes `serialize` writes, read part by part: each live record comes back with its own fields and, for its path, the text
at the running sum of the lengths of the live paths before it.
-/

namespace WinIndex

open Segments Tombstone LittleEndian

/-- A slice in the middle, by the lengths around it. -/
theorem slice_mid {α : Type} (xs ys zs : List α) {off len : Nat} (ho : off = xs.length) (hl : len = ys.length) :
    slice (xs ++ (ys ++ zs)) off len = ys := by
  subst ho hl
  simp [slice]

/-- A buffer of the given length lies in memory at the given address: the sum is an address, and no object is larger than
half the address space. -/
structure InMemory (base len : Nat) : Prop where
  address : base + len < 2 ^ 64
  size : len < 2 ^ 63

instance (base len : Nat) : Decidable (InMemory base len) :=
  decidable_of_iff (base + len < 2 ^ 64 ∧ len < 2 ^ 63) ⟨fun h => ⟨h.1, h.2⟩, fun h => ⟨h.address, h.size⟩⟩

/-! ## The records -/

/-- A record as the first pass reads it back. -/
def reloadMeta (m : EntryMeta) (nameLowerSize : Nat) : EntryMeta :=
  { m with
    pathOffset := 0
    nameLowerOffset := UInt32.ofNat nameLowerSize
    nameLowerLen := m.pathLen - m.nameStart
    deleted := false }

/-- The records of the first pass. -/
def reloadEntries : List EntryMeta → Nat → List EntryMeta
  | [], _ => []
  | m :: ms, nameLowerSize =>
    reloadMeta m nameLowerSize :: reloadEntries ms (nameLowerSize + (reloadMeta m nameLowerSize).nameLowerLen.toNat)

theorem mem_reloadEntries {ms : List EntryMeta} {nameLowerSize : Nat} {x : EntryMeta} (h : x ∈ reloadEntries ms nameLowerSize) :
    ∃ m ∈ ms, ∃ n, x = reloadMeta m n := by
  induction ms generalizing nameLowerSize with
  | nil => cases h
  | cons m ms ih =>
    rw [reloadEntries, List.mem_cons] at h
    rcases h with rfl | h
    · exact ⟨m, by simp, _, rfl⟩
    · obtain ⟨m', hm', hx⟩ := ih h
      exact ⟨m', List.mem_cons_of_mem _ hm', hx⟩

theorem map_pathLen_reloadEntries (ms : List EntryMeta) (nameLowerSize : Nat) :
    (reloadEntries ms nameLowerSize).map (fun m => m.pathLen.toNat) = ms.map (fun m => m.pathLen.toNat) := by
  induction ms generalizing nameLowerSize with
  | nil => rfl
  | cons m ms ih => rw [reloadEntries, List.map_cons, List.map_cons, ih]; rfl

@[simp] theorem length_diskEntryBytes (m : EntryMeta) : (diskEntryBytes m).length = diskEntrySize := by
  simp [diskEntryBytes, diskEntrySize]

theorem length_flatMap_diskEntryBytes (ms : List EntryMeta) :
    (ms.flatMap diskEntryBytes).length = diskEntrySize * ms.length := by
  induction ms with
  | nil => rfl
  | cons m ms ih => rw [List.flatMap_cons, List.length_append, ih, length_diskEntryBytes, List.length_cons]; ring

/-- The 24 bytes of a record give its fields back. -/
theorem diskEntryMeta_diskEntryBytes (m : EntryMeta) (nameLowerSize : Nat) :
    diskEntryMeta (diskEntryBytes m) nameLowerSize = reloadMeta m nameLowerSize := by
  have h0 : slice (diskEntryBytes m) 0 8 = u64 m.size := by
    simp [diskEntryBytes, slice]
  have h8 : slice (diskEntryBytes m) 8 8 = u64 m.lastModified := by
    simp only [diskEntryBytes, List.append_assoc]
    exact slice_mid _ _ _ (by simp) (by simp)
  have h16 : slice (diskEntryBytes m) 16 4 = u32 m.attributes := by
    have := (slice_mid (u64 m.size ++ u64 m.lastModified) (u32 m.attributes) (u16 m.pathLen ++ u16 m.nameStart)
      (by simp) (by simp) : slice _ 16 4 = _)
    simpa [diskEntryBytes] using this
  have h20 : slice (diskEntryBytes m) 20 2 = u16 m.pathLen := by
    have := (slice_mid (u64 m.size ++ u64 m.lastModified ++ u32 m.attributes) (u16 m.pathLen) (u16 m.nameStart)
      (by simp) (by simp) : slice _ 20 2 = _)
    simpa [diskEntryBytes] using this
  have h22 : slice (diskEntryBytes m) 22 2 = u16 m.nameStart := by
    have := (slice_mid (u64 m.size ++ u64 m.lastModified ++ u32 m.attributes ++ u16 m.pathLen) (u16 m.nameStart) []
      (by simp) (by simp) : slice _ 22 2 = _)
    simpa [diskEntryBytes] using this
  simp [diskEntryMeta, reloadMeta, h0, h8, h16, h20, h22]

/-- The records written after a prefix are read back. -/
theorem diskEntries_flatMap (pre post : List UInt8) (ms : List EntryMeta) (nameLowerSize : Nat) :
    diskEntries (pre ++ ms.flatMap diskEntryBytes ++ post) ms.length pre.length nameLowerSize =
      reloadEntries ms nameLowerSize := by
  induction ms generalizing pre nameLowerSize with
  | nil => rfl
  | cons m ms ih =>
    have hs : slice (pre ++ (m :: ms).flatMap diskEntryBytes ++ post) pre.length diskEntrySize = diskEntryBytes m := by
      rw [List.flatMap_cons, List.append_assoc, List.append_assoc]
      exact slice_mid _ _ _ rfl (length_diskEntryBytes m).symm
    have hnext := ih (pre ++ diskEntryBytes m) (nameLowerSize + (reloadMeta m nameLowerSize).nameLowerLen.toNat)
    rw [List.length_append, length_diskEntryBytes] at hnext
    rw [List.length_cons, diskEntries, hs, diskEntryMeta_diskEntryBytes, reloadEntries, ← hnext]
    simp [List.flatMap_cons]

/-! ## Where the records are placed -/

/-- Every path lies inside the pool when the lengths add up to no more than the pool holds. -/
theorem offsetsFit_of_sum {size : Nat} (hs : size < 2 ^ 32) {ms : List EntryMeta} {o : UInt32}
    (h : o.toNat + (ms.map (fun m => m.pathLen.toNat)).sum ≤ size) : OffsetsFit size ms o := by
  induction ms generalizing o with
  | nil => trivial
  | cons m ms ih =>
    rw [List.map_cons, List.sum_cons] at h
    have ho : (o + m.pathLen.toUInt32).toNat = o.toNat + m.pathLen.toNat := by
      rw [UInt32.toNat_add, UInt16.toNat_toUInt32]
      exact Nat.mod_eq_of_lt (by omega)
    exact ⟨by omega, ih (by rw [ho]; omega)⟩

/-- What one entry of a pool reads as. -/
structure Reading where
  path : WString
  name : WString
  nameLower : WString
  size : UInt64
  lastModified : UInt64
  attributes : UInt32
  deriving DecidableEq

/-- The reading of an entry, through the accessors. -/
def IndexPool.reading (p : IndexPool) (m : EntryMeta) : Reading :=
  ⟨p.pathView m, p.nameView m, p.nameLowerView m, m.size, m.lastModified, m.attributes⟩

/-- The reading of an entry whose path is the given text. -/
def textReading (Γ : Locale) (m : EntryMeta) (text : WString) : Reading :=
  ⟨text, text.drop m.nameStart.toNat, Γ.lower (text.drop m.nameStart.toNat), m.size, m.lastModified, m.attributes⟩

theorem map_path_zipWith_textReading (Γ : Locale) (ms : List EntryMeta) (texts : List WString)
    (h : texts.length = ms.length) : (List.zipWith (textReading Γ) ms texts).map Reading.path = texts := by
  induction ms generalizing texts with
  | nil => rw [List.length_eq_zero_iff.1 h]; rfl
  | cons m ms ih =>
    cases texts with
    | nil => cases h
    | cons t ts =>
      rw [List.zipWith_cons_cons, List.map_cons, ih ts (by simpa using h)]
      rfl

variable {Γ : Locale}

/-- Each placed record reads as the next piece of the path pool, as long as its path. -/
theorem reading_placeMetas {p : IndexPool} (hp : p.pathPool.length < 2 ^ 32) {ms : List EntryMeta} {o : UInt32}
    (hn : ∀ m ∈ ms, m.nameStart.toNat ≤ m.pathLen.toNat) (hsum : o.toNat + (ms.map (fun m => m.pathLen.toNat)).sum ≤
      p.pathPool.length) (pre : List WChar) (nl nl' : Nat) (hpre : pre.length = nl) (hnl : nl ≤ o.toNat)
    (hpool : p.nameLowerPool = pre ++ placeNames Γ p.pathPool (reloadEntries ms nl') o) :
    (placeMetas (reloadEntries ms nl') o nl).map p.reading =
      List.zipWith (textReading Γ) ms (cut (ms.map (fun m => m.pathLen.toNat)) (p.pathPool.drop o.toNat)) := by
  induction ms generalizing o pre nl nl' with
  | nil => rfl
  | cons m ms ih =>
    rw [List.map_cons, List.sum_cons] at hsum
    have hm := hn m (by simp)
    have ho : (o + m.pathLen.toUInt32).toNat = o.toNat + m.pathLen.toNat := by
      rw [UInt32.toNat_add, UInt16.toNat_toUInt32]
      exact Nat.mod_eq_of_lt (by omega)
    have hlen : (reloadMeta m nl').nameLowerLen.toNat = m.pathLen.toNat - m.nameStart.toNat := by
      show (m.pathLen - m.nameStart).toNat = _
      rw [UInt16.toNat_sub_of_le _ _ hm]
    have hnlo : (UInt32.ofNat nl).toNat = nl := UInt32.toNat_ofNat_of_lt' (show nl < 2 ^ 32 by omega)
    -- the name of this record, as the second pass lowercases it
    have hname : slice p.pathPool (o.toNat + m.nameStart.toNat) (m.pathLen.toNat - m.nameStart.toNat) =
        (slice p.pathPool o.toNat m.pathLen.toNat).drop m.nameStart.toNat := (drop_slice _ _ _ _).symm
    have hlower : slice p.nameLowerPool nl (m.pathLen.toNat - m.nameStart.toNat) =
        Γ.lower ((slice p.pathPool o.toNat m.pathLen.toNat).drop m.nameStart.toNat) := by
      rw [hpool, reloadEntries, placeNames, hlen, ← hname]
      refine slice_mid _ _ _ hpre.symm ?_
      show _ = (Γ.lower (slice p.pathPool (o.toNat + m.nameStart.toNat) _)).length
      rw [Locale.length_lower, length_slice (by omega)]
    have hrest := ih (o := o + m.pathLen.toUInt32) (fun x hx => hn x (by simp [hx])) (by rw [ho]; omega)
      (pre ++ Γ.lower (slice p.pathPool (o.toNat + m.nameStart.toNat) (m.pathLen.toNat - m.nameStart.toNat)))
      (nl + (m.pathLen.toNat - m.nameStart.toNat)) (nl' + (reloadMeta m nl').nameLowerLen.toNat)
      (by rw [List.length_append, Locale.length_lower, length_slice (by omega), hpre]) (by rw [ho]; omega)
      (by rw [hpool, reloadEntries, placeNames, hlen, List.append_assoc]; rfl)
    rw [reloadEntries, placeMetas, List.map_cons, List.map_cons, cut, List.zipWith_cons_cons, hlen]
    congr 1
    · simp only [IndexPool.reading, IndexPool.pathView, IndexPool.nameView, IndexPool.nameLowerView, reloadMeta, textReading,
        hnlo, Reading.mk.injEq, and_true]
      have hsub : subSizeT m.pathLen m.nameStart = m.pathLen.toNat - m.nameStart.toNat := subSizeT_eq hm
      have hsub' : (m.pathLen - m.nameStart).toNat = m.pathLen.toNat - m.nameStart.toNat := hlen
      rw [hsub, hsub', hname, hlower]
      exact ⟨rfl, rfl, rfl⟩
    · rw [hlen] at hrest
      rw [List.drop_drop, ← ho]
      exact hrest

/-! ## The USN map -/

theorem length_usnEntryBytes (e : WString × UInt64) : (usnEntryBytes e).length = 2 + e.1.length * 2 + 8 := by
  simp only [usnEntryBytes, List.length_append, length_u16, length_wide, length_u64]
  omega

/-- A root not in the list yet is added at its end. -/
theorem setEntry_of_not_mem {root : WString} (usn : UInt64) {es : List (WString × UInt64)} (h : root ∉ es.map Prod.fst) :
    setEntry root usn es = es ++ [(root, usn)] := by
  induction es with
  | nil => rfl
  | cons e es ih =>
    rw [List.map_cons, List.mem_cons, not_or] at h
    rw [setEntry, if_neg (Ne.symm h.1), ih h.2, List.cons_append]

/-- Setting the entries of a map one after the other gives the map. -/
theorem foldl_set_entries (es : List (WString × UInt64)) (m : UsnMap) (h : ((m.entries ++ es).map Prod.fst).Nodup) :
    (es.foldl (fun m e => m.set e.1 e.2) m).entries = m.entries ++ es := by
  induction es generalizing m with
  | nil => simp
  | cons e es ih =>
    have hnot : e.1 ∉ m.entries.map Prod.fst := by
      rw [List.map_append, List.map_cons] at h
      have := List.nodup_middle.1 h
      rw [List.nodup_cons, List.mem_append, not_or] at this
      exact this.1.1
    have hset : (m.set e.1 e.2).entries = m.entries ++ [e] := setEntry_of_not_mem e.2 hnot
    rw [List.foldl_cons, ih _ (by rw [hset]; simpa using h), hset]
    simp

/-- The entries written after a prefix are set one after the other. -/
theorem readUsnEntries_flatMap {base : Nat} (pre post : List UInt8) (es : List (WString × UInt64)) (m : UsnMap)
    (hes : ∀ e ∈ es, e.1.length < 2 ^ 16) (hb : base + (pre ++ es.flatMap usnEntryBytes ++ post).length < 2 ^ 64) :
    readUsnEntries base (pre ++ es.flatMap usnEntryBytes ++ post) es.length pre.length m =
      .go (es.foldl (fun m e => m.set e.1 e.2) m) := by
  induction es generalizing pre m with
  | nil => rfl
  | cons e es ih =>
    obtain ⟨root, usn⟩ := e
    have hroot : root.length < 2 ^ 16 := hes (root, usn) (by simp)
    have hsplit : pre ++ ((root, usn) :: es).flatMap usnEntryBytes ++ post =
        (pre ++ usnEntryBytes (root, usn)) ++ es.flatMap usnEntryBytes ++ post := by simp
    have hnext := ih (pre ++ usnEntryBytes (root, usn)) (m.set root usn) (fun x hx => hes x (by simp [hx]))
      (by rw [← hsplit]; exact hb)
    rw [← hsplit] at hnext
    generalize hbytes : pre ++ ((root, usn) :: es).flatMap usnEntryBytes ++ post = bytes at *
    have heq : bytes = pre ++ (u16 (UInt16.ofNat root.length) ++ (LittleEndian.wide root ++ (u64 usn ++
        (es.flatMap usnEntryBytes ++ post)))) := by
      rw [← hbytes]
      simp [usnEntryBytes]
    have hlen : bytes.length = pre.length + (2 + (root.length * 2 + (8 + (es.flatMap usnEntryBytes ++ post).length))) := by
      rw [heq]
      simp only [List.length_append, length_u16, length_u64, length_wide]
      omega
    have hs2 : slice bytes pre.length 2 = u16 (UInt16.ofNat root.length) := by
      rw [heq]
      exact slice_mid _ _ _ rfl (by simp)
    have hsr : slice bytes (pre.length + 2) (root.length * 2) = LittleEndian.wide root := by
      rw [heq, ← List.append_assoc]
      exact slice_mid _ _ _ (by simp) (by simp [Nat.mul_comm])
    have hs8 : slice bytes (pre.length + 2 + root.length * 2) 8 = u64 usn := by
      rw [heq, ← List.append_assoc, ← List.append_assoc]
      exact slice_mid _ _ _ (by simp [Nat.mul_comm]; omega) (by simp)
    have hrl : (UInt16.ofNat root.length).toNat = root.length := UInt16.toNat_ofNat_of_lt' hroot
    rw [List.length_append, length_usnEntryBytes] at hnext
    rw [List.length_cons, readUsnEntries, if_neg (not_pastEnd hb (by omega)), readBytes_of_le (by omega), Run.go_bind]
    simp only [hs2, toU16_u16, hrl]
    rw [if_neg (not_pastEnd hb (by omega)), readBytes_of_le (by omega), Run.go_bind, readBytes_of_le (by omega), Run.go_bind,
      hsr, hs8, toWide_wide, toU64_u64, List.foldl_cons]
    have hpos : pre.length + 2 + root.length * 2 + 8 = pre.length + (2 + root.length * 2 + 8) := by omega
    rw [hpos]
    exact hnext

/-- A map written after a prefix is read back. -/
theorem readUsnMap_written {base : Nat} (pre : List UInt8) (usnMap : UsnMap) (hc : usnMap.entries.length < 2 ^ 32)
    (hes : ∀ e ∈ usnMap.entries, e.1.length < 2 ^ 16)
    (hb : base + (pre ++ (u32 (UInt32.ofNat usnMap.entries.length) ++ usnMap.entries.flatMap usnEntryBytes)).length <
      2 ^ 64) :
    readUsnMap base (pre ++ (u32 (UInt32.ofNat usnMap.entries.length) ++ usnMap.entries.flatMap usnEntryBytes)) pre.length
      .empty = .go usnMap := by
  have hlen : (pre ++ (u32 (UInt32.ofNat usnMap.entries.length) ++ usnMap.entries.flatMap usnEntryBytes)).length =
      pre.length + (4 + (usnMap.entries.flatMap usnEntryBytes).length) := by
    rw [List.length_append, List.length_append, length_u32]
  have hs : slice (pre ++ (u32 (UInt32.ofNat usnMap.entries.length) ++ usnMap.entries.flatMap usnEntryBytes)) pre.length 4 =
      u32 (UInt32.ofNat usnMap.entries.length) := slice_mid _ _ _ rfl (by simp)
  have hcount : (UInt32.ofNat usnMap.entries.length).toNat = usnMap.entries.length := UInt32.toNat_ofNat_of_lt' hc
  have hb' : base + (pre ++ u32 (UInt32.ofNat usnMap.entries.length) ++ usnMap.entries.flatMap usnEntryBytes ++ []).length <
      2 ^ 64 := by simpa using hb
  have hread := readUsnEntries_flatMap _ [] usnMap.entries .empty hes hb'
  have hset := foldl_set_entries usnMap.entries .empty (by simpa [UsnMap.empty] using usnMap.nodup)
  have hmap : usnMap.entries.foldl (fun m e => m.set e.1 e.2) .empty = usnMap := UsnMap.ext hset
  rw [List.append_nil, List.append_assoc, List.length_append, length_u32, hmap] at hread
  rw [readUsnMap, if_neg (not_pastEnd hb (by omega)), readBytes_of_le (by omega), Run.go_bind, hs]
  simp only [toU32_u32, hcount]
  exact hread

/-! ## The payload, part by part -/

section Payload

variable {p : IndexPool} {usnMap : UsnMap}

/-- The path pool with its size, the records, the USN map with its size. -/
theorem payloadBytes_eq (p : IndexPool) (usnMap : UsnMap) :
    payloadBytes p usnMap = (u64 (UInt64.ofNat p.pathPool.length) ++ LittleEndian.wide p.pathPool) ++
      p.liveMeta.flatMap diskEntryBytes ++
      (u32 (UInt32.ofNat usnMap.entries.length) ++ usnMap.entries.flatMap usnEntryBytes) := by
  simp [payloadBytes]

/-- Where the records end. -/
theorem length_beforeUsn (p : IndexPool) :
    ((u64 (UInt64.ofNat p.pathPool.length) ++ LittleEndian.wide p.pathPool) ++ p.liveMeta.flatMap diskEntryBytes).length =
      8 + 2 * p.pathPool.length + diskEntrySize * p.liveMeta.length := by
  rw [List.length_append, length_flatMap_diskEntryBytes]
  simp

theorem le_length_payloadBytes (p : IndexPool) (usnMap : UsnMap) :
    8 + 2 * p.pathPool.length + diskEntrySize * p.liveMeta.length ≤ (payloadBytes p usnMap).length := by
  rw [payloadBytes_eq, List.length_append, length_beforeUsn]
  exact Nat.le_add_right _ _

theorem pathPoolSizeOf_payloadBytes (hpool : p.pathPool.length < 2 ^ 64) :
    pathPoolSizeOf (payloadBytes p usnMap) = p.pathPool.length := by
  have hs : slice (payloadBytes p usnMap) 0 8 = u64 (UInt64.ofNat p.pathPool.length) := by
    rw [payloadBytes_eq, List.append_assoc, List.append_assoc]
    exact slice_mid [] (u64 _) _ rfl (by simp)
  rw [pathPoolSizeOf, hs, toU64_u64, UInt64.toNat_ofNat_of_lt' hpool]

theorem toWide_payloadBytes (p : IndexPool) (usnMap : UsnMap) :
    toWide (slice (payloadBytes p usnMap) 8 (2 * p.pathPool.length)) = p.pathPool := by
  have hs : slice (payloadBytes p usnMap) 8 (2 * p.pathPool.length) = LittleEndian.wide p.pathPool := by
    rw [payloadBytes_eq, List.append_assoc, List.append_assoc]
    exact slice_mid _ _ _ (by simp) (by simp)
  rw [hs, toWide_wide]

theorem diskEntries_payloadBytes (p : IndexPool) (usnMap : UsnMap) :
    diskEntries (payloadBytes p usnMap) p.liveMeta.length (8 + 2 * p.pathPool.length) 0 = reloadEntries p.liveMeta 0 := by
  have hpre : (u64 (UInt64.ofNat p.pathPool.length) ++ LittleEndian.wide p.pathPool).length = 8 + 2 * p.pathPool.length := by
    simp
  rw [payloadBytes_eq, ← hpre]
  exact diskEntries_flatMap _ _ _ _

/-- The USN map is read back as it was written. -/
theorem readUsnMap_payloadBytes {base : Nat} (hc : usnMap.entries.length < 2 ^ 32)
    (hes : ∀ e ∈ usnMap.entries, e.1.length < 2 ^ 16) (hb : base + (payloadBytes p usnMap).length < 2 ^ 64) :
    readUsnMap base (payloadBytes p usnMap) (8 + 2 * p.pathPool.length + diskEntrySize * p.liveMeta.length) .empty =
      .go usnMap := by
  rw [payloadBytes_eq] at hb ⊢
  rw [← length_beforeUsn]
  exact readUsnMap_written _ usnMap hc hes hb

end Payload

/-! ## The file -/

theorem length_headerBytes (timestamp entryCount : UInt64) (crc : UInt32) :
    (headerBytes timestamp entryCount crc).length = headerSize := by
  simp [headerBytes, headerSize]

/-- The header written in front of a payload is accepted. -/
theorem accepted_headerBytes (timestamp entryCount : UInt64) (payload : List UInt8) :
    Accepted (headerBytes timestamp entryCount (crc32 payload) ++ payload) := by
  have hlen := length_headerBytes timestamp entryCount (crc32 payload)
  refine ⟨by rw [List.length_append, hlen]; exact Nat.le_add_right _ _, ?_, ?_, ?_⟩
  · have := (slice_mid [] (u32 kMagic) (u16 kVersion ++ u64 timestamp ++ u64 entryCount ++ u32 (crc32 payload) ++ payload)
      rfl (by simp) : slice _ 0 4 = _)
    simp only [headerBytes, List.append_assoc, List.nil_append] at this ⊢
    rw [this, toU32_u32]
  · have := (slice_mid (u32 kMagic) (u16 kVersion) (u64 timestamp ++ u64 entryCount ++ u32 (crc32 payload) ++ payload)
      (by simp) (by simp) : slice _ 4 2 = _)
    simp only [headerBytes, List.append_assoc] at this ⊢
    rw [this, toU16_u16]
  · have := (slice_mid (u32 kMagic ++ u16 kVersion ++ u64 timestamp ++ u64 entryCount) (u32 (crc32 payload)) payload
      (by simp) (by simp) : slice _ 22 4 = _)
    rw [List.drop_left' hlen]
    simp only [headerBytes, List.append_assoc] at this ⊢
    rw [this, toU32_u32]

theorem entryCountOf_headerBytes (timestamp entryCount : UInt64) (crc : UInt32) (payload : List UInt8) :
    entryCountOf (headerBytes timestamp entryCount crc ++ payload) = entryCount := by
  have := (slice_mid (u32 kMagic ++ u16 kVersion ++ u64 timestamp) (u64 entryCount) (u32 crc ++ payload)
    (by simp) (by simp) : slice _ 14 8 = _)
  simp only [entryCountOf, headerBytes, List.append_assoc] at this ⊢
  rw [this, toU64_u64]

/-- A buffer lies in the user's half of the address space, as every buffer of a 64-bit process does. -/
def InUserSpace (base len : Nat) : Prop := base + len ≤ 2 ^ 47

instance (base len : Nat) : Decidable (InUserSpace base len) := inferInstanceAs (Decidable (_ ≤ _))

theorem InUserSpace.inMemory {base len : Nat} (h : InUserSpace base len) : InMemory base len := by
  unfold InUserSpace at h
  constructor <;> omega

/-- The pool that the reader rebuilds from the records written and the path pool. -/
def reloadedPool (Γ : Locale) (p : IndexPool) : IndexPool where
  entryMeta := placeMetas (reloadEntries p.liveMeta 0) 0 0
  nameLowerPool := placeNames Γ p.pathPool (reloadEntries p.liveMeta 0) 0
  pathPool := p.pathPool

theorem length_serialize (now : UInt64) (p : IndexPool) (usnMap : UsnMap) :
    (serialize now p usnMap).length = headerSize + (payloadBytes p usnMap).length := by
  rw [serialize, List.length_append, length_headerBytes]

/-- The file `serialize` writes is loaded if its records can be placed, whatever its USN section reads as. -/
theorem deserialize_serialize_placed (Γ : Locale) {base : Nat} (now : UInt64) {p : IndexPool} {usnMap usnMap' : UsnMap}
    {placed : List EntryMeta × List WChar} (hmem : InMemory base (payloadBytes p usnMap).length)
    (hplaced : (assignOffsets Γ p.pathPool (reloadEntries p.liveMeta 0) 0 0).result = .ok placed)
    (husn : readUsnMap base (payloadBytes p usnMap) (8 + 2 * p.pathPool.length + diskEntrySize * p.liveMeta.length) .empty =
      .go usnMap') :
    (deserialize Γ base (serialize now p usnMap) .empty).result =
      .ok ⟨⟨placed.1, placed.2, p.pathPool⟩, usnMap', toU64 (slice (serialize now p usnMap) 6 8)⟩ := by
  have hhead := length_headerBytes now (UInt64.ofNat p.liveMeta.length) (crc32 (payloadBytes p usnMap))
  have hfile : serialize now p usnMap =
      headerBytes now (UInt64.ofNat p.liveMeta.length) (crc32 (payloadBytes p usnMap)) ++ payloadBytes p usnMap := rfl
  have hlt := hmem.size
  have hlen := le_length_payloadBytes p usnMap
  have hd : diskEntrySize = 24 := rfl
  have hcount : (UInt64.ofNat p.liveMeta.length).toNat = p.liveMeta.length := by
    rw [hd] at hlen
    exact UInt64.toNat_ofNat_of_lt' (show _ < 2 ^ 64 by omega)
  have hsize : pathPoolSizeOf (payloadBytes p usnMap) = _ := pathPoolSizeOf_payloadBytes (by omega)
  rw [hfile, deserialize_of_accepted base .empty (accepted_headerBytes _ _ _), List.drop_left' hhead,
    entryCountOf_headerBytes, readPayload, readPathPool_of_fit hmem.address (by rw [hsize]; omega), Run.go_bind]
  simp only [hsize, toWide_payloadBytes]
  rw [checkEntryCount_of_borne hmem.address hlt (by rw [hcount]; exact hlen), Run.result_bind_ok rfl,
    Run.result_bind_ok (result_readEntries 0 (by rw [hcount]; exact hlen)), hcount, diskEntries_payloadBytes,
    Run.result_bind_ok hplaced, husn]
  rfl

/-- The file `serialize` writes is loaded, whatever its USN section reads as: the records are placed at the running sums. -/
theorem deserialize_serialize_pool (Γ : Locale) {base : Nat} (now : UInt64) {p : IndexPool} {usnMap usnMap' : UsnMap}
    (hpool : p.pathPool.length < 2 ^ 32) (hn : ∀ m ∈ p.liveMeta, m.nameStart.toNat ≤ m.pathLen.toNat)
    (hsum : (p.liveMeta.map (fun m => m.pathLen.toNat)).sum ≤ p.pathPool.length)
    (hmem : InMemory base (serialize now p usnMap).length)
    (husn : readUsnMap base (payloadBytes p usnMap) (8 + 2 * p.pathPool.length + diskEntrySize * p.liveMeta.length) .empty =
      .go usnMap') :
    (deserialize Γ base (serialize now p usnMap) .empty).result =
      .ok ⟨reloadedPool Γ p, usnMap', toU64 (slice (serialize now p usnMap) 6 8)⟩ := by
  have hpayload : InMemory base (payloadBytes p usnMap).length := by
    have h1 := hmem.address
    have h2 := hmem.size
    rw [length_serialize] at h1 h2
    constructor <;> omega
  -- the records are placed inside the pool
  have hfit : OffsetsFit p.pathPool.length (reloadEntries p.liveMeta 0) 0 := by
    refine offsetsFit_of_sum hpool ?_
    rw [map_pathLen_reloadEntries]
    exact (Nat.zero_add _).trans_le hsum
  have hlast : ∀ m ∈ reloadEntries p.liveMeta 0, m.nameStart.toNat + m.nameLowerLen.toNat ≤ m.pathLen.toNat := by
    intro m hm
    obtain ⟨m', hm', n, rfl⟩ := mem_reloadEntries hm
    exact (nameStart_add_nameLowerLen (m := reloadMeta m' n) rfl (hn m' hm')).le
  have hplaced := congrArg Run.result (assignOffsets_of_fit (Γ := Γ) 0 hfit hlast)
  exact deserialize_serialize_placed Γ now hpayload hplaced husn

/-- The file `serialize` writes is read back: the USN map as it was, and of each live entry its own fields with the text at
the running sum of the live paths' lengths. -/
theorem deserialize_serialize (Γ : Locale) {base : Nat} (now : UInt64) {p : IndexPool} {usnMap : UsnMap}
    (hpool : p.pathPool.length < 2 ^ 32) (hn : ∀ m ∈ p.liveMeta, m.nameStart.toNat ≤ m.pathLen.toNat)
    (hsum : (p.liveMeta.map (fun m => m.pathLen.toNat)).sum ≤ p.pathPool.length)
    (hc : usnMap.entries.length < 2 ^ 32) (hes : ∀ e ∈ usnMap.entries, e.1.length < 2 ^ 16)
    (hmem : InMemory base (serialize now p usnMap).length) :
    ∃ loaded, (deserialize Γ base (serialize now p usnMap) .empty).result = .ok loaded ∧ loaded.usnMap = usnMap ∧
      loaded.pool.entryMeta.map loaded.pool.reading =
        List.zipWith (textReading Γ) p.liveMeta (cut (p.liveMeta.map (fun m => m.pathLen.toNat)) p.pathPool) := by
  have hb : base + (payloadBytes p usnMap).length < 2 ^ 64 := by
    have h1 := hmem.address
    rw [length_serialize] at h1
    omega
  have hload := deserialize_serialize_pool Γ now hpool hn hsum hmem (readUsnMap_payloadBytes hc hes hb)
  refine ⟨_, hload, rfl, ?_⟩
  exact reading_placeMetas (p := reloadedPool Γ p) (o := 0) hpool hn ((Nat.zero_add _).trans_le hsum) [] 0 0 rfl
    (Nat.le_refl _) rfl

end WinIndex
