import Mathlib.Data.UInt
import WinIndex.Lemmas.Load

/-!
# Which index files are read safely

`Deserialize` checks sizes it has computed in 64 bits, compares an address that may wrap, reserves for the entry count of
the header before it looks at the payload, and never looks at the sums of the path lengths or at the name starts. So it is
safe on exactly the files that are rejected early or whose records fit the path pool they come with.
-/

namespace WinIndex

open Segments LittleEndian

/-- The records of a payload, as the first pass reads them. -/
def recordsOf (payload : List UInt8) (entryCount : UInt64) : List EntryMeta :=
  diskEntries payload entryCount.toNat (8 + 2 * pathPoolSizeOf payload) 0

/-- The payload holds its path pool and all its records, every name starts inside its path, and every path lies inside the
path pool at the running sum of the lengths before it. -/
structure RecordsFit (payload : List UInt8) (entryCount : UInt64) : Prop where
  records : 8 + 2 * pathPoolSizeOf payload + diskEntrySize * entryCount.toNat ≤ payload.length
  names : ∀ m ∈ recordsOf payload entryCount, m.nameStart.toNat ≤ m.pathLen.toNat
  offsets : OffsetsFit (pathPoolSizeOf payload) (recordsOf payload entryCount) 0

instance (payload : List UInt8) (entryCount : UInt64) : Decidable (RecordsFit payload entryCount) :=
  decidable_of_iff (8 + 2 * pathPoolSizeOf payload + diskEntrySize * entryCount.toNat ≤ payload.length ∧
      (∀ m ∈ recordsOf payload entryCount, m.nameStart.toNat ≤ m.pathLen.toNat) ∧
      OffsetsFit (pathPoolSizeOf payload) (recordsOf payload entryCount) 0)
    ⟨fun h => ⟨h.1, h.2.1, h.2.2⟩, fun h => ⟨h.records, h.names, h.offsets⟩⟩

/-- A run of the reader is safe: it returns true or false, meets only hazards that `H` allows, and what it has loaded when
it returns true has every view inside its pools. -/
structure LoadSafe (H : LoadHazard → Prop) (x : LoadRun Loaded) : Prop where
  clean : x.Clean H ReturnsFalse
  inBounds : ∀ loaded, x.result = .ok loaded → loaded.pool.WellFormed

/-- No hazard at all: not even a `reserve` for a count that turns out to be right. -/
def NoHazard (_ : LoadHazard) : Prop := False

variable {Γ : Locale} {base : Nat} {payload : List UInt8} {entryCount timestamp : UInt64} {usnMap : UsnMap}

theorem loadSafe_returnsFalse (H : LoadHazard → Prop) : LoadSafe H (.stop .returnsFalse) :=
  ⟨(Run.clean_stop _).2 rfl, fun _ h => nomatch h⟩

/-- The characters of a path pool that the payload holds. -/
theorem length_pathPool (h : 8 + 2 * pathPoolSizeOf payload ≤ payload.length) :
    (toWide (slice payload 8 (2 * pathPoolSizeOf payload))).length = pathPoolSizeOf payload := by
  rw [length_toWide, length_slice h]
  omega

/-- What is loaded from records that fit has every view inside its pools. -/
theorem wellFormed_place {pathPool : List WChar} {ms : List EntryMeta} (hf : OffsetsFit pathPool.length ms 0)
    (hn : ∀ m ∈ ms, m.nameStart.toNat ≤ m.pathLen.toNat)
    (hl : ∀ m ∈ ms, m.nameStart.toNat + m.nameLowerLen.toNat ≤ m.pathLen.toNat) :
    IndexPool.WellFormed ⟨placeMetas ms 0 0, placeNames Γ pathPool ms 0, pathPool⟩ := by
  intro m hm
  refine ⟨(placeMetas_path_iff _ ms 0 0).2 hf m hm, (placeMetas_nameStart_iff ms 0 0).2 hn m hm, ?_⟩
  have := placeMetas_nameLower ms 0 0 m hm
  rw [length_placeNames hf hl]
  omega

/-- Records that fit are read, with the `reserve` as the only hazard. -/
theorem readPayload_of_fit (Γ : Locale) (timestamp : UInt64) (usnMap : UsnMap) (hb : base + payload.length ≤ 2 ^ 47)
    (hf : RecordsFit payload entryCount) :
    ∃ loaded, readPayload .ample Γ base payload entryCount timestamp usnMap = ⟨[.reserved entryCount true], .ok loaded⟩ ∧
      loaded.pool.WellFormed := by
  have hp : 8 + 2 * pathPoolSizeOf payload ≤ payload.length := Nat.le_trans (Nat.le_add_right _ _) hf.records
  have hlen := length_pathPool hp
  have hlast : ∀ m ∈ recordsOf payload entryCount, m.nameStart.toNat + m.nameLowerLen.toNat ≤ m.pathLen.toNat :=
    fun m hm => (nameStart_add_nameLowerLen (nameLowerLen_of_mem_diskEntries hm) (hf.names m hm)).le
  have hoff : OffsetsFit (toWide (slice payload 8 (2 * pathPoolSizeOf payload))).length (recordsOf payload entryCount) 0 := by
    rw [hlen]
    exact hf.offsets
  have hread : readEntries payload entryCount.toNat (8 + 2 * pathPoolSizeOf payload) 0 =
      .go (recordsOf payload entryCount) := readEntries_of_names hf.records hf.names
  have hb' : base + payload.length + 2 ^ 18 ≤ 2 ^ 64 := by omega
  obtain ⟨usnMap', husn⟩ := readUsnMap_go hb' usnMap hf.records
  refine ⟨⟨⟨_, _, _⟩, usnMap', timestamp⟩, ?_, wellFormed_place (Γ := Γ) hoff hf.names hlast⟩
  rw [readPayload, readPathPool_of_fit (by omega) hp, Run.go_bind]
  simp only
  rw [checkEntryCount_of_borne (by omega) (by omega) hf.records, hread, Run.go_bind, assignOffsets_of_fit 0 hoff hlast,
    Run.go_bind]
  simp only
  rw [husn]
  rfl

/-- A payload that is read safely either ends before its path pool, or holds records that fit. -/
theorem cut_or_fit_of_safe (hb : base + payload.length ≤ 2 ^ 47)
    (h : LoadSafe Harmless (readPayload .ample Γ base payload entryCount timestamp usnMap)) (hc : ¬PathPoolCut base payload) :
    RecordsFit payload entryCount := by
  have hb18 : base + payload.length + 2 ^ 18 ≤ 2 ^ 64 := by omega
  have hb64 : base + payload.length < 2 ^ 64 := by omega
  have hclean := h.clean
  rw [readPayload] at hclean
  -- the path pool is there
  have hp : 8 + 2 * pathPoolSizeOf payload ≤ payload.length := by
    by_contra hlt
    exact readPathPool_unclean (H := Harmless) id (by omega) (by omega) hc (Run.clean_bind.1 hclean).1
  have hpool := readPathPool_of_fit hb64 hp
  rw [hpool, Run.go_bind] at hclean
  -- so are the records
  obtain ⟨hcheck, hclean⟩ := Run.clean_bind.1 hclean
  have hrec : 8 + 2 * pathPoolSizeOf payload + diskEntrySize * entryCount.toNat ≤ payload.length := by
    by_contra hlt
    exact checkEntryCount_unclean (H := Harmless) (by simp [Harmless, hlt]) hcheck
  have hok := checkEntryCount_of_borne hb64 (by omega) hrec
  have hclean := hclean () (by rw [hok])
  -- every name starts inside its path
  have hread : (readEntries payload entryCount.toNat (8 + 2 * pathPoolSizeOf payload) 0).result =
      .ok (recordsOf payload entryCount) := result_readEntries 0 hrec
  obtain ⟨hentries, hclean⟩ := Run.clean_bind.1 hclean
  have hnames := (clean_readEntries 0 hrec).1 hentries
  have hclean := (Run.clean_bind.1 (hclean _ hread)).1
  -- and every path inside the pool, since it is loaded
  refine ⟨hrec, hnames, ?_⟩
  cases hplace : (assignOffsets Γ (toWide (slice payload 8 (2 * pathPoolSizeOf payload))) (recordsOf payload entryCount) 0
    0).result with
  | error stop =>
    have := hclean.fine stop hplace
    rw [stop_assignOffsets hplace] at this
    cases this
  | ok r =>
    obtain ⟨usnMap', husn⟩ := readUsnMap_go hb18 usnMap hrec
    have hres : (readPayload .ample Γ base payload entryCount timestamp usnMap).result =
        .ok ⟨⟨r.1, r.2, toWide (slice payload 8 (2 * pathPoolSizeOf payload))⟩, usnMap', timestamp⟩ := by
      rw [readPayload, hpool, Run.go_bind]
      simp only
      rw [Run.result_bind_ok (by rw [hok]), Run.result_bind_ok hread, Run.result_bind_ok hplace, husn]
      rfl
    have hwf := h.inBounds _ hres
    have hr := result_assignOffsets_eq hplace
    subst hr
    have := (placeMetas_path_iff _ _ _ _).1 hwf.pathsIn
    rwa [length_pathPool hp] at this

/-- A payload whose path pool is not cut has the entry count reserved for, or fails before. -/
theorem readPayload_not_clean_noHazard (hb : base + payload.length ≤ 2 ^ 47) (hc : ¬PathPoolCut base payload) :
    ¬(readPayload .ample Γ base payload entryCount timestamp usnMap).Clean NoHazard ReturnsFalse := by
  intro hclean
  rw [readPayload] at hclean
  by_cases hp : 8 + 2 * pathPoolSizeOf payload ≤ payload.length
  · rw [readPathPool_of_fit (by omega) hp, Run.go_bind] at hclean
    exact checkEntryCount_unclean (H := NoHazard) id (Run.clean_bind.1 hclean).1
  · exact readPathPool_unclean (H := NoHazard) id (by omega) (by omega) hc (Run.clean_bind.1 hclean).1

/-- A file is read safely exactly when its header is not accepted, its path pool is cut, or its records fit; and it is read
without any `reserve` ahead of the check exactly when it is rejected before the records. -/
theorem deserialize_safe_iff (Γ : Locale) (base : Nat) (file : List UInt8) (usnMap : UsnMap)
    (hb : base + file.length ≤ 2 ^ 47) :
    (LoadSafe Harmless (deserialize Γ base file usnMap) ↔
      (Accepted file → PathPoolCut base (file.drop headerSize) ∨ RecordsFit (file.drop headerSize) (entryCountOf file))) ∧
      (LoadSafe NoHazard (deserialize Γ base file usnMap) ↔
        (Accepted file → PathPoolCut base (file.drop headerSize))) := by
  by_cases ha : Accepted file
  · rw [deserialize_of_accepted base usnMap ha]
    have hb' : base + (file.drop headerSize).length ≤ 2 ^ 47 := by
      rw [List.length_drop]
      omega
    by_cases hc : PathPoolCut base (file.drop headerSize)
    · have hstop : readPayload .ample Γ base (file.drop headerSize) (entryCountOf file) (toU64 (slice file 6 8)) usnMap =
          .stop .returnsFalse := by
        rw [readPayload, readPathPool_of_cut (by omega) hc, Run.stop_bind]
      rw [hstop]
      exact ⟨⟨fun _ _ => .inl hc, fun _ => loadSafe_returnsFalse _⟩, ⟨fun _ _ => hc, fun _ => loadSafe_returnsFalse _⟩⟩
    · refine ⟨⟨?_, ?_⟩, ⟨?_, ?_⟩⟩
      · intro h _
        exact .inr (cut_or_fit_of_safe hb' h hc)
      · intro h
        obtain ⟨loaded, hres, hwf⟩ := readPayload_of_fit Γ (toU64 (slice file 6 8)) usnMap hb'
          ((h ha).resolve_left hc)
        rw [hres]
        refine ⟨⟨by simp [Harmless], fun _ he => nomatch he⟩, ?_⟩
        intro _ he
        cases he
        exact hwf
      · intro h
        exact absurd h.clean (readPayload_not_clean_noHazard hb' hc)
      · intro h
        exact absurd (h ha) hc
  · rw [deserialize_of_not_accepted base usnMap ha]
    exact ⟨⟨fun _ h => absurd h ha, fun _ => loadSafe_returnsFalse _⟩,
      ⟨fun _ h => absurd h ha, fun _ => loadSafe_returnsFalse _⟩⟩

/-- A file that is read safely is rejected early or holds records that fit. -/
theorem cut_or_fit_of_deserialize_safe {file : List UInt8} (hb : base + file.length ≤ 2 ^ 47) (ha : Accepted file)
    (hc : ¬PathPoolCut base (file.drop headerSize)) (h : LoadSafe Harmless (deserialize Γ base file usnMap)) :
    RecordsFit (file.drop headerSize) (entryCountOf file) := by
  rw [deserialize_of_accepted base usnMap ha] at h
  refine cut_or_fit_of_safe ?_ h hc
  rw [List.length_drop]
  omega

namespace LoadSafetyWitness

/-- A file with a header that is right for its payload, but for the entry count, which the checksum does not cover. -/
def fileOf (entryCount : UInt64) (payload : List UInt8) : List UInt8 := headerBytes 0 entryCount (crc32 payload) ++ payload

/-- An empty path pool and no record, under a header that promises `2 ^ 62` of them. -/
def promised : List UInt8 := fileOf (2 ^ 62) (u64 0)

/-- An empty path pool and one record, with a path of one character. -/
def outside : List UInt8 := fileOf 1 (u64 0 ++ diskEntryBytes ⟨0, 0, 0, 0, 0, 1, 0, 1, false⟩)

theorem deserialize_safe_iff_promised :
    (LoadSafe Harmless (deserialize .c 0x10000 promised .empty) ↔
      (Accepted promised → PathPoolCut 0x10000 (promised.drop headerSize) ∨
        RecordsFit (promised.drop headerSize) (entryCountOf promised))) ∧
      (LoadSafe NoHazard (deserialize .c 0x10000 promised .empty) ↔
        (Accepted promised → PathPoolCut 0x10000 (promised.drop headerSize))) :=
  deserialize_safe_iff .c 0x10000 promised .empty (by decide +kernel)

end LoadSafetyWitness

/-- Two files that are not read safely: for the first the reader asks for more room than a vector can have, the second it
loads with a path that lies outside the path pool. -/
theorem hostile_files_are_not_safe :
    ¬LoadSafe Harmless (deserialize .c 0x10000 LoadSafetyWitness.promised .empty) ∧
      ¬LoadSafe Harmless (deserialize .c 0x10000 LoadSafetyWitness.outside .empty) := by
  constructor
  · intro h
    have hf := cut_or_fit_of_deserialize_safe (by decide +kernel) (by decide +kernel) (by decide +kernel) h
    exact absurd hf (by decide +kernel)
  · intro h
    have hf := cut_or_fit_of_deserialize_safe (by decide +kernel) (by decide +kernel) (by decide +kernel) h
    exact absurd hf (by decide +kernel)

end WinIndex
