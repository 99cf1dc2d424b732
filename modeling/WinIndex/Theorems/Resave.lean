import WinIndex.Theorems.Persistence

/-!
# Saving a loaded index again

A file that the reader accepts may hold what the writer never writes: characters behind the last path, lengths that make an
offset wrap, a root twice, a USN section that is cut off. Loading settles all of it. No entry of the loaded pool is
tombstoned, so the writer stores its records in the order and with the lengths they were read with, and the second pass, which
sees nothing else of them, does the same again.
-/

namespace WinIndex

open Segments LittleEndian

/-! ## The records that were loaded -/

/-- Bytes that were read are the slice asked for. -/
theorem result_readBytes_eq {payload bytes : List UInt8} {pos n : Nat} (h : (readBytes payload pos n).result = .ok bytes) :
    bytes = slice payload pos n := by
  unfold readBytes at h
  split at h
  · exact (Except.ok.inj h).symm
  · cases h

/-- When the first pass goes on, it has read the records. -/
theorem result_readEntries_eq {payload : List UInt8} {count pos nameLowerSize : Nat} {ms : List EntryMeta}
    (h : (readEntries payload count pos nameLowerSize).result = .ok ms) : ms = diskEntries payload count pos nameLowerSize := by
  induction count generalizing pos nameLowerSize ms with
  | zero =>
    cases h
    rfl
  | succ count ih =>
    rw [readEntries] at h
    obtain ⟨bytes, hbytes, h⟩ := Run.result_bind_eq_ok.1 h
    obtain ⟨_, _, h⟩ := Run.result_bind_eq_ok.1 h
    obtain ⟨rest, hrest, h⟩ := Run.result_bind_eq_ok.1 h
    cases h
    rw [ih hrest, result_readBytes_eq hbytes, diskEntries]

/-- Written and read again, a record that was placed is what the first pass made of it before. -/
theorem reloadEntries_placeMetas (payload : List UInt8) (count pos nameLowerSize : Nat) (o : UInt32) (nl : Nat) :
    reloadEntries (placeMetas (diskEntries payload count pos nameLowerSize) o nl) nameLowerSize =
      diskEntries payload count pos nameLowerSize := by
  induction count generalizing pos nameLowerSize o nl with
  | zero => rfl
  | succ count ih =>
    rw [diskEntries, placeMetas, reloadEntries, List.cons.injEq]
    exact ⟨rfl, ih _ _ _ _⟩

/-- No record that was read is tombstoned. -/
theorem deleted_of_mem_placeMetas {payload : List UInt8} {count pos nameLowerSize : Nat} {o : UInt32} {nl : Nat} {m : EntryMeta}
    (h : m ∈ placeMetas (diskEntries payload count pos nameLowerSize) o nl) : m.deleted = false := by
  induction count generalizing pos nameLowerSize o nl with
  | zero => cases h
  | succ count ih =>
    rw [diskEntries, placeMetas, List.mem_cons] at h
    rcases h with rfl | h
    · rfl
    · exact ih h

/-! ## The roots that were loaded -/

/-- Setting an entry adds one at most, and nothing else. -/
theorem length_setEntry_le (root : WString) (usn : UInt64) (es : List (WString × UInt64)) :
    (setEntry root usn es).length ≤ es.length + 1 := by
  induction es with
  | nil => exact Nat.le_refl _
  | cons e es ih =>
    rw [setEntry]
    split
    · exact Nat.le_succ _
    · simpa using ih

theorem mem_setEntry {root : WString} {usn : UInt64} {es : List (WString × UInt64)} {e : WString × UInt64}
    (h : e ∈ setEntry root usn es) : e = (root, usn) ∨ e ∈ es := by
  induction es with
  | nil => exact .inl (List.mem_singleton.1 h)
  | cons e' es ih =>
    rw [setEntry] at h
    split at h
    · rcases List.mem_cons.1 h with h | h
      · exact .inl h
      · exact .inr (List.mem_cons_of_mem _ h)
    · rcases List.mem_cons.1 h with h | h
      · exact .inr (h ▸ List.mem_cons_self)
      · exact (ih h).imp_right (List.mem_cons_of_mem _)

/-- What fits the fields of the USN section: the length of every root its 16 bits. -/
def RootsFit (m : UsnMap) : Prop := ∀ e ∈ m.entries, e.1.length < 2 ^ 16

/-- The loop over the USN section adds as many entries as it is told to at most, with roots whose lengths were read from 16
bits. -/
theorem readUsnEntries_fit {base : Nat} {payload : List UInt8} {count pos : Nat} {usnMap usnMap' : UsnMap}
    (hfit : RootsFit usnMap) (h : (readUsnEntries base payload count pos usnMap).result = .ok usnMap') :
    RootsFit usnMap' ∧ usnMap'.entries.length ≤ usnMap.entries.length + count := by
  induction count generalizing pos usnMap with
  | zero =>
    cases h
    exact ⟨hfit, Nat.le_refl _⟩
  | succ count ih =>
    have hstay : RootsFit usnMap ∧ usnMap.entries.length ≤ usnMap.entries.length + (count + 1) := ⟨hfit, Nat.le_add_right _ _⟩
    rw [readUsnEntries] at h
    split at h
    · cases h
      exact hstay
    · obtain ⟨lenBytes, _, h⟩ := Run.result_bind_eq_ok.1 h
      simp only at h
      split at h
      · cases h
        exact hstay
      · obtain ⟨rootBytes, hroot, h⟩ := Run.result_bind_eq_ok.1 h
        obtain ⟨usnBytes, _, h⟩ := Run.result_bind_eq_ok.1 h
        have hlen : (toWide rootBytes).length < 2 ^ 16 := by
          have hbits := (toU16 lenBytes).toNat_lt
          have htake : rootBytes.length ≤ (toU16 lenBytes).toNat * 2 := by
            rw [result_readBytes_eq hroot]
            exact List.length_take_le _ _
          rw [length_toWide]
          omega
        have hset : RootsFit (usnMap.set (toWide rootBytes) (toU64 usnBytes)) := by
          intro e he
          rcases mem_setEntry he with rfl | he
          · exact hlen
          · exact hfit e he
        obtain ⟨hfit', hle⟩ := ih hset h
        have hadd : (usnMap.set (toWide rootBytes) (toU64 usnBytes)).entries.length ≤ usnMap.entries.length + 1 :=
          length_setEntry_le _ _ _
        exact ⟨hfit', by omega⟩

/-- The map that is read fits the USN section. -/
theorem readUsnMap_fit {base : Nat} {payload : List UInt8} {pos : Nat} {usnMap : UsnMap}
    (h : (readUsnMap base payload pos .empty).result = .ok usnMap) : RootsFit usnMap ∧ usnMap.entries.length < 2 ^ 32 := by
  have hempty : RootsFit .empty := by
    intro e he
    cases he
  rw [readUsnMap] at h
  split at h
  · cases h
    exact ⟨hempty, by decide⟩
  · obtain ⟨countBytes, _, h⟩ := Run.result_bind_eq_ok.1 h
    obtain ⟨hfit, hle⟩ := readUsnEntries_fit hempty h
    have hbits := (toU32 countBytes).toNat_lt
    have hnone : UsnMap.empty.entries.length = 0 := rfl
    exact ⟨hfit, by omega⟩

/-- A map finds what it holds. -/
theorem UsnMap.find?_eq_some_iff (m : UsnMap) (root : WString) (usn : UInt64) :
    m.find? root = some usn ↔ (root, usn) ∈ m.entries := by
  rw [find?, Option.map_eq_some_iff]
  constructor
  · rintro ⟨e, he, rfl⟩
    have hkey : e.1 = root := by simpa using List.find?_some he
    rw [← hkey]
    exact List.mem_of_find?_eq_some he
  · intro hmem
    obtain ⟨e, he⟩ := Option.isSome_iff_exists.1 (List.find?_isSome.2 ⟨_, hmem, decide_eq_true rfl⟩ :
      (m.entries.find? (fun e => e.1 = root)).isSome)
    have hkey : e.1 = root := by simpa using List.find?_some he
    have hsame : e = (root, usn) := List.inj_on_of_nodup_map m.nodup (List.mem_of_find?_eq_some he) hmem hkey
    exact ⟨e, he, by rw [hsame]⟩

/-- Two maps with the same entries find the same. -/
theorem UsnMap.find?_perm {m m' : UsnMap} (h : m.entries.Perm m'.entries) (root : WString) : m.find? root = m'.find? root := by
  ext v
  rw [find?_eq_some_iff, find?_eq_some_iff, h.mem_iff]

/-! ## What loading leaves -/

/-- A loaded index is settled: its records, as the first pass would read them from a file written of it, are placed where they
are, and its USN map fits the section. -/
structure Settled (Γ : Locale) (loaded : Loaded) : Prop where
  placed : (assignOffsets Γ loaded.pool.pathPool (reloadEntries loaded.pool.liveMeta 0) 0 0).result =
    .ok (loaded.pool.entryMeta, loaded.pool.nameLowerPool)
  roots : RootsFit loaded.usnMap
  count : loaded.usnMap.entries.length < 2 ^ 32

variable {Γ : Locale}

/-- Every file that is loaded settles. -/
theorem settled_of_deserialize {base : Nat} {file : List UInt8} {loaded : Loaded}
    (h : (deserialize Γ base file .empty).result = .ok loaded) : Settled Γ loaded := by
  have hacc : Accepted file := by
    by_contra hn
    rw [deserialize_of_not_accepted base .empty hn] at h
    cases h
  rw [deserialize_of_accepted base .empty hacc, readPayload] at h
  obtain ⟨⟨pathPool, pos⟩, _, h⟩ := Run.result_bind_eq_ok.1 h
  obtain ⟨_, _, h⟩ := Run.result_bind_eq_ok.1 h
  obtain ⟨ms, hms, h⟩ := Run.result_bind_eq_ok.1 h
  obtain ⟨placed, hplaced, h⟩ := Run.result_bind_eq_ok.1 h
  obtain ⟨usnMap, husn, h⟩ := Run.result_bind_eq_ok.1 h
  cases h
  have hms' := result_readEntries_eq hms
  have hpair := result_assignOffsets_eq hplaced
  have hmeta : placed.1 = placeMetas ms 0 0 := congrArg Prod.fst hpair
  have hlive : IndexPool.liveMeta ⟨placed.1, placed.2, pathPool⟩ = placed.1 := by
    rw [IndexPool.liveMeta, List.filter_eq_self]
    intro m hm
    rw [hmeta, hms'] at hm
    simp [deleted_of_mem_placeMetas hm]
  obtain ⟨hroots, hcount⟩ := readUsnMap_fit husn
  refine ⟨?_, hroots, hcount⟩
  rw [hlive, hmeta, hms', reloadEntries_placeMetas, ← hms', ← hmeta]
  exact hplaced

/-- A settled index is loaded from the file that is written of it, with its map in any order. -/
theorem Settled.deserialize_serialize {loaded : Loaded} (h : Settled Γ loaded) {m : UsnMap}
    (hperm : m.entries.Perm loaded.usnMap.entries) {base : Nat} (now : UInt64)
    (hmem : InMemory base (payloadBytes loaded.pool m).length) :
    (deserialize Γ base (serialize now loaded.pool m) .empty).result =
      .ok ⟨loaded.pool, m, toU64 (slice (serialize now loaded.pool m) 6 8)⟩ := by
  have hcount : m.entries.length < 2 ^ 32 := by
    rw [hperm.length_eq]
    exact h.count
  have hroots : ∀ e ∈ m.entries, e.1.length < 2 ^ 16 := fun e he => h.roots e (hperm.mem_iff.1 he)
  exact deserialize_serialize_placed Γ now hmem h.placed (readUsnMap_payloadBytes hcount hroots hmem.address)

/-- Loading is stable: an index that any file was loaded into, its USN map written in whatever order the hash table gives, is
loaded again with the same records, the same two pools and the same map. -/
theorem loading_is_stable (Γ : Locale) (base base' : Nat) (now : UInt64) (file : List UInt8) (loaded : Loaded) (m : UsnMap)
    (h : (deserialize Γ base file .empty).result = .ok loaded) (hperm : m.entries.Perm loaded.usnMap.entries)
    (hmem : InMemory base' (payloadBytes loaded.pool m).length) :
    ∃ again, (deserialize Γ base' (serialize now loaded.pool m) .empty).result = .ok again ∧ again.pool = loaded.pool ∧
      again.usnMap.entries.Perm loaded.usnMap.entries ∧ ∀ root, again.usnMap.find? root = loaded.usnMap.find? root :=
  ⟨_, (settled_of_deserialize h).deserialize_serialize hperm now hmem, rfl, hperm, UsnMap.find?_perm hperm⟩

namespace ResaveWitness

open PersistenceWitness

/-- A file with slack: the first of two entries was tombstoned, so the path pool holds more than the record that is left. -/
def slack : List UInt8 := serialize 1 ((IndexPool.ofEntries .c files).markAll [0]) .empty

/-- It is loaded, and what is written of it fits the memory. -/
theorem slack_loads :
    (deserialize .c 0x10000 slack .empty).result.toOption.map
      (fun l => decide (InMemory 0x20000 (payloadBytes l.pool l.usnMap).length)) = some true := by
  decide +kernel

theorem loading_is_stable_slack :
    ∃ loaded again, (deserialize .c 0x10000 slack .empty).result = .ok loaded ∧
      (deserialize .c 0x20000 (serialize 2 loaded.pool loaded.usnMap) .empty).result = .ok again ∧
      again.pool = loaded.pool ∧ again.usnMap.entries.Perm loaded.usnMap.entries ∧
        ∀ root, again.usnMap.find? root = loaded.usnMap.find? root := by
  have hfits := slack_loads
  cases hload : (deserialize .c 0x10000 slack .empty).result with
  | error stop =>
    rw [hload] at hfits
    cases hfits
  | ok loaded =>
    rw [hload] at hfits
    obtain ⟨again, hagain⟩ := loading_is_stable .c 0x10000 0x20000 2 slack loaded loaded.usnMap hload (List.Perm.refl _)
      (of_decide_eq_true (Option.some.inj hfits))
    exact ⟨loaded, again, rfl, hagain⟩

end ResaveWitness

end WinIndex
