import WinIndex.Lemmas.Reload
import WinIndex.Theorems.Checksum

/-!
# What a damaged index file loads as

The checksum covers the payload: damage within four consecutive payload bytes is always found. The header it does not cover.
Its magic, version and checksum are compared and its time stamp changes nothing, but the entry count tells the reader where the
records end: a count that the payload bears out and that is not the one written loads other entries.
-/

namespace WinIndex

open Segments LittleEndian

/-! ## Damage to the payload -/

/-- Two byte strings of one length that differ, and only within four consecutive bytes. -/
structure DiffersInWindow (start : Nat) (xs ys : List UInt8) : Prop where
  length : xs.length = ys.length
  differ : xs ≠ ys
  window : ∀ i, xs[i]? ≠ ys[i]? → start ≤ i ∧ i < start + 4

/-- One byte set to another value. -/
theorem differsInWindow_set {xs : List UInt8} {i : Nat} {b c : UInt8} (h : xs[i]? = some b) (hne : b ≠ c) :
    DiffersInWindow i xs (xs.set i c) := by
  have hi : i < xs.length := by
    by_contra hn
    rw [List.getElem?_eq_none (by omega)] at h
    cases h
  refine ⟨by simp, ?_, ?_⟩
  · intro heq
    rw [heq, List.getElem?_set_self hi, Option.some.injEq] at h
    exact hne h.symm
  · intro j hj
    by_cases hij : i = j
    · omega
    · rw [List.getElem?_set_ne hij] at hj
      exact absurd rfl hj

/-- Outside the window the strings agree: they are one prefix and one suffix around two middles. -/
theorem DiffersInWindow.split {start : Nat} {xs ys : List UInt8} (h : DiffersInWindow start xs ys) :
    ∃ pre mid mid' post, xs = pre ++ mid ++ post ∧ ys = pre ++ mid' ++ post ∧ mid.length = mid'.length ∧
      mid.length ≤ 4 ∧ mid ≠ mid' := by
  have hpre : ys.take start = xs.take start := by
    apply List.ext_getElem?
    intro i
    by_cases hi : i < start
    · rw [List.getElem?_take_of_lt hi, List.getElem?_take_of_lt hi]
      by_contra hne
      have := h.window i (Ne.symm hne)
      omega
    · rw [List.getElem?_take_eq_none (by omega), List.getElem?_take_eq_none (by omega)]
  have hpost : (ys.drop start).drop 4 = (xs.drop start).drop 4 := by
    apply List.ext_getElem?
    intro i
    rw [List.drop_drop, List.drop_drop, List.getElem?_drop, List.getElem?_drop]
    by_contra hne
    have := h.window _ (Ne.symm hne)
    omega
  have hxs : xs = xs.take start ++ slice xs start 4 ++ (xs.drop start).drop 4 := by
    rw [slice, List.append_assoc, List.take_append_drop, List.take_append_drop]
  have hys : ys = xs.take start ++ slice ys start 4 ++ (xs.drop start).drop 4 := by
    rw [← hpre, ← hpost, slice, List.append_assoc, List.take_append_drop, List.take_append_drop]
  refine ⟨_, _, _, _, hxs, hys, ?_, ?_, ?_⟩
  · simp only [slice, List.length_take, List.length_drop, h.length]
  · exact List.length_take_le _ _
  · intro heq
    rw [heq, ← hys] at hxs
    exact h.differ hxs

/-- Texts that differ only within four consecutive bytes have different checksums. -/
theorem DiffersInWindow.crc32_ne {start : Nat} {xs ys : List UInt8} (h : DiffersInWindow start xs ys) :
    crc32 xs ≠ crc32 ys := by
  obtain ⟨pre, mid, mid', post, rfl, rfl, hlen, hle, hne⟩ := h.split
  intro heq
  have hbits := congrArg UInt32.toBitVec heq
  rw [toBitVec_crc32, toBitVec_crc32, BitVec.xor_left_inj] at hbits
  simp only [List.map_append] at hbits
  have hmid : mid.map UInt8.toBitVec ≠ mid'.map UInt8.toBitVec :=
    fun hmap => hne (List.map_injective_iff.2 (fun _ _ => UInt8.toBitVec_inj.1) hmap)
  exact Crc.remainder_ne_of_window (by decide) _ _ _ (by simpa using hlen) (by simp; omega) hmid hbits

/-- Dropping what comes before the window moves it. -/
theorem DiffersInWindow.drop {start n : Nat} {xs ys : List UInt8} (h : DiffersInWindow start xs ys) (hn : n ≤ start) :
    DiffersInWindow (start - n) (xs.drop n) (ys.drop n) := by
  have htake : xs.take n = ys.take n := by
    apply List.ext_getElem?
    intro i
    by_cases hi : i < n
    · rw [List.getElem?_take_of_lt hi, List.getElem?_take_of_lt hi]
      by_contra hne
      have := h.window i hne
      omega
    · rw [List.getElem?_take_eq_none (by omega), List.getElem?_take_eq_none (by omega)]
  refine ⟨by rw [List.length_drop, List.length_drop, h.length], ?_, ?_⟩
  · intro heq
    apply h.differ
    rw [← List.take_append_drop n xs, ← List.take_append_drop n ys, htake, heq]
  · intro i hi
    rw [List.getElem?_drop, List.getElem?_drop] at hi
    have := h.window _ hi
    omega

/-- A file whose payload is damaged within four consecutive bytes is rejected. -/
theorem deserialize_of_damaged_payload (Γ : Locale) (base : Nat) (now : UInt64) (p : IndexPool) (usnMap usnMap' : UsnMap)
    {start : Nat} {file' : List UInt8} (hstart : headerSize ≤ start)
    (h : DiffersInWindow start (serialize now p usnMap) file') :
    deserialize Γ base file' usnMap' = .stop .returnsFalse := by
  apply deserialize_of_not_accepted
  intro haccepted
  have hwritten : Accepted (serialize now p usnMap) := accepted_headerBytes _ _ _
  have hcrc : slice (serialize now p usnMap) 22 4 = slice file' 22 4 := by
    apply List.ext_getElem?
    intro i
    simp only [slice]
    by_cases hi : i < 4
    · rw [List.getElem?_take_of_lt hi, List.getElem?_take_of_lt hi, List.getElem?_drop, List.getElem?_drop]
      by_contra hne
      have := h.window _ hne
      unfold headerSize at hstart
      omega
    · rw [List.getElem?_take_eq_none (by omega), List.getElem?_take_eq_none (by omega)]
  have hne := (h.drop hstart).crc32_ne
  rw [hwritten.crc, haccepted.crc, hcrc] at hne
  exact hne rfl

/-- Payload damage is always detected: `Deserialize` returns false for every file that `Serialize` wrote and that was changed
in at least one byte and only within four consecutive payload bytes; any two byte strings of one length that differ, and only
within four consecutive bytes, have different checksums. -/
theorem payload_damage_detected (Γ : Locale) (base : Nat) (now : UInt64) (p : IndexPool) (usnMap usnMap' : UsnMap) :
    (∀ (start : Nat) (file' : List UInt8), headerSize ≤ start → DiffersInWindow start (serialize now p usnMap) file' →
      deserialize Γ base file' usnMap' = .stop .returnsFalse) ∧
    ∀ (start : Nat) (xs ys : List UInt8), DiffersInWindow start xs ys → crc32 xs ≠ crc32 ys :=
  ⟨fun _ _ hstart h => deserialize_of_damaged_payload Γ base now p usnMap usnMap' hstart h, fun _ _ _ h => h.crc32_ne⟩
namespace CorruptionWitness

/-- The pool of one file, `C:\A`. -/
def pool : IndexPool := .ofEntries .c [.ofPath .c (wide ['C', ':', '\\', 'A']) 3 5 0x20]

/-- The file with its first payload byte, the low byte of the pool's size, changed. -/
def damaged : List UInt8 := (serialize 1 pool .empty).set 26 0

theorem payload_damage_detected_file :
    deserialize .c 0x10000 damaged .empty = .stop .returnsFalse ∧ crc32 [1, 2, 3] ≠ crc32 [1, 4, 3] :=
  ⟨(payload_damage_detected .c 0x10000 1 pool .empty .empty).1 26 damaged (by decide)
      (differsInWindow_set (b := 4) (by decide +kernel) (by decide)),
    (payload_damage_detected .c 0x10000 1 pool .empty .empty).2 1 [1, 2, 3] [1, 4, 3]
      (differsInWindow_set (i := 1) (b := 2) (c := 4) rfl (by decide))⟩

end CorruptionWitness

/-! ## Damage to the header -/

variable {allocates : Allocator} {Γ : Locale} {base : Nat} {payload : List UInt8}

theorem length_diskEntries (payload : List UInt8) (count pos nameLowerSize : Nat) :
    (diskEntries payload count pos nameLowerSize).length = count := by
  induction count generalizing pos nameLowerSize with
  | zero => rfl
  | succ count ih => rw [diskEntries, List.length_cons, ih]

theorem length_placeMetas (ms : List EntryMeta) (o : UInt32) (nl : Nat) : (placeMetas ms o nl).length = ms.length := by
  induction ms generalizing o nl with
  | nil => rfl
  | cons m ms ih => rw [placeMetas, List.length_cons, List.length_cons, ih]

/-- The two vectors for so many entries can be had: the entries are no more than `max_size` allows, and the allocator gives the room
for them and for their names. -/
structure Reservable (allocates : Allocator) (entryCount : Nat) : Prop where
  max : entryCount ≤ vectorMaxSize 40
  entries : entryCount = 0 ∨ allocates (40 * entryCount) = true
  names : entryCount = 0 ∨ allocates (2 * (15 * entryCount)) = true

/-- A vector takes a count or throws. -/
theorem reserve_cases (allocates : Allocator) (size n : Nat) :
    (n ≤ vectorMaxSize size ∧ (n = 0 ∨ allocates (size * n) = true) ∧ reserve allocates size n = .go ()) ∨
      (¬(n ≤ vectorMaxSize size ∧ (n = 0 ∨ allocates (size * n) = true)) ∧
        ∃ stop, stop ≠ .returnsFalse ∧ reserve allocates size n = .stop stop) := by
  rw [reserve]
  by_cases hmax : vectorMaxSize size < n
  · rw [if_pos hmax]
    exact .inr ⟨fun h => absurd h.1 (Nat.not_le.2 hmax), .lengthError, LoadStop.noConfusion, rfl⟩
  · rw [if_neg hmax]
    by_cases hgives : n = 0 ∨ allocates (size * n) = true
    · rw [if_pos hgives]
      exact .inl ⟨Nat.le_of_not_lt hmax, hgives, rfl⟩
    · rw [if_neg hgives]
      exact .inr ⟨fun h => hgives h.2, .badAlloc, LoadStop.noConfusion, rfl⟩

/-- What becomes of an entry count: a vector throws, the payload does not bear it out, or the reader goes on. -/
theorem result_checkEntryCount (allocates : Allocator) (hb : InUserSpace base payload.length) {pos : Nat}
    (hpos : pos ≤ payload.length) (entryCount : UInt64) :
    (¬Reservable allocates entryCount.toNat ∧
      ∃ stop, stop ≠ .returnsFalse ∧ (checkEntryCount allocates base payload pos entryCount).result = .error stop) ∨
    (Reservable allocates entryCount.toNat ∧
      (checkEntryCount allocates base payload pos entryCount).result =
        if payload.length < pos + diskEntrySize * entryCount.toNat then .error .returnsFalse else .ok ()) := by
  have hmax : vectorMaxSize 2 = 2 ^ 63 - 1 := by decide
  have hmax' : vectorMaxSize 40 = 461168601842738790 := by decide
  have hd : diskEntrySize = 24 := rfl
  rw [checkEntryCount, Run.result_bind_ok rfl, hd]
  rcases reserve_cases allocates 40 entryCount.toNat with ⟨hsmall, hentries, hgo⟩ | ⟨hnot, stop, hstop, hthrows⟩
  · obtain ⟨h15, h24⟩ := toNat_entryCount_mul entryCount (by omega)
    rw [hgo, Run.go_bind, h15, h24, Nat.mul_comm entryCount.toNat 15]
    rcases reserve_cases allocates 2 (15 * entryCount.toNat) with ⟨-, hnames, hgo'⟩ | ⟨hnot, stop, hstop, hthrows⟩
    · refine .inr ⟨⟨hsmall, hentries, hnames.imp_left (by omega)⟩, ?_⟩
      unfold InUserSpace at hb
      have hpast : pastEnd base payload.length pos (24 * entryCount.toNat) ↔ payload.length < pos + 24 * entryCount.toNat :=
        pastEnd_iff (by omega)
      rw [hgo', Run.go_bind, Run.result_bind_ok rfl]
      by_cases hcut : payload.length < pos + 24 * entryCount.toNat
      · rw [if_pos (hpast.2 hcut), if_pos hcut]
        rfl
      · rw [if_neg (fun h => hcut (hpast.1 h)), if_neg hcut]
        rfl
    · refine .inl ⟨fun h => hnot ⟨by omega, h.names.imp_left (by omega)⟩, stop, hstop, ?_⟩
      rw [hthrows]
      rfl
  · refine .inl ⟨fun h => hnot ⟨h.max, h.entries⟩, stop, hstop, ?_⟩
    rw [hthrows]
    rfl

/-- What the reader makes of a payload whose path pool it holds, by the entry count it is given: it throws, it returns false,
or it loads that many entries unless a record points outside the path pool. -/
theorem readPayload_cases (allocates : Allocator) (Γ : Locale) (hb : InUserSpace base payload.length)
    (hfit : 8 + 2 * pathPoolSizeOf payload ≤ payload.length) (entryCount timestamp : UInt64) (usnMap : UsnMap) :
    (¬Reservable allocates entryCount.toNat ∧ ∃ stop, stop ≠ .returnsFalse ∧
      (readPayload allocates Γ base payload entryCount timestamp usnMap).result = .error stop) ∨
    (Reservable allocates entryCount.toNat ∧
      payload.length < 8 + 2 * pathPoolSizeOf payload + diskEntrySize * entryCount.toNat ∧
      (readPayload allocates Γ base payload entryCount timestamp usnMap).result = .error .returnsFalse) ∨
    (Reservable allocates entryCount.toNat ∧
      8 + 2 * pathPoolSizeOf payload + diskEntrySize * entryCount.toNat ≤ payload.length ∧
      ((readPayload allocates Γ base payload entryCount timestamp usnMap).result = .error .outOfBounds ∨
        ∃ loaded, (readPayload allocates Γ base payload entryCount timestamp usnMap).result = .ok loaded ∧
          loaded.pool.entryMeta.length = entryCount.toNat)) := by
  have haddr : base + payload.length + 2 ^ 18 ≤ 2 ^ 64 := by
    unfold InUserSpace at hb
    omega
  rw [readPayload, readPathPool_of_fit (by omega) hfit, Run.go_bind]
  simp only
  rcases result_checkEntryCount allocates hb hfit entryCount with
    ⟨hnot, stop, hstop, hthrows⟩ | ⟨hreserved, hcheck⟩
  · exact .inl ⟨hnot, stop, hstop, Run.result_bind_error hthrows _⟩
  · by_cases hcut : payload.length < 8 + 2 * pathPoolSizeOf payload + diskEntrySize * entryCount.toNat
    · rw [if_pos hcut] at hcheck
      exact .inr (.inl ⟨hreserved, hcut, Run.result_bind_error hcheck _⟩)
    · rw [if_neg hcut] at hcheck
      refine .inr (.inr ⟨hreserved, by omega, ?_⟩)
      rw [Run.result_bind_ok hcheck, Run.result_bind_ok (result_readEntries 0 (by omega))]
      rcases hassign : (assignOffsets Γ (toWide (slice payload 8 (2 * pathPoolSizeOf payload)))
        (diskEntries payload entryCount.toNat (8 + 2 * pathPoolSizeOf payload) 0) 0 0).result with stop | r
      · rw [Run.result_bind_error hassign, stop_assignOffsets hassign]
        exact .inl rfl
      · obtain ⟨usnMap', husn⟩ := readUsnMap_go haddr usnMap
          (show 8 + 2 * pathPoolSizeOf payload + diskEntrySize * entryCount.toNat ≤ payload.length by omega)
        rw [Run.result_bind_ok hassign]
        simp only [husn, Run.go_bind]
        refine .inr ⟨_, rfl, ?_⟩
        rw [result_assignOffsets_eq hassign]
        simp only [length_placeMetas, length_diskEntries]

/-- The reader returns false exactly on an entry count that the vectors take and the payload does not bear out. -/
theorem readPayload_returnsFalse_iff (hb : InUserSpace base payload.length)
    (hfit : 8 + 2 * pathPoolSizeOf payload ≤ payload.length) {entryCount timestamp : UInt64} {usnMap : UsnMap} :
    (readPayload allocates Γ base payload entryCount timestamp usnMap).result = .error .returnsFalse ↔
      Reservable allocates entryCount.toNat ∧
        payload.length < 8 + 2 * pathPoolSizeOf payload + diskEntrySize * entryCount.toNat := by
  rcases readPayload_cases allocates Γ hb hfit entryCount timestamp usnMap with
    ⟨hnot, stop, hstop, h⟩ | ⟨hle, hcut, h⟩ | ⟨hle, hborne, h | ⟨loaded, h, -⟩⟩
  · rw [h]
    exact ⟨fun heq => absurd (Except.error.inj heq) hstop, fun hcut => absurd hcut.1 hnot⟩
  · exact ⟨fun _ => ⟨hle, hcut⟩, fun _ => h⟩
  · rw [h]
    exact ⟨nofun, fun hcut => by omega⟩
  · rw [h]
    exact ⟨nofun, fun hcut => by omega⟩

/-- What it loads are as many entries as the header says. -/
theorem length_readPayload (hb : InUserSpace base payload.length)
    (hfit : 8 + 2 * pathPoolSizeOf payload ≤ payload.length) {entryCount timestamp : UInt64} {usnMap : UsnMap}
    {loaded : Loaded} (h : (readPayload allocates Γ base payload entryCount timestamp usnMap).result = .ok loaded) :
    loaded.pool.entryMeta.length = entryCount.toNat := by
  rcases readPayload_cases allocates Γ hb hfit entryCount timestamp usnMap with
    ⟨-, stop, -, hstop⟩ | ⟨-, -, hstop⟩ | ⟨-, -, hstop | ⟨loaded', hok, hlen⟩⟩
  · rw [hstop] at h
    cases h
  · rw [hstop] at h
    cases h
  · rw [hstop] at h
    cases h
  · rw [hok, Except.ok.injEq] at h
    rw [← h, hlen]

/-- The time stamp of the header only comes back as it is. -/
theorem readPayload_timestamp {entryCount timestamp : UInt64} {usnMap : UsnMap} {loaded : Loaded}
    (h : (readPayload allocates Γ base payload entryCount timestamp usnMap).result = .ok loaded) (timestamp' : UInt64) :
    (readPayload allocates Γ base payload entryCount timestamp' usnMap).result = .ok { loaded with timestamp := timestamp' } := by
  unfold readPayload at h ⊢
  obtain ⟨⟨pathPool, pos⟩, hpool, h⟩ := Run.result_bind_eq_ok.1 h
  obtain ⟨u, hcount, h⟩ := Run.result_bind_eq_ok.1 h
  obtain ⟨ms, hms, h⟩ := Run.result_bind_eq_ok.1 h
  obtain ⟨⟨ms', names⟩, hplaced, h⟩ := Run.result_bind_eq_ok.1 h
  obtain ⟨usnMap', husn, h⟩ := Run.result_bind_eq_ok.1 h
  rw [Run.result_bind_ok hpool, Run.result_bind_ok hcount, Run.result_bind_ok hms, Run.result_bind_ok hplaced,
    Run.result_bind_ok husn]
  cases h
  rfl

/-- `Deserialize` rejects the altered file, or loads the entries and the USN map that it loads from the original. -/
def RejectedOrSame (allocates : Allocator) (Γ : Locale) (base : Nat) (file file' : List UInt8) : Prop :=
  (deserializeWith allocates Γ base file' .empty).result = .error .returnsFalse ∨
    ∃ loaded loaded', (deserializeWith allocates Γ base file .empty).result = .ok loaded ∧
      (deserializeWith allocates Γ base file' .empty).result = .ok loaded' ∧
      loaded'.pool.entryMeta.map loaded'.pool.reading = loaded.pool.entryMeta.map loaded.pool.reading ∧
      loaded'.usnMap = loaded.usnMap

/-- Behind a header that passes, what is read is the payload. -/
theorem deserializeWith_header_append (allocates : Allocator) (Γ : Locale) (base : Nat) {header' payload : List UInt8}
    (hheader : header'.length = headerSize) (usnMap : UsnMap) (h : Accepted (header' ++ payload)) :
    deserializeWith allocates Γ base (header' ++ payload) usnMap =
      readPayload allocates Γ base payload (entryCountOf (header' ++ payload)) (toU64 (slice (header' ++ payload) 6 8)) usnMap := by
  rw [deserializeWith_of_accepted allocates base usnMap h, List.drop_left' hheader]

/-- The payload that `Serialize` writes holds the path pool that it announces, and the entry count does not wrap. -/
theorem fit_payloadBytes {p : IndexPool} {usnMap : UsnMap} (hb : InUserSpace base (payloadBytes p usnMap).length) :
    pathPoolSizeOf (payloadBytes p usnMap) = p.pathPool.length ∧
      8 + 2 * pathPoolSizeOf (payloadBytes p usnMap) ≤ (payloadBytes p usnMap).length ∧
      (UInt64.ofNat p.liveMeta.length).toNat = p.liveMeta.length := by
  have hlen := le_length_payloadBytes p usnMap
  have hsmall : (payloadBytes p usnMap).length ≤ 2 ^ 47 := by
    unfold InUserSpace at hb
    omega
  have hsize : pathPoolSizeOf (payloadBytes p usnMap) = p.pathPool.length := pathPoolSizeOf_payloadBytes (by omega)
  refine ⟨hsize, by omega, ?_⟩
  unfold diskEntrySize at hlen
  exact UInt64.toNat_ofNat_of_lt' (show _ < 2 ^ 64 by omega)

/-- For every file that `Serialize` wrote and that loads, with any 26 bytes in place of its header: the altered file is
rejected or loads the same exactly when its magic, version or checksum does not pass, or its entry count is the one written,
or its entry count is one that the vectors take and the payload does not bear out. -/
theorem rejectedOrSame_iff (allocates : Allocator) (Γ : Locale) (base : Nat) (now : UInt64) (p : IndexPool) (usnMap : UsnMap)
    (header' : List UInt8) (hheader : header'.length = headerSize) (hmem : InUserSpace base (serialize now p usnMap).length)
    (hloads : ∃ loaded, (deserializeWith allocates Γ base (serialize now p usnMap) .empty).result = .ok loaded) :
    RejectedOrSame allocates Γ base (serialize now p usnMap) (header' ++ payloadBytes p usnMap) ↔
      ¬Accepted (header' ++ payloadBytes p usnMap) ∨
      (entryCountOf (header' ++ payloadBytes p usnMap)).toNat = p.liveMeta.length ∨
      (Reservable allocates (entryCountOf (header' ++ payloadBytes p usnMap)).toNat ∧
        (payloadBytes p usnMap).length <
          8 + 2 * p.pathPool.length + diskEntrySize * (entryCountOf (header' ++ payloadBytes p usnMap)).toNat) := by
  obtain ⟨loaded, hloaded⟩ := hloads
  have hb : InUserSpace base (payloadBytes p usnMap).length := by
    rw [length_serialize] at hmem
    unfold InUserSpace at hmem ⊢
    omega
  obtain ⟨hsize, hfit, hcount⟩ := fit_payloadBytes hb
  -- what the original loads
  have horig : (readPayload allocates Γ base (payloadBytes p usnMap) (UInt64.ofNat p.liveMeta.length)
      (toU64 (slice (serialize now p usnMap) 6 8)) .empty).result = .ok loaded := by
    rw [← hloaded, serialize, deserializeWith_header_append allocates Γ base (length_headerBytes _ _ _) .empty
      (accepted_headerBytes _ _ _), entryCountOf_headerBytes]
  have hentries : loaded.pool.entryMeta.length = p.liveMeta.length := (length_readPayload hb hfit horig).trans hcount
  by_cases haccepted : Accepted (header' ++ payloadBytes p usnMap)
  · have hread := deserializeWith_header_append allocates Γ base hheader .empty haccepted
    generalize header' ++ payloadBytes p usnMap = file' at haccepted hread ⊢
    unfold RejectedOrSame
    rw [hread, hloaded]
    constructor
    · rintro (hfalse | ⟨l, loaded', hl, hl', hsame, -⟩)
      · have hcut := (readPayload_returnsFalse_iff hb hfit).1 hfalse
        rw [hsize] at hcut
        exact .inr (.inr hcut)
      · rw [Except.ok.injEq] at hl
        subst hl
        have hlens := congrArg List.length hsame
        rw [List.length_map, List.length_map, hentries] at hlens
        exact .inr (.inl ((length_readPayload hb hfit hl').symm.trans hlens))
    · rintro (hnot | hsame | hcut)
      · exact absurd haccepted hnot
      · have heq : entryCountOf file' = UInt64.ofNat p.liveMeta.length := by
          apply UInt64.toNat_inj.1
          rw [hsame, hcount]
        rw [heq]
        exact .inr ⟨loaded, _, rfl, readPayload_timestamp horig _, rfl, rfl⟩
      · rw [← hsize] at hcut
        exact .inl ((readPayload_returnsFalse_iff hb hfit).2 hcut)
  · refine ⟨fun _ => .inl haccepted, fun _ => .inl ?_⟩
    rw [deserializeWith_of_not_accepted allocates base .empty haccepted]
    rfl

namespace CorruptionWitness

/-- The header with an entry count of zero. -/
def noEntry : List UInt8 := headerBytes 1 0 (crc32 (payloadBytes pool .empty))

/-- An allocator that gives up to 4 GiB. -/
def allocator : Allocator := fun bytes => decide (bytes ≤ 2 ^ 32)

/-- The number of entries a file loads. -/
def loadedCount (file : List UInt8) : Option Nat :=
  (deserializeWith allocator .c 0x10000 file .empty).result.toOption.map (fun loaded => loaded.pool.entryMeta.length)

theorem loadedCount_original : loadedCount (serialize 1 pool .empty) = some 1 := by decide +kernel

theorem loadedCount_noEntry : loadedCount (noEntry ++ payloadBytes pool .empty) = some 0 := by decide +kernel

theorem loads_original : ∃ loaded, (deserializeWith allocator .c 0x10000 (serialize 1 pool .empty) .empty).result = .ok loaded := by
  have h := loadedCount_original
  unfold loadedCount at h
  cases hr : (deserializeWith allocator .c 0x10000 (serialize 1 pool .empty) .empty).result with
  | error stop =>
    rw [hr] at h
    cases h
  | ok loaded => exact ⟨loaded, rfl⟩

theorem rejectedOrSame_iff_noEntry :
    RejectedOrSame allocator .c 0x10000 (serialize 1 pool .empty) (noEntry ++ payloadBytes pool .empty) ↔
      ¬Accepted (noEntry ++ payloadBytes pool .empty) ∨
      (entryCountOf (noEntry ++ payloadBytes pool .empty)).toNat = pool.liveMeta.length ∨
      (Reservable allocator (entryCountOf (noEntry ++ payloadBytes pool .empty)).toNat ∧
        (payloadBytes pool .empty).length <
          8 + 2 * pool.pathPool.length + diskEntrySize * (entryCountOf (noEntry ++ payloadBytes pool .empty)).toNat) :=
  rejectedOrSame_iff allocator .c 0x10000 1 pool .empty noEntry (by decide +kernel) (by decide +kernel) loads_original

end CorruptionWitness

/-- With the entry count lowered from one to zero, the file loads no entry. -/
theorem lowered_count_drops_entry :
    ¬RejectedOrSame CorruptionWitness.allocator .c 0x10000 (serialize 1 CorruptionWitness.pool .empty)
      (CorruptionWitness.noEntry ++ payloadBytes CorruptionWitness.pool .empty) := by
  have hcount := CorruptionWitness.loadedCount_original
  have hcount' := CorruptionWitness.loadedCount_noEntry
  unfold CorruptionWitness.loadedCount at hcount hcount'
  rintro (h | ⟨loaded, loaded', h, h', hsame, -⟩)
  · rw [h] at hcount'
    cases hcount'
  · rw [h] at hcount
    rw [h'] at hcount'
    have hone : loaded.pool.entryMeta.length = 1 := Option.some.inj hcount
    have hzero : loaded'.pool.entryMeta.length = 0 := Option.some.inj hcount'
    have hlens := congrArg List.length hsame
    rw [List.length_map, List.length_map] at hlens
    omega

end WinIndex
