import WinIndex.MftTable
import WinIndex.Lemmas.Scan
import WinIndex.Lib.PathTree

/-!
# The paths of a file table

`resolvePath` follows the parents of a record until one is absent or its own parent. It returns for every record exactly when
the parents make no other cycle, which the table of a volume never does, but the map may, when directories were moved while it
was read. Without cycles the scan reports every file once, under the names on the way to it.
-/

namespace WinIndex

open Trace

variable {Γ : Locale} {entries : List (UInt64 × MftEntry)} {root : WString} {excludedPaths : List WString}

/-! ## The way to a record -/

/-- The names of the records on the way down to one, itself included: neither a record that is absent nor one that is its own
parent contributes. -/
inductive NamesTo (entries : List (UInt64 × MftEntry)) : UInt64 → List WString → Prop where
  | absent {frn : UInt64} (h : entries.lookup frn = none) : NamesTo entries frn []
  | top {frn : UInt64} {e : MftEntry} (h : entries.lookup frn = some e) (hself : e.parentFrn = frn) : NamesTo entries frn []
  | child {frn : UInt64} {e : MftEntry} {names : List WString} (h : entries.lookup frn = some e) (hne : e.parentFrn ≠ frn)
      (hparent : NamesTo entries e.parentFrn names) : NamesTo entries frn (names ++ [e.name])

/-- The path of the directory that names lead to, with its trailing backslash. -/
def directoryPath (root : WString) (names : List WString) : WString := root ++ names.flatMap (· ++ [backslash])

/-- Whatever the names lead to, `resolvePath` returns it, given a call for each name and one more. -/
theorem resolvePathWithin_of_namesTo {frn : UInt64} {names : List WString} (h : NamesTo entries frn names) {fuel : Nat}
    (hfuel : names.length < fuel) : resolvePathWithin entries root fuel frn = some (directoryPath root names) := by
  induction h generalizing fuel with
  | absent hlookup =>
    obtain ⟨n, rfl⟩ := Nat.exists_eq_succ_of_ne_zero (Nat.ne_of_gt hfuel)
    rw [resolvePathWithin, hlookup]
    simp [directoryPath]
  | top hlookup hself =>
    obtain ⟨n, rfl⟩ := Nat.exists_eq_succ_of_ne_zero (Nat.ne_of_gt hfuel)
    rw [resolvePathWithin, hlookup]
    simp [directoryPath, hself]
  | child hlookup hne _ ih =>
    obtain ⟨n, rfl⟩ := Nat.exists_eq_succ_of_ne_zero (Nat.ne_of_gt (Nat.lt_of_le_of_lt (Nat.zero_le _) hfuel))
    rw [List.length_append, List.length_singleton] at hfuel
    rw [resolvePathWithin, hlookup]
    simp only [if_neg hne]
    rw [ih (by omega), Option.map_some]
    simp [directoryPath, List.append_assoc]

/-- What `resolvePath` returns is made of the names on the way. -/
theorem namesTo_of_resolvePathWithin {fuel : Nat} {frn : UInt64} {path : WString}
    (h : resolvePathWithin entries root fuel frn = some path) : ∃ names, NamesTo entries frn names := by
  induction fuel generalizing frn path with
  | zero => cases h
  | succ fuel ih =>
    rw [resolvePathWithin] at h
    cases hlookup : entries.lookup frn with
    | none => exact ⟨[], .absent hlookup⟩
    | some e =>
      rw [hlookup] at h
      simp only at h
      by_cases hself : e.parentFrn = frn
      · exact ⟨[], .top hlookup hself⟩
      · rw [if_neg hself, Option.map_eq_some_iff] at h
        obtain ⟨dir, hdir, -⟩ := h
        obtain ⟨names, hnames⟩ := ih hdir
        exact ⟨names ++ [e.name], .child hlookup hself hnames⟩

theorem resolvePathReturns_iff_namesTo {frn : UInt64} :
    ResolvePathReturns entries root frn ↔ ∃ names, NamesTo entries frn names := by
  constructor
  · rintro ⟨fuel, path, h⟩
    exact namesTo_of_resolvePathWithin h
  · rintro ⟨names, h⟩
    exact ⟨names.length + 1, _, resolvePathWithin_of_namesTo h (Nat.lt_succ_self _)⟩

/-! ## Parents -/

theorem parentLink_eq_some_iff {frn parent : UInt64} :
    parentLink entries frn = some parent ↔ ∃ e, entries.lookup frn = some e ∧ e.parentFrn ≠ frn ∧ e.parentFrn = parent := by
  rw [parentLink]
  cases entries.lookup frn with
  | none => simp
  | some e => by_cases h : e.parentFrn = frn <;> simp [h]

/-- A link leads away from a record of the map. -/
theorem mem_keys_of_parentLink {frn parent : UInt64} (h : parentLink entries frn = some parent) :
    frn ∈ entries.map Prod.fst := by
  obtain ⟨e, hlookup, -⟩ := parentLink_eq_some_iff.1 h
  exact List.mem_map_of_mem (f := Prod.fst) (Assoc.mem_of_lookup hlookup)

/-- There are names for the way to a record exactly when the way up ends. -/
theorem namesTo_iff_ends {frn : UInt64} : (∃ names, NamesTo entries frn names) ↔ Chain.Ends (parentLink entries) frn := by
  constructor
  · rintro ⟨names, h⟩
    induction h with
    | absent hlookup => exact .of_none (by simp [parentLink, hlookup])
    | top hlookup hself => exact .of_none (by simp [parentLink, hlookup, hself])
    | child hlookup hne _ ih => exact (Chain.ends_iff_of_link (parentLink_eq_some_iff.2 ⟨_, hlookup, hne, rfl⟩)).2 ih
  · intro h
    induction h with
    | intro frn _ ih =>
      cases hlookup : entries.lookup frn with
      | none => exact ⟨[], .absent hlookup⟩
      | some e =>
        by_cases hself : e.parentFrn = frn
        · exact ⟨[], .top hlookup hself⟩
        · obtain ⟨names, hnames⟩ := ih e.parentFrn (parentLink_eq_some_iff.2 ⟨e, hlookup, hself, rfl⟩)
          exact ⟨names ++ [e.name], .child hlookup hself hnames⟩

/-- For every record by itself: `resolvePath` returns exactly when the way up from it gets into no cycle. -/
theorem resolvePathReturns_iff {frn : UInt64} :
    ResolvePathReturns entries root frn ↔ ¬Chain.EntersCycle (parentLink entries) frn := by
  rw [resolvePathReturns_iff_namesTo, namesTo_iff_ends]
  exact Chain.ends_iff (entries.map Prod.fst) (fun _ _ => mem_keys_of_parentLink)

theorem ParentsAcyclic.namesTo (h : ParentsAcyclic entries) (frn : UInt64) : ∃ names, NamesTo entries frn names :=
  namesTo_iff_ends.2 (Chain.Acyclic.ends h (entries.map Prod.fst) (fun _ _ => mem_keys_of_parentLink) frn)

/-- A map all of whose paths can be resolved has no cycle. -/
theorem parentsAcyclic_of_returns (h : ∀ r ∈ entries, ResolvePathReturns entries root r.1) : ParentsAcyclic entries := by
  refine Chain.acyclic_of_ends (fun a b hab => (Chain.ends_iff_of_link hab).1 ?_)
  obtain ⟨r, hr, rfl⟩ := List.mem_map.1 (mem_keys_of_parentLink hab)
  exact namesTo_iff_ends.1 (resolvePathReturns_iff_namesTo.1 (h r hr))

theorem ParentsAcyclic.returns (h : ParentsAcyclic entries) (root : WString) (frn : UInt64) :
    ResolvePathReturns entries root frn :=
  resolvePathReturns_iff_namesTo.2 (h.namesTo frn)

/-- For every map that an enumeration may give: `resolvePath` returns for each of its records exactly when the parents make no
cycle but that of a record that is its own parent. -/
theorem resolvePath_returns_iff (entries : List (UInt64 × MftEntry)) (root : WString) :
    (∀ r ∈ entries, ResolvePathReturns entries root r.1) ↔ ParentsAcyclic entries :=
  ⟨parentsAcyclic_of_returns, fun h r _ => h.returns root r.1⟩

/-! ## Reading while nothing moves -/

/-- What the map holds of each record is what the table holds. -/
def VolumeScan.ReadFromTable (s : VolumeScan) : Prop := ∀ frn e, s.entries.lookup frn = some e → s.table.lookup frn = some e

/-- A call keeps it. -/
theorem VolumeScan.readFromTable_deviceIoControl {s : VolumeScan} (hnodup : (s.volume.map UsnRecord.fileReferenceNumber).Nodup)
    (h : s.ReadFromTable) (count : Nat) : (s.step (.deviceIoControl count)).ReadFromTable := by
  rw [VolumeScan.step]
  split
  · exact h
  · intro frn e hlookup
    rcases lookup_readBuffer hlookup with hbefore | ⟨record, hmem, hname, rfl, rfl⟩
    · exact h frn e hbefore
    · exact lookup_readBuffer_of_mem hnodup (List.mem_of_mem_filter (List.mem_of_mem_take hmem)) hname

/-- A call leaves the volume as it is. -/
theorem VolumeScan.volume_deviceIoControl (s : VolumeScan) (count : Nat) : (s.step (.deviceIoControl count)).volume = s.volume := by
  rw [VolumeScan.step]
  split <;> rfl

/-- What a whole enumeration keeps while nothing moves. -/
theorem VolumeScan.read_still {volume : List UsnRecord} (hnodup : (volume.map UsnRecord.fileReferenceNumber).Nodup)
    (counts : List Nat) :
    (final VolumeScan.step (VolumeScan.start volume) (counts.map VolumeEvent.deviceIoControl)).volume = volume ∧
      (final VolumeScan.step (VolumeScan.start volume) (counts.map VolumeEvent.deviceIoControl)).ReadFromTable := by
  have hcalls : ∀ l ∈ counts.map VolumeEvent.deviceIoControl, ∃ count, l = .deviceIoControl count := by
    intro l hl
    obtain ⟨count, -, rfl⟩ := List.mem_map.1 hl
    exact ⟨count, rfl⟩
  have halong := along_of_step (P := fun s => s.volume = volume ∧ s.ReadFromTable) (f := VolumeScan.step)
    (s := VolumeScan.start volume) ?_ ⟨rfl, fun _ _ h => by cases h⟩ (meets_of_forall_mem hcalls)
  · exact halong.final
  rintro s l ⟨hvolume, hread⟩ ⟨count, rfl⟩
  exact ⟨(s.volume_deviceIoControl count).trans hvolume, readFromTable_deviceIoControl (by rwa [hvolume]) hread count⟩

/-- A volume that is a tree and does not change while it is read gives a map whose paths can all be resolved. -/
theorem resolvePath_returns_of_still {volume : List UsnRecord} (hnodup : (volume.map UsnRecord.fileReferenceNumber).Nodup)
    (htree : (VolumeScan.start volume).IsTree) (root : WString) (counts : List Nat) :
    ∀ r ∈ (final VolumeScan.step (VolumeScan.start volume) (counts.map VolumeEvent.deviceIoControl)).entries,
      ResolvePathReturns (final VolumeScan.step (VolumeScan.start volume) (counts.map VolumeEvent.deviceIoControl)).entries
        root r.1 := by
  obtain ⟨hvolume, hmap⟩ := VolumeScan.read_still hnodup counts
  have hacyclic : ParentsAcyclic (final VolumeScan.step (VolumeScan.start volume)
      (counts.map VolumeEvent.deviceIoControl)).entries := Chain.Acyclic.mono htree ?_
  · exact fun r _ => hacyclic.returns root r.1
  intro frn parent hlink
  obtain ⟨e, hlookup, hne, hparent⟩ := parentLink_eq_some_iff.1 hlink
  have htable := hmap frn e hlookup
  rw [VolumeScan.table, hvolume] at htable
  exact parentLink_eq_some_iff.2 ⟨e, htable, hne, hparent⟩

/-! ## Reading while directories are moved -/

/-- A map whose paths can be resolved has no cycle. -/
theorem parentsAcyclic_of_resolved (fuel : Nat) (h : ∀ r ∈ entries, (resolvePathWithin entries [] fuel r.1).isSome) :
    ParentsAcyclic entries :=
  parentsAcyclic_of_returns (fun r hr => ⟨fuel, Option.isSome_iff_exists.1 (h r hr)⟩)

namespace MovedDirectories

/-- A volume with the directory `a` in the directory `b`, and a file `f` in `a`. -/
def volume : List UsnRecord :=
  [⟨5, 5, 0x10, wide ['.']⟩, ⟨40, 50, 0x10, wide ['a']⟩, ⟨50, 5, 0x10, wide ['b']⟩, ⟨60, 40, 0x20, wide ['f']⟩]

/-- The first buffer ends with `a`. Then `a` is moved to the root and `b` into `a`, and the rest is read. -/
def run : List VolumeEvent := [.deviceIoControl 2, .move 40 5, .move 50 40, .deviceIoControl 2, .deviceIoControl 1]

/-- The map has each of the two directories in the other. -/
theorem lookup_entries :
    ((final VolumeScan.step (VolumeScan.start volume) run).entries.lookup 40).map MftEntry.parentFrn = some 50 ∧
      ((final VolumeScan.step (VolumeScan.start volume) run).entries.lookup 50).map MftEntry.parentFrn = some 40 := by
  decide +kernel

/-- At every moment the directories are a tree. -/
theorem along_isTree : Along VolumeScan.IsTree VolumeScan.step (VolumeScan.start volume) run := by
  simp only [run, along_cons, along_nil]
  refine ⟨?_, ?_, ?_, ?_, ?_, ?_⟩ <;> exact parentsAcyclic_of_resolved 4 (by decide +kernel)

end MovedDirectories

/-- Two moves between two buffers: the map then has two directories each in the other, and `resolvePath` returns for neither of
them, although the volume was a tree at every moment. -/
theorem resolvePath_does_not_return :
    ¬∀ (volume : List UsnRecord) (run : List VolumeEvent) (root : WString),
      (volume.map UsnRecord.fileReferenceNumber).Pairwise (· < ·) →
      Along VolumeScan.IsTree VolumeScan.step (VolumeScan.start volume) run →
      ∀ r ∈ (final VolumeScan.step (VolumeScan.start volume) run).entries,
        ResolvePathReturns (final VolumeScan.step (VolumeScan.start volume) run).entries root r.1 := by
  intro h
  have hacyclic := parentsAcyclic_of_returns
    (h MovedDirectories.volume MovedDirectories.run [] (by decide) MovedDirectories.along_isTree)
  obtain ⟨ha, hb⟩ := MovedDirectories.lookup_entries
  obtain ⟨a, hlookup, hparent⟩ := Option.map_eq_some_iff.1 ha
  obtain ⟨b, hlookup', hparent'⟩ := Option.map_eq_some_iff.1 hb
  refine hacyclic 40 (.tail (.single (parentLink_eq_some_iff.2 ⟨a, hlookup, ?_, hparent⟩))
    (parentLink_eq_some_iff.2 ⟨b, hlookup', ?_, hparent'⟩))
  · rw [hparent]
    decide
  · rw [hparent']
    decide

/-! ## What a scan reports -/

/-- The way to a record has one list of names. -/
theorem NamesTo.unique {frn : UInt64} {names names' : List WString} (h : NamesTo entries frn names)
    (h' : NamesTo entries frn names') : names = names' := by
  induction h generalizing names' with
  | absent hlookup =>
    rcases h' with _ | ⟨hlookup', -⟩ | ⟨hlookup', -, -⟩
    · rfl
    · exact absurd (hlookup.symm.trans hlookup') (by simp)
    · exact absurd (hlookup.symm.trans hlookup') (by simp)
  | top hlookup hself =>
    rcases h' with hlookup' | - | ⟨hlookup', hne', -⟩
    · exact absurd (hlookup.symm.trans hlookup') (by simp)
    · rfl
    · rw [hlookup, Option.some.injEq] at hlookup'
      exact absurd (hlookup' ▸ hself) hne'
  | child hlookup hne _ ih =>
    rcases h' with hlookup' | ⟨hlookup', hself'⟩ | ⟨hlookup', -, hparent'⟩
    · exact absurd (hlookup.symm.trans hlookup') (by simp)
    · rw [hlookup, Option.some.injEq] at hlookup'
      exact absurd (hlookup' ▸ hself') hne
    · rw [hlookup, Option.some.injEq] at hlookup'
      subst hlookup'
      rw [ih hparent']

/-- The path of a record: the root, and the names on the way with single backslashes between them. -/
def TruePath (entries : List (UInt64 × MftEntry)) (root : WString) (e : MftEntry) (path : WString) : Prop :=
  ∃ names, NamesTo entries e.parentFrn names ∧ path = root ++ [backslash].intercalate (names ++ [e.name])

/-- A file entry is that of a record: it has the record's path, and for its name what is behind the last backslash. -/
structure ReportedAs (Γ : Locale) (entries : List (UInt64 × MftEntry)) (root : WString) (r : UInt64 × MftEntry)
    (fe : FileEntry) : Prop where
  path : TruePath entries root r.2 fe.path
  name : fe.name = nameOf fe.path
  nameLower : fe.nameLower = Γ.lower fe.name
  size : fe.size = 0
  lastModified : fe.lastModified = 0
  attributes : fe.attributes = r.2.attributes

/-- A record is one that the scan reports. -/
def Reportable (Γ : Locale) (entries : List (UInt64 × MftEntry)) (excludedPaths : List WString) (root : WString)
    (e : MftEntry) : Prop :=
  e.isDirectory = false ∧ ∃ path, TruePath entries root e path ∧ isExcluded Γ path excludedPaths = false

theorem truePath_iff {e : MftEntry} {names : List WString} (h : NamesTo entries e.parentFrn names) {path : WString} :
    TruePath entries root e path ↔ path = directoryPath root names ++ e.name := by
  have hpath : root ++ [backslash].intercalate (names ++ [e.name]) = directoryPath root names ++ e.name := by
    rw [PathTree.intercalate_concat, directoryPath, List.append_assoc]
  constructor
  · rintro ⟨names', h', rfl⟩
    rw [h'.unique h, hpath]
  · rintro rfl
    exact ⟨names, h, hpath.symm⟩

/-- The second loop, where every directory has been resolved: the files among the entries that are not excluded, in order. -/
theorem MftScanner.emitEntries_eq (dir : UInt64 → WString) {fuel : Nat} {rest : List (UInt64 × MftEntry)}
    (hdir : ∀ r ∈ rest, resolvePathWithin entries root fuel r.2.parentFrn = some (dir r.2.parentFrn)) :
    emitEntries Γ entries excludedPaths root fuel rest =
      some ((rest.filter (fun r => !r.2.isDirectory &&
        !WinIndex.isExcluded Γ (dir r.2.parentFrn ++ r.2.name) excludedPaths)).map
          (fun r => r.2.entryIn Γ (dir r.2.parentFrn))) := by
  induction rest with
  | nil => rfl
  | cons r rest ih =>
    obtain ⟨frn, entry⟩ := r
    have hrest := ih (fun r hr => hdir r (by simp [hr]))
    rw [emitEntries, hdir (frn, entry) (by simp), hrest]
    simp only [MftScanner.isExcluded, List.filter_cons]
    by_cases hd : entry.isDirectory = true
    · simp [hd]
    · by_cases hex : WinIndex.isExcluded Γ (dir entry.parentFrn ++ entry.name) excludedPaths = true
      · simp [hd, hex]
      · simp [hd, hex]

/-- The name of a file whose directory's path ends in a backslash. -/
theorem nameOf_directoryPath {name : WString} (hroot : root.getLast? = some backslash) (hname : backslash ∉ name)
    (names : List WString) : nameOf (directoryPath root names ++ name) = name := by
  have hlast : (directoryPath root names).getLast? = some backslash := by
    rcases List.eq_nil_or_concat names with rfl | ⟨names', n, rfl⟩
    · simpa [directoryPath] using hroot
    · rw [directoryPath, List.concat_eq_append, List.flatMap_append, List.flatMap_singleton, ← List.append_assoc,
        ← List.append_assoc]
      simp
  obtain ⟨d, hd⟩ := List.getLast?_eq_some_iff.1 hlast
  rw [nameOf, hd, List.append_assoc, List.singleton_append, rfind_append_cons d hname]
  simp

/-- For every map of numbers to records whose parents make no cycle but that of a record that is its own parent: the scan of a
drive ends and reports each file that is not excluded once, with its true path and the name at its end, and nothing else. -/
theorem scanVolume_reports_each_file_once (Γ : Locale) {entries : List (UInt64 × MftEntry)} {root : WString}
    (hkeys : (entries.map Prod.fst).Nodup) (hparents : ParentsAcyclic entries) (hnames : ∀ r ∈ entries, backslash ∉ r.2.name)
    (hroot : ∃ letter, root = [letter, 0x3A, backslash]) (excludedPaths : List WString) :
    ∃ files, (∃ fuel, ∀ more ≥ fuel, MftScanner.scanVolume Γ entries excludedPaths root more = some files) ∧
      ∃ records : List (UInt64 × MftEntry), records.Nodup ∧
        (∀ r, r ∈ records ↔ r ∈ entries ∧ Reportable Γ entries excludedPaths root r.2) ∧
        List.Forall₂ (ReportedAs Γ entries root) records files := by
  choose names hway using hparents.namesTo
  let dir : UInt64 → WString := fun frn => directoryPath root (names frn)
  let keep : UInt64 × MftEntry → Bool := fun r =>
    !r.2.isDirectory && !isExcluded Γ (dir r.2.parentFrn ++ r.2.name) excludedPaths
  have hlast : root.getLast? = some backslash := by
    obtain ⟨letter, rfl⟩ := hroot
    rfl
  refine ⟨(entries.filter keep).map (fun r => r.2.entryIn Γ (dir r.2.parentFrn)),
    ⟨(entries.map (fun r => (names r.2.parentFrn).length + 1)).sum, fun more hmore => ?_⟩, entries.filter keep, ?_, ?_, ?_⟩
  · -- there is a call for every name on the way to every record
    refine MftScanner.emitEntries_eq dir (fun r hr => resolvePathWithin_of_namesTo (hway r.2.parentFrn) ?_)
    have := List.le_sum_of_mem
      (List.mem_map_of_mem (f := fun r : UInt64 × MftEntry => (names r.2.parentFrn).length + 1) hr)
    omega
  · exact (List.Nodup.of_map Prod.fst hkeys).filter keep
  · intro r
    rw [List.mem_filter, Reportable]
    refine and_congr_right (fun _ => ?_)
    simp only [keep, Bool.and_eq_true, Bool.not_eq_true', truePath_iff (hway r.2.parentFrn), exists_eq_left]
    rfl
  · rw [List.forall₂_map_right_iff, List.forall₂_same]
    intro r hr
    exact {
      path := (truePath_iff (hway r.2.parentFrn)).2 rfl
      name := (nameOf_directoryPath hlast (hnames r (List.mem_of_mem_filter hr)) (names r.2.parentFrn)).symm
      nameLower := rfl
      size := rfl
      lastModified := rfl
      attributes := rfl }

namespace SmallTable

/-- A table with a file in a directory, and one whose parent has no record. -/
def table : List (UInt64 × MftEntry) :=
  [(5, ⟨wide ['.'], 5, 0x10⟩), (40, ⟨wide ['a'], 5, 0x10⟩), (60, ⟨wide ['f'], 40, 0x20⟩), (70, ⟨wide ['g'], 99, 0x20⟩)]

/-- The scan of the table reports both files. -/
theorem scanVolume_reports_each_file_once_table :
    ∃ files, (∃ fuel, ∀ more ≥ fuel,
        MftScanner.scanVolume .c table [] (wide ['C', ':', '\\']) more = some files) ∧
      ∃ records : List (UInt64 × MftEntry), records.Nodup ∧
        (∀ r, r ∈ records ↔ r ∈ table ∧ Reportable .c table [] (wide ['C', ':', '\\']) r.2) ∧
        List.Forall₂ (ReportedAs .c table (wide ['C', ':', '\\'])) records files :=
  scanVolume_reports_each_file_once .c (by decide) (parentsAcyclic_of_resolved 4 (by decide +kernel)) (by decide)
    ⟨0x43, by decide⟩ []

end SmallTable

/-! ## The table of a volume -/

/-- On a volume the two readings of `resolvePath` are one. -/
theorem resolvePathWithin_eq_resolvePath (m : MftVolume) (root : WString) {frn : UInt64} {fuel : Nat} (h : m.depth frn < fuel) :
    resolvePathWithin m.entries root fuel frn = some (resolvePath m.entries root (m.depth frn + 1) frn) := by
  induction fuel generalizing frn with
  | zero => cases h
  | succ fuel ih =>
    rw [resolvePathWithin]
    cases hlookup : m.entries.lookup frn with
    | none => rw [resolvePath, hlookup]
    | some e =>
      simp only
      by_cases hself : e.parentFrn = frn
      · rw [if_pos hself, resolvePath, hlookup]
        simp [hself]
      · have hlt := m.depth_parent frn e hlookup hself
        rw [if_neg hself, ih (by omega), resolvePath_depth m root hlookup hself (Nat.le_refl _), Option.map_some]

/-- The scan of a volume is `ScanVolume` of its table. -/
theorem MftScanner.scanVolume_eq_scan {fs : FileSystem} {m : MftVolume} (hm : fs.mftOf root = some m) :
    ∃ fuel, ∀ more ≥ fuel, scanVolume Γ m.entries excludedPaths root more =
      some (MftScanner.scan Γ fs excludedPaths root) := by
  refine ⟨(m.entries.map (fun r => m.depth r.2.parentFrn + 1)).sum, fun more hmore => ?_⟩
  rw [scanVolume, emitEntries_eq (fun frn => resolvePath m.entries root (m.depth frn + 1) frn)]
  · rw [MftScanner.scan, hm]
    simp only
    rw [List.filter_map, List.filter_filter]
    refine congrArg (fun l => some (List.map _ l)) (List.filter_congr (fun r _ => ?_))
    simp [MftEntry.isDirectory, MftEntry.entry, MftScanner.isExcluded, Bool.and_comm]
  · intro r hr
    have := List.le_sum_of_mem
      (List.mem_map_of_mem (f := fun r : UInt64 × MftEntry => m.depth r.2.parentFrn + 1) hr)
    exact resolvePathWithin_eq_resolvePath m root (by omega)

end WinIndex
