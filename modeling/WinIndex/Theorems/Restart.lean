import WinIndex.Theorems.Persistence
import WinIndex.SearchEngine
import WinIndex.Theorems.Rebuild

/-!
# A restart after a rebuild

A rebuild publishes a pool without tombstones. Saved and loaded it is the same pool: the sums that the two passes of the
reader run are the offsets at which `AddEntry` put the texts, and the path tails they fold are the names it was given.
-/

namespace WinIndex

open Segments Tombstone Trace LittleEndian

/-! ## The layout of live records, record by record -/

/-- The metadata of a log whose first record is laid out at the given offsets. -/
def layoutFrom : List (Cell Record) → Nat → Nat → List EntryMeta
  | [], _, _ => []
  | c :: cs, pathOffset, nameLowerOffset =>
    layoutMeta c pathOffset nameLowerOffset ::
      layoutFrom cs (pathOffset + c.val.path.length) (nameLowerOffset + (nameOf c.val.path).length)

theorem getElem?_layoutFrom (Γ : Locale) (cs : List (Cell Record)) (o nl i : Nat) :
    (layoutFrom cs o nl)[i]? =
      cs[i]?.map (fun c => layoutMeta c (o + offset (paths cs) i) (nl + offset (lowerNames Γ cs) i)) := by
  induction cs generalizing o nl i with
  | nil => rfl
  | cons c cs ih =>
    rw [layoutFrom]
    rcases i with _ | i
    · simp [offset]
    · have hps : paths (c :: cs) = c.val.path :: paths cs := rfl
      have hns : lowerNames Γ (c :: cs) = Γ.lower (nameOf c.val.path) :: lowerNames Γ cs := rfl
      rw [List.getElem?_cons_succ, List.getElem?_cons_succ, ih, hps, hns, offset_cons_succ, offset_cons_succ,
        Locale.length_lower, Nat.add_assoc, Nat.add_assoc]

theorem entryMeta_layout (Γ : Locale) (cs : List (Cell Record)) : (IndexPool.layout Γ cs).entryMeta = layoutFrom cs 0 0 := by
  apply List.ext_getElem?
  intro i
  rw [IndexPool.getElem?_layout, getElem?_layoutFrom Γ, Nat.zero_add, Nat.zero_add]

/-- The name of a record is as long as its path behind the name start, in 16 bits too. -/
theorem ofNat_length_sub_nameStart {path : WString} (h : path.length < 2 ^ 16) :
    UInt16.ofNat path.length - UInt16.ofNat (nameStart path) = UInt16.ofNat (nameOf path).length := by
  have hle := nameStart_le path
  have hlen : (UInt16.ofNat path.length).toNat = path.length := UInt16.toNat_ofNat_of_lt' h
  have hstart : (UInt16.ofNat (nameStart path)).toNat = nameStart path := UInt16.toNat_ofNat_of_lt' (Nat.lt_of_le_of_lt hle h)
  apply UInt16.toNat_inj.1
  have hsub : (UInt16.ofNat (nameStart path)).toNat ≤ (UInt16.ofNat path.length).toNat := by omega
  rw [UInt16.toNat_sub_of_le _ _ hsub, hlen, hstart, UInt16.toNat_ofNat', length_nameOf]
  omega

/-- The running path offset after a record. -/
theorem ofNat_add_pathLen {path : WString} (h : path.length < 2 ^ 16) (o : Nat) :
    UInt32.ofNat o + (UInt16.ofNat path.length).toUInt32 = UInt32.ofNat (o + path.length) := by
  apply UInt32.toNat_inj.1
  rw [UInt32.toNat_add, UInt16.toNat_toUInt32, UInt16.toNat_ofNat_of_lt' h, UInt32.toNat_ofNat', UInt32.toNat_ofNat']
  omega

/-- The first pass keeps what a record laid out for a live cell says but for its offsets. -/
theorem nameLowerLen_reloadMeta_layoutMeta {c : Cell Record} (h : c.val.path.length < 2 ^ 16) (o nl n : Nat) :
    (reloadMeta (layoutMeta c o nl) n).nameLowerLen = UInt16.ofNat (nameOf c.val.path).length :=
  ofNat_length_sub_nameStart h

theorem toNat_nameLowerLen_reloadMeta_layoutMeta {c : Cell Record} (h : c.val.path.length < 2 ^ 16) (o nl n : Nat) :
    (reloadMeta (layoutMeta c o nl) n).nameLowerLen.toNat = (nameOf c.val.path).length := by
  rw [nameLowerLen_reloadMeta_layoutMeta h]
  refine UInt16.toNat_ofNat_of_lt' (show _ < 2 ^ 16 from ?_)
  rw [length_nameOf]
  omega

/-- The two passes place each live record where the layout has it. -/
theorem placeMetas_reload_layoutFrom {cs : List (Cell Record)} (hlive : ∀ c ∈ cs, c.live = true)
    (hp : ∀ c ∈ cs, c.val.path.length < 2 ^ 16) (o nl n : Nat) :
    placeMetas (reloadEntries (layoutFrom cs o nl) n) (UInt32.ofNat o) nl = layoutFrom cs o nl := by
  induction cs generalizing o nl n with
  | nil => rfl
  | cons c cs ih =>
    have hc := hp c (by simp)
    have hrest := fun o nl n => ih (fun x hx => hlive x (by simp [hx])) (fun x hx => hp x (by simp [hx])) o nl n
    have hplace : { reloadMeta (layoutMeta c o nl) n with
        pathOffset := UInt32.ofNat o, nameLowerOffset := UInt32.ofNat nl } = layoutMeta c o nl := by
      have hdel : (layoutMeta c o nl).deleted = false := by simp [layoutMeta, hlive c (by simp)]
      have hnll : (layoutMeta c o nl).pathLen - (layoutMeta c o nl).nameStart = (layoutMeta c o nl).nameLowerLen :=
        ofNat_length_sub_nameStart hc
      simp only [reloadMeta, hnll, ← hdel]
      rfl
    rw [layoutFrom, reloadEntries, placeMetas, hplace, toNat_nameLowerLen_reloadMeta_layoutMeta hc]
    have hnext : (reloadMeta (layoutMeta c o nl) n).pathLen = UInt16.ofNat c.val.path.length := rfl
    rw [hnext, ofNat_add_pathLen hc, hrest]

/-- The second pass folds the names the layout holds. -/
theorem placeNames_reload_layoutFrom {Γ : Locale} {cs : List (Cell Record)} (hp : ∀ c ∈ cs, c.val.path.length < 2 ^ 16)
    {pathPool : List WChar} (pre : List WChar) (hpool : pathPool = pre ++ (paths cs).flatten) (hsize : pathPool.length < 2 ^ 32)
    (nl n : Nat) :
    placeNames Γ pathPool (reloadEntries (layoutFrom cs pre.length nl) n) (UInt32.ofNat pre.length) =
      (lowerNames Γ cs).flatten := by
  induction cs generalizing pre nl n with
  | nil => rfl
  | cons c cs ih =>
    have hc := hp c (by simp)
    have hps : (paths (c :: cs)).flatten = c.val.path ++ (paths cs).flatten := rfl
    have hns : (lowerNames Γ (c :: cs)).flatten = Γ.lower (nameOf c.val.path) ++ (lowerNames Γ cs).flatten := rfl
    have hpre : (UInt32.ofNat pre.length).toNat = pre.length := by
      rw [hpool, List.length_append] at hsize
      exact UInt32.toNat_ofNat_of_lt' (show _ < 2 ^ 32 by omega)
    have hstart : (UInt16.ofNat (nameStart c.val.path)).toNat = nameStart c.val.path :=
      UInt16.toNat_ofNat_of_lt' (Nat.lt_of_le_of_lt (nameStart_le _) hc)
    have hname : slice pathPool (pre.length + nameStart c.val.path) (nameOf c.val.path).length = nameOf c.val.path := by
      have hwhole := (slice_mid [] c.val.path (paths cs).flatten rfl rfl : slice _ 0 c.val.path.length = _)
      have htail := drop_slice (c.val.path ++ (paths cs).flatten) 0 c.val.path.length (nameStart c.val.path)
      rw [List.nil_append] at hwhole
      rw [hwhole, Nat.zero_add] at htail
      rw [hpool, hps, slice_append_add, length_nameOf, ← htail, nameOf_eq_drop]
    have hlen := toNat_nameLowerLen_reloadMeta_layoutMeta hc pre.length nl n
    have hrest := ih (fun x hx => hp x (by simp [hx])) (pre ++ c.val.path) (by rw [hpool, hps, List.append_assoc])
      (nl + (nameOf c.val.path).length) (n + (nameOf c.val.path).length)
    rw [List.length_append] at hrest
    have hpathLen : (reloadMeta (layoutMeta c pre.length nl) n).pathLen = UInt16.ofNat c.val.path.length := rfl
    have hnameStart : (reloadMeta (layoutMeta c pre.length nl) n).nameStart = UInt16.ofNat (nameStart c.val.path) := rfl
    rw [layoutFrom, reloadEntries, placeNames, hlen, hpathLen, hnameStart, ofNat_add_pathLen hc, hpre, hstart, hname, hrest, hns]

/-! ## Save and Load -/

/-- A log without tombstones is read back as the pool it was laid out as. -/
theorem reloadedPool_layout {Γ : Locale} {cs : List (Cell Record)} (h : LogTexts cs) (hlive : ∀ c ∈ cs, c.live = true) :
    reloadedPool Γ (.layout Γ cs) = .layout Γ cs := by
  have hmeta : (IndexPool.layout Γ cs).liveMeta = layoutFrom cs 0 0 := by
    rw [IndexPool.liveMeta, ← entryMeta_layout Γ, List.filter_eq_self]
    intro m hm
    obtain ⟨i, hi, rfl⟩ := List.mem_mapIdx.1 hm
    simp [layoutMeta, hlive _ (List.getElem_mem hi)]
  rw [reloadedPool, hmeta]
  have hmetas := placeMetas_reload_layoutFrom hlive h.path 0 0 0
  have hpre : (paths cs).flatten = [] ++ (paths cs).flatten := rfl
  have hnames := placeNames_reload_layoutFrom (Γ := Γ) h.path [] hpre h.pool 0 0
  rw [← entryMeta_layout Γ] at hmetas
  rw [List.length_nil, ← entryMeta_layout Γ] at hnames
  rw [← entryMeta_layout Γ]
  show (⟨placeMetas _ (UInt32.ofNat 0) 0, placeNames Γ _ _ (UInt32.ofNat 0), (paths cs).flatten⟩ : IndexPool) = _
  rw [hmetas]
  show (⟨_, placeNames Γ (paths cs).flatten _ (UInt32.ofNat 0), (paths cs).flatten⟩ : IndexPool) = _
  rw [hnames]
  rfl

/-- Whatever USN map is saved with it, the layout of a log without tombstones is loaded as it was. -/
theorem load_save_layout {Γ : Locale} {cs : List (Cell Record)} (h : LogTexts cs) (hlive : ∀ c ∈ cs, c.live = true)
    {built : IndexStore} (hbuilt : built.pool = .layout Γ cs) (s : IndexStore) {base : Nat} (now : UInt64)
    (hmem : InUserSpace base (built.save now).length) :
    ∃ usnMap', s.load Γ base (built.save now) = .ok { s with pool := built.pool, usnMap := usnMap' } := by
  unfold IndexStore.save at hmem ⊢
  rw [hbuilt] at hmem ⊢
  have hin := (IndexPool.wellFormed_layout (Γ := Γ) h)
  have hnames : ∀ m ∈ (IndexPool.layout Γ cs).liveMeta, m.nameStart.toNat ≤ m.pathLen.toNat :=
    fun m hm => (hin m (List.mem_of_mem_filter hm)).name
  have hsum : ((IndexPool.layout Γ cs).liveMeta.map (fun m => m.pathLen.toNat)).sum ≤
      (IndexPool.layout Γ cs).pathPool.length := by
    rw [IndexPool.map_pathLen_liveMeta hin.pathsIn, ← List.length_flatten, IndexPool.live, IndexPool.records_layout h]
    exact length_live_paths_le cs
  have hle := le_length_payloadBytes (.layout Γ cs) built.usnMap
  have hspace : base + (payloadBytes (.layout Γ cs) built.usnMap).length + 2 ^ 18 ≤ 2 ^ 64 := by
    have hmem' := hmem
    rw [length_serialize, InUserSpace] at hmem'
    omega
  obtain ⟨usnMap', husn⟩ := readUsnMap_go hspace .empty hle
  refine ⟨usnMap', ?_⟩
  rw [IndexStore.load, deserialize_serialize_pool Γ now h.pool hnames hsum hmem.inMemory husn, reloadedPool_layout h hlive]

/-! ## The searches before and after -/

section

variable {ctx : SearchContext} {query : WString} {options : SearchOptions} {p : IndexPool} {beyond : Nat → WChar}

/-- Only the search for whole words by regex reads behind the path pool. -/
theorem entryTest_beyond (h : options.useRegex = true → options.wholeWord = true → beyond = ctx.beyond) (m : EntryMeta) :
    entryTest { ctx with beyond := beyond } query options p m = entryTest ctx query options p m := by
  by_cases hread : options.useRegex = true ∧ options.wholeWord = true
  · rw [h hread.1 hread.2]
  · cases hregex : options.useRegex with
    | false => simp only [entryTest, hregex, Bool.false_eq_true, if_false, substringTest]
    | true =>
      have hword : options.wholeWord = false := by simpa [hregex] using hread
      simp only [entryTest, hregex, if_true, regexTest, hword, Bool.false_eq_true, if_false]

theorem search_beyond (h : options.useRegex = true → options.wholeWord = true → beyond = ctx.beyond)
    (maxResults hardwareConcurrency : UInt32) (turns : List Fanout.Turn) :
    search { ctx with beyond := beyond } query options p maxResults hardwareConcurrency turns =
      search ctx query options p maxResults hardwareConcurrency turns := by
  have htest : searchTest { ctx with beyond := beyond } query options p = searchTest ctx query options p := by
    funext i
    simp only [searchTest, entryTest_beyond h]
  simp only [search, searchRegex, searchSubstring, htest]

end

/-- A restart after a rebuild does not change the index: for every list of scanned entries whose texts fit, the pool that
`Load` makes of the saved file is the pool that `EndWrite` published, array by array, and every search answers the same. What is
in memory behind the path pool may be something else then, unless the search is one for whole words by regex, which may read it. -/
theorem restart_after_rebuild (Γ : Locale) (s fresh : IndexStore) (perDrive : List (List FileEntry))
    (hw : ∀ e ∈ perDrive.flatten, e.WellNamed Γ) (hp : ∀ e ∈ perDrive.flatten, e.path.length < 2 ^ 16)
    (hpool : (perDrive.flatten.map FileEntry.path).flatten.length < 2 ^ 32) (base : Nat) (now : UInt64)
    (hmem : InUserSpace base ((final (StoreOp.run Γ) s (rebuildOps perDrive)).save now).length) :
    ∃ restarted, fresh.load Γ base ((final (StoreOp.run Γ) s (rebuildOps perDrive)).save now) = .ok restarted ∧
      restarted.pool = (final (StoreOp.run Γ) s (rebuildOps perDrive)).pool ∧
      ∀ ctx beyond query options maxResults hardwareConcurrency turns,
        (options.useRegex = true → options.wholeWord = true → beyond = ctx.beyond) →
        search { ctx with beyond := beyond } query options restarted.pool maxResults hardwareConcurrency turns =
          search ctx query options (final (StoreOp.run Γ) s (rebuildOps perDrive)).pool maxResults hardwareConcurrency turns := by
  have htexts : LogTexts (perDrive.flatten.map FileEntry.cell) := by
    refine ⟨?_, by rw [paths, List.map_map]; exact hpool⟩
    intro c hcell
    obtain ⟨e, he, rfl⟩ := List.mem_map.1 hcell
    exact hp e he
  have hlive : ∀ c ∈ perDrive.flatten.map FileEntry.cell, c.live = true := by
    intro c hcell
    obtain ⟨e, -, rfl⟩ := List.mem_map.1 hcell
    rfl
  have hbuilt := (pool_publish (Γ := Γ) s perDrive.flatten).trans (IndexPool.ofEntries_layout hw hp)
  obtain ⟨usnMap', hload⟩ := load_save_layout htexts hlive hbuilt fresh now hmem
  refine ⟨_, hload, rfl, ?_⟩
  intro ctx beyond query options maxResults hardwareConcurrency turns hbeyond
  exact search_beyond hbeyond maxResults hardwareConcurrency turns

namespace RestartWitness

/-- Two drives, `C:\` with two files and `D:\` with one. -/
def perDrive : List (List FileEntry) :=
  [[.ofPath .c (wide ['C', ':', '\\', 'A']) 3 5 0x20, .ofPath .c (wide ['C', ':', '\\', 'd', '\\', 'B', 'c']) 3 5 0x20],
    [.ofPath .c (wide ['D', ':', '\\', 'E']) 7 9 0x20]]

theorem restart_after_rebuild_drives :
    ∃ restarted, IndexStore.empty.load .c 0x10000 ((final (StoreOp.run .c) .empty (rebuildOps perDrive)).save 1) =
        .ok restarted ∧
      restarted.pool = (final (StoreOp.run .c) .empty (rebuildOps perDrive)).pool ∧
      ∀ ctx beyond query options maxResults hardwareConcurrency turns,
        (options.useRegex = true → options.wholeWord = true → beyond = ctx.beyond) →
        search { ctx with beyond := beyond } query options restarted.pool maxResults hardwareConcurrency turns =
          search ctx query options (final (StoreOp.run .c) .empty (rebuildOps perDrive)).pool maxResults hardwareConcurrency
            turns :=
  restart_after_rebuild .c .empty .empty perDrive (by decide +kernel) (by decide +kernel) (by decide +kernel) 0x10000 1
    (by decide +kernel)

end RestartWitness

end WinIndex
