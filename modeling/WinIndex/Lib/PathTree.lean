import WinIndex.Lib.Assoc

/-!
# Trees given by their paths

A tree as a file system shows it: a partial map from paths, lists with a separator, to nodes, some of which are directories.
The map is closed: whatever is above a node is a directory. The operations give nothing where a file system fails.
-/

namespace PathTree

variable {α ν : Type*}

/-- A path is strictly below a directory. -/
def Below (sep : α) (dir path : List α) : Prop := dir ++ [sep] <+: path

/-- A path is a given one, or below it. -/
def Within (sep : α) (dir path : List α) : Prop := path = dir ∨ Below sep dir path

instance [DecidableEq α] (sep : α) (dir path : List α) : Decidable (Below sep dir path) :=
  inferInstanceAs (Decidable (_ <+: _))

instance [DecidableEq α] (sep : α) (dir path : List α) : Decidable (Within sep dir path) :=
  inferInstanceAs (Decidable (_ ∨ _))

/-- A tree: above every node there are directories. -/
structure Tree (sep : α) (isDir : ν → Bool) where
  node : List α → Option ν
  closed : ∀ dir path, Below sep dir path → (node path).isSome → ∃ n, node dir = some n ∧ isDir n = true

variable {sep : α} {isDir : ν → Bool}

/-- There is a directory at the path. -/
def Tree.IsDir (t : Tree sep isDir) (path : List α) : Prop := ∃ n, t.node path = some n ∧ isDir n = true

/-- There is a node at the path that is not a directory. -/
def Tree.IsFile (t : Tree sep isDir) (path : List α) : Prop := ∃ n, t.node path = some n ∧ isDir n = false

/-- Everything above the path is a directory. -/
def Tree.HasParents (t : Tree sep isDir) (path : List α) : Prop := ∀ dir, Below sep dir path → t.IsDir dir

/-! ## Paths below others -/

theorem Below.length_lt {dir path : List α} (h : Below sep dir path) : dir.length < path.length := by
  have := List.IsPrefix.length_le h
  simpa using this

theorem Below.trans {a b c : List α} (hab : Below sep a b) (hbc : Below sep b c) : Below sep a c :=
  (List.IsPrefix.trans hab (List.prefix_append b [sep])).trans hbc

/-- What is within a directory is the directory followed by the rest of the path. -/
theorem Within.eq_append {dir path : List α} (h : Within sep dir path) : path = dir ++ path.drop dir.length := by
  rcases h with rfl | ⟨rest, rfl⟩
  · simp
  · simp [List.append_assoc]

/-- Below the same paths whatever they are within. -/
theorem below_append_iff {dir rest rest' : List α} : Below sep (dir ++ rest) (dir ++ rest') ↔ rest ++ [sep] <+: rest' := by
  rw [Below, List.append_assoc, List.prefix_append_right_inj]

/-- Of two directories a path is below, the one is within the other. -/
theorem Below.within_or_below {a b path : List α} (ha : Below sep a path) (hb : Below sep b path) :
    Within sep b a ∨ Below sep a b := by
  rcases Nat.lt_trichotomy a.length b.length with hlt | heq | hgt
  · refine .inr (List.prefix_of_prefix_length_le ha (List.IsPrefix.trans (List.prefix_append b [sep]) hb) ?_)
    simpa using hlt
  · have hab := List.prefix_of_prefix_length_le ha hb (by simp [heq])
    have := List.append_cancel_right (hab.eq_of_length (by simp [heq]))
    exact .inl (.inl this)
  · refine .inl (.inr (List.prefix_of_prefix_length_le hb (List.IsPrefix.trans (List.prefix_append a [sep]) ha) ?_))
    simpa using hgt

/-- What is below something within a directory is below the directory. -/
theorem Within.below {a b c : List α} (hab : Within sep a b) (hbc : Below sep b c) : Below sep a c := by
  rcases hab with rfl | hab
  · exact hbc
  · exact hab.trans hbc

/-! ## Paths put together from names -/

/-- Names with a separator between them are all but the last with the separator behind, and the last. -/
theorem intercalate_concat (sep : α) (names : List (List α)) (name : List α) :
    [sep].intercalate (names ++ [name]) = names.flatMap (· ++ [sep]) ++ name := by
  induction names with
  | nil => simp
  | cons n names ih =>
    rw [List.cons_append, List.intercalate_cons_of_ne_nil (by simp), ih, List.flatMap_cons]
    simp [List.append_assoc]

/-- Names without the separator can be read off the path they make. -/
theorem intercalate_inj [DecidableEq α] {names names' : List (List α)} (hn : names ≠ []) (hn' : names' ≠ [])
    (hsep : ∀ n ∈ names, sep ∉ n) (hsep' : ∀ n ∈ names', sep ∉ n) (h : [sep].intercalate names = [sep].intercalate names') :
    names = names' := by
  rw [← List.splitOn_intercalate sep hsep hn, h, List.splitOn_intercalate sep hsep' hn']

/-! ## Components -/

/-- Two lists of names put together are what each makes, with the separator between. -/
theorem intercalate_append (sep : α) {names names' : List (List α)} (hn : names ≠ []) (hn' : names' ≠ []) :
    [sep].intercalate (names ++ names') = [sep].intercalate names ++ sep :: [sep].intercalate names' := by
  induction names with
  | nil => exact absurd rfl hn
  | cons n names ih =>
    cases names with
    | nil => rw [List.singleton_append, List.intercalate_cons_of_ne_nil hn']; simp
    | cons m names =>
      have hcons : ∀ l : List (List α), l ≠ [] → [sep].intercalate (n :: l) = n ++ sep :: [sep].intercalate l := by
        intro l hl
        rw [List.intercalate_cons_of_ne_nil hl, List.append_assoc, List.singleton_append]
      rw [List.cons_append, hcons _ (by simp), ih (by simp), hcons _ (by simp), List.append_assoc, List.cons_append]

/-- What is below a directory has the components of the directory, and more behind them. -/
theorem below_iff_splitOn [DecidableEq α] {dir path : List α} :
    Below sep dir path ↔ dir.splitOn sep <+: path.splitOn sep ∧ (dir.splitOn sep).length < (path.splitOn sep).length := by
  constructor
  · rintro ⟨rest, rfl⟩
    have hpos : 0 < (rest.splitOn sep).length := List.length_pos_iff.2 (List.splitOn_ne_nil _ _)
    rw [List.append_assoc, List.singleton_append, List.splitOn_append_cons_self, List.length_append]
    exact ⟨List.prefix_append _ _, by omega⟩
  · rintro ⟨⟨names, hnames⟩, hlt⟩
    have hne : names ≠ [] := by
      rintro rfl
      rw [← hnames, List.append_nil] at hlt
      exact Nat.lt_irrefl _ hlt
    refine ⟨[sep].intercalate names, ?_⟩
    calc dir ++ [sep] ++ [sep].intercalate names
        = [sep].intercalate (dir.splitOn sep) ++ sep :: [sep].intercalate names := by
          rw [List.intercalate_splitOn, List.append_assoc, List.singleton_append]
      _ = [sep].intercalate (path.splitOn sep) := by
          rw [← intercalate_append sep (List.splitOn_ne_nil _ _) hne, hnames]
      _ = path := List.intercalate_splitOn sep

/-- A map that keeps the separator, and makes none, maps the components. -/
theorem splitOn_map [DecidableEq α] {f : α → α} (hf : ∀ c, f c = sep ↔ c = sep) (path : List α) :
    (path.map f).splitOn sep = (path.splitOn sep).map (List.map f) := by
  induction path with
  | nil => rfl
  | cons c cs ih =>
    rw [List.map_cons, List.splitOn_cons_eq_if_modifyHead, List.splitOn_cons_eq_if_modifyHead, ih]
    by_cases hc : c = sep
    · rw [if_pos (beq_iff_eq.2 ((hf c).2 hc)), if_pos (beq_iff_eq.2 hc)]
      rfl
    · rw [if_neg (mt beq_iff_eq.1 (mt (hf c).1 hc)), if_neg (mt beq_iff_eq.1 hc)]
      cases h : cs.splitOn sep with
      | nil => exact absurd h (List.splitOn_ne_nil _ _)
      | cons n names => rfl

/-! ## What a tree has no room for -/

/-- Nothing is below a path that is not a directory. -/
theorem Tree.node_eq_none_of_below (t : Tree sep isDir) {dir path : List α} (hdir : ¬t.IsDir dir) (h : Below sep dir path) :
    t.node path = none := by
  by_contra hsome
  exact hdir (t.closed dir path h (Option.isSome_iff_ne_none.2 hsome))

theorem Tree.not_isDir_of_isFile {t : Tree sep isDir} {path : List α} (h : t.IsFile path) : ¬t.IsDir path := by
  obtain ⟨n, hn, hfile⟩ := h
  rintro ⟨n', hn', hdir⟩
  rw [hn, Option.some.injEq] at hn'
  rw [← hn', hfile] at hdir
  cases hdir

theorem Tree.not_isDir_of_none {t : Tree sep isDir} {path : List α} (h : t.node path = none) : ¬t.IsDir path := by
  rintro ⟨n, hn, -⟩
  rw [h] at hn
  cases hn

theorem Tree.not_isFile_of_none {t : Tree sep isDir} {path : List α} (h : t.node path = none) : ¬t.IsFile path := by
  rintro ⟨n, hn, -⟩
  rw [h] at hn
  cases hn

/-! ## Executable tests -/

/-- The directories a path is below. -/
def ancestors [DecidableEq α] (sep : α) (path : List α) : List (List α) :=
  (List.range path.length).filterMap (fun n => if path[n]? = some sep then some (path.take n) else none)

theorem mem_ancestors [DecidableEq α] {dir path : List α} : dir ∈ ancestors sep path ↔ Below sep dir path := by
  simp only [ancestors, List.mem_filterMap, List.mem_range]
  constructor
  · rintro ⟨n, hn, h⟩
    split at h
    · rename_i hsep
      rw [Option.some.injEq] at h
      refine ⟨path.drop (n + 1), ?_⟩
      have hget : path[n] = sep := by
        rw [List.getElem?_eq_getElem hn, Option.some.injEq] at hsep
        exact hsep
      rw [← h, ← hget, List.append_assoc, List.singleton_append, List.getElem_cons_drop, List.take_append_drop]
    · cases h
  · intro h
    have hlt := h.length_lt
    obtain ⟨rest, rfl⟩ := h
    refine ⟨dir.length, hlt, ?_⟩
    rw [List.append_assoc, List.getElem?_append_right (Nat.le_refl _), Nat.sub_self]
    simp

instance (t : Tree sep isDir) (path : List α) : Decidable (t.IsDir path) :=
  decidable_of_iff ((t.node path).any isDir = true) (by cases h : t.node path <;> simp [Tree.IsDir, h])

instance (t : Tree sep isDir) (path : List α) : Decidable (t.IsFile path) :=
  decidable_of_iff ((t.node path).any (fun n => !isDir n) = true) (by cases h : t.node path <;> simp [Tree.IsFile, h])

instance [DecidableEq α] (t : Tree sep isDir) (path : List α) : Decidable (t.HasParents path) :=
  decidable_of_iff (∀ dir ∈ ancestors sep path, t.IsDir dir)
    ⟨fun h dir hb => h dir (mem_ancestors.2 hb), fun h dir hm => h dir (mem_ancestors.1 hm)⟩

variable [DecidableEq α]

/-- The tree of finitely many nodes. -/
def Tree.ofList (sep : α) (isDir : ν → Bool) (nodes : List (List α × ν))
    (h : ∀ p ∈ nodes, ∀ dir ∈ ancestors sep p.1, (nodes.lookup dir).any isDir = true) : Tree sep isDir where
  node p := nodes.lookup p
  closed := by
    intro dir path hb hsome
    obtain ⟨n, hn⟩ := Option.isSome_iff_exists.1 hsome
    have hdir := h (path, n) (Assoc.mem_of_lookup hn) dir (mem_ancestors.2 hb)
    obtain ⟨d, hd, hisDir⟩ := (Option.any_eq_true _ _).1 hdir
    exact ⟨d, hd, hisDir⟩

/-- A file of such a tree is one of its nodes. -/
theorem Tree.isFile_ofList {nodes : List (List α × ν)}
    {h : ∀ p ∈ nodes, ∀ dir ∈ ancestors sep p.1, (nodes.lookup dir).any isDir = true} {path : List α}
    (hfile : (ofList sep isDir nodes h).IsFile path) : ∃ n, (path, n) ∈ nodes ∧ isDir n = false := by
  obtain ⟨n, hn, hnot⟩ := hfile
  exact ⟨n, Assoc.mem_of_lookup hn, hnot⟩

/-! ## The operations -/

/-- Put a file where there is nothing. -/
def Tree.create (t : Tree sep isDir) (path : List α) (n : ν) (hfree : t.node path = none) (hparents : t.HasParents path) :
    Tree sep isDir where
  node p := if p = path then some n else t.node p
  closed := by
    intro dir p hb hsome
    have hdir : t.IsDir dir := by
      split at hsome
      · rename_i hp
        exact hparents dir (hp ▸ hb)
      · exact t.closed dir p hb hsome
    have hne : dir ≠ path := fun h => Tree.not_isDir_of_none hfree (h ▸ hdir)
    rw [if_neg hne]
    exact hdir

/-- Take a file away. -/
def Tree.erase (t : Tree sep isDir) (path : List α) (hfile : t.IsFile path) : Tree sep isDir where
  node p := if p = path then none else t.node p
  closed := by
    intro dir p hb hsome
    split at hsome
    · cases hsome
    · have hdir := t.closed dir p hb hsome
      have hne : dir ≠ path := fun h => Tree.not_isDir_of_isFile hfile (h ▸ hdir)
      rw [if_neg hne]
      exact hdir

/-- Move what is within one path to another, where there is nothing. -/
def Tree.move (t : Tree sep isDir) (old new : List α) (hfree : t.node new = none) (hparents : t.HasParents new)
    (hout : ¬Below sep old new) : Tree sep isDir where
  node p :=
    if Within sep new p then t.node (old ++ p.drop new.length) else if Within sep old p then none else t.node p
  closed := by
    intro dir p hb hsome
    by_cases hp : Within sep new p
    · rw [if_pos hp] at hsome
      by_cases hdir : Within sep new dir
      · -- both have moved
        rw [if_pos hdir]
        refine t.closed _ _ ?_ hsome
        rw [hp.eq_append, hdir.eq_append, below_append_iff] at hb
        exact below_append_iff.2 hb
      · -- the new place is below the directory, which stays
        have hnew : Below sep dir new := by
          rcases hp with rfl | hp
          · exact hb
          · exact (hb.within_or_below hp).resolve_left hdir
        rw [if_neg hdir, if_neg (fun h => hout (h.below hnew))]
        exact hparents dir hnew
    · rw [if_neg hp] at hsome
      have hdir : ¬Within sep new dir := fun h => hp (.inr (h.below hb))
      have hold : ¬Within sep old p := by
        intro h
        rw [if_pos h] at hsome
        cases hsome
      rw [if_neg hold] at hsome
      rw [if_neg hdir, if_neg (fun h => hold (.inr (h.below hb)))]
      exact t.closed dir p hb hsome

/-! ## What the operations do to the files -/

variable {t : Tree sep isDir}

theorem Tree.isFile_create {path : List α} {n : ν} {hfree : t.node path = none} {hparents : t.HasParents path}
    (hn : isDir n = false) (p : List α) : (t.create path n hfree hparents).IsFile p ↔ p = path ∨ t.IsFile p := by
  by_cases h : p = path
  · simp [IsFile, create, h, hn]
  · simp [IsFile, create, h]

theorem Tree.isFile_erase {path : List α} {hfile : t.IsFile path} (p : List α) :
    (t.erase path hfile).IsFile p ↔ t.IsFile p ∧ p ≠ path := by
  by_cases h : p = path
  · simp [IsFile, erase, h]
  · simp [IsFile, erase, h]

/-- What is moved without a file leaves every file where it was. -/
theorem Tree.isFile_move {old new : List α} {hfree : t.node new = none} {hparents : t.HasParents new}
    {hout : ¬Below sep old new} (hnone : ∀ p, Within sep old p → ¬t.IsFile p) (p : List α) :
    (t.move old new hfree hparents hout).IsFile p ↔ t.IsFile p := by
  by_cases hnew : Within sep new p
  · have hmoved : ¬t.IsFile (old ++ p.drop new.length) := by
      refine hnone _ ?_
      rcases hnew with rfl | ⟨rest, rfl⟩
      · simp [Within]
      · exact .inr ⟨rest, by simp [List.append_assoc]⟩
    have hbefore : ¬t.IsFile p := by
      rcases hnew with rfl | hnew
      · exact not_isFile_of_none hfree
      · exact not_isFile_of_none (t.node_eq_none_of_below (not_isDir_of_none hfree) hnew)
    have hp : (t.move old new hfree hparents hout).IsFile p ↔ t.IsFile (old ++ p.drop new.length) := by
      simp [IsFile, move, hnew]
    exact ⟨fun h => absurd (hp.1 h) hmoved, fun h => absurd h hbefore⟩
  · by_cases hold : Within sep old p
    · have hp : ¬(t.move old new hfree hparents hout).IsFile p := by
        simp [IsFile, move, hnew, hold]
      exact ⟨fun h => absurd h hp, fun h => absurd h (hnone p hold)⟩
    · simp [IsFile, move, hnew, hold]

/-- A file that is moved is no longer where it was. -/
theorem Tree.not_isFile_move {old new : List α} {hfree : t.node new = none} {hparents : t.HasParents new}
    {hout : ¬Below sep old new} {p : List α} (hp : Within sep old p) (hfile : t.IsFile p) :
    ¬(t.move old new hfree hparents hout).IsFile p := by
  have hnew : ¬Within sep new p := by
    rintro (rfl | hnew)
    · exact not_isFile_of_none hfree hfile
    · exact not_isFile_of_none (t.node_eq_none_of_below (not_isDir_of_none hfree) hnew) hfile
  simp [IsFile, move, hnew, hp]

end PathTree
