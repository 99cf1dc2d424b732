import WinIndex.Theorems.ResultRows

/-!
# The files the shell is given

To cut, drag or delete the selected rows, the window hands the shell one block with their paths. The shell reads from it the
paths of the rows that are selected, all of them and no others, in every state of every run; the exception is a path that is
empty or has a zero in it, which only a damaged index can hold.
-/

namespace WinIndex

open Trace

/-- The paths of the items of a selection that are rows. -/
def selectedPaths (rows : List DisplayEntry) (selection : List Nat) : List WString :=
  (selectedRows rows selection).map DisplayEntry.path

theorem foldl_paths (rows : List DisplayEntry) (paths : WString) :
    rows.foldl (fun paths row => paths ++ (row.path ++ [0])) paths =
      paths ++ Terminated.strings 0 (rows.map DisplayEntry.path) := by
  induction rows generalizing paths with
  | nil => rw [List.foldl_nil, List.map_nil, Terminated.strings, List.map_nil, List.flatten_nil, List.append_nil]
  | cons row rows ih => rw [List.foldl_cons, ih, List.map_cons, Terminated.strings, Terminated.strings]; simp

/-- The block of a selection with a row in it. -/
theorem pathBlock_eq {rows : List DisplayEntry} {selection : List Nat} (h : selectedRows rows selection ≠ []) :
    pathBlock rows selection = some (Terminated.block 0 (selectedPaths rows selection)) := by
  have hne : Terminated.strings 0 ((selectedRows rows selection).map DisplayEntry.path) ≠ [] := by
    obtain ⟨row, rest, heq⟩ := List.exists_cons_of_ne_nil h
    simp [heq, Terminated.strings]
  simp only [pathBlock, foldl_paths, List.nil_append, if_neg hne]
  rfl

/-- The shell reads what was put behind the header, whatever follows. -/
theorem readDropFiles_dropFiles (paths : WString) (rest : List UInt8) :
    readDropFiles (dropFiles paths ++ rest) = readPaths (paths ++ LittleEndian.toWide rest) := by
  have hbytes : dropFiles paths ++ rest =
      [20, 0, 0, 0] ++ (List.replicate 12 0 ++ ([1, 0, 0, 0] ++ (LittleEndian.wide paths ++ rest))) := by
    have h20 : LittleEndian.u32 20 = [20, 0, 0, 0] := by decide
    have h1 : LittleEndian.u32 1 = [1, 0, 0, 0] := by decide
    simp only [dropFiles, h20, h1, List.append_assoc]
  rw [hbytes, ← LittleEndian.toWide_wide_append]
  rfl

/-- In every state of every run, and for every selection of items of the list view: the block for the shell is made when there
is a selected item, and what is read from it is the paths of all selected rows, in the order of the selection, if and only if
none of them is empty or has a zero in it. This holds for the list of paths alone and for a `DROPFILES`, whatever follows in
memory. -/
theorem shell_reads_selected_files (M : Machine) (Γ : Locale) (options : SearchOptions) (pool : IndexPool)
    (es : List ResultEvent) (selection : List Nat) (rest : WString) (rest' : List UInt8) :
    let s := final (ResultWindow.step M Γ) (.start options pool) es
    (∀ i ∈ selection, i < s.itemCount) →
      (selectedPaths s.window.currentResults selection).map some =
          selection.map (fun i => s.window.currentResults[i]?.map DisplayEntry.path) ∧
      (pathBlock s.window.currentResults selection = none ↔ selection = []) ∧
      ∀ paths, pathBlock s.window.currentResults selection = some paths →
        (readPaths (paths ++ rest) = some (selectedPaths s.window.currentResults selection) ↔
          ∀ path ∈ selectedPaths s.window.currentResults selection, path ≠ [] ∧ 0 ∉ path) ∧
        (readDropFiles (dropFiles paths ++ rest') = some (selectedPaths s.window.currentResults selection) ↔
          ∀ path ∈ selectedPaths s.window.currentResults selection, path ≠ [] ∧ 0 ∉ path) := by
  intro s hselection
  have hlisted : Along ResultWindow.Listed (ResultWindow.step M Γ) (.start options pool) es :=
    along_of_step (fun _ e h _ => h.step e) (ResultWindow.listed_start options pool) (meets_trivial _ _ es)
  have hitems : s.itemCount = 0 ∨ s.itemCount = s.window.currentResults.length := hlisted.final.items
  have hrows : (selectedRows s.window.currentResults selection).map some = selection.map (s.window.currentResults[·]?) :=
    selectedRows_eq (fun i hi => by
      have hlt := hselection i hi
      omega)
  have hempty : selectedRows s.window.currentResults selection = [] ↔ selection = [] := by
    have hlen := congrArg List.length hrows
    rw [List.length_map, List.length_map] at hlen
    rw [← List.length_eq_zero_iff, ← List.length_eq_zero_iff, hlen]
  refine ⟨?_, ?_, fun paths hpaths => ?_⟩
  · have hpaths := congrArg (List.map (Option.map DisplayEntry.path)) hrows
    rw [List.map_map, List.map_map] at hpaths
    rw [selectedPaths, List.map_map]
    exact hpaths
  · rw [← hempty]
    by_cases h : selectedRows s.window.currentResults selection = []
    · exact ⟨fun _ => h, fun _ => by simp [pathBlock, h]⟩
    · rw [pathBlock_eq h]
      exact ⟨(nomatch ·), fun hnil => absurd hnil h⟩
  · have hne : selectedRows s.window.currentResults selection ≠ [] := by
      intro hnil
      simp [pathBlock, hnil] at hpaths
    rw [pathBlock_eq hne, Option.some.injEq] at hpaths
    rw [← hpaths, readDropFiles_dropFiles]
    exact ⟨Terminated.read_block_iff _ _, Terminated.read_block_iff _ _⟩

namespace ResultWitness

open SearchWitness

/-- `ab` is typed and its two results are listed. -/
def listed : List ResultEvent :=
  [.edit queryAb, .timerExpires, .timerMessage [] [], .searchEnds (List.replicate 5 ⟨0, 0⟩), .resultsMessage]

/-- Both are selected. -/
theorem selection_listed :
    ∀ i ∈ [0, 1], i < (final (ResultWindow.step machine .c) (.start plain pool) listed).itemCount := by
  decide +kernel

theorem shell_reads_selected_files_listed :
    let s := final (ResultWindow.step machine .c) (.start plain pool) listed
    (selectedPaths s.window.currentResults [0, 1]).map some =
        [0, 1].map (fun i => s.window.currentResults[i]?.map DisplayEntry.path) ∧
    (pathBlock s.window.currentResults [0, 1] = none ↔ [0, 1] = ([] : List Nat)) ∧
    ∀ paths, pathBlock s.window.currentResults [0, 1] = some paths →
      (readPaths (paths ++ []) = some (selectedPaths s.window.currentResults [0, 1]) ↔
        ∀ path ∈ selectedPaths s.window.currentResults [0, 1], path ≠ [] ∧ 0 ∉ path) ∧
      (readDropFiles (dropFiles paths ++ []) = some (selectedPaths s.window.currentResults [0, 1]) ↔
        ∀ path ∈ selectedPaths s.window.currentResults [0, 1], path ≠ [] ∧ 0 ∉ path) :=
  shell_reads_selected_files machine .c plain pool listed [0, 1] [] [] selection_listed

end ResultWitness

end WinIndex
