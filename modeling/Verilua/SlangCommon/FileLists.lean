import Verilua.Regen.Testbench

/-!
# Lists of files

A list names source files and other lists, one on each line. `testbench_gen`, `dpi_exporter` and the
handler of positional arguments in `SlangCommon.cpp` each expand the lists of their command line by
code of their own.
-/

namespace Verilua.SlangCommon

open FileManage Regen Files

def isList (file : Text) : Bool := ".f".toList.isSuffixOf file

/-- The text of a file that can be opened. -/
def textAt {Meta : Type} (d : Storage Meta) (file : Text) : Option Text :=
  match d.content file with
  | some (.text s) => some s
  | _ => none

/-- `std::filesystem::absolute` of a path that is not empty. -/
def absolute (cwd path : Text) : Text :=
  if ['/'] <+: path then path else if ['/'] <:+ cwd then cwd ++ path else cwd ++ '/' :: path

/-! ### The three expansions -/

section

variable {Meta : Type} (d : Storage Meta)

/-- `parseFileList` of `dpi_exporter`. A file that cannot be opened has no lines; `none` stands for
lists that are nested deeper than `fuel`. -/
def dpiParseFileList : Nat → Text → Option (List Text)
  | 0, _ => none
  | fuel + 1, filePath =>
    (getlines ((textAt d filePath).getD [])).foldlM (fun files line =>
      if line = [] then some files
      else if isList line then (dpiParseFileList fuel line).map (files ++ ·)
      else some (files ++ [line])) []

/-- The files that `dpi_exporter` adds to its driver, in `parseCommandLine`. -/
def dpiFiles (fuel : Nat) (args : List Text) : Option (List Text) :=
  args.foldlM (fun files file =>
    if isList file then (dpiParseFileList d fuel file).map (files ++ ·)
    else some (files ++ [file])) []

/-- What comes after the last dot. -/
def extension (value : Text) : Option Text :=
  if '.' ∈ value then some (value.reverse.takeWhile (· ≠ '.')).reverse else none

/-- The handler of a positional argument, with the files of the driver. A list that cannot be opened
fails an assertion. -/
def positional (excludeExts : List Text) (files : List Text) (value : Text) :
    Option (List Text) :=
  if (extension value).any excludeExts.contains then some files
  else if isList value then
    (textAt d value).map fun s => files ++ (getlines s).filter (· ≠ []) ++ [value]
  else some (files ++ [value])

def positionalFiles (excludeExts : List Text) (args : List Text) : Option (List Text) :=
  args.foldlM (positional d excludeExts) []

end

/-- The files that `testbench_gen` adds to its source loader, in `main`. -/
def testbenchFiles (cwd : Text) (d : Storage TbMeta) (args : List Text) : List Text :=
  (listedFiles d args).map (absolute cwd)

/-! ### Trees of lists -/

/-- A line of a list, or an argument, with the lines of the list that it names. -/
inductive Line
  | blank
  | source (path : Text)
  | list (path : Text) (lines : List Line)

namespace Line

def text : Line → Text
  | blank => []
  | source path => path
  | list path _ => path

def names : Line → Bool
  | list .. => true
  | _ => false

mutual

/-- The source files at the leaves, in order. -/
def leaves : Line → List Text
  | blank => []
  | source path => [path]
  | list _ lines => leavesAll lines

def leavesAll : List Line → List Text
  | [] => []
  | line :: lines => line.leaves ++ leavesAll lines

end

mutual

/-- The lists below are on the disk, and their names are told from those of sources by the end. -/
def Stored {Meta : Type} (d : Storage Meta) : Line → Prop
  | blank => True
  | source path => path ≠ [] ∧ isList path = false
  | list path lines => isList path = true ∧
    (∃ s, textAt d path = some s ∧ getlines s = lines.map text) ∧ StoredAll d lines

def StoredAll {Meta : Type} (d : Storage Meta) : List Line → Prop
  | [] => True
  | line :: lines => line.Stored d ∧ StoredAll d lines

end

mutual

def depth : Line → Nat
  | list _ lines => depthAll lines + 1
  | _ => 0

def depthAll : List Line → Nat
  | [] => 0
  | line :: lines => max line.depth (depthAll lines)

end

variable {Meta : Type} {d : Storage Meta} {lines : List Line} {line : Line} {file : Text}

lemma storedAll_iff : StoredAll d lines ↔ ∀ line ∈ lines, line.Stored d := by
  induction lines with
  | nil => simp [StoredAll]
  | cons line lines ih => simp [StoredAll, ih]

lemma leavesAll_eq_flatMap (lines : List Line) : leavesAll lines = lines.flatMap leaves := by
  induction lines with
  | nil => rfl
  | cons line lines ih => rw [leavesAll, ih, List.flatMap_cons]

mutual

lemma isList_of_mem_leaves (line : Line) (h : line.Stored d) (hmem : file ∈ line.leaves) :
    isList file = false := by
  match line with
  | blank => cases hmem
  | source path =>
    obtain rfl := List.mem_singleton.mp hmem
    exact h.2
  | list path lines => exact isList_of_mem_leavesAll lines h.2.2 hmem

lemma isList_of_mem_leavesAll (lines : List Line) (h : StoredAll d lines)
    (hmem : file ∈ leavesAll lines) : isList file = false := by
  match lines with
  | [] => cases hmem
  | line :: lines =>
    rcases List.mem_append.mp hmem with hmem | hmem
    · exact isList_of_mem_leaves line h.1 hmem
    · exact isList_of_mem_leavesAll lines h.2 hmem

end

lemma isList_text (h : line.Stored d) : isList line.text = line.names := by
  cases line with
  | blank => rfl
  | source path => exact h.2
  | list path lines => exact h.1

lemma depth_le (hmem : line ∈ lines) : line.depth ≤ depthAll lines := by
  induction lines with
  | nil => cases hmem
  | cons l lines ih =>
    rw [depthAll]
    rcases List.mem_cons.mp hmem with rfl | hmem
    · exact Nat.le_max_left _ _
    · exact Nat.le_trans (ih hmem) (Nat.le_max_right _ _)

lemma text_eq_nil_iff (h : line.Stored d) : line.text = [] ↔ line = blank := by
  cases line with
  | blank => simp [text]
  | source path => simpa [text] using h.1
  | list path lines =>
    have hne : path ≠ [] := by
      rintro rfl
      exact absurd h.1 (by decide)
    simpa [text] using hne

end Line

lemma foldlM_append {step : List Text → Text → Option (List Text)} {g : Line → List Text}
    (lines : List Line) (h : ∀ line ∈ lines, ∀ files, step files line.text = some (files ++ g line))
    (files : List Text) :
    (lines.map Line.text).foldlM step files = some (files ++ lines.flatMap g) := by
  induction lines generalizing files with
  | nil => simp
  | cons line lines ih =>
    rw [List.map_cons, List.foldlM_cons, h line List.mem_cons_self, List.flatMap_cons,
      ← List.append_assoc]
    exact ih (fun l hl => h l (List.mem_cons_of_mem line hl)) _

section

open Line

variable {Meta : Type} {d : Storage Meta} {fuel : Nat} {args : List Line}

/-! ### `dpi_exporter` -/

lemma dpiParseFileList_eq {lines : List Line} {path : Text} (hdepth : depthAll lines < fuel)
    (hstored : (list path lines).Stored d) :
    dpiParseFileList d fuel path = some (leavesAll lines) := by
  induction fuel generalizing path lines with
  | zero => omega
  | succ fuel ih =>
    obtain ⟨-, ⟨s, htext, hlines⟩, hall⟩ := hstored
    rw [dpiParseFileList, htext, Option.getD_some, hlines, leavesAll_eq_flatMap]
    refine foldlM_append lines (fun line hmem files => ?_) []
    have hline := storedAll_iff.mp hall line hmem
    have hle := depth_le hmem
    cases line with
    | blank => simp [text, leaves]
    | source path => simp [text, leaves, hline.1, hline.2]
    | list path below =>
      have hne : path ≠ [] := fun h => by
        cases (text_eq_nil_iff hline).mp h
      rw [depth] at hle
      simp [text, leaves, hne, hline.1, ih (by omega) hline]

lemma dpiFiles_eq (hargs : ∀ arg ∈ args, arg ≠ blank) (hdepth : depthAll args ≤ fuel)
    (hstored : StoredAll d args) : dpiFiles d fuel (args.map text) = some (leavesAll args) := by
  rw [dpiFiles, leavesAll_eq_flatMap]
  refine foldlM_append args (fun arg hmem files => ?_) []
  have harg := storedAll_iff.mp hstored arg hmem
  have hle := depth_le hmem
  cases arg with
  | blank => exact absurd rfl (hargs blank hmem)
  | source path => simp [text, leaves, harg.2]
  | list path lines =>
    rw [depth] at hle
    have hdepth : depthAll lines < fuel := by omega
    have hparse := dpiParseFileList_eq hdepth harg
    simp [text, leaves, harg.1, hparse]

/-! ### The handler of positional arguments -/

/-- What an argument gives. -/
def flat : Line → List Text
  | .list path lines => (lines.map text).filter (· ≠ []) ++ [path]
  | line => [line.text]

lemma positionalFiles_eq (hstored : StoredAll d args) :
    positionalFiles d [] (args.map text) = some (args.flatMap flat) := by
  rw [positionalFiles]
  refine foldlM_append args (fun arg hmem files => ?_) []
  have harg := storedAll_iff.mp hstored arg hmem
  have hext : ¬ (extension arg.text).any ([] : List Text).contains = true := by
    cases extension arg.text <;> simp
  rw [positional, if_neg hext, isList_text harg]
  cases arg with
  | blank => simp [names, flat]
  | source path => simp [names, flat]
  | list path lines =>
    obtain ⟨-, ⟨s, htext, hlines⟩, -⟩ := harg
    simp [names, flat, text, htext, hlines]

lemma positionalFiles_iff (hargs : ∀ arg ∈ args, arg ≠ blank)
    (hstored : StoredAll d args) :
    positionalFiles d [] (args.map text) = some (leavesAll args) ↔
      ∀ arg ∈ args, arg.names = false := by
  rw [positionalFiles_eq hstored, Option.some.injEq]
  constructor
  · intro h arg harg
    cases arg with
    | blank => rfl
    | source path => rfl
    | list path lines =>
      -- the list itself is among the files
      have hmem : path ∈ leavesAll args := by
        rw [← h]
        exact List.mem_flatMap.mpr ⟨_, harg, by simp [flat]⟩
      have hleaf := isList_of_mem_leavesAll args hstored hmem
      rw [(storedAll_iff.mp hstored _ harg).1] at hleaf
      cases hleaf
  · intro h
    rw [leavesAll_eq_flatMap]
    refine List.flatMap_congr fun arg harg => ?_
    cases arg with
    | blank => exact absurd rfl (hargs blank harg)
    | source path => rfl
    | list path lines => cases h _ harg

/-! ### `testbench_gen` -/

lemma suffix_of_suffix_slash {dir path : Text} (h : ".f".toList <:+ dir ++ '/' :: path) :
    ".f".toList <:+ path := by
  rcases List.suffix_or_suffix_of_suffix h (List.suffix_append dir ('/' :: path)) with h | h
  · exact (List.suffix_cons_iff.mp h).resolve_left fun heq => by cases heq
  · have hslash : '/' ∈ ".f".toList := h.subset List.mem_cons_self
    exact absurd hslash (by decide)

lemma isList_absolute (cwd : Text) {path : Text} (h : isList path = true) :
    isList (absolute cwd path) = true := by
  rw [isList, List.isSuffixOf_iff_suffix] at h ⊢
  rw [absolute]
  split_ifs
  · exact h
  · exact h.trans (List.suffix_append cwd path)
  · exact h.trans ((List.suffix_cons '/' path).trans (List.suffix_append cwd _))

lemma isList_of_absolute {cwd path : Text} (h : isList (absolute cwd path) = true) :
    isList path = true := by
  rw [isList, List.isSuffixOf_iff_suffix] at h ⊢
  rw [absolute] at h
  split_ifs at h with hroot hslash
  · exact h
  · obtain ⟨dir, rfl⟩ := hslash
    rw [List.append_assoc] at h
    exact suffix_of_suffix_slash h
  · exact suffix_of_suffix_slash h

/-- What `testbench_gen` takes of an argument. -/
def listed : Line → List Text
  | .list _ lines => (lines.map text).filter (· ≠ [])
  | line => [line.text]

lemma testbenchFiles_eq {d : Storage TbMeta} (cwd : Text) (hstored : StoredAll d args) :
    testbenchFiles cwd d (args.map text) = (args.flatMap listed).map (absolute cwd) := by
  rw [testbenchFiles, listedFiles, List.flatMap_map]
  congr 1
  refine List.flatMap_congr fun arg hmem => ?_
  have harg := storedAll_iff.mp hstored arg hmem
  have hsuffix : ".f".toList <:+ arg.text ↔ arg.names = true := by
    rw [← isList_text harg, isList, List.isSuffixOf_iff_suffix]
  cases arg with
  | blank => exact if_neg fun h => by cases hsuffix.mp h
  | source path => exact if_neg fun h => by cases hsuffix.mp h
  | list path lines =>
    obtain ⟨-, ⟨s, htext, hlines⟩, -⟩ := harg
    rw [if_pos (hsuffix.mpr rfl), text, listed, ← hlines]
    rw [textAt] at htext
    split at htext
    case h_1 t hcontent =>
      obtain rfl := Option.some.inj htext
      rw [hcontent]
      rfl
    case h_2 => cases htext

lemma testbenchFiles_iff {d : Storage TbMeta} (cwd : Text) (hargs : ∀ arg ∈ args, arg ≠ blank)
    (hstored : StoredAll d args) :
    testbenchFiles cwd d (args.map text) = (leavesAll args).map (absolute cwd) ↔
      ∀ path lines, list path lines ∈ args → ∀ line ∈ lines, line.names = false := by
  rw [testbenchFiles_eq cwd hstored]
  constructor
  · intro h path lines harg line hline
    have hlines := storedAll_iff.mp (storedAll_iff.mp hstored _ harg).2.2
    cases line with
    | blank => rfl
    | source path => rfl
    | list inner below =>
      -- the inner list is among the files
      have hinner : isList inner = true := (hlines _ hline).1
      have hne : inner ≠ [] := fun h => by
        cases (text_eq_nil_iff (hlines _ hline)).mp h
      have hmem : absolute cwd inner ∈ (leavesAll args).map (absolute cwd) := by
        rw [← h]
        refine List.mem_map_of_mem (List.mem_flatMap.mpr ⟨_, harg, ?_⟩)
        exact List.mem_filter.mpr ⟨List.mem_map.mpr ⟨_, hline, rfl⟩, by simpa using hne⟩
      obtain ⟨leaf, hleaf, habs⟩ := List.mem_map.mp hmem
      have hlist := isList_of_absolute (habs ▸ isList_absolute cwd hinner)
      rw [isList_of_mem_leavesAll args hstored hleaf] at hlist
      cases hlist
  · intro h
    rw [leavesAll_eq_flatMap]
    refine congrArg (List.map (absolute cwd)) (List.flatMap_congr fun arg harg => ?_)
    cases arg with
    | blank => exact absurd rfl (hargs blank harg)
    | source path => rfl
    | list path lines =>
      rw [listed, leaves, leavesAll_eq_flatMap]
      have hstoredLines := storedAll_iff.mp (storedAll_iff.mp hstored _ harg).2.2
      have hflat := h path lines harg
      clear hstored hargs h harg
      induction lines with
      | nil => rfl
      | cons line lines ih =>
        have hline := hstoredLines line List.mem_cons_self
        have hrest := ih (fun l hl => hstoredLines l (List.mem_cons_of_mem line hl))
          fun l hl => hflat l (List.mem_cons_of_mem line hl)
        rw [List.map_cons, List.flatMap_cons, ← hrest, List.filter_cons]
        cases line with
        | blank => rfl
        | source path => simp [text, leaves, hline.1]
        | list path below => cases hflat _ List.mem_cons_self

end

/-! ### The three together -/

open Line in
/-- The three load the source files at the leaves, and no list. -/
structure ExpandAlike (cwd : Text) (d : Storage TbMeta) (args : List Line) : Prop where
  testbenchGen : testbenchFiles cwd d (args.map text) = (leavesAll args).map (absolute cwd)
  dpiExporter : ∃ fuel₀, ∀ fuel ≥ fuel₀, dpiFiles d fuel (args.map text) = some (leavesAll args)
  slangCommon : positionalFiles d [] (args.map text) = some (leavesAll args)
  noList : ∀ file ∈ leavesAll args, isList file = false ∧ isList (absolute cwd file) = false

open Line in
/-- `dpi_exporter` always does, `testbench_gen` does where no list is in a list, and the handler of
positional arguments only where there is no list. -/
theorem expandAlike_iff (cwd : Text) {d : Storage TbMeta} {args : List Line}
    (hargs : ∀ arg ∈ args, arg ≠ blank) (hstored : StoredAll d args) :
    ExpandAlike cwd d args ↔ ∀ arg ∈ args, arg.names = false := by
  constructor
  · intro h
    exact (positionalFiles_iff hargs hstored).mp h.slangCommon
  · intro h
    refine ⟨?_, ⟨depthAll args, fun fuel hfuel => dpiFiles_eq hargs hfuel hstored⟩,
      (positionalFiles_iff hargs hstored).mpr h, fun file hfile => ?_⟩
    · refine (testbenchFiles_iff cwd hargs hstored).mpr fun path lines hmem => ?_
      cases h _ hmem
    · have hleaf := isList_of_mem_leavesAll args hstored hfile
      refine ⟨hleaf, ?_⟩
      rw [← Bool.not_eq_true] at hleaf ⊢
      exact fun habs => hleaf (isList_of_absolute habs)

/-! ### A list in a list -/

/-- `dut.f` names `a.sv`, a blank line and `inner.f`, which names `b.sv`. -/
def listsDisk : Storage TbMeta where
  file := fun p =>
    if p = "dut.f".toList then some ⟨.text "a.sv

inner.f
".toList, 1⟩
    else if p = "inner.f".toList then some ⟨.text "b.sv
".toList, 1⟩
    else none
  dir := fun _ => false

def listsTree : Line :=
  .list "dut.f".toList [.source "a.sv".toList, .blank,
    .list "inner.f".toList [.source "b.sv".toList]]

lemma stored_listsTree : listsTree.Stored listsDisk := by
  refine ⟨by decide, ⟨_, rfl, by decide⟩, ⟨by decide, by decide⟩, trivial, ?_, trivial⟩
  exact ⟨by decide, ⟨_, rfl, by decide⟩, ⟨by decide, by decide⟩, trivial⟩

theorem expandAlike_source : ExpandAlike "/work".toList listsDisk [.source "a.sv".toList] := by
  have hstored : Line.StoredAll listsDisk [.source "a.sv".toList] :=
    ⟨⟨by decide, by decide⟩, trivial⟩
  exact (expandAlike_iff _ (by simp) hstored).mpr (by simp [Line.names])

theorem not_expandAlike :
    ¬ ∀ (cwd : Text) (d : Storage TbMeta) (args : List Line), (∀ arg ∈ args, arg ≠ .blank) →
      Line.StoredAll d args → ExpandAlike cwd d args := by
  intro h
  have hstored : Line.StoredAll listsDisk [listsTree] := ⟨stored_listsTree, trivial⟩
  have hargs : ∀ arg ∈ [listsTree], arg ≠ .blank := by simp [listsTree]
  have halike := h "/work".toList listsDisk [listsTree] hargs hstored
  have hnone := (positionalFiles_iff hargs hstored).mp halike.slangCommon listsTree
    List.mem_cons_self
  cases hnone

end Verilua.SlangCommon
