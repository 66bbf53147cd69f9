import Verilua.Coverage.Display
import Verilua.Coverage.Guards

/-!
# Guards in the generated text

The guards are put behind `//` where the counters are declared, and into the format of the row of
each location. The notes are put behind `//` too. Nothing is escaped on the way: what is written is
read as it is meant exactly if the texts that come from the source have no line break, end no
literal, and take no argument of a row.
-/

namespace Verilua.CovExporter

open SVBuilder (Text sv isSpace)
open Lexer (spell)

/-! ### The writer -/

/-- `fmt::join(lines, "\n")` -/
def joinLines (lines : List Text) : Text := ['\n'].intercalate lines

def counter (id : Nat) : Text := '_' :: (Nat.toDigits 10 id ++ "__COV_BIN_EXPR_CNT".toList)

/-- What is inserted at the front of a module that has a counter. -/
def frontDecl (info : CoverageInfo) : Text :=
  '\n' :: (joinLines (["`ifndef NO_COVERAGE".toList, "bit _COV_EN = 1;".toList] ++
    info.condPaths.map (fun path =>
      "int ".toList ++ counter path.id ++ " = 0; // guard: ".toList ++ path.guard) ++
    ["`endif // NO_COVERAGE".toList]) ++ ['\n'])

/-- `{:6d}` -/
def padded (n : Nat) : Text :=
  List.replicate (6 - (Nat.toDigits 10 n).length) ' ' ++ Nat.toDigits 10 n

/-- The format of a row. `shown` makes the path of the source that is printed of it. -/
def rowFormat (shown : Text → Text) (moduleName guard : Text) (loc : Location) : Text :=
  '[' :: (moduleName ++ ']' :: (' ' :: padded loc.line ++ ": %6d\\t`CondPath`\\t%s\t".toList ++
    (shown loc.file ++ ':' :: (Nat.toDigits 10 loc.line ++ "\\t".toList ++ guard))))

/-- A row with two arguments, the count and what it says. -/
def display (format : Text) (id : Nat) : Text :=
  "$display(\"".toList ++ format ++ "\", ".toList ++ counter id ++ ", ".toList ++ counter id ++
    " > 0 ? \"\\x1b[32mCOVERED\\x1b[0m\" : \"\\x1b[31mMISSED\\x1b[0m\");".toList

/-- The row of a location in `showCoverageCount`. -/
def displayStr (shown : Text → Text) (moduleName : Text) (path : CondPathInfo) (loc : Location) :
    Text :=
  display (rowFormat shown moduleName path.guard loc) path.id

/-- A section of the statistic, which the line of a bar follows. -/
def listSection (title : Text) (items : List Text) : Text :=
  "//   ".toList ++ title ++ [':'] ++
    (if items.isEmpty then "\n//       (none)".toList
    else items.flatMap fun it => "\n//       ".toList ++ it) ++ ['\n']

/-! ### What it is meant to be -/

/-- The lexemes of a text, each with the blanks behind it. -/
abbrev Pieces := List (Text × Text)

def declaration (path : CondPathInfo) : Pieces :=
  [("int".toList, [' ']), (counter path.id, [' ']), (['='], [' ']), (['0'], []), ([';'], [' ']),
    ("// guard: ".toList ++ path.guard, ['\n'])]

/-- One counter for each path. -/
def declarations (info : CoverageInfo) : Pieces :=
  [("`ifndef".toList, [' ']), ("NO_COVERAGE".toList, ['\n']), ("bit".toList, [' ']),
    ("_COV_EN".toList, [' ']), (['='], [' ']), (['1'], []), ([';'], ['\n'])] ++
  info.condPaths.flatMap declaration ++
  [("`endif".toList, [' ']), ("// NO_COVERAGE".toList, ['\n'])]

def row (format : Text) (id : Nat) : Pieces :=
  [("$display".toList, []), (['('], []), ('\x22' :: format ++ ['\x22'], []), ([','], [' ']),
    (counter id, []), ([','], [' ']), (counter id, [' ']), (['>'], [' ']), (['0'], [' ']),
    (['?'], [' ']), ("\"\\x1b[32mCOVERED\\x1b[0m\"".toList, [' ']), ([':'], [' ']),
    ("\"\\x1b[31mMISSED\\x1b[0m\"".toList, []), ([')'], []), ([';'], [])]

def comments (title : Text) (items : List Text) : Pieces :=
  ("//   ".toList ++ title ++ [':'], ['\n']) ::
    (if items.isEmpty then ["(none)".toList] else items).map fun it =>
      ("//       ".toList ++ it, ['\n'])

def IsReadAs (text : Text) (ps : Pieces) : Prop := sv.lexemes false text = ps.map Prod.fst

/-- What is written of a module is read as it is meant, and each row takes its two arguments and is
one line. -/
structure Intact (shown : Text → Text) (info : CoverageInfo) : Prop where
  front : IsReadAs (frontDecl info) (declarations info)
  ids : (info.condPaths.map CondPathInfo.id).Nodup
  rows : ∀ path ∈ info.condPaths, ∀ loc ∈ path.locations,
    IsReadAs (displayStr shown info.moduleName path loc)
      (row (rowFormat shown info.moduleName path.guard loc) path.id) ∧
    (Reading.clear 0 false).scan (rowFormat shown info.moduleName path.guard loc) =
      Reading.clear 2 false
  statistic : IsReadAs (listSection "unsupportedCondStmts".toList info.unsupportedCondStmts)
    (comments "unsupportedCondStmts".toList info.unsupportedCondStmts)

/-! ### Texts that stay where they are put -/

/-- In a literal. -/
def InLiteral (t : Text) : Prop := StaysOpen false t ∧ Silent t

/-- In a comment that ends with its line, and in a literal. -/
def Inert (t : Text) : Prop := '\n' ∉ t ∧ InLiteral t

variable {t u : Text} {c : Char}

lemma inLiteral_append_end (hc : IsEnd c) :
    InLiteral (t ++ c :: u) ↔ InLiteral (t ++ [c]) ∧ InLiteral u := by
  rw [InLiteral, staysOpen_append_end hc, silent_append_end hc]
  exact and_and_and_comm

lemma inert_append_end (hc : IsEnd c) : Inert (t ++ c :: u) ↔ Inert (t ++ [c]) ∧ Inert u := by
  have hline : '\n' ∉ t ++ c :: u ↔ '\n' ∉ t ++ [c] ∧ '\n' ∉ u := by
    rw [List.append_cons, List.mem_append, not_or]
  rw [Inert, hline, inLiteral_append_end hc]
  exact and_and_and_comm

/-! ### Lexemes of the generated text -/

/-- What every piece is like: it begins with no blank, it is no base of a number, and blanks are
behind it. -/
def isProper (p : Text × Text) : Bool :=
  p.1.head?.any (fun c => !isSpace c) && !SVBuilder.isBase p.1 && p.2.all isSpace

lemma isReadAs_iff {ps : Pieces} {b : Text} (hb : b.all isSpace = true)
    (hps : ps.all isProper = true) : IsReadAs (b ++ spell ps []) ps ↔ sv.ReadsAs false [] ps := by
  have hproper : ∀ p ∈ ps, (∃ c cs, p.1 = c :: cs ∧ isSpace c = false) ∧
      SVBuilder.isBase p.1 = false ∧ ∀ c ∈ p.2, isSpace c = true := by
    intro p hp
    have h := List.all_eq_true.mp hps p hp
    simp only [isProper, Bool.and_eq_true, Bool.not_eq_true', List.all_eq_true] at h
    obtain ⟨⟨hhead, hbase⟩, hblank⟩ := h
    refine ⟨?_, hbase, hblank⟩
    cases hp : p.1 with
    | nil => simp [hp] at hhead
    | cons c cs => exact ⟨c, cs, rfl, by simpa [hp] using hhead⟩
  rw [IsReadAs, sv.lexemes_append_of_blank (List.all_eq_true.mp hb)]
  refine sv.lexemes_spell_iff (fun p hp => (hproper p hp).1) (fun p hp => ?_)
    fun p hp => (hproper p hp).2.2
  change (if SVBuilder.isComment p.1 then false else SVBuilder.isBase p.1) = false
  rw [(hproper p hp).2.1, ite_self]

lemma isIdentifier_counter (id : Nat) : SVBuilder.isIdentifier (counter id) = true := by
  have hdigits : ∀ c ∈ Nat.toDigits 10 id, SVBuilder.isWordChar c = true := by
    intro c hc
    have hdigit := Nat.isDigit_of_mem_toDigits (by decide) (by decide) hc
    simp [SVBuilder.isWordChar, Char.isAlphanum, hdigit]
  have hrest : "__COV_BIN_EXPR_CNT".toList.all SVBuilder.isWordChar = true := rfl
  simp only [SVBuilder.isIdentifier, counter, List.all_cons, List.all_append, hrest, Bool.and_true,
    Bool.and_eq_true, List.all_eq_true]
  exact ⟨rfl, rfl, hdigits⟩

lemma first_counter (id : Nat) {d : Char} (hd : SVBuilder.isWordChar d = false) (z : Text) :
    sv.first false (counter id ++ d :: z) = counter id := by
  have hmunch := SVBuilder.munch_word (isIdentifier_counter id) hd z
  change List.take (max 1 (SVBuilder.munch false (counter id ++ d :: z))) _ = _
  have hpos : 1 ≤ (counter id).length := Nat.succ_le_succ (Nat.zero_le _)
  rw [hmunch, Nat.max_eq_right hpos, List.take_left]

lemma first_comment_iff (z : Text) :
    sv.first false ('/' :: '/' :: (t ++ '\n' :: z)) = '/' :: '/' :: t ↔ '\n' ∉ t := by
  have hfirst : sv.first false ('/' :: '/' :: (t ++ '\n' :: z)) =
      '/' :: '/' :: (t ++ '\n' :: z).takeWhile (· != '\n') := by
    have hprefix := List.takeWhile_prefix (· != '\n') (l := '/' :: '/' :: (t ++ '\n' :: z))
    exact (List.prefix_iff_eq_take.mp hprefix).symm
  rw [hfirst, List.cons_inj_right, List.cons_inj_right]
  constructor
  · intro h hmem
    rw [← h] at hmem
    simpa using List.all_eq_true.mp List.all_takeWhile _ hmem
  · intro h
    have hall : ∀ c ∈ t, (c != '\n') = true := fun c hc => by
      simpa using fun heq : c = '\n' => h (heq ▸ hc)
    rw [List.takeWhile_append_of_pos hall, List.takeWhile_cons_of_neg (by simp), List.append_nil]

lemma first_literal_iff (d : Char) (z : Text) :
    sv.first false ('\x22' :: t ++ ['\x22'] ++ d :: z) = '\x22' :: t ++ ['\x22'] ↔
      StaysOpen false t := by
  have htext : '\x22' :: t ++ ['\x22'] ++ d :: z = '\x22' :: (t ++ '\x22' :: d :: z) := by simp
  rw [← stringLen_eq_iff (u := z) (d := d), htext, List.cons_append]
  have hfirst : sv.first false ('\x22' :: (t ++ '\x22' :: d :: z)) =
      '\x22' :: (t ++ '\x22' :: d :: z).take (SVBuilder.stringLen (t ++ '\x22' :: d :: z)) := by
    change List.take (max 1 (1 + SVBuilder.stringLen (t ++ '\x22' :: d :: z))) _ = _
    rw [Nat.max_eq_right (Nat.le_add_right _ _), Nat.add_comm]
    rfl
  rw [hfirst, List.cons_inj_right]
  constructor
  · intro h
    have hlength := congrArg List.length h
    simp only [List.length_take, List.length_append, List.length_cons, List.length_nil] at hlength
    omega
  · intro h
    rw [h, List.append_cons]
    exact List.take_left' (by simp)

/-! ### The declarations -/

lemma joinLines_append {lines : List Text} (h : lines ≠ []) :
    joinLines lines ++ ['\n'] = lines.flatMap fun line => line ++ ['\n'] := by
  induction lines with
  | nil => exact absurd rfl h
  | cons line lines ih =>
    cases lines with
    | nil => simp [joinLines, List.intercalate]
    | cons next lines =>
      rw [List.flatMap_cons, ← ih (List.cons_ne_nil _ _)]
      simp [joinLines, List.intercalate]

lemma spell_declaration (path : CondPathInfo) (z : Text) :
    spell (declaration path) z = "int ".toList ++ counter path.id ++ " = 0; // guard: ".toList ++
      path.guard ++ ['\n'] ++ z := by
  simp [declaration, Lexer.spell]

lemma spell_declarations (paths : List CondPathInfo) (z : Text) :
    spell (paths.flatMap declaration) z = (paths.flatMap fun path => "int ".toList ++
      counter path.id ++ " = 0; // guard: ".toList ++ path.guard ++ ['\n']) ++ z := by
  induction paths with
  | nil => rfl
  | cons path paths ih =>
    rw [List.flatMap_cons, Lexer.spell_append, spell_declaration, ih, List.flatMap_cons]
    simp only [List.append_assoc]

lemma frontDecl_eq (info : CoverageInfo) :
    frontDecl info = ['\n'] ++ spell (declarations info) [] := by
  rw [frontDecl, joinLines_append (by simp), declarations, Lexer.spell_append, Lexer.spell_append,
    spell_declarations, List.flatMap_append, List.flatMap_append, List.flatMap_map]
  simp [Lexer.spell]

lemma declarations_proper (info : CoverageInfo) : (declarations info).all isProper = true := by
  have hpaths : (info.condPaths.flatMap declaration).all isProper = true :=
    List.all_eq_true.mpr fun p hp => by
      obtain ⟨path, -, hmem⟩ := List.mem_flatMap.mp hp
      have hpath : (declaration path).all isProper = true := rfl
      exact List.all_eq_true.mp hpath p hmem
  rw [declarations, List.all_append, List.all_append, hpaths]
  rfl

lemma readsAs_declaration (path : CondPathInfo) (z : Text) :
    sv.ReadsAs false z (declaration path) ↔ '\n' ∉ path.guard := by
  have hcomment := first_comment_iff (t := " guard: ".toList ++ path.guard) z
  rw [List.mem_append, not_or, and_iff_right (by decide)] at hcomment
  refine Iff.trans ?_ hcomment
  rw [List.append_assoc]
  have hcounter := first_counter path.id (d := ' ') (by decide)
  constructor
  · rintro ⟨-, -, -, -, -, h, -⟩
    exact h
  · intro h
    exact ⟨rfl, hcounter _, rfl, rfl, rfl, h, trivial⟩

lemma front_iff (info : CoverageInfo) :
    IsReadAs (frontDecl info) (declarations info) ↔
      ∀ path ∈ info.condPaths, '\n' ∉ path.guard := by
  have hpaths : ∀ (paths : List CondPathInfo) (z : Text),
      sv.ReadsAs false z (paths.flatMap declaration) ↔ ∀ path ∈ paths, '\n' ∉ path.guard := by
    intro paths z
    induction paths with
    | nil => simp [Lexer.ReadsAs]
    | cons path paths ih =>
      rw [List.flatMap_cons, Lexer.readsAs_append, readsAs_declaration, ih, List.forall_mem_cons]
  rw [frontDecl_eq, isReadAs_iff rfl (declarations_proper info), declarations, Lexer.readsAs_append,
    Lexer.readsAs_append, hpaths]
  constructor
  · rintro ⟨⟨-, h⟩, -⟩
    exact h
  · intro h
    exact ⟨⟨⟨rfl, rfl, rfl, rfl, rfl, rfl, rfl, trivial⟩, h⟩, rfl, rfl, trivial⟩

/-! ### Rows and notes -/

lemma display_eq (format : Text) (id : Nat) :
    display format id = [] ++ spell (row format id) [] := by
  have hopen : "$display(\"".toList = "$display".toList ++ ['(', '\x22'] := rfl
  have hclose : "\", ".toList = ['\x22', ',', ' '] := rfl
  have hcomma : ", ".toList = [',', ' '] := rfl
  have hend : " > 0 ? \"\\x1b[32mCOVERED\\x1b[0m\" : \"\\x1b[31mMISSED\\x1b[0m\");".toList =
      ' ' :: '>' :: ' ' :: '0' :: ' ' :: '?' :: ' ' :: ("\"\\x1b[32mCOVERED\\x1b[0m\"".toList ++
        ' ' :: ':' :: ' ' :: ("\"\\x1b[31mMISSED\\x1b[0m\"".toList ++ [')', ';'])) := rfl
  unfold display row
  simp only [hopen, hclose, hcomma, hend, Lexer.spell, List.foldr_cons, List.foldr_nil]
  simp only [List.append_assoc, List.cons_append, List.nil_append]

lemma row_iff (format : Text) (id : Nat) :
    IsReadAs (display format id) (row format id) ↔ StaysOpen false format := by
  rw [display_eq, isReadAs_iff rfl rfl]
  have hcomma := first_counter id (d := ',') (by decide)
  have hblank := first_counter id (d := ' ') (by decide)
  constructor
  · rintro ⟨-, -, h, -⟩
    exact (first_literal_iff _ _).mp h
  · intro h
    exact ⟨rfl, rfl, (first_literal_iff _ _).mpr h, rfl, hcomma _, rfl, hblank _, rfl, rfl, rfl,
      rfl, rfl, rfl, rfl, rfl, trivial⟩

lemma comments_iff {lines : List Text} (h : ∀ line ∈ lines, ∃ t, line = '/' :: '/' :: t) :
    IsReadAs (spell (lines.map fun line => (line, ['\n'])) [])
        (lines.map fun line => (line, ['\n'])) ↔
      ∀ line ∈ lines, '\n' ∉ line := by
  have hproper : (lines.map fun line => (line, ['\n'])).all isProper = true := by
    rw [List.all_map, List.all_eq_true]
    intro line hline
    obtain ⟨t, rfl⟩ := h line hline
    rfl
  refine (isReadAs_iff (b := []) rfl hproper).trans ?_
  clear hproper
  induction lines with
  | nil => simp [Lexer.ReadsAs]
  | cons line lines ih =>
    obtain ⟨⟨t, rfl⟩, hrest⟩ := List.forall_mem_cons.mp h
    rw [List.forall_mem_cons, List.map_cons, Lexer.ReadsAs, ih hrest]
    refine and_congr_left' ((first_comment_iff _).trans ?_)
    simp

lemma spell_lines (lines : List Text) :
    spell (lines.map fun line => (line, ['\n'])) [] = lines.flatMap fun line => line ++ ['\n'] := by
  induction lines with
  | nil => rfl
  | cons line lines ih =>
    rw [List.flatMap_cons, ← ih, List.append_assoc]
    rfl

lemma breaks_before (lines : List Text) :
    (lines.flatMap fun line => '\n' :: line) ++ ['\n'] =
      '\n' :: lines.flatMap fun line => line ++ ['\n'] := by
  induction lines with
  | nil => rfl
  | cons line lines ih =>
    rw [List.flatMap_cons, List.append_assoc, ih]
    simp

lemma statistic_iff (items : List Text) :
    IsReadAs (listSection "unsupportedCondStmts".toList items)
        (comments "unsupportedCondStmts".toList items) ↔ ∀ it ∈ items, '\n' ∉ it := by
  let shown := if items.isEmpty then ["(none)".toList] else items
  let lines := ("//   ".toList ++ "unsupportedCondStmts".toList ++ [':']) ::
    shown.map ("//       ".toList ++ ·)
  have hcomments : comments "unsupportedCondStmts".toList items =
      lines.map fun line => (line, ['\n']) := by
    simp only [comments, lines, shown, List.map_cons, List.map_map]
    rfl
  have hitems : (if items.isEmpty then "\n//       (none)".toList
      else items.flatMap fun it => "\n//       ".toList ++ it) =
        (shown.map ("//       ".toList ++ ·)).flatMap fun line => '\n' :: line := by
    cases items with
    | nil => rfl
    | cons it items =>
      change (it :: items).flatMap _ = ((it :: items).map _).flatMap _
      rw [List.flatMap_map]
      rfl
  have hsection : listSection "unsupportedCondStmts".toList items =
      spell (lines.map fun line => (line, ['\n'])) [] := by
    unfold listSection
    rw [spell_lines, List.flatMap_cons, hitems, List.append_assoc, breaks_before, List.append_assoc]
    rfl
  have hslash : ∀ line ∈ lines, ∃ t, line = '/' :: '/' :: t := by
    refine List.forall_mem_cons.mpr ⟨⟨_, rfl⟩, fun line hline => ?_⟩
    obtain ⟨it, -, rfl⟩ := List.mem_map.mp hline
    exact ⟨_, rfl⟩
  rw [hcomments, hsection, comments_iff hslash, List.forall_mem_cons, and_iff_right (by decide),
    List.forall_mem_map]
  have hline : ∀ it : Text, '\n' ∉ "//       ".toList ++ it ↔ '\n' ∉ it := fun it => by
    rw [List.mem_append, or_iff_right (by decide)]
  simp only [hline, shown]
  cases items with
  | nil => simp
  | cons it items => rfl

/-! ### The format of a row -/

lemma scan_of_clear {args n : Nat} {breaks b : Bool}
    (h : (Reading.clear 0 false).scan t = Reading.clear n b) :
    (Reading.clear args breaks).scan t = Reading.clear (args + n) (breaks || b) := by
  rw [Reading.scan_clear, h]
  rfl

lemma isDigit_ne {d : Char} (h : c.isDigit = true) (hd : d.isDigit = false) : c ≠ d := by
  rintro rfl
  rw [h] at hd
  cases hd

lemma forall_digits {p : Char → Prop} (h : ∀ c : Char, c.isDigit = true → p c) (n : Nat) :
    ∀ c ∈ Nat.toDigits 10 n, p c := fun c hc =>
  h c (Nat.isDigit_of_mem_toDigits (by decide) (by decide) hc)

lemma forall_padded {p : Char → Prop} (h : ∀ c : Char, c.isDigit = true → p c) (hblank : p ' ')
    (n : Nat) : ∀ c ∈ padded n, p c := by
  intro c hc
  rcases List.mem_append.mp hc with hc | hc
  · exact List.eq_of_mem_replicate hc ▸ hblank
  · exact forall_digits h n c hc

lemma staysOpen_rowFormat (shown : Text → Text) (moduleName guard : Text) (loc : Location) :
    StaysOpen false (rowFormat shown moduleName guard loc) ↔
      StaysOpen false (moduleName ++ [']']) ∧ StaysOpen false (shown loc.file ++ [':']) ∧
        StaysOpen false guard := by
  have hdigit : ∀ c : Char, c.isDigit = true → c ≠ '\x22' ∧ c ≠ '\x5c' := fun c hc =>
    ⟨isDigit_ne hc rfl, isDigit_ne hc rfl⟩
  have hopen : ∀ u, StaysOpen false ('[' :: u) ↔ StaysOpen false u := fun u => by simp [StaysOpen]
  have hmiddle : ∀ u, StaysOpen false (": %6d\\t`CondPath`\\t%s\t".toList ++ u) ↔
      StaysOpen false u := fun u => by simp [StaysOpen]
  have hend : ∀ u, StaysOpen false ("\\t".toList ++ u) ↔ StaysOpen false u := fun u => by
    simp [StaysOpen]
  have hline : ∀ c ∈ ' ' :: padded loc.line, c ≠ '\x22' ∧ c ≠ '\x5c' :=
    List.forall_mem_cons.mpr ⟨by decide, forall_padded hdigit (by decide) _⟩
  rw [rowFormat, hopen, staysOpen_append_end (.inr (.inl rfl)), List.append_assoc,
    staysOpen_of_plain hline, hmiddle, staysOpen_append_end (.inr (.inr rfl)), List.append_assoc,
    staysOpen_of_plain (forall_digits hdigit _), hend]

lemma scan_rowFormat (shown : Text → Text) (moduleName guard : Text) (loc : Location) :
    (Reading.clear 0 false).scan (rowFormat shown moduleName guard loc) = Reading.clear 2 false ↔
      Silent (moduleName ++ [']']) ∧ Silent (shown loc.file ++ [':']) ∧ Silent guard := by
  have hdigit : ∀ c : Char, c.isDigit = true → c ≠ '\x5c' ∧ c ≠ '%' ∧ c ≠ '\n' := fun c hc =>
    ⟨isDigit_ne hc rfl, isDigit_ne hc rfl, isDigit_ne hc rfl⟩
  have hmiddle : (Reading.clear 0 false).scan ": %6d\\t`CondPath`\\t%s\t".toList =
      Reading.clear 2 false := by decide
  have hend : (Reading.clear 0 false).scan "\\t".toList = Reading.clear 0 false := by decide
  have hline : Silent (' ' :: padded loc.line) := silent_of_plain
    (List.forall_mem_cons.mpr ⟨by decide, forall_padded hdigit (by decide) _⟩)
  have hdigits : Silent (Nat.toDigits 10 loc.line) := silent_of_plain (forall_digits hdigit _)
  obtain ⟨n, b, hmodule⟩ := scan_end (.inr (.inl rfl)) (Reading.clear 0 false) moduleName
  obtain ⟨k, d, hfile⟩ := scan_end (.inr (.inr rfl)) (Reading.clear 0 false) (shown loc.file)
  have htext : rowFormat shown moduleName guard loc = ['['] ++ ((moduleName ++ [']']) ++
      ((' ' :: padded loc.line) ++ (": %6d\\t`CondPath`\\t%s\t".toList ++
        ((shown loc.file ++ [':']) ++
          (Nat.toDigits 10 loc.line ++ ("\\t".toList ++ guard)))))) := by
    simp only [rowFormat, List.append_assoc, List.cons_append, List.nil_append]
  rw [htext, Reading.scan_append, Reading.scan_append, Reading.scan_append, Reading.scan_append,
    Reading.scan_append, Reading.scan_append, Reading.scan_append,
    show (Reading.clear 0 false).scan ['['] = Reading.clear 0 false by decide, hmodule,
    scan_of_clear hline, scan_of_clear hmiddle, scan_of_clear hfile, scan_of_clear hdigits,
    scan_of_clear hend, Reading.scan_clear, Reading.shift_eq_clear_iff, Silent, Silent, hmodule,
    hfile, Silent]
  simp only [Reading.clear, Reading.mk.injEq, true_and, Bool.or_false, Bool.or_eq_false_iff]
  constructor
  · rintro ⟨hargs, ⟨rfl, rfl⟩, hguard⟩
    refine ⟨⟨by omega, rfl⟩, ⟨by omega, rfl⟩, hguard.trans ?_⟩
    rw [Reading.mk.injEq]
    exact ⟨rfl, rfl, by omega, rfl⟩
  · rintro ⟨⟨rfl, rfl⟩, ⟨rfl, rfl⟩, hguard⟩
    rw [hguard]
    exact ⟨rfl, ⟨rfl, rfl⟩, rfl⟩

/-! ### Guards -/

/-- The text of a condition stays where the guard is put. -/
def CleanCond (cond : Text) : Prop := Inert (cond ++ [')'])

/-- A text that is empty or ends with a closing bracket. -/
def Closed (t : Text) : Prop := t = [] ∨ ∃ a, t = a ++ [')']

lemma inert_nil : Inert [] := ⟨List.not_mem_nil, rfl, rfl⟩

lemma inert_append_of_closed (ht : Closed t) : Inert (t ++ u) ↔ Inert t ∧ Inert u := by
  rcases ht with rfl | ⟨a, rfl⟩
  · rw [List.nil_append, and_iff_right inert_nil]
  · rw [List.append_assoc, List.singleton_append, inert_append_end (.inl rfl)]

lemma inert_append_of_plain
    (h : ∀ c ∈ t, c ≠ '\n' ∧ c ≠ '\x22' ∧ c ≠ '\x5c' ∧ c ≠ '%') : Inert (t ++ u) ↔ Inert u := by
  have hline : '\n' ∉ t ++ u ↔ '\n' ∉ u := by
    rw [List.mem_append, or_iff_right fun hmem => (h _ hmem).1 rfl]
  have hsilent : Silent t := silent_of_plain fun c hc =>
    ⟨(h c hc).2.2.1, (h c hc).2.2.2, (h c hc).1⟩
  rw [Inert, Inert, InLiteral, InLiteral, hline,
    staysOpen_of_plain fun c hc => ⟨(h c hc).2.1, (h c hc).2.2.1⟩, silent_append hsilent,
    and_iff_right hsilent]

lemma inert_bracket (cond : Text) : Inert ('(' :: cond ++ [')']) ↔ CleanCond cond :=
  inert_append_of_plain (t := ['(']) (by simp)

lemma inert_and (u : Text) : Inert (" && ".toList ++ u) ↔ Inert u :=
  inert_append_of_plain (by simp)

lemma cleanCond_of_closed (ht : Closed t) : CleanCond t ↔ Inert t := by
  rw [CleanCond, inert_append_of_closed ht, and_iff_left]
  exact (inert_append_of_plain (t := [')']) (u := []) (by simp)).mpr inert_nil

lemma cleanCond_nil : CleanCond [] := (cleanCond_of_closed (.inl rfl)).mpr inert_nil

lemma closed_append (t u : Text) : Closed (t ++ (u ++ [')'])) :=
  .inr ⟨t ++ u, (List.append_assoc _ _ _).symm⟩

/-- A condition behind what the guard already has. -/
def conjoin (out cond : Text) : Text :=
  (if out = [] then out else out ++ " && ".toList) ++ '(' :: cond ++ [')']

lemma closed_conjoin (out cond : Text) : Closed (conjoin out cond) := by
  rw [conjoin, List.append_assoc]
  exact closed_append _ _

lemma inert_conjoin {out : Text} (hout : Closed out) (cond : Text) :
    Inert (conjoin out cond) ↔ Inert out ∧ CleanCond cond := by
  unfold conjoin
  split_ifs with hnil
  · rw [hnil, List.nil_append, inert_bracket, and_iff_right inert_nil]
  · rw [List.append_assoc, List.append_assoc, inert_append_of_closed hout, inert_and,
      inert_bracket]

lemma buildGuard_eq (guards : List Text) (cond : Text) :
    buildGuard guards cond =
      if cond = [] then guards.foldl conjoin [] else conjoin (guards.foldl conjoin []) cond := by
  change (let out := guards.foldl conjoin []
    let out := if out ≠ [] ∧ cond ≠ [] then out ++ " && ".toList else out
    if cond ≠ [] then out ++ '(' :: cond ++ [')'] else out) = _
  generalize guards.foldl conjoin [] = out
  by_cases hcond : cond = []
  · simp only [hcond, ne_eq, not_true, and_false, if_false, if_true]
  · by_cases hout : out = []
    · simp only [hcond, hout, conjoin, ne_eq, not_true, false_and, if_false, if_true,
        not_false_eq_true]
    · simp only [hcond, hout, conjoin, ne_eq, if_false, if_true, not_false_eq_true, and_self]

lemma inert_foldl_conjoin (guards : List Text) {out : Text} (hout : Closed out) :
    Closed (guards.foldl conjoin out) ∧
      (Inert (guards.foldl conjoin out) ↔ Inert out ∧ ∀ p ∈ guards, CleanCond p) := by
  induction guards generalizing out with
  | nil => exact ⟨hout, by simp⟩
  | cons p guards ih =>
    refine ⟨(ih (closed_conjoin out p)).1, ?_⟩
    rw [List.foldl_cons, (ih (closed_conjoin out p)).2, inert_conjoin hout, List.forall_mem_cons,
      and_assoc]

lemma inert_buildGuard (guards : List Text) (cond : Text) :
    Inert (buildGuard guards cond) ↔ (∀ p ∈ guards, CleanCond p) ∧ CleanCond cond := by
  obtain ⟨hclosed, hguards⟩ := inert_foldl_conjoin guards (.inl rfl : Closed [])
  rw [buildGuard_eq]
  split_ifs with hcond
  · rw [hguards, hcond, and_iff_right inert_nil, and_iff_left cleanCond_nil]
  · rw [inert_conjoin hclosed, hguards, and_iff_right inert_nil]

lemma inert_negation (cond : Text) : Inert ("!(".toList ++ (cond ++ [')'])) ↔ CleanCond cond :=
  inert_append_of_plain (by simp)

lemma closed_negate (chainNegation cond : Text) : Closed (negate chainNegation cond) := by
  unfold negate
  split_ifs
  · rw [List.append_assoc]
    exact closed_append _ _
  · rw [← List.append_assoc]
    exact .inr ⟨_, rfl⟩

/-- `chainNegation` is clean if the conditions in it are. -/
lemma cleanCond_negate {chainNegation : Text} (h : Closed chainNegation) (cond : Text) :
    CleanCond (negate chainNegation cond) ↔ CleanCond chainNegation ∧ CleanCond cond := by
  rw [cleanCond_of_closed (closed_negate _ _), cleanCond_of_closed h]
  unfold negate
  split_ifs with hnil
  · rw [List.append_assoc, inert_negation, hnil, and_iff_right inert_nil]
  · rw [List.append_assoc, List.append_assoc, inert_append_of_closed h, inert_and, inert_negation]

/-! ### Modules -/

mutual

/-- The conditions on the way to a branch with a counter are clean, as is its row, and a statement
that becomes a note is on one line. `way` says so of the conditions on the way to the statement. -/
def Statement.Clean (names : Location → Prop) (way : Prop) : Statement → Prop
  | .conditional node conditions ifTrue ifFalse =>
    match condText node conditions with
    | .error note => '\n' ∉ note
    | .ok cond =>
      ifTrue.Clean names (way ∧ CleanCond cond) ∧
        (if ifTrue.isEmptyBody then '\n' ∉ rawText node
        else (way ∧ CleanCond cond) ∧ names (locationOf ifTrue.node node)) ∧
        CleanElse names node (way ∧ CleanCond cond) ifFalse
  | .block node sequential body =>
    if sequential ∨ node.isNone then body.Clean names way else True
  | .list _ stmts => CleanList names way stmts
  | .loop _ body => body.Clean names way
  | .case node items defaultCase =>
    if node.isNone then True
    else CleanItems names way items ∧ CleanDefault names way defaultCase
  | .wait _ stmt => stmt.Clean names way
  | .empty _ | .otherCase .. | .timed .. | .outcome .. | .other _ => True

def CleanElse (names : Location → Prop) (node : Option Node) (way : Prop) : Option Statement → Prop
  | none => True
  | some elseStmt =>
    if elseStmt.isConditional then elseStmt.Clean names way
    else if elseStmt.isEmptyBody then '\n' ∉ rawText node
    else elseStmt.Clean names way ∧ way ∧ names (locationOf elseStmt.node node)

def CleanList (names : Location → Prop) (way : Prop) : List Statement → Prop
  | [] => True
  | child :: stmts => child.Clean names way ∧ CleanList names way stmts

def CleanItems (names : Location → Prop) (way : Prop) : List Statement → Prop
  | [] => True
  | item :: items =>
    (if item.node.isNone then True else item.Clean names way) ∧ CleanItems names way items

def CleanDefault (names : Location → Prop) (way : Prop) : Option Statement → Prop
  | none => True
  | some item => if item.node.isNone then True else item.Clean names way

end

/-- The names in the row of a location stay where they are put. -/
def CleanNames (shown : Text → Text) (moduleName : Text) (loc : Location) : Prop :=
  InLiteral (moduleName ++ [']']) ∧ InLiteral (shown loc.file ++ [':'])

def Record.Clean (names : Location → Prop) : Record → Prop
  | .path guard loc => Inert guard ∧ names loc
  | .unsupported note => '\n' ∉ note

variable {names : Location → Prop} {guards : List Text} {chainNegation : Text}

lemma pushChain_clean : (∀ p ∈ pushChain guards chainNegation, CleanCond p) ↔
    (∀ p ∈ guards, CleanCond p) ∧ CleanCond chainNegation := by
  unfold pushChain
  split_ifs with hnil
  · rw [hnil, and_iff_left cleanCond_nil]
  · rw [List.forall_mem_append, List.forall_mem_singleton]

lemma clean_note {note : Text} {text : Text} (h : '\n' ∉ note) :
    (Record.unsupported (note ++ text)).Clean names ↔ '\n' ∉ text := by
  rw [Record.Clean, List.mem_append, or_iff_right h]

/-- What the conditions on the way to a statement are for `rewrite`. -/
def Way (way : Prop) (guards : List Text) (chainNegation : Text) : Prop :=
  way ↔ (∀ p ∈ guards, CleanCond p) ∧ CleanCond chainNegation

lemma Way.branch {way : Prop} (h : Way way guards chainNegation) (cond : Text) :
    Way (way ∧ CleanCond cond) (pushChain guards chainNegation ++ [cond]) [] := by
  rw [Way, and_iff_left cleanCond_nil, List.forall_mem_append, pushChain_clean,
    List.forall_mem_singleton, ← show way ↔ _ from h]

lemma Way.negate {way : Prop} (h : Way way guards chainNegation) (hclosed : Closed chainNegation)
    (cond : Text) : Way (way ∧ CleanCond cond) guards (negate chainNegation cond) := by
  rw [Way, cleanCond_negate hclosed, ← and_assoc, ← show way ↔ _ from h]

lemma Way.last {way : Prop} (h : Way way guards chainNegation) :
    Way way (pushChain guards chainNegation) [] := by
  rw [Way, and_iff_left cleanCond_nil, pushChain_clean]
  exact h

lemma Way.guard {way : Prop} (h : Way way guards chainNegation) (cond : Text) :
    Inert (buildGuard (pushChain guards chainNegation) cond) ↔ way ∧ CleanCond cond := by
  rw [inert_buildGuard, pushChain_clean, ← show way ↔ _ from h]

mutual

theorem Statement.clean_rewrite {way : Prop} {guards : List Text} {chainNegation : Text}
    (hway : Way way guards chainNegation) (hclosed : Closed chainNegation) : ∀ stmt : Statement,
    (chainNegation = [] ∨ stmt.isConditional = true) →
      ((∀ r ∈ stmt.rewrite guards chainNegation, r.Clean names) ↔ stmt.Clean names way)
  | .conditional node conditions ifTrue ifFalse, _ => by
    simp only [Statement.rewrite, Statement.Clean]
    cases hcond : condText node conditions with
    | error note => exact List.forall_mem_singleton
    | ok cond =>
      simp only
      rw [List.forall_mem_append, List.forall_mem_append,
        Statement.clean_rewrite (hway.branch cond) (.inl rfl) ifTrue (.inl rfl),
        clean_rewriteElse (hway.negate hclosed cond) (closed_negate _ _) ifFalse, and_assoc]
      refine and_congr_right' (and_congr_left' ?_)
      split_ifs
      · rw [List.forall_mem_singleton, clean_note (by decide)]
      · rw [List.forall_mem_singleton, Record.Clean, hway.guard]
  | .block node sequential body, h => by
    obtain rfl := h.resolve_right Bool.false_ne_true
    simp only [Statement.rewrite, Statement.Clean]
    split_ifs
    · exact Statement.clean_rewrite hway hclosed body (.inl rfl)
    · simp
  | .list _ stmts, h => by
    obtain rfl := h.resolve_right Bool.false_ne_true
    exact clean_rewriteList hway stmts
  | .loop _ body, h => by
    obtain rfl := h.resolve_right Bool.false_ne_true
    exact Statement.clean_rewrite hway hclosed body (.inl rfl)
  | .case node items defaultCase, h => by
    obtain rfl := h.resolve_right Bool.false_ne_true
    simp only [Statement.rewrite, Statement.Clean]
    split_ifs
    · simp
    · rw [List.forall_mem_append, clean_rewriteItems hway items,
        clean_rewriteDefault hway defaultCase]
  | .wait _ stmt, h => by
    obtain rfl := h.resolve_right Bool.false_ne_true
    exact Statement.clean_rewrite hway hclosed stmt (.inl rfl)
  | .empty _, _ | .otherCase .., _ | .timed .., _ | .outcome .., _ | .other _, _ =>
    iff_of_true nofun trivial

theorem clean_rewriteElse {node : Option Node} {way : Prop} {guards : List Text}
    {chainNegation : Text} (hway : Way way guards chainNegation) (hclosed : Closed chainNegation) :
    ∀ ifFalse : Option Statement,
      (∀ r ∈ rewriteElse node guards chainNegation ifFalse, r.Clean names) ↔
        CleanElse names node way ifFalse
  | none => iff_of_true nofun trivial
  | some elseStmt => by
    simp only [rewriteElse, CleanElse]
    split_ifs with hconditional
    · exact Statement.clean_rewrite hway hclosed elseStmt (.inr hconditional)
    · rw [List.forall_mem_singleton, clean_note (by decide)]
    · rw [List.forall_mem_append, List.forall_mem_singleton, Record.Clean, hway.guard,
        and_iff_left cleanCond_nil,
        Statement.clean_rewrite hway.last (.inl rfl) elseStmt (.inl rfl)]

theorem clean_rewriteList {way : Prop} {guards : List Text} (hway : Way way guards []) :
    ∀ stmts : List Statement,
      (∀ r ∈ rewriteList guards stmts, r.Clean names) ↔ CleanList names way stmts
  | [] => iff_of_true nofun trivial
  | child :: stmts => by
    rw [rewriteList, List.forall_mem_append, CleanList, clean_rewriteList hway stmts,
      Statement.clean_rewrite hway (.inl rfl) child (.inl rfl)]

theorem clean_rewriteItems {way : Prop} {guards : List Text} (hway : Way way guards []) :
    ∀ items : List Statement,
      (∀ r ∈ rewriteItems guards items, r.Clean names) ↔ CleanItems names way items
  | [] => iff_of_true nofun trivial
  | item :: items => by
    rw [rewriteItems, List.forall_mem_append, CleanItems, clean_rewriteItems hway items]
    refine and_congr_left' ?_
    split_ifs
    · simp
    · exact Statement.clean_rewrite hway (.inl rfl) item (.inl rfl)

theorem clean_rewriteDefault {way : Prop} {guards : List Text} (hway : Way way guards []) :
    ∀ defaultCase : Option Statement,
      (∀ r ∈ rewriteDefault guards defaultCase, r.Clean names) ↔ CleanDefault names way defaultCase
  | none => iff_of_true nofun trivial
  | some item => by
    simp only [rewriteDefault, CleanDefault]
    split_ifs
    · simp
    · exact Statement.clean_rewrite hway (.inl rfl) item (.inl rfl)

end

/-! ### What is collected -/

namespace CoverageInfo

variable {info : CoverageInfo} {r : Record} {rs : List Record}

structure Recorded (info : CoverageInfo) (rs : List Record) : Prop where
  ids : info.condPaths.map CondPathInfo.id = List.range info.condPaths.length
  located : ∀ path ∈ info.condPaths, path.locations ≠ []
  paths : ∀ guard loc, (∃ path ∈ info.condPaths, path.guard = guard ∧ loc ∈ path.locations) ↔
    .path guard loc ∈ rs
  notes : ∀ note, note ∈ info.unsupportedCondStmts ↔ .unsupported note ∈ rs

lemma Recorded.add (h : info.Recorded rs) : (info.add r).Recorded (rs ++ [r]) := by
  cases r with
  | unsupported note =>
    refine ⟨h.ids, h.located, fun guard loc => (h.paths guard loc).trans (by simp), fun n => ?_⟩
    change n ∈ info.unsupportedCondStmts ++ [note] ↔ _
    rw [List.mem_append, h.notes, List.mem_append, List.mem_singleton, List.mem_singleton,
      Record.unsupported.injEq]
  | path guard loc =>
    have hnotes : ∀ note, note ∈ info.unsupportedCondStmts ↔
        .unsupported note ∈ rs ++ [.path guard loc] := fun note =>
      (h.notes note).trans (by simp)
    have hpaths : ∀ guard' loc', .path guard' loc' ∈ rs ++ [.path guard loc] ↔
        (∃ path ∈ info.condPaths, path.guard = guard' ∧ loc' ∈ path.locations) ∨
          guard' = guard ∧ loc' = loc := fun guard' loc' => by
      rw [List.mem_append, List.mem_singleton, Record.path.injEq, h.paths]
    change (info.recordPath guard loc).Recorded _
    unfold recordPath
    split_ifs with hknown
    · constructor
      case ids =>
        rw [List.map_map, List.length_map, ← h.ids]
        refine List.map_congr_left fun path _ => ?_
        simp only [Function.comp_apply]
        split_ifs <;> rfl
      case located =>
        intro path hpath
        obtain ⟨path, hmem, rfl⟩ := List.mem_map.mp hpath
        split_ifs
        · exact List.append_ne_nil_of_right_ne_nil _ (List.cons_ne_nil _ _)
        · exact h.located path hmem
      case paths =>
        intro guard' loc'
        rw [hpaths]
        constructor
        · rintro ⟨_, hmap, hguard, hloc⟩
          obtain ⟨path, hmem, rfl⟩ := List.mem_map.mp hmap
          split_ifs at hguard hloc with hpath
          · rcases List.mem_append.mp hloc with hloc | hloc
            · exact .inl ⟨path, hmem, hguard, hloc⟩
            · exact .inr ⟨hguard.symm.trans hpath, List.mem_singleton.mp hloc⟩
          · exact .inl ⟨path, hmem, hguard, hloc⟩
        · rintro (⟨path, hmem, hguard, hloc⟩ | ⟨rfl, rfl⟩)
          · refine ⟨_, List.mem_map_of_mem hmem, ?_⟩
            split_ifs
            · exact ⟨hguard, List.mem_append_left _ hloc⟩
            · exact ⟨hguard, hloc⟩
          · obtain ⟨path, hmem, hguard⟩ := hknown
            refine ⟨_, List.mem_map_of_mem hmem, ?_⟩
            rw [if_pos hguard]
            exact ⟨hguard, List.mem_append_right _ (List.mem_singleton_self _)⟩
      case notes => exact hnotes
    · constructor
      case ids =>
        rw [List.map_append, List.length_append, List.length_singleton, List.range_succ, h.ids]
        rfl
      case located =>
        intro path hpath
        rcases List.mem_append.mp hpath with hpath | hpath
        · exact h.located path hpath
        · cases List.mem_singleton.mp hpath
          exact List.cons_ne_nil _ _
      case paths =>
        intro guard' loc'
        rw [hpaths]
        simp only [List.mem_append, List.mem_singleton, or_and_right, exists_or, exists_eq_left,
          eq_comm (a := guard)]
      case notes => exact hnotes

lemma recorded_foldl (h : info.Recorded rs) (more : List Record) :
    (more.foldl add info).Recorded (rs ++ more) := by
  induction more generalizing info rs with
  | nil => rwa [List.append_nil]
  | cons r more ih =>
    rw [List.append_cons]
    exact ih h.add

end CoverageInfo

/-- The conditionals of the clocked blocks, without those in other ones. -/
def ProceduralBlock.topConditionals (proc : ProceduralBlock) : List Statement :=
  if proc.procedureKind = .other then []
  else match proc.body with
    | .timed _ stmt => stmt.topConditionals
    | _ => []

lemma ProceduralBlock.records_eq (proc : ProceduralBlock) :
    proc.records = proc.topConditionals.flatMap (Statement.rewrite [] []) := by
  unfold records topConditionals
  split
  · rfl
  · cases proc.body <;> rfl

/-- Every conditional of the module is clean. -/
def Module.Clean (shown : Text → Text) (m : Module) : Prop :=
  ∀ proc ∈ m.procs, ∀ stmt ∈ proc.topConditionals,
    stmt.Clean (CleanNames shown m.moduleName) True

lemma Module.clean_iff (shown : Text → Text) (m : Module) :
    m.Clean shown ↔ ∀ r ∈ m.procs.flatMap ProceduralBlock.records,
      r.Clean (CleanNames shown m.moduleName) := by
  have hway : Way True [] [] := iff_of_true trivial ⟨nofun, cleanCond_nil⟩
  have hstmt : ∀ stmt : Statement,
      (∀ r ∈ stmt.rewrite [] [], r.Clean (CleanNames shown m.moduleName)) ↔
        stmt.Clean (CleanNames shown m.moduleName) True :=
    fun stmt => Statement.clean_rewrite hway (.inl rfl) stmt (.inl rfl)
  simp only [Clean, ← hstmt, ProceduralBlock.records_eq, List.mem_flatMap]
  constructor
  · rintro h r ⟨proc, hproc, stmt, hmem, hr⟩
    exact h proc hproc stmt hmem r hr
  · intro h proc hproc stmt hmem r hr
    exact h r ⟨proc, hproc, stmt, hmem, hr⟩

lemma intact_iff_records (shown : Text → Text) {info : CoverageInfo} {rs : List Record}
    (h : info.Recorded rs) :
    Intact shown info ↔ ∀ r ∈ rs, r.Clean (CleanNames shown info.moduleName) := by
  have hrow : ∀ path ∈ info.condPaths, ∀ loc ∈ path.locations,
      (IsReadAs (displayStr shown info.moduleName path loc)
          (row (rowFormat shown info.moduleName path.guard loc) path.id) ∧
        (Reading.clear 0 false).scan (rowFormat shown info.moduleName path.guard loc) =
          Reading.clear 2 false) ↔
        InLiteral path.guard ∧ CleanNames shown info.moduleName loc := by
    intro path _ loc _
    rw [displayStr, row_iff, staysOpen_rowFormat, scan_rowFormat, CleanNames, InLiteral, InLiteral,
      InLiteral]
    tauto
  constructor
  · intro hintact r hr
    cases r with
    | unsupported note => exact (statistic_iff _).mp hintact.statistic note ((h.notes note).mpr hr)
    | path guard loc =>
      obtain ⟨path, hpath, rfl, hloc⟩ := (h.paths guard loc).mpr hr
      obtain ⟨hguard, hnames⟩ := (hrow path hpath loc hloc).mp (hintact.rows path hpath loc hloc)
      exact ⟨⟨(front_iff _).mp hintact.front path hpath, hguard⟩, hnames⟩
  · intro hclean
    have hpath : ∀ path ∈ info.condPaths, ∀ loc ∈ path.locations,
        Inert path.guard ∧ CleanNames shown info.moduleName loc := fun path hpath loc hloc =>
      hclean (.path path.guard loc) ((h.paths _ _).mp ⟨path, hpath, rfl, hloc⟩)
    constructor
    case front =>
      refine (front_iff _).mpr fun path hmem => ?_
      obtain ⟨loc, hloc⟩ := List.exists_mem_of_ne_nil _ (h.located path hmem)
      exact (hpath path hmem loc hloc).1.1
    case ids => rw [h.ids]; exact List.nodup_range
    case rows =>
      intro path hmem loc hloc
      obtain ⟨hguard, hnames⟩ := hpath path hmem loc hloc
      exact (hrow path hmem loc hloc).mpr ⟨hguard.2, hnames⟩
    case statistic =>
      exact (statistic_iff _).mpr fun note hnote => hclean _ ((h.notes note).mp hnote)

lemma moduleName_foldl (info : CoverageInfo) (rs : List Record) :
    (rs.foldl CoverageInfo.add info).moduleName = info.moduleName := by
  induction rs generalizing info with
  | nil => rfl
  | cons r rs ih =>
    rw [List.foldl_cons, ih]
    cases r with
    | unsupported note => rfl
    | path guard loc =>
      simp only [CoverageInfo.add, CoverageInfo.recordPath]
      split <;> rfl

/-- What is written of a module is read as it is meant exactly if the conditions on the way to its
counters, the names in its rows and its notes stay where they are put. -/
theorem intact_iff_clean (shown : Text → Text) (m : Module) :
    Intact shown m.coverageInfo ↔ m.Clean shown := by
  have hempty : CoverageInfo.Recorded ⟨m.moduleName, [], []⟩ [] :=
    ⟨rfl, nofun, fun _ _ => by simp, fun _ => by simp⟩
  have hrecorded := CoverageInfo.recorded_foldl hempty (m.procs.flatMap ProceduralBlock.records)
  rw [Module.clean_iff, Module.coverageInfo, intact_iff_records shown hrecorded,
    moduleName_foldl, List.nil_append]

/-- `always @(posedge clock) if (cond) x <= 1;` -/
def sampleModule (cond : Text) : Module where
  moduleName := ['m']
  procs := [⟨.alwaysFF, .timed none (.conditional (some ⟨"if".toList, ⟨3, ['f']⟩⟩)
    [⟨false, false, some cond⟩] (.other (some ⟨"x <= 1;".toList, ⟨4, ['f']⟩⟩)) none)⟩]

/-- A condition on two lines: the second one is read as code. -/
theorem not_intact : ¬ Intact id (sampleModule "a\n& b".toList).coverageInfo := by
  intro h
  have hmem : ⟨0, "(a\n& b)".toList, [⟨4, ['f']⟩]⟩ ∈
      (sampleModule "a\n& b".toList).coverageInfo.condPaths := List.mem_singleton_self _
  exact (front_iff _).mp h.front _ hmem (by decide)

end Verilua.CovExporter
