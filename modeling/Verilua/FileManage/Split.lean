import Verilua.FileManage.Basic

/-!
# Runs over the lines of a backup

A backup is the line of its begin marker, the lines of the content and the line of its end marker.
The lines of a content without markers are written to the file that the first line opens. If the
content is a backup itself, its own begin marker makes the stream fail, and nothing is written.
-/

namespace Verilua.FileManage

open SplitState (unlines)

variable {newPath file p c e l line rest text : List Char} {fs : FileSystem} {σ σ' : SplitState}
  {ls : List (List Char)}

/-! ### Lines -/

lemma getlinesFrom_append (line cs rest : List Char) :
    getlinesFrom line (cs ++ '\n' :: rest) = getlinesFrom line (cs ++ ['\n']) ++ getlines rest := by
  induction cs generalizing line with
  | nil => simp [getlinesFrom, getlines]
  | cons c cs ih =>
    simp only [List.cons_append, getlinesFrom]
    split_ifs
    · rw [ih, List.cons_append]
    · exact ih _

lemma getlines_append (c rest : List Char) :
    getlines (c ++ '\n' :: rest) = getlines (c ++ ['\n']) ++ getlines rest :=
  getlinesFrom_append [] c rest

lemma getlines_line (hl : '\n' ∉ l) : getlines (l ++ ['\n']) = [l] := by
  have hfrom : ∀ line, getlinesFrom line (l ++ ['\n']) = [line ++ l] := by
    induction l with
    | nil => simp [getlinesFrom]
    | cons c cs ih =>
      obtain ⟨hc, hcs⟩ := not_or.mp (mt List.mem_cons.mpr hl)
      intro line
      rw [List.cons_append, getlinesFrom, if_neg (Ne.symm hc), ih hcs, List.append_assoc,
        List.singleton_append]
  exact hfrom []

lemma unlines_getlines (c : List Char) : unlines (getlines (c ++ ['\n'])) = c ++ ['\n'] := by
  have hfrom : ∀ line, unlines (getlinesFrom line (c ++ ['\n'])) = line ++ (c ++ ['\n']) := by
    induction c with
    | nil => simp [getlinesFrom, unlines]
    | cons c cs ih =>
      intro line
      rw [List.cons_append, getlinesFrom]
      split_ifs with hc
      · rw [unlines, List.flatMap_cons, ← unlines, ih, hc]
        simp
      · rw [ih]
        simp
  exact hfrom []

lemma getlines_unlines (hls : ∀ l ∈ ls, '\n' ∉ l) : getlines (unlines ls) = ls := by
  induction ls with
  | nil => rfl
  | cons l ls ih =>
    have hsplit : unlines (l :: ls) = l ++ '\n' :: unlines ls := by
      rw [unlines, List.flatMap_cons, List.append_assoc]
      rfl
    rw [hsplit, getlines_append, getlines_line (hls l List.mem_cons_self),
      ih fun m hm => hls m (List.mem_cons_of_mem _ hm), List.singleton_append]

lemma newline_not_mem (text : List Char) : ∀ l ∈ getlines text, '\n' ∉ l := by
  have hfrom : ∀ line, '\n' ∉ line → ∀ l ∈ getlinesFrom line text, '\n' ∉ l := by
    induction text with
    | nil =>
      intro line hline l hl
      rw [getlinesFrom] at hl
      split_ifs at hl
      · cases hl
      · rwa [List.mem_singleton.mp hl]
    | cons c cs ih =>
      intro line hline l hl
      rw [getlinesFrom] at hl
      split_ifs at hl with hc
      · rcases List.mem_cons.mp hl with rfl | hl
        · exact hline
        · exact ih [] (by simp) l hl
      · refine ih _ ?_ l hl
        simpa [hline] using Ne.symm hc
  exact hfrom [] (by simp)

/-- A last newline adds a line only if the text has one already or is empty. -/
lemma getlines_concat (c : List Char) :
    getlines (c ++ ['\n']) = getlines c ∨ getlines (c ++ ['\n']) = getlines c ++ [[]] := by
  have hfrom : ∀ line, getlinesFrom line (c ++ ['\n']) = getlinesFrom line c ∨
      getlinesFrom line (c ++ ['\n']) = getlinesFrom line c ++ [[]] := by
    induction c with
    | nil =>
      intro line
      by_cases h : line = [] <;> simp [getlinesFrom, h]
    | cons c cs ih =>
      intro line
      simp only [List.cons_append, getlinesFrom]
      split_ifs
      · rcases ih [] with h | h
        · exact .inl (by rw [h])
        · exact .inr (by rw [h, List.cons_append])
      · exact ih _
  exact hfrom []

/-! ### Markers -/

/-- A line that is no marker. -/
def IsBody (line : List Char) : Prop := ¬ beginMark <+: line ∧ ¬ endMark <+: line

instance (line : List Char) : Decidable (IsBody line) :=
  inferInstanceAs (Decidable (_ ∧ _))

lemma isBody_nil : IsBody [] := by decide

lemma not_beginMark (h : endMark <+: line) : ¬ beginMark <+: line := fun h' =>
  absurd (List.prefix_of_prefix_length_le h h' (by decide)) (by decide)

lemma drop_beginMark (p : List Char) : (beginMark ++ p).drop 8 = p :=
  List.drop_left' (by decide)

/-- No line of the content is a marker. -/
def IsPlain (c : List Char) : Prop := ∀ line ∈ getlines c, IsBody line

instance (c : List Char) : Decidable (IsPlain c) :=
  inferInstanceAs (Decidable (∀ line ∈ getlines c, IsBody line))

lemma IsPlain.concat (hc : IsPlain c) : IsPlain (c ++ ['\n']) := by
  intro line hline
  rcases getlines_concat c with h | h <;> rw [h] at hline
  · exact hc line hline
  · rcases List.mem_append.mp hline with hline | hline
    · exact hc line hline
    · rw [List.mem_singleton.mp hline]
      exact isBody_nil

lemma IsPlain.of_concat (hc : IsPlain (c ++ ['\n'])) : IsPlain c := by
  intro line hline
  apply hc
  rcases getlines_concat c with h | h <;> rw [h]
  · exact hline
  · exact List.mem_append_left _ hline

lemma prefix_getlinesFrom (hline : line ≠ []) (cs : List Char) :
    ∃ first ls, getlinesFrom line cs = first :: ls ∧ line <+: first := by
  induction cs generalizing line with
  | nil => exact ⟨line, [], by rw [getlinesFrom, if_neg hline], List.prefix_rfl⟩
  | cons c cs ih =>
    rw [getlinesFrom]
    split_ifs
    · exact ⟨line, getlinesFrom [] cs, rfl, List.prefix_rfl⟩
    · obtain ⟨first, ls, heq, hprefix⟩ := ih (show line ++ [c] ≠ [] by simp)
      exact ⟨first, ls, heq, (List.prefix_append line [c]).trans hprefix⟩

lemma getlinesFrom_append_left (hl : '\n' ∉ l) (line cs : List Char) :
    getlinesFrom line (l ++ cs) = getlinesFrom (line ++ l) cs := by
  induction l generalizing line with
  | nil => simp
  | cons c l ih =>
    obtain ⟨hc, hl⟩ := not_or.mp (mt List.mem_cons.mpr hl)
    rw [List.cons_append, getlinesFrom, if_neg (Ne.symm hc), ih hl, List.append_assoc,
      List.singleton_append]

lemma IsPlain.not_begin (hc : IsPlain c) : ¬ beginMark <+: c := by
  rintro ⟨rest, rfl⟩
  obtain ⟨first, ls, heq, hprefix⟩ := prefix_getlinesFrom (show beginMark ≠ [] by decide) rest
  have hfirst : first ∈ getlines (beginMark ++ rest) := by
    rw [getlines, getlinesFrom_append_left (by decide), List.nil_append, heq]
    exact List.mem_cons_self
  exact (hc first hfirst).1 hprefix

/-- A content that is a backup, of a plain content or of a backup. -/
inductive IsWrapped : List Char → Prop
  | plain (p e : List Char) : '\n' ∉ p → IsPlain e → IsWrapped (wrap p e)
  | wrapped (p e : List Char) : '\n' ∉ p → IsWrapped e → IsWrapped (wrap p e)

lemma IsWrapped.begin (h : IsWrapped e) : beginMark <+: e := by
  cases h <;> simp [wrap]

lemma getlines_wrap (hp : '\n' ∉ p) (e rest : List Char) :
    getlines (wrap p e ++ rest) =
      (beginMark ++ p) :: (getlines (e ++ ['\n']) ++ (endMark ++ p) :: getlines rest) := by
  have hbegin : '\n' ∉ beginMark ++ p := by
    rw [List.mem_append]
    exact not_or.mpr ⟨by decide, hp⟩
  have hend : '\n' ∉ endMark ++ p := by
    rw [List.mem_append]
    exact not_or.mpr ⟨by decide, hp⟩
  have htext : wrap p e ++ rest =
      (beginMark ++ p) ++ '\n' :: (e ++ '\n' :: ((endMark ++ p) ++ '\n' :: rest)) := by
    simp [wrap]
  rw [htext, getlines_append, getlines_line hbegin, getlines_append e, getlines_append (endMark ++ p),
    getlines_line hend]
  rfl

/-! ### One line -/

/-- No file is open. -/
structure Closed (fs : FileSystem) (σ : SplitState) : Prop where
  fs : σ.fs = fs
  outFile : σ.outFile = none
  buffer : σ.buffer = []

/-- The file is open, and what has been written to it and the buffer are the text. -/
structure Writing (fs : FileSystem) (file text : List Char) (σ : SplitState) : Prop where
  fs : ∃ t, σ.fs = fs.write file t ∧ t ++ unlines σ.buffer = text
  outFile : σ.outFile = some file
  failed : σ.failed = false

/-- A file is open, but nothing is written to it. -/
structure Stuck (fs : FileSystem) (σ : SplitState) : Prop where
  fs : σ.fs = fs
  outFile : σ.outFile.isSome
  failed : σ.failed = true

lemma write_write (fs : FileSystem) (file t text : List Char) :
    (fs.write file t).write file text = fs.write file text := by
  simp [FileSystem.write]

lemma write_self (fs : FileSystem) (file t : List Char) : fs.write file t file = some t := by
  simp [FileSystem.write]

lemma Closed.flushBuffer (h : Closed fs σ) : σ.flushBuffer = σ := by
  rw [SplitState.flushBuffer, if_pos h.buffer]

lemma Writing.flushBuffer (h : Writing fs file text σ) :
    σ.flushBuffer.fs = fs.write file text ∧ σ.flushBuffer.outFile = some file ∧
      σ.flushBuffer.failed = false ∧ σ.flushBuffer.buffer = [] := by
  obtain ⟨t, hfs, htext⟩ := h.fs
  rw [SplitState.flushBuffer]
  by_cases hbuffer : σ.buffer = []
  · rw [if_pos hbuffer]
    rw [hbuffer] at htext
    exact ⟨by rw [hfs, ← htext]; simp [unlines], h.outFile, h.failed, hbuffer⟩
  · simp only [if_neg hbuffer, h.outFile, h.failed, Bool.false_eq_true, if_false]
    refine ⟨?_, trivial, trivial, trivial⟩
    rw [hfs, write_self, Option.getD_some, htext, write_write]

lemma Stuck.flushBuffer (h : Stuck fs σ) :
    Stuck fs σ.flushBuffer ∧ σ.flushBuffer.buffer = [] := by
  obtain ⟨file, hfile⟩ := Option.isSome_iff_exists.mp h.outFile
  rw [SplitState.flushBuffer]
  by_cases hbuffer : σ.buffer = []
  · rw [if_pos hbuffer]
    exact ⟨h, hbuffer⟩
  · simp only [if_neg hbuffer, hfile, h.failed, if_true]
    exact ⟨⟨h.fs, rfl, rfl⟩, trivial⟩

lemma Closed.begin (h : Closed fs σ) (hname : IsFileName (filename (outPath newPath p))) :
    ∃ σ', splitLine newPath σ (beginMark ++ p) = some σ' ∧
      Writing fs (outPath newPath p) [] σ' := by
  refine ⟨{ σ with
    fs := fs.write (outPath newPath p) []
    outFile := some (outPath newPath p)
    failed := false }, ?_, ⟨[], rfl, ?_⟩, rfl, rfl⟩
  · have hopen : σ.outFile.isSome ≠ true := by simp [h.outFile]
    rw [splitLine, if_pos (List.prefix_append _ _), drop_beginMark, h.flushBuffer,
      SplitState.openFile, if_neg hopen, if_pos hname, h.fs]
  · simp [h.buffer, unlines]

lemma Closed.end (newPath : List Char) (h : Closed fs σ) (hend : endMark <+: line) :
    ∃ σ', splitLine newPath σ line = some σ' ∧ Closed fs σ' := by
  refine ⟨_, by rw [splitLine, if_neg (not_beginMark hend), if_pos hend, h.flushBuffer], ?_⟩
  exact ⟨h.fs, rfl, h.buffer⟩

lemma Closed.body (h : Closed fs σ) (hline : IsBody line) :
    splitLine newPath σ line = some σ := by
  rw [splitLine, if_neg hline.1, if_neg hline.2, h.outFile]
  rfl

lemma Writing.body (newPath : List Char) (h : Writing fs file text σ) (hline : IsBody line) :
    ∃ σ', splitLine newPath σ line = some σ' ∧ Writing fs file (text ++ (line ++ ['\n'])) σ' := by
  have hpush : Writing fs file (text ++ (line ++ ['\n']))
      { σ with buffer := σ.buffer ++ [line] } := by
    obtain ⟨t, hfs, htext⟩ := h.fs
    refine ⟨⟨t, hfs, ?_⟩, h.outFile, h.failed⟩
    rw [← htext, List.append_assoc]
    simp [unlines]
  have hopen : σ.outFile.isSome := by simp [h.outFile]
  rw [splitLine, if_neg hline.1, if_neg hline.2, if_pos hopen]
  refine ⟨_, rfl, ?_⟩
  split_ifs
  · obtain ⟨hfs, hout, hfailed, hbuffer⟩ := hpush.flushBuffer
    exact ⟨⟨_, hfs, by simp [hbuffer, unlines]⟩, hout, hfailed⟩
  · exact hpush

lemma Writing.end (newPath : List Char) (h : Writing fs file text σ) (hend : endMark <+: line) :
    ∃ σ', splitLine newPath σ line = some σ' ∧ Closed (fs.write file text) σ' := by
  obtain ⟨hfs, -, -, hbuffer⟩ := h.flushBuffer
  refine ⟨_, by rw [splitLine, if_neg (not_beginMark hend), if_pos hend], ?_⟩
  exact ⟨hfs, rfl, hbuffer⟩

lemma Writing.begin (h : Writing fs file text σ) :
    ∃ σ', splitLine newPath σ (beginMark ++ p) = some σ' ∧ Stuck (fs.write file text) σ' := by
  obtain ⟨hfs, hout, -, -⟩ := h.flushBuffer
  have hopen : σ.flushBuffer.outFile.isSome := by simp [hout]
  refine ⟨{ σ.flushBuffer with failed := true }, ?_, hfs, hopen, rfl⟩
  rw [splitLine, if_pos (List.prefix_append _ _), SplitState.openFile, if_pos hopen]

lemma Stuck.begin (h : Stuck fs σ) :
    ∃ σ', splitLine newPath σ (beginMark ++ p) = some σ' ∧ Stuck fs σ' := by
  obtain ⟨hflush, -⟩ := h.flushBuffer
  refine ⟨{ σ.flushBuffer with failed := true }, ?_, hflush.fs, hflush.outFile, rfl⟩
  rw [splitLine, if_pos (List.prefix_append _ _), SplitState.openFile, if_pos hflush.outFile]

lemma Stuck.body (newPath : List Char) (h : Stuck fs σ) (hline : IsBody line) :
    ∃ σ', splitLine newPath σ line = some σ' ∧ Stuck fs σ' := by
  have hpush : Stuck fs { σ with buffer := σ.buffer ++ [line] } := ⟨h.fs, h.outFile, h.failed⟩
  rw [splitLine, if_neg hline.1, if_neg hline.2, if_pos h.outFile]
  refine ⟨_, rfl, ?_⟩
  split_ifs
  · exact hpush.flushBuffer.1
  · exact hpush

lemma Stuck.end (newPath : List Char) (h : Stuck fs σ) (hend : endMark <+: line) :
    ∃ σ', splitLine newPath σ line = some σ' ∧ Closed fs σ' := by
  obtain ⟨hflush, hbuffer⟩ := h.flushBuffer
  refine ⟨_, by rw [splitLine, if_neg (not_beginMark hend), if_pos hend], ?_⟩
  exact ⟨hflush.fs, rfl, hbuffer⟩

/-! ### The lines of a backup -/

/-- Lines that are run one after the other. -/
def splitLines (newPath : List Char) (σ : SplitState) (lines : List (List Char)) :
    Option SplitState :=
  lines.foldlM (splitLine newPath) σ

lemma splitLines_cons (h : splitLine newPath σ line = some σ') (ls : List (List Char)) :
    splitLines newPath σ (line :: ls) = splitLines newPath σ' ls := by
  rw [splitLines, List.foldlM_cons, h]
  rfl

lemma splitLines_append (h : splitLines newPath σ ls = some σ') (ls' : List (List Char)) :
    splitLines newPath σ (ls ++ ls') = splitLines newPath σ' ls' := by
  rw [splitLines, List.foldlM_append, ← splitLines, h]
  rfl

lemma Writing.lines (newPath : List Char) (h : Writing fs file text σ) (hls : ∀ line ∈ ls, IsBody line) :
    ∃ σ', splitLines newPath σ ls = some σ' ∧ Writing fs file (text ++ unlines ls) σ' := by
  induction ls generalizing σ text with
  | nil => exact ⟨σ, rfl, by simpa [unlines] using h⟩
  | cons line ls ih =>
    obtain ⟨σ₁, hstep, hσ₁⟩ := h.body newPath (hls line List.mem_cons_self)
    obtain ⟨σ₂, hrun, hσ₂⟩ := ih hσ₁ fun m hm => hls m (List.mem_cons_of_mem _ hm)
    refine ⟨σ₂, by rw [splitLines_cons hstep, hrun], ?_⟩
    rw [List.append_assoc] at hσ₂
    exact hσ₂

lemma Stuck.lines (newPath : List Char) (h : Stuck fs σ) (hls : ∀ line ∈ ls, IsBody line) :
    ∃ σ', splitLines newPath σ ls = some σ' ∧ Stuck fs σ' := by
  induction ls generalizing σ with
  | nil => exact ⟨σ, rfl, h⟩
  | cons line ls ih =>
    obtain ⟨σ₁, hstep, hσ₁⟩ := h.body newPath (hls line List.mem_cons_self)
    obtain ⟨σ₂, hrun, hσ₂⟩ := ih hσ₁ fun m hm => hls m (List.mem_cons_of_mem _ hm)
    exact ⟨σ₂, by rw [splitLines_cons hstep, hrun], hσ₂⟩

/-- The lines of a backup are those of its markers and of its content. -/
def wrapLines (p e : List Char) : List (List Char) :=
  (beginMark ++ p) :: (getlines (e ++ ['\n']) ++ [endMark ++ p])

lemma getlines_wrap_append (hp : '\n' ∉ p) (e rest : List Char) :
    getlines (wrap p e ++ rest) = wrapLines p e ++ getlines rest := by
  simp [getlines_wrap hp, wrapLines]

/-- Where a begin marker makes the stream fail, nothing of a backup is written before the file is
closed, and no file is opened after that. -/
lemma splitLines_wrapped (newPath : List Char) (he : IsWrapped e)
    (hbegin : ∀ p, ∃ σ', splitLine newPath σ (beginMark ++ p) = some σ' ∧ Stuck fs σ') :
    ∃ σ', splitLines newPath σ (getlines (e ++ ['\n'])) = some σ' ∧ Closed fs σ' := by
  have hlast : getlines ['\n'] = [[]] := by decide
  induction he generalizing σ with
  | plain p e hp he =>
    obtain ⟨σ₁, hfirst, hσ₁⟩ := hbegin p
    obtain ⟨σ₂, hlines, hσ₂⟩ := hσ₁.lines newPath he.concat
    obtain ⟨σ₃, hend, hσ₃⟩ := hσ₂.end newPath (List.prefix_append endMark p)
    refine ⟨σ₃, ?_, hσ₃⟩
    rw [getlines_wrap hp, hlast, splitLines_cons hfirst, splitLines_append hlines,
      splitLines_cons hend, splitLines_cons (hσ₃.body isBody_nil)]
    rfl
  | wrapped p e hp _ ih =>
    obtain ⟨σ₁, hfirst, hσ₁⟩ := hbegin p
    obtain ⟨σ₂, hlines, hσ₂⟩ := ih fun q => hσ₁.begin
    obtain ⟨σ₃, hend, hσ₃⟩ := hσ₂.end newPath (List.prefix_append endMark p)
    refine ⟨σ₃, ?_, hσ₃⟩
    rw [getlines_wrap hp, hlast, splitLines_cons hfirst, splitLines_append hlines,
      splitLines_cons hend, splitLines_cons (hσ₃.body isBody_nil)]
    rfl

/-- What is written for a content. -/
inductive SplitsTo : List Char → List Char → Prop
  | plain {e : List Char} : IsPlain e → SplitsTo e (e ++ ['\n'])
  | wrapped {e : List Char} : IsWrapped e → SplitsTo e []

def splitText (e : List Char) : List Char := if beginMark <+: e then [] else e ++ ['\n']

lemma splitsTo_splitText (h : IsPlain e ∨ IsWrapped e) : SplitsTo e (splitText e) := by
  rcases h with h | h
  · rw [splitText, if_neg h.not_begin]
    exact .plain h
  · rw [splitText, if_pos h.begin]
    exact .wrapped h

lemma Closed.backup (h : Closed fs σ) (hname : IsFileName (filename (outPath newPath p)))
    (he : SplitsTo e text) :
    ∃ σ', splitLines newPath σ (wrapLines p e) = some σ' ∧
      Closed (fs.write (outPath newPath p) text) σ' := by
  obtain ⟨σ₁, hbegin, hσ₁⟩ := h.begin hname
  rw [wrapLines, splitLines_cons hbegin]
  cases he with
  | plain he =>
    obtain ⟨σ₂, hlines, hσ₂⟩ := hσ₁.lines newPath he.concat
    obtain ⟨σ₃, hend, hσ₃⟩ := hσ₂.end newPath (List.prefix_append endMark p)
    rw [List.nil_append, unlines_getlines] at hσ₃
    exact ⟨σ₃, by rw [splitLines_append hlines, splitLines_cons hend]; rfl, hσ₃⟩
  | wrapped he =>
    -- the marker in front of the content is the second one
    obtain ⟨σ₂, hlines, hσ₂⟩ := splitLines_wrapped newPath he fun q => hσ₁.begin
    obtain ⟨σ₃, hend, hσ₃⟩ := hσ₂.end newPath (List.prefix_append endMark p)
    exact ⟨σ₃, by rw [splitLines_append hlines, splitLines_cons hend]; rfl, hσ₃⟩

/-! ### Whatever the contents are -/

/-- Lines that may stand in a buffer. -/
def BodyLines (ls : List (List Char)) : Prop := ∀ line ∈ ls, IsBody line ∧ '\n' ∉ line

/-- The file holds no marker. -/
def HasBody (fs : FileSystem) (file : List Char) : Prop :=
  ∃ ls, fs file = some (unlines ls) ∧ BodyLines ls

structure Tidy (σ : SplitState) : Prop where
  lines : BodyLines σ.buffer
  closed : σ.outFile = none → σ.buffer = []

lemma Tidy.flushBuffer (file : List Char) (h : Tidy σ) :
    Tidy σ.flushBuffer ∧ σ.flushBuffer.buffer = [] ∧
      (HasBody σ.fs file → HasBody σ.flushBuffer.fs file) := by
  rw [SplitState.flushBuffer]
  by_cases hbuffer : σ.buffer = []
  · rw [if_pos hbuffer]
    exact ⟨h, hbuffer, id⟩
  · rw [if_neg hbuffer]
    cases hout : σ.outFile with
    | none => exact absurd (h.closed hout) hbuffer
    | some out =>
      have hnil : BodyLines [] := fun line hline => absurd hline List.not_mem_nil
      by_cases hfailed : σ.failed
      · simp only [hfailed, if_true]
        exact ⟨⟨hnil, fun _ => rfl⟩, trivial, id⟩
      · simp only [hfailed, Bool.false_eq_true, if_false]
        refine ⟨⟨hnil, fun _ => rfl⟩, trivial, ?_⟩
        rintro ⟨ls, hfile, hls⟩
        by_cases heq : file = out
        · subst heq
          refine ⟨ls ++ σ.buffer, ?_, fun line hline => ?_⟩
          · rw [write_self, hfile, Option.getD_some, unlines, unlines, ← List.flatMap_append]
            rfl
          · exact (List.mem_append.mp hline).elim (hls line) (h.lines line)
        · exact ⟨ls, by rw [FileSystem.write, Function.update_of_ne heq, hfile], hls⟩

lemma Tidy.step (file : List Char) (h : Tidy σ) (hline : '\n' ∉ line)
    (hstep : splitLine newPath σ line = some σ') :
    Tidy σ' ∧ (HasBody σ.fs file → HasBody σ'.fs file) := by
  obtain ⟨hflush, hbuffer, hbody⟩ := h.flushBuffer file
  rw [splitLine] at hstep
  split_ifs at hstep with hbegin hend hopen
  · rw [SplitState.openFile] at hstep
    split_ifs at hstep with hopen hname
    · obtain rfl := Option.some_inj.mp hstep
      exact ⟨⟨hflush.lines, hflush.closed⟩, hbody⟩
    · obtain rfl := Option.some_inj.mp hstep
      refine ⟨⟨hflush.lines, fun _ => hbuffer⟩, fun hfile => ?_⟩
      obtain ⟨ls, hls, hlines⟩ := hbody hfile
      by_cases heq : file = outPath newPath (line.drop 8)
      · exact ⟨[], by rw [heq]; exact write_self _ _ _, fun _ h => absurd h List.not_mem_nil⟩
      · exact ⟨ls, by rw [← hls]; exact Function.update_of_ne heq _ _, hlines⟩
  · obtain rfl := Option.some_inj.mp hstep
    exact ⟨⟨hflush.lines, fun _ => hbuffer⟩, hbody⟩
  · have hpush : Tidy { σ with buffer := σ.buffer ++ [line] } := by
      constructor
      · intro l hl
        rcases List.mem_append.mp hl with hl | hl
        · exact h.lines l hl
        · rw [List.mem_singleton.mp hl]
          exact ⟨⟨hbegin, hend⟩, hline⟩
      · intro hnone
        rw [show σ.outFile = none from hnone] at hopen
        cases hopen
    obtain rfl := Option.some_inj.mp hstep
    split_ifs
    · obtain ⟨hflush, -, hbody⟩ := hpush.flushBuffer file
      exact ⟨hflush, hbody⟩
    · exact ⟨hpush, id⟩
  · obtain rfl := Option.some_inj.mp hstep
    exact ⟨h, id⟩

lemma Tidy.run (file : List Char) (h : Tidy σ) (hls : ∀ line ∈ ls, '\n' ∉ line)
    (hrun : splitLines newPath σ ls = some σ') :
    Tidy σ' ∧ (HasBody σ.fs file → HasBody σ'.fs file) := by
  induction ls generalizing σ with
  | nil =>
    obtain rfl := Option.some_inj.mp hrun
    exact ⟨h, id⟩
  | cons line ls ih =>
    rw [splitLines, List.foldlM_cons] at hrun
    obtain ⟨σ₁, hstep, hrest⟩ := Option.bind_eq_some_iff.mp hrun
    obtain ⟨hσ₁, hbody₁⟩ := h.step file (hls line List.mem_cons_self) hstep
    obtain ⟨hσ', hbody'⟩ := ih hσ₁ (fun l hl => hls l (List.mem_cons_of_mem _ hl)) hrest
    exact ⟨hσ', fun hfile => hbody' (hbody₁ hfile)⟩

end Verilua.FileManage
