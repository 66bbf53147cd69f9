import Mathlib.Data.Option.Basic
import Verilua.SvBuilder.Expand

/-!
# The tokens of a statement on one line

`process_content` deletes the line breaks of a statement before it makes every run of blanks one
space, so that two tokens with only line breaks between them are written side by side. The statement
keeps the tokens of its expression exactly if none of them is read as another one there.
-/

namespace Verilua.SVBuilder

variable {w rest : Text} {c d : Char}

/-! ### The layout -/

/-- The line breaks are deleted, and the other blanks collapsed. -/
def oneLine : Layout sv.blank where
  gone c := c == '\n'
  space := ' '
  blank_of_gone c h := by
    obtain rfl := beq_iff_eq.mp h
    decide
  blank_space := by decide
  gone_space := by decide

lemma squeeze_filter (inRun : Bool) (content : Text) :
    squeeze inRun (content.filter (· ≠ '\n')) = oneLine.squash inRun content := by
  induction content generalizing inRun with
  | nil => rfl
  | cons c content ih =>
    by_cases hc : c = '\n'
    · subst hc
      rw [List.filter_cons_of_neg (by simp), oneLine.squash_gone (by decide), ih]
    · have hgone : oneLine.gone c = false := by simp [oneLine, hc]
      rw [List.filter_cons_of_pos (by simp [hc]), squeeze]
      cases hblank : isSpace c with
      | true =>
        rw [oneLine.squash_blank hgone hblank, ih, if_pos rfl]
        rfl
      | false =>
        rw [oneLine.squash_cons hblank, if_neg Bool.false_ne_true]
        exact congrArg (c :: ·) (ih false)

lemma processContent_eq (content : Text) :
    processContent content = oneLine.squash false content :=
  squeeze_filter false content

/-! ### Words -/

/-- A simple identifier. -/
def isIdentifier (w : Text) : Bool :=
  w.head?.any (fun c => c.isAlpha || c == '_') && w.all isWordChar

lemma isSpace_of_isWordChar (h : isWordChar c = true) : isSpace c = false := by
  simp only [isWordChar, Bool.or_eq_true, beq_iff_eq] at h
  rcases h with h | rfl
  · exact isSpace_of_lt (le_trans (by decide) (le_toNat_of_isAlphanum h))
  · decide

lemma isDigit_of_isAlpha (h : c.isAlpha = true ∨ c = '_') : c.isDigit = false := by
  rcases h with h | rfl
  · by_contra hdigit
    have hle := le_toNat_of_isAlpha h
    have hge := (le_toNat_of_isDigit (Bool.not_eq_false _ ▸ hdigit)).2
    omega
  · decide

lemma isIdentifier_cons (h : isIdentifier w = true) :
    ∃ c cs, w = c :: cs ∧ (c.isAlpha = true ∨ c = '_') ∧ ∀ d ∈ w, isWordChar d = true := by
  simp only [isIdentifier, Bool.and_eq_true, List.all_eq_true] at h
  obtain ⟨hhead, hall⟩ := h
  cases w with
  | nil => cases hhead
  | cons c cs => exact ⟨c, cs, rfl, by simpa using hhead, hall⟩

lemma munch_word (h : isIdentifier w = true) (hd : isWordChar d = false) (rest : Text) :
    munch false (w ++ d :: rest) = w.length := by
  obtain ⟨c, cs, rfl, hc, hall⟩ := isIdentifier_cons h
  have hne : ∀ {k : Char}, isWordChar k = false → c ≠ k := by
    rintro k hk rfl
    rw [hall c List.mem_cons_self] at hk
    cases hk
  have hspan : span isWordChar (c :: cs ++ d :: rest) = (c :: cs).length := by
    rw [span, List.takeWhile_append_of_pos hall, List.takeWhile_cons_of_neg (by simp [hd]),
      List.append_nil]
  rw [List.cons_append, munch, if_neg (by simp), if_neg (hne (by decide)),
    if_neg (hne (by decide)), if_neg (hne (by decide)), if_neg (by simp [isDigit_of_isAlpha hc]),
    if_pos (hall c List.mem_cons_self)]
  exact hspan

lemma tokens_cons {st : Bool} {ℓ : Text} (hc : isSpace c = false)
    (hfirst : sv.first st (c :: rest) = ℓ) (hcomment : isComment ℓ = false)
    (hbase : isBase ℓ = false) :
    sv.tokens st (c :: rest) = ℓ :: tokens ((c :: rest).drop ℓ.length) := by
  have hdrop : (c :: rest).dropWhile sv.blank = c :: rest :=
    List.dropWhile_cons_of_neg (by simp [show sv.blank c = false from hc])
  rw [sv.tokens_of_token hdrop (by rw [hfirst]; exact hcomment)]
  simp only [Lexer.rest, hfirst]
  rw [show sv.next st ℓ = false by simp [sv, hcomment, hbase]]
  rfl

lemma tokens_word (h : isIdentifier w = true) (hd : isWordChar d = false) :
    tokens (w ++ d :: rest) = w :: tokens (d :: rest) := by
  have hmunch := munch_word h hd rest
  obtain ⟨c, cs, rfl, hc, hall⟩ := isIdentifier_cons h
  have hne : ∀ {k : Char}, isWordChar k = false → c ≠ k := by
    rintro k hk rfl
    rw [hall c List.mem_cons_self] at hk
    cases hk
  have hfirst : sv.first false (c :: cs ++ d :: rest) = c :: cs := by
    have hlength : max 1 (munch false (c :: cs ++ d :: rest)) = (c :: cs).length := by
      rw [hmunch]
      exact max_eq_right (Nat.succ_le_succ (Nat.zero_le _))
    change List.take (max 1 (munch false (c :: cs ++ d :: rest))) _ = _
    rw [hlength, List.take_left]
  have hcomment : isComment (c :: cs) = false := by
    simp [isComment, List.isPrefixOf, (hne (by decide : isWordChar '/' = false)).symm]
  have hbase : isBase (c :: cs) = false := by
    simp [isBase, hne (by decide : isWordChar '\x27' = false)]
  have htokens := tokens_cons (isSpace_of_isWordChar (hall c List.mem_cons_self)) hfirst hcomment
    hbase
  change tokens (c :: cs ++ d :: rest) =
    (c :: cs) :: tokens ((c :: cs ++ d :: rest).drop (c :: cs).length) at htokens
  rw [List.drop_left] at htokens
  exact htokens

lemma tokens_blank (hc : isSpace c = true) : tokens (c :: rest) = tokens rest :=
  sv.tokens_congr (List.dropWhile_cons_of_pos hc)

lemma tokens_semicolon (st : Bool) : sv.tokens st (';' :: rest) = [';'] :: tokens rest := by
  refine tokens_cons (by decide) ?_ (by decide) (by decide)
  cases st <;> rfl

lemma tokens_brackets :
    tokens ('(' :: ')' :: ';' :: rest) = ['('] :: [')'] :: [';'] :: tokens rest := by
  have hopen : tokens ('(' :: ')' :: ';' :: rest) = ['('] :: tokens (')' :: ';' :: rest) :=
    tokens_cons (by decide) rfl (by decide) (by decide)
  have hclose : tokens (')' :: ';' :: rest) = [')'] :: tokens (';' :: rest) :=
    tokens_cons (by decide) rfl (by decide) (by decide)
  rw [hopen, hclose]
  exact congrArg (['('] :: [')'] :: ·) (tokens_semicolon false)

/-! ### Statements -/

namespace Typ

/-- The keyword of the declaration. -/
def covType : Typ → Option CovType
  | .cover covType => some (covType.getD .property)
  | .assert | .property => some .property
  | .sequence => some .sequence
  | .covergroup _ | .raw => none

/-- The name of the declaration. -/
def declName (name : Text) : Typ → Text
  | .cover covType => genName name (covType.getD .property)
  | .assert => genName name .property
  | _ => name

/-- What the statement has after the declaration. -/
def label (name : Text) : Typ → Text
  | .cover covType => '\n' :: name ++ ": cover ".toList ++ (covType.getD .property).text ++
      " (".toList ++ genName name (covType.getD .property) ++ ");".toList
  | .assert => '\n' :: name ++ ": assert property (".toList ++ genName name .property ++ ");".toList
  | _ => []

/-- Where the statements are stored. -/
def vec : Typ → Builder → List Text
  | .cover _ | .assert => Builder.contentVec
  | .property => Builder.propertyVec
  | .sequence => Builder.sequenceVec
  | .covergroup _ => Builder.covergroupVec
  | .raw => Builder.preambleVec

end Typ

section Add

variable {ext : Extern} {b b' : Builder} {typ : Typ} {p : Params} {ct : CovType}

/-- The statement that is stored for a substituted text. -/
def statement (typ : Typ) (ct : CovType) (name ret : Text) : Text :=
  processContent (declaration ct (typ.declName name) ret) ++ typ.label name

lemma add_statement (hct : typ.covType = some ct) (hadd : b.add ext typ p = some b')
    (hengine : setsEngine (p.envs ++ b.globalEnvs) = false) :
    ∃ ret, b.substitute ext (p.envs ++ b.globalEnvs) (rewriteNsRefs p.expr) = some ret ∧
      typ.vec b' = typ.vec b ++ [statement typ ct p.name ret] := by
  simp only [Builder.add, hengine, Bool.false_eq_true, if_false, Option.bind_eq_bind] at hadd
  obtain ⟨-, -, hadd⟩ := Option.bind_eq_some_iff.mp hadd
  obtain ⟨-, -, hadd⟩ := Option.bind_eq_some_iff.mp hadd
  obtain ⟨ret, hret, hadd⟩ := Option.bind_eq_some_iff.mp hadd
  refine ⟨ret, hret, ?_⟩
  cases typ with
  | covergroup sampleEvent | raw => cases hct
  | cover covType | assert | property | sequence =>
    obtain rfl := Option.some_inj.mp hct
    obtain ⟨-, -, hadd⟩ := Option.bind_eq_some_iff.mp hadd
    obtain rfl := Option.some_inj.mp hadd
    simp [Typ.vec, statement, Typ.label, Typ.declName]

/-! ### In what is generated -/

lemma infix_intercalate {sep x : Text} {parts : List Text} (h : x ∈ parts) :
    x <:+: sep.intercalate parts := by
  induction parts with
  | nil => cases h
  | cons y parts ih =>
    cases parts with
    | nil =>
      refine ⟨[], [], ?_⟩
      rw [List.mem_singleton.mp h, List.intercalate_singleton, List.nil_append, List.append_nil]
    | cons z parts =>
      rw [List.intercalate_cons_cons]
      rcases List.mem_cons.mp h with rfl | h
      · rw [List.append_assoc]
        exact (List.prefix_append _ _).isInfix
      · exact (ih h).trans (List.suffix_append _ _).isInfix

lemma exists_mem_numbered {x : Text} {contents : List Text} (h : x ∈ contents) :
    ∃ part ∈ numbered contents, x <:+: part := by
  obtain ⟨i, hi, rfl⟩ := List.mem_iff_getElem.mp h
  have hmem : (contents[i], i) ∈ contents.zipIdx :=
    List.mk_mem_zipIdx_iff_getElem?.mpr (List.getElem?_eq_getElem hi)
  refine ⟨_, List.mem_map_of_mem hmem, ?_⟩
  exact ((List.suffix_cons '\n' _).trans (List.suffix_append _ _)).isInfix

lemma infix_generate (hct : typ.covType = some ct) {x : Text} (h : x ∈ typ.vec b) :
    x <:+: b.generate := by
  have hpart : ∃ part ∈ b.parts, x <:+: part := by
    cases typ with
    | covergroup sampleEvent | raw => cases hct
    | property =>
      have hmem : x ∈ b.propertyVec := h
      exact ⟨x, by simp [Builder.parts, hmem], List.infix_rfl⟩
    | sequence =>
      have hmem : x ∈ b.sequenceVec := h
      exact ⟨x, by simp [Builder.parts, hmem], List.infix_rfl⟩
    | cover covType | assert =>
      obtain ⟨part, hmem, hx⟩ := exists_mem_numbered (show x ∈ b.contentVec from h)
      exact ⟨part, by simp [Builder.parts, hmem], hx⟩
  obtain ⟨part, hmem, hx⟩ := hpart
  rw [Builder.generate, if_neg (List.ne_nil_of_mem hmem)]
  exact hx.trans ((infix_intercalate hmem).trans (List.prefix_append _ _).isInfix)

end Add

/-! ### The tokens of a statement -/

/-- The end of a declaration. -/
def closing (ct : CovType) : Text := [';', ' ', 'e', 'n', 'd'] ++ ct.text

lemma isIdentifier_text (ct : CovType) : isIdentifier ct.text = true := by
  cases ct <;> decide

lemma isIdentifier_declName {name : Text} (h : isIdentifier name = true) (typ : Typ) :
    isIdentifier (typ.declName name) = true := by
  have hgen : ∀ ct : CovType, isIdentifier (genName name ct) = true := by
    intro ct
    obtain ⟨c, cs, hcons, -, hall⟩ := isIdentifier_cons h
    have hupper : ∀ d ∈ ct.text.map Char.toUpper, isWordChar d = true := by
      cases ct <;> exact List.all_eq_true.mp rfl
    have hgen : ∀ d ∈ ['_', 'G', 'E', 'N', '_'], isWordChar d = true := List.all_eq_true.mp rfl
    rw [isIdentifier, Bool.and_eq_true, List.all_eq_true]
    refine ⟨rfl, fun d hd => ?_⟩
    rw [genName, List.mem_append, List.mem_append] at hd
    rcases hd with (hd | hd) | hd
    · exact hgen d hd
    · exact hall d (hcons ▸ hd)
    · rcases List.mem_cons.mp hd with rfl | hd
      · decide
      · exact hupper d hd
  cases typ with
  | cover covType => exact hgen _
  | assert => exact hgen _
  | property | sequence | covergroup sampleEvent | raw => exact h

lemma processContent_declaration {name : Text} (h : isIdentifier name = true) (ct : CovType)
    (ret : Text) : processContent (declaration ct name ret) =
      ct.text ++ ' ' :: (name ++ '(' :: ')' :: ';' :: ' ' ::
        oneLine.squash true (ret ++ closing ct)) := by
  have hword : ∀ {w : Text} {run : Bool} {rest : Text}, isIdentifier w = true →
      oneLine.squash run (w ++ rest) = w ++ oneLine.squash false rest := by
    intro w run rest hw
    obtain ⟨c, cs, rfl, -, hall⟩ := isIdentifier_cons hw
    exact oneLine.squash_of_not_blank (List.cons_ne_nil c cs) fun d hd =>
      isSpace_of_isWordChar (hall d hd)
  have hdecl : declaration ct name ret = ct.text ++ ' ' :: (name ++ '(' :: ')' :: ';' :: ' ' ::
      (ret ++ closing ct)) := by
    simp [declaration, closing]
  rw [processContent_eq, hdecl, hword (isIdentifier_text ct)]
  refine congrArg (ct.text ++ ' ' :: ·) ?_
  rw [hword h]
  rfl

lemma tokens_statement {typ : Typ} {name : Text} (h : isIdentifier name = true) (ct : CovType)
    (ret : Text) : tokens (statement typ ct name ret) =
      [ct.text, typ.declName name, ['('], [')'], [';']] ++
        tokens (oneLine.squash true (ret ++ closing ct) ++ typ.label name) := by
  have hname := isIdentifier_declName h typ
  rw [statement, processContent_declaration hname, List.append_assoc, List.cons_append,
    tokens_word (isIdentifier_text ct) (by decide), tokens_blank (by decide), List.append_assoc,
    List.cons_append, tokens_word hname (by decide), List.cons_append, List.cons_append,
    List.cons_append, tokens_brackets, tokens_blank (by decide)]
  rfl

/-- The statement that is added, which is generated, declares with the tokens of the text. -/
def Keeps (typ : Typ) (ct : CovType) (name text : Text) (b b' : Builder) : Prop :=
  ∃ statement, typ.vec b' = typ.vec b ++ [statement] ∧ statement <:+: b'.generate ∧
    tokens statement = [ct.text, typ.declName name, ['('], [')'], [';']] ++ tokens text ++
      tokens (closing ct ++ typ.label name)

/-- As long as the comments of the substituted text are kept, its tokens are exactly if every one of
them is still the longest one at its place when the line breaks are deleted. -/
theorem keeps_iff {ext : Extern} {b b' : Builder} {typ : Typ} {ct : CovType} {name text : Text}
    {e : Expr} {envs : Envs} (hct : typ.covType = some ct) (hname : isIdentifier name = true)
    (he : e.Valid) (hhash : hasHashLine true e.spell = false)
    (hengine : setsEngine (envs ++ b.globalEnvs) = false)
    (hprinted : e.printed (b.printRef (envs ++ b.globalEnvs)) = some text)
    (hadd : b.add ext typ ⟨name, e.spell, envs⟩ = some b')
    (hcomments : sv.KeepsComments oneLine (closing ct) (typ.label name) false text) :
    Keeps typ ct name text b b' ↔
      sv.Stable oneLine (closing ct) (typ.label name) false text := by
  obtain ⟨ret, hret, hvec⟩ := add_statement hct hadd hengine
  rw [b.substitute_spell he hengine hhash, hprinted] at hret
  obtain rfl := Option.some_inj.mp hret
  have hgenerate : statement typ ct name text <:+: b'.generate :=
    infix_generate hct (by rw [hvec]; exact List.mem_append_right _ List.mem_cons_self)
  have hpost : (closing ct).dropWhile sv.blank ≠ [] := by cases ct <;> decide
  have hsquash : oneLine.squash false (closing ct) = closing ct := by cases ct <;> decide
  have hclosing : sv.tokens (sv.after false text) (closing ct ++ typ.label name) =
      tokens (closing ct ++ typ.label name) :=
    (tokens_semicolon _).trans (tokens_semicolon false).symm
  have hiff : tokens (oneLine.squash true (text ++ closing ct) ++ typ.label name) =
      tokens text ++ tokens (closing ct ++ typ.label name) ↔
        sv.Stable oneLine (closing ct) (typ.label name) false text := by
    rw [← sv.tokens_squash_iff hpost hcomments, hsquash, hclosing]
    rfl
  rw [← hiff]
  constructor
  · rintro ⟨stored, hstored, -, htokens⟩
    obtain rfl := List.singleton_inj.mp (List.append_cancel_left (hvec.symm.trans hstored))
    rw [tokens_statement hname, List.append_assoc] at htokens
    exact List.append_cancel_left htokens
  · intro htokens
    refine ⟨_, hvec, hgenerate, ?_⟩
    rw [tokens_statement hname, htokens, List.append_assoc]

/-- Nothing is left to Lua, and `sv_lint` finds nothing. -/
def quiet : Extern := ⟨fun _ _ _ => none, fun _ str => str, fun _ _ _ => none, fun _ => none⟩

/-- A handle in front of an operator, with a line break and blanks behind it. -/
def implication : Expr :=
  ⟨[], [(.var ['x'], [' ', '|', '-', '>', '\n', ' ', ' ', 'b'])]⟩

theorem keeps_implication :
    ∃ b', (Builder.empty true true).add quiet .assert
        ⟨['p'], implication.spell, [(['x'], .hdl ['u', '.', 'x'])]⟩ = some b' ∧
      Keeps .assert .property ['p'] ['u', '.', 'x', ' ', '|', '-', '>', '\n', ' ', ' ', 'b']
        (Builder.empty true true) b' := by
  have hvalid : implication.Valid := by
    refine ⟨rfl, fun x hx => ?_⟩
    obtain rfl := List.mem_singleton.mp hx
    exact ⟨⟨by decide, by decide, by decide, by decide⟩, by decide⟩
  have hengine : setsEngine
      ([(['x'], .hdl ['u', '.', 'x'])] ++ (Builder.empty true true).globalEnvs) = false := by decide
  obtain ⟨b', hadd⟩ : ∃ b', (Builder.empty true true).add quiet .assert
      ⟨['p'], implication.spell, [(['x'], .hdl ['u', '.', 'x'])]⟩ = some b' := ⟨_, rfl⟩
  refine ⟨b', hadd, ?_⟩
  exact (keeps_iff rfl (by decide) hvalid (by decide) hengine rfl hadd (by decide)).mpr (by decide)

/-- Two words with a line break between them become one. -/
theorem not_keeps :
    ¬ ∀ (ext : Extern) (b b' : Builder) (typ : Typ) (ct : CovType) (name text : Text) (e : Expr)
      (envs : Envs), typ.covType = some ct → isIdentifier name = true → e.Valid →
      hasHashLine true e.spell = false → setsEngine (envs ++ b.globalEnvs) = false →
      ¬ ['/', '/'] <:+: e.spell → e.printed (b.printRef (envs ++ b.globalEnvs)) = some text →
      b.add ext typ ⟨name, e.spell, envs⟩ = some b' → Keeps typ ct name text b b' := by
  intro h
  have hkeeps := h quiet (Builder.empty true true) _ .property .property ['p']
    ['a', '\n', 'o', 'r', ' ', 'b'] ⟨['a', '\n', 'o', 'r', ' ', 'b'], []⟩ [] rfl (by decide)
    ⟨rfl, by simp⟩ (by decide) (by decide) (by decide) rfl rfl
  obtain ⟨statement, hstored, -, htokens⟩ := hkeeps
  obtain rfl := List.singleton_inj.mp hstored.symm
  revert htokens
  decide

end Verilua.SVBuilder
