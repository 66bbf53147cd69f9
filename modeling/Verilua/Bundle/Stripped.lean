import Mathlib.Data.List.TakeWhile
import Verilua.Bundle.Basic
import Verilua.Lib.Leftmost
import Verilua.Lib.Lexer

/-!
# Literal requires

`scan_requires` looks for a pattern in the text of a module after two other patterns have taken out
the comments. Beside it stand the lexemes that LuaJIT reads, and the calls of `require` among them.
-/

namespace Verilua.Bundle

open Leftmost

abbrev Text := List Char

/-! ### Patterns -/

/-- `%s` -/
def isSpace (c : Char) : Bool := c == ' ' || (9 ≤ c.toNat && c.toNat ≤ 13)

/-- `[%w_%.%-]` -/
def isNameChar (c : Char) : Bool := c.isAlphanum || c == '_' || c == '.' || c == '-'

def isQuote (c : Char) : Bool := c == '\x22' || c == '\x27'

/-- One character that may be missing, as in `%(?`. -/
def optional (c : Char) : Text → Text
  | [] => []
  | d :: ds => if d = c then ds else d :: ds

/-- `%s*%(?%s*` -/
def lead (l : Text) : Text := (optional '(' (l.dropWhile isSpace)).dropWhile isSpace

/-- `%s*%)?` -/
def trail (l : Text) : Text := optional ')' (l.dropWhile isSpace)

def requireWord : Text := ['r', 'e', 'q', 'u', 'i', 'r', 'e']

/-- `["']([%w_%.%-]+)["']%s*%)?` -/
def quotedName : Matcher Char Name
  | [] => none
  | q :: cs =>
    match cs.dropWhile isNameChar with
    | [] => none
    | q' :: rest =>
      if isQuote q ∧ cs.takeWhile isNameChar ≠ [] ∧ isQuote q' then
        some (cs.takeWhile isNameChar, trail rest)
      else none

/-- `require%s*%(?%s*["']([%w_%.%-]+)["']%s*%)?` -/
def requireMatch : Matcher Char Name := fun l =>
  if requireWord.isPrefixOf l then quotedName (lead (l.drop 7)) else none

/-- What is behind the first `close`. -/
def behind (close : Text) : Text → Option Text
  | [] => none
  | c :: cs =>
    if close.isPrefixOf (c :: cs) then some ((c :: cs).drop close.length) else behind close cs

/-- `%-%-%[%[.-%]%]` -/
def longMatch : Matcher Char Unit := fun l =>
  if ['-', '-', '[', '['].isPrefixOf l then
    (behind [']', ']'] (l.drop 4)).map fun rest => ((), rest)
  else none

/-- `%-%-[^\n]*` -/
def lineMatch : Matcher Char Unit := fun l =>
  if ['-', '-'].isPrefixOf l then some ((), (l.drop 2).dropWhile (· ≠ '\n')) else none

def stripComments (src : Text) : Text := erase lineMatch (erase longMatch src)

def addName (names : List Name) (name : Name) : List Name :=
  if names.contains name then names else names ++ [name]

def scanRequires (src : Text) : List Name :=
  (captures requireMatch (stripComments src)).foldl addName []

/-! ### Lexemes -/

def isNewline (c : Char) : Bool := c == '\n' || c == '\r'

/-- A byte that is not ASCII belongs to a name. -/
def isIdent (c : Char) : Bool := c.isAlphanum || c == '_' || 128 ≤ c.toNat

/-- What a string literal goes over behind a backslash. -/
inductive Skips
  | nothing
  | escaped
  | blanks
  | newline (c : Char)
  deriving DecidableEq

/-- What is behind a string literal, from the character after its quote on. -/
def afterString (q : Char) : Skips → Text → Text
  | _, [] => []
  | skips, c :: cs =>
    if skips = .escaped then
      if c = 'z' then afterString q .blanks cs
      else if c = '\n' then afterString q (.newline '\r') cs
      else if c = '\r' then afterString q (.newline '\n') cs
      else afterString q .nothing cs
    else if skips = .newline c then afterString q .nothing cs
    else if skips = .blanks ∧ isSpace c then afterString q .blanks cs
    else if c = q then cs
    else if c = '\x5c' then afterString q .escaped cs
    -- a line end in a string literal is an error
    else if isNewline c then []
    else afterString q .nothing cs

/-- How a long bracket that begins here is closed, and what is behind it. -/
def longBracket : Text → Option (Text × Text)
  | [] => none
  | c :: cs =>
    if c = '[' ∧ (cs.dropWhile (· = '=')).head? = some '[' then
      some (']' :: cs.takeWhile (· = '=') ++ [']'], (cs.dropWhile (· = '=')).tail)
    else none

/-- What is behind a number; `e` is the letter of its exponents, and `prev` was read last. -/
def afterNumber (e : Char) : Char → Text → Text
  | _, [] => []
  | prev, c :: cs =>
    if isIdent c || c == '.' || ((c == '-' || c == '+') && prev.toLower == e) then
      afterNumber e c cs
    else c :: cs

def isHex (l : Text) : Bool := l.head? == some '0' && l[1]?.any fun c => c.toLower == 'x'

/-- The operators of more than one character. -/
def operators : List Text :=
  [['.', '.', '.'], ['.', '.'], ['=', '='], ['~', '='], ['<', '='], ['>', '='], [':', ':']]

def afterOperator (l : Text) : Text :=
  match operators.find? fun operator => operator.isPrefixOf l with
  | some operator => l.drop operator.length
  | none => l.drop 1

/-- What is behind the lexeme that begins here. One that is not closed goes to the end. -/
def afterLexeme : Text → Text
  | [] => []
  | c :: cs =>
    if ['-', '-'].isPrefixOf (c :: cs) then
      match longBracket cs.tail with
      | some (close, l) => (behind close l).getD []
      | none => cs.tail.dropWhile fun d => !isNewline d
    else if isQuote c then afterString c .nothing cs
    else if c.isDigit then afterNumber (if isHex (c :: cs) then 'p' else 'e') c cs
    else if c = '.' ∧ cs.head?.any Char.isDigit then
      afterNumber (if isHex cs then 'p' else 'e') c cs
    else if isIdent c then cs.dropWhile isIdent
    else
      match longBracket (c :: cs) with
      | some (close, l) => (behind close l).getD []
      | none => afterOperator (c :: cs)

def isComment (ℓ : Text) : Bool := ['-', '-'].isPrefixOf ℓ

/-- A first line that begins with `#` is read like the others. -/
def lua : Lexer Unit Char where
  blank := isSpace
  munch _ l := l.length - (afterLexeme l).length
  next s _ := s
  comment := isComment
  next_comment _ _ _ := rfl

def tokens (text : Text) : List Text := lua.tokens () text

/-! ### Calls of `require` -/

/-- The inside of a string literal. -/
def quoted? : Text → Option Name
  | [] => none
  | q :: cs => if isQuote q ∧ cs.getLast? = some q then some cs.dropLast else none

/-- Whether `t` is the `require` of a call `require("x")` or `require "x"`. -/
def literalAt (t : Text) (ts : List Text) : Option Name :=
  if t = requireWord then
    match ts with
    | [] => none
    | [s] => quoted? s
    | s :: s' :: ts =>
      if s = ['('] then if ts.head? = some [')'] then quoted? s' else none else quoted? s
  else none

/-- The names in the literal calls of `require`. -/
def literals : List Text → List Name
  | [] => []
  | t :: ts => (literalAt t ts).toList ++ literals ts

/-- Lua's literal requires of a module. -/
def luaRequires (src : Text) : List Name := literals (tokens src)

/-!
### Texts without comments

The patterns know neither string literals nor the long brackets with a level. Without these in the
way, what is left of a text are its tokens with blanks between them.
-/

open Leftmost

/-- `--` -/
def dashes : Text := ['-', '-']

/-- The comment `ℓ` at the beginning of a text is taken out as it is: it is a comment `--[[ ]]`, or
it ends with its line and no such comment begins in it. -/
def FineComment (l ℓ : Text) : Prop :=
  (longMatch l).isSome = true ∨
    longBracket (l.drop 2) = none ∧ (∀ k < ℓ.length, longMatch (l.drop k) = none) ∧
      (l.drop ℓ.length = [] ∨ ['\n'] <+: l.drop ℓ.length ∨ ['\r', '\n'] <+: l.drop ℓ.length)

/-- No comment seems to begin in a token. -/
def FineToken (l ℓ : Text) : Prop := ∀ k < ℓ.length, ¬ dashes <+: l.drop k

def Fine (l : Text) : Prop :=
  if isComment (lua.first () l) then FineComment l (lua.first () l)
  else FineToken l (lua.first () l)

instance (l ℓ : Text) : Decidable (FineComment l ℓ) :=
  inferInstanceAs (Decidable ((longMatch l).isSome = true ∨
    longBracket (l.drop 2) = none ∧ (∀ k < ℓ.length, longMatch (l.drop k) = none) ∧
      (l.drop ℓ.length = [] ∨ ['\n'] <+: l.drop ℓ.length ∨ ['\r', '\n'] <+: l.drop ℓ.length)))

instance (l ℓ : Text) : Decidable (FineToken l ℓ) :=
  inferInstanceAs (Decidable (∀ k < ℓ.length, ¬ dashes <+: l.drop k))

instance (l : Text) : Decidable (Fine l) :=
  inferInstanceAs (Decidable (if isComment (lua.first () l) then FineComment l (lua.first () l)
    else FineToken l (lua.first () l)))

variable {l pre post rest : Text} {c : Char} {cs : Text} {ts : List Text}

/-! ### Comments are taken out -/

lemma lineMatch_of_not (h : ¬ dashes <+: l) : lineMatch l = none := by
  rw [lineMatch, if_neg]
  exact fun hprefix => h (List.isPrefixOf_iff_prefix.mp hprefix)

lemma longMatch_of_not (h : ¬ dashes <+: l) : longMatch l = none := by
  rw [longMatch, if_neg]
  intro hprefix
  have hlong := List.isPrefixOf_iff_prefix.mp hprefix
  exact h ((List.prefix_append dashes ['[', '[']).trans hlong)

lemma behind_suffix {close : Text} (h : behind close l = some rest) : rest <:+ l := by
  induction l with
  | nil => cases h
  | cons c cs ih =>
    rw [behind] at h
    split_ifs at h
    · exact Option.some.inj h ▸ List.drop_suffix _ _
    · exact (ih h).trans (List.suffix_cons c cs)

lemma shortens_longMatch : Matcher.Shortens longMatch := by
  intro c cs b rest h
  rw [longMatch] at h
  split_ifs at h
  obtain ⟨rest', hbehind, heq⟩ := Option.map_eq_some_iff.mp h
  obtain rfl : rest' = rest := congrArg Prod.snd heq
  exact (behind_suffix hbehind).trans (List.drop_suffix 3 cs)

lemma shortens_lineMatch : Matcher.Shortens lineMatch := by
  intro c cs b rest h
  rw [lineMatch] at h
  split_ifs at h
  obtain rfl : (cs.drop 1).dropWhile (· ≠ '\n') = rest := congrArg Prod.snd (Option.some.inj h)
  exact (List.dropWhile_suffix _).trans (List.drop_suffix 1 cs)

/-- A dash in front of what the first pattern has left is in front of a dash only where it was. -/
lemma not_dashes_erase {u : Text} (hne : u ≠ []) (h : ¬ dashes <+: u ++ l) :
    ¬ dashes <+: u ++ erase longMatch l := by
  intro hdashes
  rcases u with _ | ⟨a, _ | ⟨b, u⟩⟩
  · exact hne rfl
  · obtain ⟨rest, hrest⟩ := hdashes
    obtain ⟨rfl, hhead⟩ := List.cons.inj hrest
    have hdash : (erase longMatch l).head? = some '-' := by
      rw [show erase longMatch l = '-' :: rest from hhead.symm]
      rfl
    have hl : l.head? = some '-' := by
      rcases head_of_erase hdash with hl | hmatch
      · exact hl
      · by_contra hnot
        refine hmatch (longMatch_of_not fun hprefix => hnot ?_)
        obtain ⟨rest', rfl⟩ := hprefix
        rfl
    obtain ⟨ds, rfl⟩ := List.head?_eq_some_iff.mp hl
    exact h ⟨ds, rfl⟩
  · obtain ⟨rest, hrest⟩ := hdashes
    obtain ⟨rfl, htail⟩ := List.cons.inj hrest
    obtain ⟨rfl, -⟩ := List.cons.inj htail
    exact h ⟨u ++ l, rfl⟩

lemma stripComments_append (h : ∀ k < pre.length, ¬ dashes <+: pre.drop k ++ post) :
    stripComments (pre ++ post) = pre ++ stripComments post := by
  have hlong : erase longMatch (pre ++ post) = pre ++ erase longMatch post :=
    erase_append fun k hk => longMatch_of_not (h k hk)
  rw [stripComments, hlong, erase_append, stripComments]
  intro k hk
  have hne : pre.drop k ≠ [] := fun hnil => absurd (List.drop_eq_nil_iff.mp hnil) (not_le.mpr hk)
  exact lineMatch_of_not (not_dashes_erase hne (h k hk))

lemma stripComments_blanks (hpre : ∀ c ∈ pre, isSpace c = true) :
    stripComments (pre ++ post) = pre ++ stripComments post := by
  refine stripComments_append fun k hk hdashes => ?_
  have hne : pre.drop k ≠ [] := fun hnil => absurd (List.drop_eq_nil_iff.mp hnil) (not_le.mpr hk)
  obtain ⟨c, cs, hcons⟩ := List.exists_cons_of_ne_nil hne
  obtain ⟨rest, hrest⟩ := hdashes
  rw [hcons] at hrest
  obtain ⟨rfl, -⟩ := List.cons.inj hrest
  have hblank := hpre '-' (List.mem_of_mem_drop (hcons ▸ List.mem_cons_self))
  exact absurd hblank (by decide)

lemma stripComments_long (h : longMatch l = some ((), rest)) :
    stripComments l = stripComments rest := by
  have hne : l ≠ [] := by
    rintro rfl
    cases h
  rw [stripComments, erase_of_match shortens_longMatch h hne, stripComments]

/-- A comment that ends with its line is taken out, perhaps with half of the end of the line. -/
lemma stripComments_line {ℓ : Text} (hline : ∀ c ∈ ℓ, c ≠ '\n')
    (hlong : ∀ k < (dashes ++ ℓ).length, longMatch ((dashes ++ ℓ).drop k ++ post) = none)
    (hend : post = [] ∨ ['\n'] <+: post ∨ ['\r', '\n'] <+: post) :
    stripComments (dashes ++ ℓ ++ post) = stripComments post ∨
      stripComments post = '\r' :: stripComments (dashes ++ ℓ ++ post) := by
  have hskip : ∀ {X : Text}, erase lineMatch (dashes ++ ℓ ++ X) =
      erase lineMatch (X.dropWhile (· ≠ '\n')) := by
    intro X
    have hmatch : lineMatch (dashes ++ ℓ ++ X) = some ((), X.dropWhile (· ≠ '\n')) := by
      have hdrop : (ℓ ++ X).dropWhile (· ≠ '\n') = X.dropWhile (· ≠ '\n') :=
        List.dropWhile_append_of_pos fun c hc => by simpa using hline c hc
      exact congrArg (fun rest => some ((), rest)) hdrop
    exact erase_of_match shortens_lineMatch hmatch (by simp [dashes])
  have hnot : ∀ {c : Char} {X : Text}, c ≠ '-' →
      ∀ k < [c].length, ¬ dashes <+: [c].drop k ++ X := by
    rintro c X hc k hk ⟨rest, hrest⟩
    obtain rfl : k = 0 := by simpa using hk
    exact hc (List.cons.inj hrest).1.symm
  have hcons : ∀ {c : Char} {X : Text}, c ≠ '-' →
      erase longMatch (c :: X) = c :: erase longMatch X := fun hc =>
    erase_append fun k hk => longMatch_of_not (hnot hc k hk)
  rw [stripComments, erase_append hlong, hskip]
  rcases hend with rfl | ⟨X, rfl⟩ | ⟨X, rfl⟩
  · exact .inl rfl
  · refine .inl ?_
    rw [stripComments, List.singleton_append, hcons (by decide)]
    rfl
  · refine .inr ?_
    rw [List.cons_append, List.singleton_append, hcons (by decide), hcons (by decide),
      ← List.singleton_append, stripComments_append (hnot (by decide)), stripComments,
      hcons (by decide)]
    rfl

/-! ### Lexemes -/

/-- What a token is as far as the scan looks at it. -/
structure IsToken (t : Text) : Prop where
  head : ∃ c cs, t = c :: cs ∧ isSpace c = false
  opening : t.head? = some '(' → t = ['(']
  closing : t.head? = some ')' → t = [')']

/-- Tokens with blanks between them. -/
inductive Spaced : List Text → Text → Prop
  | nil {w : Text} (hw : ∀ c ∈ w, isSpace c = true) : Spaced [] w
  | cons {w t rest : Text} {ts : List Text} (hw : ∀ c ∈ w, isSpace c = true) (ht : IsToken t)
      (h : Spaced ts rest) : Spaced (t :: ts) (w ++ (t ++ rest))

lemma Spaced.blanks {w : Text} (hw : ∀ c ∈ w, isSpace c = true) (h : Spaced ts rest) :
    Spaced ts (w ++ rest) := by
  cases h with
  | nil hw' => exact .nil fun c hc => (List.mem_append.mp hc).elim (hw c) (hw' c)
  | cons hw' ht h =>
    rw [← List.append_assoc]
    exact .cons (fun c hc => (List.mem_append.mp hc).elim (hw c) (hw' c)) ht h

lemma Spaced.tail (hc : isSpace c = true) (h : Spaced ts (c :: cs)) : Spaced ts cs := by
  generalize hl : c :: cs = l at h
  cases h with
  | nil hw =>
    subst hl
    exact .nil fun d hd => hw d (List.mem_cons_of_mem c hd)
  | @cons w t rest ts hw ht h =>
    cases w with
    | nil =>
      obtain ⟨d, ds, rfl, hd⟩ := ht.head
      obtain ⟨rfl, -⟩ := List.cons.inj hl
      rw [hc] at hd
      cases hd
    | cons d w =>
      obtain ⟨rfl, rfl⟩ := List.cons.inj hl
      exact .cons (fun e he => hw e (List.mem_cons_of_mem _ he)) ht h

lemma rest_of_suffix (h : afterLexeme (c :: cs) <:+ cs) :
    lua.first () (c :: cs) ++ afterLexeme (c :: cs) = c :: cs ∧
      (lua.rest () (c :: cs)).2 = afterLexeme (c :: cs) := by
  obtain ⟨skipped, hskipped⟩ := h
  have hsplit : c :: cs = (c :: skipped) ++ afterLexeme (c :: cs) := by
    rw [List.cons_append, hskipped]
  have hfirst : lua.first () (c :: cs) = c :: skipped := by
    have hlen := congrArg List.length hsplit
    simp only [List.length_append, List.length_cons] at hlen
    have hmunch : max 1 (lua.munch () (c :: cs)) = (c :: skipped).length := by
      simp only [lua, List.length_cons]
      omega
    rw [Lexer.first, hmunch]
    conv_lhs => rw [hsplit]
    exact List.take_left
  refine ⟨hfirst ▸ hsplit.symm, ?_⟩
  rw [Lexer.rest, hfirst]
  conv_lhs => rw [hsplit]
  exact List.drop_left

lemma isToken_first (hc : isSpace c = false) : IsToken (lua.first () (c :: cs)) := by
  have hhead : ∃ ds, lua.first () (c :: cs) = c :: ds := by
    obtain ⟨n, hn⟩ : ∃ n, max 1 (lua.munch () (c :: cs)) = n + 1 :=
      ⟨_, (Nat.sub_add_cancel (le_max_left 1 _)).symm⟩
    exact ⟨cs.take n, by rw [Lexer.first, hn, List.take_succ_cons]⟩
  -- a parenthesis is a token of its own
  have hparen : ∀ d, (d = '(' ∨ d = ')') → c = d → lua.first () (c :: cs) = [d] := by
    rintro d hd rfl
    have hafter : afterLexeme (c :: cs) = cs := by rcases hd with rfl | rfl <;> rfl
    have hsuffix : afterLexeme (c :: cs) <:+ cs := ⟨[], hafter⟩
    have happend := (rest_of_suffix hsuffix).1
    rw [hafter, ← List.singleton_append] at happend
    exact List.append_cancel_right happend
  obtain ⟨ds, hds⟩ := hhead
  refine ⟨⟨c, ds, hds, hc⟩, fun h => hparen '(' (.inl rfl) ?_, fun h => hparen ')' (.inr rfl) ?_⟩ <;>
    simpa [hds] using h

lemma afterLexeme_comment (cs : Text) :
    afterLexeme (dashes ++ cs) = match longBracket cs with
      | some (close, l) => (behind close l).getD []
      | none => cs.dropWhile fun d => !isNewline d := rfl

lemma rest_of_longMatch (h : longMatch l = some ((), rest)) : (lua.rest () l).2 = rest := by
  rw [longMatch] at h
  split_ifs at h with hprefix
  obtain ⟨body, rfl⟩ := List.isPrefixOf_iff_prefix.mp hprefix
  obtain ⟨rest', hbehind, heq⟩ := Option.map_eq_some_iff.mp h
  obtain rfl : rest' = rest := congrArg Prod.snd heq
  have hbehind' : behind [']', ']'] body = some rest' := hbehind
  have hafter : afterLexeme (dashes ++ ('[' :: '[' :: body)) = rest' := by
    have hopen : longBracket ('[' :: '[' :: body) = some ([']', ']'], body) := rfl
    rw [afterLexeme_comment, hopen]
    exact congrArg (·.getD []) hbehind'
  have hsuffix : afterLexeme ('-' :: '-' :: '[' :: '[' :: body) <:+
      '-' :: '[' :: '[' :: body := by
    rw [show '-' :: '-' :: '[' :: '[' :: body = dashes ++ ('[' :: '[' :: body) from rfl, hafter]
    exact (behind_suffix hbehind').trans (List.suffix_append ['-', '[', '['] body)
  exact (rest_of_suffix hsuffix).2.trans hafter

lemma first_of_line (h : longBracket cs = none) :
    ∃ ℓ, lua.first () (dashes ++ cs) = dashes ++ ℓ ∧ ∀ c ∈ ℓ, c ≠ '
' := by
  have hafter : afterLexeme (dashes ++ cs) = cs.dropWhile fun d => !isNewline d := by
    rw [afterLexeme_comment, h]
  have hsuffix : afterLexeme ('-' :: '-' :: cs) <:+ '-' :: cs := by
    rw [show '-' :: '-' :: cs = dashes ++ cs from rfl, hafter]
    exact (List.dropWhile_suffix _).trans (List.suffix_cons '-' cs)
  have happend := (rest_of_suffix hsuffix).1
  rw [show '-' :: '-' :: cs = dashes ++ cs from rfl, hafter] at happend
  refine ⟨cs.takeWhile fun d => !isNewline d, ?_, fun c hc => ?_⟩
  · refine List.append_cancel_right (happend.trans ?_)
    rw [List.append_assoc, List.takeWhile_append_dropWhile]
  · have hnot := List.mem_takeWhile_imp hc
    rintro rfl
    exact absurd hnot (by decide)

lemma Spaced.comment {s : Unit} (hkind : isComment (lua.first s (c :: cs)) = true)
    (hfine : FineComment (c :: cs) (lua.first s (c :: cs)))
    (h : Spaced ts (stripComments (lua.rest s (c :: cs)).2)) :
    Spaced ts (stripComments (c :: cs)) := by
  rcases hfine with hlong | ⟨hline, hnone, hend⟩
  · obtain ⟨⟨u, rest⟩, hmatch⟩ := Option.isSome_iff_exists.mp hlong
    rw [stripComments_long hmatch, ← rest_of_longMatch hmatch]
    exact h
  · -- the first two characters are dashes
    have hsplit := lua.first_append_rest s (c :: cs)
    obtain ⟨ds, hds⟩ := List.isPrefixOf_iff_prefix.mp hkind
    obtain ⟨body, hbody⟩ : ∃ body, c :: cs = dashes ++ body := by
      refine ⟨ds ++ (lua.rest s (c :: cs)).2, hsplit.symm.trans ?_⟩
      rw [← hds, List.append_assoc]
      rfl
    have hopen : longBracket body = none := by rwa [hbody] at hline
    obtain ⟨ℓ, hℓ, hnewline⟩ := first_of_line hopen
    rw [← hbody] at hℓ
    change lua.first s (c :: cs) = dashes ++ ℓ at hℓ
    rw [hℓ] at hsplit hnone hend
    have hdrop : (c :: cs).drop (dashes ++ ℓ).length = (lua.rest s (c :: cs)).2 := by
      conv_lhs => rw [← hsplit]
      exact List.drop_left
    have hnone' : ∀ k < (dashes ++ ℓ).length,
        longMatch ((dashes ++ ℓ).drop k ++ (lua.rest s (c :: cs)).2) = none := by
      intro k hk
      rw [← List.drop_append_of_le_length hk.le, hsplit]
      exact hnone k hk
    rw [hdrop] at hend
    have hstrip := stripComments_line hnewline hnone' hend
    rw [hsplit] at hstrip
    rcases hstrip with hstrip | hstrip
    · rwa [hstrip]
    · rw [hstrip] at h
      exact h.tail (by decide)

lemma spaced_stripComments (s : Unit) (l : Text) (h : ∀ p ∈ lua.places s l, Fine p.2) :
    Spaced (lua.tokens s l) (stripComments l) := by
  induction s, l using lua.induction with
  | blank s l hl =>
    have hblank : ∀ c ∈ l, isSpace c = true := List.dropWhile_eq_nil_iff.mp hl
    have hstrip : stripComments (l ++ []) = l ++ stripComments [] := stripComments_blanks hblank
    have hempty : stripComments [] = [] := rfl
    rw [List.append_nil, hempty, List.append_nil] at hstrip
    rw [lua.tokens_of_blank hl, hstrip]
    exact .nil hblank
  | lexeme s l c cs hl ih =>
    rw [lua.places_of_lexeme hl] at h
    obtain ⟨hfine, h⟩ := List.forall_mem_cons.mp h
    have ih := ih h
    -- the blanks in front of the lexeme
    have hblank : ∀ d ∈ l.takeWhile isSpace, isSpace d = true := fun d hd =>
      List.mem_takeWhile_imp hd
    have hall : l.takeWhile isSpace ++ (c :: cs) = l := by
      rw [← hl]
      exact List.takeWhile_append_dropWhile
    have hstrip : stripComments l = l.takeWhile isSpace ++ stripComments (c :: cs) := by
      conv_lhs => rw [← hall]
      exact stripComments_blanks hblank
    rw [hstrip]
    cases hkind : isComment (lua.first s (c :: cs)) with
    | false =>
      rw [lua.tokens_of_token hl hkind]
      have hsplit := lua.first_append_rest s (c :: cs)
      have htoken : FineToken (c :: cs) (lua.first s (c :: cs)) := by
        rwa [Fine, if_neg (by rw [hkind]; decide)] at hfine
      have hrest : stripComments (c :: cs) =
          lua.first s (c :: cs) ++ stripComments (lua.rest s (c :: cs)).2 := by
        conv_lhs => rw [← hsplit]
        refine stripComments_append fun k hk hdashes => htoken k hk ?_
        rwa [← List.drop_append_of_le_length hk.le, hsplit] at hdashes
      rw [hrest]
      exact .cons hblank (isToken_first (lua.blank_of_dropWhile hl)) ih
    | true =>
      rw [lua.tokens_of_comment hl hkind]
      rw [Fine, if_pos hkind] at hfine
      exact Spaced.blanks hblank (Spaced.comment hkind hfine ih)

end Verilua.Bundle
