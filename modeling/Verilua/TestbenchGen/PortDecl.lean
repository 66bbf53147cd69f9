import Verilua.Lib.Wording
import Mathlib.Data.List.DropRight
import Mathlib.Tactic.Common

/-!
# The declaration of a port of the design

The generated bench declares, for each port of the design, a variable or a net of the port's name.
`toDeclString` makes the declaration out of the text of the port's type: it puts one keyword in the
place of another by replacing the first occurrence of a string, wherever in the text that is.
-/

namespace Verilua.TestbenchGen

open Wording

abbrev Text := List Char

local instance lawfulBEq_text : LawfulBEq (List Char) := inferInstance

/-! ### Texts -/

def isWordy (c : Char) : Bool := c.isAlphanum || c == '_' || c == '$'

/-- `\s` in a regular expression. -/
def isSpace (c : Char) : Bool := [' ', '\t', '\n', '\x0b', '\x0c', '\r'].contains c

/-- Identifiers, keywords and numbers are words; everything else that is no blank is a mark. -/
def wording : Wording Char where
  wordy := isWordy
  blank := isSpace
  not_blank c hc := by
    by_contra hblank
    have hcases : c = ' ' ∨ c = '\t' ∨ c = '\n' ∨ c = '\x0b' ∨ c = '\x0c' ∨ c = '\r' := by
      have hmem : isSpace c = true := by simpa using hblank
      simpa [isSpace] using hmem
    rcases hcases with rfl | rfl | rfl | rfl | rfl | rfl <;> exact absurd hc (by decide)

def tokens (s : Text) : List Text := wording.tokens s

def replaceString (str pattern replacement : Text) : Text := replaceFirst pattern replacement str

def containsString : Text → Text → Bool
  | [], pattern => pattern.isEmpty
  | c :: str, pattern => pattern.isPrefixOf (c :: str) || containsString str pattern

/-- Every run of blanks becomes one space. -/
def layout : Layout isSpace where
  gone _ := false
  space := ' '
  blank_of_gone _ := nofun
  blank_space := rfl
  gone_space := rfl

def replaceMultipleSpaces (s : Text) : Text := layout.squash false s

def trim (s : Text) : Text := ((replaceMultipleSpaces s).dropWhile isSpace).rdropWhile isSpace

/-! ### Ports -/

inductive Dir
  | input
  | output
  | inout
  deriving DecidableEq

def Dir.text : Dir → Text
  | .input => ['i', 'n', 'p', 'u', 't']
  | .output => ['o', 'u', 't', 'p', 'u', 't']
  | .inout => ['i', 'n', 'o', 'u', 't']

inductive Keyword
  | wire
  | reg
  | logic
  | bit
  deriving DecidableEq

def Keyword.text : Keyword → Text
  | .wire => ['w', 'i', 'r', 'e']
  | .reg => ['r', 'e', 'g']
  | .logic => ['l', 'o', 'g', 'i', 'c']
  | .bit => ['b', 'i', 't']

structure PortInfo where
  dir : Dir
  type : Text
  name : Text
  dimensions : List Text
  dimSizes : List Text
  isNet : Bool
  id : Nat

def PortInfo.toString (p : PortInfo) : Text :=
  trim (p.dir.text ++ ' ' :: p.type ++ ' ' :: p.name ++ ' ' :: p.dimensions.flatten)

/-- What `toDeclString` makes of the type. -/
def declType (dir : Dir) (type : Text) : Text :=
  match dir with
  | .input =>
    let type := replaceString type Keyword.wire.text Keyword.reg.text
    replaceString type Keyword.bit.text Keyword.reg.text
  | .inout =>
    let type := replaceString type Keyword.reg.text Keyword.wire.text
    let type := replaceString type Keyword.bit.text Keyword.wire.text
    replaceString type Keyword.logic.text Keyword.wire.text
  | .output =>
    let type := replaceString type Keyword.reg.text Keyword.wire.text
    replaceString type Keyword.bit.text Keyword.wire.text

/-- The regular expression of the `ASSERT` is written with the escape for a backspace, so it stands
for one word between two backspaces. -/
def PortInfo.toDeclString (p : PortInfo) : Option Text :=
  if p.dir = .input ∧ p.toString = '\x08' :: Keyword.reg.text ++ ['\x08'] then none
  else
    let ret := replaceMultipleSpaces (declType p.dir p.type ++ ' ' :: p.name ++
      ' ' :: p.dimensions.flatten)
    some (trim ret ++ [';'])

/-! ### What a declaration is to be -/

/-- What the bench may declare for a port of the direction: a variable that it drives, or something
that the design may drive. -/
def Drives : Dir → Keyword → Prop
  | .input, k => k ≠ .wire
  | .output, k => k = .wire ∨ k = .logic
  | .inout, k => k = .wire

def signings : List Text :=
  [['s', 'i', 'g', 'n', 'e', 'd'], ['u', 'n', 's', 'i', 'g', 'n', 'e', 'd']]

/-- The tokens behind a signing. -/
def dropSigning : List Text → List Text
  | [] => []
  | t :: ts => if t ∈ signings then ts else t :: ts

/-- The packed ranges in the text behind the keyword of a type. -/
def rangesOf (rest : Text) : List Text := dropSigning (tokens rest)

/-- The declared type has a keyword that suits the direction, and these packed ranges. -/
def Declares (dir : Dir) (type : Text) (ranges : List Text) : Prop :=
  ∃ k ts, Drives dir k ∧ tokens (declType dir type) = k.text :: ts ∧ dropSigning ts = ranges

/-! ### Tokens of the texts -/

lemma space_blank : wording.blank ' ' = true := rfl

lemma tokens_cons_space (s : Text) : tokens (' ' :: s) = tokens s :=
  wording.tokens_blank_cons space_blank

lemma tokens_append_space (s t : Text) : tokens (s ++ ' ' :: t) = tokens s ++ tokens t := by
  have h := wording.tokens_append (wording.apart_of_blank (l := t) space_blank) s
  rw [wording.tokens_blank_cons space_blank] at h
  exact h

lemma tokens_replaceMultipleSpaces (s : Text) : tokens (replaceMultipleSpaces s) = tokens s :=
  wording.tokens_squash layout (fun _ => rfl) s

lemma tokens_trim (s : Text) : tokens (trim s) = tokens s := by
  have hfront : tokens ((replaceMultipleSpaces s).dropWhile isSpace) =
      tokens (replaceMultipleSpaces s) := by
    conv_rhs => rw [← List.takeWhile_append_dropWhile (p := isSpace) (l := replaceMultipleSpaces s)]
    exact (wording.tokens_lead fun c hc => List.mem_takeWhile_imp hc).symm
  have hback : ∀ t : Text, tokens (t.rdropWhile isSpace) = tokens t := by
    intro t
    conv_rhs => rw [← List.rdropWhile_append_rtakeWhile (p := isSpace) (l := t)]
    exact (wording.tokens_trail fun c hc => List.mem_rtakeWhile_imp hc).symm
  rw [trim, hback, hfront, tokens_replaceMultipleSpaces]

lemma containsString_eq_true_iff {str pattern : Text} :
    containsString str pattern = true ↔ pattern <:+: str := by
  induction str with
  | nil => simp [containsString]
  | cons c str ih =>
    rw [containsString, Bool.or_eq_true, List.isPrefixOf_iff_prefix, ih, List.infix_cons_iff]

lemma not_infix_iff {str pattern : Text} :
    ¬ pattern <:+: str ↔ containsString str pattern = false := by
  rw [← containsString_eq_true_iff, Bool.not_eq_true]

/-! ### The keyword of a type -/

/-- The keywords that a direction replaces, in the order in which it does, and by which one. -/
def replaced : Dir → List Keyword
  | .input => [.wire, .bit]
  | .output => [.reg, .bit]
  | .inout => [.reg, .bit, .logic]

def replacement : Dir → Keyword
  | .input => .reg
  | .output => .wire
  | .inout => .wire

def replaceKeywords (dir : Dir) (ks : List Keyword) (type : Text) : Text :=
  replaceWords (replacement dir).text (ks.map Keyword.text) type

variable {dir : Dir} {k w : Keyword} {ks : List Keyword} {type rest : Text}

lemma declType_eq (dir : Dir) (type : Text) :
    declType dir type = replaceKeywords dir (replaced dir) type := by
  cases dir <;> rfl

lemma Keyword.text_ne (k : Keyword) : k.text ≠ [] := by
  cases k <;> exact List.cons_ne_nil _ _

lemma Keyword.wordy_text (k : Keyword) : ∀ c ∈ k.text, wording.wordy c = true :=
  List.all_eq_true.mp (by cases k <;> rfl)

lemma Keyword.not_infix (h : k ≠ w) : ¬ w.text <:+: k.text := by
  rw [not_infix_iff]
  revert h
  cases k <;> cases w <;> decide

lemma Keyword.not_infix_bracket (k : Keyword) : ¬ k.text <:+: ['['] := by
  rw [not_infix_iff]
  cases k <;> rfl

lemma Keyword.not_infix_signing (k : Keyword) : ∀ t ∈ signings, ¬ k.text <:+: t := by
  simp only [not_infix_iff]
  cases k <;> decide

lemma replacement_notMem (dir : Dir) : replacement dir ∉ replaced dir := by
  cases dir <;> decide

lemma replaced_nodup (dir : Dir) : (replaced dir).Nodup := by
  cases dir <;> decide

lemma Drives.of_keyword (dir : Dir) (k : Keyword) :
    Drives dir (if k ∈ replaced dir then replacement dir else k) := by
  cases dir <;> cases k <;> simp [Drives, replaced, replacement]

/-- The text is one keyword and what is behind it. -/
def Reads (type : Text) (k : Keyword) (rest : Text) : Prop :=
  ∃ lead, (∀ c ∈ lead, wording.blank c = true) ∧ type = lead ++ (k.text ++ rest) ∧
    wording.Apart rest

lemma Reads.tokens (h : Reads type k rest) : tokens type = k.text :: tokens rest := by
  obtain ⟨lead, hlead, rfl, hrest⟩ := h
  have hlead := wording.tokens_lead (l := k.text ++ rest) hlead
  exact hlead.trans (wording.tokens_word k.text_ne k.wordy_text hrest)

lemma Reads.replaceString_self (h : Reads type k rest) (r : Keyword) :
    Reads (replaceString type k.text r.text) r rest := by
  obtain ⟨lead, hlead, rfl, hrest⟩ := h
  refine ⟨lead, hlead, ?_, hrest⟩
  rw [replaceString, wording.replaceFirst_lead hlead k.text_ne k.wordy_text,
    replaceFirst_append_self k.text_ne]

lemma Reads.replaceString_of_ne (h : Reads type k rest) (hk : k ≠ w) (r : Keyword) :
    Reads (replaceString type w.text r.text) k (replaceFirst w.text r.text rest) := by
  obtain ⟨lead, hlead, rfl, hrest⟩ := h
  refine ⟨lead, hlead, ?_, wording.apart_replaceFirst w.text_ne w.wordy_text hrest⟩
  rw [replaceString, wording.replaceFirst_lead hlead w.text_ne w.wordy_text,
    wording.replaceFirst_word (Keyword.not_infix hk) w.wordy_text hrest]

lemma Reads.replace (h : Reads type k rest) (hnodup : ks.Nodup) (hks : replacement dir ∉ ks) :
    Reads (replaceKeywords dir ks type) (if k ∈ ks then replacement dir else k)
      (replaceKeywords dir (ks.erase k) rest) := by
  induction ks generalizing type k rest with
  | nil => simpa [replaceKeywords, replaceWords] using h
  | cons w ks ih =>
    obtain ⟨hw, hnodup⟩ := List.nodup_cons.mp hnodup
    have hks' : replacement dir ∉ ks := fun hmem => hks (List.mem_cons_of_mem w hmem)
    by_cases hkw : k = w
    · have hself : Reads (replaceString type w.text (replacement dir).text) (replacement dir)
          rest := by
        rw [← hkw]
        exact h.replaceString_self _
      have hrest := ih hself hnodup hks'
      rw [if_neg hks', List.erase_of_not_mem hks'] at hrest
      rw [hkw, if_pos List.mem_cons_self, List.erase_cons_head]
      exact hrest
    · have hrest := ih (h.replaceString_of_ne hkw (replacement dir)) hnodup hks'
      have herase : (w :: ks).erase k = w :: ks.erase k :=
        List.erase_cons_tail (by simpa using Ne.symm hkw)
      have hmem : (k ∈ w :: ks) = (k ∈ ks) := by simp [hkw]
      rw [herase]
      simp only [hmem]
      exact hrest

/-! ### The packed ranges -/

/-- Every replacement of the direction adds to it; blanks and signings lack it. -/
def weight : Dir → Char → ℤ
  | .input, c => if c = 'w' ∨ c = 'b' then -1 else 0
  | _, c => if c = 'w' then 1 else 0

def weigh (dir : Dir) (s : Text) : ℤ := (s.map (weight dir)).sum

lemma weigh_append (dir : Dir) (s t : Text) : weigh dir (s ++ t) = weigh dir s + weigh dir t := by
  simp [weigh]

lemma weigh_lt (h : w ∈ replaced dir) : weigh dir w.text < weigh dir (replacement dir).text := by
  revert h
  cases dir <;> cases w <;> decide

lemma weight_of_blank {c : Char} (h : isSpace c = true) : weight dir c = 0 := by
  have hcases : c = ' ' ∨ c = '\t' ∨ c = '\n' ∨ c = '\x0b' ∨ c = '\x0c' ∨ c = '\r' := by
    simpa [isSpace] using h
  rcases hcases with rfl | rfl | rfl | rfl | rfl | rfl <;> cases dir <;> rfl

lemma weigh_filter (dir : Dir) (s : Text) :
    weigh dir (s.filter fun c => !wording.blank c) = weigh dir s := by
  induction s with
  | nil => rfl
  | cons c s ih =>
    have hcons : weigh dir (c :: s) = weight dir c + weigh dir s := by simp [weigh]
    rw [hcons]
    cases hc : wording.blank c with
    | false => rw [List.filter_cons_of_pos (by simp [hc]), ← ih]; simp [weigh]
    | true => rw [List.filter_cons_of_neg (by simp [hc]), ih, weight_of_blank hc, zero_add]

lemma weigh_dropSigning (dir : Dir) (ts : List Text) :
    weigh dir (dropSigning ts).flatten = weigh dir ts.flatten := by
  cases ts with
  | nil => rfl
  | cons t ts =>
    rw [dropSigning]
    split_ifs with ht
    · have hzero : weigh dir t = 0 := by
        revert t
        cases dir <;> decide
      rw [List.flatten_cons, weigh_append, hzero, zero_add]
    · rfl

lemma weigh_rangesOf (dir : Dir) (s : Text) : weigh dir (rangesOf s).flatten = weigh dir s := by
  rw [rangesOf, weigh_dropSigning, tokens, wording.flatten_tokens, weigh_filter]

/-- The ranges stay exactly if none of the words occurs in them. -/
lemma rangesOf_replaceKeywords_eq_iff (hks : ∀ w ∈ ks, w ∈ replaced dir) :
    rangesOf (replaceKeywords dir ks rest) = rangesOf rest ↔
      ∀ w ∈ ks, ¬ w.text <:+: rest := by
  have hne : ∀ pat ∈ ks.map Keyword.text, pat ≠ [] :=
    List.forall_mem_map.mpr fun w _ => w.text_ne
  constructor
  · intro hranges
    have hlt : ∀ pat ∈ ks.map Keyword.text,
        (pat.map (weight dir)).sum < ((replacement dir).text.map (weight dir)).sum :=
      List.forall_mem_map.mpr fun w hw => weigh_lt (hks w hw)
    rcases not_infix_or_sum_lt hne hlt rest with hnot | hmore
    · exact fun w hw => hnot _ (List.mem_map_of_mem hw)
    · -- the ranges are the same, so the weights are
      have hsame : weigh dir (replaceKeywords dir ks rest) = weigh dir rest := by
        rw [← weigh_rangesOf, hranges, weigh_rangesOf]
      have hmore : weigh dir rest < weigh dir (replaceKeywords dir ks rest) := hmore
      omega
  · intro hnot
    rw [replaceKeywords, replaceWords_of_not (List.forall_mem_map.mpr hnot)]

/-- A character that a text without packed ranges may have. -/
def Plain (c : Char) : Prop := isSpace c = true ∨ ∃ t ∈ signings, c ∈ t

lemma plain_of_rangesOf (h : rangesOf rest = []) : ∀ c ∈ rest, Plain c := by
  intro c hc
  by_cases hblank : isSpace c = true
  · exact .inl hblank
  · have hmem : c ∈ (tokens rest).flatten := by
      rw [tokens, wording.flatten_tokens]
      exact List.mem_filter.mpr ⟨hc, by simpa [wording] using hblank⟩
    cases htokens : tokens rest with
    | nil => simp [htokens] at hmem
    | cons t ts =>
      rw [rangesOf, htokens, dropSigning] at h
      split_ifs at h with ht
      rw [htokens, h] at hmem
      exact .inr ⟨t, ht, by simpa using hmem⟩

lemma Keyword.not_plain (k : Keyword) : ∃ c ∈ k.text, ¬ Plain c := by
  have hr : ¬ Plain 'r' := by simp [Plain, isSpace, signings]
  have hl : ¬ Plain 'l' := by simp [Plain, isSpace, signings]
  have hb : ¬ Plain 'b' := by simp [Plain, isSpace, signings]
  cases k
  · exact ⟨'r', by decide, hr⟩
  · exact ⟨'r', by decide, hr⟩
  · exact ⟨'l', by decide, hl⟩
  · exact ⟨'b', by decide, hb⟩

lemma not_infix_of_rangesOf (h : rangesOf rest = []) (w : Keyword) : ¬ w.text <:+: rest := by
  intro hin
  obtain ⟨c, hc, hplain⟩ := w.not_plain
  exact hplain (plain_of_rangesOf h c (hin.subset hc))

lemma rangesOf_replaceKeywords_eq_nil_iff (dir : Dir) (ks : List Keyword) :
    rangesOf (replaceKeywords dir ks rest) = [] ↔ rangesOf rest = [] := by
  have hne : ∀ pat ∈ ks.map Keyword.text, pat ≠ [] :=
    List.forall_mem_map.mpr fun w _ => w.text_ne
  have hsame : (∀ pat ∈ ks.map Keyword.text, ¬ pat <:+: rest) →
      replaceKeywords dir ks rest = rest := fun hnot => replaceWords_of_not hnot
  constructor
  · intro hnil
    have hnot := not_infix_of_forall (replacement dir).not_plain hne (plain_of_rangesOf hnil)
    rwa [hsame hnot] at hnil
  · intro hnil
    rw [hsame (List.forall_mem_map.mpr fun w _ => not_infix_of_rangesOf hnil w), hnil]

/-- A type that reads a keyword is declared with the ranges that the replacements leave behind. -/
lemma Reads.declares_iff (h : Reads type k rest) {ranges : List Text} :
    Declares dir type ranges ↔
      rangesOf (replaceKeywords dir ((replaced dir).erase k) rest) = ranges := by
  have hread := h.replace (replaced_nodup dir) (replacement_notMem dir)
  rw [← declType_eq] at hread
  constructor
  · rintro ⟨k', ts, -, htokens, hranges⟩
    rw [hread.tokens, List.cons.injEq] at htokens
    rw [rangesOf, htokens.2, hranges]
  · intro hranges
    exact ⟨_, _, Drives.of_keyword dir k, hread.tokens, hranges⟩

/-- Behind the keyword stands no other word that the direction replaces. -/
def Clear (dir : Dir) (k : Keyword) (rest : Text) : Prop :=
  ∀ w ∈ (replaced dir).erase k, ¬ w.text <:+: rest

lemma Reads.declares_iff_clear (h : Reads type k rest) :
    Declares dir type (rangesOf rest) ↔ Clear dir k rest := by
  rw [h.declares_iff]
  exact rangesOf_replaceKeywords_eq_iff fun w hw => List.mem_of_mem_erase hw

lemma Reads.declares_nil_iff (h : Reads type k rest) :
    Declares dir type [] ↔ rangesOf rest = [] := by
  rw [h.declares_iff, rangesOf_replaceKeywords_eq_nil_iff]

lemma not_declares {t : Text} {ranges : List Text} (hhead : (tokens type).head? = some t)
    (ht : t = ['['] ∨ t ∈ signings) : ¬ Declares dir type ranges := by
  rintro ⟨k, ts, -, htokens, -⟩
  have hnot : ∀ w : Keyword, ¬ w.text <:+: t := by
    intro w
    rcases ht with rfl | ht
    · exact w.not_infix_bracket
    · exact w.not_infix_signing t ht
  have hstay : (tokens (declType dir type)).head? = some t := by
    rw [declType_eq]
    exact wording.head_tokens_replaceWords (List.forall_mem_map.mpr fun w _ => w.text_ne)
      (List.forall_mem_map.mpr fun w _ => w.wordy_text)
      (List.forall_mem_map.mpr fun w _ => hnot w) hhead
  rw [htokens, List.head?_cons, Option.some.injEq] at hstay
  subst hstay
  exact hnot k (List.infix_refl _)

/-! ### The whole declaration -/

variable {p : PortInfo} {ranges : List Text}

/-- The declaration has a keyword that suits the direction, these packed ranges, the name and these
unpacked dimensions. -/
def Keeps (decl : Text) (dir : Dir) (ranges : List Text) (name : Text) (dims : List Text) : Prop :=
  ∃ k ts, Drives dir k ∧ tokens decl = k.text :: ts ++ name :: dims.flatMap tokens ++ [[';']] ∧
    dropSigning ts = ranges

/-- The assertion cannot fail, for no port is written as one word. -/
lemma toDeclString_eq (p : PortInfo) :
    p.toDeclString = some (trim (replaceMultipleSpaces (declType p.dir p.type ++ ' ' :: p.name ++
      ' ' :: p.dimensions.flatten)) ++ [';']) := by
  rw [PortInfo.toDeclString, if_neg]
  rintro ⟨hdir, hreg⟩
  have htokens : tokens p.toString =
      [p.dir.text] ++ tokens p.type ++ tokens p.name ++ tokens p.dimensions.flatten := by
    have hword : tokens p.dir.text = [p.dir.text] := by
      cases p.dir <;> decide
    rw [PortInfo.toString, tokens_trim, tokens_append_space, tokens_append_space,
      tokens_append_space, hword]
  have hmark : tokens ('\x08' :: Keyword.reg.text ++ ['\x08']) =
      [['\x08'], Keyword.reg.text, ['\x08']] := by
    decide
  rw [hreg, hmark, hdir] at htokens
  simp [Dir.text] at htokens

lemma PortInfo.toDeclString_keeps_iff (hne : p.name ≠ []) (hname : ∀ c ∈ p.name, isWordy c = true)
    (hdims : ∀ d ∈ p.dimensions, wording.Apart d) :
    (∃ decl, p.toDeclString = some decl ∧ Keeps decl p.dir ranges p.name p.dimensions) ↔
      Declares p.dir p.type ranges := by
  have hword : tokens p.name = [p.name] := by
    have hnil := wording.tokens_word hne hname wording.apart_nil
    rwa [List.append_nil] at hnil
  have htokens : tokens (trim (replaceMultipleSpaces (declType p.dir p.type ++ ' ' :: p.name ++
      ' ' :: p.dimensions.flatten)) ++ [';']) =
      tokens (declType p.dir p.type) ++ p.name :: p.dimensions.flatMap tokens ++ [[';']] := by
    have hmark : wording.Apart [';'] := by
      rintro c ⟨⟩
      rfl
    have hflatten : tokens p.dimensions.flatten = p.dimensions.flatMap tokens :=
      wording.tokens_flatten hdims
    rw [tokens, wording.tokens_append hmark]
    change tokens (trim _) ++ [[';']] = _
    rw [tokens_trim, tokens_replaceMultipleSpaces, tokens_append_space, tokens_append_space, hword,
      hflatten, List.append_assoc (tokens _)]
    rfl
  constructor
  · rintro ⟨decl, hdecl, k, ts, hdrives, hts, hranges⟩
    rw [toDeclString_eq, Option.some.injEq] at hdecl
    rw [← hdecl, htokens, List.append_cancel_right_eq, List.append_cancel_right_eq] at hts
    exact ⟨k, ts, hdrives, hts, hranges⟩
  · rintro ⟨k, ts, hdrives, hts, hranges⟩
    refine ⟨_, toDeclString_eq p, k, ts, hdrives, ?_, hranges⟩
    rw [htokens, hts]

end Verilua.TestbenchGen
