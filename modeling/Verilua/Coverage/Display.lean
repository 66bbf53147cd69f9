import Verilua.SvBuilder.Layout

/-!
# String literals as formats

What `$display` makes of a string literal of SystemVerilog, read character by character: the
escapes of the literal give the format, and the format takes arguments.
-/

namespace Verilua.CovExporter

open SVBuilder (Text)

/-! ### Literals -/

/-- No quote of the text ends a literal that begins in front of it, and the quote behind it does;
`escaped` says that a backslash has been read. -/
def StaysOpen : Bool → Text → Prop
  | escaped, [] => escaped = false
  | true, _ :: cs => StaysOpen false cs
  | false, c :: cs => c ≠ '\x22' ∧ StaysOpen (c = '\x5c') cs

/-- How far the reader is in an escape; a number has a base, a value, and digits that may follow. -/
inductive Escape
  | none
  | backslash
  | number (base value left : Nat)
  deriving DecidableEq

/-- What has been read: the place in the literal and in the format, the number of arguments that the
format has taken, and whether it breaks the line. -/
structure Reading where
  escape : Escape
  inSpec : Bool
  args : Nat
  breaks : Bool
  deriving DecidableEq

/-- `%%`, `%m` and `%l` take no argument. -/
def takesNone (c : Char) : Bool := ['%', 'm', 'M', 'l', 'L'].contains c

def digitOf (base : Nat) (c : Char) : Option Nat :=
  let d := if c.isDigit then c.toNat - '0'.toNat
    else if 'a' ≤ c.toLower ∧ c.toLower ≤ 'f' then c.toLower.toNat - 'a'.toNat + 10 else base
  if d < base then some d else .none

namespace Reading

/-- The format has a further character. In a specification, what is no digit ends it. -/
def put (r : Reading) (c : Char) : Reading where
  escape := r.escape
  inSpec := if r.inSpec then c.isDigit else c == '%'
  args := r.args + if r.inSpec && !c.isDigit && !takesNone c then 1 else 0
  breaks := r.breaks || (!r.inSpec && c == '\n')

/-- A character that is not in an escape. -/
def plain (r : Reading) (c : Char) : Reading :=
  if c = '\x5c' then { r with escape := .backslash } else r.put c

/-- A character behind a backslash. -/
def escaped (r : Reading) (c : Char) : Reading :=
  if c = 'n' then r.put '\n'
  else if c = 't' then r.put '\t'
  else if c = 'v' then r.put '\x0b'
  else if c = 'f' then r.put '\x0c'
  else if c = 'a' then r.put '\x07'
  else if c = 'x' then { r with escape := .number 16 0 2 }
  else match digitOf 8 c with
    | some d => { r with escape := .number 8 d 2 }
    | .none => if c = '\n' then r else r.put c

def next (r : Reading) (c : Char) : Reading :=
  match r.escape with
  | .none => r.plain c
  | .backslash => { r with escape := .none }.escaped c
  | .number base value left =>
    match if left = 0 then .none else digitOf base c with
    | some d => { r with escape := .number base (base * value + d) (left - 1) }
    | .none => ({ r with escape := .none }.put (Char.ofNat value)).plain c

def scan (r : Reading) (t : Text) : Reading := t.foldl next r

/-- Not in an escape nor in a specification. -/
def clear (args : Nat) (breaks : Bool) : Reading := ⟨.none, false, args, breaks⟩

lemma scan_append (r : Reading) (t u : Text) : r.scan (t ++ u) = (r.scan t).scan u :=
  List.foldl_append

/-- What is read is added to what has been. -/
def shift (args : Nat) (breaks : Bool) (r : Reading) : Reading :=
  { r with args := args + r.args, breaks := breaks || r.breaks }

variable {r : Reading} {args : Nat} {breaks : Bool} {c : Char} {t : Text}

lemma put_shift : (r.shift args breaks).put c = (r.put c).shift args breaks := by
  simp only [put, shift, Nat.add_assoc, Bool.or_assoc]
  rfl

lemma plain_shift : (r.shift args breaks).plain c = (r.plain c).shift args breaks := by
  unfold plain
  split_ifs
  · rfl
  · exact put_shift

lemma escaped_shift : (r.shift args breaks).escaped c = (r.escaped c).shift args breaks := by
  unfold escaped
  split_ifs
  · exact put_shift
  · exact put_shift
  · exact put_shift
  · exact put_shift
  · exact put_shift
  · rfl
  · cases digitOf 8 c with
    | some d => rfl
    | none => rfl
  · cases digitOf 8 c with
    | some d => rfl
    | none => exact put_shift

lemma next_shift : (r.shift args breaks).next c = (r.next c).shift args breaks := by
  obtain ⟨escape, inSpec, n, b⟩ := r
  cases escape with
  | none => exact plain_shift
  | backslash => exact escaped_shift (r := ⟨.none, inSpec, n, b⟩)
  | number base value left =>
    simp only [next, shift]
    cases if left = 0 then none else digitOf base c with
    | some d => rfl
    | none =>
      change (((Reading.mk .none inSpec n b).shift args breaks).put (Char.ofNat value)).plain c = _
      rw [put_shift, plain_shift]
      rfl

lemma scan_shift : (r.shift args breaks).scan t = (r.scan t).shift args breaks := by
  induction t generalizing r with
  | nil => rfl
  | cons c t ih =>
    rw [scan, List.foldl_cons, next_shift]
    exact ih

lemma scan_clear : (clear args breaks).scan t = ((clear 0 false).scan t).shift args breaks := by
  rw [← scan_shift]
  simp [clear, shift]

lemma shift_eq_clear_iff {m : Nat} :
    r.shift args breaks = clear m false ↔
      args + r.args = m ∧ breaks = false ∧ r = clear r.args false := by
  obtain ⟨escape, inSpec, n, b⟩ := r
  simp only [shift, clear, mk.injEq, Bool.or_eq_false_iff]
  tauto

end Reading

/-! ### Parts of a literal -/

open Reading

/-- The characters behind the parts of a row that come from the source. -/
def IsEnd (c : Char) : Prop := c = ')' ∨ c = ']' ∨ c = ':'

/-- The text takes no argument, breaks no line, and leaves nothing open. -/
def Silent (t : Text) : Prop := (clear 0 false).scan t = clear 0 false

variable {t u : Text} {c : Char}

lemma next_end (hc : IsEnd c) (r : Reading) : ∃ args breaks, r.next c = clear args breaks := by
  have hput : ∀ r : Reading, r.escape = .none →
      ∃ args breaks, r.plain c = clear args breaks := by
    rintro ⟨escape, inSpec, args, breaks⟩ rfl
    rcases hc with rfl | rfl | rfl <;> cases inSpec <;> exact ⟨_, _, rfl⟩
  have hdigit : ∀ base, digitOf base c = none := by
    intro base
    rcases hc with rfl | rfl | rfl <;> simp [digitOf]
  obtain ⟨escape, inSpec, args, breaks⟩ := r
  cases escape with
  | none => exact hput _ rfl
  | backslash => rcases hc with rfl | rfl | rfl <;> cases inSpec <;> exact ⟨_, _, rfl⟩
  | number base value left =>
    simp only [next, hdigit, ite_self]
    exact hput _ rfl

lemma scan_end (hc : IsEnd c) (r : Reading) (t : Text) :
    ∃ args breaks, r.scan (t ++ [c]) = clear args breaks := by
  rw [scan_append]
  exact next_end hc _

lemma silent_append {args : Nat} {breaks : Bool} (h : (clear 0 false).scan t = clear args breaks) :
    Silent (t ++ u) ↔ Silent t ∧ Silent u := by
  rw [Silent, scan_append, h, scan_clear, Silent, h, shift_eq_clear_iff]
  constructor
  · rintro ⟨hargs, rfl, hu⟩
    obtain ⟨rfl, hzero⟩ := Nat.add_eq_zero_iff.mp hargs
    exact ⟨rfl, hu.trans (congrArg (clear · false) hzero)⟩
  · rintro ⟨ht, hu⟩
    obtain ⟨rfl, rfl⟩ : args = 0 ∧ breaks = false := by simpa [clear] using ht
    rw [Silent] at hu
    rw [hu]
    exact ⟨rfl, rfl, rfl⟩

lemma silent_append_end (hc : IsEnd c) : Silent (t ++ c :: u) ↔ Silent (t ++ [c]) ∧ Silent u := by
  obtain ⟨args, breaks, h⟩ := scan_end hc (clear 0 false) t
  rw [List.append_cons, silent_append h]

lemma silent_of_plain (h : ∀ c ∈ t, c ≠ '\x5c' ∧ c ≠ '%' ∧ c ≠ '\n') : Silent t := by
  induction t with
  | nil => rfl
  | cons c t ih =>
    obtain ⟨⟨hescape, hspec, hbreak⟩, ht⟩ := List.forall_mem_cons.mp h
    have hnext : (clear 0 false).next c = clear 0 false := by
      simp [Reading.next, plain, put, clear, hescape, hspec, hbreak]
    rw [Silent, scan, List.foldl_cons, hnext]
    exact ih ht

lemma staysOpen_append_end (hc : IsEnd c) {escaped : Bool} :
    StaysOpen escaped (t ++ c :: u) ↔ StaysOpen escaped (t ++ [c]) ∧ StaysOpen false u := by
  induction t generalizing escaped with
  | nil => rcases hc with rfl | rfl | rfl <;> cases escaped <;> simp [StaysOpen]
  | cons d t ih =>
    cases escaped with
    | true => exact ih
    | false =>
      simp only [List.cons_append, StaysOpen, ih]
      exact and_assoc.symm

lemma staysOpen_of_plain (h : ∀ c ∈ t, c ≠ '\x22' ∧ c ≠ '\x5c') :
    StaysOpen false (t ++ u) ↔ StaysOpen false u := by
  induction t with
  | nil => rfl
  | cons c t ih =>
    obtain ⟨⟨hquote, hescape⟩, ht⟩ := List.forall_mem_cons.mp h
    simp [StaysOpen, hquote, hescape, ih ht]

lemma stringLen_pos (c : Char) (t : Text) : 0 < SVBuilder.stringLen (c :: t) := by
  cases t with
  | nil => exact Nat.one_pos
  | cons d t =>
    simp only [SVBuilder.stringLen]
    split_ifs <;> omega

lemma stringLen_eq_iff {d : Char} : ∀ t : Text,
    SVBuilder.stringLen (t ++ '\x22' :: d :: u) = t.length + 1 ↔ StaysOpen false t
  | [] => by simp [SVBuilder.stringLen, StaysOpen]
  | [c] => by
    have hpos := stringLen_pos d u
    by_cases hquote : c = '\x22'
    · simp [SVBuilder.stringLen, StaysOpen, hquote]
    · by_cases hescape : c = '\x5c'
      · simp [SVBuilder.stringLen, StaysOpen, hescape]
        omega
      · simp [SVBuilder.stringLen, StaysOpen, hquote, hescape]
  | c :: e :: t => by
    by_cases hquote : c = '\x22'
    · simp [SVBuilder.stringLen, StaysOpen, hquote]
    · by_cases hescape : c = '\x5c'
      · simpa [SVBuilder.stringLen, StaysOpen, hescape] using stringLen_eq_iff t
      · simpa [SVBuilder.stringLen, StaysOpen, hquote, hescape] using stringLen_eq_iff (e :: t)

end Verilua.CovExporter
