import Mathlib.Data.List.Basic

/-!
# Patterns of Lua

Lua's own patterns, for `gsub`: single characters and classes with their quantifiers, and `%b`. A
pattern here has no set, no capture and no `^` at its beginning. `bad` is a place where Lua raises an
error if it gets there.
-/

namespace Verilua.LuaPattern

/-- What one character is matched with. -/
inductive Single
  | any
  | lit (c : Char)
  | cls (letter : Char)

inductive Quantifier
  | one
  | star
  | plus
  | minus
  | opt

inductive Item
  | single (s : Single) (q : Quantifier)
  | balance (opening closing : Char)
  | endOfText
  | bad

/-! ### Reading a pattern -/

def quantifier : List Char → Quantifier × ℕ
  | '*' :: _ => (.star, 1)
  | '+' :: _ => (.plus, 1)
  | '-' :: _ => (.minus, 1)
  | '?' :: _ => (.opt, 1)
  | _ => (.one, 0)

/-- The items of a pattern, of which `skip` characters have been read. -/
def itemsFrom : ℕ → List Char → List Item
  | _, [] => []
  | skip + 1, _ :: cs => itemsFrom skip cs
  | 0, c :: cs =>
    if c = '%' then
      match cs with
      | [] => [.bad]
      | d :: ds =>
        if d = 'b' then
          match ds with
          | x :: y :: _ => .balance x y :: itemsFrom 3 cs
          | _ => [.bad]
        else if d = 'f' ∨ d.isDigit then [.bad]
        else .single (.cls d) (quantifier ds).1 :: itemsFrom (1 + (quantifier ds).2) cs
    else if c = '$' ∧ cs = [] then [.endOfText]
    else if c ∈ ['(', ')', '['] then [.bad]
    else .single (if c = '.' then .any else .lit c) (quantifier cs).1 ::
      itemsFrom (quantifier cs).2 cs

def items (p : List Char) : List Item := itemsFrom 0 p

/-! ### Matching -/

def isPunct (c : Char) : Bool :=
  33 ≤ c.toNat && c.toNat ≤ 126 && !c.isAlphanum

/-- The classes by their letter; a letter that is none stands for itself. -/
def inClass (c letter : Char) : Bool :=
  match letter.toLower with
  | 'a' => c.isAlpha == letter.isLower
  | 'c' => (c.toNat < 32 || c.toNat == 127) == letter.isLower
  | 'd' => c.isDigit == letter.isLower
  | 'g' => (33 ≤ c.toNat && c.toNat ≤ 126) == letter.isLower
  | 'l' => c.isLower == letter.isLower
  | 'p' => isPunct c == letter.isLower
  | 's' => (c.toNat == 32 || (9 ≤ c.toNat && c.toNat ≤ 13)) == letter.isLower
  | 'u' => c.isUpper == letter.isLower
  | 'w' => c.isAlphanum == letter.isLower
  | 'x' => (c.isDigit || c.toLower ∈ ['a', 'b', 'c', 'd', 'e', 'f']) == letter.isLower
  | 'z' => (c.toNat == 0) == letter.isLower
  | _ => c == letter

def Single.accepts : Single → Char → Bool
  | .any, _ => true
  | .lit d, c => c == d
  | .cls letter, c => inClass c letter

/-- An error, no match, or a match and the text behind it. -/
inductive Result
  | error
  | fail
  | found (rest : List Char)
  deriving DecidableEq

/-- The first one that does not fail. -/
def firstOf (f : List Char → Result) : List (List Char) → Result
  | [] => .fail
  | s :: ss =>
    match f s with
    | .fail => firstOf f ss
    | r => r

/-- What is left behind no, one, two, .. characters that are accepted. -/
def suffixes (s : Single) : List Char → List (List Char)
  | [] => [[]]
  | c :: cs => (c :: cs) :: if s.accepts c then suffixes s cs else []

/-- What is behind the closing character, `depth` of them being open. -/
def balanced (opening closing : Char) : ℕ → List Char → Option (List Char)
  | _, [] => none
  | depth, c :: cs =>
    if c = closing then if depth = 1 then some cs else balanced opening closing (depth - 1) cs
    else balanced opening closing (if c = opening then depth + 1 else depth) cs

/-- `match` -/
def matchItems : List Item → List Char → Result
  | [], t => .found t
  | .bad :: _, _ => .error
  | .endOfText :: _, t => if t = [] then .found [] else .fail
  | .balance opening closing :: is, t =>
    match t with
    | [] => .fail
    | c :: cs =>
      if c = opening then
        match balanced opening closing 1 cs with
        | some rest => matchItems is rest
        | none => .fail
      else .fail
  | .single s q :: is, t =>
    match q with
    | .star => firstOf (matchItems is) (suffixes s t).reverse
    | .plus => firstOf (matchItems is) (suffixes s t).tail.reverse
    | .minus => firstOf (matchItems is) (suffixes s t)
    | .opt => firstOf (matchItems is) ((suffixes s t).take 2).reverse
    | .one =>
      match t with
      | [] => .fail
      | c :: cs => if s.accepts c then matchItems is cs else .fail

/-- What the replacement text stands for, if `whole` is matched. -/
def expand (whole : List Char) : List Char → Option (List Char)
  | [] => some []
  | '%' :: [] => some ['\x00']
  | '%' :: d :: ds =>
    if d.isDigit then
      if d = '0' ∨ d = '1' then (whole ++ ·) <$> expand whole ds else none
    else (d :: ·) <$> expand whole ds
  | c :: cs => (c :: ·) <$> expand whole cs

/-- The loop of `gsub`, with fuel. -/
def gsubFrom (is : List Item) (repl : List Char) : ℕ → List Char → Option (List Char)
  | 0, t => some t
  | n + 1, t =>
    match matchItems is t with
    | .error => none
    | .found rest => do
      let new ← expand (t.take (t.length - rest.length)) repl
      if rest.length < t.length then return new ++ (← gsubFrom is repl n rest)
      else
        match t with
        | [] => return new
        | c :: cs => return new ++ c :: (← gsubFrom is repl n cs)
    | .fail =>
      match t with
      | [] => some []
      | c :: cs => (c :: ·) <$> gsubFrom is repl n cs

/-- `string.gsub(t, p, repl)` -/
def gsub (t p repl : List Char) : Option (List Char) :=
  gsubFrom (items p) repl (t.length + 1) t

/-! ### Patterns that stand for themselves -/

/-- The characters that are not themselves in a pattern, wherever they stand. -/
def special : List Char := ['%', '.', '[', '(', ')', '*', '+', '-', '?']

def lits (p : List Char) : List Item := p.map fun c => .single (.lit c) .one

variable {p u t repl : List Char} {c : Char} {n : ℕ}

lemma quantifier_of_plain (hp : ∀ c ∈ p, c ∉ special) : quantifier p = (.one, 0) := by
  cases p with
  | nil => rfl
  | cons c cs =>
    have hc : ∀ d ∈ special, c ≠ d := fun d hd h => hp c List.mem_cons_self (h ▸ hd)
    unfold quantifier
    split
    next h => exact absurd (List.cons.inj h).1 (hc '*' (by decide))
    next h => exact absurd (List.cons.inj h).1 (hc '+' (by decide))
    next h => exact absurd (List.cons.inj h).1 (hc '-' (by decide))
    next h => exact absurd (List.cons.inj h).1 (hc '?' (by decide))
    next => rfl

lemma items_of_plain (hp : ∀ c ∈ p, c ∉ special) (hlast : p.getLast? ≠ some '$') :
    items p = lits p := by
  unfold items
  induction p with
  | nil => rfl
  | cons c cs ih =>
    have hc := hp c List.mem_cons_self
    have hcs : ∀ d ∈ cs, d ∉ special := fun d hd => hp d (List.mem_cons_of_mem _ hd)
    have hpercent : c ≠ '%' := fun h => hc (h ▸ by decide)
    have hdot : c ≠ '.' := fun h => hc (h ▸ by decide)
    have hnone : c ∉ ['(', ')', '['] := by
      intro h
      simp only [List.mem_cons, List.not_mem_nil, or_false] at h
      obtain rfl | rfl | rfl := h <;> exact hc (by decide)
    have hend : ¬ (c = '$' ∧ cs = []) := by
      rintro ⟨rfl, rfl⟩
      exact hlast rfl
    have hrest : cs.getLast? ≠ some '$' := by
      cases cs with
      | nil => simp
      | cons d ds => rwa [List.getLast?_cons_cons] at hlast
    unfold itemsFrom
    rw [if_neg hpercent, if_neg hend, if_neg hnone, if_neg hdot, quantifier_of_plain hcs]
    exact congrArg _ (ih hcs hrest)

lemma matchItems_lits (p t : List Char) : matchItems (lits p) (p ++ t) = .found t := by
  induction p with
  | nil => rfl
  | cons c cs ih => simpa [lits, matchItems, Single.accepts] using ih

lemma matchItems_lits_fail (h : ¬ p <+: t) : matchItems (lits p) t = .fail := by
  induction p generalizing t with
  | nil => exact absurd List.nil_prefix h
  | cons c cs ih =>
    cases t with
    | nil => rfl
    | cons d ds =>
      by_cases hd : d = c
      · subst hd
        have hds : ¬ cs <+: ds := fun hpre => h ((List.prefix_cons_inj d).2 hpre)
        simpa [lits, matchItems, Single.accepts] using ih hds
      · simp [lits, matchItems, Single.accepts, hd]

lemma gsubFrom_lits (hp : p ≠ []) (t : List Char) (n : ℕ) :
    gsubFrom (lits p) repl (n + 1) (p ++ t) =
      (expand p repl).bind fun new => (new ++ ·) <$> gsubFrom (lits p) repl n t := by
  have htake : (p ++ t).take ((p ++ t).length - t.length) = p := by simp
  have hlen : t.length < (p ++ t).length := by
    have := List.length_pos_iff.2 hp
    simp only [List.length_append]
    omega
  rw [gsubFrom.eq_def]
  simp only [matchItems_lits, htake, hlen, if_true]
  cases expand p repl with
  | none => rfl
  | some new => cases gsubFrom (lits p) repl n t <;> rfl

lemma gsubFrom_of_not_prefix (h : ¬ p <+: c :: t) (n : ℕ) :
    gsubFrom (lits p) repl (n + 1) (c :: t) = (c :: ·) <$> gsubFrom (lits p) repl n t := by
  rw [gsubFrom.eq_def]
  simp only [matchItems_lits_fail h]

/-- Where the first character of the pattern does not occur, nothing is replaced. -/
lemma gsubFrom_append (hp : p ≠ []) (hu : ∀ c ∈ u, p.head? ≠ some c) (repl t : List Char)
    (n : ℕ) :
    gsubFrom (lits p) repl (u.length + n) (u ++ t) = (u ++ ·) <$> gsubFrom (lits p) repl n t := by
  induction u with
  | nil =>
    rw [List.length_nil, Nat.zero_add, List.nil_append]
    cases gsubFrom (lits p) repl n t <;> rfl
  | cons c u ih =>
    have hne : ¬ p <+: c :: (u ++ t) := by
      intro hpre
      obtain ⟨d, ds, rfl⟩ := List.exists_cons_of_ne_nil hp
      exact hu c List.mem_cons_self (congrArg some (List.cons_prefix_cons.1 hpre).1)
    rw [List.length_cons, Nat.add_right_comm, List.cons_append, gsubFrom_of_not_prefix hne,
      ih fun d hd => hu d (List.mem_cons_of_mem _ hd)]
    cases gsubFrom (lits p) repl n t <;> rfl

end Verilua.LuaPattern
