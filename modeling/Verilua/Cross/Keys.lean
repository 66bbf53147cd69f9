import Verilua.Cross.Combinations
import Verilua.Lib.Insertion
import Mathlib.Algebra.Ring.Nat
import Mathlib.Data.List.DropRight
import Mathlib.Data.Char

/-!
# `value_key`, `tuple_key` and `set_key`

The texts by which sampled tuples are told apart. A key can be read back, but what it holds of a number
is the number as `tostring` prints it, with 14 digits, and what it holds of a tuple ends where `#` says
that the tuple does.
-/

namespace Verilua.Cross

open Fifo

/-! ### Numbers as they are printed -/

/-- The digits that `%.14g` prints at most. -/
def precision : ℕ := 14

/-- A number with at most 14 digits before the zeros at its end. Whether a number halfway between two
of these goes up is left to `up`. -/
def roundNat (up : ℕ → Bool) (n : ℕ) : ℕ :=
  let digits := (Nat.toDigits 10 n).length
  if digits ≤ precision then n
  else
    let unit := 10 ^ (digits - precision)
    let q := n / unit
    if unit < 2 * (n % unit) ∨ (2 * (n % unit) = unit ∧ up q = true) then (q + 1) * unit
    else q * unit

/-- The digits behind the first, without the zeros at the end. -/
def fraction (digits : List Char) : List Char := digits.tail.rdropWhile (· = '0')

/-- The digits as `%e` prints them, before the exponent. -/
def mantissa (digits : List Char) : List Char :=
  digits.take 1 ++ if fraction digits = [] then [] else '.' :: fraction digits

/-- `%.14g` for a number that is rounded already. -/
def printed (n : ℕ) : List Char :=
  let digits := Nat.toDigits 10 n
  if digits.length ≤ precision then digits
  else mantissa digits ++ 'e' :: '+' :: Nat.toDigits 10 (digits.length - 1)

/-! ### The keys -/

/-- The values that are supported. A number is an integer, and a character of a string is a byte. -/
inductive Scalar
  | number (n : ℤ)
  | uint64 (x : UInt64)
  | string (s : List Char)
  | boolean (b : Bool)
  | nil
  deriving DecidableEq

namespace Scalar

instance : Inhabited Scalar := ⟨nil⟩

def type : Scalar → List Char
  | number _ => ['n', 'u', 'm', 'b', 'e', 'r']
  | uint64 _ => ['c', 'd', 'a', 't', 'a']
  | string _ => ['s', 't', 'r', 'i', 'n', 'g']
  | boolean _ => ['b', 'o', 'o', 'l', 'e', 'a', 'n']
  | nil => ['n', 'i', 'l']

def tostring (up : ℕ → Bool) : Scalar → List Char
  | number n => (if n < 0 then ['-'] else []) ++ printed (roundNat up n.natAbs)
  | uint64 x => Nat.toDigits 10 x.toNat ++ ['U', 'L', 'L']
  | string s => s
  | boolean b => if b then ['t', 'r', 'u', 'e'] else ['f', 'a', 'l', 's', 'e']
  | nil => ['n', 'i', 'l']

/-- A number is rounded to 14 digits. -/
def rounded (up : ℕ → Bool) : Scalar → Scalar
  | number n => number (if n < 0 then -(roundNat up n.natAbs : ℤ) else roundNat up n.natAbs)
  | v => v

end Scalar

def valueKey (up : ℕ → Bool) (value : Scalar) : List Char :=
  let s := value.tostring up
  value.type ++ ':' :: (Nat.toDigits 10 s.length ++ ':' :: s)

/-- `key = strs[1]`, then `key = key .. "|" .. strs[i]` for `i` from 2 to `n`. -/
def joined (n : ℕ) (strs : ℕ → List Char) : List Char :=
  (List.range' 2 (n - 1)).foldl (fun key i => key ++ '|' :: strs i) (strs 1)

/-- `tuple_key`, where `border` is what `#` returns for a table. -/
def tupleKey (up : ℕ → Bool) (border : List Scalar → ℕ) (combo : List Scalar) : List Char :=
  let n := border combo
  if n = 0 then [] else joined n fun i => valueKey up (table combo i)

/-- `set_key`, where `border` is what `#` returns for a table. -/
def setKey (up : ℕ → Bool) (border : List Scalar → ℕ) (combo : List Scalar) : List Char :=
  let n := border combo
  if n = 0 then [] else joined n (Insertion.sort n fun i => valueKey up (table combo i))

/-! ### Reading a number back -/

section Numbers

variable {m n : ℕ} {c : Char} {A A' B B' : List Char}

lemma split_inj (h : c ∉ A) (h' : c ∉ A') (heq : A ++ c :: B = A' ++ c :: B') :
    A = A' ∧ B = B' := by
  induction A generalizing A' with
  | nil =>
    cases A' with
    | nil => exact ⟨rfl, (List.cons.inj heq).2⟩
    | cons x A' => exact absurd (List.cons.inj heq).1 fun hx => h' (hx ▸ List.mem_cons_self)
  | cons x A ih =>
    cases A' with
    | nil => exact absurd (List.cons.inj heq).1 fun hx => h (hx ▸ List.mem_cons_self)
    | cons x' A' =>
      obtain ⟨rfl, hrest⟩ := List.cons.inj heq
      obtain ⟨rfl, rfl⟩ := ih (fun hmem => h (List.mem_cons_of_mem _ hmem))
        (fun hmem => h' (List.mem_cons_of_mem _ hmem)) hrest
      exact ⟨rfl, rfl⟩

lemma toDigits_inj (h : Nat.toDigits 10 m = Nat.toDigits 10 n) : m = n := by
  have hread := congrArg (fun ds => Nat.ofDigitChars 10 ds 0) h
  simpa only [Nat.ofDigitChars_ten_toDigits] using hread

lemma not_mem_toDigits (hc : c.isDigit = false) : c ∉ Nat.toDigits 10 n := by
  intro hmem
  have hdigit := Nat.isDigit_of_mem_toDigits (by decide) (by decide) hmem
  rw [hc] at hdigit
  cases hdigit

lemma not_mem_mantissa (h : c ∉ A) (hdot : c ≠ '.') : c ∉ mantissa A := by
  have hfraction : c ∉ fraction A := by
    intro hmem
    have htail := (List.rdropWhile_prefix (· = '0') (l := A.tail)).subset hmem
    exact h (List.mem_of_mem_tail htail)
  unfold mantissa
  split_ifs
  · simpa using fun hmem => h (List.mem_of_mem_take hmem)
  · simpa [hdot, hfraction] using fun hmem => h (List.mem_of_mem_take hmem)

lemma eq_of_fraction_eq (hlen : A.length = B.length) (hfraction : fraction A = fraction B) :
    A.tail = B.tail := by
  have hzeros : ∀ l : List Char, l.tail =
      fraction l ++ List.replicate (l.tail.length - (fraction l).length) '0' := by
    intro l
    have hsplit : fraction l ++ l.tail.rtakeWhile (· = '0') = l.tail :=
      List.rdropWhile_append_rtakeWhile
    have htake : l.tail.rtakeWhile (· = '0') =
        List.replicate (l.tail.rtakeWhile (· = '0')).length '0' :=
      List.eq_replicate_of_mem fun x hx => by simpa using List.mem_rtakeWhile_imp hx
    have hlength := congrArg List.length hsplit
    rw [List.length_append] at hlength
    rw [← hlength, Nat.add_sub_cancel_left, ← htake, hsplit]
  rw [hzeros A, hzeros B, hfraction, List.length_tail, List.length_tail, hlen]

lemma mantissa_cons {x : Char} : mantissa (x :: A) =
    x :: if fraction (x :: A) = [] then [] else '.' :: fraction (x :: A) := rfl

lemma mantissa_inj (hA : A ≠ []) (hB : B ≠ []) (hlen : A.length = B.length)
    (heq : mantissa A = mantissa B) : A = B := by
  obtain ⟨x, xs, rfl⟩ := List.exists_cons_of_ne_nil hA
  obtain ⟨y, ys, rfl⟩ := List.exists_cons_of_ne_nil hB
  rw [mantissa_cons, mantissa_cons] at heq
  obtain ⟨rfl, hrest⟩ := List.cons.inj heq
  have hfraction : fraction (x :: xs) = fraction (x :: ys) := by
    split_ifs at hrest with h h'
    · rw [h, h']
    · exact (List.cons.inj hrest).2
  exact congrArg (x :: ·) (eq_of_fraction_eq hlen hfraction)

theorem printed_inj (h : printed m = printed n) : m = n := by
  have he : ∀ k, 'e' ∉ Nat.toDigits 10 k := fun k => not_mem_toDigits (by decide)
  unfold printed at h
  dsimp only at h
  split_ifs at h with hm hn hn
  · exact toDigits_inj h
  · exact absurd (h ▸ List.mem_append_right _ List.mem_cons_self) (he m)
  · exact absurd (h ▸ List.mem_append_right _ List.mem_cons_self) (he n)
  · obtain ⟨hmantissa, hexp⟩ := split_inj (not_mem_mantissa (he m) (by decide))
      (not_mem_mantissa (he n) (by decide)) h
    have hlength := toDigits_inj (List.cons.inj hexp).2
    refine toDigits_inj (mantissa_inj Nat.toDigits_ne_nil Nat.toDigits_ne_nil ?_ hmantissa)
    have hm' := Nat.lt_of_not_le hm
    have hn' := Nat.lt_of_not_le hn
    omega

end Numbers

/-! ### Reading a key back -/

section Keys

variable {up : ℕ → Bool} {v w : Scalar} {x y : List Char} {m n : ℤ} {border : List Scalar → ℕ}

lemma roundNat_pos {k : ℕ} (h : 0 < k) : 0 < roundNat up k := by
  unfold roundNat
  dsimp only
  split_ifs with hshort
  · exact h
  · exact Nat.mul_pos (Nat.succ_pos _) (Nat.pow_pos (by decide))
  · have hdigits : ¬ (Nat.toDigits 10 k).length ≤ (Nat.toDigits 10 k).length - precision := by
      unfold precision at hshort ⊢
      omega
    have hpos : 0 < (Nat.toDigits 10 k).length - precision := by omega
    rw [Nat.length_toDigits_le_iff (by decide) hpos] at hdigits
    exact Nat.mul_pos (Nat.div_pos (Nat.le_of_not_lt hdigits) (Nat.pow_pos (by decide)))
      (Nat.pow_pos (by decide))

lemma not_mem_printed {k : ℕ} : '-' ∉ printed k := by
  have hdigits : ∀ k, '-' ∉ Nat.toDigits 10 k := fun k => not_mem_toDigits (by decide)
  unfold printed
  dsimp only
  split_ifs
  · exact hdigits k
  · simp [not_mem_mantissa (hdigits k) (by decide), hdigits]

/-- What is left of a number: its sign, and its value after rounding. -/
def SameRounded (up : ℕ → Bool) (m n : ℤ) : Prop :=
  (m < 0 ↔ n < 0) ∧ roundNat up m.natAbs = roundNat up n.natAbs

lemma rounded_number_iff :
    (Scalar.number m).rounded up = (Scalar.number n).rounded up ↔ SameRounded up m n := by
  have hpos : ∀ k : ℤ, k < 0 → 0 < roundNat up k.natAbs := fun k hk => roundNat_pos (by omega)
  simp only [Scalar.rounded, Scalar.number.injEq, SameRounded]
  by_cases hm : m < 0
  · have := hpos m hm
    by_cases hn : n < 0
    · simp only [hm, hn, if_true, true_and]
      omega
    · simp only [hm, hn, if_true, if_false]
      exact iff_of_false (by omega) (by simp)
  · by_cases hn : n < 0
    · have := hpos n hn
      simp only [hm, hn, if_true, if_false]
      exact iff_of_false (by omega) (by simp)
    · simp only [hm, hn, if_false, true_and]
      omega

lemma tostring_number_iff :
    (Scalar.number m).tostring up = (Scalar.number n).tostring up ↔ SameRounded up m n := by
  have hminus : ∀ k l : ℕ, '-' :: printed k ≠ printed l := fun k l h =>
    not_mem_printed (h ▸ List.mem_cons_self)
  unfold Scalar.tostring SameRounded
  by_cases hm : m < 0
  · by_cases hn : n < 0
    · simp only [hm, hn, if_true, true_and]
      constructor
      · exact fun h => printed_inj (List.cons.inj h).2
      · exact fun h => by rw [h]
    · simp only [hm, hn, if_true, if_false]
      exact iff_of_false (hminus _ _) (by simp)
  · by_cases hn : n < 0
    · simp only [hm, hn, if_true, if_false]
      exact iff_of_false (fun h => hminus _ _ h.symm) (by simp)
    · simp only [hm, hn, if_false, true_and]
      constructor
      · exact fun h => printed_inj h
      · exact fun h => by rw [h]

lemma rounded_eq_of_tostring (htype : v.type = w.type) (h : v.tostring up = w.tostring up) :
    v.rounded up = w.rounded up := by
  cases v <;> cases w <;> simp only [Scalar.type] at htype <;> try cases htype
  case number.number m n => exact rounded_number_iff.mpr (tostring_number_iff.mp h)
  case uint64.uint64 x y =>
    have hnat : x.toNat = y.toNat := toDigits_inj (List.append_cancel_right h)
    rw [UInt64.toNat_inj.mp hnat]
  case string.string s t =>
    have hst : s = t := h
    rw [hst]
  case boolean.boolean b c =>
    cases b <;> cases c <;> first | rfl | cases h
  case nil.nil => rfl

lemma key_eq_of_rounded (h : v.rounded up = w.rounded up) : valueKey up v = valueKey up w := by
  cases v <;> cases w <;> try cases h
  case number.number m n =>
    unfold valueKey
    rw [tostring_number_iff.mpr (rounded_number_iff.mp h)]
    rfl
  all_goals rfl

lemma not_mem_type : ':' ∉ v.type := by
  cases v <;> simp [Scalar.type]

lemma valueKey_append_inj (h : valueKey up v ++ x = valueKey up w ++ y) :
    valueKey up v = valueKey up w ∧ x = y := by
  unfold valueKey at h ⊢
  simp only [List.append_assoc, List.cons_append] at h
  have hcolon : ∀ k, ':' ∉ Nat.toDigits 10 k := fun k => not_mem_toDigits (by decide)
  obtain ⟨htype, hrest⟩ := split_inj not_mem_type not_mem_type h
  obtain ⟨hlen, hrest⟩ := split_inj (hcolon _) (hcolon _) hrest
  obtain ⟨hs, hxy⟩ := List.append_inj hrest (toDigits_inj hlen)
  rw [htype, hs]
  exact ⟨rfl, hxy⟩

lemma valueKey_inj_iff : valueKey up v = valueKey up w ↔ v.rounded up = w.rounded up := by
  constructor
  · intro h
    have hcolon : ∀ k, ':' ∉ Nat.toDigits 10 k := fun k => not_mem_toDigits (by decide)
    obtain ⟨htype, hrest⟩ := split_inj not_mem_type not_mem_type h
    obtain ⟨-, hs⟩ := split_inj (hcolon _) (hcolon _) hrest
    exact rounded_eq_of_tostring htype hs
  · exact key_eq_of_rounded

/-- The texts one after the other, with a bar between them. -/
def join : List (List Char) → List Char
  | [] => []
  | k :: ks => k ++ ks.flatMap ('|' :: ·)

lemma joined_eq (n : ℕ) (t : ℕ → List Char) : joined (n + 1) t = join (values (n + 1) t) := by
  have hloop : ∀ (l : List ℕ) (key : List Char),
      l.foldl (fun key i => key ++ '|' :: t i) key = key ++ (l.map t).flatMap ('|' :: ·) := by
    intro l
    induction l with
    | nil => simp
    | cons i l ih => simp [ih]
  rw [joined, hloop, values_eq, List.range'_succ, List.map_cons, join]
  rfl

lemma join_inj {ks ls : List (List Char)} (hks : ∀ k ∈ ks, ∃ v, k = valueKey up v)
    (hls : ∀ k ∈ ls, ∃ v, k = valueKey up v) (h : join ks = join ls) : ks = ls := by
  have hbars : ∀ ks ls : List (List Char), (∀ k ∈ ks, ∃ v, k = valueKey up v) →
      (∀ k ∈ ls, ∃ v, k = valueKey up v) →
      ks.flatMap ('|' :: ·) = ls.flatMap ('|' :: ·) → ks = ls := by
    intro ks
    induction ks with
    | nil =>
      intro ls _ _ h
      cases ls with
      | nil => rfl
      | cons l ls => cases h
    | cons k ks ih =>
      intro ls hks hls h
      cases ls with
      | nil => cases h
      | cons l ls =>
        obtain ⟨v, rfl⟩ := hks k List.mem_cons_self
        obtain ⟨w, rfl⟩ := hls l List.mem_cons_self
        simp only [List.flatMap_cons, List.cons_append, List.cons.injEq, true_and] at h
        obtain ⟨hkey, hrest⟩ := valueKey_append_inj h
        rw [hkey, ih ls (fun k hk => hks k (List.mem_cons_of_mem _ hk))
          (fun k hk => hls k (List.mem_cons_of_mem _ hk)) hrest]
  have hne : ∀ v x, valueKey up v ++ x ≠ [] := fun v x => by simp [valueKey]
  cases ks with
  | nil =>
    cases ls with
    | nil => rfl
    | cons l ls =>
      obtain ⟨w, rfl⟩ := hls l List.mem_cons_self
      exact absurd h.symm (hne w _)
  | cons k ks =>
    obtain ⟨v, rfl⟩ := hks k List.mem_cons_self
    cases ls with
    | nil => exact absurd h (hne v _)
    | cons l ls =>
      obtain ⟨w, rfl⟩ := hls l List.mem_cons_self
      obtain ⟨hkey, hrest⟩ := valueKey_append_inj h
      rw [hkey, hbars ks ls (fun k hk => hks k (List.mem_cons_of_mem _ hk))
        (fun k hk => hls k (List.mem_cons_of_mem _ hk)) hrest]

/-- What a key holds of a tuple: the values before the end that `#` finds. -/
def cut (border : List Scalar → ℕ) (combo : List Scalar) : List Scalar :=
  values (border combo) (table combo)

variable {a b combo : List Scalar}

lemma tupleKey_eq : tupleKey up border combo = join ((cut border combo).map (valueKey up)) := by
  unfold tupleKey cut
  rw [← values_comp]
  cases border combo with
  | zero => rfl
  | succ n => exact joined_eq n _

lemma setKey_eq (up : ℕ → Bool) (border : List Scalar → ℕ) (combo : List Scalar) :
    ∃ ks, setKey up border combo = join ks ∧
      ks.Perm ((cut border combo).map (valueKey up)) ∧ ks.Pairwise (· ≤ ·) := by
  unfold setKey cut
  rw [← values_comp]
  cases border combo with
  | zero => exact ⟨[], rfl, .refl _, .nil⟩
  | succ n =>
    obtain ⟨hperm, hsorted⟩ := Insertion.row_sort (n + 1) fun i => valueKey up (table combo i)
    exact ⟨_, joined_eq n _, hperm, hsorted⟩

lemma exists_key_of_rounded (up : ℕ → Bool) : ∃ f, valueKey up = f ∘ Scalar.rounded up := by
  apply (Function.factorsThrough_iff (valueKey up)).mp
  exact fun v w h => key_eq_of_rounded h

lemma exists_rounded_of_key (up : ℕ → Bool) : ∃ f, Scalar.rounded up = f ∘ valueKey up := by
  apply (Function.factorsThrough_iff (Scalar.rounded up)).mp
  exact fun v w h => valueKey_inj_iff.mp h

lemma map_key_iff : a.map (valueKey up) = b.map (valueKey up) ↔
    a.map (Scalar.rounded up) = b.map (Scalar.rounded up) := by
  constructor
  · intro h
    obtain ⟨f, hf⟩ := exists_rounded_of_key up
    rw [hf, ← List.map_map, ← List.map_map, h]
  · intro h
    obtain ⟨f, hf⟩ := exists_key_of_rounded up
    rw [hf, ← List.map_map, ← List.map_map, h]

lemma perm_key_iff : (a.map (valueKey up)).Perm (b.map (valueKey up)) ↔
    (a.map (Scalar.rounded up)).Perm (b.map (Scalar.rounded up)) := by
  constructor
  · intro h
    obtain ⟨f, hf⟩ := exists_rounded_of_key up
    rw [hf, ← List.map_map, ← List.map_map]
    exact h.map f
  · intro h
    obtain ⟨f, hf⟩ := exists_key_of_rounded up
    rw [hf, ← List.map_map, ← List.map_map]
    exact h.map f

lemma exists_value_of_mem {ks : List (List Char)} (h : ks.Perm (a.map (valueKey up))) :
    ∀ k ∈ ks, ∃ v, k = valueKey up v := by
  intro k hk
  obtain ⟨v, -, rfl⟩ := List.mem_map.mp (h.subset hk)
  exact ⟨v, rfl⟩

theorem tupleKey_eq_iff : tupleKey up border a = tupleKey up border b ↔
    (cut border a).map (Scalar.rounded up) = (cut border b).map (Scalar.rounded up) := by
  rw [tupleKey_eq, tupleKey_eq, ← map_key_iff]
  constructor
  · exact join_inj (exists_value_of_mem (.refl _)) (exists_value_of_mem (.refl _))
  · exact fun h => by rw [h]

theorem setKey_eq_iff : setKey up border a = setKey up border b ↔
    ((cut border a).map (Scalar.rounded up)).Perm ((cut border b).map (Scalar.rounded up)) := by
  obtain ⟨ks, hks, hperm, hsorted⟩ := setKey_eq up border a
  obtain ⟨ls, hls, hperm', hsorted'⟩ := setKey_eq up border b
  rw [hks, hls, ← perm_key_iff]
  constructor
  · intro h
    rw [join_inj (exists_value_of_mem hperm) (exists_value_of_mem hperm') h] at hperm
    exact hperm.symm.trans hperm'
  · intro h
    have hsame : ks.Perm ls := (hperm.trans h).trans hperm'.symm
    rw [hsame.eq_of_pairwise (fun _ _ _ _ => le_antisymm) hsorted hsorted']

variable (up border a b)

/-- Two tuples that differ are told apart, as tuples or as sets, unless they are the same once they
are cut and their numbers are rounded. -/
theorem keys_injective_iff :
    ((tupleKey up border a = tupleKey up border b → a = b) ↔
      a = b ∨ (cut border a).map (Scalar.rounded up) ≠ (cut border b).map (Scalar.rounded up)) ∧
    ((setKey up border a = setKey up border b → ∀ v, v ∈ a ↔ v ∈ b) ↔
      (∀ v, v ∈ a ↔ v ∈ b) ∨
        ¬ ((cut border a).map (Scalar.rounded up)).Perm ((cut border b).map (Scalar.rounded up))) := by
  rw [tupleKey_eq_iff, setKey_eq_iff]
  constructor
  · tauto
  · tauto

/-- With 15 digits before the zeros, the last one is not printed: both numbers are `1e+14`. -/
theorem keys_not_injective :
    ¬ ∀ a b : List Scalar,
      (tupleKey (fun _ => true) (fun combo => (combo.rdropWhile (· = .nil)).length) a =
          tupleKey (fun _ => true) (fun combo => (combo.rdropWhile (· = .nil)).length) b → a = b) ∧
      (setKey (fun _ => true) (fun combo => (combo.rdropWhile (· = .nil)).length) a =
          setKey (fun _ => true) (fun combo => (combo.rdropWhile (· = .nil)).length) b →
        ∀ v, v ∈ a ↔ v ∈ b) := by
  intro h
  have heq := (h [.number 100000000000000] [.number 100000000000001]).1 (by decide)
  simp at heq

end Keys

end Verilua.Cross
