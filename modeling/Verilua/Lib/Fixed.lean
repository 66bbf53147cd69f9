import Verilua.Lib.Numeral

/-!
# Numerals of a fixed length

`fixed b k n` is the numeral of `k` digits in base `b` that spells `n` modulo `b ^ k`. Every numeral
is of this form, and the operations on strings of digits become arithmetic: to join numerals, to
take the front or the rest, to put zeros in front, to group digits.
-/

namespace Numeral

variable {b j k m n : Nat} {ds : List Nat}

/-- The `k` lowest digits of `n`. -/
def fixed (b : Nat) : Nat → Nat → List Nat
  | 0, _ => []
  | k + 1, n => fixed b k (n / b) ++ [n % b]

@[simp] lemma fixed_zero (b n : Nat) : fixed b 0 n = [] := rfl

lemma fixed_succ (b k n : Nat) : fixed b (k + 1) n = fixed b k (n / b) ++ [n % b] := rfl

@[simp] lemma fixed_one (b n : Nat) : fixed b 1 n = [n % b] := rfl

@[simp] lemma length_fixed (b k n : Nat) : (fixed b k n).length = k := by
  induction k generalizing n with
  | zero => rfl
  | succ k ih => simp [fixed_succ, ih]

lemma lt_of_mem_fixed (hb : 0 < b) : ∀ d ∈ fixed b k n, d < b := by
  induction k generalizing n with
  | zero => simp
  | succ k ih =>
    intro d hd
    rcases List.mem_append.mp hd with hd | hd
    · exact ih d hd
    · rw [List.mem_singleton.mp hd]
      exact Nat.mod_lt n hb

@[simp] lemma value_fixed (b k n : Nat) : value b (fixed b k n) = n % b ^ k := by
  induction k generalizing n with
  | zero => simp [Nat.mod_one]
  | succ k ih =>
    rw [fixed_succ, value_concat, ih, pow_succ, Nat.mul_comm (b ^ k), Nat.mod_mul, Nat.add_comm]

lemma fixed_value (hds : ∀ d ∈ ds, d < b) : fixed b ds.length (value b ds) = ds := by
  induction ds using List.reverseRecOn with
  | nil => rfl
  | append_singleton ds d ih =>
    have hd : d < b := hds d (by simp)
    have hrest : ∀ e ∈ ds, e < b := fun e he => hds e (List.mem_append_left _ he)
    have hpos : 0 < b := Nat.zero_lt_of_lt hd
    rw [List.length_append, List.length_singleton, fixed_succ, value_concat,
      Nat.mul_add_div hpos, Nat.div_eq_of_lt hd, Nat.add_zero, ih hrest, Nat.mul_add_mod,
      Nat.mod_eq_of_lt hd]

lemma eq_fixed (hlen : ds.length = k) (hds : ∀ d ∈ ds, d < b) (hval : value b ds = n) :
    ds = fixed b k n := by
  rw [← hlen, ← hval, fixed_value hds]

lemma fixed_eq_fixed_iff (hb : 0 < b) : fixed b k m = fixed b k n ↔ m % b ^ k = n % b ^ k := by
  constructor
  · intro h
    rw [← value_fixed, h, value_fixed]
  · intro h
    exact eq_fixed (length_fixed b k m) (lt_of_mem_fixed hb) ((value_fixed b k m).trans h) |>.trans
      (eq_fixed (length_fixed b k n) (lt_of_mem_fixed hb) (value_fixed b k n)).symm

lemma fixed_mod (hb : 0 < b) (k n : Nat) : fixed b k (n % b ^ k) = fixed b k n :=
  (fixed_eq_fixed_iff hb).mpr (Nat.mod_mod _ _)

lemma fixed_append (b j k n : Nat) :
    fixed b (j + k) n = fixed b j (n / b ^ k) ++ fixed b k n := by
  induction k generalizing n with
  | zero => simp
  | succ k ih =>
    rw [← Nat.add_assoc, fixed_succ, fixed_succ, ih, List.append_assoc, Nat.div_div_eq_div_mul,
      pow_succ, Nat.mul_comm b]

lemma fixed_succ' (b k n : Nat) : fixed b (k + 1) n = n / b ^ k % b :: fixed b k n := by
  rw [Nat.add_comm, fixed_append, fixed_one, List.singleton_append]

lemma drop_fixed (b j k n : Nat) : (fixed b (j + k) n).drop j = fixed b k n := by
  rw [fixed_append]
  exact List.drop_left' (length_fixed b j _)

lemma take_fixed (b j k n : Nat) : (fixed b (j + k) n).take j = fixed b j (n / b ^ k) := by
  rw [fixed_append]
  exact List.take_left' (length_fixed b j _)

lemma fixed_of_zero (b k : Nat) : fixed b k 0 = List.replicate k 0 := by
  induction k with
  | zero => rfl
  | succ k ih => rw [fixed_succ, Nat.zero_div, ih, Nat.zero_mod, List.replicate_succ']

lemma replicate_append_fixed (hb : 0 < b) (j k n : Nat) :
    List.replicate j 0 ++ fixed b k n = fixed b (j + k) (n % b ^ k) := by
  rw [fixed_append, Nat.div_eq_of_lt (Nat.mod_lt n (Nat.pow_pos hb)), fixed_of_zero, fixed_mod hb]

/-- Digits of base `b ^ j` are groups of `j` digits of base `b`. -/
lemma fixed_mul (hb : 0 < b) (j k n : Nat) :
    fixed b (k * j) n = (fixed (b ^ j) k n).flatMap (fixed b j) := by
  induction k generalizing n with
  | zero => simp
  | succ k ih =>
    rw [Nat.succ_mul, fixed_append, ih, fixed_succ, List.flatMap_append, List.flatMap_singleton,
      fixed_mod hb]

/-! ### The shortest numeral -/

/-- To leave out the leading zeros gives the shortest numeral, save that zero keeps one digit. -/
lemma toDigits_eq_dropWhile (hb : 1 < b) (hds : ∀ d ∈ ds, d < b) :
    Nat.toDigits b (value b ds) =
      if ds.dropWhile (· == 0) = [] then ['0']
      else (ds.dropWhile (· == 0)).map Nat.digitChar := by
  induction ds with
  | nil => simp
  | cons d ds ih =>
    rcases Nat.eq_zero_or_pos d with rfl | hd
    · rw [value_cons, Nat.zero_mul, Nat.zero_add, ih fun e he => hds e (List.mem_cons_of_mem _ he)]
      simp
    · rw [toDigits_value_of_head hb hds hd, List.dropWhile_cons_of_neg (by simpa using hd.ne'),
        if_neg (List.cons_ne_nil d ds)]

lemma exists_toDigits (hb : 1 < b) (n : Nat) :
    ∃ ds, ds ≠ [] ∧ (∀ d ∈ ds, d < b) ∧ value b ds = n ∧
      Nat.toDigits b n = ds.map Nat.digitChar := by
  induction n using Nat.strong_induction_on with
  | h n ih =>
    by_cases hlt : n < b
    · exact ⟨[n], by simp, by simpa using hlt, value_singleton b n, Nat.toDigits_of_lt_base hlt⟩
    · obtain ⟨ds, -, hds, hval, hdigits⟩ := ih (n / b) (Nat.div_lt_self (by omega) hb)
      have hmod : n % b < b := Nat.mod_lt n (by omega)
      refine ⟨ds ++ [n % b], by simp, ?_, ?_, ?_⟩
      · intro d hd
        rcases List.mem_append.mp hd with hd | hd
        · exact hds d hd
        · rw [List.mem_singleton.mp hd]
          exact hmod
      · rw [value_concat, hval, Nat.div_add_mod]
      · rw [Nat.toDigits_of_base_le hb (not_lt.mp hlt), hdigits, List.map_append,
          List.map_singleton]

end Numeral
