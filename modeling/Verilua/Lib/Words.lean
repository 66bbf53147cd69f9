import Mathlib.Data.Nat.Bitwise
import Mathlib.Data.Nat.Digits.Defs
import Mathlib.Tactic.NormNum

/-!
# Little-endian vectors of words

A number as a list of words of `w` bits, the lowest first. Bit `i` of the number is bit `i % w` of
word `i / w`. For words of 64 bits there is an equation for each operation of the machine.
-/

namespace Words

variable {w i k n : Nat} {l : List Nat}

/-- The `k` lowest words of `n`. -/
def words (w k n : Nat) : List Nat := (List.range k).map fun i => n / 2 ^ (w * i) % 2 ^ w

/-- The number that the words are of. -/
def value (w : Nat) (l : List Nat) : Nat := Nat.ofDigits (2 ^ w) l

@[simp] lemma value_nil (w : Nat) : value w [] = 0 := rfl

lemma value_cons (w n : Nat) (l : List Nat) : value w (n :: l) = n + 2 ^ w * value w l := by
  simp [value, Nat.ofDigits_cons]

@[simp] lemma length_words (w k n : Nat) : (words w k n).length = k := by simp [words]

lemma getElem?_words (hi : i < k) : (words w k n)[i]? = some (n / 2 ^ (w * i) % 2 ^ w) := by
  simp [words, hi]

lemma lt_of_mem_words : ∀ x ∈ words w k n, x < 2 ^ w := by
  intro x hx
  obtain ⟨i, -, rfl⟩ := List.mem_map.mp hx
  exact Nat.mod_lt _ (Nat.two_pow_pos w)

lemma value_lt (hl : ∀ x ∈ l, x < 2 ^ w) : value w l < 2 ^ (w * l.length) := by
  induction l with
  | nil => simp
  | cons x l ih =>
    have hx : x < 2 ^ w := hl x List.mem_cons_self
    have hrest : value w l < 2 ^ (w * l.length) := ih fun y hy => hl y (List.mem_cons_of_mem x hy)
    rw [value_cons, List.length_cons, Nat.mul_succ, Nat.add_comm (w * l.length), pow_add]
    calc x + 2 ^ w * value w l < 2 ^ w + 2 ^ w * value w l := Nat.add_lt_add_right hx _
      _ = 2 ^ w * (value w l + 1) := by ring
      _ ≤ 2 ^ w * 2 ^ (w * l.length) := Nat.mul_le_mul_left _ hrest

lemma getD_eq (hl : ∀ x ∈ l, x < 2 ^ w) (i : Nat) :
    l.getD i 0 = value w l / 2 ^ (w * i) % 2 ^ w := by
  induction l generalizing i with
  | nil => simp
  | cons x l ih =>
    have hx : x < 2 ^ w := hl x List.mem_cons_self
    have hrest : ∀ y ∈ l, y < 2 ^ w := fun y hy => hl y (List.mem_cons_of_mem x hy)
    rw [value_cons]
    cases i with
    | zero => simp [Nat.mod_eq_of_lt hx]
    | succ i =>
      rw [List.getD_cons_succ, ih hrest, Nat.mul_succ, Nat.add_comm (w * i), pow_add,
        ← Nat.div_div_eq_div_mul, Nat.add_mul_div_left _ _ (Nat.two_pow_pos w),
        Nat.div_eq_of_lt hx, Nat.zero_add]

lemma eq_words (hlen : l.length = k) (hl : ∀ x ∈ l, x < 2 ^ w) (hval : value w l = n) :
    l = words w k n := by
  apply List.ext_getElem
  · rw [hlen, length_words]
  · intro i hi hi'
    have hget := getD_eq hl i
    rw [List.getD_eq_getElem _ _ hi, hval] at hget
    rw [hget]
    simp [words]

lemma testBit_value (hw : 0 < w) (hl : ∀ x ∈ l, x < 2 ^ w) (i : Nat) :
    (value w l).testBit i = (l.getD (i / w) 0).testBit (i % w) := by
  have hlt : i % w < w := Nat.mod_lt i hw
  rw [getD_eq hl, Nat.testBit_mod_two_pow, decide_eq_true hlt, Bool.true_and,
    Nat.testBit_div_two_pow, Nat.mod_add_div]

@[simp] lemma value_words (w k n : Nat) : value w (words w k n) = n % 2 ^ (w * k) := by
  induction k generalizing n with
  | zero => simp [words, Nat.mod_one]
  | succ k ih =>
    have hcons : words w (k + 1) n = n % 2 ^ w :: words w k (n / 2 ^ w) := by
      rw [words, List.range_succ_eq_map, List.map_cons, List.map_map, words]
      congr 1
      · simp
      · apply List.map_congr_left
        intro i _
        simp only [Function.comp_apply, Nat.mul_succ]
        rw [Nat.add_comm (w * i), pow_add, Nat.div_div_eq_div_mul]
    rw [hcons, value_cons, ih, Nat.mul_succ, Nat.add_comm (w * k), pow_add, Nat.mod_mul]

lemma words_mod (w k n : Nat) : words w k (n % 2 ^ (w * k)) = words w k n :=
  (eq_words (length_words w k n) lt_of_mem_words (value_words w k n)).symm

lemma toNat_shiftLeft_or (hi lo : UInt32) :
    (hi.toUInt64 <<< 32 ||| lo.toUInt64).toNat = hi.toNat * 2 ^ 32 + lo.toNat := by
  have hlo := lo.toNat_lt
  have hhi := hi.toNat_lt
  have hshift : (hi.toUInt64 <<< 32).toNat = hi.toNat * 2 ^ 32 := by
    rw [UInt64.toNat_shiftLeft, UInt32.toNat_toUInt64, Nat.shiftLeft_eq]
    exact Nat.mod_eq_of_lt (Nat.mul_lt_mul_of_pos_right hhi (by norm_num))
  rw [UInt64.toNat_or, hshift, UInt32.toNat_toUInt64, Nat.mul_comm, Nat.two_pow_add_eq_or_of_lt hlo]

end Words

/-! ### Words of 64 bits -/

namespace Word64

variable {i k : Nat} {u v : UInt64}

def bit (u : UInt64) (i : Nat) : Bool := u.toNat.testBit i

/-- A one in each of the `k` lowest bits, for less than 64. -/
def ones (k : Nat) : UInt64 := 1 <<< UInt64.ofNat k - 1

lemma bit_of_le (hi : 64 ≤ i) : bit u i = false :=
  Nat.testBit_lt_two_pow (u.toNat_lt.trans_le (Nat.pow_le_pow_right (by norm_num) hi))

lemma bit_and (u v : UInt64) (i : Nat) : bit (u &&& v) i = (bit u i && bit v i) := by
  rw [bit, UInt64.toNat_and, Nat.testBit_and]
  rfl

lemma bit_or (u v : UInt64) (i : Nat) : bit (u ||| v) i = (bit u i || bit v i) := by
  rw [bit, UInt64.toNat_or, Nat.testBit_or]
  rfl

lemma bit_not (hi : i < 64) : bit (~~~u) i = !bit u i := by
  rw [bit, bit, ← UInt64.toNat_toBitVec, ← UInt64.toNat_toBitVec, UInt64.toBitVec_not,
    ← BitVec.getLsbD, ← BitVec.getLsbD, BitVec.getLsbD_not, decide_eq_true hi, Bool.true_and]

lemma bit_shiftLeft (hk : k < 64) (hi : i < 64) :
    bit (u <<< UInt64.ofNat k) i = (decide (k ≤ i) && bit u (i - k)) := by
  have hkn : (UInt64.ofNat k).toNat % 64 = k := by
    rw [UInt64.toNat_ofNat', Nat.mod_eq_of_lt (hk.trans (by norm_num)), Nat.mod_eq_of_lt hk]
  rw [bit, UInt64.toNat_shiftLeft, hkn, Nat.testBit_mod_two_pow, decide_eq_true hi, Bool.true_and,
    Nat.testBit_shiftLeft]
  rfl

lemma bit_shiftRight (hk : k < 64) (i : Nat) : bit (u >>> UInt64.ofNat k) i = bit u (i + k) := by
  have hkn : (UInt64.ofNat k).toNat % 64 = k := by
    rw [UInt64.toNat_ofNat', Nat.mod_eq_of_lt (hk.trans (by norm_num)), Nat.mod_eq_of_lt hk]
  rw [bit, UInt64.toNat_shiftRight, hkn, Nat.testBit_shiftRight, Nat.add_comm]
  rfl

lemma toNat_ones (hk : k < 64) : (ones k).toNat = 2 ^ k - 1 := by
  have hkn : (UInt64.ofNat k).toNat % 64 = k := by
    rw [UInt64.toNat_ofNat', Nat.mod_eq_of_lt (hk.trans (by norm_num)), Nat.mod_eq_of_lt hk]
  have hpow : (2 : Nat) ^ k < 2 ^ 64 := Nat.pow_lt_pow_right (by norm_num) hk
  have hshift : ((1 : UInt64) <<< UInt64.ofNat k).toNat = 2 ^ k := by
    rw [UInt64.toNat_shiftLeft, hkn, UInt64.toNat_one, Nat.one_shiftLeft, Nat.mod_eq_of_lt hpow]
  have hle : (1 : UInt64) ≤ 1 <<< UInt64.ofNat k := by
    rw [UInt64.le_iff_toNat_le, hshift, UInt64.toNat_one]
    exact Nat.one_le_two_pow
  rw [ones, UInt64.toNat_sub_of_le _ _ hle, hshift, UInt64.toNat_one]

lemma bit_ones (hk : k < 64) (i : Nat) : bit (ones k) i = decide (i < k) := by
  rw [bit, toNat_ones hk, Nat.testBit_two_pow_sub_one]

end Word64
