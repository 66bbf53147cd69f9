import Mathlib.Tactic.NormNum
import Verilua.StrBits.Chunks

/-!
# The functions that work on binary strings

A field of bits and a shift are parts of the binary string. As numbers they are divisions by a power
of two and remainders, and the result has as many digits as the part has groups of four bits.
-/

namespace Verilua.StrBits

variable {k n m s e w : Nat} {hexStr valHexStr : List Char} {bitwidth : Option Nat}

lemma hexValue_lt_two_pow (hexStr : List Char) : hexValue hexStr < 2 ^ (hexStr.length * 4) := by
  rw [Nat.mul_comm, ← sixteen_pow]
  exact hexValue_lt hexStr

/-! ### `bitfield_hex_str` -/

/-- How many bits the string has: four for each digit, and at least the bit width. -/
def width (hexStr : List Char) (bitwidth : Option Nat) : Nat :=
  max (hexStr.length * 4) (bitwidth.getD 0)

lemma padBin_eq (hexStr : List Char) (bitwidth : Option Nat) :
    padBin (spell 2 (hexStr.length * 4) (hexValue hexStr)) bitwidth =
      spell 2 (width hexStr bitwidth) (hexValue hexStr) := by
  cases bitwidth with
  | none => simp [padBin, width]
  | some w =>
    rw [padBin, width, Option.getD_some, length_spell]
    split
    case isTrue hlt =>
      rw [srep_append_spell (by norm_num), Nat.sub_add_cancel hlt.le, max_eq_right hlt.le,
        Nat.mod_eq_of_lt (hexValue_lt_two_pow hexStr)]
    case isFalse hge => rw [max_eq_left (not_lt.mp hge)]

lemma ssub_spell (hse : s ≤ e) (hek : e < k) (n : Nat) :
    ssub (spell 2 k n) (k - e) (k - s) = spell 2 (e - s + 1) (n / 2 ^ s) := by
  obtain ⟨i, rfl⟩ : ∃ i, k = i + (e - s + 1) + s := ⟨k - e - 1, by omega⟩
  rw [ssub, Nat.add_sub_cancel, take_spell, show i + (e - s + 1) + s - e - 1 = i by omega,
    drop_spell]

theorem bitfieldHexStr_eq (hs : IsHex hexStr) (hse : s ≤ e) (he : e < width hexStr bitwidth) :
    bitfieldHexStr hexStr s e bitwidth = some (spell 16 (bitwidthHexChars (e - s + 1))
      (hexValue hexStr / 2 ^ s % 2 ^ (e - s + 1))) := by
  have hrange : ¬(width hexStr bitwidth < s ∨ width hexStr bitwidth < e ∨ e < s) := by omega
  have hne : spell 2 (e - s + 1) (hexValue hexStr / 2 ^ s) ≠ [] := by
    apply List.ne_nil_of_length_pos
    rw [length_spell]
    omega
  rw [bitfieldHexStr, hexToBin_eq hs, Option.bind_eq_bind, Option.bind_some, padBin_eq]
  simp only [length_spell, hrange, if_false, ssub_spell hse he, hne, binStrToHexStr_spell]

/-! ### `set_bitfield_hex_str` -/

/-- The number with its bits `s` to `e` replaced. -/
def setBits (n s e val : Nat) : Nat :=
  let mask := (2 ^ (e - s + 1) - 1) * 2 ^ s
  ((n ||| mask) ^^^ mask) ||| (val &&& (2 ^ (e - s + 1) - 1)) * 2 ^ s

lemma testBit_setBits (hse : s ≤ e) (n val i : Nat) :
    (setBits n s e val).testBit i =
      if s ≤ i ∧ i ≤ e then val.testBit (i - s) else n.testBit i := by
  simp only [setBits, ← Nat.shiftLeft_eq, Nat.testBit_or, Nat.testBit_xor, Nat.testBit_shiftLeft,
    Nat.testBit_and, Nat.testBit_two_pow_sub_one]
  by_cases hs : s ≤ i
  · by_cases he : i ≤ e
    · have hlt : i - s < e - s + 1 := by omega
      simp [hs, he, hlt]
    · have hge : ¬i - s < e - s + 1 := by omega
      simp [hs, he, hge]
  · simp [hs]

lemma setBits_div_mod (hse : s ≤ e) (n val : Nat) :
    setBits n s e val / 2 ^ s % 2 ^ (e - s + 1) = val % 2 ^ (e - s + 1) := by
  apply Nat.eq_of_testBit_eq
  intro j
  rw [Nat.testBit_mod_two_pow, Nat.testBit_mod_two_pow, Nat.testBit_div_two_pow,
    testBit_setBits hse, Nat.add_sub_cancel]
  by_cases hj : j < e - s + 1
  · rw [if_pos (by omega)]
  · simp [hj]

lemma spell_setBits (hse : s ≤ e) (i n val : Nat) :
    spell 2 (i + (e - s + 1) + s) (setBits n s e val) =
      spell 2 i (n / 2 ^ (e + 1)) ++ spell 2 (e - s + 1) val ++ spell 2 s n := by
  have hhigh : setBits n s e val / 2 ^ s / 2 ^ (e - s + 1) = n / 2 ^ (e + 1) := by
    rw [Nat.div_div_eq_div_mul, ← pow_add, show s + (e - s + 1) = e + 1 by omega]
    apply Nat.eq_of_testBit_eq
    intro j
    rw [Nat.testBit_div_two_pow, Nat.testBit_div_two_pow, testBit_setBits hse, if_neg (by omega)]
  have hmid := setBits_div_mod hse n val
  have hlow : setBits n s e val % 2 ^ s = n % 2 ^ s := by
    apply Nat.eq_of_testBit_eq
    intro j
    rw [Nat.testBit_mod_two_pow, Nat.testBit_mod_two_pow, testBit_setBits hse]
    by_cases hj : j < s
    · rw [if_neg (by omega)]
    · simp [hj]
  rw [spell_append, spell_append, hhigh, spell_congr (by norm_num) hmid,
    spell_congr (by norm_num) hlow]

lemma setBits_lt (hse : s ≤ e) (hek : e < k) (hn : n < 2 ^ k) (val : Nat) :
    setBits n s e val < 2 ^ k := by
  apply Nat.lt_pow_two_of_testBit
  intro i hi
  rw [testBit_setBits hse, if_neg (by omega)]
  exact Nat.testBit_lt_two_pow (hn.trans_le (Nat.pow_le_pow_right (by norm_num) hi))

lemma replaceBits_spell (hse : s ≤ e) (hek : e < k) (n val : Nat) :
    replaceBits (spell 2 k n) s e (spell 2 (e - s + 1) val) = spell 2 k (setBits n s e val) := by
  obtain ⟨i, rfl⟩ : ∃ i, k = i + (e - s + 1) + s := ⟨k - e - 1, by omega⟩
  have hk : i + (e - s + 1) + s = i + (e + 1) := by omega
  have hprefix : ssub (spell 2 (i + (e - s + 1) + s) n) 1 (i + (e - s + 1) + s - e - 1) =
      spell 2 i (n / 2 ^ (e + 1)) := by
    rw [ssub, hk, show i + (e + 1) - e - 1 = i by omega, take_spell]
    rfl
  have hsuffix : (spell 2 (i + (e - s + 1) + s) n).drop (i + (e - s + 1) + s - s) =
      spell 2 s n := by
    rw [Nat.add_sub_cancel, drop_spell]
  rw [replaceBits, length_spell, hprefix, hsuffix, spell_setBits hse]

/-- How many bits the string has after the field is set. -/
def setWidth (hexStr : List Char) (e : Nat) (bitwidth : Option Nat) : Nat :=
  max (hexStr.length * 4) (bitwidth.getD (e + 1))

theorem setBitfieldHexStr_eq (hs : IsHex hexStr) (hval : IsHex valHexStr) (hse : s ≤ e)
    (he : e < setWidth hexStr e bitwidth) :
    setBitfieldHexStr hexStr s e valHexStr bitwidth =
      some (spell 16 (bitwidthHexChars (setWidth hexStr e bitwidth))
        (setBits (hexValue hexStr) s e (hexValue valHexStr))) := by
  have hlt : hexValue hexStr < 2 ^ setWidth hexStr e bitwidth :=
    (hexValue_lt_two_pow hexStr).trans_le
      (Nat.pow_le_pow_right (by norm_num) (le_max_left _ _))
  have hgrow : (if bitwidth = none ∧ width hexStr bitwidth ≤ e then
      srep (e - width hexStr bitwidth + 1) ++ spell 2 (width hexStr bitwidth) (hexValue hexStr)
      else spell 2 (width hexStr bitwidth) (hexValue hexStr)) =
      spell 2 (setWidth hexStr e bitwidth) (hexValue hexStr) := by
    cases bitwidth with
    | some w => simp [width, setWidth]
    | none =>
      rw [width, setWidth, Option.getD_none, Option.getD_none, Nat.max_zero]
      split
      case isTrue hle =>
        have hle' : hexStr.length * 4 ≤ e := hle.2
        have hmax : max (hexStr.length * 4) (e + 1) =
            e - hexStr.length * 4 + 1 + hexStr.length * 4 := by omega
        rw [srep_append_spell (by norm_num), hmax, Nat.mod_eq_of_lt (hexValue_lt_two_pow hexStr)]
      case isFalse hgt =>
        have hge : e < hexStr.length * 4 := by simpa using hgt
        rw [max_eq_left hge]
  have hrange : ¬(setWidth hexStr e bitwidth ≤ s ∨ setWidth hexStr e bitwidth ≤ e ∨ e < s) := by
    omega
  have hfit : fitChars (spell 2 (valHexStr.length * 4) (hexValue valHexStr)) (e - s + 1) =
      spell 2 (e - s + 1) (hexValue valHexStr) :=
    fitChars_spell (by norm_num) (by omega) (hexValue_lt_two_pow valHexStr)
  have hcut : (if (spell 2 (valHexStr.length * 4) (hexValue valHexStr)).length < e - s + 1 then
      srep (e - s + 1 - (spell 2 (valHexStr.length * 4) (hexValue valHexStr)).length) ++
        spell 2 (valHexStr.length * 4) (hexValue valHexStr)
      else if e - s + 1 < (spell 2 (valHexStr.length * 4) (hexValue valHexStr)).length then
        ssubLast (spell 2 (valHexStr.length * 4) (hexValue valHexStr)) (e - s + 1)
      else spell 2 (valHexStr.length * 4) (hexValue valHexStr)) =
      spell 2 (e - s + 1) (hexValue valHexStr) := by
    rw [← hfit, fitChars]
    split_ifs <;> first | rfl | omega
  rw [setBitfieldHexStr, hexToBin_eq hs, Option.bind_eq_bind, Option.bind_some, padBin_eq]
  dsimp only
  rw [length_spell, hgrow, length_spell, if_neg hrange, hexToBin_eq hval, Option.bind_some]
  rw [hcut, replaceBits_spell hse he, binStrToHexStr_spell,
    Nat.mod_eq_of_lt (setBits_lt hse he hlt _)]

/-! ### `lshift_hex_str`, `rshift_hex_str` -/

lemma adjustBinBitwidth_spell (hw : 1 ≤ w) (hn : n < 2 ^ k) :
    (binStrToHexStr (adjustBinBitwidth (spell 2 k n) w)) = some (render (some w) n) := by
  rw [adjustBinBitwidth_eq, fitChars_spell (by norm_num) (Nat.one_le_iff_ne_zero.mp hw) hn,
    binStrToHexStr_spell]
  rfl

lemma trimLeadingZeros_binStrToHexStr (hn : n < 2 ^ k) :
    (binStrToHexStr (spell 2 k n)).bind (fun result => pure (trimLeadingZeros result)) =
      some (render none n) := by
  have hlt : n < 16 ^ bitwidthHexChars k := hn.trans_le (two_pow_le k)
  rw [binStrToHexStr_spell, Option.bind_some, Nat.mod_eq_of_lt hn,
    trimLeadingZeros_spell (by norm_num), Nat.mod_eq_of_lt hlt]
  rfl

theorem lshiftHexStr_eq (hbw : ∀ w ∈ bitwidth, 1 ≤ w) (hs : IsHex hexStr) (n : Nat) :
    lshiftHexStr hexStr n bitwidth =
      if n = 0 ∧ bitwidth = none then some hexStr
      else some (render bitwidth (hexValue hexStr * 2 ^ n)) := by
  have hlt := hexValue_lt_two_pow hexStr
  have hshift : hexValue hexStr * 2 ^ n < 2 ^ (hexStr.length * 4 + n) := by
    rw [pow_add]
    exact Nat.mul_lt_mul_of_pos_right hlt (Nat.two_pow_pos n)
  rw [lshiftHexStr.eq_def, hexToBin_eq hs]
  by_cases hn : n = 0
  · subst hn
    cases bitwidth with
    | none => simp
    | some w => simpa using adjustBinBitwidth_spell (hbw w rfl) hlt
  · rw [if_neg hn, if_neg (by simp [hn]), Option.bind_eq_bind, Option.bind_some,
      spell_append_srep (by norm_num)]
    cases bitwidth with
    | none => exact trimLeadingZeros_binStrToHexStr hshift
    | some w => exact adjustBinBitwidth_spell (hbw w rfl) hshift

theorem rshiftHexStr_eq (hbw : ∀ w ∈ bitwidth, 1 ≤ w) (hs : IsHex hexStr) (n : Nat) :
    rshiftHexStr hexStr n bitwidth =
      if effectiveBitwidth hexStr bitwidth ≤ n then some ['0']
      else some (render bitwidth (cut bitwidth (hexValue hexStr) / 2 ^ n)) := by
  have hbin : bitwidth.elim (spell 2 (hexStr.length * 4) (hexValue hexStr))
      (adjustBinBitwidth (spell 2 (hexStr.length * 4) (hexValue hexStr))) =
      spell 2 (effectiveBitwidth hexStr bitwidth) (cut bitwidth (hexValue hexStr)) := by
    cases bitwidth with
    | none => rfl
    | some w =>
      rw [Option.elim_some, adjustBinBitwidth_eq, fitChars_spell (by norm_num)
        (Nat.one_le_iff_ne_zero.mp (hbw w rfl)) (hexValue_lt_two_pow hexStr)]
      exact (spell_mod (by norm_num) w _).symm
  have hcut : cut bitwidth (hexValue hexStr) < 2 ^ effectiveBitwidth hexStr bitwidth := by
    cases bitwidth with
    | none => exact hexValue_lt_two_pow hexStr
    | some w => exact Nat.mod_lt _ (Nat.two_pow_pos w)
  rw [rshiftHexStr, hexToBin_eq hs, Option.bind_eq_bind, Option.bind_some]
  dsimp only
  rw [hbin, length_spell]
  split
  case isTrue => rfl
  case isFalse hgt =>
    obtain ⟨i, hi⟩ : ∃ i, effectiveBitwidth hexStr bitwidth = i + n :=
      Nat.exists_eq_add_of_le' (not_le.mp hgt).le
    have hlt : cut bitwidth (hexValue hexStr) / 2 ^ n < 2 ^ i := by
      rw [Nat.div_lt_iff_lt_mul (Nat.two_pow_pos n), ← pow_add, ← hi]
      exact hcut
    have htake : ssub (spell 2 (i + n) (cut bitwidth (hexValue hexStr))) 1 (i + n - n) =
        spell 2 i (cut bitwidth (hexValue hexStr) / 2 ^ n) := by
      rw [ssub, Nat.add_sub_cancel, take_spell]
      rfl
    rw [hi, htake]
    cases bitwidth with
    | none => exact trimLeadingZeros_binStrToHexStr hlt
    | some w => exact adjustBinBitwidth_spell (hbw w rfl) hlt

end Verilua.StrBits
