import Verilua.StrBits.Carry
import Verilua.StrBits.Exact

/-!
# The two implementations, side by side

A call is one of the ten functions with its arguments. Before and after `init_use_libgmp` a call
computes the same number, and the strings differ where one of the two does not trim, does not cut
to the bit width, or does not pad.
-/

namespace Verilua.StrBits

/-- A hexadecimal string without prefix. -/
structure HexStr where
  chars : List Char
  ne_nil : chars ≠ []
  isHex : IsHex chars

namespace HexStr

def value (h : HexStr) : Nat := hexValue h.chars

/-- In lower case and without leading zeros. -/
def IsCanonical (h : HexStr) : Prop :=
  (∀ c ∈ h.chars, c.isUpper = false) ∧ (h.chars.length = 1 ∨ h.chars.head h.ne_nil ≠ '0')

end HexStr

/-- A call of one of the functions. -/
inductive Call
  | bitfieldHexStr (hexStr : HexStr) (s e : Nat) (bitwidth : Option Nat)
  | setBitfieldHexStr (hexStr : HexStr) (s e : Nat) (valHexStr : HexStr) (bitwidth : Option Nat)
  | lshiftHexStr (hexStr : HexStr) (n : Nat) (bitwidth : Option Nat)
  | rshiftHexStr (hexStr : HexStr) (n : Nat) (bitwidth : Option Nat)
  | borHexStr (hexStr1 hexStr2 : HexStr) (bitwidth : Option Nat)
  | bxorHexStr (hexStr1 hexStr2 : HexStr) (bitwidth : Option Nat)
  | bandHexStr (hexStr1 hexStr2 : HexStr) (bitwidth : Option Nat)
  | bnotHexStr (hexStr : HexStr) (bitwidth : Option Nat)
  | addHexStr (hexStr1 hexStr2 : HexStr) (bitwidth : Option Nat)
  | popcountHexStr (hexStr : HexStr)

/-- What a call returns. -/
inductive Ret
  | str (s : List Char)
  | strCarry (s : List Char) (carry : Bool)
  | int (n : Nat)
  deriving DecidableEq

namespace Call

def bitwidth : Call → Option Nat
  | bitfieldHexStr _ _ _ bw | setBitfieldHexStr _ _ _ _ bw | lshiftHexStr _ _ bw
  | rshiftHexStr _ _ bw | borHexStr _ _ bw | bxorHexStr _ _ bw | bandHexStr _ _ bw
  | bnotHexStr _ bw | addHexStr _ _ bw => bw
  | popcountHexStr _ => none

/-- The range of bits lies inside the value. A field that is set without a bit width may lie
outside: the string grows. -/
def InRange : Call → Prop
  | bitfieldHexStr h s e bw => s ≤ e ∧ e < width h.chars bw
  | setBitfieldHexStr h s e _ bw => s ≤ e ∧ e < setWidth h.chars e bw
  | _ => True

/-- A bit width, where there is one, is positive, and a range lies inside the value. -/
structure Valid (c : Call) : Prop where
  one_le : ∀ w ∈ c.bitwidth, 1 ≤ w
  inRange : c.InRange

/-- Before `init_use_libgmp`. -/
def native : Call → Option Ret
  | bitfieldHexStr h s e bw => (StrBits.bitfieldHexStr h.chars s e bw).map .str
  | setBitfieldHexStr h s e v bw => (StrBits.setBitfieldHexStr h.chars s e v.chars bw).map .str
  | lshiftHexStr h n bw => (StrBits.lshiftHexStr h.chars n bw).map .str
  | rshiftHexStr h n bw => (StrBits.rshiftHexStr h.chars n bw).map .str
  | borHexStr h1 h2 bw => some (.str (StrBits.borHexStr h1.chars h2.chars bw))
  | bxorHexStr h1 h2 bw => some (.str (StrBits.bxorHexStr h1.chars h2.chars bw))
  | bandHexStr h1 h2 bw => some (.str (StrBits.bandHexStr h1.chars h2.chars bw))
  | bnotHexStr h bw => some (.str (StrBits.bnotHexStr h.chars bw))
  | addHexStr h1 h2 bw => some (.strCarry (StrBits.addHexStr h1.chars h2.chars bw).1
      (StrBits.addHexStr h1.chars h2.chars bw).2)
  | popcountHexStr h => (StrBits.popcountHexStr h.chars).map .int

/-- After `init_use_libgmp`. -/
def gmp (g : Gmp) : Call → Option Ret
  | bitfieldHexStr h s e bw => (g.bitfieldHexStr h.chars s e bw).map .str
  | setBitfieldHexStr h s e v bw => (g.setBitfieldHexStr h.chars s e v.chars bw).map .str
  | lshiftHexStr h n bw => some (.str (g.lshiftHexStr h.chars n bw))
  | rshiftHexStr h n bw => some (.str (g.rshiftHexStr h.chars n bw))
  | borHexStr h1 h2 bw => some (.str (g.borHexStr h1.chars h2.chars bw))
  | bxorHexStr h1 h2 bw => some (.str (g.bxorHexStr h1.chars h2.chars bw))
  | bandHexStr h1 h2 bw => some (.str (g.bandHexStr h1.chars h2.chars bw))
  | bnotHexStr h bw => some (.str (g.bnotHexStr h.chars bw))
  | addHexStr h1 h2 bw => some (.strCarry (g.addHexStr h1.chars h2.chars bw).1
      (g.addHexStr h1.chars h2.chars bw).2)
  | popcountHexStr h => some (.int (g.popcountHexStr h.chars))

/-- No bit of the field lies beyond the bit width, and the first digit of the field is not zero
unless it is the only one. -/
def FieldFits (h : HexStr) (s e : Nat) (bw : Option Nat) : Prop :=
  (∀ w ∈ bw, ∀ i, s ≤ i → i ≤ e → w ≤ i → h.value.testBit i = false) ∧
    (bitwidthHexChars (e - s + 1) = 1 ∨
      ∃ i, s + 4 * (bitwidthHexChars (e - s + 1) - 1) ≤ i ∧ i ≤ e ∧ h.value.testBit i = true)

/-- Bit `i` after the field is set: a bit of the new value inside the field, of the old one
elsewhere. -/
def setBit (h : HexStr) (s e : Nat) (v : HexStr) (i : Nat) : Bool :=
  if s ≤ i ∧ i ≤ e then v.value.testBit (i - s) else h.value.testBit i

/-- With a bit width no digit and no bit is left beyond it; without one the first digit is not zero
unless it is the only one. -/
def SetFits (h : HexStr) (s e : Nat) (v : HexStr) : Option Nat → Prop
  | some w => h.chars.length ≤ bitwidthHexChars w ∧ ∀ i, w ≤ i → setBit h s e v i = false
  | none => bitwidthHexChars (setWidth h.chars e none) = 1 ∨
      ∃ i, 4 * (bitwidthHexChars (setWidth h.chars e none) - 1) ≤ i ∧ setBit h s e v i = true

/-- Where the two implementations agree. A string that is not shifted must be the canonical one, and
a string may be shifted out of a register only where the register is one digit. -/
def Agrees : Call → Prop
  | bitfieldHexStr h s e bw => FieldFits h s e bw
  | setBitfieldHexStr h s e v bw => SetFits h s e v bw
  | lshiftHexStr h n bw => n ≠ 0 ∨ bw ≠ none ∨ h.IsCanonical
  | rshiftHexStr _ n bw => ∀ w ∈ bw, n < w ∨ w ≤ 4
  | _ => True

end Call

/-! ### One numeral against the shortest -/

variable {k m n : Nat}

lemma spell_eq_toDigits_iff (hk : k ≠ 0) (hn : n < 16 ^ k) :
    spell 16 k n = Nat.toDigits 16 m ↔ n = m ∧ (k = 1 ∨ 16 ^ (k - 1) ≤ n) := by
  have hiff := Numeral.toDigits_value_iff (b := 16) (by norm_num)
    (Numeral.lt_of_mem_fixed (k := k) (n := n) (by norm_num))
    (by rw [← List.length_pos_iff, Numeral.length_fixed]; exact Nat.pos_of_ne_zero hk)
  rw [Numeral.value_fixed, Nat.mod_eq_of_lt hn, Numeral.length_fixed] at hiff
  constructor
  · intro h
    have hvalue := congrArg hexValue h
    rw [hexValue_spell, Nat.mod_eq_of_lt hn, hexValue_toDigits] at hvalue
    subst hvalue
    exact ⟨rfl, hiff.mp h.symm⟩
  · rintro ⟨rfl, h⟩
    exact (hiff.mpr h).symm

/-- A number needs a digit exactly when it has a bit there or above. -/
lemma two_pow_le_iff : 2 ^ k ≤ n ↔ ∃ i, k ≤ i ∧ n.testBit i = true := by
  constructor
  · intro h
    exact Nat.exists_ge_and_testBit_of_ge_two_pow h
  · rintro ⟨i, hi, hbit⟩
    exact (Nat.pow_le_pow_right (by norm_num) hi).trans (Nat.ge_two_pow_of_testBit hbit)

lemma lt_two_pow_iff : n < 2 ^ k ↔ ∀ i, k ≤ i → n.testBit i = false := by
  rw [← not_le, two_pow_le_iff]
  simp

lemma isLower_iff {s : List Char} (hs : IsHex s) :
    IsLower s ↔ ∀ c ∈ s, c.isUpper = false := by
  have hall : ∀ p ∈ hexVals, p.2.digitChar = p.1 ↔ p.1.isUpper = false := by decide
  exact forall₂_congr fun c hc => hall _ (mem_of_lookup (lookup_hexVals hs c hc))

lemma head_ne_zero_iff {s : List Char} (hs : IsHex s) (hne : s ≠ []) :
    s.head hne ≠ '0' ↔ 16 ^ (s.length - 1) ≤ hexValue s := by
  obtain ⟨c, t, rfl⟩ := List.exists_cons_of_ne_nil hne
  have hall : ∀ p ∈ hexVals, p.1 ≠ '0' ↔ 1 ≤ p.2 := by decide
  have hdigit : c ≠ '0' ↔ 1 ≤ (hexVals.lookup c).getD 0 :=
    hall _ (mem_of_lookup (lookup_hexVals hs c List.mem_cons_self))
  have hrest := hexValue_lt t
  have hvalue : hexValue (c :: t) = (hexVals.lookup c).getD 0 * 16 ^ t.length + hexValue t := by
    rw [hexValue, digits, List.map_cons, Numeral.value_cons, List.length_map]
    rfl
  rw [List.head_cons, List.length_cons, Nat.add_sub_cancel, hvalue, hdigit]
  constructor
  · intro hle
    exact (Nat.le_mul_of_pos_left _ hle).trans (Nat.le_add_right _ _)
  · intro hle
    by_contra hzero
    rw [Nat.lt_one_iff.mp (not_le.mp hzero), Nat.zero_mul, Nat.zero_add] at hle
    exact absurd hrest (not_lt.mpr hle)

/-- A string is the shortest numeral exactly when it is canonical. -/
lemma HexStr.eq_toDigits_iff (h : HexStr) :
    h.chars = Nat.toDigits 16 h.value ↔ h.IsCanonical := by
  have hlen : h.chars.length ≠ 0 := by simpa using h.ne_nil
  have hspell := spell_eq_toDigits_iff (m := h.value) hlen (hexValue_lt h.chars)
  rw [HexStr.IsCanonical, ← isLower_iff h.isHex, head_ne_zero_iff h.isHex h.ne_nil]
  constructor
  · intro heq
    have hlower : IsLower h.chars := heq ▸ Gmp.isLower_toDigits h.value
    rw [← eq_spell hlower (digits_eq h.chars)] at hspell
    exact ⟨hlower, (hspell.mp heq).2⟩
  · rintro ⟨hlower, hfirst⟩
    rw [← eq_spell hlower (digits_eq h.chars)] at hspell
    exact hspell.mpr ⟨rfl, hfirst⟩

namespace Call

variable {h v : HexStr} {s e : Nat} {bw : Option Nat}

lemma field_eq_cut_iff (hse : s ≤ e) :
    n / 2 ^ s % 2 ^ (e - s + 1) = cut bw n / 2 ^ s % 2 ^ (e - s + 1) ↔
      ∀ w ∈ bw, ∀ i, s ≤ i → i ≤ e → w ≤ i → n.testBit i = false := by
  cases bw with
  | none => simp [cut]
  | some w =>
    rw [cut, Option.elim_some]
    constructor
    · rintro heq w' hw' i hsi hie hwi
      obtain rfl := Option.some.inj hw'
      have hbit := congrArg (Nat.testBit · (i - s)) heq
      have hlt : i - s < e - s + 1 := by omega
      simpa [Nat.testBit_mod_two_pow, Nat.testBit_div_two_pow, hlt, Nat.sub_add_cancel hsi,
        not_lt.mpr hwi] using hbit
    · intro hbits
      apply Nat.eq_of_testBit_eq
      intro i
      rw [Nat.testBit_mod_two_pow, Nat.testBit_mod_two_pow, Nat.testBit_div_two_pow,
        Nat.testBit_div_two_pow, Nat.testBit_mod_two_pow]
      by_cases hi : i < e - s + 1
      · by_cases hw : i + s < w
        · simp [hw]
        · simp [hbits w rfl (i + s) (by omega) (by omega) (not_lt.mp hw)]
      · simp [hi]

lemma le_field_iff (hse : s ≤ e) (d : Nat) :
    16 ^ d ≤ n / 2 ^ s % 2 ^ (e - s + 1) ↔
      ∃ i, s + 4 * d ≤ i ∧ i ≤ e ∧ n.testBit i = true := by
  rw [sixteen_pow, two_pow_le_iff]
  constructor
  · rintro ⟨i, hi, hbit⟩
    rw [Nat.testBit_mod_two_pow, Nat.testBit_div_two_pow, Bool.and_eq_true,
      decide_eq_true_eq] at hbit
    exact ⟨i + s, by omega, by omega, hbit.2⟩
  · rintro ⟨i, hi, hie, hbit⟩
    refine ⟨i - s, by omega, ?_⟩
    rw [Nat.testBit_mod_two_pow, Nat.testBit_div_two_pow, Nat.sub_add_cancel (by omega), hbit,
      Bool.and_true, decide_eq_true_eq]
    omega

lemma bitfield_eq_iff (g : Gmp) (hbw : ∀ w ∈ bw, 1 ≤ w) (hse : s ≤ e)
    (he : e < width h.chars bw) :
    (bitfieldHexStr h s e bw).native = (bitfieldHexStr h s e bw).gmp g ↔
      FieldFits h s e bw := by
  have hk : bitwidthHexChars (e - s + 1) ≠ 0 := bitwidthHexChars_pos (by omega)
  have hlt : hexValue h.chars / 2 ^ s % 2 ^ (e - s + 1) < 16 ^ bitwidthHexChars (e - s + 1) :=
    (Nat.mod_lt _ (Nat.two_pow_pos _)).trans_le (two_pow_le _)
  rw [native, gmp, StrBits.bitfieldHexStr_eq h.isHex hse he,
    Gmp.bitfieldHexStr_eq g hbw h.isHex h.ne_nil hse, Option.map_some, Option.map_some,
    Option.some_inj, Ret.str.injEq, spell_eq_toDigits_iff hk hlt, FieldFits,
    ← field_eq_cut_iff hse, ← le_field_iff hse]
  rfl

lemma testBit_setBits_eq (hse : s ≤ e) (i : Nat) :
    (setBits h.value s e v.value).testBit i = setBit h s e v i := testBit_setBits hse _ _ i

lemma setBitfield_eq_iff (g : Gmp) (hbw : ∀ w ∈ bw, 1 ≤ w) (hse : s ≤ e)
    (he : e < setWidth h.chars e bw) :
    (setBitfieldHexStr h s e v bw).native = (setBitfieldHexStr h s e v bw).gmp g ↔
      SetFits h s e v bw := by
  rw [native, gmp, StrBits.setBitfieldHexStr_eq h.isHex v.isHex hse he,
    Gmp.setBitfieldHexStr_eq g hbw h.isHex h.ne_nil v.isHex v.ne_nil hse, Option.map_some,
    Option.map_some, Option.some_inj, Ret.str.injEq]
  have hlt : setBits (hexValue h.chars) s e (hexValue v.chars) <
      16 ^ bitwidthHexChars (setWidth h.chars e bw) := by
    refine (setBits_lt hse he ?_ _).trans_le (two_pow_le _)
    exact (hexValue_lt_two_pow _).trans_le (Nat.pow_le_pow_right (by norm_num) (le_max_left _ _))
  cases bw with
  | none =>
    have hk : bitwidthHexChars (setWidth h.chars e none) ≠ 0 := bitwidthHexChars_pos (by omega)
    have hfirst := two_pow_le_iff (k := 4 * (bitwidthHexChars (setWidth h.chars e none) - 1))
      (n := setBits (hexValue h.chars) s e (hexValue v.chars))
    rw [render, spell_eq_toDigits_iff hk hlt, SetFits, sixteen_pow, hfirst]
    simp only [true_and, ← testBit_setBits_eq hse]
    rfl
  | some w =>
    have hchars : bitwidthHexChars (setWidth h.chars e (some w)) =
        max h.chars.length (bitwidthHexChars w) := by
      rw [setWidth, Option.getD_some, bitwidthHexChars, bitwidthHexChars]
      omega
    rw [render, SetFits]
    constructor
    · intro heq
      have hlen := congrArg List.length heq
      rw [length_spell, length_spell, hchars] at hlen
      have hvalue := congrArg hexValue heq
      have hmod : setBits (hexValue h.chars) s e (hexValue v.chars) % 2 ^ w < 2 ^ w :=
        Nat.mod_lt _ (Nat.two_pow_pos w)
      rw [hexValue_spell, hexValue_spell, Nat.mod_eq_of_lt hlt,
        Nat.mod_eq_of_lt (hmod.trans_le (two_pow_le w))] at hvalue
      refine ⟨by omega, fun i hi => ?_⟩
      rw [← testBit_setBits_eq hse]
      exact lt_two_pow_iff.mp (hvalue ▸ hmod) i hi
    · rintro ⟨hlen, hbits⟩
      have hfits : setBits (hexValue h.chars) s e (hexValue v.chars) < 2 ^ w :=
        lt_two_pow_iff.mpr fun i hi => (testBit_setBits_eq hse i).trans (hbits i hi)
      rw [hchars, max_eq_right hlen, Nat.mod_eq_of_lt hfits]

lemma lshift_eq_iff (g : Gmp) (hbw : ∀ w ∈ bw, 1 ≤ w) (n : Nat) :
    (lshiftHexStr h n bw).native = (lshiftHexStr h n bw).gmp g ↔
      n ≠ 0 ∨ bw ≠ none ∨ h.IsCanonical := by
  rw [native, gmp, StrBits.lshiftHexStr_eq hbw h.isHex,
    Gmp.lshiftHexStr_eq g hbw h.isHex h.ne_nil]
  by_cases hsame : n = 0 ∧ bw = none
  · obtain ⟨rfl, rfl⟩ := hsame
    rw [if_pos ⟨rfl, rfl⟩, Option.map_some, Option.some_inj, Ret.str.injEq, pow_zero, Nat.mul_one,
      render, ← h.eq_toDigits_iff]
    simp [HexStr.value]
  · rw [if_neg hsame, Option.map_some]
    simpa using by tauto

lemma rshift_eq_iff (g : Gmp) (hbw : ∀ w ∈ bw, 1 ≤ w) (n : Nat) :
    (rshiftHexStr h n bw).native = (rshiftHexStr h n bw).gmp g ↔
      ∀ w ∈ bw, n < w ∨ w ≤ 4 := by
  rw [native, gmp, StrBits.rshiftHexStr_eq hbw h.isHex,
    Gmp.rshiftHexStr_eq g hbw h.isHex h.ne_nil]
  split
  case isFalse hlt =>
    rw [Option.map_some]
    cases bw with
    | none => simp
    | some w =>
      have hn : n < w := not_le.mp hlt
      simp [hn]
  case isTrue hle =>
    have hzero : cut bw (hexValue h.chars) / 2 ^ n = 0 := by
      apply Nat.div_eq_of_lt
      cases bw with
      | none =>
        exact lt_of_lt_of_le (hexValue_lt_two_pow h.chars)
          (Nat.pow_le_pow_right (by norm_num) hle)
      | some w =>
        exact lt_of_lt_of_le (Nat.mod_lt _ (Nat.two_pow_pos w))
          (Nat.pow_le_pow_right (by norm_num) hle)
    rw [hzero, Option.map_some, Option.some_inj, Ret.str.injEq]
    cases bw with
    | none => simp [render, Nat.toDigits_zero]
    | some w =>
      have hw : 1 ≤ w := hbw w rfl
      have hge : ¬n < w := not_lt.mpr hle
      rw [render, Nat.zero_mod]
      constructor
      · intro heq w' hw'
        obtain rfl := Option.some.inj hw'
        have hlen := congrArg List.length heq
        rw [length_spell, bitwidthHexChars, List.length_singleton] at hlen
        exact .inr (by omega)
      · intro hfits
        have hle4 : w ≤ 4 := (hfits w rfl).resolve_left hge
        rw [show bitwidthHexChars w = 1 by rw [bitwidthHexChars]; omega]
        rfl

/-- The two implementations return the same exactly there. -/
theorem native_eq_gmp_iff (g : Gmp) (c : Call) (hc : c.Valid) : c.native = c.gmp g ↔ c.Agrees := by
  obtain ⟨hbw, hrange⟩ := hc
  cases c with
  | bitfieldHexStr h s e bw => exact bitfield_eq_iff g hbw hrange.1 hrange.2
  | setBitfieldHexStr h s e v bw => exact setBitfield_eq_iff g hbw hrange.1 hrange.2
  | lshiftHexStr h n bw => exact lshift_eq_iff g hbw n
  | rshiftHexStr h n bw => exact rshift_eq_iff g hbw n
  | borHexStr h1 h2 bw =>
    have hbw : ∀ w ∈ bw, 1 ≤ w := hbw
    refine iff_of_true ?_ trivial
    rw [native, gmp, StrBits.borHexStr_eq hbw h1.isHex h2.isHex,
      Gmp.borHexStr_eq g hbw h1.isHex h1.ne_nil h2.isHex h2.ne_nil]
  | bxorHexStr h1 h2 bw =>
    have hbw : ∀ w ∈ bw, 1 ≤ w := hbw
    refine iff_of_true ?_ trivial
    rw [native, gmp, StrBits.bxorHexStr_eq hbw h1.isHex h2.isHex,
      Gmp.bxorHexStr_eq g hbw h1.isHex h1.ne_nil h2.isHex h2.ne_nil]
  | bandHexStr h1 h2 bw =>
    have hbw : ∀ w ∈ bw, 1 ≤ w := hbw
    refine iff_of_true ?_ trivial
    rw [native, gmp, StrBits.bandHexStr_eq hbw h1.isHex h2.isHex,
      Gmp.bandHexStr_eq g hbw h1.isHex h1.ne_nil h2.isHex h2.ne_nil]
  | bnotHexStr h bw =>
    have hbw : ∀ w ∈ bw, 1 ≤ w := hbw
    refine iff_of_true ?_ trivial
    rw [native, gmp, StrBits.bnotHexStr_eq hbw h.isHex, Gmp.bnotHexStr_eq g hbw h.isHex h.ne_nil]
  | addHexStr h1 h2 bw =>
    have hbw : ∀ w ∈ bw, 1 ≤ w := hbw
    refine iff_of_true ?_ trivial
    rw [native, gmp, StrBits.addHexStr_eq hbw h1.isHex h2.isHex,
      Gmp.addHexStr_eq g hbw h1.isHex h1.ne_nil h2.isHex h2.ne_nil]
  | popcountHexStr h =>
    refine iff_of_true ?_ trivial
    rw [native, gmp, StrBits.popcountHexStr_eq h.isHex, Gmp.popcountHexStr_eq g h.isHex h.ne_nil,
      Option.map_some]

/-- A field of two digits of which the first is zero, and one with no leading zero. -/
theorem native_eq_gmp_iff_field :
    (bitfieldHexStr ⟨['f', '0', '0', 'f'], by decide, by decide⟩ 8 15 none).native =
      (bitfieldHexStr ⟨['f', '0', '0', 'f'], by decide, by decide⟩ 8 15 none).gmp .exact ↔
    FieldFits ⟨['f', '0', '0', 'f'], by decide, by decide⟩ 8 15 none :=
  native_eq_gmp_iff .exact (bitfieldHexStr ⟨['f', '0', '0', 'f'], by decide, by decide⟩ 8 15 none)
    ⟨by simp [bitwidth], by decide, by decide⟩

/-- Bits 0 to 7 of `f00f` are `0f` in one implementation and `f` in the other. -/
theorem not_native_eq_gmp : ¬∀ c : Call, c.Valid → c.native = c.gmp .exact := by
  intro hall
  have heq := hall (bitfieldHexStr ⟨['f', '0', '0', 'f'], by decide, by decide⟩ 0 7 none)
    ⟨by simp [bitwidth], by decide, by decide⟩
  have hnative : (bitfieldHexStr ⟨['f', '0', '0', 'f'], by decide, by decide⟩ 0 7 none).native =
      some (.str ['0', 'f']) := by decide +kernel
  have hgmp : (bitfieldHexStr ⟨['f', '0', '0', 'f'], by decide, by decide⟩ 0 7 none).gmp .exact =
      some (.str ['f']) := by decide +kernel
  rw [hnative, hgmp] at heq
  exact absurd heq (by decide)

end Call

end Verilua.StrBits
