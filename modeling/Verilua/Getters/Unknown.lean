import Verilua.Lib.Codec
import Verilua.Lib.Words
import Verilua.Wave.Format

/-!
# Reading a signal through the VPI

The getters of `value_getters.rs`: a 64-bit integer, the words of a vector, and a text. What
`vpi_get_value` of the simulator hands out is an argument of each.
-/

namespace Verilua.Getters

open Codec (Outcome)
open Put (VecVal)
open Wave (Bit)

/-- The features of the build that the getters ask for. -/
inductive Feature
  | vcs
  | iverilog
  | other
  deriving DecidableEq, Repr

/-- `v.value.vector.add(i).read()`; beyond the words that were handed out it is not defined. -/
def readVector (vector : List VecVal) (i : Nat) : Outcome VecVal :=
  match vector[i]? with
  | some v => .value v
  | none => .panic

/-- The word `hi`, which a signal of at most 32 bits does not have. -/
def readHi (beatNum : Nat) (vector : List VecVal) : Outcome VecVal :=
  if 1 < beatNum then readVector vector 1 else return .zero

section Getters

variable (feature : Feature) (resolveXAsZero : Bool)

def vpimlGetValue64 (beatNum : Nat) (vector : List VecVal) : Outcome UInt64 := do
  let lo ← readVector vector 0
  let hi ← readHi beatNum vector
  if feature = .iverilog ∧ resolveXAsZero = true ∧ (lo.bval ≠ 0 ∨ hi.bval ≠ 0) then return 0
  return hi.aval.toUInt64 <<< 32 ||| lo.aval.toUInt64

/-- The loop of `vpiml_get_value_multi` over `n` words from word `i` on. -/
def multiLoop (vector : List VecVal) : (i n : Nat) → Outcome (List UInt32)
  | _, 0 => return []
  | i, n + 1 => do
    let v ← readVector vector i
    let rest ← multiLoop vector (i + 1) n
    if feature = .iverilog ∧ resolveXAsZero = true ∧ v.bval ≠ 0 then return 0 :: rest
    return v.aval :: rest

/-- What is written to `ret`: the number of the values, and the values. -/
def vpimlGetValueMulti (vector : List VecVal) (len : Nat) : Outcome (UInt32 × List UInt32) := do
  let values ← multiLoop feature resolveXAsZero vector 0 len
  return (UInt32.ofNat len, values)

/-- `normalize_value_str_to_c_ptr` -/
def normalizeValueStr (trimLeadingSpace replaceLowerXWithZero : Bool) (raw : List Char) :
    List Char :=
  if !trimLeadingSpace && !replaceLowerXWithZero then raw
  else
    let normalized := if trimLeadingSpace then raw.dropWhile (· = ' ') else raw
    if !replaceLowerXWithZero && normalized.length = raw.length then raw
    else if replaceLowerXWithZero && normalized.contains 'x' then
      normalized.map fun byte => if byte = 'x' then '0' else byte
    else normalized

/-- `vpiml_get_value_bin_str`, and the same for the other texts of `impl_gen_get_value_str`. -/
def vpimlGetValueBinStr (str : List Char) : List Char :=
  match feature with
  | .vcs => normalizeValueStr true false str
  | .iverilog => if resolveXAsZero then normalizeValueStr true true str else str
  | .other => str

end Getters

/-! ### The simulator -/

/-- `beat_num` of a handle. -/
def beatNum (width : Nat) : Nat := (width + 31) / 32

/-- The bit of `aval` for a bit of the value. -/
def avalBit : Bit → Nat
  | .one | .x => 1
  | .zero | .z => 0

def bvalBit : Bit → Nat
  | .x | .z => 1
  | .zero | .one => 0

/-- What the simulator hands out for `vpiVectorVal`. -/
def vectorVal (bits : List Bit) : List VecVal :=
  (List.range (beatNum bits.length)).map fun i =>
    ⟨UInt32.ofNat (Numeral.value 2 (bits.map avalBit) / 2 ^ (32 * i)),
      UInt32.ofNat (Numeral.value 2 (bits.map bvalBit) / 2 ^ (32 * i))⟩

/-- What it prints for `vpiBinStrVal`: one character for each bit. -/
def binStrVal (bits : List Bit) : List Char := bits.map Bit.char

end Verilua.Getters

/-!
### Reading unknown bits as zeros

With `resolve_x_as_zero` the text of a value has a 0 for each X bit, a word of a vector is 0 if it has
an X bit, and the 64-bit integer is 0 if the value has one. The three are one number exactly if no
unit that is resolved as a whole has an X bit beside a 1.
-/

namespace Verilua.Getters

open Codec (Outcome)
open Put (VecVal)
open Wave (Bit)

/-- The number of the 1 bits; X bits count as 0. -/
abbrev ones (bits : List Bit) : Nat := Bit.number bits

def unknownBit (bit : Bit) : Nat := if bit = .x then 1 else 0

/-- The number of the X bits. -/
def unknowns (bits : List Bit) : Nat := Numeral.value 2 (bits.map unknownBit)

/-- The 32 bits of word `i`. -/
def word (i n : Nat) : Nat := n / 2 ^ (32 * i) % 2 ^ 32

variable {bits : List Bit}

/-! ### The words of the simulator -/

lemma word_or (i m n : Nat) : word i (m ||| n) = word i m ||| word i n := by
  rw [word, ← Nat.shiftRight_eq_div_pow, Nat.shiftRight_or_distrib, Nat.or_mod_two_pow,
    Nat.shiftRight_eq_div_pow, Nat.shiftRight_eq_div_pow]
  rfl

lemma value_avalBit : Numeral.value 2 (bits.map avalBit) = ones bits ||| unknowns bits := by
  have hbit : ∀ bit, avalBit bit = bit.toNat ||| unknownBit bit := by
    intro bit
    cases bit <;> rfl
  have hone : ∀ bit : Bit, bit.toNat < 2 := by
    intro bit
    cases bit <;> decide
  have hunknown : ∀ bit, unknownBit bit < 2 := by
    intro bit
    cases bit <;> decide
  rw [funext hbit]
  exact Numeral.value_or hone hunknown bits

lemma value_bvalBit (hz : ∀ bit ∈ bits, bit ≠ .z) :
    Numeral.value 2 (bits.map bvalBit) = unknowns bits := by
  have hbit : ∀ bit ∈ bits, bvalBit bit = unknownBit bit := by
    intro bit hbit
    have hne := hz bit hbit
    cases bit <;> first | rfl | exact absurd rfl hne
  rw [List.map_congr_left hbit, unknowns]

lemma value_bits_lt {f : Bit → Nat} (hf : ∀ bit, f bit < 2) :
    Numeral.value 2 (bits.map f) < 2 ^ bits.length := by
  have hlt : Numeral.value 2 (bits.map f) < 2 ^ (bits.map f).length := by
    apply Numeral.value_lt
    intro d hd
    obtain ⟨bit, -, rfl⟩ := List.mem_map.mp hd
    exact hf bit
  rwa [List.length_map] at hlt

lemma ones_lt : ones bits < 2 ^ bits.length :=
  value_bits_lt fun bit => by cases bit <;> decide

lemma unknowns_lt : unknowns bits < 2 ^ bits.length :=
  value_bits_lt fun bit => by cases bit <;> decide

lemma vectorVal_eq (hz : ∀ bit ∈ bits, bit ≠ .z) :
    vectorVal bits = (List.range (beatNum bits.length)).map fun i =>
      ⟨UInt32.ofNat ((ones bits ||| unknowns bits) / 2 ^ (32 * i)),
        UInt32.ofNat (unknowns bits / 2 ^ (32 * i))⟩ := by
  rw [vectorVal, value_avalBit, value_bvalBit hz]

lemma ofNat_ne_zero_iff {i n : Nat} : UInt32.ofNat (n / 2 ^ (32 * i)) ≠ 0 ↔ word i n ≠ 0 := by
  rw [not_iff_not, ← UInt32.toNat_inj, UInt32.toNat_ofNat', word]
  rfl

/-! ### `vpiml_get_value_multi` -/

/-- What the loop makes of a word. -/
def resolveWord (v : VecVal) : UInt32 := if v.bval ≠ 0 then 0 else v.aval

lemma multiLoop_eq {vector : List VecVal} {i n : Nat} (h : i + n ≤ vector.length) :
    multiLoop .iverilog true vector i n =
      .value (((vector.drop i).take n).map resolveWord) := by
  induction n generalizing i with
  | zero => simp [multiLoop]
  | succ n ih =>
    have hi : i < vector.length := by omega
    have hread : readVector vector i = .value vector[i] := by
      rw [readVector, List.getElem?_eq_getElem hi]
    rw [multiLoop, hread, Outcome.value_bind, ih (by omega), Outcome.value_bind,
      List.drop_eq_getElem_cons hi, List.take_succ_cons, List.map_cons, resolveWord]
    by_cases hbval : vector[i].bval ≠ 0
    · rw [if_pos ⟨rfl, rfl, hbval⟩, if_pos hbval]
      rfl
    · rw [if_neg fun h => hbval h.2.2, if_neg hbval]
      rfl

/-- The words that are written to `ret`. -/
def resolvedWords (bits : List Bit) : List Nat :=
  (List.range (beatNum bits.length)).map fun i =>
    if word i (unknowns bits) ≠ 0 then 0 else word i (ones bits)

lemma vpimlGetValueMulti_eq (hz : ∀ bit ∈ bits, bit ≠ .z) :
    vpimlGetValueMulti .iverilog true (vectorVal bits) (beatNum bits.length) =
      .value (UInt32.ofNat (beatNum bits.length), (resolvedWords bits).map UInt32.ofNat) := by
  have hlen : (vectorVal bits).length = beatNum bits.length := by simp [vectorVal]
  have htake : ((vectorVal bits).drop 0).take (beatNum bits.length) = vectorVal bits := by
    rw [List.drop_zero, ← hlen, List.take_length]
  rw [vpimlGetValueMulti, multiLoop_eq (by omega), Outcome.value_bind, htake, vectorVal_eq hz,
    resolvedWords, List.map_map, List.map_map]
  refine congrArg (fun l => Outcome.value (UInt32.ofNat (beatNum bits.length), l)) ?_
  refine List.map_congr_left fun i _ => ?_
  simp only [Function.comp_apply, resolveWord, ofNat_ne_zero_iff]
  by_cases hx : word i (unknowns bits) ≠ 0
  · rw [if_pos hx, if_pos hx]
    rfl
  · rw [if_neg hx, if_neg hx]
    refine UInt32.toNat_inj.mp ?_
    rw [UInt32.toNat_ofNat', UInt32.toNat_ofNat']
    have hor := word_or i (ones bits) (unknowns bits)
    rw [not_not.mp hx, Nat.or_zero] at hor
    rw [← word, hor, word, Nat.mod_mod]

lemma lt_two_pow_of_lt {n : Nat} (h : n < 2 ^ bits.length) : n < 2 ^ (32 * beatNum bits.length) :=
  h.trans_le (Nat.pow_le_pow_right (by decide) (by unfold beatNum; omega))

/-- The words are those of the number exactly if no word with an X bit has a 1. -/
lemma value_resolvedWords_iff :
    Words.value 32 (resolvedWords bits) = ones bits ↔
      ∀ i, word i (unknowns bits) = 0 ∨ word i (ones bits) = 0 := by
  have hlen : (resolvedWords bits).length = beatNum bits.length := by simp [resolvedWords]
  have hword : ∀ x ∈ resolvedWords bits, x < 2 ^ 32 := by
    intro x hx
    obtain ⟨i, -, rfl⟩ := List.mem_map.mp hx
    split_ifs
    · exact Nat.two_pow_pos 32
    · exact Nat.mod_lt _ (Nat.two_pow_pos 32)
  constructor
  · intro hval i
    rw [or_iff_not_imp_left]
    intro hx
    by_cases hi : i < beatNum bits.length
    · have hget := Words.getD_eq hword i
      rw [hval, List.getD_eq_getElem _ _ (by omega)] at hget
      simp only [resolvedWords, List.getElem_map, List.getElem_range, ne_eq, hx,
        not_false_eq_true, if_true] at hget
      exact hget.symm
    · have hpow : ones bits < 2 ^ (32 * i) := (lt_two_pow_of_lt ones_lt).trans_le
        (Nat.pow_le_pow_right (by decide) (by omega))
      rw [word, Nat.div_eq_of_lt hpow, Nat.zero_mod]
  · intro h
    have hall : resolvedWords bits = Words.words 32 (beatNum bits.length) (ones bits) := by
      refine List.map_congr_left fun i _ => ?_
      rcases h i with hx | hone
      · rw [hx]
        rfl
      · rw [hone]
        split_ifs
        · exact hone.symm
        · exact hone.symm
    rw [hall, Words.value_words, Nat.mod_eq_of_lt (lt_two_pow_of_lt ones_lt)]

/-! ### `vpiml_get_value64` -/

lemma readVector_vectorVal (hz : ∀ bit ∈ bits, bit ≠ .z) {i : Nat} (hi : i < beatNum bits.length) :
    readVector (vectorVal bits) i =
      .value ⟨UInt32.ofNat ((ones bits ||| unknowns bits) / 2 ^ (32 * i)),
        UInt32.ofNat (unknowns bits / 2 ^ (32 * i))⟩ := by
  rw [readVector, vectorVal_eq hz, List.getElem?_map, List.getElem?_range hi]
  rfl

lemma vpimlGetValue64_eq (hz : ∀ bit ∈ bits, bit ≠ .z) (hne : bits ≠ [])
    (hlen : bits.length ≤ 64) :
    vpimlGetValue64 .iverilog true (beatNum bits.length) (vectorVal bits) =
      .value (if unknowns bits ≠ 0 then 0 else UInt64.ofNat (ones bits)) := by
  have hpos : 0 < bits.length := List.length_pos_iff.mpr hne
  have hbound : ∀ {n : Nat}, n < 2 ^ bits.length → n < 2 ^ 64 := fun h =>
    h.trans_le (Nat.pow_le_pow_right (by decide) hlen)
  have hor : ones bits ||| unknowns bits < 2 ^ bits.length :=
    Nat.or_lt_two_pow ones_lt unknowns_lt
  have hones : ones bits < 2 ^ 64 := hbound ones_lt
  have hunknowns : unknowns bits < 2 ^ 64 := hbound unknowns_lt
  have hlo := readVector_vectorVal hz (i := 0) (by unfold beatNum; omega)
  have hhi : readHi (beatNum bits.length) (vectorVal bits) =
      .value ⟨UInt32.ofNat ((ones bits ||| unknowns bits) / 2 ^ (32 * 1)),
        UInt32.ofNat (unknowns bits / 2 ^ (32 * 1))⟩ := by
    rw [readHi]
    by_cases hmany : 1 < beatNum bits.length
    · rw [if_pos hmany]
      exact readVector_vectorVal hz hmany
    · have hsmall : bits.length ≤ 32 := by
        unfold beatNum at hmany
        omega
      have hzero : ∀ {n : Nat}, n < 2 ^ bits.length → n / 2 ^ (32 * 1) = 0 := fun h =>
        Nat.div_eq_of_lt (h.trans_le (Nat.pow_le_pow_right (by decide) hsmall))
      rw [if_neg hmany, hzero hor, hzero unknowns_lt]
      rfl
  have hany : (UInt32.ofNat (unknowns bits / 2 ^ (32 * 0)) ≠ 0 ∨
      UInt32.ofNat (unknowns bits / 2 ^ (32 * 1)) ≠ 0) ↔ unknowns bits ≠ 0 := by
    rw [ofNat_ne_zero_iff, ofNat_ne_zero_iff, word, word]
    omega
  rw [vpimlGetValue64, hlo, Outcome.value_bind, hhi, Outcome.value_bind]
  by_cases hx : unknowns bits ≠ 0
  · rw [if_pos ⟨rfl, rfl, hany.mpr hx⟩, if_pos hx]
    rfl
  · rw [if_neg fun h => hx (hany.mp h.2.2), if_neg hx]
    refine congrArg Outcome.value (UInt64.toNat_inj.mp ?_)
    rw [Words.toNat_shiftLeft_or, UInt32.toNat_ofNat', UInt32.toNat_ofNat', not_not.mp hx, Nat.or_zero,
      UInt64.toNat_ofNat_of_lt' hones]
    omega

/-! ### `vpiml_get_value_bin_str` -/

/-- The number that a binary text spells. -/
def readBin (s : List Char) : Nat := Numeral.value 2 (s.map fun c => c.toNat - '0'.toNat)

/-- The character of a bit once it is resolved. -/
def resolvedChar (bit : Bit) : Char := if bit = .one then '1' else '0'

lemma vpimlGetValueBinStr_eq (hz : ∀ bit ∈ bits, bit ≠ .z) :
    vpimlGetValueBinStr .iverilog true (binStrVal bits) = bits.map resolvedChar := by
  have htrim : (binStrVal bits).dropWhile (· = ' ') = binStrVal bits := by
    cases bits with
    | nil => rfl
    | cons bit bits =>
      rw [binStrVal, List.map_cons, List.dropWhile_cons_of_neg]
      cases bit <;> decide
  have hchar : ∀ bit ∈ bits, (if bit.char = 'x' then '0' else bit.char) = resolvedChar bit := by
    intro bit hbit
    have hne := hz bit hbit
    cases bit <;> first | rfl | exact absurd rfl hne
  have hnormal : vpimlGetValueBinStr .iverilog true (binStrVal bits) =
      if (binStrVal bits).contains 'x' then
        (binStrVal bits).map fun byte => if byte = 'x' then '0' else byte
      else binStrVal bits := by
    simp [vpimlGetValueBinStr, normalizeValueStr, htrim]
  rw [hnormal]
  split_ifs with hx
  · rw [binStrVal, List.map_map]
    exact List.map_congr_left hchar
  · refine List.map_congr_left fun bit hbit => ?_
    have hno : bit.char ≠ 'x' := fun heq => hx (by simpa [binStrVal] using ⟨bit, hbit, heq⟩)
    rw [← hchar bit hbit, if_neg hno]

lemma readBin_resolved : readBin (bits.map resolvedChar) = ones bits := by
  rw [readBin, List.map_map]
  refine congrArg (Numeral.value 2) (List.map_congr_left fun bit _ => ?_)
  cases bit <;> rfl

/-! ### One number -/

/-- The three readings are the value with its X bits read as 0. -/
structure Agree (bits : List Bit) : Prop where
  value64 : bits.length ≤ 64 →
    ∃ n, vpimlGetValue64 .iverilog true (beatNum bits.length) (vectorVal bits) = .value n ∧
      n.toNat = ones bits
  valueMulti : ∃ words, vpimlGetValueMulti .iverilog true (vectorVal bits) (beatNum bits.length) =
      .value (UInt32.ofNat (beatNum bits.length), words) ∧
    Words.value 32 (words.map UInt32.toNat) = ones bits
  binStr : ∃ text, vpimlGetValueBinStr .iverilog true (binStrVal bits) = text ∧
    (∀ c ∈ text, c = '0' ∨ c = '1') ∧ readBin text = ones bits

theorem agree_iff (hz : ∀ bit ∈ bits, bit ≠ .z) (hne : bits ≠ []) :
    Agree bits ↔
      (∀ i, word i (unknowns bits) = 0 ∨ word i (ones bits) = 0) ∧
        (bits.length ≤ 64 → unknowns bits = 0 ∨ ones bits = 0) := by
  have hwords : (resolvedWords bits).map (UInt32.toNat ∘ UInt32.ofNat) = resolvedWords bits := by
    refine (List.map_congr_left fun x hx => ?_).trans (List.map_id _)
    obtain ⟨i, -, rfl⟩ := List.mem_map.mp hx
    refine UInt32.toNat_ofNat_of_lt' ?_
    split_ifs
    · exact Nat.two_pow_pos 32
    · exact Nat.mod_lt _ (Nat.two_pow_pos 32)
  have hlt : bits.length ≤ 64 → ones bits < 2 ^ 64 := fun hlen =>
    ones_lt.trans_le (Nat.pow_le_pow_right (by decide) hlen)
  constructor
  · rintro ⟨h64, ⟨words, hmulti, hval⟩, -⟩
    constructor
    · rw [vpimlGetValueMulti_eq hz] at hmulti
      obtain rfl : (resolvedWords bits).map UInt32.ofNat = words := by
        simpa using hmulti
      rw [List.map_map, hwords] at hval
      exact value_resolvedWords_iff.mp hval
    · intro hlen
      obtain ⟨n, hn, hval⟩ := h64 hlen
      rw [or_iff_not_imp_left]
      intro hx
      rw [vpimlGetValue64_eq hz hne hlen, if_pos hx] at hn
      obtain rfl : 0 = n := by simpa using hn
      exact hval.symm
  · rintro ⟨hwordwise, hwhole⟩
    refine ⟨fun hlen => ?_, ?_, ?_⟩
    · refine ⟨_, vpimlGetValue64_eq hz hne hlen, ?_⟩
      rcases hwhole hlen with hx | hone
      · rw [if_neg (not_not.mpr hx), UInt64.toNat_ofNat_of_lt' (hlt hlen)]
      · rw [hone]
        split_ifs <;> rfl
    · refine ⟨_, vpimlGetValueMulti_eq hz, ?_⟩
      rw [List.map_map, hwords]
      exact value_resolvedWords_iff.mpr hwordwise
    · refine ⟨_, vpimlGetValueBinStr_eq hz, ?_, readBin_resolved⟩
      intro c hc
      obtain ⟨bit, -, rfl⟩ := List.mem_map.mp hc
      rw [resolvedChar]
      split_ifs
      · exact .inr rfl
      · exact .inl rfl

theorem agree_iff_ten :
    Agree [.one, .zero] ↔
      (∀ i, word i (unknowns [.one, .zero]) = 0 ∨ word i (ones [.one, .zero]) = 0) ∧
        ([Bit.one, .zero].length ≤ 64 → unknowns [.one, .zero] = 0 ∨ ones [.one, .zero] = 0) :=
  agree_iff (by decide) (by decide)

/-- `1x` is 2 as a text, and 0 as an integer. -/
theorem not_agree :
    ¬ ∀ bits : List Bit, (∀ bit ∈ bits, bit ≠ .z) → bits ≠ [] → Agree bits := by
  intro h
  obtain ⟨n, hn, hval⟩ := (h [.one, .x] (by decide) (by decide)).value64 (by decide)
  have hzero : Outcome.value (0 : UInt64) = .value n := hn
  obtain rfl : 0 = n := by simpa using hzero
  exact absurd hval (by decide)

end Verilua.Getters
