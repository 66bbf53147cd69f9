import Verilua.Lib.Words
import Verilua.Wellen.Basic

/-!
# One value in every format

The number that a result of `wellen_vpi_get_value_from_index` denotes in its format. Of a 2-state
value the vector, the hexadecimal text and the binary text denote the same number, and the integer is
its lowest word; so is the decimal text, whatever the width.
-/

namespace Verilua.Wave

/-! ### Reading numbers -/

/-- The value of a digit, up to `f`. -/
def digitOf (c : Char) : Nat :=
  if c.isDigit then c.toNat - '0'.toNat else c.toNat - 'a'.toNat + 10

/-- The number that a text of digits in base `b` denotes. -/
def readNumeral (b : Nat) (s : List Char) : Option Nat :=
  if s ≠ [] ∧ s.all (fun c => decide (digitOf c < b)) then some (Numeral.value b (s.map digitOf))
  else none

/-- The number that a value denotes in its format. A vector begins with its lowest word. -/
def Value.number? : Format → Value → Option Nat
  | .vpiIntVal, .integer n => some n.toNat
  | .vpiVectorVal, .vector words =>
    if words.all (fun v => decide (v.bval = 0)) then
      some (Words.value 32 (words.map fun v => v.aval.toNat))
    else none
  | .vpiHexStrVal, .str s => readNumeral 16 s
  | .vpiBinStrVal, .str s => readNumeral 2 s
  | .vpiDecStrVal, .str s => readNumeral 10 s
  | _, _ => none

variable {ds : List Nat} {b n : Nat} {bytes : List UInt8} {words : List UInt32} {bv : BitVecRef}

lemma digitOf_digitChar {d : Nat} (hd : d < 16) : digitOf d.digitChar = d := by
  have hall : ∀ d : Fin 16, digitOf (Nat.digitChar d) = d := by decide
  exact hall ⟨d, hd⟩

lemma readNumeral_digits (hb : b ≤ 16) (hne : ds ≠ []) (hds : ∀ d ∈ ds, d < b) :
    readNumeral b (ds.map Nat.digitChar) = some (Numeral.value b ds) := by
  have hmap : (ds.map Nat.digitChar).map digitOf = ds := by
    rw [List.map_map]
    refine (List.map_congr_left fun d hd => ?_).trans (List.map_id ds)
    exact digitOf_digitChar ((hds d hd).trans_le hb)
  have hall : (ds.map Nat.digitChar).all (fun c => decide (digitOf c < b)) = true := by
    rw [List.all_eq_true]
    intro c hc
    obtain ⟨d, hd, rfl⟩ := List.mem_map.mp hc
    rw [digitOf_digitChar ((hds d hd).trans_le hb)]
    exact decide_eq_true (hds d hd)
  rw [readNumeral, if_pos ⟨by simpa using hne, hall⟩, hmap]

lemma readNumeral_toDigits (n : Nat) : readNumeral 10 (Nat.toDigits 10 n) = some n := by
  have hdigit : ∀ c ∈ Nat.toDigits 10 n, digitOf c = c.toNat - '0'.toNat ∧ digitOf c < 10 := by
    intro c hc
    have hc := Nat.isDigit_of_mem_toDigits (by decide) (by decide) hc
    have hrange : '0'.toNat ≤ c.toNat ∧ c.toNat ≤ '9'.toNat := by
      simpa [Char.isDigit, UInt32.le_iff_toNat_le] using hc
    rw [digitOf, if_pos hc]
    refine ⟨rfl, ?_⟩
    have hzero : '0'.toNat = 48 := rfl
    have hnine : '9'.toNat = 57 := rfl
    omega
  have hall : (Nat.toDigits 10 n).all (fun c => decide (digitOf c < 10)) = true := by
    rw [List.all_eq_true]
    exact fun c hc => decide_eq_true (hdigit c hc).2
  rw [readNumeral, if_pos ⟨Nat.toDigits_ne_nil, hall⟩,
    List.map_congr_left fun c hc => (hdigit c hc).1, Numeral.value, List.foldl_map,
    ← Nat.ofDigitChars_eq_foldl, Nat.ofDigitChars_ten_toDigits]

/-! ### Words of bytes -/

lemma value_reverse (w : Nat) (l : List Nat) : Words.value w l.reverse = Numeral.value (2 ^ w) l := by
  induction l using List.reverseRecOn with
  | nil => rfl
  | append_singleton l x ih =>
    rw [List.reverse_append, List.reverse_singleton, List.singleton_append, Words.value_cons, ih,
      Numeral.value_concat, Nat.add_comm]

lemma length_of_no_chunk (h : ∀ a b c d rest, bytes ≠ a :: b :: c :: d :: rest) :
    bytes.length < 4 := by
  by_contra hge
  obtain ⟨a, b, c, d, rest, rfl⟩ : ∃ a b c d rest, bytes = a :: b :: c :: d :: rest := by
    rcases bytes with _ | ⟨a, _ | ⟨b, _ | ⟨c, _ | ⟨d, rest⟩⟩⟩⟩
    · simp at hge
    · simp at hge
    · simp at hge
    · simp at hge
    · exact ⟨a, b, c, d, rest, rfl⟩
  exact h a b c d rest rfl

lemma length_chunksExact : (chunksExact bytes).length = bytes.length / 4 := by
  induction bytes using chunksExact.induct with
  | case1 a b c d rest ih =>
    rw [chunksExact, List.length_cons, ih]
    simp only [List.length_cons]
    omega
  | case2 rest h =>
    have hshort := length_of_no_chunk h
    rw [chunksExact, List.length_nil, Nat.div_eq_of_lt hshort]
    exact h

lemma value_chunksExact (hlen : bytes.length % 4 = 0) :
    Numeral.value (2 ^ 32) ((chunksExact bytes).map UInt32.toNat) =
      Numeral.value 256 (bytes.map UInt8.toNat) := by
  induction bytes using chunksExact.induct with
  | case1 a b c d rest ih =>
    have hrest : rest.length % 4 = 0 := by
      simp only [List.length_cons] at hlen
      omega
    have hsplit : a :: b :: c :: d :: rest = [a, b, c, d] ++ rest := rfl
    have hpow : (2 ^ 32) ^ (rest.length / 4) = 256 ^ rest.length := by
      rw [show (256 : Nat) = 2 ^ 8 by norm_num, ← pow_mul, ← pow_mul]
      congr 1
      omega
    rw [chunksExact, List.map_cons, Numeral.value_cons, ih hrest, List.length_map,
      length_chunksExact, toNat_readU32 (by simp), hpow, hsplit, List.map_append,
      Numeral.value_append, List.length_map]
  | case2 rest h =>
    have hshort := length_of_no_chunk h
    obtain rfl : rest = [] := List.length_eq_zero_iff.mp (by omega)
    rfl

lemma value_bytesToU32sBe (bytes : List UInt8) :
    Numeral.value (2 ^ 32) ((bytesToU32sBe bytes).map UInt32.toNat) =
      Numeral.value 256 (bytes.map UInt8.toNat) := by
  unfold bytesToU32sBe
  dsimp only
  split_ifs with hpad
  · set k := 4 - (4 - bytes.length % 4) % 4 with hk
    have htake : (bytes.take k).length ≤ 4 := by
      rw [List.length_take]
      omega
    have hdrop : (bytes.drop k).length % 4 = 0 := by
      rw [List.length_drop]
      omega
    have hpow : (2 ^ 32) ^ ((bytes.drop k).length / 4) = 256 ^ (bytes.drop k).length := by
      rw [show (256 : Nat) = 2 ^ 8 by norm_num, ← pow_mul, ← pow_mul]
      congr 1
      omega
    have hzero : 2 ^ (8 * (bytes.take k).length) ∣ (0 : UInt32).toNat := Nat.dvd_zero _
    have hfirst := toNat_firstWord htake hzero
    rw [List.map_cons, Numeral.value_cons, value_chunksExact hdrop, List.length_map,
      length_chunksExact, hpow, hfirst]
    conv_rhs => rw [← List.take_append_drop k bytes, List.map_append, Numeral.value_append,
      List.length_map]
    rw [UInt32.toNat_zero, Nat.zero_add]
  · exact value_chunksExact (by omega)

lemma toNat_getLastD (words : List UInt32) :
    (words.getLastD 0).toNat = Numeral.value (2 ^ 32) (words.map UInt32.toNat) % 2 ^ 32 := by
  induction words using List.reverseRecOn with
  | nil => rfl
  | append_singleton words word =>
    rw [List.getLastD_concat, List.map_append, List.map_singleton, Numeral.value_concat,
      Nat.mul_add_mod, Nat.mod_eq_of_lt word.toNat_lt]

lemma toNat_lastWord (bytes : List UInt8) :
    ((bytesToU32sBe bytes).getLastD 0).toNat =
      Numeral.value 256 (bytes.map UInt8.toNat) % 2 ^ 32 := by
  rw [toNat_getLastD, value_bytesToU32sBe]

lemma toNat_bytesLast (bytes : List UInt8) :
    (bytesLastU32Be bytes).toNat = Numeral.value 256 (bytes.map UInt8.toNat) % 2 ^ 32 := by
  unfold bytesLastU32Be
  split_ifs with hfull
  · have hlen : (bytes.drop (bytes.length - 4)).length = 4 := by
      rw [List.length_drop]
      omega
    have hlt := value_bytes_lt (bytes.drop (bytes.length - 4))
    rw [hlen] at hlt
    conv_rhs => rw [← List.take_append_drop (bytes.length - 4) bytes, List.map_append,
      Numeral.value_append, List.length_map, hlen]
    rw [toNat_readU32 hlen.le, show (256 : Nat) ^ 4 = 2 ^ 32 by norm_num, Nat.mul_comm,
      Nat.mul_add_mod, Nat.mod_eq_of_lt hlt]
  · have hlt := value_bytes_lt bytes
    have hsmall : Numeral.value 256 (bytes.map UInt8.toNat) < 2 ^ 32 :=
      hlt.trans_le (Nat.pow_le_pow_right (by decide) (by omega))
    rw [toNat_readU32 (by simp; omega), List.map_append, List.map_replicate,
      Nat.mod_eq_of_lt hsmall]
    exact Numeral.value_zeros_append 256 _ _

/-! ### The formats -/

section TwoState

variable (htwo : bv.isTwoState = true)

include htwo

lemma number?_vector :
    (wellenTwoState bv .vpiVectorVal).number? .vpiVectorVal = some (Bit.number bv.bits) := by
  have hmap : ((bytesToU32sBe bv.beBytes).reverse.map fun word => (⟨word, 0⟩ : Put.VecVal)).map
      (fun v => v.aval.toNat) = ((bytesToU32sBe bv.beBytes).map UInt32.toNat).reverse := by
    rw [List.map_map, List.map_reverse]
    rfl
  have hall : ((bytesToU32sBe bv.beBytes).reverse.map fun word => (⟨word, 0⟩ : Put.VecVal)).all
      (fun v => decide (v.bval = 0)) = true := by
    rw [List.all_map, List.all_eq_true]
    exact fun _ _ => rfl
  rw [wellenTwoState, Value.number?, if_pos hall, hmap, value_reverse, value_bytesToU32sBe,
    bv.value_beBytes htwo]

lemma number?_hex :
    (wellenTwoState bv .vpiHexStrVal).number? .vpiHexStrVal = some (Bit.number bv.bits) := by
  obtain ⟨ds, hchars, hlen, hlt, hval⟩ := bitStringToHex_spells bv.bits_ne_nil htwo
  have hne : ds ≠ [] := by
    intro hnil
    have hpos : 0 < bv.bits.length := List.length_pos_iff.mpr bv.bits_ne_nil
    rw [hnil, List.length_nil] at hlen
    omega
  rw [wellenTwoState, Value.number?, BitVecRef.toBitString, hchars, readNumeral_digits le_rfl hne hlt,
    hval]

lemma number?_bin :
    (wellenTwoState bv .vpiBinStrVal).number? .vpiBinStrVal = some (Bit.number bv.bits) := by
  have hchar : bv.toBitString = (bv.bits.map Bit.toNat).map Nat.digitChar := by
    rw [BitVecRef.toBitString, List.map_map]
    refine List.map_congr_left fun bit hbit => ?_
    have hbit := List.all_eq_true.mp htwo bit hbit
    cases bit <;> first | rfl | cases hbit
  have hne : bv.bits.map Bit.toNat ≠ [] := by simpa using bv.bits_ne_nil
  rw [wellenTwoState, Value.number?, hchar,
    readNumeral_digits (by decide) hne fun d hd => toNat_lt_two hd, Bit.number]

lemma number?_dec :
    (wellenTwoState bv .vpiDecStrVal).number? .vpiDecStrVal =
      some (Bit.number bv.bits % 2 ^ 32) := by
  rw [wellenTwoState, Value.number?, readNumeral_toDigits, toNat_lastWord, bv.value_beBytes htwo]

end TwoState

end Verilua.Wave

namespace Verilua.Wellen

open Wave
open Codec (Outcome)

variable {signal : Signal} {idx : Nat} {bv : BitVecRef}

/-- The texts and the vector denote one number, and the integers are it modulo 2^32. -/
structure OneValue (signal : Signal) (idx n : Nat) : Prop where
  number : ∀ format ∈ [Format.vpiVectorVal, .vpiHexStrVal, .vpiBinStrVal, .vpiDecStrVal],
    ∃ v, signal.valueFromIndex idx format = .value v ∧ v.number? format = some n
  integer : ∃ i, signal.valueFromIndex idx .vpiIntVal = .value (.integer i) ∧
    i.toNat = n % 2 ^ 32 ∧ signal.intValue idx = .value i

lemma bitVecAt_eq (hidx : idx < 2 ^ 32) (hbv : signal.valueAt idx = some (.bitVec bv)) :
    signal.bitVecAt idx = .value (some bv) := by
  rw [Signal.bitVecAt, Nat.mod_eq_of_lt hidx, hbv]

lemma valueFromIndex_twoState (hidx : idx < 2 ^ 32)
    (hbv : signal.valueAt idx = some (.bitVec bv)) (htwo : bv.isTwoState = true)
    (format : Format) : signal.valueFromIndex idx format = .value (wellenTwoState bv format) := by
  rw [Signal.valueFromIndex, bitVecAt_eq hidx hbv, Outcome.value_bind]
  simp [wellenVpiGetValueFromIndex, htwo]

lemma intValue_twoState (hidx : idx < 2 ^ 32) (hbv : signal.valueAt idx = some (.bitVec bv))
    (htwo : bv.isTwoState = true) :
    signal.intValue idx = .value (bytesLastU32Be bv.beBytes) := by
  rw [Signal.intValue, bitVecAt_eq hidx hbv, Outcome.value_bind]
  simp [wellenGetIntValue, htwo]

theorem oneValue_iff (hidx : idx < 2 ^ 32) (hbv : signal.valueAt idx = some (.bitVec bv))
    (htwo : bv.isTwoState = true) :
    (∃ n, OneValue signal idx n) ↔ Bit.number bv.bits < 2 ^ 32 := by
  have hread := valueFromIndex_twoState hidx hbv htwo
  constructor
  · rintro ⟨n, hnumber, -⟩
    obtain ⟨v, hv, hbin⟩ := hnumber .vpiBinStrVal (by decide)
    obtain ⟨v', hv', hdec⟩ := hnumber .vpiDecStrVal (by decide)
    obtain rfl : wellenTwoState bv .vpiBinStrVal = v := by simpa [hread] using hv
    obtain rfl : wellenTwoState bv .vpiDecStrVal = v' := by simpa [hread] using hv'
    rw [number?_bin htwo, Option.some.injEq] at hbin
    rw [number?_dec htwo, Option.some.injEq, ← hbin] at hdec
    rw [← hdec]
    exact Nat.mod_lt _ (Nat.two_pow_pos 32)
  · intro hlt
    refine ⟨Bit.number bv.bits, fun format hformat => ⟨_, hread format, ?_⟩, ?_⟩
    · simp only [List.mem_cons, List.not_mem_nil, or_false] at hformat
      rcases hformat with rfl | rfl | rfl | rfl
      · exact number?_vector htwo
      · exact number?_hex htwo
      · exact number?_bin htwo
      · rw [number?_dec htwo, Nat.mod_eq_of_lt hlt]
    · refine ⟨_, hread .vpiIntVal, ?_, ?_⟩
      · rw [toNat_lastWord, bv.value_beBytes htwo]
      · rw [intValue_twoState hidx hbv htwo]
        refine congrArg Outcome.value (UInt32.toNat_inj.mp ?_)
        rw [toNat_bytesLast, toNat_lastWord]

/-- A signal that keeps one value. -/
def steady (bv : BitVecRef) : Signal := ⟨some 0, fun _ => some (.bitVec bv)⟩

theorem oneValue_iff_oneBit :
    (∃ n, OneValue (steady oneBit) 7 n) ↔ Bit.number oneBit.bits < 2 ^ 32 :=
  oneValue_iff (by decide) rfl rfl

/-- 2^32 in 33 bits. -/
def bit33 : BitVecRef :=
  ⟨.one :: List.replicate 32 .zero, by simp, [1, 0, 0, 0, 0], rfl, fun _ => by decide⟩

theorem not_oneValue :
    ¬ ∀ (signal : Signal) (idx : Nat) (bv : BitVecRef), idx < 2 ^ 32 →
      signal.valueAt idx = some (.bitVec bv) → bv.isTwoState = true →
        ∃ n, OneValue signal idx n := by
  intro h
  obtain ⟨n, hnumber, -⟩ := h (steady bit33) 0 bit33 (by decide) rfl rfl
  obtain ⟨v, hv, hbin⟩ := hnumber .vpiBinStrVal (by decide)
  obtain ⟨v', hv', hdec⟩ := hnumber .vpiDecStrVal (by decide)
  have hsteady : (steady bit33).valueAt 0 = some (.bitVec bit33) := rfl
  have hread := valueFromIndex_twoState (by decide) hsteady rfl
  obtain rfl : wellenTwoState bit33 .vpiBinStrVal = v := by simpa [hread] using hv
  obtain rfl : wellenTwoState bit33 .vpiDecStrVal = v' := by simpa [hread] using hv'
  have hbits : (wellenTwoState bit33 .vpiBinStrVal).number? .vpiBinStrVal = some (2 ^ 32) := by
    decide
  have hword : (wellenTwoState bit33 .vpiDecStrVal).number? .vpiDecStrVal = some 0 := by decide
  rw [hbits, Option.some.injEq] at hbin
  rw [hword, Option.some.injEq] at hdec
  omega

end Verilua.Wellen
