import Verilua.StrBits.Digits

/-!
# The functions that work on chunks of 64 bits

The loops cut their operands into chunks of 16 digits, from the right. A chunk is a group of digits
of the operand, and the chunks of the results, one after the other, spell the result on the whole
numbers.
-/

namespace Verilua.StrBits

open Numeral (fixed value)

variable {k n m maxLen : Nat} {s t : List Char}

/-! ### One chunk -/

lemma hexStrToUll_toNat (hs : IsHex s) (hlen : s.length ≤ 16) :
    (hexStrToUll s).toNat = hexValue s := by
  have hnum : ∀ t : List Char, IsHex t → t.length ≤ 16 →
      (UInt64.ofNat ((tonumber16 t).getD 0)).toNat = hexValue t := by
    intro t ht htlen
    have hlt : hexValue t < 2 ^ 64 := (hexValue_lt t).trans_le
      (Nat.pow_le_pow_right (by norm_num) htlen)
    have hval : (tonumber16 t).getD 0 = hexValue t := by
      by_cases hne : t = []
      · subst hne
        rfl
      · rw [tonumber16_eq ht hne, Option.getD_some]
    rw [hval, UInt64.toNat_ofNat', Nat.mod_eq_of_lt hlt]
  rw [hexStrToUll]
  split
  case isTrue => exact hnum s hs hlen
  case isFalse hlong =>
    -- at most three digits are shifted over the other thirteen
    obtain ⟨i, hi⟩ := Nat.exists_eq_add_of_le' (not_le.mp hlong).le
    have htake : IsHex (s.take i) := fun c hc => hs c (List.mem_of_mem_take hc)
    have hdrop : IsHex (s.drop i) := fun c hc => hs c (List.mem_of_mem_drop hc)
    have hdroplen : (s.drop i).length = 13 := by rw [List.length_drop]; omega
    have htakelen : (s.take i).length = i := by rw [List.length_take]; omega
    have hhigh : hexValue (s.take i) < 16 ^ 3 := (hexValue_lt _).trans_le
      (Nat.pow_le_pow_right (by norm_num) (by omega))
    have hlow : hexValue (s.drop i) < 16 ^ 13 := hdroplen ▸ hexValue_lt (s.drop i)
    have hval : hexValue s = hexValue (s.take i) * 16 ^ 13 + hexValue (s.drop i) := by
      rw [hexValue, ← List.take_append_drop i s, digits_append, Numeral.value_append,
        length_digits, List.take_append_drop, hdroplen]
      rfl
    have hsplit : s.length - 13 = i := by omega
    simp only [hsplit, hdroplen]
    rw [UInt64.toNat_add, UInt64.toNat_shiftLeft, hnum _ htake (by omega), hnum _ hdrop (by omega),
      hval, Nat.shiftLeft_eq]
    norm_num at hhigh hlow ⊢
    omega

lemma chunkLen_eq (hk : k * 16 < maxLen) : chunkLen maxLen k = min 16 (maxLen - k * 16) := by
  rw [chunkLen]
  omega

lemma chunkLen_ne_zero (hk : k * 16 < maxLen) : chunkLen maxLen k ≠ 0 := by
  rw [chunkLen_eq hk]
  omega

lemma digits_chunk (hlen : s.length = maxLen) (hk : k * 16 < maxLen) :
    digits (chunk s maxLen k) =
      fixed 16 (chunkLen maxLen k) (hexValue s / 16 ^ (k * 16)) := by
  obtain ⟨i, rfl⟩ : ∃ i, maxLen = i + k * 16 := Nat.exists_eq_add_of_le' hk.le
  obtain ⟨j, hj⟩ : ∃ j, i = j + chunkLen (i + k * 16) k :=
    Nat.exists_eq_add_of_le' (by rw [chunkLen_eq hk]; omega)
  have hstart : max (i + k * 16 - k * 16 + 1 - 16) 1 - 1 = j := by
    rw [chunkLen_eq hk] at hj
    omega
  have hend : i + k * 16 - k * 16 = i := by omega
  rw [chunk, ssub, digits_drop, digits_take, digits_eq, hlen, hstart, hend, Numeral.take_fixed]
  generalize chunkLen (i + k * 16) k = c at hj
  rw [hj, Numeral.drop_fixed]

lemma isHex_chunk (hs : IsHex s) (maxLen k : Nat) : IsHex (chunk s maxLen k) := fun c hc =>
  hs c (List.mem_of_mem_take (List.mem_of_mem_drop hc))

lemma toNat_chunk (hs : IsHex s) (hlen : s.length = maxLen) (hk : k * 16 < maxLen) :
    (hexStrToUll (chunk s maxLen k)).toNat =
      hexValue s / 16 ^ (k * 16) % 16 ^ chunkLen maxLen k := by
  have hdigits := digits_chunk hlen hk
  have hshort : (chunk s maxLen k).length ≤ 16 := by
    rw [← length_digits, hdigits, Numeral.length_fixed, chunkLen_eq hk]
    exact min_le_left _ _
  rw [hexStrToUll_toNat (isHex_chunk hs maxLen k) hshort, hexValue_of_digits hdigits]

lemma padChunk_formatHex {u : UInt64} (hk : k ≠ 0) (hlt : u.toNat < 16 ^ k) :
    padChunk (formatHex u) k = spell 16 k u.toNat := by
  have hle : (formatHex u).length ≤ k :=
    (Nat.length_toDigits_le_iff (by norm_num) (Nat.pos_of_ne_zero hk)).mpr hlt
  rw [← fitChars_toDigits (by norm_num) hk, fitChars, if_neg (by exact not_lt.mpr hle)]
  rfl

/-! ### All chunks -/

lemma concatChunks_eq {part : Nat → List Char}
    (hpart : ∀ k, k * 16 < maxLen → part k = spell 16 (chunkLen maxLen k) (n / 16 ^ (k * 16))) :
    ∀ k, k ≤ numChunks maxLen → concatChunks part k = spell 16 (min (k * 16) maxLen) n := by
  intro k hk
  induction k with
  | zero => simp [concatChunks]
  | succ k ih =>
    have hlt : k * 16 < maxLen := by
      rw [numChunks] at hk
      omega
    have hmin : min ((k + 1) * 16) maxLen = chunkLen maxLen k + k * 16 := by
      rw [chunkLen_eq hlt]
      omega
    rw [concatChunks, hpart k hlt, ih (Nat.le_of_succ_le hk), min_eq_left hlt.le, hmin,
      spell_append]

lemma concatChunks_numChunks {part : Nat → List Char}
    (hpart : ∀ k, k * 16 < maxLen → part k = spell 16 (chunkLen maxLen k) (n / 16 ^ (k * 16))) :
    concatChunks part (numChunks maxLen) = spell 16 maxLen n := by
  rw [concatChunks_eq hpart _ le_rfl, min_eq_right (by rw [numChunks]; omega)]

/-! ### Operands and results -/

/-- A number in a register of the given width, or as it is. -/
def cut (bitwidth : Option Nat) (n : Nat) : Nat := bitwidth.elim n (n % 2 ^ ·)

/-- The given width, or that of the string. -/
def effectiveBitwidth (hexStr : List Char) (bitwidth : Option Nat) : Nat :=
  bitwidth.getD (hexStr.length * 4)

/-- The string for a number: all digits of the register, or the shortest numeral. -/
def render (bitwidth : Option Nat) (n : Nat) : List Char :=
  match bitwidth with
  | some bitwidth => spell 16 (bitwidthHexChars bitwidth) (n % 2 ^ bitwidth)
  | none => Nat.toDigits 16 n

variable {bitwidth : Option Nat} {hexStr1 hexStr2 : List Char}

lemma isHex_srep_append (j : Nat) (hs : IsHex s) : IsHex (srep j ++ s) := by
  intro c hc
  rcases List.mem_append.mp hc with hc | hc
  · rw [List.eq_of_mem_replicate hc]
    rfl
  · exact hs c hc

/-- A string of the given length with the given value. -/
structure Operand (s : List Char) (maxLen n : Nat) : Prop where
  isHex : IsHex s
  length_eq : s.length = maxLen
  hexValue_eq : hexValue s = n

lemma Operand.of_padding (hs : IsHex s) (hlen : s.length ≤ maxLen) :
    Operand (srep (maxLen - s.length) ++ s) maxLen (hexValue s) where
  isHex := isHex_srep_append _ hs
  length_eq := by
    rw [List.length_append, srep, List.length_replicate]
    omega
  hexValue_eq := hexValue_srep_append _ s

lemma operands_eq (hbw : ∀ w ∈ bitwidth, 1 ≤ w) (h1 : IsHex hexStr1) (h2 : IsHex hexStr2) :
    ∃ a b maxLen, operands hexStr1 hexStr2 bitwidth = (a, b, maxLen) ∧
      Operand a maxLen (cut bitwidth (hexValue hexStr1)) ∧
      Operand b maxLen (cut bitwidth (hexValue hexStr2)) ∧
      ∀ w ∈ bitwidth, maxLen = bitwidthHexChars w := by
  cases bitwidth with
  | some w =>
    have hw : 1 ≤ w := hbw w rfl
    have hoperand : ∀ s, IsHex s → Operand (adjustHexBitwidth s w) (bitwidthHexChars w)
        (cut (some w) (hexValue s)) := fun s hs =>
      ⟨isHex_adjustHexBitwidth hw hs, length_adjustHexBitwidth hw s,
        hexValue_adjustHexBitwidth hw s⟩
    refine ⟨_, _, _, ?_, hoperand _ h1, hoperand _ h2, by simp⟩
    simp [operands, length_adjustHexBitwidth hw]
  | none =>
    rcases lt_trichotomy hexStr1.length hexStr2.length with hlt | heq | hgt
    · refine ⟨_, _, _, ?_, .of_padding h1 hlt.le, ⟨h2, rfl, rfl⟩, by simp⟩
      simp [operands, hlt, max_eq_right hlt.le]
    · refine ⟨_, _, _, ?_, ⟨h1, heq, rfl⟩, ⟨h2, rfl, rfl⟩, by simp⟩
      simp [operands, heq]
    · refine ⟨_, _, _, ?_, ⟨h1, rfl, rfl⟩, .of_padding h2 hgt.le, by simp⟩
      simp [operands, hgt, max_eq_left hgt.le]

lemma Operand.lt (h : Operand s maxLen n) : n < 16 ^ maxLen := by
  rw [← h.hexValue_eq, ← h.length_eq]
  exact hexValue_lt s

lemma Operand.toNat_chunk (h : Operand s maxLen n) (hk : k * 16 < maxLen) :
    (hexStrToUll (chunk s maxLen k)).toNat = n / 16 ^ (k * 16) % 16 ^ chunkLen maxLen k := by
  rw [StrBits.toNat_chunk h.isHex h.length_eq hk, h.hexValue_eq]

/-! ### `bor_hex_str`, `bxor_hex_str`, `band_hex_str` -/

lemma sixteen_pow (k : Nat) : 16 ^ k = 2 ^ (4 * k) := by
  rw [pow_mul]
  norm_num

lemma cut_mod (f : Bool → Bool → Bool) (hf : f false false = false) (m n : Nat) :
    Nat.bitwise f (cut (some k) m) (cut (some k) n) % 2 ^ k = Nat.bitwise f m n % 2 ^ k := by
  rw [cut, cut, Option.elim_some, Option.elim_some, ← Nat.bitwise_mod_two_pow hf, Nat.mod_mod]

section Bitwise

variable {op : UInt64 → UInt64 → UInt64} {f : Bool → Bool → Bool} {a b : List Char}

lemma bitwise_part (hf : f false false = false)
    (hop : ∀ x y, (op x y).toNat = Nat.bitwise f x.toNat y.toNat)
    (ha : Operand a maxLen m) (hb : Operand b maxLen n) (hk : k * 16 < maxLen) :
    padChunk (formatHex (op (hexStrToUll (chunk a maxLen k)) (hexStrToUll (chunk b maxLen k))))
      (chunkLen maxLen k) = spell 16 (chunkLen maxLen k) (Nat.bitwise f m n / 16 ^ (k * 16)) := by
  have hval : (op (hexStrToUll (chunk a maxLen k)) (hexStrToUll (chunk b maxLen k))).toNat =
      Nat.bitwise f m n / 16 ^ (k * 16) % 16 ^ chunkLen maxLen k := by
    rw [hop, ha.toNat_chunk hk, hb.toNat_chunk hk]
    simp only [sixteen_pow]
    rw [Nat.bitwise_div_two_pow hf, Nat.bitwise_mod_two_pow hf]
  have hlt : (op (hexStrToUll (chunk a maxLen k)) (hexStrToUll (chunk b maxLen k))).toNat <
      16 ^ chunkLen maxLen k := by
    rw [hval]
    exact Nat.mod_lt _ (Nat.pow_pos (by norm_num))
  rw [padChunk_formatHex (chunkLen_ne_zero hk) hlt, hval, spell_mod (by norm_num)]

theorem bitwiseHexStr_eq (hf : f false false = false)
    (hop : ∀ x y, (op x y).toNat = Nat.bitwise f x.toNat y.toNat)
    (hbw : ∀ w ∈ bitwidth, 1 ≤ w) (h1 : IsHex hexStr1) (h2 : IsHex hexStr2) :
    bitwiseHexStr op hexStr1 hexStr2 bitwidth =
      render bitwidth (Nat.bitwise f (hexValue hexStr1) (hexValue hexStr2)) := by
  obtain ⟨a, b, maxLen, heq, ha, hb, hmax⟩ := operands_eq hbw h1 h2
  have hresult := concatChunks_numChunks fun k hk => bitwise_part hf hop ha hb hk
  rw [bitwiseHexStr, heq]
  dsimp only
  rw [hresult]
  cases bitwidth with
  | some w =>
    have hw : 1 ≤ w := hbw w rfl
    obtain rfl := hmax w rfl
    exact (congrArg (maskFirstNibble · w) (fitChars_spell_self 16 _ _)).trans
      ((maskFirstNibble_spell w _).trans (congrArg _ (cut_mod f hf _ _)))
  | none =>
    have hlt : Nat.bitwise f (hexValue hexStr1) (hexValue hexStr2) < 16 ^ maxLen := by
      rw [sixteen_pow]
      exact Nat.bitwise_lt_two_pow (sixteen_pow maxLen ▸ ha.lt) (sixteen_pow maxLen ▸ hb.lt)
    exact (trimLeadingZeros_spell (by norm_num) _ _).trans
      (congrArg _ (Nat.mod_eq_of_lt hlt))

end Bitwise

theorem borHexStr_eq (hbw : ∀ w ∈ bitwidth, 1 ≤ w) (h1 : IsHex hexStr1) (h2 : IsHex hexStr2) :
    borHexStr hexStr1 hexStr2 bitwidth =
      render bitwidth (hexValue hexStr1 ||| hexValue hexStr2) :=
  bitwiseHexStr_eq (f := or) rfl UInt64.toNat_or hbw h1 h2

theorem bxorHexStr_eq (hbw : ∀ w ∈ bitwidth, 1 ≤ w) (h1 : IsHex hexStr1) (h2 : IsHex hexStr2) :
    bxorHexStr hexStr1 hexStr2 bitwidth =
      render bitwidth (hexValue hexStr1 ^^^ hexValue hexStr2) :=
  bitwiseHexStr_eq (f := bne) rfl UInt64.toNat_xor hbw h1 h2

theorem bandHexStr_eq (hbw : ∀ w ∈ bitwidth, 1 ≤ w) (h1 : IsHex hexStr1) (h2 : IsHex hexStr2) :
    bandHexStr hexStr1 hexStr2 bitwidth =
      render bitwidth (hexValue hexStr1 &&& hexValue hexStr2) :=
  bitwiseHexStr_eq (f := and) rfl UInt64.toNat_and hbw h1 h2

end Verilua.StrBits
