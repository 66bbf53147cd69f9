import Mathlib.Tactic.NormNum
import Verilua.StrBits.Chunks

/-!
# Complement, sum and count

The complement of a word has 64 bits, of which a chunk keeps its own; the bits beyond the bit width
go with the first digit. The sum hands its carry from chunk to chunk, and a chunk has overflowed
exactly when the sum so far needs another digit.
-/

namespace Verilua.StrBits

open Numeral (fixed value)

variable {k n m maxLen : Nat} {s a b : List Char} {bitwidth : Option Nat}
  {hexStr hexStr1 hexStr2 : List Char}

/-! ### `bnot_hex_str` -/

lemma complement_mod {u c i : Nat} (hu : u = n / 2 ^ i % 2 ^ c) (hc : c ≤ 64)
    (hm : c + i ≤ m) :
    (2 ^ 64 - 1 - u) % 2 ^ c = (n ^^^ (2 ^ m - 1)) / 2 ^ i % 2 ^ c := by
  have hlt : u < 2 ^ 64 := by
    rw [hu]
    exact (Nat.mod_lt _ (Nat.two_pow_pos c)).trans_le (Nat.pow_le_pow_right (by norm_num) hc)
  apply Nat.eq_of_testBit_eq
  intro j
  rw [Nat.sub_sub, Nat.add_comm 1, Nat.testBit_mod_two_pow, Nat.testBit_mod_two_pow,
    Nat.testBit_two_pow_sub_succ hlt, Nat.testBit_div_two_pow, Nat.testBit_xor,
    Nat.testBit_two_pow_sub_one, hu, Nat.testBit_mod_two_pow, Nat.testBit_div_two_pow]
  by_cases hj : j < c
  · have hj' : j < 64 := hj.trans_le hc
    have hji : j + i < m := by omega
    simp [hj, hj', hji]
  · simp [hj]

lemma bnot_part (ha : Operand a maxLen n) (hk : k * 16 < maxLen) :
    fitChars (formatHex (~~~ hexStrToUll (chunk a maxLen k))) (chunkLen maxLen k) =
      spell 16 (chunkLen maxLen k) ((n ^^^ (2 ^ (4 * maxLen) - 1)) / 16 ^ (k * 16)) := by
  have hlen := chunkLen_eq hk
  have hu := ha.toNat_chunk hk
  rw [formatHex, fitChars_toDigits (by norm_num) (chunkLen_ne_zero hk)]
  apply spell_congr (by norm_num)
  rw [sixteen_pow, sixteen_pow] at hu
  rw [sixteen_pow, sixteen_pow, UInt64.toNat_not]
  exact complement_mod hu (by omega) (by omega)

lemma xor_mask_mod (hn : n < 2 ^ k) (hkm : k ≤ m) :
    (n ^^^ (2 ^ m - 1)) % 2 ^ k = n ^^^ (2 ^ k - 1) := by
  apply Nat.eq_of_testBit_eq
  intro j
  rw [Nat.testBit_mod_two_pow, Nat.testBit_xor, Nat.testBit_xor, Nat.testBit_two_pow_sub_one,
    Nat.testBit_two_pow_sub_one]
  by_cases hj : j < k
  · have hjm : j < m := hj.trans_le hkm
    simp [hj, hjm]
  · have hbit : n.testBit j = false :=
      Nat.testBit_lt_two_pow (hn.trans_le (Nat.pow_le_pow_right (by norm_num) (not_lt.mp hj)))
    simp [hj, hbit]

lemma bnot_result (ha : Operand a (bitwidthHexChars k) n) (hn : n < 2 ^ k) :
    maskFirstNibble (concatChunks (fun i =>
        fitChars (formatHex (~~~ hexStrToUll (chunk a (bitwidthHexChars k) i)))
          (chunkLen (bitwidthHexChars k) i)) (numChunks (bitwidthHexChars k))) k =
      spell 16 (bitwidthHexChars k) (n ^^^ (2 ^ k - 1)) := by
  rw [concatChunks_numChunks fun i hi => bnot_part ha hi, maskFirstNibble_spell,
    xor_mask_mod hn]
  rw [bitwidthHexChars]
  omega

theorem bnotHexStr_eq (hbw : ∀ w ∈ bitwidth, 1 ≤ w) (hs : IsHex hexStr) :
    bnotHexStr hexStr bitwidth = render bitwidth
      (cut bitwidth (hexValue hexStr) ^^^ (2 ^ effectiveBitwidth hexStr bitwidth - 1)) := by
  cases bitwidth with
  | some w =>
    have hw : 1 ≤ w := hbw w rfl
    have hlt : hexValue hexStr % 2 ^ w < 2 ^ w := Nat.mod_lt _ (Nat.two_pow_pos w)
    have hlen := length_adjustHexBitwidth hw hexStr
    have hresult := bnot_result ⟨isHex_adjustHexBitwidth hw hs, hlen,
      hexValue_adjustHexBitwidth hw hexStr⟩ hlt
    have hmod : (hexValue hexStr % 2 ^ w ^^^ (2 ^ w - 1)) % 2 ^ w =
        hexValue hexStr % 2 ^ w ^^^ (2 ^ w - 1) := xor_mask_mod hlt le_rfl
    simp only [bnotHexStr, hlen, lt_irrefl, if_false, hresult, Option.isSome_some, if_true,
      fitChars_spell_self]
    rw [render, cut, Option.elim_some, effectiveBitwidth, Option.getD_some, hmod]
  | none =>
    have hchars : bitwidthHexChars (hexStr.length * 4) = hexStr.length := by
      rw [bitwidthHexChars]
      omega
    have hlt : hexValue hexStr < 2 ^ (hexStr.length * 4) := by
      rw [Nat.mul_comm, ← sixteen_pow]
      exact hexValue_lt hexStr
    have hresult := bnot_result (k := hexStr.length * 4) ⟨hs, hchars.symm, rfl⟩ hlt
    rw [hchars] at hresult
    have hmod : (hexValue hexStr ^^^ (2 ^ (hexStr.length * 4) - 1)) % 16 ^ hexStr.length =
        hexValue hexStr ^^^ (2 ^ (hexStr.length * 4) - 1) := by
      rw [sixteen_pow, Nat.mul_comm 4]
      exact xor_mask_mod hlt le_rfl
    simp only [bnotHexStr, hchars, lt_irrefl, if_false, hresult, Option.isSome_none,
      Bool.false_eq_true, trimLeadingZeros_spell (show 1 < 16 by norm_num), hmod]
    rw [render, cut, Option.elim_none, effectiveBitwidth, Option.getD_none]

/-! ### `add_hex_str` -/

/-- Whether the sum of the lowest digits needs another digit. -/
def carryOut (p x y : Nat) : Nat := if p ≤ x % p + y % p then 1 else 0

lemma carryOut_le (p x y : Nat) : carryOut p x y ≤ 1 := by
  rw [carryOut]
  split <;> omega

lemma carryOut_mul {p q : Nat} (hp : 0 < p) (x y : Nat) :
    carryOut (p * q) x y = if q ≤ x / p % q + y / p % q + carryOut p x y then 1 else 0 := by
  obtain ⟨r, hr, hsum⟩ : ∃ r < p, x % p + y % p = r + p * carryOut p x y := by
    have hx : x % p < p := Nat.mod_lt x hp
    have hy : y % p < p := Nat.mod_lt y hp
    rw [carryOut]
    split
    case isTrue hle => exact ⟨x % p + y % p - p, by omega, by omega⟩
    case isFalse hlt => exact ⟨x % p + y % p, by omega, by omega⟩
  have hall : x % (p * q) + y % (p * q) =
      r + p * (x / p % q + y / p % q + carryOut p x y) := by
    rw [Nat.mod_mul, Nat.mod_mul, Nat.mul_add, Nat.mul_add]
    omega
  have hiff : p * q ≤ x % (p * q) + y % (p * q) ↔
      q ≤ x / p % q + y / p % q + carryOut p x y := by
    rw [hall]
    constructor
    · intro hle
      by_contra hlt
      have hstep := Nat.mul_le_mul_left p (Nat.succ_le_of_lt (not_le.mp hlt))
      rw [Nat.mul_succ] at hstep
      omega
    · intro hle
      exact (Nat.mul_le_mul_left p hle).trans (Nat.le_add_left _ _)
  rw [carryOut, if_congr hiff rfl rfl]

lemma add_div_mod {p q : Nat} (hp : 0 < p) (x y : Nat) :
    (x + y) / p % q = (x / p % q + y / p % q + carryOut p x y) % q := by
  rw [Nat.add_div hp, carryOut]
  simp [Nat.add_mod]

lemma addChunk_eq {u v c : UInt64} {len : Nat} (hlen : len ≠ 0) (hle : len ≤ 16)
    (hu : u.toNat < 16 ^ len) (hv : v.toNat < 16 ^ len) (hc : c.toNat ≤ 1) :
    ∃ sum, addChunk u v c len = (decide (16 ^ len ≤ u.toNat + v.toNat + c.toNat), sum) ∧
      sum.toNat = (u.toNat + v.toNat + c.toNat) % 16 ^ len := by
  have hsum : (u + v + c).toNat = (u.toNat + v.toNat + c.toNat) % 2 ^ 64 := by
    rw [UInt64.toNat_add, UInt64.toNat_add, Nat.mod_add_mod]
  by_cases hfull : len = 16
  · -- a full chunk has wrapped around when the sum is less than an operand
    subst hfull
    refine ⟨u + v + c, ?_, hsum⟩
    rw [addChunk, if_pos le_rfl]
    congr 1
    rw [decide_eq_decide, UInt64.lt_iff_toNat_lt, UInt64.lt_iff_toNat_lt, UInt64.le_iff_toNat_le,
      hsum]
    norm_num at hu hv ⊢
    omega
  · have hpow : 16 ^ len ≤ 16 ^ 15 := Nat.pow_le_pow_right (by norm_num) (by omega)
    have hshift : (1 <<< UInt64.ofNat (len * 4) : UInt64).toNat = 16 ^ len := by
      have hbits : len * 4 % 2 ^ 64 % 64 = 4 * len := by omega
      have hfits : 16 ^ len < 2 ^ 64 := hpow.trans_lt (show 16 ^ 15 < 2 ^ 64 by norm_num)
      rw [UInt64.toNat_shiftLeft, UInt64.toNat_ofNat', hbits, UInt64.toNat_one, Nat.one_shiftLeft,
        ← sixteen_pow, Nat.mod_eq_of_lt hfits]
    have hone : (1 : UInt64).toNat = 1 := rfl
    have hpos : 0 < 16 ^ len := Nat.pow_pos (by norm_num)
    have hmax : (1 <<< UInt64.ofNat (len * 4) - 1 : UInt64).toNat = 16 ^ len - 1 := by
      rw [UInt64.toNat_sub_of_le _ _ (by rw [UInt64.le_iff_toNat_le, hshift, hone]; omega), hshift,
        hone]
    have hwhole : (u + v + c).toNat = u.toNat + v.toNat + c.toNat := by
      rw [hsum, Nat.mod_eq_of_lt]
      norm_num at hpow ⊢
      omega
    rw [addChunk, if_neg (by omega)]
    dsimp only
    split
    case isTrue hlt =>
      rw [UInt64.lt_iff_toNat_lt, hmax, hwhole] at hlt
      refine ⟨_, by rw [decide_eq_true (by omega)], ?_⟩
      rw [UInt64.toNat_sub_of_le _ _ (by rw [UInt64.le_iff_toNat_le, hshift, hwhole]; omega),
        hshift, hwhole, Nat.mod_eq_sub_mod (by omega), Nat.mod_eq_of_lt (by omega)]
    case isFalse hge =>
      rw [UInt64.lt_iff_toNat_lt, hmax, hwhole] at hge
      refine ⟨_, by rw [decide_eq_false (by omega)], ?_⟩
      rw [hwhole, Nat.mod_eq_of_lt (by omega)]

lemma addChunks_eq (ha : Operand a maxLen m) (hb : Operand b maxLen n) :
    ∀ k, k ≤ numChunks maxLen → ∃ carry : UInt64,
      addChunks a b maxLen k = (spell 16 (min (k * 16) maxLen) (m + n), carry) ∧
      carry.toNat = carryOut (16 ^ min (k * 16) maxLen) m n := by
  intro k hk
  induction k with
  | zero =>
    have hmin : min (0 * 16) maxLen = 0 := by rw [Nat.zero_mul, Nat.zero_min]
    refine ⟨0, by rw [hmin, spell_zero]; rfl, ?_⟩
    rw [hmin, pow_zero, carryOut, Nat.mod_one, Nat.mod_one, if_neg (by norm_num)]
    rfl
  | succ k ih =>
    obtain ⟨carry, hrest, hcarry⟩ := ih (Nat.le_of_succ_le hk)
    have hlt : k * 16 < maxLen := by
      rw [numChunks] at hk
      omega
    have hmin : min ((k + 1) * 16) maxLen = k * 16 + chunkLen maxLen k := by
      rw [chunkLen_eq hlt]
      omega
    have hpow : ∀ x y, x / 16 ^ y % 16 ^ chunkLen maxLen k < 16 ^ chunkLen maxLen k :=
      fun x y => Nat.mod_lt _ (Nat.pow_pos (by norm_num))
    have hp : 0 < 16 ^ (k * 16) := Nat.pow_pos (by norm_num)
    rw [min_eq_left hlt.le] at hrest hcarry
    obtain ⟨sum, hchunk, hsum⟩ := addChunk_eq (chunkLen_ne_zero hlt)
      (by rw [chunkLen_eq hlt]; exact min_le_left _ _) (by rw [ha.toNat_chunk hlt]; exact hpow _ _)
      (by rw [hb.toNat_chunk hlt]; exact hpow _ _) (hcarry ▸ carryOut_le _ m n)
    rw [ha.toNat_chunk hlt, hb.toNat_chunk hlt, hcarry] at hchunk hsum
    rw [← add_div_mod hp] at hsum
    refine ⟨if 16 ^ chunkLen maxLen k ≤ m / 16 ^ (k * 16) % 16 ^ chunkLen maxLen k +
      n / 16 ^ (k * 16) % 16 ^ chunkLen maxLen k + carryOut (16 ^ (k * 16)) m n then 1 else 0,
      ?_, ?_⟩
    · rw [addChunks, hrest, addRound]
      dsimp only
      rw [hchunk]
      dsimp only
      rw [padChunk_formatHex (chunkLen_ne_zero hlt) (hsum ▸ hpow _ _), hsum,
        spell_mod (by norm_num), hmin, Nat.add_comm (k * 16), spell_append]
      simp only [decide_eq_true_eq]
    · rw [hmin, pow_add, carryOut_mul hp]
      split <;> rfl

lemma exceedsNibble_spell (hn : n < 16 ^ bitwidthHexChars k) :
    exceedsNibble (spell 16 (bitwidthHexChars k) n) k = decide (2 ^ k ≤ n) := by
  by_cases hmod : k % 4 = 0
  · have hlt : n < 2 ^ k := by
      rw [two_pow_eq, hmod, pow_zero, Nat.mul_one]
      rwa [show bitwidthHexChars k = k / 4 by rw [bitwidthHexChars]; omega] at hn
    simp [exceedsNibble, hmod, hlt]
  · have hfirst : ssub (spell 16 (bitwidthHexChars k) n) 1 1 = spell 16 1 (n / 16 ^ (k / 4)) := by
      rw [spell, fixed_bitwidth hmod]
      rfl
    have hlt : n / 16 ^ (k / 4) < 16 := by
      rw [show bitwidthHexChars k = k / 4 + 1 by rw [bitwidthHexChars]; omega] at hn
      exact Nat.div_lt_of_lt_mul (pow_succ 16 (k / 4) ▸ hn)
    have hval : (tonumber16 (spell 16 1 (n / 16 ^ (k / 4)))).getD 0 = n / 16 ^ (k / 4) := by
      rw [tonumber16_eq (isHex_spell _ _) (by simp [spell]), Option.getD_some, hexValue_spell,
        pow_one, Nat.mod_eq_of_lt hlt]
    have hiff : n / 16 ^ (k / 4) ≠ n / 16 ^ (k / 4) % 2 ^ (k % 4) ↔ 2 ^ k ≤ n := by
      rw [two_pow_eq k, Nat.mul_comm, ← Nat.le_div_iff_mul_le (Nat.pow_pos (by norm_num)), ne_comm,
        ne_eq, Nat.mod_eq_iff_lt (Nat.two_pow_pos _).ne', not_lt]
    simp only [exceedsNibble, hfirst, hval, land_nibbleMask, hmod, ne_eq, not_false_eq_true,
      true_and]
    exact decide_eq_decide.mpr hiff

lemma addChunks_numChunks (ha : Operand a maxLen m) (hb : Operand b maxLen n) :
    ∃ carry : UInt64, addChunks a b maxLen (numChunks maxLen) = (spell 16 maxLen (m + n), carry) ∧
      (0 < carry ↔ 16 ^ maxLen ≤ m + n) := by
  obtain ⟨carry, hsum, hcarry⟩ := addChunks_eq ha hb (numChunks maxLen) le_rfl
  rw [min_eq_right (by rw [numChunks]; omega)] at hsum hcarry
  refine ⟨carry, hsum, ?_⟩
  rw [UInt64.lt_iff_toNat_lt, hcarry, carryOut, Nat.mod_eq_of_lt ha.lt, Nat.mod_eq_of_lt hb.lt]
  split
  case isTrue hle => simpa using hle
  case isFalse hgt => simpa using hgt

theorem addHexStr_eq (hbw : ∀ w ∈ bitwidth, 1 ≤ w) (h1 : IsHex hexStr1) (h2 : IsHex hexStr2) :
    addHexStr hexStr1 hexStr2 bitwidth =
      (render bitwidth (cut bitwidth (hexValue hexStr1) + cut bitwidth (hexValue hexStr2)),
        bitwidth.elim false fun w => decide (2 ^ w ≤
          cut bitwidth (hexValue hexStr1) + cut bitwidth (hexValue hexStr2))) := by
  obtain ⟨a, b, maxLen, heq, ha, hb, hmax⟩ := operands_eq hbw h1 h2
  generalize hx : cut bitwidth (hexValue hexStr1) = x at ha
  generalize hy : cut bitwidth (hexValue hexStr2) = y at hb
  obtain ⟨carry, hsum, hcarry⟩ := addChunks_numChunks ha hb
  rw [addHexStr, heq]
  dsimp only
  rw [hsum]
  dsimp only
  cases bitwidth with
  | some w =>
    obtain rfl := hmax w rfl
    by_cases hc : 0 < carry
    · have hle : 2 ^ w ≤ x + y := (two_pow_le w).trans (hcarry.mp hc)
      simp [hc, hle, maskFirstNibble_spell, render]
    · have hlt : x + y < 16 ^ bitwidthHexChars w := not_le.mp (mt hcarry.mpr hc)
      simp [hc, maskFirstNibble_spell, render, exceedsNibble_spell hlt]
  | none =>
    by_cases hc : 0 < carry
    · have hle := hcarry.mp hc
      have hone : (x + y) / 16 ^ maxLen = 1 := by
        have hxlt := ha.lt
        have hylt := hb.lt
        exact Nat.div_eq_of_lt_le (by omega) (by omega)
      have hcons : '1' :: spell 16 maxLen (x + y) = spell 16 (maxLen + 1) (x + y) := by
        rw [spell_succ, hone]
        rfl
      have hlt : x + y < 16 ^ (maxLen + 1) := by
        have hxlt := ha.lt
        have hylt := hb.lt
        rw [pow_succ]
        omega
      rw [if_pos hc, hcons, trimLeadingZeros_spell (by norm_num), Nat.mod_eq_of_lt hlt]
      rfl
    · have hlt : x + y < 16 ^ maxLen := not_le.mp (mt hcarry.mpr hc)
      rw [if_neg hc, trimLeadingZeros_spell (by norm_num), Nat.mod_eq_of_lt hlt]
      rfl

/-! ### `popcount_hex_str` -/

lemma count_trimLeadingZeros (s : List Char) : (trimLeadingZeros s).count '1' = s.count '1' := by
  rw [trimLeadingZeros]
  induction s with
  | nil => rfl
  | cons c s ih =>
    by_cases hc : c = '0'
    · subst hc
      simpa using ih
    · rw [List.dropWhile_cons_of_neg (by simpa using hc)]

theorem popcountHexStr_eq (hs : IsHex hexStr) :
    popcountHexStr hexStr = some ((Nat.toDigits 2 (hexValue hexStr)).count '1') := by
  have hlt : hexValue hexStr < 2 ^ (hexStr.length * 4) := by
    rw [Nat.mul_comm, ← sixteen_pow]
    exact hexValue_lt hexStr
  rw [popcountHexStr, hexToBin_eq hs, Option.bind_eq_bind, Option.bind_some,
    ← count_trimLeadingZeros, trimLeadingZeros_spell (by norm_num), Nat.mod_eq_of_lt hlt]
  rfl

end Verilua.StrBits
