import Verilua.StrBits.Native

/-!
# What the helpers do to a number

A string of hexadecimal characters has digits and a value, whatever the case of its letters. What
the functions make is spelled in lower case with a fixed number of digits, and each helper acts on
the number as a division or a remainder by a power of two.
-/

namespace Verilua.StrBits

open Numeral (fixed value)

variable {b j k n m : Nat} {s t : List Char}

/-! ### Numerals in lower case -/

/-- The `k` lowest digits of `n`. -/
def spell (b k n : Nat) : List Char := (fixed b k n).map Nat.digitChar

@[simp] lemma length_spell (b k n : Nat) : (spell b k n).length = k := by simp [spell]

@[simp] lemma spell_zero (b n : Nat) : spell b 0 n = [] := rfl

lemma spell_append (b j k n : Nat) : spell b (j + k) n = spell b j (n / b ^ k) ++ spell b k n := by
  rw [spell, Numeral.fixed_append, List.map_append]
  rfl

lemma spell_succ (b k n : Nat) :
    spell b (k + 1) n = (n / b ^ k % b).digitChar :: spell b k n := by
  rw [spell, Numeral.fixed_succ', List.map_cons]
  rfl

lemma spell_mod (hb : 0 < b) (k n : Nat) : spell b k (n % b ^ k) = spell b k n := by
  rw [spell, Numeral.fixed_mod hb, spell]

lemma spell_congr (hb : 0 < b) (h : m % b ^ k = n % b ^ k) : spell b k m = spell b k n := by
  rw [← spell_mod hb k m, h, spell_mod hb]

lemma drop_spell (b j k n : Nat) : (spell b (j + k) n).drop j = spell b k n := by
  rw [spell, ← List.map_drop, Numeral.drop_fixed, spell]

lemma take_spell (b j k n : Nat) : (spell b (j + k) n).take j = spell b j (n / b ^ k) := by
  rw [spell, ← List.map_take, Numeral.take_fixed, spell]

lemma srep_append_spell (hb : 0 < b) (j k n : Nat) :
    srep j ++ spell b k n = spell b (j + k) (n % b ^ k) := by
  rw [spell, spell, ← Numeral.replicate_append_fixed hb, List.map_append, List.map_replicate]
  rfl

lemma spell_append_srep (hb : 0 < b) (j k n : Nat) :
    spell b k n ++ srep j = spell b (k + j) (n * b ^ j) := by
  have hpos : 0 < b ^ j := Nat.pow_pos hb
  rw [spell_append, Nat.mul_div_cancel n hpos, ← spell_mod hb j, Nat.mul_mod_left]
  simp [spell, Numeral.fixed_of_zero, srep]

lemma ssubLast_spell (hk : k ≠ 0) (b j n : Nat) : ssubLast (spell b (j + k) n) k = spell b k n := by
  rw [ssubLast, if_neg hk, length_spell, Nat.add_sub_cancel, drop_spell]

lemma fitChars_spell (hb : 0 < b) (hj : j ≠ 0) (hlt : n < b ^ k) :
    fitChars (spell b k n) j = spell b j n := by
  rw [fitChars, length_spell]
  split
  case isTrue hlt' =>
    obtain ⟨i, rfl⟩ := Nat.exists_eq_add_of_le' hlt'.le
    exact ssubLast_spell hj b i n
  case isFalse hge =>
    split
    case isTrue hlt' =>
      rw [srep_append_spell hb, Nat.mod_eq_of_lt hlt, Nat.sub_add_cancel hlt'.le]
    case isFalse hge' =>
      rw [show k = j by omega]

lemma fitChars_spell_self (b k n : Nat) : fitChars (spell b k n) k = spell b k n := by
  simp [fitChars]

lemma adjustBinBitwidth_eq (s : List Char) (j : Nat) : adjustBinBitwidth s j = fitChars s j := rfl

lemma trimLeadingZeros_spell (hb : 1 < b) (k n : Nat) :
    trimLeadingZeros (spell b k n) = Nat.toDigits b (n % b ^ k) := by
  have hdigits := Numeral.toDigits_eq_dropWhile hb
    (Numeral.lt_of_mem_fixed (k := k) (n := n) (Nat.zero_lt_of_lt hb))
  have hdrop : (spell b k n).dropWhile (· == '0') =
      ((fixed b k n).dropWhile (· == 0)).map Nat.digitChar := by
    rw [spell, List.dropWhile_map]
    congr 2
    funext d
    simp
  rw [Numeral.value_fixed] at hdigits
  rw [trimLeadingZeros, hdrop, hdigits]
  split
  case h_1 heq => rw [if_pos (List.map_eq_nil_iff.mp heq)]
  case h_2 hne => rw [if_neg fun hnil => hne (by rw [hnil, List.map_nil])]

/-! ### The shortest numeral -/

lemma exists_spell (hb : 1 < b) (n : Nat) :
    ∃ k, k ≠ 0 ∧ n < b ^ k ∧ Nat.toDigits b n = spell b k n := by
  obtain ⟨ds, hne, hds, hval, hdigits⟩ := Numeral.exists_toDigits hb n
  refine ⟨ds.length, by simpa using hne, ?_, ?_⟩
  · rw [← hval]
    exact Numeral.value_lt hds
  · rw [hdigits, spell, ← hval, Numeral.fixed_value hds]

lemma trimLeadingZeros_toDigits (hb : 1 < b) (n : Nat) :
    trimLeadingZeros (Nat.toDigits b n) = Nat.toDigits b n := by
  obtain ⟨k, -, hlt, hspell⟩ := exists_spell hb n
  rw [hspell, trimLeadingZeros_spell hb, Nat.mod_eq_of_lt hlt, hspell]

lemma fitChars_toDigits (hb : 1 < b) (hj : j ≠ 0) (n : Nat) :
    fitChars (Nat.toDigits b n) j = spell b j n := by
  obtain ⟨k, -, hlt, hspell⟩ := exists_spell hb n
  rw [hspell, fitChars_spell (Nat.zero_lt_of_lt hb) hj hlt]

/-! ### Characters -/

/-- Every character is a hexadecimal digit, in lower or upper case. -/
def IsHex (s : List Char) : Prop := ∀ c ∈ s, (hexVals.lookup c).isSome

instance (s : List Char) : Decidable (IsHex s) := List.decidableBAll _ s

def digits (s : List Char) : List Nat := s.map fun c => (hexVals.lookup c).getD 0

/-- The number that a hexadecimal string spells. -/
def hexValue (s : List Char) : Nat := value 16 (digits s)

@[simp] lemma length_digits (s : List Char) : (digits s).length = s.length := by simp [digits]

lemma digits_append (s t : List Char) : digits (s ++ t) = digits s ++ digits t := by
  simp [digits]

lemma mem_of_lookup {α β : Type*} [BEq α] [LawfulBEq α] {a : α} {y : β} {l : List (α × β)}
    (h : l.lookup a = some y) : (a, y) ∈ l := by
  obtain ⟨l₁, l₂, rfl, -⟩ := List.lookup_eq_some_iff.mp h
  simp

lemma digit_lt (c : Char) : (hexVals.lookup c).getD 0 < 16 := by
  cases hc : hexVals.lookup c with
  | none => simp
  | some d =>
    have hall : ∀ p ∈ hexVals, p.2 < 16 := by decide
    exact hall _ (mem_of_lookup hc)

lemma digits_lt : ∀ d ∈ digits s, d < 16 := by
  intro d hd
  obtain ⟨c, -, rfl⟩ := List.mem_map.mp hd
  exact digit_lt c

lemma hexValue_lt (s : List Char) : hexValue s < 16 ^ s.length := by
  rw [← length_digits]
  exact Numeral.value_lt digits_lt

lemma digits_eq (s : List Char) : digits s = fixed 16 s.length (hexValue s) :=
  Numeral.eq_fixed (length_digits s) digits_lt rfl

lemma hexValue_of_digits (h : digits s = fixed 16 k n) : hexValue s = n % 16 ^ k := by
  rw [hexValue, h, Numeral.value_fixed]

lemma mapM_eq_some_map {α β : Type*} {f : α → Option β} {g : α → β} {xs : List α}
    (h : ∀ x ∈ xs, f x = some (g x)) : xs.mapM f = some (xs.map g) := by
  induction xs with
  | nil => rfl
  | cons x xs ih =>
    rw [List.mapM_cons, h x List.mem_cons_self, ih fun y hy => h y (List.mem_cons_of_mem _ hy)]
    rfl

lemma lookup_hexVals (hs : IsHex s) :
    ∀ c ∈ s, hexVals.lookup c = some ((hexVals.lookup c).getD 0) := by
  intro c hc
  obtain ⟨d, hd⟩ := Option.isSome_iff_exists.mp (hs c hc)
  rw [hd, Option.getD_some]

lemma mapM_hexVals (hs : IsHex s) : s.mapM (hexVals.lookup ·) = some (digits s) :=
  mapM_eq_some_map (lookup_hexVals hs)

lemma tonumber16_eq (hs : IsHex s) (hne : s ≠ []) : tonumber16 s = some (hexValue s) := by
  rw [tonumber16, if_neg hne, mapM_hexVals hs, Option.map_some, hexValue]

lemma lookup_digitChar (hn : n < 16) : hexVals.lookup n.digitChar = some n := by
  have hall : ∀ n < 16, hexVals.lookup n.digitChar = some n := by decide
  exact hall n hn

lemma isHex_spell (k n : Nat) : IsHex (spell 16 k n) := by
  intro c hc
  obtain ⟨d, hd, rfl⟩ := List.mem_map.mp hc
  rw [lookup_digitChar (Numeral.lt_of_mem_fixed (by norm_num) d hd)]
  rfl

@[simp] lemma digits_spell (k n : Nat) : digits (spell 16 k n) = fixed 16 k n := by
  rw [digits, spell, List.map_map]
  refine (List.map_congr_left fun d hd => ?_).trans (List.map_id _)
  simp [lookup_digitChar (Numeral.lt_of_mem_fixed (by norm_num) d hd)]

lemma hexValue_spell (k n : Nat) : hexValue (spell 16 k n) = n % 16 ^ k :=
  hexValue_of_digits (digits_spell k n)

lemma isHex_toDigits (n : Nat) : IsHex (Nat.toDigits 16 n) := by
  obtain ⟨k, -, -, hspell⟩ := exists_spell (b := 16) (by norm_num) n
  rw [hspell]
  exact isHex_spell k n

lemma hexValue_toDigits (n : Nat) : hexValue (Nat.toDigits 16 n) = n := by
  obtain ⟨k, -, hlt, hspell⟩ := exists_spell (b := 16) (by norm_num) n
  rw [hspell, hexValue_spell, Nat.mod_eq_of_lt hlt]

/-! ### Binary strings -/

lemma lookup_hexToBinMap (hs : IsHex s) :
    ∀ c ∈ s, hexToBinMap.lookup c = some (spell 2 4 ((hexVals.lookup c).getD 0)) := by
  intro c hc
  have hall : ∀ p ∈ hexVals, hexToBinMap.lookup p.1 = some (spell 2 4 p.2) := by decide
  exact hall _ (mem_of_lookup (lookup_hexVals hs c hc))

theorem hexToBin_eq (hs : IsHex s) : hexToBin s = some (spell 2 (s.length * 4) (hexValue s)) := by
  have hbits : s.map (fun c => spell 2 4 ((hexVals.lookup c).getD 0)) =
      (digits s).map fun d => (fixed 2 4 d).map Nat.digitChar := by
    rw [digits, List.map_map]
    rfl
  rw [hexToBin, mapM_eq_some_map (lookup_hexToBinMap hs), Option.map_some, hbits, digits_eq,
    spell, Numeral.fixed_mul (by norm_num), List.map_flatMap, List.flatMap_def]
  norm_num

lemma fourBits_spell (k n : Nat) :
    fourBits (spell 2 (k * 4) n) = (fixed 16 k n).map (spell 2 4) := by
  induction k generalizing n with
  | zero => rfl
  | succ k ih =>
    rw [Nat.succ_mul, Nat.add_comm, spell_append, Numeral.fixed_succ', List.map_cons, ← ih]
    have hmod : spell 2 4 (n / 2 ^ (k * 4)) = spell 2 4 (n / 16 ^ k % 16) := by
      rw [Nat.mul_comm k, Nat.pow_mul]
      exact (spell_mod (by norm_num) 4 _).symm
    rw [hmod]
    rfl

lemma binStrToHexStr_spell_mul (k n : Nat) :
    binStrToHexStr (spell 2 (k * 4) n) = some (spell 16 k n) := by
  have hmap : ∀ g ∈ (fixed 16 k n).map (spell 2 4),
      binToHexMap.lookup g = some (value 2 (digits g)).digitChar := by
    have hall : ∀ d < 16, binToHexMap.lookup (spell 2 4 d) =
        some (value 2 (digits (spell 2 4 d))).digitChar := by decide
    intro g hg
    obtain ⟨d, hd, rfl⟩ := List.mem_map.mp hg
    exact hall d (Numeral.lt_of_mem_fixed (by norm_num) d hd)
  have hback : ∀ d ∈ fixed 16 k n, (value 2 (digits (spell 2 4 d))).digitChar = d.digitChar := by
    have hall : ∀ d < 16, (value 2 (digits (spell 2 4 d))).digitChar = d.digitChar := by decide
    intro d hd
    exact hall d (Numeral.lt_of_mem_fixed (by norm_num) d hd)
  rw [binStrToHexStr, length_spell, Nat.mul_mod_left, if_neg (by simp), fourBits_spell,
    mapM_eq_some_map hmap, List.map_map, spell]
  exact congrArg some (List.map_congr_left hback)

theorem binStrToHexStr_spell (k n : Nat) :
    binStrToHexStr (spell 2 k n) = some (spell 16 (bitwidthHexChars k) (n % 2 ^ k)) := by
  by_cases hmod : k % 4 = 0
  · obtain ⟨j, rfl⟩ : ∃ j, k = j * 4 := ⟨k / 4, by omega⟩
    have hchars : bitwidthHexChars (j * 4) = j := by
      rw [bitwidthHexChars]
      omega
    rw [binStrToHexStr_spell_mul, hchars, Nat.mul_comm j, Nat.pow_mul]
    exact congrArg some (spell_mod (by norm_num) j n).symm
  · have hpad : binStrToHexStr (spell 2 k n) =
        binStrToHexStr (srep (4 - k % 4) ++ spell 2 k n) := by
      have hmul : (srep (4 - k % 4) ++ spell 2 k n).length % 4 = 0 := by
        rw [List.length_append, srep, List.length_replicate, length_spell]
        omega
      rw [binStrToHexStr, length_spell, if_pos hmod, binStrToHexStr, hmul, if_neg (by simp)]
    have hlen : 4 - k % 4 + k = bitwidthHexChars k * 4 := by
      rw [bitwidthHexChars]
      omega
    rw [hpad, srep_append_spell (by norm_num), hlen, binStrToHexStr_spell_mul]

/-! ### Bit widths -/

lemma land_nibbleMask (d bw : Nat) : d &&& nibbleMask bw = d % 2 ^ (bw % 4) := by
  rw [nibbleMask, Nat.one_shiftLeft, Nat.and_two_pow_sub_one_eq_mod]

lemma land_nibbleMask_lt (d bw : Nat) : d &&& nibbleMask bw < 16 := by
  rw [land_nibbleMask]
  have hlt : d % 2 ^ (bw % 4) < 2 ^ (bw % 4) := Nat.mod_lt _ (Nat.two_pow_pos _)
  have hle : 2 ^ (bw % 4) ≤ 2 ^ 4 :=
    Nat.pow_le_pow_right (by norm_num) (Nat.mod_lt bw (by norm_num)).le
  exact hlt.trans_le hle

lemma two_pow_eq (bw : Nat) : 2 ^ bw = 16 ^ (bw / 4) * 2 ^ (bw % 4) := by
  conv_lhs => rw [← Nat.div_add_mod bw 4]
  rw [pow_add, pow_mul]
  norm_num

lemma bitwidthHexChars_pos (hbw : 1 ≤ k) : bitwidthHexChars k ≠ 0 := by
  rw [bitwidthHexChars]
  omega

lemma two_pow_le (bw : Nat) : 2 ^ bw ≤ 16 ^ bitwidthHexChars bw := by
  rw [show (16 : Nat) = 2 ^ 4 by rfl, ← pow_mul]
  refine Nat.pow_le_pow_right (by norm_num) ?_
  rw [bitwidthHexChars]
  omega

lemma fixed_bitwidth (hmod : k % 4 ≠ 0) (n : Nat) :
    fixed 16 (bitwidthHexChars k) n = n / 16 ^ (k / 4) % 16 :: fixed 16 (k / 4) n := by
  rw [show bitwidthHexChars k = k / 4 + 1 by rw [bitwidthHexChars]; omega, Numeral.fixed_succ']

lemma fixed_mod_two_pow (hmod : k % 4 ≠ 0) (n : Nat) :
    fixed 16 (bitwidthHexChars k) (n % 2 ^ k) =
      (n / 16 ^ (k / 4) % 16 &&& nibbleMask k) :: fixed 16 (k / 4) n := by
  have hlow : fixed 16 (k / 4) (n % 2 ^ k) = fixed 16 (k / 4) n := by
    rw [Numeral.fixed_eq_fixed_iff (by norm_num), two_pow_eq, Nat.mod_mul_right_mod]
  have hdvd : 2 ^ (k % 4) ∣ 16 := by
    have hcases : k % 4 = 1 ∨ k % 4 = 2 ∨ k % 4 = 3 := by omega
    rcases hcases with h | h | h <;> rw [h] <;> norm_num
  have hlt : n / 16 ^ (k / 4) % 2 ^ (k % 4) < 16 :=
    (Nat.mod_lt _ (Nat.two_pow_pos _)).trans_le (Nat.le_of_dvd (by norm_num) hdvd)
  rw [fixed_bitwidth hmod, hlow, land_nibbleMask, two_pow_eq, Nat.mod_mul_right_div_self,
    Nat.mod_eq_of_lt hlt, Nat.mod_mod_of_dvd _ hdvd]

lemma fixed_mod_two_pow_of_dvd (hmod : k % 4 = 0) (n : Nat) :
    fixed 16 (bitwidthHexChars k) (n % 2 ^ k) = fixed 16 (bitwidthHexChars k) n := by
  rw [show bitwidthHexChars k = k / 4 by rw [bitwidthHexChars]; omega, two_pow_eq, hmod, pow_zero,
    Nat.mul_one, Numeral.fixed_mod (by norm_num)]

/-! ### `adjust_hex_bitwidth` -/

/-- In lower case. -/
def IsLower (s : List Char) : Prop := ∀ c ∈ s, ((hexVals.lookup c).getD 0).digitChar = c

lemma eq_spell (hs : IsLower s) (hdigits : digits s = fixed 16 k n) : s = spell 16 k n := by
  rw [spell, ← hdigits, digits, List.map_map]
  conv_lhs => rw [← List.map_id s]
  exact List.map_congr_left fun c hc => (hs c hc).symm

lemma isLower_spell (k n : Nat) : IsLower (spell 16 k n) := by
  intro c hc
  obtain ⟨d, hd, rfl⟩ := List.mem_map.mp hc
  rw [lookup_digitChar (Numeral.lt_of_mem_fixed (by norm_num) d hd), Option.getD_some]

@[simp] lemma digits_srep (j : Nat) : digits (srep j) = List.replicate j 0 := by
  simp [digits, srep, hexVals]

lemma hexValue_srep_append (j : Nat) (s : List Char) : hexValue (srep j ++ s) = hexValue s := by
  rw [hexValue, digits_append, digits_srep, Numeral.value_zeros_append, hexValue]

lemma digits_drop (s : List Char) (j : Nat) : digits (s.drop j) = (digits s).drop j := by
  rw [digits, List.map_drop, digits]

lemma digits_take (s : List Char) (j : Nat) : digits (s.take j) = (digits s).take j := by
  rw [digits, List.map_take, digits]

lemma digits_fitChars (hj : j ≠ 0) (s : List Char) :
    digits (fitChars s j) = fixed 16 j (hexValue s) := by
  rw [fitChars]
  split
  case isTrue hlt =>
    obtain ⟨i, hi⟩ := Nat.exists_eq_add_of_le' hlt.le
    rw [ssubLast, if_neg hj, digits_drop, digits_eq, hi, Nat.add_sub_cancel, Numeral.drop_fixed]
  case isFalse hge =>
    split
    case isTrue hlt =>
      rw [digits_append, digits_srep, digits_eq, Numeral.replicate_append_fixed (by norm_num),
        Nat.mod_eq_of_lt (hexValue_lt s), Nat.sub_add_cancel hlt.le]
    case isFalse hge' =>
      rw [digits_eq, show s.length = j by omega]

lemma fitChars_all {P : Char → Prop} (hzero : P '0') (hs : ∀ c ∈ s, P c) :
    ∀ c ∈ fitChars s j, P c := by
  intro c hc
  rw [fitChars, ssubLast] at hc
  split_ifs at hc with hlt hj hgt
  · exact hs c hc
  · exact hs c (List.mem_of_mem_drop hc)
  · rcases List.mem_append.mp hc with hc | hc
    · rw [List.eq_of_mem_replicate hc]
      exact hzero
    · exact hs c hc
  · exact hs c hc

lemma adjustHexBitwidth_eq (hk : 1 ≤ k) (s : List Char) :
    adjustHexBitwidth s k =
      let t := fitChars s (bitwidthHexChars k)
      if k % 4 ≠ 0 then
        let firstVal := (t.head?.bind (hexVals.lookup ·)).getD 0
        if firstVal &&& nibbleMask k ≠ firstVal then
          (firstVal &&& nibbleMask k).digitChar :: t.drop 1
        else t
      else t := by
  have hchars := bitwidthHexChars_pos hk
  have hfit : fitChars s (bitwidthHexChars k) =
      let cut := if bitwidthHexChars k < s.length then ssubLast s (bitwidthHexChars k) else s
      if cut.length < bitwidthHexChars k then
        srep (bitwidthHexChars k - cut.length) ++ cut
      else cut := by
    rw [fitChars]
    by_cases hlt : bitwidthHexChars k < s.length
    · have hlen : (ssubLast s (bitwidthHexChars k)).length = bitwidthHexChars k := by
        rw [ssubLast, if_neg hchars, List.length_drop]
        omega
      simp [hlt, hlen]
    · simp [hlt]
  rw [adjustHexBitwidth, hfit]

lemma adjustHexBitwidth_all {P : Char → Prop} (hk : 1 ≤ k) (hdigit : ∀ d < 16, P d.digitChar)
    (hs : ∀ c ∈ s, P c) : ∀ c ∈ adjustHexBitwidth s k, P c := by
  intro c hc
  have hfit : ∀ c ∈ fitChars s (bitwidthHexChars k), P c :=
    fitChars_all (hdigit 0 (by norm_num)) hs
  rw [adjustHexBitwidth_eq hk] at hc
  dsimp only at hc
  split_ifs at hc
  · rcases List.mem_cons.mp hc with rfl | hc
    · exact hdigit _ (land_nibbleMask_lt _ k)
    · exact hfit c (List.mem_of_mem_drop hc)
  · exact hfit c hc
  · exact hfit c hc

theorem digits_adjustHexBitwidth (hk : 1 ≤ k) (s : List Char) :
    digits (adjustHexBitwidth s k) = fixed 16 (bitwidthHexChars k) (hexValue s % 2 ^ k) := by
  have hfit := digits_fitChars (bitwidthHexChars_pos hk) s
  rw [adjustHexBitwidth_eq hk]
  dsimp only
  generalize fitChars s (bitwidthHexChars k) = t at hfit ⊢
  by_cases hmod : k % 4 = 0
  · rw [if_neg (by simp [hmod]), hfit, fixed_mod_two_pow_of_dvd hmod]
  · rw [if_pos hmod, fixed_mod_two_pow hmod]
    rw [fixed_bitwidth hmod] at hfit
    cases t with
    | nil => simp [digits] at hfit
    | cons c t =>
      obtain ⟨hc, ht⟩ : (hexVals.lookup c).getD 0 = _ ∧ digits t = _ := List.cons_eq_cons.mp hfit
      rw [List.head?_cons, Option.bind_some, hc]
      split_ifs with hne
      · rw [digits, List.map_cons, lookup_digitChar (land_nibbleMask_lt _ k), Option.getD_some,
          List.drop_one, List.tail_cons]
        exact congrArg _ ht
      · rw [not_not.mp hne]
        exact hfit

lemma isHex_adjustHexBitwidth (hk : 1 ≤ k) (hs : IsHex s) : IsHex (adjustHexBitwidth s k) :=
  adjustHexBitwidth_all hk (fun _ hd => by rw [lookup_digitChar hd, Option.isSome_some]) hs

@[simp] lemma length_adjustHexBitwidth (hk : 1 ≤ k) (s : List Char) :
    (adjustHexBitwidth s k).length = bitwidthHexChars k := by
  rw [← length_digits, digits_adjustHexBitwidth hk, Numeral.length_fixed]

lemma hexValue_adjustHexBitwidth (hk : 1 ≤ k) (s : List Char) :
    hexValue (adjustHexBitwidth s k) = hexValue s % 2 ^ k := by
  rw [hexValue_of_digits (digits_adjustHexBitwidth hk s), Nat.mod_eq_of_lt]
  exact (Nat.mod_lt _ (Nat.two_pow_pos k)).trans_le (two_pow_le k)

theorem adjustHexBitwidth_of_isLower (hk : 1 ≤ k) (hs : IsLower s) :
    adjustHexBitwidth s k = spell 16 (bitwidthHexChars k) (hexValue s % 2 ^ k) := by
  refine eq_spell (adjustHexBitwidth_all hk (fun d hd => ?_) hs) (digits_adjustHexBitwidth hk s)
  rw [lookup_digitChar hd, Option.getD_some]

/-- The most significant digit masked by `tonumber` and `string.format`. -/
theorem maskFirstNibble_spell (k n : Nat) :
    maskFirstNibble (spell 16 (bitwidthHexChars k) n) k =
      spell 16 (bitwidthHexChars k) (n % 2 ^ k) := by
  rw [maskFirstNibble]
  by_cases hmod : k % 4 = 0
  · rw [if_neg (by simp [hmod]), spell, spell, fixed_mod_two_pow_of_dvd hmod]
  · rw [if_pos hmod]
    have hfirst : ssub (spell 16 (bitwidthHexChars k) n) 1 1 = spell 16 1 (n / 16 ^ (k / 4)) := by
      rw [spell, fixed_bitwidth hmod]
      rfl
    have hrest : (spell 16 (bitwidthHexChars k) n).drop 1 = spell 16 (k / 4) n := by
      rw [spell, fixed_bitwidth hmod]
      rfl
    rw [hfirst, hrest, tonumber16_eq (isHex_spell _ _) (by simp [spell]), Option.getD_some,
      hexValue_spell, pow_one, spell, spell, fixed_mod_two_pow hmod, List.map_cons,
      Nat.toDigits_of_lt_base (land_nibbleMask_lt _ k), List.singleton_append]

end Verilua.StrBits
