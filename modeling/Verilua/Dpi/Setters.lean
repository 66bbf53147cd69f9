import Verilua.Dpi.Getters

/-!
# What the writers store

`SET_HEX_STR` stores a word for every eight characters from the left, so that it is the inverse of
`GET_HEX_STR` only on texts that fill all words but the last one; for a signal of one word it stops
after seven characters. `SET` and `SET64` store their argument without cutting it to the width.
-/

namespace Verilua.DpiExporter

open StrBits (spell IsHex hexValue hexVals hexValue_srep_append)

variable {s : SignalInfo} {f : Writers} {V : Nat} {text t : List Char}

/-- A text that ends with a zero, as the writer finds it in memory. -/
def cString (text : List Char) : Cells Char := Cells.ofList (text ++ ['\x00'])

lemma hexValue_append (t u : List Char) :
    hexValue (t ++ u) = hexValue t * 16 ^ u.length + hexValue u := by
  rw [hexValue, StrBits.digits_append, Numeral.value_append, StrBits.length_digits]
  rfl

/-! ### The loops over the characters -/

lemma shiftDigit_eq (value : UInt32) :
    ∀ p ∈ hexVals, shiftDigit value p.1 = value <<< 4 ||| UInt32.ofNat p.2 := by
  simp only [hexVals, List.forall_mem_cons]
  refine ⟨?_, ?_, ?_, ?_, ?_, ?_, ?_, ?_, ?_, ?_, ?_, ?_, ?_, ?_, ?_, ?_, ?_, ?_, ?_, ?_, ?_, ?_,
    by simp⟩ <;> rfl

lemma ofNat_shiftLeft_or {d : Nat} (hd : d < 16) (n : Nat) :
    UInt32.ofNat n <<< 4 ||| UInt32.ofNat d = UInt32.ofNat (16 * n + d) := by
  apply UInt32.toNat_inj.mp
  have hshift : (UInt32.ofNat n <<< 4).toNat = 2 ^ 4 * (n % 2 ^ 28) := by
    rw [UInt32.toNat_shiftLeft, UInt32.toNat_ofNat', Nat.shiftLeft_eq]
    change n % 2 ^ 32 * 2 ^ 4 % 2 ^ 32 = _
    omega
  rw [UInt32.toNat_or, hshift, UInt32.toNat_ofNat', UInt32.toNat_ofNat',
    Nat.mod_eq_of_lt (hd.trans (by decide : 16 < 2 ^ 32)), ← Nat.two_pow_add_eq_or_of_lt (by omega)]
  omega

lemma shiftDigit_hexValue {c : Char} (hc : (hexVals.lookup c).isSome) (t : List Char) :
    shiftDigit (UInt32.ofNat (hexValue t)) c = UInt32.ofNat (hexValue (t ++ [c])) := by
  obtain ⟨d, hd⟩ := Option.isSome_iff_exists.mp hc
  have hlt := StrBits.digit_lt c
  rw [hd, Option.getD_some] at hlt
  rw [shiftDigit_eq _ _ (StrBits.mem_of_lookup hd), ofNat_shiftLeft_or hlt, hexValue_append]
  simp [hexValue, StrBits.digits, hd, Nat.mul_comm]

lemma not_isSome_zero : (hexVals.lookup '\x00').isSome = false := by decide

lemma readDigits_cString (htext : IsHex text) (n i : Nat) (hi : i ≤ text.length) (t : List Char) :
    readDigits (cString text) n i (UInt32.ofNat (hexValue t)) =
      some (UInt32.ofNat (hexValue (t ++ (text.drop i).take n))) := by
  induction n generalizing i t with
  | zero =>
    rw [readDigits, cString, Cells.ofList]
    rcases Nat.lt_or_eq_of_le hi with hlt | rfl
    · rw [List.getElem?_append_left hlt, List.getElem?_eq_getElem hlt]
      simp
    · simp
  | succ n ih =>
    rw [readDigits, cString, Cells.ofList]
    rcases Nat.lt_or_eq_of_le hi with hlt | rfl
    · have hc : (hexVals.lookup text[i]).isSome := htext _ (List.getElem_mem hlt)
      have hne : text[i] ≠ '\x00' := by
        intro h
        rw [h, not_isSome_zero] at hc
        cases hc
      rw [List.getElem?_append_left hlt, List.getElem?_eq_getElem hlt]
      simp only [if_neg hne]
      rw [shiftDigit_hexValue hc, ← cString, ih (i + 1) hlt, List.append_assoc,
        List.drop_eq_getElem_cons hlt, List.take_succ_cons, List.singleton_append]
    · simp

/-- A character behind the terminator cannot be read. -/
lemma readDigits_beyond (n : Nat) {i : Nat} (hi : text.length < i) (value : UInt32) :
    readDigits (cString text) n i value = none := by
  have hnone : cString text i = none := List.getElem?_eq_none (by simpa using Nat.succ_le_of_lt hi)
  rw [readDigits.eq_def, hnone]

/-! ### Stored words -/

/-- The number that the words spell, the lowest first. -/
def ofWords : List UInt32 → Nat
  | [] => 0
  | w :: ws => w.toNat + 2 ^ 32 * ofWords ws

lemma words_succ (n V : Nat) : words (n + 1) V = UInt32.ofNat V :: words n (V / 2 ^ 32) := by
  simp only [words, List.range_succ_eq_map, List.map_cons, List.map_map, Nat.mul_zero, pow_zero,
    Nat.div_one, List.cons.injEq, true_and]
  apply List.map_congr_left
  intro i _
  simp only [Function.comp_apply, Nat.div_div_eq_div_mul, ← pow_add]
  congr 3
  omega

lemma ofWords_words (n V : Nat) : ofWords (words n V) = V % 2 ^ (32 * n) := by
  induction n generalizing V with
  | zero => simp [words, ofWords, Nat.mod_one]
  | succ n ih =>
    rw [words_succ, ofWords, ih, UInt32.toNat_ofNat', Nat.mul_succ, Nat.add_comm (32 * n), pow_add,
      Nat.mod_mul]

lemma words_mod (n V : Nat) : words n (V % 2 ^ (32 * n)) = words n V := by
  induction n generalizing V with
  | zero => rfl
  | succ n ih =>
    have hpow : 2 ^ (32 * (n + 1)) = 2 ^ 32 * 2 ^ (32 * n) := by
      rw [← pow_add]
      congr 1
      omega
    have hword : UInt32.ofNat (V % (2 ^ 32 * 2 ^ (32 * n))) = UInt32.ofNat V := by
      apply UInt32.toNat_inj.mp
      rw [UInt32.toNat_ofNat', UInt32.toNat_ofNat', Nat.mod_mul_right_mod]
    rw [hpow, words_succ, words_succ, hword, Nat.mod_mul_right_div_self, ih]

lemma words_eq_iff {n M N : Nat} :
    words n M = words n N ↔ M % 2 ^ (32 * n) = N % 2 ^ (32 * n) := by
  constructor
  · intro h
    rw [← ofWords_words, h, ofWords_words]
  · intro h
    rw [← words_mod n M, h, words_mod]

lemma foldlM_setBeat (vs : List UInt32) {m : Nat} {p : Nat → Nat} {y : Nat → UInt32}
    {x : Nat → Option UInt32} (hp : ∀ j < m, p j < vs.length)
    (hinj : ∀ i < m, ∀ j < m, p i = p j → i = j) (hx : ∀ j < m, x j = some (y j)) :
    ∃ ws : List UInt32, (List.range m).foldlM (fun (v : Variable) j => do v.setBeat (p j) (← x j))
        (.beats vs) = some (.beats ws) ∧ ws.length = vs.length ∧
      (∀ j < m, ws[p j]? = some (y j)) ∧ ∀ q, (∀ j < m, p j ≠ q) → ws[q]? = vs[q]? := by
  induction m with
  | zero => exact ⟨vs, rfl, rfl, by simp, by simp⟩
  | succ m ih =>
    obtain ⟨ws, hrun, hlen, hset, hkeep⟩ := ih (fun j hj => hp j (by omega))
      (fun i hi j hj => hinj i (by omega) j (by omega)) (fun j hj => hx j (by omega))
    have hpm : p m < ws.length := by
      rw [hlen]
      exact hp m (by omega)
    refine ⟨ws.set (p m) (y m), ?_, by rw [List.length_set, hlen], ?_, ?_⟩
    · rw [List.range_succ, List.foldlM_append, hrun]
      simp [hx m (by omega), Variable.setBeat, hpm]
    · intro j hj
      by_cases hjm : j = m
      · rw [hjm, List.getElem?_set_self hpm]
      · have hne : p m ≠ p j := fun h => hjm (hinj j hj m (by omega) h.symm)
        rw [List.getElem?_set_ne hne]
        exact hset j (by omega)
    · intro q hq
      rw [List.getElem?_set_ne (hq m (by omega))]
      exact hkeep q fun j hj => hq j (by omega)

lemma eq_words {n V : Nat} {ws : List UInt32} (hlen : ws.length = n)
    (h : ∀ i < n, ws[i]? = some (UInt32.ofNat (V / 2 ^ (32 * i)))) : ws = words n V := by
  apply List.ext_getElem?
  intro i
  by_cases hi : i < n
  · rw [h i hi, getElem?_words hi]
  · rw [List.getElem?_eq_none (by omega), List.getElem?_eq_none (by simpa using hi)]

/-! ### `SET_HEX_STR` -/

/-- The text that the words spell after the writer: the last characters moved up to a full word. -/
def shifted (n : Nat) (text : List Char) : List Char :=
  text.take (8 * n) ++ StrBits.srep (8 - (text.length - 8 * n)) ++ text.drop (8 * n)

section Shifted

variable {n : Nat} (hle : 8 * n ≤ text.length) (hlen : text.length ≤ 8 * (n + 1))

include hle hlen

lemma length_shifted : (shifted n text).length = 8 * (n + 1) := by
  simp only [shifted, StrBits.srep, List.length_append, List.length_take, List.length_drop,
    List.length_replicate]
  omega

lemma hexValue_shifted :
    hexValue (shifted n text) =
      hexValue (text.take (8 * n)) * 16 ^ 8 + hexValue (text.drop (8 * n)) := by
  rw [shifted, List.append_assoc, hexValue_append, hexValue_srep_append, List.length_append,
    StrBits.srep, List.length_replicate, List.length_drop, Nat.sub_add_cancel (by omega)]

lemma hexValue_chunk {j : Nat} (hj : j ≤ n) :
    hexValue (((shifted n text).drop (8 * j)).take 8) = hexValue ((text.drop (8 * j)).take 8) := by
  have htake : (text.take (8 * n)).length = 8 * n := by simp [hle]
  rw [shifted, List.append_assoc]
  rcases Nat.lt_or_eq_of_le hj with hlt | rfl
  · rw [List.drop_append_of_le_length (by omega), List.take_append_of_le_length, List.drop_take,
      List.take_take, Nat.min_eq_left (by omega)]
    rw [List.length_drop]
    omega
  · rw [List.drop_left' htake, List.take_of_length_le, List.take_of_length_le,
      hexValue_srep_append]
    · rw [List.length_drop]
      omega
    · simp only [StrBits.srep, List.length_append, List.length_replicate, List.length_drop]
      omega

end Shifted

lemma word_hexValue {j k : Nat} (ht : t.length = j + 8 + k) :
    UInt32.ofNat (hexValue t / 16 ^ k) = UInt32.ofNat (hexValue ((t.drop j).take 8)) := by
  have hsplit : t = t.take j ++ ((t.drop j).take 8 ++ t.drop (j + 8)) := by
    rw [← List.drop_drop, List.take_append_drop, List.take_append_drop]
  have hword : ((t.drop j).take 8).length = 8 := by
    rw [List.length_take, List.length_drop]
    omega
  have hlast : (t.drop (j + 8)).length = k := by
    rw [List.length_drop]
    omega
  have hlt := StrBits.hexValue_lt (t.drop (j + 8))
  rw [hlast] at hlt
  have hval : hexValue t / 16 ^ k =
      2 ^ 32 * hexValue (t.take j) + hexValue ((t.drop j).take 8) := by
    conv_lhs => rw [hsplit]
    rw [← List.append_assoc, hexValue_append, hexValue_append, hword, hlast, Nat.mul_comm,
      Nat.mul_add_div (Nat.zero_lt_of_lt hlt), Nat.div_eq_of_lt hlt, Nat.add_zero, Nat.mul_comm]
    norm_num
  apply UInt32.toNat_inj.mp
  rw [hval, UInt32.toNat_ofNat', UInt32.toNat_ofNat', Nat.mul_add_mod]

lemma setHexStr_beats (htext : IsHex text) {n : Nat} (hle : 8 * n ≤ text.length)
    (hlen : text.length ≤ 8 * (n + 1)) {vs : List UInt32} (hvs : vs.length = n + 1) :
    (beatWriters (n + 1)).setHexStr (cString text) (.beats vs) =
      some (.beats (words (n + 1) (hexValue (shifted n text)))) := by
  have hread : ∀ j < n + 1, readDigits (cString text) 8 (j * 8) 0 =
      some (UInt32.ofNat (hexValue ((text.drop (8 * j)).take 8))) := fun j hj => by
    rw [Nat.mul_comm j]
    exact readDigits_cString htext 8 (8 * j) (by omega) []
  obtain ⟨ws, hrun, hws, hset, -⟩ := foldlM_setBeat vs (p := fun j => n + 1 - 1 - j)
    (fun j hj => by omega) (fun i hi j hj h => by omega) hread
  have hwords : ws = words (n + 1) (hexValue (shifted n text)) := by
    apply eq_words (hws.trans hvs)
    intro i hi
    have hij : n + 1 - 1 - (n - i) = i := by omega
    have hword := hset (n - i) (by omega)
    rw [hij] at hword
    rw [hword, ← hexValue_chunk hle hlen (Nat.sub_le n i)]
    have hpow : (2 : Nat) ^ (32 * i) = 16 ^ (8 * i) := by
      rw [show 32 = 4 * 8 by norm_num, Nat.mul_assoc, pow_mul]
      norm_num
    rw [hpow, word_hexValue (j := 8 * (n - i))]
    rw [length_shifted hle hlen]
    omega
  rw [← hwords]
  exact hrun

lemma setHexStr_beats_eq_none {n : Nat} (hlt : text.length < 8 * n) (v : Variable) :
    (beatWriters (n + 1)).setHexStr (cString text) v = none := by
  simp only [beatWriters, List.range_succ, List.foldlM_append, List.foldlM_cons,
    readDigits_beyond 8 (show text.length < n * 8 by omega)]
  exact Option.bind_eq_none_iff.mpr fun _ _ => rfl

/-! ### What a variable can hold -/

/-- The bits of the declared variable. -/
def SignalInfo.capacity (s : SignalInfo) : Nat :=
  if s.bitWidth = 1 then 8 else 32 * s.beatSize

lemma bitWidth_le_capacity (s : SignalInfo) : s.bitWidth ≤ s.capacity := by
  rw [SignalInfo.capacity]
  split_ifs with h
  · omega
  · exact bitWidth_le s

lemma holding_eq_iff {M N : Nat} :
    s.holding M = s.holding N ↔ M % 2 ^ s.capacity = N % 2 ^ s.capacity := by
  rw [SignalInfo.holding, SignalInfo.holding, SignalInfo.capacity]
  split_ifs with h₁ h₂ h₃
  · rw [Variable.byte.injEq, ← UInt8.toNat_inj, UInt8.toNat_ofNat', UInt8.toNat_ofNat']
  · rw [Variable.word.injEq, ← UInt32.toNat_inj, UInt32.toNat_ofNat', UInt32.toNat_ofNat', h₁]
  · exact absurd (beatSize_eq_one_iff.mpr (by omega)) h₁
  · rw [Variable.beats.injEq, words_eq_iff]

/-- To hold a number is to hold it modulo `2 ^ bitWidth` if the variable has no higher bit of it. -/
lemma holding_mod_iff {a : Nat} :
    s.holding a = s.holding (a % 2 ^ s.bitWidth) ↔ a % 2 ^ s.capacity < 2 ^ s.bitWidth := by
  have hle : 2 ^ s.bitWidth ≤ 2 ^ s.capacity :=
    Nat.pow_le_pow_right (by norm_num) (bitWidth_le_capacity s)
  have hlt : a % 2 ^ s.bitWidth < 2 ^ s.bitWidth := Nat.mod_lt _ (Nat.two_pow_pos _)
  rw [holding_eq_iff, Nat.mod_eq_of_lt (hlt.trans_le hle)]
  constructor
  · intro h
    rwa [h]
  · intro h
    rw [← Nat.mod_mod_of_dvd a (pow_dvd_pow 2 (bitWidth_le_capacity s)), Nat.mod_eq_of_lt h]

lemma setScalar_holding (h : s.beatSize = 1) (V n : Nat) :
    (s.holding V).setScalar (UInt32.ofNat n) = some (s.holding n) := by
  rw [SignalInfo.holding, SignalInfo.holding, if_pos h, if_pos h]
  split_ifs
  · simp [Variable.setScalar]
  · rfl

lemma clearBeats_beats (start m : Nat) {vs : List UInt32} (h : start + m ≤ vs.length) :
    ∃ ws : List UInt32, clearBeats start m (.beats vs) = some (.beats ws) ∧
      ws.length = vs.length ∧ (∀ j < m, ws[start + j]? = some 0) ∧
      ∀ q < start, ws[q]? = vs[q]? := by
  obtain ⟨ws, hrun, hlen, hset, hkeep⟩ := foldlM_setBeat vs (m := m) (p := fun j => start + j)
    (y := fun _ => 0) (x := fun _ => some 0) (fun j hj => by omega)
    (fun i hi j hj h => by omega) fun j hj => rfl
  exact ⟨ws, hrun, hlen, hset, fun q hq => hkeep q fun j hj => by omega⟩

/-! ### `SET` and `SET64` -/

lemma writers_eq (hf : f ∈ s.writers) :
    f = if s.beatSize = 1 then scalarWriters else beatWriters s.beatSize := by
  rw [SignalInfo.writers] at hf
  split_ifs at hf with hwritable h
  · exact (Option.mem_some_iff.mp hf).symm.trans (by rw [if_pos h])
  · exact (Option.mem_some_iff.mp hf).symm.trans (by rw [if_neg h])
  · exact absurd hf (Option.not_mem_none f)

lemma set_holding (hf : f ∈ s.writers) (V : Nat) (value : UInt32) :
    f.set value (s.holding V) = some (s.holding value.toNat) := by
  rw [writers_eq hf]
  split_ifs with h
  · have hset := setScalar_holding h V value.toNat
    rwa [UInt32.ofNat_toNat] at hset
  · have hpos := beatSize_pos s
    have hlt := value.toNat_lt
    obtain ⟨ws, hclear, hlen, hset, hkeep⟩ := clearBeats_beats 1 (s.beatSize - 1)
      (show _ ≤ ((words s.beatSize V).set 0 value).length by
        rw [List.length_set, length_words]; omega)
    rw [List.length_set, length_words] at hlen
    have hws : ws = words s.beatSize value.toNat := by
      apply eq_words hlen
      intro i hi
      cases i with
      | zero => simp [hkeep 0 Nat.one_pos, hpos]
      | succ i =>
        have hzero : value.toNat / 2 ^ (32 * (i + 1)) = 0 :=
          Nat.div_eq_of_lt (hlt.trans_le (Nat.pow_le_pow_right (by norm_num) (by omega)))
        rw [Nat.add_comm, hset i (by omega), Nat.add_comm, hzero]
        rfl
    rw [holding_beats h, holding_beats h, ← hws, ← hclear]
    simp [beatWriters, Variable.setBeat, hpos]

lemma toUInt32_eq_ofNat (value : UInt64) : value.toUInt32 = UInt32.ofNat value.toNat := by
  apply UInt32.toNat_inj.mp
  rw [UInt64.toNat_toUInt32, UInt32.toNat_ofNat']

lemma toUInt32_and (value : UInt64) :
    (value &&& 0xFFFFFFFF).toUInt32 = UInt32.ofNat value.toNat := by
  apply UInt32.toNat_inj.mp
  have hand := Nat.and_two_pow_sub_one_eq_mod value.toNat 32
  rw [UInt64.toNat_toUInt32, UInt64.toNat_and, UInt32.toNat_ofNat']
  change (value.toNat &&& (2 ^ 32 - 1)) % 2 ^ 32 = _
  rw [hand, Nat.mod_mod]

lemma toUInt32_shiftRight (value : UInt64) :
    (value >>> 32).toUInt32 = UInt32.ofNat (value.toNat / 2 ^ 32) := by
  apply UInt32.toNat_inj.mp
  rw [UInt64.toNat_toUInt32, UInt64.toNat_shiftRight, UInt32.toNat_ofNat']
  change (value.toNat >>> 32) % 2 ^ 32 = _
  rw [Nat.shiftRight_eq_div_pow]

lemma set64_holding (hf : f ∈ s.writers) (V : Nat) (value : UInt64) :
    f.set64 value (s.holding V) = some (s.holding value.toNat) := by
  rw [writers_eq hf]
  split_ifs with h
  · have hset := setScalar_holding h V value.toNat
    rwa [← toUInt32_eq_ofNat] at hset
  · have hpos := beatSize_pos s
    have hlt := value.toNat_lt
    have hone : 1 < s.beatSize := by omega
    obtain ⟨ws, hclear, hlen, hset, hkeep⟩ := clearBeats_beats 2 (s.beatSize - 2)
      (show _ ≤ (((words s.beatSize V).set 0 (value &&& 0xFFFFFFFF).toUInt32).set 1
          (value >>> 32).toUInt32).length by
        rw [List.length_set, List.length_set, length_words]; omega)
    rw [List.length_set, List.length_set, length_words] at hlen
    have hws : ws = words s.beatSize value.toNat := by
      apply eq_words hlen
      intro i hi
      match i with
      | 0 =>
        rw [hkeep 0 Nat.two_pos, List.getElem?_set_ne Nat.one_ne_zero, toUInt32_and]
        simp [hpos]
      | 1 => simp [hkeep 1 Nat.one_lt_two, hone, toUInt32_shiftRight]
      | i + 2 =>
        have hzero : value.toNat / 2 ^ (32 * (i + 2)) = 0 :=
          Nat.div_eq_of_lt (hlt.trans_le (Nat.pow_le_pow_right (by norm_num) (by omega)))
        rw [Nat.add_comm, hset i (by omega), Nat.add_comm, hzero]
        rfl
    rw [holding_beats h, holding_beats h, ← hws, ← hclear]
    simp [beatWriters, Variable.setBeat, hpos, hone]

/-! ### The writers and the readers -/

/-- The text at the front of the cells. -/
def HasText (cells : Cells Char) (text : List Char) : Prop :=
  ∀ i ≤ text.length, cells i = cString text i

/-- The text as `GET_HEX_STR` writes it, in lower case and with zeros in front. -/
def padded (s : SignalInfo) (text : List Char) : List Char :=
  StrBits.srep (coverWith4 s.bitWidth - text.length) ++ text.map Char.toLower

/-- The writers `f` of a signal store what they are given, whatever its variable holds, and the
reader returns the text. -/
structure SettersInvert (s : SignalInfo) (f : Writers) (text : List Char) (value : UInt32)
    (value64 : UInt64) : Prop where
  setHexStr : ∀ V, f.setHexStr (cString text) (s.holding V) = some (s.holding (hexValue text))
  getHexStr : ∀ V, ∃ cells, (do s.getHexStr (← f.setHexStr (cString text) (s.holding V))) =
    some cells ∧ HasText cells (padded s text)
  set : ∀ V, f.set value (s.holding V) = some (s.holding (value.toNat % 2 ^ s.bitWidth))
  set64 : ∀ V, f.set64 value64 (s.holding V) = some (s.holding (value64.toNat % 2 ^ s.bitWidth))

/-- A text for one word has at most seven digits; one for more words fills all of them, save that
it may leave out digits of the last one if the number is not longer than what is left of it. -/
def WordsFilled (s : SignalInfo) (text : List Char) : Prop :=
  if s.beatSize = 1 then text.length ≤ 7 ∨ hexValue text = 0
  else 8 * (s.beatSize - 1) ≤ text.length ∧
    (text.length = 8 * s.beatSize ∨ hexValue text < 16 ^ (text.length - 8 * (s.beatSize - 1)))

lemma map_toLower (htext : IsHex text) :
    text.map Char.toLower = spell 16 text.length (hexValue text) := by
  rw [spell, ← StrBits.digits_eq, StrBits.digits, List.map_map]
  apply List.map_congr_left
  intro c hc
  obtain ⟨d, hd⟩ := Option.isSome_iff_exists.mp (htext c hc)
  have hlower : ∀ p ∈ hexVals, p.1.toLower = p.2.digitChar := by decide
  simp [hd, hlower _ (StrBits.mem_of_lookup hd)]

lemma padded_eq (htext : IsHex text) (hlen : text.length ≤ coverWith4 s.bitWidth) :
    padded s text = spell 16 (coverWith4 s.bitWidth) (hexValue text) := by
  rw [padded, map_toLower htext, StrBits.srep_append_spell (by norm_num),
    Nat.sub_add_cancel hlen, Nat.mod_eq_of_lt (StrBits.hexValue_lt text)]

lemma setHexStr_one (hf : f ∈ s.writers) (h : s.beatSize = 1) (htext : IsHex text) (V : Nat) :
    f.setHexStr (cString text) (s.holding V) = some (s.holding (hexValue (text.take 7))) := by
  have hread : readDigits (cString text) 7 0 0 = some (UInt32.ofNat (hexValue (text.take 7))) :=
    readDigits_cString htext 7 0 (Nat.zero_le _) []
  rw [writers_eq hf, if_pos h, ← setScalar_holding h V]
  exact congrArg (· >>= fun value => (s.holding V).setScalar value) hread

lemma holding_take_iff (h : s.beatSize = 1) (hlen : text.length ≤ coverWith4 s.bitWidth) :
    s.holding (hexValue (text.take 7)) = s.holding (hexValue text) ↔ WordsFilled s text := by
  rw [WordsFilled, if_pos h]
  by_cases hseven : text.length ≤ 7
  · rw [List.take_of_length_le hseven]
    exact iff_of_true rfl (.inl hseven)
  · have hcover := coverWith4_le s
    have height : text.length = 8 := by omega
    have hone : s.bitWidth ≠ 1 := by
      intro hw
      rw [hw] at hlen
      exact hseven (hlen.trans (by decide))
    have hsplit : hexValue text = hexValue (text.take 7) * 16 + hexValue (text.drop 7) := by
      conv_lhs => rw [← List.take_append_drop 7 text, hexValue_append, List.length_drop, height]
      rfl
    have hlt := StrBits.hexValue_lt text
    rw [height] at hlt
    rw [holding_eq_iff, SignalInfo.capacity, if_neg hone, h]
    omega

lemma setHexStr_more_iff (hf : f ∈ s.writers) (h : s.beatSize ≠ 1) (htext : IsHex text)
    (hlen : text.length ≤ coverWith4 s.bitWidth) (V : Nat) :
    f.setHexStr (cString text) (s.holding V) = some (s.holding (hexValue text)) ↔
      WordsFilled s text := by
  have hpos := beatSize_pos s
  have hcover := hlen.trans (coverWith4_le s)
  obtain ⟨n, hn⟩ := Nat.exists_eq_succ_of_ne_zero hpos.ne'
  rw [writers_eq hf, WordsFilled, if_neg h, if_neg h, holding_beats h, holding_beats h, hn,
    Nat.succ_sub_one]
  rw [hn] at hcover
  by_cases hle : 8 * n ≤ text.length
  · obtain ⟨r, hr⟩ := Nat.exists_eq_add_of_le hle
    have hr8 : r ≤ 8 := by omega
    have hdrop : (text.drop (8 * n)).length = r := by
      rw [List.length_drop, hr, Nat.add_sub_cancel_left]
    have hval : hexValue text =
        hexValue (text.take (8 * n)) * 16 ^ r + hexValue (text.drop (8 * n)) := by
      conv_lhs => rw [← List.take_append_drop (8 * n) text, hexValue_append, hdrop]
    have hlow := StrBits.hexValue_lt (text.drop (8 * n))
    have hlt : ∀ t : List Char, t.length ≤ 8 * (n + 1) → hexValue t < 2 ^ (32 * (n + 1)) :=
      fun t ht => by
        rw [show 32 = 4 * 8 by norm_num, Nat.mul_assoc, pow_mul]
        exact (StrBits.hexValue_lt t).trans_le (Nat.pow_le_pow_right (by norm_num) ht)
    rw [hdrop] at hlow
    rw [setHexStr_beats htext hle hcover (length_words _ V), Option.some_inj,
      Variable.beats.injEq, words_eq_iff, Nat.mod_eq_of_lt (hlt _ (length_shifted hle hcover).le),
      Nat.mod_eq_of_lt (hlt _ hcover), hexValue_shifted hle hcover, hval, hr,
      Nat.add_sub_cancel_left]
    generalize hexValue (text.take (8 * n)) = p at *
    generalize hexValue (text.drop (8 * n)) = q at *
    have hpow : p * 16 ^ 8 = p * 16 ^ r ↔ p = 0 ∨ r = 8 := by
      rw [mul_eq_mul_left_iff, or_comm, Nat.pow_right_inj (by decide : 1 < 16), eq_comm (a := r)]
    have hzero : p * 16 ^ r + q < 16 ^ r ↔ p = 0 := by
      constructor
      · intro hlt
        by_contra hp
        have := Nat.le_mul_of_pos_left (16 ^ r) (Nat.pos_of_ne_zero hp)
        omega
      · rintro rfl
        simpa using hlow
    rw [Nat.add_right_cancel_iff, hpow, hzero]
    constructor
    · rintro (hp | rfl)
      · exact ⟨Nat.le_add_right _ _, .inr hp⟩
      · exact ⟨Nat.le_add_right _ _, .inl (by omega)⟩
    · rintro ⟨-, hfull | hp⟩
      · exact .inr (by omega)
      · exact .inl hp
  · rw [setHexStr_beats_eq_none (by omega)]
    exact iff_of_false (by simp) fun hfilled => hle hfilled.1

lemma setHexStr_iff (hf : f ∈ s.writers) (htext : IsHex text)
    (hlen : text.length ≤ coverWith4 s.bitWidth) (V : Nat) :
    f.setHexStr (cString text) (s.holding V) = some (s.holding (hexValue text)) ↔
      WordsFilled s text := by
  by_cases h : s.beatSize = 1
  · rw [setHexStr_one hf h htext, Option.some_inj, holding_take_iff h hlen]
  · exact setHexStr_more_iff hf h htext hlen V

lemma hasText_hexCells_iff {j : Nat} (hV : V < 16 ^ coverWith4 s.bitWidth) :
    HasText (hexCells s (coverWith4 s.bitWidth + j) V) (spell 16 (coverWith4 s.bitWidth) V) ↔
      j = 0 ∨ V = 0 := by
  generalize hc : coverWith4 s.bitWidth = c at *
  have hlow : ∀ i < c, hexCells s (c + j) V i = (spell 16 c (V / 16 ^ j))[i]? := fun i hi => by
    rw [hexCells, hc, Cells.set, Function.update_of_ne hi.ne, Cells.ofList, StrBits.spell_append,
      List.getElem?_append_left (by simpa using hi)]
  have hdiv : V / 16 ^ j = V ↔ j = 0 ∨ V = 0 := by
    constructor
    · intro h
      by_contra hne
      obtain ⟨hj, hpos⟩ := not_or.mp hne
      exact (Nat.div_lt_self (Nat.pos_of_ne_zero hpos) (Nat.one_lt_pow hj (by norm_num))).ne h
    · rintro (rfl | rfl) <;> simp
  rw [← hdiv]
  constructor
  · intro h
    have hspell : spell 16 c (V / 16 ^ j) = spell 16 c V := by
      apply List.ext_getElem?
      intro i
      by_cases hi : i < c
      · have hcell := h i (by simpa using hi.le)
        rwa [hlow i hi, cString, Cells.ofList, List.getElem?_append_left (by simpa using hi)]
          at hcell
      · rw [List.getElem?_eq_none (by simpa using hi), List.getElem?_eq_none (by simpa using hi)]
    have hval := congrArg hexValue hspell
    rwa [StrBits.hexValue_spell, StrBits.hexValue_spell, Nat.mod_eq_of_lt hV,
      Nat.mod_eq_of_lt ((Nat.div_le_self _ _).trans_lt hV)] at hval
  · intro h i hi
    rw [StrBits.length_spell] at hi
    rcases Nat.lt_or_eq_of_le hi with hlt | rfl
    · rw [hlow i hlt, h, cString, Cells.ofList, List.getElem?_append_left (by simpa using hlt)]
    · simp [hexCells, hc, Cells.set, cString, Cells.ofList]

/-- The writers invert the reader exactly if the text fills its words, the reader writes whole
digits (or only zeros), and the numbers fit into the width once they are in the variable. -/
theorem settersInvert_iff {value : UInt32} {value64 : UInt64} (hf : f ∈ s.writers)
    (htext : IsHex text) (hlen : text.length ≤ coverWith4 s.bitWidth)
    (hN : hexValue text < 2 ^ s.bitWidth) :
    SettersInvert s f text value value64 ↔
      WordsFilled s text ∧ (WholeDigits s ∨ hexValue text = 0) ∧
        value.toNat % 2 ^ s.capacity < 2 ^ s.bitWidth ∧
        value64.toNat % 2 ^ s.capacity < 2 ^ s.bitWidth := by
  obtain ⟨j, hstr, hwhole, -⟩ := getHexStr_holding hN
  have hread : HasText (hexCells s (coverWith4 s.bitWidth + j) (hexValue text)) (padded s text) ↔
      WholeDigits s ∨ hexValue text = 0 := by
    rw [padded_eq htext hlen, hasText_hexCells_iff (lt_digits hN), hwhole]
  rw [← hread, ← holding_mod_iff, ← holding_mod_iff]
  constructor
  · rintro ⟨hset, hget, hset32, hset64⟩
    refine ⟨(setHexStr_iff hf htext hlen 0).mp (hset 0), ?_, ?_, ?_⟩
    · obtain ⟨cells, hcells, hastext⟩ := hget 0
      rw [hset 0] at hcells
      rwa [Option.some_inj.mp (hstr.symm.trans hcells)]
    · exact Option.some_inj.mp ((set_holding hf 0 value).symm.trans (hset32 0))
    · exact Option.some_inj.mp ((set64_holding hf 0 value64).symm.trans (hset64 0))
  · rintro ⟨hfilled, hastext, h32, h64⟩
    have hset : ∀ V, f.setHexStr (cString text) (s.holding V) =
        some (s.holding (hexValue text)) :=
      fun V => (setHexStr_iff hf htext hlen V).mpr hfilled
    exact {
      setHexStr := hset
      getHexStr := fun V => ⟨_, by rw [hset V]; exact hstr, hastext⟩
      set := fun V => by rw [set_holding hf, h32]
      set64 := fun V => by rw [set64_holding hf, h64] }

theorem settersInvert_two_words :
    SettersInvert (sampleSignal 64 (by decide)) (beatWriters 2) "00000001000000fF".toList 5 7 :=
  (settersInvert_iff rfl (by decide) (by decide) (by decide +kernel)).mpr
    ⟨⟨by decide, .inl (by decide)⟩, .inl (.inl (by decide)), by decide, by decide⟩

/-- The eighth digit of a word is not read. -/
theorem not_settersInvert :
    ¬ ∀ (s : SignalInfo) (f : Writers) (text : List Char) (value : UInt32) (value64 : UInt64),
      f ∈ s.writers → IsHex text → text ≠ [] → text.length ≤ coverWith4 s.bitWidth →
      hexValue text < 2 ^ s.bitWidth → SettersInvert s f text value value64 := by
  intro h
  have hset := (h (sampleSignal 32 (by decide)) scalarWriters "12345678".toList 0 0 rfl
    (by decide) (by decide) (by decide) (by decide +kernel)).setHexStr 0
  have hrun : scalarWriters.setHexStr (cString "12345678".toList)
      ((sampleSignal 32 (by decide)).holding 0) = some (.word 0x1234567) := by
    decide +kernel
  rw [hrun] at hset
  exact absurd hset (by decide +kernel)

end Verilua.DpiExporter
