import Verilua.Dpi.Basic
import Verilua.Lib.Words
import Verilua.StrBits.Digits

/-!
# What the readers return

`GET`, `GET64` and `GET_VEC` return the value of the signal. `GET_HEX_STR` writes the digits of every
beat; with more than two beats it always writes eight of them, so that its text is right exactly if
the highest beat has eight digits, or seven in a signal that is zero.
-/

namespace Verilua.DpiExporter

open StrBits (spell IsHex hexValue)

variable {s : SignalInfo} {V : Nat}

/-! ### Beats -/

@[simp] lemma length_words (n V : Nat) : (words n V).length = n := by simp [words]

lemma getElem?_words {n i : Nat} (hi : i < n) (V : Nat) :
    (words n V)[i]? = some (UInt32.ofNat (V / 2 ^ (32 * i))) := by
  simp [words, hi]

lemma beatSize_pos (s : SignalInfo) : 0 < s.beatSize := by
  have := s.bitWidth_pos
  simp only [SignalInfo.beatSize, coverWith32]
  omega

lemma beatSize_eq_one_iff : s.beatSize = 1 ↔ s.bitWidth ≤ 32 := by
  have := s.bitWidth_pos
  simp only [SignalInfo.beatSize, coverWith32]
  omega

lemma bitWidth_le (s : SignalInfo) : s.bitWidth ≤ 32 * s.beatSize := by
  simp only [SignalInfo.beatSize, coverWith32]
  omega

lemma bitWidth_le_digits (s : SignalInfo) : s.bitWidth ≤ 4 * coverWith4 s.bitWidth := by
  simp only [coverWith4]
  omega

lemma lt_digits (hV : V < 2 ^ s.bitWidth) : V < 16 ^ coverWith4 s.bitWidth := by
  rw [show 16 = 2 ^ 4 by norm_num, ← pow_mul]
  exact hV.trans_le (Nat.pow_le_pow_right (by norm_num) (bitWidth_le_digits s))

lemma coverWith4_le (s : SignalInfo) : coverWith4 s.bitWidth ≤ 8 * s.beatSize := by
  simp only [SignalInfo.beatSize, coverWith4, coverWith32]
  omega

lemma lt_coverWith4 (s : SignalInfo) : 8 * (s.beatSize - 1) < coverWith4 s.bitWidth := by
  have := s.bitWidth_pos
  simp only [SignalInfo.beatSize, coverWith4, coverWith32]
  omega

lemma holding_beats (h : s.beatSize ≠ 1) (V : Nat) : s.holding V = .beats (words s.beatSize V) :=
  if_neg h

lemma beat_holding (h : s.beatSize ≠ 1) {i : Nat} (hi : i < s.beatSize) (V : Nat) :
    (s.holding V).beat i = some (UInt32.ofNat (V / 2 ^ (32 * i))) := by
  rw [holding_beats h]
  exact getElem?_words hi V

lemma scalar_holding (h : s.beatSize = 1) (hV : V < 2 ^ s.bitWidth) :
    (s.holding V).scalar = some (UInt32.ofNat V) := by
  rw [SignalInfo.holding, if_pos h]
  split_ifs with hw
  · rw [hw] at hV
    have hcases : V = 0 ∨ V = 1 := by omega
    rcases hcases with rfl | rfl <;> rfl
  · rfl

/-! ### Digits -/

lemma toNat_shiftRight_four (value : UInt32) : (value >>> 4).toNat = value.toNat / 16 := by
  simp [UInt32.toNat_shiftRight, Nat.shiftRight_eq_div_pow]

lemma toNat_and_fifteen (value : UInt32) : (value &&& 0xF).toNat = value.toNat % 16 := by
  simpa using Nat.and_two_pow_sub_one_eq_mod value.toNat 4

lemma hexAlphabet_getD {d : Nat} (hd : d < 16) : hexAlphabet.getD d '\x00' = d.digitChar := by
  revert d
  decide

lemma digitLoop_hexStr (lo n : Nat) (σ : HexState) :
    (digitLoop lo n σ).hexStr = σ.hexStr.write lo (spell 16 n σ.value.toNat) := by
  induction n generalizing σ with
  | zero => simp [digitLoop]
  | succ n ih =>
    have hdigit : σ.value.toNat % 16 < 16 := Nat.mod_lt _ (by decide)
    have hconcat := Cells.write_concat σ.hexStr lo (spell 16 n (σ.value.toNat / 16))
      (σ.value.toNat % 16).digitChar
    rw [StrBits.length_spell] at hconcat
    rw [digitLoop, ih, toNat_shiftRight_four, toNat_and_fifteen, hexAlphabet_getD hdigit, hconcat]
    simp [spell, Numeral.fixed_succ]

lemma run_load_digits {v : Variable} (load : Variable → Option UInt32) {n : Nat}
    (hload : load v = some (UInt32.ofNat n)) (hi lo : Nat) {k : Nat} (hk : hi + 1 - lo = k) (hk8 : k ≤ 8)
    (σ : HexState) (rest : List HexStmt) :
    ∃ value, (HexStmt.load load :: HexStmt.digits hi lo :: rest).foldlM (HexStmt.run v) σ =
      rest.foldlM (HexStmt.run v) { value, hexStr := σ.hexStr.write lo (spell 16 k n) } := by
  have hpow : (16 : Nat) ^ k ∣ 2 ^ 32 := by
    rw [show (2 : Nat) ^ 32 = 16 ^ 8 by norm_num]
    exact pow_dvd_pow 16 hk8
  have hspell : spell 16 k (UInt32.ofNat n).toNat = spell 16 k n := by
    apply StrBits.spell_congr (by decide)
    rw [UInt32.toNat_ofNat', Nat.mod_mod_of_dvd n hpow]
  refine ⟨(digitLoop lo k { σ with value := UInt32.ofNat n }).value, ?_⟩
  have hstr := digitLoop_hexStr lo k { σ with value := UInt32.ofNat n }
  rw [hspell] at hstr
  simp [HexStmt.run, hload, hk, ← hstr]

lemma run_beatLoops (h : s.beatSize ≠ 1) (V : Nat) {n j : Nat} (hn : n + j = s.beatSize)
    (σ : HexState) (rest : List HexStmt) :
    ∃ value, (beatLoops n j ++ rest).foldlM (HexStmt.run (s.holding V)) σ =
      rest.foldlM (HexStmt.run (s.holding V))
        { value, hexStr := σ.hexStr.write 0 (spell 16 (n * 8) (V / 2 ^ (32 * j))) } := by
  induction n generalizing j σ with
  | zero => exact ⟨σ.value, by simp [beatLoops]⟩
  | succ n ih =>
    have hload : (s.holding V).beat j = some (UInt32.ofNat (V / 2 ^ (32 * j))) :=
      beat_holding h (by omega) V
    have hpow : V / 2 ^ (32 * j) / 16 ^ 8 = V / 2 ^ (32 * (j + 1)) := by
      rw [Nat.div_div_eq_div_mul, show (16 : Nat) ^ 8 = 2 ^ 32 by norm_num, ← pow_add]
      rfl
    obtain ⟨value, hbeat⟩ := run_load_digits (·.beat j) hload ((n + 1) * 8 - 1) (n * 8)
      (k := 8) (by omega) le_rfl σ (beatLoops n (j + 1) ++ rest)
    obtain ⟨value', hrest⟩ := ih (j := j + 1) (by omega)
      { value, hexStr := σ.hexStr.write (n * 8) (spell 16 8 (V / 2 ^ (32 * j))) }
    refine ⟨value', ?_⟩
    rw [beatLoops, List.cons_append, List.cons_append, hbeat, hrest, ← hpow]
    -- the digits of the higher beats stand in front of those of this one
    have happend := Cells.write_append σ.hexStr 0 (spell 16 (n * 8) (V / 2 ^ (32 * j) / 16 ^ 8))
      (spell 16 8 (V / 2 ^ (32 * j)))
    rw [StrBits.length_spell, Nat.zero_add, ← StrBits.spell_append] at happend
    rw [happend, Nat.add_mul, Nat.one_mul]

/-- What the reader leaves in the buffer, when its loops write `k` digits. -/
def hexCells (s : SignalInfo) (k V : Nat) : Cells Char :=
  (Cells.ofList (spell 16 k V)).set (coverWith4 s.bitWidth) '\x00'

lemma getHexStr_one (h : s.beatSize = 1) (hV : V < 2 ^ s.bitWidth) :
    s.getHexStr (s.holding V) = some (hexCells s (coverWith4 s.bitWidth) V) := by
  have hcover := lt_coverWith4 s
  have hle := coverWith4_le s
  obtain ⟨value, hrun⟩ := run_load_digits _ (scalar_holding h hV) (coverWith4 s.bitWidth - 1) 0
    (k := coverWith4 s.bitWidth) (by omega) (by omega) ⟨0, Cells.empty⟩
    [.terminate (coverWith4 s.bitWidth)]
  rw [SignalInfo.getHexStr, SignalInfo.hexStmts, if_pos h, hrun]
  simp [HexStmt.run, hexCells]

lemma getHexStr_two (h : s.beatSize = 2) (V : Nat) :
    s.getHexStr (s.holding V) = some (hexCells s (coverWith4 s.bitWidth) V) := by
  have hcover := lt_coverWith4 s
  have hle := coverWith4_le s
  have hne : s.beatSize ≠ 1 := by omega
  obtain ⟨c, hc⟩ := Nat.exists_eq_add_of_le' (show 8 ≤ coverWith4 s.bitWidth by omega)
  obtain ⟨value, hlow⟩ := run_load_digits (·.beat 0) (beat_holding hne (by omega) V)
    (8 + c - 1) c (k := 8) (by omega) le_rfl ⟨0, Cells.empty⟩
    [.load (·.beat 1), .digits (c - 1) 0, .terminate (c + 8)]
  obtain ⟨value', hhigh⟩ := run_load_digits (·.beat 1) (beat_holding hne (by omega) V)
    (c - 1) 0 (k := c) (by omega) (by omega)
    ⟨value, Cells.empty.write c (spell 16 8 (V / 2 ^ (32 * 0)))⟩ [.terminate (c + 8)]
  -- the digits of the higher beat stand in front of those of the lower one
  have happend : (Cells.empty.write c (spell 16 8 V)).write 0 (spell 16 c (V / 4294967296)) =
      Cells.ofList (spell 16 (c + 8) V) := by
    have h := Cells.write_append Cells.empty 0 (spell 16 c (V / 4294967296)) (spell 16 8 V)
    rw [StrBits.length_spell, Nat.zero_add, Cells.write_empty] at h
    rw [h]
    exact congrArg _ (StrBits.spell_append 16 c 8 V).symm
  rw [SignalInfo.getHexStr, SignalInfo.hexStmts, if_neg hne, if_pos h, hc, Nat.add_sub_cancel,
    hlow, hhigh, hexCells, hc]
  simp [HexStmt.run, happend]

lemma getHexStr_more (h : 2 < s.beatSize) (V : Nat) :
    s.getHexStr (s.holding V) = some (hexCells s (s.beatSize * 8) V) := by
  have hne : s.beatSize ≠ 1 := by omega
  obtain ⟨value, hrun⟩ := run_beatLoops hne V (n := s.beatSize) (j := 0) rfl ⟨0, Cells.empty⟩
    [.terminate (coverWith4 s.bitWidth)]
  rw [SignalInfo.getHexStr, SignalInfo.hexStmts, if_neg hne, if_neg (by omega), hrun]
  simp [HexStmt.run, hexCells]

/-! ### The readers return the value -/

/-- Of the `c + j` digits that were written, the terminator leaves `c`. -/
lemma exists_text_iff {c j : Nat} (hV : V < 16 ^ c) :
    (∃ text, IsHex text ∧ text.length = c ∧ hexValue text = V ∧
      (Cells.ofList (spell 16 (c + j) V)).set c '\x00' = Cells.ofList (text ++ ['\x00'])) ↔
    j = 0 ∨ j = 1 ∧ V = 0 := by
  cases j with
  | zero =>
    refine iff_of_true ⟨spell 16 c V, StrBits.isHex_spell c V, StrBits.length_spell 16 c V, ?_, ?_⟩
      (.inl rfl)
    · rw [StrBits.hexValue_spell, Nat.mod_eq_of_lt hV]
    · have h := Cells.set_ofList_length (spell 16 c V) '\x00'
      rwa [StrBits.length_spell] at h
  | succ j =>
    have hlen : c < (spell 16 (c + (j + 1)) V).length := by
      rw [StrBits.length_spell]
      omega
    have hset : (spell 16 (c + (j + 1)) V).set c '\x00' =
        spell 16 c (V / 16 ^ (j + 1)) ++ '\x00' :: spell 16 j V := by
      rw [List.set_eq_take_append_cons_drop, if_pos hlen, StrBits.take_spell,
        show c + (j + 1) = c + 1 + j by omega, StrBits.drop_spell]
    have hdiv : V / 16 ^ (j + 1) < 16 ^ c := (Nat.div_le_self _ _).trans_lt hV
    simp only [Cells.set_ofList hlen, Cells.ofList_inj, hset]
    constructor
    · rintro ⟨text, -, htext, hval, heq⟩
      obtain ⟨rfl, hrest⟩ := List.append_inj heq (by rw [StrBits.length_spell, htext])
      have hj : j = 0 := by simpa using congrArg List.length hrest
      rw [StrBits.hexValue_spell, Nat.mod_eq_of_lt hdiv] at hval
      have hzero : V = 0 := by
        by_contra hne
        have hbase : 1 < 16 ^ (j + 1) := Nat.one_lt_pow (Nat.succ_ne_zero j) (by norm_num)
        exact (Nat.div_lt_self (Nat.pos_of_ne_zero hne) hbase).ne hval
      exact .inr ⟨by omega, hzero⟩
    · rintro (h | ⟨hj, rfl⟩)
      · exact absurd h (Nat.succ_ne_zero j)
      · obtain rfl : j = 0 := by omega
        refine ⟨spell 16 c 0, StrBits.isHex_spell c 0, StrBits.length_spell 16 c 0, ?_, by simp⟩
        simp [StrBits.hexValue_spell]

/-- The four readers of a signal that holds `V` return `V`; the text ends the buffer. -/
structure GettersRight (s : SignalInfo) (V : Nat) : Prop where
  get : (s.get (s.holding V)).map UInt32.toNat = some (V % 2 ^ 32)
  get64 : (s.get64 (s.holding V)).map UInt64.toNat = some (V % 2 ^ 64)
  getVec : ∀ read ∈ s.getVec, read (s.holding V) = some (words s.beatSize V)
  getHexStr : ∃ text, IsHex text ∧ text.length = coverWith4 s.bitWidth ∧ hexValue text = V ∧
    s.getHexStr (s.holding V) = some (Cells.ofList (text ++ ['\x00']))

/-- The loops of `GET_HEX_STR` write no more digits than the signal has. -/
def WholeDigits (s : SignalInfo) : Prop :=
  s.bitWidth ≤ 64 ∨ s.bitWidth % 32 = 0 ∨ 29 ≤ s.bitWidth % 32

/-- With more than two beats the highest one must have eight digits, or seven if the value is
zero. -/
def HexReadable (s : SignalInfo) (V : Nat) : Prop :=
  WholeDigits s ∨ 25 ≤ s.bitWidth % 32 ∧ V = 0

lemma get_holding (hV : V < 2 ^ s.bitWidth) :
    (s.get (s.holding V)).map UInt32.toNat = some (V % 2 ^ 32) := by
  rw [SignalInfo.get]
  split_ifs with h
  · rw [scalar_holding h hV, Option.map_some, UInt32.toNat_ofNat']
  · rw [beat_holding h (beatSize_pos s), Option.map_some, UInt32.toNat_ofNat', Nat.mul_zero,
      pow_zero, Nat.div_one]

lemma get64_holding (hV : V < 2 ^ s.bitWidth) :
    (s.get64 (s.holding V)).map UInt64.toNat = some (V % 2 ^ 64) := by
  rw [SignalInfo.get64]
  split_ifs with h
  · have hle := beatSize_eq_one_iff.mp h
    have hlt : V < 2 ^ 32 := hV.trans_le (Nat.pow_le_pow_right (by norm_num) hle)
    rw [scalar_holding h hV]
    simp only [Option.map_some, UInt32.toNat_toUInt64, UInt32.toNat_ofNat']
    rw [Nat.mod_eq_of_lt hlt, Nat.mod_eq_of_lt (hlt.trans (by decide : 2 ^ 32 < 2 ^ 64))]
  · have hpos := beatSize_pos s
    rw [beat_holding h (by omega), beat_holding h (by omega)]
    simp only [Option.bind_eq_bind, Option.bind_some, Option.pure_def, Option.map_some,
      Words.toNat_shiftLeft_or, UInt32.toNat_ofNat', Nat.mul_zero, pow_zero, Nat.div_one, Nat.mul_one]
    congr 1
    omega

lemma getVec_holding {read : Variable → Option (List UInt32)} (h : read ∈ s.getVec) :
    read (s.holding V) = some (words s.beatSize V) := by
  rw [SignalInfo.getVec] at h
  split_ifs at h with hone
  · exact absurd h (Option.not_mem_none read)
  · obtain rfl := Option.mem_some_iff.mp h
    rw [words]
    apply StrBits.mapM_eq_some_map
    intro i hi
    exact beat_holding hone (List.mem_range.mp hi) V

/-- The text has `j` digits too many. -/
lemma getHexStr_holding (hV : V < 2 ^ s.bitWidth) :
    ∃ j, s.getHexStr (s.holding V) = some (hexCells s (coverWith4 s.bitWidth + j) V) ∧
      (WholeDigits s ↔ j = 0) ∧ (HexReadable s V ↔ j = 0 ∨ j = 1 ∧ V = 0) := by
  have hpos := s.bitWidth_pos
  have hcover := coverWith4_le s
  by_cases hmore : 2 < s.beatSize
  · refine ⟨s.beatSize * 8 - coverWith4 s.bitWidth, ?_, ?_⟩
    · rw [getHexStr_more hmore, Nat.add_sub_cancel' (by omega)]
    · simp only [HexReadable, WholeDigits, SignalInfo.beatSize, coverWith4, coverWith32]
        at hmore hcover ⊢
      omega
  · have hwhole : WholeDigits s := by
      have := bitWidth_le s
      exact .inl (by omega)
    refine ⟨0, ?_, iff_of_true hwhole rfl, iff_of_true (.inl hwhole) (.inl rfl)⟩
    by_cases hone : s.beatSize = 1
    · exact getHexStr_one hone hV
    · have := beatSize_pos s
      exact getHexStr_two (by omega) V

/-- The readers are right exactly if the loops of `GET_HEX_STR` write the digits of the signal and
no more, save for the digit under the terminator of a zero. -/
theorem gettersRight_iff (hV : V < 2 ^ s.bitWidth) : GettersRight s V ↔ HexReadable s V := by
  obtain ⟨j, hstr, -, hiff⟩ := getHexStr_holding hV
  rw [hiff, ← exists_text_iff (lt_digits hV)]
  constructor
  · rintro ⟨-, -, -, text, hhex, hlen, hval, htext⟩
    exact ⟨text, hhex, hlen, hval, Option.some_inj.mp (hstr.symm.trans htext)⟩
  · rintro ⟨text, hhex, hlen, hval, htext⟩
    exact {
      get := get_holding hV
      get64 := get64_holding hV
      getVec := fun _ hread => getVec_holding hread
      getHexStr := ⟨text, hhex, hlen, hval, hstr.trans (congrArg some htext)⟩ }

/-- `top.data` of `bitWidth` bits. -/
def sampleSignal (bitWidth : Nat) (h : 0 < bitWidth) : SignalInfo where
  hierPath := "top.data".toList
  vpiTypeStr := "vpiReg".toList
  bitWidth := bitWidth
  handleId := 0
  isWritable := true
  bitWidth_pos := h

theorem gettersRight_forty_bits : GettersRight (sampleSignal 40 (by decide)) 0xab :=
  (gettersRight_iff (by decide)).mpr (.inl (.inl (by decide)))

/-- A signal of 65 bits has 17 digits, and 24 are written. -/
theorem not_gettersRight :
    ¬ ∀ (s : SignalInfo) (V : Nat), V < 2 ^ s.bitWidth → GettersRight s V := by
  intro h
  obtain ⟨text, -, hlen, -, htext⟩ := (h (sampleSignal 65 (by decide)) 1 (by decide)).getHexStr
  have hbeyond : ((sampleSignal 65 (by decide)).getHexStr
      ((sampleSignal 65 (by decide)).holding 1)).map (· 23) = some (some '1') := by
    decide +kernel
  have hnone : (text ++ ['\x00'])[23]? = none := by
    apply List.getElem?_eq_none
    rw [List.length_append, hlen]
    decide
  rw [htext, Option.map_some, Cells.ofList, hnone] at hbeyond
  cases hbeyond

end Verilua.DpiExporter

