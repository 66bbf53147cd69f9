import Verilua.BitVecs.Writes
import Verilua.StrBits.Chunks

/-!
# Making a vector of bits

Whatever a vector is made from, its beats are the words of the number modulo the power of the width,
and its text has as many digits as the width needs. A vector is made again from its text.
-/

namespace Verilua.BitVecs

open Lua StrBits Word64

variable {J : Jit} {l : List Int} {bv : BitVec} {i j k n w : Nat} {x : Int}

/-! ### The unused bits -/

/-- The words of a number, as beats. -/
def wordBeats (k n : Nat) : List Int := (Words.words 32 k n).map Int.ofNat

@[simp] lemma length_wordBeats (k n : Nat) : (wordBeats k n).length = k := by
  rw [wordBeats, List.length_map, Words.length_words]

lemma areWords_wordBeats (k n : Nat) : AreWords (wordBeats k n) :=
  areWords_ofNat Words.lt_of_mem_words

lemma valueOf_wordBeats (k n : Nat) : valueOf (wordBeats k n) = n % 2 ^ (32 * k) := by
  rw [wordBeats, valueOf_ofNat, Words.value_words]

lemma AreWords.map_toNat (hl : AreWords l) : (l.map Int.toNat).map Int.ofNat = l := by
  rw [List.map_map]
  refine (List.map_congr_left fun x hx => ?_).trans (List.map_id l)
  exact Int.toNat_of_nonneg (hl x hx).1

lemma eq_wordBeats (hl : AreWords l) (hlen : l.length = k) (hvalue : valueOf l = n) :
    l = wordBeats k n := by
  have hwords := Words.eq_words (by rw [List.length_map, hlen]) (lt_of_mem_toNat hl) hvalue
  rw [wordBeats, ← hwords, hl.map_toNat]

lemma isWord_masked (x : Int) (hk : k < 32) :
    IsWord (J.tonumber (J.toULL x &&& ones k)) ∧
      ∀ i, (J.tonumber (J.toULL x &&& ones k)).toNat.testBit i =
        (bit (J.toULL x) i && decide (i < k)) := by
  have hbits : ∀ i, (J.toULL x &&& ones k).toNat.testBit i =
      (bit (J.toULL x) i && decide (i < k)) := by
    intro i
    exact (bit_and _ _ i).trans (by rw [bit_ones (hk.trans (by norm_num))])
  have hlt : (J.toULL x &&& ones k).toNat < 2 ^ 32 := by
    apply Nat.lt_pow_two_of_testBit
    intro i hi
    rw [hbits, decide_eq_false (by omega), Bool.and_false]
  rw [J.tonumber_eq _ (by omega)]
  exact ⟨isWord_natCast hlt, hbits⟩

/-- As many beats as the width needs, and all of them fit save perhaps the last one, of which only
the bits below the width are kept. -/
structure Maskable (l : List Int) (w : Nat) : Prop where
  length_eq : l.length = getBeatSize w
  isWord : ∀ i, (w % 32 = 0 ∨ i + 1 ≠ getBeatSize w) → IsWord (beat l i)

/-- The comment of `_mask_unused_high_bits`. -/
structure BitVec.WellFormed (bv : BitVec) : Prop where
  length_eq : bv.u32Vec.length = bv.beatSize
  areWords : AreWords bv.u32Vec
  unused : ∀ p, bv.bitWidth ≤ p → bv.value.testBit p = false

lemma areWords_of_beat (h : ∀ i, i < l.length → IsWord (beat l i)) : AreWords l := by
  intro x hx
  obtain ⟨i, hi, rfl⟩ := List.mem_iff_getElem.mp hx
  have hbeat := h i hi
  rwa [beat, List.getD_eq_getElem _ _ hi] at hbeat

lemma beat_of_le (hi : l.length ≤ i) : beat l i = 0 := List.getD_eq_default _ _ hi

@[simp] lemma beatSize_mk (l : List Int) (w nr : Nat) :
    BitVec.beatSize ⟨l, w, nr⟩ = getBeatSize w := rfl

lemma maskUnusedHighBits_eq (h : Maskable l w) (nr : Nat) :
    AreWords (BitVec.maskUnusedHighBits J ⟨l, w, nr⟩).u32Vec ∧
      (BitVec.maskUnusedHighBits J ⟨l, w, nr⟩).u32Vec.length = getBeatSize w ∧
      ∀ p, (BitVec.maskUnusedHighBits J ⟨l, w, nr⟩).value.testBit p =
        (decide (p < w) && bit (J.toULL (beat l (p / 32))) (p % 32)) := by
  have hlen := h.length_eq
  by_cases haligned : w % 32 = 0
  · -- nothing is masked, and no beat lies above the width
    have hmask : BitVec.maskUnusedHighBits J ⟨l, w, nr⟩ = ⟨l, w, nr⟩ := by
      rw [BitVec.maskUnusedHighBits]
      dsimp only
      rw [if_pos haligned, ite_self]
    have hwords : AreWords l := areWords_of_beat fun i _ => h.isWord i (.inl haligned)
    rw [hmask]
    refine ⟨hwords, hlen, fun p => ?_⟩
    rw [BitVec.value, testBit_valueOf hwords, bit_toULL (hwords.beat _)]
    by_cases hp : p < w
    · rw [decide_eq_true hp, Bool.true_and]
    · have hout : l.length ≤ p / 32 := by
        rw [hlen, getBeatSize]
        omega
      rw [decide_eq_false hp, beat_of_le hout]
      exact Nat.zero_testBit _
  · have hsize : getBeatSize w ≠ 0 := by
      rw [getBeatSize]
      omega
    have hmask : BitVec.maskUnusedHighBits J ⟨l, w, nr⟩ =
        ⟨setBeat l (getBeatSize w - 1)
          (J.tonumber (J.toULL (beat l (getBeatSize w - 1)) &&& ones (w % 32))), w, nr⟩ := by
      rw [BitVec.maskUnusedHighBits, beatSize_mk]
      dsimp only
      rw [if_neg hsize, if_neg haligned]
    have hbits : w % 32 < 32 := Nat.mod_lt w (by norm_num)
    obtain ⟨hword, htop⟩ := isWord_masked (J := J) (beat l (getBeatSize w - 1)) hbits
    have hlen' : (setBeat l (getBeatSize w - 1)
        (J.tonumber (J.toULL (beat l (getBeatSize w - 1)) &&& ones (w % 32)))).length =
        getBeatSize w := by
      rw [length_setBeat (by omega), hlen]
    have hwords : AreWords (setBeat l (getBeatSize w - 1)
        (J.tonumber (J.toULL (beat l (getBeatSize w - 1)) &&& ones (w % 32)))) := by
      apply areWords_of_beat
      intro i hi
      rw [beat_setBeat]
      split
      case isTrue => exact hword
      case isFalse hne => exact h.isWord i (.inr (by omega))
    rw [hmask]
    refine ⟨hwords, hlen', fun p => ?_⟩
    rw [BitVec.value, testBit_valueOf hwords, beat_setBeat]
    by_cases hp : p / 32 = getBeatSize w - 1
    · have hlt : p % 32 < w % 32 ↔ p < w := by
        rw [getBeatSize] at hp
        omega
      rw [if_pos hp, htop, hp, Bool.and_comm, decide_eq_decide.mpr hlt]
    · have hfit := h.isWord (p / 32) (.inr (by omega))
      rw [if_neg hp, bit_toULL hfit]
      by_cases hlt : p < w
      · rw [decide_eq_true hlt, Bool.true_and]
      · have hout : l.length ≤ p / 32 := by
          rw [getBeatSize] at hp hlen
          omega
        rw [decide_eq_false hlt, beat_of_le hout]
        exact Nat.zero_testBit _

lemma finish_eq (h : Maskable l w) :
    (finish J l w).WellFormed ∧ (finish J l w).bitWidth = w ∧
      (finish J l w).nrU32Vec = getBeatSize w ∧
      ∀ p, (finish J l w).value.testBit p =
        (decide (p < w) && bit (J.toULL (beat l (p / 32))) (p % 32)) := by
  obtain ⟨hwords, hlen, hbits⟩ := maskUnusedHighBits_eq (J := J) h l.length
  have hwidth : (BitVec.maskUnusedHighBits J ⟨l, w, l.length⟩).bitWidth = w := by
    rw [BitVec.maskUnusedHighBits]
    dsimp only
    split_ifs <;> rfl
  have hvalue : ∀ p, (finish J l w).value.testBit p =
      (decide (p < w) && bit (J.toULL (beat l (p / 32))) (p % 32)) := hbits
  refine ⟨?_, hwidth, hlen, hbits⟩
  constructor
  · change _ = getBeatSize (BitVec.maskUnusedHighBits J ⟨l, w, l.length⟩).bitWidth
    rw [hwidth]
    exact hlen
  · exact hwords
  · intro p hp
    have hge : ¬p < w := by
      rw [← hwidth]
      exact not_lt.mpr hp
    rw [hvalue, decide_eq_false hge, Bool.false_and]

lemma finish_wordBeats (w n : Nat) :
    finish J (wordBeats (getBeatSize w) n) w =
      ⟨wordBeats (getBeatSize w) (n % 2 ^ w), w, getBeatSize w⟩ := by
  have hmaskable : Maskable (wordBeats (getBeatSize w) n) w :=
    ⟨length_wordBeats _ _, fun i _ => (areWords_wordBeats _ _).beat i⟩
  obtain ⟨hwell, hwidth, hnr, hbits⟩ := finish_eq (J := J) hmaskable
  have hvalue : (finish J (wordBeats (getBeatSize w) n) w).value = n % 2 ^ w := by
    apply Nat.eq_of_testBit_eq
    intro p
    have hpos : p / 32 * 32 + p % 32 = p := Nat.div_add_mod' p 32
    rw [hbits, bit_beat (areWords_wordBeats _ _) (Nat.mod_lt p (by norm_num)), hpos,
      valueOf_wordBeats, Nat.testBit_mod_two_pow, Nat.testBit_mod_two_pow]
    by_cases hp : p < w
    · have hp' : p < 32 * getBeatSize w := by
        rw [getBeatSize]
        omega
      rw [decide_eq_true hp', Bool.true_and]
    · rw [decide_eq_false hp, Bool.false_and, Bool.false_and]
  have hlen := hwell.length_eq
  rw [BitVec.beatSize, hwidth] at hlen
  have hbeats := eq_wordBeats hwell.areWords hlen hvalue
  generalize finish J (wordBeats (getBeatSize w) n) w = bv at hwidth hnr hbeats
  obtain ⟨u32Vec, bitWidth, nrU32Vec⟩ := bv
  dsimp only at hwidth hnr hbeats
  rw [hwidth, hnr, hbeats]

/-! ### The inputs -/

/-- What denotes the number `n` for a width. -/
def Data.Denotes (w n : Nat) : Data → Prop
  | .table data => AreWords data ∧ data.length ≤ getBeatSize w ∧ valueOf data = n
  | .buffer _ => False
  | .ull data => data.toNat = n
  | .num data => IsWord data ∧ data.toNat = n
  | .str data => data.chars.length ≤ getHexStrLen w ∧ hexValue data.chars = n

lemma valueOf_cons (x : Int) (l : List Int) : valueOf (x :: l) = x.toNat + 2 ^ 32 * valueOf l := by
  rw [valueOf, List.map_cons, Words.value_cons]
  rfl

lemma areWords_zeros (m : Nat) : AreWords (List.replicate m 0) := by
  intro x hx
  rw [List.eq_of_mem_replicate hx]
  decide

lemma valueOf_append_zeros (l : List Int) (m : Nat) :
    valueOf (l ++ List.replicate m 0) = valueOf l := by
  induction l with
  | nil =>
    induction m with
    | zero => rfl
    | succ m ih =>
      rw [List.replicate_succ, List.nil_append, valueOf_cons]
      rw [List.nil_append] at ih
      rw [ih]
      rfl
  | cons x l ih => rw [List.cons_append, valueOf_cons, valueOf_cons, ih]

lemma tableBeats_eq {data : List Int} (hdata : AreWords data) (hlen : data.length ≤ k) :
    tableBeats data k = some (wordBeats k (valueOf data)) := by
  rw [tableBeats, if_neg (not_lt.mpr hlen), Option.some_inj]
  apply eq_wordBeats
  · exact List.forall_mem_append.mpr ⟨hdata, areWords_zeros _⟩
  · rw [List.length_append, List.length_replicate]
    omega
  · exact valueOf_append_zeros _ _

lemma numBeats_eq (hx : IsWord x) (hk : k ≠ 0) : numBeats x k = wordBeats k x.toNat := by
  apply eq_wordBeats
  · intro y hy
    rcases List.mem_cons.mp hy with rfl | hy
    · exact hx
    · exact areWords_zeros _ y hy
  · rw [numBeats, List.length_cons, List.length_replicate]
    omega
  · have hzeros := valueOf_append_zeros [] (k - 1)
    rw [List.nil_append] at hzeros
    rw [numBeats, valueOf_cons, hzeros]
    exact Nat.add_zero _

lemma wordBeats_mod (k n : Nat) : wordBeats k (n % 2 ^ (32 * k)) = wordBeats k n := by
  rw [wordBeats, Words.words_mod, wordBeats]

lemma tonumber_low (u : UInt64) : J.tonumber (u &&& 0xFFFFFFFF) = (u.toNat % 2 ^ 32 : Nat) := by
  have hand : (u &&& 0xFFFFFFFF).toNat = u.toNat % 2 ^ 32 := by
    rw [UInt64.toNat_and]
    exact Nat.and_two_pow_sub_one_eq_mod u.toNat 32
  have hlt : u.toNat % 2 ^ 32 < 2 ^ 32 := Nat.mod_lt _ (by norm_num)
  rw [J.tonumber_eq _ (by omega), hand]

lemma tonumber_high (u : UInt64) : J.tonumber (u >>> 32) = (u.toNat / 2 ^ 32 : Nat) := by
  have hshift : (u >>> 32).toNat = u.toNat / 2 ^ 32 := by
    rw [UInt64.toNat_shiftRight, Nat.shiftRight_eq_div_pow]
    rfl
  have hlt := u.toNat_lt
  rw [J.tonumber_eq _ (by omega), hshift]

lemma ullBeats_eq (u : UInt64) (hk : k ≠ 0) : ullBeats J u k = wordBeats k u.toNat := by
  have hlow : IsWord (u.toNat % 2 ^ 32 : Nat) := isWord_natCast (Nat.mod_lt _ (by norm_num))
  have hlt := u.toNat_lt
  rw [ullBeats, tonumber_low, tonumber_high]
  split
  case isTrue hk2 =>
    apply eq_wordBeats
    · intro x hx
      rcases List.mem_cons.mp hx with rfl | hx
      · exact hlow
      rcases List.mem_cons.mp hx with rfl | hx
      · exact isWord_natCast (by omega)
      · exact areWords_zeros _ x hx
    · rw [List.length_cons, List.length_cons, List.length_replicate]
      omega
    · have hzeros := valueOf_append_zeros [] (k - 2)
      rw [List.nil_append] at hzeros
      rw [valueOf_cons, valueOf_cons, hzeros, Int.toNat_natCast, Int.toNat_natCast]
      exact Nat.mod_add_div u.toNat (2 ^ 32)
  case isFalse hk1 =>
    obtain rfl : k = 1 := by omega
    rw [← wordBeats_mod]
    apply eq_wordBeats
    · intro x hx
      rw [List.mem_singleton.mp hx]
      exact hlow
    · rfl
    · rw [valueOf_cons, Int.toNat_natCast]
      exact Nat.add_zero _

lemma hexBeats_eq (t : HexText) (hlen : t.chars.length ≤ getHexStrLen w) :
    hexBeats t.chars (getHexStrLen w) = some (wordBeats (getBeatSize w) (hexValue t.chars)) := by
  have hchars : (srep (getHexStrLen w - t.chars.length) ++ t.chars).length = getHexStrLen w := by
    rw [List.length_append, srep, List.length_replicate]
    omega
  have hsize : (getHexStrLen w + 7) / 8 = getBeatSize w := by
    rw [getHexStrLen, getBeatSize]
    omega
  rw [hexBeats, if_neg (not_lt.mpr hlen), hexStrToU32Vec_eq (isHex_srep_append _ t.isHex), hchars,
    hsize, hexValue_srep_append, wordBeats]

theorem init_of_denotes {data : Data} (hw : 1 ≤ w) (hdata : data.Denotes w n) :
    BitVec.init J data (some w) =
      some ⟨wordBeats (getBeatSize w) (n % 2 ^ w), w, getBeatSize w⟩ := by
  have hk : getBeatSize w ≠ 0 := by
    rw [getBeatSize]
    omega
  cases data with
  | table data =>
    obtain ⟨hwords, hlen, rfl⟩ := hdata
    rw [BitVec.init, tableBeats_eq hwords hlen, Option.map_some, finish_wordBeats]
  | buffer data => exact hdata.elim
  | ull data =>
    obtain rfl := hdata
    rw [BitVec.init, ullBeats_eq data hk, finish_wordBeats]
  | num data =>
    obtain ⟨hword, rfl⟩ := hdata
    rw [BitVec.init, numBeats_eq hword hk, finish_wordBeats]
  | str data =>
    obtain ⟨hlen, rfl⟩ := hdata
    rw [BitVec.init, hexBeats_eq data hlen, Option.map_some, finish_wordBeats]

theorem updateValue_of_denotes {data : Data}
    (hlen : bv.u32Vec.length = bv.beatSize) (hdata : data.Denotes bv.bitWidth n)
    (hne : data ≠ .table []) :
    bv.updateValue J data = BitVec.init J data (some bv.bitWidth) := by
  cases data with
  | table data =>
    cases data with
    | nil => exact absurd rfl hne
    | cons d data =>
      rw [BitVec.updateValue, BitVec.init, hlen]
      rfl
  | buffer data => exact hdata.elim
  | ull data =>
    rw [BitVec.updateValue, BitVec.init, hlen]
    rfl
  | num data =>
    rw [BitVec.updateValue, BitVec.init, hlen]
    rfl
  | str data => rfl

/-! ### The text of a vector -/

lemma format08x_natCast (hn : n < 2 ^ 32) : format08x n = spell 16 8 n := by
  have hmod : ((n : Int) % 2 ^ 64).toNat = n := by omega
  have hle : (Nat.toDigits 16 n).length ≤ 8 :=
    (Nat.length_toDigits_le_iff (by norm_num) (by norm_num)).mpr (hn.trans_eq (by norm_num))
  rw [format08x, hmod, ← fitChars_toDigits (by norm_num) (by norm_num), fitChars,
    if_neg (not_lt.mpr hle)]
  split
  case isTrue => rfl
  case isFalse hlen =>
    have hnone : 8 - (Nat.toDigits 16 n).length = 0 := by omega
    rw [hnone]
    rfl

lemma map_beat (l : List Int) : (List.range l.length).map (beat l) = l := by
  apply List.ext_getElem
  · rw [List.length_map, List.length_range]
  · intro i hi hi'
    rw [List.getElem_map, List.getElem_range, beat, List.getD_eq_getElem _ _ hi']

lemma toHexStr1_eq (n w k : Nat) : BitVec.toHexStr1 ⟨wordBeats k n, w, k⟩ = spell 16 (8 * k) n := by
  have hbeats : (List.range k).map (beat (wordBeats k n)) = wordBeats k n := by
    have hmap := map_beat (wordBeats k n)
    rwa [length_wordBeats] at hmap
  have htext := flatMap_spell (w := 32) (d := 8) (by norm_num)
    (Words.lt_of_mem_words (w := 32) (k := k) (n := n))
  have hmod : spell 16 (8 * k) (n % 2 ^ (32 * k)) = spell 16 (8 * k) n := by
    apply spell_congr (by norm_num)
    rw [sixteen_pow, ← Nat.mul_assoc, Nat.mod_mod]
  rw [Words.length_words, Words.value_words, hmod] at htext
  rw [BitVec.toHexStr1, List.map_reverse, hbeats, wordBeats, ← List.map_reverse, List.flatMap_map,
    ← htext]
  apply List.flatMap_congr
  intro x hx
  exact format08x_natCast (Words.lt_of_mem_words x (List.mem_reverse.mp hx))

lemma tonumber16_digitChar (hn : n < 16) : tonumber16 [n.digitChar] = some n := by
  have hone : [n.digitChar] = spell 16 1 n := by
    rw [spell_succ, pow_zero, Nat.div_one, spell_zero, Nat.mod_eq_of_lt hn]
  have hhex : IsHex [n.digitChar] := hone ▸ isHex_spell 1 n
  rw [tonumber16_eq hhex (List.cons_ne_nil _ _), hone, hexValue_spell, pow_one, Nat.mod_eq_of_lt hn]

theorem toHexStr_eq (w n : Nat) :
    BitVec.toHexStr ⟨wordBeats (getBeatSize w) n, w, getBeatSize w⟩ =
      spell 16 (getHexStrLen w) (n % 2 ^ w) := by
  have hlong : getHexStrLen w ≤ 8 * getBeatSize w := by
    rw [getHexStrLen, getBeatSize]
    omega
  have hlen : (BitVec.mk (wordBeats (getBeatSize w) n) w (getBeatSize w)).hexStrLen =
      getHexStrLen w := rfl
  have hdrop : (if getHexStrLen w < (spell 16 (8 * getBeatSize w) n).length
      then (spell 16 (8 * getBeatSize w) n).drop
        ((spell 16 (8 * getBeatSize w) n).length - getHexStrLen w)
      else spell 16 (8 * getBeatSize w) n) = spell 16 (getHexStrLen w) n := by
    rw [length_spell]
    split
    case isTrue =>
      obtain ⟨j, hj⟩ := Nat.exists_eq_add_of_le' hlong
      rw [hj, Nat.add_sub_cancel, drop_spell]
    case isFalse hge =>
      rw [le_antisymm hlong (not_lt.mp hge)]
  rw [BitVec.toHexStr, toHexStr1_eq, hlen]
  dsimp only
  rw [hdrop, length_spell]
  split
  case isTrue hrem =>
    have hsucc : getHexStrLen w = w / 4 + 1 := by
      have := hrem.1
      rw [getHexStrLen]
      omega
    have hmask : 2 ^ (w % 4) - 1 = nibbleMask w := by rw [nibbleMask, Nat.one_shiftLeft]
    have hmasked : spell 16 (getHexStrLen w) (n % 2 ^ w) =
        (n / 16 ^ (w / 4) % 16 &&& nibbleMask w).digitChar :: spell 16 (w / 4) n :=
      congrArg (List.map Nat.digitChar) (fixed_mod_two_pow hrem.1 n)
    rw [hmasked, hsucc, spell_succ]
    change Nat.digitChar ((tonumber16 [(n / 16 ^ (w / 4) % 16).digitChar]).getD 0 &&& _) ::
      spell 16 (w / 4) n = _
    rw [tonumber16_digitChar (Nat.mod_lt _ (by norm_num)), Option.getD_some, hmask]
  case isFalse hrem =>
    by_cases hzero : w % 4 = 0
    · exact congrArg (List.map Nat.digitChar) (fixed_mod_two_pow_of_dvd hzero n).symm
    · have hnone : getHexStrLen w = 0 := by
        by_contra hne
        exact hrem ⟨hzero, Nat.pos_of_ne_zero hne⟩
      rw [hnone, spell_zero, spell_zero]

lemma eq_self (bv : BitVec) : bv.eq bv = true := by
  rw [BitVec.eq, List.all_eq_true]
  intro i _
  exact beq_self_eq_true _

/-- Constructor, update and text agree, for every input of a number. -/
theorem init_updateValue_toHexStr (J : Jit) {data : Data} (hw : 1 ≤ w)
    (hdata : data.Denotes w n) :
    ∃ bv, BitVec.init J data (some w) = some bv ∧
      bv.u32Vec = wordBeats ((w + 31) / 32) (n % 2 ^ w) ∧
      (data ≠ .table [] → ∀ old : BitVec, old.bitWidth = w → old.u32Vec.length = (w + 31) / 32 →
        old.updateValue J data = some bv) ∧
      ∃ t : HexText, bv.toHexStr = t.chars ∧ t.chars.length = (w + 3) / 4 ∧
        hexValue t.chars = n % 2 ^ w ∧
        ∃ bv', BitVec.init J (.str t) (some w) = some bv' ∧ bv'.eq bv = true := by
  have hlt : n % 2 ^ w < 2 ^ w := Nat.mod_lt _ (Nat.two_pow_pos w)
  have hinit := init_of_denotes (J := J) hw hdata
  have htext := toHexStr_eq w (n % 2 ^ w)
  rw [Nat.mod_mod] at htext
  have hvalue : hexValue (spell 16 (getHexStrLen w) (n % 2 ^ w)) = n % 2 ^ w := by
    rw [hexValue_spell, sixteen_pow]
    apply Nat.mod_eq_of_lt
    refine hlt.trans_le (Nat.pow_le_pow_right (by norm_num) ?_)
    rw [getHexStrLen]
    omega
  refine ⟨_, hinit, rfl, ?_, ⟨_, isHex_spell _ _⟩, htext, length_spell _ _ _, hvalue, ?_⟩
  · rintro hne old rfl hlen
    rw [updateValue_of_denotes hlen hdata hne, hinit]
  · have hstr := init_of_denotes (J := J) (n := n % 2 ^ w) hw
      (show Data.Denotes w _ (.str ⟨spell 16 (getHexStrLen w) (n % 2 ^ w), isHex_spell _ _⟩) from
        ⟨(length_spell _ _ _).le, hvalue⟩)
    rw [Nat.mod_mod] at hstr
    exact ⟨_, hstr, eq_self _⟩

/-- A list of two words for a width that is a multiple of neither 4 nor 32. -/
theorem init_updateValue_toHexStr_two :
    ∃ bv, BitVec.init .exact (.table [0xFFFFFFFF, 0xFF]) (some 38) = some bv ∧
      bv.u32Vec = wordBeats ((38 + 31) / 32) (0xFFFFFFFFFF % 2 ^ 38) := by
  have hw : 1 ≤ 38 := by decide
  have hdata : Data.Denotes 38 0xFFFFFFFFFF (.table [0xFFFFFFFF, 0xFF]) := by
    refine ⟨by decide, by decide, rfl⟩
  obtain ⟨bv, hinit, hbeats, -⟩ := init_updateValue_toHexStr .exact hw hdata
  exact ⟨bv, hinit, hbeats⟩

/-- An empty list is a zero for the constructor and an error for an update. -/
theorem not_updateValue_empty :
    Data.Denotes 32 0 (.table []) ∧ ∃ bv, BitVec.init .exact (.table []) (some 32) = some bv ∧
      bv.u32Vec = [0] ∧ bv.updateValue .exact (.table []) = none :=
  ⟨⟨by decide, by decide, rfl⟩, _, rfl, by decide, rfl⟩

end Verilua.BitVecs
