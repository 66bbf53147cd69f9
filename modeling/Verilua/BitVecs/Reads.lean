import Mathlib.Data.List.Basic
import Verilua.BitVecs.Basic

/-!
# Reading a field of bits

The value of a vector is the number whose words are its beats. A field is read beat by beat, and
every round of the loop adds the bits of its beat. A longer field is read word by word.
-/

namespace Verilua.BitVecs

open Lua StrBits Word64

variable {J : Jit} {l : List Int} {s e i j k n p : Nat} {x : Int} {u v : UInt64}

/-! ### Words -/

/-- A number that fits into a beat. -/
def IsWord (x : Int) : Prop := 0 ≤ x ∧ x < 2 ^ 32

instance (x : Int) : Decidable (IsWord x) := inferInstanceAs (Decidable (_ ∧ _))

/-- All beats fit. -/
def AreWords (l : List Int) : Prop := ∀ x ∈ l, IsWord x

instance (l : List Int) : Decidable (AreWords l) := List.decidableBAll _ l

/-- The number that the beats make up. -/
def valueOf (l : List Int) : Nat := Words.value 32 (l.map Int.toNat)

lemma IsWord.toNat_lt (hx : IsWord x) : x.toNat < 2 ^ 32 := by
  have hlt := hx.2
  omega

lemma isWord_natCast (hn : n < 2 ^ 32) : IsWord n := ⟨Int.natCast_nonneg n, by exact_mod_cast hn⟩

lemma AreWords.beat (hl : AreWords l) (i : Nat) : IsWord (beat l i) := by
  rw [BitVecs.beat]
  by_cases hi : i < l.length
  · rw [List.getD_eq_getElem _ _ hi]
    exact hl _ (List.getElem_mem hi)
  · rw [List.getD_eq_default _ _ (not_lt.mp hi)]
    exact isWord_natCast (by norm_num)

lemma lt_of_mem_toNat (hl : AreWords l) : ∀ y ∈ l.map Int.toNat, y < 2 ^ 32 := by
  intro y hy
  obtain ⟨x, hx, rfl⟩ := List.mem_map.mp hy
  exact (hl x hx).toNat_lt

lemma testBit_valueOf (hl : AreWords l) (p : Nat) :
    (valueOf l).testBit p = (beat l (p / 32)).toNat.testBit (p % 32) := by
  have hget : (l.map Int.toNat).getD (p / 32) 0 = (beat l (p / 32)).toNat :=
    List.getD_map l 0 Int.toNat
  rw [valueOf, Words.testBit_value (by norm_num) (lt_of_mem_toNat hl), hget]

/-- Bit `k` of beat `j`. -/
lemma testBit_beat (hl : AreWords l) (hk : k < 32) :
    (beat l j).toNat.testBit k = (valueOf l).testBit (j * 32 + k) := by
  have hdiv : (j * 32 + k) / 32 = j := by omega
  have hmod : (j * 32 + k) % 32 = k := by omega
  rw [testBit_valueOf hl, hdiv, hmod]

lemma bit_toULL (hx : IsWord x) (k : Nat) : bit (J.toULL x) k = x.toNat.testBit k := by
  obtain ⟨n, rfl⟩ := Int.eq_ofNat_of_zero_le hx.1
  have hn : n < 2 ^ 32 := by exact_mod_cast hx.2
  rw [bit, Jit.toNat_toULL (hn.trans (by norm_num)), Int.toNat_natCast]

lemma bit_toULL_of_le (hx : IsWord x) (hk : 32 ≤ k) : bit (J.toULL x) k = false := by
  rw [bit_toULL hx]
  exact Nat.testBit_lt_two_pow (hx.toNat_lt.trans_le (Nat.pow_le_pow_right (by norm_num) hk))

lemma bit_beat (hl : AreWords l) (hk : k < 32) :
    bit (J.toULL (beat l j)) k = (valueOf l).testBit (j * 32 + k) := by
  rw [bit_toULL (hl.beat j), testBit_beat hl hk]

lemma bit_word (k : Nat) : bit 0xFFFFFFFF k = decide (k < 32) :=
  Nat.testBit_two_pow_sub_one 32 k

/-! ### Reading -/

/-- The bits of beat `j` that lie in the field, at their places in the field. -/
def fieldBit (l : List Int) (s e j i : Nat) : Bool :=
  decide ((s + i) / 32 = j ∧ i ≤ e - s) && (valueOf l).testBit (s + i)

lemma bit_readBeat (hl : AreWords l) (hsize : e - s ≤ 63) (hcross : s / 32 ≠ e / 32)
    (hj : s / 32 ≤ j ∧ j ≤ e / 32) (v : UInt64) (hi : i < 64) :
    bit (readBeat J l s e v j) i = (bit v i || fieldBit l s e j i) := by
  have hsb : s % 32 < 64 := by omega
  have hsh : j * 32 - s < 64 := by omega
  rw [readBeat]
  dsimp only
  split_ifs with hstart hend
  · rw [bit_or, bit_and, bit_shiftRight hsb, bit_shiftRight hsb, bit_word]
    congr 1
    by_cases hin : i + s % 32 < 32
    · have hpos : j * 32 + (i + s % 32) = s + i := by omega
      have hfield : (s + i) / 32 = j ∧ i ≤ e - s := by omega
      rw [decide_eq_true hin, bit_beat hl hin, hpos, fieldBit, decide_eq_true hfield,
        Bool.and_true, Bool.true_and]
    · have hfield : ¬((s + i) / 32 = j ∧ i ≤ e - s) := by omega
      rw [decide_eq_false hin, fieldBit, decide_eq_false hfield, Bool.and_false, Bool.false_and]
  · have heb : e % 32 + 1 < 64 := by omega
    rw [bit_or, bit_shiftLeft hsh hi, bit_and, bit_and, bit_ones heb, bit_word]
    congr 1
    by_cases hin : j * 32 - s ≤ i ∧ i - (j * 32 - s) < e % 32 + 1
    · have hlt : i - (j * 32 - s) < 32 := by omega
      have hpos : j * 32 + (i - (j * 32 - s)) = s + i := by omega
      have hfield : (s + i) / 32 = j ∧ i ≤ e - s := by omega
      rw [decide_eq_true hin.1, decide_eq_true hin.2, decide_eq_true hlt, bit_beat hl hlt, hpos,
        fieldBit, decide_eq_true hfield, Bool.and_true, Bool.and_true]
    · have hfield : ¬((s + i) / 32 = j ∧ i ≤ e - s) := by omega
      rw [fieldBit, decide_eq_false hfield, Bool.false_and]
      rcases not_and_or.mp hin with hlow | hhigh
      · rw [decide_eq_false hlow, Bool.false_and]
      · rw [decide_eq_false hhigh, Bool.false_and, Bool.and_false, Bool.and_false]
  · rw [bit_or, bit_shiftLeft hsh hi]
    congr 1
    by_cases hin : j * 32 - s ≤ i ∧ i - (j * 32 - s) < 32
    · have hpos : j * 32 + (i - (j * 32 - s)) = s + i := by omega
      have hfield : (s + i) / 32 = j ∧ i ≤ e - s := by omega
      rw [decide_eq_true hin.1, bit_beat hl hin.2, hpos, fieldBit, decide_eq_true hfield]
    · have hfield : ¬((s + i) / 32 = j ∧ i ≤ e - s) := by omega
      rw [fieldBit, decide_eq_false hfield, Bool.false_and]
      rcases not_and_or.mp hin with hlow | hhigh
      · rw [decide_eq_false hlow, Bool.false_and]
      · rw [bit_toULL_of_le (hl.beat j) (not_lt.mp hhigh), Bool.and_false]

lemma bit_foldl_readBeat (hl : AreWords l) (hsize : e - s ≤ 63) (hcross : s / 32 ≠ e / 32)
    {js : List Nat} (hjs : ∀ j ∈ js, s / 32 ≤ j ∧ j ≤ e / 32) (v : UInt64) (hi : i < 64) :
    bit (js.foldl (readBeat J l s e) v) i = (bit v i || js.any (fieldBit l s e · i)) := by
  induction js generalizing v with
  | nil => simp
  | cons j js ih =>
    rw [List.foldl_cons, ih fun k hk => hjs k (List.mem_cons_of_mem j hk),
      bit_readBeat hl hsize hcross (hjs j List.mem_cons_self) v hi, List.any_cons, Bool.or_assoc]

lemma mem_beatIds (hse : s ≤ e) : j ∈ beatIds s e ↔ s / 32 ≤ j ∧ j ≤ e / 32 := by
  have hdiv : s / 32 ≤ e / 32 := Nat.div_le_div_right hse
  rw [beatIds, List.mem_range'_1]
  omega

lemma any_fieldBit (hse : s ≤ e) :
    (beatIds s e).any (fieldBit l s e · i) =
      (decide (i ≤ e - s) && (valueOf l).testBit (s + i)) := by
  rw [Bool.eq_iff_iff, List.any_eq_true, Bool.and_eq_true, decide_eq_true_eq]
  constructor
  · rintro ⟨j, -, hbit⟩
    rw [fieldBit, Bool.and_eq_true, decide_eq_true_eq] at hbit
    exact ⟨hbit.1.2, hbit.2⟩
  · rintro ⟨hi, hbit⟩
    refine ⟨(s + i) / 32, (mem_beatIds hse).mpr (by omega), ?_⟩
    rw [fieldBit, decide_eq_true ⟨rfl, hi⟩, hbit, Bool.and_true]

lemma bit_foldl_readBeat_single (hl : AreWords l) (hse : s ≤ e) (hsame : s / 32 = e / 32) :
    bit ((beatIds s e).foldl (readBeat J l s e) 0) i =
      (decide (i ≤ e - s) && (valueOf l).testBit (s + i)) := by
  have hids : beatIds s e = [s / 32] := by
    rw [beatIds, ← hsame, Nat.add_sub_cancel_left]
    rfl
  have hsb : s % 32 < 64 := by omega
  have hmask : 31 - e % 32 < 64 := by omega
  rw [hids, List.foldl_cons, List.foldl_nil, readBeat]
  dsimp only
  rw [if_pos rfl, if_pos hsame, bit_shiftRight hsb, bit_and, bit_shiftRight hmask, bit_word]
  by_cases hin : i ≤ e - s
  · have hlt : i + s % 32 < 32 := by omega
    have hlt' : i + s % 32 + (31 - e % 32) < 32 := by omega
    have hpos : s / 32 * 32 + (i + s % 32) = s + i := by omega
    rw [decide_eq_true hin, decide_eq_true hlt', bit_beat hl hlt, hpos, Bool.and_true,
      Bool.true_and]
  · have hlt' : ¬i + s % 32 + (31 - e % 32) < 32 := by omega
    rw [decide_eq_false hin, decide_eq_false hlt', Bool.and_false, Bool.false_and]

lemma toNat_foldl_readBeat (hl : AreWords l) (hse : s ≤ e) (hsize : e - s ≤ 63) :
    ((beatIds s e).foldl (readBeat J l s e) 0).toNat =
      valueOf l / 2 ^ s % 2 ^ (e - s + 1) := by
  apply Nat.eq_of_testBit_eq
  intro i
  rw [Nat.testBit_mod_two_pow, Nat.testBit_div_two_pow, Nat.add_comm i s]
  by_cases hi : i < 64
  · have hle : decide (i < e - s + 1) = decide (i ≤ e - s) := by simp [Nat.lt_succ_iff]
    rw [hle]
    by_cases hsame : s / 32 = e / 32
    · exact bit_foldl_readBeat_single hl hse hsame
    · have hfold := bit_foldl_readBeat (J := J) hl hsize hsame
        (fun j hj => (mem_beatIds hse).mp hj) 0 hi
      have hzero : bit 0 i = false := Nat.zero_testBit i
      refine hfold.trans ?_
      rw [hzero, Bool.false_or, any_fieldBit hse]
  · have hge : ¬i < e - s + 1 := by omega
    rw [decide_eq_false hge, Bool.false_and]
    exact bit_of_le (not_lt.mp hi)

/-! ### `get_bitfield`, `get_bitfield_vec`, `get_bitfield_hex_str` -/

variable {bv : BitVec}

/-- The number that the vector stands for. -/
def BitVec.value (bv : BitVec) : Nat := valueOf bv.u32Vec

/-- The number in bits `s` to `e`. -/
def BitVec.field (bv : BitVec) (s e : Nat) : Nat := bv.value / 2 ^ s % 2 ^ (e - s + 1)

lemma getBitfield_eq (hl : AreWords bv.u32Vec) (hse : s ≤ e) (hsize : e - s ≤ 63) :
    ∃ u, bv.getBitfield J s e = some u ∧ u.toNat = bv.field s e :=
  ⟨_, if_neg (not_lt.mpr hsize), toNat_foldl_readBeat hl hse hsize⟩

lemma getBitfield_word (hl : AreWords bv.u32Vec) (hse : s ≤ e) (hsize : e - s ≤ 31) :
    ∃ u, bv.getBitfield J s e = some u ∧ J.tonumber u = bv.field s e ∧ bv.field s e < 2 ^ 32 := by
  obtain ⟨u, hread, hu⟩ := getBitfield_eq (J := J) hl hse (hsize.trans (by norm_num))
  have hlt : bv.field s e < 2 ^ 32 := (Nat.mod_lt _ (Nat.two_pow_pos _)).trans_le
    (Nat.pow_le_pow_right (by norm_num) (by omega))
  refine ⟨u, hread, ?_, hlt⟩
  rw [J.tonumber_eq u (by omega), hu]

lemma word_of_field {m : Nat} (hm : m = min (s + i * 32 + 31) e) (hi : s + i * 32 ≤ e) :
    bv.field (s + i * 32) m = bv.field s e / 2 ^ (32 * i) % 2 ^ 32 := by
  apply Nat.eq_of_testBit_eq
  intro k
  simp only [BitVec.field, Nat.testBit_mod_two_pow, Nat.testBit_div_two_pow]
  have hpos : k + (s + i * 32) = k + 32 * i + s := by omega
  have hlt : k < m - (s + i * 32) + 1 ↔ k < 32 ∧ k + 32 * i < e - s + 1 := by omega
  rw [hpos, decide_eq_decide.mpr hlt, Bool.decide_and, Bool.and_assoc]

lemma getBitfieldVec_eq (hl : AreWords bv.u32Vec) (hse : s ≤ e) :
    bv.getBitfieldVec J s e =
      some ((Words.words 32 ((e - s) / 32 + 1) (bv.field s e)).map Int.ofNat) := by
  obtain ⟨g, hg⟩ : ∃ g : Nat → UInt64, ∀ i, i * 32 ≤ e - s →
      bv.getBitfield J (s + i * 32) (min (s + i * 32 + 31) e) = some (g i) ∧
        J.tonumber (g i) = (bv.field s e / 2 ^ (32 * i) % 2 ^ 32 : Nat) := by
    refine ⟨fun i => (beatIds (s + i * 32) (min (s + i * 32 + 31) e)).foldl
      (readBeat J bv.u32Vec (s + i * 32) (min (s + i * 32 + 31) e)) 0, fun i hi => ?_⟩
    have hle : s + i * 32 ≤ min (s + i * 32 + 31) e := by omega
    obtain ⟨u, hread, hu, -⟩ := getBitfield_word (J := J) hl hle (by omega)
    have hsize : ¬63 < min (s + i * 32 + 31) e - (s + i * 32) := by omega
    have heq := hread
    rw [BitVec.getBitfield, if_neg hsize, Option.some_inj] at heq
    dsimp only
    rw [heq, hu, word_of_field rfl (by omega)]
    exact ⟨hread, rfl⟩
  have hfront : (List.range ((e - s) / 32)).mapM (fun i =>
      bv.getBitfield J (s + i * 32) (s + i * 32 + 31)) = some ((List.range ((e - s) / 32)).map g) := by
    apply mapM_eq_some_map
    intro i hi
    have hlt := List.mem_range.mp hi
    have hmin : min (s + i * 32 + 31) e = s + i * 32 + 31 := by omega
    rw [← (hg i (by omega)).1, hmin]
  have hlast : bv.getBitfield J (s + (e - s) / 32 * 32) e = some (g ((e - s) / 32)) := by
    have hmin : min (s + (e - s) / 32 * 32 + 31) e = e := by omega
    rw [← (hg ((e - s) / 32) (by omega)).1, hmin]
  rw [BitVec.getBitfieldVec, Nat.add_sub_cancel, hfront, Option.bind_eq_bind, Option.bind_some, hlast, Option.bind_eq_bind,
    Option.bind_some]
  have hall : ((List.range ((e - s) / 32)).map g ++ [g ((e - s) / 32)]) =
      (List.range ((e - s) / 32 + 1)).map g := by
    rw [List.range_succ, List.map_append, List.map_singleton]
  rw [hall, Words.words, List.map_map, List.map_map]
  refine congrArg some (List.map_congr_left fun i hi => ?_)
  have hlt := List.mem_range.mp hi
  exact (hg i (by omega)).2

lemma tohex_natCast (hn : n < 2 ^ 32) : tohex J n = spell 16 8 n := by
  rw [tohex, Jit.tobit_natCast (hn.le.trans (by norm_num)), UInt32.toNat_ofNat',
    Nat.mod_eq_of_lt hn]

lemma getBitfieldHexStr_eq (hl : AreWords bv.u32Vec) (hse : s ≤ e) :
    bv.getBitfieldHexStr J s e = some (spell 16 (8 * ((e - s) / 32 + 1)) (bv.field s e)) := by
  have hlt : bv.field s e < 2 ^ (32 * ((e - s) / 32 + 1)) :=
    (Nat.mod_lt _ (Nat.two_pow_pos _)).trans_le (Nat.pow_le_pow_right (by norm_num) (by omega))
  have htext := flatMap_spell (w := 32) (d := 8) (by norm_num)
    (Words.lt_of_mem_words (n := bv.field s e) (k := (e - s) / 32 + 1))
  rw [Words.length_words, Words.value_words, Nat.mod_eq_of_lt hlt] at htext
  rw [BitVec.getBitfieldHexStr, getBitfieldVec_eq hl hse, Option.bind_eq_bind, Option.bind_some,
    ← htext, ← List.map_reverse, List.flatMap_map]
  refine congrArg some (List.flatMap_congr fun x hx => ?_)
  exact tohex_natCast (Words.lt_of_mem_words x (List.mem_reverse.mp hx))

/-- A field of a vector whose beats are words is read as the number in its bits, as the words of
that number and as its text. -/
theorem getBitfield_field (J : Jit) (bv : BitVec) (hl : AreWords bv.u32Vec) (hse : s ≤ e) :
    (e - s ≤ 63 → ∃ u, bv.getBitfield J s e = some u ∧
      u.toNat = bv.value / 2 ^ s % 2 ^ (e - s + 1)) ∧
    bv.getBitfieldVec J s e = some ((Words.words 32 ((e - s) / 32 + 1)
      (bv.value / 2 ^ s % 2 ^ (e - s + 1))).map Int.ofNat) ∧
    bv.getBitfieldHexStr J s e = some (spell 16 (8 * ((e - s) / 32 + 1))
      (bv.value / 2 ^ s % 2 ^ (e - s + 1))) := by
  refine ⟨?_, getBitfieldVec_eq hl hse, getBitfieldHexStr_eq hl hse⟩
  intro hsize
  exact getBitfield_eq hl hse hsize

/-- A field of 41 bits that begins in the middle of the first of three beats. -/
theorem getBitfield_field_three :
    ∃ u, BitVec.getBitfield .exact ⟨[0x89ABCDEF, 0x01234567, 0xFF], 96, 3⟩ 28 68 = some u ∧
      u.toNat = 0x1F012345678 := by
  have hl : AreWords [0x89ABCDEF, 0x01234567, 0xFF] := by decide
  have hse : 28 ≤ 68 := by decide
  exact (getBitfield_field .exact ⟨[0x89ABCDEF, 0x01234567, 0xFF], 96, 3⟩ hl hse).1 (by decide)

end Verilua.BitVecs
