import Verilua.BitVecs.Reads

/-!
# Writing a field of bits

A field is written beat by beat, and every round puts the bits of the field in place of those of its
beat, save one: in the first beat of several, bit 31 is never cleared. A longer field is written
word by word, from the lowest on.
-/

namespace Verilua.BitVecs

open Lua StrBits Word64

variable {J : Jit} {l : List Int} {bv : BitVec} {s e i j k n p : Nat} {x : Int} {u v : UInt64}

/-! ### One round -/

/-- The highest bit of the first beat, if the field goes on in the next one. -/
def Stuck (s e p : Nat) : Prop := p = s / 32 * 32 + 31 ∧ p < e

instance : Decidable (Stuck s e p) := inferInstanceAs (Decidable (_ ∧ _))

/-- Bit `p` after the field was written. -/
def written (l : List Int) (s e : Nat) (v : UInt64) (p : Nat) : Bool :=
  if s ≤ p ∧ p ≤ e then bit v (p - s) || (decide (Stuck s e p) && (valueOf l).testBit p)
  else (valueOf l).testBit p

lemma bit_newBeat_single (hl : AreWords l) (hse : s ≤ e) (hsame : s / 32 = e / 32) (v : UInt64)
    (hk : k < 32) :
    bit (newBeat J s e v (s / 32) (beat l (s / 32))) k = written l s e v (s / 32 * 32 + k) := by
  have hbits : (((e % 32 : Nat) : Int) - (s % 32 : Nat) + 1) % 64 = (e - s + 1 : Nat) := by omega
  have hsb : s % 32 < 64 := by omega
  have hn : e - s + 1 < 64 := by omega
  have hk' : k < 64 := by omega
  have hstuck : ¬Stuck s e (s / 32 * 32 + k) := fun h => by
    have hlt := h.2
    have heq := h.1
    omega
  rw [newBeat]
  dsimp only
  rw [if_pos rfl, if_pos hsame, hbits, Int.toNat_natCast, bit_or, bit_and, bit_not hk',
    bit_shiftLeft hsb hk', bit_shiftLeft hsb hk', bit_and, bit_ones hn, bit_beat hl hk, written,
    decide_eq_false hstuck, Bool.false_and, Bool.or_false]
  by_cases hin : s % 32 ≤ k ∧ k - s % 32 < e - s + 1
  · have hpos : s / 32 * 32 + k - s = k - s % 32 := by omega
    rw [if_pos (by omega), decide_eq_true hin.1, decide_eq_true hin.2, hpos]
    simp
  · rw [if_neg (by omega)]
    rcases not_and_or.mp hin with hlow | hhigh
    · simp [hlow]
    · simp [hhigh]

lemma bit_newBeat_start (hl : AreWords l) (hse : s ≤ e) (hcross : s / 32 ≠ e / 32) (v : UInt64)
    (hk : k < 32) :
    bit (newBeat J s e v (s / 32) (beat l (s / 32))) k = written l s e v (s / 32 * 32 + k) := by
  have hsb : s % 32 < 64 := by omega
  have hn : 31 - s % 32 < 64 := by omega
  have hn' : 32 - s % 32 < 64 := by omega
  have hk' : k < 64 := by omega
  rw [newBeat]
  dsimp only
  rw [if_pos rfl, if_neg hcross, bit_or, bit_and, bit_not hk', bit_shiftLeft hsb hk',
    bit_shiftLeft hsb hk', bit_and, bit_ones hn, bit_ones hn', bit_beat hl hk, written]
  by_cases hin : s % 32 ≤ k
  · have hpos : s / 32 * 32 + k - s = k - s % 32 := by omega
    have hlt : k - s % 32 < 32 - s % 32 := by omega
    have hstuck : Stuck s e (s / 32 * 32 + k) ↔ ¬k - s % 32 < 31 - s % 32 := by
      rw [Stuck]
      omega
    rw [if_pos (by omega), decide_eq_true hin, decide_eq_true hlt, hpos, decide_eq_decide.mpr hstuck]
    rw [Bool.true_and, Bool.true_and, Bool.and_true, decide_not, Bool.or_comm, Bool.and_comm]
  · rw [if_neg (by omega), decide_eq_false hin]
    simp

lemma bit_newBeat_end (hl : AreWords l) (hse : s ≤ e) (hsize : e - s ≤ 63)
    (hcross : s / 32 ≠ e / 32) (v : UInt64) (hk : k < 32) :
    bit (newBeat J s e v (e / 32) (beat l (e / 32))) k = written l s e v (e / 32 * 32 + k) := by
  have hsh : e / 32 * 32 - s < 64 := by omega
  have hn : e % 32 + 1 < 64 := by omega
  have hk' : k < 64 := by omega
  have hstuck : ¬Stuck s e (e / 32 * 32 + k) := fun h => by
    have heq := h.1
    omega
  rw [newBeat]
  dsimp only
  rw [if_neg (Ne.symm hcross), if_pos rfl, bit_or, bit_and, bit_not hk', bit_and,
    bit_shiftRight hsh, bit_ones hn, bit_beat hl hk, written, decide_eq_false hstuck,
    Bool.false_and, Bool.or_false]
  by_cases hin : k < e % 32 + 1
  · have hpos : e / 32 * 32 + k - s = k + (e / 32 * 32 - s) := by omega
    rw [if_pos (by omega), decide_eq_true hin, hpos]
    simp
  · rw [if_neg (by omega), decide_eq_false hin]
    simp

lemma bit_newBeat_middle (hsize : e - s ≤ 63) (hj : s / 32 < j ∧ j < e / 32)
    (v : UInt64) (hk : k < 32) :
    bit (newBeat J s e v j (beat l j)) k = written l s e v (j * 32 + k) := by
  have hsh : 32 - s % 32 < 64 := by omega
  have hpos : j * 32 + k - s = k + (32 - s % 32) := by omega
  have hstuck : ¬Stuck s e (j * 32 + k) := fun h => by
    have heq := h.1
    omega
  have hzero : bit 0 k = false := Nat.zero_testBit k
  rw [newBeat]
  dsimp only
  rw [if_neg (by omega), if_neg (by omega), bit_or, bit_and, hzero, bit_and, bit_shiftRight hsh,
    bit_word, decide_eq_true hk, written, if_pos (by omega), decide_eq_false hstuck, hpos]
  simp

lemma bit_newBeat (hl : AreWords l) (hse : s ≤ e) (hsize : e - s ≤ 63)
    (hj : s / 32 ≤ j ∧ j ≤ e / 32) (v : UInt64) (hk : k < 32) :
    bit (newBeat J s e v j (beat l j)) k = written l s e v (j * 32 + k) := by
  by_cases hstart : j = s / 32
  · subst hstart
    by_cases hsame : s / 32 = e / 32
    · exact bit_newBeat_single hl hse hsame v hk
    · exact bit_newBeat_start hl hse hsame v hk
  · by_cases hend : j = e / 32
    · subst hend
      exact bit_newBeat_end hl hse hsize (Ne.symm hstart) v hk
    · exact bit_newBeat_middle hsize (by omega) v hk

lemma bit_newBeat_of_le (hx : IsWord x) (hse : s ≤ e) (hsize : e - s ≤ 63) (j : Nat)
    (v : UInt64) (hk : 32 ≤ k ∧ k < 64) :
    bit (newBeat J s e v j x) k = false := by
  have hsb : s % 32 < 64 := by omega
  have hx' : bit (J.toULL x) k = false := bit_toULL_of_le hx hk.1
  rw [newBeat]
  dsimp only
  split_ifs with hstart hsame hend
  · have hbits : (((e % 32 : Nat) : Int) - (s % 32 : Nat) + 1) % 64 = (e - s + 1 : Nat) := by omega
    have hn : e - s + 1 < 64 := by omega
    have hout : ¬k - s % 32 < e - s + 1 := by omega
    rw [hbits, Int.toNat_natCast, bit_or, bit_and, hx', bit_shiftLeft hsb hk.2, bit_and,
      bit_ones hn, decide_eq_false hout]
    simp
  · have hn : 32 - s % 32 < 64 := by omega
    have hout : ¬k - s % 32 < 32 - s % 32 := by omega
    rw [bit_or, bit_and, hx', bit_shiftLeft hsb hk.2, bit_and, bit_ones hn, decide_eq_false hout]
    simp
  · have hn : e % 32 + 1 < 64 := by omega
    have hout : ¬k < e % 32 + 1 := by omega
    rw [bit_or, bit_and, hx', bit_and, bit_ones hn, decide_eq_false hout]
    simp
  · rw [bit_or, bit_and, hx', bit_and, bit_word, decide_eq_false (not_lt.mpr hk.1)]
    simp

lemma newBeat_lt (hx : IsWord x) (hse : s ≤ e) (hsize : e - s ≤ 63) (j : Nat) (v : UInt64) :
    (newBeat J s e v j x).toNat < 2 ^ 32 := by
  apply Nat.lt_pow_two_of_testBit
  intro k hk
  change bit _ k = false
  by_cases hk' : k < 64
  · exact bit_newBeat_of_le hx hse hsize j v ⟨hk, hk'⟩
  · exact bit_of_le (not_lt.mp hk')

/-! ### The loop -/

lemma beat_setBeat (l : List Int) (i : Nat) (x : Int) (j : Nat) :
    beat (setBeat l i x) j = if j = i then x else beat l j := by
  rw [setBeat, beat, beat]
  split
  case isTrue hi =>
    by_cases hj : j = i
    · subst hj
      rw [if_pos rfl, List.getD_eq_getElem _ _ (by rwa [List.length_set]), List.getElem_set_self]
    · rw [if_neg hj, List.getD_eq_getElem?_getD, List.getElem?_set_ne (Ne.symm hj),
        List.getD_eq_getElem?_getD]
  case isFalse hi =>
    have hlen : (l ++ List.replicate (i - l.length) (0 : Int)).length = i := by
      rw [List.length_append, List.length_replicate]
      omega
    rcases lt_trichotomy j i with hlt | rfl | hgt
    · rw [if_neg hlt.ne, List.getD_append _ _ _ _ (by rwa [hlen])]
      by_cases hj : j < l.length
      · rw [List.getD_append _ _ _ _ hj]
      · have hlt' : j - l.length < i - l.length := by omega
        rw [List.getD_append_right _ _ _ _ (not_lt.mp hj), List.getD_replicate _ hlt',
          List.getD_eq_default _ _ (not_lt.mp hj)]
    · rw [if_pos rfl, List.getD_append_right _ _ _ _ (by rw [hlen]), hlen, Nat.sub_self]
      rfl
    · rw [if_neg hgt.ne', List.getD_eq_default, List.getD_eq_default _ _ (by omega)]
      rw [List.length_append, hlen]
      exact hgt

lemma length_setBeat (hi : i < l.length) (x : Int) : (setBeat l i x).length = l.length := by
  rw [setBeat, if_pos hi, List.length_set]

lemma AreWords.setBeat (hl : AreWords l) (hx : IsWord x) (i : Nat) : AreWords (setBeat l i x) := by
  intro y hy
  rw [BitVecs.setBeat] at hy
  split at hy
  · rcases List.mem_or_eq_of_mem_set hy with hmem | rfl
    · exact hl y hmem
    · exact hx
  · rcases List.mem_append.mp hy with hfront | hlast
    · rcases List.mem_append.mp hfront with hmem | hzero
      · exact hl y hmem
      · rw [List.eq_of_mem_replicate hzero]
        exact isWord_natCast (by norm_num)
    · rw [List.mem_singleton.mp hlast]
      exact hx

lemma foldl_writeBeat (hl : AreWords l) (hse : s ≤ e) (hsize : e - s ≤ 63) (v : UInt64)
    {js : List Nat} (hjs : ∀ j ∈ js, s / 32 ≤ j ∧ j ≤ e / 32) (hnodup : js.Nodup) :
    AreWords (js.foldl (writeBeat J s e v) l) ∧ ∀ j, beat (js.foldl (writeBeat J s e v) l) j =
      if j ∈ js then ((newBeat J s e v j (beat l j)).toNat : Int) else beat l j := by
  induction js generalizing l with
  | nil => exact ⟨hl, fun j => (if_neg (List.not_mem_nil)).symm⟩
  | cons i js ih =>
    obtain ⟨hi, hnodup⟩ := List.nodup_cons.mp hnodup
    have hin := hjs i List.mem_cons_self
    have hlt := newBeat_lt (J := J) (hl.beat i) hse hsize i v
    have hnumber := J.tonumber_eq (newBeat J s e v i (beat l i)) (by omega)
    have hwords : AreWords (writeBeat J s e v l i) := by
      rw [writeBeat, hnumber]
      exact hl.setBeat (isWord_natCast hlt) i
    obtain ⟨hwords', hbeat⟩ := ih hwords (fun j hj => hjs j (List.mem_cons_of_mem i hj)) hnodup
    refine ⟨hwords', fun j => ?_⟩
    rw [List.foldl_cons, hbeat, writeBeat, hnumber, beat_setBeat]
    by_cases hji : j = i
    · subst hji
      rw [if_neg hi, if_pos rfl, if_pos List.mem_cons_self]
    · have hmem : j ∈ i :: js ↔ j ∈ js := by simp [hji]
      rw [if_neg hji]
      simp only [hmem]

lemma length_foldl_writeBeat (v : UInt64) {js : List Nat} (hjs : ∀ j ∈ js, j < l.length) :
    (js.foldl (writeBeat J s e v) l).length = l.length := by
  induction js generalizing l with
  | nil => rfl
  | cons i js ih =>
    have hlen : (writeBeat J s e v l i).length = l.length :=
      length_setBeat (hjs i List.mem_cons_self) _
    rw [List.foldl_cons, ih fun j hj => by rw [hlen]; exact hjs j (List.mem_cons_of_mem i hj), hlen]

/-- The vector after a write that ends at bit `e`. -/
structure Wrote (bv : BitVec) (e : Nat) (bits : Nat → Bool) (bv' : BitVec) : Prop where
  areWords : AreWords bv'.u32Vec
  testBit_eq : ∀ p, bv'.value.testBit p = bits p
  bitWidth_eq : bv'.bitWidth = bv.bitWidth
  length_eq : e / 32 < bv.u32Vec.length → bv'.u32Vec.length = bv.u32Vec.length

/-- Bit 31 of the first beat of several is the old one or the new one, and the other bits of the
field are those of the value. -/
lemma setBitfield_eq (hl : AreWords bv.u32Vec) (hse : s ≤ e) (hsize : e - s ≤ 63) (v : Value) :
    ∃ bv', bv.setBitfield J s e v = some bv' ∧
      Wrote bv e (written bv.u32Vec s e (v.toULL J)) bv' := by
  have hnodup : (beatIds s e).Nodup := List.nodup_range'
  obtain ⟨hwords, hbeat⟩ := foldl_writeBeat (J := J) hl hse hsize (v.toULL J)
    (fun j hj => (mem_beatIds hse).mp hj) hnodup
  refine ⟨_, if_neg (not_lt.mpr hsize), ?_⟩
  constructor
  · exact hwords
  · intro p
    have hp : p % 32 < 32 := Nat.mod_lt p (by norm_num)
    have hpos : p / 32 * 32 + p % 32 = p := Nat.div_add_mod' p 32
    rw [BitVec.value, testBit_valueOf hwords, hbeat]
    by_cases hmem : p / 32 ∈ beatIds s e
    · have hbit := bit_newBeat (J := J) hl hse hsize ((mem_beatIds hse).mp hmem) (v.toULL J) hp
      rw [if_pos hmem, Int.toNat_natCast, ← hpos, ← hbit, hpos]
      rfl
    · have hout : ¬(s ≤ p ∧ p ≤ e) := by
        rw [mem_beatIds hse] at hmem
        omega
      rw [if_neg hmem, written, if_neg hout, testBit_valueOf hl]
  · rfl
  · intro he
    apply length_foldl_writeBeat
    intro j hj
    exact ((mem_beatIds hse).mp hj).2.trans_lt he

/-! ### Word by word -/

/-- Bit `p` after the words of `n` were written below bit `q`: the highest bit of every beat is only
ever set, unless the words are in line with the beats. -/
def writtenBelow (l : List Int) (s e n q p : Nat) : Bool :=
  if s ≤ p ∧ p < q then
    n.testBit (p - s) || (decide (s % 32 ≠ 0 ∧ p % 32 = 31 ∧ p < e) && (valueOf l).testBit p)
  else (valueOf l).testBit p

lemma Wrote.next {bv' : BitVec} {m : Nat}
    (h : Wrote bv e (writtenBelow bv.u32Vec s e n (s + i * 32)) bv')
    (hi : s + i * 32 ≤ e) (hm : m = min (s + i * 32 + 31) e) (v : Value)
    (hv : ∀ k, k ≤ m - (s + i * 32) → bit (v.toULL J) k = n.testBit (i * 32 + k)) :
    ∃ bv'', bv'.setBitfield J (s + i * 32) m v = some bv'' ∧
      Wrote bv e (writtenBelow bv.u32Vec s e n (m + 1)) bv'' := by
  obtain ⟨bv'', hwrite, hwrote⟩ := setBitfield_eq (J := J) (s := s + i * 32) (e := m) h.areWords
    (by omega) (by omega) v
  refine ⟨bv'', hwrite, ?_⟩
  constructor
  · exact hwrote.areWords
  · intro p
    have hold : (valueOf bv'.u32Vec).testBit p =
        writtenBelow bv.u32Vec s e n (s + i * 32) p := h.testBit_eq p
    rw [hwrote.testBit_eq, written, hold]
    by_cases hin : s + i * 32 ≤ p ∧ p ≤ m
    · have hpos : i * 32 + (p - (s + i * 32)) = p - s := by omega
      have hstuck : Stuck (s + i * 32) m p ↔ s % 32 ≠ 0 ∧ p % 32 = 31 ∧ p < e := by
        rw [Stuck]
        omega
      rw [if_pos hin, hv _ (by omega), hpos, writtenBelow, if_neg (by omega), writtenBelow,
        if_pos (by omega), decide_eq_decide.mpr hstuck]
    · have hsame : s ≤ p ∧ p < s + i * 32 ↔ s ≤ p ∧ p < m + 1 := by omega
      rw [if_neg hin, writtenBelow, writtenBelow]
      simp only [hsame]
  · rw [hwrote.bitWidth_eq, h.bitWidth_eq]
  · intro he
    have hlen := h.length_eq he
    have hme : m / 32 ≤ e / 32 := Nat.div_le_div_right (by omega)
    rw [hwrote.length_eq (by omega), hlen]

lemma wrote_nothing (hl : AreWords bv.u32Vec) (n : Nat) :
    Wrote bv e (writtenBelow bv.u32Vec s e n (s + 0 * 32)) bv := by
  constructor
  · exact hl
  · intro p
    rw [writtenBelow, if_neg (by omega)]
    rfl
  · rfl
  · intro _
    rfl

lemma foldlM_setBitfield (hl : AreWords bv.u32Vec) {ws : List Int} (hws : AreWords ws) {m : Nat}
    (hm : s + m * 32 ≤ e) :
    ∃ bv', (List.range m).foldlM (fun bv i =>
      bv.setBitfield J (s + i * 32) (s + i * 32 + 31) (.num (beat ws i))) bv = some bv' ∧
      Wrote bv e (writtenBelow bv.u32Vec s e (valueOf ws) (s + m * 32)) bv' := by
  induction m with
  | zero => exact ⟨bv, rfl, wrote_nothing hl _⟩
  | succ m ih =>
    obtain ⟨bv₁, hrun, hwrote⟩ := ih (by omega)
    have hmin : s + m * 32 + 31 = min (s + m * 32 + 31) e := by omega
    obtain ⟨bv₂, hstep, hwrote'⟩ := hwrote.next (J := J) (by omega) hmin (.num (beat ws m))
      fun k hk => bit_beat hws (by omega)
    refine ⟨bv₂, ?_, ?_⟩
    · rw [List.range_succ, List.foldlM_append, hrun, Option.bind_eq_bind, Option.bind_some,
        List.foldlM_cons, hstep]
      rfl
    · have hend : s + (m + 1) * 32 = s + m * 32 + 31 + 1 := by omega
      rw [hend]
      exact hwrote'

lemma setBitfieldVec_eq (hl : AreWords bv.u32Vec) (hse : s ≤ e) {ws : List Int}
    (hws : AreWords ws) (hlen : ws.length = (e - s) / 32 + 1) :
    ∃ bv', bv.setBitfieldVec J s e ws = some bv' ∧
      Wrote bv e (writtenBelow bv.u32Vec s e (valueOf ws) (e + 1)) bv' := by
  have hguard : ¬(e < s ∨ (e - s) / 32 + 1 ≠ ws.length) := by omega
  rw [BitVec.setBitfieldVec]
  dsimp only
  rw [if_neg hguard]
  by_cases hone : s / 32 = e / 32 ∨ (e - s) / 32 + 1 = 1
  · have hmin : e = min (s + 0 * 32 + 31) e := by omega
    have hstart : s + 0 * 32 = s := by omega
    obtain ⟨bv', hwrite, hwrote⟩ := (wrote_nothing (s := s) hl (valueOf ws)).next (J := J)
      (by omega) hmin (.num (beat ws 0)) fun k hk => bit_beat hws (by omega)
    rw [if_pos hone]
    rw [hstart] at hwrite
    exact ⟨bv', hwrite, hwrote⟩
  · have hle : s + (e - s) / 32 * 32 ≤ e := by omega
    have hmin : e = min (s + (e - s) / 32 * 32 + 31) e := by omega
    obtain ⟨bv₁, hrun, hwrote⟩ := foldlM_setBitfield (J := J) hl hws hle
    have hn : e - (s + (e - s) / 32 * 32) + 1 < 64 := by omega
    obtain ⟨bv₂, hstep, hwrote'⟩ := hwrote.next (J := J) hle hmin
      (.ull (J.toULL (beat ws ((e - s) / 32)) &&& ones (e - (s + (e - s) / 32 * 32) + 1)))
      fun k hk => by
        have hk' : k < e - (s + (e - s) / 32 * 32) + 1 := by omega
        have hk32 : k < 32 := by omega
        rw [Value.toULL, bit_and, bit_ones hn, decide_eq_true hk', Bool.and_true,
          bit_beat hws hk32]
    refine ⟨bv₂, ?_, hwrote'⟩
    rw [if_neg hone, Nat.add_sub_cancel, hrun]
    exact hstep

/-! ### Hexadecimal strings -/

lemma tonumber_ssub {t : List Char} (ht : IsHex t) {a c : Nat} (hc : c ≠ 0)
    (hlen : t.length = a + c + j) :
    tonumber (ssub t (a + 1) (a + c)) = (hexValue t / 16 ^ j % 16 ^ c : Nat) := by
  have hdigits : digits (ssub t (a + 1) (a + c)) = Numeral.fixed 16 c (hexValue t / 16 ^ j) := by
    rw [ssub, Nat.add_sub_cancel, digits_drop, digits_take, digits_eq, hlen, Numeral.take_fixed,
      Numeral.drop_fixed]
  have hhex : IsHex (ssub t (a + 1) (a + c)) := fun d hd =>
    ht d (List.mem_of_mem_take (List.mem_of_mem_drop hd))
  have hne : ssub t (a + 1) (a + c) ≠ [] := by
    rw [← List.length_pos_iff, ← length_digits, hdigits, Numeral.length_fixed]
    exact Nat.pos_of_ne_zero hc
  rw [tonumber, tonumber16_eq hhex hne, Option.getD_some, hexValue_of_digits hdigits]

lemma hexStrToU32Vec_eq {t : List Char} (ht : IsHex t) :
    hexStrToU32Vec t = (Words.words 32 ((t.length + 7) / 8) (hexValue t)).map Int.ofNat := by
  have hpow : ∀ i, 16 ^ (8 * i) = 2 ^ (32 * i) := by
    intro i
    rw [show (16 : Nat) = 2 ^ 4 by norm_num, ← pow_mul]
    congr 1
    omega
  have hfull : (List.range (t.length / 8)).map (fun i =>
      tonumber (ssub t (t.length - (i + 1) * 8 + 1) (t.length - (i + 1) * 8 + 1 + 7))) =
      (List.range (t.length / 8)).map fun i =>
        Int.ofNat (hexValue t / 2 ^ (32 * i) % 2 ^ 32) := by
    apply List.map_congr_left
    intro i hi
    have hlt := List.mem_range.mp hi
    have hlen : t.length = t.length - (i + 1) * 8 + 8 + 8 * i := by omega
    rw [show t.length - (i + 1) * 8 + 1 + 7 = t.length - (i + 1) * 8 + 8 by omega,
      tonumber_ssub ht (by norm_num) hlen, hpow]
    rfl
  rw [hexStrToU32Vec]
  dsimp only
  rw [hfull, Words.words, List.map_map]
  split
  case isTrue hrem =>
    have hk : (t.length + 7) / 8 = t.length / 8 + 1 := by omega
    have hlen : t.length = 0 + t.length % 8 + 8 * (t.length / 8) := by omega
    have hlast := tonumber_ssub ht hrem.ne' hlen
    -- the digits in front of the whole groups are all that is left
    have hlt : hexValue t / 16 ^ (8 * (t.length / 8)) < 16 ^ (t.length % 8) := by
      rw [Nat.div_lt_iff_lt_mul (Nat.pow_pos (by norm_num)), ← pow_add, ← Nat.zero_add (t.length % 8),
        ← hlen]
      exact hexValue_lt t
    have hword : 16 ^ (t.length % 8) ≤ 2 ^ 32 :=
      (Nat.pow_le_pow_right (by norm_num) (by omega : t.length % 8 ≤ 8)).trans (by norm_num)
    rw [Nat.zero_add, Nat.zero_add, Nat.mod_eq_of_lt hlt, hpow] at hlast
    rw [hpow] at hlt
    rw [hk, List.range_succ, List.map_append, List.map_singleton, hlast, Function.comp_apply,
      Nat.mod_eq_of_lt (hlt.trans_le hword)]
    rfl
  case isFalse hrem =>
    have hk : (t.length + 7) / 8 = t.length / 8 := by omega
    rw [hk]
    rfl

lemma areWords_ofNat {ws : List Nat} (hws : ∀ w ∈ ws, w < 2 ^ 32) : AreWords (ws.map Int.ofNat) := by
  intro x hx
  obtain ⟨w, hw, rfl⟩ := List.mem_map.mp hx
  exact isWord_natCast (hws w hw)

lemma valueOf_ofNat (ws : List Nat) : valueOf (ws.map Int.ofNat) = Words.value 32 ws := by
  rw [valueOf, List.map_map]
  congr 1
  exact List.map_id ws

lemma hexStrToU32Vec_words (t : HexText) :
    AreWords (hexStrToU32Vec t.chars) ∧ valueOf (hexStrToU32Vec t.chars) = hexValue t.chars ∧
      (hexStrToU32Vec t.chars).length = (t.chars.length + 7) / 8 := by
  rw [hexStrToU32Vec_eq t.isHex]
  refine ⟨areWords_ofNat Words.lt_of_mem_words, ?_, ?_⟩
  · have hlt : hexValue t.chars < 2 ^ (32 * ((t.chars.length + 7) / 8)) := by
      have hpow : 16 ^ t.chars.length = 2 ^ (4 * t.chars.length) := by
        rw [show (16 : Nat) = 2 ^ 4 by norm_num, ← pow_mul]
      refine (hexValue_lt t.chars).trans_le ?_
      rw [hpow]
      exact Nat.pow_le_pow_right (by norm_num) (by omega)
    rw [valueOf_ofNat, Words.value_words, Nat.mod_eq_of_lt hlt]
  · rw [List.length_map, Words.length_words]

/-! ### When the field is set -/

/-- The vector after the write has `n` in its bits `s` to `e`, and its other bits are the old
ones. -/
def BitVec.Sets (bv : BitVec) (s e n : Nat) (bv' : BitVec) : Prop :=
  ∀ p, bv'.value.testBit p = if s ≤ p ∧ p ≤ e then n.testBit (p - s) else bv.value.testBit p

/-- The value modulo `2 ^ k`. -/
def low (v : Value) (k : Nat) : Nat :=
  match v with
  | .num n => (n % 2 ^ k).toNat
  | .ull u => u.toNat % 2 ^ k

/-- A number that can be converted to 64 bits. -/
def Fits : Value → Prop
  | .num n => -2 ^ 63 ≤ n ∧ n < 2 ^ 64
  | .ull _ => True

instance : DecidablePred Fits := fun v =>
  match v with
  | .num _ => inferInstanceAs (Decidable (_ ∧ _))
  | .ull _ => isTrue trivial

lemma testBit_low {v : Value} (hv : Fits v) (hk : k ≤ 64) (i : Nat) :
    (low v k).testBit i = (decide (i < k) && bit (v.toULL J) i) := by
  cases v with
  | ull u => exact Nat.testBit_mod_two_pow u.toNat k i
  | num n =>
    have htoNat : low (.num n) k = (J.toULL n).toNat % 2 ^ k := by
      obtain ⟨m, hm⟩ := Int.eq_ofNat_of_zero_le (Int.emod_nonneg n (b := 2 ^ 64) (by norm_num))
      have hlt : m < 2 ^ 64 := by
        have hmod := Int.emod_lt_of_pos n (b := 2 ^ 64) (by norm_num)
        omega
      have hdvd : (2 : Int) ^ k ∣ 2 ^ 64 := pow_dvd_pow 2 hk
      rw [J.toULL_eq n hv.1 hv.2, UInt64.ofInt, hm, Int.toNat_natCast, UInt64.toNat_ofNat',
        Nat.mod_eq_of_lt hlt, low, ← Int.emod_emod_of_dvd n hdvd, hm]
      norm_cast
    rw [htoNat, Nat.testBit_mod_two_pow]
    rfl

lemma setBitfield_sets_iff (hl : AreWords bv.u32Vec) (hse : s ≤ e) (hsize : e - s ≤ 63) {v : Value}
    (hv : Fits v) :
    (∃ bv', bv.setBitfield J s e v = some bv' ∧ bv.Sets s e (low v (e - s + 1)) bv') ↔
      ∀ p, Stuck s e p → bv.value.testBit p = true →
        (low v (e - s + 1)).testBit (p - s) = true := by
  obtain ⟨bv', hwrite, hwrote⟩ := setBitfield_eq (J := J) hl hse hsize v
  have hbit : ∀ p, s ≤ p ∧ p ≤ e →
      (low v (e - s + 1)).testBit (p - s) = bit (v.toULL J) (p - s) := by
    intro p hp
    rw [testBit_low (J := J) hv (by omega), decide_eq_true (by omega), Bool.true_and]
  constructor
  · rintro ⟨bv'', hwrite', hsets⟩ p hp hold
    obtain rfl := Option.some_inj.mp (hwrite.symm.trans hwrite')
    have hin : s ≤ p ∧ p ≤ e := by
      rw [Stuck] at hp
      omega
    have hp' := hsets p
    rw [hwrote.testBit_eq, written, if_pos hin, if_pos hin, hbit p hin,
      Bool.or_eq_left_iff_imp] at hp'
    rw [hbit p hin]
    exact hp' (by rw [decide_eq_true hp, Bool.true_and]; exact hold)
  · intro hall
    refine ⟨bv', hwrite, fun p => ?_⟩
    rw [hwrote.testBit_eq, written]
    by_cases hin : s ≤ p ∧ p ≤ e
    · rw [if_pos hin, if_pos hin, hbit p hin, Bool.or_eq_left_iff_imp]
      intro hstuck
      rw [Bool.and_eq_true, decide_eq_true_eq] at hstuck
      rw [← hbit p hin]
      exact hall p hstuck.1 hstuck.2
    · rw [if_neg hin, if_neg hin]
      rfl

lemma setBitfieldVec_sets_iff (hl : AreWords bv.u32Vec) (hse : s ≤ e) {ws : List Int}
    (hws : AreWords ws) (hlen : ws.length = (e - s) / 32 + 1) :
    (∃ bv', bv.setBitfieldVec J s e ws = some bv' ∧
        bv.Sets s e (valueOf ws % 2 ^ (e - s + 1)) bv') ↔
      ∀ p, s ≤ p ∧ p < e → s % 32 ≠ 0 → p % 32 = 31 → bv.value.testBit p = true →
        (valueOf ws).testBit (p - s) = true := by
  obtain ⟨bv', hwrite, hwrote⟩ := setBitfieldVec_eq (J := J) hl hse hws hlen
  have hbit : ∀ p, s ≤ p ∧ p ≤ e →
      (valueOf ws % 2 ^ (e - s + 1)).testBit (p - s) = (valueOf ws).testBit (p - s) := by
    intro p hp
    rw [Nat.testBit_mod_two_pow, decide_eq_true (by omega), Bool.true_and]
  constructor
  · rintro ⟨bv'', hwrite', hsets⟩ p hp hs hp31 hold
    obtain rfl := Option.some_inj.mp (hwrite.symm.trans hwrite')
    have hin : s ≤ p ∧ p ≤ e := by omega
    have hin' : s ≤ p ∧ p < e + 1 := by omega
    have hp' := hsets p
    rw [hwrote.testBit_eq, writtenBelow, if_pos hin, if_pos hin', hbit p hin,
      Bool.or_eq_left_iff_imp] at hp'
    exact hp' (by rw [decide_eq_true ⟨hs, hp31, hp.2⟩, Bool.true_and]; exact hold)
  · intro hall
    refine ⟨bv', hwrite, fun p => ?_⟩
    rw [hwrote.testBit_eq, writtenBelow]
    by_cases hin : s ≤ p ∧ p ≤ e
    · have hin' : s ≤ p ∧ p < e + 1 := by omega
      rw [if_pos hin, if_pos hin', hbit p hin, Bool.or_eq_left_iff_imp]
      intro hstuck
      rw [Bool.and_eq_true, decide_eq_true_eq] at hstuck
      obtain ⟨⟨hs, hp31, hlt⟩, hold⟩ := hstuck
      exact hall p ⟨hin.1, hlt⟩ hs hp31 hold
    · rw [if_neg hin, if_neg (by omega)]
      rfl

end Verilua.BitVecs
