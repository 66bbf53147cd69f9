import Verilua.LuaUtils.Numbers

/-!
# Patterns of bits

`bitpat_to_hex_str` puts values at places of a number of several blocks of 64 bits. A pattern lies
in one block or crosses from one to the next. The part of a crossing pattern that belongs to the
next block is shifted down as the value comes: on 64 bits when it is boxed, on 32 bits when it is a
number.
-/

namespace Verilua.LuaUtils

open Lua StrBits Word64

structure BitPattern where
  s : Nat
  e : Nat
  v : Value
deriving DecidableEq

variable (J : Jit) {width i j k : Nat} {p : BitPattern} {tbl : List BitPattern} {v : List UInt64}

/-! ### `bitpat_to_hex_str` -/

/-- `max_val`, which is the mask as well -/
def maxVal (numBits : Nat) : UInt64 :=
  if numBits = 64 then 0xFFFFFFFFFFFFFFFF else ones numBits

/-- One round of the loop; none is an assertion that fails. -/
def addPattern (width : Nat) (v : List UInt64) (p : BitPattern) : Option (List UInt64) :=
  let numBits := p.e + 1 - p.s
  if p.s < width ∧ p.e < width ∧ 0 < numBits ∧ p.v.toULL J ≤ maxVal numBits then
    let startBlock := p.s / 64
    let endBlock := p.e / 64
    let startPos := p.s % 64
    if startBlock = endBlock then
      let shiftedValue := (p.v.toULL J &&& maxVal numBits) <<< UInt64.ofNat startPos
      some (v.modify startBlock (· ||| shiftedValue))
    else
      let lowerBits := 64 - startPos
      let lowerValue := p.v.toULL J &&& ones lowerBits
      let upperValue := p.v.rshift J lowerBits
      some ((v.modify startBlock (· ||| lowerValue <<< UInt64.ofNat startPos)).modify endBlock
        (· ||| upperValue.toULL J))
  else none

def numBlocks (width : Nat) : Nat := (width + 63) / 64

/-- `bit.tohex` of a boxed integer -/
def tohex (u : UInt64) : List Char := spell 16 16 u.toNat

def bitpatToHexStr (tbl : List BitPattern) (width : Option Nat) : Option (List Char) :=
  if tbl = [] ∨ width = some 0 then none
  else do
    let v ← tbl.foldlM (addPattern J (width.getD 64))
      (List.replicate (numBlocks (width.getD 64)) 0)
    return v.reverse.flatMap tohex

/-! ### What a pattern asks for, and what it sets -/

namespace BitPattern

/-- The value as a natural number. -/
def value (p : BitPattern) : Nat :=
  match p.v with
  | .num n => n.toNat
  | .ull u => u.toNat

/-- A range of at most 64 bits inside the width, and a value that fits into it. -/
structure Valid (width : Nat) (p : BitPattern) : Prop where
  s_le : p.s ≤ p.e
  e_lt : p.e < width
  size_le : p.e - p.s + 1 ≤ 64
  num_nonneg : ∀ n, p.v = .num n → 0 ≤ n
  value_lt : p.value < 2 ^ (p.e - p.s + 1)

/-- Bit `i` of the value at its place. -/
def wants (p : BitPattern) (i : Nat) : Bool := (p.value * 2 ^ p.s).testBit i

/-- Bit `k` of the 32 bits of a number that was shifted down by `n`: the shift is taken modulo 32,
and the sign of the result fills the upper half of 64 bits. -/
def shiftedBit (u : UInt32) (n k : Nat) : Bool :=
  (decide (k + n % 32 < 32) && u.toNat.testBit (k + n % 32)) ||
    (decide (n % 32 = 0 ∧ 32 ≤ k ∧ k < 64) && u.toNat.testBit 31)

/-- Bit `i` that the pattern sets: in the second block of a crossing pattern whose value is a
number, a bit of what the shift leaves, and else the bit that it asks for. -/
def sets (p : BitPattern) (i : Nat) : Bool :=
  match p.v with
  | .num n =>
    if p.s / 64 ≠ p.e / 64 ∧ 64 * (p.e / 64) ≤ i then
      shiftedBit (J.tobit n) (64 - p.s % 64) (i - 64 * (p.e / 64))
    else p.wants i
  | .ull _ => p.wants i

end BitPattern

/-- The bitwise OR of all values at their places. -/
def orAll (tbl : List BitPattern) : Nat := tbl.foldl (fun n p => n ||| p.value * 2 ^ p.s) 0

/-- Every bit that the shift on 32 bits loses is set by another pattern, and every bit that it adds
is asked for by another one. -/
structure Covered (tbl : List BitPattern) : Prop where
  lost : ∀ p ∈ tbl, ∀ i, p.wants i = true → p.sets J i = false → ∃ q ∈ tbl, q.sets J i = true
  added : ∀ p ∈ tbl, ∀ i, p.sets J i = true → p.wants i = false → ∃ q ∈ tbl, q.wants i = true

lemma testBit_orAll (tbl : List BitPattern) (i : Nat) :
    (orAll tbl).testBit i = tbl.any (·.wants i) := by
  have hfold : ∀ n : Nat, (tbl.foldl (fun n p => n ||| p.value * 2 ^ p.s) n).testBit i =
      (n.testBit i || tbl.any (·.wants i)) := by
    induction tbl with
    | nil => simp
    | cons p tbl ih =>
      intro n
      rw [List.foldl_cons, ih, Nat.testBit_or, List.any_cons, Bool.or_assoc]
      rfl
  rw [orAll, hfold, Nat.zero_testBit, Bool.false_or]

/-- The two sets of bits are equal when nothing is lost and nothing is added. -/
lemma covered_iff :
    Covered J tbl ↔ ∀ i, tbl.any (·.sets J i) = tbl.any (·.wants i) := by
  constructor
  · rintro ⟨hlost, hadded⟩ i
    rw [Bool.eq_iff_iff, List.any_eq_true, List.any_eq_true]
    constructor
    · rintro ⟨p, hp, hset⟩
      cases hwant : p.wants i with
      | true => exact ⟨p, hp, hwant⟩
      | false => exact hadded p hp i hset hwant
    · rintro ⟨p, hp, hwant⟩
      cases hset : p.sets J i with
      | true => exact ⟨p, hp, hset⟩
      | false => exact hlost p hp i hwant hset
  · intro heq
    constructor
    · intro p hp i hwant _
      have hany : tbl.any (·.wants i) = true := List.any_eq_true.mpr ⟨p, hp, hwant⟩
      rwa [← heq, List.any_eq_true] at hany
    · intro p hp i hset _
      have hany : tbl.any (·.sets J i) = true := List.any_eq_true.mpr ⟨p, hp, hset⟩
      rwa [heq, List.any_eq_true] at hany

/-! ### The blocks -/

/-- Bit `i` of the number that the blocks make up. -/
def blockBit (v : List UInt64) (i : Nat) : Bool := bit (v.getD (i / 64) 0) (i % 64)

lemma blockBit_modify (v : List UInt64) (j : Nat) (u : UInt64) {i : Nat} (hi : i / 64 < v.length) :
    blockBit (v.modify j (· ||| u)) i =
      (blockBit v i || (decide (i / 64 = j) && bit u (i % 64))) := by
  rw [blockBit, blockBit, List.getD_eq_getElem _ _ (by rwa [List.length_modify]),
    List.getD_eq_getElem _ _ hi, List.getElem_modify]
  by_cases hj : j = i / 64
  · rw [if_pos hj, bit_or, hj, decide_eq_true rfl, Bool.true_and]
  · rw [if_neg hj, decide_eq_false (Ne.symm hj), Bool.false_and, Bool.or_false]

variable {J}

lemma bit_maxVal (hk : k ≤ 64) (i : Nat) : bit (maxVal k) i = decide (i < k) := by
  rw [maxVal]
  split
  case isTrue hfull =>
    rw [hfull]
    exact Nat.testBit_two_pow_sub_one 64 i
  case isFalse hpart => exact bit_ones (lt_of_le_of_ne hk hpart) i

namespace BitPattern

lemma wants_eq (p : BitPattern) (i : Nat) :
    p.wants i = (decide (p.s ≤ i) && p.value.testBit (i - p.s)) := by
  rw [wants, ← Nat.shiftLeft_eq, Nat.testBit_shiftLeft]

lemma Valid.wants_of_lt (hp : p.Valid width) (hi : p.e < i) : p.wants i = false := by
  have hse := hp.s_le
  have hbit : p.value.testBit (i - p.s) = false :=
    Nat.testBit_lt_two_pow (hp.value_lt.trans_le (Nat.pow_le_pow_right (by norm_num) (by omega)))
  rw [wants_eq, hbit, Bool.and_false]

lemma Valid.toNat_toULL (hp : p.Valid width) : (p.v.toULL J).toNat = p.value := by
  obtain ⟨s, e, v⟩ := p
  have hlt : BitPattern.value ⟨s, e, v⟩ < 2 ^ 64 :=
    hp.value_lt.trans_le (Nat.pow_le_pow_right (by norm_num) hp.size_le)
  cases v with
  | ull u => rfl
  | num n =>
    obtain ⟨n, rfl⟩ := Int.eq_ofNat_of_zero_le (hp.num_nonneg n rfl)
    exact Jit.toNat_toULL hlt

lemma Valid.toULL_le (hp : p.Valid width) : p.v.toULL J ≤ maxVal (p.e + 1 - p.s) := by
  have hse := hp.s_le
  have hsize : p.e + 1 - p.s = p.e - p.s + 1 := by omega
  have hlt := hp.value_lt
  rw [UInt64.le_iff_toNat_le, hp.toNat_toULL, hsize, maxVal]
  split
  case isTrue hfull =>
    rw [hfull] at hlt
    exact Nat.le_pred_of_lt hlt
  case isFalse hpart =>
    have hsize' : p.e - p.s + 1 < 64 := lt_of_le_of_ne hp.size_le hpart
    rw [toNat_ones hsize']
    exact Nat.le_pred_of_lt hlt

lemma Valid.bit_and_maxVal (hp : p.Valid width) (i : Nat) :
    bit (p.v.toULL J &&& maxVal (p.e + 1 - p.s)) i = p.value.testBit i := by
  have hse := hp.s_le
  have hsize : p.e + 1 - p.s = p.e - p.s + 1 := by omega
  rw [bit_and, bit, hp.toNat_toULL, hsize, bit_maxVal hp.size_le]
  by_cases hi : i < p.e - p.s + 1
  · simp [hi]
  · have hbit : p.value.testBit i = false :=
      Nat.testBit_lt_two_pow (hp.value_lt.trans_le (Nat.pow_le_pow_right (by norm_num) (not_lt.mp hi)))
    rw [hbit, Bool.false_and]

lemma bit_rshift_num (n : Int) {m k : Nat} (hk : k < 64) :
    bit ((Value.rshift J (.num n) m).toULL J) k = shiftedBit (J.tobit n) m k := by
  generalize hx : J.tobit n >>> UInt32.ofNat m = x
  have hlow := x.toInt32.le_toInt
  have hhigh := x.toInt32.toInt_lt
  have hbits : x.toNat = (J.tobit n).toNat / 2 ^ (m % 32) := by
    have hm : (UInt32.ofNat m).toNat % 32 = m % 32 := by
      rw [UInt32.toNat_ofNat', Nat.mod_mod_of_dvd m (by norm_num)]
    rw [← hx, UInt32.toNat_shiftRight, hm, Nat.shiftRight_eq_div_pow]
  -- the sign of the 32 bits fills the upper half of the 64 bits
  have hsign : bit (J.toULL x.toInt32.toInt) k =
      if k < 32 then x.toNat.testBit k else x.toNat.testBit 31 := by
    have hext : (J.toULL x.toInt32.toInt).toNat = (x.toBitVec.signExtend 64).toNat := by
      rw [J.toULL_eq _ (by omega) (by omega), UInt64.ofInt, UInt64.toNat_ofNat', BitVec.signExtend,
        BitVec.toNat_ofInt]
      have htoInt : x.toInt32.toInt = x.toBitVec.toInt := rfl
      rw [htoInt]
      omega
    rw [bit, hext, ← BitVec.getLsbD, BitVec.getLsbD_signExtend, decide_eq_true hk, Bool.true_and]
    split
    · rfl
    · rw [BitVec.msb_eq_getLsbD_last]
      rfl
  have hu := (J.tobit n).toNat_lt
  rw [Value.rshift, Value.toULL, hx, hsign, hbits, shiftedBit, Nat.testBit_div_two_pow,
    Nat.testBit_div_two_pow]
  generalize (J.tobit n).toNat = u at hu
  have hout : ∀ j, 32 ≤ j → u.testBit j = false := fun j hj =>
    Nat.testBit_lt_two_pow (hu.trans_le (Nat.pow_le_pow_right (by norm_num) hj))
  by_cases hk32 : k < 32
  · have hfill : ¬(m % 32 = 0 ∧ 32 ≤ k ∧ k < 64) := fun h => absurd h.2.1 (not_le.mpr hk32)
    rw [if_pos hk32, decide_eq_false hfill, Bool.false_and, Bool.or_false]
    by_cases hsum : k + m % 32 < 32
    · rw [decide_eq_true hsum, Bool.true_and]
    · rw [decide_eq_false hsum, Bool.false_and, hout _ (not_lt.mp hsum)]
  · have hsum : ¬k + m % 32 < 32 := by omega
    rw [if_neg hk32, decide_eq_false hsum, Bool.false_and, Bool.false_or]
    by_cases hm : m % 32 = 0
    · have hfill : m % 32 = 0 ∧ 32 ≤ k ∧ k < 64 := ⟨hm, not_lt.mp hk32, hk⟩
      rw [decide_eq_true hfill, Bool.true_and, hm]
    · have hfill : ¬(m % 32 = 0 ∧ 32 ≤ k ∧ k < 64) := fun h => hm h.1
      rw [decide_eq_false hfill, Bool.false_and, hout _ (by omega)]

lemma Valid.crossing (hp : p.Valid width) (hcross : p.s / 64 ≠ p.e / 64) :
    p.e / 64 = p.s / 64 + 1 ∧ 0 < p.s % 64 := by
  have hse := hp.s_le
  have hsize := hp.size_le
  omega

lemma sets_num {n : Int} (hv : p.v = .num n) (hi : p.s / 64 ≠ p.e / 64 ∧ 64 * (p.e / 64) ≤ i) :
    p.sets J i = shiftedBit (J.tobit n) (64 - p.s % 64) (i - 64 * (p.e / 64)) := by
  rw [sets, hv]
  exact if_pos hi

lemma sets_ull {u : UInt64} (hv : p.v = .ull u) : p.sets J i = p.wants i := by rw [sets, hv]

lemma sets_of_lt (p : BitPattern) (hi : i < 64 * (p.e / 64)) : p.sets J i = p.wants i := by
  rw [sets]
  split
  · rw [if_neg (by omega)]
  · rfl

lemma Valid.bit_upper (hp : p.Valid width) (hcross : p.s / 64 ≠ p.e / 64)
    (hi : i / 64 = p.e / 64) :
    bit ((p.v.rshift J (64 - p.s % 64)).toULL J) (i % 64) = p.sets J i := by
  obtain ⟨hnext, hpos⟩ := hp.crossing hcross
  have hlt : i % 64 < 64 := Nat.mod_lt i (by norm_num)
  have hsub : i - 64 * (p.e / 64) = i % 64 := by omega
  have hlower : 64 - p.s % 64 < 64 := by omega
  cases hv : p.v with
  | num n => rw [bit_rshift_num n hlt, sets_num hv ⟨hcross, by omega⟩, hsub]
  | ull u =>
    have hle : p.s ≤ i := by omega
    have hadd : i % 64 + (64 - p.s % 64) = i - p.s := by omega
    have hvalue : p.value = u.toNat := by rw [value, hv]
    rw [Value.rshift, Value.toULL, bit_shiftRight hlower, hadd, sets_ull hv, wants_eq,
      decide_eq_true hle, Bool.true_and, hvalue]
    rfl

lemma Valid.sets_outside (hp : p.Valid width) (hcross : p.s / 64 ≠ p.e / 64)
    (hfirst : i / 64 ≠ p.s / 64) (hsecond : i / 64 ≠ p.e / 64) : p.sets J i = false := by
  obtain ⟨hnext, -⟩ := hp.crossing hcross
  have hwants : p.wants i = false := by
    by_cases hlt : i < p.s
    · rw [wants_eq, decide_eq_false (not_le.mpr hlt), Bool.false_and]
    · exact hp.wants_of_lt (by omega)
  rw [sets]
  split
  · split
    case isTrue hin =>
      have hout : ¬i - 64 * (p.e / 64) + (64 - p.s % 64) % 32 < 32 := by omega
      have hout' : ¬((64 - p.s % 64) % 32 = 0 ∧ 32 ≤ i - 64 * (p.e / 64) ∧
          i - 64 * (p.e / 64) < 64) := by omega
      rw [shiftedBit, decide_eq_false hout, decide_eq_false hout', Bool.false_and, Bool.false_and,
        Bool.or_false]
    case isFalse => exact hwants
  · exact hwants

end BitPattern

lemma bit_shiftLeft_block {u : UInt64} (hblock : i / 64 = k / 64) :
    bit (u <<< UInt64.ofNat (k % 64)) (i % 64) = (decide (k ≤ i) && bit u (i - k)) := by
  have hk : k % 64 < 64 := Nat.mod_lt k (by norm_num)
  have hi : i % 64 < 64 := Nat.mod_lt i (by norm_num)
  rw [bit_shiftLeft hk hi]
  by_cases hle : k ≤ i
  · have hle' : k % 64 ≤ i % 64 := by omega
    have hsub : i % 64 - k % 64 = i - k := by omega
    rw [decide_eq_true hle, decide_eq_true hle', hsub]
  · have hle' : ¬k % 64 ≤ i % 64 := by omega
    rw [decide_eq_false hle, decide_eq_false hle', Bool.false_and, Bool.false_and]

lemma addPattern_eq (hp : p.Valid width) (v : List UInt64) :
    ∃ v', addPattern J width v p = some v' ∧ v'.length = v.length ∧
      ∀ i, i / 64 < v.length → blockBit v' i = (blockBit v i || p.sets J i) := by
  have hse := hp.s_le
  have he := hp.e_lt
  have hguard : p.s < width ∧ p.e < width ∧ 0 < p.e + 1 - p.s ∧
      p.v.toULL J ≤ maxVal (p.e + 1 - p.s) := ⟨by omega, he, by omega, hp.toULL_le⟩
  rw [addPattern]
  dsimp only
  rw [if_pos hguard]
  by_cases hblock : p.s / 64 = p.e / 64
  · rw [if_pos hblock]
    refine ⟨_, rfl, List.length_modify .., ?_⟩
    intro i hi
    have hsets : p.sets J i = p.wants i := by
      rw [BitPattern.sets]
      split
      · rw [if_neg (not_and_of_not_left _ (not_ne_iff.mpr hblock))]
      · rfl
    rw [blockBit_modify v _ _ hi, hsets]
    by_cases his : i / 64 = p.s / 64
    · rw [decide_eq_true his, Bool.true_and, bit_shiftLeft_block his, hp.bit_and_maxVal,
        BitPattern.wants_eq]
    · rw [decide_eq_false his, Bool.false_and]
      by_cases hlt : i < p.s
      · rw [BitPattern.wants_eq, decide_eq_false (not_le.mpr hlt), Bool.false_and]
      · rw [hp.wants_of_lt (by omega)]
  · obtain ⟨hnext, hpos⟩ := hp.crossing hblock
    have hlower : 64 - p.s % 64 < 64 := by omega
    rw [if_neg hblock]
    refine ⟨_, rfl, by rw [List.length_modify, List.length_modify], ?_⟩
    intro i hi
    have hi' : i / 64 < (v.modify (p.s / 64) (· |||
        (p.v.toULL J &&& ones (64 - p.s % 64)) <<< UInt64.ofNat (p.s % 64))).length := by
      rwa [List.length_modify]
    rw [blockBit_modify _ _ _ hi', blockBit_modify _ _ _ hi, Bool.or_assoc]
    congr 1
    by_cases hfirst : i / 64 = p.s / 64
    · have hsecond : i / 64 ≠ p.e / 64 := by omega
      have hin : decide (i - p.s < 64 - p.s % 64) = true := decide_eq_true (by omega)
      rw [decide_eq_true hfirst, decide_eq_false hsecond, Bool.true_and, Bool.false_and,
        Bool.or_false, bit_shiftLeft_block hfirst, bit_and, bit_ones hlower, hin, Bool.and_true,
        bit, hp.toNat_toULL, p.sets_of_lt (by omega), BitPattern.wants_eq]
    · rw [decide_eq_false hfirst, Bool.false_and, Bool.false_or]
      by_cases hsecond : i / 64 = p.e / 64
      · rw [decide_eq_true hsecond, Bool.true_and, hp.bit_upper hblock hsecond]
      · rw [decide_eq_false hsecond, Bool.false_and, hp.sets_outside hblock hfirst hsecond]

lemma foldlM_addPattern (hall : ∀ p ∈ tbl, p.Valid width) (v : List UInt64) :
    ∃ v', tbl.foldlM (addPattern J width) v = some v' ∧ v'.length = v.length ∧
      ∀ i, i / 64 < v.length → blockBit v' i = (blockBit v i || tbl.any (·.sets J i)) := by
  induction tbl generalizing v with
  | nil => exact ⟨v, rfl, rfl, fun i _ => (Bool.or_false _).symm⟩
  | cons p tbl ih =>
    obtain ⟨v₁, hstep, hlen₁, hbit₁⟩ := addPattern_eq (J := J) (hall p List.mem_cons_self) v
    obtain ⟨v₂, hrun, hlen₂, hbit₂⟩ := ih (fun q hq => hall q (List.mem_cons_of_mem p hq)) v₁
    refine ⟨v₂, ?_, hlen₂.trans hlen₁, ?_⟩
    · rw [List.foldlM_cons, hstep]
      exact hrun
    · intro i hi
      rw [hbit₂ i (by rwa [hlen₁]), hbit₁ i hi, List.any_cons, Bool.or_assoc]

/-! ### The text -/

/-- The number that the blocks make up. -/
def blocksValue (v : List UInt64) : Nat := Words.value 64 (v.map UInt64.toNat)

lemma lt_of_mem_map_toNat (v : List UInt64) : ∀ x ∈ v.map UInt64.toNat, x < 2 ^ 64 := by
  intro x hx
  obtain ⟨u, -, rfl⟩ := List.mem_map.mp hx
  exact u.toNat_lt

lemma blocksValue_lt (v : List UInt64) : blocksValue v < 2 ^ (64 * v.length) := by
  have hlt := Words.value_lt (lt_of_mem_map_toNat v)
  rwa [List.length_map] at hlt

lemma testBit_blocksValue (v : List UInt64) (i : Nat) :
    (blocksValue v).testBit i = blockBit v i := by
  have hget : (v.map UInt64.toNat).getD (i / 64) 0 = (v.getD (i / 64) 0).toNat :=
    List.getD_map v 0 UInt64.toNat
  rw [blocksValue, Words.testBit_value (by norm_num) (lt_of_mem_map_toNat v), hget]
  rfl

lemma flatMap_tohex (v : List UInt64) :
    v.reverse.flatMap tohex = spell 16 (16 * v.length) (blocksValue v) := by
  have htext := flatMap_spell (d := 16) (by norm_num) (lt_of_mem_map_toNat v)
  rwa [← List.map_reverse, List.flatMap_map, List.length_map] at htext

lemma spell_inj {m n : Nat} (hm : m < 2 ^ (64 * k)) (hn : n < 2 ^ (64 * k)) :
    spell 16 (16 * k) m = spell 16 (16 * k) n ↔ m = n := by
  have hpow : 16 ^ (16 * k) = 2 ^ (64 * k) := by
    rw [show (16 : Nat) = 2 ^ 4 by norm_num, ← pow_mul]
    congr 1
    omega
  constructor
  · intro heq
    have hvalue := congrArg hexValue heq
    rwa [hexValue_spell, hexValue_spell, hpow, Nat.mod_eq_of_lt hm, Nat.mod_eq_of_lt hn] at hvalue
  · intro heq
    rw [heq]

lemma BitPattern.Valid.beyond (hp : p.Valid width) (hi : 64 * numBlocks width ≤ i) :
    p.sets J i = false ∧ p.wants i = false := by
  have hse := hp.s_le
  have he := hp.e_lt
  have hblocks : width ≤ 64 * numBlocks width := by
    rw [numBlocks]
    omega
  have hwants : p.wants i = false := hp.wants_of_lt (by omega)
  refine ⟨?_, hwants⟩
  by_cases hcross : p.s / 64 = p.e / 64
  · rw [BitPattern.sets]
    split
    · rw [if_neg (not_and_of_not_left _ (not_ne_iff.mpr hcross)), hwants]
    · exact hwants
  · have hbeyond : p.e / 64 < i / 64 := by
      rw [numBlocks] at hi
      omega
    exact hp.sets_outside hcross (by omega) (by omega)

lemma bitpatToHexStr_eq {width : Option Nat} (hne : tbl ≠ [])
    (hall : ∀ p ∈ tbl, p.Valid (width.getD 64)) :
    ∃ n, bitpatToHexStr J tbl width = some (spell 16 (16 * numBlocks (width.getD 64)) n) ∧
      n < 2 ^ (64 * numBlocks (width.getD 64)) ∧ ∀ i, n.testBit i = tbl.any (·.sets J i) := by
  have hwidth : width ≠ some 0 := by
    rintro rfl
    obtain ⟨p, tbl, rfl⟩ := List.exists_cons_of_ne_nil hne
    exact absurd (hall p List.mem_cons_self).e_lt (Nat.not_lt_zero _)
  obtain ⟨v, hrun, hlen, hbit⟩ := foldlM_addPattern (J := J) hall
    (List.replicate (numBlocks (width.getD 64)) 0)
  rw [List.length_replicate] at hlen hbit
  refine ⟨blocksValue v, ?_, hlen ▸ blocksValue_lt v, ?_⟩
  · rw [bitpatToHexStr, if_neg (not_or.mpr ⟨hne, hwidth⟩), hrun, ← hlen, ← flatMap_tohex]
    rfl
  · intro i
    rw [testBit_blocksValue]
    by_cases hi : i / 64 < numBlocks (width.getD 64)
    · have hzero : blockBit (List.replicate (numBlocks (width.getD 64)) 0) i = false := by
        rw [blockBit, List.getD_replicate _ hi]
        exact Nat.zero_testBit _
      rw [hbit i hi, hzero, Bool.false_or]
    · have hge : 64 * numBlocks (width.getD 64) ≤ i := by omega
      have hnone : tbl.any (·.sets J i) = false := by
        rw [List.any_eq_false]
        intro p hp
        rw [((hall p hp).beyond hge).1]
        exact Bool.false_ne_true
      rw [hnone, ← testBit_blocksValue]
      exact Nat.testBit_lt_two_pow ((hlen ▸ blocksValue_lt v).trans_le
        (Nat.pow_le_pow_right (by norm_num) hge))

lemma valid_singleton {s e n : Nat} (hse : s ≤ e) (he : e < width) (hsize : e - s + 1 ≤ 64)
    (hn : n < 2 ^ (e - s + 1)) : ∀ p ∈ [BitPattern.mk s e (.num n)], p.Valid width := by
  intro p hp
  obtain rfl := List.mem_singleton.mp hp
  constructor
  · exact hse
  · exact he
  · exact hsize
  · intro m hm
    rw [← (Value.num.inj hm)]
    exact Int.natCast_nonneg n
  · exact hn

end Verilua.LuaUtils
