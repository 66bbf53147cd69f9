import Verilua.Getters.Unknown
import Verilua.Wellen.Formats

/-!
# Reads at every index

Whether a read of a signal comes to a value at an index of the time table, and whether the vector
that it hands out has the words that the getters read. Before the first change only the index 0 is
asserted, and the vector has one word.
-/

namespace Verilua.Wellen

open Wave
open Codec (Outcome)
open Getters (Feature beatNum readVector multiLoop readHi vpimlGetValue64 vpimlGetValueMulti)

/-- A signal of bit vectors of one width, whose first change is at `first`. -/
structure Signal.IsVector (signal : Signal) (width first : Nat) : Prop where
  firstTimeIdx : signal.firstTimeIdx = some first
  before : ∀ idx < first, signal.valueAt idx = none
  since : ∀ idx, first ≤ idx → ∃ bv, signal.valueAt idx = some (.bitVec bv) ∧ bv.width = width

variable {signal : Signal} {width first idx : Nat}

/-- The getters find every word that they read. -/
structure Serves (words : List Put.VecVal) (width : Nat) : Prop where
  length : (width + 31) / 32 ≤ words.length
  value64 : ∀ (feature : Feature) resolve, ∃ n,
    vpimlGetValue64 feature resolve (beatNum width) words = .value n
  valueMulti : ∀ (feature : Feature) resolve, ∃ ret,
    vpimlGetValueMulti feature resolve words (beatNum width) = .value ret

/-- No read panics, and before the first change all read 0. -/
structure Total (signal : Signal) (width first idx : Nat) : Prop where
  value : ∀ format, ∃ v, signal.valueFromIndex idx format = .value v ∧
    (idx < first → v.number? format = some 0)
  valueStr : ∃ s, signal.valueStr idx = .value s ∧ (idx < first → readNumeral 2 s = some 0)
  intValue : ∃ i, signal.intValue idx = .value i ∧ (idx < first → i = 0)
  vector : ∃ words, signal.valueFromIndex idx .vpiVectorVal = .value (.vector words) ∧
    Serves words width

/-! ### The getters -/

lemma exists_multiLoop (feature : Feature) (resolve : Bool) {words : List Put.VecVal} {i n : Nat}
    (h : i + n ≤ words.length) : ∃ l, multiLoop feature resolve words i n = .value l := by
  induction n generalizing i with
  | zero => exact ⟨[], rfl⟩
  | succ n ih =>
    obtain ⟨l, hl⟩ := ih (i := i + 1) (by omega)
    have hread : readVector words i = .value words[i] := by
      rw [readVector, List.getElem?_eq_getElem (by omega)]
    rw [multiLoop, hread, Outcome.value_bind, hl, Outcome.value_bind]
    split_ifs
    · exact ⟨0 :: l, rfl⟩
    · exact ⟨words[i].aval :: l, rfl⟩

lemma serves_of_length {words : List Put.VecVal} (hpos : 0 < width)
    (hlen : (width + 31) / 32 ≤ words.length) : Serves words width := by
  have hread : ∀ i (hi : i < words.length), readVector words i = .value words[i] := by
    intro i hi
    rw [readVector, List.getElem?_eq_getElem hi]
  refine ⟨hlen, fun feature resolve => ?_, fun feature resolve => ?_⟩
  · have hhi : ∃ v, readHi (beatNum width) words = .value v := by
      rw [readHi]
      split_ifs with hmany
      · exact ⟨_, hread 1 (hmany.trans_le hlen)⟩
      · exact ⟨.zero, rfl⟩
    obtain ⟨hi, hhi⟩ := hhi
    rw [vpimlGetValue64, hread 0 (by omega), Outcome.value_bind, hhi, Outcome.value_bind]
    split_ifs
    · exact ⟨_, rfl⟩
    · exact ⟨_, rfl⟩
  · have hloop : 0 + beatNum width ≤ words.length := (Nat.zero_add _).trans_le hlen
    obtain ⟨l, hl⟩ := exists_multiLoop feature resolve hloop
    rw [vpimlGetValueMulti, hl, Outcome.value_bind]
    exact ⟨_, rfl⟩

/-! ### Values -/

lemma length_bytesToU32sBe (bytes : List UInt8) :
    (bytesToU32sBe bytes).length = (bytes.length + 3) / 4 := by
  unfold bytesToU32sBe
  dsimp only
  split_ifs with hpad
  · rw [List.length_cons, length_chunksExact, List.length_drop]
    omega
  · rw [length_chunksExact]
    omega

lemma vector_of_value (bv : BitVecRef) :
    ∃ words, wellenVpiGetValueFromIndex (some bv) .vpiVectorVal = .vector words ∧
      words.length = (bv.width + 31) / 32 := by
  rw [wellenVpiGetValueFromIndex]
  split_ifs
  · refine ⟨_, rfl, ?_⟩
    rw [List.length_map, List.length_reverse, length_bytesToU32sBe, bv.length_beBytes,
      BitVecRef.width]
    omega
  · exact ⟨_, rfl, List.length_replicate⟩

lemma width_pos (bv : BitVecRef) : 0 < bv.width := List.length_pos_iff.mpr bv.bits_ne_nil

lemma total_of_value {bv : BitVecRef} (hbv : signal.bitVecAt idx = .value (some bv))
    (hwidth : bv.width = width) (hsince : first ≤ idx) : Total signal width first idx := by
  have hread : ∀ format, signal.valueFromIndex idx format =
      .value (wellenVpiGetValueFromIndex (some bv) format) := by
    intro format
    rw [Signal.valueFromIndex, hbv, Outcome.value_bind]
    rfl
  have hnot : ¬ idx < first := not_lt.mpr hsince
  obtain ⟨words, hwords, hlen⟩ := vector_of_value bv
  refine ⟨fun format => ⟨_, hread format, fun h => absurd h hnot⟩, ?_, ?_, ?_⟩
  · refine ⟨bv.toBitString, ?_, fun h => absurd h hnot⟩
    rw [Signal.valueStr, hbv, Outcome.value_bind]
    rfl
  · refine ⟨wellenGetIntValue (some bv), ?_, fun h => absurd h hnot⟩
    rw [Signal.intValue, hbv, Outcome.value_bind]
    rfl
  · refine ⟨words, (hread _).trans (congrArg Outcome.value hwords), ?_⟩
    exact serves_of_length (hwidth ▸ width_pos bv) (hwidth ▸ hlen.ge)

/-! ### Before the first change -/

lemma valueFromIndex_zero (hnone : signal.bitVecAt 0 = .value none)
    (hfirst : signal.firstTimeIdx = some first) (format : Format) :
    signal.valueFromIndex 0 format = .value (wellenVpiGetValueFromIndex none format) := by
  rw [Signal.valueFromIndex, hnone, Outcome.value_bind, if_neg]
  · rfl
  · rintro ⟨-, h | h⟩
    · exact h rfl
    · rw [hfirst] at h
      cases h

lemma total_of_zero (hnone : signal.bitVecAt 0 = .value none)
    (hfirst : signal.firstTimeIdx = some first) (hpos : 0 < width) (hle : width ≤ 32) :
    Total signal width first 0 := by
  have hread := valueFromIndex_zero hnone hfirst
  refine ⟨fun format => ⟨_, hread format, fun _ => ?_⟩, ⟨['0'], ?_, fun _ => by decide⟩,
    ⟨0, ?_, fun _ => rfl⟩, ⟨[.zero], hread _, ?_⟩⟩
  · cases format <;> decide
  · rw [Signal.valueStr, hnone, Outcome.value_bind]
    rfl
  · rw [Signal.intValue, hnone, Outcome.value_bind]
    rfl
  · refine serves_of_length hpos ?_
    rw [List.length_singleton]
    omega

theorem total_iff (h : signal.IsVector width first) (hidx : idx < 2 ^ 32) :
    Total signal width first idx ↔ first ≤ idx ∨ idx = 0 ∧ width ≤ 32 := by
  have hmod : idx % 2 ^ 32 = idx := Nat.mod_eq_of_lt hidx
  have hpos : 0 < width := by
    obtain ⟨bv, -, hwidth⟩ := h.since first le_rfl
    exact hwidth ▸ width_pos bv
  have hnone : idx < first → signal.bitVecAt idx = .value none := by
    intro hlt
    rw [Signal.bitVecAt, hmod, h.before idx hlt]
  constructor
  · intro htotal
    rw [or_iff_not_imp_left, not_le]
    intro hlt
    have hzero : idx = 0 := by
      by_contra hne
      obtain ⟨v, hv, -⟩ := htotal.value .vpiIntVal
      rw [Signal.valueFromIndex, hnone hlt, Outcome.value_bind, if_pos ⟨rfl, .inl hne⟩] at hv
      cases hv
    subst hzero
    refine ⟨rfl, ?_⟩
    obtain ⟨words, hwords, hserves⟩ := htotal.vector
    rw [valueFromIndex_zero (hnone hlt) h.firstTimeIdx] at hwords
    obtain rfl : [Put.VecVal.zero] = words := by
      simpa [wellenVpiGetValueFromIndex] using hwords
    have hlen := hserves.length
    rw [List.length_singleton] at hlen
    omega
  · rintro (hsince | ⟨rfl, hle⟩)
    · obtain ⟨bv, hbv, hwidth⟩ := h.since idx hsince
      refine total_of_value ?_ hwidth hsince
      rw [Signal.bitVecAt, hmod, hbv]
    · rcases Nat.eq_zero_or_pos first with hfirst | hfirst
      · obtain ⟨bv, hbv, hwidth⟩ := h.since 0 hfirst.le
        refine total_of_value ?_ hwidth hfirst.le
        rw [Signal.bitVecAt, hmod, hbv]
      · exact total_of_zero (hnone hfirst) h.firstTimeIdx hpos hle

/-- A signal that has its one value from an index on. -/
def lateSignal (first : Nat) (bv : BitVecRef) : Signal :=
  ⟨some first, fun idx => if first ≤ idx then some (.bitVec bv) else none⟩

lemma isVector_late (first : Nat) (bv : BitVecRef) :
    (lateSignal first bv).IsVector bv.width first where
  firstTimeIdx := rfl
  before _ hlt := if_neg (not_le.mpr hlt)
  since _ hle := ⟨bv, if_pos hle, rfl⟩

theorem total_iff_late :
    Total (lateSignal 2 oneBit) 1 2 5 ↔ 2 ≤ 5 ∨ 5 = 0 ∧ 1 ≤ 32 :=
  total_iff (isVector_late 2 oneBit) (by decide)

/-- At index 1, between the start and the first change, the assertion fails. -/
theorem not_total :
    ¬ ∀ (signal : Signal) (width first idx : Nat), signal.IsVector width first → idx < 2 ^ 32 →
      Total signal width first idx := by
  intro h
  have htotal := h (lateSignal 2 oneBit) 1 2 1 (isVector_late 2 oneBit) (by decide)
  obtain ⟨v, hv, -⟩ := htotal.value .vpiIntVal
  have hpanic : (lateSignal 2 oneBit).valueFromIndex 1 .vpiIntVal = .panic := rfl
  rw [hpanic] at hv
  cases hv

end Verilua.Wellen
