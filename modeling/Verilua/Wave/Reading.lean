import Mathlib.Data.List.TakeWhile
import Verilua.Wave.ValueCb

/-!
# What a value callback reads

The value callbacks compare texts, and recover the integer from the text: what a reading shows when
nothing stands between it and the waveform, which changes it can tell, and which integers come out.
-/

namespace Verilua.Wave

/-! ### Texts and integers -/

lemma Bit.char_injective : Function.Injective Bit.char := by
  intro a b h
  cases a <;> cases b <;> first | rfl | exact absurd h (by decide)

lemma Bit.isDigit_char {bit : Bit} (h : bit.isTwoState = true) : bit.char.isDigit = true := by
  cases bit <;> first | rfl | cases h

lemma Bit.digit_char {bit : Bit} (h : bit.isTwoState = true) :
    bit.char.toNat - '0'.toNat = bit.toNat := by
  cases bit <;> first | rfl | cases h

lemma value_ten_of_value_two_eq_zero {ds : List Nat} (h : Numeral.value 2 ds = 0) :
    Numeral.value 10 ds = 0 := by
  induction ds using List.reverseRecOn with
  | nil => rfl
  | append_singleton ds d ih =>
    rw [Numeral.value_concat] at h ⊢
    have hhead := ih (by omega)
    omega

lemma value_ten_of_value_two_le {ds : List Nat} (h : Numeral.value 2 ds ≤ 1) :
    Numeral.value 10 ds = Numeral.value 2 ds := by
  induction ds using List.reverseRecOn with
  | nil => rfl
  | append_singleton ds d ih =>
    rw [Numeral.value_concat] at h ⊢
    have hhead : Numeral.value 2 ds = 0 := by omega
    rw [Numeral.value_concat, value_ten_of_value_two_eq_zero hhead, hhead]

lemma stoi_of_number_le {bits : List Bit} (htwo : bits.all Bit.isTwoState = true)
    (hnumber : Bit.number bits ≤ 1) (hne : bits ≠ []) :
    stoi (bits.map Bit.char) = some (Bit.number bits) := by
  have hdigits : (bits.map Bit.char).takeWhile Char.isDigit = bits.map Bit.char := by
    rw [List.takeWhile_eq_self_iff]
    intro c hc
    obtain ⟨bit, hbit, rfl⟩ := List.mem_map.mp hc
    exact Bit.isDigit_char (List.all_eq_true.mp htwo bit hbit)
  have hvalue : Numeral.value 10 ((bits.map Bit.char).map fun c => c.toNat - '0'.toNat) =
      Bit.number bits := by
    have hmap : (bits.map Bit.char).map (fun c => c.toNat - '0'.toNat) = bits.map Bit.toNat := by
      rw [List.map_map]
      exact List.map_congr_left fun bit hbit =>
        Bit.digit_char (List.all_eq_true.mp htwo bit hbit)
    rw [hmap]
    exact value_ten_of_value_two_le hnumber
  have hsome : bits.map Bit.char ≠ [] := by simpa using hne
  have hlt : Bit.number bits < 2 ^ 31 := by omega
  simp only [stoi, hdigits, if_neg hsome, hvalue, if_pos hlt]

/-! ### Readings -/

/-- The text begins with a decimal numeral of an `int`, and a 2-state value is 0 or 1. -/
def spells (bits : List Bit) : Bool :=
  (stoi (bits.map Bit.char)).isSome &&
    (!bits.all Bit.isTwoState || decide (Bit.number bits ≤ 1))

namespace Signal

variable (sig : Signal) (w : Window) (idx : Nat)

/-- The value of the waveform, if there is one yet. -/
def bits? : Option (List Bit) := (sig.found idx).bits?

/-- The value can be read: with `wellen` there is one, unless the index is the first, and with FSDB
the window of the JIT worker, if it covers the index, holds the value, which has no X and Z if it is
read as a text. -/
def readable : Bool :=
  match sig.found idx with
  | .wellen _ value => value.isSome || decide (idx = 0)
  | .fsdb retVC => decide (sig.bitSize ≤ 32 → w.Covers idx →
      w.entry? idx = some (sig.optValue idx) ∧
        (sig.bitSize = 1 ∨ retVC.all Bit.isTwoState = true))

/-- A change to the value of the index can be told: with FSDB a single bit does not change among 0,
X and Z, a text spells the value, and a first value is not the 0 that is read before it. -/
def tellable : Bool :=
  match sig.found idx with
  | .wellen _ value => value.all fun bv =>
      spells bv.bits && ((sig.bits? (idx - 1)).isSome || decide (bv.bits ≠ [.zero]))
  | .fsdb retVC =>
    if sig.bitSize = 1 then decide (sig.optValue idx ≠ sig.optValue (idx - 1)) else spells retVC

/-- What is seen of a value that can be read. -/
def shows : Seen :=
  match sig.found idx with
  | .wellen _ value => .str (value.elim ['0'] BitVecRef.toBitString)
  | .fsdb retVC =>
    if sig.bitSize = 1 then .bit (sig.optValue idx) else .str (retVC.map Bit.char)

variable {sig w idx}

lemma int_fsdbGetValue {retVC : List Bit} (hfound : sig.found idx = .fsdb retVC)
    (hread : sig.readable w idx = true) :
    (sig.fsdbGetValue w idx .vpiIntVal).int = sig.optValue idx := by
  have hopt : sig.optValue idx = fsdbSum 0 retVC := by
    rw [optValue, hfound]
    exact fsdbOptValue_eq
  simp only [readable, hfound, decide_eq_true_eq] at hread
  rw [fsdbGetValue]
  split_ifs with hsize
  · rw [vpiGetValue]
    split_ifs with hcovers
    · rw [(hread hsize hcovers).1]
      rfl
    · rw [hfound, hopt]
      rfl
  · rw [hfound, hopt]
    rfl

lemma text_fsdbGetValue {retVC : List Bit} (hfound : sig.found idx = .fsdb retVC)
    (hread : sig.readable w idx = true) (hmany : sig.bitSize ≠ 1) :
    (sig.fsdbGetValue w idx .vpiBinStrVal).text = retVC.map Bit.char := by
  have hlen : retVC.length = sig.bitSize := by
    have h := sig.bitSize_found idx
    rwa [hfound] at h
  simp only [readable, hfound, decide_eq_true_eq] at hread
  rw [fsdbGetValue]
  split_ifs with hsize
  · rw [vpiGetValue]
    split_ifs with hcovers
    · obtain ⟨hentry, htwo⟩ := hread hsize hcovers
      have hnum : (sig.optValue idx).toNat = Bit.number retVC := by
        rw [optValue, hfound]
        exact (congrArg UInt32.toNat fsdbOptValue_eq).trans (toNat_fsdbSum_zero (by omega))
      rw [hentry, Option.getD_some, ← hlen]
      exact uint32ToBinStr_eq (by omega) (htwo.resolve_left hmany) hnum
    · rw [hfound]
      rfl
  · rw [hfound]
    rfl

lemma observe_eq (hread : sig.readable w idx = true) :
    sig.observe w idx = some (sig.shows idx) := by
  rw [observe, shows]
  cases hfound : sig.found idx with
  | wellen bitSize value =>
    cases value with
    | none =>
      simp only [readable, hfound, Option.isSome_none, Bool.false_or, decide_eq_true_eq] at hread
      exact if_pos hread
    | some bv => rfl
  | fsdb retVC =>
    dsimp only
    split_ifs with hsize
    · rw [int_fsdbGetValue hfound hread]
    · rw [text_fsdbGetValue hfound hread hsize]

lemma shows_congr {idx' : Nat} (hbackend : (sig.found idx).backend = (sig.found idx').backend)
    (hbits : sig.bits? idx = sig.bits? idx') : sig.shows idx = sig.shows idx' := by
  simp only [bits?, shows, optValue] at hbits ⊢
  cases hfound : sig.found idx with
  | wellen bitSize value =>
    cases hfound' : sig.found idx' with
    | wellen bitSize' value' =>
      rw [hfound, hfound'] at hbits
      have htext : ∀ value : Option BitVecRef, value.elim ['0'] BitVecRef.toBitString =
          (value.map BitVecRef.bits).elim ['0'] (List.map Bit.char) := by
        intro value
        cases value <;> rfl
      exact congrArg Seen.str ((htext value).trans
        ((congrArg (Option.elim · ['0'] (List.map Bit.char)) hbits).trans (htext value').symm))
    | fsdb retVC => simp [hfound, hfound', Found.backend] at hbackend
  | fsdb retVC =>
    cases hfound' : sig.found idx' with
    | wellen bitSize value => simp [hfound, hfound', Found.backend] at hbackend
    | fsdb retVC' =>
      rw [hfound, hfound'] at hbits
      have hsame : retVC = retVC' := by simpa [Found.bits?] using hbits
      rw [hsame]

lemma isSome_bits? (hread : sig.readable w idx = true)
    (hbits : sig.bits? idx ≠ sig.bits? (idx - 1)) : (sig.bits? idx).isSome := by
  cases hfound : sig.found idx with
  | wellen bitSize value =>
    cases value with
    | none =>
      simp only [readable, hfound, Option.isSome_none, Bool.false_or, decide_eq_true_eq] at hread
      subst hread
      exact (hbits rfl).elim
    | some bv => simp [bits?, hfound, Found.bits?]
  | fsdb retVC => simp [bits?, hfound, Found.bits?]

lemma shows_ne (hbackend : (sig.found idx).backend = (sig.found (idx - 1)).backend)
    (hread : sig.readable w idx = true) (htell : sig.tellable idx = true)
    (hbits : sig.bits? idx ≠ sig.bits? (idx - 1)) : sig.shows idx ≠ sig.shows (idx - 1) := by
  have hinj := List.map_injective_iff.mpr Bit.char_injective
  intro hshows
  apply hbits
  cases hfound : sig.found idx with
  | wellen bitSize value =>
    cases hfound' : sig.found (idx - 1) with
    | fsdb retVC => simp [hfound, hfound', Found.backend] at hbackend
    | wellen bitSize' value' =>
      simp only [readable, tellable, bits?, shows, hfound, hfound', Found.bits?]
        at hread htell hshows ⊢
      cases value with
      | none =>
        simp only [Option.isSome_none, Bool.false_or, decide_eq_true_eq] at hread
        subst hread
        rw [hfound] at hfound'
        rw [← (Found.wellen.inj hfound').2]
      | some bv =>
        cases value' with
        | none =>
          simp only [Option.all_some, Option.map_none, Option.isSome_none, Bool.false_or,
            Bool.and_eq_true, decide_eq_true_eq] at htell
          have htext : bv.bits.map Bit.char = [Bit.zero].map Bit.char := Seen.str.inj hshows
          exact (htell.2 (hinj htext)).elim
        | some bv' =>
          have htext : bv.bits.map Bit.char = bv'.bits.map Bit.char := Seen.str.inj hshows
          exact congrArg some (hinj htext)
  | fsdb retVC =>
    cases hfound' : sig.found (idx - 1) with
    | wellen bitSize value => simp [hfound, hfound', Found.backend] at hbackend
    | fsdb retVC' =>
      simp only [tellable, bits?, shows, hfound, hfound', Found.bits?] at htell hshows ⊢
      by_cases hsize : sig.bitSize = 1
      · simp only [if_pos hsize, decide_eq_true_eq] at htell hshows
        exact (htell (Seen.bit.inj hshows)).elim
      · simp only [if_neg hsize] at hshows
        exact congrArg some (hinj (Seen.str.inj hshows))

lemma integer_of_spells {bits : List Bit} (h : spells bits = true) :
    ∃ n, (Seen.str (bits.map Bit.char)).integer = some n ∧
      (bits.all Bit.isTwoState = true → n = UInt32.ofNat (Bit.number bits)) := by
  rw [spells, Bool.and_eq_true, Option.isSome_iff_exists] at h
  obtain ⟨⟨n, hn⟩, hsmall⟩ := h
  refine ⟨UInt32.ofNat n, by simp [Seen.integer, hn], fun htwo => ?_⟩
  have hne : bits ≠ [] := by
    rintro rfl
    cases hn
  have hnumber : Bit.number bits ≤ 1 := by simpa [htwo] using hsmall
  rw [stoi_of_number_le htwo hnumber hne] at hn
  rw [Option.some.inj hn]

/-- A change that can be told gives an integer, which is the value if that is 2-state. -/
lemma integer_shows (htell : sig.tellable idx = true) (hsome : (sig.bits? idx).isSome) :
    ∃ n, (sig.shows idx).integer = some n ∧ ∀ bits, sig.bits? idx = some bits →
      bits.all Bit.isTwoState = true → n = UInt32.ofNat (Bit.number bits) := by
  cases hfound : sig.found idx with
  | wellen bitSize value =>
    simp only [tellable, bits?, shows, hfound, Found.bits?] at htell hsome ⊢
    cases value with
    | none => simp at hsome
    | some bv =>
      simp only [Option.all_some, Bool.and_eq_true] at htell
      obtain ⟨n, hn, htwo⟩ := integer_of_spells htell.1
      refine ⟨n, hn, fun bits hbits => ?_⟩
      obtain rfl := Option.some.inj hbits
      exact htwo
  | fsdb retVC =>
    have hopt : sig.optValue idx = fsdbSum 0 retVC := by
      rw [optValue, hfound]
      exact fsdbOptValue_eq
    have hlen : retVC.length = sig.bitSize := by
      have h := sig.bitSize_found idx
      rwa [hfound] at h
    simp only [tellable, bits?, shows, hfound, Found.bits?] at htell ⊢
    by_cases hsize : sig.bitSize = 1
    · rw [if_pos hsize]
      refine ⟨sig.optValue idx, rfl, fun bits hbits _ => ?_⟩
      obtain rfl := Option.some.inj hbits
      have hshort : retVC.length ≤ 32 := by omega
      apply UInt32.toNat_inj.mp
      rw [hopt, toNat_fsdbSum_zero hshort, UInt32.toNat_ofNat_of_lt' (number_lt_of_le _ hshort)]
    · rw [if_neg hsize] at htell ⊢
      obtain ⟨n, hn, htwo⟩ := integer_of_spells htell
      refine ⟨n, hn, fun bits hbits => ?_⟩
      obtain rfl := Option.some.inj hbits
      exact htwo

end Signal

end Verilua.Wave
