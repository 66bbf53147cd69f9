import Verilua.Access.Compared
import Verilua.BitVecs.Construct
import Verilua.Dpi.Setters

/-!
# Comparison of numbers

Two texts are equal without the zeros in front exactly if they spell one number, so that a comparison
is one of numbers if each text spells the number it stands for. That of a Lua number has eight
digits, and the exporter drops digits of a signal of more than two beats.
-/

namespace Verilua.Access

open BitVecs StrBits Getters DpiExporter
open Put (VecVal)
open Codec (Outcome)

variable {b k m n V : Nat} {s t u : List Char} {ds : List Nat}

/-! ### Numerals -/

/-- The text spells the number in lower case, with any zeros in front. -/
def Spells (b : Nat) (t : List Char) (n : Nat) : Prop :=
  ∃ ds, (∀ d ∈ ds, d < b) ∧ t = ds.map Nat.digitChar ∧ Numeral.value b ds = n

lemma spells_spell (hb : 0 < b) (hn : n < b ^ k) : Spells b (spell b k n) n :=
  ⟨Numeral.fixed b k n, Numeral.lt_of_mem_fixed hb, rfl, by
    rw [Numeral.value_fixed, Nat.mod_eq_of_lt hn]⟩

lemma Spells.exists_spell (ht : Spells b t n) : n < b ^ t.length ∧ t = spell b t.length n := by
  obtain ⟨ds, hds, rfl, rfl⟩ := ht
  rw [List.length_map]
  exact ⟨Numeral.value_lt hds, by rw [spell, Numeral.fixed_value hds]⟩

lemma trimZeros_srep (j : Nat) (t : List Char) : trimZeros (srep j ++ t) = trimZeros t := by
  induction j with
  | zero => rfl
  | succ j ih => exact ih

lemma Spells.trimZeros_eq (ht : Spells b t n) (hb : 0 < b) (hk : t.length ≤ k) :
    trimZeros t = trimZeros (spell b k n) := by
  obtain ⟨hlt, hspell⟩ := ht.exists_spell
  obtain ⟨j, rfl⟩ := Nat.exists_eq_add_of_le' hk
  have hpad := srep_append_spell hb j t.length n
  rw [Nat.mod_eq_of_lt hlt, ← hspell] at hpad
  rw [← hpad, trimZeros_srep]

lemma digitChar_eq_zero_iff {d : Nat} (hd : d < 16) : d.digitChar = '0' ↔ d = 0 := by
  revert d
  decide

lemma spells_trimZeros (ht : Spells b t n) (hb : b ≤ 16) : Spells b (trimZeros t) n := by
  obtain ⟨ds, hds, rfl, rfl⟩ := ht
  induction ds with
  | nil => exact ⟨[], by simp, rfl, rfl⟩
  | cons d ds ih =>
    have hd := hds d List.mem_cons_self
    have hrest : ∀ e ∈ ds, e < b := fun e he => hds e (List.mem_cons_of_mem _ he)
    by_cases hzero : d = 0
    · subst hzero
      rw [Numeral.value_cons, Nat.zero_mul, Nat.zero_add]
      exact ih hrest
    · have hne : ¬d.digitChar = '0' := fun h =>
        hzero ((digitChar_eq_zero_iff (hd.trans_le hb)).mp h)
      have hkeep : trimZeros ((d :: ds).map Nat.digitChar) = (d :: ds).map Nat.digitChar :=
        List.dropWhile_cons_of_neg (by simpa using hne)
      exact ⟨d :: ds, hds, hkeep, rfl⟩

lemma Spells.unique (ht : Spells b t n) (ht' : Spells b t m) (hb : b ≤ 16) : n = m := by
  obtain ⟨ds, hds, rfl, rfl⟩ := ht
  obtain ⟨es, hes, hmap, rfl⟩ := ht'
  have hback : ∀ ds : List Nat, (∀ d ∈ ds, d < b) → digits (ds.map Nat.digitChar) = ds := by
    intro ds hds
    rw [digits, List.map_map]
    refine (List.map_congr_left fun d hd => ?_).trans (List.map_id _)
    simp [lookup_digitChar ((hds d hd).trans_le hb)]
  rw [← hback ds hds, hmap, hback es hes]

/-- Without the zeros in front two texts are equal exactly if the numbers are. -/
theorem trimZeros_eq_iff (hb : 0 < b) (hb16 : b ≤ 16) (ht : Spells b t n) (hu : Spells b u m) :
    trimZeros t = trimZeros u ↔ n = m := by
  constructor
  · intro heq
    exact (heq ▸ spells_trimZeros ht hb16).unique (spells_trimZeros hu hb16) hb16
  · rintro rfl
    rw [ht.trimZeros_eq hb (Nat.le_max_left _ u.length),
      hu.trimZeros_eq hb (Nat.le_max_right t.length _)]

lemma spells_lower (ht : IsHex t) : Spells 16 (lower t) (hexValue t) := by
  rw [lower, map_toLower ht]
  exact spells_spell (by norm_num) (hexValue_lt t)

lemma lower_of_spells (ht : Spells 16 t n) : lower t = t := by
  obtain ⟨ds, hds, rfl, -⟩ := ht
  have hall : ∀ d < 16, d.digitChar.toLower = d.digitChar := by decide
  rw [lower, List.map_map]
  exact List.map_congr_left fun d hd => hall d (hds d hd)

/-! ### What the handles read -/

/-- The text with spaces in front only where the library takes them off. -/
def Vpi.Prints (sim : Vpi) (text t : List Char) : Prop :=
  ∃ pad, text = List.replicate pad ' ' ++ t ∧
    (pad = 0 ∨ sim.feature = .vcs ∨ sim.feature = .iverilog ∧ sim.resolveXAsZero = true)

/-- What a simulator hands out for a signal that has a number. That of Verilator is not relied on for
decimal texts. -/
structure Vpi.Holds (sim : Vpi) (width V : Nat) : Prop where
  integer : width ≤ 32 → sim.integer.toNat = V
  vector : sim.vector = (List.range (beatNum width)).map fun i => ⟨UInt32.ofNat (V / 2 ^ (32 * i)), 0⟩
  hexStrVal : ∃ t, sim.Prints sim.hexStrVal t ∧ IsHex t ∧ hexValue t = V
  binStrVal : ∃ t, sim.Prints sim.binStrVal t ∧ Spells 2 t V
  decStrVal : sim.verilator = false → ∃ t, sim.Prints sim.decStrVal t ∧ Spells 10 t V

/-- The signal of the handle has the number. -/
def ReadHandle.Holds (this : ReadHandle) (V : Nat) : Prop :=
  V < 2 ^ this.width ∧
    match this.reading with
    | .vpi sim => sim.Holds this.width V
    | .exported sim s v => sim.Holds this.width V ∧ s.bitWidth = this.width ∧ v = s.holding V
    | .dpiOnly s v => s.bitWidth = this.width ∧ v = s.holding V

/-- How many digits `GET_HEX_STR` writes behind the terminator. -/
def droppedDigits (s : SignalInfo) : Nat :=
  if 2 < s.beatSize then 8 * s.beatSize - coverWith4 s.bitWidth else 0

/-- How many digits of the number are not in the hexadecimal text. -/
def ReadHandle.dropped (this : ReadHandle) : Nat :=
  match this.reading with
  | .dpiOnly s _ => droppedDigits s
  | _ => 0

def ReadHandle.isDpiOnly (this : ReadHandle) : Bool :=
  match this.reading with
  | .dpiOnly .. => true
  | _ => false

variable {sim : Vpi} {text : List Char} {width : Nat} {this : ReadHandle}

/-- No digit is a space or an `x`. -/
lemma Spells.ne_of_mem (ht : Spells b t n) (hb : b ≤ 16) : ∀ c ∈ t, c ≠ ' ' ∧ c ≠ 'x' := by
  obtain ⟨ds, hds, rfl, -⟩ := ht
  have hall : ∀ d < 16, d.digitChar ≠ ' ' ∧ d.digitChar ≠ 'x' := by decide
  intro c hc
  obtain ⟨d, hd, rfl⟩ := List.mem_map.mp hc
  exact hall d ((hds d hd).trans_le hb)

lemma ne_of_isHex (ht : IsHex t) : ∀ c ∈ t, c ≠ ' ' ∧ c ≠ 'x' := by
  intro c hc
  have hsome := ht c hc
  constructor
  · rintro rfl
    cases hsome
  · rintro rfl
    cases hsome

lemma dropWhile_pad (ht : ∀ c ∈ t, c ≠ ' ') (pad : Nat) :
    (List.replicate pad ' ' ++ t).dropWhile (· = ' ') = t := by
  induction pad with
  | zero =>
    cases t with
    | nil => rfl
    | cons c t => exact List.dropWhile_cons_of_neg (by simpa using ht c List.mem_cons_self)
  | succ pad ih => exact ih

lemma normalizeValueStr_of_dropWhile {raw : List Char} (resolve : Bool)
    (hdrop : raw.dropWhile (· = ' ') = t) (hx : t.contains 'x' = false) :
    normalizeValueStr true resolve raw = t := by
  have hraw : t.length = raw.length → raw = t := by
    intro hlen
    have hsuffix : t <:+ raw := hdrop ▸ List.dropWhile_suffix _
    exact (hsuffix.eq_of_length hlen).symm
  rw [normalizeValueStr, if_neg (by simp)]
  simp only [if_true, hdrop, hx, Bool.and_false, Bool.false_eq_true, if_false]
  split_ifs with hsame
  · simp only [Bool.and_eq_true, decide_eq_true_eq] at hsame
    exact hraw hsame.2
  · rfl

lemma vpimlGetValueBinStr_eq (hprints : sim.Prints text t) (hne : ∀ c ∈ t, c ≠ ' ' ∧ c ≠ 'x') :
    vpimlGetValueBinStr sim.feature sim.resolveXAsZero text = t := by
  obtain ⟨pad, rfl, hpad⟩ := hprints
  have hdrop := dropWhile_pad (fun c hc => (hne c hc).1) pad
  have hx : t.contains 'x' = false := by
    simpa using fun h : 'x' ∈ t => (hne _ h).2 rfl
  have htrim (resolve : Bool) := normalizeValueStr_of_dropWhile resolve hdrop hx
  rcases hpad with rfl | hvcs | ⟨hiverilog, hresolve⟩
  · cases sim.feature with
    | vcs => exact htrim false
    | iverilog =>
      cases sim.resolveXAsZero with
      | true => exact htrim true
      | false => rfl
    | other => rfl
  · rw [hvcs]
    exact htrim false
  · rw [hiverilog, hresolve]
    exact htrim true

lemma cleanHex_eq (hprints : sim.Prints text t) (ht : IsHex t) : Vpi.cleanHex text = t := by
  obtain ⟨pad, rfl, -⟩ := hprints
  have hnone : ∀ c ∈ ['x', 'X', 'z', 'Z'], hexVals.lookup c = none := by
    simp only [List.forall_mem_cons, List.not_mem_nil, false_implies, implies_true, and_true]
    exact ⟨rfl, rfl, rfl, rfl⟩
  rw [Vpi.cleanHex, dropWhile_pad fun c hc => (ne_of_isHex ht c hc).1]
  refine (List.map_congr_left fun c hc => if_neg fun hmem => ?_).trans (List.map_id t)
  have hsome := ht c hc
  rw [hnone c hmem] at hsome
  cases hsome

lemma spells_toDigits (hb : 1 < b) (n : Nat) : Spells b (Nat.toDigits b n) n := by
  obtain ⟨k, -, hlt, hspell⟩ := exists_spell hb n
  rw [hspell]
  exact spells_spell (Nat.zero_lt_of_lt hb) hlt

lemma vpimlGetValueDecStr_eq (hsim : sim.Holds width V) :
    ∃ t, sim.vpimlGetValueDecStr = some t ∧ Spells 10 t V := by
  cases hverilator : sim.verilator with
  | false =>
    obtain ⟨t, hprints, ht⟩ := hsim.decStrVal hverilator
    refine ⟨t, ?_, ht⟩
    rw [Vpi.vpimlGetValueDecStr, if_neg (by simp [hverilator]),
      vpimlGetValueBinStr_eq hprints (ht.ne_of_mem (by norm_num))]
  | true =>
    obtain ⟨t, hprints, ht, rfl⟩ := hsim.hexStrVal
    rw [Vpi.vpimlGetValueDecStr, if_pos hverilator, cleanHex_eq hprints ht]
    cases t with
    | nil => exact ⟨['0'], rfl, spells_toDigits (by norm_num) 0⟩
    | cons c t =>
      refine ⟨_, ?_, spells_toDigits (by norm_num) (hexValue (c :: t))⟩
      show (tonumber16 (c :: t)).map _ = _
      rw [tonumber16_eq ht (List.cons_ne_nil c t), Option.map_some]

lemma multiLoop_eq_map (feature : Feature) (resolve : Bool) (f : Nat → UInt32) {vector : List VecVal}
    {i : Nat} (hvector : ∀ j < k, vector[i + j]? = some ⟨f (i + j), 0⟩) :
    multiLoop feature resolve vector i k = .value ((List.range' i k).map f) := by
  induction k generalizing i with
  | zero => rfl
  | succ k ih =>
    have hhead : readVector vector i = .value ⟨f i, 0⟩ := by
      rw [readVector, show vector[i]? = some ⟨f i, 0⟩ from hvector 0 (Nat.succ_pos k)]
    have hrest := ih (i := i + 1) fun j hj => by
      rw [Nat.add_right_comm i 1 j, Nat.add_assoc i j 1]
      exact hvector (j + 1) (Nat.succ_lt_succ hj)
    rw [multiLoop, hhead, hrest]
    simp [List.range'_succ]

lemma getValueMulti_eq (hsim : sim.Holds width V) :
    sim.getValueMulti (beatNum width) = some (words (beatNum width) V) := by
  have hvector : ∀ j < beatNum width, sim.vector[0 + j]? =
      some ⟨UInt32.ofNat (V / 2 ^ (32 * (0 + j))), 0⟩ := by
    intro j hj
    simp [hsim.vector, hj]
  have hloop := multiLoop_eq_map sim.feature sim.resolveXAsZero
    (fun i => UInt32.ofNat (V / 2 ^ (32 * i))) hvector
  rw [Vpi.getValueMulti, vpimlGetValueMulti, hloop, words, List.range_eq_range']
  rfl

lemma mapM_range (l : List Char) {f : Nat → Option Char} (h : ∀ i < l.length, f i = l[i]?) :
    (List.range l.length).mapM f = some l := by
  have hget : ∀ i ∈ List.range l.length, f i = some (l.getD i '0') := by
    intro i hi
    have hlt := List.mem_range.mp hi
    rw [h i hlt, List.getD_eq_getElem _ _ hlt, List.getElem?_eq_getElem hlt]
  rw [mapM_eq_some_map hget, Option.some_inj]
  apply List.ext_getElem
  · simp
  · intro i hi hi'
    simp [hi']

lemma ffiString_hexCells (si : SignalInfo) (j V : Nat) :
    ffiString (hexCells si (coverWith4 si.bitWidth + j) V) (coverWith4 si.bitWidth + 1) =
      some (spell 16 (coverWith4 si.bitWidth) (V / 16 ^ j)) := by
  set c := coverWith4 si.bitWidth
  have hlen : (spell 16 c (V / 16 ^ j) ++ ['\x00']).length = c + 1 := by simp
  have hcell : ∀ i < (spell 16 c (V / 16 ^ j) ++ ['\x00']).length,
      hexCells si (c + j) V i = (spell 16 c (V / 16 ^ j) ++ ['\x00'])[i]? := by
    intro i hi
    rw [hlen] at hi
    rw [hexCells, Cells.set, Function.update_apply]
    split_ifs with heq
    · rw [heq]
      simp [c]
    · have hlt : i < c := lt_of_le_of_ne (Nat.le_of_lt_succ hi) heq
      rw [List.getElem?_append_left (by rwa [length_spell]), ← take_spell, List.getElem?_take,
        if_pos hlt]
      rfl
  have hne : ∀ x ∈ spell 16 c (V / 16 ^ j), x ≠ '\x00' := by
    intro x hx hnull
    have hhex := isHex_spell c (V / 16 ^ j) x hx
    rw [hnull] at hhex
    cases hhex
  rw [ffiString, ← hlen, mapM_range _ hcell, Option.bind_eq_bind, Option.bind_some,
    if_pos (by simp), List.takeWhile_append_of_pos (by simpa using hne)]
  simp

lemma beatNum_eq (this : ReadHandle) : this.beatNum = beatNum this.width := rfl

lemma beatSize_eq {si : SignalInfo} (hwidth : si.bitWidth = this.width) :
    si.beatSize = this.beatNum := by
  rw [SignalInfo.beatSize, hwidth]
  rfl

lemma get_eq (hholds : this.Holds V) (hone : this.beatNum = 1) :
    ∃ r, this.reading.get = some r ∧ r.toNat = V := by
  obtain ⟨hV, hreading⟩ := hholds
  have hle : this.width ≤ 32 := by
    rw [ReadHandle.beatNum] at hone
    omega
  have hlt : V < 2 ^ 32 := hV.trans_le (Nat.pow_le_pow_right (by norm_num) hle)
  have hdpi : ∀ si : SignalInfo, si.bitWidth = this.width →
      ∃ r, si.get (si.holding V) = some r ∧ r.toNat = V := by
    intro si hwidth
    have hget := get_holding (s := si) (V := V) (by rwa [hwidth])
    rw [Nat.mod_eq_of_lt hlt] at hget
    exact Option.map_eq_some_iff.mp hget
  cases hr : this.reading with
  | vpi sim =>
    rw [hr] at hreading
    exact ⟨_, rfl, hreading.integer hle⟩
  | exported sim si v =>
    rw [hr] at hreading
    obtain ⟨-, hwidth, rfl⟩ := hreading
    exact hdpi si hwidth
  | dpiOnly si v =>
    rw [hr] at hreading
    obtain ⟨hwidth, rfl⟩ := hreading
    exact hdpi si hwidth

lemma getVec_eq (hholds : this.Holds V) (hone : this.beatNum ≠ 1) :
    this.reading.getVec this.beatNum = some (words this.beatNum V) := by
  obtain ⟨-, hreading⟩ := hholds
  have hdpi : ∀ si : SignalInfo, si.bitWidth = this.width →
      (si.getVec.bind fun read => read (si.holding V)) = some (words this.beatNum V) := by
    intro si hwidth
    have hsize : si.beatSize = this.beatNum := beatSize_eq hwidth
    have hsome : si.getVec = some fun v => (List.range si.beatSize).mapM fun i => v.beat i := by
      rw [SignalInfo.getVec, if_neg (by rwa [hsize])]
    rw [hsome, Option.bind_some, ← hsize]
    exact getVec_holding hsome
  cases hr : this.reading with
  | vpi sim =>
    rw [hr] at hreading
    exact getValueMulti_eq hreading
  | exported sim si v =>
    rw [hr] at hreading
    obtain ⟨-, hwidth, rfl⟩ := hreading
    exact hdpi si hwidth
  | dpiOnly si v =>
    rw [hr] at hreading
    obtain ⟨hwidth, rfl⟩ := hreading
    exact hdpi si hwidth

lemma getHexStr_eq (hholds : this.Holds V) :
    ∃ t, this.reading.getHexStr = some t ∧ Spells 16 (lower t) (V / 16 ^ this.dropped) := by
  obtain ⟨hV, hreading⟩ := hholds
  have hvpi : ∀ sim : Vpi, sim.Holds this.width V →
      ∃ t, some (vpimlGetValueBinStr sim.feature sim.resolveXAsZero sim.hexStrVal) = some t ∧
        Spells 16 (lower t) (V / 16 ^ 0) := by
    intro sim hsim
    obtain ⟨t, hprints, ht, rfl⟩ := hsim.hexStrVal
    refine ⟨t, by rw [vpimlGetValueBinStr_eq hprints (ne_of_isHex ht)], ?_⟩
    rw [pow_zero, Nat.div_one]
    exact spells_lower ht
  unfold ReadHandle.dropped
  cases hr : this.reading with
  | vpi sim =>
    rw [hr] at hreading
    exact hvpi sim hreading
  | exported sim si v =>
    rw [hr] at hreading
    exact hvpi sim hreading.1
  | dpiOnly si v =>
    rw [hr] at hreading
    obtain ⟨hwidth, rfl⟩ := hreading
    have hlt : V < 2 ^ si.bitWidth := by rwa [hwidth]
    have hcover := coverWith4_le si
    have hcells : si.getHexStr (si.holding V) =
        some (hexCells si (coverWith4 si.bitWidth + droppedDigits si) V) := by
      rw [droppedDigits]
      split_ifs with hmore
      · rw [getHexStr_more hmore, Nat.add_sub_cancel' hcover, Nat.mul_comm]
      · have hpos := beatSize_pos si
        have hcases : si.beatSize = 1 ∨ si.beatSize = 2 := by omega
        rcases hcases with hone | htwo
        · exact getHexStr_one hone hlt
        · exact getHexStr_two htwo V
    have hdiv : V / 16 ^ droppedDigits si < 16 ^ coverWith4 si.bitWidth :=
      (Nat.div_le_self _ _).trans_lt (lt_digits hlt)
    have hspells := spells_spell (by norm_num : 0 < 16) hdiv
    refine ⟨spell 16 (coverWith4 si.bitWidth) (V / 16 ^ droppedDigits si), ?_, ?_⟩
    · show (si.getHexStr (si.holding V)).bind _ = _
      rw [hcells, Option.bind_some, ffiString_hexCells]
    · rw [lower_of_spells hspells]
      exact hspells

/-! ### Words -/

variable {ws : List Int}

lemma valueOf_eq_iff (hl : AreWords ws) :
    valueOf ws = V ↔ ∀ i, (beat ws i).toNat = V / 2 ^ (32 * i) % 2 ^ 32 := by
  constructor
  · rintro rfl i
    have hget : (ws.map Int.toNat).getD i 0 = (beat ws i).toNat := List.getD_map ws 0 Int.toNat
    rw [← hget, Words.getD_eq (lt_of_mem_toNat hl)]
    rfl
  · intro hbeats
    apply Nat.eq_of_testBit_eq
    intro p
    rw [testBit_valueOf hl, hbeats, Nat.testBit_mod_two_pow, Nat.testBit_div_two_pow,
      decide_eq_true (Nat.mod_lt p (by norm_num)), Bool.true_and, Nat.mod_add_div]

lemma toNat_words {i : Nat} (hi : i < k) :
    ((words k V).getD i 0).toNat = V / 2 ^ (32 * i) % 2 ^ 32 := by
  rw [List.getD_eq_getElem?_getD, getElem?_words hi, Option.getD_some, UInt32.toNat_ofNat']

lemma valueOf_eq_iff_of_lt (hl : AreWords ws) (hV : V < 2 ^ (32 * k)) :
    valueOf ws = V ↔
      (∀ i < k, beat ws i = (((words k V).getD i 0).toNat : Int)) ∧ ∀ x ∈ ws.drop k, x = 0 := by
  have hhigh : ∀ i, k ≤ i → V / 2 ^ (32 * i) % 2 ^ 32 = 0 := by
    intro i hi
    have hlt : V < 2 ^ (32 * i) :=
      hV.trans_le (Nat.pow_le_pow_right (by norm_num) (Nat.mul_le_mul_left 32 hi))
    rw [Nat.div_eq_of_lt hlt, Nat.zero_mod]
  have hword : ∀ i, beat ws i = ((beat ws i).toNat : Int) := fun i =>
    (Int.toNat_of_nonneg (hl.beat i).1).symm
  rw [valueOf_eq_iff hl]
  constructor
  · intro hbeats
    constructor
    · intro i hi
      rw [toNat_words hi, ← hbeats, ← hword]
    · intro x hx
      obtain ⟨i, hi, rfl⟩ := List.getElem_of_mem hx
      have hlt : k + i < ws.length := by
        rw [List.length_drop] at hi
        omega
      have hzero := hword (k + i)
      rw [hbeats, hhigh _ (Nat.le_add_right k i), beat, List.getD_eq_getElem _ _ hlt] at hzero
      rw [List.getElem_drop, hzero, Nat.cast_zero]
  · rintro ⟨hlow, hrest⟩ i
    by_cases hi : i < k
    · rw [hlow i hi, Int.toNat_natCast, toNat_words hi]
    · have hzero : beat ws i = 0 := by
        rw [beat]
        by_cases hlt : i < ws.length
        · rw [List.getD_eq_getElem _ _ hlt]
          apply hrest
          rw [List.mem_drop_iff_getElem]
          exact ⟨i - k, by omega, by congr 1; omega⟩
        · exact List.getD_eq_default _ _ (not_lt.mp hlt)
      rw [hzero, hhigh i (not_lt.mp hi), Int.toNat_zero]

/-! ### The ways of comparing -/

lemma beq_trimZeros (hb : 0 < b) (hb16 : b ≤ 16) (ht : Spells b t n) (hu : Spells b u m) :
    (trimZeros t == trimZeros u) = decide (n = m) := by
  rw [Bool.eq_iff_iff, beq_iff_eq, decide_eq_true_iff]
  exact trimZeros_eq_iff hb hb16 ht hu

lemma isHexStr_eq (hholds : this.Holds V) (hu : Spells 16 (lower u) m) :
    this.isHexStr u = some (decide (V / 16 ^ this.dropped = m)) := by
  obtain ⟨t, hread, ht⟩ := getHexStr_eq hholds
  rw [ReadHandle.isHexStr, hread, ← beq_trimZeros (by norm_num) le_rfl ht hu]
  rfl

lemma isHexStr_spell (hholds : this.Holds V) (hm : m < 16 ^ k) :
    this.isHexStr (spell 16 k m) = some (decide (V / 16 ^ this.dropped = m)) := by
  have hspells := spells_spell (by norm_num : 0 < 16) hm
  exact isHexStr_eq hholds (by rwa [lower_of_spells hspells])

lemma isBinStr_eq (hholds : this.Holds V) (hu : Spells 2 u m) :
    this.isBinStr u = if this.isDpiOnly then none else some (decide (V = m)) := by
  obtain ⟨-, hreading⟩ := hholds
  have hvpi : ∀ sim : Vpi, sim.Holds this.width V →
      (some (vpimlGetValueBinStr sim.feature sim.resolveXAsZero sim.binStrVal)).bind
        (fun t => some (trimZeros t == trimZeros u)) = some (decide (V = m)) := by
    intro sim hsim
    obtain ⟨t, hprints, ht⟩ := hsim.binStrVal
    rw [vpimlGetValueBinStr_eq hprints (ht.ne_of_mem (by norm_num)), Option.bind_some,
      beq_trimZeros (by norm_num) (by norm_num) ht hu]
  unfold ReadHandle.isBinStr ReadHandle.isDpiOnly
  cases hr : this.reading with
  | vpi sim =>
    rw [hr] at hreading
    exact hvpi sim hreading
  | exported sim si v =>
    rw [hr] at hreading
    exact hvpi sim hreading.1
  | dpiOnly si v => rfl

lemma isDecStr_eq (hholds : this.Holds V) (hu : Spells 10 u m) :
    this.isDecStr u = if this.isDpiOnly then none else some (decide (V = m)) := by
  obtain ⟨-, hreading⟩ := hholds
  have hvpi : ∀ sim : Vpi, sim.Holds this.width V →
      sim.vpimlGetValueDecStr.bind (fun t => some (trimZeros t == trimZeros u)) =
        some (decide (V = m)) := by
    intro sim hsim
    obtain ⟨t, htext, ht⟩ := vpimlGetValueDecStr_eq hsim
    rw [htext, Option.bind_some, beq_trimZeros (by norm_num) (by norm_num) ht hu]
  unfold ReadHandle.isDecStr ReadHandle.isDpiOnly
  cases hr : this.reading with
  | vpi sim =>
    rw [hr] at hreading
    exact hvpi sim hreading
  | exported sim si v =>
    rw [hr] at hreading
    exact hvpi sim hreading.1
  | dpiOnly si v => rfl

lemma eqTable_eq (hholds : this.Holds V) (hl : AreWords ws) (hne : ws ≠ []) :
    this.eqTable ws = some (decide (V = valueOf ws)) := by
  have hV : V < 2 ^ (32 * this.beatNum) := hholds.1.trans_le (by
    apply Nat.pow_le_pow_right (by norm_num)
    rw [ReadHandle.beatNum]
    omega)
  have hiff := valueOf_eq_iff_of_lt hl hV
  have hdecide : ∀ equal : Bool, (equal = true ↔ valueOf ws = V) →
      some equal = some (decide (V = valueOf ws)) := by
    intro equal hequal
    rw [Option.some_inj, Bool.eq_iff_iff, decide_eq_true_iff, hequal, eq_comm]
  rw [ReadHandle.eqTable]
  split_ifs with hone
  · obtain ⟨r, hget, rfl⟩ := get_eq hholds hone
    obtain ⟨w, rest, rfl⟩ := List.exists_cons_of_ne_nil hne
    rw [hget, Option.bind_eq_bind, Option.bind_some]
    apply hdecide
    rw [hiff, hone]
    simp [Nat.lt_one_iff, beat, words]
  · rw [getVec_eq hholds hone, Option.bind_eq_bind, Option.bind_some]
    apply hdecide
    rw [hiff]
    simp [ReadHandle.equalWords, beat, List.getD_eq_getElem?_getD]

lemma spells_toHexStr {bv : BitVec} (hl : AreWords bv.u32Vec) (hnr : bv.nrU32Vec = bv.beatSize) :
    Spells 16 (lower bv.toHexStr) (valueOf bv.u32Vec % 2 ^ bv.bitWidth) := by
  set N := valueOf bv.u32Vec
  have hbeats : bv.toHexStr1 =
      BitVec.toHexStr1 ⟨wordBeats (getBeatSize bv.bitWidth) N, bv.bitWidth,
        getBeatSize bv.bitWidth⟩ := by
    rw [BitVec.toHexStr1, BitVec.toHexStr1, hnr]
    refine congrArg (List.flatMap format08x) (List.map_congr_left fun i hi => ?_)
    have hlt : i < getBeatSize bv.bitWidth := List.mem_range.mp (List.mem_reverse.mp hi)
    have hword := (valueOf_eq_iff (V := N) hl).mp rfl i
    rw [← Int.toNat_of_nonneg (hl.beat i).1, hword, beat, List.getD_eq_getElem?_getD, wordBeats,
      List.getElem?_map, Words.getElem?_words hlt]
    rfl
  have htext : bv.toHexStr = spell 16 (getHexStrLen bv.bitWidth) (N % 2 ^ bv.bitWidth) := by
    rw [← toHexStr_eq, BitVec.toHexStr, hbeats]
    rfl
  have hfits : N % 2 ^ bv.bitWidth < 16 ^ getHexStrLen bv.bitWidth :=
    (Nat.mod_lt N (Nat.two_pow_pos _)).trans_le (two_pow_le bv.bitWidth)
  have hspells := spells_spell (by norm_num : 0 < 16) hfits
  rw [htext, lower_of_spells hspells]
  exact hspells

/-! ### Which comparisons are right -/

/-- The ways to write a number. -/
def Compared.Represents (n : Nat) : Compared → Prop
  | .num k => k = n ∧ n < 2 ^ 53
  | .ull u => u.toNat = n
  | .str s =>
    (∃ t, s = '0' :: 'x' :: t ∧ IsHex t ∧ hexValue t = n) ∨
      (∃ t, s = '0' :: 'b' :: t ∧ Spells 2 t n) ∨ Spells 10 s n
  | .bitvec bv =>
    AreWords bv.u32Vec ∧ bv.nrU32Vec = bv.beatSize ∧ valueOf bv.u32Vec % 2 ^ bv.bitWidth = n
  | .table ws => AreWords ws ∧ ws ≠ [] ∧ valueOf ws = n
  | .bool b => b.toNat = n
  | .buffer _ | .other => False

/-- Of a Lua number the low 32 bits are compared, and of a signal that is read without `hdl` the
digits in the text, or nothing if the text is not a hexadecimal one. -/
def ReadHandle.ComparesRight (J : Lua.Jit) (this : ReadHandle) (V n : Nat) : Compared → Prop
  | .num k => V / 16 ^ this.dropped = (J.tobit k).toNat ↔ V = n
  | .str ('0' :: 'x' :: _) | .ull _ | .bitvec _ | .bool _ => V / 16 ^ this.dropped = n ↔ V = n
  | .str _ => this.isDpiOnly = false
  | _ => True

variable {J : Lua.Jit} {x : Compared}

lemma some_decide_iff {p q : Prop} [Decidable p] [Decidable q] :
    some (decide p) = some (decide q) ↔ (p ↔ q) := by
  rw [Option.some_inj, decide_eq_decide]

lemma text_iff {p : Prop} [Decidable p] :
    (if this.isDpiOnly then none else some (decide p)) = some (decide p) ↔
      this.isDpiOnly = false := by
  cases this.isDpiOnly <;> simp

/-- A comparison with a number says whether the signal has the number exactly if the digits that are
compared are equal as the numbers are. -/
theorem eq_iff (harray : this.isArray = false) (hholds : this.Holds V) (hx : x.Represents n) :
    this.eq J x = some (decide (V = n)) ↔ this.ComparesRight J V n x := by
  rw [ReadHandle.eq, harray, if_neg Bool.false_ne_true]
  cases x with
  | num k =>
    have hlt := (J.tobit k).toNat_lt
    rw [ReadHandle.eqImpl, tohex, isHexStr_spell hholds (hlt.trans_eq (by norm_num)),
      some_decide_iff]
    rfl
  | ull u =>
    obtain rfl := hx
    rw [ReadHandle.eqImpl, isHexStr_spell hholds (u.toNat_lt.trans_eq (by norm_num)),
      some_decide_iff]
    rfl
  | str s =>
    rcases hx with ⟨t, rfl, ht, rfl⟩ | ⟨t, rfl, ht⟩ | ht
    · rw [ReadHandle.eqImpl, isHexStr_eq hholds (spells_lower ht), some_decide_iff]
      rfl
    · rw [ReadHandle.eqImpl, isBinStr_eq hholds ht, text_iff]
      rfl
    · have hdigits : ∀ c ∈ s, c ≠ 'x' ∧ c ≠ 'b' := by
        obtain ⟨ds, hds, rfl, -⟩ := ht
        have hall : ∀ d < 10, d.digitChar ≠ 'x' ∧ d.digitChar ≠ 'b' := by decide
        intro c hc
        obtain ⟨d, hd, rfl⟩ := List.mem_map.mp hc
        exact hall d (hds d hd)
      rw [ReadHandle.eqImpl, isDecStr_eq hholds ht, text_iff, ReadHandle.ComparesRight]
      all_goals
        rintro t rfl
        have := hdigits _ (List.mem_cons_of_mem _ List.mem_cons_self)
        simp at this
  | bitvec bv =>
    obtain ⟨hl, hnr, rfl⟩ := hx
    rw [ReadHandle.eqImpl, isHexStr_eq hholds (spells_toHexStr hl hnr), some_decide_iff]
    rfl
  | table ws =>
    obtain ⟨hl, hne, rfl⟩ := hx
    rw [ReadHandle.eqImpl, eqTable_eq hholds hl hne]
    exact iff_of_true rfl trivial
  | bool b =>
    obtain rfl := hx
    have hbit : (if b then ['1'] else ['0']) = spell 16 1 b.toNat := by cases b <;> rfl
    have hlt : b.toNat < 16 ^ 1 := by cases b <;> decide
    rw [ReadHandle.eqImpl, hbit, isHexStr_spell hholds hlt, some_decide_iff]
    rfl
  | buffer data => exact hx.elim
  | other => exact hx.elim

lemma prints_self (sim : Vpi) (t : List Char) : sim.Prints t t := ⟨0, rfl, .inl rfl⟩

/-- A simulator that prints all hexadecimal digits of 64 bits. -/
def wideVpi (V : Nat) : Vpi where
  feature := .other
  verilator := false
  resolveXAsZero := false
  integer := UInt32.ofNat V
  vector := (List.range (beatNum 64)).map fun i => ⟨UInt32.ofNat (V / 2 ^ (32 * i)), 0⟩
  hexStrVal := spell 16 16 V
  binStrVal := Nat.toDigits 2 V
  decStrVal := Nat.toDigits 10 V

def wideHandle (V : Nat) : ReadHandle := ⟨64, false, .vpi (wideVpi V)⟩

lemma holds_wideHandle (hV : V < 2 ^ 64) : (wideHandle V).Holds V := by
  refine ⟨hV, ?_⟩
  show (wideVpi V).Holds 64 V
  constructor
  · intro h
    exact absurd h (by decide)
  · rfl
  · refine ⟨(wideVpi V).hexStrVal, prints_self _ _, ?_⟩
    simp only [wideVpi]
    exact ⟨isHex_spell 16 V, by rw [hexValue_spell, Nat.mod_eq_of_lt (hV.trans_eq (by norm_num))]⟩
  · refine ⟨(wideVpi V).binStrVal, prints_self _ _, ?_⟩
    simp only [wideVpi]
    exact spells_toDigits (by norm_num) V
  · intro _
    refine ⟨(wideVpi V).decStrVal, prints_self _ _, ?_⟩
    simp only [wideVpi]
    exact spells_toDigits (by norm_num) V

theorem eq_iff_five : (wideHandle 5).eq .exact (.num 5) = some (decide (5 = 5)) ↔
    (wideHandle 5).ComparesRight .exact 5 5 (.num 5) :=
  eq_iff rfl (holds_wideHandle (by norm_num)) ⟨rfl, by norm_num⟩

/-- Of `2 ^ 32 + 1` only the low word is compared. -/
theorem not_eq_iff : ¬ ∀ (this : ReadHandle) (V n : Nat) (x : Compared), this.isArray = false →
    this.Holds V → x.Represents n → this.eq .exact x = some (decide (V = n)) := by
  intro hall
  have hclaim := hall (wideHandle 1) 1 (2 ^ 32 + 1) (.num (2 ^ 32 + 1)) rfl
    (holds_wideHandle (by norm_num)) ⟨by norm_num, by norm_num⟩
  have htrue : (wideHandle 1).eq .exact (.num (2 ^ 32 + 1)) = some true := by decide +kernel
  rw [htrue] at hclaim
  simp at hclaim

end Verilua.Access
