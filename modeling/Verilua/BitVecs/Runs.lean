import Verilua.BitVecs.Construct

/-!
# Histories of a vector of bits

A vector is made, updated and written to. The constructor and the update mask the last beat, and
nothing else does: a number of more than 32 bits stays in the beat it was put into, and a write may
set bits above the width or add beats. Where no step does so, the vector has as many beats as its
width needs, and all bits above the width are zero.
-/

namespace Verilua.BitVecs

open Lua StrBits Word64

variable {J : Jit} {l : List Int} {bv bv' : BitVec} {s e i j k p w : Nat} {x : Int} {v : UInt64}

/-! ### Making and updating -/

/-- `auto_bit_width` -/
def Data.autoBitWidth : Data → Nat
  | .table data => data.length * 32
  | .buffer data => data.length * 32
  | .ull _ => 64
  | .num _ => 32
  | .str data => data.chars.length * 4

/-- Every number that is put into a beat fits, or the beat is masked, and there is such a beat. -/
def Data.InWidth (w : Nat) : Data → Prop
  | .table data => ∀ i, i < data.length → (w % 32 = 0 ∨ i + 1 ≠ getBeatSize w) →
      IsWord (beat data i)
  | .buffer _ => True
  | .ull _ => 1 ≤ w
  | .num data => 1 ≤ w ∧ (32 ≤ w → IsWord data)
  | .str _ => True

lemma beat_append_zeros (l : List Int) (m i : Nat) :
    beat (l ++ List.replicate m 0) i = beat l i := by
  rw [beat, beat]
  by_cases hi : i < l.length
  · rw [List.getD_append _ _ _ _ hi]
  · rw [List.getD_append_right _ _ _ _ (not_lt.mp hi), List.getD_eq_default l _ (not_lt.mp hi)]
    by_cases hm : i - l.length < m
    · rw [List.getD_replicate _ hm]
    · rw [List.getD_eq_default _ _ (by rw [List.length_replicate]; exact not_lt.mp hm)]

lemma isWord_zero : IsWord 0 := by decide

lemma maskable_of_areWords (hl : AreWords l) (hlen : l.length = getBeatSize w) : Maskable l w :=
  ⟨hlen, fun i _ => hl.beat i⟩

lemma maskable_tableBeats {data : List Int} (hdata : Data.InWidth w (.table data))
    (hbeats : tableBeats data (getBeatSize w) = some l) : Maskable l w := by
  rw [tableBeats] at hbeats
  split at hbeats
  case isTrue => cases hbeats
  case isFalse hlen =>
    obtain rfl := Option.some_inj.mp hbeats
    constructor
    · rw [List.length_append, List.length_replicate]
      omega
    · intro i hi
      rw [beat_append_zeros]
      by_cases hin : i < data.length
      · exact hdata i hin hi
      · rw [beat_of_le (not_lt.mp hin)]
        exact isWord_zero

lemma maskable_numBeats (hdata : Data.InWidth w (.num x)) :
    Maskable (numBeats x (getBeatSize w)) w := by
  obtain ⟨hw, hword⟩ := hdata
  constructor
  · rw [numBeats, List.length_cons, List.length_replicate, getBeatSize]
    omega
  · intro i hi
    cases i with
    | zero =>
      apply hword
      rw [getBeatSize] at hi
      omega
    | succ i =>
      have hrest : beat (numBeats x (getBeatSize w)) (i + 1) =
          beat ([] ++ List.replicate (getBeatSize w - 1) 0) i := rfl
      rw [hrest, beat_append_zeros]
      exact isWord_zero

lemma maskable_ullBeats (u : UInt64) (hw : 1 ≤ w) : Maskable (ullBeats J u (getBeatSize w)) w := by
  have hk : getBeatSize w ≠ 0 := by
    rw [getBeatSize]
    omega
  rw [ullBeats_eq u hk]
  exact maskable_of_areWords (areWords_wordBeats _ _) (length_wordBeats _ _)

lemma maskable_hexBeats {t : HexText} (hbeats : hexBeats t.chars (getHexStrLen w) = some l) :
    Maskable l w := by
  by_cases hlen : t.chars.length ≤ getHexStrLen w
  · rw [hexBeats_eq t hlen] at hbeats
    obtain rfl := Option.some_inj.mp hbeats
    exact maskable_of_areWords (areWords_wordBeats _ _) (length_wordBeats _ _)
  · rw [hexBeats, if_pos (not_le.mp hlen)] at hbeats
    cases hbeats

lemma areWords_buffer (data : List UInt32) : AreWords (data.map fun u => (u.toNat : Int)) := by
  intro x hx
  obtain ⟨u, -, rfl⟩ := List.mem_map.mp hx
  exact isWord_natCast u.toNat_lt

lemma inWidth_of_areWords (hl : AreWords l) (w : Nat) : Data.InWidth w (.table l) :=
  fun i _ _ => hl.beat i

lemma init_maskable {data : Data} {bitWidth : Option Nat}
    (hdata : data.InWidth (bitWidth.getD data.autoBitWidth))
    (hinit : BitVec.init J data bitWidth = some bv) :
    ∃ l, Maskable l (bitWidth.getD data.autoBitWidth) ∧
      bv = finish J l (bitWidth.getD data.autoBitWidth) := by
  cases data with
  | table data =>
    cases bitWidth with
    | some w =>
      obtain ⟨l, hbeats, rfl⟩ := Option.map_eq_some_iff.mp hinit
      exact ⟨l, maskable_tableBeats hdata hbeats, rfl⟩
    | none =>
      obtain rfl := Option.some_inj.mp hinit
      have hsize : getBeatSize (data.length * 32) = data.length := by
        rw [getBeatSize]
        omega
      refine ⟨data, ⟨hsize.symm, fun i _ => ?_⟩, rfl⟩
      by_cases hin : i < data.length
      · exact hdata i hin (.inl (Nat.mul_mod_left _ _))
      · rw [beat_of_le (not_lt.mp hin)]
        exact isWord_zero
  | buffer data =>
    have hwords := areWords_buffer data
    cases bitWidth with
    | some w =>
      obtain ⟨l, hbeats, rfl⟩ := Option.map_eq_some_iff.mp hinit
      exact ⟨l, maskable_tableBeats (inWidth_of_areWords hwords _) hbeats, rfl⟩
    | none =>
      obtain rfl := Option.some_inj.mp hinit
      refine ⟨_, maskable_of_areWords hwords ?_, rfl⟩
      rw [List.length_map, Option.getD_none, Data.autoBitWidth, getBeatSize]
      omega
  | ull data =>
    cases bitWidth with
    | some w =>
      obtain rfl := Option.some_inj.mp hinit
      exact ⟨_, maskable_ullBeats data hdata, rfl⟩
    | none =>
      obtain rfl := Option.some_inj.mp hinit
      exact ⟨_, maskable_ullBeats (w := 64) data (by norm_num), rfl⟩
  | num data =>
    cases bitWidth with
    | some w =>
      obtain rfl := Option.some_inj.mp hinit
      exact ⟨_, maskable_numBeats hdata, rfl⟩
    | none =>
      obtain rfl := Option.some_inj.mp hinit
      exact ⟨_, maskable_numBeats (w := 32) hdata, rfl⟩
  | str data =>
    cases bitWidth with
    | some w =>
      obtain ⟨l, hbeats, rfl⟩ := Option.map_eq_some_iff.mp hinit
      exact ⟨l, maskable_hexBeats hbeats, rfl⟩
    | none =>
      obtain rfl := Option.some_inj.mp hinit
      obtain ⟨hwords, -, hlen⟩ := hexStrToU32Vec_words data
      refine ⟨_, maskable_of_areWords hwords ?_, rfl⟩
      rw [hlen, Option.getD_none, Data.autoBitWidth, getBeatSize]
      omega

theorem init_wellFormed {data : Data} {bitWidth : Option Nat}
    (hdata : data.InWidth (bitWidth.getD data.autoBitWidth))
    (hinit : BitVec.init J data bitWidth = some bv) :
    bv.WellFormed ∧ bv.bitWidth = bitWidth.getD data.autoBitWidth := by
  obtain ⟨l, hmaskable, rfl⟩ := init_maskable hdata hinit
  obtain ⟨hwell, hwidth, -⟩ := finish_eq (J := J) hmaskable
  exact ⟨hwell, hwidth⟩

theorem BitVec.WellFormed.updateValue (h : bv.WellFormed) {data : Data}
    (hdata : data.InWidth bv.bitWidth) (hrun : bv.updateValue J data = some bv') :
    bv'.WellFormed ∧ bv'.bitWidth = bv.bitWidth := by
  have hlen : bv.u32Vec.length = getBeatSize bv.bitWidth := h.length_eq
  have hinit : BitVec.init J data (some bv.bitWidth) = some bv' := by
    cases data with
    | table data =>
      cases data with
      | nil => cases hrun
      | cons d data =>
        rw [BitVec.updateValue, hlen] at hrun
        exact hrun
    | buffer data => cases hrun
    | ull data =>
      rw [BitVec.updateValue, hlen] at hrun
      exact hrun
    | num data =>
      rw [BitVec.updateValue, hlen] at hrun
      exact hrun
    | str data => exact hrun
  have hdata' : data.InWidth ((some bv.bitWidth).getD data.autoBitWidth) := hdata
  exact init_wellFormed hdata' hinit

/-! ### Writing -/

/-- No beat is added, and no bit is set above the width. Within one beat `e` may lie below `s`: the
count of bits is taken modulo 64 then, and a bit that is put above the beat is one too many. -/
def InWidth (w s e : Nat) (v : UInt64) : Prop :=
  s / 32 ≤ e / 32 → e / 32 < getBeatSize w ∧
    ∀ i, bit v i = true →
      if s ≤ e then i ≤ e - s → s + i < w
      else i < (64 - (s - (e + 1))) % 64 → s % 32 + i < 64 → s + i < w ∧ s % 32 + i < 32

/-- The bits of a beat that is written with `e` below `s`. -/
lemma bit_newBeat_reversed (hes : e < s) (hsame : s / 32 = e / 32) (x : Int) (v : UInt64)
    (hk : k < 64) :
    bit (newBeat J s e v (s / 32) x) k =
      if s % 32 ≤ k ∧ k - s % 32 < (64 - (s - (e + 1))) % 64 then bit v (k - s % 32)
      else bit (J.toULL x) k := by
  have hbits : (((e % 32 : Nat) : Int) - (s % 32 : Nat) + 1) % 64 =
      ((64 - (s - (e + 1))) % 64 : Nat) := by omega
  have hsb : s % 32 < 64 := by omega
  have hn : (64 - (s - (e + 1))) % 64 < 64 := Nat.mod_lt _ (by norm_num)
  rw [newBeat]
  dsimp only
  rw [if_pos rfl, if_pos hsame, hbits, Int.toNat_natCast, bit_or, bit_and, bit_not hk,
    bit_shiftLeft hsb hk, bit_shiftLeft hsb hk, bit_and, bit_ones hn]
  by_cases hin : s % 32 ≤ k ∧ k - s % 32 < (64 - (s - (e + 1))) % 64
  · rw [if_pos hin, decide_eq_true hin.1, decide_eq_true hin.2]
    simp
  · rw [if_neg hin]
    rcases not_and_or.mp hin with hlow | hhigh
    · simp [hlow]
    · simp [hhigh]

lemma BitVec.WellFormed.setBeat (h : bv.WellFormed) (hj : j < bv.beatSize) (hx : IsWord x)
    (hbits : ∀ k, k < 32 → bv.bitWidth ≤ j * 32 + k → x.toNat.testBit k = false) :
    BitVec.WellFormed { bv with u32Vec := BitVecs.setBeat bv.u32Vec j x } := by
  have hwords := h.areWords.setBeat hx j
  constructor
  · change (BitVecs.setBeat bv.u32Vec j x).length = bv.beatSize
    rw [length_setBeat (by rw [h.length_eq]; exact hj), h.length_eq]
  · exact hwords
  · intro p hp
    rw [BitVec.value, testBit_valueOf hwords, beat_setBeat]
    split
    case isTrue hpj =>
      apply hbits _ (Nat.mod_lt p (by norm_num))
      rw [← hpj, Nat.div_add_mod']
      exact hp
    case isFalse =>
      have hold := h.unused p hp
      rwa [BitVec.value, testBit_valueOf h.areWords] at hold

/-- A write with `e` below `s`. -/
lemma BitVec.WellFormed.setBitfield_reversed (h : bv.WellFormed) {v : Value} (hes : e < s)
    (hin : InWidth bv.bitWidth s e (v.toULL J)) (hrun : bv.setBitfield J s e v = some bv') :
    bv'.WellFormed ∧ bv'.bitWidth = bv.bitWidth := by
  have hsize : ¬63 < e - s := by omega
  rw [BitVec.setBitfield, if_neg hsize] at hrun
  obtain rfl := Option.some_inj.mp hrun
  refine ⟨?_, rfl⟩
  by_cases hsame : s / 32 = e / 32
  · obtain ⟨hbeat, hbits⟩ := hin hsame.le
    have hids : beatIds s e = [s / 32] := by
      rw [beatIds, ← hsame, Nat.add_sub_cancel_left]
      rfl
    have hword := h.areWords.beat (s / 32)
    have hbit : ∀ k, k < 64 →
        bit (newBeat J s e (v.toULL J) (s / 32) (beat bv.u32Vec (s / 32))) k = true →
        k < 32 ∧ s / 32 * 32 + k < bv.bitWidth := by
      intro k hk hone
      rw [bit_newBeat_reversed hes hsame _ _ hk] at hone
      split at hone
      case isTrue hpos =>
        have hput := hbits (k - s % 32) hone
        rw [if_neg (not_le.mpr hes)] at hput
        have hput' := hput hpos.2 (by omega)
        omega
      case isFalse =>
        have hk32 : k < 32 := by
          by_contra hge
          rw [bit_toULL_of_le hword (not_lt.mp hge)] at hone
          cases hone
        refine ⟨hk32, ?_⟩
        by_contra hge
        have hold : (valueOf bv.u32Vec).testBit (s / 32 * 32 + k) = false :=
          h.unused _ (not_lt.mp hge)
        rw [bit_beat h.areWords hk32, hold] at hone
        cases hone
    have hlt : (newBeat J s e (v.toULL J) (s / 32) (beat bv.u32Vec (s / 32))).toNat < 2 ^ 32 := by
      apply Nat.lt_pow_two_of_testBit
      intro k hk
      by_contra hone
      have hone' := Bool.eq_true_of_not_eq_false hone
      by_cases hk64 : k < 64
      · exact absurd (hbit k hk64 hone').1 (not_lt.mpr hk)
      · exact hone (bit_of_le (not_lt.mp hk64))
    rw [hids]
    refine h.setBeat (hsame ▸ hbeat) ?_ ?_
    · rw [J.tonumber_eq _ (by omega)]
      exact isWord_natCast hlt
    · intro k hk hge
      rw [J.tonumber_eq _ (by omega), Int.toNat_natCast]
      by_contra hone
      have hone' := Bool.eq_true_of_not_eq_false hone
      exact absurd (hbit k (by omega) hone').2 (not_lt.mpr hge)
  · -- the beat of `e` lies below that of `s`, and no round is run
    have hids : beatIds s e = [] := by
      have hnone : e / 32 + 1 - s / 32 = 0 := by omega
      rw [beatIds, hnone]
      rfl
    rw [hids]
    exact h

theorem BitVec.WellFormed.setBitfield (h : bv.WellFormed) {v : Value}
    (hin : InWidth bv.bitWidth s e (v.toULL J)) (hrun : bv.setBitfield J s e v = some bv') :
    bv'.WellFormed ∧ bv'.bitWidth = bv.bitWidth := by
  by_cases hse : s ≤ e
  · by_cases hsize : 63 < e - s
    · rw [BitVec.setBitfield, if_pos hsize] at hrun
      cases hrun
    obtain ⟨hbeat, hbits⟩ := hin (Nat.div_le_div_right hse)
    obtain ⟨bv'', hwrite, hwrote⟩ := setBitfield_eq (J := J) h.areWords hse (not_lt.mp hsize) v
    obtain rfl := Option.some_inj.mp (hrun.symm.trans hwrite)
    refine ⟨?_, hwrote.bitWidth_eq⟩
    constructor
    · rw [hwrote.length_eq (by rw [h.length_eq]; exact hbeat), h.length_eq, BitVec.beatSize,
        BitVec.beatSize, hwrote.bitWidth_eq]
    · exact hwrote.areWords
    · intro p hp
      rw [hwrote.bitWidth_eq] at hp
      have hold : (valueOf bv.u32Vec).testBit p = false := h.unused p hp
      rw [hwrote.testBit_eq, written, hold, Bool.and_false, Bool.or_false]
      split
      case isTrue hpos =>
        by_contra hone
        have hput := hbits (p - s) (Bool.eq_true_of_not_eq_false hone)
        rw [if_pos hse] at hput
        have hlt := hput (by omega)
        omega
      case isFalse => rfl
  · exact h.setBitfield_reversed (not_le.mp hse) hin hrun

/-- Every word of a list is written below the width. -/
def ListInWidth (J : Jit) (w s e : Nat) (u32Vec : List Int) : Prop :=
  ∀ i, s + i * 32 ≤ e → InWidth w (s + i * 32) (min (s + i * 32 + 31) e) (J.toULL (beat u32Vec i))

lemma foldlM_wellFormed (h : bv.WellFormed) {ws : List Int}
    (hin : ListInWidth J bv.bitWidth s e ws) {m : Nat} (hm : s + m * 32 ≤ e)
    (hrun : (List.range m).foldlM (fun bv i =>
      bv.setBitfield J (s + i * 32) (s + i * 32 + 31) (.num (beat ws i))) bv = some bv') :
    bv'.WellFormed ∧ bv'.bitWidth = bv.bitWidth := by
  induction m generalizing bv' with
  | zero =>
    obtain rfl := Option.some_inj.mp hrun
    exact ⟨h, rfl⟩
  | succ m ih =>
    rw [List.range_succ, List.foldlM_append] at hrun
    obtain ⟨bv₁, hrun₁, hlast⟩ := Option.bind_eq_some_iff.mp hrun
    obtain ⟨hwell, hwidth⟩ := ih (by omega) hrun₁
    rw [List.foldlM_cons] at hlast
    obtain ⟨bv₂, hstep, hend⟩ := Option.bind_eq_some_iff.mp hlast
    obtain rfl := Option.some_inj.mp hend
    have hput := hin m (by omega)
    rw [min_eq_left (by omega), ← hwidth] at hput
    obtain ⟨hwell', hwidth'⟩ := hwell.setBitfield hput hstep
    exact ⟨hwell', hwidth'.trans hwidth⟩

lemma InWidth.and (hin : InWidth w s e v) (u : UInt64) : InWidth w s e (v &&& u) := by
  intro hle
  obtain ⟨hbeat, hbits⟩ := hin hle
  refine ⟨hbeat, fun i hi => hbits i ?_⟩
  rw [bit_and, Bool.and_eq_true] at hi
  exact hi.1

theorem BitVec.WellFormed.setBitfieldVec (h : bv.WellFormed) {ws : List Int}
    (hin : ListInWidth J bv.bitWidth s e ws) (hrun : bv.setBitfieldVec J s e ws = some bv') :
    bv'.WellFormed ∧ bv'.bitWidth = bv.bitWidth := by
  rw [BitVec.setBitfieldVec] at hrun
  dsimp only at hrun
  split_ifs at hrun with hguard hone
  · have hput := hin 0 (by omega)
    have hstart : s + 0 * 32 = s := by omega
    have hmin : min (s + 31) e = e := by omega
    rw [hstart, hmin] at hput
    exact h.setBitfield hput hrun
  · rw [Nat.add_sub_cancel] at hrun
    obtain ⟨bv₁, hrun₁, hlast⟩ := Option.bind_eq_some_iff.mp hrun
    have hle : s + (e - s) / 32 * 32 ≤ e := by omega
    obtain ⟨hwell, hwidth⟩ := foldlM_wellFormed h hin hle hrun₁
    have hput := hin ((e - s) / 32) hle
    rw [min_eq_right (by omega), ← hwidth] at hput
    obtain ⟨hwell', hwidth'⟩ := hwell.setBitfield (v := .ull _) (hput.and _) hlast
    exact ⟨hwell', hwidth'.trans hwidth⟩

/-! ### Histories -/

/-- A call that may change a vector. -/
inductive Call
  | updateValue (data : Data)
  | setBitfield (s e : Nat) (v : Value)
  | setBitfieldHexStr (s e : Nat) (hexStr : HexText)
  | setBitfieldVec (s e : Nat) (u32Vec : List Int)

def BitVec.call (J : Jit) (bv : BitVec) : Call → Option BitVec
  | .updateValue data => bv.updateValue J data
  | .setBitfield s e v => bv.setBitfield J s e v
  | .setBitfieldHexStr s e hexStr => bv.setBitfieldHexStr J s e hexStr
  | .setBitfieldVec s e u32Vec => bv.setBitfieldVec J s e u32Vec

def Call.InWidth (J : Jit) (w : Nat) : Call → Prop
  | .updateValue data => data.InWidth w
  | .setBitfield s e v => BitVecs.InWidth w s e (v.toULL J)
  | .setBitfieldHexStr s e hexStr => ListInWidth J w s e (hexStrToU32Vec hexStr.chars)
  | .setBitfieldVec s e u32Vec => ListInWidth J w s e u32Vec

lemma BitVec.WellFormed.call (h : bv.WellFormed) {c : Call} (hc : c.InWidth J bv.bitWidth)
    (hrun : bv.call J c = some bv') : bv'.WellFormed ∧ bv'.bitWidth = bv.bitWidth := by
  cases c with
  | updateValue data => exact h.updateValue hc hrun
  | setBitfield s e v => exact h.setBitfield hc hrun
  | setBitfieldHexStr s e hexStr => exact h.setBitfieldVec hc hrun
  | setBitfieldVec s e u32Vec => exact h.setBitfieldVec hc hrun

lemma BitVec.WellFormed.calls (h : bv.WellFormed) {cs : List Call}
    (hcs : ∀ c ∈ cs, c.InWidth J bv.bitWidth) (hrun : cs.foldlM (BitVec.call J) bv = some bv') :
    bv'.WellFormed := by
  induction cs generalizing bv with
  | nil =>
    obtain rfl := Option.some_inj.mp hrun
    exact h
  | cons c cs ih =>
    rw [List.foldlM_cons] at hrun
    obtain ⟨bv₁, hstep, hrest⟩ := Option.bind_eq_some_iff.mp hrun
    obtain ⟨hwell, hwidth⟩ := h.call (hcs c List.mem_cons_self) hstep
    refine ih hwell (fun d hd => ?_) hrest
    rw [hwidth]
    exact hcs d (List.mem_cons_of_mem c hd)

/-- A vector that was made, updated and written to within its width has as many beats as its width
needs, all of them words, and no bit above the width. -/
theorem calls_wellFormed (J : Jit) {data : Data} {bitWidth : Option Nat} {cs : List Call}
    (hdata : data.InWidth (bitWidth.getD data.autoBitWidth))
    (hcs : ∀ c ∈ cs, c.InWidth J (bitWidth.getD data.autoBitWidth))
    (hrun : (BitVec.init J data bitWidth >>= fun bv => cs.foldlM (BitVec.call J) bv) = some bv) :
    bv.u32Vec.length = (bv.bitWidth + 31) / 32 ∧ (∀ x ∈ bv.u32Vec, 0 ≤ x ∧ x < 2 ^ 32) ∧
      ∀ p, bv.bitWidth ≤ p → bv.value.testBit p = false := by
  obtain ⟨bv₀, hinit, hcalls⟩ := Option.bind_eq_some_iff.mp hrun
  obtain ⟨hwell, hwidth⟩ := init_wellFormed hdata hinit
  have hall := hwell.calls (fun c hc => hwidth ▸ hcs c hc) hcalls
  exact ⟨hall.length_eq, hall.areWords, hall.unused⟩

/-- Two bits of a vector of 38 are written, and then it is set to a number. -/
theorem calls_wellFormed_two :
    List.length (BitVec.u32Vec ⟨[5, 0], 38, 2⟩) = (38 + 31) / 32 := by
  have hdata : Data.InWidth ((some 38).getD (Data.autoBitWidth (.num 7))) (.num 7) :=
    ⟨by decide, fun _ => by decide⟩
  have hcs : ∀ c ∈ [Call.setBitfield 36 37 (.num 3), .updateValue (.num 5)],
      c.InWidth .exact ((some 38).getD (Data.autoBitWidth (.num 7))) := by
    intro c hc
    rcases List.mem_cons.mp hc with rfl | hc
    · refine fun _ => ⟨by decide, fun i _ => ?_⟩
      rw [if_pos (by decide)]
      intro hi
      exact Nat.lt_of_le_of_lt (Nat.add_le_add_left hi 36) (by decide)
    · rw [List.mem_singleton.mp hc]
      exact ⟨by decide, fun _ => by decide⟩
  have hrun : (BitVec.init .exact (.num 7) (some 38) >>= fun bv =>
      [Call.setBitfield 36 37 (.num 3), .updateValue (.num 5)].foldlM (BitVec.call .exact) bv) =
      some ⟨[5, 0], 38, 2⟩ := rfl
  exact (calls_wellFormed .exact hdata hcs hrun).1

/-- Four bits are written to a vector of 38, two of them above the width. -/
theorem not_wellFormed_setBitfield :
    ∃ bv, (BitVec.init .exact (.num 0) (some 38) >>= fun bv =>
        [.setBitfield 36 39 (.num 15)].foldlM (BitVec.call .exact) bv) = some bv ∧
      bv.bitWidth = 38 ∧ bv.u32Vec = [0, 0xF0] ∧ bv.value.testBit 38 = true :=
  ⟨_, rfl, rfl, by decide, by decide⟩

end Verilua.BitVecs
