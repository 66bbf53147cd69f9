import Verilua.Access.Mirrored
import Verilua.BitVecs.Construct
import Verilua.Lib.BitField
import Verilua.Put.Priority

/-!
# Fields in one time step

A deferred write of a field reads the signal, changes the field in a vector of bits and queues the
whole vector. The signal does not change before the flush, and the queue keeps the last write of a
handle: of several fields, only the last one is on the signal after the flush.
-/

namespace Verilua.Access

open BitVecs Put StrBits TransitionSystem

/-! ### Calls on fields -/

inductive FieldValue
  | value (v : Lua.Value)
  | hexStr (hexStr : HexText)

def FieldValue.Keeps (s e p : Nat) : FieldValue → Prop
  | .value _ => Stuck s e p
  | .hexStr _ => s % 32 ≠ 0 ∧ p % 32 = 31 ∧ p < e

instance (value : FieldValue) (s e p : Nat) : Decidable (value.Keeps s e p) :=
  match value with
  | .value _ => inferInstanceAs (Decidable (Stuck s e p))
  | .hexStr _ => inferInstanceAs (Decidable (_ ∧ _))

/-- `set_bitfield(s, e, v)` or `set_bitfield_hex_str(s, e, hex_str)` -/
structure FieldCall where
  s : Nat
  e : Nat
  le : s ≤ e
  value : FieldValue

namespace FieldCall

def write (c : FieldCall) : Write :=
  match c.value with
  | .value v => .setBitfield c.s c.e v
  | .hexStr hexStr => .setBitfieldHexStr c.s c.e hexStr

/-- The field that is to be assigned. -/
def field (c : FieldCall) : BitField where
  s := c.s
  e := c.e
  le := c.le
  number :=
    match c.value with
    | .value v => low v (c.e - c.s + 1)
    | .hexStr hexStr => hexValue hexStr.chars

/-- The field lies in the signal, and passes the assertions of `BitVec`. -/
def Accepted (width : Nat) (c : FieldCall) : Prop :=
  c.e < width ∧
    match c.value with
    | .value v => c.e - c.s ≤ 63 ∧ Fits v
    | .hexStr hexStr => (hexStr.chars.length + 7) / 8 = (c.e - c.s) / 32 + 1

/-- The bits that `BitVec` does not clear when it writes the field. -/
def Keeps (c : FieldCall) (p : Nat) : Prop := c.value.Keeps c.s c.e p

instance (c : FieldCall) (p : Nat) : Decidable (c.Keeps p) :=
  inferInstanceAs (Decidable (c.value.Keeps c.s c.e p))

end FieldCall

variable (J : Lua.Jit) (get : ComplexHandleRaw → Nat → UInt32)

/-- The calls one after the other, while the simulator has the words `get`. -/
def Chdl.setFields (this : Chdl) (calls : List FieldCall) : Result :=
  calls.foldlM (fun (this, writes) c => do
    let (this, more) ← this.deferred J get c.write
    return (this, writes ++ more)) (this, [])

def VpimlCall.request (c : VpimlCall) : Request := .set c.action c.value

/-! ### The flush of one handle -/

/-- What a flush hands to `vpi_put_value` for the handle, if anything. -/
def flushed (h : ComplexHandle) : Option VpiValue :=
  if h.putValueFlag.isSome then h.pendingValue else none

/-- The number that a signal has after words are put, if no bit of it is X or Z. -/
def numberOf (width : Nat) (ws : List VecVal) : Option Nat :=
  if Words.value 32 (ws.map (·.bval.toNat)) % 2 ^ width = 0 then
    some (Words.value 32 (ws.map (·.aval.toNat)) % 2 ^ width)
  else none

/-- The number that the signal has after the flush. Only vectors are put here. -/
def afterFlush (width v : Nat) : Option VpiValue → Option Nat
  | none => some v
  | some (.vector ws) => numberOf width ws
  | some _ => none

variable {J get} {this this' : Chdl} {c : FieldCall} {v p k : Nat} {bv : BitVec}

/-! ### The vector of bits -/

/-- The buffers of the handle are those of its width. -/
def Chdl.Shaped (this : Chdl) : Prop :=
  ∀ bv, this.bitvec = some bv → bv.bitWidth = this.width ∧ bv.u32Vec.length = this.beatNum

/-- The simulator has the words of a number. -/
def Reads (get : ComplexHandleRaw → Nat → UInt32) (hdl : ComplexHandleRaw) (k v : Nat) : Prop :=
  ∀ i < k, (get hdl i).toNat = v / 2 ^ (32 * i) % 2 ^ 32

lemma foldl_setBeat (f : Nat → Int) {l : List Int} {n : Nat} (hn : n ≤ l.length) :
    (List.range n).foldl (fun l i => setBeat l i (f i)) l = (List.range n).map f ++ l.drop n := by
  induction n with
  | zero => rfl
  | succ n ih =>
    have hlt : n < l.length := hn
    rw [List.range_succ, List.foldl_append, ih (by omega), List.foldl_cons, List.foldl_nil, setBeat,
      if_pos (by simp; omega), List.set_append_right _ _ (by simp), List.map_append,
      List.drop_eq_getElem_cons hlt, List.length_map, List.length_range, Nat.sub_self,
      List.set_cons_zero, List.append_assoc]
    rfl

lemma map_get (hget : Reads get this.hdl k v) :
    ((List.range k).map (get this.hdl)).map (fun w => (w.toNat : Int)) = wordBeats k v := by
  rw [wordBeats, Words.words, List.map_map, List.map_map]
  apply List.map_congr_left
  intro i hi
  simp [hget i (List.mem_range.mp hi)]

lemma bitvecOf_eq (hw : 1 ≤ this.width) (hshape : this.Shaped) (hv : v < 2 ^ this.width)
    (hget : Reads get this.hdl this.beatNum v) :
    ∃ nr, (this.getValueMulti get this.hdl).bitvecOf J this.bitvec =
      some ⟨wordBeats this.beatNum v, this.width, nr⟩ := by
  have hwords := map_get hget
  cases hbv : this.bitvec with
  | none =>
    refine ⟨this.beatNum, ?_⟩
    have hbuffer : BitVec.init J (.buffer ((List.range this.beatNum).map (get this.hdl)))
        (some this.width) = BitVec.init J (.table (wordBeats this.beatNum v)) (some this.width) := by
      rw [← hwords]
      rfl
    have hdenotes : Data.Denotes this.width v (.table (wordBeats this.beatNum v)) := by
      have hfits : v < 2 ^ (32 * this.beatNum) :=
        hv.trans_le (Nat.pow_le_pow_right (by decide) (by rw [Chdl.beatNum]; omega))
      refine ⟨areWords_wordBeats _ _, (length_wordBeats _ _).le, ?_⟩
      rw [valueOf_wordBeats, Nat.mod_eq_of_lt hfits]
    rw [Nat.mod_eq_of_lt hv |>.symm]
    exact hbuffer.trans (init_of_denotes hw hdenotes)
  | some bv =>
    obtain ⟨hwidth, hlen⟩ := hshape bv hbv
    have hsize : bv.beatSize = this.beatNum := by
      rw [BitVec.beatSize, hwidth]
      rfl
    have hbeats : (List.range bv.beatSize).foldl (fun u32Vec i => setBeat u32Vec i
        ((this.getValueMulti get this.hdl).cResults.getD (i + 1) 0).toNat) bv.u32Vec =
          wordBeats this.beatNum v := by
      rw [foldl_setBeat (fun i =>
        (((this.getValueMulti get this.hdl).cResults.getD (i + 1) 0).toNat : Int))
        (by rw [hsize, hlen]), hsize, List.drop_eq_nil_of_le (by rw [hlen]), List.append_nil,
        ← hwords, List.map_map]
      apply List.map_congr_left
      intro i hi
      have hlt := List.mem_range.mp hi
      simp [Chdl.getValueMulti, hlt]
    refine ⟨bv.nrU32Vec, ?_⟩
    rw [Chdl.bitvecOf, Chdl.updateU32Vec, hbeats, hwidth]

namespace FieldCall

/-- What is done to the vector. -/
def edit (J : Lua.Jit) (c : FieldCall) (bv : BitVec) : Option BitVec :=
  match c.value with
  | .value v => bv.setBitfield J c.s c.e v
  | .hexStr hexStr => bv.setBitfieldHexStr J c.s c.e hexStr

/-- Bit `p` after the call, of a signal that has the number `v`. -/
def after (c : FieldCall) (v p : Nat) : Bool :=
  if c.field.covers p then c.field.bit p || (decide (c.Keeps p) && v.testBit p) else v.testBit p

lemma covers_iff {c : FieldCall} : c.field.covers p = true ↔ c.s ≤ p ∧ p ≤ c.e :=
  decide_eq_true_iff

end FieldCall

lemma edit_eq (hacc : c.Accepted this.width) (hl : AreWords bv.u32Vec) :
    ∃ bv', c.edit J bv = some bv' ∧ Wrote bv c.e (c.after bv.value) bv' := by
  obtain ⟨s, e, le, value⟩ := c
  cases value with
  | value v =>
    obtain ⟨-, hsize, hfits⟩ := hacc
    dsimp only at hsize
    obtain ⟨bv', hwrite, hwrote⟩ := setBitfield_eq (J := J) hl le hsize v
    refine ⟨bv', hwrite, { hwrote with testBit_eq := fun p => (hwrote.testBit_eq p).trans ?_ }⟩
    rw [written, FieldCall.after]
    by_cases hin : s ≤ p ∧ p ≤ e
    · have hbit : (low v (e - s + 1)).testBit (p - s) = Word64.bit (v.toULL J) (p - s) := by
        rw [testBit_low (J := J) hfits (by omega), decide_eq_true (by omega), Bool.true_and]
      rw [if_pos hin, if_pos (FieldCall.covers_iff.mpr hin), ← hbit]
      rfl
    · rw [if_neg hin, if_neg fun h => hin (FieldCall.covers_iff.mp h)]
      rfl
  | hexStr hexStr =>
    obtain ⟨-, hlen⟩ := hacc
    obtain ⟨hwords, hvalue, hlength⟩ := hexStrToU32Vec_words hexStr
    obtain ⟨bv', hwrite, hwrote⟩ := setBitfieldVec_eq (J := J) hl le hwords (hlength.trans hlen)
    refine ⟨bv', hwrite, { hwrote with testBit_eq := fun p => (hwrote.testBit_eq p).trans ?_ }⟩
    rw [writtenBelow, FieldCall.after, hvalue]
    by_cases hin : s ≤ p ∧ p ≤ e
    · rw [if_pos (by omega), if_pos (FieldCall.covers_iff.mpr hin)]
      rfl
    · rw [if_neg (by omega), if_neg fun h => hin (FieldCall.covers_iff.mp h)]
      rfl

/-! ### What is asked for -/

lemma toNat_toU32 {x : Int} (hx : IsWord x) : (toU32 x).toNat = x.toNat := by
  have hlt := hx.toNat_lt
  obtain ⟨hnonneg, -⟩ := hx
  obtain ⟨n, rfl⟩ := Int.eq_ofNat_of_zero_le hnonneg
  rw [toU32, UInt32.ofInt]
  simp at hlt ⊢
  omega

/-- The argument hands over the words of a handle of `k` beats. -/
def HandsOver (k : Nat) (ws : List UInt32) : Put.Value → Prop
  | .valueMultiBeat v => k ≤ 8 ∧ v = ws
  | .valueMulti v => 8 < k ∧ ∀ i < k, ws[i]? = some (v i)
  | _ => False

lemma multi_putBeats_eq {ws : List Int} (hthree : 3 ≤ this.beatNum)
    (hlen : ws.length = this.beatNum) (hdl : ComplexHandleRaw) :
    ∃ cResults value, ChdlAccessMulti.putBeats .deferred .set this hdl ws =
        some ({ this with cResults := cResults }, [⟨.deferred, .set, hdl, value⟩]) ∧
      HandsOver this.beatNum (ws.map toU32) value := by
  have hvalues : (List.range this.beatNum).mapM (fun i => (ws[i]?).map toU32) =
      some (ws.map toU32) := by
    rw [mapM_eq_some_map (g := fun i => toU32 (ws.getD i 0)) (by
      intro i hi
      have hlt : i < ws.length := hlen ▸ List.mem_range.mp hi
      simp [hlt])]
    congr 1
    apply List.ext_getElem
    · simp [hlen]
    · intro i hi hi'
      have hlt : i < ws.length := by simpa using hi'
      simp [hlt]
  rw [ChdlAccessMulti.putBeats, hvalues, Option.bind_eq_bind, Option.bind_some]
  by_cases hfew : 3 ≤ this.beatNum ∧ this.beatNum ≤ 8
  · rw [if_pos hfew]
    exact ⟨this.cResults, .valueMultiBeat (ws.map toU32), rfl, hfew.2, rfl⟩
  · rw [if_neg hfew]
    refine ⟨_, _, rfl, by omega, fun i hi => ?_⟩
    have hlt : i < ws.length := hlen.symm ▸ hi
    simp [List.getElem?_append, hlt]

lemma editBitvec_eq (hw : 1 ≤ this.width) (hshape : this.Shaped) (hv : v < 2 ^ this.width)
    (hget : Reads get this.hdl this.beatNum v) (hacc : c.Accepted this.width) :
    ∃ bv, this.editBitvec J get (c.edit J) =
        some (bv, { this.getValueMulti get this.hdl with bitvec := some bv }) ∧
      bv.bitWidth = this.width ∧ bv.u32Vec.length = this.beatNum ∧
      ∀ p, (Words.value 32 ((bv.u32Vec.map toU32).map UInt32.toNat)).testBit p = c.after v p := by
  have hfits : v < 2 ^ (32 * this.beatNum) :=
    hv.trans_le (Nat.pow_le_pow_right (by decide) (by rw [Chdl.beatNum]; omega))
  obtain ⟨nr, hbitvec⟩ := bitvecOf_eq (J := J) hw hshape hv hget
  obtain ⟨bv, hedit, hwrote⟩ := edit_eq (J := J) hacc
    (show AreWords (BitVec.mk (wordBeats this.beatNum v) this.width nr).u32Vec from
      areWords_wordBeats this.beatNum v)
  refine ⟨bv, ?_, hwrote.bitWidth_eq, ?_, fun p => ?_⟩
  · have hsome : ((this.getValueMulti get this.hdl).bitvecOf J this.bitvec).bind (c.edit J) =
        some bv := by
      rw [hbitvec, Option.bind_some, hedit]
    have hmap : this.editBitvec J get (c.edit J) =
        (((this.getValueMulti get this.hdl).bitvecOf J this.bitvec).bind (c.edit J)).bind
          fun bv => some (bv, { this.getValueMulti get this.hdl with bitvec := some bv }) := by
      rw [Option.bind_assoc]
      rfl
    rw [hmap, hsome]
    rfl
  · have hin : c.e / 32 < (wordBeats this.beatNum v).length := by
      have := hacc.1
      rw [length_wordBeats, Chdl.beatNum]
      omega
    rw [hwrote.length_eq hin, length_wordBeats]
  · have hvalue : Words.value 32 ((bv.u32Vec.map toU32).map UInt32.toNat) = bv.value := by
      rw [BitVec.value, valueOf, List.map_map]
      congr 1
      apply List.map_congr_left
      intro x hx
      exact toNat_toU32 (hwrote.areWords x hx)
    rw [hvalue, hwrote.testBit_eq]
    congr 1
    exact (valueOf_wordBeats _ _).trans (Nat.mod_eq_of_lt hfits)

lemma double_deferred (c : FieldCall) : ChdlAccessDouble.deferred J get this c.write =
    (this.editBitvec J get (c.edit J)).bind fun p =>
      (ChdlAccessDouble.putBeats .deferred .set p.2.hdl p.1.u32Vec).bind fun calls =>
        some (p.2, calls) := by
  obtain ⟨s, e, le, value⟩ := c
  cases value <;> rfl

lemma multi_deferred (c : FieldCall) : ChdlAccessMulti.deferred J get this c.write =
    (this.editBitvec J get (c.edit J)).bind fun p =>
      ChdlAccessMulti.putBeats .deferred .set p.2 p.2.hdl p.1.u32Vec := by
  obtain ⟨s, e, le, value⟩ := c
  cases value <;> rfl

lemma deferred_eq (hbeats : 2 ≤ this.beatNum) (hshape : this.Shaped) (hv : v < 2 ^ this.width)
    (hget : Reads get this.hdl this.beatNum v) (hacc : c.Accepted this.width) :
    ∃ this' value ws, this.deferred J get c.write =
        some (this', [⟨.deferred, .set, this.hdl, value⟩]) ∧
      this'.hdl = this.hdl ∧ this'.width = this.width ∧ this'.Shaped ∧
      HandsOver this.beatNum ws value ∧ ws.length = this.beatNum ∧
      ∀ p, (Words.value 32 (ws.map UInt32.toNat)).testBit p = c.after v p := by
  have hw : 1 ≤ this.width := by
    rw [Chdl.beatNum] at hbeats
    omega
  obtain ⟨bv, hedited, hwidth, hlen, hbits⟩ := editBitvec_eq (J := J) hw hshape hv hget hacc
  have hunindexed : (c.write.indexed && !this.isArray) = false := by
    obtain ⟨s, e, le, value⟩ := c
    cases value <;> rfl
  have hwords : (bv.u32Vec.map toU32).length = this.beatNum := by rw [List.length_map, hlen]
  rw [Chdl.deferred, hunindexed, if_neg (by simp)]
  by_cases htwo : this.beatNum = 2
  · refine ⟨{ this.getValueMulti get this.hdl with bitvec := some bv },
      .valueMultiBeat (bv.u32Vec.map toU32), _, ?_, rfl, rfl, ?_, ⟨by omega, rfl⟩, hwords, hbits⟩
    · obtain ⟨v0, v1, hv⟩ := List.length_eq_two.mp (hlen.trans htwo)
      rw [if_pos htwo, double_deferred, hedited, Option.bind_some, hv]
      rfl
    · rintro _ ⟨⟩
      exact ⟨hwidth, hlen⟩
  · have hthree : 3 ≤ { this.getValueMulti get this.hdl with bitvec := some bv }.beatNum := by
      show 3 ≤ this.beatNum
      omega
    obtain ⟨cResults, value, hput, hover⟩ := multi_putBeats_eq hthree hlen this.hdl
    refine ⟨{ this.getValueMulti get this.hdl with bitvec := some bv, cResults := cResults }, value,
      _, ?_, rfl, rfl, ?_, hover, hwords, hbits⟩
    · rw [if_neg htwo, multi_deferred, hedited]
      exact hput
    · rintro _ ⟨⟩
      exact ⟨hwidth, hlen⟩

/-! ### What the queue keeps -/

variable {h : ComplexHandle} {value : Put.Value} {ws : List UInt32} {calls : List FieldCall}

/-- The X and Z bits in the words of the buffer. -/
def bvals (h : ComplexHandle) : List Nat := h.words.map (·.bval.toNat)

lemma getElem_words (h : ComplexHandle) {i : Nat} (hi : i < h.words.length) :
    h.words[i] = h.putValueVectors (h.beat ⟨i, by simpa [ComplexHandle.words] using hi⟩) := by
  simp [ComplexHandle.words]

lemma fillValueMultiBeat_words (hlen : ws.length = h.beatNum) :
    (h.fillValueMultiBeat ws).words.map (·.aval) = ws ∧ bvals (h.fillValueMultiBeat ws) = bvals h := by
  constructor
  · apply List.ext_getElem
    · simp [ComplexHandle.words, ComplexHandle.fillValueMultiBeat, hlen]
    · intro i hi hi'
      simp [getElem_words, ComplexHandle.fillValueMultiBeat, ComplexHandle.beat, hi']
  · apply List.ext_getElem
    · simp [bvals, ComplexHandle.words, ComplexHandle.fillValueMultiBeat]
    · intro i hi hi'
      have hlt : i < ws.length := by simpa [bvals, ComplexHandle.words, hlen] using hi'
      simp [bvals, getElem_words, ComplexHandle.fillValueMultiBeat, ComplexHandle.beat, hlt]

lemma fillValueMulti_words {f : Nat → UInt32} (hlen : ws.length = h.beatNum)
    (hws : ∀ i < h.beatNum, ws[i]? = some (f i)) :
    (h.fillValueMulti f).words.map (·.aval) = ws ∧
      bvals (h.fillValueMulti f) = List.replicate h.beatNum 0 := by
  constructor
  · apply List.ext_getElem
    · simp [ComplexHandle.words, ComplexHandle.fillValueMulti, hlen]
    · intro i hi hi'
      have hlt : i < h.beatNum := hlen ▸ hi'
      have hget : ws[i] = f i := by
        rw [← Option.some_inj, ← hws i hlt, List.getElem?_eq_getElem hi']
      simp [getElem_words, ComplexHandle.fillValueMulti, ComplexHandle.beat, hlt, hget]
  · apply List.ext_getElem
    · simp [bvals, ComplexHandle.words, ComplexHandle.fillValueMulti]
    · intro i hi hi'
      have hlt : i < h.beatNum := by simpa using hi'
      simp [bvals, getElem_words, ComplexHandle.fillValueMulti, ComplexHandle.beat, hlt]

/-- The words are in the buffers of the handle, and it is queued. The X and Z bits that were there
stay where each beat is handed over by itself. -/
lemma take_handsOver (hflag : h.putValueFlag ≠ some .vpiForceFlag)
    (hover : HandsOver h.beatNum ws value) (hlen : ws.length = h.beatNum) :
    (h.take (.set .set value)).putValueFlag = some .vpiNoDelay ∧
      (h.take (.set .set value)).beatNum = h.beatNum ∧
      flushed (h.take (.set .set value)) = some (.vector (h.take (.set .set value)).words) ∧
      (h.take (.set .set value)).words.map (·.aval) = ws ∧
      bvals (h.take (.set .set value)) =
        if h.beatNum ≤ 8 then bvals h else List.replicate h.beatNum 0 := by
  have htake : h.take (.set .set value) = (Request.set .set value).write { h with
      putValueFlag := some .vpiNoDelay, putValueFormat := value.format } :=
    take_of_accepted (.inl hflag)
  rw [htake]
  cases value with
  | valueMultiBeat v =>
    obtain ⟨hfew, rfl⟩ := hover
    obtain ⟨haval, hbval⟩ := fillValueMultiBeat_words (h := { h with
      putValueFlag := some .vpiNoDelay, putValueFormat := .vpiVectorVal }) hlen
    rw [if_pos hfew]
    exact ⟨rfl, rfl, rfl, haval, hbval⟩
  | valueMulti v =>
    obtain ⟨hmany, hv⟩ := hover
    obtain ⟨haval, hbval⟩ := fillValueMulti_words (h := { h with
      putValueFlag := some .vpiNoDelay, putValueFormat := .vpiVectorVal }) hlen hv
    rw [if_neg (not_le.mpr hmany)]
    exact ⟨rfl, rfl, rfl, haval, hbval⟩
  | _ => exact hover.elim

/-! ### All calls of the time step -/

lemma setFields_append (calls : List FieldCall) (c : FieldCall) :
    this.setFields J get (calls ++ [c]) =
      (this.setFields J get calls).bind fun p =>
        (p.1.deferred J get c.write).bind fun q => some (q.1, p.2 ++ q.2) := by
  simp only [Chdl.setFields, List.foldlM_append, List.foldlM_cons, List.foldlM_nil, bind_pure]
  rfl

/-- The handle after some calls, and the handles of `vpiml` and of Lua that the next call finds. -/
structure Ready (this this' : Chdl) (h h' : ComplexHandle) : Prop where
  hdl_eq : this'.hdl = this.hdl
  width_eq : this'.width = this.width
  shaped : this'.Shaped
  not_forced : h'.putValueFlag ≠ some .vpiForceFlag
  beatNum_eq : h'.beatNum = h.beatNum
  bvals_eq : h.beatNum ≤ 8 → bvals h' = bvals h

variable {h' : ComplexHandle}

lemma Ready.next (hr : Ready this this' h h') (hbeats : 2 ≤ this.beatNum)
    (hv : v < 2 ^ this.width) (hget : Reads get this.hdl this.beatNum v)
    (hacc : c.Accepted this.width) (hh : h.beatNum = this.beatNum) :
    ∃ this'' value ws, this'.deferred J get c.write =
        some (this'', [⟨.deferred, .set, this.hdl, value⟩]) ∧
      Ready this this'' h (h'.take (.set .set value)) ∧
      flushed (h'.take (.set .set value)) = some (.vector (h'.take (.set .set value)).words) ∧
      bvals (h'.take (.set .set value)) =
        (if h.beatNum ≤ 8 then bvals h else List.replicate h.beatNum 0) ∧
      (h'.take (.set .set value)).words.map (·.aval) = ws ∧
      ∀ p, (Words.value 32 (ws.map UInt32.toNat)).testBit p = c.after v p := by
  have hbeatNum : this'.beatNum = this.beatNum := by rw [Chdl.beatNum, hr.width_eq]; rfl
  obtain ⟨this'', value, ws, hdeferred, hhdl, hwidth, hshape, hover, hlen, hbits⟩ :=
    deferred_eq (J := J) (c := c) (v := v) (hbeatNum ▸ hbeats) hr.shaped (hr.width_eq ▸ hv)
      (show Reads get this'.hdl this'.beatNum v by rw [hr.hdl_eq, hbeatNum]; exact hget)
      (hr.width_eq ▸ hacc)
  have hbeats' : this'.beatNum = h'.beatNum := by rw [hbeatNum, hr.beatNum_eq, hh]
  obtain ⟨hflag, hnum, hflush, havals, hbvals⟩ :=
    take_handsOver hr.not_forced (hbeats' ▸ hover) (hlen.trans hbeats')
  rw [hr.hdl_eq] at hdeferred
  have hbv : bvals (h'.take (.set .set value)) =
      if h.beatNum ≤ 8 then bvals h else List.replicate h.beatNum 0 := by
    rw [hbvals, hr.beatNum_eq]
    split_ifs with hfew
    · exact hr.bvals_eq hfew
    · rfl
  refine ⟨this'', value, ws, hdeferred, ⟨hhdl.trans hr.hdl_eq, hwidth.trans hr.width_eq, hshape,
    by simp [hflag], hnum.trans hr.beatNum_eq, fun hfew => ?_⟩, hflush, hbv, havals, hbits⟩
  rw [hbv, if_pos hfew]

lemma setFields_ready (hbeats : 2 ≤ this.beatNum) (hshape : this.Shaped)
    (hv : v < 2 ^ this.width) (hget : Reads get this.hdl this.beatNum v)
    (hacc : ∀ c ∈ calls, c.Accepted this.width) (hh : h.beatNum = this.beatNum)
    (hidle : h.putValueFlag = none) :
    ∃ this' writes, this.setFields J get calls = some (this', writes) ∧
      (∀ w ∈ writes, w.mode = .deferred ∧ w.hdl = this.hdl) ∧
      Ready this this' h ((writes.map VpimlCall.request).foldl ComplexHandle.take h) := by
  induction calls using List.reverseRecOn with
  | nil =>
    exact ⟨this, [], rfl, by simp, rfl, rfl, hshape, by simp [hidle], rfl, fun _ => rfl⟩
  | append_singleton calls c ih =>
    obtain ⟨this', writes, hrun, hwrites, hr⟩ := ih fun c hc => hacc c (List.mem_append_left _ hc)
    obtain ⟨this'', value, ws, hdeferred, hr', -⟩ :=
      hr.next (J := J) hbeats hv hget (hacc c (by simp)) hh
    refine ⟨this'', writes ++ [⟨.deferred, .set, this.hdl, value⟩], ?_, ?_, ?_⟩
    · rw [setFields_append, hrun, Option.bind_some, hdeferred, Option.bind_some]
    · intro w hw
      rcases List.mem_append.mp hw with hw | hw
      · exact hwrites w hw
      · rw [List.mem_singleton.mp hw]
        exact ⟨rfl, rfl⟩
    · rw [List.map_append, List.foldl_append]
      exact hr'

/-- Each bit that the last call does not cover is left as it was by the calls before, and no bit that
it covers and does not clear has to be cleared. The buffers of up to 8 beats have no X or Z bit. -/
def Composes (h : ComplexHandle) (width v : Nat) (earlier : List FieldCall) (c : FieldCall) : Prop :=
  (h.beatNum ≤ 8 → Words.value 32 (bvals h) % 2 ^ width = 0) ∧
    ∀ p < width, if c.field.covers p then c.Keeps p → v.testBit p = true → c.field.bit p = true
      else ∀ f ∈ BitField.lastOn (earlier.map FieldCall.field) p, f.bit p = v.testBit p

lemma mod_eq_iff {n m w : Nat} (hm : m < 2 ^ w) :
    n % 2 ^ w = m ↔ ∀ p < w, n.testBit p = m.testBit p := by
  constructor
  · rintro rfl p hp
    rw [Nat.testBit_mod_two_pow, decide_eq_true hp, Bool.true_and]
  · intro hbits
    apply Nat.eq_of_testBit_eq
    intro p
    rw [Nat.testBit_mod_two_pow]
    by_cases hp : p < w
    · rw [decide_eq_true hp, Bool.true_and, hbits p hp]
    · have hhigh := hm.trans_le (Nat.pow_le_pow_right (n := 2) (by decide) (not_lt.mp hp))
      rw [decide_eq_false hp, Bool.false_and, Nat.testBit_lt_two_pow hhigh]

lemma value_zeros (k : Nat) : Words.value 32 (List.replicate k 0) = 0 := by
  induction k with
  | zero => rfl
  | succ k ih => rw [List.replicate_succ, Words.value_cons, ih, Nat.mul_zero]

lemma after_eq_iff (earlier : List FieldCall) (c : FieldCall) (v p : Nat) :
    c.after v p = (((earlier ++ [c]).map FieldCall.field).foldl BitField.assign v).testBit p ↔
      if c.field.covers p then c.Keeps p → v.testBit p = true → c.field.bit p = true
      else ∀ f ∈ BitField.lastOn (earlier.map FieldCall.field) p, f.bit p = v.testBit p := by
  rw [List.map_append, List.map_singleton, BitField.testBit_foldl_assign, BitField.lastOn_append,
    FieldCall.after]
  by_cases hin : c.field.covers p = true
  · rw [if_pos hin, if_pos hin, if_pos hin, Option.elim_some, Bool.or_eq_left_iff_imp,
      Bool.and_eq_true, decide_eq_true_eq, and_imp]
  · rw [if_neg hin, if_neg hin, if_neg hin]
    cases BitField.lastOn (earlier.map FieldCall.field) p with
    | none => simp
    | some f => simp [eq_comm]

lemma numberOf_eq_some_iff {width n : Nat} {words : List VecVal} (hn : n < 2 ^ width) :
    numberOf width words = some n ↔
      Words.value 32 (words.map (·.bval.toNat)) % 2 ^ width = 0 ∧
        ∀ p < width, (Words.value 32 (words.map (·.aval.toNat))).testBit p = n.testBit p := by
  rw [numberOf, ← mod_eq_iff hn]
  split_ifs with hzero
  · rw [Option.some_inj, and_iff_right hzero]
  · exact iff_of_false (by simp) fun h => hzero h.1

def doubleWord : Chdl where
  hdl := 0
  width := 64
  isArray := false
  arrayHdls := []
  cResults := [0, 0, 0]
  bitvec := none
  arrayBitvecs := fun _ => none

def doubleWordHandle : ComplexHandle := .new { vpiHandle := 0, width := 64, fits := by decide }

/-- The lowest two bytes are set to 1. -/
def setBytes : List FieldCall :=
  [⟨0, 7, by decide, .value (.num 1)⟩, ⟨8, 15, by decide, .value (.num 1)⟩]

end Verilua.Access
