import Verilua.Access.Basic
import Verilua.Put.Rules

/-!
# Immediate variants

Every setter of a handle of several beats has an immediate variant. It asks `vpiml` for the writes
that the setter asks for, at once and not deferred, save the one for a field of an array element
given as a string: for handles of three beats and more its writes are deferred as well.
-/

namespace Verilua.Access

open BitVecs Put TransitionSystem

/-- A method `set_…` or `set_imm_…` with what it is called with. -/
inductive Write
  | set (value : Arg)
  | setUnsafe (value : Arg)
  | setBitfield (s e : Nat) (v : Lua.Value)
  | setBitfieldHexStr (s e : Nat) (hexStr : HexText)
  | setIndex (index : Nat) (value : Arg)
  | setIndexUnsafe (index : Nat) (value : Arg)
  | setIndexBitfield (index s e : Nat) (v : Lua.Value)
  | setIndexBitfieldHexStr (index s e : Nat) (hexStr : HexText)
  | setIndexAll (values : List Arg)
  | setIndexUnsafeAll (values : List Arg)

/-- The methods that only the handle of an array has. -/
def Write.indexed : Write → Bool
  | .set _ | .setUnsafe _ | .setBitfield .. | .setBitfieldHexStr .. => false
  | _ => true

def Write.isIndexBitfieldHexStr : Write → Bool
  | .setIndexBitfieldHexStr .. => true
  | _ => false

variable (J : Lua.Jit) (get : ComplexHandleRaw → Nat → UInt32)

def ChdlAccessDouble.deferred (this : Chdl) : Write → Result
  | .set value => set J this value
  | .setUnsafe value => setUnsafe J this value
  | .setBitfield s e v => setBitfield J get this s e v
  | .setBitfieldHexStr s e hexStr => setBitfieldHexStr J get this s e hexStr
  | .setIndex index value => setIndex J this index value
  | .setIndexUnsafe index value => setIndexUnsafe J this index value
  | .setIndexBitfield index s e v => setIndexBitfield J get this index s e v
  | .setIndexBitfieldHexStr index s e hexStr => setIndexBitfieldHexStr J get this index s e hexStr
  | .setIndexAll values => setIndexAll J this values
  | .setIndexUnsafeAll values => setIndexUnsafeAll J this values

def ChdlAccessDouble.imm (this : Chdl) : Write → Result
  | .set value => setImm J this value
  | .setUnsafe value => setImmUnsafe J this value
  | .setBitfield s e v => setImmBitfield J get this s e v
  | .setBitfieldHexStr s e hexStr => setImmBitfieldHexStr J get this s e hexStr
  | .setIndex index value => setImmIndex J this index value
  | .setIndexUnsafe index value => setImmIndexUnsafe J this index value
  | .setIndexBitfield index s e v => setImmIndexBitfield J get this index s e v
  | .setIndexBitfieldHexStr index s e hexStr =>
    setImmIndexBitfieldHexStr J get this index s e hexStr
  | .setIndexAll values => setImmIndexAll J this values
  | .setIndexUnsafeAll values => setImmIndexUnsafeAll J this values

def ChdlAccessMulti.deferred (this : Chdl) : Write → Result
  | .set value => set J this value
  | .setUnsafe value => setUnsafe J this value
  | .setBitfield s e v => setBitfield J get this s e v
  | .setBitfieldHexStr s e hexStr => setBitfieldHexStr J get this s e hexStr
  | .setIndex index value => setIndex J this index value
  | .setIndexUnsafe index value => setIndexUnsafe J this index value
  | .setIndexBitfield index s e v => setIndexBitfield J get this index s e v
  | .setIndexBitfieldHexStr index s e hexStr => setIndexBitfieldHexStr J get this index s e hexStr
  | .setIndexAll values => setIndexAll J this values
  | .setIndexUnsafeAll values => setIndexUnsafeAll J this values

def ChdlAccessMulti.imm (this : Chdl) : Write → Result
  | .set value => setImm J this value
  | .setUnsafe value => setImmUnsafe J this value
  | .setBitfield s e v => setImmBitfield J get this s e v
  | .setBitfieldHexStr s e hexStr => setImmBitfieldHexStr J get this s e hexStr
  | .setIndex index value => setImmIndex J this index value
  | .setIndexUnsafe index value => setImmIndexUnsafe J this index value
  | .setIndexBitfield index s e v => setImmIndexBitfield J get this index s e v
  | .setIndexBitfieldHexStr index s e hexStr =>
    setImmIndexBitfieldHexStr J get this index s e hexStr
  | .setIndexAll values => setImmIndexAll J this values
  | .setIndexUnsafeAll values => setImmIndexUnsafeAll J this values

namespace Chdl

/-- `set_…` of a handle of two or more beats -/
def deferred (this : Chdl) (w : Write) : Result :=
  if w.indexed && !this.isArray then none
  else if this.beatNum = 2 then ChdlAccessDouble.deferred J get this w
  else ChdlAccessMulti.deferred J get this w

/-- `set_imm_…` of a handle of two or more beats -/
def imm (this : Chdl) (w : Write) : Result :=
  if w.indexed && !this.isArray then none
  else if this.beatNum = 2 then ChdlAccessDouble.imm J get this w
  else ChdlAccessMulti.imm J get this w

end Chdl

/-! ### Immediate calls -/

def VpimlCall.toImm (c : VpimlCall) : VpimlCall := { c with mode := .imm }

/-- The later calls are immediate, and write what the earlier ones write to the same handles. -/
structure Mirrors (calls calls' : List VpimlCall) : Prop where
  immediate : ∀ c ∈ calls', c.mode = .imm
  writes : calls'.map (fun c => (c.hdl, c.action, c.value)) =
    calls.map fun c => (c.hdl, c.action, c.value)

def immResult (r : Result) : Result := r.map fun (this, calls) => (this, calls.map VpimlCall.toImm)

lemma mirrors_toImm (calls : List VpimlCall) : Mirrors calls (calls.map VpimlCall.toImm) := by
  constructor
  · intro c hc
    obtain ⟨c, -, rfl⟩ := List.mem_map.mp hc
    rfl
  · rw [List.map_map]
    rfl

/-! ### Method by method -/

variable {J get} {this this' : Chdl} {calls : List VpimlCall} {w : Write}

lemma immResult_bind {α : Type*} (x : Option α) (f g : α → Result)
    (h : ∀ a, g a = immResult (f a)) : x.bind g = immResult (x.bind f) := by
  cases x with
  | none => rfl
  | some a => exact h a

lemma forEachIndex_imm {method method' : Chdl → Nat → Arg → Result}
    (h : ∀ this index value, method' this index value = immResult (method this index value))
    (values : List Arg) (this : Chdl) :
    this.forEachIndex method' values = immResult (this.forEachIndex method values) := by
  have run : ∀ (indices : List Nat) (this : Chdl) (calls : List VpimlCall),
      indices.foldlM (fun (p : Chdl × List VpimlCall) index =>
        (method' p.1 index (values.getD index .other)).bind fun q => some (q.1, p.2 ++ q.2))
          (this, calls.map VpimlCall.toImm) =
        immResult (indices.foldlM (fun (p : Chdl × List VpimlCall) index =>
          (method p.1 index (values.getD index .other)).bind fun q => some (q.1, p.2 ++ q.2))
            (this, calls)) := by
    intro indices
    induction indices with
    | nil =>
      intro this calls
      rfl
    | cons index indices ih =>
      intro this calls
      rw [List.foldlM_cons, List.foldlM_cons, h]
      cases method this index (values.getD index .other) with
      | none => rfl
      | some q =>
        obtain ⟨this, more⟩ := q
        have step := ih this (calls ++ more)
        rw [List.map_append] at step
        exact step
  exact run _ this []

/-! #### Two beats -/

lemma double_putBeats_imm (action : Put.Action) (hdl : ComplexHandleRaw) (words : List Int)
    (this : Chdl) :
    (ChdlAccessDouble.putBeats .imm action hdl words).map (this, ·) =
      immResult ((ChdlAccessDouble.putBeats .deferred action hdl words).map (this, ·)) := by
  unfold ChdlAccessDouble.putBeats
  cases words[0]? <;> cases words[1]? <;> rfl

lemma double_put_imm (action : Put.Action) (checked : Bool) (hdl : ComplexHandleRaw) (value : Arg)
    (this : Chdl) : ChdlAccessDouble.put J .imm action checked this hdl value =
      immResult (ChdlAccessDouble.put J .deferred action checked this hdl value) := by
  cases value with
  | scalar v => rfl
  | other => rfl
  | table words =>
    simp only [ChdlAccessDouble.put]
    split_ifs
    · rfl
    · exact double_putBeats_imm action hdl words this
  | buffer data =>
    simp only [ChdlAccessDouble.put]
    split_ifs
    · rfl
    · exact double_putBeats_imm action hdl _ this

lemma double_putField_imm (edit : BitVec → Option BitVec) (this : Chdl) :
    ChdlAccessDouble.putField J get .imm this edit =
      immResult (ChdlAccessDouble.putField J get .deferred this edit) := by
  refine immResult_bind _ _ _ fun (bv, this) => ?_
  have := double_putBeats_imm .set this.hdl bv.u32Vec this
  rw [Option.map_eq_bind, Option.map_eq_bind] at this
  exact this

lemma double_putIndex_imm (checked : Bool) (index : Nat) (value : Arg) (this : Chdl) :
    ChdlAccessDouble.putIndex J .imm checked this index value =
      immResult (ChdlAccessDouble.putIndex J .deferred checked this index value) :=
  immResult_bind _ _ _ fun hdl => double_put_imm .set checked hdl value this

lemma double_putIndexField_imm (index : Nat) (edit : BitVec → Option BitVec) (this : Chdl) :
    ChdlAccessDouble.putIndexField J get .imm this index edit =
      immResult (ChdlAccessDouble.putIndexField J get .deferred this index edit) := by
  refine immResult_bind _ _ _ fun hdl => ?_
  refine immResult_bind _ _ _ fun (bv, this) => ?_
  have := double_putBeats_imm .set hdl bv.u32Vec this
  rw [Option.map_eq_bind, Option.map_eq_bind] at this
  exact this

lemma double_imm (this : Chdl) (w : Write) :
    ChdlAccessDouble.imm J get this w = immResult (ChdlAccessDouble.deferred J get this w) := by
  cases w with
  | set value => exact double_put_imm .set true this.hdl value this
  | setUnsafe value => exact double_put_imm .set false this.hdl value this
  | setBitfield s e v => exact double_putField_imm _ this
  | setBitfieldHexStr s e hexStr => exact double_putField_imm _ this
  | setIndex index value => exact double_putIndex_imm true index value this
  | setIndexUnsafe index value => exact double_putIndex_imm false index value this
  | setIndexBitfield index s e v => exact double_putIndexField_imm index _ this
  | setIndexBitfieldHexStr index s e hexStr => exact double_putIndexField_imm index _ this
  | setIndexAll values =>
    exact forEachIndex_imm (fun this index value => double_putIndex_imm true index value this)
      values this
  | setIndexUnsafeAll values =>
    exact forEachIndex_imm (fun this index value => double_putIndex_imm false index value this)
      values this

/-! #### More beats -/

lemma multi_putBeats_imm (action : Put.Action) (hdl : ComplexHandleRaw) (words : List Int)
    (this : Chdl) : ChdlAccessMulti.putBeats .imm action this hdl words =
      immResult (ChdlAccessMulti.putBeats .deferred action this hdl words) := by
  refine immResult_bind _ _ _ fun values => ?_
  dsimp only
  split_ifs <;> rfl

lemma multi_put_imm (action : Put.Action) (checked : Bool) (hdl : ComplexHandleRaw) (value : Arg)
    (this : Chdl) : ChdlAccessMulti.put J .imm action checked this hdl value =
      immResult (ChdlAccessMulti.put J .deferred action checked this hdl value) := by
  cases value with
  | scalar v => rfl
  | other => rfl
  | table words =>
    simp only [ChdlAccessMulti.put]
    split_ifs
    · rfl
    · exact multi_putBeats_imm action hdl words this
  | buffer data =>
    simp only [ChdlAccessMulti.put]
    split_ifs
    · rfl
    · exact multi_putBeats_imm action hdl _ this

lemma multi_putIndex_imm (checked : Bool) (index : Nat) (value : Arg) (this : Chdl) :
    ChdlAccessMulti.putIndex J .imm checked this index value =
      immResult (ChdlAccessMulti.putIndex J .deferred checked this index value) :=
  immResult_bind _ _ _ fun hdl => multi_put_imm .set checked hdl value this

lemma multi_imm (this : Chdl) (hw : w.isIndexBitfieldHexStr = false) :
    ChdlAccessMulti.imm J get this w = immResult (ChdlAccessMulti.deferred J get this w) := by
  cases w with
  | set value => exact multi_put_imm .set true this.hdl value this
  | setUnsafe value => exact multi_put_imm .set false this.hdl value this
  | setBitfield s e v =>
    exact immResult_bind _ _ _ fun (bv, this) => multi_put_imm .set false this.hdl _ this
  | setBitfieldHexStr s e hexStr =>
    exact immResult_bind _ _ _ fun (bv, this) => multi_put_imm .set false this.hdl _ this
  | setIndex index value => exact multi_putIndex_imm true index value this
  | setIndexUnsafe index value => exact multi_putIndex_imm false index value this
  | setIndexBitfield index s e v =>
    exact immResult_bind _ _ _ fun (bv, this) => multi_putIndex_imm false index _ this
  | setIndexBitfieldHexStr index s e hexStr => cases hw
  | setIndexAll values =>
    exact forEachIndex_imm (fun this index value => multi_putIndex_imm true index value this)
      values this
  | setIndexUnsafeAll values =>
    exact forEachIndex_imm (fun this index value => multi_putIndex_imm false index value this)
      values this

/-- What the method for a field given as a string asks for is deferred, and it asks for something. -/
lemma multi_putBeats_deferred {words : List Int} {hdl : ComplexHandleRaw}
    (h : ChdlAccessMulti.putBeats .deferred .set this hdl words = some (this', calls)) :
    ∃ c ∈ calls, c.mode = .deferred := by
  obtain ⟨values, -, h⟩ := Option.bind_eq_some_iff.mp h
  split_ifs at h
  all_goals
    cases h
    exact ⟨_, List.mem_singleton_self _, rfl⟩

lemma multi_setImmIndexBitfieldHexStr {index s e : Nat} {hexStr : HexText}
    (h : ChdlAccessMulti.setImmIndexBitfieldHexStr J get this index s e hexStr =
      some (this', calls)) : ∃ c ∈ calls, c.mode = .deferred := by
  obtain ⟨⟨bv, this₁⟩, -, h⟩ := Option.bind_eq_some_iff.mp h
  obtain ⟨hdl, -, h⟩ := Option.bind_eq_some_iff.mp h
  exact multi_putBeats_deferred h

/-! ### All methods -/

/-- An array of one element of 70 bits. -/
def cells : Chdl where
  hdl := 1
  width := 70
  isArray := true
  arrayHdls := [1]
  cResults := [0, 0, 0, 0]
  bitvec := none
  arrayBitvecs := fun _ => none

/-- The lowest four bits of the element. -/
def nibble : Write := .setIndexBitfieldHexStr 0 0 3 ⟨['f'], by decide⟩

end Verilua.Access
