import Verilua.BitVecs.Basic
import Verilua.Put.Setters

/-!
# Writing through a `CallableHDL`

The setters of `ChdlAccessSingle.lua`, `ChdlAccessDouble.lua` and `ChdlAccessMulti.lua`, which are
generated for signals of one, of two and of more beats. A method asks `vpiml` for writes, deferred
or immediate. A Lua error is `none`, and indices count from 0.
-/

namespace Verilua.Access

open BitVecs Put

/-- What a setter is given: a number or a `uint64_t`, a table, a `uint32_t` array such as `get`
returns, with the number of its beats in front of them, or anything else. -/
inductive Arg
  | scalar (v : Lua.Value)
  | table (words : List Int)
  | buffer (data : List UInt32)
  | other

inductive Mode
  | deferred
  | imm
  deriving DecidableEq, Repr

/-- A call of a function `vpiml_<action>_…` or `vpiml_<action>_imm_…`. -/
structure VpimlCall where
  mode : Mode
  action : Put.Action
  hdl : ComplexHandleRaw
  value : Put.Value

/-- The fields of a `CallableHDL` that the setters use. A buffer holds the number of beats and the
beats. -/
structure Chdl where
  hdl : ComplexHandleRaw
  width : Nat
  isArray : Bool
  arrayHdls : List ComplexHandleRaw
  cResults : List UInt32
  bitvec : Option BitVec
  arrayBitvecs : Nat → Option BitVec

abbrev Result := Option (Chdl × List VpimlCall)

def Chdl.beatNum (this : Chdl) : Nat := (this.width + 31) / 32

/-- A number where a `uint32_t` is expected. -/
def toU32 (n : Int) : UInt32 := UInt32.ofInt n

def scalarToU32 : Lua.Value → UInt32
  | .num n => toU32 n
  | .ull u => u.toUInt32

variable (J : Lua.Jit) (get : ComplexHandleRaw → Nat → UInt32)

/-! ### The vector of bits -/

namespace Chdl

/-- `vpiml_get_value_multi(hdl, this.c_results, this.beat_num)`, where the simulator has the words
`get hdl`. -/
def getValueMulti (this : Chdl) (hdl : ComplexHandleRaw) : Chdl :=
  { this with
    cResults := UInt32.ofNat this.beatNum :: (List.range this.beatNum).map (get hdl) }

/-- `_update_u32_vec` of a vector of several beats -/
def updateU32Vec (bv : BitVec) (data : List UInt32) : BitVec :=
  { bv with
    u32Vec := (List.range bv.beatSize).foldl
      (fun u32Vec i => setBeat u32Vec i (data.getD (i + 1) 0).toNat) bv.u32Vec }

/-- The vector that was made before, with new beats, or else a new one. -/
def bitvecOf (this : Chdl) : Option BitVec → Option BitVec
  | some bitvec => some (updateU32Vec bitvec this.cResults)
  | none => BitVec.init J (.buffer this.cResults.tail) (some this.width)

/-- `this:get_bitvec()`, and what is done to the vector then. -/
def editBitvec (this : Chdl) (edit : BitVec → Option BitVec) : Option (BitVec × Chdl) := do
  let this := this.getValueMulti get this.hdl
  let bv ← edit (← this.bitvecOf J this.bitvec)
  return (bv, { this with bitvec := some bv })

/-- `this:get_index_bitvec(index)`, and what is done to the vector then. -/
def editIndexBitvec (this : Chdl) (index : Nat) (edit : BitVec → Option BitVec) :
    Option (BitVec × Chdl) := do
  let chosenHdl ← this.arrayHdls[index]?
  let this := this.getValueMulti get chosenHdl
  let bv ← edit (← this.bitvecOf J (this.arrayBitvecs index))
  return (bv, { this with arrayBitvecs := Function.update this.arrayBitvecs index (some bv) })

/-- `this:method(0, values[1])`, `this:method(1, values[2])` and so on, once for each handle of the
array. -/
def forEachIndex (method : Chdl → Nat → Arg → Result) (values : List Arg) (this : Chdl) : Result :=
  (List.range this.arrayHdls.length).foldlM (fun (this, calls) index => do
    let (this, more) ← method this index (values.getD index .other)
    return (this, calls ++ more)) (this, [])

end Chdl

/-! ### One beat -/

namespace ChdlAccessSingle

def put (mode : Mode) (action : Put.Action) (this : Chdl) : Arg → Result
  | .scalar v => some (this, [⟨mode, action, this.hdl, .value (scalarToU32 v)⟩])
  | _ => none

def set (this : Chdl) (value : Arg) : Result := put .deferred .set this value

def setForce (this : Chdl) (value : Arg) : Result := put .deferred .force this value

def setImm (this : Chdl) (value : Arg) : Result := put .imm .set this value

def setImmForce (this : Chdl) (value : Arg) : Result := put .imm .force this value

/-- The vector of a signal of one beat is made from a number. -/
def editBitvec (this : Chdl) (edit : BitVec → Option BitVec) : Option (BitVec × Chdl) := do
  let value : Int := (get this.hdl 0).toNat
  let bv ← edit (← match this.bitvec with
    | some bitvec => some { bitvec with u32Vec := setBeat bitvec.u32Vec 0 value }
    | none => BitVec.init J (.num value) (some this.width))
  return (bv, { this with bitvec := some bv })

def putField (mode : Mode) (this : Chdl) (edit : BitVec → Option BitVec) : Result := do
  let (bv, this) ← editBitvec J get this edit
  return (this, [⟨mode, .set, this.hdl, .value (toU32 (beat bv.u32Vec 0))⟩])

def setBitfield (this : Chdl) (s e : Nat) (v : Lua.Value) : Result :=
  putField J get .deferred this (·.setBitfield J s e v)

def setBitfieldHexStr (this : Chdl) (s e : Nat) (hexStr : HexText) : Result :=
  putField J get .deferred this (·.setBitfieldHexStr J s e hexStr)

def setImmBitfield (this : Chdl) (s e : Nat) (v : Lua.Value) : Result :=
  putField J get .imm this (·.setBitfield J s e v)

def setImmBitfieldHexStr (this : Chdl) (s e : Nat) (hexStr : HexText) : Result :=
  putField J get .imm this (·.setBitfieldHexStr J s e hexStr)

end ChdlAccessSingle

/-! ### Two beats -/

namespace ChdlAccessDouble

/-- `vpiml_<action>_value_multi_beat_2(hdl, words[1], words[2])` -/
def putBeats (mode : Mode) (action : Put.Action) (hdl : ComplexHandleRaw) (words : List Int) :
    Option (List VpimlCall) := do
  let v0 ← words[0]?
  let v1 ← words[1]?
  return [⟨mode, action, hdl, .valueMultiBeat [toU32 v0, toU32 v1]⟩]

/-- The type and the length are checked unless the method is an unsafe one. -/
def put (mode : Mode) (action : Put.Action) (checked : Bool) (this : Chdl)
    (hdl : ComplexHandleRaw) : Arg → Result
  | .scalar v => some (this, [⟨mode, action, hdl, .value64 (v.toULL J)⟩])
  | .table words =>
    if checked && words.length != 2 then none
    else (putBeats mode action hdl words).map (this, ·)
  | .buffer data =>
    if checked then none
    else (putBeats mode action hdl (data.tail.map fun w => (w.toNat : Int))).map (this, ·)
  | .other => none

def set (this : Chdl) (value : Arg) : Result := put J .deferred .set true this this.hdl value

def setUnsafe (this : Chdl) (value : Arg) : Result := put J .deferred .set false this this.hdl value

def setForce (this : Chdl) (value : Arg) : Result := put J .deferred .force true this this.hdl value

def setImm (this : Chdl) (value : Arg) : Result := put J .imm .set true this this.hdl value

def setImmUnsafe (this : Chdl) (value : Arg) : Result := put J .imm .set false this this.hdl value

def setImmForce (this : Chdl) (value : Arg) : Result := put J .imm .force true this this.hdl value

def putField (mode : Mode) (this : Chdl) (edit : BitVec → Option BitVec) : Result := do
  let (bv, this) ← this.editBitvec J get edit
  return (this, ← putBeats mode .set this.hdl bv.u32Vec)

def setBitfield (this : Chdl) (s e : Nat) (v : Lua.Value) : Result :=
  putField J get .deferred this (·.setBitfield J s e v)

def setBitfieldHexStr (this : Chdl) (s e : Nat) (hexStr : HexText) : Result :=
  putField J get .deferred this (·.setBitfieldHexStr J s e hexStr)

def setImmBitfield (this : Chdl) (s e : Nat) (v : Lua.Value) : Result :=
  putField J get .imm this (·.setBitfield J s e v)

def setImmBitfieldHexStr (this : Chdl) (s e : Nat) (hexStr : HexText) : Result :=
  putField J get .imm this (·.setBitfieldHexStr J s e hexStr)

def putIndex (mode : Mode) (checked : Bool) (this : Chdl) (index : Nat) (value : Arg) : Result := do
  put J mode .set checked this (← this.arrayHdls[index]?) value

def setIndex (this : Chdl) (index : Nat) (value : Arg) : Result :=
  putIndex J .deferred true this index value

def setIndexUnsafe (this : Chdl) (index : Nat) (value : Arg) : Result :=
  putIndex J .deferred false this index value

def setImmIndex (this : Chdl) (index : Nat) (value : Arg) : Result :=
  putIndex J .imm true this index value

def setImmIndexUnsafe (this : Chdl) (index : Nat) (value : Arg) : Result :=
  putIndex J .imm false this index value

def putIndexField (mode : Mode) (this : Chdl) (index : Nat) (edit : BitVec → Option BitVec) :
    Result := do
  let chosenHdl ← this.arrayHdls[index]?
  let (bv, this) ← this.editIndexBitvec J get index edit
  return (this, ← putBeats mode .set chosenHdl bv.u32Vec)

def setIndexBitfield (this : Chdl) (index s e : Nat) (v : Lua.Value) : Result :=
  putIndexField J get .deferred this index (·.setBitfield J s e v)

def setIndexBitfieldHexStr (this : Chdl) (index s e : Nat) (hexStr : HexText) : Result :=
  putIndexField J get .deferred this index (·.setBitfieldHexStr J s e hexStr)

def setImmIndexBitfield (this : Chdl) (index s e : Nat) (v : Lua.Value) : Result :=
  putIndexField J get .imm this index (·.setBitfield J s e v)

def setImmIndexBitfieldHexStr (this : Chdl) (index s e : Nat) (hexStr : HexText) : Result :=
  putIndexField J get .imm this index (·.setBitfieldHexStr J s e hexStr)

def setIndexAll (this : Chdl) (values : List Arg) : Result :=
  this.forEachIndex (setIndex J) values

def setIndexUnsafeAll (this : Chdl) (values : List Arg) : Result :=
  this.forEachIndex (setIndexUnsafe J) values

def setImmIndexAll (this : Chdl) (values : List Arg) : Result :=
  this.forEachIndex (setImmIndex J) values

def setImmIndexUnsafeAll (this : Chdl) (values : List Arg) : Result :=
  this.forEachIndex (setImmIndexUnsafe J) values

end ChdlAccessDouble

/-! ### More beats -/

namespace ChdlAccessMulti

/-- Of up to 8 beats each is an argument of its own; more beats go through the buffer. -/
def putBeats (mode : Mode) (action : Put.Action) (this : Chdl) (hdl : ComplexHandleRaw)
    (words : List Int) : Result := do
  let values ← (List.range this.beatNum).mapM fun i => (words[i]?).map toU32
  if 3 ≤ this.beatNum ∧ this.beatNum ≤ 8 then
    return (this, [⟨mode, action, hdl, .valueMultiBeat values⟩])
  else
    let this := { this with cResults := values ++ this.cResults.drop this.beatNum }
    return (this, [⟨mode, action, hdl, .valueMulti fun i => this.cResults.getD i 0⟩])

/-- The type and the length are checked unless the method is an unsafe one. -/
def put (mode : Mode) (action : Put.Action) (checked : Bool) (this : Chdl)
    (hdl : ComplexHandleRaw) : Arg → Result
  | .scalar v => some (this, [⟨mode, action, hdl, .value64ForceSingle (v.toULL J)⟩])
  | .table words =>
    if checked && words.length != this.beatNum then none
    else putBeats mode action this hdl words
  | .buffer data =>
    if checked then none else putBeats mode action this hdl (data.tail.map fun w => (w.toNat : Int))
  | .other => none

def set (this : Chdl) (value : Arg) : Result := put J .deferred .set true this this.hdl value

def setImm (this : Chdl) (value : Arg) : Result := put J .imm .set true this this.hdl value

def setForce (this : Chdl) (value : Arg) : Result := put J .deferred .force true this this.hdl value

def setImmForce (this : Chdl) (value : Arg) : Result := put J .imm .force true this this.hdl value

def setUnsafe (this : Chdl) (value : Arg) : Result := put J .deferred .set false this this.hdl value

def setImmUnsafe (this : Chdl) (value : Arg) : Result := put J .imm .set false this this.hdl value

def setBitfield (this : Chdl) (s e : Nat) (v : Lua.Value) : Result := do
  let (bv, this) ← this.editBitvec J get (·.setBitfield J s e v)
  setUnsafe J this (.table bv.u32Vec)

def setBitfieldHexStr (this : Chdl) (s e : Nat) (hexStr : HexText) : Result := do
  let (bv, this) ← this.editBitvec J get (·.setBitfieldHexStr J s e hexStr)
  setUnsafe J this (.table bv.u32Vec)

def setImmBitfield (this : Chdl) (s e : Nat) (v : Lua.Value) : Result := do
  let (bv, this) ← this.editBitvec J get (·.setBitfield J s e v)
  setImmUnsafe J this (.table bv.u32Vec)

def setImmBitfieldHexStr (this : Chdl) (s e : Nat) (hexStr : HexText) : Result := do
  let (bv, this) ← this.editBitvec J get (·.setBitfieldHexStr J s e hexStr)
  setImmUnsafe J this (.table bv.u32Vec)

def putIndex (mode : Mode) (checked : Bool) (this : Chdl) (index : Nat) (value : Arg) : Result := do
  put J mode .set checked this (← this.arrayHdls[index]?) value

def setIndex (this : Chdl) (index : Nat) (value : Arg) : Result :=
  putIndex J .deferred true this index value

def setImmIndex (this : Chdl) (index : Nat) (value : Arg) : Result :=
  putIndex J .imm true this index value

def setIndexUnsafe (this : Chdl) (index : Nat) (value : Arg) : Result :=
  putIndex J .deferred false this index value

def setImmIndexUnsafe (this : Chdl) (index : Nat) (value : Arg) : Result :=
  putIndex J .imm false this index value

def setIndexBitfield (this : Chdl) (index s e : Nat) (v : Lua.Value) : Result := do
  let (bv, this) ← this.editIndexBitvec J get index (·.setBitfield J s e v)
  setIndexUnsafe J this index (.table bv.u32Vec)

def setIndexBitfieldHexStr (this : Chdl) (index s e : Nat) (hexStr : HexText) : Result := do
  let (bv, this) ← this.editIndexBitvec J get index (·.setBitfieldHexStr J s e hexStr)
  setIndexUnsafe J this index (.table bv.u32Vec)

def setImmIndexBitfield (this : Chdl) (index s e : Nat) (v : Lua.Value) : Result := do
  let (bv, this) ← this.editIndexBitvec J get index (·.setBitfield J s e v)
  setImmIndexUnsafe J this index (.table bv.u32Vec)

/-- The one immediate method that calls a deferred one. -/
def setImmIndexBitfieldHexStr (this : Chdl) (index s e : Nat) (hexStr : HexText) : Result := do
  let (bv, this) ← this.editIndexBitvec J get index (·.setBitfieldHexStr J s e hexStr)
  setIndexUnsafe J this index (.table bv.u32Vec)

def setIndexAll (this : Chdl) (values : List Arg) : Result :=
  this.forEachIndex (setIndex J) values

def setIndexUnsafeAll (this : Chdl) (values : List Arg) : Result :=
  this.forEachIndex (setIndexUnsafe J) values

def setImmIndexAll (this : Chdl) (values : List Arg) : Result :=
  this.forEachIndex (setImmIndex J) values

def setImmIndexUnsafeAll (this : Chdl) (values : List Arg) : Result :=
  this.forEachIndex (setImmIndexUnsafe J) values

end ChdlAccessMulti

end Verilua.Access
