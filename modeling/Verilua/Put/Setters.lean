import Verilua.Put.Basic

/-!
# Writing values

The functions `vpiml_set_*`, `vpiml_force_*` and `vpiml_release_*`, without the feature
`inertial_put`. Each deferred form fills the buffers of the handle when `try_put_value` accepts it,
and each immediate form hands its value to `vpi_put_value` at once.
-/

namespace Verilua.Put

/-- `$action` of the macros that generate the setters. -/
inductive Action
  | set
  | force
  deriving DecidableEq, Repr

def Action.flag : Action → PutFlag
  | .set => .vpiNoDelay
  | .force => .vpiForceFlag

inductive StrType
  | hex
  | bin
  | dec
  deriving DecidableEq, Repr

def StrType.format : StrType → PutFormat
  | .hex => .vpiHexStrVal
  | .bin => .vpiBinStrVal
  | .dec => .vpiDecStrVal

/-- The value argument of a setter, one constructor for each generated name:
`vpiml_<action>_value`, `…_value64`, `…_value64_force_single`, `…_value_multi` (the words at the
pointer), `…_value_multi_beat_<n>` (its `n` arguments), `…_value_<type>_str` and `…_value_str`. -/
inductive Value
  | value (v : UInt32)
  | value64 (v : UInt64)
  | value64ForceSingle (v : UInt64)
  | valueMulti (v : Nat → UInt32)
  | valueMultiBeat (v : List UInt32)
  | valueTypedStr (t : StrType) (s : String)
  | valueStr (s : String)

/-- The prefix of the argument of `vpiml_<action>_value_str` says its format. -/
def parseValueStr (s : String) : String × PutFormat :=
  if "0b".toList.isPrefixOf s.toList then (String.ofList (s.toList.drop 2), .vpiBinStrVal)
  else if "0x".toList.isPrefixOf s.toList then (String.ofList (s.toList.drop 2), .vpiHexStrVal)
  else (s, .vpiDecStrVal)

def Value.format : Value → PutFormat
  | .value _ | .value64 _ | .value64ForceSingle _ | .valueMulti _ | .valueMultiBeat _ => .vpiVectorVal
  | .valueTypedStr t _ => t.format
  | .valueStr s => (parseValueStr s).2

/-! ### Filling the vector buffer -/

namespace ComplexHandle

variable (h : ComplexHandle)

/-- `for i in start..beat_num { vectors[i] = 0 }` -/
def zeroFrom (start : Nat) : ComplexHandle :=
  { h with putValueVectors := fun i =>
      if start ≤ i.val ∧ i.val < h.beatNum then .zero else h.putValueVectors i }

def setAval (i : Fin maxVectorSize) (v : UInt32) : ComplexHandle :=
  { h with putValueVectors := Function.update h.putValueVectors i { h.putValueVectors i with aval := v } }

def setBval (i : Fin maxVectorSize) (v : UInt32) : ComplexHandle :=
  { h with putValueVectors := Function.update h.putValueVectors i { h.putValueVectors i with bval := v } }

/-- The immediate forms of a single word, `vpiml_set_imm_value`. -/
def fillValue (v : UInt32) : ComplexHandle :=
  ((h.setAval 0 v).setBval 0 0).zeroFrom 1

def fillValue64 (v : UInt64) : ComplexHandle :=
  ((((h.zeroFrom 2).setAval 1 (v >>> 32).toUInt32).setBval 1 0).setAval
    0 (v &&& 0xFFFFFFFF).toUInt32).setBval 0 0

def fillValue64ForceSingle (v : UInt64) : ComplexHandle :=
  ((h.zeroFrom 0).setAval 1 (v >>> 32).toUInt32).setAval 0
    ((v <<< 32) >>> 32).toUInt32

def fillValueMulti (v : Nat → UInt32) : ComplexHandle :=
  { h with putValueVectors := fun i =>
      if i.val < h.beatNum then ⟨v i, 0⟩ else h.putValueVectors i }

/-- `put_value_vectors[i].aval = v_i` for each argument. -/
def fillValueMultiBeat (v : List UInt32) : ComplexHandle :=
  { h with putValueVectors := fun i =>
      match v[i.val]? with
      | some w => { h.putValueVectors i with aval := w }
      | none => h.putValueVectors i }

end ComplexHandle

/-- What the deferred form of a setter writes once its request is accepted. -/
def Value.write (h : ComplexHandle) : Value → ComplexHandle
  | .value v => h.setAval 0 v
  | .value64 v => h.fillValue64 v
  | .value64ForceSingle v => h.fillValue64ForceSingle v
  | .valueMulti v => h.fillValueMulti v
  | .valueMultiBeat v => h.fillValueMultiBeat v
  | .valueTypedStr _ s => { h with putValueStr := s }
  | .valueStr s => { h with putValueStr := (parseValueStr s).1 }

/-- The immediate form of a setter: the handle after it and the value it hands over. The forms with
a fixed number of beats hand over an array of their own. -/
def Value.imm (h : ComplexHandle) (action : Action) : Value → ComplexHandle × VpiValue
  | .value v =>
    match action with
    | .force => (h, .integer v)
    | .set => (h.fillValue v, .vector (h.fillValue v).words)
  | .value64 v => (h.fillValue64 v, .vector (h.fillValue64 v).words)
  | .value64ForceSingle v =>
    (h.fillValue64ForceSingle v, .vector (h.fillValue64ForceSingle v).words)
  | .valueMulti v => (h.fillValueMulti v, .vector (h.fillValueMulti v).words)
  | .valueMultiBeat v => (h, .vector (v.map fun w => ⟨w, 0⟩))
  | .valueTypedStr t s => (h, .str t.format s)
  | .valueStr s => (h, .str (parseValueStr s).2 (parseValueStr s).1)

/-! ### Requests -/

/-- The value `vpi_get_value` leaves behind: the words at its vector pointer, and the union read as
an integer. -/
structure Readback where
  vector : Nat → VecVal
  integer : UInt32

/-- A deferred request: a setter, or `vpiml_release_value` with what the simulator reads back. -/
inductive Request
  | set (action : Action) (value : Value)
  | release (current : Readback)

def Request.flag : Request → PutFlag
  | .set action _ => action.flag
  | .release _ => .vpiReleaseFlag

def Request.format : Request → PutFormat
  | .set _ value => value.format
  | .release _ => .vpiVectorVal

def Request.write (h : ComplexHandle) : Request → ComplexHandle
  | .set _ value => value.write h
  | .release current =>
    { h with
      putValueInteger := current.integer
      putValueVectors := fun i => if i.val < h.beatNum then current.vector i else h.putValueVectors i }

namespace Env

/-- `if try_put_value(..) { write the value; do_push_hdl_put_value(..) }`, with the answer of
`try_put_value`. -/
def request (cfg : Config) (env : Env) (raw : ComplexHandleRaw) (r : Request) :
    Option (Bool × Env) :=
  (env.tryPutValue cfg raw r.flag r.format).map fun (accepted, env) =>
    if accepted then
      (true, (env.setHandle raw (r.write (env.handles raw))).doPushHdlPutValue cfg raw)
    else (false, env)

/-- `vpiml_release_imm_value` drops the pending put of the handle before it releases it. -/
def releaseImm (cfg : Config) (env : Env) (raw : ComplexHandleRaw) : Env :=
  let h := env.handles raw
  match env.staleEntry cfg h.vpiHandle with
  | some e => (env.removeEntry e).setHandle raw { h with putValueFlag := none }
  | none => env

end Env

end Verilua.Put
