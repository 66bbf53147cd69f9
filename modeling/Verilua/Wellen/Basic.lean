import Mathlib.Data.List.AList
import Mathlib.Data.String.Basic
import Verilua.Lib.Codec
import Verilua.Wave.Delay

/-!
# The signals of a waveform in `wellen_impl`

The caches of the backend and the functions over them: a name is looked up and its signal loaded
once, and every other function finds the loaded signal by its reference.
-/

namespace Verilua.Wellen

open Codec (Outcome)
open Wave (BitVecRef Format Value TimeTable)

abbrev SignalRef := Nat

/-- `VarType`. The types that no function tells apart are `other`. -/
inductive VarType
  | wire
  | reg
  | logic
  | sparseArray
  | other
  deriving DecidableEq, Repr

/-- A variable as `lookup_var` finds it. -/
structure Var where
  varType : VarType
  signalRef : SignalRef

/-- `SignalValueRef`; the values that are not bit vectors are reals, strings and events. -/
inductive SignalValue
  | bitVec (bv : BitVecRef)
  | other

/-- A loaded signal: `get_first_time_idx`, and `get_offset` with `get_value_at`. -/
structure Signal where
  firstTimeIdx : Option Nat
  valueAt : Nat → Option SignalValue

/-- One waveform file, as the library `wellen` reads it. -/
structure WaveFile where
  lookupVar : List String → String → Option Var
  loadSignal : SignalRef → Signal
  timeTable : TimeTable

structure SignalInfo where
  signal : Signal
  varType : VarType

/-- The caches of one run, each under the name of its `static`. -/
structure Caches where
  signalRefCache : AList fun _ : String => SignalRef
  signalRefCacheNull : List String
  signalCache : AList fun _ : SignalRef => SignalInfo
  signalNameCache : AList fun _ : SignalRef => String
  hasNewlyAddSignalRef : Bool

def Caches.empty : Caches := ⟨∅, [], ∅, ∅, false⟩

/-- `name.rsplit_once(".")`, with the path split at its dots. -/
def rsplitOnce (name : String) : Option (List String × String) :=
  match (name.toList.splitOn '.').reverse with
  | signalName :: part :: parts =>
    some ((part :: parts).reverse.map String.ofList, String.ofList signalName)
  | _ => none

/-- `wellen_vpi_handle_by_name`; a handle points to a reference, and `none` is the null pointer. A
name without a dot is a panic. -/
def handleByName (wave : WaveFile) (name : String) (c : Caches) :
    Outcome (Option SignalRef × Caches) :=
  match c.signalRefCache.lookup name with
  | some id => .value (some id, { c with signalNameCache := c.signalNameCache.insert id name })
  | none =>
    if name ∈ c.signalRefCacheNull then .value (none, c)
    else
      match rsplitOnce name with
      | none => .panic
      | some (path, signalName) =>
        match wave.lookupVar path signalName with
        | none =>
          .value (none, { c with
            signalRefCacheNull := name :: c.signalRefCacheNull
            hasNewlyAddSignalRef := true })
        | some var =>
          .value (some var.signalRef,
            { signalRefCache := c.signalRefCache.insert name var.signalRef
              signalRefCacheNull := c.signalRefCacheNull
              signalCache := c.signalCache.insert var.signalRef
                ⟨wave.loadSignal var.signalRef, var.varType⟩
              signalNameCache := c.signalNameCache.insert var.signalRef name
              hasNewlyAddSignalRef := true })

/-- `get_signal_cache().get(handle).unwrap()` -/
def loaded (c : Caches) (handle : SignalRef) : Outcome SignalInfo :=
  match c.signalCache.lookup handle with
  | some info => .value info
  | none => .panic

namespace Signal

variable (signal : Signal) (timeTableIdx : Nat)

/-- The value at `get_offset(time_table_idx as u32)`, if there is one; one that is not a bit vector is
a panic. -/
def bitVecAt : Outcome (Option BitVecRef) :=
  match signal.valueAt (timeTableIdx % 2 ^ 32) with
  | some (.bitVec bv) => .value (some bv)
  | some .other => .panic
  | none => .value none

/-- `wellen_get_int_value` -/
def intValue : Outcome UInt32 := do
  let bv ← signal.bitVecAt timeTableIdx
  return Wave.wellenGetIntValue bv

/-- `wellen_vpi_get_value_from_index`, with its assertions on a time before the first value. -/
def valueFromIndex (format : Format) : Outcome Value := do
  let bv ← signal.bitVecAt timeTableIdx
  if bv = none ∧ (timeTableIdx ≠ 0 ∨ signal.firstTimeIdx = none) then .panic
  return Wave.wellenVpiGetValueFromIndex bv format

/-- `wellen_get_value_str` -/
def valueStr : Outcome (List Char) := do
  let bv ← signal.bitVecAt timeTableIdx
  if bv = none ∧ timeTableIdx ≠ 0 then .panic
  return bv.elim ['0'] BitVecRef.toBitString

end Signal

def getIntValue (c : Caches) (handle : SignalRef) (timeTableIdx : Nat) : Outcome UInt32 := do
  let info ← loaded c handle
  info.signal.intValue timeTableIdx

def getValueFromIndex (c : Caches) (handle : SignalRef) (timeTableIdx : Nat) (format : Format) :
    Outcome Value := do
  let info ← loaded c handle
  info.signal.valueFromIndex timeTableIdx format

/-- The width of the first value. A signal without values and a value that is not a bit vector are
panics. -/
def firstWidth (signal : Signal) : Outcome Nat :=
  match signal.firstTimeIdx with
  | none => .panic
  | some firstIdx =>
    match signal.valueAt firstIdx with
    | some (.bitVec bv) => .value bv.width
    | _ => .panic

/-- `wellen_vpi_get` of `vpiSize`. -/
def getSize (c : Caches) (handle : SignalRef) : Outcome Nat := do
  let info ← loaded c handle
  firstWidth info.signal

/-! ### Queries -/

/-- What a testbench asks of the waveform. -/
inductive Query
  | handleByName (name : String)
  | getIntValue (handle : SignalRef) (timeTableIdx : Nat)
  | getValue (handle : SignalRef) (timeTableIdx : Nat) (format : Format)
  | getSize (handle : SignalRef)
  | getTimeFromIndex (index : Nat)
  | getIndexFromTime (time : Nat)
  | getMaxIndex

inductive Answer
  | handle (ref : Option SignalRef)
  | int (value : UInt32)
  | value (value : Value)
  | number (n : Nat)
  deriving DecidableEq

/-- The handle that a query reads from. -/
def Query.handle? : Query → Option SignalRef
  | getIntValue handle _ | getValue handle _ _ | getSize handle => some handle
  | _ => none

def ask (wave : WaveFile) (c : Caches) : Query → Outcome (Answer × Caches)
  | .handleByName name => do
    let (ref, c) ← handleByName wave name c
    return (.handle ref, c)
  | .getIntValue handle idx => do return (.int (← getIntValue c handle idx), c)
  | .getValue handle idx format => do
    return (.value (← getValueFromIndex c handle idx format), c)
  | .getSize handle => do return (.number (← getSize c handle), c)
  | .getTimeFromIndex index =>
    match wave.timeTable.times[index]? with
    | some time => return (.number time, c)
    | none => .panic
  | .getIndexFromTime time => return (.number (wave.timeTable.findNearestTimeIndex time .wellen), c)
  | .getMaxIndex => return (.number wave.timeTable.maxIndex, c)

end Verilua.Wellen
