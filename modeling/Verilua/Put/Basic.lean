import Verilua.Lib.Vec
import Mathlib.Logic.Function.Basic
import Mathlib.Data.Fintype.Pi

/-!
# Handles and the queue of pending puts

The part of `ComplexHandle` and `VeriluaEnv` that the deferred writes use: the buffers of a handle,
`try_put_value`, which decides whether a request is accepted, and `do_push_hdl_put_value`, which
queues the handle.
-/

namespace Verilua.Put

/-- A pointer to a `ComplexHandle`. -/
abbrev ComplexHandleRaw := Nat

abbrev VpiHandle := Nat

abbrev maxVectorSize : Nat := 32

/-- The `flags` argument of `vpi_put_value`, as far as the deferred and immediate writes use it. -/
inductive PutFlag
  | vpiNoDelay
  | vpiForceFlag
  | vpiReleaseFlag
  deriving DecidableEq, Repr

inductive PutFormat
  /-- The format 0 of a new handle, which no put supports. -/
  | unset
  | vpiBinStrVal
  | vpiOctStrVal
  | vpiDecStrVal
  | vpiHexStrVal
  | vpiScalarVal
  | vpiIntVal
  | vpiVectorVal
  | vpiSuppressVal
  deriving DecidableEq, Repr

/-- `t_vpi_vecval` -/
structure VecVal where
  aval : UInt32
  bval : UInt32
  deriving DecidableEq, Repr

def VecVal.zero : VecVal := ⟨0, 0⟩

/-- `s_vpi_value`: what a call of `vpi_put_value` hands over. A vector is the words the simulator
reads from the pointer. -/
inductive VpiValue
  | vector (words : List VecVal)
  | integer (n : UInt32)
  | str (format : PutFormat) (s : String)
  | scalar (n : UInt32)
  | suppress (n : UInt32)
  deriving DecidableEq, Repr

/-- A signal that passes the assertion of `ComplexHandle::new`. -/
structure Signal where
  vpiHandle : VpiHandle
  width : Nat
  fits : (width + 31) / 32 ≤ maxVectorSize

lemma one_fits : (1 + 31) / 32 ≤ maxVectorSize := by decide

structure ComplexHandle where
  vpiHandle : VpiHandle
  width : Nat
  beatNum : Nat
  beatNum_le : beatNum ≤ maxVectorSize
  putValueFormat : PutFormat
  putValueFlag : Option PutFlag
  putValueInteger : UInt32
  putValueStr : String
  putValueVectors : Fin maxVectorSize → VecVal

def ComplexHandle.new (s : Signal) : ComplexHandle where
  vpiHandle := s.vpiHandle
  width := s.width
  beatNum := (s.width + 31) / 32
  beatNum_le := s.fits
  putValueFormat := .unset
  putValueFlag := none
  putValueInteger := 0
  putValueStr := ""
  putValueVectors := fun _ => .zero

namespace ComplexHandle

/-- The index of the `i`-th word of the value. -/
def beat (h : ComplexHandle) (i : Fin h.beatNum) : Fin maxVectorSize := i.castLE h.beatNum_le

/-- The words the simulator reads from `put_value_vectors`. -/
def words (h : ComplexHandle) : List VecVal := List.ofFn fun i => h.putValueVectors (h.beat i)

/-- The value that `do_apply_pending_put_values` builds, or `none` for "Unsupported value format". -/
def pendingValue (h : ComplexHandle) : Option VpiValue :=
  match h.putValueFormat with
  | .vpiIntVal => some (.integer h.putValueInteger)
  | .vpiVectorVal => some (.vector h.words)
  | .vpiHexStrVal => some (.str .vpiHexStrVal h.putValueStr)
  | .vpiDecStrVal => some (.str .vpiDecStrVal h.putValueStr)
  | .vpiOctStrVal => some (.str .vpiOctStrVal h.putValueStr)
  | .vpiBinStrVal => some (.str .vpiBinStrVal h.putValueStr)
  | .vpiSuppressVal => some (.suppress h.putValueInteger)
  | .vpiScalarVal => some (.scalar h.putValueInteger)
  | .unset => none

end ComplexHandle

/-- The simulators whose `vpi_put_value` runs value-change callbacks before it returns. -/
structure Config where
  vcs : Bool
  iverilog : Bool

def Config.callsBack (cfg : Config) : Bool := cfg.vcs || cfg.iverilog

/-- `VeriluaEnv` with the handles it points to. `rwSynchCbs` counts the calls of
`libverilua_register_rw_synch_cb`. -/
structure Env where
  handles : ComplexHandleRaw → ComplexHandle
  hdlPutValue : Vec ComplexHandleRaw
  hdlPutValueBak : Vec ComplexHandleRaw
  useHdlPutValueBak : Bool
  flushEpoch : UInt64
  rwPhasePassed : Bool
  rwCbReRegistered : Bool
  rwSynchCbs : Nat

def Env.init (signals : ComplexHandleRaw → Signal) : Env where
  handles := fun raw => .new (signals raw)
  hdlPutValue := .new
  hdlPutValueBak := .new
  useHdlPutValueBak := false
  flushEpoch := 0
  rwPhasePassed := false
  rwCbReRegistered := false
  rwSynchCbs := 0

namespace Env

def setHandle (env : Env) (raw : ComplexHandleRaw) (h : ComplexHandle) : Env :=
  { env with handles := Function.update env.handles raw h }

/-- The first entry of the queue with this `vpi_handle`. -/
def find (env : Env) (q : Vec ComplexHandleRaw) (vpi : VpiHandle) : Option Nat :=
  q.position fun raw => decide ((env.handles raw).vpiHandle = vpi)

/-- A pending force is displaced by a force or a release only. -/
def refuses (curr flag : PutFlag) : Bool :=
  decide (curr = .vpiForceFlag ∧ flag ≠ .vpiForceFlag ∧ flag ≠ .vpiReleaseFlag)

/-- Remove the stale entry of the handle, which may be in either queue. The index in the front
queue comes as `.inl`. -/
def staleEntry (cfg : Config) (env : Env) (vpi : VpiHandle) : Option (Nat ⊕ Nat) :=
  match env.find env.hdlPutValue vpi with
  | some idx => some (.inl idx)
  | none =>
    if cfg.callsBack then (env.find env.hdlPutValueBak vpi).map .inr else none

def removeEntry (env : Env) : Nat ⊕ Nat → Env
  | .inl idx => { env with hdlPutValue := env.hdlPutValue.remove idx }
  | .inr idx => { env with hdlPutValueBak := env.hdlPutValueBak.remove idx }

/-- Whether the request is accepted; `none` where the assertion "Duplicate flag, but not found in
hdl_put_value/hdl_put_value_bak" fails. -/
def tryPutValue (cfg : Config) (env : Env) (raw : ComplexHandleRaw) (flag : PutFlag)
    (format : PutFormat) : Option (Bool × Env) :=
  let h := env.handles raw
  let env' := env.setHandle raw { h with putValueFlag := some flag, putValueFormat := format }
  match h.putValueFlag with
  | some curr =>
    if refuses curr flag then some (false, env)
    else (env'.staleEntry cfg h.vpiHandle).map fun e => (true, env'.removeEntry e)
  | none => some (true, env')

def registerRwSynchCb (env : Env) : Env := { env with rwSynchCbs := env.rwSynchCbs + 1 }

/-- The queue that takes new entries. -/
def pushEntry (cfg : Config) (env : Env) (raw : ComplexHandleRaw) : Env :=
  if cfg.callsBack && env.useHdlPutValueBak then
    { env with hdlPutValueBak := env.hdlPutValueBak.push raw }
  else { env with hdlPutValue := env.hdlPutValue.push raw }

def doPushHdlPutValue (cfg : Config) (env : Env) (raw : ComplexHandleRaw) : Env :=
  let env := env.pushEntry cfg raw
  if env.rwPhasePassed && !env.rwCbReRegistered then
    { env with rwCbReRegistered := true }.registerRwSynchCb
  else env

end Env

end Verilua.Put
