import Verilua.Wave.Delay

/-!
# `cbValueChange`

The main loop of `wave_vpi` with the callbacks of `valueCbMap` beside those of `timeCbMap`:
registrations and removals wait in queues that are merged into the map at the end of a turn, and the
value phase walks the map, in any order, and compares what it reads with what it has seen.
-/

namespace Verilua.Wave

open TransitionSystem

namespace Found

def backend : Found → Backend
  | .wellen _ _ => .wellen
  | .fsdb _ => .fsdb

/-- The bits of the value, if there is one yet. -/
def bits? : Found → Option (List Bit)
  | .wellen _ value => value.map BitVecRef.bits
  | .fsdb retVC => some retVC

end Found

/-- A waveform as a build of `wave_vpi` reads it, with its signals by their handles. -/
structure Waveform where
  table : TimeTable
  backend : Backend
  signal : Nat → Signal
  backend_found : ∀ sig idx, ((signal sig).found idx).backend = backend

/-- What a callback has seen of its signal: `bitValue` for a single bit with FSDB, and else
`valueStr`. -/
inductive Seen
  | bit (bitValue : UInt32)
  | str (valueStr : List Char)
  deriving DecidableEq, Repr

/-- `value_p->value.integer` -/
def Value.int : Value → UInt32
  | .integer n => n
  | _ => 0

/-- `value_p->value.str` -/
def Value.text : Value → List Char
  | .str s => s
  | _ => []

namespace Signal

variable (sig : Signal) (w : Window) (idx : Nat)

/-- `vpi_get_value` with FSDB; a signal of more than 32 bits has no window. -/
def fsdbGetValue (format : Format) : Value :=
  if sig.bitSize ≤ 32 then vpiGetValue w sig idx format else (sig.found idx).read format

/-- `_wellen_get_value_str`, or `fsdbGetSingleBitValue` and `fsdbGetBinStr`; `none` is the failed
assertion of `wellen_get_value_str`. -/
def observe : Option Seen :=
  match sig.found idx with
  | .wellen _ (some bv) => some (.str bv.toBitString)
  | .wellen _ none => if idx = 0 then some (.str ['0']) else none
  | .fsdb _ =>
    if sig.bitSize = 1 then some (.bit (sig.fsdbGetValue w idx .vpiIntVal).int)
    else some (.str (sig.fsdbGetValue w idx .vpiBinStrVal).text)

end Signal

/-- `std::stoi` of a text without white space and sign: the decimal number at its start. `none` is
an exception, for want of a digit or because the number is not an `int`. -/
def stoi (s : List Char) : Option Nat :=
  let digits := s.takeWhile Char.isDigit
  if digits = [] then none
  else
    let n := Numeral.value 10 (digits.map fun c => c.toNat - '0'.toNat)
    if n < 2 ^ 31 then some n else none

/-- The integer that the routine of the callback gets. -/
def Seen.integer : Seen → Option UInt32
  | .bit bitValue => some bitValue
  | .str valueStr => (stoi valueStr).map UInt32.ofNat

/-- `ValueCbInfo` -/
structure ValueCbInfo where
  handle : Nat
  seen : Seen
  deriving DecidableEq, Repr

/-- A callback: by its `vpiHandleRaw`, or a `cbAfterDelay`, for which `vpi_register_cb` returns a
null pointer. -/
inductive Cb
  | value (id : Nat)
  | delay (id : Nat)
  deriving DecidableEq, Repr

inductive ValueEv
  /-- `vpi_register_cb` with `cbValueChange` has returned. -/
  | registered (id handle idx : Nat)
  /-- `vpi_remove_cb` has returned. -/
  | removed (cb : Cb)
  /-- The routine of the callback is called; one of a value gets an integer. -/
  | invoked (cb : Cb) (idx : Nat) (integer : Option UInt32)
  /-- The value phase of the index is over. -/
  | walked (idx : Nat)
  deriving DecidableEq, Repr

/-- Why the program was terminated. -/
inductive Crash
  /-- An exception of `std::stoi`, which nothing catches. -/
  | stoi
  /-- The assertion of `wellen_get_value_str`. -/
  | noValue
  /-- The check of `vpi_remove_cb` for a null pointer. -/
  | nullHandle
  deriving DecidableEq, Repr

structure ValueLoop where
  loop : Loop
  valueCbMap : List (Nat × ValueCbInfo)
  willAppendValueCb : List (Nat × ValueCbInfo)
  willRemoveValueCb : List Nat
  vpiHandleAllocator : Nat
  /-- The handles that have not been deleted. -/
  live : List Nat
  /-- In the value phase, the callbacks that the walk has not come to. -/
  walk : Option (List Nat)
  /-- In the walk, whether a routine has the control. -/
  calling : Bool
  crash : Option Crash
  /-- Newest first. -/
  log : List ValueEv

namespace ValueLoop

def init : ValueLoop where
  loop := .init
  valueCbMap := []
  willAppendValueCb := []
  willRemoveValueCb := []
  vpiHandleAllocator := 0
  live := []
  walk := none
  calling := false
  crash := none
  log := []

inductive Act
  /-- A step of the loop or of a routine that `Loop` has. -/
  | time (a : Loop.Act)
  /-- `vpi_register_cb` with `cbValueChange`; `w` is the window of the signal then. -/
  | register (handle : Nat) (w : Window)
  /-- `vpi_remove_cb` -/
  | remove (cb : Cb)
  /-- The walk comes to a callback. -/
  | visit (id : Nat) (w : Window)
  | walked

variable (wave : Waveform) (s : ValueLoop)

/-- A routine of the user has the control. -/
def inRoutine (s : ValueLoop) : Bool :=
  s.loop.inCallback && (s.walk.isNone || s.calling)

def keys (s : ValueLoop) : List Nat := s.valueCbMap.map Prod.fst

/-- `appendValueCb`; the handles of the queue are new. -/
def appendValueCb (s : ValueLoop) : ValueLoop :=
  { s with valueCbMap := s.valueCbMap ++ s.willAppendValueCb, willAppendValueCb := [] }

/-- `removeValueCb` -/
def removeValueCb (s : ValueLoop) : ValueLoop :=
  { s with
    valueCbMap := s.valueCbMap.filter fun e => decide (e.1 ∉ s.willRemoveValueCb)
    willRemoveValueCb := [] }

def fail (s : ValueLoop) (crash : Crash) : ValueLoop := { s with crash := some crash }

def note (s : ValueLoop) (e : ValueEv) : ValueLoop := { s with log := e :: s.log }

def register (s : ValueLoop) (handle : Nat) (w : Window) : ValueLoop :=
  match (wave.signal handle).observe w s.loop.cursor with
  | none => s.fail .noValue
  | some seen =>
    let id := s.vpiHandleAllocator
    { s with
      willAppendValueCb := s.willAppendValueCb ++ [(id, ⟨handle, seen⟩)]
      vpiHandleAllocator := id + 1
      live := id :: s.live
      log := .registered id handle s.loop.cursor :: s.log }

def remove (s : ValueLoop) (id : Nat) : ValueLoop :=
  { s with
    willRemoveValueCb := if id ∈ s.keys then s.willRemoveValueCb ++ [id] else s.willRemoveValueCb
    live := s.live.erase id
    log := .removed (.value id) :: s.log }

def setSeen (s : ValueLoop) (id : Nat) (seen : Seen) : ValueLoop :=
  { s with
    valueCbMap := s.valueCbMap.map fun e => if e.1 = id then (e.1, { e.2 with seen }) else e }

/-- The body of the walk for one callback. -/
def visit (s : ValueLoop) (id : Nat) (info : ValueCbInfo) (left : List Nat) (w : Window) :
    ValueLoop :=
  let s := { s with walk := some left, calling := false }
  match (wave.signal info.handle).observe w s.loop.cursor with
  | none => s.fail .noValue
  | some seen =>
    if seen = info.seen then s
    else
      match seen.integer with
      | none => (s.setSeen id seen).fail .stoi
      | some integer =>
        { (s.setSeen id seen).note (.invoked (.value id) s.loop.cursor (some integer)) with
          calling := true }

/-- What a step of `Loop` is to the value callbacks. -/
def afterTime (s : ValueLoop) (a : Loop.Act) (loop : Loop) : ValueLoop :=
  match a with
  | .startLoop => { s.appendValueCb with loop }
  | .call =>
    match s.loop.phase with
    | .walk _ (e :: _) => { s.note (.invoked (.delay e.id) s.loop.cursor none) with loop }
    | _ => { s with loop }
  | .walked => { s with loop, walk := some s.keys, calling := false }
  | .advance => { s.removeValueCb.appendValueCb with loop }
  | _ => { s with loop }

/-- Whether `Loop` may do the step: a routine only where one has the control, and the end of a turn
only after the walk. -/
def permits (s : ValueLoop) : Loop.Act → Bool
  | .register _ | .setCursor _ | .terminate => s.inRoutine
  | _ => s.walk.isNone

def step (a : Act) : Option ValueLoop :=
  if s.crash.isSome then none
  else
    match a with
    | .time a =>
      if s.permits a then (s.loop.step wave.table wave.backend a).map (s.afterTime a) else none
    | .register handle w => if s.inRoutine then some (s.register wave handle w) else none
    | .remove (.value id) =>
      if s.inRoutine ∧ id ∈ s.live then some (s.remove id) else none
    | .remove (.delay _) => if s.inRoutine then some (s.fail .nullHandle) else none
    | .visit id w =>
      match s.walk, s.valueCbMap.lookup id with
      | some left, some info =>
        if id ∈ left then some (s.visit wave id info (left.filter (· ≠ id)) w) else none
      | _, _ => none
    | .walked =>
      if s.walk = some [] then
        some { s.note (.walked s.loop.cursor) with walk := none, calling := false }
      else none

/-- The states reached from the start by steps that satisfy `ok`. -/
abbrev Reached (ok : ValueLoop → Act → Prop) : ValueLoop → Prop := Reach (step wave) ok init

end ValueLoop

/-- No routine is called after the removal of its callback has returned. -/
def Quiet : List ValueEv → Prop
  | [] => True
  | .invoked cb _ _ :: log => .removed cb ∉ log ∧ Quiet log
  | _ :: log => Quiet log

end Verilua.Wave
