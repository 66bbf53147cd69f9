import Verilua.Wave.Jit

/-!
# `cbAfterDelay`

The main loop of `wave_vpi` with the callbacks of `timeCbMap`, step by step: what any callback does
(register a further `cbAfterDelay`, set the cursor, end the simulation) comes between the steps of
the loop.
-/

namespace Verilua.Wave

open TransitionSystem

/-- The time table of the waveform, `xtagU64Vec`. -/
structure TimeTable where
  times : List Nat
  ne_nil : times ≠ []
  sorted : times.Pairwise (· < ·)
  lt_size : ∀ t ∈ times, t < 2 ^ 64

namespace TimeTable

variable (table : TimeTable)

def time (idx : Nat) : Nat := table.times.getD idx 0

/-- `cursor.maxIndex` -/
def maxIndex : Nat := table.times.length - 1

/-- `cursor.maxTime` -/
def maxTime : Nat := table.time table.maxIndex

/-- `std::lower_bound`; with `binary_search` it is the index of the time, if the table has it, and
else where it would be. -/
def lowerBound (time : Nat) : Nat := table.times.findIdx (fun t => decide (time ≤ t))

/-- `find_nearest_time_index` and `findNearestTimeIndex`, which returns 32 bits. -/
def findNearestTimeIndex (time : Nat) : Backend → Nat
  | .wellen =>
    let index := table.lowerBound time
    if table.times[index]? = some time then index else min (index - 1) (table.times.length - 1)
  | .fsdb =>
    let index := table.lowerBound time
    if index = table.times.length then (table.times.length - 1) % 2 ^ 32
    else if index = 0 then 0
    else
      let index := index % 2 ^ 32
      if table.time index = time then index
      else
        let before := (index + 2 ^ 32 - 1) % 2 ^ 32
        if table.time before < time then before else index

/-- A waveform that has only its initial values. -/
def start : TimeTable := ⟨[0], by decide, by decide, by decide⟩

end TimeTable

/-- A callback of `timeCbMap` with its key. The loop does not use `due`, the time that it was asked
for. -/
structure Delay where
  id : Nat
  targetIndex : Nat
  due : Nat
  deriving DecidableEq, Repr

/-- Where the loop is. -/
inductive Phase
  /-- Before the loop, with the callbacks of the start of the simulation. -/
  | starting
  | test
  /-- The walk over `timeCbMap`: the keys still to come, and the callbacks still to be called for
  the key at hand. -/
  | walk (left : List Nat) (calls : List Delay)
  /-- The callbacks of `cbValueChange` and `cbNextSimTime`. -/
  | values
  | finished
  deriving DecidableEq, Repr

inductive DelayEv
  /-- `vpi_register_cb` with the time of the cursor plus the delay. -/
  | registered (id due : Nat)
  | fired (id idx : Nat)
  /-- The cursor leaves an index, or the loop ends there. -/
  | left (idx : Nat)
  deriving DecidableEq, Repr

structure Loop where
  cursor : Nat
  vpiControlTerminate : Bool
  timeCbMap : List Delay
  willAppendTimeCbQueue : List Delay
  phase : Phase
  /-- Whether a callback has the control. -/
  inCallback : Bool
  nextId : Nat
  /-- Newest first. -/
  log : List DelayEv

namespace Loop

def init : Loop where
  cursor := 0
  vpiControlTerminate := false
  timeCbMap := []
  willAppendTimeCbQueue := []
  phase := .starting
  inCallback := true
  nextId := 0
  log := []

inductive Act
  /-- `vpi_register_cb` with `cbAfterDelay`. -/
  | register (delay : UInt64)
  /-- `wave_vpi_ctrl_set_cursor_*` -/
  | setCursor (idx : Nat)
  | terminate
  /-- The callbacks before the loop are done. -/
  | startLoop
  | loopTest
  | visit (key : Nat)
  | call
  | walked
  /-- `cursor.index++` -/
  | advance
  deriving DecidableEq

variable (table : TimeTable) (backend : Backend) (s : Loop)

/-- A delay beyond the last time is dropped. -/
def register (s : Loop) (delay : UInt64) : Loop :=
  let due := table.time s.cursor + delay.toNat
  let targetTime := due % 2 ^ 64
  let s := { s with nextId := s.nextId + 1, log := .registered s.nextId due :: s.log }
  if table.maxTime < targetTime then s
  else
    let targetIndex := table.findNearestTimeIndex targetTime backend
    { s with
      willAppendTimeCbQueue := s.willAppendTimeCbQueue ++ [⟨s.nextId - 1, targetIndex, due⟩] }

def setCursor (s : Loop) (idx : Nat) : Loop :=
  if idx = s.cursor then s else { s with cursor := idx, log := .left s.cursor :: s.log }

/-- `appendTimeCb` -/
def appendTimeCb (s : Loop) : Loop :=
  { s with timeCbMap := s.timeCbMap ++ s.willAppendTimeCbQueue, willAppendTimeCbQueue := [] }

def loopTest (s : Loop) : Loop :=
  if s.cursor < table.maxIndex ∧ s.vpiControlTerminate = false then
    { s with phase := .walk (s.timeCbMap.map Delay.targetIndex) [], inCallback := false }
  else
    { s with
      phase := .finished
      inCallback := false
      log := if s.cursor < table.maxIndex then s.log else .left s.cursor :: s.log }

/-- The entry of a key is erased after its callbacks, which do not look at the map. -/
def visit (s : Loop) (key : Nat) (left : List Nat) : Loop :=
  let left := left.filter (fun k => decide (k ≠ key))
  if key ≤ s.cursor then
    { s with
      timeCbMap := s.timeCbMap.filter (fun e => decide (e.targetIndex ≠ key))
      phase := .walk left (s.timeCbMap.filter (fun e => decide (e.targetIndex = key)))
      inCallback := false }
  else { s with phase := .walk left [], inCallback := false }

/-- `cb->cb_rtn(cb.get())` -/
def call (s : Loop) (e : Delay) (left : List Nat) (calls : List Delay) : Loop :=
  { s with phase := .walk left calls, inCallback := true, log := .fired e.id s.cursor :: s.log }

def step (s : Loop) : Act → Option Loop
  | .register delay => if s.inCallback then some (s.register table backend delay) else none
  | .setCursor idx => if s.inCallback ∧ idx < table.maxIndex then some (s.setCursor idx) else none
  | .terminate => if s.inCallback then some { s with vpiControlTerminate := true } else none
  | .startLoop =>
    match s.phase with
    | .starting => some { s.appendTimeCb with phase := .test, inCallback := false }
    | _ => none
  | .loopTest =>
    match s.phase with
    | .test => some (s.loopTest table)
    | _ => none
  | .visit key =>
    match s.phase with
    | .walk left [] => if key ∈ left then some (s.visit key left) else none
    | _ => none
  | .call =>
    match s.phase with
    | .walk left (e :: calls) => some (s.call e left calls)
    | _ => none
  | .walked =>
    match s.phase with
    | .walk [] [] => some { s.appendTimeCb with phase := .values, inCallback := true }
    | _ => none
  | .advance =>
    match s.phase with
    | .values =>
      some { s with
        cursor := s.cursor + 1
        phase := .test
        inCallback := false
        log := .left s.cursor :: s.log }
    | _ => none

/-- The states reached from the start by steps that satisfy `ok`. -/
abbrev Reached (ok : Loop → Act → Prop) : Loop → Prop := Reach (step table backend) ok init

end Loop

/-- A callback that was asked for a time in the table fires at most once, at no index before that
time, and before the cursor leaves an index of that time or later. -/
def Punctual (table : TimeTable) : List DelayEv → Prop
  | [] => True
  | .registered _ _ :: log => Punctual table log
  | .fired id idx :: log =>
    (∀ due, .registered id due ∈ log → due ≤ table.maxTime →
      due ≤ table.time idx ∧ ∀ i, .fired id i ∉ log) ∧ Punctual table log
  | .left idx :: log =>
    (∀ id due, .registered id due ∈ log → due ≤ table.maxTime → due ≤ table.time idx →
      ∃ i, .fired id i ∈ log) ∧ Punctual table log

end Verilua.Wave
