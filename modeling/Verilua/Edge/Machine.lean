import Mathlib.Data.List.Dedup
import Verilua.Lib.OneShot
import Verilua.Lib.TransitionSystem
import Verilua.Put.Basic
import Verilua.Scheduler.Basic

/-!
# Edge callbacks

The registration of edge callbacks with the feature `opt_cb_task`, with and without `merge_cb` and
`chunk_task`: registrations wait in the pending maps for the next `cbNextSimTime` callback, which
registers them with the simulator, one task or up to 16 tasks at a time.
-/

namespace Verilua.Edge

open Put (ComplexHandleRaw)

abbrev EdgeCallbackID := Nat

inductive EdgeType
  | posedge
  | negedge
  | edge
  deriving DecidableEq, Repr

inductive EdgeValue
  | low
  | high
  | dontCare
  deriving DecidableEq, Repr

/-- `EdgeValue::try_from`, which fails on X and Z. -/
def EdgeValue.tryFrom (v : UInt8) : Option EdgeValue :=
  if v = 0 then some .low
  else if v = 1 then some .high
  else if v = 2 then some .dontCare
  else none

def edgeTypeToValue : EdgeType → EdgeValue
  | .posedge => .high
  | .negedge => .low
  | .edge => .dontCare

/-- The test at the beginning of every edge callback. -/
def EdgeType.detects (t : EdgeType) (v : UInt8) : Bool :=
  match EdgeValue.tryFrom v with
  | none => false
  | some newValue => decide (newValue = edgeTypeToValue t ∨ edgeTypeToValue t = .dontCare)

structure Config where
  mergeCb : Bool
  chunkTask : Bool

/-- A signal and the kind of edge: one of the maps of the three kinds and a key in it. -/
structure Key where
  handle : ComplexHandleRaw
  edgeType : EdgeType
  deriving DecidableEq, Repr

/-- A task that waits for an edge. -/
structure Reg where
  key : Key
  task : TaskID
  deriving DecidableEq, Repr

/-- A value change of a signal. -/
structure Change where
  handle : ComplexHandleRaw
  value : UInt8
  deriving DecidableEq, Repr

/-- The change is an edge that the registration waits for. -/
def hits (c : Change) (r : Reg) : Bool :=
  decide (r.key.handle = c.handle) && r.key.edgeType.detects c.value

/-- `EdgeCbData` (one task) and `EdgeCbDataChunk_<n>`. -/
structure Callback where
  id : EdgeCallbackID
  key : Key
  tasks : List TaskID
  deriving DecidableEq, Repr

def Callback.has (cb : Callback) (r : Reg) : Prop := cb.key = r.key ∧ r.task ∈ cb.tasks

instance (cb : Callback) (r : Reg) : Decidable (cb.has r) :=
  inferInstanceAs (Decidable (_ ∧ _))

/-- The count maps of the handles, the pending maps (their entries in the order they were pushed),
the kept chunks, and the callbacks that are registered with the simulator, each under its id in
`edge_cb_slab`. -/
structure Env where
  cbCount : Reg → Option Nat
  pendingCbMap : List Reg
  pendingCbChunk : List Callback
  callbacks : List Callback

def Env.init : Env where
  cbCount := fun _ => none
  pendingCbMap := []
  pendingCbChunk := []
  callbacks := []

namespace Env

/-- `vpiml_register_<edge_type>_callback_common` -/
def registerEdgeCallback (cfg : Config) (env : Env) (r : Reg) : Env :=
  let t := (env.cbCount r).getD 0 + 1
  let env := if cfg.mergeCb then { env with cbCount := Function.update env.cbCount r (some t) } else env
  if cfg.mergeCb && !cfg.chunkTask && decide (1 < t) then env
  else { env with pendingCbMap := env.pendingCbMap ++ [r] }

/-- `edge_cb_slab.remove` and `vpi_remove_cb` -/
def removeCallback (env : Env) (cb : Callback) : Env :=
  { env with callbacks := env.callbacks.filter fun cb' => decide (cb'.id ≠ cb.id) }

/-! ### The end of a callback -/

/-- The count loop of `edge_callback_chunk_<n>`: the counts after it and the tasks that are down to
zero; `none` where a count is missing or would be negative. -/
def takeCounts (key : Key) : List TaskID → (Reg → Option Nat) →
    Option ((Reg → Option Nat) × List TaskID)
  | [], count => some (count, [])
  | t :: ts, count =>
    match count ⟨key, t⟩ with
    | some (n + 1) =>
      (takeCounts key ts (Function.update count ⟨key, t⟩ (some n))).map fun (count, finished) =>
        (count, if n = 0 then t :: finished else finished)
    | _ => none

/-- The rest of `edge_callback` with `merge_cb` after the task has been resumed. -/
def finishMerged (env : Env) (cb : Callback) : Option Env :=
  match cb.tasks with
  | [t] =>
    match env.cbCount ⟨cb.key, t⟩ with
    | some (n + 1) =>
      let env := { env with cbCount := Function.update env.cbCount ⟨cb.key, t⟩ (some n) }
      some (if n = 0 then env.removeCallback cb else env)
    | _ => none
  | _ => none

/-- The rest of `edge_callback_chunk_<n>` with `merge_cb`: the callback stays when every task has
registered again. -/
def finishChunk (env : Env) (cb : Callback) : Option Env :=
  (takeCounts cb.key cb.tasks env.cbCount).map fun (count, finished) =>
    if finished = [] then { env with
      cbCount := count
      pendingCbChunk :=
        if env.pendingCbChunk.any fun cb' => decide (cb'.id = cb.id) then env.pendingCbChunk
        else env.pendingCbChunk ++ [cb] }
    else removeCallback { env with
      cbCount := fun r => if r.key = cb.key ∧ r.task ∈ finished then none else count r
      pendingCbChunk := env.pendingCbChunk.filter fun cb' => decide (cb'.id ≠ cb.id) } cb

def finish (cfg : Config) (env : Env) (cb : Callback) : Option Env :=
  if cfg.mergeCb then
    if cfg.chunkTask then env.finishChunk cb else env.finishMerged cb
  else some (env.removeCallback cb)

/-! ### The next simulation time -/

/-- `process_cb_chunk` on one entry: a kept chunk all of whose tasks are pending serves them. -/
def processCbChunk (pending : List Reg) (cb : Callback) : List Reg :=
  if cb.tasks.all fun t => decide (⟨cb.key, t⟩ ∈ pending) then
    pending.filter fun r => decide ¬ cb.has r
  else pending

/-- At most `n` elements at a time. -/
def chunksOf {α : Type} (n : Nat) : Nat → List α → List (List α)
  | 0, _ => []
  | _ + 1, [] => []
  | fuel + 1, x :: xs => (x :: xs).take n :: chunksOf n fuel ((x :: xs).drop n)

def tasksOf (pending : List Reg) (key : Key) : List TaskID :=
  (pending.filter fun r => decide (r.key = key)).map Reg.task

/-- What is registered with the simulator: single tasks, or chunks of up to 16. -/
def groups (cfg : Config) (pending : List Reg) : List (Key × List TaskID) :=
  if cfg.chunkTask then
    (pending.map Reg.key).dedup.flatMap fun key =>
      (chunksOf 16 (tasksOf pending key).length (tasksOf pending key)).map fun ts => (key, ts)
  else pending.map fun r => (r.key, [r.task])

/-- What is pending once the kept chunks, in the order in which the map yields them, have taken
theirs. -/
def unserved (cfg : Config) (env : Env) (order : List Callback) : List Reg :=
  if cfg.mergeCb && cfg.chunkTask then order.foldl processCbChunk env.pendingCbMap
  else env.pendingCbMap

/-- `libverilua_next_sim_time_cb`, with the ids that the slab gives to the new callbacks. -/
def nextSimTime (cfg : Config) (env : Env) (order : List Callback) (ids : List EdgeCallbackID) :
    Option Env :=
  let new := groups cfg (env.unserved cfg order)
  if order.Perm env.pendingCbChunk ∧ ids.length = new.length ∧
      (env.callbacks.map Callback.id ++ ids).Nodup then some { env with
    callbacks := env.callbacks ++ List.zipWith (fun id g => ⟨id, g.1, g.2⟩) ids new
    pendingCbMap := [] }
  else none

end Env

/-!
### Edges while callbacks run

The simulator calls the callbacks of a signal that has changed one after another. Tasks run inside
a callback: they register, and their writes may change signals, whose callbacks then run before
the one in progress goes on.
-/

open Put (ComplexHandleRaw)
open TransitionSystem

/-- A value change whose callbacks are being called. `current` is the callback in progress with
the tasks that it has not resumed yet. -/
structure Frame where
  handle : ComplexHandleRaw
  value : UInt8
  toCall : List EdgeCallbackID
  current : Option (Callback × List TaskID)

def Frame.change (f : Frame) : Change := ⟨f.handle, f.value⟩

/-- The count of a task is missing, or goes below zero, where a callback takes it down. -/
inductive Fault
  | noCount
  deriving DecidableEq, Repr

/-- `fired` holds the callbacks that were called with a matching value since the last
`cbNextSimTime` callback, and `log` what happened, newest first. -/
structure Machine where
  env : Env
  stack : List Frame
  fired : List EdgeCallbackID
  log : List (OneShot.Entry Reg Change)
  fault : Option Fault

inductive Act
  /-- `vpiml_register_<edge_type>_callback` -/
  | register (r : Reg)
  | edge (handle : ComplexHandleRaw) (value : UInt8)
  /-- The simulator calls a callback of the innermost change. -/
  | call (i : Nat)
  /-- `sim_event` on the next task of the callback -/
  | wake
  | finish
  | endEdge
  /-- `libverilua_next_sim_time_cb` -/
  | nextSimTime (order : List Callback) (ids : List EdgeCallbackID)

def Machine.init : Machine where
  env := .init
  stack := []
  fired := []
  log := []
  fault := none

namespace Machine

/-- Lua code runs: in a callback, or between two changes. -/
def codeRuns (m : Machine) : Bool :=
  match m.stack with
  | [] => true
  | f :: _ => f.current.isSome

/-- The callback with this id that is still registered with the simulator. -/
def callback? (m : Machine) (id : EdgeCallbackID) : Option Callback :=
  m.env.callbacks.find? fun cb => decide (cb.id = id)

/-- The callbacks of a signal. -/
def callbacksOn (m : Machine) (handle : ComplexHandleRaw) : List EdgeCallbackID :=
  (m.env.callbacks.filter fun cb => decide (cb.key.handle = handle)).map Callback.id

/-- The callback that `call i` calls in the frame, if it is still registered and the value
matches. -/
def matching (m : Machine) (f : Frame) (i : Nat) : Option Callback :=
  (f.toCall[i]?.bind m.callback?).filter fun cb => cb.key.edgeType.detects f.value

def callAt (m : Machine) (f : Frame) (rest : List Frame) (i : Nat) : Machine :=
  let called := { f with toCall := f.toCall.eraseIdx i }
  match m.matching f i with
  | none => { m with stack := called :: rest }
  | some cb => { m with
      stack := { called with current := some (cb, cb.tasks) } :: rest
      fired := cb.id :: m.fired }

def step (cfg : Config) (m : Machine) (a : Act) : Option Machine :=
  if m.fault.isSome then none
  else
    match a, m.stack with
    | .register r, _ =>
      if m.codeRuns then some { m with
        env := m.env.registerEdgeCallback cfg r
        log := .register r :: m.log }
      else none
    | .edge handle value, stack =>
      if m.codeRuns then some { m with
        stack := ⟨handle, value, m.callbacksOn handle, none⟩ :: stack
        log := .fire ⟨handle, value⟩ :: m.log }
      else none
    | .call i, f :: rest =>
      if f.current.isNone ∧ i < f.toCall.length then some (m.callAt f rest i) else none
    | .wake, f :: rest =>
      match f.current with
      | some (cb, t :: left) => some { m with
          stack := { f with current := some (cb, left) } :: rest
          log := .wake ⟨cb.key, t⟩ :: m.log }
      | _ => none
    | .finish, f :: rest =>
      match f.current with
      | some (cb, []) =>
        match m.env.finish cfg cb with
        | some env => some { m with env := env, stack := { f with current := none } :: rest }
        | none => some { m with fault := some .noCount }
      | _ => none
    | .endEdge, f :: rest =>
      if f.toCall = [] ∧ f.current.isNone then some { m with stack := rest } else none
    | .nextSimTime order ids, [] =>
      (m.env.nextSimTime cfg order ids).map fun env => { m with
        env := env
        fired := []
        log := .arm :: m.log }
    | _, _ => none

/-- A task registers when it has been woken as often as it has registered. -/
def registersOnce (m : Machine) : Act → Bool
  | .register r => decide (((OneShot.registers m.log).map Reg.task).count r.task ≤
      ((OneShot.wakes m.log).map Reg.task).count r.task)
  | _ => true

/-- No callback is called with a matching value for the second time since the last
`cbNextSimTime` callback. -/
def callsOnce (m : Machine) : Act → Bool
  | .call i =>
    match m.stack with
    | f :: _ => (m.matching f i).all fun cb => decide (cb.id ∉ m.fired)
    | [] => true
  | _ => true

/-- The states that the machine reaches from the start by steps that satisfy `ok`. -/
abbrev Reached (cfg : Config) (ok : Machine → Act → Prop) : Machine → Prop :=
  Reach (step cfg) ok init

end Machine

variable {cfg : Config} {m m' : Machine} {a : Act}

/-- The steps of the machine. -/
inductive Rule (cfg : Config) (m : Machine) : Act → Machine → Prop
  | register (r) (hc : m.codeRuns = true) : Rule cfg m (.register r) { m with
      env := m.env.registerEdgeCallback cfg r
      log := .register r :: m.log }
  | edge (handle value) (hc : m.codeRuns = true) : Rule cfg m (.edge handle value) { m with
      stack := ⟨handle, value, m.callbacksOn handle, none⟩ :: m.stack
      log := .fire ⟨handle, value⟩ :: m.log }
  | skip (i f rest id) (hstack : m.stack = f :: rest) (hcurrent : f.current = none)
      (hi : f.toCall[i]? = some id) (hno : m.matching f i = none) :
      Rule cfg m (.call i) { m with
        stack := { f with toCall := f.toCall.eraseIdx i } :: rest }
  | call (i f rest cb) (hstack : m.stack = f :: rest) (hcurrent : f.current = none)
      (hmatch : m.matching f i = some cb) (hi : f.toCall[i]? = some cb.id)
      (hcb : cb ∈ m.env.callbacks) (hdetects : cb.key.edgeType.detects f.value = true) :
      Rule cfg m (.call i) { m with
        stack := { f with
          toCall := f.toCall.eraseIdx i
          current := some (cb, cb.tasks) } :: rest
        fired := cb.id :: m.fired }
  | wake (f rest cb t left) (hstack : m.stack = f :: rest)
      (hcurrent : f.current = some (cb, t :: left)) :
      Rule cfg m .wake { m with
        stack := { f with current := some (cb, left) } :: rest
        log := .wake ⟨cb.key, t⟩ :: m.log }
  | finish (f rest cb env) (hstack : m.stack = f :: rest) (hcurrent : f.current = some (cb, []))
      (henv : m.env.finish cfg cb = some env) :
      Rule cfg m .finish { m with env := env, stack := { f with current := none } :: rest }
  | fail (f rest cb) (hstack : m.stack = f :: rest) (hcurrent : f.current = some (cb, []))
      (henv : m.env.finish cfg cb = none) :
      Rule cfg m .finish { m with fault := some .noCount }
  | endEdge (f rest) (hstack : m.stack = f :: rest) (hcall : f.toCall = [])
      (hcurrent : f.current = none) : Rule cfg m .endEdge { m with stack := rest }
  | nextSimTime (order ids env) (hstack : m.stack = [])
      (henv : m.env.nextSimTime cfg order ids = some env) :
      Rule cfg m (.nextSimTime order ids) { m with
        env := env
        fired := []
        log := .arm :: m.log }

namespace Rule

lemma of_callAt {f : Frame} {rest : List Frame} {i : Nat} (hstack : m.stack = f :: rest)
    (hcurrent : f.current = none) (hi : i < f.toCall.length) :
    Rule cfg m (.call i) (m.callAt f rest i) := by
  have hget : f.toCall[i]? = some f.toCall[i] := List.getElem?_eq_getElem hi
  unfold Machine.callAt
  cases hmatch : m.matching f i with
  | none => exact .skip i f rest _ hstack hcurrent hget hmatch
  | some cb =>
    obtain ⟨hbind, hdetects⟩ := Option.filter_eq_some_iff.mp hmatch
    obtain ⟨id, hid, hfind⟩ := Option.bind_eq_some_iff.mp hbind
    unfold Machine.callback? at hfind
    have heq : cb.id = id := by simpa using List.find?_some hfind
    exact .call i f rest cb hstack hcurrent hmatch (heq ▸ hid)
      (List.mem_of_find?_eq_some hfind) hdetects

theorem of_step (h : m.step cfg a = some m') : m.fault = none ∧ Rule cfg m a m' := by
  unfold Machine.step at h
  by_cases hfault : m.fault.isSome = true
  · rw [if_pos hfault] at h
    cases h
  rw [if_neg hfault] at h
  refine ⟨by simpa using hfault, ?_⟩
  split at h
  · next r =>
    split_ifs at h with hc
    cases h
    exact .register _ hc
  · split_ifs at h with hc
    cases h
    exact .edge _ _ hc
  · next i f rest hstack =>
    split_ifs at h with hok
    cases h
    exact of_callAt hstack (by simpa using hok.1) hok.2
  · next f rest hstack =>
    split at h
    · next cb t left hcurrent =>
      cases h
      exact .wake f rest cb t left hstack hcurrent
    · cases h
  · next f rest hstack =>
    split at h
    · next cb hcurrent =>
      split at h
      · next env henv =>
        cases h
        exact .finish f rest cb env hstack hcurrent henv
      · next henv =>
        cases h
        exact .fail f rest cb hstack hcurrent henv
    · cases h
  · next f rest hstack =>
    split_ifs at h with hok
    cases h
    exact .endEdge f rest hstack hok.1 (by simpa using hok.2)
  · next order ids hstack =>
    obtain ⟨env, henv, rfl⟩ := Option.map_eq_some_iff.mp h
    exact .nextSimTime order ids env hstack henv
  · cases h

end Rule

end Verilua.Edge
