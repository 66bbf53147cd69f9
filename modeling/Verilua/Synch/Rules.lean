import Verilua.Put.Queue

/-!
# The callbacks of a time step

`libverilua_next_sim_time_cb`, `libverilua_flush_put_values` and `rw_synch_callback` without the
features `inertial_put`, `wave_vpi` and `verilator_inner_step_callback`, and the callbacks that the
simulator still has to call. A time step begins with the `cbNextSimTime` callbacks, in any order; it
is over when no `cbReadWriteSynch` callback is left. Between the handlers the resumed tasks write
values and wait.
-/

namespace Verilua.Synch

open TransitionSystem Put

abbrev TaskID := Nat

/-- `RwSynchCbData`; `id` is the call of `await_rw` that it stems from. -/
structure RwSynchCbData where
  id : Nat
  taskId : TaskID
  flushEpoch : UInt64
  deriving DecidableEq, Repr

/-- A `cbNextSimTime` callback. -/
inductive NextSimTimeCb
  /-- `libverilua_next_sim_time_cb` -/
  | driver
  /-- `next_sim_time_callback` -/
  | task (taskId : TaskID)
  deriving DecidableEq, Repr

/-- What the simulator has called. -/
inductive Handler
  /-- `libverilua_flush_put_values` -/
  | flush
  /-- `rw_synch_callback`, before it resumes its task. -/
  | rwSynch (cb : RwSynchCbData)
  /-- A task that has been resumed. -/
  | task
  deriving DecidableEq, Repr

inductive SynchEv
  /-- `vpiml_register_rw_synch_callback` -/
  | awaited (id : Nat)
  /-- `rw_synch_callback` registers itself again. -/
  | deferred (id : Nat)
  /-- `rw_synch_callback` calls `sim_event`. -/
  | resumed (id : Nat)
  /-- A flush commits a value. -/
  | committed
  deriving DecidableEq, Repr

structure Sim where
  put : Put.Machine
  /-- The `cbNextSimTime` callbacks for the next time step. -/
  nextSimTimeCbs : List NextSimTimeCb
  /-- Those of the present one that have not been called. -/
  due : List NextSimTimeCb
  /-- How often `libverilua_flush_put_values` has been called. -/
  flushes : Nat
  /-- The callbacks of `await_rw`. -/
  rwCbs : List RwSynchCbData
  nextId : Nat
  handler : Option Handler
  /-- The first `cbNextSimTime` has come. -/
  begun : Bool
  /-- `libverilua_next_sim_time_cb` has been called in the present time step. -/
  driven : Bool
  /-- A task has asked for a deferred write before that. -/
  early : Bool
  /-- Newest first. -/
  log : List SynchEv

inductive Act
  /-- A deferred or immediate write of a task. -/
  | write (a : Put.Act)
  | awaitRw (taskId : TaskID)
  | awaitNextSim (taskId : TaskID)
  /-- The simulator goes on to the next time. -/
  | nextStep
  | nextSimTime (cb : NextSimTimeCb)
  | flush
  | rwSynch (cb : RwSynchCbData)
  /-- A flush takes one slot of the queue. -/
  | put
  /-- A pass of a flush is over. -/
  | endPass
  /-- The rest of the handler, after its flush. -/
  | finish

namespace Sim

def init (cfg : Config) (signals : ComplexHandleRaw → Signal) : Sim where
  put := .init cfg signals
  nextSimTimeCbs := [.driver]
  due := []
  flushes := 0
  rwCbs := []
  nextId := 0
  handler := none
  begun := false
  driven := false
  early := false
  log := []

/-- The callbacks of `libverilua_register_rw_synch_cb` that have not been called. -/
def flushCbs (s : Sim) : Nat := s.put.env.rwSynchCbs - s.flushes

/-- The outstanding calls of `libverilua_next_sim_time_cb`. -/
def drivers (s : Sim) : Nat := (s.due ++ s.nextSimTimeCbs).count .driver

/-- A task runs: it has been resumed by a handler or by a value change, which comes at any time
between the handlers and where a put of a flush calls back. -/
def codeRuns (s : Sim) : Bool :=
  (s.handler.isNone || s.handler = some .task || s.put.flush.isSome) && s.put.codeRuns

def isWrite : Put.Act → Bool
  | .request .. | .imm .. | .releaseImm .. => true
  | _ => false

def isDeferred : Put.Act → Bool
  | .request .. => true
  | _ => false

def wrote (s : Sim) (a : Put.Act) (put : Put.Machine) : Sim :=
  { s with put, early := s.early || (isDeferred a && !s.driven) }

/-- `do_register_rw_synch_callback` -/
def registerRwSynch (s : Sim) (id : Nat) (taskId : TaskID) : Sim :=
  { s with rwCbs := s.rwCbs ++ [⟨id, taskId, s.put.env.flushEpoch⟩] }

def awaitRw (s : Sim) (taskId : TaskID) : Sim :=
  { s.registerRwSynch s.nextId taskId with
    nextId := s.nextId + 1
    log := .awaited s.nextId :: s.log }

/-- No callback of the present time step is left. -/
def stepOver (s : Sim) : Bool :=
  s.handler.isNone && s.due.isEmpty && decide (s.flushCbs = 0) && s.rwCbs.isEmpty

def nextStep (s : Sim) : Sim :=
  { s with
    due := s.nextSimTimeCbs
    nextSimTimeCbs := []
    begun := true
    driven := false
    early := false }

/-- `libverilua_flush_put_values` behind `apply_pending_put_values`. -/
def flushed (s : Sim) (put : Put.Machine) : Sim :=
  { s with
    put
    handler := none
    nextSimTimeCbs :=
      if s.put.env.rwPhasePassed then s.nextSimTimeCbs else s.nextSimTimeCbs ++ [.driver] }

/-- `rw_synch_callback` behind `apply_pending_put_values`. -/
def settle (s : Sim) (cb : RwSynchCbData) : Sim :=
  if s.put.env.flushEpoch ≠ cb.flushEpoch then
    { s.registerRwSynch cb.id cb.taskId with handler := none, log := .deferred cb.id :: s.log }
  else { s with handler := some .task, log := .resumed cb.id :: s.log }

/-- What the program does next; nothing after a fault. -/
def step? (s : Sim) (a : Act) : Option Sim :=
  match a with
  | .write a => if s.codeRuns && isWrite a then (s.put.step a).map (s.wrote a) else none
  | .awaitRw taskId => if s.codeRuns then some (s.awaitRw taskId) else none
  | .awaitNextSim taskId =>
    if s.codeRuns then some { s with nextSimTimeCbs := s.nextSimTimeCbs ++ [.task taskId] }
    else none
  | .nextStep => if s.stepOver then some s.nextStep else none
  | .nextSimTime cb =>
    if s.handler = none ∧ cb ∈ s.due then
      match cb with
      | .driver => (s.put.step .nextSimTime).map fun put =>
        { s with put, due := s.due.erase cb, driven := true }
      | .task _ => some { s with due := s.due.erase cb, handler := some .task }
    else none
  | .flush =>
    if s.handler = none ∧ s.due = [] ∧ 0 < s.flushCbs then
      (s.put.step .apply).map fun put =>
        { s with put, flushes := s.flushes + 1, handler := some .flush }
    else none
  | .rwSynch cb =>
    if s.handler = none ∧ s.due = [] ∧ cb ∈ s.rwCbs then
      (s.put.step .apply).map fun put =>
        { s with put, rwCbs := s.rwCbs.erase cb, handler := some (.rwSynch cb) }
    else none
  | .put => (s.put.step .put).map fun put => { s with put, log := .committed :: s.log }
  | .endPass => (s.put.step .endPass).map fun put => { s with put }
  | .finish =>
    if s.put.flush.isSome then none
    else
      match s.handler with
      | none => none
      | some .flush => (s.put.step .flushDone).map s.flushed
      | some (.rwSynch cb) => some (s.settle cb)
      | some .task => some { s with handler := none }

def step (s : Sim) (a : Act) : Option Sim := if s.put.fault.isSome then none else s.step? a

/-- The states that are reached from the start by steps that satisfy `ok`. -/
abbrev Reached (cfg : Config) (signals : ComplexHandleRaw → Signal) (ok : Sim → Act → Prop) :
    Sim → Prop :=
  Reach step ok (init cfg signals)

end Sim

/-!
### The steps of the callbacks

What a write does to the flags of the flush, and one rule for each thing that the simulator, a
handler or a task can do.
-/

open TransitionSystem Put

/-! ### Writes -/

/-- What a write leaves, and what it does to the queue and to the flags: an accepted request queues
its handle, and registers a flush callback if the first flush has been and none is registered. -/
structure Wrote (a : Put.Act) (m m' : Put.Machine) : Prop where
  cfg : m'.cfg = m.cfg
  flush : m'.flush = m.flush
  epoch : m'.env.flushEpoch = m.env.flushEpoch
  useBak : m'.env.useHdlPutValueBak = m.env.useHdlPutValueBak
  passed : m'.env.rwPhasePassed = m.env.rwPhasePassed
  bak : (m.cfg.callsBack && m.env.useHdlPutValueBak) = false →
    m.env.hdlPutValueBak.toList = [] → m'.env.hdlPutValueBak.toList = []
  queued : (m'.env.rwCbReRegistered = m.env.rwCbReRegistered ∧
      m'.env.rwSynchCbs = m.env.rwSynchCbs ∧
      (m.env.hdlPutValue.toList = [] → m'.env.hdlPutValue.toList = [])) ∨
    (Sim.isDeferred a = true ∧
      m'.env.rwCbReRegistered = (m.env.rwPhasePassed || m.env.rwCbReRegistered) ∧
      m'.env.rwSynchCbs = m.env.rwSynchCbs +
        if m.env.rwPhasePassed && !m.env.rwCbReRegistered then 1 else 0)

lemma Wrote.of_doPush {a : Put.Act} {m : Put.Machine} {env : Env} {raw : ComplexHandleRaw}
    {log : List Put.Ev} (ha : Sim.isDeferred a = true) (hepoch : env.flushEpoch = m.env.flushEpoch)
    (huse : env.useHdlPutValueBak = m.env.useHdlPutValueBak)
    (hpassed : env.rwPhasePassed = m.env.rwPhasePassed)
    (hre : env.rwCbReRegistered = m.env.rwCbReRegistered)
    (hcbs : env.rwSynchCbs = m.env.rwSynchCbs)
    (hbak : m.env.hdlPutValueBak.toList = [] → env.hdlPutValueBak.toList = []) :
    Wrote a m { m with env := env.doPushHdlPutValue m.cfg raw, log := log } := by
  have hpush : (env.pushEntry m.cfg raw).rwPhasePassed = env.rwPhasePassed ∧
      (env.pushEntry m.cfg raw).rwCbReRegistered = env.rwCbReRegistered ∧
      (env.pushEntry m.cfg raw).rwSynchCbs = env.rwSynchCbs ∧
      (env.pushEntry m.cfg raw).flushEpoch = env.flushEpoch := by
    rw [Env.pushEntry]
    split_ifs <;> exact ⟨rfl, rfl, rfl, rfl⟩
  obtain ⟨hp, hr, hc, he⟩ := hpush
  refine ⟨rfl, rfl, ?_, ?_, ?_, fun hfront hnil => ?_, .inr ⟨ha, ?_, ?_⟩⟩
  · rw [← hepoch, ← he]
    simp only [Env.doPushHdlPutValue]
    split_ifs <;> rfl
  · exact (doPush_useBak _ _ _).trans huse
  · rw [← hpassed, ← hp]
    simp only [Env.doPushHdlPutValue]
    split_ifs <;> rfl
  · rw [← huse] at hfront
    exact (congrArg Vec.toList (doPush_front _ hfront).2).trans (hbak hnil)
  · simp only [Env.doPushHdlPutValue, hp, hr, hpassed, hre]
    cases hpassed' : m.env.rwPhasePassed <;> cases hre' : m.env.rwCbReRegistered <;>
      simp [Env.registerRwSynchCb, hr, hre, hre']
  · simp only [Env.doPushHdlPutValue, hp, hr, hpassed, hre]
    cases hpassed' : m.env.rwPhasePassed <;> cases hre' : m.env.rwCbReRegistered <;>
      simp [Env.registerRwSynchCb, hc, hcbs]

lemma toList_remove_of_nil {α : Type*} {v : Vec α} (h : v.toList = []) (i : Nat) :
    (v.remove i).toList = [] := by
  have hlen : v.len = 0 := by rw [← Vec.length_toList, h, List.length_nil]
  have hout : ¬i < v.len := by omega
  rw [Vec.remove, dif_neg hout]
  exact h

lemma removeEntry_flags (env : Env) (e : Nat ⊕ Nat) :
    ((env.removeEntry e).flushEpoch = env.flushEpoch ∧
      (env.removeEntry e).rwPhasePassed = env.rwPhasePassed ∧
      (env.removeEntry e).rwCbReRegistered = env.rwCbReRegistered ∧
      (env.removeEntry e).rwSynchCbs = env.rwSynchCbs) ∧
    (env.hdlPutValue.toList = [] → (env.removeEntry e).hdlPutValue.toList = []) ∧
      (env.hdlPutValueBak.toList = [] → (env.removeEntry e).hdlPutValueBak.toList = []) := by
  cases e with
  | inl idx => exact ⟨⟨rfl, rfl, rfl, rfl⟩, fun h => toList_remove_of_nil h idx, id⟩
  | inr idx => exact ⟨⟨rfl, rfl, rfl, rfl⟩, id, fun h => toList_remove_of_nil h idx⟩

lemma Wrote.of_releaseImm (m : Put.Machine) (raw : ComplexHandleRaw) (current : Readback) :
    Wrote (.releaseImm raw current) m (m.releaseImm raw current) := by
  simp only [Put.Machine.releaseImm, Env.releaseImm]
  split
  next e he =>
    obtain ⟨⟨hepoch, hpassed, hre, hcbs⟩, hfront, hbak⟩ := removeEntry_flags m.env e
    exact ⟨rfl, rfl, hepoch, removeEntry_useBak m.env e, hpassed, fun _ => hbak,
      .inl ⟨hre, hcbs, hfront⟩⟩
  next => exact ⟨rfl, rfl, rfl, rfl, rfl, fun _ => id, .inl ⟨rfl, rfl, id⟩⟩

lemma Wrote.of_rule {m m' : Put.Machine} {a : Put.Act} (hr : Put.Rule m a m')
    (ha : Sim.isWrite a = true) : Wrote a m m' := by
  cases hr with
  | missing => exact ⟨rfl, rfl, rfl, rfl, rfl, fun _ => id, .inl ⟨rfl, rfl, id⟩⟩
  | refused => exact ⟨rfl, rfl, rfl, rfl, rfl, fun _ => id, .inl ⟨rfl, rfl, id⟩⟩
  | imm => exact ⟨rfl, rfl, rfl, rfl, rfl, fun _ => id, .inl ⟨rfl, rfl, id⟩⟩
  | fresh raw r hc hflag => exact .of_doPush rfl rfl rfl rfl rfl rfl id
  | replaced raw r curr e hc hflag hrefuse he =>
    obtain ⟨⟨hepoch, hpassed, hre, hcbs⟩, -, hbak⟩ := removeEntry_flags (m.env.fill raw r) e
    exact .of_doPush rfl hepoch (removeEntry_useBak _ e) hpassed hre hcbs hbak
  | releaseImm raw current => exact .of_releaseImm m raw current
  | _ => cases ha

/-! ### Passes of a flush -/

/-- `apply_pending_put_values` has nothing to do, or begins a pass. -/
inductive Applied (m : Put.Machine) : Put.Machine → Prop
  | empty (hqueue : m.env.hdlPutValue.toList = []) : Applied m { m with log := .flushed :: m.log }
  | begins (hqueue : m.env.hdlPutValue.toList ≠ []) : Applied m { m with
      env := { m.env with
        flushEpoch := m.env.flushEpoch + 1
        useHdlPutValueBak := m.cfg.callsBack || m.env.useHdlPutValueBak }
      flush := some { next := 0, stop := m.env.hdlPutValue.len } }

lemma Applied.of_rule {m m' : Put.Machine} (hr : Put.Rule m .apply m') :
    m.flush = none ∧ Applied m m' := by
  cases hr with
  | applyEmpty hf he => exact ⟨hf, .empty he⟩
  | apply hf he => exact ⟨hf, .begins he⟩

/-- What a pass leaves of the flags and the queues. -/
structure Passed (m m' : Put.Machine) : Prop where
  cfg : m'.cfg = m.cfg
  epoch : m'.env.flushEpoch = m.env.flushEpoch
  passed : m'.env.rwPhasePassed = m.env.rwPhasePassed
  re : m'.env.rwCbReRegistered = m.env.rwCbReRegistered
  cbs : m'.env.rwSynchCbs = m.env.rwSynchCbs
  inPass : m.flush ≠ none
  /-- The flush goes on, or is over with empty queues. -/
  goes : m'.flush ≠ none ∧ m'.env.useHdlPutValueBak = m.env.useHdlPutValueBak ∧
      (m.env.hdlPutValueBak.toList = [] → m'.env.hdlPutValueBak.toList = []) ∨
    m'.flush = none ∧ m'.env.hdlPutValue.toList = [] ∧
      (m.cfg.callsBack = true → m'.env.hdlPutValueBak.toList = [] ∧
        m'.env.useHdlPutValueBak = false) ∧
      (m.cfg.callsBack = false → m'.env.hdlPutValueBak = m.env.hdlPutValueBak ∧
        m'.env.useHdlPutValueBak = m.env.useHdlPutValueBak)

lemma Passed.of_put {m m' : Put.Machine} (hr : Put.Rule m .put m') : Passed m m' := by
  cases hr with
  | unsupported f raw hf hlt hslot hv =>
    exact ⟨rfl, rfl, rfl, rfl, rfl, by simp [hf], .inl ⟨by simp [hf], rfl, id⟩⟩
  | put f raw value hf hlt hslot hv =>
    exact ⟨rfl, rfl, rfl, rfl, rfl, by simp [hf], .inl ⟨by simp, rfl, id⟩⟩

lemma Passed.of_endPass {m m' : Put.Machine} (hr : Put.Rule m .endPass m') : Passed m m' := by
  cases hr with
  | passDone f hf hle hbak =>
    refine ⟨rfl, rfl, rfl, rfl, rfl, by simp [hf], .inr ⟨rfl, Vec.toList_clear, fun hcb => ?_,
      fun hcb => ?_⟩⟩
    · exact ⟨hbak hcb, by simp [hcb]⟩
    · exact ⟨rfl, by simp [hcb]⟩
  | passAgain f hf hle hcb hbak =>
    exact ⟨rfl, rfl, rfl, rfl, rfl, by simp [hf], .inl ⟨by simp, rfl, fun _ => Vec.toList_clear⟩⟩

/-! ### Steps -/

namespace Sim

/-- `libverilua_next_sim_time_cb` on the flags. -/
def drive (m : Put.Machine) : Put.Machine :=
  { m with
    env := { m.env with rwPhasePassed := false, rwCbReRegistered := false }.registerRwSynchCb }

/-- The flags after the flush. -/
def flushDone (m : Put.Machine) : Put.Machine :=
  { m with env := { m.env with rwPhasePassed := true, rwCbReRegistered := false } }

inductive Rule (s : Sim) : Act → Sim → Prop
  | write (a : Put.Act) (put : Put.Machine) (hrun : s.codeRuns = true)
      (hwrote : Wrote a s.put put) :
      Rule s (.write a) (s.wrote a put)
  | awaitRw (taskId : TaskID) (hrun : s.codeRuns = true) :
      Rule s (.awaitRw taskId) (s.awaitRw taskId)
  | awaitNextSim (taskId : TaskID) (hrun : s.codeRuns = true) :
      Rule s (.awaitNextSim taskId)
        { s with nextSimTimeCbs := s.nextSimTimeCbs ++ [.task taskId] }
  | nextStep (hidle : s.handler = none) (hdue : s.due = []) (hcbs : s.flushCbs = 0)
      (hrw : s.rwCbs = []) : Rule s .nextStep s.nextStep
  | driver (hidle : s.handler = none) (hdue : .driver ∈ s.due) (hflush : s.put.flush = none) :
      Rule s (.nextSimTime .driver)
        { s with put := drive s.put, due := s.due.erase .driver, driven := true }
  | task (taskId : TaskID) (hidle : s.handler = none) (hdue : .task taskId ∈ s.due) :
      Rule s (.nextSimTime (.task taskId))
        { s with due := s.due.erase (.task taskId), handler := some .task }
  | flush (put : Put.Machine) (hidle : s.handler = none) (hdue : s.due = []) (hcbs : 0 < s.flushCbs)
      (hflush : s.put.flush = none) (happlied : Applied s.put put) :
      Rule s .flush { s with put, flushes := s.flushes + 1, handler := some .flush }
  | rwSynch (cb : RwSynchCbData) (put : Put.Machine) (hidle : s.handler = none) (hdue : s.due = [])
      (hcb : cb ∈ s.rwCbs) (hflush : s.put.flush = none) (happlied : Applied s.put put) :
      Rule s (.rwSynch cb)
        { s with put, rwCbs := s.rwCbs.erase cb, handler := some (.rwSynch cb) }
  | put (put : Put.Machine) (hpassed : Passed s.put put) :
      Rule s .put { s with put, log := .committed :: s.log }
  | endPass (put : Put.Machine) (hpassed : Passed s.put put) : Rule s .endPass { s with put }
  | flushed (hflush : s.put.flush = none) (hhandler : s.handler = some .flush) :
      Rule s .finish (s.flushed (flushDone s.put))
  | settle (cb : RwSynchCbData) (hflush : s.put.flush = none)
      (hhandler : s.handler = some (.rwSynch cb)) : Rule s .finish (s.settle cb)
  | taskDone (hflush : s.put.flush = none) (hhandler : s.handler = some .task) :
      Rule s .finish { s with handler := none }

variable {s s' : Sim} {a : Act}

lemma Rule.of_nextSimTime {cb : NextSimTimeCb} (h : s.step? (.nextSimTime cb) = some s') :
    Rule s (.nextSimTime cb) s' := by
  simp only [step?] at h
  split_ifs at h with hidle
  cases cb with
  | driver =>
    obtain ⟨put, hput, rfl⟩ := Option.map_eq_some_iff.mp h
    obtain ⟨-, hrule⟩ := Put.Rule.of_step hput
    cases hrule with
    | nextSimTime hflush => exact .driver hidle.1 hidle.2 hflush
  | task taskId =>
    obtain rfl := Option.some.inj h
    exact .task taskId hidle.1 hidle.2

lemma Rule.of_finish (h : s.step? .finish = some s') : Rule s .finish s' := by
  simp only [step?] at h
  split_ifs at h with hflush
  have hnone : s.put.flush = none := by simpa using hflush
  cases hhandler : s.handler with
  | none => simp [hhandler] at h
  | some handler =>
    cases handler with
    | flush =>
      simp only [hhandler] at h
      obtain ⟨put, hput, rfl⟩ := Option.map_eq_some_iff.mp h
      obtain ⟨-, hrule⟩ := Put.Rule.of_step hput
      cases hrule with
      | flushDone => exact .flushed hnone hhandler
    | rwSynch cb =>
      simp only [hhandler, Option.some.injEq] at h
      exact h ▸ .settle cb hnone hhandler
    | task =>
      simp only [hhandler, Option.some.injEq] at h
      exact h ▸ .taskDone hnone hhandler

lemma Rule.of_step (h : s.step a = some s') : Rule s a s' := by
  rw [step] at h
  split_ifs at h with hfault
  cases a with
  | write a =>
    simp only [step?] at h
    split_ifs at h with hrun
    rw [Bool.and_eq_true] at hrun
    obtain ⟨put, hput, rfl⟩ := Option.map_eq_some_iff.mp h
    exact .write a put hrun.1 (.of_rule (Put.Rule.of_step hput).2 hrun.2)
  | awaitRw taskId =>
    simp only [step?] at h
    split_ifs at h with hrun
    exact Option.some.inj h ▸ .awaitRw taskId hrun
  | awaitNextSim taskId =>
    simp only [step?] at h
    split_ifs at h with hrun
    exact Option.some.inj h ▸ .awaitNextSim taskId hrun
  | nextStep =>
    simp only [step?] at h
    split_ifs at h with hover
    simp only [stepOver, Bool.and_eq_true, Option.isNone_iff_eq_none, List.isEmpty_iff,
      decide_eq_true_eq] at hover
    exact Option.some.inj h ▸ .nextStep hover.1.1.1 hover.1.1.2 hover.1.2 hover.2
  | nextSimTime cb => exact .of_nextSimTime h
  | flush =>
    simp only [step?] at h
    split_ifs at h with hready
    obtain ⟨put, hput, rfl⟩ := Option.map_eq_some_iff.mp h
    obtain ⟨hflush, happlied⟩ := Applied.of_rule (Put.Rule.of_step hput).2
    exact .flush put hready.1 hready.2.1 hready.2.2 hflush happlied
  | rwSynch cb =>
    simp only [step?] at h
    split_ifs at h with hready
    obtain ⟨put, hput, rfl⟩ := Option.map_eq_some_iff.mp h
    obtain ⟨hflush, happlied⟩ := Applied.of_rule (Put.Rule.of_step hput).2
    exact .rwSynch cb put hready.1 hready.2.1 hready.2.2 hflush happlied
  | put =>
    obtain ⟨put, hput, rfl⟩ := Option.map_eq_some_iff.mp h
    exact .put put (.of_put (Put.Rule.of_step hput).2)
  | endPass =>
    obtain ⟨put, hput, rfl⟩ := Option.map_eq_some_iff.mp h
    exact .endPass put (.of_endPass (Put.Rule.of_step hput).2)
  | finish => exact .of_finish h

end Sim

end Verilua.Synch
