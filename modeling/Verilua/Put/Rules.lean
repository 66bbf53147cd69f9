import Mathlib.Tactic.SplitIfs
import Verilua.Lib.TransitionSystem
import Verilua.Put.Setters

/-!
# Flushing the queue

`apply_pending_put_values` as a state machine. A pass of `do_apply_pending_put_values` is a cursor
over the slots of `hdl_put_value`; between two slots the value-change callbacks that
`vpi_put_value` runs may make requests.
-/

namespace Verilua.Put

open TransitionSystem

/-- A pass in progress: the slot that is read next and the slot it ends at. -/
structure Flush where
  next : Nat
  stop : Nat
  deriving DecidableEq, Repr

inductive Fault
  /-- "Duplicate flag, but not found in hdl_put_value/hdl_put_value_bak" -/
  | duplicateFlag
  /-- "Unsupported value format" -/
  | unsupportedFormat
  /-- `unwrap_unchecked` on `None` -/
  | noneFlag
  deriving DecidableEq, Repr

/-- What was requested and handed to `vpi_put_value`, newest first in the log. An accepted request
comes with the value that is then in the buffers of the handle. -/
inductive Ev
  | accepted (raw : ComplexHandleRaw) (flag : PutFlag) (value : Option VpiValue)
  | refused (raw : ComplexHandleRaw)
  | put (raw : ComplexHandleRaw) (flag : Option PutFlag) (value : VpiValue)
  | imm (raw : ComplexHandleRaw) (flag : PutFlag) (value : VpiValue)
  | flushed
  deriving DecidableEq, Repr

structure Machine where
  cfg : Config
  env : Env
  flush : Option Flush
  log : List Ev
  fault : Option Fault

inductive Act
  | request (raw : ComplexHandleRaw) (r : Request)
  | imm (raw : ComplexHandleRaw) (action : Action) (value : Value)
  | releaseImm (raw : ComplexHandleRaw) (current : Readback)
  /-- `apply_pending_put_values` is called. -/
  | apply
  /-- The pass takes one slot. -/
  | put
  /-- The pass is over. -/
  | endPass
  /-- The rest of `libverilua_flush_put_values`. -/
  | flushDone
  /-- `libverilua_next_sim_time_cb`, as far as it concerns the queue. -/
  | nextSimTime

def Machine.init (cfg : Config) (signals : ComplexHandleRaw → Signal) : Machine where
  cfg := cfg
  env := .init signals
  flush := none
  log := []
  fault := none

namespace Machine

/-- Other code runs: outside a flush, or in a callback of the put that was made last. -/
def codeRuns (m : Machine) : Bool :=
  match m.flush with
  | none => true
  | some f => m.cfg.callsBack && decide (0 < f.next)

def request (m : Machine) (raw : ComplexHandleRaw) (r : Request) : Machine :=
  match m.env.request m.cfg raw r with
  | some (true, env) => { m with
      env := env
      log := .accepted raw r.flag (env.handles raw).pendingValue :: m.log }
  | some (false, env) => { m with env := env, log := .refused raw :: m.log }
  | none => { m with fault := some .duplicateFlag }

def imm (m : Machine) (raw : ComplexHandleRaw) (action : Action) (value : Value) : Machine :=
  let (h, v) := value.imm (m.env.handles raw) action
  { m with env := m.env.setHandle raw h, log := .imm raw action.flag v :: m.log }

def releaseImm (m : Machine) (raw : ComplexHandleRaw) (current : Readback) : Machine :=
  let words := List.ofFn fun i : Fin (m.env.handles raw).beatNum => current.vector i
  { m with
    env := m.env.releaseImm m.cfg raw
    log := .imm raw .vpiReleaseFlag (.vector words) :: m.log }

/-- The iterator of `do_apply_pending_put_values` is made. -/
def startPass (m : Machine) : Machine :=
  { m with flush := some { next := 0, stop := m.env.hdlPutValue.len } }

def applyPendingPutValues (m : Machine) : Machine :=
  if m.env.hdlPutValue.isEmpty then { m with log := .flushed :: m.log }
  else startPass { m with env := { m.env with
    flushEpoch := m.env.flushEpoch + 1
    useHdlPutValueBak := m.cfg.callsBack || m.env.useHdlPutValueBak } }

/-- One turn of the loop over the slots. -/
def putSlot (m : Machine) (f : Flush) : Option Machine :=
  (m.env.hdlPutValue.slot f.next).map fun raw =>
    let h := m.env.handles raw
    match h.pendingValue with
    | none => { m with fault := some .unsupportedFormat }
    | some value => { m with
        env := m.env.setHandle raw { h with putValueFlag := none }
        flush := some { f with next := f.next + 1 }
        log := .put raw h.putValueFlag value :: m.log
        fault := if h.putValueFlag.isNone then some .noneFlag else none }

/-- `hdl_put_value` is cleared; what was queued meanwhile is flushed in another pass. -/
def endPass (m : Machine) : Machine :=
  let cleared := { m.env with hdlPutValue := m.env.hdlPutValue.clear }
  if m.cfg.callsBack then
    let env := if cleared.hdlPutValueBak.isEmpty then cleared else { cleared with
      hdlPutValue := cleared.hdlPutValue.append cleared.hdlPutValueBak
      hdlPutValueBak := cleared.hdlPutValueBak.clear }
    if env.hdlPutValue.isEmpty then { m with
      env := { env with useHdlPutValueBak := false }
      flush := none
      log := .flushed :: m.log }
    else startPass { m with env := env }
  else { m with env := cleared, flush := none, log := .flushed :: m.log }

def step (m : Machine) (a : Act) : Option Machine :=
  if m.fault.isSome then none
  else
    match a with
    | .request raw r => if m.codeRuns then some (m.request raw r) else none
    | .imm raw action value => if m.codeRuns then some (m.imm raw action value) else none
    | .releaseImm raw current => if m.codeRuns then some (m.releaseImm raw current) else none
    | .apply => if m.flush.isNone then some m.applyPendingPutValues else none
    | .put =>
      match m.flush with
      | some f => if f.next < f.stop then m.putSlot f else none
      | none => none
    | .endPass =>
      match m.flush with
      | some f => if f.next < f.stop then none else some m.endPass
      | none => none
    | .flushDone =>
      if m.flush.isNone then some { m with env := { m.env with
        rwPhasePassed := true, rwCbReRegistered := false } }
      else none
    | .nextSimTime =>
      if m.flush.isNone then some { m with
        env := { m.env with rwPhasePassed := false, rwCbReRegistered := false }.registerRwSynchCb }
      else none

/-- The states that the machine reaches from the start by steps that satisfy `ok`. -/
abbrev Reached (cfg : Config) (signals : ComplexHandleRaw → Signal) (ok : Machine → Act → Prop) :
    Machine → Prop :=
  Reach step ok (init cfg signals)

end Machine

/-!
### What a step of the queue can do

`Requested` lists the outcomes of a deferred request and `Rule` those of a step; every invariant
is a case analysis on them.
-/

variable {cfg : Config} {env : Env} {raw raw' : ComplexHandleRaw} {r : Request} {m m' : Machine}
  {a : Act}

/-- The handle with an accepted request in its buffers. -/
def Env.fill (env : Env) (raw : ComplexHandleRaw) (r : Request) : Env :=
  env.setHandle raw (r.write { env.handles raw with
    putValueFlag := some r.flag, putValueFormat := r.format })

/-! ### The queues under the operations of `Env` -/

@[simp] lemma setHandle_handles (env : Env) (raw : ComplexHandleRaw) (h : ComplexHandle) :
    (env.setHandle raw h).handles = Function.update env.handles raw h := rfl

@[simp] lemma removeEntry_handles (env : Env) (e : Nat ⊕ Nat) :
    (env.removeEntry e).handles = env.handles := by
  cases e <;> rfl

@[simp] lemma removeEntry_useBak (env : Env) (e : Nat ⊕ Nat) :
    (env.removeEntry e).useHdlPutValueBak = env.useHdlPutValueBak := by
  cases e <;> rfl

lemma removeEntry_setHandle (env : Env) (e : Nat ⊕ Nat) (raw : ComplexHandleRaw)
    (h : ComplexHandle) :
    (env.removeEntry e).setHandle raw h = (env.setHandle raw h).removeEntry e := by
  cases e <;> rfl

@[simp] lemma setHandle_setHandle (env : Env) (raw : ComplexHandleRaw) (h h' : ComplexHandle) :
    (env.setHandle raw h).setHandle raw h' = env.setHandle raw h' := by
  simp [Env.setHandle]

lemma doPush_pushEntry (cfg : Config) (env : Env) (raw : ComplexHandleRaw) :
    (env.doPushHdlPutValue cfg raw).handles = (env.pushEntry cfg raw).handles ∧
      (env.doPushHdlPutValue cfg raw).hdlPutValue = (env.pushEntry cfg raw).hdlPutValue ∧
      (env.doPushHdlPutValue cfg raw).hdlPutValueBak = (env.pushEntry cfg raw).hdlPutValueBak ∧
      (env.doPushHdlPutValue cfg raw).useHdlPutValueBak =
        (env.pushEntry cfg raw).useHdlPutValueBak := by
  simp only [Env.doPushHdlPutValue, Env.registerRwSynchCb]
  split_ifs <;> exact ⟨rfl, rfl, rfl, rfl⟩

@[simp] lemma doPush_handles (cfg : Config) (env : Env) (raw : ComplexHandleRaw) :
    (env.doPushHdlPutValue cfg raw).handles = env.handles := by
  rw [(doPush_pushEntry cfg env raw).1, Env.pushEntry]
  split_ifs <;> rfl

@[simp] lemma doPush_useBak (cfg : Config) (env : Env) (raw : ComplexHandleRaw) :
    (env.doPushHdlPutValue cfg raw).useHdlPutValueBak = env.useHdlPutValueBak := by
  rw [(doPush_pushEntry cfg env raw).2.2.2, Env.pushEntry]
  split_ifs <;> rfl

lemma doPush_front (raw : ComplexHandleRaw) (h : (cfg.callsBack && env.useHdlPutValueBak) = false) :
    (env.doPushHdlPutValue cfg raw).hdlPutValue = env.hdlPutValue.push raw ∧
      (env.doPushHdlPutValue cfg raw).hdlPutValueBak = env.hdlPutValueBak := by
  obtain ⟨-, hfront, hbak, -⟩ := doPush_pushEntry cfg env raw
  rw [hfront, hbak, Env.pushEntry, h]
  exact ⟨rfl, rfl⟩

lemma doPush_bak (raw : ComplexHandleRaw) (h : (cfg.callsBack && env.useHdlPutValueBak) = true) :
    (env.doPushHdlPutValue cfg raw).hdlPutValue = env.hdlPutValue ∧
      (env.doPushHdlPutValue cfg raw).hdlPutValueBak = env.hdlPutValueBak.push raw := by
  obtain ⟨-, hfront, hbak, -⟩ := doPush_pushEntry cfg env raw
  rw [hfront, hbak, Env.pushEntry, h]
  exact ⟨rfl, rfl⟩

lemma staleEntry_setHandle (cfg : Config) (env : Env) (raw : ComplexHandleRaw) (h : ComplexHandle)
    (hvpi : h.vpiHandle = (env.handles raw).vpiHandle) (vpi : VpiHandle) :
    (env.setHandle raw h).staleEntry cfg vpi = env.staleEntry cfg vpi := by
  have hfind : ∀ q, (env.setHandle raw h).find q vpi = env.find q vpi := by
    intro q
    unfold Env.find
    congr 1
    funext raw'
    by_cases heq : raw' = raw
    · subst heq; simp [hvpi]
    · simp [Function.update_of_ne heq]
  unfold Env.staleEntry
  rw [show (env.setHandle raw h).hdlPutValue = env.hdlPutValue from rfl,
    show (env.setHandle raw h).hdlPutValueBak = env.hdlPutValueBak from rfl, hfind, hfind]

/-! ### Requests -/

/-- The outcomes of a deferred request. -/
inductive Requested (cfg : Config) (env : Env) (raw : ComplexHandleRaw) (r : Request) :
    Option (Bool × Env) → Prop
  | refused (curr) (hflag : (env.handles raw).putValueFlag = some curr)
      (hr : Env.refuses curr r.flag = true) : Requested cfg env raw r (some (false, env))
  | fresh (hflag : (env.handles raw).putValueFlag = none) :
      Requested cfg env raw r (some (true, (env.fill raw r).doPushHdlPutValue cfg raw))
  | replaced (curr e) (hflag : (env.handles raw).putValueFlag = some curr)
      (hr : Env.refuses curr r.flag = false)
      (he : env.staleEntry cfg (env.handles raw).vpiHandle = some e) :
      Requested cfg env raw r
        (some (true, ((env.fill raw r).removeEntry e).doPushHdlPutValue cfg raw))
  | missing (curr) (hflag : (env.handles raw).putValueFlag = some curr)
      (hr : Env.refuses curr r.flag = false)
      (he : env.staleEntry cfg (env.handles raw).vpiHandle = none) : Requested cfg env raw r none

theorem Requested.of_request (cfg : Config) (env : Env) (raw : ComplexHandleRaw) (r : Request) :
    Requested cfg env raw r (env.request cfg raw r) := by
  unfold Env.request Env.tryPutValue
  dsimp only
  cases hflag : (env.handles raw).putValueFlag with
  | none =>
    have hfresh : Requested cfg env raw r _ := .fresh hflag
    simpa [Env.fill] using hfresh
  | some curr =>
    have hstale := staleEntry_setHandle cfg env raw { env.handles raw with
      putValueFlag := some r.flag, putValueFormat := r.format } rfl (env.handles raw).vpiHandle
    cases hr : Env.refuses curr r.flag with
    | true =>
      simp only [hr, if_true]
      exact .refused curr hflag hr
    | false =>
      simp only [hr, Bool.false_eq_true, if_false, hstale]
      cases he : env.staleEntry cfg (env.handles raw).vpiHandle with
      | none => exact .missing curr hflag hr he
      | some e =>
        have hreplaced := Requested.replaced curr e hflag hr he
        simpa [Env.fill, removeEntry_setHandle] using hreplaced

@[simp] lemma write_flag (h : ComplexHandle) (r : Request) :
    (r.write h).putValueFlag = h.putValueFlag := by
  cases r with
  | release => rfl
  | set action value => cases value <;> rfl

@[simp] lemma write_format (h : ComplexHandle) (r : Request) :
    (r.write h).putValueFormat = h.putValueFormat := by
  cases r with
  | release => rfl
  | set action value => cases value <;> rfl

lemma Request.format_ne_unset (r : Request) : r.format ≠ .unset := by
  cases r with
  | release => simp [Request.format]
  | set action value =>
    cases value with
    | valueTypedStr t s => cases t <;> simp [Request.format, Value.format, StrType.format]
    | valueStr s =>
      unfold Request.format Value.format parseValueStr
      dsimp only
      split_ifs <;> simp
    | _ => simp [Request.format, Value.format]

lemma pendingValue_isSome {h : ComplexHandle} (hf : h.putValueFormat ≠ .unset) :
    h.pendingValue.isSome = true := by
  unfold ComplexHandle.pendingValue
  cases heq : h.putValueFormat <;> first | rfl | exact absurd heq hf

/-! ### Steps -/

/-- What a step can do, by cases on the source. -/
inductive Rule (m : Machine) : Act → Machine → Prop
  | missing (raw : ComplexHandleRaw) (r : Request) (curr) (hc : m.codeRuns = true)
      (hflag : (m.env.handles raw).putValueFlag = some curr)
      (hr : Env.refuses curr r.flag = false)
      (he : m.env.staleEntry m.cfg (m.env.handles raw).vpiHandle = none) :
      Rule m (.request raw r) { m with fault := some .duplicateFlag }
  | refused (raw : ComplexHandleRaw) (r : Request) (hc : m.codeRuns = true) :
      Rule m (.request raw r) { m with log := .refused raw :: m.log }
  | fresh (raw : ComplexHandleRaw) (r : Request) (hc : m.codeRuns = true)
      (hflag : (m.env.handles raw).putValueFlag = none) :
      Rule m (.request raw r) { m with
        env := (m.env.fill raw r).doPushHdlPutValue m.cfg raw
        log := .accepted raw r.flag ((m.env.fill raw r).handles raw).pendingValue :: m.log }
  | replaced (raw : ComplexHandleRaw) (r : Request) (curr e) (hc : m.codeRuns = true)
      (hflag : (m.env.handles raw).putValueFlag = some curr)
      (hr : Env.refuses curr r.flag = false)
      (he : m.env.staleEntry m.cfg (m.env.handles raw).vpiHandle = some e) :
      Rule m (.request raw r) { m with
        env := ((m.env.fill raw r).removeEntry e).doPushHdlPutValue m.cfg raw
        log := .accepted raw r.flag ((m.env.fill raw r).handles raw).pendingValue :: m.log }
  | imm (raw : ComplexHandleRaw) (action value) (hc : m.codeRuns = true) :
      Rule m (.imm raw action value) (m.imm raw action value)
  | releaseImm (raw : ComplexHandleRaw) (current) (hc : m.codeRuns = true) :
      Rule m (.releaseImm raw current) (m.releaseImm raw current)
  | applyEmpty (hf : m.flush = none) (he : m.env.hdlPutValue.toList = []) :
      Rule m .apply { m with log := .flushed :: m.log }
  | apply (hf : m.flush = none) (he : m.env.hdlPutValue.toList ≠ []) :
      Rule m .apply { m with
        env := { m.env with
          flushEpoch := m.env.flushEpoch + 1
          useHdlPutValueBak := m.cfg.callsBack || m.env.useHdlPutValueBak }
        flush := some { next := 0, stop := m.env.hdlPutValue.len } }
  | unsupported (f) (raw : ComplexHandleRaw) (hf : m.flush = some f) (hlt : f.next < f.stop)
      (hslot : m.env.hdlPutValue.slot f.next = some raw)
      (hv : (m.env.handles raw).pendingValue = none) :
      Rule m .put { m with fault := some .unsupportedFormat }
  | put (f) (raw : ComplexHandleRaw) (value) (hf : m.flush = some f) (hlt : f.next < f.stop)
      (hslot : m.env.hdlPutValue.slot f.next = some raw)
      (hv : (m.env.handles raw).pendingValue = some value) :
      Rule m .put { m with
        env := m.env.setHandle raw { m.env.handles raw with putValueFlag := none }
        flush := some { f with next := f.next + 1 }
        log := .put raw (m.env.handles raw).putValueFlag value :: m.log
        fault := if (m.env.handles raw).putValueFlag.isNone then some .noneFlag else none }
  | passDone (f) (hf : m.flush = some f) (hle : f.stop ≤ f.next)
      (hbak : m.cfg.callsBack = true → m.env.hdlPutValueBak.toList = []) :
      Rule m .endPass { m with
        env := { m.env with
          hdlPutValue := m.env.hdlPutValue.clear
          useHdlPutValueBak := !m.cfg.callsBack && m.env.useHdlPutValueBak }
        flush := none
        log := .flushed :: m.log }
  | passAgain (f) (hf : m.flush = some f) (hle : f.stop ≤ f.next) (hcb : m.cfg.callsBack = true)
      (hbak : m.env.hdlPutValueBak.toList ≠ []) :
      Rule m .endPass { m with
        env := { m.env with
          hdlPutValue := m.env.hdlPutValue.clear.append m.env.hdlPutValueBak
          hdlPutValueBak := m.env.hdlPutValueBak.clear }
        flush := some { next := 0, stop := m.env.hdlPutValueBak.len } }
  | flushDone (hf : m.flush = none) :
      Rule m .flushDone { m with env := { m.env with
        rwPhasePassed := true, rwCbReRegistered := false } }
  | nextSimTime (hf : m.flush = none) :
      Rule m .nextSimTime { m with
        env := { m.env with rwPhasePassed := false, rwCbReRegistered := false }.registerRwSynchCb }

namespace Rule

lemma of_request (hc : m.codeRuns = true) : Rule m (.request raw r) (m.request raw r) := by
  unfold Machine.request
  have hreq := Requested.of_request m.cfg m.env raw r
  revert hreq
  generalize m.env.request m.cfg raw r = res
  rintro (⟨curr, hflag, hr⟩ | hflag | ⟨curr, e, hflag, hr, he⟩ | ⟨curr, hflag, hr, he⟩)
  · exact .refused raw r hc
  · simp only [doPush_handles]
    exact .fresh raw r hc hflag
  · simp only [doPush_handles, removeEntry_handles]
    exact .replaced raw r curr e hc hflag hr he
  · exact .missing raw r curr hc hflag hr he

lemma of_apply (hf : m.flush = none) : Rule m .apply m.applyPendingPutValues := by
  unfold Machine.applyPendingPutValues
  split_ifs with he
  · exact .applyEmpty hf (Vec.isEmpty_iff.mp he)
  · exact .apply hf fun h => he (Vec.isEmpty_iff.mpr h)

lemma of_putSlot {f : Flush} (hf : m.flush = some f) (hlt : f.next < f.stop)
    (h : m.putSlot f = some m') : Rule m .put m' := by
  obtain ⟨raw, hslot, rfl⟩ := Option.map_eq_some_iff.mp h
  dsimp only
  cases hv : (m.env.handles raw).pendingValue with
  | none => exact .unsupported f raw hf hlt hslot hv
  | some value => exact .put f raw value hf hlt hslot hv

lemma of_endPass {f : Flush} (hf : m.flush = some f) (hle : f.stop ≤ f.next) :
    Rule m .endPass m.endPass := by
  have hfront : m.env.hdlPutValue.clear.isEmpty = true := rfl
  unfold Machine.endPass
  cases hcb : m.cfg.callsBack with
  | false =>
    have hdone := Rule.passDone f hf hle (by simp [hcb])
    simpa [hcb] using hdone
  | true =>
    simp only [if_true]
    cases hbak : m.env.hdlPutValueBak.isEmpty with
    | true =>
      have hdone := Rule.passDone f hf hle fun _ => Vec.isEmpty_iff.mp hbak
      simpa [hcb, hfront] using hdone
    | false =>
      have hne : m.env.hdlPutValueBak.toList ≠ [] := fun h => by
        simp [Vec.isEmpty_iff.mpr h] at hbak
      have hagain := Rule.passAgain f hf hle hcb hne
      have hlen : (m.env.hdlPutValue.clear.append m.env.hdlPutValueBak).len =
          m.env.hdlPutValueBak.len := Nat.zero_add _
      have hpos : (m.env.hdlPutValue.clear.append m.env.hdlPutValueBak).isEmpty = false := by
        simpa [Vec.isEmpty, hlen] using hbak
      simpa [Machine.startPass, hpos, hlen] using hagain

theorem of_step (h : m.step a = some m') : m.fault = none ∧ Rule m a m' := by
  unfold Machine.step at h
  by_cases hfault : m.fault.isSome = true
  · rw [if_pos hfault] at h
    cases h
  rw [if_neg hfault] at h
  refine ⟨by simpa using hfault, ?_⟩
  cases a with
  | request raw r =>
    dsimp only at h
    split_ifs at h with hc
    cases h
    exact of_request hc
  | imm raw action value =>
    dsimp only at h
    split_ifs at h with hc
    cases h
    exact .imm raw action value hc
  | releaseImm raw current =>
    dsimp only at h
    split_ifs at h with hc
    cases h
    exact .releaseImm raw current hc
  | apply =>
    dsimp only at h
    split_ifs at h with hf
    cases h
    exact of_apply (by simpa using hf)
  | put =>
    dsimp only at h
    split at h
    · next f hf =>
      split_ifs at h with hlt
      exact of_putSlot hf hlt h
    · cases h
  | endPass =>
    dsimp only at h
    split at h
    · next f hf =>
      split_ifs at h with hlt
      cases h
      exact of_endPass hf (by omega)
    · cases h
  | flushDone =>
    dsimp only at h
    split_ifs at h with hf
    cases h
    exact .flushDone (by simpa using hf)
  | nextSimTime =>
    dsimp only at h
    split_ifs at h with hf
    cases h
    exact .nextSimTime (by simpa using hf)

end Rule

end Verilua.Put
