import Mathlib.Logic.Function.Basic
import Verilua.Lib.Registry
import Verilua.Lib.TransitionSystem

/-!
# `NativeClock`

The clocks of `native_clock.rs`, the registry of the signals they drive, and the callbacks that the
simulator holds for them. A toggle sets the signal and then registers the next callback; between
the two, other code may run.
-/

namespace Verilua.Clock

open TransitionSystem

/-- A `NativeClockHandle`. -/
abbrev ClockID := Nat

/-- `signal_hdl as usize` -/
abbrev Signal := Nat

/-- What `vpi_register_cb` returns. -/
abbrev CbHandle := Nat

structure NativeClock where
  signalHdl : Signal
  periodSteps : UInt64
  highSteps : UInt64
  currentVal : UInt8
  cbHandle : Option CbHandle
  inCallback : Bool
  destroyPending : Bool
  deriving DecidableEq, Repr

/-- `NativeClock::new` -/
def NativeClock.new (signal : Signal) : NativeClock where
  signalHdl := signal
  periodSteps := 0
  highSteps := 0
  currentVal := 0
  cbHandle := none
  inCallback := false
  destroyPending := false

def NativeClock.isRunning (c : NativeClock) : Bool := c.cbHandle.isSome

/-- What `start` returns. -/
inductive Ret
  | success
  | ebusy
  | eexist
  | einval
  | eio
  deriving DecidableEq, Repr

/-- A call of `toggle` that has set the signal and not yet registered its callback. -/
structure Toggle where
  clock : ClockID
  firstCall : Bool
  delay : UInt64
  deriving DecidableEq, Repr

/-- A callback that the simulator holds. -/
structure Callback where
  userData : ClockID
  delay : UInt64
  deriving DecidableEq, Repr

inductive Ev
  /-- `vpiml_set_value` -/
  | set (signal : Signal) (value : UInt8)
  | started (id : ClockID) (ret : Ret)
  deriving DecidableEq, Repr

/-- `useAfterFree` is set when freed memory is used as a clock. -/
structure State where
  clocks : ClockID → Option NativeClock
  nextClock : ClockID
  activeSignals : Finset Signal
  callbacks : CbHandle → Option Callback
  nextCb : CbHandle
  /-- Innermost first. -/
  toggles : List Toggle
  useAfterFree : Bool
  /-- Newest first. -/
  log : List Ev

def State.init : State where
  clocks := fun _ => none
  nextClock := 0
  activeSignals := ∅
  callbacks := fun _ => none
  nextCb := 0
  toggles := []
  useAfterFree := false
  log := []

inductive Act
  | new (signal : Signal)
  | start (id : ClockID) (period high : UInt64) (startHigh : Bool)
  | stop (id : ClockID)
  | destroy (id : ClockID)
  /-- The owner of the clock drops it. -/
  | drop (id : ClockID)
  /-- The simulator calls `native_clock_toggle_callback`. -/
  | fire (cb : CbHandle)
  /-- The rest of the innermost `toggle`, in which `vpi_register_cb` succeeds or not, and of its
  caller. -/
  | register (succeeds : Bool)
  deriving DecidableEq

namespace State

def setClock (st : State) (id : ClockID) (c : NativeClock) : State :=
  { st with clocks := Function.update st.clocks id (some c) }

def new (st : State) (signal : Signal) : State :=
  { st.setClock st.nextClock (.new signal) with nextClock := st.nextClock + 1 }

/-- `vpi_remove_cb` -/
def removeCb (st : State) : Option CbHandle → State
  | some cb => { st with callbacks := Function.update st.callbacks cb none }
  | none => st

/-- `stop` unregisters the signal whether the clock runs or not. -/
def stop (st : State) (id : ClockID) (c : NativeClock) : State :=
  State.removeCb { st.setClock id { c with cbHandle := none } with
    activeSignals := st.activeSignals.erase c.signalHdl } c.cbHandle

/-- `Drop::drop`, and the memory is freed. -/
def free (st : State) (id : ClockID) (c : NativeClock) : State :=
  { st.stop id c with clocks := Function.update st.clocks id none }

/-- `toggle` up to `vpi_register_cb`. -/
def toggle (st : State) (id : ClockID) (c : NativeClock) (firstCall : Bool) : State :=
  let delay := if c.currentVal = 1 then c.highSteps else c.periodSteps - c.highSteps
  { st.setClock id { c with currentVal := c.currentVal ^^^ 1 } with
    toggles := ⟨id, firstCall, delay⟩ :: st.toggles
    log := .set c.signalHdl c.currentVal :: st.log }

def returns (st : State) (id : ClockID) (ret : Ret) : State :=
  { st with log := .started id ret :: st.log }

def start (st : State) (id : ClockID) (c : NativeClock) (period high : UInt64)
    (startHigh : Bool) : State :=
  if c.cbHandle.isSome then st.returns id .ebusy
  else if c.signalHdl ∈ st.activeSignals then st.returns id .eexist
  else if period < 2 ∨ high < 1 ∨ high ≥ period then st.returns id .einval
  else toggle { st with activeSignals := insert c.signalHdl st.activeSignals } id { c with
    periodSteps := period
    highSteps := high
    currentVal := if startHigh then 1 else 0 } true

/-- `vpiml_native_clock_destroy` -/
def destroy (st : State) (id : ClockID) (c : NativeClock) : State :=
  if c.inCallback then st.stop id { c with destroyPending := true } else st.free id c

/-- `native_clock_toggle_callback`, up to where `toggle` has set the signal. -/
def fire (st : State) (cb : CbHandle) (id : ClockID) : State :=
  let st := { st with callbacks := Function.update st.callbacks cb none }
  match st.clocks id with
  | none => { st with useAfterFree := true }
  | some c =>
    let c := { c with cbHandle := none }
    if c.destroyPending then st.free id c else st.toggle id { c with inCallback := true } false

/-- What the caller of `toggle` does when it has returned. -/
def toggled (st : State) (t : Toggle) (c : NativeClock) (ret : Ret) : State :=
  if t.firstCall then (st.setClock t.clock c).returns t.clock ret
  else
    let c := { c with inCallback := false }
    if c.destroyPending then st.free t.clock c else st.setClock t.clock c

/-- The rest of the toggle `t`, the others being `rest`. -/
def register (st : State) (t : Toggle) (rest : List Toggle) (succeeds : Bool) : State :=
  let st := { st with toggles := rest }
  match st.clocks t.clock with
  | none => { st with useAfterFree := true }
  | some c =>
    if succeeds then toggled { st with
      callbacks := Function.update st.callbacks st.nextCb (some ⟨t.clock, t.delay⟩)
      nextCb := st.nextCb + 1 } t { c with cbHandle := some st.nextCb } .success
    else toggled { st with
      activeSignals :=
        if t.firstCall then st.activeSignals.erase c.signalHdl else st.activeSignals } t c .eio

/-- Time does not advance while a toggle is in progress, so no callback runs then; and a clock in
whose toggle the code runs is not dropped by its owner. -/
def step (st : State) (a : Act) : Option State :=
  if st.useAfterFree then none
  else
    match a with
    | .new signal => some (st.new signal)
    | .start id period high startHigh =>
      (st.clocks id).map fun c => st.start id c period high startHigh
    | .stop id => (st.clocks id).map (st.stop id)
    | .destroy id => (st.clocks id).map (st.destroy id)
    | .drop id => if id ∈ st.toggles.map Toggle.clock then none else (st.clocks id).map (st.free id)
    | .fire cb =>
      if st.toggles = [] then (st.callbacks cb).map fun cb' => st.fire cb cb'.userData else none
    | .register succeeds =>
      match st.toggles with
      | [] => none
      | t :: rest => some (st.register t rest succeeds)

/-- The states reached from the start by steps that satisfy `ok`. -/
abbrev Reached (ok : State → Act → Prop) : State → Prop := Reach step ok init

end State

/-!
### A signal is driven by one clock

The registry is keyed by the signal and does not say which clock has entered it, so that `stop`,
`destroy` and `drop` of any clock of the signal take it out. It is exact in runs in which only the
clock that drives the signal does so.
-/

open TransitionSystem

variable {st st' : State} {a : Act} {id : ClockID} {c c' : NativeClock} {s : Signal} {t : Toggle}
  {rest : List Toggle}

/-! ### What is claimed -/

/-- `is_running` of the clock `id`, which drives `s`. -/
def State.drives (st : State) (id : ClockID) (s : Signal) : Prop :=
  ∃ c, st.clocks id = some c ∧ c.signalHdl = s ∧ c.isRunning = true

/-- The action ends the clock `id`. -/
def Act.ends : Act → Option ClockID
  | .stop id | .destroy id | .drop id => some id
  | _ => none

/-- Outside of `toggle` the registry holds the signals with exactly one running clock; no signal has
two running clocks; and ending a clock that does not run leaves every other clock's signal in. -/
structure Exclusive (ok : State → Act → Prop) (st : State) : Prop where
  active_iff : st.toggles = [] → ∀ s, s ∈ st.activeSignals ↔ ∃! id, st.drives id s
  unique : ∀ s id id', st.drives id s → st.drives id' s → id = id'
  ends : ∀ a st' id, a.ends = some id → ok st a → st.step a = some st' →
    (∀ s, ¬ st.drives id s) → ∀ id' s, st.drives id' s → s ∈ st'.activeSignals

/-! ### The condition -/

def State.toggling (st : State) (id : ClockID) : Prop := id ∈ st.toggles.map Toggle.clock

instance (st : State) (id : ClockID) : Decidable (st.toggling id) :=
  inferInstanceAs (Decidable (id ∈ st.toggles.map Toggle.clock))

/-- The clock may be ended: it runs, or its signal is not registered, and it is not ended from its
own `toggle`. -/
def State.mayEnd (st : State) (id : ClockID) : Bool :=
  (st.clocks id).all fun c =>
    decide (¬ st.toggling id) && (c.isRunning || decide (c.signalHdl ∉ st.activeSignals))

/-- Only the clock that drives a signal is ended, except by `destroy` in its own callback; until that
callback is over, no clock is started on its signal; and the callback registers the next one. -/
def State.endsOwn (st : State) : Act → Bool
  | .stop id | .drop id => st.mayEnd id
  | .destroy id => (st.clocks id).any NativeClock.inCallback || st.mayEnd id
  | .start id .. => (st.clocks id).all fun c => st.toggles.all fun t =>
      (st.clocks t.clock).all fun c' => !c'.destroyPending || decide (c'.signalHdl ≠ c.signalHdl)
  | .register succeeds =>
    match st.toggles with
    | [] => true
    | t :: _ => succeeds || t.firstCall || (st.clocks t.clock).all NativeClock.destroyPending
  | _ => true

/-! ### The invariant -/

/-- The clock holds the signal: it runs or is in its `toggle`, and it is not about to be freed. -/
def State.holds (st : State) (id : ClockID) (s : Signal) : Prop :=
  ∃ c, st.clocks id = some c ∧ c.signalHdl = s ∧ c.destroyPending = false ∧
    (c.isRunning = true ∨ st.toggling id)

structure Inv (st : State) : Prop where
  exact : Registry.Exact st.holds st.activeSignals
  toggles : ∀ t ∈ st.toggles, ∃ c, st.clocks t.clock = some c ∧ c.cbHandle = none ∧
    c.inCallback = !t.firstCall
  nodup : (st.toggles.map Toggle.clock).Nodup
  inCallback : ∀ id c, st.clocks id = some c → c.inCallback = true → st.toggling id
  pending : ∀ id c, st.clocks id = some c → c.destroyPending = true →
    c.inCallback = true ∧ c.signalHdl ∉ st.activeSignals
  callbacks : ∀ cb x, st.callbacks cb = some x →
    ∃ c, st.clocks x.userData = some c ∧ c.cbHandle = some cb
  fresh : ∀ id c, st.clocks id = some c → id < st.nextClock

lemma holds_iff (hc : st.clocks id = some c) : st.holds id s ↔
    c.signalHdl = s ∧ c.destroyPending = false ∧ (c.isRunning = true ∨ st.toggling id) := by
  simp [State.holds, hc]

lemma not_holds_of_none (hc : st.clocks id = none) : ¬ st.holds id s := by
  simp [State.holds, hc]

lemma holds_congr (hc : st'.clocks id = st.clocks id) (ht : st'.toggling id ↔ st.toggling id) :
    st'.holds id s ↔ st.holds id s := by
  simp only [State.holds, hc, ht]

lemma holds_signal {s' : Signal} (hc : st.clocks id = some c) (h : st.holds id s') :
    s' = c.signalHdl :=
  ((holds_iff hc).mp h).1.symm

section Stop

variable (st : State) (id : ClockID) (c : NativeClock)

@[simp] lemma stop_clocks : (st.stop id c).clocks =
    Function.update st.clocks id (some { c with cbHandle := none }) := by
  unfold State.stop
  cases c.cbHandle <;> rfl

@[simp] lemma stop_toggles : (st.stop id c).toggles = st.toggles := by
  unfold State.stop
  cases c.cbHandle <;> rfl

@[simp] lemma stop_activeSignals :
    (st.stop id c).activeSignals = st.activeSignals.erase c.signalHdl := by
  unfold State.stop
  cases c.cbHandle <;> rfl

@[simp] lemma stop_nextClock : (st.stop id c).nextClock = st.nextClock := by
  unfold State.stop
  cases c.cbHandle <;> rfl

@[simp] lemma stop_useAfterFree : (st.stop id c).useAfterFree = st.useAfterFree := by
  unfold State.stop
  cases c.cbHandle <;> rfl

lemma stop_callbacks {cb : CbHandle} {x : Callback} (h : (st.stop id c).callbacks cb = some x) :
    st.callbacks cb = some x ∧ c.cbHandle ≠ some cb := by
  unfold State.stop at h
  cases hcb : c.cbHandle with
  | none =>
    rw [hcb] at h
    exact ⟨h, fun hn => nomatch hn⟩
  | some cb' =>
    rw [hcb] at h
    by_cases heq : cb = cb'
    · subst heq
      simp [State.removeCb] at h
    · simp only [State.removeCb, Function.update_of_ne heq] at h
      exact ⟨h, fun hn => heq (Option.some.inj hn).symm⟩

@[simp] lemma free_clocks : (st.free id c).clocks = Function.update st.clocks id none := rfl

@[simp] lemma free_toggles : (st.free id c).toggles = st.toggles := stop_toggles st id c

@[simp] lemma free_activeSignals :
    (st.free id c).activeSignals = st.activeSignals.erase c.signalHdl :=
  stop_activeSignals st id c

@[simp] lemma free_nextClock : (st.free id c).nextClock = st.nextClock := stop_nextClock st id c

@[simp] lemma free_useAfterFree : (st.free id c).useAfterFree = st.useAfterFree :=
  stop_useAfterFree st id c

lemma free_callbacks {cb : CbHandle} {x : Callback} (h : (st.free id c).callbacks cb = some x) :
    st.callbacks cb = some x ∧ c.cbHandle ≠ some cb :=
  stop_callbacks st id c h

end Stop

lemma toggling_congr (h : st'.toggles = st.toggles) : st'.toggling id ↔ st.toggling id := by
  rw [State.toggling, State.toggling, h]

/-- An operation on one clock leaves the others as they are. -/
structure Touches (st st' : State) (id : ClockID) (o : Option NativeClock) : Prop where
  clocks : st'.clocks = Function.update st.clocks id o
  toggling : ∀ id', id' ≠ id → (st'.toggling id' ↔ st.toggling id')
  toggles : ∀ t ∈ st'.toggles, t.clock ≠ id → t ∈ st.toggles
  nodup : (st'.toggles.map Toggle.clock).Nodup
  callbacks : ∀ cb x, st'.callbacks cb = some x → x.userData ≠ id → st.callbacks cb = some x
  nextClock : st.nextClock ≤ st'.nextClock

/-- What the invariant says of one clock. -/
structure Fits (st : State) (id : ClockID) (o : Option NativeClock) : Prop where
  toggles : ∀ t ∈ st.toggles, t.clock = id → ∃ c, o = some c ∧ c.cbHandle = none ∧
    c.inCallback = !t.firstCall
  inCallback : ∀ c, o = some c → c.inCallback = true → st.toggling id
  pending : ∀ c, o = some c → c.destroyPending = true →
    c.inCallback = true ∧ c.signalHdl ∉ st.activeSignals
  callbacks : ∀ cb x, st.callbacks cb = some x → x.userData = id →
    ∃ c, o = some c ∧ c.cbHandle = some cb
  fresh : ∀ c, o = some c → id < st.nextClock

lemma Touches.holds_iff {o : Option NativeClock} (ht : Touches st st' id o) {id' : ClockID}
    (hne : id' ≠ id) : st'.holds id' s ↔ st.holds id' s :=
  holds_congr (by rw [ht.clocks, Function.update_of_ne hne]) (ht.toggling id' hne)

namespace Inv

lemma init : Inv State.init where
  exact := .empty fun _ _ ⟨_, hc, _⟩ => nomatch hc
  toggles := fun _ ht => nomatch ht
  nodup := List.nodup_nil
  inCallback := fun _ _ hc => nomatch hc
  pending := fun _ _ hc => nomatch hc
  callbacks := fun _ _ hcb => nomatch hcb
  fresh := fun _ _ hc => nomatch hc

theorem of_touches {o : Option NativeClock} (h : Inv st) (ht : Touches st st' id o)
    (hfits : Fits st' id o) (hexact : Registry.Exact st'.holds st'.activeSignals)
    (hpending : ∀ id' c, id' ≠ id → st.clocks id' = some c → c.destroyPending = true →
      c.signalHdl ∉ st'.activeSignals) : Inv st' := by
  have hid : st'.clocks id = o := by rw [ht.clocks, Function.update_self]
  have hother : ∀ {id'}, id' ≠ id → st'.clocks id' = st.clocks id' := fun hne => by
    rw [ht.clocks, Function.update_of_ne hne]
  refine ⟨hexact, fun t hmem => ?_, ht.nodup, fun id' c hc hin => ?_, fun id' c hc hp => ?_,
    fun cb x hcb => ?_, fun id' c hc => ?_⟩
  · by_cases heq : t.clock = id
    · rw [heq, hid]
      exact hfits.toggles t hmem heq
    · rw [hother heq]
      exact h.toggles t (ht.toggles t hmem heq)
  · by_cases heq : id' = id
    · subst heq
      exact hfits.inCallback c (hid.symm.trans hc) hin
    · exact (ht.toggling id' heq).mpr (h.inCallback id' c (hother heq ▸ hc) hin)
  · by_cases heq : id' = id
    · subst heq
      exact hfits.pending c (hid.symm.trans hc) hp
    · have hc := hother heq ▸ hc
      exact ⟨(h.pending id' c hc hp).1, hpending id' c heq hc hp⟩
  · by_cases heq : x.userData = id
    · rw [heq, hid]
      exact hfits.callbacks cb x hcb heq
    · rw [hother heq]
      exact h.callbacks cb x (ht.callbacks cb x hcb heq)
  · by_cases heq : id' = id
    · subst heq
      exact hfits.fresh c (hid.symm.trans hc)
    · exact (h.fresh id' c (hother heq ▸ hc)).trans_le ht.nextClock

lemma toggling_clock (h : Inv st) (ht : st.toggling id) : ∃ c t, st.clocks id = some c ∧
    t ∈ st.toggles ∧ t.clock = id ∧ c.cbHandle = none ∧ c.inCallback = !t.firstCall := by
  obtain ⟨t, hmem, rfl⟩ := List.mem_map.mp ht
  obtain ⟨c, hc, hcb, hin⟩ := h.toggles t hmem
  exact ⟨c, t, hc, hmem, rfl, hcb, hin⟩

lemma new (h : Inv st) (signal : Signal) : Inv (st.new signal) := by
  have hnone : st.clocks st.nextClock = none := by
    cases hc : st.clocks st.nextClock with
    | none => rfl
    | some c => exact absurd (h.fresh _ _ hc) (lt_irrefl _)
  have hidle : ¬ st.toggling st.nextClock := fun ht => by
    obtain ⟨c, -, hc, -⟩ := h.toggling_clock ht
    simp [hnone] at hc
  have ht : Touches st (st.new signal) st.nextClock (some (.new signal)) :=
    ⟨rfl, fun _ _ => Iff.rfl, fun _ hmem _ => hmem, h.nodup, fun _ _ hcb _ => hcb, Nat.le_succ _⟩
  refine h.of_touches ht ⟨fun t hmem heq => ?_, fun c hc hin => ?_, fun c hc hp => ?_,
    fun cb x hcb heq => ?_, fun c hc => Nat.lt_succ_self _⟩ (h.exact.congr fun id s => ?_)
    fun id c _ hc hp => (h.pending id c hc hp).2
  · exact absurd (List.mem_map.mpr ⟨t, hmem, heq⟩) hidle
  · cases hc
    cases hin
  · cases hc
    cases hp
  · obtain ⟨c, hc, -⟩ := h.callbacks cb x hcb
    simp [heq, hnone] at hc
  · by_cases heq : id = st.nextClock
    · subst heq
      refine iff_of_false (fun hh => ?_) (not_holds_of_none hnone)
      rcases ((holds_iff (Function.update_self ..)).mp hh).2.2 with hrun | htog
      · cases hrun
      · exact hidle htog
    · exact ht.holds_iff heq

lemma owned (h : Inv st) (hc : st.clocks id = some c)
    (hown : c.isRunning = true ∨ c.signalHdl ∉ st.activeSignals) :
    st.holds id c.signalHdl ∨ c.signalHdl ∉ st.activeSignals := by
  by_cases hp : c.destroyPending = true
  · exact .inr (h.pending id c hc hp).2
  · exact hown.imp_left fun hrun => (Clock.holds_iff hc).mpr ⟨rfl, by simpa using hp, .inl hrun⟩

lemma stop (h : Inv st) (hc : st.clocks id = some c) (hsig : c'.signalHdl = c.signalHdl)
    (hcb : c'.cbHandle = c.cbHandle) (hin : c'.inCallback = c.inCallback)
    (hpend : c'.destroyPending = true → c.inCallback = true)
    (hown : st.holds id c.signalHdl ∨ c.signalHdl ∉ st.activeSignals)
    (hend : c'.destroyPending = true ∨ ¬ st.toggling id) : Inv (st.stop id c') := by
  have hid : (st.stop id c').clocks id = some { c' with cbHandle := none } := by simp
  have htog : ∀ id', (st.stop id c').toggling id' ↔ st.toggling id' :=
    fun _ => toggling_congr (stop_toggles st id c')
  have ht : Touches st (st.stop id c') id (some { c' with cbHandle := none }) :=
    ⟨stop_clocks st id c', fun id' _ => htog id', fun t hmem _ => stop_toggles st id c' ▸ hmem,
      by simpa using h.nodup, fun cb x hx _ => (stop_callbacks st id c' hx).1, by simp⟩
  refine h.of_touches ht ⟨fun t hmem heq => ?_, fun c₁ hc₁ hin₁ => ?_, fun c₁ hc₁ hp => ?_,
    fun cb x hx heq => ?_, fun c₁ _ => ?_⟩ ?_ fun id' c₁ hne hc₁ hp => ?_
  · obtain ⟨c₀, hc₀, -, hin₀⟩ := h.toggles t (stop_toggles st id c' ▸ hmem)
    rw [heq, hc] at hc₀
    cases hc₀
    exact ⟨_, rfl, rfl, hin.trans hin₀⟩
  · cases hc₁
    exact (htog id).mpr (h.inCallback id c hc (hin ▸ hin₁))
  · cases hc₁
    exact ⟨hin.trans (hpend hp), by simp⟩
  · obtain ⟨hx, hne⟩ := stop_callbacks st id c' hx
    obtain ⟨c₀, hc₀, hcb₀⟩ := h.callbacks cb x hx
    rw [heq, hc] at hc₀
    cases hc₀
    exact absurd (hcb.trans hcb₀) hne
  · rw [stop_nextClock]
    exact h.fresh id c hc
  · rw [stop_activeSignals, hsig]
    refine h.exact.release hown (fun s' hs' => holds_signal hc hs') (fun s' hs' => ?_)
      fun j s' hne => ht.holds_iff hne
    obtain ⟨-, hp, hrun | htog'⟩ := (Clock.holds_iff hid).mp hs'
    · cases hrun
    · rcases hend with hend | hend
      · exact absurd hend (by simpa using hp)
      · exact hend ((htog id).mp htog')
  · rw [stop_activeSignals]
    exact fun hmem => (h.pending id' c₁ hc₁ hp).2 (Finset.mem_of_mem_erase hmem)

lemma free (h : Inv st) (hc : st.clocks id = some c) (hsig : c'.signalHdl = c.signalHdl)
    (hcb : c'.cbHandle = c.cbHandle) (hidle : ¬ st.toggling id)
    (hown : st.holds id c.signalHdl ∨ c.signalHdl ∉ st.activeSignals) : Inv (st.free id c') := by
  have ht : Touches st (st.free id c') id none :=
    ⟨free_clocks st id c', fun id' _ => toggling_congr (free_toggles st id c'),
      fun t hmem _ => free_toggles st id c' ▸ hmem, by simpa using h.nodup,
      fun cb x hx _ => (free_callbacks st id c' hx).1, by simp⟩
  refine h.of_touches ht ⟨fun t hmem heq => ?_, fun _ hc₁ => (nomatch hc₁), fun _ hc₁ => (nomatch hc₁),
    fun cb x hx heq => ?_, fun _ hc₁ => nomatch hc₁⟩ ?_ fun id' c₁ hne hc₁ hp => ?_
  · exact absurd (List.mem_map.mpr ⟨t, free_toggles st id c' ▸ hmem, heq⟩) hidle
  · obtain ⟨hx, hne⟩ := free_callbacks st id c' hx
    obtain ⟨c₀, hc₀, hcb₀⟩ := h.callbacks cb x hx
    rw [heq, hc] at hc₀
    cases hc₀
    exact absurd (hcb.trans hcb₀) hne
  · rw [free_activeSignals, hsig]
    exact h.exact.release hown (fun s' hs' => holds_signal hc hs')
      (fun s' => not_holds_of_none (by simp)) fun j s' hne => ht.holds_iff hne
  · rw [free_activeSignals]
    exact fun hmem => (h.pending id' c₁ hc₁ hp).2 (Finset.mem_of_mem_erase hmem)

/-! ### Toggles -/

lemma start (h : Inv st) (hc : st.clocks id = some c) (hsig : c'.signalHdl = c.signalHdl)
    (hcb : c.cbHandle = none) (hcb' : c'.cbHandle = none) (hin : c'.inCallback = c.inCallback)
    (hpend : c'.destroyPending = c.destroyPending) (hfree : c.signalHdl ∉ st.activeSignals)
    (hok : ∀ id' c₁, st.clocks id' = some c₁ → c₁.destroyPending = true →
      c₁.signalHdl ≠ c.signalHdl) :
    Inv (State.toggle { st with activeSignals := insert c.signalHdl st.activeSignals } id c'
      true) := by
  have hp : c.destroyPending = false := by
    by_contra hp
    exact hok id c hc (by simpa using hp) rfl
  have hidle : ¬ st.toggling id := fun htog =>
    hfree ((h.exact.mem_iff _).mpr ⟨id, (Clock.holds_iff hc).mpr ⟨rfl, hp, .inr htog⟩⟩)
  have hin₀ : c.inCallback = false := by
    by_contra hin₀
    exact hidle (h.inCallback id c hc (by simpa using hin₀))
  set st' := State.toggle { st with activeSignals := insert c.signalHdl st.activeSignals } id c'
    true with hst'
  have hid : st'.clocks id = some { c' with currentVal := c'.currentVal ^^^ 1 } :=
    Function.update_self ..
  have htog : ∀ id', st'.toggling id' ↔ id' = id ∨ st.toggling id' := fun _ => List.mem_cons
  have ht : Touches st st' id (some { c' with currentVal := c'.currentVal ^^^ 1 }) := by
    refine ⟨rfl, fun id' hne => by simp [htog, hne], fun t hmem hne => ?_,
      List.nodup_cons.mpr ⟨hidle, h.nodup⟩, fun cb x hx _ => hx, le_rfl⟩
    rcases List.mem_cons.mp hmem with rfl | hmem
    · exact absurd rfl hne
    · exact hmem
  refine h.of_touches ht ⟨fun t hmem heq => ?_, fun c₁ hc₁ hin₁ => ?_, fun c₁ hc₁ hp₁ => ?_,
    fun cb x hx heq => ?_, fun c₁ _ => h.fresh id c hc⟩ ?_ fun id' c₁ hne hc₁ hp₁ => ?_
  · rcases List.mem_cons.mp hmem with rfl | hmem
    · exact ⟨_, rfl, hcb', hin.trans hin₀⟩
    · exact absurd (List.mem_map.mpr ⟨t, hmem, heq⟩) hidle
  · cases hc₁
    simp [hin, hin₀] at hin₁
  · cases hc₁
    simp [hpend, hp] at hp₁
  · obtain ⟨c₀, hc₀, hcb₀⟩ := h.callbacks cb x hx
    rw [heq, hc] at hc₀
    cases hc₀
    simp [hcb] at hcb₀
  · refine h.exact.acquire hfree (i := id) fun j s' => ?_
    by_cases hj : j = id
    · subst hj
      rw [Clock.holds_iff hid, Clock.holds_iff hc]
      simp [htog, hsig, hpend, hp, hidle, NativeClock.isRunning, hcb, hcb', eq_comm]
    · rw [ht.holds_iff hj]
      simp [hj]
  · have hne' := hok id' c₁ hc₁ hp₁
    exact fun hmem => (Finset.mem_insert.mp hmem).elim hne' (h.pending id' c₁ hc₁ hp₁).2

lemma fire {cb : CbHandle} {x : Callback} (h : Inv st) (hidle : st.toggles = [])
    (hx : st.callbacks cb = some x) (hf : st.useAfterFree = false) :
    Inv (st.fire cb x.userData) ∧ (st.fire cb x.userData).useAfterFree = false := by
  obtain ⟨c, hc, hcb⟩ := h.callbacks cb x hx
  have hno : ∀ id, ¬ st.toggling id := fun id htog => by simp [State.toggling, hidle] at htog
  have hp : c.destroyPending = false := by
    by_contra hp
    exact hno _ (h.inCallback _ c hc (h.pending _ c hc (by simpa using hp)).1)
  have heq : st.fire cb x.userData =
      State.toggle { st with callbacks := Function.update st.callbacks cb none } x.userData
        { c with cbHandle := none, inCallback := true } false := by
    simp [State.fire, hc, hp]
  rw [heq]
  refine ⟨?_, hf⟩
  set st' := State.toggle { st with callbacks := Function.update st.callbacks cb none } x.userData
    { c with cbHandle := none, inCallback := true } false with hst'
  have hid : st'.clocks x.userData =
      some { c with cbHandle := none, inCallback := true, currentVal := c.currentVal ^^^ 1 } :=
    Function.update_self ..
  have htog : ∀ id', st'.toggling id' ↔ id' = x.userData := fun id' => by
    simp [State.toggling, hst', State.toggle, State.setClock, hidle]
  have hcbs : ∀ cb' x', st'.callbacks cb' = some x' → cb' ≠ cb ∧ st.callbacks cb' = some x' := by
    intro cb' x' hx'
    by_cases hcb' : cb' = cb
    · subst hcb'
      simp [hst', State.toggle, State.setClock] at hx'
    · simp only [hst', State.toggle, State.setClock, Function.update_of_ne hcb'] at hx'
      exact ⟨hcb', hx'⟩
  have ht : Touches st st' x.userData
      (some { c with cbHandle := none, inCallback := true, currentVal := c.currentVal ^^^ 1 }) := by
    refine ⟨rfl, fun id' hne => ?_, fun t hmem hne => ?_, ?_, fun cb' x' hx' _ => (hcbs _ _ hx').2,
      le_rfl⟩
    · exact iff_of_false (fun ht => hne ((htog id').mp ht)) (hno id')
    · simp only [hst', State.toggle, State.setClock, hidle, List.mem_singleton] at hmem
      simp [hmem] at hne
    · simp [hst', State.toggle, State.setClock, hidle]
  refine h.of_touches ht ⟨fun t hmem heq => ?_, fun c₁ _ _ => (htog _).mpr rfl, fun c₁ hc₁ hp₁ => ?_,
    fun cb' x' hx' heq => ?_, fun c₁ _ => h.fresh _ c hc⟩ ?_ fun id' c₁ hne hc₁ hp₁ => ?_
  · simp only [hst', State.toggle, State.setClock, hidle, List.mem_singleton] at hmem
    subst hmem
    exact ⟨_, rfl, rfl, rfl⟩
  · cases hc₁
    simp [hp] at hp₁
  · obtain ⟨hne, hx'⟩ := hcbs _ _ hx'
    obtain ⟨c₀, hc₀, hcb₀⟩ := h.callbacks cb' x' hx'
    rw [heq, hc] at hc₀
    cases hc₀
    exact absurd (Option.some.inj (hcb₀.symm.trans hcb)) hne
  · refine h.exact.congr fun j s' => ?_
    by_cases hj : j = x.userData
    · subst hj
      rw [Clock.holds_iff hid, Clock.holds_iff hc]
      simp [htog, hno, NativeClock.isRunning, hcb]
    · exact ht.holds_iff hj
  · exact absurd (h.inCallback id' c₁ hc₁ (h.pending id' c₁ hc₁ hp₁).1) (hno id')

lemma touches_pop (h : Inv st) (hs : st.toggles = t :: rest) {o : Option NativeClock}
    (hclocks : st'.clocks = Function.update st.clocks t.clock o) (htoggles : st'.toggles = rest)
    (hcb : ∀ cb x, st'.callbacks cb = some x → x.userData ≠ t.clock → st.callbacks cb = some x)
    (hnext : st'.nextClock = st.nextClock) :
    Touches st st' t.clock o ∧ ¬ st'.toggling t.clock := by
  have hnodup := h.nodup
  rw [hs, List.map_cons, List.nodup_cons] at hnodup
  refine ⟨⟨hclocks, fun id' hne => ?_, fun t' hmem _ => ?_, by rw [htoggles]; exact hnodup.2, hcb,
    hnext.ge⟩, ?_⟩
  · simp only [State.toggling, htoggles, hs, List.map_cons, List.mem_cons, hne, false_or]
  · rw [hs]
    exact List.mem_cons_of_mem t (htoggles ▸ hmem)
  · rw [State.toggling, htoggles]
    exact hnodup.1

lemma pop (c' : NativeClock) (h : Inv st) (hs : st.toggles = t :: rest) (hc : st.clocks t.clock = some c)
    (hsig : c'.signalHdl = c.signalHdl) (hin : c'.inCallback = false)
    (hp : c.destroyPending = false) (hp' : c'.destroyPending = false)
    (hclocks : st'.clocks = Function.update st.clocks t.clock (some c'))
    (htoggles : st'.toggles = rest)
    (hcb : ∀ cb x, st'.callbacks cb = some x → st.callbacks cb = some x ∨
      x.userData = t.clock ∧ c'.cbHandle = some cb)
    (hnext : st'.nextClock = st.nextClock)
    (hactive : st'.activeSignals =
      if c'.isRunning then st.activeSignals else st.activeSignals.erase c.signalHdl) : Inv st' := by
  obtain ⟨c₀, hc₀, hnone, -⟩ := h.toggles t (hs ▸ List.mem_cons_self)
  rw [hc] at hc₀
  cases hc₀
  have hcbs : ∀ cb x, st'.callbacks cb = some x → x.userData ≠ t.clock → st.callbacks cb = some x :=
    fun cb x hx hne => (hcb cb x hx).resolve_right fun heq => hne heq.1
  obtain ⟨ht, hidle⟩ := h.touches_pop hs hclocks htoggles hcbs hnext
  have hid : st'.clocks t.clock = some c' := by rw [hclocks, Function.update_self]
  have htog : st.toggling t.clock := List.mem_map.mpr ⟨t, hs ▸ List.mem_cons_self, rfl⟩
  refine h.of_touches ht ⟨fun t' hmem heq => ?_, fun c₁ hc₁ hin₁ => ?_, fun c₁ hc₁ hp₁ => ?_,
    fun cb x hx heq => ?_, fun c₁ _ => ?_⟩ ?_ fun id' c₁ hne hc₁ hp₁ hmem => ?_
  · exact absurd (List.mem_map.mpr ⟨t', hmem, heq⟩) hidle
  · cases hc₁
    simp [hin] at hin₁
  · cases hc₁
    simp [hp'] at hp₁
  · rcases hcb cb x hx with hx | ⟨-, hx⟩
    · obtain ⟨c₁, hc₁, hcb₁⟩ := h.callbacks cb x hx
      rw [heq, hc] at hc₁
      cases hc₁
      simp [hnone] at hcb₁
    · exact ⟨c', rfl, hx⟩
  · rw [hnext]
    exact h.fresh _ c hc
  · rw [hactive]
    have hold : st.holds t.clock c.signalHdl := (Clock.holds_iff hc).mpr ⟨rfl, hp, .inr htog⟩
    split_ifs with hrun
    · refine h.exact.congr fun j s' => ?_
      by_cases hj : j = t.clock
      · subst hj
        rw [Clock.holds_iff hid, Clock.holds_iff hc]
        simp [hsig, hp, hp', hrun, htog]
      · exact ht.holds_iff hj
    · refine h.exact.release (.inl hold) (fun s' hs' => holds_signal hc hs') (fun s' hs' => ?_)
        fun j s' hne => ht.holds_iff hne
      exact ((Clock.holds_iff hid).mp hs').2.2.elim hrun hidle
  · rw [hactive] at hmem
    split_ifs at hmem
    · exact (h.pending id' c₁ hc₁ hp₁).2 hmem
    · exact (h.pending id' c₁ hc₁ hp₁).2 (Finset.mem_of_mem_erase hmem)

lemma popFree (h : Inv st) (hs : st.toggles = t :: rest) (hc : st.clocks t.clock = some c)
    (hp : c.destroyPending = true) (hclocks : st'.clocks = Function.update st.clocks t.clock none)
    (htoggles : st'.toggles = rest)
    (hcb : ∀ cb x, st'.callbacks cb = some x → st.callbacks cb = some x)
    (hnext : st'.nextClock = st.nextClock)
    (hactive : st'.activeSignals = st.activeSignals.erase c.signalHdl) : Inv st' := by
  obtain ⟨ht, hidle⟩ := h.touches_pop hs hclocks htoggles (fun cb x hx _ => hcb cb x hx) hnext
  obtain ⟨c₀, hc₀, hnone, -⟩ := h.toggles t (hs ▸ List.mem_cons_self)
  have hfree := (h.pending _ c hc hp).2
  rw [hc] at hc₀
  cases hc₀
  refine h.of_touches ht ⟨fun t' hmem heq => ?_, fun _ hc₁ => (nomatch hc₁),
    fun _ hc₁ => (nomatch hc₁), fun cb x hx heq => ?_, fun _ hc₁ => nomatch hc₁⟩ ?_
    fun id' c₁ hne hc₁ hp₁ hmem => ?_
  · exact absurd (List.mem_map.mpr ⟨t', hmem, heq⟩) hidle
  · obtain ⟨c₁, hc₁, hcb₁⟩ := h.callbacks cb x (hcb cb x hx)
    rw [heq, hc] at hc₁
    cases hc₁
    simp [hnone] at hcb₁
  · rw [hactive]
    refine h.exact.release (.inr hfree) (fun s' hs' => holds_signal hc hs')
      (fun s' => not_holds_of_none (by rw [hclocks, Function.update_self]))
      fun j s' hne => ht.holds_iff hne
  · rw [hactive] at hmem
    exact (h.pending id' c₁ hc₁ hp₁).2 (Finset.mem_of_mem_erase hmem)

lemma registered_callbacks {cb : CbHandle} {x : Callback}
    (hx : Function.update st.callbacks st.nextCb (some ⟨t.clock, t.delay⟩) cb = some x) :
    st.callbacks cb = some x ∨ x.userData = t.clock ∧ some st.nextCb = some cb := by
  by_cases heq : cb = st.nextCb
  · subst heq
    rw [Function.update_self] at hx
    exact .inr ⟨congrArg Callback.userData (Option.some.inj hx).symm, rfl⟩
  · exact .inl (by rwa [Function.update_of_ne heq] at hx)

lemma register_first {succeeds : Bool} (h : Inv st) (hs : st.toggles = t :: rest)
    (hfirst : t.firstCall = true) : Inv (st.register t rest succeeds) ∧
      (st.register t rest succeeds).useAfterFree = st.useAfterFree := by
  obtain ⟨c, hc, hnone, hin⟩ := h.toggles t (hs ▸ List.mem_cons_self)
  rw [hfirst, Bool.not_true] at hin
  have hp : c.destroyPending = false := by
    by_contra hp
    simp [(h.pending _ c hc (by simpa using hp)).1] at hin
  cases succeeds with
  | true =>
    have heq : st.register t rest true = { st with
        clocks := Function.update st.clocks t.clock (some { c with cbHandle := some st.nextCb })
        toggles := rest
        callbacks := Function.update st.callbacks st.nextCb (some ⟨t.clock, t.delay⟩)
        nextCb := st.nextCb + 1
        log := .started t.clock .success :: st.log } := by
      simp [State.register, State.toggled, State.returns, State.setClock, hc, hfirst]
    rw [heq]
    exact ⟨h.pop { c with cbHandle := some st.nextCb } hs hc rfl hin hp hp rfl rfl
      (fun _ _ hx => registered_callbacks hx) rfl rfl, rfl⟩
  | false =>
    have heq : st.register t rest false = { st with
        clocks := Function.update st.clocks t.clock (some c)
        toggles := rest
        activeSignals := st.activeSignals.erase c.signalHdl
        log := .started t.clock .eio :: st.log } := by
      simp [State.register, State.toggled, State.returns, State.setClock, hc, hfirst]
    rw [heq]
    exact ⟨h.pop c hs hc rfl hin hp hp rfl rfl (fun _ _ hx => .inl hx) rfl
      (by simp [NativeClock.isRunning, hnone]), rfl⟩

lemma register_callback {succeeds : Bool} (h : Inv st) (hs : st.toggles = t :: rest)
    (hfirst : t.firstCall = false) (hc : st.clocks t.clock = some c)
    (hok : succeeds = true ∨ c.destroyPending = true) : Inv (st.register t rest succeeds) ∧
      (st.register t rest succeeds).useAfterFree = st.useAfterFree := by
  cases hp : c.destroyPending with
  | false =>
    have hsuc : succeeds = true := hok.resolve_right (by simp [hp])
    have heq : st.register t rest true = { st with
        clocks := Function.update st.clocks t.clock
          (some { c with cbHandle := some st.nextCb, inCallback := false })
        toggles := rest
        callbacks := Function.update st.callbacks st.nextCb (some ⟨t.clock, t.delay⟩)
        nextCb := st.nextCb + 1 } := by
      simp [State.register, State.toggled, State.setClock, hc, hfirst, hp]
    rw [hsuc, heq]
    exact ⟨h.pop { c with cbHandle := some st.nextCb, inCallback := false } hs hc rfl rfl
      hp hp rfl rfl (fun _ _ hx => registered_callbacks hx) rfl rfl, rfl⟩
  | true =>
    cases succeeds with
    | true =>
      have heq : st.register t rest true = State.free { st with
          toggles := rest
          callbacks := Function.update st.callbacks st.nextCb (some ⟨t.clock, t.delay⟩)
          nextCb := st.nextCb + 1 } t.clock
            { c with cbHandle := some st.nextCb, inCallback := false } := by
        simp [State.register, State.toggled, hc, hfirst, hp]
      rw [heq]
      refine ⟨h.popFree hs hc hp (free_clocks ..) (free_toggles ..) (fun cb x hx => ?_)
        (free_nextClock ..) (free_activeSignals ..), free_useAfterFree ..⟩
      obtain ⟨hx, hne⟩ := free_callbacks _ _ _ hx
      exact (registered_callbacks hx).resolve_right fun hcb => hne hcb.2
    | false =>
      have heq : st.register t rest false =
          State.free { st with toggles := rest } t.clock { c with inCallback := false } := by
        simp [State.register, State.toggled, hc, hfirst, hp]
      rw [heq]
      exact ⟨h.popFree hs hc hp (free_clocks ..) (free_toggles ..)
        (fun cb x hx => (free_callbacks _ _ _ hx).1) (free_nextClock ..) (free_activeSignals ..),
        free_useAfterFree ..⟩

theorem step (h : Inv st) (hf : st.useAfterFree = false) (hok : st.endsOwn a = true)
    (hs : st.step a = some st') : Inv st' ∧ st'.useAfterFree = false := by
  unfold State.step at hs
  rw [hf, if_neg Bool.false_ne_true] at hs
  cases a with
  | new signal =>
    cases hs
    exact ⟨h.new signal, hf⟩
  | start id period high startHigh =>
    obtain ⟨c, hc, rfl⟩ := Option.map_eq_some_iff.mp hs
    unfold State.start
    generalize (if startHigh then (1 : UInt8) else 0) = val
    split_ifs with hrun hmem hinval
    · exact ⟨⟨h.1, h.2, h.3, h.4, h.5, h.6, h.7⟩, hf⟩
    · exact ⟨⟨h.1, h.2, h.3, h.4, h.5, h.6, h.7⟩, hf⟩
    · exact ⟨⟨h.1, h.2, h.3, h.4, h.5, h.6, h.7⟩, hf⟩
    · have hnone : c.cbHandle = none := by simpa using hrun
      refine ⟨h.start (c := c) hc rfl hnone hnone rfl rfl hmem fun id' c₁ hc₁ hp => ?_, hf⟩
      -- a clock about to be freed is in its toggle
      obtain ⟨c₂, t, hc₂, ht, rfl, -⟩ := h.toggling_clock (h.inCallback id' c₁ hc₁
        (h.pending id' c₁ hc₁ hp).1)
      simp only [State.endsOwn, hc, Option.all_some, List.all_eq_true] at hok
      have hguard := hok t ht
      simpa [hc₁, hp] using hguard
  | stop id =>
    obtain ⟨c, hc, rfl⟩ := Option.map_eq_some_iff.mp hs
    simp only [State.endsOwn, State.mayEnd, hc, Option.all_some, Bool.and_eq_true, Bool.or_eq_true,
      decide_eq_true_eq] at hok
    exact ⟨h.stop hc rfl rfl rfl (fun hp => (h.pending id c hc hp).1) (h.owned hc hok.2)
      (.inr hok.1), by simpa using hf⟩
  | destroy id =>
    obtain ⟨c, hc, rfl⟩ := Option.map_eq_some_iff.mp hs
    unfold State.destroy
    split_ifs with hin
    · have hown : st.holds id c.signalHdl ∨ c.signalHdl ∉ st.activeSignals := by
        by_cases hp : c.destroyPending = true
        · exact .inr (h.pending id c hc hp).2
        · exact .inl ((Clock.holds_iff hc).mpr
            ⟨rfl, by simpa using hp, .inr (h.inCallback id c hc hin)⟩)
      exact ⟨h.stop hc rfl rfl rfl (fun _ => hin) hown
        (.inl rfl), by simpa using hf⟩
    · simp only [State.endsOwn, State.mayEnd, hc, Option.any_some, Option.all_some, hin,
        Bool.false_or, Bool.and_eq_true, Bool.or_eq_true, decide_eq_true_eq] at hok
      exact ⟨h.free hc rfl rfl hok.1 (h.owned hc hok.2), by simpa using hf⟩
  | drop id =>
    dsimp only at hs
    split_ifs at hs with hidle
    obtain ⟨c, hc, rfl⟩ := Option.map_eq_some_iff.mp hs
    simp only [State.endsOwn, State.mayEnd, hc, Option.all_some, Bool.and_eq_true, Bool.or_eq_true,
      decide_eq_true_eq] at hok
    exact ⟨h.free hc rfl rfl hok.1 (h.owned hc hok.2), by simpa using hf⟩
  | fire cb =>
    dsimp only at hs
    split_ifs at hs with hidle
    obtain ⟨x, hx, rfl⟩ := Option.map_eq_some_iff.mp hs
    exact h.fire hidle hx hf
  | register succeeds =>
    dsimp only at hs
    cases htog : st.toggles with
    | nil => simp [htog] at hs
    | cons t rest =>
      rw [htog] at hs
      cases hs
      rw [← hf]
      cases hfirst : t.firstCall with
      | true => exact h.register_first htog hfirst
      | false =>
        obtain ⟨c, hc, -⟩ := h.toggles t (htog ▸ List.mem_cons_self)
        simp only [State.endsOwn, htog, hfirst, hc, Option.all_some, Bool.or_false,
          Bool.or_eq_true] at hok
        exact h.register_callback htog hfirst hc hok

end Inv

/-! ### Every run -/

theorem inv_of_reached (h : State.Reached (fun st a => st.endsOwn a = true) st) :
    Inv st ∧ st.useAfterFree = false := by
  refine Reach.invariant (I := fun st : State => Inv st ∧ st.useAfterFree = false) h
    ⟨Inv.init, rfl⟩ ?_
  intro st a st' _ ⟨hinv, hf⟩ hok hs
  exact hinv.step hf hok hs

lemma Inv.holds_of_drives (h : Inv st) (hd : st.drives id s) (hidle : ¬ st.toggling id) :
    st.holds id s := by
  obtain ⟨c, hc, hsig, hrun⟩ := hd
  refine ⟨c, hc, hsig, ?_, .inl hrun⟩
  by_contra hp
  exact hidle (h.inCallback id c hc (h.pending id c hc (by simpa using hp)).1)

lemma Inv.not_toggling_of_drives (h : Inv st) (hd : st.drives id s) : ¬ st.toggling id := by
  intro htog
  obtain ⟨c, hc, -, hrun⟩ := hd
  obtain ⟨c', t, hc', -, -, hnone, -⟩ := h.toggling_clock htog
  rw [hc] at hc'
  cases hc'
  simp [NativeClock.isRunning, hnone] at hrun

lemma clocks_of_ends (ha : a.ends = some id) (hs : st.step a = some st') {id' : ClockID}
    (hne : id' ≠ id) : st'.clocks id' = st.clocks id' := by
  unfold State.step at hs
  by_cases hf : st.useAfterFree = true
  · rw [if_pos hf] at hs
    cases hs
  rw [if_neg hf] at hs
  cases a with
  | new | start | fire | register => cases ha
  | stop =>
    cases ha
    obtain ⟨c, -, rfl⟩ := Option.map_eq_some_iff.mp hs
    simp [Function.update_of_ne hne]
  | destroy =>
    cases ha
    obtain ⟨c, -, rfl⟩ := Option.map_eq_some_iff.mp hs
    unfold State.destroy
    split_ifs <;> simp [Function.update_of_ne hne]
  | drop =>
    cases ha
    dsimp only at hs
    split_ifs at hs
    obtain ⟨c, -, rfl⟩ := Option.map_eq_some_iff.mp hs
    simp [Function.update_of_ne hne]

/-- In runs in which only the clock that drives a signal is ended, clocks are exclusive, and no
freed clock is used. -/
theorem exclusive_of_endsOwn (h : State.Reached (fun st a => st.endsOwn a = true) st) :
    st.useAfterFree = false ∧ Exclusive (fun st a => st.endsOwn a = true) st := by
  obtain ⟨hinv, hf⟩ := inv_of_reached h
  have hholds : ∀ {st}, Inv st → ∀ {id s}, st.drives id s → st.holds id s :=
    fun hi _ _ hd => hi.holds_of_drives hd (hi.not_toggling_of_drives hd)
  refine ⟨hf, fun hidle s => ?_, fun s id id' hd hd' => ?_, fun a st' id ha hok hs hno id' s hd => ?_⟩
  · have heq : ∀ id, st.drives id s ↔ st.holds id s := fun id => by
      refine ⟨hholds hinv, fun ⟨c, hc, hsig, _, hrun⟩ => ⟨c, hc, hsig, hrun.resolve_right ?_⟩⟩
      simp [State.toggling, hidle]
    simp only [heq]
    exact hinv.exact.mem_iff_existsUnique
  · exact hinv.exact.unique s id id' (hholds hinv hd) (hholds hinv hd')
  · have hne : id' ≠ id := fun heq => hno s (heq ▸ hd)
    have hinv' := (hinv.step hf hok hs).1
    have hd' : st'.drives id' s := by
      obtain ⟨c, hc, hrest⟩ := hd
      exact ⟨c, (clocks_of_ends ha hs hne).trans hc, hrest⟩
    exact (hinv'.exact.mem_iff s).mpr ⟨id', hholds hinv' hd'⟩

/-- Two clocks of one signal; the second, which never runs, is destroyed while the first runs, and
then a third is started. -/
def destroysIdle : List Act :=
  [.new 7, .new 7, .new 7, .start 0 10 5 true, .register true, .destroy 1, .start 2 10 5 true,
   .register true]

theorem not_exclusive : ¬ ∀ st, State.Reached Unguarded st → Exclusive Unguarded st := by
  intro h
  have hrun : (run State.step State.init destroysIdle).map (fun st => decide (
      (st.clocks 0).any (fun c => c.signalHdl = 7 ∧ c.isRunning) = true ∧
      (st.clocks 2).any (fun c => c.signalHdl = 7 ∧ c.isRunning) = true)) = some true := by
    decide +kernel
  obtain ⟨st, hst, hrun⟩ := Option.map_eq_some_iff.mp hrun
  obtain ⟨h0, h2⟩ := of_decide_eq_true hrun
  have hdrives : ∀ id, (st.clocks id).any (fun c => c.signalHdl = 7 ∧ c.isRunning) = true →
      st.drives id 7 := fun id hany => by
    obtain ⟨c, hc, hdec⟩ := (Option.any_eq_true _ _).mp hany
    exact ⟨c, hc, of_decide_eq_true hdec⟩
  have heq := (h st (reach_of_run hst)).unique 7 0 2 (hdrives 0 h0) (hdrives 2 h2)
  cases heq

/-- The first clock cannot register its callback; the second runs, is destroyed in its callback and
makes way for the first. -/
def takesTurns : List Act :=
  [.new 7, .new 7, .start 0 10 5 true, .register false, .start 1 10 5 true, .start 0 10 5 true,
   .register true, .fire 0, .destroy 1, .register true, .start 0 10 5 false, .register true]

theorem exclusive_of_takesTurns :
    ∃ st, runChecked State.step (fun st a => st.endsOwn a = true) State.init takesTurns = some st ∧
      st.activeSignals = {7} ∧ (st.clocks 0).map NativeClock.isRunning = some true ∧
      Exclusive (fun st a => st.endsOwn a = true) st := by
  have hrun : (runChecked State.step (fun st a => st.endsOwn a = true) State.init takesTurns).map
      (fun st => (st.activeSignals, (st.clocks 0).map NativeClock.isRunning)) =
        some ({7}, some true) := by
    decide +kernel
  obtain ⟨st, hst, hrun⟩ := Option.map_eq_some_iff.mp hrun
  exact ⟨st, hst, congrArg Prod.fst hrun, congrArg Prod.snd hrun,
    (exclusive_of_endsOwn (reach_of_runChecked hst)).2⟩

end Verilua.Clock
