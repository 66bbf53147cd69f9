import Mathlib.Data.List.Chain
import Verilua.Clock.Instance

/-!
# Stopping is final

Between the write of a toggle and the registration of the next callback the instance has no callback.
A `stop` that comes then finds nothing to remove, and the toggle registers the next callback behind it.
-/

namespace Verilua.Clock

open TransitionSystem

variable {st st' st₁ st₂ st₃ : State} {a b : Act} {id : ClockID} {p p' : Phase}
  {w : Option UInt8} {next : CbHandle}

/-- The instance that is started. -/
def Act.starts : Act → Option ClockID
  | .start id .. => some id
  | _ => none

/-- The simulator calls the callback of the instance, or the instance goes on in its toggle. -/
def State.uses (st : State) (id : ClockID) : Act → Bool
  | .fire cb => (st.callbacks cb).any fun x => x.userData = id
  | .register _ => st.toggles.head?.any fun t => t.clock = id
  | _ => false

/-- In the step the instance writes nothing, nor is it used if it is freed. -/
structure Silent (st st' : State) (id : ClockID) (a : Act) : Prop where
  written : ∀ value, st.written st' ≠ some (id, value)
  used : st.uses id a = true → st.clocks id ≠ none

/-- The instance is not stopped inside its own toggle, unless it is to be destroyed behind it. -/
def State.meets (st : State) (id : ClockID) (a : Act) : Bool :=
  st.orderly id a &&
    match a with
    | .stop id' => decide (id' ≠ id) || decide (¬ st.toggling id) ||
        (st.clocks id).all NativeClock.destroyPending
    | _ => true

/-- Nothing is left by which the instance could write. -/
def Phase.quiet : Phase → Bool
  | absent => true
  | idle _ => true
  | called _ _ destroyed => destroyed
  | _ => false

lemma Moves.quiet (h : Moves next id a p p' w) (hquiet : p.quiet = true) (ha : a.starts ≠ some id) :
    p'.quiet = true ∧ w = none := by
  cases h with
  | start => exact absurd rfl ha
  | refused => exact absurd rfl ha
  | stopCalled => exact ⟨hquiet, rfl⟩
  | new | stopIdle | destroyIdle | destroyCalled | dropIdle | registerDestroyed => exact ⟨rfl, rfl⟩
  | stopRunning | stopStarting | destroyRunning | dropRunning | fire | registerStarting
  | failStarting | registerCalled | failCalled => cases hquiet

lemma At.orderly_of_quiet (h : At st id p) (hquiet : p.quiet = true) (ha : a.starts ≠ some id) :
    st.orderly id a = true := by
  cases p with
  | absent | idle =>
    have hidle : ¬ st.toggling id := fun htog => toggling_iff.mp htog h.toggles
    simp [State.orderly, hidle]
  | running | starting => cases hquiet
  | called s delay destroyed =>
    have hin : (st.clocks id).all NativeClock.inCallback = true := by
      rw [h.clock]
      rfl
    cases a with
    | start id' =>
      have hne : id' ≠ id := fun heq => ha (congrArg some heq)
      simp [State.orderly, hne]
    | destroy => simp [State.orderly, hin]
    | new | stop | drop | fire | register => simp [State.orderly]

lemma At.step_quiet (h : At st id p) (hh : Handles st) (hquiet : p.quiet = true)
    (ha : a.starts ≠ some id) (hs : st.step a = some st') :
    (∃ p', At st' id p' ∧ p'.quiet = true) ∧ Silent st st' id a := by
  have hused : st.uses id a = true → st.clocks id ≠ none := by
    intro huses hnone
    have hclock := h.clock
    rw [hnone] at hclock
    cases p with
    | idle | running | starting | called => cases hclock
    | absent =>
      cases a with
      | new | start | stop | destroy | drop => cases huses
      | fire cb =>
        obtain ⟨⟨id', delay⟩, hx, hid⟩ := (Option.any_eq_true _ _).mp huses
        cases of_decide_eq_true hid
        cases (h.callbacks cb delay).mp hx
      | register =>
        obtain ⟨t, ht, hid⟩ := (Option.any_eq_true _ _).mp huses
        have hmem : t ∈ st.togglesOf id := List.mem_filter.mpr ⟨List.mem_of_mem_head? ht, hid⟩
        rw [h.toggles] at hmem
        cases hmem
  rcases h.step hh (h.orderly_of_quiet hquiet ha) hs with
    ⟨-, p', w, hat, hmoves, hw⟩ | ⟨-, hat, hw⟩
  · obtain ⟨hquiet', rfl⟩ := hmoves.quiet hquiet ha
    refine ⟨⟨p', hat, hquiet'⟩, fun value hvalue => ?_, hused⟩
    rw [hw] at hvalue
    cases hvalue
  · exact ⟨⟨p, hat, hquiet⟩, hw, hused⟩

lemma At.quiet_of_stop (h : At st id p) (hh : Handles st) (ha : a = .stop id ∨ a = .destroy id)
    (hok : st.meets id a = true) (hs : st.step a = some st') :
    ∃ p', At st' id p' ∧ p'.quiet = true := by
  obtain ⟨horderly, hstop⟩ := (Bool.and_eq_true _ _).mp hok
  have hsubject : st.subject a = some id := by
    rcases ha with rfl | rfl <;> rfl
  rcases h.step hh horderly hs with ⟨-, p', w, hat, hmoves, -⟩ | ⟨hne, -⟩
  · refine ⟨p', hat, ?_⟩
    rcases ha with rfl | rfl
    · have hpending : st.toggling id → ∀ c, st.clocks id = some c → c.destroyPending = true := by
        intro htog c hc
        simpa [htog, hc] using hstop
      cases hmoves with
      | stopIdle | stopRunning => rfl
      | stopStarting =>
        have htog : st.toggling id := toggling_iff.mpr (by simp [h.toggles, Phase.toggles])
        cases hpending htog _ h.clock
      | stopCalled =>
        have htog : st.toggling id := toggling_iff.mpr (by simp [h.toggles, Phase.toggles])
        exact hpending htog _ h.clock
    · cases hmoves with
      | destroyIdle | destroyRunning | destroyCalled => rfl
  · exact absurd hsubject hne

/-- The clock is in the toggle of its callback. -/
def inToggle : List Act := [.new 7, .start 0 10 5 true, .register true, .fire 0]

end Verilua.Clock

/-!
### The waveform of a clock

Runs with a time: a callback runs when its delay is over, and time does not advance past it. The delay
goes to the simulator in two halves.
-/

namespace Verilua.Clock

open TransitionSystem

/-! ### Delays -/

/-- A `t_vpi_time` of the type `vpiSimTime`. -/
structure VpiTime where
  high : UInt32
  low : UInt32

/-- The halves of the delay, as `toggle` hands them over. -/
def vpiTime (delay : UInt64) : VpiTime where
  high := (delay >>> 32).toUInt32
  low := (delay &&& 0xFFFFFFFF).toUInt32

/-- The delay that the simulator reads. -/
def VpiTime.delay (t : VpiTime) : UInt64 := t.high.toUInt64 <<< 32 ||| t.low.toUInt64

theorem delay_vpiTime (delay : UInt64) : (vpiTime delay).delay = delay := by
  have hlt : delay.toNat < 2 ^ 64 := delay.toNat_lt
  have hhigh : delay.toNat >>> 32 % 4294967296 = delay.toNat / 2 ^ 32 := by
    rw [Nat.shiftRight_eq_div_pow]
    exact Nat.mod_eq_of_lt (by omega)
  have hlow : (delay.toNat &&& 4294967295) % 4294967296 = delay.toNat % 2 ^ 32 := by
    rw [Nat.and_two_pow_sub_one_eq_mod delay.toNat 32]
    exact Nat.mod_mod ..
  apply UInt64.toNat_inj.mp
  simp only [vpiTime, VpiTime.delay, UInt64.toNat_or, UInt64.toNat_shiftLeft,
    UInt32.toNat_toUInt64, UInt64.toNat_toUInt32, UInt64.toNat_shiftRight, UInt64.toNat_and,
    UInt64.reduceToNat, Nat.reducePow, Nat.reduceMod]
  rw [hhigh, hlow]
  have hword : (delay.toNat / 2 ^ 32) <<< 32 % 18446744073709551616 =
      (delay.toNat / 2 ^ 32) <<< 32 := by
    rw [Nat.shiftLeft_eq]
    exact Nat.mod_eq_of_lt (by omega)
  rw [hword, ← Nat.shiftLeft_add_eq_or_of_lt (Nat.mod_lt _ (by decide)), Nat.shiftLeft_eq]
  exact Nat.div_add_mod' _ _

/-! ### Runs with a time -/

/-- A value that a clock has written. -/
structure Edge where
  time : ℕ
  clock : ClockID
  value : UInt8
  deriving DecidableEq

/-- `due` is the time at which the delay of a callback is over, and `edges` are in the order in which
they were written. -/
structure Timed where
  st : State
  now : ℕ
  due : CbHandle → ℕ
  edges : List Edge

def Timed.init : Timed := ⟨.init, 0, fun _ => 0, []⟩

inductive TimedAct
  | act (a : Act)
  | wait (d : ℕ)

namespace Timed

/-- No callback is passed over. -/
def mayWait (ts : Timed) (d : ℕ) : Bool :=
  ts.st.toggles.isEmpty &&
    (List.range ts.st.nextCb).all fun cb =>
      (ts.st.callbacks cb).isNone || decide (ts.now + d ≤ ts.due cb)

/-- A callback is called at its time. -/
def mayAct (ts : Timed) : Act → Bool
  | .fire cb => ts.due cb = ts.now
  | _ => true

/-- The times of the callbacks, with that of the one which is being registered. -/
def registers (ts : Timed) : Act → CbHandle → ℕ
  | .register true =>
    match ts.st.toggles with
    | t :: _ => Function.update ts.due ts.st.nextCb (ts.now + (vpiTime t.delay).delay.toNat)
    | [] => ts.due
  | _ => ts.due

/-- The edge of a step. -/
def edge (ts : Timed) (st : State) : List Edge :=
  ((ts.st.written st).map fun w => (⟨ts.now, w.1, w.2⟩ : Edge)).toList

def step (ts : Timed) : TimedAct → Option Timed
  | .act a =>
    if ts.mayAct a then (ts.st.step a).map fun st =>
      { ts with st := st, due := ts.registers a, edges := ts.edges ++ ts.edge st }
    else none
  | .wait d => if ts.mayWait d then some { ts with now := ts.now + d } else none

end Timed

/-! ### What is claimed -/

/-- How long a level lasts. -/
def phaseLength (period high : UInt64) (value : UInt8) : ℕ :=
  if value = 1 then high.toNat else period.toNat - high.toNat

/-- The other level. -/
def other (value : UInt8) : UInt8 := if value = 1 then 0 else 1

/-- The levels alternate from the one at which the clock starts, and each lasts as long as it is to. -/
structure Waveform (period high : UInt64) (startHigh : Bool) (start : ℕ) (edges : List Edge) :
    Prop where
  first : edges.head?.map (fun e => (e.time, e.value)) = some (start, if startHigh then 1 else 0)
  next : edges.IsChain fun e e' =>
    e'.time = e.time + phaseLength period high e.value ∧ e'.value = other e.value

/-- `start` passes its checks. -/
def State.accepts (st : State) (id : ClockID) (period high : UInt64) : Bool :=
  (st.clocks id).any fun c =>
    !c.isRunning && decide (c.signalHdl ∉ st.activeSignals) && !refuses period high

/-! ### What one step keeps -/

variable {ts₀ ts ts' ts₁ : Timed} {id : ClockID} {period high : UInt64} {startHigh : Bool}
  {p : Phase} {last : Edge} {s : Setting} {st' : State} {a : Act} {cb : CbHandle} {d : ℕ}
  {delay : UInt64}

/-- The values of an instance between a toggle and the next one. -/
structure Setting.Follows (s : Setting) (period high : UInt64) (last : Edge) : Prop where
  period : s.periodSteps = period
  high : s.highSteps = high
  value : s.currentVal = other last.value

/-- The instance is to write its next value when the last one has lasted long enough. -/
def Phase.OnTime (period high : UInt64) (last : Edge) (ts : Timed) : Phase → Prop
  | absent => True
  | idle _ => True
  | running s cb _ => s.Follows period high last ∧
      ts.due cb = last.time + phaseLength period high last.value ∧ ts.now ≤ ts.due cb
  | starting s delay => s.Follows period high last ∧
      delay.toNat = phaseLength period high last.value ∧ ts.now = last.time
  | called s delay _ => s.Follows period high last ∧
      delay.toNat = phaseLength period high last.value ∧ ts.now = last.time

def Timed.edgesOf (ts : Timed) (id : ClockID) : List Edge := ts.edges.filter fun e => e.clock = id

/-- What holds from the start of the instance on, in `ts₀`. -/
structure Tracks (ts₀ : Timed) (id : ClockID) (period high : UInt64) (startHigh : Bool) (ts : Timed)
    (p : Phase) (last : Edge) : Prop where
  handles : Handles ts.st
  phase : At ts.st id p
  edges : ∃ edges, ts.edgesOf id = ts₀.edgesOf id ++ edges ∧
    Waveform period high startHigh ts₀.now edges ∧ edges.getLast? = some last
  past : last.time ≤ ts.now
  onTime : p.OnTime period high last ts

lemma delay_eq (hvalid : refuses period high = false) (hperiod : s.periodSteps = period)
    (hhigh : s.highSteps = high) : s.delay.toNat = phaseLength period high s.currentVal := by
  have hle : high ≤ period := by
    unfold refuses at hvalid
    have hinvalid := of_decide_eq_false hvalid
    rw [not_or, not_or, ge_iff_le, UInt64.not_le] at hinvalid
    exact UInt64.le_of_lt hinvalid.2.2
  unfold Setting.delay phaseLength
  rw [hperiod, hhigh]
  split_ifs
  · rfl
  · exact UInt64.toNat_sub_of_le _ _ hle

lemma flipped_value {value : UInt8} : other value ^^^ 1 = other (other value) := by
  unfold other
  by_cases h : value = 1
  · rw [if_pos h]
    rfl
  · rw [if_neg h]
    rfl

lemma registers_of_lt (h : cb < ts.st.nextCb) : ts.registers a cb = ts.due cb := by
  unfold Timed.registers
  split
  · cases ts.st.toggles with
    | nil => rfl
    | cons t rest => exact Function.update_of_ne (Nat.ne_of_lt h) _ _
  · rfl

lemma registers_next (h : At ts.st id p) (hsubject : ts.st.subject (.register true) = some id)
    {firstCall : Bool} {delay : UInt64} (htoggles : p.toggles id = [⟨id, firstCall, delay⟩]) :
    ts.registers (.register true) ts.st.nextCb = ts.now + delay.toNat := by
  obtain ⟨t, ht, hid⟩ := Option.map_eq_some_iff.mp hsubject
  obtain ⟨rest, heq⟩ := List.head?_eq_some_iff.mp ht
  have hmem : t ∈ ts.st.togglesOf id :=
    List.mem_filter.mpr ⟨List.mem_of_mem_head? ht, decide_eq_true hid⟩
  rw [h.toggles, htoggles, List.mem_singleton] at hmem
  simp [Timed.registers, heq, delay_vpiTime, hmem]

lemma edgesOf_of_not_written (hst : ts'.edges = ts.edges ++ ts.edge st')
    (hw : ∀ value, ts.st.written st' ≠ some (id, value)) : ts'.edgesOf id = ts.edgesOf id := by
  have hnone : (ts.edge st').filter (fun e => e.clock = id) = [] := by
    rw [List.filter_eq_nil_iff]
    intro e he
    obtain ⟨w, hw', rfl⟩ := Option.map_eq_some_iff.mp (Option.mem_toList.mp he)
    simp only [decide_eq_true_eq]
    intro heq
    exact hw w.2 (by rw [hw', ← heq])
  rw [Timed.edgesOf, hst, List.filter_append, hnone, List.append_nil]
  rfl

lemma edgesOf_of_written {value : UInt8} (hst : ts'.edges = ts.edges ++ ts.edge st')
    (hw : ts.st.written st' = some (id, value)) :
    ts'.edgesOf id = ts.edgesOf id ++ [⟨ts.now, id, value⟩] := by
  have hedge : ts.edge st' = [⟨ts.now, id, value⟩] := by
    rw [Timed.edge, hw]
    rfl
  rw [Timed.edgesOf, hst, hedge, List.filter_append]
  simp [Timed.edgesOf]

lemma Waveform.snoc {start : ℕ} {edges : List Edge} (h : Waveform period high startHigh start edges)
    (hlast : edges.getLast? = some last) {e : Edge}
    (htime : e.time = last.time + phaseLength period high last.value)
    (hvalue : e.value = other last.value) :
    Waveform period high startHigh start (edges ++ [e]) := by
  have hne : edges ≠ [] := by
    intro hnil
    rw [hnil] at hlast
    cases hlast
  refine ⟨by rw [List.head?_append_of_ne_nil _ hne]; exact h.first, ?_⟩
  apply h.next.append (List.isChain_singleton _)
  intro x hx y hy
  rw [hlast, Option.mem_some_iff] at hx
  rw [List.head?_cons, Option.mem_some_iff] at hy
  subst hx hy
  exact ⟨htime, hvalue⟩

namespace Tracks

lemma wait (h : Tracks ts₀ id period high startHigh ts p last) (hmay : ts.mayWait d = true) :
    Tracks ts₀ id period high startHigh { ts with now := ts.now + d } p last := by
  obtain ⟨hempty, hall⟩ := (Bool.and_eq_true _ _).mp hmay
  have htoggles : p.toggles id = [] := by
    rw [← h.phase.toggles, State.togglesOf, List.isEmpty_iff.mp hempty]
    rfl
  refine ⟨h.handles, h.phase, h.edges, h.past.trans (Nat.le_add_right _ _), ?_⟩
  have honTime := h.onTime
  cases p with
  | absent => trivial
  | idle => trivial
  | starting | called => cases htoggles
  | running s cb delay =>
    obtain ⟨hfollows, hdue, -⟩ := honTime
    refine ⟨hfollows, hdue, ?_⟩
    have hx : ts.st.callbacks cb = some ⟨id, delay⟩ := (h.phase.callbacks cb delay).mpr rfl
    have hmem := List.mem_range.mpr (h.handles.callback cb _ hx)
    simpa [hx] using List.all_eq_true.mp hall cb hmem

lemma unwritten (h : Tracks ts₀ id period high startHigh ts p last) (hs : ts.st.step a = some st')
    {p' : Phase} (hat : At st' id p') (hw : ts.st.written st' = none)
    (honTime : p'.OnTime period high last
      { ts with st := st', due := ts.registers a, edges := ts.edges ++ ts.edge st' }) :
    Tracks ts₀ id period high startHigh
      { ts with st := st', due := ts.registers a, edges := ts.edges ++ ts.edge st' } p' last := by
  obtain ⟨id', -, hlocal⟩ := h.handles.step hs
  refine ⟨hlocal.handles, hat, ?_, h.past, honTime⟩
  rw [edgesOf_of_not_written rfl fun value hvalue => by rw [hw] at hvalue; cases hvalue]
  exact h.edges

/-- The toggle of the callback writes the other level, at the time that the last one has lasted. -/
lemma fire (h : Tracks ts₀ id period high startHigh ts (.running s cb delay) last)
    (hvalid : refuses period high = false) (hmay : ts.mayAct (.fire cb) = true)
    (hs : ts.st.step (.fire cb) = some st') (hat : At st' id (.called s.flipped s.delay false))
    (hw : ts.st.written st' = some (id, s.currentVal)) :
    Tracks ts₀ id period high startHigh
      { ts with st := st', due := ts.registers (.fire cb), edges := ts.edges ++ ts.edge st' }
      (.called s.flipped s.delay false) ⟨ts.now, id, s.currentVal⟩ := by
  obtain ⟨id', -, hlocal⟩ := h.handles.step hs
  obtain ⟨edges, hedges, hwave, hlast⟩ := h.edges
  obtain ⟨hfollows, hdue, -⟩ := h.onTime
  have hnow : ts.now = last.time + phaseLength period high last.value :=
    (of_decide_eq_true hmay).symm.trans hdue
  refine ⟨hlocal.handles, hat, ⟨edges ++ [⟨ts.now, id, s.currentVal⟩], ?_, ?_, ?_⟩, le_rfl, ?_⟩
  · rw [edgesOf_of_written rfl hw, hedges, List.append_assoc]
  · exact hwave.snoc hlast hnow hfollows.value
  · exact List.getLast?_concat
  · refine ⟨⟨hfollows.period, hfollows.high, ?_⟩, delay_eq hvalid hfollows.period hfollows.high, rfl⟩
    change s.currentVal ^^^ 1 = other s.currentVal
    rw [hfollows.value]
    exact flipped_value

lemma act (h : Tracks ts₀ id period high startHigh ts p last) (hvalid : refuses period high = false)
    (hok : ts.st.orderly id a = true) (ha : a.starts ≠ some id) (hmay : ts.mayAct a = true)
    (hs : ts.st.step a = some st') : ∃ p' last', Tracks ts₀ id period high startHigh
      { ts with st := st', due := ts.registers a, edges := ts.edges ++ ts.edge st' } p' last' := by
  have honTime := h.onTime
  rcases h.phase.step h.handles hok hs with ⟨hsubject, p', w, hat, hmoves, hw⟩ | ⟨-, hat, hw⟩
  · cases hmoves with
    | refused | start => exact absurd rfl ha
    | fire => exact ⟨_, _, h.fire hvalid hmay hs hat hw⟩
    | new | stopIdle | stopRunning | destroyIdle | destroyRunning | dropIdle | dropRunning
    | failStarting | failCalled | registerDestroyed =>
      exact ⟨_, last, h.unwritten hs hat hw trivial⟩
    | stopStarting | stopCalled | destroyCalled =>
      exact ⟨_, last, h.unwritten hs hat hw honTime⟩
    | registerStarting | registerCalled =>
      obtain ⟨hfollows, hdelay, hnow⟩ := honTime
      have hdue := registers_next h.phase hsubject rfl
      refine ⟨_, last, h.unwritten hs hat hw ⟨hfollows, ?_, ?_⟩⟩
      · exact hdue.trans (by rw [hnow, hdelay])
      · exact (Nat.le_add_right _ _).trans hdue.ge
  · obtain ⟨id', -, hlocal⟩ := h.handles.step hs
    refine ⟨p, last, hlocal.handles, hat, ?_, h.past, ?_⟩
    · rw [edgesOf_of_not_written rfl hw]
      exact h.edges
    · cases p with
      | running s cb delay =>
        have hx : ts.st.callbacks cb = some ⟨id, delay⟩ := (h.phase.callbacks cb delay).mpr rfl
        have hdue := registers_of_lt (a := a) (h.handles.callback cb _ hx)
        obtain ⟨hfollows, htime, hle⟩ := honTime
        exact ⟨hfollows, hdue.trans htime, hle.trans hdue.ge⟩
      | absent | idle | starting | called => exact honTime

lemma start (hh : Handles ts₀.st) (hvalid : refuses period high = false)
    (hs : ts₀.st.step (.start id period high startHigh) = some st')
    (hat : At st' id (.starting (s.started period high startHigh).flipped
      (s.started period high startHigh).delay))
    (hw : ts₀.st.written st' = some (id, (s.started period high startHigh).currentVal)) :
    Tracks ts₀ id period high startHigh
      { ts₀ with
        st := st'
        due := ts₀.registers (.start id period high startHigh)
        edges := ts₀.edges ++ ts₀.edge st' }
      (.starting (s.started period high startHigh).flipped (s.started period high startHigh).delay)
      ⟨ts₀.now, id, (s.started period high startHigh).currentVal⟩ := by
  obtain ⟨id', -, hlocal⟩ := hh.step hs
  refine ⟨hlocal.handles, hat, ⟨_, edgesOf_of_written rfl hw, ⟨rfl, List.isChain_singleton _⟩, rfl⟩,
    le_rfl, ⟨rfl, rfl, ?_⟩, delay_eq hvalid rfl rfl, rfl⟩
  change (if startHigh then (1 : UInt8) else 0) ^^^ 1 = other (if startHigh then 1 else 0)
  cases startHigh <;> decide

end Tracks

/-! ### Every run -/

lemma written_of_accepts {st : State} (h : st.accepts id period high = true)
    (hs : st.step (.start id period high startHigh) = some st') : st.written st' ≠ none := by
  obtain ⟨c, hc, hchecks⟩ := (Option.any_eq_true _ _).mp h
  simp only [Bool.and_eq_true, Bool.not_eq_true', decide_eq_true_eq] at hchecks
  obtain ⟨⟨hrun, hactive⟩, hvalid⟩ := hchecks
  have hrun' : ¬ c.cbHandle.isSome = true := by
    rw [← NativeClock.isRunning, hrun]
    exact Bool.false_ne_true
  unfold State.step at hs
  by_cases hf : st.useAfterFree = true
  · rw [if_pos hf] at hs
    cases hs
  rw [if_neg hf] at hs
  obtain ⟨c', hc', rfl⟩ := Option.map_eq_some_iff.mp hs
  cases hc.symm.trans hc'
  rw [State.start, if_neg hrun', if_neg hactive, if_neg (of_decide_eq_false hvalid)]
  intro hnone
  cases (if_pos rfl).symm.trans hnone

lemma step_act (hs : ts.step (.act a) = some ts') : ∃ st', ts.mayAct a = true ∧
    ts.st.step a = some st' ∧
      ts' = { ts with st := st', due := ts.registers a, edges := ts.edges ++ ts.edge st' } := by
  obtain ⟨hmay, hs⟩ := Option.ite_none_right_eq_some.mp hs
  obtain ⟨st', hst, heq⟩ := Option.map_eq_some_iff.mp hs
  exact ⟨st', hmay, hst, heq.symm⟩

lemma step_wait (hs : ts.step (.wait d) = some ts') :
    ts.mayWait d = true ∧ ts' = { ts with now := ts.now + d } := by
  obtain ⟨hmay, heq⟩ := Option.ite_none_right_eq_some.mp hs
  exact ⟨hmay, (Option.some.inj heq).symm⟩

lemma handles_of_timed (h : Reach Timed.step Unguarded Timed.init ts) : Handles ts.st := by
  refine Reach.invariant (I := fun ts : Timed => Handles ts.st) h Handles.init ?_
  intro ts b ts' _ hh _ hs
  cases b with
  | wait d =>
    obtain ⟨-, rfl⟩ := step_wait hs
    exact hh
  | act a =>
    obtain ⟨st', -, hst, rfl⟩ := step_act hs
    obtain ⟨id, -, hlocal⟩ := hh.step hst
    exact hlocal.handles

/-- The action does not start the instance again, nor end it. -/
def TimedAct.leaves (id : ClockID) : TimedAct → Bool
  | .act a => decide (a.starts ≠ some id) && decide (a.ends ≠ some id)
  | .wait _ => true

lemma orderly_of_leaves {st : State} (h : (TimedAct.act a).leaves id = true) :
    st.orderly id a = true ∧ a.starts ≠ some id := by
  obtain ⟨hstart, hend⟩ := (Bool.and_eq_true _ _).mp h
  have hstart := of_decide_eq_true hstart
  have hend := of_decide_eq_true hend
  refine ⟨?_, hstart⟩
  cases a with
  | start id' =>
    have hne : id' ≠ id := fun heq => hstart (congrArg some heq)
    simp [State.orderly, hne]
  | destroy id' =>
    have hne : id' ≠ id := fun heq => hend (congrArg some heq)
    simp [State.orderly, hne]
  | new | stop | drop | fire | register => simp [State.orderly]

lemma Tracks.run {ts₂ : Timed} (h : Tracks ts₀ id period high startHigh ts p last)
    (hvalid : refuses period high = false)
    (hrest : Reach Timed.step (fun _ b => b.leaves id = true) ts ts₂) :
    ∃ p' last', Tracks ts₀ id period high startHigh ts₂ p' last' := by
  refine Reach.invariant (I := fun ts => ∃ p' last', Tracks ts₀ id period high startHigh ts p' last')
    hrest ⟨p, last, h⟩ ?_
  rintro ts b ts' - ⟨p, last, h⟩ hleaves hs
  cases b with
  | wait d =>
    obtain ⟨hmay, rfl⟩ := step_wait hs
    exact ⟨p, last, h.wait hmay⟩
  | act a =>
    obtain ⟨st', hmay, hst, rfl⟩ := step_act hs
    obtain ⟨hok, ha⟩ := orderly_of_leaves hleaves
    exact h.act hvalid hok ha hmay hst

/-- The instance runs, or it is in its toggle. -/
def State.goesOn (st : State) (id : ClockID) : Prop :=
  (st.clocks id).any NativeClock.isRunning = true ∨ st.toggling id

lemma Tracks.punctual (h : Tracks ts₀ id period high startHigh ts p last)
    (hgoes : ts.st.goesOn id) : ts.now ≤ last.time + phaseLength period high last.value := by
  have honTime := h.onTime
  cases p with
  | absent | idle =>
    rcases hgoes with hrun | htog
    · rw [h.phase.clock] at hrun
      cases hrun
    · exact absurd h.phase.toggles (toggling_iff.mp htog)
  | running s cb delay =>
    obtain ⟨-, hdue, hle⟩ := honTime
    exact hdue ▸ hle
  | starting | called =>
    obtain ⟨-, -, hnow⟩ := honTime
    rw [hnow]
    exact Nat.le_add_right _ _

/-- From an accepted start of an idle instance on, however many toggles there have been, what it has
written is the waveform that was asked for, and no toggle is late. -/
theorem waveform_of_start {ts₂ : Timed} (h : Reach Timed.step Unguarded Timed.init ts₀)
    (hidle : At ts₀.st id (.idle s)) (haccepts : ts₀.st.accepts id period high = true)
    (hstart : ts₀.step (.act (.start id period high startHigh)) = some ts₁)
    (hrest : Reach Timed.step (fun _ b => b.leaves id = true) ts₁ ts₂) :
    (∀ delay, (vpiTime delay).delay = delay) ∧
      ∃ edges last, ts₂.edgesOf id = ts₀.edgesOf id ++ edges ∧
        Waveform period high startHigh ts₀.now edges ∧ edges.getLast? = some last ∧
        last.time ≤ ts₂.now ∧
        (ts₂.st.goesOn id → ts₂.now ≤ last.time + phaseLength period high last.value) := by
  refine ⟨delay_vpiTime, ?_⟩
  obtain ⟨st', -, hst, rfl⟩ := step_act hstart
  have hh := handles_of_timed h
  have hok : ts₀.st.orderly id (.start id period high startHigh) = true := by
    have hnot : ¬ ts₀.st.toggling id := fun htog => toggling_iff.mp htog hidle.toggles
    simp [State.orderly, hnot]
  have hw₀ := written_of_accepts haccepts hst
  rcases hidle.step hh hok hst with ⟨-, p', w, hat, hmoves, hw⟩ | ⟨hne, -⟩
  · cases hmoves with
    | refused => exact absurd hw hw₀
    | start hvalid =>
      obtain ⟨p, last, htracks⟩ := (Tracks.start hh hvalid hst hat hw).run hvalid hrest
      obtain ⟨edges, hedges, hwave, hlast⟩ := htracks.edges
      exact ⟨edges, last, hedges, hwave, hlast, htracks.past, htracks.punctual⟩
  · exact absurd rfl hne

/-- Three toggles of a clock whose phases do not fit in 32 bits. -/
def longPeriod : List TimedAct :=
  [.act (.register true), .wait 8589934592, .act (.fire 0), .act (.register true),
   .wait 1090921693189, .act (.fire 1)]

theorem waveform_of_longPeriod :
    ∃ ts₁ ts₂, Timed.step ⟨State.init.new 7, 0, fun _ => 0, []⟩
        (.act (.start 0 1099511627781 8589934592 true)) = some ts₁ ∧
      runChecked Timed.step (fun _ b => b.leaves 0 = true) ts₁ longPeriod = some ts₂ ∧
      ts₂.edges = [⟨0, 0, 1⟩, ⟨8589934592, 0, 0⟩, ⟨1099511627781, 0, 1⟩] ∧
      ∃ edges last, ts₂.edgesOf 0 = [] ++ edges ∧
        Waveform 1099511627781 8589934592 true 0 edges ∧ edges.getLast? = some last ∧
        last.time ≤ ts₂.now ∧ (ts₂.st.goesOn 0 →
          ts₂.now ≤ last.time + phaseLength 1099511627781 8589934592 last.value) := by
  have hreach : Reach Timed.step Unguarded Timed.init ⟨State.init.new 7, 0, fun _ => 0, []⟩ :=
    Reach.refl.tail (a := .act (.new 7)) trivial rfl
  have hidle : At (State.init.new 7) 0 (.idle (.new 7)) :=
    ⟨rfl, rfl, fun _ _ => iff_of_false (by simp [State.init, State.new, State.setClock])
      (by simp [Phase.callback])⟩
  have hrun : ((Timed.step ⟨State.init.new 7, 0, fun _ => 0, []⟩
      (.act (.start 0 1099511627781 8589934592 true))).bind fun ts₁ =>
        (runChecked Timed.step (fun _ b => b.leaves 0 = true) ts₁ longPeriod).map Timed.edges) =
      some [⟨0, 0, 1⟩, ⟨8589934592, 0, 0⟩, ⟨1099511627781, 0, 1⟩] := by
    decide +kernel
  obtain ⟨ts₁, hts₁, hrun⟩ := Option.bind_eq_some_iff.mp hrun
  obtain ⟨ts₂, hts₂, hedges⟩ := Option.map_eq_some_iff.mp hrun
  exact ⟨ts₁, ts₂, hts₁, hts₂, hedges, (waveform_of_start hreach hidle (by decide) hts₁
    (reach_of_runChecked hts₂)).2⟩

end Verilua.Clock
