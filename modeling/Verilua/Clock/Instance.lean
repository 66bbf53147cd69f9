import Verilua.Clock.Exclusive

/-!
# One instance among others

The steps of other instances leave an instance as it is. Its own take it from one phase to another, as
`Moves` says, as long as it is not started, nor destroyed by `start`'s caller, inside its own toggle.
-/

namespace Verilua.Clock

open TransitionSystem

variable {st st' st'' : State} {a : Act} {id id' : ClockID} {c : NativeClock} {cb : CbHandle}

/-! ### Handles -/

/-- Instances and callbacks have names of their own, and an instance has no handle of a callback of
another one. -/
structure Handles (st : State) : Prop where
  clock : ∀ id c, st.clocks id = some c → id < st.nextClock
  callback : ∀ cb x, st.callbacks cb = some x → cb < st.nextCb
  handle : ∀ id c cb, st.clocks id = some c → c.cbHandle = some cb → cb < st.nextCb
  owner : ∀ id c cb x, st.clocks id = some c → c.cbHandle = some cb → st.callbacks cb = some x →
    x.userData = id

def State.togglesOf (st : State) (id : ClockID) : List Toggle :=
  st.toggles.filter fun t => t.clock = id

/-- Nothing of the instance changes. -/
structure Frame (st st' : State) (id : ClockID) : Prop where
  clock : st'.clocks id = st.clocks id
  toggles : st'.togglesOf id = st.togglesOf id
  callbacks : ∀ cb x, x.userData = id → (st'.callbacks cb = some x ↔ st.callbacks cb = some x)

lemma Frame.refl : Frame st st id := ⟨rfl, rfl, fun _ _ _ => Iff.rfl⟩

lemma Frame.trans (h : Frame st st' id) (h' : Frame st' st'' id) : Frame st st'' id :=
  ⟨h'.clock.trans h.clock, h'.toggles.trans h.toggles,
    fun cb x hx => (h'.callbacks cb x hx).trans (h.callbacks cb x hx)⟩

/-- The handles stay in order, and no other instance changes. -/
structure Local (st st' : State) (id : ClockID) : Prop where
  handles : Handles st'
  frame : ∀ id', id' ≠ id → Frame st st' id'

lemma Handles.refl (h : Handles st) : Local st st id := ⟨h, fun _ _ => .refl⟩

lemma Local.trans (h : Local st st' id) (h' : Local st' st'' id) : Local st st'' id :=
  ⟨h'.handles, fun id' hne => (h.frame id' hne).trans (h'.frame id' hne)⟩

/-- A handle that the instance may have. -/
def State.owns (st : State) (id : ClockID) (o : Option CbHandle) : Prop :=
  ∀ cb, o = some cb → cb < st.nextCb ∧ ∀ x, st.callbacks cb = some x → x.userData = id

lemma owns_none : st.owns id none := fun _ h => by cases h

lemma Handles.owns (h : Handles st) (hc : st.clocks id = some c) : st.owns id c.cbHandle :=
  fun cb hcb => ⟨h.handle id c cb hc hcb, fun x hx => h.owner id c cb x hc hcb hx⟩

namespace Handles

lemma of_eq (h : Handles st) (hclocks : st'.clocks = st.clocks)
    (hcallbacks : st'.callbacks = st.callbacks) (hnext : st'.nextClock = st.nextClock)
    (hnextCb : st'.nextCb = st.nextCb)
    (htoggles : ∀ id', id' ≠ id → st'.togglesOf id' = st.togglesOf id') :
    Local st st' id := by
  refine ⟨⟨?_, ?_, ?_, ?_⟩, fun id' hne => ⟨by rw [hclocks], htoggles id' hne, by simp [hcallbacks]⟩⟩
  · rw [hclocks, hnext]
    exact h.clock
  · rw [hcallbacks, hnextCb]
    exact h.callback
  · rw [hclocks, hnextCb]
    exact h.handle
  · rw [hclocks, hcallbacks]
    exact h.owner

lemma setClock (h : Handles st) (hid : id < st.nextClock) (hown : st.owns id c.cbHandle) :
    Local st (st.setClock id c) id := by
  have hsplit : ∀ id' c', (st.setClock id c).clocks id' = some c' →
      (id' = id ∧ c' = c) ∨ st.clocks id' = some c' := by
    intro id' c' hc'
    by_cases heq : id' = id
    · subst heq
      simp only [State.setClock, Function.update_self, Option.some.injEq] at hc'
      exact .inl ⟨rfl, hc'.symm⟩
    · simp only [State.setClock, Function.update_of_ne heq] at hc'
      exact .inr hc'
  refine ⟨⟨?_, h.callback, ?_, ?_⟩, fun id' hne => ⟨Function.update_of_ne hne _ _, rfl, ?_⟩⟩
  · intro id' c' hc'
    rcases hsplit id' c' hc' with ⟨rfl, rfl⟩ | hc'
    · exact hid
    · exact h.clock id' c' hc'
  · intro id' c' cb hc' hcb
    rcases hsplit id' c' hc' with ⟨rfl, rfl⟩ | hc'
    · exact (hown cb hcb).1
    · exact h.handle id' c' cb hc' hcb
  · intro id' c' cb x hc' hcb hx
    rcases hsplit id' c' hc' with ⟨rfl, rfl⟩ | hc'
    · exact (hown cb hcb).2 x hx
    · exact h.owner id' c' cb x hc' hcb hx
  · exact fun _ _ _ => Iff.rfl

lemma removeClock (h : Handles st) :
    Local st { st with clocks := Function.update st.clocks id none } id := by
  have hsplit : ∀ id' c', Function.update st.clocks id none id' = some c' →
      st.clocks id' = some c' := by
    intro id' c' hc'
    by_cases heq : id' = id
    · subst heq
      rw [Function.update_self] at hc'
      cases hc'
    · rwa [Function.update_of_ne heq] at hc'
  exact ⟨⟨fun id' c' hc' => h.clock id' c' (hsplit id' c' hc'), h.callback,
      fun id' c' cb hc' => h.handle id' c' cb (hsplit id' c' hc'),
      fun id' c' cb x hc' => h.owner id' c' cb x (hsplit id' c' hc')⟩,
    fun id' hne => ⟨Function.update_of_ne hne _ _, rfl, fun _ _ _ => Iff.rfl⟩⟩

lemma removeCallback (h : Handles st) (hown : ∀ x, st.callbacks cb = some x → x.userData = id) :
    Local st { st with callbacks := Function.update st.callbacks cb none } id := by
  have hsplit : ∀ cb' x, Function.update st.callbacks cb none cb' = some x →
      cb' ≠ cb ∧ st.callbacks cb' = some x := by
    intro cb' x hx
    by_cases heq : cb' = cb
    · subst heq
      rw [Function.update_self] at hx
      cases hx
    · exact ⟨heq, by rwa [Function.update_of_ne heq] at hx⟩
  refine ⟨⟨h.clock, fun cb' x hx => h.callback cb' x (hsplit cb' x hx).2, h.handle,
    fun id' c' cb' x hc' hcb hx => h.owner id' c' cb' x hc' hcb (hsplit cb' x hx).2⟩,
    fun id' hne => ⟨rfl, rfl, fun cb' x hx => ⟨fun hx' => (hsplit cb' x hx').2, fun hx' => ?_⟩⟩⟩
  have hne' : cb' ≠ cb := by
    intro heq
    subst heq
    exact hne (hx.symm.trans (hown x hx'))
  exact (Function.update_of_ne hne' _ _).trans hx'

lemma addCallback (h : Handles st) (id : ClockID) (delay : UInt64) :
    Local st { st with
      callbacks := Function.update st.callbacks st.nextCb (some ⟨id, delay⟩)
      nextCb := st.nextCb + 1 } id := by
  have hsplit : ∀ cb x, Function.update st.callbacks st.nextCb (some ⟨id, delay⟩) cb = some x →
      (cb = st.nextCb ∧ x.userData = id) ∨ st.callbacks cb = some x := by
    intro cb x hx
    by_cases heq : cb = st.nextCb
    · subst heq
      rw [Function.update_self, Option.some.injEq] at hx
      exact .inl ⟨rfl, hx ▸ rfl⟩
    · exact .inr (by rwa [Function.update_of_ne heq] at hx)
  refine ⟨⟨h.clock, fun cb x hx => ?_, fun id' c' cb hc' hcb => ?_, fun id' c' cb x hc' hcb hx => ?_⟩,
    fun id' hne => ⟨rfl, rfl, fun cb x hid => ⟨fun hx => ?_, fun hx => ?_⟩⟩⟩
  · rcases hsplit cb x hx with ⟨rfl, -⟩ | hx
    · exact Nat.lt_succ_self _
    · exact (h.callback cb x hx).trans (Nat.lt_succ_self _)
  · exact (h.handle id' c' cb hc' hcb).trans (Nat.lt_succ_self _)
  · rcases hsplit cb x hx with ⟨rfl, -⟩ | hx
    · exact absurd (h.handle id' c' _ hc' hcb) (Nat.lt_irrefl _)
    · exact h.owner id' c' cb x hc' hcb hx
  · rcases hsplit cb x hx with ⟨-, hid'⟩ | hx
    · exact absurd (hid.symm.trans hid') hne
    · exact hx
  · exact (Function.update_of_ne (Nat.ne_of_lt (h.callback cb x hx)) _ _).trans hx

lemma removeCb (h : Handles st) {o : Option CbHandle}
    (hown : ∀ cb, o = some cb → ∀ x, st.callbacks cb = some x → x.userData = id) :
    Local st (st.removeCb o) id := by
  cases o with
  | none => exact h.refl
  | some cb => exact h.removeCallback (hown cb rfl)

lemma stop (h : Handles st) (hid : id < st.nextClock) (hown : st.owns id c.cbHandle) :
    Local st (st.stop id c) id := by
  have hset : Local st (st.setClock id { c with cbHandle := none }) id :=
    h.setClock hid owns_none
  have hactive : Local (st.setClock id { c with cbHandle := none })
      { st.setClock id { c with cbHandle := none } with
        activeSignals := st.activeSignals.erase c.signalHdl } id :=
    hset.handles.of_eq rfl rfl rfl rfl fun _ _ => rfl
  have hboth := hset.trans hactive
  exact hboth.trans (hboth.handles.removeCb fun cb hcb => (hown cb hcb).2)

lemma free (h : Handles st) (hid : id < st.nextClock) (hown : st.owns id c.cbHandle) :
    Local st (st.free id c) id := by
  have hstop := h.stop hid hown
  have hremove : Local st { st.stop id c with
      clocks := Function.update (st.stop id c).clocks id none } id :=
    hstop.trans hstop.handles.removeClock
  rwa [stop_clocks, Function.update_idem] at hremove

lemma returns (h : Handles st) (ret : Ret) : Local st (st.returns id ret) id :=
  h.of_eq rfl rfl rfl rfl fun _ _ => rfl

lemma toggle (h : Handles st) (hid : id < st.nextClock) (hown : st.owns id c.cbHandle)
    (firstCall : Bool) : Local st (st.toggle id c firstCall) id := by
  have hset := h.setClock (c := { c with currentVal := c.currentVal ^^^ 1 }) hid hown
  refine hset.trans (hset.handles.of_eq rfl rfl rfl rfl fun id' hne => ?_)
  exact List.filter_cons_of_neg (by simpa using hne.symm)

lemma start (h : Handles st) (hc : st.clocks id = some c) (period high : UInt64)
    (startHigh : Bool) : Local st (st.start id c period high startHigh) id := by
  unfold State.start
  split_ifs
  · exact h.returns _
  · exact h.returns _
  · exact h.returns _
  all_goals
    have hactive : Local st { st with activeSignals := insert c.signalHdl st.activeSignals } id :=
      h.of_eq rfl rfl rfl rfl fun _ _ => rfl
    refine hactive.trans (hactive.handles.toggle (h.clock id c hc) ?_ true)
    exact fun cb hcb => h.owns hc cb hcb

lemma destroy (h : Handles st) (hc : st.clocks id = some c) : Local st (st.destroy id c) id := by
  have hid := h.clock id c hc
  unfold State.destroy
  split_ifs
  · exact h.stop hid fun cb hcb => h.owns hc cb hcb
  · exact h.free hid (h.owns hc)

lemma fire {x : Callback} (h : Handles st) (hx : st.callbacks cb = some x) :
    Local st (st.fire cb x.userData) x.userData := by
  have hremove : Local st { st with callbacks := Function.update st.callbacks cb none }
      x.userData := h.removeCallback fun y hy => by rw [hx] at hy; cases hy; rfl
  refine hremove.trans ?_
  unfold State.fire
  dsimp only
  cases hc : st.clocks x.userData with
  | none => exact hremove.handles.of_eq rfl rfl rfl rfl fun _ _ => rfl
  | some c =>
    have hid := h.clock _ c hc
    dsimp only
    split_ifs
    · exact hremove.handles.free hid owns_none
    · exact hremove.handles.toggle hid owns_none false

lemma toggled {t : Toggle} {ret : Ret} (h : Handles st) (hid : t.clock < st.nextClock)
    (hown : st.owns t.clock c.cbHandle) : Local st (st.toggled t c ret) t.clock := by
  have hset := h.setClock hid hown
  unfold State.toggled
  dsimp only
  split_ifs
  · exact hset.trans (hset.handles.returns ret)
  · exact h.free hid hown
  · exact h.setClock hid hown

lemma register {t : Toggle} {rest : List Toggle} {succeeds : Bool} (h : Handles st)
    (htoggles : st.toggles = t :: rest) : Local st (st.register t rest succeeds) t.clock := by
  have hpop : Local st { st with toggles := rest } t.clock := by
    refine h.of_eq rfl rfl rfl rfl fun id' hne => ?_
    unfold State.togglesOf
    rw [htoggles, List.filter_cons_of_neg (by simpa using hne.symm)]
  refine hpop.trans ?_
  unfold State.register
  dsimp only
  cases hc : st.clocks t.clock with
  | none => exact hpop.handles.of_eq rfl rfl rfl rfl fun _ _ => rfl
  | some c =>
    have hid := h.clock _ c hc
    cases succeeds with
    | true =>
      have hadd := hpop.handles.addCallback t.clock t.delay
      refine hadd.trans (hadd.handles.toggled hid fun cb hcb => ?_)
      cases hcb
      refine ⟨Nat.lt_succ_self _, fun x hx => ?_⟩
      have hx' : some (⟨t.clock, t.delay⟩ : Callback) = some x :=
        (Function.update_self st.nextCb _ st.callbacks).symm.trans hx
      exact congrArg Callback.userData (Option.some.inj hx').symm
    | false =>
      have hactive : Local { st with toggles := rest } { st with
          toggles := rest
          activeSignals :=
            if t.firstCall then st.activeSignals.erase c.signalHdl else st.activeSignals }
          t.clock := hpop.handles.of_eq rfl rfl rfl rfl fun _ _ => rfl
      exact hactive.trans (hactive.handles.toggled hid (h.owns hc))

end Handles

/-- The instance that a step is about. -/
def State.subject (st : State) : Act → Option ClockID
  | .new _ => some st.nextClock
  | .start id .. | .stop id | .destroy id | .drop id => some id
  | .fire cb => (st.callbacks cb).map Callback.userData
  | .register _ => st.toggles.head?.map Toggle.clock

theorem Handles.step (h : Handles st) (hs : st.step a = some st') :
    ∃ id, st.subject a = some id ∧ Local st st' id := by
  unfold State.step at hs
  by_cases hf : st.useAfterFree = true
  · rw [if_pos hf] at hs
    cases hs
  rw [if_neg hf] at hs
  cases a with
  | new signal =>
    cases hs
    have hnext : Handles { st with nextClock := st.nextClock + 1 } :=
      ⟨fun id c hc => (h.clock id c hc).trans (Nat.lt_succ_self _), h.callback, h.handle, h.owner⟩
    have hlocal : Local st { st with nextClock := st.nextClock + 1 } st.nextClock :=
      ⟨hnext, fun _ _ => ⟨rfl, rfl, fun _ _ _ => Iff.rfl⟩⟩
    exact ⟨_, rfl, hlocal.trans (hnext.setClock (Nat.lt_succ_self _) owns_none)⟩
  | start id period high startHigh =>
    obtain ⟨c, hc, rfl⟩ := Option.map_eq_some_iff.mp hs
    exact ⟨id, rfl, h.start hc period high startHigh⟩
  | stop id =>
    obtain ⟨c, hc, rfl⟩ := Option.map_eq_some_iff.mp hs
    exact ⟨id, rfl, h.stop (h.clock id c hc) (h.owns hc)⟩
  | destroy id =>
    obtain ⟨c, hc, rfl⟩ := Option.map_eq_some_iff.mp hs
    exact ⟨id, rfl, h.destroy hc⟩
  | drop id =>
    dsimp only at hs
    split_ifs at hs
    obtain ⟨c, hc, rfl⟩ := Option.map_eq_some_iff.mp hs
    exact ⟨id, rfl, h.free (h.clock id c hc) (h.owns hc)⟩
  | fire cb =>
    dsimp only at hs
    split_ifs at hs
    obtain ⟨x, hx, rfl⟩ := Option.map_eq_some_iff.mp hs
    exact ⟨x.userData, by simp [State.subject, hx], h.fire hx⟩
  | register succeeds =>
    cases htoggles : st.toggles with
    | nil => simp [htoggles] at hs
    | cons t rest =>
      rw [htoggles] at hs
      cases hs
      exact ⟨t.clock, by simp [State.subject, htoggles], h.register htoggles⟩

lemma Handles.init : Handles State.init where
  clock := fun _ _ hc => by cases hc
  callback := fun _ _ hx => by cases hx
  handle := fun _ _ _ hc => by cases hc
  owner := fun _ _ _ _ hc => by cases hc

theorem handles_of_reached {ok : State → Act → Prop} (h : State.Reached ok st) : Handles st := by
  refine Reach.invariant h Handles.init fun st a st' _ hinv _ hs => ?_
  obtain ⟨id, -, hlocal⟩ := hinv.step hs
  exact hlocal.handles

/-- While no step is about an instance, it stays as it is, with its toggles and the callbacks that
the simulator holds for it, whatever is done with the others. -/
theorem frame_of_reach {ok : State → Act → Prop} (h : State.Reached ok st)
    (hrun : Reach State.step (fun st a => st.subject a ≠ some id) st st') : Frame st st' id := by
  refine (Reach.invariant (I := fun st' => Handles st' ∧ Frame st st' id) hrun
    ⟨handles_of_reached h, .refl⟩ ?_).2
  rintro st₁ a st₂ - ⟨hinv, hframe⟩ hne hs
  obtain ⟨id', hid', hlocal⟩ := hinv.step hs
  refine ⟨hlocal.handles, hframe.trans (hlocal.frame id fun heq => hne ?_)⟩
  rw [hid', heq]

/-- Beside a running clock another one is started on the same signal in vain, and is destroyed. -/
def startsBeside : List Act := [.new 7, .start 1 10 5 true, .destroy 1]

theorem frame_of_startsBeside : ∃ st st',
    run State.step State.init [.new 7, .start 0 10 5 true, .register true] = some st ∧
    runChecked State.step (fun st a => st.subject a ≠ some 0) st startsBeside = some st' ∧
    st'.log = .started 1 .eexist :: st.log ∧ Frame st st' 0 := by
  have hrun : ((run State.step State.init [.new 7, .start 0 10 5 true, .register true]).bind
      fun st => (runChecked State.step (fun st a => st.subject a ≠ some 0) st startsBeside).map
        fun st' => decide (st'.log = .started 1 .eexist :: st.log)) = some true := by
    decide +kernel
  obtain ⟨st, hst, hrun⟩ := Option.bind_eq_some_iff.mp hrun
  obtain ⟨st', hst', hlog⟩ := Option.map_eq_some_iff.mp hrun
  exact ⟨st, st', hst, hst', of_decide_eq_true hlog,
    frame_of_reach (reach_of_run hst) (reach_of_runChecked hst')⟩

/-! ### Phases -/

structure Setting where
  signalHdl : Signal
  periodSteps : UInt64
  highSteps : UInt64
  currentVal : UInt8

namespace Setting

def clock (s : Setting) (cbHandle : Option CbHandle) (inCallback destroyPending : Bool) :
    NativeClock where
  signalHdl := s.signalHdl
  periodSteps := s.periodSteps
  highSteps := s.highSteps
  currentVal := s.currentVal
  cbHandle := cbHandle
  inCallback := inCallback
  destroyPending := destroyPending

def new (signal : Signal) : Setting := ⟨signal, 0, 0, 0⟩

def started (s : Setting) (period high : UInt64) (startHigh : Bool) : Setting :=
  { s with periodSteps := period, highSteps := high, currentVal := if startHigh then 1 else 0 }

/-- How long the level lasts that the next toggle writes. -/
def delay (s : Setting) : UInt64 :=
  if s.currentVal = 1 then s.highSteps else s.periodSteps - s.highSteps

def flipped (s : Setting) : Setting := { s with currentVal := s.currentVal ^^^ 1 }

end Setting

/-- What an instance is doing. -/
inductive Phase
  | absent
  | idle (s : Setting)
  | running (s : Setting) (cb : CbHandle) (delay : UInt64)
  /-- It is in the toggle of `start`. -/
  | starting (s : Setting) (delay : UInt64)
  /-- It is in the toggle of its callback. -/
  | called (s : Setting) (delay : UInt64) (destroyed : Bool)

namespace Phase

def clock : Phase → Option NativeClock
  | absent => none
  | idle s => some (s.clock none false false)
  | running s cb _ => some (s.clock (some cb) false false)
  | starting s _ => some (s.clock none false false)
  | called s _ destroyed => some (s.clock none true destroyed)

def toggles (id : ClockID) : Phase → List Toggle
  | starting _ delay => [⟨id, true, delay⟩]
  | called _ delay _ => [⟨id, false, delay⟩]
  | _ => []

def callback : Phase → Option (CbHandle × UInt64)
  | running _ cb delay => some (cb, delay)
  | _ => none

end Phase

/-- The instance is in the phase. -/
structure At (st : State) (id : ClockID) (p : Phase) : Prop where
  clock : st.clocks id = p.clock
  toggles : st.togglesOf id = p.toggles id
  callbacks : ∀ cb delay, st.callbacks cb = some ⟨id, delay⟩ ↔ p.callback = some (cb, delay)

/-- `start` refuses these. -/
def refuses (period high : UInt64) : Bool := period < 2 ∨ high < 1 ∨ high ≥ period

/-- What a step does to the instance that it is about, and the value that it writes. A callback that is
registered has the handle `next`. -/
inductive Moves (next : CbHandle) (id : ClockID) : Act → Phase → Phase → Option UInt8 → Prop
  | new {signal : Signal} : Moves next id (.new signal) .absent (.idle (.new signal)) none
  | refused {p : Phase} {period high : UInt64} {startHigh : Bool} :
      Moves next id (.start id period high startHigh) p p none
  | start {s : Setting} {period high : UInt64} {startHigh : Bool} (h : refuses period high = false) :
      Moves next id (.start id period high startHigh) (.idle s)
        (.starting (s.started period high startHigh).flipped (s.started period high startHigh).delay)
        (some (s.started period high startHigh).currentVal)
  | stopIdle {s : Setting} : Moves next id (.stop id) (.idle s) (.idle s) none
  | stopRunning {s : Setting} {cb : CbHandle} {delay : UInt64} :
      Moves next id (.stop id) (.running s cb delay) (.idle s) none
  | stopStarting {s : Setting} {delay : UInt64} :
      Moves next id (.stop id) (.starting s delay) (.starting s delay) none
  | stopCalled {s : Setting} {delay : UInt64} {destroyed : Bool} :
      Moves next id (.stop id) (.called s delay destroyed) (.called s delay destroyed) none
  | destroyIdle {s : Setting} : Moves next id (.destroy id) (.idle s) .absent none
  | destroyRunning {s : Setting} {cb : CbHandle} {delay : UInt64} :
      Moves next id (.destroy id) (.running s cb delay) .absent none
  | destroyCalled {s : Setting} {delay : UInt64} {destroyed : Bool} :
      Moves next id (.destroy id) (.called s delay destroyed) (.called s delay true) none
  | dropIdle {s : Setting} : Moves next id (.drop id) (.idle s) .absent none
  | dropRunning {s : Setting} {cb : CbHandle} {delay : UInt64} :
      Moves next id (.drop id) (.running s cb delay) .absent none
  | fire {s : Setting} {cb : CbHandle} {delay : UInt64} :
      Moves next id (.fire cb) (.running s cb delay) (.called s.flipped s.delay false)
        (some s.currentVal)
  | registerStarting {s : Setting} {delay : UInt64} :
      Moves next id (.register true) (.starting s delay) (.running s next delay) none
  | failStarting {s : Setting} {delay : UInt64} :
      Moves next id (.register false) (.starting s delay) (.idle s) none
  | registerCalled {s : Setting} {delay : UInt64} :
      Moves next id (.register true) (.called s delay false) (.running s next delay) none
  | failCalled {s : Setting} {delay : UInt64} :
      Moves next id (.register false) (.called s delay false) (.idle s) none
  | registerDestroyed {s : Setting} {delay : UInt64} {succeeds : Bool} :
      Moves next id (.register succeeds) (.called s delay true) .absent none

/-! ### Steps of the instance -/

/-- The instance whose toggle begins in a step, and the value that it writes. -/
def State.written (st st' : State) : Option (ClockID × UInt8) :=
  match st'.toggles, st'.log with
  | t :: rest, .set _ value :: _ =>
    if rest.length = st.toggles.length then some (t.clock, value) else none
  | _, _ => none

/-- Inside its own toggle an instance is started only if that is refused, and it is destroyed only if
the toggle is that of its callback. -/
def State.orderly (st : State) (id : ClockID) (a : Act) : Bool :=
  decide (¬ st.toggling id) ||
    match a with
    | .start id' period high _ => decide (id' ≠ id) || (st.clocks id).all fun c =>
        decide (c.signalHdl ∈ st.activeSignals) || refuses period high
    | .destroy id' => decide (id' ≠ id) || (st.clocks id).all NativeClock.inCallback
    | _ => true

variable {p p' : Phase} {x : Callback} {value : UInt8} {t : Toggle} {rest : List Toggle}

lemma toggling_iff : st.toggling id ↔ st.togglesOf id ≠ [] := by
  simp [State.toggling, State.togglesOf, List.filter_eq_nil_iff]

lemma written_eq_none (h : st'.toggles.length ≤ st.toggles.length) : st.written st' = none := by
  unfold State.written
  split
  · next t rest _ _ _ htoggles _ =>
    rw [htoggles, List.length_cons] at h
    exact if_neg (by omega)
  · rfl

lemma written_toggle (h : st'.toggles.length = st.toggles.length) (c : NativeClock)
    (firstCall : Bool) : st.written (st'.toggle id c firstCall) = some (id, c.currentVal) :=
  if_pos h

lemma stop_callbacks_iff : (st.stop id c).callbacks cb = some x ↔
    st.callbacks cb = some x ∧ c.cbHandle ≠ some cb := by
  constructor
  · exact stop_callbacks st id c
  · rintro ⟨hx, hne⟩
    unfold State.stop
    cases hcb : c.cbHandle with
    | none => exact hx
    | some cb' =>
      rw [hcb] at hne
      have hne' : cb ≠ cb' := fun heq => hne (heq ▸ rfl)
      exact (Function.update_of_ne hne' _ _).trans hx

lemma togglesOf_toggle (c : NativeClock) (firstCall : Bool) :
    (st.toggle id c firstCall).togglesOf id =
      ⟨id, firstCall, if c.currentVal = 1 then c.highSteps else c.periodSteps - c.highSteps⟩ ::
        st.togglesOf id :=
  List.filter_cons_of_pos (decide_eq_true rfl)

lemma togglesOf_congr (h : st'.toggles = st.toggles) : st'.togglesOf id = st.togglesOf id := by
  rw [State.togglesOf, State.togglesOf, h]

namespace At

lemma of_frame (h : At st id p) (hframe : Frame st st' id) : At st' id p where
  clock := hframe.clock.trans h.clock
  toggles := hframe.toggles.trans h.toggles
  callbacks := fun cb delay => (hframe.callbacks cb ⟨id, delay⟩ rfl).trans (h.callbacks cb delay)

lemma returns (h : At st id p) (ret : Ret) : At (st.returns id ret) id p :=
  ⟨h.clock, h.toggles, h.callbacks⟩

lemma free (htoggles : st.togglesOf id = [])
    (hcallback : ∀ cb delay, st.callbacks cb = some ⟨id, delay⟩ → c.cbHandle = some cb) :
    At (st.free id c) id .absent := by
  refine ⟨by simp [Phase.clock], ?_, fun cb delay => ?_⟩
  · rw [togglesOf_congr (free_toggles st id c), htoggles]
    rfl
  · change (st.stop id c).callbacks cb = _ ↔ _
    rw [stop_callbacks_iff]
    simp only [Phase.callback, reduceCtorEq, iff_false, not_and, not_not]
    exact hcallback cb delay

lemma stopped (h : At st id p) (hclock : p'.clock = some { c with cbHandle := none })
    (htoggles : p'.toggles id = p.toggles id) (hnone : p'.callback = none)
    (hcallback : ∀ cb delay, p.callback = some (cb, delay) → c.cbHandle = some cb) :
    At (st.stop id c) id p' := by
  refine ⟨by simp [hclock], ?_, fun cb delay => ?_⟩
  · rw [togglesOf_congr (stop_toggles st id c), h.toggles, htoggles]
  · rw [stop_callbacks_iff, h.callbacks, hnone]
    simp only [reduceCtorEq, iff_false, not_and, not_not]
    exact hcallback cb delay

end At

/-- The step takes the instance from its phase to another one. -/
def Advances (st st' : State) (id : ClockID) (a : Act) (p : Phase) : Prop :=
  ∃ p' w, At st' id p' ∧ Moves st.nextCb id a p p' w ∧ st.written st' = w.map (Prod.mk id)

lemma written_stop : st.written (st.stop id c) = none :=
  written_eq_none (by rw [stop_toggles])

lemma written_free : st.written (st.free id c) = none :=
  written_eq_none (by rw [free_toggles])

namespace At

lemma toggle (st : State) (s : Setting) (htoggles : st.togglesOf id = [])
    (hnone : ∀ cb delay, st.callbacks cb ≠ some ⟨id, delay⟩) :
    At (st.toggle id (s.clock none false false) true) id (.starting s.flipped s.delay) ∧
      At (st.toggle id (s.clock none true false) false) id (.called s.flipped s.delay false) := by
  have hcallbacks : ∀ cb delay, st.callbacks cb = some ⟨id, delay⟩ ↔
      (none : Option (CbHandle × UInt64)) = some (cb, delay) := by
    intro cb delay
    exact iff_of_false (hnone cb delay) (by simp)
  refine ⟨⟨Function.update_self id _ st.clocks, ?_, hcallbacks⟩,
    ⟨Function.update_self id _ st.clocks, ?_, hcallbacks⟩⟩
  · rw [togglesOf_toggle, htoggles]
    rfl
  · rw [togglesOf_toggle, htoggles]
    rfl

lemma new (h : At st st.nextClock p) (hh : Handles st) (signal : Signal) :
    Advances st (st.new signal) st.nextClock (.new signal) p := by
  have hnone : st.clocks st.nextClock = none := by
    cases hc : st.clocks st.nextClock with
    | none => rfl
    | some c => exact absurd (hh.clock _ c hc) (Nat.lt_irrefl _)
  have hclock := h.clock
  rw [hnone] at hclock
  cases p with
  | absent =>
    have hclock' : (st.new signal).clocks st.nextClock = (Phase.idle (.new signal)).clock :=
      Function.update_self st.nextClock _ st.clocks
    have hwritten : st.written (st.new signal) = none := written_eq_none le_rfl
    exact ⟨_, _, ⟨hclock', h.toggles, h.callbacks⟩, .new, hwritten⟩
  | idle | running | starting | called => cases hclock

lemma stop (h : At st id p) (hc : st.clocks id = some c) :
    Advances st (st.stop id c) id (.stop id) p := by
  have hclock := h.clock.symm.trans hc
  cases p with
  | absent => cases hclock
  | idle s =>
    cases hclock
    exact ⟨.idle s, _, h.stopped rfl rfl rfl (by simp [Phase.callback]), .stopIdle, written_stop⟩
  | running s cb delay =>
    cases hclock
    refine ⟨.idle s, _, h.stopped rfl rfl rfl ?_, .stopRunning, written_stop⟩
    intro cb' delay' heq
    cases heq
    rfl
  | starting s delay =>
    cases hclock
    exact ⟨.starting s delay, _, h.stopped rfl rfl rfl (by simp [Phase.callback]), .stopStarting,
      written_stop⟩
  | called s delay destroyed =>
    cases hclock
    exact ⟨.called s delay destroyed, _, h.stopped rfl rfl rfl (by simp [Phase.callback]),
      .stopCalled, written_stop⟩

lemma freed (h : At st id p) (hc : st.clocks id = some c) (htoggles : p.toggles id = []) :
    At (st.free id c) id .absent ∧ ((∃ s, p = .idle s) ∨ ∃ s cb delay, p = .running s cb delay) := by
  have hclock := h.clock.symm.trans hc
  have hrest := h.toggles.trans htoggles
  cases p with
  | absent => cases hclock
  | idle s =>
    refine ⟨free hrest fun cb delay hx => ?_, .inl ⟨s, rfl⟩⟩
    cases (h.callbacks cb delay).mp hx
  | running s cb delay =>
    cases hclock
    refine ⟨free hrest fun cb' delay' hx => ?_, .inr ⟨s, cb, delay, rfl⟩⟩
    cases (h.callbacks cb' delay').mp hx
    rfl
  | starting | called => cases htoggles

lemma destroy (h : At st id p) (hc : st.clocks id = some c)
    (hok : st.orderly id (.destroy id) = true) :
    Advances st (st.destroy id c) id (.destroy id) p := by
  have hclock := h.clock.symm.trans hc
  have hin : p.toggles id ≠ [] → c.inCallback = true := by
    intro htoggles
    have htog : st.toggling id := toggling_iff.mpr (h.toggles ▸ htoggles)
    simpa [State.orderly, htog, hc] using hok
  cases p with
  | absent => cases hclock
  | idle s =>
    cases hclock
    exact ⟨_, _, (h.freed hc rfl).1, .destroyIdle, written_free⟩
  | running s cb delay =>
    cases hclock
    exact ⟨_, _, (h.freed hc rfl).1, .destroyRunning, written_free⟩
  | starting s delay =>
    cases hclock
    cases hin (List.cons_ne_nil _ _)
  | called s delay destroyed =>
    cases hclock
    have heq : st.destroy id (s.clock none true destroyed) = st.stop id (s.clock none true true) := rfl
    rw [heq]
    exact ⟨.called s delay true, _, h.stopped rfl rfl rfl (by simp [Phase.callback]),
      .destroyCalled, written_stop⟩

lemma drop (h : At st id p) (hc : st.clocks id = some c) (hidle : ¬ st.toggling id) :
    Advances st (st.free id c) id (.drop id) p := by
  have htoggles : p.toggles id = [] := by
    by_contra hne
    exact hidle (toggling_iff.mpr (h.toggles ▸ hne))
  obtain ⟨hat, ⟨s, rfl⟩ | ⟨s, cb, delay, rfl⟩⟩ := h.freed hc htoggles
  · exact ⟨_, _, hat, .dropIdle, written_free⟩
  · exact ⟨_, _, hat, .dropRunning, written_free⟩

lemma start (h : At st id p) (hc : st.clocks id = some c) {period high : UInt64} {startHigh : Bool}
    (hok : st.orderly id (.start id period high startHigh) = true) :
    Advances st (st.start id c period high startHigh) id (.start id period high startHigh) p := by
  have hrefused : ∀ ret, Advances st (st.returns id ret) id (.start id period high startHigh) p :=
    fun ret => ⟨p, _, h.returns ret, .refused, written_eq_none le_rfl⟩
  have hclock := h.clock.symm.trans hc
  by_cases hrun : c.cbHandle.isSome = true
  · rw [State.start, if_pos hrun]
    exact hrefused _
  by_cases hactive : c.signalHdl ∈ st.activeSignals
  · rw [State.start, if_neg hrun, if_pos hactive]
    exact hrefused _
  by_cases hinvalid : period < 2 ∨ high < 1 ∨ high ≥ period
  · rw [State.start, if_neg hrun, if_neg hactive, if_pos hinvalid]
    exact hrefused _
  rw [State.start, if_neg hrun, if_neg hactive, if_neg hinvalid]
  have hrefuses : refuses period high = false := decide_eq_false hinvalid
  have hidle : p.toggles id = [] := by
    by_contra hne
    have htog : st.toggling id := toggling_iff.mpr (h.toggles ▸ hne)
    simp [State.orderly, htog, hc, hactive, hrefuses] at hok
  cases p with
  | absent => cases hclock
  | running => cases hclock; exact absurd rfl hrun
  | starting | called => cases hidle
  | idle s =>
    cases hclock
    set active : State := { st with activeSignals := insert s.signalHdl st.activeSignals }
    have hnone : ∀ cb delay, active.callbacks cb ≠ some ⟨id, delay⟩ := fun cb delay hx => by
      cases (h.callbacks cb delay).mp hx
    have hwritten : st.written (active.toggle id ((s.started period high startHigh).clock none false
        false) true) = some (id, (s.started period high startHigh).currentVal) :=
      written_toggle rfl _ _
    have hat := At.toggle active (s.started period high startHigh) h.toggles hnone
    exact ⟨_, _, hat.1, .start hrefuses, hwritten⟩

lemma fire (h : At st id p) (hx : st.callbacks cb = some x) (hid : x.userData = id) :
    Advances st (st.fire cb id) id (.fire cb) p := by
  subst hid
  obtain ⟨id, delay⟩ := x
  have hcallback := (h.callbacks cb delay).mp hx
  have hclock := h.clock
  cases p with
  | absent | idle | starting | called => cases hcallback
  | running s =>
    cases hcallback
    set rest : State := { st with callbacks := Function.update st.callbacks cb none }
    have hfire : st.fire cb id = rest.toggle id (s.clock none true false) false := by
      simp [State.fire, hclock, Phase.clock, Setting.clock, rest]
    have hnone : ∀ cb' delay', rest.callbacks cb' ≠ some ⟨id, delay'⟩ := by
      intro cb' delay' hx'
      by_cases heq : cb' = cb
      · subst heq
        simp [rest] at hx'
      · simp only [rest, Function.update_of_ne heq, h.callbacks, Phase.callback, Option.some.injEq,
          Prod.mk.injEq] at hx'
        exact heq hx'.1.symm
    have hat := At.toggle rest s h.toggles hnone
    have hwritten : st.written (rest.toggle id (s.clock none true false) false) =
        some (id, s.currentVal) := written_toggle rfl _ _
    rw [hfire]
    exact ⟨_, _, hat.2, .fire, hwritten⟩

lemma registered (st : State) (s : Setting) (hrest : st.togglesOf id = [])
    (hnone : ∀ cb delay, st.callbacks cb ≠ some ⟨id, delay⟩) (delay : UInt64)
    (hclocks : st'.clocks id = some (s.clock (some st.nextCb) false false))
    (htoggles : st'.toggles = st.toggles)
    (hcallbacks : st'.callbacks = Function.update st.callbacks st.nextCb (some ⟨id, delay⟩)) :
    At st' id (.running s st.nextCb delay) := by
  refine ⟨hclocks, (togglesOf_congr htoggles).trans hrest, fun cb delay' => ?_⟩
  rw [hcallbacks]
  by_cases heq : cb = st.nextCb
  · subst heq
    simp [Phase.callback]
  · rw [Function.update_of_ne heq]
    refine iff_of_false (hnone cb delay') fun hcb => ?_
    cases hcb
    exact heq rfl

lemma failed (st : State) (s : Setting) (hrest : st.togglesOf id = [])
    (hnone : ∀ cb delay, st.callbacks cb ≠ some ⟨id, delay⟩)
    (hclocks : st'.clocks id = some (s.clock none false false))
    (htoggles : st'.toggles = st.toggles) (hcallbacks : st'.callbacks = st.callbacks) :
    At st' id (.idle s) := by
  refine ⟨hclocks, (togglesOf_congr htoggles).trans hrest, fun cb delay => ?_⟩
  rw [hcallbacks]
  exact iff_of_false (hnone cb delay) (by simp [Phase.callback])

lemma register (h : At st id p) (htoggles : st.toggles = t :: rest) (hid : t.clock = id)
    (succeeds : Bool) : Advances st (st.register t rest succeeds) id (.register succeeds) p := by
  set popped : State := { st with toggles := rest }
  have hpopped : st.togglesOf id = t :: popped.togglesOf id := by
    unfold State.togglesOf
    rw [htoggles]
    exact List.filter_cons_of_pos (decide_eq_true hid)
  have hsplit := hpopped.symm.trans h.toggles
  have hwritten : ∀ st' : State, st'.toggles = rest → st.written st' = none := by
    intro st' heq
    refine written_eq_none ?_
    rw [heq, htoggles]
    exact Nat.le_succ _
  have hclock := h.clock
  cases p with
  | absent | idle | running => cases hsplit
  | starting s delay =>
    have hnone : ∀ cb delay, st.callbacks cb ≠ some ⟨id, delay⟩ := fun cb delay hx => by
      cases (h.callbacks cb delay).mp hx
    obtain ⟨rfl, hrest⟩ := List.cons.inj hsplit
    cases succeeds with
    | true =>
      have heq : st.register ⟨id, true, delay⟩ rest true = { st with
          clocks := Function.update st.clocks id (some (s.clock (some st.nextCb) false false))
          toggles := rest
          callbacks := Function.update st.callbacks st.nextCb (some ⟨id, delay⟩)
          nextCb := st.nextCb + 1
          log := .started id .success :: st.log } := by
        simp [State.register, State.toggled, State.returns, State.setClock, hclock, Phase.clock,
          Setting.clock]
      rw [heq]
      exact ⟨_, _, registered popped s hrest hnone delay (Function.update_self ..) rfl rfl,
        .registerStarting, hwritten _ rfl⟩
    | false =>
      have heq : st.register ⟨id, true, delay⟩ rest false = { st with
          clocks := Function.update st.clocks id (some (s.clock none false false))
          toggles := rest
          activeSignals := st.activeSignals.erase s.signalHdl
          log := .started id .eio :: st.log } := by
        simp [State.register, State.toggled, State.returns, State.setClock, hclock, Phase.clock,
          Setting.clock]
      rw [heq]
      exact ⟨_, _, failed popped s hrest hnone (Function.update_self ..) rfl rfl,
        .failStarting, hwritten _ rfl⟩
  | called s delay destroyed =>
    have hnone : ∀ cb delay, st.callbacks cb ≠ some ⟨id, delay⟩ := fun cb delay hx => by
      cases (h.callbacks cb delay).mp hx
    obtain ⟨rfl, hrest⟩ := List.cons.inj hsplit
    cases destroyed with
    | false =>
      cases succeeds with
      | true =>
        have heq : st.register ⟨id, false, delay⟩ rest true = { st with
            clocks := Function.update st.clocks id (some (s.clock (some st.nextCb) false false))
            toggles := rest
            callbacks := Function.update st.callbacks st.nextCb (some ⟨id, delay⟩)
            nextCb := st.nextCb + 1 } := by
          simp [State.register, State.toggled, State.setClock, hclock, Phase.clock, Setting.clock]
        rw [heq]
        exact ⟨_, _, registered popped s hrest hnone delay (Function.update_self ..) rfl rfl,
          .registerCalled, hwritten _ rfl⟩
      | false =>
        have heq : st.register ⟨id, false, delay⟩ rest false = { st with
            clocks := Function.update st.clocks id (some (s.clock none false false))
            toggles := rest } := by
          simp [State.register, State.toggled, State.setClock, hclock, Phase.clock, Setting.clock]
        rw [heq]
        exact ⟨_, _, failed popped s hrest hnone (Function.update_self ..) rfl rfl,
          .failCalled, hwritten _ rfl⟩
    | true =>
      -- the callback that has just been registered is removed with the instance
      cases succeeds with
      | true =>
        have heq : st.register ⟨id, false, delay⟩ rest true = State.free { st with
            toggles := rest
            callbacks := Function.update st.callbacks st.nextCb (some ⟨id, delay⟩)
            nextCb := st.nextCb + 1 } id (s.clock (some st.nextCb) false true) := by
          simp [State.register, State.toggled, hclock, Phase.clock, Setting.clock]
        rw [heq]
        refine ⟨_, _, free hrest fun cb delay' hx => ?_, .registerDestroyed,
          hwritten _ (free_toggles ..)⟩
        by_cases hcb : cb = st.nextCb
        · rw [hcb]
          rfl
        · exact absurd ((Function.update_of_ne hcb _ _).symm.trans hx) (hnone cb delay')
      | false =>
        have heq : st.register ⟨id, false, delay⟩ rest false =
            State.free popped id (s.clock none false true) := by
          simp [State.register, State.toggled, hclock, Phase.clock, Setting.clock, popped]
        rw [heq]
        refine ⟨_, _, free hrest fun cb delay' hx => ?_, .registerDestroyed,
          hwritten _ (free_toggles ..)⟩
        exact absurd hx (hnone cb delay')

end At

lemma toggled_toggles {ret : Ret} : (st.toggled t c ret).toggles = st.toggles := by
  unfold State.toggled
  dsimp only
  split_ifs
  · rfl
  · exact free_toggles ..
  · rfl

lemma register_toggles {succeeds : Bool} : (st.register t rest succeeds).toggles = rest := by
  unfold State.register
  dsimp only
  cases st.clocks t.clock with
  | none => rfl
  | some c => cases succeeds <;> exact toggled_toggles

lemma subject_of_written (hs : st.step a = some st') (hw : st.written st' = some (id, value)) :
    st.subject a = some id := by
  have hsame : st'.toggles.length ≤ st.toggles.length → st.subject a = some id := by
    intro hle
    rw [written_eq_none hle] at hw
    cases hw
  unfold State.step at hs
  by_cases hf : st.useAfterFree = true
  · rw [if_pos hf] at hs
    cases hs
  rw [if_neg hf] at hs
  cases a with
  | new signal =>
    cases hs
    exact hsame le_rfl
  | start id' period high startHigh =>
    obtain ⟨c, hc, rfl⟩ := Option.map_eq_some_iff.mp hs
    unfold State.start at hsame hw
    split_ifs at hsame hw
    · exact hsame le_rfl
    · exact hsame le_rfl
    · exact hsame le_rfl
    all_goals
      have heq := Option.some.inj ((if_pos rfl).symm.trans hw)
      exact congrArg (fun x => some x.1) heq
  | stop id' =>
    obtain ⟨c, hc, rfl⟩ := Option.map_eq_some_iff.mp hs
    exact hsame (by rw [stop_toggles])
  | destroy id' =>
    obtain ⟨c, hc, rfl⟩ := Option.map_eq_some_iff.mp hs
    refine hsame ?_
    unfold State.destroy
    split_ifs
    · rw [stop_toggles]
    · rw [free_toggles]
  | drop id' =>
    dsimp only at hs
    split_ifs at hs
    obtain ⟨c, hc, rfl⟩ := Option.map_eq_some_iff.mp hs
    exact hsame (by rw [free_toggles])
  | fire cb =>
    dsimp only at hs
    split_ifs at hs
    obtain ⟨x, hx, rfl⟩ := Option.map_eq_some_iff.mp hs
    unfold State.fire at hsame hw
    dsimp only at hsame hw
    cases hc : st.clocks x.userData with
    | none =>
      simp only [hc] at hsame
      exact hsame le_rfl
    | some c =>
      simp only [hc] at hsame hw
      split_ifs at hsame hw
      · exact hsame (by rw [free_toggles])
      · have heq := Option.some.inj ((if_pos rfl).symm.trans hw)
        simp only [State.subject, hx, Option.map_some]
        exact congrArg (fun x => some x.1) heq
  | register succeeds =>
    cases htoggles : st.toggles with
    | nil => simp [htoggles] at hs
    | cons t rest =>
      rw [htoggles] at hs
      cases hs
      refine hsame ?_
      rw [register_toggles, htoggles]
      exact Nat.le_succ _

/-- What every step does to an instance. -/
theorem At.step (h : At st id p) (hh : Handles st) (hok : st.orderly id a = true)
    (hs : st.step a = some st') :
    (st.subject a = some id ∧ Advances st st' id a p) ∨
      (st.subject a ≠ some id ∧ At st' id p ∧ ∀ value, st.written st' ≠ some (id, value)) := by
  obtain ⟨id', hsubject, hlocal⟩ := hh.step hs
  by_cases hid : id' = id
  · subst hid
    refine .inl ⟨hsubject, ?_⟩
    unfold State.step at hs
    by_cases hf : st.useAfterFree = true
    · rw [if_pos hf] at hs
      cases hs
    rw [if_neg hf] at hs
    cases a with
    | new signal =>
      cases hs
      cases hsubject
      exact h.new hh signal
    | start id period high startHigh =>
      cases hsubject
      obtain ⟨c, hc, rfl⟩ := Option.map_eq_some_iff.mp hs
      exact h.start hc hok
    | stop id =>
      cases hsubject
      obtain ⟨c, hc, rfl⟩ := Option.map_eq_some_iff.mp hs
      exact h.stop hc
    | destroy id =>
      cases hsubject
      obtain ⟨c, hc, rfl⟩ := Option.map_eq_some_iff.mp hs
      exact h.destroy hc hok
    | drop id =>
      cases hsubject
      dsimp only at hs
      split_ifs at hs with hidle
      obtain ⟨c, hc, rfl⟩ := Option.map_eq_some_iff.mp hs
      exact h.drop hc hidle
    | fire cb =>
      dsimp only at hs
      split_ifs at hs
      obtain ⟨x, hx, rfl⟩ := Option.map_eq_some_iff.mp hs
      simp only [State.subject, hx, Option.map_some, Option.some.injEq] at hsubject
      rw [hsubject]
      exact h.fire hx hsubject
    | register succeeds =>
      cases htoggles : st.toggles with
      | nil => simp [htoggles] at hs
      | cons t rest =>
        rw [htoggles] at hs
        cases hs
        simp only [State.subject, htoggles, List.head?_cons, Option.map_some,
          Option.some.injEq] at hsubject
        exact h.register htoggles hsubject succeeds
  · right
    have hne : st.subject a ≠ some id := fun heq => hid (Option.some.inj (hsubject.symm.trans heq))
    exact ⟨hne, h.of_frame (hlocal.frame id (Ne.symm hid)),
      fun value hw => hne (subject_of_written hs hw)⟩

lemma At.init : At State.init id .absent :=
  ⟨rfl, rfl, fun _ _ => iff_of_false (by simp [State.init]) (by simp [Phase.callback])⟩

theorem exists_phase (h : State.Reached (fun st a => st.orderly id a = true) st) :
    ∃ p, At st id p := by
  refine Reach.invariant (I := fun st => ∃ p, At st id p) h ⟨_, At.init⟩ ?_
  rintro st a st' hreach ⟨p, hat⟩ hok hs
  rcases hat.step (handles_of_reached hreach) hok hs with ⟨-, p', -, hat', -⟩ | ⟨-, hat', -⟩
  · exact ⟨p', hat'⟩
  · exact ⟨p, hat'⟩

end Verilua.Clock
