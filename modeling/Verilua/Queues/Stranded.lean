import Verilua.Queues.Placed

/-!
# No consumer is left behind

Values come out of a waitable queue in the order in which they went in, each of them once. A task
that waits in `pop_waitable` is on the list of the queue's event, and if the queue is not empty a
send of the event is unhandled, so that nobody waits once no `schedule_task` is in progress.
-/

namespace Verilua.Queues

open Fifo TransitionSystem

variable {Q V : Type*} {c : Methods Q V} {okay : Q → Prop} {contents : Q → List V}
  {s s' : State Q V} {m : Machine} {a : Verilua.Act} {id : TaskID} {th : ThreadID}

/-! ### First in, first out -/

@[simp] lemma pushed_cons_pushed (v : V) : State.pushed { s with log := .pushed id v :: s.log } =
    s.pushed ++ [v] := by
  simp [State.pushed]

@[simp] lemma popped_cons_popped (v : V) : State.popped { s with log := .popped id v :: s.log } =
    s.popped ++ [v] := by
  simp [State.popped]

/-- The queue is sound, and what was stored and has not been returned is in it. -/
structure InOrder (okay : Q → Prop) (contents : Q → List V) (s : State Q V) : Prop where
  queue : okay s.queue
  fifo : s.pushed = s.popped ++ contents s.queue

lemma InOrder.pushWaitable (hc : Ordered c okay contents) (h : InOrder okay contents s) (v : V) :
    InOrder okay contents (s.pushWaitable c id th v) := by
  unfold State.pushWaitable
  split
  · exact ⟨h.queue, h.fifo⟩
  · next q hq =>
    obtain ⟨hok, hcontents⟩ := hc.push h.queue hq
    refine ⟨hok, ?_⟩
    show State.pushed { s with log := .pushed id v :: s.log } = s.popped ++ contents q
    rw [pushed_cons_pushed, h.fifo, hcontents, List.append_assoc]

lemma InOrder.popWaitable (hc : Ordered c okay contents) (h : InOrder okay contents s)
    (hs : s.popWaitable c id th = some s') : InOrder okay contents s' := by
  unfold State.popWaitable at hs
  split_ifs at hs
  · obtain ⟨m, -, rfl⟩ := Option.map_eq_some_iff.mp hs
    exact ⟨h.queue, h.fifo⟩
  · split at hs
    · cases hs
      exact ⟨h.queue, h.fifo⟩
    · next v q hq =>
      cases hs
      obtain ⟨hok, hcontents⟩ := hc.pop h.queue hq
      refine ⟨hok, ?_⟩
      show s.pushed = State.popped { s with log := .popped id v :: s.log } ++ contents q
      rw [popped_cons_popped, h.fifo, hcontents, List.append_assoc]
      rfl

/-! ### What a step can do -/

/-- The outcomes of a step. -/
inductive Outcome (c : Methods Q V) (s : State Q V) : State Q V → Prop
  | core (a : Verilua.Act) (m : Machine) (hout : s.outside = true) (hu : uses s.ehdl a = false)
      (hs : s.core.step a = some m) : Outcome c s { s with core := m }
  | push (id : TaskID) (th : ThreadID) (oldCurr rest v) (hf : s.core.fault = none)
      (hs : s.core.stack = .body id th oldCurr :: rest) (hctl : s.ctl th = .user) :
      Outcome c s (s.pushWaitable c id th v)
  | send (id : TaskID) (th : ThreadID) (oldCurr rest) (m : Machine)
      (hs : s.core.stack = .body id th oldCurr :: rest) (hctl : s.ctl th = .pushWaitable)
      (hm : s.core.step (.send s.ehdl) = some m) :
      Outcome c s (State.setCtl { s with core := m } th .user)
  | pop (id : TaskID) (th : ThreadID) (oldCurr rest) {s' : State Q V} (hf : s.core.fault = none)
      (hs : s.core.stack = .body id th oldCurr :: rest) (hctl : s.ctl th ≠ .pushWaitable)
      (hpop : s.popWaitable c id th = some s') : Outcome c s s'

lemma Outcome.of_step {a : Act V} (h : s.step c a = some s') : Outcome c s s' := by
  unfold State.step at h
  split at h
  · next a =>
    split_ifs at h with hout
    obtain ⟨m, hm, rfl⟩ := Option.map_eq_some_iff.mp h
    simp only [Bool.and_eq_true, Bool.not_eq_true'] at hout
    exact .core a m hout.1 hout.2 hm
  · next v =>
    split at h
    · next id th oldCurr rest hf hs =>
      split_ifs at h with hctl
      cases h
      exact .push id th oldCurr rest v hf hs hctl
    · cases h
  · split at h
    · next id th oldCurr rest hs =>
      split_ifs at h with hctl
      obtain ⟨m, hm, rfl⟩ := Option.map_eq_some_iff.mp h
      exact .send id th oldCurr rest m hs hctl hm
    · cases h
  · split at h
    · next id th oldCurr rest hf hs =>
      split_ifs at h with hctl
      exact .pop id th oldCurr rest hf hs hctl h
    · cases h

lemma InOrder.step (hc : Ordered c okay contents) (h : InOrder okay contents s)
    (hr : Outcome c s s') : InOrder okay contents s' := by
  cases hr with
  | core | send => exact ⟨h.queue, h.fifo⟩
  | push id th oldCurr rest v => exact h.pushWaitable hc v
  | pop _ _ _ _ _ _ _ hpop => exact h.popWaitable hc hpop

/-! ### The invariant -/

structure Live (contents : Q → List V) (s : State Q V) : Prop where
  name : s.core.sched.eventNameMap s.ehdl ≠ none
  known : ∀ th, s.ctl th ≠ .user → (s.core.threads th).isSome
  /-- `push_waitable` gets to its `send` before anything else runs. -/
  pushing : ∀ th, s.ctl th = .pushWaitable →
    ∃ id oldCurr rest, s.core.stack = .body id th oldCurr :: rest
  /-- Who is in `pop_waitable` is on the list of the event, or a call leads to it. -/
  placed : ∀ id th, s.core.sched.taskCoroutineMap id = some th → s.ctl th = .popWaitable →
    removeCalled id s.core.log = false →
      id ∉ s.core.sched.userRemovalTasksSet ∧ s.core.Placed s.ehdl id th
  /-- While somebody is on the list and the queue is not empty, a send is on its way. -/
  sent : contents s.queue ≠ [] → s.core.bus.waiting s.ehdl ≠ [] →
    s.ehdl ∈ s.core.bus.unhandled ∨ ∃ th, s.ctl th = .pushWaitable
  busy : contents s.queue ≠ [] → s.core.bus.waiting s.ehdl ≠ [] → s.core.Busy

section Core

variable (hreach : Machine.Reached .normal Unguarded s.core) (hs : s.core.step a = some m)
  (hf : m.fault = none)

include hreach hs hf

lemma Live.placed_step (h : Live contents s) (hnew : ∀ name, a ≠ .newEventHdl name (some s.ehdl))
    (hth : m.sched.taskCoroutineMap id = some th) (hctl : s.ctl th = .popWaitable)
    (hrem : removeCalled id m.log = false)
    (hout : ∀ id' oldCurr rest, s.core.stack ≠ .body id' th oldCurr :: rest) :
    id ∉ m.sched.userRemovalTasksSet ∧ m.Placed s.ehdl id th := by
  obtain ⟨hfm, hr⟩ := Rule.of_step hs
  have hsome := h.known th (by simp [hctl])
  have hno := hr.not_installs (coroutines_of_reached hreach hfm) hf hth hsome
  have hth' : s.core.sched.taskCoroutineMap id = some th := by
    rw [← hth]
    exact (hr.coroutine_eq hf hno).symm
  have hrem' : removeCalled id s.core.log = false := by
    by_contra hcalled
    have hcalled' := hr.removeCalled_mono hf hno (by simpa using hcalled)
    exact absurd (hrem.symm.trans hcalled') (by simp)
  obtain ⟨hflag, hplaced⟩ := h.placed id th hth' hctl hrem'
  exact ⟨hr.notMem_flags hf hflag hrem, hr.placed hf h.name hnew hth' hflag hrem hout hplaced⟩

lemma Live.sent_step (h : Live contents s) (hwait : a ≠ .wait s.ehdl)
    (hinsert : a ≠ .insertWaiter s.ehdl) (hpush : ∀ th, s.ctl th ≠ .pushWaitable)
    (hq : contents s.queue ≠ []) (hw : m.bus.waiting s.ehdl ≠ []) :
    s.ehdl ∈ m.bus.unhandled ∧ m.Busy := by
  obtain ⟨hfm, hr⟩ := Rule.of_step hs
  have hd := flagDown_of_reached hreach hfm
  obtain ⟨hmem, hun⟩ :=
    hr.waiting_unhandled (behind_of_reached hreach hfm) hd hf hwait hinsert
  have hw' : s.core.bus.waiting s.ehdl ≠ [] := by
    obtain ⟨w, hmem'⟩ := List.exists_mem_of_ne_nil _ hw
    exact List.ne_nil_of_mem (hmem w hmem')
  have hsent : s.ehdl ∈ m.bus.unhandled := by
    refine hun ((h.sent hq hw').resolve_right ?_) hw
    rintro ⟨th, hth⟩
    exact hpush th hth
  refine ⟨hsent, (hr.busy hd hf (h.busy hq hw')).resolve_right ?_⟩
  rintro ⟨hflag, hloops⟩
  have hbehind := behind_of_reached (hreach.tail trivial hs) hf
  rw [EventBus.Bus.unhandled, hbehind.pending_eq_nil hflag hloops] at hsent
  simp at hsent

lemma Live.core (h : Live contents s) (hout : s.outside = true) (hu : uses s.ehdl a = false) :
    Live contents { s with core := m } := by
  obtain ⟨hfm, hr⟩ := Rule.of_step hs
  have htop : ∀ id th oldCurr rest, s.core.stack = .body id th oldCurr :: rest →
      s.ctl th = .user := by
    intro id th oldCurr rest hstack
    simpa [State.outside, hstack] using hout
  have hpush : ∀ th, s.ctl th ≠ .pushWaitable := by
    intro th hth
    obtain ⟨id, oldCurr, rest, hstack⟩ := h.pushing th hth
    exact absurd (hth.symm.trans (htop id th oldCurr rest hstack)) (by simp)
  have hne : ∀ {a' : Verilua.Act}, uses s.ehdl a' = true → a ≠ a' := by
    rintro a' ha' rfl
    exact absurd (ha'.symm.trans hu) (by simp)
  have hsent := h.sent_step hreach hs hf (hne (by simp [uses])) (hne (by simp [uses])) hpush
  refine ⟨hr.eventNameMap_ne_none hf (hne (by simp [uses])) h.name,
    fun th hth => hr.threads_isSome hf (h.known th hth), fun th hth => absurd hth (hpush th), ?_,
    fun hq hw => .inl (hsent hq hw).1, fun hq hw => (hsent hq hw).2⟩
  intro id th hth hctl hrem
  refine Live.placed_step (s := s) hreach hs hf h (fun name => hne (by simp [uses])) hth hctl hrem ?_
  intro id' oldCurr rest hstack
  exact absurd (hctl.symm.trans (htop id' th oldCurr rest hstack)) (by simp)

end Core

lemma Live.pushWaitable {oldCurr : TaskID} {rest : List Frame} (h : Live contents s)
    (hreach : Machine.Reached .normal Unguarded s.core) (hf : s.core.fault = none)
    (hs : s.core.stack = .body id th oldCurr :: rest) (hctl : s.ctl th = .user) (v : V) :
    Live contents (s.pushWaitable c id th v) := by
  unfold State.pushWaitable
  split
  · exact ⟨h.name, h.known, h.pushing, h.placed, h.sent, h.busy⟩
  · next q hq =>
    have hrun : (id, th) ∈ s.core.runs := List.mem_filterMap.mpr ⟨_, hs ▸ List.mem_cons_self, rfl⟩
    have hsome := ((coroutines_of_reached hreach hf).runs _ hrun).1
    refine ⟨h.name, fun th' hth => ?_, fun th' hth => ?_, fun id' th' hid hth => ?_,
      fun _ _ => .inr ⟨th, State.setCtl_ctl ..⟩, fun _ _ => .of_cons hs rfl⟩
    all_goals
      by_cases heq : th' = th
    · exact heq ▸ hsome
    · rw [State.setCtl_ctl_of_ne _ heq] at hth
      exact h.known th' hth
    · exact ⟨id, oldCurr, rest, heq ▸ hs⟩
    · rw [State.setCtl_ctl_of_ne _ heq] at hth
      exact h.pushing th' hth
    · subst heq
      simp at hth
    · rw [State.setCtl_ctl_of_ne _ heq] at hth
      exact h.placed id' th' hid hth

lemma Live.send {oldCurr : TaskID} {rest : List Frame} (h : Live contents s)
    (hreach : Machine.Reached .normal Unguarded s.core)
    (hs : s.core.stack = .body id th oldCurr :: rest)
    (hm : s.core.step (.send s.ehdl) = some m) (hf : m.fault = none) :
    Live contents (State.setCtl { s with core := m } th .user) := by
  obtain ⟨hfm, hr⟩ := Rule.of_step hm
  have honly : ∀ th', s.ctl th' = .pushWaitable → th' = th := by
    intro th' hth
    obtain ⟨id', oldCurr', rest', hs'⟩ := h.pushing th' hth
    rw [hs] at hs'
    cases hs'
    rfl
  refine ⟨hr.eventNameMap_ne_none hf (by simp) h.name, fun th' hth => ?_, fun th' hth => ?_,
    fun id' th' hid hth hrem => ?_, fun _ _ => .inl ?_, fun _ _ => ?_⟩
  · by_cases heq : th' = th
    · simp [heq] at hth
    · rw [State.setCtl_ctl_of_ne _ heq] at hth
      exact hr.threads_isSome hf (h.known th' hth)
  · by_cases heq : th' = th
    · simp [heq] at hth
    · rw [State.setCtl_ctl_of_ne _ heq] at hth
      exact absurd (honly th' hth) heq
  · by_cases heq : th' = th
    · simp [heq] at hth
    · rw [State.setCtl_ctl_of_ne _ heq] at hth
      refine Live.placed_step (s := s) hreach hm hf h (by simp) hid hth hrem ?_
      intro id₁ oldCurr₁ rest₁ hs₁
      rw [hs] at hs₁
      cases hs₁
      exact heq rfl
  · rw [hr.eq_sendEvent hf]
    exact mem_unhandled_sendEvent (behind_of_reached hreach hfm) s.ehdl
  · rw [hr.eq_sendEvent hf]
    exact .of_cons hs rfl

lemma Live.wait {oldCurr : TaskID} {rest : List Frame} (h : Live contents s)
    (hreach : Machine.Reached .normal Unguarded s.core)
    (hs : s.core.stack = .body id th oldCurr :: rest) (hctl : s.ctl th ≠ .pushWaitable)
    (hempty : contents s.queue = []) (hm : s.core.step (.wait s.ehdl) = some m)
    (hf : m.fault = none) : Live contents (State.setCtl { s with core := m } th .popWaitable) := by
  obtain ⟨hfm, hr⟩ := Rule.of_step hm
  have hc := coroutines_of_reached hreach hfm
  have hrun : (id, th) ∈ s.core.runs := List.mem_filterMap.mpr ⟨_, hs ▸ List.mem_cons_self, rfl⟩
  refine ⟨hr.eventNameMap_ne_none hf (by simp) h.name, fun th' hth => ?_, fun th' hth => ?_,
    fun id' th' hid hth hrem => ?_, fun hq => absurd hempty hq, fun hq => absurd hempty hq⟩
  · by_cases heq : th' = th
    · subst heq
      exact hr.threads_isSome hf (hc.runs _ hrun).1
    · rw [State.setCtl_ctl_of_ne _ heq] at hth
      exact hr.threads_isSome hf (h.known th' hth)
  · by_cases heq : th' = th
    · simp [heq] at hth
    · rw [State.setCtl_ctl_of_ne _ heq] at hth
      obtain ⟨id₁, oldCurr₁, rest₁, hs₁⟩ := h.pushing th' hth
      rw [hs] at hs₁
      cases hs₁
      exact absurd rfl heq
  · by_cases heq : th' = th
    · subst heq
      obtain ⟨⟨w, hw, hwid⟩, hmap, hflags, hlog⟩ := hr.wait_spec hf
      obtain rfl : id' = id := (hc.runs _ hrun).2 id' (hmap ▸ hid)
      have hcurr : s.core.sched.currTaskId = id' := by
        rw [(currentTask_of_reached hreach hfm).curr, hs]
        rfl
      have hflag := runningUnflagged_of_reached hreach hfm id' th' oldCurr
        (hs ▸ List.mem_cons_self) (hmap ▸ hid) ((hlog id').symm.trans hrem)
      exact ⟨hflags ▸ hflag, .inl ⟨w, hw, hwid.trans hcurr⟩⟩
    · rw [State.setCtl_ctl_of_ne _ heq] at hth
      refine Live.placed_step (s := s) hreach hm hf h (by simp) hid hth hrem ?_
      intro id₁ oldCurr₁ rest₁ hs₁
      rw [hs] at hs₁
      cases hs₁
      exact heq rfl

lemma Live.popped (h : Live contents s) (hctl : s.ctl th ≠ .pushWaitable) {v : V} {q : Q}
    (hq : contents s.queue = v :: contents q) :
    Live contents (State.setCtl { s with queue := q, log := .popped id v :: s.log } th .user) := by
  have hne : contents s.queue ≠ [] := by simp [hq]
  have hold : ∀ {th'}, Function.update s.ctl th .user th' ≠ .user →
      Function.update s.ctl th .user th' = s.ctl th' := by
    intro th' hth
    refine Function.update_of_ne ?_ ..
    rintro rfl
    exact hth (Function.update_self ..)
  refine ⟨h.name, fun th' hth => h.known th' ?_, fun th' hth => h.pushing th' ?_,
    fun id' th' hid hth => h.placed id' th' hid ?_, fun _ hw => ?_, fun _ hw => h.busy hne hw⟩
  · exact (hold hth) ▸ hth
  · exact (hold fun h => by cases h.symm.trans hth).symm.trans hth
  · exact (hold fun h => by cases h.symm.trans hth).symm.trans hth
  · refine (h.sent hne hw).imp_right ?_
    rintro ⟨th', hth⟩
    refine ⟨th', ?_⟩
    have hne' : th' ≠ th := by
      rintro rfl
      exact hctl hth
    exact (Function.update_of_ne hne' ..).trans hth

/-! ### Runs -/

structure Good (okay : Q → Prop) (contents : Q → List V) (s : State Q V) : Prop where
  core : Machine.Reached .normal Unguarded s.core
  order : InOrder okay contents s
  live : s.core.fault = none → Live contents s

lemma pushWaitable_core (v : V) : (s.pushWaitable c id th v).core = s.core := by
  unfold State.pushWaitable
  split <;> rfl

lemma Good.pop {oldCurr : TaskID} {rest : List Frame} (hc : Ordered c okay contents)
    (h : Good okay contents s) (hf : s.core.fault = none)
    (hs : s.core.stack = .body id th oldCurr :: rest) (hctl : s.ctl th ≠ .pushWaitable)
    (hpop : s.popWaitable c id th = some s') : Good okay contents s' := by
  have horder := h.order.popWaitable hc hpop
  have hlive := h.live hf
  unfold State.popWaitable at hpop
  split_ifs at hpop with hempty
  · obtain ⟨m, hm, rfl⟩ := Option.map_eq_some_iff.mp hpop
    have hnil := (hc.isEmpty h.order.queue).mp hempty
    exact ⟨h.core.tail trivial hm, horder, hlive.wait h.core hs hctl hnil hm⟩
  · have hne : contents s.queue ≠ [] := fun hnil => hempty ((hc.isEmpty h.order.queue).mpr hnil)
    obtain ⟨v, q, hq⟩ := hc.popped h.order.queue hne
    rw [hq] at hpop
    cases hpop
    exact ⟨h.core, horder, fun _ => hlive.popped hctl (hc.pop h.order.queue hq).2⟩

lemma Good.step (hc : Ordered c okay contents) (h : Good okay contents s) (hr : Outcome c s s') :
    Good okay contents s' := by
  have horder := h.order.step hc hr
  cases hr with
  | core a m hout hu hm =>
    have hfm := (Rule.of_step hm).1
    exact ⟨h.core.tail trivial hm, horder, fun hf => (h.live hfm).core h.core hm hf hout hu⟩
  | push id th oldCurr rest v hf hs hctl =>
    refine ⟨?_, horder, fun _ => (h.live hf).pushWaitable h.core hf hs hctl v⟩
    rw [pushWaitable_core]
    exact h.core
  | send id th oldCurr rest m hs hctl hm =>
    have hfm := (Rule.of_step hm).1
    exact ⟨h.core.tail trivial hm, horder, fun hf => (h.live hfm).send h.core hs hm hf⟩
  | pop id th oldCurr rest hf hs hctl hpop => exact h.pop hc hf hs hctl hpop

lemma Good.create {queue : Q} {name : String} (hm : Machine.Reached .normal Unguarded m)
    (hok : okay queue) (hempty : contents queue = [])
    (hs : State.create m queue name = some s) : Good okay contents s := by
  unfold State.create at hs
  split at hs
  · cases hs
  · next e sched halloc =>
    obtain ⟨core, hcore, rfl⟩ := Option.map_eq_some_iff.mp hs
    refine ⟨hm.tail trivial hcore, ⟨hok, hempty.symm⟩, fun hf => ⟨?_, fun th hth => absurd rfl hth,
      fun th hth => absurd hth (by simp), fun id th _ hth => absurd hth (by simp),
      fun hq => absurd hempty hq, fun hq => absurd hempty hq⟩⟩
    obtain ⟨-, hr⟩ := Rule.of_step hcore
    cases hr with
    | fault hf' => exact absurd hf' (by simp [show core.fault = none from hf])
    | restart _ _ _ _ _ _ hc => cases hc
    | newEventHdl _ _ e' sched' _ hc =>
      cases hc with
      | fresh _ _ h =>
        rw [halloc] at h
        cases h
        simp [Scheduler.installEvent]

theorem good_of_reached {queue : Q} (hc : Ordered c okay contents) (hok : okay queue)
    (hempty : contents queue = []) (h : State.Reached c queue s) : Good okay contents s := by
  obtain ⟨m, name, s₀, hm, hs₀, hrun⟩ := h
  exact hrun.invariant (Good.create hm hok hempty hs₀)
    fun _ _ _ _ hgood _ hs => hgood.step hc (Outcome.of_step hs)

/-! ### Nobody is left behind -/

/-- The task is in the method, and `remove_task` was not called for it since it was started. -/
def State.isIn (s : State Q V) (ctl : Ctl) (id : TaskID) : Prop :=
  ∃ th, s.core.sched.taskCoroutineMap id = some th ∧ s.ctl th = ctl ∧
    removeCalled id s.core.log = false

/-- What `pop_waitable` has returned and what is in the queue is what `push_waitable` has stored, in
this order. While no `schedule_task` is in progress, nobody waits in `pop_waitable` on a queue that
is not empty, and nobody in `push_waitable` on one that is not full. -/
structure Fair (contents : Q → List V) (isFull : Q → Bool) (s : State Q V) : Prop where
  order : s.pushed = s.popped ++ contents s.queue
  pop : s.core.fault = none → s.core.inSchedule = false → contents s.queue ≠ [] →
    ∀ id, ¬ s.isIn .popWaitable id
  push : s.core.fault = none → s.core.inSchedule = false → isFull s.queue = false →
    ∀ id, ¬ s.isIn .pushWaitable id

/-- Outside `schedule_task` nothing but the list of the event leads to a waiting task. -/
lemma Live.waiting_of_isIn (h : Live contents s) (hout : s.core.inSchedule = false)
    (hin : s.isIn .popWaitable id) : s.core.bus.waiting s.ehdl ≠ [] := by
  obtain ⟨th, hth, hctl, hrem⟩ := hin
  rcases (h.placed id th hth hctl hrem).2 with ⟨w, hw, -⟩ | ⟨f, hmem, hlead⟩
  · exact List.ne_nil_of_mem hw
  · have hpass := List.any_eq_false.mp hout f hmem
    cases f with
    | pass => cases hlead
    | call | body | resumed | wakeup => exact absurd rfl hpass

lemma Good.fair (h : Good okay contents s) (isFull : Q → Bool) : Fair contents isFull s where
  order := h.order.fifo
  pop hf hout hne id hin := by
    have hlive := h.live hf
    have hbusy := hlive.busy hne (hlive.waiting_of_isIn hout hin)
    exact absurd (hout.symm.trans hbusy.inSchedule) (by simp)
  push hf hout _ id hin := by
    obtain ⟨th, -, hctl, -⟩ := hin
    obtain ⟨id', oldCurr, rest, hs⟩ := (h.live hf).pushing th hctl
    simp [Machine.inSchedule, hs, Frame.isTask] at hout

/-- `push` of a `Queue` has no capacity to keep. -/
theorem fair_of_reached [Inhabited V] :
    (∀ (size : Nat) (s : State (StaticQueue V) V), 0 < size →
      State.Reached StaticQueue.methods (StaticQueue.init size) s →
        Fair StaticQueue.contents StaticQueue.isFull s) ∧
    ∀ (leakCheck : Bool) (compactThreshold : Int) (s : State (Queue V) V),
      State.Reached Queue.methods (Queue.init leakCheck compactThreshold) s →
        Fair Queue.contents (fun _ => false) s := by
  constructor
  · intro size s hsize h
    exact (good_of_reached StaticQueue.ordered (StaticQueue.wellFormed_init hsize) rfl h).fair _
  · intro leakCheck compactThreshold s h
    have hok := Queue.wellFormed_init (V := V) leakCheck compactThreshold
    exact (good_of_reached Queue.ordered hok rfl h).fair _

/-- `A: q:pop_waitable()`, then `B: q:push_waitable(7); q:push_waitable(8)` on a queue of one slot,
which wakes `A`, then `C: q:push_waitable(9)`. -/
def oneSlot : List (Act Nat) :=
  [.core (.appendTask none "A" 0 true), .core .enter, .popWaitable, .core .yielded,
   .core (.appendTask none "B" 1 true), .core .enter, .pushWaitable 7, .send, .pushWaitable 8,
   .core (.yield .returned), .core .yielded, .core .loop, .core .loop,
   .core .enter, .popWaitable, .core (.yield .returned), .core .yielded, .core .loop, .core .loop,
   .core (.appendTask none "C" 2 true), .core .enter, .pushWaitable 9, .send,
   .core (.yield .returned), .core .yielded, .core .loop, .core .loop, .core .loop]

theorem fair_of_oneSlot :
    ∃ s : State (StaticQueue Nat) Nat,
      State.Reached StaticQueue.methods (StaticQueue.init 1) s ∧
      s.log = [.pushed 3 9, .popped 1 7, .refused 2 8, .pushed 2 7] ∧
      s.core.inSchedule = false ∧ s.queue.contents = [9] ∧
      Fair StaticQueue.contents StaticQueue.isFull s := by
  have hrun : ((State.create (Machine.init .normal) (StaticQueue.init 1 : StaticQueue Nat)
      "q").bind fun s₀ => (run (State.step StaticQueue.methods) s₀ oneSlot).map fun s =>
        (s.log, s.core.inSchedule, s.queue.contents)) =
      some ([.pushed 3 9, .popped 1 7, .refused 2 8, .pushed 2 7], false, [9]) := by
    decide +kernel
  obtain ⟨s₀, hs₀, hrest⟩ := Option.bind_eq_some_iff.mp hrun
  obtain ⟨s, hs, heq⟩ := Option.map_eq_some_iff.mp hrest
  simp only [Prod.mk.injEq] at heq
  obtain ⟨hlog, hout, hcontents⟩ := heq
  have hreach : State.Reached StaticQueue.methods (StaticQueue.init 1) s :=
    ⟨_, "q", s₀, .refl, hs₀, reach_of_run hs⟩
  exact ⟨s, hreach, hlog, hout, hcontents, fair_of_reached.1 1 s Nat.one_pos hreach⟩

end Verilua.Queues
