import Verilua.Scheduler.Effect

/-!
# `always_posedge`

The first call of `always_posedge` on a `CallableHDL` registers a permanent callback of the clock
for the task that makes it; every later call on the object, of whatever task, only suspends its
caller. So a call returns at the next edge, and each later one too, if an object is used for the
first time exactly by the tasks that have no permanent callback yet, and no task with a permanent
callback has finished when an edge comes.
-/

namespace Verilua

open TransitionSystem

variable {m m' : Machine} {a : Act} {id : TaskID} {th : ThreadID}

/-! ### Calls that return at the next edge -/

inductive EdgeEv
  /-- The coroutine calls `always_posedge`, or `posedge`, and suspends itself. -/
  | call (th : ThreadID)
  | resume (th : ThreadID)
  /-- The simulator begins to run the callbacks of a positive edge. -/
  | edge
  deriving DecidableEq

structure EdgeCalls where
  /-- Made since the last edge. -/
  waiting : List ThreadID
  /-- Made before the last edge and not yet returned. -/
  owed : List ThreadID
  deriving DecidableEq

/-- A call returns once, after the first edge that follows it and before the one after that;
`none` where an event breaks this. A coroutine that has made no call may be resumed freely. -/
def EdgeCalls.next (w : EdgeCalls) : EdgeEv → Option EdgeCalls
  | .call th =>
    if th ∈ w.waiting ∨ th ∈ w.owed then none else some { w with waiting := th :: w.waiting }
  | .resume th => if th ∈ w.waiting then none else some { w with owed := w.owed.erase th }
  | .edge => if w.owed = [] then some ⟨[], w.waiting⟩ else none

/-- The calls that are open after the events, the newest of which comes first. -/
def edgeCalls : List EdgeEv → Option EdgeCalls
  | [] => some ⟨[], []⟩
  | x :: trace => (edgeCalls trace).bind fun w => w.next x

/-! ### Tasks on one clock -/

/-- The identity of a `CallableHDL`. -/
abbrev HdlID := Nat

/-- The scheduler with the `CallableHDL` objects of one clock and the simulator that runs the
callbacks of its positive edges. -/
structure Clocked where
  machine : Machine
  /-- `always_fired` of each object. -/
  alwaysFired : HdlID → Bool
  /-- The callbacks that the simulator has still to run for the current edge. -/
  due : List Nat
  /-- Newest first. -/
  trace : List EdgeEv

def Clocked.init : Clocked where
  machine := Machine.init .normal
  alwaysFired := fun _ => false
  due := []
  trace := []

inductive ClockedAct
  /-- A move of the scheduler, or what a task does besides `always_posedge`. -/
  | move (a : Act)
  | alwaysPosedge (h : HdlID)
  | edge
  /-- `edge_callback_always`, with the `schedule_task` that it enters. -/
  | run (n : Nat)
  deriving DecidableEq

def Clocked.step (s : Clocked) : ClockedAct → Option Clocked
  | .move a =>
    if a.blocks then none
    else (s.machine.step a).map fun m' =>
      { s with machine := m', trace := (s.machine.resumed m').map .resume ++ s.trace }
  | .alwaysPosedge h =>
    match s.machine.stack with
    | .body _ th _ :: _ =>
      -- `always_await_posedge_hdl` on the first call of the object, else `await_noop`
      (s.machine.step (if s.alwaysFired h then .yield .noop else .awaitCallback true)).map fun m' =>
        { s with
          machine := m'
          alwaysFired := Function.update s.alwaysFired h true
          trace := .call th :: s.trace }
    | _ => none
  | .edge =>
    if s.machine.fault = none ∧ s.machine.stack = [] ∧ s.due = [] then
      some { s with due := List.range s.machine.callbacks.length, trace := .edge :: s.trace }
    else none
  | .run n =>
    if s.machine.stack = [] ∧ n ∈ s.due then
      ((s.machine.step (.fire n)).bind fun m₁ => m₁.step .enter).map fun m' =>
        { s with
          machine := m'
          due := s.due.erase n
          trace := (s.machine.resumed m').map .resume ++ s.trace }
    else none

abbrev Clocked.Reached (ok : Clocked → ClockedAct → Prop) : Clocked → Prop :=
  Reach Clocked.step ok Clocked.init

/-- There has been no error, every call has returned once, at the first edge after it, none is
still open when the simulator is done with the edge, and the simulator gets there. -/
def Clocked.Served (s : Clocked) : Prop :=
  s.machine.fault = none ∧
    (∃ w, edgeCalls s.trace = some w ∧ (s.machine.stack = [] → s.due = [] → w.owed = [])) ∧
    ∀ n ∈ s.due, s.machine.stack = [] → (s.step (.run n)).isSome

/-- The tasks send the events that there are, remove no task that runs and make no call that the
scheduler refuses. -/
def Clocked.usual (s : Clocked) : ClockedAct → Bool
  | .move .enter | .move .yielded | .move .loop => true
  | .move a =>
    (match a with
      | .send e => decide (e ∈ s.machine.sched.eventTaskIdListMap)
      | .removeTask id => decide (id ∉ s.machine.sched.taskNameMapRunning)
      | _ => true) && (s.machine.step a).all fun m' => m'.fault.isNone
  | _ => true

/-- The tasks that have a permanent callback. -/
def Machine.holders (m : Machine) : List TaskID := m.callbacks.map Callback.taskId

/-- The coroutine of the task has finished. -/
def Machine.over (m : Machine) (id : TaskID) : Bool :=
  ((m.sched.taskCoroutineMap id).bind m.threads).any Thread.finished

/-- A task that calls has a permanent callback exactly if the object has been used, no task with a
callback has finished when an edge comes, and none is appended anew to be started later. -/
def Clocked.matched (s : Clocked) : ClockedAct → Bool
  | .alwaysPosedge h =>
    s.alwaysFired h == decide (s.machine.sched.currTaskId ∈ s.machine.holders)
  | .edge => s.machine.holders.all fun id => !s.machine.over id
  | .move (.appendTask (some id) _ _ false) => decide (id ∉ s.machine.holders)
  | _ => true

/-! ### Every call is served -/

/-- The open calls `w` between the runs of the callbacks `due`. -/
structure Serving (m : Machine) (due : List Nat) (w : EdgeCalls) : Prop where
  /-- An open call is that of the suspended coroutine of a task with a permanent callback. -/
  calls : ∀ th ∈ w.waiting ++ w.owed, ∃ id t, m.sched.taskCoroutineMap id = some th ∧
    m.threads th = some t ∧ t.status = .suspended ∧ t.finished = false ∧ m.Started th ∧
    id ∈ m.holders
  nodup : (w.waiting ++ w.owed).Nodup
  /-- What is called is called for the first time. -/
  called : ∀ id rest, m.stack = .call id :: rest →
    ∃ th, m.sched.taskCoroutineMap id = some th ∧ ¬ m.Started th
  /-- A suspended coroutine of a task with a permanent callback is in an open call. -/
  waits : ∀ id th t, m.sched.taskCoroutineMap id = some th → m.threads th = some t →
    t.status = .suspended → t.finished = false → id ∈ m.holders →
    th ∈ w.waiting ++ w.owed ∨ ∃ rest, m.stack = .call id :: rest
  always : ∀ cb ∈ m.callbacks, cb.always = true
  tasks : m.holders.Nodup
  known : ∀ id ∈ m.holders, (m.sched.taskCoroutineMap id).isSome
  dueNodup : due.Nodup
  due_lt : ∀ n ∈ due, n < m.holders.length
  /-- The tasks whose callbacks are due are those whose calls have not returned. -/
  owed_iff : ∀ id th, m.sched.taskCoroutineMap id = some th →
    (th ∈ w.owed ↔ ∃ n ∈ due, m.holders[n]? = some id)

section Serving

variable {due : List Nat} {w : EdgeCalls} (h : Serving m due w) (htidy : Tidy m)
  {ok : Machine → Act → Prop} (hm : Machine.Reached .normal ok m) (hstep : m.step a = some m')
  (hf : m'.fault = none)

include h in
lemma Serving.not_called (hth : th ∈ w.waiting ++ w.owed) (id : TaskID) (rest : List Frame)
    (hs : m.stack = .call id :: rest) : m.sched.taskCoroutineMap id ≠ some th := by
  intro heq
  obtain ⟨th', heq', hno⟩ := h.called id rest hs
  cases heq.symm.trans heq'
  obtain ⟨_, _, _, _, _, _, hstart, _⟩ := h.calls th hth
  exact hno hstart

include h htidy hm hstep hf in
lemma Serving.kept (hth : th ∈ w.waiting ++ w.owed) : ∃ id t,
    m'.sched.taskCoroutineMap id = some th ∧ m'.threads th = some t ∧ t.status = .suspended ∧
      t.finished = false ∧ m'.Started th ∧ id ∈ m.holders := by
  obtain ⟨hf₀, hr⟩ := Rule.of_step hstep
  obtain ⟨id, t, hc, ht, hsus, hfin, hstart, hid⟩ := h.calls th hth
  have hno : ¬ Installs m m' id := fun hi => by
    have := htidy.finished_of_installs (registered_of_reached hm hf₀) hr hf hi hc ht
    simp [hfin] at this
  have heff := hr.effect hf
  refine ⟨id, t, (hr.coroutine_eq hf hno).trans hc, ?_, hsus, hfin, heff.started_mono hstart, hid⟩
  exact heff.threads_of_suspended (coroutines_of_reached hm hf₀) (bodies_of_reached hm hf₀) ht hsus
    (h.not_called hth)

include h htidy hm hstep hf in
lemma Serving.owed_step (hth : m'.sched.taskCoroutineMap id = some th) :
    th ∈ w.owed ↔ ∃ n ∈ due, m.holders[n]? = some id := by
  obtain ⟨hf₀, hr⟩ := Rule.of_step hstep
  by_cases hi : Installs m m' id
  · rw [((hr.effect hf).of_installs hi).1, Function.update_self] at hth
    cases hth
    constructor
    · intro howed
      obtain ⟨_, t, _, ht, -⟩ := h.calls _ (List.mem_append_right _ howed)
      have hlt := (coroutines_of_reached hm hf₀).bound _ (by rw [ht]; rfl)
      exact absurd hlt (Nat.lt_irrefl _)
    · rintro ⟨n, hn, hid⟩
      obtain ⟨th, hth⟩ := Option.isSome_iff_exists.mp (h.known id (List.mem_of_getElem? hid))
      have howed := (h.owed_iff id th hth).mpr ⟨n, hn, hid⟩
      obtain ⟨id', t, _, ht, _, hfin, -⟩ := h.calls th (List.mem_append_right _ howed)
      have := htidy.finished_of_installs (registered_of_reached hm hf₀) hr hf hi hth ht
      simp [hfin] at this
  · exact h.owed_iff id th ((hr.coroutine_eq hf hi).symm.trans hth)

include h htidy hm hstep hf in
lemma Serving.move (hblocks : a.blocks = false)
    (hstart : ∀ id, Installs m m' id → id ∈ m.holders → ∃ rest, m'.stack = .call id :: rest) :
    Serving m' due w := by
  obtain ⟨hf₀, hr⟩ := Rule.of_step hstep
  have hfire : ∀ n, a ≠ .fire n := by rintro n rfl; cases hblocks
  have hcb : m'.callbacks = m.callbacks :=
    hr.callbacks_eq hf hfire (by rintro always rfl; cases hblocks)
  have hhold : m'.holders = m.holders := by rw [Machine.holders, hcb, Machine.holders]
  refine
    { calls := fun th hth => ?_
      nodup := h.nodup
      called := fun id rest => htidy.called_fresh hm hstep hf hfire
      waits := fun id th t hth ht hsus hfin hid => ?_
      always := hcb ▸ h.always
      tasks := hhold ▸ h.tasks
      known := fun id hid => hr.coroutine_isSome hf (h.known id (hhold ▸ hid))
      dueNodup := h.dueNodup
      due_lt := hhold ▸ h.due_lt
      owed_iff := fun id th hth => ?_ }
  · rw [hhold]
    exact h.kept htidy hm hstep hf hth
  · rw [hhold] at hid
    by_cases hi : Installs m m' id
    · exact .inr (hstart id hi hid)
    rw [hr.coroutine_eq hf hi] at hth
    left
    have hnot : m.threads th = some t → (∀ rest, m.stack ≠ .call id :: rest) →
        th ∈ w.waiting ++ w.owed := fun ht hs =>
      (h.waits id th t hth ht hsus hfin hid).resolve_right fun ⟨rest, hs'⟩ => hs rest hs'
    cases hr.effect hf with
    | same _ ht₀ _ _ _ hcall =>
      exact hnot (ht₀ ▸ ht) fun rest hs => by simpa [htidy.flags] using hcall id rest hs
    | install id₀ body hi₀ hc ht₀ _ _ hs =>
      have hne : th ≠ m.nextThread := by
        rintro rfl
        obtain ⟨t₀, ht₀⟩ := Option.isSome_iff_exists.mp
          ((coroutines_of_reached hm hf₀).thread id _ hth)
        have hlt := (coroutines_of_reached hm hf₀).bound _ (by rw [ht₀]; rfl)
        exact absurd hlt (Nat.lt_irrefl _)
      rw [ht₀, Function.update_of_ne hne] at ht
      exact hnot ht fun rest => hs.not_call
    | resume id₀ th₀ rest t₀ _ hs hth₀ _ _ _ ht₁ =>
      by_cases heq : th = th₀
      · subst heq
        rw [ht₁, Function.update_self] at ht
        cases ht
        cases hsus
      · rw [ht₁, Function.update_of_ne heq] at ht
        refine hnot ht fun rest' hs' => heq ?_
        cases hs.symm.trans hs'
        exact Option.some.inj (hth.symm.trans hth₀)
    | suspend id₀ th₀ oldCurr rest y hact hs hs' _ ht₁ =>
      by_cases heq : th = th₀
      · subst heq
        have hy : y.finishes = true := by
          rcases hact with rfl | ⟨-, hblocks'⟩
          · cases y <;> first | rfl | cases hblocks
          · simp [hblocks] at hblocks'
        simp only [ht₁, Machine.coroYield, Function.update_self, Option.map_eq_some_iff] at ht
        obtain ⟨t₀, _, rfl⟩ := ht
        simp [hy] at hfin
      · simp only [ht₁, Machine.coroYield, Function.update_of_ne heq] at ht
        exact hnot ht fun rest' hs'' => by cases hs.symm.trans hs''
  · rw [hhold]
    exact h.owed_step htidy hm hstep hf hth

omit h hm in
/-- The coroutine that calls `always_posedge` registers a callback if and only if it has none. -/
lemma callbacks_of_call {oldCurr : TaskID} {rest : List Frame} {fired : Bool}
    (hs : m.stack = .body id th oldCurr :: rest) (hcurr : CurrentTask m)
    (hstep : m.step (if fired then .yield .noop else .awaitCallback true) = some m')
    (hf : m'.fault = none) (hmatch : fired = decide (m.sched.currTaskId ∈ m.holders)) :
    id ∈ m.holders ∧ m'.callbacks = m.callbacks ∨
      id ∉ m.holders ∧ m'.callbacks = m.callbacks ++ [⟨id, true, th⟩] := by
  have hid : m.sched.currTaskId = id := by rw [hcurr.curr, hs]; rfl
  rw [hid] at hmatch
  cases fired with
  | true =>
    refine .inl ⟨of_decide_eq_true hmatch.symm, ?_⟩
    exact (Rule.of_step hstep).2.callbacks_eq hf (by simp) (by simp)
  | false =>
    refine .inr ⟨of_decide_eq_false hmatch.symm, ?_⟩
    rw [if_neg Bool.false_ne_true] at hstep
    unfold Machine.step at hstep
    split_ifs at hstep
    rw [hs] at hstep
    simp only [Machine.bodyStep] at hstep
    split_ifs at hstep
    cases hstep
    rw [hid]
    rfl

include h htidy hm hstep hf in
lemma Serving.call {oldCurr : TaskID} {rest : List Frame}
    (hs : m.stack = .body id th oldCurr :: rest)
    (hs' : m'.stack = .resumed id th oldCurr .noop :: rest)
    (hcb : id ∈ m.holders ∧ m'.callbacks = m.callbacks ∨
      id ∉ m.holders ∧ m'.callbacks = m.callbacks ++ [⟨id, true, th⟩]) :
    th ∉ w.waiting ++ w.owed ∧ Serving m' due { w with waiting := th :: w.waiting } := by
  obtain ⟨hf₀, hr⟩ := Rule.of_step hstep
  have hc := coroutines_of_reached hm hf₀
  obtain ⟨hth, t, ht, hfin, hstart⟩ := htidy.coroutine_of_body hc hs
  have hbody : th ∈ m.bodies := by simp [Machine.bodies, hs, Frame.bodyThread?]
  have hnew : th ∉ w.waiting ++ w.owed := by
    intro hmem
    obtain ⟨_, t₁, _, ht₁, hsus, -⟩ := h.calls th hmem
    obtain ⟨t₂, ht₂, hact⟩ := (bodies_of_reached hm hf₀).active th hbody
    cases ht₁.symm.trans ht₂
    rw [hsus] at hact
    cases hact
  have hhold : ∀ i, i ∈ m'.holders ↔ i ∈ m.holders ∨ i = id := by
    intro i
    rcases hcb with ⟨hid, hcb⟩ | ⟨-, hcb⟩
    · rw [Machine.holders, hcb]
      exact ⟨.inl, Or.rec (fun h => h) fun heq => heq ▸ hid⟩
    · simp [Machine.holders, hcb]
  have hget : ∀ n < m.holders.length, m'.holders[n]? = m.holders[n]? := by
    intro n hn
    rcases hcb with ⟨-, hcb⟩ | ⟨-, hcb⟩
    · rw [Machine.holders, hcb, Machine.holders]
    · rw [Machine.holders, hcb, List.map_append]
      exact List.getElem?_append_left hn
  obtain ⟨hcoroutine, hthreads⟩ := (hr.effect hf).of_left hs hs'
  refine ⟨hnew, ?_⟩
  have ht' : m'.threads th = some { t with status := .suspended } := by
    simp [hthreads, Machine.coroYield, ht, Yielded.status, Yielded.finishes]
  have hother : ∀ th' ≠ th, m'.threads th' = m.threads th' := fun th' hne => by
    simp [hthreads, Machine.coroYield, Function.update_of_ne hne]
  exact
    { calls := fun th' hth' => by
        rcases List.mem_cons.mp hth' with rfl | hold
        · exact ⟨id, _, hcoroutine ▸ hth, ht', rfl, hfin, (hr.effect hf).started_mono hstart,
            (hhold id).mpr (.inr rfl)⟩
        · obtain ⟨i, t, hkept⟩ := h.kept htidy hm hstep hf hold
          exact ⟨i, t, hkept.imp_right fun hk => hk.imp_right fun hk => hk.imp_right fun hk =>
            hk.imp_right fun hk => hk.imp_right fun hi => (hhold i).mpr (.inl hi)⟩
      nodup := List.nodup_cons.mpr ⟨hnew, h.nodup⟩
      called := fun i rest' hs'' => by cases hs'.symm.trans hs''
      waits := fun i th' t₁ hth' ht₁ hsus hfin₁ hi => by
        left
        by_cases heq : th' = th
        · exact heq ▸ List.mem_cons_self
        · rw [hcoroutine] at hth'
          rw [hother th' heq] at ht₁
          rcases (hhold i).mp hi with hi | rfl
          · refine List.mem_cons_of_mem _
              ((h.waits i th' t₁ hth' ht₁ hsus hfin₁ hi).resolve_right ?_)
            rintro ⟨rest', hs''⟩
            cases hs.symm.trans hs''
          · cases hth.symm.trans hth'
            exact absurd rfl heq
      always := fun cb hcb' => by
        rcases hcb with ⟨-, hcb⟩ | ⟨-, hcb⟩
        · exact h.always cb (hcb ▸ hcb')
        · rcases List.mem_append.mp (hcb ▸ hcb') with hcb' | hcb'
          · exact h.always cb hcb'
          · rw [List.mem_singleton.mp hcb']
      tasks := by
        rcases hcb with ⟨-, hcb⟩ | ⟨hid, hcb⟩
        · rw [Machine.holders, hcb]
          exact h.tasks
        · rw [Machine.holders, hcb, List.map_append]
          exact h.tasks.append (List.nodup_singleton _) (List.disjoint_singleton.mpr hid)
      known := fun i hi => by
        rw [hcoroutine]
        rcases (hhold i).mp hi with hi | rfl
        · exact h.known i hi
        · simp [hth]
      dueNodup := h.dueNodup
      due_lt := fun n hn => by
        have hlt := h.due_lt n hn
        have hsome : (m'.holders[n]?).isSome := by
          rw [hget n hlt, List.getElem?_eq_getElem hlt]
          rfl
        exact (List.getElem?_eq_some_iff.mp (Option.eq_some_of_isSome hsome)).1
      owed_iff := fun i th' hth' => by
        rw [hcoroutine] at hth'
        rw [h.owed_iff i th' hth']
        exact exists_congr fun n => and_congr_right fun hn => by rw [hget n (h.due_lt n hn)] }

include h htidy hm in
lemma Serving.edge (hf₀ : m.fault = none) (hs : m.stack = []) (hdue : due = [])
    (hover : ∀ id ∈ m.holders, m.over id = false) :
    w.owed = [] ∧ Serving m (List.range m.callbacks.length) ⟨[], w.waiting⟩ := by
  subst hdue
  have hc := coroutines_of_reached hm hf₀
  have howed : w.owed = [] := by
    refine List.eq_nil_iff_forall_not_mem.mpr fun th hth => ?_
    obtain ⟨id, t, hco, -⟩ := h.calls th (List.mem_append_right _ hth)
    obtain ⟨n, hn, -⟩ := (h.owed_iff id th hco).mp hth
    cases hn
  have hcalls : w.waiting ++ w.owed = [] ++ w.waiting := by simp [howed]
  refine ⟨howed, { h with
    calls := hcalls ▸ h.calls
    nodup := hcalls ▸ h.nodup
    waits := hcalls ▸ h.waits
    dueNodup := List.nodup_range
    due_lt := fun n hn => by simpa [Machine.holders] using hn
    owed_iff := fun id th hth => ?_ }⟩
  have hrange : (∃ n ∈ List.range m.callbacks.length, m.holders[n]? = some id) ↔
      id ∈ m.holders := by
    rw [List.mem_iff_getElem?]
    refine exists_congr fun n => and_iff_right_of_imp fun hn => ?_
    obtain ⟨hlt, -⟩ := List.getElem?_eq_some_iff.mp hn
    simpa [Machine.holders] using hlt
  rw [hrange]
  constructor
  · intro hmem
    obtain ⟨id', _, hth', _, _, _, _, hid⟩ := h.calls th (List.mem_append_left _ hmem)
    exact hc.injective _ _ _ hth' hth ▸ hid
  · intro hid
    obtain ⟨t, ht⟩ := Option.isSome_iff_exists.mp (hc.thread id th hth)
    have hfin : t.finished = false := by
      have := hover id hid
      simpa [Machine.over, hth, ht] using this
    have hsus : t.status = .suspended := by
      by_contra hne
      rcases htidy.active th t ht hne with hfin' | hbody
      · simp [hfin] at hfin'
      · simp [Machine.bodies, hs] at hbody
    rcases h.waits id th t hth ht hsus hfin hid with hmem | ⟨rest, hs'⟩
    · simpa [howed] using hmem
    · simp [hs] at hs'

include h in
lemma Serving.fire {n : Nat} {m₁ : Machine} (hs : m.stack = [])
    (hfire : m.step (.fire n) = some m₁) : ∃ id, m.holders[n]? = some id ∧ m₁ = m.call id := by
  unfold Machine.step at hfire
  split_ifs at hfire
  rw [hs] at hfire
  simp only [Machine.codeStep] at hfire
  split at hfire
  · next cb hcb =>
    cases hfire
    refine ⟨cb.taskId, by simp [Machine.holders, hcb], ?_⟩
    rw [if_pos (h.always cb (List.mem_of_getElem? hcb))]
  · cases hfire

include h htidy hm in
lemma Serving.run {n : Nat} (hf₀ : m.fault = none) (hs : m.stack = []) (hn : n ∈ due)
    {m₁ : Machine} (hfire : m.step (.fire n) = some m₁) (henter : m₁.step .enter = some m') :
    ∃ th, th ∈ w.owed ∧ m'.fault = none ∧ Tidy m' ∧ m.resumed m' = [th] ∧
      Serving m' (due.erase n) { w with owed := w.owed.erase th } := by
  have hc := coroutines_of_reached hm hf₀
  obtain ⟨id, hid, rfl⟩ := h.fire hs hfire
  obtain ⟨th, hth⟩ := Option.isSome_iff_exists.mp (h.known id (List.mem_of_getElem? hid))
  have howed : th ∈ w.owed := (h.owed_iff id th hth).mpr ⟨n, hn, hid⟩
  obtain ⟨_, t, _, ht, hsus, hfin, hstart, -⟩ := h.calls th (List.mem_append_right _ howed)
  have hm₁ : Machine.Reached .normal Unguarded (m.call id) := hm.unguarded.tail trivial hfire
  have htidy₁ : Tidy (m.call id) := htidy.step hm
    { waits := by simp
      yields := by simp
      removes := by simp
      sends := by simp
      resumes := by simp
      fires := fun n' cb ha hcb => by
        cases ha
        have heq : cb.taskId = id := by simpa [Machine.holders, hcb] using hid
        exact ⟨th, heq ▸ hth, hstart⟩ } hfire hf₀
  have hstack : (m.call id).stack = [.call id] := by rw [Machine.call, hs]
  obtain ⟨m₂, hstep₂, hf⟩ := htidy₁.enter hm₁ hf₀ hstack hth ht hsus
  obtain rfl := Option.some.inj (hstep₂.symm.trans henter)
  have hr := (Rule.of_step henter).2
  have hcb : m₂.callbacks = m.callbacks := hr.callbacks_eq hf (by simp) (by simp)
  have hhold : m₂.holders = m.holders := by rw [Machine.holders, hcb, Machine.holders]
  have htidy₂ : Tidy m₂ := htidy₁.step hm₁
    { waits := by simp
      yields := by simp
      removes := by simp
      sends := by simp
      resumes := fun id' rest th' t' _ hs' hth' ht' => by
        cases hstack.symm.trans hs'
        cases hth.symm.trans hth'
        cases ht.symm.trans ht'
        exact hfin
      fires := by simp } henter hf
  cases hr.effect hf with
  | same _ _ _ _ _ hcall => simpa [htidy₁.flags] using hcall id [] hstack
  | install _ _ _ _ _ _ _ hcode => exact absurd hstack hcode.not_call
  | suspend _ _ _ _ _ _ hs' => cases hstack.symm.trans hs'
  | resume id₀ th₀ rest t₀ _ hs' hth₀ ht₀ _ hco ht₁ hlog hs₂ =>
    cases hstack.symm.trans hs'
    cases hth.symm.trans hth₀
    cases ht.symm.trans ht₀
    have hco' : m₂.sched.taskCoroutineMap = m.sched.taskCoroutineMap := hco
    have hother : ∀ th' ≠ th, m₂.threads th' = m.threads th' := fun th' hne => by
      rw [ht₁, Function.update_of_ne hne]
      rfl
    have hnodup := List.nodup_append.mp h.nodup
    have hne : ∀ th' ∈ w.waiting ++ w.owed.erase th, th' ≠ th := by
      rintro th' hmem rfl
      rcases List.mem_append.mp hmem with hmem | hmem
      · exact hnodup.2.2 th' hmem th' howed rfl
      · exact hnodup.2.1.not_mem_erase hmem
    have hsub : ∀ th' ∈ w.waiting ++ w.owed.erase th, th' ∈ w.waiting ++ w.owed := fun th' hmem =>
      (List.Sublist.append_left List.erase_sublist _).subset hmem
    refine ⟨th, howed, hf, htidy₂, resumed_of_append (l := [.resume id th t.finished]) hlog, ?_⟩
    exact
      { calls := fun th' hth' => by
          obtain ⟨i, t', hci, ht', hsus', hfin', hstart', hi⟩ := h.calls th' (hsub th' hth')
          refine ⟨i, t', by rw [hco', hci], by rw [hother th' (hne th' hth'), ht'], hsus', hfin',
            ?_, hhold ▸ hi⟩
          exact (started_cons hlog).mpr (.inr hstart')
        nodup := h.nodup.sublist (List.Sublist.append_left List.erase_sublist _)
        called := fun i rest' hs'' => by
          obtain ⟨_, hs₂⟩ := hs₂
          cases hs₂.symm.trans hs''
        waits := fun i th' t' hth' ht' hsus' hfin' hi => by
          have hne' : th' ≠ th := by
            rintro rfl
            rw [ht₁, Function.update_self] at ht'
            cases ht'
            cases hsus'
          rw [hco'] at hth'
          rw [hother th' hne'] at ht'
          left
          rcases h.waits i th' t' hth' ht' hsus' hfin' (hhold ▸ hi) with hmem | ⟨rest', hs''⟩
          · exact (List.mem_append.mp hmem).elim (List.mem_append_left _) fun hmem =>
              List.mem_append_right _ ((List.mem_erase_of_ne hne').mpr hmem)
          · simp [hs] at hs''
        always := hcb ▸ h.always
        tasks := hhold ▸ h.tasks
        known := fun i hi => by rw [hco']; exact h.known i (hhold ▸ hi)
        dueNodup := h.dueNodup.erase n
        due_lt := fun n' hn' => hhold ▸ h.due_lt n' (List.mem_of_mem_erase hn')
        owed_iff := fun i th' hth' => by
          rw [hco'] at hth'
          rw [hhold]
          by_cases heq : th' = th
          · subst heq
            obtain rfl := hc.injective _ _ _ hth hth'
            refine iff_of_false hnodup.2.1.not_mem_erase ?_
            rintro ⟨n', hn', hid'⟩
            obtain ⟨hlt, hget⟩ := List.getElem?_eq_some_iff.mp hid
            obtain ⟨hlt', hget'⟩ := List.getElem?_eq_some_iff.mp hid'
            obtain rfl := (h.tasks.getElem_inj_iff).mp (hget.trans hget'.symm)
            exact h.dueNodup.not_mem_erase hn'
          · rw [List.mem_erase_of_ne heq, h.owed_iff i th' hth']
            refine exists_congr fun n' => and_congr_left fun hid' => ?_
            have hnn : n' ≠ n := by
              rintro rfl
              cases hid.symm.trans hid'
              cases hth.symm.trans hth'
              exact heq rfl
            exact (List.mem_erase_of_ne hnn).symm }

end Serving

structure Clocked.Inv (s : Clocked) : Prop where
  reached : Machine.Reached .normal Unguarded s.machine
  fault : s.machine.fault = none
  tidy : Tidy s.machine
  serving : ∃ w, edgeCalls s.trace = some w ∧ Serving s.machine s.due w

section Inv

variable {s s' : Clocked} (h : s.Inv)

include h

lemma Clocked.Inv.plain (husual : s.usual (.move a) = true) (hblocks : a.blocks = false) :
    s.machine.Plain a := by
  obtain ⟨w, -, hserv⟩ := h.serving
  exact
    { waits := fun e => by constructor <;> (rintro rfl; cases hblocks)
      yields := by rintro rfl; cases hblocks
      removes := by
        rintro id rfl
        simp only [Clocked.usual, Bool.and_eq_true, decide_eq_true_eq] at husual
        exact husual.1
      sends := by
        rintro e rfl
        simp only [Clocked.usual, Bool.and_eq_true, decide_eq_true_eq] at husual
        exact husual.1
      resumes := fun id rest th t _ hs hth ht => by
        obtain ⟨th', hth', hno⟩ := hserv.called id rest hs
        cases hth.symm.trans hth'
        exact (h.tidy.fresh th t ht hno).2
      fires := by rintro n cb rfl; cases hblocks }

lemma Clocked.Inv.fault_step (husual : s.usual (.move a) = true)
    (hstep : s.machine.step a = some m') : m'.fault = none := by
  obtain ⟨w, -, hserv⟩ := h.serving
  by_cases hloop : a = .yielded ∨ a = .loop
  · rcases hloop with rfl | rfl
    · exact h.tidy.fault_yielded hstep
    · exact h.tidy.fault_loop hstep
  by_cases henter : a = .enter
  · subst henter
    obtain ⟨id, rest, hs⟩ := stack_of_enter hstep
    obtain ⟨th, hth, hno⟩ := hserv.called id rest hs
    obtain ⟨t, ht⟩ := Option.isSome_iff_exists.mp
      ((coroutines_of_reached h.reached h.fault).thread id th hth)
    obtain ⟨m₁, hstep₁, hf⟩ := h.tidy.enter h.reached h.fault hs hth ht (h.tidy.fresh th t ht hno).1
    exact Option.some.inj (hstep₁.symm.trans hstep) ▸ hf
  · have hall : (s.machine.step a).all (fun m' => m'.fault.isNone) = true := by
      unfold Clocked.usual at husual
      split at husual <;> simp_all
    simpa [hstep] using hall

omit h in
/-- `append_task` with `start_now` and the two wake-ups call the task that they install. -/
lemma Machine.Reached.call_of_installs {ok : Machine → Act → Prop}
    (hm : Machine.Reached .normal ok m) (hr : Rule m a m') (hf₀ : m.fault = none)
    (hf : m'.fault = none) (hi : Installs m m' id) :
    (∃ rest, m'.stack = .call id :: rest) ∨
      ∃ user name body s, a = .appendTask user name body false ∧ Chosen m.sched user id s := by
  rcases hr.installs hf hi with ⟨user, name, body, startNow, s, hch, ha, rfl⟩ | ⟨_, _, s, _, rfl⟩
  · cases startNow with
    | true =>
      refine .inl ⟨m.stack, ?_⟩
      have hmode := mode_of_reached hm hf₀
      simp [Machine.startTask, Machine.call, Machine.installTask, Machine.coroCreate, hmode]
    | false => exact .inr ⟨user, name, body, s, ha, hch⟩
  · exact .inl ⟨_, rfl⟩

lemma Clocked.Inv.move (husual : s.usual (.move a) = true) (hmatch : s.matched (.move a) = true)
    (hstep : s.step (.move a) = some s') : s'.Inv := by
  obtain ⟨w, hw, hserv⟩ := h.serving
  simp only [Clocked.step] at hstep
  split_ifs at hstep with hblocks
  rw [Bool.not_eq_true] at hblocks
  obtain ⟨m', hmove, rfl⟩ := Option.map_eq_some_iff.mp hstep
  have hf := h.fault_step husual hmove
  have hr := (Rule.of_step hmove).2
  refine ⟨h.reached.tail trivial hmove, hf,
    h.tidy.step h.reached (h.plain husual hblocks) hmove hf, w, ?_, ?_⟩
  · show edgeCalls ((s.machine.resumed m').map .resume ++ s.trace) = some w
    cases hr.effect hf with
    | same _ _ hlog | install _ _ _ _ _ hlog | suspend _ _ _ _ _ _ _ _ _ _ hlog =>
      rw [hlog.resumed, List.map_nil, List.nil_append, hw]
    | resume id th rest t _ hs hth _ _ _ _ hlog =>
      rw [resumed_of_append (l := [_]) hlog]
      -- the coroutine has made no call: it is resumed for the first time
      have hnew : th ∉ w.waiting ++ w.owed := fun hmem => hserv.not_called hmem id rest hs hth
      rw [List.mem_append, not_or] at hnew
      simp [Ev.resumed?, edgeCalls, hw, EdgeCalls.next, hnew.1, List.erase_of_not_mem hnew.2]
  · refine hserv.move h.tidy h.reached hmove hf hblocks fun id hi hid => ?_
    refine (h.reached.call_of_installs hr h.fault hf hi).resolve_right ?_
    rintro ⟨user, name, body, sched, rfl, hch⟩
    cases hch with
    | given => simp [Clocked.matched, hid] at hmatch
    | fresh _ _ halloc =>
      refine ((registered_of_reached h.reached h.fault).coroutine id).mpr (hserv.known id hid) ?_
      exact (Scheduler.allocTaskId_eq_some halloc).1

omit h in
lemma step_of_body {oldCurr : TaskID} {rest : List Frame} {fired : Bool} (hf : m.fault = none)
    (hs : m.stack = .body id th oldCurr :: rest)
    (hstep : m.step (if fired then .yield .noop else .awaitCallback true) = some m') :
    m'.fault = none ∧ m'.stack = .resumed id th oldCurr .noop :: rest := by
  cases fired <;> simp only [Bool.false_eq_true, if_false, if_true] at hstep <;>
    simp only [Machine.step, hf, hs, Machine.bodyStep, Option.isSome_none] at hstep
  · simp only [Bool.false_eq_true, if_false] at hstep
    split_ifs at hstep
    cases hstep
    exact ⟨rfl, rfl⟩
  · cases hstep
    exact ⟨hf, rfl⟩

lemma Clocked.Inv.call {hdl : HdlID} (hmatch : s.matched (.alwaysPosedge hdl) = true)
    (hstep : s.step (.alwaysPosedge hdl) = some s') : s'.Inv := by
  obtain ⟨w, hw, hserv⟩ := h.serving
  simp only [Clocked.step] at hstep
  split at hstep
  · next id th oldCurr rest hs =>
    obtain ⟨m', hmove, rfl⟩ := Option.map_eq_some_iff.mp hstep
    obtain ⟨hf, hs'⟩ := step_of_body h.fault hs hmove
    have hplain : s.machine.Plain
        (if s.alwaysFired hdl then .yield .noop else .awaitCallback true) := by
      constructor <;> split_ifs <;> simp
    have hcb := callbacks_of_call hs (currentTask_of_reached h.reached h.fault) hmove hf
      (by simpa [Clocked.matched] using hmatch)
    obtain ⟨hnew, hserv'⟩ := hserv.call h.tidy h.reached hmove hf hs hs' hcb
    refine ⟨h.reached.tail trivial hmove, hf, h.tidy.step h.reached hplain hmove hf, _, ?_, hserv'⟩
    rw [List.mem_append, not_or] at hnew
    simp [edgeCalls, hw, EdgeCalls.next, hnew]
  · cases hstep

lemma Clocked.Inv.edge (hmatch : s.matched .edge = true) (hstep : s.step .edge = some s') :
    s'.Inv := by
  obtain ⟨w, hw, hserv⟩ := h.serving
  simp only [Clocked.step] at hstep
  split_ifs at hstep with hcond
  cases hstep
  obtain ⟨-, hs, hdue⟩ := hcond
  have hover : ∀ id ∈ s.machine.holders, s.machine.over id = false := by
    simpa [Clocked.matched] using hmatch
  obtain ⟨howed, hserv'⟩ := hserv.edge h.tidy h.reached h.fault hs hdue hover
  exact ⟨h.reached, h.fault, h.tidy, _, by simp [edgeCalls, hw, EdgeCalls.next, howed], hserv'⟩

lemma Clocked.Inv.run {n : Nat} (hstep : s.step (.run n) = some s') : s'.Inv := by
  obtain ⟨w, hw, hserv⟩ := h.serving
  simp only [Clocked.step] at hstep
  split_ifs at hstep with hcond
  obtain ⟨hs, hn⟩ := hcond
  obtain ⟨m', hbind, rfl⟩ := Option.map_eq_some_iff.mp hstep
  obtain ⟨m₁, hfire, henter⟩ := Option.bind_eq_some_iff.mp hbind
  obtain ⟨th, howed, hf, htidy, hresumed, hserv'⟩ :=
    hserv.run h.tidy h.reached h.fault hs hn hfire henter
  refine ⟨(h.reached.tail trivial hfire).tail trivial henter, hf, htidy, _, ?_, hserv'⟩
  have hwait : th ∉ w.waiting := fun hmem =>
    (List.nodup_append.mp hserv.nodup).2.2 th hmem th howed rfl
  show edgeCalls ((s.machine.resumed m').map .resume ++ s.trace) = _
  simp [hresumed, edgeCalls, hw, EdgeCalls.next, hwait]

lemma Clocked.Inv.run_isSome {n : Nat} (hn : n ∈ s.due) (hs : s.machine.stack = []) :
    (s.step (.run n)).isSome := by
  obtain ⟨w, -, hserv⟩ := h.serving
  have hlt : n < s.machine.callbacks.length := by
    simpa [Machine.holders] using hserv.due_lt n hn
  have hfire : (s.machine.step (.fire n)).bind (·.step .enter) = some (Machine.scheduleTask
      { s.machine with
        callbacks := if s.machine.callbacks[n].always then s.machine.callbacks
          else s.machine.callbacks.eraseIdx n
        stack := [.call s.machine.callbacks[n].taskId] } s.machine.callbacks[n].taskId []) := by
    simp [Machine.step, Machine.codeStep, Machine.call, h.fault, hs, List.getElem?_eq_getElem hlt]
  simp only [Clocked.step]
  rw [if_pos ⟨hs, hn⟩, hfire]
  rfl

lemma Clocked.Inv.served : s.Served := by
  obtain ⟨w, hw, hserv⟩ := h.serving
  refine ⟨h.fault, ⟨w, hw, fun hs hdue => ?_⟩, fun n hn hs => h.run_isSome hn hs⟩
  refine List.eq_nil_iff_forall_not_mem.mpr fun th hth => ?_
  obtain ⟨id, t, hco, -⟩ := hserv.calls th (List.mem_append_right _ hth)
  obtain ⟨n, hn, -⟩ := (hserv.owed_iff id th hco).mp hth
  simp [hdue] at hn

end Inv

/-- Tasks on one clock that use an object for the first time exactly when they have no permanent
callback yet, and of which none with a callback has finished when an edge comes, are served: each
call of `always_posedge` returns exactly once, at the first edge after it. -/
theorem Clocked.served_of_matched {s : Clocked}
    (h : Clocked.Reached (fun s a => s.usual a = true ∧ s.matched a = true) s) : s.Served := by
  have hinv : s.Inv := by
    refine Reach.invariant (I := Clocked.Inv) h ?_ ?_
    · refine ⟨.refl, rfl, tidy_init, _, rfl, ?_⟩
      constructor <;> simp [Clocked.init, Machine.init, Machine.holders]
    · intro s a s' _ ih hok hstep
      cases a with
      | move a => exact ih.move hok.1 hok.2 hstep
      | alwaysPosedge hdl => exact ih.call hok.2 hstep
      | edge => exact ih.edge hok.2 hstep
      | run n => exact ih.run hstep
  exact hinv.served

/-- `A` and `B` have an object each; both are resumed at two edges. -/
def twoObjects : List ClockedAct :=
  [.move (.appendTask none "A" 0 true), .move .enter, .alwaysPosedge 0, .move .yielded,
   .move (.appendTask none "B" 1 true), .move .enter, .alwaysPosedge 1, .move .yielded,
   .edge, .run 1, .alwaysPosedge 1, .move .yielded, .run 0, .alwaysPosedge 0, .move .yielded,
   .edge, .run 0, .alwaysPosedge 0, .move .yielded, .run 1, .alwaysPosedge 1, .move .yielded]

theorem Clocked.served_of_twoObjects :
    ∃ s, runChecked Clocked.step (fun s a => s.usual a = true ∧ s.matched a = true) Clocked.init
        twoObjects = some s ∧ s.trace.length = 14 ∧ s.Served := by
  have hrun : (runChecked Clocked.step (fun s a => s.usual a = true ∧ s.matched a = true)
      Clocked.init twoObjects).map (fun s => s.trace.length) = some 14 := by
    decide +kernel
  obtain ⟨s, hs, hlen⟩ := Option.map_eq_some_iff.mp hrun
  exact ⟨s, hs, hlen, Clocked.served_of_matched (reach_of_runChecked hs)⟩

/-- `A` and `B` share an object: the callback is for `A`, which called first. -/
def oneObject : List ClockedAct :=
  [.move (.appendTask none "A" 0 true), .move .enter, .alwaysPosedge 0, .move .yielded,
   .move (.appendTask none "B" 1 true), .move .enter, .alwaysPosedge 0, .move .yielded,
   .edge, .run 0, .alwaysPosedge 0, .move .yielded]

/-- `B` is left suspended when the edge is over. -/
theorem Clocked.not_served :
    ¬ ∀ s, Clocked.Reached (fun s a => s.usual a = true) s → s.Served := by
  intro hall
  have hrun : (runChecked Clocked.step (fun s a => s.usual a = true) Clocked.init oneObject).map
      (fun s => (s.machine.stack, s.due, edgeCalls s.trace)) = some ([], [], some ⟨[0], [1]⟩) := by
    decide +kernel
  obtain ⟨s, hs, heq⟩ := Option.map_eq_some_iff.mp hrun
  simp only [Prod.mk.injEq] at heq
  obtain ⟨hstack, hdue, hcalls⟩ := heq
  obtain ⟨-, ⟨w, hw, howed⟩, -⟩ := hall s (reach_of_runChecked hs)
  rw [hcalls] at hw
  cases hw
  exact absurd (howed hstack hdue) (List.cons_ne_nil _ _)

end Verilua
