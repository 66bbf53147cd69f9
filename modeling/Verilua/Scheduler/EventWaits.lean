import Verilua.Scheduler.Inherit

/-!
# Event waits in the step modes

In `STEP` and `EDGE_STEP` a pass resumes every task of the table it walks, whatever the task is
suspended in. A coroutine that waits for an event is resumed only after a send on it in the runs in
which no pass comes to such a task, and in which a task that begins to wait is on no list yet.
-/

namespace Verilua

open TransitionSystem

variable {o o' : Observed} {m m' : Machine} {a : Act} {mode : Mode} {id : TaskID} {th : ThreadID}

/-- A coroutine that waits for an event is resumed only when the event has been sent since. -/
def Observed.EventWaitsHold (o : Observed) : Prop :=
  ∀ r ∈ o.resumptions, ∀ e w, r.asked = some (.event e w) → r.sent = true

/-- The coroutine of `id` is suspended in a wait for an event. -/
def Observed.waitsForEvent (o : Observed) (id : TaskID) : Bool :=
  match (o.machine.sched.taskCoroutineMap id).bind o.asked with
  | some (.event _ _) => true
  | _ => false

/-- No pass comes to a task that waits for an event, unless the task is flagged for removal; only
the installed coroutine of an id waits, and only when the id is registered nowhere; and waits and
wake-up loops are prompt. -/
def Observed.keepsEventWaits (o : Observed) (a : Act) : Bool :=
  (match a with
  | .pick id => !o.waitsForEvent id || decide (id ∈ o.machine.sched.userRemovalTasksSet)
  | .wait _ =>
    match o.machine.stack with
    | .body id th _ :: _ =>
      decide (o.machine.sched.taskCoroutineMap id = some th) && !o.machine.registered id
    | _ => true
  | .insertWaiter _ =>
    match o.machine.stack with
    | .body id th _ :: _ => decide (o.machine.sched.taskCoroutineMap id = some th)
    | _ => true
  | _ => true) && o.machine.prompt a

lemma Rule.awaitCallback_mode {always : Bool} (hr : Rule m (.awaitCallback always) m')
    (hf : m'.fault = none) : m.mode = .normal := by
  cases hr with
  | fault hf' => simp [hf] at hf'
  | restart _ _ _ _ _ _ hcl => cases hcl
  | awaitCallback _ _ _ _ _ _ hm => exact hm

lemma Rule.pick_sched (hr : Rule m (.pick id) m') (hf : m'.fault = none) : m'.sched = m.sched := by
  cases hr with
  | fault hf' => simp [hf] at hf'
  | restart _ _ _ _ _ _ hcl => cases hcl
  | pickFired => rfl
  | pick => rfl

/-- The simulator holds no callback in the step modes. -/
lemma callbacks_of_reached {ok : Machine → Act → Prop} (h : Machine.Reached mode ok m)
    (hmode : mode ≠ .normal) : m.fault = none → m.callbacks = [] := by
  refine Reach.invariant (I := fun m : Machine => m.fault = none → m.callbacks = []) h
    (fun _ => rfl) ?_
  intro m a m' hm ih _ hs hf
  obtain ⟨hf₀, hr⟩ := Rule.of_step hs
  have hnil := ih hf₀
  cases hr with
  | fault hf' | removeFault _ hf' | resumeFault _ _ _ _ _ _ _ _ _ hf' => simp [hf] at hf'
  | fire n cb _ hcb => simp [hnil] at hcb
  | awaitCallback _ _ _ _ _ _ hm' => exact absurd ((mode_of_reached hm hf₀).symm.trans hm') hmode
  | append =>
    unfold Machine.startTask
    split_ifs <;> exact hnil
  | _ => exact hnil

structure EventWaits (o : Observed) : Prop where
  /-- Nothing else will resume the task of a coroutine that waits for an event. -/
  outstanding : ∀ id th e w ρ, o.machine.sched.taskCoroutineMap id = some th →
    o.asked th = some (.event e w) → o.Outstanding id ρ → ρ = .event e w
  /-- A coroutine that waits for an event is called by the wake-up loop, or the call will return on
  the removal flag. -/
  call : ∀ id rest th e w, o.machine.stack = .call id :: rest →
    o.machine.sched.taskCoroutineMap id = some th → o.asked th = some (.event e w) →
    id ∈ o.machine.sched.userRemovalTasksSet ∨ ∃ log, o.machine.log = .wake e w :: log

section Step

variable (h : EventWaits o) (hsound : o.Sound) (hrec : Recorded o) (hr : Rule o.machine a m')
  (hmode : o.machine.mode ≠ .normal) (hok : o.keepsEventWaits a = true) (hf : m'.fault = none)

include h hsound hrec hr hmode hok hf in
lemma EventWaits.outstanding_step (id : TaskID) (th : ThreadID) (e : EventID) (w : Waiter) (ρ : Ask)
    (hc' : m'.sched.taskCoroutineMap id = some th)
    (hask : (o.note a m').asked th = some (.event e w)) (hout : (o.note a m').Outstanding id ρ) :
    ρ = .event e w := by
  have hm := note_machine o a m'
  rw [← hm] at hc'
  have hmove := hr.move hsound.flagDown hsound.currentTask hf
  cases hmove with
  | same h' =>
    rw [h'.coroutine] at hc'
    rw [h'.asked] at hask
    exact h.outstanding id th e w ρ hc' hask (h'.outstanding id ρ hout)
  | install id₀ hi hc _ hasked _ hout' =>
    rw [hasked] at hask
    rw [hc] at hc'
    by_cases heq : id = id₀
    · subst heq
      rw [Function.update_self] at hc'
      cases hc'
      rw [hrec.asked_nextThread hsound] at hask
      cases hask
    · rw [Function.update_of_ne heq] at hc'
      exact h.outstanding id th e w ρ hc' hask (hout' id ρ hout)
  | resume id₀ th₀ rest hs _ hc₀ hc hasked _ hout' =>
    rw [hc] at hc'
    rw [hasked] at hask
    by_cases heq : th = th₀
    · rw [heq, Function.update_self] at hask
      cases hask
    · rw [Function.update_of_ne heq] at hask
      exact h.outstanding id th e w ρ hc' hask (hout' id ρ hout)
  | ask id₀ th₀ oldCurr rest ρ₀ ha hs hs' hc hasked _ hout' =>
    rcases ha with ⟨e₀, w₀, rfl, rfl⟩ | ⟨always, no, rfl, -⟩
    · simp only [Observed.keepsEventWaits, hs, Bool.and_eq_true, decide_eq_true_eq,
        Bool.not_eq_true'] at hok
      obtain ⟨⟨hinstalled, hfree⟩, -⟩ := hok
      rw [hc] at hc'
      rw [hasked] at hask
      by_cases heq : th = th₀
      · subst heq
        obtain rfl := hsound.coroutines.injective _ _ _ hc' hinstalled
        rw [Function.update_self] at hask
        cases hask
        rcases hout' id ρ hout with hold | ⟨-, rfl⟩
        · exact absurd hold (not_outstanding_of_registered hrec hfree ρ)
        · rfl
      · rw [Function.update_of_ne heq] at hask
        rcases hout' id ρ hout with hold | ⟨rfl, -⟩
        · exact h.outstanding id th e w ρ hc' hask hold
        · exact absurd (Option.some.inj (hc'.symm.trans hinstalled)) heq
    · exact absurd (hr.awaitCallback_mode hf) hmode
  | insert id₀ th₀ oldCurr rest e₀ hs hc hasked _ hout' =>
    simp only [Observed.keepsEventWaits, hs, Bool.and_eq_true, decide_eq_true_eq] at hok
    rw [hc] at hc'
    rw [hasked] at hask
    rcases hout' id ρ hout with hold | rfl
    · exact h.outstanding id th e w ρ hc' hask hold
    · cases hc'.symm.trans hok.1
      rw [hrec.asked_of_body hs] at hask
      cases hask

include h hsound hrec hr hok hf in
lemma EventWaits.call_step (hcb : o.machine.callbacks = []) {rest : List Frame} {e : EventID}
    {w : Waiter} (hs' : m'.stack = .call id :: rest) (hc' : m'.sched.taskCoroutineMap id = some th)
    (hask : (o.note a m').asked th = some (.event e w)) :
    id ∈ m'.sched.userRemovalTasksSet ∨ ∃ log, m'.log = .wake e w :: log := by
  have hm := note_machine o a m'
  rw [← hm] at hc'
  have hmove := hr.move hsound.flagDown hsound.currentTask hf
  cases hr.called hsound.shaped hf hs' with
  | fire n cb _ hn => simp [hcb] at hn
  | wake e₀ w₀ ha hw hid hlog =>
    subst ha
    have hsame := hmove.same_of_calls hr hf rfl
    rw [hsame.coroutine] at hc'
    rw [hsame.asked] at hask
    cases h.outstanding id th e w (.event e₀ w₀) hc' hask ⟨hid, mem_tokens_of_answers hw⟩
    exact .inr ⟨_, hlog⟩
  | pick kind start visited rest₀ ha =>
    subst ha
    have hsame := hmove.same_of_calls hr hf rfl
    rw [hsame.coroutine] at hc'
    rw [hsame.asked] at hask
    rw [hr.pick_sched hf]
    simp only [Observed.keepsEventWaits, Observed.waitsForEvent, hc', Option.bind_some, hask,
      Bool.not_true, Bool.false_or, Bool.and_eq_true, decide_eq_true_eq] at hok
    exact .inl hok.1
  | start hi =>
    have hinst := hmove.install_of_installs hr hf hi
    rw [hinst.coroutine, Function.update_self] at hc'
    cases hc'
    rw [hinst.asked, hrec.asked_nextThread hsound] at hask
    cases hask

include h hsound hrec hr hmode hok hf in
lemma EventWaits.step (hcb : o.machine.callbacks = []) : EventWaits (o.note a m') := by
  have hm := note_machine o a m'
  refine ⟨?_, ?_⟩
  · rw [hm]
    exact h.outstanding_step hsound hrec hr hmode hok hf
  · intro id rest th e w hs' hc' hask
    rw [hm] at hs' hc' ⊢
    exact h.call_step hsound hrec hr hok hf hcb hs' hc' hask

end Step

lemma eventWaits_of_reached (hmode : mode ≠ .normal)
    (h : Observed.Reached mode (fun o a => o.keepsEventWaits a = true) o) :
    o.machine.fault = none → EventWaits o := by
  refine Reach.invariant (I := fun o : Observed => o.machine.fault = none → EventWaits o) h ?_ ?_
  · exact fun _ => ⟨fun _ _ _ _ _ hc => (nomatch hc), fun _ _ _ _ _ hs => nomatch hs⟩
  · intro o a o' hreach ih hok hs hf
    obtain ⟨hstep, heq⟩ := Observed.machine_of_step hs
    obtain ⟨hm, hr⟩ := Rule.of_step hstep
    have hmachine : Machine.Reached mode Unguarded o.machine :=
      machine_of_reached hreach fun _ _ _ => trivial
    have hnormal : o.machine.mode ≠ .normal := mode_of_reached hmachine hm ▸ hmode
    rw [heq, Observed.observe, if_neg (by simp [hf])]
    exact (ih hm).step (sound_of_reached hreach hm) (recorded_of_reached hreach hm) hr hnormal hok hf
      (callbacks_of_reached hmachine hmode hm)

/-- In a run of a step mode in which no pass comes to a task that waits for an event, only the
installed coroutine waits, with nothing else registered for its task, and waits and wake-up loops
are prompt, event waits hold. -/
theorem eventWaitsHold_of_keepsEventWaits (hmode : mode ≠ .normal)
    (h : Observed.Reached mode (fun o a => o.keepsEventWaits a = true) o) : o.EventWaitsHold := by
  refine Reach.invariant (I := Observed.EventWaitsHold) h (fun r hr => nomatch hr) ?_
  intro o a o' hreach ih hok hs
  obtain ⟨hstep, heq⟩ := Observed.machine_of_step hs
  obtain ⟨hm, hr⟩ := Rule.of_step hstep
  rw [heq, Observed.observe]
  split_ifs with hf
  · exact ih
  · replace hf : o'.machine.fault = none := by simpa using hf
    have hsound := sound_of_reached hreach hm
    have hmove := hr.move hsound.flagDown hsound.currentTask hf
    have hprompt : wakesAnswered o.machine.log = true :=
      wakesAnswered_of_reached (machine_of_reached hreach fun o a hok => by
        simp only [Observed.keepsEventWaits, Bool.and_eq_true] at hok
        exact hok.2)
    cases hmove with
    | same h' => exact fun r hr => ih r (h'.resumptions ▸ hr)
    | install _ _ _ _ _ hres | insert _ _ _ _ _ _ _ _ hres | ask _ _ _ _ _ _ _ _ _ _ hres =>
      exact fun r hr => ih r (hres ▸ hr)
    | resume id th rest hs' hskip hc hc' hasked hres =>
      intro r hr e w hask
      rw [hres] at hr
      rcases List.mem_cons.mp hr with rfl | hr
      · dsimp only at hask ⊢
        rw [hask]
        rcases (eventWaits_of_reached hmode hreach hm).call id rest th e w hs' hc hask with
          hflag | ⟨log, hlog⟩
        · exact absurd ⟨hsound.counted.nrUser_pos hflag, hflag⟩ hskip
        · rw [hlog] at hprompt ⊢
          simp only [wakesAnswered, Bool.and_eq_true] at hprompt
          exact hprompt.1
      · exact ih r hr e w hask

/-- `A: e:wait()` in two passes over all tasks. -/
def passOverWaiting : List Act :=
  [.newEventHdl "e" none, .appendTask none "A" 0 true,
   .startPass .all, .pick 1, .enter, .wait 1, .yielded, .endPass, .startPass .all, .pick 1, .enter]

theorem not_eventWaitsHold :
    ¬ ∀ mode o, mode ≠ .normal → Observed.Reached mode Unguarded o → o.EventWaitsHold := by
  intro hall
  have hrun : (run Observed.step (Observed.init .step) passOverWaiting).map
      (fun o => o.resumptions.head?) = some (some ⟨0, some (.event 1 ⟨1, 0⟩), none, false⟩) := by
    decide +kernel
  obtain ⟨o, ho, hhead⟩ := Option.map_eq_some_iff.mp hrun
  have hsent := hall .step o (by decide) (reach_of_run ho) _ (List.mem_of_head? hhead) 1 ⟨1, 0⟩ rfl
  cases hsent

/-- `A: e:wait()` and `B: await_step(); e:send(); …`: the pass that comes to `B` again finds `A` no
longer waiting. -/
def sendInThePass : List Act :=
  [.newEventHdl "e" none, .appendTask none "A" 0 true, .appendTask none "B" 1 true,
   .startPass .all, .pick 1, .enter, .wait 1, .yielded, .pick 2, .enter, .send 1, .yield .noop,
   .yielded, .loop, .loop, .enter, .yield .noop, .yielded, .loop, .loop, .endPass,
   .startPass .all, .pick 1, .enter]

theorem eventWaitsHold_of_sendInThePass :
    ∃ o, runChecked Observed.step (fun o a => o.keepsEventWaits a = true) (Observed.init .step)
        sendInThePass = some o ∧
      ⟨0, some (.event 1 ⟨1, 0⟩), some (.event 1 ⟨1, 0⟩), true⟩ ∈ o.resumptions ∧
      o.EventWaitsHold := by
  have hrun : (runChecked Observed.step (fun o a => o.keepsEventWaits a = true)
      (Observed.init .step) sendInThePass).map (fun o => decide
        (⟨0, some (.event 1 ⟨1, 0⟩), some (.event 1 ⟨1, 0⟩), true⟩ ∈ o.resumptions)) = some true := by
    decide +kernel
  obtain ⟨o, ho, hmem⟩ := Option.map_eq_some_iff.mp hrun
  exact ⟨o, ho, of_decide_eq_true hmem,
    eventWaitsHold_of_keepsEventWaits (by decide) (reach_of_runChecked ho)⟩

end Verilua
