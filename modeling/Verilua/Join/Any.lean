import Verilua.Join.Steps

/-!
# `join` waits for exactly the given tasks

`join` on a list puts the task on all the lists at once and goes by `curr_wakeup_event_id`, which a
nested wake-up loop resets. Where the loops leave the variable to the task that they resume, and pass
on no task that does not wait, the joins return when their tasks have come to the end, and only then.
-/

namespace Verilua.Join

open TransitionSystem

variable {s s' : State} {a : Act}

namespace State

/-- `join` returns when the bodies of its handles have returned, and `join_all` when the bodies of
all handles that are in the group have. -/
structure JoinsInTime (s : State) : Prop where
  join : ∀ later ehdlVec earlier, s.log = later ++ .joined ehdlVec :: earlier →
    ∀ e ∈ ehdlVec, .returned e ∈ earlier
  joinAll : ∀ later g earlier, s.log = later ++ .joinedAll g :: earlier →
    ∀ e, .grouped g e ∈ earlier → .returned e ∈ earlier

/-- No task is suspended in a `join` all of whose handles are finished. -/
structure NoneStuck (s : State) : Prop where
  wait : ∀ id e, s.ctl id = some (.wait e) → s.kind e = some .eventHandleForJFork →
    s.unfinished e = true
  join : ∀ id st caller, s.ctl id = some (.join st caller) → ∃ e ∈ st.ehdlVec, s.unfinished e = true

/-- What `join` and `join_all` promise, in a run whose steps satisfy `ok`. -/
structure JoinsHold (ok : State → Act → Prop) (s : State) : Prop where
  noRaise : s.fault = none
  inTime : s.JoinsInTime
  noneStuck : ∀ a s', ok s a → s.step a = some s' → s'.core.fault = none →
    Returns s.core s'.core → s'.NoneStuck

end State

/-- The runs in which the loops resume a task for the event that it goes by. -/
def WakesJoiners (s : State) (a : Act) : Prop := s.proper a = true ∧ s.wakesJoiners a = true

instance (s : State) (a : Act) : Decidable (WakesJoiners s a) :=
  inferInstanceAs (Decidable (_ ∧ _))

lemma good_init : Good .init := by
  refine ⟨.refl, rfl, trivial, fun _ => ⟨⟨?_, ?_, ?_, ?_, ?_, ?_⟩, ⟨?_, ?_, ?_, ?_, ?_, ?_, ?_, ?_⟩,
    ⟨List.nodup_nil, ?_, ?_⟩, ?_⟩⟩
  all_goals simp [State.init, Machine.init, Scheduler.init, view, Library.awaits, View.Sent, Finished,
    Scheduler.waiting]

theorem good_of_reached (h : Reach State.step WakesJoiners .init s) : Good s :=
  h.invariant good_init fun _ _ _ _ hg hok hs => (hg.step hok.1 hok.2 hs).good

lemma Waited.holds {log later earlier : List Ev} {ev : Ev} (h : Waited log)
    (hlog : log = later ++ ev :: earlier) : ev.Holds earlier := by
  subst hlog
  induction later with
  | nil => exact h.1
  | cons _ _ ih => exact ih h.2

lemma Good.joinsInTime (h : Good s) : s.JoinsInTime :=
  ⟨fun _ _ _ hlog => h.waited.holds hlog, fun _ _ _ hlog => h.waited.holds hlog⟩

lemma Inv.not_finished {l : Library} {log : List Ev} {v : View} {e : EventID}
    (h : Inv l log v) (id : TaskID) (htaken : v.taken = []) (hpending : v.pending = [])
    (haw : l.awaits id e = true) : ¬ Finished l.kind v.named e := by
  intro hfin
  have hone := h.tokens.once id e haw
  rw [View.places, htaken, List.filter_nil, List.flatMap_nil, List.append_nil] at hone
  have hmem : id ∈ v.waiting e := List.count_pos_iff.mp (by rw [hone]; exact Nat.one_pos)
  have hdue := h.tokens.due e hfin id hmem haw
  rw [hpending, List.drop_nil] at hdue
  cases hdue

lemma Goes.noneStuck (h : Goes s s') (hf : s'.core.fault = none)
    (hret : Returns s.core s'.core) : s'.NoneStuck := by
  have hinv := h.good.inv hf
  obtain ⟨hbodies, htaken⟩ := view_of_not_inSchedule hret.2
  have hpending : (view s'.core).pending = [] :=
    (steady_of_plain h.good.reached hf).covered.pending_eq_nil (h.flag hf hret)
      (Machine.bus_loops_of_not_inSchedule hret.2)
  refine ⟨?_, ?_⟩
  · intro id e hctl hkind
    cases hun : s'.unfinished e with
    | true => rfl
    | false =>
      refine absurd ⟨hkind, hun⟩ (hinv.not_finished id htaken hpending ?_)
      rw [awaits_of_ctl hctl]
      simp [Ctl.awaits]
  · intro id st caller hctl
    obtain ⟨hj, -⟩ := hinv.busy id _ hctl
    have hout : id ∉ (view s'.core).bodies := by
      rw [hbodies]
      exact List.not_mem_nil
    obtain ⟨e, he⟩ := List.exists_mem_of_ne_nil st.left (hj.suspended hout)
    obtain ⟨hvec, -⟩ := hj.left e he
    refine ⟨e, hvec, ?_⟩
    cases hun : s'.unfinished e with
    | true => rfl
    | false =>
      refine absurd ⟨hj.kind e hvec, hun⟩ (hinv.not_finished id htaken hpending ?_)
      rw [awaits_of_ctl hctl]
      exact decide_eq_true he

/-- In a run whose loops resume the joiners for the events that they go by, `join` and `join_all` do
not raise, return when their tasks have returned, and leave nobody behind. -/
theorem joinsHold_of_wakesJoiners (h : Reach State.step WakesJoiners .init s) :
    s.JoinsHold WakesJoiners := by
  have hg := good_of_reached h
  exact ⟨hg.fault, hg.joinsInTime, fun a s' hok hs hf hret =>
    (hg.step hok.1 hok.2 hs).noneStuck hf hret⟩

/-- Two tasks of a group that finish one after the other. The owner joins them by a list and then by
`join_all`. Without the last step. -/
def joinedOneByOne : List Act :=
  [.fork "main" 0, .taskGroup, .jfork "j1" 1 (some 0), .await, .cont, .jfork "j2" 2 (some 0), .await,
   .cont, .joinVec [1, 2], .cont,
   .fire 0, .ret, .loop, .loop, .cont, .loop, .loop,
   .fire 0, .ret, .loop, .loop, .cont, .joinAll 0, .cont, .cont, .ret, .loop]

theorem joinsHold_of_joinedOneByOne :
    ∃ s s', runChecked State.step WakesJoiners .init joinedOneByOne = some s ∧
      s.JoinsHold WakesJoiners ∧ s.step .loop = some s' ∧ Returns s.core s'.core ∧
      s'.log = [.joinedAll 0, .joined [1, 2], .returned 2, .returned 1, .grouped 0 2,
        .grouped 0 1] := by
  have hrun : (runChecked State.step WakesJoiners .init joinedOneByOne).bind (fun s =>
      (s.step .loop).map fun s' => (s.core.inSchedule, s'.core.inSchedule, s'.log)) =
      some (true, false, [.joinedAll 0, .joined [1, 2], .returned 2, .returned 1, .grouped 0 2,
        .grouped 0 1]) := by decide +kernel
  obtain ⟨s, hs, hrest⟩ := Option.bind_eq_some_iff.mp hrun
  obtain ⟨s', hs', heq⟩ := Option.map_eq_some_iff.mp hrest
  simp only [Prod.mk.injEq] at heq
  obtain ⟨hin, hout, hlog⟩ := heq
  exact ⟨s, s', hs, joinsHold_of_wakesJoiners (reach_of_runChecked hs), hs', ⟨hin, hout⟩, hlog⟩

/-- `j1` and `j2` join `a`, and `main` joins `j1`. `a` returns: the loop resumes `j1`, which returns,
so that a nested loop resumes `main` and resets `curr_wakeup_event_id`. Then the outer loop
resumes `j2`, still for `a`. -/
def joinsBehindNestedLoop : List Act :=
  [.fork "main" 0, .jfork "a" 1 none, .await, .cont,
   .jfork "j1" 2 none, .joinVec [1], .cont, .cont, .jfork "j2" 3 none, .joinVec [1], .cont, .cont,
   .join 2, .fire 0, .ret, .loop, .loop, .cont, .ret,
   .loop, .loop, .loop, .loop, .ret, .loop, .loop, .loop]

theorem not_joinsHold : ¬ ∀ s, Reach State.step (fun s a => s.proper a = true) .init s →
    s.JoinsHold fun s a => s.proper a = true := by
  intro h
  have hrun : (runChecked State.step (fun s a => s.proper a = true) .init
      joinsBehindNestedLoop).map (fun s => s.fault) = some (some (.assertion "assertion failed!")) := by
    decide +kernel
  obtain ⟨s, hs, hf⟩ := Option.map_eq_some_iff.mp hrun
  have hnone := (h s (reach_of_runChecked hs)).noRaise
  exact absurd (hf.symm.trans hnone) (Option.some_ne_none _)

end Verilua.Join

/-!
### `join_any` returns a finished handle and leaves no trace

`join_any` leaves the lists of the other handles, but not what a wake-up loop has already taken of
them. Where the task is in nothing else that a loop has taken, its places for the other handles are
gone when it returns, and nothing brings them back.
-/

namespace Verilua.Join

open TransitionSystem

variable {s s' : State} {m m' : Machine} {a : Verilua.Act} {r : AnyJoined} {e : EventID} {w : Waiter}

/-! ### What is gone stays gone -/

lemma mem_wake_iff : .wake e w ∈ m.log ↔ .hand e w ∈ m.bus.log :=
  (mem_filterMap_entryOf (x := .hand e w)).symm

lemma AnyJoined.Gone.of_bus (h : r.Gone m) {b : EventBus.Act EventID Waiter}
    (hstep : m.bus.step b = some m'.bus) (hb : ∀ e w, b = .register e w → m.nextWaitNo ≤ w.waitNo)
    (hle : m.nextWaitNo ≤ m'.nextWaitNo) : r.Gone m' := by
  intro i e hi hne
  obtain ⟨htokens, hwake, hlt⟩ := h i e hi hne
  have hr := EventBus.Rule.of_step hstep
  refine ⟨fun hw => ?_, fun hw => ?_, hlt.trans_le hle⟩
  · rcases hr.mem_tokens hw with hw | heq
    · exact htokens hw
    · exact absurd hlt (Nat.not_lt.mpr (hb e _ heq))
  · rcases hr.mem_hand (mem_wake_iff.mp hw) with hw | hw
    · exact hwake (mem_wake_iff.mpr hw)
    · exact htokens hw

lemma AnyJoined.Gone.step (h : r.Gone m) (hd : FlagDown m) (hr : Rule m a m')
    (hf : m'.fault = none) : r.Gone m' := by
  have hle := hr.nextWaitNo_le hf
  rcases hr.refines hd hf with hsame | ⟨b, hb, hstep⟩
  · intro i e hi hne
    obtain ⟨htokens, hwake, hlt⟩ := h i e hi hne
    rw [mem_wake_iff, hsame, ← mem_wake_iff]
    exact ⟨htokens, hwake, hlt.trans_le hle⟩
  · refine h.of_bus hstep ?_ hle
    rintro e w rfl
    cases hb <;> exact Nat.le_refl _

lemma AnyJoined.Gone.drop (h : r.Gone m) (id : TaskID) (e : EventID) :
    r.Gone (dropWaiter id m e) := by
  rcases dropWaiter_refines id m e with heq | ⟨i, hstep⟩
  · rw [heq]
    exact h
  · exact h.of_bus hstep (fun _ _ heq => nomatch heq) (dropWaiter_nextWaitNo id m e).ge

lemma AnyJoined.Gone.later (h : r.Gone m) (hsteady : Steady m) (hl : Later m m') :
    m'.fault = none → r.Gone m' := by
  induction hl with
  | refl => exact fun _ => h
  | step hl _ hs ih =>
    intro hf
    obtain ⟨hm, hr⟩ := Rule.of_step hs
    exact (ih hm).step (hsteady.later hl hm).flagDown hr hf
  | drop _ id e ih => exact fun hf => (ih (dropWaiter_fault id _ e ▸ hf)).drop id e

lemma Goes.gone_of_mem (h : Goes s s') (hg : Good s) (hm : s.core.fault = none)
    (hgone : ∀ r, .joinedAny r ∈ s.log → r.Gone s.core) (hf : s'.core.fault = none) :
    ∀ r, .joinedAny r ∈ s'.log → r.Gone s'.core := by
  intro r hr
  rcases h.gone r hr with hold | ⟨-, hnew⟩
  · exact (hgone r hold).later (steady_of_plain hg.reached hm) h.later hf
  · exact hnew

lemma AnyJoined.Gone.not_wake (h : r.Gone m) (hsteady : Steady m) (hl : Later m m') {i : Nat}
    (hi : r.ehdlVec[i]? = some e) (hne : e ≠ r.ehdl) :
    .wake e ⟨r.id, r.first + i⟩ ∉ m'.log := by
  induction hl with
  | refl => exact (h i e hi hne).2.1
  | @step m₁ m₂ _ hl _ hs _ =>
    obtain ⟨hm₁, hr⟩ := Rule.of_step hs
    have hgone := h.later hsteady hl hm₁
    by_cases hf : m₂.fault = none
    · exact ((hgone.step (hsteady.later hl hm₁).flagDown hr hf) i e hi hne).2.1
    · intro hw
      rw [mem_wake_iff] at hw
      have hlog : m₂.bus.log = m₁.bus.log := hr.busLog_of_fault hm₁ hf
      rw [hlog, ← mem_wake_iff] at hw
      exact (hgone i e hi hne).2.1 hw
  | @drop m₁ _ id e' ih =>
    intro hw
    rcases dropWaiter_cases id m₁ e' with ⟨before, w, after, -, -, -, heq⟩ | ⟨heq, -⟩
    · rw [heq] at hw
      exact ih ((List.mem_cons.mp hw).resolve_left Verilua.Ev.noConfusion)
    · rw [heq] at hw
      exact ih hw

/-! ### Runs -/

namespace State

/-- `join_any` returns the handle that `curr_wakeup_event_id` names, one of its own, whose task has
returned; the task is then on the list of none of the others. -/
def AnyInTime (s : State) : Prop :=
  ∀ later r earlier, s.log = later ++ .joinedAny r :: earlier →
    r.curr = some r.ehdl ∧ r.ehdl ∈ r.ehdlVec ∧ .returned r.ehdl ∈ earlier ∧ r.left = false

/-- What `join_any` promises: it does not raise, it returns in time, and no place that it had on the
list of another one of its handles is ever passed on. -/
structure AnyHolds (s : State) : Prop where
  noRaise : s.fault = none
  inTime : s.AnyInTime
  noTrace : ∀ r, .joinedAny r ∈ s.log → ∀ i e, r.ehdlVec[i]? = some e → e ≠ r.ehdl →
    .wake e ⟨r.id, r.first + i⟩ ∉ s.core.log

end State

lemma gone_of_reached (h : Reach State.step WakesJoiners .init s) :
    (s.core.fault = none → ∀ r, .joinedAny r ∈ s.log → r.Gone s.core) ∧
      ∀ r, .joinedAny r ∈ s.log → ∀ i e, r.ehdlVec[i]? = some e → e ≠ r.ehdl →
        .wake e ⟨r.id, r.first + i⟩ ∉ s.core.log := by
  refine Reach.invariant (I := fun s : State =>
    (s.core.fault = none → ∀ r, .joinedAny r ∈ s.log → r.Gone s.core) ∧
      ∀ r, .joinedAny r ∈ s.log → ∀ i e, r.ehdlVec[i]? = some e → e ≠ r.ehdl →
        .wake e ⟨r.id, r.first + i⟩ ∉ s.core.log) h
    ⟨fun _ _ hr => (nomatch hr), fun _ hr => (nomatch hr)⟩ ?_
  rintro s a s' hreach ⟨hgone, -⟩ hok hs
  have hg := good_of_reached hreach
  have hm := fault_of_step hs
  have hgoes := hg.step hok.1 hok.2 hs
  have hgone' := hgoes.gone_of_mem hg hm (hgone hm)
  refine ⟨hgone', fun r hr i e hi hne => ?_⟩
  by_cases hf : s'.core.fault = none
  · exact (hgone' hf r hr i e hi hne).2.1
  · rcases hgoes.gone r hr with hold | ⟨hf', -⟩
    · exact (hgone hm r hold).not_wake (hg.steady hm) hgoes.later hi hne
    · exact absurd hf' hf

/-- In a run whose loops resume a task in `join_any` for the event that it goes by, and while it is in
nothing else that they have taken, `join_any` returns a finished handle and leaves no trace. -/
theorem anyHolds_of_wakesJoiners (h : Reach State.step WakesJoiners .init s) : s.AnyHolds := by
  have hg := good_of_reached h
  exact ⟨hg.fault, fun _ _ _ hlog => hg.waited.holds hlog, (gone_of_reached h).2⟩

/-- `main` joins any of two tasks, then the other one. -/
def oneThenTheOther : List Act :=
  [.fork "main" 0, .jfork "a" 1 none, .await, .cont, .jfork "b" 2 none, .await, .cont,
   .joinAny [1, 2], .fire 0, .ret, .loop, .loop, .join 2, .loop, .loop,
   .fire 0, .ret, .loop, .loop, .ret, .loop, .loop]

theorem anyHolds_of_oneThenTheOther :
    ∃ s, runChecked State.step WakesJoiners .init oneThenTheOther = some s ∧ s.AnyHolds ∧
      s.log = [.joined [2], .returned 2, .joinedAny ⟨1, [1, 2], 0, 1, some 1, false⟩,
        .returned 1] := by
  have hrun : (runChecked State.step WakesJoiners .init oneThenTheOther).map (fun s => s.log) =
      some [.joined [2], .returned 2, .joinedAny ⟨1, [1, 2], 0, 1, some 1, false⟩, .returned 1] := by
    decide +kernel
  obtain ⟨s, hs, hlog⟩ := Option.map_eq_some_iff.mp hrun
  exact ⟨s, hs, anyHolds_of_wakesJoiners (reach_of_runChecked hs), hlog⟩

/-- `j1` joins `a`, `j2` joins any of `a` and `b`, and `main` joins `j1`. `a` returns: the loop resumes
`j1`, which returns, so that a nested loop resumes `main` and resets `curr_wakeup_event_id`. Then
the outer loop resumes `j2`, still for `a`. -/
def joinsAnyBehindNestedLoop : List Act :=
  [.fork "main" 0, .jfork "a" 1 none, .await, .cont, .jfork "b" 2 none, .await, .cont,
   .jfork "j1" 3 none, .join 1, .cont, .jfork "j2" 4 none, .joinAny [1, 2], .cont, .join 3,
   .fire 0, .ret, .loop, .loop, .ret, .loop, .loop, .loop, .loop, .ret, .loop, .loop, .loop]

theorem not_anyHolds :
    ¬ ∀ s, Reach State.step (fun s a => s.proper a = true) .init s → s.AnyHolds := by
  intro h
  have hrun : (runChecked State.step (fun s a => s.proper a = true) .init
      joinsAnyBehindNestedLoop).map (fun s => s.fault) =
      some (some (.assertion "assertion failed!")) := by decide +kernel
  obtain ⟨s, hs, hf⟩ := Option.map_eq_some_iff.mp hrun
  have hnone := (h s (reach_of_runChecked hs)).noRaise
  exact absurd (hf.symm.trans hnone) (Option.some_ne_none _)

end Verilua.Join
