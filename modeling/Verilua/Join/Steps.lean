import Verilua.Join.Invariant

/-!
# The steps of the library keep the invariant

One lemma for each function, from the run of the scheduler that it makes and the view after that
run.
-/

namespace Verilua.Join

open TransitionSystem

variable {s s' : State} {id : TaskID} {e : EventID} {core : Machine} {as : List Verilua.Act}
  {th : ThreadID} {oldCurr : TaskID} {rest : List Frame} {ctl : Ctl}

/-- What holds between two steps. An error of the scheduler ends the run. -/
structure Good (s : State) : Prop where
  reached : Plain s.core
  fault : s.fault = none
  waited : Waited s.log
  inv : s.core.fault = none → Inv s.toLibrary s.log (view s.core)

/-- The places that the `join_any` had on the lists of the other handles will not be passed on. -/
def AnyJoined.Gone (r : AnyJoined) (m : Machine) : Prop :=
  ∀ i e, r.ehdlVec[i]? = some e → e ≠ r.ehdl →
    ⟨r.id, r.first + i⟩ ∉ m.bus.tokens e ∧ .wake e ⟨r.id, r.first + i⟩ ∉ m.log ∧
      r.first + i < m.nextWaitNo

lemma AnyJoined.gone_of_view {r : AnyJoined} {m : Machine}
    (hwaiting : ∀ e ∈ r.ehdlVec, e ≠ r.ehdl → r.id ∉ (view m).waiting e)
    (htaken : ∀ p ∈ (view m).taken, r.id ∉ p.2)
    (hwakes : ∀ p ∈ (view m).wakes, p.1 ≠ r.ehdl → p.2.taskId = r.id → p.2.waitNo < r.first)
    (hle : r.first + r.ehdlVec.length ≤ m.nextWaitNo) : r.Gone m := by
  intro i e hi hne
  obtain ⟨hlt, -⟩ := List.getElem?_eq_some_iff.mp hi
  refine ⟨fun hw => ?_, fun hw => ?_, (Nat.add_lt_add_left hlt r.first).trans_le hle⟩
  · rcases List.mem_append.mp hw with hw | hw
    · exact hwaiting e (List.mem_of_getElem? hi) hne (List.mem_map_of_mem (f := Waiter.taskId) hw)
    · obtain ⟨loop, hloop, hw⟩ := List.mem_flatMap.mp hw
      obtain ⟨f, hf, heq⟩ := List.mem_filterMap.mp hloop
      cases f with
      | wakeup next taken =>
        cases heq
        cases taken with
        | none => cases hw
        | some p =>
          obtain ⟨e', ws⟩ := p
          simp only [EventBus.Loop.tokens] at hw
          split_ifs at hw with he
          · exact htaken (e', ws.map Waiter.taskId) (List.mem_filterMap.mpr ⟨_, hf, rfl⟩)
              (List.mem_map_of_mem (f := Waiter.taskId) hw)
          · cases hw
      | _ => cases heq
  · have hlt := hwakes _ (mem_wakes.mpr hw) hne rfl
    exact absurd hlt (Nat.not_lt.mpr (Nat.le_add_right ..))

/-- What is proved of a step. -/
structure Goes (s s' : State) : Prop where
  good : Good s'
  later : Later s.core s'.core
  flag : s'.core.fault = none → Returns s.core s'.core → s'.core.sched.hasWakeupEvent = false
  gone : ∀ r, .joinedAny r ∈ s'.log →
    .joinedAny r ∈ s.log ∨ s'.core.fault = none ∧ r.Gone s'.core

/-- The log stays, or gets an entry. -/
def Logs (s s' : State) : Prop :=
  s'.log = s.log ∨ ∃ ev, s'.log = ev :: s.log ∧ ev.Holds s.log ∧ ∀ r, ev ≠ .joinedAny r

lemma Logs.waited (h : Logs s s') (hw : Waited s.log) : Waited s'.log := by
  rcases h with heq | ⟨ev, heq, hev, -⟩
  · rw [heq]
    exact hw
  · rw [heq]
    exact ⟨hev, hw⟩

lemma Logs.mem (h : Logs s s') {r : AnyJoined} (hr : .joinedAny r ∈ s'.log) :
    .joinedAny r ∈ s.log := by
  rcases h with heq | ⟨ev, heq, -, hany⟩
  · rwa [heq] at hr
  · rw [heq] at hr
    exact (List.mem_cons.mp hr).resolve_left fun heq => hany r heq.symm

lemma goes_of_exec (hg : Good s) (hm : s.core.fault = none) (hexec : exec s.core as = some s'.core)
    (hplain : as.all plain = true) (hsend : as.all notSend = true) (hfault : s'.fault = none)
    (hlog : Logs s s') (hinv : s'.core.fault = none → Inv s'.toLibrary s'.log (view s'.core)) :
    Goes s s' := by
  have hlater : Later s.core s'.core := Later.refl.exec hexec hplain
  refine ⟨⟨hg.reached.trans hlater, hfault, hlog.waited hg.waited, hinv⟩, hlater, ?_, ?_⟩
  · intro hf hret
    refine exec_flag (steady_of_plain hg.reached hm) hexec hplain hsend hm hf (fun hin => ?_) hret.2
    exact absurd (hret.1.symm.trans hin) Bool.noConfusion
  · exact fun r hr => .inl (hlog.mem hr)

lemma goes_of_core (hg : Good s) (hcore : s'.core = s.core) (hfault : s'.fault = none)
    (hlog : Logs s s') (hinv : s.core.fault = none → Inv s'.toLibrary s'.log (view s.core)) :
    Goes s s' := by
  refine ⟨⟨?_, hfault, hlog.waited hg.waited, ?_⟩, ?_, ?_, ?_⟩
  · rw [hcore]
    exact hg.reached
  · rw [hcore]
    exact hinv
  · rw [hcore]
    exact .refl
  · intro _ hret
    rw [hcore] at hret
    exact absurd (hret.1.symm.trans hret.2) Bool.noConfusion
  · exact fun r hr => .inl (hlog.mem hr)

lemma Caller.ctl_awaits (caller : Caller) (e : EventID) : caller.ctl.awaits e = false := by
  cases caller <;> rfl

lemma Caller.ctl_ne_jfork (caller : Caller) (e : EventID) (g : Option GroupID) :
    caller.ctl ≠ .jfork e g := by
  cases caller <;> simp [Caller.ctl]

lemma fault_of_step {a : Act} (h : s.step a = some s') : s.core.fault = none := by
  unfold State.step at h
  by_cases hfault : (s.core.fault.isSome || s.fault.isSome) = true
  · rw [if_pos hfault] at h
    cases h
  · simp only [Bool.or_eq_true, not_or, Bool.not_eq_true, Option.isSome_eq_false_iff,
      Option.isNone_iff_eq_none] at hfault
    exact hfault.1

namespace Good

/-! ### Events -/

lemma steady (hg : Good s) (hm : s.core.fault = none) : Steady s.core := steady_of_plain hg.reached hm

lemma newEvent (hg : Good s) (hm : s.core.fault = none) {name : String}
    (h : s.codeStep (.newEvent name) = some s') : Goes s s' := by
  obtain ⟨core, hexec, rfl⟩ := Option.map_eq_some_iff.mp h
  refine goes_of_exec hg hm hexec rfl rfl hg.fault (.inl rfl) fun hf => ?_
  obtain ⟨m₁, hr, hf₁, hlast⟩ := exec_cons hexec hm hf
  cases hlast
  cases halloc : s.core.sched.allocEventId with
  | none =>
    cases hr with
    | fault hf' => exact absurd hf' (by simp [hf₁])
    | restart _ _ _ _ _ _ hcl => nomatch hcl
    | newEventHdl name user e s₁ hs hc =>
      cases hc with
      | fresh _ _ hsome => exact absurd (halloc.symm.trans hsome) (by simp)
  | some p =>
    obtain ⟨hview, hle, -⟩ := view_newEvent (e := p.1) (s := p.2) halloc hr hf₁
    have hinv := (hg.inv hm).newEvent hle .eventHandle
    rw [← hview] at hinv
    exact hinv

lemma removeEvent (hg : Good s) (hm : s.core.fault = none) (hkind : s.kind e = some .eventHandle)
    (h : s.codeStep (.removeEvent e) = some s') : Goes s s' := by
  obtain ⟨core, hexec, rfl⟩ := Option.map_eq_some_iff.mp h
  refine goes_of_exec hg hm hexec rfl rfl hg.fault (.inl rfl) fun hf => ?_
  obtain ⟨m₁, hr, hf₁, hlast⟩ := exec_cons hexec hm hf
  cases hlast
  have hinv := (hg.inv hm).removeEvent hkind
  rw [← (view_removeEvent hr hf).1] at hinv
  exact hinv

lemma send (hg : Good s) (hm : s.core.fault = none) (hkind : s.kind e = some .eventHandle)
    (h : s.codeStep (.send e) = some s') : Goes s s' := by
  obtain ⟨core, hexec, rfl⟩ := Option.map_eq_some_iff.mp h
  have hlater : Later s.core core := Later.refl.exec hexec rfl
  have hrule : core.fault = none → Rule s.core (.send e) core := by
    intro hf
    obtain ⟨m₁, hr, hf₁, hlast⟩ := exec_cons hexec hm hf
    cases hlast
    exact hr
  refine ⟨⟨hg.reached.trans hlater, hg.fault, hg.waited, fun hf => ?_⟩, hlater, fun hf hret => ?_,
    fun r hr => .inl hr⟩
  · have hinv := (hg.inv hm).send hkind
    rw [← (view_send (hrule hf) hf).1] at hinv
    exact hinv
  · have hsame : core.inSchedule = s.core.inSchedule := by
      rw [Machine.inSchedule, Machine.inSchedule, (view_send (hrule hf) hf).2]
    exact absurd (hret.1.symm.trans (hsame.symm.trans hret.2)) Bool.noConfusion

/-! ### The body of a task -/

section Body

variable (hg : Good s) (hm : s.core.fault = none) (hs : s.core.stack = .body id th oldCurr :: rest)

include hg hm hs

lemma curr : s.core.sched.currTaskId = id := by
  rw [(hg.steady hm).currentTask.curr, hs]
  rfl

omit hg hm in
lemma bodies_eq : (view s.core).bodies = id :: rest.filterMap body? := by
  simp only [view, hs]
  rfl

omit hg hm in
lemma not_mem_bodies : ∀ id' ≠ id, id' ∉ (view s.core).bodies.tail → id' ∉ (view s.core).bodies := by
  intro id' hne hmem
  rw [bodies_eq hs] at hmem ⊢
  exact List.not_mem_cons_of_ne_of_not_mem hne hmem

omit hs in
lemma goes_suspend (h : s.suspend id ctl as = some s') (hplain : as.all plain = true)
    (hsend : as.all notSend = true)
    (hinv : ∀ core, exec s.core (as ++ [.yielded]) = some core → core.fault = none →
      Inv (s.toLibrary.setCtl id ctl) s.log (view core)) : Goes s s' := by
  obtain ⟨core, hexec, rfl⟩ := Option.map_eq_some_iff.mp h
  refine goes_of_exec hg hm hexec ?_ ?_ hg.fault (.inl rfl) fun hf => hinv core hexec hf
  · rw [List.all_append, hplain]
    rfl
  · rw [List.all_append, hsend]
    rfl

lemma yield {c : Ctl} {y : Yielded} (h : s.suspend id ctl [.yield y] = some s')
    (hctl : s.ctl id = some c) (hawait : c ≠ .await)
    (hout : ∀ e, c.awaits e = false) (hin : ∀ e, ctl.awaits e = false)
    (hjfork : ∀ e g, ctl ≠ .jfork e g) (hbusy : ∀ v, Busy s.toLibrary v id ctl) : Goes s s' := by
  refine goes_suspend hg hm h rfl rfl fun core hexec hf => ?_
  rw [view_yield hs hexec hm hf]
  exact (hg.inv hm).setCtl hctl hawait hout hin hjfork (not_mem_bodies hs) (hbusy _)

lemma wait_inv (hctl : s.ctl id = some .user) (hkind : s.kind e ≠ none)
    (hnot : ¬ Finished s.kind (view s.core).named e) {core : Machine}
    (hexec : exec s.core [.wait e, .yielded] = some core) (hf : core.fault = none) :
    Inv (s.toLibrary.setCtl id (.wait e)) s.log (view core) := by
  rw [view_wait hs (curr hg hm hs) hexec hm hf]
  refine (hg.inv hm).register hctl (by simp) (fun _ => rfl) (List.nodup_singleton e) ?_ ?_
    (by simp) (not_mem_bodies hs) trivial
  · intro e' he'
    have heq : e = e' := by simpa [Ctl.awaits] using he'
    subst heq
    exact ⟨List.mem_singleton_self e, hkind, hnot⟩
  · intro e' he'
    rw [List.mem_singleton.mp he']
    exact .inl (by simp [Ctl.awaits])

lemma wait (hctl : s.ctl id = some .user) (hkind : s.kind e = some .eventHandle)
    (h : s.suspend id (.wait e) [.wait e] = some s') : Goes s s' := by
  refine goes_suspend hg hm h rfl rfl fun core hexec hf => ?_
  refine wait_inv hg hm hs hctl (by simp [hkind]) ?_ hexec hf
  rintro ⟨hk, -⟩
  rw [hkind] at hk
  cases hk

lemma await (hctl : s.ctl id = some .user)
    (h : s.suspend id .await [.awaitCallback false] = some s') : Goes s s' := by
  refine goes_suspend hg hm h rfl rfl fun core hexec hf => ?_
  rw [view_await hs (curr hg hm hs) hexec hm hf]
  exact (hg.inv hm).await hctl (not_mem_bodies hs)

lemma ret (hctl : s.ctl id = some .user) (h : s.ret id = some s') : Goes s s' := by
  unfold State.ret at h
  split at h
  · exact yield hg hm hs h hctl (by simp) (fun _ => rfl) (fun _ => rfl) (by simp) fun _ => trivial
  · next e he =>
    obtain ⟨core, hexec, rfl⟩ := Option.map_eq_some_iff.mp h
    -- `ehdl:has_pending_wait()`: the event is sent if and only if a task is on its list
    have hsends : (if s.core.sched.waiting e = [] then [] else [Verilua.Act.send e]) =
        if decide (s.core.sched.waiting e ≠ []) then [.send e] else [] := by
      by_cases hw : s.core.sched.waiting e = [] <;> simp [hw]
    rw [hsends, List.append_assoc] at hexec
    have hplain : ((if decide (s.core.sched.waiting e ≠ []) then [Verilua.Act.send e] else []) ++
        [Verilua.Act.removeEvent e, .yield .returned, .yielded]).all plain = true := by
      split_ifs <;> rfl
    have hlater : Later s.core core := Later.refl.exec hexec hplain
    have hkind := (hg.inv hm).handles.handleOf id e he
    have hcov := (hg.steady hm).covered
    refine ⟨⟨hg.reached.trans hlater, hg.fault, ⟨trivial, hg.waited⟩, fun hf => ?_⟩, hlater, ?_, ?_⟩
    · show Inv (s.toLibrary.setCtl id .done) (.returned e :: s.log) (view core)
      rw [view_ret hs hexec hm hf]
      have hfinish := (hg.inv hm).finish hkind hcov.handled_le
        (decide (s.core.sched.waiting e ≠ [])) fun hw => by simpa [view] using hw
      refine hfinish.setCtl hctl (by simp) (fun _ => rfl) (fun _ => rfl) (by simp)
        (not_mem_bodies hs) trivial
    · intro hf hret
      obtain ⟨m₁, h₁, hm₁, hrest⟩ := exec_append hexec hm hf
      have hin : m₁.inSchedule = true := by
        rw [Machine.inSchedule, (view_sends h₁ hm hm₁).2, ← Machine.inSchedule]
        exact hret.1
      have hsteady : Steady m₁ := by
        refine (hg.steady hm).later (Later.refl.exec h₁ ?_) hm₁
        split_ifs <;> rfl
      refine exec_flag hsteady hrest rfl rfl hm₁ hf (fun hout => ?_) hret.2
      exact absurd (hin.symm.trans hout) Bool.noConfusion
    · exact fun r hr => .inl ((List.mem_cons.mp hr).resolve_left Ev.noConfusion)

/-! ### `join` -/

omit hs in
lemma returned_of_finished (hkind : s.kind e = some .eventHandleForJFork)
    (hfin : s.unfinished e = false) : .returned e ∈ s.log :=
  (hg.inv hm).handles.returned e ⟨hkind, hfin⟩

lemma joinOne (hctl : s.ctl id = some .user) (hkind : s.kind e = some .eventHandleForJFork)
    (h : s.joinOne id e = some s') : Goes s s' := by
  unfold State.joinOne at h
  split_ifs at h with hun
  · obtain ⟨core, hexec, rfl⟩ := Option.map_eq_some_iff.mp h
    have hlisted := ((hg.inv hm).handles.kind e (by simp [hkind])).1
    have hf : core.fault = none := exec_wait_noFault hs hm hun hlisted hexec
    refine goes_of_exec hg hm hexec rfl rfl hf (.inl rfl) fun _ => ?_
    show Inv (s.toLibrary.setCtl id (.wait e)) s.log (view core)
    exact wait_inv hg hm hs hctl (by simp [hkind])
      (fun hfin => absurd (hun.symm.trans hfin.2) Bool.noConfusion) hexec hf
  · cases h
    have hret := returned_of_finished hg hm hkind (by simpa using hun)
    refine goes_of_core hg rfl hg.fault (.inr ⟨.joined [e], rfl, ?_, by simp⟩) fun hf => ?_
    · intro e' he'
      rw [List.mem_singleton.mp he']
      exact hret
    · exact (hg.inv hf).record (by simp)

lemma joinVec {c : Ctl} {ehdlVec : List EventID} {caller : Caller} (hctl : s.ctl id = some c)
    (hawait : c ≠ .await) (hout : ∀ e, c.awaits e = false) (hnodup : ehdlVec.Nodup)
    (hkind : ∀ e ∈ ehdlVec, s.kind e = some .eventHandleForJFork)
    (hcaller : caller.Ok s.toLibrary (view s.core) (ehdlVec.filter s.unfinished))
    (h : s.joinVec id ehdlVec caller = some s') : Goes s s' := by
  have hall : (ehdlVec.all fun e => decide (s.kind e = some .eventHandleForJFork)) = true := by
    simpa using hkind
  rw [State.joinVec, if_pos hall] at h
  obtain ⟨core, hexec, rfl⟩ := Option.map_eq_some_iff.mp h
  have hlisted : ∀ e ∈ ehdlVec, (view s.core).listed e = true := fun e he =>
    ((hg.inv hm).handles.kind e (by simp [hkind e he])).1
  have hf : core.fault = none := exec_insertWaiters_noFault hs hm hlisted hexec
  obtain ⟨hview, -⟩ := view_insertWaiters hexec (curr hg hm hs) hm hf
  have hin : id ∈ (view s.core).bodies := by
    rw [bodies_eq hs]
    exact List.mem_cons_self
  refine goes_of_exec hg hm hexec (by simp [plain]) (by simp [notSend]) hf (.inl rfl) fun _ => ?_
  have hview' : view core = { ehdlVec.foldl (View.addWaiter id) (view s.core) with
      bodies := (view s.core).bodies
      top := (view s.core).top } := by
    rw [hview, addWaiters]
  show Inv (s.toLibrary.setCtl id _) s.log (view core)
  rw [hview']
  refine (hg.inv hm).register hctl hawait hout hnodup ?_ ?_ (by simp) (fun _ _ hmem => hmem) ?_
  · intro e he
    have hmem : e ∈ ehdlVec.filter s.unfinished := by simpa [Ctl.awaits] using he
    obtain ⟨hmem, hun⟩ := List.mem_filter.mp hmem
    refine ⟨hmem, by simp [hkind e hmem], ?_⟩
    rintro ⟨-, hn⟩
    exact absurd (hun.symm.trans hn) Bool.noConfusion
  · intro e he
    cases hun : s.unfinished e with
    | true =>
      left
      simpa [Ctl.awaits] using ⟨he, hun⟩
    | false => exact .inr ⟨hkind e he, hun⟩
  · refine ⟨⟨hkind, ?_, hnodup.filter _, ?_, ?_, fun hid => absurd hin hid⟩, ?_⟩
    · intro e he
      cases hun : s.unfinished e with
      | true => exact .inl (List.mem_filter.mpr ⟨he, hun⟩)
      | false => exact .inr hun
    · intro e he
      obtain ⟨hmem, -⟩ := List.mem_filter.mp he
      exact ⟨hmem, if_pos hmem⟩
    · have hlen := List.length_eq_countP_add_countP s.unfinished (l := ehdlVec)
      show 0 + (ehdlVec.filter s.unfinished).length =
        ehdlVec.length - ehdlVec.countP fun e => !s.unfinished e
      rw [← List.countP_eq_length_filter]
      simp only [Bool.not_eq_true, ← Bool.not_eq_true'] at hlen
      simp only [Bool.decide_eq_true] at hlen
      omega
    · cases caller with
      | user => trivial
      | joinAll g drainedUpTo => exact hcaller

lemma joinLoop {st : Waiting} {caller : Caller} (hctl : s.ctl id = some (.join st caller))
    (h : s.joinLoop id st caller = some s') : Goes s s' := by
  obtain ⟨hj, hcaller⟩ := (hg.inv hm).busy id _ hctl
  unfold State.joinLoop at h
  split_ifs at h with hcnt
  · cases h
    have hleft : st.left = [] := by
      have hlen := hj.cnt
      rw [hcnt] at hlen
      exact List.length_eq_zero_iff.mp (by omega)
    have hnamed : ∀ e ∈ st.ehdlVec, (view s.core).named e = false := by
      intro e he
      have hvec := hj.vec e he
      rw [hleft] at hvec
      exact hvec.resolve_left List.not_mem_nil
    refine goes_of_core hg rfl hg.fault (.inr ⟨.joined st.ehdlVec, rfl, ?_, by simp⟩) fun hf => ?_
    · intro e he
      exact returned_of_finished hg hm (hj.kind e he) (hnamed e he)
    · refine ((hg.inv hf).record (by simp)).goOn hctl (by simp) ?_ caller.ctl_awaits
        caller.ctl_ne_jfork ?_
      · simp [Ctl.awaits, hleft]
      · cases caller with
        | user => trivial
        | joinAll g drainedUpTo =>
          rw [hleft] at hcaller
          exact hcaller
  · obtain ⟨core, hexec, rfl⟩ := Option.map_eq_some_iff.mp h
    refine goes_of_exec hg hm hexec rfl rfl hg.fault (.inl rfl) fun hf => ?_
    show Inv s.toLibrary s.log (view core)
    rw [view_yield hs hexec hm hf]
    refine (hg.inv hm).suspend hctl (not_mem_bodies hs) ⟨⟨hj.kind, hj.vec, hj.nodup, hj.left, hj.cnt,
      fun _ hnil => ?_⟩, ?_⟩
    · have hlen := hj.cnt
      rw [hnil, List.length_nil, Nat.add_zero] at hlen
      exact hcnt hlen
    · cases caller with
      | user => trivial
      | joinAll g drainedUpTo => exact hcaller

/-! ### Groups -/

omit hm hs in
lemma joinAll {g : GroupID} (hctl : s.ctl id = some .user)
    (hproper : s.proper (.joinAll g) = true) (h : s.joinAll id g = some s') : Goes s s' := by
  unfold State.joinAll at h
  split at h
  · cases h
  · next tg htg =>
    have howner : tg.ownerTaskId = s.core.sched.currTaskId := by
      simpa [State.proper, htg] using hproper
    rw [if_pos howner] at h
    cases h
    refine goes_of_core hg rfl hg.fault (.inl rfl) fun hf => ?_
    refine (hg.inv hf).goOn hctl (by simp) (fun _ => rfl) (fun _ => rfl) (by simp) ?_
    exact ⟨tg, htg, Nat.zero_le _, fun e he => by simp at he⟩

lemma joinAllLoop {g : GroupID} {drainedUpTo : Nat}
    (hctl : s.ctl id = some (.joinAll g drainedUpTo))
    (h : s.joinAllLoop id g drainedUpTo = some s') : Goes s s' := by
  obtain ⟨tg, htg, hle, hall⟩ := (hg.inv hm).busy id _ hctl
  have hin := List.mem_of_getElem? htg
  have hkind := (hg.inv hm).handles.groups tg hin
  have hfin : ∀ e ∈ tg.handles.take drainedUpTo, s.unfinished e = false := fun e he =>
    (hall e he).resolve_left List.not_mem_nil
  rw [State.joinAllLoop, htg] at h
  dsimp only at h
  split_ifs at h with hn hpending
  · cases h
    refine goes_of_core hg rfl hg.fault (.inr ⟨.joinedAll g, rfl, ?_, by simp⟩) fun hf => ?_
    · intro e he
      obtain ⟨tg', htg', hmem⟩ := (hg.inv hm).handles.grouped g e he
      rw [htg] at htg'
      cases htg'
      refine returned_of_finished hg hm (hkind e hmem) (hfin e ?_)
      rw [← hn, List.take_length]
      exact hmem
    · exact ((hg.inv hf).record (by simp)).goOn hctl (by simp) (fun _ => rfl) (fun _ => rfl)
        (by simp) trivial
  · cases h
    refine goes_of_core hg rfl hg.fault (.inl rfl) fun hf => ?_
    refine (hg.inv hf).goOn hctl (by simp) (fun _ => rfl) (fun _ => rfl) (by simp) ?_
    refine ⟨tg, htg, Nat.le_refl _, fun e he => .inr ?_⟩
    rw [List.take_length, ← List.take_append_drop drainedUpTo tg.handles] at he
    rcases List.mem_append.mp he with he | he
    · exact hfin e he
    · have hun := List.filter_eq_nil_iff.mp hpending e he
      simpa [State.unfinished, view] using hun
  · refine joinVec hg hm hs hctl (by simp) (fun _ => rfl) ?_ ?_ ?_ h
    · exact ((hg.inv hm).handles.nodup tg hin).sublist
        (List.filter_sublist.trans (List.drop_sublist _ _))
    · intro e he
      exact hkind e (List.mem_of_mem_drop (List.mem_of_mem_filter he))
    · refine ⟨tg, htg, Nat.le_refl _, fun e he => ?_⟩
      rw [List.take_length, ← List.take_append_drop drainedUpTo tg.handles] at he
      rcases List.mem_append.mp he with he | he
      · exact .inr (hfin e he)
      · cases hun : s.unfinished e with
        | true => exact .inl (List.mem_filter.mpr ⟨List.mem_filter.mpr ⟨he, hun⟩, hun⟩)
        | false => exact .inr hun

omit hm hs in
lemma taskGroup (h : s.userStep id .taskGroup = some s') : Goes s s' := by
  cases h
  exact goes_of_core hg rfl hg.fault (.inl rfl) fun hf => (hg.inv hf).newGroup _

omit hs in
lemma addHandle {g : Option GroupID} (hctl : s.ctl id = some (.jfork e g)) :
    Goes s ((s.addHandle e g).setCtl id .user) := by
  obtain ⟨-, hlt⟩ := (hg.inv hm).busy id _ hctl
  cases g with
  | none =>
    refine goes_of_core hg rfl hg.fault (.inl rfl) fun hf => ?_
    exact (hg.inv hf).goOn hctl (by simp) (fun _ => rfl) (fun _ => rfl) (by simp) trivial
  | some g =>
    refine goes_of_core hg rfl hg.fault (.inr ⟨.grouped g e, rfl, trivial, by simp⟩) fun hf => ?_
    exact (hg.inv hf).addHandle hctl (hlt g rfl)

/-! ### `join_any` -/

lemma joinAny {ehdlVec : List EventID} (hctl : s.ctl id = some .user) (hne : ehdlVec ≠ [])
    (hnodup : ehdlVec.Nodup) (hkind : ∀ e ∈ ehdlVec, s.kind e = some .eventHandleForJFork)
    (h : s.joinAny id ehdlVec = some s') : Goes s s' := by
  have hall : (ehdlVec.all fun e => decide (s.kind e = some .eventHandleForJFork)) = true := by
    simpa using hkind
  unfold State.joinAny at h
  rw [if_neg hne, if_pos hall] at h
  by_cases hun : ehdlVec.all s.unfinished = true
  · rw [if_pos hun] at h
    obtain ⟨core, hexec, rfl⟩ := Option.map_eq_some_iff.mp h
    have hnamed : ∀ e ∈ ehdlVec, (view s.core).named e = true := by
      simpa [State.unfinished, view] using hun
    have hlisted : ∀ e ∈ ehdlVec, (view s.core).listed e = true := fun e he =>
      ((hg.inv hm).handles.kind e (by simp [hkind e he])).1
    have hreg (top : Option TaskID) : Inv (s.toLibrary.setCtl id (.joinAny ehdlVec s.core.nextWaitNo))
        s.log { ehdlVec.foldl (View.addWaiter id) (view s.core) with
          bodies := (view s.core).bodies.tail, top := top } := by
      refine (hg.inv hm).register hctl (by simp) (fun _ => rfl) hnodup ?_ ?_ (by simp)
        (not_mem_bodies hs) ⟨hnodup, hkind, Nat.le_refl _, fun p hp _ =>
          (hg.steady hm).waitNo_lt (mem_wakes.mp hp)⟩
      · intro e he
        have hmem : e ∈ ehdlVec := by simpa [Ctl.awaits] using he
        refine ⟨hmem, by simp [hkind e hmem], ?_⟩
        rintro ⟨-, hn⟩
        exact absurd ((hnamed e hmem).symm.trans hn) Bool.noConfusion
      · exact fun e he => .inl (by simpa [Ctl.awaits] using he)
    split at hexec
    · next e =>
      have he : e ∈ [e] := List.mem_singleton_self e
      have hf : core.fault = none := exec_wait_noFault hs hm (hnamed e he) (hlisted e he) hexec
      refine goes_of_exec hg hm hexec rfl rfl hf (.inl rfl) fun _ => ?_
      show Inv (s.toLibrary.setCtl id _) s.log (view core)
      rw [view_wait hs (curr hg hm hs) hexec hm hf]
      exact hreg _
    · rw [exec_append_eq] at hexec
      obtain ⟨m₁, h₁, hrest⟩ := Option.bind_eq_some_iff.mp hexec
      have hm₁ : m₁.fault = none := exec_insertWaiters_noFault hs hm hlisted h₁
      obtain ⟨hview, hstack, -⟩ := view_insertWaiters h₁ (curr hg hm hs) hm hm₁
      have hf : core.fault = none := exec_yield_noFault (hstack.trans hs) hm₁ hrest
      have hexec' := exec_append_eq (ehdlVec.map .insertWaiter) [.yield .noop, .yielded] s.core
      rw [h₁, Option.bind_some, hrest] at hexec'
      refine goes_of_exec hg hm hexec' (by simp [plain]) (by simp [notSend]) hf (.inl rfl) fun _ => ?_
      show Inv (s.toLibrary.setCtl id _) s.log (view core)
      rw [view_yield (hstack.trans hs) hrest hm₁ hf, hview]
      have hbodies : (ehdlVec.foldl (View.addWaiter id) (view s.core)).bodies =
          (view s.core).bodies := by rw [addWaiters]
      rw [hbodies]
      exact hreg _
  · rw [if_neg hun] at h
    cases h
    exact goes_of_core hg rfl hg.fault (.inl rfl) hg.inv

lemma joinAnyGroup {g : GroupID} (hctl : s.ctl id = some .user)
    (hproper : s.proper (.joinAnyGroup g) = true) (h : s.joinAnyGroup id g = some s') :
    Goes s s' := by
  unfold State.joinAnyGroup at h
  split at h
  · cases h
  · next tg htg =>
    have howner : tg.ownerTaskId = s.core.sched.currTaskId := by
      simpa [State.proper, htg] using hproper
    have hin := List.mem_of_getElem? htg
    rw [if_pos howner] at h
    dsimp only at h
    split_ifs at h with hpending
    · cases h
      exact goes_of_core hg rfl hg.fault (.inl rfl) hg.inv
    · refine joinAny hg hm hs hctl hpending (((hg.inv hm).handles.nodup tg hin).filter _) ?_ h
      intro e he
      exact (hg.inv hm).handles.groups tg hin e (List.mem_of_mem_filter he)

/-! ### `jfork` -/

omit hs in
lemma jfork {name : String} {body : BodyID} {g : Option GroupID} (hctl : s.ctl id = some .user)
    (hg' : ∀ g', g = some g' → g' < s.groups.length) (h : s.jfork id name body g = some s') :
    Goes s s' := by
  unfold State.jfork at h
  dsimp only at h
  split at h
  · next e s₁ child s₂ he hchild =>
    obtain ⟨core, hexec, rfl⟩ := Option.map_eq_some_iff.mp h
    refine goes_of_exec hg hm hexec rfl rfl hg.fault (.inl rfl) fun hf => ?_
    obtain ⟨hview, hknown, hle⟩ := view_jfork (hg.steady hm).clean he hchild hexec
      (hg.steady hm).mode hm hf
    have hinv := ((hg.inv hm).newHandle hctl hle child hg').fork hknown
    exact hview ▸ hinv
  · next hnone =>
    obtain ⟨core, hexec, rfl⟩ := Option.map_eq_some_iff.mp h
    refine goes_of_exec hg hm hexec rfl rfl hg.fault (.inl rfl) fun hf => ?_
    obtain ⟨e, s₁, child, s₂, he, hchild⟩ := allocs_of_exec_jfork hexec hm hf
    exact (hnone e s₁ child s₂ he hchild).elim

end Body

lemma fork (hg : Good s) (hm : s.core.fault = none) {name : String} {body : BodyID}
    (h : s.fork name body = some s') : Goes s s' := by
  unfold State.fork at h
  dsimp only at h
  split at h
  · next hnone =>
    obtain ⟨core, hexec, rfl⟩ := Option.map_eq_some_iff.mp h
    refine goes_of_exec hg hm hexec rfl rfl hg.fault (.inl rfl) fun hf => ?_
    obtain ⟨child, s₁, hchild⟩ := alloc_of_exec_fork hexec hm hf
    rw [hnone] at hchild
    cases hchild
  · next child s₁ hchild =>
    obtain ⟨core, hexec, rfl⟩ := Option.map_eq_some_iff.mp h
    refine goes_of_exec hg hm hexec rfl rfl hg.fault (.inl rfl) fun hf => ?_
    obtain ⟨hview, hknown⟩ := view_fork (hg.steady hm).clean hchild hexec (hg.steady hm).mode hm hf
    have hinv := (hg.inv hm).fork hknown
    exact hview ▸ hinv

/-! ### Tasks are resumed -/

lemma resume_cases (h : s.resume id as = some s') : ∃ core, exec s.core as = some core ∧
    (core.fault ≠ none ∧ s' = { s with core := core } ∨
      core.fault = none ∧ s' = ({ s with core := core } : State).resumed id) := by
  obtain ⟨core, hexec, rfl⟩ := Option.map_eq_some_iff.mp h
  refine ⟨core, hexec, ?_⟩
  cases hf : core.fault with
  | none => exact .inr ⟨rfl, by simp⟩
  | some f => exact .inl ⟨Option.some_ne_none f, by simp⟩

lemma goes_of_fault (hg : Good s) (hm : s.core.fault = none) (hexec : exec s.core as = some core)
    (hplain : as.all Join.plain = true) (hsend : as.all notSend = true) (hf : core.fault ≠ none) :
    Goes s { s with core := core } :=
  goes_of_exec hg hm hexec hplain hsend hg.fault (.inl rfl) fun hf' => absurd hf' hf

lemma fire (hg : Good s) (hm : s.core.fault = none) {n : Nat}
    (h : s.codeStep (.fire n) = some s') : Goes s s' := by
  unfold State.codeStep at h
  dsimp only at h
  split at h
  · next cb hcb =>
    obtain ⟨core, hexec, ⟨hf, rfl⟩ | ⟨hf, rfl⟩⟩ := resume_cases h
    · exact goes_of_fault hg hm hexec rfl rfl hf
    · obtain ⟨hview, hn⟩ := view_fire (hg.steady hm).clean hcb hexec hm hf
      have hctl : s.ctl cb.taskId = some .await :=
        (hg.inv hm).callbacks.await cb.taskId (List.mem_of_getElem? hn)
      have hres : ({ s with core := core } : State).resumed cb.taskId =
          State.setCtl { s with core := core } cb.taskId .user := by
        simp [State.resumed, hctl]
      rw [hres]
      refine goes_of_exec hg hm hexec rfl rfl hg.fault (.inl rfl) fun _ => ?_
      have hinv := (hg.inv hm).fire hn
      rw [← hview] at hinv
      exact hinv
  · cases h

lemma not_mem_taken (hrest : rest.any (State.holds id) = false) :
    ∀ p ∈ rest.filterMap taken?, id ∉ p.2 := by
  intro p hp hid
  obtain ⟨f, hf, heq⟩ := List.mem_filterMap.mp hp
  have hnot := List.any_eq_false.mp hrest f hf
  cases f with
  | wakeup n taken =>
    cases taken with
    | none => cases heq
    | some q =>
      cases heq
      obtain ⟨w', hw', hid'⟩ := List.mem_map.mp hid
      exact hnot (List.any_eq_true.mpr ⟨w', hw', by simpa using hid'⟩)
  | _ => cases heq

section Wake

variable {next : Nat} {w : Waiter} {ws : List Waiter}

lemma taken_eq (hs : s.core.stack = .wakeup next (some (e, w :: ws)) :: rest) :
    (view s.core).taken = (e, w.taskId :: ws.map Waiter.taskId) :: rest.filterMap taken? := by
  simp only [view, hs]
  rfl

variable (hg : Good s) (hm : s.core.fault = none)
  (hs : s.core.stack = .wakeup next (some (e, w :: ws)) :: rest)

include hg hm hs

lemma view_woken (hexec : exec s.core [.loop, .enter] = some core) (hf : core.fault = none) :
    view core = View.addBody { view s.core with
      taken := (e, ws.map Waiter.taskId) :: rest.filterMap taken?
      wakes := (e, w) :: (view s.core).wakes } w.taskId ∧
      core.sched.currWakeupEventId = s.core.sched.currWakeupEventId := by
  obtain ⟨hview, hcurr, -⟩ := view_wake hs (hg.steady hm).clean hexec hm hf
  rw [taken_eq hs] at hview
  exact ⟨hview, hcurr⟩

lemma awaits_of_taken : s.awaits w.taskId e = true :=
  (hg.inv hm).tokens.taken (e, w.taskId :: ws.map Waiter.taskId) (by simp [taken_eq hs]) w.taskId
    List.mem_cons_self

lemma finished_of_taken (hkind : s.kind e = some .eventHandleForJFork) : s.unfinished e = false := by
  refine ((hg.inv hm).tokens.sent e (.inr ?_)).2 hkind
  simp [taken_eq hs]

lemma wakeWait {e' : EventID} (hctl : s.ctl w.taskId = some (.wait e'))
    (h : s.resume w.taskId [.loop, .enter] = some s') : Goes s s' := by
  have heq : e' = e := by
    have haw := awaits_of_taken hg hm hs
    rw [awaits_of_ctl hctl] at haw
    exact of_decide_eq_true haw
  subst heq
  obtain ⟨core, hexec, ⟨hf, rfl⟩ | ⟨hf, rfl⟩⟩ := resume_cases h
  · exact goes_of_fault hg hm hexec rfl rfl hf
  · obtain ⟨hview, -⟩ := view_woken hg hm hs hexec hf
    have hwake {log : List Ev} (hinv : Inv s.toLibrary log (view s.core)) :
        Inv (s.toLibrary.setCtl w.taskId .user) log (view core) := by
      rw [hview]
      refine hinv.wake (taken_eq hs) (fun e₁ => ?_) (by simp) trivial rfl
      rw [awaits_of_ctl hctl]
      simpa [Ctl.awaits] using Eq.symm
    by_cases hkind : s.kind e' = some .eventHandleForJFork
    · have hres : ({ s with core := core } : State).resumed w.taskId =
          State.setCtl { s with core := core, log := .joined [e'] :: s.log } w.taskId .user := by
        simp [State.resumed, hctl, hkind]
      rw [hres]
      refine goes_of_exec hg hm hexec rfl rfl hg.fault (.inr ⟨.joined [e'], rfl, ?_, by simp⟩)
        fun _ => hwake ((hg.inv hm).record (by simp))
      intro e₁ he₁
      rw [List.mem_singleton.mp he₁]
      exact returned_of_finished hg hm hkind (finished_of_taken hg hm hs hkind)
    · have hres : ({ s with core := core } : State).resumed w.taskId =
          State.setCtl { s with core := core } w.taskId .user := by
        simp [State.resumed, hctl, hkind]
      rw [hres]
      exact goes_of_exec hg hm hexec rfl rfl hg.fault (.inl rfl) fun _ => hwake (hg.inv hm)

lemma wakeJoin {st : Waiting} {caller : Caller} (hctl : s.ctl w.taskId = some (.join st caller))
    (hcurr : s.core.sched.currWakeupEventId = some e)
    (h : s.resume w.taskId [.loop, .enter] = some s') : Goes s s' := by
  have hmem : e ∈ st.left := by
    have haw := awaits_of_taken hg hm hs
    rw [awaits_of_ctl hctl] at haw
    exact of_decide_eq_true haw
  obtain ⟨hj, hcaller⟩ := (hg.inv hm).busy w.taskId _ hctl
  obtain ⟨hvec, hfinished⟩ := hj.left e hmem
  have hnamed : (view s.core).named e = false := finished_of_taken hg hm hs (hj.kind e hvec)
  have hleft : ∀ e' ∈ st.left, e' ∈ st.left.erase e ∨ (view s.core).named e' = false := by
    intro e' he'
    by_cases heq : e' = e
    · exact .inr (heq ▸ hnamed)
    · exact .inl ((List.mem_erase_of_ne heq).mpr he')
  obtain ⟨core, hexec, ⟨hf, rfl⟩ | ⟨hf, rfl⟩⟩ := resume_cases h
  · exact goes_of_fault hg hm hexec rfl rfl hf
  · obtain ⟨hview, hcurr'⟩ := view_woken hg hm hs hexec hf
    have hres : ({ s with core := core } : State).resumed w.taskId =
        State.setCtl { s with core := core } w.taskId (.join { st with
          finishedEhdlVec := Function.update st.finishedEhdlVec e (some true)
          finishedCnt := st.finishedCnt + 1
          left := st.left.erase e } caller) := by
      simp [State.resumed, State.joinResumed, hctl, hcurr', hcurr, hfinished]
    rw [hres]
    refine goes_of_exec hg hm hexec rfl rfl hg.fault (.inl rfl) fun _ => ?_
    show Inv (s.toLibrary.setCtl w.taskId _) s.log (view core)
    rw [hview]
    refine (hg.inv hm).wake (taken_eq hs) (fun e' => ?_) (by simp) ?_ rfl
    · rw [awaits_of_ctl hctl]
      simp [Ctl.awaits, hj.nodup.mem_erase_iff, and_comm]
    · refine ⟨⟨hj.kind, ?_, hj.nodup.erase e, ?_, ?_, fun hid => ?_⟩, ?_⟩
      · intro e' he'
        rcases hj.vec e' he' with hin | hn
        · exact hleft e' hin
        · exact .inr hn
      · intro e' he'
        obtain ⟨hne, hin⟩ := hj.nodup.mem_erase_iff.mp he'
        exact ⟨(hj.left e' hin).1, (Function.update_of_ne hne ..).trans (hj.left e' hin).2⟩
      · have hlen := hj.cnt
        rw [← List.length_erase_add_one hmem] at hlen
        show st.finishedCnt + 1 + (st.left.erase e).length = st.expectFinishedCnt
        omega
      · exact absurd List.mem_cons_self hid
      · cases caller with
        | user => trivial
        | joinAll g drainedUpTo => exact Drained.of_left hcaller hleft

lemma wakeJoinAny {ehdlVec : List EventID} {first : Nat}
    (hctl : s.ctl w.taskId = some (.joinAny ehdlVec first))
    (hcurr : s.core.sched.currWakeupEventId = some e)
    (hws : (ws.any fun w' => w'.taskId = w.taskId) = false)
    (hrest : rest.any (State.holds w.taskId) = false)
    (h : s.resume w.taskId [.loop, .enter] = some s') : Goes s s' := by
  have hmem : e ∈ ehdlVec := by
    have haw := awaits_of_taken hg hm hs
    rw [awaits_of_ctl hctl] at haw
    exact of_decide_eq_true haw
  obtain ⟨hnodup, hkind, hle, hwakes⟩ := (hg.inv hm).busy w.taskId _ hctl
  have hids : w.taskId ∉ ws.map Waiter.taskId := by
    intro hid
    obtain ⟨w', hw', hid'⟩ := List.mem_map.mp hid
    exact List.any_eq_false.mp hws w' hw' (by simpa using hid')
  obtain ⟨core, hexec, ⟨hf, rfl⟩ | ⟨hf, rfl⟩⟩ := resume_cases h
  · exact goes_of_fault hg hm hexec rfl rfl hf
  · obtain ⟨hview, hcurr'⟩ := view_woken hg hm hs hexec hf
    have hres : ({ s with core := core } : State).resumed w.taskId =
        State.anyJoined { s with core := core } w.taskId ehdlVec first e := by
      have hres' : ({ s with core := core } : State).resumed w.taskId =
          State.joinAnyResumed { s with core := core } w.taskId ehdlVec first := by
        simp [State.resumed, hctl]
      rw [hres']
      unfold State.joinAnyResumed
      split
      · next e' => rw [List.mem_singleton.mp hmem]
      · simp [hcurr', hcurr, hmem]
    rw [hres]
    have hinv := hg.inv hm
    have hotherTaken := not_mem_taken hrest
    obtain ⟨hdrop, hstack⟩ := view_dropWaiters core w.taskId
      (ehdlVec.filter fun e' => decide (e' ≠ e))
    have hf' := (dropWaiters_fault w.taskId core (ehdlVec.filter fun e' => decide (e' ≠ e))).trans hf
    have hnot := hinv.not_mem_wakeAny (w := w) (taken_eq hs) hctl hids hotherTaken
    have hlater : Later s.core ((ehdlVec.filter fun e' => decide (e' ≠ e)).foldl
        (Join.dropWaiter w.taskId) core) := (Later.refl.exec hexec rfl).drops _ _
    -- only the lists change when the task leaves them
    have hview' := hdrop
    rw [dropWaiters (hnodup.filter _), hview] at hview'
    have hret := returned_of_finished hg hm (hkind e hmem) (finished_of_taken hg hm hs (hkind e hmem))
    rw [← hview, ← hdrop] at hnot
    refine ⟨⟨hg.reached.trans hlater, hg.fault, ⟨⟨hcurr'.trans hcurr, hmem, ?_, ?_⟩, hg.waited⟩,
      fun _ => ?_⟩, hlater, fun _ hret => ?_, fun r hr => ?_⟩
    · exact hret
    · refine List.any_eq_false.mpr fun e' he' => ?_
      obtain ⟨hin, hne⟩ := List.mem_filter.mp he'
      intro hany
      obtain ⟨w', hw', hid⟩ := List.any_eq_true.mp hany
      refine hnot e' hin (of_decide_eq_true hne) (List.mem_map.mpr ⟨w', hw', ?_⟩)
      exact of_decide_eq_true hid
    · have hrecord (r : AnyJoined) : Inv s.toLibrary (.joinedAny r :: s.log) (view s.core) :=
        hinv.record (by simp)
      have hinv' (r : AnyJoined) :=
        (hrecord r).wakeAny (w := w) (taken_eq hs) hctl hids hotherTaken rfl
      rw [← hview, ← hdrop] at hinv'
      exact hinv' _
    · obtain ⟨hbodies, -⟩ := view_of_not_inSchedule hret.2
      have hcons := congrArg View.bodies hview'
      exact (List.cons_ne_nil _ _ (hcons.symm.trans hbodies)).elim
    · rcases List.mem_cons.mp hr with heq | hr
      · cases heq
        refine .inr ⟨hf', AnyJoined.gone_of_view hnot ?_ ?_ ?_⟩
        · intro p hp
          have hp' := Eq.mp (congrArg (p ∈ ·) (congrArg View.taken hview')) hp
          rcases List.mem_cons.mp hp' with rfl | hp'
          · exact hids
          · exact hotherTaken p hp'
        · intro p hp hne hid
          have hp' := Eq.mp (congrArg (p ∈ ·) (congrArg View.wakes hview')) hp
          rcases List.mem_cons.mp hp' with rfl | hp'
          · exact absurd rfl hne
          · exact hwakes p hp' hid
        · have hno := congrArg View.nextWaitNo hview'
          exact hle.trans hno.ge
      · exact .inl hr

lemma wake (hguard : s.wakesJoiners .loop = true)
    (h : s.resume w.taskId [.loop, .enter] = some s') : Goes s s' := by
  obtain ⟨ctl, hctl, hawaits⟩ := exists_of_awaits (awaits_of_taken hg hm hs)
  simp only [State.wakesJoiners, hs, hctl] at hguard
  cases ctl with
  | wait e' => exact wakeWait hg hm hs hctl h
  | join st caller => exact wakeJoin hg hm hs hctl (of_decide_eq_true hguard) h
  | joinAny ehdlVec first =>
    simp only [Bool.and_eq_true, Bool.not_eq_true', decide_eq_true_eq] at hguard
    obtain ⟨⟨hcurr, hws⟩, hrest⟩ := hguard
    exact wakeJoinAny hg hm hs hctl hcurr hws hrest h
  | user | await | joinAll | jfork | done => cases hawaits

end Wake

lemma advance (hg : Good s) (hm : s.core.fault = none) {next : Nat}
    {taken : Option (EventID × List Waiter)} (hs : s.core.stack = .wakeup next taken :: rest)
    (hnone : ∀ e w ws, taken ≠ some (e, w :: ws)) (hguard : s.wakesJoiners .loop = true)
    (hexec : exec s.core [.loop] = some core) : Goes s { s with core := core } := by
  refine goes_of_exec hg hm hexec rfl rfl hg.fault (.inl rfl) fun hf => ?_
  have hinv := hg.inv hm
  show Inv s.toLibrary s.log (view core)
  cases taken with
  | some p =>
    obtain ⟨e, ws⟩ := p
    cases ws with
    | cons w ws => exact absurd rfl (hnone e w ws)
    | nil =>
      have htaken : (view s.core).taken = (e, []) :: (view s.core).taken.tail := by
        simp only [view, hs]
        rfl
      rw [view_next hs hexec hm hf]
      exact hinv.next htaken
  | none =>
    rcases view_advance hs (hg.steady hm) hexec hm hf with ⟨e, he, hle, hview⟩ | ⟨hall, hview⟩
    · rw [hview]
      refine hinv.take he hle fun hkind id hid => ?_
      simp only [State.wakesJoiners, hs, he, Option.all_some, decide_eq_true_eq] at hguard
      obtain ⟨w, hw, rfl⟩ := List.mem_map.mp hid
      exact hguard hkind w hw
    · rw [hview]
      exact hinv.close hall _

/-! ### Steps -/

lemma codeStep (hg : Good s) (hm : s.core.fault = none) {a : Act} (hproper : s.proper a = true)
    (h : s.codeStep a = some s') : Goes s s' := by
  cases a with
  | newEvent name => exact newEvent hg hm h
  | removeEvent e => exact removeEvent hg hm (of_decide_eq_true hproper) h
  | send e => exact send hg hm (of_decide_eq_true hproper) h
  | fire n => exact fire hg hm h
  | fork name body => exact fork hg hm h
  | _ => cases h

lemma userStep (hg : Good s) (hm : s.core.fault = none)
    (hs : s.core.stack = .body id th oldCurr :: rest) (hctl : s.ctl id = some .user) {a : Act}
    (hproper : s.proper a = true) (h : s.userStep id a = some s') : Goes s s' := by
  cases a with
  | wait e => exact wait hg hm hs hctl (of_decide_eq_true hproper) h
  | await => exact await hg hm hs hctl h
  | jfork name body g =>
    unfold State.userStep at h
    dsimp only at h
    split_ifs at h with hlt
    refine jfork hg hm hctl (fun g' hg' => ?_) h
    subst hg'
    exact of_decide_eq_true hlt
  | taskGroup => exact taskGroup hg h
  | join e => exact joinOne hg hm hs hctl (of_decide_eq_true hproper) h
  | joinVec ehdlVec =>
    simp only [State.proper, Bool.and_eq_true, decide_eq_true_eq, List.all_eq_true] at hproper
    refine joinVec hg hm hs hctl (by simp) (fun _ => rfl) hproper.1 hproper.2 ?_ h
    trivial
  | joinAll g => exact joinAll hg hctl hproper h
  | joinAny ehdlVec =>
    simp only [State.proper, Bool.and_eq_true, decide_eq_true_eq, List.all_eq_true] at hproper
    exact joinAny hg hm hs hctl hproper.1.1 hproper.1.2 hproper.2 h
  | joinAnyGroup g => exact joinAnyGroup hg hm hs hctl hproper h
  | ret => exact ret hg hm hs hctl h
  | exit =>
    exact yield hg hm hs h hctl (by simp) (fun _ => rfl) (fun _ => rfl) (by simp) fun _ => trivial
  | newEvent | removeEvent | send | fire | fork => exact codeStep hg hm hproper h
  | cont | loop => cases h

lemma contStep (hg : Good s) (hm : s.core.fault = none)
    (hs : s.core.stack = .body id th oldCurr :: rest) (hctl : s.ctl id = some ctl)
    (h : s.contStep id ctl = some s') : Goes s s' := by
  cases ctl with
  | jfork e g =>
    cases h
    exact addHandle hg hm hctl
  | join st caller => exact joinLoop hg hm hs hctl h
  | joinAll g drainedUpTo => exact joinAllLoop hg hm hs hctl h
  | user | await | wait | joinAny | done => cases h

theorem step (hg : Good s) {a : Act} (hproper : s.proper a = true)
    (hguard : s.wakesJoiners a = true) (h : s.step a = some s') : Goes s s' := by
  have hm := fault_of_step h
  have hgo : (s.core.fault.isSome || s.fault.isSome) ≠ true := by simp [hm, hg.fault]
  unfold State.step at h
  rw [if_neg hgo] at h
  split at h
  · exact codeStep hg hm hproper h
  · next next e w ws rest hs =>
    split_ifs at h with ha
    subst ha
    exact wake hg hm hs hguard h
  · next next taken rest hnone hs =>
    split_ifs at h with ha
    subst ha
    obtain ⟨core, hexec, rfl⟩ := Option.map_eq_some_iff.mp h
    refine advance hg hm hs (fun e w ws heq => ?_) hguard hexec
    exact hnone e w ws heq
  · next id th oldCurr rest hs =>
    split at h
    · next hctl => exact userStep hg hm hs hctl hproper h
    · next ctl hctl =>
      split_ifs at h
      exact contStep hg hm hs hctl h
    · cases h
  · cases h

end Good

end Verilua.Join
