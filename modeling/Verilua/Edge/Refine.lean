import Verilua.Edge.Merge

/-!
# The runs without `merge_cb`

Whatever happens to the registrations from outside in a run with `merge_cb` can happen in a run
without it: a run that calls all the callbacks of a change at once. Both wake the same tasks.
-/

namespace Verilua.Edge

open OneShot (outstanding registers wakes trace)
open TransitionSystem

variable {cfg : Config} {m m' p : Machine} {a : Act} {cb : Callback} {r : Reg} {f : Frame}
  {rest : List Frame} {left : List TaskID}

namespace Machine

/-- The runs in which each task has at most one registration and no callback is called with a
matching value twice between two `cbNextSimTime` callbacks. -/
abbrev ReachedOnce (cfg : Config) : Machine → Prop :=
  Reached cfg fun m a => m.registersOnce a = true ∧ m.callsOnce a = true

end Machine

theorem inv_of_reached (h : Machine.ReachedOnce cfg m) : Inv cfg m ∧ m.fault = none := by
  refine Reach.invariant (I := fun m : Machine => Inv cfg m ∧ m.fault = none) h ?_ ?_
  · exact ⟨.init cfg, rfl⟩
  · rintro m a m' - ⟨hinv, hf⟩ ⟨hregisters, hcalls⟩ hs
    exact hinv.step hregisters hcalls (Rule.of_step hs).2 hf

namespace Inv

lemma due_subset (h : Inv cfg m) (hr : r ∈ (OneShot.due hits m.log).all) :
    r ∈ (outstanding m.log).all := by
  rw [OneShot.Regs.all, ← OneShot.outstanding_pending hits m.log, List.mem_append] at hr
  exact List.mem_append.mpr (hr.imp_right fun harmed => ((h.due.mem r).mp harmed).1)

lemma settled (h : Inv cfg m) (hstack : m.stack = []) : OneShot.Settled hits m.log := by
  have hnodup := List.Nodup.of_append_right h.regs.all_nodup
  refine (List.perm_ext_iff_of_nodup hnodup h.due.nodup).mpr fun r => ?_
  refine ((h.due.mem r).trans (and_iff_left ?_)).symm
  rintro ⟨f, hf, -⟩
  simp [hstack] at hf

lemma count_eq (h : Inv cfg m) (hmerge : cfg.mergeCb = true) (hwoken : ¬ m.Woken r) :
    (m.env.cbCount r).getD 0 = (outstanding m.log).all.count r := by
  rw [h.regs.count hmerge r, if_neg hwoken, Nat.add_zero, h.regs.all_nodup.count]

end Inv

/-! ### A run without `merge_cb` -/

section Plain

variable {chunk : Bool}

lemma plain_step (h : Machine.ReachedOnce ⟨false, chunk⟩ p) {p' : Machine}
    (hregisters : p.registersOnce a = true) (hcalls : p.callsOnce a = true)
    (hs : p.step ⟨false, chunk⟩ a = some p') : Machine.ReachedOnce ⟨false, chunk⟩ p' :=
  h.tail ⟨hregisters, hcalls⟩ hs

lemma exists_finished (h : Machine.ReachedOnce ⟨false, chunk⟩ p) (hstack : p.stack = [f])
    (hcurrent : f.current = some (cb, left)) :
    ∃ p', Machine.ReachedOnce ⟨false, chunk⟩ p' ∧ p'.stack = [{ f with current := none }] ∧
      trace p'.log = trace p.log := by
  obtain ⟨hinv, hf⟩ := inv_of_reached h
  induction left generalizing p f with
  | nil =>
    obtain ⟨env, henv, -⟩ := hinv.finish hstack hcurrent
    refine ⟨{ p with env := env, stack := [{ f with current := none }] }, ?_, rfl, rfl⟩
    refine plain_step (a := .finish) h rfl rfl ?_
    simp [Machine.step, hf, hstack, hcurrent, henv]
  | cons t left ih =>
    have hs : p.step ⟨false, chunk⟩ .wake = some { p with
        stack := [{ f with current := some (cb, left) }]
        log := .wake ⟨cb.key, t⟩ :: p.log } := by
      simp [Machine.step, hf, hstack, hcurrent]
    have hnext := plain_step h rfl rfl hs
    obtain ⟨hinv', hf'⟩ := inv_of_reached hnext
    obtain ⟨p', hp', hstack', htrace⟩ := ih hnext rfl rfl hinv' hf'
    exact ⟨p', hp', hstack', htrace⟩

lemma callsOnce_of_plain (h : Inv ⟨false, chunk⟩ p) (hstack : p.stack = [f])
    (hcurrent : f.current = none) (i : Nat) : p.callsOnce (.call i) = true := by
  simp only [Machine.callsOnce, hstack, Option.all_eq_true, decide_eq_true_eq]
  intro cb hmatch hid
  obtain ⟨hbind, -⟩ := Option.filter_eq_some_iff.mp hmatch
  obtain ⟨id, -, hfind⟩ := Option.bind_eq_some_iff.mp hbind
  rcases h.regs.fired cb (List.mem_of_find?_eq_some hfind) hid with ⟨left, hmem⟩ | ⟨hmerge, -⟩
  · simp [Machine.current, hstack, hcurrent] at hmem
  · cases hmerge

lemma exists_drained (h : Machine.ReachedOnce ⟨false, chunk⟩ p) (hstack : p.stack = [f])
    (hcurrent : f.current = none) :
    ∃ p', Machine.ReachedOnce ⟨false, chunk⟩ p' ∧ p'.stack = [] ∧ trace p'.log = trace p.log := by
  obtain ⟨ids, hids⟩ : ∃ ids, f.toCall = ids := ⟨_, rfl⟩
  induction ids generalizing p f with
  | nil =>
    obtain ⟨-, hf⟩ := inv_of_reached h
    refine ⟨{ p with stack := [] }, plain_step (a := .endEdge) h rfl rfl ?_, rfl, rfl⟩
    simp [Machine.step, hf, hstack, hcurrent, hids]
  | cons id ids ih =>
    obtain ⟨hinv, hf⟩ := inv_of_reached h
    have hs : p.step ⟨false, chunk⟩ (.call 0) = some (p.callAt f [] 0) := by
      simp [Machine.step, hf, hstack, hcurrent, hids]
    have hnext := plain_step h rfl (callsOnce_of_plain hinv hstack hcurrent 0) hs
    have hrest : f.toCall.eraseIdx 0 = ids := by rw [hids]; rfl
    cases hmatch : p.matching f 0 with
    | none =>
      rw [Machine.callAt, hmatch, hrest] at hnext
      obtain ⟨p', hp', hstack', htrace⟩ := ih hnext rfl hcurrent rfl
      exact ⟨p', hp', hstack', htrace⟩
    | some cb =>
      rw [Machine.callAt, hmatch, hrest] at hnext
      obtain ⟨p₁, hp₁, hstack₁, htrace₁⟩ := exists_finished hnext rfl rfl
      obtain ⟨p', hp', hstack', htrace'⟩ := ih hp₁ hstack₁ rfl rfl
      exact ⟨p', hp', hstack', htrace'.trans htrace₁⟩

lemma exists_ids (n : Nat) {l : List EdgeCallbackID} (h : l.Nodup) :
    ∃ ids : List EdgeCallbackID, ids.length = n ∧ (l ++ ids).Nodup := by
  induction n with
  | zero => exact ⟨[], rfl, by simpa using h⟩
  | succ n ih =>
    obtain ⟨ids, hlen, hnodup⟩ := ih
    obtain ⟨id, hid⟩ := Infinite.exists_notMem_finset (l ++ ids).toFinset
    refine ⟨ids ++ [id], by simp [hlen], ?_⟩
    rw [← List.append_assoc]
    exact hnodup.append (List.nodup_singleton id) (by simpa using hid)

/-- A task registers in the run without `merge_cb` when it does in the other one: it has been woken
there at least as often. -/
lemma registersOnce_of_trace (hm : Inv cfg m) (hp : Inv ⟨false, chunk⟩ p) (hstack : p.stack = [])
    (htrace : trace p.log = trace m.log) (hok : m.registersOnce (.register r) = true) :
    p.registersOnce (.register r) = true := by
  have hdue : OneShot.due hits p.log = OneShot.due hits m.log := by
    rw [← OneShot.due_trace, htrace, OneShot.due_trace]
  have hnone : ((OneShot.due hits p.log).all.map Reg.task).count r.task = 0 := by
    rw [List.count_eq_zero, hdue]
    intro hmem
    obtain ⟨r', hr', htask⟩ := List.mem_map.mp hmem
    refine hm.not_mem_of_registersOnce hok ?_
    exact htask ▸ List.mem_map_of_mem (hm.due_subset hr')
  have hperm := hp.regs.sound.settled_perm (hp.settled hstack)
  have hcount := (hperm.map Reg.task).count_eq r.task
  rw [List.map_append, List.count_append, hnone] at hcount
  simpa [Machine.registersOnce] using hcount.le

/-- The pending registrations can always be registered with the simulator. -/
lemma exists_nextSimTime (h : Machine.ReachedOnce ⟨false, chunk⟩ p) (hstack : p.stack = []) :
    ∃ p', Machine.ReachedOnce ⟨false, chunk⟩ p' ∧ p'.stack = [] ∧
      trace p'.log = .arm :: trace p.log := by
  obtain ⟨hinv, hf⟩ := inv_of_reached h
  have hkept := hinv.callbacks.keptChunk rfl
  obtain ⟨ids, hlen, hnodup⟩ := exists_ids
    (Env.groups ⟨false, chunk⟩ (p.env.unserved ⟨false, chunk⟩ [])).length hinv.callbacks.ids
  obtain ⟨env, henv⟩ : ∃ env, p.env.nextSimTime ⟨false, chunk⟩ [] ids = some env :=
    ⟨_, if_pos ⟨by rw [hkept], hlen, hnodup⟩⟩
  refine ⟨{ p with env := env, fired := [], log := .arm :: p.log },
    plain_step (a := .nextSimTime [] ids) h rfl rfl ?_, hstack, rfl⟩
  simp [Machine.step, hf, hstack, henv]

/-- A run without `merge_cb` in which the same happens from outside. -/
theorem exists_plain (h : Machine.ReachedOnce cfg m) (chunk : Bool) :
    ∃ p, Machine.ReachedOnce ⟨false, chunk⟩ p ∧ p.stack = [] ∧ trace p.log = trace m.log := by
  refine Reach.invariant (I := fun m : Machine => ∃ p, Machine.ReachedOnce ⟨false, chunk⟩ p ∧
    p.stack = [] ∧ trace p.log = trace m.log) h ⟨.init, .refl, rfl, rfl⟩ ?_
  rintro m a m' hm ⟨p, hp, hstack, htrace⟩ ⟨hregisters, -⟩ hs
  obtain ⟨hinv, -⟩ := inv_of_reached hm
  obtain ⟨hinv', hf⟩ := inv_of_reached hp
  cases (Rule.of_step hs).2 with
  | register r =>
    have hs' : p.step ⟨false, chunk⟩ (.register r) = some { p with
        env := p.env.registerEdgeCallback ⟨false, chunk⟩ r
        log := .register r :: p.log } := by
      simp [Machine.step, hf, Machine.codeRuns, hstack]
    have hok := registersOnce_of_trace hinv hinv' hstack htrace hregisters
    exact ⟨_, plain_step hp hok rfl hs', hstack, by simp only [trace, htrace]⟩
  | edge handle value =>
    have hs' : p.step ⟨false, chunk⟩ (.edge handle value) = some { p with
        stack := [⟨handle, value, p.callbacksOn handle, none⟩]
        log := .fire ⟨handle, value⟩ :: p.log } := by
      simp [Machine.step, hf, Machine.codeRuns, hstack]
    obtain ⟨p', hp', hstack', htrace'⟩ := exists_drained (plain_step hp rfl rfl hs') rfl rfl
    exact ⟨p', hp', hstack', htrace'.trans (by simp only [trace, htrace])⟩
  | nextSimTime order ids env =>
    obtain ⟨p', hp', hstack', htrace'⟩ := exists_nextSimTime hp hstack
    exact ⟨p', hp', hstack', htrace'.trans (by simp only [trace, htrace])⟩
  | skip | call | wake | finish | fail | endEdge => exact ⟨p, hp, hstack, htrace⟩

end Plain

/-- In a run with `merge_cb` in which no callback is called with a matching value twice between two
`cbNextSimTime` callbacks, no count is missing and only registered tasks are woken; the counts
are those of the outstanding registrations; between two changes each registration has been woken
once if an edge has hit it since it was armed, and else is outstanding. There is a run without
`merge_cb` in which the same happens from outside, and any such run makes the same wake-ups. -/
theorem wakes_perm_plain (hmerge : cfg.mergeCb = true) (h : Machine.ReachedOnce cfg m) :
    m.fault = none ∧ OneShot.Sound m.log ∧
    (∀ r, ¬ m.Woken r → (m.env.cbCount r).getD 0 = (outstanding m.log).all.count r) ∧
    (m.stack = [] → (registers m.log).Perm (wakes m.log ++ (OneShot.due hits m.log).all) ∧
      ∀ chunk, (∃ p, Machine.ReachedOnce ⟨false, chunk⟩ p ∧ p.stack = [] ∧
          trace p.log = trace m.log) ∧
        ∀ p, Machine.ReachedOnce ⟨false, chunk⟩ p → p.stack = [] → trace p.log = trace m.log →
          (wakes p.log).Perm (wakes m.log)) := by
  obtain ⟨hinv, hf⟩ := inv_of_reached h
  refine ⟨hf, hinv.regs.sound, fun r => hinv.count_eq hmerge, fun hstack => ⟨?_, fun chunk => ?_⟩⟩
  · exact hinv.regs.sound.settled_perm (hinv.settled hstack)
  · refine ⟨exists_plain h chunk, fun p hp hstack' htrace => ?_⟩
    obtain ⟨hinv', -⟩ := inv_of_reached hp
    exact OneShot.wakes_perm_of_trace hinv'.regs.sound (hinv'.settled hstack') hinv.regs.sound
      (hinv.settled hstack) htrace

/-- The rising edge of a signal. -/
def rising : Key := ⟨7, .posedge⟩

/-- A chunk of two tasks is kept over a time step in which it fires, fires again, and is removed. -/
def keepsChunk : List Act :=
  [.register ⟨rising, 1⟩, .register ⟨rising, 2⟩, .nextSimTime [] [0],
   .edge 7 1, .call 0, .wake, .register ⟨rising, 1⟩, .wake, .register ⟨rising, 2⟩, .finish, .endEdge,
   .edge 7 0, .call 0, .endEdge, .nextSimTime [⟨0, rising, [1, 2]⟩] [],
   .edge 7 1, .call 0, .wake, .wake, .finish, .endEdge]

theorem wakes_perm_plain_of_keepsChunk :
    ∃ m, runChecked (Machine.step ⟨true, true⟩)
        (fun m a => m.registersOnce a = true ∧ m.callsOnce a = true) Machine.init keepsChunk = some m ∧
      wakes m.log = [⟨rising, 2⟩, ⟨rising, 1⟩, ⟨rising, 2⟩, ⟨rising, 1⟩] ∧ m.fault = none ∧
      ∃ p, Machine.ReachedOnce ⟨false, false⟩ p ∧ p.stack = [] ∧ trace p.log = trace m.log ∧
        (wakes p.log).Perm (wakes m.log) := by
  have hrun : (runChecked (Machine.step ⟨true, true⟩)
      (fun m a => m.registersOnce a = true ∧ m.callsOnce a = true) Machine.init keepsChunk).map
        (fun m => (wakes m.log, m.stack.isEmpty)) =
          some ([⟨rising, 2⟩, ⟨rising, 1⟩, ⟨rising, 2⟩, ⟨rising, 1⟩], true) := by
    decide +kernel
  obtain ⟨m, hm, heq⟩ := Option.map_eq_some_iff.mp hrun
  obtain ⟨hwakes, hstack⟩ := Prod.mk.inj heq
  obtain ⟨hf, -, -, hrest⟩ := wakes_perm_plain rfl (reach_of_runChecked hm)
  obtain ⟨⟨p, hp, hstack', htrace⟩, hperm⟩ := (hrest (List.isEmpty_iff.mp hstack)).2 false
  exact ⟨m, hm, hwakes, hf, p, hp, hstack', htrace, hperm p hp hstack' htrace⟩

/-- The chunk fires a second time before the next simulation time, and only one of its tasks
registers again. -/
def firesTwice : List Act :=
  [.register ⟨rising, 1⟩, .register ⟨rising, 2⟩, .nextSimTime [] [0],
   .edge 7 1, .call 0, .wake, .register ⟨rising, 1⟩, .wake, .register ⟨rising, 2⟩, .finish, .endEdge,
   .edge 7 0, .call 0, .endEdge,
   .edge 7 1, .call 0, .wake, .register ⟨rising, 1⟩, .wake, .finish, .endEdge,
   .nextSimTime [] [1], .edge 7 1, .call 0, .wake, .wake, .wake, .finish]

/-- The task that was woken without a registration takes its place in the next chunk, and its count
is missing when that chunk fires. -/
theorem not_wakes_perm_plain :
    ¬ ∀ m, Machine.Reached ⟨true, true⟩ (fun m a => m.registersOnce a = true) m →
      m.fault = none ∧ OneShot.Sound m.log := by
  intro h
  have hrun : (runChecked (Machine.step ⟨true, true⟩) (fun m a => m.registersOnce a = true)
      Machine.init firesTwice).map (fun m => m.fault) = some (some .noCount) := by
    decide +kernel
  obtain ⟨m, hm, hfault⟩ := Option.map_eq_some_iff.mp hrun
  have hnone := (h m (reach_of_runChecked hm)).1
  rw [hfault] at hnone
  cases hnone

end Verilua.Edge
