import Verilua.Synch.Rules

/-!
# What a task sees after `await_rw`

The callback of a task compares the epoch that it was registered in with the present one. An epoch
begins with a flush that has values to commit, so a callback that is registered during the flush
does not see the values that the flush commits afterwards.
-/

namespace Verilua.Synch

open TransitionSystem Put

/-- No value has been committed since the callback was last registered. -/
def Fresh (id : Nat) : List SynchEv → Prop
  | [] => False
  | .awaited id' :: log | .deferred id' :: log => id' = id ∨ Fresh id log
  | .committed :: _ => False
  | .resumed _ :: log => Fresh id log

/-- A task is resumed once for each `await_rw`, and on settled values. -/
def Settles : List SynchEv → Prop
  | [] => True
  | .resumed id :: log => (Fresh id log ∧ .resumed id ∉ log) ∧ Settles log
  | _ :: log => Settles log

namespace Sim

/-- The callbacks of a call of `await_rw`: those that are registered, and the one that is handled. -/
def callbacks (s : Sim) (id : Nat) : Nat :=
  s.rwCbs.countP (fun cb => cb.id = id) +
    match s.handler with
    | some (.rwSynch cb) => if cb.id = id then 1 else 0
    | _ => 0

/-- Each call of `await_rw` has one callback, whether or not that is deferred, until its task is
resumed. -/
structure AwaitsOnce (s : Sim) : Prop where
  settles : Settles s.log
  once : ∀ id, .awaited id ∈ s.log → s.callbacks id + s.log.count (.resumed id) = 1
  resumed : ∀ id, .awaited id ∈ s.log → s.handler = none → s.rwCbs = [] →
    s.log.count (.resumed id) = 1

/-- A flush commits a value only when no callback that waits carries the epoch of the flush. -/
def noticed (s : Sim) : Act → Bool
  | .flush | .rwSynch _ => s.put.env.hdlPutValue.isEmpty ||
      s.rwCbs.all fun cb => decide (cb.flushEpoch ≠ s.put.env.flushEpoch + 1)
  | .put => s.rwCbs.all fun cb => decide (cb.flushEpoch ≠ s.put.env.flushEpoch)
  | _ => true

/-- The calls of `await_rw` by their callbacks and their resumptions. -/
structure Counted (s : Sim) : Prop where
  issued : ∀ id, .awaited id ∈ s.log → id < s.nextId
  count : ∀ id, s.callbacks id + s.log.count (.resumed id) = if id < s.nextId then 1 else 0

/-- A callback that carries the present epoch has been registered since the last commit. -/
structure SettledInv (s : Sim) : Prop where
  counted : s.Counted
  waiting : ∀ cb ∈ s.rwCbs, cb.flushEpoch = s.put.env.flushEpoch → Fresh cb.id s.log
  handled : ∀ cb, s.handler = some (.rwSynch cb) → cb.flushEpoch = s.put.env.flushEpoch →
    s.put.flush = none ∧ Fresh cb.id s.log
  settles : Settles s.log

variable {cfg : Config} {signals : ComplexHandleRaw → Signal} {s s' : Sim} {a : Act}

lemma SettledInv.init (cfg : Config) (signals : ComplexHandleRaw → Signal) :
    SettledInv (init cfg signals) where
  counted := ⟨by simp [Sim.init], by simp [Sim.init, callbacks]⟩
  waiting := by simp [Sim.init]
  handled := by simp [Sim.init]
  settles := trivial

lemma Counted.awaitsOnce (h : Counted s) (hsettles : Settles s.log) : s.AwaitsOnce where
  settles := hsettles
  once id hmem := (h.count id).trans (if_pos (h.issued id hmem))
  resumed id hmem hidle hnil := by
    have hcount := (h.count id).trans (if_pos (h.issued id hmem))
    have hzero : s.callbacks id = 0 := by simp [callbacks, hidle, hnil]
    rwa [hzero, Nat.zero_add] at hcount

/-! ### One step -/

lemma SettledInv.of_same (h : SettledInv s) (hrw : s'.rwCbs = s.rwCbs)
    (hnext : s'.nextId = s.nextId) (hlog : s'.log = s.log)
    (hepoch : s'.put.env.flushEpoch = s.put.env.flushEpoch)
    (hhandler : ∀ cb, s'.handler = some (.rwSynch cb) ↔ s.handler = some (.rwSynch cb))
    (hflush : ∀ cb, s.handler = some (.rwSynch cb) → s.put.flush = none → s'.put.flush = none) :
    SettledInv s' := by
  have hcallbacks : ∀ id, s'.callbacks id = s.callbacks id := by
    intro id
    rw [callbacks, callbacks, hrw]
    congr 1
    split
    next cb hcb =>
      rw [(hhandler cb).mp hcb]
    next hno =>
      split
      next cb hcb => exact (hno cb ((hhandler cb).mpr hcb)).elim
      next => rfl
  refine ⟨⟨?_, fun id => ?_⟩, ?_, fun cb hcb hsame => ?_, ?_⟩
  · rw [hlog, hnext]
    exact h.counted.issued
  · rw [hcallbacks, hlog, hnext]
    exact h.counted.count id
  · rw [hrw, hepoch, hlog]
    exact h.waiting
  · have hcb' := (hhandler cb).mp hcb
    obtain ⟨hnone, hfresh⟩ := h.handled cb hcb' (hsame.trans hepoch)
    exact ⟨hflush cb hcb' hnone, hlog ▸ hfresh⟩
  · rw [hlog]
    exact h.settles

lemma count_erase {l : List RwSynchCbData} {cb : RwSynchCbData} (hmem : cb ∈ l) (id : Nat) :
    (l.erase cb).countP (fun cb => cb.id = id) + (if cb.id = id then 1 else 0) =
      l.countP (fun cb => cb.id = id) := by
  rw [(List.perm_cons_erase hmem).countP_eq, List.countP_cons]
  simp

lemma SettledInv.waiting_of_applied (h : SettledInv s) {put : Put.Machine}
    (happlied : Applied s.put put)
    (hok : s.put.env.hdlPutValue.isEmpty = true ∨
      ∀ cb ∈ s.rwCbs, cb.flushEpoch ≠ s.put.env.flushEpoch + 1) :
    ∀ cb ∈ s.rwCbs, cb.flushEpoch = put.env.flushEpoch →
      put.flush = s.put.flush ∧ Fresh cb.id s.log := by
  intro cb hcb hsame
  cases happlied with
  | empty hqueue => exact ⟨rfl, h.waiting cb hcb hsame⟩
  | begins hqueue =>
    rcases hok with hempty | hnone
    · exact (hqueue (Vec.isEmpty_iff.mp hempty)).elim
    · exact (hnone cb hcb hsame).elim

lemma SettledInv.flush (h : SettledInv s) {put : Put.Machine} (hidle : s.handler = none)
    (happlied : Applied s.put put) (hok : s.noticed .flush = true) :
    SettledInv { s with put, flushes := s.flushes + 1, handler := some .flush } := by
  simp only [noticed, Bool.or_eq_true, List.all_eq_true, decide_eq_true_eq] at hok
  refine ⟨⟨h.counted.issued, fun id => ?_⟩, fun cb hcb hsame => ?_, fun cb hcb => ?_, h.settles⟩
  · have hcount := h.counted.count id
    rw [callbacks, hidle] at hcount
    exact hcount
  · exact (h.waiting_of_applied happlied hok cb hcb hsame).2
  · simp at hcb

lemma SettledInv.rwSynch (h : SettledInv s) {put : Put.Machine} {cb : RwSynchCbData}
    (hidle : s.handler = none) (hcb : cb ∈ s.rwCbs) (hflush : s.put.flush = none)
    (happlied : Applied s.put put) (hok : s.noticed (.rwSynch cb) = true) :
    SettledInv { s with put, rwCbs := s.rwCbs.erase cb, handler := some (.rwSynch cb) } := by
  simp only [noticed, Bool.or_eq_true, List.all_eq_true, decide_eq_true_eq] at hok
  have hwaiting := h.waiting_of_applied happlied hok
  refine ⟨⟨h.counted.issued, fun id => ?_⟩, fun cb' hcb' hsame => ?_, fun cb' hcb' hsame => ?_,
    h.settles⟩
  · have hcount := h.counted.count id
    rw [callbacks, hidle, ← count_erase hcb id] at hcount
    exact hcount
  · exact (hwaiting cb' (List.mem_of_mem_erase hcb') hsame).2
  · obtain rfl : cb = cb' := by simpa using hcb'
    obtain ⟨hsame', hfresh⟩ := hwaiting cb hcb hsame
    exact ⟨hsame'.trans hflush, hfresh⟩

lemma SettledInv.put (h : SettledInv s) {put : Put.Machine} (hpassed : Passed s.put put)
    (hok : s.noticed .put = true) :
    SettledInv { s with put, log := .committed :: s.log } := by
  simp only [noticed, List.all_eq_true, decide_eq_true_eq] at hok
  refine ⟨⟨fun id hmem => h.counted.issued id (by simpa using hmem), fun id => ?_⟩,
    fun cb hcb hsame => (hok cb hcb (hsame.trans hpassed.epoch)).elim, fun cb hcb hsame => ?_,
    h.settles⟩
  · have hcount := h.counted.count id
    rw [← hcount]
    simp [callbacks]
  · exact (hpassed.inPass (h.handled cb hcb (hsame.trans hpassed.epoch)).1).elim

lemma SettledInv.awaitRw (h : SettledInv s) (taskId : TaskID) : SettledInv (s.awaitRw taskId) := by
  refine ⟨⟨fun id hmem => ?_, fun id => ?_⟩, fun cb hcb hsame => ?_, fun cb hcb hsame => ?_,
    h.settles⟩
  · rcases List.mem_cons.mp hmem with heq | hmem
    · cases heq
      exact Nat.lt_succ_self _
    · exact (h.counted.issued id hmem).trans (Nat.lt_succ_self _)
  · have hcount := h.counted.count id
    have hnew : (s.awaitRw taskId).callbacks id =
        s.callbacks id + if s.nextId = id then 1 else 0 := by
      simp only [callbacks, Sim.awaitRw, registerRwSynch, List.countP_append,
        List.countP_singleton, decide_eq_true_eq]
      omega
    have hlog : (s.awaitRw taskId).log.count (.resumed id) = s.log.count (.resumed id) := by
      simp [Sim.awaitRw, registerRwSynch]
    have hnext : (s.awaitRw taskId).nextId = s.nextId + 1 := rfl
    rw [hnew, hlog, hnext]
    split_ifs at hcount ⊢ <;> omega
  · rcases List.mem_append.mp hcb with hcb | hcb
    · exact .inr (h.waiting cb hcb hsame)
    · obtain rfl := List.mem_singleton.mp hcb
      exact .inl rfl
  · obtain ⟨hnone, hfresh⟩ := h.handled cb hcb hsame
    exact ⟨hnone, .inr hfresh⟩

lemma SettledInv.settle (h : SettledInv s) {cb : RwSynchCbData}
    (hhandler : s.handler = some (.rwSynch cb)) : SettledInv (s.settle cb) := by
  have hcount : ∀ id, (s.rwCbs.countP (fun cb => cb.id = id) + if cb.id = id then 1 else 0) +
      s.log.count (.resumed id) = if id < s.nextId then 1 else 0 := by
    intro id
    have hid := h.counted.count id
    rwa [callbacks, hhandler] at hid
  rw [Sim.settle]
  split_ifs with hepoch
  · refine ⟨⟨fun id hmem => h.counted.issued id (by simpa [registerRwSynch] using hmem),
      fun id => ?_⟩, fun cb' hcb' hsame => ?_, fun cb' hcb' => by simp at hcb', h.settles⟩
    · refine Eq.trans ?_ (hcount id)
      simp [callbacks, registerRwSynch, List.countP_append, List.countP_singleton]
    · rcases List.mem_append.mp hcb' with hcb' | hcb'
      · exact .inr (h.waiting cb' hcb' hsame)
      · obtain rfl := List.mem_singleton.mp hcb'
        exact .inl rfl
  · have hfresh := (h.handled cb hhandler (not_not.mp hepoch).symm).2
    have hone := hcount cb.id
    rw [if_pos rfl] at hone
    have hnone : .resumed cb.id ∉ s.log := by
      rw [← List.count_eq_zero]
      split_ifs at hone <;> omega
    refine ⟨⟨fun id hmem => h.counted.issued id (by simpa using hmem), fun id => ?_⟩,
      fun cb' hcb' hsame => h.waiting cb' hcb' hsame, fun cb' hcb' => by simp at hcb',
      ⟨hfresh, hnone⟩, h.settles⟩
    refine Eq.trans ?_ (hcount id)
    simp only [callbacks, List.count_cons, beq_iff_eq, SynchEv.resumed.injEq]
    omega

lemma SettledInv.step (h : SettledInv s) (hok : s.noticed a = true)
    (hstep : s.step a = some s') : SettledInv s' := by
  have hrule := Rule.of_step hstep
  cases hrule with
  | write a put hrun hwrote =>
    exact h.of_same rfl rfl rfl hwrote.epoch (fun _ => Iff.rfl) fun _ _ hnone =>
      hwrote.flush.trans hnone
  | awaitRw taskId hrun => exact h.awaitRw taskId
  | awaitNextSim taskId hrun =>
    exact h.of_same rfl rfl rfl rfl (fun _ => Iff.rfl) fun _ _ hnone => hnone
  | nextStep hidle hdue hcbs hrw =>
    exact h.of_same rfl rfl rfl rfl (fun _ => Iff.rfl) fun _ _ hnone => hnone
  | driver hidle hdue hflush =>
    exact h.of_same rfl rfl rfl rfl (fun _ => Iff.rfl) fun _ _ hnone => hnone
  | task taskId hidle hdue =>
    exact h.of_same rfl rfl rfl rfl (by simp [hidle]) fun _ _ hnone => hnone
  | flush put hidle hdue hcbs hflush happlied => exact h.flush hidle happlied hok
  | rwSynch cb put hidle hdue hcb hflush happlied =>
    exact h.rwSynch hidle hcb hflush happlied hok
  | put put hpassed => exact h.put hpassed hok
  | endPass put hpassed =>
    refine h.of_same rfl rfl rfl hpassed.epoch (fun _ => Iff.rfl) fun _ _ hnone => ?_
    exact (hpassed.inPass hnone).elim
  | flushed hflush hhandler =>
    exact h.of_same rfl rfl rfl rfl (by simp [flushed, hhandler]) fun _ _ hnone => hnone
  | settle cb hflush hhandler => exact h.settle hhandler
  | taskDone hflush hhandler =>
    exact h.of_same rfl rfl rfl rfl (by simp [hhandler]) fun _ _ hnone => hnone

/-- When no flush commits a value while a callback of its epoch waits, every task that has called
`await_rw` is resumed once, and no value has been committed since its callback was last
registered. -/
theorem awaitsOnce_of_noticed (h : Reached cfg signals (fun s a => s.noticed a) s) :
    s.AwaitsOnce := by
  have hinv := Reach.invariant (I := SettledInv) h (.init cfg signals)
    fun _ _ _ _ hinv hok hstep => hinv.step hok hstep
  exact hinv.counted.awaitsOnce hinv.settles

/-- Icarus, whose puts call back. -/
def iverilog : Config := ⟨false, true⟩

/-- A task waits, a value is set and committed, and the callback of the task is deferred once. -/
def waitsForFlush : List Act :=
  [.nextStep, .nextSimTime .driver, .awaitRw 0, .write (.request 0 (.set .set (.value 1))), .flush,
    .put, .endPass, .finish, .rwSynch ⟨0, 0, 0⟩, .finish, .rwSynch ⟨0, 0, 1⟩, .finish, .finish]

theorem awaitsOnce_waitsForFlush :
    ∃ s, runChecked step (fun s a => s.noticed a) (init iverilog bits) waitsForFlush = some s ∧
      s.AwaitsOnce ∧ s.log = [.resumed 0, .deferred 0, .committed, .awaited 0] := by
  have hrun : (runChecked step (fun s a => s.noticed a) (init iverilog bits) waitsForFlush).map
      (fun s => s.log) = some [.resumed 0, .deferred 0, .committed, .awaited 0] := by
    decide +kernel
  obtain ⟨s, hs, hlog⟩ := Option.map_eq_some_iff.mp hrun
  exact ⟨s, hs, awaitsOnce_of_noticed (reach_of_runChecked hs), hlog⟩

/-- Two values are set; the first put of their flush wakes a task, which waits while the second value
is committed. -/
def waitsInFlush : List Act :=
  [.nextStep, .nextSimTime .driver, .write (.request 0 (.set .set (.value 1))),
    .write (.request 1 (.set .set (.value 1))), .flush, .put, .awaitRw 0, .put, .endPass, .finish,
    .rwSynch ⟨0, 0, 1⟩, .finish]

/-- The task is resumed at once, as if no value had been committed since. -/
theorem not_settles_waitsInFlush :
    ∃ s, run step (init iverilog bits) waitsInFlush = some s ∧ ¬Settles s.log := by
  have hrun : (run step (init iverilog bits) waitsInFlush).map (fun s => s.log) =
      some [.resumed 0, .committed, .awaited 0, .committed] := by decide +kernel
  obtain ⟨s, hs, hlog⟩ := Option.map_eq_some_iff.mp hrun
  refine ⟨s, hs, ?_⟩
  rw [hlog]
  exact fun h => h.1.1

end Sim

end Verilua.Synch
