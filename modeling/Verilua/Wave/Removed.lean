import Verilua.Wave.Punctual
import Verilua.Wave.ValueRules

/-!
# Removed callbacks

A removal takes effect at the end of the turn, and only for a callback that is in the map: the walk
of the turn still comes to the callback, and a callback that waits in the queue is not removed.
-/

namespace Verilua.Wave

open TransitionSystem

namespace ValueLoop

variable {wave : Waveform} {s s' : ValueLoop} {a : Act}

/-- A callback is removed when it is in the map and the walk of the turn does not come to it any
more. -/
def removesSettled (s : ValueLoop) : Act → Bool
  | .remove (.value id) =>
    decide (s.loop.phase = .values) && decide (id ∈ s.keys) && decide (id ∉ s.walk.getD [])
  | _ => true

/-- A removed callback is out of reach: it is not in the queue, and from the map it goes at the end
of the turn, without another visit. -/
structure Gone (s : ValueLoop) (id : Nat) : Prop where
  lt : id < s.vpiHandleAllocator
  notQueued : id ∉ s.willAppendValueCb.map Prod.fst
  leaving : id ∈ s.keys → id ∈ s.willRemoveValueCb ∧ s.loop.phase = .values ∧ id ∉ s.walk.getD []

structure RemovedInv (s : ValueLoop) : Prop where
  key_lt : ∀ id ∈ s.keys, id < s.vpiHandleAllocator
  queued_lt : ∀ id ∈ s.willAppendValueCb.map Prod.fst, id < s.vpiHandleAllocator
  disjoint : ∀ id ∈ s.willAppendValueCb.map Prod.fst, id ∉ s.keys
  noDelay : ∀ id, .removed (.delay id) ∉ s.log
  gone : ∀ id, .removed (.value id) ∈ s.log → s.Gone id
  quiet : Quiet s.log

lemma RemovedInv.init : RemovedInv init where
  key_lt := by simp [ValueLoop.init, keys]
  queued_lt := by simp [ValueLoop.init]
  disjoint := by simp [ValueLoop.init]
  noDelay := by simp [ValueLoop.init]
  gone := by simp [ValueLoop.init]
  quiet := trivial

/-! ### The map and the queue -/

@[simp] lemma keys_setSeen (id : Nat) (seen : Seen) : (s.setSeen id seen).keys = s.keys := by
  simp only [keys, setSeen, List.map_map]
  refine List.map_congr_left fun e _ => ?_
  by_cases h : e.1 = id <;> simp [h]

lemma keys_appendValueCb :
    s.appendValueCb.keys = s.keys ++ s.willAppendValueCb.map Prod.fst := by
  simp [keys, appendValueCb]

lemma keys_removeValueCb :
    s.removeValueCb.keys = s.keys.filter fun id => decide (id ∉ s.willRemoveValueCb) := by
  simp only [keys, removeValueCb, List.filter_map]
  rfl

lemma mem_of_lookup {id : Nat} {info : ValueCbInfo} (h : s.valueCbMap.lookup id = some info) :
    (id, info) ∈ s.valueCbMap := by
  obtain ⟨before, after, heq, -⟩ := List.lookup_eq_some_iff.mp h
  rw [heq]
  exact List.mem_append_right before List.mem_cons_self

lemma mem_keys_of_lookup {id : Nat} {info : ValueCbInfo} (h : s.valueCbMap.lookup id = some info) :
    id ∈ s.keys := List.mem_map_of_mem (f := Prod.fst) (mem_of_lookup h)

/-! ### One step -/

lemma RemovedInv.of_same (h : RemovedInv s) (hkeys : s'.keys = s.keys)
    (hqueue : s'.willAppendValueCb = s.willAppendValueCb)
    (hremove : s'.willRemoveValueCb = s.willRemoveValueCb)
    (halloc : s'.vpiHandleAllocator = s.vpiHandleAllocator)
    (hremoved : ∀ cb, .removed cb ∈ s'.log → .removed cb ∈ s.log) (hquiet : Quiet s'.log)
    (hleaving : ∀ id, .removed (.value id) ∈ s.log → id ∈ s.keys → s.loop.phase = .values →
      id ∉ s.walk.getD [] → s'.loop.phase = .values ∧ id ∉ s'.walk.getD []) :
    RemovedInv s' where
  key_lt := by rw [hkeys, halloc]; exact h.key_lt
  queued_lt := by rw [hqueue, halloc]; exact h.queued_lt
  disjoint := by rw [hqueue, hkeys]; exact h.disjoint
  noDelay id hmem := h.noDelay id (hremoved _ hmem)
  gone id hmem := by
    have hid := h.gone id (hremoved _ hmem)
    refine ⟨halloc ▸ hid.lt, hqueue ▸ hid.notQueued, fun hkey => ?_⟩
    rw [hkeys] at hkey
    obtain ⟨hwill, hphase, hleft⟩ := hid.leaving hkey
    exact ⟨hremove ▸ hwill, hleaving id (hremoved _ hmem) hkey hphase hleft⟩
  quiet := hquiet

lemma RemovedInv.of_append (h : RemovedInv s) (hgone : ∀ id, .removed (.value id) ∈ s.log →
    id ∉ s.keys) (l : Loop) : RemovedInv { s.appendValueCb with loop := l } where
  key_lt := by
    intro id hmem
    have hmem' : id ∈ s.appendValueCb.keys := hmem
    rw [keys_appendValueCb, List.mem_append] at hmem'
    exact hmem'.elim (h.key_lt id) (h.queued_lt id)
  queued_lt := by simp [appendValueCb]
  disjoint := by simp [appendValueCb]
  noDelay := h.noDelay
  gone id hmem := by
    have hid := h.gone id hmem
    refine ⟨hid.lt, by simp [appendValueCb], fun hkey => ?_⟩
    have hkey' : id ∈ s.appendValueCb.keys := hkey
    rw [keys_appendValueCb, List.mem_append] at hkey'
    exact hkey'.elim (fun h' => (hgone id hmem h').elim) fun h' => (hid.notQueued h').elim
  quiet := h.quiet

lemma RemovedInv.removeValueCb (h : RemovedInv s) : RemovedInv s.removeValueCb ∧
    ∀ id, .removed (.value id) ∈ s.log → id ∉ s.removeValueCb.keys := by
  have hsub : ∀ id ∈ s.removeValueCb.keys, id ∈ s.keys ∧ id ∉ s.willRemoveValueCb := by
    intro id hmem
    rw [keys_removeValueCb, List.mem_filter] at hmem
    exact ⟨hmem.1, of_decide_eq_true hmem.2⟩
  have hout : ∀ id, .removed (.value id) ∈ s.log → id ∉ s.removeValueCb.keys := by
    intro id hmem hkey
    obtain ⟨hkey, hstay⟩ := hsub id hkey
    exact hstay ((h.gone id hmem).leaving hkey).1
  refine ⟨⟨fun id hmem => h.key_lt id (hsub id hmem).1, h.queued_lt, fun id hmem hkey =>
    h.disjoint id hmem (hsub id hkey).1, h.noDelay, fun id hmem => ?_, h.quiet⟩, hout⟩
  have hid := h.gone id hmem
  exact ⟨hid.lt, hid.notQueued, fun hkey => (hout id hmem hkey).elim⟩

lemma RemovedInv.register (h : RemovedInv s) (handle : Nat) (w : Window) :
    RemovedInv (s.register wave handle w) := by
  simp only [ValueLoop.register]
  cases (wave.signal handle).observe w s.loop.cursor with
  | none =>
    exact h.of_same rfl rfl rfl rfl (fun _ h => h) h.quiet fun id _ _ hphase hleft =>
      ⟨hphase, hleft⟩
  | some seen =>
    refine ⟨fun id hmem => (h.key_lt id hmem).trans (Nat.lt_succ_self _), fun id hmem => ?_,
      fun id hmem hkey => ?_, fun id hmem => h.noDelay id (by simpa using hmem), fun id hmem => ?_,
      h.quiet⟩
    · rw [List.map_append, List.mem_append] at hmem
      rcases hmem with hmem | hmem
      · exact (h.queued_lt id hmem).trans (Nat.lt_succ_self _)
      · obtain rfl := by simpa using hmem
        exact Nat.lt_succ_self _
    · rw [List.map_append, List.mem_append] at hmem
      rcases hmem with hmem | hmem
      · exact h.disjoint id hmem hkey
      · obtain rfl := by simpa using hmem
        exact (h.key_lt _ hkey).false
    · have hid := h.gone id (by simpa using hmem)
      refine ⟨hid.lt.trans (Nat.lt_succ_self _), ?_, hid.leaving⟩
      rw [List.map_append, List.mem_append]
      rintro (hmem | hmem)
      · exact hid.notQueued hmem
      · obtain rfl := by simpa using hmem
        exact hid.lt.false

lemma RemovedInv.remove (h : RemovedInv s) {id : Nat}
    (hsettled : s.removesSettled (.remove (.value id)) = true) : RemovedInv (s.remove id) := by
  simp only [removesSettled, Bool.and_eq_true, decide_eq_true_eq] at hsettled
  obtain ⟨⟨hphase, hkey⟩, hleft⟩ := hsettled
  have hwill : (s.remove id).willRemoveValueCb = s.willRemoveValueCb ++ [id] := if_pos hkey
  refine ⟨h.key_lt, h.queued_lt, h.disjoint, fun id' hmem => h.noDelay id' (by
    simpa [ValueLoop.remove] using hmem), fun id' hmem => ?_, h.quiet⟩
  by_cases heq : id' = id
  · subst heq
    refine ⟨h.key_lt _ hkey, fun hmem => h.disjoint _ hmem hkey, fun _ => ⟨?_, hphase, hleft⟩⟩
    rw [hwill]
    exact List.mem_append_right _ List.mem_cons_self
  · have hid := h.gone id' (by simpa [ValueLoop.remove, heq] using hmem)
    refine ⟨hid.lt, hid.notQueued, fun hkey' => ?_⟩
    obtain ⟨hmem', hphase', hleft'⟩ := hid.leaving hkey'
    refine ⟨?_, hphase', hleft'⟩
    rw [hwill]
    exact List.mem_append_left _ hmem'

lemma RemovedInv.visit (h : RemovedInv s) {id : Nat} {w : Window} {left : List Nat}
    {info : ValueCbInfo} (hwalk : s.walk = some left)
    (hinfo : s.valueCbMap.lookup id = some info) (hid : id ∈ left) :
    RemovedInv (s.visit wave id info (left.filter (· ≠ id)) w) := by
  have hstay : ∀ id', id' ∉ s.walk.getD [] → id' ∉ left.filter (· ≠ id) := by
    intro id' hout hmem
    rw [hwalk, Option.getD_some] at hout
    exact hout (List.mem_of_mem_filter hmem)
  have hkept : .removed (.value id) ∉ s.log := by
    intro hmem
    have hout := ((h.gone id hmem).leaving (mem_keys_of_lookup hinfo)).2.2
    rw [hwalk, Option.getD_some] at hout
    exact hout hid
  have hcases := VisitOutcome.of_visit wave s id info (left.filter (· ≠ id)) w
  generalize s.visit wave id info (left.filter (· ≠ id)) w = s' at hcases ⊢
  have hleaving : ∀ id', .removed (.value id') ∈ s.log → id' ∈ s.keys → s.loop.phase = .values →
      id' ∉ s.walk.getD [] → s.loop.phase = .values ∧ id' ∉ left.filter (· ≠ id) :=
    fun id' _ _ hphase hout => ⟨hphase, hstay id' hout⟩
  cases hcases with
  | noValue hobs => exact h.of_same rfl rfl rfl rfl (fun _ h => h) h.quiet hleaving
  | same hobs => exact h.of_same rfl rfl rfl rfl (fun _ h => h) h.quiet hleaving
  | stoi seen hobs hne hint =>
    exact h.of_same (keys_setSeen id seen) rfl rfl rfl (fun _ h => h) h.quiet hleaving
  | invoked seen integer hobs hne hint =>
    exact h.of_same (keys_setSeen id seen) rfl rfl rfl (by simp [note, setSeen])
      ⟨hkept, h.quiet⟩ hleaving

lemma RemovedInv.step (h : RemovedInv s) (hok : s.removesSettled a = true)
    (hstep : s.step wave a = some s') : RemovedInv s' := by
  obtain ⟨-, hrule⟩ := Rule.of_step hstep
  cases hrule with
  | startLoop l hwalk hfrom hto hcursor =>
    refine h.of_append (fun id hmem hkey => ?_) l
    have := ((h.gone id hmem).leaving hkey).2.1
    rw [hfrom] at this
    cases this
  | call l e hfrom hstay hcursor =>
    refine h.of_same rfl rfl rfl rfl (by simp [note]) ?_ fun id hmem hkey hphase _ =>
      (hfrom hphase).elim
    exact ⟨h.noDelay e.id, h.quiet⟩
  | startWalk l hfrom hto hcursor =>
    refine h.of_same rfl rfl rfl rfl (fun _ h => h) h.quiet fun id hmem hkey hphase _ => ?_
    rw [hfrom] at hphase
    cases hphase
  | advance l hwalk hfrom hto hcursor =>
    obtain ⟨hinv, hgone⟩ := h.removeValueCb
    exact hinv.of_append hgone l
  | other a l hstay hcursor =>
    exact h.of_same rfl rfl rfl rfl (fun _ h => h) h.quiet fun id _ _ hphase hleft =>
      ⟨hstay.values.mpr hphase, hleft⟩
  | register handle w => exact h.register handle w
  | remove id hlive => exact h.remove hok
  | removeNull id =>
    exact h.of_same rfl rfl rfl rfl (fun _ h => h) h.quiet fun id _ _ hphase hleft =>
      ⟨hphase, hleft⟩
  | visit id w left info hwalk hinfo hid => exact h.visit hwalk hinfo hid
  | walked hwalk =>
    exact h.of_same rfl rfl rfl rfl (by simp [note]) h.quiet fun id _ _ hphase _ =>
      ⟨hphase, by simp⟩

/-- When every callback is removed from the map and behind the walk of the turn, no routine is called
after the removal of its callback has returned. -/
theorem quiet_of_removesSettled (h : Reached wave (fun s a => s.removesSettled a) s) :
    Quiet s.log :=
  (Reach.invariant (I := RemovedInv) h .init fun _ _ _ _ hinv hok hstep =>
    hinv.step hok hstep).quiet

/-- One bit that rises at the second index, dumped as FSDB. -/
def rising : Waveform where
  table := Loop.tens
  backend := .fsdb
  signal := fun _ => ⟨1, fun idx => .fsdb [if idx = 0 then .zero else .one], fun _ => rfl⟩
  backend_found := fun _ _ => rfl

/-- No window. -/
def noWindow : Window := ⟨0, 0, []⟩

/-- A callback that is removed behind the walk of the first turn, before the edge. -/
def removedInTime : List Act :=
  [.register 0 noWindow, .time .startLoop, .time .loopTest, .time .walked, .visit 0 noWindow,
    .walked, .remove (.value 0), .time .advance, .time .loopTest, .time .walked, .walked]

theorem quiet_rising :
    ∃ s, runChecked (step rising) (fun s a => s.removesSettled a) init removedInTime = some s ∧
      Quiet s.log ∧
      s.log = [.walked 1, .removed (.value 0), .walked 0, .registered 0 0 0] := by
  have hrun : (runChecked (step rising) (fun s a => s.removesSettled a) init removedInTime).map
      (fun s => s.log) =
      some [.walked 1, .removed (.value 0), .walked 0, .registered 0 0 0] := by decide +kernel
  obtain ⟨s, hs, hlog⟩ := Option.map_eq_some_iff.mp hrun
  exact ⟨s, hs, quiet_of_removesSettled (reach_of_runChecked hs), hlog⟩

/-- A callback that is removed at once, while it waits in the queue. -/
def removedInQueue : List Act :=
  [.register 0 noWindow, .remove (.value 0), .time .startLoop, .time .loopTest, .time .walked,
    .visit 0 noWindow, .walked, .time .advance, .time .loopTest, .time .walked,
    .visit 0 noWindow]

/-- A callback that is removed by a time callback of the turn of the edge. -/
def removedBeforeWalk : List Act :=
  [.register 0 noWindow, .time (.register 10), .time .startLoop, .time .loopTest, .time (.visit 1),
    .time .walked, .visit 0 noWindow, .walked, .time .advance, .time .loopTest, .time (.visit 1),
    .time .call, .remove (.value 0), .time .walked, .visit 0 noWindow]

/-- Both are called at the edge, after their removal has returned. -/
theorem not_quiet_rising :
    (∃ s, run (step rising) init removedInQueue = some s ∧ ¬Quiet s.log) ∧
      ∃ s, run (step rising) init removedBeforeWalk = some s ∧ ¬Quiet s.log := by
  have hqueue : (run (step rising) init removedInQueue).map (fun s => s.log) =
      some [.invoked (.value 0) 1 (some 1), .walked 0, .removed (.value 0), .registered 0 0 0] := by
    decide +kernel
  have hwalk : (run (step rising) init removedBeforeWalk).map (fun s => s.log) =
      some [.invoked (.value 0) 1 (some 1), .removed (.value 0), .invoked (.delay 0) 1 none,
        .walked 0, .registered 0 0 0] := by
    decide +kernel
  obtain ⟨s, hs, hlog⟩ := Option.map_eq_some_iff.mp hqueue
  obtain ⟨s', hs', hlog'⟩ := Option.map_eq_some_iff.mp hwalk
  refine ⟨⟨s, hs, ?_⟩, s', hs', ?_⟩
  · rw [hlog]
    exact fun h => h.1 (by simp)
  · rw [hlog']
    exact fun h => h.1 (by simp)

end ValueLoop

end Verilua.Wave
