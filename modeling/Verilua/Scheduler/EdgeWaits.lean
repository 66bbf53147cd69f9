import Verilua.Scheduler.Step

/-!
# Edge waits in `EDGE_STEP`

`posedge()` and `negedge()` enter the task in the table that the passes of that edge walk. A run
keeps such a wait if control comes back to the coroutine only when the first pass of the edge that
begins after the wait has picked the task. The overrides of `await_posedge_hdl` and
`await_negedge_hdl` make the entry and return, where those of the step mode and the functions they
replace end with `coro_yield(NOOP)`; so control never leaves the coroutine, and no run keeps a wait.
-/

namespace Verilua

open TransitionSystem

inductive Edge
  | posedge
  | negedge
  deriving DecidableEq, Repr

/-- The pass that ends a wait for the edge. -/
def Edge.pass : Edge → PassKind
  | .posedge => .posedge
  | .negedge => .negedge

/-- `clock:posedge()` or `clock:negedge()`. -/
def Edge.await : Edge → Verilua.Act
  | .posedge => .awaitPosedge
  | .negedge => .awaitNegedge

variable {m m' : Machine} {edge : Edge} {id : TaskID} {th : ThreadID} {as : List Act}

/-- Control is in the code of `th`. -/
def Machine.inCode (m : Machine) (th : ThreadID) : Bool :=
  match m.stack with
  | .body _ th' _ :: _ => th' = th
  | _ => false

/-- The pass whose next iteration is due. -/
def Machine.inPass (m : Machine) : Option PassKind :=
  match m.stack with
  | .pass kind .. :: _ => some kind
  | _ => none

/-- In the run `as` from `m` on, control is not in the code of `th` before a pass of the edge has
picked its task `id`, and the first pass of the edge that begins does not end before it has;
`begun` says that one has begun. -/
def WaitsForPass (edge : Edge) (id : TaskID) (th : ThreadID) : Bool → Machine → List Act → Prop
  | _, m, [] => m.inCode th = false
  | begun, m, a :: as => m.inCode th = false ∧
    ((begun = true ∧ m.inPass = some edge.pass ∧ a = .pick id) ∨
      ¬ (begun = true ∧ m.inPass = some edge.pass ∧ a = .endPass) ∧
        ∀ m', m.step a = some m' →
          WaitsForPass edge id th (begun || decide (a = .startPass edge.pass)) m' as)

/-- Every edge wait of the run waits for a pass of its edge. -/
def EdgeWaitsHold (as : List Act) : Prop :=
  ∀ edge before after m m' id th oldCurr rest, as = before ++ Edge.await edge :: after →
    run Machine.step (Machine.init .edgeStep) before = some m →
    m.stack = .body id th oldCurr :: rest → m.step edge.await = some m' →
    WaitsForPass edge id th false m' after

lemma WaitsForPass.not_inCode {begun : Bool} (h : WaitsForPass edge id th begun m as) :
    m.inCode th = false := by
  cases as with
  | nil => exact h
  | cons => exact h.1

lemma stack_of_await (h : m.step edge.await = some m') :
    m'.stack = m.stack ∧ ∃ id th oldCurr rest, m.stack = .body id th oldCurr :: rest := by
  cases edge with
  | posedge | negedge =>
    unfold Machine.step at h
    split_ifs at h
    split at h
    case h_5 id th oldCurr rest hs =>
      simp only [Machine.bodyStep, Edge.await] at h
      split_ifs at h
      cases h
      exact ⟨rfl, id, th, oldCurr, rest, hs⟩
    case h_1 heq | h_2 heq | h_3 heq | h_6 heq => cases heq
    all_goals cases h

lemma not_waitsForPass_of_await {begun : Bool} {oldCurr : TaskID} {rest : List Frame}
    (hs : m.stack = .body id th oldCurr :: rest) (h : m.step edge.await = some m') :
    ¬ WaitsForPass edge id th begun m' as := by
  intro hwaits
  have hcode : m'.inCode th = true := by
    simp [Machine.inCode, (stack_of_await h).1, hs]
  rw [hwaits.not_inCode] at hcode
  cases hcode

/-- A run keeps its edge waits exactly if it has none. -/
theorem edgeWaitsHold_iff (h : (run Machine.step (Machine.init .edgeStep) as).isSome) :
    EdgeWaitsHold as ↔ ∀ edge, Edge.await edge ∉ as := by
  constructor
  · intro hhold edge hmem
    obtain ⟨before, after, rfl⟩ := List.append_of_mem hmem
    rw [run_append] at h
    obtain ⟨m', hm'⟩ := Option.isSome_iff_exists.mp h
    obtain ⟨m, hm, hrest⟩ := Option.bind_eq_some_iff.mp hm'
    obtain ⟨m'', hstep, -⟩ := Option.bind_eq_some_iff.mp hrest
    obtain ⟨-, id, th, oldCurr, rest, hs⟩ := stack_of_await hstep
    exact not_waitsForPass_of_await hs hstep
      (hhold edge before after m m'' id th oldCurr rest rfl hm hs hstep)
  · intro hno edge before after _ _ _ _ _ _ heq
    exact absurd (by simp [heq]) (hno edge)

/-- `A: clock:posedge(); e:send(); clock:negedge()`, started and followed by one pass of each edge. -/
def sendAfterPosedge : List Act :=
  [.newEventHdl "e" none, .appendTask none "A" 0 true, .enter, .awaitPosedge, .send 1,
   .awaitNegedge, .yield .returned, .yielded, .loop, .loop, .loop,
   .startPass .posedge, .endPass, .startPass .negedge]

theorem not_edgeWaitsHold_of_sendAfterPosedge :
    (run Machine.step (Machine.init .edgeStep) sendAfterPosedge).isSome ∧
      ¬ EdgeWaitsHold sendAfterPosedge := by
  have hrun : (run Machine.step (Machine.init .edgeStep) sendAfterPosedge).isSome = true := by
    decide +kernel
  refine ⟨hrun, fun hhold => ?_⟩
  exact (edgeWaitsHold_iff hrun).mp hhold .posedge (by decide)

/-- The code after `clock:posedge()` runs before any pass. -/
theorem not_edgeWaitsHold :
    ¬ ∀ as, (run Machine.step (Machine.init .edgeStep) as).isSome → EdgeWaitsHold as := by
  intro hall
  have hrun : (run Machine.step (Machine.init .edgeStep) (sendAfterPosedge.take 3)).bind
      (fun m => (m.step .awaitPosedge).map fun m' => (m.stack, m'.stack)) =
      some ([.body 1 0 0], [.body 1 0 0]) := by
    decide +kernel
  obtain ⟨m, hm, hrest⟩ := Option.bind_eq_some_iff.mp hrun
  obtain ⟨m', hstep, heq⟩ := Option.map_eq_some_iff.mp hrest
  have hwaits := hall sendAfterPosedge (by decide +kernel) .posedge _ (sendAfterPosedge.drop 4)
    m m' 1 0 0 [] rfl hm (Prod.mk.inj heq).1 hstep
  have hcode := hwaits.not_inCode
  simp [Machine.inCode, (Prod.mk.inj heq).2] at hcode

end Verilua
