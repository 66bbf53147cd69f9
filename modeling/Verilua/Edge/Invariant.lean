import Verilua.Edge.Ops

/-!
# The registrations that the callbacks serve

The invariant of the runs in which each task has at most one registration and no callback is called
with a matching value twice between two `cbNextSimTime` callbacks. It is the same with and without
`merge_cb` and `chunk_task`.
-/

namespace Verilua.Edge

open OneShot (outstanding due)
open TransitionSystem

variable {cfg : Config} {m m' : Machine} {a : Act} {cb cb' : Callback} {r : Reg} {f : Frame}
  {rest : List Frame} {left left' : List TaskID}

namespace Machine

/-- The callbacks in progress, each with the tasks that it has not resumed yet. -/
def current (m : Machine) : List (Callback × List TaskID) := m.stack.filterMap Frame.current

/-- The callback will resume the task of the registration. -/
def Live (m : Machine) (cb : Callback) (r : Reg) : Prop :=
  cb.has r ∧ (cb.id ∉ m.fired ∨ ∃ left, (cb, left) ∈ m.current ∧ r.task ∈ left)

/-- A callback in progress has resumed the task. -/
def Woken (m : Machine) (r : Reg) : Prop := ∃ c ∈ m.current, c.1.has r ∧ r.task ∉ c.2

instance (m : Machine) (r : Reg) : Decidable (m.Woken r) :=
  inferInstanceAs (Decidable (∃ c ∈ m.current, _))

/-- A callback of the task has been called. -/
def Spent (m : Machine) (r : Reg) : Prop :=
  ∃ cb ∈ m.env.callbacks, cb.has r ∧ cb.id ∈ m.fired

/-- A change that hits the registration is on the stack, and its callback has still to be called or
is in progress. -/
def Owed (m : Machine) (r : Reg) : Prop :=
  ∃ f ∈ m.stack, hits f.change r = true ∧
    ∃ cb ∈ m.env.callbacks, cb.has r ∧ (cb.id ∈ f.toCall ∨ ∃ left, f.current = some (cb, left))

lemma live_congr (hfired : m'.fired = m.fired) (hcurrent : m'.current = m.current) :
    m'.Live cb r ↔ m.Live cb r := by
  rw [Live, Live, hfired, hcurrent]

lemma woken_congr (hcurrent : m'.current = m.current) : m'.Woken r ↔ m.Woken r := by
  rw [Woken, Woken, hcurrent]

lemma spent_congr (hcbs : m'.env.callbacks = m.env.callbacks) (hfired : m'.fired = m.fired) :
    m'.Spent r ↔ m.Spent r := by
  rw [Spent, Spent, hcbs, hfired]

lemma owed_congr (hcbs : m'.env.callbacks = m.env.callbacks) (hstack : m'.stack = m.stack) :
    m'.Owed r ↔ m.Owed r := by
  rw [Owed, Owed, hcbs, hstack]

lemma current_some (hstack : m.stack = f :: rest) (h : f.current = some (cb, left)) :
    m.current = (cb, left) :: rest.filterMap Frame.current := by
  rw [current, hstack, List.filterMap_cons_some h]

lemma current_none (hstack : m.stack = f :: rest) (h : f.current = none) :
    m.current = rest.filterMap Frame.current := by
  rw [current, hstack, List.filterMap_cons_none h]

end Machine

/-- The registered callbacks and the kept chunks. -/
structure Callbacks (cfg : Config) (env : Env) : Prop where
  ids : (env.callbacks.map Callback.id).Nodup
  apart : (env.callbacks.flatMap Callback.regs).Nodup
  tasks : ∀ cb ∈ env.callbacks, cb.tasks ≠ [] ∧ (cfg.chunkTask = false → ∃ t, cb.tasks = [t])
  kept : ∀ cb ∈ env.pendingCbChunk, cb ∈ env.callbacks
  keptNodup : env.pendingCbChunk.Nodup
  keptChunk : (cfg.mergeCb && cfg.chunkTask) = false → env.pendingCbChunk = []

/-- The callbacks in progress and those that have still to be called. -/
structure Frames (m : Machine) : Prop where
  running : ∀ f ∈ m.stack, ∀ cb left, f.current = some (cb, left) →
    cb ∈ m.env.callbacks ∧ cb.id ∈ m.fired ∧ left <:+ cb.tasks ∧ ∀ r, cb.has r → hits f.change r
  once : (m.current.map fun c => c.1.id).Nodup
  toCall : ∀ f ∈ m.stack, ∀ cb ∈ m.env.callbacks, cb.id ∈ f.toCall → cb.key.handle = f.handle

/-- The registrations that wait for the next `cbNextSimTime` callback, those that the callbacks
serve, and the counts. -/
structure Registrations (cfg : Config) (m : Machine) : Prop where
  sound : OneShot.Sound m.log
  once : ((outstanding m.log).all.map Reg.task).Nodup
  armed : ∀ r, r ∈ (outstanding m.log).armed ↔ ∃ cb ∈ m.env.callbacks, m.Live cb r
  fired : ∀ cb ∈ m.env.callbacks, cb.id ∈ m.fired → (∃ left, (cb, left) ∈ m.current) ∨
    cfg.mergeCb = true ∧ (∀ r, cb.has r → r ∈ (outstanding m.log).pending) ∧
      (cfg.chunkTask = true → cb ∈ m.env.pendingCbChunk)
  queueNodup : m.env.pendingCbMap.Nodup
  queue : ∀ r, r ∈ m.env.pendingCbMap ↔ r ∈ (outstanding m.log).pending ∧
    ¬ (cfg.mergeCb = true ∧ cfg.chunkTask = false ∧ m.Spent r)
  count : cfg.mergeCb = true → ∀ r, (m.env.cbCount r).getD 0 =
    (if r ∈ (outstanding m.log).all then 1 else 0) + if m.Woken r then 1 else 0

/-- The wake-ups that are due and those that were made differ by the callbacks that the changes
on the stack have not gone through. -/
structure Due (m : Machine) : Prop where
  nodup : (due hits m.log).armed.Nodup
  mem : ∀ r, r ∈ (due hits m.log).armed ↔ r ∈ (outstanding m.log).armed ∧ ¬ m.Owed r

structure Inv (cfg : Config) (m : Machine) : Prop where
  callbacks : Callbacks cfg m.env
  frames : Frames m
  regs : Registrations cfg m
  due : Due m

/-! ### Consequences -/

namespace Callbacks

variable {env : Env}

lemma eq_of_id (h : Callbacks cfg env) (hcb : cb ∈ env.callbacks) (hcb' : cb' ∈ env.callbacks)
    (hid : cb.id = cb'.id) : cb = cb' :=
  List.inj_on_of_nodup_map h.ids hcb hcb' hid

lemma apart_of_ne (h : Callbacks cfg env) (hcb : cb ∈ env.callbacks) (hcb' : cb' ∈ env.callbacks)
    (hne : cb ≠ cb') : Apart cb cb' :=
  List.Pairwise.forall (R := Apart) (List.nodup_flatMap.mp h.apart).2 hcb hcb' hne

lemma eq_of_has (h : Callbacks cfg env) (hcb : cb ∈ env.callbacks) (hcb' : cb' ∈ env.callbacks)
    (hr : cb.has r) (hr' : cb'.has r) : cb = cb' := by
  by_contra hne
  exact h.apart_of_ne hcb hcb' hne (Callback.mem_regs.mpr hr) (Callback.mem_regs.mpr hr')

lemma tasks_nodup (h : Callbacks cfg env) (hcb : cb ∈ env.callbacks) : cb.tasks.Nodup :=
  .of_map _ ((List.nodup_flatMap.mp h.apart).1 cb hcb)

lemma congr {env' : Env} (h : Callbacks cfg env) (hcbs : env'.callbacks = env.callbacks)
    (hkept : env'.pendingCbChunk = env.pendingCbChunk) : Callbacks cfg env' := by
  refine ⟨?_, ?_, ?_, ?_, ?_, ?_⟩
  · rw [hcbs]; exact h.ids
  · rw [hcbs]; exact h.apart
  · rw [hcbs]; exact h.tasks
  · rw [hcbs, hkept]; exact h.kept
  · rw [hkept]; exact h.keptNodup
  · rw [hkept]; exact h.keptChunk

end Callbacks

/-- What the end of a callback means for the registered callbacks. -/
structure Ended (cfg : Config) (env : Env) (cb : Callback) (env' : Env) : Prop where
  callbacks : Callbacks cfg env'
  sub : ∀ cb' ∈ env'.callbacks, cb' ∈ env.callbacks
  other : ∀ cb' ∈ env.callbacks, cb' ≠ cb →
    cb' ∈ env'.callbacks ∧ (cb' ∈ env.pendingCbChunk → cb' ∈ env'.pendingCbChunk)
  queue : env'.pendingCbMap = env.pendingCbMap
  count : cfg.mergeCb = true →
    ∀ r, (env'.cbCount r).getD 0 = (env.cbCount r).getD 0 - if cb.has r then 1 else 0
  stays : cb ∈ env'.callbacks → cfg.mergeCb = true ∧
    (∀ r, cb.has r → (env.cbCount r).getD 0 ≠ 1) ∧
      (cfg.chunkTask = true → cb ∈ env'.pendingCbChunk)
  leaves : cb ∉ env'.callbacks → cfg.mergeCb = true → ∃ r, cb.has r ∧ (env.cbCount r).getD 0 = 1

lemma Callbacks.remove {env : Env} (h : Callbacks cfg env) (cb : Callback) {count : Reg → Option Nat}
    {kept : List Callback} (hkept : kept.Sublist env.pendingCbChunk)
    (hno : ∀ cb' ∈ kept, cb'.id ≠ cb.id) :
    Callbacks cfg (Env.removeCallback { env with cbCount := count, pendingCbChunk := kept } cb) := by
  have hsub : (env.callbacks.filter fun cb' => decide (cb'.id ≠ cb.id)).Sublist env.callbacks :=
    List.filter_sublist
  refine ⟨h.ids.sublist (hsub.map _), h.apart.sublist (hsub.flatMap _), fun cb' hcb' => ?_,
    fun cb' hcb' => ?_, h.keptNodup.sublist hkept, fun hchunk => ?_⟩
  · exact h.tasks cb' (hsub.subset hcb')
  · exact mem_removeCallback.mpr ⟨h.kept cb' (hkept.subset hcb'), hno cb' hcb'⟩
  · exact List.sublist_nil.mp (h.keptChunk hchunk ▸ hkept)

theorem Ended.of_finish {env env' : Env} (h : Callbacks cfg env) (hcb : cb ∈ env.callbacks)
    (hf : Finish cfg env cb env') : Ended cfg env cb env' := by
  have hne : ∀ cb' ∈ env.callbacks, cb' ≠ cb → cb'.id ≠ cb.id := fun cb' hcb' hne hid =>
    hne (h.eq_of_id hcb' hcb hid)
  cases hf with
  | plain hmerge =>
    have hnone := h.keptChunk (by simp [hmerge])
    refine ⟨h.remove cb (.refl _) (by simp [hnone]), ?_, ?_, rfl, by simp [hmerge], ?_,
      by simp [hmerge]⟩
    · exact fun cb' hcb' => (mem_removeCallback.mp hcb').1
    · exact fun cb' hcb' hne' => ⟨mem_removeCallback.mpr ⟨hcb', hne cb' hcb' hne'⟩, id⟩
    · exact fun hmem => absurd rfl (mem_removeCallback.mp hmem).2
  | keeps count hmerge hcount hmore =>
    have hsub : env.pendingCbChunk.Sublist (if cfg.chunkTask &&
        !env.pendingCbChunk.any fun cb' => decide (cb'.id = cb.id) then
        env.pendingCbChunk ++ [cb] else env.pendingCbChunk) := by
      split_ifs
      · exact List.sublist_append_left _ _
      · exact .refl _
    refine ⟨⟨h.ids, h.apart, h.tasks, fun cb' hcb' => ?_, ?_, fun hchunk => ?_⟩, fun _ => id,
      fun cb' hcb' _ => ⟨hcb', fun hkept => hsub.subset hkept⟩, rfl, fun _ => hcount,
      fun _ => ⟨hmerge, hmore, fun hchunk => ?_⟩, fun hno => absurd hcb hno⟩
    · dsimp only at hcb'
      split_ifs at hcb'
      · rcases List.mem_append.mp hcb' with hkept | hnew
        · exact h.kept cb' hkept
        · exact List.mem_singleton.mp hnew ▸ hcb
      · exact h.kept cb' hcb'
    · dsimp only
      split_ifs with hadd
      · refine h.keptNodup.append (List.nodup_singleton _) (List.disjoint_singleton.mpr ?_)
        intro hmem
        simp only [Bool.and_eq_true, Bool.not_eq_true', List.any_eq_false] at hadd
        exact hadd.2 cb hmem (decide_eq_true rfl)
      · exact h.keptNodup
    · have hchunk' : cfg.chunkTask = false := by simpa [hmerge] using hchunk
      simp [hchunk', h.keptChunk hchunk]
    · dsimp only
      split_ifs with hadd
      · exact List.mem_append_right _ (List.mem_singleton_self _)
      · simp only [hchunk, Bool.true_and, Bool.not_eq_true', Bool.not_eq_false,
          List.any_eq_true, decide_eq_true_eq] at hadd
        obtain ⟨cb', hkept, hid⟩ := hadd
        exact h.eq_of_id (h.kept cb' hkept) hcb hid ▸ hkept
  | removes count hmerge hcount hlast =>
    have hkept : ∀ cb', cb' ∈ (if cfg.chunkTask then
        env.pendingCbChunk.filter fun cb' => decide (cb'.id ≠ cb.id) else env.pendingCbChunk) ↔
        cb' ∈ env.pendingCbChunk ∧ cb'.id ≠ cb.id := by
      intro cb'
      cases hchunk : cfg.chunkTask with
      | true => simp
      | false => simp [h.keptChunk (by simp [hchunk])]
    refine ⟨h.remove cb ?_ fun cb' hcb' => ((hkept cb').mp hcb').2, ?_, ?_, rfl, fun _ => hcount, ?_,
      fun _ _ => hlast⟩
    · split_ifs
      · exact List.filter_sublist
      · exact .refl _
    · exact fun cb' hcb' => (mem_removeCallback.mp hcb').1
    · exact fun cb' hcb' hne' => ⟨mem_removeCallback.mpr ⟨hcb', hne cb' hcb' hne'⟩,
        fun hmem => (hkept cb').mpr ⟨hmem, hne cb' hcb' hne'⟩⟩
    · exact fun hmem => absurd rfl (mem_removeCallback.mp hmem).2

namespace Frames

lemma mem_current (h : Frames m) (hc : (cb, left) ∈ m.current) :
    cb ∈ m.env.callbacks ∧ cb.id ∈ m.fired ∧ left <:+ cb.tasks := by
  obtain ⟨f, hf, hcurrent⟩ := List.mem_filterMap.mp hc
  obtain ⟨hcb, hid, hleft, -⟩ := h.running f hf cb left hcurrent
  exact ⟨hcb, hid, hleft⟩

lemma left_unique (h : Frames m) (hc : (cb, left) ∈ m.current) (hc' : (cb, left') ∈ m.current) :
    left = left' :=
  congrArg Prod.snd (List.inj_on_of_nodup_map h.once hc hc' rfl)

end Frames

namespace Registrations

lemma all_nodup (h : Registrations cfg m) : (outstanding m.log).all.Nodup := .of_map _ h.once

lemma not_armed (h : Registrations cfg m) (hr : r ∈ (outstanding m.log).pending) :
    r ∉ (outstanding m.log).armed :=
  fun hr' => List.disjoint_of_nodup_append h.all_nodup hr hr'

end Registrations

namespace Inv

/-- A task that has been woken and has not registered again is one that a callback in progress has
resumed. -/
lemma spent_iff_woken (h : Inv cfg m) (hr : r ∉ (outstanding m.log).all) :
    m.Spent r ↔ m.Woken r := by
  obtain ⟨hpending, harmed⟩ := not_or.mp (mt List.mem_append.mpr hr)
  constructor
  · rintro ⟨cb, hcb, hhas, hid⟩
    rcases h.regs.fired cb hcb hid with ⟨left, hc⟩ | ⟨-, hkept, -⟩
    · refine ⟨(cb, left), hc, hhas, fun hleft => harmed ?_⟩
      exact (h.regs.armed r).mpr ⟨cb, hcb, hhas, .inr ⟨left, hc, hleft⟩⟩
    · exact absurd (hkept r hhas) hpending
  · rintro ⟨⟨cb, left⟩, hc, hhas, -⟩
    obtain ⟨hcb, hid, -⟩ := h.frames.mem_current hc
    exact ⟨cb, hcb, hhas, hid⟩

lemma not_live (h : Inv cfg m) (hc : (cb, []) ∈ m.current) : ¬ m.Live cb r := by
  rintro ⟨-, hid | ⟨left, hc', hleft⟩⟩
  · exact hid (h.frames.mem_current hc).2.1
  · rw [h.frames.left_unique hc' hc] at hleft
    cases hleft

lemma live_of_armed (h : Inv cfg m) (hr : r ∈ (outstanding m.log).armed)
    (hcb : cb ∈ m.env.callbacks) (hhas : cb.has r) : m.Live cb r := by
  obtain ⟨cb', hcb', hlive⟩ := (h.regs.armed r).mp hr
  rwa [h.callbacks.eq_of_has hcb hcb' hhas hlive.1]

lemma init (cfg : Config) : Inv cfg Machine.init where
  callbacks := ⟨List.nodup_nil, List.nodup_nil, by simp [Machine.init, Env.init],
    by simp [Machine.init, Env.init], List.nodup_nil, fun _ => rfl⟩
  frames := ⟨by simp [Machine.init], List.nodup_nil, by simp [Machine.init]⟩
  regs := by
    refine ⟨trivial, List.nodup_nil, ?_, ?_, List.nodup_nil, ?_, ?_⟩
    all_goals simp [Machine.init, Env.init, outstanding, OneShot.Regs.all, Machine.Woken,
      Machine.current]
  due := ⟨List.nodup_nil, by simp [Machine.init, outstanding, OneShot.due]⟩

end Inv

end Verilua.Edge
