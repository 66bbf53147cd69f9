import Verilua.Edge.Invariant

/-!
# Merged callbacks wake whom plain ones wake

Every step keeps `Inv` when the task of a registration has no other one outstanding and the
callback that is called has not been called since the last `cbNextSimTime` callback.
-/

namespace Verilua.Edge

open OneShot (outstanding)
open Put (ComplexHandleRaw)
open TransitionSystem

variable {cfg : Config} {m m' : Machine} {a : Act} {cb cb' : Callback} {r : Reg} {f : Frame}
  {rest : List Frame} {left left' : List TaskID}

namespace Inv

/-! ### Registration and changes -/

theorem register (h : Inv cfg m) (hnew : r.task ∉ (outstanding m.log).all.map Reg.task) :
    Inv cfg { m with
      env := m.env.registerEdgeCallback cfg r
      log := .register r :: m.log } := by
  have hcbs : (m.env.registerEdgeCallback cfg r).callbacks = m.env.callbacks :=
    registerEdgeCallback_callbacks
  have hkept : (m.env.registerEdgeCallback cfg r).pendingCbChunk = m.env.pendingCbChunk :=
    registerEdgeCallback_pendingCbChunk
  have hall : r ∉ (outstanding m.log).all := fun hr => hnew (List.mem_map_of_mem hr)
  have hpending : r ∉ (outstanding m.log).pending := fun hr =>
    hall (List.mem_append_left _ hr)
  have hpushed : r ∉ m.env.pendingCbMap := fun hr => hpending ((h.regs.queue r).mp hr).1
  set m' : Machine := { m with
    env := m.env.registerEdgeCallback cfg r
    log := .register r :: m.log } with hm'
  have hspent : ∀ r', m'.Spent r' ↔ m.Spent r' := fun r' => Machine.spent_congr hcbs rfl
  -- The count says whether a callback in progress has resumed the task.
  have hcounts : cfg.mergeCb = true → (0 < (m.env.cbCount r).getD 0 ↔ m.Woken r) := by
    intro hmerge
    rw [h.regs.count hmerge r, if_neg hall]
    split_ifs with hw <;> simp [hw]
  have hqueue : m'.env.pendingCbMap.Nodup ∧ ∀ r', r' ∈ m'.env.pendingCbMap ↔
      r' ∈ r :: (outstanding m.log).pending ∧
        ¬ (cfg.mergeCb = true ∧ cfg.chunkTask = false ∧ m.Spent r') := by
    by_cases hcounted : cfg.countsOn ((m.env.cbCount r).getD 0)
    · obtain ⟨hmerge, hchunk, hpos⟩ := hcounted
      have hwoken := (h.spent_iff_woken hall).mpr ((hcounts hmerge).mp hpos)
      have heq : m'.env.pendingCbMap = m.env.pendingCbMap :=
        registerEdgeCallback_counted ⟨hmerge, hchunk, hpos⟩
      refine ⟨heq ▸ h.regs.queueNodup, fun r' => ?_⟩
      rw [heq, h.regs.queue r', List.mem_cons]
      by_cases hr' : r' = r
      · subst hr'
        simp [hmerge, hchunk, hwoken]
      · simp [hr']
    · have heq : m'.env.pendingCbMap = m.env.pendingCbMap ++ [r] :=
        registerEdgeCallback_pushed hcounted
      refine ⟨?_, fun r' => ?_⟩
      · rw [heq]
        exact h.regs.queueNodup.append (List.nodup_singleton r) (by simpa using hpushed)
      · rw [heq, List.mem_append, List.mem_singleton, h.regs.queue r', List.mem_cons]
        by_cases hr' : r' = r
        · subst hr'
          simp only [or_true, true_or, true_and, true_iff]
          rintro ⟨hmerge, hchunk, hs⟩
          have hpos := (hcounts hmerge).mpr ((h.spent_iff_woken hall).mp hs)
          exact hcounted ⟨hmerge, hchunk, hpos⟩
        · simp [hr']
  refine ⟨h.callbacks.congr hcbs hkept, ?_, ?_, ?_⟩
  · refine ⟨?_, h.frames.once, ?_⟩
    · rw [show m'.env.callbacks = m.env.callbacks from hcbs]
      exact h.frames.running
    · rw [show m'.env.callbacks = m.env.callbacks from hcbs]
      exact h.frames.toCall
  · refine ⟨h.regs.sound, ?_, ?_, ?_, hqueue.1, fun r' => ?_, fun hmerge r' => ?_⟩
    · exact List.nodup_cons.mpr ⟨hnew, h.regs.once⟩
    · rw [show m'.env.callbacks = m.env.callbacks from hcbs]
      exact h.regs.armed
    · rw [show m'.env.callbacks = m.env.callbacks from hcbs,
        show m'.env.pendingCbChunk = m.env.pendingCbChunk from hkept]
      intro cb hcb hid
      refine (h.regs.fired cb hcb hid).imp_right fun ⟨hmerge, hregs, hchunk⟩ => ?_
      exact ⟨hmerge, fun r' hr' => List.mem_cons_of_mem _ (hregs r' hr'), hchunk⟩
    · rw [hqueue.2 r', hspent r']
      rfl
    · have hcount := h.regs.count hmerge r'
      have hmem : r' ∈ (outstanding m'.log).all ↔ r' = r ∨ r' ∈ (outstanding m.log).all :=
        List.mem_cons
      rw [show m'.env.cbCount = _ from registerEdgeCallback_cbCount hmerge]
      simp only [hmem, Machine.woken_congr (show m'.current = m.current from rfl)]
      by_cases hr' : r' = r
      · subst hr'
        rw [if_neg hall] at hcount
        simp only [Function.update_self, Option.getD_some, true_or, if_true, hcount]
        omega
      · simpa [Function.update_of_ne hr', hr'] using hcount
  · refine ⟨h.due.nodup, fun r' => ?_⟩
    have howed : m'.Owed r' ↔ m.Owed r' := Machine.owed_congr hcbs rfl
    rw [howed]
    exact h.due.mem r'

theorem edge (h : Inv cfg m) (handle : ComplexHandleRaw) (value : UInt8) :
    Inv cfg { m with
      stack := ⟨handle, value, m.callbacksOn handle, none⟩ :: m.stack
      log := .fire ⟨handle, value⟩ :: m.log } := by
  have hcalled : ∀ cb ∈ m.env.callbacks,
      (cb.id ∈ m.callbacksOn handle ↔ cb.key.handle = handle) := by
    intro cb hcb
    simp only [Machine.callbacksOn, List.mem_map, List.mem_filter, decide_eq_true_eq]
    constructor
    · rintro ⟨cb', ⟨hcb', hhandle⟩, hid⟩
      rwa [← h.callbacks.eq_of_id hcb' hcb hid]
    · intro hhandle
      exact ⟨cb, ⟨hcb, hhandle⟩, rfl⟩
  refine ⟨h.callbacks, ⟨?_, h.frames.once, ?_⟩, ?_, ?_⟩
  · rw [List.forall_mem_cons]
    exact ⟨fun cb left hc => (nomatch hc), h.frames.running⟩
  · rw [List.forall_mem_cons]
    exact ⟨fun cb hcb hid => (hcalled cb hcb).mp hid, h.frames.toCall⟩
  · exact ⟨h.regs.sound, h.regs.once, h.regs.armed, h.regs.fired, h.regs.queueNodup, h.regs.queue,
      h.regs.count⟩
  · refine ⟨h.due.nodup.filter _, fun r => ?_⟩
    rw [OneShot.due, List.mem_filter, h.due.mem r, and_assoc]
    refine and_congr_right fun harmed => ?_
    obtain ⟨cb, hcb, hhas, -⟩ := (h.regs.armed r).mp harmed
    have howed : Machine.Owed { m with
        stack := ⟨handle, value, m.callbacksOn handle, none⟩ :: m.stack
        log := .fire ⟨handle, value⟩ :: m.log } r ↔ hits ⟨handle, value⟩ r = true ∨ m.Owed r := by
      rw [Machine.Owed, List.exists_mem_cons_iff]
      refine or_congr_left' fun _ => and_iff_left_of_imp fun hhit => ⟨cb, hcb, hhas, .inl ?_⟩
      refine (hcalled cb hcb).mpr ?_
      simp only [hits, Bool.and_eq_true, decide_eq_true_eq] at hhit
      rw [hhas.1]
      exact hhit.1
    rw [howed, not_or, Bool.not_eq_true', ← Bool.not_eq_true, and_comm]

/-! ### The callbacks of a change -/

lemma mem_eraseIdx_of_ne {l : List EdgeCallbackID} {i : Nat} {id id' : EdgeCallbackID}
    (hmem : id ∈ l) (hi : l[i]? = some id') (hne : id ≠ id') : id ∈ l.eraseIdx i := by
  obtain ⟨j, hj⟩ := List.mem_iff_getElem?.mp hmem
  refine List.mem_eraseIdx_iff_getElem?.mpr ⟨j, fun heq => hne ?_, hj⟩
  subst heq
  exact Option.some.inj (hj.symm.trans hi)

lemma not_detects (h : Inv cfg m) {i : Nat} (hi : f.toCall[i]? = some cb.id)
    (hno : m.matching f i = none) (hcb : cb ∈ m.env.callbacks) :
    cb.key.edgeType.detects f.value = false := by
  have hfind : m.callback? cb.id = some cb := by
    obtain ⟨cb', hcb'⟩ : ∃ cb', m.callback? cb.id = some cb' := by
      rw [← Option.isSome_iff_exists, Machine.callback?, List.find?_isSome]
      exact ⟨cb, hcb, by simp⟩
    have hid : cb'.id = cb.id := by simpa using List.find?_some hcb'
    rw [hcb', h.callbacks.eq_of_id (List.mem_of_find?_eq_some hcb') hcb hid]
  simpa [Machine.matching, hi, hfind] using hno

lemma of_frames (h : Inv cfg m) {stack : List Frame}
    (hc : Machine.current { m with stack := stack } = m.current)
    (hframes : Frames { m with stack := stack })
    (howed : ∀ r, Machine.Owed { m with stack := stack } r ↔ m.Owed r) :
    Inv cfg { m with stack := stack } := by
  have hlive : ∀ cb r, Machine.Live { m with stack := stack } cb r ↔ m.Live cb r := fun cb r =>
    Machine.live_congr rfl hc
  have hwoken : ∀ r, Machine.Woken { m with stack := stack } r ↔ m.Woken r := fun r =>
    Machine.woken_congr hc
  refine ⟨h.callbacks, hframes, ?_, ?_⟩
  · refine ⟨h.regs.sound, h.regs.once, fun r => ?_, hc ▸ h.regs.fired, h.regs.queueNodup,
      h.regs.queue, fun hmerge r => ?_⟩
    · simp only [hlive]
      exact h.regs.armed r
    · simp only [hwoken]
      exact h.regs.count hmerge r
  · refine ⟨h.due.nodup, fun r => ?_⟩
    rw [howed]
    exact h.due.mem r

theorem skip (h : Inv cfg m) {i : Nat} {id : EdgeCallbackID} (hstack : m.stack = f :: rest)
    (hcurrent : f.current = none) (hi : f.toCall[i]? = some id) (hno : m.matching f i = none) :
    Inv cfg { m with stack := { f with toCall := f.toCall.eraseIdx i } :: rest } := by
  have hframe : ∀ f' ∈ rest, f' ∈ m.stack := fun f' hf' => hstack ▸ List.mem_cons_of_mem _ hf'
  have hf : f ∈ m.stack := hstack ▸ List.mem_cons_self
  have hc : Machine.current { m with
      stack := { f with toCall := f.toCall.eraseIdx i } :: rest } = m.current :=
    (Machine.current_none (f := { f with toCall := f.toCall.eraseIdx i }) rfl hcurrent).trans
      (Machine.current_none hstack hcurrent).symm
  refine h.of_frames hc ⟨?_, hc ▸ h.frames.once, ?_⟩ fun r => ?_
  · rw [List.forall_mem_cons]
    exact ⟨h.frames.running f hf, fun f' hf' => h.frames.running f' (hframe f' hf')⟩
  · rw [List.forall_mem_cons]
    exact ⟨fun cb hcb hid => h.frames.toCall f hf cb hcb (List.mem_of_mem_eraseIdx hid),
      fun f' hf' => h.frames.toCall f' (hframe f' hf')⟩
  · rw [Machine.Owed, Machine.Owed, hstack, List.exists_mem_cons_iff, List.exists_mem_cons_iff]
    refine or_congr_left (and_congr_right fun hhit => exists_congr fun cb =>
      and_congr_right fun hcb => and_congr_right fun hhas => or_congr_left ?_)
    refine ⟨List.mem_of_mem_eraseIdx, fun hid => mem_eraseIdx_of_ne hid hi fun heq => ?_⟩
    have hmiss := h.not_detects (heq ▸ hi) hno hcb
    have hdetects : r.key.edgeType.detects f.value = true := (Bool.and_eq_true _ _ ▸ hhit).2
    rw [← hhas.1, hmiss] at hdetects
    cases hdetects

theorem call (h : Inv cfg m) {i : Nat} (hstack : m.stack = f :: rest) (hcurrent : f.current = none)
    (hi : f.toCall[i]? = some cb.id) (hcb : cb ∈ m.env.callbacks)
    (hdetects : cb.key.edgeType.detects f.value = true) (hnew : cb.id ∉ m.fired) :
    Inv cfg { m with
      stack := { f with
        toCall := f.toCall.eraseIdx i
        current := some (cb, cb.tasks) } :: rest
      fired := cb.id :: m.fired } := by
  set f' : Frame := { f with toCall := f.toCall.eraseIdx i, current := some (cb, cb.tasks) }
  set m' : Machine := { m with stack := f' :: rest, fired := cb.id :: m.fired }
  have hframe : ∀ f' ∈ rest, f' ∈ m.stack := fun f' hf' => hstack ▸ List.mem_cons_of_mem _ hf'
  have hf : f ∈ m.stack := hstack ▸ List.mem_cons_self
  have hhandle := h.frames.toCall f hf cb hcb (List.mem_of_getElem? hi)
  have hc : m'.current = (cb, cb.tasks) :: m.current := by
    rw [Machine.current_none hstack hcurrent]
    rfl
  have hnotin : ∀ left, (cb, left) ∉ m.current := fun left hmem =>
    hnew (h.frames.mem_current hmem).2.1
  have hlive : ∀ cb' ∈ m.env.callbacks, ∀ r, m'.Live cb' r ↔ m.Live cb' r := by
    intro cb' hcb' r
    refine and_congr_right fun hhas => ?_
    rw [hc]
    by_cases heq : cb' = cb
    · subst heq
      exact iff_of_true (.inr ⟨_, List.mem_cons_self, hhas.2⟩) (.inl hnew)
    · have hid : cb'.id ≠ cb.id := fun hid => heq (h.callbacks.eq_of_id hcb' hcb hid)
      simp [m', heq, hid]
  have hwoken : ∀ r, m'.Woken r ↔ m.Woken r := by
    intro r
    rw [Machine.Woken, hc, List.exists_mem_cons_iff]
    exact or_iff_right fun hwoken => hwoken.2 hwoken.1.2
  refine ⟨h.callbacks, ⟨?_, ?_, ?_⟩, ?_, ?_⟩
  · rw [List.forall_mem_cons]
    refine ⟨fun cb' left heq => ?_, fun f' hf' cb' left heq => ?_⟩
    · cases heq
      refine ⟨hcb, List.mem_cons_self, List.suffix_rfl, fun r hhas => ?_⟩
      simp [hits, Frame.change, ← hhas.1, hhandle, hdetects, f']
    · obtain ⟨hcb', hid, hrest⟩ := h.frames.running f' (hframe f' hf') cb' left heq
      exact ⟨hcb', List.mem_cons_of_mem _ hid, hrest⟩
  · rw [hc, List.map_cons, List.nodup_cons]
    refine ⟨fun hmem => ?_, h.frames.once⟩
    obtain ⟨⟨cb', left⟩, hc', hid⟩ := List.mem_map.mp hmem
    exact hnew (hid ▸ (h.frames.mem_current hc').2.1)
  · rw [List.forall_mem_cons]
    exact ⟨fun cb hcb hid => h.frames.toCall f hf cb hcb (List.mem_of_mem_eraseIdx hid),
      fun f' hf' => h.frames.toCall f' (hframe f' hf')⟩
  · refine ⟨h.regs.sound, h.regs.once, fun r => ?_, fun cb' hcb' hid => ?_, h.regs.queueNodup,
      fun r => ?_, fun hmerge r => ?_⟩
    · rw [show m'.log = m.log from rfl, h.regs.armed r]
      exact exists_congr fun cb' => and_congr_right fun hcb' => (hlive cb' hcb' r).symm
    · rw [hc]
      rcases List.mem_cons.mp hid with hid | hid
      · rw [h.callbacks.eq_of_id hcb' hcb hid]
        exact .inl ⟨_, List.mem_cons_self⟩
      · refine (h.regs.fired cb' hcb' hid).imp_left ?_
        rintro ⟨left, hmem⟩
        exact ⟨left, List.mem_cons_of_mem _ hmem⟩
    · rw [show m'.env = m.env from rfl, h.regs.queue r]
      refine and_congr_right fun hpending => not_congr (and_congr_right fun _ =>
        and_congr_right fun _ => exists_congr fun cb' => and_congr_right fun hcb' =>
        and_congr_right fun hhas => ?_)
      have hne : cb'.id ≠ cb.id := by
        intro hid
        have heq := h.callbacks.eq_of_id hcb' hcb hid
        subst heq
        exact h.regs.not_armed hpending ((h.regs.armed r).mpr ⟨_, hcb, hhas, .inl hnew⟩)
      simp [m', hne]
    · simp only [hwoken]
      exact h.regs.count hmerge r
  · refine ⟨h.due.nodup, fun r => ?_⟩
    have howed : m'.Owed r ↔ m.Owed r := by
      rw [Machine.Owed, Machine.Owed, hstack, List.exists_mem_cons_iff, List.exists_mem_cons_iff]
      refine or_congr_left (and_congr_right fun _ => exists_congr fun cb' =>
        and_congr_right fun hcb' => and_congr_right fun _ => ?_)
      simp only [hcurrent, reduceCtorEq, exists_false, or_false]
      constructor
      · rintro (hid | ⟨left, heq⟩)
        · exact List.mem_of_mem_eraseIdx hid
        · cases heq
          exact List.mem_of_getElem? hi
      · intro hid
        by_cases heq : cb' = cb
        · exact .inr ⟨cb.tasks, by rw [heq]⟩
        · exact .inl (mem_eraseIdx_of_ne hid hi fun hid =>
            heq (h.callbacks.eq_of_id hcb' hcb hid))
    rw [howed]
    exact h.due.mem r

theorem endEdge (h : Inv cfg m) (hstack : m.stack = f :: rest) (hcall : f.toCall = [])
    (hcurrent : f.current = none) : Inv cfg { m with stack := rest } := by
  have hframe : ∀ f' ∈ rest, f' ∈ m.stack := fun f' hf' => hstack ▸ List.mem_cons_of_mem _ hf'
  have hc : Machine.current { m with stack := rest } = m.current :=
    (Machine.current_none hstack hcurrent).symm
  refine h.of_frames hc ⟨?_, hc ▸ h.frames.once, ?_⟩ fun r => ?_
  · exact fun f' hf' => h.frames.running f' (hframe f' hf')
  · exact fun f' hf' => h.frames.toCall f' (hframe f' hf')
  · rw [Machine.Owed, Machine.Owed, hstack, List.exists_mem_cons_iff]
    refine (or_iff_right ?_).symm
    rintro ⟨_, cb, _, _, hpart⟩
    simp [hcall, hcurrent] at hpart

/-! ### The tasks of a callback -/

theorem wake {t : TaskID} (h : Inv cfg m) (hstack : m.stack = f :: rest)
    (hcurrent : f.current = some (cb, t :: left)) :
    Inv cfg { m with
      stack := { f with current := some (cb, left) } :: rest
      log := .wake ⟨cb.key, t⟩ :: m.log } := by
  set f' : Frame := { f with current := some (cb, left) }
  set r₀ : Reg := ⟨cb.key, t⟩
  set m' : Machine := { m with stack := f' :: rest, log := .wake r₀ :: m.log }
  have hframe : ∀ f' ∈ rest, f' ∈ m.stack := fun f' hf' => hstack ▸ List.mem_cons_of_mem _ hf'
  have hf : f ∈ m.stack := hstack ▸ List.mem_cons_self
  obtain ⟨hcb, hid, hsuffix, hhits⟩ := h.frames.running f hf cb _ hcurrent
  have hc := Machine.current_some hstack hcurrent
  have hc' : m'.current = (cb, left) :: rest.filterMap Frame.current := rfl
  have hmem : (cb, t :: left) ∈ m.current := hc ▸ List.mem_cons_self
  have hhas₀ : cb.has r₀ := ⟨rfl, hsuffix.subset List.mem_cons_self⟩
  have hr₀ : ∀ {r}, cb.has r → r.task = t → r = r₀ := by
    rintro ⟨key, t'⟩ ⟨hkey, -⟩ ht
    simp_all [r₀]
  have ht : t ∉ left :=
    (List.nodup_cons.mp ((h.callbacks.tasks_nodup hcb).sublist hsuffix.sublist)).1
  have hother : ∀ {cb' left'}, (cb', left') ∈ rest.filterMap Frame.current → ¬ cb'.has r₀ := by
    intro cb' left' hrest hhas
    have hmem' : (cb', left') ∈ m.current := hc ▸ List.mem_cons_of_mem _ hrest
    rw [h.callbacks.eq_of_has (h.frames.mem_current hmem').1 hcb hhas hhas₀] at hrest
    have honce := h.frames.once
    rw [hc, List.map_cons, List.nodup_cons] at honce
    exact honce.1 (List.mem_map_of_mem (f := fun c => c.1.id) hrest)
  have harmed₀ : r₀ ∈ (outstanding m.log).armed :=
    (h.regs.armed r₀).mpr ⟨cb, hcb, hhas₀, .inr ⟨_, hmem, List.mem_cons_self⟩⟩
  have hmemErase : ∀ r, r ∈ (outstanding m'.log).armed ↔ r ≠ r₀ ∧ r ∈ (outstanding m.log).armed :=
    fun r => (List.Nodup.of_append_right h.regs.all_nodup).mem_erase_iff
  have hlive : ∀ cb' ∈ m.env.callbacks, ∀ r, m'.Live cb' r ↔ r ≠ r₀ ∧ m.Live cb' r := by
    intro cb' hcb' r
    by_cases hr : r = r₀
    · subst hr
      simp only [ne_eq, not_true_eq_false, false_and, iff_false]
      rintro ⟨hhas, hlive⟩
      rw [h.callbacks.eq_of_has hcb' hcb hhas hhas₀] at hlive
      rcases hlive with hnew | ⟨left', hleft', ht'⟩
      · exact hnew hid
      · rcases List.mem_cons.mp hleft' with heq | hrest
        · cases heq
          exact ht ht'
        · exact hother hrest hhas₀
    · rw [and_iff_right hr]
      refine and_congr_right fun hhas => or_congr_right ?_
      rw [hc, hc']
      simp only [List.mem_cons, or_and_right, exists_or]
      refine or_congr_left ⟨?_, ?_⟩
      · rintro ⟨left', heq, hleft'⟩
        cases heq
        exact ⟨_, rfl, List.mem_cons_of_mem _ hleft'⟩
      · rintro ⟨left', heq, hleft'⟩
        cases heq
        refine ⟨_, rfl, (List.mem_cons.mp hleft').resolve_left fun ht' => hr (hr₀ hhas ht')⟩
  have hwoken : ∀ r, m'.Woken r ↔ r = r₀ ∨ m.Woken r := by
    intro r
    rw [Machine.Woken, Machine.Woken, hc, hc', List.exists_mem_cons_iff, List.exists_mem_cons_iff,
      ← or_assoc]
    refine or_congr_left ?_
    by_cases hr : r = r₀
    · subst hr
      exact iff_of_true ⟨hhas₀, ht⟩ (.inl rfl)
    · simp only [hr, false_or]
      refine and_congr_right fun hhas => not_congr ?_
      exact (List.mem_cons.trans (or_iff_right fun ht' => hr (hr₀ hhas ht'))).symm
  have hnotWoken : ¬ m.Woken r₀ := by
    rintro ⟨⟨cb', left'⟩, hmem', hhas, hleft'⟩
    rw [hc] at hmem'
    rcases List.mem_cons.mp hmem' with heq | hrest
    · cases heq
      exact hleft' List.mem_cons_self
    · exact hother hrest hhas
  have howed : ∀ r, m'.Owed r ↔ m.Owed r := by
    intro r
    rw [Machine.Owed, Machine.Owed, hstack, List.exists_mem_cons_iff, List.exists_mem_cons_iff]
    simp [f', Frame.change, hcurrent, m']
  refine ⟨h.callbacks, ⟨?_, ?_, ?_⟩, ?_, ?_⟩
  · rw [List.forall_mem_cons]
    refine ⟨fun cb' left' heq => ?_, fun f' hf' => h.frames.running f' (hframe f' hf')⟩
    cases heq
    exact ⟨hcb, hid, (List.suffix_cons _ _).trans hsuffix, hhits⟩
  · have honce := h.frames.once
    rw [hc] at honce
    exact honce
  · rw [List.forall_mem_cons]
    exact ⟨h.frames.toCall f hf, fun f' hf' => h.frames.toCall f' (hframe f' hf')⟩
  · refine ⟨⟨harmed₀, h.regs.sound⟩, ?_, fun r => ?_, fun cb' hcb' hid' => ?_, h.regs.queueNodup,
      h.regs.queue, fun hmerge r => ?_⟩
    · refine h.regs.once.sublist (List.Sublist.map _ ?_)
      exact (List.erase_sublist ..).append_left _
    · rw [hmemErase, h.regs.armed r, ← exists_and_left]
      refine exists_congr fun cb' => ?_
      rw [and_left_comm]
      exact and_congr_right fun hcb' => (hlive cb' hcb' r).symm
    · refine (h.regs.fired cb' hcb' hid').imp_left ?_
      rintro ⟨left', hmem'⟩
      rw [hc] at hmem'
      rcases List.mem_cons.mp hmem' with heq | hrest
      · cases heq
        exact ⟨left, List.mem_cons_self⟩
      · exact ⟨left', List.mem_cons_of_mem _ hrest⟩
    · have hcount := h.regs.count hmerge r
      have hmemAll : r ∈ (outstanding m'.log).all ↔ r ≠ r₀ ∧ r ∈ (outstanding m.log).all := by
        rw [OneShot.Regs.all, List.mem_append, hmemErase, OneShot.Regs.all, List.mem_append,
          and_or_left]
        refine or_congr_left (iff_and_self.mpr fun hpending heq => ?_)
        exact h.regs.not_armed (heq ▸ hpending) harmed₀
      simp only [hwoken, hmemAll]
      by_cases hr : r = r₀
      · subst hr
        have hall : r₀ ∈ (outstanding m.log).all := List.mem_append_right _ harmed₀
        simpa [hall, hnotWoken] using hcount
      · simpa [hr] using hcount
  · refine ⟨h.due.nodup, fun r => ?_⟩
    have howed₀ : m.Owed r₀ :=
      ⟨f, hf, hhits r₀ hhas₀, cb, hcb, hhas₀, .inr ⟨_, hcurrent⟩⟩
    rw [howed, hmemErase, and_assoc]
    refine (h.due.mem r).trans (iff_and_self.mpr ?_)
    rintro ⟨-, hnot⟩ rfl
    exact hnot howed₀

/-! ### The end of a callback -/

theorem finish (h : Inv cfg m) (hstack : m.stack = f :: rest)
    (hcurrent : f.current = some (cb, [])) :
    ∃ env, m.env.finish cfg cb = some env ∧
      Inv cfg { m with env := env, stack := { f with current := none } :: rest } := by
  have hframe : ∀ f' ∈ rest, f' ∈ m.stack := fun f' hf' => hstack ▸ List.mem_cons_of_mem _ hf'
  have hf : f ∈ m.stack := hstack ▸ List.mem_cons_self
  obtain ⟨hcb, hid, -, -⟩ := h.frames.running f hf cb _ hcurrent
  have hc := Machine.current_some hstack hcurrent
  have hmem : (cb, []) ∈ m.current := hc ▸ List.mem_cons_self
  have hwoken₀ : ∀ r, cb.has r → m.Woken r := fun r hhas => ⟨_, hmem, hhas, List.not_mem_nil⟩
  have hcounted : cfg.mergeCb = true → ∀ r, cb.has r → (m.env.cbCount r).getD 0 =
      (if r ∈ (outstanding m.log).all then 1 else 0) + 1 := by
    intro hmerge r hhas
    rw [h.regs.count hmerge r, if_pos (hwoken₀ r hhas)]
  obtain ⟨env, henv, hfinish⟩ := Finish.of_finish (h.callbacks.tasks_nodup hcb)
    (h.callbacks.tasks cb hcb).2 fun hmerge r hhas => by rw [hcounted hmerge r hhas]; omega
  have hend := Ended.of_finish h.callbacks hcb hfinish
  refine ⟨env, henv, ?_⟩
  set m' : Machine := { m with env := env, stack := { f with current := none } :: rest }
  have hc' : m'.current = rest.filterMap Frame.current := rfl
  have hne : ∀ {cb' left'}, (cb', left') ∈ m'.current → cb' ≠ cb := by
    rintro cb' left' hrest rfl
    have honce := h.frames.once
    rw [hc, List.map_cons, List.nodup_cons] at honce
    exact honce.1 (List.mem_map_of_mem (f := fun c => c.1.id) hrest)
  have hsub : ∀ {c}, c ∈ m'.current → c ∈ m.current := fun hrest =>
    hc ▸ List.mem_cons_of_mem _ hrest
  have hstill : ∀ {cb' left'}, (cb', left') ∈ m.current → cb' ≠ cb → (cb', left') ∈ m'.current := by
    intro cb' left' hmem' hne'
    rw [hc] at hmem'
    rcases List.mem_cons.mp hmem' with heq | hrest
    · cases heq
      exact absurd rfl hne'
    · exact hrest
  have hlive : ∀ cb' r, m'.Live cb' r ↔ m.Live cb' r := by
    intro cb' r
    refine and_congr_right fun _ => or_congr_right (exists_congr fun left' => ?_)
    refine and_congr_left fun hleft' => ⟨hsub, fun hmem' => hstill hmem' ?_⟩
    rintro rfl
    rw [h.frames.left_unique hmem' hmem] at hleft'
    cases hleft'
  have hliveNe : ∀ {cb' r}, m.Live cb' r → cb' ≠ cb := by
    rintro cb' r hl rfl
    exact h.not_live hmem hl
  have hnotArmed : ∀ r, cb.has r → r ∉ (outstanding m.log).armed := fun r hhas harmed =>
    h.not_live hmem (h.live_of_armed harmed hcb hhas)
  have hwoken : ∀ r, m'.Woken r ↔ m.Woken r ∧ ¬ cb.has r := by
    intro r
    constructor
    · rintro ⟨⟨cb', left'⟩, hmem', hhas, hleft'⟩
      refine ⟨⟨_, hsub hmem', hhas, hleft'⟩, fun hhas' => hne hmem' ?_⟩
      exact h.callbacks.eq_of_has (h.frames.mem_current (hsub hmem')).1 hcb hhas hhas'
    · rintro ⟨⟨⟨cb', left'⟩, hmem', hhas, hleft'⟩, hno⟩
      refine ⟨_, hstill hmem' ?_, hhas, hleft'⟩
      rintro rfl
      exact hno hhas
  refine ⟨hend.callbacks, ⟨?_, ?_, ?_⟩, ?_, ?_⟩
  · rw [List.forall_mem_cons]
    refine ⟨fun _ _ heq => (nomatch heq), fun f' hf' cb' left' heq => ?_⟩
    obtain ⟨hcb', hrest⟩ := h.frames.running f' (hframe f' hf') cb' left' heq
    have hmem' : (cb', left') ∈ m'.current :=
      List.mem_filterMap.mpr ⟨f', List.mem_cons_of_mem _ hf', heq⟩
    exact ⟨(hend.other cb' hcb' (hne hmem')).1, hrest⟩
  · have honce := h.frames.once
    rw [hc, List.map_cons, List.nodup_cons] at honce
    exact honce.2
  · rw [List.forall_mem_cons]
    exact ⟨fun cb' hcb' => h.frames.toCall f hf cb' (hend.sub cb' hcb'),
      fun f' hf' cb' hcb' => h.frames.toCall f' (hframe f' hf') cb' (hend.sub cb' hcb')⟩
  · refine ⟨h.regs.sound, h.regs.once, fun r => ?_, fun cb' hcb' hid' => ?_, ?_, fun r => ?_,
      fun hmerge r => ?_⟩
    · rw [show m'.log = m.log from rfl, h.regs.armed r]
      constructor
      · rintro ⟨cb', hcb', hl⟩
        exact ⟨cb', (hend.other cb' hcb' (hliveNe hl)).1, (hlive cb' r).mpr hl⟩
      · rintro ⟨cb', hcb', hl⟩
        exact ⟨cb', hend.sub cb' hcb', (hlive cb' r).mp hl⟩
    · by_cases heq : cb' = cb
      · subst heq
        obtain ⟨hmerge, hmore, hchunk⟩ := hend.stays hcb'
        refine .inr ⟨hmerge, fun r hhas => ?_, hchunk⟩
        have hcount := hcounted hmerge r hhas
        have hall : r ∈ (outstanding m.log).all := by
          by_contra hno
          rw [if_neg hno] at hcount
          exact hmore r hhas hcount
        exact (List.mem_append.mp hall).resolve_right (hnotArmed r hhas)
      · have hcb'' := hend.sub cb' hcb'
        refine (h.regs.fired cb' hcb'' hid').imp ?_ ?_
        · exact fun ⟨left', hmem'⟩ => ⟨left', hstill hmem' heq⟩
        · exact fun ⟨hmerge, hregs, hchunk⟩ =>
            ⟨hmerge, hregs, fun hc => (hend.other cb' hcb'' heq).2 (hchunk hc)⟩
    · rw [show m'.env.pendingCbMap = _ from hend.queue]
      exact h.regs.queueNodup
    · rw [show m'.env.pendingCbMap = _ from hend.queue, h.regs.queue r]
      refine and_congr_right fun hpending => not_congr (and_congr_right fun hmerge =>
        and_congr_right fun hchunk => ?_)
      constructor
      · rintro ⟨cb', hcb', hhas, hid'⟩
        refine ⟨cb', ?_, hhas, hid'⟩
        by_contra hgone
        have heq : cb' = cb := by
          by_contra hne'
          exact hgone (hend.other cb' hcb' hne').1
        subst heq
        obtain ⟨t, ht⟩ := (h.callbacks.tasks cb' hcb).2 hchunk
        obtain ⟨r', hhas', hlast⟩ := hend.leaves hgone hmerge
        have hr : r' = r := by
          obtain ⟨hkey, hmem⟩ := hhas
          obtain ⟨hkey', hmem'⟩ := hhas'
          rw [ht, List.mem_singleton] at hmem hmem'
          cases r; cases r'
          simp_all
        have hall : r ∈ (outstanding m.log).all := List.mem_append_left _ hpending
        rw [hr, hcounted hmerge r hhas, if_pos hall] at hlast
        omega
      · rintro ⟨cb', hcb', hpart⟩
        exact ⟨cb', hend.sub cb' hcb', hpart⟩
    · rw [hend.count hmerge r, h.regs.count hmerge r]
      simp only [hwoken r, show m'.log = m.log from rfl]
      by_cases hhas : cb.has r
      · simp [hhas, hwoken₀ r hhas]
      · simp [hhas]
  · refine ⟨h.due.nodup, fun r => ?_⟩
    rw [show m'.log = m.log from rfl, h.due.mem r]
    refine and_congr_right fun harmed => not_congr ?_
    have hother : ∀ cb', cb'.has r → (cb' ∈ m'.env.callbacks ↔ cb' ∈ m.env.callbacks) := by
      intro cb' hhas
      refine ⟨hend.sub cb', fun hcb' => (hend.other cb' hcb' ?_).1⟩
      exact hliveNe (h.live_of_armed harmed hcb' hhas)
    rw [Machine.Owed, Machine.Owed, hstack, List.exists_mem_cons_iff, List.exists_mem_cons_iff]
    refine or_congr (and_congr_right fun _ => ?_) (exists_congr fun f' => and_congr_right fun _ =>
      and_congr_right fun _ => ?_)
    · constructor
      · rintro ⟨cb', hcb', hhas, hcall | ⟨_, heq⟩⟩
        · exact ⟨cb', (hother cb' hhas).mpr hcb', hhas, .inl hcall⟩
        · rw [hcurrent] at heq
          cases heq
          exact absurd harmed (hnotArmed r hhas)
      · rintro ⟨cb', hcb', hhas, hcall | ⟨_, heq⟩⟩
        · exact ⟨cb', (hother cb' hhas).mp hcb', hhas, .inl hcall⟩
        · cases heq
    · constructor
      · rintro ⟨cb', hcb', hhas, hpart⟩
        exact ⟨cb', (hother cb' hhas).mpr hcb', hhas, hpart⟩
      · rintro ⟨cb', hcb', hhas, hpart⟩
        exact ⟨cb', (hother cb' hhas).mp hcb', hhas, hpart⟩

/-! ### The next simulation time -/

lemma kept_of_spent (h : Inv cfg m) (hstack : m.stack = []) (hcb : cb ∈ m.env.callbacks)
    (hid : cb.id ∈ m.fired) : cfg.mergeCb = true ∧
      (∀ r, cb.has r → r ∈ (outstanding m.log).pending) ∧
      (cfg.chunkTask = true → cb ∈ m.env.pendingCbChunk) := by
  refine (h.regs.fired cb hcb hid).resolve_left ?_
  rintro ⟨left, hmem⟩
  simp [Machine.current, hstack] at hmem

lemma mem_unserved (h : Inv cfg m) (hstack : m.stack = []) {order : List Callback}
    (horder : order.Perm m.env.pendingCbChunk) :
    r ∈ m.env.unserved cfg order ↔ r ∈ (outstanding m.log).pending ∧ ¬ m.Spent r := by
  have hqueue := h.regs.queue r
  cases hmerge : cfg.mergeCb with
  | false =>
    have hno : ¬ m.Spent r := fun ⟨cb, hcb, _, hid⟩ => by
      simpa [hmerge] using (h.kept_of_spent hstack hcb hid).1
    simpa [Env.unserved, hmerge, hno] using hqueue
  | true =>
    cases hchunk : cfg.chunkTask with
    | false => simpa [Env.unserved, hmerge, hchunk] using hqueue
    | true =>
      have hmap : ∀ r, r ∈ m.env.pendingCbMap ↔ r ∈ (outstanding m.log).pending := fun r => by
        simpa [hchunk] using h.regs.queue r
      have hmem : ∀ cb ∈ order, cb ∈ m.env.callbacks := fun cb hcb =>
        h.callbacks.kept cb (horder.subset hcb)
      have hapart : order.Pairwise Apart :=
        (horder.nodup_iff.mpr h.callbacks.keptNodup).pairwise_of_forall_ne fun cb hcb cb' hcb' =>
          h.callbacks.apart_of_ne (hmem cb hcb) (hmem cb' hcb')
      rw [Env.unserved, hmerge, hchunk]
      refine (mem_foldl_processCbChunk hapart).trans (and_congr (hmap r) ?_)
      constructor
      · rintro hserves ⟨cb, hcb, hhas, hid⟩
        obtain ⟨-, hregs, hkept⟩ := h.kept_of_spent hstack hcb hid
        refine hserves cb (horder.symm.subset (hkept hchunk)) (fun r' hr' => ?_) hhas
        exact (hmap r').mpr (hregs r' hr')
      · rintro hno cb hcb hserves hhas
        refine hno ⟨cb, hmem cb hcb, hhas, ?_⟩
        by_contra hid
        refine h.regs.not_armed ((hmap r).mp (hserves r hhas)) ?_
        exact (h.regs.armed r).mpr ⟨cb, hmem cb hcb, hhas, .inl hid⟩

theorem nextSimTime (h : Inv cfg m) {order : List Callback} {ids : List EdgeCallbackID} {env : Env}
    (hstack : m.stack = []) (henv : m.env.nextSimTime cfg order ids = some env) :
    Inv cfg { m with env := env, fired := [], log := .arm :: m.log } := by
  obtain ⟨new, rfl, horder, hids, hperm, htasks⟩ := nextSimTime_eq_some h.regs.queueNodup henv
  have hnew : ∀ r, (∃ cb ∈ new, cb.has r) ↔ r ∈ (outstanding m.log).pending ∧ ¬ m.Spent r := by
    intro r
    rw [← h.mem_unserved hstack horder, ← hperm.mem_iff, List.mem_flatMap]
    simp only [Callback.mem_regs]
  have hold : ∀ cb ∈ m.env.callbacks, ∀ r, cb.has r →
      cb.id ∉ m.fired ∧ r ∈ (outstanding m.log).armed ∨
        m.Spent r ∧ r ∈ (outstanding m.log).pending := by
    intro cb hcb r hhas
    by_cases hid : cb.id ∈ m.fired
    · exact .inr ⟨⟨cb, hcb, hhas, hid⟩, (h.kept_of_spent hstack hcb hid).2.1 r hhas⟩
    · exact .inl ⟨hid, (h.regs.armed r).mpr ⟨cb, hcb, hhas, .inl hid⟩⟩
  have hall : ∀ r, r ∈ (outstanding m.log).all ↔ ∃ cb ∈ m.env.callbacks ++ new, cb.has r := by
    intro r
    simp only [List.mem_append, or_and_right, exists_or]
    rw [hnew r, OneShot.Regs.all, List.mem_append]
    constructor
    · rintro (hpending | harmed)
      · by_cases hspent : m.Spent r
        · obtain ⟨cb, hcb, hhas, -⟩ := hspent
          exact .inl ⟨cb, hcb, hhas⟩
        · exact .inr ⟨hpending, hspent⟩
      · obtain ⟨cb, hcb, hhas, -⟩ := (h.regs.armed r).mp harmed
        exact .inl ⟨cb, hcb, hhas⟩
    · rintro (⟨cb, hcb, hhas⟩ | ⟨hpending, -⟩)
      · exact (hold cb hcb r hhas).symm.imp And.right And.right
      · exact .inl hpending
  have hapart : ((m.env.callbacks ++ new).flatMap Callback.regs).Nodup := by
    rw [List.flatMap_append]
    refine h.callbacks.apart.append ?_ ?_
    · exact hperm.nodup_iff.mpr (nodup_unserved cfg h.regs.queueNodup order)
    · intro r hr hr'
      simp only [List.mem_flatMap, Callback.mem_regs] at hr hr'
      obtain ⟨cb, hcb, hhas⟩ := hr
      obtain ⟨hpending, hspent⟩ := (hnew r).mp hr'
      rcases hold cb hcb r hhas with ⟨-, harmed⟩ | ⟨hspent', -⟩
      · exact h.regs.not_armed hpending harmed
      · exact hspent hspent'
  have hnotOwed : ∀ r, ¬ m.Owed r := by
    rintro r ⟨f, hf, _⟩
    simp [hstack] at hf
  have hmemAll : ∀ r, r ∈ (outstanding (.arm :: m.log)).all ↔ r ∈ (outstanding m.log).all :=
    fun r => Iff.rfl
  refine ⟨⟨hids, hapart, ?_, fun cb hcb => ?_, h.callbacks.keptNodup, h.callbacks.keptChunk⟩,
    ⟨?_, ?_, ?_⟩, ?_, ?_⟩
  · intro cb hcb
    rcases List.mem_append.mp hcb with hcb | hcb
    · exact h.callbacks.tasks cb hcb
    · exact htasks cb hcb
  · exact List.mem_append_left _ (h.callbacks.kept cb hcb)
  · simp [hstack]
  · simp [Machine.current, hstack]
  · simp [hstack]
  · refine ⟨h.regs.sound, h.regs.once, fun r => ?_, fun _ _ hid => (by cases hid), List.nodup_nil,
      fun r => iff_of_false List.not_mem_nil fun hr => List.not_mem_nil hr.1, fun hmerge r => ?_⟩
    · refine (hall r).trans (exists_congr fun cb => and_congr_right fun _ => ?_)
      exact (and_iff_left (.inl List.not_mem_nil)).symm
    · have hcount := h.regs.count hmerge r
      simpa only [hmemAll, Machine.woken_congr (show Machine.current { m with
        env := { m.env with callbacks := m.env.callbacks ++ new, pendingCbMap := [] }
        fired := []
        log := .arm :: m.log } = m.current from rfl)] using hcount
  · have hpending := OneShot.outstanding_pending hits m.log
    have hmem : ∀ r, r ∈ (OneShot.due hits m.log).armed ↔ r ∈ (outstanding m.log).armed :=
      fun r => (h.due.mem r).trans (and_iff_left (hnotOwed r))
    refine ⟨?_, fun r => ?_⟩
    · have hnodup := h.regs.all_nodup
      rw [OneShot.due, ← hpending]
      refine (List.Nodup.of_append_left hnodup).append h.due.nodup fun r hr hr' => ?_
      exact h.regs.not_armed hr ((hmem r).mp hr')
    · rw [OneShot.due, outstanding, ← hpending, List.mem_append, List.mem_append, hmem r]
      refine (and_iff_left ?_).symm
      rintro ⟨f, hf, _⟩
      simp [hstack] at hf

/-! ### Runs -/

lemma not_mem_of_registersOnce (h : Inv cfg m) (hok : m.registersOnce (.register r) = true) :
    r.task ∉ (outstanding m.log).all.map Reg.task := by
  have hcount := (h.regs.sound.registers_perm.map Reg.task).count_eq r.task
  rw [List.map_append, List.count_append] at hcount
  have hle : ((OneShot.registers m.log).map Reg.task).count r.task ≤
      ((OneShot.wakes m.log).map Reg.task).count r.task := by
    simpa [Machine.registersOnce] using hok
  refine List.count_eq_zero.mp ?_
  omega

theorem step (h : Inv cfg m) (hregisters : m.registersOnce a = true) (hcalls : m.callsOnce a = true)
    (hr : Rule cfg m a m') (hf : m.fault = none) : Inv cfg m' ∧ m'.fault = none := by
  cases hr with
  | register r => exact ⟨h.register (h.not_mem_of_registersOnce hregisters), hf⟩
  | edge handle value => exact ⟨h.edge handle value, hf⟩
  | skip i f rest id hstack hcurrent hi hno => exact ⟨h.skip hstack hcurrent hi hno, hf⟩
  | call i f rest cb hstack hcurrent hmatch hi hcb hdetects =>
    refine ⟨h.call hstack hcurrent hi hcb hdetects ?_, hf⟩
    simpa [Machine.callsOnce, hstack, hmatch] using hcalls
  | wake f rest cb t left hstack hcurrent => exact ⟨h.wake hstack hcurrent, hf⟩
  | finish f rest cb env hstack hcurrent henv =>
    obtain ⟨env', henv', hinv⟩ := h.finish hstack hcurrent
    rw [henv] at henv'
    cases henv'
    exact ⟨hinv, hf⟩
  | fail f rest cb hstack hcurrent henv =>
    obtain ⟨env', henv', -⟩ := h.finish hstack hcurrent
    rw [henv] at henv'
    cases henv'
  | endEdge f rest hstack hcall hcurrent => exact ⟨h.endEdge hstack hcall hcurrent, hf⟩
  | nextSimTime order ids env hstack henv => exact ⟨h.nextSimTime hstack henv, hf⟩

end Inv

end Verilua.Edge
