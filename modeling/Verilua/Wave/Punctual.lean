import Verilua.Wave.Delay

/-!
# Delay callbacks on course

A callback is on course if the next walk that meets it, or a later one, is the first at its time.
Registration and jumps of the cursor can break that; the steps of the loop keep it.
-/

namespace Verilua.Wave

open TransitionSystem

variable {table : TimeTable} {backend : Backend} {s s' : Loop} {e : Delay} {id due idx n : Nat}

namespace TimeTable

lemma maxIndex_lt : table.maxIndex < table.times.length :=
  Nat.sub_lt (List.length_pos_iff.mpr table.ne_nil) Nat.one_pos

lemma time_eq (h : idx < table.times.length) : table.time idx = table.times[idx] := by
  rw [time, List.getD_eq_getElem?_getD, List.getElem?_eq_getElem h, Option.getD_some]

lemma time_lt_time {i j : Nat} (hij : i < j) (hj : j ≤ table.maxIndex) :
    table.time i < table.time j := by
  have hlen := table.maxIndex_lt
  rw [time_eq (by omega), time_eq (by omega)]
  exact List.pairwise_iff_getElem.mp table.sorted i j (by omega) (by omega) hij

lemma maxTime_lt : table.maxTime < 2 ^ 64 := by
  rw [maxTime, time_eq table.maxIndex_lt]
  exact table.lt_size _ (List.getElem_mem _)

/-- An index has come to a time if and only if it is the lower bound or behind it. -/
lemma lowerBound_le_iff (h : idx ≤ table.maxIndex) :
    table.lowerBound n ≤ idx ↔ n ≤ table.time idx := by
  have hlen := table.maxIndex_lt
  constructor
  · intro hle
    have hlt : table.lowerBound n < table.times.length := by omega
    have hfound : n ≤ table.times[table.lowerBound n] := of_decide_eq_true
      (List.findIdx_getElem (p := fun t => decide (n ≤ t)) (w := hlt))
    rcases hle.lt_or_eq with hlt' | heq
    · have htime := time_lt_time hlt' h
      rw [time_eq hlt] at htime
      omega
    · rw [← heq, time_eq hlt]
      exact hfound
  · intro hle
    by_contra hlt
    have hnot := List.not_of_lt_findIdx (p := fun t => decide (n ≤ t)) (Nat.lt_of_not_le hlt)
    rw [time_eq (by omega)] at hle
    simp [hle] at hnot

end TimeTable

/-! ### The condition -/

namespace Loop

/-- The index of the next walk that meets a callback of the queue. -/
def nextQueued (s : Loop) : Nat :=
  match s.phase with
  | .starting => s.cursor
  | .values => s.cursor + 2
  | _ => s.cursor + 1

/-- The index of the next walk that meets the key in the map. -/
def nextMapped (s : Loop) (key : Nat) : Nat :=
  match s.phase with
  | .walk left _ => if key ∈ left then s.cursor else s.cursor + 1
  | .values => s.cursor + 1
  | _ => s.cursor

def calls (s : Loop) : List Delay :=
  match s.phase with
  | .walk _ calls => calls
  | _ => []

/-- From the walk at `next` on, the callback fires when the cursor first comes to its time, which is
before the last index. -/
def OnCourse (table : TimeTable) (next : Nat) (e : Delay) : Prop :=
  e.due ≤ table.maxTime →
    max e.targetIndex next = table.lowerBound e.due ∧ table.lowerBound e.due < table.maxIndex

instance (next : Nat) (e : Delay) : Decidable (OnCourse table next e) :=
  inferInstanceAs (Decidable (_ → _))

/-- The callback is not yet due. -/
def Ahead (table : TimeTable) (s : Loop) (e : Delay) : Prop :=
  e.due ≤ table.maxTime → s.cursor < table.lowerBound e.due

instance (e : Delay) : Decidable (s.Ahead table e) := inferInstanceAs (Decidable (_ → _))

/-- No callback is due where the cursor is set from, and all are on course where it is set to. -/
def mayJump (table : TimeTable) (s : Loop) (idx : Nat) : Bool :=
  let s' := s.setCursor idx
  decide (idx = s.cursor) ||
    ((s.calls ++ s.timeCbMap ++ s.willAppendTimeCbQueue).all (fun e => decide (s.Ahead table e)) &&
      s.timeCbMap.all (fun e => decide (OnCourse table (s'.nextMapped e.targetIndex) e)) &&
      s.willAppendTimeCbQueue.all (fun e => decide (OnCourse table s'.nextQueued e)))

/-- Callbacks are registered on course, and the cursor is set where they stay so. -/
def keepsCourse (table : TimeTable) (backend : Backend) (s : Loop) : Act → Bool
  | .register delay =>
    let due := table.time s.cursor + delay.toNat
    decide (OnCourse table s.nextQueued ⟨s.nextId, table.findNearestTimeIndex due backend, due⟩)
  | .setCursor idx => s.mayJump table idx
  | _ => true

/-! ### The invariant -/

/-- What has been registered and is still to fire. -/
def pending (s : Loop) : List Delay := s.calls ++ s.timeCbMap ++ s.willAppendTimeCbQueue

/-- The loop has tested the cursor. -/
def inLoop (s : Loop) : Prop :=
  match s.phase with
  | .walk _ _ | .values => True
  | _ => False

/-- Each number stands for one callback. -/
structure Issued (log : List DelayEv) (nextId : Nat) : Prop where
  fresh : ∀ id due, .registered id due ∈ log → id < nextId
  fired : ∀ id i, .fired id i ∈ log → id < nextId
  unique : ∀ id due due', .registered id due ∈ log → .registered id due' ∈ log → due = due'

structure Inv (table : TimeTable) (s : Loop) : Prop where
  cursor : s.cursor ≤ table.maxIndex
  cursor_lt : s.inLoop → s.cursor < table.maxIndex
  nodup : (s.pending.map Delay.id).Nodup
  known : ∀ e ∈ s.pending, .registered e.id e.due ∈ s.log ∧ ∀ i, .fired e.id i ∉ s.log
  issued : Issued s.log s.nextId
  outstanding : ∀ id due, .registered id due ∈ s.log → due ≤ table.maxTime →
    (∃ i, .fired id i ∈ s.log) ∨ ∃ e ∈ s.pending, e.id = id ∧ e.due = due
  called : ∀ e ∈ s.calls, e.due ≤ table.maxTime → s.cursor = table.lowerBound e.due
  mapped : ∀ e ∈ s.timeCbMap, OnCourse table (s.nextMapped e.targetIndex) e
  queued : ∀ e ∈ s.willAppendTimeCbQueue, OnCourse table s.nextQueued e
  punctual : Punctual table s.log

lemma Issued.register {log : List DelayEv} (h : Issued log n) :
    Issued (.registered n due :: log) (n + 1) where
  fresh := by
    intro id due' hr
    rw [List.mem_cons, DelayEv.registered.injEq] at hr
    rcases hr with ⟨rfl, -⟩ | hr
    · exact Nat.lt_succ_self _
    · exact (h.fresh id due' hr).trans (Nat.lt_succ_self _)
  fired := fun id i hi => (h.fired id i (by simpa using hi)).trans (Nat.lt_succ_self _)
  unique := by
    intro id due₁ due₂ hr hr'
    rw [List.mem_cons, DelayEv.registered.injEq] at hr hr'
    rcases hr with ⟨rfl, rfl⟩ | hr <;> rcases hr' with ⟨heq, rfl⟩ | hr'
    · rfl
    · exact absurd (h.fresh _ _ hr') (lt_irrefl _)
    · exact absurd (heq ▸ h.fresh _ _ hr) (lt_irrefl _)
    · exact h.unique id due₁ due₂ hr hr'

lemma Inv.init : Inv table init where
  cursor := Nat.zero_le _
  cursor_lt := False.elim
  nodup := List.nodup_nil
  known := by simp [pending, calls, Loop.init]
  issued := ⟨by simp [Loop.init], by simp [Loop.init], by simp [Loop.init]⟩
  outstanding := by simp [Loop.init]
  called := by simp [calls, Loop.init]
  mapped := by simp [Loop.init]
  queued := by simp [Loop.init]
  punctual := trivial

lemma OnCourse.ahead (h : OnCourse table n e) (hn : s.cursor < n) : s.Ahead table e := by
  intro hdue
  have hcourse := (h hdue).1
  omega

lemma Inv.punctual_left (h : Inv table s) (hahead : ∀ e ∈ s.pending, s.Ahead table e) :
    Punctual table (.left s.cursor :: s.log) := by
  refine ⟨fun id due hreg hdue htime => ?_, h.punctual⟩
  rcases h.outstanding id due hreg hdue with hfired | ⟨e, he, -, rfl⟩
  · exact hfired
  · have hlt := hahead e he hdue
    have hle := (TimeTable.lowerBound_le_iff h.cursor).mpr htime
    omega

lemma Inv.moves (h : Inv table s) (hperm : List.Perm s'.pending s.pending)
    (hlog : s'.log = s.log ∨
      s'.log = .left s.cursor :: s.log ∧ ∀ e ∈ s.pending, s.Ahead table e)
    (hnext : s'.nextId = s.nextId) (hcursor : s'.cursor ≤ table.maxIndex)
    (hlt : s'.inLoop → s'.cursor < table.maxIndex)
    (hcalled : ∀ e ∈ s'.calls, e.due ≤ table.maxTime → s'.cursor = table.lowerBound e.due)
    (hmapped : ∀ e ∈ s'.timeCbMap, OnCourse table (s'.nextMapped e.targetIndex) e)
    (hqueued : ∀ e ∈ s'.willAppendTimeCbQueue, OnCourse table s'.nextQueued e) :
    Inv table s' := by
  have hreg : ∀ id due, .registered id due ∈ s'.log ↔ .registered id due ∈ s.log := by
    intro id due
    rcases hlog with hlog | ⟨hlog, -⟩ <;> simp [hlog]
  have hfired : ∀ id i, .fired id i ∈ s'.log ↔ .fired id i ∈ s.log := by
    intro id i
    rcases hlog with hlog | ⟨hlog, -⟩ <;> simp [hlog]
  refine ⟨hcursor, hlt, (hperm.map _).nodup_iff.mpr h.nodup, fun e he => ?_, ⟨fun id due hr => ?_,
    fun id i hf => ?_, fun id due due' hr hr' => ?_⟩, fun id due hr hdue => ?_, hcalled, hmapped,
    hqueued, ?_⟩
  · obtain ⟨hr, hf⟩ := h.known e (hperm.mem_iff.mp he)
    exact ⟨(hreg _ _).mpr hr, fun i hi => hf i ((hfired _ _).mp hi)⟩
  · exact hnext ▸ h.issued.fresh id due ((hreg _ _).mp hr)
  · exact hnext ▸ h.issued.fired id i ((hfired _ _).mp hf)
  · exact h.issued.unique id due due' ((hreg _ _).mp hr) ((hreg _ _).mp hr')
  · rcases h.outstanding id due ((hreg _ _).mp hr) hdue with ⟨i, hi⟩ | ⟨e, he, heq⟩
    · exact .inl ⟨i, (hfired _ _).mpr hi⟩
    · exact .inr ⟨e, hperm.mem_iff.mpr he, heq⟩
  · rcases hlog with hlog | ⟨hlog, hahead⟩
    · exact hlog ▸ h.punctual
    · exact hlog ▸ h.punctual_left hahead

/-! ### What callbacks do -/

lemma Inv.known_registered (h : Inv table s) (he : e ∈ s.pending) :
    .registered e.id e.due ∈ DelayEv.registered s.nextId due :: s.log ∧
      ∀ i, .fired e.id i ∉ DelayEv.registered s.nextId due :: s.log :=
  ⟨List.mem_cons_of_mem _ (h.known e he).1, fun i hi => (h.known e he).2 i (by simpa using hi)⟩

lemma Inv.drops (h : Inv table s) (hdue : table.maxTime < due) :
    Inv table { s with nextId := s.nextId + 1, log := .registered s.nextId due :: s.log } := by
  refine ⟨h.cursor, h.cursor_lt, h.nodup, fun e he => h.known_registered he, h.issued.register,
    fun id due' hr hle => ?_, h.called, h.mapped, h.queued, h.punctual⟩
  rw [List.mem_cons, DelayEv.registered.injEq] at hr
  rcases hr with ⟨rfl, rfl⟩ | hr
  · omega
  · exact (h.outstanding id due' hr hle).imp_left fun ⟨i, hi⟩ => ⟨i, List.mem_cons_of_mem _ hi⟩

lemma Inv.queues (h : Inv table s) (hid : e.id = s.nextId) (he : OnCourse table s.nextQueued e) :
    Inv table { s with
      nextId := s.nextId + 1
      log := .registered s.nextId e.due :: s.log
      willAppendTimeCbQueue := s.willAppendTimeCbQueue ++ [e] } := by
  set s' : Loop := { s with
    nextId := s.nextId + 1
    log := .registered s.nextId e.due :: s.log
    willAppendTimeCbQueue := s.willAppendTimeCbQueue ++ [e] } with hs'
  have hpending : s'.pending = s.pending ++ [e] := (List.append_assoc _ _ _).symm
  refine ⟨h.cursor, h.cursor_lt, ?_, fun e' he' => ?_, h.issued.register, fun id due hr hle => ?_,
    h.called, h.mapped, fun e' he' => ?_, h.punctual⟩
  · rw [hpending, List.map_append, List.nodup_append]
    refine ⟨h.nodup, List.nodup_singleton _, fun id hmem id' hmem' heq => ?_⟩
    obtain ⟨e', he', rfl⟩ := List.mem_map.mp hmem
    rw [List.map_singleton, List.mem_singleton, hid] at hmem'
    exact absurd (h.issued.fresh _ _ (h.known e' he').1) (by omega)
  · rw [hpending] at he'
    rcases List.mem_append.mp he' with he' | he'
    · exact h.known_registered he'
    · rw [List.mem_singleton.mp he', hid]
      refine ⟨List.mem_cons_self, fun i hi => ?_⟩
      exact absurd (h.issued.fired _ i (by simpa [hs'] using hi)) (lt_irrefl _)
  · rw [hpending]
    rw [List.mem_cons, DelayEv.registered.injEq] at hr
    rcases hr with ⟨rfl, rfl⟩ | hr
    · exact .inr ⟨e, by simp, hid, rfl⟩
    · rcases h.outstanding id due hr hle with ⟨i, hi⟩ | ⟨e', he', heq⟩
      · exact .inl ⟨i, List.mem_cons_of_mem _ hi⟩
      · exact .inr ⟨e', List.mem_append_left _ he', heq⟩
  · rcases List.mem_append.mp he' with he' | he'
    · exact h.queued e' he'
    · rw [List.mem_singleton.mp he']
      exact he

lemma Inv.register {delay : UInt64} (h : Inv table s)
    (hok : s.keepsCourse table backend (.register delay) = true) :
    Inv table (s.register table backend delay) := by
  have hcourse := of_decide_eq_true hok
  set due := table.time s.cursor + delay.toNat with hdue
  have hmod : due ≤ table.maxTime → due % 2 ^ 64 = due := fun hle =>
    Nat.mod_eq_of_lt (hle.trans_lt table.maxTime_lt)
  unfold Loop.register
  dsimp only
  rw [← hdue]
  split_ifs with hlate
  · refine h.drops (Nat.lt_of_not_le fun hle => ?_)
    rw [hmod hle] at hlate
    omega
  · refine h.queues (e := ⟨s.nextId, _, due⟩) rfl fun hle => ?_
    have hle' : due ≤ table.maxTime := hle
    rw [hmod hle']
    exact hcourse hle'

lemma Inv.setCursor (h : Inv table s) (hidx : idx < table.maxIndex)
    (hok : s.mayJump table idx = true) : Inv table (s.setCursor idx) := by
  unfold Loop.mayJump at hok
  by_cases heq : idx = s.cursor
  · unfold Loop.setCursor
    rwa [if_pos heq]
  · have hcursor : s.setCursor idx = { s with cursor := idx, log := .left s.cursor :: s.log } :=
      if_neg heq
    simp only [hcursor, heq, decide_false, Bool.false_or, Bool.and_eq_true, List.all_eq_true,
      decide_eq_true_eq] at hok
    obtain ⟨⟨hahead, hmapped⟩, hqueued⟩ := hok
    rw [hcursor]
    refine h.moves (List.Perm.refl _) (.inr ⟨rfl, hahead⟩) rfl hidx.le (fun _ => hidx)
      (fun e he hdue => ?_) hmapped hqueued
    -- what is being called is due, so the cursor may not be set before it has been called
    have hlt := hahead e (List.mem_append_left _ (List.mem_append_left _ he)) hdue
    have heq := h.called e he hdue
    omega

/-! ### What the loop does -/

lemma pending_of_calls_eq_nil (h : s.calls = []) :
    s.pending = s.timeCbMap ++ s.willAppendTimeCbQueue := by
  rw [pending, h, List.nil_append]

lemma Inv.appendTimeCb (h : Inv table s) (hcalls : s.calls = []) (hcalls' : s'.calls = [])
    (hmap : s'.timeCbMap = s.timeCbMap ++ s.willAppendTimeCbQueue)
    (hqueue : s'.willAppendTimeCbQueue = []) (hlog : s'.log = s.log) (hnext : s'.nextId = s.nextId)
    (hcursor : s'.cursor = s.cursor) (hlt : s'.inLoop → s'.cursor < table.maxIndex)
    (hmapped : ∀ key, s'.nextMapped key = s.nextMapped key)
    (hqueued : ∀ key, s'.nextMapped key = s.nextQueued) : Inv table s' := by
  have hpending : s'.pending = s.pending := by
    rw [pending_of_calls_eq_nil hcalls, pending_of_calls_eq_nil hcalls', hmap, hqueue,
      List.append_nil]
  refine h.moves (.of_eq hpending) (.inl hlog) hnext (hcursor ▸ h.cursor) hlt (by simp [hcalls'])
    (fun e he => ?_) (by simp [hqueue])
  rw [hmap] at he
  rcases List.mem_append.mp he with he | he
  · rw [hmapped]
    exact h.mapped e he
  · rw [hqueued]
    exact h.queued e he

lemma Inv.loopTest (h : Inv table s) (hphase : s.phase = .test) : Inv table (s.loopTest table) := by
  have hcalls : s.calls = [] := by simp only [calls, hphase]
  have hmapped := h.mapped
  have hqueued := h.queued
  simp only [nextMapped, nextQueued, hphase] at hmapped hqueued
  unfold Loop.loopTest
  split_ifs with htest hlt
  · refine h.moves (.of_eq ?_) (.inl rfl) rfl h.cursor (fun _ => htest.1) (by simp [calls])
      (fun e he => ?_) hqueued
    · rw [pending_of_calls_eq_nil hcalls]
      rfl
    · have hmem : e.targetIndex ∈ s.timeCbMap.map Delay.targetIndex := List.mem_map_of_mem he
      simp only [nextMapped, if_pos hmem]
      exact hmapped e he
  · refine h.moves (.of_eq ?_) (.inl rfl) rfl h.cursor False.elim (by simp [calls]) hmapped hqueued
    rw [pending_of_calls_eq_nil hcalls]
    rfl
  · refine h.moves (.of_eq ?_) (.inr ⟨rfl, fun e he hdue => ?_⟩) rfl h.cursor False.elim
      (by simp [calls]) hmapped hqueued
    · rw [pending_of_calls_eq_nil hcalls]
      rfl
    · -- at the last index nothing is left, since what is on course fires before it
      rw [pending_of_calls_eq_nil hcalls] at he
      rcases List.mem_append.mp he with he | he
      · have hcourse := hmapped e he hdue
        omega
      · have hcourse := hqueued e he hdue
        omega

lemma Inv.visit {key : Nat} {left : List Nat} (h : Inv table s) (hphase : s.phase = .walk left [])
    (hkey : key ∈ left) : Inv table (s.visit key left) := by
  have hcalls : s.calls = [] := by simp only [calls, hphase]
  have hlt := h.cursor_lt (by simp only [inLoop, hphase])
  have hmapped := h.mapped
  have hqueued := h.queued
  simp only [nextMapped, nextQueued, hphase] at hmapped hqueued
  -- the other keys stay visited or not
  have hother : ∀ e ∈ s.timeCbMap, e.targetIndex ≠ key → OnCourse table
      (if e.targetIndex ∈ left.filter (fun k => decide (k ≠ key)) then s.cursor
        else s.cursor + 1) e := by
    intro e he hne
    simpa [List.mem_filter, hne] using hmapped e he
  unfold Loop.visit
  dsimp only
  split_ifs with hle
  · refine h.moves ?_ (.inl rfl) rfl h.cursor (fun _ => hlt) (fun e he hdue => ?_)
      (fun e he => ?_) hqueued
    · rw [pending_of_calls_eq_nil hcalls]
      refine List.Perm.append_right _ ?_
      simpa [calls] using
        List.filter_append_perm (fun e : Delay => decide (e.targetIndex = key)) s.timeCbMap
    · obtain ⟨he, heq⟩ := List.mem_filter.mp he
      have hcourse := hmapped e he
      rw [of_decide_eq_true heq, if_pos hkey] at hcourse
      have hmax := (hcourse hdue).1
      rw [of_decide_eq_true heq] at hmax
      show s.cursor = _
      omega
    · obtain ⟨he, hne⟩ := List.mem_filter.mp he
      exact hother e he (of_decide_eq_true hne)
  · refine h.moves (.of_eq ?_) (.inl rfl) rfl h.cursor (fun _ => hlt) (by simp [calls])
      (fun e he => ?_) hqueued
    · rw [pending_of_calls_eq_nil hcalls]
      rfl
    · by_cases heq : e.targetIndex = key
      · have hcourse := hmapped e he
        rw [heq, if_pos hkey] at hcourse
        intro hdue
        have hmax := hcourse hdue
        rw [heq] at hmax ⊢
        simp only [nextMapped, List.mem_filter, ne_eq, not_true, decide_false, Bool.false_eq_true,
          and_false, if_false]
        omega
      · exact hother e he heq

lemma Inv.call {left : List Nat} {rest : List Delay} (h : Inv table s)
    (hphase : s.phase = .walk left (e :: rest)) : Inv table (s.call e left rest) := by
  have hcalls : s.calls = e :: rest := by simp only [calls, hphase]
  have hpending : s.pending = e :: (s.call e left rest).pending := by
    simp only [pending, hcalls]
    rfl
  have he : e ∈ s.pending := hpending ▸ List.mem_cons_self
  have hlt := h.cursor_lt (by simp only [inLoop, hphase])
  have hmapped := h.mapped
  have hqueued := h.queued
  have hnodup := h.nodup
  simp only [nextMapped, nextQueued, hphase] at hmapped hqueued
  rw [hpending, List.map_cons, List.nodup_cons] at hnodup
  obtain ⟨hreg, hnot⟩ := h.known e he
  refine ⟨h.cursor, fun _ => hlt, hnodup.2, fun e' he' => ?_,
    ⟨fun id due hr => ?_, fun id i hf => ?_, fun id due due' hr hr' => ?_⟩,
    fun id due hr hdue => ?_, fun e' he' hdue => ?_, hmapped, hqueued,
    ⟨fun due hr hdue => ⟨?_, hnot⟩, h.punctual⟩⟩
  · obtain ⟨hr, hf⟩ := h.known e' (hpending ▸ List.mem_cons_of_mem _ he')
    refine ⟨List.mem_cons_of_mem _ hr, fun i hi => ?_⟩
    rcases List.mem_cons.mp hi with heq | hi
    · rw [DelayEv.fired.injEq] at heq
      exact hnodup.1 (heq.1 ▸ List.mem_map_of_mem he')
    · exact hf i hi
  · exact h.issued.fresh id due (by simpa [Loop.call] using hr)
  · rcases List.mem_cons.mp hf with heq | hf
    · rw [DelayEv.fired.injEq] at heq
      exact heq.1 ▸ h.issued.fresh _ _ hreg
    · exact h.issued.fired id i hf
  · exact h.issued.unique id due due' (by simpa [Loop.call] using hr) (by simpa [Loop.call] using hr')
  · rcases h.outstanding id due (by simpa [Loop.call] using hr) hdue with ⟨i, hi⟩ | ⟨e', he', rfl, rfl⟩
    · exact .inl ⟨i, List.mem_cons_of_mem _ hi⟩
    · rw [hpending] at he'
      rcases List.mem_cons.mp he' with rfl | he'
      · exact .inl ⟨s.cursor, List.mem_cons_self⟩
      · exact .inr ⟨e', he', rfl, rfl⟩
  · exact h.called e' (hcalls ▸ List.mem_cons_of_mem _ he') hdue
  · have heq := h.issued.unique _ _ _ hr hreg
    rw [heq] at hdue ⊢
    have hcursor := h.called e (hcalls ▸ List.mem_cons_self) hdue
    exact (TimeTable.lowerBound_le_iff h.cursor).mp hcursor.ge

lemma Inv.advance (h : Inv table s) (hphase : s.phase = .values) :
    Inv table { s with
      cursor := s.cursor + 1
      phase := .test
      inCallback := false
      log := .left s.cursor :: s.log } := by
  have hcalls : s.calls = [] := by simp only [calls, hphase]
  have hlt := h.cursor_lt (by simp only [inLoop, hphase])
  have hmapped := h.mapped
  have hqueued := h.queued
  simp only [nextMapped, nextQueued, hphase] at hmapped hqueued
  refine h.moves (.of_eq ?_) (.inr ⟨rfl, fun e he => ?_⟩) rfl hlt False.elim (by simp [calls])
    hmapped hqueued
  · rw [pending_of_calls_eq_nil hcalls]
    rfl
  · rw [pending_of_calls_eq_nil hcalls] at he
    rcases List.mem_append.mp he with he | he
    · exact (hmapped e he).ahead (Nat.lt_succ_self _)
    · exact (hqueued e he).ahead (by omega)

/-! ### Every run -/

theorem Inv.step {a : Act} (h : Inv table s) (hok : s.keepsCourse table backend a = true)
    (hs : s.step table backend a = some s') : Inv table s' := by
  cases a with
  | register delay =>
    simp only [Loop.step] at hs
    split_ifs at hs
    cases hs
    exact h.register hok
  | setCursor idx =>
    simp only [Loop.step] at hs
    split_ifs at hs with hidx
    cases hs
    exact h.setCursor hidx.2 hok
  | terminate =>
    simp only [Loop.step] at hs
    split_ifs at hs
    cases hs
    exact h.moves (.refl _) (.inl rfl) rfl h.cursor h.cursor_lt h.called h.mapped h.queued
  | startLoop =>
    simp only [Loop.step] at hs
    split at hs
    case h_1 hphase =>
      cases hs
      exact h.appendTimeCb (by simp only [calls, hphase]) rfl rfl rfl rfl rfl rfl False.elim
        (by simp [nextMapped, hphase, Loop.appendTimeCb])
        (by simp [nextMapped, nextQueued, hphase, Loop.appendTimeCb])
    case h_2 => cases hs
  | loopTest =>
    simp only [Loop.step] at hs
    split at hs
    case h_1 hphase =>
      cases hs
      exact h.loopTest hphase
    case h_2 => cases hs
  | visit key =>
    simp only [Loop.step] at hs
    split at hs
    case h_1 hphase =>
      split_ifs at hs with hkey
      cases hs
      exact h.visit hphase hkey
    case h_2 => cases hs
  | call =>
    simp only [Loop.step] at hs
    split at hs
    case h_1 hphase =>
      cases hs
      exact h.call hphase
    case h_2 => cases hs
  | walked =>
    simp only [Loop.step] at hs
    split at hs
    case h_1 hphase =>
      cases hs
      have hlt := h.cursor_lt (by simp only [inLoop, hphase])
      exact h.appendTimeCb (by simp only [calls, hphase]) rfl rfl rfl rfl rfl rfl (fun _ => hlt)
        (by simp [nextMapped, hphase, Loop.appendTimeCb])
        (by simp [nextMapped, nextQueued, hphase, Loop.appendTimeCb])
    case h_2 => cases hs
  | advance =>
    simp only [Loop.step] at hs
    split at hs
    case h_1 hphase =>
      cases hs
      exact h.advance hphase
    case h_2 => cases hs

/-- Callbacks are punctual in every run that keeps them on course. -/
theorem punctual_of_keepsCourse
    (h : Reached table backend (fun s a => s.keepsCourse table backend a = true) s) :
    Punctual table s.log := by
  refine Inv.punctual (Reach.invariant (I := fun s : Loop => Inv table s) h .init ?_)
  intro s a s' _ hinv hok hs
  exact hinv.step hok hs

/-- Four samples. -/
def tens : TimeTable := ⟨[0, 10, 20, 30], by decide, by decide, by decide⟩

/-- A delay of 15 at time 0. -/
def asksBetween : List Act :=
  [.register 15, .startLoop, .loopTest, .visit 1, .walked, .advance, .loopTest, .visit 1, .call]

theorem not_punctual : ¬ ∀ (table : TimeTable) (backend : Backend) (s : Loop),
    Reached table backend Unguarded s → Punctual table s.log := by
  intro h
  have hrun : (run (step tens .wellen) init asksBetween).map Loop.log =
      some [.fired 0 1, .left 0, .registered 0 15] := by
    decide +kernel
  obtain ⟨s, hs, hlog⟩ := Option.map_eq_some_iff.mp hrun
  have hpunctual := h _ _ s (reach_of_run hs)
  rw [hlog] at hpunctual
  have hdue := (hpunctual.1 15 (by simp) (by decide)).1
  exact absurd hdue (by decide)

/-- A delay before the loop, one from the callback that it fires, and one from a value change. -/
def asksSamples : List Act :=
  [.register 10, .startLoop, .loopTest, .visit 1, .walked, .register 20, .advance, .loopTest,
   .visit 1, .call, .register 10, .walked, .advance, .loopTest, .visit 2, .call, .call, .walked,
   .advance, .loopTest]

theorem punctual_of_asksSamples :
    ∃ s, runChecked (step tens .wellen) (fun s a => s.keepsCourse tens .wellen a = true) init
        asksSamples = some s ∧
      s.log = [.left 3, .left 2, .fired 2 2, .fired 1 2, .left 1, .registered 2 20, .fired 0 1,
        .left 0, .registered 1 20, .registered 0 10] ∧
      Punctual tens s.log := by
  have hrun : (runChecked (step tens .wellen) (fun s a => s.keepsCourse tens .wellen a = true) init
      asksSamples).map Loop.log = some [.left 3, .left 2, .fired 2 2, .fired 1 2, .left 1,
        .registered 2 20, .fired 0 1, .left 0, .registered 1 20, .registered 0 10] := by
    decide +kernel
  obtain ⟨s, hs, hlog⟩ := Option.map_eq_some_iff.mp hrun
  exact ⟨s, hs, hlog, punctual_of_keepsCourse (reach_of_runChecked hs)⟩

end Loop

end Verilua.Wave
