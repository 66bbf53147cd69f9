import Verilua.Put.Rules
import Verilua.Lib.Mailbox

/-!
# Every accepted request is committed once

As long as no request takes an entry out of the vector that a pass is walking over, a handle has a
flag exactly when one entry of it is still to be flushed. The queue then refines a mailbox with
one slot per handle.
-/

namespace Verilua.Put

open TransitionSystem

variable {cfg : Config} {env : Env} {signals : ComplexHandleRaw → Signal}
  {raw raw' : ComplexHandleRaw} {r : Request} {m m' : Machine} {a : Act}
  {ok : Machine → Act → Prop}

/-! ### What is still to be flushed -/

/-- The entries that the pass in progress and the later ones will reach. -/
def Env.remaining (env : Env) : Option Flush → List ComplexHandleRaw
  | none => env.hdlPutValue.toList ++ env.hdlPutValueBak.toList
  | some f => env.hdlPutValue.toList.drop f.next ++ env.hdlPutValueBak.toList

@[simp] lemma setHandle_remaining (env : Env) (raw : ComplexHandleRaw) (h : ComplexHandle)
    (flush : Option Flush) : (env.setHandle raw h).remaining flush = env.remaining flush := by
  cases flush <;> rfl

/-- Requests, flushes and the callbacks around them, but none of the immediate forms. -/
def Act.deferred : Act → Bool
  | .imm .. | .releaseImm .. => false
  | _ => true

/-- An accepted request that replaces a pending one takes the handle's own entry out, and takes
nothing out of `hdl_put_value` while a pass is walking over it. -/
def Machine.takesOwn (m : Machine) : Act → Bool
  | .request raw r =>
    match (m.env.handles raw).putValueFlag with
    | none => true
    | some curr => Env.refuses curr r.flag ||
      match m.env.staleEntry m.cfg (m.env.handles raw).vpiHandle with
      | some (.inl idx) => m.flush.isNone && decide (m.env.hdlPutValue.toList[idx]? = some raw)
      | some (.inr idx) => decide (m.env.hdlPutValueBak.toList[idx]? = some raw)
      | none => true
  | _ => true

/-- The flags and the queues agree. -/
structure Queued (m : Machine) : Prop where
  count : ∀ raw, (m.env.remaining m.flush).count raw =
    if (m.env.handles raw).putValueFlag.isSome then 1 else 0
  supported : ∀ raw, (m.env.handles raw).putValueFlag.isSome = true →
    (m.env.handles raw).putValueFormat ≠ .unset
  idle : m.flush = none → m.env.hdlPutValueBak.toList = [] ∧ m.env.useHdlPutValueBak = false
  pass : ∀ f, m.flush = some f → m.env.useHdlPutValueBak = m.cfg.callsBack ∧
    f.stop = m.env.hdlPutValue.len ∧ f.next ≤ f.stop ∧
    (m.cfg.callsBack = false → m.env.hdlPutValueBak.toList = [])

/-- Where `do_push_hdl_put_value` puts the entry, a pass in progress does not read it. -/
lemma remaining_doPush {flush : Option Flush}
    (hfront : flush = none → (cfg.callsBack && env.useHdlPutValueBak) = false)
    (hbak : flush ≠ none → (cfg.callsBack && env.useHdlPutValueBak) = true) :
    ((env.doPushHdlPutValue cfg raw).remaining flush).Perm (raw :: env.remaining flush) := by
  cases flush with
  | none =>
    obtain ⟨hf, hb⟩ := doPush_front raw (hfront rfl)
    simp only [Env.remaining, hf, hb, Vec.toList_push, List.append_assoc]
    exact List.perm_middle
  | some f =>
    obtain ⟨hf, hb⟩ := doPush_bak raw (hbak (by simp))
    simp only [Env.remaining, hf, hb, Vec.toList_push, ← List.append_assoc]
    exact List.perm_append_singleton raw _

lemma eraseIdx_perm {α : Type*} {l : List α} {i : Nat} {x : α} (h : l[i]? = some x) :
    (x :: l.eraseIdx i).Perm l := by
  obtain ⟨hlt, rfl⟩ := List.getElem?_eq_some_iff.mp h
  exact List.getElem_cons_eraseIdx_perm hlt

lemma remaining_removeEntry_inl {idx : Nat} (h : env.hdlPutValue.toList[idx]? = some raw) :
    (raw :: (env.removeEntry (.inl idx)).remaining none).Perm (env.remaining none) := by
  have hlt : idx < env.hdlPutValue.len := by
    simpa using (List.getElem?_eq_some_iff.mp h).1
  simp only [Env.remaining, Env.removeEntry, Vec.toList_remove hlt, ← List.cons_append]
  exact (eraseIdx_perm h).append_right _

lemma remaining_removeEntry_inr {idx : Nat} {flush : Option Flush}
    (h : env.hdlPutValueBak.toList[idx]? = some raw) :
    (raw :: (env.removeEntry (.inr idx)).remaining flush).Perm (env.remaining flush) := by
  have hlt : idx < env.hdlPutValueBak.len := by
    simpa using (List.getElem?_eq_some_iff.mp h).1
  cases flush with
  | none =>
    simp only [Env.remaining, Env.removeEntry, Vec.toList_remove hlt]
    exact List.perm_middle.symm.trans ((eraseIdx_perm h).append_left _)
  | some f =>
    simp only [Env.remaining, Env.removeEntry, Vec.toList_remove hlt]
    exact List.perm_middle.symm.trans ((eraseIdx_perm h).append_left _)

lemma remaining_of_slot {f : Flush} (h : env.hdlPutValue.slot f.next = some raw)
    (hlt : f.next < env.hdlPutValue.len) :
    env.remaining (some f) = raw :: env.remaining (some { f with next := f.next + 1 }) := by
  rw [Vec.slot_of_lt hlt] at h
  obtain ⟨hlt', rfl⟩ := List.getElem?_eq_some_iff.mp h
  simp only [Env.remaining]
  rw [List.drop_eq_getElem_cons hlt', List.cons_append]

/-! ### The invariant -/

lemma Queued.mode (h : Queued m) (hc : m.codeRuns = true) :
    (m.flush = none → (m.cfg.callsBack && m.env.useHdlPutValueBak) = false) ∧
      (m.flush ≠ none → (m.cfg.callsBack && m.env.useHdlPutValueBak) = true) := by
  refine ⟨fun hf => by simp [(h.idle hf).2], fun hf => ?_⟩
  obtain ⟨f, hf⟩ := Option.ne_none_iff_exists'.mp hf
  simp only [Machine.codeRuns, hf, Bool.and_eq_true] at hc
  simp [(h.pass f hf).1, hc.1]

lemma Queued.of_request (h : Queued m) (hc : m.codeRuns = true) {env : Env} {log : List Ev}
    (hperm : (raw :: env.remaining m.flush).Perm
      (if (m.env.handles raw).putValueFlag.isSome then m.env.remaining m.flush
        else raw :: m.env.remaining m.flush))
    (hhandles : env.handles = (m.env.fill raw r).handles)
    (huse : env.useHdlPutValueBak = m.env.useHdlPutValueBak)
    (hpass : m.flush ≠ none → env.hdlPutValue = m.env.hdlPutValue)
    (hidle : m.flush = none → env.hdlPutValueBak = m.env.hdlPutValueBak) :
    Queued { m with env := env.doPushHdlPutValue m.cfg raw, log := log } := by
  obtain ⟨hfront, hbak⟩ := h.mode hc
  rw [← huse] at hfront hbak
  have hpush := (remaining_doPush hfront hbak).trans hperm
  refine ⟨fun raw' => ?_, fun raw' => ?_, fun hf => ?_, fun f hf => ?_⟩
  · dsimp only
    rw [hpush.count_eq, doPush_handles, hhandles]
    by_cases heq : raw' = raw
    · subst heq
      have hcount := h.count raw'
      cases hflag : (m.env.handles raw').putValueFlag with
      | none => simp [hflag, Env.fill] at hcount ⊢; exact hcount
      | some curr => simp [hflag, Env.fill] at hcount ⊢; exact hcount
    · have hcount := h.count raw'
      cases hflag : (m.env.handles raw).putValueFlag with
      | none => simpa [Env.fill, Function.update_of_ne heq, List.count_cons, Ne.symm heq] using hcount
      | some curr => simpa [Env.fill, Function.update_of_ne heq] using hcount
  · dsimp only
    rw [doPush_handles, hhandles]
    by_cases heq : raw' = raw
    · subst heq
      simp [Env.fill, r.format_ne_unset]
    · simpa [Env.fill, Function.update_of_ne heq] using h.supported raw'
  · obtain ⟨-, hbak'⟩ := doPush_front _ (hfront hf)
    dsimp only
    rw [hbak', doPush_useBak, huse, hidle hf]
    exact h.idle hf
  · obtain ⟨hfront', -⟩ := doPush_bak _ (hbak (by simp [show m.flush = some f from hf]))
    obtain ⟨huse', hstop, hle, hempty⟩ := h.pass f hf
    dsimp only
    rw [hfront', doPush_useBak, huse, hpass (by simp [show m.flush = some f from hf])]
    refine ⟨huse', hstop, hle, fun hcb => ?_⟩
    have hmode := hbak (by simp [show m.flush = some f from hf])
    simp [hcb] at hmode

lemma Queued.of_put (h : Queued m) {f : Flush} (log : List Ev) (hf : m.flush = some f)
    (hlt : f.next < f.stop) (hslot : m.env.hdlPutValue.slot f.next = some raw) :
    (m.env.handles raw).putValueFlag.isSome = true ∧
      Queued { m with
        env := m.env.setHandle raw { m.env.handles raw with putValueFlag := none }
        flush := some { f with next := f.next + 1 }
        log := log } := by
  obtain ⟨huse, hstop, hle, hempty⟩ := h.pass f hf
  have hrem : m.env.remaining m.flush =
      raw :: m.env.remaining (some { f with next := f.next + 1 }) := by
    rw [hf]
    exact remaining_of_slot hslot (hstop ▸ hlt)
  have hflag : (m.env.handles raw).putValueFlag.isSome = true := by
    have hcount := h.count raw
    rw [hrem, List.count_cons_self] at hcount
    by_contra hnone
    simp [hnone] at hcount
  refine ⟨hflag, fun raw' => ?_, fun raw' => ?_, fun hf' => (nomatch hf'), fun f' hf' => ?_⟩
  · have hcount := h.count raw'
    rw [hrem] at hcount
    by_cases heq : raw' = raw
    · subst heq
      rw [List.count_cons_self, hflag] at hcount
      simpa using hcount
    · rw [List.count_cons_of_ne (Ne.symm heq)] at hcount
      simpa [Function.update_of_ne heq] using hcount
  · by_cases heq : raw' = raw
    · subst heq
      simp
    · simpa [Function.update_of_ne heq] using h.supported raw'
  · cases hf'
    exact ⟨huse, hstop, hlt, hempty⟩

lemma Queued.remaining_eq_bak (h : Queued m) {f : Flush} (hf : m.flush = some f)
    (hle : f.stop ≤ f.next) : m.env.remaining m.flush = m.env.hdlPutValueBak.toList := by
  have hlen : m.env.hdlPutValue.toList.length ≤ f.next := by
    rw [Vec.length_toList, ← (h.pass f hf).2.1]
    exact hle
  rw [hf, Env.remaining, List.drop_eq_nil_of_le hlen, List.nil_append]

lemma Queued.flags_none (h : Queued m) (hrem : m.env.remaining m.flush = []) (raw) :
    (m.env.handles raw).putValueFlag = none := by
  have hcount := h.count raw
  rw [hrem, List.count_nil] at hcount
  by_contra hflag
  simp [Option.isSome_iff_ne_none.mpr hflag] at hcount

lemma Queued.bak_nil_of_passDone (h : Queued m) {f : Flush} (hf : m.flush = some f)
    (hbak : m.cfg.callsBack = true → m.env.hdlPutValueBak.toList = []) :
    m.env.hdlPutValueBak.toList = [] := by
  cases hcb : m.cfg.callsBack with
  | true => exact hbak hcb
  | false => exact (h.pass f hf).2.2.2 hcb

lemma staleEntry_eq_none {vpi : VpiHandle} (h : env.staleEntry cfg vpi = none) :
    (∀ raw ∈ env.hdlPutValue.toList, (env.handles raw).vpiHandle ≠ vpi) ∧
      (cfg.callsBack = true → ∀ raw ∈ env.hdlPutValueBak.toList,
        (env.handles raw).vpiHandle ≠ vpi) := by
  unfold Env.staleEntry Env.find at h
  split at h
  · cases h
  · next hfront =>
    rw [Vec.position_eq_none] at hfront
    refine ⟨fun raw hraw => of_decide_eq_false (hfront raw hraw), fun hcb raw hraw => ?_⟩
    rw [if_pos hcb, Option.map_eq_none_iff, Vec.position_eq_none] at h
    exact of_decide_eq_false (h raw hraw)

lemma Queued.staleEntry_ne_none (h : Queued m)
    (hflag : (m.env.handles raw).putValueFlag.isSome = true) :
    m.env.staleEntry m.cfg (m.env.handles raw).vpiHandle ≠ none := by
  intro hnone
  obtain ⟨hfront, hbak⟩ := staleEntry_eq_none hnone
  have hmem : raw ∈ m.env.remaining m.flush := by
    rw [← List.one_le_count_iff, h.count raw, if_pos hflag]
  have hqueue : raw ∈ m.env.hdlPutValue.toList ∨ raw ∈ m.env.hdlPutValueBak.toList := by
    cases hf : m.flush with
    | none =>
      rw [hf] at hmem
      exact List.mem_append.mp hmem
    | some f =>
      rw [hf] at hmem
      exact (List.mem_append.mp hmem).imp_left fun hmem => List.mem_of_mem_drop hmem
  rcases hqueue with hmem | hmem
  · exact hfront raw hmem rfl
  · cases hcb : m.cfg.callsBack with
    | true => exact hbak hcb raw hmem rfl
    | false =>
      have hnil : m.env.hdlPutValueBak.toList = [] := by
        cases hf : m.flush with
        | none => exact (h.idle hf).1
        | some f => exact (h.pass f hf).2.2.2 hcb
      simp [hnil] at hmem

theorem Queued.step (h : Queued m) (hd : a.deferred = true) (hok : m.takesOwn a = true)
    (hf : m.fault = none) (hr : Rule m a m') : m'.fault = none ∧ Queued m' := by
  cases hr with
  | missing raw r curr hc hflag _ he =>
    exact absurd he (h.staleEntry_ne_none (by simp [hflag]))
  | refused => exact ⟨hf, h.count, h.supported, h.idle, h.pass⟩
  | fresh raw r hc hflag =>
    have hperm : (raw :: (m.env.fill raw r).remaining m.flush).Perm
        (if (m.env.handles raw).putValueFlag.isSome then m.env.remaining m.flush
          else raw :: m.env.remaining m.flush) := by
      rw [hflag]
      exact .refl _
    exact ⟨hf, h.of_request hc hperm rfl rfl (fun _ => rfl) fun _ => rfl⟩
  | replaced raw r curr e hc hflag hrefuse he =>
    simp only [Machine.takesOwn, hflag, hrefuse, he, Bool.false_or] at hok
    have hperm : (raw :: ((m.env.fill raw r).removeEntry e).remaining m.flush).Perm
        (m.env.remaining m.flush) := by
      cases e with
      | inl idx =>
        simp only [Bool.and_eq_true, Option.isNone_iff_eq_none, decide_eq_true_eq] at hok
        rw [hok.1]
        exact remaining_removeEntry_inl hok.2
      | inr idx =>
        exact remaining_removeEntry_inr (of_decide_eq_true hok)
    refine ⟨hf, h.of_request hc ?_ (removeEntry_handles _ e) (removeEntry_useBak _ e) ?_ ?_⟩
    · rwa [hflag, Option.isSome_some, if_pos rfl]
    · intro hfl
      cases e with
      | inl idx => simp [hfl] at hok
      | inr idx => rfl
    · intro hfl
      cases e with
      | inl idx => rfl
      | inr idx =>
        -- outside a flush the second queue is empty
        have hin := of_decide_eq_true hok
        simp [(h.idle hfl).1] at hin
  | imm | releaseImm => cases hd
  | applyEmpty => exact ⟨hf, h.count, h.supported, h.idle, h.pass⟩
  | apply hfl he =>
    obtain ⟨hbak, huse⟩ := h.idle hfl
    refine ⟨hf, fun raw => ?_, h.supported, fun hf' => (by cases hf'), fun f hf' => ?_⟩
    · have hcount := h.count raw
      rw [hfl] at hcount
      simpa [Env.remaining] using hcount
    · cases hf'
      simp [huse, hbak]
  | unsupported f raw hfl hlt hslot hv =>
    obtain ⟨hflag, -⟩ := h.of_put m.log hfl hlt hslot
    have hsome := pendingValue_isSome (h.supported raw hflag)
    simp [hv] at hsome
  | put f raw value hfl hlt hslot hv =>
    obtain ⟨hflag, hq⟩ := h.of_put (.put raw (m.env.handles raw).putValueFlag value :: m.log)
      hfl hlt hslot
    have hnot : (m.env.handles raw).putValueFlag.isNone = false := by
      simpa [Option.isSome_iff_ne_none] using hflag
    simp only [hnot, Bool.false_eq_true, if_false]
    exact ⟨trivial, hq.count, hq.supported, hq.idle, hq.pass⟩
  | passDone f hfl hle hbak =>
    have hnil := h.bak_nil_of_passDone hfl hbak
    have hrem := (h.remaining_eq_bak hfl hle).trans hnil
    refine ⟨hf, fun raw => ?_, h.supported, fun _ => ⟨hnil, ?_⟩, fun f' hf' => by cases hf'⟩
    · dsimp only
      rw [h.flags_none hrem raw]
      simp [Env.remaining, hnil]
    · have huse := (h.pass f hfl).1
      cases hcb : m.cfg.callsBack <;> simp [huse, hcb]
  | passAgain f hfl hle hcb hbak =>
    refine ⟨hf, fun raw => ?_, h.supported, fun hf' => (by cases hf'), fun f' hf' => ?_⟩
    · have hcount := h.count raw
      rw [h.remaining_eq_bak hfl hle] at hcount
      simpa [Env.remaining] using hcount
    · cases hf'
      refine ⟨(h.pass f hfl).1, (Nat.zero_add _).symm, Nat.zero_le _, fun _ => rfl⟩
  | flushDone hfl => exact ⟨hf, h.count, h.supported, h.idle, h.pass⟩
  | nextSimTime hfl => exact ⟨hf, h.count, h.supported, h.idle, h.pass⟩

lemma queued_init (cfg : Config) (signals : ComplexHandleRaw → Signal) :
    Queued (Machine.init cfg signals) :=
  ⟨fun _ => rfl, fun _ h => (nomatch h), fun _ => ⟨rfl, rfl⟩, fun _ h => nomatch h⟩

/-! ### The mailbox -/

abbrev Pending := PutFlag × Option VpiValue

def ComplexHandle.pending (h : ComplexHandle) : Option Pending :=
  h.putValueFlag.map fun flag => (flag, h.pendingValue)

def Ev.entry? : Ev → Option (Mailbox.Entry ComplexHandleRaw Pending)
  | .accepted raw flag value => some (.accept raw (flag, value))
  | .put raw (some flag) value => some (.commit raw (flag, some value))
  | _ => none

/-- The queue as a mailbox: what every handle has pending. -/
def Machine.box (m : Machine) : Mailbox.Box ComplexHandleRaw Pending where
  pending := fun raw => (m.env.handles raw).pending
  log := m.log.filterMap Ev.entry?

lemma fill_pending (env : Env) (raw : ComplexHandleRaw) (r : Request) :
    (fun raw' => ((env.fill raw r).handles raw').pending) =
      Function.update (fun raw' => (env.handles raw').pending) raw
        (some (r.flag, ((env.fill raw r).handles raw).pendingValue)) := by
  funext raw'
  by_cases heq : raw' = raw
  · subst heq
    simp [ComplexHandle.pending, Env.fill]
  · simp [Env.fill, Function.update_of_ne heq]

/-- One step of the queue is one step of the mailbox or none. -/
theorem Rule.refines (hr : Rule m a m') (hd : a.deferred = true) (hf : m'.fault = none) :
    m'.box = m.box ∨ ∃ b, m.box.step b = some m'.box := by
  cases hr with
  | missing | unsupported => cases hf
  | imm | releaseImm => cases hd
  | fresh raw r =>
    refine .inr ⟨.accept raw (r.flag, ((m.env.fill raw r).handles raw).pendingValue), ?_⟩
    rw [Mailbox.Box.step, Machine.box, Machine.box, ← fill_pending]
    simp [Ev.entry?]
  | replaced raw r curr e =>
    refine .inr ⟨.accept raw (r.flag, ((m.env.fill raw r).handles raw).pendingValue), ?_⟩
    rw [Mailbox.Box.step, Machine.box, Machine.box, ← fill_pending]
    simp [Ev.entry?]
  | put f raw value hfl hlt hslot hv =>
    cases hflag : (m.env.handles raw).putValueFlag with
    | none => simp [hflag] at hf
    | some flag =>
      have hpending : m.box.pending raw = some (flag, some value) := by
        simp [Machine.box, ComplexHandle.pending, hflag, hv]
      refine .inr ⟨.commit raw, ?_⟩
      simp only [Mailbox.Box.step, hpending]
      congr 1
      ext1
      · funext raw'
        by_cases heq : raw' = raw
        · subst heq
          simp [Machine.box, ComplexHandle.pending]
        · simp [Machine.box, Function.update_of_ne heq]
      · rfl
  | _ => exact .inl rfl

/-- What a run of the queue logs is what a run of the mailbox logs, as long as every step keeps the
flags and the queues together. -/
theorem box_of_reached (h : Machine.Reached cfg signals
    (fun m a => a.deferred = true ∧ m.takesOwn a = true) m) :
    m.fault = none ∧ Queued m ∧ Reach Mailbox.Box.step Unguarded Mailbox.Box.init m.box := by
  refine Reach.invariant (I := fun m : Machine => m.fault = none ∧ Queued m ∧
    Reach Mailbox.Box.step Unguarded Mailbox.Box.init m.box) h
    ⟨rfl, queued_init cfg signals, .refl⟩ ?_
  rintro m a m' - ⟨hf, hq, hbox⟩ ⟨hd, hok⟩ hs
  obtain ⟨-, hr⟩ := Rule.of_step hs
  obtain ⟨hf', hq'⟩ := hq.step hd hok hf hr
  refine ⟨hf', hq', ?_⟩
  rcases hr.refines hd hf' with hsame | ⟨b, hb⟩
  · rwa [hsame]
  · exact hbox.tail trivial hb

/-! ### Exactly once -/

/-- What was passed to `vpi_put_value` for `raw`, newest first. -/
def passes (raw : ComplexHandleRaw) : List Ev → List (Option PutFlag × Option VpiValue)
  | [] => []
  | .put raw' flag value :: log =>
    if raw' = raw then (flag, some value) :: passes raw log else passes raw log
  | _ :: log => passes raw log

/-- Every accepted request is passed at most once before the next accepted one of its handle, and
exactly once when a flush has ended in between; nothing else is passed. -/
structure CommittedOnce (log : List Ev) : Prop where
  once : ∀ since raw flag value earlier, log = since ++ .accepted raw flag value :: earlier →
    (∀ f v, .accepted raw f v ∉ since) →
    passes raw since = [] ∨ passes raw since = [(some flag, value)]
  flushed : ∀ since raw flag value earlier,
    log = .flushed :: (since ++ .accepted raw flag value :: earlier) →
    (∀ f v, .accepted raw f v ∉ since) → passes raw since = [(some flag, value)]
  unasked : ∀ raw, (∀ f v, .accepted raw f v ∉ log) → passes raw log = []

lemma passes_eq_commits {log : List Ev} (hsome : ∀ raw value, .put raw none value ∉ log)
    (raw : ComplexHandleRaw) :
    passes raw log = (Mailbox.commits raw (log.filterMap Ev.entry?)).map
      fun p => (some p.1, p.2) := by
  induction log with
  | nil => rfl
  | cons e log ih =>
    have ih := ih fun raw value h => hsome raw value (List.mem_cons_of_mem _ h)
    cases e with
    | put raw' flag value =>
      cases flag with
      | none => exact absurd List.mem_cons_self (hsome raw' value)
      | some flag =>
        simp only [passes, Ev.entry?, List.filterMap_cons, Mailbox.commits]
        split_ifs with heq
        · rw [ih, List.map_cons]
        · exact ih
    | accepted | refused | imm | flushed => exact ih

lemma not_mem_entries {log : List Ev} (h : ∀ f v, .accepted raw f v ∉ log) :
    ∀ p, .accept raw p ∉ log.filterMap Ev.entry? := by
  intro p hp
  obtain ⟨e, he, heq⟩ := List.mem_filterMap.mp hp
  cases e with
  | accepted raw' flag value =>
    cases heq
    exact h flag value he
  | put raw' flag value => cases flag <;> cases heq
  | refused | imm | flushed => cases heq

/-- At the end of a flush nothing is pending, and no flag was missing. -/
structure Flushed (log : List Ev) : Prop where
  isSome : ∀ raw value, .put raw none value ∉ log
  nothing : ∀ earlier, .flushed :: earlier <:+ log →
    ∀ raw, Mailbox.pendingOf raw (earlier.filterMap Ev.entry?) = none

lemma Flushed.cons {e : Ev} {log : List Ev} (h : Flushed log)
    (hput : ∀ raw value, e ≠ .put raw none value)
    (hflushed : e = .flushed → ∀ raw, Mailbox.pendingOf raw (log.filterMap Ev.entry?) = none) :
    Flushed (e :: log) := by
  refine ⟨fun raw value hmem => ?_, fun earlier hsuf => ?_⟩
  · rcases List.mem_cons.mp hmem with heq | hmem
    · exact hput raw value heq.symm
    · exact h.isSome raw value hmem
  · rcases List.suffix_cons_iff.mp hsuf with heq | hsuf
    · cases heq
      exact hflushed rfl
    · exact h.nothing earlier hsuf

lemma Flushed.of_suffix {log log' : List Ev} (h : Flushed log) (hsuf : log' <:+ log) :
    Flushed log' :=
  ⟨fun raw value hmem => h.isSome raw value (hsuf.subset hmem),
    fun earlier hsuf' => h.nothing earlier (hsuf'.trans hsuf)⟩

lemma Rule.log (hr : Rule m a m') (h : Queued m) (hf : m'.fault = none) :
    m'.log = m.log ∨ ∃ e, m'.log = e :: m.log ∧ (∀ raw value, e ≠ .put raw none value) ∧
      (e = .flushed → m.env.remaining m.flush = []) := by
  cases hr with
  | missing | unsupported => cases hf
  | applyEmpty hfl he =>
    refine .inr ⟨_, rfl, by simp, fun _ => ?_⟩
    rw [hfl, Env.remaining, he, (h.idle hfl).1, List.append_nil]
  | put f raw value hfl hlt hslot hv =>
    refine .inr ⟨_, rfl, fun raw' value' heq => ?_, by simp⟩
    cases hflag : (m.env.handles raw).putValueFlag with
    | none => simp [hflag] at hf
    | some flag => simp [hflag] at heq
  | passDone f hfl hle hbak =>
    exact .inr ⟨_, rfl, by simp, fun _ =>
      (h.remaining_eq_bak hfl hle).trans (h.bak_nil_of_passDone hfl hbak)⟩
  | apply | passAgain | flushDone | nextSimTime => exact .inl rfl
  | refused | fresh | replaced => exact .inr ⟨_, rfl, by simp, by simp⟩
  | imm raw action value | releaseImm raw current => exact .inr ⟨_, rfl, by simp, by simp⟩

lemma pendingOf_eq_none (h : Queued m) (hrem : m.env.remaining m.flush = [])
    (hbox : Reach Mailbox.Box.step Unguarded Mailbox.Box.init m.box) (raw : ComplexHandleRaw) :
    Mailbox.pendingOf raw (m.log.filterMap Ev.entry?) = none := by
  have hpending := (Mailbox.sound_of_reached hbox).2 raw
  refine hpending.symm.trans ?_
  simp [Machine.box, ComplexHandle.pending, h.flags_none hrem raw]

lemma flushed_of_reached (h : Machine.Reached cfg signals
    (fun m a => a.deferred = true ∧ m.takesOwn a = true) m) : Flushed m.log := by
  refine Reach.invariant (I := fun m : Machine => Flushed m.log) h ?_ ?_
  · exact ⟨fun _ _ => List.not_mem_nil, fun _ hsuf => by simp [Machine.init] at hsuf⟩
  · rintro m a m' hm ih ⟨hd, hok⟩ hs
    obtain ⟨hf, hq, hbox⟩ := box_of_reached hm
    obtain ⟨-, hr⟩ := Rule.of_step hs
    rcases hr.log hq (hq.step hd hok hf hr).1 with heq | ⟨e, heq, hput, hrem⟩
    · rwa [heq]
    · rw [heq]
      exact ih.cons hput fun he => pendingOf_eq_none hq (hrem he) hbox

lemma CommittedOnce.of_sound {log : List Ev} (hsound : Mailbox.Sound (log.filterMap Ev.entry?))
    (hflushed : Flushed log) : CommittedOnce log := by
  have hsince : ∀ since raw flag value earlier,
      since ++ .accepted raw flag value :: earlier <:+ log →
      (∀ f v, .accepted raw f v ∉ since) →
      (Mailbox.pendingOf raw ((since ++ .accepted raw flag value :: earlier).filterMap Ev.entry?) =
          some (flag, value) ∧ passes raw since = []) ∨
        passes raw since = [(some flag, value)] := by
    intro since raw flag value earlier hsuf hno
    obtain ⟨rest, rfl⟩ := hsuf
    have hpre : ∀ raw value, .put raw none value ∉ since := fun raw value hmem =>
      hflushed.isSome raw value (List.mem_append_right _ (List.mem_append_left _ hmem))
    rw [List.filterMap_append] at hsound
    have hsound := hsound.of_append
    rw [List.filterMap_append, List.filterMap_cons_some (by rfl)] at hsound
    rw [List.filterMap_append, List.filterMap_cons_some (by rfl), passes_eq_commits hpre]
    rcases hsound.commits_since (not_mem_entries hno) with ⟨hp, hc⟩ | ⟨-, hc⟩
    · exact .inl ⟨hp, by rw [hc, List.map_nil]⟩
    · exact .inr (by rw [hc, List.map_singleton])
  refine ⟨fun since raw flag value earlier heq hno => ?_,
    fun since raw flag value earlier heq hno => ?_, fun raw hno => ?_⟩
  · exact (hsince since raw flag value earlier (heq ▸ List.suffix_rfl) hno).imp_left And.right
  · have hsuf : .flushed :: (since ++ .accepted raw flag value :: earlier) <:+ log :=
      heq ▸ List.suffix_rfl
    rcases hsince since raw flag value earlier ((List.suffix_cons _ _).trans hsuf) hno with
      ⟨hp, -⟩ | hpass
    · rw [hflushed.nothing _ hsuf raw] at hp
      cases hp
    · exact hpass
  · rw [passes_eq_commits hflushed.isSome, (hsound.commits_eq_nil (not_mem_entries hno)).2]
    rfl

/-- In a run whose requests take out their own entries only, the flags and the queues agree outside
a flush, no handle is passed without a flag, and every accepted request is passed exactly once
unless a later one has replaced it. -/
theorem committedOnce_of_takesOwn (h : Machine.Reached cfg signals
    (fun m a => a.deferred = true ∧ m.takesOwn a = true) m) :
    m.fault = none ∧
    (m.flush = none → ∀ raw, ((m.env.handles raw).putValueFlag.isSome = true ↔
      (m.env.hdlPutValue.toList ++ m.env.hdlPutValueBak.toList).count raw = 1) ∧
      (m.env.hdlPutValue.toList ++ m.env.hdlPutValueBak.toList).count raw ≤ 1) ∧
    (∀ raw value, .put raw none value ∉ m.log) ∧
    ∀ log, log <:+ m.log → CommittedOnce log := by
  obtain ⟨hf, hq, hbox⟩ := box_of_reached h
  have hflushed := flushed_of_reached h
  refine ⟨hf, fun hfl raw => ?_, hflushed.isSome, fun log hsuf => ?_⟩
  · have hcount := hq.count raw
    rw [hfl, Env.remaining] at hcount
    rw [hcount]
    cases (m.env.handles raw).putValueFlag <;> simp
  · refine .of_sound ?_ (hflushed.of_suffix hsuf)
    obtain ⟨later, heq⟩ := hsuf
    have hsound := (Mailbox.sound_of_reached hbox).1
    rw [Machine.box, ← heq, List.filterMap_append] at hsound
    exact hsound.of_append

/-- Two handles are queued; the callback of the first put writes the second handle, whose entry is
then taken out of the vector under the cursor. -/
def writesNext : List Act :=
  [.request 0 (.set .set (.value 1)), .request 1 (.set .set (.value 2)), .apply, .put,
   .request 1 (.set .set (.value 3)), .put, .endPass, .put]

/-- Handles of one bit each. -/
def bits (raw : ComplexHandleRaw) : Signal := { vpiHandle := raw, width := 1, fits := one_fits }

theorem not_committedOnce :
    ¬ ∀ m, Machine.Reached ⟨true, false⟩ bits (fun _ a => a.deferred = true) m →
      ∀ raw value, .put raw none value ∉ m.log := by
  intro h
  have hrun : (runChecked Machine.step (fun _ a => Act.deferred a = true)
      (Machine.init ⟨true, false⟩ bits) writesNext).map
        (fun m => decide (.put 1 none (.vector [⟨3, 0⟩]) ∈ m.log)) = some true := by
    decide +kernel
  obtain ⟨m, hm, hlog⟩ := Option.map_eq_some_iff.mp hrun
  exact h m (reach_of_runChecked hm) 1 _ (of_decide_eq_true hlog)

/-- The callback writes the first handle again, which is flushed in a second pass. -/
def writesSame : List Act :=
  [.request 0 (.set .set (.value 1)), .request 1 (.set .force (.value 1)),
   .request 1 (.set .set (.value 0)), .apply, .put, .request 0 (.set .set (.value 0)), .put,
   .endPass, .put, .endPass]

theorem committedOnce_of_writesSame :
    ∃ m, runChecked Machine.step (fun m a => Act.deferred a = true ∧ m.takesOwn a = true)
        (Machine.init ⟨true, false⟩ bits) writesSame = some m ∧
      passes 0 m.log = [(some .vpiNoDelay, some (.vector [⟨0, 0⟩])),
        (some .vpiNoDelay, some (.vector [⟨1, 0⟩]))] ∧
      ∀ log, log <:+ m.log → CommittedOnce log := by
  have hrun : (runChecked Machine.step (fun m a => Act.deferred a = true ∧ m.takesOwn a = true)
      (Machine.init ⟨true, false⟩ bits) writesSame).map (fun m => passes 0 m.log) =
        some [(some .vpiNoDelay, some (.vector [⟨0, 0⟩])),
          (some .vpiNoDelay, some (.vector [⟨1, 0⟩]))] := by
    decide +kernel
  obtain ⟨m, hm, hpasses⟩ := Option.map_eq_some_iff.mp hrun
  exact ⟨m, hm, hpasses, (committedOnce_of_takesOwn (reach_of_runChecked hm)).2.2.2⟩

end Verilua.Put
