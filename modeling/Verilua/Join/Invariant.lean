import Verilua.Join.Tokens

/-!
# What holds between two steps of the library

The invariant says for each task what its place in `join`, `join_any` or `join_all` means for the
lists of the scheduler, and for each handle of `jfork` that a body that has come to its end has
returned. It is given on the tables of the library, the log and the view; the lemmas are one for each
thing that a step can do to these.
-/

namespace Verilua.Join

variable {l l' : Library} {log log' : List Ev} {v v' : View} {id : TaskID} {e : EventID}
  {g : GroupID} {ctl : Ctl}

/-- What an entry of the log says of the log before it. -/
def Ev.Holds (log : List Ev) : Ev → Prop
  | .joined ehdlVec => ∀ e ∈ ehdlVec, .returned e ∈ log
  | .joinedAll g => ∀ e, .grouped g e ∈ log → .returned e ∈ log
  | .joinedAny r => r.curr = some r.ehdl ∧ r.ehdl ∈ r.ehdlVec ∧ .returned r.ehdl ∈ log ∧ r.left = false
  | _ => True

/-- The joins that have returned have waited for their tasks. -/
def Waited : List Ev → Prop
  | [] => True
  | ev :: log => ev.Holds log ∧ Waited log

/-- All handles of the group up to `drainedUpTo` are finished or `left`. -/
def Drained (l : Library) (v : View) (left : List EventID) (g : GroupID) (drainedUpTo : Nat) :
    Prop :=
  ∃ tg, l.groups[g]? = some tg ∧ drainedUpTo ≤ tg.handles.length ∧
    ∀ e ∈ tg.handles.take drainedUpTo, e ∈ left ∨ v.named e = false

structure Joining (l : Library) (v : View) (id : TaskID) (st : Waiting) : Prop where
  kind : ∀ e ∈ st.ehdlVec, l.kind e = some .eventHandleForJFork
  vec : ∀ e ∈ st.ehdlVec, e ∈ st.left ∨ v.named e = false
  nodup : st.left.Nodup
  left : ∀ e ∈ st.left, e ∈ st.ehdlVec ∧ st.finishedEhdlVec e = some false
  cnt : st.finishedCnt + st.left.length = st.expectFinishedCnt
  suspended : id ∉ v.bodies → st.left ≠ []

def Caller.Ok (l : Library) (v : View) (left : List EventID) : Caller → Prop
  | .user => True
  | .joinAll g drainedUpTo => Drained l v left g drainedUpTo

/-- What is known of a task by what its body is doing. -/
def Busy (l : Library) (v : View) (id : TaskID) : Ctl → Prop
  | .join st caller => Joining l v id st ∧ caller.Ok l v st.left
  | .joinAll g drainedUpTo => Drained l v [] g drainedUpTo
  | .joinAny ehdlVec first => ehdlVec.Nodup ∧
    (∀ e ∈ ehdlVec, l.kind e = some .eventHandleForJFork) ∧
    first + ehdlVec.length ≤ v.nextWaitNo ∧ ∀ p ∈ v.wakes, p.2.taskId = id → p.2.waitNo < first
  | .jfork e g => l.kind e = some .eventHandleForJFork ∧ ∀ g', g = some g' → g' < l.groups.length
  | _ => True

structure Handles (l : Library) (log : List Ev) (v : View) : Prop where
  kind : ∀ e, l.kind e ≠ none → v.listed e = true ∧ e < v.nextEventId
  handleOf : ∀ id e, l.handleOf id = some e → l.kind e = some .eventHandleForJFork
  returned : ∀ e, Finished l.kind v.named e → .returned e ∈ log
  nodup : ∀ tg ∈ l.groups, tg.handles.Nodup
  groups : ∀ tg ∈ l.groups, ∀ e ∈ tg.handles, l.kind e = some .eventHandleForJFork
  /-- A handle that `tg:fork` has got from `jfork` is in no group and in no other `tg:fork`. -/
  apart : ∀ id e g, l.ctl id = some (.jfork e g) → ∀ tg ∈ l.groups, e ∉ tg.handles
  unique : ∀ id id' e g g', l.ctl id = some (.jfork e g) → l.ctl id' = some (.jfork e g') → id = id'
  grouped : ∀ g e, .grouped g e ∈ log → ∃ tg, l.groups[g]? = some tg ∧ e ∈ tg.handles

/-- The simulator has callbacks of tasks that are in an `await_*` function only. -/
structure Callbacks (ctl : TaskID → Option Ctl) (v : View) : Prop where
  nodup : v.callbacks.Nodup
  await : ∀ id ∈ v.callbacks, ctl id = some .await
  known : ∀ id, ctl id ≠ none → v.known id = true

structure Inv (l : Library) (log : List Ev) (v : View) : Prop where
  tokens : Tokens l.awaits l.kind v
  handles : Handles l log v
  callbacks : Callbacks l.ctl v
  busy : ∀ id ctl, l.ctl id = some ctl → Busy l v id ctl

/-! ### What steps keep -/

/-- Events keep their kinds, finished handles stay finished and groups only grow. -/
structure Extends (l l' : Library) (v v' : View) : Prop where
  kind : ∀ e k, l.kind e = some k → l'.kind e = some k
  named : ∀ e, l.kind e = some .eventHandleForJFork → v.named e = false → v'.named e = false
  groups : ∀ (g : GroupID) tg, l.groups[g]? = some tg →
    ∃ tg', l'.groups[g]? = some tg' ∧ tg.handles <+: tg'.handles
  nextWaitNo : v.nextWaitNo ≤ v'.nextWaitNo

/-- The task is not resumed, and its body does not leave the stack. -/
def View.Rests (v v' : View) (id : TaskID) : Prop :=
  (id ∉ v'.bodies → id ∉ v.bodies) ∧ ∀ p ∈ v'.wakes, p.2.taskId = id → p ∈ v.wakes

lemma View.Rests.of_eq (hbodies : v'.bodies = v.bodies) (hwakes : v'.wakes = v.wakes) :
    v.Rests v' id :=
  ⟨fun hid => hbodies ▸ hid, fun _ hw _ => hwakes ▸ hw⟩

lemma Extends.of_eq (hkind : l'.kind = l.kind) (hgroups : l'.groups = l.groups)
    (hnamed : ∀ e, l.kind e = some .eventHandleForJFork → v.named e = false → v'.named e = false)
    (hno : v.nextWaitNo ≤ v'.nextWaitNo) : Extends l l' v v' := by
  refine ⟨fun e k hk => hkind ▸ hk, hnamed, fun g tg htg => ⟨tg, ?_, List.prefix_rfl⟩, hno⟩
  rw [hgroups]
  exact htg

lemma Drained.mono {left : List EventID} {drainedUpTo : Nat} (h : Drained l v left g drainedUpTo)
    (hgroups : ∀ tg ∈ l.groups, ∀ e ∈ tg.handles, l.kind e = some .eventHandleForJFork)
    (hext : Extends l l' v v') : Drained l' v' left g drainedUpTo := by
  obtain ⟨tg, htg, hle, hall⟩ := h
  obtain ⟨tg', htg', hpre⟩ := hext.groups g tg htg
  refine ⟨tg', htg', hle.trans hpre.length_le, fun e he => ?_⟩
  obtain ⟨t, ht⟩ := hpre
  rw [← ht, List.take_append_of_le_length hle] at he
  have hk := hgroups tg (List.mem_of_getElem? htg) e (List.mem_of_mem_take he)
  exact (hall e he).imp_right (hext.named e hk)

lemma Drained.of_left {left left' : List EventID} {drainedUpTo : Nat}
    (h : Drained l v left g drainedUpTo)
    (hleft : ∀ e ∈ left, e ∈ left' ∨ v.named e = false) : Drained l v left' g drainedUpTo := by
  obtain ⟨tg, htg, hle, hall⟩ := h
  refine ⟨tg, htg, hle, fun e he => ?_⟩
  rcases hall e he with hmem | hnamed
  · exact hleft e hmem
  · exact .inr hnamed

lemma Busy.mono (h : Busy l v id ctl)
    (hgroups : ∀ tg ∈ l.groups, ∀ e ∈ tg.handles, l.kind e = some .eventHandleForJFork)
    (hext : Extends l l' v v') (hrests : v.Rests v' id) : Busy l' v' id ctl := by
  cases ctl with
  | join st caller =>
    obtain ⟨hj, hc⟩ := h
    refine ⟨⟨fun e he => hext.kind e _ (hj.kind e he), fun e he => ?_, hj.nodup, hj.left, hj.cnt,
      fun hid => hj.suspended (hrests.1 hid)⟩, ?_⟩
    · exact (hj.vec e he).imp_right (hext.named e (hj.kind e he))
    · cases caller with
      | user => trivial
      | joinAll g drainedUpTo => exact hc.mono hgroups hext
  | joinAll g drainedUpTo => exact Drained.mono h hgroups hext
  | joinAny ehdlVec first =>
    obtain ⟨hnodup, hkind, hle, hwakes⟩ := h
    exact ⟨hnodup, fun e he => hext.kind e _ (hkind e he), hle.trans hext.nextWaitNo,
      fun w hw hid => hwakes w (hrests.2 w hw hid) hid⟩
  | jfork e g =>
    refine ⟨hext.kind e _ h.1, fun g' hg => ?_⟩
    obtain ⟨tg', htg', -⟩ := hext.groups g' _ (List.getElem?_eq_getElem (h.2 g' hg))
    exact (List.getElem?_eq_some_iff.mp htg').1
  | user | await | wait e | done => trivial

lemma Handles.mono (h : Handles l log v) (hkind : l'.kind = l.kind)
    (hhandleOf : l'.handleOf = l.handleOf) (hgroups : l'.groups = l.groups)
    (hctl : ∀ id e g, l'.ctl id = some (.jfork e g) → l.ctl id = some (.jfork e g))
    (hlisted : v'.listed = v.listed) (hnext : v'.nextEventId = v.nextEventId)
    (hreturned : ∀ e, .returned e ∈ log → .returned e ∈ log')
    (hnamed : ∀ e, l.kind e = some .eventHandleForJFork → v'.named e = false →
      v.named e = false ∨ .returned e ∈ log')
    (hgrouped : ∀ g e, .grouped g e ∈ log' → .grouped g e ∈ log) : Handles l' log' v' := by
  refine ⟨?_, ?_, ?_, ?_, ?_, ?_, ?_, ?_⟩
  · rw [hkind, hlisted, hnext]
    exact h.kind
  · rw [hkind, hhandleOf]
    exact h.handleOf
  · intro e hf
    rw [Finished, hkind] at hf
    rcases hnamed e hf.1 hf.2 with hname | hret
    · exact hreturned e (h.returned e ⟨hf.1, hname⟩)
    · exact hret
  · rw [hgroups]
    exact h.nodup
  · rw [hgroups, hkind]
    exact h.groups
  · rw [hgroups]
    intro id e g hc
    exact h.apart id e g (hctl id e g hc)
  · intro id id' e g g' hc hc'
    exact h.unique id id' e g g' (hctl id e g hc) (hctl id' e g' hc')
  · rw [hgroups]
    intro g e hmem
    exact h.grouped g e (hgrouped g e hmem)

/-! ### A task goes on -/

def Library.setCtl (l : Library) (id : TaskID) (ctl : Ctl) : Library :=
  { l with ctl := Function.update l.ctl id (some ctl) }

lemma awaits_setCtl (l : Library) (id : TaskID) (ctl : Ctl) :
    (l.setCtl id ctl).awaits = Function.update l.awaits id fun e => ctl.awaits e := by
  funext id' e
  by_cases hid : id' = id
  · subst hid
    simp [Library.awaits, Library.setCtl]
  · simp [Library.awaits, Library.setCtl, hid]

lemma awaits_eq_false (hctl : l.ctl id = none) (e : EventID) : l.awaits id e = false := by
  simp [Library.awaits, hctl]

lemma exists_of_awaits (h : l.awaits id e = true) :
    ∃ ctl, l.ctl id = some ctl ∧ ctl.awaits e = true := by
  unfold Library.awaits at h
  cases hctl : l.ctl id with
  | none => simp [hctl] at h
  | some ctl => exact ⟨ctl, rfl, by simpa [hctl] using h⟩

lemma awaits_of_ctl (hctl : l.ctl id = some ctl) (e : EventID) : l.awaits id e = ctl.awaits e := by
  simp [Library.awaits, hctl]

/-- The awaited events stay when a task passes from one point to another where it awaits nothing. -/
lemma awaits_setCtl_of_false (hout : ∀ e, l.awaits id e = false)
    (hctl : ∀ e, ctl.awaits e = false) : (l.setCtl id ctl).awaits = l.awaits := by
  rw [awaits_setCtl]
  refine Function.update_eq_self_iff.mpr ?_
  funext e
  rw [hctl e, hout e]

lemma ctl_setCtl_of_jfork {e : EventID} {g : Option GroupID} {id' : TaskID}
    (hctl : ∀ e g, ctl ≠ .jfork e g) (h : (l.setCtl id ctl).ctl id' = some (.jfork e g)) :
    l.ctl id' = some (.jfork e g) := by
  by_cases hid : id' = id
  · subst hid
    simp only [Library.setCtl, Function.update_self, Option.some.injEq] at h
    exact absurd h (hctl e g)
  · simpa [Library.setCtl, hid] using h

lemma Callbacks.update {ctls : TaskID → Option Ctl} (h : Callbacks ctls v)
    (hnot : ctls id ≠ some .await) (hcb : v'.callbacks = v.callbacks)
    (hknown : ∀ id', v.known id' = true → v'.known id' = true) (hid : v'.known id = true) :
    Callbacks (Function.update ctls id (some ctl)) v' := by
  refine ⟨?_, ?_, ?_⟩
  · rw [hcb]
    exact h.nodup
  · rw [hcb]
    intro id' hmem
    have hne : id' ≠ id := by
      rintro rfl
      exact hnot (h.await id' hmem)
    rw [Function.update_of_ne hne]
    exact h.await id' hmem
  · intro id' hc
    by_cases hne : id' = id
    · subst hne
      exact hid
    · rw [Function.update_of_ne hne] at hc
      exact hknown id' (h.known id' hc)

namespace Inv

lemma of_extends (h : Inv l log v) (hext : Extends l l' v v')
    (tokens : Tokens l'.awaits l'.kind v') (handles : Handles l' log' v')
    (callbacks : Callbacks l'.ctl v')
    (hbusy : ∀ id ctl, l'.ctl id = some ctl →
      l.ctl id = some ctl ∧ v.Rests v' id ∨ Busy l' v' id ctl) : Inv l' log' v' := by
  refine ⟨tokens, handles, callbacks, fun id ctl hctl => ?_⟩
  rcases hbusy id ctl hctl with ⟨hold, hrests⟩ | hnew
  · exact (h.busy id ctl hold).mono h.handles.groups hext hrests
  · exact hnew

lemma record (h : Inv l log v) {ev : Ev} (hgrouped : ∀ g e, ev ≠ .grouped g e) :
    Inv l (ev :: log) v := by
  refine ⟨h.tokens, ?_, h.callbacks, h.busy⟩
  refine h.handles.mono rfl rfl rfl (fun _ _ _ hc => hc) rfl rfl
    (fun e he => List.mem_cons_of_mem ev he) (fun e _ hname => .inl hname) ?_
  intro g e hmem
  rcases List.mem_cons.mp hmem with heq | hmem
  · exact absurd heq.symm (hgrouped g e)
  · exact hmem

/-! ### Events -/

lemma kind_eq_none (h : Inv l log v) (hle : v.nextEventId ≤ e) : l.kind e = none := by
  by_contra hk
  exact absurd (h.handles.kind e hk).2 (Nat.not_lt.mpr hle)

lemma extends_addEvent (hnew : l.kind e = none) (k : Kind) :
    Extends l { l with kind := Function.update l.kind e (some k) } v (v.addEvent e) := by
  have hne : ∀ e' k', l.kind e' = some k' → e' ≠ e := by
    rintro e' k' hk rfl
    rw [hnew] at hk
    cases hk
  refine ⟨?_, ?_, fun g tg htg => ⟨tg, htg, List.prefix_rfl⟩, Nat.le_refl _⟩
  · intro e' k' hk
    simpa [hne e' k' hk] using hk
  · intro e' hk hname
    simpa [View.addEvent, hne e' _ hk] using hname

lemma handles_addEvent (h : Inv l log v) (hle : v.nextEventId ≤ e) (k : Kind) :
    Handles { l with kind := Function.update l.kind e (some k) } log (v.addEvent e) := by
  have hext : Extends l _ v (v.addEvent e) := extends_addEvent (h.kind_eq_none hle) k
  refine ⟨?_, ?_, ?_, h.handles.nodup, ?_, h.handles.apart, h.handles.unique, h.handles.grouped⟩
  · intro e' hk
    by_cases he : e' = e
    · subst he
      exact ⟨Function.update_self .., Nat.lt_succ_self e'⟩
    · simp only [Function.update_of_ne he] at hk
      obtain ⟨hlisted, hlt⟩ := h.handles.kind e' hk
      refine ⟨?_, (hlt.trans_le hle).trans (Nat.lt_succ_self e)⟩
      simpa [View.addEvent, he] using hlisted
  · intro id e' he'
    exact hext.kind e' _ (h.handles.handleOf id e' he')
  · intro e' hf
    by_cases he : e' = e
    · subst he
      simp [Finished, View.addEvent] at hf
    · exact h.handles.returned e' (by simpa [Finished, View.addEvent, he] using hf)
  · intro tg htg e' he'
    exact hext.kind e' _ (h.handles.groups tg htg e' he')

lemma newEvent (h : Inv l log v) (hle : v.nextEventId ≤ e) (k : Kind) :
    Inv { l with kind := Function.update l.kind e (some k) } log (v.addEvent e) := by
  have hnew := h.kind_eq_none hle
  refine h.of_extends (extends_addEvent hnew k) (h.tokens.newEvent hnew k)
    (h.handles_addEvent hle k) ?_ fun id ctl hctl => .inl ⟨hctl, .of_eq rfl rfl⟩
  exact ⟨h.callbacks.nodup, h.callbacks.await, h.callbacks.known⟩

lemma removeEvent (h : Inv l log v) (hkind : l.kind e = some .eventHandle) :
    Inv l log { v with named := Function.update v.named e false } := by
  have hname : ∀ e', l.kind e' = some .eventHandleForJFork →
      Function.update v.named e false e' = v.named e' := by
    intro e' hk
    have hne : e' ≠ e := by
      rintro rfl
      rw [hkind] at hk
      cases hk
    exact Function.update_of_ne hne ..
  refine h.of_extends (Extends.of_eq rfl rfl (fun e' hk hn => (hname e' hk).trans hn) (Nat.le_refl _))
    (h.tokens.of_eq rfl rfl rfl rfl hname) ?_
    ⟨h.callbacks.nodup, h.callbacks.await, h.callbacks.known⟩
    fun id ctl hctl => .inl ⟨hctl, .of_eq rfl rfl⟩
  refine h.handles.mono rfl rfl rfl (fun _ _ _ hc => hc) rfl rfl (fun _ he => he) ?_
    fun _ _ hmem => hmem
  intro e' hk hn
  exact .inl ((hname e' hk).symm.trans hn)

lemma of_tokens (h : Inv l log v) (tokens : Tokens l.awaits l.kind v') (hnamed : v'.named = v.named)
    (hlisted : v'.listed = v.listed) (hnext : v'.nextEventId = v.nextEventId)
    (hcb : v'.callbacks = v.callbacks) (hknown : v'.known = v.known)
    (hbodies : v'.bodies = v.bodies) (hno : v'.nextWaitNo = v.nextWaitNo)
    (hwakes : v'.wakes = v.wakes) : Inv l log v' := by
  refine h.of_extends (Extends.of_eq rfl rfl (fun e _ hn => hnamed ▸ hn) hno.ge) tokens ?_ ?_
    fun id ctl hctl => .inl ⟨hctl, .of_eq hbodies hwakes⟩
  · exact h.handles.mono rfl rfl rfl (fun _ _ _ hc => hc) hlisted hnext (fun _ he => he)
      (fun e _ hn => .inl (hnamed ▸ hn)) fun _ _ hmem => hmem
  · exact ⟨hcb ▸ h.callbacks.nodup, hcb ▸ h.callbacks.await, hknown ▸ h.callbacks.known⟩

lemma send (h : Inv l log v) (hkind : l.kind e = some .eventHandle) :
    Inv l log { v with pending := v.pending ++ [e] } := by
  refine h.of_tokens (h.tokens.send (by simp [hkind]) fun hk => ?_) rfl rfl rfl rfl rfl rfl rfl rfl
  rw [hkind] at hk
  cases hk

lemma finish (h : Inv l log v) (hkind : l.kind e = some .eventHandleForJFork)
    (hle : v.handled ≤ v.pending.length) (sends : Bool)
    (hsends : sends = false → v.waiting e = []) :
    Inv l (.returned e :: log) { v with
      pending := if sends then v.pending ++ [e] else v.pending
      named := Function.update v.named e false } := by
  have hnamed : ∀ e', v.named e' = false → Function.update v.named e false e' = false := by
    intro e' hn
    by_cases he : e' = e
    · subst he
      exact Function.update_self ..
    · rwa [Function.update_of_ne he]
  refine h.of_extends (Extends.of_eq rfl rfl (fun e' _ hn => hnamed e' hn) (Nat.le_refl _))
    (h.tokens.finish hkind hle sends hsends) ?_
    ⟨h.callbacks.nodup, h.callbacks.await, h.callbacks.known⟩
    fun id ctl hctl => .inl ⟨hctl, .of_eq rfl rfl⟩
  refine h.handles.mono rfl rfl rfl (fun _ _ _ hc => hc) rfl rfl
    (fun e' he => List.mem_cons_of_mem _ he) ?_ fun g e' hmem => by simpa using hmem
  intro e' _ hn
  by_cases he : e' = e
  · subst he
    exact .inr List.mem_cons_self
  · exact .inl (by simpa [he] using hn)

/-! ### Tasks -/

section Tasks

variable {c : Ctl} {bodies : List TaskID} {top : Option TaskID} {es : List EventID}

lemma ne_await_of_awaits (hc : c.awaits e = true) : c ≠ .await := by
  rintro rfl
  cases hc

lemma of_setCtl (h : Inv l log v) (hctl : l.ctl id = some c) (hawait : c ≠ .await)
    (hjfork : ∀ e g, ctl ≠ .jfork e g) (tokens : Tokens (l.setCtl id ctl).awaits l.kind v')
    (hnamed : v'.named = v.named) (hlisted : v'.listed = v.listed)
    (hnext : v'.nextEventId = v.nextEventId) (hcb : v'.callbacks = v.callbacks)
    (hknown : v'.known = v.known) (hno : v.nextWaitNo ≤ v'.nextWaitNo)
    (hrests : ∀ id' ≠ id, v.Rests v' id') (hbusy : Busy l v' id ctl) :
    Inv (l.setCtl id ctl) log v' := by
  have hext : Extends l (l.setCtl id ctl) v v' :=
    Extends.of_eq rfl rfl (fun e _ hn => hnamed ▸ hn) hno
  refine h.of_extends hext tokens ?_ ?_ ?_
  · exact h.handles.mono rfl rfl rfl (fun _ _ _ hc => ctl_setCtl_of_jfork hjfork hc) hlisted hnext
      (fun _ he => he) (fun e _ hn => .inl (hnamed ▸ hn)) fun _ _ hmem => hmem
  · refine h.callbacks.update ?_ hcb (fun id' hk => hknown ▸ hk) ?_
    · rw [hctl]
      exact fun heq => hawait (Option.some.inj heq)
    · rw [hknown]
      exact h.callbacks.known id (by simp [hctl])
  · intro id' ctl' hctl'
    by_cases hid : id' = id
    · subst hid
      have heq : ctl = ctl' := by simpa [Library.setCtl] using hctl'
      subst heq
      refine .inr (hbusy.mono h.handles.groups ?_ (.of_eq rfl rfl))
      exact Extends.of_eq rfl rfl (fun _ _ hn => hn) (Nat.le_refl _)
    · exact .inl ⟨by simpa [Library.setCtl, hid] using hctl', hrests id' hid⟩

lemma setCtl (h : Inv l log v) (hctl : l.ctl id = some c) (hawait : c ≠ .await)
    (hout : ∀ e, c.awaits e = false) (hin : ∀ e, ctl.awaits e = false)
    (hjfork : ∀ e g, ctl ≠ .jfork e g) (hbodies : ∀ id' ≠ id, id' ∉ bodies → id' ∉ v.bodies)
    (hbusy : Busy l { v with bodies := bodies, top := top } id ctl) :
    Inv (l.setCtl id ctl) log { v with bodies := bodies, top := top } := by
  refine h.of_setCtl hctl hawait hjfork ?_ rfl rfl rfl rfl rfl (Nat.le_refl _)
    (fun id' hid => ⟨hbodies id' hid, fun _ hw _ => hw⟩) hbusy
  rw [awaits_setCtl_of_false (fun e => (awaits_of_ctl hctl e).trans (hout e)) hin]
  exact h.tokens.of_eq rfl rfl rfl rfl fun _ _ => rfl

lemma goOn (h : Inv l log v) (hctl : l.ctl id = some c) (hawait : c ≠ .await)
    (hout : ∀ e, c.awaits e = false) (hin : ∀ e, ctl.awaits e = false)
    (hjfork : ∀ e g, ctl ≠ .jfork e g) (hbusy : Busy l v id ctl) : Inv (l.setCtl id ctl) log v := by
  have hbodies : ∀ id' ≠ id, id' ∉ v.bodies → id' ∉ v.bodies := fun _ _ hmem => hmem
  exact h.setCtl hctl hawait hout hin hjfork hbodies hbusy

lemma suspend (h : Inv l log v) (hctl : l.ctl id = some ctl)
    (hbodies : ∀ id' ≠ id, id' ∉ bodies → id' ∉ v.bodies)
    (hbusy : Busy l { v with bodies := bodies, top := top } id ctl) :
    Inv l log { v with bodies := bodies, top := top } := by
  refine h.of_extends (Extends.of_eq rfl rfl (fun _ _ hn => hn) (Nat.le_refl _))
    (h.tokens.of_eq rfl rfl rfl rfl fun _ _ => rfl) ?_
    ⟨h.callbacks.nodup, h.callbacks.await, h.callbacks.known⟩ ?_
  · exact h.handles.mono rfl rfl rfl (fun _ _ _ hc => hc) rfl rfl (fun _ he => he)
      (fun _ _ hn => .inl hn) fun _ _ hmem => hmem
  · intro id' ctl' hctl'
    by_cases hid : id' = id
    · subst hid
      rw [hctl] at hctl'
      cases hctl'
      exact .inr hbusy
    · exact .inl ⟨hctl', hbodies id' hid, fun _ hw _ => hw⟩

lemma register (h : Inv l log v) (hctl : l.ctl id = some c) (hawait : c ≠ .await)
    (hout : ∀ e, c.awaits e = false) (hes : es.Nodup)
    (hin : ∀ e, ctl.awaits e = true → e ∈ es ∧ l.kind e ≠ none ∧ ¬ Finished l.kind v.named e)
    (hrest : ∀ e ∈ es, ctl.awaits e = true ∨ Finished l.kind v.named e)
    (hjfork : ∀ e g, ctl ≠ .jfork e g) (hbodies : ∀ id' ≠ id, id' ∉ bodies → id' ∉ v.bodies)
    (hbusy : Busy l { v with bodies := bodies, nextWaitNo := v.nextWaitNo + es.length } id ctl) :
    Inv (l.setCtl id ctl) log
      { es.foldl (View.addWaiter id) v with bodies := bodies, top := top } := by
  have htokens := h.tokens.register hes (fun e => (awaits_of_ctl hctl e).trans (hout e)) hin hrest
  rw [addWaiters] at htokens ⊢
  refine h.of_setCtl hctl hawait hjfork ?_ rfl rfl rfl rfl rfl (Nat.le_add_right ..)
    (fun id' hid => ⟨hbodies id' hid, fun _ hw _ => hw⟩) ?_
  case refine_2 =>
    refine hbusy.mono h.handles.groups ?_ (.of_eq rfl rfl)
    exact Extends.of_eq rfl rfl (fun _ _ hn => hn) (Nat.le_refl _)
  rw [awaits_setCtl]
  exact htokens.of_eq rfl rfl rfl rfl fun _ _ => rfl

lemma await (h : Inv l log v) (hctl : l.ctl id = some .user)
    (hbodies : ∀ id' ≠ id, id' ∉ bodies → id' ∉ v.bodies) :
    Inv (l.setCtl id .await) log
      { v with callbacks := v.callbacks ++ [id], bodies := bodies, top := top } := by
  have hnot : id ∉ v.callbacks := by
    intro hmem
    rw [h.callbacks.await id hmem] at hctl
    cases hctl
  have hset : Inv (l.setCtl id .await) log { v with bodies := bodies, top := top } :=
    h.setCtl hctl (by simp) (fun _ => rfl) (fun _ => rfl) (by simp) hbodies trivial
  refine hset.of_extends (Extends.of_eq rfl rfl (fun _ _ hn => hn) (Nat.le_refl _))
    (hset.tokens.of_eq rfl rfl rfl rfl fun _ _ => rfl) ?_ ?_
    fun id' ctl' hctl' => .inl ⟨hctl', .of_eq rfl rfl⟩
  · exact hset.handles.mono rfl rfl rfl (fun _ _ _ hc => hc) rfl rfl (fun _ he => he)
      (fun _ _ hn => .inl hn) fun _ _ hmem => hmem
  · refine ⟨?_, ?_, hset.callbacks.known⟩
    · exact List.nodup_append.mpr ⟨h.callbacks.nodup, List.nodup_singleton id, by
        rintro a ha b hb rfl
        exact hnot (List.mem_singleton.mp hb ▸ ha)⟩
    · intro id' hmem
      rcases List.mem_append.mp hmem with hmem | hmem
      · exact hset.callbacks.await id' hmem
      · rw [List.mem_singleton.mp hmem]
        simp [Library.setCtl]

lemma fire (h : Inv l log v) {n : Nat} (hn : v.callbacks[n]? = some id) :
    Inv (l.setCtl id .user) log
      (View.addBody { v with callbacks := v.callbacks.eraseIdx n } id) := by
  have hctl := h.callbacks.await id (List.mem_of_getElem? hn)
  have hawaits : (l.setCtl id .user).awaits = l.awaits :=
    awaits_setCtl_of_false (fun e => awaits_of_ctl hctl e) fun _ => rfl
  have hnot : ∀ id' ∈ v.callbacks.eraseIdx n, id' ≠ id := by
    rintro id' hmem rfl
    obtain ⟨i, hi, hget⟩ := List.mem_eraseIdx_iff_getElem?.mp hmem
    obtain ⟨hlt, -⟩ := List.getElem?_eq_some_iff.mp hget
    exact hi ((List.getElem?_inj hlt h.callbacks.nodup).mp (hget.trans hn.symm))
  refine h.of_extends (Extends.of_eq rfl rfl (fun _ _ hn => hn) (Nat.le_refl _)) ?_ ?_ ?_ ?_
  · rw [hawaits]
    exact h.tokens.of_eq rfl rfl rfl rfl fun _ _ => rfl
  · exact h.handles.mono rfl rfl rfl (fun _ _ _ hc => ctl_setCtl_of_jfork (by simp) hc) rfl rfl
      (fun _ he => he) (fun _ _ hn => .inl hn) fun _ _ hmem => hmem
  · refine ⟨h.callbacks.nodup.eraseIdx n, ?_, ?_⟩
    · intro id' hmem
      have hold := h.callbacks.await id' (List.mem_of_mem_eraseIdx hmem)
      simpa [Library.setCtl, hnot id' hmem] using hold
    · intro id' hc
      refine h.callbacks.known id' ?_
      by_cases hid : id' = id
      · subst hid
        simp [hctl]
      · simpa [Library.setCtl, hid] using hc
  · intro id' ctl' hctl'
    by_cases hid : id' = id
    · subst hid
      have heq : .user = ctl' := by simpa [Library.setCtl] using hctl'
      subst heq
      exact .inr trivial
    · refine .inl ⟨by simpa [Library.setCtl, hid] using hctl', ?_, fun _ hw _ => hw⟩
      simp [View.addBody, hid]

/-! ### The wake-up loop -/

section Loop

variable {ids : List TaskID} {rest : List (EventID × List TaskID)} {w : Waiter}

lemma rests_wake {id' : TaskID} (hid : w.taskId ≠ id') {taken : List (EventID × List TaskID)} :
    v.Rests (View.addBody { v with taken := taken, wakes := (e, w) :: v.wakes } id) id' := by
  refine ⟨fun hmem hold => hmem (List.mem_cons_of_mem id hold), fun p hp heq => ?_⟩
  rcases List.mem_cons.mp hp with rfl | hp
  · exact absurd heq hid
  · exact hp

lemma wake (h : Inv l log v) (htaken : v.taken = (e, id :: ids) :: rest)
    (hA : ∀ e', ctl.awaits e' = true ↔ l.awaits id e' = true ∧ e' ≠ e)
    (hjfork : ∀ e g, ctl ≠ .jfork e g)
    (hbusy : Busy l (View.addBody { v with taken := (e, ids) :: rest, wakes := (e, w) :: v.wakes } id)
      id ctl) (hw : w.taskId = id) :
    Inv (l.setCtl id ctl) log
      (View.addBody { v with taken := (e, ids) :: rest, wakes := (e, w) :: v.wakes } id) := by
  have haw : l.awaits id e = true := h.tokens.taken (e, id :: ids) (by simp [htaken]) id (by simp)
  obtain ⟨c, hctl, hc⟩ := exists_of_awaits haw
  refine h.of_setCtl hctl (ne_await_of_awaits hc) hjfork ?_ rfl rfl rfl rfl rfl (Nat.le_refl _)
    (fun id' hid => rests_wake fun heq => hid (heq.symm.trans hw)) hbusy
  rw [awaits_setCtl]
  exact (h.tokens.wake htaken hA).of_eq rfl rfl rfl rfl fun _ _ => rfl

section WakeAny

variable {ehdlVec : List EventID} {first : Nat} (h : Inv l log v)
  (htaken : v.taken = (e, id :: ids) :: rest) (hctl : l.ctl id = some (.joinAny ehdlVec first))
  (hids : id ∉ ids) (hrest : ∀ p ∈ rest, id ∉ p.2)

include h htaken hctl hids hrest

/-- A task in `join_any` that is resumed awaits the other handles, with its places on their lists. -/
lemma tokens_wakeAny : Tokens (Function.update l.awaits id fun e' => decide (e' ∈ ehdlVec ∧ e' ≠ e))
    l.kind { v with taken := (e, ids) :: rest } ∧
    ∀ p ∈ (e, ids) :: rest, id ∉ p.2 := by
  refine ⟨h.tokens.wake htaken fun e' => ?_, ?_⟩
  · rw [awaits_of_ctl hctl]
    simp [Ctl.awaits]
  · intro p hp
    rcases List.mem_cons.mp hp with rfl | hp
    · exact hids
    · exact hrest p hp

/-- A loop resumes a task in `join_any`, which leaves the other lists. -/
lemma wakeAny (hw : w.taskId = id) :
    Inv (l.setCtl id .user) log ((ehdlVec.filter fun e' => decide (e' ≠ e)).foldl
      (View.dropWaiter id)
      (View.addBody { v with taken := (e, ids) :: rest, wakes := (e, w) :: v.wakes } id)) := by
  obtain ⟨hnodup, -⟩ := h.busy id _ hctl
  have hes : (ehdlVec.filter fun e' => decide (e' ≠ e)).Nodup := hnodup.filter _
  obtain ⟨hwake, htaken'⟩ := tokens_wakeAny h htaken hctl hids hrest
  have hleave := hwake.leave hes (fun e' => by simp) htaken'
  rw [Function.update_idem] at hleave
  rw [dropWaiters hes] at hleave ⊢
  refine h.of_setCtl hctl (by simp) (by simp) ?_ rfl rfl rfl rfl rfl (Nat.le_refl _) ?_ trivial
  · rw [awaits_setCtl]
    exact hleave.of_eq rfl rfl rfl rfl fun _ _ => rfl
  · intro id' hid
    have hrests : v.Rests (View.addBody { v with
        taken := (e, ids) :: rest, wakes := (e, w) :: v.wakes } id) id' :=
      rests_wake fun heq => hid (heq.symm.trans hw)
    exact ⟨hrests.1, hrests.2⟩

lemma not_mem_wakeAny : ∀ e' ∈ ehdlVec, e' ≠ e →
    id ∉ View.waiting ((ehdlVec.filter fun e' => decide (e' ≠ e)).foldl (View.dropWaiter id)
      (View.addBody { v with taken := (e, ids) :: rest, wakes := (e, w) :: v.wakes } id)) e' := by
  intro e' he' hne
  obtain ⟨hnodup, -⟩ := h.busy id _ hctl
  have hmem : e' ∈ ehdlVec.filter fun e' => decide (e' ≠ e) :=
    List.mem_filter.mpr ⟨he', decide_eq_true hne⟩
  obtain ⟨hwake, htaken'⟩ := tokens_wakeAny h htaken hctl hids hrest
  have hnot := hwake.not_mem_dropped (e := e') (by simp [he', hne]) htaken'
  rw [dropWaiters (hnodup.filter _)]
  show id ∉ if _ then _ else _
  rw [if_pos hmem]
  exact hnot

end WakeAny

lemma next (h : Inv l log v) (htaken : v.taken = (e, []) :: rest) :
    Inv l log { v with taken := rest } :=
  h.of_tokens (h.tokens.next htaken) rfl rfl rfl rfl rfl rfl rfl rfl

lemma take (h : Inv l log v) {n : Nat} (he : v.pending[n]? = some e) (hn : n ≤ v.handled)
    (hlist : l.kind e = some .eventHandleForJFork → ∀ id ∈ v.waiting e, l.awaits id e = true) :
    Inv l log { v with
      taken := (e, v.waiting e) :: v.taken
      waiting := Function.update v.waiting e []
      handled := max v.handled (n + 1) } := by
  refine h.of_tokens (h.tokens.take he hn fun id hid => ?_) rfl rfl rfl rfl rfl rfl rfl rfl
  rcases h.tokens.waits e id hid with haw | hfin
  · exact haw
  · exact hlist hfin.1 id hid

lemma close (h : Inv l log v) (hall : v.pending.drop v.handled = []) (t : Option TaskID) :
    Inv l log { v with pending := [], handled := 0, top := t } :=
  h.of_tokens (h.tokens.close hall t) rfl rfl rfl rfl rfl rfl rfl rfl

end Loop

/-! ### `jfork` and groups -/

lemma fork (h : Inv l log v) (hknown : v.known id = false) :
    Inv (l.setCtl id .user) log
      (View.addBody { v with known := Function.update v.known id true } id) := by
  have hctl : l.ctl id = none := by
    by_contra hc
    rw [h.callbacks.known id hc] at hknown
    cases hknown
  have hawaits : (l.setCtl id .user).awaits = l.awaits :=
    awaits_setCtl_of_false (fun e => awaits_eq_false hctl e) fun _ => rfl
  refine h.of_extends (Extends.of_eq rfl rfl (fun _ _ hn => hn) (Nat.le_refl _)) ?_ ?_ ?_ ?_
  · rw [hawaits]
    exact h.tokens.of_eq rfl rfl rfl rfl fun _ _ => rfl
  · exact h.handles.mono rfl rfl rfl (fun _ _ _ hc => ctl_setCtl_of_jfork (by simp) hc) rfl rfl
      (fun _ he => he) (fun _ _ hn => .inl hn) fun _ _ hmem => hmem
  · refine h.callbacks.update (by simp [hctl]) rfl ?_ (Function.update_self ..)
    intro id' hk
    by_cases hid : id' = id
    · subst hid
      exact Function.update_self ..
    · simpa [View.addBody, hid] using hk
  · intro id' ctl' hctl'
    by_cases hid : id' = id
    · subst hid
      have heq : .user = ctl' := by simpa [Library.setCtl] using hctl'
      subst heq
      exact .inr trivial
    · refine .inl ⟨by simpa [Library.setCtl, hid] using hctl', ?_, fun _ hw _ => hw⟩
      simp [View.addBody, hid]

lemma newHandle (h : Inv l log v) (hctl : l.ctl id = some .user) (hle : v.nextEventId ≤ e)
    (child : TaskID) {g : Option GroupID} (hg : ∀ g', g = some g' → g' < l.groups.length) :
    Inv (Library.setCtl { l with
        kind := Function.update l.kind e (some .eventHandleForJFork)
        handleOf := Function.update l.handleOf child (some e) } id (.jfork e g)) log
      (v.addEvent e) := by
  have hnew := h.kind_eq_none hle
  have h₁ := h.newEvent hle .eventHandleForJFork
  have hself : Function.update l.kind e (some Kind.eventHandleForJFork) e =
      some .eventHandleForJFork := Function.update_self ..
  have hawaits : (l.setCtl id (.jfork e g)).awaits = l.awaits :=
    awaits_setCtl_of_false (fun e => awaits_of_ctl hctl e) fun _ => rfl
  have hold : ∀ id' e' g', (l.setCtl id (.jfork e g)).ctl id' = some (.jfork e' g') →
      id' = id ∧ e' = e ∨ l.ctl id' = some (.jfork e' g') ∧ e' ≠ e := by
    intro id' e' g' hc
    by_cases hid : id' = id
    · subst hid
      simp only [Library.setCtl, Function.update_self, Option.some.injEq, Ctl.jfork.injEq] at hc
      exact .inl ⟨rfl, hc.1.symm⟩
    · have hc' : l.ctl id' = some (.jfork e' g') := by simpa [Library.setCtl, hid] using hc
      refine .inr ⟨hc', ?_⟩
      rintro rfl
      have hk := (h.busy id' _ hc').1
      rw [hnew] at hk
      cases hk
  refine h₁.of_extends ⟨fun _ _ hk => hk, fun _ _ hn => hn, fun g tg htg =>
    ⟨tg, htg, List.prefix_rfl⟩, Nat.le_refl _⟩ ?_ ?_ ?_ ?_
  · have htokens := h₁.tokens
    exact hawaits.symm ▸ htokens
  · refine ⟨h₁.handles.kind, ?_, h₁.handles.returned, h₁.handles.nodup, h₁.handles.groups, ?_, ?_,
      h₁.handles.grouped⟩
    · intro id' e' he'
      by_cases hid : id' = child
      · subst hid
        have heq : e = e' := by simpa [Library.setCtl] using he'
        subst heq
        exact hself
      · refine h₁.handles.handleOf id' e' ?_
        simpa [Library.setCtl, hid] using he'
    · intro id' e' g' hc tg htg hmem
      rcases hold id' e' g' hc with ⟨-, rfl⟩ | ⟨hc', -⟩
      · have hk := h.handles.groups tg htg e' hmem
        rw [hnew] at hk
        cases hk
      · exact h.handles.apart id' e' g' hc' tg htg hmem
    · intro id₁ id₂ e' g₁ g₂ hc₁ hc₂
      rcases hold id₁ e' g₁ hc₁ with ⟨rfl, he⟩ | ⟨hc₁', hne⟩
      · rcases hold id₂ e' g₂ hc₂ with ⟨rfl, -⟩ | ⟨-, hne⟩
        · rfl
        · exact absurd he hne
      · rcases hold id₂ e' g₂ hc₂ with ⟨-, he⟩ | ⟨hc₂', -⟩
        · exact absurd he hne
        · exact h.handles.unique id₁ id₂ e' g₁ g₂ hc₁' hc₂'
  · exact h₁.callbacks.update (by simp [hctl]) rfl (fun _ hk => hk)
      (h₁.callbacks.known id (by simp [hctl]))
  · intro id' ctl' hctl'
    by_cases hid : id' = id
    · subst hid
      have heq : .jfork e g = ctl' := by simpa [Library.setCtl] using hctl'
      subst heq
      exact .inr ⟨hself, hg⟩
    · exact .inl ⟨by simpa [Library.setCtl, hid] using hctl', .of_eq rfl rfl⟩

lemma addHandle (h : Inv l log v) {g₀ : Option GroupID} (hctl : l.ctl id = some (.jfork e g₀))
    (hg : g < l.groups.length) :
    Inv { l with
        ctl := Function.update l.ctl id (some .user)
        groups := l.groups.modify g fun tg => { tg with handles := tg.handles ++ [e] } }
      (.grouped g e :: log) v := by
  have hawaits : (l.setCtl id .user).awaits = l.awaits :=
    awaits_setCtl_of_false (fun e => awaits_of_ctl hctl e) fun _ => rfl
  have hmem : ∀ tg ∈ l.groups.modify g fun tg => { tg with handles := tg.handles ++ [e] },
      tg ∈ l.groups ∨ ∃ tg₀ ∈ l.groups, tg.handles = tg₀.handles ++ [e] := by
    intro tg htg
    obtain ⟨i, hi⟩ := List.mem_iff_getElem?.mp htg
    rw [List.getElem?_modify] at hi
    obtain ⟨tg₀, htg₀, heq⟩ := Option.map_eq_some_iff.mp hi
    have hin := List.mem_of_getElem? htg₀
    split_ifs at heq
    · exact .inr ⟨tg₀, hin, heq ▸ rfl⟩
    · exact .inl (heq ▸ hin)
  have hgroups : ∀ (i : GroupID) tg, l.groups[i]? = some tg →
      ∃ tg', (l.groups.modify g fun tg => { tg with handles := tg.handles ++ [e] })[i]? = some tg' ∧
        tg.handles <+: tg'.handles := by
    intro i tg htg
    rw [List.getElem?_modify, htg]
    show ∃ tg', some (if g = i then _ else tg) = some tg' ∧ _
    split_ifs
    · exact ⟨_, rfl, List.prefix_append ..⟩
    · exact ⟨tg, rfl, List.prefix_rfl⟩
  have hctl' : ∀ id' e' g', Function.update l.ctl id (some .user) id' = some (.jfork e' g') →
      id' ≠ id ∧ l.ctl id' = some (.jfork e' g') := by
    intro id' e' g' hc
    have hne : id' ≠ id := by
      rintro rfl
      simp at hc
    exact ⟨hne, by simpa [hne] using hc⟩
  obtain ⟨hkind, -⟩ := h.busy id _ hctl
  refine h.of_extends ⟨fun _ _ hk => hk, fun _ _ hn => hn, hgroups, Nat.le_refl _⟩ ?_ ?_ ?_ ?_
  · exact hawaits.symm ▸ h.tokens
  · refine ⟨h.handles.kind, h.handles.handleOf, ?_, ?_, ?_, ?_, ?_, ?_⟩
    · exact fun e' hf => List.mem_cons_of_mem _ (h.handles.returned e' hf)
    · intro tg htg
      rcases hmem tg htg with hin | ⟨tg₀, hin, heq⟩
      · exact h.handles.nodup tg hin
      · rw [heq, ← List.concat_eq_append]
        exact (h.handles.nodup tg₀ hin).concat (h.handles.apart id e g₀ hctl tg₀ hin)
    · intro tg htg e' he'
      rcases hmem tg htg with hin | ⟨tg₀, hin, heq⟩
      · exact h.handles.groups tg hin e' he'
      · rw [heq] at he'
        rcases List.mem_append.mp he' with he' | he'
        · exact h.handles.groups tg₀ hin e' he'
        · rw [List.mem_singleton.mp he']
          exact hkind
    · intro id' e' g' hc tg htg he'
      obtain ⟨hne, hc'⟩ := hctl' id' e' g' hc
      rcases hmem tg htg with hin | ⟨tg₀, hin, heq⟩
      · exact h.handles.apart id' e' g' hc' tg hin he'
      · rw [heq] at he'
        rcases List.mem_append.mp he' with he' | he'
        · exact h.handles.apart id' e' g' hc' tg₀ hin he'
        · rw [List.mem_singleton.mp he'] at hc'
          exact hne (h.handles.unique id' id e g' g₀ hc' hctl)
    · intro id₁ id₂ e' g₁ g₂ hc₁ hc₂
      exact h.handles.unique id₁ id₂ e' g₁ g₂ (hctl' _ _ _ hc₁).2 (hctl' _ _ _ hc₂).2
    · intro i e' hin
      rcases List.mem_cons.mp hin with heq | hin
      · cases heq
        refine ⟨{ l.groups[g] with handles := l.groups[g].handles ++ [e] }, ?_, by simp⟩
        simp [List.getElem?_eq_getElem hg]
      · obtain ⟨tg, htg, hmem'⟩ := h.handles.grouped i e' hin
        obtain ⟨tg', htg', hpre⟩ := hgroups i tg htg
        exact ⟨tg', htg', hpre.subset hmem'⟩
  · exact h.callbacks.update (by simp [hctl]) rfl (fun _ hk => hk)
      (h.callbacks.known id (by simp [hctl]))
  · intro id' ctl' hc
    by_cases hid : id' = id
    · subst hid
      have heq : .user = ctl' := by simpa using hc
      subst heq
      exact .inr trivial
    · exact .inl ⟨by simpa [hid] using hc, .of_eq rfl rfl⟩

lemma newGroup (h : Inv l log v) (owner : TaskID) :
    Inv { l with groups := l.groups ++ [⟨[], owner⟩] } log v := by
  have hgroups : ∀ (i : GroupID) tg, l.groups[i]? = some tg →
      (l.groups ++ [⟨[], owner⟩])[i]? = some tg := by
    intro i tg htg
    rw [List.getElem?_append_left (List.getElem?_eq_some_iff.mp htg).1]
    exact htg
  have hmem : ∀ tg ∈ l.groups ++ [⟨[], owner⟩], tg ∈ l.groups ∨ tg.handles = [] := by
    intro tg htg
    rcases List.mem_append.mp htg with htg | htg
    · exact .inl htg
    · exact .inr (List.mem_singleton.mp htg ▸ rfl)
  refine h.of_extends ⟨fun _ _ hk => hk, fun _ _ hn => hn, fun i tg htg =>
    ⟨tg, hgroups i tg htg, List.prefix_rfl⟩, Nat.le_refl _⟩ h.tokens ?_
    ⟨h.callbacks.nodup, h.callbacks.await, h.callbacks.known⟩
    fun id ctl hctl => .inl ⟨hctl, .of_eq rfl rfl⟩
  refine ⟨h.handles.kind, h.handles.handleOf, h.handles.returned, ?_, ?_, ?_, h.handles.unique, ?_⟩
  · intro tg htg
    rcases hmem tg htg with hin | hnil
    · exact h.handles.nodup tg hin
    · simp [hnil]
  · intro tg htg e he
    rcases hmem tg htg with hin | hnil
    · exact h.handles.groups tg hin e he
    · simp [hnil] at he
  · intro id e g hc tg htg
    rcases hmem tg htg with hin | hnil
    · exact h.handles.apart id e g hc tg hin
    · simp [hnil]
  · intro g e hin
    obtain ⟨tg, htg, he⟩ := h.handles.grouped g e hin
    exact ⟨tg, hgroups g tg htg, he⟩

end Tasks

end Inv

end Verilua.Join
