import Verilua.Put.Rules

/-!
# Deferred and immediate writes

A deferred setter writes its value over what the vector buffer of the handle holds, and the flush
hands the buffer over. The single-word and fixed-beat forms leave some words or X/Z bits of the
buffer as they are; they hand over what the immediate form does exactly when those are clear.
-/

namespace Verilua.Put

open TransitionSystem

variable {cfg : Config} {signals : ComplexHandleRaw → Signal} {raw : ComplexHandleRaw}
  {r : Request} {m m' m₁ m₂ m₃ : Machine} {a : Act} {action : Action} {value : Value}

section Values

variable (extend : UInt32 → VecVal) (h : ComplexHandle)

/-- The words that the simulator drives. An integer is its first word, and `extend` says what the
simulator drives above it. -/
def VpiValue.driven (beatNum : Nat) : VpiValue → VpiValue
  | .integer n => .vector (List.ofFn fun i : Fin beatNum => if i.val = 0 then ⟨n, 0⟩ else extend n)
  | v => v

/-- The form with a fixed number of beats is called on handles with that number of beats. -/
def Value.fitsBeats : Value → Prop
  | .valueMultiBeat v => v.length = h.beatNum
  | _ => True

/-- What a deferred setter does not write is already what the immediate form hands over. -/
def Value.leftClear (action : Action) : Value → Prop
  | .value v => ∀ i : Fin h.beatNum,
    if i.val = 0 then (h.putValueVectors (h.beat i)).bval = 0
    else h.putValueVectors (h.beat i) =
      match action with
      | .set => .zero
      | .force => extend v
  | .valueMultiBeat _ => ∀ i : Fin h.beatNum, (h.putValueVectors (h.beat i)).bval = 0
  | _ => True

instance : Decidable (value.leftClear extend h action) :=
  match value with
  | .value _ => inferInstanceAs (Decidable (∀ _, _))
  | .valueMultiBeat _ => inferInstanceAs (Decidable (∀ _, _))
  | .value64 _ | .value64ForceSingle _ | .valueMulti _ | .valueTypedStr .. | .valueStr _ =>
    inferInstanceAs (Decidable True)

/-! ### One word -/

variable {h}

lemma beat_eq_zero_iff {i : Fin h.beatNum} : h.beat i = 0 ↔ i.val = 0 := by
  simp [ComplexHandle.beat, Fin.ext_iff]

lemma words_setAval_eq_iff {v : UInt32} {f : Fin h.beatNum → VecVal} :
    (h.setAval 0 v).words =
        List.ofFn (fun i : Fin h.beatNum => if i.val = 0 then ⟨v, 0⟩ else f i) ↔
      ∀ i : Fin h.beatNum, if i.val = 0 then (h.putValueVectors (h.beat i)).bval = 0
        else h.putValueVectors (h.beat i) = f i := by
  show List.ofFn (fun i : Fin h.beatNum => Function.update h.putValueVectors 0
    { h.putValueVectors 0 with aval := v } (h.beat i)) = _ ↔ _
  rw [List.ofFn_inj, funext_iff]
  refine forall_congr' fun i => ?_
  by_cases hi : i.val = 0
  · have hbeat := beat_eq_zero_iff.mpr hi
    rw [if_pos hi, if_pos hi, hbeat, Function.update_self]
    simp
  · have hbeat := beat_eq_zero_iff.not.mpr hi
    rw [if_neg hi, if_neg hi, Function.update_of_ne hbeat]

lemma fillValue_beat (v : UInt32) (i : Fin h.beatNum) :
    (h.fillValue v).putValueVectors (h.beat i) = if i.val = 0 then ⟨v, 0⟩ else .zero := by
  have hlt : (h.beat i).val < h.beatNum := i.isLt
  by_cases hi : i.val = 0
  · rw [if_pos hi, beat_eq_zero_iff.mpr hi]
    simp [ComplexHandle.fillValue, ComplexHandle.zeroFrom, ComplexHandle.setAval,
      ComplexHandle.setBval]
  · have hpos : 1 ≤ (h.beat i).val := Nat.one_le_iff_ne_zero.mpr hi
    rw [if_neg hi]
    exact if_pos ⟨hpos, hlt⟩

lemma words_fillValue (v : UInt32) : (h.fillValue v).words =
    List.ofFn fun i : Fin h.beatNum => if i.val = 0 then ⟨v, 0⟩ else .zero :=
  congrArg List.ofFn (funext fun i => fillValue_beat (h := h) v i)

/-! ### A fixed number of words -/

lemma words_fillValueMultiBeat_eq_iff {v : List UInt32} (hlen : v.length = h.beatNum) :
    (h.fillValueMultiBeat v).words = v.map (fun w => ⟨w, 0⟩) ↔
      ∀ i : Fin h.beatNum, (h.putValueVectors (h.beat i)).bval = 0 := by
  have himm : v.map (fun w => (⟨w, 0⟩ : VecVal)) =
      List.ofFn fun i : Fin h.beatNum => ⟨v.get (i.cast hlen.symm), 0⟩ :=
    List.ext_getElem (by simp [hlen]) (by simp)
  rw [himm]
  show List.ofFn (fun i : Fin h.beatNum => (h.fillValueMultiBeat v).putValueVectors (h.beat i)) =
    _ ↔ _
  rw [List.ofFn_inj, funext_iff]
  refine forall_congr' fun i => ?_
  have hget : v[(h.beat i).val]? = some (v.get (i.cast hlen.symm)) :=
    List.getElem?_eq_getElem (i.cast hlen.symm).isLt
  simp only [ComplexHandle.fillValueMultiBeat, hget]
  simp

/-! ### All forms -/

/-- What a flush hands over after the deferred form has been accepted. -/
def Value.deferred (h : ComplexHandle) : Value → VpiValue
  | .valueTypedStr t s => .str t.format s
  | .valueStr s => .str (parseValueStr s).2 (parseValueStr s).1
  | value => .vector (value.write h).words

lemma pendingValue_write (value : Value) (h : ComplexHandle) (flag : Option PutFlag) :
    (value.write { h with putValueFlag := flag, putValueFormat := value.format }).pendingValue =
      some (value.deferred h) := by
  cases value with
  | value | value64 | value64ForceSingle | valueMulti | valueMultiBeat => rfl
  | valueTypedStr t s => cases t <;> rfl
  | valueStr s =>
    unfold ComplexHandle.pendingValue Value.deferred Value.write Value.format parseValueStr
    dsimp only
    split_ifs <;> rfl

theorem deferred_eq_imm_iff (hfit : value.fitsBeats h) :
    (value.deferred h).driven extend h.beatNum = (value.imm h action).2.driven extend h.beatNum ↔
      value.leftClear extend h action := by
  cases value with
  | value v =>
    cases action with
    | set =>
      show VpiValue.vector (h.setAval 0 v).words = VpiValue.vector (h.fillValue v).words ↔ _
      rw [VpiValue.vector.injEq, words_fillValue]
      exact words_setAval_eq_iff
    | force =>
      show VpiValue.vector (h.setAval 0 v).words = VpiValue.vector (List.ofFn _) ↔ _
      rw [VpiValue.vector.injEq]
      exact words_setAval_eq_iff
  | valueMultiBeat v =>
    show VpiValue.vector (h.fillValueMultiBeat v).words = VpiValue.vector (v.map _) ↔ _
    rw [VpiValue.vector.injEq]
    exact words_fillValueMultiBeat_eq_iff hfit
  | value64 | value64ForceSingle | valueMulti | valueTypedStr | valueStr =>
    exact iff_of_true rfl trivial

end Values

/-! ### From the request to the flush -/

/-- The action writes to the handle `raw`. -/
def Act.touches (raw : ComplexHandleRaw) : Act → Bool
  | .request raw' _ | .imm raw' _ _ | .releaseImm raw' _ => decide (raw' = raw)
  | _ => false

lemma releaseImm_handle {env : Env} {raw' : ComplexHandleRaw} (hne : raw ≠ raw') :
    (env.releaseImm cfg raw').handles raw = env.handles raw := by
  unfold Env.releaseImm
  dsimp only
  split
  · simp [Function.update_of_ne hne]
  · rfl

lemma Rule.handle (hr : Rule m a m') (hno : a.touches raw = false) :
    ∃ flag, m'.env.handles raw = { m.env.handles raw with putValueFlag := flag } := by
  cases hr with
  | fresh raw' r | replaced raw' r =>
    have hne : raw ≠ raw' := Ne.symm (of_decide_eq_false hno)
    exact ⟨_, by simp [Env.fill, Function.update_of_ne hne]; rfl⟩
  | imm raw' action value =>
    have hne : raw ≠ raw' := Ne.symm (of_decide_eq_false hno)
    exact ⟨_, by simp [Machine.imm, Function.update_of_ne hne]; rfl⟩
  | releaseImm raw' current =>
    have hne : raw ≠ raw' := Ne.symm (of_decide_eq_false hno)
    exact ⟨_, releaseImm_handle hne⟩
  | put f raw' value =>
    by_cases heq : raw = raw'
    · subst heq
      exact ⟨none, by simp⟩
    · exact ⟨_, by simp [Function.update_of_ne heq]; rfl⟩
  | _ => exact ⟨_, rfl⟩

lemma handle_of_reach (h : Reach Machine.step (fun _ a => a.touches raw = false) m m') :
    ∃ flag, m'.env.handles raw = { m.env.handles raw with putValueFlag := flag } := by
  refine Reach.invariant (I := fun m' : Machine => ∃ flag, m'.env.handles raw =
    { m.env.handles raw with putValueFlag := flag }) h ⟨_, rfl⟩ ?_
  rintro m₁ a m₂ - ⟨flag, heq⟩ hno hs
  obtain ⟨flag', heq'⟩ := (Rule.of_step hs).2.handle hno
  exact ⟨flag', by rw [heq', heq]⟩

lemma handle_of_accepted {flag : PutFlag} {pending : Option VpiValue}
    (hreq : m.step (.request raw r) = some m₁) (hacc : m₁.log = .accepted raw flag pending :: m.log) :
    m₁.env.handles raw = r.write { m.env.handles raw with
      putValueFlag := some r.flag, putValueFormat := r.format } := by
  obtain ⟨-, hr⟩ := Rule.of_step hreq
  cases hr with
  | missing => exact absurd hacc.symm (List.cons_ne_self _ _)
  | refused => cases hacc
  | fresh | replaced => simp [Env.fill]

lemma pendingValue_of_put {flag : Option PutFlag} {v : VpiValue} (hput : m₂.step .put = some m₃)
    (hlog : m₃.log = .put raw flag v :: m₂.log) :
    (m₂.env.handles raw).pendingValue = some v := by
  obtain ⟨-, hr⟩ := Rule.of_step hput
  cases hr with
  | unsupported => exact absurd hlog.symm (List.cons_ne_self _ _)
  | put f raw' value _ _ _ hv =>
    cases hlog
    exact hv

/-- After any history, a deferred set or force that is flushed before the handle is written again
hands over what its immediate form does exactly when the words and bits that the deferred form does
not write were clear. -/
theorem flushed_eq_imm_iff {flag : Option PutFlag} {pending : Option VpiValue} {v : VpiValue}
    (extend : UInt32 → VecVal) (hfit : value.fitsBeats (m.env.handles raw))
    (hreq : m.step (.request raw (.set action value)) = some m₁)
    (hacc : m₁.log = .accepted raw action.flag pending :: m.log)
    (hrest : Reach Machine.step (fun _ a => a.touches raw = false) m₁ m₂)
    (hput : m₂.step .put = some m₃) (hlog : m₃.log = .put raw flag v :: m₂.log) :
    v.driven extend (m.env.handles raw).beatNum =
        (value.imm (m.env.handles raw) action).2.driven extend (m.env.handles raw).beatNum ↔
      value.leftClear extend (m.env.handles raw) action := by
  obtain ⟨flag', hsame⟩ := handle_of_reach hrest
  have hv := pendingValue_of_put hput hlog
  rw [hsame, handle_of_accepted hreq hacc] at hv
  have hdeferred : v = value.deferred (m.env.handles raw) := by
    have hwrite := pendingValue_write value (m.env.handles raw) (some action.flag)
    exact Option.some_injective _ (hv.symm.trans hwrite)
  rw [hdeferred]
  exact deferred_eq_imm_iff extend hfit

/-- A one-bit signal that reads back as X is released, and 0 is set in the next flush. -/
def setAfterRelease : List Act :=
  [.request 0 (.release ⟨fun _ => ⟨1, 1⟩, 0⟩), .apply, .put, .endPass]

def bit (raw : ComplexHandleRaw) : Signal := { vpiHandle := raw, width := 1, fits := one_fits }

theorem not_flushed_eq_imm :
    ¬ ∀ (extend : UInt32 → VecVal) (m m₁ m₂ m₃ : Machine) (raw : ComplexHandleRaw)
        (action : Action) (value : Value) (pending : Option VpiValue) (flag : Option PutFlag)
        (v : VpiValue), Machine.Reached ⟨false, false⟩ bit Unguarded m →
      value.fitsBeats (m.env.handles raw) →
      m.step (.request raw (.set action value)) = some m₁ →
      m₁.log = .accepted raw action.flag pending :: m.log →
      Reach Machine.step (fun _ a => a.touches raw = false) m₁ m₂ →
      m₂.step .put = some m₃ → m₃.log = .put raw flag v :: m₂.log →
      v.driven extend (m.env.handles raw).beatNum =
        (value.imm (m.env.handles raw) action).2.driven extend (m.env.handles raw).beatNum := by
  intro h
  have hrun : ((run Machine.step (Machine.init ⟨false, false⟩ bit) setAfterRelease).bind fun m =>
      (m.step (.request 0 (.set .set (.value 0)))).bind fun m₁ =>
      (m₁.step .apply).bind fun m₂ => (m₂.step .put).map fun m₃ => decide (
        m₁.log = .accepted 0 .vpiNoDelay (some (.vector [⟨0, 1⟩])) :: m.log ∧
        m₃.log = .put 0 (some .vpiNoDelay) (.vector [⟨0, 1⟩]) :: m₂.log ∧
        (Value.imm (m.env.handles 0) .set (.value 0)).2 = .vector [⟨0, 0⟩])) = some true := by
    decide +kernel
  obtain ⟨m, hm, hrun⟩ := Option.bind_eq_some_iff.mp hrun
  obtain ⟨m₁, hreq, hrun⟩ := Option.bind_eq_some_iff.mp hrun
  obtain ⟨m₂, happly, hrun⟩ := Option.bind_eq_some_iff.mp hrun
  obtain ⟨m₃, hput, hrun⟩ := Option.map_eq_some_iff.mp hrun
  obtain ⟨hacc, hlog, himm⟩ := of_decide_eq_true hrun
  have heq := h (fun _ => .zero) m m₁ m₂ m₃ 0 .set (.value 0) _ _ _ (reach_of_run hm) trivial hreq
    hacc (Reach.refl.tail rfl happly) hput hlog
  rw [himm] at heq
  cases heq

/-- A signal of two words is set twice. -/
def setTwice : List Act :=
  [.request 0 (.set .set (.value 7)), .apply, .put, .endPass]

def twoWords (raw : ComplexHandleRaw) : Signal :=
  { vpiHandle := raw, width := 40, fits := by decide }

theorem flushed_eq_imm_of_setTwice :
    ∃ (m m₂ m₃ : Machine) (v : VpiValue),
      run Machine.step (Machine.init ⟨false, false⟩ twoWords) setTwice = some m ∧
      m₂.step .put = some m₃ ∧ m₃.log = .put 0 (some .vpiNoDelay) v :: m₂.log ∧
      v.driven (fun _ => .zero) (m.env.handles 0).beatNum =
        (Value.imm (m.env.handles 0) .set (.value 3)).2.driven (fun _ => .zero)
          (m.env.handles 0).beatNum := by
  have hrun : ((run Machine.step (Machine.init ⟨false, false⟩ twoWords) setTwice).bind fun m =>
      (m.step (.request 0 (.set .set (.value 3)))).bind fun m₁ =>
      (m₁.step .apply).bind fun m₂ => (m₂.step .put).map fun m₃ => decide (
        m₁.log = .accepted 0 .vpiNoDelay (some (.vector [⟨3, 0⟩, ⟨0, 0⟩])) :: m.log ∧
        m₃.log = .put 0 (some .vpiNoDelay) (.vector [⟨3, 0⟩, ⟨0, 0⟩]) :: m₂.log ∧
        (Value.value 3).leftClear (fun _ => .zero) (m.env.handles 0) .set)) = some true := by
    decide +kernel
  obtain ⟨m, hm, hrun⟩ := Option.bind_eq_some_iff.mp hrun
  obtain ⟨m₁, hreq, hrun⟩ := Option.bind_eq_some_iff.mp hrun
  obtain ⟨m₂, happly, hrun⟩ := Option.bind_eq_some_iff.mp hrun
  obtain ⟨m₃, hput, hrun⟩ := Option.map_eq_some_iff.mp hrun
  obtain ⟨hacc, hlog, hclear⟩ := of_decide_eq_true hrun
  have hfit : (Value.value 3).fitsBeats (m.env.handles 0) := trivial
  exact ⟨m, m₂, m₃, _, hm, hput, hlog, (flushed_eq_imm_iff (fun _ => .zero) hfit hreq hacc
    (Reach.refl.tail rfl happly) hput hlog).mpr hclear⟩

end Verilua.Put
