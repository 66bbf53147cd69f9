import Verilua.Access.Driven

/-!
# Cached writes

A cached write that is left out does no harm if it would have been the last write once more. The
cached value alone does not tell: other writers do not change it, and the deferred and the immediate
form share it.
-/

namespace Verilua.Access

open BitVecs Put TransitionSystem

/-! ### Runs with and without the cache -/

/-- `flush` ends a time step. -/
inductive Step
  | setCached (mode : Mode) (value : Arg)
  | other (w : Other)
  | release (mode : Mode)
  | flush

variable {S : Type} (J : Lua.Jit) (sim : Simulator S)

/-- Where `set` stands for `set_cached`, and `set_imm` for `set_imm_cached`. -/
def Driven.step (d : Driven S) : Step → Option (Driven S)
  | .setCached mode value => d.write J sim (.set mode value)
  | .other w => d.write J sim w
  | .release mode => some (d.release sim mode)
  | .flush => some (d.flush sim)

/-- A signal with its cached value. Not in the source is `owed`: since the last flush, a deferred
write was left out while nothing was pending, and no deferred write or release has come after it. -/
structure Cached (S : Type) where
  driven : Driven S
  cachedValue : Option Lua.Value
  owed : Bool

namespace Cached

def skips (st : Cached S) (v : Lua.Value) : Bool := st.cachedValue.any (luaEq J · v)

def owedAfter (st : Cached S) : Step → Bool
  | .setCached .deferred (.scalar v) =>
    st.skips J v && st.driven.handle.putValueFlag.isNone
  | .setCached _ _ => st.owed
  | .other w => decide (w.mode = .imm) && st.owed
  | .release _ | .flush => false

def step (st : Cached S) (a : Step) : Option (Cached S) :=
  match a with
  | .setCached mode value => do
    let (cachedValue, calls) ← st.driven.chdl.setCached J st.cachedValue mode value
    return ⟨calls.foldl (Driven.perform sim) st.driven, cachedValue, st.owedAfter J a⟩
  | _ => do
    let driven ← st.driven.step J sim a
    return ⟨driven, st.cachedValue, st.owedAfter J a⟩

end Cached

/-! ### When a write may be left out -/

/-- What `set` hands to `vpiml` for a number. -/
def Chdl.scalarValue (this : Chdl) (v : Lua.Value) : Put.Value :=
  if this.beatNum = 1 then .value (scalarToU32 v)
  else if this.beatNum = 2 then .value64 (v.toULL J)
  else .value64ForceSingle (v.toULL J)

/-- A deferred write that may be left out: it would be refused, or the same value is pending, or
nothing is pending and the put would change neither the signal nor the X and Z bits in the buffer. -/
def Driven.Repeats (d : Driven S) (value : Put.Value) : Prop :=
  d.handle.putValueFlag = some .vpiForceFlag ∨
  (d.handle.putValueFlag = some .vpiNoDelay ∧ (value.write d.handle).words = d.handle.words) ∨
  (d.handle.putValueFlag = none ∧ bvals (value.write d.handle) = bvals d.handle ∧
    sim.put d.signal .vpiNoDelay (.vector (value.write d.handle).words) = d.signal)

/-- An immediate write that may be left out: it would change neither the signal nor what is pending,
nor the X and Z bits in the buffer if nothing is pending. -/
def Driven.RepeatsImm (d : Driven S) (value : Put.Value) : Prop :=
  sim.put d.signal .vpiNoDelay (value.imm d.handle .set).2 = d.signal ∧
  if d.handle.putValueFlag.isSome then (value.imm d.handle .set).1.words = d.handle.words
  else bvals (value.imm d.handle .set).1 = bvals d.handle

/-- An immediate write of a value that goes through the buffer of the handle, so that a pending put
takes it over. -/
def Other.throughBuffer (beatNum : Nat) : Other → Bool
  | .set _ (.scalar _) => true
  | .set _ _ | .setBitfield .. | .setBitfieldHexStr .. => decide (beatNum = 1 ∨ 8 < beatNum)
  | .setForce .. => false

/-- The condition on a step: every write that is left out may be left out, and in a time step in
which a deferred one was, the signal is written at once through the buffer only. -/
def Cached.Permitted (st : Cached S) : Step → Prop
  | .setCached mode value => ∃ v, value = .scalar v ∧ (st.skips J v = true →
      match mode with
      | .deferred => st.driven.Repeats sim (st.driven.chdl.scalarValue J v)
      | .imm => st.driven.RepeatsImm sim (st.driven.chdl.scalarValue J v))
  | .other w => st.owed = true → w.mode = .imm → w.throughBuffer st.driven.chdl.beatNum = true
  | .release _ | .flush => True

/-! ### Words in the buffer -/

variable {J sim} {h h' : ComplexHandle} {value : Put.Value} {action : Put.Action} {signal : S}

/-- The handles have the same number of beats, and the same X and Z bits in their buffers. -/
structure Alike (h h' : ComplexHandle) : Prop where
  beatNum_eq : h'.beatNum = h.beatNum
  bvals_eq : bvals h' = bvals h

/-- The value gives every beat of a handle of `k` beats. -/
def Fills (k : Nat) : Put.Value → Prop
  | .value _ => k = 1
  | .value64 _ | .value64ForceSingle _ | .valueMulti _ => True
  | .valueMultiBeat v => v.length = k
  | .valueTypedStr .. | .valueStr _ => False

/-- The immediate form puts what it has written to the buffer. -/
def Buffered (action : Put.Action) : Put.Value → Bool
  | .value _ => decide (action = .set)
  | .value64 _ | .value64ForceSingle _ | .valueMulti _ => true
  | .valueMultiBeat _ | .valueTypedStr .. | .valueStr _ => false

/-- Beat `i` of a value that goes through the buffer. -/
def vec : Put.Value → Nat → VecVal
  | .value v, i => if i = 0 then ⟨v, 0⟩ else .zero
  | .value64 v, i =>
    if i = 0 then ⟨(v &&& 0xFFFFFFFF).toUInt32, 0⟩
    else if i = 1 then ⟨(v >>> 32).toUInt32, 0⟩ else .zero
  | .value64ForceSingle v, i =>
    if i = 0 then ⟨((v <<< 32) >>> 32).toUInt32, 0⟩
    else if i = 1 then ⟨(v >>> 32).toUInt32, 0⟩ else .zero
  | .valueMulti v, i => ⟨v i, 0⟩
  | _, _ => .zero

lemma words_eq {f : Nat → VecVal} {k : Nat} (hk : h.beatNum = k)
    (hall : ∀ j : Fin maxVectorSize, j.val < k → h.putValueVectors j = f j) :
    h.words = (List.range k).map f := by
  subst hk
  apply List.ext_getElem
  · simp [ComplexHandle.words]
  · intro i hi hi'
    have hlt : i < h.beatNum := by simpa using hi'
    rw [getElem_words, hall _ hlt]
    simp [ComplexHandle.beat]

lemma fillValue64_words (v : UInt64) :
    (h.fillValue64 v).words = (List.range h.beatNum).map (vec (.value64 v)) := by
  apply words_eq rfl
  intro j hj
  by_cases hzero : j = 0
  · subst hzero
    simp [ComplexHandle.fillValue64, ComplexHandle.setBval, ComplexHandle.setAval, vec]
  · have hzero' : j.val ≠ 0 := fun h => hzero (Fin.ext h)
    by_cases hone : j = 1
    · subst hone
      simp [ComplexHandle.fillValue64, ComplexHandle.setBval, ComplexHandle.setAval, vec]
    · have hone' : j.val ≠ 1 := fun h => hone (Fin.ext h)
      have hrest : 2 ≤ j.val ∧ j.val < h.beatNum := by
        have : j.val < h.beatNum := hj
        omega
      simp [ComplexHandle.fillValue64, ComplexHandle.setBval, ComplexHandle.setAval,
        ComplexHandle.zeroFrom, vec, hzero, hone, hzero', hone', hrest]

lemma fillValue64ForceSingle_words (v : UInt64) :
    (h.fillValue64ForceSingle v).words =
      (List.range h.beatNum).map (vec (.value64ForceSingle v)) := by
  apply words_eq rfl
  intro j hj
  by_cases hzero : j = 0
  · subst hzero
    have hpos : 0 < h.beatNum := hj
    simp [ComplexHandle.fillValue64ForceSingle, ComplexHandle.setAval, ComplexHandle.zeroFrom, vec,
      VecVal.zero, hpos]
  · have hzero' : j.val ≠ 0 := fun h => hzero (Fin.ext h)
    by_cases hone : j = 1
    · subst hone
      have hpos : 1 < h.beatNum := hj
      simp [ComplexHandle.fillValue64ForceSingle, ComplexHandle.setAval, ComplexHandle.zeroFrom, vec,
        VecVal.zero, hpos]
    · have hone' : j.val ≠ 1 := fun h => hone (Fin.ext h)
      have hrest : j.val < h.beatNum := hj
      simp [ComplexHandle.fillValue64ForceSingle, ComplexHandle.setAval, ComplexHandle.zeroFrom, vec,
        hzero, hone, hzero', hone', hrest]

lemma fillValueMulti_words_vec (v : Nat → UInt32) :
    (h.fillValueMulti v).words = (List.range h.beatNum).map (vec (.valueMulti v)) := by
  apply words_eq rfl
  intro j hj
  have hlt : j.val < h.beatNum := hj
  simp [ComplexHandle.fillValueMulti, vec, hlt]

lemma fillValue_words_vec (v : UInt32) :
    (h.fillValue v).words = (List.range h.beatNum).map (vec (.value v)) := by
  apply words_eq rfl
  intro j hj
  by_cases hzero : j = 0
  · subst hzero
    simp [ComplexHandle.fillValue, ComplexHandle.setBval, ComplexHandle.setAval,
      ComplexHandle.zeroFrom, vec]
  · have hzero' : j.val ≠ 0 := fun h => hzero (Fin.ext h)
    have hrest : 1 ≤ j.val ∧ j.val < h.beatNum := by
      have : j.val < h.beatNum := hj
      omega
    simp [ComplexHandle.fillValue, ComplexHandle.setBval, ComplexHandle.setAval,
      ComplexHandle.zeroFrom, vec, hzero', hrest]

/-! ### Handles that a put treats alike -/

lemma bvals_eq_of_words (heq : h'.words = h.words) : bvals h' = bvals h := by
  rw [bvals, bvals, heq]

lemma Alike.bval_eq (ha : Alike h h') {j : Fin maxVectorSize} (hj : j.val < h.beatNum) :
    (h'.putValueVectors j).bval = (h.putValueVectors j).bval := by
  have hget := congrArg (·[j.val]?) ha.bvals_eq
  have hj' : j.val < h'.beatNum := ha.beatNum_eq ▸ hj
  simpa [bvals, ComplexHandle.words, hj, hj', ComplexHandle.beat, UInt32.toNat_inj] using hget

lemma Alike.write_words (ha : Alike h h') (hfills : Fills h.beatNum value) :
    (value.write h').words = (value.write h).words := by
  have hnum := ha.beatNum_eq
  cases value with
  | value v =>
    have hone : h.beatNum = 1 := hfills
    have hget : ∀ h : ComplexHandle, h.beatNum = 1 →
        (h.setAval 0 v).words = [⟨v, (h.putValueVectors 0).bval⟩] := by
      intro h hone
      have hwords := words_eq (h := h.setAval 0 v) (k := 1)
        (f := fun _ => ⟨v, (h.putValueVectors 0).bval⟩) hone (by
          intro j hj
          have hzero : j = 0 := Fin.ext (by simpa using hj)
          simp [ComplexHandle.setAval, hzero])
      exact hwords
    have hbval := ha.bval_eq (j := 0) (by rw [hone]; decide)
    exact (hget h' (hnum.trans hone)).trans (by rw [hbval]; exact (hget h hone).symm)
  | value64 v => exact (fillValue64_words v).trans (by rw [hnum]; exact (fillValue64_words v).symm)
  | value64ForceSingle v =>
    exact (fillValue64ForceSingle_words v).trans
      (by rw [hnum]; exact (fillValue64ForceSingle_words v).symm)
  | valueMulti v =>
    exact (fillValueMulti_words_vec v).trans (by rw [hnum]; exact (fillValueMulti_words_vec v).symm)
  | valueMultiBeat v =>
    have hlen : v.length = h.beatNum := hfills
    have hwords : (h'.fillValueMultiBeat v).words = (h.fillValueMultiBeat v).words := by
      apply List.ext_getElem
      · simp [ComplexHandle.words, ComplexHandle.fillValueMultiBeat, hnum]
      · intro i hi hi'
        have hlt : i < h.beatNum := by
          simpa [ComplexHandle.words, ComplexHandle.fillValueMultiBeat] using hi'
        have hmax := h.beatNum_le
        have hbval := ha.bval_eq (j := ⟨i, by omega⟩) hlt
        simp [getElem_words, ComplexHandle.fillValueMultiBeat, ComplexHandle.beat, hlen ▸ hlt, hbval]
    exact hwords
  | valueTypedStr t s => exact hfills.elim
  | valueStr s => exact hfills.elim

lemma imm_words (hbuffered : Buffered action value = true) :
    (value.imm h action).1.words = (List.range h.beatNum).map (vec value) ∧
      (value.imm h action).2 = .vector ((List.range h.beatNum).map (vec value)) := by
  have both : ∀ h₁ : ComplexHandle, value.imm h action = (h₁, .vector h₁.words) →
      h₁.words = (List.range h.beatNum).map (vec value) →
      (value.imm h action).1.words = (List.range h.beatNum).map (vec value) ∧
        (value.imm h action).2 = .vector ((List.range h.beatNum).map (vec value)) := by
    intro h₁ himm hwords
    rw [himm]
    exact ⟨hwords, by rw [hwords]⟩
  cases value with
  | value v =>
    obtain rfl : action = .set := of_decide_eq_true hbuffered
    exact both _ rfl (fillValue_words_vec v)
  | value64 v => exact both _ rfl (fillValue64_words v)
  | value64ForceSingle v => exact both _ rfl (fillValue64ForceSingle_words v)
  | valueMulti v => exact both _ rfl (fillValueMulti_words_vec v)
  | valueMultiBeat | valueTypedStr | valueStr => cases hbuffered

lemma imm_unbuffered (hfills : Fills h.beatNum value) (hbuffered : Buffered action value = false) :
    ∃ x, ∀ h, value.imm h action = (h, x) := by
  cases value with
  | value v =>
    cases action with
    | set => cases hbuffered
    | force => exact ⟨.integer v, fun _ => rfl⟩
  | valueMultiBeat v => exact ⟨.vector (v.map fun w => ⟨w, 0⟩), fun _ => rfl⟩
  | value64 | value64ForceSingle | valueMulti => cases hbuffered
  | valueTypedStr | valueStr => exact hfills.elim

@[simp] lemma imm_beatNum (value : Put.Value) (h : ComplexHandle) (action : Put.Action) :
    (value.imm h action).1.beatNum = h.beatNum := by
  cases value <;> cases action <;> rfl

@[simp] lemma imm_flag (value : Put.Value) (h : ComplexHandle) (action : Put.Action) :
    (value.imm h action).1.putValueFlag = h.putValueFlag := by
  cases value <;> cases action <;> rfl

@[simp] lemma imm_format (value : Put.Value) (h : ComplexHandle) (action : Put.Action) :
    (value.imm h action).1.putValueFormat = h.putValueFormat := by
  cases value <;> cases action <;> rfl

/-- Both handles put the same, if anything. -/
structure Same (h h' : ComplexHandle) : Prop extends Alike h h' where
  flag_eq : h'.putValueFlag = h.putValueFlag
  pending : h.putValueFlag.isSome = true →
    h'.words = h.words ∧ h.putValueFormat = .vpiVectorVal ∧ h'.putValueFormat = .vpiVectorVal

/-- Nothing is pending for the first handle. The second one puts what is there already. -/
structure Owes (sim : Simulator S) (signal : S) (h h' : ComplexHandle) : Prop extends
    Alike h h' where
  idle : h.putValueFlag = none
  flag_eq : h'.putValueFlag = some .vpiNoDelay
  format_eq : h'.putValueFormat = .vpiVectorVal
  settled : sim.put signal .vpiNoDelay (.vector h'.words) = signal

lemma Fills.format (hfills : Fills h.beatNum value) : value.format = .vpiVectorVal := by
  cases value with
  | valueTypedStr | valueStr => exact hfills.elim
  | _ => rfl

lemma Alike.same_of_write (ha : Alike h h') (hfills : Fills h.beatNum value) (flag : PutFlag) :
    Same (value.write { h with putValueFlag := some flag, putValueFormat := value.format })
      (value.write { h' with putValueFlag := some flag, putValueFormat := value.format }) := by
  have hpending : Alike { h with putValueFlag := some flag, putValueFormat := value.format }
      { h' with putValueFlag := some flag, putValueFormat := value.format } :=
    ⟨ha.beatNum_eq, ha.bvals_eq⟩
  have hwords := hpending.write_words hfills
  have hformat := hfills.format
  refine ⟨⟨?_, bvals_eq_of_words hwords⟩, ?_, fun _ => ⟨hwords, ?_, ?_⟩⟩
  all_goals cases value <;> first | exact hfills.elim | exact ha.beatNum_eq | rfl

lemma Same.take (hs : Same h h') (hfills : Fills h.beatNum value) (action : Put.Action) :
    Same (h.take (.set action value)) (h'.take (.set action value)) := by
  unfold ComplexHandle.take
  rw [hs.flag_eq]
  split_ifs
  · exact hs
  · exact hs.toAlike.same_of_write hfills action.flag

lemma take_of_not_force (r : Request) (hflag : h.putValueFlag ≠ some .vpiForceFlag) :
    h.take r = r.write { h with putValueFlag := some r.flag, putValueFormat := r.format } :=
  take_of_accepted (.inl hflag)

lemma Owes.take (ho : Owes sim signal h h') (hfills : Fills h.beatNum value)
    (action : Put.Action) : Same (h.take (.set action value)) (h'.take (.set action value)) := by
  rw [take_of_not_force _ (by simp [ho.idle]), take_of_not_force _ (by simp [ho.flag_eq])]
  exact ho.toAlike.same_of_write hfills action.flag

/-! ### Releases -/

lemma release_words (h : ComplexHandle) (current : Readback) :
    (h.take (.release current)).words = (List.range h.beatNum).map current.vector := by
  rw [take_of_accepted (.inr (by simp [Request.isPrior, Request.flag]))]
  apply words_eq rfl
  intro j hj
  have hlt : j.val < h.beatNum := hj
  simp [Request.write, hlt]

lemma Alike.same_of_release (ha : Alike h h') (current : Readback) :
    Same (h.take (.release current)) (h'.take (.release current)) := by
  have hwords : (h'.take (.release current)).words = (h.take (.release current)).words := by
    rw [release_words, release_words, ha.beatNum_eq]
  refine ⟨⟨?_, bvals_eq_of_words hwords⟩, ?_, fun _ => ⟨hwords, ?_, ?_⟩⟩
  · rw [take_beatNum, take_beatNum, ha.beatNum_eq]
  all_goals
    simp only [take_of_accepted (.inr (by simp [Request.isPrior, Request.flag] :
      (Request.release current).isPrior = true))]
    rfl

lemma Alike.same_of_drop (ha : Alike h h') :
    Same { h with putValueFlag := none } { h' with putValueFlag := none } :=
  ⟨⟨ha.beatNum_eq, ha.bvals_eq⟩, rfl, by simp⟩

/-! ### Immediate writes -/

lemma Alike.imm (ha : Alike h h') (hfills : Fills h.beatNum value) (action : Put.Action) :
    Alike (value.imm h action).1 (value.imm h' action).1 ∧
      (value.imm h' action).2 = (value.imm h action).2 ∧
      (h'.words = h.words → (value.imm h' action).1.words = (value.imm h action).1.words) := by
  cases hbuffered : Buffered action value with
  | true =>
    obtain ⟨hwords, hput⟩ := imm_words (h := h) hbuffered
    obtain ⟨hwords', hput'⟩ := imm_words (h := h') hbuffered
    rw [ha.beatNum_eq, ← hwords] at hwords'
    rw [ha.beatNum_eq, ← hput] at hput'
    exact ⟨⟨by simp [ha.beatNum_eq], bvals_eq_of_words hwords'⟩, hput', fun _ => hwords'⟩
  | false =>
    obtain ⟨x, himm⟩ := imm_unbuffered hfills hbuffered
    rw [himm h, himm h']
    exact ⟨ha, rfl, id⟩

lemma Same.imm (hs : Same h h') (hfills : Fills h.beatNum value) (action : Put.Action) :
    Same (value.imm h action).1 (value.imm h' action).1 ∧
      (value.imm h' action).2 = (value.imm h action).2 := by
  obtain ⟨halike, hput, hwords⟩ := hs.toAlike.imm hfills action
  refine ⟨⟨halike, by simp [hs.flag_eq], fun hflag => ?_⟩, hput⟩
  obtain ⟨heq, hformat, hformat'⟩ := hs.pending (by simpa using hflag)
  exact ⟨hwords heq, by simp [hformat], by simp [hformat']⟩

lemma Owes.imm (ho : Owes sim signal h h') (hfills : Fills h.beatNum value)
    (hbuffered : Buffered .set value = true)
    (hputs : ∀ s x, sim.put (sim.put s .vpiNoDelay x) .vpiNoDelay x = sim.put s .vpiNoDelay x) :
    Owes sim (sim.put signal .vpiNoDelay (value.imm h .set).2) (value.imm h .set).1
        (value.imm h' .set).1 ∧
      (value.imm h' .set).2 = (value.imm h .set).2 := by
  obtain ⟨halike, hput, -⟩ := ho.toAlike.imm hfills .set
  obtain ⟨hwords', hput'⟩ := imm_words (h := h') hbuffered
  refine ⟨⟨halike, by simp [ho.idle], by simp [ho.flag_eq], by simp [ho.format_eq], ?_⟩, hput⟩
  rw [hwords', ← hput', hput, hputs]

/-! ### The flush -/

lemma pendingValue_vector (hformat : h.putValueFormat = .vpiVectorVal) :
    h.pendingValue = some (.vector h.words) := by
  simp [ComplexHandle.pendingValue, hformat]

lemma flush_idle {d : Driven S} (hidle : d.handle.putValueFlag = none) : d.flush sim = d := by
  simp [Driven.flush, hidle]

lemma flush_pending {d : Driven S} {flag : PutFlag} (hflag : d.handle.putValueFlag = some flag)
    (hformat : d.handle.putValueFormat = .vpiVectorVal) :
    d.flush sim = { d with
      handle := { d.handle with putValueFlag := none }
      signal := sim.put d.signal flag (.vector d.handle.words) } := by
  simp [Driven.flush, hflag, pendingValue_vector hformat]

/-! ### What the writers ask for -/

variable {get : ComplexHandleRaw → Nat → UInt32} {this this' : Chdl} {calls : List VpimlCall}
  {mode : Mode} {k : Nat} {through through' : Bool} {r : Result}

def Arg.isScalar : Arg → Bool
  | .scalar _ => true
  | _ => false

/-- The method asks for one write of all beats, through the buffer if so told. -/
def Asks (k : Nat) (mode : Mode) (through : Bool) (this : Chdl) (r : Result) : Prop :=
  ∀ this' calls, r = some (this', calls) → this'.width = this.width ∧
    ∃ c, calls = [c] ∧ c.mode = mode ∧ Fills k c.value ∧
      (through = true → c.action = .set ∧ Buffered .set c.value = true)

lemma Asks.of_bind {α : Type*} {x : Option α} {f : α → Result}
    (h : ∀ a, x = some a → Asks k mode through this (f a)) :
    Asks k mode through this (x.bind f) := by
  intro this' calls hbind
  obtain ⟨a, ha, hf⟩ := Option.bind_eq_some_iff.mp hbind
  exact h a ha this' calls hf

lemma Asks.of_width (h : Asks k mode through this' r) (hwidth : this'.width = this.width) :
    Asks k mode through this r :=
  fun this'' calls hr => ⟨(h this'' calls hr).1.trans hwidth, (h this'' calls hr).2⟩

lemma Asks.mono (h : Asks k mode through this r) (himp : through' = true → through = true) :
    Asks k mode through' this r := by
  intro this' calls hr
  obtain ⟨hwidth, c, hcalls, hmode, hfills, hbuffered⟩ := h this' calls hr
  exact ⟨hwidth, c, hcalls, hmode, hfills, fun h => hbuffered (himp h)⟩

lemma asks_call {hdl : ComplexHandleRaw} (hwidth : this'.width = this.width)
    (hfills : Fills k value)
    (hthrough : through = true → action = .set ∧ Buffered .set value = true) :
    Asks k mode through this (some (this', [⟨mode, action, hdl, value⟩])) := by
  rintro _ _ ⟨⟩
  exact ⟨hwidth, _, rfl, rfl, hfills, hthrough⟩

lemma asks_none : Asks k mode through this none := by
  rintro _ _ ⟨⟩

lemma single_put (action : Put.Action) (arg : Arg) :
    Asks 1 mode (decide (action = .set)) this (ChdlAccessSingle.put mode action this arg) := by
  cases arg with
  | scalar v => exact asks_call rfl rfl fun h => ⟨of_decide_eq_true h, rfl⟩
  | _ => exact asks_none

lemma single_editBitvec {edit : BitVec → Option BitVec} {bv : BitVec}
    (h : ChdlAccessSingle.editBitvec J get this edit = some (bv, this')) :
    this'.width = this.width := by
  unfold ChdlAccessSingle.editBitvec at h
  cases hbv : this.bitvec with
  | none =>
    rw [hbv] at h
    obtain ⟨bv₀, -, h⟩ := Option.bind_eq_some_iff.mp h
    obtain ⟨bv₁, -, h⟩ := Option.bind_eq_some_iff.mp h
    cases h
    rfl
  | some bv₀ =>
    rw [hbv] at h
    obtain ⟨bv₁, -, h⟩ := Option.bind_eq_some_iff.mp h
    obtain ⟨bv₂, -, h⟩ := Option.bind_eq_some_iff.mp h
    cases h
    rfl

lemma editBitvec_width {edit : BitVec → Option BitVec} {bv : BitVec}
    (h : this.editBitvec J get edit = some (bv, this')) : this'.width = this.width := by
  unfold Chdl.editBitvec at h
  obtain ⟨bv₀, -, h⟩ := Option.bind_eq_some_iff.mp h
  obtain ⟨bv₁, -, h⟩ := Option.bind_eq_some_iff.mp h
  cases h
  rfl

lemma single_putField (edit : BitVec → Option BitVec) :
    Asks 1 mode true this (ChdlAccessSingle.putField J get mode this edit) :=
  .of_bind fun _ h => asks_call (single_editBitvec h) rfl fun _ => ⟨rfl, rfl⟩

lemma double_putBeats {hdl : ComplexHandleRaw} {words : List Int} :
    Asks 2 mode false this
      ((ChdlAccessDouble.putBeats mode action hdl words).bind fun calls => some (this, calls)) := by
  refine .of_bind fun calls h => ?_
  obtain ⟨v0, -, h⟩ := Option.bind_eq_some_iff.mp h
  obtain ⟨v1, -, h⟩ := Option.bind_eq_some_iff.mp h
  cases h
  exact asks_call rfl rfl nofun

lemma double_put {hdl : ComplexHandleRaw} (checked : Bool) (arg : Arg) :
    Asks 2 mode (decide (action = .set) && arg.isScalar) this
      (ChdlAccessDouble.put J mode action checked this hdl arg) := by
  cases arg with
  | scalar v => 
    refine asks_call rfl trivial fun h => ?_
    simp at h
    exact ⟨h.1, rfl⟩
  | table words =>
    simp only [ChdlAccessDouble.put, Arg.isScalar, Bool.and_false]
    split_ifs
    · exact asks_none
    · rw [Option.map_eq_bind]
      exact double_putBeats
  | buffer data =>
    simp only [ChdlAccessDouble.put, Arg.isScalar, Bool.and_false]
    split_ifs
    · exact asks_none
    · rw [Option.map_eq_bind]
      exact double_putBeats
  | other => exact asks_none

lemma double_putField (edit : BitVec → Option BitVec) :
    Asks 2 mode false this (ChdlAccessDouble.putField J get mode this edit) :=
  .of_bind fun _ h => double_putBeats.of_width (editBitvec_width h)

lemma length_of_mapM {α β : Type} {f : α → Option β} {xs : List α} {ys : List β}
    (h : xs.mapM f = some ys) : ys.length = xs.length := by
  induction xs generalizing ys with
  | nil =>
    cases h
    rfl
  | cons x xs ih =>
    rw [List.mapM_cons] at h
    obtain ⟨y, -, h⟩ := Option.bind_eq_some_iff.mp h
    obtain ⟨ys', hys, h⟩ := Option.bind_eq_some_iff.mp h
    cases h
    rw [List.length_cons, List.length_cons, ih hys]

lemma multi_putBeats {hdl : ComplexHandleRaw} {words : List Int} (hthree : 3 ≤ this.beatNum) :
    Asks this.beatNum mode (decide (action = .set) && decide (8 < this.beatNum)) this
      (ChdlAccessMulti.putBeats mode action this hdl words) := by
  refine .of_bind fun values h => ?_
  have hlen : values.length = this.beatNum := by
    rw [length_of_mapM h, List.length_range]
  dsimp only
  split_ifs with hfew
  · refine asks_call rfl hlen fun h => ?_
    simp at h
    omega
  · refine asks_call rfl trivial fun h => ?_
    simp at h
    exact ⟨h.1, rfl⟩

lemma multi_put {hdl : ComplexHandleRaw} (hthree : 3 ≤ this.beatNum) (checked : Bool) (arg : Arg) :
    Asks this.beatNum mode
      (decide (action = .set) && (arg.isScalar || decide (8 < this.beatNum))) this
      (ChdlAccessMulti.put J mode action checked this hdl arg) := by
  cases arg with
  | scalar v =>
    refine asks_call rfl trivial fun h => ?_
    simp [Arg.isScalar] at h
    exact ⟨h, rfl⟩
  | table words =>
    simp only [ChdlAccessMulti.put, Arg.isScalar, Bool.false_or]
    split_ifs
    · exact asks_none
    · exact multi_putBeats hthree
  | buffer data =>
    simp only [ChdlAccessMulti.put, Arg.isScalar, Bool.false_or]
    split_ifs
    · exact asks_none
    · exact multi_putBeats hthree
  | other => exact asks_none

lemma multi_putField {edit : BitVec → Option BitVec} (hthree : 3 ≤ this.beatNum) :
    Asks this.beatNum mode (decide (8 < this.beatNum)) this
      ((this.editBitvec J get edit).bind fun p =>
        ChdlAccessMulti.put J mode .set false p.2 p.2.hdl (.table p.1.u32Vec)) := by
  refine .of_bind fun p h => ?_
  have hwidth : p.2.width = this.width := editBitvec_width h
  have hnum : p.2.beatNum = this.beatNum := by rw [Chdl.beatNum, hwidth, Chdl.beatNum]
  have hput : Asks p.2.beatNum mode (decide (8 < p.2.beatNum)) p.2
      (ChdlAccessMulti.put J mode .set false p.2 p.2.hdl (.table p.1.u32Vec)) :=
    multi_put (hnum ▸ hthree) false (.table p.1.u32Vec)
  rw [hnum] at hput
  exact hput.of_width hwidth

lemma single_other (w : Other) :
    Asks 1 w.mode (w.throughBuffer 1) this (ChdlAccessSingle.other J get this w) := by
  cases w with
  | set mode value => cases mode <;> exact (single_put .set value).mono fun _ => rfl
  | setBitfield mode => cases mode <;> exact single_putField _
  | setBitfieldHexStr mode => cases mode <;> exact single_putField _
  | setForce mode value => cases mode <;> exact (single_put .force value).mono nofun

lemma double_other (w : Other) :
    Asks 2 w.mode (w.throughBuffer 2) this (ChdlAccessDouble.other J get this w) := by
  cases w with
  | set mode value =>
    have hthrough : (Other.set mode value).throughBuffer 2 = value.isScalar := by
      cases value <;> rfl
    rw [hthrough]
    cases mode <;> exact double_put true value
  | setBitfield mode => cases mode <;> exact double_putField _
  | setBitfieldHexStr mode => cases mode <;> exact double_putField _
  | setForce mode value => cases mode <;> exact (double_put true value).mono nofun

lemma multi_other (hthree : 3 ≤ this.beatNum) (w : Other) :
    Asks this.beatNum w.mode (w.throughBuffer this.beatNum) this
      (ChdlAccessMulti.other J get this w) := by
  have hone : this.beatNum ≠ 1 := by omega
  cases w with
  | set mode value =>
    have hthrough : (Other.set mode value).throughBuffer this.beatNum =
        (value.isScalar || decide (8 < this.beatNum)) := by
      cases value <;> simp [Other.throughBuffer, Arg.isScalar, hone]
    rw [hthrough]
    cases mode <;> exact multi_put hthree true value
  | setBitfield mode s e v =>
    have hthrough : (Other.setBitfield mode s e v).throughBuffer this.beatNum =
        decide (8 < this.beatNum) := by
      simp [Other.throughBuffer, hone]
    rw [hthrough]
    cases mode <;> exact multi_putField hthree
  | setBitfieldHexStr mode s e hexStr =>
    have hthrough : (Other.setBitfieldHexStr mode s e hexStr).throughBuffer this.beatNum =
        decide (8 < this.beatNum) := by
      simp [Other.throughBuffer, hone]
    rw [hthrough]
    cases mode <;> exact multi_putField hthree
  | setForce mode value => cases mode <;> exact (multi_put hthree true value).mono nofun

lemma other_asks (hone : 1 ≤ this.beatNum) (w : Other) :
    Asks this.beatNum w.mode (w.throughBuffer this.beatNum) this (this.other J get w) := by
  rw [Chdl.other]
  split_ifs with h1 h2
  · rw [h1]
    exact single_other w
  · rw [h2]
    exact double_other w
  · exact multi_other (by omega) w

/-! ### The two runs side by side -/

/-- The cached run, and the run with `set` and `set_imm` after the same steps. -/
structure Agrees (sim : Simulator S) (st : Cached S) (d : Driven S) : Prop where
  chdl_eq : d.chdl = st.driven.chdl
  signal_eq : d.signal = st.driven.signal
  beatNum_pos : 1 ≤ st.driven.chdl.beatNum
  beatNum_eq : st.driven.handle.beatNum = st.driven.chdl.beatNum
  same : st.owed = false → Same st.driven.handle d.handle
  owes : st.owed = true → Owes sim st.driven.signal st.driven.handle d.handle

variable {st st' : Cached S} {d d' : Driven S} {c : VpimlCall} {v : Lua.Value}
  {cachedValue : Option Lua.Value} {chdl : Chdl}

lemma Agrees.alike (ha : Agrees sim st d) : Alike st.driven.handle d.handle := by
  cases howed : st.owed with
  | false => exact (ha.same howed).toAlike
  | true => exact (ha.owes howed).toAlike

lemma Agrees.perform (ha : Agrees sim st d) (hwidth : chdl.width = st.driven.chdl.width)
    (hfills : Fills st.driven.chdl.beatNum c.value)
    (himm : st.owed = true → c.mode = .imm → c.action = .set ∧ Buffered .set c.value = true)
    (hputs : ∀ s x, sim.put (sim.put s .vpiNoDelay x) .vpiNoDelay x = sim.put s .vpiNoDelay x) :
    Agrees sim
      ⟨Driven.perform sim { st.driven with chdl := chdl } c, cachedValue,
        decide (c.mode = .imm) && st.owed⟩
      (Driven.perform sim { d with chdl := chdl } c) := by
  obtain ⟨mode, action, hdl, value⟩ := c
  have hnum : chdl.beatNum = st.driven.chdl.beatNum := by rw [Chdl.beatNum, hwidth, Chdl.beatNum]
  rw [← ha.beatNum_eq] at hfills
  cases mode with
  | deferred =>
    refine ⟨rfl, ha.signal_eq, hnum ▸ ha.beatNum_pos, ?_, fun _ => ?_, fun howed => absurd howed (by simp)⟩
    · exact (take_beatNum ..).trans (ha.beatNum_eq.trans hnum.symm)
    · cases howed : st.owed with
      | false => exact (ha.same howed).take hfills action
      | true => exact (ha.owes howed).take hfills action
  | imm =>
    refine ⟨rfl, ?_, hnum ▸ ha.beatNum_pos, ?_, fun howed => ?_, fun howed => ?_⟩
    · show sim.put d.signal action.flag (value.imm d.handle action).2 =
        sim.put st.driven.signal action.flag (value.imm st.driven.handle action).2
      rw [ha.signal_eq, (ha.alike.imm hfills action).2.1]
    · exact (imm_beatNum ..).trans (ha.beatNum_eq.trans hnum.symm)
    · exact ((ha.same (by simpa using howed)).imm hfills action).1
    · have howed' : st.owed = true := by simpa using howed
      obtain ⟨rfl, hbuffered⟩ := himm howed' rfl
      exact ((ha.owes howed').imm hfills hbuffered hputs).1

lemma Alike.take_set (ha : Alike h h') (hfills : Fills h.beatNum value)
    (hflag : h'.putValueFlag ≠ some .vpiForceFlag) :
    (h'.take (.set .set value)).beatNum = h.beatNum ∧
      (h'.take (.set .set value)).words = (value.write h).words ∧
      (h'.take (.set .set value)).putValueFlag = some .vpiNoDelay ∧
      (h'.take (.set .set value)).putValueFormat = .vpiVectorVal := by
  refine ⟨(take_beatNum ..).trans ha.beatNum_eq, ?_, take_flag (.inl hflag), ?_⟩
  · rw [take_of_not_force _ hflag]
    have hpending : Alike h { h' with
        putValueFlag := some .vpiNoDelay, putValueFormat := value.format } :=
      ⟨ha.beatNum_eq, ha.bvals_eq⟩
    exact hpending.write_words hfills
  · rw [take_of_not_force _ hflag, ← hfills.format]
    cases value <;> rfl

lemma Agrees.skip (ha : Agrees sim st d) (hfills : Fills st.driven.chdl.beatNum value)
    (hrepeats : st.driven.Repeats sim value) :
    Agrees sim { st with owed := st.driven.handle.putValueFlag.isNone }
      { d with handle := d.handle.take (.set .set value) } := by
  have hnum := ha.beatNum_eq
  rw [← hnum] at hfills
  refine ⟨ha.chdl_eq, ha.signal_eq, ha.beatNum_pos, hnum, fun hpending => ?_, fun hidle => ?_⟩
  · -- something is pending, so that no put is owed before
    have hs : Same st.driven.handle d.handle := by
      apply ha.same
      by_contra howed
      simp [(ha.owes (by simpa using howed)).idle] at hpending
    rcases hrepeats with hforce | ⟨hset, hsame⟩ | ⟨hnone, -⟩
    · rw [take_of_refused (hs.flag_eq.trans hforce) rfl]
      exact hs
    · obtain ⟨hbeats, hwords, hflag, hformat⟩ :=
        hs.take_set hfills (by simp [hs.flag_eq, hset])
      exact ⟨⟨hbeats, bvals_eq_of_words (hwords.trans hsame)⟩, hflag.trans hset.symm, fun hsome =>
        ⟨hwords.trans hsame, (hs.pending hsome).2.1, hformat⟩⟩
    · simp [hnone] at hpending
  · have hnone : st.driven.handle.putValueFlag = none := by simpa using hidle
    have hnot : d.handle.putValueFlag ≠ some .vpiForceFlag := by
      cases howed : st.owed with
      | false => simp [(ha.same howed).flag_eq, hnone]
      | true => simp [(ha.owes howed).flag_eq]
    obtain ⟨hbeats, hwords, hflag, hformat⟩ := ha.alike.take_set hfills hnot
    rcases hrepeats with hforce | ⟨hset, -⟩ | ⟨-, hbvals, hput⟩
    · simp [hnone] at hforce
    · simp [hnone] at hset
    · refine ⟨⟨hbeats, ?_⟩, hnone, hflag, hformat, ?_⟩
      · rw [bvals_eq_of_words hwords]
        exact hbvals
      · show sim.put _ _ (.vector (d.handle.take (.set .set value)).words) = _
        rw [hwords]
        exact hput

lemma Agrees.skip_imm (ha : Agrees sim st d) (hfills : Fills st.driven.chdl.beatNum value)
    (hbuffered : Buffered .set value = true) (hrepeats : st.driven.RepeatsImm sim value) :
    Agrees sim st { d with
      handle := (value.imm d.handle .set).1
      signal := sim.put d.signal .vpiNoDelay (value.imm d.handle .set).2 } := by
  rw [← ha.beatNum_eq] at hfills
  obtain ⟨hput, hbuffer⟩ := hrepeats
  obtain ⟨halike, himm, hwords⟩ := ha.alike.imm hfills .set
  have hbvals : bvals (value.imm d.handle .set).1 = bvals st.driven.handle := by
    rw [halike.bvals_eq]
    split_ifs at hbuffer
    · exact bvals_eq_of_words hbuffer
    · exact hbuffer
  have hbeats : (value.imm d.handle .set).1.beatNum = st.driven.handle.beatNum := by
    rw [imm_beatNum, ha.alike.beatNum_eq]
  refine ⟨ha.chdl_eq, ?_, ha.beatNum_pos, ha.beatNum_eq, fun howed => ?_, fun howed => ?_⟩
  · show sim.put d.signal .vpiNoDelay (value.imm d.handle .set).2 = _
    rw [himm, ha.signal_eq, hput]
  · have hs := ha.same howed
    refine ⟨⟨hbeats, hbvals⟩, (imm_flag ..).trans hs.flag_eq, fun hsome => ?_⟩
    rw [if_pos hsome] at hbuffer
    obtain ⟨hwords', hformat, hformat'⟩ := hs.pending hsome
    exact ⟨(hwords hwords').trans hbuffer, hformat, (imm_format ..).trans hformat'⟩
  · have ho := ha.owes howed
    obtain ⟨hwords', hput'⟩ := imm_words (h := d.handle) hbuffered
    refine ⟨⟨hbeats, hbvals⟩, ho.idle, (imm_flag ..).trans ho.flag_eq,
      (imm_format ..).trans ho.format_eq, ?_⟩
    show sim.put _ _ (.vector (value.imm d.handle .set).1.words) = _
    rw [hwords', ← hput', himm, hput]

lemma Agrees.release (ha : Agrees sim st d) (mode : Mode) :
    Agrees sim ⟨st.driven.release sim mode, cachedValue, false⟩ (d.release sim mode) := by
  cases mode with
  | deferred =>
    refine ⟨ha.chdl_eq, ha.signal_eq, ha.beatNum_pos, (take_beatNum ..).trans ha.beatNum_eq,
      fun _ => ?_, fun h => absurd h Bool.false_ne_true⟩
    show Same _ (d.handle.take (.release (sim.readback d.signal)))
    rw [ha.signal_eq]
    exact ha.alike.same_of_release _
  | imm =>
    refine ⟨ha.chdl_eq, ?_, ha.beatNum_pos, ha.beatNum_eq, fun _ => ha.alike.same_of_drop,
      fun h => absurd h Bool.false_ne_true⟩
    simp only [Driven.release, ha.signal_eq, ha.alike.beatNum_eq, Fin.val_cast]

lemma Agrees.flush (ha : Agrees sim st d) :
    Agrees sim ⟨st.driven.flush sim, cachedValue, false⟩ (d.flush sim) := by
  cases howed : st.owed with
  | true =>
    have ho := ha.owes howed
    rw [flush_idle ho.idle, flush_pending ho.flag_eq ho.format_eq]
    refine ⟨ha.chdl_eq, ?_, ha.beatNum_pos, ha.beatNum_eq, fun _ => ?_, fun h => absurd h Bool.false_ne_true⟩
    · exact (congrArg (sim.put · _ _) ha.signal_eq).trans ho.settled
    · exact ⟨⟨ho.beatNum_eq, ho.bvals_eq⟩, ho.idle.symm, by simp [ho.idle]⟩
  | false =>
    have hs := ha.same howed
    cases hflag : st.driven.handle.putValueFlag with
    | none =>
      rw [flush_idle hflag, flush_idle (hs.flag_eq.trans hflag)]
      exact ⟨ha.chdl_eq, ha.signal_eq, ha.beatNum_pos, ha.beatNum_eq, fun _ => hs, fun h => absurd h Bool.false_ne_true⟩
    | some flag =>
      obtain ⟨hwords, hformat, hformat'⟩ := hs.pending (by simp [hflag])
      rw [flush_pending hflag hformat, flush_pending (hs.flag_eq.trans hflag) hformat', hwords,
        ha.signal_eq]
      exact ⟨ha.chdl_eq, rfl, ha.beatNum_pos, ha.beatNum_eq, fun _ => hs.same_of_drop,
        fun h => absurd h Bool.false_ne_true⟩

lemma fills_scalar (this : Chdl) (v : Lua.Value) : Fills this.beatNum (this.scalarValue J v) := by
  unfold Chdl.scalarValue
  split_ifs with h
  · exact h
  · trivial
  · trivial

lemma buffered_scalar (this : Chdl) (v : Lua.Value) :
    Buffered .set (this.scalarValue J v) = true := by
  unfold Chdl.scalarValue
  split_ifs <;> rfl

lemma set_scalar (this : Chdl) (mode : Mode) (v : Lua.Value) :
    this.other J get (.set mode (.scalar v)) =
      some (this, [⟨mode, .set, this.hdl, this.scalarValue J v⟩]) := by
  unfold Chdl.other Chdl.scalarValue
  split_ifs <;> cases mode <;> rfl

lemma setCached_eq (this : Chdl) (mode : Mode) (arg : Arg) :
    this.setCached J cachedValue mode arg =
      setCachedBy J (fun v => ⟨mode, .set, this.hdl, this.scalarValue J v⟩) cachedValue arg := by
  unfold Chdl.setCached Chdl.scalarValue
  cases mode <;> split_ifs <;> rfl

lemma Agrees.setCached (ha : Agrees sim st d) (mode : Mode)
    (hput : st.skips J v = true → match mode with
      | .deferred => st.driven.Repeats sim (st.driven.chdl.scalarValue J v)
      | .imm => st.driven.RepeatsImm sim (st.driven.chdl.scalarValue J v))
    (hputs : ∀ s x, sim.put (sim.put s .vpiNoDelay x) .vpiNoDelay x = sim.put s .vpiNoDelay x) :
    ∃ st' d', st.step J sim (.setCached mode (.scalar v)) = some st' ∧
      d.step J sim (.setCached mode (.scalar v)) = some d' ∧ Agrees sim st' d' := by
  have hfills := fills_scalar (J := J) st.driven.chdl v
  have hbuffered := buffered_scalar (J := J) st.driven.chdl v
  have hwrite : d.step J sim (.setCached mode (.scalar v)) =
      some (Driven.perform sim { d with chdl := st.driven.chdl }
        ⟨mode, .set, st.driven.chdl.hdl, st.driven.chdl.scalarValue J v⟩) := by
    rw [Driven.step, Driven.write, set_scalar, ha.chdl_eq]
    rfl
  cases hskips : st.skips J v with
  | true =>
    have hstep : st.step J sim (.setCached mode (.scalar v)) =
        some { st with owed := st.owedAfter J (.setCached mode (.scalar v)) } := by
      rw [Cached.step, setCached_eq, setCachedBy, if_pos (show st.cachedValue.any _ = _ from hskips)]
      rfl
    have hchdl : { d with chdl := st.driven.chdl } = d := by rw [← ha.chdl_eq]
    refine ⟨_, _, hstep, hwrite, ?_⟩
    rw [hchdl]
    cases mode with
    | deferred =>
      rw [Cached.owedAfter, hskips, Bool.true_and]
      exact ha.skip hfills (hput hskips)
    | imm => exact ha.skip_imm hfills hbuffered (hput hskips)
  | false =>
    have hstep : st.step J sim (.setCached mode (.scalar v)) =
        some ⟨Driven.perform sim st.driven
          ⟨mode, .set, st.driven.chdl.hdl, st.driven.chdl.scalarValue J v⟩, some v,
          st.owedAfter J (.setCached mode (.scalar v))⟩ := by
      rw [Cached.step, setCached_eq, setCachedBy, if_neg (by simpa [Cached.skips] using hskips)]
      rfl
    have howed : st.owedAfter J (.setCached mode (.scalar v)) =
        (decide (mode = .imm) && st.owed) := by
      cases mode with
      | deferred => simp [Cached.owedAfter, hskips]
      | imm => simp [Cached.owedAfter]
    refine ⟨_, _, hstep, hwrite, ?_⟩
    rw [howed]
    exact ha.perform (c := ⟨mode, .set, st.driven.chdl.hdl, st.driven.chdl.scalarValue J v⟩) rfl
      hfills (fun _ _ => ⟨rfl, hbuffered⟩) hputs

lemma Cached.step_other (st : Cached S) (w : Other) :
    st.step J sim (.other w) = (st.driven.write J sim w).bind fun driven =>
      some ⟨driven, st.cachedValue, st.owedAfter J (.other w)⟩ := rfl

lemma Agrees.other (ha : Agrees sim st d) (w : Other)
    (hthrough : st.owed = true → w.mode = .imm →
      w.throughBuffer st.driven.chdl.beatNum = true)
    (hputs : ∀ s x, sim.put (sim.put s .vpiNoDelay x) .vpiNoDelay x = sim.put s .vpiNoDelay x) :
    Option.Rel (Agrees sim) (st.step J sim (.other w)) (d.step J sim (.other w)) := by
  have hasks : Asks st.driven.chdl.beatNum w.mode _ _
      (st.driven.chdl.other J (fun _ => sim.get st.driven.signal) w) :=
    other_asks ha.beatNum_pos w
  rw [Cached.step_other, Driven.step, Driven.write, Driven.write, ha.chdl_eq, ha.signal_eq]
  cases hother : st.driven.chdl.other J (fun _ => sim.get st.driven.signal) w with
  | none => exact .none
  | some p =>
    obtain ⟨chdl, calls⟩ := p
    obtain ⟨hwidth, c, rfl, hmode, hfills, hbuffered⟩ := hasks chdl calls hother
    have howed : st.owedAfter J (.other w) = (decide (c.mode = .imm) && st.owed) := by
      rw [hmode]
      rfl
    rw [howed]
    have hboth : Agrees sim ⟨Driven.perform sim { st.driven with chdl := chdl } c, st.cachedValue,
        decide (c.mode = .imm) && st.owed⟩ (Driven.perform sim { d with chdl := chdl } c) :=
      ha.perform hwidth hfills (fun howed himm => hbuffered (hthrough howed (hmode ▸ himm))) hputs
    have hd : { d with chdl := chdl } = ⟨chdl, d.handle, st.driven.signal⟩ := by
      rw [← ha.signal_eq]
    rw [hd] at hboth
    exact .some hboth

lemma Agrees.step (ha : Agrees sim st d) {a : Step} (hok : st.Permitted J sim a)
    (hputs : ∀ s x, sim.put (sim.put s .vpiNoDelay x) .vpiNoDelay x = sim.put s .vpiNoDelay x) :
    Option.Rel (Agrees sim) (st.step J sim a) (d.step J sim a) := by
  cases a with
  | setCached mode value =>
    obtain ⟨v, rfl, hput⟩ := hok
    obtain ⟨st', d', hst, hd, ha'⟩ := ha.setCached mode hput hputs
    rw [hst, hd]
    exact .some ha'
  | other w => exact ha.other w hok hputs
  | release mode => exact .some (ha.release mode)
  | flush => exact .some ha.flush

lemma Agrees.run (ha : Agrees sim st d) {steps : List Step}
    (hok : Along (Cached.step J sim) (Cached.Permitted J sim) st steps)
    (hputs : ∀ s x, sim.put (sim.put s .vpiNoDelay x) .vpiNoDelay x = sim.put s .vpiNoDelay x) :
    Option.Rel (Agrees sim) (run (Cached.step J sim) st steps)
      (run (Driven.step J sim) d steps) := by
  induction steps generalizing st d with
  | nil => exact .some ha
  | cons a steps ih =>
    obtain ⟨hfirst, hrest⟩ := hok
    have hstep := ha.step hfirst hputs
    rw [TransitionSystem.run, TransitionSystem.run]
    cases hst : st.step J sim a with
    | none =>
      cases hd : d.step J sim a with
      | none => exact .none
      | some d' =>
        rw [hst, hd] at hstep
        cases hstep
    | some st' =>
      cases hd : d.step J sim a with
      | none =>
        rw [hst, hd] at hstep
        cases hstep
      | some d' =>
        rw [hst, hd] at hstep
        cases hstep with
        | some ha' => exact ih ha' (hrest st' hst)

/-- With nothing pending at first: in a run in which every write that is left out may be left out,
the signal has at any time the value that it has with `set` and `set_imm`. -/
theorem signal_eq_of_permitted {steps : List Step} (hbeats : 1 ≤ d.chdl.beatNum)
    (hh : d.handle.beatNum = d.chdl.beatNum) (hidle : d.handle.putValueFlag = none)
    (hputs : ∀ s x, sim.put (sim.put s .vpiNoDelay x) .vpiNoDelay x = sim.put s .vpiNoDelay x)
    (hok : Along (Cached.step J sim) (Cached.Permitted J sim) ⟨d, cachedValue, false⟩ steps) :
    ∀ past, past <+: steps →
      (run (Cached.step J sim) ⟨d, cachedValue, false⟩ past).map (·.driven.signal) =
        (run (Driven.step J sim) d past).map (·.signal) := by
  rintro past ⟨later, rfl⟩
  have ha : Agrees sim ⟨d, cachedValue, false⟩ d :=
    ⟨rfl, rfl, hbeats, hh, fun _ => ⟨⟨rfl, rfl⟩, rfl, by simp [hidle]⟩,
      fun h => absurd h Bool.false_ne_true⟩
  have hrun := ha.run (along_append.mp hok).1 hputs
  generalize run (Cached.step J sim) _ past = st', run (Driven.step J sim) d past = d' at hrun ⊢
  cases hrun with
  | none => rfl
  | some ha' => exact congrArg some ha'.signal_eq.symm

/-- A register of one beat that nothing else drives. -/
def register : Simulator UInt32 where
  put s _ value :=
    match value with
    | .vector words => (words.head?.map (·.aval)).getD s
    | .integer v => v
    | _ => s
  get s _ := s
  readback s := ⟨fun _ => ⟨s, 0⟩, s⟩

def registerChdl : Chdl where
  hdl := 0
  width := 32
  isArray := false
  arrayHdls := []
  cResults := [0, 0]
  bitvec := none
  arrayBitvecs := fun _ => none

def registerDriven : Driven UInt32 where
  chdl := registerChdl
  handle := .new { vpiHandle := 0, width := 32, fits := by decide }
  signal := 0

/-- The same value is set in two time steps. -/
def setTwice : List Step :=
  [.setCached .deferred (.scalar (.num 5)), .flush,
    .setCached .deferred (.scalar (.num 5)), .flush]

theorem signal_eq_of_permitted_setTwice :
    (run (Cached.step .exact register) ⟨registerDriven, none, false⟩ setTwice).map
        (·.driven.signal) =
      (run (Driven.step .exact register) registerDriven setTwice).map (·.signal) := by
  refine signal_eq_of_permitted (by decide) rfl rfl (fun s x => ?_) ?_ setTwice List.prefix_rfl
  · cases x with
    | vector words => cases words <;> rfl
    | _ => rfl
  · refine ⟨⟨_, rfl, fun h => absurd h (by decide)⟩, fun st₁ h₁ => ?_⟩
    cases h₁
    refine ⟨trivial, fun st₂ h₂ => ?_⟩
    cases h₂
    refine ⟨⟨_, rfl, fun _ => .inr (.inr ⟨rfl, by decide +kernel, by decide +kernel⟩)⟩, fun st₃ h₃ => ?_⟩
    cases h₃
    exact ⟨trivial, fun _ _ => trivial⟩

/-- Another value is set in between. -/
def setBetween : List Step :=
  [.setCached .deferred (.scalar (.num 5)), .flush, .other (.set .deferred (.scalar (.num 7))),
    .flush, .setCached .deferred (.scalar (.num 5)), .flush]

theorem not_signal_eq_setBetween : ¬ ∀ steps,
    (run (Cached.step .exact register) ⟨registerDriven, none, false⟩ steps).map (·.driven.signal) =
      (run (Driven.step .exact register) registerDriven steps).map (·.signal) := by
  intro hall
  have hcached : (run (Cached.step .exact register) ⟨registerDriven, none, false⟩ setBetween).map
      (·.driven.signal) = some 7 := by decide +kernel
  have hset : (run (Driven.step .exact register) registerDriven setBetween).map (·.signal) =
      some 5 := by decide +kernel
  have hclaim := hall setBetween
  rw [hcached, hset] at hclaim
  cases hclaim

end Verilua.Access
