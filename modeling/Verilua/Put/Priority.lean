import Verilua.Put.Agree

/-!
# Coalescing requests

Of the deferred requests on a handle between two flushes, the last force or release should be the
one that is committed, or the last set if there is neither. `try_put_value` compares a new flag with
the pending one only, and refuses a set over a pending force but not over a pending release.
-/

namespace Verilua.Put

open TransitionSystem

variable {raw : ComplexHandleRaw} {h : ComplexHandle} {r : Request} {rs earlier later : List Request}
  {m m' m₂ m₃ : Machine} {a : Act} {as : List Act} {since : List Ev}

/-! ### The priority rule -/

/-- A force or a release. -/
def Request.isPrior (r : Request) : Bool := decide (r.flag ≠ .vpiNoDelay)

/-- Among `earlier ++ r :: later`, the rule picks `r`. -/
def Wins (earlier : List Request) (r : Request) (later : List Request) : Prop :=
  if r.isPrior then ∀ r' ∈ later, r'.isPrior = false
  else later = [] ∧ ∀ r' ∈ earlier, r'.isPrior = false

/-! ### What the code does -/

/-- The buffers of the handle after a request on it. -/
def ComplexHandle.take (h : ComplexHandle) (r : Request) : ComplexHandle :=
  if h.putValueFlag.any fun curr => Env.refuses curr r.flag then h
  else r.write { h with putValueFlag := some r.flag, putValueFormat := r.format }

/-- The requests on `raw` among the actions of a run. -/
def Act.request? (raw : ComplexHandleRaw) : Act → Option Request
  | .request raw' r => if raw' = raw then some r else none
  | _ => none

def requests (raw : ComplexHandleRaw) (as : List Act) : List Request :=
  as.filterMap (Act.request? raw)

/-- The action writes to `raw` at once. -/
def Act.immediate (raw : ComplexHandleRaw) : Act → Bool
  | .imm raw' _ _ | .releaseImm raw' _ => decide (raw' = raw)
  | _ => false

lemma refuses_eq_true_iff {curr flag : PutFlag} :
    Env.refuses curr flag = true ↔ curr = .vpiForceFlag ∧ flag = .vpiNoDelay := by
  cases curr <;> cases flag <;> decide

lemma Request.isPrior_eq_false_iff : r.isPrior = false ↔ r.flag = .vpiNoDelay := by
  simp [Request.isPrior]

lemma take_of_refused (hflag : h.putValueFlag = some .vpiForceFlag) (hr : r.isPrior = false) :
    h.take r = h := by
  have hrefuse := refuses_eq_true_iff.mpr ⟨rfl, Request.isPrior_eq_false_iff.mp hr⟩
  simp [ComplexHandle.take, hflag, hrefuse]

lemma take_of_accepted (hr : h.putValueFlag ≠ some .vpiForceFlag ∨ r.isPrior = true) :
    h.take r = r.write { h with putValueFlag := some r.flag, putValueFormat := r.format } := by
  refine if_neg fun hrefuse => ?_
  obtain ⟨curr, hcurr, hrefuse⟩ := (Option.any_eq_true _ _).mp hrefuse
  obtain ⟨rfl, hflag⟩ := refuses_eq_true_iff.mp hrefuse
  rcases hr with hne | hprior
  · exact hne hcurr
  · simp [Request.isPrior_eq_false_iff.mpr hflag] at hprior

lemma take_flag (hr : h.putValueFlag ≠ some .vpiForceFlag ∨ r.isPrior = true) :
    (h.take r).putValueFlag = some r.flag := by
  rw [take_of_accepted hr, write_flag]

lemma foldl_take_of_force (hflag : h.putValueFlag = some .vpiForceFlag)
    (hset : ∀ r ∈ rs, r.isPrior = false) : rs.foldl ComplexHandle.take h = h := by
  induction rs with
  | nil => rfl
  | cons r rs ih =>
    rw [List.foldl_cons, take_of_refused hflag (hset r List.mem_cons_self)]
    exact ih fun r' hr' => hset r' (List.mem_cons_of_mem _ hr')

lemma foldl_take_flag (hflag : h.putValueFlag ≠ some .vpiForceFlag)
    (hset : ∀ r ∈ rs, r.isPrior = false) :
    (rs.foldl ComplexHandle.take h).putValueFlag =
      if rs = [] then h.putValueFlag else some .vpiNoDelay := by
  induction rs generalizing h with
  | nil => rfl
  | cons r rs ih =>
    have hr := Request.isPrior_eq_false_iff.mp (hset r List.mem_cons_self)
    have htake : (h.take r).putValueFlag = some .vpiNoDelay := by
      rw [take_flag (.inl hflag), hr]
    rw [List.foldl_cons, ih (by simp [htake]) fun r' hr' => hset r' (List.mem_cons_of_mem _ hr'),
      htake]
    simp

lemma accepts_of_wins (hwins : Wins earlier r later) (hnone : h.putValueFlag = none) :
    (earlier.foldl ComplexHandle.take h).putValueFlag ≠ some .vpiForceFlag ∨ r.isPrior = true := by
  by_cases hr : r.isPrior = true
  · exact .inr hr
  · rw [Wins, if_neg hr] at hwins
    rw [foldl_take_flag (by simp [hnone]) hwins.2, hnone]
    left
    split_ifs <;> simp

/-- The request that the rule picks is what the buffers hold, unless it is a release and a set has
come after it. -/
lemma foldl_take_of_wins (hwins : Wins earlier r later) (hnone : h.putValueFlag = none)
    (hrel : r.flag = .vpiReleaseFlag → later = []) :
    (earlier ++ r :: later).foldl ComplexHandle.take h =
      r.write { earlier.foldl ComplexHandle.take h with
        putValueFlag := some r.flag, putValueFormat := r.format } := by
  have htake := take_of_accepted (accepts_of_wins hwins hnone)
  rw [List.foldl_append, List.foldl_cons, htake]
  cases hflag : r.flag with
  | vpiForceFlag =>
    have hprior : r.isPrior = true := by simp [Request.isPrior, hflag]
    rw [Wins, if_pos hprior] at hwins
    exact foldl_take_of_force (by rw [write_flag]) hwins
  | vpiReleaseFlag => rw [hrel hflag, List.foldl_nil]
  | vpiNoDelay =>
    have hprior : r.isPrior = false := Request.isPrior_eq_false_iff.mpr hflag
    simp only [Wins, hprior, Bool.false_eq_true, if_false] at hwins
    rw [hwins.1, List.foldl_nil]

lemma foldl_take_flag_of_release (hwins : Wins earlier r later) (hflag : r.flag = .vpiReleaseFlag)
    (hlater : later ≠ []) :
    ((earlier ++ r :: later).foldl ComplexHandle.take h).putValueFlag = some .vpiNoDelay := by
  have hprior : r.isPrior = true := by simp [Request.isPrior, hflag]
  rw [Wins, if_pos hprior] at hwins
  rw [List.foldl_append, List.foldl_cons, foldl_take_flag ?_ hwins, if_neg hlater]
  rw [take_flag (.inr hprior), hflag]
  simp

/-! ### From one flush to the next -/

lemma take_beatNum (h : ComplexHandle) (r : Request) : (h.take r).beatNum = h.beatNum := by
  unfold ComplexHandle.take
  split_ifs
  · rfl
  · cases r with
    | release => rfl
    | set action value => cases value <;> rfl

lemma foldl_take_beatNum (h : ComplexHandle) (rs : List Request) :
    (rs.foldl ComplexHandle.take h).beatNum = h.beatNum := by
  induction rs generalizing h with
  | nil => rfl
  | cons r rs ih => rw [List.foldl_cons, ih, take_beatNum]

lemma request_handle {raw' : ComplexHandleRaw} (hf : (m.request raw' r).fault = none) :
    (m.request raw' r).env.handles raw =
      if raw' = raw then (m.env.handles raw).take r else m.env.handles raw := by
  unfold Machine.request at hf ⊢
  have hreq := Requested.of_request m.cfg m.env raw' r
  revert hreq hf
  generalize m.env.request m.cfg raw' r = res
  rintro hf (⟨curr, hflag, hr⟩ | hflag | ⟨curr, e, hflag, hr, he⟩ | ⟨curr, hflag, hr, he⟩)
  · dsimp only
    split_ifs with heq
    · subst heq
      simp [ComplexHandle.take, hflag, hr]
    · rfl
  · by_cases heq : raw' = raw
    · subst heq
      simp [ComplexHandle.take, hflag, Env.fill]
    · simp [Env.fill, heq, Function.update_of_ne (Ne.symm heq)]
  · by_cases heq : raw' = raw
    · subst heq
      simp [ComplexHandle.take, hflag, hr, Env.fill]
    · simp [Env.fill, heq, Function.update_of_ne (Ne.symm heq)]
  · cases hf

/-- Nothing but a write to the handle and its put changes its buffers and its flag. -/
lemma Rule.handle_eq (hr : Rule m a m') (ht : a.touches raw = false)
    (hput : ∀ flag v, m'.log ≠ .put raw flag v :: m.log) :
    m'.env.handles raw = m.env.handles raw := by
  cases hr with
  | fresh raw' r | replaced raw' r =>
    have hne : raw ≠ raw' := Ne.symm (of_decide_eq_false ht)
    simp [Env.fill, Function.update_of_ne hne]
  | imm raw' action value =>
    have hne : raw ≠ raw' := Ne.symm (of_decide_eq_false ht)
    simp [Machine.imm, Function.update_of_ne hne]
  | releaseImm raw' current =>
    have hne : raw ≠ raw' := Ne.symm (of_decide_eq_false ht)
    exact releaseImm_handle hne
  | put f raw' value =>
    by_cases heq : raw = raw'
    · subst heq
      exact absurd rfl (hput _ _)
    · simp [Function.update_of_ne heq]
  | _ => rfl

lemma Rule.log_suffix (hr : Rule m a m') : m.log <:+ m'.log := by
  cases hr with
  | missing | unsupported | apply | passAgain | flushDone | nextSimTime => exact List.suffix_rfl
  | _ => exact List.suffix_cons _ _

lemma fault_of_run (hrun : run Machine.step m as = some m') (hf : m'.fault = none) :
    m.fault = none := by
  cases as with
  | nil =>
    cases hrun
    exact hf
  | cons a as =>
    obtain ⟨m₁, hs, -⟩ := Option.bind_eq_some_iff.mp hrun
    exact (Rule.of_step hs).1

lemma log_suffix_of_run (hrun : run Machine.step m as = some m') : m.log <:+ m'.log := by
  induction as generalizing m with
  | nil =>
    cases hrun
    exact List.suffix_rfl
  | cons a as ih =>
    obtain ⟨m₁, hs, hrest⟩ := Option.bind_eq_some_iff.mp hrun
    exact (Rule.of_step hs).2.log_suffix.trans (ih hrest)

lemma step_request {raw' : ComplexHandleRaw} (hs : m.step (.request raw' r) = some m') :
    m' = m.request raw' r := by
  unfold Machine.step at hs
  dsimp only at hs
  split_ifs at hs
  exact (Option.some.inj hs).symm

/-- A step that does not put the handle: its buffers take the request that the step makes on it. -/
lemma handle_of_step (hs : m.step a = some m') (hf : m'.fault = none)
    (himm : a.immediate raw = false) (hput : ∀ flag v, m'.log ≠ .put raw flag v :: m.log) :
    m'.env.handles raw =
      (a.request? raw).toList.foldl ComplexHandle.take (m.env.handles raw) := by
  obtain ⟨-, hr⟩ := Rule.of_step hs
  cases a with
  | request raw' r =>
    rw [step_request hs] at hf ⊢
    rw [request_handle hf]
    by_cases heq : raw' = raw <;> simp [Act.request?, heq]
  | imm raw' action value => exact hr.handle_eq himm hput
  | releaseImm raw' current => exact hr.handle_eq himm hput
  | apply | put | endPass | flushDone | nextSimTime => exact hr.handle_eq rfl hput

lemma handle_of_run (hrun : run Machine.step m as = some m') (hf : m'.fault = none)
    (himm : ∀ a ∈ as, a.immediate raw = false) (hlog : m'.log = since ++ m.log)
    (hput : ∀ flag v, .put raw flag v ∉ since) :
    m'.env.handles raw = (requests raw as).foldl ComplexHandle.take (m.env.handles raw) := by
  induction as generalizing m since with
  | nil =>
    cases hrun
    rfl
  | cons a as ih =>
    obtain ⟨m₁, hs, hrest⟩ := Option.bind_eq_some_iff.mp hrun
    obtain ⟨new, hnew⟩ := (Rule.of_step hs).2.log_suffix
    obtain ⟨since', hsince⟩ := log_suffix_of_run hrest
    have hsplit : since = since' ++ new :=
      List.append_cancel_right (by rw [List.append_assoc, hnew, hsince, hlog])
    have hfirst := handle_of_step hs (fault_of_run hrest hf) (himm a List.mem_cons_self)
      fun flag v heq => hput flag v (by
        have hone : new = [.put raw flag v] := List.append_cancel_right (hnew.trans heq)
        simp [hsplit, hone])
    rw [ih hrest (fun a ha => himm a (List.mem_cons_of_mem _ ha)) hsince.symm fun flag v hmem =>
      hput flag v (hsplit ▸ List.mem_append_left _ hmem), hfirst, requests, requests,
      List.filterMap_cons]
    cases a.request? raw <;> rfl

/-! ### What is committed -/

def Request.fitsBeats (h : ComplexHandle) : Request → Prop
  | .set _ value => value.fitsBeats h
  | .release _ => True

/-- What the request does not write is already what its immediate form hands over. -/
def Request.leftClear (extend : UInt32 → VecVal) (h : ComplexHandle) : Request → Prop
  | .set action value => value.leftClear extend h action
  | .release _ => True

instance (extend : UInt32 → VecVal) : Decidable (r.leftClear extend h) :=
  match r with
  | .set action value => inferInstanceAs (Decidable (value.leftClear extend h action))
  | .release _ => inferInstanceAs (Decidable True)

/-- The operation passed to `vpi_put_value` is the request: its flag, and where it is a set or a
force the value that its immediate form hands over. -/
def Request.committedAs (extend : UInt32 → VecVal) (h : ComplexHandle) (r : Request)
    (flag : Option PutFlag) (v : VpiValue) : Prop :=
  flag = some r.flag ∧
    match r with
    | .set action value =>
      v.driven extend h.beatNum = (value.imm h action).2.driven extend h.beatNum
    | .release _ => True

lemma flag_of_put {flag : Option PutFlag} {v : VpiValue} (hput : m₂.step .put = some m₃)
    (hlog : m₃.log = .put raw flag v :: m₂.log) :
    flag = (m₂.env.handles raw).putValueFlag := by
  obtain ⟨-, hr⟩ := Rule.of_step hput
  cases hr with
  | unsupported => exact absurd hlog.symm (List.cons_ne_self _ _)
  | put f raw' value =>
    cases hlog
    rfl

lemma committedAs_of_write {extend : UInt32 → VecVal} {v : VpiValue}
    (hfit : r.fitsBeats h) (hv : (r.write { h with
      putValueFlag := some r.flag, putValueFormat := r.format }).pendingValue = some v) :
    r.committedAs extend h (some r.flag) v ↔ r.leftClear extend h := by
  cases r with
  | release current => exact iff_of_true ⟨rfl, trivial⟩ trivial
  | set action value =>
    have hwrite := pendingValue_write value h (some action.flag)
    have heq : v = value.deferred h := Option.some_injective _ (hv.symm.trans hwrite)
    rw [heq]
    exact (and_iff_right rfl).trans (deferred_eq_imm_iff extend hfit)

lemma fitsBeats_take {earlier : List Request} (hfit : r.fitsBeats h) :
    r.fitsBeats (earlier.foldl ComplexHandle.take h) := by
  cases r with
  | release => trivial
  | set action value =>
    cases value with
    | valueMultiBeat v => exact Eq.trans hfit (foldl_take_beatNum h earlier).symm
    | _ => trivial

/-- From a state in which the handle has nothing pending, after requests on it of any number and
kind: the flush commits the one that the rule picks exactly when no set has come after a release
that is the last of the forces and releases, and the words and bits that the request picked does not
write were clear. -/
theorem committedAs_iff {flag : Option PutFlag} {v : VpiValue} (extend : UInt32 → VecVal)
    (hnone : (m.env.handles raw).putValueFlag = none) (hrun : run Machine.step m as = some m₂)
    (himm : ∀ a ∈ as, a.immediate raw = false) (hsince : m₂.log = since ++ m.log)
    (hno : ∀ flag v, .put raw flag v ∉ since) (hrs : requests raw as = earlier ++ r :: later)
    (hwins : Wins earlier r later) (hfit : r.fitsBeats (m.env.handles raw))
    (hput : m₂.step .put = some m₃) (hlog : m₃.log = .put raw flag v :: m₂.log) :
    r.committedAs extend (earlier.foldl ComplexHandle.take (m.env.handles raw)) flag v ↔
      (r.flag = .vpiReleaseFlag → later = []) ∧
        r.leftClear extend (earlier.foldl ComplexHandle.take (m.env.handles raw)) := by
  have hhandle := handle_of_run hrun (Rule.of_step hput).1 himm hsince hno
  have hflag := flag_of_put hput hlog
  have hv := pendingValue_of_put hput hlog
  rw [hhandle, hrs] at hflag hv
  by_cases hrel : r.flag = .vpiReleaseFlag → later = []
  · rw [foldl_take_of_wins hwins hnone hrel] at hflag hv
    rw [write_flag] at hflag
    rw [and_iff_right hrel, hflag]
    exact committedAs_of_write (fitsBeats_take hfit) hv
  · rw [Classical.not_imp] at hrel
    rw [foldl_take_flag_of_release hwins hrel.1 hrel.2] at hflag
    refine iff_of_false (fun hcom => ?_) fun hcond => hrel.2 (hcond.1 hrel.1)
    have heq := hflag.symm.trans hcom.1
    rw [hrel.1] at heq
    cases heq

def releaseZero : Request := .release ⟨fun _ => ⟨0, 0⟩, 0⟩

/-- A release and then a set of a one-bit signal. -/
def setOverRelease : List Act :=
  [.request 0 releaseZero, .request 0 (.set .set (.value 1)), .apply]

theorem not_committedAs :
    ¬ ∀ (extend : UInt32 → VecVal) (m m₂ m₃ : Machine) (raw : ComplexHandleRaw) (as : List Act)
        (since : List Ev) (earlier later : List Request) (r : Request) (flag : Option PutFlag)
        (v : VpiValue), Machine.Reached ⟨false, false⟩ bit Unguarded m →
      (m.env.handles raw).putValueFlag = none → run Machine.step m as = some m₂ →
      (∀ a ∈ as, a.immediate raw = false) → m₂.log = since ++ m.log →
      (∀ flag v, .put raw flag v ∉ since) → requests raw as = earlier ++ r :: later →
      Wins earlier r later → r.fitsBeats (m.env.handles raw) → m₂.step .put = some m₃ →
      m₃.log = .put raw flag v :: m₂.log →
      r.committedAs extend (earlier.foldl ComplexHandle.take (m.env.handles raw)) flag v := by
  intro h
  have hrun : ((run Machine.step (Machine.init ⟨false, false⟩ bit) setOverRelease).bind fun m₂ =>
      (m₂.step .put).map fun m₃ => decide (
        m₂.log = [.accepted 0 .vpiNoDelay (some (.vector [⟨1, 0⟩])),
          .accepted 0 .vpiReleaseFlag (some (.vector [⟨0, 0⟩]))] ∧
        m₃.log = .put 0 (some .vpiNoDelay) (.vector [⟨1, 0⟩]) :: m₂.log)) = some true := by
    decide +kernel
  obtain ⟨m₂, hm₂, hrun⟩ := Option.bind_eq_some_iff.mp hrun
  obtain ⟨m₃, hput, hrun⟩ := Option.map_eq_some_iff.mp hrun
  obtain ⟨hlog₂, hlog₃⟩ := of_decide_eq_true hrun
  have hcom := h (fun _ => .zero) (.init ⟨false, false⟩ bit) m₂ m₃ 0 setOverRelease m₂.log []
    [.set .set (.value 1)] releaseZero _ _ .refl rfl hm₂ (by decide) (List.append_nil _).symm
    (by simp [hlog₂]) rfl (by simp [Wins, Request.isPrior, Request.flag, releaseZero, Action.flag])
    trivial hput hlog₃
  cases hcom.1

/-- A set, a force and two more sets. -/
def setsOverForce : List Act :=
  [.request 0 (.set .set (.value 0)), .request 0 (.set .force (.value 1)),
   .request 0 (.set .set (.value 0)), .request 0 (.set .set (.valueStr "0")), .apply]

theorem committedAs_of_setsOverForce :
    ∃ (m₂ m₃ : Machine) (flag : Option PutFlag) (v : VpiValue),
      run Machine.step (Machine.init ⟨false, false⟩ bit) setsOverForce = some m₂ ∧
      m₂.step .put = some m₃ ∧ m₃.log = .put 0 flag v :: m₂.log ∧
      (Request.set .force (.value 1)).committedAs (fun _ => .zero)
        ((ComplexHandle.new (bit 0)).take (.set .set (.value 0))) flag v := by
  have hrun : ((run Machine.step (Machine.init ⟨false, false⟩ bit) setsOverForce).bind fun m₂ =>
      (m₂.step .put).map fun m₃ => decide (
        m₂.log = [.refused 0, .refused 0, .accepted 0 .vpiForceFlag (some (.vector [⟨1, 0⟩])),
          .accepted 0 .vpiNoDelay (some (.vector [⟨0, 0⟩]))] ∧
        m₃.log = .put 0 (some .vpiForceFlag) (.vector [⟨1, 0⟩]) :: m₂.log)) = some true := by
    decide +kernel
  obtain ⟨m₂, hm₂, hrun⟩ := Option.bind_eq_some_iff.mp hrun
  obtain ⟨m₃, hput, hrun⟩ := Option.map_eq_some_iff.mp hrun
  obtain ⟨hlog₂, hlog₃⟩ := of_decide_eq_true hrun
  have hwins : Wins [.set .set (.value 0)] (.set .force (.value 1))
      [.set .set (.value 0), .set .set (.valueStr "0")] := by
    simp [Wins, Request.isPrior, Request.flag, Action.flag]
  have hclear : (Request.set .force (.value 1)).leftClear (fun _ => .zero)
      ((ComplexHandle.new (bit 0)).take (.set .set (.value 0))) := by
    decide +kernel
  exact ⟨m₂, m₃, _, _, hm₂, hput, hlog₃, (committedAs_iff (fun _ => .zero) rfl hm₂ (by decide)
    (List.append_nil _).symm (by simp [hlog₂]) rfl hwins trivial hput hlog₃).mpr
    ⟨fun h => (nomatch h), hclear⟩⟩

end Verilua.Put
