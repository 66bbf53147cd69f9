import Verilua.Synch.Rules

/-!
# The flush is armed

Which callbacks of the flush are outstanding: the driver of the time steps or the first flush of the
present one, and a flush for every value that is queued after it.
-/

namespace Verilua.Synch

open TransitionSystem Put

namespace Sim

/-- What the flags ask of the simulator: a flush that is registered again, or the first one. -/
def wanted (s : Sim) : Bool :=
  s.put.env.rwCbReRegistered || (s.driven && !s.put.env.rwPhasePassed)

/-- The flush callbacks that are outstanding, and the one that is being handled. -/
def armed (s : Sim) : Nat := s.flushCbs + if s.handler = some .flush then 1 else 0

/-- The queues between and during the flushes. -/
structure Queues (s : Sim) : Prop where
  idle : s.put.flush = none →
    s.put.env.hdlPutValueBak.toList = [] ∧ s.put.env.useHdlPutValueBak = false
  inPass : s.put.flush ≠ none → s.put.env.useHdlPutValueBak = s.put.cfg.callsBack ∧
    (s.put.cfg.callsBack = false → s.put.env.hdlPutValueBak.toList = [])
  emptied : s.put.flush = none → s.handler = some .flush → s.put.env.hdlPutValue.toList = []
  handled : s.put.flush ≠ none → s.handler ≠ none

/-- The time step and its driver. -/
structure Driven (s : Sim) : Prop where
  undriven : .driver ∈ s.due → s.driven = false
  due : s.begun = true → s.driven = false → .driver ∈ s.due
  fresh : s.begun = false → s.due = [] ∧ s.driven = false ∧ s.put.env.rwPhasePassed = false
  drivers : s.drivers = if s.driven && !s.put.env.rwPhasePassed then 0 else 1

/-- The flags and the flush callbacks. -/
structure Flags (s : Sim) : Prop where
  le : s.flushes ≤ s.put.env.rwSynchCbs
  passed : s.put.env.rwCbReRegistered = true → s.put.env.rwPhasePassed = true
  queued : s.put.env.rwPhasePassed = true →
    s.put.flush ≠ none ∨ s.put.env.hdlPutValue.toList ≠ [] → s.put.env.rwCbReRegistered = true
  unasked : s.driven = false → s.early = false → s.put.env.rwCbReRegistered = false
  driven : s.handler = some .flush → s.driven = true
  atLeast : s.wanted = true → 1 ≤ s.armed
  exact : (s.driven = true → s.early = false) → s.armed = if s.wanted then 1 else 0

structure ArmedInv (s : Sim) : Prop where
  queues : s.Queues
  driven : s.Driven
  flags : s.Flags

variable {cfg : Config} {signals : ComplexHandleRaw → Signal} {s s' : Sim} {a : Act}

lemma ArmedInv.init (cfg : Config) (signals : ComplexHandleRaw → Signal) :
    ArmedInv (init cfg signals) where
  queues := ⟨fun _ => ⟨rfl, rfl⟩, fun h => (h rfl).elim, by simp [Sim.init],
    fun h => (h rfl).elim⟩
  driven := ⟨by simp [Sim.init], by simp [Sim.init], fun _ => ⟨rfl, rfl, rfl⟩, rfl⟩
  flags := ⟨le_rfl, by simp [Sim.init, Put.Machine.init, Env.init],
    by simp [Sim.init, Put.Machine.init, Env.init], fun _ _ => rfl, by simp [Sim.init],
    by simp [Sim.init, wanted, Put.Machine.init, Env.init], fun _ => rfl⟩

/-! ### One step -/

lemma ArmedInv.of_same (h : ArmedInv s) (hput : s'.put = s.put) (hflushes : s'.flushes = s.flushes)
    (hhandler : s'.handler = some .flush ↔ s.handler = some .flush)
    (hnone : s'.handler = none → s.handler = none ∨ s.put.flush = none)
    (hdue : NextSimTimeCb.driver ∈ s'.due ↔ .driver ∈ s.due) (hnil : s.due = [] → s'.due = [])
    (hdrivers : s'.drivers = s.drivers)
    (hbegun : s'.begun = s.begun) (hdriven : s'.driven = s.driven) (hearly : s'.early = s.early) :
    ArmedInv s' := by
  have hwanted : s'.wanted = s.wanted := by rw [wanted, hput, hdriven, wanted]
  have harmed : s'.armed = s.armed := by simp only [armed, flushCbs, hput, hflushes, hhandler]
  refine ⟨⟨?_, ?_, ?_, ?_⟩, ⟨?_, ?_, ?_, ?_⟩, ⟨?_, ?_, ?_, ?_, ?_, ?_, ?_⟩⟩
  · rw [hput]
    exact h.queues.idle
  · rw [hput]
    exact h.queues.inPass
  · rw [hput, hhandler]
    exact h.queues.emptied
  · rw [hput]
    exact fun hin hidle => (hnone hidle).elim (h.queues.handled hin) hin
  · rw [hdue, hdriven]
    exact h.driven.undriven
  · rw [hdue, hdriven, hbegun]
    exact h.driven.due
  · rw [hbegun, hdriven, hput]
    exact fun hnew => (h.driven.fresh hnew).imp_left hnil
  · rw [hdrivers, hdriven, hput]
    exact h.driven.drivers
  · rw [hput, hflushes]
    exact h.flags.le
  · rw [hput]
    exact h.flags.passed
  · rw [hput]
    exact h.flags.queued
  · rw [hput, hdriven, hearly]
    exact h.flags.unasked
  · rw [hhandler, hdriven]
    exact h.flags.driven
  · rw [hwanted, harmed]
    exact h.flags.atLeast
  · rw [hwanted, harmed, hdriven, hearly]
    exact h.flags.exact

lemma not_idle_of_codeRuns (hrun : s.codeRuns = true) (hflush : s.put.flush = none) :
    s.handler ≠ some .flush := by
  intro hhandler
  simp [codeRuns, hflush, hhandler] at hrun

/-- A request after the first flush registers a flush, unless one is registered. -/
lemma Flags.of_pushed (h : Flags s) {a : Put.Act} {put : Put.Machine} (ha : isDeferred a = true)
    (hpassed : put.env.rwPhasePassed = s.put.env.rwPhasePassed)
    (hre : put.env.rwCbReRegistered = (s.put.env.rwPhasePassed || s.put.env.rwCbReRegistered))
    (hcbs : put.env.rwSynchCbs = s.put.env.rwSynchCbs +
      if s.put.env.rwPhasePassed && !s.put.env.rwCbReRegistered then 1 else 0) :
    Flags (s.wrote a put) := by
  have harmed : (s.wrote a put).armed = s.armed +
      if s.put.env.rwPhasePassed && !s.put.env.rwCbReRegistered then 1 else 0 := by
    have hle := h.le
    have hhandler : (s.wrote a put).handler = s.handler := rfl
    simp only [armed, flushCbs, hhandler]
    simp only [wrote, hcbs]
    omega
  have hwanted : (s.wrote a put).wanted =
      (s.put.env.rwPhasePassed || s.put.env.rwCbReRegistered || s.wanted) := by
    simp only [wanted, wrote, hre, hpassed]
    cases s.put.env.rwPhasePassed <;> cases s.put.env.rwCbReRegistered <;> rfl
  have hlate : ((s.wrote a put).driven = true → (s.wrote a put).early = false) →
      s.driven = true → s.early = false := by
    intro hlate hdriven
    have hnone := hlate hdriven
    simp only [wrote, Bool.or_eq_false_iff] at hnone
    exact hnone.1
  refine ⟨?_, fun hset => ?_, fun hset _ => ?_, fun hundriven hlate => ?_, h.driven,
    fun hset => ?_, fun hexact => ?_⟩
  · have hle := h.le
    simp only [wrote, hcbs]
    omega
  · have hset' : put.env.rwCbReRegistered = true := hset
    rw [hre, Bool.or_eq_true] at hset'
    exact hpassed.trans (hset'.elim id h.passed)
  · have hset' : put.env.rwPhasePassed = true := hset
    exact hre.trans (by rw [← hpassed, hset', Bool.true_or])
  · have hundriven' : s.driven = false := hundriven
    simp [wrote, ha, hundriven'] at hlate
  · rw [hwanted] at hset
    rw [harmed]
    cases hp : s.put.env.rwPhasePassed with
    | false =>
      have hr : s.put.env.rwCbReRegistered = false := by
        by_contra hne
        simpa [hp] using h.passed (by simpa using hne)
      have hbefore : s.wanted = true := by simpa [hp, hr] using hset
      exact (h.atLeast hbefore).trans (Nat.le_add_right _ _)
    | true =>
      cases hr : s.put.env.rwCbReRegistered with
      | true => exact (h.atLeast (by simp [wanted, hr])).trans (Nat.le_add_right _ _)
      | false => simp
  · rw [harmed, hwanted, h.exact (hlate hexact)]
    cases hp : s.put.env.rwPhasePassed <;> cases hr : s.put.env.rwCbReRegistered <;>
      simp [wanted, hp, hr]

lemma ArmedInv.write (h : ArmedInv s) {a : Put.Act} {put : Put.Machine} (hrun : s.codeRuns = true)
    (hw : Wrote a s.put put) : ArmedInv (s.wrote a put) := by
  have hearly : ((s.wrote a put).driven = true → (s.wrote a put).early = false) →
      s.driven = true → s.early = false := by
    intro hlate hdriven
    have hnone := hlate hdriven
    simp only [wrote, Bool.or_eq_false_iff] at hnone
    exact hnone.1
  refine ⟨⟨fun hflush => ?_, fun hflush => ?_, fun hflush hhandler => ?_,
      fun hin => h.queues.handled (hw.flush ▸ hin)⟩,
    ⟨h.driven.undriven, h.driven.due, fun hnew => ?_, ?_⟩, ?_⟩
  · have hflush' : s.put.flush = none := hw.flush ▸ hflush
    obtain ⟨hbak, huse⟩ := h.queues.idle hflush'
    exact ⟨hw.bak (by rw [huse, Bool.and_false]) hbak, hw.useBak.trans huse⟩
  · have hflush' : s.put.flush ≠ none := hw.flush ▸ hflush
    obtain ⟨huse, hbak⟩ := h.queues.inPass hflush'
    refine ⟨hw.useBak.trans (huse.trans (congrArg Config.callsBack hw.cfg.symm)), fun hcb => ?_⟩
    have hcb' : s.put.cfg.callsBack = false := hw.cfg ▸ hcb
    exact hw.bak (by rw [hcb', Bool.false_and]) (hbak hcb')
  · exact (not_idle_of_codeRuns hrun (hw.flush ▸ hflush) hhandler).elim
  · exact ⟨(h.driven.fresh hnew).1, (h.driven.fresh hnew).2.1,
      hw.passed.trans (h.driven.fresh hnew).2.2⟩
  · have hpassed : (s.wrote a put).put.env.rwPhasePassed = s.put.env.rwPhasePassed := hw.passed
    rw [hpassed]
    exact h.driven.drivers
  · rcases hw.queued with ⟨hre, hcbs, hqueue⟩ | ⟨ha, hre, hcbs⟩
    · have hwanted : (s.wrote a put).wanted = s.wanted := by
        simp only [wanted, wrote, hre, hw.passed]
      have harmed : (s.wrote a put).armed = s.armed := by
        simp only [armed, flushCbs, wrote, hcbs]
        rfl
      refine ⟨hcbs ▸ h.flags.le, fun hset => ?_, fun hset hne => ?_, fun hundriven hlate => ?_,
        h.flags.driven, ?_, fun hlate => ?_⟩
      · exact hw.passed.trans (h.flags.passed (hre ▸ hset))
      · refine hre.trans (h.flags.queued (hw.passed ▸ hset) (hne.imp (fun hin => ?_) fun hq => ?_))
        · exact hw.flush ▸ hin
        · exact fun hnil => hq (hqueue hnil)
      · simp only [wrote, Bool.or_eq_false_iff] at hlate
        exact hre.trans (h.flags.unasked hundriven hlate.1)
      · rw [hwanted, harmed]
        exact h.flags.atLeast
      · rw [hwanted, harmed]
        exact h.flags.exact (hearly hlate)
    · exact h.flags.of_pushed ha hw.passed hre hcbs

lemma ArmedInv.nextStep (h : ArmedInv s) (hidle : s.handler = none) (hdue : s.due = [])
    (hcbs : s.flushCbs = 0) : ArmedInv s.nextStep := by
  have hzero : s.armed = 0 := by simp [armed, hcbs, hidle]
  have hunwanted : s.wanted = false := by
    by_contra hwanted
    have hone := h.flags.atLeast (by simpa using hwanted)
    omega
  obtain ⟨hre, hdriven⟩ : s.put.env.rwCbReRegistered = false ∧
      (s.driven && !s.put.env.rwPhasePassed) = false := by simpa [wanted] using hunwanted
  have hone : s.nextSimTimeCbs.count .driver = 1 := by
    have hdrivers := h.driven.drivers
    rwa [hdriven, drivers, hdue] at hdrivers
  have hmem : .driver ∈ s.nextSimTimeCbs := List.count_pos_iff.mp (by omega)
  refine ⟨⟨h.queues.idle, h.queues.inPass, h.queues.emptied, h.queues.handled⟩,
    ⟨fun _ => rfl, fun _ _ => hmem, fun hnew => (nomatch hnew), ?_⟩,
    ⟨h.flags.le, h.flags.passed, h.flags.queued, fun _ _ => hre, fun hflush => ?_, fun hset => ?_,
      fun _ => ?_⟩⟩
  · simpa [drivers, Sim.nextStep] using hone
  · simp [Sim.nextStep, hidle] at hflush
  · simp [wanted, Sim.nextStep, hre] at hset
  · have hafter : s.nextStep.wanted = false := by simp [wanted, Sim.nextStep, hre]
    rw [hafter]
    exact hzero

lemma ArmedInv.driver (h : ArmedInv s) (hidle : s.handler = none) (hdue : .driver ∈ s.due) :
    ArmedInv { s with put := drive s.put, due := s.due.erase .driver, driven := true } := by
  have hundriven := h.driven.undriven hdue
  have hbegun : s.begun = true := by
    by_contra hnew
    rw [(h.driven.fresh (by simpa using hnew)).1] at hdue
    cases hdue
  have hone : s.due.count .driver + s.nextSimTimeCbs.count .driver = 1 := by
    have hdrivers := h.driven.drivers
    rwa [hundriven, drivers, List.count_append] at hdrivers
  have hpos : 0 < s.due.count .driver := List.count_pos_iff.mpr hdue
  have hgone : (s.due.erase .driver).count .driver = 0 := by
    rw [List.count_erase_self]
    omega
  have hle := h.flags.le
  have harmed : ({ s with put := drive s.put, due := s.due.erase .driver, driven := true } :
      Sim).armed = s.flushCbs + 1 := by
    simp only [armed, flushCbs, drive, Env.registerRwSynchCb, hidle]
    simp only [reduceCtorEq, if_false]
    omega
  refine ⟨⟨h.queues.idle, h.queues.inPass, fun _ hhandler => ?_, h.queues.handled⟩,
    ⟨fun hmem => ?_, fun _ hset => (by cases hset), fun hnew => ?_, ?_⟩,
    ⟨hle.trans (Nat.le_succ _), fun hset => (by cases hset), fun hset => (by cases hset),
      fun hset => (by cases hset), fun _ => rfl, fun _ => ?_, fun hexact => ?_⟩⟩
  · rw [hidle] at hhandler
    cases hhandler
  · have hin : 0 < (s.due.erase .driver).count .driver := List.count_pos_iff.mpr hmem
    omega
  · rw [hbegun] at hnew
    cases hnew
  · simp only [drivers, List.count_append, drive, Env.registerRwSynchCb]
    simp only [Bool.not_false, Bool.and_self, if_true]
    omega
  · rw [harmed]
    exact Nat.le_add_left _ _
  · have hunasked := h.flags.unasked hundriven (hexact rfl)
    have hunwanted : s.wanted = false := by simp [wanted, hunasked, hundriven]
    have hzero := h.flags.exact fun hset => by simp [hundriven] at hset
    rw [hunwanted, armed, hidle] at hzero
    rw [harmed]
    simp only [reduceCtorEq, Bool.false_eq_true, if_false, Nat.add_zero] at hzero
    simp [hzero, wanted, drive, Env.registerRwSynchCb]

lemma Queues.of_applied (h : Queues s) {put : Put.Machine} (hflush : s.put.flush = none)
    (happlied : Applied s.put put) (hput : s'.put = put) (hhandler : s'.handler ≠ none) :
    Queues s' := by
  obtain ⟨hbak, huse⟩ := h.idle hflush
  cases happlied with
  | empty hqueue =>
    refine ⟨fun _ => ?_, fun hin => ?_, fun _ _ => ?_, fun _ => hhandler⟩
    · rw [hput]
      exact ⟨hbak, huse⟩
    · rw [hput] at hin
      exact (hin hflush).elim
    · rw [hput]
      exact hqueue
  | begins hqueue =>
    refine ⟨fun hnone => ?_, fun _ => ?_, fun hnone => ?_, fun _ => hhandler⟩
    · simp [hput] at hnone
    · rw [hput]
      exact ⟨by simp [huse], fun _ => hbak⟩
    · simp [hput] at hnone

lemma ArmedInv.of_applied (h : ArmedInv s) {put : Put.Machine} (hflush : s.put.flush = none)
    (happlied : Applied s.put put) (hput : s'.put = put) (hdue : s'.due = s.due)
    (hnext : s'.nextSimTimeCbs = s.nextSimTimeCbs) (hbegun : s'.begun = s.begun)
    (hdriven : s'.driven = s.driven) (hearly : s'.early = s.early)
    (hflushes : s'.flushes ≤ s.put.env.rwSynchCbs) (harmed : s'.armed = s.armed)
    (hhandling : s'.handler ≠ none) (hhandler : s'.handler = some .flush → s.driven = true) :
    ArmedInv s' := by
  have hflags : s'.put.env.rwPhasePassed = s.put.env.rwPhasePassed ∧
      s'.put.env.rwCbReRegistered = s.put.env.rwCbReRegistered ∧
      s'.put.env.rwSynchCbs = s.put.env.rwSynchCbs ∧
      s'.put.env.hdlPutValue = s.put.env.hdlPutValue ∧
      (s'.put.flush ≠ none → s.put.env.hdlPutValue.toList ≠ []) := by
    rw [hput]
    cases happlied with
    | empty hqueue => exact ⟨rfl, rfl, rfl, rfl, fun hin => (hin hflush).elim⟩
    | begins hqueue => exact ⟨rfl, rfl, rfl, rfl, fun _ => hqueue⟩
  obtain ⟨hpassed, hre, hcbs, hqueue, hin⟩ := hflags
  have hwanted : s'.wanted = s.wanted := by rw [wanted, hre, hdriven, hpassed, wanted]
  refine ⟨h.queues.of_applied hflush happlied hput hhandling, ⟨?_, ?_, ?_, ?_⟩,
    ⟨?_, ?_, fun hset hne => ?_, ?_, ?_, ?_, ?_⟩⟩
  · rw [hdue, hdriven]
    exact h.driven.undriven
  · rw [hdue, hbegun, hdriven]
    exact h.driven.due
  · rw [hdue, hbegun, hdriven, hpassed]
    exact h.driven.fresh
  · rw [drivers, hdue, hnext, hdriven, hpassed]
    exact h.driven.drivers
  · rw [hcbs]
    exact hflushes
  · rw [hre, hpassed]
    exact h.flags.passed
  · rw [hqueue] at hne
    rw [hre]
    exact h.flags.queued (hpassed ▸ hset) (.inr (hne.elim hin id))
  · rw [hre, hdriven, hearly]
    exact h.flags.unasked
  · rw [hdriven]
    exact hhandler
  · rw [hwanted, harmed]
    exact h.flags.atLeast
  · rw [hwanted, harmed, hdriven, hearly]
    exact h.flags.exact

lemma ArmedInv.flush (h : ArmedInv s) {put : Put.Machine} (hidle : s.handler = none)
    (hdue : s.due = []) (hcbs : 0 < s.flushCbs) (hflush : s.put.flush = none)
    (happlied : Applied s.put put) :
    ArmedInv { s with put, flushes := s.flushes + 1, handler := some .flush } := by
  have hrw : put.env.rwSynchCbs = s.put.env.rwSynchCbs := by
    cases happlied <;> rfl
  simp only [flushCbs] at hcbs
  -- no flush is called before the driver
  have hdriven : s.driven = true := by
    by_contra hundriven
    have hundriven' : s.driven = false := by simpa using hundriven
    cases hbegun : s.begun with
    | true =>
      have hmem := h.driven.due hbegun hundriven'
      rw [hdue] at hmem
      cases hmem
    | false =>
      have hpassed := (h.driven.fresh hbegun).2.2
      have hre : s.put.env.rwCbReRegistered = false := by
        by_contra hset
        simpa [hpassed] using h.flags.passed (by simpa using hset)
      have hzero := h.flags.exact fun hset => by simp [hundriven'] at hset
      simp only [wanted, hre, hundriven', armed, flushCbs] at hzero
      simp only [Bool.false_and, Bool.or_self, Bool.false_eq_true, if_false] at hzero
      omega
  refine h.of_applied hflush happlied rfl rfl rfl rfl rfl rfl ?_ ?_ (by simp) fun _ => hdriven
  · show s.flushes + 1 ≤ s.put.env.rwSynchCbs
    omega
  · simp only [armed, flushCbs, hrw, hidle]
    simp only [reduceCtorEq, if_false, if_true]
    omega

lemma ArmedInv.of_passed (h : ArmedInv s) {put : Put.Machine} (hp : Passed s.put put)
    (log : List SynchEv) : ArmedInv { s with put, log } := by
  have hpassed : put.env.rwPhasePassed = s.put.env.rwPhasePassed := hp.passed
  have hwanted : ({ s with put, log } : Sim).wanted = s.wanted := by
    simp only [wanted, hp.re, hpassed]
  have harmed : ({ s with put, log } : Sim).armed = s.armed := by
    simp only [armed, flushCbs, hp.cbs]
  obtain ⟨huse, hbak⟩ := h.queues.inPass hp.inPass
  refine ⟨⟨fun hnone => ?_, fun hin => ?_, fun hnone _ => ?_,
      fun _ => h.queues.handled hp.inPass⟩,
    ⟨h.driven.undriven, h.driven.due, fun hnew => ?_, ?_⟩,
    ⟨hp.cbs ▸ h.flags.le, fun hset => ?_, fun hset _ => ?_, fun hundriven hlate => ?_,
      h.flags.driven, ?_, ?_⟩⟩
  · rcases hp.goes with ⟨hin, -⟩ | ⟨-, -, hcallsBack, hplain⟩
    · exact (hin hnone).elim
    · cases hcb : s.put.cfg.callsBack with
      | true => exact hcallsBack hcb
      | false =>
        obtain ⟨hbak', huse'⟩ := hplain hcb
        exact ⟨(congrArg Vec.toList hbak').trans (hbak hcb), huse'.trans (huse.trans hcb)⟩
  · rcases hp.goes with ⟨-, huse', hbak'⟩ | ⟨hnone, -⟩
    · exact ⟨huse'.trans (huse.trans (congrArg Config.callsBack hp.cfg.symm)),
        fun hcb => hbak' (hbak (hp.cfg ▸ hcb))⟩
    · exact (hin hnone).elim
  · rcases hp.goes with ⟨hin, -⟩ | ⟨-, hqueue, -⟩
    · exact (hin hnone).elim
    · exact hqueue
  · exact ⟨(h.driven.fresh hnew).1, (h.driven.fresh hnew).2.1,
      hpassed.trans (h.driven.fresh hnew).2.2⟩
  · simp only [hpassed]
    exact h.driven.drivers
  · exact hpassed.trans (h.flags.passed (hp.re ▸ hset))
  · exact hp.re.trans (h.flags.queued (hpassed ▸ hset) (.inl hp.inPass))
  · exact hp.re.trans (h.flags.unasked hundriven hlate)
  · rw [hwanted, harmed]
    exact h.flags.atLeast
  · rw [hwanted, harmed]
    exact h.flags.exact

/-- The first flush registers the driver of the next time step; after any flush none is wanted. -/
lemma ArmedInv.flushed (h : ArmedInv s) (hflush : s.put.flush = none)
    (hhandler : s.handler = some .flush) : ArmedInv (s.flushed (flushDone s.put)) := by
  have hdriven := h.flags.driven hhandler
  have hempty := h.queues.emptied hflush hhandler
  have harmed : s.armed = s.flushCbs + 1 := by simp [armed, hhandler]
  have hafter : (s.flushed (flushDone s.put)).armed = s.flushCbs := by
    simp [armed, flushCbs, Sim.flushed, flushDone]
  have hunwanted : (s.flushed (flushDone s.put)).wanted = false := by
    simp [wanted, Sim.flushed, flushDone]
  refine ⟨⟨h.queues.idle, h.queues.inPass, fun _ hset => (nomatch hset),
      fun hin => (hin hflush).elim⟩,
    ⟨h.driven.undriven, h.driven.due, fun hnew => ?_, ?_⟩,
    ⟨h.flags.le, fun hset => (nomatch hset), fun _ hne => ?_, fun _ _ => rfl,
      fun hset => (nomatch hset), fun hset => ?_, fun hexact => ?_⟩⟩
  · have hundriven := (h.driven.fresh hnew).2.1
    simp [hdriven] at hundriven
  · have hdrivers := h.driven.drivers
    rw [hdriven, drivers, List.count_append] at hdrivers
    cases hp : s.put.env.rwPhasePassed with
    | false =>
      simp only [hp, Bool.not_false, Bool.and_self, if_true] at hdrivers
      simp [drivers, Sim.flushed, flushDone, hp]
      omega
    | true =>
      simp only [hp, Bool.not_true, Bool.and_false, Bool.false_eq_true, if_false] at hdrivers
      simp [drivers, Sim.flushed, flushDone, hp]
      omega
  · exact (hne.elim (fun hin => hin hflush) fun hq => hq hempty).elim
  · rw [hunwanted] at hset
    cases hset
  · have hone := h.flags.exact hexact
    have hle : s.armed ≤ 1 := by
      rw [hone]
      split_ifs <;> omega
    rw [hafter, hunwanted]
    simp only [Bool.false_eq_true, if_false]
    omega

lemma ArmedInv.step (h : ArmedInv s) (hstep : s.step a = some s') : ArmedInv s' := by
  have hrule := Rule.of_step hstep
  cases hrule with
  | write a put hrun hwrote => exact h.write hrun hwrote
  | awaitRw taskId hrun => exact h.of_same rfl rfl Iff.rfl .inl Iff.rfl id rfl rfl rfl rfl
  | awaitNextSim taskId hrun =>
    refine h.of_same rfl rfl Iff.rfl .inl Iff.rfl id ?_ rfl rfl rfl
    simp [drivers]
  | nextStep hidle hdue hcbs hrw => exact h.nextStep hidle hdue hcbs
  | driver hidle hdue hflush => exact h.driver hidle hdue
  | task taskId hidle hdue =>
    refine h.of_same rfl rfl (by simp [hidle]) (by simp) (List.mem_erase_of_ne (by simp)) ?_ ?_
      rfl rfl rfl
    · intro hnil
      simp [hnil]
    · simp [drivers, List.count_erase_of_ne]
  | flush put hidle hdue hcbs hflush happlied => exact h.flush hidle hdue hcbs hflush happlied
  | rwSynch cb put hidle hdue hcb hflush happlied =>
    have hrw : put.env.rwSynchCbs = s.put.env.rwSynchCbs := by
      cases happlied <;> rfl
    refine h.of_applied hflush happlied rfl rfl rfl rfl rfl rfl h.flags.le ?_ (by simp) ?_
    · simp [armed, flushCbs, hrw, hidle]
    · simp
  | put put hpassed => exact h.of_passed hpassed _
  | endPass put hpassed => exact h.of_passed hpassed s.log
  | flushed hflush hhandler => exact h.flushed hflush hhandler
  | settle cb hflush hhandler =>
    rw [settle]
    split_ifs
    · exact h.of_same rfl rfl (by simp [hhandler]) (fun _ => .inr hflush) Iff.rfl id rfl rfl rfl rfl
    · exact h.of_same rfl rfl (by simp [hhandler]) (by simp) Iff.rfl id rfl rfl rfl rfl
  | taskDone hflush hhandler =>
    exact h.of_same rfl rfl (by simp [hhandler]) (fun _ => .inr hflush) Iff.rfl id rfl rfl rfl rfl

/-! ### The flush cycle -/

/-- The driver of the next time step is outstanding, or between the driver and the first flush of
the present one a flush that registers it; a value that is queued after the first flush has a flush,
and only one if no task has asked for a deferred write before the driver of the time step; and the
queue is empty when no `cbReadWriteSynch` callback of a driven time step is left. -/
structure FlushCycle (s : Sim) : Prop where
  driver : s.drivers = if s.driven && !s.put.env.rwPhasePassed then 0 else 1
  first : s.driven = true → s.put.env.rwPhasePassed = false → s.handler ≠ some .flush →
    1 ≤ s.flushCbs
  rearmed : s.put.env.rwPhasePassed = true → s.put.flush = none →
    s.put.env.hdlPutValue.toList ≠ [] → 1 ≤ s.flushCbs ∧
      ((s.driven = true → s.early = false) → s.flushCbs = 1)
  drained : s.driven = true → s.handler = none → s.flushCbs = 0 → s.rwCbs = [] →
    s.put.env.hdlPutValue.toList = []

lemma ArmedInv.flushCycle (h : ArmedInv s) : s.FlushCycle where
  driver := h.driven.drivers
  first hdriven hpassed hhandler := by
    have hone := h.flags.atLeast (by simp [wanted, hdriven, hpassed])
    rwa [armed, if_neg hhandler] at hone
  rearmed hpassed hflush hqueue := by
    have hset := h.flags.queued hpassed (.inr hqueue)
    have hwanted : s.wanted = true := by simp [wanted, hset]
    have harmed : s.armed = s.flushCbs := by
      rw [armed, if_neg fun hhandler => hqueue (h.queues.emptied hflush hhandler)]
      rfl
    refine ⟨harmed ▸ h.flags.atLeast hwanted, fun hlate => ?_⟩
    have hone := h.flags.exact hlate
    rwa [harmed, hwanted] at hone
  drained hdriven hidle hcbs _ := by
    have hzero : s.armed = 0 := by simp [armed, hcbs, hidle]
    by_contra hqueue
    have hwanted : s.wanted = true := by
      cases hpassed : s.put.env.rwPhasePassed with
      | false => simp [wanted, hdriven, hpassed]
      | true => simp [wanted, h.flags.queued hpassed (.inr hqueue)]
    have hone := h.flags.atLeast hwanted
    omega

theorem flushCycle_of_reached (h : Reached cfg signals Unguarded s) : s.FlushCycle :=
  (Reach.invariant (I := ArmedInv) h (.init cfg signals) fun _ _ _ _ hinv _ hstep =>
    hinv.step hstep).flushCycle

/-- A simulator whose puts do not call back. -/
def verilator : Config := ⟨false, false⟩

/-- `chdl:set(1)` -/
def setOne (raw : ComplexHandleRaw) : Act := .write (.request raw (.set .set (.value 1)))

/-- A value is set when the first flush has been. -/
def setLate : List Act := [.nextStep, .nextSimTime .driver, .flush, .finish, setOne 0]

/-- The flush that it has registered is outstanding, beside the driver of the next time step. -/
theorem flushCycle_setLate :
    ∃ s, run step (init verilator bits) setLate = some s ∧ s.FlushCycle ∧
      s.drivers = 1 ∧ s.flushCbs = 1 ∧ s.put.env.hdlPutValue.toList = [0] := by
  have hrun : (run step (init verilator bits) setLate).map
      (fun s => (s.drivers, s.flushCbs, s.put.env.hdlPutValue.toList)) = some (1, 1, [0]) := by
    decide +kernel
  obtain ⟨s, hs, hdata⟩ := Option.map_eq_some_iff.mp hrun
  simp only [Prod.mk.injEq] at hdata
  exact ⟨s, hs, flushCycle_of_reached (reach_of_run hs), hdata⟩

/-- A task waits for the next time, and sets a value there before the driver comes; another value is
set when the first flush has been. -/
def setEarly : List Act :=
  [.nextStep, .nextSimTime .driver, .flush, .finish, .awaitNextSim 0, .nextStep,
    .nextSimTime (.task 0), setOne 0, .finish, .nextSimTime .driver, .flush, .put, .endPass,
    .finish, setOne 1]

/-- Before the first `cbNextSimTime`, a task waits for `cbReadWriteSynch` and sets a value there. -/
def setAtStart : List Act :=
  [.awaitRw 0, .rwSynch ⟨0, 0, 0⟩, .finish, setOne 0, .finish]

/-- No driver is outstanding between the handler of the driver and the first flush, two flushes are
after a write that has come before the driver, and what is written before the first time step is
driven waits for it. -/
theorem not_always_armed :
    (∃ s, run step (init verilator bits) [.nextStep, .nextSimTime .driver] = some s ∧
      s.handler = none ∧ s.drivers ≠ 1) ∧
    (∃ s, run step (init verilator bits) setEarly = some s ∧ s.handler = none ∧
      s.put.env.rwPhasePassed = true ∧ s.put.env.hdlPutValue.toList ≠ [] ∧ s.flushCbs ≠ 1) ∧
    ∃ s, run step (init verilator bits) setAtStart = some s ∧ s.handler = none ∧
      s.flushCbs = 0 ∧ s.rwCbs = [] ∧ s.put.env.hdlPutValue.toList ≠ [] := by
  have hdriven : (run step (init verilator bits) [.nextStep, .nextSimTime .driver]).map
      (fun s => (s.handler, s.drivers)) = some (none, 0) := by decide +kernel
  have htwice : (run step (init verilator bits) setEarly).map (fun s =>
      (s.handler, s.put.env.rwPhasePassed, s.put.env.hdlPutValue.toList, s.flushCbs)) =
      some (none, true, [1], 2) := by decide +kernel
  have hstart : (run step (init verilator bits) setAtStart).map (fun s =>
      (s.handler, s.flushCbs, s.rwCbs, s.put.env.hdlPutValue.toList)) =
      some (none, 0, [], [0]) := by decide +kernel
  obtain ⟨s, hs, hdata⟩ := Option.map_eq_some_iff.mp hdriven
  obtain ⟨s', hs', hdata'⟩ := Option.map_eq_some_iff.mp htwice
  obtain ⟨s'', hs'', hdata''⟩ := Option.map_eq_some_iff.mp hstart
  simp only [Prod.mk.injEq] at hdata hdata' hdata''
  refine ⟨⟨s, hs, hdata.1, by simp [hdata.2]⟩, ⟨s', hs', hdata'.1, hdata'.2.1, ?_, ?_⟩,
    s'', hs'', hdata''.1, hdata''.2.1, hdata''.2.2.1, ?_⟩
  · simp [hdata'.2.2.1]
  · simp [hdata'.2.2.2]
  · simp [hdata''.2.2.2]

end Sim

end Verilua.Synch
