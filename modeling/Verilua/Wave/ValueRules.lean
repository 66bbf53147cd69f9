import Verilua.Wave.ValueCb

/-!
# The steps of the value callbacks

One rule for each thing that the loop, a routine or the walk can do.
-/

namespace Verilua.Wave

open TransitionSystem

namespace Loop

variable {table : TimeTable} {backend : Backend} {s l : Loop} {a : Act}

/-- The turn is in the value phase, or it is not, before and after the step. -/
structure Stays (s l : Loop) : Prop where
  values : l.phase = .values ↔ s.phase = .values
  starting : l.phase = .starting ↔ s.phase = .starting

lemma step_startLoop (h : s.step table backend .startLoop = some l) :
    s.phase = .starting ∧ l.phase = .test ∧ l.cursor = s.cursor := by
  cases hphase : s.phase with
  | starting =>
    simp only [step, hphase, Option.some.injEq] at h
    rw [← h]
    exact ⟨rfl, rfl, rfl⟩
  | _ => simp [step, hphase] at h

lemma step_walked (h : s.step table backend .walked = some l) :
    s.phase = .walk [] [] ∧ l.phase = .values ∧ l.cursor = s.cursor := by
  cases hphase : s.phase with
  | walk left calls =>
    cases left with
    | nil =>
      cases calls with
      | nil =>
        simp only [step, hphase, Option.some.injEq] at h
        rw [← h]
        exact ⟨rfl, rfl, rfl⟩
      | cons e calls => simp [step, hphase] at h
    | cons key left => simp [step, hphase] at h
  | _ => simp [step, hphase] at h

lemma step_advance (h : s.step table backend .advance = some l) :
    s.phase = .values ∧ l.phase = .test ∧ l.cursor = s.cursor + 1 := by
  cases hphase : s.phase with
  | values =>
    simp only [step, hphase, Option.some.injEq] at h
    rw [← h]
    exact ⟨rfl, rfl, rfl⟩
  | _ => simp [step, hphase] at h

lemma step_call (h : s.step table backend .call = some l) :
    ∃ left e calls, s.phase = .walk left (e :: calls) ∧ l = s.call e left calls := by
  cases hphase : s.phase with
  | walk left calls =>
    cases calls with
    | nil => simp [step, hphase] at h
    | cons e calls =>
      simp only [step, hphase, Option.some.injEq] at h
      exact ⟨left, e, calls, rfl, h.symm⟩
  | _ => simp [step, hphase] at h

/-- What a routine does to the loop, the test and the keys of the time callbacks. -/
inductive Other : Act → Prop
  | register (delay : UInt64) : Other (.register delay)
  | setCursor (idx : Nat) : Other (.setCursor idx)
  | terminate : Other .terminate
  | loopTest : Other .loopTest
  | visit (key : Nat) : Other (.visit key)

lemma register_cursor_phase (s : Loop) (table : TimeTable) (backend : Backend) (delay : UInt64) :
    (s.register table backend delay).cursor = s.cursor ∧
      (s.register table backend delay).phase = s.phase := by
  simp only [register]
  split <;> exact ⟨rfl, rfl⟩

lemma step_other (h : s.step table backend a = some l) (ha : Other a) :
    Stays s l ∧ ((∀ idx, a ≠ .setCursor idx) → l.cursor = s.cursor) := by
  cases ha with
  | register delay =>
    simp only [step] at h
    split at h
    · obtain rfl := Option.some.inj h
      obtain ⟨hcursor, hphase⟩ := register_cursor_phase s table backend delay
      exact ⟨⟨by rw [hphase], by rw [hphase]⟩, fun _ => hcursor⟩
    · cases h
  | setCursor idx =>
    simp only [step] at h
    split at h
    · obtain rfl := Option.some.inj h
      have hphase : (s.setCursor idx).phase = s.phase := by
        simp only [setCursor]
        split <;> rfl
      exact ⟨⟨by rw [hphase], by rw [hphase]⟩, fun hno => (hno idx rfl).elim⟩
    · cases h
  | terminate =>
    simp only [step] at h
    split at h
    · obtain rfl := Option.some.inj h
      exact ⟨⟨Iff.rfl, Iff.rfl⟩, fun _ => rfl⟩
    · cases h
  | loopTest =>
    cases hphase : s.phase with
    | test =>
      simp only [step, hphase, Option.some.injEq] at h
      rw [← h, loopTest]
      split <;> exact ⟨⟨by simp [hphase], by simp [hphase]⟩, fun _ => rfl⟩
    | _ => simp [step, hphase] at h
  | visit key =>
    cases hphase : s.phase with
    | walk left calls =>
      cases calls with
      | nil =>
        simp only [step, hphase] at h
        split at h
        · obtain rfl := Option.some.inj h
          rw [visit]
          split <;> exact ⟨⟨by simp [hphase], by simp [hphase]⟩, fun _ => rfl⟩
        · cases h
      | cons e calls => simp [step, hphase] at h
    | _ => simp [step, hphase] at h

end Loop

namespace ValueLoop

variable (wave : Waveform) (s : ValueLoop)

inductive Rule : Act → ValueLoop → Prop
  | startLoop (l : Loop) (hwalk : s.walk = none) (hfrom : s.loop.phase = .starting)
      (hto : l.phase = .test) (hcursor : l.cursor = s.loop.cursor) :
      Rule (.time .startLoop) { s.appendValueCb with loop := l }
  | call (l : Loop) (e : Delay) (hfrom : s.loop.phase ≠ .values) (hstay : Loop.Stays s.loop l)
      (hcursor : l.cursor = s.loop.cursor) :
      Rule (.time .call) { s.note (.invoked (.delay e.id) s.loop.cursor none) with loop := l }
  | startWalk (l : Loop) (hfrom : s.loop.phase = .walk [] []) (hto : l.phase = .values)
      (hcursor : l.cursor = s.loop.cursor) :
      Rule (.time .walked) { s with loop := l, walk := some s.keys, calling := false }
  | advance (l : Loop) (hwalk : s.walk = none) (hfrom : s.loop.phase = .values)
      (hto : l.phase = .test) (hcursor : l.cursor = s.loop.cursor + 1) :
      Rule (.time .advance) { s.removeValueCb.appendValueCb with loop := l }
  | other (a : Loop.Act) (l : Loop) (hstay : Loop.Stays s.loop l)
      (hcursor : (∀ idx, a ≠ .setCursor idx) → l.cursor = s.loop.cursor) :
      Rule (.time a) { s with loop := l }
  | register (handle : Nat) (w : Window) :
      Rule (.register handle w) (s.register wave handle w)
  | remove (id : Nat) (hlive : id ∈ s.live) : Rule (.remove (.value id)) (s.remove id)
  | removeNull (id : Nat) : Rule (.remove (.delay id)) (s.fail .nullHandle)
  | visit (id : Nat) (w : Window) (left : List Nat) (info : ValueCbInfo)
      (hwalk : s.walk = some left) (hinfo : s.valueCbMap.lookup id = some info)
      (hid : id ∈ left) : Rule (.visit id w) (s.visit wave id info (left.filter (· ≠ id)) w)
  | walked (hwalk : s.walk = some []) :
      Rule .walked { s.note (.walked s.loop.cursor) with walk := none, calling := false }

variable {wave s} {s' : ValueLoop} {a : Act}

lemma Rule.of_time {a : Loop.Act} {l : Loop} (hpermit : s.permits a = true)
    (h : s.loop.step wave.table wave.backend a = some l) :
    Rule wave s (.time a) (s.afterTime a l) := by
  cases a with
  | startLoop =>
    obtain ⟨hfrom, hto, hcursor⟩ := Loop.step_startLoop h
    have hrule : Rule wave s (.time .startLoop) { s.appendValueCb with loop := l } :=
      .startLoop l (Option.isNone_iff_eq_none.mp hpermit) hfrom hto hcursor
    simpa only [afterTime] using hrule
  | call =>
    obtain ⟨left, e, calls, hphase, rfl⟩ := Loop.step_call h
    have hrule : Rule wave s (.time .call)
        { s.note (.invoked (.delay e.id) s.loop.cursor none) with
          loop := s.loop.call e left calls } :=
      .call _ e (by simp [hphase]) ⟨by simp [Loop.call, hphase], by simp [Loop.call, hphase]⟩ rfl
    simpa only [afterTime, hphase] using hrule
  | walked =>
    obtain ⟨hfrom, hto, hcursor⟩ := Loop.step_walked h
    exact .startWalk l hfrom hto hcursor
  | advance =>
    obtain ⟨hfrom, hto, hcursor⟩ := Loop.step_advance h
    have hrule : Rule wave s (.time .advance) { s.removeValueCb.appendValueCb with loop := l } :=
      .advance l (Option.isNone_iff_eq_none.mp hpermit) hfrom hto hcursor
    simpa only [afterTime] using hrule
  | register delay =>
    obtain ⟨hstay, hcursor⟩ := Loop.step_other h (.register delay)
    exact .other _ l hstay hcursor
  | setCursor idx =>
    obtain ⟨hstay, hcursor⟩ := Loop.step_other h (.setCursor idx)
    exact .other _ l hstay hcursor
  | terminate =>
    obtain ⟨hstay, hcursor⟩ := Loop.step_other h .terminate
    exact .other _ l hstay hcursor
  | loopTest =>
    obtain ⟨hstay, hcursor⟩ := Loop.step_other h .loopTest
    exact .other _ l hstay hcursor
  | visit key =>
    obtain ⟨hstay, hcursor⟩ := Loop.step_other h (.visit key)
    exact .other _ l hstay hcursor

lemma Rule.of_step (h : s.step wave a = some s') : s.crash = none ∧ Rule wave s a s' := by
  rw [step.eq_def] at h
  split at h
  · cases h
  next hcrash =>
    refine ⟨by simpa using hcrash, ?_⟩
    cases a with
    | time a =>
      simp only at h
      split at h
      next hpermit =>
        obtain ⟨l, hl, rfl⟩ := Option.map_eq_some_iff.mp h
        exact .of_time hpermit hl
      next => cases h
    | register handle w =>
      simp only at h
      split at h
      · obtain rfl := Option.some.inj h
        exact .register handle w
      · cases h
    | remove cb =>
      cases cb with
      | value id =>
        simp only at h
        split at h
        next hlive =>
          obtain rfl := Option.some.inj h
          exact .remove id hlive.2
        next => cases h
      | delay id =>
        simp only at h
        split at h
        · obtain rfl := Option.some.inj h
          exact .removeNull id
        · cases h
    | visit id w =>
      simp only at h
      split at h
      next left info hwalk hinfo =>
        split at h
        next hid =>
          obtain rfl := Option.some.inj h
          exact .visit id w left info hwalk hinfo hid
        next => cases h
      next => cases h
    | walked =>
      simp only at h
      split at h
      next hwalk =>
        obtain rfl := Option.some.inj h
        exact .walked hwalk
      next => cases h

/-- What the walk does with a callback: nothing, a crash, or a call of its routine. -/
inductive VisitOutcome (id : Nat) (info : ValueCbInfo) (left : List Nat) (w : Window) :
    ValueLoop → Prop
  | noValue (h : (wave.signal info.handle).observe w s.loop.cursor = none) :
      VisitOutcome id info left w ({ s with walk := some left, calling := false }.fail .noValue)
  | same (h : (wave.signal info.handle).observe w s.loop.cursor = some info.seen) :
      VisitOutcome id info left w { s with walk := some left, calling := false }
  | stoi (seen : Seen) (h : (wave.signal info.handle).observe w s.loop.cursor = some seen)
      (hne : seen ≠ info.seen) (hint : seen.integer = none) :
      VisitOutcome id info left w
        (({ s with walk := some left, calling := false }.setSeen id seen).fail .stoi)
  | invoked (seen : Seen) (integer : UInt32)
      (h : (wave.signal info.handle).observe w s.loop.cursor = some seen) (hne : seen ≠ info.seen)
      (hint : seen.integer = some integer) :
      VisitOutcome id info left w
        { ({ s with walk := some left, calling := false }.setSeen id seen).note
            (.invoked (.value id) s.loop.cursor (some integer)) with calling := true }

lemma VisitOutcome.of_visit (wave : Waveform) (s : ValueLoop) (id : Nat) (info : ValueCbInfo)
    (left : List Nat) (w : Window) :
    @VisitOutcome wave s id info left w (s.visit wave id info left w) := by
  simp only [ValueLoop.visit]
  cases h : (wave.signal info.handle).observe w s.loop.cursor with
  | none => exact .noValue h
  | some seen =>
    by_cases hsame : seen = info.seen
    · simp only [if_pos hsame]
      exact .same (hsame ▸ h)
    · simp only [if_neg hsame]
      cases hint : seen.integer with
      | none => exact .stoi seen h hsame hint
      | some integer => exact .invoked seen integer h hsame hint

end ValueLoop

end Verilua.Wave
