import Mathlib.Logic.Relation
import Mathlib.Data.List.Basic

/-!
# Guarded runs of a partial step function

A transition system is a step function `step : S → A → Option S`: the state after an action,
or `none` where the action is not possible. Runs carry a side condition `ok` on the state and
the action of every step, so that "every run" is `ok := fun _ _ => True` and "every run whose
steps all meet the condition" is the condition itself.

Invariants are proved once, by `Reach.invariant`, from what one step preserves.
-/

namespace TransitionSystem

variable {S A : Type*} {step : S → A → Option S} {ok ok' : S → A → Prop} {s₀ s s' : S} {a : A}

/-- The states reached from `s₀` by runs all of whose steps satisfy `ok`. -/
inductive Reach (step : S → A → Option S) (ok : S → A → Prop) (s₀ : S) : S → Prop
  | refl : Reach step ok s₀ s₀
  | tail {s s' : S} {a : A} (h : Reach step ok s₀ s) (hok : ok s a)
      (hstep : step s a = some s') : Reach step ok s₀ s'

/-- Every run, with no condition on its steps. -/
abbrev Unguarded : S → A → Prop := fun _ _ => True

namespace Reach

/-- What holds at the start and is preserved by every permitted step holds at every reached
state. The step may use that its source is itself reached. -/
theorem invariant {I : S → Prop} (h : Reach step ok s₀ s) (hinit : I s₀)
    (hstep : ∀ s a s', Reach step ok s₀ s → I s → ok s a → step s a = some s' → I s') : I s := by
  induction h with
  | refl => exact hinit
  | tail h hok hs ih => exact hstep _ _ _ h ih hok hs

theorem mono (himp : ∀ s a, ok s a → ok' s a) (h : Reach step ok s₀ s) :
    Reach step ok' s₀ s := by
  induction h with
  | refl => exact .refl
  | tail _ hok hs ih => exact ih.tail (himp _ _ hok) hs

theorem unguarded (h : Reach step ok s₀ s) : Reach step Unguarded s₀ s :=
  h.mono fun _ _ _ => trivial

theorem trans (h : Reach step ok s₀ s) (h' : Reach step ok s s') : Reach step ok s₀ s' := by
  induction h' with
  | refl => exact h
  | tail _ hok hs ih => exact ih.tail hok hs

/-- A function that maps every permitted step to a run maps runs to runs. -/
theorem map {T B : Type*} {step' : T → B → Option T} {ok' : T → B → Prop} (f : S → T)
    (hsim : ∀ s a s', Reach step ok s₀ s → ok s a → step s a = some s' →
      Reach step' ok' (f s) (f s'))
    (h : Reach step ok s₀ s) : Reach step' ok' (f s₀) (f s) := by
  induction h with
  | refl => exact .refl
  | tail h hok hs ih => exact ih.trans (hsim _ _ _ h hok hs)

end Reach

/-! ### Executable runs -/

/-- Every step that the actions make from the state satisfies `ok`. -/
def Along (step : S → A → Option S) (ok : S → A → Prop) : S → List A → Prop
  | _, [] => True
  | s, a :: as => ok s a ∧ ∀ s', step s a = some s' → Along step ok s' as

/-- Perform the actions in order, checking `ok` before each. -/
def runChecked (step : S → A → Option S) (ok : S → A → Prop) [∀ s a, Decidable (ok s a)] :
    S → List A → Option S
  | s, [] => some s
  | s, a :: as => if ok s a then (step s a).bind fun s' => runChecked step ok s' as else none

/-- Perform the actions in order. -/
def run (step : S → A → Option S) : S → List A → Option S
  | s, [] => some s
  | s, a :: as => (step s a).bind fun s' => run step s' as

theorem run_append {as bs : List A} :
    run step s (as ++ bs) = (run step s as).bind fun s' => run step s' bs := by
  induction as generalizing s with
  | nil => rfl
  | cons a as ih => simp [run, ih, Option.bind_assoc]

theorem along_of_forall (h : ∀ {s : S} (a : A), ok s a) {as : List A} : Along step ok s as := by
  induction as generalizing s with
  | nil => trivial
  | cons a as ih => exact ⟨h a, fun _ _ => ih⟩

theorem along_append {as bs : List A} :
    Along step ok s (as ++ bs) ↔
      Along step ok s as ∧ ∀ s', run step s as = some s' → Along step ok s' bs := by
  induction as generalizing s with
  | nil => simp [Along, run]
  | cons a as ih =>
    simp only [List.cons_append, Along, run, ih, Option.bind_eq_some_iff, and_assoc]
    refine and_congr_right fun _ => ?_
    constructor
    · intro h
      refine ⟨fun s₁ h₁ => (h s₁ h₁).1, ?_⟩
      rintro s' ⟨s₁, h₁, hrun⟩
      exact (h s₁ h₁).2 s' hrun
    · rintro ⟨hfirst, hrest⟩ s₁ h₁
      exact ⟨hfirst s₁ h₁, fun s' hrun => hrest s' ⟨s₁, h₁, hrun⟩⟩

/-- An invariant that makes every permitted step possible makes the run possible. -/
theorem run_of_along {I : S → List A → Prop}
    (hstep : ∀ s past a, I s past → ok s a → ∃ s', step s a = some s' ∧ I s' (past ++ [a]))
    {past as : List A} (hinit : I s past) (h : Along step ok s as) :
    ∃ s', run step s as = some s' ∧ I s' (past ++ as) := by
  induction as generalizing s past with
  | nil => exact ⟨s, rfl, by simpa using hinit⟩
  | cons a as ih =>
    obtain ⟨s₁, h₁, hinv⟩ := hstep s past a hinit h.1
    obtain ⟨s', hrun, hinv'⟩ := ih hinv (h.2 s₁ h₁)
    refine ⟨s', ?_, by simpa using hinv'⟩
    rw [run, h₁, Option.bind_some, hrun]

theorem reach_of_runChecked [∀ s a, Decidable (ok s a)] {as : List A}
    (h : runChecked step ok s as = some s') : Reach step ok s s' := by
  induction as generalizing s with
  | nil =>
    simp only [runChecked, Option.some.injEq] at h
    exact h ▸ .refl
  | cons a as ih =>
    simp only [runChecked] at h
    split_ifs at h with hok
    obtain ⟨t, ht, hrest⟩ := Option.bind_eq_some_iff.mp h
    exact (Reach.refl.tail hok ht).trans (ih hrest)

theorem reach_of_run {as : List A} (h : run step s as = some s') :
    Reach step Unguarded s s' := by
  induction as generalizing s with
  | nil =>
    simp only [run, Option.some.injEq] at h
    exact h ▸ .refl
  | cons a as ih =>
    obtain ⟨t, ht, hrest⟩ := Option.bind_eq_some_iff.mp h
    exact (Reach.refl.tail trivial ht).trans (ih hrest)

/-- When a step keeps `I` exactly where `ok` holds of it, all states along a run satisfy `I` exactly
where all its steps satisfy `ok`. `P` is what is known of the end of the run. -/
theorem forall_take_iff_along {I P : S → Prop}
    (hback : ∀ {s s' : S} {as : List A}, run step s as = some s' → P s' → P s)
    (hstep : ∀ s a s', Reach step Unguarded s₀ s → I s → step s a = some s' → P s' →
      (I s' ↔ ok s a))
    {as : List A} (hs : Reach step Unguarded s₀ s) (hI : I s) (h : run step s as = some s')
    (hP : P s') : (∀ n t, run step s (as.take n) = some t → I t) ↔ Along step ok s as := by
  induction as generalizing s with
  | nil =>
    refine ⟨fun _ => trivial, fun _ n t ht => ?_⟩
    rw [List.take_nil] at ht
    cases ht
    exact hI
  | cons a as ih =>
    obtain ⟨s₁, hs₁, hrun⟩ := Option.bind_eq_some_iff.mp h
    have hiff := hstep s a s₁ hs hI hs₁ (hback hrun hP)
    have ih' := ih (hs.tail trivial hs₁)
    constructor
    · intro hall
      have hnext : ∀ n t, run step s₁ (as.take n) = some t → I t := by
        intro n t ht
        refine hall (n + 1) t ?_
        rw [List.take_succ_cons, run, hs₁, Option.bind_some, ht]
      have hI₁ := hnext 0 s₁ rfl
      refine ⟨hiff.mp hI₁, fun s₂ hs₂ => ?_⟩
      rw [hs₁] at hs₂
      cases hs₂
      exact (ih' hI₁ hrun).mp hnext
    · rintro ⟨hok, hrest⟩ n t ht
      cases n with
      | zero =>
        cases ht
        exact hI
      | succ n =>
        rw [List.take_succ_cons, run, hs₁, Option.bind_some] at ht
        exact (ih' (hiff.mpr hok) hrun).mpr (hrest s₁ hs₁) n t ht

end TransitionSystem
