import Verilua.Lib.TransitionSystem
import Mathlib.Logic.Function.Basic
import Mathlib.Tactic.Common

/-!
# A mailbox with one slot per key

Accepting a value puts it into the slot of its key, over what is there, and a commit takes it out.
In every run each value that was not overwritten before its commit is committed once, and nothing
else is.
-/

namespace Mailbox

open TransitionSystem

variable {K V : Type*}

/-- What happened, newest first in a log. -/
inductive Entry (K V : Type*)
  | accept (k : K) (v : V)
  | commit (k : K) (v : V)
  deriving DecidableEq

inductive Act (K V : Type*)
  | accept (k : K) (v : V)
  | commit (k : K)

@[ext]
structure Box (K V : Type*) where
  pending : K → Option V
  log : List (Entry K V)

def Box.init : Box K V := { pending := fun _ => none, log := [] }

variable [DecidableEq K]

def Box.step (b : Box K V) : Act K V → Option (Box K V)
  | .accept k v => some
      { pending := Function.update b.pending k (some v), log := .accept k v :: b.log }
  | .commit k =>
    match b.pending k with
    | some v => some
        { pending := Function.update b.pending k none, log := .commit k v :: b.log }
    | none => none

/-! ### Logs -/

/-- The value of `k` that was accepted last, if it has not been committed. -/
def pendingOf (k : K) : List (Entry K V) → Option V
  | [] => none
  | .accept k' v :: log => if k' = k then some v else pendingOf k log
  | .commit k' _ :: log => if k' = k then none else pendingOf k log

/-- The values of `k` that were committed, newest first. -/
def commits (k : K) : List (Entry K V) → List V
  | [] => []
  | .accept _ _ :: log => commits k log
  | .commit k' v :: log => if k' = k then v :: commits k log else commits k log

/-- Every commit is of the value that was accepted last and not committed before. -/
def Sound : List (Entry K V) → Prop
  | [] => True
  | .accept _ _ :: log => Sound log
  | .commit k v :: log => pendingOf k log = some v ∧ Sound log

variable {k : K} {v : V} {log later earlier : List (Entry K V)} {b : Box K V}
  {ok : Box K V → Act K V → Prop}

lemma Sound.tail {e : Entry K V} (h : Sound (e :: log)) : Sound log := by
  cases e with
  | accept => exact h
  | commit => exact h.2

lemma Sound.of_append (h : Sound (later ++ log)) : Sound log := by
  induction later with
  | nil => exact h
  | cons e later ih => exact ih h.tail

lemma Sound.commits_eq_nil (h : Sound log) (hno : ∀ v, .accept k v ∉ log) :
    pendingOf k log = none ∧ commits k log = [] := by
  induction log with
  | nil => exact ⟨rfl, rfl⟩
  | cons e log ih =>
    obtain ⟨hp, hc⟩ := ih h.tail fun v hv => hno v (List.mem_cons_of_mem _ hv)
    cases e with
    | accept k' v =>
      have hne : k' ≠ k := by
        rintro rfl
        exact hno v List.mem_cons_self
      simp [pendingOf, commits, hne, hp, hc]
    | commit k' v =>
      have hne : k' ≠ k := by
        rintro rfl
        simp [h.1] at hp
      simp [pendingOf, commits, hne, hp, hc]

/-- Until the next accepted value of the key, a value is either pending or committed once. -/
lemma Sound.commits_since (h : Sound (later ++ .accept k v :: earlier))
    (hno : ∀ w, .accept k w ∉ later) :
    (pendingOf k (later ++ .accept k v :: earlier) = some v ∧ commits k later = []) ∨
      (pendingOf k (later ++ .accept k v :: earlier) = none ∧ commits k later = [v]) := by
  induction later with
  | nil => exact .inl ⟨by simp [pendingOf], rfl⟩
  | cons e later ih =>
    have hsince := ih h.tail fun w hw => hno w (List.mem_cons_of_mem _ hw)
    rw [List.cons_append] at h ⊢
    cases e with
    | accept k' w =>
      have hne : k' ≠ k := by
        rintro rfl
        exact hno w List.mem_cons_self
      simpa [pendingOf, commits, hne] using hsince
    | commit k' w =>
      by_cases heq : k' = k
      · subst heq
        have hpend := h.1
        rcases hsince with ⟨hp, hc⟩ | ⟨hp, -⟩
        · rw [hp] at hpend
          cases hpend
          exact .inr ⟨by simp [pendingOf], by simp [commits, hc]⟩
        · rw [hp] at hpend
          cases hpend
      · simpa [pendingOf, commits, heq] using hsince

/-! ### Runs -/

lemma Box.step_sound {b' : Box K V} {a : Act K V}
    (h : Sound b.log ∧ ∀ k, b.pending k = pendingOf k b.log) (hs : b.step a = some b') :
    Sound b'.log ∧ ∀ k, b'.pending k = pendingOf k b'.log := by
  obtain ⟨hsound, hpend⟩ := h
  cases a with
  | accept k v =>
    cases hs
    refine ⟨hsound, fun k' => ?_⟩
    by_cases heq : k' = k
    · subst heq; simp [pendingOf]
    · simp [pendingOf, Function.update_of_ne heq, Ne.symm heq, hpend]
  | commit k =>
    simp only [Box.step] at hs
    split at hs
    · next v hv =>
      cases hs
      refine ⟨⟨hpend k ▸ hv, hsound⟩, fun k' => ?_⟩
      by_cases heq : k' = k
      · subst heq; simp [pendingOf]
      · simp [pendingOf, Function.update_of_ne heq, Ne.symm heq, hpend]
    · cases hs

theorem sound_of_reached (h : Reach Box.step ok Box.init b) :
    Sound b.log ∧ ∀ k, b.pending k = pendingOf k b.log := by
  refine h.invariant (I := fun b : Box K V => Sound b.log ∧ ∀ k, b.pending k = pendingOf k b.log)
    ⟨trivial, fun _ => rfl⟩ ?_
  intro b a b' _ ih _ hs
  exact Box.step_sound ih hs

end Mailbox
