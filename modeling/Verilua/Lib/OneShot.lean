import Mathlib.Data.List.Perm.Basic
import Mathlib.Data.List.Nodup

/-!
# Registrations that fire once

A registration is armed at the next `arm` and woken by the first event after that which hits it.
A log tells the registrations, the events and the wake-ups; `outstanding` follows the wake-ups
that were made, `due` the ones that should have been made.
-/

namespace OneShot

variable {R E : Type*}

/-- What happened, newest first in a log. -/
inductive Entry (R E : Type*)
  | register (r : R)
  | arm
  | fire (e : E)
  | wake (r : R)
  deriving DecidableEq

/-- The registrations that have not been woken, before and after they are armed. -/
structure Regs (R : Type*) where
  pending : List R
  armed : List R

def Regs.all (g : Regs R) : List R := g.pending ++ g.armed

/-- The registrations made, and the wake-ups. -/
def registers : List (Entry R E) → List R
  | [] => []
  | .register r :: log => r :: registers log
  | .arm :: log | .fire _ :: log | .wake _ :: log => registers log

def wakes : List (Entry R E) → List R
  | [] => []
  | .wake r :: log => r :: wakes log
  | .register _ :: log | .arm :: log | .fire _ :: log => wakes log

/-- The log without its wake-ups: what happens to the registrations from outside. -/
def trace : List (Entry R E) → List (Entry R E)
  | [] => []
  | .wake _ :: log => trace log
  | .register r :: log => .register r :: trace log
  | .arm :: log => .arm :: trace log
  | .fire e :: log => .fire e :: trace log

section Outstanding

variable [DecidableEq R]

/-- What is outstanding after the wake-ups that were made. -/
def outstanding : List (Entry R E) → Regs R
  | [] => ⟨[], []⟩
  | .register r :: log => ⟨r :: (outstanding log).pending, (outstanding log).armed⟩
  | .arm :: log => ⟨[], (outstanding log).pending ++ (outstanding log).armed⟩
  | .fire _ :: log => outstanding log
  | .wake r :: log => ⟨(outstanding log).pending, (outstanding log).armed.erase r⟩

/-- Only armed registrations are woken. -/
def Sound : List (Entry R E) → Prop
  | [] => True
  | .wake r :: log => r ∈ (outstanding log).armed ∧ Sound log
  | .register _ :: log | .arm :: log | .fire _ :: log => Sound log

end Outstanding

/-- What is outstanding when every event wakes the armed registrations it hits. -/
def due (hit : E → R → Bool) : List (Entry R E) → Regs R
  | [] => ⟨[], []⟩
  | .register r :: log => ⟨r :: (due hit log).pending, (due hit log).armed⟩
  | .arm :: log => ⟨[], (due hit log).pending ++ (due hit log).armed⟩
  | .fire e :: log => ⟨(due hit log).pending, (due hit log).armed.filter fun r => !hit e r⟩
  | .wake _ :: log => due hit log

variable {hit : E → R → Bool} {log log' : List (Entry R E)}

lemma registers_trace : registers (trace log) = registers log := by
  induction log with
  | nil => rfl
  | cons e log ih => cases e <;> simp [trace, registers, ih]

lemma due_trace : due hit (trace log) = due hit log := by
  induction log with
  | nil => rfl
  | cons e log ih => cases e <;> simp [trace, due, ih]

variable [DecidableEq R]

lemma outstanding_pending (hit : E → R → Bool) (log : List (Entry R E)) :
    (outstanding log).pending = (due hit log).pending := by
  induction log with
  | nil => rfl
  | cons e log ih => cases e <;> simp [outstanding, due, ih]

/-- Every registration has been woken or is outstanding. -/
lemma Sound.registers_perm (h : Sound log) :
    (registers log).Perm (wakes log ++ (outstanding log).all) := by
  induction log with
  | nil => exact .refl _
  | cons e log ih =>
    cases e with
    | register r =>
      have hperm := (ih h).cons r
      exact hperm.trans List.perm_middle.symm
    | arm => simpa [registers, wakes, outstanding, Regs.all] using ih h
    | fire => exact ih h
    | wake r =>
      obtain ⟨hmem, h⟩ := h
      refine (ih h).trans ?_
      have herase : (outstanding log).all.Perm
          (r :: ((outstanding log).pending ++ (outstanding log).armed.erase r)) :=
        ((List.perm_cons_erase hmem).append_left _).trans List.perm_middle
      exact (herase.append_left _).trans List.perm_middle

/-- The wake-ups that every event owes have been made. -/
def Settled (hit : E → R → Bool) (log : List (Entry R E)) : Prop :=
  (outstanding log).armed.Perm (due hit log).armed

lemma Settled.all_perm (h : Settled hit log) :
    (outstanding log).all.Perm (due hit log).all := by
  rw [Regs.all, Regs.all, outstanding_pending hit]
  exact h.append_left _

/-- Once everything owed has been done, each registration has been woken exactly once if an event
hit it after it was armed, and is outstanding otherwise. -/
theorem Sound.settled_perm (h : Sound log) (hs : Settled hit log) :
    (registers log).Perm (wakes log ++ (due hit log).all) :=
  h.registers_perm.trans (hs.all_perm.append_left _)

/-- The wake-ups do not depend on who makes them. -/
theorem wakes_perm_of_trace (h : Sound log) (hs : Settled hit log) (h' : Sound log')
    (hs' : Settled hit log') (htrace : trace log = trace log') :
    (wakes log).Perm (wakes log') := by
  have hperm := h.settled_perm hs
  have hperm' := h'.settled_perm hs'
  rw [← registers_trace, ← due_trace, htrace, registers_trace, due_trace] at hperm
  exact (List.perm_append_right_iff _).mp (hperm.symm.trans hperm')

end OneShot
