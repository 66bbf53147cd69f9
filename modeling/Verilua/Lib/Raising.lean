/-!
# Code that may raise

A piece of code reads and sets a state and returns, or raises. What it has set before it raises is
kept, and a caller that catches the raise goes on from there.
-/

/-- Code on a state. -/
abbrev Raising (σ α : Type) := ExceptT Unit (StateM σ) α

namespace Raising

variable {σ α β : Type} {s : σ} {m : Raising σ α}

/-- What is returned, if the code does not raise, and the state that is left. -/
def outcome (m : Raising σ α) (s : σ) : Except Unit α × σ := m.run.run s

/-- Raise unless the condition holds. -/
def check (c : Prop) [Decidable c] : Raising σ Unit := if c then pure () else throw ()

/-- Raise if there is no value. -/
def ofOption : Option α → Raising σ α
  | some a => pure a
  | none => throw ()

/-- Run the code and go on, whether it has raised or not. -/
def protect (m : Raising σ Unit) : Raising σ Unit := tryCatch m fun _ => pure ()

/-! ### Straight code -/

@[simp] theorem outcome_pure {a : α} : (pure a : Raising σ α).outcome s = (.ok a, s) := rfl

@[simp] theorem outcome_throw : (throw () : Raising σ α).outcome s = (.error (), s) := rfl

@[simp] theorem outcome_modify {f : σ → σ} :
    (modify f : Raising σ Unit).outcome s = (.ok (), f s) := rfl

@[simp] theorem outcome_get_bind {f : σ → Raising σ α} :
    outcome (get >>= f) s = (f s).outcome s := rfl

@[simp] theorem outcome_modify_bind {g : σ → σ} {f : Unit → Raising σ α} :
    outcome (modify g >>= f) s = (f ()).outcome (g s) := rfl

@[simp] theorem outcome_check_bind {c : Prop} [Decidable c] {f : Unit → Raising σ α} :
    outcome (check c >>= f) s = if c then (f ()).outcome s else (.error (), s) := by
  unfold check
  split <;> rfl

@[simp] theorem outcome_ofOption_bind {o : Option β} {f : β → Raising σ α} :
    outcome (ofOption o >>= f) s =
      match o with
      | some b => (f b).outcome s
      | none => (.error (), s) := by
  cases o <;> rfl

theorem outcome_bind {f : α → Raising σ β} : outcome (m >>= f) s =
    match m.outcome s with
    | (.ok a, t) => (f a).outcome t
    | (.error (), t) => (.error (), t) := by
  simp only [outcome, ExceptT.run_bind, StateT.run_bind]
  rcases m.run.run s with ⟨_ | _, _⟩ <;> rfl

theorem outcome_protect {m : Raising σ Unit} :
    (protect m).outcome s = (.ok (), (m.outcome s).2) := by
  simp only [outcome, protect, ExceptT.run_tryCatch, StateT.run_bind]
  rcases m.run.run s with ⟨_ | _, _⟩ <;> rfl

end Raising
