import Mathlib.Data.List.Basic

/-!
# Objects and their methods

A call takes the state of an object to a result and the next state. `results` and `after` are what a
sequence of calls makes of it, and `Runs` is what a specification permits them to return.
-/

namespace Object

variable {S T C R : Type*}

/-- The state after the calls. -/
def after (call : S → C → R × S) (s : S) (cs : List C) : S :=
  cs.foldl (fun s c => (call s c).2) s

/-- What the calls return, in order. -/
def results (call : S → C → R × S) : S → List C → List R
  | _, [] => []
  | s, c :: cs => (call s c).1 :: results call (call s c).2 cs

/-- The specification permits the calls to return these results. -/
inductive Runs (spec : T → C → R → T → Prop) : T → List C → List R → T → Prop
  | nil (t : T) : Runs spec t [] [] t
  | cons {t t' t'' : T} {c : C} {r : R} {cs : List C} {rs : List R}
      (h : spec t c r t') (hs : Runs spec t' cs rs t'') : Runs spec t (c :: cs) (r :: rs) t''

variable {call : S → C → R × S} {call' : T → C → R × T} {spec : T → C → R → T → Prop}
  {rel : S → T → Prop} {s : S} {t : T} {cs ds : List C}

@[simp] lemma after_nil : after call s [] = s := rfl

@[simp] lemma after_cons {c : C} : after call s (c :: cs) = after call (call s c).2 cs := rfl

lemma after_append : after call s (cs ++ ds) = after call (after call s cs) ds :=
  List.foldl_append

/-- What holds at the start and is kept by every call holds after all of them. -/
theorem after_invariant {I : S → Prop} (hcall : ∀ s c, I s → I (call s c).2) (h : I s) :
    I (after call s cs) := by
  induction cs generalizing s with
  | nil => exact h
  | cons c cs ih => exact ih (hcall s c h)

/-- Every call on a related state does what the specification permits and keeps the relation. -/
def Simulates (call : S → C → R × S) (spec : T → C → R → T → Prop) (rel : S → T → Prop) : Prop :=
  ∀ s t c, rel s t → ∃ t', spec t c (call s c).1 t' ∧ rel (call s c).2 t'

theorem Simulates.runs (h : Simulates call spec rel) (hrel : rel s t) (cs : List C) :
    ∃ t', Runs spec t cs (results call s cs) t' ∧ rel (after call s cs) t' := by
  induction cs generalizing s t with
  | nil => exact ⟨t, .nil t, hrel⟩
  | cons c cs ih =>
    obtain ⟨t₁, hspec, hrel₁⟩ := h s t c hrel
    obtain ⟨t', hruns, hrel'⟩ := ih hrel₁
    exact ⟨t', .cons hspec hruns, hrel'⟩

/-- A specification that permits one result is followed to the letter. -/
theorem Runs.eq {rs : List R} {t' : T}
    (h : Runs (fun t c r t' => call' t c = (r, t')) t cs rs t') :
    rs = results call' t cs ∧ t' = after call' t cs := by
  induction h with
  | nil t => exact ⟨rfl, rfl⟩
  | cons h _ ih =>
    obtain ⟨rfl, rfl⟩ := ih
    rw [results, after_cons, h]
    exact ⟨rfl, rfl⟩

end Object
