import Mathlib.Data.List.Basic

/-!
# Iterators that skip values

An iterator is a loop that is left at every value that passes a filter and entered again at the next
call. A round of the loop ends it, goes on, or comes to a value; `Run` is what its rounds come to if no
value is filtered. `Run.calls` says what the calls then return, for every filter.

Where each value is found from the one before, `Traverses` is the list of them all.
-/

namespace Iterator

variable {S R : Type*} (round : S → Option (Option R × S)) (keep : R → Bool)

/-- One call, of at most `fuel` rounds: `none` where these do not suffice. -/
def next : ℕ → S → Option (Option R × S)
  | 0, _ => none
  | fuel + 1, s =>
    match round s with
    | none => some (none, s)
    | some (none, s') => next fuel s'
    | some (some r, s') => if keep r then some (some r, s') else next fuel s'

/-- What the first `m` calls return. -/
def calls (call : S → Option (Option R × S)) : ℕ → S → Option (List (Option R))
  | 0, _ => some []
  | m + 1, s => (call s).bind fun p => (calls call m p.2).map (p.1 :: ·)

/-- The rounds from here on come to the values of the list and then to the end. -/
inductive Run : S → List R → Prop
  | stop {s : S} (h : round s = none) : Run s []
  | skip {s s' : S} {l : List R} (h : round s = some (none, s')) (hs : Run s' l) : Run s l
  | value {s s' : S} {r : R} {l : List R} (h : round s = some (some r, s')) (hs : Run s' l) :
    Run s (r :: l)

/-- From `s` the rounds come to the values of `l`, and then go on from `s'`. -/
def Leads (s : S) (l : List R) (s' : S) : Prop := ∀ l', Run round s' l' → Run round s (l ++ l')

variable {round keep} {s s' s'' : S} {r : R} {l l' : List R} {o : Option R} {fuel : ℕ}

lemma Leads.refl : Leads round s [] s := fun _ h => h

lemma Leads.trans (h : Leads round s l s') (h' : Leads round s' l' s'') :
    Leads round s (l ++ l') s'' := by
  intro rest hrest
  rw [List.append_assoc]
  exact h _ (h' _ hrest)

lemma Leads.skip (h : round s = some (none, s')) : Leads round s [] s' := fun _ => .skip h

lemma Leads.value (h : round s = some (some r, s')) : Leads round s [r] s' := fun _ => .value h

lemma next_mono (h : next round keep fuel s = some (o, s')) :
    next round keep (fuel + 1) s = some (o, s') := by
  induction fuel generalizing s with
  | zero => cases h
  | succ fuel ih =>
    rw [next] at h ⊢
    split at h
    · exact h
    · exact ih h
    · split_ifs at h ⊢
      · exact h
      · exact ih h

lemma calls_of_next_eq (h : next round keep (fuel + 1) s = next round keep fuel s')
    (hnext : ∃ p, next round keep fuel s' = some p) (m : ℕ) :
    calls (next round keep (fuel + 1)) m s = calls (next round keep (fuel + 1)) m s' := by
  cases m with
  | zero => rfl
  | succ m =>
    obtain ⟨⟨o, t⟩, hp⟩ := hnext
    rw [calls, calls, h, hp, next_mono hp]

/-- If the first `m` calls return the values of a list and then nothing, there is fuel for a call. -/
lemma exists_next (h : ∀ m, calls (next round keep fuel) m s =
    some ((List.range m).map fun j => l[j]?)) : ∃ p, next round keep fuel s = some p := by
  have hone := h 1
  rw [calls] at hone
  obtain ⟨p, hp, -⟩ := Option.bind_eq_some_iff.mp hone
  exact ⟨p, hp⟩

/-- With enough fuel for a call, the calls return the values that pass, and nothing from then on. -/
theorem Run.calls (h : Run round s l) (keep : R → Bool) :
    ∃ enough, ∀ fuel, enough ≤ fuel → ∀ m, calls (next round keep fuel) m s =
      some ((List.range m).map fun j => (l.filter keep)[j]?) := by
  induction h with
  | @stop s h =>
    refine ⟨1, fun fuel hfuel m => ?_⟩
    obtain ⟨f, rfl⟩ : ∃ f, fuel = f + 1 := ⟨fuel - 1, by omega⟩
    induction m with
    | zero => rfl
    | succ m ih =>
      have hnext : next round keep (f + 1) s = some (none, s) := by rw [next, h]
      rw [Iterator.calls, hnext, Option.bind_some, ih, List.range_succ_eq_map, List.map_cons,
        List.map_map]
      rfl
  | @skip s s' l h _ ih =>
    obtain ⟨enough, hcalls⟩ := ih
    refine ⟨enough + 1, fun fuel hfuel m => ?_⟩
    obtain ⟨f, rfl⟩ : ∃ f, fuel = f + 1 := ⟨fuel - 1, by omega⟩
    have hsame : next round keep (f + 1) s = next round keep f s' := by rw [next, h]
    rw [calls_of_next_eq hsame (exists_next (hcalls f (by omega)))]
    exact hcalls _ (by omega) m
  | @value s s' r l h _ ih =>
    obtain ⟨enough, hcalls⟩ := ih
    refine ⟨enough + 1, fun fuel hfuel m => ?_⟩
    obtain ⟨f, rfl⟩ : ∃ f, fuel = f + 1 := ⟨fuel - 1, by omega⟩
    cases hkeep : keep r with
    | true =>
      cases m with
      | zero => rfl
      | succ m =>
        have hnext : next round keep (f + 1) s = some (some r, s') := by simp [next, h, hkeep]
        rw [Iterator.calls, hnext, Option.bind_some, hcalls _ (by omega)]
        simp [hkeep, List.range_succ_eq_map]
    | false =>
      have hsame : next round keep (f + 1) s = next round keep f s' := by simp [next, h, hkeep]
      rw [calls_of_next_eq hsame (exists_next (hcalls f (by omega))),
        List.filter_cons_of_neg (by simp [hkeep])]
      exact hcalls _ (by omega) m

/-! ### The loop around an iterator -/

/-- The values up to the first `nil`, of at most `fuel` calls. -/
def collect (call : S → Option (Option R × S)) : ℕ → S → Option (List R)
  | 0, _ => none
  | fuel + 1, s =>
    match call s with
    | none => none
    | some (none, _) => some []
    | some (some r, s') => (collect call fuel s').map (r :: ·)

theorem collect_of_calls {call : S → Option (Option R × S)}
    (h : ∀ m, Iterator.calls call m s = some ((List.range m).map fun j => l[j]?))
    (hfuel : l.length < fuel) : collect call fuel s = some l := by
  induction l generalizing s fuel with
  | nil =>
    obtain ⟨f, rfl⟩ : ∃ f, fuel = f + 1 := ⟨fuel - 1, by omega⟩
    have hone := h 1
    rw [Iterator.calls] at hone
    obtain ⟨⟨o, s'⟩, hp, hcons⟩ := Option.bind_eq_some_iff.mp hone
    have ho : o = none := (List.cons.inj (Option.some.inj hcons)).1
    rw [collect, hp, ho]
  | cons r l ih =>
    obtain ⟨f, rfl⟩ : ∃ f, fuel = f + 1 := ⟨fuel - 1, by omega⟩
    have hone := h 1
    rw [Iterator.calls] at hone
    obtain ⟨⟨o, s'⟩, hp, hcons⟩ := Option.bind_eq_some_iff.mp hone
    have ho : o = some r := (List.cons.inj (Option.some.inj hcons)).1
    have hrest : ∀ m, Iterator.calls call m s' = some ((List.range m).map fun j => l[j]?) := by
      intro m
      have hsucc := h (m + 1)
      rw [Iterator.calls, hp, Option.bind_some, List.range_succ_eq_map, List.map_cons,
        List.map_map] at hsucc
      obtain ⟨rest, hrest, heq⟩ := Option.map_eq_some_iff.mp hsucc
      rw [hrest, (List.cons.inj heq).2]
      rfl
    rw [collect, hp, ho]
    dsimp only
    rw [ih hrest (by simpa using hfuel)]
    rfl

theorem Run.collect (h : Run round s l) (keep : R → Bool) :
    ∃ enough, ∀ fuel, enough ≤ fuel → collect (next round keep fuel) fuel s =
      some (l.filter keep) := by
  obtain ⟨enough, hcalls⟩ := h.calls keep
  refine ⟨enough + (l.filter keep).length + 1, fun fuel hfuel => ?_⟩
  exact collect_of_calls (hcalls fuel (by omega)) (by omega)

/-! ### From one value to the next -/

section Successor

variable {α β : Type*} {succ : α → Option α} {succ' : β → Option β} {x y : α} {xs ys : List α}
  {e : Option α}

/-- From `x` on the values are those of the list, and behind the last of them is `e`. -/
inductive Traverses (succ : α → Option α) : α → List α → Option α → Prop
  | last {x : α} {e : Option α} (h : succ x = e) : Traverses succ x [x] e
  | cons {x y : α} {xs : List α} {e : Option α} (h : succ x = some y)
    (hs : Traverses succ y xs e) : Traverses succ x (x :: xs) e

lemma Traverses.append (h : Traverses succ x xs (some y)) (h' : Traverses succ y ys e) :
    Traverses succ x (xs ++ ys) e := by
  generalize he : some y = o at h
  induction h with
  | last h => exact .cons (h.trans he.symm) h'
  | cons h _ ih => exact .cons h (ih he)

/-- A function that takes successors to successors, apart from what is behind the last value. -/
lemma Traverses.map {f : α → β} {e' : Option β} (h : Traverses succ x xs none)
    (hf : ∀ x y, succ x = some y → succ' (f x) = some (f y))
    (hlast : ∀ x, succ x = none → succ' (f x) = e') : Traverses succ' (f x) (xs.map f) e' := by
  generalize he : (none : Option α) = o at h
  induction h with
  | last h => exact .last (hlast _ (h.trans he.symm))
  | cons h _ ih => exact .cons (hf _ _ h) (ih he)

/-- If every value is less than the next, the list goes up. -/
lemma Traverses.pairwise {r : α → α → Prop} [IsTrans α r] (h : Traverses succ x xs e)
    (hsucc : ∀ x y, succ x = some y → r x y) : xs.Pairwise r ∧ ∀ z ∈ xs, z = x ∨ r x z := by
  induction h with
  | last h => exact ⟨List.pairwise_singleton _ _, fun z hz => .inl (List.mem_singleton.mp hz)⟩
  | @cons x y xs e h hs ih =>
    have hmem : ∀ z ∈ xs, r x z := by
      intro z hz
      rcases ih.2 z hz with rfl | hyz
      · exact hsucc _ _ h
      · exact IsTrans.trans _ _ _ (hsucc _ _ h) hyz
    refine ⟨List.pairwise_cons.mpr ⟨hmem, ih.1⟩, fun z hz => ?_⟩
    rcases List.mem_cons.mp hz with rfl | hz
    · exact .inl rfl
    · exact .inr (hmem z hz)

/-- An iterator that goes from the state of a value to that of the next. -/
theorem Traverses.run {state : α → S} {out : α → R} {I : α → Prop} (h : Traverses succ x xs none)
    (hI : I x) (hsucc : ∀ x y, I x → succ x = some y → I y)
    (hnext : ∀ x y, I x → succ x = some y → round (state x) = some (some (out x), state y))
    (hlast : ∀ x, I x → succ x = none →
      ∃ t, round (state x) = some (some (out x), t) ∧ round t = none) :
    Run round (state x) (xs.map out) := by
  generalize he : (none : Option α) = o at h
  induction h with
  | last h =>
    obtain ⟨t, ht, hstop⟩ := hlast _ hI (h.trans he.symm)
    exact .value ht (.stop hstop)
  | cons h _ ih => exact .value (hnext _ _ hI h) (ih (hsucc _ _ hI h) he)

theorem Traverses.run_behind (h : Traverses succ x xs none) (state : α → S) (out : α → R)
    (I : α → Prop) (hI : I x) (hsucc : ∀ x y, I x → succ x = some y → I y)
    (hfirst : round s = some (some (out x), state x))
    (hnext : ∀ x, I x → round (state x) = (succ x).map fun y => (some (out y), state y)) :
    Run round s (xs.map out) := by
  generalize he : (none : Option α) = o at h
  induction h generalizing s with
  | last h =>
    refine .value hfirst (.stop ?_)
    rw [hnext _ hI, h, ← he]
    rfl
  | cons h _ ih =>
    refine .value hfirst (ih (hsucc _ _ hI h) ?_ he)
    rw [hnext _ hI, h]
    rfl

end Successor

end Iterator
