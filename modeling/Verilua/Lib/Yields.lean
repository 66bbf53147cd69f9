import Verilua.Lib.Codec

/-!
# When a computation gives a value

A computation that may panic or fail yields `P` under the condition `ok` when it gives a value just
where `ok` holds, and every value that it gives is one with `P`.
-/

namespace Codec.Outcome

universe u

variable {α γ : Type u} {x : Outcome α} {k : α → Outcome γ} {ok ok' : Prop} {P P' : α → Prop}
  {Q : γ → Prop}

structure Yields (x : Outcome α) (ok : Prop) (P : α → Prop) : Prop where
  sound : ∀ {a}, x = .value a → ok ∧ P a
  total : ok → ∃ a, x = .value a

lemma Yields.value {a : α} (hok : ok) (h : P a) : Yields (.value a) ok P where
  sound := by
    rintro _ ⟨⟩
    exact ⟨hok, h⟩
  total _ := ⟨a, rfl⟩

lemma Yields.panic (hok : ¬ ok) : Yields .panic ok P where
  sound := fun h => nomatch h
  total h := absurd h hok

lemma Yields.congr (h : Yields x ok P) (hok : ok ↔ ok') : Yields x ok' P where
  sound ha := ⟨hok.mp (h.sound ha).1, (h.sound ha).2⟩
  total hok' := h.total (hok.mpr hok')

/-- One computation after the other gives a value where both do. -/
lemma Yields.bind (h : Yields x ok P) (hk : ∀ a, P a → Yields (k a) ok' Q) :
    Yields (x >>= k) (ok ∧ ok') Q where
  sound := by
    intro b hb
    cases x with
    | value a =>
      obtain ⟨hok, ha⟩ := h.sound rfl
      obtain ⟨hok', hb⟩ := (hk a ha).sound hb
      exact ⟨⟨hok, hok'⟩, hb⟩
    | fail => cases hb
    | panic => cases hb
  total := by
    rintro ⟨hok, hok'⟩
    obtain ⟨a, rfl⟩ := h.total hok
    exact (hk a (h.sound rfl).2).total hok'

end Codec.Outcome
