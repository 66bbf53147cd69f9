import Mathlib.Data.List.Basic

/-!
# Leftmost matches

A text is gone through from its beginning. Where a matcher finds something, what it has read is
passed over; elsewhere one character is. The replacing of all matches and the listing of what they
capture are read off the pieces.
-/

namespace Verilua.Leftmost

variable {α β : Type*}

/-- What is captured at the beginning of a text, and the text behind the match. -/
abbrev Matcher (α β : Type*) := List α → Option (β × List α)

/-- The characters outside of the matches, and the captures; `skip` more characters belong to the
last match. -/
def pieces (m : Matcher α β) : Nat → List α → List (α ⊕ β)
  | _, [] => []
  | skip + 1, _ :: cs => pieces m skip cs
  | 0, c :: cs =>
    match m (c :: cs) with
    | some (b, rest) => .inr b :: pieces m (cs.length - rest.length) cs
    | none => .inl c :: pieces m 0 cs

/-- The text without the matches. -/
def erase (m : Matcher α β) (l : List α) : List α := (pieces m 0 l).filterMap Sum.getLeft?

/-- The captures. -/
def captures (m : Matcher α β) (l : List α) : List β := (pieces m 0 l).filterMap Sum.getRight?

/-- A match leaves a shorter text. -/
def Matcher.Shortens (m : Matcher α β) : Prop :=
  ∀ c cs b rest, m (c :: cs) = some (b, rest) → rest <:+ cs

variable {m : Matcher α β} {l pre post rest : List α} {c : α} {cs : List α} {b : β}

lemma pieces_skip (m : Matcher α β) (skip : Nat) (l : List α) :
    pieces m skip l = pieces m 0 (l.drop skip) := by
  induction l generalizing skip with
  | nil => cases skip <;> rfl
  | cons c cs ih =>
    cases skip with
    | zero => rfl
    | succ skip => exact ih skip

lemma pieces_of_match (hm : m.Shortens) (h : m l = some (b, rest)) (hne : l ≠ []) :
    pieces m 0 l = .inr b :: pieces m 0 rest := by
  obtain ⟨c, cs, rfl⟩ := List.exists_cons_of_ne_nil hne
  obtain ⟨skipped, rfl⟩ := hm c cs b rest h
  simp only [pieces, h, List.length_append, Nat.add_sub_cancel]
  rw [pieces_skip, List.drop_left]

lemma pieces_append (h : ∀ k < pre.length, m (pre.drop k ++ post) = none) :
    pieces m 0 (pre ++ post) = pre.map .inl ++ pieces m 0 post := by
  induction pre with
  | nil => rfl
  | cons c cs ih =>
    have hhead : m (c :: (cs ++ post)) = none := h 0 (Nat.succ_pos _)
    have htail := ih fun k hk => h (k + 1) (Nat.succ_lt_succ hk)
    simp only [List.cons_append, pieces, hhead, htail, List.map_cons]

lemma erase_append (h : ∀ k < pre.length, m (pre.drop k ++ post) = none) :
    erase m (pre ++ post) = pre ++ erase m post := by
  rw [erase, erase, pieces_append h, List.filterMap_append, List.filterMap_map]
  congr 1
  exact List.filterMap_some

lemma erase_of_match (hm : m.Shortens) (h : m l = some (b, rest)) (hne : l ≠ []) :
    erase m l = erase m rest := by
  rw [erase, erase, pieces_of_match hm h hne]
  rfl

@[simp] lemma erase_nil (m : Matcher α β) : erase m [] = [] := rfl

lemma captures_append (h : ∀ k < pre.length, m (pre.drop k ++ post) = none) :
    captures m (pre ++ post) = captures m post := by
  rw [captures, captures, pieces_append h, List.filterMap_append, List.filterMap_map]
  have hnil : pre.filterMap (Sum.getRight? ∘ (Sum.inl : α → α ⊕ β)) = [] :=
    List.filterMap_eq_nil_iff.mpr fun _ _ => rfl
  rw [hnil, List.nil_append]

lemma captures_of_match (hm : m.Shortens) (h : m l = some (b, rest)) (hne : l ≠ []) :
    captures m l = b :: captures m rest := by
  rw [captures, captures, pieces_of_match hm h hne]
  rfl

@[simp] lemma captures_nil (m : Matcher α β) : captures m [] = [] := rfl

/-- The first character that is left was the first before, or a match began there. -/
lemma head_of_erase (h : (erase m l).head? = some c) :
    l.head? = some c ∨ m l ≠ none := by
  cases l with
  | nil => cases h
  | cons d ds =>
    cases hm : m (d :: ds) with
    | some found => exact .inr (Option.some_ne_none found)
    | none =>
      rw [erase] at h
      simp only [pieces, hm] at h
      exact .inl h

end Verilua.Leftmost
