import Mathlib.Data.List.Infix

/-!
# Texts with a separator

A text is split at each occurrence of a separator, from the left. Parts in which no character of the
separator occurs are what the text that joins them is split into.
-/

namespace Verilua.Separator

variable {α : Type*} [DecidableEq α]

/-- The parts, the first of which begins with `part`; `skip` more characters belong to a separator. -/
def splitFrom (sep : List α) : List α → ℕ → List α → List (List α)
  | part, _, [] => [part]
  | part, skip + 1, _ :: cs => splitFrom sep part skip cs
  | part, 0, c :: cs =>
    if sep <+: c :: cs then part :: splitFrom sep [] (sep.length - 1) cs
    else splitFrom sep (part ++ [c]) 0 cs

def splitBy (sep l : List α) : List (List α) := splitFrom sep [] 0 l

variable {sep part rest : List α}

lemma splitFrom_skip (sep part : List α) (l rest : List α) :
    splitFrom sep part l.length (l ++ rest) = splitFrom sep part 0 rest := by
  induction l with
  | nil => rfl
  | cons c cs ih => exact ih

lemma splitFrom_sep (hsep : sep ≠ []) (part rest : List α) :
    splitFrom sep part 0 (sep ++ rest) = part :: splitFrom sep [] 0 rest := by
  obtain ⟨c, cs, rfl⟩ := List.exists_cons_of_ne_nil hsep
  rw [List.cons_append, splitFrom, if_pos ⟨rest, rfl⟩]
  exact congrArg _ (splitFrom_skip (c :: cs) [] cs rest)

/-- A part without characters of the separator is passed over. -/
lemma splitFrom_append (hsep : sep ≠ []) (part l rest : List α) (hl : ∀ c ∈ l, c ∉ sep) :
    splitFrom sep part 0 (l ++ rest) = splitFrom sep (part ++ l) 0 rest := by
  induction l generalizing part with
  | nil => rw [List.nil_append, List.append_nil]
  | cons c cs ih =>
    have hne : ¬ sep <+: c :: (cs ++ rest) := by
      obtain ⟨d, ds, rfl⟩ := List.exists_cons_of_ne_nil hsep
      intro hpre
      exact hl c List.mem_cons_self ((List.cons_prefix_cons.1 hpre).1 ▸ List.mem_cons_self)
    rw [List.cons_append, splitFrom, if_neg hne, ih _ fun d hd => hl d (List.mem_cons_of_mem _ hd),
      List.append_assoc]
    rfl

lemma splitBy_intercalate (hsep : sep ≠ []) {parts : List (List α)} (hne : parts ≠ [])
    (hparts : ∀ p ∈ parts, ∀ c ∈ p, c ∉ sep) : splitBy sep (sep.intercalate parts) = parts := by
  induction parts with
  | nil => exact absurd rfl hne
  | cons p parts ih =>
    have hp := hparts p List.mem_cons_self
    cases parts with
    | nil =>
      have h := splitFrom_append hsep [] p [] hp
      rw [List.append_nil] at h
      exact (congrArg (splitBy sep) List.intercalate_singleton).trans h
    | cons q parts =>
      rw [List.intercalate_cons_cons, splitBy, List.append_assoc,
        splitFrom_append hsep [] p _ hp, splitFrom_sep hsep, List.nil_append]
      exact congrArg _ (ih (List.cons_ne_nil q parts)
        fun r hr => hparts r (List.mem_cons_of_mem _ hr))

/-- No part of a text that is split at a character holds the character, or one not in the text. -/
lemma of_mem_splitOn {sep : α} (l : List α) : ∀ part ∈ l.splitOn sep, sep ∉ part ∧ part ⊆ l := by
  induction l with
  | nil => simp
  | cons x l ih =>
    intro part hpart
    have hsub : l ⊆ x :: l := List.subset_cons_self x l
    rw [List.splitOn_cons_eq_if_modifyHead] at hpart
    split_ifs at hpart with hx
    · rcases List.mem_cons.mp hpart with rfl | hpart
      · simp
      · exact ⟨(ih part hpart).1, List.Subset.trans (ih part hpart).2 hsub⟩
    · cases hl : l.splitOn sep with
      | nil => exact absurd hl (List.splitOn_ne_nil sep l)
      | cons head tail =>
        rw [hl] at hpart ih
        rcases List.mem_cons.mp hpart with rfl | hpart
        · have hne : sep ≠ x := fun heq => hx (by simp [heq])
          have hhead := ih head List.mem_cons_self
          exact ⟨by simp [hne, hhead.1], List.cons_subset_cons x hhead.2⟩
        · have htail := ih part (List.mem_cons_of_mem _ hpart)
          exact ⟨htail.1, List.Subset.trans htail.2 hsub⟩

end Verilua.Separator
