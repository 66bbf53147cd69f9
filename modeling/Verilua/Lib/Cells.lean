import Mathlib.Data.List.Basic
import Mathlib.Logic.Function.Basic

/-!
# Cells

A row of cells without an end, some of which hold a value: what has been written to a buffer of
unknown size, or what may be read of it. Writing lists side by side is writing their concatenation.
-/

/-- What the cells hold; `none` is a cell without a value. -/
abbrev Cells (α : Type*) := Nat → Option α

namespace Cells

variable {α : Type*} {l m : List α} {i k : Nat} {a : α}

/-- No cell holds a value. -/
def empty : Cells α := fun _ => none

/-- The cells from the first on hold the list, and no further cell holds a value. -/
def ofList (l : List α) : Cells α := fun i => l[i]?

def set (c : Cells α) (i : Nat) (a : α) : Cells α := Function.update c i (some a)

/-- To write a list from cell `k` on. -/
def write (c : Cells α) (k : Nat) (l : List α) : Cells α := fun i =>
  if k ≤ i ∧ i < k + l.length then l[i - k]? else c i

@[simp] lemma write_nil (c : Cells α) (k : Nat) : c.write k [] = c := by
  funext i
  simp only [write, List.length_nil, Nat.add_zero]
  exact if_neg (by omega)

lemma write_append (c : Cells α) (k : Nat) (l m : List α) :
    (c.write (k + l.length) m).write k l = c.write k (l ++ m) := by
  funext i
  simp only [write, List.length_append]
  split_ifs with h₁ h₂ h₃ h₄ <;> try omega
  · rw [List.getElem?_append_left (by omega)]
  · rw [List.getElem?_append_right (by omega), show i - k - l.length = i - (k + l.length) by omega]
  · rfl

lemma write_concat (c : Cells α) (k : Nat) (l : List α) (a : α) :
    (c.set (k + l.length) a).write k l = c.write k (l ++ [a]) := by
  rw [← write_append]
  congr 1
  funext i
  simp only [set, write, Function.update_apply, List.length_singleton]
  by_cases h : i = k + l.length
  · simp [h]
  · rw [if_neg h, if_neg (by omega)]

@[simp] lemma write_empty (l : List α) : (empty : Cells α).write 0 l = ofList l := by
  funext i
  simp only [write, empty, ofList, Nat.zero_le, true_and, Nat.zero_add, Nat.sub_zero]
  split_ifs with h
  · rfl
  · exact (List.getElem?_eq_none (by omega)).symm

lemma set_ofList (hi : i < l.length) : (ofList l).set i a = ofList (l.set i a) := by
  funext j
  simp only [set, ofList, Function.update_apply, List.getElem?_set]
  by_cases h : j = i
  · simp [h, hi]
  · rw [if_neg h, if_neg (Ne.symm h)]

lemma set_ofList_length (l : List α) (a : α) : (ofList l).set l.length a = ofList (l ++ [a]) := by
  funext j
  simp only [set, ofList, Function.update_apply]
  by_cases h : j = l.length
  · simp [h]
  · rw [if_neg h]
    rcases Nat.lt_or_gt_of_ne h with hlt | hgt
    · rw [List.getElem?_append_left hlt]
    · have hlen : (l ++ [a]).length ≤ j := by simpa using Nat.succ_le_of_lt hgt
      rw [List.getElem?_eq_none (Nat.le_of_lt hgt), List.getElem?_eq_none hlen]

@[simp] lemma ofList_inj : (ofList l : Cells α) = ofList m ↔ l = m := by
  constructor
  · intro h
    exact List.ext_getElem? fun i => congrFun h i
  · rintro rfl
    rfl

end Cells
