import Verilua.Lib.Fifo
import Mathlib.Order.Lattice

/-!
# Insertion sort of a table

The values in the slots `1` to `n` are sorted in place. Each is inserted into those before it, of which
the greater ones are moved up by a slot.
-/

namespace Insertion

open Fifo

variable {α : Type*} [LinearOrder α]

/-- `while j >= 1 and t[j] > val do t[j + 1] = t[j]; j = j - 1 end; t[j + 1] = val`. -/
def shift (val : α) : ℕ → (ℕ → α) → ℕ → α
  | 0, t => Function.update t 1 val
  | j + 1, t =>
    if val < t (j + 1) then shift val j (Function.update t (j + 2) (t (j + 1)))
    else Function.update t (j + 2) val

/-- `for i = 2, n`, where `t[i]` is inserted. -/
def sort (n : ℕ) (t : ℕ → α) : ℕ → α :=
  (List.range' 2 (n - 1)).foldl (fun t i => shift (t i) (i - 1) t) t

variable {t : ℕ → α} {n j : ℕ}

/-- The slots `1` to `n`. -/
abbrev row (t : ℕ → α) (n : ℕ) : List α := slots t (fun i => i + 1) n

omit [LinearOrder α] in
lemma row_succ : row t (n + 1) = row t n ++ [t (n + 1)] := slots_succ

omit [LinearOrder α] in
lemma row_congr {t' : ℕ → α} (h : ∀ i, i ≤ n → t i = t' i) : row t n = row t' n :=
  slots_congr fun _ hi => h _ hi

/-- The row is split before its greater end, and the value is put between. -/
lemma exists_shift (val : α) (n : ℕ) (t : ℕ → α) :
    ∃ A B, row t n = A ++ B ∧ row (shift val n t) (n + 1) = A ++ val :: B ∧
      (∀ b ∈ B, val < b) ∧ (∀ a, A.getLast? = some a → a ≤ val) ∧
      ∀ j, n + 1 < j → shift val n t j = t j := by
  induction n generalizing t with
  | zero =>
    refine ⟨[], [], rfl, ?_, nofun, nofun, fun j hj => ?_⟩
    · rw [row_succ]
      simp [shift]
    · exact Function.update_of_ne (by omega) _ _
  | succ n ih =>
    rw [shift]
    split_ifs with hlt
    · obtain ⟨A, B, hrow, hshift, hgreater, hless, hrest⟩ :=
        ih (Function.update t (n + 2) (t (n + 1)))
      have hrow' : row t n = A ++ B := by
        rw [← hrow]
        exact row_congr fun i hi => (Function.update_of_ne (by omega) _ _).symm
      refine ⟨A, B ++ [t (n + 1)], ?_, ?_, ?_, hless, fun j hj => ?_⟩
      · rw [row_succ, hrow', List.append_assoc]
      · rw [row_succ, hshift, hrest _ (Nat.lt_succ_self _), Function.update_self]
        simp
      · intro b hb
        rcases List.mem_append.mp hb with hb | hb
        · exact hgreater b hb
        · rwa [List.mem_singleton.mp hb]
      · rw [hrest j (by omega), Function.update_of_ne (by omega)]
    · refine ⟨row t (n + 1), [], (List.append_nil _).symm, ?_, nofun, ?_, fun j hj => ?_⟩
      · rw [row_succ (n := n + 1), Function.update_self]
        congr 1
        exact row_congr fun i hi => Function.update_of_ne (by omega) _ _
      · intro a ha
        rw [row_succ, List.getLast?_concat, Option.some.injEq] at ha
        exact ha ▸ le_of_not_gt hlt
      · exact Function.update_of_ne (by omega) _ _

lemma sorted_shift (val : α) (h : (row t n).Pairwise (· ≤ ·)) :
    (row (shift val n t) (n + 1)).Perm (val :: row t n) ∧
      (row (shift val n t) (n + 1)).Pairwise (· ≤ ·) := by
  obtain ⟨A, B, hrow, hshift, hgreater, hless, -⟩ := exists_shift val n t
  rw [hrow] at h ⊢
  rw [hshift]
  refine ⟨List.perm_middle, ?_⟩
  obtain ⟨hA, hB, hAB⟩ := List.pairwise_append.mp h
  have hle : ∀ a ∈ A, a ≤ val := by
    intro a ha
    rcases List.eq_nil_or_concat A with rfl | ⟨A', b, rfl⟩
    · cases ha
    · rw [List.concat_eq_append] at ha hA hless
      have hb : b ≤ val := hless b (by simp)
      rcases List.mem_append.mp ha with ha | ha
      · exact ((List.pairwise_append.mp hA).2.2 a ha b (List.mem_singleton_self b)).trans hb
      · rwa [List.mem_singleton.mp ha]
  refine List.pairwise_append.mpr ⟨hA, List.pairwise_cons.mpr ⟨?_, hB⟩, ?_⟩
  · exact fun b hb => (hgreater b hb).le
  · intro a ha b hb
    rcases List.mem_cons.mp hb with rfl | hb
    · exact hle a ha
    · exact hAB a ha b hb

theorem row_sort (n : ℕ) (t : ℕ → α) :
    (row (sort n t) n).Perm (row t n) ∧ (row (sort n t) n).Pairwise (· ≤ ·) := by
  have hloop : ∀ c, let t' := (List.range' 2 c).foldl (fun t i => shift (t i) (i - 1) t) t
      (row t' (c + 1)).Perm (row t (c + 1)) ∧ (row t' (c + 1)).Pairwise (· ≤ ·) ∧
        ∀ j, c + 1 < j → t' j = t j := by
    intro c
    induction c with
    | zero => exact ⟨.refl _, List.pairwise_singleton _ _, fun _ _ => rfl⟩
    | succ c ih =>
      obtain ⟨hperm, hsorted, hrest⟩ := ih
      rw [List.range'_concat, List.foldl_append, List.foldl_cons, List.foldl_nil]
      generalize (List.range' 2 c).foldl (fun t i => shift (t i) (i - 1) t) t = t'
        at hperm hsorted hrest
      have hindex : 2 + 1 * c = c + 2 := by omega
      obtain ⟨hperm', hsorted'⟩ := sorted_shift (t' (c + 2)) hsorted
      obtain ⟨-, -, -, -, -, -, hrest'⟩ := exists_shift (t' (c + 2)) (c + 1) t'
      rw [hindex]
      refine ⟨?_, hsorted', fun j hj => ?_⟩
      · have hnext : row t (c + 1 + 1) = row t (c + 1) ++ [t' (c + 2)] := by
          rw [row_succ, hrest (c + 2) (by omega)]
        rw [hnext]
        exact hperm'.trans ((hperm.cons _).trans (List.perm_append_singleton _ _).symm)
      · exact (hrest' j (by omega)).trans (hrest j (by omega))
  cases n with
  | zero => exact ⟨.refl _, .nil⟩
  | succ c =>
    obtain ⟨hperm, hsorted, -⟩ := hloop c
    exact ⟨hperm, hsorted⟩

end Insertion
