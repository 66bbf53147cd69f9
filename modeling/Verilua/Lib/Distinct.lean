import Mathlib.Data.List.Sort
import Mathlib.Order.Lattice

/-!
# The distinct entries of a list

A loop keeps the entries of a list whose key it has not met before. The keys may be kept beside them
in an ordered set. Where the list comes in the order of its keys, the entries that are kept and the
ordered set agree.
-/

namespace Distinct

variable {α κ : Type*}

section Firsts

variable [DecidableEq κ]

/-- The first entry of every key that is not `seen` yet. -/
def firsts (key : α → κ) : List κ → List α → List α
  | _, [] => []
  | seen, a :: l =>
    if key a ∈ seen then firsts key seen l else a :: firsts key (key a :: seen) l

variable {key : α → κ} {seen seen' : List κ} {l : List α}

lemma firsts_sublist : (firsts key seen l).Sublist l := by
  induction l generalizing seen with
  | nil => exact List.Sublist.refl []
  | cons a l ih =>
    rw [firsts]
    split_ifs with hmem
    · exact ih.cons a
    · exact ih.cons_cons a

lemma mem_map_firsts {k : κ} :
    k ∈ (firsts key seen l).map key ↔ k ∈ l.map key ∧ k ∉ seen := by
  induction l generalizing seen with
  | nil => simp [firsts]
  | cons a l ih =>
    rw [firsts, List.map_cons, List.mem_cons]
    split_ifs with hmem
    · rw [ih]
      constructor
      · rintro ⟨hk, hseen⟩
        exact ⟨.inr hk, hseen⟩
      · rintro ⟨rfl | hk, hseen⟩
        · exact absurd hmem hseen
        · exact ⟨hk, hseen⟩
    · rw [List.map_cons, List.mem_cons, ih, List.mem_cons, not_or]
      constructor
      · rintro (rfl | ⟨hk, -, hseen⟩)
        · exact ⟨.inl rfl, hmem⟩
        · exact ⟨.inr hk, hseen⟩
      · rintro ⟨rfl | hk, hseen⟩
        · exact .inl rfl
        · by_cases heq : k = key a
          · exact .inl heq
          · exact .inr ⟨hk, heq, hseen⟩

lemma nodup_map_firsts : ((firsts key seen l).map key).Nodup := by
  induction l generalizing seen with
  | nil => exact List.nodup_nil
  | cons a l ih =>
    rw [firsts]
    split_ifs with hmem
    · exact ih
    · refine List.nodup_cons.mpr ⟨fun h => ?_, ih⟩
      exact (mem_map_firsts.mp h).2 List.mem_cons_self

lemma firsts_congr (h : ∀ k, k ∈ seen ↔ k ∈ seen') : firsts key seen l = firsts key seen' l := by
  induction l generalizing seen seen' with
  | nil => rfl
  | cons a l ih =>
    have hrest : firsts key (key a :: seen) l = firsts key (key a :: seen') l :=
      ih fun k => by rw [List.mem_cons, List.mem_cons, h k]
    simp only [firsts, h (key a), ih h, hrest]

end Firsts

/-! ### With an ordered set of the keys -/

variable [LinearOrder κ]

/-- The ordered set of the keys, and the entries in the order in which they came. -/
structure Collected (α κ : Type*) where
  set : List κ
  vec : List α

def Collected.add (key : α → κ) (c : Collected α κ) (a : α) : Collected α κ :=
  if key a ∈ c.set then c else ⟨c.set.orderedInsert (· ≤ ·) (key a), c.vec ++ [a]⟩

def collect (key : α → κ) (l : List α) : Collected α κ := l.foldl (Collected.add key) ⟨[], []⟩

variable {key : α → κ} {l : List α}

/-- What is kept beside the set are the first entries of its keys. -/
structure Collected.Valid (key : α → κ) (c : Collected α κ) : Prop where
  sorted : c.set.Pairwise (· < ·)
  perm : c.set.Perm (c.vec.map key)

lemma orderedInsert_sorted {k : κ} {set : List κ} (hset : set.Pairwise (· < ·)) (hk : k ∉ set) :
    (set.orderedInsert (· ≤ ·) k).Pairwise (· < ·) := by
  have hle : (set.orderedInsert (· ≤ ·) k).Pairwise (· ≤ ·) :=
    (hset.imp le_of_lt).orderedInsert k set
  have hnodup : (set.orderedInsert (· ≤ ·) k).Nodup :=
    (List.perm_orderedInsert (· ≤ ·) k set).nodup_iff.mpr
      (List.nodup_cons.mpr ⟨hk, hset.imp ne_of_lt⟩)
  exact hle.imp₂ (fun _ _ hle hne => lt_of_le_of_ne hle hne) hnodup

lemma Collected.Valid.add {c : Collected α κ} (h : c.Valid key) (a : α) :
    (c.add key a).Valid key := by
  rw [Collected.add]
  split_ifs with hmem
  · exact h
  · refine ⟨orderedInsert_sorted h.sorted hmem, ?_⟩
    rw [List.map_append, List.map_singleton]
    exact (List.perm_orderedInsert _ _ _).trans
      ((h.perm.cons _).trans (List.perm_append_singleton _ _).symm)

lemma foldl_add {c : Collected α κ} (h : c.Valid key) (l : List α) :
    (l.foldl (Collected.add key) c).Valid key ∧
      (l.foldl (Collected.add key) c).vec = c.vec ++ firsts key c.set l := by
  induction l generalizing c with
  | nil => exact ⟨h, (List.append_nil _).symm⟩
  | cons a l ih =>
    rw [List.foldl_cons]
    obtain ⟨hvalid, hvec⟩ := ih (h.add a)
    refine ⟨hvalid, hvec.trans ?_⟩
    rw [Collected.add, firsts]
    split_ifs with hmem
    · rfl
    · rw [List.append_assoc, List.singleton_append]
      congr 2
      exact firsts_congr fun k => by
        rw [List.mem_orderedInsert, List.mem_cons]

lemma collect_valid (key : α → κ) (l : List α) : (collect key l).Valid key :=
  (foldl_add ⟨List.Pairwise.nil, List.Perm.refl []⟩ l).1

lemma collect_vec (key : α → κ) (l : List α) : (collect key l).vec = firsts key [] l :=
  (foldl_add ⟨List.Pairwise.nil, List.Perm.refl []⟩ l).2

lemma mem_collect_set {k : κ} : k ∈ (collect key l).set ↔ k ∈ l.map key := by
  rw [(collect_valid key l).perm.mem_iff, collect_vec, mem_map_firsts]
  simp

/-- On a list in the order of its keys the entries come in the order of the set. -/
lemma map_collect_vec (hl : (l.map key).Pairwise (· ≤ ·)) :
    (collect key l).vec.map key = (collect key l).set := by
  have hle : ((collect key l).vec.map key).Pairwise (· ≤ ·) := by
    rw [collect_vec]
    exact hl.sublist (firsts_sublist.map key)
  exact (collect_valid key l).perm.symm.eq_of_pairwise
    (fun _ _ _ _ hab hba => le_antisymm hab hba) hle ((collect_valid key l).sorted.imp le_of_lt)

end Distinct
