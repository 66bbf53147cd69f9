import Mathlib.Data.List.Lex
import Mathlib.Data.List.Perm.Subperm
import Verilua.Lib.Fifo
import Verilua.Lib.Iterator

/-!
# Tables and filters of `Cross`
-/

namespace Verilua.Cross

open Fifo

variable {V : Type*} [Inhabited V]

/-- The values of a list as a table, with `default` for `nil`. -/
def table (l : List V) : ℕ → V
  | 0 => default
  | i + 1 => l.getD i default

omit [Inhabited V] in
/-- The values in the slots `1` to `n`. -/
def values (n : ℕ) (t : ℕ → V) : List V := slots t (fun i => i + 1) n

omit [Inhabited V] in
/-- The option `filter`. -/
def keep (filter : Option (List V → Bool)) (combo : List V) : Bool :=
  match filter with
  | none => true
  | some filter => filter combo

variable {n i : ℕ} {t : ℕ → V} {l : List V}

omit [Inhabited V] in
lemma values_eq : values n t = (List.range' 1 n).map t := by
  rw [values, slots, List.range'_eq_map_range, List.map_map]
  exact List.map_congr_left fun i _ => by rw [Function.comp, Nat.add_comm]

omit [Inhabited V] in
@[simp] lemma length_values : (values n t).length = n := length_slots

@[simp] lemma values_table : values l.length (table l) = l := by
  apply List.ext_getElem
  · exact length_values
  · intro i hi hi'
    simp [values, slots, table, hi']

lemma values_table_of_length (h : l.length = n) : values n (table l) = l := by
  rw [← h, values_table]

omit [Inhabited V] in
lemma values_comp {W : Type*} (f : V → W) : values n (fun i => f (t i)) = (values n t).map f := by
  rw [values_eq, values_eq, List.map_map]
  rfl

lemma table_of_lt (h : l.length < i) : table l i = default := by
  cases i with
  | zero => rfl
  | succ i => simp [table, Nat.le_of_lt_succ h]

lemma table_values (h : ∀ j, j = 0 ∨ n < j → t j = default) : table (values n t) = t := by
  funext j
  by_cases hj : j = 0 ∨ n < j
  · rw [h j hj]
    rcases hj with rfl | hlt
    · rfl
    · exact table_of_lt (by rwa [length_values])
  · obtain ⟨i, rfl⟩ : ∃ i, j = i + 1 := ⟨j - 1, by omega⟩
    have hi : i < n := by omega
    simp [table, values, slots, hi]

end Verilua.Cross

/-!
### `combinations_iter`

The iterator increments the last index that has room, and puts those behind it right after it. Its
values in order are `choices`, read through the list.
-/

namespace Verilua.Cross

open Fifo Iterator

variable {V : Type*} [Inhabited V]

/-! ### The iterator -/

/-- The variables of the two iterators. -/
inductive Choosing
  /-- That for `k = 0`. -/
  | empty (yielded : Bool)
  | indices (indices : ℕ → ℕ) (first : Bool)

def combinationsIter (n k : ℕ) : Except String Choosing :=
  if n < k then
    .error ("combinations_iter: k (" ++ toString k ++ ") > n (" ++ toString n ++ ")")
  else if k = 0 then .ok (.empty false)
  else .ok (.indices (table (List.range' 1 k)) true)

/-- `while i >= 1 and indices[i] == n - k + i do i = i - 1 end` -/
def rightmost (n k : ℕ) (indices : ℕ → ℕ) : ℕ → ℕ
  | 0 => 0
  | i + 1 => if indices (i + 1) = n - k + (i + 1) then rightmost n k indices i else i + 1

/-- `indices[i] = indices[i] + 1`, and those behind it up to `k` follow. -/
def fill (k i : ℕ) (indices : ℕ → ℕ) : ℕ → ℕ :=
  (List.range' (i + 1) (k - i)).foldl
    (fun indices j => Function.update indices j (indices (j - 1) + 1))
    (Function.update indices i (indices i + 1))

/-- One round of the loop, or what the iterator for `k = 0` does. -/
def combinationsRound (a : List V) (k : ℕ) : Choosing → Option (Option (List V) × Choosing)
  | .empty yielded => if yielded then none else some (some [], .empty true)
  | .indices indices first =>
    let combo := fun indices : ℕ → ℕ => values k fun i => table a (indices i)
    if first then some (some (combo indices), .indices indices false)
    else
      let i := rightmost a.length k indices k
      if i < 1 then none
      else
        let indices := fill k i indices
        some (some (combo indices), .indices indices false)

/-! ### Indices in order -/

/-- The choices of `k` indices from `lo` on, in lexicographic order. -/
def choices (n : ℕ) : ℕ → ℕ → List (List ℕ)
  | 0, _ => [[]]
  | k + 1, lo => (List.range' lo (n + 1 - k - lo)).flatMap fun i => (choices n k (i + 1)).map (i :: ·)

/-- The `k` indices that follow. -/
def follow (n : ℕ) : ℕ → List ℕ → Option (List ℕ)
  | k + 1, i :: is =>
    match follow n k is with
    | some js => some (i :: js)
    | none => if i = n - k then none else some (List.range' (i + 1) (k + 1))
  | _, _ => none

variable {n k lo i : ℕ} {is js l : List ℕ}

lemma length_le_of_pairwise (h : l.Pairwise (· < ·)) (hl : ∀ i ∈ l, lo ≤ i ∧ i ≤ n) :
    l.length ≤ n + 1 - lo := by
  have hnodup : l.Nodup := h.imp Nat.ne_of_lt
  have hsub : l ⊆ List.range' lo (n + 1 - lo) := by
    intro i hi
    obtain ⟨hlo, hn⟩ := hl i hi
    exact List.mem_range'_1.mpr ⟨hlo, by omega⟩
  have hle := (List.subperm_of_subset hnodup hsub).length_le
  rwa [List.length_range'] at hle

lemma mem_choices : l ∈ choices n k lo ↔
    l.length = k ∧ l.Pairwise (· < ·) ∧ ∀ i ∈ l, lo ≤ i ∧ i ≤ n := by
  induction k generalizing l lo with
  | zero => simp +contextual [choices]
  | succ k ih =>
    simp only [choices, List.mem_flatMap, List.mem_map, ih, List.mem_range'_1]
    constructor
    · rintro ⟨i, hi, l, ⟨hlen, hpair, hl⟩, rfl⟩
      refine ⟨congrArg Nat.succ hlen, List.pairwise_cons.mpr ⟨fun j hj => (hl j hj).1, hpair⟩, ?_⟩
      intro j hj
      rcases List.mem_cons.mp hj with rfl | hj
      · exact ⟨hi.1, by omega⟩
      · exact ⟨by have := hl j hj; omega, (hl j hj).2⟩
    · rintro ⟨hlen, hpair, hl⟩
      cases l with
      | nil => cases hlen
      | cons i l =>
        obtain ⟨hhead, hpair⟩ := List.pairwise_cons.mp hpair
        have hrest : ∀ j ∈ l, i + 1 ≤ j ∧ j ≤ n := fun j hj =>
          ⟨hhead j hj, (hl j (List.mem_cons_of_mem _ hj)).2⟩
        have hroom := length_le_of_pairwise hpair hrest
        have hi := hl i List.mem_cons_self
        have hlen' : l.length = k := Nat.succ.inj hlen
        exact ⟨i, ⟨hi.1, by omega⟩, l, ⟨hlen', hpair, hrest⟩, rfl⟩

lemma lt_of_follow (h : follow n k is = some js) : is < js := by
  induction k generalizing is js with
  | zero => cases h
  | succ k ih =>
    cases is with
    | nil => cases h
    | cons i is =>
      rw [follow] at h
      cases hrest : follow n k is with
      | some ks =>
        rw [hrest] at h
        cases h
        exact List.cons_lt_cons_iff.mpr (.inr ⟨rfl, ih hrest⟩)
      | none =>
        rw [hrest] at h
        dsimp only at h
        split_ifs at h
        cases h
        exact List.cons_lt_cons_iff.mpr (.inl (Nat.lt_succ_self i))

lemma traverses_choices (h : lo + k ≤ n + 1) :
    Traverses (follow n k) (List.range' lo k) (choices n k lo) none := by
  induction k generalizing lo with
  | zero => exact .last rfl
  | succ k ih =>
    -- The first indices that are left, counted down.
    have hblocks : ∀ d lo, lo + d + k = n →
        Traverses (follow n (k + 1)) (List.range' lo (k + 1)) (choices n (k + 1) lo) none := by
      intro d
      induction d with
      | zero =>
        intro lo hlo
        have hcount : n + 1 - k - lo = 1 := by omega
        have hend : lo = n - k := by omega
        rw [choices, hcount, List.range'_one, List.flatMap_singleton, List.range'_succ]
        have hrest : Traverses (follow n k) (List.range' (lo + 1) k) (choices n k (lo + 1)) none :=
          ih (by omega)
        apply hrest.map
        · intro is js hjs
          simp only [follow, hjs]
        · intro is his
          simp only [follow, his, if_pos hend]
      | succ d ihd =>
        intro lo hlo
        have hcount : n + 1 - k - lo = n + 1 - k - (lo + 1) + 1 := by omega
        have hend : ¬ lo = n - k := by omega
        have hfirst : List.range' lo (n + 1 - k - lo) =
            lo :: List.range' (lo + 1) (n + 1 - k - (lo + 1)) := by rw [hcount, List.range'_succ]
        rw [choices, hfirst, List.flatMap_cons, List.range'_succ]
        refine Traverses.append ?_ (ihd (lo + 1) (by omega))
        have hrest : Traverses (follow n k) (List.range' (lo + 1) k) (choices n k (lo + 1)) none :=
          ih (by omega)
        apply hrest.map
        · intro is js hjs
          simp only [follow, hjs]
        · intro is his
          simp only [follow, his, if_neg hend]
    exact hblocks (n - k - lo) lo (by omega)

lemma pairwise_choices (h : lo + k ≤ n + 1) : (choices n k lo).Pairwise (· < ·) :=
  ((traverses_choices h).pairwise (r := (· < ·)) fun _ _ hfollow => lt_of_follow hfollow).1

/-! ### The loops -/

variable {t : ℕ → ℕ} {a : List V} {j o : ℕ}

lemma rightmost_row (hk : k ≤ n) (h : o + j = k) :
    (follow n j ((List.range' (o + 1) j).map t) = none →
      rightmost n k t (o + j) = rightmost n k t o) ∧
    ∀ js, follow n j ((List.range' (o + 1) j).map t) = some js → ∃ q < j,
      rightmost n k t (o + j) = o + q + 1 ∧
        js = (List.range' (o + 1) q).map t ++ List.range' (t (o + q + 1) + 1) (j - q) := by
  induction j generalizing o with
  | zero => exact ⟨fun _ => rfl, fun js hjs => by cases hjs⟩
  | succ j ih =>
    obtain ⟨hnone, hsome⟩ := ih (o := o + 1) (by omega)
    have hsum : o + 1 + j = o + (j + 1) := by omega
    have hlast : n - k + (o + 1) = n - j := by omega
    rw [hsum] at hnone hsome
    rw [List.range'_succ, List.map_cons, follow]
    cases hrest : follow n j ((List.range' (o + 1 + 1) j).map t) with
    | none =>
      rw [hnone hrest, rightmost, hlast]
      dsimp only
      constructor
      · intro hfollow
        split_ifs at hfollow with hend
        exact if_pos hend
      · intro js hfollow
        split_ifs at hfollow with hend
        cases hfollow
        exact ⟨0, Nat.succ_pos j, if_neg hend, rfl⟩
    | some ks =>
      refine ⟨fun hfollow => (by cases hfollow), fun js hfollow => ?_⟩
      cases hfollow
      obtain ⟨q, hq, hright, rfl⟩ := hsome ks hrest
      have hindex : o + 1 + q + 1 = o + (q + 1) + 1 := by omega
      refine ⟨q + 1, Nat.succ_lt_succ hq, hright.trans hindex, ?_⟩
      rw [List.range'_succ, List.map_cons, hindex, Nat.add_sub_add_right, List.cons_append]

lemma fill_apply (k i : ℕ) (t : ℕ → ℕ) (j : ℕ) :
    fill k i t j = if i ≤ j ∧ j ≤ i + (k - i) then t i + 1 + (j - i) else t j := by
  unfold fill
  generalize k - i = c
  induction c generalizing j with
  | zero =>
    by_cases h : j = i
    · subst h
      simp
    · rw [if_neg (by omega)]
      exact Function.update_of_ne h _ _
  | succ c ih =>
    rw [List.range'_concat, List.foldl_append, List.foldl_cons, List.foldl_nil]
    by_cases h : j = i + 1 + 1 * c
    · subst h
      rw [Function.update_self, ih, if_pos (by omega), if_pos (by omega)]
      omega
    · rw [Function.update_of_ne h, ih]
      split_ifs <;> first | rfl | omega

lemma values_fill {q : ℕ} (hq : q < k) :
    values k (fill k (q + 1) t) =
      (List.range' 1 q).map t ++ List.range' (t (q + 1) + 1) (k - q) := by
  have hsplit : List.range' 1 k = List.range' 1 q ++ List.range' (1 + q) (k - q) := by
    rw [List.range'_append_1]
    congr 1
    omega
  rw [values_eq, hsplit, List.map_append]
  congr 1
  · apply List.map_congr_left
    intro j hj
    have := List.mem_range'_1.mp hj
    rw [fill_apply, if_neg (by omega)]
  · apply List.ext_getElem
    · simp
    · intro j hj hj'
      simp only [List.length_map, List.length_range'] at hj
      simp only [List.getElem_map, List.getElem_range', fill_apply]
      rw [if_pos (by omega)]
      omega

lemma round_indices (hlen : is.length = k) (hk : k ≤ a.length) :
    combinationsRound a k (.indices (table is) false) =
      (follow a.length k is).map fun js => (some (js.map (table a)), .indices (table js) false) := by
  subst hlen
  have hrow : (List.range' (0 + 1) is.length).map (table is) = is := by
    rw [← values_eq, values_table]
  obtain ⟨hnone, hsome⟩ := rightmost_row (t := table is) hk (Nat.zero_add is.length)
  rw [hrow, Nat.zero_add] at hnone hsome
  cases hfollow : follow a.length is.length is with
  | none =>
    have hzero : rightmost a.length is.length (table is) is.length = 0 := hnone hfollow
    simp [combinationsRound, hzero]
  | some js =>
    obtain ⟨q, hq, hright, hjs⟩ := hsome js hfollow
    simp only [Nat.zero_add] at hright hjs
    have hvalues : values is.length (fill is.length (q + 1) (table is)) = js :=
      (values_fill hq).trans hjs.symm
    have htable : fill is.length (q + 1) (table is) = table js := by
      rw [← hvalues, table_values]
      intro j hj
      rw [fill_apply, if_neg (by omega)]
      rcases hj with rfl | hj
      · rfl
      · exact table_of_lt hj
    have hcombo : values is.length (fun i => table a (table js i)) = js.map (table a) := by
      rw [values_comp, ← htable, hvalues]
    simp [combinationsRound, hright, htable, hcombo]

/-! ### Every choice, once -/

omit [Inhabited V] in
lemma length_follow (h : follow n k is = some js) (hlen : is.length = k) : js.length = k := by
  induction k generalizing is js with
  | zero => cases h
  | succ k ih =>
    cases is with
    | nil => cases h
    | cons i is =>
      rw [follow] at h
      cases hrest : follow n k is with
      | some ks =>
        rw [hrest] at h
        cases h
        exact congrArg Nat.succ (ih hrest (Nat.succ.inj hlen))
      | none =>
        rw [hrest] at h
        dsimp only at h
        split_ifs at h
        cases h
        exact List.length_range'

lemma run_combinations (hk : k ≤ a.length) :
    ∃ start, combinationsIter a.length k = .ok start ∧
      Run (combinationsRound a k) start ((choices a.length k 1).map fun is => is.map (table a)) := by
  unfold combinationsIter
  rw [if_neg (Nat.not_lt.mpr hk)]
  cases k with
  | zero => exact ⟨_, rfl, .value rfl (.stop rfl)⟩
  | succ k =>
    refine ⟨_, rfl, ?_⟩
    have htrav : Traverses (follow a.length (k + 1)) (List.range' 1 (k + 1))
        (choices a.length (k + 1) 1) none := traverses_choices (by omega)
    apply htrav.run_behind (fun is => .indices (table is) false) (fun is => is.map (table a))
      (fun is => is.length = k + 1) List.length_range' fun is js hlen h => length_follow h hlen
    · have hcombo : values (k + 1) (fun i => table a (table (List.range' 1 (k + 1)) i)) =
          (List.range' 1 (k + 1)).map (table a) := by
        rw [values_comp, values_table_of_length List.length_range']
      rw [← hcombo]
      rfl
    · exact fun is hlen => round_indices hlen hk

end Verilua.Cross
