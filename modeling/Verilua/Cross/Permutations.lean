import Verilua.Cross.Combinations
import Verilua.Lib.Heap
import Verilua.Lib.Shuffle
import Mathlib.Data.List.Permutation

/-!
# `permutations_iter`

The iterator keeps the counters of Heap's algorithm between two calls. What it yields is the
enumeration `Heap.perms`, read through the list of values.
-/

namespace Verilua.Cross

open Fifo Shuffle Iterator Equiv

variable {V : Type*} [Inhabited V]

/-! ### The iterator -/

/-- The variables of the iterator. -/
structure Permuting (V : Type*) where
  arr : ℕ → V
  c : ℕ → ℕ
  i : ℕ
  first : Bool

/-- The iterator for a list of values: `none` is the one that returns `nil` at once. -/
def permutationsIter (a : List V) : Option (Permuting V) :=
  if a.length = 0 then none
  else some { arr := table a, c := fun _ => 0, i := 0, first := true }

omit [Inhabited V] in
/-- One round of the loop, or what comes before it at the first call. -/
def permutationsRound (n : ℕ) :
    Option (Permuting V) → Option (Option (List V) × Option (Permuting V))
  | none => none
  | some s =>
    if s.first then some (some (values n s.arr), some { s with first := false })
    else if s.i < n then
      if s.c s.i < s.i then
        let arr :=
          if s.i % 2 = 0 then exchange s.arr 1 (s.i + 1)
          else
            let ci := s.c s.i + 1
            exchange s.arr ci (s.i + 1)
        some (some (values n arr),
          some { s with arr := arr, c := Function.update s.c s.i (s.c s.i + 1), i := 0 })
      else some (none, some { s with c := Function.update s.c s.i 0, i := s.i + 1 })
    else none

/-! ### Blocks -/

variable {n k r : ℕ} {t : ℕ → V} {c : ℕ → ℕ}

/-- The iterator at the beginning of the loop with `i`. -/
def looping (arr : ℕ → V) (c : ℕ → ℕ) (i : ℕ) : Option (Permuting V) :=
  some { arr := arr, c := c, i := i, first := false }

omit [Inhabited V] in
/-- What a permutation makes of a table. -/
def shown (n : ℕ) (arr : ℕ → V) (π : Perm ℕ) : List V := values n fun j => arr (π j)

omit [Inhabited V] in
lemma round_exchange (h : k < n) (hc : c k < k) :
    permutationsRound n (looping t c k) = some
      (some (shown n t (Heap.exchange k (c k))),
        looping (fun j => t (Heap.exchange k (c k) j)) (Function.update c k (c k + 1)) 0) := by
  have harr : (if k % 2 = 0 then exchange t 1 (k + 1) else exchange t (c k + 1) (k + 1)) =
      fun j => t (Heap.exchange k (c k) j) := by
    funext j
    unfold Heap.exchange
    split_ifs <;> exact exchange_eq
  simp only [looping, permutationsRound, Bool.false_eq_true, if_false, if_pos h, if_pos hc, harr]
  rfl

omit [Inhabited V] in
lemma round_reset (h : k < n) (hc : ¬ c k < k) :
    permutationsRound n (looping t c k) =
      some (none, looping t (Function.update c k 0) (k + 1)) := by
  simp only [looping, permutationsRound, Bool.false_eq_true, if_false, if_pos h, if_neg hc]

/-- The permutations of the blocks `r` to `k` of level `k`. -/
def blocks (k r : ℕ) : List (Perm ℕ) :=
  (List.range' r (k + 1 - r)).flatMap fun r =>
    (Heap.perms k).map (Heap.offset (Heap.last k) k r * ·)

lemma blocks_zero : blocks k 0 = Heap.perms (k + 1) := by
  rw [blocks, Nat.sub_zero, ← List.range_eq_range', Heap.perms]

lemma perms_eq_cons (n : ℕ) : ∃ l, Heap.perms n = 1 :: l := by
  induction n with
  | zero => exact ⟨[], rfl⟩
  | succ k ih =>
    obtain ⟨l, hl⟩ := ih
    rw [Heap.perms, List.range_succ_eq_map, List.flatMap_cons, hl, List.map_cons, List.cons_append,
      Heap.offset, one_mul]
    exact ⟨_, rfl⟩

lemma blocks_eq (hr : r ≤ k) :
    blocks k r = Heap.offset (Heap.last k) k r ::
      ((Heap.perms k).tail.map (Heap.offset (Heap.last k) k r * ·) ++ blocks k (r + 1)) := by
  obtain ⟨l, hl⟩ := perms_eq_cons k
  have hcount : k + 1 - r = k + 1 - (r + 1) + 1 := by omega
  rw [blocks, hcount, List.range'_succ, List.flatMap_cons, hl, List.map_cons, mul_one,
    List.cons_append, List.tail_cons]
  rw [blocks, hl]

lemma blocks_end : blocks k (k + 1) = [] := by
  rw [blocks, Nat.sub_self]
  rfl

omit [Inhabited V] in
/-- From where `i` is 0 to where it is `k`, with the counters below `k` at 0 at both ends. -/
lemma leads_level (hk : k ≤ n) (hc : ∀ j < k, c j = 0) :
    Leads (permutationsRound n) (looping t c 0) ((Heap.perms k).tail.map (shown n t))
      (looping (fun j => t (Heap.last k j)) c k) := by
  induction k generalizing t c with
  | zero => exact .refl
  | succ k ih =>
    have hck : c k = 0 := hc k (Nat.lt_succ_self k)
    have hlevel := fun r => ih (t := fun j => t (Heap.offset (Heap.last k) k r j))
      (c := Function.update c k r) (Nat.le_of_succ_le hk) fun j hj => by
        rw [Function.update_of_ne (Nat.ne_of_lt hj)]
        exact hc j (Nat.lt_succ_of_lt hj)
    -- The blocks that are left, counted down.
    have hblocks : ∀ d r, r + d = k → Leads (permutationsRound n)
        (looping (fun j => t (Heap.offset (Heap.last k) k r j)) (Function.update c k r) 0)
        ((blocks k r).tail.map (shown n t))
        (looping (fun j => t (Heap.last (k + 1) j)) c (k + 1)) := by
      intro d
      induction d with
      | zero =>
        intro r hr
        have hrk : r = k := hr
        subst hrk
        have hreset := round_reset (n := n) (t := fun j =>
          t (Heap.offset (Heap.last r) r r (Heap.last r j))) (c := Function.update c r r) hk
          (by simp)
        have hback : Function.update (Function.update c r r) r 0 = c := by
          rw [Function.update_idem, ← hck, Function.update_eq_self]
        rw [hback] at hreset
        have hleads := (hlevel r).trans (.skip hreset)
        rw [blocks_eq (Nat.le_refl r), List.tail_cons, Nat.add_zero, blocks_end, List.map_append,
          List.map_map]
        exact hleads
      | succ d ihd =>
        intro r hr
        have hexchange := round_exchange (n := n) (t := fun j =>
          t (Heap.offset (Heap.last k) k r (Heap.last k j))) (c := Function.update c k r) hk
          (by rw [Function.update_self]; omega)
        rw [Function.update_self, Function.update_idem] at hexchange
        have hleads := ((hlevel r).trans (.value hexchange)).trans (ihd (r + 1) (by omega))
        rw [blocks_eq (show r ≤ k by omega), List.tail_cons, blocks_eq (show r + 1 ≤ k by omega),
          List.map_append, List.map_map, List.map_cons]
        rw [blocks_eq (show r + 1 ≤ k by omega), List.tail_cons, List.append_assoc] at hleads
        exact hleads
    have hstart := hblocks k 0 (Nat.zero_add k)
    have hself : Function.update c k 0 = c := by rw [← hck, Function.update_eq_self]
    rw [hself, blocks_zero] at hstart
    exact hstart

/-! ### All permutations -/

/-- The positions in the order in which a permutation puts them. -/
def order (n : ℕ) (π : Perm ℕ) : List ℕ := (List.range' 1 n).map π

lemma order_perm {π : Perm ℕ} (h : Heap.Within n π) : (order n π).Perm (List.range' 1 n) := by
  have hnodup : (List.range' 1 n).Nodup := List.nodup_range'
  rw [order, List.perm_ext_iff_of_nodup (hnodup.map π.injective) hnodup]
  intro x
  have hIcc : ∀ y, y ∈ List.range' 1 n ↔ y ∈ Finset.Icc 1 n := by
    intro y
    rw [List.mem_range'_1, Finset.mem_Icc]
    omega
  simp only [List.mem_map, hIcc]
  constructor
  · rintro ⟨y, hy, rfl⟩
    exact h.apply_mem hy
  · intro hx
    exact ⟨π⁻¹ x, h.inv.apply_mem hx, π.apply_symm_apply x⟩

lemma order_injOn : ∀ π ∈ Heap.perms n, ∀ ρ ∈ Heap.perms n, order n π = order n ρ → π = ρ := by
  intro π hπ ρ hρ heq
  ext x
  by_cases hx : x ∈ Finset.Icc 1 n
  · have hmem : x ∈ List.range' 1 n := by
      rw [List.mem_range'_1]
      rw [Finset.mem_Icc] at hx
      omega
    exact List.map_inj_left.mp heq x hmem
  · rw [Heap.mem_perms.mp hπ x hx, Heap.mem_perms.mp hρ x hx]

/-- The orders of the positions, as they arise. -/
def orders (n : ℕ) : List (List ℕ) := (Heap.perms n).map (order n)

lemma nodup_orders : (orders n).Nodup := Heap.nodup_perms.map_on order_injOn

lemma length_orders : (orders n).length = n.factorial := by
  rw [orders, List.length_map, Heap.length_perms]

lemma mem_orders {l : List ℕ} : l ∈ orders n ↔ l.Perm (List.range' 1 n) := by
  have hsub : orders n ⊆ (List.range' 1 n).permutations := by
    intro l hl
    obtain ⟨π, hπ, rfl⟩ := List.mem_map.mp hl
    exact List.mem_permutations.mpr (order_perm (Heap.mem_perms.mp hπ))
  -- There are as many of them as there are permutations.
  have hperm : (orders n).Perm (List.range' 1 n).permutations := by
    apply (List.subperm_of_subset nodup_orders hsub).perm_of_length_le
    rw [List.length_permutations, List.length_range', length_orders]
  rw [hperm.mem_iff, List.mem_permutations]

omit [Inhabited V] in
lemma values_order (t : ℕ → V) (π : Perm ℕ) : shown n t π = (order n π).map t := by
  rw [shown, values_eq, order, List.map_map]
  rfl

lemma run_permutations {a : List V} (h : a ≠ []) :
    Run (permutationsRound a.length) (permutationsIter a)
      ((orders a.length).map fun l => l.map (table a)) := by
  have hlen : a.length ≠ 0 := fun hzero => h (List.length_eq_zero_iff.mp hzero)
  have hlevel := leads_level (n := a.length) (t := table a) (c := fun _ => 0) (Nat.le_refl _)
    fun _ _ => rfl
  have hend : Run (permutationsRound a.length)
      (looping (fun j => table a (Heap.last a.length j)) (fun _ => 0) a.length) [] := by
    apply Run.stop
    simp [looping, permutationsRound]
  have hrun := hlevel [] hend
  obtain ⟨l, hl⟩ := perms_eq_cons a.length
  have hall : (orders a.length).map (fun l => l.map (table a)) =
      values a.length (table a) :: (Heap.perms a.length).tail.map (shown a.length (table a)) := by
    rw [orders, List.map_map, hl, List.tail_cons, List.map_cons]
    refine congrArg₂ List.cons (values_order (table a) 1).symm ?_
    exact List.map_congr_left fun π _ => (values_order (table a) π).symm
  rw [hall, permutationsIter, if_neg hlen]
  rw [List.append_nil] at hrun
  exact .value rfl hrun

/-- The iterator yields every order of the positions once, those that the filter accepts in the same
order, and then nothing. -/
def Complete (a : List V) : Prop :=
  ∃ orders : List (List ℕ), orders.Nodup ∧
    (∀ l, l ∈ orders ↔ l.Perm (List.range' 1 a.length)) ∧ orders.length = a.length.factorial ∧
    ∀ filter, ∃ enough, ∀ fuel, enough ≤ fuel → ∀ m,
      calls (next (permutationsRound a.length) (keep filter) fuel) m (permutationsIter a) =
        some ((List.range m).map fun j =>
          ((orders.map fun l => l.map (table a)).filter (keep filter))[j]?)

/-- The iterator is complete for every list but the empty one, for which it yields nothing. -/
theorem permutations_complete (a : List V) :
    (a ≠ [] → Complete a) ∧ (a = [] → ∀ filter fuel m,
      calls (next (permutationsRound a.length) (keep filter) (fuel + 1)) m (permutationsIter a) =
        some (List.replicate m none)) := by
  constructor
  · intro h
    exact ⟨orders a.length, nodup_orders, fun _ => mem_orders, length_orders,
      fun filter => (run_permutations h).calls (keep filter)⟩
  · rintro rfl filter fuel m
    induction m with
    | zero => rfl
    | succ m ih =>
      rw [calls]
      show (calls _ m (permutationsIter ([] : List V))).map (none :: ·) = _
      rw [ih, List.replicate_succ]
      rfl

/-- Two values. -/
theorem permutations_complete_two : Complete [5, 7] :=
  (permutations_complete [5, 7]).1 (by simp)

/-- The empty list has one order, which is not yielded. -/
theorem not_complete_nil : ¬ Complete ([] : List Nat) := by
  rintro ⟨orders, -, hmem, -, hcalls⟩
  obtain ⟨enough, hcalls⟩ := hcalls none
  have hnil : [] ∈ orders := (hmem []).mpr (.refl _)
  have hone := hcalls (enough + 1) (Nat.le_succ _) 1
  rw [(permutations_complete ([] : List Nat)).2 rfl] at hone
  cases orders with
  | nil => cases hnil
  | cons l ls => simp [keep] at hone

end Verilua.Cross
