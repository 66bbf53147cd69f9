import Mathlib.Data.List.Range
import Mathlib.Logic.Function.Basic

/-!
# First in, first out

What a container with `push` and `pop` has to keep so that its values come out in the order in which
they went in. The values lie in the slots of a table; `slots` reads them in order.
-/

namespace Fifo

/-- The operations of a class of containers. `push` is `none` where the value is refused, `pop` where
there is none. -/
structure Methods (Q V : Type*) where
  push : Q → V → Option Q
  isEmpty : Q → Bool
  pop : Q → Option (V × Q)

variable {Q V : Type*}

/-- On the containers that satisfy `ok` the operations act on the list `contents`: at its end and at
its beginning. -/
structure Ordered (c : Methods Q V) (ok : Q → Prop) (contents : Q → List V) : Prop where
  push : ∀ {q q' v}, ok q → c.push q v = some q' → ok q' ∧ contents q' = contents q ++ [v]
  isEmpty : ∀ {q}, ok q → (c.isEmpty q = true ↔ contents q = [])
  pop : ∀ {q q' v}, ok q → c.pop q = some (v, q') → ok q' ∧ contents q = v :: contents q'
  popped : ∀ {q}, ok q → contents q ≠ [] → ∃ v q', c.pop q = some (v, q')

/-! ### Slots of a table -/

/-- The first `n` values of a table that is read at `pos 0`, `pos 1` and so on. -/
def slots (data : Nat → V) (pos : Nat → Nat) (n : Nat) : List V :=
  (List.range n).map fun i => data (pos i)

variable {data data' : Nat → V} {pos pos' : Nat → Nat} {n : Nat} {v : V}

@[simp] lemma slots_zero : slots data pos 0 = [] := rfl

@[simp] lemma slots_eq_nil : slots data pos n = [] ↔ n = 0 := by
  simp [slots]

@[simp] lemma length_slots : (slots data pos n).length = n := by
  simp [slots]

lemma slots_congr (h : ∀ i < n, data (pos i) = data' (pos' i)) :
    slots data pos n = slots data' pos' n :=
  List.map_congr_left fun i hi => h i (List.mem_range.mp hi)

lemma slots_push (data : Nat → V) (pos : Nat → Nat) (h : ∀ i < n, pos i ≠ pos n) :
    slots (Function.update data (pos n) v) pos (n + 1) = slots data pos n ++ [v] := by
  have hrest : slots (Function.update data (pos n) v) pos n = slots data pos n :=
    slots_congr fun i hi => Function.update_of_ne (h i hi) v data
  simp only [slots, List.range_succ, List.map_append, List.map_singleton,
    Function.update_self] at hrest ⊢
  rw [hrest]

lemma slots_succ : slots data pos (n + 1) = slots data pos n ++ [data (pos n)] := by
  simp [slots, List.range_succ]

lemma slots_pop : slots data pos (n + 1) = data (pos 0) :: slots data (fun i => pos (i + 1)) n := by
  simp only [slots, List.range_succ_eq_map, List.map_cons, List.map_map]
  rfl

end Fifo
