import Verilua.Lib.Fifo
import Mathlib.Tactic.Common

/-!
# `StaticQueue` and `Queue`

The two queue classes of `verilua/utils`. A value is any value of Lua, `default` standing for `nil`.
-/

namespace Verilua

open Fifo

variable {V : Type*} [Inhabited V]

/-! ### `StaticQueue` -/

/-- A ring of `size` slots, numbered from 1. -/
structure StaticQueue (V : Type*) where
  firstPtr : Nat
  lastPtr : Nat
  size : Nat
  count : Nat
  data : Nat → V

namespace StaticQueue

/-- `_init`, whose assertion is `size > 0`. -/
def init (size : Nat) : StaticQueue V where
  firstPtr := 1
  lastPtr := 0
  size := size
  count := 0
  data := fun _ => default

omit [Inhabited V]

def isEmpty (q : StaticQueue V) : Bool := q.count == 0

def isFull (q : StaticQueue V) : Bool := decide (q.size ≤ q.count)

/-- `push`: `none` where it returns 1. -/
def push (q : StaticQueue V) (value : V) : Option (StaticQueue V) :=
  if q.size ≤ q.count then none
  else
    let lastPtr := q.lastPtr % q.size + 1
    some { q with
      lastPtr := lastPtr
      count := q.count + 1
      data := Function.update q.data lastPtr value }

/-- `pop`: `none` where the assertion fails. -/
def pop (q : StaticQueue V) : Option (V × StaticQueue V) :=
  if q.count = 0 then none
  else some (q.data q.firstPtr, { q with
    firstPtr := q.firstPtr % q.size + 1
    count := q.count - 1 })

def methods : Methods (StaticQueue V) V := ⟨push, isEmpty, pop⟩

/-- `first_ptr` names a slot, and `last_ptr` is `count` slots behind it. -/
structure WellFormed (q : StaticQueue V) : Prop where
  first_pos : 0 < q.firstPtr
  first_le : q.firstPtr ≤ q.size
  count_le : q.count ≤ q.size
  last : q.lastPtr % q.size = (q.firstPtr - 1 + q.count) % q.size

/-- The values from `first_ptr` on, in order. -/
def contents (q : StaticQueue V) : List V :=
  slots q.data (fun i => (q.firstPtr - 1 + i) % q.size + 1) q.count

lemma wellFormed_init [Inhabited V] {size : Nat} (h : 0 < size) :
    (init size : StaticQueue V).WellFormed :=
  ⟨Nat.one_pos, h, Nat.zero_le _, rfl⟩

variable {q q' : StaticQueue V} {v : V}

lemma ring_ne {first size i n : Nat} (hi : i < n) (hn : n < size) :
    (first + i) % size + 1 ≠ (first + n) % size + 1 := by
  intro h
  have hmod : (first + n) % size = (first + i) % size := (Nat.succ.inj h).symm
  have hzero : (n - i) % size = 0 := by
    simpa [Nat.add_sub_add_left] using Nat.sub_mod_eq_zero_of_mod_eq hmod
  rw [Nat.mod_eq_of_lt (Nat.lt_of_le_of_lt (Nat.sub_le n i) hn)] at hzero
  omega

lemma WellFormed.push (h : q.WellFormed) (hp : q.push v = some q') :
    q'.WellFormed ∧ q'.contents = q.contents ++ [v] := by
  unfold StaticQueue.push at hp
  split_ifs at hp with hfull
  cases hp
  have hlt : q.count < q.size := Nat.lt_of_not_le hfull
  constructor
  · refine ⟨h.first_pos, h.first_le, hlt, ?_⟩
    show (q.lastPtr % q.size + 1) % q.size = (q.firstPtr - 1 + (q.count + 1)) % q.size
    rw [h.last, ← Nat.add_assoc, Nat.mod_add_mod]
  · have hslots := slots_push (v := v) q.data
      (fun i => (q.firstPtr - 1 + i) % q.size + 1) fun i hi => ring_ne hi hlt
    simpa only [contents, h.last] using hslots

lemma WellFormed.pop (h : q.WellFormed) (hp : q.pop = some (v, q')) :
    q'.WellFormed ∧ q.contents = v :: q'.contents := by
  unfold StaticQueue.pop at hp
  split_ifs at hp with hempty
  cases hp
  obtain ⟨n, hn⟩ := Nat.exists_eq_succ_of_ne_zero hempty
  obtain ⟨k, hk⟩ := Nat.exists_eq_succ_of_ne_zero (Nat.ne_of_gt h.first_pos)
  have hle := h.count_le
  have hmod : ∀ i, (q.firstPtr % q.size + i) % q.size = (k + (i + 1)) % q.size := by
    intro i
    rw [Nat.mod_add_mod, hk]
    congr 1
    omega
  constructor
  · have hless : q.count - 1 ≤ q.size := Nat.le_trans (Nat.sub_le _ 1) h.count_le
    refine ⟨Nat.succ_pos _, Nat.mod_lt _ (by omega), hless, ?_⟩
    show q.lastPtr % q.size = (q.firstPtr % q.size + 1 - 1 + (q.count - 1)) % q.size
    rw [h.last, Nat.add_sub_cancel, hmod, hk, hn]
    congr 1
  · have hfirst : (q.firstPtr - 1 + 0) % q.size + 1 = q.firstPtr := by
      rw [Nat.add_zero, Nat.mod_eq_of_lt (by have := h.first_le; omega)]
      omega
    unfold contents
    rw [hn, Nat.succ_eq_add_one, slots_pop, hfirst]
    refine congrArg _ (slots_congr fun i _ => ?_)
    show q.data _ = q.data _
    rw [Nat.add_sub_cancel, hmod, hk]
    rfl

theorem ordered : Ordered (methods (V := V)) WellFormed contents where
  push := WellFormed.push
  isEmpty _ := by simp [methods, isEmpty, contents]
  pop := WellFormed.pop
  popped {q} _ hne := by
    have hcount : q.count ≠ 0 := by simpa [contents] using hne
    exact ⟨_, _, if_neg hcount⟩

end StaticQueue

/-! ### `Queue` -/

/-- The values from `first_ptr` to `last_ptr`. `leakCheckCnt` is what `do_leak_check` counts. -/
structure Queue (V : Type*) where
  data : Nat → V
  firstPtr : Nat
  lastPtr : Nat
  leakCheck : Bool
  leakCheckCnt : Nat
  compactThreshold : Int

namespace Queue

/-- `_init`, from the options `leak_check` and `compact_threshold`. -/
def init (leakCheck : Bool) (compactThreshold : Int) : Queue V where
  data := fun _ => default
  firstPtr := 1
  lastPtr := 0
  leakCheck := leakCheck
  leakCheckCnt := 0
  compactThreshold := compactThreshold

omit [Inhabited V] in
def isEmpty (q : Queue V) : Bool := decide (q.lastPtr < q.firstPtr)

omit [Inhabited V] in
def push (q : Queue V) (value : V) : Queue V :=
  let last := q.lastPtr + 1
  { q with lastPtr := last, data := Function.update q.data last value }

omit [Inhabited V] in
/-- The first loop of `_compact`: `data[i] = data[first_ptr + i - 1]` for `i` from 1 to `size`. -/
def moveDown (data : Nat → V) (firstPtr size : Nat) : Nat → V :=
  (List.range size).foldl (fun d i => Function.update d (i + 1) (d (firstPtr + i))) data

/-- The second loop of `_compact`: `data[i] = nil` for `i` from `size + 1` to `last_ptr`. -/
def clearOld (data : Nat → V) (size lastPtr : Nat) : Nat → V :=
  (List.range' (size + 1) (lastPtr - size)).foldl (fun d i => Function.update d i default) data

def compact (q : Queue V) : Queue V :=
  let size := q.lastPtr + 1 - q.firstPtr
  if 0 < size then { q with
    data := clearOld (moveDown q.data q.firstPtr size) size q.lastPtr
    firstPtr := 1
    lastPtr := size }
  else { q with data := fun _ => default, firstPtr := 1, lastPtr := 0 }

/-- `pop` as `_init` sets it: `none` where the assertion fails. -/
def originalPop (q : Queue V) : Option (V × Queue V) :=
  if q.lastPtr < q.firstPtr then none
  else
    let value := q.data q.firstPtr
    let q' := { q with firstPtr := q.firstPtr + 1 }
    some (value, if (q.firstPtr : Int) % q.compactThreshold = 0 then q'.compact else q')

/-- `pop`, with the reset that `_init` wraps around it if `leak_check` is set. -/
def pop (q : Queue V) : Option (V × Queue V) :=
  if q.leakCheck then originalPop { q with leakCheckCnt := 0 } else q.originalPop

def methods : Methods (Queue V) V := ⟨fun q v => some (q.push v), isEmpty, pop⟩

omit [Inhabited V] in
/-- `last_ptr` is at most one slot before `first_ptr`. -/
structure WellFormed (q : Queue V) : Prop where
  first_pos : 0 < q.firstPtr
  first_le : q.firstPtr ≤ q.lastPtr + 1

omit [Inhabited V] in
def contents (q : Queue V) : List V :=
  slots q.data (fun i => q.firstPtr + i) (q.lastPtr + 1 - q.firstPtr)

lemma wellFormed_init (leakCheck : Bool) (compactThreshold : Int) :
    (init leakCheck compactThreshold : Queue V).WellFormed :=
  ⟨Nat.one_pos, Nat.le_refl _⟩

variable {q q' : Queue V} {v : V}

omit [Inhabited V] in
lemma WellFormed.push (h : q.WellFormed) (v : V) :
    (q.push v).WellFormed ∧ (q.push v).contents = q.contents ++ [v] := by
  have hle := h.first_le
  refine ⟨⟨h.first_pos, Nat.le_succ_of_le hle⟩, ?_⟩
  have hlast : q.firstPtr + (q.lastPtr + 1 - q.firstPtr) = q.lastPtr + 1 := by omega
  have hslots := slots_push (v := v) (n := q.lastPtr + 1 - q.firstPtr) q.data
    (fun i => q.firstPtr + i) fun i hi => by omega
  rw [hlast] at hslots
  show slots _ _ (q.lastPtr + 1 + 1 - q.firstPtr) = _
  rwa [Nat.succ_sub hle]

omit [Inhabited V] in
/-- No slot is overwritten before it is read, since every value moves to a slot before its own. -/
lemma moveDown_eq (data : Nat → V) {firstPtr : Nat} (h : 0 < firstPtr) (size : Nat) :
    (∀ i < size, moveDown data firstPtr size (i + 1) = data (firstPtr + i)) ∧
      ∀ j, size < j → moveDown data firstPtr size j = data j := by
  induction size with
  | zero => exact ⟨fun i hi => absurd hi (Nat.not_lt_zero i), fun _ _ => rfl⟩
  | succ n ih =>
    have hstep : moveDown data firstPtr (n + 1) =
        Function.update (moveDown data firstPtr n) (n + 1) (data (firstPtr + n)) := by
      unfold moveDown at ih ⊢
      rw [List.range_succ, List.foldl_append, List.foldl_cons, List.foldl_nil, ih.2 _ (by omega)]
    rw [hstep]
    constructor
    · intro i hi
      by_cases heq : i = n
      · subst heq
        exact Function.update_self ..
      · rw [Function.update_of_ne (by omega)]
        exact ih.1 i (by omega)
    · intro j hj
      rw [Function.update_of_ne (by omega)]
      exact ih.2 j (by omega)

lemma clearOld_eq (data : Nat → V) {size lastPtr j : Nat} (hj : j ≤ size) :
    clearOld data size lastPtr j = data j := by
  have hfold : ∀ (l : List Nat) (d : Nat → V), (∀ i ∈ l, i ≠ j) →
      l.foldl (fun d i => Function.update d i default) d j = d j := by
    intro l
    induction l with
    | nil => exact fun _ _ => rfl
    | cons i l ih =>
      intro d hl
      rw [List.foldl_cons, ih _ fun i' hi' => hl i' (List.mem_cons_of_mem _ hi')]
      exact Function.update_of_ne (hl i List.mem_cons_self).symm _ _
  refine hfold _ data fun i hi => ?_
  have := List.mem_range'_1.mp hi
  omega

lemma WellFormed.compact (h : q.WellFormed) :
    q.compact.WellFormed ∧ q.compact.contents = q.contents := by
  unfold Queue.compact
  dsimp only
  split_ifs with hsize
  · refine ⟨⟨Nat.one_pos, Nat.le_add_left 1 _⟩, slots_congr fun i hi => ?_⟩
    have hi' : i < q.lastPtr + 1 - q.firstPtr := hi
    show clearOld _ _ _ (1 + i) = _
    rw [clearOld_eq _ (by omega), Nat.add_comm 1 i]
    exact (moveDown_eq q.data h.first_pos _).1 i hi'
  · refine ⟨⟨Nat.one_pos, Nat.le_refl _⟩, ?_⟩
    unfold contents
    rw [Nat.eq_zero_of_not_pos hsize]
    rfl

omit [Inhabited V] in
lemma WellFormed.next (h : q.lastPtr + 1 ≠ q.firstPtr) (hq : q.WellFormed) :
    WellFormed { q with firstPtr := q.firstPtr + 1 } ∧
      q.contents = q.data q.firstPtr :: contents { q with firstPtr := q.firstPtr + 1 } := by
  have hle := hq.first_le
  refine ⟨⟨Nat.succ_pos _, by show q.firstPtr + 1 ≤ q.lastPtr + 1; omega⟩, ?_⟩
  unfold contents
  have hn : q.lastPtr + 1 - q.firstPtr = q.lastPtr + 1 - (q.firstPtr + 1) + 1 := by omega
  rw [hn, slots_pop]
  refine congrArg _ (slots_congr fun i _ => ?_)
  rw [Nat.add_assoc, Nat.add_comm 1]

lemma WellFormed.originalPop (h : q.WellFormed) (hp : q.originalPop = some (v, q')) :
    q'.WellFormed ∧ q.contents = v :: q'.contents := by
  unfold Queue.originalPop at hp
  split_ifs at hp with hempty hcompact
  · cases hp
    obtain ⟨hmoved, hcontents⟩ := h.next (by omega)
    rw [hmoved.compact.2]
    exact ⟨hmoved.compact.1, hcontents⟩
  · cases hp
    exact h.next (by omega)

lemma WellFormed.pop (h : q.WellFormed) (hp : q.pop = some (v, q')) :
    q'.WellFormed ∧ q.contents = v :: q'.contents := by
  unfold Queue.pop at hp
  split_ifs at hp
  · have hreset : WellFormed { q with leakCheckCnt := 0 } := ⟨h.first_pos, h.first_le⟩
    exact hreset.originalPop hp
  · exact h.originalPop hp

theorem ordered : Ordered (methods (V := V)) WellFormed contents where
  push {q q' v} h hp := by
    cases hp
    exact h.push v
  isEmpty {q} h := by
    have := h.first_le
    simp only [methods, isEmpty, contents, decide_eq_true_eq, slots_eq_nil]
    omega
  pop := WellFormed.pop
  popped {q} _ hne := by
    have hle : ¬ q.lastPtr < q.firstPtr := fun hlt => hne (by
      simp only [contents, slots_eq_nil]
      omega)
    unfold methods Queue.pop originalPop
    dsimp only
    split_ifs <;> exact ⟨_, _, rfl⟩

end Queue

end Verilua
