import Verilua.Queues.Calls

/-!
# `IDPool`

A stack of numbers that are free, and a table of those that are handed out. `Split` says that every
number of the range is in exactly one of them.
-/

namespace Verilua

open Fifo Shuffle Object

/-- `pool[1]` to `pool[size]` are the free numbers, `allocated` the numbers that are handed out. -/
structure IDPool where
  poolSize : Int
  startValue : Int
  endValue : Int
  shuffle : Bool
  pool : Nat → Option Int
  size : Int
  allocated : Int → Bool

namespace IDPool

/-- The argument of `_init` if it is a table. -/
structure Params where
  size : Option Int
  startValue : Option Int
  shuffle : Option Bool

/-- The arguments of `_init`. -/
inductive Arguments
  | number (params : Int) (shuffle : Option Bool)
  | table (params : Params)

/-- `for i = END_VALUE, START_VALUE, -1`, from an empty table and `index` 1. -/
def fill (startValue endValue : Int) : Nat → Option Int :=
  (List.range (endValue + 1 - startValue).toNat).foldl
    (fun pool k => Function.update pool (k + 1) (some (endValue - k))) fun _ => none

/-- `utils.shuffle` on a table of `n` values. -/
def shuffleTable (draws : Draws) (n : Nat) (pool : Nat → Option Int) : Nat → Option Int :=
  downTo2 (fun n t => exchange t n (draws.draw n)) n pool

/-- The table that `_init` and `reset` make. -/
def newPool (startValue endValue : Int) (shuffle : Bool) (draws : Draws) : Nat → Option Int :=
  let pool := fill startValue endValue
  if shuffle then shuffleTable draws (endValue + 1 - startValue).toNat pool else pool

/-- `_init`: `none` where `size` is missing. -/
def init (draws : Draws) : Arguments → Option IDPool
  | .table params =>
    match params.size with
    | none => none
    | some poolSize =>
      let startValue := params.startValue.getD 0
      let endValue := startValue + poolSize - 1
      let shuffle := params.shuffle.getD false
      some {
        poolSize := poolSize
        startValue := startValue
        endValue := endValue
        shuffle := shuffle
        pool := newPool startValue endValue shuffle draws
        size := poolSize
        allocated := fun _ => false }
  | .number params shuffle =>
    let endValue := params - 1
    let shuffle := shuffle.getD false
    some {
      poolSize := params
      startValue := 0
      endValue := endValue
      shuffle := shuffle
      pool := newPool 0 endValue shuffle draws
      size := params
      allocated := fun _ => false }

/-- `alloc`. Were there no number in `pool[size]`, it would have been taken off before the table of
the numbers that are handed out is written to. -/
def alloc (p : IDPool) : Returned Int × IDPool :=
  if 0 < p.size then
    let pool := Function.update p.pool p.size.toNat none
    let p' := { p with pool := pool, size := p.size - 1 }
    match p.pool p.size.toNat with
    | some id => (.int id, { p' with allocated := Function.update p.allocated id true })
    | none => (.raised "table index is nil", p')
  else (.raised "[IDPool] pool is empty", p)

def outOfRange (p : IDPool) (id : Int) : String :=
  "[IDPool] id is out of range: " ++ toString id ++ ", START_VALUE => " ++ toString p.startValue ++
    ", END_VALUE => " ++ toString p.endValue

def notAllocated (id : Int) : String :=
  "[IDPool] id is not allocated or already in the pool: " ++ toString id

def release (p : IDPool) (id : Int) : Returned Int × IDPool :=
  if id < p.startValue ∨ p.endValue < id then (.raised (p.outOfRange id), p)
  else if ¬ p.allocated id then (.raised (notAllocated id), p)
  else (.nothing, { p with
    size := p.size + 1
    pool := Function.update p.pool (p.size + 1).toNat (some id)
    allocated := Function.update p.allocated id false })

def reset (p : IDPool) (draws : Draws) : IDPool :=
  { p with
    size := p.poolSize
    pool := newPool p.startValue p.endValue p.shuffle draws
    allocated := fun _ => false }

inductive Call
  | alloc
  | release (id : Int)
  | reset (draws : Draws)

def call (p : IDPool) : Call → Returned Int × IDPool
  | .alloc => p.alloc
  | .release id => p.release id
  | .reset draws => (.nothing, p.reset draws)

/-- The numbers in the pool. -/
def free (p : IDPool) : List Int :=
  (slots p.pool (fun i => i + 1) p.size.toNat).filterMap id

/-- The pool holds the numbers `ids`, and these are the numbers of the range that are not handed out. -/
structure Split (p : IDPool) (ids : List Int) : Prop where
  size : p.endValue = p.startValue + p.poolSize - 1
  size_nonneg : p.startValue ≤ p.endValue → 0 ≤ p.size
  pool : slots p.pool (fun i => i + 1) p.size.toNat = ids.map some
  nodup : ids.Nodup
  mem : ∀ id, id ∈ ids ∨ p.allocated id = true ↔ p.startValue ≤ id ∧ id ≤ p.endValue
  disjoint : ∀ id ∈ ids, p.allocated id = false

variable {p p' : IDPool} {ids : List Int} {startValue endValue : Int} {i : Nat}

lemma Split.free (h : p.Split ids) : p.free = ids := by
  unfold IDPool.free
  rw [h.pool, List.filterMap_map]
  exact List.filterMap_some

/-! ### The table of a new pool -/

lemma fill_succ (h : i < (endValue + 1 - startValue).toNat) :
    fill startValue endValue (i + 1) = some (endValue - i) := by
  have hloop : ∀ m : Nat, ∀ i < m, (List.range m).foldl
      (fun pool (k : Nat) => Function.update pool (k + 1) (some (endValue - k))) (fun _ => none)
      (i + 1) = some (endValue - i) := by
    intro m
    induction m with
    | zero => exact fun i hi => absurd hi (Nat.not_lt_zero i)
    | succ m ih =>
      intro i hi
      rw [List.range_succ, List.foldl_append, List.foldl_cons, List.foldl_nil]
      by_cases heq : i = m
      · rw [heq, Function.update_self]
      · rw [Function.update_of_ne (fun hsucc => heq (Nat.succ.inj hsucc))]
        exact ih i (by omega)
  exact hloop _ i h

/-- The numbers from `END_VALUE` down to `START_VALUE`. -/
def descending (startValue endValue : Int) : List Int :=
  (List.range (endValue + 1 - startValue).toNat).map fun i : Nat => endValue - i

lemma mem_descending {id : Int} :
    id ∈ descending startValue endValue ↔ startValue ≤ id ∧ id ≤ endValue := by
  simp only [descending, List.mem_map, List.mem_range]
  constructor
  · rintro ⟨k, hk, rfl⟩
    omega
  · intro hid
    exact ⟨(endValue - id).toNat, by omega, by omega⟩

lemma nodup_descending : (descending startValue endValue).Nodup := by
  refine List.nodup_range.map fun a b hab => ?_
  have hab : endValue - a = endValue - b := hab
  omega

lemma slots_fill : slots (fill startValue endValue) (fun i => i + 1)
    (endValue + 1 - startValue).toNat = (descending startValue endValue).map some := by
  rw [descending, List.map_map]
  exact List.map_congr_left fun i hi => fill_succ (List.mem_range.mp hi)

lemma slots_newPool (shuffle : Bool) (draws : Draws) :
    ∃ ids : List Int, ids.Perm (descending startValue endValue) ∧
      slots (newPool startValue endValue shuffle draws) (fun i => i + 1)
        (endValue + 1 - startValue).toNat = ids.map some := by
  apply exists_perm_of_perm_map
  rw [← slots_fill]
  unfold newPool
  dsimp only
  split_ifs
  · exact (shuffled_downTo2 draws _ _).perm
  · exact .refl _

lemma split_new (hsize : p.endValue = p.startValue + p.poolSize - 1) (hfull : p.size = p.poolSize)
    {shuffle : Bool} {draws : Draws}
    (hpool : p.pool = newPool p.startValue p.endValue shuffle draws)
    (hnone : ∀ id, p.allocated id = false) : ∃ ids, p.Split ids := by
  obtain ⟨ids, hperm, hslots⟩ : ∃ ids : List Int, ids.Perm (descending p.startValue p.endValue) ∧
      slots (newPool p.startValue p.endValue shuffle draws) (fun i => i + 1)
        (p.endValue + 1 - p.startValue).toNat = ids.map some := slots_newPool shuffle draws
  have hn : p.endValue + 1 - p.startValue = p.size := by omega
  refine ⟨ids, hsize, by omega, ?_, hperm.nodup_iff.mpr nodup_descending, ?_, fun id _ => hnone id⟩
  · rw [hpool, ← hn]
    exact hslots
  · intro id
    rw [hnone, hperm.mem_iff, mem_descending]
    simp

lemma exists_split_init {draws : Draws} {arguments : Arguments}
    (h : init draws arguments = some p) : ∃ ids, p.Split ids := by
  cases arguments with
  | number params shuffle =>
    cases h
    exact split_new (by simp) rfl rfl fun _ => rfl
  | table params =>
    obtain ⟨size, start, shuffle⟩ := params
    cases size with
    | none => cases h
    | some size =>
      cases h
      exact split_new rfl rfl rfl fun _ => rfl

lemma Split.reset (h : p.Split ids) (draws : Draws) : ∃ ids', (p.reset draws).Split ids' :=
  split_new h.size rfl rfl fun _ => rfl

/-! ### The calls -/

lemma size_pos_iff (h : p.Split ids) : 0 < p.size ↔ ids ≠ [] := by
  have hlen : p.size.toNat = ids.length := by
    have := congrArg List.length h.pool
    rwa [length_slots, List.length_map] at this
  rw [← List.length_pos_iff]
  omega

lemma Split.alloc (h : p.Split ids) (hpos : 0 < p.size) :
    ∃ ids' id p', ids = ids' ++ [id] ∧ p.alloc = (.int id, p') ∧ p'.Split ids' ∧
      p'.allocated = Function.update p.allocated id true := by
  obtain ⟨n, hn⟩ : ∃ n : Nat, p.size = n + 1 := ⟨(p.size - 1).toNat, by omega⟩
  have hpool := h.pool
  have htoNat : p.size.toNat = n + 1 := by omega
  rw [htoNat, slots_succ] at hpool
  obtain ⟨ids', last, rfl, hrest, hlast⟩ := List.append_eq_map_iff.mp hpool
  obtain ⟨id, rfl⟩ : ∃ id, last = [id] := by
    cases last with
    | nil => cases hlast
    | cons id tail =>
      rw [List.map_cons, List.cons.injEq] at hlast
      exact ⟨id, by rw [List.map_eq_nil_iff.mp hlast.2]⟩
  have hid : p.pool p.size.toNat = some id := by
    rw [htoNat]
    exact (List.cons.inj hlast).1.symm
  obtain ⟨hnodup, -, hnot⟩ := List.nodup_append.mp h.nodup
  have hfresh : id ∉ ids' := fun hmem => hnot id hmem id (List.mem_singleton_self id) rfl
  refine ⟨ids', id, { p with
    size := p.size - 1
    pool := Function.update p.pool p.size.toNat none
    allocated := Function.update p.allocated id true }, rfl, ?_, ?_, rfl⟩
  · unfold IDPool.alloc
    rw [if_pos hpos, hid]
  · refine ⟨h.size, fun hle => ?_, ?_, hnodup, ?_, ?_⟩
    · show 0 ≤ p.size - 1
      omega
    · have hsize : (p.size - 1).toNat = n := by omega
      show slots (Function.update p.pool p.size.toNat none) _ (p.size - 1).toNat = _
      rw [hsize, htoNat, hrest]
      exact slots_congr fun i hi => Function.update_of_ne (by omega) _ _
    · intro x
      rw [← h.mem x]
      by_cases hx : x = id
      · simp [hx]
      · simp [hx]
    · intro x hx
      show Function.update p.allocated id true x = false
      have hne : x ≠ id := fun heq => hfresh (heq ▸ hx)
      rw [Function.update_of_ne hne]
      exact h.disjoint x (List.mem_append_left _ hx)

lemma Split.release {id : Int} (h : p.Split ids) (hid : p.allocated id = true) :
    ∃ p', p.release id = (.nothing, p') ∧ p'.Split (ids ++ [id]) := by
  obtain ⟨hstart, hend⟩ := (h.mem id).mp (.inr hid)
  have hrange : ¬ (id < p.startValue ∨ p.endValue < id) := by omega
  have hfresh : id ∉ ids := fun hmem => by
    rw [h.disjoint id hmem] at hid
    cases hid
  have hnonneg := h.size_nonneg (by omega)
  refine ⟨{ p with
    size := p.size + 1
    pool := Function.update p.pool (p.size + 1).toNat (some id)
    allocated := Function.update p.allocated id false }, ?_, h.size, fun _ => ?_, ?_, ?_, ?_, ?_⟩
  · unfold IDPool.release
    rw [if_neg hrange, if_neg (not_not.mpr hid)]
  · show 0 ≤ p.size + 1
    omega
  · have hsize : (p.size + 1).toNat = p.size.toNat + 1 := by omega
    show slots (Function.update p.pool (p.size + 1).toNat (some id)) _ (p.size + 1).toNat = _
    rw [hsize, List.map_append, ← h.pool]
    exact slots_push p.pool (fun i => i + 1) fun i hi => by omega
  · exact List.nodup_append.mpr ⟨h.nodup, List.nodup_singleton id, fun x hx y hy heq =>
      hfresh (by rwa [heq, List.mem_singleton.mp hy] at hx)⟩
  · intro x
    rw [← h.mem x]
    by_cases hx : x = id
    · simp [hx, hid]
    · simp [hx]
  · intro x hx
    show Function.update p.allocated id false x = false
    by_cases heq : x = id
    · rw [heq, Function.update_self]
    · rw [Function.update_of_ne heq]
      have hmem : x ∈ ids := (List.mem_append.mp hx).resolve_right fun hx' =>
        heq (List.mem_singleton.mp hx')
      exact h.disjoint x hmem

lemma alloc_empty (h : ¬ 0 < p.size) : p.alloc = (.raised "[IDPool] pool is empty", p) :=
  if_neg h

lemma release_outOfRange {id : Int} (h : id < p.startValue ∨ p.endValue < id) :
    p.release id = (.raised (p.outOfRange id), p) :=
  if_pos h

lemma release_notAllocated {id : Int} (h : ¬ (id < p.startValue ∨ p.endValue < id))
    (hid : p.allocated id = false) : p.release id = (.raised (notAllocated id), p) := by
  unfold IDPool.release
  rw [if_neg h, if_pos (by simp [hid])]

lemma Split.call (h : p.Split ids) (c : Call) : ∃ ids', (p.call c).2.Split ids' := by
  cases c with
  | alloc =>
    by_cases hpos : 0 < p.size
    · obtain ⟨ids', id, p', -, halloc, hsplit, -⟩ := h.alloc hpos
      rw [IDPool.call, halloc]
      exact ⟨ids', hsplit⟩
    · rw [IDPool.call, alloc_empty hpos]
      exact ⟨ids, h⟩
  | release id =>
    rw [IDPool.call]
    by_cases hrange : id < p.startValue ∨ p.endValue < id
    · rw [release_outOfRange hrange]
      exact ⟨ids, h⟩
    · cases hid : p.allocated id with
      | true =>
        obtain ⟨p', hrelease, hsplit⟩ := h.release hid
        rw [hrelease]
        exact ⟨_, hsplit⟩
      | false =>
        rw [release_notAllocated hrange hid]
        exact ⟨ids, h⟩
  | reset draws => exact h.reset draws

lemma range_call (p : IDPool) (c : Call) :
    (p.call c).2.startValue = p.startValue ∧ (p.call c).2.endValue = p.endValue := by
  cases c with
  | alloc =>
    unfold call alloc
    dsimp only
    split_ifs
    · split <;> exact ⟨rfl, rfl⟩
    · exact ⟨rfl, rfl⟩
  | release id =>
    unfold call release
    dsimp only
    split_ifs <;> exact ⟨rfl, rfl⟩
  | reset draws => exact ⟨rfl, rfl⟩

/-- Whatever is called on a new pool, every number of its range is either free or handed out, and
none is free twice. `alloc` hands out a number that was free, and raises if there is none. `release`
puts back a number that was handed out, and raises for any other. What raises leaves the pool as it
was. -/
theorem free_or_allocated {draws : Draws} {arguments : Arguments} {p₀ : IDPool}
    (h : init draws arguments = some p₀) (cs : List Call) :
    let p := after call p₀ cs
    p.free.Nodup ∧
      (∀ id, id ∈ p.free ∨ p.allocated id = true ↔ p₀.startValue ≤ id ∧ id ≤ p₀.endValue) ∧
      (∀ id ∈ p.free, p.allocated id = false) ∧
      (p.free = [] → p.call .alloc = (.raised "[IDPool] pool is empty", p)) ∧
      (p.free ≠ [] → ∃ id ∈ p.free, (p.call .alloc).1 = .int id ∧
        id ∉ (p.call .alloc).2.free ∧ (p.call .alloc).2.allocated id = true) ∧
      (∀ id, id < p₀.startValue ∨ p₀.endValue < id →
        p.call (.release id) = (.raised (p.outOfRange id), p)) ∧
      (∀ id, p₀.startValue ≤ id → id ≤ p₀.endValue → p.allocated id = false →
        p.call (.release id) = (.raised (notAllocated id), p)) ∧
      ∀ id, p.allocated id = true → (p.call (.release id)).1 = .nothing ∧
        id ∈ (p.call (.release id)).2.free := by
  intro p
  obtain ⟨ids, hsplit⟩ : ∃ ids, p.Split ids := by
    apply after_invariant (I := fun p : IDPool => ∃ ids, p.Split ids)
    · rintro p c ⟨ids, hids⟩
      exact hids.call c
    · exact exists_split_init h
  obtain ⟨hstart, hend⟩ : p.startValue = p₀.startValue ∧ p.endValue = p₀.endValue := by
    apply after_invariant (I := fun p : IDPool =>
      p.startValue = p₀.startValue ∧ p.endValue = p₀.endValue)
    · rintro p c ⟨hstart, hend⟩
      exact ⟨(range_call p c).1.trans hstart, (range_call p c).2.trans hend⟩
    · exact ⟨rfl, rfl⟩
  rw [hsplit.free, ← hstart, ← hend]
  refine ⟨hsplit.nodup, hsplit.mem, hsplit.disjoint, ?_, ?_, ?_, ?_, ?_⟩
  · intro hnil
    exact alloc_empty fun hpos => (size_pos_iff hsplit).mp hpos hnil
  · intro hne
    obtain ⟨ids', id, p', rfl, halloc, hsplit', hallocated⟩ :=
      hsplit.alloc ((size_pos_iff hsplit).mpr hne)
    have htaken : p'.allocated id = true := by rw [hallocated, Function.update_self]
    rw [call, halloc, hsplit'.free]
    refine ⟨id, by simp, rfl, fun hmem => ?_, htaken⟩
    rw [hsplit'.disjoint id hmem] at htaken
    cases htaken
  · exact fun id => release_outOfRange
  · intro id hle hge hid
    exact release_notAllocated (by omega) hid
  · intro id hid
    obtain ⟨p', hrelease, hsplit'⟩ := hsplit.release hid
    rw [call, hrelease, hsplit'.free]
    exact ⟨rfl, by simp⟩

/-- Two numbers from 10 on. -/
theorem free_or_allocated_two :
    let draws : Draws := ⟨fun _ => 1, fun _ _ => Nat.one_pos, fun _ h => h⟩
    ∃ p₀, init draws (.table ⟨some 2, some 10, some true⟩) = some p₀ ∧
      (after call p₀ [.alloc, .release 10, .alloc]).free.Nodup := by
  intro draws
  obtain ⟨p₀, hinit⟩ : ∃ p₀, init draws (.table ⟨some 2, some 10, some true⟩) = some p₀ := ⟨_, rfl⟩
  exact ⟨p₀, hinit, (free_or_allocated hinit [.alloc, .release 10, .alloc]).1⟩

end IDPool

end Verilua
