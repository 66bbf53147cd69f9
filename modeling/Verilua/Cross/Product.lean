import Verilua.Cross.Combinations

/-!
# `product_iter` and `product_call`

The iterator goes on like an odometer, the last position first. Its values in order are `positions`,
read through the lists.
-/

namespace Verilua.Cross

open Fifo Iterator

variable {V : Type*} [Inhabited V]

/-! ### The iterator -/

/-- The variables of the iterator. -/
structure Odometer where
  indices : ℕ → ℕ
  done : Bool

/-- The assertions on the sizes of the lists, from list number `i` on. -/
def checkSizes : ℕ → List ℕ → Option String
  | _, [] => none
  | i, size :: sizes =>
    if size = 0 then some ("product_iter: list " ++ toString i ++ " is empty")
    else checkSizes (i + 1) sizes

omit [Inhabited V] in
/-- The iterator for some lists: `none` is the one that returns `nil` at once. -/
def productIter (lists : List (List V)) : Except String (Option Odometer) :=
  if lists.length = 0 then .ok none
  else
    match checkSizes 1 (lists.map List.length) with
    | some message => .error message
    | none => .ok (some { indices := table (List.replicate lists.length 1), done := false })

/-- What the loop over the positions does at position `i`, with the indices and `carry`. -/
def carryStep (sizes : ℕ → ℕ) (i : ℕ) (s : (ℕ → ℕ) × Bool) : (ℕ → ℕ) × Bool :=
  if s.2 then
    let indices := Function.update s.1 i (s.1 i + 1)
    if sizes i < indices i then (Function.update indices i 1, true) else (indices, false)
  else s

/-- One round of the loop. The positions are gone through from the last. -/
def productRound (lists : List (List V)) :
    Option Odometer → Option (Option (List V) × Option Odometer)
  | none => none
  | some s =>
    if s.done then none
    else
      let n := lists.length
      let combo := values n fun i => table (table lists i) (s.indices i)
      let (indices, carry) :=
        (List.range' 1 n).foldr (carryStep fun i => (table lists i).length) (s.indices, true)
      some (some combo, some { indices := indices, done := carry })

/-! ### Positions in order -/

/-- One index for each list, in lexicographic order. -/
def positions : List ℕ → List (List ℕ)
  | [] => [[]]
  | size :: sizes => (List.range' 1 size).flatMap fun i => (positions sizes).map (i :: ·)

/-- The indices that follow. -/
def succ : List ℕ → List ℕ → Option (List ℕ)
  | size :: sizes, i :: is =>
    match succ sizes is with
    | some js => some (i :: js)
    | none => if i + 1 ≤ size then some ((i + 1) :: sizes.map fun _ => 1) else none
  | _, _ => none

variable {sizes : List ℕ} {size i : ℕ} {p q : List ℕ}

lemma mem_positions : p ∈ positions sizes ↔ List.Forall₂ (fun i size => 1 ≤ i ∧ i ≤ size) p sizes := by
  induction sizes generalizing p with
  | nil => simp [positions]
  | cons size sizes ih =>
    simp only [positions, List.mem_flatMap, List.mem_map, ih, List.mem_range'_1]
    constructor
    · rintro ⟨i, hi, p, hp, rfl⟩
      exact .cons ⟨hi.1, by omega⟩ hp
    · intro h
      obtain ⟨i, p, hi, hp, rfl⟩ := List.forall₂_cons_right_iff.mp h
      exact ⟨i, ⟨hi.1, by omega⟩, p, hp, rfl⟩

lemma length_succ (h : succ sizes p = some q) (hp : p.length = sizes.length) :
    q.length = sizes.length := by
  induction sizes generalizing p q with
  | nil => cases p <;> cases h
  | cons size sizes ih =>
    cases p with
    | nil => cases h
    | cons i is =>
      rw [succ] at h
      cases hs : succ sizes is with
      | some js =>
        rw [hs] at h
        cases h
        simpa using ih hs (by simpa using hp)
      | none =>
        rw [hs] at h
        dsimp only at h
        split_ifs at h
        cases h
        simp

lemma lt_of_succ (h : succ sizes p = some q) : p < q := by
  induction sizes generalizing p q with
  | nil => cases p <;> cases h
  | cons size sizes ih =>
    cases p with
    | nil => cases h
    | cons i is =>
      rw [succ] at h
      cases hs : succ sizes is with
      | some js =>
        rw [hs] at h
        cases h
        exact List.cons_lt_cons_iff.mpr (.inr ⟨rfl, ih hs⟩)
      | none =>
        rw [hs] at h
        dsimp only at h
        split_ifs at h
        cases h
        exact List.cons_lt_cons_iff.mpr (.inl (Nat.lt_succ_self i))

lemma traverses_positions (h : ∀ size ∈ sizes, size ≠ 0) :
    Traverses (succ sizes) (sizes.map fun _ => 1) (positions sizes) none := by
  induction sizes with
  | nil => exact .last rfl
  | cons size sizes ih =>
    have hrest := ih fun size hsize => h size (List.mem_cons_of_mem _ hsize)
    have hsize : size ≠ 0 := h size List.mem_cons_self
    have hcons : ∀ i x y, succ sizes x = some y → succ (size :: sizes) (i :: x) = some (i :: y) := by
      intro i x y hxy
      rw [succ, hxy]
    -- The first index goes up when the others have been through.
    have hfrom : ∀ d i, i + d = size → Traverses (succ (size :: sizes))
        (i :: sizes.map fun _ => 1)
        ((List.range' i (d + 1)).flatMap fun i => (positions sizes).map (i :: ·)) none := by
      intro d
      induction d with
      | zero =>
        intro i hi
        rw [List.range'_one, List.flatMap_singleton]
        refine hrest.map (hcons i) fun x hx => ?_
        rw [succ, hx]
        exact if_neg (by omega)
      | succ d ihd =>
        intro i hi
        rw [List.range'_succ, List.flatMap_cons]
        refine Traverses.append ?_ (ihd (i + 1) (by omega))
        refine hrest.map (hcons i) fun x hx => ?_
        rw [succ, hx]
        exact if_pos (by omega)
    obtain ⟨d, rfl⟩ : ∃ d, size = d + 1 := ⟨size - 1, by omega⟩
    exact hfrom d 1 (Nat.add_comm 1 d)

/-! ### The loop over the positions -/

/-- Going through the positions `k` to `k + m - 1` from the last takes their indices to those that
follow. -/
lemma foldr_carryStep (bound : ℕ → ℕ) (indices : ℕ → ℕ) (m k : ℕ) :
    let s := (List.range' k m).foldr (carryStep bound) (indices, true)
    (∀ j ∉ List.range' k m, s.1 j = indices j) ∧
      (∀ q, succ ((List.range' k m).map bound) ((List.range' k m).map indices) = some q →
        s.2 = false ∧ (List.range' k m).map s.1 = q) ∧
      (succ ((List.range' k m).map bound) ((List.range' k m).map indices) = none →
        s.2 = true ∧ (List.range' k m).map s.1 = (List.range' k m).map fun _ => 1) := by
  induction m generalizing k with
  | zero => exact ⟨fun _ _ => rfl, nofun, fun _ => ⟨rfl, rfl⟩⟩
  | succ m ih =>
    obtain ⟨hrest, hsome, hnone⟩ := ih (k + 1)
    have hk : k ∉ List.range' (k + 1) m := fun h => by
      have := List.mem_range'_1.mp h
      omega
    have hne : ∀ j ∈ List.range' (k + 1) m, j ≠ k := fun j hj heq => hk (heq ▸ hj)
    simp only [List.range'_succ, List.foldr_cons, List.map_cons, List.mem_cons, not_or]
    generalize (List.range' (k + 1) m).foldr (carryStep bound) (indices, true) = s
      at hrest hsome hnone
    obtain ⟨ind, carry⟩ := s
    dsimp only at hrest hsome hnone
    have hindk : ind k = indices k := hrest k hk
    rw [succ]
    cases hs : succ ((List.range' (k + 1) m).map bound) ((List.range' (k + 1) m).map indices) with
    | some q =>
      obtain ⟨rfl, hq⟩ := hsome q hs
      refine ⟨fun j hj => hrest j hj.2, ?_, nofun⟩
      rintro _ ⟨⟩
      exact ⟨rfl, congrArg₂ List.cons hindk hq⟩
    | none =>
      obtain ⟨rfl, hones⟩ := hnone hs
      have hupdate : ∀ v, (List.range' (k + 1) m).map (Function.update ind k v) =
          (List.range' (k + 1) m).map fun _ => 1 := by
        intro v
        rw [← hones]
        exact List.map_congr_left fun j hj => Function.update_of_ne (hne j hj) _ _
      dsimp only [carryStep]
      rw [if_pos rfl, Function.update_self, hindk]
      by_cases hle : indices k + 1 ≤ bound k
      · rw [if_neg (Nat.not_lt.mpr hle), if_pos hle]
        refine ⟨fun j hj => ?_, ?_, nofun⟩
        · exact (Function.update_of_ne hj.1 _ _).trans (hrest j hj.2)
        · rintro _ ⟨⟩
          refine ⟨rfl, congrArg₂ List.cons (Function.update_self ..) ?_⟩
          rw [hupdate, List.map_map]
          rfl
      · rw [if_pos (Nat.lt_of_not_le hle), if_neg hle]
        refine ⟨fun j hj => ?_, nofun, fun _ => ⟨rfl, ?_⟩⟩
        · show Function.update (Function.update ind k (indices k + 1)) k 1 j = indices j
          rw [Function.update_of_ne hj.1, Function.update_of_ne hj.1, hrest j hj.2]
        · rw [Function.update_idem]
          exact congrArg₂ List.cons (Function.update_self ..) (hupdate 1)

/-- The tuple at some indices. -/
def pick (lists : List (List V)) (p : List ℕ) : List V :=
  values lists.length fun i => table (table lists i) (table p i)

/-- The iterator before it yields the tuple at some indices. -/
def turning (p : List ℕ) : Option Odometer := some { indices := table p, done := false }

variable {lists : List (List V)}

omit [Inhabited V] in
lemma map_bound [Inhabited (List V)] :
    (List.range' 1 lists.length).map (fun i => (table lists i).length) =
      lists.map List.length := by
  rw [← values_eq]
  conv_rhs => rw [← values_table (l := lists)]
  rw [values_eq, values_eq, List.map_map]
  rfl

lemma map_table {l : List V} {n : ℕ} (h : l.length = n) : (List.range' 1 n).map (table l) = l := by
  rw [← values_eq, ← h, values_table]

lemma table_of_values {t : ℕ → ℕ} {n : ℕ} (h : ∀ j ∉ List.range' 1 n, t j = 0)
    (hp : (List.range' 1 n).map t = p) : t = table p := by
  rw [← hp, ← values_eq]
  refine (table_values fun j hj => h j fun hmem => ?_).symm
  have := List.mem_range'_1.mp hmem
  omega

lemma round_turning (hp : p.length = lists.length) :
    (∀ q, succ (lists.map List.length) p = some q →
      productRound lists (turning p) = some (some (pick lists p), turning q)) ∧
    (succ (lists.map List.length) p = none →
      ∃ t, productRound lists (turning p) = some (some (pick lists p), t) ∧
        productRound lists t = none) := by
  obtain ⟨hrest, hsome, hnone⟩ :=
    foldr_carryStep (fun i => (table lists i).length) (table p) lists.length 1
  rw [map_bound, map_table hp] at hsome hnone
  constructor
  · intro q hq
    obtain ⟨hcarry, hindices⟩ := hsome q hq
    have hoff : ∀ j ∉ List.range' 1 lists.length, ((List.range' 1 lists.length).foldr
        (carryStep fun i => (table lists i).length) (table p, true)).1 j = 0 := by
      intro j hj
      rw [hrest j hj]
      cases j with
      | zero => rfl
      | succ j =>
        refine table_of_lt ?_
        rw [List.mem_range'_1] at hj
        omega
    have htable := table_of_values hoff hindices
    simp only [turning, productRound, Bool.false_eq_true, if_false, hcarry, htable, pick]
  · intro hlast
    obtain ⟨hcarry, -⟩ := hnone hlast
    refine ⟨_, rfl, ?_⟩
    simp only [productRound, hcarry, if_true]

lemma run_product (h : lists ≠ []) (hne : ∀ l ∈ lists, l ≠ []) :
    ∃ start, productIter lists = .ok start ∧
      Run (productRound lists) start ((positions (lists.map List.length)).map (pick lists)) := by
  have hsizes : ∀ size ∈ lists.map List.length, size ≠ 0 := by
    intro size hsize
    obtain ⟨l, hl, rfl⟩ := List.mem_map.mp hsize
    exact fun hzero => hne l hl (List.length_eq_zero_iff.mp hzero)
  have hcheck : ∀ sizes : List ℕ, (∀ size ∈ sizes, size ≠ 0) → ∀ i, checkSizes i sizes = none := by
    intro sizes
    induction sizes with
    | nil => exact fun _ _ => rfl
    | cons size sizes ih =>
      intro hsizes i
      rw [checkSizes, if_neg (hsizes size List.mem_cons_self)]
      exact ih (fun size hsize => hsizes size (List.mem_cons_of_mem _ hsize)) (i + 1)
  have hlength : lists.length ≠ 0 := fun hzero => h (List.length_eq_zero_iff.mp hzero)
  have hones : List.replicate lists.length 1 = (lists.map List.length).map fun _ => 1 := by
    refine (List.eq_replicate_iff.mpr ⟨by simp, fun b hb => ?_⟩).symm
    obtain ⟨_, _, rfl⟩ := List.mem_map.mp hb
    rfl
  refine ⟨turning ((lists.map List.length).map fun _ => 1), ?_, ?_⟩
  · rw [productIter, if_neg hlength, hcheck _ hsizes, hones]
    rfl
  · refine (traverses_positions hsizes).run (I := fun p => p.length = lists.length) (by simp) ?_ ?_ ?_
    · intro p q hp hq
      have hlen := length_succ hq (by rwa [List.length_map])
      rwa [List.length_map] at hlen
    · exact fun p q hp hq => (round_turning hp).1 q hq
    · exact fun p hp hq => (round_turning hp).2 hq

/-! ### `product_call` -/

section Call

variable {F : Type*}

/-- A value of Lua with functions `F`. A table has items and named fields. -/
inductive Value (F : Type*)
  | nil
  | func (f : F)
  | other (type : String)
  | table (items : List (Value F)) (fields : String → Value F)

namespace Value

instance : Inhabited (Value F) := ⟨.nil⟩

def type : Value F → String
  | nil => "nil"
  | func _ => "function"
  | other type => type
  | table _ _ => "table"

/-- The values at `1` to `#v`. -/
def items : Value F → List (Value F)
  | table items _ => items
  | _ => []

def field (v : Value F) (name : String) : Value F :=
  match v with
  | table _ fields => fields name
  | _ => nil

end Value

inductive BlockType
  | singleFunc
  | seqFuncs
  | singleFuncWithArgs
  | singleFuncWithMultiArgs

/-- `func_table[dim][idx]` in a message. -/
def entryName (dim idx : ℕ) : String :=
  "product_call: func_table[" ++ toString dim ++ "][" ++ toString idx ++ "]"

/-- The assertion that a value has a type. -/
def expectType (v : Value F) (type message : String) : Except String Unit :=
  if v.type = type then .ok () else .error message

/-- The loop over the items of `multi_args` from number `i` on. -/
def checkMultiArgs (dim idx : ℕ) : ℕ → List (Value F) → Except String Unit
  | _, [] => .ok ()
  | i, arg :: args => do
    expectType arg "table"
      (entryName dim idx ++ ".multi_args[" ++ toString i ++ "] must be a table")
    checkMultiArgs dim idx (i + 1) args

/-- The loop over the items of a sequence of functions from number `i` on. -/
def checkSeq (dim idx : ℕ) : ℕ → List (Value F) → Except String Unit
  | _, [] => .ok ()
  | i, v :: vs => do
    expectType v "function"
      (entryName dim idx ++ "[" ++ toString i ++ "] must be a function, got " ++ v.type)
    checkSeq dim idx (i + 1) vs

/-- `classify_product_call_block`. -/
def classify (entry : Value F) (dim idx : ℕ) : Except String BlockType := do
  if entry.type = "function" then return .singleFunc
  if entry.type ≠ "table" then
    throw (entryName dim idx ++ " must be a function or a table, got " ++ entry.type)
  if entry.items.length = 0 then
    if (entry.field "args").type ≠ "nil" then
      expectType (entry.field "func") "function" (entryName dim idx ++ ".func must be a function")
      expectType (entry.field "args") "table" (entryName dim idx ++ ".args must be a table")
      return .singleFuncWithArgs
    if (entry.field "multi_args").type ≠ "nil" then
      let args := entry.field "multi_args"
      expectType (entry.field "func") "function" (entryName dim idx ++ ".func must be a function")
      expectType args "table" (entryName dim idx ++ ".multi_args must be a table")
      expectType (table args.items 1) "table"
        (entryName dim idx ++ ".multi_args[1] must be a table")
      checkMultiArgs dim idx 2 (args.items.drop 1)
      return .singleFuncWithMultiArgs
    throw (entryName dim idx ++ " must have \x60args\x60 or \x60multi_args\x60 field")
  checkSeq dim idx 1 entry.items
  return .seqFuncs

/-- The blocks of a dimension from number `idx` on. -/
def classifyAll (dim : ℕ) : ℕ → List (Value F) → Except String (List BlockType)
  | _, [] => .ok []
  | idx, block :: blocks => do
    let type ← classify block dim idx
    let types ← classifyAll dim (idx + 1) blocks
    return type :: types

/-- `build_product_call_plan` from dimension `dim` on: the types of the blocks, or `none` where a
dimension has no block. -/
def planFrom : ℕ → List (Value F) → Except String (Option (List (List BlockType)))
  | _, [] => .ok (some [])
  | dim, blocks :: rest => do
    expectType blocks "table" ("product_call: func_table[" ++ toString dim ++ "] must be a table")
    if blocks.items.length = 0 then return none
    let types ← classifyAll dim 1 blocks.items
    match ← planFrom (dim + 1) rest with
    | none => return none
    | some plan => return some (types :: plan)

/-- `build_product_call_plan`: the index domains and the types of the blocks. -/
def plan (funcTable : List (Value F)) :
    Except String (Option (List (List ℕ) × List (List BlockType))) := do
  if funcTable.length = 0 then return none
  match ← planFrom 1 funcTable with
  | none => return none
  | some types => return some (types.map fun types => List.range' 1 types.length, types)

/-- The functions that were called, with their arguments, and the error that ended it. -/
abbrev Trace (F : Type*) := List (F × List (Value F)) × Option String

namespace Trace

def done : Trace F := ([], none)

/-- What comes second is done if the first has not raised. -/
def andThen (a b : Trace F) : Trace F :=
  if a.2 = none then (a.1 ++ b.1, b.2) else a

def seq (l : List (Trace F)) : Trace F := l.foldr andThen done

end Trace

/-- A call of a value. -/
def invoke (v : Value F) (args : List (Value F)) : Trace F :=
  match v with
  | .func f => ([(f, args)], none)
  | _ => ([], some ("attempt to call a " ++ v.type ++ " value"))

/-- `call_product_call_func`. -/
def callFunc (func args : Value F) : Trace F :=
  let nargs := args.items.length
  if 8 < nargs then
    ([], some ("product_call: args length " ++ toString nargs ++ " exceeds supported maximum 8"))
  else invoke func args.items

/-- `before` or `after`, if it is a function. -/
def callIfFunc (v : Value F) : Trace F :=
  if v.type = "function" then invoke v [] else .done

/-- A call of `func` between `before` and `after`. -/
def callAround (block args : Value F) : Trace F :=
  .seq [callIfFunc (block.field "before"), callFunc (block.field "func") args,
    callIfFunc (block.field "after")]

/-- `execute_product_call_block`. -/
def execute (block : Value F) : BlockType → Trace F
  | .singleFunc => invoke block []
  | .seqFuncs => .seq (block.items.map fun f => invoke f [])
  | .singleFuncWithArgs => callAround block (block.field "args")
  | .singleFuncWithMultiArgs =>
    .seq ((block.field "multi_args").items.map fun args => callAround block args)

instance : Inhabited BlockType := ⟨.singleFunc⟩

/-- What `product_call` does for a combination of indices, from dimension `dim` on. -/
def visit (funcTable : List (Value F)) (types : List (List BlockType)) : ℕ → List ℕ → Trace F
  | _, [] => .done
  | dim, idx :: combination =>
    (execute (table (table funcTable dim).items idx) (table (table types dim) idx)).andThen
      (visit funcTable types (dim + 1) combination)

/-- `product_call`, with fuel for the iterator. -/
def productCall (fuel : ℕ) (funcTable : List (Value F)) : Option (Trace F) :=
  match plan funcTable with
  | .error message => some ([], some message)
  | .ok none => some .done
  | .ok (some (domains, types)) =>
    match productIter domains with
    | .error message => some ([], some message)
    | .ok start =>
      (collect (next (productRound domains) (keep none) fuel) fuel start).map fun combinations =>
        .seq (combinations.map (visit funcTable types 1))

/-! ### What they come to -/

/-- How many blocks each dimension has. -/
def counts (funcTable : List (Value F)) : List ℕ := funcTable.map fun blocks => blocks.items.length

/-- The types of the blocks, if there is something to do. -/
def typesOf (funcTable : List (Value F)) : List (List BlockType) :=
  match plan funcTable with
  | .ok (some (_, types)) => types
  | _ => []

/-- `product_call` executes the blocks at these positions in order, and stops at the first error. -/
def Visits (funcTable : List (Value F)) (ps : List (List ℕ)) : Prop :=
  ∃ enough, ∀ fuel, enough ≤ fuel → productCall fuel funcTable =
    some (.seq (ps.map (visit funcTable (typesOf funcTable) 1)))

variable {funcTable : List (Value F)} {dim idx : ℕ}

lemma length_classifyAll {blocks : List (Value F)} {types : List BlockType}
    (h : classifyAll dim idx blocks = .ok types) : types.length = blocks.length := by
  induction blocks generalizing idx types with
  | nil =>
    cases h
    rfl
  | cons block blocks ih =>
    rw [classifyAll] at h
    cases hfirst : classify block dim idx with
    | error message =>
      rw [hfirst] at h
      cases h
    | ok type =>
      rw [hfirst] at h
      cases hrest : classifyAll dim (idx + 1) blocks with
      | error message =>
        simp only [hrest, bind, Except.bind] at h
        cases h
      | ok rest =>
        simp only [hrest, bind, Except.bind, pure, Except.pure] at h
        cases h
        simp [ih hrest]

lemma planFrom_ok {p : Option (List (List BlockType))} (h : planFrom dim funcTable = .ok p) :
    (p = none → 0 ∈ counts funcTable) ∧
      ∀ types, p = some types → types.map List.length = counts funcTable ∧
        ∀ n ∈ counts funcTable, n ≠ 0 := by
  induction funcTable generalizing dim p with
  | nil =>
    cases h
    refine ⟨nofun, ?_⟩
    rintro _ ⟨⟩
    exact ⟨rfl, nofun⟩
  | cons blocks rest ih =>
    rw [planFrom] at h
    by_cases htype : blocks.type = "table"
    · by_cases hempty : blocks.items.length = 0
      · simp only [expectType, if_pos htype, hempty, if_true, bind, Except.bind, pure,
          Except.pure] at h
        cases h
        exact ⟨fun _ => List.mem_cons.mpr (.inl hempty.symm), nofun⟩
      · simp only [expectType, if_pos htype, if_neg hempty, bind, Except.bind, pure,
          Except.pure] at h
        cases hfirst : classifyAll dim 1 blocks.items with
        | error message =>
          rw [hfirst] at h
          cases h
        | ok first =>
          rw [hfirst] at h
          cases hrest : planFrom (dim + 1) rest with
          | error message =>
            simp only [hrest] at h
            cases h
          | ok q =>
            obtain ⟨hnone, hsome⟩ := ih hrest
            cases q with
            | none =>
              simp only [hrest] at h
              cases h
              exact ⟨fun _ => List.mem_cons_of_mem _ (hnone rfl), nofun⟩
            | some types =>
              simp only [hrest] at h
              cases h
              obtain ⟨hlengths, hpos⟩ := hsome types rfl
              refine ⟨nofun, ?_⟩
              rintro _ ⟨⟩
              refine ⟨congrArg₂ List.cons (length_classifyAll hfirst) hlengths, fun n hn => ?_⟩
              rcases List.mem_cons.mp hn with rfl | hn
              · exact hempty
              · exact hpos n hn
    · simp only [expectType, if_neg htype, bind, Except.bind] at h
      cases h

lemma plan_none (h : plan funcTable = .ok none) : funcTable = [] ∨ 0 ∈ counts funcTable := by
  rw [plan] at h
  by_cases hlen : funcTable.length = 0
  · exact .inl (List.length_eq_zero_iff.mp hlen)
  · right
    simp only [if_neg hlen, bind, Except.bind, pure, Except.pure] at h
    cases hplan : planFrom 1 funcTable with
    | error message =>
      rw [hplan] at h
      cases h
    | ok p =>
      rw [hplan] at h
      cases p with
      | none => exact (planFrom_ok hplan).1 rfl
      | some types => cases h

lemma plan_some {domains : List (List ℕ)} {types : List (List BlockType)}
    (h : plan funcTable = .ok (some (domains, types))) :
    domains = (counts funcTable).map (List.range' 1) ∧ counts funcTable ≠ [] ∧
      ∀ n ∈ counts funcTable, n ≠ 0 := by
  rw [plan] at h
  by_cases hlen : funcTable.length = 0
  · simp only [if_pos hlen, pure, Except.pure] at h
    cases h
  · simp only [if_neg hlen, bind, Except.bind, pure, Except.pure] at h
    cases hplan : planFrom 1 funcTable with
    | error message =>
      rw [hplan] at h
      cases h
    | ok p =>
      rw [hplan] at h
      cases p with
      | none => cases h
      | some types' =>
        obtain ⟨hlengths, hpos⟩ := (planFrom_ok hplan).2 types' rfl
        cases h
        refine ⟨?_, ?_, hpos⟩
        · rw [← hlengths, List.map_map]
          rfl
        · intro hnil
          exact hlen (List.length_eq_zero_iff.mpr (List.map_eq_nil_iff.mp hnil))

lemma positions_eq_nil (h : 0 ∈ sizes) : positions sizes = [] := by
  induction sizes with
  | nil => cases h
  | cons size sizes ih =>
    rw [positions]
    rcases List.mem_cons.mp h with rfl | h
    · rfl
    · simp [ih h]

lemma pick_range' (h : p ∈ positions sizes) : pick (sizes.map (List.range' 1)) p = p := by
  obtain ⟨hlen, hget⟩ := List.forall₂_iff_get.mp (mem_positions.mp h)
  rw [pick, values_eq, List.length_map, ← hlen]
  conv_rhs => rw [← map_table (l := p) rfl]
  refine List.map_congr_left fun i hi => ?_
  rw [List.mem_range'_1] at hi
  obtain ⟨j, rfl⟩ : ∃ j, i = j + 1 := ⟨i - 1, by omega⟩
  have hj : j < p.length := by omega
  have hj' : j < sizes.length := hlen ▸ hj
  obtain ⟨hpos, hle⟩ := hget j hj hj'
  have hp : table p (j + 1) = p.get ⟨j, hj⟩ := by simp [table, hj]
  have hrange : table (sizes.map (List.range' 1)) (j + 1) = List.range' 1 (sizes.get ⟨j, hj'⟩) := by
    simp [table, hj']
  rw [hp, hrange]
  generalize sizes.get ⟨j, hj'⟩ = size at hle
  obtain ⟨x, hx⟩ : ∃ x, p.get ⟨j, hj⟩ = x + 1 := ⟨p.get ⟨j, hj⟩ - 1, by omega⟩
  rw [hx] at hle ⊢
  have hlt : x < size := hle
  simp [table, hlt, Nat.add_comm]

lemma visits_positions {p : Option (List (List ℕ) × List (List BlockType))}
    (h : plan funcTable = .ok p) : Visits funcTable (positions (counts funcTable)) := by
  cases p with
  | none =>
    refine ⟨0, fun fuel _ => ?_⟩
    rw [productCall, h]
    rcases plan_none h with rfl | hzero
    · rfl
    · rw [positions_eq_nil hzero]
      rfl
  | some p =>
    obtain ⟨domains, types⟩ := p
    obtain ⟨rfl, hne, hpos⟩ := plan_some h
    have hlists : ∀ l ∈ (counts funcTable).map (List.range' 1), l ≠ [] := by
      intro l hl hnil
      obtain ⟨n, hn, rfl⟩ := List.mem_map.mp hl
      exact hpos n hn (List.range'_eq_nil_iff.mp hnil)
    obtain ⟨start, hstart, hrun⟩ := run_product (mt List.map_eq_nil_iff.mp hne) hlists
    have hsizes : ((counts funcTable).map (List.range' 1)).map List.length = counts funcTable := by
      rw [List.map_map]
      conv_rhs => rw [← List.map_id (counts funcTable)]
      exact List.map_congr_left fun n _ => List.length_range'
    have hpick : (positions (counts funcTable)).map (pick ((counts funcTable).map (List.range' 1))) =
        positions (counts funcTable) := by
      conv_rhs => rw [← List.map_id (positions (counts funcTable))]
      exact List.map_congr_left fun p hp => pick_range' hp
    rw [hsizes, hpick] at hrun
    obtain ⟨enough, hcollect⟩ := hrun.collect (keep none)
    have htypes : typesOf funcTable = types := by rw [typesOf, h]
    refine ⟨enough, fun fuel hfuel => ?_⟩
    have hkeep : (positions (counts funcTable)).filter (keep none) = positions (counts funcTable) :=
      List.filter_eq_self.mpr fun _ _ => rfl
    rw [productCall, h]
    dsimp only
    rw [hstart]
    dsimp only
    rw [hcollect fuel hfuel, hkeep, htypes]
    rfl

end Call

/-! ### Every tuple, once -/

lemma pairwise_positions : (positions sizes).Pairwise (· < ·) := by
  by_cases h : 0 ∈ sizes
  · rw [positions_eq_nil h]
    exact .nil
  · have htrav := traverses_positions fun size hsize hzero => h (hzero ▸ hsize)
    exact (htrav.pairwise (r := (· < ·)) fun x y hxy => lt_of_succ hxy).1

/-- The iterator yields the tuples at these positions that the filter accepts, and then nothing. -/
def Enumerates (lists : List (List V)) (ps : List (List ℕ)) : Prop :=
  ∃ start, productIter lists = .ok start ∧
    ∀ filter, ∃ enough, ∀ fuel, enough ≤ fuel → ∀ m,
      calls (next (productRound lists) (keep filter) fuel) m start =
        some ((List.range m).map fun j => ((ps.map (pick lists)).filter (keep filter))[j]?)

lemma checkSizes_of_mem (h : 0 ∈ sizes) (i : ℕ) :
    ∃ j < sizes.length, sizes[j]? = some 0 ∧
      checkSizes i sizes = some ("product_iter: list " ++ toString (i + j) ++ " is empty") := by
  induction sizes generalizing i with
  | nil => cases h
  | cons size sizes ih =>
    rw [checkSizes]
    by_cases hsize : size = 0
    · exact ⟨0, Nat.succ_pos _, congrArg some hsize, if_pos hsize⟩
    · obtain ⟨j, hj, hget, hcheck⟩ :=
        ih ((List.mem_cons.mp h).resolve_left fun heq => hsize heq.symm) (i + 1)
      refine ⟨j + 1, Nat.succ_lt_succ hj, hget, ?_⟩
      rw [if_neg hsize, hcheck, Nat.add_assoc, Nat.add_comm 1 j]

/-- The positions are those of the Cartesian product, each once and in lexicographic order.
`product_iter` yields the tuples there, and `product_call` executes the blocks there, in the order of
the positions. A list of no lists has no tuple for the iterator, and an empty list is refused. -/
theorem product_complete {F : Type*} (lists : List (List V)) (funcTable : List (Value F)) :
    (∀ sizes : List ℕ, (positions sizes).Pairwise (· < ·) ∧
      ∀ p, p ∈ positions sizes ↔ List.Forall₂ (fun i size => 1 ≤ i ∧ i ≤ size) p sizes) ∧
    (lists ≠ [] → (∀ l ∈ lists, l ≠ []) →
      Enumerates lists (positions (lists.map List.length))) ∧
    (lists = [] → Enumerates lists []) ∧
    ([] ∈ lists → ∃ i, i < lists.length ∧ lists[i]? = some [] ∧
      productIter lists = .error ("product_iter: list " ++ toString (1 + i) ++ " is empty")) ∧
    (∀ p, plan funcTable = .ok p → Visits funcTable (positions (counts funcTable))) ∧
    (∀ message, plan funcTable = .error message →
      ∀ fuel, productCall fuel funcTable = some ([], some message)) := by
  refine ⟨fun sizes => ⟨pairwise_positions, fun p => mem_positions⟩, ?_, ?_, ?_, ?_, ?_⟩
  · intro h hne
    obtain ⟨start, hstart, hrun⟩ := run_product h hne
    exact ⟨start, hstart, fun filter => hrun.calls (keep filter)⟩
  · rintro rfl
    exact ⟨none, rfl, fun filter => (Run.stop rfl).calls (keep filter)⟩
  · intro hmem
    have hzero : 0 ∈ lists.map List.length := List.mem_map.mpr ⟨[], hmem, rfl⟩
    obtain ⟨i, hi, hget, hcheck⟩ := checkSizes_of_mem hzero 1
    rw [List.length_map] at hi
    refine ⟨i, hi, ?_, ?_⟩
    · rw [List.getElem?_map, Option.map_eq_some_iff] at hget
      obtain ⟨l, hl, hlen⟩ := hget
      rw [hl, List.length_eq_zero_iff.mp hlen]
    · rw [productIter, if_neg (by omega), hcheck]
  · exact fun p hplan => visits_positions hplan
  · intro message hplan fuel
    rw [productCall, hplan]

/-- Two lists. -/
theorem product_complete_two : Enumerates [[3, 4], [5]] (positions [2, 1]) :=
  (product_complete (F := Unit) [[3, 4], [5]] []).2.1 (by simp) (by simp)

/-- Where a list is empty, so is the product, but the iterator is refused. -/
theorem not_enumerates_empty : ¬ Enumerates [[1], []] (positions [1, 0]) := by
  rintro ⟨start, hstart, -⟩
  cases hstart

end Verilua.Cross
