import Verilua.Queues.Basic
import Verilua.Lib.Object
import Verilua.Lib.Shuffle

/-!
# Calls on `Queue` and `StaticQueue`

The other methods of the two classes, and what a call returns and leaves behind.
-/

namespace Verilua

open Fifo Shuffle

variable {V : Type*} [Inhabited V]

/-- What a call returns, or the text that it raises. -/
inductive Returned (V : Type*)
  | nothing
  | value (v : V)
  | int (n : Int)
  | bool (b : Bool)
  | table (l : List V)
  | raised (message : String)

/-! ### `Queue` -/

namespace Queue

/-- `front`, also `query_first_ptr`. -/
def front (q : Queue V) : V :=
  if q.isEmpty then default else q.data q.firstPtr

def last (q : Queue V) : V :=
  if q.isEmpty then default else q.data q.lastPtr

omit [Inhabited V] in
def size (q : Queue V) : Int := q.lastPtr - q.firstPtr + 1

def reset (q : Queue V) : Queue V :=
  { q with data := fun _ => default, leakCheckCnt := 0, firstPtr := 1, lastPtr := 0 }

inductive Call (V : Type*)
  | push (v : V)
  | pop
  | front
  | last
  | size
  | isEmpty
  | reset

/-- A `pop` that raises has set back `leak_check_cnt` before. -/
def call (q : Queue V) : Call V → Returned V × Queue V
  | .push v => (.nothing, q.push v)
  | .pop =>
    match q.pop with
    | some (v, q') => (.value v, q')
    | none => (.raised "queue is empty", if q.leakCheck then { q with leakCheckCnt := 0 } else q)
  | .front => (.value q.front, q)
  | .last => (.value q.last, q)
  | .size => (.int q.size, q)
  | .isEmpty => (.bool q.isEmpty, q)
  | .reset => (.nothing, q.reset)

end Queue

/-! ### `StaticQueue` -/

namespace StaticQueue

/-- `front`, also `query_first`. -/
def front (q : StaticQueue V) : V :=
  if q.count = 0 then default else q.data q.firstPtr

def last (q : StaticQueue V) : V :=
  if q.count = 0 then default else q.data q.lastPtr

def reset (q : StaticQueue V) : StaticQueue V :=
  { q with data := fun _ => default, firstPtr := 1, lastPtr := 0, count := 0 }

omit [Inhabited V] in
/-- The slot of the value number `i`, counted from 1. -/
def real (q : StaticQueue V) (i : Nat) : Nat := (q.firstPtr + i - 2) % q.size + 1

omit [Inhabited V] in
/-- One round of the loop of `shuffle`. -/
def shuffleStep (q : StaticQueue V) (draws : Draws) (i : Nat) (data : Nat → V) : Nat → V :=
  exchange data (q.real i) (q.real (draws.draw i))

omit [Inhabited V] in
def shuffle (q : StaticQueue V) (draws : Draws) : StaticQueue V :=
  if q.count ≤ 1 then q
  else { q with data := downTo2 (q.shuffleStep draws) q.count q.data }

/-- The loop of `get_all_data`, of which `n` rounds are left. `ret[#ret + 1] = nil` appends nothing. -/
def getLoop [DecidableEq V] (q : StaticQueue V) : Nat → Nat → List V → List V
  | 0, _, ret => ret
  | n + 1, index, ret =>
    let value := q.data index
    getLoop q n (index % q.size + 1) (if value = default then ret else ret ++ [value])

def getAllData [DecidableEq V] (q : StaticQueue V) : List V :=
  if q.count ≠ 0 then q.getLoop q.count q.firstPtr [] else []

inductive Call (V : Type*)
  | push (v : V)
  | pop
  | front
  | last
  | shuffle (draws : Draws)
  | getAllData
  | reset

/-- `push` returns 0 for success and 1 for failure. -/
def call [DecidableEq V] (q : StaticQueue V) : Call V → Returned V × StaticQueue V
  | .push v =>
    match q.push v with
    | some q' => (.int 0, q')
    | none => (.int 1, q)
  | .pop =>
    match q.pop with
    | some (v, q') => (.value v, q')
    | none => (.raised "queue is empty", q)
  | .front => (.value q.front, q)
  | .last => (.value q.last, q)
  | .shuffle draws => (.nothing, q.shuffle draws)
  | .getAllData => (.table q.getAllData, q)
  | .reset => (.nothing, q.reset)

end StaticQueue

end Verilua
