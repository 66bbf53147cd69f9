import Mathlib.Algebra.Group.Nat.Defs
import Verilua.Lib.Cells

/-!
# The accessors that the DPI exporter emits

The exporter declares a variable for every signal and writes the C functions that read and write
it. Their text depends on the bit width: a signal of one beat has a scalar, a wider one an array of
beats with the lowest first, and the text of a hexadecimal reader is put together by loops of the
exporter itself.
-/

namespace Verilua.DpiExporter

def coverWith32 (size : Nat) : Nat := (size + 31) / 32

def coverWith4 (size : Nat) : Nat := (size + 3) / 4

structure SignalInfo where
  hierPath : List Char
  vpiTypeStr : List Char
  bitWidth : Nat
  handleId : Nat
  isWritable : Bool
  bitWidth_pos : 0 < bitWidth
  deriving DecidableEq

def SignalInfo.beatSize (s : SignalInfo) : Nat := coverWith32 s.bitWidth

/-! ### The generated variable -/

/-- `uint8_t __x`, `uint32_t __x` or `uint32_t __x[n]`, with what it holds. -/
inductive Variable
  | byte (v : UInt8)
  | word (v : UInt32)
  | beats (vs : List UInt32)
  deriving DecidableEq, Repr

namespace Variable

/-- `__x` as a number; the name of an array is none. -/
def scalar : Variable → Option UInt32
  | byte v => some v.toUInt32
  | word v => some v
  | beats _ => none

/-- `__x[i]`. -/
def beat (i : Nat) : Variable → Option UInt32
  | beats vs => vs[i]?
  | _ => none

/-- `__x = value`. -/
def setScalar (value : UInt32) : Variable → Option Variable
  | byte _ => some (byte value.toUInt8)
  | word _ => some (word value)
  | beats _ => none

/-- `__x[i] = value`. -/
def setBeat (i : Nat) (value : UInt32) : Variable → Option Variable
  | beats vs => if i < vs.length then some (beats (vs.set i value)) else none
  | _ => none

end Variable

/-- The `n` lowest words of `V`, the lowest first. -/
def words (n V : Nat) : List UInt32 := (List.range n).map fun i => UInt32.ofNat (V / 2 ^ (32 * i))

/-- The declared variable, holding `V`. -/
def SignalInfo.holding (s : SignalInfo) (V : Nat) : Variable :=
  if s.beatSize = 1 then
    if s.bitWidth = 1 then .byte (UInt8.ofNat V) else .word (UInt32.ofNat V)
  else .beats (words s.beatSize V)

/-! ### Readers -/

def SignalInfo.get (s : SignalInfo) (v : Variable) : Option UInt32 :=
  if s.beatSize = 1 then v.scalar else v.beat 0

def SignalInfo.get64 (s : SignalInfo) (v : Variable) : Option UInt64 :=
  if s.beatSize = 1 then v.scalar.map UInt32.toUInt64
  else do
    let hi ← v.beat 1
    let lo ← v.beat 0
    return hi.toUInt64 <<< 32 ||| lo.toUInt64

/-- What `GET_VEC` copies; a signal of one beat has no such function. -/
def SignalInfo.getVec (s : SignalInfo) : Option (Variable → Option (List UInt32)) :=
  if s.beatSize = 1 then none else some fun v => (List.range s.beatSize).mapM fun i => v.beat i

/-- The statements of a `GET_HEX_STR`. -/
inductive HexStmt
  | load (value : Variable → Option UInt32)
  /-- `for (int i = hi; i >= lo; --i)`, a digit of `value` to each place. -/
  | digits (hi lo : Nat)
  | terminate (idx : Nat)

structure HexState where
  value : UInt32
  hexStr : Cells Char

def hexAlphabet : List Char := "0123456789abcdef".toList

def digitLoop (lo : Nat) : Nat → HexState → HexState
  | 0, σ => σ
  | n + 1, σ =>
    digitLoop lo n
      { value := σ.value >>> 4
        hexStr := σ.hexStr.set (lo + n) (hexAlphabet.getD (σ.value &&& 0xF).toNat '\x00') }

def HexStmt.run (v : Variable) (σ : HexState) : HexStmt → Option HexState
  | load value => do return { σ with value := ← value v }
  | digits hi lo => some (digitLoop lo (hi + 1 - lo) σ)
  | terminate idx => some { σ with hexStr := σ.hexStr.set idx '\x00' }

/-- The text of the loop over the beats: the lowest beat goes to the last eight places. -/
def beatLoops : Nat → Nat → List HexStmt
  | 0, _ => []
  | k + 1, beatIdx =>
    .load (·.beat beatIdx) :: .digits ((k + 1) * 8 - 1) (k * 8) :: beatLoops k (beatIdx + 1)

def SignalInfo.hexStmts (s : SignalInfo) : List HexStmt :=
  if s.beatSize = 1 then
    [.load Variable.scalar, .digits (coverWith4 s.bitWidth - 1) 0,
      .terminate (coverWith4 s.bitWidth)]
  else if s.beatSize = 2 then
    [.load (·.beat 0),
      .digits (8 + (coverWith4 s.bitWidth - 8) - 1) (coverWith4 s.bitWidth - 8),
      .load (·.beat 1), .digits (coverWith4 s.bitWidth - 8 - 1) 0,
      .terminate (coverWith4 s.bitWidth)]
  else beatLoops s.beatSize 0 ++ [.terminate (coverWith4 s.bitWidth)]

/-- What `GET_HEX_STR` writes to its buffer. -/
def SignalInfo.getHexStr (s : SignalInfo) (v : Variable) : Option (Cells Char) := do
  let σ ← s.hexStmts.foldlM (HexStmt.run v) { value := 0, hexStr := Cells.empty }
  return σ.hexStr

/-! ### Writers -/

/-- The body of the loops over the characters. -/
def shiftDigit (value : UInt32) (c : Char) : UInt32 :=
  if '0' ≤ c ∧ c ≤ '9' then value <<< 4 ||| UInt32.ofNat (c.toNat - '0'.toNat)
  else if 'a' ≤ c ∧ c ≤ 'f' then value <<< 4 ||| UInt32.ofNat (c.toNat - 'a'.toNat + 10)
  else if 'A' ≤ c ∧ c ≤ 'F' then value <<< 4 ||| UInt32.ofNat (c.toNat - 'A'.toNat + 10)
  else value <<< 4

/-- `for (int i = …; hexStr[i] != '\0' && i < i + n; ++i)`: the character is read before the bound
is tested. A character behind the end of the text cannot be read. -/
def readDigits (hexStr : Cells Char) (n i : Nat) (value : UInt32) : Option UInt32 :=
  match hexStr i with
  | none => none
  | some c =>
    if c = '\x00' then some value
    else
      match n with
      | 0 => some value
      | n + 1 => readDigits hexStr n (i + 1) (shiftDigit value c)

/-- The functions that write a variable. -/
structure Writers where
  set : UInt32 → Variable → Option Variable
  set64 : UInt64 → Variable → Option Variable
  setVec : Option (List UInt32 → Variable → Option Variable)
  setHexStr : Cells Char → Variable → Option Variable

/-- `for (int i = start; i < start + n; i++) __x[i] = 0`. -/
def clearBeats (start n : Nat) (v : Variable) : Option Variable :=
  (List.range n).foldlM (fun v i => v.setBeat (start + i) 0) v

/-- The writers for a signal of one beat. -/
def scalarWriters : Writers where
  set value v := v.setScalar value
  set64 value v := v.setScalar value.toUInt32
  setVec := none
  setHexStr hexStr v := do v.setScalar (← readDigits hexStr 7 0 0)

/-- The writers for a signal of `n` beats. -/
def beatWriters (n : Nat) : Writers where
  set value v := do clearBeats 1 (n - 1) (← v.setBeat 0 value)
  set64 value v := do
    let v ← v.setBeat 0 (value &&& 0xFFFFFFFF).toUInt32
    let v ← v.setBeat 1 (value >>> 32).toUInt32
    clearBeats 2 (n - 2) v
  setVec := some fun values v =>
    (List.range n).foldlM (fun v i => do v.setBeat i (← values[i]?)) v
  setHexStr hexStr v :=
    (List.range n).foldlM (fun v j => do
      let value ← readDigits hexStr 8 (j * 8) 0
      v.setBeat (n - 1 - j) value) v

def SignalInfo.writers (s : SignalInfo) : Option Writers :=
  if s.isWritable then
    some (if s.beatSize = 1 then scalarWriters else beatWriters s.beatSize)
  else none

end Verilua.DpiExporter
