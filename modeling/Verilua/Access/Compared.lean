import Verilua.BitVecs.Basic
import Verilua.Dpi.Basic
import Verilua.Getters.Unknown

/-!
# Comparing a `CallableHDL` with a value

`<chdl> == v(x)`. Each type of `x` is compared in a way of its own: as a hexadecimal, binary or
decimal text without the zeros in front, or word by word. The signal is read through the VPI or, if
it is exported by `dpi_exporter`, through the functions of the exporter; without `dummy_vpi` a handle
of such a signal has no `hdl`. A Lua error is `none`.
-/

namespace Verilua.Access

open BitVecs StrBits Getters
open Put (VecVal)
open Codec (Outcome)

/-! ### Reading -/

/-- The build of the library, and what `vpi_get_value` hands out for the formats. -/
structure Vpi where
  feature : Feature
  verilator : Bool
  resolveXAsZero : Bool
  integer : UInt32
  vector : List VecVal
  hexStrVal : List Char
  binStrVal : List Char
  decStrVal : List Char

namespace Vpi

/-- `normalized_hex`, with a 0 for each `x` and `z`. -/
def cleanHex (raw : List Char) : List Char :=
  (raw.dropWhile (· = ' ')).map fun byte => if byte ∈ ['x', 'X', 'z', 'Z'] then '0' else byte

/-- Under Verilator the text is made from the hexadecimal one, and it is an error if that is none. -/
def vpimlGetValueDecStr (vpi : Vpi) : Option (List Char) :=
  if vpi.verilator then
    match cleanHex vpi.hexStrVal with
    | [] => some ['0']
    | buf => (tonumber16 buf).map (Nat.toDigits 10)
  else some (vpimlGetValueBinStr vpi.feature vpi.resolveXAsZero vpi.decStrVal)

/-- The values of `vpiml_get_value_multi`. -/
def getValueMulti (vpi : Vpi) (beatNum : Nat) : Option (List UInt32) :=
  match vpimlGetValueMulti vpi.feature vpi.resolveXAsZero vpi.vector beatNum with
  | .value (_, values) => some values
  | _ => none

end Vpi

/-- How the handle of a signal reads it. An exported signal is a variable of the exporter. -/
inductive Reading
  | vpi (sim : Vpi)
  | exported (sim : Vpi) (s : DpiExporter.SignalInfo) (v : DpiExporter.Variable)
  | dpiOnly (s : DpiExporter.SignalInfo) (v : DpiExporter.Variable)

/-- `ffi_string(buffer)`, which ends before the first null character. -/
def ffiString (buffer : Cells Char) (size : Nat) : Option (List Char) := do
  let chars ← (List.range size).mapM buffer
  if '\x00' ∈ chars then some (chars.takeWhile (· ≠ '\x00')) else none

namespace Reading

/-- The `get` of a signal of one beat. -/
def get : Reading → Option UInt32
  | .vpi sim => some sim.integer
  | .exported _ s v | .dpiOnly s v => s.get v

/-- `get(true)` of a signal of more beats, without the number of the beats in front. -/
def getVec (beatNum : Nat) : Reading → Option (List UInt32)
  | .vpi sim => sim.getValueMulti beatNum
  | .exported _ s v | .dpiOnly s v => s.getVec.bind fun read => read v

def getHexStr : Reading → Option (List Char)
  | .vpi sim | .exported sim _ _ =>
    some (vpimlGetValueBinStr sim.feature sim.resolveXAsZero sim.hexStrVal)
  | .dpiOnly s v => do ffiString (← s.getHexStr v) (DpiExporter.coverWith4 s.bitWidth + 1)

/-- `get_str(BinStr)` -/
def getBinStr : Reading → Option (List Char)
  | .vpi sim | .exported sim _ _ =>
    some (vpimlGetValueBinStr sim.feature sim.resolveXAsZero sim.binStrVal)
  | .dpiOnly _ _ => none

/-- `get_str(DecStr)` -/
def getDecStr : Reading → Option (List Char)
  | .vpi sim | .exported sim _ _ => sim.vpimlGetValueDecStr
  | .dpiOnly _ _ => none

end Reading

/-! ### Comparing -/

/-- What `v` is given. A buffer is a `uint32_t` array with the number of its words in front. -/
inductive Compared
  | num (n : Int)
  | ull (u : UInt64)
  | str (s : List Char)
  | bitvec (bv : BitVec)
  | table (words : List Int)
  | buffer (data : List UInt32)
  | bool (b : Bool)
  | other

/-- `s:gsub("^0*", "")` -/
def trimZeros (s : List Char) : List Char := s.dropWhile (· = '0')

def lower (s : List Char) : List Char := s.map Char.toLower

/-- A handle. An array has one for each of its elements. -/
structure ReadHandle where
  width : Nat
  isArray : Bool
  reading : Reading

namespace ReadHandle

variable (J : Lua.Jit) (this : ReadHandle)

def beatNum : Nat := (this.width + 31) / 32

def isHexStr (hexValueStr : List Char) : Option Bool := do
  return trimZeros (lower (← this.reading.getHexStr)) == trimZeros (lower hexValueStr)

def isBinStr (binValueStr : List Char) : Option Bool := do
  return trimZeros (← this.reading.getBinStr) == trimZeros binValueStr

def isDecStr (decValueStr : List Char) : Option Bool := do
  return trimZeros (← this.reading.getDecStr) == trimZeros decValueStr

/-- The loop over the words of the signal. A word that is left out stands for 0. -/
def equalWords (value : List Int) (result : List UInt32) : Bool :=
  (List.range this.beatNum).all fun i =>
    (value[i]?).getD 0 == ((result.getD i 0).toNat : Int)

def eqTable (value : List Int) : Option Bool := do
  if this.beatNum = 1 then
    let result ← this.reading.get
    -- the first word of an empty table is `nil`
    return (value[0]?).any (· == (result.toNat : Int)) && (value.drop 1).all (· == 0)
  else
    let result ← this.reading.getVec this.beatNum
    return this.equalWords value result && (value.drop this.beatNum).all (· == 0)

/-- The words of a buffer are not counted when they are compared with those of a signal of several
beats: one that is missing is read behind the buffer, and `#value` is an error. -/
def eqBuffer (data : List UInt32) : Option Bool := do
  let size ← data[0]?
  if this.beatNum = 1 then
    let result ← this.reading.get
    if result ≠ (← data[1]?) then return false
    return (← (List.range' 2 (size.toNat - 1)).mapM fun i => data[i]?).all (· == 0)
  else
    let result ← this.reading.getVec this.beatNum
    let equal ← (List.range this.beatNum).foldlM (fun equal i => do
      if equal then return (← data[i + 1]?) == result.getD i 0 else return false) true
    if !equal then return false
    if this.beatNum < size.toNat then none else return true

def eqImpl : Compared → Option Bool
  | .num n => this.isHexStr (tohex J n)
  | .str ('0' :: 'x' :: value) => this.isHexStr value
  | .str ('0' :: 'b' :: value) => this.isBinStr value
  | .str value => this.isDecStr value
  | .bitvec value => this.isHexStr value.toHexStr
  | .table value => this.eqTable value
  -- `bit.tohex` of a boxed integer
  | .ull value => this.isHexStr (spell 16 16 value.toNat)
  | .buffer value => this.eqBuffer value
  | .bool value => this.isHexStr (if value then ['1'] else ['0'])
  | .other => none

/-- `<chdl> == v(x)`, which prints nothing -/
def eq (x : Compared) : Option Bool := if this.isArray then none else this.eqImpl J x

end ReadHandle

end Verilua.Access
