import Verilua.LuaUtils.Numbers

/-!
# Vectors of bits, in Lua

The class of `BitVec.lua`: a number kept as beats of 32 bits, the lowest first. Beats are counted
from 0 here. A Lua error is `none`, and positions are not negative.
-/

namespace Verilua.BitVecs

open Lua StrBits Word64

/-! ### Beats -/

/-- `u32_vec[i] or 0` -/
def beat (u32Vec : List Int) (i : Nat) : Int := u32Vec.getD i 0

/-- `u32_vec[i] = x`. A beat that is left out before a new one reads as zero. -/
def setBeat (u32Vec : List Int) (i : Nat) (x : Int) : List Int :=
  if i < u32Vec.length then u32Vec.set i x
  else u32Vec ++ List.replicate (i - u32Vec.length) 0 ++ [x]

def getHexStrLen (bitWidth : Nat) : Nat := (bitWidth + 3) / 4

def getBeatSize (bitWidth : Nat) : Nat := (bitWidth + 31) / 32

/-- `tonumber(s, 16)` for digits -/
def tonumber (s : List Char) : Int := (tonumber16 s).getD 0

def hexStrToU32Vec (hexStr : List Char) : List Int :=
  let hexLength := hexStr.length
  let fullBeats := hexLength / 8
  let u32Vec := (List.range fullBeats).map fun i =>
    let startIndex := hexLength - (i + 1) * 8 + 1
    tonumber (ssub hexStr startIndex (startIndex + 7))
  let remainingChars := hexLength % 8
  if 0 < remainingChars then u32Vec ++ [tonumber (ssub hexStr 1 remainingChars)] else u32Vec

/-- A vector of bits. The beat size and the length of the hexadecimal string are those of the width,
which never changes. -/
structure BitVec where
  u32Vec : List Int
  bitWidth : Nat
  nrU32Vec : Nat
deriving DecidableEq, Repr

/-- A string of hexadecimal digits. -/
structure HexText where
  chars : List Char
  isHex : IsHex chars
deriving DecidableEq

/-- What a vector is made from. A buffer is a `uint32_t` array with the number of its words in front
of them. -/
inductive Data
  | table (data : List Int)
  | buffer (data : List UInt32)
  | ull (data : UInt64)
  | num (data : Int)
  | str (data : HexText)
deriving DecidableEq

def BitVec.beatSize (bv : BitVec) : Nat := getBeatSize bv.bitWidth

def BitVec.hexStrLen (bv : BitVec) : Nat := getHexStrLen bv.bitWidth

variable (J : Jit)

/-- Above the width all bits of the last beat are set to zero. -/
def BitVec.maskUnusedHighBits (bv : BitVec) : BitVec :=
  let beatSize := bv.beatSize
  if beatSize = 0 then bv
  else
    let validBitsInTop := bv.bitWidth % 32
    if validBitsInTop = 0 then bv
    else
      let topIndex := beatSize - 1
      let mask := ones validBitsInTop
      { bv with
        u32Vec := setBeat bv.u32Vec topIndex
          (J.tonumber (J.toULL (beat bv.u32Vec topIndex) &&& mask)) }

/-- The beats of a boxed integer. -/
def ullBeats (data : UInt64) (beatSize : Nat) : List Int :=
  J.tonumber (data &&& 0xFFFFFFFF) ::
    if 1 < beatSize then J.tonumber (data >>> 32) :: List.replicate (beatSize - 2) 0 else []

/-- The beats of a number. -/
def numBeats (data : Int) (beatSize : Nat) : List Int := data :: List.replicate (beatSize - 1) 0

/-- The beats of a list, if it is not too long. -/
def tableBeats (data : List Int) (beatSize : Nat) : Option (List Int) :=
  if beatSize < data.length then none
  else some (data ++ List.replicate (beatSize - data.length) 0)

/-- The beats of a string, if it is not too long. -/
def hexBeats (hexStr : List Char) (hexStrLen : Nat) : Option (List Int) :=
  if hexStrLen < hexStr.length then none
  else some (hexStrToU32Vec (srep (hexStrLen - hexStr.length) ++ hexStr))

/-- The end of the constructor and of `update_value`. -/
def finish (u32Vec : List Int) (bitWidth : Nat) : BitVec :=
  let bv := BitVec.maskUnusedHighBits J ⟨u32Vec, bitWidth, u32Vec.length⟩
  { bv with nrU32Vec := bv.u32Vec.length }

/-- The constructor. -/
def BitVec.init : Data → Option Nat → Option BitVec
  | .table data, some bitWidth =>
    (tableBeats data (getBeatSize bitWidth)).map (finish J · bitWidth)
  | .table data, none => some (finish J data (data.length * 32))
  | .buffer data, some bitWidth =>
    (tableBeats (data.map fun w => (w.toNat : Int)) (getBeatSize bitWidth)).map
      (finish J · bitWidth)
  | .buffer data, none =>
    some (finish J (data.map fun w => (w.toNat : Int)) (data.length * 32))
  | .ull data, some bitWidth =>
    some (finish J (ullBeats J data (getBeatSize bitWidth)) bitWidth)
  | .ull data, none => some (finish J (ullBeats J data 2) 64)
  | .num data, some bitWidth =>
    some (finish J (numBeats data (getBeatSize bitWidth)) bitWidth)
  | .num data, none => some (finish J [data] 32)
  | .str data, some bitWidth =>
    (hexBeats data.chars (getHexStrLen bitWidth)).map (finish J · bitWidth)
  | .str data, none => some (finish J (hexStrToU32Vec data.chars) (data.chars.length * 4))

def BitVec.updateValue (bv : BitVec) : Data → Option BitVec
  -- the type of the first entry is looked at
  | .table [] => none
  | .table (d :: data) =>
    (tableBeats (d :: data) bv.u32Vec.length).map (finish J · bv.bitWidth)
  | .buffer _ => none
  | .ull data => some (finish J (ullBeats J data bv.u32Vec.length) bv.bitWidth)
  | .num data => some (finish J (numBeats data bv.u32Vec.length) bv.bitWidth)
  | .str data => (hexBeats data.chars bv.hexStrLen).map (finish J · bv.bitWidth)

/-! ### `get_bitfield` -/

/-- One round of the loop of `get_bitfield`. -/
def readBeat (u32Vec : List Int) (s e : Nat) (value : UInt64) (i : Nat) : UInt64 :=
  let startBeatId := s / 32
  let endBeatId := e / 32
  let startBit := s % 32
  let endBit := e % 32
  let u32 := J.toULL (beat u32Vec i)
  if i = startBeatId then
    if startBeatId = endBeatId then
      let mask := 0xFFFFFFFF >>> UInt64.ofNat (31 - endBit)
      (u32 &&& mask) >>> UInt64.ofNat startBit
    else
      let mask := 0xFFFFFFFF >>> UInt64.ofNat startBit
      value ||| (u32 >>> UInt64.ofNat startBit &&& mask)
  else if i = endBeatId then
    let mask := ones (endBit + 1) &&& 0xFFFFFFFF
    value ||| (u32 &&& mask) <<< UInt64.ofNat (i * 32 - s)
  else value ||| u32 <<< UInt64.ofNat (i * 32 - s)

/-- The beats from that of `s` to that of `e`. -/
def beatIds (s e : Nat) : List Nat := List.range' (s / 32) (e / 32 + 1 - s / 32)

def BitVec.getBitfield (bv : BitVec) (s e : Nat) : Option UInt64 :=
  if 63 < e - s then none else some ((beatIds s e).foldl (readBeat J bv.u32Vec s e) 0)

/-- For `s ≤ e`. -/
def BitVec.getBitfieldVec (bv : BitVec) (s e : Nat) : Option (List Int) := do
  let beatSize := (e - s) / 32 + 1
  let front ← (List.range (beatSize - 1)).mapM fun i =>
    bv.getBitfield J (s + i * 32) (s + i * 32 + 31)
  let last ← bv.getBitfield J (s + (beatSize - 1) * 32) e
  return (front ++ [last]).map J.tonumber

/-- `bit.tohex` of a number -/
def tohex (n : Int) : List Char := spell 16 8 (J.tobit n).toNat

/-- For `s ≤ e`. -/
def BitVec.getBitfieldHexStr (bv : BitVec) (s e : Nat) : Option (List Char) := do
  let words ← bv.getBitfieldVec J s e
  return words.reverse.flatMap (tohex J)

/-! ### `set_bitfield` -/

/-- What one round of the loop of `set_bitfield` puts in place of a beat. -/
def newBeat (s e : Nat) (v : UInt64) (i : Nat) (u32 : Int) : UInt64 :=
  let startBeatId := s / 32
  let endBeatId := e / 32
  let startBit := s % 32
  let endBit := e % 32
  let u32 := J.toULL u32
  if i = startBeatId then
    if startBeatId = endBeatId then
      -- a count of bits that is negative is taken modulo 64
      let numBits := (((endBit : Int) - startBit + 1) % 64).toNat
      let mask := ~~~(ones numBits <<< UInt64.ofNat startBit)
      let vmask := ones numBits
      let maskedV := v &&& vmask
      (u32 &&& mask) ||| maskedV <<< UInt64.ofNat startBit
    else
      let mask := ~~~(ones (31 - startBit) <<< UInt64.ofNat startBit)
      let vmask := ones (32 - startBit)
      let maskedV := v &&& vmask
      (u32 &&& mask) ||| maskedV <<< UInt64.ofNat startBit
  else if i = endBeatId then
    let mask := ~~~ones (endBit + 1)
    let vmask := ones (endBit + 1)
    let maskedV := v >>> UInt64.ofNat (i * 32 - s) &&& vmask
    (u32 &&& mask) ||| maskedV
  else
    let maskedV := v >>> UInt64.ofNat (32 - startBit) &&& 0xFFFFFFFF
    (u32 &&& 0) ||| maskedV

def writeBeat (s e : Nat) (v : UInt64) (u32Vec : List Int) (i : Nat) : List Int :=
  setBeat u32Vec i (J.tonumber (newBeat J s e v i (beat u32Vec i)))

def BitVec.setBitfield (bv : BitVec) (s e : Nat) (v : Value) : Option BitVec :=
  if 63 < e - s then none
  else some { bv with u32Vec := (beatIds s e).foldl (writeBeat J s e (v.toULL J)) bv.u32Vec }

/-- For `e < s` there is no list of the right length, or no first or last entry. -/
def BitVec.setBitfieldVec (bv : BitVec) (s e : Nat) (u32Vec : List Int) : Option BitVec :=
  let beatSize := (e - s) / 32 + 1
  if e < s ∨ beatSize ≠ u32Vec.length then none
  else if s / 32 = e / 32 ∨ beatSize = 1 then bv.setBitfield J s e (.num (beat u32Vec 0))
  else do
    let bv ← (List.range (beatSize - 1)).foldlM (fun bv i =>
      bv.setBitfield J (s + i * 32) (s + i * 32 + 31) (.num (beat u32Vec i))) bv
    let ss := s + (beatSize - 1) * 32
    let vmask := ones (e - ss + 1)
    let maskedV := J.toULL (beat u32Vec (beatSize - 1)) &&& vmask
    bv.setBitfield J ss e (.ull maskedV)

def BitVec.setBitfieldHexStr (bv : BitVec) (s e : Nat) (hexStr : HexText) : Option BitVec :=
  bv.setBitfieldVec J s e (hexStrToU32Vec hexStr.chars)

/-! ### `to_hex_str`, `==` -/

/-- `%08x` -/
def format08x (n : Int) : List Char :=
  let digits := Nat.toDigits 16 (n % 2 ^ 64).toNat
  srep (8 - digits.length) ++ digits

def BitVec.toHexStr1 (bv : BitVec) : List Char :=
  ((List.range bv.nrU32Vec).reverse.map (beat bv.u32Vec)).flatMap format08x

def BitVec.toHexStr (bv : BitVec) : List Char :=
  let hexStr := bv.toHexStr1
  let hexStr := if bv.hexStrLen < hexStr.length
    then hexStr.drop (hexStr.length - bv.hexStrLen) else hexStr
  let validBits := bv.bitWidth % 4
  if validBits ≠ 0 ∧ 0 < hexStr.length then
    let topNibble := (tonumber16 (ssub hexStr 1 1)).getD 0
    (topNibble &&& (2 ^ validBits - 1)).digitChar :: hexStr.drop 1
  else hexStr

def BitVec.eq (bv other : BitVec) : Bool :=
  (List.range (max bv.u32Vec.length other.u32Vec.length)).all fun i =>
    beat bv.u32Vec i == beat other.u32Vec i

end Verilua.BitVecs
