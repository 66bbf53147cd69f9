import Verilua.Lib.Numeral
import Verilua.Put.Basic

/-!
# Reading a value of the waveform

`vpi_get_value` of the two backends of `wave_vpi`. The slow paths format the bits that the waveform
library gives for the signal, `wellen_vpi_get_value_from_index` and the part of the FSDB function
behind `ReadFromFSDB`; the fast path formats a 32-bit integer that the JIT worker has taken from the
same bits.
-/

namespace Verilua.Wave

open Put (VecVal)

/-- A bit of a value, `FSDB_BT_VCD_*`. -/
inductive Bit
  | zero
  | one
  | x
  | z
  deriving DecidableEq, Repr

def Bit.toNat : Bit → Nat
  | .one => 1
  | _ => 0

def Bit.char : Bit → Char
  | .zero => '0'
  | .one => '1'
  | .x => 'x'
  | .z => 'z'

/-- Neither X nor Z. -/
def Bit.isTwoState : Bit → Bool
  | .zero | .one => true
  | .x | .z => false

/-- `value_p->format` -/
inductive Format
  | vpiIntVal
  | vpiVectorVal
  | vpiHexStrVal
  | vpiBinStrVal
  | vpiDecStrVal
  deriving DecidableEq, Repr

/-- What `value_p->value` holds or points to; an integer by its bits, a string by its characters. -/
inductive Value
  | integer (n : UInt32)
  | vector (words : List VecVal)
  | str (s : List Char)
  deriving DecidableEq, Repr

def Bit.number (bits : List Bit) : Nat := Numeral.value 2 (bits.map Bit.toNat)

/-! ### The fast path -/

/-- `uint32_to_hex_str`, which is `std::to_chars`. The buffer of 8 holds every value. -/
def uint32ToHexStr (value : UInt32) : List Char := Nat.toDigits 16 value.toNat

def uint32ToDecStr (value : UInt32) : List Char := Nat.toDigits 10 value.toNat

/-- `_buffer[bitSize - 1 - i] = (value & (1 << i)) ? '1' : '0'` -/
def uint32ToBinStr (bitSize : Nat) (value : UInt32) : List Char :=
  (List.range bitSize).reverse.map fun i =>
    if value &&& (1 <<< UInt32.ofNat i) ≠ 0 then '1' else '0'

/-- `vpi_get_value` from an entry of `optValueVec`; the same code in both backends. -/
def readFromOpt (bitSize : Nat) (entry : UInt32) : Format → Value
  | .vpiIntVal => .integer entry
  | .vpiVectorVal => .vector [⟨entry, 0⟩]
  | .vpiHexStrVal => .str (uint32ToHexStr entry)
  | .vpiBinStrVal => .str (uint32ToBinStr bitSize entry)
  | .vpiDecStrVal => .str (uint32ToDecStr entry)

/-! ### `wellen_impl` -/

/-- A value as the library `wellen` gives it: `to_bit_string` spells `bits`, and `be_bytes` is the
same number where the value is 2-state. -/
structure BitVecRef where
  bits : List Bit
  bits_ne_nil : bits ≠ []
  beBytes : List UInt8
  length_beBytes : beBytes.length = (bits.length + 7) / 8
  value_beBytes : bits.all Bit.isTwoState = true →
    Numeral.value 256 (beBytes.map UInt8.toNat) = Bit.number bits

namespace BitVecRef

def width (bv : BitVecRef) : Nat := bv.bits.length

/-- `bv.states() == States::Two` -/
def isTwoState (bv : BitVecRef) : Bool := bv.bits.all Bit.isTwoState

def toBitString (bv : BitVecRef) : List Char := bv.bits.map Bit.char

end BitVecRef

def oneBit : BitVecRef := ⟨[.one], by decide, [1], rfl, fun _ => rfl⟩

/-- `BigEndian::read_u32` and `u32::from_be_bytes`. -/
def readU32 (bytes : List UInt8) : UInt32 :=
  UInt32.ofNat (Numeral.value 256 (bytes.map UInt8.toNat))

/-- `first_word |= (byte as u32) << ((n - 1 - i) * 8)` for the `n` bytes. -/
def firstWord (word : UInt32) : List UInt8 → UInt32
  | [] => word
  | byte :: rest => firstWord (word ||| byte.toUInt32 <<< UInt32.ofNat (rest.length * 8)) rest

def chunksExact : List UInt8 → List UInt32
  | a :: b :: c :: d :: rest => readU32 [a, b, c, d] :: chunksExact rest
  | _ => []

def bytesToU32sBe (bytes : List UInt8) : List UInt32 :=
  let padding := (4 - bytes.length % 4) % 4
  if 0 < padding then
    firstWord 0 (bytes.take (4 - padding)) :: chunksExact (bytes.drop (4 - padding))
  else chunksExact bytes

def bytesLastU32Be (bytes : List UInt8) : UInt32 :=
  if 4 ≤ bytes.length then readU32 (bytes.drop (bytes.length - 4))
  else readU32 (List.replicate (4 - bytes.length) 0 ++ bytes)

/-- `wellen_get_int_value`, which fills `optValueVec`. `none` is a time before the first value. -/
def wellenGetIntValue : Option BitVecRef → UInt32
  | some bv => if bv.isTwoState then bytesLastU32Be bv.beBytes else 0
  | none => 0

/-- `nibble = (nibble << 1) | (byte - b'0')` -/
def nibble (chars : List Char) : Nat :=
  chars.foldl (fun nibble c => nibble <<< 1 ||| (c.toNat - '0'.toNat)) 0

def hexChar (nibble : Nat) : Char :=
  if nibble < 10 then Char.ofNat ('0'.toNat + nibble) else Char.ofNat ('a'.toNat + nibble - 10)

/-- The loop over the chunks of four. -/
def hexChunks : List Char → List Char
  | [] => []
  | a :: b :: c :: d :: rest => hexChar (nibble [a, b, c, d]) :: hexChunks rest
  | rest => [hexChar (nibble rest)]

def bitStringToHex (chars : List Char) : List Char :=
  let padding := (4 - chars.length % 4) % 4
  if 0 < padding then
    hexChar (nibble (chars.take (4 - padding))) :: hexChunks (chars.drop (4 - padding))
  else hexChunks chars

def hexCharXz (chunk : List Char) : Char :=
  if 'x' ∈ chunk then 'x' else if 'z' ∈ chunk then 'z' else hexChar (nibble chunk)

def hexChunksXz : List Char → List Char
  | a :: b :: c :: d :: rest => hexCharXz [a, b, c, d] :: hexChunksXz rest
  | _ => []

def bitStringToHexWithXz (chars : List Char) : List Char :=
  if chars.length = 0 then ['0']
  else hexChunksXz (List.replicate ((4 - chars.length % 4) % 4) '0' ++ chars)

/-- The branch of 2-state values; `words` is not empty. -/
def wellenTwoState (bv : BitVecRef) : Format → Value
  | .vpiVectorVal => .vector ((bytesToU32sBe bv.beBytes).reverse.map fun word => ⟨word, 0⟩)
  | .vpiIntVal => .integer ((bytesToU32sBe bv.beBytes).getLastD 0)
  | .vpiHexStrVal => .str (bitStringToHex bv.toBitString)
  | .vpiBinStrVal => .str bv.toBitString
  | .vpiDecStrVal => .str (Nat.toDigits 10 ((bytesToU32sBe bv.beBytes).getLastD 0).toNat)

/-- The branch of values with an X or Z. A hexadecimal string without X and Z is the number of its
bits. -/
def wellenFourState (bv : BitVecRef) : Format → Value
  | .vpiVectorVal => .vector (List.replicate ((bv.width + 31) / 32) .zero)
  | .vpiIntVal => .integer 0
  | .vpiHexStrVal => .str (bitStringToHexWithXz bv.toBitString)
  | .vpiBinStrVal => .str bv.toBitString
  | .vpiDecStrVal =>
    let hex := bitStringToHexWithXz bv.toBitString
    if 'x' ∈ hex ∨ 'z' ∈ hex then .str ['x']
    else if Bit.number bv.bits < 2 ^ 128 then .str (Nat.toDigits 10 (Bit.number bv.bits))
    else .str ['x']

/-- `wellen_vpi_get_value_from_index` with the value at the index. -/
def wellenVpiGetValueFromIndex : Option BitVecRef → Format → Value
  | some bv, format => if bv.isTwoState then wellenTwoState bv format else wellenFourState bv format
  | none, .vpiVectorVal => .vector [.zero]
  | none, .vpiIntVal => .integer 0
  | none, .vpiHexStrVal => .str ['0']
  | none, .vpiBinStrVal => .str ['0']
  | none, .vpiDecStrVal => .str ['0']

/-! ### FSDB -/

/-- `value += 1 << (bitSize - i - 1)` for each bit that is set. -/
def fsdbSum (value : UInt32) : List Bit → UInt32
  | [] => value
  | bit :: rest =>
    fsdbSum (if bit = .one then value + 1 <<< UInt32.ofNat rest.length else value) rest

/-- What `optFunc` of `fsdbOptThreadTask` writes for the bits `retVC`. -/
def fsdbOptValue : List Bit → UInt32
  | [bit] => if bit = .one then 1 else 0
  | retVC => fsdbSum 0 retVC

/-- The loop of `vpiVectorVal`, which takes the last bit first. -/
structure VectorLoop where
  words : List VecVal
  tmpVal : UInt32
  tmpIdx : Nat

def VectorLoop.take (bit : Bit) (s : VectorLoop) : VectorLoop :=
  let tmpVal := if bit = .one then s.tmpVal + 1 <<< UInt32.ofNat s.tmpIdx else s.tmpVal
  if s.tmpIdx + 1 = 32 then ⟨s.words ++ [⟨tmpVal, 0⟩], 0, 0⟩ else ⟨s.words, tmpVal, s.tmpIdx + 1⟩

def fsdbVector (retVC : List Bit) : List VecVal :=
  let s := retVC.foldr VectorLoop.take ⟨[], 0, 0⟩
  if s.tmpIdx ≠ 0 then s.words ++ [⟨s.tmpVal, 0⟩] else s.words

/-- The loop of `vpiHexStrVal`, which takes the last bit first and writes the buffer from its end:
`buffer` is what has been written. -/
structure HexLoop where
  buffer : List Char
  tmpVal : Nat
  tmpIdx : Nat
  hasX : Bool
  hasZ : Bool

/-- `hexLookUpTable` -/
def HexLoop.digit (s : HexLoop) : Char :=
  if s.hasX then 'x' else if s.hasZ then 'z'
  else ['0', '1', '2', '3', '4', '5', '6', '7', '8', '9', 'a', 'b', 'c', 'd', 'e', 'f'].getD
    s.tmpVal '0'

def HexLoop.init : HexLoop := ⟨[], 0, 0, false, false⟩

def HexLoop.take (bit : Bit) (s : HexLoop) : HexLoop :=
  let s := { s with
    tmpVal := if bit = .one then s.tmpVal + 1 <<< s.tmpIdx else s.tmpVal
    tmpIdx := s.tmpIdx + 1
    hasX := s.hasX || decide (bit = .x)
    hasZ := s.hasZ || decide (bit = .z) }
  if s.tmpIdx = 4 then ⟨s.digit :: s.buffer, 0, 0, false, false⟩ else s

def fsdbHexStr (retVC : List Bit) : List Char :=
  let s := retVC.foldr HexLoop.take HexLoop.init
  if s.tmpIdx ≠ 0 then s.digit :: s.buffer else s.buffer

/-- The part of `vpi_get_value` behind `ReadFromFSDB`. -/
def readFromFSDB (retVC : List Bit) : Format → Value
  | .vpiIntVal => .integer (fsdbSum 0 retVC)
  | .vpiVectorVal => .vector (fsdbVector retVC)
  | .vpiHexStrVal => .str (fsdbHexStr retVC)
  | .vpiBinStrVal => .str (retVC.map Bit.char)
  | .vpiDecStrVal =>
    if retVC.all Bit.isTwoState then .str (Nat.toDigits 10 (Bit.number retVC)) else .str ['x']

end Verilua.Wave
