import Verilua.Lib.Fixed

/-!
# Strings of bits, in Lua

The functions of `StrBitsUtils.lua` as the module defines them, before `init_use_libgmp` replaces
them, and the functions of `LuaUtils.lua` that they call. A string is the list of its characters; a
Lua error is `none`.
-/

namespace Verilua.StrBits

/-! ### `string` -/

/-- `srep("0", n)` -/
def srep (n : Nat) : List Char := List.replicate n '0'

/-- `ssub(s, i, j)`. Positions count from 1, and 0 stands for 1. -/
def ssub (s : List Char) (i j : Nat) : List Char := (s.take j).drop (i - 1)

/-- `ssub(s, -n)`, which for `-0` is the whole string. -/
def ssubLast (s : List Char) (n : Nat) : List Char := if n = 0 then s else s.drop (s.length - n)

/-- `f("%x", n)` -/
def formatHex (n : UInt64) : List Char := Nat.toDigits 16 n.toNat

/-! ### `LuaUtils.lua` -/

def hexToBinMap : List (Char × List Char) :=
  [('0', ['0', '0', '0', '0']), ('1', ['0', '0', '0', '1']), ('2', ['0', '0', '1', '0']),
    ('3', ['0', '0', '1', '1']), ('4', ['0', '1', '0', '0']), ('5', ['0', '1', '0', '1']),
    ('6', ['0', '1', '1', '0']), ('7', ['0', '1', '1', '1']), ('8', ['1', '0', '0', '0']),
    ('9', ['1', '0', '0', '1']), ('A', ['1', '0', '1', '0']), ('B', ['1', '0', '1', '1']),
    ('C', ['1', '1', '0', '0']), ('D', ['1', '1', '0', '1']), ('E', ['1', '1', '1', '0']),
    ('F', ['1', '1', '1', '1']), ('a', ['1', '0', '1', '0']), ('b', ['1', '0', '1', '1']),
    ('c', ['1', '1', '0', '0']), ('d', ['1', '1', '0', '1']), ('e', ['1', '1', '1', '0']),
    ('f', ['1', '1', '1', '1'])]

def binToHexMap : List (List Char × Char) :=
  [(['0', '0', '0', '0'], '0'), (['0', '0', '0', '1'], '1'), (['0', '0', '1', '0'], '2'),
    (['0', '0', '1', '1'], '3'), (['0', '1', '0', '0'], '4'), (['0', '1', '0', '1'], '5'),
    (['0', '1', '1', '0'], '6'), (['0', '1', '1', '1'], '7'), (['1', '0', '0', '0'], '8'),
    (['1', '0', '0', '1'], '9'), (['1', '0', '1', '0'], 'a'), (['1', '0', '1', '1'], 'b'),
    (['1', '1', '0', '0'], 'c'), (['1', '1', '0', '1'], 'd'), (['1', '1', '1', '0'], 'e'),
    (['1', '1', '1', '1'], 'f')]

/-- `error("Invalid hex character")` where a character is not in the map. -/
def hexToBin (hexStr : List Char) : Option (List Char) :=
  (hexStr.mapM (hexToBinMap.lookup ·)).map List.flatten

/-- The groups `ssub(bin_str, start_pos, start_pos + 3)`. -/
def fourBits : List Char → List (List Char)
  | a :: b :: c :: d :: rest => [a, b, c, d] :: fourBits rest
  | _ => []

def binStrToHexStr (binStr : List Char) : Option (List Char) :=
  let remainder := binStr.length % 4
  let binStr := if remainder ≠ 0 then srep (4 - remainder) ++ binStr else binStr
  (fourBits binStr).mapM (binToHexMap.lookup ·)

/-! ### Helpers -/

def trimLeadingZeros (s : List Char) : List Char :=
  match s.dropWhile (· == '0') with
  | [] => ['0']
  | trimmed => trimmed

def adjustBinBitwidth (binStr : List Char) (bitwidth : Nat) : List Char :=
  if bitwidth < binStr.length then ssubLast binStr bitwidth
  else if binStr.length < bitwidth then srep (bitwidth - binStr.length) ++ binStr
  else binStr

/-- `HEX_VALS` -/
def hexVals : List (Char × Nat) :=
  [('0', 0), ('1', 1), ('2', 2), ('3', 3), ('4', 4), ('5', 5), ('6', 6), ('7', 7), ('8', 8),
    ('9', 9), ('a', 10), ('b', 11), ('c', 12), ('d', 13), ('e', 14), ('f', 15), ('A', 10),
    ('B', 11), ('C', 12), ('D', 13), ('E', 14), ('F', 15)]

/-- `tonumber(s, 16)`, which is `nil` where `s` is empty or not a numeral. -/
def tonumber16 (s : List Char) : Option Nat :=
  if s = [] then none else (s.mapM (hexVals.lookup ·)).map (Numeral.value 16)

/-- A Lua number holds 13 hexadecimal digits exactly; above that the string is split. -/
def hexStrToUll (hexStr : List Char) : UInt64 :=
  if hexStr.length ≤ 13 then UInt64.ofNat ((tonumber16 hexStr).getD 0)
  else
    let splitPos := hexStr.length - 13
    let highStr := hexStr.take splitPos
    let lowStr := hexStr.drop splitPos
    let high := UInt64.ofNat ((tonumber16 highStr).getD 0)
    let low := UInt64.ofNat ((tonumber16 lowStr).getD 0)
    high <<< UInt64.ofNat (lowStr.length * 4) + low

/-- `math_ceil(bitwidth / 4)` -/
def bitwidthHexChars (bitwidth : Nat) : Nat := (bitwidth + 3) / 4

/-- `bit_lshift(1, bitwidth % 4) - 1` -/
def nibbleMask (bitwidth : Nat) : Nat := 1 <<< (bitwidth % 4) - 1

def adjustHexBitwidth (hexStr : List Char) (bitwidth : Nat) : List Char :=
  let chars := bitwidthHexChars bitwidth
  let hexStr := if chars < hexStr.length then ssubLast hexStr chars else hexStr
  let hexStr :=
    if hexStr.length < chars then srep (chars - hexStr.length) ++ hexStr else hexStr
  if bitwidth % 4 ≠ 0 then
    let firstVal := (hexStr.head?.bind (hexVals.lookup ·)).getD 0
    let maskedVal := firstVal &&& nibbleMask bitwidth
    if maskedVal ≠ firstVal then Nat.digitChar maskedVal :: hexStr.drop 1 else hexStr
  else hexStr

/-! ### Bit fields and shifts -/

def padBin (binStr : List Char) (bitwidth : Option Nat) : List Char :=
  match bitwidth with
  | some bitwidth =>
    if binStr.length < bitwidth then srep (bitwidth - binStr.length) ++ binStr else binStr
  | none => binStr

def bitfieldHexStr (hexStr : List Char) (s e : Nat) (bitwidth : Option Nat) :
    Option (List Char) := do
  let binStr := padBin (← hexToBin hexStr) bitwidth
  let len := binStr.length
  if len < s ∨ len < e ∨ e < s then none
  else
    let binResult := ssub binStr (len - e) (len - s)
    binStrToHexStr (if binResult = [] then ['0'] else binResult)

/-- The string with the bits `s` to `e` replaced: position 1 is the most significant bit. -/
def replaceBits (binStr : List Char) (s e : Nat) (valBinStr : List Char) : List Char :=
  let startIdx := binStr.length - e
  let endIdx := binStr.length - s
  ssub binStr 1 (startIdx - 1) ++ valBinStr ++ binStr.drop endIdx

def setBitfieldHexStr (hexStr : List Char) (s e : Nat) (valHexStr : List Char)
    (bitwidth : Option Nat) : Option (List Char) := do
  let binStr := padBin (← hexToBin hexStr) bitwidth
  -- without a bit width the string grows to hold the field
  let binStr :=
    if bitwidth = none ∧ binStr.length ≤ e then srep (e - binStr.length + 1) ++ binStr else binStr
  if binStr.length ≤ s ∨ binStr.length ≤ e ∨ e < s then none
  else
    let valBinStr ← hexToBin valHexStr
    let valWidth := e - s + 1
    let valBinStr :=
      if valBinStr.length < valWidth then srep (valWidth - valBinStr.length) ++ valBinStr
      else if valWidth < valBinStr.length then ssubLast valBinStr valWidth
      else valBinStr
    binStrToHexStr (replaceBits binStr s e valBinStr)

def lshiftHexStr (hexStr : List Char) (n : Nat) (bitwidth : Option Nat) : Option (List Char) :=
  if n = 0 then
    match bitwidth with
    | some bitwidth => do binStrToHexStr (adjustBinBitwidth (← hexToBin hexStr) bitwidth)
    | none => some hexStr
  else do
    let shiftedBin := (← hexToBin hexStr) ++ srep n
    match bitwidth with
    | some bitwidth => binStrToHexStr (adjustBinBitwidth shiftedBin bitwidth)
    | none => return trimLeadingZeros (← binStrToHexStr shiftedBin)

def rshiftHexStr (hexStr : List Char) (n : Nat) (bitwidth : Option Nat) :
    Option (List Char) := do
  let binStr ← hexToBin hexStr
  let binStr := bitwidth.elim binStr (adjustBinBitwidth binStr)
  let len := binStr.length
  if len ≤ n then return ['0']
  else
    let shiftedBin := ssub binStr 1 (len - n)
    match bitwidth with
    | some bitwidth => binStrToHexStr (adjustBinBitwidth shiftedBin bitwidth)
    | none => return trimLeadingZeros (← binStrToHexStr shiftedBin)

/-! ### Words of 64 bits -/

/-- The operands masked to the bit width, and padded to one length, which is the third part. -/
def operands (hexStr1 hexStr2 : List Char) (bitwidth : Option Nat) :
    List Char × List Char × Nat :=
  let (hexStr1, hexStr2, least) := match bitwidth with
    | some bitwidth =>
      (adjustHexBitwidth hexStr1 bitwidth, adjustHexBitwidth hexStr2 bitwidth,
        bitwidthHexChars bitwidth)
    | none => (hexStr1, hexStr2, 0)
  let len1 := hexStr1.length
  let len2 := hexStr2.length
  let maxLen := max (max len1 len2) least
  if len1 < maxLen then (srep (maxLen - len1) ++ hexStr1, hexStr2, maxLen)
  else if len2 < maxLen then (hexStr1, srep (maxLen - len2) ++ hexStr2, maxLen)
  else (hexStr1, hexStr2, maxLen)

/-- Chunk `k` from the right, `ssub(hex_str, start_pos, end_pos)`. -/
def chunk (hexStr : List Char) (maxLen k : Nat) : List Char :=
  let endPos := maxLen - k * 16
  ssub hexStr (max (endPos + 1 - 16) 1) endPos

/-- `end_pos - start_pos + 1` -/
def chunkLen (maxLen k : Nat) : Nat :=
  let endPos := maxLen - k * 16
  endPos - max (endPos + 1 - 16) 1 + 1

def padChunk (hexResult : List Char) (chunkLen : Nat) : List Char :=
  if hexResult.length < chunkLen then srep (chunkLen - hexResult.length) ++ hexResult
  else hexResult

/-- `math_ceil(max_len / chunk_size)` -/
def numChunks (maxLen : Nat) : Nat := (maxLen + 15) / 16

/-- `table_concat(result_parts)` after `numChunks` rounds of the loop. -/
def concatChunks (part : Nat → List Char) : Nat → List Char
  | 0 => []
  | k + 1 => part k ++ concatChunks part k

/-- The most significant nibble masked where the bit width is not a multiple of 4. -/
def maskFirstNibble (result : List Char) (bitwidth : Nat) : List Char :=
  if bitwidth % 4 ≠ 0 then
    Nat.toDigits 16 ((tonumber16 (ssub result 1 1)).getD 0 &&& nibbleMask bitwidth) ++
      result.drop 1
  else result

def fitChars (result : List Char) (chars : Nat) : List Char :=
  if chars < result.length then ssubLast result chars
  else if result.length < chars then srep (chars - result.length) ++ result
  else result

/-- The body that `bor_hex_str`, `bxor_hex_str` and `band_hex_str` share. -/
def bitwiseHexStr (op : UInt64 → UInt64 → UInt64) (hexStr1 hexStr2 : List Char)
    (bitwidth : Option Nat) : List Char :=
  let (hexStr1, hexStr2, maxLen) := operands hexStr1 hexStr2 bitwidth
  let part := fun k =>
    padChunk (formatHex (op (hexStrToUll (chunk hexStr1 maxLen k))
      (hexStrToUll (chunk hexStr2 maxLen k)))) (chunkLen maxLen k)
  let result := concatChunks part (numChunks maxLen)
  match bitwidth with
  | some bitwidth => maskFirstNibble (fitChars result (bitwidthHexChars bitwidth)) bitwidth
  | none => trimLeadingZeros result

def borHexStr : List Char → List Char → Option Nat → List Char := bitwiseHexStr (· ||| ·)

def bxorHexStr : List Char → List Char → Option Nat → List Char := bitwiseHexStr (· ^^^ ·)

def bandHexStr : List Char → List Char → Option Nat → List Char := bitwiseHexStr (· &&& ·)

def bnotHexStr (hexStr : List Char) (bitwidth : Option Nat) : List Char :=
  let (hexStr, effectiveBitwidth) := match bitwidth with
    | some bitwidth => (adjustHexBitwidth hexStr bitwidth, bitwidth)
    | none => (hexStr, hexStr.length * 4)
  let chars := bitwidthHexChars effectiveBitwidth
  let hexStr :=
    if hexStr.length < chars then srep (chars - hexStr.length) ++ hexStr else hexStr
  let hexLen := hexStr.length
  let part := fun k =>
    -- the complement has 64 bits, and the chunk may have fewer
    fitChars (formatHex (~~~ hexStrToUll (chunk hexStr hexLen k))) (chunkLen hexLen k)
  let result := maskFirstNibble (concatChunks part (numChunks hexLen)) effectiveBitwidth
  if bitwidth.isSome then fitChars result chars else trimLeadingZeros result

/-- `has_overflow` and the sum of a chunk, wrapped. -/
def addChunk (num1 num2 carry : UInt64) (chunkLen : Nat) : Bool × UInt64 :=
  let sum := num1 + num2 + carry
  if 16 ≤ chunkLen then (sum < num1 ∨ (0 < carry ∧ sum ≤ num1), sum)
  else
    let maxChunkVal : UInt64 := 1 <<< UInt64.ofNat (chunkLen * 4) - 1
    if maxChunkVal < sum then (true, sum - 1 <<< UInt64.ofNat (chunkLen * 4)) else (false, sum)

/-- The round of the loop for chunk `k`, after those to its right. -/
def addRound (hexStr1 hexStr2 : List Char) (maxLen k : Nat) (done : List Char × UInt64) :
    List Char × UInt64 :=
  let len := chunkLen maxLen k
  let (hasOverflow, sum) := addChunk (hexStrToUll (chunk hexStr1 maxLen k))
    (hexStrToUll (chunk hexStr2 maxLen k)) done.2 len
  (padChunk (formatHex sum) len ++ done.1, if hasOverflow then 1 else 0)

/-- The string and the carry after that many rounds. -/
def addChunks (hexStr1 hexStr2 : List Char) (maxLen : Nat) : Nat → List Char × UInt64
  | 0 => ([], 0)
  | k + 1 => addRound hexStr1 hexStr2 maxLen k (addChunks hexStr1 hexStr2 maxLen k)

/-- `first_nibble ~= masked_nibble` -/
def exceedsNibble (result : List Char) (bitwidth : Nat) : Bool :=
  let firstNibble := (tonumber16 (ssub result 1 1)).getD 0
  bitwidth % 4 ≠ 0 ∧ firstNibble ≠ firstNibble &&& nibbleMask bitwidth

def addHexStr (hexStr1 hexStr2 : List Char) (bitwidth : Option Nat) : List Char × Bool :=
  let (hexStr1, hexStr2, maxLen) := operands hexStr1 hexStr2 bitwidth
  let (parts, carry) := addChunks hexStr1 hexStr2 maxLen (numChunks maxLen)
  let finalCarry := 0 < carry
  let result := if finalCarry then '1' :: parts else parts
  match bitwidth with
  | some bitwidth =>
    let chars := bitwidthHexChars bitwidth
    let (bitwidthCarry, result) :=
      if finalCarry then
        let result := result.drop 1
        (true, if chars < result.length then ssubLast result chars else result)
      else if chars < result.length then (true, ssubLast result chars)
      else (false, result)
    let bitwidthCarry := exceedsNibble result bitwidth || bitwidthCarry
    let result := maskFirstNibble result bitwidth
    (if result.length < chars then srep (chars - result.length) ++ result else result,
      bitwidthCarry)
  | none => (trimLeadingZeros result, false)

def popcountHexStr (hexStr : List Char) : Option Nat := do
  return (← hexToBin hexStr).count '1'

end Verilua.StrBits
