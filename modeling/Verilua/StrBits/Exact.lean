import Mathlib.Data.Int.Bitwise
import Verilua.StrBits.Fields

/-!
# Strings of bits, with big integers

`libgmp` by what its manual says of the functions that `LibGMP.lua` declares, the methods of
`LibGMP.lua`, and the functions that `init_use_libgmp` puts into `StrBitsUtils.lua`.
-/

namespace Verilua.StrBits

/-- The functions `__gmpz_*`. Each method of `LibGMP.lua` writes its result to its first operand,
which here is the value that comes back. -/
structure Gmp where
  Mpz : Type
  value : Mpz → Int
  initSetStr : List Char → Nat → Mpz
  getStr : Nat → Mpz → List Char
  popcount : Mpz → Nat
  add : Mpz → Mpz → Mpz
  subUi : Mpz → Nat → Mpz
  mul2exp : Mpz → Nat → Mpz
  tdivQ2exp : Mpz → Nat → Mpz
  and : Mpz → Mpz → Mpz
  ior : Mpz → Mpz → Mpz
  xor : Mpz → Mpz → Mpz
  /-- A numeral of the base, in lower or upper case. -/
  value_initSetStr : ∀ {s : List Char} {b : Nat} {ds : List Nat}, 2 ≤ b → b ≤ 16 → s ≠ [] →
    s.mapM (hexVals.lookup ·) = some ds → (∀ d ∈ ds, d < b) →
      value (initSetStr s b) = Numeral.value b ds
  /-- In lower case and without leading zeros. -/
  getStr_eq : ∀ {z : Mpz} {b n : Nat}, 2 ≤ b → b ≤ 16 → value z = n →
    getStr b z = Nat.toDigits b n
  popcount_eq : ∀ {z : Mpz} {n : Nat}, value z = n → popcount z = (Nat.toDigits 2 n).count '1'
  value_add : ∀ x y, value (add x y) = value x + value y
  value_subUi : ∀ x (n : Nat), value (subUi x n) = value x - n
  value_mul2exp : ∀ x n, value (mul2exp x n) = value x * 2 ^ n
  value_tdivQ2exp : ∀ x n, value (tdivQ2exp x n) = (value x).tdiv (2 ^ n)
  value_and : ∀ x y, value (and x y) = Int.land (value x) (value y)
  value_ior : ∀ x y, value (ior x y) = Int.lor (value x) (value y)
  value_xor : ∀ x y, value (xor x y) = Int.xor (value x) (value y)

namespace Gmp

/-- The integers themselves. -/
def exact : Gmp where
  Mpz := Int
  value := id
  initSetStr s b := ((s.mapM (hexVals.lookup ·)).map (Numeral.value b)).getD 0
  getStr b z := if z < 0 then '-' :: Nat.toDigits b z.natAbs else Nat.toDigits b z.natAbs
  popcount z := (Nat.toDigits 2 z.natAbs).count '1'
  add := (· + ·)
  subUi z n := z - n
  mul2exp z n := z * 2 ^ n
  tdivQ2exp z n := z.tdiv (2 ^ n)
  and := Int.land
  ior := Int.lor
  xor := Int.xor
  value_initSetStr _ _ _ hds _ := by simp [hds]
  getStr_eq := by
    rintro z b n - - rfl
    rfl
  popcount_eq := by
    rintro z n rfl
    rfl
  value_add _ _ := rfl
  value_subUi _ _ := rfl
  value_mul2exp _ _ := rfl
  value_tdivQ2exp _ _ := rfl
  value_and _ _ := rfl
  value_ior _ _ := rfl
  value_xor _ _ := rfl

variable (g : Gmp)

/-! ### `LibGMP.lua` -/

def getHexStr (z : g.Mpz) : List Char := g.getStr 16 z

def lshift (z : g.Mpz) (n : Nat) : g.Mpz := g.mul2exp z n

def rshift (z : g.Mpz) (n : Nat) : g.Mpz := g.tdivQ2exp z n

/-- `init_set_str("1", 10)`, `lshift(length)` and `sub_ui(1)`. -/
def mask (length : Nat) : g.Mpz := g.subUi (g.lshift (g.initSetStr ['1'] 10) length) 1

def getBitfield (this : g.Mpz) (s e : Nat) : Option g.Mpz :=
  if e < s then none else some (g.and (g.rshift this s) (g.mask (e - s + 1)))

/-- The field is cleared by `(this | mask) ^ mask`, and the value, cut to the field, is put in. -/
def setBitfield (this : g.Mpz) (s e : Nat) (value : g.Mpz) : Option g.Mpz :=
  if e < s then none
  else
    let mask := g.lshift (g.mask (e - s + 1)) s
    let this := g.xor (g.ior this mask) mask
    let val := g.lshift (g.and value (g.rshift mask s)) s
    some (g.ior this val)

def setBitfieldStr (this : g.Mpz) (s e : Nat) (hexStr : List Char) : Option g.Mpz :=
  g.setBitfield this s e (g.initSetStr hexStr 16)

/-! ### `init_use_libgmp` -/

/-- How all but one of the functions end. -/
def fit (ret : List Char) : Option Nat → List Char
  | some bitwidth => adjustHexBitwidth ret bitwidth
  | none => trimLeadingZeros ret

def bitfieldHexStr (hexStr : List Char) (s e : Nat) (bitwidth : Option Nat) :
    Option (List Char) := do
  let hexStr := bitwidth.elim hexStr (adjustHexBitwidth hexStr)
  let ret ← g.getBitfield (g.initSetStr hexStr 16) s e
  return trimLeadingZeros (g.getHexStr ret)

def setBitfieldHexStr (hexStr : List Char) (s e : Nat) (valHexStr : List Char)
    (bitwidth : Option Nat) : Option (List Char) := do
  let ret ← g.setBitfieldStr (g.initSetStr hexStr 16) s e valHexStr
  return fit (g.getHexStr ret) bitwidth

def lshiftHexStr (hexStr : List Char) (n : Nat) (bitwidth : Option Nat) : List Char :=
  fit (g.getHexStr (g.lshift (g.initSetStr hexStr 16) n)) bitwidth

def rshiftHexStr (hexStr : List Char) (n : Nat) (bitwidth : Option Nat) : List Char :=
  let hexStr := bitwidth.elim hexStr (adjustHexBitwidth hexStr)
  fit (g.getHexStr (g.rshift (g.initSetStr hexStr 16) n)) bitwidth

/-- The body that `bor_hex_str`, `bxor_hex_str` and `band_hex_str` share. -/
def bitwiseHexStr (op : g.Mpz → g.Mpz → g.Mpz) (hexStr1 hexStr2 : List Char)
    (bitwidth : Option Nat) : List Char :=
  fit (g.getHexStr (op (g.initSetStr hexStr1 16) (g.initSetStr hexStr2 16))) bitwidth

def borHexStr : List Char → List Char → Option Nat → List Char := g.bitwiseHexStr g.ior

def bxorHexStr : List Char → List Char → Option Nat → List Char := g.bitwiseHexStr g.xor

def bandHexStr : List Char → List Char → Option Nat → List Char := g.bitwiseHexStr g.and

def bnotHexStr (hexStr : List Char) (bitwidth : Option Nat) : List Char :=
  let (hexStr, effectiveBitwidth) := match bitwidth with
    | some bitwidth => (adjustHexBitwidth hexStr bitwidth, bitwidth)
    | none => (hexStr, hexStr.length * 4)
  fit (g.getHexStr (g.xor (g.initSetStr hexStr 16) (g.mask effectiveBitwidth))) bitwidth

def addHexStr (hexStr1 hexStr2 : List Char) (bitwidth : Option Nat) : List Char × Bool :=
  let hexStr1 := bitwidth.elim hexStr1 (adjustHexBitwidth hexStr1)
  let hexStr2 := bitwidth.elim hexStr2 (adjustHexBitwidth hexStr2)
  let ret := g.getHexStr (g.add (g.initSetStr hexStr1 16) (g.initSetStr hexStr2 16))
  match bitwidth with
  | some bitwidth =>
    let maskedResult := g.getHexStr (g.and (g.initSetStr ret 16) (g.mask bitwidth))
    (adjustHexBitwidth maskedResult bitwidth, ret ≠ maskedResult)
  | none => (trimLeadingZeros ret, false)

def popcountHexStr (hexStr : List Char) : Nat := g.popcount (g.initSetStr hexStr 16)

end Gmp

end Verilua.StrBits

/-!
### What the functions with big integers return

Every number on the way is a natural number, and the functions of the library act on it as the
operations of arithmetic and on bits do. What is left at the end is the number in the register, or
its shortest numeral.
-/

namespace Verilua.StrBits.Gmp

variable (g : Gmp) {k l m n s e w : Nat} {x y : g.Mpz} {hexStr valHexStr : List Char}
  {bitwidth : Option Nat}

/-! ### Numbers -/

/-- The natural number that a big integer holds. -/
def Holds (x : g.Mpz) (n : Nat) : Prop := g.value x = n

variable {g}

lemma holds_initSetStr (hs : IsHex hexStr) (hne : hexStr ≠ []) :
    g.Holds (g.initSetStr hexStr 16) (hexValue hexStr) :=
  g.value_initSetStr (by norm_num) le_rfl hne (mapM_hexVals hs) digits_lt

lemma Holds.getHexStr (h : g.Holds x n) : g.getHexStr x = Nat.toDigits 16 n :=
  g.getStr_eq (by norm_num) le_rfl h

lemma Holds.add (hx : g.Holds x m) (hy : g.Holds y n) : g.Holds (g.add x y) (m + n) := by
  rw [Holds, g.value_add, hx, hy, Nat.cast_add]

lemma Holds.lshift (hx : g.Holds x m) (k : Nat) : g.Holds (g.lshift x k) (m * 2 ^ k) := by
  rw [Holds, Gmp.lshift, g.value_mul2exp, hx]
  push_cast
  rfl

lemma Holds.rshift (hx : g.Holds x m) (k : Nat) : g.Holds (g.rshift x k) (m / 2 ^ k) := by
  rw [Holds, Gmp.rshift, g.value_tdivQ2exp, hx, Int.tdiv_eq_ediv_of_nonneg (Int.natCast_nonneg m)]
  push_cast
  rfl

lemma Holds.and (hx : g.Holds x m) (hy : g.Holds y n) : g.Holds (g.and x y) (m &&& n) := by
  rw [Holds, g.value_and, hx, hy]
  rfl

lemma Holds.ior (hx : g.Holds x m) (hy : g.Holds y n) : g.Holds (g.ior x y) (m ||| n) := by
  rw [Holds, g.value_ior, hx, hy]
  rfl

lemma Holds.xor (hx : g.Holds x m) (hy : g.Holds y n) : g.Holds (g.xor x y) (m ^^^ n) := by
  rw [Holds, g.value_xor, hx, hy]
  rfl

lemma holds_mask (g : Gmp) (length : Nat) : g.Holds (g.mask length) (2 ^ length - 1) := by
  have hdigits : ['1'].mapM (hexVals.lookup ·) = some [1] := rfl
  have hone : g.Holds (g.initSetStr ['1'] 10) 1 :=
    g.value_initSetStr (by norm_num) (by norm_num) (by simp) hdigits (by simp)
  have hpow := hone.lshift length
  rw [Nat.one_mul] at hpow
  rw [Holds, Gmp.mask, g.value_subUi, hpow, Nat.cast_sub (Nat.two_pow_pos length)]

/-! ### Bit fields -/

lemma Holds.getBitfield (hx : g.Holds x m) (hse : s ≤ e) :
    ∃ field, g.getBitfield x s e = some field ∧
      g.Holds field (m / 2 ^ s % 2 ^ (e - s + 1)) := by
  refine ⟨_, by rw [Gmp.getBitfield, if_neg (not_lt.mpr hse)], ?_⟩
  rw [← Nat.and_two_pow_sub_one_eq_mod]
  exact (hx.rshift s).and (holds_mask g _)

lemma Holds.setBitfield (hx : g.Holds x m) (hy : g.Holds y n) (hse : s ≤ e) :
    ∃ field, g.setBitfield x s e y = some field ∧ g.Holds field (setBits m s e n) := by
  refine ⟨_, by rw [Gmp.setBitfield, if_neg (not_lt.mpr hse)], ?_⟩
  have hmask := (holds_mask g (e - s + 1)).lshift s
  have hback := hmask.rshift s
  rw [Nat.mul_div_cancel _ (Nat.two_pow_pos s)] at hback
  exact ((hx.ior hmask).xor hmask).ior ((hy.and hback).lshift s)

/-! ### Results -/

lemma isLower_toDigits (n : Nat) : IsLower (Nat.toDigits 16 n) := by
  obtain ⟨k, -, -, hspell⟩ := exists_spell (b := 16) (by norm_num) n
  rw [hspell]
  exact isLower_spell k n

lemma fit_toDigits (hbw : ∀ w ∈ bitwidth, 1 ≤ w) (n : Nat) :
    fit (Nat.toDigits 16 n) bitwidth = render bitwidth n := by
  cases bitwidth with
  | some w =>
    rw [fit, adjustHexBitwidth_of_isLower (hbw w rfl) (isLower_toDigits n), hexValue_toDigits,
      render]
  | none => rw [fit, trimLeadingZeros_toDigits (by norm_num), render]

lemma Holds.fit (hbw : ∀ w ∈ bitwidth, 1 ≤ w) (hx : g.Holds x n) :
    Gmp.fit (g.getHexStr x) bitwidth = render bitwidth n := by
  rw [hx.getHexStr, fit_toDigits hbw]

lemma ne_nil_adjustHexBitwidth (hw : 1 ≤ w) (s : List Char) : adjustHexBitwidth s w ≠ [] := by
  apply List.ne_nil_of_length_pos
  rw [length_adjustHexBitwidth hw]
  exact Nat.pos_of_ne_zero (bitwidthHexChars_pos hw)

lemma holds_masked (hbw : ∀ w ∈ bitwidth, 1 ≤ w) (hs : IsHex hexStr) (hne : hexStr ≠ []) :
    g.Holds (g.initSetStr (bitwidth.elim hexStr (adjustHexBitwidth hexStr)) 16)
      (cut bitwidth (hexValue hexStr)) := by
  cases bitwidth with
  | none => exact holds_initSetStr hs hne
  | some w =>
    have hw : 1 ≤ w := hbw w rfl
    rw [Option.elim_some, cut, Option.elim_some, ← hexValue_adjustHexBitwidth hw]
    exact holds_initSetStr (isHex_adjustHexBitwidth hw hs) (ne_nil_adjustHexBitwidth hw hexStr)

theorem bitfieldHexStr_eq (g : Gmp) (hbw : ∀ w ∈ bitwidth, 1 ≤ w) (hs : IsHex hexStr)
    (hne : hexStr ≠ []) (hse : s ≤ e) :
    g.bitfieldHexStr hexStr s e bitwidth =
      some (Nat.toDigits 16 (cut bitwidth (hexValue hexStr) / 2 ^ s % 2 ^ (e - s + 1))) := by
  obtain ⟨field, hget, hfield⟩ := (holds_masked (g := g) hbw hs hne).getBitfield hse
  rw [bitfieldHexStr, hget, Option.bind_eq_bind, Option.bind_some, hfield.getHexStr,
    trimLeadingZeros_toDigits (by norm_num)]
  rfl

theorem setBitfieldHexStr_eq (g : Gmp) (hbw : ∀ w ∈ bitwidth, 1 ≤ w) (hs : IsHex hexStr)
    (hne : hexStr ≠ []) (hval : IsHex valHexStr) (hvalne : valHexStr ≠ []) (hse : s ≤ e) :
    g.setBitfieldHexStr hexStr s e valHexStr bitwidth =
      some (render bitwidth (setBits (hexValue hexStr) s e (hexValue valHexStr))) := by
  obtain ⟨field, hset, hfield⟩ := (holds_initSetStr (g := g) hs hne).setBitfield
    (holds_initSetStr hval hvalne) hse
  rw [setBitfieldHexStr, setBitfieldStr, hset, Option.bind_eq_bind, Option.bind_some,
    hfield.fit hbw]
  rfl

theorem lshiftHexStr_eq (g : Gmp) (hbw : ∀ w ∈ bitwidth, 1 ≤ w) (hs : IsHex hexStr)
    (hne : hexStr ≠ []) (n : Nat) :
    g.lshiftHexStr hexStr n bitwidth = render bitwidth (hexValue hexStr * 2 ^ n) :=
  ((holds_initSetStr hs hne).lshift n).fit hbw

theorem rshiftHexStr_eq (g : Gmp) (hbw : ∀ w ∈ bitwidth, 1 ≤ w) (hs : IsHex hexStr)
    (hne : hexStr ≠ []) (n : Nat) :
    g.rshiftHexStr hexStr n bitwidth = render bitwidth (cut bitwidth (hexValue hexStr) / 2 ^ n) :=
  ((holds_masked hbw hs hne).rshift n).fit hbw

/-! ### Bits and sums -/

section Operands

variable {hexStr1 hexStr2 : List Char}

theorem borHexStr_eq (g : Gmp) (hbw : ∀ w ∈ bitwidth, 1 ≤ w) (h1 : IsHex hexStr1)
    (hne1 : hexStr1 ≠ []) (h2 : IsHex hexStr2) (hne2 : hexStr2 ≠ []) :
    g.borHexStr hexStr1 hexStr2 bitwidth =
      render bitwidth (hexValue hexStr1 ||| hexValue hexStr2) :=
  ((holds_initSetStr h1 hne1).ior (holds_initSetStr h2 hne2)).fit hbw

theorem bxorHexStr_eq (g : Gmp) (hbw : ∀ w ∈ bitwidth, 1 ≤ w) (h1 : IsHex hexStr1)
    (hne1 : hexStr1 ≠ []) (h2 : IsHex hexStr2) (hne2 : hexStr2 ≠ []) :
    g.bxorHexStr hexStr1 hexStr2 bitwidth =
      render bitwidth (hexValue hexStr1 ^^^ hexValue hexStr2) :=
  ((holds_initSetStr h1 hne1).xor (holds_initSetStr h2 hne2)).fit hbw

theorem bandHexStr_eq (g : Gmp) (hbw : ∀ w ∈ bitwidth, 1 ≤ w) (h1 : IsHex hexStr1)
    (hne1 : hexStr1 ≠ []) (h2 : IsHex hexStr2) (hne2 : hexStr2 ≠ []) :
    g.bandHexStr hexStr1 hexStr2 bitwidth =
      render bitwidth (hexValue hexStr1 &&& hexValue hexStr2) :=
  ((holds_initSetStr h1 hne1).and (holds_initSetStr h2 hne2)).fit hbw

theorem bnotHexStr_eq (g : Gmp) (hbw : ∀ w ∈ bitwidth, 1 ≤ w) (hs : IsHex hexStr)
    (hne : hexStr ≠ []) :
    g.bnotHexStr hexStr bitwidth = render bitwidth
      (cut bitwidth (hexValue hexStr) ^^^ (2 ^ effectiveBitwidth hexStr bitwidth - 1)) := by
  have hmask := holds_mask g (effectiveBitwidth hexStr bitwidth)
  have hresult := ((holds_masked hbw hs hne).xor hmask).fit hbw
  cases bitwidth <;> exact hresult

lemma toDigits_inj : Nat.toDigits 16 m = Nat.toDigits 16 n ↔ m = n :=
  ⟨fun h => by rw [← hexValue_toDigits m, h, hexValue_toDigits], fun h => h ▸ rfl⟩

theorem addHexStr_eq (g : Gmp) (hbw : ∀ w ∈ bitwidth, 1 ≤ w) (h1 : IsHex hexStr1)
    (hne1 : hexStr1 ≠ []) (h2 : IsHex hexStr2) (hne2 : hexStr2 ≠ []) :
    g.addHexStr hexStr1 hexStr2 bitwidth =
      (render bitwidth (cut bitwidth (hexValue hexStr1) + cut bitwidth (hexValue hexStr2)),
        bitwidth.elim false fun w => decide (2 ^ w ≤
          cut bitwidth (hexValue hexStr1) + cut bitwidth (hexValue hexStr2))) := by
  have hsum := (holds_masked (g := g) hbw h1 hne1).add (holds_masked hbw h2 hne2)
  generalize cut bitwidth (hexValue hexStr1) + cut bitwidth (hexValue hexStr2) = sum at hsum ⊢
  rw [addHexStr.eq_def]
  dsimp only
  rw [hsum.getHexStr]
  cases bitwidth with
  | none =>
    dsimp only
    rw [trimLeadingZeros_toDigits (by norm_num)]
    rfl
  | some w =>
    have hagain : g.Holds (g.initSetStr (Nat.toDigits 16 sum) 16) sum := by
      have hne : Nat.toDigits 16 sum ≠ [] := by
        obtain ⟨ds, hne, -, -, hdigits⟩ := Numeral.exists_toDigits (b := 16) (by norm_num) sum
        rw [hdigits]
        simpa using hne
      have hinit := holds_initSetStr (g := g) (isHex_toDigits sum) hne
      rwa [hexValue_toDigits] at hinit
    have hmasked := hagain.and (holds_mask g w)
    rw [Nat.and_two_pow_sub_one_eq_mod] at hmasked
    dsimp only
    have hrender := fit_toDigits hbw (sum % 2 ^ w)
    rw [fit] at hrender
    rw [hmasked.getHexStr, hrender, render, render, Nat.mod_mod, Option.elim_some]
    congr 1
    rw [decide_eq_decide, ne_eq, toDigits_inj, eq_comm, Nat.mod_eq_iff_lt (Nat.two_pow_pos w).ne',
      not_lt]

theorem popcountHexStr_eq (g : Gmp) (hs : IsHex hexStr) (hne : hexStr ≠ []) :
    g.popcountHexStr hexStr = (Nat.toDigits 2 (hexValue hexStr)).count '1' :=
  g.popcount_eq (holds_initSetStr hs hne)

end Operands

end Verilua.StrBits.Gmp
