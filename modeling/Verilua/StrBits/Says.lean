import Verilua.StrBits.Agree

/-!
# What the returned strings say

A string says a number when its digits denote it. With a bit width the string has as many digits as
the register has, without one it has no superfluous zero in front.
-/

namespace Verilua.StrBits

variable {n s e w : Nat} {t : List Char} {bitwidth : Option Nat}

/-- No zero in front that could be left out. -/
def IsTrimmed (t : List Char) : Prop := t ≠ [] ∧ (t.length = 1 ∨ t.head? ≠ some '0')

instance (t : List Char) : Decidable (IsTrimmed t) := inferInstanceAs (Decidable (_ ∧ _))

/-- The string denotes the number, in the form for the bit width. -/
structure Says (bitwidth : Option Nat) (n : Nat) (t : List Char) : Prop where
  isHex : IsHex t
  hexValue_eq : hexValue t = n
  length_eq : ∀ w ∈ bitwidth, t.length = bitwidthHexChars w
  isTrimmed : bitwidth = none → IsTrimmed t

/-- Moreover all digits are in lower case. -/
structure Prints (bitwidth : Option Nat) (n : Nat) (t : List Char) : Prop
    extends Says bitwidth n t where
  isUpper_eq : ∀ c ∈ t, c.isUpper = false

lemma HexStr.isCanonical_iff (h : HexStr) :
    h.IsCanonical ↔ (∀ c ∈ h.chars, c.isUpper = false) ∧ IsTrimmed h.chars := by
  rw [HexStr.IsCanonical, IsTrimmed, List.head?_eq_some_head h.ne_nil]
  simp [h.ne_nil]

lemma prints_toDigits (n : Nat) : Prints none n (Nat.toDigits 16 n) := by
  have hne : Nat.toDigits 16 n ≠ [] := List.ne_nil_of_length_pos Nat.length_toDigits_pos
  have hcanonical : (HexStr.mk _ hne (isHex_toDigits n)).IsCanonical := by
    rw [← HexStr.eq_toDigits_iff, HexStr.value, hexValue_toDigits]
  obtain ⟨hlower, htrimmed⟩ := (HexStr.isCanonical_iff _).mp hcanonical
  constructor
  · constructor
    · exact isHex_toDigits n
    · exact hexValue_toDigits n
    · simp
    · intro _
      exact htrimmed
  · exact hlower

lemma prints_spell {w : Nat} (hn : n < 2 ^ w) :
    Prints (some w) n (spell 16 (bitwidthHexChars w) n) := by
  constructor
  · constructor
    · exact isHex_spell _ n
    · rw [hexValue_spell, Nat.mod_eq_of_lt (hn.trans_le (two_pow_le w))]
    · intro w' hw'
      obtain rfl := Option.some.inj hw'
      exact length_spell 16 _ n
    · simp
  · exact (isLower_iff (isHex_spell _ n)).mp (isLower_spell _ n)

lemma prints_render (bitwidth : Option Nat) (n : Nat) :
    Prints bitwidth (cut bitwidth n) (render bitwidth n) := by
  cases bitwidth with
  | none => exact prints_toDigits n
  | some w => exact prints_spell (Nat.mod_lt n (Nat.two_pow_pos w))

lemma prints_render_of_lt (hn : ∀ w ∈ bitwidth, n < 2 ^ w) :
    Prints bitwidth n (render bitwidth n) := by
  have hcut : cut bitwidth n = n := by
    cases bitwidth with
    | none => rfl
    | some w => exact Nat.mod_eq_of_lt (hn w rfl)
  have hprints := prints_render bitwidth n
  rwa [hcut] at hprints

lemma cut_lt (n : Nat) : ∀ w ∈ bitwidth, cut bitwidth n < 2 ^ w := by
  intro w hw
  obtain rfl := Option.mem_def.mp hw
  exact Nat.mod_lt n (Nat.two_pow_pos w)

/-! ### The sum -/

/-- The sum of the two numbers in the register, and whether it exceeds the register. -/
theorem addHexStr_prints (hexStr1 hexStr2 : HexStr) (hbw : ∀ w ∈ bitwidth, 1 ≤ w) :
    Prints bitwidth (cut bitwidth (cut bitwidth hexStr1.value + cut bitwidth hexStr2.value))
        (addHexStr hexStr1.chars hexStr2.chars bitwidth).1 ∧
      ((addHexStr hexStr1.chars hexStr2.chars bitwidth).2 = true ↔
        ∃ w ∈ bitwidth, 2 ^ w ≤ cut bitwidth hexStr1.value + cut bitwidth hexStr2.value) := by
  rw [addHexStr_eq hbw hexStr1.isHex hexStr2.isHex]
  constructor
  · exact prints_render _ _
  · cases bitwidth with
    | none => simp
    | some w => simp [HexStr.value]

/-- The carry into a register of 65 bits, whose top chunk is one digit. -/
theorem addHexStr_prints_sixtyFive :
    Prints (some 65) 0 (addHexStr (List.replicate 17 'F') ['1'] (some 65)).1 ∧
      (addHexStr (List.replicate 17 'F') ['1'] (some 65)).2 = true := by
  have hbw : ∀ w ∈ some 65, 1 ≤ w := by simp
  have hsum := addHexStr_prints ⟨List.replicate 17 'F', by decide, by decide⟩
    ⟨['1'], by decide, by decide⟩ hbw
  exact ⟨hsum.1, hsum.2.mpr ⟨65, rfl, by decide⟩⟩

/-! ### Operations on bits -/

lemma cut_or (bitwidth : Option Nat) (m n : Nat) :
    cut bitwidth (m ||| n) = cut bitwidth m ||| cut bitwidth n := by
  cases bitwidth with
  | none => rfl
  | some w => exact Nat.or_mod_two_pow

lemma cut_xor (bitwidth : Option Nat) (m n : Nat) :
    cut bitwidth (m ^^^ n) = cut bitwidth m ^^^ cut bitwidth n := by
  cases bitwidth with
  | none => rfl
  | some w => exact Nat.xor_mod_two_pow

lemma cut_and (bitwidth : Option Nat) (m n : Nat) :
    cut bitwidth (m &&& n) = cut bitwidth m &&& cut bitwidth n := by
  cases bitwidth with
  | none => rfl
  | some w => exact Nat.and_mod_two_pow

lemma xor_two_pow_sub_one {k : Nat} (hn : n < 2 ^ k) : n ^^^ (2 ^ k - 1) = 2 ^ k - 1 - n := by
  apply Nat.eq_of_testBit_eq
  intro i
  have hsub : 2 ^ k - 1 - n = 2 ^ k - (n + 1) := by omega
  rw [hsub, Nat.testBit_two_pow_sub_succ hn, Nat.testBit_xor, Nat.testBit_two_pow_sub_one]
  by_cases hi : i < k
  · simp [hi]
  · have hzero : n.testBit i = false :=
      Nat.testBit_lt_two_pow (hn.trans_le (Nat.pow_le_pow_right (by norm_num) (not_lt.mp hi)))
    simp [hi, hzero]

lemma cut_eq_mod (hexStr : HexStr) :
    cut bitwidth hexStr.value = hexStr.value % 2 ^ effectiveBitwidth hexStr.chars bitwidth := by
  cases bitwidth with
  | none => exact (Nat.mod_eq_of_lt (hexValue_lt_two_pow hexStr.chars)).symm
  | some w => rfl

/-- The bitwise operations on the two numbers in the register, and the complement. -/
theorem bitwiseHexStr_prints (hexStr1 hexStr2 : HexStr) (hbw : ∀ w ∈ bitwidth, 1 ≤ w) :
    Prints bitwidth (cut bitwidth hexStr1.value ||| cut bitwidth hexStr2.value)
        (borHexStr hexStr1.chars hexStr2.chars bitwidth) ∧
      Prints bitwidth (cut bitwidth hexStr1.value ^^^ cut bitwidth hexStr2.value)
        (bxorHexStr hexStr1.chars hexStr2.chars bitwidth) ∧
      Prints bitwidth (cut bitwidth hexStr1.value &&& cut bitwidth hexStr2.value)
        (bandHexStr hexStr1.chars hexStr2.chars bitwidth) ∧
      Prints bitwidth (2 ^ effectiveBitwidth hexStr1.chars bitwidth - 1 -
          hexStr1.value % 2 ^ effectiveBitwidth hexStr1.chars bitwidth)
        (bnotHexStr hexStr1.chars bitwidth) := by
  refine ⟨?or, ?xor, ?and, ?not⟩
  case or =>
    rw [borHexStr_eq hbw hexStr1.isHex hexStr2.isHex, ← cut_or]
    exact prints_render _ _
  case xor =>
    rw [bxorHexStr_eq hbw hexStr1.isHex hexStr2.isHex, ← cut_xor]
    exact prints_render _ _
  case and =>
    rw [bandHexStr_eq hbw hexStr1.isHex hexStr2.isHex, ← cut_and]
    exact prints_render _ _
  case not =>
    have hlt : hexStr1.value % 2 ^ effectiveBitwidth hexStr1.chars bitwidth <
        2 ^ effectiveBitwidth hexStr1.chars bitwidth := Nat.mod_lt _ (Nat.two_pow_pos _)
    have heq := bnotHexStr_eq hbw hexStr1.isHex
    rw [← HexStr.value, cut_eq_mod, xor_two_pow_sub_one hlt] at heq
    rw [heq]
    apply prints_render_of_lt
    intro w hw
    obtain rfl := Option.mem_def.mp hw
    have hpos := Nat.two_pow_pos w
    show 2 ^ w - 1 - _ < 2 ^ w
    omega

/-- Operands of one and of five digits in a register of eighteen bits. -/
theorem bitwiseHexStr_prints_eighteen :
    Prints (some 18) 0x3BCDF (borHexStr ['f'] ['F', 'b', 'C', 'd', 'E'] (some 18)) ∧
      Prints (some 18) 0x3BCD1 (bxorHexStr ['f'] ['F', 'b', 'C', 'd', 'E'] (some 18)) ∧
      Prints (some 18) 0xE (bandHexStr ['f'] ['F', 'b', 'C', 'd', 'E'] (some 18)) ∧
      Prints (some 18) 0x3FFF0 (bnotHexStr ['f'] (some 18)) := by
  have hbw : ∀ w ∈ some 18, 1 ≤ w := by simp
  have hall := bitwiseHexStr_prints ⟨['f'], by decide, by decide⟩
    ⟨['F', 'b', 'C', 'd', 'E'], by decide, by decide⟩ hbw
  exact hall

/-! ### Fields of bits -/

lemma exists_bitfieldHexStr (ht : IsHex t) (hse : s ≤ e) (he : e < width t bitwidth) :
    ∃ t', bitfieldHexStr t s e bitwidth = some t' ∧ IsHex t' ∧
      hexValue t' = hexValue t / 2 ^ s % 2 ^ (e - s + 1) := by
  have hlt : hexValue t / 2 ^ s % 2 ^ (e - s + 1) < 2 ^ (e - s + 1) :=
    Nat.mod_lt _ (Nat.two_pow_pos _)
  obtain ⟨hsaid, -⟩ := prints_spell hlt
  exact ⟨_, bitfieldHexStr_eq ht hse he, hsaid.isHex, hsaid.hexValue_eq⟩

lemma exists_setBitfieldHexStr (hexStr : HexStr) {valHexStr : List Char} (hval : IsHex valHexStr)
    (hse : s ≤ e) (he : e < setWidth hexStr.chars e bitwidth) :
    ∃ t, setBitfieldHexStr hexStr.chars s e valHexStr bitwidth = some t ∧ IsHex t ∧
      hexValue t = setBits hexStr.value s e (hexValue valHexStr) ∧
      setWidth hexStr.chars e bitwidth ≤ t.length * 4 := by
  have hvalue : hexStr.value < 2 ^ setWidth hexStr.chars e bitwidth :=
    (hexValue_lt_two_pow hexStr.chars).trans_le
      (Nat.pow_le_pow_right (by norm_num) (le_max_left _ _))
  obtain ⟨hsaid, -⟩ := prints_spell (setBits_lt hse he hvalue (hexValue valHexStr))
  refine ⟨_, setBitfieldHexStr_eq hexStr.isHex hval hse he, hsaid.isHex, hsaid.hexValue_eq, ?_⟩
  rw [length_spell, bitwidthHexChars]
  omega

/-- A field can be read, and it can be set: the other bits are kept, and the field can be read back
from the string that is returned. -/
theorem bitfield_set_get (hexStr : HexStr) (valHexStr : List Char) (hval : IsHex valHexStr)
    (hse : s ≤ e) (he : e < setWidth hexStr.chars e bitwidth) :
    (∃ t, setBitfieldHexStr hexStr.chars s e valHexStr bitwidth = some t ∧ IsHex t ∧
      (∀ i, (hexValue t).testBit i = if s ≤ i ∧ i ≤ e
        then (hexValue valHexStr % 2 ^ (e - s + 1)).testBit (i - s)
        else hexStr.value.testBit i) ∧
      ∀ bitwidth', ∃ t', bitfieldHexStr t s e bitwidth' = some t' ∧ IsHex t' ∧
        hexValue t' = hexValue valHexStr % 2 ^ (e - s + 1)) ∧
      (e < width hexStr.chars bitwidth → ∃ t, bitfieldHexStr hexStr.chars s e bitwidth = some t ∧
        IsHex t ∧ hexValue t = hexStr.value / 2 ^ s % 2 ^ (e - s + 1)) := by
  constructor
  · obtain ⟨t, ht, hhex, hvalue, hwidth⟩ := exists_setBitfieldHexStr hexStr hval hse he
    refine ⟨t, ht, hhex, ?_, ?_⟩
    · intro i
      rw [hvalue, testBit_setBits hse]
      split
      case isTrue hi =>
        have hlt : i - s < e - s + 1 := by omega
        rw [Nat.testBit_mod_two_pow, decide_eq_true hlt, Bool.true_and]
      case isFalse => rfl
    · intro bitwidth'
      have he' : e < width t bitwidth' := he.trans_le (hwidth.trans (le_max_left _ _))
      obtain ⟨t', ht', hhex', hvalue'⟩ := exists_bitfieldHexStr hhex hse he'
      refine ⟨t', ht', hhex', ?_⟩
      rw [hvalue', hvalue, setBits_div_mod hse]
  · intro he'
    exact exists_bitfieldHexStr hexStr.isHex hse he'

/-- A field that lies beyond the only digit of a string. -/
theorem bitfield_set_get_grown :
    ∃ t, setBitfieldHexStr ['A'] 2 6 ['f', 'f'] none = some t ∧
      ∃ t', bitfieldHexStr t 2 6 none = some t' ∧ hexValue t' = 0x1F := by
  have hval : IsHex ['f', 'f'] := by decide
  have hse : (2 : Nat) ≤ 6 := by decide
  have hlt : 6 < setWidth ['A'] 6 none := by decide
  obtain ⟨⟨t, ht, -, -, hread⟩, -⟩ :=
    bitfield_set_get ⟨['A'], by decide, by decide⟩ ['f', 'f'] hval hse hlt
  obtain ⟨t', ht', -, hvalue⟩ := hread none
  exact ⟨t, ht, t', ht', hvalue⟩

/-! ### Shifts -/

lemma lshift_says_iff (hexStr : HexStr) (n : Nat) (hbw : ∀ w ∈ bitwidth, 1 ≤ w) :
    (∃ t, lshiftHexStr hexStr.chars n bitwidth = some t ∧
        Says bitwidth (cut bitwidth (hexStr.value * 2 ^ n)) t) ↔
      n ≠ 0 ∨ bitwidth ≠ none ∨ IsTrimmed hexStr.chars := by
  rw [lshiftHexStr_eq hbw hexStr.isHex]
  by_cases hsame : n = 0 ∧ bitwidth = none
  · obtain ⟨rfl, rfl⟩ := hsame
    rw [if_pos ⟨rfl, rfl⟩]
    constructor
    · rintro ⟨t, ht, hsaid⟩
      obtain rfl := Option.some.inj ht
      exact .inr (.inr (hsaid.isTrimmed rfl))
    · intro htrimmed
      refine ⟨hexStr.chars, rfl, ?_⟩
      constructor
      · exact hexStr.isHex
      · exact (Nat.mul_one _).symm
      · simp
      · intro _
        simpa using htrimmed
  · rw [if_neg hsame]
    constructor
    · intro _
      by_contra hnot
      push Not at hnot
      exact hsame ⟨hnot.1, hnot.2.1⟩
    · intro _
      exact ⟨_, rfl, (prints_render bitwidth _).toSays⟩

lemma cut_lt_effectiveBitwidth (hexStr : HexStr) :
    cut bitwidth hexStr.value < 2 ^ effectiveBitwidth hexStr.chars bitwidth := by
  rw [cut_eq_mod]
  exact Nat.mod_lt _ (Nat.two_pow_pos _)

lemma says_zero_iff (hbw : ∀ w ∈ bitwidth, 1 ≤ w) :
    Says bitwidth 0 ['0'] ↔ ∀ w ∈ bitwidth, w ≤ 4 := by
  constructor
  · intro hsaid w hw
    have hlen := hsaid.length_eq w hw
    rw [bitwidthHexChars, List.length_singleton] at hlen
    omega
  · intro hle
    constructor
    · decide
    · rfl
    · intro w hw
      have hone := hbw w hw
      have hfour := hle w hw
      rw [bitwidthHexChars, List.length_singleton]
      omega
    · intro _
      decide

lemma rshift_says_iff (hexStr : HexStr) (n : Nat) (hbw : ∀ w ∈ bitwidth, 1 ≤ w) :
    (∃ t, rshiftHexStr hexStr.chars n bitwidth = some t ∧
        Says bitwidth (cut bitwidth hexStr.value / 2 ^ n) t) ↔
      ∀ w ∈ bitwidth, n < w ∨ w ≤ 4 := by
  have hlt : cut bitwidth hexStr.value < 2 ^ effectiveBitwidth hexStr.chars bitwidth :=
    cut_lt_effectiveBitwidth hexStr
  rw [rshiftHexStr_eq hbw hexStr.isHex]
  by_cases hle : effectiveBitwidth hexStr.chars bitwidth ≤ n
  · have hzero : cut bitwidth hexStr.value / 2 ^ n = 0 :=
      Nat.div_eq_of_lt (hlt.trans_le (Nat.pow_le_pow_right (by norm_num) hle))
    rw [if_pos hle, hzero]
    constructor
    · rintro ⟨t, ht, hsaid⟩ w hw
      obtain rfl := Option.some.inj ht
      exact .inr ((says_zero_iff hbw).mp hsaid w hw)
    · intro hfits
      refine ⟨['0'], rfl, (says_zero_iff hbw).mpr ?_⟩
      intro w hw
      obtain rfl := Option.mem_def.mp hw
      exact (hfits w rfl).resolve_left (not_lt.mpr hle)
  · rw [if_neg hle]
    constructor
    · intro _ w hw
      obtain rfl := Option.mem_def.mp hw
      exact .inl (not_le.mp hle)
    · intro _
      refine ⟨_, rfl, (prints_render_of_lt ?_).toSays⟩
      intro w hw
      exact (Nat.div_le_self _ _).trans_lt (cut_lt _ w hw)

/-- The shifts say the shifted number in the register, save in two cases: a string that is not
shifted to the left is not trimmed, and a zero that is shifted out of a register to the right has a
single digit. -/
theorem shift_says_iff (hexStr : HexStr) (n : Nat) (hbw : ∀ w ∈ bitwidth, 1 ≤ w) :
    ((∃ t, lshiftHexStr hexStr.chars n bitwidth = some t ∧
        Says bitwidth (cut bitwidth (hexStr.value * 2 ^ n)) t) ↔
      n ≠ 0 ∨ bitwidth ≠ none ∨ IsTrimmed hexStr.chars) ∧
    ((∃ t, rshiftHexStr hexStr.chars n bitwidth = some t ∧
        Says bitwidth (cut bitwidth hexStr.value / 2 ^ n) t) ↔
      ∀ w ∈ bitwidth, n < w ∨ w ≤ 4) := by
  constructor
  · exact lshift_says_iff hexStr n hbw
  · exact rshift_says_iff hexStr n hbw

/-- A register of eight bits, shifted to the right by seven. -/
theorem shift_says_iff_eight :
    ((∃ t, lshiftHexStr ['F', 'f'] 7 (some 8) = some t ∧ Says (some 8) 0x80 t) ↔
      7 ≠ 0 ∨ some 8 ≠ none ∨ IsTrimmed ['F', 'f']) ∧
    ((∃ t, rshiftHexStr ['F', 'f'] 7 (some 8) = some t ∧ Says (some 8) 1 t) ↔
      ∀ w ∈ some 8, 7 < w ∨ w ≤ 4) := by
  have hbw : ∀ w ∈ some 8, 1 ≤ w := by simp
  have hboth := shift_says_iff ⟨['F', 'f'], by decide, by decide⟩ 7 hbw
  exact hboth

/-- `ff` shifted out of a register of eight bits is `0`, not `00`. -/
theorem not_shift_says_all :
    ¬(∀ (hexStr : HexStr) (n : Nat) (bitwidth : Option Nat), (∀ w ∈ bitwidth, 1 ≤ w) →
      (∃ t, lshiftHexStr hexStr.chars n bitwidth = some t ∧
        Says bitwidth (cut bitwidth (hexStr.value * 2 ^ n)) t) ∧
      (∃ t, rshiftHexStr hexStr.chars n bitwidth = some t ∧
        Says bitwidth (cut bitwidth hexStr.value / 2 ^ n) t)) := by
  intro hall
  obtain ⟨-, t, ht, hsaid⟩ := hall ⟨['f', 'f'], by decide, by decide⟩ 8 (some 8) (by simp)
  have hreturn : rshiftHexStr ['f', 'f'] 8 (some 8) = some ['0'] := by decide
  obtain rfl := Option.some.inj (hreturn.symm.trans ht)
  have hlen := hsaid.length_eq 8 rfl
  exact absurd hlen (by decide)

/-! ### Calls on what calls return -/

/-- A function of one string. -/
inductive Unary
  | not
  | lshift (n : Nat)
  | rshift (n : Nat)

/-- A function of two strings. -/
inductive Binary
  | or
  | xor
  | and
  | add

def Unary.call (w : Nat) (hexStr : HexStr) : Unary → Call
  | not => .bnotHexStr hexStr (some w)
  | lshift n => .lshiftHexStr hexStr n (some w)
  | rshift n => .rshiftHexStr hexStr n (some w)

def Binary.call (w : Nat) (hexStr1 hexStr2 : HexStr) : Binary → Call
  | or => .borHexStr hexStr1 hexStr2 (some w)
  | xor => .bxorHexStr hexStr1 hexStr2 (some w)
  | and => .bandHexStr hexStr1 hexStr2 (some w)
  | add => .addHexStr hexStr1 hexStr2 (some w)

def Unary.apply (x : BitVec w) : Unary → BitVec w
  | not => ~~~x
  | lshift n => x <<< n
  | rshift n => x >>> n

def Binary.apply (x y : BitVec w) : Binary → BitVec w
  | or => x ||| y
  | xor => x ^^^ y
  | and => x &&& y
  | add => x + y

def Ret.hexStr : Ret → Option HexStr
  | str t | strCarry t _ => if h : t ≠ [] ∧ IsHex t then some ⟨t, h.1, h.2⟩ else none
  | int _ => none

/-- Calls whose arguments are what other calls return, all with one bit width. -/
inductive Expr
  | lit (hexStr : HexStr)
  | unary (op : Unary) (a : Expr)
  | binary (op : Binary) (a b : Expr)

/-- The string that is returned, where `run` carries out a call. -/
def Expr.eval (run : Call → Option Ret) (w : Nat) : Expr → Option HexStr
  | lit hexStr => some hexStr
  | unary op a => do (← run (op.call w (← a.eval run w))).hexStr
  | binary op a b => do (← run (op.call w (← a.eval run w) (← b.eval run w))).hexStr

/-- The same operations on registers. -/
def Expr.register (w : Nat) : Expr → BitVec w
  | lit hexStr => .ofNat w hexStr.value
  | unary op a => op.apply (a.register w)
  | binary op a b => op.apply (a.register w) (b.register w)

/-- The string that `run` returns denotes the register `x`. -/
def Gives (run : Call → Option Ret) (c : Call) (x : BitVec w) : Prop :=
  ∃ hexStr, (run c).bind Ret.hexStr = some hexStr ∧ BitVec.ofNat w hexStr.value = x

/-- `r` is what `run` returns, with or without a carry. -/
lemma gives_text {run : Call → Option Ret} {c : Call} {r : Ret} {t : List Char} {x : BitVec w}
    (hr : run c = some r) (hrt : r.hexStr = (Ret.str t).hexStr) (hne : t ≠ []) (ht : IsHex t)
    (hx : BitVec.ofNat w (hexValue t) = x) : Gives run c x := by
  refine ⟨⟨t, hne, ht⟩, ?_, hx⟩
  rw [hr, Option.bind_some, hrt]
  exact dif_pos ⟨hne, ht⟩

lemma gives_render (hw : 1 ≤ w) {run : Call → Option Ret} {c : Call} {r : Ret} {n : Nat}
    {x : BitVec w} (hr : run c = some r) (hrt : r.hexStr = (Ret.str (render (some w) n)).hexStr)
    (hx : BitVec.ofNat w n = x) : Gives run c x := by
  obtain ⟨hsaid, -⟩ := prints_render (some w) n
  have hlen := hsaid.length_eq w rfl
  rw [bitwidthHexChars] at hlen
  refine gives_text hr hrt (List.ne_nil_of_length_pos (by omega)) hsaid.isHex ?_
  rw [← hx, hsaid.hexValue_eq]
  exact BitVec.eq_of_toNat_eq (Nat.mod_mod n (2 ^ w))

section Calls

variable (hw : 1 ≤ w) (g : Gmp) (h h1 h2 : HexStr)

include hw

/-- With either implementation, each call computes on the register that its argument denotes. -/
lemma Unary.gives (op : Unary) :
    Gives Call.native (op.call w h) (op.apply (.ofNat w h.value)) ∧
      Gives (Call.gmp g) (op.call w h) (op.apply (.ofNat w h.value)) := by
  have hbw : ∀ v ∈ some w, 1 ≤ v := by simpa using hw
  cases op with
  | not =>
    have hx : BitVec.ofNat w (cut (some w) (hexValue h.chars) ^^^
        (2 ^ effectiveBitwidth h.chars (some w) - 1)) = ~~~BitVec.ofNat w h.value := by
      apply BitVec.eq_of_toNat_eq
      have hlt : h.value % 2 ^ w < 2 ^ w := Nat.mod_lt _ (Nat.two_pow_pos w)
      have hxor := xor_two_pow_sub_one hlt
      have hmod : (2 ^ w - 1 - h.value % 2 ^ w) % 2 ^ w = 2 ^ w - 1 - h.value % 2 ^ w :=
        Nat.mod_eq_of_lt (by omega)
      rw [BitVec.toNat_not, BitVec.toNat_ofNat, BitVec.toNat_ofNat, ← hmod, ← hxor]
      rfl
    exact ⟨gives_render hw (congrArg (some ∘ Ret.str) (bnotHexStr_eq hbw h.isHex)) rfl hx,
      gives_render hw (congrArg (some ∘ Ret.str) (Gmp.bnotHexStr_eq g hbw h.isHex h.ne_nil)) rfl hx⟩
  | lshift n =>
    have hx : BitVec.ofNat w (h.value * 2 ^ n) = BitVec.ofNat w h.value <<< n := by
      apply BitVec.eq_of_toNat_eq
      simp [Nat.shiftLeft_eq]
    constructor
    · refine gives_render hw ?_ rfl hx
      simp [Unary.call, Call.native, lshiftHexStr_eq hbw h.isHex, HexStr.value]
    · exact gives_render hw (congrArg (some ∘ Ret.str)
        (Gmp.lshiftHexStr_eq g hbw h.isHex h.ne_nil n)) rfl hx
  | rshift n =>
    have hx : BitVec.ofNat w (h.value % 2 ^ w / 2 ^ n) = BitVec.ofNat w h.value >>> n := by
      apply BitVec.eq_of_toNat_eq
      have hlt : h.value % 2 ^ w / 2 ^ n < 2 ^ w :=
        (Nat.div_le_self _ _).trans_lt (Nat.mod_lt _ (Nat.two_pow_pos w))
      simp [Nat.shiftRight_eq_div_pow, Nat.mod_eq_of_lt hlt]
    constructor
    · by_cases hle : w ≤ n
      · have hzero : h.value % 2 ^ w / 2 ^ n = 0 := Nat.div_eq_of_lt
          ((Nat.mod_lt _ (Nat.two_pow_pos w)).trans_le (Nat.pow_le_pow_right (by norm_num) hle))
        rw [hzero] at hx
        refine gives_text (t := ['0']) ?_ rfl (by simp) (by decide) hx
        simp [Unary.call, Call.native, rshiftHexStr_eq hbw h.isHex, effectiveBitwidth, hle]
      · refine gives_render hw ?_ rfl hx
        simp [Unary.call, Call.native, rshiftHexStr_eq hbw h.isHex, effectiveBitwidth, hle, cut,
          HexStr.value]
    · exact gives_render hw (congrArg (some ∘ Ret.str)
        (Gmp.rshiftHexStr_eq g hbw h.isHex h.ne_nil n)) rfl hx

lemma Binary.gives (op : Binary) :
    Gives Call.native (op.call w h1 h2) (op.apply (.ofNat w h1.value) (.ofNat w h2.value)) ∧
      Gives (Call.gmp g) (op.call w h1 h2)
        (op.apply (.ofNat w h1.value) (.ofNat w h2.value)) := by
  have hbw : ∀ v ∈ some w, 1 ≤ v := by simpa using hw
  cases op with
  | or =>
    have hx : BitVec.ofNat w (h1.value ||| h2.value) = _ := BitVec.ofNat_or
    exact ⟨gives_render hw (congrArg (some ∘ Ret.str) (borHexStr_eq hbw h1.isHex h2.isHex)) rfl hx,
      gives_render hw (congrArg (some ∘ Ret.str)
        (Gmp.borHexStr_eq g hbw h1.isHex h1.ne_nil h2.isHex h2.ne_nil)) rfl hx⟩
  | xor =>
    have hx : BitVec.ofNat w (h1.value ^^^ h2.value) = _ := BitVec.ofNat_xor
    exact ⟨gives_render hw (congrArg (some ∘ Ret.str) (bxorHexStr_eq hbw h1.isHex h2.isHex)) rfl hx,
      gives_render hw (congrArg (some ∘ Ret.str)
        (Gmp.bxorHexStr_eq g hbw h1.isHex h1.ne_nil h2.isHex h2.ne_nil)) rfl hx⟩
  | and =>
    have hx : BitVec.ofNat w (h1.value &&& h2.value) = _ := BitVec.ofNat_and
    exact ⟨gives_render hw (congrArg (some ∘ Ret.str) (bandHexStr_eq hbw h1.isHex h2.isHex)) rfl hx,
      gives_render hw (congrArg (some ∘ Ret.str)
        (Gmp.bandHexStr_eq g hbw h1.isHex h1.ne_nil h2.isHex h2.ne_nil)) rfl hx⟩
  | add =>
    have hx : BitVec.ofNat w (h1.value % 2 ^ w + h2.value % 2 ^ w) =
        BitVec.ofNat w h1.value + BitVec.ofNat w h2.value := by
      apply BitVec.eq_of_toNat_eq
      simp
    have hret : ∀ p q : List Char × Bool, p = q →
        some (Ret.strCarry p.1 p.2) = some (.strCarry q.1 q.2) := fun p q h => h ▸ rfl
    exact ⟨gives_render hw (hret _ _ (addHexStr_eq hbw h1.isHex h2.isHex)) rfl hx,
      gives_render hw (hret _ _
        (Gmp.addHexStr_eq g hbw h1.isHex h1.ne_nil h2.isHex h2.ne_nil)) rfl hx⟩

end Calls

lemma Expr.eval_of_gives {run : Call → Option Ret}
    (hunary : ∀ (op : Unary) h, Gives run (op.call w h) (op.apply (.ofNat w h.value)))
    (hbinary : ∀ (op : Binary) h1 h2, Gives run (op.call w h1 h2)
      (op.apply (.ofNat w h1.value) (.ofNat w h2.value))) (e : Expr) :
    ∃ hexStr, e.eval run w = some hexStr ∧ BitVec.ofNat w hexStr.value = e.register w := by
  induction e with
  | lit hexStr => exact ⟨hexStr, rfl, rfl⟩
  | unary op a iha =>
    obtain ⟨h, ha, hx⟩ := iha
    obtain ⟨t, ht, heq⟩ := hunary op h
    refine ⟨t, ?_, ?_⟩
    · simpa [Expr.eval, ha] using ht
    · rw [heq, hx, Expr.register]
  | binary op a b iha ihb =>
    obtain ⟨h1, ha, hx⟩ := iha
    obtain ⟨h2, hb, hy⟩ := ihb
    obtain ⟨t, ht, heq⟩ := hbinary op h1 h2
    refine ⟨t, ?_, ?_⟩
    · simpa [Expr.eval, ha, hb] using ht
    · rw [heq, hx, hy, Expr.register]

/-- However calls with one bit width are composed, and whichever implementation is in use, the
string that comes out denotes what the same operations make of registers of that width. -/
theorem Expr.eval_denotes (g : Gmp) (e : Expr) (hw : 1 ≤ w) :
    (∃ hexStr, e.eval Call.native w = some hexStr ∧
      BitVec.ofNat w hexStr.value = e.register w) ∧
    ∃ hexStr, e.eval (Call.gmp g) w = some hexStr ∧
      BitVec.ofNat w hexStr.value = e.register w :=
  ⟨e.eval_of_gives (fun op h => (op.gives hw g h).1) fun op h1 h2 => (op.gives hw g h1 h2).1,
    e.eval_of_gives (fun op h => (op.gives hw g h).2) fun op h1 h2 => (op.gives hw g h1 h2).2⟩

/-- `FF + ~1`. -/
def Expr.sum : Expr :=
  .binary .add (.lit ⟨['F', 'f'], by decide, by decide⟩)
    (.unary .not (.lit ⟨['1'], by decide, by decide⟩))

/-- The sum is `FD` in a register of eight bits. -/
theorem Expr.eval_denotes_eight :
    (∃ hexStr, Expr.sum.eval Call.native 8 = some hexStr ∧
      BitVec.ofNat 8 hexStr.value = 0xFD#8) ∧
    ∃ hexStr, Expr.sum.eval (Call.gmp Gmp.exact) 8 = some hexStr ∧
      BitVec.ofNat 8 hexStr.value = 0xFD#8 :=
  Expr.eval_denotes Gmp.exact Expr.sum (by decide)

end Verilua.StrBits
