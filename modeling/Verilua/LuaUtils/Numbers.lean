import Verilua.Lib.Words
import Verilua.StrBits.Digits

/-!
# Numbers and 64-bit integers

A value is a number, here always an integer, or a boxed `uint64_t`. An operation of the `bit`
library is one on 64 bits when an operand is boxed (a shift: when the shifted operand is), and one
on 32 bits with a signed result otherwise. Out of the ranges below the conversions are not defined
by the language.
-/

namespace Verilua.Lua

/-- The conversions between numbers and integers of a fixed width. -/
structure Jit where
  /-- a number as an operand of an operation on 64 bits -/
  toULL : Int → UInt64
  /-- a number as an operand of an operation on 32 bits -/
  tobit : Int → UInt32
  tonumber : UInt64 → Int
  toULL_eq : ∀ n, -2 ^ 63 ≤ n → n < 2 ^ 64 → toULL n = UInt64.ofInt n
  tobit_eq : ∀ n, -2 ^ 51 ≤ n → n ≤ 2 ^ 51 → tobit n = UInt32.ofInt n
  tonumber_eq : ∀ u, u.toNat ≤ 2 ^ 53 → tonumber u = u.toNat

/-- Where every integer is a number. -/
def Jit.exact : Jit where
  toULL := UInt64.ofInt
  tobit := UInt32.ofInt
  tonumber u := u.toNat
  toULL_eq _ _ _ := rfl
  tobit_eq _ _ _ := rfl
  tonumber_eq _ _ := rfl

inductive Value
  | num (n : Int)
  | ull (u : UInt64)
deriving DecidableEq, Repr

namespace Value

variable (J : Jit)

/-- `v + 0ULL` -/
def toULL : Value → UInt64
  | num n => J.toULL n
  | ull u => u

/-- `bit.rshift` -/
def rshift : Value → Nat → Value
  | num n, k => num (J.tobit n >>> UInt32.ofNat k).toInt32.toInt
  | ull u, k => ull (u >>> UInt64.ofNat k)

end Value

variable {J : Jit} {n : Nat}

lemma Jit.toULL_natCast (hn : n < 2 ^ 64) : J.toULL n = UInt64.ofNat n := by
  rw [J.toULL_eq n (by omega) (by omega), UInt64.ofInt]
  congr 1
  omega

lemma Jit.toNat_toULL (hn : n < 2 ^ 64) : (J.toULL n).toNat = n := by
  rw [Jit.toULL_natCast hn, UInt64.toNat_ofNat', Nat.mod_eq_of_lt hn]

lemma Jit.tobit_natCast (hn : n ≤ 2 ^ 51) : J.tobit n = UInt32.ofNat n := by
  rw [J.tobit_eq n (by omega) (by omega), UInt32.ofInt, ← UInt32.toNat_inj, UInt32.toNat_ofNat',
    UInt32.toNat_ofNat']
  omega

/-! ### The text of words -/

open StrBits in
lemma flatMap_spell {w d : Nat} (hw : 16 ^ d = 2 ^ w) {l : List Nat} (hl : ∀ x ∈ l, x < 2 ^ w) :
    l.reverse.flatMap (spell 16 d) = spell 16 (d * l.length) (Words.value w l) := by
  induction l with
  | nil => rfl
  | cons x l ih =>
    have hx : x < 16 ^ d := hw ▸ hl x List.mem_cons_self
    have hvalue : Words.value w (x :: l) = x + 16 ^ d * Words.value w l := by
      rw [Words.value_cons, hw]
    have hdiv : Words.value w (x :: l) / 16 ^ d = Words.value w l := by
      rw [hvalue, Nat.add_mul_div_left _ _ (by rw [hw]; exact Nat.two_pow_pos w),
        Nat.div_eq_of_lt hx, Nat.zero_add]
    have hmod : Words.value w (x :: l) % 16 ^ d = x % 16 ^ d := by
      rw [hvalue, Nat.add_mul_mod_self_left]
    rw [List.reverse_cons, List.flatMap_append, ih fun y hy => hl y (List.mem_cons_of_mem x hy),
      List.flatMap_singleton, List.length_cons, Nat.mul_succ, spell_append, hdiv,
      spell_congr (by norm_num) hmod]

end Verilua.Lua
