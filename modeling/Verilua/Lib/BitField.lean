import Mathlib.Data.List.Induction
import Mathlib.Data.Nat.Bitwise

/-!
# Fields of a number

A field is a range of bits with the number that is to be put there. When fields are assigned one
after the other, each bit is that of the last field that covers it.
-/

/-- The bits `s` to `e`. -/
structure BitField where
  s : Nat
  e : Nat
  le : s ≤ e
  number : Nat

namespace BitField

variable {f : BitField} {fs : List BitField} {v w p : Nat}

def covers (f : BitField) (p : Nat) : Bool := decide (f.s ≤ p ∧ p ≤ f.e)

def size (f : BitField) : Nat := f.e + 1 - f.s

/-- Bit `p` of the number where the field is. -/
def bit (f : BitField) (p : Nat) : Bool := f.number.testBit (p - f.s)

def assign (v : Nat) (f : BitField) : Nat :=
  2 ^ f.s * (2 ^ f.size * (v / 2 ^ (f.e + 1)) + f.number % 2 ^ f.size) + v % 2 ^ f.s

/-- The last field of several that covers a bit. -/
def lastOn (fs : List BitField) (p : Nat) : Option BitField := fs.reverse.find? (·.covers p)

lemma testBit_assign (f : BitField) (v p : Nat) :
    (assign v f).testBit p = if f.covers p then f.bit p else v.testBit p := by
  have hle := f.le
  have low : v % 2 ^ f.s < 2 ^ f.s := Nat.mod_lt _ (Nat.two_pow_pos _)
  have high : f.number % 2 ^ f.size < 2 ^ f.size := Nat.mod_lt _ (Nat.two_pow_pos _)
  rw [assign, Nat.testBit_two_pow_mul_add _ low]
  by_cases below : p < f.s
  · rw [if_pos below, if_neg (by simp [covers]; omega), Nat.testBit_mod_two_pow,
      decide_eq_true below, Bool.true_and]
  · rw [if_neg below, Nat.testBit_two_pow_mul_add _ high]
    by_cases inside : p - f.s < f.size
    · rw [if_pos inside, if_pos (by simp [covers]; rw [size] at inside; omega),
        Nat.testBit_mod_two_pow, decide_eq_true inside, Bool.true_and, bit]
    · have above : p - f.s - f.size + (f.e + 1) = p := by
        rw [size] at inside ⊢
        omega
      rw [if_neg inside, if_neg (by simp [covers]; rw [size] at inside; omega),
        Nat.testBit_div_two_pow, above]

lemma assign_lt (hv : v < 2 ^ w) (he : f.e < w) : assign v f < 2 ^ w := by
  apply Nat.lt_pow_two_of_testBit
  intro p hp
  have out : ¬ f.covers p = true := by simp [covers]; omega
  rw [testBit_assign, if_neg out]
  exact Nat.testBit_lt_two_pow (hv.trans_le (Nat.pow_le_pow_right (by decide) hp))

lemma foldl_assign_lt (hv : v < 2 ^ w) (he : ∀ f ∈ fs, f.e < w) : fs.foldl assign v < 2 ^ w := by
  induction fs generalizing v with
  | nil => exact hv
  | cons f fs ih =>
    exact ih (assign_lt hv (he f List.mem_cons_self)) fun f' hf' =>
      he f' (List.mem_cons_of_mem _ hf')

lemma lastOn_append (fs : List BitField) (f : BitField) (p : Nat) :
    lastOn (fs ++ [f]) p = if f.covers p then some f else lastOn fs p := by
  simp only [lastOn, List.reverse_append, List.reverse_singleton, List.singleton_append,
    List.find?_cons]
  cases f.covers p <;> rfl

theorem testBit_foldl_assign (fs : List BitField) (v p : Nat) :
    (fs.foldl assign v).testBit p = (lastOn fs p).elim (v.testBit p) (·.bit p) := by
  induction fs using List.reverseRecOn with
  | nil => rfl
  | append_singleton fs f ih =>
    rw [List.foldl_append, List.foldl_cons, List.foldl_nil, testBit_assign, lastOn_append, ih]
    split_ifs <;> rfl

end BitField
