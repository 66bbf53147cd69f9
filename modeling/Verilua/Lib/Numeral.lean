import Mathlib.Tactic.Ring
import Mathlib.Data.List.Induction
import Mathlib.Data.Nat.Bitwise

/-!
# Numerals

The number that a list of digits spells, most significant digit first. A numeral of a fixed length
is the shortest numeral of its number exactly when it does not begin with a zero.
-/

namespace Numeral

variable {b : Nat} {d : Nat} {ds es : List Nat}

/-- The number that the digits spell in base `b`. -/
def value (b : Nat) (ds : List Nat) : Nat := ds.foldl (fun n d => b * n + d) 0

@[simp] lemma value_nil (b : Nat) : value b [] = 0 := rfl

@[simp] lemma value_singleton (b d : Nat) : value b [d] = d := by simp [value]

@[simp] lemma value_concat (b : Nat) (ds : List Nat) (d : Nat) :
    value b (ds ++ [d]) = b * value b ds + d := by
  simp [value]

lemma value_append (b : Nat) (ds es : List Nat) :
    value b (ds ++ es) = value b ds * b ^ es.length + value b es := by
  induction es using List.reverseRecOn with
  | nil => simp
  | append_singleton es e ih =>
    rw [← List.append_assoc, value_concat, value_concat, ih, List.length_append,
      List.length_singleton, pow_succ]
    ring

lemma value_cons (b d : Nat) (ds : List Nat) :
    value b (d :: ds) = d * b ^ ds.length + value b ds := by
  rw [← List.singleton_append, value_append, value_singleton]

lemma value_zeros_append (b k : Nat) (ds : List Nat) :
    value b (List.replicate k 0 ++ ds) = value b ds := by
  induction k with
  | zero => rfl
  | succ k ih =>
    rw [List.replicate_succ, List.cons_append, value_cons, ih, Nat.zero_mul, Nat.zero_add]

lemma value_lt (hds : ∀ d ∈ ds, d < b) : value b ds < b ^ ds.length := by
  induction ds with
  | nil => simp
  | cons d ds ih =>
    have hd : d + 1 ≤ b := hds d List.mem_cons_self
    have hrest := ih fun e he => hds e (List.mem_cons_of_mem _ he)
    have hmul : (d + 1) * b ^ ds.length ≤ b * b ^ ds.length := Nat.mul_le_mul_right _ hd
    rw [value_cons, List.length_cons, pow_succ, Nat.mul_comm (b ^ ds.length)]
    rw [Nat.add_mul, Nat.one_mul] at hmul
    omega

/-- A numeral that does not begin with a zero is the shortest one. -/
theorem toDigits_value_of_head (hb : 1 < b) (hds : ∀ e ∈ d :: ds, e < b) (hd : 0 < d) :
    Nat.toDigits b (value b (d :: ds)) = (d :: ds).map Nat.digitChar := by
  induction ds using List.reverseRecOn with
  | nil => simpa using Nat.toDigits_of_lt_base (hds d List.mem_cons_self)
  | append_singleton ds e ih =>
    have hhead : ∀ e ∈ d :: ds, e < b := fun e he => hds e (by
      rw [← List.cons_append]
      exact List.mem_append_left _ he)
    have he : e < b := hds e (by simp)
    have hpos : 0 < value b (d :: ds) := by
      rw [value_cons]
      exact Nat.add_pos_left (Nat.mul_pos hd (Nat.pow_pos (by omega))) _
    rw [← List.cons_append, value_concat, ← Nat.toDigits_append_toDigits hb hpos he, ih hhead,
      Nat.toDigits_of_lt_base he, List.map_append, List.map_singleton]

/-- A numeral is the shortest one if and only if its number needs that many digits. -/
theorem toDigits_value_iff (hb : 1 < b) (hds : ∀ e ∈ ds, e < b) (hne : ds ≠ []) :
    Nat.toDigits b (value b ds) = ds.map Nat.digitChar ↔
      ds.length = 1 ∨ b ^ (ds.length - 1) ≤ value b ds := by
  obtain ⟨d, ds, rfl⟩ := List.exists_cons_of_ne_nil hne
  rw [List.length_cons, Nat.add_sub_cancel]
  constructor
  · intro heq
    by_cases hlen : ds.length = 0
    · exact .inl (by rw [hlen])
    · right
      by_contra hlt
      have hle := (Nat.length_toDigits_le_iff hb (Nat.pos_of_ne_zero hlen)).mpr (not_le.mp hlt)
      rw [heq, List.length_map, List.length_cons] at hle
      omega
  · intro h
    rcases Nat.eq_zero_or_pos d with rfl | hd
    · -- a leading zero is the only digit
      have hlt := value_lt fun e he => hds e (List.mem_cons_of_mem 0 he)
      have hnil : ds = [] := by
        rcases h with h | h
        · exact List.length_eq_zero_iff.mp (by omega)
        · rw [value_cons, Nat.zero_mul, Nat.zero_add] at h
          omega
      subst hnil
      simp
    · exact toDigits_value_of_head hb hds hd

/-! ### Bits -/

/-- The bits of the number of a binary numeral are its digits. -/
lemma testBit_value (hds : ∀ e ∈ ds, e < 2) :
    (List.range ds.length).reverse.map (fun i => ((value 2 ds).testBit i).toNat) = ds := by
  induction ds with
  | nil => rfl
  | cons d ds ih =>
    have hrest : ∀ e ∈ ds, e < 2 := fun e he => hds e (List.mem_cons_of_mem _ he)
    have hlt := value_lt hrest
    have hd : d < 2 := hds d List.mem_cons_self
    have hbit : ∀ i, (value 2 (d :: ds)).testBit i =
        if i < ds.length then (value 2 ds).testBit i else d.testBit (i - ds.length) := fun i => by
      rw [value_cons, Nat.mul_comm d, Nat.testBit_two_pow_mul_add d hlt i]
    rw [List.length_cons, List.range_succ, List.reverse_append, List.reverse_singleton,
      List.singleton_append, List.map_cons, hbit, if_neg (lt_irrefl _), Nat.sub_self]
    congr 1
    · have hcases : d = 0 ∨ d = 1 := by omega
      rcases hcases with rfl | rfl <;> rfl
    · refine (List.map_congr_left fun i hi => ?_).trans (ih hrest)
      rw [hbit, if_pos (by simpa using hi)]

lemma two_mul_add_eq_or {n d : Nat} (hd : d < 2) : 2 * n + d = n <<< 1 ||| d := by
  rw [← Nat.shiftLeft_add_eq_or_of_lt (by simpa using hd), Nat.shiftLeft_eq, pow_one, Nat.mul_comm]

lemma value_or {α : Type*} {f g : α → Nat} (hf : ∀ a, f a < 2) (hg : ∀ a, g a < 2) (l : List α) :
    value 2 (l.map fun a => f a ||| g a) = value 2 (l.map f) ||| value 2 (l.map g) := by
  induction l using List.reverseRecOn with
  | nil => simp
  | append_singleton l a ih =>
    have hor : f a ||| g a < 2 := Nat.or_lt_two_pow (n := 1) (hf a) (hg a)
    simp only [List.map_append, List.map_singleton, value_concat]
    rw [ih, two_mul_add_eq_or hor, two_mul_add_eq_or (hf a), two_mul_add_eq_or (hg a),
      Nat.shiftLeft_or_distrib]
    ac_rfl

end Numeral
