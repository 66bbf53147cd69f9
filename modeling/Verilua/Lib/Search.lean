import Mathlib.Data.List.GetD
import Mathlib.Data.List.Sort
import Mathlib.Order.Lattice

/-!
# Searches in a sorted list

The two searches that halve what is left of a sorted list: `lower_bound` of C++, which comes to the
first entry that is not below the key, and `binary_search` of Rust, which also tells whether the key
is there. In a strictly increasing list both come to the place where the entries below the key end.
-/

namespace Search

variable {α : Type*} [LinearOrder α] [Inhabited α]

/-- An entry of a list, in its bounds. -/
def entry (l : List α) (i : Nat) : α := l.getD i default

/-- The entries up to `i` are below the key, and those from `i` on are not. -/
def Splits (l : List α) (key : α) (i : Nat) : Prop :=
  ∀ j < l.length, entry l j < key ↔ j < i

lemma entry_lt {l : List α} (hl : l.Pairwise (· < ·)) {i j : Nat} (hij : i < j)
    (hj : j < l.length) : entry l i < entry l j := by
  rw [entry, entry, List.getD_eq_getElem _ _ (hij.trans hj), List.getD_eq_getElem _ _ hj]
  exact List.pairwise_iff_getElem.mp hl i j (hij.trans hj) hj hij

lemma entry_le {l : List α} (hl : l.Pairwise (· < ·)) {i j : Nat} (hij : i ≤ j)
    (hj : j < l.length) : entry l i ≤ entry l j := by
  rcases Nat.eq_or_lt_of_le hij with rfl | hlt
  · exact le_rfl
  · exact (entry_lt hl hlt hj).le

/-! ### `lower_bound` -/

/-- The loop of `std::lower_bound` over the `len` entries from `first` on. -/
def lowerBoundLoop (l : List α) (key : α) (first len : Nat) : Nat :=
  if _h : 0 < len then
    let half := len / 2
    if entry l (first + half) < key then
      lowerBoundLoop l key (first + half + 1) (len - half - 1)
    else lowerBoundLoop l key first half
  else first
termination_by len

def lowerBound (l : List α) (key : α) : Nat := lowerBoundLoop l key 0 l.length

variable {l : List α} {key : α}

/-- What the loop has passed is below the key, and what it has cut off is not. -/
lemma lowerBoundLoop_spec (hl : l.Pairwise (· < ·)) {first len : Nat}
    (hle : first + len ≤ l.length) (hbelow : ∀ j < first, entry l j < key)
    (habove : ∀ j, first + len ≤ j → j < l.length → ¬ entry l j < key) :
    lowerBoundLoop l key first len ≤ l.length ∧
      Splits l key (lowerBoundLoop l key first len) := by
  induction hn : len using Nat.strong_induction_on generalizing first len with
  | h n ih =>
    subst hn
    rw [lowerBoundLoop]
    by_cases hpos : 0 < len
    · rw [dif_pos hpos]
      have hhalf : len / 2 < len := Nat.div_lt_self hpos (by decide)
      by_cases hlt : entry l (first + len / 2) < key
      · rw [if_pos hlt]
        refine ih (len - len / 2 - 1) (by omega) (by omega) ?_ ?_ rfl
        · intro j hj
          exact (entry_le hl (by omega) (by omega)).trans_lt hlt
        · intro j hj hjl
          exact habove j (by omega) hjl
      · rw [if_neg hlt]
        refine ih (len / 2) hhalf (by omega) hbelow ?_ rfl
        intro j hj hjl
        exact not_lt.mpr ((not_lt.mp hlt).trans (entry_le hl hj hjl))
    · rw [dif_neg hpos]
      refine ⟨by omega, fun j hj => ⟨fun hlt => ?_, hbelow j⟩⟩
      by_contra hge
      exact habove j (by omega) hj hlt

theorem lowerBound_spec (key : α) (hl : l.Pairwise (· < ·)) :
    lowerBound l key ≤ l.length ∧ Splits l key (lowerBound l key) :=
  lowerBoundLoop_spec hl (by omega) (fun j hj => absurd hj (Nat.not_lt_zero j))
    fun j hj hjl => absurd hj (by omega)

/-! ### `binary_search` -/

/-- The loop of `binary_search`: the last entry that is not above the key, if there is one, is among
the `size` entries from `base` on. -/
def binarySearchLoop (l : List α) (key : α) (base size : Nat) : Nat :=
  if _h : 1 < size then
    let half := size / 2
    let mid := base + half
    binarySearchLoop l key (if key < entry l mid then base else mid) (size - half)
  else base
termination_by size

/-- `Ok` with the place of the key, or `Err` with the place where it would be. -/
def binarySearch (l : List α) (key : α) : Except Nat Nat :=
  if l.length = 0 then .error 0
  else
    let base := binarySearchLoop l key 0 l.length
    if entry l base = key then .ok base
    else if entry l base < key then .error (base + 1)
    else .error base

/-- The entries behind the result are above the key, and the result is not, unless it is the
first. -/
lemma binarySearchLoop_spec (key : α) (hl : l.Pairwise (· < ·)) (base : Nat) {size : Nat}
    (hpos : 0 < size) (hle : base + size ≤ l.length) (hbase : base = 0 ∨ entry l base ≤ key)
    (habove : ∀ j, base + size ≤ j → j < l.length → key < entry l j) :
    let r := binarySearchLoop l key base size
    r < l.length ∧ (r = 0 ∨ entry l r ≤ key) ∧ ∀ j, r < j → j < l.length → key < entry l j := by
  induction hn : size using Nat.strong_induction_on generalizing base size with
  | h n ih =>
    subst hn
    rw [binarySearchLoop]
    by_cases hmany : 1 < size
    · rw [dif_pos hmany]
      have hhalf : 0 < size / 2 := Nat.div_pos hmany (by decide)
      by_cases hlt : key < entry l (base + size / 2)
      · simp only [if_pos hlt]
        refine ih (size - size / 2) (by omega) base (by omega) (by omega) hbase ?_ rfl
        intro j hj hjl
        exact hlt.trans_le (entry_le hl (by omega) hjl)
      · simp only [if_neg hlt]
        refine ih (size - size / 2) (by omega) (base + size / 2) (by omega) (by omega)
          (.inr (not_lt.mp hlt)) ?_ rfl
        intro j hj hjl
        exact habove j (by omega) hjl
    · rw [dif_neg hmany]
      exact ⟨by omega, hbase, fun j hj hjl => habove j (by omega) hjl⟩

/-- A key that is found is at the place, and one that is not found would be at the place. -/
theorem binarySearch_spec (key : α) (hl : l.Pairwise (· < ·)) :
    match binarySearch l key with
    | .ok i => i < l.length ∧ entry l i = key ∧ Splits l key i
    | .error i => i ≤ l.length ∧ (∀ j < l.length, entry l j ≠ key) ∧ Splits l key i := by
  rw [binarySearch]
  by_cases hnil : l.length = 0
  · rw [if_pos hnil]
    exact ⟨Nat.zero_le _, fun j hj => absurd hj (by omega), fun j hj => absurd hj (by omega)⟩
  · rw [if_neg hnil]
    obtain ⟨hr, hbase, habove⟩ := binarySearchLoop_spec key hl 0
      (Nat.pos_of_ne_zero hnil) (by omega) (.inl rfl) fun j hj hjl => absurd hj (by omega)
    dsimp only
    generalize binarySearchLoop l key 0 l.length = r at hr hbase habove
    by_cases heq : entry l r = key
    · rw [if_pos heq]
      refine ⟨hr, heq, fun j hj => ⟨fun hlt => ?_, fun hlt => heq ▸ entry_lt hl hlt hr⟩⟩
      by_contra hge
      exact absurd (heq ▸ entry_le hl (not_lt.mp hge) hj) (not_le.mpr hlt)
    · rw [if_neg heq]
      by_cases hlt : entry l r < key
      · rw [if_pos hlt]
        have hsplit : Splits l key (r + 1) := by
          intro j hj
          constructor
          · intro hjlt
            by_contra hge
            exact lt_asymm hjlt (habove j (by omega) hj)
          · intro hjr
            exact (entry_le hl (by omega) hr).trans_lt hlt
        refine ⟨hr, fun j hj hkey => ?_, hsplit⟩
        rcases Nat.lt_or_ge r j with hrj | hjr
        · exact (habove j hrj hj).ne' hkey
        · exact ((hsplit j hj).mpr (by omega)).ne hkey
      · rw [if_neg hlt]
        have hzero : r = 0 :=
          hbase.resolve_right fun hle => hlt (lt_of_le_of_ne hle heq)
        subst hzero
        have hkey : key < entry l 0 := lt_of_le_of_ne (not_lt.mp hlt) (Ne.symm heq)
        have hall : ∀ j < l.length, key < entry l j := fun j hj =>
          hkey.trans_le (entry_le hl (Nat.zero_le j) hj)
        refine ⟨Nat.zero_le _, fun j hj => (hall j hj).ne', fun j hj => ?_⟩
        exact ⟨fun hjlt => absurd hjlt (hall j hj).asymm, fun h => absurd h (Nat.not_lt_zero j)⟩

end Search
