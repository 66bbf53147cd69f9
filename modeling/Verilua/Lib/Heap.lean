import Mathlib.GroupTheory.Perm.Cycle.Basic
import Mathlib.Order.Interval.Finset.Nat
import Mathlib.Data.Nat.Factorial.Basic

/-!
# Heap's enumeration of permutations

The permutations of the positions `1` to `n`, in the order in which they arise if one exchange leads
from each to the next. Those of `1` to `k + 1` are `k + 1` blocks of those of `1` to `k`, with an
exchange that brings another value to the position `k + 1` before each block but the first.

What a block does as a whole decides which value that is: where `k` is even, a block is a cycle of all
positions, and where it is odd, the exchange of the first and the last.
-/

namespace Heap

open Equiv

/-! ### Cycles -/

section Cycle

variable {α : Type*} [DecidableEq α] {g : Perm α} {s : Finset α} {a b : α}

lemma isCycleOn_insert (h : g.IsCycleOn s) (ha : a ∈ s) (hb : b ∉ s) (hg : g b = b) :
    (g * swap a b).IsCycleOn (insert b s : Finset α) := by
  have hab : a ≠ b := fun heq => hb (heq ▸ ha)
  have hs : ∀ x, g x ∈ s ↔ x ∈ s := fun x => h.apply_mem_iff
  have happly_b : (g * swap a b) b = g a := by simp
  have happly_a : (g * swap a b) a = b := by simp [hg]
  have happly : ∀ x, x ≠ a → x ≠ b → (g * swap a b) x = g x := by
    intro x hxa hxb
    simp [swap_apply_of_ne_of_ne hxa hxb]
  have hmem : ∀ x, (g * swap a b) x ∈ (insert b s : Finset α) ↔ x ∈ (insert b s : Finset α) := by
    intro x
    by_cases hxb : x = b
    · rw [hxb, happly_b]
      simp [(hs a).mpr ha]
    · by_cases hxa : x = a
      · rw [hxa, happly_a]
        simp [ha]
      · have hne : g x ≠ b := fun heq => hxb (g.injective (heq.trans hg.symm))
        rw [happly x hxa hxb]
        simp [hne, hxb, hs]
  -- From `a`, the longer cycle reaches what the shorter one does.
  have hpow : ∀ n : ℕ, (g * swap a b).SameCycle a ((g ^ n) a) := by
    intro n
    induction n with
    | zero => exact Perm.SameCycle.refl _ _
    | succ n ih =>
      have hpow_mem : (g ^ n) a ∈ s := (h.1.mapsTo.perm_pow n) ha
      rw [pow_succ', Perm.mul_apply]
      by_cases hna : (g ^ n) a = a
      · rw [hna]
        refine ⟨2, ?_⟩
        show ((g * swap a b) ^ (2 : ℕ)) a = g a
        rw [pow_two, Perm.mul_apply, happly_a, happly_b]
      · have hnb : (g ^ n) a ≠ b := fun heq => hb (heq ▸ hpow_mem)
        rw [← happly _ hna hnb]
        exact Perm.sameCycle_apply_right.mpr ih
  have hsame : ∀ x ∈ (insert b s : Finset α), (g * swap a b).SameCycle a x := by
    intro x hx
    rcases Finset.mem_insert.mp hx with rfl | hx
    · exact ⟨1, by simpa using happly_a⟩
    · obtain ⟨n, -, rfl⟩ := h.exists_pow_eq ha hx
      exact hpow n
  refine ⟨(g * swap a b).bijOn hmem, fun x hx y hy => ?_⟩
  exact (hsame x hx).symm.trans (hsame y hy)

end Cycle

/-! ### The enumeration -/

/-- The exchange behind block `r` of level `k`. -/
def exchange (k r : ℕ) : Perm ℕ := swap (if k % 2 = 0 then 1 else r + 1) (k + 1)

/-- What has been done before block `r` of level `k`, where `g` is what a block does. -/
def offset (g : Perm ℕ) (k : ℕ) : ℕ → Perm ℕ
  | 0 => 1
  | r + 1 => offset g k r * g * exchange k r

/-- What all blocks of a level do together. -/
def last : ℕ → Perm ℕ
  | 0 => 1
  | k + 1 => offset (last k) k k * last k

/-- The permutations of the positions `1` to `n`, in order. -/
def perms : ℕ → List (Perm ℕ)
  | 0 => [1]
  | k + 1 => (List.range (k + 1)).flatMap fun r => (perms k).map (offset (last k) k r * ·)

/-- Only the positions `1` to `n` are moved. -/
def Within (n : ℕ) (π : Perm ℕ) : Prop := ∀ x ∉ Finset.Icc 1 n, π x = x

variable {n k r : ℕ} {π ρ g : Perm ℕ}

lemma Within.one : Within n 1 := fun _ _ => rfl

lemma Within.mul (h : Within n π) (h' : Within n ρ) : Within n (π * ρ) := by
  intro x hx
  rw [Perm.mul_apply, h' x hx, h x hx]

lemma Within.inv (h : Within n π) : Within n π⁻¹ := by
  intro x hx
  rw [Perm.inv_eq_iff_eq]
  exact (h x hx).symm

lemma Within.mono (h : Within n π) (hle : n ≤ k) : Within k π := by
  intro x hx
  refine h x fun hmem => hx ?_
  rw [Finset.mem_Icc] at hmem ⊢
  exact ⟨hmem.1, hmem.2.trans hle⟩

lemma Within.apply_mem (h : Within n π) {x : ℕ} (hx : x ∈ Finset.Icc 1 n) :
    π x ∈ Finset.Icc 1 n := by
  by_contra hnot
  have heq : π x = x := π.injective (h _ hnot)
  exact hnot (heq.symm ▸ hx)

lemma within_swap {a b : ℕ} (ha : a ∈ Finset.Icc 1 n) (hb : b ∈ Finset.Icc 1 n) :
    Within n (swap a b) := by
  intro x hx
  exact swap_apply_of_ne_of_ne (fun heq => hx (heq ▸ ha)) (fun heq => hx (heq ▸ hb))

lemma within_exchange (h : r ≤ k) : Within (k + 1) (exchange k r) := by
  apply within_swap
  · rw [Finset.mem_Icc]
    split_ifs <;> omega
  · rw [Finset.mem_Icc]
    omega

lemma within_offset (h : Within (k + 1) g) (hr : r ≤ k + 1) : Within (k + 1) (offset g k r) := by
  induction r with
  | zero => exact .one
  | succ r ih => exact ((ih (Nat.le_of_succ_le hr)).mul h).mul (within_exchange (by omega))

lemma within_last : Within k (last k) := by
  induction k with
  | zero => exact .one
  | succ k ih =>
    have hlast : Within (k + 1) (last k) := ih.mono (Nat.le_succ k)
    exact (within_offset hlast (Nat.le_succ k)).mul hlast

lemma insert_Icc : insert (k + 1) (Finset.Icc 1 k) = Finset.Icc 1 (k + 1) := by
  ext x
  simp only [Finset.mem_insert, Finset.mem_Icc]
  omega

/-! ### Even levels -/

lemma offset_even (hk : k % 2 = 0) : offset g k r = (g * swap 1 (k + 1)) ^ r := by
  induction r with
  | zero => rfl
  | succ r ih => rw [offset, ih, exchange, if_pos hk, mul_assoc, pow_succ]

/-- The cycle of a block with the exchange behind it. -/
lemma isCycleOn_even (hpos : 0 < k) (h : Within k g) (hg : g.IsCycleOn (Finset.Icc 1 k)) :
    (g * swap 1 (k + 1)).IsCycleOn (Finset.Icc 1 (k + 1)) := by
  have hnot : k + 1 ∉ Finset.Icc 1 k := by simp
  have hcycle := isCycleOn_insert hg (Finset.mem_Icc.mpr ⟨Nat.le_refl 1, hpos⟩) hnot (h _ hnot)
  rwa [insert_Icc] at hcycle

lemma pow_even (hpos : 0 < k) (h : Within k g) (hg : g.IsCycleOn (Finset.Icc 1 k)) :
    (g * swap 1 (k + 1)) ^ (k + 1) = 1 := by
  have hwithin : Within (k + 1) (g * swap 1 (k + 1)) :=
    (h.mono (Nat.le_succ k)).mul (within_swap (by simp) (by simp))
  have hpow : ∀ m, Within (k + 1) ((g * swap 1 (k + 1)) ^ m) := by
    intro m
    induction m with
    | zero => exact .one
    | succ m ih =>
      rw [pow_succ]
      exact ih.mul hwithin
  ext x
  by_cases hx : x ∈ Finset.Icc 1 (k + 1)
  · have hcard := (isCycleOn_even hpos h hg).pow_card_apply hx
    rwa [Nat.card_Icc, Nat.add_sub_cancel] at hcard
  · exact hpow _ x hx

/-- The blocks of an even level go around once and one exchange less. -/
lemma last_even (hk : k % 2 = 0) (hg : (last k).IsCycleOn (Finset.Icc 1 k)) :
    last (k + 1) = swap 1 (k + 1) := by
  rcases Nat.eq_zero_or_pos k with rfl | hpos
  · simp [last, offset, Perm.one_def]
  · have hturn := pow_even hpos within_last hg
    rw [last, offset_even hk]
    rw [pow_succ, ← mul_assoc] at hturn
    exact (mul_eq_one_iff_eq_inv.mp hturn).trans (swap_inv 1 (k + 1))

/-! ### Odd levels -/

/-- The exchanges of an odd level as seen past those of its blocks. -/
def star (k : ℕ) : ℕ → Perm ℕ
  | 0 => 1
  | r + 1 => star k r * swap (swap 1 k (r + 1)) (k + 1)

lemma swap_pow_apply {m : ℕ} (hk : k % 2 = 1) : (swap 1 k ^ m) m = swap 1 k m := by
  rcases Nat.even_or_odd' m with ⟨q, hq | hq⟩
  · have hone : swap 1 k ^ m = 1 := by rw [hq, pow_mul, pow_two, swap_mul_self, one_pow]
    rw [hone, swap_apply_of_ne_of_ne (by omega) (by omega)]
    rfl
  · have hone : swap 1 k ^ m = swap 1 k := by
      rw [hq, pow_succ, pow_mul, pow_two, swap_mul_self, one_pow, one_mul]
    rw [hone]

lemma swap_pow_last {m : ℕ} (hpos : 0 < k) : (swap 1 k ^ m) (k + 1) = k + 1 := by
  induction m with
  | zero => rfl
  | succ m ih => rw [pow_succ, Perm.mul_apply, swap_apply_of_ne_of_ne (by omega) (by omega), ih]

lemma offset_odd (hk : k % 2 = 1) : offset (swap 1 k) k r = star k r * swap 1 k ^ r := by
  induction r with
  | zero => rfl
  | succ r ih =>
    rw [offset, star, ih, exchange, if_neg (by omega), mul_assoc (star k r), ← pow_succ, mul_assoc,
      mul_swap_eq_swap_mul, swap_pow_apply hk, swap_pow_last (by omega), ← mul_assoc]

/-- The values that the first `r` exchanges of an odd level bring to the last position. -/
def brought (k r : ℕ) : Finset ℕ := insert (k + 1) ((Finset.Icc 1 r).image (swap 1 k))

lemma mem_Icc_swap (hpos : 0 < k) (hr : 0 < r) (hle : r ≤ k) :
    swap 1 k r ∈ Finset.Icc 1 k := by
  rw [Finset.mem_Icc, swap_apply_def]
  split_ifs <;> omega

lemma next_not_mem_brought (hpos : 0 < k) (hle : r + 1 ≤ k) : swap 1 k (r + 1) ∉ brought k r := by
  have hmem := Finset.mem_Icc.mp (mem_Icc_swap (r := r + 1) hpos (Nat.succ_pos r) hle)
  simp only [brought, Finset.mem_insert, Finset.mem_image, not_or]
  refine ⟨by omega, ?_⟩
  rintro ⟨x, hx, heq⟩
  have hx' := Finset.mem_Icc.mp hx
  have heq' : x = r + 1 := (swap 1 k).injective heq
  omega

lemma brought_succ : brought k (r + 1) = insert (swap 1 k (r + 1)) (brought k r) := by
  unfold brought
  rw [← insert_Icc, Finset.image_insert, Finset.insert_comm]

lemma brought_all (hpos : 0 < k) : brought k k = Finset.Icc 1 (k + 1) := by
  have himage : (Finset.Icc 1 k).image (swap 1 k) = Finset.Icc 1 k := by
    apply Finset.eq_of_subset_of_card_le
    · intro x hx
      obtain ⟨y, hy, rfl⟩ := Finset.mem_image.mp hx
      exact mem_Icc_swap hpos (Finset.mem_Icc.mp hy).1 (Finset.mem_Icc.mp hy).2
    · rw [Finset.card_image_of_injective _ (swap 1 k).injective]
  rw [brought, himage, insert_Icc]

lemma isCycleOn_star (hpos : 0 < k) (hle : r ≤ k) :
    (star k r).IsCycleOn (brought k r) ∧ ∀ x ∉ brought k r, star k r x = x := by
  induction r with
  | zero =>
    refine ⟨?_, fun _ _ => rfl⟩
    simp [brought, star]
  | succ r ih =>
    obtain ⟨hcycle, hrest⟩ := ih (Nat.le_of_succ_le hle)
    have hnot := next_not_mem_brought hpos hle
    rw [star, swap_comm, brought_succ]
    refine ⟨isCycleOn_insert hcycle (Finset.mem_insert_self _ _) hnot (hrest _ hnot), ?_⟩
    intro x hx
    obtain ⟨hne, hx'⟩ := not_or.mp (mt Finset.mem_insert.mpr hx)
    have hlast : x ≠ k + 1 := fun heq => hx' (heq ▸ Finset.mem_insert_self _ _)
    rw [Perm.mul_apply, swap_apply_of_ne_of_ne hlast hne, hrest x hx']

lemma star_last (hpos : 0 < k) (hle : r + 1 ≤ k) : star k (r + 1) (k + 1) = swap 1 k (r + 1) := by
  rw [star, Perm.mul_apply, swap_apply_right]
  exact (isCycleOn_star hpos (Nat.le_of_succ_le hle)).2 _ (next_not_mem_brought hpos hle)

lemma isCycleOn_last_odd (hk : k % 2 = 1) (hg : last k = swap 1 k) :
    (last (k + 1)).IsCycleOn (Finset.Icc 1 (k + 1)) := by
  have hpow : swap 1 k ^ k * swap 1 k = 1 := by
    obtain ⟨q, hq⟩ : ∃ q, k + 1 = 2 * q := ⟨(k + 1) / 2, by omega⟩
    rw [← pow_succ, hq, pow_mul, pow_two, swap_mul_self, one_pow]
  rw [last, hg, offset_odd hk, mul_assoc, hpow, mul_one, ← brought_all (by omega)]
  exact (isCycleOn_star (by omega) (Nat.le_refl k)).1

/-! ### Every permutation, once -/

theorem last_parity (k : ℕ) : (k % 2 = 1 → last k = swap 1 k) ∧
    (k % 2 = 0 → (last k).IsCycleOn (Finset.Icc 1 k)) := by
  induction k with
  | zero => exact ⟨nofun, fun _ => by simp⟩
  | succ k ih =>
    constructor
    · intro hk
      have hk' : k % 2 = 0 := by omega
      exact last_even hk' (ih.2 hk')
    · intro hk
      have hk' : k % 2 = 1 := by omega
      exact isCycleOn_last_odd hk' (ih.1 hk')

/-- The blocks of a level have different values in the last position. -/
lemma offset_injective {r' : ℕ} (hr : r ≤ k) (hr' : r' ≤ k)
    (h : offset (last k) k r (k + 1) = offset (last k) k r' (k + 1)) : r = r' := by
  rcases Nat.eq_zero_or_pos k with rfl | hpos
  · omega
  rcases Nat.mod_two_eq_zero_or_one k with hk | hk
  · rw [offset_even hk, offset_even hk] at h
    have hcycle := isCycleOn_even hpos within_last ((last_parity k).2 hk)
    have hmod := (hcycle.pow_apply_eq_pow_apply (by simp)).mp h
    rw [Nat.card_Icc, Nat.add_sub_cancel] at hmod
    exact hmod.eq_of_lt_of_lt (Nat.lt_succ_of_le hr) (Nat.lt_succ_of_le hr')
  · rw [(last_parity k).1 hk, offset_odd hk, offset_odd hk, Perm.mul_apply, Perm.mul_apply,
      swap_pow_last hpos, swap_pow_last hpos] at h
    have hfirst : ∀ m, m + 1 ≤ k → star k (m + 1) (k + 1) ≠ star k 0 (k + 1) := by
      intro m hm heq
      have hmem := Finset.mem_Icc.mp (mem_Icc_swap (r := m + 1) hpos (Nat.succ_pos m) hm)
      rw [star_last hpos hm, star, Perm.one_apply] at heq
      omega
    cases r with
    | zero =>
      cases r' with
      | zero => rfl
      | succ m' => exact absurd h.symm (hfirst m' hr')
    | succ m =>
      cases r' with
      | zero => exact absurd h (hfirst m hr)
      | succ m' =>
        rw [star_last hpos hr, star_last hpos hr'] at h
        exact (swap 1 k).injective h

lemma within_offset_last (hr : r ≤ k) : Within (k + 1) (offset (last k) k r) :=
  within_offset (within_last.mono (Nat.le_succ k)) (Nat.le_succ_of_le hr)

/-- Every value is in the last position in some block. -/
lemma exists_offset {x : ℕ} (hx : x ∈ Finset.Icc 1 (k + 1)) :
    ∃ r ≤ k, offset (last k) k r (k + 1) = x := by
  have himage : (Finset.range (k + 1)).image (fun r => offset (last k) k r (k + 1)) =
      Finset.Icc 1 (k + 1) := by
    apply Finset.eq_of_subset_of_card_le
    · intro y hy
      obtain ⟨r, hr, rfl⟩ := Finset.mem_image.mp hy
      exact (within_offset_last (Nat.le_of_lt_succ (Finset.mem_range.mp hr))).apply_mem (by simp)
    · rw [Finset.card_image_of_injOn, Finset.card_range, Nat.card_Icc, Nat.add_sub_cancel]
      intro r hr r' hr' heq
      have hle := Finset.mem_range.mp (Finset.mem_coe.mp hr)
      have hle' := Finset.mem_range.mp (Finset.mem_coe.mp hr')
      exact offset_injective (Nat.le_of_lt_succ hle) (Nat.le_of_lt_succ hle') heq
  rw [← himage] at hx
  obtain ⟨r, hr, heq⟩ := Finset.mem_image.mp hx
  exact ⟨r, Nat.le_of_lt_succ (Finset.mem_range.mp hr), heq⟩

lemma mem_perms_succ :
    π ∈ perms (k + 1) ↔ ∃ r ≤ k, ∃ ρ ∈ perms k, offset (last k) k r * ρ = π := by
  simp only [perms, List.mem_flatMap, List.mem_range, List.mem_map, Nat.lt_succ_iff]

theorem mem_perms : π ∈ perms n ↔ Within n π := by
  induction n generalizing π with
  | zero =>
    simp only [perms, List.mem_singleton]
    constructor
    · rintro rfl
      exact .one
    · intro h
      ext x
      exact h x (by simp)
  | succ k ih =>
    rw [mem_perms_succ]
    constructor
    · rintro ⟨r, hr, ρ, hρ, rfl⟩
      exact (within_offset_last hr).mul ((ih.mp hρ).mono (Nat.le_succ k))
    · intro h
      obtain ⟨r, hr, hlast⟩ := exists_offset (h.apply_mem (by simp : k + 1 ∈ Finset.Icc 1 (k + 1)))
      refine ⟨r, hr, (offset (last k) k r)⁻¹ * π, ih.mpr ?_, mul_inv_cancel_left _ _⟩
      intro x hx
      by_cases heq : x = k + 1
      · rw [heq, Perm.mul_apply, ← hlast]
        exact symm_apply_apply _ _
      · refine ((within_offset_last hr).inv.mul h) x fun hmem => hx ?_
        rw [Finset.mem_Icc] at hmem ⊢
        omega

theorem nodup_perms : (perms n).Nodup := by
  induction n with
  | zero => exact List.nodup_singleton 1
  | succ k ih =>
    rw [perms, List.nodup_flatMap]
    constructor
    · exact fun r _ => ih.map (mul_right_injective _)
    · refine List.nodup_range.imp_of_mem fun {r r'} hr hr' hne π hmem hmem' => hne ?_
      obtain ⟨ρ, hρ, rfl⟩ := List.mem_map.mp hmem
      obtain ⟨ρ', hρ', heq⟩ := List.mem_map.mp hmem'
      have hnot : k + 1 ∉ Finset.Icc 1 k := by simp
      have hlast := congrArg (fun π : Perm ℕ => π (k + 1)) heq
      simp only [Perm.mul_apply, mem_perms.mp hρ _ hnot, mem_perms.mp hρ' _ hnot] at hlast
      exact (offset_injective (Nat.le_of_lt_succ (List.mem_range.mp hr'))
        (Nat.le_of_lt_succ (List.mem_range.mp hr)) hlast).symm

theorem length_perms : (perms n).length = n.factorial := by
  induction n with
  | zero => rfl
  | succ k ih => simp [perms, List.length_flatMap, ih, Nat.factorial_succ]

end Heap
