import Verilua.Lib.Fifo
import Mathlib.Data.List.Nodup
import Mathlib.Data.List.Perm.Basic
import Mathlib.Logic.Equiv.Basic

/-!
# Shuffling the slots of a table

A shuffle is a loop of exchanges of two slots, one of which is drawn. `Shuffled` says what any such
loop makes of a table, whatever is drawn.
-/

namespace Shuffle

open Fifo

variable {S V : Type*}

/-! ### The loop and the draws -/

/-- `for i = n, 2, -1`, where `body` is what is done for `i`. -/
def downTo2 (body : Nat → S → S) : Nat → S → S
  | 0, s => s
  | 1, s => s
  | n + 2, s => downTo2 body (n + 1) (body (n + 2) s)

theorem downTo2_invariant {body : Nat → S → S} {I : S → Prop} {n : Nat} {s : S}
    (hbody : ∀ i s, 2 ≤ i → i ≤ n → I s → I (body i s)) (h : I s) : I (downTo2 body n s) := by
  induction n using Nat.strong_induction_on generalizing s with
  | h n ih =>
    match n with
    | 0 => exact h
    | 1 => exact h
    | m + 2 =>
      have hfirst : I (body (m + 2) s) := hbody _ s (Nat.le_add_left 2 m) (Nat.le_refl _) h
      exact ih (m + 1) (Nat.lt_succ_self _)
        (fun i s hi hle => hbody i s hi (Nat.le_succ_of_le hle)) hfirst

/-- What `random(1, i)` returns, for every `i`. -/
structure Draws where
  draw : Nat → Nat
  pos : ∀ i, 0 < i → 0 < draw i
  le : ∀ i, 0 < i → draw i ≤ i

/-- The two slots of a step of the loop, counted from 0. -/
lemma Draws.exists_slots (draws : Draws) {i : Nat} (hi : 2 ≤ i) :
    ∃ m j, i = m + 1 ∧ draws.draw i = j + 1 ∧ j < i := by
  have hpos := draws.pos i (by omega)
  have hle := draws.le i (by omega)
  exact ⟨i - 1, draws.draw i - 1, by omega, by omega, by omega⟩

/-! ### Exchanges -/

/-- `t[a], t[b] = t[b], t[a]`. -/
def exchange (t : Nat → V) (a b : Nat) : Nat → V :=
  Function.update (Function.update t a (t b)) b (t a)

variable {t t' : Nat → V} {pos : Nat → Nat} {n a b i j k : Nat}

lemma exchange_eq : exchange t a b k = t (Equiv.swap a b k) := by
  unfold exchange
  by_cases hb : k = b
  · rw [hb, Function.update_self, Equiv.swap_apply_right]
  · rw [Function.update_of_ne hb]
    by_cases ha : k = a
    · rw [ha, Function.update_self, Equiv.swap_apply_left]
    · rw [Function.update_of_ne ha, Equiv.swap_apply_of_ne_of_ne ha hb]

lemma exchange_of_ne (ha : k ≠ a) (hb : k ≠ b) : exchange t a b k = t k := by
  rw [exchange_eq, Equiv.swap_apply_of_ne_of_ne ha hb]

/-- Two tables with the same exchanges are exchanged as one table of pairs. -/
lemma exchange_pair {W : Type*} {u : Nat → W} :
    (fun k => (exchange t a b k, exchange u a b k)) = exchange (fun k => (t k, u k)) a b := by
  funext k
  simp only [exchange_eq]

/-- The slots `pos 0` to `pos (n - 1)` are different. -/
def Apart (pos : Nat → Nat) (n : Nat) : Prop := ∀ i j, i < n → j < n → pos i = pos j → i = j

lemma range_swap_perm (hi : i < n) (hj : j < n) :
    ((List.range n).map (Equiv.swap i j)).Perm (List.range n) := by
  have hnodup : ((List.range n).map (Equiv.swap i j)).Nodup :=
    List.nodup_range.map (Equiv.swap i j).injective
  rw [List.perm_ext_iff_of_nodup hnodup List.nodup_range]
  intro k
  have hswap : ∀ k < n, Equiv.swap i j k < n := by
    intro k hk
    rw [Equiv.swap_apply_def]
    split_ifs <;> assumption
  simp only [List.mem_map, List.mem_range]
  constructor
  · rintro ⟨k, hk, rfl⟩
    exact hswap k hk
  · intro hk
    exact ⟨Equiv.swap i j k, hswap k hk, Equiv.swap_apply_self i j k⟩

lemma slots_exchange (hpos : Apart pos n) (hi : i < n) (hj : j < n) :
    (slots (exchange t (pos i) (pos j)) pos n).Perm (slots t pos n) := by
  have hread : ∀ k < n, exchange t (pos i) (pos j) (pos k) = t (pos (Equiv.swap i j k)) := by
    intro k hk
    rw [exchange_eq]
    congr 1
    rw [Equiv.swap_apply_def, Equiv.swap_apply_def]
    by_cases hki : k = i
    · rw [if_pos (congrArg pos hki), if_pos hki]
    · rw [if_neg fun h => hki (hpos k i hk hi h), if_neg hki]
      by_cases hkj : k = j
      · rw [if_pos (congrArg pos hkj), if_pos hkj]
      · rw [if_neg fun h => hkj (hpos k j hk hj h), if_neg hkj]
  have hslots : slots (exchange t (pos i) (pos j)) pos n =
      ((List.range n).map (Equiv.swap i j)).map fun k => t (pos k) := by
    rw [List.map_map]
    exact List.map_congr_left fun k hk => hread k (List.mem_range.mp hk)
  rw [hslots]
  exact (range_swap_perm hi hj).map _

/-- `t'` holds the values of `t` in some order, and the other slots are as they were. -/
structure Shuffled (pos : Nat → Nat) (n : Nat) (t t' : Nat → V) : Prop where
  perm : (slots t' pos n).Perm (slots t pos n)
  rest : ∀ k, (∀ i < n, k ≠ pos i) → t' k = t k

lemma Shuffled.refl : Shuffled pos n t t := ⟨.refl _, fun _ _ => rfl⟩

lemma Shuffled.exchange (h : Shuffled pos n t t') (hpos : Apart pos n) (hi : i < n) (hj : j < n) :
    Shuffled pos n t (exchange t' (pos i) (pos j)) where
  perm := (slots_exchange hpos hi hj).trans h.perm
  rest k hk := by
    rw [exchange_of_ne (hk i hi) (hk j hj)]
    exact h.rest k hk

/-- Whatever is drawn, the loop puts the first `n` entries of a table in some order. -/
lemma shuffled_downTo2 (draws : Draws) (n : Nat) (t : Nat → V) :
    Shuffled (· + 1) n t (downTo2 (fun i t => exchange t i (draws.draw i)) n t) := by
  have hapart : Apart (· + 1) n := fun _ _ _ _ h => Nat.succ.inj h
  refine downTo2_invariant (I := Shuffled (· + 1) n t) ?_ .refl
  intro i t' hi hle ht'
  obtain ⟨m, j, rfl, hj, hlt⟩ := draws.exists_slots hi
  rw [hj]
  exact ht'.exchange hapart (Nat.lt_of_succ_le hle) (hlt.trans_le hle)

/-- Where the values are different, each order of them is made by the draws of one kind only: they
are known from it, one after the other. -/
theorem exists_draws_iff {l : List V} (hnodup : (slots t (· + 1) n).Nodup)
    (hl : l.Perm (slots t (· + 1) n)) : ∃ d : Draws, ∀ draws : Draws,
      slots (downTo2 (fun i t => exchange t i (draws.draw i)) n t) (· + 1) n = l ↔
        ∀ i, 2 ≤ i → i ≤ n → draws.draw i = d.draw i := by
  let draws₀ : Draws := ⟨id, fun _ h => h, fun _ _ => le_rfl⟩
  induction n generalizing t l with
  | zero =>
    refine ⟨draws₀, fun draws => iff_of_true ?_ fun i hi hle => by omega⟩
    exact (List.perm_nil.mp hl).symm
  | succ n ih =>
    cases n with
    | zero =>
      refine ⟨draws₀, fun draws => iff_of_true ?_ fun i hi hle => by omega⟩
      exact (List.perm_singleton.mp hl).symm
    | succ m =>
      -- the last value of the order tells the first draw
      have hlen : l.length = m + 2 := by rw [hl.length_eq, slots, List.length_map, List.length_range]
      obtain ⟨rest, v, rfl⟩ : ∃ rest v, l = rest ++ [v] :=
        List.eq_nil_or_concat' l |>.resolve_left fun h => by simp [h] at hlen
      obtain ⟨j, hj, rfl⟩ :=
        List.mem_map.mp (hl.subset (List.mem_append_right rest List.mem_cons_self))
      rw [List.mem_range] at hj
      have hinj : ∀ k, 0 < k → k ≤ m + 2 → (t k = t (j + 1) ↔ k = j + 1) := by
        intro k hpos hk
        refine ⟨fun heq => ?_, fun heq => heq ▸ rfl⟩
        have hget := List.inj_on_of_nodup_map hnodup (x := k - 1) (y := j)
          (List.mem_range.mpr (by omega)) (List.mem_range.mpr hj)
        simp only [Nat.sub_add_cancel hpos] at hget
        have := hget heq
        omega
      have hapart : Apart (· + 1) (m + 2) := fun _ _ _ _ h => Nat.succ.inj h
      have hperm := slots_exchange (t := t) hapart (Nat.lt_succ_self (m + 1)) hj
      have hlast : ∀ k, exchange t (m + 2) k (m + 2) = t k := by
        intro k
        rw [exchange_eq, Equiv.swap_apply_left]
      have hsplit := hl.trans hperm.symm
      rw [slots_succ, hlast, List.perm_append_right_iff] at hsplit
      have hnd := hperm.nodup_iff.mpr hnodup
      rw [slots_succ] at hnd
      obtain ⟨d, hd⟩ := ih (List.nodup_append.mp hnd).1 hsplit
      refine ⟨⟨fun i => if i = m + 2 then j + 1 else d.draw i, fun i hi => ?_, fun i hi => ?_⟩,
        fun draws => ?_⟩
      · split_ifs
        exacts [Nat.succ_pos j, d.pos i hi]
      · split_ifs with heq
        exacts [heq ▸ hj, d.le i hi]
      have hdraw := hinj _ (draws.pos (m + 2) (by omega)) (draws.le (m + 2) (by omega))
      have hkept := (shuffled_downTo2 draws (m + 1) (exchange t (m + 2) (draws.draw (m + 2)))).rest
        (m + 2) fun i hi => by omega
      rw [hlast] at hkept
      rw [downTo2, slots_succ, hkept]
      constructor
      · intro h i hi hle
        obtain ⟨hrest, hv⟩ := List.append_inj' h rfl
        have hk := hdraw.mp (List.singleton_inj.mp hv)
        rw [hk] at hrest
        dsimp only
        split_ifs with heq
        · rw [heq, hk]
        · exact (hd draws).mp hrest i hi (by omega)
      · intro h
        have hk : draws.draw (m + 2) = j + 1 := by simpa using h (m + 2) (by omega) le_rfl
        have hrest : ∀ i, 2 ≤ i → i ≤ m + 1 → draws.draw i = d.draw i := by
          intro i hi hle
          simpa [show i ≠ m + 2 by omega] using h i hi (by omega)
        rw [hk, (hd draws).mpr hrest]

lemma exists_perm_of_perm_map {α β : Type*} {f : α → β} {l : List α} {m : List β}
    (h : m.Perm (l.map f)) : ∃ l' : List α, l'.Perm l ∧ m = l'.map f := by
  have hforall : List.Forall₂ (fun b a => b = f a) (l.map f) l :=
    List.forall₂_map_left_iff.mpr (List.forall₂_same.mpr fun _ _ => rfl)
  obtain ⟨l', hl', hperm⟩ := List.perm_comp_forall₂ h hforall
  have heq : List.Forall₂ Eq m (l'.map f) := List.forall₂_map_right_iff.mpr hl'
  rw [List.forall₂_eq_eq_eq] at heq
  exact ⟨l', hperm, heq⟩

end Shuffle
