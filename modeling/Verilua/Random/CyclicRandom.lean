import Verilua.Lib.Shuffle

/-!
# `CyclicRandom`

The values of a range are shuffled and given out one after the other; when all have been given out
they are shuffled again. Whatever is drawn, each round gives out every value once.
-/

namespace Verilua

open Fifo Shuffle

/-- What `random(n)` returns after `randomseed(seed)`. -/
abbrev Prng := Int → Draws

/-- `values` is a table; `count` is its length. -/
structure CyclicRandom where
  genIdx : Nat
  size : Nat
  count : Nat
  values : Nat → Option Int

namespace CyclicRandom

/-- The table after `k` rounds of the loop `for i = start_value, end_value`. -/
def fill (startValue : Int) : Nat → Nat → Option Int
  | 0 => fun _ => none
  | k + 1 => Function.update (fill startValue k) (k + 1) (some (startValue + k))

def shuffle (prng : Prng) (seed : Int) (r : CyclicRandom) : CyclicRandom :=
  let draws := prng seed
  { r with values := downTo2 (fun n values => exchange values n (draws.draw n)) r.count r.values }

/-- `_init`: `none` where the assertion fails. -/
def init (prng : Prng) (startValue endValue : Int) : Option CyclicRandom :=
  if endValue > startValue then
    let size := (endValue - startValue + 1).toNat
    some (shuffle prng 0 ⟨1, size, size, fill startValue size⟩)
  else none

/-- `gen`; the first component is what it returns, `none` being `nil`. -/
def gen (prng : Prng) (seed : Option Int) (r : CyclicRandom) : Option Int × CyclicRandom :=
  let r := if r.genIdx > r.size then { r.shuffle prng (seed.getD 0) with genIdx := 1 } else r
  (r.values r.genIdx, { r with genIdx := r.genIdx + 1 })

/-- What a sequence of calls of `gen` returns. The generator is global, so that every call may find
it to be another one. -/
def gens (r : CyclicRandom) : List (Prng × Option Int) → List (Option Int)
  | [] => []
  | (prng, seed) :: calls => (r.gen prng seed).1 :: (r.gen prng seed).2.gens calls

/-- The values `start..end`. -/
def span (startValue endValue : Int) : List Int :=
  (List.range (endValue - startValue + 1).toNat).map fun i : Nat => startValue + i

variable {r : CyclicRandom} {l : List Int} {startValue endValue : Int}

/-! ### The array -/

/-- The array holds the values `l` in some order. -/
structure Holds (r : CyclicRandom) (l : List Int) : Prop where
  size : r.size = l.length
  count : r.count = l.length
  values : (slots r.values (· + 1) l.length).Perm (l.map some)

lemma fill_eq {k i : Nat} (hi : i < k) : fill startValue k (i + 1) = some (startValue + i) := by
  induction k with
  | zero => omega
  | succ k ih =>
    rw [fill]
    by_cases hik : i = k
    · rw [hik, Function.update_self]
    · rw [Function.update_of_ne (by omega)]
      exact ih (by omega)

lemma slots_fill (startValue : Int) (n : Nat) :
    slots (fill startValue n) (· + 1) n = (List.range n).map fun i : Nat => some (startValue + i) :=
  List.map_congr_left fun _ hi => fill_eq (List.mem_range.mp hi)

lemma Holds.shuffle (h : r.Holds l) (prng : Prng) (seed : Int) : (r.shuffle prng seed).Holds l where
  size := h.size
  count := h.count
  values := by
    have hshuffled : Shuffled (· + 1) l.length r.values (r.shuffle prng seed).values :=
      h.count ▸ shuffled_downTo2 (prng seed) r.count r.values
    exact hshuffled.perm.trans h.values

lemma Holds.get (h : r.Holds l) {i : Nat} (hi : i < l.length) : ∃ v, r.values (i + 1) = some v := by
  have hmem : r.values (i + 1) ∈ slots r.values (· + 1) l.length :=
    List.mem_map.mpr ⟨i, List.mem_range.mpr hi, rfl⟩
  obtain ⟨v, -, hv⟩ := List.mem_map.mp (h.values.subset hmem)
  exact ⟨v, hv.symm⟩

lemma holds_init (prng : Prng) (h : startValue < endValue) :
    ∃ r, init prng startValue endValue = some r ∧ r.Holds (span startValue endValue) ∧
      r.genIdx = 1 := by
  refine ⟨_, if_pos h, Holds.shuffle ⟨?_, ?_, ?_⟩ prng 0, rfl⟩
  · simp [span]
  · simp [span]
  · rw [span, List.length_map, List.length_range, slots_fill, List.map_map]
    exact .refl _

/-! ### Rounds -/

/-- Every complete round of `outs` gives out the values of `l`. -/
def Rounds (l : List Int) (outs : List (Option Int)) : Prop :=
  ∀ j, (j + 1) * l.length ≤ outs.length →
    ((outs.drop (j * l.length)).take l.length).Perm (l.map some)

lemma Rounds.of_length_lt {outs : List (Option Int)} (h : outs.length < l.length) :
    Rounds l outs := by
  intro j hj
  rw [Nat.succ_mul] at hj
  omega

lemma Rounds.append {first outs : List (Option Int)} (hfirst : first.Perm (l.map some))
    (h : Rounds l outs) : Rounds l (first ++ outs) := by
  have hlen : first.length = l.length := by simpa using hfirst.length_eq
  intro j hj
  cases j with
  | zero => simpa [← hlen] using hfirst
  | succ j =>
    rw [Nat.succ_mul, Nat.add_comm, List.drop_append, List.drop_eq_nil_of_le (by omega),
      List.nil_append, hlen, Nat.add_sub_cancel_left]
    refine h j ?_
    rw [List.length_append, hlen, Nat.succ_mul] at hj
    omega

theorem Holds.rounds (hpos : 0 < l.length) (h : r.Holds l) {k : Nat} (hk : k ≤ l.length)
    (hidx : r.genIdx = k + 1) (calls : List (Prng × Option Int)) :
    Rounds l (slots r.values (· + 1) k ++ r.gens calls) ∧
      ∃ vs : List Int, r.gens calls = vs.map some := by
  induction calls generalizing r k with
  | nil =>
    refine ⟨?_, [], rfl⟩
    rcases Nat.lt_or_eq_of_le hk with hlt | rfl
    · exact .of_length_lt (by simpa [gens] using hlt)
    · exact .append h.values (.of_length_lt hpos)
  | cons call calls ih =>
    obtain ⟨prng, seed⟩ := call
    rcases Nat.lt_or_eq_of_le hk with hlt | rfl
    · -- the next value of the round
      have hgen : r.gen prng seed = (r.values (k + 1), { r with genIdx := k + 1 + 1 }) := by
        rw [gen, if_neg (by rw [hidx, h.size]; omega), hidx]
      obtain ⟨hrounds, vs, hvs⟩ := ih (r := { r with genIdx := k + 1 + 1 })
        ⟨h.size, h.count, h.values⟩ hlt rfl
      obtain ⟨v, hv⟩ := h.get hlt
      rw [gens, hgen]
      refine ⟨?_, v :: vs, by rw [hvs, hv]; rfl⟩
      rwa [slots_succ, List.append_assoc] at hrounds
    · -- the values are used up
      have hshuffled := h.shuffle prng (seed.getD 0)
      have hgen : r.gen prng seed = ((r.shuffle prng (seed.getD 0)).values 1,
          { r.shuffle prng (seed.getD 0) with genIdx := 1 + 1 }) := by
        rw [gen, if_pos (by rw [hidx, h.size]; omega)]
      obtain ⟨hrounds, vs, hvs⟩ := ih (r := { r.shuffle prng (seed.getD 0) with genIdx := 1 + 1 })
        ⟨hshuffled.size, hshuffled.count, hshuffled.values⟩ hpos rfl
      obtain ⟨v, hv⟩ := hshuffled.get hpos
      rw [gens, hgen]
      refine ⟨.append h.values ?_, v :: vs, by rw [hvs, hv]; rfl⟩
      rwa [slots_succ, slots_zero, List.nil_append] at hrounds

/-- A range gives out its values in rounds, each of which is a permutation of them. -/
theorem cycles (prng : Prng) (h : startValue < endValue) (calls : List (Prng × Option Int)) :
    ∃ r, ∃ vs : List Int, init prng startValue endValue = some r ∧ r.gens calls = vs.map some ∧
      ∀ j, (j + 1) * (endValue - startValue + 1).toNat ≤ vs.length →
        ((vs.drop (j * (endValue - startValue + 1).toNat)).take
          (endValue - startValue + 1).toNat).Perm (span startValue endValue) := by
  obtain ⟨r, hr, hholds, hidx⟩ := holds_init prng h
  have hlen : (span startValue endValue).length = (endValue - startValue + 1).toNat := by
    simp [span]
  have hpos : 0 < (span startValue endValue).length := by omega
  obtain ⟨hrounds, vs, hvs⟩ := hholds.rounds hpos (Nat.zero_le _) hidx calls
  refine ⟨r, vs, hr, hvs, fun j hj => ?_⟩
  rw [slots_zero, List.nil_append, hvs] at hrounds
  have hround := hrounds j (by rwa [List.length_map, hlen])
  rw [hlen, ← List.map_drop, ← List.map_take] at hround
  simpa [List.filterMap_map] using hround.filterMap id

/-- A generator that draws 1 all the time. -/
def ones : Prng := fun _ => ⟨fun _ => 1, fun _ _ => Nat.one_pos, fun _ hi => hi⟩

theorem cycles_three_to_five : ∃ r, ∃ vs : List Int, init ones 3 5 = some r ∧
    r.gens (List.replicate 6 (ones, none)) = vs.map some ∧ ((vs.drop 3).take 3).Perm [3, 4, 5] := by
  obtain ⟨r, vs, hr, hvs, hrounds⟩ := cycles ones (by decide : (3 : Int) < 5)
    (List.replicate 6 (ones, none))
  have hlen : vs.length = 6 := by
    rw [← List.length_map (f := some), ← hvs]
    rfl
  exact ⟨r, vs, hr, hvs, hrounds 1 (by rw [hlen]; decide)⟩

/-! ### Every order -/

lemma gens_eq {k : Nat} (hidx : r.genIdx = k + 1) (calls : List (Prng × Option Int))
    (hsize : k + calls.length ≤ r.size) :
    slots r.values (· + 1) k ++ r.gens calls = slots r.values (· + 1) (k + calls.length) := by
  induction calls generalizing r k with
  | nil => exact List.append_nil _
  | cons call calls ih =>
    rw [List.length_cons] at hsize
    have hgen : r.gen call.1 call.2 = (r.values (k + 1), { r with genIdx := k + 1 + 1 }) := by
      rw [gen, if_neg (by omega), hidx]
    have hrest := ih (r := { r with genIdx := k + 1 + 1 }) (k := k + 1) rfl (by dsimp only; omega)
    have hfirst : slots r.values (· + 1) (k + 1) = slots r.values (· + 1) k ++ [r.values (k + 1)] :=
      slots_succ
    rw [hfirst, List.append_assoc, List.singleton_append] at hrest
    rw [gens, hgen, hrest]
    exact congrArg (slots r.values (· + 1)) (Nat.add_right_comm k 1 calls.length)

/-- The shuffle is fair: each order of the values is given out first after the draws of one kind
only, so that all are equally likely where the draws are. -/
theorem first_round_iff (h : startValue < endValue) {l : List Int}
    (hl : l.Perm (span startValue endValue)) : ∃ d : Draws, ∀ prng calls, calls.length = l.length →
      ((init prng startValue endValue).map (·.gens calls) = some (l.map some) ↔
        ∀ i, 2 ≤ i → i ≤ l.length → (prng 0).draw i = d.draw i) := by
  have hlen : l.length = (endValue - startValue + 1).toNat := by simp [hl.length_eq, span]
  have hfill : slots (fill startValue l.length) (· + 1) l.length =
      (span startValue endValue).map some := by
    rw [hlen, slots_fill, span, List.map_map]
    rfl
  have hnodup : ((span startValue endValue).map some).Nodup := by
    refine (List.nodup_range.map fun a b hab => ?_).map (Option.some_injective Int)
    have hab : startValue + (a : Int) = startValue + b := hab
    omega
  obtain ⟨d, hd⟩ := exists_draws_iff (hfill ▸ hnodup) (hfill ▸ hl.map some)
  refine ⟨d, fun prng calls hcalls => ?_⟩
  have hinit : init prng startValue endValue =
      some (shuffle prng 0 ⟨1, l.length, l.length, fill startValue l.length⟩) := by
    rw [init, if_pos h, hlen]
  have hgens := gens_eq (r := shuffle prng 0 ⟨1, l.length, l.length, fill startValue l.length⟩)
    (k := 0) rfl calls (by simp [shuffle, hcalls])
  rw [slots_zero, List.nil_append, Nat.zero_add, hcalls] at hgens
  rw [hinit, Option.map_some, Option.some_inj, hgens, ← hd (prng 0)]
  rfl

theorem first_round_iff_three_to_five : ∃ d : Draws, ∀ prng calls, calls.length = 3 →
    ((init prng 3 5).map (·.gens calls) = some [some 5, some 3, some 4] ↔
      ∀ i, 2 ≤ i → i ≤ 3 → (prng 0).draw i = d.draw i) :=
  first_round_iff (l := [5, 3, 4]) (by decide) (by decide)

end CyclicRandom

end Verilua
