import Mathlib

/-!
# `WeightedRandom`

An entry of a table is drawn with its weight in percent, and a value of its range is drawn then.
-/

namespace Verilua

structure WeightedEntry where
  weight : Int
  start : Int
  stop : Int

namespace WeightedRandom

abbrev Table := List WeightedEntry

/-- `_init`: `none` where an assertion fails. -/
def init (table : Table) : Option Table :=
  if (∀ e ∈ table, e.stop > e.start) ∧ (table.map WeightedEntry.weight).sum = 100 then some table
  else none

/-- The index at which the loop of `gen` returns. -/
def pick (randWeight cumulativeWeight : Int) : Table → Option Nat
  | [] => none
  | e :: table =>
    let cumulativeWeight := cumulativeWeight + e.weight
    if randWeight ≤ cumulativeWeight then some 0
    else (pick randWeight cumulativeWeight table).map (· + 1)

/-- `gen`, where `random(100)` is `randWeight`. Behind the loop the last entry is taken. -/
def gen (random : Int → Int → Int) (randWeight : Int) (table : Table) : Option Int :=
  (table[(pick randWeight 0 table).getD (table.length - 1)]?).map fun e => random e.start e.stop

variable {table t : Table} {e : WeightedEntry} {r c : Int} {i : Nat}

/-- The weights of the first `i` entries. -/
def below (table : Table) (i : Nat) : Int := ((table.take i).map WeightedEntry.weight).sum

@[simp] lemma below_zero : below table 0 = 0 := rfl

@[simp] lemma below_cons : below (e :: table) (i + 1) = e.weight + below table i := by
  simp [below]

lemma below_nonneg (hpos : ∀ e ∈ table, 0 ≤ e.weight) (i : Nat) : 0 ≤ below table i := by
  refine List.sum_nonneg fun w hw => ?_
  obtain ⟨e, he, rfl⟩ := List.mem_map.mp hw
  exact hpos e (List.mem_of_mem_take he)

lemma pick_eq_some_iff (hpos : ∀ e ∈ table, 0 ≤ e.weight) (hc : c < r) (hi : i < table.length) :
    pick r c table = some i ↔ c + below table i < r ∧ r ≤ c + below table (i + 1) := by
  induction table generalizing c i with
  | nil => cases hi
  | cons e table ih =>
    obtain ⟨he, htable⟩ := List.forall_mem_cons.mp hpos
    rw [pick]
    cases i with
    | zero =>
      split_ifs with hr <;> simp [hc] <;> omega
    | succ i =>
      have hnonneg := below_nonneg htable i
      rw [below_cons, below_cons]
      split_ifs with hr
      · simp
        omega
      · have hrest := ih htable (not_le.mp hr) (Nat.lt_of_succ_lt_succ hi)
        simp only [Option.map_eq_some_iff, Nat.add_right_cancel_iff, exists_eq_right, hrest]
        omega

lemma exists_pick (hr : r ≤ c + below table table.length) (hc : c < r) :
    ∃ i < table.length, pick r c table = some i := by
  induction table generalizing c with
  | nil => simp only [List.length_nil, below_zero] at hr; omega
  | cons e table ih =>
    rw [pick]
    by_cases he : r ≤ c + e.weight
    · exact ⟨0, by simp, if_pos he⟩
    · rw [List.length_cons, below_cons] at hr
      obtain ⟨i, hi, hpick⟩ := ih (c := c + e.weight) (by omega) (by omega)
      exact ⟨i + 1, by simpa using hi, by simp [he, hpick]⟩

lemma below_succ (he : table[i]? = some e) : below table (i + 1) = below table i + e.weight := by
  obtain ⟨hi, rfl⟩ := List.getElem?_eq_some_iff.mp he
  rw [below, List.take_succ_eq_append_getElem hi, List.map_append, List.sum_append]
  simp [below]

lemma below_le_length (hpos : ∀ e ∈ table, 0 ≤ e.weight) (i : Nat) :
    below table i ≤ below table table.length := by
  have hdrop : 0 ≤ ((table.drop i).map WeightedEntry.weight).sum := by
    refine List.sum_nonneg fun w hw => ?_
    obtain ⟨e, he, rfl⟩ := List.mem_map.mp hw
    exact hpos e (List.mem_of_mem_drop he)
  have hsplit := congrArg (fun l => (l.map WeightedEntry.weight).sum) (List.take_append_drop i table)
  simp only [List.map_append, List.sum_append] at hsplit
  rw [below, below, List.take_length]
  omega

lemma filter_pick (hpos : ∀ e ∈ table, 0 ≤ e.weight) (htotal : below table table.length = 100)
    (hi : i < table.length) : ((Finset.Icc (1 : Int) 100).filter fun r => pick r 0 table = some i) =
      Finset.Ioc (below table i) (below table (i + 1)) := by
  have hbelow := below_nonneg hpos i
  have hle := below_le_length hpos (i + 1)
  ext r
  simp only [Finset.mem_filter, Finset.mem_Icc, Finset.mem_Ioc]
  constructor
  · rintro ⟨hr, hpick⟩
    have := (pick_eq_some_iff hpos (by omega) hi).mp hpick
    omega
  · intro hr
    exact ⟨by omega, (pick_eq_some_iff hpos (by omega) hi).mpr (by omega)⟩

/-- Of the hundred draws exactly `e.weight` take `e`, and none gets behind the loop. -/
theorem card_pick (hinit : init table = some t) (hpos : ∀ e ∈ table, 0 ≤ e.weight) :
    (∀ i e, t[i]? = some e →
      (((Finset.Icc (1 : Int) 100).filter fun r => pick r 0 t = some i).card : Int) = e.weight ∧
      ∀ random r, pick r 0 t = some i → gen random r t = some (random e.start e.stop)) ∧
    ∀ r ∈ Finset.Icc (1 : Int) 100, ∃ i < t.length, pick r 0 t = some i := by
  unfold init at hinit
  split_ifs at hinit with hassert
  obtain rfl := Option.some.inj hinit
  have htotal : below table table.length = 100 := by rw [below, List.take_length, hassert.2]
  refine ⟨fun i e he => ⟨?_, fun random r hpick => by simp [gen, hpick, he]⟩, fun r hr => ?_⟩
  · have hweight := hpos e (List.mem_of_getElem? he)
    rw [filter_pick hpos htotal (List.getElem?_eq_some_iff.mp he).1, Int.card_Ioc, below_succ he]
    omega
  · rw [Finset.mem_Icc] at hr
    exact exists_pick (by omega) (by omega)

theorem card_pick_thirty :
    (((Finset.Icc (1 : Int) 100).filter fun r =>
      pick r 0 [⟨30, 0, 9⟩, ⟨70, 10, 20⟩] = some 0).card : Int) = 30 :=
  ((card_pick (rfl : init [⟨30, 0, 9⟩, ⟨70, 10, 20⟩] = some _) (by decide)).1 0 _ rfl).1

end WeightedRandom

end Verilua
