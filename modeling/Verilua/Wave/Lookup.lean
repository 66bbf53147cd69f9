import Mathlib.Order.Bounds.Basic
import Verilua.Fsdb.Basic
import Verilua.Lib.Search
import Verilua.Wave.Delay

/-!
# The index of a time

`find_nearest_time_index` of `wellen_impl` is a `binary_search` whose insertion point is corrected,
and `findNearestTimeIndex` of the FSDB backend a `lower_bound` with cases of its own for the ends and
for a time between two entries. Both give the last entry that is not after the time.
-/

namespace Verilua.Wave

open Search (Splits entry)

/-- `find_nearest_time_index` -/
def wellenFindNearestTimeIndex (timeTable : List Nat) (time : Nat) : Nat :=
  match Search.binarySearch timeTable time with
  | .ok index => index
  | .error index => min (index - 1) (timeTable.length - 1)

/-- `FsdbWaveVpi::findNearestTimeIndex`; the indices have 32 bits. -/
def fsdbFindNearestTimeIndex (xtagU64Vec : List Nat) (time : Nat) : Nat :=
  let it := Search.lowerBound xtagU64Vec time
  if it = xtagU64Vec.length then (xtagU64Vec.length - 1) % 2 ^ 32
  else if it = 0 then 0
  else
    let index := it % 2 ^ 32
    if xtagU64Vec.getD index 0 = time then index
    else
      let before := (index + 2 ^ 32 - 1) % 2 ^ 32
      if xtagU64Vec.getD before 0 < time then before else index

/-- The indices of the times that are not after `time`. -/
def notAfter (times : List Nat) (time : Nat) : Set Nat :=
  {i | i < times.length ∧ times.getD i 0 ≤ time}

/-- The greatest index whose time is not after `time`, and 0 if there is none. -/
def IsNearest (times : List Nat) (time i : Nat) : Prop :=
  IsGreatest (notAfter times time) i ∨ notAfter times time = ∅ ∧ i = 0

variable {times : List Nat} {time i i' : Nat}

lemma IsNearest.unique (h : IsNearest times time i) (h' : IsNearest times time i') : i = i' := by
  rcases h with h | ⟨hnone, rfl⟩
  · rcases h' with h' | ⟨hnone', -⟩
    · exact h.unique h'
    · exact absurd (hnone' ▸ h.1) (Set.notMem_empty i)
  · rcases h' with h' | ⟨-, rfl⟩
    · exact absurd (hnone ▸ h'.1) (Set.notMem_empty i')
    · rfl

lemma isNearest_of_entry (hi : i < times.length) (heq : entry times i = time)
    (hsorted : times.Pairwise (· < ·)) : IsNearest times time i := by
  refine .inl ⟨⟨hi, heq.le⟩, fun j hj => ?_⟩
  by_contra hlt
  have hjt : entry times j ≤ time := hj.2
  exact absurd (Search.entry_lt hsorted (not_le.mp hlt) hj.1) (not_lt.mpr (heq ▸ hjt))

lemma isNearest_pred (h : Splits times time i) (hi : i ≤ times.length)
    (hne : ∀ j < times.length, entry times j ≠ time) : IsNearest times time (i - 1) := by
  have hmem : ∀ j, j ∈ notAfter times time → j < i := fun j hj =>
    (h j hj.1).mp (lt_of_le_of_ne hj.2 (hne j hj.1))
  rcases Nat.eq_zero_or_pos i with rfl | hpos
  · exact .inr ⟨Set.eq_empty_of_forall_notMem fun j hj => Nat.not_lt_zero j (hmem j hj), rfl⟩
  · refine .inl ⟨⟨by omega, ((h (i - 1) (by omega)).mpr (by omega)).le⟩, fun j hj => ?_⟩
    exact Nat.le_sub_one_of_lt (hmem j hj)

lemma isNearest_wellen (time : Nat) (hsorted : times.Pairwise (· < ·)) :
    IsNearest times time (wellenFindNearestTimeIndex times time) := by
  have hspec := Search.binarySearch_spec time hsorted
  rw [wellenFindNearestTimeIndex]
  cases hsearch : Search.binarySearch times time with
  | ok index =>
    rw [hsearch] at hspec
    obtain ⟨hlt, heq, -⟩ := hspec
    exact isNearest_of_entry hlt heq hsorted
  | error index =>
    rw [hsearch] at hspec
    obtain ⟨hle, hne, hsplits⟩ := hspec
    have hmin : min (index - 1) (times.length - 1) = index - 1 := by omega
    simp only [hmin]
    exact isNearest_pred hsplits hle hne

lemma isNearest_fsdb (hne : times ≠ []) (hsorted : times.Pairwise (· < ·))
    (hlen : times.length < 2 ^ 32) :
    IsNearest times time (fsdbFindNearestTimeIndex times time) := by
  have hpos : 0 < times.length := List.length_pos_iff.mpr hne
  obtain ⟨hle, hsplits⟩ := Search.lowerBound_spec time hsorted
  unfold fsdbFindNearestTimeIndex
  generalize Search.lowerBound times time = it at hle hsplits
  -- an entry is at the time exactly if the one at the lower bound is
  have hnone : (it < times.length → entry times it ≠ time) →
      ∀ j < times.length, entry times j ≠ time := by
    intro hit j hj heq
    have hge : it ≤ j := not_lt.mp fun hlt => absurd ((hsplits j hj).mpr hlt) (heq ▸ lt_irrefl _)
    rcases Nat.eq_or_lt_of_le hge with rfl | hlt
    · exact hit hj heq
    · have hbelow := Search.entry_lt hsorted hlt hj
      exact absurd ((hsplits it (by omega)).mp (heq ▸ hbelow)) (Nat.lt_irrefl it)
  dsimp only
  by_cases hend : it = times.length
  · rw [if_pos hend, Nat.mod_eq_of_lt (by omega), ← hend]
    exact isNearest_pred hsplits hle (hnone fun hlt => absurd hend hlt.ne)
  · rw [if_neg hend]
    have hlt : it < times.length := by omega
    by_cases hzero : it = 0
    · rw [if_pos hzero]
      by_cases heq : entry times it = time
      · exact hzero ▸ isNearest_of_entry hlt heq hsorted
      · have hpred := isNearest_pred hsplits hle (hnone fun _ => heq)
        rwa [hzero] at hpred
    · rw [if_neg hzero, Nat.mod_eq_of_lt (by omega : it < 2 ^ 32)]
      by_cases heq : times.getD it 0 = time
      · rw [if_pos heq]
        exact isNearest_of_entry hlt heq hsorted
      · have hbefore : (it + 2 ^ 32 - 1) % 2 ^ 32 = it - 1 := by omega
        have hbelow : times.getD (it - 1) 0 < time := (hsplits (it - 1) (by omega)).mpr (by omega)
        rw [if_neg heq, hbefore, if_pos hbelow]
        exact isNearest_pred hsplits hle (hnone fun _ => heq)

/-! ### The searches of the other modules -/

/-! ### The same index -/

theorem findNearestTimeIndex_agree (table : TimeTable) (hlen : table.times.length < 2 ^ 32)
    (time : Nat) :
    IsNearest table.times time (wellenFindNearestTimeIndex table.times time) ∧
      wellenFindNearestTimeIndex table.times time < table.times.length ∧
      fsdbFindNearestTimeIndex table.times time = wellenFindNearestTimeIndex table.times time := by
  have hnearest := isNearest_wellen time table.sorted
  refine ⟨hnearest, ?_, (isNearest_fsdb table.ne_nil table.sorted hlen).unique hnearest⟩
  rcases hnearest with h | ⟨-, hzero⟩
  · exact h.1.1
  · rw [hzero]
    exact List.length_pos_iff.mpr table.ne_nil

/-- A time between the entries of a table. -/
theorem findNearestTimeIndex_agree_fifteen :
    IsNearest [10, 20, 30] 15 (wellenFindNearestTimeIndex [10, 20, 30] 15) ∧
      wellenFindNearestTimeIndex [10, 20, 30] 15 < [10, 20, 30].length ∧
      fsdbFindNearestTimeIndex [10, 20, 30] 15 = wellenFindNearestTimeIndex [10, 20, 30] 15 :=
  findNearestTimeIndex_agree ⟨[10, 20, 30], by decide, by decide, by decide⟩ (by decide) 15

end Verilua.Wave
