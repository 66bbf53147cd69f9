import Mathlib.Algebra.Ring.Nat
import Verilua.Fsdb.TimeTable
import Verilua.Fsdb.Transparent

/-!
# The attempts at the time table

The attempts load 10, 40, 40 and then at least 50 signals. One is made where those before it end
short, and the constructor comes to what the last of them does.
-/

namespace Verilua.Fsdb

open Codec (Outcome)

variable {acceptable : Acceptable} {w : Recording} {vcs : List XTag} {a : Attempt} {k left : Nat}

/-! ### One attempt -/

lemma Attempt.parse_panic (h : a.vcs = .value []) : a.parse = .panic := by
  rw [Attempt.parse, h]
  rfl

/-- The set is increasing and has the times of the changes, which come in order; the last of the tags is
at the greatest of them. -/
lemma Attempt.exists_parse (hvcs : a.vcs = .value vcs) (hne : vcs ≠ [])
    (hsorted : (vcs.map XTag.toUInt64).Pairwise (· ≤ ·)) :
    ∃ table, ∃ back ∈ vcs, a.parse = .value (table, back.toUInt64) ∧
      (∀ x ∈ vcs, x.toUInt64 ≤ back.toUInt64) ∧ table.Agrees ∧
      table.xtagU64Vec.Pairwise (· < ·) ∧
      ∀ time, time ∈ table.xtagU64Vec ↔ time ∈ vcs.map XTag.toUInt64 := by
  have hvalid := Distinct.collect_valid XTag.toUInt64 vcs
  have hmap := Distinct.map_collect_vec hsorted
  have hmem : ∀ time, time ∈ (Distinct.collect XTag.toUInt64 vcs).set ↔
      time ∈ vcs.map XTag.toUInt64 := fun time => Distinct.mem_collect_set
  have hsub : (Distinct.collect XTag.toUInt64 vcs).vec.Sublist vcs := by
    rw [Distinct.collect_vec]
    exact Distinct.firsts_sublist
  have hparse : ∀ back, (Distinct.collect XTag.toUInt64 vcs).vec.getLast? = some back →
      a.parse = .value (⟨(Distinct.collect XTag.toUInt64 vcs).vec,
        (Distinct.collect XTag.toUInt64 vcs).set⟩, back.toUInt64) := by
    intro back hback
    simp only [Attempt.parse, hvcs, Outcome.value_bind, hback]
  generalize Distinct.collect XTag.toUInt64 vcs = c at *
  obtain ⟨x, hx⟩ := List.exists_mem_of_ne_nil vcs hne
  cases hlast : c.vec.getLast? with
  | none =>
    rw [List.getLast?_eq_none_iff] at hlast
    rw [← hmap, hlast] at hmem
    have := (hmem x.toUInt64).mpr (List.mem_map_of_mem hx)
    simp at this
  | some back =>
    have hback := List.mem_of_getLast? hlast
    refine ⟨⟨c.vec, c.set⟩, back, hsub.subset hback, hparse back hlast, fun y hy => ?_, hmap,
      hvalid.sorted, hmem⟩
    have hy' := (hmem y.toUInt64).mpr (List.mem_map_of_mem hy)
    obtain ⟨before, hbefore⟩ := List.getLast?_eq_some_iff.mp hlast
    have hset : c.set = before.map XTag.toUInt64 ++ [back.toUInt64] := by
      rw [← hmap, hbefore, List.map_append, List.map_singleton]
    rw [hset] at hy'
    have hlt := (List.pairwise_append.mp (hset ▸ hvalid.sorted)).2.2
    rcases List.mem_append.mp hy' with hmem | hmem
    · exact (hlt _ hmem _ List.mem_cons_self).le
    · exact (List.mem_singleton.mp hmem).le

namespace Recording

/-- The `maxIndexVarCode` of the attempts. -/
def code : Nat → Nat
  | 0 => TIME_TABLE_MAX_INDEX_VAR_CODE
  | k + 1 => code k + 10 * ((k + 1) ^^^ 2)

lemma code_zero : code 0 = 10 := rfl

lemma code_one : code 1 = 40 := by decide

lemma code_le_forty (hk : k ≤ 2) : code k ≤ 40 := by
  have h : ∀ k ≤ 2, code k ≤ 40 := by decide
  exact h k hk

lemma code_le (hk : k ≤ MAX_RETRY_TIMES) : code k ≤ TIME_TABLE_MAX_INDEX_VAR_CODE_MAX := by
  have h : ∀ k ≤ MAX_RETRY_TIMES, code k ≤ TIME_TABLE_MAX_INDEX_VAR_CODE_MAX := by decide
  exact h k hk

/-- An attempt, if those before it end short. -/
def attempt (w : Recording) (k : Nat) : Attempt := w.setupMaxIndexVarCode none (code k)

/-- The signals that the handle of an attempt goes through. -/
def count (w : Recording) (k : Nat) : Nat :=
  if code k > w.maxVarIdcode then w.maxVarIdcode - 1 else code k

@[simp] lemma attempt_maxIndexVarCode : (w.attempt k).maxIndexVarCode = code k := rfl

lemma attempt_succ :
    w.setupMaxIndexVarCode none (code k + 10 * ((k + 1) ^^^ 2)) = w.attempt (k + 1) := rfl

lemma attempt_vcs (hw : 0 < w.maxVarIdcode) (hk : k ≤ MAX_RETRY_TIMES) :
    (w.attempt k).vcs = .ofOption (w.traverse (ids (w.count k))) := by
  have hcode := code_le hk
  have hmax : TIME_TABLE_MAX_INDEX_VAR_CODE_MAX = 2000 := rfl
  have hnum : w.sigNum (code k) = w.count k := by
    rw [sigNum, count]
    split_ifs with hlt
    · omega
    · rfl
  have hle : w.count k ≤ code k := by
    rw [count]
    split_ifs <;> omega
  simp only [attempt, setupMaxIndexVarCode, Option.getD_none, hnum]
  exact if_pos ⟨hcode, hle⟩

/-! ### All attempts -/

/-- An attempt that is followed by another, within the limit. -/
def Retries (w : Recording) (k : Nat) : Prop :=
  ∃ table parsedMaxXtagValue, (w.attempt k).parse = .value (table, parsedMaxXtagValue) ∧
    parsedMaxXtagValue < w.maxXtagValue

/-- What the constructor comes to where an attempt is the last. -/
inductive Ends (acceptable : Acceptable) (w : Recording) (k : Nat) : Outcome TimeTable → Prop
  | noHandle (h : (w.attempt k).parse = .fail) : Ends acceptable w k .fail
  | undefined (h : (w.attempt k).parse = .panic) : Ends acceptable w k .panic
  | complete {table : TimeTable} {time : Nat} (h : (w.attempt k).parse = .value (table, time))
      (htime : w.maxXtagValue ≤ time) : Ends acceptable w k (.value table)
  | accepted {table : TimeTable} {time : Nat} (h : (w.attempt k).parse = .value (table, time))
      (haccept : acceptable time w.maxXtagValue = true) : Ends acceptable w k (.value table)
  | gaveUp {table : TimeTable} {time : Nat} (h : (w.attempt k).parse = .value (table, time))
      (htime : time < w.maxXtagValue) (haccept : acceptable time w.maxXtagValue = false) :
      Ends acceptable w k .fail

/-- The last attempt. -/
structure Last (w : Recording) (k : Nat) : Prop where
  le : k ≤ MAX_RETRY_TIMES
  retries : ∀ i < k, w.Retries i
  stops : k = MAX_RETRY_TIMES ∨ ¬ w.Retries k

lemma exists_last (w : Recording) : ∃ k, w.Last k := by
  by_cases h : ∃ k, ¬ w.Retries k
  · classical
    by_cases hle : Nat.find h ≤ MAX_RETRY_TIMES
    · exact ⟨Nat.find h, hle, fun i hi => not_not.mp (Nat.find_min h hi), .inr (Nat.find_spec h)⟩
    · exact ⟨MAX_RETRY_TIMES, le_rfl,
        fun i hi => not_not.mp (Nat.find_min h (hi.trans (not_le.mp hle))), .inl rfl⟩
  · exact ⟨MAX_RETRY_TIMES, le_rfl, fun i _ => not_not.mp fun hi => h ⟨i, hi⟩, .inl rfl⟩

lemma doNormalParse_retry (hk : k + (left + 1) = MAX_RETRY_TIMES) (h : w.Retries k) :
    doNormalParse acceptable w none (left + 1) (w.attempt k) =
      (w.attempt k :: (doNormalParse acceptable w none left (w.attempt (k + 1))).1,
        (doNormalParse acceptable w none left (w.attempt (k + 1))).2) := by
  obtain ⟨table, time, hparse, htime⟩ := h
  have htimes : MAX_RETRY_TIMES - left = k + 1 := by omega
  simp only [doNormalParse, hparse, if_pos htime, htimes, attempt_maxIndexVarCode, attempt_succ]

lemma doNormalParse_last (acceptable : Acceptable) (h : left = 0 ∨ ¬ w.Retries k) :
    (doNormalParse acceptable w none left (w.attempt k)).1 = [w.attempt k] ∧
      Ends acceptable w k (doNormalParse acceptable w none left (w.attempt k)).2 := by
  cases left with
  | zero =>
    refine ⟨rfl, ?_⟩
    simp only [doNormalParse]
    cases hparse : (w.attempt k).parse with
    | fail =>
      rw [Outcome.fail_bind]
      exact .noHandle hparse
    | panic =>
      rw [Outcome.panic_bind]
      exact .undefined hparse
    | value r =>
      obtain ⟨table, time⟩ := r
      rw [Outcome.value_bind]
      split_ifs with hgive
      · exact .gaveUp hparse hgive.1 hgive.2
      · rw [not_and_or, not_lt, Bool.not_eq_false] at hgive
        rcases hgive with htime | haccept
        · exact .complete hparse htime
        · exact .accepted hparse haccept
  | succ left =>
    have hretries : ¬ w.Retries k := h.resolve_left (Nat.succ_ne_zero left)
    simp only [doNormalParse]
    cases hparse : (w.attempt k).parse with
    | fail => exact ⟨rfl, .noHandle hparse⟩
    | panic => exact ⟨rfl, .undefined hparse⟩
    | value r =>
      obtain ⟨table, time⟩ := r
      have htime : ¬ time < w.maxXtagValue := fun hlt => hretries ⟨table, time, hparse, hlt⟩
      simp only [if_neg htime, true_and]
      exact .complete hparse (not_lt.mp htime)

lemma doNormalParse_attempts {n : Nat} (acceptable : Acceptable) (hn : w.Last n) (hk : k + left = MAX_RETRY_TIMES)
    (hkn : k ≤ n) :
    (doNormalParse acceptable w none left (w.attempt k)).1 =
        (List.range' k (n - k + 1)).map w.attempt ∧
      Ends acceptable w n (doNormalParse acceptable w none left (w.attempt k)).2 := by
  induction left generalizing k with
  | zero =>
    have heq : n = k := by
      have := hn.le
      omega
    subst heq
    obtain ⟨hattempts, hends⟩ := doNormalParse_last (w := w) acceptable (k := n) (.inl (Eq.refl 0))
    exact ⟨hattempts.trans (by simp), hends⟩
  | succ left ih =>
    rcases Nat.eq_or_lt_of_le hkn with rfl | hlt
    · have hstops : ¬ w.Retries k := hn.stops.resolve_left (by omega)
      obtain ⟨hattempts, hends⟩ := doNormalParse_last acceptable (.inr hstops)
      exact ⟨hattempts.trans (by simp), hends⟩
    · obtain ⟨hattempts, hends⟩ := ih (k := k + 1) (by omega) hlt
      rw [doNormalParse_retry hk (hn.retries k hlt)]
      refine ⟨?_, hends⟩
      have hlen : n - (k + 1) + 1 = n - k := by omega
      rw [hattempts, hlen, List.range'_succ, List.map_cons]

end Recording

end Verilua.Fsdb

/-!
### Where `fsdb_wave_vpi` collects the whole time table

An attempt with more signals than there are leaves out the one with the highest id code, and the
third attempt has no more signals than the second. Away from these two the table is whole.
-/

namespace Verilua.Fsdb

open Codec (Outcome)

variable {acceptable : Acceptable} {w : Recording} {vcs : List XTag} {k n : Nat}

/-! ### Tags -/

lemma XTag.toUInt64_ofUInt64 {time : Nat} (h : time < 2 ^ 64) : (XTag.ofUInt64 time).toUInt64 = time := by
  have hH : (UInt32.ofNat (time >>> 32)).toNat = time / 2 ^ 32 := by
    rw [UInt32.toNat_ofNat', Nat.shiftRight_eq_div_pow]
    exact Nat.mod_eq_of_lt (by omega)
  have hL : (UInt32.ofNat (time &&& 0xFFFFFFFF)).toNat = time % 2 ^ 32 := by
    rw [UInt32.toNat_ofNat', show (0xFFFFFFFF : Nat) = 2 ^ 32 - 1 from rfl, Nat.and_two_pow_sub_one_eq_mod]
    exact Nat.mod_eq_of_lt (Nat.mod_lt _ (by decide))
  rw [XTag.ofUInt64, XTag.toUInt64, hH, hL, mul_comm]
  exact Nat.div_add_mod time (2 ^ 32)

lemma XTag.ofUInt64_toUInt64 (x : XTag) : XTag.ofUInt64 x.toUInt64 = x := by
  obtain ⟨H, L⟩ := x
  have hL : L.toNat < 2 ^ 32 := L.toNat_lt
  have hhigh : (H.toNat * 2 ^ 32 + L.toNat) >>> 32 = H.toNat := by
    rw [Nat.shiftRight_eq_div_pow]
    omega
  have hlow : (H.toNat * 2 ^ 32 + L.toNat) &&& 0xFFFFFFFF = L.toNat := by
    rw [show (0xFFFFFFFF : Nat) = 2 ^ 32 - 1 from rfl, Nat.and_two_pow_sub_one_eq_mod]
    omega
  simp only [XTag.ofUInt64, XTag.toUInt64, hhigh, hlow, UInt32.ofNat_toNat]

lemma TimeTableFile.load_agrees {file : TimeTableFile} (hfile : ∀ entry ∈ file.entries, entry < 2 ^ 64)
    {table : TimeTable} (h : file.load = .value table) : table.Agrees := by
  rw [TimeTableFile.load] at h
  split at h
  · rename_i xtags hread
    cases h
    have hxtags : ∀ time ∈ xtags, time < 2 ^ 64 := by
      obtain ⟨size, -, rfl⟩ := Option.map_eq_some_iff.mp hread
      intro time htime
      rcases List.mem_append.mp (List.mem_of_mem_take htime) with hmem | hmem
      · exact hfile time hmem
      · rw [List.eq_of_mem_replicate hmem]
        decide
    rw [TimeTable.Agrees, List.map_map]
    exact (List.map_congr_left fun time htime => XTag.toUInt64_ofUInt64 (hxtags time htime)).trans
      (List.map_id' xtags)
  · cases h

namespace Recording

/-! ### Attempts and signals -/

lemma mem_ids {id : IdCode} : id ∈ ids n ↔ 1 ≤ id ∧ id ≤ n := by
  rw [ids, List.mem_range'_1, Nat.add_comm 1 n, Nat.lt_succ_iff]

lemma ids_subset {m : Nat} (h : n ≤ m) {id : IdCode} (hid : id ∈ ids n) : id ∈ ids m := by
  rw [mem_ids] at hid ⊢
  exact ⟨hid.1, hid.2.trans h⟩

lemma exists_parse (hw : 0 < w.maxVarIdcode) (hk : k ≤ MAX_RETRY_TIMES)
    (hvcs : w.traverse (ids (w.count k)) = some vcs) (hne : vcs ≠ []) :
    ∃ table, ∃ back ∈ vcs, (w.attempt k).parse = .value (table, back.toUInt64) ∧
      (∀ x ∈ vcs, x.toUInt64 ≤ back.toUInt64) ∧ table.Agrees ∧
      table.xtagU64Vec.Pairwise (· < ·) ∧
      ∀ time, time ∈ table.xtagU64Vec ↔ ∃ id ∈ ids (w.count k), time ∈ w.changes id := by
  have hattempt : (w.attempt k).vcs = .value vcs := by
    rw [attempt_vcs hw hk, hvcs]
    rfl
  obtain ⟨table, back, hback, hparse, hle, hagrees, hsorted, hmem⟩ :=
    Attempt.exists_parse hattempt hne (w.traverse_sorted _ _ hvcs)
  exact ⟨table, back, hback, hparse, hle, hagrees, hsorted,
    fun time => (hmem time).trans (w.mem_traverse _ _ hvcs time)⟩

lemma parse_fail (hw : 0 < w.maxVarIdcode) (hk : k ≤ MAX_RETRY_TIMES)
    (hvcs : w.traverse (ids (w.count k)) = none) : (w.attempt k).parse = .fail := by
  rw [Attempt.parse, attempt_vcs hw hk, hvcs]
  rfl

lemma parse_panic (hw : 0 < w.maxVarIdcode) (hk : k ≤ MAX_RETRY_TIMES)
    (hvcs : w.traverse (ids (w.count k)) = some []) : (w.attempt k).parse = .panic := by
  refine Attempt.parse_panic ?_
  rw [attempt_vcs hw hk, hvcs]
  rfl

lemma retries_iff (hw : 0 < w.maxVarIdcode) (hk : k ≤ MAX_RETRY_TIMES) :
    w.Retries k ↔ w.Short (w.count k) := by
  constructor
  · rintro ⟨table, time, hparse, htime⟩
    cases hvcs : w.traverse (ids (w.count k)) with
    | none =>
      rw [parse_fail hw hk hvcs] at hparse
      cases hparse
    | some vcs =>
      by_cases hne : vcs = []
      · subst hne
        rw [parse_panic hw hk hvcs] at hparse
        cases hparse
      · obtain ⟨table', back, -, hparse', hle, -⟩ := exists_parse hw hk hvcs hne
        rw [hparse'] at hparse
        cases hparse
        exact ⟨vcs, hvcs, hne, fun x hx => (hle x hx).trans_lt htime⟩
  · rintro ⟨vcs, hvcs, hne, hshort⟩
    obtain ⟨table, back, hback, hparse, -⟩ := exists_parse hw hk hvcs hne
    exact ⟨table, back.toUInt64, hparse, hshort back hback⟩

lemma Ends.table_spec {table : TimeTable} (hw : 0 < w.maxVarIdcode) (hk : k ≤ MAX_RETRY_TIMES)
    (h : Ends acceptable w k (.value table)) :
    ∃ vcs, w.traverse (ids (w.count k)) = some vcs ∧ ¬ w.GivesUp acceptable vcs ∧ table.Agrees ∧
      table.xtagU64Vec.Pairwise (· < ·) ∧
      ∀ time, time ∈ table.xtagU64Vec ↔ ∃ id ∈ ids (w.count k), time ∈ w.changes id := by
  obtain ⟨time, hparse, hends⟩ : ∃ time, (w.attempt k).parse = .value (table, time) ∧
      (w.maxXtagValue ≤ time ∨ acceptable time w.maxXtagValue = true) := by
    cases h with
    | complete hparse htime => exact ⟨_, hparse, .inl htime⟩
    | accepted hparse haccept => exact ⟨_, hparse, .inr haccept⟩
  cases hvcs : w.traverse (ids (w.count k)) with
  | none =>
    rw [parse_fail hw hk hvcs] at hparse
    cases hparse
  | some vcs =>
    by_cases hne : vcs = []
    · subst hne
      rw [parse_panic hw hk hvcs] at hparse
      cases hparse
    · obtain ⟨table', back, hback, hparse', hle, hspec⟩ := exists_parse hw hk hvcs hne
      rw [hparse'] at hparse
      cases hparse
      refine ⟨vcs, rfl, ?_, hspec⟩
      rintro ⟨x, hx, hgreatest, hlt, hreject⟩
      rw [le_antisymm (hle x hx) (hgreatest back hback)] at hlt hreject
      rcases hends with htime | haccept
      · exact absurd hlt (not_lt.mpr htime)
      · rw [haccept] at hreject
        cases hreject

lemma traverse_of_panic (hw : 0 < w.maxVarIdcode) (hk : k ≤ MAX_RETRY_TIMES)
    (h : (w.attempt k).parse = .panic) : w.traverse (ids (w.count k)) = some [] := by
  cases hvcs : w.traverse (ids (w.count k)) with
  | none =>
    rw [parse_fail hw hk hvcs] at h
    cases h
  | some vcs =>
    by_cases hne : vcs = []
    · rw [hne]
    · obtain ⟨table, back, -, hparse, -⟩ := exists_parse hw hk hvcs hne
      rw [hparse] at h
      cases h

/-! ### The constructor -/

lemma construct_last (acceptable : Acceptable) (hn : w.Last n) :
    (construct acceptable w none none).1 = (List.range (n + 1)).map w.attempt ∧
      Ends acceptable w n (construct acceptable w none none).2 := by
  obtain ⟨hattempts, hends⟩ := doNormalParse_attempts acceptable hn
    (Nat.zero_add MAX_RETRY_TIMES) (Nat.zero_le n)
  exact ⟨hattempts.trans (by rw [List.range_eq_range']; rfl), hends⟩

lemma construct_getLast (hn : w.Last n) :
    (construct acceptable w none none).1.getLast? = some (w.attempt n) := by
  rw [(construct_last acceptable hn).1, List.range_succ, List.map_append, List.map_singleton]
  exact List.getLast?_concat

lemma construct_getElem {a : Attempt} (hn : w.Last n) :
    (construct acceptable w none none).1[k]? = some a ↔ k ≤ n ∧ w.attempt k = a := by
  rw [(construct_last acceptable hn).1, List.getElem?_map]
  by_cases hk : k < n + 1
  · rw [List.getElem?_range hk]
    simp [Nat.lt_succ_iff.mp hk]
  · rw [List.getElem?_eq_none (by simpa using hk)]
    simp [Nat.lt_succ_iff.not.mp hk]

lemma mem_loaded {id : IdCode} :
    id ∈ w.loaded (w.attempt k) ↔ (1 ≤ id ∧ id ≤ w.maxVarIdcode) ∧ id ≤ code k := Iff.rfl

lemma count_of_le (h : code k ≤ w.maxVarIdcode) : w.count k = code k := if_neg (not_lt.mpr h)

lemma count_of_lt (h : w.maxVarIdcode < code k) : w.count k = w.maxVarIdcode - 1 := if_pos h

lemma Collectable.le_one (h : w.Collectable acceptable) (hn : w.Last n) (hw : 40 < w.maxVarIdcode) :
    n ≤ 1 := by
  by_contra hlt
  have hretries : ∀ i ≤ 1, w.Short (w.count i) := fun i hi =>
    (retries_iff h.signals (hi.trans (by decide))).mp (hn.retries i (by omega))
  have h10 := hretries 0 (Nat.zero_le 1)
  have h40 := hretries 1 le_rfl
  rw [count_of_le (by rw [code_zero]; omega), code_zero] at h10
  rw [count_of_le (by rw [code_one]; omega), code_one] at h40
  exact h.reaching hw h10 h40

lemma Collectable.shared_of_last (h : w.Collectable acceptable) (hn : w.Last n)
    (hlt : w.maxVarIdcode < code n) :
    ∀ vcs, w.traverse (ids (w.maxVarIdcode - 1)) = some vcs →
      vcs ≠ [] ∧
        (w.GivesUp acceptable vcs ∨
          ∀ time ∈ w.changes w.maxVarIdcode,
            ∃ id ∈ ids (w.maxVarIdcode - 1), time ∈ w.changes id) := by
  have hretries : ∀ i < n, code i ≤ w.maxVarIdcode → w.Short (code i) := by
    intro i hi hle
    have := (retries_iff h.signals (hi.le.trans hn.le)).mp (hn.retries i hi)
    rwa [count_of_le hle] at this
  have hmax : w.maxVarIdcode ≤ 40 := by
    by_contra hmany
    have hle := h.le_one hn (not_le.mp hmany)
    have hcode := code_le_forty (hle.trans one_le_two)
    omega
  refine h.shared hmax (fun h10 => ?_) (fun h40 => ?_)
  · have hpos : 0 < n := by
      refine Nat.pos_of_ne_zero ?_
      rintro rfl
      rw [code_zero] at hlt
      omega
    exact hretries 0 hpos h10
  · have hone : 1 < n := by
      by_contra hle
      have hcode := code_le_forty ((not_lt.mp hle).trans one_le_two)
      omega
    have := hretries 1 hone (by rw [code_one, h40])
    rwa [code_one] at this

lemma Collectable.traverse_ne (h : w.Collectable acceptable) (hn : w.Last n) :
    w.traverse (ids (w.count n)) ≠ some [] := by
  intro hnil
  rcases Nat.lt_or_ge w.maxVarIdcode (code n) with hlt | hle
  · rw [count_of_lt hlt] at hnil
    exact (h.shared_of_last hn hlt [] hnil).1 rfl
  · rw [count_of_le hle] at hnil
    rcases Nat.eq_zero_or_pos n with rfl | hpos
    · exact h.changing hle hnil
    · have hfirst := (retries_iff h.signals (Nat.zero_le _)).mp (hn.retries 0 hpos)
      have hten : code 0 ≤ code n := by
        have : ∀ k ≤ MAX_RETRY_TIMES, code 0 ≤ code k := by decide
        exact this n hn.le
      rw [count_of_le (hten.trans hle)] at hfirst
      obtain ⟨vcs, hvcs, hne, -⟩ := hfirst
      obtain ⟨x, hx⟩ := List.exists_mem_of_ne_nil vcs hne
      obtain ⟨id, hid, hchange⟩ := (w.mem_traverse _ _ hvcs _).mp (List.mem_map_of_mem hx)
      have := (w.mem_traverse _ _ hnil _).mpr ⟨id, ids_subset hten hid, hchange⟩
      simp at this

/-- In a collectable recording the signals of the last attempt change when those of its handle do. -/
lemma Collectable.mem_table (h : w.Collectable acceptable) (hn : w.Last n)
    (hvcs : w.traverse (ids (w.count n)) = some vcs) (hgives : ¬ w.GivesUp acceptable vcs)
    (time : Nat) :
    (∃ id ∈ ids (w.count n), time ∈ w.changes id) ↔
      ∃ id ∈ w.loaded (w.attempt n), time ∈ w.changes id := by
  rcases Nat.lt_or_ge w.maxVarIdcode (code n) with hlt | hle
  · rw [count_of_lt hlt] at hvcs ⊢
    have hshared := (h.shared_of_last hn hlt vcs hvcs).2.resolve_left hgives
    constructor
    · rintro ⟨id, hid, hchange⟩
      rw [mem_ids] at hid
      have hle := hid.2.trans (Nat.sub_le _ 1)
      exact ⟨id, mem_loaded.mpr ⟨⟨hid.1, hle⟩, hle.trans hlt.le⟩, hchange⟩
    · rintro ⟨id, hid, hchange⟩
      obtain ⟨⟨hone, hid⟩, -⟩ := mem_loaded.mp hid
      rcases Nat.eq_or_lt_of_le hid with rfl | hid
      · exact hshared time hchange
      · exact ⟨id, mem_ids.mpr ⟨hone, Nat.le_sub_one_of_lt hid⟩, hchange⟩
  · rw [count_of_le hle]
    refine exists_congr fun id => and_congr_left fun _ => ?_
    rw [mem_ids, mem_loaded]
    exact ⟨fun hid => ⟨⟨hid.1, hid.2.trans hle⟩, hid.2⟩, fun hid => ⟨hid.1.1, hid.2⟩⟩

/-! ### Both directions -/

lemma construct_agrees {cached : Option TimeTableFile} {table : TimeTable}
    (hw : 0 < w.maxVarIdcode)
    (hcached : ∀ file, cached = some file → ∀ entry ∈ file.entries, entry < 2 ^ 64)
    (h : (construct acceptable w none cached).2 = .value table) : table.Agrees := by
  cases cached with
  | none =>
    obtain ⟨n, hn⟩ := exists_last w
    have hends := (construct_last acceptable hn).2
    rw [h] at hends
    obtain ⟨-, -, -, hagrees, -⟩ := hends.table_spec hw hn.le
    exact hagrees
  | some file =>
    rw [construct] at h
    cases hvcs : (w.setupMaxIndexVarCode none TIME_TABLE_MAX_INDEX_VAR_CODE).vcs with
    | value vcs =>
      simp only [hvcs, Outcome.value_bind] at h
      exact TimeTableFile.load_agrees (hcached file rfl) h
    | fail =>
      simp only [hvcs, Outcome.fail_bind] at h
      cases h
    | panic =>
      simp only [hvcs, Outcome.panic_bind] at h
      cases h

lemma construct_reloaded {table : TimeTable} (hw : 0 < w.maxVarIdcode)
    (h : (construct acceptable w none none).2 = .value table) :
    (construct acceptable w none (some (.complete table.xtagU64Vec))).2 = .value table := by
  have hagrees : table.Agrees := construct_agrees hw (fun _ hfile => by cases hfile) h
  have hload : (TimeTableFile.complete table.xtagU64Vec).load = .value table := by
    have htags : table.xtagU64Vec.map XTag.ofUInt64 = table.xtagVec := by
      rw [← hagrees, List.map_map]
      exact (List.map_congr_left fun x _ => x.ofUInt64_toUInt64).trans (List.map_id' _)
    rw [TimeTableFile.load, TimeTableFile.read_complete]
    simp only [htags]
  obtain ⟨n, hn⟩ := exists_last w
  have hends := (construct_last acceptable hn).2
  rw [h] at hends
  have hfirst : ∃ vcs, w.traverse (ids (w.count 0)) = some vcs := by
    rcases Nat.eq_zero_or_pos n with rfl | hpos
    · obtain ⟨vcs, hvcs, -⟩ := hends.table_spec hw hn.le
      exact ⟨vcs, hvcs⟩
    · obtain ⟨vcs, hvcs, -⟩ := (retries_iff hw (Nat.zero_le _)).mp (hn.retries 0 hpos)
      exact ⟨vcs, hvcs⟩
  obtain ⟨vcs, hvcs⟩ := hfirst
  have hattempt : (w.setupMaxIndexVarCode none TIME_TABLE_MAX_INDEX_VAR_CODE).vcs = .value vcs := by
    have := attempt_vcs hw (Nat.zero_le MAX_RETRY_TIMES)
    rw [hvcs] at this
    exact this
  simp only [construct, hattempt, Outcome.value_bind, hload]

lemma Collectable.collects (h : w.Collectable acceptable) : w.Collects acceptable := by
  obtain ⟨n, hn⟩ := exists_last w
  have hends := (construct_last acceptable hn).2
  refine ⟨fun hpanic => ?_, fun t ht => ?_, fun cached t hcached => construct_agrees h.signals hcached,
    fun t ht => construct_reloaded h.signals ht, fun k a hk ha hshort hmore => ?_⟩
  · rw [hpanic] at hends
    cases hends with
    | undefined hparse => exact h.traverse_ne hn (traverse_of_panic h.signals hn.le hparse)
  · rw [ht] at hends
    obtain ⟨vcs, hvcs, hgives, -, hsorted, hmem⟩ := hends.table_spec h.signals hn.le
    exact ⟨hsorted, w.attempt n, construct_getLast hn,
      fun time => (hmem time).trans (h.mem_table hn hvcs hgives time)⟩
  · obtain ⟨hkn, rfl⟩ := (construct_getElem hn).mp ha
    have hlt : code k < w.maxVarIdcode := by
      by_contra hle
      refine hmore (Set.ext fun id => ⟨fun hid => hid.1, fun hid => ⟨hid, ?_⟩⟩)
      exact hid.2.trans (not_lt.mp hle)
    have hvcs := attempt_vcs h.signals hk.le
    rw [count_of_le hlt.le] at hvcs
    have hlast : k < n := by
      refine lt_of_le_of_ne hkn fun heq => ?_
      subst heq
      obtain ⟨vcs, hvalue, hshort⟩ := hshort
      rw [hvcs] at hvalue
      refine hn.stops.elim hk.ne fun hstops => hstops ((retries_iff h.signals hk.le).mpr ?_)
      have hne := h.traverse_ne hn
      rw [count_of_le hlt.le] at hne ⊢
      cases htraverse : w.traverse (ids (code k)) with
      | none =>
        rw [htraverse] at hvalue
        cases hvalue
      | some vcs' =>
        rw [htraverse] at hvalue hne
        cases hvalue
        exact ⟨vcs, htraverse, fun hnil => hne (by rw [hnil]), hshort⟩
    have hzero : k = 0 := by
      by_contra hne
      have hforty : 40 ≤ code k := by
        have : ∀ k ≤ MAX_RETRY_TIMES, k ≠ 0 → 40 ≤ code k := by decide
        exact this k hk.le hne
      have := h.le_one hn (hforty.trans_lt hlt)
      omega
    subst hzero
    refine ⟨w.attempt 1, (construct_getElem hn).mpr ⟨hlast, rfl⟩, ?_⟩
    have hcode : code 0 < code 1 := by decide
    refine ⟨fun id hid => ⟨hid.1, hid.2.trans hcode.le⟩, code 0 + 1,
      ⟨⟨Nat.le_add_left 1 _, hlt⟩, hcode⟩, fun hmem => ?_⟩
    exact Nat.not_succ_le_self (code 0) hmem.2

/-! ### Where it is not collected -/

/-- The first attempt beyond the signals. -/
def beyond (w : Recording) : Nat :=
  if w.maxVarIdcode < 10 then 0 else if w.maxVarIdcode < 40 then 1 else 3

lemma lt_code (hw : w.maxVarIdcode ≤ 40) (hk : w.beyond ≤ k) (hk' : k ≤ MAX_RETRY_TIMES) :
    w.maxVarIdcode < code k := by
  have hcodes : ∀ k ≤ MAX_RETRY_TIMES, 10 ≤ code k ∧ (1 ≤ k → 40 ≤ code k) ∧
      (3 ≤ k → 50 ≤ code k) := by decide
  obtain ⟨h0, h1, h3⟩ := hcodes k hk'
  rw [beyond] at hk
  split_ifs at hk with hten hforty
  · omega
  · have := h1 hk
    omega
  · have := h3 hk
    omega

lemma retries_of_lt_beyond (h0 : 0 < w.maxVarIdcode) (h10 : 10 ≤ w.maxVarIdcode → w.Short 10)
    (h40 : 40 ≤ w.maxVarIdcode → w.Short 40) {i : Nat} (hi : i < w.beyond) : w.Retries i := by
  have hbeyond : w.beyond ≤ 3 := by
    rw [beyond]
    split_ifs <;> decide
  rw [retries_iff h0 (hi.le.trans (hbeyond.trans (by decide)))]
  rw [beyond] at hi
  split_ifs at hi with hten hforty
  · omega
  · obtain rfl : i = 0 := by omega
    rw [count_of_le (by rw [code_zero]; omega), code_zero]
    exact h10 (not_lt.mp hten)
  · have hcode : code i ≤ w.maxVarIdcode := (code_le_forty (by omega)).trans (not_lt.mp hforty)
    rw [count_of_le hcode]
    have : i = 0 ∨ i = 1 ∨ i = 2 := by omega
    rcases this with rfl | rfl | rfl
    · exact h10 (not_lt.mp hten)
    · exact h40 (not_lt.mp hforty)
    · exact h40 (not_lt.mp hforty)

lemma Last.le_of_retries {m : Nat} (hn : w.Last n) (h : ∀ i < m, w.Retries i)
    (hm : m ≤ MAX_RETRY_TIMES) : m ≤ n := by
  by_contra hlt
  rcases hn.stops with heq | hstops
  · omega
  · exact hstops (h n (not_le.mp hlt))

lemma Ends.eq_panic {result : Outcome TimeTable} (h : Ends acceptable w k result)
    (hparse : (w.attempt k).parse = .panic) : result = .panic := by
  cases h with
  | undefined => rfl
  | noHandle h => rw [h] at hparse; cases hparse
  | complete h => rw [h] at hparse; cases hparse
  | accepted h => rw [h] at hparse; cases hparse
  | gaveUp h => rw [h] at hparse; cases hparse

lemma Ends.eq_value {result : Outcome TimeTable} {table : TimeTable} {time : Nat}
    (h : Ends acceptable w k result) (hparse : (w.attempt k).parse = .value (table, time))
    (hfull : time < w.maxXtagValue → acceptable time w.maxXtagValue = false → False) :
    result = .value table := by
  cases h with
  | undefined h => rw [h] at hparse; cases hparse
  | noHandle h => rw [h] at hparse; cases hparse
  | complete h => rw [h] at hparse; cases hparse; rfl
  | accepted h => rw [h] at hparse; cases hparse; rfl
  | gaveUp h htime haccept =>
    rw [h] at hparse
    cases hparse
    exact (hfull htime haccept).elim

lemma Collects.parse_ne (h : w.Collects acceptable) (hn : w.Last n) :
    (w.attempt n).parse ≠ .panic :=
  fun hparse => h.defined ((construct_last acceptable hn).2.eq_panic hparse)

lemma Collects.parse_zero_ne (h : w.Collects acceptable) : (w.attempt 0).parse ≠ .panic := by
  intro hparse
  refine h.parse_ne ⟨Nat.zero_le _, fun i hi => absurd hi (Nat.not_lt_zero i), .inr ?_⟩ hparse
  rintro ⟨table, time, hvalue, -⟩
  rw [hparse] at hvalue
  cases hvalue

lemma Collects.signals (h : w.Collects acceptable) : 0 < w.maxVarIdcode := by
  refine Nat.pos_of_ne_zero fun hzero => h.parse_zero_ne ?_
  have hvcs : (w.attempt 0).vcs = .panic := by
    simp [attempt, setupMaxIndexVarCode, sigNum, hzero, code_zero]
  rw [Attempt.parse, hvcs]
  rfl

lemma Collects.reaching (h : w.Collects acceptable) (hw : 40 < w.maxVarIdcode)
    (h10 : w.Short 10) : ¬ w.Short 40 := by
  intro h40
  have hone : code 1 ≤ w.maxVarIdcode := by
    rw [code_one]
    exact hw.le
  have hretries : ∀ i < 2, w.Retries i := by
    intro i hi
    rw [retries_iff h.signals (hi.le.trans (by decide)),
      count_of_le ((code_le_forty hi.le).trans hw.le)]
    rcases Nat.le_one_iff_eq_zero_or_eq_one.mp (Nat.le_of_lt_succ hi) with rfl | rfl
    · exact h10
    · exact h40
  obtain ⟨n, hn⟩ := exists_last w
  have htwo : 2 ≤ n := hn.le_of_retries hretries (by decide)
  obtain ⟨b, hb, -, id, hid, hnew⟩ := h.progress 1 (w.attempt 1) (by decide)
    ((construct_getElem hn).mpr ⟨by omega, rfl⟩) (by
      obtain ⟨vcs, hvcs, -, hshort⟩ := h40
      refine ⟨vcs, ?_, hshort⟩
      rw [attempt_vcs h.signals (by decide), count_of_le hone, code_one, hvcs]
      rfl) (fun hall => by
      have hmem : w.maxVarIdcode ∈ w.loaded (w.attempt 1) := hall ▸ ⟨h.signals, le_rfl⟩
      exact absurd hmem.2 (not_le.mpr (by rw [attempt_maxIndexVarCode, code_one]; exact hw)))
  obtain ⟨-, rfl⟩ := (construct_getElem hn).mp hb
  exact hnew hid

lemma Collects.shared (h : w.Collects acceptable) (hw : w.maxVarIdcode ≤ 40)
    (h10 : 10 ≤ w.maxVarIdcode → w.Short 10) (h40 : w.maxVarIdcode = 40 → w.Short 40)
    (hvcs : w.traverse (ids (w.maxVarIdcode - 1)) = some vcs) :
    vcs ≠ [] ∧ (w.GivesUp acceptable vcs ∨
      ∀ time ∈ w.changes w.maxVarIdcode,
        ∃ id ∈ ids (w.maxVarIdcode - 1), time ∈ w.changes id) := by
  obtain ⟨n, hn⟩ := exists_last w
  have hbeyond : w.beyond ≤ n := by
    refine hn.le_of_retries (fun i hi => retries_of_lt_beyond h.signals h10
      (fun hle => h40 (le_antisymm hw hle)) hi) ?_
    rw [beyond]
    split_ifs <;> decide
  have hlt := lt_code hw hbeyond hn.le
  have hcount := count_of_lt hlt
  rw [← hcount] at hvcs ⊢
  have hne : vcs ≠ [] := fun hnil => h.parse_ne hn (parse_panic h.signals hn.le (by rw [hvcs, hnil]))
  refine ⟨hne, or_iff_not_imp_left.mpr fun hgives time htime => ?_⟩
  obtain ⟨table, back, hback, hparse, hle, -, -, hmem⟩ := exists_parse h.signals hn.le hvcs hne
  have hvalue : (construct acceptable w none none).2 = .value table :=
    (construct_last acceptable hn).2.eq_value hparse fun hshort hreject =>
      hgives ⟨back, hback, hle, hshort, hreject⟩
  obtain ⟨-, a, ha, htable⟩ := h.table table hvalue
  rw [construct_getLast hn] at ha
  cases ha
  refine (hmem time).mp ((htable time).mpr ⟨w.maxVarIdcode, ?_, htime⟩)
  exact mem_loaded.mpr ⟨⟨h.signals, le_rfl⟩, hlt.le⟩

/-- The time table is collected exactly from the collectable recordings. -/
theorem collects_iff (acceptable : Acceptable) (w : Recording) :
    w.Collects acceptable ↔ w.Collectable acceptable := by
  constructor
  · intro h
    refine ⟨h.signals, fun h10 hnil => ?_, h.reaching, fun hw h10 h40 vcs hvcs =>
      h.shared hw h10 h40 hvcs⟩
    refine h.parse_zero_ne (parse_panic h.signals (Nat.zero_le _) ?_)
    rw [count_of_le (by rwa [code_zero]), code_zero, hnil]
  · exact Collectable.collects

/-! ### In a directory -/

/-! ### A signal with a time of its own -/

/-- The recording of value changes in order. -/
def ofChanges (maxXtag : XTag) (maxVarIdcode : Nat) (vcs : List (IdCode × XTag))
    (hsorted : (vcs.map fun vc => vc.2.toUInt64).Pairwise (· ≤ ·)) : Recording where
  max_xtag := maxXtag
  maxVarIdcode := maxVarIdcode
  changes id := {time | ∃ vc ∈ vcs, vc.1 = id ∧ vc.2.toUInt64 = time}
  traverse ids := some ((vcs.filter fun vc => vc.1 ∈ ids).map Prod.snd)
  traverse_sorted := by
    rintro ids _ ⟨⟩
    rw [List.map_map]
    exact hsorted.sublist (List.filter_sublist.map _)
  mem_traverse := by
    rintro ids _ ⟨⟩ time
    rw [List.map_map]
    constructor
    · intro h
      obtain ⟨vc, hvc, htime⟩ := List.mem_map.mp h
      obtain ⟨hmem, hid⟩ := List.mem_filter.mp hvc
      exact ⟨vc.1, of_decide_eq_true hid, vc, hmem, rfl, htime⟩
    · rintro ⟨id, hid, vc, hmem, rfl, htime⟩
      exact List.mem_map.mpr ⟨vc, List.mem_filter.mpr ⟨hmem, decide_eq_true hid⟩, htime⟩

/-- Two signals, of which the second changes while the first does not. -/
def lastAlone : Recording :=
  ofChanges ⟨0, 5⟩ 2 [(1, ⟨0, 0⟩), (2, ⟨0, 0⟩), (2, ⟨0, 3⟩), (1, ⟨0, 5⟩)] (by decide)

/-- The percentage without the rounding of doubles. -/
def percentage : Acceptable := fun parsedMaxXtagValue maxXtagValue =>
  decide (95 * maxXtagValue ≤ 100 * parsedMaxXtagValue)

/-- Both signals are loaded, and the time 3 is missing. -/
theorem not_collects_lastAlone : ¬ lastAlone.Collects percentage := by
  intro h
  have hparse : (lastAlone.attempt 0).parse = .value (⟨[⟨0, 0⟩, ⟨0, 5⟩], [0, 5]⟩, 5) := by
    have hvcs : (lastAlone.attempt 0).vcs = .value [⟨0, 0⟩, ⟨0, 5⟩] :=
      attempt_vcs (by decide) (Nat.zero_le _)
    rw [Attempt.parse, hvcs]
    simp [Distinct.collect, Distinct.Collected.add, XTag.toUInt64]
  have hlast : lastAlone.Last 0 := by
    refine ⟨Nat.zero_le _, fun i hi => absurd hi (Nat.not_lt_zero i), .inr ?_⟩
    rintro ⟨table, time, hvalue, htime⟩
    rw [hparse] at hvalue
    cases hvalue
    exact absurd htime (by decide)
  have hvalue := (construct_last percentage hlast).2.eq_value hparse
    fun htime _ => absurd htime (by decide)
  obtain ⟨-, a, ha, htable⟩ := h.table _ hvalue
  rw [construct_getLast hlast] at ha
  cases ha
  have hmem := (htable 3).mpr ⟨2, ⟨⟨by decide, by decide⟩, by decide⟩, (2, ⟨0, 3⟩), by decide, rfl, rfl⟩
  simp at hmem

end Recording

end Verilua.Fsdb
