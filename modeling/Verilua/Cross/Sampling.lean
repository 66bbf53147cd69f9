import Verilua.Cross.Keys
import Verilua.Lib.Shuffle
import Mathlib.Data.Nat.Choose.Basic

/-!
# `_sample_combinations`

Every attempt shuffles the first slots of a pool of indices, and either takes these or leaves them out.
What an attempt comes to is kept if it passes the filter and, where the samples are to be unique, if its
key is new.
-/

namespace Verilua.Cross

open Fifo Shuffle

variable {V K : Type*} [Inhabited V] [DecidableEq K]

/-! ### One attempt -/

/-- What `random(i, n)` returns, for every attempt and every `i`. -/
structure Source (n : ℕ) where
  draw : ℕ → ℕ → ℕ
  ge : ∀ attempt i, i ≤ n → i ≤ draw attempt i
  le : ∀ attempt i, i ≤ n → draw attempt i ≤ n

/-- The pool, of which the first `pickCount` slots are shuffled. -/
def shufflePool (draw : ℕ → ℕ) (n pickCount : ℕ) : ℕ → ℕ :=
  (List.range' 1 pickCount).foldl (fun pool i => exchange pool i (draw i)) (table (List.range' 1 n))

def comboIndices (draw : ℕ → ℕ) (n k : ℕ) : List ℕ :=
  -- `k > n / 2`
  let useComplement := n < 2 * k
  let pickCount := if useComplement then n - k else k
  let pool := shufflePool draw n pickCount
  if useComplement then
    let excluded := fun i => (List.range' 1 pickCount).any fun j => pool j = i
    (List.range' 1 n).filter fun i => !excluded i
  else values pickCount (Insertion.sort pickCount (table (values pickCount pool)))

/-- The combo of an attempt. -/
def drawCombo (a : List V) (k : ℕ) (draw : ℕ → ℕ) : List V :=
  values k fun ci => table a (table (comboIndices draw a.length k) ci)

/-! ### The loop -/

/-- The options that `_sample_combinations` reads. Its numbers are integers. -/
structure Options (V : Type*) where
  sample : ℤ
  filter : Option (List V → Bool)
  unique : Option Bool
  maxAttempts : Option ℤ

/-- The samples, and the keys of those that are kept. -/
structure Samples (V K : Type*) where
  results : List (List V)
  seen : List K

omit [Inhabited V] in
/-- What becomes of the combo of an attempt. -/
def addSample (key : List V → K) (opts : Options V) (combo : List V) (s : Samples V K) :
    Samples V K :=
  if keep opts.filter combo then
    if opts.unique.getD false then
      if key combo ∈ s.seen then s
      else { results := s.results ++ [combo], seen := key combo :: s.seen }
    else { s with results := s.results ++ [combo] }
  else s

def exceeded (sample maxAttempts : ℤ) : String :=
  "Cross.combinations_table: exceeded max attempts (" ++ toString maxAttempts ++ ") to find " ++
    toString sample ++ " unique samples"

/-- The loop, with the attempts that are left and the number of those that were made. -/
def sampleLoop (key : List V → K) (opts : Options V) (a : List V) (k : ℕ)
    (draw : ℕ → ℕ → ℕ) (maxAttempts : ℤ) : ℕ → ℕ → Samples V K → Except String (List (List V))
  | 0, _, s =>
    if (s.results.length : ℤ) < opts.sample then .error (exceeded opts.sample maxAttempts)
    else .ok s.results
  | left + 1, attempts, s =>
    if (s.results.length : ℤ) < opts.sample then
      sampleLoop key opts a k draw maxAttempts left (attempts + 1)
        (addSample key opts (drawCombo a k (draw attempts)) s)
    else .ok s.results

/-- `_sample_combinations`, where `total` is what it computes for the number of all combinations, and
`key` is `set_key`. -/
def sampleCombinations (total : ℕ → ℕ → ℤ) (key : List V → K) (a : List V) (k : ℕ)
    (opts : Options V) (source : Source a.length) : Except String (List (List V)) :=
  let n := a.length
  if opts.sample ≤ 0 then .error "sample must be a positive integer"
  else if n < k then
    .error ("_sample_combinations: k (" ++ toString k ++ ") > n (" ++ toString n ++ ")")
  else if opts.unique.getD false = true ∧ total n k < opts.sample then
    .error ("sample (" ++ toString opts.sample ++ ") exceeds total combination count (" ++
      toString (total n k) ++ ")")
  else
    let maxAttempts := opts.maxAttempts.getD (opts.sample * 100)
    sampleLoop key opts a k source.draw maxAttempts maxAttempts.toNat 0 ⟨[], []⟩

/-! ### The indices of an attempt -/

variable {n k c : ℕ} {draw : ℕ → ℕ} {pool : ℕ → ℕ} {is l : List ℕ}

/-- `k` indices of `n`, in increasing order. -/
structure Chosen (n k : ℕ) (is : List ℕ) : Prop where
  length : is.length = k
  increasing : is.Pairwise (· < ·)
  range : ∀ i ∈ is, 1 ≤ i ∧ i ≤ n

lemma shuffled_pool (hdraw : ∀ i ≤ n, i ≤ draw i ∧ draw i ≤ n) (hc : c ≤ n) :
    Shuffled (fun i => i + 1) n (table (List.range' 1 n)) (shufflePool draw n c) := by
  induction c with
  | zero => exact .refl
  | succ c ih =>
    have hapart : Apart (fun i => i + 1) n := fun _ _ _ _ heq => Nat.succ.inj heq
    obtain ⟨hge, hle⟩ := hdraw (c + 1) hc
    have hindex : draw (c + 1) - 1 + 1 = draw (c + 1) := by omega
    have hnext := (ih (Nat.le_of_succ_le hc)).exchange hapart (i := c) (j := draw (c + 1) - 1) hc
      (by omega)
    rw [hindex] at hnext
    rw [shufflePool, List.range'_concat, List.foldl_append, List.foldl_cons, List.foldl_nil]
    have hlast : 1 + 1 * c = c + 1 := by omega
    rw [hlast]
    exact hnext

lemma picked_nodup (hdraw : ∀ i ≤ n, i ≤ draw i ∧ draw i ≤ n) (hc : c ≤ n) :
    (values c (shufflePool draw n c)).Nodup ∧
      ∀ i ∈ values c (shufflePool draw n c), 1 ≤ i ∧ i ≤ n := by
  have hperm : (values n (shufflePool draw n c)).Perm (List.range' 1 n) := by
    have htable : values n (table (List.range' 1 n)) = List.range' 1 n :=
      values_table_of_length List.length_range'
    exact htable ▸ (shuffled_pool hdraw hc).perm
  have hsub : (values c (shufflePool draw n c)).Sublist (values n (shufflePool draw n c)) := by
    rw [values_eq, values_eq]
    exact (List.range'_sublist_right.mpr hc).map _
  refine ⟨(hperm.nodup_iff.mpr List.nodup_range').sublist hsub, fun i hi => ?_⟩
  have hmem := List.mem_range'_1.mp (hperm.subset (hsub.subset hi))
  exact ⟨hmem.1, by omega⟩

lemma chosen_complement (hl : l.Nodup) (hmem : ∀ i ∈ l, 1 ≤ i ∧ i ≤ n) :
    Chosen n (n - l.length) ((List.range' 1 n).filter fun i => !decide (i ∈ l)) := by
  have hrange : (List.range' 1 n).Nodup := List.nodup_range'
  have hin : ((List.range' 1 n).filter fun i => decide (i ∈ l)).Perm l := by
    rw [List.perm_ext_iff_of_nodup (hrange.filter _) hl]
    intro i
    rw [List.mem_filter, List.mem_range'_1, decide_eq_true_eq]
    constructor
    · exact fun hi => hi.2
    · intro hi
      have := hmem i hi
      exact ⟨by omega, hi⟩
  have hsum := List.length_eq_length_filter_add (l := List.range' 1 n) fun i => decide (i ∈ l)
  rw [List.length_range', hin.length_eq] at hsum
  refine ⟨by omega, ?_, fun i hi => ?_⟩
  · exact List.Pairwise.filter _ List.pairwise_lt_range'
  · have hi' := List.mem_range'_1.mp (List.mem_of_mem_filter hi)
    exact ⟨hi'.1, by omega⟩

lemma chosen_sorted (hl : l.Nodup) (hmem : ∀ i ∈ l, 1 ≤ i ∧ i ≤ n) :
    Chosen n l.length (values l.length (Insertion.sort l.length (table l))) := by
  obtain ⟨hperm, hsorted⟩ := Insertion.row_sort l.length (table l)
  have hperm' : (values l.length (Insertion.sort l.length (table l))).Perm l :=
    hperm.trans (List.Perm.of_eq values_table)
  have hnodup : (values l.length (Insertion.sort l.length (table l))).Nodup :=
    hperm'.nodup_iff.mpr hl
  exact ⟨hperm'.length_eq, hsorted.imp₂ (fun _ _ hle hne => Nat.lt_of_le_of_ne hle hne) hnodup,
    fun i hi => hmem i (hperm'.subset hi)⟩

theorem chosen_comboIndices (hk : k ≤ n) (hdraw : ∀ i ≤ n, i ≤ draw i ∧ draw i ≤ n) :
    Chosen n k (comboIndices draw n k) := by
  unfold comboIndices
  by_cases hcomplement : n < 2 * k
  · obtain ⟨hnodup, hmem⟩ := picked_nodup (c := n - k) hdraw (Nat.sub_le n k)
    have hexcluded : ∀ i, ((List.range' 1 (n - k)).any fun j =>
        decide (shufflePool draw n (n - k) j = i)) =
          decide (i ∈ values (n - k) (shufflePool draw n (n - k))) := by
      intro i
      rw [values_eq, Bool.eq_iff_iff]
      simp
    have hchosen := chosen_complement hnodup hmem
    rw [length_values, Nat.sub_sub_self hk] at hchosen
    simp only [if_pos hcomplement, hexcluded]
    exact hchosen
  · obtain ⟨hnodup, hmem⟩ := picked_nodup (c := k) hdraw hk
    have hchosen := chosen_sorted hnodup hmem
    rw [length_values] at hchosen
    simp only [if_neg hcomplement]
    exact hchosen

lemma exists_chosen {a : List V} (hk : k ≤ a.length) (source : Source a.length) (attempt : ℕ) :
    ∃ is, Chosen a.length k is ∧ drawCombo a k (source.draw attempt) = is.map (table a) := by
  have hchosen := chosen_comboIndices hk fun i hi =>
    ⟨source.ge attempt i hi, source.le attempt i hi⟩
  refine ⟨_, hchosen, ?_⟩
  rw [drawCombo, values_comp, values_table_of_length hchosen.length]

/-! ### What is kept -/

variable {total : ℕ → ℕ → ℤ} {key : List V → K} {opts : Options V} {a : List V}
  {combo : List V} {s : Samples V K} {draws : ℕ → ℕ → ℕ} {maxAttempts : ℤ} {left attempts : ℕ}

/-- What the first attempts come to, if none of them is left out. -/
def samplesAfter (key : List V → K) (opts : Options V) (a : List V) (k : ℕ)
    (draws : ℕ → ℕ → ℕ) (attempts : ℕ) : Samples V K :=
  (List.range attempts).foldl
    (fun s attempt => addSample key opts (drawCombo a k (draws attempt)) s) ⟨[], []⟩

/-- The samples are read at indices that are chosen, they pass the filter, and if they are to be
unique, their keys differ. -/
structure Valid (key : List V → K) (opts : Options V) (a : List V) (k : ℕ) (s : Samples V K) :
    Prop where
  chosen : ∃ iss : List (List ℕ), s.results = iss.map (fun is => is.map (table a)) ∧
    ∀ is ∈ iss, Chosen a.length k is
  passes : ∀ combo ∈ s.results, keep opts.filter combo = true
  seen : opts.unique.getD false = true → ∀ combo ∈ s.results, key combo ∈ s.seen
  unique : opts.unique.getD false = true → s.results.Pairwise fun c c' => key c ≠ key c'

omit [DecidableEq K] in
lemma Valid.append {seen : List K} (h : Valid key opts a k s) {is : List ℕ}
    (his : Chosen a.length k is) (hpass : keep opts.filter (is.map (table a)) = true)
    (hseen : opts.unique.getD false = true → seen = key (is.map (table a)) :: s.seen ∧
      key (is.map (table a)) ∉ s.seen) :
    Valid key opts a k { results := s.results ++ [is.map (table a)], seen := seen } := by
  obtain ⟨iss, hresults, hchosen⟩ := h.chosen
  refine ⟨⟨iss ++ [is], ?_, ?_⟩, ?_, ?_, ?_⟩
  · rw [hresults, List.map_append]
    rfl
  · intro js hjs
    rcases List.mem_append.mp hjs with hjs | hjs
    · exact hchosen js hjs
    · rw [List.mem_singleton.mp hjs]
      exact his
  · intro combo hcombo
    rcases List.mem_append.mp hcombo with hcombo | hcombo
    · exact h.passes combo hcombo
    · rw [List.mem_singleton.mp hcombo]
      exact hpass
  · intro hunique combo hcombo
    obtain ⟨heq, -⟩ := hseen hunique
    dsimp only
    rw [heq]
    rcases List.mem_append.mp hcombo with hcombo | hcombo
    · exact List.mem_cons_of_mem _ (h.seen hunique combo hcombo)
    · rw [List.mem_singleton.mp hcombo]
      exact List.mem_cons_self
  · intro hunique
    obtain ⟨-, hnew⟩ := hseen hunique
    refine List.pairwise_append.mpr ⟨h.unique hunique, List.pairwise_singleton _ _, ?_⟩
    intro c hc c' hc' heq
    rw [List.mem_singleton.mp hc'] at heq
    exact hnew (heq ▸ h.seen hunique c hc)

lemma Valid.addSample (h : Valid key opts a k s) {is : List ℕ} (his : Chosen a.length k is) :
    Valid key opts a k (addSample key opts (is.map (table a)) s) := by
  unfold Cross.addSample
  split_ifs with hpass hunique hseen
  · exact h
  · exact h.append his hpass fun _ => ⟨rfl, hseen⟩
  · exact h.append his hpass fun hunique' => absurd hunique' hunique
  · exact h

omit [Inhabited V] in
lemma length_addSample : s.results.length ≤ (addSample key opts combo s).results.length ∧
    (addSample key opts combo s).results.length ≤ s.results.length + 1 := by
  unfold addSample
  split_ifs
  · exact ⟨le_rfl, Nat.le_succ _⟩
  · simp
  · simp
  · exact ⟨le_rfl, Nat.le_succ _⟩

lemma samplesAfter_succ : samplesAfter key opts a k draws (attempts + 1) =
    addSample key opts (drawCombo a k (draws attempts))
      (samplesAfter key opts a k draws attempts) := by
  rw [samplesAfter, List.range_succ, List.foldl_append]
  rfl

lemma valid_samplesAfter (hk : k ≤ a.length) (source : Source a.length) (attempts : ℕ) :
    Valid key opts a k (samplesAfter key opts a k source.draw attempts) := by
  induction attempts with
  | zero => exact ⟨⟨[], rfl, by simp⟩, by simp [samplesAfter], by simp [samplesAfter], fun _ => .nil⟩
  | succ attempts ih =>
    obtain ⟨is, his, hcombo⟩ := exists_chosen hk source attempts
    rw [samplesAfter_succ, hcombo]
    exact ih.addSample his

lemma length_samplesAfter_mono : (samplesAfter key opts a k draws attempts).results.length ≤
    (samplesAfter key opts a k draws (attempts + left)).results.length := by
  induction left with
  | zero => exact le_rfl
  | succ left ih =>
    rw [← Nat.add_assoc, samplesAfter_succ]
    exact ih.trans length_addSample.1

lemma sampleLoop_eq
    (hfew : ((samplesAfter key opts a k draws attempts).results.length : ℤ) ≤ opts.sample) :
    (opts.sample ≤ (samplesAfter key opts a k draws (attempts + left)).results.length ∧
      ∃ t, ((samplesAfter key opts a k draws t).results.length : ℤ) = opts.sample ∧
        sampleLoop key opts a k draws maxAttempts left attempts
          (samplesAfter key opts a k draws attempts) =
            .ok (samplesAfter key opts a k draws t).results) ∨
    (((samplesAfter key opts a k draws (attempts + left)).results.length : ℤ) < opts.sample ∧
      sampleLoop key opts a k draws maxAttempts left attempts
        (samplesAfter key opts a k draws attempts) = .error (exceeded opts.sample maxAttempts)) := by
  have hok : ¬ ((samplesAfter key opts a k draws attempts).results.length : ℤ) < opts.sample →
      ((samplesAfter key opts a k draws attempts).results.length : ℤ) = opts.sample := by omega
  induction left generalizing attempts with
  | zero =>
    rw [sampleLoop, Nat.add_zero]
    split_ifs with hless
    · exact .inr ⟨hless, rfl⟩
    · exact .inl ⟨Int.not_lt.mp hless, attempts, hok hless, rfl⟩
  | succ left ih =>
    rw [sampleLoop]
    split_ifs with hless
    · have hone : (samplesAfter key opts a k draws (attempts + 1)).results.length ≤
          (samplesAfter key opts a k draws attempts).results.length + 1 := by
        rw [samplesAfter_succ]
        exact length_addSample.2
      rw [← samplesAfter_succ]
      have hnext : attempts + (left + 1) = attempts + 1 + left := by omega
      rw [hnext]
      exact ih (by omega) fun h => by omega
    · have hmono : (samplesAfter key opts a k draws attempts).results.length ≤
          (samplesAfter key opts a k draws (attempts + (left + 1))).results.length :=
        length_samplesAfter_mono
      exact .inl ⟨by omega, attempts, hok hless, rfl⟩

/-! ### The iterator and the sampler -/

/-- The iterator yields the combinations at these indices that the filter accepts, and then nothing. -/
def Yields (a : List V) (k : ℕ) (iss : List (List ℕ)) : Prop :=
  ∃ start, combinationsIter a.length k = .ok start ∧
    ∀ filter, ∃ enough, ∀ fuel, enough ≤ fuel → ∀ m,
      Iterator.calls (Iterator.next (combinationsRound a k) (keep filter) fuel) m start =
        some ((List.range m).map fun j =>
          ((iss.map fun is => is.map (table a)).filter (keep filter))[j]?)

/-- The number of samples that was asked for, read from the list at indices that are chosen, and if they
are to be unique, at different ones. -/
def Sampled (opts : Options V) (a : List V) (k : ℕ) (results : List (List V)) : Prop :=
  ∃ iss : List (List ℕ), results = iss.map (fun is => is.map (table a)) ∧
    (iss.length : ℤ) = opts.sample ∧ (∀ is ∈ iss, Chosen a.length k is) ∧
    (∀ is ∈ iss, keep opts.filter (is.map (table a)) = true) ∧
    (opts.unique.getD false = true → iss.Pairwise (· ≠ ·))

omit [DecidableEq K] in
lemma Valid.sampled (h : Valid key opts a k s) (hlen : (s.results.length : ℤ) = opts.sample) :
    Sampled opts a k s.results := by
  obtain ⟨iss, hresults, hchosen⟩ := h.chosen
  refine ⟨iss, hresults, ?_, hchosen, fun is his => ?_, fun hunique => ?_⟩
  · rw [← hlen, hresults, List.length_map]
  · exact h.passes _ (hresults ▸ List.mem_map.mpr ⟨is, his, rfl⟩)
  · have hkeys := h.unique hunique
    rw [hresults, List.pairwise_map] at hkeys
    refine hkeys.imp ?_
    intro is js hne heq
    exact hne (by rw [heq])

lemma mem_choices_iff_chosen : is ∈ choices n k 1 ↔ Chosen n k is := by
  rw [mem_choices]
  constructor
  · rintro ⟨hlen, hpair, hrange⟩
    exact ⟨hlen, hpair, hrange⟩
  · rintro ⟨hlen, hpair, hrange⟩
    exact ⟨hlen, hpair, hrange⟩

lemma length_samplesAfter (hfilter : opts.filter = none) (hunique : opts.unique.getD false = false) :
    (samplesAfter key opts a k draws attempts).results.length = attempts := by
  induction attempts with
  | zero => rfl
  | succ attempts ih =>
    rw [samplesAfter_succ, addSample, hfilter, hunique]
    simp [keep, ih]

variable (a k total key opts)

/-- Of a list with enough values the iterator yields every choice of `k` indices, each once and in
lexicographic order. The sampler returns such choices if its attempts come to enough of them, and
raises an error if they do not, whatever is drawn. -/
theorem combinations_complete (source : Source a.length) :
    (∀ n k, k ≤ n → (choices n k 1).Pairwise (· < ·)) ∧
    (∀ n k is, is ∈ choices n k 1 ↔ Chosen n k is) ∧
    (k ≤ a.length → Yields a k (choices a.length k 1)) ∧
    (a.length < k → combinationsIter a.length k =
      .error ("combinations_iter: k (" ++ toString k ++ ") > n (" ++ toString a.length ++ ")")) ∧
    (0 < opts.sample → k ≤ a.length →
      ¬ (opts.unique.getD false = true ∧ total a.length k < opts.sample) →
      let maxAttempts := opts.maxAttempts.getD (opts.sample * 100)
      let found := (samplesAfter key opts a k source.draw maxAttempts.toNat).results.length
      (opts.sample ≤ found ∧ ∃ results,
        sampleCombinations total key a k opts source = .ok results ∧ Sampled opts a k results) ∨
      (found < opts.sample ∧ sampleCombinations total key a k opts source =
        .error (exceeded opts.sample maxAttempts))) ∧
    (opts.filter = none → opts.unique.getD false = false → ∀ attempts,
      (samplesAfter key opts a k source.draw attempts).results.length = attempts) := by
  refine ⟨fun n k h => pairwise_choices (by omega), fun n k is => mem_choices_iff_chosen, ?_, ?_, ?_,
    fun hfilter hunique attempts => length_samplesAfter hfilter hunique⟩
  · intro hk
    obtain ⟨start, hstart, hrun⟩ := run_combinations hk
    exact ⟨start, hstart, fun filter => hrun.calls (keep filter)⟩
  · exact fun hk => if_pos hk
  · intro hsample hk htotal maxAttempts found
    have hloop : sampleCombinations total key a k opts source = sampleLoop key opts a k source.draw
        maxAttempts maxAttempts.toNat 0 (samplesAfter key opts a k source.draw 0) := by
      rw [sampleCombinations, if_neg (Int.not_le.mpr hsample), if_neg (Nat.not_lt.mpr hk),
        if_neg htotal]
      rfl
    have hfew : ((samplesAfter key opts a k source.draw 0).results.length : ℤ) ≤ opts.sample :=
      Int.le_of_lt hsample
    rw [hloop]
    rcases sampleLoop_eq hfew with ⟨hfound, t, hlen, hresult⟩ | ⟨hfound, hresult⟩
    · rw [Nat.zero_add] at hfound
      exact .inl ⟨hfound, _, hresult, (valid_samplesAfter hk source t).sampled hlen⟩
    · rw [Nat.zero_add] at hfound
      exact .inr ⟨hfound, hresult⟩

/-- A source that never exchanges two indices. -/
def Source.constant (n : ℕ) : Source n where
  draw := fun _ i => i
  ge := fun _ _ _ => le_rfl
  le := fun _ _ hi => hi

/-- Two values, one of which is left out. -/
theorem combinations_complete_two :
    Yields [Scalar.number 5, .number 7] 1 (choices 2 1 1) :=
  (combinations_complete 1 (fun _ _ => 2) (fun _ => ()) ⟨1, none, none, none⟩
    [Scalar.number 5, Scalar.number 7] (.constant 2)).2.2.1 (by decide)

/-- Two different samples of two are asked for, but every attempt comes to the same one. -/
theorem not_sampled_two :
    ¬ ∀ (a : List Scalar) (k : ℕ) (opts : Options Scalar) (source : Source a.length),
      0 < opts.sample → k ≤ a.length → opts.sample ≤ a.length.choose k → opts.filter = none →
      ∃ results, sampleCombinations (fun n k => n.choose k) (setKey (fun _ => true) List.length)
        a k opts source = .ok results := by
  intro h
  obtain ⟨results, hresults⟩ := h [.number 5, .number 7] 1 ⟨2, none, some true, none⟩ (.constant 2)
    (by decide) (by decide) (by decide) rfl
  have herror : sampleCombinations (fun n k => (n.choose k : ℤ))
      (setKey (fun _ => true) List.length) [.number 5, .number 7] 1 ⟨2, none, some true, none⟩
      (.constant 2) = .error (exceeded 2 200) := by
    decide +kernel
  rw [herror] at hresults
  cases hresults

end Verilua.Cross
