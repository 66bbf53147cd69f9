import Verilua.Queues.Calls

/-!
# The queues against lists

What the calls on a `Queue` return is what a list returns that grows at its end and is taken from its
beginning. A `StaticQueue` returns what such a list of bounded length returns.
-/

namespace Verilua

open Fifo Shuffle Object

variable {V : Type*} [Inhabited V]

/-! ### `Queue` is a list -/

namespace Queue

/-- The calls on a list. -/
def listCall (l : List V) : Call V → Returned V × List V
  | .push v => (.nothing, l ++ [v])
  | .pop =>
    match l with
    | v :: l => (.value v, l)
    | [] => (.raised "queue is empty", [])
  | .front => (.value (l.headD default), l)
  | .last => (.value (l.getLastD default), l)
  | .size => (.int l.length, l)
  | .isEmpty => (.bool l.isEmpty, l)
  | .reset => (.nothing, [])

variable {q : Queue V}

omit [Inhabited V] in
lemma WellFormed.isEmpty (h : q.WellFormed) : q.isEmpty = q.contents.isEmpty := by
  have hle := h.first_le
  rw [Bool.eq_iff_iff, Queue.isEmpty, decide_eq_true_eq, List.isEmpty_iff, contents, slots_eq_nil]
  omega

omit [Inhabited V] in
lemma WellFormed.size (h : q.WellFormed) : q.size = q.contents.length := by
  have hle := h.first_le
  rw [contents, length_slots, Queue.size]
  omega

lemma WellFormed.front (h : q.WellFormed) : q.front = q.contents.headD default := by
  unfold Queue.front
  rw [h.isEmpty]
  cases hn : q.lastPtr + 1 - q.firstPtr with
  | zero => simp [contents, hn]
  | succ n => simp [contents, hn, slots_pop]

lemma WellFormed.last (h : q.WellFormed) : q.last = q.contents.getLastD default := by
  unfold Queue.last
  rw [h.isEmpty]
  cases hn : q.lastPtr + 1 - q.firstPtr with
  | zero => simp [contents, hn]
  | succ n =>
    have hlast : q.firstPtr + n = q.lastPtr := by omega
    simp [contents, hn, slots_succ, hlast]

lemma WellFormed.reset : q.reset.WellFormed ∧ q.reset.contents = [] :=
  ⟨⟨Nat.one_pos, Nat.le_refl _⟩, rfl⟩

lemma simulates_list : Simulates (call (V := V)) (fun l c r l' => listCall l c = (r, l'))
    fun q l => q.WellFormed ∧ q.contents = l := by
  rintro q l c ⟨h, rfl⟩
  cases c with
  | push v => exact ⟨_, rfl, h.push v⟩
  | pop =>
    cases hp : q.pop with
    | some p =>
      obtain ⟨v, q'⟩ := p
      obtain ⟨hwf, hcontents⟩ := h.pop hp
      simp only [call, hp]
      exact ⟨q'.contents, by rw [hcontents]; rfl, hwf, rfl⟩
    | none =>
      have hnil : q.contents = [] := by
        by_contra hne
        obtain ⟨v, q', hsome⟩ := ordered.popped h hne
        cases hp.symm.trans hsome
      simp only [call, hp]
      refine ⟨[], by rw [hnil]; rfl, ?_⟩
      split_ifs
      · exact ⟨⟨h.first_pos, h.first_le⟩, hnil⟩
      · exact ⟨h, hnil⟩
  | front => exact ⟨q.contents, by simp only [call, listCall, h.front], h, rfl⟩
  | last => exact ⟨q.contents, by simp only [call, listCall, h.last], h, rfl⟩
  | size => exact ⟨q.contents, by simp only [call, listCall, h.size], h, rfl⟩
  | isEmpty => exact ⟨q.contents, by simp only [call, listCall, h.isEmpty], h, rfl⟩
  | reset => exact ⟨_, rfl, WellFormed.reset⟩

/-- Whatever is called on a new queue, with any threshold, the results are those of the list. The
values of the queue are then those of the list, and compaction would keep every one in its place. -/
theorem results_eq_list (leakCheck : Bool) (compactThreshold : Int) (cs : List (Call V)) :
    let q := after call (init leakCheck compactThreshold) cs
    results call (init leakCheck compactThreshold) cs = results listCall [] cs ∧
      q.contents = after listCall [] cs ∧ q.compact.contents = q.contents := by
  have hinit : (init leakCheck compactThreshold : Queue V).WellFormed ∧
      (init leakCheck compactThreshold : Queue V).contents = [] :=
    ⟨wellFormed_init _ _, rfl⟩
  obtain ⟨l, hruns, hwf, hcontents⟩ := simulates_list.runs hinit cs
  obtain ⟨hresults, hlist⟩ := hruns.eq
  exact ⟨hresults, hcontents.trans hlist, hwf.compact.2⟩

end Queue

/-! ### `StaticQueue` is a list of bounded length -/

namespace StaticQueue

/-- What a list of at most `n` values may return and become. As a table, a list is what is left of it
without `nil`, and a shuffle may leave it in any order. -/
inductive Permits (n : Nat) : List V → Call V → Returned V → List V → Prop
  | push {l : List V} {v : V} (h : l.length < n) : Permits n l (.push v) (.int 0) (l ++ [v])
  | pushFull {l : List V} {v : V} (h : l.length = n) : Permits n l (.push v) (.int 1) l
  | pop (v : V) (l : List V) : Permits n (v :: l) .pop (.value v) l
  | popEmpty : Permits n [] .pop (.raised "queue is empty") []
  | front (l : List V) : Permits n l .front (.value (l.headD default)) l
  | last (l : List V) : Permits n l .last (.value (l.getLastD default)) l
  | shuffle {l l' : List V} {draws : Draws} (h : l'.Perm l) :
    Permits n l (.shuffle draws) .nothing l'
  | getAllData [DecidableEq V] (l : List V) :
    Permits n l .getAllData (.table (l.filter (· ≠ default))) l
  | reset (l : List V) : Permits n l .reset .nothing []

/-- The queue has `n` slots, and `last_ptr` names the one of the last value. -/
structure Ring (n : Nat) (q : StaticQueue V) : Prop extends q.WellFormed where
  size : q.size = n
  last_eq : 0 < q.count → q.lastPtr = q.real q.count

variable {q q' : StaticQueue V} {n i k : Nat} {v : V}

omit [Inhabited V] in
/-- The value number `i + 1` lies where `contents` reads the value with index `i`. -/
lemma real_succ (h : 0 < q.firstPtr) : q.real (i + 1) = (q.firstPtr - 1 + i) % q.size + 1 := by
  have hindex : q.firstPtr + (i + 1) - 2 = q.firstPtr - 1 + i := by omega
  rw [real, hindex]

omit [Inhabited V] in
lemma contents_eq (h : 0 < q.firstPtr) :
    q.contents = slots q.data (fun i => q.real (i + 1)) q.count :=
  slots_congr fun i _ => by rw [real_succ h]

omit [Inhabited V] in
lemma real_one (h : q.WellFormed) : q.real 1 = q.firstPtr := by
  have hpos := h.first_pos
  rw [real, Nat.mod_eq_of_lt (by have := h.first_le; omega)]
  omega

omit [Inhabited V] in
lemma real_next (h : 0 < q.firstPtr) : q.real (i + 1) % q.size + 1 = q.real (i + 2) := by
  rw [real_succ h, real_succ h, Nat.mod_add_mod, Nat.add_assoc]

omit [Inhabited V] in
lemma WellFormed.apart (h : q.WellFormed) : Apart (fun i => q.real (i + 1)) q.count := by
  intro i j hi hj heq
  have hle := h.count_le
  simp only [real_succ h.first_pos] at heq
  rcases Nat.lt_trichotomy i j with hlt | rfl | hlt
  · exact absurd heq (ring_ne hlt (by omega))
  · rfl
  · exact absurd heq.symm (ring_ne hlt (by omega))

lemma ring_init (h : 0 < n) : (init n : StaticQueue V).Ring n :=
  ⟨wellFormed_init h, rfl, fun hpos => absurd hpos (Nat.lt_irrefl 0)⟩

omit [Inhabited V] in
lemma Ring.push (h : q.Ring n) (hp : q.push v = some q') : q'.Ring n := by
  refine ⟨(h.toWellFormed.push hp).1, ?_, fun _ => ?_⟩
  all_goals
    unfold StaticQueue.push at hp
    split_ifs at hp
    cases hp
  · exact h.size
  · show q.lastPtr % q.size + 1 = q.real (q.count + 1)
    rw [h.last, real_succ h.first_pos]

omit [Inhabited V] in
lemma Ring.pop (h : q.Ring n) (hp : q.pop = some (v, q')) : q'.Ring n := by
  refine ⟨(h.toWellFormed.pop hp).1, ?_, fun hpos => ?_⟩
  all_goals
    unfold StaticQueue.pop at hp
    split_ifs at hp with hempty
    cases hp
  · exact h.size
  · have hpos' : 0 < q.count - 1 := hpos
    obtain ⟨m, hm⟩ : ∃ m, q.count = m + 2 := ⟨q.count - 2, by omega⟩
    have hfirst := h.first_pos
    show q.lastPtr = (q.firstPtr % q.size + 1 + (q.count - 1) - 2) % q.size + 1
    rw [h.last_eq (by omega), hm, real]
    have hleft : q.firstPtr + (m + 2) - 2 = q.firstPtr + m := by omega
    have hright : q.firstPtr % q.size + 1 + (m + 2 - 1) - 2 = q.firstPtr % q.size + m := by omega
    rw [hleft, hright, Nat.mod_add_mod]

omit [Inhabited V] in
lemma WellFormed.shuffleLoop (h : q.WellFormed) (draws : Draws) :
    Shuffled (fun i => q.real (i + 1)) q.count q.data
      (downTo2 (q.shuffleStep draws) q.count q.data) := by
  apply downTo2_invariant (I := Shuffled (fun i => q.real (i + 1)) q.count q.data)
  · intro i data hi hle hdata
    obtain ⟨m, j, rfl, hj, hlt⟩ := draws.exists_slots hi
    unfold shuffleStep
    rw [hj]
    exact hdata.exchange h.apart (Nat.lt_of_succ_le hle) (hlt.trans_le hle)
  · exact .refl

omit [Inhabited V] in
lemma WellFormed.shuffle (h : q.WellFormed) (draws : Draws) :
    (q.shuffle draws).contents.Perm q.contents ∧
      ∀ k, (∀ i < q.count, k ≠ q.real (i + 1)) → (q.shuffle draws).data k = q.data k := by
  unfold StaticQueue.shuffle
  split_ifs
  · exact ⟨.refl _, fun _ _ => rfl⟩
  · obtain ⟨hperm, hrest⟩ := h.shuffleLoop draws
    have hshuffled := contents_eq (q := { q with
      data := downTo2 (q.shuffleStep draws) q.count q.data }) h.first_pos
    refine ⟨?_, hrest⟩
    rw [hshuffled, contents_eq h.first_pos]
    exact hperm

omit [Inhabited V] in
lemma Ring.shuffle (h : q.Ring n) (draws : Draws) : (q.shuffle draws).Ring n := by
  unfold StaticQueue.shuffle
  split_ifs
  · exact h
  · exact ⟨⟨h.first_pos, h.first_le, h.count_le, h.last⟩, h.size, h.last_eq⟩

lemma Ring.reset (h : q.Ring n) : q.reset.Ring n := by
  have hsize : 0 < q.size := Nat.lt_of_lt_of_le h.first_pos h.first_le
  exact ⟨⟨Nat.one_pos, hsize, Nat.zero_le _, rfl⟩, h.size, fun hpos => absurd hpos (Nat.lt_irrefl 0)⟩

lemma WellFormed.front (h : q.WellFormed) : q.front = q.contents.headD default := by
  unfold StaticQueue.front
  rw [contents_eq h.first_pos]
  cases q.count with
  | zero => rfl
  | succ m => simp [slots_pop, real_one h]

lemma Ring.last_value (h : q.Ring n) : q.last = q.contents.getLastD default := by
  unfold StaticQueue.last
  rw [contents_eq h.first_pos]
  cases hm : q.count with
  | zero => rfl
  | succ m =>
    have hlast : q.lastPtr = q.real (m + 1) := by rw [h.last_eq (by omega), hm]
    simp [slots_succ, hlast]

/-- From the value number `i` on, the loop of `get_all_data` appends the values as they stand in
order, without `nil`. -/
lemma getLoop_eq [DecidableEq V] (h : 0 < q.firstPtr) (m i : Nat) (ret : List V) :
    q.getLoop m (q.real (i + 1)) ret =
      ret ++ (slots q.data (fun j => q.real (i + j + 1)) m).filter (· ≠ default) := by
  induction m generalizing i ret with
  | zero => simp [getLoop]
  | succ m ih =>
    have hnext : slots q.data (fun j => q.real (i + 1 + j + 1)) m =
        slots q.data (fun j => q.real (i + (j + 1) + 1)) m :=
      slots_congr fun j _ => by rw [Nat.add_assoc i 1 j, Nat.add_comm 1 j]
    rw [getLoop, real_next h, ih, slots_pop, hnext, Nat.add_zero]
    split_ifs with hnil
    · simp [hnil]
    · simp [hnil]

lemma WellFormed.getAllData [DecidableEq V] (h : q.WellFormed) :
    q.getAllData = q.contents.filter (· ≠ default) := by
  have hloop : q.getLoop q.count q.firstPtr [] = q.contents.filter (· ≠ default) := by
    have heq := getLoop_eq h.first_pos q.count 0 []
    simp only [real_one h, Nat.zero_add, List.nil_append] at heq
    rw [heq, contents_eq h.first_pos]
  unfold StaticQueue.getAllData
  split_ifs with hcount
  · exact hloop
  · have hzero : q.count = 0 := not_not.mp hcount
    rw [contents, hzero]
    rfl

/-- Every call returns what the list of bounded length may return. -/
lemma simulates_bounded [DecidableEq V] : Simulates (call (V := V)) (Permits n)
    fun q l => q.Ring n ∧ q.contents = l := by
  rintro q l c ⟨h, rfl⟩
  have hwf := h.toWellFormed
  cases c with
  | push v =>
    cases hp : q.push v with
    | some q' =>
      simp only [call, hp]
      refine ⟨q.contents ++ [v], .push ?_, h.push hp, (hwf.push hp).2⟩
      unfold StaticQueue.push at hp
      split_ifs at hp with hfull
      rw [contents, length_slots]
      exact h.size ▸ Nat.lt_of_not_le hfull
    | none =>
      simp only [call, hp]
      refine ⟨q.contents, .pushFull ?_, h, rfl⟩
      unfold StaticQueue.push at hp
      split_ifs at hp with hfull
      rw [contents, length_slots]
      exact h.size ▸ Nat.le_antisymm h.count_le hfull
  | pop =>
    cases hp : q.pop with
    | some p =>
      obtain ⟨v, q'⟩ := p
      simp only [call, hp]
      rw [(hwf.pop hp).2]
      exact ⟨q'.contents, .pop v _, h.pop hp, rfl⟩
    | none =>
      have hnil : q.contents = [] := by
        by_contra hne
        obtain ⟨v, q', hsome⟩ := ordered.popped hwf hne
        cases hp.symm.trans hsome
      simp only [call, hp]
      refine ⟨[], ?_, h, hnil⟩
      rw [hnil]
      exact .popEmpty
  | front =>
    simp only [call, hwf.front]
    exact ⟨q.contents, .front _, h, rfl⟩
  | last =>
    simp only [call, h.last_value]
    exact ⟨q.contents, .last _, h, rfl⟩
  | shuffle draws => exact ⟨_, .shuffle (hwf.shuffle draws).1, h.shuffle draws, rfl⟩
  | getAllData =>
    simp only [call, hwf.getAllData]
    exact ⟨q.contents, .getAllData _, h, rfl⟩
  | reset => exact ⟨[], .reset _, h.reset, rfl⟩

/-- Whatever is called on a new queue of `n` slots, the results are those of a list of at most `n`
values. `push` fails if and only if `n` are held, `pop` if and only if none is, and then the queue is
left as it was. `shuffle` leaves the slots alone that hold no value of the queue. -/
theorem results_bounded [DecidableEq V] (h : 0 < n) (cs : List (Call V)) :
    let q : StaticQueue V := after call (init n) cs
    Runs (Permits n) [] cs (results call (init n) cs) q.contents ∧
      q.contents.length = q.count ∧ q.count ≤ n ∧
      (∀ v, (q.push v = none ↔ q.count = n) ∧
        (q.push v = none → call q (.push v) = (.int 1, q))) ∧
      (q.pop = none ↔ q.count = 0) ∧
      (q.pop = none → call q .pop = (.raised "queue is empty", q)) ∧
      ∀ draws k, (∀ i < q.count, k ≠ q.real (i + 1)) → (q.shuffle draws).data k = q.data k := by
  intro q
  have hinit : (init n : StaticQueue V).Ring n ∧ (init n : StaticQueue V).contents = [] :=
    ⟨ring_init h, rfl⟩
  obtain ⟨l, hruns, hring, hcontents⟩ := simulates_bounded.runs hinit cs
  have hle : q.count ≤ n := hring.size ▸ hring.count_le
  have hsize : q.size = n := hring.size
  refine ⟨hcontents ▸ hruns, length_slots, hle, fun v => ⟨?_, ?_⟩, ?_, ?_, ?_⟩
  · rw [push, hsize]
    split_ifs with hfull
    · exact iff_of_true rfl (Nat.le_antisymm hle hfull)
    · exact iff_of_false nofun fun heq => hfull heq.ge
  · intro hp
    simp only [call, hp]
  · rw [pop]
    split_ifs with hempty
    · exact iff_of_true rfl hempty
    · exact iff_of_false nofun hempty
  · intro hp
    simp only [call, hp]
  · intro draws
    exact (hring.toWellFormed.shuffle draws).2

/-- A queue of one slot. -/
theorem results_bounded_one :
    let q : StaticQueue Nat := after call (init 1) [.push 3, .push 4, .pop]
    Runs (Permits 1) [] [.push 3, .push 4, .pop]
        (results call (init 1 : StaticQueue Nat) [.push 3, .push 4, .pop]) q.contents ∧
      q.count ≤ 1 :=
  have h := results_bounded (V := Nat) Nat.one_pos [.push 3, .push 4, .pop]
  ⟨h.1, h.2.2.1⟩

end StaticQueue

end Verilua
