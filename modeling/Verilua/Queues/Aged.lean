import Verilua.Queues.Listed
import Mathlib.Algebra.Ring.Nat

/-!
# `AgeStaticQueue`

A `StaticQueue` with a second ring for the ages of its values. Read as one ring of pairs it is a
`StaticQueue` again, which carries over what is known of that.
-/

namespace Verilua

open Fifo Shuffle Object

variable {V : Type*} [Inhabited V]

/-- `ages` holds `global_age` as it was at the `push`. -/
structure AgeStaticQueue (V : Type*) where
  firstPtr : Nat
  lastPtr : Nat
  size : Nat
  count : Nat
  data : Nat → V
  globalAge : UInt64
  ages : Nat → UInt64
  maxAge : UInt64

namespace AgeStaticQueue

def defaultMaxAge : UInt64 := 10000

/-- `_init`, whose assertion is `size > 0`. -/
def init (size : Nat) (maxAge : Option Int) : AgeStaticQueue V where
  firstPtr := 1
  lastPtr := 0
  size := size
  count := 0
  data := fun _ => default
  globalAge := 0
  ages := fun _ => 0
  maxAge := (maxAge.map UInt64.ofInt).getD defaultMaxAge

omit [Inhabited V] in
/-- `push`: `none` where it returns 1. -/
def push (q : AgeStaticQueue V) (value : V) : Option (AgeStaticQueue V) :=
  if q.size ≤ q.count then none
  else
    let lastPtr := q.lastPtr % q.size + 1
    some { q with
      lastPtr := lastPtr
      count := q.count + 1
      data := Function.update q.data lastPtr value
      ages := Function.update q.ages lastPtr q.globalAge }

omit [Inhabited V] in
/-- `pop`: `none` where the assertion fails. -/
def pop (q : AgeStaticQueue V) : Option (V × AgeStaticQueue V) :=
  if q.count = 0 then none
  else some (q.data q.firstPtr, { q with
    firstPtr := q.firstPtr % q.size + 1
    count := q.count - 1
    globalAge := q.globalAge + 1
    ages := Function.update q.ages q.firstPtr 0 })

def reset (q : AgeStaticQueue V) : AgeStaticQueue V :=
  { q with
    data := fun _ => default
    globalAge := 0
    ages := fun i => if 1 ≤ i ∧ i ≤ q.size then 0 else q.ages i
    firstPtr := 1
    lastPtr := 0
    count := 0 }

omit [Inhabited V] in
/-- The slot of the value number `i`, counted from 1. -/
def real (q : AgeStaticQueue V) (i : Nat) : Nat := (q.firstPtr + i - 2) % q.size + 1

omit [Inhabited V] in
def protectFirst (q : AgeStaticQueue V) : Bool :=
  decide (q.maxAge ≤ q.globalAge - q.ages q.firstPtr)

omit [Inhabited V] in
/-- One round of the loop of `shuffle`, on `data` and `ages`. -/
def shuffleStep (q : AgeStaticQueue V) (draws : Draws) (i : Nat)
    (rings : (Nat → V) × (Nat → UInt64)) : (Nat → V) × (Nat → UInt64) :=
  let realI := q.real i
  let realJ := q.real (draws.draw i)
  if (realI = q.firstPtr ∨ realJ = q.firstPtr) ∧ q.protectFirst then rings
  else (exchange rings.1 realI realJ, exchange rings.2 realI realJ)

omit [Inhabited V] in
def shuffle (q : AgeStaticQueue V) (draws : Draws) : AgeStaticQueue V :=
  if q.count ≤ 1 then q
  else
    let rings := downTo2 (q.shuffleStep draws) q.count (q.data, q.ages)
    { q with data := rings.1, ages := rings.2 }

inductive Call (V : Type*)
  | push (v : V)
  | pop
  | shuffle (draws : Draws)
  | reset

/-- `push` returns 0 for success and 1 for failure. -/
def call (q : AgeStaticQueue V) : Call V → Returned V × AgeStaticQueue V
  | .push v =>
    match q.push v with
    | some q' => (.int 0, q')
    | none => (.int 1, q)
  | .pop =>
    match q.pop with
    | some (v, q') => (.value v, q')
    | none => (.raised "queue is empty", q)
  | .shuffle draws => (.nothing, q.shuffle draws)
  | .reset => (.nothing, q.reset)

/-! ### The ring of pairs -/

omit [Inhabited V] in
/-- Both rings as one. -/
def paired (q : AgeStaticQueue V) : StaticQueue (V × UInt64) where
  firstPtr := q.firstPtr
  lastPtr := q.lastPtr
  size := q.size
  count := q.count
  data := fun k => (q.data k, q.ages k)

omit [Inhabited V] in
/-- The values in the queue with their ages, in order. -/
def entries (q : AgeStaticQueue V) : List (V × UInt64) := q.paired.contents

variable {q q' : AgeStaticQueue V} {n : Nat} {v : V}

omit [Inhabited V] in
lemma paired_push (hp : q.push v = some q') :
    q.paired.push (v, q.globalAge) = some q'.paired ∧ q'.globalAge = q.globalAge ∧
      q'.maxAge = q.maxAge := by
  unfold push at hp
  split_ifs at hp with hfull
  cases hp
  refine ⟨?_, rfl, rfl⟩
  unfold StaticQueue.push
  rw [if_neg (show ¬ q.paired.size ≤ q.paired.count from hfull)]
  refine congrArg some (congrArg (StaticQueue.mk _ _ _ _) ?_)
  funext k
  by_cases hk : k = q.lastPtr % q.size + 1
  · subst hk
    simp [paired]
  · simp [paired, Function.update_of_ne hk]

omit [Inhabited V] in
lemma pop_eq (hp : q.pop = some (v, q')) :
    ∃ a, q.paired.pop = some ((v, a),
        { q'.paired with data := Function.update q'.paired.data q.firstPtr (v, a) }) ∧
      q'.globalAge = q.globalAge + 1 ∧ q'.maxAge = q.maxAge := by
  unfold pop at hp
  split_ifs at hp with hempty
  cases hp
  refine ⟨q.ages q.firstPtr, ?_, rfl, rfl⟩
  unfold StaticQueue.pop
  rw [if_neg (show q.paired.count ≠ 0 from hempty)]
  refine congrArg some (congrArg (Prod.mk _) (congrArg (StaticQueue.mk _ _ _ _) ?_))
  funext k
  by_cases hk : k = q.firstPtr
  · subst hk
    simp [paired]
  · simp [paired, Function.update_of_ne hk]

omit [Inhabited V] in
lemma ring_push (h : q.paired.Ring n) (hp : q.push v = some q') :
    q'.paired.Ring n ∧ q'.entries = q.entries ++ [(v, q.globalAge)] := by
  obtain ⟨hpaired, -, -⟩ := paired_push hp
  exact ⟨h.push hpaired, (h.toWellFormed.push hpaired).2⟩

omit [Inhabited V] in
lemma ring_pop (h : q.paired.Ring n) (hp : q.pop = some (v, q')) :
    q'.paired.Ring n ∧ ∃ a, q.entries = (v, a) :: q'.entries := by
  obtain ⟨a, hpaired, -, -⟩ := pop_eq hp
  have hring := h.pop hpaired
  refine ⟨⟨⟨hring.first_pos, hring.first_le, hring.count_le, hring.last⟩, hring.size,
    hring.last_eq⟩, a, ?_⟩
  unfold entries
  rw [(h.toWellFormed.pop hpaired).2]
  refine congrArg _ (slots_congr fun i hi => ?_)
  unfold pop at hp
  split_ifs at hp with hempty
  cases hp
  have hi' : i + 1 < q.paired.count := by
    have hi : i < q.count - 1 := hi
    show i + 1 < q.count
    omega
  -- The slot that is given up is a turn of the ring away from those that stay.
  refine Function.update_of_ne (fun heq => ?_) _ _
  have hnext : q.paired.real (i + 2) = q.paired.real 1 := by
    have hslot : (q.firstPtr % q.size + 1 - 1 + i) % q.size + 1 = q.firstPtr := heq
    have hpos : 0 < q.firstPtr := h.first_pos
    have hindex : q.firstPtr - 1 + (i + 1) = q.firstPtr + i := by omega
    rw [StaticQueue.real_one h.toWellFormed, StaticQueue.real_succ h.first_pos]
    show (q.firstPtr - 1 + (i + 1)) % q.size + 1 = q.firstPtr
    rw [hindex]
    rwa [Nat.add_sub_cancel, Nat.mod_add_mod] at hslot
  exact absurd (h.toWellFormed.apart (i + 1) 0 hi' (by omega) hnext) (Nat.succ_ne_zero i)

omit [Inhabited V] in
/-- The pairs of the queue in some order, the first one in its place if it is protected. -/
structure Rearranged (q : AgeStaticQueue V) (rings : (Nat → V) × (Nat → UInt64)) : Prop where
  shuffled : Shuffled (fun i => q.real (i + 1)) q.count q.paired.data
    fun k => (rings.1 k, rings.2 k)
  first : q.protectFirst = true →
    (rings.1 q.firstPtr, rings.2 q.firstPtr) = (q.data q.firstPtr, q.ages q.firstPtr)

omit [Inhabited V] in
lemma rearranged_loop (h : q.paired.WellFormed) (draws : Draws) :
    q.Rearranged (downTo2 (q.shuffleStep draws) q.count (q.data, q.ages)) := by
  apply downTo2_invariant (I := q.Rearranged)
  · intro i rings hi hle hrings
    unfold shuffleStep
    dsimp only
    split_ifs with hguard
    · exact hrings
    · constructor
      · obtain ⟨m, j, rfl, hj, hlt⟩ := draws.exists_slots hi
        rw [hj, exchange_pair]
        exact hrings.shuffled.exchange h.apart (Nat.lt_of_succ_le hle) (hlt.trans_le hle)
      · intro hprotect
        obtain ⟨hI, hJ⟩ := not_or.mp fun hor => hguard ⟨hor, hprotect⟩
        have hdata := exchange_of_ne (t := rings.1) (Ne.symm hI) (Ne.symm hJ)
        have hages := exchange_of_ne (t := rings.2) (Ne.symm hI) (Ne.symm hJ)
        exact (Prod.ext hdata hages).trans (hrings.first hprotect)
  · exact ⟨.refl, fun _ => rfl⟩

omit [Inhabited V] in
lemma ring_shuffle (h : q.paired.Ring n) (draws : Draws) : (q.shuffle draws).paired.Ring n := by
  unfold shuffle
  split_ifs
  · exact h
  · exact ⟨⟨h.first_pos, h.first_le, h.count_le, h.last⟩, h.size, h.last_eq⟩

omit [Inhabited V] in
lemma entries_shuffle (h : q.paired.WellFormed) (draws : Draws) :
    (q.shuffle draws).entries.Perm q.entries ∧
      ∀ p, q.entries.head? = some p → q.maxAge ≤ q.globalAge - p.2 →
        (q.shuffle draws).entries.head? = some p := by
  unfold shuffle
  split_ifs with hcount
  · exact ⟨.refl _, fun _ hp _ => hp⟩
  · obtain ⟨⟨hperm, -⟩, hfirst⟩ := rearranged_loop h draws
    generalize downTo2 (q.shuffleStep draws) q.count (q.data, q.ages) = rings at hperm hfirst ⊢
    have hread := StaticQueue.contents_eq (q := q.paired) h.first_pos
    have hshuffled := StaticQueue.contents_eq (q := paired { q with
      data := rings.1, ages := rings.2 }) h.first_pos
    have hone : q.real 1 = q.firstPtr := StaticQueue.real_one (q := q.paired) h
    obtain ⟨m, hm⟩ := Nat.exists_eq_succ_of_ne_zero (show q.count ≠ 0 by omega)
    unfold entries
    rw [hshuffled, hread]
    refine ⟨hperm, ?_⟩
    show ∀ p, (slots _ (fun i => q.real (i + 1)) q.count).head? = some p → _ →
      (slots _ (fun i => q.real (i + 1)) q.count).head? = some p
    rw [hm, slots_pop, slots_pop]
    intro p hp hage
    simp only [List.head?_cons, Option.some.injEq, Nat.zero_add, hone] at hp ⊢
    subst hp
    exact hfirst (decide_eq_true hage)

lemma ring_reset (h : q.paired.Ring n) : q.reset.paired.Ring n ∧ q.reset.entries = [] := by
  have hsize : 0 < q.size := Nat.lt_of_lt_of_le h.first_pos h.first_le
  exact ⟨⟨⟨Nat.one_pos, hsize, Nat.zero_le _, rfl⟩, h.size,
    fun hpos => absurd hpos (Nat.lt_irrefl 0)⟩, rfl⟩

lemma ring_init (h : 0 < n) (maxAge : Option Int) :
    (init n maxAge : AgeStaticQueue V).paired.Ring n :=
  ⟨⟨Nat.one_pos, h, Nat.zero_le _, rfl⟩, rfl, fun hpos => absurd hpos (Nat.lt_irrefl 0)⟩

omit [Inhabited V] in
lemma length_entries : q.entries.length = q.count := length_slots

omit [Inhabited V] in
lemma push_eq_none (h : q.paired.Ring n) (hp : q.push v = none) : q.entries.length = n := by
  unfold push at hp
  split_ifs at hp with hfull
  rw [length_entries]
  exact Nat.le_antisymm (h.size ▸ h.count_le) (h.size ▸ hfull)

omit [Inhabited V] in
lemma push_eq_some (h : q.paired.Ring n) (hp : q.push v = some q') : q.entries.length < n := by
  unfold push at hp
  split_ifs at hp with hfull
  rw [length_entries]
  exact h.size ▸ Nat.lt_of_not_le hfull

omit [Inhabited V] in
lemma pop_eq_none (hp : q.pop = none) : q.entries = [] := by
  unfold pop at hp
  split_ifs at hp with hempty
  exact List.length_eq_zero_iff.mp (length_entries.trans hempty)

/-! ### What the calls make of the ages -/

/-- The values with their ages, and the number of pops since the queue was new or reset. -/
structure Line (V : Type*) where
  entries : List (V × UInt64)
  pops : Nat

/-- What a line of at most `n` values may return and become. A value is given the number of pops for
its age and keeps it, and a first value whose age has reached `maxAge` stays the first. -/
inductive Permits (n : Nat) (maxAge : UInt64) : Line V → Call V → Returned V → Line V → Prop
  | push {l : Line V} {v : V} (h : l.entries.length < n) :
    Permits n maxAge l (.push v) (.int 0)
      { l with entries := l.entries ++ [(v, UInt64.ofNat l.pops)] }
  | pushFull {l : Line V} {v : V} (h : l.entries.length = n) :
    Permits n maxAge l (.push v) (.int 1) l
  | pop (v : V) (age : UInt64) (es : List (V × UInt64)) (pops : Nat) :
    Permits n maxAge ⟨(v, age) :: es, pops⟩ .pop (.value v) ⟨es, pops + 1⟩
  | popEmpty (pops : Nat) :
    Permits n maxAge ⟨[], pops⟩ .pop (.raised "queue is empty") ⟨[], pops⟩
  | shuffle {l : Line V} {es : List (V × UInt64)} {draws : Draws} (h : es.Perm l.entries)
    (hfirst : ∀ p, l.entries.head? = some p → maxAge ≤ UInt64.ofNat l.pops - p.2 →
      es.head? = some p) :
    Permits n maxAge l (.shuffle draws) .nothing { l with entries := es }
  | reset (l : Line V) : Permits n maxAge l .reset .nothing ⟨[], 0⟩

/-- The queue holds the line, and no age is greater than the number of pops as long as that has not
wrapped around. -/
structure Holds (n : Nat) (maxAge : UInt64) (q : AgeStaticQueue V) (l : Line V) : Prop where
  ring : q.paired.Ring n
  entries : q.entries = l.entries
  globalAge : q.globalAge = UInt64.ofNat l.pops
  maxAge : q.maxAge = maxAge
  ages : l.pops < 2 ^ 64 → ∀ p ∈ l.entries, p.2.toNat ≤ l.pops

omit [Inhabited V] in
lemma maxAge_shuffle (draws : Draws) :
    (q.shuffle draws).maxAge = q.maxAge ∧ (q.shuffle draws).globalAge = q.globalAge := by
  unfold shuffle
  split_ifs
  · exact ⟨rfl, rfl⟩
  · exact ⟨rfl, rfl⟩

variable {maxAge : UInt64}

lemma simulates_line : Simulates (call (V := V)) (Permits n maxAge) (Holds n maxAge) := by
  rintro q ⟨es, pops⟩ c ⟨hring, hentries, hglobal, rfl, hages⟩
  dsimp only at hentries hglobal hages
  subst hentries
  cases c with
  | push v =>
    cases hp : q.push v with
    | some q' =>
      obtain ⟨-, hglobal', hmax⟩ := paired_push hp
      obtain ⟨hring', hentries'⟩ := ring_push hring hp
      simp only [call, hp]
      refine ⟨_, .push (push_eq_some hring hp), hring', hglobal ▸ hentries',
        hglobal'.trans hglobal, hmax, ?_⟩
      intro hpops p hmem
      rcases List.mem_append.mp hmem with hold | hnew
      · exact hages hpops p hold
      · rw [List.mem_singleton.mp hnew]
        exact Nat.le_of_eq (UInt64.toNat_ofNat_of_lt' hpops)
    | none =>
      simp only [call, hp]
      exact ⟨_, .pushFull (push_eq_none hring hp), hring, rfl, hglobal, rfl, hages⟩
  | pop =>
    cases hp : q.pop with
    | some p =>
      obtain ⟨v, q'⟩ := p
      obtain ⟨-, -, hglobal', hmax⟩ := pop_eq hp
      obtain ⟨hring', a, hentries'⟩ := ring_pop hring hp
      simp only [call, hp]
      rw [hentries'] at hages ⊢
      refine ⟨_, .pop v a _ pops, hring', rfl, ?_, hmax, ?_⟩
      · rw [hglobal', hglobal]
        exact UInt64.ofNat_add pops 1 |>.symm
      · intro hpops p hmem
        exact Nat.le_succ_of_le
          (hages (Nat.lt_of_succ_lt hpops) p (List.mem_cons_of_mem _ hmem))
    | none =>
      have hnil := pop_eq_none hp
      simp only [call, hp]
      refine ⟨⟨[], pops⟩, ?_, hring, hnil, hglobal, rfl, fun _ => nofun⟩
      rw [hnil]
      exact .popEmpty pops
  | shuffle draws =>
    obtain ⟨hperm, hfirst⟩ := entries_shuffle hring.toWellFormed draws
    obtain ⟨hmax, hglobal'⟩ := maxAge_shuffle (q := q) draws
    rw [hglobal] at hfirst
    refine ⟨_, .shuffle hperm hfirst, ring_shuffle hring draws, rfl, hglobal'.trans hglobal, hmax, ?_⟩
    intro hpops p hmem
    exact hages hpops p (hperm.mem_iff.mp hmem)
  | reset => exact ⟨_, .reset _, (ring_reset hring).1, (ring_reset hring).2, rfl, rfl, fun _ => nofun⟩

/-- Whatever is called on a new queue, the ages stay with their values, and a shuffle keeps the pairs
and leaves an old first value where it is. Until there have been `2 ^ 64` pops no age is greater than
`global_age`. -/
theorem results_aged (h : 0 < n) (limit : Option Int) (cs : List (Call V)) :
    let q₀ : AgeStaticQueue V := init n limit
    let q := after call q₀ cs
    ∃ l : Line V, Runs (Permits n q₀.maxAge) ⟨[], 0⟩ cs (results call q₀ cs) l ∧
      q.entries = l.entries ∧ q.globalAge = UInt64.ofNat l.pops ∧
      (l.pops < 2 ^ 64 → ∀ p ∈ q.entries, p.2 ≤ q.globalAge ∧
        (q.globalAge - p.2).toNat = q.globalAge.toNat - p.2.toNat) ∧
      ∀ draws, (q.shuffle draws).entries.Perm q.entries ∧
        ∀ p, q.entries.head? = some p → q₀.maxAge ≤ q.globalAge - p.2 →
          (q.shuffle draws).entries.head? = some p := by
  intro q₀ q
  have hinit : Holds n q₀.maxAge q₀ ⟨[], 0⟩ :=
    ⟨ring_init h limit, rfl, rfl, rfl, fun _ => nofun⟩
  obtain ⟨l, hruns, hring, hentries, hglobal, hmax, hages⟩ := simulates_line.runs hinit cs
  refine ⟨l, hruns, hentries, hglobal, ?_, ?_⟩
  · intro hpops p hmem
    have hle : p.2 ≤ q.globalAge := by
      rw [UInt64.le_iff_toNat_le, hglobal, UInt64.toNat_ofNat_of_lt' hpops]
      exact hages hpops p (hentries ▸ hmem)
    exact ⟨hle, UInt64.toNat_sub_of_le _ _ hle⟩
  · intro draws
    have hshuffle := entries_shuffle hring.toWellFormed draws
    rwa [hmax] at hshuffle

/-- A queue of two slots. -/
theorem results_aged_two :
    let q : AgeStaticQueue Nat := after call (init 2 (some 1)) [.push 3, .pop, .push 4, .push 5]
    ∃ l : Line Nat, q.entries = l.entries ∧ q.globalAge = UInt64.ofNat l.pops := by
  obtain ⟨l, -, hentries, hglobal, -⟩ :=
    results_aged (V := Nat) Nat.two_pos (some 1) [.push 3, .pop, .push 4, .push 5]
  exact ⟨l, hentries, hglobal⟩

/-! ### When the counter wraps around -/

lemma Holds.push {l : Line V} (h : Holds n maxAge q l) (hlen : l.entries.length < n) (v : V) :
    Holds n maxAge (call q (.push v)).2
      { l with entries := l.entries ++ [(v, UInt64.ofNat l.pops)] } := by
  obtain ⟨l', hspec, hholds⟩ := simulates_line q l (.push v) h
  generalize (call q (.push v)).1 = r at hspec
  cases hspec with
  | push _ => exact hholds
  | pushFull hfull => exact absurd hfull (Nat.ne_of_lt hlen)

lemma Holds.pop {age : UInt64} {es : List (V × UInt64)} {pops : Nat}
    (h : Holds n maxAge q ⟨(v, age) :: es, pops⟩) :
    Holds n maxAge (call q .pop).2 ⟨es, pops + 1⟩ := by
  obtain ⟨l', hspec, hholds⟩ := simulates_line q _ .pop h
  generalize (call q .pop).1 = r at hspec
  cases hspec with
  | pop _ _ _ _ => exact hholds

lemma Holds.turns {pops : Nat} (hn : 0 < n) (v : V) (k : Nat) (h : Holds n maxAge q ⟨[], pops⟩) :
    Holds n maxAge (after call q (List.replicate k [Call.push v, .pop]).flatten)
      ⟨[], pops + k⟩ := by
  induction k generalizing q pops with
  | zero => exact h
  | succ k ih =>
    rw [List.replicate_succ, List.flatten_cons, after_append, ← Nat.add_comm 1 k, ← Nat.add_assoc]
    exact ih (h.push hn v).pop

/-- A value that comes before the last pop of the counter's turn is older than `global_age`. -/
lemma entries_wrapped (k : Nat) (hwrap : UInt64.ofNat (k + 1) = 0) (hpos : 0 < UInt64.ofNat k) :
    let cs := (List.replicate k [Call.push 0, .pop]).flatten ++ [.push 0, .push 1, .pop]
    let q : AgeStaticQueue Nat := after call (init 2 none) cs
    q.entries = [(1, UInt64.ofNat k)] ∧ q.globalAge = 0 ∧ ¬ ∀ p ∈ q.entries, p.2 ≤ q.globalAge := by
  intro cs q
  have hinit : Holds 2 defaultMaxAge (init 2 none : AgeStaticQueue Nat) ⟨[], 0⟩ :=
    ⟨ring_init Nat.two_pos none, rfl, rfl, rfl, fun _ => nofun⟩
  have hturns := hinit.turns Nat.two_pos 0 k
  rw [Nat.zero_add] at hturns
  have hlast := ((hturns.push Nat.two_pos 0).push (Nat.lt_succ_self 1) 1).pop
  have hafter : q = after call (after call (init 2 none)
      (List.replicate k [Call.push 0, .pop]).flatten) [.push 0, .push 1, .pop] := after_append
  have hq : Holds 2 defaultMaxAge q ⟨[(1, UInt64.ofNat k)], k + 1⟩ := by
    rw [hafter]
    exact hlast
  have hglobal : q.globalAge = 0 := hq.globalAge.trans hwrap
  refine ⟨hq.entries, hglobal, fun hle => ?_⟩
  rw [hq.entries, hglobal] at hle
  exact absurd hpos (UInt64.not_lt.mpr (hle _ (List.mem_singleton_self _)))

/-- After `2 ^ 64` pops `global_age` is back at 0, and the value that came before the last of them is
older than that. -/
theorem not_ages_le :
    let cs := (List.replicate (2 ^ 64 - 1) [Call.push 0, .pop]).flatten ++
      [.push 0, .push 1, .pop]
    let q : AgeStaticQueue Nat := after call (init 2 none) cs
    q.entries = [(1, UInt64.ofNat (2 ^ 64 - 1))] ∧ q.globalAge = 0 ∧
      ¬ ∀ p ∈ q.entries, p.2 ≤ q.globalAge :=
  entries_wrapped (2 ^ 64 - 1) rfl (by decide)

end AgeStaticQueue

end Verilua
