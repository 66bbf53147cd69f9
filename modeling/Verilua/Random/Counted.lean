import Mathlib.Data.List.TakeDrop

/-!
# Calls that are counted

`utils.execute_after` calls a function at some of the calls of another one. `CounterDelayer` fires
and then lets a number of calls pass that is drawn.
-/

namespace Verilua

namespace ExecuteAfter

structure Options where
  repeats : Bool
  times : Option Int

/-- The function that `execute_after` returns, with its upvalues. -/
structure Closure where
  targetCount : Int
  repeats : Bool
  times : Option Int
  count : Int
  finish : Bool
  timesCount : Int

def executeAfter (count : Int) (options : Option Options) : Closure where
  targetCount := count
  repeats := (options.map (·.repeats)).getD false
  times := options.bind (·.times)
  count := 0
  finish := false
  timesCount := 0

/-- Whether a call is one of `func`, which comes last: calls that are made in it are counted next. -/
def Closure.call (c : Closure) : Bool × Closure :=
  if c.repeats then
    if c.count + 1 ≥ c.targetCount then (true, { c with count := 0 })
    else (false, { c with count := c.count + 1 })
  else
    match c.times with
    | some times =>
      if times ≤ 0 ∨ c.finish then (false, c)
      else if c.count + 1 ≥ c.targetCount then
        (true, { c with
          count := 0, timesCount := c.timesCount + 1, finish := c.timesCount + 1 ≥ times })
      else (false, { c with count := c.count + 1 })
    | none =>
      if c.finish then (false, c)
      else if c.count + 1 ≥ c.targetCount then
        (true, { c with count := c.count + 1, finish := true })
      else (false, { c with count := c.count + 1 })

def Closure.calls : Nat → Closure → List Bool
  | 0, _ => []
  | n + 1, c => c.call.1 :: c.call.2.calls n

variable {c : Closure} {k n : Nat}

def Closure.period (c : Closure) : Nat := max 1 c.targetCount.toNat

/-- How often `func` may be called, unless it is called again and again. -/
def Closure.limit (c : Closure) : Int := c.times.getD 1

/-- Whether call number `k` is one of `func`. -/
def Closure.Due (c : Closure) (k : Nat) : Prop :=
  c.period ∣ k ∧ (c.repeats ∨ ((k / c.period : Nat) : Int) ≤ c.limit)

/-- Call number `k` is the last one. While `func` is still to be called, the calls are counted. -/
structure Closure.After (c : Closure) (k : Nat) : Prop where
  finish : c.repeats = false → 0 < c.limit → (c.finish ↔ c.limit ≤ (k / c.period : Nat))
  count : c.repeats ∨ ((k / c.period : Nat) : Int) < c.limit → c.count = (k % c.period : Nat)
  timesCount : c.repeats = false → ((k / c.period : Nat) : Int) < c.limit → c.times.isSome →
    c.timesCount = (k / c.period : Nat)

lemma Closure.period_pos (c : Closure) : 0 < c.period :=
  Nat.lt_of_lt_of_le Nat.one_pos (Nat.le_max_left ..)

lemma turn {p : Nat} (hp : 0 < p) (k : Nat) :
    (p ∣ k + 1 ∧ (k + 1) / p = k / p + 1 ∧ (k + 1) % p = 0 ∧ k % p + 1 = p) ∨
      (¬ p ∣ k + 1 ∧ (k + 1) / p = k / p ∧ (k + 1) % p = k % p + 1 ∧ k % p + 1 < p) := by
  have hmod := Nat.mod_lt k hp
  have hdiv := Nat.succ_div (a := k) (b := p)
  by_cases h : p ∣ k + 1
  · rw [if_pos h] at hdiv
    have hzero : (k + 1) % p = 0 := Nat.mod_eq_zero_of_dvd h
    have hk := Nat.div_add_mod k p
    have hsucc := Nat.div_add_mod (k + 1) p
    rw [hdiv, hzero, Nat.mul_add] at hsucc
    exact .inl ⟨h, hdiv, hzero, by omega⟩
  · simp only [if_neg h, Nat.add_zero] at hdiv
    have hk := Nat.div_add_mod k p
    have hsucc := Nat.div_add_mod (k + 1) p
    have hlt := Nat.mod_lt (k + 1) hp
    rw [hdiv] at hsucc
    exact .inr ⟨h, hdiv, by omega, by omega⟩

lemma Closure.static (c : Closure) : c.call.2.period = c.period ∧ c.call.2.limit = c.limit ∧
    c.call.2.repeats = c.repeats ∧ c.call.2.times = c.times := by
  unfold Closure.call Closure.period Closure.limit
  grind

lemma Closure.Due.congr {c' : Closure} (hperiod : c'.period = c.period) (hlimit : c'.limit = c.limit)
    (hrepeats : c'.repeats = c.repeats) : c'.Due k ↔ c.Due k := by
  rw [Closure.Due, Closure.Due, hperiod, hlimit, hrepeats]

lemma Closure.After.call (h : c.After k) :
    c.call.2.After (k + 1) ∧ (c.call.1 ↔ c.Due (k + 1)) := by
  have hreach : c.count = (k % c.period : Nat) →
      (c.count + 1 ≥ c.targetCount ↔ k % c.period + 1 ≥ c.period) := by
    intro hcount
    have hperiod : c.period = max 1 c.targetCount.toNat := rfl
    omega
  have hturn := turn c.period_pos k
  obtain ⟨hperiod, hlimit, hrepeats, htimes⟩ := c.static
  obtain ⟨hfinish, hcount, htimesCount⟩ := h
  rw [Closure.Due]
  cases hmode : c.repeats with
  | true =>
    have hcount := hcount (.inl hmode)
    refine ⟨⟨?_, ?_, ?_⟩, ?_⟩ <;> rw [Closure.call, if_pos hmode] at * <;> grind
  | false =>
    cases hopt : c.times with
    | none =>
      have hone : c.limit = 1 := by simp [Closure.limit, hopt]
      refine ⟨⟨?_, ?_, ?_⟩, ?_⟩ <;> simp only [Closure.call, hmode, hopt] at * <;> grind
    | some times =>
      have hsome : c.limit = times := by simp [Closure.limit, hopt]
      refine ⟨⟨?_, ?_, ?_⟩, ?_⟩ <;> simp only [Closure.call, hmode, hopt] at * <;> grind

lemma Closure.After.calls (h : c.After k) {i : Nat} (hi : i < n) :
    (c.calls n)[i]? = some true ↔ c.Due (k + i + 1) := by
  induction n generalizing c k i with
  | zero => cases hi
  | succ n ih =>
    obtain ⟨hafter, hcall⟩ := h.call
    cases i with
    | zero => simp [Closure.calls, hcall]
    | succ i =>
      obtain ⟨hperiod, hlimit, hrepeats, -⟩ := c.static
      have hrest := ih hafter (Nat.lt_of_succ_lt_succ hi)
      rw [Closure.Due.congr hperiod hlimit hrepeats] at hrest
      rw [Closure.calls, List.getElem?_cons_succ, hrest, Nat.add_assoc k 1 i, Nat.add_comm 1 i]

/-- Which of `n` calls call `func`: every one whose number, from 1, is a multiple of `count`, with
`times` only the first ones of these, and without options the first one. -/
theorem calls_executeAfter (count : Int) (options : Option Options) (n : Nat) :
    ∀ i < n, ((executeAfter count options).calls n)[i]? = some true ↔
      max 1 count.toNat ∣ i + 1 ∧ ((options.map (·.repeats)).getD false ∨
        (((i + 1) / max 1 count.toNat : Nat) : Int) ≤ (options.bind (·.times)).getD 1) := by
  have hstart : (executeAfter count options).After 0 := by
    refine ⟨fun _ hlimit => ?_, fun _ => ?_, fun _ _ _ => ?_⟩ <;> simp [executeAfter]
    exact hlimit
  intro i hi
  rw [hstart.calls hi, Nat.zero_add]
  rfl

theorem calls_executeAfter_three_twice :
    ((executeAfter 3 (some ⟨false, some 2⟩)).calls 10)[5]? = some true ↔
      3 ∣ 6 ∧ (false = true ∨ ((2 : Nat) : Int) ≤ 2) :=
  calls_executeAfter 3 (some ⟨false, some 2⟩) 10 5 (by decide)

end ExecuteAfter

structure CounterDelayer where
  minDelay : Int
  maxDelay : Int
  cnt : Int

namespace CounterDelayer

/-- `_init`: `none` where the assertion fails. -/
def init (minDelay maxDelay : Int) : Option CounterDelayer :=
  if maxDelay ≥ minDelay then some ⟨minDelay, maxDelay, 0⟩ else none

/-- `fire`, where `random` returns `draw`; `none` where the assertion fails. -/
def fire (draw : Int → Int → Int) (d : CounterDelayer) : Option (Bool × CounterDelayer) :=
  if d.cnt = 0 then some (true, { d with cnt := draw d.minDelay d.maxDelay })
  else if d.cnt > 0 then some (false, { d with cnt := d.cnt - 1 })
  else none

/-- `n` calls of `fire`, where `random` has been called `k` times. -/
def fires (draw : Nat → Int → Int → Int) : Nat → Nat → CounterDelayer → Option (List Bool)
  | _, 0, _ => some []
  | k, n + 1, d => do
    let (fired, d') ← fire (draw k) d
    let rest ← fires draw (if fired then k + 1 else k) n d'
    some (fired :: rest)

variable {draw : Nat → Int → Int → Int} {d : CounterDelayer} {minDelay maxDelay : Int}

/-- A call that fires and those that wait after it. -/
def turn (delay : Int) : List Bool := true :: List.replicate delay.toNat false

lemma fires_eq (hdraw : ∀ k, 0 ≤ draw k d.minDelay d.maxDelay) (hcnt : 0 ≤ d.cnt) {n m : Nat}
    (hm : n ≤ m) (k : Nat) : fires draw k n d = some ((List.replicate d.cnt.toNat false ++
      (List.range m).flatMap fun j => turn (draw (k + j) d.minDelay d.maxDelay)).take n) := by
  induction n generalizing d k m with
  | zero => rfl
  | succ n ih =>
    rw [fires, fire]
    by_cases hzero : d.cnt = 0
    · obtain ⟨m, rfl⟩ : ∃ m', m = m' + 1 := ⟨m - 1, by omega⟩
      have hrest := ih (d := { d with cnt := draw k d.minDelay d.maxDelay }) hdraw (hdraw k)
        (Nat.le_of_succ_le_succ hm) (k + 1)
      simp [hzero, hrest, List.range_succ_eq_map, List.flatMap_map, turn, Nat.add_assoc,
        Nat.add_comm 1]
    · have hrest := ih (d := { d with cnt := d.cnt - 1 }) hdraw (by simp; omega)
        (Nat.le_of_succ_le hm) k
      obtain ⟨c, hc⟩ : ∃ c, d.cnt.toNat = c + 1 := ⟨d.cnt.toNat - 1, by omega⟩
      have hpos : d.cnt > 0 := by omega
      have hpred : (d.cnt - 1).toNat = c := by omega
      simp [hzero, hpos, hrest, hc, hpred, List.replicate_succ]

/-- If the delays are drawn from a range without negative numbers, no call raises, and each call
that fires is followed by as many that do not as were drawn, between `minDelay` and `maxDelay`. -/
theorem fires_init (hinit : init minDelay maxDelay = some d) (hmin : 0 ≤ minDelay)
    (hdraw : ∀ k, minDelay ≤ draw k minDelay maxDelay ∧ draw k minDelay maxDelay ≤ maxDelay)
    (n : Nat) : fires draw 0 n d = some
      (((List.range n).flatMap fun k => turn (draw k minDelay maxDelay)).take n) := by
  unfold init at hinit
  split_ifs at hinit
  obtain rfl := Option.some.inj hinit
  have hrun : fires draw 0 n ⟨minDelay, maxDelay, 0⟩ = _ :=
    fires_eq (fun k => Int.le_trans hmin (hdraw k).1) (Int.le_refl 0) (Nat.le_refl n) 0
  simpa using hrun

theorem fires_init_two_to_five : fires (fun _ minDelay _ => minDelay) 0 4 ⟨2, 5, 0⟩ =
    some [true, false, false, true] :=
  fires_init (rfl : init 2 5 = _) (by decide) (fun _ => by decide) 4

end CounterDelayer

end Verilua
