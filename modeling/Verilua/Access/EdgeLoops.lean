import Verilua.Access.Basic

/-!
# Loops over the edges of a signal

`posedge(n, f)` and its siblings alternate calls of a function with waits for an edge. The calls and
the waits are actions of any monad, so that a function may do what it likes.
-/

namespace Verilua.Access

open Put

/-- `await_posedge_hdl` and `await_negedge_hdl`. -/
structure EdgeAwaits (m : Type → Type) where
  awaitPosedgeHdl : ComplexHandleRaw → m Unit
  awaitNegedgeHdl : ComplexHandleRaw → m Unit

section

variable {m : Type → Type} [Monad m]

/-- The body of `posedge` and `negedge`. -/
def edges (await : m Unit) (times : Option Nat) (func : Option (Nat → m Unit)) : m Unit :=
  if times.getD 1 = 1 then await
  else (List.range' 1 (times.getD 1)).forM fun i => do
    if let some f := func then f i
    await

/-- The loop of `posedge_until` and `negedge_until`, with the value of `condition_meet`. -/
def untilLoop (await : m Unit) (maxLimit : Nat) (func : Nat → m Bool) : List Nat → Bool → m Bool
  | [], conditionMeet => pure conditionMeet
  | i :: is, _ => do
    let conditionMeet ← func i
    if conditionMeet then pure conditionMeet
    else do
      if i < maxLimit then await
      untilLoop await maxLimit func is conditionMeet

def edgesUntil (await : m Unit) (maxLimit : Nat) (func : Nat → m Bool) : Option (m Bool) :=
  if 1 ≤ maxLimit then some (untilLoop await maxLimit func (List.range' 1 maxLimit) false)
  else none

namespace Chdl

variable (w : EdgeAwaits m) (this : Chdl)

def posedge (times : Option Nat) (func : Option (Nat → m Unit)) : Option (m Unit) :=
  if this.width = 1 then some (edges (w.awaitPosedgeHdl this.hdl) times func) else none

def negedge (times : Option Nat) (func : Option (Nat → m Unit)) : Option (m Unit) :=
  if this.width = 1 then some (edges (w.awaitNegedgeHdl this.hdl) times func) else none

def posedgeUntil (maxLimit : Nat) (func : Nat → m Bool) : Option (m Bool) :=
  if this.width = 1 then edgesUntil (w.awaitPosedgeHdl this.hdl) maxLimit func else none

def negedgeUntil (maxLimit : Nat) (func : Nat → m Bool) : Option (m Bool) :=
  if this.width = 1 then edgesUntil (w.awaitNegedgeHdl this.hdl) maxLimit func else none

end Chdl

/-! ### What the loops are for -/

/-- The function is called with `1` to `n` in order, and every call is followed by a wait. -/
def callEach (await : m Unit) (n : Nat) (f : Nat → m Unit) : m Unit :=
  (List.range' 1 n).forM fun i => do
    f i
    await

/-- The first trial that succeeds, and the last one if none does. -/
def lastTrial (p : Nat → Bool) (maxLimit : Nat) : Nat :=
  ((List.range' 1 maxLimit).find? p).getD maxLimit

/-- The calls up to the last trial, with a wait between two calls. -/
def tryEach (await : m Unit) (maxLimit : Nat) (call : Nat → m Unit) (p : Nat → Bool) : m Bool := do
  callEach await (lastTrial p maxLimit - 1) call
  call (lastTrial p maxLimit)
  pure (p (lastTrial p maxLimit))

end

/-- The loops of a signal do what they are for, with `n` edges and with `limit` trials. -/
structure CountsRight (this : Chdl) (n limit : Nat) : Prop where
  posedge : ∀ (m : Type → Type) [Monad m] [LawfulMonad m] (w : EdgeAwaits m) (f : Nat → m Unit),
    this.posedge w (some n) (some f) = some (callEach (w.awaitPosedgeHdl this.hdl) n f)
  negedge : ∀ (m : Type → Type) [Monad m] [LawfulMonad m] (w : EdgeAwaits m) (f : Nat → m Unit),
    this.negedge w (some n) (some f) = some (callEach (w.awaitNegedgeHdl this.hdl) n f)
  posedgeUntil : ∀ (m : Type → Type) [Monad m] [LawfulMonad m] (w : EdgeAwaits m)
    (call : Nat → m Unit) (p : Nat → Bool),
    this.posedgeUntil w limit (fun i => do call i; pure (p i)) =
      some (tryEach (w.awaitPosedgeHdl this.hdl) limit call p)
  negedgeUntil : ∀ (m : Type → Type) [Monad m] [LawfulMonad m] (w : EdgeAwaits m)
    (call : Nat → m Unit) (p : Nat → Bool),
    this.negedgeUntil w limit (fun i => do call i; pure (p i)) =
      some (tryEach (w.awaitNegedgeHdl this.hdl) limit call p)

/-! ### The loops -/

lemma lastTrial_spec (p : Nat → Bool) {maxLimit : Nat} (h : 1 ≤ maxLimit) :
    1 ≤ lastTrial p maxLimit ∧ lastTrial p maxLimit ≤ maxLimit ∧
      (∀ i, 1 ≤ i → i < lastTrial p maxLimit → p i = false) ∧
      (p (lastTrial p maxLimit) = true ∨ lastTrial p maxLimit = maxLimit) := by
  rw [lastTrial]
  cases hfind : (List.range' 1 maxLimit).find? p with
  | none =>
    refine ⟨h, le_refl _, fun i hi hlt => ?_, .inr rfl⟩
    have hmem : i ∈ List.range' 1 maxLimit :=
      List.mem_range'_1.mpr ⟨hi, hlt.trans_le (Nat.le_add_left _ _)⟩
    simpa using List.find?_eq_none.mp hfind i hmem
  | some k =>
    obtain ⟨hp, hmem, hbefore⟩ := List.find?_range'_eq_some.mp hfind
    obtain ⟨hk, hlt⟩ := List.mem_range'_1.mp hmem
    refine ⟨hk, by simp only [Option.getD_some]; omega, fun i hi hlt => ?_, .inl hp⟩
    simpa using hbefore i hi hlt

section

variable {m : Type → Type} [Monad m] {await : m Unit}

lemma edges_of_ne_one {n : Nat} (hn : n ≠ 1) (f : Nat → m Unit) :
    edges await (some n) (some f) = callEach await n f := by
  rw [edges, Option.getD_some, if_neg hn]
  rfl

variable [LawfulMonad m]

/-- The loop from the trial `i` on, with `left` trials after it, ends with the trial `k`. -/
lemma untilLoop_range' {p : Nat → Bool} {i left k : Nat} (call : Nat → m Unit) (b : Bool)
    (hik : i ≤ k) (hk : k ≤ i + left) (hbefore : ∀ j, i ≤ j → j < k → p j = false)
    (hlast : p k = true ∨ k = i + left) :
    untilLoop await (i + left) (fun i => do call i; pure (p i)) (List.range' i (left + 1)) b =
      (do
        (List.range' i (k - i)).forM (fun i => do call i; await)
        call k
        pure (p k)) := by
  induction left generalizing i b with
  | zero =>
    obtain rfl : k = i := by omega
    cases hp : p k <;> simp [untilLoop, hp]
  | succ left ih =>
    rw [List.range'_succ, untilLoop]
    cases hp : p i with
    | true =>
      have hki : k = i := by
        by_contra hne
        rw [hbefore i (le_refl i) (by omega)] at hp
        cases hp
      subst hki
      simp [hp]
    | false =>
      have hlt : i < k := by
        rcases hlast with hlast | hlast
        · rcases hik.lt_or_eq with hlt | rfl
          · exact hlt
          · rw [hp] at hlast
            cases hlast
        · omega
      have hrest := ih (i := i + 1) false hlt (by omega)
        (fun j hj hjk => hbefore j (by omega) hjk) (hlast.imp id fun h => by omega)
      have hlen : i + 1 + left = i + (left + 1) := by omega
      have hsplit : List.range' i (k - i) = i :: List.range' (i + 1) (k - (i + 1)) := by
        rw [← List.range'_succ]
        congr 1
        omega
      rw [hlen] at hrest
      have hmore : i < i + (left + 1) := by omega
      simp only [hsplit, List.forM_eq_forM, List.forM_cons, bind_assoc, pure_bind,
        Bool.false_eq_true, if_false, if_pos hmore, hrest]

lemma edgesUntil_eq {maxLimit : Nat} (h : 1 ≤ maxLimit) (call : Nat → m Unit) (p : Nat → Bool) :
    edgesUntil await maxLimit (fun i => do call i; pure (p i)) =
      some (tryEach await maxLimit call p) := by
  obtain ⟨hone, hle, hbefore, hlast⟩ := lastTrial_spec p h
  obtain ⟨left, rfl⟩ : ∃ left, maxLimit = 1 + left := ⟨maxLimit - 1, by omega⟩
  rw [edgesUntil, if_pos h, tryEach, callEach, Nat.add_comm 1 left, Nat.add_comm left 1,
    ← untilLoop_range' call false hone hle hbefore hlast, Nat.add_comm 1 left]

end

/-! ### A single edge -/

/-- What is seen of a loop: the calls and the waits. -/
inductive Event
  | call (i : Nat)
  | await (hdl : ComplexHandleRaw)
  deriving DecidableEq

/-- Waits that are only noted. -/
def noted : EdgeAwaits (StateM (List Event)) where
  awaitPosedgeHdl hdl := modify (· ++ [.await hdl])
  awaitNegedgeHdl hdl := modify (· ++ [.await hdl])

lemma posedge_one_ne (this : Chdl) (hwidth : this.width = 1) :
    this.posedge noted (some 1) (some fun i => modify (· ++ [.call i])) ≠
      some (callEach (noted.awaitPosedgeHdl this.hdl) 1 fun i => modify (· ++ [.call i])) := by
  rw [Chdl.posedge, if_pos hwidth]
  intro h
  have hlog := congrArg (fun run => (Id.run (run.run [])).2) (Option.some.inj h)
  revert hlog
  simp [edges, callEach, noted]

/-- The loops do what they are for with any number of edges but one. -/
theorem countsRight_iff {this : Chdl} (hwidth : this.width = 1) {n limit : Nat} (hn : 1 ≤ n)
    (hlimit : 1 ≤ limit) : CountsRight this n limit ↔ n ≠ 1 := by
  constructor
  · rintro h rfl
    exact posedge_one_ne this hwidth (h.posedge (StateM (List Event)) noted _)
  · intro hne
    constructor
    · intro m _ _ w f
      rw [Chdl.posedge, if_pos hwidth, edges_of_ne_one hne]
    · intro m _ _ w f
      rw [Chdl.negedge, if_pos hwidth, edges_of_ne_one hne]
    · intro m _ _ w call p
      rw [Chdl.posedgeUntil, if_pos hwidth, edgesUntil_eq hlimit]
    · intro m _ _ w call p
      rw [Chdl.negedgeUntil, if_pos hwidth, edgesUntil_eq hlimit]

/-- A clock. -/
def clock : Chdl := ⟨7, 1, false, [], [], none, fun _ => none⟩

theorem countsRight_clock : CountsRight clock 2 3 :=
  (countsRight_iff rfl (by decide) (by decide)).mpr (by decide)

theorem not_countsRight :
    ¬ ∀ (this : Chdl) (n limit : Nat), this.width = 1 → 1 ≤ n → 1 ≤ limit →
      CountsRight this n limit := by
  intro h
  have hone := h clock 1 1 rfl (le_refl 1) (le_refl 1)
  exact posedge_one_ne clock rfl (hone.posedge (StateM (List Event)) noted _)

end Verilua.Access
