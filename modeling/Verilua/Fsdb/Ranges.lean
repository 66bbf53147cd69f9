import Mathlib.Data.List.DropRight
import Verilua.Fsdb.Scopes

/-!
# The ranges in the names of variables

`fsdbTreeCb` erases the ranges of a name in a loop that looks for both brackets from the start of
the text. `normalizeFsdbSignalName` looks for the closing bracket behind the opening one. Both agree
on what they erase, but the loop of `fsdbTreeCb` does not pass a closing bracket that closes nothing.
-/

namespace Verilua.Fsdb

/-! ### The loops of `fsdbTreeCb` -/

/-- A round, or `none` where one of the brackets is not found. -/
def rangeRound (varDataName : List Char) : Option (List Char) :=
  if '[' ∈ varDataName ∧ ']' ∈ varDataName then
    let first := varDataName.idxOf '['
    let last := varDataName.idxOf ']'
    some (if last > first then varDataName.take first ++ varDataName.drop (last + 1)
      else varDataName)
  else none

/-- `none` where the loop has not ended within so many rounds. -/
def rangeLoop : Nat → List Char → Option (List Char)
  | 0, _ => none
  | fuel + 1, varDataName =>
    match rangeRound varDataName with
    | none => some varDataName
    | some next => rangeLoop fuel next

def fullNameOf (scopes : List (List Char)) (varDataName : List Char) : List Char :=
  scopes.flatMap (· ++ ['.']) ++ varDataName

/-- The names that `fsdbTreeCb` makes for a variable which is not the wanted one: `varDataName`, and
`insertKeyStr`, under which the id code is stored. -/
def treeNames (fuel : Nat) (scopes : List (List Char)) (name : List Char) :
    Option (List Char × List Char) := do
  let varDataName ← rangeLoop fuel name
  let insertKeyStr ← rangeLoop fuel (fullNameOf scopes varDataName)
  return (varDataName, insertKeyStr)

/-! ### Closing brackets that close nothing -/

/-- No range is open at the end of the text. -/
def Closed (before : List Char) : Prop := '[' ∉ before.rtakeWhile (· ≠ ']')

/-- A closing bracket that closes nothing stands in front of an opening one. -/
def Trapped (text : List Char) : Prop :=
  ∃ before after, text = before ++ ']' :: after ∧ Closed before ∧ '[' ∈ after

/-- The text without its ranges. A bracket without a partner stays. -/
inductive Cleared : List Char → List Char → Prop
  | plain {text : List Char} (lone : '[' ∉ text ∨ ']' ∉ text) : Cleared text text
  | range {front inner rest key : List Char} (front_first : '[' ∉ front) (front_last : ']' ∉ front)
      (inner_last : ']' ∉ inner) (cleared : Cleared rest key) :
      Cleared (front ++ '[' :: (inner ++ ']' :: rest)) (front ++ key)

variable {text key front inner rest before after : List Char}

lemma rtakeWhile_append_last (before after : List Char) :
    (before ++ ']' :: after).rtakeWhile (· ≠ ']') = after.rtakeWhile (· ≠ ']') := by
  induction after using List.reverseRecOn with
  | nil =>
    rw [List.rtakeWhile_concat_neg _ _ _ (by simp)]
    simp
  | append_singleton after c ih =>
    have shift : before ++ ']' :: (after ++ [c]) = before ++ ']' :: after ++ [c] := by simp
    rw [shift]
    by_cases hc : c = ']'
    · rw [List.rtakeWhile_concat_neg _ _ _ (by simp [hc]),
        List.rtakeWhile_concat_neg _ _ _ (by simp [hc])]
    · rw [List.rtakeWhile_concat_pos _ _ _ (by simp [hc]),
        List.rtakeWhile_concat_pos _ _ _ (by simp [hc]), ih]

lemma rtakeWhile_of_no_last (h : ']' ∉ before) : before.rtakeWhile (· ≠ ']') = before := by
  rw [List.rtakeWhile_eq_self_iff]
  intro c hc
  simpa using ne_of_mem_of_not_mem hc h

lemma mem_of_mem_rtakeWhile {c : Char} (h : c ∈ before.rtakeWhile (· ≠ ']')) : c ∈ before :=
  (List.rtakeWhile_suffix _ _).subset h

lemma closed_append_last : Closed (before ++ ']' :: after) ↔ Closed after := by
  simp only [Closed, rtakeWhile_append_last]

lemma closed_of_no_first (h : '[' ∉ before) : Closed before :=
  fun opened => h (mem_of_mem_rtakeWhile opened)

lemma not_closed (h : ']' ∉ inner) : ¬ Closed (front ++ '[' :: inner) := by
  have all : ∀ c ∈ ('[' :: inner).reverse, decide (c ≠ ']') = true := by
    intro c hc
    rw [List.mem_reverse, List.mem_cons] at hc
    rcases hc with rfl | hc
    · decide
    · simpa using ne_of_mem_of_not_mem hc h
  simp only [Closed, List.rtakeWhile, List.reverse_append, List.takeWhile_append_of_pos all]
  simp

/-! ### Rounds -/

lemma rangeRound_plain (lone : '[' ∉ text ∨ ']' ∉ text) : rangeRound text = none := by
  simp only [rangeRound, ite_eq_right_iff, reduceCtorEq, imp_false]
  tauto

lemma rangeRound_append (front_first : '[' ∉ front) (front_last : ']' ∉ front) (text : List Char) :
    rangeRound (front ++ text) = (rangeRound text).map (front ++ ·) := by
  simp only [rangeRound, List.mem_append, front_first, front_last, false_or,
    List.idxOf_append_of_notMem front_first, List.idxOf_append_of_notMem front_last]
  by_cases both : '[' ∈ text ∧ ']' ∈ text
  · rw [if_pos both, if_pos both, Option.map_some]
    by_cases inOrder : text.idxOf ']' > text.idxOf '['
    · rw [if_pos (by omega), if_pos inOrder, Nat.add_assoc, List.take_length_add_append,
        List.drop_length_add_append, List.append_assoc]
    · rw [if_neg (by omega), if_neg inOrder]
  · rw [if_neg both, if_neg both, Option.map_none]

lemma rangeLoop_append (front_first : '[' ∉ front) (front_last : ']' ∉ front) (fuel : Nat)
    (text : List Char) :
    rangeLoop fuel (front ++ text) = (rangeLoop fuel text).map (front ++ ·) := by
  induction fuel generalizing text with
  | zero => rfl
  | succ fuel ih =>
    simp only [rangeLoop, rangeRound_append front_first front_last]
    cases rangeRound text with
    | none => rfl
    | some next => exact ih next

lemma idxOf_last (inner_last : ']' ∉ inner) :
    ('[' :: (inner ++ ']' :: rest)).idxOf ']' = inner.length + 1 := by
  rw [List.idxOf_cons_ne _ (by decide), List.idxOf_append_of_notMem inner_last,
    List.idxOf_cons_self, Nat.add_zero]

lemma rangeRound_range (inner_last : ']' ∉ inner) :
    rangeRound ('[' :: (inner ++ ']' :: rest)) = some rest := by
  simp [rangeRound, idxOf_last inner_last]

lemma rangeRound_trapped (front_first : '[' ∉ front) (front_last : ']' ∈ front) :
    rangeRound (front ++ '[' :: rest) = some (front ++ '[' :: rest) := by
  have late : ¬ (front ++ '[' :: rest).idxOf ']' > (front ++ '[' :: rest).idxOf '[' := by
    have := List.idxOf_lt_length_of_mem front_last
    rw [List.idxOf_append_of_mem front_last, List.idxOf_append_of_notMem front_first]
    omega
  simp [rangeRound, front_last, late]

lemma rangeLoop_trapped (front_first : '[' ∉ front) (front_last : ']' ∈ front) (fuel : Nat) :
    rangeLoop fuel (front ++ '[' :: rest) = none := by
  induction fuel with
  | zero => rfl
  | succ fuel ih => simp only [rangeLoop, rangeRound_trapped front_first front_last, ih]

lemma rangeLoop_mono {fuel fuel' : Nat} (h : rangeLoop fuel text = some key) (le : fuel ≤ fuel') :
    rangeLoop fuel' text = some key := by
  induction fuel generalizing text fuel' with
  | zero => cases h
  | succ fuel ih =>
    cases fuel' with
    | zero => simp at le
    | succ fuel' =>
      simp only [rangeLoop] at h ⊢
      cases hr : rangeRound text with
      | none => simpa only [hr] using h
      | some next =>
        simp only [hr] at h
        exact ih h (Nat.le_of_succ_le_succ le)

/-! ### The cleared text -/

/-- The text is read from range to range. -/
inductive Shape : List Char → Prop
  | plain {text : List Char} (lone : '[' ∉ text ∨ ']' ∉ text) : Shape text
  | range {front inner rest : List Char} (front_first : '[' ∉ front) (front_last : ']' ∉ front)
      (inner_last : ']' ∉ inner) : Shape (front ++ '[' :: (inner ++ ']' :: rest))
  | trapped {front rest : List Char} (front_first : '[' ∉ front) (front_last : ']' ∈ front) :
      Shape (front ++ '[' :: rest)

lemma shape (text : List Char) : Shape text := by
  by_cases lone : '[' ∉ text ∨ ']' ∉ text
  · exact .plain lone
  push Not at lone
  obtain ⟨front, tail, rfl, front_first⟩ := List.eq_append_cons_of_mem lone.1
  by_cases front_last : ']' ∈ front
  · exact .trapped front_first front_last
  have tail_last : ']' ∈ tail := by simpa [front_last] using lone.2
  obtain ⟨inner, rest, rfl, inner_last⟩ := List.eq_append_cons_of_mem tail_last
  exact .range front_first front_last inner_last

lemma rangeLoop_of_cleared (h : Cleared text key) : ∃ fuel, rangeLoop fuel text = some key := by
  induction h with
  | plain lone => exact ⟨1, by simp only [rangeLoop, rangeRound_plain lone]⟩
  | range front_first front_last inner_last _ ih =>
    obtain ⟨fuel, ih⟩ := ih
    refine ⟨fuel + 1, ?_⟩
    rw [rangeLoop_append front_first front_last, rangeLoop]
    simp only [rangeRound_range inner_last, ih, Option.map_some]

lemma cleared_of_rangeLoop {fuel : Nat} (h : rangeLoop fuel text = some key) :
    Cleared text key := by
  induction fuel generalizing text key with
  | zero => cases h
  | succ fuel ih =>
    cases shape text with
    | plain lone =>
      simp only [rangeLoop, rangeRound_plain lone, Option.some.injEq] at h
      exact h ▸ .plain lone
    | trapped front_first front_last =>
      rw [rangeLoop_trapped front_first front_last] at h
      cases h
    | range front_first front_last inner_last =>
      rw [rangeLoop_append front_first front_last, Option.map_eq_some_iff] at h
      obtain ⟨key, h, rfl⟩ := h
      simp only [rangeLoop, rangeRound_range inner_last] at h
      exact .range front_first front_last inner_last (ih h)

lemma not_trapped_of_cleared (h : Cleared text key) : ¬ Trapped text := by
  induction h with
  | plain lone =>
    rintro ⟨before, after, rfl, -, opened⟩
    simp [opened] at lone
  | @range front inner rest key front_first front_last inner_last _ ih =>
    rintro ⟨before, after, split, closed, opened⟩
    -- The closing bracket is that of the range, or it is behind it.
    have split' : (front ++ '[' :: inner) ++ ']' :: rest = before ++ ']' :: after := by
      simpa using split
    have clean : ']' ∉ front ++ '[' :: inner := by simp [front_last, inner_last]
    rcases List.append_eq_append_iff.mp split' with ⟨a, rfl, ha⟩ | ⟨a, ha, h⟩
    · cases a with
      | nil => exact not_closed inner_last (by simpa using closed)
      | cons c a =>
        obtain ⟨rfl, rfl⟩ := List.cons.inj ha
        exact ih ⟨a, after, rfl, closed_append_last.mp closed, opened⟩
    · cases a with
      | nil =>
        rw [List.append_nil] at ha
        exact not_closed inner_last (ha ▸ closed)
      | cons c a =>
        obtain ⟨rfl, -⟩ := List.cons.inj h
        simp [ha] at clean

lemma exists_cleared (h : ¬ Trapped text) : ∃ key, Cleared text key := by
  induction hn : text.length using Nat.strongRecOn generalizing text with
  | ind n ih =>
    cases shape text with
    | plain lone => exact ⟨text, .plain lone⟩
    | @trapped front rest front_first front_last =>
      obtain ⟨before, after, rfl⟩ := List.append_of_mem front_last
      refine absurd ⟨before, after ++ '[' :: rest, by simp, ?_, by simp⟩ h
      exact closed_of_no_first fun opened => front_first (by simp [opened])
    | @range front inner rest front_first front_last inner_last =>
      have rest_free : ¬ Trapped rest := by
        rintro ⟨before, after, rfl, closed, opened⟩
        refine h ⟨front ++ '[' :: inner ++ ']' :: before, after, by simp, ?_, opened⟩
        exact closed_append_last.mpr closed
      obtain ⟨key, cleared⟩ := ih rest.length (by simp at hn; omega) rest_free rfl
      exact ⟨front ++ key, .range front_first front_last inner_last cleared⟩

lemma eraseFsdbRanges_of_cleared {fuel : Nat} (h : Cleared text key) (enough : text.length ≤ fuel) :
    eraseFsdbRanges fuel text = key := by
  induction h generalizing fuel with
  | @plain text lone =>
    cases fuel with
    | zero => rfl
    | succ fuel =>
      have none_left : (text.dropWhile (· ≠ '[')).dropWhile (· ≠ ']') = [] := by
        rw [List.dropWhile_eq_nil_iff]
        intro c hc
        rcases lone with lone | lone
        · rw [List.dropWhile_eq_nil_iff.mpr] at hc
          · cases hc
          · intro c hc
            simpa using ne_of_mem_of_not_mem hc lone
        · simpa using ne_of_mem_of_not_mem ((List.dropWhile_suffix _).subset hc) lone
      simp only [eraseFsdbRanges, none_left]
  | @range front inner rest key front_first front_last inner_last _ ih =>
    have front_pass : ∀ c ∈ front, decide (c ≠ '[') = true :=
      fun c hc => by simpa using ne_of_mem_of_not_mem hc front_first
    have inner_pass : ∀ c ∈ '[' :: inner, decide (c ≠ ']') = true := by
      intro c hc
      rcases List.mem_cons.mp hc with rfl | hc
      · decide
      · simpa using ne_of_mem_of_not_mem hc inner_last
    cases fuel with
    | zero => simp at enough
    | succ fuel =>
      have at_last : ((front ++ '[' :: (inner ++ ']' :: rest)).dropWhile (· ≠ '[')).dropWhile
          (· ≠ ']') = ']' :: rest := by
        rw [List.dropWhile_append_of_pos front_pass, List.dropWhile_cons_of_neg (by simp),
          ← List.cons_append, List.dropWhile_append_of_pos inner_pass,
          List.dropWhile_cons_of_neg (by simp)]
      have to_first : (front ++ '[' :: (inner ++ ']' :: rest)).takeWhile (· ≠ '[') = front := by
        rw [List.takeWhile_append_of_pos front_pass, List.takeWhile_cons_of_neg (by simp),
          List.append_nil]
      simp only [eraseFsdbRanges, at_last, to_first]
      rw [ih (by simp at enough; omega)]

lemma normalizeFsdbSignalName_of_cleared (h : Cleared text key) :
    normalizeFsdbSignalName text = key := eraseFsdbRanges_of_cleared h le_rfl

/-! ### The name behind its scopes -/

lemma trapped_append {scopes tail : List Char} (lone : '[' ∉ tail ∨ ']' ∉ tail) :
    Trapped (scopes ++ tail) ↔
      ∃ before after, scopes = before ++ ']' :: after ∧ Closed before ∧
        ('[' ∈ after ∨ '[' ∈ tail) := by
  constructor
  · rintro ⟨before, after, split, closed, opened⟩
    -- What is in the tail alone cannot be in the way.
    have late : ∀ a, tail ≠ a ++ ']' :: after := by
      rintro a rfl
      simp [opened] at lone
    rcases List.append_eq_append_iff.mp split with ⟨a, rfl, ha⟩ | ⟨a, rfl, ha⟩
    · exact absurd ha (late a)
    · cases a with
      | nil => exact absurd ha.symm (late [])
      | cons c a =>
        obtain ⟨rfl, rfl⟩ := List.cons.inj ha
        exact ⟨before, a, rfl, closed, List.mem_append.mp opened⟩
  · rintro ⟨before, after, rfl, closed, opened⟩
    exact ⟨before, after ++ tail, by simp, closed, List.mem_append.mpr opened⟩

lemma lone_of_cleared (h : Cleared text key) : '[' ∉ key ∨ ']' ∉ key := by
  induction h with
  | plain lone => exact lone
  | range front_first front_last _ _ ih => simpa [front_first, front_last] using ih

lemma first_mem_key (h : Cleared text key) :
    '[' ∈ text.rtakeWhile (· ≠ ']') ↔ '[' ∈ key := by
  induction h with
  | @plain text lone =>
    rcases lone with lone | lone
    · exact iff_of_false (fun h => lone (mem_of_mem_rtakeWhile h)) lone
    · rw [rtakeWhile_of_no_last lone]
  | @range front inner rest key front_first _ _ _ ih =>
    rw [← List.cons_append, ← List.append_assoc, rtakeWhile_append_last, ih]
    simp [front_first]

lemma trapped_behind_scopes {scopes : List Char} (h : Cleared text key) :
    Trapped (scopes ++ key) ↔ Trapped (scopes ++ text.rtakeWhile (· ≠ ']')) := by
  have no_last : ']' ∉ text.rtakeWhile (· ≠ ']') := by
    intro hc
    simpa using List.mem_rtakeWhile_imp hc
  rw [trapped_append (lone_of_cleared h), trapped_append (.inr no_last), first_mem_key h]

/-! ### The names of `fsdbTreeCb` -/

end Verilua.Fsdb
