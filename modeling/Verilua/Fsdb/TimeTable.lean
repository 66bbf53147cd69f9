import Mathlib.Data.Set.Basic
import Verilua.Fsdb.Runs
import Verilua.Lib.Distinct

/-!
# The time table of `fsdb_wave_vpi`

The constructor of `FsdbWaveVpi` loads the signals with the lowest id codes and goes through their
value changes. Where these end before the last time of the waveform it tries again with more
signals. What it finds are two vectors, the times and the tags of the reader.
-/

namespace Verilua.Fsdb

open Codec (Outcome)

/-- `fsdbXTag`, by the halves of its `hltag`. -/
structure XTag where
  H : UInt32
  L : UInt32
  deriving DecidableEq

/-- `Xtag64ToUInt64` -/
def XTag.toUInt64 (x : XTag) : Nat := x.H.toNat * 2 ^ 32 + x.L.toNat

/-- The halves that the cached table gives to a tag. -/
def XTag.ofUInt64 (time : Nat) : XTag :=
  ⟨UInt32.ofNat (time >>> 32), UInt32.ofNat (time &&& 0xFFFFFFFF)⟩

/-- A waveform, as the reader shows it to the parse of the time table. -/
structure Recording where
  max_xtag : XTag
  /-- `ffrGetMaxVarIdcode` -/
  maxVarIdcode : Nat
  /-- The times at which a signal changes. -/
  changes : IdCode → Set Nat
  /-- The tags that the handle of `ffrCreateTimeBasedVCTrvsHdl` goes through, or `none` where there is
  no handle. -/
  traverse : List IdCode → Option (List XTag)
  traverse_sorted : ∀ ids vcs, traverse ids = some vcs →
    (vcs.map XTag.toUInt64).Pairwise (· ≤ ·)
  mem_traverse : ∀ ids vcs, traverse ids = some vcs → ∀ time,
    time ∈ vcs.map XTag.toUInt64 ↔ ∃ id ∈ ids, time ∈ changes id

def TIME_TABLE_MAX_INDEX_VAR_CODE : Nat := 10

/-- The length of `sigArr`. -/
def TIME_TABLE_MAX_INDEX_VAR_CODE_MAX : Nat := 2000

def MAX_RETRY_TIMES : Nat := 10

/-- One attempt: the signals up to `maxIndexVarCode` are loaded, and the handle goes through `vcs`.
Without a handle the run stops, and outside `sigArr` nothing is defined. -/
structure Attempt where
  maxIndexVarCode : Nat
  vcs : Outcome (List XTag)

/-- The vectors that the constructor leaves. -/
structure TimeTable where
  xtagVec : List XTag
  xtagU64Vec : List Nat
  deriving DecidableEq

namespace Recording

variable (w : Recording)

def maxXtagValue : Nat := w.max_xtag.toUInt64

/-- The first entries of `sigArr`. -/
def ids (n : Nat) : List IdCode := List.range' 1 n

/-- `sigNum`, of 32 bits. -/
def sigNum (maxIndexVarCode : Nat) : Nat :=
  if maxIndexVarCode > w.maxVarIdcode then (w.maxVarIdcode + 2 ^ 32 - 1) % 2 ^ 32
  else maxIndexVarCode

/-- With `MAX_INDEX_VAR_CODE` in the environment that many signals are loaded. -/
def setupMaxIndexVarCode (env : Option Nat) (maxIndexVarCode : Nat) : Attempt :=
  let maxIndexVarCode := env.getD maxIndexVarCode
  ⟨maxIndexVarCode,
    if maxIndexVarCode ≤ TIME_TABLE_MAX_INDEX_VAR_CODE_MAX ∧
        w.sigNum maxIndexVarCode ≤ maxIndexVarCode then
      .ofOption (w.traverse (ids (w.sigNum maxIndexVarCode)))
    else .panic⟩

end Recording

/-- The loop over the value changes, with `parsedMaxXtagValue`. -/
def Attempt.parse (a : Attempt) : Outcome (TimeTable × Nat) := do
  let vcs ← a.vcs
  let ⟨xtagU64Set, xtagVec⟩ := Distinct.collect XTag.toUInt64 vcs
  match xtagVec.getLast? with
  | some back => .value (⟨xtagVec, xtagU64Set⟩, back.toUInt64)
  | none => .panic

/-- Whether the percentage that was matched, of doubles, is as high as `ACCEPTABLE_PERCENT`. -/
abbrev Acceptable := (parsedMaxXtagValue maxXtagValue : Nat) → Bool

/-- The attempts from one on, and what the last of them comes to. `left` retries are left, and
`MAX_RETRY_TIMES - left` are made. -/
def doNormalParse (acceptable : Acceptable) (w : Recording) (env : Option Nat) :
    (left : Nat) → Attempt → List Attempt × Outcome TimeTable
  | 0, a => ([a], do
      let (table, parsedMaxXtagValue) ← a.parse
      if parsedMaxXtagValue < w.maxXtagValue ∧
          acceptable parsedMaxXtagValue w.maxXtagValue = false then .fail
      else .value table)
  | left + 1, a =>
    match a.parse with
    | .value (table, parsedMaxXtagValue) =>
      if parsedMaxXtagValue < w.maxXtagValue then
        let retryTimes := MAX_RETRY_TIMES - left
        let newMaxIndexVarCode := a.maxIndexVarCode + 10 * (retryTimes ^^^ 2)
        let (attempts, result) :=
          doNormalParse acceptable w env left (w.setupMaxIndexVarCode env newMaxIndexVarCode)
        (a :: attempts, result)
      else ([a], .value table)
    | .fail => ([a], .fail)
    | .panic => ([a], .panic)

/-- The vectors from `TIME_TABLE_FILE`. -/
def TimeTableFile.load (file : TimeTableFile) : Outcome TimeTable :=
  match file.read with
  | some xtags => .value ⟨xtags.map XTag.ofUInt64, xtags⟩
  | none => .panic

/-- The constructor, with the attempts that it makes. `cached` is the time table file where the cached
data are used and it can be opened. -/
def construct (acceptable : Acceptable) (w : Recording) (env : Option Nat)
    (cached : Option TimeTableFile) : List Attempt × Outcome TimeTable :=
  let a := w.setupMaxIndexVarCode env TIME_TABLE_MAX_INDEX_VAR_CODE
  match cached with
  | some file => ([a], do
      let _ ← a.vcs
      file.load)
  | none => doNormalParse acceptable w env MAX_RETRY_TIMES a

/-! ### What the table is for -/

/-- The entries of both vectors are the same times. -/
def TimeTable.Agrees (table : TimeTable) : Prop :=
  table.xtagVec.map XTag.toUInt64 = table.xtagU64Vec

namespace Recording

variable (acceptable : Acceptable) (w : Recording)

/-- The signals, by their id codes. -/
def signals : Set IdCode := {id | 1 ≤ id ∧ id ≤ w.maxVarIdcode}

def loaded (a : Attempt) : Set IdCode := {id ∈ w.signals | id ≤ a.maxIndexVarCode}

/-- An attempt that goes through all its changes and does not come to the last time. -/
def EndsShort (a : Attempt) : Prop :=
  ∃ vcs, a.vcs = .value vcs ∧ ∀ x ∈ vcs, x.toUInt64 < w.maxXtagValue

/-- The constructor is defined and leaves two vectors that agree, from the cached data too. The table of
a parse is increasing and has the times at which the signals of the last attempt change; the file that
is written gives it back. Until the retry limit each attempt that ends short is followed by one with
more signals, if there are more. -/
structure Collects : Prop where
  defined : (construct acceptable w none none).2 ≠ .panic
  table : ∀ t, (construct acceptable w none none).2 = .value t →
    t.xtagU64Vec.Pairwise (· < ·) ∧
      ∃ a, (construct acceptable w none none).1.getLast? = some a ∧
        ∀ time, time ∈ t.xtagU64Vec ↔ ∃ id ∈ w.loaded a, time ∈ w.changes id
  agrees : ∀ cached t, (∀ file, cached = some file → ∀ entry ∈ file.entries, entry < 2 ^ 64) →
    (construct acceptable w none cached).2 = .value t → t.Agrees
  reloaded : ∀ t, (construct acceptable w none none).2 = .value t →
    (construct acceptable w none (some (.complete t.xtagU64Vec))).2 = .value t
  progress : ∀ k a, k < MAX_RETRY_TIMES →
    (construct acceptable w none none).1[k]? = some a → w.EndsShort a → w.loaded a ≠ w.signals →
      ∃ b, (construct acceptable w none none).1[k + 1]? = some b ∧
        w.loaded a ⊆ w.loaded b ∧ ∃ id ∈ w.loaded b, id ∉ w.loaded a

/-! ### Where the table is collected -/

/-- The first signals change, but not at the last time. -/
def Short (n : Nat) : Prop :=
  ∃ vcs, w.traverse (ids n) = some vcs ∧ vcs ≠ [] ∧ ∀ x ∈ vcs, x.toUInt64 < w.maxXtagValue

/-- The changes end where the run stops. -/
def GivesUp (vcs : List XTag) : Prop :=
  ∃ x ∈ vcs, (∀ y ∈ vcs, y.toUInt64 ≤ x.toUInt64) ∧ x.toUInt64 < w.maxXtagValue ∧
    acceptable x.toUInt64 w.maxXtagValue = false

/-- The first ten signals change. With more than 40 signals the first ten or the first 40 come to
the last time. With at most 40, where the attempts with ten and with 40 of them do not come to the last
time, the signal with the highest id code changes only when others do, or the run stops. -/
structure Collectable : Prop where
  signals : 0 < w.maxVarIdcode
  changing : 10 ≤ w.maxVarIdcode → w.traverse (ids 10) ≠ some []
  reaching : 40 < w.maxVarIdcode → w.Short 10 → ¬ w.Short 40
  shared : w.maxVarIdcode ≤ 40 → (10 ≤ w.maxVarIdcode → w.Short 10) →
    (w.maxVarIdcode = 40 → w.Short 40) →
      ∀ vcs, w.traverse (ids (w.maxVarIdcode - 1)) = some vcs →
        vcs ≠ [] ∧
          (w.GivesUp acceptable vcs ∨
            ∀ time ∈ w.changes w.maxVarIdcode,
              ∃ id ∈ ids (w.maxVarIdcode - 1), time ∈ w.changes id)

end Recording

end Verilua.Fsdb
