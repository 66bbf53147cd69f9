import Mathlib.Data.List.AList
import Mathlib.Data.String.Basic
import Verilua.Lib.Codec
import Verilua.Wave.Format

/-!
# The signals of a waveform in `fsdb_wave_vpi`

The caches of the backend: the id codes of the names that were asked for, those of the names that a
search came past, and the time table.
-/

namespace Verilua.Fsdb

open Codec (Outcome)
open Wave (Bit Format Value)

abbrev IdCode := Nat

/-- A variable of the tree, below the scopes with these names. -/
structure TreeVar where
  scopes : List String
  name : String
  idcode : IdCode

/-- The bit ranges are erased from a name. A closing bracket in front of every opening one would
keep the loop of the source from ending. -/
def eraseRanges : Nat → List Char → List Char
  | 0, name => name
  | fuel + 1, name =>
    let first := name.idxOf '['
    let last := name.idxOf ']'
    if first < last ∧ last < name.length then
      eraseRanges fuel (name.take first ++ name.drop (last + 1))
    else name

def withoutRanges (name : String) : String :=
  String.ofList (eraseRanges name.toList.length name.toList)

namespace TreeVar

/-- The scopes are joined as they are; only the name of the variable loses its ranges. -/
def fullName (v : TreeVar) : String :=
  v.scopes.foldr (fun scope rest => scope ++ "." ++ rest) (withoutRanges v.name)

/-- `insertKeyStr` -/
def key (v : TreeVar) : String := withoutRanges v.fullName

end TreeVar

/-- One waveform file, as the FSDB reader shows it. -/
structure WaveFile where
  /-- The variables that `fsdbTreeCb` is called for at a depth, in order. -/
  vars : Nat → List TreeVar
  idcode_pos : ∀ depth, ∀ v ∈ vars depth, 0 < v.idcode
  /-- The time table that the parse finds, by `MAX_INDEX_VAR_CODE`; `none` where it gives up. -/
  parse : Option Nat → Option (List Nat)
  /-- The bits at a time, or `none` where `ffrGotoXTag` or `ffrGetVC` fails. -/
  retVC : IdCode → Nat → Option (List Bit)

/-- The caches of one run. Without a complete header in the time table file the size of the vector
is not defined. -/
structure Caches where
  usedVarIdCodeCache : AList fun _ : String => IdCode
  varIdCodeCache : AList fun _ : String => IdCode
  hasNewlyAddedVarIdCode : Bool
  xtagU64Vec : Option (List Nat)

/-- `desiredDepth` -/
def desiredDepth (name : String) : Nat := name.toList.count '.'

/-- The search with `fsdbTreeCb`. What it comes past is kept under its key. -/
def treeSearch (name : String) :
    List TreeVar → (AList fun _ : String => IdCode) →
      Option IdCode × (AList fun _ : String => IdCode)
  | [], cache => (none, cache)
  | v :: rest, cache =>
    if v.fullName = name then (some v.idcode, cache.insert name v.idcode)
    else treeSearch name rest (cache.insert v.key v.idcode)

/-- `none` is the code -1. -/
def getVarIdCodeByName (wave : WaveFile) (name : String) (c : Caches) : Option IdCode × Caches :=
  match c.usedVarIdCodeCache.lookup name with
  | some code => (some code, c)
  | none =>
    match c.varIdCodeCache.lookup name with
    | some code =>
      (some code, { c with
        usedVarIdCodeCache := c.usedVarIdCodeCache.insert name code
        hasNewlyAddedVarIdCode := true })
    | none =>
      let (ret, cache) := treeSearch name (wave.vars (desiredDepth name)) c.varIdCodeCache
      match ret with
      | none | some 0 => (none, { c with varIdCodeCache := cache, hasNewlyAddedVarIdCode := true })
      | some code =>
        (some code, { c with
          usedVarIdCodeCache := c.usedVarIdCodeCache.insert name code
          varIdCodeCache := cache
          hasNewlyAddedVarIdCode := true })

/-- An access to the time table; one beyond its end is not defined. -/
def xtagAt (c : Caches) (index : Nat) : Outcome Nat :=
  match c.xtagU64Vec with
  | none => .panic
  | some xtags =>
    match xtags[index]? with
    | some time => .value time
    | none => .panic

/-- `findNearestTimeIndex`, which returns 32 bits. -/
def findNearestTimeIndex (time : Nat) (xtags : List Nat) : Nat :=
  let it := xtags.findIdx fun xtag => decide (time ≤ xtag)
  if it = xtags.length then (xtags.length - 1) % 2 ^ 32
  else if it = 0 then 0
  else
    let index := it % 2 ^ 32
    if xtags.getD index 0 = time then index
    else
      let before := (index + 2 ^ 32 - 1) % 2 ^ 32
      if xtags.getD before 0 < time then before else index

/-- The time of a value read is a little behind the entry of the time table. -/
def getValue (wave : WaveFile) (c : Caches) (code : IdCode) (index : Nat) (format : Format) :
    Outcome Value := do
  let time ← xtagAt c index
  match wave.retVC code (time + 1) with
  | some bits => return Wave.readFromFSDB bits format
  | none => .panic

/-! ### Queries -/

inductive Query
  | handleByName (name : String)
  | getValue (code : IdCode) (index : Nat) (format : Format)
  | getTime (index : Nat)
  | nearestTimeIndex (time : Nat)
  | maxIndex

inductive Answer
  | handle (code : Option IdCode)
  | value (value : Value)
  | number (n : Nat)
  deriving DecidableEq

def ask (wave : WaveFile) (c : Caches) : Query → Outcome (Answer × Caches)
  | .handleByName name =>
    let (code, c) := getVarIdCodeByName wave name c
    .value (.handle code, c)
  | .getValue code index format => do return (.value (← getValue wave c code index format), c)
  | .getTime index => do return (.number (← xtagAt c index), c)
  | .nearestTimeIndex time =>
    match c.xtagU64Vec with
    | some xtags => .value (.number (findNearestTimeIndex time xtags), c)
    | none => .panic
  | .maxIndex =>
    match c.xtagU64Vec with
    | some xtags => .value (.number (xtags.length - 1), c)
    | none => .panic

end Verilua.Fsdb
