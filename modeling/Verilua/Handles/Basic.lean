import Verilua.Dpi.Names
import Verilua.Lib.LuaPattern
import Verilua.Lib.Separator

/-!
# Bundles from a string

`("valid | ready | [data]"):bundle {hier = ..}` and `("{p}_value => val_{b} | [x]"):abdl {hier = ..}`.
The string is split and the brackets are taken off; `abdl` puts values of the parameters in and
splits the aliases. The names in brackets and those of `optional_signals` are handed to the class of
the handle. A Lua error is `none`.
-/

namespace Verilua.Handles

open DpiExporter (replace)
open LuaPattern (gsub)

abbrev Text := List Char

/-! ### The parameters -/

/-- A value of `params_table`: a number is known by what `tostring` makes of it, and a table of
strings by its place. -/
inductive Value
  | str (s : Text)
  | num (shown : Text)
  | bool (b : Bool)
  | table (ref : ℕ) (shown : Text)

namespace Value

def tostring : Value → Text
  | .str s => s
  | .num shown => shown
  | .bool true => ['t', 'r', 'u', 'e']
  | .bool false => ['f', 'a', 'l', 's', 'e']
  | .table _ shown => shown

end Value

abbrev Params := List (Text × Value)

/-- The tables of strings. -/
abbrev Heap := ℕ → List Text

namespace Params

def hierKey : Text := ['h', 'i', 'e', 'r']

def prefixKey : Text := ['p', 'r', 'e', 'f', 'i', 'x']

def nameKey : Text := ['n', 'a', 'm', 'e']

def isDecoupledKey : Text := ['i', 's', '_', 'd', 'e', 'c', 'o', 'u', 'p', 'l', 'e', 'd']

def optionalSignalsKey : Text :=
  ['o', 'p', 't', 'i', 'o', 'n', 'a', 'l', '_', 's', 'i', 'g', 'n', 'a', 'l', 's']

/-- `name` where none is given. -/
def unknown : Text := ['U', 'n', 'k', 'n', 'o', 'w', 'n']

variable (params : Params)

/-- `hier` must be there, and must be a string. -/
def hier : Option Text :=
  match params.lookup hierKey with
  | some (.str s) => some s
  | _ => none

def strField (key default : Text) : Option Text :=
  match params.lookup key with
  | none => some default
  | some (.str s) => some s
  | some _ => none

def isDecoupled : Option Bool :=
  match params.lookup isDecoupledKey with
  | none => some true
  | some (.bool b) => some b
  | some _ => none

/-- `optional_signals`, a table if it is there. -/
def optionalSignals : Option (Option ℕ) :=
  match params.lookup optionalSignalsKey with
  | none => some none
  | some (.table ref _) => some (some ref)
  | some _ => none

/-- The names that the table lists. -/
def listed (heap : Heap) : List Text :=
  match params.optionalSignals with
  | some (some ref) => heap ref
  | _ => []

def keysKnown : Bool :=
  params.all fun entry =>
    [prefixKey, isDecoupledKey, nameKey, optionalSignalsKey, hierKey].contains entry.1

end Params

/-! ### The entries -/

section Entries

variable (split : Text → Text → List Text)

def arrow : Text := ['=', '>']

def slash : Text := ['/']

/-- The trivial characters are removed. -/
def strip (s : Text) : Text :=
  replace (replace (replace s [' '] []) ['\n'] []) ['\t'] []

/-- `string.match(s, "^%[(.+)%]$")` -/
def optionalMatch : Text → Option Text
  | '[' :: rest => if rest.getLast? = some ']' ∧ 2 ≤ rest.length then some rest.dropLast else none
  | _ => none

/-- An entry without the brackets around it, and whether there are any. -/
def unbracket (s : Text) : Text × Bool :=
  match optionalMatch s with
  | some inner => (inner, true)
  | none => (s, false)

/-- The valid signals of a string. `pairs` goes through the array of `split` in its order. -/
def signalsOf (str : Text) : List (Text × Bool) :=
  (((split str ['|']).map strip).filter (!·.isEmpty)).map unbracket

/-- The names that a bracketed entry of `abdl` makes optional. -/
def autoNames (inner : Text) : List Text :=
  match split inner arrow with
  | _ :: aliases :: _ => split aliases slash
  | _ => [inner]

/-- The keys in braces, as `string.gmatch(s, "{[^%{%}%(%)]*}")` finds them; the first argument is
what has been read behind a brace. -/
def placeholdersFrom : Option Text → Text → List Text
  | _, [] => []
  | opened, c :: cs =>
    if c = '{' then placeholdersFrom (some []) cs
    else if c = '}' then opened.toList ++ placeholdersFrom none cs
    else if c = '(' ∨ c = ')' then placeholdersFrom none cs
    else placeholdersFrom (opened.map (· ++ [c])) cs

def placeholders (s : Text) : List Text := placeholdersFrom none s

/-- The match is the pattern, and the value is the replacement text. -/
def substitute (params : Params) (s key : Text) : Option Text := do
  let value ← params.lookup key
  gsub s ('{' :: key ++ ['}']) value.tostring

/-- The matches are those of the entry as it was. -/
def interpolate (params : Params) (s : Text) : Option Text :=
  (placeholders s).foldlM (substitute params) s

/-- An entry of `alias_tbl`: the signal, and its aliases if there are any. -/
def aliasNameVec (s : Text) : Option (List Text) :=
  match split s arrow with
  | [orig] => some [orig]
  | [orig, aliases] =>
    match split aliases slash with
    | [] => none
    | names => some (orig :: names)
  | _ => none

end Entries

/-! ### The constructors -/

/-- What `Bundle` is called with. -/
structure BundleCall where
  signalsTable : List Text
  pre : Text
  hierarchy : Text
  name : Text
  isDecoupled : Bool
  optionalSignals : List Text

/-- What `AliasBundle` is called with. -/
structure AliasCall where
  aliasTbl : List (List Text)
  pre : Text
  hierarchy : Text
  name : Text
  optionalSignals : List Text

namespace AliasCall

/-- `signals_tbl` -/
def signalsTbl (call : AliasCall) : List Text := call.aliasTbl.map (·.headD [])

/-- The names of a signal. Without an alias it is its own. -/
def namesOf : List Text → List Text
  | [orig] => [orig]
  | vec => vec.tail

/-- The `alias_tbl` of the handle. -/
def names (call : AliasCall) : List (List Text) := call.aliasTbl.map namesOf

end AliasCall

/-- What the constructors have before the optional names are merged: those from brackets, the table
of those that are given, and the call that waits for both. -/
structure Pending (α : Type) where
  autoOptionalSignals : List Text
  optionalSignals : Option ℕ
  call : List Text → α

/-- The names from brackets are inserted into the table that is given, if there is one. -/
def Pending.merge {α : Type} (p : Pending α) (heap : Heap) : α × Heap :=
  match p.optionalSignals with
  | none => (p.call p.autoOptionalSignals, heap)
  | some ref =>
    let optionalSignals := heap ref ++ p.autoOptionalSignals
    (p.call optionalSignals, Function.update heap ref optionalSignals)

section Constructors

variable (split : Text → Text → List Text)

/-- `process_bundle` up to the merging. -/
def readBundle (str : Text) (params : Params) : Option (Pending BundleCall) := do
  let signals := signalsOf split str
  let hier ← params.hier
  let pre ← params.strField Params.prefixKey []
  let isDecoupled ← params.isDecoupled
  let name ← params.strField Params.nameKey Params.unknown
  let optionalSignals ← params.optionalSignals
  if params.keysKnown then
    return ⟨(signals.filter (·.2)).map (·.1), optionalSignals, fun optional =>
      ⟨signals.map (·.1), pre, hier, name, isDecoupled, optional⟩⟩
  else none

/-- `string.abdl` up to the merging. -/
def readAbdl (str : Text) (params : Params) : Option (Pending AliasCall) := do
  let signals := signalsOf split str
  let texts ← signals.mapM fun signal => interpolate params signal.1
  let aliasTbl ← texts.mapM (aliasNameVec split)
  let hier ← params.hier
  let pre ← params.strField Params.prefixKey []
  let name ← params.strField Params.nameKey Params.unknown
  let optionalSignals ← params.optionalSignals
  return ⟨(signals.filter (·.2)).flatMap fun signal => autoNames split signal.1, optionalSignals,
    fun optional => ⟨aliasTbl, pre, hier, name, optional⟩⟩

def processBundle (str : Text) (params : Params) (heap : Heap) : Option BundleCall × Heap :=
  match readBundle split str params with
  | none => (none, heap)
  | some pending =>
    let (call, heap') := pending.merge heap
    (some call, heap')

def abdl (str : Text) (params : Params) (heap : Heap) : Option AliasCall × Heap :=
  match readAbdl split str params with
  | none => (none, heap)
  | some pending =>
    let (call, heap') := pending.merge heap
    (some call, heap')

end Constructors

/-! ### Splitting -/

/-- What is used of `stringx.split`. An empty text has no parts, and the separator alone has one. -/
structure Splits (split : Text → Text → List Text) : Prop where
  split_nil : ∀ sep, split [] sep = []
  split_self : ∀ sep, sep ≠ [] → split sep sep = [[]]
  split_intercalate : ∀ sep parts, sep ≠ [] → parts ≠ [] → parts ≠ [[]] → parts ≠ [[], []] →
    (∀ part ∈ parts, ∀ c ∈ part, c ∉ sep) → split (sep.intercalate parts) sep = parts

/-- `stringx.split` -/
def stringxSplit (s sep : Text) : List Text :=
  if s.isEmpty then [] else if s = sep then [[]] else Separator.splitBy sep s

lemma splits_stringxSplit : Splits stringxSplit where
  split_nil _ := rfl
  split_self sep hsep := by
    rw [stringxSplit, if_neg (by simpa using hsep), if_pos rfl]
  split_intercalate sep parts hsep hne hone htwo hparts := by
    have hsplit := Separator.splitBy_intercalate hsep hne hparts
    have hempty : sep.intercalate parts ≠ [] := fun h => by
      rw [h] at hsplit
      exact hone hsplit.symm
    have hself : sep.intercalate parts ≠ sep := fun h => by
      have hpair := Separator.splitFrom_sep hsep [] []
      rw [List.append_nil] at hpair
      rw [h, show Separator.splitBy sep sep = [[], []] from hpair] at hsplit
      exact htwo hsplit.symm
    rw [stringxSplit, if_neg (by simpa using hempty), if_neg hself, hsplit]

end Verilua.Handles
