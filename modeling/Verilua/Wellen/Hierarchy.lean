import Verilua.Hierarchy.Collect
import Verilua.Wellen.Basic

/-!
# The hierarchy of a waveform through the VPI

The scopes and variables of the waveform, what `vpi_iterate` and `vpi_scan` show of them, and the
collection over it. A walk looks up every variable by its full name, so that it changes the caches.
-/

namespace Verilua.Wellen

open Codec (Outcome)
open Hierarchy (ObjectType VpiObject VpiModule HierarchyEntry cString collectHierarchyEntries)

/-- `ScopeType`. The types that no function tells apart are `other`. -/
inductive ScopeType
  | module
  | other
  deriving DecidableEq, Repr

/-- A variable that a scope declares; `width` is the number of its bits. -/
structure ScopeVar extends Var where
  name : String
  width : Nat

inductive Scope
  | mk (name : String) (scopeType : ScopeType) (vars : List ScopeVar) (scopes : List Scope)

namespace Scope

def name : Scope → String
  | .mk name _ _ _ => name

def scopeType : Scope → ScopeType
  | .mk _ scopeType _ _ => scopeType

end Scope

/-- `full_name` of a scope or variable, by the names from the top. -/
def fullName (names : List String) : String := ".".intercalate names

def isValidTopModuleScope (scope : Scope) : Bool :=
  scope.scopeType = .module ∧
    ¬ (scope.name.toList.head? = some '$' ∨ "_pkg".toList.isSuffixOf scope.name.toList)

def mapVarTypeToVpiIterType : VarType → ObjectType
  | .wire => .vpiNet
  | .sparseArray => .vpiMemory
  | _ => .vpiReg

/-- `CString::new(name).expect(..)` -/
def expectCString (name : String) : Outcome String :=
  match cString name with
  | some name => .value name
  | none => .panic

/-- `as PLI_INT32` -/
def toPliInt32 (n : Nat) : Int := (BitVec.ofNat 32 n).toInt

/-- The loop of `collect_signal_handles` over the variables of the scope. -/
def collectSignalHandles (wave : WaveFile) (type : ObjectType) (path : List String) :
    List ScopeVar → (visitedSignalRefs : List SignalRef) → Caches →
      Outcome (List SignalRef × Caches)
  | [], _, c => .value ([], c)
  | var :: vars, visitedSignalRefs, c =>
    if mapVarTypeToVpiIterType var.varType ≠ type then
      collectSignalHandles wave type path vars visitedSignalRefs c
    else if var.signalRef ∈ visitedSignalRefs then
      collectSignalHandles wave type path vars visitedSignalRefs c
    else do
      let name ← expectCString (fullName (path ++ [var.name]))
      let (signalHandle, c) ← handleByName wave name c
      let (signalHandles, c) ←
        collectSignalHandles wave type path vars (var.signalRef :: visitedSignalRefs) c
      .value (signalHandle.toList ++ signalHandles, c)

/-- What `vpi_scan` gives for the handles of an iterator. -/
def scanSignals : List SignalRef → Caches → Outcome (List VpiObject)
  | [], _ => .value []
  | handle :: rest, c =>
    match c.signalNameCache.lookup handle with
    | none => scanSignals rest c
    | some name => do
      let size ← getSize c handle
      let objects ← scanSignals rest c
      .value (⟨some name, toPliInt32 size⟩ :: objects)

/-- `vpi_iterate` and `vpi_scan` of one type. The iterator is filled before it is scanned. -/
def iterateSignals (wave : WaveFile) (type : ObjectType) (path : List String)
    (vars : List ScopeVar) (c : Caches) : Outcome (List VpiObject × Caches) := do
  let (signalHandles, c) ← collectSignalHandles wave type path vars [] c
  let objects ← scanSignals signalHandles c
  .value (objects, c)

def objectsOf (nets regs memories : List VpiObject) : ObjectType → List VpiObject
  | .vpiNet => nets
  | .vpiReg => regs
  | .vpiMemory => memories

mutual

/-- What the VPI shows of a module, with the calls in the order of the walk. -/
def showModule (wave : WaveFile) :
    Scope → (parents : List String) → Caches → Outcome (VpiModule × Caches)
  | .mk name _ vars scopes, parents, c => do
    let name ← expectCString name
    let path := parents ++ [name]
    let (nets, c) ← iterateSignals wave .vpiNet path vars c
    let (regs, c) ← iterateSignals wave .vpiReg path vars c
    let (memories, c) ← iterateSignals wave .vpiMemory path vars c
    let (children, c) ← showModules wave scopes path c
    .value (.mk (some name) none (objectsOf nets regs memories) children, c)

/-- `collect_module_scopes` shows modules only. -/
def showModules (wave : WaveFile) :
    List Scope → (parents : List String) → Caches → Outcome (List VpiModule × Caches)
  | [], _, c => .value ([], c)
  | scope :: rest, parents, c =>
    if scope.scopeType = .module then do
      let (module, c) ← showModule wave scope parents c
      let (modules, c) ← showModules wave rest parents c
      .value (module :: modules, c)
    else showModules wave rest parents c

end

/-- `collect_hierarchy_entries` without a limit. -/
def collectHierarchy (wave : WaveFile) (scopes : List Scope) (c : Caches) :
    Outcome (List HierarchyEntry × Caches) := do
  let (modules, c) ← showModules wave (scopes.filter isValidTopModuleScope) [] c
  .value (collectHierarchyEntries modules 0, c)

/-! ### What is declared -/

/-- A scope with the names of those above it, from the top. -/
structure Declared where
  parents : List String
  name : String
  scopeType : ScopeType
  vars : List ScopeVar

mutual

/-- The scope and those in it. -/
def Scope.declared : Scope → (parents : List String) → List Declared
  | .mk name scopeType vars scopes, parents =>
    ⟨parents, name, scopeType, vars⟩ :: declaredIn scopes (parents ++ [name])

def declaredIn : List Scope → (parents : List String) → List Declared
  | [], _ => []
  | scope :: rest, parents => scope.declared parents ++ declaredIn rest parents

end

namespace Declared

def path (d : Declared) : List String := d.parents ++ [d.name]

def varName (d : Declared) (v : ScopeVar) : String := fullName (d.path ++ [v.name])

def fullNames (d : Declared) : List String := fullName d.path :: d.vars.map d.varName

end Declared

/-- The scopes at or below the valid top modules. -/
def walked (scopes : List Scope) : List Declared :=
  declaredIn (scopes.filter isValidTopModuleScope) []

/-- Modules in modules, with distinct full paths. -/
structure Nested (scopes : List Scope) : Prop where
  modules : ∀ d ∈ walked scopes, d.scopeType = .module
  nodup : ((declaredIn scopes []).flatMap Declared.fullNames).Nodup

/-- The library `wellen` looks variables up by their path and name, and the values of a signal are
as wide as its variables. -/
structure WaveFile.Reads (wave : WaveFile) (scopes : List Scope) : Prop where
  lookupVar : ∀ path name var, wave.lookupVar path name = some var ↔
    ∃ d ∈ declaredIn scopes [], ∃ v ∈ d.vars, d.path = path ∧ v.name = name ∧ v.toVar = var
  width : ∀ d ∈ declaredIn scopes [], ∀ v ∈ d.vars, ∀ w,
    firstWidth (wave.loadSignal v.signalRef) = .value w → w = v.width

/-- The caches that a run has left where it found no cache files. -/
inductive Asked (wave : WaveFile) : Caches → Prop
  | empty : Asked wave .empty
  | ask {c c' : Caches} {q : Query} {a : Answer} (h : Asked wave c)
      (hask : ask wave c q = .value (a, c')) : Asked wave c'

/-- Every module and every variable has one entry, and that of a variable its width and type. -/
structure Complete (scopes : List Scope) (entries : List HierarchyEntry) : Prop where
  nodup : (entries.map HierarchyEntry.fullPath).Nodup
  mem_iff : ∀ path, path ∈ entries.map HierarchyEntry.fullPath ↔
    ∃ d ∈ walked scopes, path ∈ d.fullNames
  var : ∀ d ∈ walked scopes, ∀ v ∈ d.vars, ∀ entry ∈ entries, entry.fullPath = d.varName v →
    entry.bitwidth = v.width ∧ (entry.sigType = some "wire" ↔ v.varType = .wire)

end Verilua.Wellen
