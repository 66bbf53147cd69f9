import Verilua.Fsdb.Basic
import Verilua.Lib.Distinct
import Verilua.Lib.Outline

/-!
# The module tree of `vpi_compat_fsdb`

The reader tells of the scopes and variables one by one, and a tree of nodes is built from that. The
iterations leave out the scopes that are not modules of the user, and take what is inside them for a
part of the scope around them.
-/

namespace Verilua.Fsdb

open Outline

/-! ### The tree -/

structure FsdbSignalEntry where
  name : List Char
  varIdCode : IdCode
  deriving DecidableEq

structure FsdbModuleNode where
  name : List Char
  /-- Empty where the reader has no name of a module. -/
  moduleName : List Char
  /-- `none` is the index -1. -/
  parent : Option Nat
  children : List Nat
  signals : List FsdbSignalEntry

/-- The loop that erases the ranges of a name. Each round takes the next opening bracket. -/
def eraseFsdbRanges : Nat → List Char → List Char
  | 0, normalized => normalized
  | fuel + 1, normalized =>
    match (normalized.dropWhile (· ≠ '[')).dropWhile (· ≠ ']') with
    | [] => normalized
    | _ :: rest => normalized.takeWhile (· ≠ '[') ++ eraseFsdbRanges fuel rest

def normalizeFsdbSignalName (rawName : List Char) : List Char :=
  eraseFsdbRanges rawName.length rawName

def isIgnoredFsdbModuleName (name : List Char) : Bool :=
  name.head? == some '$' || "_pkg".toList.isSuffixOf name ||
    name.tails.any "unnamed$$_".toList.isPrefixOf

structure TreeScope where
  name : List Char
  module : Option (List Char)

structure TreeSignal where
  name : List Char
  idcode : IdCode

/-- What `fsdbModuleTreeCb` is called for. -/
inductive TreeEvent
  | scope (scopeData : TreeScope)
  | var (varData : TreeSignal)
  | upscope
  | other

/-- `fsdbModuleTree` with the `scopeStack` of the traversal, from its end. -/
structure TreeContext where
  tree : List FsdbModuleNode
  scopeStack : List Nat

def FsdbModuleNode.addChild (node : FsdbModuleNode) (nodeIdx : Nat) : FsdbModuleNode :=
  { node with children := node.children ++ [nodeIdx] }

def FsdbModuleNode.addSignal (node : FsdbModuleNode) (entry : FsdbSignalEntry) : FsdbModuleNode :=
  { node with signals := node.signals ++ [entry] }

def fsdbModuleTreeCb (ctx : TreeContext) : TreeEvent → TreeContext
  | .scope scopeData =>
    let parent := ctx.scopeStack.head?
    let nodeIdx := ctx.tree.length
    let tree := ctx.tree ++ [⟨scopeData.name, scopeData.module.getD [], parent, [], []⟩]
    { tree := match parent with
        | some parent => tree.modify parent (·.addChild nodeIdx)
        | none => tree
      scopeStack := nodeIdx :: ctx.scopeStack }
  | .var varData =>
    match ctx.scopeStack with
    | [] => ctx
    | parentNodeIdx :: _ =>
      let signalName := normalizeFsdbSignalName varData.name
      if signalName.isEmpty then ctx
      else { ctx with
        tree := ctx.tree.modify parentNodeIdx (·.addSignal ⟨signalName, varData.idcode⟩) }
  | .upscope => { ctx with scopeStack := ctx.scopeStack.tail }
  | .other => ctx

def fsdbModuleTree (events : List TreeEvent) : List FsdbModuleNode :=
  (events.foldl fsdbModuleTreeCb ⟨[], []⟩).tree

/-! ### Iterations -/

/-- The index itself, or where the scope is ignored, what is visible among its children. No chain of
scopes is longer than the tree. -/
def collectVisibleFsdbModuleNodeIdxVec (tree : List FsdbModuleNode) : Nat → Nat → List Nat
  | 0, _ => []
  | fuel + 1, nodeIdx =>
    match tree[nodeIdx]? with
    | none => []
    | some node =>
      if isIgnoredFsdbModuleName node.name then
        node.children.flatMap (collectVisibleFsdbModuleNodeIdxVec tree fuel)
      else [nodeIdx]

def collectFsdbSignalsFromIgnoredScopes (tree : List FsdbModuleNode) :
    Nat → Nat → List FsdbSignalEntry
  | 0, _ => []
  | fuel + 1, nodeIdx =>
    match tree[nodeIdx]? with
    | none => []
    | some node =>
      if isIgnoredFsdbModuleName node.name then
        node.signals ++ node.children.flatMap (collectFsdbSignalsFromIgnoredScopes tree fuel)
      else []

/-- The indices of the nodes without a parent. -/
def parentless (tree : List FsdbModuleNode) : List Nat :=
  (List.range tree.length).filter fun i => tree[i]?.any fun node => node.parent.isNone

def getFsdbTopModuleNodeIdxVec (tree : List FsdbModuleNode) : List Nat :=
  let topModuleNodeIdxVec :=
    (parentless tree).flatMap (collectVisibleFsdbModuleNodeIdxVec tree tree.length)
  if topModuleNodeIdxVec.isEmpty then parentless tree else topModuleNodeIdxVec

def getFsdbVisibleChildModuleNodeIdxVec (tree : List FsdbModuleNode) (parentNodeIdx : Nat) :
    List Nat :=
  match tree[parentNodeIdx]? with
  | none => []
  | some node => node.children.flatMap (collectVisibleFsdbModuleNodeIdxVec tree tree.length)

/-- Of each name the first entry is kept. -/
def getFsdbVisibleSignalEntryVec (tree : List FsdbModuleNode) (parentNodeIdx : Nat) :
    List FsdbSignalEntry :=
  match tree[parentNodeIdx]? with
  | none => []
  | some node =>
    Distinct.firsts FsdbSignalEntry.name []
      (node.signals ++ node.children.flatMap (collectFsdbSignalsFromIgnoredScopes tree tree.length))

/-- The iteration over the tops, or over the children of a node. -/
def iteration (tree : List FsdbModuleNode) : Option Nat → List Nat
  | none => getFsdbTopModuleNodeIdxVec tree
  | some parentNodeIdx => getFsdbVisibleChildModuleNodeIdxVec tree parentNodeIdx

/-! ### What the iterations show -/

/-- The iterations that can be made: the one over the tops, and those over the children of what
another one reports. -/
inductive Iterated (tree : List FsdbModuleNode) : Option Nat → Prop
  | tops : Iterated tree none
  | children {q : Option Nat} {i : Nat} (h : Iterated tree q) (hi : i ∈ iteration tree q) :
      Iterated tree (some i)

/-- The scopes and variables of properly nested events. -/
abbrev ScopeForest := Forest TreeScope TreeSignal

def TreeEvent.nesting? : TreeEvent → Option (Event TreeScope TreeSignal)
  | .scope scopeData => some (.enter scopeData)
  | .var varData => some (.leaf varData)
  | .upscope => some .leave
  | .other => none

/-- The events are those of the scopes and variables of a forest. -/
def Nested (events : List TreeEvent) (f : ScopeForest) : Prop :=
  events.filterMap TreeEvent.nesting? = f.events

def visible (scopeData : TreeScope) : Bool := !isIgnoredFsdbModuleName scopeData.name

/-- Every visible scope is reported once, below its nearest visible scope. The variables that are
`wanted` are listed there, and each name is listed once. If there is a visible scope, no ignored one is
reported. -/
structure Flattens (wanted : TreeSignal → Prop) (f : ScopeForest) (tree : List FsdbModuleNode) :
    Prop where
  reported : ∀ above i scopeData body, .node above i scopeData body ∈ f.items [] 0 →
    visible scopeData = true →
      Iterated tree (nearest visible above) ∧
        (iteration tree (nearest visible above)).count i = 1 ∧
        ∀ q, Iterated tree q → i ∈ iteration tree q → q = nearest visible above
  listed : ∀ above varData i, .leaf above varData ∈ f.items [] 0 → wanted varData →
    nearest visible above = some i →
      normalizeFsdbSignalName varData.name ∈
        (getFsdbVisibleSignalEntryVec tree i).map FsdbSignalEntry.name
  once : ∀ i, ((getFsdbVisibleSignalEntryVec tree i).map FsdbSignalEntry.name).Nodup
  genuine : ∀ above i scopeData body, .node above i scopeData body ∈ f.items [] 0 →
    visible scopeData = true →
      ∀ entry ∈ getFsdbVisibleSignalEntryVec tree i,
        ∃ above' varData, .leaf above' varData ∈ f.items [] 0 ∧ nearest visible above' = some i ∧
          entry = ⟨normalizeFsdbSignalName varData.name, varData.idcode⟩
  ignored : (∃ above i scopeData body, .node above i scopeData body ∈ f.items [] 0 ∧
      visible scopeData = true) →
    ∀ above i scopeData body, .node above i scopeData body ∈ f.items [] 0 →
      visible scopeData = false → ∀ q, Iterated tree q → i ∉ iteration tree q

end Verilua.Fsdb
