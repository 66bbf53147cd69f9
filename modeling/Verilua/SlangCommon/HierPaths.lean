import Verilua.Lib.Outline

/-!
# The paths of the instances of a module

`getHierPaths` walks through the elaborated design. At an instance it either records the path or
goes on to what is inside.
-/

namespace Verilua.SlangCommon

open Outline

/-- A symbol that has members: an instance with the name of its definition, or a scope of another
kind, such as a generate block or an array of instances. -/
inductive Symbol
  | inst (name : String) (definition : String)
  | scope (name : String)
  deriving DecidableEq, Repr

/-- The members of the root, with their members and so on. A leaf is a member without any. -/
abbrev Design := Forest Symbol String

def Symbol.instantiates (moduleName : String) : Symbol → Bool
  | inst _ definition => definition = moduleName
  | scope _ => false

section

-- `getHierarchicalPath` of a symbol, which is given with those above it
variable (hierarchicalPath : List Symbol → String)

/-- The visitor: what is put into `hierPaths` by the members of the symbols `above`. -/
def hierPathGetter (moduleName : String) (above : List Symbol) : Design → List String
  | .nil => []
  | .leaf _ rest => hierPathGetter moduleName above rest
  | .node (.inst name definition) body rest =>
    (if definition = moduleName then [hierarchicalPath (above ++ [.inst name definition])]
      else hierPathGetter moduleName (above ++ [.inst name definition]) body) ++
      hierPathGetter moduleName above rest
  | .node (.scope name) body rest =>
    hierPathGetter moduleName (above ++ [.scope name]) body ++ hierPathGetter moduleName above rest

def getHierPaths (root : Design) (moduleName : String) : List String :=
  hierPathGetter hierarchicalPath moduleName [] root

/-- The paths of all instances of the module. -/
def instancePaths (root : Design) (moduleName : String) : List String :=
  ((root.nodes []).filter fun e => e.2.instantiates moduleName).map fun e =>
    hierarchicalPath (e.1 ++ [e.2])

/-- The visitor records the outermost instances of the module. -/
lemma hierPathGetter_eq_outermost (moduleName : String) (above : List Symbol) (root : Design) :
    hierPathGetter hierarchicalPath moduleName above root =
      (root.outermost (Symbol.instantiates moduleName) above).map fun e =>
        hierarchicalPath (e.1 ++ [e.2]) := by
  induction root generalizing above with
  | nil => rfl
  | leaf name rest ih => exact ih above
  | node s body rest ihbody ihrest =>
    cases s with
    | inst name definition =>
      rw [hierPathGetter, Forest.outermost, ihbody, ihrest, List.map_append]
      by_cases h : definition = moduleName
      · simp [Symbol.instantiates, h]
      · simp [Symbol.instantiates, h]
    | scope name =>
      rw [hierPathGetter, Forest.outermost, ihbody, ihrest, List.map_append]
      rfl

/-- Every instance of the module is found, each once, exactly when none is inside another one. -/
theorem getHierPaths_perm_iff (root : Design) (moduleName : String) :
    (getHierPaths hierarchicalPath root moduleName).Perm
        (instancePaths hierarchicalPath root moduleName) ↔
      ∀ e ∈ root.nodes [], e.2.instantiates moduleName = true →
        e.1.any (Symbol.instantiates moduleName) = false := by
  rw [getHierPaths, hierPathGetter_eq_outermost, instancePaths]
  constructor
  · intro h
    have hlength := h.length_eq
    rw [List.length_map, List.length_map] at hlength
    exact (Forest.length_outermost_iff root).mp hlength
  · intro h
    rw [Forest.outermost_eq root h]

end

/-- A module that instantiates itself in a generate block. -/
def nested : Design :=
  .node (.inst "top" "Top")
    (.node (.inst "u" "Node")
      (.node (.scope "g")
        (.node (.inst "u" "Node") .nil .nil) .nil) .nil) .nil

theorem not_getHierPaths_perm :
    ¬ ∀ (hierarchicalPath : List Symbol → String) (root : Design) (moduleName : String),
      (getHierPaths hierarchicalPath root moduleName).Perm
        (instancePaths hierarchicalPath root moduleName) := by
  intro h
  have hlength := (h (fun _ => "") nested "Node").length_eq
  revert hlength
  decide

end Verilua.SlangCommon
