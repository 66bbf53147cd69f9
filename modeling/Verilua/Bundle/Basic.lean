import Mathlib.Logic.Function.Basic

/-!
# Modules in one sealed file

`bundle_to_bc` packs a module and the modules that it requires into one chunk, and a loader behind
that of the `.lua` files runs the chunk. The bodies of modules are trees of what they do: they change
a heap, require other modules, look at what comes back (which may be a caught error), and end with a
value or an error. Sealing and the dump of a chunk are left out.
-/

namespace Verilua.Bundle

abbrev Name := List Char

variable {H O : Type}

inductive Value (O : Type)
  | nil
  | bool (b : Bool)
  | obj (o : O)

def Value.truthy : Value O → Bool
  | nil => false
  | bool b => b
  | obj _ => true

inductive Err
  | loop (name : Name)
  | notFound (name : Name)
  | raised (text : List Char)

inductive Body (H O : Type)
  | done (v : Value O)
  | raise (text : List Char)
  | act (f : H → H) (next : H → Body H O)
  | require (name : Name) (next : Except Err (Value O) → Body H O)

/-- The wrapper: it fills `package.preload` and requires the entry. -/
structure Wrapper (H O : Type) where
  mods : List (Name × Body H O)
  entry : Name

/-! ### `require` -/

inductive Chunk (H O : Type)
  | body (b : Body H O)
  | wrapper (w : Wrapper H O)

/-- The files that the loaders find. The `.vlbc` loader comes after that of `.lua` files. -/
structure Loaders (H O : Type) where
  lua : Name → Option (Body H O)
  vlbc : Name → Option (Wrapper H O)
  native : Name → Option (Body H O)

/-- An entry of `package.loaded`; what was not loaded is `nil`. -/
inductive Entry (O : Type)
  | sentinel
  | value (v : Value O)

structure State (H O : Type) where
  loaded : Name → Entry O
  preload : Name → Option (Body H O)
  heap : H
  /-- the modules whose bodies were run, the last one at the end -/
  ran : List Name

namespace State

variable (s : State H O)

def setLoaded (name : Name) (e : Entry O) : State H O :=
  { s with loaded := Function.update s.loaded name e }

def setPreload (mods : List (Name × Body H O)) : State H O :=
  { s with
    preload := mods.foldl (fun preload p => Function.update preload p.1 (some p.2)) s.preload }

/-- The first of the loaders that finds the module. -/
def find (env : Loaders H O) (name : Name) : Option (Chunk H O) :=
  ((s.preload name).map .body <|> (env.lua name).map .body) <|>
    ((env.vlbc name).map .wrapper <|> (env.native name).map .body)

/-- A value that is not `nil` goes into `package.loaded`. -/
def store (name : Name) : Value O → State H O
  | .nil => s
  | .bool b => s.setLoaded name (.value (.bool b))
  | .obj o => s.setLoaded name (.value (.obj o))

/-- What `require` returns after a module was run. -/
def finish (name : Name) (v : Value O) : Except Err (Value O) × State H O :=
  match (s.store name v).loaded name with
  | .sentinel => (.ok (.bool true), (s.store name v).setLoaded name (.value (.bool true)))
  | .value w => (.ok w, s.store name v)

end State

/-- A result that is `none` stands for a run that is not over yet. -/
abbrev Run (H O : Type) := Option (Except Err (Value O) × State H O)

section

variable (req : Name → State H O → Run H O)

def runBody : Body H O → State H O → Run H O
  | .done v, s => some (.ok v, s)
  | .raise text, s => some (.error (.raised text), s)
  | .act f next, s => runBody (next (f s.heap)) { s with heap := f s.heap }
  | .require name next, s =>
    match req name s with
    | none => none
    | some (r, s) => runBody (next r) s

def runChunk (name : Name) (s : State H O) : Chunk H O → Run H O
  | .body b => runBody req b { s with ran := s.ran ++ [name] }
  | .wrapper w => req w.entry (s.setPreload w.mods)

/-- A module is marked and run, and its value is stored. The mark stays when an error is raised. -/
def load (name : Name) (s : State H O) (chunk : Chunk H O) : Run H O :=
  match runChunk req name (s.setLoaded name .sentinel) chunk with
  | none => none
  | some (.error e, s) => some (.error e, s)
  | some (.ok v, s) => some (s.finish name v)

end

/-- `require`. -/
def require (env : Loaders H O) : Nat → Name → State H O → Run H O
  | 0, _, _ => none
  | fuel + 1, name, s =>
    match s.loaded name with
    | .sentinel => some (.error (.loop name), s)
    | .value v =>
      if v.truthy then some (.ok v, s)
      else
        match s.find env name with
        | none => some (.error (.notFound name), s)
        | some chunk => load (require env fuel) name s chunk

/-! ### `bundle_to_bc` -/

/-- The text of a module: the names that are literally required in it, and what it does. -/
structure Source (H O : Type) where
  requires : List Name
  body : Body H O

/-- What is found at pack time; a file may have another ending than `.lua`. -/
structure Tree (H O : Type) where
  path : Name → Option (Option (Source H O))
  cpath : Name → Bool

/-- `DEFAULT_SKIP` -/
def defaultSkip : List Name :=
  ["bit", "ffi", "jit", "debug", "io", "os", "string", "table", "math", "package", "coroutine",
    "bit32", "inspect", "verilua", "pl"].map String.toList

/-- The table of the names to leave out; the options go over the defaults. -/
def skipTable (skip : List (Name × Bool)) (name : Name) : Bool :=
  (skip.lookup name).getD (defaultSkip.contains name)

def shouldSkip (name : Name) (skip : Name → Bool) : Bool :=
  skip name || (name.takeWhile (· ≠ '.') ≠ [] && skip (name.takeWhile (· ≠ '.')))

inductive PackError
  | notFound (name : Name)
  | noSource (entry : Name)
  | emptyName
  | outOfFuel

structure Collected (H O : Type) where
  srcs : List (Name × Source H O)
  visiting : List Name

def collect (tree : Tree H O) (skip : Name → Bool) :
    Nat → Name → Collected H O → Except PackError (Collected H O)
  | 0, _, _ => .error .outOfFuel
  | fuel + 1, name, σ =>
    if (σ.srcs.lookup name).isSome || shouldSkip name skip || σ.visiting.contains name then .ok σ
    else
      match tree.path name with
      | none => if tree.cpath name then .ok σ else .error (.notFound name)
      | some none => .ok σ
      | some (some src) => do
        let σ ← src.requires.foldlM (fun σ dep => collect tree skip fuel dep σ)
          { σ with visiting := name :: σ.visiting }
        return ⟨σ.srcs ++ [(name, src)], σ.visiting.filter (· ≠ name)⟩

def bundleToBc (tree : Tree H O) (skip : List (Name × Bool)) (fuel : Nat) (entry : Name) :
    Except PackError (Wrapper H O) := do
  if entry = [] then throw .emptyName
  let σ ← collect tree (skipTable skip) fuel entry ⟨[], []⟩
  if (σ.srcs.lookup entry).isNone then throw (.noSource entry)
  return ⟨σ.srcs.map fun p => (p.1, p.2.body), entry⟩

/-- The same loaders where the sources are installed in place of sealed files. -/
def Loaders.fromSources (env : Loaders H O) (tree : Tree H O) : Loaders H O where
  lua name := (tree.path name).bind fun file => file.map Source.body
  vlbc _ := none
  native := env.native

end Verilua.Bundle
