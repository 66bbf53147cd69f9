import Verilua.Hierarchy.Cache
import Mathlib.Data.List.Nodup
import Mathlib.Data.List.Sort
import Mathlib.Data.String.Basic

/-!
# The collection of the hierarchy

The walk of `hierarchy_collect.rs` over the modules that the VPI shows, and
`vpiml_collect_hierarchy`, which filters what the walk or the cache gives.
-/

namespace Verilua.Hierarchy

/-- The types that leaf objects are iterated by. -/
inductive ObjectType
  | vpiNet
  | vpiReg
  | vpiMemory
  deriving DecidableEq, Repr

def objectTypes : List ObjectType := [.vpiNet, .vpiReg, .vpiMemory]

/-- What `vpi_scan` gives for a leaf object: its `vpiName`, if that is a string, and its
`vpiSize`. -/
structure VpiObject where
  name : Option String
  size : Int

/-- What the VPI shows of a module: its `vpiName` and `vpiDefName`, if they are strings, its leaf
objects, and the modules in it. -/
inductive VpiModule
  | mk (name : Option String) (defName : Option String) (objects : ObjectType → List VpiObject)
      (children : List VpiModule)

/-- The entries in the order of the walk, and the paths that are taken. -/
structure Collected where
  entries : List HierarchyEntry
  seenPaths : List String

def Collected.empty : Collected := ⟨[], []⟩

/-- The first entry of the path gets the signal type `reg`. -/
def upgradeFirst (fullPath : String) : List HierarchyEntry → List HierarchyEntry
  | [] => []
  | entry :: entries =>
    if entry.fullPath = fullPath then { entry with sigType := some "reg" } :: entries
    else entry :: upgradeFirst fullPath entries

def pushHierarchyEntry (c : Collected) (entry : HierarchyEntry) : Collected :=
  if entry.fullPath ∈ c.seenPaths then
    if entry.sigType = some "reg" then
      { c with entries := upgradeFirst entry.fullPath c.entries }
    else c
  else ⟨c.entries ++ [entry], entry.fullPath :: c.seenPaths⟩

def childPath (parentPath childName : String) : String :=
  if parentPath = "" then childName else parentPath ++ "." ++ childName

/-- The path of a leaf object; a name with a dot in it is a path already. -/
def objectPath (fullPath objName : String) : String :=
  if '.' ∈ objName.toList then objName else fullPath ++ "." ++ objName

def sigType : ObjectType → String
  | .vpiNet => "wire"
  | .vpiReg => "reg"
  | .vpiMemory => "reg"

def moduleEntry (fullPath : String) (defName : Option String) (level : Int) : HierarchyEntry where
  fullPath := fullPath
  moduleName := defName.filter (· ≠ "")
  sigType := none
  level := level
  bitwidth := -1

def objectEntry (fullPath objName : String) (type : ObjectType) (level size : Int) :
    HierarchyEntry where
  fullPath := objectPath fullPath objName
  moduleName := none
  sigType := some (sigType type)
  level := level + 1
  bitwidth := size

/-- The scan of one iterator; the names that a module showed before are skipped. -/
def scanObjects (fullPath : String) (level : Int) (type : ObjectType) :
    List VpiObject → List String × Collected → List String × Collected
  | [], acc => acc
  | obj :: objs, (visited, c) =>
    match obj.name with
    | none => scanObjects fullPath level type objs (visited, c)
    | some objName =>
      if objName ∈ visited then scanObjects fullPath level type objs (visited, c)
      else scanObjects fullPath level type objs
        (objName :: visited,
          pushHierarchyEntry c (objectEntry fullPath objName type level obj.size))

def collectObjects (fullPath : String) (level : Int) (objects : ObjectType → List VpiObject)
    (c : Collected) : Collected :=
  (objectTypes.foldl (fun acc type => scanObjects fullPath level type (objects type) acc)
    ([], c)).2

mutual

/-- One turn of the loop of `vpiml_collect_hierarchy_recursive`. -/
def collectModule (maxLevel : Int) :
    VpiModule → (parentPath : String) → (level : Int) → Collected → Collected
  | .mk none _ _ _, _, _, c => c
  | .mk (some childName) defName objects children, parentPath, level, c =>
    let fullPath := childPath parentPath childName
    let c := pushHierarchyEntry c (moduleEntry fullPath defName level)
    let c := if maxLevel = 0 ∨ level < maxLevel then collectObjects fullPath level objects c else c
    if maxLevel ≠ 0 ∧ level + 1 > maxLevel then c
    else collectModules maxLevel children fullPath (level + 1) c

def collectModules (maxLevel : Int) :
    List VpiModule → (parentPath : String) → (level : Int) → Collected → Collected
  | [], _, _, c => c
  | child :: rest, parentPath, level, c =>
    collectModules maxLevel rest parentPath level
      (collectModule maxLevel child parentPath level c)

end

/-- `vpiml_collect_hierarchy_recursive`; the modules are what `vpi_iterate` gives. -/
def collectHierarchyRecursive (maxLevel : Int) (modules : List VpiModule) (parentPath : String)
    (level : Int) (c : Collected) : Collected :=
  if maxLevel ≠ 0 ∧ level > maxLevel then c
  else collectModules maxLevel modules parentPath level c

/-- By path, and by level for one path. -/
def entryLe (a b : HierarchyEntry) : Bool :=
  decide (a.fullPath < b.fullPath ∨ a.fullPath = b.fullPath ∧ a.level ≤ b.level)

def collectHierarchyEntries (modules : List VpiModule) (maxLevel : Int) : List HierarchyEntry :=
  (collectHierarchyRecursive maxLevel modules "" 0 .empty).entries.mergeSort entryLe

/-! ### The request -/

/-- The messages of `vpiml_collect_hierarchy`. -/
inductive HierError
  | moduleNameOnlyFsdb
  | showDefNameOnlyFsdb
  | internalNullCb
  | unsupportedDpi
  deriving DecidableEq, Repr

def HierError.message : HierError → String
  | .moduleNameOnlyFsdb =>
    "[get_hierarchy] `module_name` is only supported for FSDB waveform in wave_vpi backend."
  | .showDefNameOnlyFsdb =>
    "[print_hierarchy] `show_def_name` is only supported for FSDB waveform in wave_vpi backend."
  | .internalNullCb =>
    "[print_hierarchy/get_hierarchy] vpiml_collect_hierarchy failed: callback is null."
  | .unsupportedDpi =>
    "[print_hierarchy/get_hierarchy] hierarchy collection is not supported in DPI mode."

/-- What the callback is called with. -/
structure HierarchyItem where
  fullPath : String
  name : String
  moduleName : Option String
  sigType : Option String
  level : Int
  bitwidth : Int
  deriving DecidableEq

/-- The arguments of `vpiml_collect_hierarchy`. -/
structure Request where
  maxLevel : Int
  wildcard : Option String
  moduleName : Option String
  includeTreePrefixes : Bool
  requireModuleNameData : Bool
  /-- Whether a callback is given. -/
  cb : Bool

/-- The white space of Unicode, which `str::trim` removes. -/
def isWhiteSpace (c : Char) : Bool :=
  (9 ≤ c.toNat && c.toNat ≤ 13) || c.toNat == 0x20 || c.toNat == 0x85 || c.toNat == 0xA0 ||
  c.toNat == 0x1680 || (0x2000 ≤ c.toNat && c.toNat ≤ 0x200A) || c.toNat == 0x2028 ||
  c.toNat == 0x2029 || c.toNat == 0x202F || c.toNat == 0x205F || c.toNat == 0x3000

/-- `str::trim` -/
def trim (s : List Char) : List Char :=
  ((s.dropWhile isWhiteSpace).reverse.dropWhile isWhiteSpace).reverse

/-- `parse_wildcard_matchers`: the patterns that are compiled. -/
def parseWildcardMatchers (wildcard : Option String) : List String :=
  match wildcard with
  | none => []
  | some rawPattern =>
    (((rawPattern.toList.splitOn ',').map trim).filter (· ≠ [])).map String.ofList

/-- `CString::new` -/
def cString (s : String) : Option String := if '\x00' ∈ s.toList then none else some s

/-- The part of the path behind the last dot. -/
def lastSegment (fullPath : String) : String :=
  String.ofList ((fullPath.toList.splitOn '.').getLastD fullPath.toList)

/-- `emit_hierarchy_entry`: what the callback gets, if it is called. -/
def emitHierarchyEntry (entry : HierarchyEntry) : Option HierarchyItem := do
  let fullPath ← cString entry.fullPath
  let name ← cString (lastSegment entry.fullPath)
  some {
    fullPath
    name
    moduleName := entry.moduleName.bind cString
    sigType := entry.sigType.bind cString
    level := entry.level
    bitwidth := entry.bitwidth }

/-- The path and the paths above it. -/
def prefixes (fullPath : String) : List String :=
  ((fullPath.toList.splitOn '.').foldl (fun (acc : List Char × List (List Char)) seg =>
    let pre := if acc.1 = [] then seg else acc.1 ++ '.' :: seg
    (pre, acc.2 ++ [pre])) ([], [])).2.map String.ofList

section Request

-- `WildMatch::new(pattern).matches(path)`
variable (wildMatch : String → String → Bool)

def entryMatches (entry : HierarchyEntry) (wildcardMatchers : List String)
    (moduleNameFilter : Option String) : Bool :=
  (wildcardMatchers.isEmpty || wildcardMatchers.any fun m => wildMatch m entry.fullPath) &&
  moduleNameFilter.all fun filter => entry.moduleName = some filter

/-- What `vpiml_collect_hierarchy` does with all entries: the calls of the callback, in order. -/
def respond (r : Request) (allEntries : List HierarchyEntry) :
    Except HierError (List HierarchyItem) :=
  let wildcardMatchers := parseWildcardMatchers r.wildcard
  let moduleNameFilter := r.moduleName.filter (· ≠ "")
  let entries :=
    if r.maxLevel = 0 then allEntries
    else allEntries.filter fun entry => decide (entry.level ≤ r.maxLevel)
  let hasModuleNameData := entries.any fun entry => entry.moduleName.isSome
  let needModuleNameData := moduleNameFilter.isSome || r.requireModuleNameData
  if needModuleNameData && !hasModuleNameData then
    .error (if moduleNameFilter.isSome then .moduleNameOnlyFsdb else .showDefNameOnlyFsdb)
  else if r.includeTreePrefixes && !wildcardMatchers.isEmpty then
    let visiblePaths := (entries.filter fun entry =>
      entryMatches wildMatch entry wildcardMatchers moduleNameFilter).flatMap fun entry =>
        prefixes entry.fullPath
    .ok ((entries.filter fun entry => decide (entry.fullPath ∈ visiblePaths)).filterMap
      emitHierarchyEntry)
  else
    .ok ((entries.filter fun entry =>
      entryMatches wildMatch entry wildcardMatchers moduleNameFilter).filterMap
      emitHierarchyEntry)

/-- `vpiml_collect_hierarchy` without the feature `hierarchy_cache`. -/
def collectHierarchy (dpi : Bool) (modules : List VpiModule) (r : Request) :
    Except HierError (List HierarchyItem) :=
  if dpi then .error .unsupportedDpi
  else if r.cb = false then .error .internalNullCb
  else respond wildMatch r (collectHierarchyEntries modules r.maxLevel)

/-- What the cache is in the process and on the disk, and what is known of the source. -/
structure CacheState where
  hierarchyCache : Option (List HierarchyEntry)
  cacheFile : Option (List UInt8)
  sourcePath : Option String
  currentMtime : Option UInt64

/-- `get_or_init_hierarchy_cache`, where the cache file can be created. -/
def getOrInitHierarchyCache (modules : List VpiModule) (s : CacheState) :
    Codec.Outcome (List HierarchyEntry × CacheState) :=
  match s.hierarchyCache with
  | some entries => .value (entries, s)
  | none =>
    match tryLoadCache s.cacheFile s.currentMtime s.sourcePath with
    | .value entries => .value (entries, { s with hierarchyCache := some entries })
    | .panic => .panic
    | .fail =>
      let collected := collectHierarchyEntries modules 0
      .value (collected,
        { s with
          hierarchyCache := some collected
          cacheFile := some (saveCache collected s.currentMtime s.sourcePath).items })

/-- `vpiml_collect_hierarchy` with the feature `hierarchy_cache`. -/
def collectHierarchyCached (dpi : Bool) (modules : List VpiModule) (r : Request) (s : CacheState) :
    Codec.Outcome (Except HierError (List HierarchyItem) × CacheState) :=
  if dpi then .value (.error .unsupportedDpi, s)
  else if r.cb = false then .value (.error .internalNullCb, s)
  else do
    let (allEntries, s) ← getOrInitHierarchyCache modules s
    .value (respond wildMatch r allEntries, s)

/-- The answers to a run of requests in one process. -/
def answers (dpi : Bool) (modules : List VpiModule) :
    List Request → CacheState → Codec.Outcome (List (Except HierError (List HierarchyItem)))
  | [], _ => .value []
  | r :: rs, s => do
    let (answer, s) ← collectHierarchyCached wildMatch dpi modules r s
    let rest ← answers dpi modules rs s
    .value (answer :: rest)

end Request

end Verilua.Hierarchy
