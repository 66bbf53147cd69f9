import Mathlib.Algebra.Order.Field.Rat
import Mathlib.Logic.Function.Basic
import Mathlib.Data.List.Nodup
import Mathlib.Data.List.Pairwise

/-!
# The coverage of a hierarchy

`cov_exporter` writes counters into the modules of a design, with a `getCoverage` and a
`getCondCoverage` for each instance, and a file that lists the instances and the number of items of
each module. `CoverageGetter` adds the coverage of a subtree up from these. The numbers are exact
here; `none` stands for the one that Lua has instead where it divides by 0.
-/

namespace Verilua.Coverage

abbrev HierPath := List Char

abbrev ModuleName := List Char

/-- What `get_coverage` and `get_cond_coverage` count: all items, or the conditions only. -/
inductive Kind
  | all
  | cond
  deriving DecidableEq

/-! ### What is exported -/

structure Statistic where
  netCount : ℕ
  varCount : ℕ
  binExprCount : ℕ

/-- An exported module, with its instances and the modules that are instantiated below it. -/
structure CoverageInfo where
  moduleName : ModuleName
  hierPaths : List HierPath
  statistic : Statistic
  subModuleSet : List ModuleName

def CoverageInfo.count (info : CoverageInfo) : Kind → ℕ
  | .all => info.statistic.netCount + info.statistic.varCount + info.statistic.binExprCount
  | .cond => info.statistic.binExprCount

/-- The counters of an instance: those of its nets and variables, and those of its conditions. -/
structure Counters where
  toggles : List ℤ
  conds : List ℤ

namespace Counters

def cntSignals (counters : Counters) : Kind → List ℤ
  | .all => counters.toggles ++ counters.conds
  | .cond => counters.conds

def hits (counters : Counters) (kind : Kind) : ℕ :=
  (counters.cntSignals kind).countP (1 ≤ ·)

/-- The generated `getCoverage` and `getCondCoverage`. -/
def coverage (counters : Counters) (kind : Kind) : ℚ :=
  if (counters.cntSignals kind).isEmpty then 1
  else counters.hits kind / (counters.cntSignals kind).length

end Counters

/-- A number of Lua. -/
abbrev Number := Option ℚ

def Number.div (a b : ℕ) : Number :=
  if b = 0 then none else some (a / b)

/-- `acc + coverage * percent` -/
def Number.addMul (acc : Number) (coverage : ℚ) (percent : Number) : Number := do
  return (← acc) + coverage * (← percent)

/-- `module_to_percent`, by the name of the module. -/
abbrev ModuleToPercent := List (ModuleName × Number)

/-- A design with counters, the exported modules of it, and the order in which `pairs` goes through
a table. A module that is instantiated at the top is the name of its instance. -/
structure Design where
  infos : List CoverageInfo
  counters : HierPath → Option Counters
  pairs : ModuleToPercent → ModuleToPercent
  names_nodup : (infos.map (·.moduleName)).Nodup
  paths_nodup : (infos.flatMap (·.hierPaths)).Nodup
  subs_nodup : ∀ info ∈ infos, info.subModuleSet.Nodup
  subs_exported : ∀ info ∈ infos, ∀ name ∈ info.subModuleSet, ∃ sub ∈ infos, sub.moduleName = name
  self_notMem : ∀ info ∈ infos, info.moduleName ∉ info.subModuleSet
  top_name : ∀ info ∈ infos, ∀ hier ∈ info.hierPaths, '.' ∉ hier → info.moduleName = hier
  counters_size : ∀ info ∈ infos, ∀ hier ∈ info.hierPaths, ∃ c, counters hier = some c ∧
    c.toggles.length = info.statistic.netCount + info.statistic.varCount ∧
    c.conds.length = info.statistic.binExprCount
  pairs_perm : ∀ table, (pairs table).Perm table

/-! ### The getter -/

/-- What `CoverageGetter` and the simulator keep between the queries. -/
structure Getter where
  moduleToPercentCache : ModuleName → Option ModuleToPercent
  scope : Option HierPath
  coverageValue : ℚ

/-- As it is loaded. -/
def Getter.fresh : Getter where
  moduleToPercentCache := fun _ => none
  scope := none
  coverageValue := 0

/-- What a call gives back, `none` if it is an error, and what it leaves behind. -/
abbrev Call := OptionT (StateM Getter)

namespace Call

variable {α β : Type}

def perform (call : Call α) (g : Getter) : Option α × Getter :=
  call.run.run g

@[simp] lemma perform_pure (a : α) (g : Getter) : perform (pure a) g = (some a, g) := rfl

@[simp] lemma perform_get (g : Getter) : perform get g = (some g, g) := rfl

@[simp] lemma perform_modify (f : Getter → Getter) (g : Getter) :
    perform (modify f) g = (some (), f g) := rfl

@[simp] lemma perform_getM (o : Option α) (g : Getter) : perform o.getM g = (o, g) := by
  cases o <;> rfl

lemma perform_bind (call : Call α) (f : α → Call β) (g : Getter) :
    perform (call >>= f) g = match perform call g with
      | (some a, g') => perform (f a) g'
      | (none, g') => (none, g') := by
  simp only [perform, OptionT.run_bind, Option.elimM, StateT.run_bind]
  rcases StateT.run call.run g with ⟨_ | a, g'⟩ <;> rfl

end Call

/-- `svSetScope(svGetScopeFromName(hier))` -/
def setDpiScope (hier : HierPath) : Call Unit :=
  modify fun g => { g with scope := some hier }

namespace Design

variable (D : Design)

/-- `exportedModules[name]` -/
def exportedModule (name : ModuleName) : Option CoverageInfo :=
  D.infos.find? (·.moduleName = name)

/-- `hierPathToModuleName[hier]`, where a later module overwrites an earlier one. -/
def hierPathToModuleName (hier : HierPath) : Option ModuleName :=
  (D.infos.reverse.find? (·.hierPaths.contains hier)).map (·.moduleName)

/-- `self.getCoverage(self.coverage_value)`, or `getCondCoverage`, in the scope that is set. -/
def callCoverage (kind : Kind) : Call Unit := do
  let counters ← ((← get).scope.bind D.counters).getM
  modify fun g => { g with coverageValue := counters.coverage kind }

def readCoverage (kind : Kind) (hier : HierPath) : Call ℚ := do
  setDpiScope hier
  D.callCoverage kind
  return (← get).coverageValue

/-- The share of each module in the items, for a module with submodules. The submodules are a set,
and the module is not one of them. -/
def moduleToPercent (kind : Kind) (info : CoverageInfo) : Option ModuleToPercent := do
  let submodules ← info.subModuleSet.mapM D.exportedModule
  let currModuleCount := info.count kind
  let totalCount :=
    (submodules.map fun sub => sub.count kind * sub.hierPaths.length).sum + currModuleCount
  return submodules.map (fun sub => (sub.moduleName, Number.div (sub.count kind) totalCount)) ++
    [(info.moduleName, Number.div currModuleCount totalCount)]

/-- The instances of a module of the table. -/
def hiersOf (name : ModuleName) (hier : HierPath) (m : ModuleName) : Option (List HierPath) :=
  if m = name then some [hier] else (D.exportedModule m).map (·.hierPaths)

/-- The loop over the table. -/
def accCoverage (kind : Kind) (name : ModuleName) (hier : HierPath) (table : ModuleToPercent) :
    Call Number :=
  (D.pairs table).foldlM (fun acc entry => do
    let hiers ← (D.hiersOf name hier entry.1).getM
    hiers.foldlM (fun acc h => do
      return acc.addMul (← D.readCoverage kind h) entry.2) acc) (some 0)

/-- The branch for `recursive`, from where the path is known. The cache does not tell the two kinds
apart. -/
def recursiveCoverage (kind : Kind) (hier : HierPath) : Call Number := do
  let name ← (D.hierPathToModuleName hier).getM
  match (← get).moduleToPercentCache name with
  | some table => D.accCoverage kind name hier table
  | none =>
    let info ← (D.exportedModule name).getM
    if info.subModuleSet.isEmpty then
      return some (← D.readCoverage kind hier)
    else
      let table ← (D.moduleToPercent kind info).getM
      modify fun g =>
        { g with moduleToPercentCache := Function.update g.moduleToPercentCache name (some table) }
      D.accCoverage kind name hier table

/-- The path that `get_coverage` is asked about. A text without a dot is the name of a module. -/
def hierOf (hierOrModule : List Char) : Option HierPath :=
  if '.' ∈ hierOrModule then some hierOrModule
  else do
    match (← D.exportedModule hierOrModule).hierPaths with
    | [hier] => some hier
    | _ => none

def getCoverage (hierOrModule : List Char) (recursive : Bool) : Call Number := do
  if recursive then
    let hier ← (D.hierOf hierOrModule).getM
    D.recursiveCoverage .all hier
  else
    return some (← D.readCoverage .all hierOrModule)

def getCondCoverage (hier : HierPath) (recursive : Bool) : Call Number := do
  if recursive then D.recursiveCoverage .cond hier
  else return some (← D.readCoverage .cond hier)

end Design

/-- A query of the one kind or the other. -/
structure Query where
  kind : Kind
  hier : List Char
  recursive : Bool

namespace Design

variable (D : Design)

def ask (q : Query) : Call Number :=
  match q.kind with
  | .all => D.getCoverage q.hier q.recursive
  | .cond => D.getCondCoverage q.hier q.recursive

/-- The getter after some queries; one that ends with an error may have set the scope. -/
def run (past : List Query) (g : Getter) : Getter :=
  past.foldl (fun g q => ((D.ask q).perform g).2) g

/-! ### The exported modules -/

variable {D}

lemma exportedModule_eq {info : CoverageInfo} (hinfo : info ∈ D.infos) :
    D.exportedModule info.moduleName = some info := by
  obtain ⟨found, hfound⟩ := Option.isSome_iff_exists.1
    (List.find?_isSome.2 ⟨info, hinfo, decide_eq_true rfl⟩ :
      (D.exportedModule info.moduleName).isSome)
  have hname : found.moduleName = info.moduleName := of_decide_eq_true (List.find?_some hfound :)
  rw [exportedModule, hfound,
    List.inj_on_of_nodup_map D.names_nodup (List.mem_of_find?_eq_some hfound) hinfo hname]

lemma eq_of_exportedModule {name : ModuleName} {info : CoverageInfo}
    (h : D.exportedModule name = some info) : info ∈ D.infos ∧ info.moduleName = name :=
  ⟨List.mem_of_find?_eq_some h, of_decide_eq_true (List.find?_some h :)⟩

lemma eq_of_mem_hierPaths {info info' : CoverageInfo} {hier : HierPath} (hinfo : info ∈ D.infos)
    (hinfo' : info' ∈ D.infos) (hhier : hier ∈ info.hierPaths) (hhier' : hier ∈ info'.hierPaths) :
    info = info' := by
  by_contra hne
  have : Std.Symm (Function.onFun List.Disjoint CoverageInfo.hierPaths) :=
    ⟨fun _ _ h _ ha hb => h hb ha⟩
  exact (List.nodup_flatMap.1 D.paths_nodup).2.forall hinfo hinfo' hne hhier hhier'

lemma hierPathToModuleName_eq {info : CoverageInfo} {hier : HierPath} (hinfo : info ∈ D.infos)
    (hhier : hier ∈ info.hierPaths) : D.hierPathToModuleName hier = some info.moduleName := by
  obtain ⟨found, hfound⟩ := Option.isSome_iff_exists.1
    (List.find?_isSome.2 ⟨info, List.mem_reverse.2 hinfo, List.contains_iff_mem.2 hhier⟩ :
      (D.infos.reverse.find? (·.hierPaths.contains hier)).isSome)
  have hmem := List.mem_reverse.1 (List.mem_of_find?_eq_some hfound)
  have hpath : hier ∈ found.hierPaths := List.contains_iff_mem.1 (List.find?_some hfound :)
  rw [hierPathToModuleName, hfound, eq_of_mem_hierPaths hmem hinfo hpath hhier]
  rfl

lemma mapM_exportedModule {info : CoverageInfo} (hinfo : info ∈ D.infos) :
    ∃ subs, info.subModuleSet.mapM D.exportedModule = some subs ∧
      info.subModuleSet.filterMap D.exportedModule = subs ∧
      ∀ sub ∈ subs, sub ∈ D.infos ∧ sub.moduleName ≠ info.moduleName := by
  have hall : ∀ name ∈ info.subModuleSet, ∃ sub, D.exportedModule name = some sub := fun name h => by
    obtain ⟨sub, hsub, rfl⟩ := D.subs_exported info hinfo name h
    exact ⟨sub, exportedModule_eq hsub⟩
  have hself := D.self_notMem info hinfo
  generalize info.subModuleSet = names at hall hself
  induction names with
  | nil => exact ⟨[], rfl, rfl, fun _ h => absurd h List.not_mem_nil⟩
  | cons name names ih =>
    obtain ⟨sub, hsub⟩ := hall name List.mem_cons_self
    obtain ⟨subs, hmapM, hfilterMap, hsubs⟩ :=
      ih (fun name' h => hall name' (List.mem_cons_of_mem _ h))
        fun h => hself (List.mem_cons_of_mem _ h)
    refine ⟨sub :: subs, by simp [List.mapM_cons, hsub, hmapM],
      by rw [List.filterMap_cons_some hsub, hfilterMap], List.forall_mem_cons.2 ⟨?_, hsubs⟩⟩
    obtain ⟨hmem, rfl⟩ := eq_of_exportedModule hsub
    exact ⟨hmem, fun h => hself (h ▸ List.mem_cons_self)⟩

end Design

end Verilua.Coverage
