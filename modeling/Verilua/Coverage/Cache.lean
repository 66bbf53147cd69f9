import Verilua.Coverage.Basic
import Mathlib.Data.List.Induction

/-!
# What the getter keeps

The scope and the buffer are written before they are read, so that only the tables in the cache
outlive a query. They are kept by the name of the module alone: the first recursive query about a
module decides of which kind its shares are.
-/

namespace Verilua.Coverage

/-! ### Calls that do not depend on the state -/

namespace Call

variable {α β : Type}

/-- The call gives the same in every state, and leaves the cache alone. -/
def Gives (call : Call α) (r : Option α) : Prop :=
  ∀ g, ∃ g', call.perform g = (r, g') ∧ g'.moduleToPercentCache = g.moduleToPercentCache

lemma Gives.pure (a : α) : Gives (Pure.pure a) (some a) :=
  fun g => ⟨g, rfl, rfl⟩

lemma Gives.getM (o : Option α) : Gives o.getM o :=
  fun g => ⟨g, perform_getM o g, rfl⟩

lemma Gives.bind {call : Call α} {r : Option α} {f : α → Call β} {s : α → Option β}
    (hcall : call.Gives r) (hf : ∀ a, (f a).Gives (s a)) : (call >>= f).Gives (r.bind s) := by
  intro g
  obtain ⟨g', hg', hcache⟩ := hcall g
  rw [perform_bind, hg']
  cases r with
  | none => exact ⟨g', rfl, hcache⟩
  | some a =>
    obtain ⟨g'', hg'', hcache'⟩ := hf a g'
    exact ⟨g'', hg'', hcache'.trans hcache⟩

lemma Gives.foldlM {f : β → α → Call β} {s : β → α → Option β}
    (hf : ∀ b a, (f b a).Gives (s b a)) (l : List α) (b : β) :
    (l.foldlM f b).Gives (l.foldlM s b) := by
  induction l generalizing b with
  | nil => exact Gives.pure b
  | cons a l ih => exact (hf b a).bind ih

end Call

namespace Design

variable (D : Design)

lemma readCoverage_gives (kind : Kind) (hier : HierPath) :
    (D.readCoverage kind hier).Gives ((D.counters hier).map (·.coverage kind)) := by
  intro g
  refine ⟨(D.readCoverage kind hier |>.perform g).2, Prod.ext ?_ rfl, ?_⟩ <;>
  · simp only [readCoverage, callCoverage, setDpiScope, Call.perform_bind, Call.perform_modify,
      Call.perform_get, Call.perform_getM, Option.bind_some]
    cases D.counters hier <;> rfl

/-- What the loop over the table adds up to. -/
def total (kind : Kind) (name : ModuleName) (hier : HierPath) (table : ModuleToPercent) :
    Option Number :=
  (D.pairs table).foldlM (fun acc entry => (D.hiersOf name hier entry.1).bind fun hiers =>
    hiers.foldlM (fun acc h => ((D.counters h).map (·.coverage kind)).bind fun coverage =>
      some (acc.addMul coverage entry.2)) acc) (some 0)

lemma accCoverage_gives (kind : Kind) (name : ModuleName) (hier : HierPath)
    (table : ModuleToPercent) :
    (D.accCoverage kind name hier table).Gives (D.total kind name hier table) :=
  Call.Gives.foldlM (fun _ _ => (Call.Gives.getM _).bind fun hiers =>
    Call.Gives.foldlM (fun _ h => (D.readCoverage_gives kind h).bind fun _ => Call.Gives.pure _)
      hiers _) _ _

/-! ### One query -/

/-- The path that a recursive query is about. -/
def target (q : Query) : Option HierPath :=
  match q.kind with
  | .all => D.hierOf q.hier
  | .cond => some q.hier

def own (kind : Kind) (hier : HierPath) : Option Number :=
  (D.counters hier).map fun counters => some (counters.coverage kind)

/-- The table of a module by its name. -/
def table (kind : Kind) (name : ModuleName) : Option ModuleToPercent :=
  (D.exportedModule name).bind (D.moduleToPercent kind)

/-- The module whose table a query needs. -/
def tableOf (q : Query) : Option ModuleName :=
  if q.recursive then do
    let name ← D.hierPathToModuleName (← D.target q)
    if (← D.exportedModule name).subModuleSet.isEmpty then none else some name
  else none

/-- What a query gives with the tables that are in the cache. -/
def result (q : Query) (cache : ModuleName → Option ModuleToPercent) : Option Number :=
  if q.recursive then do
    let hier ← D.target q
    let name ← D.hierPathToModuleName hier
    if (← D.exportedModule name).subModuleSet.isEmpty then D.own q.kind hier
    else D.total q.kind name hier (← (cache name).or (D.table q.kind name))
  else D.own q.kind q.hier

/-- Only modules with submodules are in the cache. -/
def Sound (cache : ModuleName → Option ModuleToPercent) : Prop :=
  ∀ name table, cache name = some table →
    ∃ info, D.exportedModule name = some info ∧ info.subModuleSet.isEmpty = false

variable {D}

lemma own_gives (kind : Kind) (hier : HierPath) :
    Call.Gives (do return some (← D.readCoverage kind hier)) (D.own kind hier) := by
  have h := (D.readCoverage_gives kind hier).bind fun a => Call.Gives.pure (some a)
  rw [own]
  cases hc : D.counters hier with
  | none => rwa [hc] at h
  | some c => rwa [hc] at h

lemma exists_table {info : CoverageInfo} (kind : Kind) (hinfo : info ∈ D.infos) :
    ∃ table, D.table kind info.moduleName = some table ∧
      D.moduleToPercent kind info = some table := by
  obtain ⟨subs, hsubs, -⟩ := mapM_exportedModule hinfo
  rw [table, exportedModule_eq hinfo, Option.bind_some, moduleToPercent, hsubs]
  exact ⟨_, rfl, rfl⟩

lemma mem_of_hierPathToModuleName {hier : HierPath} {name : ModuleName}
    (h : D.hierPathToModuleName hier = some name) :
    ∃ info ∈ D.infos, info.moduleName = name ∧ D.exportedModule name = some info := by
  obtain ⟨info, hinfo, rfl⟩ := Option.map_eq_some_iff.1 h
  have hmem := List.mem_reverse.1 (List.mem_of_find?_eq_some hinfo)
  exact ⟨info, hmem, rfl, exportedModule_eq hmem⟩

section Recursive

variable {kind : Kind} {hier : HierPath} {info : CoverageInfo} {g : Getter}

lemma recursiveCoverage_of_isEmpty (hinfo : info ∈ D.infos)
    (hname : D.hierPathToModuleName hier = some info.moduleName)
    (hleaf : info.subModuleSet.isEmpty = true)
    (hcache : g.moduleToPercentCache info.moduleName = none) :
    ∃ g', (D.recursiveCoverage kind hier).perform g = (D.own kind hier, g') ∧
      g'.moduleToPercentCache = g.moduleToPercentCache := by
  simp only [recursiveCoverage, hname, Call.perform_bind, Call.perform_getM, Call.perform_get,
    hcache, exportedModule_eq hinfo, hleaf, if_true]
  rw [← Call.perform_bind]
  exact own_gives kind hier g

/-- A table that is in the cache is taken, whatever the kind; else the one of the kind is kept. -/
lemma recursiveCoverage_of_table {table : ModuleToPercent} (hinfo : info ∈ D.infos)
    (hname : D.hierPathToModuleName hier = some info.moduleName)
    (hsubs : info.subModuleSet.isEmpty = false)
    (htable : (g.moduleToPercentCache info.moduleName).or (D.table kind info.moduleName) =
      some table) :
    ∃ g', (D.recursiveCoverage kind hier).perform g =
        (D.total kind info.moduleName hier table, g') ∧
      g'.moduleToPercentCache =
        Function.update g.moduleToPercentCache info.moduleName (some table) := by
  simp only [recursiveCoverage, hname, Call.perform_bind, Call.perform_getM, Call.perform_get]
  cases hcache : g.moduleToPercentCache info.moduleName with
  | some kept =>
    rw [hcache, Option.some_or] at htable
    rw [Function.update_eq_self_iff.2 (htable ▸ hcache.symm), Option.some.inj htable]
    exact D.accCoverage_gives kind info.moduleName hier table g
  | none =>
    obtain ⟨fresh, hfresh, hpercent⟩ := exists_table kind hinfo
    rw [hcache, Option.none_or, hfresh] at htable
    obtain rfl := Option.some.inj htable
    simp only [exportedModule_eq hinfo, hsubs, Bool.false_eq_true, if_false, hpercent,
      Call.perform_bind, Call.perform_getM, Call.perform_modify]
    obtain ⟨g', hg', hkept⟩ := D.accCoverage_gives kind info.moduleName hier fresh
      { g with moduleToPercentCache :=
          Function.update g.moduleToPercentCache info.moduleName (some fresh) }
    exact ⟨g', hg', hkept⟩

end Recursive

lemma ask_eq (q : Query) :
    D.ask q = if q.recursive then do D.recursiveCoverage q.kind (← (D.target q).getM)
      else do return some (← D.readCoverage q.kind q.hier) := by
  obtain ⟨kind, hier, recursive⟩ := q
  cases kind <;> rfl

/-- The tables after a query. -/
def cacheAfter (D : Design) (q : Query) (cache : ModuleName → Option ModuleToPercent) :
    ModuleName → Option ModuleToPercent :=
  match D.tableOf q with
  | some name => Function.update cache name ((cache name).or (D.table q.kind name))
  | none => cache

/-- A query depends on the tables in the cache and on nothing else that is kept. -/
lemma ask_spec (q : Query) {g : Getter} (hsound : D.Sound g.moduleToPercentCache) :
    ∃ g', (D.ask q).perform g = (D.result q g.moduleToPercentCache, g') ∧
      g'.moduleToPercentCache = D.cacheAfter q g.moduleToPercentCache := by
  obtain ⟨kind, text, recursive⟩ := q
  cases recursive with
  | false =>
    rw [ask_eq]
    exact own_gives kind text g
  | true =>
    rw [ask_eq, if_pos rfl, Call.perform_bind, Call.perform_getM]
    simp only [result, cacheAfter, tableOf, if_true]
    cases htarget : D.target ⟨kind, text, true⟩ with
    | none => exact ⟨g, rfl, rfl⟩
    | some hier =>
      simp only [Option.bind_eq_bind, Option.bind_some]
      cases hname : D.hierPathToModuleName hier with
      | none =>
        refine ⟨g, ?_, rfl⟩
        simp only [recursiveCoverage, hname, Call.perform_bind, Call.perform_getM]
        rfl
      | some name =>
        obtain ⟨info, hinfo, rfl, hexported⟩ := mem_of_hierPathToModuleName hname
        simp only [Option.bind_some, hexported]
        cases hsubs : info.subModuleSet.isEmpty with
        | true =>
          refine recursiveCoverage_of_isEmpty hinfo hname hsubs ?_
          by_contra hcache
          obtain ⟨table, htable⟩ := Option.ne_none_iff_exists'.1 hcache
          obtain ⟨info', hinfo', hnonempty⟩ := hsound _ _ htable
          rw [hexported] at hinfo'
          cases hinfo'
          exact absurd (hsubs.symm.trans hnonempty) Bool.true_eq_false_eq_False.elim
        | false =>
          obtain ⟨fresh, hfresh, -⟩ := exists_table kind hinfo
          have htable : ∃ table, (g.moduleToPercentCache info.moduleName).or
              (D.table kind info.moduleName) = some table := by
            rw [hfresh]
            cases g.moduleToPercentCache info.moduleName with
            | none => exact ⟨fresh, rfl⟩
            | some kept => exact ⟨kept, rfl⟩
          obtain ⟨table, htable⟩ := htable
          simp only [Bool.false_eq_true, if_false, htable, Option.bind_some]
          exact recursiveCoverage_of_table hinfo hname hsubs htable

/-! ### Runs -/

variable (D) in
/-- The kind of the first query that needed the table of a module. -/
def firstKind (past : List Query) (name : ModuleName) : Option Kind :=
  (past.find? fun q => D.tableOf q = some name).map (·.kind)

variable (D) in
/-- The kind of the shares that a query works with, after others. -/
def usedKind (past : List Query) (q : Query) (name : ModuleName) : Kind :=
  (D.firstKind past name).getD q.kind

variable (D) in
def tables (past : List Query) (name : ModuleName) : Option ModuleToPercent :=
  (D.firstKind past name).bind fun kind => D.table kind name

lemma exists_of_tableOf {q : Query} {name : ModuleName} (h : D.tableOf q = some name) :
    ∃ info ∈ D.infos, info.moduleName = name ∧ info.subModuleSet.isEmpty = false := by
  unfold tableOf at h
  split_ifs at h
  obtain ⟨hier, -, h⟩ := Option.bind_eq_some_iff.1 h
  obtain ⟨name', hname, h⟩ := Option.bind_eq_some_iff.1 h
  obtain ⟨info, hinfo, rfl, hexported⟩ := mem_of_hierPathToModuleName hname
  simp only [hexported, Option.bind_eq_bind, Option.bind_some] at h
  split_ifs at h with hsubs
  obtain rfl := Option.some.inj h
  exact ⟨info, hinfo, rfl, eq_false_of_ne_true hsubs⟩

lemma sound_tables (past : List Query) : D.Sound (D.tables past) := by
  intro name table h
  obtain ⟨kind, hkind, -⟩ := Option.bind_eq_some_iff.1 h
  obtain ⟨q, hq, -⟩ := Option.map_eq_some_iff.1 hkind
  obtain ⟨info, hinfo, rfl, hsubs⟩ := exists_of_tableOf (of_decide_eq_true (List.find?_some hq :))
  exact ⟨info, exportedModule_eq hinfo, hsubs⟩

lemma cacheAfter_tables (past : List Query) (q : Query) :
    D.cacheAfter q (D.tables past) = D.tables (past ++ [q]) := by
  funext name
  have hfirst : D.firstKind (past ++ [q]) name =
      (D.firstKind past name).or (if D.tableOf q = some name then some q.kind else none) := by
    rw [firstKind, firstKind, List.find?_append, Option.map_or]
    by_cases h : D.tableOf q = some name <;> simp [h]
  rw [tables, hfirst, cacheAfter]
  cases hq : D.tableOf q with
  | none => simp [tables]
  | some asked =>
    by_cases hne : asked = name
    · obtain ⟨info, hinfo, rfl, -⟩ := exists_of_tableOf hq
      subst hne
      dsimp only
      rw [Function.update_self, tables, if_pos rfl]
      cases D.firstKind past info.moduleName with
      | none => rfl
      | some kind =>
        obtain ⟨table, htable, -⟩ := exists_table kind hinfo
        simp [htable]
    · dsimp only
      rw [Function.update_of_ne (Ne.symm hne), if_neg fun h => hne (Option.some.inj h), tables,
        Option.or_none]

lemma run_cache (past : List Query) :
    (D.run past .fresh).moduleToPercentCache = D.tables past := by
  induction past using List.reverseRecOn with
  | nil => rfl
  | append_singleton past q ih =>
    have hsound := sound_tables (D := D) past
    rw [← ih] at hsound
    obtain ⟨g', hg', hcache⟩ := ask_spec q hsound
    rw [ih, cacheAfter_tables] at hcache
    rw [run, List.foldl_append]
    exact (congrArg (·.2.moduleToPercentCache) hg').trans hcache

lemma ask_run (past : List Query) (q : Query) :
    ((D.ask q).perform (D.run past .fresh)).1 = D.result q (D.tables past) := by
  have hsound := sound_tables (D := D) past
  rw [← run_cache] at hsound ⊢
  obtain ⟨g', hg', -⟩ := ask_spec q hsound
  rw [hg']

lemma result_congr {q : Query} {cache cache' : ModuleName → Option ModuleToPercent}
    (h : ∀ name, D.tableOf q = some name →
      (cache name).or (D.table q.kind name) = (cache' name).or (D.table q.kind name)) :
    D.result q cache = D.result q cache' := by
  unfold result
  unfold tableOf at h
  split_ifs at h ⊢ with hrecursive
  · refine Option.bind_congr fun hier hhier => Option.bind_congr fun name hname =>
      Option.bind_congr fun info hinfo => ?_
    split_ifs with hsubs
    · rfl
    · rw [h name (by simpa [hhier, hname, hinfo] using hsubs)]
  · rfl

lemma tables_or {past : List Query} {q : Query} {name : ModuleName} (h : D.tableOf q = some name) :
    (D.tables past name).or (D.table q.kind name) = D.table (D.usedKind past q name) name := by
  obtain ⟨info, hinfo, rfl, -⟩ := exists_of_tableOf h
  rw [tables, usedKind]
  cases D.firstKind past info.moduleName with
  | none => rfl
  | some kind =>
    obtain ⟨table, htable, -⟩ := exists_table kind hinfo
    simp [htable]

/-- Two sequences of queries give the module of a query shares that are the same, in that the first
query about it (this one, if there is none) is of the same kind in both, or that the kinds agree on
the module. -/
def SameShares (D : Design) (past past' : List Query) (q : Query) : Prop :=
  ∀ name, D.tableOf q = some name →
    D.table (D.usedKind past q name) name = D.table (D.usedKind past' q name) name

/-- What a query gives depends on the earlier ones through the shares of its module only. -/
theorem ask_run_eq (D : Design) (past past' : List Query) (q : Query)
    (h : D.SameShares past past' q) :
    ((D.ask q).perform (D.run past .fresh)).1 = ((D.ask q).perform (D.run past' .fresh)).1 := by
  rw [ask_run, ask_run]
  refine result_congr fun name hname => ?_
  rw [tables_or hname, tables_or hname]
  exact h name hname

/-- A module `m` with an instance of a submodule `s`, which has another instance elsewhere. -/
def shared : Design where
  infos := [⟨['m'], [['t', '.', 'm']], ⟨1, 0, 1⟩, [['s']]⟩,
    ⟨['s'], [['t', '.', 'm', '.', 's'], ['t', '.', 's']], ⟨1, 0, 0⟩, []⟩]
  counters := fun hier =>
    [(['t', '.', 'm'], ⟨[1], [0]⟩), (['t', '.', 'm', '.', 's'], ⟨[1], []⟩),
      (['t', '.', 's'], ⟨[0], []⟩)].lookup hier
  pairs := id
  names_nodup := by decide
  paths_nodup := by decide
  subs_nodup := by decide
  subs_exported := by decide
  self_notMem := by decide
  top_name := by decide
  counters_size := by
    simp only [List.forall_mem_cons, List.not_mem_nil, false_implies, implies_true, and_true]
    exact ⟨⟨_, rfl, rfl, rfl⟩, ⟨_, rfl, rfl, rfl⟩, ⟨_, rfl, rfl, rfl⟩⟩
  pairs_perm := List.Perm.refl

lemma ask_run_eq_shared :
    ((shared.ask ⟨.cond, ['t', '.', 'm'], true⟩).perform
        (shared.run [⟨.cond, ['t', '.', 'm'], true⟩] .fresh)).1 =
      ((shared.ask ⟨.cond, ['t', '.', 'm'], true⟩).perform (shared.run [] .fresh)).1 :=
  ask_run_eq shared _ [] _ fun name _ => by
    unfold usedKind firstKind
    by_cases h : shared.tableOf ⟨.cond, ['t', '.', 'm'], true⟩ = some name <;> simp [h]

/-- A query about all items changes what one about the conditions gives after it. -/
theorem not_ask_run_eq : ¬ ∀ (D : Design) (past past' : List Query) (q : Query),
    ((D.ask q).perform (D.run past .fresh)).1 = ((D.ask q).perform (D.run past' .fresh)).1 := by
  intro h
  have hshared := h shared [⟨.all, ['t', '.', 'm'], true⟩] [] ⟨.cond, ['t', '.', 'm'], true⟩
  revert hshared
  decide +kernel

end Design

end Verilua.Coverage
