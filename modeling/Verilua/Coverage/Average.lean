import Verilua.Coverage.Cache
import Mathlib.Algebra.BigOperators.Ring.Finset
import Mathlib.Tactic.FieldSimp
import Mathlib.Tactic.NormNum

/-!
# Recursive coverage as an average

A recursive query goes through the hierarchy that it is asked about and through every instance of
its submodules, wherever these are in the design. What it gives is the average over those.
-/

namespace Verilua.Coverage

namespace Design

variable (D : Design)

/-! ### The instances of a subtree, and those that a query goes through -/

/-- The exported instances whose path is `hier` or lies below it. -/
def below (hier : HierPath) : List (CoverageInfo × HierPath) :=
  (D.infos.flatMap fun info => info.hierPaths.map (info, ·)).filter fun inst =>
    inst.2 = hier ∨ (hier ++ ['.']) <+: inst.2

/-- `hier` itself, and all instances of the submodules of its module. -/
def visited (hier : HierPath) (info : CoverageInfo) : List (CoverageInfo × HierPath) :=
  (info, hier) :: (info.subModuleSet.filterMap D.exportedModule).flatMap fun sub =>
    sub.hierPaths.map (sub, ·)

def hitsAt (kind : Kind) (hier : HierPath) : ℕ :=
  ((D.counters hier).map (·.hits kind)).getD 0

/-- The covered items of the instances. -/
def covered (kind : Kind) (insts : List (CoverageInfo × HierPath)) : ℕ :=
  (insts.map fun inst => D.hitsAt kind inst.2).sum

/-- The number of items of the instances. -/
def items (kind : Kind) (insts : List (CoverageInfo × HierPath)) : ℕ :=
  (insts.map fun inst => inst.1.count kind).sum

/-- What an instance shows: the covered part of its items, and 1 if it has none. -/
def coverageAt (kind : Kind) (hier : HierPath) : ℚ :=
  ((D.counters hier).map (·.coverage kind)).getD 0

/-- What the instances show, each with the number of its items as the weight. -/
def weighted (used kind : Kind) (insts : List (CoverageInfo × HierPath)) : ℚ :=
  (insts.map fun inst => D.coverageAt kind inst.2 * inst.1.count used).sum

variable {D}

lemma counters_of_mem {info : CoverageInfo} {hier : HierPath} (kind : Kind) (hinfo : info ∈ D.infos)
    (hhier : hier ∈ info.hierPaths) :
    ∃ c, D.counters hier = some c ∧ (c.cntSignals kind).length = info.count kind := by
  obtain ⟨c, hc, htoggles, hconds⟩ := D.counters_size info hinfo hier hhier
  refine ⟨c, hc, ?_⟩
  cases kind with
  | all => simp [Counters.cntSignals, CoverageInfo.count, htoggles, hconds]
  | cond => simp [Counters.cntSignals, CoverageInfo.count, hconds]

end Design

/-! ### The loop -/

section Sums

lemma foldl_addMul {n : ℕ} (hn : n ≠ 0) (l : List (ℚ × ℕ)) (a : ℚ) :
    l.foldl (fun acc x => Number.addMul acc x.1 (Number.div x.2 n)) (some a) =
      some (a + (l.map fun x => x.1 * (x.2 : ℚ)).sum / n) := by
  induction l generalizing a with
  | nil => simp
  | cons x l ih =>
    have hstep : Number.addMul (some a) x.1 (Number.div x.2 n) = some (a + x.1 * (x.2 / n)) := by
      rw [Number.div, if_neg hn]
      rfl
    rw [List.foldl_cons, hstep, ih, List.map_cons, List.sum_cons, add_div, add_assoc,
      ← mul_div_assoc]

lemma foldl_addMul_zero (l : List (ℚ × ℕ)) (hl : l ≠ []) (a : Number) :
    l.foldl (fun acc x => Number.addMul acc x.1 (Number.div x.2 0)) a = none := by
  induction l generalizing a with
  | nil => exact absurd rfl hl
  | cons x l ih =>
    have hstep : a.addMul x.1 (Number.div x.2 0) = none := by cases a <;> rfl
    rw [List.foldl_cons, hstep]
    cases l with
    | nil => rfl
    | cons y l => exact ih (List.cons_ne_nil y l) none

lemma foldlM_some {α β : Type} {f : β → α → Option β} {g : β → α → β} (l : List α)
    (h : ∀ a ∈ l, ∀ b, f b a = some (g b a)) (b : β) : l.foldlM f b = some (l.foldl g b) := by
  induction l generalizing b with
  | nil => rfl
  | cons a l ih =>
    rw [List.foldlM_cons, h a List.mem_cons_self b]
    exact ih (fun a' ha' => h a' (List.mem_cons_of_mem _ ha')) (g b a)

end Sums

namespace Design

variable {D : Design} {info : CoverageInfo} {hier : HierPath} {used kind : Kind}

lemma items_flatMap (kind : Kind) (subs : List CoverageInfo) :
    items kind (subs.flatMap fun sub => sub.hierPaths.map (sub, ·)) =
      (subs.map fun sub => sub.count kind * sub.hierPaths.length).sum := by
  induction subs with
  | nil => rfl
  | cons sub subs ih =>
    have hconst : (fun inst : CoverageInfo × HierPath => inst.1.count kind) ∘ (sub, ·) =
        Function.const HierPath (sub.count kind) := rfl
    simp only [items] at ih
    simp [items, ih, hconst, mul_comm]

lemma moduleToPercent_eq (kind : Kind) (hier : HierPath) {subs : List CoverageInfo}
    (hsubs : info.subModuleSet.mapM D.exportedModule = some subs)
    (hfilter : info.subModuleSet.filterMap D.exportedModule = subs) :
    D.moduleToPercent kind info = some ((subs ++ [info]).map fun m =>
      (m.moduleName, Number.div (m.count kind) (items kind (D.visited hier info)))) := by
  have hitems : items kind (D.visited hier info) =
      (subs.map fun sub => sub.count kind * sub.hierPaths.length).sum + info.count kind := by
    rw [visited, hfilter, ← items_flatMap, Nat.add_comm]
    rfl
  rw [moduleToPercent, hsubs, List.map_append, hitems]
  rfl

variable (D) in
/-- What is added for an instance: what it shows, and the items that are its weight. -/
def reading (used kind : Kind) (inst : CoverageInfo × HierPath) : ℚ × ℕ :=
  (D.coverageAt kind inst.2, inst.1.count used)

variable (D) in
/-- What the loop adds for one entry of the table. -/
def readings (used kind : Kind) (name : ModuleName) (hier : HierPath) (m : ModuleName) :
    List (ℚ × ℕ) :=
  ((D.hiersOf name hier m).getD []).map fun h =>
    (D.coverageAt kind h, ((D.exportedModule m).map (·.count used)).getD 0)

lemma readings_self (used kind : Kind) (hinfo : info ∈ D.infos) (hier : HierPath) :
    D.readings used kind info.moduleName hier info.moduleName =
      [D.reading used kind (info, hier)] := by
  simp [readings, hiersOf, exportedModule_eq hinfo, reading]

lemma readings_sub (used kind : Kind) {sub : CoverageInfo} (hsub : sub ∈ D.infos)
    (hne : sub.moduleName ≠ info.moduleName) (hier : HierPath) :
    D.readings used kind info.moduleName hier sub.moduleName =
      sub.hierPaths.map fun h => D.reading used kind (sub, h) := by
  simp [readings, hiersOf, exportedModule_eq hsub, reading, hne]

lemma flatMap_readings (used kind : Kind) (hinfo : info ∈ D.infos) (hier : HierPath)
    {table : ModuleToPercent} (htable : D.moduleToPercent used info = some table) :
    ((D.pairs table).flatMap fun entry => D.readings used kind info.moduleName hier entry.1).Perm
      ((D.visited hier info).map (D.reading used kind)) := by
  obtain ⟨subs, hsubs, hfilter, hmem⟩ := mapM_exportedModule hinfo
  have hwalk := (D.pairs_perm table).flatMap_right
    fun entry => D.readings used kind info.moduleName hier entry.1
  refine hwalk.trans ?_
  rw [moduleToPercent_eq used hier hsubs hfilter] at htable
  obtain rfl := Option.some.inj htable
  rw [visited, hfilter, List.flatMap_map, List.flatMap_append, List.flatMap_singleton,
    readings_self used kind hinfo, List.map_cons, List.map_flatMap]
  have hrest : subs.flatMap (fun m => D.readings used kind info.moduleName hier m.moduleName) =
      subs.flatMap fun sub => (sub.hierPaths.map (sub, ·)).map (D.reading used kind) :=
    List.flatMap_congr fun sub hsub => by
      rw [readings_sub used kind (hmem sub hsub).1 (hmem sub hsub).2, List.map_map]
      rfl
  rw [hrest]
  exact List.perm_append_singleton _ _

/-- One entry of the table: the loop over its instances cannot fail. -/
lemma entry_step (kind : Kind) (hinfo : info ∈ D.infos) (hhier : hier ∈ info.hierPaths)
    {table : ModuleToPercent} (htable : D.moduleToPercent used info = some table)
    {entry : ModuleName × Number} (hentry : entry ∈ table) (acc : Number) :
    ((D.hiersOf info.moduleName hier entry.1).bind fun hiers =>
      hiers.foldlM (fun acc h => ((D.counters h).map (·.coverage kind)).bind fun coverage =>
        some (Number.addMul acc coverage entry.2)) acc) =
      some ((D.readings used kind info.moduleName hier entry.1).foldl (fun acc x =>
        Number.addMul acc x.1 (Number.div x.2 (items used (D.visited hier info)))) acc) := by
  obtain ⟨subs, hsubs, hfilter, hmem⟩ := mapM_exportedModule hinfo
  rw [moduleToPercent_eq used hier hsubs hfilter] at htable
  obtain rfl := Option.some.inj htable
  obtain ⟨m, hm, rfl⟩ := List.mem_map.1 hentry
  have hhiers : m ∈ D.infos ∧ ∃ hiers, D.hiersOf info.moduleName hier m.moduleName = some hiers ∧
      ∀ h ∈ hiers, h ∈ m.hierPaths := by
    rcases List.mem_append.1 hm with hm | hm
    · obtain ⟨hmInfos, hne⟩ := hmem m hm
      exact ⟨hmInfos, m.hierPaths, by simp [hiersOf, hne, exportedModule_eq hmInfos],
        fun _ h => h⟩
    · obtain rfl := List.mem_singleton.1 hm
      refine ⟨hinfo, [hier], if_pos rfl, fun h hh => ?_⟩
      rwa [List.mem_singleton.1 hh]
  obtain ⟨hmInfos, hiers, hsome, hpaths⟩ := hhiers
  rw [readings, hsome, Option.bind_some, Option.getD_some, List.foldl_map, exportedModule_eq hmInfos]
  refine foldlM_some hiers (fun h hh acc => ?_) acc
  obtain ⟨c, hc, -⟩ := counters_of_mem kind hmInfos (hpaths h hh)
  simp [coverageAt, hc]

lemma total_eq (hinfo : info ∈ D.infos) (hhier : hier ∈ info.hierPaths)
    {table : ModuleToPercent} (htable : D.moduleToPercent used info = some table) :
    D.total kind info.moduleName hier table = some
      (if items used (D.visited hier info) = 0 then none
        else some (D.weighted used kind (D.visited hier info) /
          items used (D.visited hier info))) := by
  have hsteps := foldlM_some (D.pairs table)
    (fun entry hentry acc =>
      entry_step kind hinfo hhier htable ((D.pairs_perm table).mem_iff.1 hentry) acc)
    (some 0)
  have hperm := flatMap_readings used kind hinfo hier htable
  rw [total, hsteps, ← List.foldl_flatMap]
  refine congrArg some ?_
  generalize hn : items used (D.visited hier info) = n
  obtain rfl | hpos := Nat.eq_zero_or_pos n
  · refine foldl_addMul_zero _ (fun hnil => ?_) _
    rw [hnil] at hperm
    exact absurd hperm.nil_eq.symm (by simp [visited])
  · have hsum := (hperm.map fun x => x.1 * (x.2 : ℚ)).sum_eq
    rw [List.map_map] at hsum
    rw [foldl_addMul hpos.ne', hsum, zero_add, if_neg hpos.ne']
    rfl

/-! ### The average over the subtree -/

/-- The path can be given: a text without a dot is the name of a module with one instance. -/
def Addressed (kind : Kind) (hier : HierPath) (info : CoverageInfo) : Prop :=
  kind = .all → '.' ∉ hier → info.hierPaths = [hier]

variable (D) in
/-- The average over the instances that are visited is that over the subtree. A module without
submodules stands for its subtree with what it shows itself. -/
def Averages (used kind : Kind) (hier : HierPath) (info : CoverageInfo) : Prop :=
  if info.subModuleSet.isEmpty then
    D.coverageAt kind hier * items kind (D.below hier) = D.covered kind (D.below hier)
  else
    items used (D.visited hier info) ≠ 0 ∧
      D.weighted used kind (D.visited hier info) * items kind (D.below hier) =
        D.covered kind (D.below hier) * items used (D.visited hier info)

lemma target_cases (kind : Kind) (hinfo : info ∈ D.infos) (hhier : hier ∈ info.hierPaths) :
    (Addressed kind hier info ∧ D.target ⟨kind, hier, true⟩ = some hier) ∨
      (¬ Addressed kind hier info ∧ D.target ⟨kind, hier, true⟩ = none) := by
  cases kind with
  | cond => exact .inl ⟨fun h => absurd h Kind.noConfusion, rfl⟩
  | all =>
    by_cases hdot : '.' ∈ hier
    · exact .inl ⟨fun _ h => absurd hdot h, if_pos hdot⟩
    · have hname := D.top_name info hinfo hier hhier hdot
      have hexported := exportedModule_eq hinfo
      rw [hname] at hexported
      simp only [target, hierOf, hexported, Option.bind_eq_bind, Option.bind_some,
        Addressed, forall_const, hdot, not_false_eq_true]
      match hpaths : info.hierPaths with
      | [] => exact absurd hhier (hpaths ▸ List.not_mem_nil)
      | [path] =>
        rw [hpaths, List.mem_singleton] at hhier
        exact .inl ⟨congrArg ([·]) hhier.symm, congrArg some hhier.symm⟩
      | _ :: _ :: _ => exact .inr ⟨by simp, rfl⟩

end Design

end Verilua.Coverage
