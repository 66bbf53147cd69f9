import Verilua.Hierarchy.Collect
import Verilua.Hierarchy.RoundTrip

/-!
# The cached and the direct collection agree

The walk with a limit visits the entries of the unlimited walk up to that level, so that filtering
the cached list by level gives what the direct walk collects.
-/

namespace Verilua.Hierarchy

open Codec

/-! ### What there is to visit -/

def objectEntries (fullPath : String) (level : Int) (type : ObjectType) (objs : List VpiObject) :
    List HierarchyEntry :=
  objs.filterMap fun obj => obj.name.map fun objName =>
    objectEntry fullPath objName type level obj.size

mutual

/-- The entries of a module and of all below it, in the order of the walk. -/
def visits : VpiModule → (parentPath : String) → (level : Int) → List HierarchyEntry
  | .mk none _ _ _, _, _ => []
  | .mk (some childName) defName objects children, parentPath, level =>
    let fullPath := childPath parentPath childName
    moduleEntry fullPath defName level ::
      (objectTypes.flatMap (fun type => objectEntries fullPath level type (objects type)) ++
        visitsAll children fullPath (level + 1))

def visitsAll : List VpiModule → (parentPath : String) → (level : Int) → List HierarchyEntry
  | [], _, _ => []
  | child :: rest, parentPath, level =>
    visits child parentPath level ++ visitsAll rest parentPath level

end

/-- The entry is not deeper than the limit. -/
def within (maxLevel : Int) (entry : HierarchyEntry) : Bool :=
  decide (maxLevel = 0 ∨ entry.level ≤ maxLevel)

lemma level_of_mem_objectEntries {fullPath : String} {level : Int}
    {objects : ObjectType → List VpiObject} {entry : HierarchyEntry}
    (h : entry ∈ objectTypes.flatMap fun type => objectEntries fullPath level type (objects type)) :
    entry.level = level + 1 := by
  simp only [List.mem_flatMap, objectEntries, List.mem_filterMap, Option.map_eq_some_iff] at h
  obtain ⟨type, -, obj, -, objName, -, rfl⟩ := h
  rfl

mutual

lemma le_level_of_mem_visits (m : VpiModule) (parentPath : String) (level : Int) :
    ∀ entry ∈ visits m parentPath level, level ≤ entry.level := by
  intro entry h
  match m with
  | .mk none _ _ _ => cases h
  | .mk (some childName) defName objects children =>
    rw [visits, List.mem_cons, List.mem_append] at h
    rcases h with rfl | hobj | hchild
    · exact le_refl level
    · rw [level_of_mem_objectEntries hobj]
      omega
    · have := le_level_of_mem_visitsAll children _ (level + 1) entry hchild
      omega

lemma le_level_of_mem_visitsAll (ms : List VpiModule) (parentPath : String) (level : Int) :
    ∀ entry ∈ visitsAll ms parentPath level, level ≤ entry.level := by
  intro entry h
  match ms with
  | [] => cases h
  | m :: ms =>
    rw [visitsAll, List.mem_append] at h
    rcases h with hhead | htail
    · exact le_level_of_mem_visits m parentPath level entry hhead
    · exact le_level_of_mem_visitsAll ms parentPath level entry htail

end

/-! ### Entries whose paths are new -/

namespace Collected

def append (c : Collected) (entries : List HierarchyEntry) : Collected where
  entries := c.entries ++ entries
  seenPaths := (entries.map HierarchyEntry.fullPath).reverse ++ c.seenPaths

@[simp] lemma append_nil (c : Collected) : c.append [] = c := by simp [append]

lemma append_append (c : Collected) (es fs : List HierarchyEntry) :
    (c.append es).append fs = c.append (es ++ fs) := by
  simp [append]

/-- No path is taken, and no two entries have the same one. -/
structure Fresh (c : Collected) (entries : List HierarchyEntry) : Prop where
  nodup : (entries.map HierarchyEntry.fullPath).Nodup
  notSeen : ∀ entry ∈ entries, entry.fullPath ∉ c.seenPaths

lemma Fresh.left {c : Collected} {es fs : List HierarchyEntry} (h : c.Fresh (es ++ fs)) :
    c.Fresh es where
  nodup := by
    have := h.nodup
    rw [List.map_append, List.nodup_append] at this
    exact this.1
  notSeen entry hmem := h.notSeen entry (List.mem_append_left fs hmem)

lemma Fresh.right {c : Collected} {es fs : List HierarchyEntry} (h : c.Fresh (es ++ fs)) :
    (c.append es).Fresh fs where
  nodup := by
    have := h.nodup
    rw [List.map_append, List.nodup_append] at this
    exact this.2.1
  notSeen entry hmem := by
    have hnodup := h.nodup
    rw [List.map_append, List.nodup_append] at hnodup
    simp only [append, List.mem_append, List.mem_reverse, not_or]
    refine ⟨fun hseen => ?_, h.notSeen entry (List.mem_append_right es hmem)⟩
    exact hnodup.2.2 entry.fullPath hseen entry.fullPath (List.mem_map_of_mem hmem) rfl

end Collected

lemma pushHierarchyEntry_of_fresh {c : Collected} {entry : HierarchyEntry}
    (h : entry.fullPath ∉ c.seenPaths) : pushHierarchyEntry c entry = c.append [entry] := by
  rw [pushHierarchyEntry, if_neg h]
  rfl

/-! ### The walk -/

/-- The names that a module showed are paths that are taken, so that no new object is skipped. -/
lemma scanObjects_of_fresh {fullPath : String} {level : Int} {type : ObjectType}
    (objs : List VpiObject) : ∀ {visited : List String} {c : Collected},
    (∀ objName ∈ visited, objectPath fullPath objName ∈ c.seenPaths) →
    c.Fresh (objectEntries fullPath level type objs) →
    (scanObjects fullPath level type objs (visited, c)).2 =
        c.append (objectEntries fullPath level type objs) ∧
      ∀ objName ∈ (scanObjects fullPath level type objs (visited, c)).1,
        objectPath fullPath objName ∈
          (c.append (objectEntries fullPath level type objs)).seenPaths := by
  induction objs with
  | nil =>
    intro visited c hvisited _
    simpa [scanObjects, objectEntries] using hvisited
  | cons obj objs ih =>
    intro visited c hvisited hfresh
    cases hname : obj.name with
    | none =>
      have hentries : objectEntries fullPath level type (obj :: objs) =
          objectEntries fullPath level type objs := by
        simp [objectEntries, hname]
      rw [hentries] at hfresh ⊢
      simp only [scanObjects, hname]
      exact ih hvisited hfresh
    | some objName =>
      set entry := objectEntry fullPath objName type level obj.size with hentry
      have hentries : objectEntries fullPath level type (obj :: objs) =
          [entry] ++ objectEntries fullPath level type objs := by
        simp [objectEntries, hname, hentry]
      rw [hentries] at hfresh ⊢
      have hnew : entry.fullPath ∉ c.seenPaths := hfresh.notSeen entry (by simp)
      have hvisit : objName ∉ visited := fun hmem => hnew (hvisited objName hmem)
      simp only [scanObjects, hname, if_neg hvisit]
      rw [← hentry, pushHierarchyEntry_of_fresh hnew, ← Collected.append_append]
      refine ih ?_ hfresh.right
      intro n hn
      simp only [Collected.append, List.map_cons, List.map_nil, List.reverse_singleton,
        List.singleton_append, List.mem_cons] at hn ⊢
      rcases hn with rfl | hn
      · exact .inl rfl
      · exact .inr (hvisited n hn)

lemma collectObjects_of_fresh {fullPath : String} {level : Int}
    {objects : ObjectType → List VpiObject} {c : Collected}
    (h : c.Fresh (objectTypes.flatMap fun type =>
      objectEntries fullPath level type (objects type))) :
    collectObjects fullPath level objects c =
      c.append (objectTypes.flatMap fun type =>
        objectEntries fullPath level type (objects type)) := by
  have hfold : ∀ (types : List ObjectType) {visited : List String} {c : Collected},
      (∀ objName ∈ visited, objectPath fullPath objName ∈ c.seenPaths) →
      c.Fresh (types.flatMap fun type => objectEntries fullPath level type (objects type)) →
      (types.foldl (fun acc type => scanObjects fullPath level type (objects type) acc)
        (visited, c)).2 =
          c.append
            (types.flatMap fun type => objectEntries fullPath level type (objects type)) := by
    intro types
    induction types with
    | nil => simp
    | cons type types ih =>
      intro visited c hvisited hfresh
      rw [List.flatMap_cons] at hfresh ⊢
      obtain ⟨hc, hv⟩ := scanObjects_of_fresh (objects type) hvisited hfresh.left
      rw [List.foldl_cons, ← Collected.append_append]
      have := ih
        hv hfresh.right
      rw [← hc] at this ⊢
      exact this
  exact hfold objectTypes (by simp) h

lemma filter_within_objects (maxLevel level : Int) (fullPath : String)
    (objects : ObjectType → List VpiObject) :
    (objectTypes.flatMap fun type =>
        objectEntries fullPath level type (objects type)).filter (within maxLevel) =
      if maxLevel = 0 ∨ level < maxLevel then
        objectTypes.flatMap fun type => objectEntries fullPath level type (objects type)
      else [] := by
  split
  next h =>
    rw [List.filter_eq_self]
    intro entry hmem
    have hlevel := level_of_mem_objectEntries hmem
    simp only [within, decide_eq_true_eq]
    omega
  next h =>
    rw [List.filter_eq_nil_iff]
    intro entry hmem
    have hlevel := level_of_mem_objectEntries hmem
    simp only [within, decide_eq_true_eq]
    omega

lemma filter_within_visitsAll {maxLevel level : Int} (h : maxLevel ≠ 0 ∧ level > maxLevel)
    (modules : List VpiModule) (parentPath : String) :
    (visitsAll modules parentPath level).filter (within maxLevel) = [] := by
  rw [List.filter_eq_nil_iff]
  intro entry hmem
  have := le_level_of_mem_visitsAll modules parentPath level entry hmem
  simp only [within, decide_eq_true_eq]
  omega

mutual

lemma collectModule_of_fresh {maxLevel level : Int} (m : VpiModule) {parentPath : String}
    {c : Collected} (hlevel : maxLevel = 0 ∨ level ≤ maxLevel)
    (h : c.Fresh ((visits m parentPath level).filter (within maxLevel))) :
    collectModule maxLevel m parentPath level c =
      c.append ((visits m parentPath level).filter (within maxLevel)) := by
  match m with
  | .mk none _ _ _ => simp [collectModule, visits]
  | .mk (some childName) defName objects children =>
    set fullPath := childPath parentPath childName with hpath
    have hfirst : within maxLevel (moduleEntry fullPath defName level) = true := by
      simpa [within, moduleEntry] using hlevel
    rw [visits, List.filter_cons_of_pos hfirst, List.filter_append, ← List.singleton_append] at h ⊢
    have hnew : (moduleEntry fullPath defName level).fullPath ∉ c.seenPaths :=
      h.notSeen _ (by simp)
    have hobjects := h.right.left
    have hrest := h.right.right
    rw [filter_within_objects] at hobjects hrest ⊢
    have hcollect : (if maxLevel = 0 ∨ level < maxLevel then
        collectObjects fullPath level objects (c.append [moduleEntry fullPath defName level])
          else c.append [moduleEntry fullPath defName level]) =
        (c.append [moduleEntry fullPath defName level]).append
          (if maxLevel = 0 ∨ level < maxLevel then
            objectTypes.flatMap fun type => objectEntries fullPath level type (objects type)
          else []) := by
      split at hobjects
      next hdeep => rw [if_pos hdeep, if_pos hdeep, collectObjects_of_fresh hobjects]
      next hdeep => rw [if_neg hdeep, if_neg hdeep, Collected.append_nil]
    rw [collectModule, ← hpath, pushHierarchyEntry_of_fresh hnew, hcollect,
      ← Collected.append_append, ← Collected.append_append]
    by_cases hstop : maxLevel ≠ 0 ∧ level + 1 > maxLevel
    · rw [if_pos hstop, filter_within_visitsAll hstop, Collected.append_nil]
    · rw [if_neg hstop]
      exact collectModules_of_fresh children (by omega) hrest

lemma collectModules_of_fresh {maxLevel level : Int} (ms : List VpiModule) {parentPath : String}
    {c : Collected} (hlevel : maxLevel = 0 ∨ level ≤ maxLevel)
    (h : c.Fresh ((visitsAll ms parentPath level).filter (within maxLevel))) :
    collectModules maxLevel ms parentPath level c =
      c.append ((visitsAll ms parentPath level).filter (within maxLevel)) := by
  match ms with
  | [] => simp [collectModules, visitsAll]
  | m :: ms =>
    rw [visitsAll, List.filter_append] at h ⊢
    rw [collectModules, collectModule_of_fresh m hlevel h.left,
      collectModules_of_fresh ms hlevel h.right, Collected.append_append]

end

/-! ### Distinct paths -/

mutual

/-- The full paths of a module and of all objects below it. -/
def paths : VpiModule → (parentPath : String) → List String
  | .mk none _ _ _, _ => []
  | .mk (some childName) _ objects children, parentPath =>
    let fullPath := childPath parentPath childName
    fullPath ::
      (objectTypes.flatMap (fun type =>
        (objects type).filterMap fun obj => obj.name.map fun objName =>
          fullPath ++ "." ++ objName) ++
        pathsAll children fullPath)

def pathsAll : List VpiModule → (parentPath : String) → List String
  | [], _ => []
  | child :: rest, parentPath => paths child parentPath ++ pathsAll rest parentPath

end

mutual

/-- No name of the module, and no name below it, has a dot in it. -/
def NoDots : VpiModule → Prop
  | .mk name _ objects children =>
    (∀ n ∈ name, '.' ∉ n.toList) ∧
      (∀ type, ∀ obj ∈ objects type, ∀ n ∈ obj.name, '.' ∉ n.toList) ∧ NoDotsAll children

def NoDotsAll : List VpiModule → Prop
  | [] => True
  | m :: ms => NoDots m ∧ NoDotsAll ms

end

/-- No two objects have the same full path, and no local name has a dot in it. -/
structure WellNamed (modules : List VpiModule) : Prop where
  nodup : (pathsAll modules "").Nodup
  noDots : NoDotsAll modules

lemma map_fullPath_objectEntries {fullPath : String} {level : Int} {type : ObjectType}
    {objs : List VpiObject} (h : ∀ obj ∈ objs, ∀ n ∈ obj.name, '.' ∉ n.toList) :
    (objectEntries fullPath level type objs).map HierarchyEntry.fullPath =
      objs.filterMap fun obj => obj.name.map fun objName => fullPath ++ "." ++ objName := by
  rw [objectEntries, List.map_filterMap]
  refine List.filterMap_congr fun obj hmem => ?_
  cases hname : obj.name with
  | none => rfl
  | some objName => simp [objectEntry, objectPath, h obj hmem objName hname]

mutual

lemma map_fullPath_visits (m : VpiModule) (parentPath : String) (level : Int) (h : NoDots m) :
    (visits m parentPath level).map HierarchyEntry.fullPath = paths m parentPath := by
  match m with
  | .mk none _ _ _ => rfl
  | .mk (some childName) defName objects children =>
    rw [NoDots] at h
    rw [visits, paths, List.map_cons, List.map_append, List.map_flatMap,
      map_fullPath_visitsAll children _ _ h.2.2]
    congr 2
    exact List.flatMap_congr fun type _ => map_fullPath_objectEntries (h.2.1 type)

lemma map_fullPath_visitsAll (ms : List VpiModule) (parentPath : String) (level : Int)
    (h : NoDotsAll ms) :
    (visitsAll ms parentPath level).map HierarchyEntry.fullPath = pathsAll ms parentPath := by
  match ms with
  | [] => rfl
  | m :: ms =>
    rw [NoDotsAll] at h
    rw [visitsAll, pathsAll, List.map_append, map_fullPath_visits m _ _ h.1,
      map_fullPath_visitsAll ms _ _ h.2]

end

/-- The walk collects what there is to visit up to the limit, where no two paths are the same. -/
lemma entries_collectHierarchyRecursive_of_nodup {modules : List VpiModule}
    (h : ((visitsAll modules "" 0).map HierarchyEntry.fullPath).Nodup) (maxLevel : Int) :
    (collectHierarchyRecursive maxLevel modules "" 0 .empty).entries =
      (visitsAll modules "" 0).filter (within maxLevel) := by
  rw [collectHierarchyRecursive]
  by_cases hstop : maxLevel ≠ 0 ∧ (0 : Int) > maxLevel
  · rw [if_pos hstop, filter_within_visitsAll hstop]
    rfl
  · have hfresh : Collected.empty.Fresh ((visitsAll modules "" 0).filter (within maxLevel)) :=
      ⟨h.sublist (List.filter_sublist.map _), fun _ _ hseen => by cases hseen⟩
    rw [if_neg hstop, collectModules_of_fresh modules (by omega) hfresh]
    simp [Collected.append, Collected.empty]

lemma entries_collectHierarchyRecursive {modules : List VpiModule} (h : WellNamed modules)
    (maxLevel : Int) :
    (collectHierarchyRecursive maxLevel modules "" 0 .empty).entries =
      (visitsAll modules "" 0).filter (within maxLevel) := by
  have hnodup := h.nodup
  rw [← map_fullPath_visitsAll modules "" 0 h.noDots] at hnodup
  exact entries_collectHierarchyRecursive_of_nodup hnodup maxLevel

/-! ### Everything collected was visited -/

/-- Every entry has the path and the width of one of these. -/
def Collected.Among (entries : List HierarchyEntry) (c : Collected) : Prop :=
  ∀ entry ∈ c.entries, ∃ e ∈ entries, e.fullPath = entry.fullPath ∧ e.bitwidth = entry.bitwidth

lemma mem_upgradeFirst {fullPath : String} {entries : List HierarchyEntry}
    {entry : HierarchyEntry} (h : entry ∈ upgradeFirst fullPath entries) :
    ∃ e ∈ entries, e.fullPath = entry.fullPath ∧ e.bitwidth = entry.bitwidth := by
  induction entries with
  | nil => cases h
  | cons e entries ih =>
    rw [upgradeFirst] at h
    split_ifs at h with heq
    · rcases List.mem_cons.mp h with rfl | h
      · exact ⟨e, List.mem_cons_self, rfl, rfl⟩
      · exact ⟨entry, List.mem_cons_of_mem _ h, rfl, rfl⟩
    · rcases List.mem_cons.mp h with rfl | h
      · exact ⟨entry, List.mem_cons_self, rfl, rfl⟩
      · obtain ⟨e', he', hsame⟩ := ih h
        exact ⟨e', List.mem_cons_of_mem _ he', hsame⟩

namespace Collected.Among

variable {entries : List HierarchyEntry} {c : Collected} {fullPath : String} {level : Int}

lemma push {entry : HierarchyEntry} (h : c.Among entries) (hmem : entry ∈ entries) :
    (pushHierarchyEntry c entry).Among entries := by
  intro e he
  rw [pushHierarchyEntry] at he
  split_ifs at he
  · obtain ⟨e', he', hpath, hwidth⟩ := mem_upgradeFirst he
    obtain ⟨e'', he'', hpath', hwidth'⟩ := h e' he'
    exact ⟨e'', he'', hpath'.trans hpath, hwidth'.trans hwidth⟩
  · exact h e he
  · rcases List.mem_append.mp he with he | he
    · exact h e he
    · obtain rfl := List.mem_singleton.mp he
      exact ⟨e, hmem, rfl, rfl⟩

lemma scanObjects {type : ObjectType} {objs : List VpiObject} {visited : List String}
    (h : c.Among entries) (hsub : objectEntries fullPath level type objs ⊆ entries) :
    (scanObjects fullPath level type objs (visited, c)).2.Among entries := by
  induction objs generalizing visited c with
  | nil => exact h
  | cons obj objs ih =>
    rw [Hierarchy.scanObjects]
    cases hname : obj.name with
    | none =>
      have hskip : objectEntries fullPath level type (obj :: objs) =
          objectEntries fullPath level type objs := by
        simp [objectEntries, hname]
      exact ih h (hskip ▸ hsub)
    | some objName =>
      have hcons : objectEntries fullPath level type (obj :: objs) =
          objectEntry fullPath objName type level obj.size ::
            objectEntries fullPath level type objs := by
        simp [objectEntries, hname]
      rw [hcons, List.cons_subset] at hsub
      dsimp only
      split_ifs
      · exact ih h hsub.2
      · exact ih (h.push hsub.1) hsub.2

lemma collectObjects {objects : ObjectType → List VpiObject} (h : c.Among entries)
    (hsub : ∀ type, objectEntries fullPath level type (objects type) ⊆ entries) :
    (collectObjects fullPath level objects c).Among entries := by
  have hfold : ∀ (types : List ObjectType) {acc : List String × Collected},
      acc.2.Among entries → (types.foldl (fun acc type =>
        Hierarchy.scanObjects fullPath level type (objects type) acc) acc).2.Among entries := by
    intro types
    induction types with
    | nil => exact fun h => h
    | cons type types ih => exact fun hacc => ih (hacc.scanObjects (hsub type))
  exact hfold objectTypes h

end Collected.Among

mutual

lemma Collected.Among.collectModule {entries : List HierarchyEntry} {maxLevel : Int}
    (m : VpiModule) {parentPath : String} {level : Int} {c : Collected} (h : c.Among entries)
    (hsub : visits m parentPath level ⊆ entries) :
    (collectModule maxLevel m parentPath level c).Among entries := by
  match m with
  | .mk none _ _ _ => exact h
  | .mk (some childName) defName objects children =>
    rw [visits, List.cons_subset, List.append_subset] at hsub
    obtain ⟨hself, hobjects, hchildren⟩ := hsub
    have hpush := h.push hself
    have hcollect := hpush.collectObjects fun type entry hentry =>
      hobjects (List.mem_flatMap.mpr ⟨type, by cases type <;> simp [objectTypes], hentry⟩)
    rw [Hierarchy.collectModule]
    by_cases hdeep : maxLevel = 0 ∨ level < maxLevel
    · rw [if_pos hdeep]
      split_ifs
      · exact hcollect
      · exact Collected.Among.collectModules children hcollect hchildren
    · rw [if_neg hdeep]
      split_ifs
      · exact hpush
      · exact Collected.Among.collectModules children hpush hchildren

lemma Collected.Among.collectModules {entries : List HierarchyEntry} {maxLevel : Int}
    (ms : List VpiModule) {parentPath : String} {level : Int} {c : Collected}
    (h : c.Among entries) (hsub : visitsAll ms parentPath level ⊆ entries) :
    (collectModules maxLevel ms parentPath level c).Among entries := by
  match ms with
  | [] => exact h
  | m :: ms =>
    rw [visitsAll, List.append_subset] at hsub
    rw [Hierarchy.collectModules]
    exact (h.collectModule m hsub.1).collectModules ms hsub.2

end

lemma collectHierarchyEntries_among (modules : List VpiModule) :
    ∀ entry ∈ collectHierarchyEntries modules 0, ∃ e ∈ visitsAll modules "" 0,
      e.fullPath = entry.fullPath ∧ e.bitwidth = entry.bitwidth := by
  intro entry hmem
  rw [collectHierarchyEntries, List.mem_mergeSort, collectHierarchyRecursive,
    if_neg (by simp)] at hmem
  have hempty : Collected.empty.Among (visitsAll modules "" 0) := fun _ h => nomatch h
  exact hempty.collectModules modules (List.Subset.refl _) entry hmem

/-! ### Sorting -/

lemma entryLe_trans (a b c : HierarchyEntry) (hab : entryLe a b = true) (hbc : entryLe b c = true) :
    entryLe a c = true := by
  simp only [entryLe, decide_eq_true_eq] at *
  rcases hab with hab | ⟨hab, hab'⟩
  · rcases hbc with hbc | ⟨hbc, -⟩
    · exact .inl (hab.trans hbc)
    · exact .inl (hbc ▸ hab)
  · rcases hbc with hbc | ⟨hbc, hbc'⟩
    · exact .inl (hab ▸ hbc)
    · exact .inr ⟨hab.trans hbc, hab'.trans hbc'⟩

lemma entryLe_total (a b : HierarchyEntry) : (entryLe a b || entryLe b a) = true := by
  simp only [entryLe, Bool.or_eq_true, decide_eq_true_eq]
  rcases lt_trichotomy a.fullPath b.fullPath with h | h | h
  · exact .inl (.inl h)
  · rcases le_total a.level b.level with h' | h'
    · exact .inl (.inr ⟨h, h'⟩)
    · exact .inr (.inr ⟨h.symm, h'⟩)
  · exact .inr (.inl h)

lemma mergeSort_filter {entries : List HierarchyEntry} (p : HierarchyEntry → Bool)
    (h : (entries.map HierarchyEntry.fullPath).Nodup) :
    (entries.filter p).mergeSort entryLe = (entries.mergeSort entryLe).filter p := by
  have hsorted := fun l => List.pairwise_mergeSort entryLe_trans entryLe_total l
  refine List.Perm.eq_of_pairwise ?_ (hsorted _)
    ((hsorted entries).filter p) ?_
  · intro a b ha hb hab hba
    have hmem : a ∈ entries ∧ b ∈ entries := by
      simp only [List.mem_mergeSort, List.mem_filter] at ha hb
      exact ⟨ha.1, hb.1⟩
    have hpath : a.fullPath = b.fullPath := by
      simp only [entryLe, decide_eq_true_eq] at hab hba
      rcases hab with hab | hab
      · rcases hba with hba | hba
        · exact (lt_asymm hab hba).elim
        · exact hba.1.symm
      · exact hab.1
    exact List.inj_on_of_nodup_map h hmem.1 hmem.2 hpath
  · exact (List.mergeSort_perm _ _).trans ((List.mergeSort_perm _ _).symm.filter p)

lemma collectHierarchyEntries_eq_filter {modules : List VpiModule} (h : WellNamed modules)
    (maxLevel : Int) :
    collectHierarchyEntries modules maxLevel =
      (collectHierarchyEntries modules 0).filter (within maxLevel) := by
  have hnodup := h.nodup
  rw [← map_fullPath_visitsAll modules "" 0 h.noDots] at hnodup
  have hall : (visitsAll modules "" 0).filter (within 0) = visitsAll modules "" 0 :=
    List.filter_eq_self.mpr fun entry _ => by simp [within]
  rw [collectHierarchyEntries, collectHierarchyEntries, entries_collectHierarchyRecursive h,
    entries_collectHierarchyRecursive h, hall, mergeSort_filter _ hnodup]

/-! ### The answers -/

section Request

variable (wildMatch : String → String → Bool)

lemma respond_eq {modules : List VpiModule} (h : WellNamed modules) (r : Request) :
    respond wildMatch r (collectHierarchyEntries modules r.maxLevel) =
      respond wildMatch r (collectHierarchyEntries modules 0) := by
  by_cases hmax : r.maxLevel = 0
  · rw [hmax]
  · have hfilter : (collectHierarchyEntries modules r.maxLevel).filter
        (fun entry => decide (entry.level ≤ r.maxLevel)) =
        (collectHierarchyEntries modules 0).filter
          fun entry => decide (entry.level ≤ r.maxLevel) := by
      rw [collectHierarchyEntries_eq_filter h, List.filter_filter]
      refine List.filter_congr fun entry _ => ?_
      simp [within, hmax]
    simp only [respond, if_neg hmax, hfilter]

/-- The process has collected the hierarchy, or it is about to because the file gives nothing, or the
file gives what there is to collect. -/
def Primed (modules : List VpiModule) (s : CacheState) : Prop :=
  s.hierarchyCache = some (collectHierarchyEntries modules 0) ∨
    s.hierarchyCache = none ∧
      (tryLoadCache s.cacheFile s.currentMtime s.sourcePath = .fail ∨
        tryLoadCache s.cacheFile s.currentMtime s.sourcePath =
          .value (collectHierarchyEntries modules 0))

lemma getOrInitHierarchyCache_of_primed {modules : List VpiModule} {s : CacheState}
    (h : Primed modules s) : ∃ s', Primed modules s' ∧
      getOrInitHierarchyCache modules s = .value (collectHierarchyEntries modules 0, s') := by
  set collected := collectHierarchyEntries modules 0 with hcollected
  rcases h with hcached | ⟨hnone, hfail | hload⟩
  · exact ⟨s, .inl hcached, by simp only [getOrInitHierarchyCache, hcached, ← hcollected]⟩
  · refine ⟨{ s with
      hierarchyCache := some collected
      cacheFile := some (saveCache collected s.currentMtime s.sourcePath).items }, .inl rfl, ?_⟩
    simp only [getOrInitHierarchyCache, hnone, hfail, ← hcollected]
  · refine ⟨{ s with hierarchyCache := some collected }, .inl rfl, ?_⟩
    simp only [getOrInitHierarchyCache, hnone, hload, ← hcollected]

/-- Collecting everything once and filtering the cached entries gives the same list as collecting
anew with the limit, for every request of a run. -/
theorem answers_eq (dpi : Bool) {modules : List VpiModule} (h : WellNamed modules)
    (rs : List Request) : ∀ {s : CacheState}, Primed modules s →
    answers wildMatch dpi modules rs s =
      .value (rs.map (collectHierarchy wildMatch dpi modules)) := by
  induction rs with
  | nil => exact fun _ => rfl
  | cons r rs ih =>
    intro s hs
    have hrequest : ∃ s', Primed modules s' ∧ collectHierarchyCached wildMatch dpi modules r s =
        .value (collectHierarchy wildMatch dpi modules r, s') := by
      by_cases hdpi : dpi = true
      · exact ⟨s, hs, by simp [collectHierarchyCached, collectHierarchy, hdpi]⟩
      · by_cases hcb : r.cb = false
        · exact ⟨s, hs, by simp [collectHierarchyCached, collectHierarchy, hdpi, hcb]⟩
        · obtain ⟨s', hs', hinit⟩ := getOrInitHierarchyCache_of_primed hs
          refine ⟨s', hs', ?_⟩
          rw [collectHierarchyCached, collectHierarchy, if_neg hdpi, if_neg hdpi, if_neg hcb,
            if_neg hcb, hinit, Outcome.value_bind, respond_eq wildMatch h]
    obtain ⟨s', hs', hanswer⟩ := hrequest
    rw [answers, hanswer, Outcome.value_bind]
    simp only [ih hs', Outcome.value_bind, List.map_cons]

/-- The hierarchy of the tests of the source, with a wire and a register. -/
def testTop : VpiModule :=
  .mk (some "tb_top") none (fun _ => [])
    [.mk (some "u_top") (some "TopMod")
      (fun
        | .vpiNet => [⟨some "clk", 1⟩]
        | .vpiReg => [⟨some "data", 32⟩]
        | .vpiMemory => [])
      []]

lemma wellNamed_testTop : WellNamed [testTop] where
  nodup := by decide
  noDots := by
    simp only [NoDotsAll, testTop, NoDots, Option.mem_def, Option.some.injEq, forall_eq', and_true,
      List.not_mem_nil, false_implies, implies_true, true_and]
    refine ⟨by decide, by decide, fun type => ?_⟩
    cases type <;> simp

/-- The list with the limit 1 and then the whole list, of a process without a cache file. -/
theorem answers_eq_testTop :
    answers (fun pattern path => pattern == path) false [testTop]
        [⟨1, none, none, false, false, true⟩, ⟨0, some "*", none, true, false, true⟩]
        ⟨none, none, some "/test/sim.fst", some 1710000000⟩ =
      .value ([⟨1, none, none, false, false, true⟩, ⟨0, some "*", none, true, false, true⟩].map
        (collectHierarchy (fun pattern path => pattern == path) false [testTop])) :=
  answers_eq _ false wellNamed_testTop _ (.inr ⟨rfl, .inl rfl⟩)

end Request

end Verilua.Hierarchy
