import Mathlib.Data.List.Flatten
import Mathlib.Data.List.MinMax
import Verilua.Hierarchy.Agree
import Verilua.Lib.Separator
import Verilua.Wellen.Walk

/-!
# Full names

A full name stands for one scope or variable of the hierarchy, and the library finds a variable by
its full name just where the names in it have no dots.
-/

namespace Verilua.Wellen

open Codec (Outcome)

variable {wave : WaveFile} {scopes : List Scope} {d d' : Declared} {v v' : ScopeVar}

/-! ### Names and their parts -/

lemma fullName_append {names : List String} (h : names ≠ []) (name : String) :
    fullName (names ++ [name]) = fullName names ++ "." ++ name := by
  rw [fullName, String.intercalate_append_of_ne_nil h (List.cons_ne_nil _ _),
    String.intercalate_singleton]
  rfl

lemma toList_fullName (names : List String) :
    (fullName names).toList = ['.'].intercalate (names.map String.toList) := by
  rw [fullName, String.toList_intercalate]
  rfl

lemma fullName_inj {p q : List String} (hp : ∀ n ∈ p, '.' ∉ n.toList)
    (hq : ∀ n ∈ q, '.' ∉ n.toList) (hp' : p ≠ []) (hq' : q ≠ [])
    (h : fullName p = fullName q) : p = q := by
  have hsplit : ∀ r : List String, (∀ n ∈ r, '.' ∉ n.toList) → r ≠ [] →
      (fullName r).toList.splitOn '.' = r.map String.toList := by
    intro r hr hr'
    rw [toList_fullName]
    exact List.splitOn_intercalate '.' (by simpa using hr) (by simpa using hr')
  have hmap : p.map String.toList = q.map String.toList := by
    rw [← hsplit p hp hp', ← hsplit q hq hq', h]
  exact List.map_injective_iff.mpr (fun a b => String.toList_inj.mp) hmap

lemma rsplitOnce_of_dot {name : String} (h : '.' ∈ name.toList) :
    ∃ path n, rsplitOnce name = some (path, n) ∧ fullName (path ++ [n]) = name ∧
      ∀ m ∈ path ++ [n], '.' ∉ m.toList := by
  have hjoin : ['.'].intercalate (name.toList.splitOn '.') = name.toList :=
    List.intercalate_splitOn '.'
  have hdots : ∀ part ∈ name.toList.splitOn '.', '.' ∉ part :=
    fun part hpart => (Separator.of_mem_splitOn name.toList part hpart).1
  rw [rsplitOnce]
  generalize name.toList.splitOn '.' = parts at hjoin hdots
  obtain ⟨rev, rfl⟩ : ∃ rev : List (List Char), parts = rev.reverse :=
    ⟨parts.reverse, (List.reverse_reverse parts).symm⟩
  rw [List.reverse_reverse]
  match rev with
  | [] =>
    rw [← hjoin] at h
    simp at h
  | [signalName] =>
    have hname : signalName = name.toList := by simpa using hjoin
    exact absurd (hname ▸ h) (hdots signalName (by simp))
  | signalName :: part :: parts =>
    have hmap : ((part :: parts).reverse.map String.ofList ++ [String.ofList signalName]).map
        String.toList = (signalName :: part :: parts).reverse := by
      simp [Function.comp_def]
    refine ⟨_, _, rfl, ?_, fun m hm => ?_⟩
    · rw [← String.toList_inj, toList_fullName, hmap, hjoin]
    · exact hdots _ (hmap ▸ List.mem_map_of_mem hm)

/-! ### Distinct names -/

lemma Declared.path_ne_nil (d : Declared) : d.path ≠ [] := by simp [path]

lemma Declared.dot_mem_varName (d : Declared) (v : ScopeVar) : '.' ∈ (d.varName v).toList := by
  rw [varName, fullName_append d.path_ne_nil]
  simp

lemma Nested.eq_of_mem (h : Nested scopes) (hd : d ∈ declaredIn scopes [])
    (hd' : d' ∈ declaredIn scopes []) {name : String} (hname : name ∈ d.fullNames)
    (hname' : name ∈ d'.fullNames) : d = d' := by
  by_contra hne
  have hdisjoint := (List.nodup_flatMap.mp h.nodup).2
  have : Std.Symm (Function.onFun List.Disjoint Declared.fullNames) :=
    ⟨fun _ _ hdis => hdis.symm⟩
  exact hdisjoint.forall hd hd' hne hname hname'

lemma Nested.nodup_fullNames (h : Nested scopes) (hd : d ∈ declaredIn scopes []) :
    d.fullNames.Nodup :=
  (List.nodup_flatMap.mp h.nodup).1 d hd

lemma Declared.varName_mem_fullNames (hv : v ∈ d.vars) : d.varName v ∈ d.fullNames :=
  List.mem_cons_of_mem _ (List.mem_map_of_mem hv)

lemma Nested.eq_of_varName (h : Nested scopes) (hd : d ∈ declaredIn scopes [])
    (hd' : d' ∈ declaredIn scopes []) (hv : v ∈ d.vars) (hv' : v' ∈ d'.vars)
    (hname : d.varName v = d'.varName v') : d = d' ∧ v = v' := by
  obtain rfl := h.eq_of_mem hd hd' (Declared.varName_mem_fullNames hv)
    (hname ▸ Declared.varName_mem_fullNames hv')
  have hnodup := (List.nodup_cons.mp (h.nodup_fullNames hd)).2
  exact ⟨rfl, List.inj_on_of_nodup_map hnodup hv hv' hname⟩

lemma Nested.varName_ne (h : Nested scopes) (hd : d ∈ declaredIn scopes [])
    (hd' : d' ∈ declaredIn scopes []) (hv : v ∈ d.vars) : d.varName v ≠ fullName d'.path := by
  intro heq
  obtain rfl := h.eq_of_mem hd hd' (Declared.varName_mem_fullNames hv)
    (heq ▸ List.mem_cons_self)
  exact (List.nodup_cons.mp (h.nodup_fullNames hd)).1 (heq ▸ List.mem_map_of_mem hv)

/-! ### What the file says -/

lemma walked_sublist (scopes : List Scope) : (walked scopes).Sublist (declaredIn scopes []) := by
  rw [walked]
  induction scopes with
  | nil => exact List.Sublist.refl _
  | cons scope rest ih =>
    rw [List.filter_cons]
    split_ifs
    · rw [declaredIn, declaredIn]
      exact ih.append_left _
    · rw [declaredIn]
      exact ih.trans (List.sublist_append_right _ _)

lemma Nested.findable (h : Nested scopes) (hwave : wave.Reads scopes)
    (hd : d ∈ declaredIn scopes []) (hv : v ∈ d.vars) : Findable wave d.path v := by
  obtain ⟨path, n, hsplit, hname, hdots⟩ := rsplitOnce_of_dot (d.dot_mem_varName v)
  have hfind : find wave (fullName (d.path ++ [v.name])) =
      .value ((wave.lookupVar path n).map Var.signalRef) := by
    change find wave (d.varName v) = _
    rw [find, hsplit]
  rw [Findable, hfind]
  congr 1
  cases hvar : wave.lookupVar path n with
  | some var =>
    obtain ⟨d', hd', v', hv', rfl, rfl, rfl⟩ := (hwave.lookupVar path n var).mp hvar
    obtain ⟨rfl, rfl⟩ := h.eq_of_varName hd' hd hv' hv hname
    rw [if_pos (show Searchable d'.path v' from hdots)]
    rfl
  | none =>
    rw [if_neg]
    · rfl
    intro hsearch
    have heq := fullName_inj hdots hsearch (by simp) (by simp) hname
    obtain ⟨rfl, hn⟩ := List.append_inj' heq rfl
    obtain rfl : n = v.name := by simpa using hn
    rw [(hwave.lookupVar d.path v.name v.toVar).mpr ⟨d, hd, v, hv, rfl, rfl, rfl⟩] at hvar
    cases hvar

lemma Nested.looks (h : Nested scopes) (hwave : wave.Reads scopes) (hd : d ∈ walked scopes) :
    d.Looks wave := by
  have hmem := (walked_sublist scopes).subset hd
  exact ⟨fun v hv => h.findable hwave hmem hv, hwave.width d hmem⟩

lemma Asked.sound {c : Caches} (h : Asked wave c) : c.Sound wave := by
  induction h with
  | empty => exact Caches.sound_empty wave
  | ask h hask ih => exact (sound_of_ask ih hask).1

/-- A walk gives a value where nothing that it looks at is a panic, and it shows what there is. -/
lemma yields_walk (h : Nested scopes) (hwave : wave.Reads scopes) {c : Caches}
    (hc : Asked wave c) :
    Codec.Outcome.Yields (showModules wave (scopes.filter isValidTopModuleScope) [] c)
      (∀ d ∈ walked scopes, d.Readable wave)
      fun y => y.1 = shownIn (scopes.filter isValidTopModuleScope) [] ∧ y.2.Sound wave :=
  yields_showModules _ hc.sound h.modules fun _ hd => h.looks hwave hd

end Verilua.Wellen

/-!
### When the collection of the hierarchy is complete

A variable is hidden by an earlier one of its module that has its signal reference and is iterated
by the same type, and by a dot in its full name that is not one between two names. Where no
variable is hidden, and looking at none of them is a panic, every module and variable is collected.
-/

namespace Verilua.Wellen

open Codec (Outcome)
open Codec.Outcome (Yields)
open Hierarchy (ObjectType VpiObject VpiModule HierarchyEntry objectTypes childPath sigType
  objectEntries objectEntry moduleEntry visits visitsAll collectHierarchyEntries)

variable {wave : WaveFile} {scopes : List Scope} {d d' : Declared} {v v' : ScopeVar}
  {c : Caches} {type : ObjectType} {vars : List ScopeVar} {visited : List SignalRef}

/-! ### The paths of the walk -/

/-- The path of a module in the walk. -/
def walkPath (names : List String) : String := names.foldl childPath ""

lemma walkPath_append (names : List String) (name : String) :
    walkPath (names ++ [name]) = childPath (walkPath names) name := by
  rw [walkPath, List.foldl_append]
  rfl

lemma walkPath_empty_cons (names : List String) : walkPath ("" :: names) = walkPath names := rfl

lemma length_walkPath_le (names : List String) :
    (walkPath names).length ≤ (fullName names).length := by
  induction names using List.reverseRecOn with
  | nil => simp [walkPath]
  | append_singleton names name ih =>
    rw [walkPath_append, childPath]
    by_cases hnil : names = []
    · subst hnil
      simp [walkPath, fullName]
    · rw [fullName_append hnil]
      split_ifs
      · simp
      · simp only [String.length_append]
        omega

lemma length_walkPath_lt {names : List String} (h : names ≠ []) :
    (walkPath ("" :: names)).length < (fullName ("" :: names)).length := by
  have hle := length_walkPath_le names
  rw [walkPath_empty_cons, fullName, String.intercalate_cons_of_ne_nil h]
  simp only [String.length_append]
  rw [fullName] at hle
  have hdot : ".".length = 1 := by decide
  omega

lemma walkPath_cons {name : String} (hname : name ≠ "") (names : List String) :
    walkPath (name :: names) = fullName (name :: names) := by
  induction names using List.reverseRecOn with
  | nil => simp [walkPath, fullName, childPath]
  | append_singleton names last ih =>
    have hne : fullName (name :: names) ≠ "" := by
      intro heq
      have hlength := congrArg (fun s => s.toList) heq
      cases names <;> simp_all [fullName]
    rw [← List.cons_append, walkPath_append, ih, childPath, if_neg hne,
      fullName_append (List.cons_ne_nil _ _)]

lemma Declared.walkPath_eq (h : d.parents.head? ≠ some "") : walkPath d.path = fullName d.path := by
  rw [path]
  cases hparents : d.parents with
  | nil => simp [walkPath, fullName, childPath]
  | cons name names =>
    rw [hparents, List.head?_cons] at h
    rw [List.cons_append]
    exact walkPath_cons (fun heq => h (congrArg some heq)) _

lemma Declared.length_walkPath_lt (h : d.parents.head? = some "") :
    (walkPath d.path).length < (fullName d.path).length := by
  obtain ⟨names, hparents⟩ := List.head?_eq_some_iff.mp h
  rw [path, hparents, List.cons_append]
  exact Wellen.length_walkPath_lt (by simp)

/-! ### What the walk visits -/

/-- The parts of an entry that do not depend on the level. -/
def shape (entry : HierarchyEntry) : String × Option String × Int :=
  (entry.fullPath, entry.sigType, entry.bitwidth)

namespace Declared

def varShape (d : Declared) (v : ScopeVar) : String × Option String × Int :=
  (d.varName v, some (sigType (mapVarTypeToVpiIterType v.varType)), toPliInt32 v.width)

def shapes (d : Declared) : List (String × Option String × Int) :=
  (walkPath d.path, none, -1) :: objectTypes.flatMap fun type => (d.shownVars type).map d.varShape

end Declared

lemma map_shape_objectEntries (d : Declared) (fullPath : String) (level : Int)
    (type : ObjectType) :
    (objectEntries fullPath level type (d.objects type)).map shape =
      (d.shownVars type).map d.varShape := by
  rw [objectEntries, Declared.objects, List.filterMap_map, List.map_filterMap,
    ← List.filterMap_eq_map]
  refine List.filterMap_congr fun v hv => ?_
  have htype := (mem_of_mem_firstVars (List.mem_filter.mp hv).1).2.1
  have hdot := d.dot_mem_varName v
  rw [Declared.varName] at hdot
  simp [shownObject, shape, objectEntry, Hierarchy.objectPath, hdot, Declared.varShape, htype,
    Declared.varName]

mutual

lemma map_shape_visits (scope : Scope) (parents : List String) (level : Int) :
    (visits (scope.shown parents) (walkPath parents) level).map shape =
      (scope.declared parents).flatMap Declared.shapes := by
  match scope with
  | .mk name scopeType vars scopes =>
    rw [Scope.shown, visits, Scope.declared, List.flatMap_cons, ← walkPath_append, List.map_cons,
      List.map_append, map_shape_visitsAll, List.map_flatMap, Declared.shapes, List.cons_append]
    congr 2
    exact List.flatMap_congr fun type _ => map_shape_objectEntries _ _ _ type

lemma map_shape_visitsAll (scopes : List Scope) (parents : List String) (level : Int) :
    (visitsAll (shownIn scopes parents) (walkPath parents) level).map shape =
      (declaredIn scopes parents).flatMap Declared.shapes := by
  match scopes with
  | [] => rfl
  | scope :: rest =>
    rw [shownIn, visitsAll, declaredIn, List.map_append, List.flatMap_append, map_shape_visits,
      map_shape_visitsAll]

end

/-- The modules that the walk shows where nothing that it looks at is a panic. -/
def shownTops (scopes : List Scope) : List VpiModule :=
  shownIn (scopes.filter isValidTopModuleScope) []

lemma map_shape_shownTops (scopes : List Scope) :
    (visitsAll (shownTops scopes) "" 0).map shape = (walked scopes).flatMap Declared.shapes :=
  map_shape_visitsAll _ [] 0

lemma map_fst_shape (entries : List HierarchyEntry) :
    (entries.map shape).map Prod.fst = entries.map HierarchyEntry.fullPath := by
  rw [List.map_map]
  rfl

/-! ### Where everything is shown -/

namespace Declared

def varsOf (d : Declared) (type : ObjectType) : List ScopeVar :=
  d.vars.filter fun v => mapVarTypeToVpiIterType v.varType = type

/-- The module and its variables can be shown.
* The top module above it has a name.
* Its name and the full names of its variables are C strings, and the names in the full names of its
  variables have no dots.
* No two variables that are iterated by the same type have the same signal reference.
* The signal of every variable has a first value, a bit vector, and its width fits `PLI_INT32`. -/
structure Showable (wave : WaveFile) (d : Declared) : Prop where
  top : d.parents.head? ≠ some ""
  name : '\x00' ∉ d.name.toList
  varNames : ∀ v ∈ d.vars, '\x00' ∉ (d.varName v).toList ∧ Searchable d.path v
  refs : ∀ type, ((d.varsOf type).map fun v => v.signalRef).Nodup
  width : ∀ v ∈ d.vars, HasWidth wave v ∧ v.width < 2 ^ 31

end Declared

lemma firstVars_eq_filter
    (h : ((vars.filter fun v => mapVarTypeToVpiIterType v.varType = type).map
      fun v => v.signalRef).Nodup)
    (hvisited : ∀ v ∈ vars, mapVarTypeToVpiIterType v.varType = type → v.signalRef ∉ visited) :
    firstVars type vars visited =
      vars.filter fun v => mapVarTypeToVpiIterType v.varType = type := by
  induction vars generalizing visited with
  | nil => rfl
  | cons v vars ih =>
    have hrest := fun w hw => hvisited w (List.mem_cons_of_mem v hw)
    rw [firstVars]
    by_cases htype : mapVarTypeToVpiIterType v.varType = type
    · rw [List.filter_cons_of_pos (by simpa using htype), List.map_cons, List.nodup_cons] at h
      rw [if_neg (not_not.mpr htype), if_neg (hvisited v List.mem_cons_self htype),
        List.filter_cons_of_pos (by simpa using htype)]
      congr 1
      refine ih h.2 fun w hw hwtype hmem => ?_
      rcases List.mem_cons.mp hmem with heq | hmem
      · exact h.1 (heq ▸ List.mem_map_of_mem (List.mem_filter.mpr ⟨hw, by simpa using hwtype⟩))
      · exact hrest w hw hwtype hmem
    · rw [List.filter_cons_of_neg (by simpa using htype)] at h ⊢
      rw [if_pos htype]
      exact ih h hrest

lemma nodup_of_mem_firstVars (hnodup : vars.Nodup)
    (h : ∀ v ∈ vars, mapVarTypeToVpiIterType v.varType = type → v ∈ firstVars type vars visited) :
    ((vars.filter fun v => mapVarTypeToVpiIterType v.varType = type).map
      fun v => v.signalRef).Nodup := by
  induction vars generalizing visited with
  | nil => exact List.nodup_nil
  | cons v vars ih =>
    obtain ⟨hv, hnodup⟩ := List.nodup_cons.mp hnodup
    rw [firstVars] at h
    by_cases htype : mapVarTypeToVpiIterType v.varType = type
    · rw [if_neg (not_not.mpr htype)] at h
      split_ifs at h with hvisited
      · exact absurd (mem_of_mem_firstVars (h v List.mem_cons_self htype)).1 hv
      · have hrest : ∀ w ∈ vars, mapVarTypeToVpiIterType w.varType = type →
            w ∈ firstVars type vars (v.signalRef :: visited) := by
          intro w hw hwtype
          rcases List.mem_cons.mp (h w (List.mem_cons_of_mem v hw) hwtype) with rfl | hmem
          · exact absurd hw hv
          · exact hmem
        rw [List.filter_cons_of_pos (by simpa using htype), List.map_cons, List.nodup_cons]
        refine ⟨fun hmem => ?_, ih hnodup hrest⟩
        obtain ⟨w, hw, heq⟩ := List.mem_map.mp hmem
        obtain ⟨hw, hwtype⟩ := List.mem_filter.mp hw
        have hfirst := hrest w hw (by simpa using hwtype)
        exact (mem_of_mem_firstVars hfirst).2.2 (heq ▸ List.mem_cons_self)
    · rw [if_pos htype] at h
      rw [List.filter_cons_of_neg (by simpa using htype)]
      exact ih hnodup fun w hw => h w (List.mem_cons_of_mem v hw)

lemma Declared.mem_varsOf : v ∈ d.varsOf type ↔
    v ∈ d.vars ∧ mapVarTypeToVpiIterType v.varType = type := by
  simp [varsOf]

lemma Declared.perm_varsOf (d : Declared) : (objectTypes.flatMap d.varsOf).Perm d.vars := by
  have hperm : ∀ vars : List ScopeVar, (objectTypes.flatMap fun type =>
      vars.filter fun v => mapVarTypeToVpiIterType v.varType = type).Perm vars := by
    intro vars
    induction vars with
    | nil => exact List.Perm.refl _
    | cons v vars ih =>
      simp only [objectTypes, List.flatMap_cons, List.flatMap_nil, List.append_nil] at ih ⊢
      cases htype : mapVarTypeToVpiIterType v.varType with
      | vpiNet => simpa [htype] using ih
      | vpiReg => simpa [htype] using List.perm_middle.trans (ih.cons v)
      | vpiMemory =>
        simp only [htype, List.filter_cons, decide_true, if_true, reduceCtorEq, decide_false,
          Bool.false_eq_true, if_false]
        rw [← List.append_assoc]
        refine List.perm_middle.trans (List.Perm.cons v ?_)
        rw [List.append_assoc]
        exact ih
  exact hperm d.vars

lemma Declared.Showable.shownVars_eq (h : d.Showable wave) (type : ObjectType) :
    d.shownVars type = d.varsOf type := by
  rw [shownVars, Wellen.shownVars, firstVars_eq_filter (h.refs type) (by simp), varsOf,
    List.filter_eq_self]
  intro v hv
  exact decide_eq_true (h.varNames v (List.mem_filter.mp hv).1).2

lemma Declared.Showable.readable (h : d.Showable wave) : d.Readable wave where
  name := h.name
  scans type := by
    refine ⟨fun v hv => (h.varNames v (mem_of_mem_firstVars hv).1).1, fun v hv => ?_⟩
    rw [h.shownVars_eq] at hv
    exact (h.width v (mem_varsOf.mp hv).1).1

lemma Declared.Showable.perm_fullNames (h : d.Showable wave) :
    (d.shapes.map Prod.fst).Perm d.fullNames := by
  have hshown : (objectTypes.flatMap fun type => (d.shownVars type).map d.varShape) =
      (objectTypes.flatMap d.varsOf).map d.varShape := by
    rw [List.map_flatMap]
    exact List.flatMap_congr fun type _ => by rw [h.shownVars_eq]
  rw [shapes, hshown, List.map_cons, List.map_map, walkPath_eq h.top]
  exact (d.perm_varsOf.map d.varName).cons _

lemma toPliInt32_eq {n : Nat} : toPliInt32 n = n ↔ n < 2 ^ 31 := by
  have hlt := BitVec.toInt_lt (x := BitVec.ofNat 32 n)
  rw [toPliInt32]
  constructor
  · intro h
    omega
  · intro h
    rw [BitVec.toInt_eq_toNat_of_lt] <;> simp <;> omega

lemma perm_fullNames_walked (h : ∀ d ∈ walked scopes, d.Showable wave) :
    ((visitsAll (shownTops scopes) "" 0).map HierarchyEntry.fullPath).Perm
      ((walked scopes).flatMap Declared.fullNames) := by
  rw [← map_fst_shape, map_shape_shownTops, List.map_flatMap]
  exact List.Perm.flatMap_left _ fun d hd => (h d hd).perm_fullNames

lemma perm_collected (hs : Nested scopes) (h : ∀ d ∈ walked scopes, d.Showable wave) :
    (collectHierarchyEntries (shownTops scopes) 0).Perm (visitsAll (shownTops scopes) "" 0) := by
  have hnodup : ((visitsAll (shownTops scopes) "" 0).map HierarchyEntry.fullPath).Nodup :=
    (perm_fullNames_walked h).nodup_iff.mpr (hs.nodup.sublist ((walked_sublist scopes).flatMap _))
  have hall : (visitsAll (shownTops scopes) "" 0).filter (Hierarchy.within 0) =
      visitsAll (shownTops scopes) "" 0 :=
    List.filter_eq_self.mpr fun entry _ => by simp [Hierarchy.within]
  rw [collectHierarchyEntries,
    Hierarchy.entries_collectHierarchyRecursive_of_nodup hnodup, hall]
  exact List.mergeSort_perm _ _

lemma shape_mem_shapes {entry : HierarchyEntry} (h : entry ∈ visitsAll (shownTops scopes) "" 0) :
    ∃ d ∈ walked scopes, entry.fullPath = walkPath d.path ∨
      ∃ v ∈ d.vars, v ∈ d.shownVars (mapVarTypeToVpiIterType v.varType) ∧
        shape entry = d.varShape v := by
  have hmem : shape entry ∈ (walked scopes).flatMap Declared.shapes :=
    map_shape_shownTops scopes ▸ List.mem_map_of_mem h
  obtain ⟨d, hd, hshape⟩ := List.mem_flatMap.mp hmem
  refine ⟨d, hd, ?_⟩
  rcases List.mem_cons.mp hshape with heq | hshape
  · exact .inl (congrArg Prod.fst heq)
  · obtain ⟨type, -, hshape⟩ := List.mem_flatMap.mp hshape
    obtain ⟨v, hv, heq⟩ := List.mem_map.mp hshape
    obtain ⟨hvars, htype, -⟩ := mem_of_mem_firstVars (List.mem_filter.mp hv).1
    exact .inr ⟨v, hvars, htype ▸ hv, heq.symm⟩

lemma sigType_eq_wire (varType : VarType) :
    some (sigType (mapVarTypeToVpiIterType varType)) = some "wire" ↔ varType = .wire := by
  cases varType <;> decide

lemma complete_of_showable (hs : Nested scopes) (h : ∀ d ∈ walked scopes, d.Showable wave) :
    Complete scopes (collectHierarchyEntries (shownTops scopes) 0) := by
  have hperm := perm_collected hs h
  have hnames := (hperm.map HierarchyEntry.fullPath).trans (perm_fullNames_walked h)
  have hsub := walked_sublist scopes
  refine ⟨hnames.nodup_iff.mpr (hs.nodup.sublist (hsub.flatMap _)), ?_, ?_⟩
  · intro path
    rw [hnames.mem_iff, List.mem_flatMap]
  · intro d hd v hv entry hentry hpath
    obtain ⟨d', hd', hwalk | ⟨v', hv', -, hshape⟩⟩ := shape_mem_shapes (hperm.mem_iff.mp hentry)
    · rw [hpath, Declared.walkPath_eq (h d' hd').top] at hwalk
      exact absurd hwalk (hs.varName_ne (hsub.subset hd) (hsub.subset hd') hv)
    · obtain ⟨hpath', htype, hwidth⟩ : entry.fullPath = d'.varName v' ∧
          entry.sigType = some (sigType (mapVarTypeToVpiIterType v'.varType)) ∧
            entry.bitwidth = toPliInt32 v'.width := by
        simpa [shape, Declared.varShape] using hshape
      obtain ⟨rfl, rfl⟩ := hs.eq_of_varName (hsub.subset hd) (hsub.subset hd') hv hv'
        (hpath.symm.trans hpath')
      rw [htype, hwidth]
      exact ⟨toPliInt32_eq.mpr ((h d hd).width v hv).2, sigType_eq_wire v.varType⟩

/-! ### Where the collection is complete -/

section Necessity

variable (h : Complete scopes (collectHierarchyEntries (shownTops scopes) 0))

include h

lemma Complete.shown {name : String} (hd : d ∈ walked scopes) (hname : name ∈ d.fullNames) :
    ∃ d' ∈ walked scopes, name = walkPath d'.path ∨
      ∃ v ∈ d'.vars, v ∈ d'.shownVars (mapVarTypeToVpiIterType v.varType) ∧ name = d'.varName v := by
  obtain ⟨entry, hentry, rfl⟩ := List.mem_map.mp ((h.mem_iff name).mpr ⟨d, hd, hname⟩)
  obtain ⟨e, he, hpath, -⟩ := Hierarchy.collectHierarchyEntries_among _ entry hentry
  obtain ⟨d', hd', hwalk | ⟨v, hv, hshown, hshape⟩⟩ := shape_mem_shapes he
  · exact ⟨d', hd', .inl (hpath ▸ hwalk)⟩
  · exact ⟨d', hd', .inr ⟨v, hv, hshown, hpath ▸ congrArg Prod.fst hshape⟩⟩

/-- The longest full name below a top module without a name would be the path of a longer one. -/
lemma Complete.top (hs : Nested scopes) (hd : d ∈ walked scopes) : d.parents.head? ≠ some "" := by
  intro hempty
  have hsub := walked_sublist scopes
  set short := (walked scopes).filter fun d => d.parents.head? = some "" with hshort
  have hmem : d ∈ short := List.mem_filter.mpr ⟨hd, by simpa using hempty⟩
  cases hlongest : short.argmax fun d => (fullName d.path).length with
  | none =>
    rw [List.argmax_eq_none.mp hlongest] at hmem
    cases hmem
  | some e =>
    obtain ⟨he, hetop⟩ := List.mem_filter.mp (List.argmax_mem hlongest)
    obtain ⟨d', hd', hwalk | ⟨v, hv, -, hname⟩⟩ := h.shown he List.mem_cons_self
    · by_cases htop : d'.parents.head? = some ""
      · have hlt := Declared.length_walkPath_lt htop
        have hle := List.le_of_mem_argmax
          (List.mem_filter.mpr ⟨hd', decide_eq_true htop⟩) hlongest
        rw [← hwalk] at hlt
        omega
      · rw [Declared.walkPath_eq htop] at hwalk
        obtain rfl := hs.eq_of_mem (hsub.subset he) (hsub.subset hd') List.mem_cons_self
          (hwalk ▸ List.mem_cons_self)
        exact htop (of_decide_eq_true hetop)
    · exact hs.varName_ne (hsub.subset hd') (hsub.subset he) hv hname.symm

lemma Complete.varShown (hs : Nested scopes) (hd : d ∈ walked scopes) (hv : v ∈ d.vars) :
    v ∈ d.shownVars (mapVarTypeToVpiIterType v.varType) := by
  have hsub := walked_sublist scopes
  obtain ⟨d', hd', hwalk | ⟨v', hv', hshown, hname⟩⟩ :=
    h.shown hd (Declared.varName_mem_fullNames hv)
  · rw [Declared.walkPath_eq (h.top hs hd')] at hwalk
    exact absurd hwalk (hs.varName_ne (hsub.subset hd) (hsub.subset hd') hv)
  · obtain ⟨rfl, rfl⟩ := hs.eq_of_varName (hsub.subset hd) (hsub.subset hd') hv hv' hname
    exact hshown

lemma Complete.width_lt (hs : Nested scopes) (hd : d ∈ walked scopes) (hv : v ∈ d.vars) :
    v.width < 2 ^ 31 := by
  have hsub := walked_sublist scopes
  obtain ⟨entry, hentry, hpath⟩ :=
    List.mem_map.mp ((h.mem_iff _).mpr ⟨d, hd, Declared.varName_mem_fullNames hv⟩)
  have hwidth := (h.var d hd v hv entry hentry hpath).1
  obtain ⟨e, he, hpath', hwidth'⟩ := Hierarchy.collectHierarchyEntries_among _ entry hentry
  obtain ⟨d', hd', hwalk | ⟨v', hv', -, hshape⟩⟩ := shape_mem_shapes he
  · rw [hpath', hpath, Declared.walkPath_eq (h.top hs hd')] at hwalk
    exact absurd hwalk (hs.varName_ne (hsub.subset hd) (hsub.subset hd') hv)
  · obtain ⟨hname, -, hbits⟩ : e.fullPath = d'.varName v' ∧
        e.sigType = some (sigType (mapVarTypeToVpiIterType v'.varType)) ∧
          e.bitwidth = toPliInt32 v'.width := by
      simpa [shape, Declared.varShape] using hshape
    obtain ⟨rfl, rfl⟩ := hs.eq_of_varName (hsub.subset hd) (hsub.subset hd') hv hv'
      (hpath.symm.trans (hpath'.symm.trans hname))
    exact toPliInt32_eq.mp (hbits.symm.trans (hwidth'.trans hwidth))

lemma Complete.showable (hs : Nested scopes) (hd : d ∈ walked scopes) (hread : d.Readable wave) :
    d.Showable wave := by
  have hfirst : ∀ v ∈ d.vars, v ∈ firstVars (mapVarTypeToVpiIterType v.varType) d.vars [] ∧
      Searchable d.path v := by
    intro v hv
    obtain ⟨hmem, hsearch⟩ := List.mem_filter.mp (h.varShown hs hd hv)
    exact ⟨hmem, of_decide_eq_true hsearch⟩
  have hnodup : d.vars.Nodup :=
    (List.nodup_cons.mp (hs.nodup_fullNames ((walked_sublist scopes).subset hd))).2.of_map _
  refine ⟨h.top hs hd, hread.name, fun v hv => ?_, fun type => ?_, fun v hv => ?_⟩
  · exact ⟨(hread.scans _).names v (hfirst v hv).1, (hfirst v hv).2⟩
  · exact nodup_of_mem_firstVars hnodup fun v hv htype => htype ▸ (hfirst v hv).1
  · exact ⟨(hread.scans _).width v (h.varShown hs hd hv), h.width_lt hs hd hv⟩

end Necessity

lemma showable_of_collectHierarchy (hs : Nested scopes) (hwave : wave.Reads scopes)
    (hc : Asked wave c) {entries : List HierarchyEntry} {c' : Caches}
    (hvalue : collectHierarchy wave scopes c = .value (entries, c'))
    (hcomplete : Complete scopes entries) : ∀ d ∈ walked scopes, d.Showable wave := by
  intro d hd
  rw [collectHierarchy] at hvalue
  cases hx : showModules wave (scopes.filter isValidTopModuleScope) [] c with
  | value y =>
    obtain ⟨modules, c''⟩ := y
    obtain ⟨hread, rfl, -⟩ := (yields_walk hs hwave hc).sound hx
    rw [hx] at hvalue
    obtain ⟨rfl, -⟩ := Prod.mk.inj (Outcome.value.inj hvalue)
    exact hcomplete.showable hs hd (hread d hd)
  | fail =>
    rw [hx] at hvalue
    cases hvalue
  | panic =>
    rw [hx] at hvalue
    cases hvalue

/-- The collection over the waveform is complete exactly where every module at or below a valid top
module can be shown with its variables. -/
theorem collectHierarchy_complete_iff (hs : Nested scopes) (hwave : wave.Reads scopes)
    (hc : Asked wave c) :
    (∃ entries c', collectHierarchy wave scopes c = .value (entries, c') ∧
        Complete scopes entries) ↔
      ∀ d ∈ walked scopes, d.Showable wave := by
  constructor
  · rintro ⟨entries, c', hvalue, hcomplete⟩
    exact showable_of_collectHierarchy hs hwave hc hvalue hcomplete
  · intro h
    have hwalk := yields_walk hs hwave hc
    obtain ⟨⟨modules, c'⟩, hx⟩ := hwalk.total fun d hd => (h d hd).readable
    obtain ⟨-, rfl, -⟩ := hwalk.sound hx
    refine ⟨_, c', ?_, complete_of_showable hs h⟩
    rw [collectHierarchy, hx]
    rfl

/-! ### Two variables of one signal -/

def sampleVar (name : String) (varType : VarType) : ScopeVar :=
  { varType := varType, signalRef := 0, name := name, width := 1 }

/-- A module with two variables of one signal, the second one of this type, which is connected to
the module in it. -/
def sampleTop (varType : VarType) : Scope :=
  .mk "t" .module [sampleVar "a" .wire, sampleVar "b" varType]
    [.mk "u" .module [sampleVar "a" .wire] []]

def sampleFile (varType : VarType) : WaveFile where
  lookupVar path name :=
    if path = ["t"] ∧ name = "a" then some ⟨.wire, 0⟩
    else if path = ["t"] ∧ name = "b" then some ⟨varType, 0⟩
    else if path = ["t", "u"] ∧ name = "a" then some ⟨.wire, 0⟩
    else none
  loadSignal _ := ⟨some 0, fun _ => some (.bitVec Wave.oneBit)⟩
  timeTable := .start

lemma declaredIn_sampleTop (varType : VarType) : declaredIn [sampleTop varType] [] =
    [⟨[], "t", .module, [sampleVar "a" .wire, sampleVar "b" varType]⟩,
      ⟨["t"], "u", .module, [sampleVar "a" .wire]⟩] := by
  simp [sampleTop, declaredIn, Scope.declared]

lemma walked_sampleTop (varType : VarType) :
    walked [sampleTop varType] = declaredIn [sampleTop varType] [] := by
  have hvalid : isValidTopModuleScope (sampleTop varType) = true := by
    cases varType <;> decide
  rw [walked, List.filter_cons_of_pos hvalid, List.filter_nil]

lemma nested_sampleTop (varType : VarType) : Nested [sampleTop varType] where
  modules := by simp [walked_sampleTop, declaredIn_sampleTop]
  nodup := by
    have hnames : (declaredIn [sampleTop varType] []).flatMap Declared.fullNames =
        ["t", "t.a", "t.b", "t.u", "t.u.a"] := by
      rw [declaredIn_sampleTop]
      cases varType <;> decide +kernel
    rw [hnames]
    decide

lemma reads_sampleFile (varType : VarType) : (sampleFile varType).Reads [sampleTop varType] where
  lookupVar path name var := by
    rw [declaredIn_sampleTop]
    constructor
    · intro h
      simp only [sampleFile] at h
      split_ifs at h with ha hb hu
      · obtain rfl := Option.some.inj h
        exact ⟨_, List.mem_cons_self, _, List.mem_cons_self, ha.1.symm, ha.2.symm, rfl⟩
      · obtain rfl := Option.some.inj h
        exact ⟨_, List.mem_cons_self, _, List.mem_cons_of_mem _ List.mem_cons_self, hb.1.symm,
          hb.2.symm, rfl⟩
      · obtain rfl := Option.some.inj h
        exact ⟨_, List.mem_cons_of_mem _ List.mem_cons_self, _, List.mem_cons_self, hu.1.symm,
          hu.2.symm, rfl⟩
    · rintro ⟨d, hd, v, hv, rfl, rfl, rfl⟩
      simp only [List.mem_cons, List.not_mem_nil, or_false] at hd
      rcases hd with rfl | rfl
      · simp only [List.mem_cons, List.not_mem_nil, or_false] at hv
        rcases hv with rfl | rfl <;> rfl
      · obtain rfl := List.mem_singleton.mp hv
        rfl
  width := by
    rw [declaredIn_sampleTop]
    intro d hd v hv w hw
    have hw' : (1 : Nat) = w := Outcome.value.inj hw
    subst hw'
    simp only [List.mem_cons, List.not_mem_nil, or_false] at hd
    rcases hd with rfl | rfl
    · simp only [List.mem_cons, List.not_mem_nil, or_false] at hv
      rcases hv with rfl | rfl <;> rfl
    · obtain rfl := List.mem_singleton.mp hv
      rfl

lemma showable_sampleTop : ∀ d ∈ declaredIn [sampleTop .reg] [], d.Showable (sampleFile .reg) := by
  have hwidth : ∀ v : ScopeVar, HasWidth (sampleFile .reg) v := fun _ => ⟨1, rfl⟩
  rw [declaredIn_sampleTop]
  intro d hd
  simp only [List.mem_cons, List.not_mem_nil, or_false] at hd
  rcases hd with rfl | rfl
  · refine ⟨by decide, by decide, by decide +kernel, fun type => ?_, fun v hv => ⟨hwidth v, ?_⟩⟩
    · cases type <;> decide
    · revert v
      decide
  · refine ⟨by decide, by decide, by decide +kernel, fun type => ?_, fun v hv => ⟨hwidth v, ?_⟩⟩
    · cases type <;> decide
    · revert v
      decide

theorem collectHierarchy_complete_sampleTop :
    ∃ entries c', collectHierarchy (sampleFile .reg) [sampleTop .reg] .empty =
      .value (entries, c') ∧ Complete [sampleTop .reg] entries := by
  refine (collectHierarchy_complete_iff (nested_sampleTop .reg) (reads_sampleFile .reg)
    .empty).mpr ?_
  rw [walked_sampleTop]
  exact showable_sampleTop

/-- Two wires of one module that have one signal: the second one is not collected. -/
theorem not_collectHierarchy_complete :
    Nested [sampleTop .wire] ∧ (sampleFile .wire).Reads [sampleTop .wire] ∧
      ¬ ∃ entries c', collectHierarchy (sampleFile .wire) [sampleTop .wire] .empty =
        .value (entries, c') ∧ Complete [sampleTop .wire] entries := by
  refine ⟨nested_sampleTop .wire, reads_sampleFile .wire, ?_⟩
  rintro ⟨entries, c', hvalue, hcomplete⟩
  have hshow := showable_of_collectHierarchy (nested_sampleTop .wire) (reads_sampleFile .wire)
    .empty hvalue hcomplete
  rw [walked_sampleTop, declaredIn_sampleTop] at hshow
  exact absurd ((hshow _ List.mem_cons_self).refs .vpiNet) (by decide)

end Verilua.Wellen
