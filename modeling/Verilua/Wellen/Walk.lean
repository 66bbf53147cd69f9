import Verilua.Lib.Yields
import Verilua.Wellen.Hierarchy
import Verilua.Wellen.Sound

/-!
# What a walk shows of the hierarchy

With sound caches a walk shows of every module the first variable of each signal reference and
type whose full name can be looked up, under its full name and with its width.
-/

namespace Verilua.Wellen

open Codec (Outcome)
open Codec.Outcome (Yields)
open Hierarchy (ObjectType VpiObject VpiModule HierarchyEntry cString objectTypes)

variable {wave : WaveFile} {c c' : Caches} {path : List String} {type : ObjectType}
  {vars : List ScopeVar} {visited : List SignalRef}

/-! ### The variables that are shown -/

/-- The names are the parts of the full name between its dots. -/
def Searchable (path : List String) (v : ScopeVar) : Prop := ∀ n ∈ path ++ [v.name], '.' ∉ n.toList

instance (path : List String) (v : ScopeVar) : Decidable (Searchable path v) :=
  inferInstanceAs (Decidable (∀ n ∈ path ++ [v.name], '.' ∉ n.toList))

/-- What the library finds for the full name of a variable. -/
def Findable (wave : WaveFile) (path : List String) (v : ScopeVar) : Prop :=
  find wave (fullName (path ++ [v.name])) =
    .value (if Searchable path v then some v.signalRef else none)

/-- The variables of the type, without those whose reference was visited. -/
def firstVars (type : ObjectType) : List ScopeVar → (visited : List SignalRef) → List ScopeVar
  | [], _ => []
  | v :: vars, visited =>
    if mapVarTypeToVpiIterType v.varType ≠ type then firstVars type vars visited
    else if v.signalRef ∈ visited then firstVars type vars visited
    else v :: firstVars type vars (v.signalRef :: visited)

def shownVars (type : ObjectType) (path : List String) (vars : List ScopeVar)
    (visited : List SignalRef) : List ScopeVar :=
  (firstVars type vars visited).filter fun v => Searchable path v

lemma mem_of_mem_firstVars {v : ScopeVar} (h : v ∈ firstVars type vars visited) :
    v ∈ vars ∧ mapVarTypeToVpiIterType v.varType = type ∧ v.signalRef ∉ visited := by
  induction vars generalizing visited with
  | nil => cases h
  | cons w vars ih =>
    rw [firstVars] at h
    split_ifs at h with htype hvisited
    · obtain ⟨hmem, hrest⟩ := ih h
      exact ⟨List.mem_cons_of_mem _ hmem, hrest⟩
    · obtain ⟨hmem, hrest⟩ := ih h
      exact ⟨List.mem_cons_of_mem _ hmem, hrest⟩
    · rcases List.mem_cons.mp h with rfl | h
      · exact ⟨List.mem_cons_self, not_not.mp htype, hvisited⟩
      · obtain ⟨hmem, htype', hvisited'⟩ := ih h
        exact ⟨List.mem_cons_of_mem _ hmem, htype',
          fun hv => hvisited' (List.mem_cons_of_mem _ hv)⟩

/-! ### One iterator -/

lemma yields_expectCString (name : String) :
    Yields (expectCString name) ('\x00' ∉ name.toList) fun n => n = name := by
  rw [expectCString, cString]
  by_cases h : '\x00' ∈ name.toList
  · rw [if_pos h]
    exact .panic (not_not.mpr h)
  · rw [if_neg h]
    exact .value h rfl

/-- The name that `vpi_get_str` gives for the handle is the one that was looked up last. -/
lemma Looked.names {name : String} {ref : Option SignalRef}
    (h : Looked wave name c (.value (ref, c'))) :
    c'.signalNameCache = ref.elim c.signalNameCache fun id => c.signalNameCache.insert id name := by
  cases h <;> rfl

lemma yields_handleByName {name : String} {ref : Option SignalRef} (hc : c.Sound wave)
    (hfind : find wave name = .value ref) :
    Yields (handleByName wave name c) True fun y => y.1 = ref ∧ y.2.Sound wave ∧
      (∀ id, Holds wave c.signalCache id → Holds wave y.2.signalCache id) ∧
      (∀ id, ref = some id → Holds wave y.2.signalCache id) ∧
      y.2.signalNameCache =
        ref.elim c.signalNameCache fun id => c.signalNameCache.insert id name := by
  have hlooked := Looked.of_handleByName wave name c
  have hfst := hlooked.fst_eq hc
  rw [hfind] at hfst
  cases hx : handleByName wave name c with
  | value y =>
    obtain ⟨ref', d⟩ := y
    rw [hx] at hlooked hfst
    obtain rfl : ref' = ref := by simpa using hfst
    obtain ⟨hsound, hkeeps, hheld⟩ := hlooked.sound hc
    exact .value trivial ⟨rfl, hsound, hkeeps, hheld, hlooked.names⟩
  | fail =>
    rw [hx] at hfst
    cases hfst
  | panic =>
    rw [hx] at hfst
    cases hfst

/-- The handle has the signal and the name of the variable. -/
def Caches.Has (wave : WaveFile) (path : List String) (c : Caches) (v : ScopeVar) : Prop :=
  Holds wave c.signalCache v.signalRef ∧
    c.signalNameCache.lookup v.signalRef = some (fullName (path ++ [v.name]))

lemma yields_collectSignalHandles (hc : c.Sound wave) (hfind : ∀ v ∈ vars, Findable wave path v) :
    Yields (collectSignalHandles wave type path vars visited c)
      (∀ v ∈ firstVars type vars visited, '\x00' ∉ (fullName (path ++ [v.name])).toList)
      fun y => y.1 = (shownVars type path vars visited).map (fun v => v.signalRef) ∧
        y.2.Sound wave ∧ (∀ id, Holds wave c.signalCache id → Holds wave y.2.signalCache id) ∧
        (∀ id ∈ visited, y.2.signalNameCache.lookup id = c.signalNameCache.lookup id) ∧
        ∀ v ∈ shownVars type path vars visited, y.2.Has wave path v := by
  induction vars generalizing visited c with
  | nil =>
    refine .value (by simp [firstVars]) ⟨rfl, hc, fun _ h => h, fun _ _ => rfl, ?_⟩
    simp [shownVars, firstVars]
  | cons v vars ih =>
    have hrest := fun w hw => hfind w (List.mem_cons_of_mem _ hw)
    rw [collectSignalHandles, shownVars, firstVars]
    split_ifs with htype hvisited
    · exact ih hc hrest
    · exact ih hc hrest
    · have hok : ('\x00' ∉ (fullName (path ++ [v.name])).toList ∧ True ∧
          (∀ w ∈ firstVars type vars (v.signalRef :: visited),
            '\x00' ∉ (fullName (path ++ [w.name])).toList) ∧ True) ↔
          ∀ w ∈ v :: firstVars type vars (v.signalRef :: visited),
            '\x00' ∉ (fullName (path ++ [w.name])).toList := by
        simp
      refine Yields.congr ?_ hok
      refine (yields_expectCString _).bind fun name hname => ?_
      subst hname
      refine (yields_handleByName hc (hfind v List.mem_cons_self)).bind fun y hy => ?_
      obtain ⟨ref, c₁⟩ := y
      obtain ⟨rfl, hsound, hkeeps, hheld, hnames⟩ := hy
      refine (ih hsound hrest).bind fun z hz => ?_
      obtain ⟨signalHandles, c₂⟩ := z
      obtain ⟨rfl, hsound', hkeeps', hnames', hhas⟩ := hz
      dsimp only at hnames hheld hkeeps hkeeps' hnames' hhas ⊢
      refine .value trivial ⟨?_, hsound', fun id h => hkeeps' id (hkeeps id h), ?_, ?_⟩
      · by_cases hv : Searchable path v <;> simp [hv, shownVars]
      · intro id hid
        rw [hnames' id (List.mem_cons_of_mem _ hid), hnames]
        split_ifs
        · exact AList.lookup_insert_ne fun heq => hvisited (heq ▸ hid)
        · rfl
      · intro w hw
        obtain ⟨hmem, hsearch⟩ := List.mem_filter.mp hw
        rcases List.mem_cons.mp hmem with rfl | hmem
        · rw [if_pos (of_decide_eq_true hsearch)] at hheld hnames
          refine ⟨hkeeps' _ (hheld _ rfl), ?_⟩
          rw [hnames' _ List.mem_cons_self, hnames]
          exact AList.lookup_insert _
        · exact hhas w (List.mem_filter.mpr ⟨hmem, hsearch⟩)

/-- The signal has a first value, and it is a bit vector. -/
def HasWidth (wave : WaveFile) (v : ScopeVar) : Prop :=
  ∃ width, firstWidth (wave.loadSignal v.signalRef) = .value width

/-- The object of a variable. -/
def shownObject (path : List String) (v : ScopeVar) : VpiObject :=
  ⟨some (fullName (path ++ [v.name])), toPliInt32 v.width⟩

lemma Holds.getSize {id : SignalRef} (h : Holds wave c.signalCache id) :
    getSize c id = firstWidth (wave.loadSignal id) := by
  obtain ⟨info, hinfo, hsignal⟩ := h.loaded
  rw [Wellen.getSize, hinfo, Outcome.value_bind, hsignal]

lemma yields_scanSignals (hhas : ∀ v ∈ vars, c.Has wave path v)
    (hwidth : ∀ v ∈ vars, ∀ width, firstWidth (wave.loadSignal v.signalRef) = .value width →
      width = v.width) :
    Yields (scanSignals (vars.map fun v => v.signalRef) c) (∀ v ∈ vars, HasWidth wave v)
      fun objects => objects = vars.map (shownObject path) := by
  induction vars with
  | nil => exact .value (by simp) rfl
  | cons v vars ih =>
    obtain ⟨hheld, hname⟩ := hhas v List.mem_cons_self
    have hsize : Yields (getSize c v.signalRef) (HasWidth wave v) fun size => size = v.width := by
      rw [hheld.getSize]
      exact ⟨fun h => ⟨⟨_, h⟩, hwidth v List.mem_cons_self _ h⟩, fun h => h⟩
    have hok : (HasWidth wave v ∧ (∀ w ∈ vars, HasWidth wave w) ∧ True) ↔
        ∀ w ∈ v :: vars, HasWidth wave w := by
      simp
    rw [List.map_cons, scanSignals, hname]
    refine Yields.congr ?_ hok
    refine hsize.bind fun size hsize => ?_
    subst hsize
    refine (ih (fun w hw => hhas w (List.mem_cons_of_mem _ hw))
      fun w hw => hwidth w (List.mem_cons_of_mem _ hw)).bind fun objects hobjects => ?_
    subst hobjects
    exact .value trivial rfl

/-! ### One module -/

namespace Declared

variable {d : Declared}

def shownVars (d : Declared) (type : ObjectType) : List ScopeVar :=
  Wellen.shownVars type d.path d.vars []

def objects (d : Declared) (type : ObjectType) : List VpiObject :=
  (d.shownVars type).map (shownObject d.path)

/-- Looking at the objects of the type is no panic. -/
structure Scans (wave : WaveFile) (d : Declared) (type : ObjectType) : Prop where
  names : ∀ v ∈ firstVars type d.vars [], '\x00' ∉ (d.varName v).toList
  width : ∀ v ∈ d.shownVars type, HasWidth wave v

/-- Looking at the module is no panic. -/
structure Readable (wave : WaveFile) (d : Declared) : Prop where
  name : '\x00' ∉ d.name.toList
  scans : ∀ type, d.Scans wave type

/-- What the file says of the variables. -/
structure Looks (wave : WaveFile) (d : Declared) : Prop where
  findable : ∀ v ∈ d.vars, Findable wave d.path v
  width : ∀ v ∈ d.vars, ∀ width, firstWidth (wave.loadSignal v.signalRef) = .value width →
    width = v.width

end Declared

lemma yields_iterateSignals {d : Declared} (hd : d.Looks wave) (hc : c.Sound wave) :
    Yields (iterateSignals wave type d.path d.vars c) (d.Scans wave type)
      fun y => y.1 = d.objects type ∧ y.2.Sound wave := by
  have hok : ((∀ v ∈ firstVars type d.vars [], '\x00' ∉ (d.varName v).toList) ∧
      (∀ v ∈ d.shownVars type, HasWidth wave v) ∧ True) ↔ d.Scans wave type :=
    ⟨fun h => ⟨h.1, h.2.1⟩, fun h => ⟨h.names, h.width, trivial⟩⟩
  refine Yields.congr ?_ hok
  refine (yields_collectSignalHandles hc hd.findable).bind fun y hy => ?_
  obtain ⟨signalHandles, c'⟩ := y
  obtain ⟨rfl, hsound, -, -, hhas⟩ := hy
  have hwidth : ∀ v ∈ d.shownVars type, ∀ width,
      firstWidth (wave.loadSignal v.signalRef) = .value width → width = v.width :=
    fun v hv => hd.width v (mem_of_mem_firstVars (List.mem_filter.mp hv).1).1
  refine (yields_scanSignals hhas hwidth).bind fun objects hobjects => ?_
  subst hobjects
  exact .value trivial ⟨rfl, hsound⟩

/-! ### All modules -/

mutual

/-- What a walk without panics shows of the scope. -/
def Scope.shown : Scope → (parents : List String) → VpiModule
  | .mk name scopeType vars scopes, parents =>
    .mk (some name) none (Declared.objects ⟨parents, name, scopeType, vars⟩)
      (shownIn scopes (parents ++ [name]))

def shownIn : List Scope → (parents : List String) → List VpiModule
  | [], _ => []
  | scope :: rest, parents => scope.shown parents :: shownIn rest parents

end

lemma objectsOf_objects (d : Declared) :
    objectsOf (d.objects .vpiNet) (d.objects .vpiReg) (d.objects .vpiMemory) = d.objects := by
  funext type
  cases type <;> rfl

mutual

lemma yields_showModule (scope : Scope) {parents : List String} {c : Caches} (hc : c.Sound wave)
    (hmodules : ∀ d ∈ scope.declared parents, d.scopeType = .module)
    (hlooks : ∀ d ∈ scope.declared parents, d.Looks wave) :
    Yields (showModule wave scope parents c) (∀ d ∈ scope.declared parents, d.Readable wave)
      fun y => y.1 = scope.shown parents ∧ y.2.Sound wave := by
  match scope with
  | .mk name scopeType vars scopes =>
    set d : Declared := ⟨parents, name, scopeType, vars⟩ with hd
    rw [Scope.declared, ← hd] at hmodules hlooks ⊢
    have hself := hlooks d List.mem_cons_self
    have hok : ('\x00' ∉ name.toList ∧ d.Scans wave .vpiNet ∧ d.Scans wave .vpiReg ∧
        d.Scans wave .vpiMemory ∧
          (∀ e ∈ declaredIn scopes (parents ++ [name]), e.Readable wave) ∧ True) ↔
        ∀ e ∈ d :: declaredIn scopes (parents ++ [name]), e.Readable wave := by
      rw [List.forall_mem_cons]
      constructor
      · rintro ⟨hname, hnet, hreg, hmemory, hrest, -⟩
        exact ⟨⟨hname, fun type => by cases type <;> assumption⟩, hrest⟩
      · rintro ⟨⟨hname, hscans⟩, hrest⟩
        exact ⟨hname, hscans _, hscans _, hscans _, hrest, trivial⟩
    rw [showModule]
    refine Yields.congr ?_ hok
    refine (yields_expectCString name).bind fun n hn => ?_
    subst hn
    refine (yields_iterateSignals hself hc).bind fun y hy => ?_
    obtain ⟨nets, c₁⟩ := y
    obtain ⟨rfl, hc₁⟩ := hy
    refine (yields_iterateSignals hself hc₁).bind fun y hy => ?_
    obtain ⟨regs, c₂⟩ := y
    obtain ⟨rfl, hc₂⟩ := hy
    refine (yields_iterateSignals hself hc₂).bind fun y hy => ?_
    obtain ⟨memories, c₃⟩ := y
    obtain ⟨rfl, hc₃⟩ := hy
    refine (yields_showModules scopes hc₃ (fun e he => hmodules e (List.mem_cons_of_mem _ he))
      fun e he => hlooks e (List.mem_cons_of_mem _ he)).bind fun y hy => ?_
    obtain ⟨children, c₄⟩ := y
    obtain ⟨rfl, hc₄⟩ := hy
    refine .value trivial ⟨?_, hc₄⟩
    rw [Scope.shown, ← hd, objectsOf_objects]

lemma yields_showModules (scopes : List Scope) {parents : List String} {c : Caches}
    (hc : c.Sound wave) (hmodules : ∀ d ∈ declaredIn scopes parents, d.scopeType = .module)
    (hlooks : ∀ d ∈ declaredIn scopes parents, d.Looks wave) :
    Yields (showModules wave scopes parents c) (∀ d ∈ declaredIn scopes parents, d.Readable wave)
      fun y => y.1 = shownIn scopes parents ∧ y.2.Sound wave := by
  match scopes with
  | [] => exact .value (by simp [declaredIn]) ⟨rfl, hc⟩
  | scope :: rest =>
    rw [declaredIn, List.forall_mem_append] at hmodules hlooks
    have hmodule : scope.scopeType = .module := by
      obtain ⟨name, scopeType, vars, scopes⟩ := scope
      exact hmodules.1 ⟨parents, name, scopeType, vars⟩ (by rw [Scope.declared]; simp)
    have hok : ((∀ d ∈ scope.declared parents, d.Readable wave) ∧
        (∀ d ∈ declaredIn rest parents, d.Readable wave) ∧ True) ↔
        ∀ d ∈ declaredIn (scope :: rest) parents, d.Readable wave := by
      rw [declaredIn, List.forall_mem_append, and_true]
    rw [showModules, if_pos hmodule]
    refine Yields.congr ?_ hok
    refine (yields_showModule scope hc hmodules.1 hlooks.1).bind fun y hy => ?_
    obtain ⟨module, c₁⟩ := y
    obtain ⟨rfl, hc₁⟩ := hy
    refine (yields_showModules rest hc₁ hmodules.2 hlooks.2).bind fun y hy => ?_
    obtain ⟨modules, c₂⟩ := y
    obtain ⟨rfl, hc₂⟩ := hy
    exact .value trivial ⟨by rw [shownIn], hc₂⟩

end

end Verilua.Wellen
