import Mathlib.Data.List.Flatten
import Mathlib.Data.List.Nodup
import Verilua.Dpi.Basic

/-!
# Signal groups

Every pattern of the configuration makes a group of the signals that it selects. A signal that an
earlier pattern has selected is left to the group of that one, but for a variable that the later
pattern makes writable: it moves to the later group. The signals of a group that trigger it are
kept in a second vector, out of which nothing is taken when a signal moves.
-/

namespace Verilua.DpiExporter

/-- The functions of `std::regex` on a pattern and a text. -/
structure Regex where
  regexMatch : List Char → List Char → Bool
  regexSearch : List Char → List Char → Bool

structure ConciseSignalPattern where
  name : List Char := []
  moduleName : List Char := []
  instName : List Char := []
  clock : List Char := []
  signals : List Char := []
  writableSignals : List Char := []
  disableSignals : List Char := []
  sensitiveSignals : List Char := []

namespace ConciseSignalPattern

variable (p : ConciseSignalPattern) (R : Regex) (signal : List Char)

def checkWritableSignal : Bool :=
  if p.writableSignals = [] then false else R.regexMatch p.writableSignals signal

def checkValidSignal : Bool :=
  if p.disableSignals ≠ [] ∧ R.regexMatch p.disableSignals signal then false
  else if p.signals = [] then p.checkWritableSignal R signal
  else if R.regexMatch p.signals signal then true
  else p.checkWritableSignal R signal

def checkSensitiveSignal : Bool :=
  if p.sensitiveSignals = [] then false else R.regexMatch p.sensitiveSignals signal

end ConciseSignalPattern

/-! ### Designs -/

/-- A net or a variable of a module. -/
structure Symbol where
  name : List Char
  bitWidth : Nat
  bitWidth_pos : 0 < bitWidth

structure InstanceBody where
  nets : List Symbol
  vars : List Symbol

structure Module where
  name : List Char
  /-- `getHierPaths`: the instances of the module. -/
  hierPaths : List (List Char)
  createDefault : InstanceBody
  lookupName : List Char → InstanceBody

def signalPath (hierPath name : List Char) : List Char := hierPath ++ '.' :: name

/-- The paths of the signals of a body that stands at the given places. -/
def InstanceBody.paths (b : InstanceBody) (hierPaths : List (List Char)) : List (List Char) :=
  (b.nets ++ b.vars).flatMap fun s => hierPaths.map (signalPath · s.name)

/-- A module that has no instance stands for itself. -/
def Module.places (m : Module) : List (List Char) :=
  if m.hierPaths = [] then [m.name] else m.hierPaths

/-- What the front end accepts: a module is declared once, and a path is that of one signal. -/
structure Design where
  modules : List Module
  topModuleName : List Char
  names : (modules.map Module.name).Nodup
  unique : ∀ m ∈ modules, (m.createDefault.paths m.places).Nodup
  uniqueAt : ∀ m ∈ modules, ∀ hierPath ∈ m.places,
    ((m.lookupName hierPath).paths [hierPath]).Nodup

/-! ### `SignalInfoGetter` -/

structure SignalGroup where
  name : List Char
  moduleName : List Char
  cpattern : ConciseSignalPattern
  signalInfoVec : List SignalInfo
  sensitiveSignalInfoVec : List SignalInfo

structure SignalInfoGetter where
  signalGroup : SignalGroup
  gotSensitiveSignal : Bool
  shouldRemoveHierPaths : List (List Char)
  /-- The set of `checkUniqueSignal`, which all getters share. -/
  signalSet : List (List Char)
  /-- The counter of `getUniqueHandleId`, which all getters share. -/
  handleId : Nat

section Getter

variable (R : Regex) (cpattern : ConciseSignalPattern)

/-- What is done with a net and with a variable alike: the signal, and whether it is the first of
its path. -/
def SignalInfoGetter.visit (vpiTypeStr : List Char) (hierPath : List Char) (s : Symbol)
    (g : SignalInfoGetter) : Except String (SignalInfo × Bool × SignalInfoGetter) :=
  let hierPathFull := signalPath hierPath s.name
  let isUnique := decide (hierPathFull ∉ g.signalSet)
  let signalInfo : SignalInfo :=
    { hierPath := hierPathFull
      vpiTypeStr := vpiTypeStr
      bitWidth := s.bitWidth
      handleId := g.handleId
      isWritable := cpattern.checkWritableSignal R s.name
      bitWidth_pos := s.bitWidth_pos }
  let g := { g with
    handleId := g.handleId + 1
    signalSet := if isUnique then hierPathFull :: g.signalSet else g.signalSet }
  if cpattern.checkSensitiveSignal R s.name && isUnique then
    if s.bitWidth = 1 then
      .ok (signalInfo, isUnique, { g with
        signalGroup := { g.signalGroup with
          sensitiveSignalInfoVec := g.signalGroup.sensitiveSignalInfoVec ++ [signalInfo] }
        gotSensitiveSignal := true })
    else .error "TODO: bitWidth != 1"
  else .ok (signalInfo, isUnique, g)

def SignalInfoGetter.push (g : SignalInfoGetter) (signalInfo : SignalInfo) : SignalInfoGetter :=
  { g with
    signalGroup := { g.signalGroup with
      signalInfoVec := g.signalGroup.signalInfoVec ++ [signalInfo] } }

/-- The body of the loops over the nets. -/
def SignalInfoGetter.visitNet (hierPath : List Char) (net : Symbol) (g : SignalInfoGetter) :
    Except String SignalInfoGetter := do
  let (signalInfo, isUnique, g) ← g.visit R cpattern "vpiNet".toList hierPath net
  if signalInfo.isWritable then .error "NET should not be marked as writable"
  else .ok (if isUnique then g.push signalInfo else g)

/-- The body of the loops over the variables. -/
def SignalInfoGetter.visitVar (hierPath : List Char) (var : Symbol) (g : SignalInfoGetter) :
    Except String SignalInfoGetter := do
  let (signalInfo, isUnique, g) ← g.visit R cpattern "vpiReg".toList hierPath var
  let writableNotUnique := !isUnique && signalInfo.isWritable
  .ok (if isUnique || writableNotUnique then
    let g := g.push signalInfo
    if writableNotUnique then
      { g with shouldRemoveHierPaths := g.shouldRemoveHierPaths ++ [signalInfo.hierPath] }
    else g
  else g)

/-- The loop that looks for the instance; `target` is the one that has been found. -/
def findMatchedInst : List (List Char) → Option (List Char) → Except String (List Char)
  | [], none => .error "Can't find matched inst"
  | [], some target => .ok target
  | hierPath :: hierPaths, target =>
    if R.regexSearch cpattern.instName hierPath then
      if target.isSome then
        .error ("Multiple matched instance found! " ++
          "Maybe you need to refine your `inst` value to make it more concise.")
      else findMatchedInst hierPaths (some hierPath)
    else findMatchedInst hierPaths target

/-- The places and the body whose signals are collected. -/
def Module.select (m : Module) (isTopModule : Bool) :
    Except String (List (List Char) × InstanceBody) :=
  if m.hierPaths = [] ∧ isTopModule = false then
    .error "TODO: hierPaths.empty() and !isTopModule"
  else if cpattern.instName = [] then .ok (m.places, m.createDefault)
  else (findMatchedInst R cpattern m.places none).map fun targetHierPath =>
    ([targetHierPath], m.lookupName targetHierPath)

/-- `handle`. -/
def SignalInfoGetter.handle (isTopModule : Bool) (m : Module) (g : SignalInfoGetter) :
    Except String SignalInfoGetter :=
  if m.name = cpattern.moduleName then do
    let (hierPaths, inst) ← m.select R cpattern isTopModule
    let g ← inst.nets.foldlM (fun g net =>
      if cpattern.checkValidSignal R net.name then
        hierPaths.foldlM (fun g hierPath => g.visitNet R cpattern hierPath net) g
      else .ok g) g
    inst.vars.foldlM (fun g var =>
      if cpattern.checkValidSignal R var.name then
        hierPaths.foldlM (fun g hierPath => g.visitVar R cpattern hierPath var) g
      else .ok g) g
  else .ok g

end Getter

/-! ### The groups of a configuration -/

/-- The loop that takes the first entry of a path out of a group. -/
def SignalGroup.evict (sg : SignalGroup) (hierPath : List Char) : SignalGroup :=
  { sg with signalInfoVec := sg.signalInfoVec.eraseP fun s => s.hierPath = hierPath }

structure Collected where
  signalGroupVec : List SignalGroup
  signalSet : List (List Char)
  handleId : Nat

section Generate

variable (R : Regex) (D : Design)

/-- The getter of a pattern. `unset` is what `gotSensitiveSignal` holds before it is set. -/
def Collected.getter (c : Collected) (cpattern : ConciseSignalPattern) (unset : Bool) :
    SignalInfoGetter where
  signalGroup := ⟨cpattern.name, cpattern.moduleName, cpattern, [], []⟩
  gotSensitiveSignal := unset
  shouldRemoveHierPaths := []
  signalSet := c.signalSet
  handleId := c.handleId

/-- One iteration of the loop over the patterns. -/
def Collected.add (unset : Bool) (c : Collected) (cpattern : ConciseSignalPattern) :
    Except String Collected := do
  let isTopModule := decide (cpattern.moduleName = D.topModuleName)
  let getter ← D.modules.foldlM (fun g m => g.handle R cpattern isTopModule m)
    (c.getter cpattern unset)
  let signalGroupVec := getter.shouldRemoveHierPaths.foldl
    (fun sgs hierPath => sgs.map fun sg => sg.evict hierPath) c.signalGroupVec
  if cpattern.sensitiveSignals ≠ [] ∧ getter.gotSensitiveSignal = false then
    .error ("No sensitive signal found in the signal group, sensitive signal is chosen from " ++
      "`signals`, maybe you should adjust your `signals` value to include sensitive signals")
  else if getter.signalGroup.signalInfoVec = [] then
    .error ("No signal found in the signal group, " ++
      "please check your `signals`/`moduleName`/`instName` value")
  else .ok ⟨signalGroupVec ++ [getter.signalGroup], getter.signalSet, getter.handleId⟩

/-- The loop over the patterns, with what the memory of each getter holds. -/
def collect (patterns : List ConciseSignalPattern) (unset : Nat → Bool) : Except String Collected :=
  patterns.foldlM (fun c cpattern => c.add R D (unset c.signalGroupVec.length) cpattern) ⟨[], [], 0⟩

/-- The groups without a sensitive signal become one. -/
def mergeGroups (signalGroupVec : List SignalGroup) : List SignalGroup :=
  let default := signalGroupVec.filter fun sg => sg.sensitiveSignalInfoVec.isEmpty
  ⟨"DEFAULT".toList, [], {}, default.flatMap SignalGroup.signalInfoVec, []⟩ ::
    signalGroupVec.filter fun sg => !sg.sensitiveSignalInfoVec.isEmpty

def mergedSignalGroupVec (patterns : List ConciseSignalPattern) (unset : Nat → Bool) :
    Except String (List SignalGroup) :=
  (collect R D patterns unset).map fun c => mergeGroups c.signalGroupVec

end Generate

/-! ### Visits -/

/-- A turn of the inner loop over the nets or over the variables. -/
structure Visit where
  hierPath : List Char
  signal : Symbol
  isNet : Bool

def Visit.path (v : Visit) : List Char := signalPath v.hierPath v.signal.name

section Visits

variable (R : Regex) (p : ConciseSignalPattern)

def visitsAt (hierPaths : List (List Char)) (isNet : Bool) (symbols : List Symbol) : List Visit :=
  (symbols.filter fun s => p.checkValidSignal R s.name).flatMap fun s =>
    hierPaths.map fun hierPath => ⟨hierPath, s, isNet⟩

/-- What is visited in a module that is not left with an error. -/
def Module.visits (isTopModule : Bool) (m : Module) : List Visit :=
  if m.name = p.moduleName then
    match m.select R p isTopModule with
    | .ok (hierPaths, inst) =>
      visitsAt R p hierPaths true inst.nets ++ visitsAt R p hierPaths false inst.vars
    | .error _ => []
  else []

/-- What the pattern visits in the design. -/
def Design.visits (D : Design) : List Visit :=
  D.modules.flatMap (Module.visits R p (decide (p.moduleName = D.topModuleName)))

def Visit.writes (v : Visit) : Bool := p.checkWritableSignal R v.signal.name

def Visit.triggers (v : Visit) : Bool := p.checkSensitiveSignal R v.signal.name

def SignalInfoGetter.step (g : SignalInfoGetter) (v : Visit) : Except String SignalInfoGetter :=
  if v.isNet then g.visitNet R p v.hierPath v.signal else g.visitVar R p v.hierPath v.signal

end Visits

section Spec

variable {R : Regex} {p : ConciseSignalPattern}

/-- The entry that is made for a visit. -/
def Visit.info (R : Regex) (p : ConciseSignalPattern) (v : Visit) (handleId : Nat) :
    SignalInfo where
  hierPath := v.path
  vpiTypeStr := (if v.isNet then "vpiNet" else "vpiReg").toList
  bitWidth := v.signal.bitWidth
  handleId := handleId
  isWritable := v.writes R p
  bitWidth_pos := v.signal.bitWidth_pos

theorem foldlM_visitsAt {ε : Type} (body : SignalInfoGetter → Visit → Except ε SignalInfoGetter)
    (hierPaths : List (List Char)) (isNet : Bool) (symbols : List Symbol) (g : SignalInfoGetter) :
    (visitsAt R p hierPaths isNet symbols).foldlM body g =
      symbols.foldlM (fun g s =>
        if p.checkValidSignal R s.name then
          hierPaths.foldlM (fun g hierPath => body g ⟨hierPath, s, isNet⟩) g
        else .ok g) g := by
  induction symbols generalizing g with
  | nil => rfl
  | cons s symbols ih =>
    rw [List.foldlM_cons]
    by_cases hs : p.checkValidSignal R s.name
    · have hcons : visitsAt R p hierPaths isNet (s :: symbols) =
          (hierPaths.map fun hierPath => ⟨hierPath, s, isNet⟩) ++
            visitsAt R p hierPaths isNet symbols := by simp [visitsAt, hs]
      rw [hcons, List.foldlM_append, List.foldlM_map]
      simp only [hs, if_true, ih]
    · have hcons : visitsAt R p hierPaths isNet (s :: symbols) =
          visitsAt R p hierPaths isNet symbols := by simp [visitsAt, hs]
      rw [hcons, ih]
      simp only [hs]
      rfl

theorem SignalInfoGetter.handle_visits {isTopModule : Bool} {m : Module} {g g' : SignalInfoGetter}
    (h : g.handle R p isTopModule m = .ok g') :
    (m.visits R p isTopModule).foldlM (SignalInfoGetter.step R p) g = .ok g' := by
  unfold SignalInfoGetter.handle at h
  unfold Module.visits
  by_cases hm : m.name = p.moduleName
  · rw [if_pos hm] at h ⊢
    cases hs : m.select R p isTopModule with
    | error e => rw [hs] at h; exact absurd h nofun
    | ok selected =>
      obtain ⟨hierPaths, inst⟩ := selected
      rw [hs] at h
      simp only [List.foldlM_append, foldlM_visitsAt]
      exact h
  · rw [if_neg hm] at h ⊢
    exact h

theorem handle_modules {isTopModule : Bool} {modules : List Module} {g g' : SignalInfoGetter}
    (h : modules.foldlM (fun g m => g.handle R p isTopModule m) g = .ok g') :
    (modules.flatMap (Module.visits R p isTopModule)).foldlM (SignalInfoGetter.step R p) g =
      .ok g' := by
  induction modules generalizing g with
  | nil => exact h
  | cons m modules ih =>
    rw [List.foldlM_cons] at h
    cases hg : g.handle R p isTopModule m with
    | error e => rw [hg] at h; exact absurd h nofun
    | ok g₁ =>
      rw [hg] at h
      rw [List.flatMap_cons, List.foldlM_append, SignalInfoGetter.handle_visits hg]
      exact ih h

/-! ### The paths of a pattern -/

theorem visitsAt_paths_sublist (hierPaths : List (List Char)) (isNet : Bool)
    (symbols : List Symbol) :
    ((visitsAt R p hierPaths isNet symbols).map Visit.path).Sublist
      (symbols.flatMap fun s => hierPaths.map (signalPath · s.name)) := by
  have hmap : (visitsAt R p hierPaths isNet symbols).map Visit.path =
      (symbols.filter fun s => p.checkValidSignal R s.name).flatMap fun s =>
        hierPaths.map (signalPath · s.name) := by
    simp only [visitsAt, List.map_flatMap, List.map_map]
    rfl
  rw [hmap]
  exact List.filter_sublist.flatMap _

theorem findMatchedInst_mem {hierPaths : List (List Char)} {target : Option (List Char)}
    {hierPath : List Char} (h : findMatchedInst R p hierPaths target = .ok hierPath) :
    hierPath ∈ hierPaths ∨ target = some hierPath := by
  induction hierPaths generalizing target with
  | nil =>
    cases target with
    | none => exact absurd h nofun
    | some t => exact .inr (congrArg some (Except.ok.inj h))
  | cons q hierPaths ih =>
    unfold findMatchedInst at h
    split at h
    · split at h
      · exact absurd h nofun
      · rcases ih h with hmem | hsome
        · exact .inl (List.mem_cons_of_mem _ hmem)
        · exact .inl (List.mem_cons.mpr (.inl (Option.some_inj.mp hsome).symm))
    · exact (ih h).imp_left (List.mem_cons_of_mem _)

theorem Module.select_ok {isTopModule : Bool} {m : Module} {hierPaths : List (List Char)}
    {inst : InstanceBody} (h : m.select R p isTopModule = .ok (hierPaths, inst)) :
    hierPaths = m.places ∧ inst = m.createDefault ∨
      ∃ hierPath ∈ m.places, hierPaths = [hierPath] ∧ inst = m.lookupName hierPath := by
  unfold Module.select at h
  split at h
  · exact absurd h nofun
  · split at h
    · cases h
      exact .inl ⟨rfl, rfl⟩
    · cases hfind : findMatchedInst R p m.places none with
      | error e => rw [hfind] at h; exact absurd h nofun
      | ok target =>
        rw [hfind] at h
        cases h
        exact .inr ⟨target, (findMatchedInst_mem hfind).resolve_right nofun, rfl, rfl⟩

theorem Design.module_paths_nodup (D : Design) {m : Module} (hm : m ∈ D.modules)
    (isTopModule : Bool) : ((m.visits R p isTopModule).map Visit.path).Nodup := by
  unfold Module.visits
  split
  · split
    · rename_i hierPaths inst hs
      have hsub : ((visitsAt R p hierPaths true inst.nets ++
          visitsAt R p hierPaths false inst.vars).map Visit.path).Sublist
            (inst.paths hierPaths) := by
        rw [List.map_append, InstanceBody.paths, List.flatMap_append]
        exact (visitsAt_paths_sublist ..).append (visitsAt_paths_sublist ..)
      refine hsub.nodup ?_
      rcases Module.select_ok hs with ⟨rfl, rfl⟩ | ⟨hierPath, hmem, rfl, rfl⟩
      · exact D.unique m hm
      · exact D.uniqueAt m hm hierPath hmem
    · exact List.nodup_nil
  · exact List.nodup_nil

theorem Design.visits_paths_nodup (D : Design) : ((D.visits R p).map Visit.path).Nodup := by
  rw [Design.visits, List.map_flatMap, List.nodup_flatMap]
  refine ⟨fun m hm => D.module_paths_nodup hm _, ?_⟩
  have hnames : D.modules.Pairwise fun m n => m.name ≠ n.name := List.pairwise_map.mp D.names
  refine hnames.imp fun {m n} hne x hx hy => ?_
  have hname : ∀ k : Module, x ∈ (k.visits R p (decide (p.moduleName = D.topModuleName))).map
      Visit.path → k.name = p.moduleName := by
    intro k hk
    by_contra hneg
    rw [Module.visits, if_neg hneg] at hk
    exact absurd hk List.not_mem_nil
  exact hne ((hname m hx).trans (hname n hy).symm)

/-! ### One visit -/

theorem SignalInfoGetter.visit_ok {g g' : SignalInfoGetter} {vpiTypeStr hierPath : List Char}
    {s : Symbol} {signalInfo : SignalInfo} {isUnique : Bool}
    (h : g.visit R p vpiTypeStr hierPath s = .ok (signalInfo, isUnique, g')) :
    signalInfo = ⟨signalPath hierPath s.name, vpiTypeStr, s.bitWidth, g.handleId,
        p.checkWritableSignal R s.name, s.bitWidth_pos⟩ ∧
      isUnique = decide (signalPath hierPath s.name ∉ g.signalSet) ∧
      ∃ gotSensitiveSignal, g' = { g with
        signalGroup := { g.signalGroup with
          sensitiveSignalInfoVec :=
            if signalPath hierPath s.name ∉ g.signalSet ∧
                p.checkSensitiveSignal R s.name = true then
              g.signalGroup.sensitiveSignalInfoVec ++ [signalInfo]
            else g.signalGroup.sensitiveSignalInfoVec }
        gotSensitiveSignal := gotSensitiveSignal
        signalSet :=
          if signalPath hierPath s.name ∉ g.signalSet then
            signalPath hierPath s.name :: g.signalSet
          else g.signalSet
        handleId := g.handleId + 1 } := by
  unfold SignalInfoGetter.visit at h
  by_cases hseen : signalPath hierPath s.name ∈ g.signalSet <;>
    by_cases hsens : p.checkSensitiveSignal R s.name = true <;>
    by_cases hw : s.bitWidth = 1 <;>
    simp [hseen, hsens, hw] at h <;>
    obtain ⟨rfl, rfl, rfl⟩ := h <;>
    simp [hseen, hsens, hw]

theorem SignalInfoGetter.step_ok {g g' : SignalInfoGetter} {v : Visit}
    (h : g.step R p v = .ok g') :
    ∃ gotSensitiveSignal, g' =
      { signalGroup := { g.signalGroup with
          signalInfoVec :=
            if v.path ∉ g.signalSet ∨ v.writes R p = true then
              g.signalGroup.signalInfoVec ++ [v.info R p g.handleId]
            else g.signalGroup.signalInfoVec
          sensitiveSignalInfoVec :=
            if v.path ∉ g.signalSet ∧ v.triggers R p = true then
              g.signalGroup.sensitiveSignalInfoVec ++ [v.info R p g.handleId]
            else g.signalGroup.sensitiveSignalInfoVec }
        gotSensitiveSignal := gotSensitiveSignal
        shouldRemoveHierPaths :=
          if v.path ∈ g.signalSet ∧ v.writes R p = true then g.shouldRemoveHierPaths ++ [v.path]
          else g.shouldRemoveHierPaths
        signalSet := if v.path ∉ g.signalSet then v.path :: g.signalSet else g.signalSet
        handleId := g.handleId + 1 } := by
  obtain ⟨hierPath, s, isNet⟩ := v
  cases isNet with
  | true =>
    simp only [SignalInfoGetter.step, SignalInfoGetter.visitNet, if_true] at h
    cases hv : g.visit R p "vpiNet".toList hierPath s with
    | error e => rw [hv] at h; exact absurd h nofun
    | ok r =>
      obtain ⟨signalInfo, isUnique, g₁⟩ := r
      obtain ⟨rfl, rfl, got, rfl⟩ := SignalInfoGetter.visit_ok hv
      rw [hv] at h
      change (if p.checkWritableSignal R s.name = true then _ else _) = _ at h
      split at h
      · exact absurd h nofun
      · rename_i hw
        refine ⟨got, ?_⟩
        by_cases hseen : signalPath hierPath s.name ∈ g.signalSet <;>
          simp only [hseen, not_true, not_false_eq_true, decide_true, decide_false, if_true,
            SignalInfoGetter.push, Bool.false_eq_true, if_false, Except.ok.injEq] at h <;>
          simp [← h, hseen, hw, Visit.path, Visit.writes, Visit.triggers, Visit.info]
  | false =>
    simp only [SignalInfoGetter.step, SignalInfoGetter.visitVar, Bool.false_eq_true, if_false] at h
    cases hv : g.visit R p "vpiReg".toList hierPath s with
    | error e => rw [hv] at h; exact absurd h nofun
    | ok r =>
      obtain ⟨signalInfo, isUnique, g₁⟩ := r
      obtain ⟨rfl, rfl, got, rfl⟩ := SignalInfoGetter.visit_ok hv
      rw [hv] at h
      refine ⟨got, ?_⟩
      replace h := Except.ok.inj h
      by_cases hseen : signalPath hierPath s.name ∈ g.signalSet <;>
        by_cases hw : p.checkWritableSignal R s.name = true <;>
        simp [← h, hseen, hw, SignalInfoGetter.push, Visit.path, Visit.writes, Visit.triggers,
          Visit.info]

/-! ### The visits of a pattern -/

/-- The getter after the visits `vs`, where `seen` are the paths of the earlier patterns. -/
structure Visited (R : Regex) (p : ConciseSignalPattern) (seen : List (List Char)) (start : Nat)
    (vs : List Visit) (g : SignalInfoGetter) : Prop where
  set : ∀ x, x ∈ g.signalSet ↔ x ∈ seen ∨ ∃ v ∈ vs, v.path = x
  nodup : (g.signalGroup.signalInfoVec.map SignalInfo.hierPath).Nodup
  listed : ∀ x, x ∈ g.signalGroup.signalInfoVec.map SignalInfo.hierPath ↔
    ∃ v ∈ vs, v.path = x ∧ (x ∉ seen ∨ v.writes R p = true)
  entry : ∀ s ∈ g.signalGroup.signalInfoVec,
    ∃ v ∈ vs, v.path = s.hierPath ∧ s.isWritable = v.writes R p
  ids : (g.signalGroup.signalInfoVec.map SignalInfo.handleId).Nodup
  start_le : start ≤ g.handleId
  id_range : ∀ s ∈ g.signalGroup.signalInfoVec, start ≤ s.handleId ∧ s.handleId < g.handleId
  sensitive : ∀ s ∈ g.signalGroup.sensitiveSignalInfoVec, s ∈ g.signalGroup.signalInfoVec
  triggers : ∀ x, x ∈ g.signalGroup.sensitiveSignalInfoVec.map SignalInfo.hierPath ↔
    ∃ v ∈ vs, v.path = x ∧ x ∉ seen ∧ v.triggers R p = true
  removed : ∀ x, x ∈ g.shouldRemoveHierPaths ↔ ∃ v ∈ vs, v.path = x ∧ x ∈ seen ∧ v.writes R p = true

theorem Visited.nil (c : Collected) (unset : Bool) :
    Visited R p c.signalSet c.handleId [] (c.getter p unset) where
  set := by simp [Collected.getter]
  nodup := List.nodup_nil
  listed := by simp [Collected.getter]
  entry := by simp [Collected.getter]
  ids := List.nodup_nil
  start_le := Nat.le_refl _
  id_range := by simp [Collected.getter]
  sensitive := by simp [Collected.getter]
  triggers := by simp [Collected.getter]
  removed := by simp [Collected.getter]

@[simp] theorem Visit.info_hierPath (v : Visit) (handleId : Nat) :
    (v.info R p handleId).hierPath = v.path := rfl

@[simp] theorem Visit.info_handleId (v : Visit) (handleId : Nat) :
    (v.info R p handleId).handleId = handleId := rfl

theorem nodup_map_snoc {α β : Type} {f : α → β} {l : List α} {b : α} (hl : (l.map f).Nodup)
    (hb : ∀ a ∈ l, f a ≠ f b) : ((l ++ [b]).map f).Nodup := by
  rw [List.map_append, List.nodup_append]
  refine ⟨hl, List.nodup_singleton _, fun y hy z hz => ?_⟩
  obtain ⟨a, ha, rfl⟩ := List.mem_map.mp hy
  cases List.mem_singleton.mp hz
  exact hb a ha

theorem exists_mem_snoc {α : Type} {P : α → Prop} {l : List α} {b : α} :
    (∃ a ∈ l ++ [b], P a) ↔ (∃ a ∈ l, P a) ∨ P b := by
  simp [or_and_right, exists_or]

theorem Visited.step {seen : List (List Char)} {start : Nat} {vs : List Visit} {v : Visit}
    {g g' : SignalInfoGetter} (hg : Visited R p seen start vs g)
    (hfresh : v.path ∉ vs.map Visit.path) (h : g.step R p v = .ok g') :
    Visited R p seen start (vs ++ [v]) g' := by
  have hseen : v.path ∈ g.signalSet ↔ v.path ∈ seen := by
    refine (hg.set _).trans (or_iff_left ?_)
    rintro ⟨w, hw, hpath⟩
    exact hfresh (hpath ▸ List.mem_map_of_mem hw)
  have hnew : ∀ s ∈ g.signalGroup.signalInfoVec, s.hierPath ≠ v.path := by
    intro s hs heq
    obtain ⟨w, hw, hpath, _⟩ := hg.entry s hs
    exact hfresh ((hpath.trans heq) ▸ List.mem_map_of_mem hw)
  have hid : ∀ s ∈ g.signalGroup.signalInfoVec, s.handleId ≠ g.handleId := fun s hs =>
    Nat.ne_of_lt (hg.id_range s hs).2
  obtain ⟨hset, hnodup, hlisted, hentry, hids, hstart, hrange, hsensitive, htriggers,
    hremoved⟩ := hg
  obtain ⟨got, rfl⟩ := SignalInfoGetter.step_ok h
  clear h
  simp only [hseen]
  constructor
  case set => grind
  case nodup =>
    split
    · exact nodup_map_snoc hnodup hnew
    · exact hnodup
  case listed =>
    intro x
    rw [exists_mem_snoc, ← hlisted]
    split <;> grind [Visit.info_hierPath]
  case entry =>
    intro s hs
    rw [exists_mem_snoc]
    split at hs
    · rcases List.mem_append.mp hs with hs | hs
      · exact .inl (hentry s hs)
      · cases List.mem_singleton.mp hs
        exact .inr ⟨rfl, rfl⟩
    · exact .inl (hentry s hs)
  case ids =>
    split
    · exact nodup_map_snoc hids hid
    · exact hids
  case start_le => exact Nat.le_succ_of_le hstart
  case id_range =>
    intro s hs
    split at hs <;> grind [Visit.info_handleId]
  case sensitive => grind
  case triggers =>
    intro x
    rw [exists_mem_snoc, ← htriggers]
    split <;> grind [Visit.info_hierPath]
  case removed => grind

theorem Visited.run {seen : List (List Char)} {start : Nat} {past visits : List Visit}
    {g g' : SignalInfoGetter} (hg : Visited R p seen start past g)
    (hnodup : ((past ++ visits).map Visit.path).Nodup)
    (h : visits.foldlM (SignalInfoGetter.step R p) g = .ok g') :
    Visited R p seen start (past ++ visits) g' := by
  induction visits generalizing past g with
  | nil =>
    cases h
    rwa [List.append_nil]
  | cons v visits ih =>
    rw [List.foldlM_cons] at h
    rw [List.append_cons] at hnodup ⊢
    cases hv : g.step R p v with
    | error e => rw [hv] at h; exact absurd h nofun
    | ok g₁ =>
      rw [hv] at h
      have hfresh : v.path ∉ past.map Visit.path := by
        rw [List.map_append, List.map_append] at hnodup
        have hpast := (List.nodup_append.mp (List.nodup_append.mp hnodup).1).2.2
        exact fun hmem => hpast _ hmem _ (List.mem_singleton_self _) rfl
      exact ih (hg.step hfresh hv) hnodup h

end Spec

end Verilua.DpiExporter
