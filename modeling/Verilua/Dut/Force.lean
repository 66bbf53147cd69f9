import Mathlib.Data.List.Basic
import Verilua.Lib.Raising

/-!
# Forced regions

`LuaDut` has one flag and one table for all proxies. A write in a region is made a force, and most
of the writes put their path into the table; at the end of the region the paths in it are released.
-/

namespace Verilua.LuaDut

open Raising

abbrev Path := String

/-- The calls of `vpiml` on a signal. -/
inductive Vpiml
  | setValue (v : Int)
  | setImmValue (v : Int)
  | setValueStr (str : String)
  | forceValue (v : Int)
  | forceImmValue (v : Int)
  | forceValueStr (str : String)
  | releaseValue
  deriving DecidableEq

def Vpiml.isForce : Vpiml → Bool
  | .forceValue _ | .forceImmValue _ | .forceValueStr _ => true
  | _ => false

/-- The locals of the module, and the calls that have been made. -/
structure State where
  setForceEnable : Bool
  forcePathTable : List Path
  calls : List (Path × Vpiml)
  deriving DecidableEq

def State.init : State := ⟨false, [], []⟩

/-- A value to be written, by what `tonumber` makes of it. -/
inductive Arg
  | nil
  | value (number : Option Int)
  deriving DecidableEq

def Arg.tonumber : Arg → Option Int
  | .nil => none
  | .value number => number

/-! ### The methods of a proxy -/

section Methods

-- The paths that have a handle.
variable (design : Path → Bool)

/-- `table_insert(force_path_table, local_path)` -/
def insertPath (path : Path) : Raising State Unit :=
  modify fun s => { s with forcePathTable := s.forcePathTable ++ [path] }

/-- A call with the handle of the path, which is asked for first; `none` is no argument for C. -/
def callVpiml {α : Type} (path : Path) (call : α → Vpiml) (arg : Option α) :
    Raising State Unit := do
  check (design path)
  let a ← ofOption arg
  modify fun s => { s with calls := s.calls ++ [(path, call a)] }

/-- `if set_force_enable then .. else .. end` -/
def forceOrSet {α : Type} (path : Path) (force set : α → Vpiml) (arg : Option α) :
    Raising State Unit := do
  let s ← get
  if s.setForceEnable then
    insertPath path
    callVpiml design path force arg
  else callVpiml design path set arg

/-- The writes that force in any case, with the path inserted first if in a region. -/
def forceAnyway (path : Path) (force : Int → Vpiml) (v : Arg) : Raising State Unit := do
  check (v ≠ .nil)
  let s ← get
  if s.setForceEnable then insertPath path
  callVpiml design path force v.tonumber

def set (path : Path) (v : Arg) : Raising State Unit := do
  check (v ≠ .nil)
  forceOrSet design path .forceValue .setValue v.tonumber

def setImm (path : Path) (v : Arg) : Raising State Unit := do
  check (v ≠ .nil)
  forceOrSet design path .forceImmValue .setImmValue v.tonumber

def setForce (path : Path) (v : Arg) : Raising State Unit := forceAnyway design path .forceValue v

def setImmForce (path : Path) (v : Arg) : Raising State Unit :=
  forceAnyway design path .forceImmValue v

/-- `set_str`; `number` is `tonumber(str)`. -/
def setStr (path : Path) (number : Option Int) : Raising State Unit :=
  forceOrSet design path .forceValue .setValue number

def setHexStr (path : Path) (str : String) : Raising State Unit :=
  forceOrSet design path .forceValueStr .setValueStr (some ("0x" ++ str))

/-- `set_force_str`, which inserts nothing. -/
def setForceStr (path : Path) (str : String) : Raising State Unit :=
  callVpiml design path .forceValueStr (some str)

def forceAll : Raising State Unit := do
  let s ← get
  check (s.setForceEnable = false)
  modify fun s => { s with setForceEnable := true }

def releaseAll : Raising State Unit := do
  let s ← get
  check (s.setForceEnable = true)
  modify fun s => { s with setForceEnable := false }
  forM s.forcePathTable fun path => callVpiml design path (fun _ => .releaseValue) (some ())
  modify fun s => { s with forcePathTable := [] }

def forceRegion (codeFunc : Raising State Unit) : Raising State Unit := do
  forceAll
  codeFunc
  releaseAll design

end Methods

/-! ### The code of a region -/

inductive Method
  | set (v : Arg)
  | setImm (v : Arg)
  | setForce (v : Arg)
  | setImmForce (v : Arg)
  | setStr (number : Option Int)
  | setHexStr (str : String)
  | setForceStr (str : String)

structure Write where
  path : Path
  method : Method

def Write.run (design : Path → Bool) (w : Write) : Raising State Unit :=
  match w.method with
  | .set v => LuaDut.set design w.path v
  | .setImm v => LuaDut.setImm design w.path v
  | .setForce v => LuaDut.setForce design w.path v
  | .setImmForce v => LuaDut.setImmForce design w.path v
  | .setStr number => LuaDut.setStr design w.path number
  | .setHexStr str => LuaDut.setHexStr design w.path str
  | .setForceStr str => LuaDut.setForceStr design w.path str

/-- A write, and whether the code catches what it raises. -/
structure Stmt where
  write : Write
  caught : Bool

/-- The writes that are made, and whether the code then raises an error of its own. -/
structure Body where
  stmts : List Stmt
  raises : Bool

def Stmt.run (design : Path → Bool) (st : Stmt) : Raising State Unit :=
  if st.caught then protect (st.write.run design) else st.write.run design

def Body.run (design : Path → Bool) (b : Body) : Raising State Unit := do
  forM b.stmts (Stmt.run design)
  check (b.raises = false)

/-! ### What a write does in a region -/

/-- The call that the write makes in a region, if its argument is one. -/
def Method.force : Method → Option Vpiml
  | .set v | .setForce v => v.tonumber.map .forceValue
  | .setImm v | .setImmForce v => v.tonumber.map .forceImmValue
  | .setStr number => number.map .forceValue
  | .setHexStr str => some (.forceValueStr ("0x" ++ str))
  | .setForceStr str => some (.forceValueStr str)

/-- The write puts its path into the table. -/
def Method.Records : Method → Prop
  | .set v | .setImm v | .setForce v | .setImmForce v => v ≠ .nil
  | .setStr _ | .setHexStr _ => True
  | .setForceStr _ => False

instance : DecidablePred Method.Records := fun m => by
  cases m <;> unfold Method.Records <;> infer_instance

/-- The write forces its signal: there is a handle, and the argument is one. -/
def Write.Forces (design : Path → Bool) (w : Write) : Prop :=
  design w.path ∧ w.method.force.isSome

instance (design : Path → Bool) : DecidablePred (Write.Forces design) := fun w => by
  unfold Write.Forces
  infer_instance

section Region

variable {design : Path → Bool} {s : State} {w : Write}

def Write.recorded (w : Write) : List Path := if w.method.Records then [w.path] else []

def Write.forced (design : Path → Bool) (w : Write) : List (Path × Vpiml) :=
  if design w.path then (w.method.force.map (w.path, ·)).toList else []

/-- What a write leaves in a region. -/
def Write.apply (design : Path → Bool) (w : Write) (s : State) : State :=
  { s with
    forcePathTable := s.forcePathTable ++ w.recorded
    calls := s.calls ++ w.forced design }

lemma outcome_callVpiml {α : Type} {path : Path} {call : α → Vpiml} {arg : Option α} :
    (callVpiml design path call arg).outcome s =
      if design path ∧ arg.isSome then
        (.ok (), { s with calls := s.calls ++ (arg.map fun a => (path, call a)).toList })
      else (.error (), s) := by
  unfold callVpiml
  simp only [outcome_check_bind, outcome_ofOption_bind, outcome_modify]
  cases arg <;> cases design path <;> simp

/-- What is left by the insertion of the path and a force. -/
def inserted (path : Path) (call : Option Vpiml) (s : State) : State :=
  { s with
    forcePathTable := s.forcePathTable ++ [path]
    calls := s.calls ++ if design path then (call.map (path, ·)).toList else [] }

lemma outcome_forceOrSet {α : Type} {path : Path} {force set : α → Vpiml} {arg : Option α}
    (hs : s.setForceEnable = true) : (forceOrSet design path force set arg).outcome s =
      (if design path ∧ (arg.map force).isSome then .ok () else .error (),
        @inserted design path (arg.map force) s) := by
  simp only [forceOrSet, insertPath, outcome_get_bind, hs, if_true, outcome_modify_bind,
    outcome_callVpiml, inserted]
  cases arg <;> cases design path <;> simp

lemma outcome_forceAnyway {path : Path} {force : Int → Vpiml} {v : Arg} (hv : v ≠ .nil)
    (hs : s.setForceEnable = true) : (forceAnyway design path force v).outcome s =
      (if design path ∧ (v.tonumber.map force).isSome then .ok () else .error (),
        @inserted design path (v.tonumber.map force) s) := by
  simp only [forceAnyway, insertPath, outcome_check_bind, if_pos hv, outcome_get_bind, hs, if_true,
    outcome_modify_bind, outcome_callVpiml, inserted]
  cases v.tonumber <;> cases design path <;> simp

lemma apply_of_records {path : Path} {method : Method} (h : method.Records) :
    Write.apply design ⟨path, method⟩ s = @inserted design path method.force s := by
  simp [Write.apply, Write.recorded, Write.forced, inserted, h]

lemma apply_of_not_records {path : Path} {method : Method} (h : ¬method.Records) :
    Write.apply design ⟨path, method⟩ s =
      { s with calls := s.calls ++ Write.forced design ⟨path, method⟩ } := by
  simp [Write.apply, Write.recorded, h]

/-- A write in a region returns exactly if it forces its signal. -/
theorem outcome_run (hs : s.setForceEnable = true) : (w.run design).outcome s =
    (if w.Forces design then .ok () else .error (), w.apply design s) := by
  obtain ⟨path, method⟩ := w
  cases method with
  | set v | setImm v =>
    cases v with
    | nil =>
      rw [apply_of_not_records (by simp [Method.Records])]
      simp [Write.run, LuaDut.set, LuaDut.setImm, Write.Forces, Write.forced, Method.force,
        Arg.tonumber]
    | value number =>
      rw [apply_of_records (by simp [Method.Records])]
      simp only [Write.run, LuaDut.set, LuaDut.setImm, outcome_check_bind, outcome_forceOrSet hs]
      rfl
  | setForce v | setImmForce v =>
    cases v with
    | nil =>
      rw [apply_of_not_records (by simp [Method.Records])]
      simp [Write.run, LuaDut.setForce, LuaDut.setImmForce, forceAnyway, Write.Forces,
        Write.forced, Method.force, Arg.tonumber]
    | value number =>
      rw [apply_of_records (by simp [Method.Records])]
      exact outcome_forceAnyway (by simp) hs
  | setStr number | setHexStr str =>
    rw [apply_of_records (by simp [Method.Records])]
    exact outcome_forceOrSet hs
  | setForceStr str =>
    rw [apply_of_not_records (by simp [Method.Records])]
    by_cases hpath : design path <;>
      simp [Write.run, LuaDut.setForceStr, outcome_callVpiml, Write.Forces, Write.forced,
        Method.force, hpath]

/-! ### The body -/

/-- A statement does not raise. -/
def Stmt.Returns (design : Path → Bool) (st : Stmt) : Prop := st.caught ∨ st.write.Forces design

instance (design : Path → Bool) : DecidablePred (Stmt.Returns design) := fun st => by
  unfold Stmt.Returns
  infer_instance

/-- Nothing is raised that leaves the body. -/
def Body.Returns (design : Path → Bool) (b : Body) : Prop :=
  b.raises = false ∧ ∀ st ∈ b.stmts, st.Returns design

/-- What the statements leave if all of them are made. -/
def applyAll (design : Path → Bool) (stmts : List Stmt) (s : State) : State :=
  { s with
    forcePathTable := s.forcePathTable ++ stmts.flatMap (·.write.recorded)
    calls := s.calls ++ stmts.flatMap (·.write.forced design) }

lemma outcome_stmt {st : Stmt} (hs : s.setForceEnable = true) : (st.run design).outcome s =
    (if st.Returns design then .ok () else .error (), st.write.apply design s) := by
  unfold Stmt.run Stmt.Returns
  by_cases hcaught : st.caught
  · simp [hcaught, outcome_protect, outcome_run hs]
  · simp [hcaught, outcome_run hs]

lemma outcome_stmts {stmts : List Stmt} (h : ∀ st ∈ stmts, st.Returns design)
    (hs : s.setForceEnable = true) :
    outcome (forM stmts (Stmt.run design)) s = (.ok (), applyAll design stmts s) := by
  induction stmts generalizing s with
  | nil => simp [applyAll]
  | cons st stmts ih =>
    have hst := h st List.mem_cons_self
    have happly : (st.write.apply design s).setForceEnable = true := hs
    rw [List.forM_cons, outcome_bind, outcome_stmt hs, if_pos hst]
    simp only [ih (fun st hmem => h st (List.mem_cons_of_mem _ hmem)) happly]
    simp [applyAll, Write.apply]

lemma outcome_stmts_raise {stmts : List Stmt} (h : ¬∀ st ∈ stmts, st.Returns design)
    (hs : s.setForceEnable = true) : ∃ s', s'.setForceEnable = true ∧
      outcome (forM stmts (Stmt.run design)) s = (.error (), s') := by
  induction stmts generalizing s with
  | nil => exact absurd (List.forall_mem_nil _) h
  | cons st stmts ih =>
    have happly : (st.write.apply design s).setForceEnable = true := hs
    rw [List.forM_cons, outcome_bind, outcome_stmt hs]
    by_cases hst : st.Returns design
    · rw [if_pos hst]
      refine ih (fun hall => h ?_) happly
      exact List.forall_mem_cons.mpr ⟨hst, hall⟩
    · rw [if_neg hst]
      exact ⟨_, happly, rfl⟩

lemma outcome_body {b : Body} (h : b.Returns design) (hs : s.setForceEnable = true) :
    (b.run design).outcome s = (.ok (), applyAll design b.stmts s) := by
  unfold Body.run
  rw [outcome_bind, outcome_stmts h.2 hs]
  simp [check, h.1]

lemma outcome_body_raise (s : State) {b : Body} (h : ¬b.Returns design)
    (hs : s.setForceEnable = true) :
    ∃ s', s'.setForceEnable = true ∧ (b.run design).outcome s = (.error (), s') := by
  unfold Body.run
  rw [outcome_bind]
  by_cases hall : ∀ st ∈ b.stmts, st.Returns design
  · have hraises : b.raises = true := by
      by_contra hfalse
      exact h ⟨Bool.not_eq_true _ ▸ hfalse, hall⟩
    rw [outcome_stmts hall hs]
    exact ⟨applyAll design b.stmts s, hs, by simp [check, hraises]⟩
  · obtain ⟨s', hs', hout⟩ := outcome_stmts_raise hall hs
    exact ⟨s', hs', by rw [hout]⟩

/-! ### The end of the region -/

def release (path : Path) : Path × Vpiml := (path, .releaseValue)

lemma outcome_release {path : Path} :
    (callVpiml design path (fun _ => .releaseValue) (some ())).outcome s =
      if design path then (.ok (), { s with calls := s.calls ++ [release path] })
      else (.error (), s) := by
  simp [outcome_callVpiml, release]

lemma outcome_releases {paths : List Path} (h : ∀ path ∈ paths, design path) :
    outcome (forM paths fun path => callVpiml design path (fun _ => .releaseValue) (some ())) s =
      (.ok (), { s with calls := s.calls ++ paths.map release }) := by
  induction paths generalizing s with
  | nil => simp
  | cons path paths ih =>
    rw [List.forM_cons, outcome_bind, outcome_release, if_pos (h path List.mem_cons_self)]
    simp [ih fun path hmem => h path (List.mem_cons_of_mem _ hmem)]

lemma outcome_releases_raise (s : State) {paths : List Path} (h : ¬∀ path ∈ paths, design path) :
    ∃ s', s'.forcePathTable = s.forcePathTable ∧
      outcome (forM paths fun path => callVpiml design path (fun _ => .releaseValue) (some ())) s =
        (.error (), s') := by
  induction paths generalizing s with
  | nil => exact absurd (List.forall_mem_nil _) h
  | cons path paths ih =>
    rw [List.forM_cons, outcome_bind, outcome_release]
    by_cases hpath : design path
    · rw [if_pos hpath]
      refine ih { s with calls := s.calls ++ [release path] } fun hall => h ?_
      exact List.forall_mem_cons.mpr ⟨hpath, hall⟩
    · rw [if_neg hpath]
      exact ⟨s, rfl, rfl⟩

lemma outcome_forceAll : forceAll.outcome s =
    if s.setForceEnable = false then (.ok (), { s with setForceEnable := true })
    else (.error (), s) := by
  simp [forceAll]

lemma outcome_releaseAll (hs : s.setForceEnable = true)
    (h : ∀ path ∈ s.forcePathTable, design path) : (releaseAll design).outcome s =
      (.ok (), ⟨false, [], s.calls ++ s.forcePathTable.map release⟩) := by
  unfold releaseAll
  rw [outcome_get_bind, outcome_check_bind, if_pos hs, outcome_modify_bind, outcome_bind,
    outcome_releases h]
  rfl

lemma outcome_releaseAll_raise (hs : s.setForceEnable = true)
    (h : ¬∀ path ∈ s.forcePathTable, design path) :
    ((releaseAll design).outcome s).2.forcePathTable ≠ [] := by
  unfold releaseAll
  rw [outcome_get_bind, outcome_check_bind, if_pos hs, outcome_modify_bind, outcome_bind]
  obtain ⟨s', htable, hout⟩ := outcome_releases_raise { s with setForceEnable := false } h
  rw [hout]
  rintro hnil
  rw [htable] at hnil
  exact h (hnil ▸ List.forall_mem_nil _)

/-! ### Regions -/

/-- The last force of the path is followed by a release. -/
def ReleasedAfter (path : Path) (calls : List (Path × Vpiml)) : Prop :=
  ∃ before after, calls = before ++ after ∧ release path ∈ after ∧
    ∀ call ∈ after, call.2.isForce → call.1 ≠ path

def Forced (path : Path) (calls : List (Path × Vpiml)) : Prop :=
  ∃ call ∈ calls, call.1 = path ∧ call.2.isForce

/-- A region that began in the first state has left nothing behind it. -/
structure Undone (s s' : State) : Prop where
  flag : s'.setForceEnable = false
  table : s'.forcePathTable = []
  calls : ∃ region, s'.calls = s.calls ++ region ∧
    (∀ path, Forced path region → ReleasedAfter path region) ∧
    ∀ path, release path ∈ region → Forced path region

/-- The path is put into the table, or is there before. -/
def Recorded (s : State) (b : Body) (path : Path) : Prop :=
  path ∈ s.forcePathTable ∨ ∃ st ∈ b.stmts, st.write.path = path ∧ st.write.method.Records

/-- The calls of a region that nothing is raised in. -/
def region (design : Path → Bool) (b : Body) (s : State) : List (Path × Vpiml) :=
  b.stmts.flatMap (·.write.forced design) ++
    (s.forcePathTable ++ b.stmts.flatMap (·.write.recorded)).map release

/-- What is left then. -/
def undoneState (design : Path → Bool) (b : Body) (s : State) : State where
  setForceEnable := false
  forcePathTable := []
  calls := s.calls ++ region design b s

lemma mem_table {b : Body} {path : Path} :
    path ∈ s.forcePathTable ++ b.stmts.flatMap (·.write.recorded) ↔ Recorded s b path := by
  simp only [List.mem_append, List.mem_flatMap, Write.recorded, Recorded]
  refine or_congr_right (exists_congr fun st => and_congr_right fun _ => ?_)
  by_cases h : st.write.method.Records <;> simp [h, eq_comm]

lemma forceRegion_of_returns {b : Body} (hs : s.setForceEnable = false) (hb : b.Returns design)
    (h : ∀ path, Recorded s b path → design path) :
    (forceRegion design (b.run design)).outcome s = (.ok (), undoneState design b s) := by
  unfold forceRegion
  rw [outcome_bind, outcome_forceAll, if_pos hs]
  simp only [outcome_bind, outcome_body hb]
  rw [outcome_releaseAll rfl fun path hpath => h path (mem_table.mp hpath)]
  simp [applyAll, undoneState, region]

lemma forceRegion_raise {b : Body} (h : ¬(s.setForceEnable = false ∧ b.Returns design ∧
    ∀ path, Recorded s b path → design path)) :
    ((forceRegion design (b.run design)).outcome s).2.setForceEnable = true ∨
      ((forceRegion design (b.run design)).outcome s).2.forcePathTable ≠ [] := by
  unfold forceRegion
  rw [outcome_bind, outcome_forceAll]
  by_cases hs : s.setForceEnable = false
  · rw [if_pos hs]
    simp only [outcome_bind]
    by_cases hb : b.Returns design
    · simp only [outcome_body hb]
      refine .inr (outcome_releaseAll_raise rfl fun hall => h ⟨hs, hb, fun path hpath => ?_⟩)
      exact hall path (mem_table.mpr hpath)
    · obtain ⟨s', hs', hout⟩ := outcome_body_raise { s with setForceEnable := true } hb rfl
      rw [hout]
      exact .inl hs'
  · rw [if_neg hs]
    exact .inl (Bool.not_eq_false _ ▸ hs)

/-- The path is that of a write that forces its signal. -/
def ForcedBy (design : Path → Bool) (b : Body) (path : Path) : Prop :=
  ∃ st ∈ b.stmts, st.write.path = path ∧ st.write.Forces design

lemma mem_forced {call : Path × Vpiml} : call ∈ w.forced design ↔
    design w.path ∧ ∃ force, w.method.force = some force ∧ call = (w.path, force) := by
  by_cases h : design w.path <;> simp [Write.forced, h, @eq_comm _ call]

lemma isForce_force {method : Method} {call : Vpiml} (h : method.force = some call) :
    call.isForce := by
  cases method with
  | set v | setImm v | setForce v | setImmForce v =>
    obtain ⟨n, -, rfl⟩ := Option.map_eq_some_iff.mp h
    rfl
  | setStr number =>
    obtain ⟨n, -, rfl⟩ := Option.map_eq_some_iff.mp h
    rfl
  | setHexStr str | setForceStr str =>
    obtain rfl := Option.some_inj.mp h
    rfl

lemma forced_region {b : Body} {path : Path} :
    Forced path (region design b s) ↔ ForcedBy design b path := by
  constructor
  · rintro ⟨call, hcall, rfl, hforce⟩
    rcases List.mem_append.mp hcall with hmem | hmem
    · obtain ⟨st, hst, hmem⟩ := List.mem_flatMap.mp hmem
      obtain ⟨hdesign, force, hsome, rfl⟩ := mem_forced.mp hmem
      exact ⟨st, hst, rfl, hdesign, by simp [hsome]⟩
    · obtain ⟨path, -, rfl⟩ := List.mem_map.mp hmem
      cases hforce
  · rintro ⟨st, hst, rfl, hdesign, hsome⟩
    obtain ⟨force, hforce⟩ := Option.isSome_iff_exists.mp hsome
    refine ⟨(st.write.path, force), List.mem_append_left _ ?_, rfl, isForce_force hforce⟩
    exact List.mem_flatMap.mpr ⟨st, hst, mem_forced.mpr ⟨hdesign, force, hforce, rfl⟩⟩

lemma release_mem_region {b : Body} {path : Path} :
    release path ∈ region design b s ↔ Recorded s b path := by
  rw [← mem_table, region, List.mem_append]
  constructor
  · rintro (hmem | hmem)
    · obtain ⟨st, -, hmem⟩ := List.mem_flatMap.mp hmem
      obtain ⟨-, force, hsome, heq⟩ := mem_forced.mp hmem
      obtain rfl : Vpiml.releaseValue = force := congrArg Prod.snd heq
      cases isForce_force hsome
    · obtain ⟨path', hpath', heq⟩ := List.mem_map.mp hmem
      obtain rfl : path' = path := congrArg Prod.fst heq
      exact hpath'
  · exact fun hmem => .inr (List.mem_map_of_mem hmem)

/-- The region is undone exactly if the flag was off, the body returns, and the paths that are put
into the table are those of the signals that are forced. -/
theorem undone_iff {b : Body} :
    Undone s ((forceRegion design (b.run design)).outcome s).2 ↔
      s.setForceEnable = false ∧ b.Returns design ∧
        ∀ path, Recorded s b path ↔ ForcedBy design b path := by
  constructor
  · intro h
    have hall : s.setForceEnable = false ∧ b.Returns design ∧
        ∀ path, Recorded s b path → design path := by
      by_contra hraise
      rcases forceRegion_raise hraise with hflag | htable
      · rw [h.flag] at hflag
        cases hflag
      · exact htable h.table
    obtain ⟨hs, hb, hdesign⟩ := hall
    refine ⟨hs, hb, fun path => ?_⟩
    obtain ⟨calls, hcalls, hreleased, hforced⟩ := h.calls
    rw [forceRegion_of_returns hs hb hdesign] at hcalls
    obtain rfl : region design b s = calls := List.append_cancel_left hcalls
    have hrelease : release path ∈ region design b s ↔ Recorded s b path := release_mem_region
    rw [← hrelease, ← forced_region (s := s)]
    refine ⟨hforced path, fun hpath => ?_⟩
    obtain ⟨before, after, happend, hmem, -⟩ := hreleased path hpath
    exact happend ▸ List.mem_append_right before hmem
  · rintro ⟨hs, hb, hpaths⟩
    have hdesign : ∀ path, Recorded s b path → design path := by
      intro path hpath
      obtain ⟨st, -, rfl, hdesign, -⟩ := (hpaths path).mp hpath
      exact hdesign
    rw [forceRegion_of_returns hs hb hdesign]
    refine ⟨rfl, rfl, region design b s, rfl, fun path hpath => ?_, fun path hpath => ?_⟩
    · refine ⟨_, _, rfl, ?_, ?_⟩
      · exact List.mem_map_of_mem (mem_table.mpr ((hpaths path).mpr (forced_region.mp hpath)))
      · rintro call hcall hforce
        obtain ⟨path, -, rfl⟩ := List.mem_map.mp hcall
        cases hforce
    · exact forced_region.mpr ((hpaths path).mp (release_mem_region.mp hpath))

end Region

/-- `set_force_str` in a region that does nothing else. -/
def forceStrBody : Body := ⟨[⟨⟨"top.u.data", .setForceStr "0x1234"⟩, false⟩], false⟩

theorem not_undone : ¬Undone .init
    ((forceRegion (fun _ => true) (forceStrBody.run fun _ => true)).outcome .init).2 := by
  rintro ⟨-, -, calls, hcalls, hreleased, -⟩
  obtain rfl : [("top.u.data", .forceValueStr "0x1234")] = calls := hcalls
  obtain ⟨before, after, happend, hmem, -⟩ :=
    hreleased "top.u.data" ⟨_, List.mem_cons_self, rfl, rfl⟩
  have hrelease := happend ▸ List.mem_append_right before hmem
  simp [release] at hrelease

end Verilua.LuaDut
