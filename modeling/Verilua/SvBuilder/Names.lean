import Mathlib.Data.List.Nodup
import Verilua.Lib.Raising
import Verilua.Lib.TransitionSystem
import Verilua.SvBuilder.Layout

/-!
# The identifiers of a builder

A statement declares its name, and most kinds one more that is made of it. Only the name is looked
up before it is recorded, so the two that can clash are a name and one made of a later name.
-/

namespace Verilua.SVBuilder

open TransitionSystem Raising

attribute [local instance] lawfulBEq_text

/-! ### An addition, statement by statement -/

/-- `f("_GEN_%s_inst", params.name)` -/
def instName (name : Text) : Text := "_GEN_".toList ++ name ++ "_inst".toList

namespace Builder

def pushContent (content : Text) (b : Builder) : Builder :=
  { b with contentVec := b.contentVec ++ [content] }

def pushProperty (content : Text) (b : Builder) : Builder :=
  { b with propertyVec := b.propertyVec ++ [content] }

def pushSequence (content : Text) (b : Builder) : Builder :=
  { b with sequenceVec := b.sequenceVec ++ [content] }

def pushPreamble (content : Text) (b : Builder) : Builder :=
  { b with preambleVec := b.preambleVec ++ [content] }

def pushCovergroup (content : Text) (b : Builder) : Builder :=
  { b with covergroupVec := b.covergroupVec ++ [content] }

def recordName (name : Text) (b : Builder) : Builder :=
  { b with uniqueStmtNameMap := name :: b.uniqueStmtNameMap }

/-- The function that `add` gives, with its assignments in their order. -/
def addM (ext : Extern) (typ : Typ) (p : Params) : Raising Builder Unit := do
  let b ← get
  let finalEnvs := p.envs ++ b.globalEnvs
  check (b.envsOk finalEnvs)
  check (p.name ∉ b.uniqueStmtNameMap)
  let expr := if setsEngine finalEnvs then ext.rewrite finalEnvs p.expr else rewriteNsRefs p.expr
  let ret ← ofOption (b.substitute ext finalEnvs expr)
  match typ with
  | .cover covType =>
    let covType := covType.getD .property
    let preContentName := genName p.name covType
    let preContentRaw := declaration covType preContentName ret
    check (b.lints ext preContentRaw false)
    let content := processContent preContentRaw ++ '\n' :: p.name ++ ": cover ".toList ++
      covType.text ++ " (".toList ++ preContentName ++ ");".toList
    modify (pushContent content)
    modify (recordName p.name)
    modify (recordName preContentName)
  | .assert =>
    let preContentName := genName p.name .property
    let preContentRaw := declaration .property preContentName ret
    check (b.lints ext preContentRaw false)
    let content := processContent preContentRaw ++ '\n' :: p.name ++
      ": assert property (".toList ++ preContentName ++ ");".toList
    modify (pushContent content)
    modify (recordName p.name)
    modify (recordName preContentName)
  | .property =>
    let contentRaw := declaration .property p.name ret
    check (b.lints ext contentRaw false)
    modify (pushProperty (processContent contentRaw))
    modify (recordName p.name)
    modify fun b => { b with propEnvs := p.name :: b.propEnvs }
  | .sequence =>
    let contentRaw := declaration .sequence p.name ret
    check (b.lints ext contentRaw false)
    modify (pushSequence (processContent contentRaw))
    modify (recordName p.name)
    modify fun b => { b with seqEnvs := p.name :: b.seqEnvs }
  | .raw =>
    check (b.lints ext ret true)
    modify (pushPreamble ret)
    modify (recordName p.name)
  | .covergroup sampleEvent =>
    let sampleEventRaw := sampleEvent.getD b.defaultClockingEvent
    check (sampleEventRaw ≠ [])
    let sampleEventExpanded ← ofOption (b.substitute ext finalEnvs sampleEventRaw)
    let sampleEventTrimmed := trim sampleEventExpanded
    let cgHeader := "covergroup ".toList ++ p.name ++
      if isWithClause sampleEventTrimmed then ' ' :: sampleEventTrimmed ++ [';']
      else " @(".toList ++ sampleEventTrimmed ++ ");".toList
    let content := cgHeader ++ '\n' :: ret ++ "\nendgroup\n".toList ++ p.name ++
      ' ' :: instName p.name ++ " = new;".toList
    check (b.lints ext content false)
    modify (pushCovergroup content)
    modify (recordName p.name)
    modify (recordName (instName p.name))
    modify fun b => { b with covergroupNames := b.covergroupNames ++ [(p.name, instName p.name)] }

end Builder

/-- `Option` read as a call on a builder. -/
def added (b : Builder) : Option Builder → Except Unit Unit × Builder
  | some b' => (.ok (), b')
  | none => (.error (), b)

lemma added_guard {c : Prop} [Decidable c] {b : Builder} {f : Unit → Option Builder} :
    added b (guard c >>= f) = if c then added b (f ()) else (.error (), b) := by
  unfold guard
  split <;> rfl

lemma added_bind {b : Builder} {o : Option Text} {f : Text → Option Builder} :
    added b (o >>= f) =
      match o with
      | some text => added b (f text)
      | none => (.error (), b) := by
  cases o <;> rfl

theorem outcome_addM (ext : Extern) (b : Builder) (typ : Typ) (p : Params) :
    (Builder.addM ext typ p).outcome b = added b (b.add ext typ p) := by
  unfold Builder.addM Builder.add
  simp only [outcome_get_bind, outcome_check_bind, outcome_ofOption_bind, added_guard, added_bind]
  refine ite_congr rfl (fun _ => ite_congr rfl (fun _ => ?_) fun _ => rfl) fun _ => rfl
  generalize b.substitute ext (p.envs ++ b.globalEnvs) 
    (if setsEngine (p.envs ++ b.globalEnvs) then _ else _) = expanded
  cases expanded with
  | none => rfl
  | some ret =>
    cases typ with
    | covergroup sampleEvent =>
      simp only [outcome_check_bind, outcome_ofOption_bind, added_guard, added_bind]
      refine ite_congr rfl (fun _ => ?_) fun _ => rfl
      cases b.substitute ext (p.envs ++ b.globalEnvs)
        (sampleEvent.getD b.defaultClockingEvent) with
      | none => rfl
      | some event => exact ite_congr rfl (fun _ => rfl) fun _ => rfl
    | cover | assert | property | sequence | raw =>
      simp only [outcome_check_bind, added_guard]
      exact ite_congr rfl (fun _ => rfl) fun _ => rfl

/-! ### What is declared -/

namespace Typ

/-- The name that is made of the name of a statement. -/
def derivedName (name : Text) : Typ → Option Text
  | .cover covType => some (genName name (covType.getD .property))
  | .assert => some (genName name .property)
  | .covergroup _ => some (instName name)
  | .property | .sequence | .raw => none

/-- The identifiers that a statement declares; a preamble is a text of the user. -/
def identifiers (name : Text) (typ : Typ) : List Text :=
  match typ with
  | .raw => []
  | typ => name :: (typ.derivedName name).toList

inductive Slot
  | preamble
  | sequence
  | property
  | content
  | covergroup
  deriving DecidableEq

/-- Which vector has the statements of a type. -/
def slot : Typ → Slot
  | .cover _ | .assert => .content
  | .property => .property
  | .sequence => .sequence
  | .covergroup _ => .covergroup
  | .raw => .preamble

end Typ

/-- A statement that has been added, with its expansions. -/
structure Entry where
  typ : Typ
  name : Text
  ret : Text
  event : Text

namespace Entry

def identifiers (e : Entry) : List Text := e.typ.identifiers e.name

def derivedName (e : Entry) : Option Text := e.typ.derivedName e.name

/-- The text that is stored. -/
def text (e : Entry) : Text :=
  match e.typ with
  | .raw => e.ret
  | .covergroup _ =>
    "covergroup ".toList ++ e.name ++
      (if isWithClause e.event then ' ' :: e.event ++ [';'] else " @(".toList ++ e.event ++
        ");".toList) ++
      '\n' :: e.ret ++ "\nendgroup\n".toList ++ e.name ++ ' ' :: instName e.name ++ " = new;".toList
  | typ => statement typ (typ.covType.getD .property) e.name e.ret

end Entry

/-- What is added by a call, if it does not raise. -/
def Builder.entry (ext : Extern) (b : Builder) (typ : Typ) (p : Params) : Entry :=
  let finalEnvs := p.envs ++ b.globalEnvs
  let expr := if setsEngine finalEnvs then ext.rewrite finalEnvs p.expr else rewriteNsRefs p.expr
  { typ := typ
    name := p.name
    ret := (b.substitute ext finalEnvs expr).getD []
    event :=
      match typ with
      | .covergroup sampleEvent =>
        trim ((b.substitute ext finalEnvs (sampleEvent.getD b.defaultClockingEvent)).getD [])
      | _ => [] }

/-- An addition stores the text of its entry and records the names. -/
structure Adds (b b' : Builder) (e : Entry) : Prop where
  fresh : e.name ∉ b.uniqueStmtNameMap
  vec : ∀ typ : Typ, typ.vec b' = typ.vec b ++ if e.typ.slot = typ.slot then [e.text] else []
  map : b'.uniqueStmtNameMap = e.derivedName.toList ++ e.name :: b.uniqueStmtNameMap

lemma adds_of_add {ext : Extern} {b b' : Builder} {typ : Typ} {p : Params}
    (h : b.add ext typ p = some b') : Adds b b' (b.entry ext typ p) := by
  simp only [Builder.add, Option.bind_eq_bind] at h
  obtain ⟨-, -, h⟩ := Option.bind_eq_some_iff.mp h
  obtain ⟨_, hfresh, h⟩ := Option.bind_eq_some_iff.mp h
  obtain ⟨ret, hret, h⟩ := Option.bind_eq_some_iff.mp h
  have hname : p.name ∉ b.uniqueStmtNameMap := by
    by_contra hmem
    simp [guard, hmem] at hfresh
  cases typ with
  | covergroup sampleEvent =>
    obtain ⟨-, -, h⟩ := Option.bind_eq_some_iff.mp h
    obtain ⟨event, hevent, h⟩ := Option.bind_eq_some_iff.mp h
    obtain ⟨-, -, h⟩ := Option.bind_eq_some_iff.mp h
    obtain rfl := Option.some_inj.mp h
    refine ⟨hname, fun typ => ?_, rfl⟩
    cases typ <;> simp [Typ.vec, Typ.slot, Builder.entry, Entry.text, hret, hevent, instName]
  | cover | assert | property | sequence | raw =>
    obtain ⟨-, -, h⟩ := Option.bind_eq_some_iff.mp h
    obtain rfl := Option.some_inj.mp h
    refine ⟨hname, fun typ => ?_, rfl⟩
    cases typ <;> simp [Typ.vec, Typ.slot, Builder.entry, Entry.text, hret, statement, Typ.covType,
      Typ.declName, Typ.label]

/-! ### Runs -/

/-- A builder, and what has been added since it was last cleaned. -/
structure Session where
  builder : Builder
  entries : List Entry

inductive Call
  | add (typ : Typ) (p : Params)
  | defaultClocking (signal edgeType : Text) (overwrite : Bool)
  | withGlobalEnvs (envs : Envs)
  | setLint (enable : Bool)
  | setCoverageReport (enable : Bool)
  | clean

/-- `default_clocking`; a handle of a 1-bit signal goes by its full path. -/
def Builder.defaultClocking (b : Builder) (signal edgeType : Text) (overwrite : Bool) :
    Option Builder := do
  guard (edgeType = "posedge".toList ∨ edgeType = "negedge".toList)
  guard (overwrite ∨ b.defaultClockingExpr = [])
  guard (signal ≠ [])
  return { b with
    defaultClockingExpr := "default clocking @(".toList ++ edgeType ++ ' ' :: signal ++
      "); endclocking".toList
    defaultClockingEvent := edgeType ++ ' ' :: signal }

lemma defaultClocking_keeps {b b' : Builder} {signal edgeType : Text} {overwrite : Bool}
    (h : b.defaultClocking signal edgeType overwrite = some b') :
    (∀ typ : Typ, typ.vec b' = typ.vec b) ∧ b'.uniqueStmtNameMap = b.uniqueStmtNameMap := by
  simp only [Builder.defaultClocking, Option.bind_eq_bind] at h
  obtain ⟨-, -, h⟩ := Option.bind_eq_some_iff.mp h
  obtain ⟨-, -, h⟩ := Option.bind_eq_some_iff.mp h
  obtain ⟨-, -, h⟩ := Option.bind_eq_some_iff.mp h
  obtain rfl := Option.some_inj.mp h
  exact ⟨fun typ => by cases typ <;> rfl, rfl⟩

namespace Session

/-- A call, which may raise. -/
def step (ext : Extern) (σ : Session) : Call → Option Session
  | .add typ p =>
    match (Builder.addM ext typ p).outcome σ.builder with
    | (.ok (), b) => some ⟨b, σ.entries ++ [σ.builder.entry ext typ p]⟩
    | (.error (), b) => some ⟨b, σ.entries⟩
  | .defaultClocking signal edgeType overwrite =>
    some ⟨(σ.builder.defaultClocking signal edgeType overwrite).getD σ.builder, σ.entries⟩
  | .withGlobalEnvs envs =>
    some ⟨{ σ.builder with globalEnvs := envs ++ σ.builder.globalEnvs }, σ.entries⟩
  | .setLint enable => some ⟨{ σ.builder with lintEnabled := enable }, σ.entries⟩
  | .setCoverageReport enable =>
    some ⟨{ σ.builder with coverageReportEnabled := enable }, σ.entries⟩
  | .clean => some ⟨.empty σ.builder.lintEnabled σ.builder.coverageReportEnabled, []⟩

/-- A new builder. -/
def init : Session := ⟨.empty true true, []⟩

/-- The builder has the texts and the names of what has been added. -/
structure Built (σ : Session) : Prop where
  vec : ∀ typ : Typ, typ.vec σ.builder =
    (σ.entries.filter (·.typ.slot = typ.slot)).map Entry.text
  map : ∀ name, name ∈ σ.builder.uniqueStmtNameMap ↔
    ∃ e ∈ σ.entries, name = e.name ∨ e.derivedName = some name
  fresh : σ.entries.Pairwise fun d e => d.name ≠ e.name ∧ d.derivedName ≠ some e.name

theorem built_init : Built init := by
  refine ⟨fun typ => ?_, by simp [init, Builder.empty], .nil⟩
  cases typ <;> rfl

lemma Built.congr {σ : Session} (h : Built σ) {b : Builder}
    (hvec : ∀ typ : Typ, typ.vec b = typ.vec σ.builder)
    (hmap : b.uniqueStmtNameMap = σ.builder.uniqueStmtNameMap) : Built ⟨b, σ.entries⟩ :=
  ⟨fun typ => (hvec typ).trans (h.vec typ), by simpa [hmap] using h.map, h.fresh⟩

lemma Built.add {σ : Session} (h : Built σ) {b : Builder} {e : Entry}
    (ha : Adds σ.builder b e) : Built ⟨b, σ.entries ++ [e]⟩ where
  vec typ := by
    rw [ha.vec, h.vec, List.filter_append, List.map_append, List.filter_singleton]
    by_cases hslot : e.typ.slot = typ.slot <;> simp [hslot]
  map name := by
    simp only [ha.map, List.mem_append, List.mem_cons, h.map, Option.mem_toList,
      List.not_mem_nil, or_false]
    constructor
    · rintro (hd | rfl | ⟨d, hd, heq⟩)
      · exact ⟨e, .inr rfl, .inr hd⟩
      · exact ⟨e, .inr rfl, .inl rfl⟩
      · exact ⟨d, .inl hd, heq⟩
    · rintro ⟨d, hd | rfl, heq⟩
      · exact .inr (.inr ⟨d, hd, heq⟩)
      · exact heq.elim (fun heq => .inr (.inl heq)) .inl
  fresh := by
    refine List.pairwise_append.mpr ⟨h.fresh, List.pairwise_singleton _ _, ?_⟩
    intro d hd e' he'
    obtain rfl := List.mem_singleton.mp he'
    have hnot : ¬∃ d ∈ σ.entries, e'.name = d.name ∨ d.derivedName = some e'.name :=
      fun hex => ha.fresh ((h.map _).mpr hex)
    exact ⟨fun heq => hnot ⟨d, hd, .inl heq.symm⟩, fun heq => hnot ⟨d, hd, .inr heq⟩⟩

theorem built_step {ext : Extern} {σ σ' : Session} {c : Call} (h : Built σ)
    (hstep : σ.step ext c = some σ') : Built σ' := by
  cases c with
  | add typ p =>
    simp only [step, outcome_addM] at hstep
    cases hadd : σ.builder.add ext typ p with
    | some b =>
      simp only [hadd, added, Option.some.injEq] at hstep
      exact hstep ▸ h.add (adds_of_add hadd)
    | none =>
      simp only [hadd, added, Option.some.injEq] at hstep
      exact hstep ▸ h
  | defaultClocking signal edgeType overwrite =>
    obtain rfl := Option.some_inj.mp hstep
    cases hb : σ.builder.defaultClocking signal edgeType overwrite with
    | none => exact h
    | some b =>
      obtain ⟨hvec, hmap⟩ := defaultClocking_keeps hb
      exact h.congr hvec hmap
  | withGlobalEnvs envs | setLint enable | setCoverageReport enable =>
    obtain rfl := Option.some_inj.mp hstep
    exact h.congr (fun typ => by cases typ <;> rfl) rfl
  | clean =>
    obtain rfl := Option.some_inj.mp hstep
    refine ⟨fun typ => ?_, by simp [Builder.empty], .nil⟩
    cases typ <;> rfl

theorem built_of_reach {ext : Extern} {σ : Session} (h : Reach (step ext) Unguarded init σ) :
    Built σ :=
  h.invariant built_init fun _ _ _ _ hσ _ hstep => built_step hσ hstep

end Session

/-! ### The identifiers -/

/-- What is behind the name in the one that is made of it. -/
def Typ.suffix : Typ → Option Text
  | .cover (some .sequence) => some ['_', 'S', 'E', 'Q', 'U', 'E', 'N', 'C', 'E']
  | .cover _ | .assert => some ['_', 'P', 'R', 'O', 'P', 'E', 'R', 'T', 'Y']
  | .covergroup _ => some ['_', 'i', 'n', 's', 't']
  | .property | .sequence | .raw => none

lemma derivedName_eq (typ : Typ) (name : Text) :
    typ.derivedName name = typ.suffix.map fun s => ['_', 'G', 'E', 'N', '_'] ++ (name ++ s) := by
  have hinst : instName name =
      ['_', 'G', 'E', 'N', '_'] ++ (name ++ ['_', 'i', 'n', 's', 't']) := by
    simp [instName]
  cases typ with
  | cover covType =>
    cases covType with
    | none => rfl
    | some ct => cases ct <;> rfl
  | covergroup sampleEvent => simp only [Typ.derivedName, Typ.suffix, hinst, Option.map_some]
  | assert | property | sequence | raw => rfl

lemma suffix_inj {typ typ' : Typ} {s s' : Text} (h : typ.suffix = some s)
    (h' : typ'.suffix = some s') (hlast : s.getLast? = s'.getLast?) : s = s' := by
  have hcases : ∀ {typ : Typ} {s : Text}, typ.suffix = some s →
      s = ['_', 'S', 'E', 'Q', 'U', 'E', 'N', 'C', 'E'] ∨
        s = ['_', 'P', 'R', 'O', 'P', 'E', 'R', 'T', 'Y'] ∨ s = ['_', 'i', 'n', 's', 't'] := by
    intro typ s hs
    unfold Typ.suffix at hs
    split at hs <;> simp_all
  rcases hcases h with rfl | rfl | rfl <;> rcases hcases h' with rfl | rfl | rfl <;> simp_all

theorem derivedName_inj {typ typ' : Typ} {name name' x : Text}
    (h : typ.derivedName name = some x) (h' : typ'.derivedName name' = some x) : name = name' := by
  rw [derivedName_eq] at h h'
  obtain ⟨s, hs, rfl⟩ := Option.map_eq_some_iff.mp h
  obtain ⟨s', hs', heq⟩ := Option.map_eq_some_iff.mp h'
  have happend : name' ++ s' = name ++ s := List.append_cancel_left heq
  have hne : ∀ {typ : Typ} {s : Text}, typ.suffix = some s → s ≠ [] := by
    rintro typ s hs rfl
    unfold Typ.suffix at hs
    split at hs <;> simp_all
  have hlast : s.getLast? = s'.getLast? := by
    have hcongr := congrArg List.getLast? happend
    rw [List.getLast?_append_of_ne_nil _ (hne hs'),
      List.getLast?_append_of_ne_nil _ (hne hs)] at hcongr
    exact hcongr.symm
  obtain rfl := suffix_inj hs hs' hlast
  exact (List.append_cancel_right happend).symm

lemma derivedName_ne {typ : Typ} {name : Text} : typ.derivedName name ≠ some name := by
  rw [derivedName_eq]
  intro h
  obtain ⟨s, -, heq⟩ := Option.map_eq_some_iff.mp h
  have hlength := congrArg List.length heq
  simp only [List.length_append, List.length_cons] at hlength
  omega

lemma mem_identifiers {e : Entry} {x : Text} :
    x ∈ e.identifiers ↔ e.typ ≠ .raw ∧ (x = e.name ∨ e.derivedName = some x) := by
  obtain ⟨typ, name, ret, event⟩ := e
  cases typ <;> simp [Entry.identifiers, Entry.derivedName, Typ.identifiers, eq_comm]

lemma nodup_identifiers (e : Entry) : e.identifiers.Nodup := by
  have hne : e.typ.derivedName e.name ≠ some e.name := derivedName_ne
  unfold Entry.identifiers Typ.identifiers
  split
  · exact List.nodup_nil
  · cases hd : e.typ.derivedName e.name with
    | none => exact List.nodup_singleton _
    | some x =>
      rw [hd, ne_eq, Option.some_inj] at hne
      simpa [eq_comm] using hne

/-- The later of two statements can only clash by what is made of its name. -/
lemma disjoint_identifiers_iff {d e : Entry}
    (h : d.name ≠ e.name ∧ d.derivedName ≠ some e.name) :
    (d.identifiers.Disjoint e.identifiers) ↔ (d.typ ≠ .raw → e.derivedName ≠ some d.name) := by
  constructor
  · intro hdisj hraw hderived
    refine hdisj (mem_identifiers.mpr ⟨hraw, .inl rfl⟩) (mem_identifiers.mpr ⟨?_, .inr hderived⟩)
    intro hraw'
    simp [Entry.derivedName, hraw', Typ.derivedName] at hderived
  · intro hne x hd he
    obtain ⟨hraw, hx⟩ := mem_identifiers.mp hd
    obtain ⟨-, hx'⟩ := mem_identifiers.mp he
    rcases hx with rfl | hx <;> rcases hx' with heq | hx'
    · exact h.1 heq
    · exact hne hraw hx'
    · exact h.2 (heq ▸ hx)
    · exact h.1 (derivedName_inj hx hx')

/-- A property that is called like the one that an assertion will make. -/
def reserved : Call := .add .property ⟨"_GEN_a_PROPERTY".toList, ['x'], []⟩

def assertion : Call := .add .assert ⟨['a'], ['x'], []⟩

end Verilua.SVBuilder
