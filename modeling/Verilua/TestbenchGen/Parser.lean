import Verilua.TestbenchGen.PortDecl

/-!
# The ports of the design

The ports are collected from the header of the module, where each has a declarator of its own, and
from the declarations in its body, where several declarators share a type. A type is taken as it is
written; one that is not written is `wire` when the port is a scalar of `logic`, and otherwise that
of the port before it. The names are simple identifiers, and no comment stands within a type.
-/

namespace Verilua.TestbenchGen

open Wording

/-! ### Syntax -/

structure Identifier where
  text : Text
  text_ne : text ≠ []
  wordy_text : ∀ c ∈ text, isWordy c = true

/-- A type as it is written: a keyword, or none, and behind it a signing and the packed ranges. The
keyword `wire` is that of a net and no part of its type. -/
structure DataType where
  lead : Text
  keyword : Option Keyword
  rest : Text
  blank_lead : ∀ c ∈ lead, wording.blank c = true
  ne_wire : keyword ≠ some .wire
  head_rest : ∀ t ∈ (tokens rest).head?, t = ['['] ∨ t ∈ signings
  apart_rest : keyword ≠ none → wording.Apart rest
  nil_of_empty : keyword = none → tokens rest = [] → lead = [] ∧ rest = []

def DataType.text (d : DataType) : Text := d.lead ++ (d.keyword.elim [] Keyword.text ++ d.rest)

def DataType.ranges (d : DataType) : List Text := rangesOf d.rest

inductive Selector
  | simpleRange (left right : Text)
  | bit (expr : Text)
  | other

/-- An unpacked dimension. -/
structure Dim where
  text : Text
  apart : wording.Apart text
  selector : Selector

structure Declarator where
  name : Identifier
  dimensions : List Dim

inductive HeaderKind
  | net
  | variable (keyword : Bool)

def HeaderKind.isNet : HeaderKind → Bool
  | .net => true
  | .variable _ => false

structure AnsiPort where
  direction : Option Dir
  header : HeaderKind
  dataType : DataType
  declarator : Declarator

/-- A declaration of ports in the body of the module. -/
structure PortDeclaration where
  direction : Dir
  header : HeaderKind
  dataType : DataType
  first : Declarator
  others : List Declarator

/-! ### What elaboration says of the ports -/

inductive ArgumentDirection
  | in
  | out
  | inOut
  | ref

structure PortSymbol where
  name : Text
  direction : ArgumentDirection
  type : Text

variable (portList : List PortSymbol)

def getPortSymbol (name : Text) : Option PortSymbol :=
  portList.foldl (fun ret p => if p.name = name then some p else ret) none

def getPortDir (name : Text) : Option Dir := do
  let port ← getPortSymbol portList name
  match port.direction with
  | .in => some .input
  | .out => some .output
  | .inOut => some .inout
  | .ref => none

def getPortType (name : Text) : Option Text := do
  let port ← getPortSymbol portList name
  some port.type

/-! ### The collection of the ports -/

def dimSizeStr : Selector → Option Text
  | .simpleRange left right =>
    if left = ['0'] then some (right ++ [' ', '-', ' '] ++ left ++ [' ', '+', ' ', '1'])
    else if right = ['0'] then some (left ++ [' ', '-', ' '] ++ right ++ [' ', '+', ' ', '1'])
    else none
  | .bit expr => if expr = ['0'] then some ['1'] else some expr
  | .other => none

/-- The text that is kept for a type; both kinds of header treat it alike. -/
def portTypeStr (last dataTypeStr name : Text) : Option Text := do
  if dataTypeStr = [] then
    let type ← getPortType portList name
    if type = Keyword.logic.text then some Keyword.wire.text
    else if last ≠ [] then some last
    else none
  else if !containsString dataTypeStr Keyword.reg.text &&
      !containsString dataTypeStr Keyword.wire.text &&
      !containsString dataTypeStr Keyword.logic.text &&
      !containsString dataTypeStr Keyword.bit.text then
    some (Keyword.wire.text ++ ' ' :: dataTypeStr)
  else some dataTypeStr

def portInfo (last dataTypeStr : Text) (isNet : Bool) (id : Nat) (d : Declarator) :
    Option PortInfo := do
  let type ← portTypeStr portList last dataTypeStr d.name.text
  let dir ← getPortDir portList d.name.text
  let dimSizes ← d.dimensions.mapM fun dim => dimSizeStr dim.selector
  some {
    dir := dir
    type := type
    name := d.name.text
    dimensions := d.dimensions.map Dim.text
    dimSizes := dimSizes
    isNet := isNet
    id := id }

def ansiPortInfos : Text → Nat → List AnsiPort → Option (List PortInfo)
  | _, _, [] => some []
  | lastAnsiPortTypeStr, id, node :: nodes => do
    let p ← portInfo portList lastAnsiPortTypeStr node.dataType.text node.header.isNet id
      node.declarator
    let ps ← ansiPortInfos p.type (id + 1) nodes
    some (p :: ps)

/-- The type that one declarator got is the type that is written for the next one. -/
def declaratorInfos (last : Text) (isNet : Bool) :
    Text → Nat → List Declarator → Option (List PortInfo)
  | _, _, [] => some []
  | dataTypeStr, id, d :: ds => do
    let p ← portInfo portList last dataTypeStr isNet id d
    let ps ← declaratorInfos last isNet p.type (id + 1) ds
    some (p :: ps)

def nonAnsiPortInfos : Text → Nat → List PortDeclaration → Option (List PortInfo)
  | _, _, [] => some []
  | lastNonAnsiPortTypeStr, id, node :: nodes => do
    let ports ← declaratorInfos portList lastNonAnsiPortTypeStr node.header.isNet
      node.dataType.text id (node.first :: node.others)
    let p ← ports.head?
    let ps ← nonAnsiPortInfos p.type (id + ports.length) nodes
    some (ports ++ ps)

def portInfos (ansi : List AnsiPort) (nonAnsi : List PortDeclaration) :
    Option (List PortInfo) := do
  let ps ← ansiPortInfos portList [] 0 ansi
  let qs ← nonAnsiPortInfos portList [] ps.length nonAnsi
  some (ps ++ qs)

/-! ### What the ports are -/

structure Port where
  dir : Dir
  dataType : DataType
  name : Identifier
  dimensions : List Dim

def HeaderKind.isBare : HeaderKind → Bool
  | .net => false
  | .variable keyword => !keyword

/-- Nothing is written but the declarator. -/
def AnsiPort.Bare (node : AnsiPort) : Prop :=
  node.direction = none ∧ node.header.isBare = true ∧ node.dataType.text = []

instance (node : AnsiPort) : Decidable node.Bare := inferInstanceAs (Decidable (_ ∧ _ ∧ _))

/-- What is not written is taken from the port before, the type only when nothing is written. -/
def AnsiPort.port (prev : Option Port) (node : AnsiPort) : Port where
  dir := node.direction.getD (prev.elim .inout Port.dir)
  dataType := if node.Bare then prev.elim node.dataType Port.dataType else node.dataType
  name := node.declarator.name
  dimensions := node.declarator.dimensions

def ansiPorts : Option Port → List AnsiPort → List Port
  | _, [] => []
  | prev, node :: nodes => node.port prev :: ansiPorts (some (node.port prev)) nodes

def PortDeclaration.port (node : PortDeclaration) (d : Declarator) : Port where
  dir := node.direction
  dataType := node.dataType
  name := d.name
  dimensions := d.dimensions

def PortDeclaration.ports (node : PortDeclaration) : List Port :=
  (node.first :: node.others).map node.port

def ports (ansi : List AnsiPort) (nonAnsi : List PortDeclaration) : List Port :=
  ansiPorts none ansi ++ nonAnsi.flatMap PortDeclaration.ports

/-- Elaboration knows the direction of the port, and names it `logic` only without ranges. -/
def Elaborates (q : Port) : Prop :=
  getPortDir portList q.name.text = some q.dir ∧
    (getPortType portList q.name.text = some Keyword.logic.text → q.dataType.ranges = [])

/-- The declaration that is emitted keeps the shape of the port. -/
def Shaped (q : Port) (p : PortInfo) : Prop :=
  ∃ decl, p.toDeclString = some decl ∧
    Keeps decl q.dir q.dataType.ranges q.name.text (q.dimensions.map Dim.text)

/-! ### When the shape is kept -/

/-- No word that is replaced occurs where it is no keyword. -/
def DataType.Clean (d : DataType) (dir : Dir) : Prop :=
  match d.keyword with
  | some k => Clear dir k d.rest
  | none => ∀ w : Keyword, ¬ w.text <:+: d.text

/-- A type that is written is clean; one that is not is that of the port before when this is meant,
or when it has no packed range, unless the port is known to be a scalar. -/
def TypeFits (prev : List Text) (bare : Prop) (d : DataType) (dir : Dir) (name : Text) : Prop :=
  (d.text ≠ [] → d.Clean dir) ∧
    (d.text = [] → bare ∨ getPortType portList name = some Keyword.logic.text ∨ prev = [])

def rangesBefore (prev : Option Port) : List Text := prev.elim [] fun q => q.dataType.ranges

def AnsiFits : Option Port → List AnsiPort → Prop
  | _, [] => True
  | prev, node :: nodes =>
    TypeFits portList (rangesBefore prev) node.Bare node.dataType (node.port prev).dir
        node.declarator.name.text ∧
      AnsiFits (some (node.port prev)) nodes

def NonAnsiFits : Option Port → List PortDeclaration → Prop
  | _, [] => True
  | prev, node :: nodes =>
    TypeFits portList (rangesBefore prev) False node.dataType node.direction
        node.first.name.text ∧
      NonAnsiFits (some (node.port node.first)) nodes

variable {portList} {last type name : Text} {d : DataType} {dir : Dir} {k : Keyword} {rest : Text}

/-! ### The text of a type -/

/-- The text is that of a type with these ranges, and it declares them. -/
def Settled (dir : Dir) (type : Text) (ranges : List Text) : Prop :=
  Declares dir type ranges ∧ ∃ k rest, Reads type k rest ∧ rangesOf rest = ranges

def HasWord (type : Text) : Prop := ∃ w : Keyword, w.text <:+: type

lemma Reads.hasWord (h : Reads type k rest) : HasWord type := by
  obtain ⟨lead, -, rfl, -⟩ := h
  exact ⟨k, lead, rest, List.append_assoc _ _ _⟩

lemma HasWord.ne_nil (h : HasWord type) : type ≠ [] := by
  obtain ⟨w, hw⟩ := h
  rintro rfl
  exact w.text_ne (List.infix_nil.mp hw)

lemma Reads.settled (h : Reads type k rest) (hclear : Clear dir k rest) :
    Settled dir type (rangesOf rest) :=
  ⟨h.declares_iff_clear.mpr hclear, k, rest, h, rfl⟩

lemma settled_wire (dir : Dir) : Settled dir Keyword.wire.text [] := by
  have hread : Reads Keyword.wire.text .wire [] :=
    ⟨[], nofun, by rw [List.append_nil, List.nil_append], wording.apart_nil⟩
  refine hread.settled fun w _ hin => ?_
  exact w.text_ne (List.infix_nil.mp hin)

lemma noWord_iff : (!containsString type Keyword.reg.text &&
    !containsString type Keyword.wire.text && !containsString type Keyword.logic.text &&
    !containsString type Keyword.bit.text) = true ↔ ¬ HasWord type := by
  simp only [Bool.and_eq_true, Bool.not_eq_true', ← Bool.not_eq_true, containsString_eq_true_iff]
  constructor
  · rintro ⟨⟨⟨hreg, hwire⟩, hlogic⟩, hbit⟩ ⟨w, hw⟩
    cases w <;> contradiction
  · intro h
    have hnot : ∀ w : Keyword, ¬ w.text <:+: type := fun w hw => h ⟨w, hw⟩
    exact ⟨⟨⟨hnot .reg, hnot .wire⟩, hnot .logic⟩, hnot .bit⟩

lemma portTypeStr_of_hasWord (h : HasWord type) :
    portTypeStr portList last type name = some type := by
  rw [portTypeStr, if_neg h.ne_nil, if_neg (by rw [noWord_iff]; exact not_not_intro h)]

lemma portTypeStr_of_not (hne : type ≠ []) (h : ¬ HasWord type) :
    portTypeStr portList last type name = some (Keyword.wire.text ++ ' ' :: type) := by
  rw [portTypeStr, if_neg hne, if_pos (noWord_iff.mpr h)]

/-- A type that is not written is `wire` or the last one. -/
lemma portTypeStr_nil (h : portTypeStr portList last [] name = some type) :
    (getPortType portList name = some Keyword.logic.text ∧ type = Keyword.wire.text) ∨
      (getPortType portList name ≠ some Keyword.logic.text ∧ last ≠ [] ∧ type = last) := by
  rw [portTypeStr, if_pos rfl] at h
  obtain ⟨t, ht, h⟩ := Option.bind_eq_some_iff.mp h
  split_ifs at h with hlogic hlast
  · exact .inl ⟨by rw [ht, hlogic], (Option.some.inj h).symm⟩
  · exact .inr ⟨by rw [ht]; simpa using hlogic, hlast, (Option.some.inj h).symm⟩

lemma DataType.tokens_text (h : d.keyword = none) : tokens d.text = tokens d.rest := by
  rw [DataType.text, h]
  exact wording.tokens_lead d.blank_lead

lemma portTypeStr_written (dir : Dir) (hne : d.text ≠ [])
    (h : portTypeStr portList last d.text name = some type) :
    (Declares dir type d.ranges ↔ d.Clean dir) ∧
      (Declares dir type d.ranges → Settled dir type d.ranges) ∧ HasWord type := by
  cases hk : d.keyword with
  | some k =>
    have hread : Reads d.text k d.rest := by
      refine ⟨d.lead, d.blank_lead, ?_, d.apart_rest (by simp [hk])⟩
      rw [DataType.text, hk]
      rfl
    rw [portTypeStr_of_hasWord hread.hasWord, Option.some.injEq] at h
    subst h
    rw [DataType.Clean, hk]
    exact ⟨hread.declares_iff_clear, fun hdecl => ⟨hdecl, k, d.rest, hread, rfl⟩, hread.hasWord⟩
  | none =>
    have hclean : d.Clean dir ↔ ¬ HasWord d.text := by
      rw [DataType.Clean, hk, HasWord, not_exists]
    rw [hclean]
    by_cases hword : HasWord d.text
    · rw [portTypeStr_of_hasWord hword, Option.some.injEq] at h
      subst h
      have hsome : ∃ t, (tokens d.rest).head? = some t := by
        cases hrest : tokens d.rest with
        | nil =>
          obtain ⟨hlead, hrest⟩ := d.nil_of_empty hk hrest
          rw [DataType.text, hk, hlead, hrest] at hne
          exact absurd rfl hne
        | cons t ts => exact ⟨t, rfl⟩
      obtain ⟨t, ht⟩ := hsome
      have hnot : ¬ Declares dir d.text d.ranges :=
        not_declares (by rw [DataType.tokens_text hk]; exact ht) (d.head_rest t ht)
      exact ⟨iff_of_false hnot (not_not_intro hword), fun hdecl => absurd hdecl hnot, hword⟩
    · rw [portTypeStr_of_not hne hword, Option.some.injEq] at h
      subst h
      have hread : Reads (Keyword.wire.text ++ ' ' :: d.text) .wire (' ' :: d.text) :=
        ⟨[], nofun, rfl, wording.apart_of_blank space_blank⟩
      have hranges : rangesOf (' ' :: d.text) = d.ranges := by
        rw [rangesOf, tokens_cons_space, DataType.tokens_text hk]
        rfl
      have hclear : Clear dir .wire (' ' :: d.text) := by
        intro w _ hin
        rcases List.infix_cons_iff.mp hin with hpre | hin
        · cases w <;> simp [Keyword.text] at hpre
        · exact hword ⟨w, hin⟩
      have hsettled := hread.settled hclear
      rw [hranges] at hsettled
      exact ⟨iff_of_true hsettled.1 hword, fun _ => hsettled, hread.hasWord⟩

/-- What the port before leaves for the next one. -/
def Follows (last : Text) : Option Port → Prop
  | none => last = []
  | some q => Settled q.dir last q.dataType.ranges

lemma DataType.ranges_of_text (h : d.text = []) : d.ranges = [] := by
  have hrest : d.rest = [] := (List.append_eq_nil_iff.mp (List.append_eq_nil_iff.mp h).2).2
  rw [DataType.ranges, hrest]
  rfl

lemma portTypeStr_spec {prev : Option Port} {bare : Prop} {ranges : List Text}
    (hprev : Follows last prev) (hbare : bare → d.text = [])
    (hsame : bare → ∀ q ∈ prev, dir = q.dir ∧ ranges = q.dataType.ranges)
    (hown : ¬ bare → ranges = d.ranges)
    (hlogic : getPortType portList name = some Keyword.logic.text → ranges = [])
    (h : portTypeStr portList last d.text name = some type) :
    (Declares dir type ranges ↔ TypeFits portList (rangesBefore prev) bare d dir name) ∧
      (Declares dir type ranges → Settled dir type ranges) ∧ HasWord type := by
  by_cases hd : d.text = []
  · rw [hd] at h
    rcases portTypeStr_nil h with ⟨hscalar, rfl⟩ | ⟨hscalar, hlast, rfl⟩
    · rw [hlogic hscalar]
      have hsettled := settled_wire dir
      refine ⟨iff_of_true hsettled.1 ⟨fun hne => absurd hd hne, fun _ => .inr (.inl hscalar)⟩,
        fun _ => hsettled, .wire, List.infix_refl _⟩
    · cases prev with
      | none => exact absurd hprev hlast
      | some q =>
        obtain ⟨hdecl, k, rest, hread, hranges⟩ := hprev
        by_cases hb : bare
        · obtain ⟨rfl, rfl⟩ := hsame hb q rfl
          exact ⟨iff_of_true hdecl ⟨fun hne => absurd hd hne, fun _ => .inl hb⟩,
            fun _ => ⟨hdecl, k, rest, hread, hranges⟩, hread.hasWord⟩
        · have hnil : ranges = [] := by rw [hown hb, d.ranges_of_text hd]
          subst hnil
          refine ⟨?_, fun hdecl => ⟨hdecl, k, rest, hread, hread.declares_nil_iff.mp hdecl⟩,
            hread.hasWord⟩
          rw [hread.declares_nil_iff, hranges, TypeFits]
          simp [hd, hb, hscalar, rangesBefore]
  · have hb : ¬ bare := fun hb => hd (hbare hb)
    rw [hown hb, TypeFits]
    obtain ⟨hiff, hrest⟩ := portTypeStr_written dir hd h
    rw [hiff]
    exact ⟨by simp [hd], by rw [← hiff]; exact hrest⟩

/-! ### One port -/

variable {isNet : Bool} {id : Nat} {p : PortInfo} {q : Port}

/-- The data of the port that does not depend on its type. -/
def Copies (q : Port) (p : PortInfo) : Prop :=
  p.dir = q.dir ∧ p.name = q.name.text ∧ p.dimensions = q.dimensions.map Dim.text

lemma shaped_iff (h : Copies q p) : Shaped q p ↔ Declares q.dir p.type q.dataType.ranges := by
  obtain ⟨hdir, hname, hdims⟩ := h
  rw [Shaped, ← hdir, ← hname, ← hdims]
  refine PortInfo.toDeclString_keeps_iff (by rw [hname]; exact q.name.text_ne)
    (by rw [hname]; exact q.name.wordy_text) ?_
  rw [hdims]
  exact List.forall_mem_map.mpr fun dim _ => dim.apart

lemma portInfo_eq_some {dataTypeStr : Text} {decl : Declarator} (hname : q.name = decl.name)
    (hdims : q.dimensions = decl.dimensions) (hq : Elaborates portList q)
    (h : portInfo portList last dataTypeStr isNet id decl = some p) :
    portTypeStr portList last dataTypeStr q.name.text = some p.type ∧ Copies q p := by
  obtain ⟨type, htype, h⟩ := Option.bind_eq_some_iff.mp h
  obtain ⟨dir, hdir, h⟩ := Option.bind_eq_some_iff.mp h
  obtain ⟨dimSizes, -, h⟩ := Option.bind_eq_some_iff.mp h
  cases h
  rw [← hname, hq.1, Option.some.injEq] at hdir
  exact ⟨by rw [hname]; exact htype, hdir.symm, by rw [hname], by rw [hdims]⟩

/-! ### The header of the module -/

lemma forall₂_ansi {prev : Option Port} {nodes : List AnsiPort} {infos : List PortInfo}
    (hprev : Follows last prev) (hknown : ∀ q ∈ ansiPorts prev nodes, Elaborates portList q)
    (h : ansiPortInfos portList last id nodes = some infos) :
    List.Forall₂ Shaped (ansiPorts prev nodes) infos ↔ AnsiFits portList prev nodes := by
  induction nodes generalizing last id prev infos with
  | nil =>
    cases h
    exact iff_of_true .nil trivial
  | cons node nodes ih =>
    obtain ⟨p, hp, h⟩ := Option.bind_eq_some_iff.mp h
    obtain ⟨ps, hps, h⟩ := Option.bind_eq_some_iff.mp h
    cases h
    obtain ⟨hq, hknown⟩ := List.forall_mem_cons.mp hknown
    obtain ⟨htype, hcopies⟩ := portInfo_eq_some (q := node.port prev) rfl rfl hq hp
    have hsame : node.Bare → ∀ q ∈ prev,
        (node.port prev).dir = q.dir ∧ (node.port prev).dataType.ranges = q.dataType.ranges := by
      rintro hbare q ⟨⟩
      exact ⟨by simp [AnsiPort.port, hbare.1], by simp [AnsiPort.port, hbare]⟩
    have hown : ¬ node.Bare → (node.port prev).dataType.ranges = node.dataType.ranges := by
      intro hbare
      simp [AnsiPort.port, hbare]
    obtain ⟨hiff, hsettled, -⟩ :=
      portTypeStr_spec hprev (fun hbare => hbare.2.2) hsame hown hq.2 htype
    rw [ansiPorts, List.forall₂_cons, shaped_iff hcopies, AnsiFits]
    refine (and_congr_right fun hdecl => ?_).trans (and_congr_left' hiff)
    have hnext : Follows p.type (some (node.port prev)) := hsettled hdecl
    exact ih hnext hknown hps

/-- No port is left out, whatever its type is. -/
lemma forall₂_copies_ansi {prev : Option Port} {nodes : List AnsiPort} {infos : List PortInfo}
    (hknown : ∀ q ∈ ansiPorts prev nodes, Elaborates portList q)
    (h : ansiPortInfos portList last id nodes = some infos) :
    List.Forall₂ Copies (ansiPorts prev nodes) infos := by
  induction nodes generalizing last id prev infos with
  | nil =>
    cases h
    exact .nil
  | cons node nodes ih =>
    obtain ⟨p, hp, h⟩ := Option.bind_eq_some_iff.mp h
    obtain ⟨ps, hps, h⟩ := Option.bind_eq_some_iff.mp h
    cases h
    obtain ⟨hq, hknown⟩ := List.forall_mem_cons.mp hknown
    exact .cons (portInfo_eq_some (q := node.port prev) rfl rfl hq hp).2 (ih hknown hps)

/-! ### The declarations in the body -/

variable {node : PortDeclaration} {ds : List Declarator} {ps infos : List PortInfo}

lemma declaratorInfos_eq_some (hword : HasWord type)
    (hknown : ∀ d ∈ ds, Elaborates portList (node.port d))
    (h : declaratorInfos portList last isNet type id ds = some ps) :
    List.Forall₂ (fun q p => p.type = type ∧ Copies q p) (ds.map node.port) ps := by
  induction ds generalizing id ps with
  | nil =>
    cases h
    exact .nil
  | cons d ds ih =>
    obtain ⟨p, hp, h⟩ := Option.bind_eq_some_iff.mp h
    obtain ⟨ps, hps, h⟩ := Option.bind_eq_some_iff.mp h
    cases h
    obtain ⟨hq, hknown⟩ := List.forall_mem_cons.mp hknown
    obtain ⟨htype, hcopies⟩ := portInfo_eq_some (q := node.port d) rfl rfl hq hp
    rw [portTypeStr_of_hasWord hword, Option.some.injEq] at htype
    rw [← htype] at hps
    exact .cons ⟨htype.symm, hcopies⟩ (ih hknown hps)

lemma declarators_spec {prev : Option Port} (hprev : Follows last prev)
    (hknown : ∀ q ∈ node.ports, Elaborates portList q)
    (h : declaratorInfos portList last isNet node.dataType.text id (node.first :: node.others) =
      some ps) :
    ∃ p, ps.head? = some p ∧
      List.Forall₂ (fun q p' => p'.type = p.type ∧ Copies q p') node.ports ps ∧
      (Declares node.direction p.type node.dataType.ranges ↔
        TypeFits portList (rangesBefore prev) False node.dataType node.direction
          node.first.name.text) ∧
      (Declares node.direction p.type node.dataType.ranges →
        Settled node.direction p.type node.dataType.ranges) := by
  obtain ⟨p, hp, h⟩ := Option.bind_eq_some_iff.mp h
  obtain ⟨ps, hps, h⟩ := Option.bind_eq_some_iff.mp h
  cases h
  obtain ⟨hq, hknown⟩ := List.forall_mem_cons.mp (List.forall_mem_map.mp hknown)
  obtain ⟨htype, hcopies⟩ := portInfo_eq_some (q := node.port node.first) rfl rfl hq hp
  have hsame : False → ∀ q ∈ prev,
      node.direction = q.dir ∧ node.dataType.ranges = q.dataType.ranges := nofun
  obtain ⟨hiff, hsettled, hword⟩ :=
    portTypeStr_spec hprev False.elim hsame (fun _ => rfl) hq.2 htype
  exact ⟨p, rfl, .cons ⟨rfl, hcopies⟩ (declaratorInfos_eq_some hword hknown hps), hiff, hsettled⟩

lemma forall₂_append_iff {α β : Type*} {R S : α → β → Prop} {l l' : List α} {m m' : List β}
    (h : List.Forall₂ S l m) : List.Forall₂ R (l ++ l') (m ++ m') ↔
      List.Forall₂ R l m ∧ List.Forall₂ R l' m' := by
  induction h with
  | nil => simp
  | cons _ _ ih => simp [ih, and_assoc]

lemma forall₂_shaped_iff (hne : ds ≠ [])
    (h : List.Forall₂ (fun q p => p.type = type ∧ Copies q p) (ds.map node.port) ps) :
    List.Forall₂ Shaped (ds.map node.port) ps ↔
      Declares node.direction type node.dataType.ranges := by
  have heach : ∀ d p, (p.type = type ∧ Copies (node.port d) p) →
      (Shaped (node.port d) p ↔ Declares node.direction type node.dataType.ranges) := by
    rintro d p ⟨rfl, hcopies⟩
    exact shaped_iff hcopies
  constructor
  · intro hshaped
    cases ds with
    | nil => exact absurd rfl hne
    | cons d ds =>
      cases h with
      | cons hp _ =>
        cases hshaped with
        | cons hshaped _ => exact (heach d _ hp).mp hshaped
  · intro hdecl
    rw [List.forall₂_map_left_iff] at h ⊢
    exact h.imp fun d p hp => (heach d p hp).mpr hdecl

lemma forall₂_nonAnsi {prev : Option Port} {nodes : List PortDeclaration}
    (hprev : Follows last prev)
    (hknown : ∀ q ∈ nodes.flatMap PortDeclaration.ports, Elaborates portList q)
    (h : nonAnsiPortInfos portList last id nodes = some infos) :
    List.Forall₂ Shaped (nodes.flatMap PortDeclaration.ports) infos ↔
      NonAnsiFits portList prev nodes := by
  induction nodes generalizing last id prev infos with
  | nil =>
    cases h
    exact iff_of_true .nil trivial
  | cons node nodes ih =>
    obtain ⟨ports, hports, h⟩ := Option.bind_eq_some_iff.mp h
    obtain ⟨p, hp, h⟩ := Option.bind_eq_some_iff.mp h
    obtain ⟨ps, hps, h⟩ := Option.bind_eq_some_iff.mp h
    cases h
    rw [List.flatMap_cons] at hknown ⊢
    obtain ⟨hnode, hknown⟩ := List.forall_mem_append.mp hknown
    obtain ⟨p', hp', hcopies, hiff, hsettled⟩ := declarators_spec hprev hnode hports
    rw [hp, Option.some.injEq] at hp'
    subst hp'
    rw [forall₂_append_iff hcopies, NonAnsiFits]
    have hshaped := forall₂_shaped_iff (List.cons_ne_nil _ _) hcopies
    rw [PortDeclaration.ports, hshaped]
    refine (and_congr_right fun hdecl => ?_).trans (and_congr_left' hiff)
    have hnext : Follows p.type (some (node.port node.first)) := hsettled hdecl
    exact ih hnext hknown hps

variable {ansi : List AnsiPort} {nonAnsi : List PortDeclaration}

/-- `[w-1:0]` behind a blank, where the parameter `w` may have any name. -/
def rangeType (w : Identifier) : DataType where
  lead := [' ']
  keyword := none
  rest := '[' :: w.text ++ ['-', '1', ':', '0', ']']
  blank_lead := List.all_eq_true.mp rfl
  ne_wire := nofun
  head_rest := by
    rintro t ⟨⟩
    exact .inl rfl
  apart_rest := fun h => absurd rfl h
  nil_of_empty := by
    intro _ h
    cases h

def noType : DataType where
  lead := []
  keyword := none
  rest := []
  blank_lead := nofun
  ne_wire := nofun
  head_rest := nofun
  apart_rest := fun h => absurd rfl h
  nil_of_empty := fun _ _ => ⟨rfl, rfl⟩

def declaratorA : Declarator := ⟨⟨['a'], nofun, List.all_eq_true.mp rfl⟩, []⟩

def declaratorB : Declarator := ⟨⟨['b'], nofun, List.all_eq_true.mp rfl⟩, []⟩

/-- `input wire [w-1:0] a, b` -/
def pairHeader (w : Identifier) : List AnsiPort :=
  [⟨some .input, .net, rangeType w, declaratorA⟩, ⟨none, .variable false, noType, declaratorB⟩]

def pairSymbols : List PortSymbol :=
  [⟨['a'], .in, ['l', 'o', 'g', 'i', 'c', '[', '7', ':', '0', ']']⟩,
    ⟨['b'], .in, ['l', 'o', 'g', 'i', 'c', '[', '7', ':', '0', ']']⟩]

lemma elaborates_pair (w : Identifier) :
    ∀ q ∈ ports (pairHeader w) [], Elaborates pairSymbols q := by
  have ha : getPortType pairSymbols ['a'] ≠ some Keyword.logic.text := by decide
  have hb : getPortType pairSymbols ['b'] ≠ some Keyword.logic.text := by decide
  exact List.forall_mem_cons.mpr ⟨⟨rfl, fun h => absurd h ha⟩,
    List.forall_mem_cons.mpr ⟨⟨rfl, fun h => absurd h hb⟩, nofun⟩⟩

def bits : Identifier := ⟨['b', 'i', 't', 's'], nofun, List.all_eq_true.mp rfl⟩

def width : Identifier := ⟨['n'], nofun, List.all_eq_true.mp rfl⟩

end Verilua.TestbenchGen
