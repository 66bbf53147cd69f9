import Verilua.TestbenchGen.PortDecl

/-!
# The generated bench

`testbench_gen` selects the clock and the reset among the inputs of the design and renders the text
of the bench from a template. The template is read here line by line: what a line declares, which
names it writes and which it uses, under which macro it stands, and for which selected names it is
rendered. Lines without a name, like the check of the macros, are left out.
-/

namespace Verilua.TestbenchGen

/-! ### The names of the bench -/

namespace Name

def clock : Text := "clock".toList
def reset : Text := "reset".toList
def cycles : Text := "cycles".toList
def cyclesO : Text := "cycles_o".toList
def others : Text := "u_others".toList
def tbTop : Text := "tb_top".toList
def initializeTrace : Text := "simulation_initializeTrace".toList
def enableTrace : Text := "simulation_enableTrace".toList
def disableTrace : Text := "simulation_disableTrace".toList
def traceFilePath : Text := "traceFilePath".toList
def file : Text := "file".toList
def traceName : Text := "trace_name".toList
def dumpFile : Text := "dump_file".toList
def dumpStartCycle : Text := "dump_start_cycle".toList

lemma clock_ne : clock ≠ [] := by decide

@[simp] lemma reset_ne : reset ≠ [] := by decide

end Name

/-! ### The selection of the clock and the reset -/

def PortInfo.isInput (p : PortInfo) : Bool := decide (p.dir = .input)

def toLower (name : Text) : Text := name.map Char.toLower

def clockScore (name : Text) : Option Nat :=
  let lowerName := toLower name
  if ["clk".toList, "clock".toList].contains lowerName then some 0
  else if ["clk_".toList, "clock_".toList, "i_clk".toList, "i_clock".toList].any
      (·.isPrefixOf lowerName) || ["_clk".toList, "_clock".toList].any (·.isSuffixOf lowerName) then
    some 1
  else none

def resetScore (name : Text) : Option Nat :=
  let lowerName := toLower name
  if ["rst".toList, "reset".toList].contains lowerName then some 0
  else if ["rst_n".toList, "reset_n".toList, "rstn".toList, "resetn".toList].contains lowerName then
    some 1
  else if ["rst_".toList, "reset_".toList, "i_rst".toList, "i_reset".toList].any
      (·.isPrefixOf lowerName) || ["_rst".toList, "_reset".toList, "_rst_n".toList,
        "_reset_n".toList].any (·.isSuffixOf lowerName) then
    some 2
  else none

/-- The best score so far and the names that have it. -/
structure Candidates where
  bestScore : Option Nat
  names : List Text

def Candidates.add (score : Text → Option Nat) (c : Candidates) (port : PortInfo) : Candidates :=
  if port.isInput then
    match score port.name, c.bestScore with
    | none, _ => c
    | some n, none => ⟨some n, [port.name]⟩
    | some n, some best =>
      if n < best then ⟨some n, [port.name]⟩
      else if n = best then { c with names := c.names ++ [port.name] }
      else c
  else c

/-- The outer `none` is a stop: the name is that of no input, or it is not clear which one. -/
def selectSignal (portInfos : List PortInfo) (requested : Option Text)
    (score : Text → Option Nat) : Option (Option Text) :=
  let name := requested.getD []
  if name ≠ [] then
    if portInfos.any fun port => port.isInput && port.name == name then some (some name) else none
  else
    let c := portInfos.foldl (Candidates.add score) ⟨none, []⟩
    if 1 < c.names.length then none else some c.names.head?

/-- A parameter of the design, with the statement that declares it again. -/
structure PortParam where
  name : Text
  stmt : Text

/-- The names of a design are those of one scope. -/
structure Design where
  topName : Text
  portInfos : List PortInfo
  portParams : List PortParam
  hasProceduralBlock : Bool
  name_ne : ∀ p ∈ portInfos, p.name ≠ []
  nodup : (portParams.map PortParam.name ++ portInfos.map PortInfo.name).Nodup

structure Options where
  tbtopName : Option Text
  dutName : Option Text
  clockSignalName : Option Text
  resetSignalName : Option Text

/-- What the template is rendered with. -/
structure Bench where
  tbtopName : Text
  topName : Text
  dutName : Text
  clockSignalName : Text
  resetSignalName : Text
  portInfos : List PortInfo
  portParams : List PortParam

/-- Without a clock the bench takes its own, unless the design has a process that needs one. -/
def clockSignal (selectedClock : Option Text) (hasProceduralBlock : Bool) : Option Text :=
  match selectedClock with
  | some name => some name
  | none => if hasProceduralBlock then none else some Name.clock

def bench (o : Options) (d : Design) : Option Bench := do
  let selectedClock ← selectSignal d.portInfos o.clockSignalName clockScore
  let selectedReset ← selectSignal d.portInfos o.resetSignalName resetScore
  let clockSignalName ← clockSignal selectedClock d.hasProceduralBlock
  let dutName := o.dutName.getD []
  some {
    tbtopName := o.tbtopName.getD Name.tbTop
    topName := d.topName
    dutName := if dutName = [] then "u_".toList ++ d.topName else dutName
    clockSignalName := clockSignalName
    resetSignalName := selectedReset.getD []
    portInfos := d.portInfos
    portParams := d.portParams }

/-! ### Texts with conditional parts -/

inductive Simulator
  | verilator
  | vcs
  | xcelium
  | iverilog
  deriving DecidableEq

inductive Feature
  | noInternalClock
  | vcsDumpVcd
  | fsdbAutoSwitch
  | fsdbDumpSva
  | xceliumDumpVcd
  | xceliumDumpFsdb
  deriving DecidableEq

inductive Macro
  | sim (s : Simulator)
  | feature (f : Feature)

/-- The macro of one simulator is defined, and any of the others. -/
def defines (sim : Simulator) (features : Feature → Bool) : Macro → Bool
  | .sim s => decide (sim = s)
  | .feature f => features f

inductive Source (α : Type)
  | line (a : α)
  | ifdef (m : Macro) (defined undefined : List (Source α))

mutual

def Source.lines {α : Type} (env : Macro → Bool) : Source α → List α
  | .line a => [a]
  | .ifdef m defined undefined => if env m then preprocess env defined else preprocess env undefined

def preprocess {α : Type} (env : Macro → Bool) : List (Source α) → List α
  | [] => []
  | s :: ss => s.lines env ++ preprocess env ss

end

/-- A statement, with the blocks around it by the names that each of them declares. -/
structure Stmt where
  blocks : List (List Text) := []
  writes : List Text := []
  uses : List Text := []

inductive Item
  | parameter (name : Text) (uses : List Text)
  | declare (name : Text) (uses : List Text)
  | assign (target source : Text)
  | process (body : List (Source Stmt))
  | exportDpi (function : Text)
  | function (name : Text) (body : List (Source Stmt))
  | instantiate (module name : Text) (connections : List (Text × List Text))

/-! ### The template -/

section Template

variable (idents : Text → List Text) (g : Bench)

def header : List (Source Item) :=
  g.portParams.map (fun p => .line (.parameter p.name (idents p.stmt))) ++
    [.ifdef (.sim .verilator)
      [.line (.declare Name.clock []), .line (.declare Name.reset []),
        .line (.declare Name.cyclesO [])]
      []]

/-- The clock and the reset of every simulator but one. -/
def clockAndReset : List (Source Item) :=
  [.ifdef (.sim .verilator) []
    ([.line (.declare g.clockSignalName [])] ++
      (if g.resetSignalName = [] then []
      else [.line (.declare Name.reset [])] ++
        (if g.resetSignalName ≠ Name.reset then
          [.line (.declare g.resetSignalName []), .line (.assign g.resetSignalName Name.reset)]
        else [])) ++
      [.line (.process ([.line { writes := [g.clockSignalName] }] ++
        if g.resetSignalName = [] then [] else [.line { writes := [Name.reset] }])),
      .ifdef (.feature .noInternalClock) []
        [.line (.process [.line
          { writes := [g.clockSignalName], uses := [g.clockSignalName] }])]])]

def clockAlias : List (Source Item) :=
  if g.clockSignalName ≠ Name.clock ∧ g.clockSignalName ≠ [] then
    [.ifdef (.sim .verilator)
      [.line (.declare g.clockSignalName []), .line (.assign g.clockSignalName Name.clock)]
      [.line (.declare Name.clock []), .line (.assign Name.clock g.clockSignalName)]]
  else []

def resetAlias : List (Source Item) :=
  if g.resetSignalName ≠ Name.reset ∧ g.resetSignalName ≠ [] then
    [.ifdef (.sim .verilator)
      [.line (.declare g.resetSignalName []), .line (.assign g.resetSignalName Name.reset)]
      []]
  else []

def counter : List (Source Item) :=
  [.line (.declare Name.cycles []),
    .line (.process [.line { writes := [Name.cycles] }]),
    .line (.process [.line { uses := [g.clockSignalName] },
      .line { writes := [Name.cycles], uses := [Name.cycles] }]),
    .ifdef (.sim .verilator) [.line (.assign Name.cyclesO Name.cycles)] []]

/-- The ports that the bench declares beside the clock and the reset. -/
def Bench.others : List PortInfo :=
  g.portInfos.filter fun p =>
    decide (¬ (p.name = g.clockSignalName ∨ p.name = g.resetSignalName))

def signalDecl : List (Source Item) :=
  g.others.map fun p => .line (.declare p.name (p.toDeclString.elim [] idents))

def indexName (i : Nat) : Text := 'i' :: Nat.toDigits 10 i

/-- The loops over the dimensions of an input, each with its own variable, and what they clear. -/
def initStmts (p : PortInfo) : List (Source Stmt) :=
  (List.range p.dimensions.length).map (fun i => .line {
    blocks := (List.range (i + 1)).map fun j => [indexName j]
    uses := indexName i :: idents (p.dimSizes.getD i []) }) ++
  [.line {
    blocks := (List.range p.dimensions.length).map fun j => [indexName j]
    writes := [p.name]
    uses := (List.range p.dimensions.length).map indexName }]

def regInitialize : List (Source Item) :=
  [.line (.process ((g.others.filter PortInfo.isInput).flatMap (initStmts idents)))]

def signalConnect : List (Source Item) :=
  [.line (.instantiate g.topName g.dutName
    (g.portParams.map (fun p => (p.name, [p.name])) ++
      g.portInfos.map fun p => (p.name, [p.name])))]

def tracePath : Stmt := { blocks := [[Name.traceFilePath]], uses := [Name.traceFilePath] }

def traceTop : Stmt := { blocks := [[Name.traceFilePath]], uses := [g.tbtopName] }

def initializeTrace : List (Source Stmt) :=
  let fsdb : List (Source Stmt) :=
    [.ifdef (.feature .fsdbAutoSwitch) [.line tracePath] [.line tracePath],
      .ifdef (.feature .fsdbDumpSva) [.line (traceTop g)] [],
      .line (traceTop g)]
  [.ifdef (.sim .verilator) [.line tracePath, .line (traceTop g)] [],
    .ifdef (.sim .vcs)
      [.ifdef (.feature .vcsDumpVcd) [.line tracePath, .line (traceTop g)] fsdb] [],
    .ifdef (.sim .xcelium)
      [.ifdef (.feature .xceliumDumpVcd) [.line tracePath, .line (traceTop g)]
        [.ifdef (.feature .xceliumDumpFsdb) fsdb [.line (traceTop g)]]] []]

def traceNames : List Text :=
  [Name.initializeTrace, Name.enableTrace,
    Name.disableTrace]

def latch (name : Text) : Text := name ++ "_latch".toList

/-- The blocks of the process that watches for the requests. -/
def traceBlock : List Text := [Name.file, Name.traceName]

def watchStmts : List (Source Stmt) :=
  [.line { uses := [g.clockSignalName, g.clockSignalName] },
    .line { uses := [Name.initializeTrace,
      latch Name.initializeTrace] },
    .line { blocks := [traceBlock], writes := [Name.file, Name.traceName],
            uses := [Name.file, Name.traceName] },
    .line { blocks := [traceBlock], uses := [Name.tbTop] },
    .line { blocks := [traceBlock], writes := [latch Name.initializeTrace] },
    .line { writes := [latch Name.enableTrace],
            uses := [Name.enableTrace, latch Name.enableTrace] },
    .line { writes := [latch Name.disableTrace],
            uses := [Name.disableTrace, latch Name.disableTrace] }]

def tracing : List (Source Item) :=
  [.ifdef (.sim .iverilog) []
    (traceNames.map (fun name => .line (.exportDpi name)) ++
      [.line (.function Name.initializeTrace (initializeTrace g)),
        .line (.function Name.enableTrace []),
        .line (.function Name.disableTrace [])]),
    .ifdef (.sim .iverilog)
      (traceNames.flatMap (fun name =>
        [.line (.declare name []), .line (.declare (latch name) [])]) ++
      [.line (.process (traceNames.map fun name => .line { writes := [name, latch name] })),
        .line (.process (watchStmts g))])
      []]

def dumpBlock : List Text := [Name.dumpFile, Name.dumpStartCycle]

def dumpStmts : List (Source Stmt) :=
  let dump : List (Source Stmt) :=
    [.line { blocks := [dumpBlock], uses := [Name.dumpStartCycle, g.clockSignalName] },
      .line { blocks := [dumpBlock], uses := [Name.dumpFile] },
      .line { blocks := [dumpBlock], uses := [g.tbtopName] }]
  [.line { blocks := [dumpBlock], writes := dumpBlock },
    .line { blocks := [dumpBlock], writes := [Name.dumpFile], uses := [Name.dumpFile] },
    .line { blocks := [dumpBlock], writes := [Name.dumpStartCycle],
            uses := [Name.dumpStartCycle] }] ++ dump ++
    [.ifdef (.feature .vcsDumpVcd) [] dump]

def command : List (Source Item) :=
  [.ifdef (.sim .vcs) [.line (.process (dumpStmts g))] []]

def userCode : List (Source Item) :=
  [.line (.instantiate "Others".toList Name.others
    [(Name.clock, [g.clockSignalName]),
      (Name.reset, if g.resetSignalName = [] then [] else [g.resetSignalName])])]

/-- The text of the bench, without custom code. -/
def tbTop : List (Source Item) :=
  header idents g ++ clockAndReset g ++ clockAlias g ++ resetAlias g ++ counter g ++
    signalDecl idents g ++ regInitialize idents g ++ signalConnect g ++ tracing g ++ command g ++
    userCode g

end Template

end Verilua.TestbenchGen
