import Verilua.SvBuilder.Layout

/-!
# The guards of the branches

`cov_exporter` walks the clocked blocks of a module. Every branch of a conditional gets a counter
and a guard, a text that is put together from the conditions on the way to the branch as they stand
in the source. A conditional that is not supported, and a branch with nothing in it, is kept as a
note.
-/

namespace Verilua.CovExporter

open SVBuilder (Text)

/-! ### Statements -/

structure Location where
  line : Nat
  file : Text
  deriving DecidableEq

/-- A node of the source: its text, with the blanks and comments in it, and where it starts. -/
structure Node where
  text : Text
  loc : Location

/-- A condition of a conditional. `unsupportedKind` is what `exprHasUnsupportedKind` says. -/
structure Condition where
  pattern : Bool
  unsupportedKind : Bool
  text : Option Text

inductive Statement
  | empty (node : Option Node)
  | list (node : Option Node) (stmts : List Statement)
  | block (node : Option Node) (sequential : Bool) (body : Statement)
  | conditional (node : Option Node) (conditions : List Condition) (ifTrue : Statement)
      (ifFalse : Option Statement)
  /-- `for`, `while`, `do`, `forever`, `repeat` and `foreach` -/
  | loop (node : Option Node) (body : Statement)
  | case (node : Option Node) (items : List Statement) (defaultCase : Option Statement)
  /-- `case` with patterns, and `randcase` -/
  | otherCase (node : Option Node) (items : List Statement) (defaultCase : Option Statement)
  | timed (node : Option Node) (stmt : Statement)
  | wait (node : Option Node) (stmt : Statement)
  /-- an immediate assertion, and `wait_order` -/
  | outcome (node : Option Node) (ifTrue ifFalse : Option Statement)
  | other (node : Option Node)

namespace Statement

def node : Statement → Option Node
  | empty n | list n _ | block n _ _ | conditional n _ _ _ | loop n _ | case n _ _ | otherCase n _ _
  | timed n _ | wait n _ | outcome n _ _ | other n => n

def isConditional : Statement → Bool
  | conditional .. => true
  | _ => false

def isEmptyBody : Statement → Bool
  | empty _ => true
  | block _ _ body => body.isEmptyBody
  | list _ stmts => stmts.isEmpty
  | _ => false

end Statement

/-! ### The collection -/

def noNode : Text := "<no_syntax>".toList

def rawText (node : Option Node) : Text := (node.map Node.text).getD noNode

/-- The text of the condition of a conditional, or the note that it is not supported. -/
def condText (node : Option Node) : List Condition → Except Text Text
  | [c] =>
    if c.pattern then
      .error ("unsupported conditional (multi-condition / pattern): ".toList ++ rawText node)
    else if c.unsupportedKind then
      .error ("unsupported expression in if-condition: ".toList ++ c.text.getD noNode)
    else .ok (c.text.getD [])
  | _ => .error ("unsupported conditional (multi-condition / pattern): ".toList ++ rawText node)

def buildGuard (guards : List Text) (cond : Text) : Text :=
  let out := guards.foldl (fun out p =>
    (if out = [] then out else out ++ " && ".toList) ++ '(' :: p ++ [')']) []
  let out := if out ≠ [] ∧ cond ≠ [] then out ++ " && ".toList else out
  if cond ≠ [] then out ++ '(' :: cond ++ [')'] else out

/-- `chainNegation` after a branch with the condition. -/
def negate (chainNegation cond : Text) : Text :=
  let thisNeg := "!(".toList ++ cond ++ [')']
  if chainNegation = [] then thisNeg else chainNegation ++ " && ".toList ++ thisNeg

/-- `locationOf` the branch, or of the conditional if the branch has no node. One of them has. -/
def locationOf (branch current : Option Node) : Location :=
  ((branch <|> current).map Node.loc).getD ⟨0, []⟩

/-- What the rewriting of a statement records: a branch with a counter, or a note. -/
inductive Record
  | path (guard : Text) (loc : Location)
  | unsupported (note : Text)
  deriving DecidableEq

def pushChain (guards : List Text) (chainNegation : Text) : List Text :=
  if chainNegation = [] then guards else guards ++ [chainNegation]

mutual

/-- `rewriteStatement`, with the conditions on the way to the statement, and `rewriteConditional` in
the chain of a conditional. The text that comes out of them is not looked at. -/
def Statement.rewrite (guards : List Text) (chainNegation : Text) : Statement → List Record
  | .conditional node conditions ifTrue ifFalse =>
    match condText node conditions with
    | .error note => [.unsupported note]
    | .ok cond =>
      let branchGuards := pushChain guards chainNegation
      ifTrue.rewrite (branchGuards ++ [cond]) [] ++
        (if ifTrue.isEmptyBody then
          [.unsupported ("empty if-body skipped: ".toList ++ rawText node)]
        else [.path (buildGuard branchGuards cond) (locationOf ifTrue.node node)]) ++
        rewriteElse node guards (negate chainNegation cond) ifFalse
  | .block node sequential body =>
    if sequential ∨ node.isNone then body.rewrite guards [] else []
  | .list _ stmts => rewriteList guards stmts
  | .loop _ body => body.rewrite guards []
  | .case node items defaultCase =>
    if node.isNone then [] else rewriteItems guards items ++ rewriteDefault guards defaultCase
  | .wait _ stmt => stmt.rewrite guards []
  | .empty _ | .otherCase .. | .timed .. | .outcome .. | .other _ => []

/-- The end of the chain, or its next conditional. -/
def rewriteElse (node : Option Node) (guards : List Text) (chainNegation : Text) :
    Option Statement → List Record
  | none => []
  | some elseStmt =>
    if elseStmt.isConditional then elseStmt.rewrite guards chainNegation
    else if elseStmt.isEmptyBody then
      [.unsupported ("empty else-body skipped: ".toList ++ rawText node)]
    else elseStmt.rewrite (pushChain guards chainNegation) [] ++
      [.path (buildGuard (pushChain guards chainNegation) []) (locationOf elseStmt.node node)]

def rewriteList (guards : List Text) : List Statement → List Record
  | [] => []
  | child :: stmts => child.rewrite guards [] ++ rewriteList guards stmts

/-- The items of a `case`: those without a node are left out. -/
def rewriteItems (guards : List Text) : List Statement → List Record
  | [] => []
  | item :: items =>
    (if item.node.isNone then [] else item.rewrite guards []) ++ rewriteItems guards items

def rewriteDefault (guards : List Text) : Option Statement → List Record
  | none => []
  | some item => if item.node.isNone then [] else item.rewrite guards []

end

mutual

/-- The conditionals that `collectCondPaths` finds, without those in other ones. -/
def Statement.topConditionals : Statement → List Statement
  | .conditional node conditions ifTrue ifFalse => [.conditional node conditions ifTrue ifFalse]
  | .block _ _ stmt | .loop _ stmt | .timed _ stmt | .wait _ stmt => stmt.topConditionals
  | .list _ stmts => topConditionalsList stmts
  | .case _ items defaultCase | .otherCase _ items defaultCase =>
    topConditionalsList items ++ topConditionalsOption defaultCase
  | .outcome _ ifTrue ifFalse => topConditionalsOption ifTrue ++ topConditionalsOption ifFalse
  | .empty _ | .other _ => []

def topConditionalsList : List Statement → List Statement
  | [] => []
  | stmt :: stmts => stmt.topConditionals ++ topConditionalsList stmts

def topConditionalsOption : Option Statement → List Statement
  | none => []
  | some stmt => stmt.topConditionals

end

def collectCondPaths (stmt : Statement) : List Record :=
  stmt.topConditionals.flatMap (Statement.rewrite [] [])

inductive ProceduralBlockKind
  | always
  | alwaysFF
  | other
  deriving DecidableEq

structure ProceduralBlock where
  procedureKind : ProceduralBlockKind
  body : Statement

structure Module where
  moduleName : Text
  procs : List ProceduralBlock

/-- The loop over the procedural blocks. -/
def ProceduralBlock.records (proc : ProceduralBlock) : List Record :=
  if proc.procedureKind = .other then []
  else match proc.body with
    | .timed _ stmt => collectCondPaths stmt
    | _ => []

structure CondPathInfo where
  id : Nat
  guard : Text
  locations : List Location
  deriving DecidableEq

/-- What is kept of a module for its guards. -/
structure CoverageInfo where
  moduleName : Text
  condPaths : List CondPathInfo
  unsupportedCondStmts : List Text

/-- The index of the guards is read off the paths. -/
def CoverageInfo.recordPath (info : CoverageInfo) (guard : Text) (loc : Location) : CoverageInfo :=
  if ∃ path ∈ info.condPaths, path.guard = guard then
    { info with condPaths := info.condPaths.map fun path =>
        if path.guard = guard then { path with locations := path.locations ++ [loc] } else path }
  else
    { info with condPaths := info.condPaths ++ [⟨info.condPaths.length, guard, [loc]⟩] }

def CoverageInfo.add (info : CoverageInfo) : Record → CoverageInfo
  | .path guard loc => info.recordPath guard loc
  | .unsupported note => { info with unsupportedCondStmts := info.unsupportedCondStmts ++ [note] }

/-- `handle`, as far as the guards are concerned. -/
def Module.coverageInfo (m : Module) : CoverageInfo :=
  (m.procs.flatMap ProceduralBlock.records).foldl CoverageInfo.add ⟨m.moduleName, [], []⟩

end Verilua.CovExporter
