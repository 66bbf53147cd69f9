import Verilua.Lib.Lexer

/-!
# Tokens of SystemVerilog

Names, numbers, string literals, operators and comments, each read as the longest one that begins at
its place. The base of a number, as `'h`, is a token of its own, and the digits after it are read as
such even if blanks stand between.
-/

namespace Verilua.SVBuilder

abbrev Text := List Char

local instance lawfulBEq_text : LawfulBEq (List Char) := inferInstance

/-- `%s` -/
def isSpace (c : Char) : Bool := c == ' ' || (9 ≤ c.toNat && c.toNat ≤ 13)

def isWordChar (c : Char) : Bool := c.isAlphanum || c == '_' || c == '$'

def isDecimalChar (c : Char) : Bool := c.isDigit || c == '_'

/-- The digits of any base, and X and Z. -/
def isValueChar (c : Char) : Bool :=
  isDecimalChar c || ['a', 'b', 'c', 'd', 'e', 'f', 'x', 'z', '?'].contains c.toLower

def isBaseChar (c : Char) : Bool := ['b', 'o', 'd', 'h'].contains c.toLower

/-- How long the beginning of the text is that has only such characters. -/
def span (p : Char → Bool) (l : Text) : Nat := (l.takeWhile p).length

/-- What follows the quote that opens a string literal. -/
def stringLen : Text → Nat
  | [] => 0
  | [_] => 1
  | c :: d :: cs =>
    if c = '\x22' then 1 else if c = '\x5c' then stringLen cs + 2 else stringLen (d :: cs) + 1

/-- What follows the two characters that open a block comment. -/
def blockLen : Text → Nat
  | [] => 0
  | [_] => 1
  | c :: d :: cs => if c = '*' ∧ d = '/' then 2 else blockLen (d :: cs) + 1

def fractionLen : Text → Nat
  | c :: d :: cs => if c = '.' ∧ d.isDigit then 1 + span isDecimalChar (d :: cs) else 0
  | _ => 0

def exponentLen : Text → Nat
  | c :: d :: cs =>
    if c.toLower = 'e' then
      if d.isDigit then 1 + span isDecimalChar (d :: cs)
      else if (d = '+' ∨ d = '-') ∧ cs.head?.any Char.isDigit then 2 + span isDecimalChar cs
      else 0
    else 0
  | _ => 0

/-- A unit of time, which follows a number at once. -/
def unitLen (l : Text) : Nat :=
  if ['s', 't', 'e', 'p'].isPrefixOf l then 4
  else if l.head? = some 's' then 1
  else if l.head?.any ['m', 'u', 'n', 'p', 'f'].contains ∧ l[1]? = some 's' then 2
  else 0

def numberLen (l : Text) : Nat :=
  let whole := span isDecimalChar l
  let fixed := whole + fractionLen (l.drop whole)
  let exponent := exponentLen (l.drop fixed)
  if exponent = 0 then fixed + unitLen (l.drop fixed) else fixed + exponent

/-- A number without a base, a base, or an apostrophe in front of a brace. -/
def apostropheLen (l : Text) : Nat :=
  if l.head?.any (fun c => c.toLower == 's') ∧ l[1]?.any isBaseChar then 3
  else if l.head?.any isBaseChar then 2
  else if l.head?.any ['0', '1', 'x', 'X', 'z', 'Z', '\x7b'].contains then 2
  else 1

/-- The operators of more than one character. -/
def operators : List Text :=
  [['<', '<', '<', '='], ['>', '>', '>', '='],
    ['|', '-', '>'], ['|', '=', '>'], ['-', '>', '>'], ['<', '-', '>'], ['#', '-', '#'],
    ['#', '=', '#'], ['=', '=', '='], ['!', '=', '='], ['=', '=', '?'], ['!', '=', '?'],
    ['<', '<', '='], ['>', '>', '='], ['<', '<', '<'], ['>', '>', '>'], ['&', '&', '&'],
    ['+', '/', '-'], ['+', '%', '-'], ['(', '*', ')'],
    ['-', '>'], ['=', '>'], ['*', '>'], [':', ':'], [':', '='], [':', '/'], ['#', '#'],
    ['@', '@'], ['(', '*'], ['*', ')'], ['.', '*'], ['+', '+'], ['-', '-'], ['*', '*'],
    ['+', '='], ['-', '='], ['*', '='], ['/', '='], ['%', '='], ['&', '='], ['|', '='],
    ['^', '='], ['=', '='], ['!', '='], ['<', '='], ['>', '='], ['<', '<'], ['>', '>'],
    ['&', '&'], ['|', '|'], ['~', '&'], ['~', '|'], ['~', '^'], ['^', '~'], ['+', ':'],
    ['-', ':']]

def operatorLen (l : Text) : Nat :=
  ((operators.filter fun operator => operator.isPrefixOf l).map List.length).foldl max 1

/-- The length of the lexeme; `afterBase` says that the base of a number was read last. -/
def munch (afterBase : Bool) : Text → Nat
  | [] => 0
  | c :: cs =>
    if afterBase && isValueChar c then span isValueChar (c :: cs)
    else if c = '\x22' then 1 + stringLen cs
    else if c = '\x5c' then span (fun d => !isSpace d) (c :: cs)
    else if c = '\x60' then 1 + span isWordChar cs
    else if c.isDigit then numberLen (c :: cs)
    else if isWordChar c then span isWordChar (c :: cs)
    else if c = '\x27' then apostropheLen cs
    else if c = '/' ∧ cs.head? = some '/' then span (· != '\n') (c :: cs)
    else if c = '/' ∧ cs.head? = some '*' then 2 + blockLen cs.tail
    else operatorLen (c :: cs)

def isComment (ℓ : Text) : Bool := ['/', '/'].isPrefixOf ℓ || ['/', '*'].isPrefixOf ℓ

/-- The base of a number is the one lexeme that begins with an apostrophe and ends so. -/
def isBase (ℓ : Text) : Bool := ℓ.head? == some '\x27' && ℓ.getLast?.any isBaseChar

def sv : Lexer Bool Char where
  blank := isSpace
  munch := munch
  next afterBase ℓ := if isComment ℓ then afterBase else isBase ℓ
  comment := isComment
  next_comment _ _ h := if_pos h

def tokens (text : Text) : List Text := sv.tokens false text

/-!
### The builder of assertions

`SVBuilder` and the template engine that it gives its texts to. An expression is rewritten, its
`$(..)` are evaluated and printed, the statement around it is linted, and what is stored of it is
put on one line. Lua expressions other than a name, lines of Lua and an engine that the environment
sets up are left to `Extern`, as is `sv_lint`.
-/

/-! ### The template engine -/

/-- What a name is bound to: something that `tostring` prints, a handle of the design, a sequence or
a property, or the sentinel whose printing raises. -/
inductive Value
  | plain (printed : Text)
  | hdl (fullpath : Text)
  | sequence (name : Text)
  | property (name : Text)
  | renderError

/-- `__tostring` -/
def Value.print : Value → Option Text
  | .plain printed => some printed
  | .hdl fullpath => some fullpath
  | .sequence name | .property name => some name
  | .renderError => none

abbrev Envs := List (Text × Value)

/-- How far a reference has been read: nothing of it, its dollar, or also its bracket and all of the
namespace but `rest`. -/
inductive Scan
  | outside
  | dollar
  | opened (rest : Text)
  deriving DecidableEq

def Scan.start (c : Char) : Scan := if c = '$' then .dollar else .outside

def Scan.next (ns : Text) : Scan → Char → Scan
  | .outside, c => .start c
  | .dollar, c => if c = '(' then .opened ns else .start c
  | .opened [], c => .start c
  | .opened (n :: rest), c =>
    if c = n then .opened rest
    else if isSpace c ∧ n :: rest = ns then .opened ns
    else .start c

/-- `gsub("(%$%(%s*)ns:", "%1ns.")` -/
def rewriteNs (ns : Text) : Scan → Text → Text
  | _, [] => []
  | scan, c :: cs =>
    (if scan = .opened [] ∧ c = ':' then '.' else c) :: rewriteNs ns (scan.next ns c) cs

def seqNs : Text := ['s', 'e', 'q']

def propNs : Text := ['p', 'r', 'o', 'p']

def rewriteNsRefs (expr : Text) : Text :=
  rewriteNs propNs .outside (rewriteNs seqNs .outside expr)

/-- What `%b()` matches behind its first bracket, and the text after it. -/
def balanced : Nat → Text → Option (Text × Text)
  | _, [] => none
  | depth, c :: cs =>
    if c = ')' ∧ depth = 0 then some ([], cs)
    else
      let depth := if c = ')' then depth - 1 else if c = '(' then depth + 1 else depth
      (balanced depth cs).map fun (code, rest) => (c :: code, rest)

/-- The chunk of `parseDollarParen`, run. Every step shortens the text. -/
def expandFrom (print : Text → Option Text) : Nat → Text → Option Text
  | 0, _ | _ + 1, [] => some []
  | n + 1, c :: cs =>
    match if c = '$' ∧ cs.head? = some '(' then balanced 0 cs.tail else none with
    | some (code, rest) => do
      let text ← print code
      let more ← expandFrom print n rest
      return text ++ more
    | none => (expandFrom print n cs).map (c :: ·)

def expand (print : Text → Option Text) (chunk : Text) : Option Text :=
  expandFrom print chunk.length chunk

/-- A line begins with `#`. -/
def hasHashLine : Bool → Text → Bool
  | _, [] => false
  | start, c :: cs => start && c == '#' || hasHashLine (c == '\n') cs

/-- The fields of the environment that set the engine up. -/
def engineFields : List Text :=
  ["_chunk_name".toList, "_escape".toList, "_inline_escape".toList, "_brackets".toList,
    "_debug".toList, "_parent".toList]

def setsEngine (envs : Envs) : Bool := engineFields.any fun field => (envs.lookup field).isSome

/-- No names for Lua. -/
def luaKeywords : List Text :=
  ["and".toList, "break".toList, "do".toList, "else".toList, "elseif".toList, "end".toList,
    "false".toList, "for".toList, "function".toList, "goto".toList, "if".toList, "in".toList,
    "local".toList, "nil".toList, "not".toList, "or".toList, "repeat".toList, "return".toList,
    "then".toList, "true".toList, "until".toList, "while".toList]

/-- The names that the code of the template does not look up in the environment. -/
def templateLocals : List Text := ["__R_size".toList, "__R_table".toList, "__tostring".toList]

def isLuaName (name : Text) : Bool :=
  name.head?.any (fun c => c.isAlpha || c == '_') &&
    name.all (fun c => c.isAlphanum || c == '_') && !luaKeywords.contains name

/-- An expression that looks one name up. -/
inductive Ref
  | var (name : Text)
  | seq (name : Text)
  | prop (name : Text)

def trim (text : Text) : Text :=
  ((text.dropWhile isSpace).reverse.dropWhile isSpace).reverse

def refOf (code : Text) : Option Ref :=
  let code := trim code
  if isLuaName code then
    if templateLocals.contains code || code == seqNs || code == propNs then none
    else some (.var code)
  else if (seqNs ++ ['.']).isPrefixOf code ∧ isLuaName (code.drop 4) then some (.seq (code.drop 4))
  else if (propNs ++ ['.']).isPrefixOf code ∧ isLuaName (code.drop 5) then
    some (.prop (code.drop 5))
  else none

/-! ### The builder -/

/-- `cov_type`, the keyword of a declaration -/
inductive CovType
  | property
  | sequence

def CovType.text : CovType → Text
  | .property => ['p', 'r', 'o', 'p', 'e', 'r', 't', 'y']
  | .sequence => ['s', 'e', 'q', 'u', 'e', 'n', 'c', 'e']

/-- The arguments of `add`; `cov_type` and `sample_event` are only read for their kind. -/
inductive Typ
  | cover (covType : Option CovType)
  | assert
  | property
  | sequence
  | covergroup (sampleEvent : Option Text)
  | raw

structure Params where
  name : Text
  expr : Text
  envs : Envs

structure Builder where
  defaultClockingExpr : Text
  defaultClockingEvent : Text
  uniqueStmtNameMap : List Text
  globalEnvs : Envs
  seqEnvs : List Text
  propEnvs : List Text
  preambleVec : List Text
  sequenceVec : List Text
  propertyVec : List Text
  contentVec : List Text
  covergroupVec : List Text
  covergroupNames : List (Text × Text)
  lintEnabled : Bool
  coverageReportEnabled : Bool

/-- The class itself, and what `clean` leaves. -/
def Builder.empty (lintEnabled coverageReportEnabled : Bool) : Builder :=
  ⟨[], [], [], [], [], [], [], [], [], [], [], [], lintEnabled, coverageReportEnabled⟩

/-- What is not modelled: the printed value of a Lua expression, the expansion of a text with lines
of Lua, both rewriting and expansion where the environment sets the engine up, and the diagnosis of
`sv_lint`, if any. -/
structure Extern where
  print : Builder → Envs → Text → Option Text
  rewrite : Envs → Text → Text
  expand : Builder → Envs → Text → Option Text
  svLint : Text → Option Text

namespace Builder

variable (b : Builder)

/-- What a name is bound to in `final_envs`. -/
def lookup (envs : Envs) (name : Text) : Option Value :=
  match envs.lookup name with
  | some value => some value
  | none => if name ∈ b.seqEnvs ∨ name ∈ b.propEnvs then some .renderError else none

/-- The printed value of a reference. -/
def printRef (envs : Envs) : Ref → Option Text
  | .var name => (b.lookup envs name).bind Value.print
  | .seq name => if name ∈ b.seqEnvs then some name else none
  | .prop name => if name ∈ b.propEnvs then some name else none

def printCode (ext : Extern) (envs : Envs) (code : Text) : Option Text :=
  match refOf code with
  | some ref => b.printRef envs ref
  | none => ext.print b envs code

/-- `template.substitute` -/
def substitute (ext : Extern) (envs : Envs) (str : Text) : Option Text :=
  if setsEngine envs || hasHashLine true str then ext.expand b envs str
  else expand (b.printCode ext envs) str

/-- No reserved key, and no sequence or property of another context. -/
def envsOk (envs : Envs) : Bool :=
  (envs.lookup seqNs).isNone && (envs.lookup propNs).isNone &&
    envs.all fun entry =>
      match envs.lookup entry.1 with
      | some (.sequence name) | some (.property name) => b.uniqueStmtNameMap.contains name
      | _ => true

/-- `run_sv_lint`: the diagnosis of the module that has the new statement. -/
def runSvLint (ext : Extern) (newStatement : Text) (asPreamble : Bool) : Option Text :=
  let parts := ["module __sva_lint;".toList] ++ b.preambleVec ++
    (if asPreamble then [newStatement] else []) ++
    (if b.defaultClockingExpr ≠ [] then [b.defaultClockingExpr] else []) ++
    b.sequenceVec ++ b.propertyVec ++
    (if asPreamble then [] else [newStatement]) ++ ["endmodule".toList]
  ext.svLint (['\n'].intercalate parts)

/-- The statement is not linted, or without a diagnosis. -/
def lints (ext : Extern) (newStatement : Text) (asPreamble : Bool) : Bool :=
  !b.lintEnabled || (b.runSvLint ext newStatement asPreamble).isNone

end Builder

/-- `gsub("%s+", " ")`, in a run of blanks or outside one. -/
def squeeze : Bool → Text → Text
  | _, [] => []
  | inRun, c :: cs =>
    if isSpace c then (if inRun then squeeze true cs else ' ' :: squeeze true cs)
    else c :: squeeze false cs

def processContent (content : Text) : Text := squeeze false (content.filter (· ≠ '\n'))

/-- `"%s %s(); %s; end%s"` -/
def declaration (covType : CovType) (name ret : Text) : Text :=
  covType.text ++ ' ' :: name ++ ['(', ')', ';', ' '] ++ ret ++ [';', ' ', 'e', 'n', 'd'] ++
    covType.text

/-- `_GEN_%s_%s`, with the keyword in capital letters. -/
def genName (name : Text) (covType : CovType) : Text :=
  ['_', 'G', 'E', 'N', '_'] ++ name ++ '_' :: covType.text.map Char.toUpper

/-- `sample_event_trimmed` is a clause and no event. -/
def isWithClause (event : Text) : Bool :=
  "with".toList.isPrefixOf event && (event.drop 4).head?.all isSpace

def Builder.add (ext : Extern) (b : Builder) (typ : Typ) (p : Params) : Option Builder := do
  let finalEnvs := p.envs ++ b.globalEnvs
  guard (b.envsOk finalEnvs)
  guard (p.name ∉ b.uniqueStmtNameMap)
  let expr := if setsEngine finalEnvs then ext.rewrite finalEnvs p.expr else rewriteNsRefs p.expr
  let ret ← b.substitute ext finalEnvs expr
  match typ with
  | .cover covType =>
    let covType := covType.getD .property
    let preContentName := genName p.name covType
    let preContentRaw := declaration covType preContentName ret
    guard (b.lints ext preContentRaw false)
    let content := processContent preContentRaw ++ '\n' :: p.name ++ ": cover ".toList ++
      covType.text ++ " (".toList ++ preContentName ++ ");".toList
    return { b with
      contentVec := b.contentVec ++ [content]
      uniqueStmtNameMap := preContentName :: p.name :: b.uniqueStmtNameMap }
  | .assert =>
    let preContentName := genName p.name .property
    let preContentRaw := declaration .property preContentName ret
    guard (b.lints ext preContentRaw false)
    let content := processContent preContentRaw ++ '\n' :: p.name ++
      ": assert property (".toList ++ preContentName ++ ");".toList
    return { b with
      contentVec := b.contentVec ++ [content]
      uniqueStmtNameMap := preContentName :: p.name :: b.uniqueStmtNameMap }
  | .property =>
    let contentRaw := declaration .property p.name ret
    guard (b.lints ext contentRaw false)
    return { b with
      propertyVec := b.propertyVec ++ [processContent contentRaw]
      uniqueStmtNameMap := p.name :: b.uniqueStmtNameMap
      propEnvs := p.name :: b.propEnvs }
  | .sequence =>
    let contentRaw := declaration .sequence p.name ret
    guard (b.lints ext contentRaw false)
    return { b with
      sequenceVec := b.sequenceVec ++ [processContent contentRaw]
      uniqueStmtNameMap := p.name :: b.uniqueStmtNameMap
      seqEnvs := p.name :: b.seqEnvs }
  | .raw =>
    guard (b.lints ext ret true)
    return { b with
      preambleVec := b.preambleVec ++ [ret]
      uniqueStmtNameMap := p.name :: b.uniqueStmtNameMap }
  | .covergroup sampleEvent =>
    let sampleEventRaw := sampleEvent.getD b.defaultClockingEvent
    guard (sampleEventRaw ≠ [])
    let sampleEventTrimmed := trim (← b.substitute ext finalEnvs sampleEventRaw)
    let cgHeader := "covergroup ".toList ++ p.name ++
      if isWithClause sampleEventTrimmed then ' ' :: sampleEventTrimmed ++ [';']
      else " @(".toList ++ sampleEventTrimmed ++ ");".toList
    let instName := "_GEN_".toList ++ p.name ++ "_inst".toList
    let content := cgHeader ++ '\n' :: ret ++ "\nendgroup\n".toList ++ p.name ++ ' ' :: instName ++
      " = new;".toList
    guard (b.lints ext content false)
    return { b with
      covergroupVec := b.covergroupVec ++ [content]
      uniqueStmtNameMap := instName :: p.name :: b.uniqueStmtNameMap
      covergroupNames := b.covergroupNames ++ [(p.name, instName)] }

/-- `"// %d/%d\n%s"` for every content. -/
def numbered (contents : List Text) : List Text :=
  contents.zipIdx.map fun (content, i) =>
    "// ".toList ++ (toString (i + 1)).toList ++ '/' :: (toString contents.length).toList ++
      '\n' :: content

/-- The `final` block that reports the coverage. -/
def finalBlock (names : List (Text × Text)) : Text :=
  ['\n'].intercalate (["final begin".toList] ++
    names.map (fun (name, instName) =>
      "    $display(\"[COVERAGE] ".toList ++ name ++ ": %.2f%%\", ".toList ++ instName ++
        ".get_inst_coverage());".toList) ++ ["end".toList])

def Builder.parts (b : Builder) : List Text :=
  b.preambleVec ++ (if b.defaultClockingExpr ≠ [] then [b.defaultClockingExpr] else []) ++
    b.sequenceVec ++ b.propertyVec ++ numbered b.contentVec ++ b.covergroupVec ++
    if b.coverageReportEnabled ∧ b.covergroupNames ≠ [] then [finalBlock b.covergroupNames] else []

def Builder.generate (b : Builder) : Text :=
  if b.parts = [] then [] else ['\n', '\n'].intercalate b.parts ++ ['\n', '\n']

end Verilua.SVBuilder
