import Mathlib.Logic.Function.Basic
import Verilua.Lib.TransitionSystem

/-!
# The database of `LuaDataBaseV2`

`save` puts a row into a cache, and `commit` hands the cached rows to the database. There a row is
in a transaction, or with DuckDB in an appender, before it is in its table. The table that has
`table_cnt_max` rows is followed by the next table, and the file that is larger than `size_limit`
by the next file.
-/

namespace Verilua.LuaDataBase

inductive Backend
  | sqlite3
  | turso
  | duckdb
  deriving DecidableEq, Repr

/-- What `_init` is given, and what it asks the process and the library. -/
structure Params where
  backend : Backend
  tableName : String
  fileName : String
  saveCntMax : Option Int
  tableCntMax : Option Int
  sizeLimit : Option Int
  pid : Nat
  /-- The numbers of rows at which an appender of DuckDB hands them to its table by itself. -/
  appenderFull : Nat → Bool

/-- `%04d` -/
def padded (n : Nat) : String :=
  String.ofList (List.replicate (4 - (Nat.toDigits 10 n).length) '0' ++ Nat.toDigits 10 n)

namespace Params

/-- `table_name_template` with an index. -/
def tableNameAt (p : Params) (tableIdx : Nat) : String :=
  if p.tableCntMax.isSome then "_" ++ padded tableIdx ++ "_" ++ p.tableName else p.tableName

/-- The name in `path_name` of a file. -/
def fileNameAt (p : Params) (fileCount : Nat) : String :=
  if p.sizeLimit.isSome then fileCount.repr ++ "__" ++ p.fileName else p.fileName

end Params

/-- A row is of any type: it holds one value for each element of the schema, in their order. -/
structure Table (ρ : Type*) where
  name : String
  rows : List ρ

structure File (ρ : Type*) where
  name : String
  tables : List (Table ρ)

/-- The commands are represented by the table that they name. -/
structure State (ρ : Type*) where
  cache : Nat → Option ρ
  saveCnt : Nat
  tableCnt : Nat
  tableIdx : Nat
  fileCount : Nat
  tableName : String
  createTableCmd : String
  prepareCmd : String
  /-- The file that is open. -/
  fullpathName : String
  finished : Bool
  availableFiles : List String
  /-- The files, and in each file the tables, are in the order of their creation. -/
  files : List (File ρ)
  /-- The table of the prepared statement or of the appender. -/
  target : String
  /-- The rows that the transaction or the appender holds, with their tables. -/
  held : List (String × ρ)

variable {ρ : Type*}

def insertRow (tables : List (Table ρ)) (entry : String × ρ) : List (Table ρ) :=
  tables.map fun t => if t.name = entry.1 then { t with rows := t.rows ++ [entry.2] } else t

namespace State

def onOpenFile (s : State ρ) (f : List (Table ρ) → List (Table ρ)) : State ρ :=
  { s with
    files := s.files.map fun file =>
      if file.name = s.fullpathName then { file with tables := f file.tables } else file }

def hasTable (s : State ρ) (name : String) : Bool :=
  s.files.any fun file =>
    decide (file.name = s.fullpathName) && file.tables.any fun t => decide (t.name = name)

/-- The end of the transaction, or `duckdb_appd:flush()`. -/
def flush (s : State ρ) : State ρ :=
  { s.onOpenFile fun tables => s.held.foldl insertRow tables with held := [] }

/-- `exec(create_table_cmd)`; DuckDB replaces a table that exists. -/
def execCreateTable (p : Params) (s : State ρ) : Option (State ρ) :=
  if p.backend = .duckdb then
    some (s.onOpenFile fun tables =>
      tables.filter (fun t : Table ρ => decide (t.name ≠ s.createTableCmd)) ++ [⟨s.createTableCmd, []⟩])
  else if s.hasTable s.createTableCmd then none
  else some (s.onOpenFile fun tables => tables ++ [⟨s.createTableCmd, []⟩])

/-- `new_appender`; what the appender before it holds, nobody flushes any more. -/
def newAppender (s : State ρ) : Option (State ρ) :=
  if s.hasTable s.tableName then some { s with target := s.tableName, held := [] } else none

def createTable (p : Params) (s : State ρ) : Option (State ρ) := do
  let s ← s.execCreateTable p
  let s := if p.tableCntMax.isSome then { s with tableCnt := 0 } else s
  if p.backend = .duckdb then s.newAppender else some s

def createDb (p : Params) (s : State ρ) : Option (State ρ) :=
  let s := { s with
    files := s.files.filter (fun file : File ρ => decide (file.name ≠ s.fullpathName)) ++
      [File.mk s.fullpathName []]
    availableFiles := s.availableFiles ++ [s.fullpathName] }
  let s :=
    if p.tableCntMax.isSome then
      { s with
        tableIdx := 0
        tableCnt := 0
        createTableCmd := p.tableNameAt 0
        prepareCmd := p.tableNameAt 0 }
    else s
  s.createTable p

/-- `_init`; the cache is filled with one and the same entry. -/
def init (p : Params) (preAllocEntry : ρ) : Option (State ρ) :=
  createDb p {
    cache := fun i => if 1 ≤ i ∧ (i : Int) ≤ p.saveCntMax.getD 10000 then some preAllocEntry else none
    saveCnt := 1
    tableCnt := 0
    tableIdx := 0
    fileCount := 0
    tableName := p.tableNameAt 0
    createTableCmd := p.tableNameAt 0
    prepareCmd := p.tableNameAt 0
    fullpathName := p.fileNameAt 0
    finished := false
    availableFiles := []
    files := []
    target := ""
    held := [] }

/-- `prepare_v2(prepare_cmd)` -/
def prepare (s : State ρ) : Option (State ρ) :=
  if s.hasTable s.prepareCmd then some { s with target := s.prepareCmd } else none

/-- The row is bound and stepped, or appended. -/
def append (p : Params) (s : State ρ) (row : ρ) : State ρ :=
  let s := { s with held := s.held ++ [(s.target, row)] }
  if p.backend = .duckdb ∧ p.appenderFull s.held.length then s.flush else s

def nextTable (p : Params) (s : State ρ) : Option (State ρ) := do
  let s := s.flush
  let tableIdx := s.tableIdx
  let newTableName := p.tableNameAt (tableIdx + 1)
  let s := { s with createTableCmd := newTableName }
  let s :=
    if p.backend = .duckdb then { s with tableName := newTableName }
    else { s with prepareCmd := newTableName }
  let s ← s.createTable p
  let s := { s with tableIdx := tableIdx + 1, tableCnt := 0 }
  if p.backend = .duckdb then some s else s.prepare

/-- `table_cnt_check_code` -/
def tableCntCheck (p : Params) (s : State ρ) : Option (State ρ) :=
  match p.tableCntMax with
  | none => some s
  | some tableCntMax =>
    let s := { s with tableCnt := s.tableCnt + 1 }
    if (s.tableCnt : Int) ≥ tableCntMax then s.nextTable p else some s

/-- One turn of the loop in `commit`; an entry that is `nil` cannot be indexed. -/
def commitRow (p : Params) (s : State ρ) (cnt : Nat) : Option (State ρ) :=
  (s.cache cnt).bind fun row => (s.append p row).tableCntCheck p

/-- `for cnt = 1, this.save_cnt - 1` -/
def commitRows (p : Params) (s : State ρ) : Option (State ρ) :=
  (List.range' 1 (s.saveCnt - 1)).foldlM (commitRow p) s

/-- `size_limit_check_code`, where `size` is the size of the file. -/
def sizeLimitCheck (p : Params) (size : Nat) (s : State ρ) : Option (State ρ) :=
  match p.sizeLimit with
  | none => some s
  | some sizeLimit =>
    if s.finished then some s
    else if (size : Int) > sizeLimit then
      createDb p { s with
        fileCount := s.fileCount + 1
        fullpathName := p.fileNameAt (s.fileCount + 1) }
    else some s

/-- A transaction with all rows, or the appender, which is left to be flushed by `clean_up`. -/
def commitBatch (p : Params) (s : State ρ) : Option (State ρ) :=
  if p.backend = .duckdb then s.commitRows p
  else do
    let s ← s.prepare
    let s ← s.commitRows p
    some s.flush

def commit (p : Params) (getpid size : Nat) (s : State ρ) : Option (State ρ) :=
  if getpid ≠ p.pid then some { s with saveCnt := 1 }
  else do
    let s ← s.commitBatch p
    sizeLimitCheck p size { s with saveCnt := 1 }

def save (p : Params) (getpid size : Nat) (s : State ρ) (row : ρ) : Option (State ρ) :=
  let saveCnt := s.saveCnt
  let s := { s with
    cache := Function.update s.cache saveCnt (some row)
    saveCnt := saveCnt + 1 }
  if (saveCnt : Int) ≥ p.saveCntMax.getD 10000 then s.commit p getpid size else some s

def cleanUp (p : Params) (getpid size : Nat) (s : State ρ) : Option (State ρ) := do
  let s ← s.commit p getpid size
  some (if p.backend = .duckdb then s.flush else s)

end State

/-- A call, with the size of the open file at the end of its commit. -/
inductive Act (ρ : Type*)
  | save (row : ρ) (size : Nat)
  | commit (size : Nat)
  | cleanUp (size : Nat)
  /-- The function that is given to `final`. -/
  | final (size : Nat)

/-- A call in the process that has created the database. -/
def step (p : Params) (s : State ρ) : Act ρ → Option (State ρ)
  | .save row size => s.save p p.pid size row
  | .commit size => s.commit p p.pid size
  | .cleanUp size => s.cleanUp p p.pid size
  | .final size => State.cleanUp p p.pid size { s with finished := true }

/-- All calls, from `_init` on. -/
def session (p : Params) (preAllocEntry : ρ) (acts : List (Act ρ)) : Option (State ρ) :=
  (State.init p preAllocEntry).bind fun s => TransitionSystem.run (step p) s acts

/-- The rows that the calls save. -/
def savedRows (acts : List (Act ρ)) : List ρ :=
  acts.filterMap fun
    | .save row _ => some row
    | _ => none

/-- The rows in the tables of the files, in the order of creation. -/
def State.rows (s : State ρ) : List ρ :=
  s.files.flatMap fun file => file.tables.flatMap Table.rows

end Verilua.LuaDataBase
