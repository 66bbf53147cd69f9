import Mathlib.Data.Finset.Basic
import Mathlib.Logic.Function.Basic
import Verilua.Lib.TransitionSystem

/-!
# `turso_ffi`

The C interface of the database. A handle is the address of a boxed object; the registries hold the
addresses of the objects that are live. What the database library answers, and which address the
allocator gives a new object, are arguments of a call.
-/

namespace Verilua.TursoFfi

abbrev Addr := Nat

/-- The null pointer. -/
def null : Addr := 0

/-- What tells an object from those that had its address before. The code does not have it. -/
abbrev ObjId := Nat

structure Db where
  id : ObjId
  errmsg : String
  errmsgC : String
  colTextC : String

/-- A statement. `dbId` is the database that it was prepared on; the code has only its address. -/
structure Stmt where
  id : ObjId
  db : Addr
  dbId : ObjId

inductive Object
  | db (d : Db)
  | stmt (s : Stmt)

structure State where
  heap : Addr → Option Object
  liveDbs : Finset Addr
  liveStmts : Finset Addr
  lastGlobalErr : String
  nextId : ObjId

def State.init : State where
  heap := fun _ => none
  liveDbs := ∅
  liveStmts := ∅
  lastGlobalErr := ""
  nextId := 0

/-! ### What the library answers -/

/-- A C string: null, no text, or a text. -/
abbrev CStr := Except String String

/-- `TursoStatusCode`; the others are known by how they are printed. -/
inductive Status
  | done
  | row
  | other (shown : String)

/-- A value of a row, with its text. A number also has a value as an integer. -/
inductive Value
  | numeric (asInt : Int) (shown : String)
  | text (t : String)
  | null
  | other

inductive Returned
  | code (n : Nat)
  | int (n : Int)
  | str (s : String)
  deriving DecidableEq

def ffiOk : Returned := .code 0

def ffiErr : Returned := .code 1

def ffiRow : Returned := .code 100

def ffiDone : Returned := .code 101

/-- What a call returns, the state behind it, and the objects that it has gone to. -/
structure Outcome where
  ret : Returned
  state : State
  uses : List ObjId

/-- `CString::new(msg.replace('\0', ""))` -/
def cString (msg : String) : String := String.ofList (msg.toList.filter (· ≠ '\x00'))

namespace State

variable (s : State)

def setGlobalErr (msg : String) : State := { s with lastGlobalErr := msg }

/-- `clear_global_err` -/
def clearGlobalErr : State := s.setGlobalErr ""

def isLiveDb (p : Addr) : Bool := p ≠ null && p ∈ s.liveDbs

def isLiveStmt (p : Addr) : Bool := p ≠ null && p ∈ s.liveStmts

/-- The database at an address. -/
def dbAt (p : Addr) : Option Db :=
  match s.heap p with
  | some (.db d) => some d
  | _ => none

def stmtAt (p : Addr) : Option Stmt :=
  match s.heap p with
  | some (.stmt st) => some st
  | _ => none

def dbMut (p : Addr) : Option Db := if s.isLiveDb p then s.dbAt p else none

def stmtMut (p : Addr) : Option Stmt :=
  if s.isLiveStmt p then (s.stmtAt p).filter fun st => s.isLiveDb st.db else none

def store (p : Addr) (o : Option Object) : State := { s with heap := Function.update s.heap p o }

/-- `db.errmsg.clear()` -/
def clearErr (p : Addr) (d : Db) : State :=
  (s.store p (some (.db { d with errmsg := "", errmsgC := "" }))).clearGlobalErr

/-- `set_err_str` -/
def setErr (p : Addr) (d : Db) (msg : String) : State :=
  (s.store p (some (.db { d with errmsg := msg, errmsgC := cString msg }))).setGlobalErr msg

/-- `if is_live_db(p) { set_err(&mut *p, e) } else { set_global_err(e) }`, with what it goes to. -/
def setErrAt (p : Addr) (msg : String) : State × List ObjId :=
  match s.dbMut p with
  | some d => (s.setErr p d msg, [d.id])
  | none => (s.setGlobalErr msg, [])

/-- The same without the `else`. -/
def setLiveErrAt (p : Addr) (msg : String) : State × List ObjId :=
  match s.dbMut p with
  | some d => (s.setErr p d msg, [d.id])
  | none => (s, [])

/-- The call is refused, and only the global error is set. -/
def refuse (ret : Returned) (msg : String) : Outcome := ⟨ret, s.setGlobalErr msg, []⟩

/-! ### The functions on databases -/

/-- `turso_ffi_open`; the new object is at the address `a`. -/
def tursoFfiOpen (outNull : Bool) (path : CStr) (opened : Except String Unit) (a : Addr) :
    Outcome :=
  if outNull then s.refuse ffiErr "out_db is null"
  else
    match path with
    | .error e => s.refuse ffiErr e
    | .ok _ =>
      match opened with
      | .error e => s.refuse ffiErr e
      | .ok () =>
        ⟨ffiOk, { s.clearGlobalErr with
          heap := Function.update s.heap a (some (.db ⟨s.nextId, "", "", ""⟩))
          liveDbs := insert a s.liveDbs
          nextId := s.nextId + 1 }, []⟩

def tursoFfiClose (p : Addr) (closed : Except String Unit) : Outcome :=
  if p ∈ s.liveDbs then
    let uses := ((s.dbAt p).map Db.id).toList
    let freed := { s.store p none with liveDbs := s.liveDbs.erase p }
    match closed with
    | .ok () => ⟨ffiOk, freed.clearGlobalErr, uses⟩
    | .error e => ⟨ffiErr, freed.setGlobalErr e, uses⟩
  else s.refuse ffiErr "close: null or already closed db"

/-- `turso_ffi_exec`, where `exec_sql` gives `done`. -/
def tursoFfiExec (p : Addr) (sql : CStr) (done : Except String Unit) : Outcome :=
  match s.dbMut p with
  | none => s.refuse ffiErr "exec: null or closed db"
  | some d =>
    match sql with
    | .error e => ⟨ffiErr, s.setErr p d e, [d.id]⟩
    | .ok _ =>
      match done with
      | .ok () => ⟨ffiOk, s.clearErr p d, [d.id]⟩
      | .error e => ⟨ffiErr, s.setErr p d e, [d.id]⟩

/-- `turso_ffi_prepare`; the new object is at the address `a`. -/
def tursoFfiPrepare (outNull : Bool) (p : Addr) (sql : CStr) (prepared : Except String Unit)
    (a : Addr) : Outcome :=
  if outNull then s.refuse ffiErr "prepare: out_stmt is null"
  else
    match s.dbMut p with
    | none => s.refuse ffiErr "prepare: null or closed db"
    | some d =>
      match sql with
      | .error e => ⟨ffiErr, s.setErr p d e, [d.id]⟩
      | .ok _ =>
        match prepared with
        | .error e => ⟨ffiErr, s.setErr p d e, [d.id]⟩
        | .ok () =>
          ⟨ffiOk, { (s.clearErr p d).store a (some (.stmt ⟨s.nextId, p, d.id⟩)) with
            liveStmts := insert a s.liveStmts
            nextId := s.nextId + 1 }, [d.id]⟩

def tursoFfiErrmsg (p : Addr) : Outcome :=
  match s.dbMut p with
  | some d => ⟨.str d.errmsgC, s, [d.id]⟩
  | none => ⟨.str (cString s.lastGlobalErr), s, []⟩

/-! ### The functions on statements -/

/-- An error of a statement, as it is set by `setErrAt` or `setLiveErrAt`. -/
def fail (st : Stmt) (ret : Returned) (set : State × List ObjId) : Outcome :=
  ⟨ret, set.1, st.id :: set.2⟩

/-- What the library has answered for a statement, and the error of it. -/
def answer (st : Stmt) (ret : Returned) : Except String Unit → Outcome
  | .ok () => ⟨ret, s, [st.id]⟩
  | .error e => fail st ffiErr (s.setErrAt st.db e)

def tursoFfiBindInt (p : Addr) (idx : Int) (bound : Except String Unit) : Outcome :=
  if idx ≤ 0 then s.refuse ffiErr "bind_int: index must be >= 1"
  else
    match s.stmtMut p with
    | none => s.refuse ffiErr "bind_int: null/finalized stmt or closed db"
    | some st => s.answer st ffiOk bound

/-- `turso_ffi_bind_text`; without a `text` the pointer is null. -/
def tursoFfiBindText (p : Addr) (idx : Int) (text : Option CStr) (bound : Except String Unit) :
    Outcome :=
  match text with
  | none => s.refuse ffiErr "bind_text: bad args"
  | some text =>
    if idx ≤ 0 then s.refuse ffiErr "bind_text: bad args"
    else
      match s.stmtMut p with
      | none => s.refuse ffiErr "bind_text: null/finalized stmt or closed db"
      | some st => s.answer st ffiOk (text.bind fun _ => bound)

def tursoFfiStep (p : Addr) (stepped : Except String Status) : Outcome :=
  match s.stmtMut p with
  | none => s.refuse ffiErr "step: null/finalized stmt or closed db"
  | some st =>
    match stepped with
    | .ok .row => s.answer st ffiRow (.ok ())
    | .ok .done => s.answer st ffiDone (.ok ())
    | .ok (.other shown) => s.answer st ffiErr (.error ("step status: " ++ shown))
    | .error e => s.answer st ffiErr (.error e)

def tursoFfiReset (p : Addr) (done : Except String Unit) : Outcome :=
  match s.stmtMut p with
  | none => s.refuse ffiErr "reset: null/finalized stmt or closed db"
  | some st => s.answer st ffiOk done

/-- `turso_ffi_finalize`, which does not ask for the database before it frees the statement. -/
def tursoFfiFinalize (p : Addr) (finalized : Except String Status) : Outcome :=
  if p ∈ s.liveStmts then
    match s.stmtAt p with
    | none => ⟨ffiErr, s, []⟩
    | some st =>
      let freed := { s.store p none with liveStmts := s.liveStmts.erase p }
      match finalized with
      | .ok .done => ⟨ffiOk, freed.clearGlobalErr, [st.id]⟩
      | .ok .row => freed.answer st ffiErr (.error "finalize status: Row")
      | .ok (.other shown) => freed.answer st ffiErr (.error ("finalize status: " ++ shown))
      | .error e => freed.answer st ffiErr (.error e)
  else s.refuse ffiErr "finalize: null or already finalized stmt"

def tursoFfiColumnInt (p : Addr) (idx : Int) (value : Except String Value) : Outcome :=
  if idx < 0 then s.refuse (.int 0) "column_int: index must be >= 0"
  else
    match s.stmtMut p with
    | none => s.refuse (.int 0) "column_int: null/finalized stmt or closed db"
    | some st =>
      match value with
      | .ok (.numeric v _) => ⟨.int v, s, [st.id]⟩
      | .ok _ => fail st (.int 0) (s.setLiveErrAt st.db "column_int: value is not numeric")
      | .error e => fail st (.int 0) (s.setErrAt st.db e)

/-- The text of a column is kept in the database. -/
def columnText (st : Stmt) (t : String) : Outcome :=
  match s.dbMut st.db with
  | none => ⟨.str "", s.setGlobalErr "column_text: parent db closed", [st.id]⟩
  | some d =>
    ⟨.str (cString t), s.store st.db (some (.db { d with colTextC := cString t })), [st.id, d.id]⟩

def tursoFfiColumnText (p : Addr) (idx : Int) (value : Except String Value) : Outcome :=
  if idx < 0 then s.refuse (.str "") "column_text: index must be >= 0"
  else
    match s.stmtMut p with
    | none => s.refuse (.str "") "column_text: null/finalized stmt or closed db"
    | some st =>
      match value with
      | .ok (.text t) => s.columnText st t
      | .ok (.numeric _ shown) => s.columnText st shown
      | .ok .null => fail st (.str "") (s.setLiveErrAt st.db "column_text: NULL")
      | .ok .other => fail st (.str "") (s.setLiveErrAt st.db "column_text: unsupported type")
      | .error e => fail st (.str "") (s.setErrAt st.db e)

end State

/-! ### Calls -/

/-- What `open` or `prepare` has given out: the address, and which object it is that is there. -/
structure Handle where
  addr : Addr
  id : ObjId
  deriving DecidableEq

inductive Call
  | open (outNull : Bool) (path : CStr) (opened : Except String Unit) (a : Addr)
  | close (db : Handle) (closed : Except String Unit)
  | exec (db : Handle) (sql : CStr) (done : Except String Unit)
  | prepare (outNull : Bool) (db : Handle) (sql : CStr) (prepared : Except String Unit) (a : Addr)
  | errmsg (db : Handle)
  | bindInt (stmt : Handle) (idx : Int) (bound : Except String Unit)
  | bindText (stmt : Handle) (idx : Int) (text : Option CStr) (bound : Except String Unit)
  | step (stmt : Handle) (stepped : Except String Status)
  | reset (stmt : Handle) (done : Except String Unit)
  | finalize (stmt : Handle) (finalized : Except String Status)
  | columnInt (stmt : Handle) (idx : Int) (value : Except String Value)
  | columnText (stmt : Handle) (idx : Int) (value : Except String Value)

/-- The code is given the address of a handle and nothing else. -/
def State.perform (s : State) : Call → Outcome
  | .open outNull path opened a => s.tursoFfiOpen outNull path opened a
  | .close db closed => s.tursoFfiClose db.addr closed
  | .exec db sql done => s.tursoFfiExec db.addr sql done
  | .prepare outNull db sql prepared a => s.tursoFfiPrepare outNull db.addr sql prepared a
  | .errmsg db => s.tursoFfiErrmsg db.addr
  | .bindInt stmt idx bound => s.tursoFfiBindInt stmt.addr idx bound
  | .bindText stmt idx text bound => s.tursoFfiBindText stmt.addr idx text bound
  | .step stmt stepped => s.tursoFfiStep stmt.addr stepped
  | .reset stmt done => s.tursoFfiReset stmt.addr done
  | .finalize stmt finalized => s.tursoFfiFinalize stmt.addr finalized
  | .columnInt stmt idx value => s.tursoFfiColumnInt stmt.addr idx value
  | .columnText stmt idx value => s.tursoFfiColumnText stmt.addr idx value

/-- The address that the allocator gives a new object. -/
def Call.allocated : Call → Option Addr
  | .open _ _ _ a | .prepare _ _ _ _ a => some a
  | _ => none

/-- A step of a run. The allocator gives no address at which an object is. -/
def State.step (s : State) (c : Call) : Option State :=
  if c.allocated.all fun a => a ≠ null && (s.heap a).isNone then some (s.perform c).state else none

end Verilua.TursoFfi
