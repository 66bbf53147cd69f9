import Verilua.Turso.Basic

/-!
# Handles of objects that are gone

A call goes by the address of its handle. It is refused exactly when nothing that the registries
take for the object is at that address now, be what is there the object of the handle or not.
-/

namespace Verilua.TursoFfi

open TransitionSystem

/-! ### What a call does to the objects -/

/-- An object up to the texts of a database. -/
def Object.tag : Object → ObjId ⊕ Stmt
  | .db d => .inl d.id
  | .stmt st => .inr st

/-- An argument that is looked at before the handle is wrong. -/
def Call.BadArgs : Call → Prop
  | .prepare outNull _ _ _ _ => outNull = true
  | .bindInt _ idx _ => idx ≤ 0
  | .bindText _ idx text _ => text = none ∨ idx ≤ 0
  | .columnInt _ idx _ | .columnText _ idx _ => idx < 0
  | _ => False

/-- The address that is given back, if an object is there. -/
def Call.freed : Call → Option Addr
  | .close db _ => some db.addr
  | .finalize stmt _ => some stmt.addr
  | _ => none

namespace State

variable {s s' : State} {p a : Addr} {d : Db} {st : Stmt}

def tags (s : State) (a : Addr) : Option (ObjId ⊕ Stmt) := (s.heap a).map Object.tag

/-- Nothing but texts has changed. -/
structure Touched (s s' : State) : Prop where
  tags : s'.tags = s.tags
  liveDbs : s'.liveDbs = s.liveDbs
  liveStmts : s'.liveStmts = s.liveStmts
  nextId : s'.nextId = s.nextId

theorem Touched.rfl : Touched s s := ⟨Eq.refl _, Eq.refl _, Eq.refl _, Eq.refl _⟩

theorem Touched.setGlobalErr {msg : String} : Touched s (s.setGlobalErr msg) :=
  ⟨Eq.refl _, Eq.refl _, Eq.refl _, Eq.refl _⟩

theorem dbAt_eq_some : s.dbAt p = some d ↔ s.heap p = some (.db d) := by
  unfold dbAt
  split <;> simp_all

theorem stmtAt_eq_some : s.stmtAt p = some st ↔ s.heap p = some (.stmt st) := by
  unfold stmtAt
  split <;> simp_all

theorem dbMut_eq_some : s.dbMut p = some d ↔ s.isLiveDb p ∧ s.heap p = some (.db d) := by
  simp [dbMut, dbAt_eq_some]

theorem stmtMut_eq_some :
    s.stmtMut p = some st ↔ s.isLiveStmt p ∧ s.heap p = some (.stmt st) ∧ s.isLiveDb st.db := by
  simp [stmtMut, Option.filter_eq_some_iff, stmtAt_eq_some]

theorem Touched.store {d' : Db} (h : s.heap p = some (.db d)) (hid : d'.id = d.id) :
    Touched s (s.store p (some (.db d'))) where
  tags := by
    funext a
    by_cases ha : a = p
    · simp [State.tags, State.store, ha, h, Object.tag, hid]
    · simp [State.tags, State.store, ha]
  liveDbs := Eq.refl _
  liveStmts := Eq.refl _
  nextId := Eq.refl _

theorem Touched.trans {s'' : State} (h : Touched s s') (h' : Touched s' s'') : Touched s s'' :=
  ⟨h'.tags.trans h.tags, h'.liveDbs.trans h.liveDbs, h'.liveStmts.trans h.liveStmts,
    h'.nextId.trans h.nextId⟩

theorem touched_clearErr (h : s.dbMut p = some d) : Touched s (s.clearErr p d) := by
  have hstore : Touched s (s.store p (some (.db { d with errmsg := "", errmsgC := "" }))) :=
    .store (dbMut_eq_some.mp h).2 rfl
  exact hstore.trans .setGlobalErr

theorem touched_setErr {msg : String} (h : s.dbMut p = some d) :
    Touched s (s.setErr p d msg) := by
  have hstore : Touched s
      (s.store p (some (.db { d with errmsg := msg, errmsgC := cString msg }))) :=
    .store (dbMut_eq_some.mp h).2 rfl
  exact hstore.trans .setGlobalErr

theorem touched_setErrAt {msg : String} : Touched s (s.setErrAt p msg).1 := by
  unfold setErrAt
  split
  · exact touched_setErr ‹_›
  · exact .setGlobalErr

theorem touched_setLiveErrAt {msg : String} : Touched s (s.setLiveErrAt p msg).1 := by
  unfold setLiveErrAt
  split
  · exact touched_setErr ‹_›
  · exact .rfl

theorem touched_answer {ret : Returned} {r : Except String Unit} :
    Touched s (s.answer st ret r).state := by
  unfold answer
  split
  · exact .rfl
  · exact touched_setErrAt

theorem touched_columnText {t : String} : Touched s (s.columnText st t).state := by
  unfold columnText
  split
  · exact .setGlobalErr
  · next d h => exact Touched.store (dbMut_eq_some.mp h).2 rfl

/-- The states in which an object has been made or freed, before the texts are set. -/
def allocDb (s : State) (a : Addr) : State :=
  { s with
    heap := Function.update s.heap a (some (.db ⟨s.nextId, "", "", ""⟩))
    liveDbs := insert a s.liveDbs
    nextId := s.nextId + 1 }

def allocStmt (s : State) (a p : Addr) (dbId : ObjId) : State :=
  { s.store a (some (.stmt ⟨s.nextId, p, dbId⟩)) with
    liveStmts := insert a s.liveStmts
    nextId := s.nextId + 1 }

def freeDb (s : State) (p : Addr) : State :=
  { s.store p none with liveDbs := s.liveDbs.erase p }

def freeStmt (s : State) (p : Addr) : State :=
  { s.store p none with liveStmts := s.liveStmts.erase p }

theorem Touched.allocStmt {dbId : ObjId} (h : Touched s s') :
    Touched (s.allocStmt a p dbId) (s'.allocStmt a p dbId) where
  tags := by
    funext b
    have hb := congrFun h.tags b
    by_cases ha : b = a
    · simp [State.tags, State.allocStmt, State.store, ha, h.nextId]
    · simpa [State.tags, State.allocStmt, State.store, ha] using hb
  liveDbs := h.liveDbs
  liveStmts := congrArg (insert a) h.liveStmts
  nextId := congrArg (· + 1) h.nextId

/-- All that a call can do to the objects and to the registries. -/
inductive Effect (s : State) : Call → State → Prop
  | touch {c s'} (h : Touched s s') : Effect s c s'
  | allocDb {outNull path opened a s'} (h : Touched (s.allocDb a) s') :
    Effect s (.open outNull path opened a) s'
  | allocStmt {outNull db sql prepared a d s'} (hd : s.dbMut db.addr = some d)
    (h : Touched (s.allocStmt a db.addr d.id) s') :
    Effect s (.prepare outNull db sql prepared a) s'
  | freeDb {db closed s'} (hp : db.addr ∈ s.liveDbs) (h : Touched (s.freeDb db.addr) s') :
    Effect s (.close db closed) s'
  | freeStmt {stmt finalized s'} (hp : stmt.addr ∈ s.liveStmts)
    (h : Touched (s.freeStmt stmt.addr) s') : Effect s (.finalize stmt finalized) s'

theorem perform_effect {c : Call} : Effect s c (s.perform c).state := by
  cases c with
  | «open» outNull path opened a =>
    simp only [perform, tursoFfiOpen]
    split
    · exact .touch .setGlobalErr
    split
    · exact .touch .setGlobalErr
    split
    · exact .touch .setGlobalErr
    · exact .allocDb ⟨rfl, rfl, rfl, rfl⟩
  | close db closed =>
    simp only [perform, tursoFfiClose]
    split
    · next hp => cases closed <;> exact .freeDb hp .setGlobalErr
    · exact .touch .setGlobalErr
  | exec db sql done =>
    simp only [perform, tursoFfiExec]
    split
    · exact .touch .setGlobalErr
    next hd =>
    split
    · exact .touch (touched_setErr hd)
    split
    · exact .touch (touched_clearErr hd)
    · exact .touch (touched_setErr hd)
  | prepare outNull db sql prepared a =>
    simp only [perform, tursoFfiPrepare]
    split
    · exact .touch .setGlobalErr
    split
    · exact .touch .setGlobalErr
    next hd =>
    split
    · exact .touch (touched_setErr hd)
    split
    · exact .touch (touched_setErr hd)
    · exact .allocStmt hd (touched_clearErr hd).allocStmt
  | errmsg db =>
    simp only [perform, tursoFfiErrmsg]
    split <;> exact .touch .rfl
  | bindInt stmt idx bound =>
    simp only [perform, tursoFfiBindInt]
    split
    · exact .touch .setGlobalErr
    split
    · exact .touch .setGlobalErr
    · exact .touch touched_answer
  | bindText stmt idx text bound =>
    simp only [perform, tursoFfiBindText]
    split
    · exact .touch .setGlobalErr
    split
    · exact .touch .setGlobalErr
    split
    · exact .touch .setGlobalErr
    · exact .touch touched_answer
  | step stmt stepped =>
    simp only [perform, tursoFfiStep]
    split
    · exact .touch .setGlobalErr
    split <;> exact .touch touched_answer
  | reset stmt done =>
    simp only [perform, tursoFfiReset]
    split
    · exact .touch .setGlobalErr
    · exact .touch touched_answer
  | finalize stmt finalized =>
    simp only [perform, tursoFfiFinalize]
    split
    · next hp =>
      split
      · exact .touch .rfl
      split
      · exact .freeStmt hp .setGlobalErr
      all_goals exact .freeStmt hp touched_answer
    · exact .touch .setGlobalErr
  | columnInt stmt idx value =>
    simp only [perform, tursoFfiColumnInt]
    split
    · exact .touch .setGlobalErr
    split
    · exact .touch .setGlobalErr
    split
    · exact .touch .rfl
    · exact .touch touched_setLiveErrAt
    · exact .touch touched_setErrAt
  | columnText stmt idx value =>
    simp only [perform, tursoFfiColumnText]
    split
    · exact .touch .setGlobalErr
    split
    · exact .touch .setGlobalErr
    split
    · exact .touch touched_columnText
    · exact .touch touched_columnText
    · exact .touch touched_setLiveErrAt
    · exact .touch touched_setLiveErrAt
    · exact .touch touched_setErrAt

/-! ### The registries -/

/-- The registries hold the addresses of the objects, and ids are not given out twice. -/
structure Registered (s : State) : Prop where
  null : s.tags null = none
  dbs : ∀ a, a ∈ s.liveDbs ↔ ∃ i, s.tags a = some (.inl i)
  stmts : ∀ a, a ∈ s.liveStmts ↔ ∃ st, s.tags a = some (.inr st)
  dbId : ∀ a i, s.tags a = some (.inl i) → i < s.nextId
  stmtId : ∀ a st, s.tags a = some (.inr st) → st.id < s.nextId ∧ st.dbId < s.nextId

theorem registered_init : Registered init := by
  constructor <;> simp [init, tags]

theorem Touched.registered (h : Touched s s') (hs : Registered s) : Registered s' := by
  obtain ⟨htags, hdbs, hstmts, hnext⟩ := h
  constructor
  · rw [htags]; exact hs.null
  · rw [htags, hdbs]; exact hs.dbs
  · rw [htags, hstmts]; exact hs.stmts
  · rw [htags, hnext]; exact hs.dbId
  · rw [htags, hnext]; exact hs.stmtId

theorem tags_allocDb : (s.allocDb a).tags = Function.update s.tags a (some (.inl s.nextId)) := by
  funext b
  by_cases hb : b = a <;> simp [tags, allocDb, hb, Object.tag]

theorem tags_allocStmt {dbId : ObjId} : (s.allocStmt a p dbId).tags =
    Function.update s.tags a (some (.inr ⟨s.nextId, p, dbId⟩)) := by
  funext b
  by_cases hb : b = a <;> simp [tags, allocStmt, store, hb, Object.tag]

theorem tags_freeDb : (s.freeDb p).tags = Function.update s.tags p none := by
  funext b
  by_cases hb : b = p <;> simp [tags, freeDb, store, hb]

theorem tags_freeStmt : (s.freeStmt p).tags = Function.update s.tags p none := by
  funext b
  by_cases hb : b = p <;> simp [tags, freeStmt, store, hb]

theorem Registered.update {t : Option (ObjId ⊕ Stmt)} (hs : Registered s)
    (htags : s'.tags = Function.update s.tags a t) (hnull : a = TursoFfi.null → t = none)
    (hdbs : ∀ b, b ∈ s'.liveDbs ↔ if b = a then ∃ i, t = some (.inl i) else b ∈ s.liveDbs)
    (hstmts : ∀ b, b ∈ s'.liveStmts ↔ if b = a then ∃ st, t = some (.inr st) else b ∈ s.liveStmts)
    (hnext : s.nextId ≤ s'.nextId) (hdbId : ∀ i, t = some (.inl i) → i < s'.nextId)
    (hstmtId : ∀ st, t = some (.inr st) → st.id < s'.nextId ∧ st.dbId < s'.nextId) :
    Registered s' where
  null := by
    by_cases hb : TursoFfi.null = a
    · rw [htags, hb, Function.update_self, hnull hb.symm]
    · rw [htags, Function.update_of_ne hb, hs.null]
  dbs b := by
    by_cases hb : b = a
    · rw [hdbs, if_pos hb, htags, hb, Function.update_self]
    · rw [hdbs, if_neg hb, htags, Function.update_of_ne hb, hs.dbs]
  stmts b := by
    by_cases hb : b = a
    · rw [hstmts, if_pos hb, htags, hb, Function.update_self]
    · rw [hstmts, if_neg hb, htags, Function.update_of_ne hb, hs.stmts]
  dbId b i h := by
    by_cases hb : b = a
    · rw [htags, hb, Function.update_self] at h
      exact hdbId i h
    · rw [htags, Function.update_of_ne hb] at h
      exact (hs.dbId b i h).trans_le hnext
  stmtId b st h := by
    by_cases hb : b = a
    · rw [htags, hb, Function.update_self] at h
      exact hstmtId st h
    · rw [htags, Function.update_of_ne hb] at h
      exact (hs.stmtId b st h).imp (·.trans_le hnext) (·.trans_le hnext)

theorem Registered.allocDb (hs : Registered s) (ha : a ≠ TursoFfi.null) (hfree : s.tags a = none) :
    Registered (s.allocDb a) := by
  have hstmt : a ∉ s.liveStmts := by simp [hs.stmts, hfree]
  refine hs.update tags_allocDb (fun h => absurd h ha) ?_ ?_ (Nat.le_succ _) ?_ ?_
  · intro b
    by_cases hb : b = a <;> simp [State.allocDb, hb]
  · intro b
    by_cases hb : b = a <;> simp [State.allocDb, hb, hstmt]
  · rintro i ⟨⟩
    exact Nat.lt_succ_self _
  · rintro st ⟨⟩

theorem Registered.allocStmt {dbId : ObjId} (hs : Registered s) (ha : a ≠ TursoFfi.null)
    (hfree : s.tags a = none) (hdbId : dbId < s.nextId) : Registered (s.allocStmt a p dbId) := by
  have hdb : a ∉ s.liveDbs := by simp [hs.dbs, hfree]
  refine hs.update tags_allocStmt (fun h => absurd h ha) ?_ ?_ (Nat.le_succ _) ?_ ?_
  · intro b
    by_cases hb : b = a <;> simp [State.allocStmt, store, hb, hdb]
  · intro b
    by_cases hb : b = a <;> simp [State.allocStmt, hb]
  · rintro i ⟨⟩
  · rintro st ⟨⟩
    exact ⟨Nat.lt_succ_self _, hdbId.trans (Nat.lt_succ_self _)⟩

theorem Registered.freeDb (hs : Registered s) (hp : p ∈ s.liveDbs) : Registered (s.freeDb p) := by
  obtain ⟨i, hi⟩ := (hs.dbs p).mp hp
  have hstmt : p ∉ s.liveStmts := by simp [hs.stmts, hi]
  refine hs.update tags_freeDb (fun _ => rfl) ?_ ?_ le_rfl ?_ ?_
  · intro b
    by_cases hb : b = p <;> simp [State.freeDb, hb]
  · intro b
    by_cases hb : b = p <;> simp [State.freeDb, store, hb, hstmt]
  · rintro i ⟨⟩
  · rintro st ⟨⟩

theorem Registered.freeStmt (hs : Registered s) (hp : p ∈ s.liveStmts) :
    Registered (s.freeStmt p) := by
  obtain ⟨st, hst⟩ := (hs.stmts p).mp hp
  have hdb : p ∉ s.liveDbs := by simp [hs.dbs, hst]
  refine hs.update tags_freeStmt (fun _ => rfl) ?_ ?_ le_rfl ?_ ?_
  · intro b
    by_cases hb : b = p <;> simp [State.freeStmt, store, hb, hdb]
  · intro b
    by_cases hb : b = p <;> simp [State.freeStmt, hb]
  · rintro i ⟨⟩
  · rintro st ⟨⟩

theorem step_effect {c : Call} (h : s.step c = some s') :
    Effect s c s' ∧ ∀ a, c.allocated = some a → a ≠ TursoFfi.null ∧ s.tags a = none := by
  unfold State.step at h
  split_ifs at h with hfree
  refine ⟨Option.some.inj h ▸ perform_effect, ?_⟩
  intro a ha
  simpa [ha, tags] using hfree

theorem tags_eq_of_dbMut (h : s.dbMut p = some d) : s.tags p = some (.inl d.id) := by
  simp [tags, (dbMut_eq_some.mp h).2, Object.tag]

theorem registered_step {c : Call} (hs : Registered s) (h : s.step c = some s') :
    Registered s' := by
  obtain ⟨heff, hfresh⟩ := step_effect h
  cases heff with
  | touch ht => exact ht.registered hs
  | allocDb ht => exact ht.registered (hs.allocDb (hfresh _ rfl).1 (hfresh _ rfl).2)
  | allocStmt hd ht =>
    have hid := hs.dbId _ _ (tags_eq_of_dbMut hd)
    exact ht.registered (hs.allocStmt (hfresh _ rfl).1 (hfresh _ rfl).2 hid)
  | freeDb hp ht => exact ht.registered (hs.freeDb hp)
  | freeStmt hp ht => exact ht.registered (hs.freeStmt hp)

theorem registered_of_reach (h : Reach State.step Unguarded init s) : Registered s :=
  h.invariant registered_init fun _ _ _ _ hs _ hstep => registered_step hs hstep

/-! ### Stale handles -/

/-- The database of the handle is open. -/
def HasDb (s : State) (h : Handle) : Prop := s.tags h.addr = some (.inl h.id)

/-- The statement of the handle is not finalized, and its database is open. -/
def Usable (s : State) (h : Handle) : Prop :=
  ∃ st, s.tags h.addr = some (.inr st) ∧ st.id = h.id ∧ s.HasDb ⟨st.db, st.dbId⟩

/-- The call is made with a handle of a database or a statement that is gone, or with a statement
of a database that is gone. -/
def Stale (s : State) : Call → Prop
  | .open .. => False
  | .close db _ | .exec db _ _ | .prepare _ db _ _ _ | .errmsg db => ¬s.HasDb db
  | .bindInt stmt _ _ | .bindText stmt _ _ _ | .step stmt _ | .reset stmt _ | .finalize stmt _
  | .columnInt stmt _ _ | .columnText stmt _ _ => ¬s.Usable stmt

/-- What a call gives when it is refused. `errmsg` has the message of the last refusal. -/
def errorResult (s : State) : Call → Returned
  | .columnInt .. => .int 0
  | .columnText .. => .str ""
  | .errmsg _ => .str (cString s.lastGlobalErr)
  | _ => ffiErr

/-- The call reports an error and goes to no object. -/
structure Rejects (s : State) (c : Call) : Prop where
  ret : (s.perform c).ret = s.errorResult c
  uses : (s.perform c).uses = []
  state : ∃ err, (s.perform c).state = s.setGlobalErr err

/-- An object of the right kind is at the address, be it that of the handle or a later one. For a
statement a database is at the address that it has of its own, except to finalize it. -/
def Occupied (s : State) : Call → Prop
  | .open .. => False
  | .close db _ | .exec db _ _ | .prepare _ db _ _ _ | .errmsg db =>
    ∃ i, s.tags db.addr = some (.inl i)
  | .finalize stmt _ => ∃ st, s.tags stmt.addr = some (.inr st)
  | .bindInt stmt _ _ | .bindText stmt _ _ _ | .step stmt _ | .reset stmt _
  | .columnInt stmt _ _ | .columnText stmt _ _ =>
    ∃ st i, s.tags stmt.addr = some (.inr st) ∧ s.tags st.db = some (.inl i)

theorem dbAt_of_tags {i : ObjId} (h : s.tags p = some (.inl i)) :
    ∃ d, s.dbAt p = some d ∧ d.id = i := by
  obtain ⟨o, ho, htag⟩ := Option.map_eq_some_iff.mp h
  cases o with
  | db d => exact ⟨d, dbAt_eq_some.mpr ho, by simpa [Object.tag] using htag⟩
  | stmt st => simp [Object.tag] at htag

theorem stmtAt_of_tags (h : s.tags p = some (.inr st)) : s.stmtAt p = some st := by
  obtain ⟨o, ho, htag⟩ := Option.map_eq_some_iff.mp h
  cases o with
  | db d => simp [Object.tag] at htag
  | stmt st' =>
    obtain rfl : st' = st := by simpa [Object.tag] using htag
    exact stmtAt_eq_some.mpr ho

section Registered

variable (hs : Registered s)

include hs

theorem Registered.isLiveDb_iff : s.isLiveDb p ↔ ∃ i, s.tags p = some (.inl i) := by
  have hnull := hs.null
  simp only [isLiveDb, hs.dbs, Bool.and_eq_true, decide_eq_true_eq]
  constructor
  · exact And.right
  · rintro ⟨i, hi⟩
    refine ⟨?_, i, hi⟩
    rintro rfl
    simp [hnull] at hi

theorem Registered.isLiveStmt_iff : s.isLiveStmt p ↔ ∃ st, s.tags p = some (.inr st) := by
  have hnull := hs.null
  simp only [isLiveStmt, hs.stmts, Bool.and_eq_true, decide_eq_true_eq]
  constructor
  · exact And.right
  · rintro ⟨st, hst⟩
    refine ⟨?_, st, hst⟩
    rintro rfl
    simp [hnull] at hst

theorem Registered.dbMut_eq_none : s.dbMut p = none ↔ ¬∃ i, s.tags p = some (.inl i) := by
  rw [← hs.isLiveDb_iff]
  constructor
  · intro h hlive
    obtain ⟨i, hi⟩ := hs.isLiveDb_iff.mp hlive
    obtain ⟨d, hd, -⟩ := dbAt_of_tags hi
    simp [dbMut, hlive, hd] at h
  · intro h
    simp [dbMut, h]

theorem Registered.stmtMut_eq_none : s.stmtMut p = none ↔
    ¬∃ st i, s.tags p = some (.inr st) ∧ s.tags st.db = some (.inl i) := by
  constructor
  · rintro h ⟨st, i, hst, hi⟩
    have hheap := stmtAt_eq_some.mp (stmtAt_of_tags hst)
    have hsome := stmtMut_eq_some.mpr
      ⟨hs.isLiveStmt_iff.mpr ⟨st, hst⟩, hheap, hs.isLiveDb_iff.mpr ⟨i, hi⟩⟩
    simp [hsome] at h
  · intro h
    by_contra hsome
    obtain ⟨st, hst⟩ := Option.ne_none_iff_exists'.mp hsome
    obtain ⟨-, hheap, hlive⟩ := stmtMut_eq_some.mp hst
    obtain ⟨i, hi⟩ := hs.isLiveDb_iff.mp hlive
    exact h ⟨st, i, by simp [tags, hheap, Object.tag], hi⟩

end Registered

theorem uses_answer {ret : Returned} {r : Except String Unit} :
    (s.answer st ret r).uses ≠ [] := by
  cases r <;> simp [answer, fail]

theorem uses_columnText {t : String} : (s.columnText st t).uses ≠ [] := by
  unfold columnText
  split <;> simp

theorem rejects_of_refuse {c : Call} {msg : String}
    (h : s.perform c = s.refuse (s.errorResult c) msg) : s.Rejects c :=
  ⟨by rw [h]; rfl, by rw [h]; rfl, msg, by rw [h]; rfl⟩

theorem not_rejects_of_uses {c : Call} (h : (s.perform c).uses ≠ []) : ¬s.Rejects c :=
  fun hr => h hr.uses

theorem rejects_db_iff {c : Call} {msg : String} (hs : Registered s) (hargs : ¬c.BadArgs)
    (hocc : s.Occupied c ↔ ∃ i, s.tags p = some (.inl i))
    (hnone : s.dbMut p = none → s.perform c = s.refuse (s.errorResult c) msg)
    (hsome : ∀ d, s.dbMut p = some d → (s.perform c).uses ≠ []) :
    s.Rejects c ↔ c.BadArgs ∨ ¬s.Occupied c := by
  rw [hocc, ← hs.dbMut_eq_none, or_iff_right hargs]
  cases hp : s.dbMut p with
  | none => simpa using rejects_of_refuse (hnone hp)
  | some d => simpa using not_rejects_of_uses (hsome d hp)

theorem rejects_stmt_iff {c : Call} {msg : String} (hs : Registered s) (hargs : ¬c.BadArgs)
    (hocc : s.Occupied c ↔ ∃ st i, s.tags p = some (.inr st) ∧ s.tags st.db = some (.inl i))
    (hnone : s.stmtMut p = none → s.perform c = s.refuse (s.errorResult c) msg)
    (hsome : ∀ st, s.stmtMut p = some st → (s.perform c).uses ≠ []) :
    s.Rejects c ↔ c.BadArgs ∨ ¬s.Occupied c := by
  rw [hocc, ← hs.stmtMut_eq_none, or_iff_right hargs]
  cases hp : s.stmtMut p with
  | none => simpa using rejects_of_refuse (hnone hp)
  | some st => simpa using not_rejects_of_uses (hsome st hp)

theorem rejects_iff_of_registered {c : Call} (hs : Registered s) (hc : s.Stale c) :
    s.Rejects c ↔ c.BadArgs ∨ ¬s.Occupied c := by
  cases c with
  | «open» outNull path opened a => exact hc.elim
  | close db closed =>
    by_cases hp : db.addr ∈ s.liveDbs
    · obtain ⟨i, hi⟩ := (hs.dbs _).mp hp
      obtain ⟨d, hd, -⟩ := dbAt_of_tags hi
      have huses : (s.perform (.close db closed)).uses ≠ [] := by
        cases closed <;> simp [perform, tursoFfiClose, hp, hd]
      simp [not_rejects_of_uses huses, Call.BadArgs, Occupied, hi]
    · have hr : s.Rejects (.close db closed) := rejects_of_refuse (if_neg hp)
      simp [hr, Call.BadArgs, Occupied, ← hs.dbs, hp]
  | exec db sql done =>
    refine rejects_db_iff hs not_false .rfl
      (fun h => by simp only [perform, tursoFfiExec, h]; rfl) ?_
    intro d hd
    cases sql <;> cases done <;> simp [perform, tursoFfiExec, hd]
  | prepare outNull db sql prepared a =>
    cases outNull with
    | true => simpa [Call.BadArgs] using rejects_of_refuse rfl
    | false =>
      refine rejects_db_iff hs Bool.false_ne_true .rfl
        (fun h => by simp only [perform, tursoFfiPrepare, h]; rfl) ?_
      intro d hd
      cases sql <;> cases prepared <;> simp [perform, tursoFfiPrepare, hd]
  | errmsg db =>
    refine rejects_db_iff hs not_false .rfl
      (fun h => by simp only [perform, tursoFfiErrmsg, h]; rfl) ?_
    intro d hd
    simp [perform, tursoFfiErrmsg, hd]
  | bindInt stmt idx bound =>
    by_cases hidx : idx ≤ 0
    · have hr : s.Rejects (.bindInt stmt idx bound) := rejects_of_refuse (if_pos hidx)
      simp [hr, Call.BadArgs, hidx]
    · refine rejects_stmt_iff hs hidx .rfl
        (fun h => by simp only [perform, tursoFfiBindInt, h, if_neg hidx]; rfl) ?_
      intro st hst
      simpa [perform, tursoFfiBindInt, hst, hidx] using uses_answer
  | bindText stmt idx text bound =>
    cases text with
    | none => simpa [Call.BadArgs] using rejects_of_refuse rfl
    | some text =>
      by_cases hidx : idx ≤ 0
      · have hr : s.Rejects (.bindText stmt idx (some text) bound) :=
          rejects_of_refuse (if_pos hidx)
        simp [hr, Call.BadArgs, hidx]
      · refine rejects_stmt_iff hs (by simp [Call.BadArgs, hidx]) .rfl
          (fun h => by simp only [perform, tursoFfiBindText, h, if_neg hidx]; rfl) ?_
        intro st hst
        simpa [perform, tursoFfiBindText, hst, hidx] using uses_answer
  | step stmt stepped =>
    refine rejects_stmt_iff hs not_false .rfl
      (fun h => by simp only [perform, tursoFfiStep, h]; rfl) ?_
    intro st hst
    simp only [perform, tursoFfiStep, hst]
    split <;> exact uses_answer
  | reset stmt done =>
    refine rejects_stmt_iff hs not_false .rfl
      (fun h => by simp only [perform, tursoFfiReset, h]; rfl) ?_
    intro st hst
    simpa [perform, tursoFfiReset, hst] using uses_answer
  | finalize stmt finalized =>
    by_cases hp : stmt.addr ∈ s.liveStmts
    · obtain ⟨st, hst⟩ := (hs.stmts _).mp hp
      have huses : (s.perform (.finalize stmt finalized)).uses ≠ [] := by
        simp only [perform, tursoFfiFinalize, if_pos hp, stmtAt_of_tags hst]
        split <;> simp [uses_answer]
      simp [not_rejects_of_uses huses, Call.BadArgs, Occupied, hst]
    · have hr : s.Rejects (.finalize stmt finalized) := rejects_of_refuse (if_neg hp)
      simp [hr, Call.BadArgs, Occupied, ← hs.stmts, hp]
  | columnInt stmt idx value =>
    by_cases hidx : idx < 0
    · have hr : s.Rejects (.columnInt stmt idx value) := rejects_of_refuse (if_pos hidx)
      simp [hr, Call.BadArgs, hidx]
    · refine rejects_stmt_iff hs hidx .rfl
        (fun h => by simp only [perform, tursoFfiColumnInt, h, if_neg hidx]; rfl) ?_
      intro st hst
      simp only [perform, tursoFfiColumnInt, hst, if_neg hidx]
      split <;> simp [fail]
  | columnText stmt idx value =>
    by_cases hidx : idx < 0
    · have hr : s.Rejects (.columnText stmt idx value) := rejects_of_refuse (if_pos hidx)
      simp [hr, Call.BadArgs, hidx]
    · refine rejects_stmt_iff hs hidx .rfl
        (fun h => by simp only [perform, tursoFfiColumnText, h, if_neg hidx]; rfl) ?_
      intro st hst
      simp only [perform, tursoFfiColumnText, hst, if_neg hidx]
      split <;> simp [fail, uses_columnText]

/-! ### What is gone does not come back -/

/-- The handles of a call were given out before. -/
def Issued (s : State) : Call → Prop
  | .open .. => True
  | .close h _ | .exec h _ _ | .prepare _ h _ _ _ | .errmsg h
  | .bindInt h _ _ | .bindText h _ _ _ | .step h _ | .reset h _ | .finalize h _
  | .columnInt h _ _ | .columnText h _ _ => h.id < s.nextId

theorem tags_step {c : Call} (h : s.step c = some s') :
    s'.tags a = s.tags a ∨ s'.tags a = none ∨ s'.tags a = some (.inl s.nextId) ∨
      ∃ p i, s'.tags a = some (.inr ⟨s.nextId, p, i⟩) := by
  obtain ⟨heff, -⟩ := step_effect h
  cases heff with
  | touch ht => simp [ht.tags]
  | allocDb ht =>
    rw [ht.tags, tags_allocDb, Function.update_apply]
    split_ifs <;> simp
  | allocStmt hd ht =>
    rw [ht.tags, tags_allocStmt, Function.update_apply]
    split_ifs <;> simp
  | freeDb hp ht =>
    rw [ht.tags, tags_freeDb, Function.update_apply]
    split_ifs <;> simp
  | freeStmt hp ht =>
    rw [ht.tags, tags_freeStmt, Function.update_apply]
    split_ifs <;> simp

theorem nextId_step {c : Call} (h : s.step c = some s') : s.nextId ≤ s'.nextId := by
  obtain ⟨heff, -⟩ := step_effect h
  cases heff with
  | touch ht => exact ht.nextId.ge
  | allocDb ht => exact (Nat.le_succ _).trans ht.nextId.ge
  | allocStmt hd ht => exact (Nat.le_succ _).trans ht.nextId.ge
  | freeDb hp ht => exact ht.nextId.ge
  | freeStmt hp ht => exact ht.nextId.ge

theorem hasDb_of_step {c : Call} {h : Handle} (hid : h.id < s.nextId) (hstep : s.step c = some s')
    (hdb : s'.HasDb h) : s.HasDb h := by
  unfold HasDb at hdb ⊢
  rcases tags_step hstep with hold | hnone | hnew | ⟨p, i, hnew⟩
  · rwa [← hold]
  · simp [hnone] at hdb
  · simp only [hnew, Option.some.injEq, Sum.inl.injEq] at hdb
    exact absurd hdb.symm hid.ne
  · simp [hnew] at hdb

theorem usable_of_step {c : Call} {h : Handle} (hs : Registered s) (hid : h.id < s.nextId)
    (hstep : s.step c = some s') (huse : s'.Usable h) : s.Usable h := by
  obtain ⟨st, hst, hsame, hdb⟩ := huse
  rcases tags_step hstep with hold | hnone | hnew | ⟨p, i, hnew⟩
  · rw [hold] at hst
    exact ⟨st, hst, hsame, hasDb_of_step (hs.stmtId _ _ hst).2 hstep hdb⟩
  · simp [hnone] at hst
  · simp [hnew] at hst
  · simp only [hnew, Option.some.injEq, Sum.inr.injEq] at hst
    subst hst
    exact absurd hsame.symm hid.ne

theorem stale_step {c c' : Call} (hs : Registered s) (hid : s.Issued c) (hc : s.Stale c)
    (hstep : s.step c' = some s') : s'.Stale c := by
  cases c with
  | «open» => exact hc
  | close | exec | prepare | errmsg => exact fun h => hc (hasDb_of_step hid hstep h)
  | bindInt | bindText | step | reset | finalize | columnInt | columnText =>
    exact fun h => hc (usable_of_step hs hid hstep h)

theorem issued_step {c c' : Call} (hid : s.Issued c) (hstep : s.step c' = some s') :
    s'.Issued c := by
  cases c with
  | «open» => trivial
  | _ => exact hid.trans_le (nextId_step hstep)

theorem stale_of_reach {c : Call} (hs : Registered s) (hid : s.Issued c) (hc : s.Stale c)
    (h : Reach State.step Unguarded s s') : Registered s' ∧ s'.Issued c ∧ s'.Stale c := by
  induction h with
  | refl => exact ⟨hs, hid, hc⟩
  | tail _ _ hstep ih =>
    obtain ⟨ht, htid, htc⟩ := ih
    exact ⟨registered_step ht hstep, issued_step htid hstep, stale_step ht htid htc hstep⟩

/-- A stale handle is stale for good, and a call with it is rejected exactly when its arguments are
bad or the addresses have no object again. -/
theorem rejects_iff {c : Call} (h : Reach State.step Unguarded init s) (hid : s.Issued c)
    (hc : s.Stale c) (h' : Reach State.step Unguarded s s') :
    s'.Stale c ∧ (s'.Rejects c ↔ c.BadArgs ∨ ¬s'.Occupied c) := by
  obtain ⟨hs', -, hc'⟩ := stale_of_reach (registered_of_reach h) hid hc h'
  exact ⟨hc', rejects_iff_of_registered hs' hc'⟩

/-- The handle of a database that has been closed. -/
theorem rejects_iff_closed : ∃ s,
    run State.step init [.open false (.ok "a.db") (.ok ()) 16, .close ⟨16, 0⟩ (.ok ())] = some s ∧
      s.Rejects (.exec ⟨16, 0⟩ (.ok "drop table t") (.ok ())) := by
  have hrun : run State.step init
      [.open false (.ok "a.db") (.ok ()) 16, .close ⟨16, 0⟩ (.ok ())] = some _ := rfl
  refine ⟨_, hrun, (rejects_iff (reach_of_run hrun) ?_ ?_ .refl).2.mpr (.inr ?_)⟩
  · exact Nat.one_pos
  · rintro ⟨⟩
  · rintro ⟨_, ⟨⟩⟩

/-- The second database is at the address of the first one, and is closed in its place. -/
theorem not_rejects_reopened : ∃ s, run State.step init
    [.open false (.ok "a.db") (.ok ()) 16, .close ⟨16, 0⟩ (.ok ()),
      .open false (.ok "b.db") (.ok ()) 16] = some s ∧
      s.Stale (.close ⟨16, 0⟩ (.ok ())) ∧
      (s.perform (.close ⟨16, 0⟩ (.ok ()))).ret = ffiOk ∧
      (s.perform (.close ⟨16, 0⟩ (.ok ()))).uses = [1] ∧ ¬s.Rejects (.close ⟨16, 0⟩ (.ok ())) := by
  refine ⟨_, rfl, ?_, rfl, rfl, not_rejects_of_uses ?_⟩
  · rintro ⟨⟩
  · exact List.cons_ne_nil 1 []

/-! ### Handles of objects that are there -/

lemma tags_of_not_freed {c : Call} {o : ObjId ⊕ Stmt} (hstep : s.step c = some s')
    (ho : s.tags p = some o) (hc : c.freed ≠ some p) : s'.tags p = some o := by
  obtain ⟨heff, hfresh⟩ := step_effect hstep
  have hne : ∀ a, c.allocated = some a → p ≠ a := by
    rintro a ha rfl
    simp [(hfresh _ ha).2] at ho
  cases heff with
  | touch ht => rwa [ht.tags]
  | allocDb ht => rwa [ht.tags, tags_allocDb, Function.update_of_ne (hne _ rfl)]
  | allocStmt _ ht => rwa [ht.tags, tags_allocStmt, Function.update_of_ne (hne _ rfl)]
  | freeDb _ ht =>
    rwa [ht.tags, tags_freeDb, Function.update_of_ne fun heq => hc (congrArg some heq.symm)]
  | freeStmt _ ht =>
    rwa [ht.tags, tags_freeStmt, Function.update_of_ne fun heq => hc (congrArg some heq.symm)]

lemma tags_of_reach {o : ObjId ⊕ Stmt} (ho : s.tags p = some o)
    (h : Reach State.step (fun _ c => c.freed ≠ some p) s s') : s'.tags p = some o :=
  h.invariant (I := fun s => s.tags p = some o) ho fun _ _ _ _ ho hc hstep =>
    tags_of_not_freed hstep ho hc

lemma dbMut_of_hasDb {x : Handle} (hs : Registered s) (h : s.HasDb x) :
    ∃ d, s.dbMut x.addr = some d ∧ d.id = x.id := by
  obtain ⟨d, hd, hid⟩ := dbAt_of_tags h
  exact ⟨d, dbMut_eq_some.mpr ⟨hs.isLiveDb_iff.mpr ⟨_, h⟩, dbAt_eq_some.mp hd⟩, hid⟩

/-- A handle reaches its own object as long as nothing is closed or finalized at its address, and
for a statement at that of its database, whatever else is opened, closed and allocated. -/
theorem reaches_own {x : Handle} (h : Reach State.step Unguarded init s) :
    (s.HasDb x → ∀ s', Reach State.step (fun _ c => c.freed ≠ some x.addr) s s' →
      ∃ d, s'.dbMut x.addr = some d ∧ d.id = x.id) ∧
    ∀ st, s.tags x.addr = some (.inr st) → s.HasDb ⟨st.db, st.dbId⟩ → ∀ s',
      Reach State.step (fun _ c => c.freed ≠ some x.addr ∧ c.freed ≠ some st.db) s s' →
      s'.stmtMut x.addr = some st ∧ ∃ d, s'.dbMut st.db = some d ∧ d.id = st.dbId := by
  constructor
  · intro hdb s' hrun
    exact dbMut_of_hasDb (registered_of_reach (h.trans hrun.unguarded)) (tags_of_reach hdb hrun)
  · intro st hst hdb s' hrun
    have hs' := registered_of_reach (h.trans hrun.unguarded)
    have hst' := tags_of_reach hst (hrun.mono fun _ _ hc => hc.1)
    have hdb' : s'.HasDb ⟨st.db, st.dbId⟩ := tags_of_reach hdb (hrun.mono fun _ _ hc => hc.2)
    refine ⟨stmtMut_eq_some.mpr ⟨hs'.isLiveStmt_iff.mpr ⟨st, hst'⟩,
      stmtAt_eq_some.mp (stmtAt_of_tags hst'), hs'.isLiveDb_iff.mpr ⟨_, hdb'⟩⟩, ?_⟩
    exact dbMut_of_hasDb hs' hdb'

/-- Two databases, the first of which is closed; the second one keeps its handle. -/
theorem reaches_own_second : ∃ s s',
    run State.step init [.open false (.ok "a.db") (.ok ()) 16, .open false (.ok "b.db") (.ok ()) 32] =
      some s ∧
    s.step (.close ⟨16, 0⟩ (.ok ())) = some s' ∧ ∃ d, s'.dbMut 32 = some d ∧ d.id = 1 := by
  have hrun : run State.step init
    [.open false (.ok "a.db") (.ok ()) 16, .open false (.ok "b.db") (.ok ()) 32] = some _ := rfl
  refine ⟨_, _, hrun, rfl, ((reaches_own (x := ⟨32, 1⟩) (reach_of_run hrun)).1 rfl _ ?_)⟩
  exact Reach.refl.tail (a := .close ⟨16, 0⟩ (.ok ())) (by simp [Call.freed]) rfl

end State

end Verilua.TursoFfi
