import Mathlib.Data.List.Induction
import Mathlib.Order.Basic
import Verilua.Database.Basic

/-!
# Where a row goes

The names of the files are distinct, and so are the names of the tables of a file. So the table
that is written to is the last one of the last file.
-/

namespace Verilua.LuaDataBase

variable {ρ : Type*} {p : Params}

/-! ### Names -/

lemma padded_injective : Function.Injective padded := by
  intro m n h
  have hchars := String.ofList_injective h
  have hvalue := congrArg (Nat.ofDigitChars 10 · 0) hchars
  simpa [Nat.ofDigitChars_append, Nat.ofDigitChars_replicate_zero] using hvalue

lemma tableNameAt_injective (h : p.tableCntMax.isSome) : Function.Injective p.tableNameAt := by
  intro m n heq
  simp only [Params.tableNameAt, if_pos h] at heq
  have hlist := congrArg String.toList heq
  simp only [String.toList_append] at hlist
  have hpad := List.append_cancel_left (List.append_cancel_right (List.append_cancel_right hlist))
  exact padded_injective (String.toList_inj.mp hpad)

lemma fileNameAt_injective (h : p.sizeLimit.isSome) : Function.Injective p.fileNameAt := by
  intro m n heq
  simp only [Params.fileNameAt, if_pos h] at heq
  have hlist := congrArg String.toList heq
  simp only [String.toList_append] at hlist
  have hrepr := List.append_cancel_right (List.append_cancel_right hlist)
  have hvalue := congrArg (Nat.ofDigitChars 10 · 0) hrepr
  simpa [Nat.repr] using hvalue

lemma fileNameAt_ne {m n : Nat} (h : p.sizeLimit.isSome) (hlt : m < n) :
    p.fileNameAt m ≠ p.fileNameAt n := fun heq =>
  Nat.ne_of_lt hlt (fileNameAt_injective h heq)

lemma tableNameAt_ne {m n : Nat} (h : p.tableCntMax.isSome) (hlt : m < n) :
    p.tableNameAt m ≠ p.tableNameAt n := fun heq =>
  Nat.ne_of_lt hlt (tableNameAt_injective h heq)

/-! ### Files -/

/-- The open file is the last one. -/
structure Opened (s : State ρ) (older : List (File ρ)) (tables : List (Table ρ)) : Prop where
  files : s.files = older ++ [⟨s.fullpathName, tables⟩]
  older_ne : ∀ file ∈ older, file.name ≠ s.fullpathName

variable {s : State ρ} {older : List (File ρ)} {tables full : List (Table ρ)} {last : Table ρ}

namespace Opened

lemma onOpenFile (h : Opened s older tables) (f : List (Table ρ) → List (Table ρ)) :
    s.onOpenFile f = { s with files := older ++ [⟨s.fullpathName, f tables⟩] } := by
  have holder : older.map (fun file =>
      if file.name = s.fullpathName then { file with tables := f file.tables } else file) =
        older := by
    conv_rhs => rw [← List.map_id older]
    exact List.map_congr_left fun file hmem => if_neg (h.older_ne file hmem)
  rw [State.onOpenFile]
  simp only [h.files, List.map_append, holder, List.map_cons, List.map_nil, if_true]

lemma hasTable_iff (h : Opened s older tables) (name : String) :
    s.hasTable name = true ↔ ∃ t ∈ tables, t.name = name := by
  simp only [State.hasTable, h.files, List.any_eq_true, Bool.and_eq_true, decide_eq_true_eq,
    List.mem_append, List.mem_singleton]
  constructor
  · rintro ⟨file, hmem | rfl, hname, t, ht, hfound⟩
    · exact absurd hname (h.older_ne file hmem)
    · exact ⟨t, ht, hfound⟩
  · rintro ⟨t, ht, hfound⟩
    exact ⟨_, .inr rfl, rfl, t, ht, hfound⟩

lemma createTable (h : Opened s older tables) (hnew : ∀ t ∈ tables, t.name ≠ s.createTableCmd)
    (hname : p.backend = .duckdb → s.tableName = s.createTableCmd) :
    s.createTable p = some { s with
      files := older ++ [⟨s.fullpathName, tables ++ [⟨s.createTableCmd, []⟩]⟩]
      tableCnt := if p.tableCntMax.isSome then 0 else s.tableCnt
      target := if p.backend = .duckdb then s.createTableCmd else s.target
      held := if p.backend = .duckdb then [] else s.held } := by
  have hfilter : tables.filter (fun t => decide (t.name ≠ s.createTableCmd)) = tables :=
    List.filter_eq_self.mpr fun t ht => decide_eq_true (hnew t ht)
  have hexec : s.execCreateTable p = some { s with
      files := older ++ [⟨s.fullpathName, tables ++ [⟨s.createTableCmd, []⟩]⟩] } := by
    have hhas : s.hasTable s.createTableCmd = false := by
      rw [Bool.eq_false_iff, Ne, h.hasTable_iff]
      rintro ⟨t, ht, heq⟩
      exact hnew t ht heq
    rw [State.execCreateTable, hhas, h.onOpenFile, h.onOpenFile, hfilter]
    simp
  rw [State.createTable, hexec, Option.bind_eq_bind, Option.bind_some]
  by_cases hduck : p.backend = .duckdb
  · have hopened : Opened { s with
        files := older ++ [⟨s.fullpathName, tables ++ [⟨s.createTableCmd, []⟩]⟩]
        tableCnt := if p.tableCntMax.isSome then 0 else s.tableCnt } older
          (tables ++ [⟨s.createTableCmd, []⟩]) := ⟨rfl, h.older_ne⟩
    have hhas := (hopened.hasTable_iff s.createTableCmd).mpr
      ⟨⟨s.createTableCmd, []⟩, List.mem_append_right _ List.mem_cons_self, rfl⟩
    cases hmax : p.tableCntMax <;> simp_all [State.newAppender]
  · cases hmax : p.tableCntMax <;> simp [hduck]

lemma nextTable {s₁ : State ρ} {name : String} (hflush : s.flush = s₁) (h : Opened s₁ older tables)
    (hname : p.tableNameAt (s₁.tableIdx + 1) = name) (hnew : ∀ t ∈ tables, t.name ≠ name) :
    s.nextTable p = some { s₁ with
      files := older ++ [⟨s₁.fullpathName, tables ++ [⟨name, []⟩]⟩]
      createTableCmd := name
      tableName := if p.backend = .duckdb then name else s₁.tableName
      prepareCmd := if p.backend = .duckdb then s₁.prepareCmd else name
      target := name
      tableIdx := s₁.tableIdx + 1
      tableCnt := 0 } := by
  have hheld : s₁.held = [] := by rw [← hflush, State.flush]
  rw [State.nextTable, hflush]
  by_cases hduck : p.backend = .duckdb
  · have hrenamed : Opened { s₁ with createTableCmd := name, tableName := name } older tables :=
      ⟨h.files, h.older_ne⟩
    have hcreate := hrenamed.createTable (p := p) hnew fun _ => rfl
    simp only [hduck, if_true] at hcreate ⊢
    rw [hname, hcreate, Option.bind_eq_bind, Option.bind_some, hheld]
  · have hrenamed : Opened { s₁ with createTableCmd := name, prepareCmd := name } older tables :=
      ⟨h.files, h.older_ne⟩
    have hcreate := hrenamed.createTable (p := p) hnew fun hb => absurd hb hduck
    simp only [hduck, if_false] at hcreate ⊢
    have hhas (s₂ : State ρ) (h₂ : Opened s₂ older (tables ++ [⟨name, []⟩])) :
        s₂.hasTable name = true :=
      (h₂.hasTable_iff name).mpr ⟨⟨name, []⟩, List.mem_append_right _ List.mem_cons_self, rfl⟩
    rw [hname, hcreate, Option.bind_eq_bind, Option.bind_some, State.prepare, if_pos]
    exact hhas _ ⟨rfl, h.older_ne⟩

end Opened

/-- The last table of the open file is the one with the index of the table. -/
structure Layout (p : Params) (s : State ρ) (older : List (File ρ)) (full : List (Table ρ))
    (last : Table ρ) : Prop where
  files : s.files = older ++ [⟨s.fullpathName, full ++ [last]⟩]
  fullpathName : s.fullpathName = p.fileNameAt s.fileCount
  older_names : ∀ file ∈ older, ∃ i < s.fileCount, file.name = p.fileNameAt i
  full_names : ∀ t ∈ full, ∃ i < s.tableIdx, t.name = p.tableNameAt i
  last_name : last.name = p.tableNameAt s.tableIdx
  one_file : p.sizeLimit = none → s.fileCount = 0
  one_table : p.tableCntMax = none → s.tableIdx = 0

namespace Layout

lemma opened (h : Layout p s older full last) : Opened s older (full ++ [last]) := by
  refine ⟨h.files, fun file hmem => ?_⟩
  obtain ⟨i, hlt, hname⟩ := h.older_names file hmem
  rw [hname, h.fullpathName]
  cases hlimit : p.sizeLimit with
  | none => exact absurd (h.one_file hlimit ▸ hlt) (Nat.not_lt_zero i)
  | some limit => exact fileNameAt_ne (by simp [hlimit]) hlt

lemma full_name_ne (h : Layout p s older full last) {t : Table ρ} (hmem : t ∈ full) :
    t.name ≠ last.name := by
  obtain ⟨i, hlt, hname⟩ := h.full_names t hmem
  rw [hname, h.last_name]
  cases hmax : p.tableCntMax with
  | none => exact absurd (h.one_table hmax ▸ hlt) (Nat.not_lt_zero i)
  | some m => exact tableNameAt_ne (by simp [hmax]) hlt

lemma foldl_insertRow (h : Layout p s older full last) {rows : List (String × ρ)}
    (hrows : ∀ entry ∈ rows, entry.1 = last.name) :
    rows.foldl insertRow (full ++ [last]) =
      full ++ [{ last with rows := last.rows ++ rows.map Prod.snd }] := by
  have hskip (row : ρ) : full.map (fun t =>
      if t.name = last.name then { t with rows := t.rows ++ [row] } else t) = full := by
    conv_rhs => rw [← List.map_id full]
    exact List.map_congr_left fun t ht => if_neg (h.full_name_ne ht)
  induction rows using List.reverseRecOn with
  | nil => simp
  | append_singleton rows entry ih =>
    have hlast : entry.1 = last.name := hrows entry (by simp)
    rw [List.foldl_append, ih fun entry hmem => hrows entry (List.mem_append_left _ hmem)]
    simp [insertRow, hskip, hlast]

lemma flush (h : Layout p s older full last) (hheld : ∀ entry ∈ s.held, entry.1 = last.name) :
    s.flush = { s with
      files := older ++ [⟨s.fullpathName,
        full ++ [{ last with rows := last.rows ++ s.held.map Prod.snd }]⟩]
      held := [] } := by
  rw [State.flush, h.opened.onOpenFile, h.foldl_insertRow hheld]

end Layout

end Verilua.LuaDataBase

/-!
### Every saved row is kept

The rows in the tables, those that the transaction or the appender holds and those in the cache are
together the rows that were saved, in their order. A commit that goes on to the next file keeps
this when the appender then holds nothing and its table is the first one of its file.
-/

namespace Verilua.LuaDataBase

open TransitionSystem

variable {ρ : Type*} {p : Params} {s s' : State ρ} {older : List (File ρ)} {full : List (Table ρ)}
  {last : Table ρ} {cnt : Nat} {done : List ρ} {row : ρ}

/-- A table that is followed by another one has as many rows as `table_cnt_max` asks for, and at
least one. -/
def IsFull (p : Params) (t : Table ρ) : Prop :=
  ∀ m, p.tableCntMax = some m → (t.rows.length : Int) = max 1 m

/-- `done` are the rows that the database has been handed, of which `cnt` belong to the last
table. -/
structure Stored (p : Params) (s : State ρ) (older : List (File ρ)) (full : List (Table ρ))
    (last : Table ρ) (cnt : Nat) (done : List ρ) : Prop extends Layout p s older full last where
  held : ∀ entry ∈ s.held, entry.1 = last.name
  rows : older.flatMap (fun file => file.tables.flatMap Table.rows) ++ full.flatMap Table.rows ++
    last.rows ++ s.held.map Prod.snd = done
  counted : last.rows.length + s.held.length = cnt ∨ p.tableCntMax = none
  older_full : ∀ file ∈ older, ∀ t ∈ file.tables.dropLast, IsFull p t
  full_full : ∀ t ∈ full, IsFull p t
  appender : p.backend = .duckdb → s.target = last.name ∧ s.tableName = last.name
  statement : p.backend ≠ .duckdb → s.prepareCmd = last.name
  creates : p.tableCntMax = none → s.createTableCmd = p.tableNameAt 0

/-- What neither the loop of a commit nor a new table or file changes. -/
structure Frame (s s' : State ρ) : Prop where
  cache : s'.cache = s.cache
  saveCnt : s'.saveCnt = s.saveCnt
  finished : s'.finished = s.finished

lemma Frame.refl (s : State ρ) : Frame s s := ⟨rfl, rfl, rfl⟩

lemma Frame.trans {s₁ s₂ s₃ : State ρ} (h : Frame s₁ s₂) (h' : Frame s₂ s₃) : Frame s₁ s₃ :=
  ⟨h'.cache.trans h.cache, h'.saveCnt.trans h.saveCnt, h'.finished.trans h.finished⟩

@[simp] lemma flush_held : s.flush.held = [] := rfl

lemma flush_frame (s : State ρ) : Frame s s.flush := ⟨rfl, rfl, rfl⟩

@[simp] lemma append_target : (s.append p row).target = s.target := by
  rw [State.append]
  split_ifs <;> rfl

@[simp] lemma append_tableCnt : (s.append p row).tableCnt = s.tableCnt := by
  rw [State.append]
  split_ifs <;> rfl

@[simp] lemma append_tableIdx : (s.append p row).tableIdx = s.tableIdx := by
  rw [State.append]
  split_ifs <;> rfl

lemma append_frame (s : State ρ) (row : ρ) : Frame s (s.append p row) := by
  rw [State.append]
  split_ifs <;> exact ⟨rfl, rfl, rfl⟩

namespace Stored

lemma rows_eq (h : Stored p s older full last cnt done) (hheld : s.held = []) :
    s.rows = done := by
  rw [← h.rows, hheld, State.rows, h.files]
  simp

lemma flush (h : Stored p s older full last cnt done) :
    Stored p s.flush older full { last with rows := last.rows ++ s.held.map Prod.snd } cnt done := by
  rw [h.toLayout.flush h.held]
  refine ⟨⟨rfl, h.fullpathName, h.older_names, h.full_names, h.last_name, h.one_file, h.one_table⟩,
    by simp, ?_, ?_, h.older_full, h.full_full, h.appender, h.statement, h.creates⟩
  · rw [← h.rows]
    simp
  · simpa using h.counted

/-! ### One row -/

lemma append (h : Stored p s older full last cnt done) (htarget : s.target = last.name) (row : ρ) :
    ∃ last', last'.name = last.name ∧
      Stored p (s.append p row) older full last' (cnt + 1) (done ++ [row]) := by
  have hheld : Stored p { s with held := s.held ++ [(s.target, row)] } older full last (cnt + 1)
      (done ++ [row]) := by
    refine ⟨⟨h.files, h.fullpathName, h.older_names, h.full_names, h.last_name, h.one_file,
      h.one_table⟩, ?_, ?_, ?_, h.older_full, h.full_full, h.appender, h.statement, h.creates⟩
    · intro entry hmem
      rcases List.mem_append.mp hmem with hmem | hmem
      · exact h.held entry hmem
      · rw [List.mem_singleton.mp hmem, htarget]
    · rw [← h.rows]
      simp
    · refine h.counted.imp_left fun hcnt => ?_
      rw [List.length_append, List.length_singleton, ← Nat.add_assoc, hcnt]
  rw [State.append]
  split_ifs
  · refine ⟨_, ?_, hheld.flush⟩
    rfl
  · exact ⟨last, rfl, hheld⟩

lemma nextTable {m : Int} (h : Stored p s older full last cnt done) (hmax : p.tableCntMax = some m)
    (hcnt : (cnt : Int) = max 1 m) :
    ∃ s' full' last', s.nextTable p = some s' ∧ Stored p s' older full' last' 0 done ∧
      s'.tableCnt = 0 ∧ s'.target = last'.name ∧ Frame s s' := by
  have hflush := h.flush
  have hframe := flush_frame s
  generalize hlast : ({ last with rows := last.rows ++ s.held.map Prod.snd } : Table ρ) = last₁
    at hflush
  generalize hs₁ : s.flush = s₁ at hflush hframe
  have hheld : s₁.held = [] := by rw [← hs₁, flush_held]
  have hsome : p.tableCntMax.isSome := by simp [hmax]
  have hnames : ∀ t ∈ full ++ [last₁], ∃ i < s₁.tableIdx + 1, t.name = p.tableNameAt i := by
    intro t ht
    rcases List.mem_append.mp ht with ht | ht
    · obtain ⟨i, hlt, hname⟩ := hflush.full_names t ht
      exact ⟨i, Nat.lt_succ_of_lt hlt, hname⟩
    · rw [List.mem_singleton.mp ht]
      exact ⟨s₁.tableIdx, Nat.lt_succ_self _, hflush.last_name⟩
  have hfull : ∀ t ∈ full ++ [last₁], IsFull p t := by
    intro t ht
    rcases List.mem_append.mp ht with ht | ht
    · exact hflush.full_full t ht
    · rw [List.mem_singleton.mp ht]
      intro m' hm'
      cases hmax.symm.trans hm'
      rcases hflush.counted with hcounted | hnone
      · rw [← hcnt, ← hcounted, hheld, List.length_nil, Nat.add_zero]
      · exact absurd (hmax.symm.trans hnone) (Option.some_ne_none m)
  have hnew : ∀ t ∈ full ++ [last₁], t.name ≠ p.tableNameAt (s₁.tableIdx + 1) := by
    intro t ht
    obtain ⟨i, hlt, hname⟩ := hnames t ht
    rw [hname]
    exact tableNameAt_ne hsome hlt
  have hnext := Opened.nextTable hs₁ hflush.toLayout.opened rfl hnew
  refine ⟨_, full ++ [last₁], ⟨p.tableNameAt (s₁.tableIdx + 1), []⟩, hnext, ?_, rfl, rfl,
    hframe.cache, hframe.saveCnt, hframe.finished⟩
  refine ⟨⟨by simp, hflush.fullpathName, hflush.older_names, hnames, rfl, hflush.one_file, ?_⟩,
    by simp [hheld], ?_, .inl (by simp [hheld]), hflush.older_full, hfull, ?_, ?_, ?_⟩
  · intro hnone
    exact absurd (hmax.symm.trans hnone) (Option.some_ne_none m)
  · rw [← hflush.rows]
    simp [hheld]
  · intro hduck
    simp [hduck]
  · intro hduck
    simp [hduck]
  · intro hnone
    exact absurd (hmax.symm.trans hnone) (Option.some_ne_none m)

end Stored

/-! ### The loop of a commit -/

/-- The number of rows that the appender holds after `n` more rows, with no new table. -/
def cachedAfter (appenderFull : Nat → Bool) : Nat → Nat → Nat
  | held, 0 => held
  | held, n + 1 => cachedAfter appenderFull (if appenderFull (held + 1) then 0 else held + 1) n

/-- The last table has room for `n` more rows and one. -/
def Room (p : Params) (s : State ρ) (n : Nat) : Prop :=
  ∀ m, p.tableCntMax = some m → ((s.tableCnt + n : Nat) : Int) < max 1 m

/-- A row can be inserted: the statement or the appender is that of the last table. -/
def Ready (p : Params) (s : State ρ) (done : List ρ) : Prop :=
  ∃ older full last, Stored p s older full last s.tableCnt done ∧ Room p s 0 ∧
    s.target = last.name

/-- Where `n` rows leave the counters when there is room for them. -/
structure Tracks (p : Params) (s s' : State ρ) (n : Nat) : Prop where
  tableIdx : s'.tableIdx = s.tableIdx
  tableCnt : p.tableCntMax ≠ none → s'.tableCnt = s.tableCnt + n
  held : p.backend = .duckdb → s'.held.length = cachedAfter p.appenderFull s.held.length n

lemma append_held (hduck : p.backend = .duckdb) :
    (s.append p row).held.length = cachedAfter p.appenderFull s.held.length 1 := by
  rw [State.append]
  simp only [cachedAfter, hduck, true_and, List.length_append, List.length_singleton]
  split_ifs <;> simp

lemma Ready.commitRow {i : Nat} (h : Ready p s done) (hrow : s.cache i = some row) :
    ∃ s', s.commitRow p i = some s' ∧ Ready p s' (done ++ [row]) ∧ Frame s s' ∧
      (Room p s 1 → Tracks p s s' 1) := by
  obtain ⟨older, full, last, hstored, hroom, htarget⟩ := h
  obtain ⟨last', hname, happend⟩ := hstored.append htarget row
  have hframe := append_frame (p := p) s row
  have htarget' : (s.append p row).target = last'.name := by rw [append_target, htarget, hname]
  rw [State.commitRow, hrow, Option.bind_some, State.tableCntCheck]
  cases hmax : p.tableCntMax with
  | none =>
    refine ⟨_, rfl, ⟨older, full, last', ?_, ?_, htarget'⟩, hframe, fun _ => ⟨append_tableIdx, ?_,
      append_held⟩⟩
    · exact { happend with counted := .inr hmax }
    · intro m hm
      exact absurd (hmax.symm.trans hm).symm (Option.some_ne_none m)
    · exact fun hne => absurd hmax hne
  | some m =>
    have hlt := hroom m hmax
    simp only [append_tableCnt]
    split_ifs with hge
    · have hcnt : ((s.tableCnt + 1 : Nat) : Int) = max 1 m := by omega
      have hcounted : Stored p { s.append p row with tableCnt := s.tableCnt + 1 } older full last'
          (s.tableCnt + 1) (done ++ [row]) := { happend with }
      obtain ⟨s', full', last₁, hnext, hstored', hzero, htarget₁, hframe'⟩ :=
        hcounted.nextTable hmax hcnt
      refine ⟨s', hnext, ⟨older, full', last₁, hzero ▸ hstored', ?_, htarget₁⟩, ?_, ?_⟩
      · intro m' hm'
        rw [hzero]
        omega
      · exact hframe.trans ⟨hframe'.cache, hframe'.saveCnt, hframe'.finished⟩
      · intro hroom'
        have hroom₁ := hroom' m hmax
        omega
    · refine ⟨_, rfl, ⟨older, full, last', { happend with }, ?_, htarget'⟩,
        ⟨hframe.cache, hframe.saveCnt, hframe.finished⟩, fun _ =>
        ⟨append_tableIdx, fun _ => rfl, append_held⟩⟩
      intro m' hm'
      cases hmax.symm.trans hm'
      show ((s.tableCnt + 1 + 0 : Nat) : Int) < max 1 m
      omega

lemma Room.mono {n k : Nat} (h : Room p s n) (hle : k ≤ n) : Room p s k := by
  intro m hm
  have hlt := h m hm
  omega

lemma Tracks.trans {s₁ s₂ s₃ : State ρ} {n : Nat} (h : Tracks p s₁ s₂ 1) (h' : Tracks p s₂ s₃ n) :
    Tracks p s₁ s₃ (n + 1) := by
  refine ⟨h'.tableIdx.trans h.tableIdx, fun hne => ?_, fun hduck => ?_⟩
  · rw [h'.tableCnt hne, h.tableCnt hne, Nat.add_assoc, Nat.add_comm 1 n]
  · rw [h'.held hduck, h.held hduck, cachedAfter, cachedAfter, cachedAfter]

lemma Ready.commitRows (h : Ready p s done) (rows : List ρ) (start : Nat)
    (hcache : ∀ i (hi : i < rows.length), s.cache (start + i) = some rows[i]) :
    ∃ s', (List.range' start rows.length).foldlM (State.commitRow p) s = some s' ∧
      Ready p s' (done ++ rows) ∧ Frame s s' ∧
      (Room p s rows.length → Tracks p s s' rows.length) := by
  induction rows generalizing s done start with
  | nil =>
    refine ⟨s, rfl, by simpa using h, .refl s, fun _ => ⟨rfl, fun _ => rfl, fun _ => rfl⟩⟩
  | cons row rows ih =>
    obtain ⟨s₁, hrow, hready, hframe, htracks⟩ := h.commitRow (hcache 0 (Nat.zero_lt_succ _))
    have hcache' : ∀ i (hi : i < rows.length), s₁.cache (start + 1 + i) = some rows[i] := by
      intro i hi
      rw [hframe.cache, Nat.add_assoc, Nat.add_comm 1 i]
      exact hcache (i + 1) (Nat.succ_lt_succ hi)
    obtain ⟨s', hrows, hready', hframe', htracks'⟩ := ih hready (start + 1) hcache'
    refine ⟨s', ?_, by simpa using hready', hframe.trans hframe', fun hroom => ?_⟩
    · rw [List.length_cons, List.range'_succ, List.foldlM_cons, Nat.add_zero] at *
      rw [hrow]
      exact hrows
    · have h₁ := htracks (hroom.mono (by simp))
      refine h₁.trans (htracks' fun m hm => ?_)
      have hlt := hroom m hm
      rw [h₁.tableCnt (by simp [hm])]
      rw [List.length_cons] at hlt
      omega

/-! ### A new file -/

lemma createDb_eq (hnew : ∀ file ∈ s.files, file.name ≠ s.fullpathName)
    (hname : p.backend = .duckdb → s.tableName = p.tableNameAt 0)
    (hcreate : p.tableCntMax = none → s.createTableCmd = p.tableNameAt 0) :
    s.createDb p = some { s with
      files := s.files ++ [⟨s.fullpathName, [⟨p.tableNameAt 0, []⟩]⟩]
      availableFiles := s.availableFiles ++ [s.fullpathName]
      tableIdx := if p.tableCntMax.isSome then 0 else s.tableIdx
      tableCnt := if p.tableCntMax.isSome then 0 else s.tableCnt
      createTableCmd := p.tableNameAt 0
      prepareCmd := if p.tableCntMax.isSome then p.tableNameAt 0 else s.prepareCmd
      target := if p.backend = .duckdb then p.tableNameAt 0 else s.target
      held := if p.backend = .duckdb then [] else s.held } := by
  have hfilter : s.files.filter (fun file => decide (file.name ≠ s.fullpathName)) = s.files :=
    List.filter_eq_self.mpr fun file hmem => decide_eq_true (hnew file hmem)
  rw [State.createDb]
  simp only [hfilter]
  cases hmax : p.tableCntMax with
  | none =>
    have hopened : Opened { s with
        files := s.files ++ [⟨s.fullpathName, []⟩]
        availableFiles := s.availableFiles ++ [s.fullpathName]
        createTableCmd := p.tableNameAt 0 } s.files [] := ⟨rfl, hnew⟩
    have h := hopened.createTable (p := p) (by simp) hname
    simp only [hmax, Option.isSome_none, Bool.false_eq_true, if_false, hcreate hmax,
      List.nil_append] at h ⊢
    rw [← h]
  | some m =>
    have hopened : Opened { s with
        files := s.files ++ [⟨s.fullpathName, []⟩]
        availableFiles := s.availableFiles ++ [s.fullpathName]
        tableIdx := 0
        tableCnt := 0
        createTableCmd := p.tableNameAt 0
        prepareCmd := p.tableNameAt 0 } s.files [] := ⟨rfl, hnew⟩
    have h := hopened.createTable (p := p) (by simp) hname
    simp only [hmax, Option.isSome_some, if_true, List.nil_append] at h ⊢
    rw [h]

/-! ### Calls -/

/-- Between two calls the database has been handed `done`; only an appender holds rows then. -/
def Handed (p : Params) (s : State ρ) (done : List ρ) : Prop :=
  (∃ older full last, Stored p s older full last s.tableCnt done) ∧ Room p s 0 ∧
    (p.backend ≠ .duckdb → s.held = [])

/-- The rows in the cache. -/
structure Buffered (s : State ρ) (rows : List ρ) : Prop where
  saveCnt : s.saveCnt = rows.length + 1
  cache : ∀ i (hi : i < rows.length), s.cache (1 + i) = some rows[i]

/-- What a commit of `n` rows needs of an appender when the next file follows: it holds nothing
then, and its table is still the first one. -/
def RollsSafely (p : Params) (s : State ρ) (n size : Nat) : Prop :=
  p.backend = .duckdb → s.finished = false →
    (∃ sizeLimit, p.sizeLimit = some sizeLimit ∧ (size : Int) > sizeLimit) →
      s.tableIdx = 0 ∧ Room p s n ∧ cachedAfter p.appenderFull s.held.length n = 0

lemma handed_createDb (hpath : s.fullpathName = p.fileNameAt s.fileCount)
    (hnames : ∀ file ∈ s.files, ∃ i < s.fileCount, file.name = p.fileNameAt i)
    (hfull : ∀ file ∈ s.files, ∀ t ∈ file.tables.dropLast, IsFull p t)
    (hone : p.sizeLimit = none → s.fileCount = 0)
    (hcmds : p.tableCntMax = none → s.tableIdx = 0 ∧ s.createTableCmd = p.tableNameAt 0 ∧
      (p.backend ≠ .duckdb → s.prepareCmd = p.tableNameAt 0))
    (hname : p.backend = .duckdb → s.tableName = p.tableNameAt 0) (hheld : s.held = []) :
    ∃ s', s.createDb p = some s' ∧ Handed p s' s.rows ∧ Frame s s' := by
  have hnew : ∀ file ∈ s.files, file.name ≠ s.fullpathName := by
    intro file hmem
    obtain ⟨i, hlt, hfile⟩ := hnames file hmem
    rw [hfile, hpath]
    cases hlimit : p.sizeLimit with
    | none => exact absurd (hone hlimit ▸ hlt) (Nat.not_lt_zero i)
    | some limit => exact fileNameAt_ne (by simp [hlimit]) hlt
  have hcreate := createDb_eq hnew hname fun hmax => (hcmds hmax).2.1
  refine ⟨_, hcreate, ⟨⟨s.files, [], ⟨p.tableNameAt 0, []⟩, ?_⟩, ?_, ?_⟩, ⟨rfl, rfl, rfl⟩⟩
  · refine ⟨⟨rfl, hpath, hnames, by simp, ?_, hone, ?_⟩, ?_, ?_, ?_, hfull, by simp, ?_, ?_,
      fun _ => rfl⟩
    · cases hmax : p.tableCntMax with
      | none => simp [(hcmds hmax).1]
      | some m => simp
    · intro hmax
      simp [hmax, (hcmds hmax).1]
    · simp [hheld]
    · simp [hheld, State.rows]
    · cases hmax : p.tableCntMax with
      | none => exact .inr rfl
      | some m => simp [hheld]
    · intro hduck
      simp [hduck, hname hduck]
    · intro hduck
      cases hmax : p.tableCntMax with
      | none => simp [(hcmds hmax).2.2 hduck]
      | some m => simp
  · intro m hmax
    simp only [hmax, Option.isSome_some, if_true]
    omega
  · intro hduck
    simp [hduck, hheld]

lemma Handed.sizeLimitCheck (size : Nat) (h : Handed p s done)
    (hroll : p.backend = .duckdb → s.finished = false →
      (∃ sizeLimit, p.sizeLimit = some sizeLimit ∧ (size : Int) > sizeLimit) →
        s.tableIdx = 0 ∧ s.held = []) :
    ∃ s', s.sizeLimitCheck p size = some s' ∧ Handed p s' done ∧ Frame s s' := by
  rw [State.sizeLimitCheck]
  cases hlimit : p.sizeLimit with
  | none => exact ⟨s, rfl, h, .refl s⟩
  | some limit =>
    dsimp only
    split_ifs with hfin hgt
    · exact ⟨s, rfl, h, .refl s⟩
    · obtain ⟨⟨older, full, last, hstored⟩, -, hheld⟩ := h
      have hrolls : p.backend = .duckdb → s.tableIdx = 0 ∧ s.held = [] := fun hduck =>
        hroll hduck (by simpa using hfin) ⟨limit, hlimit, hgt⟩
      have hempty : s.held = [] := by
        by_cases hduck : p.backend = .duckdb
        · exact (hrolls hduck).2
        · exact hheld hduck
      have hrows := hstored.rows_eq hempty
      have hcreate := handed_createDb (p := p) (s := { s with
        fileCount := s.fileCount + 1
        fullpathName := p.fileNameAt (s.fileCount + 1) }) rfl ?_ ?_ ?_ ?_ ?_ hempty
      · obtain ⟨s', hs', hhanded, hframe⟩ := hcreate
        exact ⟨s', hs', hrows ▸ hhanded, hframe.cache, hframe.saveCnt, hframe.finished⟩
      · show ∀ file ∈ s.files, _
        rw [hstored.files]
        intro file hmem
        rcases List.mem_append.mp hmem with hmem | hmem
        · obtain ⟨i, hlt, hname⟩ := hstored.older_names file hmem
          exact ⟨i, Nat.lt_succ_of_lt hlt, hname⟩
        · rw [List.mem_singleton.mp hmem]
          exact ⟨s.fileCount, Nat.lt_succ_self _, hstored.fullpathName⟩
      · show ∀ file ∈ s.files, _
        rw [hstored.files]
        intro file hmem
        rcases List.mem_append.mp hmem with hmem | hmem
        · exact hstored.older_full file hmem
        · rw [List.mem_singleton.mp hmem, List.dropLast_concat]
          exact hstored.full_full
      · intro hnone
        exact absurd (hlimit.symm.trans hnone) (Option.some_ne_none limit)
      · intro hmax
        have hidx := hstored.one_table hmax
        refine ⟨hidx, hstored.creates hmax, fun hduck => ?_⟩
        show s.prepareCmd = _
        rw [hstored.statement hduck, hstored.last_name, hidx]
      · intro hduck
        show s.tableName = _
        rw [(hstored.appender hduck).2, hstored.last_name, (hrolls hduck).1]
    · exact ⟨s, rfl, h, .refl s⟩

lemma Handed.ready (h : Handed p s done) (hduck : p.backend = .duckdb) : Ready p s done := by
  obtain ⟨⟨older, full, last, hstored⟩, hroom, -⟩ := h
  exact ⟨older, full, last, hstored, hroom, (hstored.appender hduck).1⟩

lemma Handed.prepare (h : Handed p s done) (hduck : p.backend ≠ .duckdb) :
    ∃ s', s.prepare = some s' ∧ Ready p s' done ∧ Frame s s' := by
  obtain ⟨⟨older, full, last, hstored⟩, hroom, -⟩ := h
  have hname := hstored.statement hduck
  have hhas : s.hasTable s.prepareCmd = true := (hstored.toLayout.opened.hasTable_iff _).mpr
    ⟨last, List.mem_append_right _ List.mem_cons_self, hname.symm⟩
  refine ⟨{ s with target := s.prepareCmd }, if_pos hhas, ⟨older, full, last, ?_, hroom, hname⟩,
    rfl, rfl, rfl⟩
  exact { hstored with appender := fun hb => absurd hb hduck }

lemma Ready.handed (h : Ready p s done) (hheld : p.backend ≠ .duckdb → s.held = []) :
    Handed p s done := by
  obtain ⟨older, full, last, hstored, hroom, -⟩ := h
  exact ⟨⟨older, full, last, hstored⟩, hroom, hheld⟩

lemma Handed.flush (h : Handed p s done) : Handed p s.flush done := by
  obtain ⟨⟨older, full, last, hstored⟩, hroom, -⟩ := h
  exact ⟨⟨older, full, _, hstored.flush⟩, hroom, fun _ => rfl⟩

lemma Handed.commitBatch {rows : List ρ} (h : Handed p s done) (hrows : Buffered s rows) :
    ∃ s', s.commitBatch p = some s' ∧ Handed p s' (done ++ rows) ∧ Frame s s' ∧
      (p.backend = .duckdb → Room p s rows.length → Tracks p s s' rows.length) := by
  have hcount : s.saveCnt - 1 = rows.length := by rw [hrows.saveCnt, Nat.add_sub_cancel]
  by_cases hduck : p.backend = .duckdb
  · obtain ⟨s', hs', hready, hframe, htracks⟩ := (h.ready hduck).commitRows rows 1 hrows.cache
    rw [State.commitBatch, if_pos hduck, State.commitRows, hcount]
    exact ⟨s', hs', hready.handed fun hne => absurd hduck hne, hframe, fun _ => htracks⟩
  · obtain ⟨s₁, hs₁, hready₁, hframe₁⟩ := h.prepare hduck
    obtain ⟨s₂, hs₂, hready₂, hframe₂, -⟩ := hready₁.commitRows rows 1 fun i hi => by
      rw [hframe₁.cache]
      exact hrows.cache i hi
    have hloop : s₁.commitRows p = some s₂ := by
      rw [State.commitRows, hframe₁.saveCnt, hcount, hs₂]
    obtain ⟨older, full, last, hstored, hroom, -⟩ := hready₂
    rw [State.commitBatch, if_neg hduck, hs₁, Option.bind_eq_bind, Option.bind_some, hloop]
    exact ⟨s₂.flush, rfl, ⟨⟨older, full, _, hstored.flush⟩, hroom, fun _ => rfl⟩,
      (hframe₁.trans hframe₂).trans (flush_frame s₂), fun hb => absurd hb hduck⟩

lemma Handed.commit {rows : List ρ} {size : Nat} (h : Handed p s done) (hrows : Buffered s rows)
    (hroll : RollsSafely p s rows.length size) :
    ∃ s', s.commit p p.pid size = some s' ∧ Handed p s' (done ++ rows) ∧ Buffered s' [] := by
  obtain ⟨s₁, hs₁, hhanded, hframe, htracks⟩ := h.commitBatch hrows
  have hreset : Handed p { s₁ with saveCnt := 1 } (done ++ rows) := by
    obtain ⟨⟨older, full, last, hstored⟩, hroom, hheld⟩ := hhanded
    exact ⟨⟨older, full, last, { hstored with }⟩, hroom, hheld⟩
  obtain ⟨s', hs', hhanded', hframe'⟩ := hreset.sizeLimitCheck size fun hduck hfin hgt => by
    obtain ⟨hidx, hroom, hzero⟩ := hroll hduck (hframe.finished ▸ hfin) hgt
    have htracks' := htracks hduck hroom
    exact ⟨htracks'.tableIdx.trans hidx,
      List.eq_nil_of_length_eq_zero ((htracks'.held hduck).trans hzero)⟩
  refine ⟨s', ?_, hhanded', hframe'.saveCnt, fun i hi => absurd hi (Nat.not_lt_zero i)⟩
  rw [State.commit, if_neg (not_not_intro rfl), hs₁, Option.bind_eq_bind, Option.bind_some]
  exact hs'

/-- What is saved is in the tables, with the transaction or the appender, or in the cache. -/
def Inv (p : Params) (s : State ρ) (saved : List ρ) : Prop :=
  ∃ done rows, Handed p s done ∧ Buffered s rows ∧ done ++ rows = saved

lemma Inv.commit {saved : List ρ} {size : Nat} (h : Inv p s saved)
    (hroll : RollsSafely p s (s.saveCnt - 1) size) :
    ∃ s', s.commit p p.pid size = some s' ∧ Handed p s' saved ∧ Buffered s' [] := by
  obtain ⟨done, rows, hhanded, hrows, rfl⟩ := h
  rw [hrows.saveCnt, Nat.add_sub_cancel] at hroll
  exact hhanded.commit hrows hroll

lemma Handed.inv (h : Handed p s done) (hrows : Buffered s []) : Inv p s done :=
  ⟨done, [], h, hrows, List.append_nil done⟩

lemma Inv.save {saved : List ρ} {size : Nat} (h : Inv p s saved) (row : ρ)
    (hroll : (s.saveCnt : Int) ≥ p.saveCntMax.getD 10000 → RollsSafely p s s.saveCnt size) :
    ∃ s', s.save p p.pid size row = some s' ∧ Inv p s' (saved ++ [row]) := by
  obtain ⟨done, rows, hhanded, hrows, rfl⟩ := h
  have hcache : Buffered { s with
      cache := Function.update s.cache s.saveCnt (some row)
      saveCnt := s.saveCnt + 1 } (rows ++ [row]) := by
    refine ⟨?_, fun i hi => ?_⟩
    · simp [hrows.saveCnt]
    · dsimp only
      rw [hrows.saveCnt]
      by_cases hlt : i < rows.length
      · rw [Function.update_of_ne (by omega), List.getElem_append_left hlt]
        exact hrows.cache i hlt
      · have heq : i = rows.length := by
          rw [List.length_append, List.length_singleton] at hi
          omega
        subst heq
        rw [Nat.add_comm 1, Function.update_self]
        simp
  have hinv : Inv p { s with
      cache := Function.update s.cache s.saveCnt (some row)
      saveCnt := s.saveCnt + 1 } (done ++ rows ++ [row]) := by
    obtain ⟨⟨older, full, last, hstored⟩, hroom, hheld⟩ := hhanded
    exact ⟨done, rows ++ [row], ⟨⟨older, full, last, { hstored with }⟩, hroom, hheld⟩, hcache,
      (List.append_assoc ..).symm⟩
  rw [State.save]
  split_ifs with hge
  · obtain ⟨s', hs', hhanded', hrows'⟩ := hinv.commit (hroll hge)
    exact ⟨s', hs', hhanded'.inv hrows'⟩
  · exact ⟨_, rfl, hinv⟩

lemma Inv.cleanUp {saved : List ρ} {size : Nat} (h : Inv p s saved)
    (hroll : RollsSafely p s (s.saveCnt - 1) size) :
    ∃ s', s.cleanUp p p.pid size = some s' ∧ Handed p s' saved ∧ Buffered s' [] ∧
      s'.held = [] := by
  obtain ⟨s₁, hs₁, hhanded, hrows⟩ := h.commit hroll
  rw [State.cleanUp, hs₁, Option.bind_eq_bind, Option.bind_some]
  by_cases hduck : p.backend = .duckdb
  · rw [if_pos hduck]
    exact ⟨s₁.flush, rfl, hhanded.flush, ⟨hrows.saveCnt, hrows.cache⟩, rfl⟩
  · rw [if_neg hduck]
    exact ⟨s₁, rfl, hhanded, hrows, hhanded.2.2 hduck⟩

lemma Inv.finish {saved : List ρ} (h : Inv p s saved) : Inv p { s with finished := true } saved := by
  obtain ⟨done, rows, ⟨⟨older, full, last, hstored⟩, hroom, hheld⟩, hrows, hsaved⟩ := h
  exact ⟨done, rows, ⟨⟨older, full, last, { hstored with }⟩, hroom, hheld⟩,
    ⟨hrows.saveCnt, hrows.cache⟩, hsaved⟩

lemma inv_init (e : ρ) : ∃ s, State.init p e = some s ∧ Inv p s [] := by
  obtain ⟨s, hs, hhanded, hframe⟩ := handed_createDb (p := p) (s := {
    cache := fun i => if 1 ≤ i ∧ (i : Int) ≤ p.saveCntMax.getD 10000 then some e else none
    saveCnt := 1
    tableCnt := 0
    tableIdx := 0
    fileCount := 0
    tableName := p.tableNameAt 0
    createTableCmd := p.tableNameAt 0
    prepareCmd := p.tableNameAt 0
    fullpathName := p.fileNameAt 0
    finished := false
    availableFiles := []
    files := []
    target := ""
    held := [] }) rfl (by simp) (by simp) (fun _ => rfl) (fun _ => ⟨rfl, rfl, fun _ => rfl⟩)
      (fun _ => rfl) rfl
  exact ⟨s, hs, hhanded.inv ⟨hframe.saveCnt, fun i hi => absurd hi (Nat.not_lt_zero i)⟩⟩

/-- Where the call goes on to the next file, an appender holds nothing and its table is the first
one of its file. -/
def Safe (p : Params) (s : State ρ) : Act ρ → Prop
  | .save _ size => (s.saveCnt : Int) ≥ p.saveCntMax.getD 10000 → RollsSafely p s s.saveCnt size
  | .commit size | .cleanUp size => RollsSafely p s (s.saveCnt - 1) size
  | .final _ => True

lemma Inv.cleans {saved : List ρ} {a : Act ρ} {size : Nat} (h : Inv p s saved) (hsafe : Safe p s a)
    (ha : a = .cleanUp size ∨ a = .final size) :
    ∃ s', step p s a = some s' ∧ Handed p s' saved ∧ Buffered s' [] ∧ s'.held = [] := by
  rcases ha with rfl | rfl
  · exact h.cleanUp hsafe
  · exact h.finish.cleanUp fun _ hfin => Bool.noConfusion hfin

lemma Inv.step {saved : List ρ} {a : Act ρ} (h : Inv p s saved) (hsafe : Safe p s a) :
    ∃ s', step p s a = some s' ∧ Inv p s' (saved ++ savedRows [a]) := by
  cases a with
  | save row size => exact h.save row hsafe
  | commit size =>
    obtain ⟨s', hs', hhanded, hrows⟩ := h.commit hsafe
    exact ⟨s', hs', by simpa [savedRows] using hhanded.inv hrows⟩
  | cleanUp size =>
    obtain ⟨s', hs', hhanded, hrows, -⟩ := h.cleans hsafe (.inl rfl)
    exact ⟨s', hs', by simpa [savedRows] using hhanded.inv hrows⟩
  | final size =>
    obtain ⟨s', hs', hhanded, hrows, -⟩ := h.cleans hsafe (.inr rfl)
    exact ⟨s', hs', by simpa [savedRows] using hhanded.inv hrows⟩

/-- The last call cleans up. -/
def Act.cleansUp : Act ρ → Bool
  | .cleanUp _ | .final _ => true
  | _ => false

/-- After the clean-up the tables hold the saved rows, each once and in their order, and each table
but the last one of its file is full. -/
theorem rows_eq_savedRows (p : Params) (preAllocEntry : ρ) (acts : List (Act ρ)) (a : Act ρ)
    (ha : a.cleansUp = true)
    (hsafe : ∀ s, State.init p preAllocEntry = some s → Along (step p) (Safe p) s (acts ++ [a])) :
    ∃ s, session p preAllocEntry (acts ++ [a]) = some s ∧ s.rows = savedRows acts ∧
      ∀ m, p.tableCntMax = some m → ∀ file ∈ s.files, ∀ t ∈ file.tables.dropLast,
        (t.rows.length : Int) = max 1 m := by
  obtain ⟨s₀, hs₀, hinit⟩ := inv_init (p := p) preAllocEntry
  obtain ⟨halong, hlast⟩ := along_append.mp (hsafe s₀ hs₀)
  obtain ⟨s₁, hs₁, hinv⟩ := run_of_along (I := fun s acts => Inv p s (savedRows acts))
    (fun s past a h hok => by simpa [savedRows] using h.step hok) (show Inv p s₀ (savedRows []) from hinit) halong
  have hclean : ∃ size, a = .cleanUp size ∨ a = .final size := by
    cases a with
    | save row size | commit size => cases ha
    | cleanUp size => exact ⟨size, .inl rfl⟩
    | final size => exact ⟨size, .inr rfl⟩
  obtain ⟨size, ha'⟩ := hclean
  obtain ⟨s, hs, ⟨⟨older, full, last, hstored⟩, -, -⟩, -, hheld⟩ := hinv.cleans (hlast s₁ hs₁).1 ha'
  refine ⟨s, ?_, hstored.rows_eq hheld, fun m hm file hfile t ht => ?_⟩
  · rw [session, hs₀, Option.bind_some, run_append, hs₁, Option.bind_some, run, hs]
    rfl
  · rw [hstored.files] at hfile
    rcases List.mem_append.mp hfile with hfile | hfile
    · exact hstored.older_full file hfile t ht m hm
    · rw [List.mem_singleton.mp hfile, List.dropLast_concat] at ht
      exact hstored.full_full t ht m hm

/-! ### One run with SQLite, one with DuckDB -/

/-- Every save is a commit, and every commit goes on to the next file. -/
def everyRow (backend : Backend) : Params where
  backend := backend
  tableName := "a_table"
  fileName := "test.db"
  saveCntMax := some 1
  tableCntMax := none
  sizeLimit := some 1000
  pid := 1
  appenderFull := fun held => decide (held = 204800)

lemma safe_of_ne_duckdb (h : p.backend ≠ .duckdb) (a : Act ρ) : Safe p s a := by
  cases a with
  | save row size => exact fun _ hduck => absurd hduck h
  | commit size | cleanUp size => exact fun hduck => absurd hduck h
  | final size => trivial

theorem rows_eq_savedRows_sqlite3 :
    ∃ s, session (everyRow .sqlite3) 0 ([.save 5 12288, .save 6 12288] ++ [.final 4096]) = some s ∧
      s.rows = [5, 6] ∧
      ∀ m, (everyRow .sqlite3).tableCntMax = some m →
        ∀ file ∈ s.files, ∀ t ∈ file.tables.dropLast, (t.rows.length : Int) = max 1 m :=
  rows_eq_savedRows (everyRow .sqlite3) 0 [.save 5 12288, .save 6 12288] (.final 4096) rfl
    fun _ _ => along_of_forall (safe_of_ne_duckdb Backend.noConfusion)

/-- What the appender holds when the file is closed is in no table afterwards. -/
theorem not_rows_eq_savedRows :
    ¬ ∀ (p : Params) (preAllocEntry : Nat) (acts : List (Act Nat)) (a : Act Nat),
      a.cleansUp = true → ∃ s, session p preAllocEntry (acts ++ [a]) = some s ∧
        s.rows = savedRows acts ∧ ∀ m, p.tableCntMax = some m →
          ∀ file ∈ s.files, ∀ t ∈ file.tables.dropLast, (t.rows.length : Int) = m := by
  intro hall
  obtain ⟨s, hs, hrows, -⟩ := hall (everyRow .duckdb) 0 [.save 5 12288] (.final 12288) rfl
  have hlost : (session (everyRow .duckdb) 0 ([.save 5 12288] ++ [.final 12288])).map State.rows =
      some [] := by decide +kernel
  rw [hs, Option.map_some, hrows] at hlost
  exact absurd hlost (by decide)

end Verilua.LuaDataBase
