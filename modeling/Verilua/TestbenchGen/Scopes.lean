import Verilua.TestbenchGen.Bench

/-!
# The scopes of the bench

The bench is well scoped when every name is declared once and every name that is used is declared.
The names that it declares are those of the design, of which the selected ones are declared as the
clock and the reset, and some of its own. So it is well scoped exactly if the design keeps away from
the names of its own, and uses no name that is neither.
-/

namespace Verilua.TestbenchGen

/-! ### What a text declares and uses -/

def Item.declares : Item → List Text
  | .parameter name _ => [name]
  | .declare name _ => [name]
  | .assign _ _ => []
  | .process _ => []
  | .exportDpi _ => []
  | .function name _ => [name]
  | .instantiate _ name _ => [name]

/-- A line that is no process is read as statements, too. -/
def Item.stmts (env : Macro → Bool) : Item → List Stmt
  | .parameter _ uses => [{ uses := uses }]
  | .declare _ uses => [{ uses := uses }]
  | .assign target source => [{ writes := [target], uses := [source] }]
  | .process body => preprocess env body
  | .exportDpi name => [{ uses := [name] }]
  | .function _ body => preprocess env body
  | .instantiate _ _ connections => connections.map fun c => { uses := c.2 }

/-- No block declares a name twice, and every name is that of a block or of the scope around. -/
def Stmt.Resolved (scope : Text → Prop) (s : Stmt) : Prop :=
  (∀ b ∈ s.blocks, b.Nodup) ∧ ∀ x ∈ s.writes ++ s.uses, x ∈ s.blocks.flatten ∨ scope x

def declaredBy (env : Macro → Bool) (text : List (Source Item)) : List Text :=
  (preprocess env text).flatMap Item.declares

def Throughout {α : Type} (env : Macro → Bool) (P : α → Prop) (text : List (Source α)) : Prop :=
  ∀ a ∈ preprocess env text, P a

def Item.Resolved (env : Macro → Bool) (scope : Text → Prop) (item : Item) : Prop :=
  ∀ stmt ∈ item.stmts env, stmt.Resolved scope

section Preprocess

variable {α β : Type} {env : Macro → Bool} {ss ts us : List (Source α)} {a : α} {P : α → Prop}

lemma preprocess_line : preprocess env (.line a :: ss) = a :: preprocess env ss := rfl

lemma preprocess_ifdef {m : Macro} : preprocess env (.ifdef m ss ts :: us) =
    (if env m then preprocess env ss else preprocess env ts) ++ preprocess env us := by
  rw [preprocess, Source.lines]

lemma preprocess_append : preprocess env (ss ++ ts) = preprocess env ss ++ preprocess env ts := by
  induction ss with
  | nil => rfl
  | cons s ss ih => rw [List.cons_append, preprocess, preprocess, ih, List.append_assoc]

lemma preprocess_lines (f : β → α) (l : List β) :
    preprocess env (l.map fun b => .line (f b)) = l.map f := by
  induction l with
  | nil => rfl
  | cons b l ih => rw [List.map_cons, preprocess_line, ih, List.map_cons]

@[simp] lemma throughout_nil : Throughout env P [] := nofun

@[simp] lemma throughout_line :
    Throughout env P (.line a :: ss) ↔ P a ∧ Throughout env P ss := List.forall_mem_cons

@[simp] lemma throughout_append :
    Throughout env P (ss ++ ts) ↔ Throughout env P ss ∧ Throughout env P ts := by
  rw [Throughout, preprocess_append, List.forall_mem_append]
  rfl

@[simp] lemma throughout_ifdef {m : Macro} : Throughout env P (.ifdef m ss ts :: us) ↔
    (if env m then Throughout env P ss else Throughout env P ts) ∧ Throughout env P us := by
  rw [Throughout, preprocess_ifdef, List.forall_mem_append]
  split_ifs <;> rfl

@[simp] lemma throughout_lines {f : β → α} {l : List β} :
    Throughout env P (l.map fun b => .line (f b)) ↔ ∀ b ∈ l, P (f b) := by
  rw [Throughout, preprocess_lines, List.forall_mem_map]

lemma throughout_flatMap {f : β → List (Source α)} {l : List β} :
    Throughout env P (l.flatMap f) ↔ ∀ b ∈ l, Throughout env P (f b) := by
  induction l with
  | nil => simp
  | cons b l ih => rw [List.flatMap_cons, throughout_append, ih, List.forall_mem_cons]

end Preprocess

section Texts

variable {env : Macro → Bool} {scope : Text → Prop} {s t u : List (Source Item)} {item : Item}

@[simp] lemma declaredBy_nil : declaredBy env [] = [] := rfl

@[simp] lemma declaredBy_line :
    declaredBy env (.line item :: s) = item.declares ++ declaredBy env s := rfl

@[simp] lemma declaredBy_ifdef {m : Macro} : declaredBy env (.ifdef m s t :: u) =
    (if env m then declaredBy env s else declaredBy env t) ++ declaredBy env u := by
  rw [declaredBy, preprocess_ifdef, List.flatMap_append, apply_ite (List.flatMap Item.declares)]
  rfl

@[simp] lemma declaredBy_append :
    declaredBy env (s ++ t) = declaredBy env s ++ declaredBy env t := by
  rw [declaredBy, preprocess_append, List.flatMap_append]
  rfl

@[simp] lemma declaredBy_ite {p : Prop} [Decidable p] :
    declaredBy env (if p then s else t) = if p then declaredBy env s else declaredBy env t :=
  apply_ite _ _ _ _

@[simp] lemma resolved_declare {name : Text} {uses : List Text} :
    (Item.declare name uses).Resolved env scope ↔ ∀ x ∈ uses, scope x := by
  simp [Item.Resolved, Item.stmts, Stmt.Resolved]

@[simp] lemma resolved_parameter {name : Text} {uses : List Text} :
    (Item.parameter name uses).Resolved env scope ↔ ∀ x ∈ uses, scope x := by
  simp [Item.Resolved, Item.stmts, Stmt.Resolved]

@[simp] lemma resolved_assign {target source : Text} :
    (Item.assign target source).Resolved env scope ↔ scope target ∧ scope source := by
  simp [Item.Resolved, Item.stmts, Stmt.Resolved]

@[simp] lemma resolved_exportDpi {name : Text} :
    (Item.exportDpi name).Resolved env scope ↔ scope name := by
  simp [Item.Resolved, Item.stmts, Stmt.Resolved]

@[simp] lemma resolved_process {body : List (Source Stmt)} :
    (Item.process body).Resolved env scope ↔ Throughout env (Stmt.Resolved scope) body := Iff.rfl

@[simp] lemma resolved_function {name : Text} {body : List (Source Stmt)} :
    (Item.function name body).Resolved env scope ↔ Throughout env (Stmt.Resolved scope) body :=
  Iff.rfl

@[simp] lemma resolved_instantiate {module name : Text} {cs : List (Text × List Text)} :
    (Item.instantiate module name cs).Resolved env scope ↔ ∀ c ∈ cs, ∀ x ∈ c.2, scope x := by
  rw [Item.Resolved, Item.stmts, List.forall_mem_map]
  simp [Stmt.Resolved]

end Texts

/-! ### The names of the bench -/

section Names

variable (sim : Simulator) (features : Feature → Bool) (idents : Text → List Text) (g : Bench)

def declared : List Text := declaredBy (defines sim features) (tbTop idents g)

/-- The names that the bench declares beside those of the design. -/
def reserved : List Text :=
  (if g.clockSignalName = Name.clock then [] else [Name.clock]) ++
  (if g.resetSignalName = Name.reset ∨ g.resetSignalName = [] ∧ sim ≠ .verilator then []
    else [Name.reset]) ++
  (if sim = .verilator then [Name.cyclesO] else []) ++
  [Name.cycles] ++ [g.dutName] ++ [Name.others] ++ traceNames ++
  if sim = .iverilog then traceNames.map latch else []

/-- The names of the design, and that of the clock. -/
def designNames : List Text :=
  g.clockSignalName :: (g.portInfos.map PortInfo.name ++ g.portParams.map PortParam.name)

/-- The names of the ports as the bench declares them, the selected ones first. -/
def portNames : List Text :=
  g.clockSignalName :: ((if g.resetSignalName = [] then [] else [g.resetSignalName]) ++
    g.others.map PortInfo.name)

def InScope (x : Text) : Prop := x = g.tbtopName ∨ x ∈ designNames g ∨ x ∈ reserved sim g

/-- The selected names are names of ports, or the clock is the default and there is no reset. -/
structure Bench.Selects : Prop where
  clock_ne : g.clockSignalName ≠ []
  clock_mem : g.clockSignalName ∈ g.portInfos.map PortInfo.name ∨
    g.clockSignalName = Name.clock
  reset_mem : g.resetSignalName = [] ∨ g.resetSignalName ∈ g.portInfos.map PortInfo.name
  name_ne : ∀ p ∈ g.portInfos, p.name ≠ []
  nodup : (g.portParams.map PortParam.name ++ g.portInfos.map PortInfo.name).Nodup

variable {sim features idents g}

@[simp] lemma defines_sim {s : Simulator} :
    defines sim features (.sim s) = decide (sim = s) := rfl

lemma declaredBy_header : declaredBy (defines sim features) (header idents g) =
    g.portParams.map PortParam.name ++ if sim = .verilator then
      [Name.clock] ++ [Name.reset] ++ [Name.cyclesO] else [] := by
  rw [header, declaredBy_append, declaredBy, preprocess_lines, List.flatMap_map]
  congr 1
  · exact List.map_eq_flatMap.symm
  · simp [Item.declares]

lemma declaredBy_clockAndReset : declaredBy (defines sim features) (clockAndReset g) =
    if sim = .verilator then [] else [g.clockSignalName] ++
      if g.resetSignalName = [] then [] else [Name.reset] ++
        if g.resetSignalName = Name.reset then [] else [g.resetSignalName] := by
  simp [clockAndReset, Item.declares]

lemma declaredBy_clockAlias (hne : g.clockSignalName ≠ []) :
    declaredBy (defines sim features) (clockAlias g) =
      if g.clockSignalName = Name.clock then []
      else if sim = .verilator then [g.clockSignalName] else [Name.clock] := by
  simp [clockAlias, Item.declares, hne]

lemma declaredBy_resetAlias : declaredBy (defines sim features) (resetAlias g) =
    if g.resetSignalName ≠ Name.reset ∧ g.resetSignalName ≠ [] then
      if sim = .verilator then [g.resetSignalName] else []
    else [] := by
  simp [resetAlias, Item.declares]

lemma declaredBy_counter : declaredBy (defines sim features) (counter g) = [Name.cycles] := by
  simp [counter, Item.declares]

lemma declaredBy_signalDecl :
    declaredBy (defines sim features) (signalDecl idents g) = g.others.map PortInfo.name := by
  rw [signalDecl, declaredBy, preprocess_lines, List.flatMap_map]
  exact List.map_eq_flatMap.symm

lemma declaredBy_tracing : declaredBy (defines sim features) (tracing g) =
    if sim = .iverilog then traceNames.flatMap fun name => [name, latch name] else traceNames := by
  by_cases hsim : sim = .iverilog <;> simp [tracing, traceNames, Item.declares, hsim]

/-- The clock is declared under every simulator, and so is `clock`. -/
lemma clock_perm (p : Prop) [Decidable p] (name : Text) :
    ((if p then [Name.clock] else [name]) ++
      if name = Name.clock then [] else if p then [name] else [Name.clock]).Perm
    ([name] ++ if name = Name.clock then [] else [Name.clock]) := by
  by_cases hp : p <;> by_cases hname : name = Name.clock
  · simp [hp, hname]
  · simpa [hp, hname] using List.Perm.swap name Name.clock []
  · simp [hp, hname]
  · simp [hp, hname]

/-- The reset is declared when there is one, and then `reset` is, which is an input otherwise. -/
lemma reset_perm (p : Prop) [Decidable p] (name : Text) :
    ((if p then [Name.reset] else []) ++ ((if p then [] else if name = [] then [] else
      [Name.reset] ++ if name = Name.reset then [] else [name]) ++
        if name ≠ Name.reset ∧ name ≠ [] then if p then [name] else [] else [])).Perm
    ((if name = [] then [] else [name]) ++
      if name = Name.reset ∨ name = [] ∧ ¬ p then [] else [Name.reset]) := by
  by_cases hnone : name = []
  · by_cases hp : p <;> simp [hnone, hp, Name.reset_ne.symm]
  by_cases hreset : name = Name.reset
  · by_cases hp : p <;> simp [hreset, hp]
  · by_cases hp : p
    · simpa [hnone, hreset, hp] using List.Perm.swap name Name.reset []
    · simpa [hnone, hreset, hp] using List.Perm.swap name Name.reset []

lemma trace_perm : (traceNames.flatMap fun name => [name, latch name]).Perm
    (traceNames ++ traceNames.map latch) := by
  refine List.perm_iff_count.mpr fun x => ?_
  simp only [traceNames, List.flatMap_cons, List.flatMap_nil, List.map_cons, List.map_nil,
    List.cons_append, List.nil_append, List.count_cons, List.count_nil]
  omega

lemma declared_perm (hne : g.clockSignalName ≠ []) : (declared sim features idents g).Perm
    (g.portParams.map PortParam.name ++ portNames g ++ reserved sim g) := by
  have hprocess : declaredBy (defines sim features) (regInitialize idents g) = [] := rfl
  have hconnect : declaredBy (defines sim features) (signalConnect g) = [g.dutName] := rfl
  have hcommand : declaredBy (defines sim features) (command g) = [] := by
    simp [command, Item.declares]
  have huser : declaredBy (defines sim features) (userCode g) = [Name.others] := rfl
  have hports : portNames g = [g.clockSignalName] ++
      ((if g.resetSignalName = [] then [] else [g.resetSignalName]) ++
        g.others.map PortInfo.name) := rfl
  simp only [declared, tbTop, declaredBy_append, declaredBy_header, declaredBy_clockAndReset,
    declaredBy_clockAlias hne, declaredBy_resetAlias, declaredBy_counter, declaredBy_signalDecl,
    declaredBy_tracing, hprocess, hconnect, hcommand, huser, hports, reserved]
  refine List.perm_iff_count.mpr fun x => ?_
  have hclock := (clock_perm (sim = .verilator) g.clockSignalName).count_eq x
  have hreset := (reset_perm (sim = .verilator) g.resetSignalName).count_eq x
  have htrace := trace_perm.count_eq x
  simp only [List.count_append] at hclock hreset htrace ⊢
  by_cases hsim : sim = .verilator
  · subst hsim
    simp only [ne_eq, not_true_eq_false, and_false, or_false, reduceCtorEq, if_true, if_false,
      List.count_append, List.count_nil] at hclock hreset ⊢
    omega
  · simp only [ne_eq, hsim, not_false_eq_true, and_true, if_false, List.count_append,
      List.count_nil] at hclock hreset ⊢
    by_cases htext : sim = .iverilog
    · simp only [htext, if_true]
      omega
    · simp only [htext, if_false, List.count_nil]
      omega

lemma mem_others {p : PortInfo} : p ∈ g.others ↔
    p ∈ g.portInfos ∧ p.name ≠ g.clockSignalName ∧ p.name ≠ g.resetSignalName := by
  simp [Bench.others]

lemma mem_portNames (hg : g.Selects) {x : Text} :
    x ∈ portNames g ↔ x = g.clockSignalName ∨ x ∈ g.portInfos.map PortInfo.name := by
  constructor
  · rw [portNames, List.mem_cons, List.mem_append]
    rintro (hx | hx | hx)
    · exact .inl hx
    · split_ifs at hx with hnone
      · cases hx
      · obtain rfl := List.mem_singleton.mp hx
        exact .inr (hg.reset_mem.resolve_left hnone)
    · obtain ⟨p, hp, rfl⟩ := List.mem_map.mp hx
      exact .inr (List.mem_map_of_mem (mem_others.mp hp).1)
  · rintro (rfl | hx)
    · exact List.mem_cons_self
    · obtain ⟨p, hp, rfl⟩ := List.mem_map.mp hx
      by_cases hclock : p.name = g.clockSignalName
      · rw [hclock]
        exact List.mem_cons_self
      refine List.mem_cons_of_mem _ (List.mem_append.mpr ?_)
      by_cases hreset : p.name = g.resetSignalName
      · rw [← hreset, if_neg (hg.name_ne p hp)]
        exact .inl List.mem_cons_self
      · exact .inr (List.mem_map_of_mem (mem_others.mpr ⟨hp, hclock, hreset⟩))

lemma nodup_portNames_iff (hg : g.Selects) :
    (portNames g).Nodup ↔ g.clockSignalName ≠ g.resetSignalName := by
  have hports : (g.others.map PortInfo.name).Nodup :=
    (List.filter_sublist.map _).nodup (List.nodup_append.mp hg.nodup).2.1
  have hother : ∀ x ∈ g.others.map PortInfo.name,
      x ≠ g.clockSignalName ∧ x ≠ g.resetSignalName := by
    intro x hx
    obtain ⟨p, hp, rfl⟩ := List.mem_map.mp hx
    exact (mem_others.mp hp).2
  rw [portNames, List.nodup_cons]
  constructor
  · rintro ⟨hnot, -⟩ heq
    refine hnot (List.mem_append_left _ ?_)
    rw [← heq, if_neg hg.clock_ne]
    exact List.mem_cons_self
  · intro hne
    refine ⟨fun hmem => ?_, List.nodup_append.mpr ⟨?_, hports, ?_⟩⟩
    · rcases List.mem_append.mp hmem with hx | hx
      · split_ifs at hx
        · cases hx
        · exact hne (List.mem_singleton.mp hx)
      · exact (hother _ hx).1 rfl
    · split_ifs <;> simp
    · intro x hx y hy heq
      split_ifs at hx
      · cases hx
      · exact (hother y hy).2 (heq ▸ List.mem_singleton.mp hx)

lemma mem_declared_iff (hg : g.Selects) {x : Text} :
    x ∈ declared sim features idents g ↔ x ∈ designNames g ∨ x ∈ reserved sim g := by
  rw [(declared_perm hg.clock_ne).mem_iff, List.mem_append, List.mem_append]
  refine or_congr_left ?_
  rw [mem_portNames hg, designNames, List.mem_cons, List.mem_append]
  tauto

/-- No name is declared twice exactly if the two selections differ and the names of the bench keep
away from those of the design. -/
lemma nodup_declared_iff (hg : g.Selects) : (declared sim features idents g).Nodup ↔
    g.clockSignalName ≠ g.resetSignalName ∧
      g.clockSignalName ∉ g.portParams.map PortParam.name ∧
      (reserved sim g).Nodup ∧ ∀ x ∈ designNames g, x ∉ reserved sim g := by
  obtain ⟨hparams, -, hdesign⟩ := List.nodup_append.mp hg.nodup
  have hdisjoint : (∀ x ∈ g.portParams.map PortParam.name, ∀ y ∈ portNames g, x ≠ y) ↔
      g.clockSignalName ∉ g.portParams.map PortParam.name := by
    constructor
    · intro h hmem
      exact h _ hmem _ List.mem_cons_self rfl
    · intro hnot x hx y hy heq
      subst heq
      rcases (mem_portNames hg).mp hy with rfl | hy
      · exact hnot hx
      · exact hdesign x hx x hy rfl
  have hreserved : (∀ x ∈ g.portParams.map PortParam.name ++ portNames g,
      ∀ y ∈ reserved sim g, x ≠ y) ↔ ∀ x ∈ designNames g, x ∉ reserved sim g := by
    have hmem : ∀ x, x ∈ g.portParams.map PortParam.name ++ portNames g ↔ x ∈ designNames g := by
      intro x
      rw [List.mem_append, mem_portNames hg, designNames, List.mem_cons, List.mem_append]
      tauto
    simp only [hmem]
    exact ⟨fun h x hx hy => h x hx x hy rfl, fun h x hx y hy heq => h x hx (heq ▸ hy)⟩
  rw [(declared_perm hg.clock_ne).nodup_iff, List.nodup_append, List.nodup_append, nodup_portNames_iff hg, hdisjoint, hreserved]
  tauto

/-! ### The names that are used -/

lemma inScope_reserved {x : Text} (h : x ∈ reserved sim g) : InScope sim g x := .inr (.inr h)

lemma inScope_clock : InScope sim g g.clockSignalName := .inr (.inl List.mem_cons_self)

lemma inScope_port {p : PortInfo} (hp : p ∈ g.portInfos) : InScope sim g p.name :=
  .inr (.inl (List.mem_cons_of_mem _ (List.mem_append_left _ (List.mem_map_of_mem hp))))

lemma inScope_param {p : PortParam} (hp : p ∈ g.portParams) : InScope sim g p.name :=
  .inr (.inl (List.mem_cons_of_mem _ (List.mem_append_right _ (List.mem_map_of_mem hp))))

lemma inScope_reset (hg : g.Selects) (hne : g.resetSignalName ≠ []) :
    InScope sim g g.resetSignalName := by
  obtain ⟨p, hp, hname⟩ := List.mem_map.mp (hg.reset_mem.resolve_left hne)
  exact hname ▸ inScope_port hp

lemma inScope_nameClock : InScope sim g Name.clock := by
  by_cases h : g.clockSignalName = Name.clock
  · exact h ▸ inScope_clock
  · exact inScope_reserved (by simp [reserved, h])

lemma inScope_nameReset (hg : g.Selects) (h : sim = .verilator ∨ g.resetSignalName ≠ []) :
    InScope sim g Name.reset := by
  by_cases hreset : g.resetSignalName = Name.reset
  · have hne : g.resetSignalName ≠ [] := by simp [hreset]
    exact hreset ▸ inScope_reset hg hne
  · refine inScope_reserved ?_
    rcases h with h | h <;> simp [reserved, hreset, h]

lemma inScope_cycles : InScope sim g Name.cycles := inScope_reserved (by simp [reserved])

lemma inScope_cyclesO : InScope .verilator g Name.cyclesO := inScope_reserved (by simp [reserved])

lemma inScope_trace {x : Text} (h : x ∈ traceNames) : InScope sim g x :=
  inScope_reserved (by simp [reserved, h])

lemma inScope_latch {x : Text} (h : x ∈ traceNames) : InScope .iverilog g (latch x) := by
  have hmem : latch x ∈ traceNames.map latch := List.mem_map_of_mem h
  refine inScope_reserved ?_
  rw [reserved, if_pos rfl]
  exact List.mem_append_right _ hmem

lemma resolved_header : Throughout (defines sim features)
    (Item.Resolved (defines sim features) (InScope sim g)) (header idents g) ↔
      ∀ p ∈ g.portParams, ∀ x ∈ idents p.stmt, InScope sim g x := by
  simp [header]

lemma resolved_clockAndReset (hg : g.Selects) : Throughout (defines sim features)
    (Item.Resolved (defines sim features) (InScope sim g)) (clockAndReset g) := by
  have hclock : InScope sim g g.clockSignalName := inScope_clock
  by_cases hnone : g.resetSignalName = []
  · simp [clockAndReset, hnone, Stmt.Resolved, hclock]
  have hreset : InScope sim g Name.reset := inScope_nameReset hg (.inr hnone)
  have hselected : InScope sim g g.resetSignalName := inScope_reset hg hnone
  by_cases h : g.resetSignalName = Name.reset
  · simp [clockAndReset, h, Stmt.Resolved, hclock, hreset]
  · simp [clockAndReset, hnone, h, Stmt.Resolved, hclock, hreset, hselected]

lemma resolved_clockAlias : Throughout (defines sim features)
    (Item.Resolved (defines sim features) (InScope sim g)) (clockAlias g) := by
  have hclock : InScope sim g g.clockSignalName := inScope_clock
  have hname : InScope sim g Name.clock := inScope_nameClock
  rw [clockAlias]
  split_ifs
  · simp [hclock, hname]
  · exact throughout_nil

lemma resolved_resetAlias (hg : g.Selects) : Throughout (defines sim features)
    (Item.Resolved (defines sim features) (InScope sim g)) (resetAlias g) := by
  rw [resetAlias]
  split_ifs with h
  · have hname : InScope sim g Name.reset := inScope_nameReset hg (.inr h.2)
    have hselected : InScope sim g g.resetSignalName := inScope_reset hg h.2
    simp [hname, hselected]
  · exact throughout_nil

lemma resolved_counter : Throughout (defines sim features)
    (Item.Resolved (defines sim features) (InScope sim g)) (counter g) := by
  have hclock : InScope sim g g.clockSignalName := inScope_clock
  have hcycles : InScope sim g Name.cycles := inScope_cycles
  by_cases hsim : sim = .verilator
  · subst hsim
    simp [counter, Stmt.Resolved, hclock, hcycles, inScope_cyclesO]
  · simp [counter, Stmt.Resolved, hclock, hcycles, hsim]

lemma resolved_signalDecl : Throughout (defines sim features)
    (Item.Resolved (defines sim features) (InScope sim g)) (signalDecl idents g) ↔
      ∀ p ∈ g.others, ∀ decl ∈ p.toDeclString, ∀ x ∈ idents decl, InScope sim g x := by
  rw [signalDecl, throughout_lines]
  refine forall₂_congr fun p _ => ?_
  cases p.toDeclString <;> simp

lemma resolved_regInitialize : Throughout (defines sim features)
    (Item.Resolved (defines sim features) (InScope sim g)) (regInitialize idents g) ↔
      ∀ p ∈ g.others, p.isInput = true → ∀ i < p.dimensions.length,
        ∀ x ∈ idents (p.dimSizes.getD i []), (∃ j ≤ i, x = indexName j) ∨ InScope sim g x := by
  simp only [regInitialize, throughout_line, throughout_nil, and_true, resolved_process,
    throughout_flatMap, List.mem_filter, and_imp]
  refine forall₂_congr fun p hp => forall_congr' fun _ => ?_
  have hport : InScope sim g p.name := inScope_port (mem_others.mp hp).1
  simp [initStmts, Stmt.Resolved, hport, Nat.lt_succ_iff]
  constructor
  · rintro ⟨h, -⟩ i hi
    exact (h i hi).2
  · intro h
    exact ⟨fun i hi => ⟨.inl ⟨i, le_rfl, rfl⟩, h i hi⟩, fun i hi => .inl ⟨i, hi, rfl⟩⟩

lemma resolved_signalConnect : Throughout (defines sim features)
    (Item.Resolved (defines sim features) (InScope sim g)) (signalConnect g) := by
  simp only [signalConnect, throughout_line, resolved_instantiate, throughout_nil, and_true,
    List.forall_mem_append, List.forall_mem_map, List.forall_mem_singleton]
  exact ⟨fun p hp => inScope_param hp, fun p hp => inScope_port hp⟩

lemma resolved_initializeTrace (htop : scope g.tbtopName) :
    Throughout env (Stmt.Resolved scope) (initializeTrace g) := by
  have hpath : tracePath.Resolved scope := by simp [tracePath, Stmt.Resolved]
  have htop : (traceTop g).Resolved scope := by simp [traceTop, Stmt.Resolved, htop]
  simp [initializeTrace, hpath, htop]

lemma resolved_tracing : Throughout (defines sim features)
    (Item.Resolved (defines sim features) (InScope sim g)) (tracing g) ↔
      (sim = .iverilog → InScope sim g Name.tbTop) := by
  have hclock : InScope sim g g.clockSignalName := inScope_clock
  have hinit : InScope sim g Name.initializeTrace := inScope_trace List.mem_cons_self
  have henable : InScope sim g Name.enableTrace := inScope_trace (by simp [traceNames])
  have hdisable : InScope sim g Name.disableTrace := inScope_trace (by simp [traceNames])
  by_cases hsim : sim = .iverilog
  · subst hsim
    have hlatch : ∀ x ∈ traceNames, InScope .iverilog g (latch x) := fun x hx => inScope_latch hx
    simp only [traceNames, List.forall_mem_cons] at hlatch
    have hblock : Name.file ≠ Name.traceName := by decide
    have hfile : Name.tbTop ≠ Name.file := by decide
    have hname : Name.tbTop ≠ Name.traceName := by decide
    simp [tracing, traceNames, watchStmts, Stmt.Resolved, hclock, hinit, henable, hdisable, hlatch,
      traceBlock, hblock, hfile, hname]
  · have htop : InScope sim g g.tbtopName := .inl rfl
    simp [tracing, traceNames, hsim, hinit, henable, hdisable, resolved_initializeTrace htop]

lemma resolved_command : Throughout (defines sim features)
    (Item.Resolved (defines sim features) (InScope sim g)) (command g) := by
  by_cases hsim : sim = .vcs
  · subst hsim
    have hclock : InScope .vcs g g.clockSignalName := inScope_clock
    have htop : InScope .vcs g g.tbtopName := .inl rfl
    have hblock : Name.dumpFile ≠ Name.dumpStartCycle := by decide
    simp [command, dumpStmts, Stmt.Resolved, hclock, htop, dumpBlock, hblock]
  · simp [command, hsim]

lemma resolved_userCode (hg : g.Selects) : Throughout (defines sim features)
    (Item.Resolved (defines sim features) (InScope sim g)) (userCode g) := by
  have hclock : InScope sim g g.clockSignalName := inScope_clock
  by_cases hnone : g.resetSignalName = []
  · simp [userCode, hnone, hclock]
  · have hselected : InScope sim g g.resetSignalName := inScope_reset hg hnone
    simp [userCode, hnone, hclock, hselected]

/-! ### The bench as a whole -/

variable (sim features idents g)

/-- No name is declared twice in a scope, and every name that is used is declared. -/
def WellScoped : Prop :=
  (declared sim features idents g).Nodup ∧
    Throughout (defines sim features) (Item.Resolved (defines sim features)
      fun x => x = g.tbtopName ∨ x ∈ declared sim features idents g) (tbTop idents g)

def items : List Item := preprocess (defines sim features) (tbTop idents g)

/-- The port is connected to a net or a variable of its own name. -/
def Connects (p : PortInfo) : Prop :=
  (∃ cs, .instantiate g.topName g.dutName cs ∈ items sim features idents g ∧
    (p.name, [p.name]) ∈ cs) ∧
  ∃ uses, .declare p.name uses ∈ items sim features idents g

/-- The clock is a register that the bench writes, or its input. -/
def ClockDriven : Prop :=
  if sim = .verilator then
    g.clockSignalName = Name.clock ∨
      .assign g.clockSignalName Name.clock ∈ items sim features idents g
  else ∃ body, .process body ∈ items sim features idents g ∧
    ∃ stmt ∈ preprocess (defines sim features) body, g.clockSignalName ∈ stmt.writes

def ResetDriven : Prop :=
  g.resetSignalName = [] ∨ g.resetSignalName = Name.reset ∨
    .assign g.resetSignalName Name.reset ∈ items sim features idents g

/-- The design keeps away from the names of the bench, and its texts use names of either. -/
structure Fits : Prop where
  clock_ne_reset : g.clockSignalName ≠ g.resetSignalName
  clock_notMem : g.clockSignalName ∉ g.portParams.map PortParam.name
  reserved_nodup : (reserved sim g).Nodup
  notMem_reserved : ∀ x ∈ designNames g, x ∉ reserved sim g
  params : ∀ p ∈ g.portParams, ∀ x ∈ idents p.stmt, InScope sim g x
  decls : ∀ p ∈ g.others, ∀ decl ∈ p.toDeclString, ∀ x ∈ idents decl, InScope sim g x
  sizes : ∀ p ∈ g.others, p.isInput = true → ∀ i < p.dimensions.length,
    ∀ x ∈ idents (p.dimSizes.getD i []), (∃ j ≤ i, x = indexName j) ∨ InScope sim g x
  top : sim = .iverilog → InScope sim g Name.tbTop

variable {sim features idents g}

lemma wellScoped_iff (hg : g.Selects) : WellScoped sim features idents g ↔ Fits sim idents g := by
  have hscope : (fun x => x = g.tbtopName ∨ x ∈ declared sim features idents g) =
      InScope sim g := by
    funext x
    rw [mem_declared_iff hg, InScope]
  rw [WellScoped, hscope, nodup_declared_iff hg, tbTop]
  simp only [throughout_append, resolved_header, resolved_clockAndReset hg, resolved_clockAlias,
    resolved_resetAlias hg, resolved_counter, resolved_signalDecl, resolved_regInitialize,
    resolved_signalConnect, resolved_tracing, resolved_command, resolved_userCode hg, and_true]
  constructor
  · rintro ⟨⟨hne, hclock, hnodup, hfree⟩, ⟨⟨hparams, hdecls⟩, hsizes⟩, htop⟩
    exact ⟨hne, hclock, hnodup, hfree, hparams, hdecls, hsizes, htop⟩
  · intro h
    exact ⟨⟨h.clock_ne_reset, h.clock_notMem, h.reserved_nodup, h.notMem_reserved⟩,
      ⟨⟨h.params, h.decls⟩, h.sizes⟩, h.top⟩

lemma clockDriven (hg : g.Selects) : ClockDriven sim features idents g := by
  rw [ClockDriven]
  split_ifs with hsim
  · subst hsim
    by_cases h : g.clockSignalName = Name.clock
    · exact .inl h
    · refine .inr ?_
      simp [items, tbTop, preprocess_append, clockAlias, h, hg.clock_ne, preprocess_ifdef,
        preprocess_line]
  · refine ⟨[.line { writes := [g.clockSignalName] }] ++
      if g.resetSignalName = [] then [] else [.line { writes := [Name.reset] }], ?_,
      { writes := [g.clockSignalName] }, List.mem_cons_self, List.mem_cons_self⟩
    simp [items, tbTop, preprocess_append, clockAndReset, hsim, preprocess_ifdef, preprocess_line]

lemma resetDriven : ResetDriven sim features idents g := by
  by_cases hnone : g.resetSignalName = []
  · exact .inl hnone
  by_cases hreset : g.resetSignalName = Name.reset
  · exact .inr (.inl hreset)
  refine .inr (.inr ?_)
  by_cases hsim : sim = .verilator
  · simp [items, tbTop, preprocess_append, resetAlias, hsim, hnone, hreset, preprocess_ifdef,
      preprocess_line]
  · simp [items, tbTop, preprocess_append, clockAndReset, hsim, hnone, hreset, preprocess_ifdef,
      preprocess_line]

lemma declare_clock (hg : g.Selects) :
    .declare g.clockSignalName [] ∈ items sim features idents g := by
  by_cases hsim : sim = .verilator
  · by_cases h : g.clockSignalName = Name.clock
    · simp [items, tbTop, preprocess_append, header, hsim, h, preprocess_ifdef, preprocess_line]
    · simp [items, tbTop, preprocess_append, clockAlias, hsim, h, hg.clock_ne, preprocess_ifdef,
        preprocess_line]
  · simp [items, tbTop, preprocess_append, clockAndReset, hsim, preprocess_ifdef, preprocess_line]

lemma declare_reset (hne : g.resetSignalName ≠ []) :
    .declare g.resetSignalName [] ∈ items sim features idents g := by
  by_cases hsim : sim = .verilator <;> by_cases h : g.resetSignalName = Name.reset
  · simp [items, tbTop, preprocess_append, header, hsim, h, preprocess_ifdef, preprocess_line]
  · simp [items, tbTop, preprocess_append, resetAlias, hsim, h, hne, preprocess_ifdef,
      preprocess_line]
  · simp [items, tbTop, preprocess_append, clockAndReset, hsim, h, preprocess_ifdef,
      preprocess_line]
  · simp [items, tbTop, preprocess_append, clockAndReset, hsim, h, hne, preprocess_ifdef,
      preprocess_line]

lemma connects (hg : g.Selects) {p : PortInfo} (hp : p ∈ g.portInfos) :
    Connects sim features idents g p := by
  have hconnect : (p.name, [p.name]) ∈ g.portParams.map (fun p => (p.name, [p.name])) ++
      g.portInfos.map fun p => (p.name, [p.name]) :=
    List.mem_append_right _ (List.mem_map.mpr ⟨p, hp, rfl⟩)
  refine ⟨⟨_, ?_, hconnect⟩, ?_⟩
  · simp [items, tbTop, preprocess_append, signalConnect, preprocess_line]
  by_cases hclock : p.name = g.clockSignalName
  · exact ⟨[], hclock ▸ declare_clock hg⟩
  by_cases hreset : p.name = g.resetSignalName
  · exact ⟨[], hreset ▸ declare_reset (hreset ▸ hg.name_ne p hp)⟩
  · refine ⟨p.toDeclString.elim [] idents, ?_⟩
    have hdecl : Item.declare p.name (p.toDeclString.elim [] idents) ∈
        preprocess (defines sim features) (signalDecl idents g) := by
      rw [signalDecl, preprocess_lines]
      exact List.mem_map.mpr ⟨p, mem_others.mpr ⟨hp, hclock, hreset⟩, rfl⟩
    simp only [items, tbTop, preprocess_append, List.mem_append, hdecl, true_or, or_true]

/-! ### The selections -/

lemma Candidates.add_names {score : Text → Option Nat} {c : Candidates} {p : PortInfo} {x : Text}
    (h : x ∈ (c.add score p).names) : x ∈ c.names ∨ x = p.name := by
  rw [Candidates.add] at h
  split_ifs at h
  · split at h
    · exact .inl h
    · exact .inr (List.mem_singleton.mp h)
    · split_ifs at h
      · exact .inr (List.mem_singleton.mp h)
      · exact (List.mem_append.mp h).imp id List.mem_singleton.mp
      · exact .inl h
  · exact .inl h

lemma foldl_add_names {score : Text → Option Nat} {ps : List PortInfo} {c : Candidates} {x : Text}
    (h : x ∈ (ps.foldl (Candidates.add score) c).names) :
    x ∈ c.names ∨ x ∈ ps.map PortInfo.name := by
  induction ps generalizing c with
  | nil => exact .inl h
  | cons p ps ih =>
    rcases ih h with hx | hx
    · rcases Candidates.add_names hx with hx | rfl
      · exact .inl hx
      · exact .inr List.mem_cons_self
    · exact .inr (List.mem_cons_of_mem _ hx)

lemma mem_of_selectSignal {ps : List PortInfo} {requested : Option Text}
    {score : Text → Option Nat} {x : Text}
    (h : selectSignal ps requested score = some (some x)) : x ∈ ps.map PortInfo.name := by
  simp only [selectSignal] at h
  split_ifs at h with hne hany
  · obtain rfl := Option.some.inj (Option.some.inj h)
    obtain ⟨p, hp, hname⟩ := List.any_eq_true.mp hany
    obtain ⟨-, hname⟩ := Bool.and_eq_true_iff.mp hname
    exact List.mem_map.mpr ⟨p, hp, by simpa using hname⟩
  · have hx := List.mem_of_mem_head? (Option.some.inj h)
    exact (foldl_add_names hx).resolve_left nofun

lemma selects_of_bench {o : Options} {d : Design} (h : bench o d = some g) :
    g.Selects ∧ g.portInfos = d.portInfos := by
  obtain ⟨clock, hclock, h⟩ := Option.bind_eq_some_iff.mp h
  obtain ⟨reset, hreset, h⟩ := Option.bind_eq_some_iff.mp h
  obtain ⟨name, hname, h⟩ := Option.bind_eq_some_iff.mp h
  cases h
  have hmem : name ∈ d.portInfos.map PortInfo.name ∨ name = Name.clock := by
    cases clock with
    | some x =>
      cases hname
      exact .inl (mem_of_selectSignal hclock)
    | none =>
      rw [clockSignal] at hname
      split_ifs at hname
      exact .inr (Option.some.inj hname).symm
  refine ⟨⟨?_, hmem, ?_, d.name_ne, d.nodup⟩, rfl⟩
  · rcases hmem with hmem | rfl
    · obtain ⟨p, hp, rfl⟩ := List.mem_map.mp hmem
      exact d.name_ne p hp
    · exact Name.clock_ne
  · cases reset with
    | none => exact .inl rfl
    | some x => exact .inr (mem_of_selectSignal hreset)

end Names

/-! ### Two designs -/

/-- The words of a text that begin with a letter and are no keywords. -/
def identifiers (s : Text) : List Text :=
  let keywords := ["wire".toList, "reg".toList, "logic".toList, "parameter".toList, "int".toList]
  (tokens s).filter fun t => t.head?.any Char.isAlpha && !keywords.contains t

def clkPort : PortInfo := ⟨.input, "wire".toList, "clk".toList, [], [], true, 0⟩

def countPort (name : Text) : PortInfo := ⟨.output, "logic [W-1:0]".toList, name, [], [], false, 1⟩

def dataPort : PortInfo := ⟨.input, "wire [W-1:0]".toList, "data".toList, ["[3:0]".toList],
  ["3 - 0 + 1".toList], true, 2⟩

def paramW : PortParam := ⟨"W".toList, "parameter int W = 8".toList⟩

/-- `module top #(parameter int W = 8)(input clk, output logic [W-1:0] <name>,
input [W-1:0] data [3:0])` -/
def countDesign (name : Text) (hne : name ≠ [])
    (hnodup : ["W".toList, "clk".toList, name, "data".toList].Nodup) : Design where
  topName := "top".toList
  portInfos := [clkPort, countPort name, dataPort]
  portParams := [paramW]
  hasProceduralBlock := true
  name_ne := by
    intro p hp
    have hcases : p = clkPort ∨ p = countPort name ∨ p = dataPort := by simpa using hp
    rcases hcases with rfl | rfl | rfl
    · decide
    · exact hne
    · decide
  nodup := hnodup

def countBench (name : Text) : Bench where
  tbtopName := Name.tbTop
  topName := "top".toList
  dutName := "u_top".toList
  clockSignalName := "clk".toList
  resetSignalName := []
  portInfos := [clkPort, countPort name, dataPort]
  portParams := [paramW]

lemma bench_countDesign {name : Text} (hne : name ≠ [])
    (hnodup : ["W".toList, "clk".toList, name, "data".toList].Nodup) :
    bench ⟨none, none, none, none⟩ (countDesign name hne hnodup) = some (countBench name) := rfl

instance (sim : Simulator) (g : Bench) : DecidablePred (InScope sim g) := fun _ =>
  inferInstanceAs (Decidable (_ ∨ _ ∨ _))

lemma fits_count : Fits .iverilog identifiers (countBench "count".toList) where
  clock_ne_reset := by decide
  clock_notMem := by decide
  reserved_nodup := by decide
  notMem_reserved := by decide
  params := by decide
  decls := by decide
  sizes := by decide
  top := by decide

end Verilua.TestbenchGen
