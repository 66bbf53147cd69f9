import Verilua.Fsdb.Scopes

/-!
# The module tree is flattened without loss

The nodes of the tree are those of the forest that the events spell, each with its direct children and
signals. The collections through ignored scopes are the roots and the loose leaves of the forest, and
so what is below the same nearest visible scope.
-/

namespace Verilua.Fsdb

open Outline

variable {f : ScopeForest} {above : List (Nat × TreeScope)} {n i : Nat} {tree : List FsdbModuleNode}
  {scopeData : TreeScope} {body : ScopeForest}

/-! ### The nodes of a forest -/

/-- A variable without a name is left out. -/
def TreeSignal.entry? (varData : TreeSignal) : Option FsdbSignalEntry :=
  let signalName := normalizeFsdbSignalName varData.name
  if signalName.isEmpty then none else some ⟨signalName, varData.idcode⟩

def entriesOf (l : List TreeSignal) : List FsdbSignalEntry := l.filterMap TreeSignal.entry?

def nodeOf (above : List (Nat × TreeScope)) (i : Nat) (scopeData : TreeScope) (body : ScopeForest) :
    FsdbModuleNode :=
  ⟨scopeData.name, scopeData.module.getD [], above.head?.map Prod.fst, body.kids (i + 1),
    entriesOf body.own⟩

/-- The node of a scope that is entered. -/
def newNode (above : List (Nat × TreeScope)) (scopeData : TreeScope) : FsdbModuleNode :=
  ⟨scopeData.name, scopeData.module.getD [], above.head?.map Prod.fst, [], []⟩

/-- The nodes in the order in which their scopes are entered. -/
def nodes (above : List (Nat × TreeScope)) (n : Nat) : ScopeForest → List FsdbModuleNode
  | .nil => []
  | .leaf _ rest => nodes above n rest
  | .node scopeData body rest =>
    nodeOf above n scopeData body ::
      (nodes ((n, scopeData) :: above) (n + 1) body ++ nodes above (n + 1 + body.size) rest)

lemma length_nodes (above : List (Nat × TreeScope)) (n : Nat) (f : ScopeForest) :
    (nodes above n f).length = f.size := by
  induction f generalizing above n with
  | nil => rfl
  | leaf b rest ih => exact ih above n
  | node a body rest ihbody ihrest =>
    rw [nodes, List.length_cons, List.length_append, ihbody, ihrest, Forest.size]
    omega

lemma getElem?_nodes {above' : List (Nat × TreeScope)}
    (h : .node above' i scopeData body ∈ f.items above n) :
    (nodes above n f)[i - n]? = some (nodeOf above' i scopeData body) := by
  induction f generalizing above n with
  | nil => cases h
  | leaf b rest ih => exact ih ((List.mem_cons.mp h).resolve_left fun h => by cases h)
  | node a body₀ rest ihbody ihrest =>
    rw [Forest.items, List.mem_cons, List.mem_append] at h
    rw [nodes]
    rcases h with h | h | h
    · cases h
      rw [Nat.sub_self, List.getElem?_cons_zero]
    · have hbounds := index_bounds h
      have hi : i - n = i - (n + 1) + 1 := by omega
      rw [hi, List.getElem?_cons_succ,
        List.getElem?_append_left (by rw [length_nodes]; omega)]
      exact ihbody h
    · have hbounds := index_bounds h
      have hi : i - n = i - (n + 1) + 1 := by omega
      rw [hi, List.getElem?_cons_succ, List.getElem?_append_right (by rw [length_nodes]; omega),
        length_nodes]
      have hj : i - (n + 1) - body₀.size = i - (n + 1 + body₀.size) := by omega
      rw [hj]
      exact ihrest h

/-! ### The traversal -/

/-- The children and signals that are added to a node. -/
def FsdbModuleNode.grow (children : List Nat) (signals : List FsdbSignalEntry)
    (node : FsdbModuleNode) : FsdbModuleNode :=
  { node with children := node.children ++ children, signals := node.signals ++ signals }

/-- What is added to the innermost scope. -/
def extend (above : List (Nat × TreeScope)) (children : List Nat) (signals : List FsdbSignalEntry)
    (tree : List FsdbModuleNode) : List FsdbModuleNode :=
  match above with
  | [] => tree
  | p :: _ => tree.modify p.1 (·.grow children signals)

variable {children children' : List Nat} {signals signals' : List FsdbSignalEntry}

lemma extend_nil : extend above [] [] tree = tree := by
  cases above with
  | nil => rfl
  | cons p above =>
    have hid : (fun node : FsdbModuleNode => node.grow [] []) = id := by
      funext node
      simp [FsdbModuleNode.grow]
    rw [extend, hid]
    exact List.modify_id _ _

lemma extend_extend :
    extend above children' signals' (extend above children signals tree) =
      extend above (children ++ children') (signals ++ signals') tree := by
  cases above with
  | nil => rfl
  | cons p above =>
    simp only [extend, List.modify_modify_eq]
    congr 1
    funext node
    simp [FsdbModuleNode.grow]

lemma length_extend : (extend above children signals tree).length = tree.length := by
  cases above with
  | nil => rfl
  | cons p above => exact List.length_modify _ _ _

lemma modify_append_of_lt {γ : Type*} (g : γ → γ) {l : List γ} {j : Nat} (h : j < l.length)
    (l' : List γ) : (l ++ l').modify j g = l.modify j g ++ l' := by
  induction l generalizing j with
  | nil => exact absurd h (Nat.not_lt_zero j)
  | cons c l ih =>
    cases j with
    | zero => rfl
    | succ j =>
      rw [List.cons_append, List.modify_succ_cons, List.modify_succ_cons,
        ih (Nat.lt_of_succ_lt_succ h), List.cons_append]

lemma modify_concat {γ : Type*} (g : γ → γ) (l : List γ) (c : γ) :
    (l ++ [c]).modify l.length g = l ++ [g c] := by
  induction l with
  | nil => rfl
  | cons d l ih => rw [List.cons_append, List.length_cons, List.modify_succ_cons, ih, List.cons_append]

lemma extend_append (h : Before above tree.length) (l : List FsdbModuleNode) :
    extend above children signals (tree ++ l) = extend above children signals tree ++ l := by
  cases above with
  | nil => rfl
  | cons p above => exact modify_append_of_lt _ (h p List.mem_cons_self) l

/-- The event of the reader. -/
def treeEvent : Event TreeScope TreeSignal → TreeEvent
  | .enter scopeData => .scope scopeData
  | .leaf varData => .var varData
  | .leave => .upscope

lemma foldl_nesting (events : List TreeEvent) (ctx : TreeContext) :
    events.foldl fsdbModuleTreeCb ctx =
      (events.filterMap TreeEvent.nesting?).foldl (fun ctx e => fsdbModuleTreeCb ctx (treeEvent e))
        ctx := by
  induction events generalizing ctx with
  | nil => rfl
  | cons e events ih =>
    rw [List.foldl_cons, ih]
    cases e <;> rfl

/-- The stack below the nodes above. -/
def context (above : List (Nat × TreeScope)) (tree : List FsdbModuleNode) : TreeContext :=
  ⟨tree, above.map Prod.fst⟩

lemma cb_leaf (varData : TreeSignal) :
    fsdbModuleTreeCb (context above tree) (.var varData) =
      context above (extend above [] (entriesOf [varData]) tree) := by
  cases above with
  | nil => rfl
  | cons p above =>
    rw [context, fsdbModuleTreeCb, List.map_cons]
    simp only [entriesOf, List.filterMap_cons, List.filterMap_nil, TreeSignal.entry?]
    split_ifs with hempty
    · simp only [extend_nil]
      rfl
    · simp only [extend, context, List.map_cons]
      congr 2
      funext node
      simp [FsdbModuleNode.addSignal, FsdbModuleNode.grow]

lemma cb_enter (h : Before above tree.length) (scopeData : TreeScope) :
    fsdbModuleTreeCb (context above tree) (.scope scopeData) =
      context ((tree.length, scopeData) :: above)
        (extend above [tree.length] [] tree ++ [newNode above scopeData]) := by
  cases above with
  | nil => rfl
  | cons p above =>
    rw [← extend_append h]
    simp only [context, fsdbModuleTreeCb, extend, newNode, List.map_cons, List.head?_cons, Option.map_some]
    congr 2
    funext node
    simp [FsdbModuleNode.addChild, FsdbModuleNode.grow]

lemma foldl_events (h : Before above tree.length) :
    f.events.foldl (fun ctx e => fsdbModuleTreeCb ctx (treeEvent e)) (context above tree) =
      context above (extend above (f.kids tree.length) (entriesOf f.own) tree ++
        nodes above tree.length f) := by
  induction f generalizing above tree with
  | nil =>
    rw [Forest.kids, Forest.own, entriesOf, List.filterMap_nil, extend_nil, nodes, List.append_nil]
    rfl
  | leaf b rest ih =>
    rw [Forest.events, List.foldl_cons, treeEvent, cb_leaf, ih (by rwa [length_extend]), length_extend,
      extend_extend, Forest.kids, Forest.own, nodes, List.nil_append]
    congr 3
    rw [entriesOf, entriesOf, entriesOf, ← List.filterMap_append, List.singleton_append]
  | node a body rest ihbody ihrest =>
    have hroot : (extend above [tree.length] [] tree).length = tree.length := length_extend
    have hlength : (extend above [tree.length] [] tree ++ [newNode above a]).length =
        tree.length + 1 := by
      rw [List.length_append, hroot, List.length_singleton]
    rw [Forest.events, List.foldl_cons, treeEvent, cb_enter h, List.foldl_append,
      ihbody (by rw [hlength]; exact h.cons a), hlength]
    -- the node of the scope gets all its children and signals
    have hnode : extend ((tree.length, a) :: above) (body.kids (tree.length + 1))
        (entriesOf body.own) (extend above [tree.length] [] tree ++ [newNode above a]) =
        extend above [tree.length] [] tree ++ [nodeOf above tree.length a body] := by
      have hmodify := modify_concat
        (FsdbModuleNode.grow (body.kids (tree.length + 1)) (entriesOf body.own))
        (extend above [tree.length] [] tree) (newNode above a)
      rw [hroot] at hmodify
      exact hmodify
    rw [hnode, List.foldl_cons, treeEvent]
    have hleave : ∀ t, fsdbModuleTreeCb (context ((tree.length, a) :: above) t) .upscope =
        context above t := fun _ => rfl
    have hend : (extend above [tree.length] [] tree ++ [nodeOf above tree.length a body] ++
        nodes ((tree.length, a) :: above) (tree.length + 1) body).length =
          tree.length + 1 + body.size := by
      rw [List.length_append, List.length_append, hroot, List.length_singleton, length_nodes]
    rw [hleave, ihrest (h.mono (by omega)), hend, List.append_assoc, extend_append
      (by rw [hroot]; exact h), extend_extend, Forest.kids, Forest.own, nodes]
    simp

lemma fsdbModuleTree_eq {events : List TreeEvent} (h : Nested events f) :
    fsdbModuleTree events = nodes [] 0 f := by
  have hempty : Before ([] : List (Nat × TreeScope)) ([] : List FsdbModuleNode).length :=
    fun _ hp => absurd hp List.not_mem_nil
  rw [fsdbModuleTree, foldl_nesting, h]
  exact congrArg TreeContext.tree (foldl_events hempty)

/-! ### The collections -/

/-- The scopes of a forest have their nodes in a tree. -/
def Placed (tree : List FsdbModuleNode) (above : List (Nat × TreeScope)) (n : Nat)
    (f : ScopeForest) : Prop :=
  ∀ above' i scopeData body, .node above' i scopeData body ∈ f.items above n →
    tree[i]? = some (nodeOf above' i scopeData body)

lemma placed_nodes (f : ScopeForest) : Placed (nodes [] 0 f) [] 0 f :=
  fun _ _ _ _ h => getElem?_nodes h

lemma Placed.leaf {b : TreeSignal} (h : Placed tree above n (.leaf b f)) : Placed tree above n f :=
  fun _ _ _ _ hmem => h _ _ _ _ (List.mem_cons_of_mem _ hmem)

lemma Placed.node (h : Placed tree above n (.node scopeData body f)) :
    tree[n]? = some (nodeOf above n scopeData body) ∧
      Placed tree ((n, scopeData) :: above) (n + 1) body ∧ Placed tree above (n + 1 + body.size) f :=
  ⟨h _ _ _ _ List.mem_cons_self,
    fun _ _ _ _ hmem => h _ _ _ _ (List.mem_cons_of_mem _ (List.mem_append_left _ hmem)),
    fun _ _ _ _ hmem => h _ _ _ _ (List.mem_cons_of_mem _ (List.mem_append_right _ hmem))⟩

lemma collectVisible_kids {fuel : Nat} (h : Placed tree above n f) (hfuel : f.size ≤ fuel) :
    (f.kids n).flatMap (collectVisibleFsdbModuleNodeIdxVec tree fuel) = f.roots visible n := by
  induction f generalizing above n fuel with
  | nil => rfl
  | leaf b rest ih => exact ih h.leaf hfuel
  | node a body rest ihbody ihrest =>
    obtain ⟨hnode, hbody, hrest⟩ := h.node
    rw [Forest.size] at hfuel
    cases fuel with
    | zero => omega
    | succ fuel =>
      rw [Forest.kids, List.flatMap_cons, ihrest hrest (by omega), Forest.roots]
      congr 1
      rw [collectVisibleFsdbModuleNodeIdxVec, hnode]
      cases hignored : isIgnoredFsdbModuleName a.name with
      | true =>
        simp only [nodeOf, visible, hignored]
        exact ihbody hbody (by omega)
      | false =>
        simp only [nodeOf, visible, hignored]
        rfl

lemma collectSignals_kids {fuel : Nat} (h : Placed tree above n f) (hfuel : f.size ≤ fuel) :
    (f.kids n).flatMap (collectFsdbSignalsFromIgnoredScopes tree fuel) =
      entriesOf (f.lifted visible) := by
  induction f generalizing above n fuel with
  | nil => rfl
  | leaf b rest ih => exact ih h.leaf hfuel
  | node a body rest ihbody ihrest =>
    obtain ⟨hnode, hbody, hrest⟩ := h.node
    rw [Forest.size] at hfuel
    cases fuel with
    | zero => omega
    | succ fuel =>
      rw [Forest.kids, List.flatMap_cons, ihrest hrest (by omega), Forest.lifted, entriesOf, entriesOf,
        List.filterMap_append]
      congr 1
      rw [collectFsdbSignalsFromIgnoredScopes, hnode]
      cases hignored : isIgnoredFsdbModuleName a.name with
      | true =>
        have hchildren : (body.kids (n + 1)).flatMap (collectFsdbSignalsFromIgnoredScopes tree fuel) =
            entriesOf (body.lifted visible) := ihbody hbody (by omega)
        simp only [nodeOf, visible, hignored, hchildren]
        exact List.filterMap_append.symm
      | false =>
        simp only [nodeOf, visible, hignored]
        rfl

lemma filter_parentless (h : Placed tree above n f) :
    (List.range' n f.size).filter (fun i => tree[i]?.any fun node => node.parent.isNone) =
      if above.isEmpty then f.kids n else [] := by
  induction f generalizing above n with
  | nil => cases above <;> rfl
  | leaf b rest ih => exact ih h.leaf
  | node a body rest ihbody ihrest =>
    obtain ⟨hnode, hbody, hrest⟩ := h.node
    have hsize : 1 + body.size + rest.size = body.size + rest.size + 1 := by omega
    have hinside := ihbody hbody
    rw [Forest.size, hsize, List.range'_succ, ← List.range'_append_1, List.filter_cons,
      List.filter_append, hinside, ihrest hrest, hnode]
    cases above <;> rfl

lemma parentless_nodes (f : ScopeForest) : parentless (nodes [] 0 f) = f.kids 0 := by
  rw [parentless, length_nodes, List.range_eq_range']
  exact filter_parentless (placed_nodes f)

/-! ### The iterations -/

lemma before_nil (n : Nat) : Before ([] : List (Nat × TreeScope)) n :=
  fun _ hp => absurd hp List.not_mem_nil

lemma tops_nodes (h : f.roots visible 0 ≠ []) :
    getFsdbTopModuleNodeIdxVec (nodes [] 0 f) = f.roots visible 0 := by
  have hcollect : (f.kids 0).flatMap
      (collectVisibleFsdbModuleNodeIdxVec (nodes [] 0 f) (nodes [] 0 f).length) =
        f.roots visible 0 :=
    collectVisible_kids (placed_nodes f) (length_nodes [] 0 f).ge
  simp only [getFsdbTopModuleNodeIdxVec, parentless_nodes, hcollect]
  exact if_neg fun hempty => h (List.isEmpty_iff.mp hempty)

lemma placed_body (h : .node above i scopeData body ∈ f.items [] 0) :
    Placed (nodes [] 0 f) ((i, scopeData) :: above) (i + 1) body :=
  fun _ _ _ _ hmem => placed_nodes f _ _ _ _ ((items_sublist h).subset hmem)

lemma children_nodes (h : .node above i scopeData body ∈ f.items [] 0) :
    getFsdbVisibleChildModuleNodeIdxVec (nodes [] 0 f) i = body.roots visible (i + 1) := by
  rw [getFsdbVisibleChildModuleNodeIdxVec, placed_nodes f _ _ _ _ h]
  exact collectVisible_kids (placed_body h) ((size_le_of_mem h).trans (length_nodes [] 0 f).ge)

lemma signals_nodes (h : .node above i scopeData body ∈ f.items [] 0) :
    getFsdbVisibleSignalEntryVec (nodes [] 0 f) i =
      Distinct.firsts FsdbSignalEntry.name [] (entriesOf (body.own ++ body.lifted visible)) := by
  have hsignals := collectSignals_kids (placed_body h)
    ((size_le_of_mem h).trans (length_nodes [] 0 f).ge)
  rw [getFsdbVisibleSignalEntryVec, placed_nodes f _ _ _ _ h]
  simp only [nodeOf, hsignals, entriesOf, List.filterMap_append]

/-- Some scope is visible. -/
def Shown (f : ScopeForest) : Prop :=
  ∃ above i scopeData body, .node above i scopeData body ∈ f.items [] 0 ∧ visible scopeData = true

lemma nearest_lt (h : .node above i scopeData body ∈ f.items [] 0) {p : Nat}
    (hp : nearest visible above = some p) : p < i :=
  (before_of_mem (before_nil 0) h).nearest_lt hp

lemma exists_nearest {x : Item TreeScope TreeSignal} (h : x ∈ f.items [] 0)
    (hi : nearest visible x.above = some i) :
    ∃ above scopeData body, .node above i scopeData body ∈ f.items [] 0 ∧
      visible scopeData = true := by
  rcases nearest_of_mem visible h with hnil | ⟨above, j, scopeData, body, hmem, hvis, hj⟩
  · rw [hi] at hnil
    cases hnil
  · rw [hi, Option.some.injEq] at hj
    subst hj
    exact ⟨above, scopeData, body, hmem, hvis⟩

lemma roots_ne_nil (h : .node above i scopeData body ∈ f.items [] 0) (hvis : visible scopeData = true) :
    f.roots visible 0 ≠ [] := by
  induction i using Nat.strongRecOn generalizing above scopeData body with
  | ind i ih =>
    cases hnearest : nearest visible above with
    | none =>
      exact List.ne_nil_of_mem ((mem_roots (before_nil 0)).mpr
        ⟨above, scopeData, body, ⟨h, hnearest⟩, hvis⟩)
    | some p =>
      obtain ⟨above', scopeData', body', hp, hvis'⟩ := exists_nearest h hnearest
      exact ih p (nearest_lt h hnearest) hp hvis'

lemma tops_of_shown (h : Shown f) :
    getFsdbTopModuleNodeIdxVec (nodes [] 0 f) = f.roots visible 0 := by
  obtain ⟨above, i, scopeData, body, hmem, hvis⟩ := h
  exact tops_nodes (roots_ne_nil hmem hvis)

lemma mem_tops (h : Shown f) :
    i ∈ iteration (nodes [] 0 f) none ↔
      ∃ above scopeData body, .node above i scopeData body ∈ f.items [] 0 ∧
        visible scopeData = true ∧ nearest visible above = none := by
  rw [iteration, tops_of_shown h, mem_roots (before_nil 0)]
  refine exists_congr fun above => exists_congr fun scopeData => exists_congr fun body => ?_
  rw [Level, and_assoc, and_comm (b := visible scopeData = true)]
  rfl

lemma mem_children {j : Nat} (h : .node above i scopeData body ∈ f.items [] 0)
    (hvis : visible scopeData = true) :
    j ∈ iteration (nodes [] 0 f) (some i) ↔
      ∃ above scopeData body, .node above j scopeData body ∈ f.items [] 0 ∧
        visible scopeData = true ∧ nearest visible above = some i := by
  rw [iteration, children_nodes h, mem_roots ((before_of_mem (before_nil 0) h).cons scopeData)]
  refine exists_congr fun above' => exists_congr fun scopeData' => exists_congr fun body' => ?_
  rw [level_body (before_nil 0) h hvis, and_assoc, and_comm (b := visible scopeData' = true)]
  rfl

/-- Beyond the tops, the iterations that can be made are those over the children of visible scopes. -/
lemma Iterated.shown (h : Shown f) {q : Option Nat} (hq : Iterated (nodes [] 0 f) q) :
    q = none ∨ ∃ above i scopeData body, .node above i scopeData body ∈ f.items [] 0 ∧
      visible scopeData = true ∧ q = some i := by
  induction hq with
  | tops => exact .inl rfl
  | @children q i hq hi ih =>
    refine .inr ?_
    rcases ih with rfl | ⟨above, p, scopeData, body, hmem, hvis, rfl⟩
    · obtain ⟨above, scopeData, body, hi, hvis, -⟩ := (mem_tops h).mp hi
      exact ⟨above, i, scopeData, body, hi, hvis, rfl⟩
    · obtain ⟨above', scopeData', body', hi, hvis', -⟩ := (mem_children hmem hvis).mp hi
      exact ⟨above', i, scopeData', body', hi, hvis', rfl⟩

lemma mem_iteration (h : Shown f) {q : Option Nat} (hq : Iterated (nodes [] 0 f) q) :
    i ∈ iteration (nodes [] 0 f) q ↔
      ∃ above scopeData body, .node above i scopeData body ∈ f.items [] 0 ∧
        visible scopeData = true ∧ nearest visible above = q := by
  rcases hq.shown h with rfl | ⟨above, p, scopeData, body, hmem, hvis, rfl⟩
  · exact mem_tops h
  · exact mem_children hmem hvis

lemma nodup_iteration (h : Shown f) {q : Option Nat} (hq : Iterated (nodes [] 0 f) q) :
    (iteration (nodes [] 0 f) q).Nodup := by
  rcases hq.shown h with rfl | ⟨above, p, scopeData, body, hmem, hvis, rfl⟩
  · rw [iteration, tops_of_shown h]
    exact (roots_sublist visible 0 f).nodup (List.nodup_range' ..)
  · rw [iteration, children_nodes hmem]
    exact (roots_sublist visible _ body).nodup (List.nodup_range' ..)

lemma iterated_nearest (h : .node above i scopeData body ∈ f.items [] 0)
    (hvis : visible scopeData = true) : Iterated (nodes [] 0 f) (nearest visible above) := by
  have hshown : Shown f := ⟨above, i, scopeData, body, h, hvis⟩
  induction i using Nat.strongRecOn generalizing above scopeData body with
  | ind i ih =>
    cases hnearest : nearest visible above with
    | none => exact .tops
    | some p =>
      obtain ⟨above', scopeData', body', hp, hvis'⟩ := exists_nearest h hnearest
      have hiterated := ih p (nearest_lt h hnearest) hp hvis'
      exact hiterated.children
        ((mem_iteration hshown hiterated).mpr ⟨above', scopeData', body', hp, hvis', rfl⟩)

/-! ### Nothing is lost -/

/-- A variable with more of a name than ranges. -/
def Named (varData : TreeSignal) : Prop := normalizeFsdbSignalName varData.name ≠ []

lemma mem_entriesOf {l : List TreeSignal} {entry : FsdbSignalEntry} :
    entry ∈ entriesOf l ↔ ∃ varData ∈ l, Named varData ∧
      entry = ⟨normalizeFsdbSignalName varData.name, varData.idcode⟩ := by
  rw [entriesOf, List.mem_filterMap]
  refine exists_congr fun varData => and_congr_right fun _ => ?_
  simp only [TreeSignal.entry?, Named]
  by_cases hempty : normalizeFsdbSignalName varData.name = []
  · simp [hempty]
  · rw [if_neg (by simpa using hempty), Option.some.injEq]
    exact ⟨fun h => ⟨hempty, h.symm⟩, fun h => h.2.symm⟩

lemma mem_signals (h : .node above i scopeData body ∈ f.items [] 0) (hvis : visible scopeData = true)
    {varData : TreeSignal} :
    varData ∈ body.own ++ body.lifted visible ↔
      ∃ above', .leaf above' varData ∈ f.items [] 0 ∧ nearest visible above' = some i := by
  rw [mem_loose ((before_of_mem (before_nil 0) h).cons scopeData)]
  exact exists_congr fun above' => level_body (before_nil 0) h hvis

/-- Every visible scope is reported once and lists its variables with a name. -/
theorem flattens {events : List TreeEvent} (h : Nested events f) :
    Flattens Named f (fsdbModuleTree events) := by
  rw [fsdbModuleTree_eq h]
  refine ⟨fun above i scopeData body hmem hvis => ?_, fun above varData i hmem hnamed hnearest => ?_,
    fun i => ?_, fun above i scopeData body hmem hvis entry hentry => ?_,
    fun hshown above i scopeData body hmem hhidden q hq hi => ?_⟩
  · have hshown : Shown f := ⟨above, i, scopeData, body, hmem, hvis⟩
    have hiterated := iterated_nearest hmem hvis
    refine ⟨hiterated, ?_, fun q hq hi => ?_⟩
    · exact List.count_eq_one_of_mem (nodup_iteration hshown hiterated)
        ((mem_iteration hshown hiterated).mpr ⟨above, scopeData, body, hmem, hvis, rfl⟩)
    · obtain ⟨above', scopeData', body', hmem', -, hnearest⟩ := (mem_iteration hshown hq).mp hi
      rw [← hnearest, (index_inj hmem hmem').1]
  · obtain ⟨above', scopeData, body, hnode, hvis⟩ := exists_nearest hmem hnearest
    rw [signals_nodes hnode, Distinct.mem_map_firsts]
    have hvar := (mem_signals hnode hvis).mpr ⟨above, hmem, hnearest⟩
    exact ⟨List.mem_map.mpr ⟨_, mem_entriesOf.mpr ⟨varData, hvar, hnamed, rfl⟩, rfl⟩,
      List.not_mem_nil⟩
  · rw [getFsdbVisibleSignalEntryVec]
    split
    · exact List.nodup_nil
    · exact Distinct.nodup_map_firsts
  · rw [signals_nodes hmem] at hentry
    obtain ⟨varData, hvar, -, heq⟩ := mem_entriesOf.mp (Distinct.firsts_sublist.subset hentry)
    obtain ⟨above', hleaf, hnearest⟩ := (mem_signals hmem hvis).mp hvar
    exact ⟨above', varData, hleaf, hnearest, heq⟩
  · obtain ⟨above', scopeData', body', hmem', hvis, -⟩ := (mem_iteration hshown hq).mp hi
    rw [(index_inj hmem hmem').2.1, hvis] at hhidden
    cases hhidden

/-! ### A variable without a name -/

/-- `top` with a package in it, that has the variable `clk[0]`, and a variable `[0]`. -/
def packaged : ScopeForest :=
  .node ⟨"top".toList, none⟩
    (.leaf ⟨"[0]".toList, 1⟩
      (.node ⟨"bus_pkg".toList, none⟩ (.leaf ⟨"clk[0]".toList, 2⟩ .nil) .nil)) .nil

def packagedEvents : List TreeEvent :=
  [.scope ⟨"top".toList, none⟩, .var ⟨"[0]".toList, 1⟩, .other, .scope ⟨"bus_pkg".toList, none⟩,
    .var ⟨"clk[0]".toList, 2⟩, .upscope, .upscope]

theorem flattens_packaged : Flattens Named packaged (fsdbModuleTree packagedEvents) :=
  flattens rfl

/-- A variable with nothing but a range for a name is not listed. -/
theorem not_flattens_packaged :
    ¬ Flattens (fun _ => True) packaged (fsdbModuleTree packagedEvents) := by
  intro h
  have hlisted := h.listed [(0, ⟨"top".toList, none⟩)] ⟨"[0]".toList, 1⟩ 0 (by simp [packaged, Forest.items])
    trivial (by decide)
  revert hlisted
  decide

end Verilua.Fsdb
