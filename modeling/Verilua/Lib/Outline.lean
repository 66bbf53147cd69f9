import Mathlib.Data.List.Basic
import Mathlib.Data.List.Nodup

/-!
# Forests in which some nodes are kept

A forest is entered and left node by node, and its nodes are numbered as they are entered. Where only
some of the nodes are kept, the others are seen through: the roots that are left, and the leaves that
come to be loose, are those below the same nearest kept node.
-/

namespace Outline

variable {α β : Type*}

/-- A list of leaves and of nodes with what is inside them. -/
inductive Forest (α β : Type*)
  | nil
  | leaf (b : β) (rest : Forest α β)
  | node (a : α) (body rest : Forest α β)

inductive Event (α β : Type*)
  | enter (a : α)
  | leaf (b : β)
  | leave

/-- A node with its number, or a leaf, with the nodes above it from the nearest on. -/
inductive Item (α β : Type*)
  | node (above : List (Nat × α)) (i : Nat) (a : α) (body : Forest α β)
  | leaf (above : List (Nat × α)) (b : β)

def Item.above : Item α β → List (Nat × α)
  | .node above _ _ _ => above
  | .leaf above _ => above

def Item.index? : Item α β → Option Nat
  | .node _ i _ _ => some i
  | .leaf _ _ => none

namespace Forest

def size : Forest α β → Nat
  | nil => 0
  | leaf _ rest => rest.size
  | node _ body rest => 1 + body.size + rest.size

def events : Forest α β → List (Event α β)
  | nil => []
  | leaf b rest => .leaf b :: rest.events
  | node a body rest => .enter a :: (body.events ++ .leave :: rest.events)

/-- The nodes and leaves in order, numbered from `n` on. -/
def items (above : List (Nat × α)) (n : Nat) : Forest α β → List (Item α β)
  | nil => []
  | leaf b rest => .leaf above b :: rest.items above n
  | node a body rest =>
    .node above n a body ::
      (body.items ((n, a) :: above) (n + 1) ++ rest.items above (n + 1 + body.size))

/-- The numbers of the nodes that are in no other node. -/
def kids (n : Nat) : Forest α β → List Nat
  | nil => []
  | leaf _ rest => rest.kids n
  | node _ body rest => n :: rest.kids (n + 1 + body.size)

/-- The leaves that are in no node. -/
def own : Forest α β → List β
  | nil => []
  | leaf b rest => b :: rest.own
  | node _ _ rest => rest.own

/-- The kept nodes that are in no other kept node. -/
def roots (keep : α → Bool) (n : Nat) : Forest α β → List Nat
  | nil => []
  | leaf _ rest => rest.roots keep n
  | node a body rest =>
    (if keep a then [n] else body.roots keep (n + 1)) ++ rest.roots keep (n + 1 + body.size)

/-- The leaves that are in nodes, but not in kept ones. -/
def lifted (keep : α → Bool) : Forest α β → List β
  | nil => []
  | leaf _ rest => rest.lifted keep
  | node a body rest =>
    (if keep a then [] else body.own ++ body.lifted keep) ++ rest.lifted keep

end Forest

/-- The number of the nearest node that is kept. -/
def nearest (keep : α → Bool) (above : List (Nat × α)) : Option Nat :=
  (above.find? fun p => keep p.2).map Prod.fst

variable {keep : α → Bool} {above : List (Nat × α)} {n i : Nat} {a : α} {b : β} {x : Item α β}
  {body f : Forest α β}

lemma nearest_cons_of_pos (h : keep a = true) : nearest keep ((i, a) :: above) = some i := by
  simp [nearest, h]

lemma nearest_cons_of_neg (h : keep a = false) :
    nearest keep ((i, a) :: above) = nearest keep above := by
  simp [nearest, h]

/-! ### Numbers -/

lemma map_index (above : List (Nat × α)) (n : Nat) (f : Forest α β) :
    (f.items above n).filterMap Item.index? = List.range' n f.size := by
  induction f generalizing above n with
  | nil => rfl
  | leaf b rest ih => exact ih above n
  | node a body rest ihbody ihrest =>
    simp only [Forest.items, List.filterMap_cons, Item.index?, List.filterMap_append, ihbody, ihrest]
    have hsize : 1 + body.size + rest.size = body.size + rest.size + 1 := by omega
    rw [Forest.size, List.range'_append_1, hsize, List.range'_succ]

lemma index_bounds {above' : List (Nat × α)} (h : .node above' i a body ∈ f.items above n) :
    n ≤ i ∧ i < n + f.size := by
  have hmem : i ∈ List.range' n f.size := by
    rw [← map_index above]
    exact List.mem_filterMap.mpr ⟨_, h, rfl⟩
  rwa [List.mem_range'_1] at hmem

lemma index_inj {above₁ above₂ : List (Nat × α)} {a₁ a₂ : α} {body₁ body₂ : Forest α β}
    (h₁ : .node above₁ i a₁ body₁ ∈ f.items above n) (h₂ : .node above₂ i a₂ body₂ ∈ f.items above n) :
    above₁ = above₂ ∧ a₁ = a₂ ∧ body₁ = body₂ := by
  induction f generalizing above n with
  | nil => cases h₁
  | leaf b rest ih =>
    exact ih ((List.mem_cons.mp h₁).resolve_left (fun h => by cases h))
      ((List.mem_cons.mp h₂).resolve_left fun h => by cases h)
  | node a body rest ihbody ihrest =>
    rw [Forest.items, List.mem_cons, List.mem_append] at h₁ h₂
    rcases h₁ with h₁ | h₁ | h₁ <;> rcases h₂ with h₂ | h₂ | h₂
    · cases h₁
      cases h₂
      exact ⟨rfl, rfl, rfl⟩
    · cases h₁
      have := (index_bounds h₂).1
      omega
    · cases h₁
      have := (index_bounds h₂).1
      omega
    · cases h₂
      have := (index_bounds h₁).1
      omega
    · exact ihbody h₁ h₂
    · have := (index_bounds h₁).2
      have := (index_bounds h₂).1
      omega
    · cases h₂
      have := (index_bounds h₁).1
      omega
    · have := (index_bounds h₂).2
      have := (index_bounds h₁).1
      omega
    · exact ihrest h₁ h₂

lemma items_sublist {above' : List (Nat × α)} (hnode : .node above' i a body ∈ f.items above n) :
    (body.items ((i, a) :: above') (i + 1)).Sublist (f.items above n) := by
  induction f generalizing above n with
  | nil => cases hnode
  | leaf b rest ih =>
    exact (ih ((List.mem_cons.mp hnode).resolve_left fun h => by cases h)).cons _
  | node a₀ body₀ rest ihbody ihrest =>
    rw [Forest.items, List.mem_cons, List.mem_append] at hnode
    rw [Forest.items]
    rcases hnode with hnode | hnode | hnode
    · cases hnode
      exact (List.sublist_append_left _ _).cons _
    · exact ((ihbody hnode).trans (List.sublist_append_left _ _)).cons _
    · exact ((ihrest hnode).trans (List.sublist_append_right _ _)).cons _

lemma size_le_of_mem {above' : List (Nat × α)} (hnode : .node above' i a body ∈ f.items above n) :
    body.size ≤ f.size := by
  have hle := ((items_sublist hnode).filterMap Item.index?).length_le
  rwa [map_index, map_index, List.length_range', List.length_range'] at hle

/-! ### Nearest kept nodes -/

/-- The nodes above come before. -/
def Before (above : List (Nat × α)) (n : Nat) : Prop := ∀ p ∈ above, p.1 < n

lemma Before.mono {m : Nat} (h : Before above n) (hle : n ≤ m) : Before above m :=
  fun p hp => Nat.lt_of_lt_of_le (h p hp) hle

lemma Before.cons (h : Before above n) (a : α) : Before ((n, a) :: above) (n + 1) :=
  List.forall_mem_cons.mpr ⟨Nat.lt_succ_self n, h.mono (Nat.le_succ n)⟩

lemma Before.nearest_lt (h : Before above n) (hi : nearest keep above = some i) : i < n := by
  obtain ⟨p, hp, rfl⟩ := Option.map_eq_some_iff.mp hi
  exact h p (List.mem_of_find?_eq_some hp)

/-- The nearest kept node is the one that the forest is in, or a kept node of the forest. -/
lemma nearest_of_mem (keep : α → Bool) (h : x ∈ f.items above n) :
    nearest keep x.above = nearest keep above ∨
      ∃ above' i a body, .node above' i a body ∈ f.items above n ∧ keep a = true ∧
        nearest keep x.above = some i := by
  induction f generalizing above n with
  | nil => cases h
  | leaf b rest ih =>
    rcases List.mem_cons.mp h with rfl | h
    · exact .inl rfl
    · refine (ih h).imp_right ?_
      rintro ⟨above', i, a, body, hmem, hkept⟩
      exact ⟨above', i, a, body, List.mem_cons_of_mem _ hmem, hkept⟩
  | node a body rest ihbody ihrest =>
    rw [Forest.items, List.mem_cons, List.mem_append] at h
    rcases h with rfl | h | h
    · exact .inl rfl
    · rcases ihbody h with heq | ⟨above', i, a', body', hmem, hkept⟩
      · cases hkeep : keep a with
        | true =>
          rw [nearest_cons_of_pos hkeep] at heq
          exact .inr ⟨above, n, a, body, List.mem_cons_self, hkeep, heq⟩
        | false =>
          rw [nearest_cons_of_neg hkeep] at heq
          exact .inl heq
      · exact .inr ⟨above', i, a', body',
          List.mem_cons_of_mem _ (List.mem_append_left _ hmem), hkept⟩
    · refine (ihrest h).imp_right ?_
      rintro ⟨above', i, a', body', hmem, hkept⟩
      exact ⟨above', i, a', body', List.mem_cons_of_mem _ (List.mem_append_right _ hmem), hkept⟩

/-- So its number is not in a range that the forest is not in. -/
lemma nearest_bounds (h : x ∈ f.items above n) (hi : nearest keep x.above = some i) :
    nearest keep above = some i ∨ n ≤ i ∧ i < n + f.size := by
  rcases nearest_of_mem keep h with heq | ⟨above', j, a, body, hmem, -, hj⟩
  · exact .inl (heq ▸ hi)
  · rw [hi, Option.some.injEq] at hj
    subst hj
    exact .inr (index_bounds hmem)

/-- What is below a kept node as the nearest one is inside it. -/
lemma mem_body_iff {above' : List (Nat × α)} (hbefore : Before above n)
    (hnode : .node above' i a body ∈ f.items above n) (hx : nearest keep x.above = some i) :
    x ∈ f.items above n ↔ x ∈ body.items ((i, a) :: above') (i + 1) := by
  induction f generalizing above n with
  | nil => cases hnode
  | leaf b rest ih =>
    have hrest := (List.mem_cons.mp hnode).resolve_left fun h => by cases h
    rw [← ih hbefore hrest, Forest.items, List.mem_cons]
    refine ⟨fun h => h.resolve_left ?_, .inr⟩
    rintro rfl
    have := hbefore.nearest_lt hx
    have := (index_bounds hrest).1
    omega
  | node a₀ body₀ rest ihbody ihrest =>
    have hle : n ≤ i := (index_bounds hnode).1
    have hhead : x ≠ .node above n a₀ body₀ := by
      rintro rfl
      have := hbefore.nearest_lt hx
      omega
    rw [Forest.items, List.mem_cons, List.mem_append] at hnode ⊢
    rcases hnode with hnode | hnode | hnode
    · cases hnode
      refine ⟨fun h => (h.resolve_left hhead).resolve_right fun hrest => ?_, fun h => .inr (.inl h)⟩
      rcases nearest_bounds hrest hx with habove | hbounds
      · have := hbefore.nearest_lt habove
        omega
      · omega
    · rw [← ihbody (hbefore.cons a₀) hnode]
      have hbody := index_bounds hnode
      refine ⟨fun h => (h.resolve_left hhead).resolve_right fun hrest => ?_, fun h => .inr (.inl h)⟩
      rcases nearest_bounds hrest hx with habove | hbounds
      · have := hbefore.nearest_lt habove
        omega
      · omega
    · have hrest := (index_bounds hnode).1
      rw [← ihrest (hbefore.mono (by omega)) hnode]
      refine ⟨fun h => (h.resolve_left hhead).resolve_left fun hbody => ?_, fun h => .inr (.inr h)⟩
      rcases nearest_bounds hbody hx with habove | hbounds
      · have := (hbefore.cons a₀).nearest_lt habove
        omega
      · omega

/-! ### What is left -/

/-- What is below the same nearest kept node as the forest. -/
def Level (keep : α → Bool) (above : List (Nat × α)) (n : Nat) (f : Forest α β) (x : Item α β) : Prop :=
  x ∈ f.items above n ∧ nearest keep x.above = nearest keep above

lemma level_leaf : Level keep above n (.leaf b f) x ↔ x = .leaf above b ∨ Level keep above n f x := by
  rw [Level, Level, Forest.items, List.mem_cons]
  constructor
  · rintro ⟨rfl | h, hx⟩
    · exact .inl rfl
    · exact .inr ⟨h, hx⟩
  · rintro (rfl | ⟨h, hx⟩)
    · exact ⟨.inl rfl, rfl⟩
    · exact ⟨.inr h, hx⟩

lemma level_node {rest : Forest α β} (hbefore : Before above n) :
    Level keep above n (.node a body rest) x ↔
      x = .node above n a body ∨
        keep a = false ∧ Level keep ((n, a) :: above) (n + 1) body x ∨
        Level keep above (n + 1 + body.size) rest x := by
  rw [Level, Level, Level, Forest.items, List.mem_cons, List.mem_append]
  constructor
  · rintro ⟨rfl | h | h, hx⟩
    · exact .inl rfl
    · cases hkeep : keep a with
      | true =>
        -- below a kept node the nearest one is not before the forest
        rcases nearest_of_mem keep h with heq | ⟨above', j, a', body', hmem, -, hj⟩
        · rw [nearest_cons_of_pos hkeep, hx] at heq
          exact absurd (hbefore.nearest_lt heq) (Nat.lt_irrefl n)
        · rw [hx] at hj
          have := hbefore.nearest_lt hj
          have := (index_bounds hmem).1
          omega
      | false =>
        rw [nearest_cons_of_neg hkeep]
        exact .inr (.inl ⟨rfl, h, hx⟩)
    · exact .inr (.inr ⟨h, hx⟩)
  · rintro (rfl | ⟨hkeep, h, hx⟩ | ⟨h, hx⟩)
    · exact ⟨.inl rfl, rfl⟩
    · rw [nearest_cons_of_neg hkeep] at hx
      exact ⟨.inr (.inl h), hx⟩
    · exact ⟨.inr (.inr h), hx⟩

lemma level_body {above' : List (Nat × α)} (hbefore : Before above n)
    (hnode : .node above' i a body ∈ f.items above n) (hkeep : keep a = true) :
    Level keep ((i, a) :: above') (i + 1) body x ↔
      x ∈ f.items above n ∧ nearest keep x.above = some i := by
  rw [Level, nearest_cons_of_pos hkeep]
  exact and_congr_left fun hx => (mem_body_iff hbefore hnode hx).symm

lemma before_of_mem {above' : List (Nat × α)} (hbefore : Before above n)
    (hnode : .node above' i a body ∈ f.items above n) : Before above' i := by
  induction f generalizing above n with
  | nil => cases hnode
  | leaf b rest ih => exact ih hbefore ((List.mem_cons.mp hnode).resolve_left fun h => by cases h)
  | node a₀ body₀ rest ihbody ihrest =>
    rw [Forest.items, List.mem_cons, List.mem_append] at hnode
    rcases hnode with hnode | hnode | hnode
    · cases hnode
      exact hbefore
    · exact ihbody (hbefore.cons a₀) hnode
    · exact ihrest (hbefore.mono (by omega)) hnode

lemma mem_roots (hbefore : Before above n) :
    i ∈ f.roots keep n ↔
      ∃ above' a body, Level keep above n f (.node above' i a body) ∧ keep a = true := by
  induction f generalizing above n with
  | nil => simp [Forest.roots, Level, Forest.items]
  | leaf b rest ih =>
    rw [Forest.roots, ih hbefore]
    simp [level_leaf]
  | node a body rest ihbody ihrest =>
    rw [Forest.roots, List.mem_append, ihrest (hbefore.mono (by omega))]
    simp only [level_node hbefore]
    cases hkeep : keep a with
    | true =>
      simp only [if_true, List.mem_singleton]
      constructor
      · rintro (rfl | ⟨above', a', body', h, hkept⟩)
        · exact ⟨above, a, body, .inl rfl, hkeep⟩
        · exact ⟨above', a', body', .inr (.inr h), hkept⟩
      · rintro ⟨above', a', body', h | ⟨hfalse, -⟩ | h, hkept⟩
        · cases h
          exact .inl rfl
        · cases hfalse
        · exact .inr ⟨above', a', body', h, hkept⟩
    | false =>
      rw [if_neg Bool.false_ne_true, ihbody (hbefore.cons a)]
      constructor
      · rintro (⟨above', a', body', h, hkept⟩ | ⟨above', a', body', h, hkept⟩)
        · exact ⟨above', a', body', .inr (.inl ⟨rfl, h⟩), hkept⟩
        · exact ⟨above', a', body', .inr (.inr h), hkept⟩
      · rintro ⟨above', a', body', h | ⟨-, h⟩ | h, hkept⟩
        · cases h
          rw [hkeep] at hkept
          cases hkept
        · exact .inl ⟨above', a', body', h, hkept⟩
        · exact .inr ⟨above', a', body', h, hkept⟩

lemma mem_loose (hbefore : Before above n) :
    b ∈ f.own ++ f.lifted keep ↔ ∃ above', Level keep above n f (.leaf above' b) := by
  rw [List.mem_append]
  induction f generalizing above n with
  | nil => simp [Forest.own, Forest.lifted, Level, Forest.items]
  | leaf b₀ rest ih =>
    rw [Forest.own, Forest.lifted, List.mem_cons, or_assoc, ih hbefore]
    simp only [level_leaf, Item.leaf.injEq]
    constructor
    · rintro (rfl | ⟨above', h⟩)
      · exact ⟨above, .inl ⟨rfl, rfl⟩⟩
      · exact ⟨above', .inr h⟩
    · rintro ⟨above', ⟨-, rfl⟩ | h⟩
      · exact .inl rfl
      · exact .inr ⟨above', h⟩
  | node a body rest ihbody ihrest =>
    have hrest := ihrest (hbefore.mono (m := n + 1 + body.size) (by omega))
    rw [Forest.own, Forest.lifted, List.mem_append, or_left_comm, hrest]
    simp only [level_node hbefore]
    cases hkeep : keep a with
    | true => simp
    | false =>
      rw [if_neg Bool.false_ne_true, List.mem_append, ihbody (hbefore.cons a), ← exists_or]
      simp

lemma roots_sublist (keep : α → Bool) (n : Nat) (f : Forest α β) :
    (f.roots keep n).Sublist (List.range' n f.size) := by
  induction f generalizing n with
  | nil => exact List.Sublist.refl []
  | leaf b rest ih => exact ih n
  | node a body rest ihbody ihrest =>
    have hsize : 1 + body.size + rest.size = body.size + rest.size + 1 := by omega
    rw [Forest.roots, Forest.size, hsize, List.range'_succ, ← List.range'_append_1]
    split_ifs with hkeep
    · exact ((ihrest _).trans (List.sublist_append_right _ _)).cons_cons n
    · exact ((ihbody _).append (ihrest _)).cons n

/-! ### Properly nested events -/

/-! ### The outermost nodes -/

namespace Forest

/-- All nodes in order, each with the nodes above it from the outermost on. -/
def nodes (above : List α) : Forest α β → List (List α × α)
  | nil => []
  | leaf _ rest => rest.nodes above
  | node a body rest => (above, a) :: (body.nodes (above ++ [a]) ++ rest.nodes above)

/-- The kept nodes that are reached without going into a kept node. -/
def outermost (keep : α → Bool) (above : List α) : Forest α β → List (List α × α)
  | nil => []
  | leaf _ rest => rest.outermost keep above
  | node a body rest =>
    (if keep a then [(above, a)] else body.outermost keep (above ++ [a])) ++
      rest.outermost keep above

variable {keep : α → Bool} {above : List α}

lemma prefix_of_mem_nodes {f : Forest α β} {e : List α × α} (h : e ∈ f.nodes above) :
    above <+: e.1 := by
  induction f generalizing above with
  | nil => cases h
  | leaf b rest ih => exact ih h
  | node a body rest ihbody ihrest =>
    rw [nodes, List.mem_cons, List.mem_append] at h
    rcases h with rfl | h | h
    · exact List.prefix_rfl
    · exact (List.prefix_append above [a]).trans (ihbody h)
    · exact ihrest h

lemma filter_nodes_of_any (h : above.any keep = true) (f : Forest α β) :
    (f.nodes above).filter (fun e => keep e.2 && !e.1.any keep) = [] := by
  rw [List.filter_eq_nil_iff]
  intro e hmem
  obtain ⟨a, ha, hkeep⟩ := List.any_eq_true.mp h
  have hany : e.1.any keep = true :=
    List.any_eq_true.mpr ⟨a, (prefix_of_mem_nodes hmem).subset ha, hkeep⟩
  simp [hany]

lemma outermost_eq_filter (h : above.any keep = false) (f : Forest α β) :
    f.outermost keep above =
      (f.nodes above).filter fun e => keep e.2 && !e.1.any keep := by
  induction f generalizing above with
  | nil => rfl
  | leaf b rest ih => exact ih h
  | node a body rest ihbody ihrest =>
    rw [outermost, nodes, List.filter_cons, List.filter_append, ihrest h]
    have hany : (above ++ [a]).any keep = keep a := by simp [h]
    cases hkeep : keep a with
    | true =>
      rw [filter_nodes_of_any (hany.trans hkeep)]
      simp [h]
    | false =>
      rw [ihbody (hany.trans hkeep)]
      simp

/-- The outermost nodes are all that are kept exactly when no kept node is below another one. -/
lemma length_outermost_iff (f : Forest α β) :
    (f.outermost keep []).length = ((f.nodes []).filter fun e => keep e.2).length ↔
      ∀ e ∈ f.nodes [], keep e.2 = true → e.1.any keep = false := by
  have hfilter : f.outermost keep [] =
      ((f.nodes []).filter fun e => keep e.2).filter fun e => !e.1.any keep := by
    rw [outermost_eq_filter rfl, List.filter_filter]
    exact List.filter_congr fun e _ => Bool.and_comm _ _
  rw [hfilter, List.length_filter_eq_length_iff]
  simp only [List.mem_filter, Bool.not_eq_true', and_imp]

lemma outermost_eq (f : Forest α β)
    (h : ∀ e ∈ f.nodes [], keep e.2 = true → e.1.any keep = false) :
    f.outermost keep [] = (f.nodes []).filter fun e => keep e.2 := by
  rw [outermost_eq_filter rfl]
  refine List.filter_congr fun e hmem => ?_
  cases hkeep : keep e.2 with
  | true => simp [h e hmem hkeep]
  | false => rfl

end Forest

end Outline
