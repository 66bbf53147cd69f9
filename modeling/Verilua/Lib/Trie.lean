import Mathlib.Data.List.Nodup

/-!
# Trees of named nodes

A node holds values, and children under keys. A value is found by walking along the keys, or by
listing the whole tree; where no node has two children under one key, the two agree. A value is
inserted at the end of a path.
-/

namespace Verilua

inductive Trie (κ β : Type*)
  | node (values : List β) (children : List (κ × Trie κ β))

namespace Trie

variable {κ β : Type*}

def values : Trie κ β → List β
  | node vs _ => vs

def children : Trie κ β → List (κ × Trie κ β)
  | node _ cs => cs

@[simp] lemma values_node (vs : List β) (cs : List (κ × Trie κ β)) : (node vs cs).values = vs :=
  rfl

@[simp] lemma children_node (vs : List β) (cs : List (κ × Trie κ β)) :
    (node vs cs).children = cs := rfl

/-! ### Properties of all nodes -/

mutual
/-- A property of the values and the keys of every node. -/
def All (p : List β → List κ → Prop) : Trie κ β → Prop
  | node vs cs => p vs (cs.map Prod.fst) ∧ AllList p cs

def AllList (p : List β → List κ → Prop) : List (κ × Trie κ β) → Prop
  | [] => True
  | (_, c) :: cs => All p c ∧ AllList p cs
end

variable {p q : List β → List κ → Prop} {t c : Trie κ β} {k : κ} {ks : List κ} {b : β}

lemma allList_iff {cs : List (κ × Trie κ β)} : AllList p cs ↔ ∀ k c, (k, c) ∈ cs → All p c := by
  induction cs with
  | nil => simp [AllList]
  | cons hd cs ih =>
    obtain ⟨k, c⟩ := hd
    simp only [AllList, ih, List.mem_cons, Prod.mk.injEq]
    constructor
    · rintro ⟨hc, hcs⟩ k' c' (⟨rfl, rfl⟩ | hmem)
      · exact hc
      · exact hcs k' c' hmem
    · intro h
      exact ⟨h k c (.inl ⟨rfl, rfl⟩), fun k' c' hmem => h k' c' (.inr hmem)⟩

lemma all_iff :
    All p t ↔ p t.values (t.children.map Prod.fst) ∧ ∀ k c, (k, c) ∈ t.children → All p c := by
  cases t with
  | node vs cs => rw [All, allList_iff]; rfl

mutual
theorem All.mono (hpq : ∀ vs keys, p vs keys → q vs keys) : ∀ {t : Trie κ β}, All p t → All q t
  | node _ _, h => ⟨hpq _ _ h.1, AllList.mono hpq h.2⟩

theorem AllList.mono (hpq : ∀ vs keys, p vs keys → q vs keys) :
    ∀ {cs : List (κ × Trie κ β)}, AllList p cs → AllList q cs
  | [], _ => trivial
  | _ :: _, h => ⟨All.mono hpq h.1, AllList.mono hpq h.2⟩
end

/-! ### The listing -/

mutual
/-- Every value, with the keys that lead to its node. -/
def entries : Trie κ β → List (List κ × β)
  | node vs cs => vs.map (fun b => ([], b)) ++ entriesList cs

def entriesList : List (κ × Trie κ β) → List (List κ × β)
  | [] => []
  | (k, c) :: cs => (entries c).map (fun e => (k :: e.1, e.2)) ++ entriesList cs
end

lemma mem_entriesList {cs : List (κ × Trie κ β)} :
    (ks, b) ∈ entriesList cs ↔ ∃ k c ks', (k, c) ∈ cs ∧ ks = k :: ks' ∧ (ks', b) ∈ entries c := by
  induction cs with
  | nil => simp [entriesList]
  | cons hd cs ih =>
    obtain ⟨k, c⟩ := hd
    simp only [entriesList, List.mem_append, List.mem_map, Prod.exists, ih]
    constructor
    · rintro (⟨ks', b', hmem, heq⟩ | ⟨k', c', ks', hc, rfl, hmem⟩)
      · obtain ⟨rfl, rfl⟩ := Prod.mk.inj heq
        exact ⟨k, c, ks', List.mem_cons_self, rfl, hmem⟩
      · exact ⟨k', c', ks', List.mem_cons_of_mem _ hc, rfl, hmem⟩
    · rintro ⟨k', c', ks', hc, rfl, hmem⟩
      rcases List.mem_cons.mp hc with heq | hc
      · obtain ⟨rfl, rfl⟩ := Prod.mk.inj heq
        exact .inl ⟨ks', b, hmem, rfl⟩
      · exact .inr ⟨k', c', ks', hc, rfl, hmem⟩

lemma mem_entries_nil : ([], b) ∈ t.entries ↔ b ∈ t.values := by
  cases t with
  | node vs cs => simp [entries, mem_entriesList]

lemma mem_entries_cons :
    (k :: ks, b) ∈ t.entries ↔ ∃ c, (k, c) ∈ t.children ∧ (ks, b) ∈ c.entries := by
  cases t with
  | node vs cs => simp [entries, mem_entriesList]

/-! ### The walk -/

section Walk

variable [DecidableEq κ]

def child (t : Trie κ β) (k : κ) : Option (Trie κ β) :=
  (t.children.find? fun e => e.1 = k).map Prod.snd

def walk (t : Trie κ β) : List κ → Option (Trie κ β)
  | [] => some t
  | k :: ks => (t.child k).bind fun c => c.walk ks

@[simp] lemma walk_nil (t : Trie κ β) : t.walk [] = some t := rfl

lemma walk_cons (t : Trie κ β) (k : κ) (ks : List κ) :
    t.walk (k :: ks) = (t.child k).bind fun c => c.walk ks := rfl

lemma mem_children_of_child (h : t.child k = some c) : (k, c) ∈ t.children := by
  obtain ⟨⟨k', c'⟩, hfind, rfl⟩ := Option.map_eq_some_iff.mp h
  have hk : k' = k := by simpa using List.find?_some hfind
  exact hk ▸ List.mem_of_find?_eq_some hfind

lemma child_eq_some_iff (hnodup : (t.children.map Prod.fst).Nodup) :
    t.child k = some c ↔ (k, c) ∈ t.children := by
  refine ⟨mem_children_of_child, fun hmem => ?_⟩
  have hsome : (t.children.find? fun e => e.1 = k).isSome :=
    List.find?_isSome.mpr ⟨(k, c), hmem, by simp⟩
  obtain ⟨⟨k', c'⟩, hfind⟩ := Option.isSome_iff_exists.mp hsome
  have hk : k' = k := by simpa using List.find?_some hfind
  subst hk
  have heq := List.inj_on_of_nodup_map hnodup (List.mem_of_find?_eq_some hfind) hmem rfl
  rw [child, hfind, heq]
  rfl

lemma All.child (h : All p t) (hc : t.child k = some c) : All p c :=
  (all_iff.mp h).2 k c (mem_children_of_child hc)

/-- The listing and the walk agree on what the tree holds. -/
theorem mem_entries_iff (h : All (fun _ keys => keys.Nodup) t) :
    (ks, b) ∈ t.entries ↔ ∃ d, t.walk ks = some d ∧ b ∈ d.values := by
  induction ks generalizing t with
  | nil => simp [mem_entries_nil]
  | cons k ks ih =>
    rw [mem_entries_cons, walk_cons]
    obtain ⟨hnodup, hchildren⟩ := all_iff.mp h
    constructor
    · rintro ⟨c, hc, hmem⟩
      rw [(child_eq_some_iff hnodup).mpr hc]
      exact (ih (hchildren k c hc)).mp hmem
    · rintro ⟨d, hd, hmem⟩
      obtain ⟨c, hc, hd⟩ := Option.bind_eq_some_iff.mp hd
      have hc := mem_children_of_child hc
      exact ⟨c, hc, (ih (hchildren k c hc)).mpr ⟨d, hd, hmem⟩⟩

/-! ### Insertion -/

/-- The first child at a key is changed; where there is none, one is made of an empty node. -/
def modifyChild (f : Trie κ β → Trie κ β) (k : κ) : List (κ × Trie κ β) → List (κ × Trie κ β)
  | [] => [(k, f (node [] []))]
  | (k', c) :: cs => if k' = k then (k', f c) :: cs else (k', c) :: modifyChild f k cs

/-- A value is added to the node that the keys lead to, and nodes on the way that are missing are
made. -/
def insert (b : β) : List κ → Trie κ β → Trie κ β
  | [], t => node (t.values ++ [b]) t.children
  | k :: ks, t => node t.values (modifyChild (insert b ks) k t.children)

section Insert

variable {f : Trie κ β → Trie κ β} {cs : List (κ × Trie κ β)}

lemma entriesList_modifyChild (hf : ∀ c, (f c).entries.Perm ((ks, b) :: c.entries)) :
    (entriesList (modifyChild f k cs)).Perm ((k :: ks, b) :: entriesList cs) := by
  induction cs with
  | nil =>
    simp only [modifyChild, entriesList, List.append_nil]
    exact (hf (node [] [])).map _
  | cons hd cs ih =>
    obtain ⟨k', c⟩ := hd
    rw [modifyChild]
    split_ifs with hk
    · subst hk
      exact ((hf c).map _).append_right _
    · exact (ih.append_left _).trans List.perm_middle

theorem entries_insert (b : β) (ks : List κ) (t : Trie κ β) :
    (t.insert b ks).entries.Perm ((ks, b) :: t.entries) := by
  induction ks generalizing t with
  | nil =>
    obtain ⟨vs, cs⟩ := t
    rw [insert, values_node, children_node, entries, entries, List.map_append, List.append_assoc]
    exact List.perm_middle
  | cons k ks ih =>
    obtain ⟨vs, cs⟩ := t
    exact ((entriesList_modifyChild ih).append_left _).trans List.perm_middle

lemma keys_modifyChild :
    (modifyChild f k cs).map Prod.fst =
      if k ∈ cs.map Prod.fst then cs.map Prod.fst else cs.map Prod.fst ++ [k] := by
  induction cs with
  | nil => rfl
  | cons hd cs ih =>
    obtain ⟨k', c⟩ := hd
    rw [modifyChild]
    by_cases hk : k' = k
    · simp [hk]
    · rw [if_neg hk, List.map_cons, ih]
      split_ifs <;> simp_all [eq_comm]

lemma mem_modifyChild {c : Trie κ β} (h : (k, c) ∈ modifyChild f k' cs) :
    (k, c) ∈ cs ∨ k = k' ∧ ∃ d, (d = node [] [] ∨ (k, d) ∈ cs) ∧ c = f d := by
  induction cs with
  | nil =>
    obtain ⟨rfl, rfl⟩ := Prod.mk.inj (List.mem_singleton.mp h)
    exact .inr ⟨rfl, _, .inl rfl, rfl⟩
  | cons hd cs ih =>
    obtain ⟨k'', d⟩ := hd
    rw [modifyChild] at h
    split_ifs at h with hk
    · rcases List.mem_cons.mp h with heq | hmem
      · obtain ⟨rfl, rfl⟩ := Prod.mk.inj heq
        exact .inr ⟨hk, d, .inr List.mem_cons_self, rfl⟩
      · exact .inl (List.mem_cons_of_mem _ hmem)
    · rcases List.mem_cons.mp h with heq | hmem
      · exact .inl (heq ▸ List.mem_cons_self)
      · rcases ih hmem with hmem | ⟨rfl, e, he, rfl⟩
        · exact .inl (List.mem_cons_of_mem _ hmem)
        · exact .inr ⟨rfl, e, he.imp_right (List.mem_cons_of_mem _), rfl⟩

/-- What holds of the empty node and is kept by a value and by the keys holds of all nodes. -/
theorem All.insert (hempty : p [] []) (hvalue : ∀ vs keys, p vs keys → p (vs ++ [b]) keys)
    (hkey : ∀ vs keys, ∀ k ∈ ks, k ∉ keys → p vs keys → p vs (keys ++ [k])) (h : All p t) :
    All p (t.insert b ks) := by
  induction ks generalizing t with
  | nil =>
    obtain ⟨vs, cs⟩ := t
    exact ⟨hvalue vs _ h.1, h.2⟩
  | cons k ks ih =>
    have ih : ∀ {t}, All p t → All p (t.insert b ks) :=
      ih fun vs keys j hj => hkey vs keys j (List.mem_cons_of_mem _ hj)
    obtain ⟨hnode, hchildren⟩ := all_iff.mp h
    rw [Trie.insert, all_iff, values_node, children_node]
    refine ⟨?_, fun j c hc => ?_⟩
    · rw [keys_modifyChild]
      split_ifs with hk
      · exact hnode
      · exact hkey _ _ k List.mem_cons_self hk hnode
    · rcases mem_modifyChild hc with hmem | ⟨-, d, rfl | hd, rfl⟩
      · exact hchildren j c hmem
      · exact ih ⟨hempty, trivial⟩
      · exact ih (hchildren j d hd)

end Insert

end Walk

end Trie

end Verilua
