import Mathlib.Data.Finset.Card
import Mathlib.Data.List.Forall2
import Mathlib.Data.Set.Function
import Mathlib.Logic.Function.Basic
import Mathlib.Logic.Relation

/-!
# Copies of tables

`cycle_aware_deepcopy` enters the copy of a table into a cache before it copies what the table
holds, so that a cycle finds the copy. A metatable is handed on; it has no `__pairs` and no
`__metatable`. The stack of the interpreter is not bounded.
-/

namespace Verilua.LuaUtils.DeepCopy

/-- A value that is not a table is a leaf. -/
inductive Value (Leaf : Type)
  | leaf (l : Leaf)
  | table (ref : Nat)
  deriving DecidableEq

/-- The entries as `pairs` gives them. -/
structure Table (Leaf Meta : Type) where
  entries : List (Value Leaf × Value Leaf)
  metatable : Option Meta

abbrev Heap (Leaf Meta : Type) := List (Table Leaf Meta)

variable {Leaf Meta : Type}

/-- A table that is referred to is on the heap. -/
def Value.Within (n : Nat) : Value Leaf → Prop
  | leaf _ => True
  | table ref => ref < n

/-- A heap without dangling references, and a value. -/
structure TableGraph (Leaf Meta : Type) where
  tables : Heap Leaf Meta
  root : Value Leaf
  root_within : root.Within tables.length
  entries_within : ∀ t ∈ tables, ∀ e ∈ t.entries,
    e.1.Within tables.length ∧ e.2.Within tables.length
  keys_nodup : ∀ t ∈ tables, (t.entries.map Prod.fst).Nodup

section

variable [DecidableEq Leaf]

def Table.rawset (t : Table Leaf Meta) (k v : Value Leaf) : Table Leaf Meta :=
  { t with entries := t.entries.filter (fun e => e.1 ≠ k) ++ [(k, v)] }

structure State (Leaf Meta : Type) where
  heap : Heap Leaf Meta
  cache : Nat → Option Nat

namespace State

variable (s : State Leaf Meta)

/-- `local copied = {}` and `cache[value] = copied` -/
def newCopy (value : Nat) : State Leaf Meta :=
  ⟨s.heap ++ [⟨[], none⟩], Function.update s.cache value (some s.heap.length)⟩

def rawset (copied : Nat) (k v : Value Leaf) : State Leaf Meta :=
  { s with heap := s.heap.modify copied fun t => t.rawset k v }

def setmetatable (copied : Nat) (m : Option Meta) : State Leaf Meta :=
  { s with heap := s.heap.modify copied fun t => { t with metatable := m } }

end State

section

variable (copy : Value Leaf → State Leaf Meta → Option (Value Leaf × State Leaf Meta))

/-- The loop over the entries; a key is copied before its value. -/
def copyEntries (copied : Nat) :
    List (Value Leaf × Value Leaf) → State Leaf Meta → Option (State Leaf Meta)
  | [], s => some s
  | (k, v) :: entries, s => do
    let (k', s) ← copy k s
    let (v', s) ← copy v s
    copyEntries copied entries (s.rawset copied k' v')

/-- The body of `cycle_aware_deepcopy`. -/
def copyValue : Value Leaf → State Leaf Meta → Option (Value Leaf × State Leaf Meta)
  | .leaf l, s => some (.leaf l, s)
  | .table value, s =>
    match s.cache value with
    | some cached => some (.table cached, s)
    | none => do
      let t ← s.heap[value]?
      let s' ← copyEntries copy s.heap.length t.entries (s.newCopy value)
      return (.table s.heap.length, s'.setmetatable s.heap.length t.metatable)

end

/-- `cycle_aware_deepcopy`, where calls are nested `fuel` deep at most. -/
def cycleAwareDeepcopy : Nat → Value Leaf → State Leaf Meta →
    Option (Value Leaf × State Leaf Meta)
  | 0, _, _ => none
  | fuel + 1, value, s => copyValue (cycleAwareDeepcopy fuel) value s

/-- `utils.deepcopy` -/
def deepcopy (fuel : Nat) (heap : Heap Leaf Meta) (value : Value Leaf) :
    Option (Value Leaf × State Leaf Meta) :=
  cycleAwareDeepcopy fuel value ⟨heap, fun _ => none⟩

end

/-! ### Copies -/

/-- A table is a key or a value in another. -/
def Refers (heap : Heap Leaf Meta) (r q : Nat) : Prop :=
  ∃ t, heap[r]? = some t ∧ ∃ e ∈ t.entries, e.1 = .table q ∨ e.2 = .table q

/-- The tables that a value leads to. -/
def reach (heap : Heap Leaf Meta) (v : Value Leaf) : Set Nat :=
  {q | ∃ r, v = .table r ∧ Relation.ReflTransGen (Refers heap) r q}

def Value.map (f : Nat → Nat) : Value Leaf → Value Leaf
  | leaf l => leaf l
  | table ref => table (f ref)

def Table.map (f : Nat → Nat) (t : Table Leaf Meta) : Table Leaf Meta :=
  ⟨t.entries.map fun e => (e.1.map f, e.2.map f), t.metatable⟩

/-- The value `v'` on `heap'` is a copy of `v` that shares no table with it. -/
structure IsCopy (heap : Heap Leaf Meta) (v : Value Leaf) (heap' : Heap Leaf Meta)
    (v' : Value Leaf) (f : Nat → Nat) : Prop where
  value : v' = v.map f
  bijOn : Set.BijOn f (reach heap v) (reach heap' v')
  tables : ∀ r ∈ reach heap v, ∃ t, heap[r]? = some t ∧ heap'[f r]? = some (t.map f)
  fresh : ∀ c ∈ reach heap' v', heap.length ≤ c
  unchanged : heap <+: heap'

/-- A value and what the cache makes of it. -/
inductive Copied (cache : Nat → Option Nat) : Value Leaf → Value Leaf → Prop
  | leaf (l : Leaf) : Copied cache (.leaf l) (.leaf l)
  | table {r c : Nat} (h : cache r = some c) : Copied cache (.table r) (.table c)

def CopiedEntry (cache : Nat → Option Nat) (e e' : Value Leaf × Value Leaf) : Prop :=
  Copied cache e.1 e'.1 ∧ Copied cache e.2 e'.2

section

variable {cache cache' : Nat → Option Nat} {v v' : Value Leaf} {e e' : Value Leaf × Value Leaf}
  {es es' : List (Value Leaf × Value Leaf)} {r q c d : Nat}

lemma Copied.mono (h : Copied cache v v') (hext : ∀ r c, cache r = some c → cache' r = some c) :
    Copied cache' v v' := by
  cases h with
  | leaf l => exact .leaf l
  | table h => exact .table (hext _ _ h)

lemma CopiedEntry.mono (h : CopiedEntry cache e e')
    (hext : ∀ r c, cache r = some c → cache' r = some c) : CopiedEntry cache' e e' :=
  ⟨h.1.mono hext, h.2.mono hext⟩

lemma Copied.inj {w : Value Leaf} (h : Copied cache v v') (hw : Copied cache w v')
    (hinj : ∀ r q c, cache r = some c → cache q = some c → r = q) : v = w := by
  cases h with
  | leaf l => cases hw; rfl
  | table h =>
    cases hw with
    | table hw => rw [hinj _ _ _ h hw]

lemma Copied.eq_map (h : Copied cache v v') : v' = v.map fun r => (cache r).getD r := by
  cases h with
  | leaf l => rfl
  | table h => rw [Value.map, h, Option.getD_some]

lemma exists_copiedEntry (h : List.Forall₂ (CopiedEntry cache) es es') (he : e ∈ es) :
    ∃ e' ∈ es', CopiedEntry cache e e' := by
  induction h with
  | nil => cases he
  | cons hhd _ ih =>
    rcases List.mem_cons.mp he with rfl | he
    · exact ⟨_, List.mem_cons_self, hhd⟩
    · obtain ⟨e', hmem, hcopied⟩ := ih he
      exact ⟨e', List.mem_cons_of_mem _ hmem, hcopied⟩

lemma exists_entry_of_copied (h : List.Forall₂ (CopiedEntry cache) es es') (he : e' ∈ es') :
    ∃ e ∈ es, CopiedEntry cache e e' := by
  induction h with
  | nil => cases he
  | cons hhd _ ih =>
    rcases List.mem_cons.mp he with rfl | he
    · exact ⟨_, List.mem_cons_self, hhd⟩
    · obtain ⟨e, hmem, hcopied⟩ := ih he
      exact ⟨e, List.mem_cons_of_mem _ hmem, hcopied⟩

lemma eq_map_of_copied (h : List.Forall₂ (CopiedEntry cache) es es') :
    es' = es.map fun e =>
      (e.1.map fun r => (cache r).getD r, e.2.map fun r => (cache r).getD r) := by
  induction h with
  | nil => rfl
  | cons hhd _ ih => rw [List.map_cons, ← ih, ← hhd.1.eq_map, ← hhd.2.eq_map]

end

end Verilua.LuaUtils.DeepCopy

/-!
### Copies of tables: the recursion

A call adds tables to the heap and leaves those that are there as they are; what it enters into the
cache is finished when it returns. The table that is being filled is the only one that is written
to.
-/

namespace Verilua.LuaUtils.DeepCopy

variable {Leaf Meta : Type} {g : TableGraph Leaf Meta}
  {s s' t t' : State Leaf Meta} {r q c d m : Nat} {v v' k k' : Value Leaf}
  {acc es : List (Value Leaf × Value Leaf)}

/-- The copy of a table is complete. -/
def Done (g : TableGraph Leaf Meta) (s : State Leaf Meta) (r c : Nat) : Prop :=
  ∃ t t', g.tables[r]? = some t ∧ s.heap[c]? = some t' ∧
    List.Forall₂ (CopiedEntry s.cache) t.entries t'.entries ∧ t'.metatable = t.metatable

/-- The tables are on the heap, and the cache has a copy of its own for each table. -/
structure Inv (g : TableGraph Leaf Meta) (s : State Leaf Meta) : Prop where
  tables : g.tables <+: s.heap
  range : ∀ r c, s.cache r = some c →
    r < g.tables.length ∧ g.tables.length ≤ c ∧ c < s.heap.length
  inj : ∀ r q c, s.cache r = some c → s.cache q = some c → r = q

/-- What a call does. -/
structure Extends (g : TableGraph Leaf Meta) (s s' : State Leaf Meta) : Prop where
  heap : s.heap <+: s'.heap
  cache : ∀ r c, s.cache r = some c → s'.cache r = some c
  new : ∀ r c, s'.cache r = some c → s.cache r = some c ∨ s.heap.length ≤ c ∧ Done g s' r c

/-- The tables that have no copy yet. -/
def missing (g : TableGraph Leaf Meta) (s : State Leaf Meta) : Nat :=
  ((Finset.range g.tables.length).filter fun r => s.cache r = none).card

lemma getElem?_of_extends {α : Type*} {l l' : List α} (h : l <+: l') {i : Nat}
    (hi : i < l.length) : l'[i]? = l[i]? := by
  obtain ⟨rest, rfl⟩ := h
  exact List.getElem?_append_left hi

lemma Done.lt (h : Done g s r c) : c < s.heap.length := by
  obtain ⟨t, t', -, ht', -⟩ := h
  exact (List.getElem?_eq_some_iff.mp ht').1

lemma Done.mono (h : Done g s r c) (hheap : s'.heap[c]? = s.heap[c]?)
    (hcache : ∀ r c, s.cache r = some c → s'.cache r = some c) : Done g s' r c := by
  obtain ⟨t, t', ht, ht', hentries, hmeta⟩ := h
  refine ⟨t, t', ht, hheap.trans ht', ?_, hmeta⟩
  exact hentries.imp fun e e' he => he.mono hcache

lemma Extends.refl (g : TableGraph Leaf Meta) (s : State Leaf Meta) : Extends g s s :=
  ⟨List.prefix_rfl, fun _ _ h => h, fun _ _ h => .inl h⟩

lemma missing_le_of_cache (hcache : ∀ r c, s.cache r = some c → s'.cache r = some c) :
    missing g s' ≤ missing g s := by
  refine Finset.card_le_card fun r hr => ?_
  simp only [Finset.mem_filter] at hr ⊢
  refine ⟨hr.1, ?_⟩
  cases hs : s.cache r with
  | none => rfl
  | some c => exact absurd (hcache r c hs) (by simp [hr.2])

/-! ### A new copy -/

@[simp] lemma State.newCopy_cache (s : State Leaf Meta) (r : Nat) :
    (s.newCopy r).cache = Function.update s.cache r (some s.heap.length) := rfl

@[simp] lemma State.length_newCopy (s : State Leaf Meta) (r : Nat) :
    (s.newCopy r).heap.length = s.heap.length + 1 := by simp [State.newCopy]

lemma newCopy_of_cached (hnone : s.cache r = none) (h : s.cache q = some d) :
    (s.newCopy r).cache q = some d := by
  have hne : q ≠ r := by
    rintro rfl
    rw [hnone] at h
    cases h
  rw [State.newCopy_cache, Function.update_of_ne hne, h]

lemma cache_newCopy (h : (s.newCopy r).cache q = some d) :
    s.cache q = some d ∨ q = r ∧ d = s.heap.length := by
  by_cases hq : q = r
  · subst hq
    rw [State.newCopy_cache, Function.update_self] at h
    exact .inr ⟨rfl, (Option.some.inj h).symm⟩
  · rw [State.newCopy_cache, Function.update_of_ne hq] at h
    exact .inl h

lemma Inv.newCopy (h : Inv g s) (hr : r < g.tables.length) :
    Inv g (s.newCopy r) := by
  have hlen := s.length_newCopy r
  refine ⟨h.tables.trans (List.prefix_append _ _), fun q d hq => ?_, fun q q' d hq hq' => ?_⟩
  · rcases cache_newCopy hq with hq | ⟨rfl, rfl⟩
    · obtain ⟨hlt, hle, hd⟩ := h.range q d hq
      exact ⟨hlt, hle, by omega⟩
    · exact ⟨hr, h.tables.length_le, by omega⟩
  · rcases cache_newCopy hq with hold | ⟨hqr, hd⟩ <;>
      rcases cache_newCopy hq' with hold' | ⟨hqr', hd'⟩
    · exact h.inj q q' d hold hold'
    · exact absurd (h.range q d hold).2.2 (by omega)
    · exact absurd (h.range q' d hold').2.2 (by omega)
    · rw [hqr, hqr']

lemma missing_newCopy (hr : r < g.tables.length) (hnone : s.cache r = none) :
    missing g (s.newCopy r) < missing g s := by
  refine Finset.card_lt_card ⟨fun q hq => ?_, fun hsub => ?_⟩
  · simp only [Finset.mem_filter] at hq ⊢
    refine ⟨hq.1, ?_⟩
    cases hs : s.cache q with
    | none => rfl
    | some d => exact absurd (newCopy_of_cached hnone hs) (by simp [hq.2])
  · have hmem := hsub (Finset.mem_filter.mpr ⟨Finset.mem_range.mpr hr, hnone⟩)
    simpa using (Finset.mem_filter.mp hmem).2

/-! ### The loop -/

/-- The loop has copied the entries `acc` of the table `r` to `c`, from the state `s` on. -/
structure Filling (g : TableGraph Leaf Meta) (s : State Leaf Meta) (r c : Nat)
    (acc : List (Value Leaf × Value Leaf)) (t : State Leaf Meta) : Prop where
  inv : Inv g t
  before : ∀ i < c, t.heap[i]? = s.heap[i]?
  own : ∃ tab, t.heap[c]? = some tab ∧ List.Forall₂ (CopiedEntry t.cache) acc tab.entries
  cache : ∀ q d, s.cache q = some d → t.cache q = some d
  self : t.cache r = some c
  new : ∀ q d, t.cache q = some d →
    s.cache q = some d ∨ q = r ∧ d = c ∨ c < d ∧ Done g t q d

lemma Filling.extend (h : Filling g s r c acc t) (hinv : Inv g t') (hext : Extends g t t') :
    Filling g s r c acc t' := by
  obtain ⟨tab, htab, hentries⟩ := h.own
  have hc : c < t.heap.length := (List.getElem?_eq_some_iff.mp htab).1
  refine ⟨hinv, fun i hi => ?_, ⟨tab, ?_, ?_⟩, fun q d hq => hext.cache q d (h.cache q d hq),
    hext.cache r c h.self, fun q d hq => ?_⟩
  · rw [getElem?_of_extends hext.heap (hi.trans hc), h.before i hi]
  · rw [getElem?_of_extends hext.heap hc, htab]
  · exact hentries.imp fun e e' he => he.mono hext.cache
  · rcases hext.new q d hq with hq | ⟨hlen, hdone⟩
    · refine (h.new q d hq).imp_right fun hnew => hnew.imp_right fun ⟨hlt, hdone⟩ => ⟨hlt, ?_⟩
      exact hdone.mono (getElem?_of_extends hext.heap hdone.lt) hext.cache
    · exact .inr (.inr ⟨hc.trans_le hlen, hdone⟩)

lemma Inv.modify (h : Inv g t) (hc : g.tables.length ≤ c)
    (f : Table Leaf Meta → Table Leaf Meta) : Inv g { t with heap := t.heap.modify c f } := by
  refine ⟨?_, fun q d hq => ?_, h.inj⟩
  · obtain ⟨rest, hrest⟩ := h.tables
    rw [List.prefix_iff_getElem?]
    intro i hi
    rw [List.getElem?_modify_ne f _ (by omega), getElem?_of_extends h.tables hi,
      List.getElem?_eq_getElem hi]
  · simpa using h.range q d hq

lemma Filling.new_modify (h : Filling g s r c acc t) (f : Table Leaf Meta → Table Leaf Meta)
    (hq : t.cache q = some d) : s.cache q = some d ∨ q = r ∧ d = c ∨
      c < d ∧ Done g { t with heap := t.heap.modify c f } q d := by
  refine (h.new q d hq).imp_right fun hnew => hnew.imp_right fun ⟨hlt, hdone⟩ => ⟨hlt, ?_⟩
  exact hdone.mono (List.getElem?_modify_ne f _ hlt.ne) fun _ _ h => h

variable [DecidableEq Leaf]

lemma Filling.rawset (h : Filling g s r c acc t) (hk : Copied t.cache k k')
    (hv : Copied t.cache v v') (hnew : k ∉ acc.map Prod.fst) :
    Filling g s r c (acc ++ [(k, v)]) (t.rawset c k' v') := by
  have hc : g.tables.length ≤ c := (h.inv.range r c h.self).2.1
  obtain ⟨tab, htab, hentries⟩ := h.own
  refine ⟨h.inv.modify hc _, fun i hi => ?_, ⟨tab.rawset k' v', ?_, ?_⟩, h.cache, h.self,
    fun q d hq => h.new_modify _ hq⟩
  · rw [State.rawset, List.getElem?_modify_ne _ _ hi.ne', h.before i hi]
  · rw [State.rawset, List.getElem?_modify_eq, htab]
    rfl
  · -- the copy of the key is a new key of the copy
    have hfilter : tab.entries.filter (fun e => e.1 ≠ k') = tab.entries := by
      refine List.filter_eq_self.mpr fun e' he' => decide_eq_true ?_
      rintro rfl
      obtain ⟨e, he, hcopied⟩ := exists_entry_of_copied hentries he'
      exact hnew (hk.inj hcopied.1 h.inv.inj ▸ List.mem_map_of_mem he)
    rw [Table.rawset, hfilter]
    exact List.rel_append hentries (.cons ⟨hk, hv⟩ .nil)

/-- The specification of a call that copies what is below at most `m` tables without a copy. -/
def Copies (g : TableGraph Leaf Meta) (m : Nat)
    (copy : Value Leaf → State Leaf Meta → Option (Value Leaf × State Leaf Meta)) : Prop :=
  ∀ v s, Inv g s → v.Within g.tables.length → missing g s < m →
    ∃ v' s', copy v s = some (v', s') ∧ Inv g s' ∧ Extends g s s' ∧ Copied s'.cache v v'

variable {copy copy' : Value Leaf → State Leaf Meta → Option (Value Leaf × State Leaf Meta)}

lemma copyEntries_spec (hcopy : Copies g m copy) (h : Filling g s r c acc t)
    (hwithin : ∀ e ∈ es, e.1.Within g.tables.length ∧ e.2.Within g.tables.length)
    (hnodup : ((acc ++ es).map Prod.fst).Nodup) (hmissing : missing g t < m) :
    ∃ t', copyEntries copy c es t = some t' ∧ Filling g s r c (acc ++ es) t' := by
  induction es generalizing acc t with
  | nil => exact ⟨t, rfl, by rwa [List.append_nil]⟩
  | cons e es ih =>
    obtain ⟨k, v⟩ := e
    obtain ⟨⟨hk, hv⟩, hwithin⟩ := List.forall_mem_cons.mp hwithin
    obtain ⟨k', t₁, hcopyk, hinv₁, hext₁, hk'⟩ := hcopy k t h.inv hk hmissing
    have hmissing₁ : missing g t₁ < m := (missing_le_of_cache hext₁.cache).trans_lt hmissing
    obtain ⟨v', t₂, hcopyv, hinv₂, hext₂, hv'⟩ := hcopy v t₁ hinv₁ hv hmissing₁
    have hmissing₂ : missing g t₂ < m := (missing_le_of_cache hext₂.cache).trans_lt hmissing₁
    have hfresh : k ∉ acc.map Prod.fst := by
      rw [List.map_append, List.map_cons, List.nodup_append] at hnodup
      intro hmem
      exact hnodup.2.2 k hmem k List.mem_cons_self rfl
    have hfilling := ((h.extend hinv₁ hext₁).extend hinv₂ hext₂).rawset
      (hk'.mono hext₂.cache) hv' hfresh
    rw [List.append_cons] at hnodup
    obtain ⟨t', ht', hfilled⟩ := ih hfilling hwithin hnodup hmissing₂
    refine ⟨t', ?_, by rwa [List.append_cons]⟩
    simp only [copyEntries, hcopyk, hcopyv, Option.bind_eq_bind, Option.bind_some]
    exact ht'

/-! ### The call -/

omit [DecidableEq Leaf] in
lemma Filling.init (h : Inv g s) (hr : r < g.tables.length) (hnone : s.cache r = none) :
    Filling g s r s.heap.length [] (s.newCopy r) := by
  refine ⟨h.newCopy hr, fun i hi => ?_, ⟨⟨[], none⟩, ?_, .nil⟩,
    fun q d hq => newCopy_of_cached hnone hq, by simp, fun q d hq => ?_⟩
  · exact List.getElem?_append_left hi
  · exact List.getElem?_concat_length
  · exact (cache_newCopy hq).imp_right .inl

omit [DecidableEq Leaf] in
lemma Filling.finish {tab : Table Leaf Meta} (htab : g.tables[r]? = some tab)
    (h : Filling g s r s.heap.length tab.entries t) :
    Inv g (t.setmetatable s.heap.length tab.metatable) ∧
      Extends g s (t.setmetatable s.heap.length tab.metatable) := by
  have hrange := h.inv.range r _ h.self
  refine ⟨h.inv.modify hrange.2.1 _, ⟨?_, h.cache, fun q d hq => ?_⟩⟩
  · rw [List.prefix_iff_getElem?]
    intro i hi
    rw [State.setmetatable, List.getElem?_modify_ne _ _ hi.ne', h.before i hi,
      List.getElem?_eq_getElem hi]
  · rcases h.new_modify _ hq with hold | ⟨rfl, rfl⟩ | ⟨hlt, hdone⟩
    · exact .inl hold
    · obtain ⟨tab', htab', hentries⟩ := h.own
      refine .inr ⟨le_rfl, tab, { tab' with metatable := tab.metatable }, htab, ?_, hentries, rfl⟩
      rw [State.setmetatable, List.getElem?_modify_eq, htab']
      rfl
    · exact .inr ⟨hlt.le, hdone⟩

lemma copyValue_spec (hcopy : Copies g m copy) : Copies g (m + 1) (copyValue copy) := by
  intro v s hinv hv hmissing
  cases v with
  | leaf l => exact ⟨.leaf l, s, rfl, hinv, .refl g s, .leaf l⟩
  | table r =>
    rw [copyValue]
    cases hcache : s.cache r with
    | some c => exact ⟨.table c, s, rfl, hinv, .refl g s, .table hcache⟩
    | none =>
      have hr : r < g.tables.length := hv
      have htab : g.tables[r]? = some g.tables[r] := List.getElem?_eq_getElem hr
      have hmem : g.tables[r] ∈ g.tables := List.getElem_mem hr
      have hless := missing_newCopy hr hcache
      obtain ⟨t, ht, hfilled⟩ := copyEntries_spec hcopy (Filling.init hinv hr hcache)
        (g.entries_within _ hmem) (g.keys_nodup _ hmem) (by omega)
      obtain ⟨hinv', hext⟩ := hfilled.finish htab
      refine ⟨_, _, ?_, hinv', hext, .table hfilled.self⟩
      simp only [getElem?_of_extends hinv.tables hr, htab, Option.bind_eq_bind, Option.bind_some,
        ht]
      rfl

lemma cycleAwareDeepcopy_spec (fuel : Nat) : Copies g fuel (cycleAwareDeepcopy fuel) := by
  induction fuel with
  | zero => exact fun _ _ _ _ h => absurd h (Nat.not_lt_zero _)
  | succ fuel ih => exact copyValue_spec ih

/-! ### More fuel -/

/-- A call that returns returns the same when calls can be nested deeper. -/
def Refines (copy copy' : Value Leaf → State Leaf Meta → Option (Value Leaf × State Leaf Meta)) :
    Prop :=
  ∀ v s r, copy v s = some r → copy' v s = some r

lemma copyEntries_mono (h : Refines copy copy') (ht : copyEntries copy c es t = some t') :
    copyEntries copy' c es t = some t' := by
  induction es generalizing t with
  | nil => exact ht
  | cons e es ih =>
    simp only [copyEntries, Option.bind_eq_bind, Option.bind_eq_some_iff] at ht ⊢
    obtain ⟨⟨k', t₁⟩, hk, ⟨v', t₂⟩, hv, hrest⟩ := ht
    exact ⟨(k', t₁), h _ _ _ hk, (v', t₂), h _ _ _ hv, ih hrest⟩

lemma copyValue_mono (h : Refines copy copy') : Refines (copyValue copy) (copyValue copy') := by
  intro v s r hr
  cases v with
  | leaf l => exact hr
  | table q =>
    rw [copyValue] at hr ⊢
    cases hcache : s.cache q with
    | some c => rwa [hcache] at hr
    | none =>
      simp only [hcache, Option.bind_eq_bind, Option.bind_eq_some_iff] at hr ⊢
      obtain ⟨t, ht, s', hs', hrest⟩ := hr
      exact ⟨t, ht, s', copyEntries_mono h hs', hrest⟩

lemma cycleAwareDeepcopy_succ (fuel : Nat) :
    Refines (cycleAwareDeepcopy fuel : Value Leaf → State Leaf Meta → _)
      (cycleAwareDeepcopy (fuel + 1)) := by
  induction fuel with
  | zero => exact fun _ _ r h => absurd h.symm (Option.some_ne_none r)
  | succ fuel ih => exact copyValue_mono ih

lemma cycleAwareDeepcopy_mono {fuel fuel' : Nat} (hle : fuel ≤ fuel') :
    Refines (cycleAwareDeepcopy fuel : Value Leaf → State Leaf Meta → _)
      (cycleAwareDeepcopy fuel') := by
  induction hle with
  | refl => exact fun _ _ _ h => h
  | step _ ih => exact fun v s r h => cycleAwareDeepcopy_succ _ v s r (ih v s r h)

/-! ### The copied graph -/

section Graph

variable {heap' : Heap Leaf Meta} {cache : Nat → Option Nat}

omit [DecidableEq Leaf]

lemma Done.refers (h : Done g s r c) (hq : Refers g.tables r q) :
    ∃ d, s.cache q = some d ∧ Refers s.heap c d := by
  obtain ⟨t, t', ht, ht', hentries, -⟩ := h
  obtain ⟨tab, htab, e, he, heq⟩ := hq
  obtain rfl : t = tab := Option.some.inj (ht.symm.trans htab)
  obtain ⟨e', he', hk, hv⟩ := exists_copiedEntry hentries he
  rcases heq with heq | heq
  · rw [heq] at hk
    generalize hw : e'.1 = w at hk
    cases hk with
    | table hcache => exact ⟨_, hcache, t', ht', e', he', .inl hw⟩
  · rw [heq] at hv
    generalize hw : e'.2 = w at hv
    cases hv with
    | table hcache => exact ⟨_, hcache, t', ht', e', he', .inr hw⟩

lemma Done.refers_copy (h : Done g s r c) (hd : Refers s.heap c d) :
    ∃ q, s.cache q = some d ∧ Refers g.tables r q := by
  obtain ⟨t, t', ht, ht', hentries, -⟩ := h
  obtain ⟨tab, htab, e', he', heq⟩ := hd
  obtain rfl : t' = tab := Option.some.inj (ht'.symm.trans htab)
  obtain ⟨e, he, hk, hv⟩ := exists_entry_of_copied hentries he'
  rcases heq with heq | heq
  · rw [heq] at hk
    generalize hw : e.1 = w at hk
    cases hk with
    | table hcache => exact ⟨_, hcache, t, ht, e, he, .inl hw⟩
  · rw [heq] at hv
    generalize hw : e.2 = w at hv
    cases hv with
    | table hcache => exact ⟨_, hcache, t, ht, e, he, .inr hw⟩

variable (hdone : ∀ r c, s.cache r = some c → Done g s r c)

include hdone

lemma exists_copy_of_reach (hv : Copied s.cache v v') (hr : r ∈ reach g.tables v) :
    ∃ c, s.cache r = some c ∧ c ∈ reach s.heap v' := by
  obtain ⟨top, rfl, hpath⟩ := hr
  induction hpath with
  | refl =>
    cases hv with
    | table hcache => exact ⟨_, hcache, _, rfl, .refl⟩
  | tail _ hstep ih =>
    obtain ⟨c, hc, top', hv', hpath'⟩ := ih
    obtain ⟨d, hd, hrefers⟩ := (hdone _ c hc).refers hstep
    exact ⟨d, hd, top', hv', hpath'.tail hrefers⟩

lemma exists_of_reach_copy (hv : Copied s.cache v v') (hc : c ∈ reach s.heap v') :
    ∃ r, s.cache r = some c ∧ r ∈ reach g.tables v := by
  obtain ⟨top, rfl, hpath⟩ := hc
  induction hpath with
  | refl =>
    cases hv with
    | table hcache => exact ⟨_, hcache, _, rfl, .refl⟩
  | tail _ hstep ih =>
    obtain ⟨r, hr, top', hv', hpath'⟩ := ih
    obtain ⟨q, hq, hrefers⟩ := (hdone r _ hr).refers_copy hstep
    exact ⟨q, hq, top', hv', hpath'.tail hrefers⟩

/-- A cache that is complete is an isomorphism of what the value leads to. -/
lemma isCopy_of_done (hinv : Inv g s) (hv : Copied s.cache v v') :
    IsCopy g.tables v s.heap v' fun r => (s.cache r).getD r := by
  refine ⟨hv.eq_map, ⟨fun r hr => ?_, fun r hr q hq heq => ?_, fun c hc => ?_⟩, fun r hr => ?_,
    fun c hc => ?_, hinv.tables⟩
  · obtain ⟨c, hcache, hc⟩ := exists_copy_of_reach hdone hv hr
    simpa [hcache] using hc
  · obtain ⟨c, hc, -⟩ := exists_copy_of_reach hdone hv hr
    obtain ⟨d, hd, -⟩ := exists_copy_of_reach hdone hv hq
    obtain rfl : c = d := by simpa [hc, hd] using heq
    exact hinv.inj r q c hc hd
  · obtain ⟨r, hcache, hr⟩ := exists_of_reach_copy hdone hv hc
    exact ⟨r, hr, by simp [hcache]⟩
  · obtain ⟨c, hcache, -⟩ := exists_copy_of_reach hdone hv hr
    obtain ⟨t, t', ht, ht', hentries, hmeta⟩ := hdone r c hcache
    refine ⟨t, ht, ?_⟩
    rw [hcache, Option.getD_some, ht', Table.map, ← eq_map_of_copied hentries, ← hmeta]
  · obtain ⟨r, hcache, -⟩ := exists_of_reach_copy hdone hv hc
    exact (hinv.range r c hcache).2.1

end Graph

/-- The copy of a graph is a graph of the same shape on tables of its own, and calls are nested no
deeper than there are tables. -/
theorem deepcopy_isCopy (g : TableGraph Leaf Meta) :
    ∃ root' s' f, (∀ fuel, g.tables.length < fuel →
        deepcopy fuel g.tables g.root = some (root', s')) ∧
      IsCopy g.tables g.root s'.heap root' f := by
  have hnone : ∀ r c, (fun _ => none : Nat → Option Nat) r ≠ some c := fun r c h =>
    Option.some_ne_none c h.symm
  have hinv : Inv g ⟨g.tables, fun _ => none⟩ :=
    ⟨List.prefix_rfl, fun r c h => absurd h (hnone r c), fun r _ c h => absurd h (hnone r c)⟩
  have hmissing : missing g ⟨g.tables, fun _ => none⟩ < g.tables.length + 1 := by
    simp [missing]
  obtain ⟨root', s', hcopy, hinv', hext, hroot⟩ :=
    cycleAwareDeepcopy_spec (g.tables.length + 1) g.root _ hinv g.root_within hmissing
  have hdone : ∀ r c, s'.cache r = some c → Done g s' r c := fun r c hc =>
    ((hext.new r c hc).resolve_left (hnone r c)).2
  exact ⟨root', s', _, fun fuel hfuel => cycleAwareDeepcopy_mono hfuel _ _ _ hcopy,
    isCopy_of_done hdone hinv' hroot⟩

end Verilua.LuaUtils.DeepCopy
