import Mathlib.Data.Set.Function

/-!
# Enumerations

`enum_define` makes a table of names and values callable with a value. The names are looked up in a
second table, which is filled by one loop over the first in whatever order `pairs` has.
-/

namespace Verilua.LuaUtils

/-- A value that can be a key; numbers, tables and what else there is are told apart by `id`. -/
inductive Key
  | string (s : String)
  | other (id : Nat)
  deriving DecidableEq

/-- NaN is a value, and no key. -/
inductive EnumValue
  | key (k : Key)
  | nan
  deriving DecidableEq

/-- A table; a key without a value is `nil`. -/
abbrev EnumTable := Key → Option EnumValue

namespace EnumTable

def nameKey : Key := .string "name"

def reverseKey : Key := .string "__reverse__"

/-- What stands in the table before the loop; `reverse` is the table `{}`. -/
def prepare (reverse : Nat) (t : EnumTable) : EnumTable :=
  let t := if t nameKey = none then
    Function.update t nameKey (some (.key (.string "Undefined"))) else t
  Function.update t reverseKey (some (.key (.other reverse)))

/-- A traversal with `pairs`: every key once, in any order. -/
structure Traversal (t : EnumTable) (order : List Key) : Prop where
  nodup : order.Nodup
  mem_iff : ∀ k, k ∈ order ↔ t k ≠ none

/-- The loop of `enum_define`; none is an error. -/
def fillReverse (t : EnumTable) : List Key → (Key → Option Key) → Option (Key → Option Key)
  | [], rev => some rev
  | k :: ks, rev =>
    if k = nameKey then fillReverse t ks rev
    else
      match t k with
      | some (.key v) =>
        if rev v = none ∨ rev v ≠ some k then fillReverse t ks (Function.update rev v (some k))
        else none
      | some .nan => none
      | none => none

end EnumTable

open EnumTable (nameKey reverseKey prepare fillReverse Traversal)

/-- What `enum_define` returns: the table, and what `__reverse__` holds. -/
structure EnumDef where
  table : EnumTable
  reverse : Key → Option Key

/-- `enum_define`, where `pairs` goes through the keys in `order`. -/
def enumDefine (reverse : Nat) (t : EnumTable) (order : List Key) : Option EnumDef :=
  (fillReverse (prepare reverse t) order fun _ => none).map fun rev => ⟨prepare reverse t, rev⟩

/-- `__call`; a value that is not found is an error. -/
def EnumDef.call (e : EnumDef) : Option EnumValue → Option Key
  | some (.key v) => e.reverse v
  | some .nan => none
  | none => none

/-- The names of the enumerators, as `__pairs` shows them. -/
def enumerators (t : EnumTable) : Set Key :=
  {k | t k ≠ none ∧ k ≠ nameKey ∧ k ≠ reverseKey}

variable {t : EnumTable} {k k' v : Key} {ks order : List Key} {rev rev' : Key → Option Key}
  {reverse : Nat}

/-! ### The loop -/

/-- A turn that raises no error leaves the key of `name` alone, and files any other. -/
lemma of_fillReverse_cons (h : fillReverse t (k :: ks) rev = some rev') :
    k = nameKey ∧ fillReverse t ks rev = some rev' ∨
      k ≠ nameKey ∧ ∃ v, t k = some (.key v) ∧
        fillReverse t ks (Function.update rev v (some k)) = some rev' := by
  rw [fillReverse] at h
  by_cases hname : k = nameKey
  · rw [if_pos hname] at h
    exact .inl ⟨hname, h⟩
  · rw [if_neg hname] at h
    cases hk : t k with
    | none => rw [hk] at h; cases h
    | some x =>
      cases x with
      | nan => rw [hk] at h; cases h
      | key v =>
        simp only [hk] at h
        split_ifs at h with hassert
        exact .inr ⟨hname, v, rfl, h⟩

lemma fillReverse_sound (h : fillReverse t ks rev = some rev') (hv : rev' v = some k) :
    rev v = some k ∨ k ∈ ks ∧ k ≠ nameKey ∧ t k = some (.key v) := by
  induction ks generalizing rev with
  | nil =>
    obtain rfl : rev = rev' := Option.some.inj h
    exact .inl hv
  | cons j ks ih =>
    rcases of_fillReverse_cons h with ⟨-, h⟩ | ⟨hname, w, hj, h⟩
    · exact (ih h).imp_right fun ⟨hmem, hrest⟩ => ⟨List.mem_cons_of_mem j hmem, hrest⟩
    · rcases ih h with hrev | ⟨hmem, hrest⟩
      · by_cases hvw : v = w
        · subst hvw
          obtain rfl : j = k := by simpa using hrev
          exact .inr ⟨List.mem_cons_self, hname, hj⟩
        · rw [Function.update_of_ne hvw] at hrev
          exact .inl hrev
      · exact .inr ⟨List.mem_cons_of_mem j hmem, hrest⟩

lemma fillReverse_isSome (h : fillReverse t ks rev = some rev')
    (hv : rev v ≠ none ∨ ∃ k ∈ ks, k ≠ nameKey ∧ t k = some (.key v)) : rev' v ≠ none := by
  induction ks generalizing rev with
  | nil =>
    obtain rfl : rev = rev' := Option.some.inj h
    exact hv.resolve_right fun ⟨k, hk, _⟩ => List.not_mem_nil hk
  | cons j ks ih =>
    rcases of_fillReverse_cons h with ⟨hname, h⟩ | ⟨hname, w, hj, h⟩
    · refine ih h (hv.imp_right ?_)
      rintro ⟨k, hk, hne, hkv⟩
      exact ⟨k, (List.mem_cons.mp hk).resolve_left fun heq => hne (heq.trans hname), hne, hkv⟩
    · refine ih h ?_
      by_cases hvw : v = w
      · subst hvw
        exact .inl (by simp)
      · rw [Function.update_of_ne hvw]
        refine hv.imp_right ?_
        rintro ⟨k, hk, hne, hkv⟩
        refine ⟨k, (List.mem_cons.mp hk).resolve_left fun heq => hvw ?_, hne, hkv⟩
        rw [heq, hj] at hkv
        simpa using hkv.symm

/-- The assertion never fails: what it finds is the name of an earlier turn. -/
lemma exists_fillReverse (hnodup : ks.Nodup)
    (hvalue : ∀ k ∈ ks, k ≠ nameKey → ∃ v, t k = some (.key v))
    (hrev : ∀ v, ∀ k ∈ ks, rev v ≠ some k) : ∃ rev', fillReverse t ks rev = some rev' := by
  induction ks generalizing rev with
  | nil => exact ⟨rev, rfl⟩
  | cons j ks ih =>
    obtain ⟨hnot, hnodup⟩ := List.nodup_cons.mp hnodup
    obtain ⟨hj, hvalue⟩ := List.forall_mem_cons.mp hvalue
    rw [fillReverse]
    by_cases hname : j = nameKey
    · rw [if_pos hname]
      exact ih hnodup hvalue fun v k hk => hrev v k (List.mem_cons_of_mem j hk)
    · obtain ⟨w, hw⟩ := hj hname
      simp only [if_neg hname, hw, if_pos (Or.inr (hrev w j List.mem_cons_self))]
      refine ih hnodup hvalue fun v k hk => ?_
      by_cases hvw : v = w
      · subst hvw
        simpa using fun heq : j = k => hnot (heq ▸ hk)
      · rw [Function.update_of_ne hvw]
        exact hrev v k (List.mem_cons_of_mem j hk)

lemma fillReverse_values (h : fillReverse t ks rev = some rev') (hk : k ∈ ks)
    (hname : k ≠ nameKey) : ∃ v, t k = some (.key v) := by
  induction ks generalizing rev with
  | nil => exact absurd hk List.not_mem_nil
  | cons j ks ih =>
    rcases of_fillReverse_cons h with ⟨hj, h⟩ | ⟨-, v, hj, h⟩
    · exact ih h ((List.mem_cons.mp hk).resolve_left fun heq => hname (heq.trans hj))
    · rcases List.mem_cons.mp hk with rfl | hk
      · exact ⟨v, hj⟩
      · exact ih h hk

/-! ### The enumeration -/

lemma prepare_apply (reverse : Nat) (t : EnumTable) (hname : k ≠ nameKey)
    (hreverse : k ≠ reverseKey) :
    prepare reverse t k = t k := by
  rw [prepare, Function.update_of_ne hreverse]
  split_ifs
  · exact Function.update_of_ne hname _ _
  · rfl

lemma prepare_reverseKey : prepare reverse t reverseKey = some (.key (.other reverse)) := by
  rw [prepare, Function.update_self]

lemma prepare_enumerator (reverse : Nat) (hk : k ∈ enumerators t) : prepare reverse t k = t k :=
  prepare_apply reverse t hk.2.1 hk.2.2

section Traversal

variable (h : Traversal (prepare reverse t) order)

include h

lemma mem_order_of_enumerator (hk : k ∈ enumerators t) : k ∈ order :=
  (h.mem_iff k).mpr (by rw [prepare_enumerator reverse hk]; exact hk.1)

/-- The keys of a traversal that are no enumerators are `name` and `__reverse__`. -/
lemma enumerator_of_mem_order (hk : k ∈ order) (hname : k ≠ nameKey) (hreverse : k ≠ reverseKey) :
    k ∈ enumerators t := by
  refine ⟨?_, hname, hreverse⟩
  rw [← prepare_apply reverse t hname hreverse]
  exact (h.mem_iff k).mp hk

lemma exists_enumDefine (hnan : ∀ k ∈ enumerators t, t k ≠ some .nan) :
    ∃ e, enumDefine reverse t order = some e := by
  have hvalue : ∀ k ∈ order, k ≠ nameKey → ∃ v, prepare reverse t k = some (.key v) := by
    intro k hk hname
    by_cases hreverse : k = reverseKey
    · exact ⟨.other reverse, hreverse ▸ prepare_reverseKey⟩
    · have hmem := enumerator_of_mem_order h hk hname hreverse
      rw [prepare_enumerator reverse hmem]
      cases hx : t k with
      | none => exact absurd hx hmem.1
      | some x =>
        cases x with
        | nan => exact absurd hx (hnan k hmem)
        | key v => exact ⟨v, rfl⟩
  have hempty : ∀ v, ∀ k ∈ order, (fun _ => none : Key → Option Key) v ≠ some k :=
    fun _ k _ => (Option.some_ne_none k).symm
  obtain ⟨rev, hrev⟩ := exists_fillReverse h.nodup hvalue hempty
  exact ⟨⟨prepare reverse t, rev⟩, by rw [enumDefine, hrev]; rfl⟩

lemma call_of_injOn {e : EnumDef} (hfresh : ∀ k, t k ≠ some (.key (.other reverse)))
    (hinj : Set.InjOn t (enumerators t)) (he : enumDefine reverse t order = some e)
    (hk : k ∈ enumerators t) : e.call (e.table k) = some k := by
  obtain ⟨rev, hrev, rfl⟩ := Option.map_eq_some_iff.mp he
  have hmem := mem_order_of_enumerator h hk
  obtain ⟨v, hv⟩ := fillReverse_values hrev hmem hk.2.1
  have hfound : rev v ≠ none := fillReverse_isSome hrev (.inr ⟨k, hmem, hk.2.1, hv⟩)
  obtain ⟨k', hk'⟩ := Option.ne_none_iff_exists'.mp hfound
  obtain ⟨hmem', hname', hv'⟩ := (fillReverse_sound hrev hk').resolve_left fun h => nomatch h
  have hreverse' : k' ≠ reverseKey := by
    rintro rfl
    refine hfresh k ?_
    rw [← prepare_enumerator reverse hk, hv, ← hv', prepare_reverseKey]
  have hmem'' := enumerator_of_mem_order h hmem' hname' hreverse'
  have heq : t k = t k' := by
    rw [← prepare_enumerator reverse hk, hv, ← hv', prepare_enumerator reverse hmem'']
  obtain rfl := hinj hk hmem'' heq
  exact (congrArg _ hv).trans hk'

end Traversal

/-- Looking up by value inverts looking up by name, and no definition in which two names share a
value is accepted. -/
structure Inverts (reverse : Nat) (t : EnumTable) (order : List Key) : Prop where
  call : ∀ e, enumDefine reverse t order = some e →
    ∀ k ∈ enumerators t, e.call (e.table k) = some k
  distinct : ∀ e, enumDefine reverse t order = some e → Set.InjOn t (enumerators t)

lemma table_of_enumDefine {e : EnumDef} (he : enumDefine reverse t order = some e) :
    e.table = prepare reverse t := by
  obtain ⟨rev, -, rfl⟩ := Option.map_eq_some_iff.mp he
  rfl

lemma injOn_of_call {e : EnumDef} (he : enumDefine reverse t order = some e)
    (hcall : ∀ k ∈ enumerators t, e.call (e.table k) = some k) :
    Set.InjOn t (enumerators t) := by
  intro k hk k' hk' heq
  have htable : e.table k = e.table k' := by
    rw [table_of_enumDefine he, prepare_enumerator reverse hk, prepare_enumerator reverse hk', heq]
  have hfound := hcall k hk
  rw [htable, hcall k' hk'] at hfound
  exact (Option.some.inj hfound).symm

theorem inverts_iff (h : Traversal (prepare reverse t) order)
    (hfresh : ∀ k, t k ≠ some (.key (.other reverse))) :
    Inverts reverse t order ↔
      (∃ k ∈ enumerators t, t k = some .nan) ∨ Set.InjOn t (enumerators t) := by
  constructor
  · rintro ⟨hcall, -⟩
    by_cases hnan : ∃ k ∈ enumerators t, t k = some .nan
    · exact .inl hnan
    · obtain ⟨e, he⟩ := exists_enumDefine h fun k hk heq => hnan ⟨k, hk, heq⟩
      exact .inr (injOn_of_call he (hcall e he))
  · rintro (⟨k, hk, hnan⟩ | hinj)
    · -- a NaN raises an error in the loop
      have hnone : ∀ e, enumDefine reverse t order ≠ some e := by
        intro e he
        obtain ⟨rev, hrev, -⟩ := Option.map_eq_some_iff.mp he
        obtain ⟨v, hv⟩ := fillReverse_values hrev (mem_order_of_enumerator h hk) hk.2.1
        rw [prepare_enumerator reverse hk, hnan] at hv
        cases hv
      exact ⟨fun e he => absurd he (hnone e), fun e he => absurd he (hnone e)⟩
    · exact ⟨fun e he k hk => call_of_injOn h hfresh hinj he hk, fun _ _ => hinj⟩

/-- A definition of two names. -/
def twoNames (v w : Nat) : EnumTable := fun k =>
  if k = .string "RUN" then some (.key (.other v))
  else if k = .string "STOP" then some (.key (.other w))
  else none

def twoNamesOrder : List Key := [.string "RUN", .string "STOP", nameKey, reverseKey]

lemma traversal_twoNames (v w : Nat) : Traversal (prepare 0 (twoNames v w)) twoNamesOrder := by
  refine ⟨by decide, fun k => ?_⟩
  by_cases hreverse : k = reverseKey
  · subst hreverse
    exact iff_of_true (by decide) (by simp [prepare_reverseKey])
  · by_cases hname : k = nameKey
    · subst hname
      refine iff_of_true (by decide) ?_
      have hnone : twoNames v w nameKey = none := rfl
      rw [prepare, Function.update_of_ne hreverse, if_pos hnone, Function.update_self]
      exact Option.some_ne_none _
    · rw [prepare_apply 0 _ hname hreverse, twoNames]
      split_ifs with hrun hstop <;> simp_all [twoNamesOrder]

theorem inverts_iff_twoNames :
    Inverts 0 (twoNames 1 2) twoNamesOrder ↔
      (∃ k ∈ enumerators (twoNames 1 2), twoNames 1 2 k = some .nan) ∨
        Set.InjOn (twoNames 1 2) (enumerators (twoNames 1 2)) := by
  refine inverts_iff (traversal_twoNames 1 2) fun k => ?_
  rw [twoNames]
  split_ifs <;> decide

/-- `RUN` and `STOP` with one value are accepted, and the value has the name `STOP`. -/
theorem not_inverts :
    ¬ ∀ (reverse : Nat) (t : EnumTable) (order : List Key), Traversal (prepare reverse t) order →
      (∀ k, t k ≠ some (.key (.other reverse))) → Inverts reverse t order := by
  intro h
  have hinverts := h 0 (twoNames 1 1) twoNamesOrder (traversal_twoNames 1 1) fun k => by
    rw [twoNames]
    split_ifs <;> decide
  obtain ⟨e, he⟩ := exists_enumDefine (traversal_twoNames 1 1) fun k _ => by
    rw [twoNames]
    split_ifs <;> decide
  have hrun : Key.string "RUN" ∈ enumerators (twoNames 1 1) := ⟨by decide, by decide, by decide⟩
  have hstop : Key.string "STOP" ∈ enumerators (twoNames 1 1) := ⟨by decide, by decide, by decide⟩
  exact absurd (hinverts.distinct e he hrun hstop rfl) (by decide)

end Verilua.LuaUtils
