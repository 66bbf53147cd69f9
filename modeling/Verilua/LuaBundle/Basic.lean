import Mathlib.Data.List.Nodup
import Mathlib.Logic.Function.Basic

/-!
# Bundles of handles

`Bundle:_init` makes a handle of every signal and puts it into the object under the name of the
signal, beside what the object has for itself: what is set before the signals can be replaced by
them, and what is set after them replaces them. A Lua error is an `Error`.
-/

namespace Verilua.LuaBundle

abbrev Text := List Char

/-! ### Handles -/

/-- What `vpiml_get_hdl_type` says of a handle. -/
inductive HdlType
  | vpiReg
  | vpiNet
  | vpiLogicVar
  | vpiBitVar
  | vpiRegArray
  | vpiArrayVar
  | vpiNetArray
  | vpiMemory
  | other (name : Text)

/-- `is_array`, of a type that is known. -/
def HdlType.isArray : HdlType → Option Bool
  | .vpiReg | .vpiNet | .vpiLogicVar | .vpiBitVar => some false
  | .vpiRegArray | .vpiArrayVar | .vpiNetArray | .vpiMemory => some true
  | .other _ => none

/-- What the simulator has at a path; the width is that of an element of an array. -/
structure VpiHandle where
  hdlType : HdlType
  width : Nat

/-- `vpiml_handle_by_name_safe` -/
abbrev Design := Text → Option VpiHandle

structure CallableHDL where
  fullpath : Text
  name : Text
  width : Nat
  isArray : Bool

inductive Error
  | noHandle (fullpath name : Text)
  | unknownHdlType (fullpath name : Text)
  | noValid
  | indexed (key : Text)
  | called (key : Text)
  | notImplemented (fullpath : Text) (width : Nat)
  | concatenated

/-- `CallableHDL:_init`, without the signals that are exported to the DPI. -/
def CallableHDL.init (design : Design) (fullpath name : Text) (hdl : Option VpiHandle) :
    Except Error CallableHDL :=
  match hdl <|> design fullpath with
  | none => .error (.noHandle fullpath name)
  | some hdl =>
    match hdl.hdlType.isArray with
    | none => .error (.unknownHdlType fullpath name)
    | some isArray => .ok ⟨fullpath, name, hdl.width, isArray⟩

/-! ### The object -/

/-- What a field of the object can be. The items of the tables that the object has for itself are
kept beside. -/
inductive Value
  | text (s : Text)
  | flag (b : Bool)
  | table
  | function
  | hdl (chdl : CallableHDL)

def Value.hdl? : Value → Option CallableHDL
  | .hdl chdl => some chdl
  | _ => none

/-- The arguments of `Bundle:_init`. -/
structure Args where
  signalsTable : List Text
  signalPrefix : Text
  hierarchy : Text
  name : Option Text
  isDecoupled : Bool
  optionalSignals : Option (List Text)

def valid : Text := "valid".toList

def ready : Text := "ready".toList

def unknown : Text := "Unknown".toList

def signalsTableKey : Text := "signals_table".toList

def isDecoupledKey : Text := "is_decoupled".toList

def nameKey : Text := "name".toList

structure Bundle where
  field : Text → Option Value
  /-- The items of the table that the field `signals_table` has. -/
  signalsTable : List Text
  bits : Text → Option CallableHDL

namespace Args

variable (a : Args)

def optionals : List Text := a.optionalSignals.getD []

def fullpath (signal : Text) : Text := a.hierarchy ++ '.' :: (a.signalPrefix ++ signal)

/-- The path of a signal; what is neither `valid` nor `ready` belongs to the bits of a decoupled
bundle. -/
def signalPath (signal : Text) : Text :=
  if a.isDecoupled ∧ signal ≠ valid ∧ signal ≠ ready then a.fullpath ("bits_".toList ++ signal)
  else a.fullpath signal

/-- The fields that are set before the signals. -/
def fields : List (Text × Value) :=
  [("__type".toList, .text "Bundle".toList), (signalsTableKey, .table),
    ("prefix".toList, .text a.signalPrefix), ("hierarchy".toList, .text a.hierarchy),
    (nameKey, .text (a.name.getD unknown)), (isDecoupledKey, .flag a.isDecoupled)] ++
  if a.isDecoupled then [("bits".toList, .table)] else []

end Args

/-- The fields that are set after the signals. -/
def methods : List (Text × Value) :=
  [("fire".toList, .function), ("get_all".toList, .function), ("set_all".toList, .function),
    ("__dump_parts".toList, .table), ("dump_str".toList, .function),
    ("format_dump_str".toList, .function), ("dump".toList, .function),
    ("format_dump".toList, .function)]

/-- What becomes of the handle at a path, if its type is known. -/
def CallableHDL.find (design : Design) (fullpath name : Text) : Option CallableHDL :=
  (design fullpath).bind fun hdl =>
    hdl.hdlType.isArray.map fun isArray => ⟨fullpath, name, hdl.width, isArray⟩

/-- The handle of a signal. An optional signal that is not there is left out. -/
def signalHandle (design : Design) (optionals : List Text) (fullpath signal : Text) :
    Except Error (Option CallableHDL) :=
  if optionals.contains signal then
    match design fullpath with
    | none => .ok none
    | some hdl => some <$> CallableHDL.init design fullpath signal (some hdl)
  else some <$> CallableHDL.init design fullpath signal none

namespace Bundle

/-- `rawset(self, key, v)`; a handle in the place of the table of signals has no items. -/
def rawset (b : Bundle) (key : Text) (v : Value) : Bundle :=
  { b with
    field := Function.update b.field key (some v)
    signalsTable := if key = signalsTableKey then [] else b.signalsTable }

/-- The end of a turn of the loop of a bundle that is not decoupled. -/
def put (b : Bundle) (signal : Text) : Option CallableHDL → Bundle
  | none => b
  | some chdl =>
    let b := b.rawset signal (.hdl chdl)
    { b with signalsTable := b.signalsTable ++ [signal] }

/-- The end of a turn of the loop of a decoupled bundle. -/
def putDecoupled (b : Bundle) (signal : Text) : Option CallableHDL → Bundle
  | none => b
  | some chdl =>
    if signal = valid ∨ signal = ready then b.rawset signal (.hdl chdl)
    else { b with bits := Function.update b.bits signal (some chdl) }

/-- The methods take the places of the fields of their names. -/
def withMethods (b : Bundle) : Bundle :=
  { b with field := fun key => methods.lookup key <|> b.field key }

/-- The object before the signals, without items in its table. -/
def start (a : Args) : Bundle := ⟨fun key => a.fields.lookup key, [], fun _ => none⟩

/-- `Bundle:_init` -/
def init (design : Design) (a : Args) : Except Error Bundle :=
  if a.isDecoupled then
    if a.signalsTable.contains valid then
      withMethods <$> a.signalsTable.foldlM (fun b signal => do
        return b.putDecoupled signal
          (← signalHandle design a.optionals (a.signalPath signal) signal))
        { start a with signalsTable := a.signalsTable }
    else .error .noValid
  else
    withMethods <$> a.signalsTable.foldlM (fun b signal => do
      return b.put signal (← signalHandle design a.optionals (a.signalPath signal) signal))
      (start a)

/-- The handle that a field has. -/
def chdl (b : Bundle) (key : Text) : Option CallableHDL := (b.field key).bind Value.hdl?

end Bundle

/-! ### Making the handles -/

section Handles

variable {design : Design} {a : Args} {optionals : List Text} {fullpath signal : Text}
  {o : Option CallableHDL}

lemma CallableHDL.init_eq_ok {hdl : Option VpiHandle} {chdl : CallableHDL}
    (hhdl : (hdl <|> design fullpath) = design fullpath) :
    CallableHDL.init design fullpath signal hdl = .ok chdl ↔
      CallableHDL.find design fullpath signal = some chdl := by
  rw [CallableHDL.init, CallableHDL.find, hhdl]
  cases design fullpath with
  | none => simp
  | some hdl =>
    rw [Option.bind_some]
    dsimp only
    cases hdl.hdlType.isArray <;> simp

lemma eq_find_of_signalHandle (h : signalHandle design optionals fullpath signal = .ok o) :
    o = CallableHDL.find design fullpath signal ∧ o.isSome = (design fullpath).isSome := by
  have hmap : ∀ {hdl : Option VpiHandle}, (hdl <|> design fullpath) = design fullpath →
      some <$> CallableHDL.init design fullpath signal hdl = .ok o →
      o = CallableHDL.find design fullpath signal ∧ o.isSome = (design fullpath).isSome := by
    intro hdl hhdl hinit
    cases hchdl : CallableHDL.init design fullpath signal hdl with
    | error e =>
      rw [hchdl] at hinit
      cases hinit
    | ok chdl =>
      rw [hchdl] at hinit
      cases hinit
      have hfind := (CallableHDL.init_eq_ok hhdl).mp hchdl
      refine ⟨hfind.symm, ?_⟩
      obtain ⟨hdl, hsome, -⟩ := Option.bind_eq_some_iff.mp hfind
      rw [hsome]
      rfl
  rw [signalHandle] at h
  split_ifs at h
  · cases hdesign : design fullpath with
    | none =>
      rw [hdesign] at h
      cases h
      exact ⟨by rw [CallableHDL.find, hdesign, Option.bind_none], rfl⟩
    | some hdl =>
      rw [hdesign] at h
      rw [← hdesign]
      exact hmap (by rw [hdesign]; rfl) h
  · exact hmap rfl h

lemma signalHandle_of_find {chdl : CallableHDL}
    (h : CallableHDL.find design fullpath signal = some chdl) :
    signalHandle design optionals fullpath signal = .ok (some chdl) := by
  obtain ⟨hdl, hsome, -⟩ := Option.bind_eq_some_iff.mp h
  have hgiven : (some hdl <|> design fullpath) = design fullpath := by rw [hsome]; rfl
  have hlooked : (none <|> design fullpath) = design fullpath := rfl
  rw [signalHandle, (CallableHDL.init_eq_ok hlooked).mpr h]
  split_ifs
  · rw [hsome]
    dsimp only
    rw [(CallableHDL.init_eq_ok hgiven).mpr h]
    rfl
  · rfl

end Handles

/-! ### Making the bundle -/

lemma map_eq_ok {ε α β : Type} {x : Except ε α} {f : α → β} {y : β} :
    f <$> x = .ok y ↔ ∃ z, x = .ok z ∧ f z = y := by
  cases x <;> simp [Functor.map, Except.map]

/-- A loop whose state is changed by what each turn gets succeeds if every turn gets something. -/
lemma foldlM_eq_ok {ε β σ ι : Type} {g : ι → Except ε β} {p : σ → ι → β → σ} {o : ι → β}
    {l : List ι} {s s' : σ} (hg : ∀ x ∈ l, ∀ y, g x = .ok y → y = o x) :
    (l.foldlM (fun s x => do return p s x (← g x)) s : Except ε σ) = .ok s' ↔
      (∀ x ∈ l, g x = .ok (o x)) ∧ s' = l.foldl (fun s x => p s x (o x)) s := by
  induction l generalizing s with
  | nil => simp [pure, Except.pure, eq_comm]
  | cons x l ih =>
    rw [List.foldlM_cons, List.foldl_cons, List.forall_mem_cons]
    cases hx : g x with
    | error e => simp [bind, Except.bind]
    | ok y =>
      obtain rfl := hg x List.mem_cons_self y hx
      have hrest := ih (s := p s x (o x)) fun z hz => hg z (List.mem_cons_of_mem _ hz)
      simpa [bind, Except.bind, pure, Except.pure] using hrest

/-- The names in the table after these have been put in; the table is another one from the name of
its own field on. -/
def listed (items names : List Text) : List Text :=
  names.foldl (fun items name => (if name = signalsTableKey then [] else items) ++ [name]) items

section Listed

variable {items names : List Text}

lemma listed_of_not_mem (h : signalsTableKey ∉ names) : listed items names = items ++ names := by
  induction names generalizing items with
  | nil => simp [listed]
  | cons name names ih =>
    rw [List.mem_cons, not_or] at h
    have hstep : listed items (name :: names) = listed (items ++ [name]) names := by
      rw [listed, List.foldl_cons, if_neg (Ne.symm h.1), listed]
    rw [hstep, ih h.2, List.append_assoc, List.singleton_append]

lemma listed_append_cons (before : List Text) :
    listed items (before ++ signalsTableKey :: names) = listed [signalsTableKey] names := by
  simp [listed]

lemma length_listed_le : (listed items names).length ≤ items.length + names.length := by
  induction names generalizing items with
  | nil => simp [listed]
  | cons name names ih =>
    have hstep := @ih ((if name = signalsTableKey then [] else items) ++ [name])
    rw [List.length_append, List.length_singleton] at hstep
    rw [List.length_cons]
    refine Nat.le_trans hstep ?_
    split_ifs
    · rw [List.length_nil]
      omega
    · omega

/-- All names are in the table unless its own field comes behind another one. -/
lemma listed_nil_eq_iff : listed [] names = names ↔ signalsTableKey ∉ names.tail := by
  cases names with
  | nil => simp [listed]
  | cons name names =>
    have hstep : listed [] (name :: names) = listed [name] names := by
      rw [listed, List.foldl_cons, ite_self, listed, List.nil_append]
    rw [hstep, List.tail_cons]
    refine ⟨fun heq hmem => ?_, fun h => by rw [listed_of_not_mem h, List.singleton_append]⟩
    obtain ⟨before, after, rfl⟩ := List.append_of_mem hmem
    have hlen := congrArg List.length heq
    have hle : (listed [signalsTableKey] after).length ≤ 1 + after.length := length_listed_le
    rw [listed_append_cons, List.length_cons, List.length_append, List.length_cons] at hlen
    omega

end Listed

namespace Args

/-- What the design has for a signal. -/
def handle (design : Design) (a : Args) (signal : Text) : Option CallableHDL :=
  CallableHDL.find design (a.signalPath signal) signal

/-- The handle of every signal is made, or left out. -/
def Opens (design : Design) (a : Args) : Prop :=
  ∀ signal ∈ a.signalsTable,
    signalHandle design a.optionals (a.signalPath signal) signal = .ok (a.handle design signal)

lemma opens_of_isSome {design : Design} {a : Args}
    (h : ∀ signal ∈ a.signalsTable, (a.handle design signal).isSome) : a.Opens design := by
  intro signal hsignal
  obtain ⟨chdl, hchdl⟩ := Option.isSome_iff_exists.mp (h signal hsignal)
  rw [signalHandle_of_find hchdl, hchdl]

lemma Opens.isSome {design : Design} {a : Args} (h : a.Opens design) {signal : Text}
    (hsignal : signal ∈ a.signalsTable) (hopt : signal ∉ a.optionals) :
    (a.handle design signal).isSome := by
  have hopen := h signal hsignal
  rw [signalHandle, if_neg (by simpa using hopt)] at hopen
  obtain ⟨chdl, -, hchdl⟩ := map_eq_ok.mp hopen
  rw [← hchdl]
  rfl

end Args

namespace Bundle

variable {design : Design} {a : Args} {b b' : Bundle} {o : Text → Option CallableHDL}
  {names : List Text} {key : Text}

section Put

lemma field_put (signal : Text) (o : Option CallableHDL) :
    (b.put signal o).field key =
      if key = signal then o.map .hdl <|> b.field key else b.field key := by
  cases o with
  | none => simp [put]
  | some chdl =>
    by_cases hkey : key = signal <;> simp [put, rawset, Function.update, hkey]

lemma field_foldl_put : (names.foldl (fun b s => b.put s (o s)) b).field key =
    if key ∈ names then (o key).map .hdl <|> b.field key else b.field key := by
  induction names generalizing b with
  | nil => simp
  | cons name names ih =>
    rw [List.foldl_cons, ih, field_put]
    by_cases hname : key = name
    · subst hname
      cases o key <;> simp
    · simp [hname]

lemma signalsTable_foldl_put : (names.foldl (fun b s => b.put s (o s)) b).signalsTable =
    listed b.signalsTable (names.filter fun s => (o s).isSome) := by
  induction names generalizing b with
  | nil => rfl
  | cons name names ih =>
    rw [List.foldl_cons, ih, List.filter_cons]
    cases ho : o name with
    | none => simp [put]
    | some chdl => simp [put, rawset, listed]

end Put

section Init

lemma lookup_methods_eq_none_iff : methods.lookup key = none ↔ key ∉ methods.map Prod.fst := by
  rw [List.lookup_eq_none_iff, List.mem_map]
  constructor
  · rintro h ⟨e, he, rfl⟩
    exact bne_iff_ne.mp (h e he) rfl
  · intro h e he
    exact bne_iff_ne.mpr fun hkey => h ⟨e, he, hkey.symm⟩

lemma lookup_bind_hdl? {fields : List (Text × Value)} (h : ∀ e ∈ fields, e.2.hdl? = none) :
    (fields.lookup key).bind Value.hdl? = none := by
  refine Option.bind_eq_none_iff.mpr fun v hv => ?_
  obtain ⟨l₁, l₂, heq, -⟩ := List.lookup_eq_some_iff.mp hv
  exact h (key, v) (by rw [heq]; simp)

lemma hdl?_fields : ∀ e ∈ a.fields, e.2.hdl? = none := by
  rw [Args.fields]
  split_ifs <;> simp [Value.hdl?]

lemma hdl?_methods : ∀ e ∈ methods, e.2.hdl? = none := by simp [methods, Value.hdl?]

lemma eq_handle : ∀ signal ∈ a.signalsTable, ∀ o,
    signalHandle design a.optionals (a.signalPath signal) signal = .ok o →
      o = a.handle design signal :=
  fun _ _ _ ho => (eq_find_of_signalHandle ho).1

lemma init_eq_ok_iff (h : a.isDecoupled = false) : init design a = .ok b ↔
    a.Opens design ∧ (a.signalsTable.foldl (fun b signal =>
      b.put signal (a.handle design signal)) (start a)).withMethods = b := by
  rw [init, if_neg (by simp [h]), map_eq_ok]
  simp only [foldlM_eq_ok eq_handle, and_assoc, exists_and_left, exists_eq_left]
  rfl

lemma field_of_init (h : a.isDecoupled = false) (hb : init design a = .ok b) :
    b.field key = (methods.lookup key <|> if key ∈ a.signalsTable then
      (a.handle design key).map .hdl <|> a.fields.lookup key else a.fields.lookup key) := by
  obtain ⟨-, rfl⟩ := (init_eq_ok_iff h).mp hb
  simp only [withMethods, field_foldl_put]
  rfl

lemma signalsTable_of_init (h : a.isDecoupled = false) (hb : init design a = .ok b) :
    b.signalsTable = listed [] (a.signalsTable.filter fun s => (a.handle design s).isSome) := by
  obtain ⟨-, rfl⟩ := (init_eq_ok_iff h).mp hb
  exact signalsTable_foldl_put

lemma chdl_of_init (h : a.isDecoupled = false) (hb : init design a = .ok b) (key : Text) :
    b.chdl key = if key ∈ methods.map Prod.fst then none
      else if key ∈ a.signalsTable then a.handle design key else none := by
  rw [chdl, field_of_init h hb]
  by_cases hkey : key ∈ methods.map Prod.fst
  · have hsome : methods.lookup key ≠ none := fun heq => lookup_methods_eq_none_iff.mp heq hkey
    obtain ⟨v, hv⟩ := Option.ne_none_iff_exists'.mp hsome
    have hnone : (methods.lookup key).bind Value.hdl? = none := lookup_bind_hdl? hdl?_methods
    rw [hv] at hnone ⊢
    rw [if_pos hkey]
    exact hnone
  · rw [if_neg hkey, lookup_methods_eq_none_iff.mpr hkey]
    have hnone : (a.fields.lookup key).bind Value.hdl? = none := lookup_bind_hdl? hdl?_fields
    split_ifs
    · cases a.handle design key with
      | none => exact hnone
      | some chdl => rfl
    · exact hnone

end Init

end Bundle

end Verilua.LuaBundle
