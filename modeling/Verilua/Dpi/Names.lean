import Mathlib.Data.List.Forall2
import Mathlib.Data.List.Nodup
import Verilua.Dpi.Getters

/-!
# Names of the accessors

A hierarchical path is flattened to an identifier, by the exporter when it emits the accessors and
again by the Lua side when it looks them up. The generated code finds an accessor by the flattened
name and a handle, the Lua side by the path of the signal in the exporter's design or in the
simulation.
-/

namespace Verilua.DpiExporter

variable {cfgTop top : List Char} {infos : List SignalInfo} {s t : SignalInfo}

/-! ### Generated identifiers -/

/-- One of the three passes of `std::replace`. -/
def replaceChar (a : Char) (p : List Char) : List Char := p.map fun c => if c = a then '_' else c

def getHierPathName (hierPath : List Char) : List Char :=
  replaceChar ']' (replaceChar '[' (replaceChar '.' hierPath))

def SignalInfo.hierPathName (s : SignalInfo) : List Char := getHierPathName s.hierPath

inductive Accessor
  | get | get64 | getVec | getHexStr | set | set64 | setVec | setHexStr
  deriving DecidableEq, Repr

namespace Accessor

def all : List Accessor := [get, get64, getVec, getHexStr, set, set64, setVec, setHexStr]

def suffix : Accessor → List Char
  | get => "_GET".toList
  | get64 => "_GET64".toList
  | getVec => "_GET_VEC".toList
  | getHexStr => "_GET_HEX_STR".toList
  | set => "_SET".toList
  | set64 => "_SET64".toList
  | setVec => "_SET_VEC".toList
  | setHexStr => "_SET_HEX_STR".toList

/-- The Lua side fetches these. -/
def isGetter (a : Accessor) : Bool := a ∈ [get, get64, getVec, getHexStr]

end Accessor

/-- The functions that are emitted for a signal. -/
def SignalInfo.accessors (s : SignalInfo) : List Accessor :=
  (if s.beatSize = 1 then [.get, .get64, .getHexStr] else [.get, .get64, .getVec, .getHexStr]) ++
    if s.isWritable then
      if s.beatSize = 1 then [.set, .set64, .setHexStr] else [.set, .set64, .setVec, .setHexStr]
    else []

def accessorName (hierPathName : List Char) (a : Accessor) : List Char :=
  "VERILUA_DPI_EXPORTER_".toList ++ (hierPathName ++ a.suffix)

def variableName (hierPathName : List Char) : List Char := "__".toList ++ hierPathName

/-- The functions of the generated file, each with the signal that it reads or writes. -/
def definitions (infos : List SignalInfo) : List (List Char × SignalInfo × Accessor) :=
  infos.flatMap fun s => s.accessors.map fun a => (accessorName s.hierPathName a, s, a)

/-- What the generated file declares for the signals. -/
def declared (infos : List SignalInfo) : List (List Char) :=
  infos.map (fun s => variableName s.hierPathName) ++ (definitions infos).map Prod.fst

/-! ### Handles -/

/-- `dpi_exporter_handle_by_name`; of two entries with one name the table keeps the first. -/
def handleByName (infos : List SignalInfo) (name : List Char) : Int :=
  ((infos.map fun s => (s.hierPathName, (s.handleId : Int))).lookup name).getD (-1)

/-- Whether the signal is in the table of `dpi_exporter_alloc_…`. -/
def SignalInfo.inTable (s : SignalInfo) : Accessor → Bool
  | .get => true
  | .getVec => 32 < s.bitWidth
  | .getHexStr => true
  | .set => s.isWritable
  | .setVec => s.isWritable && 32 < s.bitWidth
  | .setHexStr => s.isWritable
  | .get64 => false
  | .set64 => false

def handleTable (infos : List SignalInfo) (a : Accessor) : List (Int × List Char) :=
  (infos.filter (·.inTable a)).map fun s => ((s.handleId : Int), accessorName s.hierPathName a)

/-- The accessor that the generated code gives for a name. -/
def accessorByName (infos : List SignalInfo) (name : List Char) (a : Accessor) :
    Option (SignalInfo × Accessor) := do
  let func ← (handleTable infos a).lookup (handleByName infos name)
  (definitions infos).lookup func

/-! ### The Lua side -/

/-- `stringx.replace` when `skip` characters of a match are left. -/
def replaceFrom (old new : List Char) : Nat → List Char → List Char
  | _, [] => []
  | skip + 1, _ :: cs => replaceFrom old new skip cs
  | 0, c :: cs =>
    if old <+: c :: cs then new ++ replaceFrom old new (old.length - 1) cs
    else c :: replaceFrom old new 0 cs

/-- `stringx.replace`: every occurrence, from the left. -/
def replace (s old new : List Char) : List Char := replaceFrom old new 0 s

def toHierpathName (hierpath : List Char) : List Char :=
  let t := replace hierpath ['.'] ['_']
  let t := replace t ['['] ['_']
  replace t [']'] ['_']

def normalizeHierpath (cfgTop : List Char) (signalHierpath dpiTop : List Char) : List Char :=
  replace ('@' :: signalHierpath) ('@' :: dpiTop) (cfgTop ++ ".u_".toList ++ dpiTop)

/-- What `init` puts into `export_map`, the latest entry first. -/
def exportMap (cfgTop dpiTop : List Char) (infos : List SignalInfo) :
    List (List Char × SignalInfo) :=
  infos.foldl (fun m info =>
    (normalizeHierpath cfgTop info.hierPath dpiTop, info) :: (info.hierPath, info) :: m) []

/-- `fetch_get_value_func` and its siblings: the accessor that the symbol names. -/
def fetch (cfgTop dpiTop : List Char) (infos : List SignalInfo) (hierpath : List Char)
    (a : Accessor) : Option (SignalInfo × Accessor) := do
  let info ← (exportMap cfgTop dpiTop infos).lookup hierpath
  (definitions infos).lookup (accessorName (toHierpathName info.hierPath) a)

/-! ### What the functions do to a path -/

/-- The characters that cannot be told apart in an identifier. -/
def separators : List Char := ['.', '[', ']', '_']

/-- The paths differ in separators only. -/
def SameFlat (p q : List Char) : Prop :=
  List.Forall₂ (fun a b => a = b ∨ a ∈ separators ∧ b ∈ separators) p q

lemma replace_singleton (a : Char) (p : List Char) : replace p [a] ['_'] = replaceChar a p := by
  rw [replace, replaceChar]
  induction p with
  | nil => rfl
  | cons c cs ih =>
    rw [replaceFrom, List.map_cons, ← ih]
    by_cases h : c = a
    · simp [h]
    · have hne : ¬ [a] <+: c :: cs := by simpa using Ne.symm h
      rw [if_neg hne, if_neg h]

lemma toHierpathName_eq (p : List Char) : toHierpathName p = getHierPathName p := by
  simp only [toHierpathName, replace_singleton, getHierPathName]

/-- What the three passes make of a character. -/
def flatChar (c : Char) : Char := if c ∈ separators then '_' else c

lemma getHierPathName_eq (p : List Char) : getHierPathName p = p.map flatChar := by
  simp only [getHierPathName, replaceChar, List.map_map]
  apply List.map_congr_left
  intro c _
  simp only [Function.comp_apply, flatChar, separators, List.mem_cons, List.not_mem_nil, or_false]
  split_ifs <;> simp_all

lemma flatChar_eq_iff (a b : Char) :
    flatChar a = flatChar b ↔ a = b ∨ a ∈ separators ∧ b ∈ separators := by
  have hunderscore : ∀ c, c ∉ separators → c ≠ '_' := by
    rintro c hc rfl
    exact hc (by decide)
  rw [flatChar, flatChar]
  split_ifs with ha hb hb
  · exact iff_of_true rfl (.inr ⟨ha, hb⟩)
  · refine iff_of_false (hunderscore b hb).symm ?_
    rintro (rfl | h)
    · exact hb ha
    · exact hb h.2
  · refine iff_of_false (hunderscore a ha) ?_
    rintro (rfl | h)
    · exact ha hb
    · exact ha h.1
  · exact ⟨.inl, fun h => h.resolve_right fun h => ha h.1⟩

lemma getHierPathName_eq_iff (p q : List Char) :
    getHierPathName p = getHierPathName q ↔ SameFlat p q := by
  simp only [getHierPathName_eq, SameFlat, ← flatChar_eq_iff]
  rw [← List.forall₂_map_left_iff (f := flatChar) (R := fun a b => a = flatChar b),
    ← List.forall₂_map_right_iff (f := flatChar) (R := Eq), List.forall₂_eq_eq_eq]

/-! ### Tables -/

lemma lookup_eq_some {α β : Type*} [BEq α] [LawfulBEq α] {l : List (α × β)} {k : α} {v : β}
    (hmem : (k, v) ∈ l) (huniq : ∀ w, (k, w) ∈ l → w = v) : l.lookup k = some v := by
  cases hl : l.lookup k with
  | none =>
    have hne := List.lookup_eq_none_iff.mp hl _ hmem
    simp at hne
  | some w => rw [huniq w (StrBits.mem_of_lookup hl)]

lemma eq_of_nodup_keys {α β : Type*} {l : List (α × β)} (hl : (l.map Prod.fst).Nodup) {k : α}
    {v w : β} (hv : (k, v) ∈ l) (hw : (k, w) ∈ l) : w = v :=
  congrArg Prod.snd (List.inj_on_of_nodup_map hl hw hv rfl)

lemma suffix_inj : ∀ a ∈ Accessor.all, ∀ b ∈ Accessor.all, a.suffix <:+ b.suffix → a = b := by
  decide

lemma Accessor.mem_all (a : Accessor) : a ∈ all := by cases a <;> decide

/-- No name of a signal and suffix of an accessor can be read in two ways. -/
lemma accessorName_inj {n m : List Char} {a b : Accessor}
    (h : accessorName n a = accessorName m b) : n = m ∧ a = b := by
  have heq : n ++ a.suffix = m ++ b.suffix := List.append_cancel_left h
  have hab : a = b := by
    have ha : a.suffix <:+ m ++ b.suffix := heq ▸ List.suffix_append n a.suffix
    rcases List.suffix_or_suffix_of_suffix ha (List.suffix_append m b.suffix) with hsuf | hsuf
    · exact suffix_inj a a.mem_all b b.mem_all hsuf
    · exact (suffix_inj b b.mem_all a a.mem_all hsuf).symm
  subst hab
  exact ⟨List.append_cancel_right heq, rfl⟩

lemma variableName_ne {n m : List Char} {a : Accessor} : variableName n ≠ accessorName m a := by
  have hvar : variableName n = '_' :: '_' :: n :=
    congrArg (· ++ n) (by decide : "__".toList = ['_', '_'])
  have hfunc : accessorName m a = 'V' :: ("ERILUA_DPI_EXPORTER_".toList ++ (m ++ a.suffix)) :=
    congrArg (· ++ (m ++ a.suffix))
      (by decide : "VERILUA_DPI_EXPORTER_".toList = 'V' :: "ERILUA_DPI_EXPORTER_".toList)
  rw [hvar, hfunc]
  simp

lemma nodup_accessors (s : SignalInfo) : s.accessors.Nodup := by
  rw [SignalInfo.accessors]
  split_ifs <;> decide

lemma mem_accessors_of_inTable {a : Accessor} (h : s.inTable a) : a ∈ s.accessors := by
  have hmore : 32 < s.bitWidth → s.beatSize ≠ 1 := fun hlt hone => by
    have := beatSize_eq_one_iff.mp hone
    omega
  rw [SignalInfo.accessors]
  cases a with
  | get => split_ifs <;> decide
  | getHexStr => split_ifs <;> decide
  | getVec =>
    rw [if_neg (hmore (by simpa [SignalInfo.inTable] using h))]
    simp
  | set | setHexStr =>
    rw [if_pos (show s.isWritable = true from h)]
    split_ifs <;> decide
  | setVec =>
    obtain ⟨hwritable, hlt⟩ : s.isWritable = true ∧ 32 < s.bitWidth := by
      simpa [SignalInfo.inTable] using h
    rw [if_pos hwritable, if_neg (hmore hlt), if_neg (hmore hlt)]
    decide
  | get64 | set64 => cases h

lemma mem_definitions {f : List Char} {a : Accessor} :
    (f, s, a) ∈ definitions infos ↔
      s ∈ infos ∧ a ∈ s.accessors ∧ accessorName s.hierPathName a = f := by
  simp only [definitions, List.mem_flatMap, List.mem_map, Prod.mk.injEq]
  constructor
  · rintro ⟨t, ht, b, hb, rfl, rfl, rfl⟩
    exact ⟨ht, hb, rfl⟩
  · rintro ⟨hs, ha, rfl⟩
    exact ⟨s, hs, a, ha, rfl, rfl, rfl⟩

section Distinct

variable (hnames : (infos.map SignalInfo.hierPathName).Nodup)

include hnames

lemma nodup_definitions : ((definitions infos).map Prod.fst).Nodup := by
  rw [definitions, List.map_flatMap, List.nodup_flatMap]
  constructor
  · intro s _
    rw [List.map_map]
    exact (nodup_accessors s).map fun a b h => (accessorName_inj h).2
  · refine List.Pairwise.imp ?_ (List.pairwise_map.mp hnames)
    intro s t hne
    simp only [Function.onFun, List.map_map]
    intro f hf hf'
    obtain ⟨a, -, rfl⟩ := List.mem_map.mp hf
    obtain ⟨b, -, heq⟩ := List.mem_map.mp hf'
    exact hne (accessorName_inj heq).1.symm

lemma nodup_declared : (declared infos).Nodup := by
  refine List.nodup_append.mpr ⟨?_, nodup_definitions hnames, ?_⟩
  · have hmap := hnames.map (f := variableName) fun n m h => List.append_cancel_left h
    rwa [List.map_map] at hmap
  · intro v hv f hf heq
    obtain ⟨s, -, rfl⟩ := List.mem_map.mp hv
    obtain ⟨⟨_, t, a⟩, hdef, rfl⟩ := List.mem_map.mp hf
    obtain ⟨-, -, rfl⟩ := mem_definitions.mp hdef
    exact variableName_ne heq

lemma lookup_definitions {a : Accessor} (hs : s ∈ infos) (ha : a ∈ s.accessors) :
    (definitions infos).lookup (accessorName s.hierPathName a) = some (s, a) :=
  have hmem := mem_definitions.mpr ⟨hs, ha, rfl⟩
  lookup_eq_some hmem fun _ hw => eq_of_nodup_keys (nodup_definitions hnames) hmem hw

lemma handleByName_eq (hs : s ∈ infos) : handleByName infos s.hierPathName = s.handleId := by
  have hmem : (s.hierPathName, (s.handleId : Int)) ∈
      infos.map fun s => (s.hierPathName, (s.handleId : Int)) := List.mem_map_of_mem hs
  have hkeys : ((infos.map fun s => (s.hierPathName, (s.handleId : Int))).map Prod.fst).Nodup := by
    rw [List.map_map]
    exact hnames
  rw [handleByName, lookup_eq_some hmem fun _ hw => eq_of_nodup_keys hkeys hmem hw,
    Option.getD_some]

lemma accessorByName_eq (hids : (infos.map SignalInfo.handleId).Nodup) (hs : s ∈ infos)
    {a : Accessor} (ha : s.inTable a) :
    accessorByName infos s.hierPathName a = some (s, a) := by
  have hmem : ((s.handleId : Int), accessorName s.hierPathName a) ∈ handleTable infos a :=
    List.mem_map.mpr ⟨s, List.mem_filter.mpr ⟨hs, ha⟩, rfl⟩
  have huniq : ∀ f, ((s.handleId : Int), f) ∈ handleTable infos a →
      f = accessorName s.hierPathName a := by
    intro f hf
    obtain ⟨t, ht, heq⟩ := List.mem_map.mp hf
    obtain ⟨hid, rfl⟩ := Prod.mk.inj heq
    have hts : t = s :=
      List.inj_on_of_nodup_map hids (List.mem_filter.mp ht).1 hs (Int.ofNat_inj.mp hid)
    rw [hts]
  rw [accessorByName, handleByName_eq hnames hs, lookup_eq_some hmem huniq]
  exact lookup_definitions hnames hs (mem_accessors_of_inTable ha)

end Distinct

/-! ### The table of the Lua side -/

lemma mem_exportMap {key : List Char} :
    (key, s) ∈ exportMap cfgTop top infos ↔
      s ∈ infos ∧ (key = s.hierPath ∨ key = normalizeHierpath cfgTop s.hierPath top) := by
  have hfold : ∀ m : List (List Char × SignalInfo), (key, s) ∈ infos.foldl (fun m info =>
      (normalizeHierpath cfgTop info.hierPath top, info) :: (info.hierPath, info) :: m) m ↔
      (s ∈ infos ∧ (key = s.hierPath ∨ key = normalizeHierpath cfgTop s.hierPath top)) ∨
        (key, s) ∈ m := by
    induction infos with
    | nil => simp
    | cons t infos ih =>
      intro m
      rw [List.foldl_cons, ih]
      simp only [List.mem_cons, Prod.mk.injEq]
      constructor
      · rintro (⟨hs, hkey⟩ | ⟨rfl, rfl⟩ | ⟨rfl, rfl⟩ | hm)
        · exact .inl ⟨.inr hs, hkey⟩
        · exact .inl ⟨.inl rfl, .inr rfl⟩
        · exact .inl ⟨.inl rfl, .inl rfl⟩
        · exact .inr hm
      · rintro (⟨rfl | hs, hkey⟩ | hm)
        · rcases hkey with rfl | rfl
          · exact .inr (.inr (.inl ⟨rfl, rfl⟩))
          · exact .inr (.inl ⟨rfl, rfl⟩)
        · exact .inl ⟨hs, hkey⟩
        · exact .inr (.inr (.inr hm))
  rw [exportMap, hfold]
  simp

lemma fetch_eq (hnames : (infos.map SignalInfo.hierPathName).Nodup) {key : List Char}
    (hmem : (key, s) ∈ exportMap cfgTop top infos)
    (huniq : ∀ t, (key, t) ∈ exportMap cfgTop top infos → t = s) {a : Accessor}
    (ha : a ∈ s.accessors) : fetch cfgTop top infos key a = some (s, a) := by
  rw [fetch, lookup_eq_some hmem huniq]
  change (definitions infos).lookup (accessorName (toHierpathName s.hierPath) a) = _
  rw [toHierpathName_eq]
  exact lookup_definitions hnames (mem_exportMap.mp hmem).1 ha

/-! ### Every signal has names of its own -/

/-- The generated file declares a variable and a family of accessors for every signal, and every
way to look up a signal leads to the accessors of that signal. -/
structure NamesDistinct (cfgTop top : List Char) (infos : List SignalInfo) : Prop where
  names : (infos.map SignalInfo.hierPathName).Nodup
  declared : (declared infos).Nodup
  byName : ∀ s ∈ infos, ∀ a, s.inTable a →
    accessorByName infos s.hierPathName a = some (s, a)
  byPath : ∀ s ∈ infos, ∀ key ∈ [s.hierPath, normalizeHierpath cfgTop s.hierPath top],
    ∀ a ∈ s.accessors, a.isGetter → fetch cfgTop top infos key a = some (s, a)

/-- The names are distinct exactly if no two paths differ in separators only, and the path of a
signal in the simulation is no path of another one. -/
theorem namesDistinct_iff (hpaths : (infos.map SignalInfo.hierPath).Nodup)
    (hids : (infos.map SignalInfo.handleId).Nodup) :
    NamesDistinct cfgTop top infos ↔
      infos.Pairwise (fun s t => ¬ SameFlat s.hierPath t.hierPath) ∧
      ∀ s ∈ infos, ∀ t ∈ infos, s ≠ t →
        normalizeHierpath cfgTop s.hierPath top ≠ t.hierPath ∧
        normalizeHierpath cfgTop s.hierPath top ≠ normalizeHierpath cfgTop t.hierPath top := by
  have hnames : (infos.map SignalInfo.hierPathName).Nodup ↔
      infos.Pairwise (fun s t => ¬ SameFlat s.hierPath t.hierPath) := by
    simp only [List.Nodup, List.pairwise_map, ne_eq, SignalInfo.hierPathName,
      getHierPathName_eq_iff]
  rw [← hnames]
  constructor
  · intro h
    refine ⟨h.names, fun s hs t ht hne => ?_⟩
    have hget : ∀ u : SignalInfo, Accessor.get ∈ u.accessors := fun u =>
      mem_accessors_of_inTable rfl
    have hfetch := h.byPath s hs (normalizeHierpath cfgTop s.hierPath top) (by simp) .get (hget s)
      rfl
    constructor
    · intro heq
      have hfetch' := h.byPath t ht t.hierPath (by simp) .get (hget t) rfl
      rw [heq, hfetch'] at hfetch
      exact hne (congrArg Prod.fst (Option.some_inj.mp hfetch)).symm
    · intro heq
      have hfetch' := h.byPath t ht (normalizeHierpath cfgTop t.hierPath top) (by simp) .get
        (hget t) rfl
      rw [heq, hfetch'] at hfetch
      exact hne (congrArg Prod.fst (Option.some_inj.mp hfetch)).symm
  · rintro ⟨hnodup, hnorm⟩
    refine ⟨hnodup, nodup_declared hnodup, fun s hs a ha => accessorByName_eq hnodup hids hs ha, ?_⟩
    intro s hs key hkey a ha _
    have hcases : key = s.hierPath ∨ key = normalizeHierpath cfgTop s.hierPath top := by
      simpa using hkey
    refine fetch_eq hnodup (mem_exportMap.mpr ⟨hs, hcases⟩) (fun t hentry => ?_) ha
    obtain ⟨ht, hcases'⟩ := mem_exportMap.mp hentry
    by_contra hne
    rcases hcases with rfl | rfl <;> rcases hcases' with heq | heq
    · exact hne (List.inj_on_of_nodup_map hpaths ht hs heq.symm)
    · exact (hnorm t ht s hs hne).1 heq.symm
    · exact (hnorm s hs t ht (Ne.symm hne)).1 heq
    · exact (hnorm s hs t ht (Ne.symm hne)).2 heq

instance (p q : List Char) : Decidable (SameFlat p q) :=
  decidable_of_iff _ (getHierPathName_eq_iff p q)

/-- A signal of eight bits. -/
def signalAt (hierPath : List Char) (handleId : Nat) : SignalInfo where
  hierPath := hierPath
  vpiTypeStr := "vpiReg".toList
  bitWidth := 8
  handleId := handleId
  isWritable := false
  bitWidth_pos := by decide

theorem namesDistinct_two_signals :
    NamesDistinct "tb_top".toList "top".toList
      [signalAt "top.a.b_c".toList 0, signalAt "top.u[1].d".toList 1] :=
  (namesDistinct_iff (by decide) (by decide)).mpr ⟨by decide, by decide +kernel⟩

/-- `top.a.b_c` and `top.a_b.c` are both flattened to `top_a_b_c`. -/
theorem not_namesDistinct :
    ¬ ∀ (cfgTop top : List Char) (infos : List SignalInfo),
      (infos.map SignalInfo.hierPath).Nodup → (infos.map SignalInfo.handleId).Nodup →
      NamesDistinct cfgTop top infos := by
  intro h
  have hnames := (h "tb_top".toList "top".toList
    [signalAt "top.a.b_c".toList 0, signalAt "top.a_b.c".toList 1] (by decide) (by decide)).names
  exact absurd hnames (by decide)

end Verilua.DpiExporter
