import Mathlib.Algebra.Order.BigOperators.Group.List
import Mathlib.Algebra.Order.Ring.Nat
import Verilua.Hierarchy.Collect
import Verilua.LuaBundle.Basic
import Verilua.SignalDB.Lookup

/-!
# Bundles of the signals that match

`auto_bundle` goes through the signals of a module. Which criterion decides about a signal depends
on which are given, and some of those that are given are not looked at. The names that are taken
are handed to `Bundle`, which puts the prefix in front of every one of them; where it was in front
of a name it has to be taken off before.
-/

namespace Verilua.LuaBundle

open SignalDB (SignalInfo)

/-- The parameters of `auto_bundle`; each but the name is a criterion. -/
structure Params where
  name : Option Text := none
  filter : Option (Text → Nat → Bool) := none
  luaPattern : Option Text := none
  wildmatch : Option Text := none
  startswith : Option Text := none
  endswith : Option Text := none
  signalPrefix : Option Text := none

inductive AutoError
  | noCriterion
  | noHierarchy (hierPath : Text)
  | noSignals
  | hierarchy (e : Hierarchy.HierError)
  | bundle (e : Error)

namespace Params

variable (p : Params)

/-- The assertion about the parameters. -/
def accepted : Bool :=
  p.filter.isSome || p.luaPattern.isSome || p.wildmatch.isSome || p.startswith.isSome ||
    p.endswith.isSome || p.signalPrefix.isSome

section Walk

-- `string.match(name, pattern)` and `wildmatch(pattern, name)`
variable (luaMatch wildmatch : Text → Text → Bool)

/-- A turn of the loop: what is put into `signals`. -/
def take (signalName : Text) (signalBitwidth : Nat) : Option Text :=
  let filter := p.filter.getD fun _ _ => true
  match p.luaPattern with
  | some pattern =>
    if luaMatch signalName pattern && filter signalName signalBitwidth then some signalName
    else none
  | none =>
    match p.wildmatch with
    | some pattern =>
      if wildmatch pattern signalName && filter signalName signalBitwidth then
        match p.signalPrefix with
        | some pre =>
          if pre.isPrefixOf signalName then some (signalName.drop pre.length) else some signalName
        | none => some signalName
      else none
    | none =>
      match p.startswith, p.endswith, p.signalPrefix with
      | some start, some suffix, _ =>
        if start.isPrefixOf signalName && suffix.isSuffixOf signalName &&
            filter signalName signalBitwidth then some signalName
        else none
      | _, _, some pre =>
        if pre.isPrefixOf signalName && filter signalName signalBitwidth then
          some (signalName.drop pre.length)
        else none
      | some start, none, none =>
        if start.isPrefixOf signalName && filter signalName signalBitwidth then some signalName
        else none
      | none, some suffix, none =>
        if suffix.isSuffixOf signalName && filter signalName signalBitwidth then some signalName
        else none
      | none, none, none =>
        if p.filter.isSome && filter signalName signalBitwidth then some signalName else none

/-- The loop. -/
def select (content : List SignalInfo) : List Text :=
  content.filterMap fun s => p.take luaMatch wildmatch s.name s.bitwidth

end Walk

def bundleName : Text :=
  match p.name with
  | some name => "auto_bundle@".toList ++ name
  | none => "auto_bundle".toList

def args (hierPath : Text) (signals : List Text) : Args where
  signalsTable := signals
  signalPrefix := p.signalPrefix.getD []
  hierarchy := hierPath
  name := some p.bundleName
  isDecoupled := false
  optionalSignals := some []

/-- What is done with the names that have been taken. -/
def bundle (design : Design) (hierPath : Text) (signals : List Text) : Except AutoError Bundle :=
  if signals.isEmpty then .error .noSignals
  else (Bundle.init design (p.args hierPath signals)).mapError .bundle

/-- `SignalDB:auto_bundle` -/
def autoBundle (luaMatch wildmatch : Text → Text → Bool) (split : Text → List Text)
    (design : Design) (db : SignalDB.Database) (hierPath : Text) : Except AutoError Bundle :=
  if !p.accepted then .error .noCriterion
  else
    match db.root.walk (split hierPath) with
    | none => .error (.noHierarchy hierPath)
    | some curr => p.bundle design hierPath (p.select luaMatch wildmatch curr.values)

end Params

/-! ### What the criteria say -/

namespace Params

variable (luaMatch wildmatch : Text → Text → Bool) (p : Params)

/-- The signal meets all criteria that are given. -/
def meets (s : SignalInfo) : Bool :=
  p.luaPattern.all (luaMatch s.name) && p.wildmatch.all (wildmatch · s.name) &&
  p.startswith.all (·.isPrefixOf s.name) && p.endswith.all (·.isSuffixOf s.name) &&
  p.signalPrefix.all (·.isPrefixOf s.name) && p.filter.all (· s.name s.bitwidth)

/-- The criteria that decide, without the others. -/
def deciding : Params :=
  if p.luaPattern.isSome then { luaPattern := p.luaPattern, filter := p.filter }
  else if p.wildmatch.isSome then { wildmatch := p.wildmatch, filter := p.filter }
  else if p.startswith.isSome && p.endswith.isSome then
    { startswith := p.startswith, endswith := p.endswith, filter := p.filter }
  else if p.signalPrefix.isSome then { signalPrefix := p.signalPrefix, filter := p.filter }
  else { startswith := p.startswith, endswith := p.endswith, filter := p.filter }

/-- Whether the prefix is taken off the names that begin with it. -/
def takesOff : Bool :=
  p.luaPattern.isNone && (p.wildmatch.isSome || p.startswith.isNone || p.endswith.isNone)

def pre : Text := p.signalPrefix.getD []

def handed (name : Text) : Text :=
  if p.takesOff && p.pre.isPrefixOf name then name.drop p.pre.length else name

variable {luaMatch wildmatch p}

lemma getD_filter (filter : Option (Text → Nat → Bool)) (name : Text) (bitwidth : Nat) :
    filter.getD (fun _ _ => true) name bitwidth = filter.all (· name bitwidth) := by
  cases filter <;> rfl

lemma take_eq (h : p.accepted = true) (s : SignalInfo) :
    p.take luaMatch wildmatch s.name s.bitwidth =
      if p.deciding.meets luaMatch wildmatch s then some (p.handed s.name) else none := by
  obtain ⟨name, filter, luaPattern, wild, start, suffix, pre⟩ := p
  rcases pre with _ | pre
  · rcases luaPattern with _ | pattern <;> rcases wild with _ | pattern <;>
      rcases start with _ | start <;> rcases suffix with _ | suffix <;>
      simp [take, deciding, meets, handed, takesOff, Params.pre, getD_filter]
    have hfilter : filter.isSome = true := by simpa [accepted] using h
    simp [hfilter]
  · by_cases hpre : pre <+: s.name <;>
      rcases luaPattern with _ | pattern <;> rcases wild with _ | pattern <;>
      rcases start with _ | start <;> rcases suffix with _ | suffix <;>
      simp [take, deciding, meets, handed, takesOff, Params.pre, getD_filter, hpre]

lemma meets_deciding {s : SignalInfo} (h : p.meets luaMatch wildmatch s = true) :
    p.deciding.meets luaMatch wildmatch s = true := by
  simp only [meets, Bool.and_eq_true] at h
  obtain ⟨⟨⟨⟨⟨hpattern, hwild⟩, hstart⟩, hsuffix⟩, hpre⟩, hfilter⟩ := h
  rw [deciding]
  split_ifs <;> simp [meets, *]

end Params

/-! ### What is bound -/

section Bound

variable {luaMatch wildmatch : Text → Text → Bool} {p : Params} {design : Design}
  {hierPath : Text} {content : List SignalInfo} {signals : List Text} {b : Bundle}

/-- The path of the handle that a field has. -/
def Bundle.path (b : Bundle) (key : Text) : Option Text := (b.chdl key).map CallableHDL.fullpath

/-- The signals of the module that meet the criteria. -/
def Params.matched (luaMatch wildmatch : Text → Text → Bool) (p : Params)
    (content : List SignalInfo) : List SignalInfo :=
  content.filter (p.meets luaMatch wildmatch)

/-- The bundle has the names that have been taken, and under them the signals that meet the
criteria; without such signals no bundle is made. -/
def Binds (hierPath : Text) (matched : List SignalInfo) (signals : List Text) :
    Except AutoError Bundle → Prop
  | .ok b => b.signalsTable = signals ∧
      (signals.map b.path).Perm (matched.map fun s => some (hierPath ++ '.' :: s.name))
  | .error e => e = .noSignals ∧ matched = []

/-- The criteria that are not looked at make no difference, the prefix is taken off if there is one,
and no name that is left is one of the bundle's own. -/
structure Params.Fits (luaMatch wildmatch : Text → Text → Bool) (p : Params)
    (content : List SignalInfo) : Prop where
  decided : ∀ s ∈ content, p.deciding.meets luaMatch wildmatch s = true →
    p.meets luaMatch wildmatch s = true
  takenOff : p.matched luaMatch wildmatch content ≠ [] → p.pre = [] ∨ p.takesOff = true
  free : ∀ s ∈ p.matched luaMatch wildmatch content,
    s.name.drop p.pre.length ∉ methods.map Prod.fst
  first : signalsTableKey ∉
    ((p.matched luaMatch wildmatch content).map fun s => s.name.drop p.pre.length).tail

/-- The design has what the module is said to have. -/
def Shows (design : Design) (hierPath : Text) (content : List SignalInfo) : Prop :=
  ∀ s ∈ content, ∃ hdl, design (hierPath ++ '.' :: s.name) = some hdl ∧ hdl.hdlType.isArray.isSome

lemma select_eq (h : p.accepted = true) : p.select luaMatch wildmatch content =
    (p.deciding.matched luaMatch wildmatch content).map fun s => p.handed s.name := by
  rw [Params.select, Params.matched]
  induction content with
  | nil => rfl
  | cons s content ih =>
    rw [List.filterMap_cons, List.filter_cons, Params.take_eq h, ih]
    split_ifs <;> rfl

lemma matched_eq_filter : p.matched luaMatch wildmatch content =
    (p.deciding.matched luaMatch wildmatch content).filter (p.meets luaMatch wildmatch) := by
  rw [Params.matched, Params.matched, List.filter_filter]
  refine List.filter_congr fun s _ => ?_
  by_cases hs : p.meets luaMatch wildmatch s = true
  · simp [hs, Params.meets_deciding hs]
  · simp [hs]

/-! ### The paths -/

lemma length_le_handed (name : Text) : name.length ≤ (p.pre ++ p.handed name).length := by
  rw [List.length_append, Params.handed]
  split_ifs
  · rw [List.length_drop]
    omega
  · omega

lemma pre_append_handed {name : Text} (h : (p.pre ++ p.handed name).length ≤ name.length) :
    p.pre ++ p.handed name = name ∧ (p.pre = [] ∨ p.takesOff = true) := by
  rw [Params.handed] at h ⊢
  split_ifs at h ⊢ with hoff
  · rw [Bool.and_eq_true, List.isPrefixOf_iff_prefix] at hoff
    exact ⟨List.prefix_iff_eq_append.mp hoff.2, .inr hoff.1⟩
  · have hpre : p.pre = [] := by
      rw [List.length_append] at h
      exact List.length_eq_zero_iff.mp (by omega)
    exact ⟨by rw [hpre, List.nil_append], .inl hpre⟩

lemma handed_eq_drop {name : Text} (h : p.pre ++ p.handed name = name) :
    p.handed name = name.drop p.pre.length := by
  conv_rhs => rw [← h]
  rw [List.drop_left]

lemma pre_append_handed_of_meets {s : SignalInfo} (hs : p.meets luaMatch wildmatch s = true)
    (h : p.pre = [] ∨ p.takesOff = true) : p.pre ++ p.handed s.name = s.name := by
  have hstart : p.pre <+: s.name := by
    simp only [Params.meets, Bool.and_eq_true] at hs
    rw [Params.pre]
    cases hpre : p.signalPrefix with
    | none => exact List.nil_prefix
    | some pre =>
      have hall := hs.1.2
      rw [hpre] at hall
      simpa using hall
  rw [Params.handed]
  rcases h with hnil | hoff
  · simp [hnil]
  · rw [if_pos (by simpa [hoff] using hstart)]
    exact List.prefix_iff_eq_append.mp hstart

/-! ### The bundle -/

lemma fullpath_args (key : Text) :
    (p.args hierPath signals).signalPath key = hierPath ++ '.' :: (p.pre ++ key) := rfl

/-- The names that have been taken have the paths behind the prefix, unless a method has taken the
place of one. -/
lemma path_of_init (hb : Bundle.init design (p.args hierPath signals) = .ok b) (key : Text) :
    b.path key = if key ∈ signals ∧ key ∉ methods.map Prod.fst then
      some (hierPath ++ '.' :: (p.pre ++ key)) else none := by
  have hopens := ((Bundle.init_eq_ok_iff rfl).mp hb).1
  rw [Bundle.path, Bundle.chdl_of_init rfl hb]
  by_cases hmethod : key ∈ methods.map Prod.fst
  · rw [if_pos hmethod, if_neg fun h => h.2 hmethod]
    rfl
  rw [if_neg hmethod]
  by_cases hkey : key ∈ signals
  · have hmem : key ∈ (p.args hierPath signals).signalsTable := hkey
    obtain ⟨chdl, hhandle⟩ := Option.isSome_iff_exists.mp (hopens.isSome hmem List.not_mem_nil)
    have hpath : chdl.fullpath = hierPath ++ '.' :: (p.pre ++ key) := by
      obtain ⟨hdl, -, hmade⟩ := Option.bind_eq_some_iff.mp hhandle
      obtain ⟨isArray, -, rfl⟩ := Option.map_eq_some_iff.mp hmade
      rfl
    rw [if_pos hmem, if_pos ⟨hkey, hmethod⟩, hhandle, Option.map_some, hpath]
  · have hmem : key ∉ (p.args hierPath signals).signalsTable := hkey
    rw [if_neg hmem, if_neg fun h => hkey h.1]
    rfl

/-- The names that have been taken are in the table unless its own field comes behind another. -/
lemma signalsTable_eq_iff (hb : Bundle.init design (p.args hierPath signals) = .ok b) :
    b.signalsTable = signals ↔ signalsTableKey ∉ signals.tail := by
  have hopens := ((Bundle.init_eq_ok_iff rfl).mp hb).1
  have hall : (p.args hierPath signals).signalsTable.filter
      (fun s => ((p.args hierPath signals).handle design s).isSome) = signals :=
    List.filter_eq_self.mpr fun s hs => hopens.isSome hs List.not_mem_nil
  rw [Bundle.signalsTable_of_init rfl hb, hall, listed_nil_eq_iff]

lemma paths_of_perm {taken : List SignalInfo}
    (h : (taken.map fun s => hierPath ++ '.' :: (p.pre ++ p.handed s.name)).Perm
      (taken.map fun s => hierPath ++ '.' :: s.name)) :
    ∀ s ∈ taken, p.pre ++ p.handed s.name = s.name ∧ (p.pre = [] ∨ p.takesOff = true) := by
  have hsum := (h.map List.length).sum_eq
  rw [List.map_map, List.map_map] at hsum
  intro s hs
  refine pre_append_handed ?_
  by_contra hlt
  refine absurd hsum (ne_of_gt (List.sum_lt_sum _ _ (fun t _ => ?_) ⟨s, hs, ?_⟩))
  · have hle := length_le_handed (p := p) t.name
    simp only [Function.comp_apply, List.length_append, List.length_cons] at hle ⊢
    omega
  · simp only [Function.comp_apply, List.length_append, List.length_cons] at hlt ⊢
    omega

lemma fits_of_binds (haccepted : p.accepted = true)
    (hb : Bundle.init design
      (p.args hierPath (p.select luaMatch wildmatch content)) = .ok b)
    (h : Binds hierPath (p.matched luaMatch wildmatch content)
      (p.select luaMatch wildmatch content) (.ok b)) : p.Fits luaMatch wildmatch content := by
  obtain ⟨htable, hpaths⟩ := h
  rw [signalsTable_eq_iff hb] at htable
  have hselect : p.select luaMatch wildmatch content =
      (p.deciding.matched luaMatch wildmatch content).map _ := select_eq haccepted
  set taken := p.deciding.matched luaMatch wildmatch content with htaken
  have hsame : p.matched luaMatch wildmatch content = taken := by
    have hlen := hpaths.length_eq
    rw [List.length_map, List.length_map, hselect, List.length_map] at hlen
    rw [matched_eq_filter] at hlen ⊢
    exact List.filter_sublist.eq_of_length hlen.symm
  have hfree : ∀ s ∈ taken, p.handed s.name ∉ methods.map Prod.fst := by
    intro s hs hmethod
    have hmem : p.handed s.name ∈ p.select luaMatch wildmatch content :=
      hselect ▸ List.mem_map_of_mem hs
    have hnone := path_of_init hb (p.handed s.name)
    rw [if_neg fun h => h.2 hmethod] at hnone
    have hin := hpaths.subset (List.mem_map_of_mem (f := b.path) hmem)
    rw [hnone] at hin
    simp at hin
  have hperm : (taken.map fun s => hierPath ++ '.' :: (p.pre ++ p.handed s.name)).Perm
      (taken.map fun s => hierPath ++ '.' :: s.name) := by
    have hmapped : (p.select luaMatch wildmatch content).map b.path =
        (taken.map fun s => hierPath ++ '.' :: (p.pre ++ p.handed s.name)).map some := by
      rw [hselect, List.map_map, List.map_map]
      refine List.map_congr_left fun s hs => ?_
      have hmem : p.handed s.name ∈ p.select luaMatch wildmatch content :=
        hselect ▸ List.mem_map_of_mem hs
      rw [Function.comp_apply, path_of_init hb, if_pos ⟨hmem, hfree s hs⟩]
      rfl
    have hsome : (taken.map fun s => some (hierPath ++ '.' :: s.name)) =
        (taken.map fun s => hierPath ++ '.' :: s.name).map some := (List.map_map ..).symm
    rw [hmapped, hsame, hsome] at hpaths
    exact (List.map_perm_map_iff (Option.some_injective _)).mp hpaths
  have hback := paths_of_perm hperm
  have hdrop : ∀ s ∈ taken, p.handed s.name = s.name.drop p.pre.length :=
    fun s hs => handed_eq_drop (hback s hs).1
  exact {
    decided := fun s hs hmeets => by
      have hmem : s ∈ taken := List.mem_filter.mpr ⟨hs, hmeets⟩
      exact (List.mem_filter.mp (hsame ▸ hmem)).2
    takenOff := fun hne => by
      obtain ⟨s, hs⟩ := List.exists_mem_of_ne_nil _ hne
      exact (hback s (hsame ▸ hs)).2
    free := fun s hs => hdrop s (hsame ▸ hs) ▸ hfree s (hsame ▸ hs)
    first := by
      rw [hsame, ← List.map_congr_left hdrop, ← hselect]
      exact htable }

lemma Params.Fits.handed (h : p.Fits luaMatch wildmatch content) :
    ∀ s ∈ p.matched luaMatch wildmatch content, p.pre ++ p.handed s.name = s.name :=
  fun _ hs => pre_append_handed_of_meets (List.mem_filter.mp hs).2
    (h.takenOff (List.ne_nil_of_mem hs))

lemma Params.Fits.select (h : p.Fits luaMatch wildmatch content) (haccepted : p.accepted = true) :
    p.select luaMatch wildmatch content =
      (p.matched luaMatch wildmatch content).map fun s => s.name.drop p.pre.length := by
  have hall : p.matched luaMatch wildmatch content =
      p.deciding.matched luaMatch wildmatch content := by
    rw [matched_eq_filter]
    refine List.filter_eq_self.mpr fun s hs => ?_
    exact h.decided s (List.mem_filter.mp hs).1 (List.mem_filter.mp hs).2
  rw [select_eq haccepted, ← hall]
  exact List.map_congr_left fun s hs => handed_eq_drop (h.handed s hs)

lemma binds_of_fits (haccepted : p.accepted = true)
    (hshows : Shows design hierPath content)
    (h : p.Fits luaMatch wildmatch content) :
    Binds hierPath (p.matched luaMatch wildmatch content) (p.select luaMatch wildmatch content)
      (p.bundle design hierPath (p.select luaMatch wildmatch content)) := by
  have hback : ∀ s ∈ p.matched luaMatch wildmatch content,
      p.pre ++ s.name.drop p.pre.length = s.name :=
    fun s hs => handed_eq_drop (h.handed s hs) ▸ h.handed s hs
  rw [h.select haccepted]
  set matched := p.matched luaMatch wildmatch content
  set signals := matched.map fun s => s.name.drop p.pre.length with hsignals
  by_cases hnil : matched = []
  · have hempty : signals.isEmpty = true := by rw [hsignals, hnil]; rfl
    rw [Params.bundle, if_pos hempty]
    exact ⟨rfl, hnil⟩
  · have hempty : ¬ signals.isEmpty = true := by simpa [hsignals] using hnil
    have hsome : ∀ key ∈ signals, ((p.args hierPath signals).handle design key).isSome := by
      intro key hkey
      obtain ⟨s, hs, rfl⟩ := List.mem_map.mp hkey
      obtain ⟨hdl, hdesign, hknown⟩ := hshows s (List.mem_filter.mp hs).1
      rw [Args.handle, CallableHDL.find, fullpath_args, hback s hs, hdesign]
      simpa using hknown
    obtain ⟨b, hb⟩ : ∃ b, Bundle.init design (p.args hierPath signals) = .ok b :=
      ⟨_, (Bundle.init_eq_ok_iff rfl).mpr ⟨Args.opens_of_isSome hsome, rfl⟩⟩
    rw [Params.bundle, if_neg hempty, hb]
    refine ⟨(signalsTable_eq_iff hb).mpr h.first, .of_eq ?_⟩
    rw [hsignals, List.map_map]
    refine List.map_congr_left fun s hs => ?_
    rw [Function.comp_apply, path_of_init hb, if_pos ⟨List.mem_map_of_mem hs, h.free s hs⟩,
      hback s hs]

/-- The bundle has what meets the criteria exactly if the criteria fit. -/
theorem binds_iff_fits (haccepted : p.accepted = true)
    (hshows : Shows design hierPath content) :
    Binds hierPath (p.matched luaMatch wildmatch content) (p.select luaMatch wildmatch content)
        (p.bundle design hierPath (p.select luaMatch wildmatch content)) ↔
      p.Fits luaMatch wildmatch content := by
  refine ⟨fun h => ?_, binds_of_fits haccepted hshows⟩
  rw [Params.bundle] at h
  split_ifs at h with hempty
  · have hnone : p.deciding.matched luaMatch wildmatch content = [] := by
      rw [List.isEmpty_iff, select_eq haccepted, List.map_eq_nil_iff] at hempty
      exact hempty
    have hmatched : p.matched luaMatch wildmatch content = [] := h.2
    exact {
      decided := fun s hs hmeets => by
        have hmem : s ∈ p.deciding.matched luaMatch wildmatch content :=
          List.mem_filter.mpr ⟨hs, hmeets⟩
        rw [hnone] at hmem
        cases hmem
      takenOff := fun hne => absurd hmatched hne
      free := fun s hs => absurd hs (hmatched ▸ List.not_mem_nil)
      first := by rw [hmatched]; exact List.not_mem_nil }
  · cases hb : Bundle.init design
        (p.args hierPath (p.select luaMatch wildmatch content)) with
    | error e =>
      rw [hb] at h
      cases h.1
    | ok b =>
      rw [hb] at h
      exact fits_of_binds haccepted hb h

end Bound

end Verilua.LuaBundle
