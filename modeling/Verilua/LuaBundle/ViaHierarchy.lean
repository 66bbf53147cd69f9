import Verilua.Hierarchy.Agree
import Verilua.Lib.Separator
import Verilua.LuaBundle.AutoBundle

/-!
# The two ways to a bundle

`auto_bundle_via_hierarchy` does what `SignalDB:auto_bundle` does with the signals that the VPI
shows. It collects what is below the module and leaves out what is not directly in it.
-/

namespace Verilua.LuaBundle

open Hierarchy
open SignalDB (SignalInfo)

/-! ### The signals of a module -/

/-- What the callback of `collect_hierarchy_paths` has noted last for a path. -/
def notedFor {α : Type} (items : List HierarchyItem) (note : HierarchyItem → Option α)
    (fullPath : String) : Option α :=
  items.reverse.findSome? fun item => if item.fullPath = fullPath then note item else none

def bitwidthByPath (items : List HierarchyItem) (fullPath : String) : Option Int :=
  notedFor items (fun item => if item.bitwidth ≥ 0 then some item.bitwidth else none) fullPath

def sigTypeByPath (items : List HierarchyItem) (fullPath : String) : Option String :=
  notedFor items (fun item => item.sigType.filter (· ≠ "")) fullPath

/-- A turn of the loop of `collect_signals`. -/
def signalOf (items : List HierarchyItem) (hierPath : Text) (fullPath : String) :
    Option SignalInfo :=
  match bitwidthByPath items fullPath with
  | none => none
  | some bw =>
    let leafName := fullPath.toList.drop (hierPath ++ ['.']).length
    if '.' ∈ leafName then none
    else
      some ⟨leafName, bw.toNat,
        if sigTypeByPath items fullPath = some "reg" then .vpiReg else .vpiNet⟩

section Collect

-- `WildMatch::new(pattern).matches(path)`
variable (wildMatch : String → String → Bool)

def collectSignals (modules : List VpiModule) (hierPath : Text) :
    Except HierError (List SignalInfo) := do
  let items ← collectHierarchy wildMatch false modules
    ⟨0, some (String.ofList (hierPath ++ ['.', '*'])), none, false, false, true⟩
  return items.filterMap fun item => signalOf items hierPath item.fullPath

/-- `wildmatch(pattern, str)` -/
def nativeWildmatch (pattern str : Text) : Bool :=
  wildMatch (String.ofList pattern) (String.ofList str)

/-- `auto_bundle_via_hierarchy`; the database is asked where the VPI shows no signals. -/
def Params.autoBundleViaHierarchy (p : Params) (luaMatch : Text → Text → Bool)
    (split : Text → List Text) (design : Design) (db : SignalDB.Database)
    (modules : List VpiModule) (hierPath : Text) : Except AutoError Bundle :=
  if !p.accepted then .error .noCriterion
  else
    match collectSignals wildMatch modules hierPath with
    | .error e => .error (.hierarchy e)
    | .ok [] => p.autoBundle luaMatch (nativeWildmatch wildMatch) split design db hierPath
    | .ok (s :: signalsInfo) =>
      p.bundle design hierPath
        (p.select luaMatch (nativeWildmatch wildMatch) (s :: signalsInfo))

end Collect

/-- The signal that an entry of the hierarchy is, if it is directly in the module. -/
def direct (hierPath : Text) (entry : HierarchyEntry) : Option SignalInfo :=
  let leafName := entry.fullPath.toList.drop (hierPath ++ ['.']).length
  if 0 ≤ entry.bitwidth ∧ hierPath ++ ['.'] <+: entry.fullPath.toList ∧ '.' ∉ leafName then
    some ⟨leafName, entry.bitwidth.toNat,
      if entry.sigType = some "reg" then .vpiReg else .vpiNet⟩
  else none

/-- The signals of the module, in the order of their paths. -/
def directSignals (modules : List VpiModule) (hierPath : Text) : List SignalInfo :=
  ((visitsAll modules "" 0).mergeSort entryLe).filterMap (direct hierPath)

/-! ### What is collected -/

/-- `*` stands for every text. -/
def MatchesStar (wildMatch : String → String → Bool) : Prop :=
  ∀ (s : Text) (path : String), (∀ c ∈ s, c ≠ '*' ∧ c ≠ '?') →
    wildMatch (String.ofList (s ++ ['*'])) path = s.isPrefixOf path.toList

/-- A path without characters that mean something in a pattern or in a list of patterns. -/
def PlainPath (hierPath : Text) : Prop :=
  ∀ c ∈ hierPath, (c ≠ '*' ∧ c ≠ '?') ∧ c ≠ ',' ∧ isWhiteSpace c = false

section Collect

variable {modules : List VpiModule} {hierPath : Text} {wildMatch : String → String → Bool}

lemma findSome?_of_nodup {α β γ : Type} [DecidableEq β] {k : α → β} {f : α → Option γ} {x : α}
    {l : List α} (hl : (l.map k).Nodup) (hx : x ∈ l) :
    (l.findSome? fun y => if k y = k x then f y else none) = f x := by
  induction l with
  | nil => cases hx
  | cons y l ih =>
    rw [List.map_cons, List.nodup_cons] at hl
    rw [List.findSome?_cons]
    rcases List.mem_cons.mp hx with rfl | hx
    · rw [if_pos rfl]
      cases hf : f x with
      | some v => rfl
      | none =>
        refine List.findSome?_eq_none_iff.mpr fun y hy => if_neg fun hkey => hl.1 ?_
        exact List.mem_map.mpr ⟨y, hy, hkey⟩
    · rw [if_neg fun hkey => hl.1 (List.mem_map.mpr ⟨x, hx, hkey.symm⟩)]
      exact ih hl.2 hx

lemma notedFor_of_nodup {α : Type} {items : List HierarchyItem} {note : HierarchyItem → Option α}
    (hitems : (items.map HierarchyItem.fullPath).Nodup) {item : HierarchyItem}
    (hitem : item ∈ items) : notedFor items note item.fullPath = note item := by
  rw [notedFor]
  refine findSome?_of_nodup (k := HierarchyItem.fullPath) ?_ (List.mem_reverse.mpr hitem)
  rw [List.map_reverse]
  exact List.nodup_reverse.mpr hitems

lemma trim_of_plain {s : Text} (h : ∀ c ∈ s, isWhiteSpace c = false) : trim s = s := by
  have hdrop : ∀ {s : Text}, (∀ c ∈ s, isWhiteSpace c = false) → s.dropWhile isWhiteSpace = s := by
    intro s hs
    cases s with
    | nil => rfl
    | cons c s => rw [List.dropWhile_cons_of_neg (by simp [hs c List.mem_cons_self])]
  rw [trim, hdrop h, hdrop fun c hc => h c (List.mem_reverse.mp hc), List.reverse_reverse]

lemma parseWildcardMatchers_of_plain (h : PlainPath hierPath) :
    parseWildcardMatchers (some (String.ofList (hierPath ++ ['.', '*']))) =
      [String.ofList (hierPath ++ ['.', '*'])] := by
  have hchars : ∀ c ∈ hierPath ++ ['.', '*'], c ≠ ',' ∧ isWhiteSpace c = false := by
    intro c hc
    rcases List.mem_append.mp hc with hc | hc
    · exact (h c hc).2
    · rcases List.mem_pair.mp hc with rfl | rfl <;> decide
  have hsplit : (hierPath ++ ['.', '*']).splitOn ',' = [hierPath ++ ['.', '*']] := by
    have hcomma : ∀ part ∈ [hierPath ++ ['.', '*']], ',' ∉ part := by
      intro part hpart hmem
      exact (hchars ',' (List.mem_singleton.mp hpart ▸ hmem)).1 rfl
    simpa [List.intercalate] using List.splitOn_intercalate ',' hcomma (List.cons_ne_nil _ _)
  simp only [parseWildcardMatchers, String.toList_ofList, hsplit, List.map_cons, List.map_nil,
    trim_of_plain fun c hc => (hchars c hc).2]
  rw [List.filter_cons_of_pos (by simp), List.filter_nil, List.map_singleton]

/-- What the callback is called with for an entry. -/
def itemOf (entry : HierarchyEntry) : HierarchyItem where
  fullPath := entry.fullPath
  name := lastSegment entry.fullPath
  moduleName := entry.moduleName.bind cString
  sigType := entry.sigType.bind cString
  level := entry.level
  bitwidth := entry.bitwidth

lemma emitHierarchyEntry_eq {entry : HierarchyEntry} (h : '\x00' ∉ entry.fullPath.toList) :
    emitHierarchyEntry entry = some (itemOf entry) := by
  have hlast : '\x00' ∉ (lastSegment entry.fullPath).toList := by
    intro hmem
    rw [lastSegment, String.toList_ofList, List.getLastD_eq_getLast?,
      List.getLast?_eq_getLast_of_ne_nil (List.splitOn_ne_nil '.' _), Option.getD_some] at hmem
    exact h ((Separator.of_mem_splitOn _ _ (List.getLast_mem _)).2 hmem)
  simp only [emitHierarchyEntry, cString, if_neg h, if_neg hlast]
  rfl

lemma collectHierarchy_eq (hmodules : WellNamed modules) (hplain : PlainPath hierPath)
    (hstar : MatchesStar wildMatch)
    (hnul : ∀ entry ∈ visitsAll modules "" 0, '\x00' ∉ entry.fullPath.toList) :
    collectHierarchy wildMatch false modules
        ⟨0, some (String.ofList (hierPath ++ ['.', '*'])), none, false, false, true⟩ =
      .ok ((((visitsAll modules "" 0).mergeSort entryLe).filter fun entry =>
        (hierPath ++ ['.']).isPrefixOf entry.fullPath.toList).map itemOf) := by
  have hall : (visitsAll modules "" 0).filter (within 0) = visitsAll modules "" 0 :=
    List.filter_eq_self.mpr fun entry _ => by simp [within]
  have hentries : collectHierarchyEntries modules 0 =
      (visitsAll modules "" 0).mergeSort entryLe := by
    rw [collectHierarchyEntries, entries_collectHierarchyRecursive hmodules, hall]
  have hmatch : ∀ entry : HierarchyEntry, wildMatch (String.ofList (hierPath ++ ['.', '*']))
      entry.fullPath = (hierPath ++ ['.']).isPrefixOf entry.fullPath.toList := by
    intro entry
    have hpattern : hierPath ++ ['.', '*'] = (hierPath ++ ['.']) ++ ['*'] := by simp
    rw [hpattern]
    refine hstar _ _ fun c hc => ?_
    rcases List.mem_append.mp hc with hc | hc
    · exact (hplain c hc).1
    · rw [List.mem_singleton.mp hc]
      decide
  have hemit : ∀ l : List HierarchyEntry, (∀ entry ∈ l, '\x00' ∉ entry.fullPath.toList) →
      l.filterMap emitHierarchyEntry = l.map itemOf := by
    intro l hl
    rw [List.filterMap_congr fun entry hentry => emitHierarchyEntry_eq (hl entry hentry)]
    exact congrFun List.filterMap_eq_map l
  rw [collectHierarchy, if_neg (by simp), if_neg (by simp), hentries]
  simp only [respond, parseWildcardMatchers_of_plain hplain, Option.filter_none, Option.isSome_none,
    Bool.false_or, Bool.false_and, Bool.false_eq_true, if_false, if_true, entryMatches,
    List.isEmpty_cons, List.any_cons, List.any_nil, Bool.or_false, Option.all_none, Bool.and_true,
    hmatch]
  rw [hemit]
  intro entry hentry
  exact hnul entry (List.mem_mergeSort.mp (List.mem_filter.mp hentry).1)

lemma sigType_itemOf (entry : HierarchyEntry) :
    (itemOf entry).sigType.filter (· ≠ "") = some "reg" ↔ entry.sigType = some "reg" := by
  rw [itemOf]
  cases entry.sigType with
  | none => simp
  | some sigType =>
    rw [Option.bind_some, cString]
    split_ifs with hnul
    · have hne : sigType ≠ "reg" := by
        rintro rfl
        revert hnul
        decide
      simp [hne]
    · simp only [Option.filter_some, Option.some.injEq]
      by_cases hempty : sigType = ""
      · simp [hempty]
      · simp [hempty]

theorem collectSignals_eq (hmodules : WellNamed modules) (hplain : PlainPath hierPath)
    (hstar : MatchesStar wildMatch)
    (hnul : ∀ entry ∈ visitsAll modules "" 0, '\x00' ∉ entry.fullPath.toList) :
    collectSignals wildMatch modules hierPath = .ok (directSignals modules hierPath) := by
  have hnodup := hmodules.nodup
  rw [← map_fullPath_visitsAll modules "" 0 hmodules.noDots] at hnodup
  set entries := (visitsAll modules "" 0).mergeSort entryLe with hentries
  set below : HierarchyEntry → Bool := fun entry =>
    (hierPath ++ ['.']).isPrefixOf entry.fullPath.toList with hbelow
  have hitems : (((entries.filter below).map itemOf).map HierarchyItem.fullPath).Nodup := by
    rw [List.map_map]
    have hsorted : (entries.map HierarchyEntry.fullPath).Nodup :=
      ((List.mergeSort_perm _ _).map _).nodup_iff.mpr hnodup
    exact hsorted.sublist (List.filter_sublist.map _)
  have hsignal : ∀ entry ∈ entries.filter below,
      signalOf ((entries.filter below).map itemOf) hierPath (itemOf entry).fullPath =
        direct hierPath entry := by
    intro entry hentry
    have hmem : itemOf entry ∈ (entries.filter below).map itemOf := List.mem_map_of_mem hentry
    have hprefix : hierPath ++ ['.'] <+: entry.fullPath.toList :=
      List.isPrefixOf_iff_prefix.mp (List.mem_filter.mp hentry).2
    rw [signalOf, bitwidthByPath, sigTypeByPath, notedFor_of_nodup hitems hmem,
      notedFor_of_nodup hitems hmem, direct]
    simp only [sigType_itemOf]
    by_cases hwidth : 0 ≤ entry.bitwidth
    · simp [itemOf, hwidth, hprefix]
    · simp [itemOf, hwidth]
  have hdirect : (entries.filter below).filterMap (direct hierPath) =
      entries.filterMap (direct hierPath) := by
    rw [List.filterMap_filter]
    refine List.filterMap_congr fun entry _ => ?_
    split_ifs with hprefix
    · rfl
    · rw [direct, if_neg fun h => hprefix (List.isPrefixOf_iff_prefix.mpr h.2.1)]
  rw [collectSignals, collectHierarchy_eq hmodules hplain hstar hnul]
  refine congrArg Except.ok ?_
  rw [List.filterMap_map, directSignals, ← hdirect]
  exact List.filterMap_congr hsignal

end Collect

/-! ### The same module in two forms -/

/-- What the database and `wildmatch` know of a signal. -/
def known (s : SignalInfo) : Text × Nat := (s.name, s.bitwidth)

/-- A module as the database, the VPI and the handles show it. -/
structure Shown (design : Design) (db : SignalDB.Database) (modules : List VpiModule)
    (path : List Text) (node : SignalDB.Data) : Prop where
  path_ne_nil : path ≠ []
  named : ∀ n ∈ path, SignalDB.IsName n
  plain : PlainPath (SignalDB.dotted path)
  wellNamed : WellNamed modules
  noNul : ∀ entry ∈ visitsAll modules "" 0, '\x00' ∉ entry.fullPath.toList
  walk : db.root.walk path = some node
  same : (node.values.map known).Perm
    ((directSignals modules (SignalDB.dotted path)).map known)
  shows : Shows design (SignalDB.dotted path) node.values

/-- The bundles have the same names and the same paths, or there is none. -/
def Agree : Except AutoError Bundle → Except AutoError Bundle → Prop
  | .ok b, .ok b' => b.signalsTable.Perm b'.signalsTable ∧ ∀ key, b.path key = b'.path key
  | .error _, .error _ => True
  | _, _ => False

section Claim

variable {luaMatch wildmatch : Text → Text → Bool} {p : Params} {design : Design}
  {hierPath : Text} {content content' : List SignalInfo} {signals signals' : List Text}
  {matched matched' : List SignalInfo}

lemma select_perm (h : (content.map known).Perm (content'.map known)) :
    (p.select luaMatch wildmatch content).Perm (p.select luaMatch wildmatch content') := by
  have hselect : ∀ l : List SignalInfo, p.select luaMatch wildmatch l =
      (l.map known).filterMap fun e => p.take luaMatch wildmatch e.1 e.2 := by
    intro l
    rw [List.filterMap_map]
    rfl
  rw [hselect, hselect]
  exact h.filterMap _

lemma agree_of_binds (hperm : signals.Perm signals')
    (h : Binds hierPath matched signals (p.bundle design hierPath signals))
    (h' : Binds hierPath matched' signals' (p.bundle design hierPath signals')) :
    Agree (p.bundle design hierPath signals) (p.bundle design hierPath signals') := by
  by_cases hnil : signals = []
  · subst hnil
    rw [hperm.nil_eq.symm]
    trivial
  have hnil' : signals' ≠ [] := fun heq => hnil (by rw [heq] at hperm; exact hperm.eq_nil)
  have hinit : ∀ {m s}, s ≠ [] → Binds hierPath m s (p.bundle design hierPath s) →
      ∃ b, Bundle.init design (p.args hierPath s) = .ok b ∧ p.bundle design hierPath s = .ok b := by
    intro m s hs hbinds
    have hempty : ¬ s.isEmpty = true := by simpa using hs
    rw [Params.bundle, if_neg hempty] at hbinds ⊢
    cases hb : Bundle.init design (p.args hierPath s) with
    | error e =>
      rw [hb] at hbinds
      cases hbinds.1
    | ok b => exact ⟨b, rfl, rfl⟩
  obtain ⟨b, hb, heq⟩ := hinit hnil h
  obtain ⟨b', hb', heq'⟩ := hinit hnil' h'
  rw [heq] at h ⊢
  rw [heq'] at h' ⊢
  refine ⟨h.1 ▸ h'.1 ▸ hperm, fun key => ?_⟩
  rw [path_of_init hb, path_of_init hb']
  simp only [hperm.mem_iff]

lemma shows_of_known {content content' : List SignalInfo}
    (h : (content.map known).Perm (content'.map known)) (hshows : Shows design hierPath content) :
    Shows design hierPath content' := by
  intro s hs
  obtain ⟨s', hs', hknown⟩ := List.mem_map.mp (h.symm.subset (List.mem_map_of_mem hs))
  have hname : s'.name = s.name := congrArg Prod.fst hknown
  exact hname ▸ hshows s' hs'

section Both

variable {wildMatch : String → String → Bool} {split : Text → List Text}
  {db : SignalDB.Database} {modules : List VpiModule} {path : List Text} {node : SignalDB.Data}

lemma autoBundle_eq (haccepted : p.accepted = true) (hsplit : SignalDB.SplitsAtDots split)
    (h : Shown design db modules path node) :
    p.autoBundle luaMatch wildmatch split design db (SignalDB.dotted path) =
      p.bundle design (SignalDB.dotted path) (p.select luaMatch wildmatch node.values) := by
  rw [Params.autoBundle, if_neg (by simp [haccepted]),
    hsplit.split_dotted path h.path_ne_nil h.named, h.walk]

lemma autoBundleViaHierarchy_eq (haccepted : p.accepted = true)
    (hsplit : SignalDB.SplitsAtDots split) (hstar : MatchesStar wildMatch)
    (h : Shown design db modules path node) :
    p.autoBundleViaHierarchy wildMatch luaMatch split design db modules (SignalDB.dotted path) =
      p.bundle design (SignalDB.dotted path) (p.select luaMatch (nativeWildmatch wildMatch)
        (directSignals modules (SignalDB.dotted path))) := by
  rw [Params.autoBundleViaHierarchy, if_neg (by simp [haccepted]),
    collectSignals_eq h.wellNamed h.plain hstar h.noNul]
  cases hshown : directSignals modules (SignalDB.dotted path) with
  | nil =>
    have hvalues : node.values = [] := by
      have hsame := h.same
      rw [hshown, List.map_nil] at hsame
      exact List.map_eq_nil_iff.mp hsame.eq_nil
    dsimp only
    rw [autoBundle_eq haccepted hsplit h, hvalues]
  | cons s signals => rfl

/-- Both ways give the signals that meet the criteria, and they agree, exactly if the criteria fit
the module as it is listed in each. -/
theorem autoBundle_iff (haccepted : p.accepted = true) (hsplit : SignalDB.SplitsAtDots split)
    (hstar : MatchesStar wildMatch) (h : Shown design db modules path node) :
    let wildmatch := nativeWildmatch wildMatch
    let hierPath := SignalDB.dotted path
    let shown := directSignals modules hierPath
    (Binds hierPath (p.matched luaMatch wildmatch node.values)
          (p.select luaMatch wildmatch node.values)
          (p.autoBundle luaMatch wildmatch split design db hierPath) ∧
        Binds hierPath (p.matched luaMatch wildmatch shown) (p.select luaMatch wildmatch shown)
          (p.autoBundleViaHierarchy wildMatch luaMatch split design db modules hierPath) ∧
        Agree (p.autoBundle luaMatch wildmatch split design db hierPath)
          (p.autoBundleViaHierarchy wildMatch luaMatch split design db modules hierPath)) ↔
      p.Fits luaMatch wildmatch node.values ∧ p.Fits luaMatch wildmatch shown := by
  intro wildmatch hierPath shown
  have hfits : Binds hierPath (p.matched luaMatch wildmatch node.values) _ _ ↔ _ :=
    binds_iff_fits haccepted h.shows
  have hfits' : Binds hierPath (p.matched luaMatch wildmatch shown) _ _ ↔ _ :=
    binds_iff_fits haccepted (shows_of_known h.same h.shows)
  rw [autoBundle_eq haccepted hsplit h, autoBundleViaHierarchy_eq haccepted hsplit hstar h]
  constructor
  · rintro ⟨hbinds, hbinds', -⟩
    exact ⟨hfits.mp hbinds, hfits'.mp hbinds'⟩
  · rintro ⟨hnode, hshown⟩
    have hbinds := hfits.mpr hnode
    have hbinds' := hfits'.mpr hshown
    exact ⟨hbinds, hbinds', agree_of_binds (select_perm h.same) hbinds hbinds'⟩

end Both

end Claim

/-! ### A small module -/

/-- Whether the pattern matches, with `?` for any character and `*` for any text. -/
def glob : Text → Text → Bool
  | [], s => s.isEmpty
  | c :: pattern, s =>
    if c = '*' then (List.range (s.length + 1)).any fun i => glob pattern (s.drop i)
    else
      match s with
      | [] => false
      | d :: s => (c == '?' || c == d) && glob pattern s

def globMatch (pattern path : String) : Bool := glob pattern.toList path.toList

lemma matchesStar_globMatch : MatchesStar globMatch := by
  intro s path hs
  rw [globMatch, String.toList_ofList]
  generalize path.toList = path
  induction s generalizing path with
  | nil =>
    simp only [glob, if_true, List.nil_append, List.isPrefixOf_nil_left, List.any_eq_true]
    exact ⟨path.length, by simp, by simp⟩
  | cons c s ih =>
    have hc := hs c List.mem_cons_self
    cases path with
    | nil => simp [glob, hc.1]
    | cons d path =>
      have hrest := ih (fun x hx => hs x (List.mem_cons_of_mem _ hx)) path
      have hany : (c == '?') = false := beq_false_of_ne hc.2
      simp [glob, hc.1, hany, hrest, List.isPrefixOf]

/-- A top module with two values, one of them on an interface. -/
def valuesTop : VpiModule :=
  .mk (some "top") none
    (fun
      | .vpiNet => [⟨some "io_value_0", 8⟩, ⟨some "data_value_1", 8⟩]
      | .vpiReg => []
      | .vpiMemory => [])
    []

def valuesNode : SignalDB.Data :=
  .node [⟨"io_value_0".toList, 8, .vpiNet⟩, ⟨"data_value_1".toList, 8, .vpiNet⟩] []

def valuesDb : SignalDB.Database where
  tops := [("top".toList, valuesNode)]
  tops_ne_nil := by simp
  named := by simp [Trie.All, Trie.AllList, SignalDB.Named, SignalDB.IsName, valuesNode]

def valuesDesign : Design := fun path =>
  if path = "top.io_value_0".toList ∨ path = "top.data_value_1".toList then some ⟨.vpiNet, 8⟩
  else none

lemma shown_values : Shown valuesDesign valuesDb [valuesTop] ["top".toList] valuesNode where
  path_ne_nil := by simp
  named := by simp [SignalDB.IsName]
  plain := by
    rw [SignalDB.dotted_singleton]
    simp [PlainPath, isWhiteSpace]
  wellNamed := {
    nodup := by decide
    noDots := by
      simp only [NoDotsAll, valuesTop, NoDots, Option.mem_def, Option.some.injEq, forall_eq',
        and_true]
      refine ⟨by decide, fun type => ?_⟩
      cases type <;> simp }
  noNul := by decide
  walk := rfl
  same := by
    rw [SignalDB.dotted_singleton, directSignals]
    have hvisits : valuesNode.values.map known =
        ((visitsAll [valuesTop] "" 0).filterMap (direct "top".toList)).map known := by decide
    rw [hvisits]
    exact (((List.mergeSort_perm _ _).filterMap _).map known).symm
  shows := by
    intro s hs
    rw [SignalDB.dotted_singleton]
    rcases List.mem_pair.mp hs with rfl | rfl
    · exact ⟨⟨.vpiNet, 8⟩, if_pos (.inl rfl), rfl⟩
    · exact ⟨⟨.vpiNet, 8⟩, if_pos (.inr rfl), rfl⟩

/-- The values of an interface, by the beginning of their names. -/
def ioValues : Params := { startswith := some "io_".toList, endswith := some "_0".toList }

/-- The same, with a wildcard and a prefix. -/
def prefixedValues : Params :=
  { wildmatch := some "*_value_*".toList, signalPrefix := some "io_".toList }

theorem autoBundle_iff_ioValues :
    let wildmatch := nativeWildmatch globMatch
    let hierPath := SignalDB.dotted ["top".toList]
    let shown := directSignals [valuesTop] hierPath
    (Binds hierPath (ioValues.matched (fun _ _ => false) wildmatch valuesNode.values)
          (ioValues.select (fun _ _ => false) wildmatch valuesNode.values)
          (ioValues.autoBundle (fun _ _ => false) wildmatch SignalDB.splitAtDots valuesDesign
            valuesDb hierPath) ∧
        Binds hierPath (ioValues.matched (fun _ _ => false) wildmatch shown)
          (ioValues.select (fun _ _ => false) wildmatch shown)
          (ioValues.autoBundleViaHierarchy globMatch (fun _ _ => false) SignalDB.splitAtDots
            valuesDesign valuesDb [valuesTop] hierPath) ∧
        Agree (ioValues.autoBundle (fun _ _ => false) wildmatch SignalDB.splitAtDots valuesDesign
            valuesDb hierPath)
          (ioValues.autoBundleViaHierarchy globMatch (fun _ _ => false) SignalDB.splitAtDots
            valuesDesign valuesDb [valuesTop] hierPath)) ↔
      ioValues.Fits (fun _ _ => false) wildmatch valuesNode.values ∧
        ioValues.Fits (fun _ _ => false) wildmatch shown :=
  autoBundle_iff rfl SignalDB.splitsAtDots_splitAtDots matchesStar_globMatch shown_values

/-- A signal that the wildcard takes without the prefix in its name gets the prefix. -/
theorem not_autoBundle_binds :
    ¬ ∀ (p : Params) (luaMatch : Text → Text → Bool) (wildMatch : String → String → Bool)
      (split : Text → List Text) (design : Design) (db : SignalDB.Database)
      (modules : List VpiModule) (path : List Text) (node : SignalDB.Data),
      p.accepted = true → SignalDB.SplitsAtDots split → MatchesStar wildMatch →
      Shown design db modules path node →
        Binds (SignalDB.dotted path)
          (p.matched luaMatch (nativeWildmatch wildMatch) node.values)
          (p.select luaMatch (nativeWildmatch wildMatch) node.values)
          (p.autoBundle luaMatch (nativeWildmatch wildMatch) split design db
            (SignalDB.dotted path)) := by
  intro h
  have hbinds := h prefixedValues (fun _ _ => false) globMatch SignalDB.splitAtDots valuesDesign
    valuesDb [valuesTop] ["top".toList] valuesNode rfl SignalDB.splitsAtDots_splitAtDots
    matchesStar_globMatch shown_values
  rw [autoBundle_eq rfl SignalDB.splitsAtDots_splitAtDots shown_values,
    binds_iff_fits rfl shown_values.shows] at hbinds
  have hmeets := hbinds.decided ⟨"data_value_1".toList, 8, .vpiNet⟩ (by simp [valuesNode])
    (by decide)
  revert hmeets
  decide

end Verilua.LuaBundle
