import Verilua.Lib.Trie

/-!
# The signal database

A table of the database holds the signals of a module under numbers and its instances under their
names. `get_signal_info` goes down the table along a path, `find_signal` through all of it.
-/

namespace Verilua.SignalDB

abbrev Name := List Char

inductive VpiType
  | vpiNet
  | vpiReg
  deriving DecidableEq, Repr

structure SignalInfo where
  name : Name
  bitwidth : Nat
  vpiType : VpiType
  deriving DecidableEq, Repr

/-- A table. -/
abbrev Data := Trie Name SignalInfo

/-- What `signal_db_gen` makes of a path: the pieces between its dots. -/
def IsName (n : Name) : Prop := n ≠ [] ∧ '.' ∉ n

instance (n : Name) : Decidable (IsName n) := inferInstanceAs (Decidable (_ ∧ _))

/-- The names in a table; a table has one instance at a name. -/
def Named (signals : List SignalInfo) (keys : List Name) : Prop :=
  keys.Nodup ∧ (∀ k ∈ keys, IsName k) ∧ ∀ s ∈ signals, IsName s.name

/-- A database after `init`. The outermost table has the top modules. -/
structure Database where
  tops : List (Name × Data)
  tops_ne_nil : tops ≠ []
  named : Trie.All Named (.node [] tops)

namespace Database

def root (db : Database) : Data := .node [] db.tops

/-- `get_top_module`: `next` gives one of the tops, which is taken to stand first. -/
def getTopModule (db : Database) : Name := (db.tops.head db.tops_ne_nil).1

end Database

/-! ### `get_signal_info` -/

inductive LuaError
  | ipairsNil
  | indexNil
  deriving DecidableEq, Repr

/-- The loop of `get_signal_info`; `curr` can become `nil`. -/
def lookup : Option Data → List Name → Except LuaError (Option SignalInfo)
  | _, [] => .ok none
  | some curr, [v] => .ok (curr.values.find? fun s => s.name = v)
  | none, [_] => .error .ipairsNil
  | some curr, v :: w :: vs => lookup (curr.child v) (w :: vs)
  | none, _ :: _ :: _ => .error .indexNil

/-- `get_signal_info`, with `stringx.split` of a path at its dots. -/
def Database.getSignalInfo (db : Database) (split : Name → List Name) (hierPath : Name) :
    Except LuaError (Option SignalInfo) :=
  lookup (some db.root) (split hierPath)

/-! ### `find_signal` -/

section Find

variable (wildmatch : Name → Name → Bool) (signalPattern : Name) (hierPattern : Option Name)

/-- Whether `_find_signal` takes a signal of the module at `path`. -/
def accepts (path : Name) (s : SignalInfo) : Bool :=
  wildmatch signalPattern s.name && hierPattern.all fun p => wildmatch p path

mutual
/-- `_find_signal`: what is put into `ret`, as path and as information. -/
def findSignalIn (path : Name) : Data → List (Name × SignalInfo)
  | .node signals hiers =>
    (signals.filter fun s => accepts wildmatch signalPattern hierPattern path s).map
        (fun s => (path ++ '.' :: s.name, s)) ++
      findSignalHiers path hiers

def findSignalHiers (path : Name) : List (Name × Data) → List (Name × SignalInfo)
  | [] => []
  | (k, v) :: hiers => findSignalIn (path ++ '.' :: k) v ++ findSignalHiers path hiers
end

/-- The signals that `find_signal` goes through; none is the failed assertion. -/
def Database.foundSignals (db : Database) : Option (List (Name × SignalInfo)) :=
  (db.root.child db.getTopModule).map fun hiers =>
    findSignalIn wildmatch signalPattern hierPattern db.getTopModule hiers

inductive Found
  | path (p : Name)
  | info (s : SignalInfo)
  deriving DecidableEq, Repr

/-- `find_signal` -/
def Database.findSignal (db : Database) (fullInfo : Bool) : Option (List Found) :=
  (db.foundSignals wildmatch signalPattern hierPattern).map fun found =>
    found.map fun e => if fullInfo then .info e.2 else .path e.1

end Find

end Verilua.SignalDB

/-!
### Looking up and listing the signals

`get_signal_info` does not check that an instance is there before it goes on from it, and it
does not ask which of several tops a path starts at.
-/

namespace Verilua.SignalDB

open Trie

/-- The names joined by dots. -/
def dotted (names : List Name) : Name := ['.'].intercalate names

@[simp] lemma dotted_singleton (n : Name) : dotted [n] = n := by simp [dotted]

lemma dotted_cons (n : Name) {names : List Name} (h : names ≠ []) :
    dotted (n :: names) = n ++ '.' :: dotted names := by
  cases names with
  | nil => exact absurd rfl h
  | cons m names => simp [dotted, List.intercalate]

lemma dotted_concat (path n : Name) (names : List Name) :
    dotted ((path ++ '.' :: n) :: names) = dotted (path :: n :: names) := by
  cases names with
  | nil => simp [dotted_cons]
  | cons m names => simp [dotted_cons]

/-- What is used of `stringx.split` at a dot: it takes names that are joined apart again, and what
it takes into two parts or more can be joined to the path. -/
structure SplitsAtDots (split : Name → List Name) : Prop where
  split_dotted : ∀ names, names ≠ [] → (∀ n ∈ names, IsName n) → split (dotted names) = names
  dotted_split : ∀ path, 2 ≤ (split path).length → dotted (split path) = path

/-- The names joined by dots are the path exactly when the path is split into them. -/
lemma eq_dotted_iff {split : Name → List Name} (hsplit : SplitsAtDots split) {names : List Name}
    (hnames : ∀ n ∈ names, IsName n) (hlen : 2 ≤ names.length) {path : Name} :
    path = dotted names ↔ split path = names := by
  constructor
  · rintro rfl
    exact hsplit.split_dotted names (List.ne_nil_of_length_pos (by omega)) hnames
  · rintro rfl
    exact (hsplit.dotted_split path hlen).symm

/-! ### The lookup -/

section Lookup

variable {t d : Data} {names : List Name} {v : Name}

lemma lookup_nil_concat (names : List Name) (v : Name) :
    ∃ e, lookup none (names ++ [v]) = .error e := by
  cases names with
  | nil => exact ⟨.ipairsNil, rfl⟩
  | cons n names => cases names <;> exact ⟨.indexNil, rfl⟩

lemma lookup_concat_cons (n : Name) :
    lookup (some t) (n :: names ++ [v]) = lookup (t.child n) (names ++ [v]) := by
  cases names <;> rfl

lemma lookup_of_walk (h : t.walk names = some d) :
    lookup (some t) (names ++ [v]) = .ok (d.values.find? fun s => s.name = v) := by
  induction names generalizing t with
  | nil =>
    obtain rfl : t = d := Option.some.inj h
    rfl
  | cons n names ih =>
    obtain ⟨c, hc, hd⟩ := Option.bind_eq_some_iff.mp h
    rw [lookup_concat_cons, hc]
    exact ih hd

/-- Where one is missing, the loop goes on with `nil`. -/
lemma lookup_of_not_walk (h : t.walk names = none) :
    ∃ e, lookup (some t) (names ++ [v]) = .error e := by
  induction names generalizing t with
  | nil => cases h
  | cons n names ih =>
    rw [lookup_concat_cons]
    cases hc : t.child n with
    | none => exact lookup_nil_concat names v
    | some c => exact ih (by rwa [walk_cons, hc] at h)

end Lookup

/-! ### The listing -/

section Listing

variable {wildmatch : Name → Name → Bool} {signalPattern path p : Name}
  {hierPattern : Option Name} {i : SignalInfo}

mutual
/-- `_find_signal` lists the entries of the table that it accepts, under their paths. -/
theorem mem_findSignalIn (path : Name) (t : Data) :
    (p, i) ∈ findSignalIn wildmatch signalPattern hierPattern path t ↔
      ∃ names, (names, i) ∈ t.entries ∧ p = dotted (path :: names ++ [i.name]) ∧
        accepts wildmatch signalPattern hierPattern (dotted (path :: names)) i := by
  match t with
  | .node signals hiers =>
    simp only [findSignalIn, entries, List.mem_append, mem_findSignalHiers path hiers,
      List.mem_map, List.mem_filter]
    constructor
    · rintro (⟨s, ⟨hs, haccepts⟩, heq⟩ | ⟨names, hmem, hp, haccepts⟩)
      · obtain ⟨rfl, rfl⟩ := Prod.mk.inj heq
        exact ⟨[], .inl ⟨s, hs, rfl⟩, by simp [dotted_cons], by simpa using haccepts⟩
      · exact ⟨names, .inr hmem, hp, haccepts⟩
    · rintro ⟨names, ⟨s, hs, heq⟩ | hmem, hp, haccepts⟩
      · obtain ⟨rfl, rfl⟩ := Prod.mk.inj heq
        exact .inl ⟨s, ⟨hs, by simpa using haccepts⟩, by simp [hp, dotted_cons]⟩
      · exact .inr ⟨names, hmem, hp, haccepts⟩

theorem mem_findSignalHiers (path : Name) (hiers : List (Name × Data)) :
    (p, i) ∈ findSignalHiers wildmatch signalPattern hierPattern path hiers ↔
      ∃ names, (names, i) ∈ entriesList hiers ∧ p = dotted (path :: names ++ [i.name]) ∧
        accepts wildmatch signalPattern hierPattern (dotted (path :: names)) i := by
  match hiers with
  | [] => simp [findSignalHiers, entriesList]
  | (k, v) :: hiers =>
    simp only [findSignalHiers, entriesList, List.mem_append, mem_findSignalHiers path hiers,
      mem_findSignalIn (path ++ '.' :: k) v, List.mem_map]
    constructor
    · rintro (⟨names, hmem, hp, haccepts⟩ | ⟨names, hmem, hp, haccepts⟩)
      · refine ⟨k :: names, .inl ⟨(names, i), hmem, rfl⟩, ?_, ?_⟩
        · rw [hp, List.cons_append, dotted_concat]; rfl
        · rwa [← dotted_concat]
      · exact ⟨names, .inr hmem, hp, haccepts⟩
    · rintro ⟨names, ⟨⟨names', i'⟩, hmem, heq⟩ | hmem, hp, haccepts⟩
      · obtain ⟨rfl, rfl⟩ := Prod.mk.inj heq
        refine .inl ⟨names', hmem, ?_, ?_⟩
        · rw [hp, List.cons_append, List.cons_append, List.cons_append, dotted_concat]
        · rwa [dotted_concat]
      · exact .inr ⟨names, hmem, hp, haccepts⟩
end

lemma findSignal_zip (db : Database) {paths infos : List Found}
    (hpaths : db.findSignal wildmatch signalPattern hierPattern false = some paths)
    (hinfos : db.findSignal wildmatch signalPattern hierPattern true = some infos) :
    ∃ found, db.foundSignals wildmatch signalPattern hierPattern = some found ∧
      ((.path p, .info i) ∈ paths.zip infos ↔ (p, i) ∈ found) := by
  obtain ⟨found, hfound, rfl⟩ := Option.map_eq_some_iff.mp hpaths
  obtain ⟨found', hfound', rfl⟩ := Option.map_eq_some_iff.mp hinfos
  obtain rfl : found = found' := Option.some.inj (hfound.symm.trans hfound')
  refine ⟨found, hfound, ?_⟩
  rw [List.zip_map']
  simp

end Listing

namespace Database

variable (db : Database) (wildmatch : Name → Name → Bool)

/-- `find_signal` with a star lists the information with the path. -/
def Lists (path : Name) (i : SignalInfo) : Prop :=
  ∃ paths infos, db.findSignal wildmatch ['*'] none false = some paths ∧
    db.findSignal wildmatch ['*'] none true = some infos ∧
    (.path path, .info i) ∈ paths.zip infos

/-- The lookup raises no error, and finds what is listed under the path. -/
def Agrees (split : Name → List Name) (path : Name) : Prop :=
  ∃ r, db.getSignalInfo split path = .ok r ∧ ∀ i, r = some i ↔ db.Lists wildmatch path i

/-- All parts but the last name instances, each in the one before; and where the last names a
signal there, the first is the top module, and no other signal has that name. -/
def Placed (parts : List Name) : Prop :=
  ∃ d, db.root.walk parts.dropLast = some d ∧
    ∀ i ∈ d.values, parts.getLast? = some i.name →
      parts.head? = some db.getTopModule ∧ ∀ j ∈ d.values, j.name = i.name → j = i

variable {db wildmatch} {names : List Name} {d : Data} {i : SignalInfo} {path : Name}

lemma child_getTopModule (db : Database) : ∃ hiers, db.root.child db.getTopModule = some hiers := by
  obtain ⟨tops, hne, hnamed⟩ := db
  cases tops with
  | nil => exact absurd rfl hne
  | cons top tops => exact ⟨top.2, by simp [child, root, getTopModule]⟩

lemma nodup_root : All (fun _ keys => keys.Nodup) db.root :=
  All.mono (fun _ _ h => h.1) db.named

lemma isName_of_walk {t : Data} (h : All Named t) (hd : t.walk names = some d) (hi : i ∈ d.values) :
    ∀ n ∈ names ++ [i.name], IsName n := by
  induction names generalizing t with
  | nil =>
    obtain rfl : t = d := Option.some.inj hd
    simpa using (all_iff.mp h).1.2.2 i hi
  | cons n names ih =>
    obtain ⟨c, hc, hd⟩ := Option.bind_eq_some_iff.mp hd
    have hn : n ∈ t.children.map Prod.fst :=
      List.mem_map.mpr ⟨(n, c), mem_children_of_child hc, rfl⟩
    exact List.forall_mem_cons.mpr ⟨(all_iff.mp h).1.2.1 n hn, ih (h.child hc) hd⟩

lemma findSignal_isSome (db : Database) (wildmatch : Name → Name → Bool) (signalPattern : Name)
    (hierPattern : Option Name) (fullInfo : Bool) :
    ∃ found, db.findSignal wildmatch signalPattern hierPattern fullInfo = some found := by
  obtain ⟨hiers, htop⟩ := child_getTopModule db
  rw [findSignal, foundSignals, htop]
  exact ⟨_, rfl⟩

lemma lists_iff (hstar : ∀ s, wildmatch ['*'] s = true) :
    db.Lists wildmatch path i ↔
      ∃ names d, db.root.walk (db.getTopModule :: names) = some d ∧ i ∈ d.values ∧
        path = dotted (db.getTopModule :: names ++ [i.name]) := by
  obtain ⟨paths, hpaths⟩ := findSignal_isSome db wildmatch ['*'] none false
  obtain ⟨infos, hinfos⟩ := findSignal_isSome db wildmatch ['*'] none true
  obtain ⟨found, hfound, hzip⟩ := findSignal_zip (p := path) (i := i) db hpaths hinfos
  obtain ⟨hiers, htop, rfl⟩ := Option.map_eq_some_iff.mp hfound
  have hlists : db.Lists wildmatch path i ↔ (Found.path path, Found.info i) ∈ paths.zip infos := by
    constructor
    · rintro ⟨paths', infos', hpaths', hinfos', hmem⟩
      rw [hpaths] at hpaths'
      rw [hinfos] at hinfos'
      rwa [Option.some.inj hpaths', Option.some.inj hinfos']
    · exact fun hmem => ⟨paths, infos, hpaths, hinfos, hmem⟩
  have hnodup : All (fun _ keys => keys.Nodup) hiers := nodup_root.child htop
  rw [hlists, hzip, mem_findSignalIn]
  simp only [mem_entries_iff hnodup, walk_cons, htop, Option.bind_some, accepts, hstar,
    Option.all_none, Bool.and_self, and_true]
  constructor
  · rintro ⟨names, ⟨d, hd, hi⟩, hp⟩
    exact ⟨names, d, hd, hi, hp⟩
  · rintro ⟨names, d, hd, hi, hp⟩
    exact ⟨names, ⟨d, hd, hi⟩, hp⟩

lemma lists_iff_split {split : Name → List Name} (hsplit : SplitsAtDots split)
    (hstar : ∀ s, wildmatch ['*'] s = true) :
    db.Lists wildmatch path i ↔
      ∃ d, db.root.walk (split path).dropLast = some d ∧ i ∈ d.values ∧
        (split path).getLast? = some i.name ∧ (split path).head? = some db.getTopModule := by
  rw [lists_iff hstar]
  constructor
  · rintro ⟨names, d, hd, hi, hp⟩
    have hparts := (eq_dotted_iff hsplit (isName_of_walk db.named hd hi) (by simp)).mp hp
    rw [hparts]
    exact ⟨d, by rwa [List.dropLast_concat], hi, List.getLast?_concat, rfl⟩
  · rintro ⟨d, hd, hi, hlast, hhead⟩
    have hparts : split path = (split path).dropLast ++ [i.name] :=
      (List.dropLast_append_getLast? i.name hlast).symm
    cases hinit : (split path).dropLast with
    | nil =>
      -- the outermost table has no signals
      rw [hinit] at hd
      obtain rfl : db.root = d := Option.some.inj hd
      cases hi
    | cons top names =>
      rw [hinit] at hd hparts
      obtain rfl : top = db.getTopModule := by simpa [hparts] using hhead
      refine ⟨names, d, hd, hi, ?_⟩
      exact (eq_dotted_iff hsplit (isName_of_walk db.named hd hi) (by simp)).mpr hparts

lemma getSignalInfo_of_walk {split : Name → List Name}
    (hd : db.root.walk (split path).dropLast = some d) :
    ∃ r, db.getSignalInfo split path = .ok r ∧
      (∀ i, r = some i → i ∈ d.values ∧ (split path).getLast? = some i.name) ∧
      (r = none → ∀ i ∈ d.values, (split path).getLast? ≠ some i.name) := by
  rw [getSignalInfo]
  rcases List.eq_nil_or_concat (split path) with hparts | ⟨init, v, hparts⟩
  · rw [hparts]
    exact ⟨none, rfl, by simp, by simp⟩
  · rw [hparts, List.concat_eq_append] at hd ⊢
    rw [List.dropLast_concat] at hd
    simp only [lookup_of_walk hd, List.getLast?_concat, Option.some.injEq]
    refine ⟨_, rfl, fun i hfind => ?_, fun hfind i hi heq => ?_⟩
    · have hname : i.name = v := by simpa using List.find?_some hfind
      exact ⟨List.mem_of_find?_eq_some hfind, hname.symm⟩
    · exact absurd heq.symm (by simpa using List.find?_eq_none.mp hfind i hi)

theorem agrees_iff {split : Name → List Name} (hsplit : SplitsAtDots split)
    (hstar : ∀ s, wildmatch ['*'] s = true) (path : Name) :
    db.Agrees wildmatch split path ↔ db.Placed (split path) := by
  constructor
  · rintro ⟨r, hr, hagree⟩
    cases hd : db.root.walk (split path).dropLast with
    | none =>
      rcases List.eq_nil_or_concat (split path) with hparts | ⟨init, v, hparts⟩
      · rw [hparts] at hd
        cases hd
      · rw [hparts, List.concat_eq_append, List.dropLast_concat] at hd
        obtain ⟨e, he⟩ := lookup_of_not_walk (v := v) hd
        rw [getSignalInfo, hparts, List.concat_eq_append, he] at hr
        cases hr
    | some d =>
      obtain ⟨r', hr', hsome, hnone⟩ := getSignalInfo_of_walk hd
      obtain rfl : r = r' := Except.ok.inj (hr.symm.trans hr')
      refine ⟨d, hd, fun i hi hlast => ?_⟩
      cases hfound : r with
      | none => exact absurd hlast (hnone hfound i hi)
      | some k =>
        obtain ⟨d', hd', -, -, hhead⟩ := (lists_iff_split hsplit hstar).mp ((hagree k).mp hfound)
        obtain rfl : d = d' := Option.some.inj (hd.symm.trans hd')
        -- whatever is listed under the path is what was found
        have huniq : ∀ j ∈ d.values, j.name = i.name → k = j := fun j hj hname =>
          Option.some.inj (hfound.symm.trans
            ((hagree j).mpr ((lists_iff_split hsplit hstar).mpr
              ⟨d, hd, hj, hname ▸ hlast, hhead⟩)))
        exact ⟨hhead, fun j hj hname => (huniq j hj hname).symm.trans (huniq i hi rfl)⟩
  · rintro ⟨d, hd, hplaced⟩
    obtain ⟨r, hr, hsome, hnone⟩ := getSignalInfo_of_walk hd
    refine ⟨r, hr, fun i => ?_⟩
    rw [lists_iff_split hsplit hstar]
    constructor
    · intro hfound
      obtain ⟨hi, hlast⟩ := hsome i hfound
      exact ⟨d, hd, hi, hlast, (hplaced i hi hlast).1⟩
    · rintro ⟨d', hd', hi, hlast, -⟩
      obtain rfl : d = d' := Option.some.inj (hd.symm.trans hd')
      cases hfound : r with
      | none => exact absurd hlast (hnone hfound i hi)
      | some k =>
        obtain ⟨hk, hklast⟩ := hsome k hfound
        have hname : k.name = i.name := Option.some.inj (hklast.symm.trans hlast)
        rw [(hplaced i hi hlast).2 k hk hname]

end Database

/-! ### `find_all` and `find_hier` -/

section FindAll

variable (wildmatch : Name → Name → Bool) (pattern : Name)

/-- What an instance puts into `ret` itself. -/
def matched (path k : Name) : List Name := if wildmatch pattern k then [path ++ '.' :: k] else []

mutual
/-- `_find_hier` -/
def findHierIn (path : Name) : Data → List Name
  | .node _ hiers => findHierHiers path hiers

def findHierHiers (path : Name) : List (Name × Data) → List Name
  | [] => []
  | (k, v) :: hiers =>
    matched wildmatch pattern path k ++ findHierIn (path ++ '.' :: k) v ++ findHierHiers path hiers
end

mutual
/-- `_find_all` -/
def findAllIn (path : Name) : Data → List Name
  | .node signals hiers =>
    (signals.filter fun s => wildmatch pattern s.name).map (fun s => path ++ '.' :: s.name) ++
      findAllHiers path hiers

def findAllHiers (path : Name) : List (Name × Data) → List Name
  | [] => []
  | (k, v) :: hiers =>
    matched wildmatch pattern path k ++ findAllIn (path ++ '.' :: k) v ++ findAllHiers path hiers
end

/-- `find_hier` -/
def Database.findHier (db : Database) : Option (List Name) :=
  (db.root.child db.getTopModule).map (findHierIn wildmatch pattern db.getTopModule)

/-- `find_all` -/
def Database.findAll (db : Database) : Option (List Name) :=
  (db.root.child db.getTopModule).map (findAllIn wildmatch pattern db.getTopModule)

mutual
theorem findAllIn_perm (path : Name) (t : Data) : (findAllIn wildmatch pattern path t).Perm
    (findHierIn wildmatch pattern path t ++
      (findSignalIn wildmatch pattern none path t).map Prod.fst) := by
  match t with
  | .node signals hiers =>
    have hrest := findAllHiers_perm path hiers
    rw [List.perm_iff_count] at hrest ⊢
    intro p
    have hcount := hrest p
    simp only [findAllIn, findHierIn, findSignalIn, accepts, Option.all_none, Bool.and_true,
      List.map_append, List.map_map, Function.comp_def, List.count_append] at hcount ⊢
    omega

theorem findAllHiers_perm (path : Name) (hiers : List (Name × Data)) :
    (findAllHiers wildmatch pattern path hiers).Perm
      (findHierHiers wildmatch pattern path hiers ++
        (findSignalHiers wildmatch pattern none path hiers).map Prod.fst) := by
  match hiers with
  | [] => exact .nil
  | (k, v) :: hiers =>
    have hfirst := findAllIn_perm (path ++ '.' :: k) v
    have hrest := findAllHiers_perm path hiers
    rw [List.perm_iff_count] at hfirst hrest ⊢
    intro p
    have hcount := congrArg₂ (· + ·) (hfirst p) (hrest p)
    simp only [findAllHiers, findHierHiers, findSignalHiers, List.map_append,
      List.count_append] at hcount ⊢
    omega
end

/-- `find_all` lists what `find_hier` and `find_signal` list. -/
theorem Database.findAll_perm (db : Database) : ∃ all hiers signals,
    db.findAll wildmatch pattern = some all ∧ db.findHier wildmatch pattern = some hiers ∧
      db.findSignal wildmatch pattern none false = some (signals.map .path) ∧
      all.Perm (hiers ++ signals) := by
  obtain ⟨top, htop⟩ := child_getTopModule db
  refine ⟨_, _, (findSignalIn wildmatch pattern none db.getTopModule top).map Prod.fst, ?_, ?_, ?_,
    findAllIn_perm wildmatch pattern db.getTopModule top⟩
  · rw [findAll, htop, Option.map_some]
  · rw [findHier, htop, Option.map_some]
  · rw [findSignal, foundSignals, htop]
    simp

end FindAll

/-! ### A small database -/

/-- `stringx.split` at a dot. -/
def splitAtDots (path : Name) : List Name :=
  if path = [] then [] else if path = ['.'] then [[]] else path.splitOn '.'

lemma splitsAtDots_splitAtDots : SplitsAtDots splitAtDots := by
  constructor
  · intro names hne hnames
    have hsplit : (dotted names).splitOn '.' = names :=
      List.splitOn_intercalate '.' (fun n hn => (hnames n hn).2) hne
    have hnil : dotted names ≠ [] := by
      intro hnil
      rw [hnil] at hsplit
      have hmem : ([] : Name) ∈ names := by simp [← hsplit]
      exact (hnames [] hmem).1 rfl
    have hdot : dotted names ≠ ['.'] := by
      intro hdot
      rw [hdot] at hsplit
      have hmem : ([] : Name) ∈ names := hsplit ▸ by decide
      exact (hnames [] hmem).1 rfl
    rw [splitAtDots, if_neg hnil, if_neg hdot, hsplit]
  · intro path hlen
    rw [splitAtDots] at hlen ⊢
    split_ifs at hlen ⊢ with hnil hdot
    · simp at hlen
    · simp at hlen
    · exact List.intercalate_splitOn '.'

/-- A top module with a clock, and an instance in it. -/
def clocked : Database where
  tops := [("top".toList, .node [⟨"clk".toList, 1, .vpiReg⟩]
    [("u_sub".toList, .node [⟨"clk".toList, 1, .vpiNet⟩] [])])]
  tops_ne_nil := by simp
  named := by simp [Trie.All, Trie.AllList, Named, IsName]

theorem agrees_clocked :
    clocked.Agrees (fun _ _ => true) splitAtDots "top.u_sub.clk".toList := by
  refine (Database.agrees_iff splitsAtDots_splitAtDots (fun _ => rfl) _).mpr ?_
  have hparts : splitAtDots "top.u_sub.clk".toList =
      ["top".toList, "u_sub".toList, "clk".toList] := by decide
  rw [hparts]
  refine ⟨.node [⟨"clk".toList, 1, .vpiNet⟩] [], rfl, fun i hi _ => ⟨rfl, fun j hj _ => ?_⟩⟩
  rw [List.mem_singleton.mp hi, List.mem_singleton.mp hj]

/-- An instance that is not there is an error. -/
theorem not_agrees :
    ¬ ∀ (db : Database) (wildmatch : Name → Name → Bool) (split : Name → List Name),
      SplitsAtDots split → (∀ s, wildmatch ['*'] s = true) →
        ∀ path, db.Agrees wildmatch split path := by
  intro h
  obtain ⟨r, hr, -⟩ := h clocked (fun _ _ => true) splitAtDots splitsAtDots_splitAtDots
    (fun _ => rfl) "top.missing.clk".toList
  have herror : clocked.getSignalInfo splitAtDots "top.missing.clk".toList = .error .ipairsNil := by
    decide
  rw [herror] at hr
  cases hr

end Verilua.SignalDB
