import Verilua.SignalDB.Lookup

/-!
# Filling the database

`insert_signal_db` puts every signal into the table that its path leads to. What has been put in is
what `find_signal` lists, as long as it is all below the one top module that `find_signal` looks at.
-/

namespace Verilua.SignalDB

open Trie

/-! ### `insert_signal_db` -/

/-- What `insert_signal_db` is given for a signal. -/
structure Signal where
  hierPath : Name
  bitwidth : Nat
  typeStr : Name

/-- `string.gmatch(hier_path, "[^.]+")` -/
def partsOf (hierPath : Name) : List Name := (hierPath.splitOn '.').filter (· ≠ [])

/-- The types that are told from one another. -/
inductive Keyword
  | logic
  | bit
  | reg
  deriving DecidableEq, Repr

def Keyword.text : Keyword → Name
  | .logic => ['l', 'o', 'g', 'i', 'c']
  | .bit => ['b', 'i', 't']
  | .reg => ['r', 'e', 'g']

/-- `type_str_to_vpi_type`: `none` is the error. -/
def typeStrToVpiType (typeStr : Name) : Option VpiType :=
  if Keyword.logic.text.isPrefixOf typeStr || Keyword.bit.text.isPrefixOf typeStr then some .vpiNet
  else if Keyword.reg.text.isPrefixOf typeStr then some .vpiReg
  else none

/-- A round of the loop. A path without parts is passed over. -/
def insertSignal (signalDbTable : Data) (s : Signal) : Option Data :=
  match (partsOf s.hierPath).getLast? with
  | none => some signalDbTable
  | some v => (typeStrToVpiType s.typeStr).map fun vpiType =>
      signalDbTable.insert ⟨v, s.bitwidth, vpiType⟩ (partsOf s.hierPath).dropLast

def insertSignalDb (signalDbTable : Data) (batch : List Signal) : Option Data :=
  batch.foldlM insertSignal signalDbTable

/-- The calls of `insert_signal_db`, one for each batch. -/
def insertBatches (batches : List (List Signal)) : Option Data :=
  batches.foldlM insertSignalDb (.node [] [])

/-- A database that holds the table. Which top `next` gives first is not known. -/
def Loads (t : Data) (db : Database) : Prop := t.values = [] ∧ t.children.Perm db.tops

/-! ### Signals of a design -/

def Keyword.vpiType : Keyword → VpiType
  | .logic | .bit => .vpiNet
  | .reg => .vpiReg

/-- A signal in a module, with a type that is known. -/
structure Declared where
  scope : List Name
  name : Name
  bitwidth : Nat
  keyword : Keyword
  rest : Name
  scope_ne_nil : scope ≠ []
  named : ∀ n ∈ scope ++ [name], IsName n

namespace Declared

def signal (d : Declared) : Signal where
  hierPath := dotted (d.scope ++ [d.name])
  bitwidth := d.bitwidth
  typeStr := d.keyword.text ++ d.rest

def info (d : Declared) : SignalInfo := ⟨d.name, d.bitwidth, d.keyword.vpiType⟩

end Declared

/-- `find_signal` with a star gives the signals, with their paths and their information. -/
def Enumerates (wildmatch : Name → Name → Bool) (ds : List Declared) (db : Database) : Prop :=
  ∃ paths infos, db.findSignal wildmatch ['*'] none false = some paths ∧
    db.findSignal wildmatch ['*'] none true = some infos ∧
    (paths.zip infos).Perm (ds.map fun d => (.path d.signal.hierPath, .info d.info))

variable {ds : List Declared} {t : Data} {top : Name}

/-! ### What is put in -/

lemma partsOf_dotted {names : List Name} (hne : names ≠ []) (hnames : ∀ n ∈ names, IsName n) :
    partsOf (dotted names) = names := by
  rw [partsOf, dotted, List.splitOn_intercalate '.' (fun n hn => (hnames n hn).2) hne]
  exact List.filter_eq_self.mpr fun n hn => by simpa using (hnames n hn).1

lemma typeStrToVpiType_text (k : Keyword) (rest : Name) :
    typeStrToVpiType (k.text ++ rest) = some k.vpiType := by
  cases k <;> simp [typeStrToVpiType, Keyword.text, Keyword.vpiType]

lemma insertSignal_signal (t : Data) (d : Declared) :
    insertSignal t d.signal = some (t.insert d.info d.scope) := by
  have hparts : partsOf d.signal.hierPath = d.scope ++ [d.name] :=
    partsOf_dotted (by simp) d.named
  rw [insertSignal, hparts, List.getLast?_concat, List.dropLast_concat]
  simp only [Declared.signal, typeStrToVpiType_text]
  rfl

/-- The table with the signals put in one after the other. -/
def filled (t : Data) (ds : List Declared) : Data := ds.foldl (fun t d => t.insert d.info d.scope) t

@[simp] lemma filled_nil (t : Data) : filled t [] = t := rfl

@[simp] lemma filled_cons (t : Data) (d : Declared) (ds : List Declared) :
    filled t (d :: ds) = filled (t.insert d.info d.scope) ds := rfl

lemma filled_append (t : Data) (ds ds' : List Declared) :
    filled t (ds ++ ds') = filled (filled t ds) ds' := List.foldl_append

lemma insertSignalDb_signals (t : Data) (ds : List Declared) :
    insertSignalDb t (ds.map Declared.signal) = some (filled t ds) := by
  rw [insertSignalDb]
  induction ds generalizing t with
  | nil => rfl
  | cons d ds ih =>
    rw [List.map_cons, List.foldlM_cons, insertSignal_signal]
    exact ih _

lemma insertBatches_signals (batches : List (List Declared)) :
    insertBatches (batches.map (·.map Declared.signal)) =
      some (filled (.node [] []) batches.flatten) := by
  rw [insertBatches]
  generalize (Trie.node [] [] : Data) = t
  induction batches generalizing t with
  | nil => rfl
  | cons batch batches ih =>
    rw [List.map_cons, List.foldlM_cons, insertSignalDb_signals, List.flatten_cons, filled_append]
    exact ih _

lemma entries_filled (t : Data) (ds : List Declared) :
    (filled t ds).entries.Perm (ds.map (fun d => (d.scope, d.info)) ++ t.entries) := by
  induction ds generalizing t with
  | nil => exact .refl _
  | cons d ds ih =>
    refine (ih (t.insert d.info d.scope)).trans ?_
    exact ((entries_insert d.info d.scope t).append_left _).trans List.perm_middle

lemma All.filled (h : All Named t) : All Named (filled t ds) := by
  induction ds generalizing t with
  | nil => exact h
  | cons d ds ih =>
    have hscope : ∀ k ∈ d.scope, IsName k := fun k hk => d.named k (List.mem_append_left _ hk)
    have hname : IsName d.name := d.named _ (by simp)
    refine ih (h.insert (by simp [Named]) ?_ ?_)
    · rintro vs keys ⟨hnodup, hkeys, hvs⟩
      refine ⟨hnodup, hkeys, fun s hs => ?_⟩
      rcases List.mem_append.mp hs with hs | hs
      · exact hvs s hs
      · exact List.mem_singleton.mp hs ▸ hname
    · rintro vs keys k hk hnew ⟨hnodup, hkeys, hvs⟩
      refine ⟨?_, fun j hj => ?_, hvs⟩
      · exact List.nodup_append.mpr ⟨hnodup, List.nodup_singleton k, by
          rintro a ha b hb rfl
          exact hnew (List.mem_singleton.mp hb ▸ ha)⟩
      · rcases List.mem_append.mp hj with hj | hj
        · exact hkeys j hj
        · exact List.mem_singleton.mp hj ▸ hscope k hk

lemma values_filled (t : Data) (ds : List Declared) : (filled t ds).values = t.values := by
  induction ds generalizing t with
  | nil => rfl
  | cons d ds ih =>
    obtain ⟨k, ks, hscope⟩ := List.exists_cons_of_ne_nil d.scope_ne_nil
    rw [filled_cons, ih, hscope]
    rfl

lemma keys_filled (htop : ∀ d ∈ ds, d.scope.head? = some top)
    (ht : t.children.map Prod.fst = [top]) : (filled t ds).children.map Prod.fst = [top] := by
  induction ds generalizing t with
  | nil => exact ht
  | cons d ds ih =>
    obtain ⟨k, ks, hscope⟩ := List.exists_cons_of_ne_nil d.scope_ne_nil
    obtain rfl : k = top := by simpa [hscope] using htop d List.mem_cons_self
    rw [filled_cons, hscope]
    refine ih (fun e he => htop e (List.mem_cons_of_mem _ he)) ?_
    rw [Trie.insert, children_node, keys_modifyChild, ht, if_pos (by simp)]

lemma exists_tops_filled (hne : ds ≠ []) (htop : ∀ d ∈ ds, d.scope.head? = some top) :
    ∃ c, (filled (.node [] []) ds).children = [(top, c)] := by
  obtain ⟨d, ds, rfl⟩ := List.exists_cons_of_ne_nil hne
  obtain ⟨k, ks, hscope⟩ := List.exists_cons_of_ne_nil d.scope_ne_nil
  obtain rfl : k = top := by simpa [hscope] using htop d List.mem_cons_self
  have hkeys : (filled (.node [] []) (d :: ds)).children.map Prod.fst = [k] := by
    rw [filled_cons, hscope]
    exact keys_filled (fun e he => htop e (List.mem_cons_of_mem _ he)) rfl
  obtain ⟨⟨k', c⟩, hc, hk⟩ := List.map_eq_singleton_iff.mp hkeys
  exact ⟨c, by rw [hc, ← hk]⟩

/-! ### What is listed -/

section Listing

variable {wildmatch : Name → Name → Bool}

mutual
theorem findSignalIn_star (hstar : ∀ s, wildmatch ['*'] s = true) (path : Name) (t : Data) :
    findSignalIn wildmatch ['*'] none path t =
      t.entries.map fun e => (dotted (path :: e.1 ++ [e.2.name]), e.2) := by
  match t with
  | .node signals hiers =>
    rw [findSignalIn, entries, List.map_append, findSignalHiers_star hstar path hiers,
      List.filter_eq_self.mpr (fun s _ => by simp [accepts, hstar]), List.map_map]
    congr 1
    exact List.map_congr_left fun s _ => by simp [dotted_cons]

theorem findSignalHiers_star (hstar : ∀ s, wildmatch ['*'] s = true) (path : Name)
    (hiers : List (Name × Data)) :
    findSignalHiers wildmatch ['*'] none path hiers =
      (entriesList hiers).map fun e => (dotted (path :: e.1 ++ [e.2.name]), e.2) := by
  match hiers with
  | [] => rfl
  | (k, v) :: hiers =>
    rw [findSignalHiers, entriesList, List.map_append, findSignalHiers_star hstar path hiers,
      findSignalIn_star hstar (path ++ '.' :: k) v, List.map_map]
    congr 1
    exact List.map_congr_left fun e _ => by
      rw [Function.comp_apply, List.cons_append, List.cons_append, List.cons_append, dotted_concat]
end

lemma foundSignals_star (hstar : ∀ s, wildmatch ['*'] s = true) {db : Database} {c : Data}
    (htops : db.tops = [(top, c)]) :
    db.foundSignals wildmatch ['*'] none =
      some (db.root.entries.map fun e => (dotted (e.1 ++ [e.2.name]), e.2)) := by
  have hroot : db.root = .node [] [(top, c)] := by rw [Database.root, htops]
  have htop : db.getTopModule = top := by
    simp only [Database.getTopModule, htops, List.head_cons]
  rw [Database.foundSignals, htop, hroot, child, children_node,
    List.find?_cons_of_pos (by simp), Option.map_some, Option.map_some,
    findSignalIn_star hstar top c]
  simp [entries, entriesList, List.map_map, Function.comp_def]

end Listing

/-! ### Small designs -/

def clkOf (scope : Name) (hscope : IsName scope) : Declared where
  scope := [scope]
  name := ['c', 'l', 'k']
  bitwidth := 1
  keyword := .logic
  rest := []
  scope_ne_nil := by simp
  named := by simpa using ⟨hscope, by decide⟩

def topClk : Declared := clkOf ['t'] (by decide)

def otherClk : Declared := clkOf ['u'] (by decide)

end Verilua.SignalDB
