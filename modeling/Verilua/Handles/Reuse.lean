import Verilua.Handles.Basic

/-!
# Constructors that share their parameters

`bundle` and `abdl` read the parameters, but a table `optional_signals` is handed on by reference,
and the names in brackets are inserted into it. Later constructions that use the table see them.
-/

namespace Verilua.Handles

/-- One construction, from a string and parameters. -/
inductive Construction
  | bundle (str : Text) (params : Params)
  | abdl (str : Text) (params : Params)

namespace Construction

variable (split : Text → Text → List Text)

def params : Construction → Params
  | .bundle _ params | .abdl _ params => params

/-- The names in the brackets of the string. -/
def bracketed : Construction → List Text
  | .bundle str _ => ((signalsOf split str).filter (·.2)).map (·.1)
  | .abdl str _ => ((signalsOf split str).filter (·.2)).flatMap fun signal => autoNames split signal.1

/-- The names that the parameters list. -/
def listed (c : Construction) (heap : Heap) : List Text := c.params.listed heap

/-- The names that the class of the handle is given as optional, and the tables afterwards. -/
def run (c : Construction) (heap : Heap) : Option (List Text) × Heap :=
  match c with
  | .bundle str params =>
    let (call, heap') := processBundle split str params heap
    (call.map (·.optionalSignals), heap')
  | .abdl str params =>
    let (call, heap') := Handles.abdl split str params heap
    (call.map (·.optionalSignals), heap')

/-- The string and the parameters are accepted. -/
def Accepted : Construction → Prop
  | .bundle str params => (readBundle split str params).isSome
  | .abdl str params => (readAbdl split str params).isSome

/-- There are names in brackets as well as a table of names. -/
def Merges (c : Construction) : Prop :=
  c.Accepted split ∧ c.bracketed split ≠ [] ∧ ∃ ref, c.params.optionalSignals = some (some ref)

def tablesAfter (cs : List Construction) (heap : Heap) : Heap :=
  cs.foldl (fun heap c => (c.run split heap).2) heap

/-- After each construction the tables are as they were, and what its handle takes as optional is
bracketed in its own string or listed in the table as it was at first. -/
def Unaltered (cs : List Construction) (heap : Heap) : Prop :=
  ∀ past c rest, cs = past ++ c :: rest →
    tablesAfter split (past ++ [c]) heap = heap ∧
      ∀ names, (c.run split (tablesAfter split past heap)).1 = some names →
        ∀ name, name ∈ names ↔ name ∈ c.bracketed split ∨ name ∈ c.listed heap

variable {split} {c : Construction} {cs past : List Construction} {heap : Heap}

lemma eq_of_readBundle {str : Text} {params : Params} {p : Pending BundleCall}
    (h : readBundle split str params = some p) :
    p.autoOptionalSignals = (Construction.bundle str params).bracketed split ∧
      params.optionalSignals = some p.optionalSignals ∧
      ∀ names, (p.call names).optionalSignals = names := by
  simp only [readBundle, Option.bind_eq_bind, Option.bind_eq_some_iff] at h
  obtain ⟨hier, -, pre, -, isDecoupled, -, name, -, given, hgiven, h⟩ := h
  split_ifs at h
  obtain rfl := Option.some.inj h
  exact ⟨rfl, hgiven, fun _ => rfl⟩

lemma eq_of_readAbdl {str : Text} {params : Params} {p : Pending AliasCall}
    (h : readAbdl split str params = some p) :
    p.autoOptionalSignals = (Construction.abdl str params).bracketed split ∧
      params.optionalSignals = some p.optionalSignals ∧
      ∀ names, (p.call names).optionalSignals = names := by
  simp only [readAbdl, Option.bind_eq_bind, Option.bind_eq_some_iff] at h
  obtain ⟨texts, -, aliasTbl, -, hier, -, pre, -, name, -, given, hgiven, h⟩ := h
  obtain rfl := Option.some.inj h
  exact ⟨rfl, hgiven, fun _ => rfl⟩

lemma run_of_not_accepted (h : ¬ c.Accepted split) (heap : Heap) :
    c.run split heap = (none, heap) := by
  cases c with
  | bundle str params =>
    have hnone := Option.not_isSome_iff_eq_none.1 h
    simp only [run, processBundle, hnone, Option.map_none]
  | abdl str params =>
    have hnone := Option.not_isSome_iff_eq_none.1 h
    simp only [run, Handles.abdl, hnone, Option.map_none]

/-- Else the names that are handed on are those of the table and those in brackets, and the table
has both. -/
lemma run_of_accepted (h : c.Accepted split) (heap : Heap) :
    c.run split heap = (some (c.listed heap ++ c.bracketed split),
      match c.params.optionalSignals with
      | some (some ref) => Function.update heap ref (heap ref ++ c.bracketed split)
      | _ => heap) := by
  cases c with
  | bundle str params =>
    obtain ⟨p, hp⟩ := Option.isSome_iff_exists.1 h
    obtain ⟨hauto, hgiven, hcall⟩ := eq_of_readBundle hp
    simp only [run, processBundle, hp, Pending.merge, listed, Params.listed, Construction.params, hgiven,
      ← hauto]
    cases p.optionalSignals <;> simp [hcall]
  | abdl str params =>
    obtain ⟨p, hp⟩ := Option.isSome_iff_exists.1 h
    obtain ⟨hauto, hgiven, hcall⟩ := eq_of_readAbdl hp
    simp only [run, Handles.abdl, hp, Pending.merge, listed, Params.listed, Construction.params, hgiven,
      ← hauto]
    cases p.optionalSignals <;> simp [hcall]

/-- The tables stay as they are exactly if there is nothing to merge. -/
lemma run_snd_eq_iff (heap : Heap) : (c.run split heap).2 = heap ↔ ¬ c.Merges split := by
  by_cases haccepted : c.Accepted split
  · rw [run_of_accepted haccepted]
    match hgiven : c.params.optionalSignals with
    | none => simp [Merges, hgiven]
    | some none => simp [Merges, hgiven]
    | some (some ref) =>
      simp only [Function.update_eq_self_iff, Merges, haccepted, hgiven, Option.some.injEq,
        exists_eq', and_true, true_and, not_not, List.append_right_eq_self]
  · rw [run_of_not_accepted haccepted]
    exact iff_of_true rfl fun h => haccepted h.1

lemma tablesAfter_eq (h : ∀ c ∈ past, ¬ c.Merges split) (heap : Heap) :
    tablesAfter split past heap = heap := by
  induction past with
  | nil => rfl
  | cons c past ih =>
    rw [tablesAfter, List.foldl_cons, (run_snd_eq_iff heap).2 (h c List.mem_cons_self)]
    exact ih fun d hd => h d (List.mem_cons_of_mem _ hd)

/-- The inputs of all constructions stay as they are exactly if none of them has both brackets and a
table of optional names. -/
theorem unaltered_iff (split : Text → Text → List Text) (cs : List Construction) (heap : Heap) :
    Unaltered split cs heap ↔ ∀ c ∈ cs, ¬ c.Merges split := by
  constructor
  · intro h c hc
    obtain ⟨past, rest, rfl⟩ := List.append_of_mem hc
    have hbefore : tablesAfter split past heap = heap := by
      cases past using List.reverseRecOn with
      | nil => rfl
      | append_singleton past d => exact (h past d (c :: rest) (by simp)).1
    have hafter := (h past c rest rfl).1
    rw [tablesAfter, List.foldl_append] at hafter
    rw [← run_snd_eq_iff heap]
    exact (congrArg (fun heap => (c.run split heap).2) hbefore).symm.trans hafter
  · rintro h past c rest rfl
    have hpast : ∀ d ∈ past, ¬ d.Merges split := fun d hd => h d (List.mem_append_left _ hd)
    have hc : ¬ c.Merges split := h c (by simp)
    have hbefore := tablesAfter_eq hpast heap
    refine ⟨?_, fun names hnames name => ?_⟩
    · rw [tablesAfter, List.foldl_append]
      exact (congrArg (fun heap => (c.run split heap).2) hbefore).trans
        ((run_snd_eq_iff heap).2 hc)
    · rw [hbefore] at hnames
      by_cases haccepted : c.Accepted split
      · rw [run_of_accepted haccepted] at hnames
        obtain rfl := Option.some.inj hnames
        rw [List.mem_append, or_comm]
      · rw [run_of_not_accepted haccepted] at hnames
        cases hnames

/-- `"a|[b]"`, and a list that is shared. -/
theorem not_unaltered : ¬ ∀ (cs : List Construction) (heap : Heap),
    Unaltered stringxSplit cs heap := by
  intro h
  have hone := h [.bundle ['a', '|', '[', 'b', ']']
    [(Params.hierKey, .str ['t']), (Params.optionalSignalsKey, .table 0 [])]] fun _ => []
  have hafter := congrFun (hone [] _ [] rfl).1 0
  revert hafter
  decide

end Construction

end Verilua.Handles
