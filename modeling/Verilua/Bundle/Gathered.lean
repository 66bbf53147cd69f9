import Verilua.Bundle.Scanned
import Mathlib.Data.Finset.Card

/-!
# The modules of a bundle

`collect` marks a module while it goes through the modules that are required in it, so that a cycle
ends there, and files the module when it is through.
-/

namespace Verilua.Bundle

variable {H O : Type} {tree : Tree H O} {skip : Name → Bool} {mods : List Name}
  {R : Name → Prop} {σ σ' σ'' : Collected H O} {name dep : Name} {src : Source H O} {fuel m : Nat}

/-! ### What a call does -/

/-- The names under which modules are filed. -/
def Collected.names (σ : Collected H O) : List Name := σ.srcs.map Prod.fst

/-- What is filed was asked for, and stands in a Lua file. -/
structure Sound (tree : Tree H O) (R : Name → Prop) (σ : Collected H O) : Prop where
  nodup : σ.names.Nodup
  apart : ∀ name ∈ σ.visiting, name ∉ σ.names
  lua : ∀ name src, (name, src) ∈ σ.srcs → R name ∧ tree.path name = some (some src)

/-- There is nothing left to do for a name, or it is being done. -/
def Settled (tree : Tree H O) (skip : Name → Bool) (σ : Collected H O) (name : Name) : Prop :=
  name ∈ σ.names ∨ name ∈ σ.visiting ∨ shouldSkip name skip = true ∨
    ∀ src, tree.path name ≠ some (some src)

structure Gathers (tree : Tree H O) (skip : Name → Bool) (σ σ' : Collected H O) : Prop where
  visiting : σ'.visiting = σ.visiting
  srcs : σ.srcs <+: σ'.srcs
  new : ∀ p ∈ σ'.srcs, p ∈ σ.srcs ∨ ∀ dep ∈ p.2.requires, Settled tree skip σ' dep

/-- The modules that are neither filed nor being gone through. -/
def missing (mods : List Name) (σ : Collected H O) : Nat :=
  (mods.toFinset \ (σ.names ++ σ.visiting).toFinset).card

lemma mem_missing : name ∈ mods.toFinset \ (σ.names ++ σ.visiting).toFinset ↔
    name ∈ mods ∧ name ∉ σ.names ∧ name ∉ σ.visiting := by
  rw [Finset.mem_sdiff, List.mem_toFinset, List.mem_toFinset, List.mem_append, not_or]

lemma lookup_isSome_iff : (σ.srcs.lookup name).isSome = true ↔ name ∈ σ.names := by
  rw [Option.isSome_iff_ne_none, ne_eq, List.lookup_eq_none_iff, Collected.names]
  simp

lemma Gathers.names (h : Gathers tree skip σ σ') (hname : name ∈ σ.names) : name ∈ σ'.names :=
  List.map_subset Prod.fst h.srcs.subset hname

lemma Gathers.settled (h : Gathers tree skip σ σ') (hname : Settled tree skip σ name) :
    Settled tree skip σ' name := by
  refine hname.imp h.names fun hrest => hrest.imp_left fun hvisiting => ?_
  rwa [h.visiting]

lemma Gathers.refl (tree : Tree H O) (skip : Name → Bool) (σ : Collected H O) :
    Gathers tree skip σ σ :=
  ⟨rfl, List.prefix_rfl, fun _ h => .inl h⟩

lemma Gathers.trans (h : Gathers tree skip σ σ') (h' : Gathers tree skip σ' σ'') :
    Gathers tree skip σ σ'' := by
  refine ⟨h'.visiting.trans h.visiting, h.srcs.trans h'.srcs, fun p hp => ?_⟩
  rcases h'.new p hp with hp | hnew
  · exact (h.new p hp).imp_right fun hdeps dep hdep => h'.settled (hdeps dep hdep)
  · exact .inr hnew

lemma Gathers.missing_le (h : Gathers tree skip σ σ') : missing mods σ' ≤ missing mods σ := by
  refine Finset.card_le_card fun name hname => ?_
  rw [mem_missing] at hname ⊢
  rw [h.visiting] at hname
  exact ⟨hname.1, fun hmem => hname.2.1 (h.names hmem), hname.2.2⟩

/-! ### A module that is gone through -/

/-- `visiting[name] = true` -/
def Collected.enter (σ : Collected H O) (name : Name) : Collected H O :=
  { σ with visiting := name :: σ.visiting }

/-- `visiting[name] = nil` and `srcs[name] = src` -/
def Collected.file (σ : Collected H O) (name : Name) (src : Source H O) : Collected H O :=
  ⟨σ.srcs ++ [(name, src)], σ.visiting.filter (· ≠ name)⟩

lemma missing_enter (hmods : name ∈ mods) (hnames : name ∉ σ.names)
    (hvisiting : name ∉ σ.visiting) : missing mods (σ.enter name) < missing mods σ := by
  refine Finset.card_lt_card ⟨fun n hn => ?_, fun hsub => ?_⟩
  · rw [mem_missing] at hn ⊢
    exact ⟨hn.1, hn.2.1, fun hmem => hn.2.2 (List.mem_cons_of_mem name hmem)⟩
  · have hmem := hsub (mem_missing.mpr ⟨hmods, hnames, hvisiting⟩)
    exact (mem_missing.mp hmem).2.2 List.mem_cons_self

lemma Sound.enter (h : Sound tree R σ) (hnames : name ∉ σ.names) :
    Sound tree R (σ.enter name) :=
  ⟨h.nodup, List.forall_mem_cons.mpr ⟨hnames, h.apart⟩, h.lua⟩

lemma names_file (σ : Collected H O) (name : Name) (src : Source H O) :
    (σ.file name src).names = σ.names ++ [name] := by
  simp [Collected.names, Collected.file]

lemma Settled.file (h : Settled tree skip σ dep) : Settled tree skip (σ.file name src) dep := by
  rcases h with hnames | hvisiting | hrest
  · exact .inl (names_file σ name src ▸ List.mem_append_left _ hnames)
  · by_cases heq : dep = name
    · exact .inl (names_file σ name src ▸ List.mem_append_right _ (by simp [heq]))
    · exact .inr (.inl (List.mem_filter.mpr ⟨hvisiting, by simpa using heq⟩))
  · exact .inr (.inr hrest)

lemma Sound.file (h : Sound tree R σ) (hmark : name ∈ σ.visiting) (hR : R name)
    (hsrc : tree.path name = some (some src)) : Sound tree R (σ.file name src) := by
  have hnames := names_file σ name src
  refine ⟨?_, fun n hn => ?_, fun n s hmem => ?_⟩
  · rw [hnames, List.nodup_append]
    refine ⟨h.nodup, List.nodup_singleton name, ?_⟩
    rintro a ha b hb rfl
    exact h.apart a (List.mem_singleton.mp hb ▸ hmark) ha
  · obtain ⟨hvisiting, hne⟩ := List.mem_filter.mp hn
    rw [hnames, List.mem_append, List.mem_singleton]
    rintro (hmem | rfl)
    · exact h.apart n hvisiting hmem
    · simp at hne
  · rcases List.mem_append.mp hmem with hold | hnew
    · exact h.lua n s hold
    · obtain ⟨rfl, rfl⟩ := Prod.mk.inj (List.mem_singleton.mp hnew)
      exact ⟨hR, hsrc⟩

lemma Gathers.file (hvisiting : name ∉ σ.visiting) (h : Gathers tree skip (σ.enter name) σ')
    (hdeps : ∀ dep ∈ src.requires, Settled tree skip σ' dep) :
    Gathers tree skip σ (σ'.file name src) := by
  refine ⟨?_, h.srcs.trans (List.prefix_append _ _), fun p hp => ?_⟩
  · have hmark : σ'.visiting = name :: σ.visiting := h.visiting
    rw [Collected.file, hmark, List.filter_cons_of_neg (by simp)]
    exact List.filter_eq_self.mpr fun n hn => by
      simpa using fun heq : n = name => hvisiting (heq ▸ hn)
  · rcases List.mem_append.mp hp with hp | hp
    · exact (h.new p hp).imp_right fun hdeps dep hdep => (hdeps dep hdep).file
    · rw [List.mem_singleton.mp hp]
      exact .inr fun dep hdep => (hdeps dep hdep).file

/-! ### `collect` -/

section Collect

variable {A : Name → Prop} {call : Name → Collected H O → Except PackError (Collected H O)}

/-- A name that is asked for and not left out. -/
def Wanted (skip : Name → Bool) (A : Name → Prop) (name : Name) : Prop :=
  A name ∧ shouldSkip name skip = false

/-- The specification of a call where at most `m` modules are missing. -/
def Collects (tree : Tree H O) (skip : Name → Bool) (mods : List Name) (A : Name → Prop) (m : Nat)
    (call : Name → Collected H O → Except PackError (Collected H O)) : Prop :=
  ∀ name σ, Sound tree (Wanted skip A) σ → A name → missing mods σ < m →
    ∃ σ', call name σ = .ok σ' ∧ Sound tree (Wanted skip A) σ' ∧ Gathers tree skip σ σ' ∧
      Settled tree skip σ' name

lemma foldlM_spec (hcall : Collects tree skip mods A m call) {deps : List Name}
    (hdeps : ∀ dep ∈ deps, A dep) (hsound : Sound tree (Wanted skip A) σ)
    (hmissing : missing mods σ < m) :
    ∃ σ', deps.foldlM (fun σ dep => call dep σ) σ = .ok σ' ∧ Sound tree (Wanted skip A) σ' ∧
      Gathers tree skip σ σ' ∧ ∀ dep ∈ deps, Settled tree skip σ' dep := by
  induction deps generalizing σ with
  | nil => exact ⟨σ, rfl, hsound, .refl tree skip σ, fun dep hdep => absurd hdep List.not_mem_nil⟩
  | cons dep deps ih =>
    obtain ⟨hdep, hdeps⟩ := List.forall_mem_cons.mp hdeps
    obtain ⟨σ₁, hfirst, hsound₁, hgathers₁, hsettled₁⟩ := hcall dep σ hsound hdep hmissing
    obtain ⟨σ₂, hrest, hsound₂, hgathers₂, hsettled₂⟩ :=
      ih hdeps hsound₁ (hgathers₁.missing_le.trans_lt hmissing)
    refine ⟨σ₂, ?_, hsound₂, hgathers₁.trans hgathers₂,
      List.forall_mem_cons.mpr ⟨hgathers₂.settled hsettled₁, hsettled₂⟩⟩
    rw [List.foldlM_cons, hfirst]
    exact hrest

lemma collect_succ (fuel : Nat) (name : Name) (σ : Collected H O) :
    collect tree skip (fuel + 1) name σ =
      if (σ.srcs.lookup name).isSome || shouldSkip name skip || σ.visiting.contains name then .ok σ
      else
        match tree.path name with
        | none => if tree.cpath name then .ok σ else .error (.notFound name)
        | some none => .ok σ
        | some (some src) =>
          (src.requires.foldlM (fun σ dep => collect tree skip fuel dep σ) (σ.enter name)).map
            fun σ => σ.file name src := by
  rw [collect]
  rfl

lemma collect_spec (hfinite : ∀ name src, tree.path name = some (some src) → name ∈ mods)
    (hfound : ∀ name, A name →
      shouldSkip name skip = true ∨ tree.path name ≠ none ∨ tree.cpath name = true)
    (hclosed : ∀ name src dep, Wanted skip A name → tree.path name = some (some src) →
      dep ∈ src.requires → A dep) (fuel : Nat) :
    Collects tree skip mods A fuel (collect tree skip fuel) := by
  induction fuel with
  | zero => exact fun _ _ _ _ h => absurd h (Nat.not_lt_zero _)
  | succ fuel ih =>
    intro name σ hsound hname hmissing
    rw [collect_succ]
    by_cases hdone : ((σ.srcs.lookup name).isSome || shouldSkip name skip ||
        σ.visiting.contains name) = true
    · refine ⟨σ, if_pos hdone, hsound, .refl tree skip σ, ?_⟩
      simp only [Bool.or_eq_true, lookup_isSome_iff, List.contains_iff_mem] at hdone
      rcases hdone with (hnames | hskip) | hvisiting
      · exact .inl hnames
      · exact .inr (.inr (.inl hskip))
      · exact .inr (.inl hvisiting)
    · rw [if_neg hdone]
      simp only [Bool.or_eq_true, lookup_isSome_iff, List.contains_iff_mem, not_or,
        Bool.not_eq_true] at hdone
      obtain ⟨⟨hnames, hskip⟩, hvisiting⟩ := hdone
      have hother : (∀ src, tree.path name ≠ some (some src)) → Settled tree skip σ name :=
        fun h => .inr (.inr (.inr h))
      cases hpath : tree.path name with
      | none =>
        have hcpath : tree.cpath name = true := by
          rcases hfound name hname with h | h | h
          · rw [hskip] at h
            cases h
          · exact absurd hpath h
          · exact h
        refine ⟨σ, if_pos hcpath, hsound, .refl tree skip σ, hother fun src h => ?_⟩
        rw [hpath] at h
        cases h
      | some file =>
        cases file with
        | none =>
          refine ⟨σ, rfl, hsound, .refl tree skip σ, hother fun src h => ?_⟩
          rw [hpath] at h
          cases h
        | some src =>
          have hless := missing_enter (hfinite name src hpath) hnames hvisiting
          obtain ⟨σ', hfold, hsound', hgathers, hsettled⟩ := foldlM_spec ih
            (fun dep hdep => hclosed name src dep ⟨hname, hskip⟩ hpath hdep)
            (hsound.enter hnames) (Nat.lt_of_lt_of_le hless (Nat.le_of_lt_succ hmissing))
          have hmark : name ∈ σ'.visiting := hgathers.visiting ▸ List.mem_cons_self
          refine ⟨σ'.file name src, ?_, hsound'.file hmark ⟨hname, hskip⟩ hpath,
            hgathers.file hvisiting hsettled, .inl ?_⟩
          · simp only [hfold]
            rfl
          · rw [names_file]
            exact List.mem_append_right _ (List.mem_singleton_self name)

end Collect

/-! ### More fuel -/

lemma foldlM_mono {call call' : Name → Collected H O → Except PackError (Collected H O)}
    (h : ∀ name σ σ', call name σ = .ok σ' → call' name σ = .ok σ') {deps : List Name}
    (hfold : deps.foldlM (fun σ dep => call dep σ) σ = .ok σ') :
    deps.foldlM (fun σ dep => call' dep σ) σ = .ok σ' := by
  induction deps generalizing σ with
  | nil => exact hfold
  | cons dep deps ih =>
    rw [List.foldlM_cons] at hfold ⊢
    cases hfirst : call dep σ with
    | error e =>
      rw [hfirst] at hfold
      cases hfold
    | ok σ₁ =>
      rw [hfirst] at hfold
      rw [h dep σ σ₁ hfirst]
      exact ih hfold

lemma collect_mono_succ (h : collect tree skip fuel name σ = .ok σ') :
    collect tree skip (fuel + 1) name σ = .ok σ' := by
  induction fuel generalizing name σ σ' with
  | zero => cases h
  | succ fuel ih =>
    rw [collect_succ] at h ⊢
    by_cases hdone : ((σ.srcs.lookup name).isSome || shouldSkip name skip ||
        σ.visiting.contains name) = true
    · rwa [if_pos hdone] at h ⊢
    · rw [if_neg hdone] at h ⊢
      rcases hpath : tree.path name with _ | _ | src
      · simpa only [hpath] using h
      · simpa only [hpath] using h
      · simp only [hpath] at h ⊢
        cases hfold : src.requires.foldlM (fun σ dep => collect tree skip fuel dep σ)
            (σ.enter name) with
        | error e =>
          rw [hfold] at h
          cases h
        | ok σ₁ =>
          rw [hfold] at h
          rw [foldlM_mono (fun _ _ _ => ih) hfold]
          exact h

lemma collect_mono {fuel' : Nat} (hle : fuel ≤ fuel') (h : collect tree skip fuel name σ = .ok σ') :
    collect tree skip fuel' name σ = .ok σ' := by
  induction hle with
  | refl => exact h
  | step _ ih => exact collect_mono_succ ih

end Verilua.Bundle
