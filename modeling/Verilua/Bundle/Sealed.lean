import Verilua.Bundle.Basic

/-!
# Requiring a sealed module

The function that the loader of sealed files returns is run while the module is marked as being
loaded, and it ends by requiring the same module again. So the call raises, and no body is run; the
sources run at least the body of the module.
-/

namespace Verilua.Bundle

variable {H O : Type} {env env' : Loaders H O} {s s' : State H O} {name entry : Name}
  {r : Except Err (Value O)} {fuel : Nat}

/-! ### Bodies that were run -/

/-- Bodies that were run stay so. -/
def Extends (req : Name → State H O → Run H O) : Prop :=
  ∀ name s r s', req name s = some (r, s') → s.ran <+: s'.ran

lemma Extends.runBody {req : Name → State H O → Run H O} (h : Extends req) (b : Body H O)
    (hrun : runBody req b s = some (r, s')) : s.ran <+: s'.ran := by
  induction b generalizing s with
  | done v =>
    obtain ⟨-, rfl⟩ := Prod.mk.inj (Option.some_inj.mp hrun)
    exact List.prefix_rfl
  | raise text =>
    obtain ⟨-, rfl⟩ := Prod.mk.inj (Option.some_inj.mp hrun)
    exact List.prefix_rfl
  | act f next ih =>
    have hran := ih (f s.heap) hrun
    exact hran
  | require name next ih =>
    rw [Bundle.runBody] at hrun
    split at hrun
    case h_1 => cases hrun
    case h_2 r' s₁ hreq => exact (h name s r' s₁ hreq).trans (ih r' hrun)

lemma Extends.runChunk {req : Name → State H O → Run H O} (h : Extends req) (c : Chunk H O)
    (hrun : runChunk req name s c = some (r, s')) : s.ran <+: s'.ran := by
  cases c with
  | body b => exact (List.prefix_append s.ran [name]).trans (h.runBody b hrun)
  | wrapper w => exact h w.entry (s.setPreload w.mods) r s' hrun

lemma ran_finish (s : State H O) (name : Name) (v : Value O) :
    (s.finish name v).2.ran = s.ran := by
  have hstore : (s.store name v).ran = s.ran := by cases v <;> rfl
  rw [State.finish]
  split
  · exact hstore
  · exact hstore

lemma ran_of_load {req : Name → State H O → Run H O} {c : Chunk H O}
    (hrun : load req name s c = some (r, s')) :
    ∃ r₁ s₁, runChunk req name (s.setLoaded name .sentinel) c = some (r₁, s₁) ∧
      s'.ran = s₁.ran := by
  rw [load] at hrun
  split at hrun
  case h_1 => cases hrun
  case h_2 e s₁ hchunk =>
    obtain ⟨-, rfl⟩ := Prod.mk.inj (Option.some_inj.mp hrun)
    exact ⟨_, _, hchunk, rfl⟩
  case h_3 v s₁ hchunk =>
    refine ⟨_, _, hchunk, ?_⟩
    rw [← ran_finish s₁ name v, Option.some_inj.mp hrun]

lemma extends_require (env : Loaders H O) (fuel : Nat) : Extends (require env fuel) := by
  induction fuel with
  | zero =>
    intro name s r s' hrun
    cases hrun
  | succ fuel ih =>
    intro name s r s' hrun
    rw [require] at hrun
    split at hrun
    case h_1 =>
      obtain ⟨-, rfl⟩ := Prod.mk.inj (Option.some_inj.mp hrun)
      exact List.prefix_rfl
    case h_2 =>
      split at hrun
      · obtain ⟨-, rfl⟩ := Prod.mk.inj (Option.some_inj.mp hrun)
        exact List.prefix_rfl
      split at hrun
      case h_1 =>
        obtain ⟨-, rfl⟩ := Prod.mk.inj (Option.some_inj.mp hrun)
        exact List.prefix_rfl
      case h_2 c _ =>
        obtain ⟨r₁, s₁, hchunk, hran⟩ := ran_of_load hrun
        have hmarked := ih.runChunk c hchunk
        rw [hran]
        exact hmarked

/-! ### The sealed file and the sources -/

/-- A module that is not loaded. -/
structure Absent (s : State H O) (name : Name) : Prop where
  loaded : ∃ v, s.loaded name = .value v ∧ v.truthy = false
  preload : s.preload name = none

/-- A sealed file that holds the module that is required raises an error, and no body is run. -/
lemma require_sealed (h : Absent s entry) (hlua : env.lua entry = none) {w : Wrapper H O}
    (hvlbc : env.vlbc entry = some w) (hentry : w.entry = entry) (fuel : Nat) :
    ∃ s', require env (fuel + 2) entry s = some (.error (.loop entry), s') ∧ s'.ran = s.ran := by
  obtain ⟨v, hv, hfalse⟩ := h.loaded
  have hfind : s.find env entry = some (.wrapper w) := by
    rw [State.find, h.preload, hlua, hvlbc]
    rfl
  have hmarked : ((s.setLoaded entry .sentinel).setPreload w.mods).loaded entry = .sentinel :=
    Function.update_self entry _ s.loaded
  refine ⟨(s.setLoaded entry .sentinel).setPreload w.mods, ?_, rfl⟩
  rw [require, hv]
  dsimp only
  rw [if_neg (by rw [hfalse]; exact Bool.false_ne_true), hfind]
  dsimp only [load, runChunk]
  rw [hentry, require, hmarked]

lemma require_source (h : Absent s entry) {b : Body H O} (hlua : env.lua entry = some b)
    (hrun : require env fuel entry s = some (r, s')) : s.ran ++ [entry] <+: s'.ran := by
  obtain ⟨v, hv, hfalse⟩ := h.loaded
  have hfind : s.find env entry = some (.body b) := by
    rw [State.find, h.preload, hlua]
    rfl
  cases fuel with
  | zero => cases hrun
  | succ fuel =>
    rw [require, hv] at hrun
    dsimp only at hrun
    rw [if_neg (by rw [hfalse]; exact Bool.false_ne_true), hfind] at hrun
    obtain ⟨r₁, s₁, hchunk, hran⟩ := ran_of_load hrun
    rw [hran]
    exact (extends_require env fuel).runBody b hchunk

/-! ### What is packed -/

/-- What is collected is what was found. -/
def Found (tree : Tree H O) (σ : Collected H O) : Prop :=
  ∀ p ∈ σ.srcs, tree.path p.1 = some (some p.2)

lemma Found.collect {tree : Tree H O} {skip : Name → Bool} {σ σ' : Collected H O}
    (hσ : Found tree σ) (hrun : collect tree skip fuel name σ = .ok σ') : Found tree σ' := by
  induction fuel generalizing name σ σ' with
  | zero => cases hrun
  | succ fuel ih =>
    have hdeps : ∀ (deps : List Name) (σ σ' : Collected H O), Found tree σ →
        deps.foldlM (fun σ dep => Bundle.collect tree skip fuel dep σ) σ = .ok σ' →
        Found tree σ' := by
      intro deps
      induction deps with
      | nil =>
        intro σ σ' hσ hfold
        obtain rfl := Except.ok.inj hfold
        exact hσ
      | cons dep deps ihdeps =>
        intro σ σ' hσ hfold
        rw [List.foldlM_cons] at hfold
        cases hone : Bundle.collect tree skip fuel dep σ with
        | error e =>
          rw [hone] at hfold
          cases hfold
        | ok σ₁ =>
          rw [hone] at hfold
          exact ihdeps σ₁ σ' (ih hσ hone) hfold
    rw [Bundle.collect] at hrun
    split at hrun
    · obtain rfl := Except.ok.inj hrun
      exact hσ
    split at hrun
    case h_1 =>
      split at hrun
      · obtain rfl := Except.ok.inj hrun
        exact hσ
      · cases hrun
    case h_2 =>
      obtain rfl := Except.ok.inj hrun
      exact hσ
    case h_3 src hsrc =>
      cases hfold : src.requires.foldlM (fun σ dep => Bundle.collect tree skip fuel dep σ)
          { σ with visiting := name :: σ.visiting } with
      | error e =>
        rw [hfold] at hrun
        cases hrun
      | ok σ₁ =>
        rw [hfold] at hrun
        obtain rfl := Except.ok.inj hrun
        have hfound := hdeps src.requires { σ with visiting := name :: σ.visiting } σ₁ hσ hfold
        intro p hp
        rcases List.mem_append.mp hp with hp | hp
        · exact hfound p hp
        · rw [List.mem_singleton.mp hp]
          exact hsrc

lemma bundleToBc_eq_ok {tree : Tree H O} {skip : List (Name × Bool)} {w : Wrapper H O}
    (hpack : bundleToBc tree skip fuel entry = .ok w) :
    w.entry = entry ∧ ∃ src, tree.path entry = some (some src) := by
  rw [bundleToBc] at hpack
  split at hpack
  case isTrue => cases hpack
  case isFalse =>
    cases hcollect : collect tree (skipTable skip) fuel entry ⟨[], []⟩ with
    | error e =>
      rw [hcollect] at hpack
      cases hpack
    | ok σ =>
      rw [hcollect] at hpack
      dsimp only [bind, Except.bind] at hpack
      split at hpack
      case isTrue => cases hpack
      case isFalse hsome =>
        obtain rfl := Except.ok.inj hpack
        rw [Option.isNone_iff_eq_none] at hsome
        obtain ⟨src, hsrc⟩ := Option.ne_none_iff_exists'.mp hsome
        obtain ⟨l₁, l₂, hsplit, -⟩ := List.lookup_eq_some_iff.mp hsrc
        have hnil : Found tree ⟨[], []⟩ := fun p hp => absurd hp List.not_mem_nil
        have hmem : (entry, src) ∈ σ.srcs := by
          rw [hsplit]
          exact List.mem_append_right l₁ List.mem_cons_self
        exact ⟨rfl, src, hnil.collect hcollect (entry, src) hmem⟩

/-- What a call of `require` does through the first loaders it does through the second ones: the
same bodies run in the same order, none of them twice, and the value is the same. An error is only
raised where the other call raises one. -/
def Mirrors (env env' : Loaders H O) (s : State H O) (name : Name) : Prop :=
  ∀ fuel r s', require env fuel name s = some (r, s') →
    ∃ fuel' r' s'', require env' fuel' name s = some (r', s'') ∧ s'.ran = s''.ran ∧
      (s'.ran.drop s.ran.length).Nodup ∧
      match r with
      | .ok v => r' = .ok v
      | .error _ => ∃ e, r' = .error e

/-- Wherever a module is found in the file that was packed for it, the call does not do what it does
with the sources: it raises the error for a loop and runs nothing. -/
theorem sealed_not_mirrors {tree : Tree H O} {skip : List (Name × Bool)} {w : Wrapper H O}
    (hpack : bundleToBc tree skip fuel entry = .ok w) (env : Loaders H O) (s : State H O)
    (h : Absent s entry) (hlua : env.lua entry = none) (hvlbc : env.vlbc entry = some w) :
    ¬Mirrors env (env.fromSources tree) s entry ∧
      ∀ n, ∃ s', require env (n + 2) entry s = some (.error (.loop entry), s') ∧
        s'.ran = s.ran := by
  obtain ⟨hentry, src, hsrc⟩ := bundleToBc_eq_ok hpack
  have hraise := require_sealed h hlua hvlbc hentry
  refine ⟨fun hmirrors => ?_, hraise⟩
  obtain ⟨s', hrun, hran⟩ := hraise 0
  obtain ⟨fuel', r', s'', hrun', hsame, -⟩ := hmirrors 2 _ s' hrun
  have hlua' : (env.fromSources tree).lua entry = some src.body := by
    rw [Loaders.fromSources]
    dsimp only
    rw [hsrc]
    rfl
  have hprefix := require_source h hlua' hrun'
  rw [← hsame, hran] at hprefix
  have hlen := hprefix.length_le
  rw [List.length_append, List.length_singleton] at hlen
  exact absurd hlen (Nat.not_succ_le_self _)

/-! ### One module -/

def vipTree : Tree Unit Name where
  path name :=
    if name = "vip_mod".toList then some (some ⟨[], .done (.obj "from-lua".toList)⟩) else none
  cpath _ := false

def vipWrapper : Wrapper Unit Name where
  mods := [("vip_mod".toList, .done (.obj "from-lua".toList))]
  entry := "vip_mod".toList

def vipLoaders : Loaders Unit Name where
  lua _ := none
  vlbc name := if name = "vip_mod".toList then some vipWrapper else none
  native _ := none

def freshState : State Unit Name where
  loaded _ := .value .nil
  preload _ := none
  heap := ()
  ran := []

/-- The module of the test is packed, and it is required where only the sealed file is. -/
theorem sealed_not_mirrors_vip :
    ¬Mirrors vipLoaders (vipLoaders.fromSources vipTree) freshState "vip_mod".toList := by
  have hpack : bundleToBc vipTree [] 1 "vip_mod".toList = .ok vipWrapper := rfl
  have habsent : Absent freshState "vip_mod".toList := ⟨⟨.nil, rfl, rfl⟩, rfl⟩
  exact (sealed_not_mirrors hpack vipLoaders freshState habsent rfl rfl).1

/-- With the source the module has a value, with the sealed file an error is raised. -/
theorem not_mirrors_vip :
    bundleToBc vipTree [] 1 "vip_mod".toList = .ok vipWrapper ∧
      (∃ s', require (vipLoaders.fromSources vipTree) 1 "vip_mod".toList freshState =
        some (.ok (.obj "from-lua".toList), s') ∧ s'.ran = ["vip_mod".toList]) ∧
      ∃ s', require vipLoaders 2 "vip_mod".toList freshState =
        some (.error (.loop "vip_mod".toList), s') ∧ s'.ran = [] :=
  ⟨rfl, ⟨_, rfl, rfl⟩, ⟨_, rfl, rfl⟩⟩

end Verilua.Bundle
