import Verilua.Bundle.Gathered

/-!
# Bundles of module graphs

The modules are texts. LuaJIT requires what is called in their tokens, and `collect` follows what
`scan_requires` finds in them.
-/

namespace Verilua.Bundle

variable {H O : Type}

/-- The files of modules, what is left out, and the module to bundle. What a text does when it is
run is given. -/
structure ModuleFiles (H O : Type) where
  path : Name → Option (Option Text)
  cpath : Name → Bool
  skip : Name → Bool
  root : Name
  compile : Text → Body H O

namespace ModuleFiles

variable (g : ModuleFiles H O)

def source (src : Text) : Source H O := ⟨scanRequires src, g.compile src⟩

def tree : Tree H O := ⟨fun name => (g.path name).map fun file => file.map g.source, g.cpath⟩

/-- What is required on the way from the root through modules that are not left out. -/
inductive Asked : Name → Prop
  | root : Asked g.root
  | require {name dep : Name} {src : Text} (h : Asked name)
      (hskip : shouldSkip name g.skip = false) (hsrc : g.path name = some (some src))
      (hdep : dep ∈ luaRequires src) : Asked dep

/-- What is reached and not left out. -/
def Reached (name : Name) : Prop := Wanted g.skip g.Asked name

end ModuleFiles

/-- There are finitely many Lua modules, and what is required is found. -/
structure ModuleGraph (H O : Type) extends ModuleFiles H O where
  mods : List Name
  finite : ∀ name src, path name = some (some src) → name ∈ mods
  found : ∀ name, toModuleFiles.Asked name →
    shouldSkip name skip = true ∨ path name ≠ none ∨ cpath name = true

/-- The Lua modules that are reached are gathered, each of them once, and every literal call of
`require` is found in the texts. -/
structure Bundles (g : ModuleGraph H O) : Prop where
  collects : ∃ σ, (∀ fuel, g.mods.length < fuel →
      collect g.tree g.skip fuel g.root ⟨[], []⟩ = .ok σ) ∧
    σ.names.Nodup ∧ ∀ name, name ∈ σ.names ↔ g.Reached name ∧ ∃ src, g.path name = some (some src)
  scans : ∀ name src, g.path name = some (some src) → luaRequires src ⊆ scanRequires src

variable {g : ModuleFiles H O} {σ : Collected H O} {name : Name} {s : Source H O}

lemma tree_path_eq : g.tree.path name = some (some s) ↔
    ∃ src, g.path name = some (some src) ∧ g.source src = s := by
  simp [ModuleFiles.tree]

lemma settled_of_asked (hscan : ∀ name src, g.path name = some (some src) → Scannable src)
    (hsound : Sound g.tree (Wanted g.skip g.Asked) σ)
    (hgathers : Gathers g.tree g.skip ⟨[], []⟩ σ) (hroot : Settled g.tree g.skip σ g.root)
    (hname : g.Asked name) : Settled g.tree g.skip σ name := by
  induction hname with
  | root => exact hroot
  | @require name dep src _ hskip hsrc hdep ih =>
    have hpath : g.tree.path name = some (some (g.source src)) := tree_path_eq.mpr ⟨src, hsrc, rfl⟩
    have hnames : name ∈ σ.names := by
      rcases ih with hnames | hvisiting | hskip' | hother
      · exact hnames
      · rw [hgathers.visiting] at hvisiting
        exact absurd hvisiting List.not_mem_nil
      · rw [hskip] at hskip'
        cases hskip'
      · exact absurd hpath (hother _)
    obtain ⟨⟨n, s⟩, hmem, rfl⟩ := List.mem_map.mp hnames
    obtain rfl : g.source src = s := by
      simpa [hpath] using (hsound.lua n s hmem).2
    refine ((hgathers.new _ hmem).resolve_left List.not_mem_nil) dep ?_
    exact (mem_scanRequires (hscan n src hsrc)).mpr hdep

/-- A module `m` with the text `src`, and an empty module `x`. -/
def twoFiles (src : Text) : ModuleFiles Unit Unit where
  path name :=
    if name = ['m'] then some (some src) else if name = ['x'] then some (some []) else none
  cpath _ := false
  skip _ := false
  root := ['m']
  compile _ := .done .nil

lemma twoFiles_path {src src' : Text} {name : Name}
    (h : (twoFiles src).path name = some (some src')) :
    name = ['m'] ∧ src' = src ∨ name = ['x'] ∧ src' = [] := by
  simp only [twoFiles] at h
  split_ifs at h with hm hx
  · exact .inl ⟨hm, by simpa using h.symm⟩
  · exact .inr ⟨hx, by simpa using h.symm⟩

lemma twoFiles_asked {src : Text} (h : ∀ dep ∈ luaRequires src, dep = ['x']) {name : Name}
    (hname : (twoFiles src).Asked name) : name = ['m'] ∨ name = ['x'] := by
  induction hname with
  | root => exact .inl rfl
  | @require name dep src' _ _ hsrc hdep _ =>
    rcases twoFiles_path hsrc with ⟨-, rfl⟩ | ⟨-, rfl⟩
    · exact .inr (h dep hdep)
    · exact absurd hdep List.not_mem_nil

def twoModules (src : Text) (h : ∀ dep ∈ luaRequires src, dep = ['x']) : ModuleGraph Unit Unit where
  toModuleFiles := twoFiles src
  mods := [['m'], ['x']]
  finite name src' hsrc := by
    rcases twoFiles_path hsrc with ⟨rfl, -⟩ | ⟨rfl, -⟩ <;> decide
  found name hname := by
    refine .inr (.inl ?_)
    rcases twoFiles_asked h hname with rfl | rfl <;> exact Option.some_ne_none _

/-- A call of `require`, and nothing else. -/
def callText : Text := "require\"x\"".toList

lemma scannable_nil : Scannable [] :=
  ⟨fun _ h => absurd h List.not_mem_nil,
    fun _ _ h => absurd (List.suffix_nil.mp h) (List.cons_ne_nil _ _)⟩

lemma scannable_callText : Scannable callText := by
  refine ⟨by decide, fun t ts h => ?_⟩
  have htokens : tokens callText = [requireWord, ['\x22', 'x', '\x22']] := by decide
  rw [htokens, List.suffix_cons_iff, List.suffix_cons_iff, List.suffix_nil] at h
  rcases h with h | h | h
  · obtain ⟨rfl, rfl⟩ := List.cons.inj h
    refine ⟨fun hne => absurd rfl hne, fun u v _ hv huv _ hprefix => ?_,
      fun _ q s ts' hts _ => ?_, fun _ q s ts' hts _ => ?_⟩
    · -- no letter of the word is a quote
      obtain ⟨c, v, rfl⟩ := List.exists_cons_of_ne_nil hv
      obtain ⟨rest, hrest⟩ := hprefix
      obtain ⟨rfl, -⟩ := List.cons.inj hrest
      have hmem : '\x22' ∈ requireWord := huv ▸ List.mem_append_right u List.mem_cons_self
      exact absurd hmem (by decide)
    · obtain ⟨hqs, -⟩ := List.cons.inj hts
      obtain ⟨rfl, rfl⟩ := List.cons.inj hqs
      exact ⟨['x'], by decide, List.forall_mem_singleton.mpr (by decide), rfl⟩
    · obtain ⟨hopen, -⟩ := List.cons.inj hts
      exact absurd hopen (by decide)
  · obtain ⟨rfl, rfl⟩ := List.cons.inj h
    have hne : ['\x22', 'x', '\x22'] ≠ requireWord := by decide
    refine ⟨fun _ u hu => ?_, fun u v _ hv _ _ hprefix => ?_, fun heq => absurd heq hne,
      fun heq => absurd heq hne⟩
    · have hlen := hu.length_le
      rw [List.length_append, length_requireWord] at hlen
      have hthree : ['\x22', 'x', '\x22'].length = 3 := rfl
      omega
    · exact absurd (List.prefix_nil.mp hprefix) hv
  · exact absurd h (List.cons_ne_nil t ts)

end Verilua.Bundle
