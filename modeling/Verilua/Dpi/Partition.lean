import Mathlib.Data.List.Perm.Basic
import Verilua.Dpi.Groups

/-!
# When the groups are a partition

A path that has been selected is in one group, with the writability that the patterns give it. What
can go wrong is the vector of the sensitive signals: it keeps a signal that has moved to the group
of a later pattern. The groups are a partition exactly when no pattern makes a signal writable that
triggers the group of an earlier one.
-/

namespace Verilua.DpiExporter

/-! ### Groups -/

section Groups

variable (R : Regex) (D : Design)

/-- The pattern selects the path. -/
def Matches (p : ConciseSignalPattern) (x : List Char) : Prop :=
  ∃ v ∈ D.visits R p, v.path = x

/-- The pattern selects the path as a writable one. -/
def Writes (p : ConciseSignalPattern) (x : List Char) : Prop :=
  ∃ v ∈ D.visits R p, v.path = x ∧ v.writes R p = true

/-- The pattern selects the path as a sensitive one. -/
def Triggers (p : ConciseSignalPattern) (x : List Char) : Prop :=
  ∃ v ∈ D.visits R p, v.path = x ∧ v.triggers R p = true

/-- No pattern makes a path writable that triggers the group of an earlier pattern. -/
def Undisturbed (patterns : List ConciseSignalPattern) : Prop :=
  ∀ before p after, patterns = before ++ p :: after →
    ∀ x, (∀ q ∈ before, ¬ Matches R D q x) → Triggers R D p x → ∀ q ∈ after, ¬ Writes R D q x

/-- The entries of all groups. -/
def entries (groups : List SignalGroup) : List SignalInfo :=
  groups.flatMap SignalGroup.signalInfoVec

/-- The sensitive signals of a group are signals of the group. -/
def SignalGroup.Listed (sg : SignalGroup) : Prop :=
  ∀ s ∈ sg.sensitiveSignalInfoVec,
    ∃ t ∈ sg.signalInfoVec, t.hierPath = s.hierPath ∧ t.isWritable = s.isWritable

structure Partition (patterns : List ConciseSignalPattern) (groups : List SignalGroup) : Prop where
  once : ((entries groups).map SignalInfo.hierPath).Nodup
  exported : ∀ x, x ∈ (entries groups).map SignalInfo.hierPath ↔ ∃ p ∈ patterns, Matches R D p x
  writable : ∀ s ∈ entries groups, s.isWritable = true ↔ ∃ p ∈ patterns, Writes R D p s.hierPath
  listed : ∀ sg ∈ groups, sg.Listed
  handleIds : ((entries groups).map SignalInfo.handleId).Nodup

end Groups

variable {R : Regex} {D : Design} {past : List ConciseSignalPattern} {q : ConciseSignalPattern}

/-! ### The history of the patterns -/

/-- The path triggers the group of the first pattern that selects it. -/
def FirstTriggers (R : Regex) (D : Design) (patterns : List ConciseSignalPattern)
    (x : List Char) : Prop :=
  ∃ before p after, patterns = before ++ p :: after ∧
    (∀ q ∈ before, ¬ Matches R D q x) ∧ Triggers R D p x

theorem Triggers.matches {x : List Char} (h : Triggers R D q x) : Matches R D q x :=
  h.imp fun _ hv => ⟨hv.1, hv.2.1⟩

theorem FirstTriggers.matches {x : List Char} (h : FirstTriggers R D past x) :
    ∃ p ∈ past, Matches R D p x := by
  obtain ⟨before, p, after, rfl, -, hp⟩ := h
  exact ⟨p, List.mem_append_right _ List.mem_cons_self, hp.matches⟩

theorem append_cons_eq_snoc {α : Type} {past before after : List α} {p q : α} :
    past ++ [q] = before ++ p :: after ↔
      (after = [] ∧ before = past ∧ p = q) ∨
        ∃ mid, after = mid ++ [q] ∧ past = before ++ p :: mid := by
  constructor
  · intro h
    rcases List.eq_nil_or_concat after with rfl | ⟨mid, r, hafter⟩
    · obtain ⟨hpast, hq⟩ := List.append_inj' h rfl
      exact .inl ⟨rfl, hpast.symm, (List.singleton_inj.mp hq).symm⟩
    · rw [List.concat_eq_append] at hafter
      subst hafter
      have h' : past ++ [q] = (before ++ p :: mid) ++ [r] := by
        rw [h, List.append_assoc, List.cons_append]
      obtain ⟨hpast, hr⟩ := List.append_inj' h' rfl
      exact .inr ⟨mid, by rw [List.singleton_inj.mp hr], hpast⟩
  · rintro (⟨rfl, rfl, rfl⟩ | ⟨mid, rfl, rfl⟩)
    · rfl
    · rw [List.append_assoc, List.cons_append]

theorem firstTriggers_snoc {x : List Char} :
    FirstTriggers R D (past ++ [q]) x ↔
      FirstTriggers R D past x ∨ (∀ p ∈ past, ¬ Matches R D p x) ∧ Triggers R D q x := by
  constructor
  · rintro ⟨before, p, after, hsplit, hbefore, hp⟩
    rcases append_cons_eq_snoc.mp hsplit with ⟨rfl, rfl, rfl⟩ | ⟨mid, rfl, rfl⟩
    · exact .inr ⟨hbefore, hp⟩
    · exact .inl ⟨before, p, mid, rfl, hbefore, hp⟩
  · rintro (⟨before, p, mid, rfl, hbefore, hp⟩ | ⟨hpast, hq⟩)
    · exact ⟨before, p, mid ++ [q], by rw [List.append_assoc, List.cons_append], hbefore, hp⟩
    · exact ⟨past, q, [], rfl, hpast, hq⟩

theorem undisturbed_snoc :
    Undisturbed R D (past ++ [q]) ↔
      Undisturbed R D past ∧ ∀ x, FirstTriggers R D past x → ¬ Writes R D q x := by
  constructor
  · intro h
    refine ⟨fun before p mid hsplit x hbefore hp r hr => ?_, ?_⟩
    · refine h before p (mid ++ [q]) ?_ x hbefore hp r (List.mem_append_left _ hr)
      rw [hsplit, List.append_assoc, List.cons_append]
    · rintro x ⟨before, p, mid, rfl, hbefore, hp⟩
      refine h before p (mid ++ [q]) ?_ x hbefore hp q
        (List.mem_append_right _ (List.mem_singleton_self q))
      rw [List.append_assoc, List.cons_append]
  · rintro ⟨hpast, hq⟩ before p after hsplit x hbefore hp r hr
    rcases append_cons_eq_snoc.mp hsplit with ⟨rfl, rfl, rfl⟩ | ⟨mid, rfl, rfl⟩
    · exact absurd hr List.not_mem_nil
    · rcases List.mem_append.mp hr with hr | hr
      · exact hpast before p mid rfl x hbefore hp r hr
      · cases List.mem_singleton.mp hr
        exact hq x ⟨before, p, mid, rfl, hbefore, hp⟩

/-! ### Eviction -/

local instance lawfulBEq_text : LawfulBEq (List Char) := inferInstance

/-- The group without the entries of the given paths. -/
def SignalGroup.without (hierPaths : List (List Char)) (sg : SignalGroup) : SignalGroup :=
  { sg with signalInfoVec := sg.signalInfoVec.filter fun s => s.hierPath ∉ hierPaths }

theorem eraseP_eq_filter {x : List Char} {infos : List SignalInfo}
    (h : (infos.map SignalInfo.hierPath).Nodup) :
    (infos.eraseP fun s => s.hierPath = x) = infos.filter fun s => s.hierPath ∉ [x] := by
  induction infos with
  | nil => rfl
  | cons s infos ih =>
    rw [List.map_cons, List.nodup_cons] at h
    by_cases hs : s.hierPath = x
    · have hrest : infos.filter (fun t => t.hierPath ∉ [x]) = infos := by
        refine List.filter_eq_self.mpr fun t ht => decide_eq_true fun hx => h.1 ?_
        rw [hs, ← List.mem_singleton.mp hx]
        exact List.mem_map_of_mem ht
      rw [List.eraseP_cons_of_pos (by simp [hs]), List.filter_cons_of_neg (by simp [hs]), hrest]
    · simp [hs, ih h.2]

theorem evict_all {hierPaths : List (List Char)} {groups : List SignalGroup}
    (h : ∀ sg ∈ groups, (sg.signalInfoVec.map SignalInfo.hierPath).Nodup) :
    hierPaths.foldl (fun sgs hierPath => sgs.map fun sg => sg.evict hierPath) groups =
      groups.map (SignalGroup.without hierPaths) := by
  induction hierPaths generalizing groups with
  | nil =>
    refine (List.map_id'' (fun sg => ?_) groups).symm
    simp [SignalGroup.without]
  | cons x hierPaths ih =>
    have hevict : groups.map (fun sg => sg.evict x) = groups.map (SignalGroup.without [x]) :=
      List.map_congr_left fun sg hsg => by
        rw [SignalGroup.evict, eraseP_eq_filter (h sg hsg), SignalGroup.without]
    rw [List.foldl_cons, hevict, ih]
    · rw [List.map_map]
      refine List.map_congr_left fun sg _ => ?_
      simp only [Function.comp_apply, SignalGroup.without, List.filter_filter]
      congr 1
      exact List.filter_congr fun s _ => by simp [Bool.and_comm]
    · intro sg hsg
      obtain ⟨sg, hmem, rfl⟩ := List.mem_map.mp hsg
      exact (List.filter_sublist.map _).nodup (h sg hmem)

theorem entries_without {hierPaths : List (List Char)} {groups : List SignalGroup} :
    entries (groups.map (SignalGroup.without hierPaths)) =
      (entries groups).filter fun s => s.hierPath ∉ hierPaths := by
  rw [entries, entries, List.flatMap_map, List.filter_flatMap]
  rfl

theorem listed_without {hierPaths : List (List Char)} {sg : SignalGroup} :
    (sg.without hierPaths).Listed ↔
      sg.Listed ∧ ∀ s ∈ sg.sensitiveSignalInfoVec, s.hierPath ∉ hierPaths := by
  constructor
  · intro h
    refine ⟨fun s hs => ?_, fun s hs => ?_⟩ <;> obtain ⟨t, ht, hpath, hw⟩ := h s hs
    · exact ⟨t, List.mem_of_mem_filter ht, hpath, hw⟩
    · exact hpath ▸ of_decide_eq_true (List.mem_filter.mp ht).2
  · rintro ⟨h, hkept⟩ s hs
    obtain ⟨t, ht, hpath, hw⟩ := h s hs
    refine ⟨t, List.mem_filter.mpr ⟨ht, decide_eq_true ?_⟩, hpath, hw⟩
    exact hpath ▸ hkept s hs

/-! ### One pattern -/

/-- What holds of the groups of the patterns `past`. -/
structure Placed (R : Regex) (D : Design) (past : List ConciseSignalPattern) (c : Collected) :
    Prop where
  seen : ∀ x, x ∈ c.signalSet ↔ ∃ p ∈ past, Matches R D p x
  once : ((entries c.signalGroupVec).map SignalInfo.hierPath).Nodup
  exported : ∀ x, x ∈ (entries c.signalGroupVec).map SignalInfo.hierPath ↔
    ∃ p ∈ past, Matches R D p x
  writable : ∀ s ∈ entries c.signalGroupVec,
    s.isWritable = true ↔ ∃ p ∈ past, Writes R D p s.hierPath
  handleIds : ((entries c.signalGroupVec).map SignalInfo.handleId).Nodup
  handleId_lt : ∀ s ∈ entries c.signalGroupVec, s.handleId < c.handleId
  sensitive : ∀ x,
    (∃ sg ∈ c.signalGroupVec, x ∈ sg.sensitiveSignalInfoVec.map SignalInfo.hierPath) ↔
      FirstTriggers R D past x
  listed : (∀ sg ∈ c.signalGroupVec, sg.Listed) ↔ Undisturbed R D past

theorem Collected.add_ok {unset : Bool} {c c' : Collected} (h : c.add R D unset q = .ok c') :
    ∃ g, Visited R q c.signalSet c.handleId (D.visits R q) g ∧
      c' = ⟨g.shouldRemoveHierPaths.foldl
        (fun sgs hierPath => sgs.map fun sg => sg.evict hierPath) c.signalGroupVec ++
          [g.signalGroup], g.signalSet, g.handleId⟩ := by
  simp only [Collected.add] at h
  cases hg : D.modules.foldlM (fun g m => SignalInfoGetter.handle R q
      (decide (q.moduleName = D.topModuleName)) m g) (c.getter q unset) with
  | error e => rw [hg] at h; exact absurd h nofun
  | ok g =>
    rw [hg] at h
    have hrun := (Visited.nil c unset).run D.visits_paths_nodup (handle_modules hg)
    refine ⟨g, hrun, ?_⟩
    change (if _ then _ else if _ then _ else _) = _ at h
    split at h
    · exact absurd h nofun
    · split at h
      · exact absurd h nofun
      · exact (Except.ok.inj h).symm

theorem Placed.nil : Placed R D [] ⟨[], [], 0⟩ where
  seen := by simp
  once := List.nodup_nil
  exported := by simp [entries]
  writable := by simp [entries]
  handleIds := List.nodup_nil
  handleId_lt := by simp [entries]
  sensitive := by simp [FirstTriggers]
  listed := by simp [Undisturbed]

theorem Writes.matches {x : List Char} (h : Writes R D q x) : Matches R D q x :=
  h.imp fun _ hv => ⟨hv.1, hv.2.1⟩

section Step

variable {c : Collected} {g : SignalInfoGetter} (hc : Placed R D past c)
  (hg : Visited R q c.signalSet c.handleId (D.visits R q) g)
include hc hg

theorem Placed.mem_removed {x : List Char} :
    x ∈ g.shouldRemoveHierPaths ↔ (∃ p ∈ past, Matches R D p x) ∧ Writes R D q x := by
  rw [hg.removed, ← hc.seen]
  constructor
  · rintro ⟨v, hv, hpath, hseen, hw⟩
    exact ⟨hseen, v, hv, hpath, hw⟩
  · rintro ⟨hseen, v, hv, hpath, hw⟩
    exact ⟨v, hv, hpath, hseen, hw⟩

theorem Placed.mem_listed {x : List Char} :
    x ∈ g.signalGroup.signalInfoVec.map SignalInfo.hierPath ↔
      Matches R D q x ∧ (¬ (∃ p ∈ past, Matches R D p x) ∨ Writes R D q x) := by
  rw [hg.listed, ← hc.seen]
  constructor
  · rintro ⟨v, hv, hpath, hnew | hw⟩
    · exact ⟨⟨v, hv, hpath⟩, .inl hnew⟩
    · exact ⟨⟨v, hv, hpath⟩, .inr ⟨v, hv, hpath, hw⟩⟩
  · rintro ⟨⟨v, hv, hpath⟩, hnew | ⟨w, hw, hpath', hwrites⟩⟩
    · exact ⟨v, hv, hpath, .inl hnew⟩
    · exact ⟨w, hw, hpath', .inr hwrites⟩

theorem Placed.mem_triggers {x : List Char} :
    x ∈ g.signalGroup.sensitiveSignalInfoVec.map SignalInfo.hierPath ↔
      (∀ p ∈ past, ¬ Matches R D p x) ∧ Triggers R D q x := by
  rw [hg.triggers, hc.seen]
  constructor
  · rintro ⟨v, hv, hpath, hnew, ht⟩
    exact ⟨fun p hp hm => hnew ⟨p, hp, hm⟩, v, hv, hpath, ht⟩
  · rintro ⟨hnew, v, hv, hpath, ht⟩
    exact ⟨v, hv, hpath, fun ⟨p, hp, hm⟩ => hnew p hp hm, ht⟩

omit hc in
theorem Visited.isWritable_iff {s : SignalInfo} (hs : s ∈ g.signalGroup.signalInfoVec) :
    s.isWritable = true ↔ Writes R D q s.hierPath := by
  obtain ⟨v, hv, hpath, hw⟩ := hg.entry s hs
  rw [hw]
  constructor
  · exact fun h => ⟨v, hv, hpath, h⟩
  · rintro ⟨w, hmem, hpath', h⟩
    rwa [List.inj_on_of_nodup_map D.visits_paths_nodup hv hmem (hpath.trans hpath'.symm)]

theorem Placed.mem_kept {s : SignalInfo} (hs : s ∈ entries c.signalGroupVec) :
    s.hierPath ∉ g.shouldRemoveHierPaths ↔ ¬ Writes R D q s.hierPath := by
  rw [hc.mem_removed hg, and_iff_right ((hc.exported _).mp (List.mem_map_of_mem hs))]

end Step

theorem Placed.step {unset : Bool} {c c' : Collected} (hc : Placed R D past c)
    (h : c.add R D unset q = .ok c') : Placed R D (past ++ [q]) c' := by
  obtain ⟨g, hg, rfl⟩ := Collected.add_ok h
  have hgroup : ∀ sg ∈ c.signalGroupVec, (sg.signalInfoVec.map SignalInfo.hierPath).Nodup :=
    fun sg hsg => (List.nodup_flatMap.mp (List.map_flatMap ▸ hc.once)).1 sg hsg
  rw [evict_all hgroup]
  have hentries : entries (c.signalGroupVec.map (SignalGroup.without g.shouldRemoveHierPaths) ++
      [g.signalGroup]) = (entries c.signalGroupVec).filter
        (fun s => s.hierPath ∉ g.shouldRemoveHierPaths) ++ g.signalGroup.signalInfoVec := by
    rw [← entries_without, entries, List.flatMap_append, List.flatMap_singleton]
    rfl
  constructor
  case seen =>
    intro x
    rw [hg.set, hc.seen]
    exact exists_mem_snoc.symm
  case once =>
    rw [hentries, List.map_append, List.nodup_append]
    refine ⟨(List.filter_sublist.map _).nodup hc.once, hg.nodup, ?_⟩
    rintro x hx y hy rfl
    obtain ⟨s, hs, rfl⟩ := List.mem_map.mp hx
    obtain ⟨hs, hkept⟩ := List.mem_filter.mp hs
    have hpast := (hc.exported _).mp (List.mem_map_of_mem hs)
    have hw := ((hc.mem_listed hg).mp hy).2.resolve_left (not_not_intro hpast)
    exact (hc.mem_kept hg hs).mp (of_decide_eq_true hkept) hw
  case exported =>
    intro x
    rw [hentries, List.map_append, List.mem_append, hc.mem_listed hg, exists_mem_snoc]
    constructor
    · rintro (hx | ⟨hq, _⟩)
      · exact .inl ((hc.exported x).mp ((List.filter_sublist.map _).subset hx))
      · exact .inr hq
    · intro hx
      by_cases hw : Writes R D q x
      · exact .inr ⟨hw.matches, .inr hw⟩
      · rcases Classical.em (∃ p ∈ past, Matches R D p x) with hpast | hnew
        · obtain ⟨s, hs, rfl⟩ := List.mem_map.mp ((hc.exported x).mpr hpast)
          have hkept := decide_eq_true ((hc.mem_kept hg hs).mpr hw)
          exact .inl (List.mem_map_of_mem (List.mem_filter.mpr ⟨hs, hkept⟩))
        · exact .inr ⟨hx.resolve_left hnew, .inl hnew⟩
  case writable =>
    intro s hs
    rw [hentries, List.mem_append] at hs
    rw [exists_mem_snoc]
    rcases hs with hs | hs
    · obtain ⟨hs, hkept⟩ := List.mem_filter.mp hs
      rw [hc.writable s hs, or_iff_left ((hc.mem_kept hg hs).mp (of_decide_eq_true hkept))]
    · rw [hg.isWritable_iff hs]
      refine (or_iff_right_of_imp ?_).symm
      -- an earlier pattern makes it writable: then it is listed only if this one does so too
      rintro ⟨p, hp, hw⟩
      exact ((hc.mem_listed hg).mp (List.mem_map_of_mem hs)).2.resolve_left
        (not_not_intro ⟨p, hp, hw.matches⟩)
  case handleIds =>
    rw [hentries, List.map_append, List.nodup_append]
    refine ⟨(List.filter_sublist.map _).nodup hc.handleIds, hg.ids, ?_⟩
    rintro x hx y hy rfl
    obtain ⟨s, hs, rfl⟩ := List.mem_map.mp hx
    obtain ⟨t, ht, heq⟩ := List.mem_map.mp hy
    have hs' := hc.handleId_lt s (List.mem_filter.mp hs).1
    have ht' := (hg.id_range t ht).1
    omega
  case handleId_lt =>
    intro s hs
    rw [hentries, List.mem_append] at hs
    rcases hs with hs | hs
    · exact Nat.lt_of_lt_of_le (hc.handleId_lt s (List.mem_filter.mp hs).1) hg.start_le
    · exact (hg.id_range s hs).2
  case sensitive =>
    intro x
    rw [firstTriggers_snoc, ← hc.sensitive, ← hc.mem_triggers hg, exists_mem_snoc]
    refine or_congr_left ?_
    constructor
    · rintro ⟨_, hsg, hx⟩
      obtain ⟨sg, hmem, rfl⟩ := List.mem_map.mp hsg
      exact ⟨sg, hmem, hx⟩
    · rintro ⟨sg, hsg, hx⟩
      exact ⟨_, List.mem_map_of_mem hsg, hx⟩
  case listed =>
    rw [undisturbed_snoc, ← hc.listed]
    have hlast : g.signalGroup.Listed := fun s hs => ⟨s, hg.sensitive s hs, rfl, rfl⟩
    have hmoved : ∀ x, FirstTriggers R D past x →
        (x ∉ g.shouldRemoveHierPaths ↔ ¬ Writes R D q x) := fun x hx => by
      rw [hc.mem_removed hg, and_iff_right hx.matches]
    constructor
    · intro h
      have hkept : ∀ sg ∈ c.signalGroupVec,
          sg.Listed ∧ ∀ s ∈ sg.sensitiveSignalInfoVec, s.hierPath ∉ g.shouldRemoveHierPaths :=
        fun sg hsg => listed_without.mp (h _ (List.mem_append_left _ (List.mem_map_of_mem hsg)))
      refine ⟨fun sg hsg => (hkept sg hsg).1, fun x hx => (hmoved x hx).mp ?_⟩
      obtain ⟨sg, hsg, hmem⟩ := (hc.sensitive x).mpr hx
      obtain ⟨s, hs, rfl⟩ := List.mem_map.mp hmem
      exact (hkept sg hsg).2 s hs
    · rintro ⟨hlisted, hq⟩ sg hsg
      rcases List.mem_append.mp hsg with hsg | hsg
      · obtain ⟨sg, hmem, rfl⟩ := List.mem_map.mp hsg
        refine listed_without.mpr ⟨hlisted sg hmem, fun s hs => ?_⟩
        have hx := (hc.sensitive s.hierPath).mp ⟨sg, hmem, List.mem_map_of_mem hs⟩
        exact (hmoved _ hx).mpr (hq _ hx)
      · cases List.mem_singleton.mp hsg
        exact hlast

theorem collect_placed {patterns : List ConciseSignalPattern} {unset : Nat → Bool}
    {c : Collected} (h : collect R D patterns unset = .ok c) : Placed R D patterns c := by
  have hrun : ∀ (rest past : List ConciseSignalPattern) (c₀ : Collected), Placed R D past c₀ →
      rest.foldlM (fun c q => c.add R D (unset c.signalGroupVec.length) q) c₀ = .ok c →
      Placed R D (past ++ rest) c := by
    intro rest
    induction rest with
    | nil =>
      rintro past c₀ hc₀ hrun
      cases hrun
      rwa [List.append_nil]
    | cons q rest ih =>
      intro past c₀ hc₀ hrun
      rw [List.foldlM_cons] at hrun
      cases hq : c₀.add R D (unset c₀.signalGroupVec.length) q with
      | error e => rw [hq] at hrun; exact absurd hrun nofun
      | ok c₁ =>
        rw [hq] at hrun
        rw [List.append_cons]
        exact ih _ c₁ (hc₀.step hq) hrun
  exact hrun patterns [] _ Placed.nil h

/-! ### The groups of a configuration -/

theorem entries_mergeGroups (groups : List SignalGroup) :
    (entries (mergeGroups groups)).Perm (entries groups) := by
  have hsplit : entries (mergeGroups groups) = entries
      (groups.filter (fun sg => sg.sensitiveSignalInfoVec.isEmpty) ++
        groups.filter fun sg => !sg.sensitiveSignalInfoVec.isEmpty) := by
    simp [entries, mergeGroups]
  rw [hsplit]
  exact (List.filter_append_perm _ _).flatMap_right _

theorem listed_mergeGroups (groups : List SignalGroup) :
    (∀ sg ∈ mergeGroups groups, sg.Listed) ↔ ∀ sg ∈ groups, sg.Listed := by
  constructor
  · intro h sg hsg
    by_cases hempty : sg.sensitiveSignalInfoVec = []
    · intro s hs
      rw [hempty] at hs
      exact absurd hs List.not_mem_nil
    · refine h sg (List.mem_cons_of_mem _ (List.mem_filter.mpr ⟨hsg, ?_⟩))
      simpa using hempty
  · intro h sg hsg
    rcases List.mem_cons.mp hsg with rfl | hsg
    · exact fun s hs => absurd hs List.not_mem_nil
    · exact h sg (List.mem_of_mem_filter hsg)

/-- The groups are a partition exactly when no pattern makes a signal writable that triggers the
group of an earlier one. -/
theorem partition_iff_undisturbed {patterns : List ConciseSignalPattern} {unset : Nat → Bool}
    {groups : List SignalGroup} (h : mergedSignalGroupVec R D patterns unset = .ok groups) :
    Partition R D patterns groups ↔ Undisturbed R D patterns := by
  unfold mergedSignalGroupVec at h
  cases hcollect : collect R D patterns unset with
  | error e => rw [hcollect] at h; exact absurd h nofun
  | ok c =>
    rw [hcollect] at h
    cases h
    have hc := collect_placed hcollect
    have hperm := entries_mergeGroups c.signalGroupVec
    rw [← hc.listed, ← listed_mergeGroups]
    refine ⟨Partition.listed, fun hlisted => ?_⟩
    exact
      { once := (hperm.map _).nodup_iff.mpr hc.once
        exported := fun x => (hperm.map _).mem_iff.trans (hc.exported x)
        writable := fun s hs => hc.writable s (hperm.mem_iff.mp hs)
        listed := hlisted
        handleIds := (hperm.map _).nodup_iff.mpr hc.handleIds }

/-! ### Two patterns on one module -/

/-- Expressions without special characters. -/
def plainRegex : Regex where
  regexMatch pattern signal := pattern = signal
  regexSearch pattern text := text.tails.any pattern.isPrefixOf

/-- `top` with the variables `v` and `w` of one bit. -/
def sampleDesign : Design where
  modules := [⟨['t'], [['t']], ⟨[], [⟨['v'], 1, Nat.one_pos⟩, ⟨['w'], 1, Nat.one_pos⟩]⟩,
    fun _ => ⟨[], []⟩⟩]
  topModuleName := ['t']
  names := List.nodup_singleton _
  unique := by decide
  uniqueAt := by decide

/-- The group of `v`, which it triggers. -/
def watchV : ConciseSignalPattern :=
  { name := ['a'], moduleName := ['t'], signals := ['v'], sensitiveSignals := ['v'] }

def drive (signal : List Char) : ConciseSignalPattern :=
  { name := ['b'], moduleName := ['t'], writableSignals := signal }

theorem partition_drive_w : ∃ groups,
    mergedSignalGroupVec plainRegex sampleDesign [watchV, drive ['w']] (fun _ => false) =
      .ok groups ∧ Partition plainRegex sampleDesign [watchV, drive ['w']] groups := by
  have hfirst : Undisturbed plainRegex sampleDesign ([] ++ [watchV]) := by
    refine undisturbed_snoc.mpr ⟨Placed.nil.listed.mp nofun, fun x hx => ?_⟩
    obtain ⟨p, hp, -⟩ := hx.matches
    exact absurd hp List.not_mem_nil
  have hboth : Undisturbed plainRegex sampleDesign ([watchV] ++ [drive ['w']]) := by
    refine undisturbed_snoc.mpr ⟨hfirst, ?_⟩
    rintro x hx ⟨v, hv, rfl, -⟩
    obtain ⟨p, hp, w, hw, hpath⟩ := hx.matches
    revert hpath
    cases List.mem_singleton.mp hp
    cases List.mem_singleton.mp hv
    cases List.mem_singleton.mp hw
    decide
  obtain ⟨groups, hgroups⟩ : ∃ groups, mergedSignalGroupVec plainRegex sampleDesign
      [watchV, drive ['w']] (fun _ => false) = .ok groups := ⟨_, rfl⟩
  exact ⟨groups, hgroups, (partition_iff_undisturbed hgroups).mpr hboth⟩

/-- `v` moves to the group that makes it writable and still triggers the one that it has left. -/
theorem not_partition : ∃ groups,
    mergedSignalGroupVec plainRegex sampleDesign [watchV, drive ['v']] (fun _ => false) =
      .ok groups ∧ ¬ Partition plainRegex sampleDesign [watchV, drive ['v']] groups := by
  refine ⟨_, rfl, fun h => ?_⟩
  obtain ⟨t, ht, -⟩ := h.listed _ (List.mem_cons_of_mem _ List.mem_cons_self) _ List.mem_cons_self
  exact absurd ht List.not_mem_nil

end Verilua.DpiExporter
