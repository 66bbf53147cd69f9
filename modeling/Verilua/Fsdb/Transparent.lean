import Verilua.Fsdb.Runs

/-!
# The cache files of `fsdb_wave_vpi` are transparent in safe runs

On a waveform without ambiguous names every id code in the caches is the one that the search finds.
The names in a `META_FILE` are sound for the version whose stamp it carries, and the time table file
beside it is from that version.
-/

namespace Verilua.Fsdb

open Codec (Outcome)
open TransitionSystem

variable {wave : WaveFile} {c c' d : Caches} {name : String} {q : Query}
  {cache : AList fun _ : String => IdCode}

/-! ### Id codes -/

/-- The codes are those that the search finds. -/
def Codes (wave : WaveFile) (cache : AList fun _ : String => IdCode) : Prop :=
  ∀ name code, cache.lookup name = some code → find wave name = some code

lemma Codes.empty (wave : WaveFile) : Codes wave ∅ := by
  intro name code h
  simp at h

lemma Codes.insert {code : IdCode} (h : Codes wave cache) (hfind : find wave name = some code) :
    Codes wave (cache.insert name code) := by
  intro other code' hlookup
  by_cases heq : other = name
  · subst heq
    rw [AList.lookup_insert, Option.some.injEq] at hlookup
    rw [hfind, hlookup]
  · rw [AList.lookup_insert_ne heq] at hlookup
    exact h other code' hlookup

lemma treeSearch_sound (l : List TreeVar) (hl : ∀ v ∈ l, find wave v.key = some v.idcode)
    (hfind : find wave name = (l.find? fun v => v.fullName = name).map TreeVar.idcode)
    (h : Codes wave cache) :
    (treeSearch name l cache).1 = find wave name ∧ Codes wave (treeSearch name l cache).2 := by
  induction l generalizing cache with
  | nil => exact ⟨hfind.symm, h⟩
  | cons v rest ih =>
    rw [treeSearch]
    by_cases heq : v.fullName = name
    · rw [List.find?_cons_of_pos (by simpa using heq), Option.map_some] at hfind
      rw [if_pos heq]
      exact ⟨hfind.symm, h.insert hfind⟩
    · rw [List.find?_cons_of_neg (by simpa using heq)] at hfind
      rw [if_neg heq]
      exact ih (fun v hv => hl v (List.mem_cons_of_mem _ hv)) hfind
        (h.insert (hl v List.mem_cons_self))

lemma find_ne_zero (wave : WaveFile) (name : String) : find wave name ≠ some 0 := by
  intro h
  obtain ⟨v, hv, hzero⟩ := Option.map_eq_some_iff.mp h
  exact (wave.idcode_pos _ v (List.mem_of_find?_eq_some hv)).ne' hzero

structure Caches.Sound (wave : WaveFile) (c : Caches) : Prop where
  used : Codes wave c.usedVarIdCodeCache
  passed : Codes wave c.varIdCodeCache

lemma getVarIdCodeByName_sound (hwave : wave.Unambiguous) (hc : c.Sound wave) (name : String) :
    (getVarIdCodeByName wave name c).1 = find wave name ∧
      (getVarIdCodeByName wave name c).2.Sound wave ∧
      (getVarIdCodeByName wave name c).2.xtagU64Vec = c.xtagU64Vec := by
  rw [getVarIdCodeByName]
  split
  case h_1 code hlookup => exact ⟨(hc.used _ _ hlookup).symm, hc, rfl⟩
  case h_2 =>
    split
    case h_1 code hlookup =>
      have hfind := hc.passed _ _ hlookup
      exact ⟨hfind.symm, ⟨hc.used.insert hfind, hc.passed⟩, rfl⟩
    case h_2 =>
      obtain ⟨hret, hcodes⟩ := treeSearch_sound _
        (hwave (desiredDepth name)) rfl hc.passed
      generalize treeSearch name (wave.vars (desiredDepth name)) c.varIdCodeCache = r at hret hcodes
      obtain ⟨ret, cache⟩ := r
      dsimp only at hret hcodes ⊢
      split
      case h_1 => exact ⟨hret, ⟨hc.used, hcodes⟩, rfl⟩
      case h_2 => exact absurd hret.symm (find_ne_zero wave name)
      case h_3 code hne => exact ⟨hret, ⟨hc.used.insert hret.symm, hcodes⟩, rfl⟩

/-! ### Queries -/

lemma xtagAt_congr (h : c.xtagU64Vec = d.xtagU64Vec) (index : Nat) :
    xtagAt c index = xtagAt d index := by
  rw [xtagAt, xtagAt, h]

lemma answer_ask_eq (hwave : wave.Unambiguous) (hc : c.Sound wave) (hd : d.Sound wave)
    (hxtags : c.xtagU64Vec = d.xtagU64Vec) : answer (ask wave c q) = answer (ask wave d q) := by
  cases q with
  | handleByName name =>
    have hname : ∀ e : Caches, e.Sound wave →
        answer (ask wave e (.handleByName name)) = .value (.handle (find wave name)) := by
      intro e he
      rw [← (getVarIdCodeByName_sound hwave he name).1]
      rfl
    rw [hname c hc, hname d hd]
  | getValue code index format =>
    simp only [ask, getValue, xtagAt_congr hxtags]
    cases xtagAt d index with
    | value time =>
      simp only [Codec.Outcome.value_bind]
      cases wave.retVC code (time + 1) <;> rfl
    | fail => rfl
    | panic => rfl
  | getTime index =>
    simp only [ask, xtagAt_congr hxtags]
    cases xtagAt d index <;> rfl
  | nearestTimeIndex time =>
    simp only [ask, hxtags]
    cases d.xtagU64Vec <;> rfl
  | maxIndex =>
    simp only [ask, hxtags]
    cases d.xtagU64Vec <;> rfl

lemma sound_of_ask {a : Answer} (hwave : wave.Unambiguous) (hc : c.Sound wave)
    (h : ask wave c q = .value (a, c')) : c'.Sound wave ∧ c'.xtagU64Vec = c.xtagU64Vec := by
  cases q with
  | handleByName name =>
    cases h
    exact (getVarIdCodeByName_sound hwave hc name).2
  | getValue code index format =>
    rw [ask] at h
    cases hx : getValue wave c code index format <;> rw [hx] at h <;> cases h
    exact ⟨hc, rfl⟩
  | getTime index =>
    rw [ask] at h
    cases hx : xtagAt c index <;> rw [hx] at h <;> cases h
    exact ⟨hc, rfl⟩
  | nearestTimeIndex time =>
    rw [ask] at h
    cases hx : c.xtagU64Vec <;> rw [hx] at h <;> cases h
    exact ⟨hc, hx⟩
  | maxIndex =>
    rw [ask] at h
    cases hx : c.xtagU64Vec <;> rw [hx] at h <;> cases h
    exact ⟨hc, hx⟩

/-! ### The invariant -/

variable {f : WaveVersions} {s s' : State f} {p p' : Proc f} {disk : Disk}
  {maxIndexVarCode : Option Nat} {version : f.Version}

/-- The caches of the run and those of its twin. -/
structure Proc.Sound (p : Proc f) : Prop where
  unambiguous : (f.content p.version).Unambiguous
  caches : p.caches.Sound (f.content p.version)
  twin : p.twin.Sound (f.content p.version)
  xtags : p.caches.xtagU64Vec = p.twin.xtagU64Vec

/-- The names are sound for the version with the stamp of `META_FILE`. -/
def Disk.Names (f : WaveVersions) (disk : Disk) : Prop :=
  ∀ m, disk.metaFile = some m →
    f.Genuine m.modified fun wave => Codes wave m.usedVarIdCodeCache

/-- So is the time table. -/
def Disk.Sound (f : WaveVersions) (maxIndexVarCode : Option Nat) (disk : Disk) : Prop :=
  ∀ m, disk.metaFile = some m → f.Genuine m.modified fun wave =>
    Codes wave m.usedVarIdCodeCache ∧ TimesOf maxIndexVarCode wave disk.timeTableFile

def State.Inv (maxIndexVarCode : Option Nat) (s : State f) : Prop :=
  match s.phase with
  | .idle => s.disk.Sound f maxIndexVarCode
  | .opened version code | .sized version code _ =>
    s.disk.Sound f maxIndexVarCode ∧ (f.content version).Unambiguous ∧ code = maxIndexVarCode
  | .writingTimes p modified =>
    s.disk.Names f ∧ p.Sound ∧ modified = f.stamp p.version ∧
      ∃ xtags, (f.content p.version).parse maxIndexVarCode = some xtags ∧
        p.caches.xtagU64Vec = some xtags
  | .wroteTimes p modified =>
    s.disk.Names f ∧ p.Sound ∧ modified = f.stamp p.version ∧
      TimesOf maxIndexVarCode (f.content p.version) s.disk.timeTableFile
  | .writingMeta p modified | .closingMeta p modified =>
    s.disk.metaFile = none ∧ p.Sound ∧ modified = f.stamp p.version ∧
      TimesOf maxIndexVarCode (f.content p.version) s.disk.timeTableFile
  | .running p | .closing p _ =>
    s.disk.Sound f maxIndexVarCode ∧ p.Sound ∧
      (p.hierarchyOnly = false →
        TimesOf maxIndexVarCode (f.content p.version) s.disk.timeTableFile)

lemma TimesOf.none (maxIndexVarCode : Option Nat) (wave : WaveFile) :
    TimesOf maxIndexVarCode wave none := by
  intro t h
  cases h

lemma Disk.sound_of_none (h : disk.metaFile = none) : disk.Sound f maxIndexVarCode := by
  intro m hm
  rw [h] at hm
  cases hm

lemma Disk.Sound.names (h : disk.Sound f maxIndexVarCode) : disk.Names f := by
  intro m hm
  exact (h m hm).mono fun _ hwave => hwave.1

lemma Disk.Names.sound (h : disk.Names f)
    (hstamp : ∀ m, disk.metaFile = some m → m.modified = f.stamp version)
    (htimes : TimesOf maxIndexVarCode (f.content version) disk.timeTableFile) :
    disk.Sound f maxIndexVarCode := by
  intro m hm
  have hnames := h m hm
  rw [hstamp m hm] at hnames ⊢
  exact .intro ⟨hnames.of_stamp, htimes⟩

lemma Disk.Sound.removeTimes (h : disk.Sound f maxIndexVarCode) :
    ({ disk with timeTableFile := none } : Disk).Sound f maxIndexVarCode := by
  intro m hm
  exact (h m hm).mono fun wave hwave => ⟨hwave.1, .none _ wave⟩

/-! ### The start of a run -/

lemma TimeTableFile.read_complete (xtags : List Nat) : (complete xtags).read = some xtags := by
  simp [complete, read]

lemma Caches.sound_fresh (wave : WaveFile) (xtags : List Nat) : (Caches.fresh xtags).Sound wave :=
  ⟨.empty wave, .empty wave⟩

lemma Caches.sound_ofMeta {m : Meta} (h : Codes wave m.usedVarIdCodeCache)
    (xtags : Option (List Nat)) : (Caches.ofMeta m xtags).Sound wave :=
  ⟨h, .empty wave⟩

lemma Disk.usable_eq_some {m : Meta} {modified : Modified} (h : disk.usable modified = some m) :
    disk.metaFile = some m ∧ m.modified = modified := by
  obtain ⟨hmeta, hcond⟩ := Option.filter_eq_some_iff.mp h
  exact ⟨hmeta, by simpa using hcond⟩

/-- The run has the names of a usable `META_FILE` and the time table of its own version. -/
lemma Disk.Sound.of_usable (h : disk.Sound f maxIndexVarCode) {m : Meta}
    (hm : disk.usable (f.stamp version) = some m) :
    Codes (f.content version) m.usedVarIdCodeCache ∧
      TimesOf maxIndexVarCode (f.content version) disk.timeTableFile := by
  obtain ⟨hmeta, hmodified⟩ := Disk.usable_eq_some hm
  have hgenuine := h m hmeta
  rw [hmodified] at hgenuine
  exact hgenuine.of_stamp

lemma State.Inv.load (h : s.disk.Sound f maxIndexVarCode)
    (hwave : (f.content version).Unambiguous) :
    (load s version maxIndexVarCode (f.stamp version)).Inv maxIndexVarCode := by
  rw [Fsdb.load]
  split
  case h_1 m file hm hfile =>
    obtain ⟨hcodes, htimes⟩ := h.of_usable hm
    obtain ⟨xtags, hparse, rfl⟩ := htimes file hfile
    refine ⟨h, ⟨hwave, Caches.sound_ofMeta hcodes _, Caches.sound_fresh _ _, ?_⟩,
      fun _ => htimes⟩
    simp [Caches.ofMeta, Caches.fresh, hparse, TimeTableFile.read_complete]
  case h_2 =>
    cases hparse : (f.content version).parse maxIndexVarCode with
    | none => exact h
    | some xtags =>
      refine ⟨h.names, ⟨hwave, ?_, Caches.sound_fresh _ _, ?_⟩, rfl, xtags, hparse, ?_⟩
      all_goals cases hm : s.disk.usable (f.stamp version) with
        | none => first | exact Caches.sound_fresh _ _ | rfl
        | some m => first | exact Caches.sound_ofMeta (h.of_usable hm).1 _ | rfl

/-! ### Queries -/

lemma Proc.Sound.answer_eq (h : p.Sound) :
    answer (Fsdb.ask (f.content p.version) p.caches q) =
      answer (Fsdb.ask (f.content p.version) p.twin q) :=
  answer_ask_eq h.unambiguous h.caches h.twin h.xtags

lemma Proc.Sound.ask (h : p.Sound) (hask : p.ask q = some p') :
    p'.Sound ∧ p'.version = p.version ∧ p'.hierarchyOnly = p.hierarchyOnly := by
  rw [Proc.ask] at hask
  cases hx : Fsdb.ask (f.content p.version) p.caches q with
  | value y =>
    obtain ⟨a, c⟩ := y
    rw [hx] at hask
    obtain rfl := Option.some.inj hask
    obtain ⟨hsound, hxtags⟩ := sound_of_ask h.unambiguous h.caches hx
    refine ⟨?_, rfl, rfl⟩
    cases hy : Fsdb.ask (f.content p.version) p.twin q with
    | value y =>
      obtain ⟨a', d⟩ := y
      obtain ⟨hsound', hxtags'⟩ := sound_of_ask h.unambiguous h.twin hy
      exact ⟨h.unambiguous, hsound, hsound', hxtags.trans (h.xtags.trans hxtags'.symm)⟩
    | fail => exact ⟨h.unambiguous, hsound, h.twin, hxtags.trans h.xtags⟩
    | panic => exact ⟨h.unambiguous, hsound, h.twin, hxtags.trans h.xtags⟩
  | fail =>
    rw [hx] at hask
    cases hask
  | panic =>
    rw [hx] at hask
    cases hask

/-! ### Steps and runs -/

lemma State.Inv.step {a : Act f} (h : s.Inv maxIndexVarCode) (hsafe : Safe maxIndexVarCode s a)
    (hstep : step s a = some s') : s'.Inv maxIndexVarCode := by
  obtain ⟨file, disk, phase⟩ := s
  cases a with
  | replace version =>
    cases hstep
    exact h
  | openWave code =>
    cases phase <;> cases hstep
    exact ⟨h, hsafe.2, hsafe.1⟩
  | openHierarchyOnly =>
    cases phase <;> cases hstep
    exact ⟨h, ⟨hsafe, Caches.sound_fresh _ _, Caches.sound_fresh _ _, rfl⟩,
      fun hfalse => nomatch hfalse⟩
  | fileSize =>
    cases phase with
    | opened version code =>
      cases hstep
      exact h
    | _ => cases hstep
  | load =>
    cases phase with
    | sized version code size =>
      cases hstep
      obtain ⟨hdisk, hwave, rfl⟩ := h
      rw [hsafe version code size rfl]
      exact State.Inv.load hdisk hwave
    | _ => cases hstep
  | writeTimes =>
    cases phase with
    | writingTimes p modified =>
      cases hstep
      obtain ⟨hnames, hp, hstamp, xtags, hparse, hxtags⟩ := h
      refine ⟨hnames, hp, hstamp, fun t ht => ⟨xtags, hparse, ?_⟩⟩
      rw [hxtags] at ht
      exact (Option.some.inj ht).symm
    | _ => cases hstep
  | createMeta =>
    cases phase with
    | wroteTimes p modified =>
      cases hstep
      exact ⟨rfl, h.2⟩
    | _ => cases hstep
  | writeMeta =>
    cases phase with
    | writingMeta p modified =>
      cases hstep
      obtain ⟨-, hp, hstamp, htimes⟩ := h
      refine ⟨fun m hm => ?_, hp, fun _ => htimes⟩
      obtain rfl := Option.some.inj hm
      rw [hstamp]
      exact .intro ⟨.empty _, htimes⟩
    | _ => cases hstep
  | ask q =>
    cases phase with
    | running p =>
      obtain ⟨hdisk, hp, htimes⟩ := h
      simp only [Fsdb.step] at hstep
      cases hask : p.ask q with
      | some p' =>
        rw [hask] at hstep
        cases hstep
        obtain ⟨hp', hversion, hmode⟩ := hp.ask hask
        refine ⟨hdisk, hp', ?_⟩
        rw [hversion, hmode]
        exact htimes
      | none =>
        rw [hask] at hstep
        cases hstep
        exact hdisk
    | _ => cases hstep
  | close =>
    cases phase with
    | running p =>
      simp only [Fsdb.step] at hstep
      split_ifs at hstep
      · cases hstep
        exact h
      · cases hstep
        exact h.1
    | _ => cases hstep
  | closeTime =>
    cases phase with
    | closing p size =>
      cases hstep
      obtain ⟨-, hp, htimes⟩ := h
      obtain ⟨hstamp, htimes'⟩ := hsafe p size rfl
      refine ⟨rfl, hp, hstamp, ?_⟩
      cases hmode : p.hierarchyOnly with
      | false => exact htimes hmode
      | true => exact htimes' hmode
    | _ => cases hstep
  | writeFinalMeta =>
    cases phase with
    | closingMeta p modified =>
      cases hstep
      obtain ⟨-, hp, hstamp, htimes⟩ := h
      intro m hm
      obtain rfl := Option.some.inj hm
      dsimp only
      rw [hstamp]
      exact .intro ⟨hp.caches.used, htimes⟩
    | _ => cases hstep
  | interrupt entries =>
    cases phase with
    | idle => cases hstep
    | opened version code =>
      cases hstep
      exact h.1
    | sized version code size =>
      cases hstep
      exact h.1
    | writingTimes p modified =>
      cases hstep
      exact Disk.sound_of_none hsafe
    | wroteTimes p modified =>
      cases hstep
      obtain ⟨hnames, -, -, htimes⟩ := h
      exact hnames.sound hsafe htimes
    | writingMeta p modified =>
      cases hstep
      exact Disk.sound_of_none h.1
    | running p =>
      cases hstep
      exact h.1
    | closing p size =>
      cases hstep
      exact h.1
    | closingMeta p modified =>
      cases hstep
      exact Disk.sound_of_none h.1
  | removeMeta =>
    cases hstep
    have hnone : ({ disk with metaFile := none } : Disk).Sound f maxIndexVarCode :=
      Disk.sound_of_none rfl
    cases phase with
    | idle => exact hnone
    | opened _ _ | sized _ _ _ | running _ | closing _ _ => exact ⟨hnone, h.2⟩
    | writingTimes _ _ | wroteTimes _ _ => exact ⟨hnone.names, h.2⟩
    | writingMeta _ _ | closingMeta _ _ => exact ⟨rfl, h.2⟩
  | removeTimes =>
    cases hstep
    cases phase with
    | idle => exact Disk.Sound.removeTimes h
    | opened _ _ | sized _ _ _ => exact ⟨h.1.removeTimes, h.2⟩
    | running _ | closing _ _ => exact ⟨h.1.removeTimes, h.2.1, fun _ => .none _ _⟩
    | writingTimes _ _ => exact h
    | wroteTimes _ _ | writingMeta _ _ | closingMeta _ _ =>
      exact ⟨h.1, h.2.1, h.2.2.1, .none _ _⟩

/-- What holds in every state of a run whose steps are safe. -/
abbrev Reached (ok : State f → Act f → Prop) (version : f.Version) (s : State f) : Prop :=
  Reach step ok (State.init version) s

lemma State.Inv.of_reached (h : Reached (Safe maxIndexVarCode) version s) :
    s.Inv maxIndexVarCode :=
  h.invariant (Disk.sound_of_none rfl) fun _ _ _ _ hinv hsafe hstep => hinv.step hsafe hstep

/-- In safe runs the cache files are transparent. -/
theorem transparent_of_reached (h : Reached (Safe maxIndexVarCode) version s) :
    s.Transparent := by
  intro p hp q
  have hinv := State.Inv.of_reached h
  rw [State.Inv, hp] at hinv
  exact hinv.2.1.answer_eq

end Verilua.Fsdb
