import Verilua.Fsdb.Transparent
import Verilua.Wellen.Transparent

/-!
# The cache files of both builds

In runs whose steps are safe for the build the cache files are transparent. A run with `wellen_impl`
that is interrupted between its two files leaves a `META_FILE` whose signals are missing, and one
with `fsdb_wave_vpi` writes the id codes of a file that was replaced under the stamp of the new one.
-/

namespace Verilua.Wave

open Codec (Outcome)
open TransitionSystem

/-- In safe runs, every query gets what it would get with no cache files. -/
theorem cacheFiles_transparent (f : Wellen.WaveVersions) (version : f.Version)
    (f' : Fsdb.WaveVersions) (maxIndexVarCode : Option Nat) (version' : f'.Version) :
    (∀ s : Wellen.State f, Wellen.Reached Wellen.Safe version s → s.Transparent) ∧
      ∀ s : Fsdb.State f', Fsdb.Reached (Fsdb.Safe maxIndexVarCode) version' s → s.Transparent := by
  constructor
  · intro s h
    exact Wellen.transparent_of_reached h
  · intro s h
    exact Fsdb.transparent_of_reached h

/-! ### Two runs with `wellen_impl` -/

/-- Every signal is one for ever. -/
def wellenFile : Wellen.WaveFile where
  lookupVar _ name := some ⟨.wire, name.length⟩
  loadSignal _ := ⟨some 0, fun _ => some (.bitVec oneBit)⟩
  timeTable := .start

def wellenFiles : Wellen.WaveVersions where
  Version := Unit
  content _ := wellenFile
  stamp _ := ⟨0, 0⟩
  stamp_inj _ _ _ := rfl

/-- The names of enough signals for the cache files. -/
def signalNames : List String :=
  (List.range Wellen.signalRefCountThreshold).map fun i =>
    String.ofList ('t' :: '.' :: List.replicate (i + 1) 'a')

/-- A run that ends with these steps after `META_FILE`, and the next one, which looks up a
signal. -/
def wellenRuns (ending : List (Wellen.Act wellenFiles)) : List (Wellen.Act wellenFiles) :=
  [.openWave, .wellenInitialize] ++ signalNames.map (fun name => .ask (.handleByName name)) ++
    [.wellenFinalize, .writeMeta] ++ ending ++
      [.openWave, .wellenInitialize, .ask (.handleByName "t.a")]

/-- What a value read of `t.a` gives, with the cache files and without them. -/
def wellenReads (s : Wellen.State wellenFiles) :
    Option (Outcome Wellen.Answer × Outcome Wellen.Answer) :=
  match s.phase with
  | .running p =>
    let read (c : Wellen.Caches) :=
      Wellen.answer (Wellen.ask wellenFile c (.getIntValue 1 0))
    if p.May (.getIntValue 1 0) then some (read p.caches, read p.twin) else none
  | _ => none

lemma wellenReads_eq {s : Wellen.State wellenFiles} (h : s.Transparent)
    {a b : Outcome Wellen.Answer} (hreads : wellenReads s = some (a, b)) : a = b := by
  rw [wellenReads] at hreads
  split at hreads
  case h_1 p hp =>
    simp only at hreads
    split_ifs at hreads with hmay
    obtain ⟨rfl, rfl⟩ := Prod.mk.inj (Option.some.inj hreads)
    exact h p hp _ hmay
  case h_2 => cases hreads

/-- The steps of runs that are not disturbed are safe. -/
def wellenUndisturbed (s : Wellen.State wellenFiles) : Wellen.Act wellenFiles → Bool
  | .wellenFinalize =>
    match s.phase with
    | .running p => p.modified = wellenFiles.stamp p.version
    | _ => true
  | .interrupt _ | .removeSignal => false
  | _ => true

lemma wellenSafe_of_undisturbed {s : Wellen.State wellenFiles} {a : Wellen.Act wellenFiles}
    (h : wellenUndisturbed s a) : Wellen.Safe s a := by
  cases a with
  | wellenInitialize => exact fun _ _ => .inl rfl
  | wellenFinalize =>
    intro p hp _
    rw [wellenUndisturbed, hp] at h
    exact of_decide_eq_true h
  | interrupt _ => cases h
  | removeSignal => cases h
  | _ => exact trivial

lemma wellenRuns_completed : ∃ s,
    runChecked Wellen.step (fun s a => wellenUndisturbed s a) (.init ())
      (wellenRuns [.createSignal, .writeSignal]) = some s := by
  apply Option.isSome_iff_exists.mp
  decide +kernel

lemma wellenRuns_interrupted : ∃ s,
    run Wellen.step (.init ()) (wellenRuns [.interrupt none]) = some s ∧
      wellenReads s = some (.panic, .value (.int 1)) := by
  apply Option.bind_eq_some_iff.mp
  decide +kernel

/-! ### Two runs with `fsdb_wave_vpi` -/

/-- One signal with this id code. -/
def fsdbFile (code : Fsdb.IdCode) (hcode : 0 < code) : Fsdb.WaveFile where
  vars depth := if depth = 1 then [⟨["t"], "a", code⟩] else []
  idcode_pos depth v hv := by
    split_ifs at hv
    · rwa [List.mem_singleton.mp hv]
    · cases hv
  parse _ := some [0]
  retVC _ _ := some [.one]

def fsdbFiles : Fsdb.WaveVersions where
  Version := Bool
  content version := if version then fsdbFile 2 (by decide) else fsdbFile 1 (by decide)
  stamp version := ⟨0, version.toNat⟩
  stamp_inj := by decide

lemma fsdbFiles_unambiguous (version : Bool) : (fsdbFiles.content version).Unambiguous := by
  intro depth v hv
  by_cases hdepth : depth = 1
  · subst hdepth
    cases version <;> obtain rfl := List.mem_singleton.mp hv <;> decide +kernel
  · cases version <;> simp [fsdbFiles, fsdbFile, hdepth] at hv

/-- A run in which these steps come before the end, and the start of the next one. -/
def fsdbRuns (during : List (Fsdb.Act fsdbFiles)) : List (Fsdb.Act fsdbFiles) :=
  [.openWave none, .fileSize, .load, .writeTimes, .createMeta, .writeMeta,
    .ask (.handleByName "t.a")] ++ during ++
      [.close, .closeTime, .writeFinalMeta, .openWave none, .fileSize, .load]

/-- What a look-up of `t.a` gives, with the cache files and without them. -/
def fsdbLooks (s : Fsdb.State fsdbFiles) : Option (Outcome Fsdb.Answer × Outcome Fsdb.Answer) :=
  match s.phase with
  | .running p =>
    let look (c : Fsdb.Caches) :=
      Fsdb.answer (Fsdb.ask (fsdbFiles.content p.version) c (.handleByName "t.a"))
    some (look p.caches, look p.twin)
  | _ => none

lemma fsdbLooks_eq {s : Fsdb.State fsdbFiles} (h : s.Transparent) {a b : Outcome Fsdb.Answer}
    (hlooks : fsdbLooks s = some (a, b)) : a = b := by
  rw [fsdbLooks] at hlooks
  split at hlooks
  case h_1 p hp =>
    obtain ⟨rfl, rfl⟩ := Prod.mk.inj (Option.some.inj hlooks)
    exact h p hp _
  case h_2 => cases hlooks

lemma fsdbRuns_replaced : ∃ s,
    run Fsdb.step (.init false) (fsdbRuns [.replace true]) = some s ∧
      fsdbLooks s = some (.value (.handle (some 1)), .value (.handle (some 2))) := by
  apply Option.bind_eq_some_iff.mp
  decide +kernel

/-- The steps of runs that are not disturbed are safe. -/
def fsdbUndisturbed (s : Fsdb.State fsdbFiles) : Fsdb.Act fsdbFiles → Bool
  | .openWave code => code = none
  | .load =>
    match s.phase with
    | .sized version _ size => (⟨size, (fsdbFiles.stamp s.file).time⟩ : Fsdb.Modified) =
        fsdbFiles.stamp version
    | _ => true
  | .closeTime =>
    match s.phase with
    | .closing p size => (⟨size, (fsdbFiles.stamp s.file).time⟩ : Fsdb.Modified) =
        fsdbFiles.stamp p.version ∧ p.hierarchyOnly = false
    | _ => true
  | .openHierarchyOnly | .interrupt _ => false
  | _ => true

lemma fsdbSafe_of_undisturbed {s : Fsdb.State fsdbFiles} {a : Fsdb.Act fsdbFiles}
    (h : fsdbUndisturbed s a) : Fsdb.Safe none s a := by
  cases a with
  | openWave code => exact ⟨of_decide_eq_true h, fsdbFiles_unambiguous s.file⟩
  | load =>
    intro version code size hphase
    rw [fsdbUndisturbed, hphase] at h
    exact of_decide_eq_true h
  | closeTime =>
    intro p size hphase
    rw [fsdbUndisturbed, hphase] at h
    obtain ⟨hstamp, hmode⟩ := of_decide_eq_true h
    refine ⟨hstamp, fun htrue => ?_⟩
    rw [hmode] at htrue
    cases htrue
  | openHierarchyOnly => cases h
  | interrupt _ => cases h
  | _ => exact trivial

lemma fsdbRuns_completed : ∃ s,
    runChecked Fsdb.step (fun s a => fsdbUndisturbed s a) (.init false) (fsdbRuns []) =
      some s := by
  apply Option.isSome_iff_exists.mp
  decide +kernel

/-! ### The theorem at these runs -/

theorem cacheFiles_transparent_completed :
    (∃ s, Wellen.Reached (f := wellenFiles) Wellen.Safe () s ∧ s.Transparent) ∧
      ∃ s, Fsdb.Reached (f := fsdbFiles) (Fsdb.Safe none) false s ∧ s.Transparent := by
  obtain ⟨s, hs⟩ := wellenRuns_completed
  obtain ⟨t, ht⟩ := fsdbRuns_completed
  have hreach := (reach_of_runChecked hs).mono fun _ _ => wellenSafe_of_undisturbed
  have hreach' := (reach_of_runChecked ht).mono fun _ _ => fsdbSafe_of_undisturbed
  obtain ⟨hwellen, hfsdb⟩ := cacheFiles_transparent wellenFiles () fsdbFiles none false
  exact ⟨⟨s, hreach, hwellen s hreach⟩, ⟨t, hreach', hfsdb t hreach'⟩⟩

/-- Neither build is transparent in every run: a value read is a panic where the signals of
`META_FILE` are not there, and a look-up gives the id code of the file that was replaced. -/
theorem not_cacheFiles_transparent :
    (¬ ∀ s, Wellen.Reached (f := wellenFiles) Unguarded () s → s.Transparent) ∧
      ¬ ∀ s, Fsdb.Reached (f := fsdbFiles) Unguarded false s → s.Transparent := by
  constructor
  · intro h
    obtain ⟨s, hs, hreads⟩ := wellenRuns_interrupted
    have heq := wellenReads_eq (h s (reach_of_run hs)) hreads
    cases heq
  · intro h
    obtain ⟨s, hs, hlooks⟩ := fsdbRuns_replaced
    have heq := fsdbLooks_eq (h s (reach_of_run hs)) hlooks
    exact absurd heq (by decide)

end Verilua.Wave
