import Verilua.Fsdb.Basic
import Verilua.Lib.Stamped
import Verilua.Lib.TransitionSystem

/-!
# Runs in one directory, with FSDB

The constructor of `FsdbWaveVpi` takes the size and the modification time of the waveform file in
two calls, and loads the cache files or parses the time table and writes both of them. The
destructor takes size and time once more and writes `META_FILE` with the names that were asked for.
-/

namespace Verilua.Fsdb

open Codec (Outcome)
open TransitionSystem

/-- `modified` of `META_FILE`. -/
structure Modified where
  size : Nat
  time : Nat
  deriving DecidableEq

/-- `META_FILE` -/
structure Meta where
  modified : Modified
  usedVarIdCodeCache : AList fun _ : String => IdCode

/-- `TIME_TABLE_FILE`: the size, if all of it is written, and the entries that are. -/
structure TimeTableFile where
  vecSize : Option Nat
  entries : List Nat

/-- The cache files. A file that is missing or cannot be read is `none`. -/
structure Disk where
  metaFile : Option Meta
  timeTableFile : Option TimeTableFile

/-- The vector is resized before it is filled. -/
def TimeTableFile.read (file : TimeTableFile) : Option (List Nat) :=
  file.vecSize.map fun size => (file.entries ++ List.replicate size 0).take size

def TimeTableFile.complete (xtags : List Nat) : TimeTableFile := ⟨some xtags.length, xtags⟩

/-- `useCachedData` -/
def Disk.usable (disk : Disk) (modified : Modified) : Option Meta :=
  disk.metaFile.filter fun m => m.modified = modified

/-! ### Runs -/

/-- The versions of the waveform file. -/
abbrev WaveVersions := Stamped WaveFile Modified

variable (f : WaveVersions)

/-- A run, with the version that it has read. `twin` are the caches of the same run had there been
no cache files. -/
structure Proc where
  version : f.Version
  hierarchyOnly : Bool
  caches : Caches
  twin : Caches

inductive Phase
  | idle
  /-- The scopes and variables are read. -/
  | opened (version : f.Version) (maxIndexVarCode : Option Nat)
  /-- `file_size` is taken. -/
  | sized (version : f.Version) (maxIndexVarCode : Option Nat) (size : Nat)
  /-- `TIME_TABLE_FILE` is created. -/
  | writingTimes (p : Proc f) (modified : Modified)
  | wroteTimes (p : Proc f) (modified : Modified)
  /-- `META_FILE` is created, without names. -/
  | writingMeta (p : Proc f) (modified : Modified)
  | running (p : Proc f)
  /-- `file_size` is taken in the destructor. -/
  | closing (p : Proc f) (size : Nat)
  /-- `META_FILE` is created in the destructor. -/
  | closingMeta (p : Proc f) (modified : Modified)

structure State where
  file : f.Version
  disk : Disk
  phase : Phase f

inductive Act
  | replace (version : f.Version)
  | openWave (maxIndexVarCode : Option Nat)
  /-- The mode in which neither signals nor the time table are loaded. -/
  | openHierarchyOnly
  | fileSize
  /-- `last_write_time`, and the cache files are loaded, or the time table is parsed. -/
  | load
  | writeTimes
  | createMeta
  | writeMeta
  | ask (q : Query)
  | close
  /-- `last_write_time` in the destructor. -/
  | closeTime
  | writeFinalMeta
  /-- While `TIME_TABLE_FILE` is written, its size may be complete and some entries. -/
  | interrupt (entries : Option Nat)
  | removeMeta
  | removeTimes

variable {f}

/-- The caches of a run that finds no cache files. -/
def Caches.fresh (xtags : List Nat) : Caches := ⟨∅, ∅, false, some xtags⟩

/-- The caches of a run that finds a usable `META_FILE`. -/
def Caches.ofMeta (m : Meta) (xtags : Option (List Nat)) : Caches :=
  ⟨m.usedVarIdCodeCache, ∅, false, xtags⟩

/-- The rest of the constructor, from the loading of `META_FILE` to the creation of
`TIME_TABLE_FILE`. -/
def load (s : State f) (version : f.Version) (maxIndexVarCode : Option Nat)
    (modified : Modified) : State f :=
  let parsed := (f.content version).parse maxIndexVarCode
  let twin := Caches.fresh (parsed.getD [])
  match s.disk.usable modified, s.disk.timeTableFile with
  | some m, some file => { s with
      phase := .running ⟨version, false, .ofMeta m file.read, twin⟩ }
  | m, _ =>
    -- `NormalParse`
    match parsed with
    | none => { s with phase := .idle }
    | some xtags =>
      let caches := m.elim (Caches.fresh xtags) fun m => .ofMeta m (some xtags)
      { s with
        disk.timeTableFile := some ⟨none, []⟩
        phase := .writingTimes ⟨version, false, caches, twin⟩ modified }

/-- The run after a query, and `none` where the query ends it. -/
def Proc.ask (p : Proc f) (q : Query) : Option (Proc f) :=
  match Fsdb.ask (f.content p.version) p.caches q with
  | .value (_, c) => some { p with
      caches := c
      twin := match Fsdb.ask (f.content p.version) p.twin q with
        | .value (_, c) => c
        | _ => p.twin }
  | _ => none

def step (s : State f) : Act f → Option (State f)
  | .replace version => some { s with file := version }
  | .openWave maxIndexVarCode =>
    match s.phase with
    | .idle => some { s with phase := .opened s.file maxIndexVarCode }
    | _ => none
  | .openHierarchyOnly =>
    match s.phase with
    | .idle => some { s with
        phase := .running ⟨s.file, true, Caches.fresh [], Caches.fresh []⟩ }
    | _ => none
  | .fileSize =>
    match s.phase with
    | .opened version code => some { s with
        phase := .sized version code (f.stamp s.file).size }
    | _ => none
  | .load =>
    match s.phase with
    | .sized version code size => some (load s version code ⟨size, (f.stamp s.file).time⟩)
    | _ => none
  | .writeTimes =>
    match s.phase with
    | .writingTimes p modified => some { s with
        disk.timeTableFile := p.caches.xtagU64Vec.map TimeTableFile.complete
        phase := .wroteTimes p modified }
    | _ => none
  | .createMeta =>
    match s.phase with
    | .wroteTimes p modified => some { s with
        disk.metaFile := none
        phase := .writingMeta p modified }
    | _ => none
  | .writeMeta =>
    match s.phase with
    | .writingMeta p modified => some { s with
        disk.metaFile := some ⟨modified, ∅⟩
        phase := .running p }
    | _ => none
  | .ask q =>
    match s.phase with
    | .running p =>
      match p.ask q with
      | some p => some { s with phase := .running p }
      | none => some { s with phase := .idle }
    | _ => none
  | .close =>
    match s.phase with
    | .running p =>
      if p.caches.hasNewlyAddedVarIdCode then
        some { s with phase := .closing p (f.stamp s.file).size }
      else some { s with phase := .idle }
    | _ => none
  | .closeTime =>
    match s.phase with
    | .closing p size => some { s with
        disk.metaFile := none
        phase := .closingMeta p ⟨size, (f.stamp s.file).time⟩ }
    | _ => none
  | .writeFinalMeta =>
    match s.phase with
    | .closingMeta p modified => some { s with
        disk.metaFile := some ⟨modified, p.caches.usedVarIdCodeCache⟩
        phase := .idle }
    | _ => none
  | .interrupt entries =>
    match s.phase with
    | .idle => none
    | .writingTimes p _ => some { s with
        disk.timeTableFile := p.caches.xtagU64Vec.map fun xtags =>
          ⟨entries.map fun _ => xtags.length, xtags.take (entries.getD 0)⟩
        phase := .idle }
    | _ => some { s with phase := .idle }
  | .removeMeta => some { s with disk.metaFile := none }
  | .removeTimes => some { s with disk.timeTableFile := none }

/-- No run has been made in the directory. -/
def State.init (version : f.Version) : State f := ⟨version, ⟨none, none⟩, .idle⟩

def answer (x : Outcome (Answer × Caches)) : Outcome Answer := do
  let (a, _) ← x
  return a

/-- Whatever the run asks next, it gets what it would get with no cache files. -/
def State.Transparent (s : State f) : Prop :=
  ∀ p, s.phase = .running p → ∀ q,
    answer (ask (f.content p.version) p.caches q) = answer (ask (f.content p.version) p.twin q)

/-! ### Where the caches can be trusted -/

/-- The variable that the search finds for a name. -/
def find (wave : WaveFile) (name : String) : Option IdCode :=
  ((wave.vars (desiredDepth name)).find? (fun v => v.fullName = name)).map TreeVar.idcode

/-- What a search comes past is kept under a name that stands for that variable: without its ranges
no variable has the name of another. -/
def WaveFile.Unambiguous (wave : WaveFile) : Prop :=
  ∀ depth, ∀ v ∈ wave.vars depth, find wave v.key = some v.idcode

/-- There is no time table file, or it is complete and from that waveform. -/
def TimesOf (maxIndexVarCode : Option Nat) (wave : WaveFile) (file : Option TimeTableFile) : Prop :=
  ∀ t, file = some t →
    ∃ xtags, wave.parse maxIndexVarCode = some xtags ∧ t = TimeTableFile.complete xtags

/-- The steps that keep the cache files in agreement with each other and with the waveform.
* Every run is made with the same `MAX_INDEX_VAR_CODE`, on a waveform without ambiguous names.
* Size and time are those of the version that the run has read, at its start and at its end.
* A run that has not loaded the time table writes `META_FILE` only where the time table file is
  missing or from the version that it has read.
* While the time table is written a run is not interrupted unless there is no `META_FILE`; once it
  is written, unless there is none or it is from the version that the run has read. -/
def Safe (maxIndexVarCode : Option Nat) (s : State f) : Act f → Prop
  | .openWave code => code = maxIndexVarCode ∧ (f.content s.file).Unambiguous
  | .openHierarchyOnly => (f.content s.file).Unambiguous
  | .load => ∀ version code size, s.phase = .sized version code size →
      (⟨size, (f.stamp s.file).time⟩ : Modified) = f.stamp version
  | .closeTime => ∀ p size, s.phase = .closing p size →
      (⟨size, (f.stamp s.file).time⟩ : Modified) = f.stamp p.version ∧
        (p.hierarchyOnly → TimesOf maxIndexVarCode (f.content p.version) s.disk.timeTableFile)
  | .interrupt _ =>
    match s.phase with
    | .writingTimes _ _ => s.disk.metaFile = none
    | .wroteTimes p _ => ∀ m, s.disk.metaFile = some m → m.modified = f.stamp p.version
    | _ => True
  | _ => True

end Verilua.Fsdb
