import Verilua.Lib.Stamped
import Verilua.Wellen.Basic

/-!
# Runs in one directory

A run reads the waveform file, takes its size and modification time, and starts with the caches that
an earlier run left behind. At its end it writes them to two files, one after the other. The
waveform file may be replaced at any moment, and a run may be interrupted at any moment.
-/

namespace Verilua.Wellen

open Codec (Outcome)
open TransitionSystem

structure FileModifiedInfo where
  size : Nat
  time : Nat
  deriving DecidableEq

/-- `WaveVpiMeta`, in `.wave_vpi.meta.yaml`. -/
structure WaveVpiMeta where
  modified : FileModifiedInfo
  sigrefCount : Nat
  sigref : AList fun _ : String => SignalRef
  sigrefNull : List String

/-- The cache files. A file that is missing or cannot be read is `none`. -/
structure Disk where
  metaFile : Option WaveVpiMeta
  signalCacheFile : Option (AList fun _ : SignalRef => SignalInfo)

def signalRefCountThreshold : Nat := 15

/-! ### The start and the end of a run -/

/-- `use_cached_data` -/
def Disk.usable (disk : Disk) (modified : FileModifiedInfo) : Option WaveVpiMeta :=
  disk.metaFile.filter fun m =>
    m.modified = modified ∧ signalRefCountThreshold ≤ m.sigrefCount

/-- The caches at the end of `wellen_initialize`. -/
def Disk.load (disk : Disk) (modified : FileModifiedInfo) : Caches :=
  match disk.usable modified with
  | some m => ⟨m.sigref, m.sigrefNull, disk.signalCacheFile.getD ∅, ∅, false⟩
  | none => .empty

/-- The condition of `wellen_finalize` for writing the cache files. -/
def Caches.saves (c : Caches) : Bool :=
  signalRefCountThreshold ≤ c.signalRefCache.keys.length ∧ c.hasNewlyAddSignalRef

def Caches.toMeta (c : Caches) (modified : FileModifiedInfo) : WaveVpiMeta where
  modified := modified
  sigrefCount := c.signalRefCache.keys.length
  sigref := c.signalRefCache
  sigrefNull := c.signalRefCacheNull

/-! ### Runs -/

/-- The versions of the waveform file. -/
abbrev WaveVersions := Stamped WaveFile FileModifiedInfo

variable (f : WaveVersions)

/-- A run between `wellen_initialize` and `wellen_finalize`, with the version that it has read.
`twin` are the caches of the same run had there been no cache files, and `handles` the handles that
it has been given. -/
structure Proc where
  version : f.Version
  modified : FileModifiedInfo
  caches : Caches
  twin : Caches
  handles : List SignalRef

inductive Phase
  | idle
  /-- The header and the body are read. -/
  | opened (version : f.Version)
  | running (p : Proc f)
  /-- `META_FILE` is created. -/
  | writingMeta (p : Proc f)
  | wroteMeta (p : Proc f)
  /-- `SIGNAL_CACHE_FILE` is created. -/
  | writingSignal (p : Proc f)

structure State where
  file : f.Version
  disk : Disk
  phase : Phase f

inductive Act
  | replace (version : f.Version)
  | openWave
  | wellenInitialize
  | ask (q : Query)
  | wellenFinalize
  | writeMeta
  | createSignal
  | writeSignal
  /-- While `META_FILE` is written, what is left of it may be readable up to its last field. -/
  | interrupt (sigrefNull : Option (List String))
  | removeMeta
  | removeSignal

variable {f}

/-- A query is made with handles that the run has been given. -/
def Proc.May (p : Proc f) (q : Query) : Prop := ∀ h, q.handle? = some h → h ∈ p.handles

instance (p : Proc f) (q : Query) : Decidable (p.May q) :=
  decidable_of_iff (∀ h ∈ q.handle?, h ∈ p.handles) Iff.rfl

def Answer.handles : Answer → List SignalRef
  | .handle (some id) => [id]
  | _ => []

/-- The run after a query, and `none` where the query is a panic. -/
def Proc.ask (p : Proc f) (q : Query) : Option (Proc f) :=
  match Wellen.ask (f.content p.version) p.caches q with
  | .value (a, c) => some { p with
      caches := c
      twin := match Wellen.ask (f.content p.version) p.twin q with
        | .value (_, c) => c
        | _ => p.twin
      handles := a.handles ++ p.handles }
  | _ => none

/-- What an interrupted write of `META_FILE` leaves. -/
def Proc.partialMeta (p : Proc f) (sigrefNull : Option (List String)) : Option WaveVpiMeta :=
  sigrefNull.map fun names => { p.caches.toMeta p.modified with sigrefNull := names }

def step (s : State f) : Act f → Option (State f)
  | .replace version => some { s with file := version }
  | .openWave =>
    match s.phase with
    | .idle => some { s with phase := .opened s.file }
    | _ => none
  | .wellenInitialize =>
    match s.phase with
    | .opened version => some { s with
        phase := .running
          ⟨version, f.stamp s.file, s.disk.load (f.stamp s.file), .empty, []⟩ }
    | _ => none
  | .ask q =>
    match s.phase with
    | .running p =>
      if p.May q then
        match p.ask q with
        | some p => some { s with phase := .running p }
        | none => some { s with phase := .idle }
      else none
    | _ => none
  | .wellenFinalize =>
    match s.phase with
    | .running p =>
      if p.caches.saves then
        some { s with disk.metaFile := none, phase := .writingMeta p }
      else some { s with phase := .idle }
    | _ => none
  | .writeMeta =>
    match s.phase with
    | .writingMeta p => some { s with
        disk.metaFile := some (p.caches.toMeta p.modified)
        phase := .wroteMeta p }
    | _ => none
  | .createSignal =>
    match s.phase with
    | .wroteMeta p => some { s with disk.signalCacheFile := none, phase := .writingSignal p }
    | _ => none
  | .writeSignal =>
    match s.phase with
    | .writingSignal p => some { s with
        disk.signalCacheFile := some p.caches.signalCache
        phase := .idle }
    | _ => none
  | .interrupt sigrefNull =>
    match s.phase with
    | .idle => none
    | .writingMeta p => some { s with
        disk.metaFile := p.partialMeta sigrefNull
        phase := .idle }
    | _ => some { s with phase := .idle }
  | .removeMeta => some { s with disk.metaFile := none }
  | .removeSignal => some { s with disk.signalCacheFile := none }

/-- No run has been made in the directory. -/
def State.init (version : f.Version) : State f := ⟨version, ⟨none, none⟩, .idle⟩

def answer (x : Outcome (Answer × Caches)) : Outcome Answer := do
  let (a, _) ← x
  return a

/-- Whatever the run asks next, it gets what it would get with no cache files. -/
def State.Transparent (s : State f) : Prop :=
  ∀ p, s.phase = .running p → ∀ q, p.May q →
    answer (ask (f.content p.version) p.caches q) = answer (ask (f.content p.version) p.twin q)

/-! ### Where the caches can be trusted -/

/-- The signal cache file holds the signals of the references of the run. -/
def Disk.Stores (disk : Disk) (c : Caches) : Prop :=
  ∀ name id, c.signalRefCache.lookup name = some id →
    ∃ kept info, disk.signalCacheFile = some kept ∧ kept.lookup id = some info ∧
      (c.signalCache.lookup id).map SignalInfo.signal = some info.signal

/-- The steps that keep the cache files in agreement with each other and with the waveform.
* Usable cache files are loaded for the version that the run has read, and written with its stamp.
* A run is not interrupted between the two files, unless the second one holds its signals already.
* The signal cache file is not lost while `META_FILE` can be used, unless it is about to be written.
-/
def Safe (s : State f) : Act f → Prop
  | .wellenInitialize => ∀ version, s.phase = .opened version →
      version = s.file ∨ s.disk.usable (f.stamp s.file) = none
  | .wellenFinalize => ∀ p, s.phase = .running p → p.caches.saves → p.modified = f.stamp p.version
  | .interrupt sigrefNull =>
    match s.phase with
    | .writingMeta p => ∀ names, sigrefNull = some names →
        (∀ name ∈ names, name ∈ p.caches.signalRefCacheNull) ∧ s.disk.Stores p.caches
    | .wroteMeta p => s.disk.Stores p.caches
    | .writingSignal _ => False
    | _ => True
  | .removeSignal =>
    match s.phase with
    | .wroteMeta _ | .writingSignal _ => True
    | _ => ∀ m, s.disk.metaFile = some m → m.sigrefCount < signalRefCountThreshold
  | _ => True

end Verilua.Wellen

/-!
### Caches that agree with the waveform

Caches are sound for a waveform file when every reference, every missing name and every loaded
signal is what the file gives. Sound caches give the answers of the file, and each query keeps them
sound.
-/

namespace Verilua.Wellen

open Codec (Outcome)

variable {wave : WaveFile} {c c' d : Caches} {name : String} {id : SignalRef} {q : Query}
  {signals : AList fun _ : SignalRef => SignalInfo}

/-- The look-up of a name in the file. -/
def find (wave : WaveFile) (name : String) : Outcome (Option SignalRef) :=
  match rsplitOnce name with
  | none => .panic
  | some (path, signalName) => .value ((wave.lookupVar path signalName).map Var.signalRef)

/-- The signal is loaded as the file has it. -/
def Holds (wave : WaveFile) (signals : AList fun _ : SignalRef => SignalInfo) (id : SignalRef) :
    Prop :=
  (signals.lookup id).map SignalInfo.signal = some (wave.loadSignal id)

structure Sound (wave : WaveFile) (sigref : AList fun _ : String => SignalRef)
    (sigrefNull : List String) (signals : AList fun _ : SignalRef => SignalInfo) : Prop where
  found : ∀ name id, sigref.lookup name = some id → find wave name = .value (some id)
  held : ∀ name id, sigref.lookup name = some id → Holds wave signals id
  missing : ∀ name ∈ sigrefNull, find wave name = .value none

def Caches.Sound (wave : WaveFile) (c : Caches) : Prop :=
  Wellen.Sound wave c.signalRefCache c.signalRefCacheNull c.signalCache

lemma Caches.sound_empty (wave : WaveFile) : Caches.empty.Sound wave where
  found _ _ h := by simp [Caches.empty] at h
  held _ _ h := by simp [Caches.empty] at h
  missing _ h := by simp [Caches.empty] at h

lemma Holds.insert (h : Holds wave signals id) (ref : SignalRef) (varType : VarType) :
    Holds wave (signals.insert ref ⟨wave.loadSignal ref, varType⟩) id := by
  by_cases heq : id = ref
  · subst heq
    simp [Holds]
  · rwa [Holds, AList.lookup_insert_ne heq]

lemma holds_insert_self (signals : AList fun _ : SignalRef => SignalInfo) (ref : SignalRef)
    (varType : VarType) : Holds wave (signals.insert ref ⟨wave.loadSignal ref, varType⟩) ref := by
  simp [Holds]

/-! ### Handles by name -/

/-- What the look-up of a name does to sound caches. -/
inductive Looked (wave : WaveFile) (name : String) (c : Caches) :
    Outcome (Option SignalRef × Caches) → Prop
  | cached (id : SignalRef) (hlookup : c.signalRefCache.lookup name = some id) :
      Looked wave name c (.value (some id,
        { c with signalNameCache := c.signalNameCache.insert id name }))
  | cachedNull (hmem : name ∈ c.signalRefCacheNull) : Looked wave name c (.value (none, c))
  | noDot (hfind : find wave name = .panic) : Looked wave name c .panic
  | missing (hfind : find wave name = .value none) :
      Looked wave name c (.value (none, { c with
        signalRefCacheNull := name :: c.signalRefCacheNull
        hasNewlyAddSignalRef := true }))
  | found (var : Var) (hfind : find wave name = .value (some var.signalRef)) :
      Looked wave name c (.value (some var.signalRef,
        { signalRefCache := c.signalRefCache.insert name var.signalRef
          signalRefCacheNull := c.signalRefCacheNull
          signalCache := c.signalCache.insert var.signalRef
            ⟨wave.loadSignal var.signalRef, var.varType⟩
          signalNameCache := c.signalNameCache.insert var.signalRef name
          hasNewlyAddSignalRef := true }))

lemma Looked.of_handleByName (wave : WaveFile) (name : String) (c : Caches) :
    Looked wave name c (handleByName wave name c) := by
  rw [handleByName]
  split
  case h_1 id hlookup => exact .cached id hlookup
  case h_2 hlookup =>
    split_ifs with hmem
    · exact .cachedNull hmem
    · split
      case h_1 hsplit => exact .noDot (by rw [find, hsplit])
      case h_2 path signalName hsplit =>
        split
        case h_1 hvar => exact .missing (by rw [find, hsplit]; simp [hvar])
        case h_2 var hvar => exact .found var (by rw [find, hsplit]; simp [hvar])

lemma Looked.fst_eq {x : Outcome (Option SignalRef × Caches)} (hc : c.Sound wave)
    (h : Looked wave name c x) : (x >>= fun y => .value y.1) = find wave name := by
  cases h with
  | cached id hlookup => exact (hc.found _ _ hlookup).symm
  | cachedNull hmem => exact (hc.missing _ hmem).symm
  | noDot hfind => exact hfind.symm
  | missing hfind => exact hfind.symm
  | found var hfind => exact hfind.symm

/-- A look-up keeps the caches sound and every signal loaded, and loads the one that it returns. -/
lemma Looked.sound {ref : Option SignalRef} (hc : c.Sound wave)
    (h : Looked wave name c (.value (ref, c'))) :
    c'.Sound wave ∧ (∀ id, Holds wave c.signalCache id → Holds wave c'.signalCache id) ∧
      ∀ id, ref = some id → Holds wave c'.signalCache id := by
  cases h with
  | cached id hlookup =>
    refine ⟨hc, fun _ h => h, ?_⟩
    rintro _ ⟨⟩
    exact hc.held _ _ hlookup
  | cachedNull hmem => exact ⟨hc, fun _ h => h, fun _ h => nomatch h⟩
  | missing hfind =>
    refine ⟨⟨hc.found, hc.held, ?_⟩, fun _ h => h, fun _ h => nomatch h⟩
    intro other hmem
    rcases List.mem_cons.mp hmem with rfl | hmem
    · exact hfind
    · exact hc.missing other hmem
  | found var hfind =>
    refine ⟨⟨?_, ?_, hc.missing⟩, fun _ h => h.insert _ _, ?_⟩
    · intro other id hlookup
      by_cases heq : other = name
      · subst heq
        rw [AList.lookup_insert, Option.some.injEq] at hlookup
        rw [hfind, hlookup]
      · rw [AList.lookup_insert_ne heq] at hlookup
        exact hc.found _ _ hlookup
    · intro other id hlookup
      by_cases heq : other = name
      · subst heq
        rw [AList.lookup_insert, Option.some.injEq] at hlookup
        rw [← hlookup]
        exact holds_insert_self _ _ _
      · rw [AList.lookup_insert_ne heq] at hlookup
        exact (hc.held _ _ hlookup).insert _ _
    · rintro _ ⟨⟩
      exact holds_insert_self _ _ _

/-! ### Queries -/

lemma Holds.loaded (h : Holds wave c.signalCache id) :
    ∃ info, loaded c id = .value info ∧ info.signal = wave.loadSignal id := by
  obtain ⟨info, hlookup, hsignal⟩ := Option.map_eq_some_iff.mp h
  exact ⟨info, by rw [Wellen.loaded, hlookup], hsignal⟩

lemma answer_ask_eq (hc : c.Sound wave) (hd : d.Sound wave)
    (hhandles : ∀ id, q.handle? = some id →
      Holds wave c.signalCache id ∧ Holds wave d.signalCache id) :
    answer (ask wave c q) = answer (ask wave d q) := by
  have hread : ∀ id, q.handle? = some id → ∃ info info', loaded c id = .value info ∧
      loaded d id = .value info' ∧ info.signal = info'.signal := by
    intro id hid
    obtain ⟨info, hinfo, hsignal⟩ := (hhandles id hid).1.loaded
    obtain ⟨info', hinfo', hsignal'⟩ := (hhandles id hid).2.loaded
    exact ⟨info, info', hinfo, hinfo', hsignal.trans hsignal'.symm⟩
  cases q with
  | handleByName name =>
    have hname : ∀ e : Caches, e.Sound wave →
        answer (ask wave e (.handleByName name)) =
          find wave name >>= fun ref => .value (.handle ref) := by
      intro e he
      rw [← (Looked.of_handleByName wave name e).fst_eq he, ask, answer]
      cases handleByName wave name e <;> rfl
    rw [hname c hc, hname d hd]
  | getIntValue id idx =>
    obtain ⟨info, info', hinfo, hinfo', hsignal⟩ := hread id rfl
    simp only [ask, getIntValue, hinfo, hinfo', Codec.Outcome.value_bind, hsignal]
    cases info'.signal.intValue idx <;> rfl
  | getValue id idx format =>
    obtain ⟨info, info', hinfo, hinfo', hsignal⟩ := hread id rfl
    simp only [ask, getValueFromIndex, hinfo, hinfo', Codec.Outcome.value_bind, hsignal]
    cases info'.signal.valueFromIndex idx format <;> rfl
  | getSize id =>
    obtain ⟨info, info', hinfo, hinfo', hsignal⟩ := hread id rfl
    simp only [ask, getSize, hinfo, hinfo', Codec.Outcome.value_bind, hsignal]
    cases firstWidth info'.signal <;> rfl
  | getTimeFromIndex idx =>
    simp only [ask]
    cases wave.timeTable.times[idx]? <;> rfl
  | getIndexFromTime time => rfl
  | getMaxIndex => rfl

/-- A query keeps the caches sound and every signal loaded, and loads the one that it returns. -/
lemma sound_of_ask {a : Answer} (hc : c.Sound wave) (h : ask wave c q = .value (a, c')) :
    c'.Sound wave ∧ (∀ id, Holds wave c.signalCache id → Holds wave c'.signalCache id) ∧
      ∀ id ∈ a.handles, Holds wave c'.signalCache id := by
  have hsame : a.handles = [] → c' = c → c'.Sound wave ∧
      (∀ id, Holds wave c.signalCache id → Holds wave c'.signalCache id) ∧
        ∀ id ∈ a.handles, Holds wave c'.signalCache id := by
    rintro hnil rfl
    exact ⟨hc, fun _ h => h, by simp [hnil]⟩
  cases q with
  | handleByName name =>
    have hlooked := Looked.of_handleByName wave name c
    rw [ask] at h
    cases hx : handleByName wave name c with
    | value y =>
      obtain ⟨ref, d⟩ := y
      rw [hx] at h hlooked
      obtain ⟨rfl, rfl⟩ : .handle ref = a ∧ d = c' := by simpa using h
      obtain ⟨hsound, hkeeps, href⟩ := hlooked.sound hc
      refine ⟨hsound, hkeeps, fun id hid => href id ?_⟩
      cases ref with
      | none => simp [Answer.handles] at hid
      | some ref => simpa [Answer.handles, eq_comm] using hid
    | fail => rw [hx] at h; cases h
    | panic => rw [hx] at h; cases h
  | getIntValue id idx =>
    rw [ask] at h
    cases hx : getIntValue c id idx <;> rw [hx] at h <;> cases h
    exact hsame rfl rfl
  | getValue id idx format =>
    rw [ask] at h
    cases hx : getValueFromIndex c id idx format <;> rw [hx] at h <;> cases h
    exact hsame rfl rfl
  | getSize id =>
    rw [ask] at h
    cases hx : getSize c id <;> rw [hx] at h <;> cases h
    exact hsame rfl rfl
  | getTimeFromIndex idx =>
    rw [ask] at h
    cases hx : wave.timeTable.times[idx]? <;> rw [hx] at h <;> cases h
    exact hsame rfl rfl
  | getIndexFromTime time =>
    cases h
    exact hsame rfl rfl
  | getMaxIndex =>
    cases h
    exact hsame rfl rfl

end Verilua.Wellen
