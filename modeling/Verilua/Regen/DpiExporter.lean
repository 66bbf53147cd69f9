import Verilua.SlangCommon.FileLists

/-!
# When `dpi_exporter` runs again

The sources of a run are in the driver, and the list that is saved is the driver's. The check of the
next run compares it with a list of the tool itself, into which nothing is ever put.
-/

namespace Verilua.Regen

open Files FileManage SlangCommon

/-- What is saved at the end of a run and read again. -/
structure DpiMeta where
  cmdLine : Text
  filelist : List Text
  dpiFilePath : Text
  configFileContent : Text
  deriving DecidableEq

/-- The arguments that the sources, the config and the check depend on. -/
structure DpiOptions where
  positional : List Text
  excludeExts : List Text
  filelists : List Text
  configFile : Option Text
  configStr : Option Text
  outdir : Option Text
  workdir : Option Text
  dpiFile : Option Text
  nocache : Option Bool

/-- The members of the tool after its command line is parsed. `driverFiles` are the files of the
driver, `files` the member of the tool. -/
structure DpiExporter where
  driverFiles : List Text
  files : List Text
  configFileContent : Text
  outdir : Text
  workdir : Text
  dpiFilePath : Text
  metaInfoFilePath : Text
  cmdLineStr : Text
  nocache : Bool
  deriving DecidableEq

/-- What a run is in: the directory, the parser of the arguments, how deep lists may be nested, and
what is made of the sources, which is the text of the DPI file and the new RTL files. -/
structure DpiTool where
  cwd : Text
  parseOptions : List Text → Option DpiOptions
  depth : Nat
  transform : List Text → DpiExporter → Storage DpiMeta → Option (Text × List (Text × Text))

def isSpace (c : Char) : Bool := c = ' ' || (9 ≤ c.toNat && c.toNat ≤ 13)

namespace DpiOptions

/-- The config that is given by a file or by a string, but not by both. -/
def configSource (o : DpiOptions) (cwd : Text) (d : Storage DpiMeta) : Option Text :=
  match o.configFile, o.configStr with
  | some _, some _ => none
  | none, none => none
  | none, some s => if s.all isSpace then none else some s
  | some file, none => textAt d (absolute cwd file)

end DpiOptions

namespace DpiTool

variable (X : DpiTool) (argv : List Text)

def parseCommandLine (d : Storage DpiMeta) : Option DpiExporter := do
  let o ← X.parseOptions argv
  let positionals ← positionalFiles d o.excludeExts o.positional
  let configSource ← o.configSource X.cwd d
  let outdir := absolute X.cwd (o.outdir.getD ".dpi_exporter".toList)
  let listed ← dpiFiles d X.depth o.filelists
  return {
    driverFiles := positionals ++ listed
    files := []
    configFileContent := configSource.map fun c => if c = '\n' then ' ' else c
    outdir
    workdir := absolute X.cwd (o.workdir.getD ".dpi_exporter".toList)
    dpiFilePath := outdir ++ "/".toList ++ o.dpiFile.getD "dpi_func.cpp".toList
    metaInfoFilePath := outdir ++ "/dpi_exporter.meta.json".toList
    cmdLineStr := Regen.cmdLineStr argv
    nocache := o.nocache.getD false }

end DpiTool

namespace DpiExporter

variable (e : DpiExporter)

/-- What was saved is not that of this run, or a source is newer than the DPI file. -/
def isOutdated (d : Storage DpiMeta) (m : DpiMeta) : Bool :=
  if m.dpiFilePath ≠ e.dpiFilePath then true
  else if m.cmdLine ≠ e.cmdLineStr then true
  else if e.files.any (isFileNewer d · m.dpiFilePath) then true
  else if m.filelist ≠ e.files then true
  else if m.configFileContent ≠ e.configFileContent then true
  else false

/-- The answer, and the disk with the work directory. A saved file that cannot be parsed is an
exception. -/
def checkForRegenerate (d : Storage DpiMeta) : Option (Bool × Storage DpiMeta) :=
  if !d.has e.workdir then some (true, d.mkdir e.workdir)
  else if e.nocache then some (true, d)
  else if !d.has e.metaInfoFilePath then some (true, d)
  else if !d.has e.dpiFilePath then some (true, d)
  else
    match d.content e.metaInfoFilePath with
    | none => some (true, d)
    | some (.text _) => none
    | some (.info m) => some (e.isOutdated d m, d)

/-- The files of a run, and what is kept for the next one. The DPI file is written before the output
directory is made. -/
def save (dpiText : Text) (rtl : List (Text × Text)) (d : Storage DpiMeta) (now : Nat) :
    Storage DpiMeta :=
  let d := if d.dir e.outdir then d.write e.dpiFilePath (.text dpiText) now else d
  let d := if d.dir e.outdir then d else d.mkdir e.outdir
  let d := rtl.foldl (fun d file =>
    d.write (e.outdir ++ '/' :: file.1) (.text file.2) now) d
  let d := Edit.applyAll d (e.driverFiles.map fun file => .remove (targetFile file e.workdir))
  d.write e.metaInfoFilePath
    (.info ⟨e.cmdLineStr, e.driverFiles, e.dpiFilePath, e.configFileContent⟩) now

end DpiExporter

/-- How a run may end. -/
inductive DpiOutcome
  | upToDate
  | generated (d : Storage DpiMeta)

namespace DpiTool

variable (X : DpiTool) (argv : List Text)

/-- `generate` -/
def generate (e : DpiExporter) (d : Storage DpiMeta) (now : Nat) : Option DpiOutcome := do
  let (regenerate, d) ← e.checkForRegenerate d
  if !regenerate then return .upToDate
  let (dpiText, rtl) ← X.transform argv e d
  return .generated (e.save dpiText rtl d now)

/-- A run that completes, with the files of its driver: it comes to the end of `generate`. -/
structure Completed (e : DpiExporter) (d₀ d₁ : Storage DpiMeta) (t : Nat) : Prop where
  parsed : X.parseCommandLine argv d₀ = some e
  generated : X.generate argv e d₀ t = some (.generated d₁)
  nonempty : e.driverFiles ≠ []

/-- The next run of the same command line. The output files are those that the run has made. -/
structure Next (e : DpiExporter) (d₁ : Storage DpiMeta) (e' : DpiExporter)
    (d₂ : Storage DpiMeta) : Prop where
  parsed : X.parseCommandLine argv d₂ = some e'
  inPlace : ∀ p ∈ [e.metaInfoFilePath, e.dpiFilePath], d₂.file p = d₁.file p

end DpiTool

/-- The answer of the check. -/
def DpiExporter.Answers (e : DpiExporter) (d : Storage DpiMeta) (b : Bool) : Prop :=
  ∃ d', e.checkForRegenerate d = some (b, d')

/-- The sources, the lists of them and the config are as the run has found them, and the work
directory is there. -/
structure Unchanged (e e' : DpiExporter) (d₀ d₂ : Storage DpiMeta) : Prop where
  exporter : e' = e
  sources : ∀ p ∈ e.driverFiles, d₂.file p = d₀.file p
  workdir : d₂.has e.workdir = true

/-- Where nothing has changed, nothing is made again; where the list of sources has, it is. -/
structure Idempotent (e e' : DpiExporter) (d₀ d₂ : Storage DpiMeta) : Prop where
  unchanged : Unchanged e e' d₀ d₂ → e'.Answers d₂ false
  changed : e'.driverFiles ≠ e.driverFiles → e'.Answers d₂ true

/-! ### The next run -/

variable {X : DpiTool} {argv : List Text} {e e' : DpiExporter} {d d' d₀ d₁ d₂ : Storage DpiMeta}
  {t : Nat} {b : Bool}

lemma parseCommandLine_eq (h : X.parseCommandLine argv d = some e)
    (h' : X.parseCommandLine argv d' = some e') :
    e.files = [] ∧ e'.metaInfoFilePath = e.metaInfoFilePath := by
  obtain ⟨o, ho, h⟩ := Option.bind_eq_some_iff.mp h
  obtain ⟨_, -, h⟩ := Option.bind_eq_some_iff.mp h
  obtain ⟨_, -, h⟩ := Option.bind_eq_some_iff.mp h
  obtain ⟨_, -, h⟩ := Option.bind_eq_some_iff.mp h
  obtain ⟨o', ho', h'⟩ := Option.bind_eq_some_iff.mp h'
  obtain ⟨_, -, h'⟩ := Option.bind_eq_some_iff.mp h'
  obtain ⟨_, -, h'⟩ := Option.bind_eq_some_iff.mp h'
  obtain ⟨_, -, h'⟩ := Option.bind_eq_some_iff.mp h'
  obtain rfl := Option.some_inj.mp (ho.symm.trans ho')
  cases Option.some_inj.mp h
  cases Option.some_inj.mp h'
  exact ⟨rfl, rfl⟩

lemma DpiTool.Completed.content_metaInfo (h : X.Completed argv e d₀ d₁ t) :
    ∃ m, d₁.content e.metaInfoFilePath = some (.info m) ∧ m.filelist = e.driverFiles := by
  obtain ⟨⟨regenerate, d⟩, -, h'⟩ := Option.bind_eq_some_iff.mp h.generated
  dsimp only at h'
  split_ifs at h'
  · cases h'
  · obtain ⟨⟨dpiText, rtl⟩, -, h'⟩ := Option.bind_eq_some_iff.mp h'
    cases Option.some_inj.mp h'
    exact ⟨_, Disk.content_of_file (Disk.file_write_self _ _ _ _), rfl⟩

/-- A saved list that is not empty is never that of the tool. -/
lemma answers_true {m : DpiMeta} (hfiles : e.files = [])
    (hmeta : d.content e.metaInfoFilePath = some (.info m)) (hne : m.filelist ≠ []) :
    e.Answers d true := by
  have houtdated : e.isOutdated d m = true := by
    simp [DpiExporter.isOutdated, hfiles, hne]
  rw [DpiExporter.Answers, DpiExporter.checkForRegenerate, hmeta]
  dsimp only
  rw [houtdated]
  split_ifs
  · exact ⟨_, rfl⟩
  · exact ⟨_, rfl⟩
  · exact ⟨_, rfl⟩
  · exact ⟨_, rfl⟩
  · exact ⟨_, rfl⟩

/-- After a run that had sources, the answer is always yes. -/
lemma DpiTool.Next.answers_true (hrun : X.Completed argv e d₀ d₁ t)
    (hnext : X.Next argv e d₁ e' d₂) : e'.Answers d₂ true := by
  obtain ⟨m, hm, hlist⟩ := hrun.content_metaInfo
  have hfiles := (parseCommandLine_eq hnext.parsed hnext.parsed).1
  have hpath := (parseCommandLine_eq hrun.parsed hnext.parsed).2
  have hcontent : d₂.content e.metaInfoFilePath = some (.info m) :=
    (Disk.content_congr (hnext.inPlace _ List.mem_cons_self)).trans hm
  exact Regen.answers_true hfiles (hpath ▸ hcontent) (hlist ▸ hrun.nonempty)

lemma not_answers_false (h : e.Answers d true) : ¬ e.Answers d false := by
  obtain ⟨d', htrue⟩ := h
  rintro ⟨d'', hfalse⟩
  cases htrue.symm.trans hfalse

def oneSourceTool : DpiTool where
  cwd := "/w".toList
  parseOptions argv := some
    { positional := argv, excludeExts := [], filelists := [], configFile := none
      configStr := some "add_signals{}".toList, outdir := none, workdir := none
      dpiFile := none, nocache := none }
  depth := 0
  transform _ _ _ := some ("dpi".toList, [])

def oneSourceDisk : Storage DpiMeta where
  file := fun p => if p = "a.sv".toList then some ⟨.text "module a; endmodule".toList, 1⟩ else none
  dir := fun p => p = "/w/.dpi_exporter".toList

def oneSource : DpiExporter where
  driverFiles := ["a.sv".toList]
  files := []
  configFileContent := "add_signals{}".toList
  outdir := "/w/.dpi_exporter".toList
  workdir := "/w/.dpi_exporter".toList
  dpiFilePath := "/w/.dpi_exporter/dpi_func.cpp".toList
  metaInfoFilePath := "/w/.dpi_exporter/dpi_exporter.meta.json".toList
  cmdLineStr := "a.sv ".toList
  nocache := false

/-- The disk after the run. -/
def oneSourceMade : Storage DpiMeta := oneSource.save "dpi".toList [] oneSourceDisk 10

lemma completed_oneSource :
    oneSourceTool.Completed ["a.sv".toList] oneSource oneSourceDisk oneSourceMade 10 where
  parsed := by decide
  generated := rfl
  nonempty := by decide

lemma next_oneSource :
    oneSourceTool.Next ["a.sv".toList] oneSource oneSourceMade oneSource oneSourceMade where
  parsed := by decide
  inPlace _ _ := rfl

end Verilua.Regen
