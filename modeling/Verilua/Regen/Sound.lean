import Verilua.Regen.SignalDb

/-!
# Verdicts that nothing needs to be made again

Both tools look at the command line, at the list of sources and at the age of every source. They do
not look at the files that the sources include; for the testbench, a source that is left out and the
files with custom code are not looked at either.
-/

namespace Verilua.Regen

open Files

/-- The texts that make up a design. -/
def textsOf {Meta : Type} (l : List (Content Meta)) : Text :=
  l.flatMap fun c =>
    match c with
    | .text s => s
    | .info _ => []

/-- A front end for sources that include one file with ports. -/
def portsDriver {Cmd Meta Options : Type} (o : Options) (files : List Text) :
    Driver Cmd Meta Options Text where
  parseCommandLine _ := some o
  loadSources _ added := .done (files ++ added)
  runFullCompilation _ sources := .read "ports.svh".toList fun ports =>
    .done (ports.map fun c => textsOf (sources.map Prod.snd ++ [c]))

def portsTbOptions : TbOptions where
  files := ["dut.f".toList]
  tbtopName := "tb_top".toList
  outdir := "out".toList
  customCodeFile := "code.sv".toList
  customCodeOuterFile := []
  regen := false
  dryrun := false

/-- The testbench is the text of the design and the custom code. -/
def portsTestbench : Testbench Text where
  toDriver := portsDriver portsTbOptions []
  render _ design inner outer := some (design ++ textsOf [inner, outer])

def portsDbOptions : DbOptions := ⟨some "out/dut.ldb".toList, none, false, false⟩

/-- The database is the text of the design. -/
def portsSignalDb : SignalDb Text where
  toDriver := portsDriver portsDbOptions ["a.sv".toList, "b.sv".toList]
  encode _ design := some design

/-- Two sources, a list of them, an included file and a file with custom code. -/
def portsDisk (Meta : Type) : Storage Meta where
  file := fun p =>
    if p = "dut.f".toList then some ⟨.text "a.sv\nb.sv\n".toList, 1⟩
    else if p = "a.sv".toList then some ⟨.text "a".toList, 1⟩
    else if p = "b.sv".toList then some ⟨.text "b".toList, 1⟩
    else if p = "ports.svh".toList then some ⟨.text "p".toList, 1⟩
    else if p = "code.sv".toList then some ⟨.text "c".toList, 1⟩
    else none
  dir := fun p => p = "out".toList

/-- The disk after the first run. -/
def portsMade : Storage TbMeta :=
  Testbench.save [] portsTbOptions ["a.sv".toList, "b.sv".toList] "abpc".toList (portsDisk TbMeta) 10

/-- The verdict is given, and the testbench that would be made is another one. -/
def Testbench.Stale (e : Edit Text (Content TbMeta)) : Prop :=
  e.LaterThan 10 ∧ ∃ d₁ d₂, portsTestbench.main [] (portsDisk TbMeta) 10 = some (.generated d₁) ∧
    portsTestbench.main [] (e.apply d₁) 30 = some .upToDate ∧
    portsTestbench.generate [] portsTbOptions (e.apply d₁) 30 = some d₂ ∧
    d₂.content portsTbOptions.tbtopFilePath ≠ (e.apply d₁).content portsTbOptions.tbtopFilePath

/-- The verdict is given, and the database that would be made is another one. -/
def SignalDb.Stale (e : Edit Text (Content DbMeta)) : Prop :=
  e.LaterThan 10 ∧ ∃ d₁ d₂,
    portsSignalDb.main (.argv []) (portsDisk DbMeta) 10 = some (.generated d₁) ∧
    portsSignalDb.main (.argv []) (e.apply d₁) 30 = some .upToDate ∧
    portsSignalDb.generate (.argv []) portsDbOptions (e.apply d₁) 30 = some d₂ ∧
    d₂.content portsDbOptions.outFile ≠ (e.apply d₁).content portsDbOptions.outFile

end Verilua.Regen
