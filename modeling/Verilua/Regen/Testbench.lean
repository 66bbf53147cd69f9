import Verilua.FileManage.Basic
import Verilua.Lib.Files

/-!
# When an output is made again

What the tools that write a file from RTL sources share. The front end that parses the command line
and the sources is a parameter: it is a program that reads files, and nothing but the command line,
the sources and these files has an influence on what it finds.
-/

namespace Verilua.Regen

open Files

abbrev Text := List Char

/-- What a file holds: a text, or what a tool keeps about its last run. -/
inductive Content (Meta : Type)
  | text (s : Text)
  | info (m : Meta)
deriving DecidableEq

abbrev Storage (Meta : Type) := Disk Text (Content Meta)

/-- The driver of the front end. -/
structure Driver (Cmd Meta Options Design : Type) where
  /-- the options of the tool -/
  parseCommandLine : Cmd → Option Options
  /-- the paths of the sources: those of the command line, and these files -/
  loadSources : Cmd → List Text → Reading Text (Content Meta) (List Text)
  /-- the design that the sources and the files they include make up -/
  runFullCompilation : Cmd → List (Text × Content Meta) →
    Reading Text (Content Meta) (Option Design)

/-- The arguments with a blank behind each. -/
def cmdLineStr (argv : List Text) : Text := argv.flatMap (· ++ [' '])

section

variable {Cmd Meta Options Design : Type} (D : Driver Cmd Meta Options Design)

/-- The sources that are there, with their contents. -/
def buffers (d : Storage Meta) (cmd : Cmd) (files : List Text) : List (Text × Content Meta) :=
  ((D.loadSources cmd files).run d.content).filterMap fun file =>
    (d.content file).map (file, ·)

/-- `isFileNewer`. An exception is `false`. -/
def isFileNewer (d : Storage Meta) (file1 file2 : Text) : Bool :=
  match d.file file1, d.file file2 with
  | some f1, some f2 => f2.mtime < f1.mtime
  | _, _ => false

end

/-! ### Unchanged sources -/

variable {Cmd Meta Options Design : Type} {D : Driver Cmd Meta Options Design}
  {d d₀ d₁ d₂ : Storage Meta} {cmd cmd' : Cmd} {files files' : List Text}
  {es : List (Edit Text (Content Meta))} {t : Nat}

lemma content_of_mem_buffers {x : Text × Content Meta} (hx : x ∈ buffers D d cmd files) :
    d.content x.1 = some x.2 := by
  obtain ⟨file, -, hmap⟩ := List.mem_filterMap.mp hx
  obtain ⟨c, hc, rfl⟩ := Option.map_eq_some_iff.mp hmap
  exact hc

lemma eq_of_paths {l l' : List (Text × Content Meta)} (hl : ∀ x ∈ l, d₀.content x.1 = some x.2)
    (hl' : ∀ x ∈ l', d₂.content x.1 = some x.2)
    (hagree : ∀ x ∈ l', d₂.content x.1 = d₀.content x.1)
    (hpaths : l'.map Prod.fst = l.map Prod.fst) : l' = l := by
  induction l' generalizing l with
  | nil => exact (List.map_eq_nil_iff.mp hpaths.symm).symm
  | cons x' l' ih =>
    cases l with
    | nil => cases hpaths
    | cons x l =>
      obtain ⟨hpath, hrest⟩ := List.cons.inj hpaths
      have hx' : x' = x := by
        have hcontent := hagree x' List.mem_cons_self
        rw [hl' x' List.mem_cons_self, hpath, hl x List.mem_cons_self] at hcontent
        exact Prod.ext hpath (Option.some_inj.mp hcontent)
      rw [hx', ih (fun y hy => hl y (List.mem_cons_of_mem x hy))
        (fun y hy => hl' y (List.mem_cons_of_mem x' hy))
        (fun y hy => hagree y (List.mem_cons_of_mem x' hy)) hrest]

/-- Sources of which none is newer than an output are those that the output was made from, if the
run that made it left them alone and the paths are the same. -/
lemma buffers_eq (hlater : ∀ e ∈ es, e.LaterThan t) {out : Text} {f : File (Content Meta)}
    (hout : (Edit.applyAll d₁ es).file out = some f) (hf : f.mtime = t)
    (hpaths : (buffers D (Edit.applyAll d₁ es) cmd files).map Prod.fst =
      (buffers D d₀ cmd' files').map Prod.fst)
    (hleft : ∀ x ∈ buffers D d₀ cmd' files', d₁.file x.1 = d₀.file x.1)
    (hnewer : ∀ x ∈ buffers D (Edit.applyAll d₁ es) cmd files,
      isFileNewer (Edit.applyAll d₁ es) x.1 out = false) :
    buffers D (Edit.applyAll d₁ es) cmd files = buffers D d₀ cmd' files' := by
  have hold : ∀ x ∈ buffers D d₀ cmd' files', d₀.content x.1 = some x.2 :=
    fun x hx => content_of_mem_buffers hx
  refine eq_of_paths hold (fun x hx => content_of_mem_buffers hx) ?_ hpaths
  intro x hx
  obtain ⟨g, hg, -⟩ := Option.map_eq_some_iff.mp (content_of_mem_buffers hx)
  have hnot := hnewer x hx
  rw [isFileNewer, hg, hout] at hnot
  have hle : g.mtime ≤ t := hf ▸ Nat.not_lt.mp (of_decide_eq_false hnot)
  have hbefore := Edit.file_of_applyAll hlater hg hle
  have hmem : x.1 ∈ (buffers D d₀ cmd' files').map Prod.fst := hpaths ▸ List.mem_map_of_mem hx
  obtain ⟨y, hy, hxy⟩ := List.mem_map.mp hmem
  apply Disk.content_congr
  rw [hg, ← hbefore, ← hxy]
  exact hleft y hy

end Verilua.Regen

/-!
### When the testbench is made again

The decision of `testbench_gen`, and what a run leaves on the disk. What is printed into the
testbench is a parameter: it is made from the command line, the ports and parameters of the design
and the two files of custom code.
-/

namespace Verilua.Regen

open Files FileManage

/-- What is saved next to the outputs and read again. -/
structure TbMeta where
  filelist : List Text
  cmdLine : Text
  othersFileMTime : Nat
deriving DecidableEq

/-- The options that the decision and the outputs depend on here. -/
structure TbOptions where
  files : List Text
  tbtopName : Text
  outdir : Text
  customCodeFile : Text
  customCodeOuterFile : Text
  regen : Bool
  dryrun : Bool

structure Testbench (Design : Type) extends Driver (List Text) TbMeta TbOptions Design where
  /-- the text of the testbench, from the design and the inner and the outer custom code -/
  render : List Text → Design → Content TbMeta → Content TbMeta → Option Text

namespace TbOptions

variable (o : TbOptions)

def tbtopFilePath : Text := o.outdir ++ "/".toList ++ o.tbtopName ++ ".sv".toList

def othersFilePath : Text := o.outdir ++ "/".toList ++ "others.sv".toList

def metaInfoFilePath : Text := o.outdir ++ "/tb_gen.meta.json".toList

end TbOptions

/-- The lines of a file that are not empty. -/
def parseFileList (content : Option (Content TbMeta)) : List Text :=
  match content with
  | some (.text s) => (getlines s).filter (· ≠ [])
  | _ => []

/-- The files that are added to the sources. -/
def listedFiles (d : Storage TbMeta) (files : List Text) : List Text :=
  files.flatMap fun file =>
    if ".f".toList <:+ file then parseFileList (d.content file) else [file]

/-- Whole seconds. -/
def toTimeT (mtime : Nat) : Nat := mtime / 1000000000

def mtimeOf (d : Storage TbMeta) (file : Text) : Nat := ((d.file file).map File.mtime).getD 0

/-- One round of the loop over the sources. -/
def checkSource (d : Storage TbMeta) (filelist : List Text) (tbtopFilePath : Text)
    (shouldRegen : Bool) (fullpath : Text) : Bool :=
  if shouldRegen then true
  else !filelist.contains fullpath || isFileNewer d fullpath tbtopFilePath

/-- The file that is written when there is none. -/
def othersText : Text :=
  ["", "module Others (", "    input wire clock,", "    input wire reset", ");", "",
    "// -----------------------------------------", "// other user code...",
    "// -----------------------------------------", "// ...", "", "endmodule"].flatMap
      fun line => line.toList ++ ['\n']

namespace Testbench

variable {Design : Type} (T : Testbench Design)

/-- The sources of a run. -/
def sources (argv : List Text) (o : TbOptions) (d : Storage TbMeta) :
    List (Text × Content TbMeta) :=
  buffers T.toDriver d argv (listedFiles d o.files)

/-- The list of sources of the last run, and the first part of the decision. `none` is a file of the
last run that cannot be parsed. -/
def checkMetaInfo (argv : List Text) (o : TbOptions) (d : Storage TbMeta) :
    Option (List Text × Bool) :=
  let shouldRegen := !d.has o.tbtopFilePath || !d.has o.othersFilePath || o.regen
  match d.content o.metaInfoFilePath with
  | some (.info m) =>
    some (m.filelist, shouldRegen || m.cmdLine != cmdLineStr argv ||
      (d.has o.othersFilePath && m.othersFileMTime != toTimeT (mtimeOf d o.othersFilePath)))
  | some (.text _) => none
  | none => some ([], true)

def shouldRegen (argv : List Text) (o : TbOptions) (d : Storage TbMeta) : Option Bool := do
  let (filelist, shouldRegen) ← checkMetaInfo argv o d
  return ((T.sources argv o d).map Prod.fst).foldl (checkSource d filelist o.tbtopFilePath)
    shouldRegen

/-- A file with custom code, or nothing. A file that cannot be opened is an error. -/
def customCode (d : Storage TbMeta) (file : Text) : Option (Content TbMeta) :=
  if file = [] then some (.text []) else d.content file

/-- The outputs of a run, and what is kept for the next one. -/
def save (argv : List Text) (o : TbOptions) (paths : List Text) (text : Text)
    (d : Storage TbMeta) (now : Nat) : Storage TbMeta :=
  let d := if d.dir o.outdir then d else d.mkdir o.outdir
  let d := d.write o.tbtopFilePath (.text text) now
  let d := if d.has o.othersFilePath then d else d.write o.othersFilePath (.text othersText) now
  d.write o.metaInfoFilePath
    (.info ⟨paths, cmdLineStr argv, toTimeT (mtimeOf d o.othersFilePath)⟩) now

/-- What comes after the decision. -/
def generate (argv : List Text) (o : TbOptions) (d : Storage TbMeta) (now : Nat) :
    Option (Storage TbMeta) := do
  let sources := T.sources argv o d
  let design ← (T.runFullCompilation argv sources).run d.content
  let inner ← customCode d o.customCodeFile
  let outer ← customCode d o.customCodeOuterFile
  let text ← T.render argv design inner outer
  return save argv o (sources.map Prod.fst) text d now

/-- How a run may end. -/
inductive Outcome
  | dryrun
  | upToDate
  | generated (d : Storage TbMeta)

/-- A run that fails is `none`. -/
def main (argv : List Text) (d : Storage TbMeta) (now : Nat) : Option Outcome := do
  let o ← T.parseCommandLine argv
  if o.dryrun then return .dryrun
  if ← T.shouldRegen argv o d then
    let d ← T.generate argv o d now
    return .generated d
  else return .upToDate

/-! ### The outputs -/

variable {T} {argv argv₁ argv₂ paths filelist : List Text} {text p : Text} {o o₁ o₂ : TbOptions}
  {d d₀ d₁ : Storage TbMeta} {f : File (Content TbMeta)} {now t t' : Nat} {b : Bool}

lemma getLast?_metaInfo (o : TbOptions) : o.metaInfoFilePath.getLast? = some 'n' := by
  rw [TbOptions.metaInfoFilePath, List.getLast?_append]
  rfl

lemma tbtop_ne_metaInfo (o : TbOptions) : o.tbtopFilePath ≠ o.metaInfoFilePath := by
  intro h
  have hlast := getLast?_metaInfo o
  rw [← h, TbOptions.tbtopFilePath, List.getLast?_append] at hlast
  cases hlast

lemma others_ne_metaInfo (o : TbOptions) : o.othersFilePath ≠ o.metaInfoFilePath := by
  intro h
  have hlast := getLast?_metaInfo o
  rw [← h, TbOptions.othersFilePath, List.getLast?_append] at hlast
  cases hlast

/-- The testbench, the save file and a new file of the other modules are all that is written. -/
lemma file_save (argv : List Text) (o : TbOptions) (paths : List Text) (text : Text)
    (d : Storage TbMeta) (now : Nat) :
    (save argv o paths text d now).file o.tbtopFilePath = some ⟨.text text, now⟩ ∧
    (∃ mtime, (save argv o paths text d now).file o.metaInfoFilePath =
      some ⟨.info ⟨paths, cmdLineStr argv, mtime⟩, now⟩) ∧
    ∀ p, d.has p = true ∨ p ≠ o.othersFilePath → p ≠ o.tbtopFilePath →
      p ≠ o.metaInfoFilePath → (save argv o paths text d now).file p = d.file p := by
  have hdir : (if d.dir o.outdir then d else d.mkdir o.outdir).file = d.file ∧
      ∀ p, d.has p = true → (if d.dir o.outdir then d else d.mkdir o.outdir).has p = true := by
    split
    · exact ⟨rfl, fun p hp => hp⟩
    · exact ⟨rfl, fun p hp => Disk.has_mkdir hp _⟩
  rw [save]
  generalize (if d.dir o.outdir then d else d.mkdir o.outdir) = d' at hdir
  obtain ⟨hdir, hhas⟩ := hdir
  refine ⟨?_, ⟨_, Disk.file_write_self _ _ _ _⟩, ?_⟩
  · rw [Disk.file_write_of_ne (tbtop_ne_metaInfo o)]
    split
    case isTrue => exact Disk.file_write_self _ _ _ _
    case isFalse hnone =>
      have hne : o.tbtopFilePath ≠ o.othersFilePath := fun h =>
        hnone (h ▸ Disk.has_write_self _ _ _ _)
      rw [Disk.file_write_of_ne hne, Disk.file_write_self]
  · intro p hp htop hmeta
    rw [Disk.file_write_of_ne hmeta]
    split
    case isTrue => rw [Disk.file_write_of_ne htop, hdir]
    case isFalse hnone =>
      have hne : p ≠ o.othersFilePath := by
        rcases hp with hp | hp
        · rintro rfl
          exact hnone (Disk.has_write (hhas _ hp) _ _ _)
        · exact hp
      rw [Disk.file_write_of_ne hne, Disk.file_write_of_ne htop, hdir]

lemma generate_eq_some (h : T.generate argv o d now = some d₁) :
    ∃ design inner outer text,
      (T.runFullCompilation argv (T.sources argv o d)).run d.content = some design ∧
      customCode d o.customCodeFile = some inner ∧
      customCode d o.customCodeOuterFile = some outer ∧
      T.render argv design inner outer = some text ∧
      d₁ = save argv o ((T.sources argv o d).map Prod.fst) text d now := by
  obtain ⟨design, hdesign, h⟩ := Option.bind_eq_some_iff.mp h
  obtain ⟨inner, hinner, h⟩ := Option.bind_eq_some_iff.mp h
  obtain ⟨outer, houter, h⟩ := Option.bind_eq_some_iff.mp h
  obtain ⟨text, htext, h⟩ := Option.bind_eq_some_iff.mp h
  exact ⟨design, inner, outer, text, hdesign, hinner, houter, htext, (Option.some_inj.mp h).symm⟩

/-! ### The verdict -/

lemma foldl_checkSource (d : Storage TbMeta) (filelist : List Text) (out : Text) :
    paths.foldl (checkSource d filelist out) b = false ↔
      b = false ∧ ∀ p ∈ paths, p ∈ filelist ∧ isFileNewer d p out = false := by
  induction paths generalizing b with
  | nil => simp
  | cons p paths ih =>
    rw [List.foldl_cons, ih]
    cases b with
    | true => simp [checkSource]
    | false => simp [checkSource, and_assoc]

lemma shouldRegen_eq_false (h : T.shouldRegen argv o d = some false) :
    ∃ m, d.content o.metaInfoFilePath = some (.info m) ∧ m.cmdLine = cmdLineStr argv ∧
      d.has o.othersFilePath = true ∧
      ∀ p ∈ (T.sources argv o d).map Prod.fst,
        p ∈ m.filelist ∧ isFileNewer d p o.tbtopFilePath = false := by
  obtain ⟨⟨filelist, regen⟩, hmeta, hfold⟩ := Option.bind_eq_some_iff.mp h
  obtain ⟨hregen, hpaths⟩ := (foldl_checkSource _ _ _).mp (Option.some_inj.mp hfold)
  subst hregen
  rw [checkMetaInfo] at hmeta
  split at hmeta
  case h_1 m hm =>
    obtain ⟨rfl, hchecks⟩ := Prod.mk.inj (Option.some_inj.mp hmeta)
    simp only [Bool.or_eq_false_iff, Bool.not_eq_false', bne_eq_false_iff_eq] at hchecks
    obtain ⟨⟨⟨⟨-, hothers⟩, -⟩, hcmd⟩, -⟩ := hchecks
    exact ⟨m, hm, hcmd, hothers, hpaths⟩
  case h_2 => cases hmeta
  case h_3 =>
    cases (Prod.mk.inj (Option.some_inj.mp hmeta)).2

lemma main_eq_generated (h : T.main argv d now = some (.generated d₁)) :
    ∃ o, T.parseCommandLine argv = some o ∧ T.generate argv o d now = some d₁ := by
  obtain ⟨o, ho, h⟩ := Option.bind_eq_some_iff.mp h
  split at h
  case isTrue => cases h
  case isFalse =>
    obtain ⟨regen, -, h⟩ := Option.bind_eq_some_iff.mp h
    split at h
    case isTrue =>
      obtain ⟨d', hgen, h⟩ := Option.bind_eq_some_iff.mp h
      cases Option.some_inj.mp h
      exact ⟨o, ho, hgen⟩
    case isFalse => cases h

lemma main_eq_upToDate (h : T.main argv d now = some .upToDate) :
    ∃ o, T.parseCommandLine argv = some o ∧ T.shouldRegen argv o d = some false := by
  obtain ⟨o, ho, h⟩ := Option.bind_eq_some_iff.mp h
  split at h
  case isTrue => cases h
  case isFalse =>
    obtain ⟨regen, hregen, h⟩ := Option.bind_eq_some_iff.mp h
    split at h
    case isTrue =>
      obtain ⟨d', -, h⟩ := Option.bind_eq_some_iff.mp h
      cases Option.some_inj.mp h
    case isFalse hfalse =>
      rw [Bool.not_eq_true] at hfalse
      exact ⟨o, ho, hfalse ▸ hregen⟩

/-! ### Soundness -/

variable {es : List (Edit Text (Content TbMeta))}

/-- A run that makes the outputs, and later edits of other files. -/
structure History (T : Testbench Design) (argv : List Text) (o : TbOptions)
    (d₀ d₁ : Storage TbMeta) (es : List (Edit Text (Content TbMeta))) (t : Nat) : Prop where
  generated : T.main argv d₀ t = some (.generated d₁)
  options : T.parseCommandLine argv = some o
  later : ∀ e ∈ es, e.LaterThan t
  kept : ∀ e ∈ es, ¬e.On o.tbtopFilePath ∧ ¬e.On o.metaInfoFilePath
  sources : ∀ x ∈ T.sources argv o d₀, x.1 ≠ o.tbtopFilePath ∧ x.1 ≠ o.metaInfoFilePath

/-- What the decision does not look at is the same: the files that are included and those with
custom code. The list of sources may lose a file or change its order only if it gets a new one. -/
structure Unseen (T : Testbench Design) (argv : List Text) (o : TbOptions)
    (d₀ d₂ : Storage TbMeta) : Prop where
  list : (∀ p ∈ (T.sources argv o d₂).map Prod.fst, p ∈ (T.sources argv o d₀).map Prod.fst) →
    (T.sources argv o d₂).map Prod.fst = (T.sources argv o d₀).map Prod.fst
  included : ∀ p ∈ (T.runFullCompilation argv (T.sources argv o d₀)).asked d₀.content,
    d₂.content p = d₀.content p
  code : ∀ p ∈ [o.customCodeFile, o.customCodeOuterFile], d₂.content p = d₀.content p

/-- A verdict that the testbench need not be made again is right if what is not looked at is the
same. -/
theorem upToDate_sound (h : T.History argv₁ o₁ d₀ d₁ es t)
    (hunseen : T.Unseen argv₁ o₁ d₀ (Edit.applyAll d₁ es))
    (hargs : cmdLineStr argv₁ = cmdLineStr argv₂ → argv₁ = argv₂)
    (ho₂ : T.parseCommandLine argv₂ = some o₂) (hdir : o₂.outdir = o₁.outdir)
    (hverdict : T.main argv₂ (Edit.applyAll d₁ es) t' = some .upToDate) :
    ∃ d₂, T.generate argv₂ o₂ (Edit.applyAll d₁ es) t' = some d₂ ∧
      ∀ p ∈ [o₂.tbtopFilePath, o₂.othersFilePath],
        d₂.content p = (Edit.applyAll d₁ es).content p := by
  obtain ⟨hrun, ho₁, hlater, hkept, hsources⟩ := h
  obtain ⟨hlist, hincluded, hcode⟩ := hunseen
  obtain ⟨o, ho, hgen⟩ := main_eq_generated hrun
  obtain rfl := Option.some_inj.mp (ho.symm.trans ho₁)
  obtain ⟨o', ho', hregen⟩ := main_eq_upToDate hverdict
  obtain rfl := Option.some_inj.mp (ho'.symm.trans ho₂)
  obtain ⟨design, inner, outer, text, hdesign, hinner, houter, htext, hsave⟩ :=
    generate_eq_some hgen
  obtain ⟨m, hm, hcmd, hothers, hpaths⟩ := shouldRegen_eq_false hregen
  -- the save file is the one of the first run, so the command lines are the same
  obtain ⟨htop, ⟨mtime, hinfo⟩, hleft⟩ :=
    file_save argv₁ o ((T.sources argv₁ o d₀).map Prod.fst) text d₀ t
  rw [← hsave] at htop hinfo hleft
  have hmetaPath : o'.metaInfoFilePath = o.metaInfoFilePath := by
    rw [TbOptions.metaInfoFilePath, hdir, TbOptions.metaInfoFilePath]
  have hm' := Disk.content_of_file hinfo
  have hsame := Edit.file_applyAll_of_not_on (d := d₁) fun e he => (hkept e he).2
  rw [hmetaPath, Disk.content_congr hsame, hm', Option.some_inj] at hm
  obtain rfl := Content.info.inj hm
  obtain rfl := hargs hcmd
  obtain rfl := Option.some_inj.mp (ho.symm.trans ho')
  clear hmetaPath hargs hdir hsame hm' hm
  -- the sources are those of the first run
  have htop' := Edit.file_applyAll_of_not_on (d := d₁) fun e he => (hkept e he).1
  have hbuffers : T.sources argv₁ o (Edit.applyAll d₁ es) = T.sources argv₁ o d₀ := by
    apply buffers_eq hlater (htop'.trans htop) rfl
    · exact hlist fun p hp => (hpaths p hp).1
    · intro x hx
      have hhas := Disk.has_of_content (content_of_mem_buffers hx)
      exact hleft x.1 (.inl hhas) (hsources x hx).1 (hsources x hx).2
    · intro x hx
      exact (hpaths x.1 (List.mem_map_of_mem hx)).2
  have hcode' : ∀ p ∈ [o.customCodeFile, o.customCodeOuterFile],
      customCode (Edit.applyAll d₁ es) p = customCode d₀ p := by
    intro p hp
    rw [customCode, customCode, hcode p hp]
  have hgen' : T.generate argv₁ o (Edit.applyAll d₁ es) t' =
      some (save argv₁ o ((T.sources argv₁ o d₀).map Prod.fst) text (Edit.applyAll d₁ es) t') := by
    rw [generate, hbuffers, Reading.run_congr hincluded, hdesign, hcode' _ List.mem_cons_self, hinner,
      hcode' _ (List.mem_cons_of_mem _ List.mem_cons_self), houter]
    dsimp only [Option.bind_eq_bind, Option.bind_some]
    rw [htext]
    rfl
  refine ⟨_, hgen', ?_⟩
  obtain ⟨htop₂, -, hleft₂⟩ := file_save argv₁ o ((T.sources argv₁ o d₀).map Prod.fst) text
    (Edit.applyAll d₁ es) t'
  have htop₂' : (save argv₁ o ((T.sources argv₁ o d₀).map Prod.fst) text (Edit.applyAll d₁ es)
      t').content o.tbtopFilePath = (Edit.applyAll d₁ es).content o.tbtopFilePath := by
    rw [Disk.content_of_file htop₂, Disk.content_of_file (htop'.trans htop)]
  intro p hp
  rcases List.mem_cons.mp hp with rfl | hp
  · exact htop₂'
  · obtain rfl := List.mem_singleton.mp hp
    by_cases hsame : o.othersFilePath = o.tbtopFilePath
    · rw [hsame]
      exact htop₂'
    · exact Disk.content_congr (hleft₂ _ (.inl hothers) hsame (others_ne_metaInfo o))

end Testbench

end Verilua.Regen
