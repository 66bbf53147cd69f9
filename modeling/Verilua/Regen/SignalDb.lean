import Verilua.Regen.Testbench

/-!
# When the signal database is made again

The decision of `signal_db_gen`, and what a run leaves on the disk. The text of the database is a
parameter: it is made from the command line and the design.
-/

namespace Verilua.Regen

open Files

/-- What is saved next to the database and read again. -/
structure DbMeta where
  outfile : Text
  cmdLine : Text
  filelist : List Text
deriving DecidableEq

structure DbOptions where
  outfile : Option Text
  signalDBFile : Option Text
  nocache : Bool
  showHelp : Bool

/-- The tool is run from a shell, or called with one string. -/
inductive DbCmd
  | argv (args : List Text)
  | argList (s : Text)
deriving DecidableEq

def DbCmd.cmdLineStr : DbCmd → Text
  | argv args => Regen.cmdLineStr args
  | argList s => s

structure SignalDb (Design : Type) extends Driver DbCmd DbMeta DbOptions Design where
  /-- the text of the database -/
  encode : DbCmd → Design → Option Text

/-- `std::filesystem::path::parent_path` -/
def parentPath (path : Text) : Text :=
  let dir := (path.reverse.dropWhile (· ≠ '/')).reverse
  let stem := (dir.reverse.dropWhile (· = '/')).reverse
  if stem = [] then dir.take 1 else stem

namespace DbOptions

variable (o : DbOptions)

def outFile : Text := o.outfile.getD "./signal_db.ldb".toList

def outputDir : Text := parentPath o.outFile

def metaInfoFilePath : Text := o.outputDir ++ "/signal_db_gen.meta.json".toList

end DbOptions

namespace SignalDb

variable {Design : Type} (T : SignalDb Design)

/-- The sources of a run. -/
def sources (cmd : DbCmd) (d : Storage DbMeta) : List (Text × Content DbMeta) :=
  buffers T.toDriver d cmd []

/-- What was saved is not that of this run, or a source is newer than the database. -/
def isOutdated (cmd : DbCmd) (o : DbOptions) (d : Storage DbMeta) (files : List Text)
    (m : DbMeta) : Bool :=
  if m.outfile ≠ o.outFile then true
  else if m.cmdLine ≠ cmd.cmdLineStr then true
  else if files.any (isFileNewer d · o.outFile) then true
  else if m.filelist ≠ files then true
  else false

/-- The answer, and the disk with the directory of the database. A saved file that cannot be parsed
is an exception. -/
def checkForRegenerate (cmd : DbCmd) (o : DbOptions) (d : Storage DbMeta) :
    Option (Bool × Storage DbMeta) :=
  let files := (T.sources cmd d).map Prod.fst
  if o.nocache then some (true, d)
  else if !d.has o.outputDir then some (true, d.mkdir o.outputDir)
  else if !d.has o.metaInfoFilePath then some (true, d)
  else if !d.has o.outFile then some (true, d)
  else
    match d.content o.metaInfoFilePath with
    | none => some (true, d)
    | some (.text _) => none
    | some (.info m) => some (isOutdated cmd o d files m, d)

/-- The database of a run, and what is kept for the next one. -/
def save (cmd : DbCmd) (o : DbOptions) (paths : List Text) (text : Text) (d : Storage DbMeta)
    (now : Nat) : Storage DbMeta :=
  (d.write o.outFile (.text text) now).write o.metaInfoFilePath
    (.info ⟨o.outFile, cmd.cmdLineStr, paths⟩) now

/-- `generateSignalDB`, with the compilation that it asks for. -/
def generate (cmd : DbCmd) (o : DbOptions) (d : Storage DbMeta) (now : Nat) :
    Option (Storage DbMeta) := do
  let sources := T.sources cmd d
  let design ← (T.runFullCompilation cmd sources).run d.content
  let text ← T.encode cmd design
  return save cmd o (sources.map Prod.fst) text d now

/-- How a run may end. -/
inductive Outcome
  | help
  | upToDate
  | printed
  | generated (d : Storage DbMeta)

/-- A run that fails is `none`. -/
def main (cmd : DbCmd) (d : Storage DbMeta) (now : Nat) : Option Outcome := do
  let o ← T.parseCommandLine cmd
  if o.showHelp then return .help
  let (regenerate, d) ← T.checkForRegenerate cmd o d
  if !regenerate then return .upToDate
  if o.signalDBFile.isSome then return .printed
  let d ← T.generate cmd o d now
  return .generated d

/-! ### The verdict -/

variable {T} {cmd cmd₁ cmd₂ : DbCmd} {paths : List Text} {text p : Text} {o o₁ o₂ : DbOptions}
  {d d' d₀ d₁ : Storage DbMeta} {now t t' : Nat} {b : Bool}

lemma isOutdated_eq_false {m : DbMeta} (h : isOutdated cmd o d paths m = false) :
    m = ⟨o.outFile, cmd.cmdLineStr, paths⟩ ∧ ∀ p ∈ paths, isFileNewer d p o.outFile = false := by
  rw [isOutdated] at h
  split_ifs at h with hout hcmd hnewer hlist
  obtain ⟨outfile, cmdLine, filelist⟩ := m
  dsimp only at hout hcmd hlist
  refine ⟨?_, fun p hp => ?_⟩
  · rw [not_not.mp hout, not_not.mp hcmd, not_not.mp hlist]
  · rw [← Bool.not_eq_true]
    exact fun hp' => hnewer (List.any_eq_true.mpr ⟨p, hp, hp'⟩)

/-- The disk is the old one, or a directory is made and the answer is yes. The answer no is given for
a save file that is not outdated. -/
lemma checkForRegenerate_cases (h : T.checkForRegenerate cmd o d = some (b, d')) :
    (b = true ∧ d' = d.mkdir o.outputDir) ∨ (b = true ∧ d' = d) ∨
      ∃ m, d' = d ∧ d.content o.metaInfoFilePath = some (.info m) ∧
        b = isOutdated cmd o d ((T.sources cmd d).map Prod.fst) m := by
  rw [checkForRegenerate] at h
  split at h
  · obtain ⟨rfl, rfl⟩ := Prod.mk.inj (Option.some_inj.mp h)
    exact .inr (.inl ⟨rfl, rfl⟩)
  split at h
  · obtain ⟨rfl, rfl⟩ := Prod.mk.inj (Option.some_inj.mp h)
    exact .inl ⟨rfl, rfl⟩
  split at h
  · obtain ⟨rfl, rfl⟩ := Prod.mk.inj (Option.some_inj.mp h)
    exact .inr (.inl ⟨rfl, rfl⟩)
  split at h
  · obtain ⟨rfl, rfl⟩ := Prod.mk.inj (Option.some_inj.mp h)
    exact .inr (.inl ⟨rfl, rfl⟩)
  split at h
  case h_1 =>
    obtain ⟨rfl, rfl⟩ := Prod.mk.inj (Option.some_inj.mp h)
    exact .inr (.inl ⟨rfl, rfl⟩)
  case h_2 => cases h
  case h_3 m hm =>
    obtain ⟨rfl, rfl⟩ := Prod.mk.inj (Option.some_inj.mp h)
    exact .inr (.inr ⟨m, rfl, hm, rfl⟩)

lemma file_checkForRegenerate (h : T.checkForRegenerate cmd o d = some (b, d')) :
    d'.file = d.file := by
  rcases checkForRegenerate_cases h with ⟨-, rfl⟩ | ⟨-, rfl⟩ | ⟨m, rfl, -⟩
  · rfl
  · rfl
  · rfl

lemma checkForRegenerate_eq_false (h : T.checkForRegenerate cmd o d = some (false, d')) :
    d.content o.metaInfoFilePath =
      some (.info ⟨o.outFile, cmd.cmdLineStr, (T.sources cmd d).map Prod.fst⟩) ∧
      ∀ p ∈ (T.sources cmd d).map Prod.fst, isFileNewer d p o.outFile = false := by
  rcases checkForRegenerate_cases h with ⟨hb, -⟩ | ⟨hb, -⟩ | ⟨m, -, hm, hb⟩
  · cases hb
  · cases hb
  · obtain ⟨rfl, hnewer⟩ := isOutdated_eq_false hb.symm
    exact ⟨hm, hnewer⟩

lemma main_eq_generated (h : T.main cmd d now = some (.generated d₁)) :
    ∃ o d', T.parseCommandLine cmd = some o ∧ d'.file = d.file ∧
      T.generate cmd o d' now = some d₁ := by
  obtain ⟨o, ho, h⟩ := Option.bind_eq_some_iff.mp h
  split at h
  case isTrue => cases h
  case isFalse =>
    obtain ⟨⟨regenerate, d'⟩, hcheck, h⟩ := Option.bind_eq_some_iff.mp h
    dsimp only at h
    split_ifs at h
    · cases h
    · cases h
    · obtain ⟨d'', hgen, h⟩ := Option.bind_eq_some_iff.mp h
      cases Option.some_inj.mp h
      exact ⟨o, d', ho, file_checkForRegenerate hcheck, hgen⟩

lemma main_eq_upToDate (h : T.main cmd d now = some .upToDate) :
    ∃ o d', T.parseCommandLine cmd = some o ∧
      T.checkForRegenerate cmd o d = some (false, d') := by
  obtain ⟨o, ho, h⟩ := Option.bind_eq_some_iff.mp h
  split at h
  case isTrue => cases h
  case isFalse =>
    obtain ⟨⟨regenerate, d'⟩, hcheck, h⟩ := Option.bind_eq_some_iff.mp h
    dsimp only at h
    split_ifs at h with hregen
    · rw [Bool.not_eq_true'] at hregen
      exact ⟨o, d', ho, hregen ▸ hcheck⟩
    · cases h
    · obtain ⟨d'', -, h⟩ := Option.bind_eq_some_iff.mp h
      cases Option.some_inj.mp h

lemma generate_eq_some (h : T.generate cmd o d now = some d₁) :
    ∃ design text, (T.runFullCompilation cmd (T.sources cmd d)).run d.content = some design ∧
      T.encode cmd design = some text ∧
      d₁ = save cmd o ((T.sources cmd d).map Prod.fst) text d now := by
  obtain ⟨design, hdesign, h⟩ := Option.bind_eq_some_iff.mp h
  obtain ⟨text, htext, h⟩ := Option.bind_eq_some_iff.mp h
  exact ⟨design, text, hdesign, htext, (Option.some_inj.mp h).symm⟩

lemma file_save (cmd : DbCmd) (o : DbOptions) (paths : List Text) (text : Text) :
    (∃ c, ∀ d now, (save cmd o paths text d now).file o.outFile = some ⟨c, now⟩) ∧
    (∀ d now, (save cmd o paths text d now).file o.metaInfoFilePath =
      some ⟨.info ⟨o.outFile, cmd.cmdLineStr, paths⟩, now⟩) ∧
    ∀ d now p, p ≠ o.outFile → p ≠ o.metaInfoFilePath →
      (save cmd o paths text d now).file p = d.file p := by
  refine ⟨?_, fun d now => Disk.file_write_self _ _ _ _, fun d now p hout hmeta => ?_⟩
  · by_cases hsame : o.outFile = o.metaInfoFilePath
    · refine ⟨.info ⟨o.outFile, cmd.cmdLineStr, paths⟩, fun d now => ?_⟩
      rw [save]
      exact hsame ▸ Disk.file_write_self _ _ _ _
    · refine ⟨.text text, fun d now => ?_⟩
      rw [save, Disk.file_write_of_ne hsame, Disk.file_write_self]
  · rw [save, Disk.file_write_of_ne hmeta, Disk.file_write_of_ne hout]

/-! ### Soundness -/

variable {es : List (Edit Text (Content DbMeta))}

/-- A run that makes the database, and later edits of other files. -/
structure History (T : SignalDb Design) (cmd : DbCmd) (o : DbOptions) (d₀ d₁ : Storage DbMeta)
    (es : List (Edit Text (Content DbMeta))) (t : Nat) : Prop where
  generated : T.main cmd d₀ t = some (.generated d₁)
  options : T.parseCommandLine cmd = some o
  later : ∀ e ∈ es, e.LaterThan t
  kept : ∀ e ∈ es, ¬e.On o.outFile ∧ ¬e.On o.metaInfoFilePath
  sources : ∀ x ∈ T.sources cmd d₀, x.1 ≠ o.outFile ∧ x.1 ≠ o.metaInfoFilePath

/-- What the decision does not look at is the same: the files that are included. -/
def Unseen (T : SignalDb Design) (cmd : DbCmd) (d₀ d₂ : Storage DbMeta) : Prop :=
  ∀ p ∈ (T.runFullCompilation cmd (T.sources cmd d₀)).asked d₀.content,
    d₂.content p = d₀.content p

/-- A verdict that the database need not be made again is right if what is not looked at is the
same. -/
theorem upToDate_sound (h : T.History cmd₁ o₁ d₀ d₁ es t)
    (hunseen : T.Unseen cmd₁ d₀ (Edit.applyAll d₁ es))
    (hargs : cmd₁.cmdLineStr = cmd₂.cmdLineStr → cmd₁ = cmd₂)
    (ho₂ : T.parseCommandLine cmd₂ = some o₂) (hdir : o₂.outputDir = o₁.outputDir)
    (hverdict : T.main cmd₂ (Edit.applyAll d₁ es) t' = some .upToDate) :
    ∃ d₂, T.generate cmd₂ o₂ (Edit.applyAll d₁ es) t' = some d₂ ∧
      d₂.content o₂.outFile = (Edit.applyAll d₁ es).content o₂.outFile := by
  obtain ⟨hrun, ho₁, hlater, hkept, hsources⟩ := h
  obtain ⟨o, d', ho, hfile, hgen⟩ := main_eq_generated hrun
  obtain rfl := Option.some_inj.mp (ho.symm.trans ho₁)
  obtain ⟨o', d'', ho', hcheck⟩ := main_eq_upToDate hverdict
  obtain rfl := Option.some_inj.mp (ho'.symm.trans ho₂)
  obtain ⟨design, text, hdesign, htext, hsave⟩ := generate_eq_some hgen
  obtain ⟨hm, hnewer⟩ := checkForRegenerate_eq_false hcheck
  have hcontent : d'.content = d₀.content := funext fun p => by
    rw [Disk.content, hfile, Disk.content]
  have hold : T.sources cmd₁ d' = T.sources cmd₁ d₀ := by
    rw [sources, buffers, hcontent, sources, buffers]
  rw [hold, hcontent] at hdesign
  rw [hold] at hsave
  -- the save file is the one of the first run
  obtain ⟨⟨c, hout⟩, hinfo, hleft⟩ := file_save cmd₁ o ((T.sources cmd₁ d₀).map Prod.fst) text
  have hmetaPath : o'.metaInfoFilePath = o.metaInfoFilePath := by
    rw [DbOptions.metaInfoFilePath, hdir, DbOptions.metaInfoFilePath]
  have hsame := Edit.file_applyAll_of_not_on (d := d₁) fun e he => (hkept e he).2
  have hinfo₁ := Disk.content_of_file (hsave ▸ hinfo d' t)
  rw [hmetaPath, Disk.content_congr hsame, hinfo₁, Option.some_inj] at hm
  obtain ⟨-, hcmd, hpaths⟩ := DbMeta.mk.inj (Content.info.inj hm)
  obtain rfl := hargs hcmd
  obtain rfl := Option.some_inj.mp (ho.symm.trans ho')
  have hout' := Edit.file_applyAll_of_not_on (d := d₁) fun e he => (hkept e he).1
  have hout₁ : d₁.file o.outFile = some ⟨c, t⟩ := hsave ▸ hout d' t
  have hbuffers : T.sources cmd₁ (Edit.applyAll d₁ es) = T.sources cmd₁ d₀ := by
    apply buffers_eq hlater (hout'.trans hout₁) rfl hpaths.symm
    · intro x hx
      rw [hsave, hleft d' t x.1 (hsources x hx).1 (hsources x hx).2, hfile]
    · intro x hx
      exact hnewer x.1 (List.mem_map_of_mem hx)
  have hgen' : T.generate cmd₁ o (Edit.applyAll d₁ es) t' =
      some (save cmd₁ o ((T.sources cmd₁ d₀).map Prod.fst) text (Edit.applyAll d₁ es) t') := by
    rw [generate, hbuffers, Reading.run_congr hunseen, hdesign]
    dsimp only [Option.bind_eq_bind, Option.bind_some]
    rw [htext]
    rfl
  refine ⟨_, hgen', ?_⟩
  rw [Disk.content_of_file (hout _ t'), Disk.content_of_file (hout'.trans hout₁)]

end SignalDb

end Verilua.Regen
