import Mathlib.Data.List.Dedup
import Mathlib.Logic.Function.Basic

/-!
# Backup and split of RTL files

Before the sources are loaded, each is copied to the work directory between two marker lines that
name it. What is printed after the rewrite is one text with the markers in it, and it is split at
them into files of the output directory. A backup and a file of the output are named by the last
component of the path.
-/

namespace Verilua.FileManage

/-- The content of each file, by its path. -/
abbrev FileSystem := List Char → Option (List Char)

def FileSystem.write (fs : FileSystem) (path text : List Char) : FileSystem :=
  Function.update fs path (some text)

def FileSystem.remove (fs : FileSystem) (path : List Char) : FileSystem :=
  Function.update fs path none

/-- The last component of a path. -/
def filename (path : List Char) : List Char := (path.reverse.takeWhile (· ≠ '/')).reverse

/-- A path with this last component may be opened for writing. -/
def IsFileName (name : List Char) : Prop := name ∉ [[], ['.'], ['.', '.']]

instance (name : List Char) : Decidable (IsFileName name) :=
  inferInstanceAs (Decidable (¬ name ∈ [[], ['.'], ['.', '.']]))

def beginMark : List Char := "//BEGIN:".toList

def endMark : List Char := "//END:".toList

/-! ### `backupFile` -/

def targetFile (inputFile workdir : List Char) : List Char :=
  workdir ++ '/' :: (filename inputFile ++ ".bak".toList)

/-- The text of a backup. -/
def wrap (inputFile content : List Char) : List Char :=
  beginMark ++ inputFile ++ '\n' :: content ++ '\n' :: (endMark ++ inputFile ++ ['\n'])

/-- An old backup is removed; to copy a file that is not there is an exception. -/
def backupFile (fs : FileSystem) (inputFile workdir : List Char) :
    Option (FileSystem × List Char) := do
  let fs := fs.remove (targetFile inputFile workdir)
  let content ← fs inputFile
  return (fs.write (targetFile inputFile workdir) (wrap inputFile content),
    targetFile inputFile workdir)

/-- The backups are made one after the other, before any of them is read. -/
def loadAllSources (workdir : List Char) :
    FileSystem → List (List Char) → Option (FileSystem × List (List Char))
  | fs, [] => some (fs, [])
  | fs, file :: files => do
    let (fs, tmpFile) ← backupFile fs file workdir
    let (fs, tmpFiles) ← loadAllSources workdir fs files
    return (fs, tmpFile :: tmpFiles)

def concatenate (fs : FileSystem) (files : List (List Char)) : List Char :=
  files.flatMap fun file => (fs file).getD []

/-! ### `generateNewFile` -/

/-- The lines that `std::getline` reads when `line` has been read of the current one. -/
def getlinesFrom : List Char → List Char → List (List Char)
  | line, [] => if line = [] then [] else [line]
  | line, c :: cs =>
    if c = '\n' then line :: getlinesFrom [] cs else getlinesFrom (line ++ [c]) cs

def getlines (text : List Char) : List (List Char) := getlinesFrom [] text

/-- `failed` is the state of the stream, which an open file may have as well. -/
structure SplitState where
  fs : FileSystem
  outFile : Option (List Char)
  failed : Bool
  buffer : List (List Char)

namespace SplitState

def unlines (lines : List (List Char)) : List Char := lines.flatMap (· ++ ['\n'])

def flushBuffer (σ : SplitState) : SplitState :=
  if σ.buffer = [] then σ
  else
    match σ.outFile with
    | none => σ
    | some file =>
      if σ.failed then { σ with buffer := [] }
      else
        { σ with
          fs := σ.fs.write file ((σ.fs file).getD [] ++ unlines σ.buffer)
          buffer := [] }

/-- A stream that has a file open does not open another one; it fails, and keeps its file. -/
def openFile (σ : SplitState) (file : List Char) : Option SplitState :=
  if σ.outFile.isSome then some { σ with failed := true }
  else if IsFileName (filename file) then
    some { σ with fs := σ.fs.write file [], outFile := some file, failed := false }
  else none

def close (σ : SplitState) : SplitState := { σ with outFile := none }

end SplitState

def outPath (newPath path : List Char) : List Char :=
  if newPath = [] then path else newPath ++ '/' :: filename path

/-- The body of the loop over the lines. -/
def splitLine (newPath : List Char) (σ : SplitState) (line : List Char) : Option SplitState :=
  if beginMark <+: line then σ.flushBuffer.openFile (outPath newPath (line.drop 8))
  else if endMark <+: line then some σ.flushBuffer.close
  else if σ.outFile.isSome then
    let σ := { σ with buffer := σ.buffer ++ [line] }
    some (if 10000 ≤ σ.buffer.length then σ.flushBuffer else σ)
  else some σ

def generateNewFile (fs : FileSystem) (content newPath : List Char) : Option FileSystem := do
  let σ ← (getlines content).foldlM (splitLine newPath)
    { fs, outFile := none, failed := false, buffer := [] }
  return σ.flushBuffer.close.fs

end Verilua.FileManage
