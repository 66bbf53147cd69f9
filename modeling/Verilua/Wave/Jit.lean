import Verilua.Lib.TransitionSystem
import Verilua.Wave.Agree

/-!
# Reads through the window

`vpi_get_value` of a signal at the cursor: from the window that the JIT worker has compiled where it
holds the index, and else from the waveform.
-/

namespace Verilua.Wave

/-- A signal of the waveform: what the backend finds at each index. -/
structure Signal where
  bitSize : Nat
  found : Nat → Found
  bitSize_found : ∀ idx, (found idx).bitSize = bitSize

/-- The entry of `optValueVec` for an index. -/
def Signal.optValue (sig : Signal) (idx : Nat) : UInt32 := (sig.found idx).optValue

/-- The part of a signal handle that the JIT worker writes. -/
structure Window where
  optBaseIdx : Nat
  optFinishIdx : Nat
  optValueVec : List UInt32
  deriving DecidableEq, Repr

namespace Window

/-- The test of `vpi_get_value`. -/
def Covers (w : Window) (idx : Nat) : Prop := w.optBaseIdx ≤ idx ∧ idx < w.optFinishIdx

instance (w : Window) (idx : Nat) : Decidable (w.Covers idx) :=
  inferInstanceAs (Decidable (_ ∧ _))

/-- `optValueVec[idx - optBaseIdx]` -/
def entry? (w : Window) (idx : Nat) : Option UInt32 := w.optValueVec[idx - w.optBaseIdx]?

/-- The worker has compiled the value at the index. -/
def Holds (w : Window) (sig : Signal) (idx : Nat) : Prop :=
  w.Covers idx ∧ w.entry? idx = some (sig.optValue idx)

end Window

def vpiGetValue (w : Window) (sig : Signal) (idx : Nat) (format : Format) : Value :=
  if w.Covers idx then readFromOpt sig.bitSize ((w.entry? idx).getD 0) format
  else (sig.found idx).read format

variable {w : Window} {sig : Signal} {idx : Nat} {format : Format}

/-- A signal that keeps a value `sel[7:0]`. -/
def constant (retVC : List Bit) : Signal := ⟨retVC.length, fun _ => .fsdb retVC, fun _ => rfl⟩

/-- 165 fills both digits of eight bits. -/
def sel165 : Signal := constant [.one, .zero, .one, .zero, .zero, .one, .zero, .one]

/-- 5 does not. -/
def sel5 : Signal := constant [.zero, .zero, .zero, .zero, .zero, .one, .zero, .one]

end Verilua.Wave

/-!
### The JIT worker

A signal handle of `wave_vpi`, its `optThread`, and the main thread that moves the cursor and reads
the signal, in the steps that the other thread can observe: each load and store of `optBaseIdx` and
`optFinishIdx`, each entry of `optValueVec` and each resize.
-/

namespace Verilua.Wave

open TransitionSystem

/-- `USE_FSDB` or not. -/
inductive Backend
  | wellen
  | fsdb
  deriving DecidableEq, Repr

/-- `jit_options`, the backend, and `cursor.maxIndex`. -/
structure JitOptions where
  backend : Backend
  maxIndex : Nat
  hotAccessThreshold : Nat
  compileWindowSize : Nat
  recompileWindowSize : Nat

namespace JitOptions

variable (opt : JitOptions)

/-- `cursor.maxIndex`, or with FSDB `xtagVec.size()`. -/
def limit : Nat :=
  match opt.backend with
  | .wellen => opt.maxIndex
  | .fsdb => opt.maxIndex + 1

/-- Where a compilation from `start` ends. -/
def optFinishIdx (start : Nat) : Nat :=
  if opt.limit ≤ start + opt.compileWindowSize then opt.maxIndex else start + opt.compileWindowSize

def optFinish (start : Nat) : Bool := decide (opt.limit ≤ start + opt.compileWindowSize)

end JitOptions

/-- What the worker does next. `start` is `optStartIdx`, and `first` tells the first compilation
from the continuations. -/
inductive Worker
  | off
  | started
  | initBase (start : Nat)
  | initResize (start : Nat)
  /-- The loop of `optFunc`. -/
  | fill (first : Bool) (start idx : Nat)
  /-- The progressive update of `optFinishIdx`, after the entry of `idx`. -/
  | progress (first : Bool) (start idx : Nat)
  | compiled (start : Nat)
  | waiting
  | slideReset (start : Nat)
  | slideBase (start : Nat)
  | slideResize (start : Nat)
  | done
  deriving DecidableEq, Repr

/-- Where `vpi_get_value` is, with what it has loaded of `optFinishIdx` and `optBaseIdx`. -/
inductive Reader
  | idle
  | finishLoaded (finish : Nat)
  | requesting (base finish : Nat)
  | fetching (base finish : Nat)
  deriving DecidableEq, Repr

/-- A read that has been served from the window. -/
structure Served where
  idx : Nat
  loadedBase : Nat
  loadedFinish : Nat
  /-- `optBaseIdx` when the entry is read. -/
  optBaseIdx : Nat
  /-- `none` is beyond the end of `optValueVec`. -/
  entry : Option UInt32
  deriving DecidableEq, Repr

structure Jit where
  window : Window
  cursor : Nat
  readCnt : Nat
  doOpt : Bool
  continueOpt : Bool
  vpiControlTerminate : Bool
  worker : Worker
  reader : Reader
  /-- Newest first. -/
  served : List Served

namespace Jit

def init : Jit where
  window := ⟨0, 0, []⟩
  cursor := 0
  readCnt := 0
  doOpt := false
  continueOpt := false
  vpiControlTerminate := false
  worker := .off
  reader := .idle
  served := []

inductive Act
  /-- `wave_vpi_ctrl_set_cursor_*` -/
  | setCursor (idx : Nat)
  /-- `cursor.index++` of the main loop. -/
  | advance
  | terminate
  /-- `vpi_get_value` up to the load of `optFinishIdx`; `threadFree` is whether `optThreadCnt`
  permits one more thread. -/
  | getValue (threadFree : Bool)
  /-- The next step of the `vpi_get_value` in progress. -/
  | reader
  /-- The next step of the worker. -/
  | worker
  deriving DecidableEq

variable (opt : JitOptions) (sig : Signal) (s : Jit)

/-- `std::vector::resize` -/
def resize (s : Jit) (n : Nat) : Jit :=
  let vec := s.window.optValueVec
  { s with window.optValueVec := vec.take n ++ List.replicate (n - vec.length) 0 }

def setBase (s : Jit) (base : Nat) : Jit := { s with window.optBaseIdx := base }

def setFinish (s : Jit) (finish : Nat) : Jit := { s with window.optFinishIdx := finish }

def setEntry (s : Jit) (idx : Nat) (value : UInt32) : Jit :=
  { s with window.optValueVec := s.window.optValueVec.set (idx - s.window.optBaseIdx) value }

def goto (s : Jit) (worker : Worker) : Jit := { s with worker := worker }

/-- `optStartIdx` of a continuation. -/
def optStartIdx : Nat := max s.cursor s.window.optFinishIdx

/-- `neededEnd > optValueVec.size()` -/
def slides : Bool :=
  decide (s.window.optValueVec.length <
    opt.optFinishIdx s.optStartIdx - s.window.optBaseIdx)

def workerStep : Option Jit :=
  match s.worker with
  | .off | .done => none
  | .started =>
    some (if s.vpiControlTerminate then s.goto .done else s.goto (.initBase s.cursor))
  | .initBase start => some ((s.setBase start).goto (.initResize start))
  | .initResize start =>
    some ((s.resize (min (opt.compileWindowSize * 2) opt.limit)).goto (.fill true start start))
  | .fill first start idx =>
    if idx < opt.optFinishIdx start then
      some ((s.setEntry idx (sig.optValue idx)).goto
        (if (idx - start + 1) % 1024 = 0 then .progress first start idx
          else .fill first start (idx + 1)))
    else
      some ((s.setFinish (opt.optFinishIdx start)).goto
        (if first then .waiting else .compiled start))
  | .progress first start idx => some ((s.setFinish (idx + 1)).goto (.fill first start (idx + 1)))
  | .compiled start =>
    some (goto { s with continueOpt := false } (if opt.optFinish start then .done else .waiting))
  | .waiting =>
    if s.continueOpt then
      some (s.goto (if s.slides opt then .slideReset s.optStartIdx
        else .fill false s.optStartIdx s.optStartIdx))
    else none
  | .slideReset start => some ((s.setFinish 0).goto (.slideBase start))
  | .slideBase start => some ((s.setBase start).goto (.slideResize start))
  | .slideResize start =>
    some ((s.resize (min (opt.compileWindowSize * 2) (opt.limit - start))).goto
      (.fill false start start))

/-- The slow path of a read, which starts the worker when the signal is hot. -/
def readSlow (threadFree : Bool) : Jit :=
  if s.doOpt then s
  else if opt.hotAccessThreshold ≤ s.readCnt + 1 ∧ threadFree then
    { s with readCnt := s.readCnt + 1, doOpt := true, continueOpt := false, worker := .started }
  else { s with readCnt := s.readCnt + 1 }

/-- `_optFinishIdx - recompileWindowSize` is unsigned. -/
def nearFinish (finish : Nat) : Bool :=
  decide (opt.recompileWindowSize ≤ finish ∧ finish - opt.recompileWindowSize ≤ s.cursor)

def readerStep : Option Jit :=
  match s.reader with
  | .idle => none
  | .finishLoaded finish =>
    if s.cursor < s.window.optBaseIdx ∨ finish ≤ s.cursor then some { s with reader := .idle }
    else some { s with reader := .requesting s.window.optBaseIdx finish }
  | .requesting base finish =>
    some { s with
      reader := .fetching base finish
      continueOpt := s.continueOpt || s.nearFinish opt finish }
  | .fetching base finish =>
    some { s with
      reader := .idle
      served := ⟨s.cursor, base, finish, s.window.optBaseIdx,
        s.window.optValueVec[s.cursor - base]?⟩ :: s.served }

/-- The main thread moves the cursor between reads; `WaveVpiCtrl` keeps it below `maxIndex`. -/
def step (s : Jit) : Act → Option Jit
  | .setCursor idx =>
    if s.reader = .idle ∧ idx < opt.maxIndex then some { s with cursor := idx } else none
  | .advance =>
    if s.reader = .idle ∧ s.cursor < opt.maxIndex then some { s with cursor := s.cursor + 1 }
    else none
  | .terminate => some { s with vpiControlTerminate := true }
  | .getValue threadFree =>
    if s.reader = .idle then
      some (if s.doOpt ∧ 0 < s.window.optFinishIdx then
        { s with reader := .finishLoaded s.window.optFinishIdx } else s.readSlow opt threadFree)
    else none
  | .reader => s.readerStep opt
  | .worker => s.workerStep opt sig

/-- The states reached from the start by steps that satisfy `ok`. -/
abbrev Reached (ok : Jit → Act → Prop) : Jit → Prop := Reach (step opt sig) ok init

end Jit

/-- The index lies in the window whose bounds were loaded, that window is still the current one, and
the entry is the value of the signal. -/
def Served.Sound (sig : Signal) (e : Served) : Prop :=
  e.loadedBase ≤ e.idx ∧ e.idx < e.loadedFinish ∧ e.optBaseIdx = e.loadedBase ∧
    e.entry = some (sig.optValue e.idx)

end Verilua.Wave
