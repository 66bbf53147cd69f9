import Verilua.Wave.Jit

/-!
# Soundness of the window

The entries of the window up to `Jit.compiled` are the values of the signal, in every run in which
the base does not move under a read and a continuation leaves no gap. A read in flight keeps what
its bounds were loaded for, since what the worker may have published, `Jit.front`, never decreases.
-/

namespace Verilua.Wave

open TransitionSystem

variable {opt : JitOptions} {sig : Signal} {s s' : Jit} {w : Window} {worker : Worker}
  {idx start finish base n : Nat}

/-! ### The condition -/

def Reader.pastTest : Reader → Bool
  | .requesting _ _ | .fetching _ _ => true
  | .idle | .finishLoaded _ => false

namespace Jit

/-- The base moves while no read is between its window test and its entry, and a continuation that
does not slide begins where the last compilation ended. -/
def keepsWindow (opt : JitOptions) (s : Jit) : Act → Bool
  | .worker =>
    match s.worker with
    | .slideBase _ => !s.reader.pastTest
    | .waiting =>
      !s.continueOpt || s.slides opt || decide (s.cursor ≤ s.window.optFinishIdx)
    | _ => true
  | _ => true

end Jit

/-! ### Windows -/

namespace Window

/-- The entries from the base up to `n` are the values of the signal. -/
def SoundTo (w : Window) (sig : Signal) (n : Nat) : Prop :=
  ∀ idx, w.optBaseIdx ≤ idx → idx < n → w.entry? idx = some (sig.optValue idx)

/-- An entry that is right stays right. -/
def Extends (w w' : Window) (sig : Signal) : Prop :=
  w'.optBaseIdx = w.optBaseIdx ∧ ∀ idx, w.optBaseIdx ≤ idx →
    w.entry? idx = some (sig.optValue idx) → w'.entry? idx = some (sig.optValue idx)

lemma Extends.refl : w.Extends w sig := ⟨rfl, fun _ _ h => h⟩

lemma SoundTo.mono {m : Nat} (h : w.SoundTo sig n) (hm : m ≤ n) : w.SoundTo sig m :=
  fun idx hb hi => h idx hb (hi.trans_le hm)

lemma SoundTo.of_le (h : n ≤ w.optBaseIdx) : w.SoundTo sig n :=
  fun idx hb hi => absurd (hb.trans_lt hi) (by omega)

end Window

namespace Jit

@[simp] lemma length_resize : (s.resize n).window.optValueVec.length = n := by
  simp only [resize, List.length_append, List.length_take, List.length_replicate]
  omega

@[simp] lemma length_setEntry {value : UInt32} :
    (s.setEntry idx value).window.optValueVec.length = s.window.optValueVec.length :=
  List.length_set

lemma entry?_setEntry {value : UInt32}
    (hn : idx - s.window.optBaseIdx < s.window.optValueVec.length) :
    (s.setEntry idx value).window.entry? idx = some value :=
  List.getElem?_set_self hn

lemma entry?_setEntry_of_ne {value : UInt32} {i : Nat} (hb : s.window.optBaseIdx ≤ idx)
    (hi : s.window.optBaseIdx ≤ i) (hne : i ≠ idx) :
    (s.setEntry idx value).window.entry? i = s.window.entry? i := by
  have hne' : idx - s.window.optBaseIdx ≠ i - s.window.optBaseIdx := by omega
  exact List.getElem?_set_ne hne'

lemma extends_setEntry (hb : s.window.optBaseIdx ≤ idx)
    (hn : idx - s.window.optBaseIdx < s.window.optValueVec.length) :
    s.window.Extends (s.setEntry idx (sig.optValue idx)).window sig := by
  refine ⟨rfl, fun i hi h => ?_⟩
  by_cases heq : i = idx
  · rw [heq]
    exact entry?_setEntry hn
  · rwa [entry?_setEntry_of_ne hb hi heq]

lemma soundTo_setEntry (h : s.window.SoundTo sig idx) (hb : s.window.optBaseIdx ≤ idx)
    (hn : idx - s.window.optBaseIdx < s.window.optValueVec.length) :
    (s.setEntry idx (sig.optValue idx)).window.SoundTo sig (idx + 1) := by
  intro i hi hlt
  by_cases heq : i = idx
  · rw [heq]
    exact entry?_setEntry hn
  · exact (extends_setEntry hb hn).2 i hi (h i hi (by omega))

end Jit

/-! ### Bounds of a compilation -/

lemma JitOptions.le_optFinishIdx (h : start ≤ opt.maxIndex) : start ≤ opt.optFinishIdx start := by
  unfold JitOptions.optFinishIdx
  split_ifs <;> omega

lemma JitOptions.limit_cases : opt.limit = opt.maxIndex ∨ opt.limit = opt.maxIndex + 1 := by
  unfold JitOptions.limit
  cases opt.backend with
  | wellen => exact .inl rfl
  | fsdb => exact .inr rfl

lemma JitOptions.optFinishIdx_le : opt.optFinishIdx start ≤ opt.maxIndex := by
  have hlimit := opt.limit_cases
  unfold JitOptions.optFinishIdx
  split_ifs <;> omega

/-- The allocations of both backends have room for what is compiled. -/
lemma JitOptions.optFinishIdx_sub_le :
    opt.optFinishIdx start - start ≤ min (opt.compileWindowSize * 2) (opt.limit - start) := by
  have hlimit := opt.limit_cases
  unfold JitOptions.optFinishIdx
  split_ifs <;> omega

/-! ### The invariant -/

namespace Jit

/-- How far the entries are right. -/
def compiled (s : Jit) : Nat :=
  match s.worker with
  | .fill _ _ idx => idx
  | .progress _ _ idx => idx + 1
  | _ => s.window.optFinishIdx

/-- A bound of all values that `optFinishIdx` has had. -/
def front (s : Jit) : Nat :=
  match s.worker with
  | .slideReset start | .slideBase start | .slideResize start => start
  | .fill _ _ idx => idx
  | .progress _ _ idx => idx + 1
  | _ => s.window.optFinishIdx

def WorkerOk (opt : JitOptions) (s : Jit) : Prop :=
  match s.worker with
  | .off => s.doOpt = false ∧ s.window.optFinishIdx = 0
  | .started => s.doOpt = true ∧ s.window.optFinishIdx = 0
  | .initBase start => s.doOpt = true ∧ s.window.optFinishIdx = 0 ∧ start ≤ opt.maxIndex
  | .initResize start =>
    s.doOpt = true ∧ s.window.optFinishIdx = 0 ∧ s.window.optBaseIdx = start ∧ start ≤ opt.maxIndex
  | .fill _ start idx =>
    s.doOpt = true ∧ s.window.optBaseIdx ≤ start ∧ start ≤ idx ∧ idx ≤ opt.optFinishIdx start ∧
      opt.optFinishIdx start - s.window.optBaseIdx ≤ s.window.optValueVec.length
  | .progress _ start idx =>
    s.doOpt = true ∧ s.window.optBaseIdx ≤ start ∧ start ≤ idx ∧ idx < opt.optFinishIdx start ∧
      opt.optFinishIdx start - s.window.optBaseIdx ≤ s.window.optValueVec.length
  | .compiled _ | .waiting => s.doOpt = true ∧ s.window.optBaseIdx ≤ s.window.optFinishIdx
  | .slideReset start =>
    s.doOpt = true ∧ s.window.optFinishIdx ≤ start ∧ start ≤ opt.maxIndex
  | .slideBase start => s.doOpt = true ∧ s.window.optFinishIdx = 0 ∧ start ≤ opt.maxIndex
  | .slideResize start =>
    s.doOpt = true ∧ s.window.optFinishIdx = 0 ∧ s.window.optBaseIdx = start ∧ start ≤ opt.maxIndex
  | .done => s.doOpt = true

/-- A read in flight: if its window test succeeds, or has succeeded, then its entry is right. -/
def ReaderOk (sig : Signal) (s : Jit) : Prop :=
  match s.reader with
  | .idle => True
  | .finishLoaded finish => finish ≤ s.front ∧
      (s.cursor < finish → s.window.optBaseIdx ≤ s.cursor →
        s.window.entry? s.cursor = some (sig.optValue s.cursor))
  | .requesting base finish | .fetching base finish =>
    finish ≤ s.front ∧ base = s.window.optBaseIdx ∧ base ≤ s.cursor ∧ s.cursor < finish ∧
      s.window.entry? s.cursor = some (sig.optValue s.cursor)

structure Inv (opt : JitOptions) (sig : Signal) (s : Jit) : Prop where
  cursor : s.cursor ≤ opt.maxIndex
  finish_le : s.window.optFinishIdx ≤ opt.maxIndex
  worker : s.WorkerOk opt
  finish_compiled : s.window.optFinishIdx ≤ s.compiled
  soundTo : s.window.SoundTo sig s.compiled
  reader : s.ReaderOk sig
  served : ∀ e ∈ s.served, e.Sound sig

lemma compiled_le_front (h : s.WorkerOk opt) : s.compiled ≤ s.front := by
  unfold WorkerOk at h
  unfold compiled front
  cases hw : s.worker <;> simp only [hw] at h ⊢ <;> omega

lemma ReaderOk.mono (h : s.ReaderOk sig) (hr : s'.reader = s.reader) (hc : s'.cursor = s.cursor)
    (hw : s.window.Extends s'.window sig) (hf : s.front ≤ s'.front) : s'.ReaderOk sig := by
  unfold ReaderOk at h ⊢
  rw [hr, hc, hw.1]
  cases hreader : s.reader with
  | idle => trivial
  | finishLoaded finish =>
    rw [hreader] at h
    exact ⟨h.1.trans hf, fun hlt hle => hw.2 _ hle (h.2 hlt hle)⟩
  | requesting base finish | fetching base finish =>
    rw [hreader] at h
    obtain ⟨hfin, rfl, hle, hlt, hentry⟩ := h
    exact ⟨hfin.trans hf, rfl, hle, hlt, hw.2 _ hle hentry⟩

/-- The window may change under a read that has not come to its window test, if it is to fail. -/
lemma ReaderOk.rebase (h : s.ReaderOk sig) (hr : s'.reader = s.reader) (hc : s'.cursor = s.cursor)
    (htest : s.reader.pastTest = false) (hf : s.front ≤ s'.front)
    (hb : s.front ≤ s'.window.optBaseIdx) : s'.ReaderOk sig := by
  unfold ReaderOk at h ⊢
  rw [hr, hc]
  cases hreader : s.reader with
  | idle => trivial
  | finishLoaded finish =>
    rw [hreader] at h
    exact ⟨h.1.trans hf, fun hlt hle => absurd h.1 (by omega)⟩
  | requesting base finish | fetching base finish => simp [hreader, Reader.pastTest] at htest

lemma ReaderOk.not_pastTest (h : s.ReaderOk sig) (hb : s.front ≤ s.window.optBaseIdx) :
    s.reader.pastTest = false := by
  unfold ReaderOk at h
  cases hreader : s.reader with
  | idle | finishLoaded => rfl
  | requesting base finish | fetching base finish =>
    rw [hreader] at h
    obtain ⟨hfin, rfl, hle, hlt, -⟩ := h
    omega

/-! ### What the worker preserves -/

lemma Inv.rebase (h : Inv opt sig s) (hr : s'.reader = s.reader) (hc : s'.cursor = s.cursor)
    (hserved : s'.served = s.served) (htest : s.reader.pastTest = false)
    (hfin : s'.window.optFinishIdx ≤ opt.maxIndex) (hw : s'.WorkerOk opt)
    (hfc : s'.window.optFinishIdx ≤ s'.compiled) (hf : s.front ≤ s'.front)
    (hb : s.front ≤ s'.window.optBaseIdx) (hcompiled : s'.compiled ≤ s'.window.optBaseIdx) :
    Inv opt sig s' where
  cursor := hc ▸ h.cursor
  finish_le := hfin
  worker := hw
  finish_compiled := hfc
  soundTo := .of_le hcompiled
  reader := h.reader.rebase hr hc htest hf hb
  served := hserved ▸ h.served

lemma Inv.extends (h : Inv opt sig s) (hr : s'.reader = s.reader) (hc : s'.cursor = s.cursor)
    (hserved : s'.served = s.served) (hext : s.window.Extends s'.window sig)
    (hfin : s'.window.optFinishIdx ≤ opt.maxIndex) (hw : s'.WorkerOk opt)
    (hfc : s'.window.optFinishIdx ≤ s'.compiled) (hf : s.front ≤ s'.front)
    (hsound : s'.window.SoundTo sig s'.compiled) : Inv opt sig s' where
  cursor := hc ▸ h.cursor
  finish_le := hfin
  worker := hw
  finish_compiled := hfc
  soundTo := hsound
  reader := h.reader.mono hr hc hext hf
  served := hserved ▸ h.served

lemma Inv.optStartIdx_le (h : Inv opt sig s) : s.optStartIdx ≤ opt.maxIndex :=
  max_le h.cursor h.finish_le

lemma Inv.continues (h : Inv opt sig s) (hw : s.worker = .waiting)
    (hgap : s.slides opt = true ∨ s.cursor ≤ s.window.optFinishIdx) :
    Inv opt sig (s.goto (if s.slides opt then .slideReset s.optStartIdx
      else .fill false s.optStartIdx s.optStartIdx)) := by
  have hworker := h.worker
  have hsound := h.soundTo
  have hle : s.window.optFinishIdx ≤ s.optStartIdx := Nat.le_max_right ..
  have hmax := h.optStartIdx_le
  simp only [WorkerOk, hw, compiled] at hworker hsound
  have hfront : s.front = s.window.optFinishIdx := by simp only [front, hw]
  by_cases hs : s.slides opt = true
  · rw [if_pos hs]
    exact h.extends rfl rfl rfl .refl h.finish_le ⟨hworker.1, hle, hmax⟩ le_rfl
      (hfront.trans_le hle) hsound
  · have hstart : s.optStartIdx = s.window.optFinishIdx :=
      Nat.max_eq_right (hgap.resolve_left hs)
    have hroom : opt.optFinishIdx s.optStartIdx - s.window.optBaseIdx ≤
        s.window.optValueVec.length := by simpa [slides] using hs
    rw [if_neg hs]
    refine h.extends rfl rfl rfl .refl h.finish_le ⟨hworker.1, ?_, le_rfl, ?_, hroom⟩ hle
      (hfront.trans_le hle) ?_
    · exact hworker.2.trans hle
    · exact JitOptions.le_optFinishIdx hmax
    · intro idx hb hi
      rw [hstart] at hi
      exact hsound idx hb hi

lemma Inv.fills {first : Bool} (h : Inv opt sig s) (hw : s.worker = .fill first start idx)
    (hidx : idx < opt.optFinishIdx start) :
    Inv opt sig ((s.setEntry idx (sig.optValue idx)).goto
      (if (idx - start + 1) % 1024 = 0 then .progress first start idx
        else .fill first start (idx + 1))) := by
  have hworker := h.worker
  have hsound := h.soundTo
  have hfin := h.finish_compiled
  simp only [WorkerOk, hw, compiled] at hworker hsound hfin
  obtain ⟨hopt, hbase, hstart, -, hroom⟩ := hworker
  have hb : s.window.optBaseIdx ≤ idx := hbase.trans hstart
  have hn : idx - s.window.optBaseIdx < s.window.optValueVec.length := by omega
  have hroom' : opt.optFinishIdx start - s.window.optBaseIdx ≤
      (s.setEntry idx (sig.optValue idx)).window.optValueVec.length := by
    rwa [length_setEntry]
  have hsound' := soundTo_setEntry hsound hb hn
  have hfront : s.front ≤ idx + 1 := by simp only [front, hw]; omega
  split_ifs
  · exact h.extends rfl rfl rfl (extends_setEntry hb hn) h.finish_le
      ⟨hopt, hbase, hstart, hidx, hroom'⟩ (hfin.trans (Nat.le_succ idx)) hfront hsound'
  · exact h.extends rfl rfl rfl (extends_setEntry hb hn) h.finish_le
      ⟨hopt, hbase, by omega, hidx, hroom'⟩ (hfin.trans (Nat.le_succ idx)) hfront hsound'

lemma Inv.workerStep (h : Inv opt sig s) (hok : s.keepsWindow opt .worker = true)
    (hs : s.workerStep opt sig = some s') : Inv opt sig s' := by
  have hworker := h.worker
  have hsound := h.soundTo
  have hfin := h.finish_compiled
  unfold Jit.workerStep at hs
  cases hw : s.worker with
  | off | done => simp [hw] at hs
  | started =>
    simp only [WorkerOk, hw, compiled] at hs hworker hsound
    cases hs
    have hfront : s.front = s.window.optFinishIdx := by simp only [front, hw]
    split_ifs
    · exact h.extends rfl rfl rfl .refl h.finish_le hworker.1 le_rfl hfront.le hsound
    · exact h.extends rfl rfl rfl .refl h.finish_le ⟨hworker.1, hworker.2, h.cursor⟩ le_rfl
        hfront.le hsound
  | initBase start =>
    simp only [WorkerOk, hw] at hs hworker
    cases hs
    have hfront : s.front = 0 := by simp only [front, hw, hworker.2.1]
    have htest := h.reader.not_pastTest (by omega)
    exact h.rebase rfl rfl rfl htest h.finish_le ⟨hworker.1, hworker.2.1, rfl, hworker.2.2⟩ le_rfl
      (by omega) (by omega) (hworker.2.1.trans_le (Nat.zero_le _))
  | initResize start =>
    simp only [WorkerOk, hw] at hs hworker
    cases hs
    have hfront : s.front = 0 := by simp only [front, hw, hworker.2.1]
    obtain ⟨hopt, hzero, rfl, hmax⟩ := hworker
    have htest := h.reader.not_pastTest (by omega)
    have hroom := (opt.optFinishIdx_sub_le).trans
      (min_le_min_left _ (Nat.sub_le opt.limit s.window.optBaseIdx))
    refine h.rebase rfl rfl rfl htest h.finish_le ⟨hopt, le_rfl, le_rfl, ?_, ?_⟩
      (hzero.trans_le (Nat.zero_le _)) (by omega) (by omega) le_rfl
    · exact JitOptions.le_optFinishIdx hmax
    · exact hroom.trans_eq length_resize.symm
  | fill first start idx =>
    simp only [hw] at hs
    by_cases hidx : idx < opt.optFinishIdx start
    · rw [if_pos hidx] at hs
      cases hs
      exact h.fills hw hidx
    · rw [if_neg hidx] at hs
      cases hs
      simp only [WorkerOk, hw, Jit.compiled] at hworker hsound
      obtain ⟨hopt, hbase, hstart, hle, hroom⟩ := hworker
      have heq : opt.optFinishIdx start = idx := by omega
      have hfront : s.front = idx := by simp only [front, hw]
      have hbase' : s.window.optBaseIdx ≤ opt.optFinishIdx start := by omega
      cases first with
      | true | false =>
        exact h.extends rfl rfl rfl .refl JitOptions.optFinishIdx_le ⟨hopt, hbase'⟩ le_rfl
          (hfront.trans heq.symm).le (heq.symm ▸ hsound)
  | progress first start idx =>
    simp only [WorkerOk, hw, compiled] at hs hworker hsound
    cases hs
    obtain ⟨hopt, hbase, hstart, hlt, hroom⟩ := hworker
    have hfront : s.front = idx + 1 := by simp only [front, hw]
    exact h.extends rfl rfl rfl .refl (hlt.trans_le JitOptions.optFinishIdx_le)
      ⟨hopt, hbase, by omega, hlt, hroom⟩ le_rfl hfront.le hsound
  | compiled start =>
    simp only [WorkerOk, hw, Jit.compiled] at hs hworker hsound
    cases hs
    have hfront : s.front = s.window.optFinishIdx := by simp only [front, hw]
    split_ifs
    · exact h.extends rfl rfl rfl .refl h.finish_le hworker.1 le_rfl hfront.le hsound
    · exact h.extends rfl rfl rfl .refl h.finish_le hworker le_rfl hfront.le hsound
  | waiting =>
    simp only [hw] at hs
    by_cases hcont : s.continueOpt = true
    · rw [if_pos hcont] at hs
      cases hs
      simp only [keepsWindow, hw, hcont, Bool.not_true, Bool.false_or, Bool.or_eq_true,
        decide_eq_true_eq] at hok
      exact h.continues hw hok
    · rw [if_neg hcont] at hs
      cases hs
  | slideReset start =>
    simp only [WorkerOk, hw, Jit.compiled] at hs hworker hsound
    cases hs
    have hfront : s.front = start := by simp only [front, hw]
    exact h.extends rfl rfl rfl .refl (Nat.zero_le _) ⟨hworker.1, rfl, hworker.2.2⟩ le_rfl
      hfront.le (hsound.mono (Nat.zero_le _))
  | slideBase start =>
    simp only [WorkerOk, hw] at hs hworker
    simp only [keepsWindow, hw, Bool.not_eq_true'] at hok
    cases hs
    have hfront : s.front = start := by simp only [front, hw]
    exact h.rebase rfl rfl rfl hok h.finish_le ⟨hworker.1, hworker.2.1, rfl, hworker.2.2⟩ le_rfl
      hfront.le hfront.le (hworker.2.1.trans_le (Nat.zero_le _))
  | slideResize start =>
    simp only [WorkerOk, hw] at hs hworker
    cases hs
    obtain ⟨hopt, hzero, rfl, hmax⟩ := hworker
    have hfront : s.front = s.window.optBaseIdx := by simp only [front, hw]
    have htest := h.reader.not_pastTest hfront.le
    refine h.rebase rfl rfl rfl htest h.finish_le ⟨hopt, le_rfl, le_rfl, ?_, ?_⟩
      (hzero.trans_le (Nat.zero_le _)) hfront.le hfront.le le_rfl
    · exact JitOptions.le_optFinishIdx hmax
    · exact opt.optFinishIdx_sub_le.trans_eq length_resize.symm

/-! ### What the main thread preserves -/

lemma finish_eq_zero (h : s.WorkerOk opt) (hopt : s.doOpt = false) :
    s.worker = .off ∧ s.window.optFinishIdx = 0 := by
  unfold WorkerOk at h
  cases hw : s.worker <;> simp only [hw] at h ⊢
  case off => exact ⟨trivial, h.2⟩
  case done => simp [hopt] at h
  all_goals exact absurd h.1 (by simp [hopt])

lemma Inv.setCursor (h : Inv opt sig s) (hidle : s.reader = .idle) (hidx : idx ≤ opt.maxIndex) :
    Inv opt sig { s with cursor := idx } where
  cursor := hidx
  finish_le := h.finish_le
  worker := h.worker
  finish_compiled := h.finish_compiled
  soundTo := h.soundTo
  reader := by simp only [ReaderOk, hidle]
  served := h.served

lemma Inv.reads (h : Inv opt sig s) (hw : s'.window = s.window) (hc : s'.cursor = s.cursor)
    (hopt : s'.doOpt = s.doOpt) (hworker : s'.worker = s.worker) (hr : s'.ReaderOk sig)
    (hserved : ∀ e ∈ s'.served, e.Sound sig) : Inv opt sig s' where
  cursor := hc ▸ h.cursor
  finish_le := hw ▸ h.finish_le
  worker := by
    have hok := h.worker
    unfold WorkerOk at hok ⊢
    rwa [hw, hopt, hworker]
  finish_compiled := by
    have hfin := h.finish_compiled
    unfold Jit.compiled at hfin ⊢
    rwa [hw, hworker]
  soundTo := by
    have hsound := h.soundTo
    unfold Jit.compiled at hsound ⊢
    rwa [hw, hworker]
  reader := hr
  served := hserved

lemma Inv.readSlow {threadFree : Bool} (h : Inv opt sig s) (hidle : s.reader = .idle) :
    Inv opt sig (s.readSlow opt threadFree) := by
  unfold Jit.readSlow
  split_ifs with hopt hhot
  · exact h
  · obtain ⟨-, hzero⟩ := finish_eq_zero h.worker (by simpa using hopt)
    refine ⟨h.cursor, h.finish_le, ⟨rfl, hzero⟩, le_rfl, ?_, ?_, h.served⟩
    · exact .of_le (hzero.trans_le (Nat.zero_le _))
    · simp only [ReaderOk, hidle]
  · exact h.reads rfl rfl rfl rfl (by simp only [ReaderOk, hidle]) h.served

lemma Inv.getValue {threadFree : Bool} (h : Inv opt sig s) (hidle : s.reader = .idle) :
    Inv opt sig (if s.doOpt ∧ 0 < s.window.optFinishIdx then
      { s with reader := .finishLoaded s.window.optFinishIdx } else s.readSlow opt threadFree) := by
  split_ifs with hfast
  · refine h.reads rfl rfl rfl rfl ⟨?_, fun hlt hle => ?_⟩ h.served
    · exact h.finish_compiled.trans (compiled_le_front h.worker)
    · exact h.soundTo _ hle (hlt.trans_le h.finish_compiled)
  · exact h.readSlow hidle

lemma Inv.readerStep (h : Inv opt sig s) (hs : s.readerStep opt = some s') : Inv opt sig s' := by
  have hreader := h.reader
  unfold Jit.readerStep at hs
  cases hr : s.reader with
  | idle => simp [hr] at hs
  | finishLoaded finish =>
    simp only [ReaderOk, hr] at hs hreader
    split_ifs at hs with htest
    · cases hs
      exact h.reads rfl rfl rfl rfl trivial h.served
    · cases hs
      rw [not_or, Nat.not_lt, Nat.not_le] at htest
      exact h.reads rfl rfl rfl rfl
        ⟨hreader.1, rfl, htest.1, htest.2, hreader.2 htest.2 htest.1⟩ h.served
  | requesting base finish =>
    simp only [ReaderOk, hr] at hs hreader
    cases hs
    exact h.reads rfl rfl rfl rfl hreader h.served
  | fetching base finish =>
    simp only [ReaderOk, hr] at hs hreader
    cases hs
    obtain ⟨-, rfl, hle, hlt, hentry⟩ := hreader
    refine h.reads rfl rfl rfl rfl trivial fun e he => ?_
    rcases List.mem_cons.mp he with rfl | he
    · exact ⟨hle, hlt, rfl, hentry⟩
    · exact h.served e he

/-! ### Every run -/

lemma Inv.init : Inv opt sig init where
  cursor := Nat.zero_le _
  finish_le := Nat.zero_le _
  worker := ⟨rfl, rfl⟩
  finish_compiled := le_rfl
  soundTo := .of_le le_rfl
  reader := trivial
  served := by simp [Jit.init]

theorem Inv.step {a : Act} (h : Inv opt sig s) (hok : s.keepsWindow opt a = true)
    (hs : s.step opt sig a = some s') : Inv opt sig s' := by
  cases a with
  | setCursor idx =>
    simp only [Jit.step] at hs
    split_ifs at hs with hidle
    cases hs
    exact h.setCursor hidle.1 hidle.2.le
  | advance =>
    simp only [Jit.step] at hs
    split_ifs at hs with hidle
    cases hs
    exact h.setCursor hidle.1 hidle.2
  | terminate =>
    cases hs
    exact h.reads rfl rfl rfl rfl h.reader h.served
  | getValue threadFree =>
    simp only [Jit.step] at hs
    by_cases hidle : s.reader = .idle
    · rw [if_pos hidle] at hs
      cases hs
      exact h.getValue hidle
    · rw [if_neg hidle] at hs
      cases hs
  | reader => exact h.readerStep hs
  | worker => exact h.workerStep hok hs

theorem inv_of_reached (h : Reached opt sig (fun s a => s.keepsWindow opt a = true) s) :
    Inv opt sig s := by
  refine Reach.invariant (I := fun s : Jit => Inv opt sig s) h .init ?_
  intro s a s' _ hinv hok hs
  exact hinv.step hok hs

/-- Small windows; a signal is hot at its first read. -/
def smallWindows (maxIndex : Nat) : JitOptions := ⟨.wellen, maxIndex, 1, 2, 2⟩

/-- The cursor is moved beyond the window before the worker continues, and then into the gap. -/
def readsGap : List Act :=
  [.getValue true, .worker, .worker, .worker, .worker, .worker, .worker, .getValue true, .reader,
   .reader, .reader, .setCursor 3, .worker, .worker, .worker, .setCursor 2, .getValue true, .reader,
   .reader, .reader]

/-- The window slides between two reads. -/
def readsSlid : List Act :=
  [.getValue true, .worker, .worker, .worker, .worker, .worker, .worker, .getValue true, .reader,
   .reader, .reader, .worker, .worker, .worker, .worker, .worker, .setCursor 3, .getValue true,
   .reader, .reader, .reader, .worker, .worker, .worker, .worker, .worker, .worker, .worker,
   .worker, .setCursor 5, .getValue true, .reader, .reader, .reader]

end Jit

end Verilua.Wave
