import Verilua.Wellen.Sound

/-!
# The cache files of `wellen_impl` are transparent in safe runs

While no run is under way a usable `META_FILE` is sound, together with the signal cache file, for
the version whose stamp it carries. A run starts with sound caches and keeps them sound, and what it
writes at its end is sound for the version that it has read.
-/

namespace Verilua.Wellen

open Codec (Outcome)
open TransitionSystem

variable {f : WaveVersions} {s s' : State f} {p p' : Proc f} {disk : Disk} {q : Query}
  {modified : FileModifiedInfo}

/-! ### The invariant -/

/-- The caches of the run, those of its twin, and the signals behind its handles. -/
structure Proc.Sound (p : Proc f) : Prop where
  caches : p.caches.Sound (f.content p.version)
  twin : p.twin.Sound (f.content p.version)
  handles : ∀ id ∈ p.handles, Holds (f.content p.version) p.caches.signalCache id ∧
    Holds (f.content p.version) p.twin.signalCache id

def Disk.Sound (f : WaveVersions) (disk : Disk) : Prop :=
  ∀ m, disk.metaFile = some m → signalRefCountThreshold ≤ m.sigrefCount →
    f.Genuine m.modified fun wave =>
      Wellen.Sound wave m.sigref m.sigrefNull (disk.signalCacheFile.getD ∅)

def State.Inv (s : State f) : Prop :=
  match s.phase with
  | .idle | .opened _ => s.disk.Sound f
  | .running p => s.disk.Sound f ∧ p.Sound
  | .writingMeta p => s.disk.metaFile = none ∧ p.Sound ∧ p.modified = f.stamp p.version
  | .wroteMeta p | .writingSignal p =>
    (∀ m, s.disk.metaFile = some m → m = p.caches.toMeta p.modified) ∧ p.Sound ∧
      p.modified = f.stamp p.version

lemma Disk.sound_of_none (h : disk.metaFile = none) : disk.Sound f := by
  intro m hm
  rw [h] at hm
  cases hm

/-- The signal cache file does not matter where `META_FILE` cannot be used. -/
lemma Disk.sound_of_lt (h : ∀ m, disk.metaFile = some m → m.sigrefCount < signalRefCountThreshold) :
    disk.Sound f := by
  intro m hm hle
  exact absurd (h m hm) (not_lt.mpr hle)

/-! ### The start of a run -/

lemma Disk.Sound.load (h : disk.Sound f) {version : f.Version} :
    (disk.load (f.stamp version)).Sound (f.content version) := by
  rw [Disk.load]
  split
  case h_1 m hm =>
    obtain ⟨hmeta, hcond⟩ := Option.filter_eq_some_iff.mp hm
    obtain ⟨hmodified, hle⟩ : m.modified = f.stamp version ∧ _ := by simpa using hcond
    have hgenuine := h m hmeta hle
    rw [hmodified] at hgenuine
    exact hgenuine.of_stamp
  case h_2 => exact Caches.sound_empty _

lemma Disk.load_of_unusable (h : disk.usable modified = none) : disk.load modified = .empty := by
  rw [Disk.load, h]

/-! ### Queries -/

lemma Proc.Sound.answer_eq (h : p.Sound) (hmay : p.May q) :
    answer (Wellen.ask (f.content p.version) p.caches q) =
      answer (Wellen.ask (f.content p.version) p.twin q) :=
  answer_ask_eq h.caches h.twin fun id hid => h.handles id (hmay id hid)

lemma Proc.Sound.ask (h : p.Sound) (hmay : p.May q) (hask : p.ask q = some p') : p'.Sound := by
  rw [Proc.ask] at hask
  cases hx : Wellen.ask (f.content p.version) p.caches q with
  | value y =>
    obtain ⟨a, c⟩ := y
    rw [hx] at hask
    obtain rfl := Option.some.inj hask
    obtain ⟨hsound, hkeeps, hnew⟩ := sound_of_ask h.caches hx
    -- the twin gives the same answer, so it does not panic either
    have hanswer := h.answer_eq hmay
    cases hy : Wellen.ask (f.content p.version) p.twin q with
    | value y =>
      obtain ⟨a', d⟩ := y
      obtain rfl : a = a' := by
        rw [hx, hy] at hanswer
        simpa [answer] using hanswer
      obtain ⟨hsound', hkeeps', hnew'⟩ := sound_of_ask h.twin hy
      refine ⟨hsound, hsound', ?_⟩
      intro id hid
      rcases List.mem_append.mp hid with hid | hid
      · exact ⟨hnew id hid, hnew' id hid⟩
      · exact ⟨hkeeps id (h.handles id hid).1, hkeeps' id (h.handles id hid).2⟩
    | fail =>
      rw [hx, hy] at hanswer
      cases hanswer
    | panic =>
      rw [hx, hy] at hanswer
      cases hanswer
  | fail =>
    rw [hx] at hask
    cases hask
  | panic =>
    rw [hx] at hask
    cases hask

/-! ### The end of a run -/

lemma Proc.Sound.disk_sound (h : p.Sound) (hstamp : p.modified = f.stamp p.version)
    (hmeta : ∀ m, disk.metaFile = some m → m = p.caches.toMeta p.modified)
    (hsignal : disk.signalCacheFile = some p.caches.signalCache) : disk.Sound f := by
  intro m hm _
  obtain rfl := hmeta m hm
  rw [Caches.toMeta, hstamp, hsignal]
  exact .intro h.caches

lemma Proc.Sound.disk_sound_of_stores (h : p.Sound) (hstamp : p.modified = f.stamp p.version)
    (hstores : disk.Stores p.caches)
    (hmeta : ∀ m, disk.metaFile = some m → m.modified = p.modified ∧
      m.sigref = p.caches.signalRefCache ∧
        ∀ name ∈ m.sigrefNull, name ∈ p.caches.signalRefCacheNull) :
    disk.Sound f := by
  intro m hm _
  obtain ⟨hmodified, hsigref, hnull⟩ := hmeta m hm
  rw [hmodified, hstamp]
  refine .intro ⟨?_, ?_, fun name hname => h.caches.missing name (hnull name hname)⟩
  · intro name id hlookup
    rw [hsigref] at hlookup
    exact h.caches.found name id hlookup
  · intro name id hlookup
    rw [hsigref] at hlookup
    obtain ⟨kept, info, hkept, hinfo, hsame⟩ := hstores name id hlookup
    have hheld := h.caches.held name id hlookup
    rw [Holds, hsame] at hheld
    rw [Holds, hkept, Option.getD_some, hinfo, Option.map_some, hheld]

/-! ### Steps and runs -/

lemma State.Inv.step {a : Act f} (h : s.Inv) (hsafe : Safe s a) (hstep : step s a = some s') :
    s'.Inv := by
  obtain ⟨file, disk, phase⟩ := s
  cases a with
  | replace version =>
    cases hstep
    exact h
  | openWave =>
    cases phase <;> cases hstep
    exact h
  | wellenInitialize =>
    cases phase with
    | opened version =>
      cases hstep
      refine ⟨h, ?_, Caches.sound_empty _, by simp⟩
      rcases hsafe version rfl with rfl | hunusable
      · exact Disk.Sound.load h
      · dsimp only
        rw [Disk.load_of_unusable hunusable]
        exact Caches.sound_empty _
    | _ => cases hstep
  | ask q =>
    cases phase with
    | running p =>
      obtain ⟨hdisk, hp⟩ := h
      simp only [Wellen.step] at hstep
      split_ifs at hstep with hmay
      cases hask : p.ask q with
      | some p' =>
        rw [hask] at hstep
        cases hstep
        exact ⟨hdisk, hp.ask hmay hask⟩
      | none =>
        rw [hask] at hstep
        cases hstep
        exact hdisk
    | _ => cases hstep
  | wellenFinalize =>
    cases phase with
    | running p =>
      obtain ⟨hdisk, hp⟩ := h
      simp only [Wellen.step] at hstep
      split_ifs at hstep with hsaves
      · cases hstep
        exact ⟨rfl, hp, hsafe p rfl hsaves⟩
      · cases hstep
        exact hdisk
    | _ => cases hstep
  | writeMeta =>
    cases phase with
    | writingMeta p =>
      cases hstep
      exact ⟨fun m hm => (Option.some.inj hm).symm, h.2⟩
    | _ => cases hstep
  | createSignal =>
    cases phase with
    | wroteMeta p =>
      cases hstep
      exact h
    | _ => cases hstep
  | writeSignal =>
    cases phase with
    | writingSignal p =>
      cases hstep
      exact h.2.1.disk_sound h.2.2 h.1 rfl
    | _ => cases hstep
  | interrupt sigrefNull =>
    cases phase with
    | idle => cases hstep
    | opened version =>
      cases hstep
      exact h
    | running p =>
      cases hstep
      exact h.1
    | writingMeta p =>
      cases hstep
      obtain ⟨-, hp, hstamp⟩ := h
      cases sigrefNull with
      | none => exact Disk.sound_of_none rfl
      | some names =>
        obtain ⟨hnames, hstores⟩ := hsafe names rfl
        refine hp.disk_sound_of_stores hstamp hstores fun m hm => ?_
        obtain rfl := Option.some.inj hm
        exact ⟨rfl, rfl, hnames⟩
    | wroteMeta p =>
      cases hstep
      obtain ⟨hmeta, hp, hstamp⟩ := h
      refine hp.disk_sound_of_stores hstamp hsafe fun m hm => ?_
      obtain rfl := hmeta m hm
      exact ⟨rfl, rfl, fun _ hname => hname⟩
    | writingSignal p => exact hsafe.elim
  | removeMeta =>
    cases hstep
    have hnone : ({ disk with metaFile := none } : Disk).Sound f := Disk.sound_of_none rfl
    cases phase with
    | idle | opened _ => exact hnone
    | running p => exact ⟨hnone, h.2⟩
    | writingMeta p => exact ⟨rfl, h.2⟩
    | wroteMeta p | writingSignal p => exact ⟨fun _ hm => (nomatch hm), h.2⟩
  | removeSignal =>
    cases hstep
    cases phase with
    | idle | opened _ => exact Disk.sound_of_lt hsafe
    | running p => exact ⟨Disk.sound_of_lt hsafe, h.2⟩
    | writingMeta p | wroteMeta p | writingSignal p => exact h

/-- What holds in every state of a run whose steps are safe. -/
abbrev Reached (ok : State f → Act f → Prop) (version : f.Version) (s : State f) : Prop :=
  Reach step ok (State.init version) s

lemma State.Inv.of_reached {version : f.Version} (h : Reached Safe version s) : s.Inv :=
  h.invariant (Disk.sound_of_none rfl) fun _ _ _ _ hinv hsafe hstep => hinv.step hsafe hstep

/-- In safe runs the cache files are transparent. -/
theorem transparent_of_reached {version : f.Version} (h : Reached Safe version s) :
    s.Transparent := by
  intro p hp q hmay
  have hinv := State.Inv.of_reached h
  rw [State.Inv, hp] at hinv
  exact hinv.2.answer_eq hmay

end Verilua.Wellen
