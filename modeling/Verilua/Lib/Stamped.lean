import Mathlib.Logic.Function.Basic

/-!
# Data derived from a version

A file has versions, and a stamp that tells the versions apart. Data derived from the file is kept
with the stamp of the version it was derived from, and may be used for a version whose stamp is the
same.
-/

/-- The versions of a file, each with its content and its own stamp. -/
structure Stamped (Content Stamp : Type) where
  Version : Type
  content : Version → Content
  stamp : Version → Stamp
  stamp_inj : Function.Injective stamp

namespace Stamped

variable {Content Stamp : Type} {f : Stamped Content Stamp} {P Q : Content → Prop}
  {v : f.Version} {t : Stamp}

/-- The property holds of the content of the version with that stamp. -/
def Genuine (f : Stamped Content Stamp) (t : Stamp) (P : Content → Prop) : Prop :=
  ∃ v : f.Version, f.stamp v = t ∧ P (f.content v)

lemma Genuine.intro (h : P (f.content v)) : f.Genuine (f.stamp v) P := ⟨v, rfl, h⟩

/-- What is kept with the stamp of a version may be used for it. -/
lemma Genuine.of_stamp (h : f.Genuine (f.stamp v) P) : P (f.content v) := by
  obtain ⟨w, heq, hw⟩ := h
  rwa [← f.stamp_inj heq]

lemma Genuine.mono (himp : ∀ c, P c → Q c) (h : f.Genuine t P) : f.Genuine t Q := by
  obtain ⟨v, heq, hv⟩ := h
  exact ⟨v, heq, himp _ hv⟩

end Stamped
