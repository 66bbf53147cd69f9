import Mathlib.Data.Finset.Basic

/-!
# Registries

A registry is a set of resources without their owners. It is exact when it holds a resource if and
only if somebody does, and no resource has two owners. Since an entry does not say whose it is, the
registry stays exact only if nobody but its owner takes it out.
-/

namespace Registry

variable {ι ρ : Type*} {holds holds' : ι → ρ → Prop} {held : Finset ρ} {i : ι} {r : ρ}

structure Exact (holds : ι → ρ → Prop) (held : Finset ρ) : Prop where
  mem_iff : ∀ r, r ∈ held ↔ ∃ i, holds i r
  unique : ∀ r i j, holds i r → holds j r → i = j

namespace Exact

lemma empty (h : ∀ i r, ¬ holds i r) : Exact holds ∅ :=
  ⟨fun r => iff_of_false (Finset.notMem_empty r) fun ⟨i, hi⟩ => h i r hi,
    fun r i _ hi => absurd hi (h i r)⟩

theorem mem_iff_existsUnique (h : Exact holds held) : r ∈ held ↔ ∃! i, holds i r := by
  rw [h.mem_iff]
  refine ⟨fun ⟨i, hi⟩ => ⟨i, hi, fun j hj => h.unique r j i hj hi⟩, fun ⟨i, hi, _⟩ => ⟨i, hi⟩⟩

lemma congr (h : Exact holds held) (hiff : ∀ i r, holds' i r ↔ holds i r) : Exact holds' held := by
  have heq : holds' = holds := funext fun i => funext fun r => propext (hiff i r)
  rwa [heq]

variable [DecidableEq ρ]

theorem acquire (h : Exact holds held) (hr : r ∉ held)
    (hiff : ∀ j r', holds' j r' ↔ holds j r' ∨ j = i ∧ r' = r) : Exact holds' (insert r held) := by
  have hfree : ∀ j, ¬ holds j r := fun j hj => hr ((h.mem_iff r).mpr ⟨j, hj⟩)
  refine ⟨fun r' => ?_, fun r' j k hj hk => ?_⟩
  · rw [Finset.mem_insert, h.mem_iff]
    constructor
    · rintro (rfl | ⟨j, hj⟩)
      · exact ⟨i, (hiff i r').mpr (.inr ⟨rfl, rfl⟩)⟩
      · exact ⟨j, (hiff j r').mpr (.inl hj)⟩
    · rintro ⟨j, hj⟩
      rcases (hiff j r').mp hj with hj | ⟨-, rfl⟩
      · exact .inr ⟨j, hj⟩
      · exact .inl rfl
  · rcases (hiff j r').mp hj with hj | ⟨rfl, rfl⟩ <;> rcases (hiff k r').mp hk with hk | ⟨rfl, heq⟩
    · exact h.unique r' j k hj hk
    · subst heq
      exact absurd hj (hfree j)
    · exact absurd hk (hfree k)
    · rfl

/-- The owner gives its only resource back; where nobody holds the resource, nothing changes. -/
theorem release (h : Exact holds held) (hown : holds i r ∨ r ∉ held)
    (hone : ∀ r', holds i r' → r' = r) (hi : ∀ r', ¬ holds' i r')
    (hsame : ∀ j r', j ≠ i → (holds' j r' ↔ holds j r')) : Exact holds' (held.erase r) := by
  have hother : ∀ j r', holds' j r' → holds j r' ∧ j ≠ i := fun j r' hj => by
    have hne : j ≠ i := fun heq => hi r' (heq ▸ hj)
    exact ⟨(hsame j r' hne).mp hj, hne⟩
  refine ⟨fun r' => ?_, fun r' j k hj hk =>
    h.unique r' j k (hother j r' hj).1 (hother k r' hk).1⟩
  rw [Finset.mem_erase, h.mem_iff]
  constructor
  · rintro ⟨hne, j, hj⟩
    exact ⟨j, (hsame j r' fun heq => hne (hone r' (heq ▸ hj))).mpr hj⟩
  · rintro ⟨j, hj⟩
    obtain ⟨hj, hne⟩ := hother j r' hj
    refine ⟨fun heq => ?_, j, hj⟩
    subst heq
    rcases hown with hi | hfree
    · exact hne (h.unique r' j i hj hi)
    · exact hfree ((h.mem_iff r').mpr ⟨j, hj⟩)

end Exact

end Registry
