import Mathlib

/-!
# Owners that share nothing

Each owner has a set of things, and some things are free. Nothing is in two places. An owner may take what is free and
give back what it has.
-/

namespace Chickadee.Lib

variable {ι α : Type*} {owns owns' : ι → Set α} {free free' : Set α} {i j : ι}

/-- What the owners have and what is free: nothing is in two places. -/
structure Apart (owns : ι → Set α) (free : Set α) : Prop where
  owners : ∀ ⦃i j⦄, i ≠ j → Disjoint (owns i) (owns j)
  free : ∀ i, Disjoint (owns i) free

namespace Apart

theorem none (free : Set α) : Apart (fun _ : ι => ∅) free :=
  ⟨fun _ _ _ => disjoint_bot_left, fun _ => disjoint_bot_left⟩

theorem notMem_owner (h : Apart owns free) (hij : i ≠ j) {a : α} (ha : a ∈ owns i) : a ∉ owns j :=
  fun haj => Set.disjoint_left.1 (h.owners hij) ha haj

theorem notMem_free (h : Apart owns free) {a : α} (ha : a ∈ owns i) : a ∉ free :=
  fun hf => Set.disjoint_left.1 (h.free i) ha hf

/-- **One owner takes free things, or gives some back.** -/
theorem step (h : Apart owns free) (i : ι) (hother : ∀ j, j ≠ i → owns' j ⊆ owns j)
    (howner : owns' i ⊆ owns i ∪ free) (hfree : free' ⊆ free ∪ owns i) (hnew : Disjoint (owns' i) free') :
    Apart owns' free' := by
  have hnot : ∀ j, j ≠ i → Disjoint (owns' j) (owns i ∪ free) := fun j hj =>
    (Set.disjoint_union_right.2 ⟨h.owners hj, h.free j⟩).mono_left (hother j hj)
  refine ⟨fun j k hjk => ?_, fun j => ?_⟩
  · by_cases hj : j = i
    · subst hj
      exact ((hnot k (Ne.symm hjk)).mono_right howner).symm
    · by_cases hk : k = i
      · subst hk
        exact (hnot j hj).mono_right howner
      · exact (h.owners hjk).mono (hother j hj) (hother k hk)
  · by_cases hj : j = i
    · subst hj
      exact hnew
    · refine (hnot j hj).mono_right ?_
      rw [Set.union_comm]
      exact hfree

end Apart

end Chickadee.Lib
