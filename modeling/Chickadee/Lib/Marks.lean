import Mathlib.Tactic

/-!
# Marking what is overwritten

The items of a sequence are gone through, and each one that counts and has no mark marks all those behind it
with the same key. In the end an item has a mark if it had one or if an item before it that counts, without a
mark at the start, has its key: that the marks change on the way makes no difference.
-/

namespace Chickadee.Lib

variable {α κ : Type*} [DecidableEq α] [DecidableEq κ]

/-- The items of `ps` with the key `k` are marked. -/
def markKey (key : α → κ) (k : κ) (ps : List α) (f : α → Bool) : α → Bool :=
  fun q => f q || decide (q ∈ ps ∧ key q = k)

/-- The pass over a sequence, on the marks `f`; only items with `counts` mark others. -/
def markPass (counts : α → Bool) (key : α → κ) : List α → (α → Bool) → α → Bool
  | [], f => f
  | p :: ps, f =>
    markPass counts key ps (if counts p = true ∧ f p = false then markKey key (key p) ps f else f)

theorem markKey_iff {key : α → κ} {k : κ} {ps : List α} {f : α → Bool} {q : α} :
    markKey key k ps f q = true ↔ f q = true ∨ q ∈ ps ∧ key q = k := by
  rw [markKey, Bool.or_eq_true, decide_eq_true_eq]

omit [DecidableEq α] in
theorem pair_sublist_cons {p q x : α} {ps : List α} :
    List.Sublist [p, q] (x :: ps) ↔ p = x ∧ q ∈ ps ∨ List.Sublist [p, q] ps := by
  constructor
  · intro h
    cases h with
    | cons _ h => exact .inr h
    | cons_cons _ h => exact .inl ⟨rfl, List.singleton_sublist.mp h⟩
  · rintro (⟨rfl, hq⟩ | h)
    · exact (List.singleton_sublist.mpr hq).cons_cons p
    · exact h.cons x

/-- **What has a mark in the end.** -/
theorem markPass_iff {counts : α → Bool} {key : α → κ} {ps : List α} {f : α → Bool} {q : α} :
    markPass counts key ps f q = true ↔ f q = true ∨
      ∃ p, counts p = true ∧ f p = false ∧ key p = key q ∧ List.Sublist [p, q] ps := by
  induction ps generalizing f with
  | nil =>
    refine ⟨.inl, ?_⟩
    rintro (h | ⟨p, -, -, -, h⟩)
    · exact h
    · cases h
  | cons x ps ih =>
    rw [markPass, ih]
    by_cases hx : counts x = true ∧ f x = false
    · obtain ⟨hcounts, hf⟩ := hx
      rw [if_pos ⟨hcounts, hf⟩]
      constructor
      · rintro (h | ⟨p, hp, hpf, hkey, hsub⟩)
        · rcases markKey_iff.mp h with h | ⟨hq, hkey⟩
          · exact .inl h
          · exact .inr ⟨x, hcounts, hf, hkey.symm, pair_sublist_cons.mpr (.inl ⟨rfl, hq⟩)⟩
        · refine .inr ⟨p, hp, ?_, hkey, pair_sublist_cons.mpr (.inr hsub)⟩
          by_contra hne
          rw [markKey_iff.mpr (.inl (Bool.eq_true_of_not_eq_false hne))] at hpf
          cases hpf
      · rintro (h | ⟨p, hp, hpf, hkey, hsub⟩)
        · exact .inl (markKey_iff.mpr (.inl h))
        · rcases pair_sublist_cons.mp hsub with ⟨rfl, hq⟩ | hsub
          · exact .inl (markKey_iff.mpr (.inr ⟨hq, hkey.symm⟩))
          · -- `p` may have been marked meanwhile, but then so has `q`
            have hmem : p ∈ ps ∧ q ∈ ps :=
              ⟨hsub.subset List.mem_cons_self, hsub.subset (List.mem_cons_of_mem _ List.mem_cons_self)⟩
            by_cases hkx : key p = key x
            · exact .inl (markKey_iff.mpr (.inr ⟨hmem.2, hkey.symm.trans hkx⟩))
            · refine .inr ⟨p, hp, ?_, hkey, hsub⟩
              by_contra hne
              rcases markKey_iff.mp (Bool.eq_true_of_not_eq_false hne) with h | ⟨-, h⟩
              · rw [hpf] at h
                cases h
              · exact hkx h
    · rw [if_neg hx]
      refine or_congr_right (exists_congr fun p => ?_)
      constructor
      · rintro ⟨hp, hpf, hkey, hsub⟩
        exact ⟨hp, hpf, hkey, pair_sublist_cons.mpr (.inr hsub)⟩
      · rintro ⟨hp, hpf, hkey, hsub⟩
        refine ⟨hp, hpf, hkey, ?_⟩
        rcases pair_sublist_cons.mp hsub with ⟨rfl, -⟩ | hsub
        · exact absurd ⟨hp, hpf⟩ hx
        · exact hsub

end Chickadee.Lib
