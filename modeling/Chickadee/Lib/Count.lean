import Mathlib.Algebra.BigOperators.Group.Finset.Basic
import Mathlib.Algebra.BigOperators.Group.Finset.Piecewise

/-!
# Counting what has a property

When one value of a function changes, the number of arguments whose value has a property changes by the
difference at that argument. The equations are without subtraction.
-/

namespace Chickadee.Lib

variable {α β : Type*} [DecidableEq α]

/-- Two sums that differ at one index. -/
theorem sum_add_eq {s : Finset α} {f g : α → ℕ} {a : α} {x y : ℕ} (ha : a ∈ s)
    (hne : ∀ i ∈ s, i ≠ a → f i = g i) (h : f a + x = g a + y) :
    ∑ i ∈ s, f i + x = ∑ i ∈ s, g i + y := by
  have hrest : ∑ i ∈ s.erase a, f i = ∑ i ∈ s.erase a, g i :=
    Finset.sum_congr rfl fun i hi => hne i (Finset.mem_of_mem_erase hi) (Finset.ne_of_mem_erase hi)
  rw [← Finset.add_sum_erase s f ha, ← Finset.add_sum_erase s g ha, hrest]
  omega

/-- The number of arguments with a property when one value is updated. -/
theorem card_filter_update (s : Finset α) (f : α → β) {a : α} (b : β) (p : β → Prop)
    [DecidablePred p] (ha : a ∈ s) :
    (s.filter fun i => p (Function.update f a b i)).card + (if p (f a) then 1 else 0) =
      (s.filter fun i => p (f i)).card + if p b then 1 else 0 := by
  rw [Finset.card_filter, Finset.card_filter]
  refine sum_add_eq ha (fun i _ hi => by rw [Function.update_of_ne hi]) ?_
  rw [Function.update_self]
  omega

end Chickadee.Lib
