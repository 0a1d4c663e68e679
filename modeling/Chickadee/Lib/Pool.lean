import Mathlib.Data.List.Perm.Basic
import Mathlib.Logic.Function.Basic

/-!
# Tokens that are handed out

A pool has free tokens, and slots with at most one token each. A token is handed out by putting it in a slot;
what the slot held before is forgotten. So the tokens that are neither free nor in a slot are lost, and a token
is lost exactly when the only slot that it is in is used again.
-/

namespace Chickadee.Lib

structure Pool (σ π : Type*) where
  free : List π
  held : σ → Option π

namespace Pool

variable {σ π : Type*} [DecidableEq σ] {A B : σ → Option π → Prop} {p p' q : Pool σ π} {s t : σ} {x : π}

/-- A free token is put in the slot `s`. -/
def Put (s : σ) (p p' : Pool σ π) : Prop :=
  ∃ x, p.free.Perm (x :: p'.free) ∧ p'.held = Function.update p.held s (some x)

/-- Tokens are put in slots one after the other, each where `A` allows it for what the slot holds. -/
inductive Puts (A : σ → Option π → Prop) : Pool σ π → Pool σ π → Prop
  | refl (p : Pool σ π) : Puts A p p
  | step {p q r : Pool σ π} {s : σ} : Puts A p q → A s (q.held s) → Put s q r → Puts A p r

namespace Puts

theorem single (ha : A s (p.held s)) (h : Put s p p') : Puts A p p' := (refl p).step ha h

theorem trans (h : Puts A p p') (h' : Puts A p' q) : Puts A p q := by
  induction h' with
  | refl => exact h
  | step _ ha hput ih => exact ih.step ha hput

theorem mono (hAB : ∀ s o, A s o → B s o) (h : Puts A p p') : Puts B p p' := by
  induction h with
  | refl => exact refl _
  | step _ ha hput ih => exact ih.step (hAB _ _ ha) hput

/-- No token becomes free. -/
theorem mem (h : Puts A p p') (hx : x ∈ p'.free) : x ∈ p.free := by
  induction h with
  | refl => exact hx
  | step _ _ hput ih =>
    obtain ⟨y, hperm, _⟩ := hput
    exact ih (hperm.mem_iff.mpr (List.mem_cons_of_mem y hx))

/-- A slot holds what it held, or a token that was free. -/
theorem held_or (h : Puts A p p') (s : σ) : p'.held s = p.held s ∨ ∃ x ∈ p.free, p'.held s = some x := by
  induction h with
  | refl => exact .inl rfl
  | @step q r t hputs _ hput ih =>
    obtain ⟨y, hperm, hheld⟩ := hput
    rw [hheld]
    by_cases hst : s = t
    · subst hst
      have hy : y ∈ q.free := hperm.mem_iff.mpr List.mem_cons_self
      exact .inr ⟨y, hputs.mem hy, Function.update_self ..⟩
    · rw [Function.update_of_ne hst]
      exact ih

/-- A slot that may not be used for what it holds keeps it. -/
theorem held_eq (h : Puts A p p') (hs : ¬A s (p.held s)) : p'.held s = p.held s := by
  induction h with
  | refl => rfl
  | @step q r t _ ha hput ih =>
    obtain ⟨y, _, hheld⟩ := hput
    have hst : s ≠ t := by
      rintro rfl
      rw [ih] at ha
      exact hs ha
    rw [hheld, Function.update_of_ne hst]
    exact ih

/-- A slot in use stays in use. -/
theorem held_ne_none (h : Puts A p p') (hs : p.held s ≠ none) : p'.held s ≠ none := by
  rcases h.held_or s with h | ⟨x, _, h⟩
  · rwa [h]
  · rw [h]
    exact Option.some_ne_none x

end Puts

/-! ## Every token once -/

/-- No token is free twice or held twice or both, and those that are free or held are `all`. -/
structure Exact (all : π → Prop) (p : Pool σ π) : Prop where
  nodup : p.free.Nodup
  apart : ∀ s x, p.held s = some x → x ∉ p.free
  inj : ∀ s t x, p.held s = some x → p.held t = some x → s = t
  cover : ∀ x, all x ↔ x ∈ p.free ∨ ∃ s, p.held s = some x

/-- An empty slot can be used. -/
theorem Exact.put {all : π → Prop} (h : Exact all p) (hs : p.held s = none) (hput : Put s p p') : Exact all p' := by
  obtain ⟨y, hperm, hheld⟩ := hput
  have hnodup : (y :: p'.free).Nodup := hperm.nodup_iff.mp h.nodup
  have hy : y ∈ p.free := hperm.mem_iff.mpr List.mem_cons_self
  have hmem : ∀ x, x ∈ p'.free → x ∈ p.free := fun x hx => hperm.mem_iff.mpr (List.mem_cons_of_mem y hx)
  -- A slot other than `s` holds what it held, and that is not the new token.
  have hother : ∀ t x, t ≠ s → p'.held t = some x → p.held t = some x ∧ x ≠ y := by
    intro t x hts ht
    rw [hheld, Function.update_of_ne hts] at ht
    exact ⟨ht, fun he => h.apart t x ht (he ▸ hy)⟩
  have hself : p'.held s = some y := by rw [hheld, Function.update_self]
  refine ⟨hnodup.of_cons, ?_, ?_, ?_⟩
  · intro t x ht hx
    by_cases hts : t = s
    · rw [hts, hself] at ht
      exact (List.nodup_cons.mp hnodup).1 (Option.some.inj ht ▸ hx)
    · exact h.apart t x (hother t x hts ht).1 (hmem x hx)
  · intro t u x ht hu
    by_cases hts : t = s
    · by_cases hus : u = s
      · rw [hts, hus]
      · rw [hts, hself] at ht
        exact absurd (Option.some.inj ht).symm (hother u x hus hu).2
    · by_cases hus : u = s
      · rw [hus, hself] at hu
        exact absurd (Option.some.inj hu).symm (hother t x hts ht).2
      · exact h.inj t u x (hother t x hts ht).1 (hother u x hus hu).1
  · intro x
    rw [h.cover x]
    refine ⟨?_, ?_⟩
    · rintro (hfree | ⟨t, ht⟩)
      · rcases List.mem_cons.mp (hperm.mem_iff.mp hfree) with rfl | hfree
        · exact .inr ⟨s, hself⟩
        · exact .inl hfree
      · have hts : t ≠ s := by
          rintro rfl
          rw [hs] at ht
          exact absurd ht (Option.some_ne_none x).symm
        exact .inr ⟨t, by rw [hheld, Function.update_of_ne hts, ht]⟩
    · rintro (hfree | ⟨t, ht⟩)
      · exact .inl (hmem x hfree)
      · by_cases hts : t = s
        · rw [hts, hself] at ht
          exact .inl (Option.some.inj ht ▸ hy)
        · exact .inr ⟨t, (hother t x hts ht).1⟩

theorem Exact.puts {all : π → Prop} (h : Exact all p) (hA : ∀ s o, A s o → o = none) (hputs : Puts A p p') :
    Exact all p' := by
  induction hputs with
  | refl => exact h
  | step _ ha hput ih => exact ih.put (hA _ _ ha) hput

/-! ## Lost tokens -/

/-- The token is neither free nor in a slot. -/
def Lost (x : π) (p : Pool σ π) : Prop := x ∉ p.free ∧ ∀ s, p.held s ≠ some x

/-- The token is in no slot but `s`. -/
def Only (x : π) (s : σ) (p : Pool σ π) : Prop := x ∉ p.free ∧ ∀ t, p.held t = some x → t = s

omit [DecidableEq σ] in
theorem Exact.only {all : π → Prop} (h : Exact all p) (hs : p.held s = some x) : Only x s p :=
  ⟨h.apart s x hs, fun t ht => h.inj t s x ht hs⟩

omit [DecidableEq σ] in
theorem Only.lost (h : Only x s p) (hs : p.held s ≠ some x) : Lost x p :=
  ⟨h.1, fun t ht => hs (h.2 t ht ▸ ht)⟩

theorem Only.puts (h : Only x s p) (hputs : Puts A p p') : Only x s p' := by
  refine ⟨fun hx => h.1 (hputs.mem hx), fun t ht => ?_⟩
  rcases hputs.held_or t with hold | ⟨y, hy, hnew⟩
  · exact h.2 t (hold.symm.trans ht)
  · rw [hnew] at ht
    exact absurd (Option.some.inj ht ▸ hy) h.1

/-- What is lost stays lost. -/
theorem Lost.puts (h : Lost x p) (hputs : Puts A p p') : Lost x p' := by
  refine ⟨fun hx => h.1 (hputs.mem hx), fun t ht => ?_⟩
  rcases hputs.held_or t with hold | ⟨y, hy, hnew⟩
  · exact h.2 t (hold.symm.trans ht)
  · rw [hnew] at ht
    exact h.1 (Option.some.inj ht ▸ hy)

/-- The token in a slot is lost when the slot is used again. -/
theorem Exact.lost {all : π → Prop} (h : Exact all p) (hputs : Puts A p p') (hs : p.held s = some x)
    (hnew : ∃ y ∈ p.free, p'.held s = some y) : Lost x p' := by
  obtain ⟨y, hy, hnew⟩ := hnew
  refine ((h.only hs).puts hputs).lost ?_
  rw [hnew]
  rintro ⟨⟩
  exact h.apart s _ hs hy

end Pool

end Chickadee.Lib
