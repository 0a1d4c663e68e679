import Mathlib.Logic.Relation

/-!
# Runs of a labelled transition system

A system is given by its initial states and by a step relation that carries a label. A run may be
restricted by a condition on the label and on the state *before* the step. An invariant is proved
once for the initial states and once for a step; `Reach.invariant` lifts it to every run.
-/

namespace Chickadee.Lib

variable {σ α : Type*}

/-- The states reached from `init` by steps whose label and source state satisfy `ok`. -/
inductive Reach (init : σ → Prop) (step : σ → α → σ → Prop) (ok : σ → α → Prop) : σ → Prop
  | init {s : σ} (h : init s) : Reach init step ok s
  | step {s s' : σ} {a : α} (h : Reach init step ok s) (hok : ok s a) (hs : step s a s') :
      Reach init step ok s'

variable {init : σ → Prop} {step : σ → α → σ → Prop} {ok ok' : σ → α → Prop}

/-- **What holds initially and is preserved by a step holds in every reachable state.** -/
theorem Reach.invariant {P : σ → Prop} (hinit : ∀ s, init s → P s)
    (hstep : ∀ s a s', P s → ok s a → step s a s' → P s') {s : σ}
    (h : Reach init step ok s) : P s := by
  induction h with
  | init h => exact hinit _ h
  | step _ hok hs ih => exact hstep _ _ _ ih hok hs

/-- A weaker condition on the steps allows more runs. -/
theorem Reach.mono (himp : ∀ s a, ok s a → ok' s a) {s : σ} (h : Reach init step ok s) :
    Reach init step ok' s := by
  induction h with
  | init h => exact .init h
  | step _ hok hs ih => exact .step ih (himp _ _ hok) hs

/-- A system with more steps has more runs. -/
theorem Reach.mono_step {step' : σ → α → σ → Prop} (himp : ∀ s a s', step s a s' → step' s a s')
    {s : σ} (h : Reach init step ok s) : Reach init step' ok s := by
  induction h with
  | init h => exact .init h
  | step _ hok hs ih => exact .step ih hok (himp _ _ _ hs)

/-- A run of a machine with a step function, as long as `ok` holds before each of its steps. -/
def exec (next : σ → α → Option σ) (ok : σ → α → Bool) (s : σ) : List α → Option σ
  | [] => some s
  | a :: as => if ok s a then (next s a).bind fun s' => exec next ok s' as else none

/-- The end of such a run is reachable. -/
theorem Reach.exec {next : σ → α → Option σ} {P : σ → α → Prop} {check : σ → α → Bool}
    (hcheck : ∀ s a, check s a = true → P s a) {as : List α} {s s' : σ}
    (h : Reach init (fun s a s' => next s a = some s') P s)
    (hrun : exec next check s as = some s') :
    Reach init (fun s a s' => next s a = some s') P s' := by
  induction as generalizing s with
  | nil =>
    cases hrun
    exact h
  | cons a as ih =>
    unfold Lib.exec at hrun
    split at hrun
    · next ha =>
      obtain ⟨s₁, hstep, hrest⟩ := Option.bind_eq_some_iff.mp hrun
      exact ih (.step h (hcheck s a ha) hstep) hrest
    · exact absurd hrun (by simp)

end Chickadee.Lib
