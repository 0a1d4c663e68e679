import Chickadee.Wait.Queue
import Mathlib.Tactic

/-!
# No wakeup is lost

The invariant of wait queues. A blocked task is inside `block_until` and its waiter is on the queue,
or a waker has popped it and is about to wake it. What makes this safe is `woken`: once its predicate
holds, a blocked task is still running towards a test or towards `clear`, or a `wake_all` that was
called since the predicate became true is not over. The interrupt that takes such a running task off
its CPU is the one step that breaks it.
-/

set_option linter.unusedSectionVars false

namespace Chickadee.Wait

open Lib

variable {T W C Q P L : Type} [DecidableEq T] [DecidableEq W] [DecidableEq C] [DecidableEq Q]
  [DecidableEq P] [DecidableEq L]

/-- Between `prepare` and the end of `clear`. -/
def Pc.inside : Pc → Bool
  | .test | .unlock | .block | .yield | .clear | .leave => true
  | _ => false

/-- About to test the predicate, or about to clear after a test that succeeded. -/
def Pc.leaving : Pc → Bool
  | .test | .leave => true
  | _ => false

/-- The waiter that a waker has popped. -/
def Waker.target : Waker T P → Option T
  | .popped _ t | .cased _ t => some t
  | _ => none

/-- The predicate for which a waker is inside `wake_all` with the queue lock. -/
def Waker.holding : Waker T P → Option P
  | .hold p | .popped p _ | .cased p _ => some p
  | _ => none

variable {Λ : Layout T C Q P L} {s s' : State T W C Q P L}

/-! ## The building blocks -/

/-- The task that clears is running, so there is nothing to enqueue. -/
theorem clear_eq {t : T} (hr : s.Running Λ t) (pc : Pc) :
    s.clear Λ t pc = { s with
      pstate_ := Function.update s.pstate_ t .ps_runnable
      q_ := Function.update s.q_ (s.queue Λ t) ((s.q_ (s.queue Λ t)).erase t)
      pc := Function.update s.pc t pc } := by
  have hwake : s.wake Λ t = { s with pstate_ := Function.update s.pstate_ t .ps_runnable } := by
    unfold State.wake
    split
    · unfold State.enqueue
      rw [if_neg fun h => h.1 hr.1]
    · next hnot =>
      have hself : s.pstate_ t = .ps_runnable := by
        cases hp : s.pstate_ t with
        | ps_blocked => exact absurd hp hnot
        | ps_runnable => rfl
      rw [← hself, Function.update_eq_self]
  unfold State.clear
  rw [hwake]
  rfl

/-- An enqueued task is current or on its run queue; nothing else changes. -/
theorem enqueue_eq (t : T) : ∃ runq, s.enqueue Λ t = { s with runq_ := runq } ∧
    (s.current_ (Λ.cpu t) = some t ∨ some t ∈ runq (Λ.cpu t)) ∧
    ∀ c u, u ∈ runq c ↔ u ∈ s.runq_ c ∨
      (c = Λ.cpu t ∧ u = some t ∧ s.current_ (Λ.cpu t) ≠ some t) := by
  unfold State.enqueue
  split
  · next h =>
    refine ⟨_, rfl, Or.inr (by simp), fun c u => ?_⟩
    rw [Function.update_apply]
    split
    · next hc =>
      subst hc
      rw [List.mem_append, List.mem_singleton]
      simp [h.1]
    · next hc => simp [hc]
  · next h => exact ⟨s.runq_, rfl, by tauto, fun c u => by grind⟩

/-! ## The queues and the wakers -/

/-- Who is linked, who holds a queue lock, and where a blocked task is. -/
structure Queues (Λ : Layout T C Q P L) (s : State T W C Q P L) : Prop where
  linked : ∀ q t, t ∈ s.q_ q → q = s.queue Λ t ∧ (s.pc t).inside = true
  nodup : ∀ q, (s.q_ q).Nodup
  holder : ∀ w p, (s.waker w).holding = some p → s.qlock (Λ.queue p) = some w
  target : ∀ w p t, (s.waker w).holding = some p → (s.waker w).target = some t →
    s.queue Λ t = Λ.queue p ∧ (s.pc t).inside = true
  blocked : ∀ t, s.pstate_ t = .ps_blocked →
    (s.pc t).inside = true ∧ (t ∈ s.q_ (s.queue Λ t) ∨ ∃ w p, s.waker w = .popped p t)

/-- Only the queues, the wakers, the tasks' states and their places matter. -/
theorem Queues.congr (h : Queues Λ s) (hq : s'.q_ = s.q_) (hlock : s'.qlock = s.qlock)
    (hw : s'.waker = s.waker) (hp : s'.pred_ = s.pred_) (hpstate : s'.pstate_ = s.pstate_)
    (hpc : s'.pc = s.pc) : Queues Λ s' := by
  have hqueue : s'.queue Λ = s.queue Λ := by
    funext t
    unfold State.queue
    rw [hp]
  refine ⟨?_, ?_, ?_, ?_, ?_⟩
  · rw [hq, hqueue, hpc]
    exact h.linked
  · rw [hq]
    exact h.nodup
  · rw [hw, hlock]
    exact h.holder
  · rw [hw, hqueue, hpc]
    exact h.target
  · rw [hpstate, hpc, hq, hqueue, hw]
    exact h.blocked

/-- A task moves on inside the loop, or outside. -/
theorem Queues.move (h : Queues Λ s) (t : T) (pc : Pc)
    (hin : (s.pc t).inside = true → pc.inside = true) :
    Queues Λ { s with pc := Function.update s.pc t pc } := by
  obtain ⟨h₁, h₂, h₃, h₄, h₅⟩ := h
  constructor <;> simp only [State.queue, Function.update_apply] at * <;> grind

theorem Queues.cleared (h : Queues Λ s) {t : T} {pc : Pc} (_ : pc.inside = false)
    (hr : s.Running Λ t) (hlock : s.qlock (s.queue Λ t) = none) :
    Queues Λ (s.clear Λ t pc) := by
  rw [clear_eq hr]
  obtain ⟨h₁, h₂, h₃, h₄, h₅⟩ := h
  constructor <;> simp only [State.queue, Function.update_apply] at * <;> grind

/-- **Every step keeps the queues and the wakers in order.** -/
theorem Queues.step (h : Queues Λ s) {a : Act T W C P} (hs : s.step Λ a = some s') :
    Queues Λ s' := by
  cases a with
  | call t p locked =>
    simp only [State.step] at hs
    split at hs <;> cases hs
    next hg =>
      -- a task that is not in the loop is neither linked nor popped, so its predicate is free
      obtain ⟨h₁, h₂, h₃, h₄, h₅⟩ := h
      constructor <;> simp only [State.queue, Function.update_apply] at * <;> grind [Pc.inside]
  | prepare t =>
    simp only [State.step] at hs
    split at hs <;> cases hs
    next hg =>
      obtain ⟨h₁, h₂, h₃, h₄, h₅⟩ := h
      constructor <;> simp only [State.queue, Function.update_apply] at * <;> grind [Pc.inside]
  | test t =>
    simp only [State.step] at hs
    split at hs <;> cases hs
    next hg =>
      refine (h.move t (if s.pred (s.pred_ t) = true then .leave
        else if s.locked t = true then .unlock else .block) fun _ => ?_).congr rfl rfl rfl rfl rfl rfl
      split
      · rfl
      · split <;> rfl
  | unlock t =>
    simp only [State.step] at hs
    split at hs <;> cases hs
    exact (h.move t .block fun _ => rfl).congr rfl rfl rfl rfl rfl rfl
  | block t =>
    simp only [State.step] at hs
    split at hs <;> cases hs
    refine h.move _ _ fun _ => ?_
    split <;> rfl
  | yield t =>
    simp only [State.step] at hs
    split at hs <;> cases hs
    exact (h.move t .clear fun _ => rfl).congr rfl rfl rfl rfl rfl rfl
  | clear t =>
    simp only [State.step] at hs
    split at hs <;> cases hs
    next hg =>
      refine h.cleared ?_ hg.2.1 hg.2.2
      split <;> rfl
  | relock t =>
    simp only [State.step] at hs
    split at hs <;> cases hs
    next hg =>
      refine (h.move t .top fun hin => ?_).congr rfl rfl rfl rfl rfl rfl
      rw [hg.1] at hin
      exact hin
  | leave t =>
    simp only [State.step] at hs
    split at hs <;> cases hs
    next hg => exact h.cleared rfl hg.2.1 hg.2.2
  | ret t =>
    simp only [State.step] at hs
    split at hs <;> cases hs
    next hg =>
      refine (h.move t .out fun hin => ?_).congr rfl rfl rfl rfl rfl rfl
      rw [hg.1] at hin
      exact hin
  | setTrue w p =>
    simp only [State.step] at hs
    split at hs <;> cases hs
    next hg =>
      obtain ⟨h₁, h₂, h₃, h₄, h₅⟩ := h
      constructor <;> simp only [State.queue, Function.update_apply] at * <;>
        grind [Waker.holding, Waker.target]
  | setFalse p =>
    cases hs
    exact h.congr rfl rfl rfl rfl rfl rfl
  | grab w =>
    simp only [State.step] at hs
    split at hs
    · next p hw =>
      split at hs <;> cases hs
      next hfree =>
        obtain ⟨h₁, h₂, h₃, h₄, h₅⟩ := h
        constructor <;> simp only [State.queue, Function.update_apply] at * <;>
          grind [Waker.holding, Waker.target]
    · cases hs
  | pop w =>
    simp only [State.step] at hs
    split at hs
    · next p hw =>
      obtain ⟨h₁, h₂, h₃, h₄, h₅⟩ := h
      split at hs <;> cases hs
      · next hempty =>
        constructor <;> simp only [State.queue, Function.update_apply] at * <;>
          grind [Waker.holding, Waker.target]
      · next t rest hq =>
        refine ⟨?_, ?_, ?_, ?_, fun u hu => ?_⟩
        · simp only [State.queue, Function.update_apply] at *
          grind
        · simp only [Function.update_apply]
          grind
        · simp only [Function.update_apply]
          grind [Waker.holding]
        · simp only [State.queue, Function.update_apply] at *
          grind [Waker.holding, Waker.target]
        · -- the waiter at the front is the popped one, the others stay where they are
          obtain ⟨hin, hmem | ⟨w', p', hpop⟩⟩ := h₅ u hu
          · by_cases hut : u = t
            · subst hut
              exact ⟨hin, Or.inr ⟨w, p, by simp⟩⟩
            · refine ⟨hin, Or.inl ?_⟩
              show u ∈ Function.update s.q_ (Λ.queue p) rest (s.queue Λ u)
              rw [Function.update_apply]
              grind
          · have hne : w' ≠ w := by
              rintro rfl
              rw [hw] at hpop
              cases hpop
            exact ⟨hin, Or.inr ⟨w', p', by simp [hne, hpop]⟩⟩
    · cases hs
  | cas w =>
    simp only [State.step] at hs
    split at hs
    · next p t hw =>
      obtain ⟨h₁, h₂, h₃, h₄, h₅⟩ := h
      split at hs <;> cases hs
      · constructor <;> simp only [State.queue, Function.update_apply] at * <;>
          grind [Waker.holding, Waker.target]
      · constructor <;> simp only [State.queue, Function.update_apply] at * <;>
          grind [Waker.holding, Waker.target]
    · cases hs
  | enqueue w =>
    simp only [State.step] at hs
    split at hs
    · next p t hw =>
      cases hs
      obtain ⟨runq, heq, -⟩ := enqueue_eq (Λ := Λ)
        (s := { s with waker := Function.update s.waker w (.hold p) }) t
      rw [heq]
      obtain ⟨h₁, h₂, h₃, h₄, h₅⟩ := h
      constructor <;> simp only [State.queue, Function.update_apply] at * <;>
        grind [Waker.holding, Waker.target]
    · cases hs
  | preempt c =>
    simp only [State.step] at hs
    split at hs
    · split at hs <;> cases hs
      exact h.congr rfl rfl rfl rfl rfl rfl
    · split at hs <;> cases hs
      exact h.congr rfl rfl rfl rfl rfl rfl
  | switch c =>
    simp only [State.step] at hs
    split at hs <;> cases hs
    exact h.congr rfl rfl rfl rfl rfl rfl
  | resume c =>
    simp only [State.step] at hs
    split at hs <;> cases hs
    exact h.congr rfl rfl rfl rfl rfl rfl

/-! ## Wakeups -/

/-- The interrupt that loses a wakeup is left out: no timer interrupt takes a waiter of the first form
off its CPU between `prepare` and the test, or between a successful test and `clear`, while the waiter
is blocked and its predicate holds. -/
def Undisturbed (s : State T W C Q P L) : Act T W C P → Prop
  | .preempt c => ∀ t, s.current_ c = some t → s.locked t = false → (s.pc t).leaving = true →
      s.pstate_ t = .ps_blocked → s.pred (s.pred_ t) = false
  | _ => True

/--
A blocked task whose predicate holds is running and about to test it or to clear, or a `wake_all` that
was called since the predicate became true is not over.
-/
def Woken (Λ : Layout T C Q P L) (s : State T W C Q P L) : Prop :=
  ∀ t, s.pstate_ t = .ps_blocked → s.pred (s.pred_ t) = true →
    (s.Running Λ t ∧ (s.pc t).leaving = true) ∨
      ∃ w, s.fresh w = true ∧ (s.waker w).pred = some (s.pred_ t)

/-- Nothing changes but the place of a task that was past its test. -/
theorem Woken.move (h : Woken Λ s) {t : T} (pc : Pc) (held : L → Option T)
    (hpast : (s.pc t).leaving = false) :
    Woken Λ { s with pc := Function.update s.pc t pc, held := held } := by
  intro u hu hp
  rcases h u hu hp with ⟨hr, hl⟩ | hw
  · have hut : u ≠ t := by
      rintro rfl
      rw [hpast] at hl
      cases hl
    exact Or.inl ⟨hr, by simpa [Function.update_apply, hut] using hl⟩
  · exact Or.inr hw

/-- Nothing changes for `u` but what its CPU does. -/
theorem Running.of_mode {u : T} {mode : C → Mode} (hr : s.Running Λ u)
    (hmode : mode (Λ.cpu u) = .run) : State.Running Λ { s with mode := mode } u :=
  ⟨hr.1, hmode⟩

/-- Two running tasks have different CPUs. -/
theorem Running.cpu_ne {u t : T} (hu : s.Running Λ u) (ht : s.current_ (Λ.cpu t) = some t)
    (hne : u ≠ t) : Λ.cpu u ≠ Λ.cpu t := by
  intro heq
  have hcur := hu.1
  rw [heq, ht] at hcur
  exact hne (Option.some.inj hcur).symm

/-- A waker goes on with the same predicate. -/
theorem Woken.waker (h : Woken Λ s) {w : W} {k : Waker T P} (hk : k.pred = (s.waker w).pred)
    {qlock : Q → Option W} {q_ : Q → List T} {pstate_ : T → Pstate} {runq_ : C → List (Option T)}
    (hpstate : ∀ u, pstate_ u = .ps_blocked → s.pstate_ u = .ps_blocked) :
    Woken Λ { s with
      waker := Function.update s.waker w k, qlock := qlock, q_ := q_, pstate_ := pstate_
      runq_ := runq_ } := by
  intro u hu hp
  rcases h u (hpstate u hu) hp with hl | ⟨w', hfresh, hw'⟩
  · exact Or.inl hl
  · refine Or.inr ⟨w', hfresh, ?_⟩
    show (Function.update s.waker w k w').pred = some (s.pred_ u)
    rw [Function.update_apply]
    split
    · next heq => rw [hk, ← heq, hw']
    · exact hw'

/-- The task that clears is no longer blocked. -/
theorem Woken.cleared (h : Woken Λ s) {t : T} {pc : Pc} (hr : s.Running Λ t) :
    Woken Λ (s.clear Λ t pc) := by
  rw [clear_eq hr]
  intro u hu hp
  have hut : u ≠ t := by
    rintro rfl
    simp at hu
  have hu : s.pstate_ u = .ps_blocked := by simpa [Function.update_apply, hut] using hu
  rcases h u hu hp with ⟨hru, hl⟩ | hw
  · exact Or.inl ⟨hru, by simpa [Function.update_apply, hut] using hl⟩
  · exact Or.inr hw

/-- A CPU stops running its task, which is not a blocked waiter that would go on by itself. -/
theorem Woken.stop (h : Woken Λ s) {c : C}
    (hcur : ∀ t, s.current_ c = some t → s.pstate_ t = .ps_blocked → s.pred (s.pred_ t) = true →
      (s.pc t).leaving = false) :
    Woken Λ { s with mode := Function.update s.mode c .sched } := by
  intro u hu hp
  rcases h u hu hp with ⟨hr, hl⟩ | hw
  · have hcpu : Λ.cpu u ≠ c := by
      rintro rfl
      rw [hcur u hr.1 hu hp] at hl
      cases hl
    exact Or.inl ⟨Running.of_mode hr (by rw [Function.update_of_ne hcpu]; exact hr.2), hl⟩
  · exact Or.inr hw

/-- **Every step but the excluded interrupt keeps the wakeups.** -/
theorem Woken.step (h : Woken Λ s) (hq : Queues Λ s) {a : Act T W C P} (hok : Undisturbed s a)
    (hs : s.step Λ a = some s') : Woken Λ s' := by
  cases a with
  | call t p locked =>
    simp only [State.step] at hs
    split at hs <;> cases hs
    next hg =>
      intro u hu hp
      by_cases hut : u = t
      · subst hut
        have hin := (hq.blocked u hu).1
        rw [hg.1] at hin
        cases hin
      · simp only [Function.update_apply, if_neg hut] at hp ⊢
        exact h u hu hp
  | prepare t =>
    simp only [State.step] at hs
    split at hs <;> cases hs
    next hg =>
      intro u hu hp
      by_cases hut : u = t
      · subst hut
        exact Or.inl ⟨hg.2.1, by simp [Pc.leaving]⟩
      · simp only [Function.update_apply, if_neg hut] at hu ⊢
        exact h u hu hp
  | test t =>
    simp only [State.step] at hs
    split at hs <;> cases hs
    next hg =>
      intro u hu hp
      by_cases hut : u = t
      · subst hut
        have hp : s.pred (s.pred_ u) = true := hp
        exact Or.inl ⟨hg.2, by simp [hp, Pc.leaving]⟩
      · simp only [Function.update_apply, if_neg hut]
        exact h u hu hp
  | unlock t =>
    simp only [State.step] at hs
    split at hs <;> cases hs
    next hg => exact h.move _ _ (by rw [hg.1]; rfl)
  | block t =>
    simp only [State.step] at hs
    split at hs <;> cases hs
    next hg => exact h.move _ _ (by rw [hg.1]; rfl)
  | yield t =>
    simp only [State.step] at hs
    split at hs <;> cases hs
    next hg =>
      have hmoved := h.move (t := t) .clear s.held (by rw [hg.1]; rfl)
      refine hmoved.stop (c := Λ.cpu t) fun u hcur _ _ => ?_
      have hut : u = t := Option.some.inj (hcur.symm.trans hg.2.1)
      subst hut
      simp [Pc.leaving]
  | clear t =>
    simp only [State.step] at hs
    split at hs <;> cases hs
    next hg => exact h.cleared hg.2.1
  | relock t =>
    simp only [State.step] at hs
    split at hs <;> cases hs
    next hg => exact h.move _ _ (by rw [hg.1]; rfl)
  | leave t =>
    simp only [State.step] at hs
    split at hs <;> cases hs
    next hg => exact h.cleared hg.2.1
  | ret t =>
    simp only [State.step] at hs
    split at hs <;> cases hs
    next hg => exact h.move _ _ (by rw [hg.1]; rfl)
  | setTrue w p =>
    simp only [State.step] at hs
    split at hs <;> cases hs
    next hg =>
      intro u hu hp
      by_cases hpu : s.pred_ u = p
      · exact Or.inr ⟨w, by simp, by simp [Waker.pred, hpu]⟩
      · have hp : s.pred (s.pred_ u) = true := by simpa [Function.update_apply, hpu] using hp
        rcases h u hu hp with hl | ⟨w', hfresh, hw'⟩
        · exact Or.inl hl
        · have hne : w' ≠ w := by
            rintro rfl
            rw [hg.1] at hw'
            cases hw'
          exact Or.inr ⟨w', by simpa [hne] using hfresh, by simpa [hne] using hw'⟩
  | setFalse p =>
    cases hs
    intro u hu hp
    have hpu : s.pred_ u ≠ p := by
      intro heq
      simp [heq] at hp
    have hp : s.pred (s.pred_ u) = true := by simpa [Function.update_apply, hpu] using hp
    rcases h u hu hp with hl | ⟨w', hfresh, hw'⟩
    · exact Or.inl hl
    · exact Or.inr ⟨w', by simp [hfresh, hw', hpu], hw'⟩
  | grab w =>
    simp only [State.step] at hs
    split at hs
    · next p hw =>
      split at hs <;> cases hs
      exact h.waker (by rw [hw]; rfl) fun _ hu => hu
    · cases hs
  | pop w =>
    simp only [State.step] at hs
    split at hs
    · next p hw =>
      split at hs <;> cases hs
      · next hempty =>
        -- `wake_all` returns: nobody who waits for its predicate is blocked
        intro u hu hp
        rcases h u hu hp with hl | ⟨w', hfresh, hw'⟩
        · exact Or.inl hl
        · by_cases hne : w' = w
          · subst hne
            rw [hw] at hw'
            have hpu : p = s.pred_ u := Option.some.inj hw'
            rcases (hq.blocked u hu).2 with hmem | ⟨w'', p'', hpop⟩
            · unfold State.queue at hmem
              rw [← hpu, hempty] at hmem
              cases hmem
            · -- the queue lock has one holder
              have hqueue := (hq.target w'' p'' u (by rw [hpop]; rfl) (by rw [hpop]; rfl)).1
              have h₁ := hq.holder w'' p'' (by rw [hpop]; rfl)
              have h₂ := hq.holder w' p (by rw [hw]; rfl)
              unfold State.queue at hqueue
              rw [← hqueue, ← hpu, h₂] at h₁
              cases h₁
              rw [hw] at hpop
              cases hpop
          · exact Or.inr ⟨w', hfresh, by simpa [hne] using hw'⟩
      · exact h.waker (by rw [hw]; rfl) fun _ hu => hu
    · cases hs
  | cas w =>
    simp only [State.step] at hs
    split at hs
    · next p t hw =>
      split at hs <;> cases hs
      · refine h.waker (by rw [hw]; rfl) fun u hu => ?_
        rw [Function.update_apply] at hu
        split at hu
        · cases hu
        · exact hu
      · exact h.waker (by rw [hw]; rfl) fun _ hu => hu
    · cases hs
  | enqueue w =>
    simp only [State.step] at hs
    split at hs
    · next p t hw =>
      cases hs
      obtain ⟨runq, heq, -⟩ := enqueue_eq (Λ := Λ)
        (s := { s with waker := Function.update s.waker w (.hold p) }) t
      rw [heq]
      exact h.waker (by rw [hw]; rfl) fun _ hu => hu
    · cases hs
  | preempt c =>
    simp only [State.step] at hs
    split at hs
    · next hcur =>
      split at hs <;> cases hs
      refine h.stop fun t ht _ _ => ?_
      rw [hcur] at ht
      cases ht
    · next t hcur =>
      split at hs <;> cases hs
      next hg =>
        refine h.stop fun u hu hblocked hp => ?_
        rw [hcur] at hu
        cases hu
        -- in the second form the lock is held in these places, so interrupts are disabled
        by_contra hleaving
        have hleaving : (s.pc t).leaving = true := by simpa using hleaving
        have hlocked : s.locked t = false := by
          have hnolock := hg.2.2
          unfold State.holdsLock at hnolock
          cases hpc : s.pc t <;> simp_all [Pc.leaving]
        rw [hok t hcur hlocked hleaving hblocked] at hp
        cases hp
  | switch c =>
    simp only [State.step] at hs
    split at hs <;> cases hs
    next hg =>
      intro u hu hp
      rcases h u hu hp with ⟨hr, hl⟩ | hw
      · have hcpu : Λ.cpu u ≠ c := by
          rintro rfl
          rw [hr.2] at hg
          cases hg
        refine Or.inl ⟨⟨?_, hr.2⟩, hl⟩
        show Function.update s.current_ c _ (Λ.cpu u) = some u
        rw [Function.update_of_ne hcpu]
        exact hr.1
      · exact Or.inr hw
  | resume c =>
    simp only [State.step] at hs
    split at hs <;> cases hs
    intro u hu hp
    rcases h u hu hp with ⟨hr, hl⟩ | hw
    · refine Or.inl ⟨Running.of_mode hr ?_, hl⟩
      rw [Function.update_apply]
      split
      · rfl
      · exact hr.2
    · exact Or.inr hw

end Chickadee.Wait
