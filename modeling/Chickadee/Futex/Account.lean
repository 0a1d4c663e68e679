import Chickadee.Futex.Waiters

/-!
# The reference counts of futex states

A futex state is linked as long as a task waits on it, `ref_` counts these tasks, and the queue holds
the waiters that are blocked. A task that is made to exit inside `block_until` never calls `remove`, so
this holds as long as no waiting task is killed.
-/

namespace Chickadee.Futex

open Lib
open Wait (Pstate)

set_option linter.unusedSectionVars false

variable {T S A : Type} [DecidableEq T] [DecidableEq S] [DecidableEq A]

variable {Λ : T → A} {s s' : State T S A} {t u : T} {f g : S}

/-- The tasks that wait on `f`. -/
def State.waiting (s : State T S A) (f : S) : Set T := {t | (s.pc t).waits = some f}

/-- The futex state in whose queue a task may be. -/
def Pc.queued : Pc S → Option S
  | .test f | .block f | .yield f | .asleep f | .leave f => some f
  | _ => none

theorem Pc.waits_of_queued {pc : Pc S} (h : pc.queued = some f) : pc.waits = some f := by
  cases pc <;> simp_all [Pc.queued, Pc.waits]

/-- No waiting task takes the exit of `block_until`, or is stopped in `yield()`. -/
def Spared (s : State T S A) : Act T S A → Prop
  | .leave t => s.exit_signal_ t = false
  | .yield t => ¬(s.exit_signal_ t = true ∧ s.pstate_ t = .ps_runnable)
  | _ => True

instance (s : State T S A) (a : Act T S A) : Decidable (Spared s a) := by
  cases a <;> unfold Spared <;> infer_instance

/-! ## The states and their counts -/

/-- The list has one state for each word that tasks wait for, with the number of these tasks. -/
structure Counted (s : State T S A) : Prop where
  nodup : s.states_.Nodup
  words : ∀ f ∈ s.states_, ∀ g ∈ s.states_, s.word_ f = s.word_ g → f = g
  waits : ∀ t f, (s.pc t).waits = some f → f ∈ s.states_ ∧ s.word_ f = (s.args t).uaddr
  count : ∀ f ∈ s.states_, (s.waiting f).encard = s.ref_ f ∧ 0 < s.ref_ f

/-- Steps by which no task begins or ends to wait. -/
theorem Counted.congr (h : Counted s) (hstates : s'.states_ = s.states_) (hword : s'.word_ = s.word_)
    (href : s'.ref_ = s.ref_) (hwaits : ∀ t, (s'.pc t).waits = (s.pc t).waits)
    (hargs : ∀ t f, (s.pc t).waits = some f → s'.args t = s.args t) : Counted s' := by
  refine ⟨by rw [hstates]; exact h.nodup, by rw [hstates, hword]; exact h.words, ?_, ?_⟩
  · intro t f ht
    rw [hwaits] at ht
    rw [hstates, hword, hargs t f ht]
    exact h.waits t f ht
  · intro f hf
    have hset : s'.waiting f = s.waiting f := Set.ext fun t => by
      simp only [State.waiting, Set.mem_ofPred_eq, hwaits]
    rw [hset, href]
    exact h.count f (hstates ▸ hf)

/-- One task goes on, and waits on what it waited on before. -/
theorem waits_update {pc : T → Pc S} {p : Pc S} (hp : p.waits = (pc t).waits) (u : T) :
    (Function.update pc t p u).waits = (pc u).waits := by
  by_cases hut : u = t
  · rw [hut, Function.update_self, hp]
  · rw [Function.update_of_ne hut]

/-- `t` begins to wait on `f`. -/
theorem encard_waiting_insert {pc : T → Pc S} {p : Pc S} (ht : (pc t).waits = none)
    (hp : p.waits = some f) : {u | (Function.update pc t p u).waits = some f}.encard =
      {u | (pc u).waits = some f}.encard + 1 := by
  have hset : {u | (Function.update pc t p u).waits = some f} =
      insert t {u | (pc u).waits = some f} := Set.ext fun u => by
    by_cases hut : u = t
    · simp [hut, hp]
    · simp [hut]
  rw [hset, Set.encard_insert_of_notMem]
  simp [ht]

/-- `t` stops waiting on `f`. -/
theorem encard_waiting_erase {pc : T → Pc S} {p : Pc S} (ht : (pc t).waits = some f)
    (hp : p.waits = none) : {u | (Function.update pc t p u).waits = some f}.encard + 1 =
      {u | (pc u).waits = some f}.encard := by
  have hset : {u | (Function.update pc t p u).waits = some f} =
      {u | (pc u).waits = some f} \ {t} := Set.ext fun u => by
    by_cases hut : u = t
    · simp [hut, hp]
    · simp [hut]
  rw [hset, Set.encard_sdiff_singleton_add_one]
  exact ht

/-- The tasks on the other states stay. -/
theorem waiting_update_of_ne {pc : T → Pc S} {p : Pc S} (ht : (pc t).waits ≠ some g)
    (hp : p.waits ≠ some g) :
    {u | (Function.update pc t p u).waits = some g} = {u | (pc u).waits = some g} := by
  ext u
  by_cases hut : u = t
  · simp [hut, ht, hp]
  · simp [Function.update_of_ne hut]

theorem find_mem {uaddr : ℕ} (h : s.find uaddr = some f) :
    f ∈ s.states_ ∧ s.word_ f = uaddr := by
  unfold State.find at h
  exact ⟨List.mem_of_find?_eq_some h, by simpa using List.find?_some h⟩

theorem find_none {uaddr : ℕ} (h : s.find uaddr = none) (hf : f ∈ s.states_) :
    s.word_ f ≠ uaddr := by
  have hne := List.find?_eq_none.mp h f hf
  simpa using hne

/-- `futexwaiters::add`. -/
theorem Counted.add (h : Counted s) (ht : s.pc t = .add) {new : Option S}
    (hs : s.add t new = some s') : Counted s' := by
  have hnone : (s.pc t).waits = none := by rw [ht]; rfl
  unfold State.add at hs
  dsimp only at hs
  split at hs
  · next f hf =>
    cases hs
    obtain ⟨hmem, hword⟩ := find_mem hf
    refine ⟨h.nodup, h.words, fun u g hu => ?_, fun g hg => ?_⟩
    · by_cases hut : u = t
      · subst hut
        have hgf : f = g := by simpa [Pc.waits] using hu
        exact hgf ▸ ⟨hmem, hword⟩
      · exact h.waits u g (by simpa [Function.update_of_ne hut] using hu)
    · obtain ⟨hcount, hpos⟩ := h.count g hg
      unfold State.waiting at hcount ⊢
      by_cases hgf : g = f
      · subst hgf
        simp only [State.goto, Function.update_self]
        rw [encard_waiting_insert hnone rfl, hcount]
        exact ⟨by push_cast; rfl, Nat.succ_pos _⟩
      · simp only [State.goto, Function.update_of_ne hgf]
        rw [waiting_update_of_ne (by rw [hnone]; simp) (by simpa [Pc.waits] using fun e => hgf e.symm)]
        exact ⟨hcount, hpos⟩
  · next hnot =>
    split at hs
    · cases hs
      exact h.congr rfl rfl rfl (waits_update (by rw [hnone]; rfl)) fun _ _ _ => rfl
    · next f =>
      split at hs <;> cases hs
      next hf =>
      have hold : ∀ g ∈ s.states_, g ≠ f := fun g hg hgf => hf (hgf ▸ hg)
      have hempty : {u | (s.pc u).waits = some f} = ∅ :=
        Set.eq_empty_of_forall_notMem fun u hu => hf (h.waits u f hu).1
      refine ⟨?_, ?_, fun u g hu => ?_, fun g hg => ?_⟩
      · show (s.states_ ++ [f]).Nodup
        exact List.nodup_append.mpr ⟨h.nodup, List.nodup_singleton f, by simpa using hold⟩
      · have hne : ∀ g ∈ s.states_, s.word_ g ≠ (s.args t).uaddr := fun g => find_none hnot
        intro g hg g' hg' heq
        simp only [State.goto, List.mem_append, List.mem_singleton] at hg hg' heq
        rcases hg with hg | rfl <;> rcases hg' with hg' | rfl
        · rw [Function.update_of_ne (hold g hg), Function.update_of_ne (hold g' hg')] at heq
          exact h.words g hg g' hg' heq
        · rw [Function.update_of_ne (hold g hg), Function.update_self] at heq
          exact absurd heq (hne g hg)
        · rw [Function.update_of_ne (hold g' hg'), Function.update_self] at heq
          exact absurd heq.symm (hne g' hg')
        · rfl
      · simp only [State.goto, List.mem_append, List.mem_singleton]
        by_cases hut : u = t
        · subst hut
          have hgf : f = g := by simpa [Pc.waits] using hu
          subst hgf
          exact ⟨Or.inr rfl, by rw [Function.update_self]⟩
        · have hw := h.waits u g (by simpa [Function.update_of_ne hut] using hu)
          rw [Function.update_of_ne (hold g hw.1)]
          exact ⟨Or.inl hw.1, hw.2⟩
      · simp only [State.goto, List.mem_append, List.mem_singleton] at hg
        unfold State.waiting
        by_cases hgf : g = f
        · subst hgf
          simp only [State.goto, Function.update_self]
          rw [encard_waiting_insert hnone rfl, hempty]
          simp
        · have hg' : g ∈ s.states_ := hg.resolve_right hgf
          simp only [State.goto, Function.update_of_ne hgf]
          rw [waiting_update_of_ne (by rw [hnone]; simp)
            (by simpa [Pc.waits] using fun e => hgf e.symm)]
          exact h.count g hg'

/-- `futexwaiters::remove`. -/
theorem Counted.remove (h : Counted s) (ht : s.pc t = .remove f) : Counted (s.remove t f) := by
  have hsome : (s.pc t).waits = some f := by rw [ht]; rfl
  obtain ⟨hmem, hword⟩ := h.waits t f hsome
  obtain ⟨hcount, hpos⟩ := h.count f hmem
  have hrest : {u | (Function.update s.pc t .user u).waits = some f}.encard =
      ((s.ref_ f - 1 : ℕ) : ℕ∞) := by
    have hsub := encard_waiting_erase (p := .user) hsome rfl
    unfold State.waiting at hcount
    rw [hcount, show s.ref_ f = s.ref_ f - 1 + 1 by omega] at hsub
    push_cast at hsub
    exact ENat.add_left_injective_of_ne_top ENat.one_ne_top hsub
  have hin : ∀ g, g ∈ (s.remove t f).states_ → g ∈ s.states_ := fun g hg => by
    simp only [State.remove, State.ret] at hg
    split at hg
    · exact List.mem_of_mem_erase hg
    · exact hg
  refine ⟨?_, fun g hg g' hg' => h.words g (hin g hg) g' (hin g' hg'), fun u g hu => ?_,
    fun g hg => ?_⟩
  · simp only [State.remove, State.ret]
    split
    · exact h.nodup.erase f
    · exact h.nodup
  · have hut : u ≠ t := by
      rintro rfl
      simp [Pc.waits] at hu
    have hug : (s.pc u).waits = some g := by simpa [Function.update_of_ne hut] using hu
    obtain ⟨hg, hw⟩ := h.waits u g hug
    refine ⟨?_, hw⟩
    simp only [State.remove, State.ret]
    split
    · next hzero =>
      -- nobody else waits on `f` when the count is 0
      rw [List.Nodup.mem_erase_iff h.nodup]
      refine ⟨?_, hg⟩
      rintro rfl
      rw [hzero, Nat.cast_zero, Set.encard_eq_zero] at hrest
      have : u ∈ (∅ : Set T) := by
        rw [← hrest]
        simpa [Function.update_of_ne hut] using hug
      exact this
    · exact hg
  · have hgs := hin g hg
    unfold State.waiting
    rw [State.remove_pc]
    by_cases hgf : g = f
    · subst hgf
      rw [hrest]
      simp only [State.remove, State.ret, Function.update_self, true_and]
      by_contra hzero
      have hz : s.ref_ g - 1 = 0 := by omega
      simp only [State.remove, State.ret, if_pos hz] at hg
      exact (List.Nodup.mem_erase_iff h.nodup).mp hg |>.1 rfl
    · rw [waiting_update_of_ne (by rw [hsome]; simpa using fun e => hgf e.symm) (by simp [Pc.waits])]
      simp only [State.remove, State.ret, Function.update_of_ne hgf]
      exact h.count g hgs

/-- A step of `t` alone, by which it does not begin or end to wait. -/
theorem Counted.of_update (h : Counted s) {p : Pc S} (hp : p.waits = (s.pc t).waits)
    (hpc : s'.pc = Function.update s.pc t p) (hstates : s'.states_ = s.states_)
    (hword : s'.word_ = s.word_) (href : s'.ref_ = s.ref_) (hargs : s'.args = s.args) :
    Counted s' :=
  h.congr hstates hword href (fun u => by rw [hpc]; exact waits_update hp u)
    fun _ _ _ => by rw [hargs]

/-- **No step breaks the reference counts, if no waiting task is killed.** -/
theorem Counted.step (h : Counted s) {a : Act T S A} (hok : Spared s a)
    (hs : s.step Λ a = some s') : Counted s' := by
  cases a with
  | call t op args fault =>
    simp only [State.step] at hs
    split at hs
    · next ht =>
      have hnone : (s.pc t).waits = none := by rw [ht]; rfl
      split at hs
      · cases hs
        exact h.of_update (t := t) (p := .user) (by rw [hnone]; rfl) rfl rfl rfl rfl rfl
      · split at hs <;> cases hs
        · exact h.of_update (t := t) (p := .user) (by rw [hnone]; rfl) rfl rfl rfl rfl rfl
        · refine h.congr rfl rfl rfl (waits_update (by rw [hnone]; split <;> rfl)) fun u f hu => ?_
          have hut : u ≠ t := by
            rintro rfl
            rw [hnone] at hu
            cases hu
          exact Function.update_of_ne hut _ _
    · cases hs
  | write a uaddr x =>
    cases hs
    exact h.congr rfl rfl rfl (fun _ => rfl) fun _ _ _ => rfl
  | tick =>
    cases hs
    exact h.congr rfl rfl rfl (fun _ => rfl) fun _ _ _ => rfl
  | check t =>
    simp only [State.step] at hs
    split at hs
    · next ht =>
      split at hs <;> cases hs <;>
        exact h.of_update (t := t) (by rw [ht]; rfl) rfl rfl rfl rfl rfl
    · cases hs
  | add t new =>
    simp only [State.step] at hs
    split at hs
    · next ht => exact h.add ht hs
    · cases hs
  | prepare t =>
    simp only [State.step] at hs
    split at hs <;> cases hs
    next f ht => exact h.of_update (t := t) (p := .test f) (by rw [ht]; rfl) rfl rfl rfl rfl rfl
  | test t =>
    simp only [State.step] at hs
    split at hs
    · next f ht =>
      split at hs
      · cases hs
        exact h.of_update (t := t) (p := .leave f) (by rw [ht]; rfl) rfl rfl rfl rfl rfl
      · split at hs <;> cases hs <;>
          exact h.of_update (t := t) (by rw [ht]; rfl) rfl rfl rfl rfl rfl
    · cases hs
  | block t =>
    simp only [State.step] at hs
    split at hs <;> cases hs
    next f ht =>
      refine h.of_update (t := t) ?_ rfl rfl rfl rfl rfl
      rw [ht]
      split <;> rfl
  | yield t =>
    simp only [State.step] at hs
    split at hs
    · next f ht =>
      split at hs
      · next hexit => exact absurd hexit hok
      · cases hs
        exact h.of_update (t := t) (p := .asleep f) (by rw [ht]; rfl) rfl rfl rfl rfl rfl
    · cases hs
  | resume t =>
    simp only [State.step] at hs
    split at hs
    · next f ht =>
      split at hs <;> cases hs
      exact h.of_update (t := t) (p := .clear f) (by rw [ht]; rfl) rfl rfl rfl rfl rfl
    · cases hs
  | clear t =>
    simp only [State.step] at hs
    split at hs <;> cases hs
    next f ht => exact h.of_update (t := t) (p := .prepare f) (by rw [ht]; rfl) rfl rfl rfl rfl rfl
  | leave t =>
    simp only [State.step] at hs
    split at hs
    · next f ht =>
      split at hs
      · next hexit => exact absurd hexit (by simpa [Spared] using hok)
      · cases hs
        exact h.of_update (t := t) (p := .remove f) (by rw [ht]; rfl) rfl rfl rfl rfl rfl
    · cases hs
  | remove t =>
    simp only [State.step] at hs
    split at hs <;> cases hs
    next f ht => exact h.remove ht
  | find t =>
    simp only [State.step] at hs
    split at hs
    · next ht =>
      split at hs <;> cases hs <;>
        exact h.of_update (t := t) (by rw [ht]; rfl) rfl rfl rfl rfl rfl
    · cases hs
  | wake t =>
    simp only [State.step] at hs
    split at hs
    · next f ht =>
      split at hs <;> cases hs <;>
        exact h.of_update (t := t) (p := .user) (by rw [ht]; rfl) rfl rfl rfl rfl rfl
    · cases hs
  | check_timeout f =>
    simp only [State.step] at hs
    split at hs <;> cases hs
    exact h.congr rfl rfl rfl (fun _ => rfl) fun _ _ _ => rfl
  | signal t =>
    cases hs
    exact h.congr rfl rfl rfl (fun _ => rfl) fun _ _ _ => rfl
  | kill t =>
    simp only [State.step] at hs
    split at hs <;> cases hs
    next ht => exact h.of_update (t := t) (p := .exiting) (by rw [ht.1]; rfl) rfl rfl rfl rfl rfl

theorem Counted.init (h : s.Init) : Counted s := by
  refine ⟨?_, ?_, fun t f ht => ?_, ?_⟩
  · rw [h.states]
    exact List.nodup_nil
  · simp [h.states]
  · rw [h.pc] at ht
    cases ht
  · simp [h.states]

/-! ## The queues -/

/-- The queue of a futex state holds the waiters that are blocked; the others are runnable. -/
structure Queued (s : State T S A) : Prop where
  mem : ∀ f ∈ s.states_, ∀ t, t ∈ s.wq_ f ↔ (s.pc t).queued = some f ∧ s.pstate_ t = .ps_blocked
  nodup : ∀ f ∈ s.states_, (s.wq_ f).Nodup
  runnable : ∀ t, (s.pc t).queued = none → s.pstate_ t = .ps_runnable

/-- `t` goes on and stays where it is in the queues. -/
theorem Queued.of_update (h : Queued s) {p : Pc S}
    (hp : p.queued = (s.pc t).queued ∨ p.queued = none ∧ s.pstate_ t = .ps_runnable)
    (hpc : s'.pc = Function.update s.pc t p) (hstates : s'.states_ = s.states_)
    (hwq : s'.wq_ = s.wq_) (hpstate : s'.pstate_ = s.pstate_) : Queued s' := by
  refine ⟨fun f hf u => ?_, by rw [hstates, hwq]; exact h.nodup, fun u hu => ?_⟩
  · rw [hpc, hwq, hpstate, h.mem f (hstates ▸ hf) u]
    by_cases hut : u = t
    · subst hut
      rw [Function.update_self]
      rcases hp with hp | ⟨hp, hrun⟩
      · rw [hp]
      · simp [hp, hrun]
    · rw [Function.update_of_ne hut]
  · rw [hpc] at hu
    rw [hpstate]
    by_cases hut : u = t
    · subst hut
      rw [Function.update_self] at hu
      rcases hp with hp | ⟨_, hrun⟩
      · exact h.runnable u (hp ▸ hu)
      · exact hrun
    · exact h.runnable u (by simpa [Function.update_of_ne hut] using hu)

/-- `wq_.wake_some(n)`. -/
theorem Queued.wake_some (h : Queued s) (hf : f ∈ s.states_) (n : ℕ) :
    Queued (s.wake_some f n) := by
  have hsplit : s.popped f n ++ (s.wq_ f).drop n = s.wq_ f := List.take_append_drop n _
  have hnd : (s.popped f n ++ (s.wq_ f).drop n).Nodup := hsplit.symm ▸ h.nodup f hf
  have hmem : ∀ u, u ∈ s.wq_ f ↔ u ∈ s.popped f n ∨ u ∈ (s.wq_ f).drop n := fun u => by
    rw [← List.mem_append, hsplit]
  refine ⟨fun g hg u => ?_, fun g hg => ?_, fun u hu => ?_⟩
  · simp only [State.wake_some]
    by_cases hgf : g = f
    · subst hgf
      rw [Function.update_self]
      split
      · next hu =>
        simp only [reduceCtorEq, and_false, iff_false]
        exact fun hd => List.disjoint_of_nodup_append hnd hu hd
      · next hu =>
        rw [← h.mem g hg u, hmem u]
        simp [hu]
    · rw [Function.update_of_ne hgf, h.mem g hg u]
      split
      · next hu =>
        have hq := ((h.mem f hf u).mp ((hmem u).mpr (Or.inl hu))).1
        simp only [reduceCtorEq, and_false, iff_false]
        rintro ⟨hg', _⟩
        exact hgf (Option.some.inj (hg'.symm.trans hq))
      · rfl
  · simp only [State.wake_some]
    by_cases hgf : g = f
    · subst hgf
      rw [Function.update_self]
      exact (h.nodup g hg).sublist (List.drop_sublist n _)
    · rw [Function.update_of_ne hgf]
      exact h.nodup g hg
  · simp only [State.wake_some]
    split
    · rfl
    · exact h.runnable u hu

/-- `prepare` links a waiter that is not linked. -/
theorem Queued.prepare (h : Queued s) (hc : Counted s) (ht : s.pc t = .prepare f) :
    Queued ({ s with
      pstate_ := Function.update s.pstate_ t .ps_blocked
      wq_ := Function.update s.wq_ f (s.wq_ f ++ [t]) }.goto t (.test f)) := by
  have hf : f ∈ s.states_ := (hc.waits t f (by rw [ht]; rfl)).1
  have hout : ∀ g ∈ s.states_, t ∉ s.wq_ g := fun g hg hmem => by
    have hq := ((h.mem g hg t).mp hmem).1
    rw [ht] at hq
    cases hq
  refine ⟨fun g hg u => ?_, fun g hg => ?_, fun u hu => ?_⟩
  · simp only [State.goto]
    by_cases hut : u = t
    · subst hut
      by_cases hgf : g = f
      · subst hgf
        simp [Pc.queued]
      · simp only [Function.update_of_ne hgf, Function.update_self, Pc.queued, Option.some.injEq,
          and_true]
        exact ⟨fun hu => absurd hu (hout g hg), fun e => absurd e.symm hgf⟩
    · rw [Function.update_of_ne hut, Function.update_of_ne hut, ← h.mem g hg u]
      by_cases hgf : g = f
      · subst hgf
        simp [hut]
      · rw [Function.update_of_ne hgf]
  · simp only [State.goto]
    by_cases hgf : g = f
    · subst hgf
      rw [Function.update_self]
      exact List.nodup_append.mpr ⟨h.nodup g hg, List.nodup_singleton t, by
        rintro a ha b hb rfl
        exact hout g hg (List.mem_singleton.mp hb ▸ ha)⟩
    · rw [Function.update_of_ne hgf]
      exact h.nodup g hg
  · have hut : u ≠ t := by
      rintro rfl
      simp [State.goto, Pc.queued] at hu
    simp only [State.goto, Function.update_of_ne hut] at hu ⊢
    exact h.runnable u hu

/-- `clear()` unlinks a waiter. -/
theorem Queued.clear (h : Queued s) {p : Pc S} (hp : p.queued = none)
    (ht : (s.pc t).queued = some f ∨ (s.pc t).queued = none) :
    Queued ((s.clear t f).goto t p) := by
  refine ⟨fun g hg u => ?_, fun g hg => ?_, fun u hu => ?_⟩
  · simp only [State.goto, State.clear]
    by_cases hut : u = t
    · subst hut
      simp only [Function.update_self, hp, reduceCtorEq, false_and, iff_false]
      by_cases hgf : g = f
      · subst hgf
        rw [Function.update_self]
        exact (h.nodup g hg).not_mem_erase
      · rw [Function.update_of_ne hgf, h.mem g hg u]
        rintro ⟨hq, _⟩
        rcases ht with ht | ht <;> rw [ht] at hq
        · exact hgf (Option.some.inj hq).symm
        · cases hq
    · rw [Function.update_of_ne hut, Function.update_of_ne hut, ← h.mem g hg u]
      by_cases hgf : g = f
      · subst hgf
        rw [Function.update_self, List.mem_erase_of_ne hut]
      · rw [Function.update_of_ne hgf]
  · simp only [State.goto, State.clear]
    by_cases hgf : g = f
    · subst hgf
      rw [Function.update_self]
      exact (h.nodup g hg).erase t
    · rw [Function.update_of_ne hgf]
      exact h.nodup g hg
  · simp only [State.goto, State.clear] at hu ⊢
    by_cases hut : u = t
    · rw [hut, Function.update_self]
    · rw [Function.update_of_ne hut] at hu ⊢
      exact h.runnable u hu

/-- `futexwaiters::add`. -/
theorem Queued.add (h : Queued s) (hc : Counted s) (ht : s.pc t = .add) {new : Option S}
    (hs : s.add t new = some s') : Queued s' := by
  have hnone : (s.pc t).queued = none := by rw [ht]; rfl
  unfold State.add at hs
  dsimp only at hs
  split at hs
  · next f hf =>
    cases hs
    exact h.of_update (t := t) (p := .prepare f) (Or.inl (by rw [hnone]; rfl)) rfl rfl rfl rfl
  · split at hs
    · cases hs
      exact h.of_update (t := t) (p := .user) (Or.inl (by rw [hnone]; rfl)) rfl rfl rfl rfl
    · next f =>
      split at hs <;> cases hs
      next hf =>
      have hsame : ∀ u, (Function.update s.pc t (.prepare f) u).queued = (s.pc u).queued := fun u => by
        by_cases hut : u = t
        · rw [hut, Function.update_self, hnone]
          rfl
        · rw [Function.update_of_ne hut]
      refine ⟨fun g hg u => ?_, fun g hg => ?_, fun u hu => h.runnable u (hsame u ▸ hu)⟩
      · simp only [State.goto, List.mem_append, List.mem_singleton] at hg ⊢
        rw [hsame]
        by_cases hgf : g = f
        · subst hgf
          simp only [Function.update_self, List.not_mem_nil, false_iff]
          rintro ⟨hq, _⟩
          exact hf (hc.waits u g (Pc.waits_of_queued hq)).1
        · rw [Function.update_of_ne hgf]
          exact h.mem g (hg.resolve_right hgf) u
      · simp only [State.goto, List.mem_append, List.mem_singleton] at hg ⊢
        by_cases hgf : g = f
        · subst hgf
          rw [Function.update_self]
          exact List.nodup_nil
        · rw [Function.update_of_ne hgf]
          exact h.nodup g (hg.resolve_right hgf)

/-- `futexwaiters::remove`. -/
theorem Queued.remove (h : Queued s) (ht : s.pc t = .remove f) : Queued (s.remove t f) := by
  have hin : ∀ g, g ∈ (s.remove t f).states_ → g ∈ s.states_ := fun g hg => by
    simp only [State.remove, State.ret] at hg
    split at hg
    · exact List.mem_of_mem_erase hg
    · exact hg
  have hsame : ∀ u, (Function.update s.pc t .user u).queued = (s.pc u).queued := fun u => by
    by_cases hut : u = t
    · rw [hut, Function.update_self, ht]
      rfl
    · rw [Function.update_of_ne hut]
  refine ⟨fun g hg u => ?_, fun g hg => h.nodup g (hin g hg), fun u hu => ?_⟩
  · rw [State.remove_pc, hsame]
    exact h.mem g (hin g hg) u
  · exact h.runnable u (by rw [← hsame]; exact hu)

/-- **No step breaks the queues, if no waiting task is killed.** -/
theorem Queued.step (h : Queued s) (hc : Counted s) {a : Act T S A} (hok : Spared s a)
    (hs : s.step Λ a = some s') : Queued s' := by
  cases a with
  | call t op args fault =>
    simp only [State.step] at hs
    split at hs
    · next ht =>
      have hnone : (s.pc t).queued = none := by rw [ht]; rfl
      split at hs
      · cases hs
        exact h.of_update (t := t) (p := .user) (Or.inl (by rw [hnone]; rfl)) rfl rfl rfl rfl
      · split at hs <;> cases hs
        · exact h.of_update (t := t) (p := .user) (Or.inl (by rw [hnone]; rfl)) rfl rfl rfl rfl
        · exact h.of_update (t := t) (Or.inl (by rw [hnone]; split <;> rfl)) rfl rfl rfl rfl
    · cases hs
  | write a uaddr x =>
    cases hs
    exact ⟨h.mem, h.nodup, h.runnable⟩
  | tick =>
    cases hs
    exact ⟨h.mem, h.nodup, h.runnable⟩
  | check t =>
    simp only [State.step] at hs
    split at hs
    · next ht =>
      split at hs <;> cases hs <;>
        exact h.of_update (t := t) (Or.inl (by rw [ht]; rfl)) rfl rfl rfl rfl
    · cases hs
  | add t new =>
    simp only [State.step] at hs
    split at hs
    · next ht => exact h.add hc ht hs
    · cases hs
  | prepare t =>
    simp only [State.step] at hs
    split at hs <;> cases hs
    next f ht => exact h.prepare hc ht
  | test t =>
    simp only [State.step] at hs
    split at hs
    · next f ht =>
      split at hs
      · cases hs
        exact h.of_update (t := t) (p := .leave f) (Or.inl (by rw [ht]; rfl)) rfl rfl rfl rfl
      · split at hs <;> cases hs <;>
          exact h.of_update (t := t) (Or.inl (by rw [ht]; rfl)) rfl rfl rfl rfl
    · cases hs
  | block t =>
    simp only [State.step] at hs
    split at hs <;> cases hs
    next f ht =>
      refine h.of_update (t := t) ?_ rfl rfl rfl rfl
      split
      · exact Or.inl (by rw [ht]; rfl)
      · next hp =>
        refine Or.inr ⟨rfl, ?_⟩
        cases hps : s.pstate_ t with
        | ps_blocked => exact absurd hps hp
        | ps_runnable => rfl
  | yield t =>
    simp only [State.step] at hs
    split at hs
    · next f ht =>
      split at hs
      · next hexit => exact absurd hexit hok
      · cases hs
        exact h.of_update (t := t) (p := .asleep f) (Or.inl (by rw [ht]; rfl)) rfl rfl rfl rfl
    · cases hs
  | resume t =>
    simp only [State.step] at hs
    split at hs
    · next f ht =>
      split at hs <;> cases hs
      next hp => exact h.of_update (t := t) (p := .clear f) (Or.inr ⟨rfl, hp⟩) rfl rfl rfl rfl
    · cases hs
  | clear t =>
    simp only [State.step] at hs
    split at hs <;> cases hs
    next f ht => exact h.clear (p := .prepare f) rfl (Or.inr (by rw [ht]; rfl))
  | leave t =>
    simp only [State.step] at hs
    split at hs
    · next f ht =>
      split at hs
      · next hexit => exact absurd hexit (by simpa [Spared] using hok)
      · cases hs
        exact h.clear (p := .remove f) rfl (Or.inl (by rw [ht]; rfl))
    · cases hs
  | remove t =>
    simp only [State.step] at hs
    split at hs <;> cases hs
    next f ht => exact h.remove ht
  | find t =>
    simp only [State.step] at hs
    split at hs
    · next ht =>
      split at hs <;> cases hs <;>
        exact h.of_update (t := t) (Or.inl (by rw [ht]; rfl)) rfl rfl rfl rfl
    · cases hs
  | wake t =>
    simp only [State.step] at hs
    split at hs
    · next f ht =>
      split at hs <;> cases hs
      · next hf =>
        exact (h.wake_some hf _).of_update (t := t) (p := .user) (Or.inl (by
          rw [State.wake_some_pc, ht]
          rfl)) rfl rfl rfl rfl
      · exact h.of_update (t := t) (p := .user) (Or.inl (by rw [ht]; rfl)) rfl rfl rfl rfl
    · cases hs
  | check_timeout f =>
    simp only [State.step] at hs
    split at hs <;> cases hs
    next hf => exact h.wake_some hf _
  | signal t =>
    cases hs
    exact ⟨h.mem, h.nodup, h.runnable⟩
  | kill t =>
    simp only [State.step] at hs
    split at hs <;> cases hs
    next ht =>
      exact h.of_update (t := t) (p := .exiting) (Or.inl (by rw [ht.1]; rfl)) rfl rfl rfl rfl

theorem Queued.init (h : s.Init) : Queued s :=
  ⟨by simp [h.states], by simp [h.states], fun t _ => h.pstate t⟩

/-- Both invariants over a run. -/
theorem reachable_counted (h : Reachable Λ Spared s) : Counted s ∧ Queued s :=
  Reach.invariant (P := fun s => Counted s ∧ Queued s) (fun _ hi => ⟨.init hi, .init hi⟩)
    (fun _ _ _ hcq hok hs => ⟨hcq.1.step hok hs, hcq.2.step hcq.1 hok hs⟩) h

end Chickadee.Futex
