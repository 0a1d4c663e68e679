import Chickadee.Wait.Wakeup

/-!
# Wait queues over whole runs

With the placement of the tasks on the CPUs and the run queues, what every undisturbed run
guarantees; and the run in which a timer interrupt loses a wakeup.
-/

set_option linter.unusedSectionVars false

namespace Chickadee.Wait

open Lib

variable {T W C Q P L : Type} [DecidableEq T] [DecidableEq W] [DecidableEq C] [DecidableEq Q]
  [DecidableEq P] [DecidableEq L]

variable {Λ : Layout T C Q P L} {s s' : State T W C Q P L}

/-! ## Where the tasks are -/

/-- A runnable task is current on its CPU, on its run queue, or about to be put there. -/
structure Placed (Λ : Layout T C Q P L) (s : State T W C Q P L) : Prop where
  current : ∀ c t, s.current_ c = some t → Λ.cpu t = c
  runq : ∀ c t, some t ∈ s.runq_ c → Λ.cpu t = c
  runnable : ∀ t, s.pstate_ t = .ps_runnable → s.current_ (Λ.cpu t) = some t ∨
    some t ∈ s.runq_ (Λ.cpu t) ∨ ∃ w p, s.waker w = .cased p t

/-- Steps that concern neither the CPUs nor the run queues. -/
theorem Placed.congr (h : Placed Λ s) (hcur : s'.current_ = s.current_) (hrunq : s'.runq_ = s.runq_)
    (hpstate : ∀ t, s'.pstate_ t = .ps_runnable → s.pstate_ t = .ps_runnable ∨
      s.current_ (Λ.cpu t) = some t ∨ ∃ w p, s'.waker w = .cased p t)
    (hwaker : ∀ w p t, s.waker w = .cased p t → s'.waker w = .cased p t) : Placed Λ s' := by
  refine ⟨by rw [hcur]; exact h.current, by rw [hrunq]; exact h.runq, fun t ht => ?_⟩
  rw [hcur, hrunq]
  rcases hpstate t ht with hold | hcurrent | hcased
  · rcases h.runnable t hold with hc | hq | ⟨w, p, hw⟩
    · exact Or.inl hc
    · exact Or.inr (Or.inl hq)
    · exact Or.inr (Or.inr ⟨w, p, hwaker w p t hw⟩)
  · exact Or.inl hcurrent
  · exact Or.inr (Or.inr hcased)

theorem Placed.cleared (h : Placed Λ s) {t : T} {pc : Pc} (hr : s.Running Λ t) :
    Placed Λ (s.clear Λ t pc) := by
  rw [clear_eq hr]
  refine h.congr rfl rfl (fun u hu => ?_) fun _ _ _ hw => hw
  by_cases hut : u = t
  · subst hut
    exact Or.inr (Or.inl hr.1)
  · exact Or.inl (by simpa [Function.update_apply, hut] using hu)

/-- A waker that is not about to enqueue goes on. -/
theorem Placed.waker (h : Placed Λ s) {w : W} {k : Waker T P}
    (hk : ∀ p t, s.waker w ≠ .cased p t) (hw : s'.waker = Function.update s.waker w k)
    (hcur : s'.current_ = s.current_) (hrunq : s'.runq_ = s.runq_)
    (hpstate : ∀ t, s'.pstate_ t = .ps_runnable → s.pstate_ t = .ps_runnable ∨
      s.current_ (Λ.cpu t) = some t ∨ ∃ w p, s'.waker w = .cased p t) : Placed Λ s' := by
  refine h.congr hcur hrunq hpstate fun w' p t hw' => ?_
  have hne : w' ≠ w := by
    rintro rfl
    exact hk p t hw'
  rw [hw, Function.update_of_ne hne]
  exact hw'

/-- The body of the loop of `schedule` loses no runnable task. -/
theorem Placed.switch (h : Placed Λ s) (c : C) : Placed Λ (s.switch c) := by
  obtain ⟨h₁, h₂, h₃⟩ := h
  unfold State.switch
  dsimp only
  generalize hrunq : (if s.runnable (s.current_ c) = true then s.runq_ c ++ [s.current_ c]
    else s.runq_ c) = runq
  -- the tasks of the CPU, old and new
  have hcpu : ∀ t, some t ∈ runq → Λ.cpu t = c := by
    intro t ht
    rw [← hrunq] at ht
    split at ht
    · rcases List.mem_append.mp ht with hq | hcur
      · exact h₂ c t hq
      · exact h₁ c t (List.mem_singleton.mp hcur).symm
    · exact h₂ c t ht
  have hkept : ∀ t, Λ.cpu t = c → s.pstate_ t = .ps_runnable →
      s.current_ c = some t ∨ some t ∈ s.runq_ c → some t ∈ runq := by
    intro t _ ht hmem
    rw [← hrunq]
    rcases hmem with hcur | hq
    · have hr : s.runnable (s.current_ c) = true := by simp [State.runnable, hcur, ht]
      rw [if_pos hr, hcur]
      simp
    · split
      · exact List.mem_append_left _ hq
      · exact hq
  have hhead : ∀ u, some u ∈ runq → runq.head?.getD none = some u ∨ some u ∈ runq.tail := by
    intro u hu
    cases runq with
    | nil => cases hu
    | cons x rest =>
      rcases List.mem_cons.mp hu with heq | hrest
      · exact Or.inl heq.symm
      · exact Or.inr hrest
  have hfirst : ∀ u, runq.head?.getD none = some u → some u ∈ runq := by
    intro u hu
    cases runq with
    | nil => cases hu
    | cons x rest =>
      have hx : x = some u := hu
      exact hx ▸ List.mem_cons_self
  refine ⟨fun c' t ht => ?_, fun c' t ht => ?_, fun t ht => ?_⟩
  · simp only [Function.update_apply] at ht
    split at ht
    · next hc =>
      subst hc
      exact hcpu t (hfirst t ht)
    · exact h₁ c' t ht
  · simp only [Function.update_apply] at ht
    split at ht
    · next hc =>
      subst hc
      exact hcpu t (List.mem_of_mem_tail ht)
    · exact h₂ c' t ht
  · simp only [Function.update_apply]
    by_cases hc : Λ.cpu t = c
    · rw [if_pos hc, if_pos hc]
      rcases h₃ t ht with hcur | hq | hcased
      · rw [hc] at hcur
        exact (hhead t (hkept t hc ht (Or.inl hcur))).imp_right Or.inl
      · rw [hc] at hq
        exact (hhead t (hkept t hc ht (Or.inr hq))).imp_right Or.inl
      · exact Or.inr (Or.inr hcased)
    · rw [if_neg hc, if_neg hc]
      exact h₃ t ht

/-- **Every step keeps the runnable tasks in place.** -/
theorem Placed.step (h : Placed Λ s) {a : Act T W C P} (hs : s.step Λ a = some s') :
    Placed Λ s' := by
  have hsame : ∀ {s' : State T W C Q P L}, s'.current_ = s.current_ → s'.runq_ = s.runq_ →
      s'.pstate_ = s.pstate_ → s'.waker = s.waker → Placed Λ s' := fun hc hr hp hw =>
    h.congr hc hr (fun t ht => Or.inl (by rw [← hp]; exact ht)) fun _ _ _ hw' => by
      rw [hw]
      exact hw'
  cases a with
  | prepare t =>
    simp only [State.step] at hs
    split at hs <;> cases hs
    refine h.congr rfl rfl (fun u hu => Or.inl ?_) fun _ _ _ hw => hw
    simp only [Function.update_apply] at hu
    split at hu
    · cases hu
    · exact hu
  | clear t =>
    simp only [State.step] at hs
    split at hs <;> cases hs
    next hg => exact h.cleared hg.2.1
  | leave t =>
    simp only [State.step] at hs
    split at hs <;> cases hs
    next hg => exact h.cleared hg.2.1
  | setTrue w p =>
    simp only [State.step] at hs
    split at hs <;> cases hs
    next hg =>
      exact h.waker (w := w) (fun p t hw => by rw [hg.1] at hw; cases hw) rfl rfl rfl
        fun _ ht => Or.inl ht
  | grab w =>
    simp only [State.step] at hs
    split at hs
    · next p hw =>
      split at hs <;> cases hs
      exact h.waker (w := w) (fun p t hw' => by rw [hw] at hw'; cases hw') rfl rfl rfl
        fun _ ht => Or.inl ht
    · cases hs
  | pop w =>
    simp only [State.step] at hs
    split at hs
    · next p hw =>
      split at hs <;> cases hs <;>
        exact h.waker (w := w) (fun p t hw' => by rw [hw] at hw'; cases hw') rfl rfl rfl
          fun _ ht => Or.inl ht
    · cases hs
  | cas w =>
    simp only [State.step] at hs
    split at hs
    · next p t hw =>
      split at hs <;> cases hs
      · refine h.waker (w := w) (fun p t hw' => by rw [hw] at hw'; cases hw') rfl rfl rfl
          fun u hu => ?_
        by_cases hut : u = t
        · subst hut
          exact Or.inr (Or.inr ⟨w, p, by simp⟩)
        · exact Or.inl (by simpa [Function.update_apply, hut] using hu)
      · exact h.waker (w := w) (fun p t hw' => by rw [hw] at hw'; cases hw') rfl rfl rfl
          fun _ ht => Or.inl ht
    · cases hs
  | enqueue w =>
    simp only [State.step] at hs
    split at hs
    · next p t hw =>
      cases hs
      obtain ⟨runq, heq, hplaced, hmem⟩ := enqueue_eq (Λ := Λ)
        (s := { s with waker := Function.update s.waker w (.hold p) }) t
      rw [heq]
      refine ⟨h.current, fun c u hu => ?_, fun u hu => ?_⟩
      · rcases (hmem c (some u)).mp hu with hold | ⟨hc, hut, -⟩
        · exact h.runq c u hold
        · cases hut
          exact hc.symm
      · by_cases hut : u = t
        · subst hut
          exact hplaced.imp_right Or.inl
        · rcases h.runnable u hu with hcur | hq | ⟨w', p', hw'⟩
          · exact Or.inl hcur
          · exact Or.inr (Or.inl ((hmem _ _).mpr (Or.inl hq)))
          · have hne : w' ≠ w := by
              rintro rfl
              rw [hw] at hw'
              cases hw'
              exact hut rfl
            exact Or.inr (Or.inr ⟨w', p', by simpa [hne] using hw'⟩)
    · cases hs
  | switch c =>
    simp only [State.step] at hs
    split at hs <;> cases hs
    exact h.switch c
  | setFalse p =>
    cases hs
    exact hsame rfl rfl rfl rfl
  | preempt c =>
    simp only [State.step] at hs
    split at hs <;> split at hs <;> cases hs <;> exact hsame rfl rfl rfl rfl
  | call | test | unlock | block | yield | relock | ret | resume =>
    simp only [State.step] at hs
    split at hs <;> cases hs
    exact hsame rfl rfl rfl rfl

/-! ## The last test -/

/-- `block_until` is left only after a test that succeeded. -/
def Tested (s : State T W C Q P L) : Prop :=
  ∀ t, s.pc t = .leave ∨ s.pc t = .ret → s.last t = true

theorem Tested.move (h : Tested s) {t : T} {pc : Pc} (hpc : s'.pc = Function.update s.pc t pc)
    (hlast : s'.last = s.last) (hleave : pc = .leave ∨ pc = .ret → s.last t = true) :
    Tested s' := by
  intro u hu
  rw [hpc, Function.update_apply] at hu
  rw [hlast]
  split at hu
  · next hut =>
    subst hut
    exact hleave hu
  · exact h u hu

theorem Tested.congr (h : Tested s) (hpc : s'.pc = s.pc) (hlast : s'.last = s.last) :
    Tested s' := by
  unfold Tested
  rw [hpc, hlast]
  exact h

theorem Tested.step (h : Tested s) {a : Act T W C P} (hs : s.step Λ a = some s') : Tested s' := by
  cases a with
  | test t =>
    simp only [State.step] at hs
    split at hs <;> cases hs
    intro u hu
    by_cases hut : u = t
    · subst hut
      simp only [Function.update_self] at hu ⊢
      split at hu
      · next hp => exact hp
      · split at hu <;> simp at hu
    · simp only [Function.update_of_ne hut] at hu ⊢
      exact h u hu
  | block t =>
    simp only [State.step] at hs
    split at hs <;> cases hs
    refine h.move rfl rfl fun hpc => ?_
    split at hpc <;> simp at hpc
  | clear t =>
    simp only [State.step] at hs
    split at hs <;> cases hs
    next hg =>
      rw [clear_eq hg.2.1]
      refine h.move rfl rfl fun hpc => ?_
      split at hpc <;> simp at hpc
  | leave t =>
    simp only [State.step] at hs
    split at hs <;> cases hs
    next hg =>
      rw [clear_eq hg.2.1]
      exact h.move rfl rfl fun _ => h t (Or.inl hg.1)
  | call | prepare | unlock | yield | relock | ret =>
    simp only [State.step] at hs
    split at hs <;> cases hs
    exact h.move rfl rfl fun hpc => by simp at hpc
  | setTrue | switch | resume =>
    simp only [State.step] at hs
    split at hs <;> cases hs
    exact h.congr rfl rfl
  | setFalse =>
    cases hs
    exact h.congr rfl rfl
  | preempt =>
    simp only [State.step] at hs
    split at hs <;> split at hs <;> cases hs <;> exact h.congr rfl rfl
  | grab | cas =>
    simp only [State.step] at hs
    split at hs
    · split at hs <;> cases hs <;> exact h.congr rfl rfl
    · cases hs
  | pop =>
    simp only [State.step] at hs
    split at hs
    · split at hs <;> cases hs <;> exact h.congr rfl rfl
    · cases hs
  | enqueue w =>
    simp only [State.step] at hs
    split at hs
    · next p t hw =>
      cases hs
      obtain ⟨runq, heq, -⟩ := enqueue_eq (Λ := Λ)
        (s := { s with waker := Function.update s.waker w (.hold p) }) t
      rw [heq]
      exact h.congr rfl rfl
    · cases hs

/-! ## Runs -/

/-- What holds in every state of an undisturbed run. -/
structure Inv (Λ : Layout T C Q P L) (s : State T W C Q P L) : Prop where
  queues : Queues Λ s
  woken : Woken Λ s
  placed : Placed Λ s
  tested : Tested s

theorem inv_init (h : s.Init Λ) : Inv Λ s := by
  refine ⟨⟨fun q t ht => ?_, fun q => ?_, fun w p hw => ?_, fun w p t hw => ?_, fun t ht => ?_⟩,
    fun t ht => ?_, ⟨h.current, h.runq, fun t _ => ?_⟩, fun t ht => ?_⟩
  · rw [(h.queue q).1] at ht
    cases ht
  · rw [(h.queue q).1]
    exact List.nodup_nil
  · rw [h.waker w] at hw
    cases hw
  · rw [h.waker w] at hw
    cases hw
  · rw [h.pstate t] at ht
    cases ht
  · rw [h.pstate t] at ht
    cases ht
  · exact (h.placed t).imp_right Or.inl
  · rw [h.pc t] at ht
    simp at ht

theorem Reachable.inv (h : Reachable Λ Undisturbed s) : Inv Λ s :=
  Reach.invariant (P := Inv Λ) (fun _ => inv_init)
    (fun _ a _ hi (hok : Undisturbed _ a) hs => ⟨hi.queues.step hs,
      hi.woken.step hi.queues hok hs, hi.placed.step hs, hi.tested.step hs⟩) h

/--
A lost wakeup: `t` is blocked, neither running nor on its run queue, its predicate holds, and no
`wake_all` that was called since the predicate became true is still going on.
-/
def Lost (Λ : Layout T C Q P L) (s : State T W C Q P L) (t : T) : Prop :=
  s.pstate_ t = .ps_blocked ∧ ¬s.Running Λ t ∧ some t ∉ s.runq_ (Λ.cpu t) ∧
    s.pred (s.pred_ t) = true ∧ ∀ w, (s.waker w).pred = some (s.pred_ t) → s.fresh w = false

/--
**Wait queues lose no wakeup in an undisturbed run.** No reachable state has a lost wakeup; every
runnable task is current on its CPU, on its run queue or about to be put there; and when
`block_until` has returned, the waiter is on no queue, the task is runnable and the last test of the
predicate succeeded.
-/
theorem no_lost_wakeup (h : Reachable Λ Undisturbed s) :
    (∀ t, ¬Lost Λ s t) ∧
      (∀ t, s.pstate_ t = .ps_runnable → s.current_ (Λ.cpu t) = some t ∨
        some t ∈ s.runq_ (Λ.cpu t) ∨ ∃ w p, s.waker w = .cased p t) ∧
      ∀ t, s.pc t = .ret → (∀ q, t ∉ s.q_ q) ∧ s.pstate_ t = .ps_runnable ∧ s.last t = true := by
  obtain ⟨hqueues, hwoken, hplaced, htested⟩ := h.inv
  refine ⟨fun t hlost => ?_, hplaced.runnable, fun t ht => ⟨fun q hq => ?_, ?_, htested t (Or.inr ht)⟩⟩
  · obtain ⟨hblocked, hstopped, -, hpred, hover⟩ := hlost
    rcases hwoken t hblocked hpred with ⟨hrun, -⟩ | ⟨w, hfresh, hw⟩
    · exact hstopped hrun
    · rw [hover w hw] at hfresh
      cases hfresh
  · have hin := (hqueues.linked q t hq).2
    rw [ht] at hin
    cases hin
  · cases hp : s.pstate_ t with
    | ps_runnable => rfl
    | ps_blocked =>
      have hin := (hqueues.blocked t hp).1
      rw [ht] at hin
      cases hin

/-! ## One task, one CPU -/

/-- A task that runs with interrupts enabled, and one predicate without a lock. -/
def tiny : Layout Unit Unit Unit Unit Unit where
  cpu := id
  ie := fun _ => true
  queue := id
  lock := id
  guarded := fun _ => false

/-- The task runs. -/
def tinyInit : State Unit Unit Unit Unit Unit Unit where
  pstate_ := fun _ => .ps_runnable
  pc := fun _ => .out
  pred_ := id
  locked := fun _ => false
  last := fun _ => false
  q_ := fun _ => []
  qlock := fun _ => none
  waker := fun _ => .idle
  fresh := fun _ => false
  pred := fun _ => false
  held := fun _ => none
  runq_ := fun _ => []
  current_ := fun _ => some ()
  mode := fun _ => .run

theorem tinyInit_init : tinyInit.Init tiny :=
  ⟨fun _ => rfl, fun _ => rfl, fun _ => ⟨rfl, rfl⟩, fun _ => rfl, fun _ => rfl, fun _ _ _ => rfl,
    fun _ _ h => absurd h List.not_mem_nil, fun _ => Or.inl rfl, fun _ => rfl⟩

instance (s : State Unit Unit Unit Unit Unit Unit) (a : Act Unit Unit Unit Unit) :
    Decidable (Undisturbed s a) := by
  cases a <;> unfold Undisturbed <;> infer_instance

/-- The task waits, is woken, and returns. -/
def wakeRun : List (Act Unit Unit Unit Unit) :=
  [.call () () false, .prepare (), .test (), .block (), .yield (), .switch (), .resume (),
    .setTrue () (), .grab (), .pop (), .cas (), .enqueue (), .pop (), .preempt (), .switch (),
    .resume (), .clear (), .prepare (), .test (), .leave ()]

theorem no_lost_wakeup_wakeRun :
    ∃ s, exec (State.step tiny) (fun s a => decide (Undisturbed s a)) tinyInit wakeRun = some s ∧
      ¬Lost tiny s () ∧ s.pstate_ () = .ps_runnable := by
  have hend : (exec (State.step tiny) (fun s a => decide (Undisturbed s a)) tinyInit wakeRun).map
      (fun s => s.pc ()) = some .ret := by
    decide +kernel
  obtain ⟨s, hrun, hpc⟩ := Option.map_eq_some_iff.mp hend
  have hreach : Reachable tiny Undisturbed s :=
    Reach.exec (fun _ _ => of_decide_eq_true) (.init tinyInit_init) hrun
  have h := no_lost_wakeup hreach
  exact ⟨s, hrun, h.1 (), (h.2.2 () hpc).2.1⟩

/-- The predicate is true before the task prepares to wait for it, and the timer fires. -/
def lostRun : List (Act Unit Unit Unit Unit) :=
  [.setTrue () (), .grab (), .pop (), .call () () false, .prepare (), .preempt (), .switch (),
    .resume ()]

/-- **A timer interrupt between `prepare` and the test loses the wakeup.** -/
theorem lost_wakeup :
    ∃ s : State Unit Unit Unit Unit Unit Unit, Reachable tiny (fun _ _ => True) s ∧
      Lost tiny s () := by
  have hend : (exec (State.step tiny) (fun _ _ => true) tinyInit lostRun).map (fun s =>
      (s.pstate_ (), s.current_ (), s.runq_ (), s.pred (s.pred_ ()), s.waker ())) =
      some (.ps_blocked, none, [], true, .idle) := by
    decide +kernel
  obtain ⟨s, hrun, hs⟩ := Option.map_eq_some_iff.mp hend
  simp only [Prod.mk.injEq] at hs
  obtain ⟨hblocked, hcur, hrunq, hpred, hwaker⟩ := hs
  refine ⟨s, Reach.exec (fun _ _ _ => trivial) (.init tinyInit_init) hrun, hblocked, fun hr => ?_,
    ?_, hpred, fun w hw => ?_⟩
  · have hcurrent : s.current_ () = some () := hr.1
    rw [hcur] at hcurrent
    cases hcurrent
  · show some () ∉ s.runq_ ()
    rw [hrunq]
    exact List.not_mem_nil
  · cases w
    rw [hwaker] at hw
    cases hw

end Chickadee.Wait
