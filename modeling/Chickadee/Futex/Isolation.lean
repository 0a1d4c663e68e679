import Mathlib
import Chickadee.Futex.Account

/-!
# What a wake-up reaches

`FUTEX_WAKE` takes waiters from the queue of the state that `find` returned. The state is looked up by
virtual address alone, so its queue may hold tasks of other address spaces.
-/

namespace Chickadee.Futex

open Lib
open Wait (Pstate)

set_option linter.unusedSectionVars false

variable {T S A : Type} [DecidableEq T] [DecidableEq S] [DecidableEq A]

variable {Λ : T → A} {s s' : State T S A} {t u : T} {f g : S}

/-- The tasks of an address space that are blocked on one of its words. -/
def State.waiters (Λ : T → A) (s : State T S A) (a : A) (uaddr : ℕ) : Set T :=
  {u | Λ u = a ∧ ∃ f ∈ s.states_, s.word_ f = uaddr ∧ u ∈ s.wq_ f}

/-- The tasks that a step wakes. -/
def Woken (s s' : State T S A) : Set T := {u | ∃ f ∈ s.states_, u ∈ s.wq_ f ∧ u ∉ s'.wq_ f}

/--
What a waker relies on when it uses the state `f`: it is still the state of its word, and the first `val`
waiters in the queue are of the waker's address space. If `val` is negative as an `int`, nobody is
woken: then the address space has no waiter there.
-/
def Own (Λ : T → A) (s : State T S A) (t : T) (f : S) : Prop :=
  (f ∈ s.states_ ∧ s.word_ f = (s.args t).uaddr) ∧
    if 0 ≤ (s.args t).val.toInt then ∀ u ∈ s.popped f (s.args t).val.toNat, Λ u = Λ t
    else ∀ u ∈ s.wq_ f, Λ u ≠ Λ t

instance (t : T) (f : S) : Decidable (Own Λ s t f) := by
  unfold Own
  infer_instance

/-- The futex state that a waker has found. -/
def Pc.found : Pc S → Option S
  | .wake f => some f
  | _ => none

/-- No waiting task is killed, and a waker finds a queue of its own. -/
def Undisturbed (Λ : T → A) (s : State T S A) : Act T S A → Prop
  | .wake t => ∀ f ∈ (s.pc t).found, Own Λ s t f
  | a => Spared s a

instance : (a : Act T S A) → Decidable (Undisturbed Λ s a)
  | .wake t => inferInstanceAs (Decidable (∀ f ∈ (s.pc t).found, Own Λ s t f))
  | .leave t => inferInstanceAs (Decidable (Spared s (.leave t)))
  | .yield t => inferInstanceAs (Decidable (Spared s (.yield t)))
  | .call _ _ _ _ | .write _ _ _ | .tick | .check _ | .add _ _ | .prepare _ | .test _ | .block _ | .resume _
  | .clear _ | .remove _ | .find _ | .check_timeout _ | .signal _ | .kill _ => .isTrue trivial

theorem Undisturbed.spared {a : Act T S A} (h : Undisturbed Λ s a) : Spared s a := by
  cases a <;> first | exact h | trivial

/-- What a step of `FUTEX_WAKE` by `t` does: it wakes `min val n` tasks, if `n` tasks of its address
space wait on the word, and no others. -/
def Wakes (Λ : T → A) (s s' : State T S A) (t : T) : Prop :=
  Woken s s' ⊆ s.waiters Λ (Λ t) (s.args t).uaddr ∧
    (Woken s s').encard =
      min ((s.args t).val.toNat : ℕ∞) (s.waiters Λ (Λ t) (s.args t).uaddr).encard

theorem woken_empty (h : s'.wq_ = s.wq_) : Woken s s' = ∅ :=
  Set.eq_empty_of_forall_notMem fun _ ⟨_, _, hin, hout⟩ => hout (h ▸ hin)

theorem woken_wake_some (h : Queued s) (hf : f ∈ s.states_) (n : ℕ) (r : Ret) :
    Woken s ((s.wake_some f n).ret t r) = {u | u ∈ s.popped f n} := by
  have hsplit : s.popped f n ++ (s.wq_ f).drop n = s.wq_ f := List.take_append_drop n _
  have hnd : (s.popped f n ++ (s.wq_ f).drop n).Nodup := hsplit.symm ▸ h.nodup f hf
  ext u
  constructor
  · rintro ⟨g, hg, hin, hout⟩
    simp only [State.ret, State.wake_some] at hout
    by_cases hgf : g = f
    · subst hgf
      rw [Function.update_self] at hout
      rw [← hsplit, List.mem_append] at hin
      exact hin.resolve_right hout
    · rw [Function.update_of_ne hgf] at hout
      exact absurd hin hout
  · intro hu
    refine ⟨f, hf, hsplit ▸ List.mem_append_left _ hu, ?_⟩
    simp only [State.ret, State.wake_some, Function.update_self]
    exact List.disjoint_of_nodup_append hnd hu

theorem encard_popped (h : Queued s) (hf : f ∈ s.states_) (n : ℕ) :
    {u | u ∈ s.popped f n}.encard = (min n (s.wq_ f).length : ℕ) := by
  have hnd : (s.popped f n).Nodup := (h.nodup f hf).sublist (List.take_sublist n _)
  have hset : {u | u ∈ s.popped f n} = ((s.popped f n).toFinset : Set T) := by
    ext u
    simp
  rw [hset, Set.encard_coe_eq_coe_finsetCard, List.toFinset_card_of_nodup hnd]
  simp [State.popped]

/-- The waiters of an address space are those in the queue of the word. -/
theorem waiters_eq (hc : Counted s) (hf : f ∈ s.states_) {a : A} :
    s.waiters Λ a (s.word_ f) = {u | Λ u = a ∧ u ∈ s.wq_ f} := by
  ext u
  constructor
  · rintro ⟨ha, g, hg, hword, hu⟩
    have hgf := hc.words g hg f hf hword
    exact ⟨ha, hgf ▸ hu⟩
  · rintro ⟨ha, hu⟩
    exact ⟨ha, f, hf, rfl, hu⟩

theorem nwake_eq (h : 0 ≤ (s.args t).val.toInt) : s.nwake t = (s.args t).val.toNat := by
  have hint := BitVec.toInt_eq_toNat_cond (s.args t).val
  have hlt := (s.args t).val.isLt
  unfold State.nwake
  split at hint <;> omega

/-- **A wake-up is exact if and only if the waker has a queue of its own.** -/
theorem wakes_iff (hc : Counted s) (hq : Queued s)
    (hf : f ∈ s.states_ ∧ s.word_ f = (s.args t).uaddr) :
    Wakes Λ s ((s.wake_some f (s.nwake t)).ret t .ok) t ↔ Own Λ s t f := by
  have hwoken := woken_wake_some (t := t) hq hf.1 (s.nwake t) .ok
  have hcard := encard_popped hq hf.1 (s.nwake t)
  have hwaiters := waiters_eq (Λ := Λ) hc hf.1 (a := Λ t)
  rw [hf.2] at hwaiters
  unfold Wakes Own
  rw [hwoken, hwaiters]
  by_cases hneg : 0 ≤ (s.args t).val.toInt
  · rw [nwake_eq hneg] at hcard ⊢
    simp only [hf, and_self, hneg, if_true, true_and]
    constructor
    · rintro ⟨hsub, _⟩ u hu
      exact (hsub hu).1
    · intro hown
      have hsub : {u | u ∈ s.popped f (s.args t).val.toNat} ⊆ {u | Λ u = Λ t ∧ u ∈ s.wq_ f} :=
        fun u hu => ⟨hown u hu, List.mem_of_mem_take hu⟩
      refine ⟨hsub, ?_⟩
      rw [hcard]
      by_cases hlen : (s.args t).val.toNat ≤ (s.wq_ f).length
      · -- `val` waiters are taken, and all of them are its own
        rw [Nat.min_eq_left hlen]
        rw [Nat.min_eq_left hlen] at hcard
        exact (min_eq_left (hcard ▸ Set.encard_le_encard hsub)).symm
      · -- the whole queue is taken
        have hall : s.popped f (s.args t).val.toNat = s.wq_ f :=
          List.take_of_length_le (by omega)
        have heq : {u | Λ u = Λ t ∧ u ∈ s.wq_ f} = {u | u ∈ s.popped f (s.args t).val.toNat} :=
          Set.Subset.antisymm (fun u hu => by rw [hall]; exact hu.2) hsub
        have hle : (s.wq_ f).length ≤ (s.args t).val.toNat := by omega
        rw [heq, hcard, Nat.min_eq_right hle, min_eq_right]
        exact_mod_cast hle
  · have hnone : s.nwake t = 0 := by
      unfold State.nwake
      omega
    have hpos : (s.args t).val.toNat ≠ 0 := by
      have hint := BitVec.toInt_eq_toNat_cond (s.args t).val
      split at hint <;> omega
    rw [hnone] at hcard ⊢
    simp only [hf, and_self, hneg, if_false, true_and]
    have hempty : {u | u ∈ s.popped f 0} = ∅ := by
      simp [State.popped]
    rw [hempty, Set.encard_empty]
    constructor
    · rintro ⟨_, hmin⟩ u hu hown
      rcases min_choice ((s.args t).val.toNat : ℕ∞) {u | Λ u = Λ t ∧ u ∈ s.wq_ f}.encard
        with hval | hset
      · exact hpos (by exact_mod_cast (hmin.trans hval).symm)
      · have hset := Set.encard_eq_zero.mp (hmin.trans hset).symm
        have : u ∈ (∅ : Set T) := hset ▸ ⟨hown, hu⟩
        exact this
    · intro hown
      refine ⟨Set.empty_subset _, ?_⟩
      have hset : {u | Λ u = Λ t ∧ u ∈ s.wq_ f} = ∅ :=
        Set.eq_empty_of_forall_notMem fun u hu => hown u hu.2 hu.1
      rw [hset, Set.encard_empty]
      simp

/-- A waker that finds no state has nobody to wake. -/
theorem wakes_none (hfind : s.find (s.args t).uaddr = none) :
    Wakes Λ s (s.ret t .ok) t := by
  have hset : s.waiters Λ (Λ t) (s.args t).uaddr = ∅ :=
    Set.eq_empty_of_forall_notMem fun u ⟨_, f, hf, hword, _⟩ => find_none hfind hf hword
  have hwoken : Woken s (s.ret t .ok) = ∅ := woken_empty rfl
  unfold Wakes
  rw [hwoken, hset]
  simp

/-- The call of `FUTEX_WAKE` by `t` is over with this step. -/
def Finishes (s : State T S A) (t : T) (a : Act T S A) : Prop :=
  a = .wake t ∨ a = .find t ∧ s.find (s.args t).uaddr = none

/--
**Futexes are isolated and counted.** In a run in which no waiting task is killed and wakers find queues
of their own, a futex state is linked exactly as long as tasks wait on it, `ref_` is their number, and
`FUTEX_WAKE` wakes as many of the waiters of its own address space as it should.
-/
theorem futex_isolated (h : Reachable Λ (Undisturbed Λ) s) :
    (∀ f, f ∈ s.states_ ↔ (s.waiting f).Nonempty) ∧
      (∀ f ∈ s.states_, (s.waiting f).encard = s.ref_ f) ∧
      ∀ t a s', Finishes s t a → Undisturbed Λ s a → s.step Λ a = some s' → Wakes Λ s s' t := by
  obtain ⟨hc, hq⟩ := reachable_counted (h.mono fun _ _ hok => hok.spared)
  refine ⟨fun f => ⟨fun hf => ?_, fun ⟨t, ht⟩ => (hc.waits t f ht).1⟩,
    fun f hf => (hc.count f hf).1, ?_⟩
  · obtain ⟨hcount, hpos⟩ := hc.count f hf
    rw [← Set.encard_ne_zero, hcount]
    exact_mod_cast hpos.ne'
  · rintro t a s' (rfl | ⟨rfl, hnone⟩) hok hs
    · simp only [State.step] at hs
      split at hs
      · next f ht =>
        have hown : Own Λ s t f := hok f (by rw [ht]; rfl)
        rw [if_pos hown.1.1] at hs
        cases hs
        exact (wakes_iff hc hq hown.1).mpr hown
      · cases hs
    · simp only [State.step, hnone] at hs
      split at hs <;> cases hs
      exact wakes_none hnone

/-! ## Two tasks and one word -/

/-- Nobody is in the system call, and the memory is zero. -/
def idle : State Bool Unit A where
  pc := fun _ => .user
  args := fun _ => ⟨0, 0, 0⟩
  retval := fun _ => .ok
  timeout_wakeup := fun _ => 0
  timed_out := fun _ => false
  pstate_ := fun _ => .ps_runnable
  exit_signal_ := fun _ => false
  mem := fun _ _ => 0
  ticks := 0
  states_ := []
  word_ := fun _ => 0
  ref_ := fun _ => 0
  wq_ := fun _ => []

theorem idle_init : (idle : State Bool Unit A).Init := ⟨fun _ => rfl, fun _ => rfl, rfl⟩

/-- One task falls asleep on a word, and the other task is about to wake one waiter. -/
def sleepRun : List (Act Bool Unit A) :=
  [.call true FUTEX_WAIT ⟨0x1000, 0, 0⟩ false, .check true, .add true (some ()), .prepare true,
    .test true, .block true, .yield true, .call false FUTEX_WAKE ⟨0x1000, 1, 0⟩ false, .find false]

theorem futex_isolated_sleepRun :
    ∃ s s', exec (State.step fun _ : Bool => ())
        (fun s a => decide (Undisturbed (fun _ => ()) s a)) idle sleepRun = some s ∧
      s.step (fun _ => ()) (.wake false) = some s' ∧ (s.waiting ()).encard = 1 ∧
      Wakes (fun _ => ()) s s' false := by
  have hend : (exec (State.step fun _ : Bool => ())
      (fun s a => decide (Undisturbed (fun _ => ()) s a)) idle sleepRun).map (fun s => (s.states_, s.ref_ (), (s.step (fun _ => ()) (.wake false)).isSome,
        decide (Undisturbed (fun _ => ()) s (.wake false)))) = some ([()], 1, true, true) := by
    decide +kernel
  obtain ⟨s, hrun, hs⟩ := Option.map_eq_some_iff.mp hend
  simp only [Prod.mk.injEq, decide_eq_true_eq] at hs
  obtain ⟨hstates, href, hstep, hok⟩ := hs
  obtain ⟨s', hs'⟩ := Option.isSome_iff_exists.mp hstep
  have hreach : Reachable (fun _ => ()) (Undisturbed fun _ => ()) s :=
    Reach.exec (fun _ _ => of_decide_eq_true) (.init idle_init) hrun
  obtain ⟨-, hcount, hwakes⟩ := futex_isolated hreach
  refine ⟨s, s', hrun, hs', ?_, hwakes false (.wake false) s' (Or.inl rfl) hok hs'⟩
  rw [hcount () (by simp [hstates]), href]
  rfl

/-- The sleeping task is killed by the exit of its group. -/
def killRun : List (Act Bool Unit A) :=
  [.call true FUTEX_WAIT ⟨0x1000, 0, 0⟩ false, .check true, .add true (some ()), .prepare true,
    .test true, .block true, .yield true, .signal true, .check_timeout (), .resume true, .clear true,
    .prepare true, .test true, .leave true]

/-- **A wake-up reaches another address space, and a killed waiter leaves its reference behind.** -/
theorem futex_shared :
    (∃ s s' : State Bool Unit Bool, Reachable id (fun _ _ => True) s ∧
      s.step id (.wake false) = some s' ∧ true ∈ Woken s s' ∧ id true ≠ id false) ∧
    ∃ s : State Bool Unit Bool, Reachable id (fun _ _ => True) s ∧
      () ∈ s.states_ ∧ s.ref_ () = 1 ∧ s.waiting () = ∅ := by
  constructor
  · have hend : (exec (State.step id) (fun _ _ => true) (idle : State Bool Unit Bool) sleepRun).map
        (fun s => (s.states_, s.wq_ (), (s.step id (.wake false)).map fun s' => s'.wq_ ())) =
        some ([()], [true], some []) := by
      decide +kernel
    obtain ⟨s, hrun, hs⟩ := Option.map_eq_some_iff.mp hend
    simp only [Prod.mk.injEq] at hs
    obtain ⟨hstates, hwq, hstep⟩ := hs
    obtain ⟨s', hs', hwq'⟩ := Option.map_eq_some_iff.mp hstep
    refine ⟨s, s', Reach.exec (fun _ _ _ => trivial) (.init idle_init) hrun, hs', ?_, by decide⟩
    exact ⟨(), by simp [hstates], by simp [hwq], by simp [hwq']⟩
  · have hend : (exec (State.step id) (fun _ _ => true) (idle : State Bool Unit Bool) killRun).map
        (fun s => (s.states_, s.ref_ (), s.pc true, s.pc false)) =
        some ([()], 1, .exiting, .user) := by
      decide +kernel
    obtain ⟨s, hrun, hs⟩ := Option.map_eq_some_iff.mp hend
    simp only [Prod.mk.injEq] at hs
    obtain ⟨hstates, href, htrue, hfalse⟩ := hs
    refine ⟨s, Reach.exec (fun _ _ _ => trivial) (.init idle_init) hrun, by simp [hstates], href, ?_⟩
    refine Set.eq_empty_of_forall_notMem fun t ht => ?_
    have hwaits : (s.pc t).waits = some () := ht
    cases t
    · rw [hfalse] at hwaits
      cases hwaits
    · rw [htrue] at hwaits
      cases hwaits

end Chickadee.Futex
