import Mathlib
import Chickadee.Wait.Queue

/-!
# `msleep`

The threads of a machine that sleep for a number of milliseconds, and the timer interrupt. Other threads and other
CPUs come in between any two accesses to `ticks`, to the flags and to the time wheel. The call reads `ticks` twice
before it sleeps and `e_intr_` twice after; what it says in the end depends on what happens between.
-/

set_option linter.unusedSectionVars false

namespace Chickadee.Wait.Msleep

open Lib

abbrev NUM_WQS : ℕ := 5

abbrev E_INTR : ℤ := -4

/-- Where a thread is in `syscall_msleep`. -/
inductive Pc
  | out
  /-- before `ticks` is read for `wakeup_time` -/
  | read
  /-- before the assertion -/
  | test
  /-- before `e_intr_` is zeroed -/
  | reset
  /-- `block_until`: at the top of the loop -/
  | prepare
  /-- before the predicate reads `ticks` -/
  | time
  /-- before the predicate reads `e_intr_` -/
  | flag
  /-- before `exit_signal_` is read -/
  | signal
  /-- in `block()`, before the test of `pstate_` -/
  | block
  /-- in `block()`, in `yield()` -/
  | asleep
  /-- in `block()`, before `clear()` -/
  | clear
  /-- behind the loop, before `clear()` -/
  | leave
  /-- before `exit_signal_` is read once more -/
  | alive
  /-- before `e_intr_` is read for the result -/
  | ret
  | done (r : ℤ)
  /-- an assertion has failed -/
  | failed
  /-- the thread has exited -/
  | gone
deriving DecidableEq

namespace Pc

/-- `wakeup_time` has been computed. -/
def started : Pc → Bool
  | .out | .read | .done _ | .failed | .gone => false
  | _ => true

/-- Behind the assertion. -/
def counted : Pc → Bool
  | .test => false
  | pc => pc.started

/-- The loop has been left. -/
def leaving : Pc → Bool
  | .leave | .alive | .ret => true
  | _ => false

/-- Between `prepare` and the end of `block()`. -/
def waits : Pc → Bool
  | .time | .flag | .signal | .block | .asleep => true
  | _ => false

/-- The waiter may be linked. -/
def inside : Pc → Bool
  | .clear | .leave | .gone => true
  | pc => pc.waits

end Pc

/-- A thread: `began` and `start` are the ticks at the call and at the first read of the counter. -/
structure Thread where
  pc : Pc
  msec : UInt64
  began : ℕ
  start : ℕ
  wakeup_time : ℕ
  pstate_ : Pstate
  /-- `exit_signal_ == E_INTR` -/
  exit_signal_ : Bool

/-- The timer interrupt of CPU 0. -/
inductive Irq
  | idle
  /-- behind `tick()` -/
  | ticked
  /-- about to call `wake_all` on this queue of the wheel -/
  | waking (i : ℕ)
deriving DecidableEq

/-- `ticks` counts without end here; the code sees it modulo `2 ^ 64`. -/
structure State (T G : Type) where
  ticks : ℕ
  irq : Irq
  th : T → Thread
  e_intr_ : G → ℤ
  time_wheel : ℕ → List T

inductive Act (T G : Type)
  /-- the steps of a thread -/
  | call (t : T) (msec : UInt64)
  | read (t : T)
  | test (t : T)
  | reset (t : T)
  | prepare (t : T)
  | time (t : T)
  | flag (t : T)
  | signal (t : T)
  | block (t : T)
  | resume (t : T)
  | clear (t : T)
  | leave (t : T)
  | alive (t : T)
  | ret (t : T)
  /-- the timer interrupt of CPU 0 -/
  | tick
  | hash
  | wake_all
  /-- the timer interrupt of another CPU, and any other `wake()` -/
  | wake_other (i : ℕ)
  | wake (t : T)
  /-- a child exits; a thread exits the group, and `schedule` sees it -/
  | interrupt (g : G)
  | kill (t : T)
  | exit (t : T)

/-- The ticks of `msec` milliseconds: `(msec + 9) / 10`. -/
def units (msec : UInt64) : ℕ := (msec.toNat + 9) % 2 ^ 64 / 10

/-- `long(wakeup_time - ticks) <= 0` -/
def due (wakeup_time ticks : ℕ) : Bool :=
  let d := (wakeup_time + 2 ^ 64 - ticks % 2 ^ 64) % 2 ^ 64
  d = 0 ∨ 2 ^ 63 ≤ d

variable {T G : Type} [DecidableEq T] [DecidableEq G]

namespace State

/-- A step of a thread that is at `pc`. -/
def advance (s : State T G) (t : T) (pc : Pc) (f : Thread → Thread) : Option (State T G) :=
  if (s.th t).pc = pc then some { s with th := Function.update s.th t (f (s.th t)) } else none

/-- `links_.is_linked()` -/
def linked (s : State T G) (t : T) : Bool := (List.range NUM_WQS).any fun i => t ∈ s.time_wheel i

def push_back (t : T) (s : State T G) : State T G :=
  let i := (s.th t).wakeup_time % NUM_WQS
  { s with time_wheel := Function.update s.time_wheel i (s.time_wheel i ++ [t]) }

def erase (t : T) (s : State T G) : State T G :=
  let i := (s.th t).wakeup_time % NUM_WQS
  { s with time_wheel := Function.update s.time_wheel i ((s.time_wheel i).filter (· ≠ t)) }

/-- `time_wheel[i].wake_all()`, under the lock of the queue. -/
def wakeQueue (s : State T G) (i : ℕ) : State T G :=
  { s with
    th := fun t => if t ∈ s.time_wheel i then { s.th t with pstate_ := .ps_runnable } else s.th t
    time_wheel := Function.update s.time_wheel i [] }

def step (grp : T → G) (s : State T G) : Act T G → Option (State T G)
  | .call t msec =>
    match (s.th t).pc with
    | .out | .done _ =>
      some { s with th := Function.update s.th t { s.th t with pc := .read, msec := msec, began := s.ticks } }
    | _ => none
  | .read t => s.advance t .read fun x =>
    { x with pc := .test, start := s.ticks, wakeup_time := (s.ticks % 2 ^ 64 + units x.msec) % 2 ^ 64 }
  | .test t => s.advance t .test fun x =>
    { x with pc := if s.ticks % 2 ^ 64 < x.wakeup_time then .reset else .failed }
  | .reset t => (s.advance t .reset fun x => { x with pc := .prepare }).map fun s' =>
    { s' with e_intr_ := Function.update s.e_intr_ (grp t) 0 }
  | .prepare t =>
    if s.linked t = true then s.advance t .prepare fun x => { x with pc := .failed }
    else (s.advance t .prepare fun x => { x with pc := .time, pstate_ := .ps_blocked }).map (push_back t)
  | .time t => s.advance t .time fun x => { x with pc := if due x.wakeup_time s.ticks = true then .leave else .flag }
  | .flag t => s.advance t .flag fun x => { x with pc := if s.e_intr_ (grp t) ≠ 0 then .leave else .signal }
  | .signal t => s.advance t .signal fun x => { x with pc := if x.exit_signal_ = true then .leave else .block }
  | .block t => s.advance t .block fun x => { x with pc := if x.pstate_ = .ps_blocked then .asleep else .clear }
  | .resume t =>
    if (s.th t).pstate_ = .ps_runnable then s.advance t .asleep fun x => { x with pc := .clear } else none
  | .clear t =>
    (s.advance t .clear fun x => { x with pc := .prepare, pstate_ := .ps_runnable }).map (erase t)
  | .leave t =>
    (s.advance t .leave fun x => { x with pc := .alive, pstate_ := .ps_runnable }).map (erase t)
  | .alive t => s.advance t .alive fun x => { x with pc := if x.exit_signal_ = true then .gone else .ret }
  | .ret t => s.advance t .ret fun x => { x with pc := .done (s.e_intr_ (grp t)) }
  | .tick => if s.irq = .idle then some { s with ticks := s.ticks + 1, irq := .ticked } else none
  | .hash => if s.irq = .ticked then some { s with irq := .waking (s.ticks % 2 ^ 64 % NUM_WQS) } else none
  | .wake_all =>
    match s.irq with
    | .waking i => some { s.wakeQueue i with irq := .idle }
    | _ => none
  | .wake_other i => some (s.wakeQueue i)
  | .wake t => some { s with th := Function.update s.th t { s.th t with pstate_ := .ps_runnable } }
  | .interrupt g => some { s with e_intr_ := Function.update s.e_intr_ g E_INTR }
  | .kill t => some { s with th := Function.update s.th t { s.th t with exit_signal_ := true } }
  | .exit t =>
    if (s.th t).exit_signal_ = true ∧ (s.th t).pstate_ = .ps_runnable then
      some { s with th := Function.update s.th t { s.th t with pc := .gone } }
    else none

/-- No thread is in `msleep`, and no timer interrupt is going on; the counter has any value. -/
structure Init (s : State T G) : Prop where
  pc : ∀ t, (s.th t).pc = .out
  irq : s.irq = .idle
  time_wheel : ∀ i, s.time_wheel i = []

end State

/-- The states reached by steps that meet `ok`. -/
def Reachable (grp : T → G) (ok : State T G → Act T G → Prop) (s : State T G) : Prop :=
  Reach State.Init (fun s a s' => s.step grp a = some s') ok s

/-- The thread has slept for as long as it was told to. -/
def Thread.Due (x : Thread) (ticks : ℕ) : Prop := x.start + units x.msec ≤ ticks

/--
When a call comes to its assertion its time lies ahead, and the counter does not overflow before; and the flag of a
group is not zeroed while one of its threads that was not due is about to return it.
-/
def Allowed (grp : T → G) (s : State T G) : Act T G → Prop
  | .test t => ¬(s.th t).Due s.ticks ∧ s.ticks / 2 ^ 64 = ((s.th t).start + units (s.th t).msec) / 2 ^ 64
  | .reset t => ∀ u, u ≠ t → grp u = grp t → (s.th u).pc.leaving = true → (s.th u).Due s.ticks
  | _ => True

/-- **What a caller of `msleep` may expect.** -/
structure Safe (s : State T G) : Prop where
  no_failure : ∀ t, (s.th t).pc ≠ .failed
  waits : ∀ t, (s.th t).pc = .done 0 → (s.th t).began + ((s.th t).msec.toNat + 9) / 10 ≤ s.ticks
  examined : ∀ i, s.irq = .waking i → ∀ t, (s.th t).pc.waits = true → (s.th t).pstate_ = .ps_blocked →
    (s.th t).wakeup_time = s.ticks % 2 ^ 64 → t ∈ s.time_wheel i

/-! ## The counter -/

theorem units_lt (msec : UInt64) : units msec < 2 ^ 61 := by
  unfold units
  omega

/-- No wrap, where there is anything to wait for. -/
theorem units_eq {msec : UInt64} (h : 0 < units msec) : units msec = (msec.toNat + 9) / 10 := by
  have hlt := msec.toNat_lt
  unfold units at *
  omega

/-- The predicate does not hold too early. -/
theorem le_of_due {start n wakeup_time ticks : ℕ} (hstart : start ≤ ticks) (hn : n < 2 ^ 61)
    (hwakeup : wakeup_time = (start + n) % 2 ^ 64) (h : due wakeup_time ticks = true) : start + n ≤ ticks := by
  unfold due at h
  simp only [decide_eq_true_eq] at h
  omega

/-! ## One thread -/

/-- What is known of a thread; `e` is the flag of its group. -/
structure Fine (ticks : ℕ) (e : ℤ) (x : Thread) : Prop where
  no_failure : x.pc ≠ .failed
  began : x.pc = .read → x.began ≤ ticks
  started : x.pc.started = true →
    x.began ≤ x.start ∧ x.start ≤ ticks ∧ x.wakeup_time = (x.start + units x.msec) % 2 ^ 64
  counted : x.pc.counted = true → 0 < units x.msec
  leaving : x.pc.leaving = true → x.Due ticks ∨ e ≠ 0 ∨ x.exit_signal_ = true ∧ x.pc ≠ .ret
  done : x.pc = .done 0 → x.began + (x.msec.toNat + 9) / 10 ≤ ticks

variable {ticks : ℕ} {e e' : ℤ} {x : Thread}

/-- Time goes on, and a flag is set. -/
theorem Fine.mono (h : Fine ticks e x) {ticks' : ℕ} (hle : ticks ≤ ticks') (he : e ≠ 0 → e' ≠ 0) :
    Fine ticks' e' x := by
  refine ⟨h.no_failure, fun hpc => (h.began hpc).trans hle, fun hpc => ?_, h.counted, fun hpc => ?_,
    fun hpc => (h.done hpc).trans hle⟩
  · obtain ⟨hbegan, hstart, hwakeup⟩ := h.started hpc
    exact ⟨hbegan, hstart.trans hle, hwakeup⟩
  · rcases h.leaving hpc with hdue | hflag
    · exact .inl (le_trans hdue hle)
    · exact .inr (hflag.imp_left he)

/-- The flag does not matter to a thread that is due, or that is not about to return it. -/
theorem Fine.zero (h : Fine ticks e x) (hdue : x.pc.leaving = true → x.Due ticks) : Fine ticks e' x :=
  ⟨h.no_failure, h.began, h.started, h.counted, fun hpc => .inl (hdue hpc), h.done⟩

theorem Fine.pstate (h : Fine ticks e x) (p : Pstate) : Fine ticks e { x with pstate_ := p } :=
  ⟨h.no_failure, h.began, h.started, h.counted, h.leaving, h.done⟩

theorem Fine.killed (h : Fine ticks e x) : Fine ticks e { x with exit_signal_ := true } :=
  ⟨h.no_failure, h.began, h.started, h.counted, fun hpc => (h.leaving hpc).imp_right (Or.imp_right fun hexit => ⟨rfl, hexit.2⟩),
    h.done⟩

/-- A step inside the loop, which need not be left for a reason. -/
theorem Fine.goto (h : Fine ticks e x) {pc : Pc} {p : Pstate} (hfrom : x.pc.counted = true) (hstarted : x.pc.started = true)
    (hto : pc.counted = true) (hleaving : pc.leaving = true →
      x.Due ticks ∨ e ≠ 0 ∨ x.exit_signal_ = true ∧ pc ≠ .ret) : Fine ticks e { x with pc := pc, pstate_ := p } := by
  refine ⟨?_, ?_, fun _ => h.started hstarted, fun _ => h.counted hfrom, hleaving, ?_⟩
  · rintro rfl
    cases hto
  · rintro rfl
    cases hto
  · rintro rfl
    cases hto

/-- Outside of `msleep`. -/
theorem Fine.outside (hno : x.pc.started = false) (hread : x.pc ≠ .read) (hdone : x.pc ≠ .done 0) (hfail : x.pc ≠ .failed) :
    Fine ticks e x := by
  have hcounted : x.pc.counted = false := by
    unfold Pc.counted
    split
    · rfl
    · exact hno
  have hleaving : x.pc.leaving = false := by
    cases hpc : x.pc <;> first | rfl | (rw [hpc] at hno; cases hno)
  refine ⟨hfail, fun h => absurd h hread, fun h => ?_, fun h => ?_, fun h => ?_, fun h => absurd h hdone⟩
  · rw [hno] at h
    cases h
  · rw [hcounted] at h
    cases h
  · rw [hleaving] at h
    cases h

/-! ## The invariant -/

/-- A thread that is blocked in the loop is on its queue, and no thread is on another. -/
structure Inv (grp : T → G) (s : State T G) : Prop where
  fine : ∀ t, Fine s.ticks (s.e_intr_ (grp t)) (s.th t)
  linked : ∀ i t, t ∈ s.time_wheel i → i = (s.th t).wakeup_time % NUM_WQS ∧ (s.th t).pc.inside = true
  blocked : ∀ t, (s.th t).pc.waits = true → (s.th t).pstate_ = .ps_blocked →
    t ∈ s.time_wheel ((s.th t).wakeup_time % NUM_WQS)
  irq : ∀ i, s.irq = .waking i → i = s.ticks % 2 ^ 64 % NUM_WQS

variable {grp : T → G} {s s' : State T G} {t : T}

theorem inv_init (h : s.Init) : Inv grp s := by
  refine ⟨fun t => Fine.outside ?_ ?_ ?_ ?_, fun i t ht => ?_, fun t hw => ?_, fun i hi => ?_⟩
  · rw [h.pc t]
    rfl
  · rw [h.pc t]
    nofun
  · rw [h.pc t]
    nofun
  · rw [h.pc t]
    nofun
  · rw [h.time_wheel i] at ht
    cases ht
  · rw [h.pc t] at hw
    cases hw
  · rw [h.irq] at hi
    cases hi

/-- **A step of one thread that leaves the wheel alone.** -/
theorem Inv.thread (h : Inv grp s) (hfine : Fine s.ticks (s.e_intr_ (grp t)) x)
    (hinside : (s.th t).pc.inside = true → x.pc.inside = true ∧ x.wakeup_time = (s.th t).wakeup_time)
    (hwaits : x.pc.waits = true → x.pstate_ = .ps_blocked → (s.th t).pc.waits = true ∧
      (s.th t).pstate_ = .ps_blocked ∧ x.wakeup_time = (s.th t).wakeup_time) :
    Inv grp { s with th := Function.update s.th t x } := by
  refine ⟨fun u => ?_, fun i u hu => ?_, fun u hw hp => ?_, h.irq⟩
  · dsimp only
    by_cases hut : u = t
    · subst hut
      rw [Function.update_self]
      exact hfine
    · rw [Function.update_of_ne hut]
      exact h.fine u
  · obtain ⟨hi, hin⟩ := h.linked i u hu
    dsimp only
    by_cases hut : u = t
    · subst hut
      rw [Function.update_self]
      obtain ⟨hin', hsame⟩ := hinside hin
      rw [hsame]
      exact ⟨hi, hin'⟩
    · rw [Function.update_of_ne hut]
      exact ⟨hi, hin⟩
  · dsimp only at hw hp ⊢
    by_cases hut : u = t
    · subst hut
      rw [Function.update_self] at hw hp ⊢
      obtain ⟨hw', hp', hsame⟩ := hwaits hw hp
      rw [hsame]
      exact h.blocked u hw' hp'
    · rw [Function.update_of_ne hut] at hw hp ⊢
      exact h.blocked u hw hp

theorem advance_eq {pc : Pc} {f : Thread → Thread} (hs : s.advance t pc f = some s') :
    (s.th t).pc = pc ∧ s' = { s with th := Function.update s.th t (f (s.th t)) } := by
  unfold State.advance at hs
  split at hs
  · next hpc => exact ⟨hpc, (Option.some.inj hs).symm⟩
  · cases hs

/-- A step of one thread, with the wheel as it is before and after. -/
theorem Inv.wheel (h : Inv grp s) (hfine : Fine s.ticks (s.e_intr_ (grp t)) x) {q : ℕ → List T}
    (hsame : ∀ i u, u ≠ t → (u ∈ q i ↔ u ∈ s.time_wheel i))
    (hself : ∀ i, t ∈ q i → i = x.wakeup_time % NUM_WQS ∧ x.pc.inside = true)
    (hwaits : x.pc.waits = true → x.pstate_ = .ps_blocked → t ∈ q (x.wakeup_time % NUM_WQS)) :
    Inv grp { s with th := Function.update s.th t x, time_wheel := q } := by
  refine ⟨fun u => ?_, fun i u hu => ?_, fun u hw hp => ?_, h.irq⟩
  · dsimp only
    by_cases hut : u = t
    · subst hut
      rw [Function.update_self]
      exact hfine
    · rw [Function.update_of_ne hut]
      exact h.fine u
  · dsimp only at hu ⊢
    by_cases hut : u = t
    · subst hut
      rw [Function.update_self]
      exact hself i hu
    · rw [Function.update_of_ne hut]
      exact h.linked i u ((hsame i u hut).mp hu)
  · dsimp only at hw hp ⊢
    by_cases hut : u = t
    · subst hut
      rw [Function.update_self] at hw hp ⊢
      exact hwaits hw hp
    · rw [Function.update_of_ne hut] at hw hp ⊢
      exact (hsame _ u hut).mpr (h.blocked u hw hp)

/-- The waiter is put on its queue, on which it was not. -/
theorem Inv.push_back (h : Inv grp s) (hfine : Fine s.ticks (s.e_intr_ (grp t)) x) (hout : (s.th t).pc.inside = false)
    (hin : x.pc.inside = true) : Inv grp (State.push_back t { s with th := Function.update s.th t x }) := by
  have hnot : ∀ i, t ∉ s.time_wheel i := by
    intro i hi
    have hinside := (h.linked i t hi).2
    rw [hout] at hinside
    cases hinside
  unfold State.push_back
  dsimp only
  rw [Function.update_self]
  refine h.wheel hfine (fun i u hut => ?_) (fun i hi => ?_) fun _ _ => ?_
  · by_cases hi : i = x.wakeup_time % NUM_WQS
    · subst hi
      rw [Function.update_self, List.mem_append, List.mem_singleton]
      exact or_iff_left hut
    · rw [Function.update_of_ne hi]
  · by_cases hne : i = x.wakeup_time % NUM_WQS
    · exact ⟨hne, hin⟩
    · rw [Function.update_of_ne hne] at hi
      exact absurd hi (hnot i)
  · rw [Function.update_self]
    exact List.mem_append_right _ (List.mem_singleton.mpr rfl)

/-- The waiter is taken off its queue. -/
theorem Inv.erase (h : Inv grp s) (hfine : Fine s.ticks (s.e_intr_ (grp t)) x)
    (hsame : x.wakeup_time = (s.th t).wakeup_time) (hrun : x.pstate_ = .ps_runnable) :
    Inv grp (State.erase t { s with th := Function.update s.th t x }) := by
  have hoff : ∀ i, t ∉ Function.update s.time_wheel (x.wakeup_time % NUM_WQS)
      ((s.time_wheel (x.wakeup_time % NUM_WQS)).filter (· ≠ t)) i := by
    intro i hi
    by_cases hne : i = x.wakeup_time % NUM_WQS
    · subst hne
      rw [Function.update_self] at hi
      simpa using (List.mem_filter.mp hi).2
    · rw [Function.update_of_ne hne] at hi
      have hplace := (h.linked i t hi).1
      rw [← hsame] at hplace
      exact hne hplace
  unfold State.erase
  dsimp only
  rw [Function.update_self]
  refine h.wheel hfine (fun i u hut => ?_) (fun i hi => absurd hi (hoff i)) fun _ hp => ?_
  · by_cases hi : i = x.wakeup_time % NUM_WQS
    · subst hi
      rw [Function.update_self, List.mem_filter]
      simp [hut]
    · rw [Function.update_of_ne hi]
  · rw [hrun] at hp
    cases hp

/-- **`wake_all` on one queue of the wheel.** -/
theorem Inv.wakeQueue (h : Inv grp s) (i : ℕ) : Inv grp (s.wakeQueue i) := by
  have hsub : ∀ j u, u ∈ Function.update s.time_wheel i [] j → u ∈ s.time_wheel j ∧ j ≠ i := by
    intro j u hu
    by_cases hj : j = i
    · subst hj
      rw [Function.update_self] at hu
      cases hu
    · rw [Function.update_of_ne hj] at hu
      exact ⟨hu, hj⟩
  unfold State.wakeQueue
  refine ⟨fun u => ?_, fun j u hu => ?_, fun u hw hp => ?_, h.irq⟩
  · dsimp only
    split
    · exact (h.fine u).pstate _
    · exact h.fine u
  · obtain ⟨hu, -⟩ := hsub j u hu
    dsimp only
    split
    · exact h.linked j u hu
    · exact h.linked j u hu
  · dsimp only at hw hp ⊢
    split at hp
    · cases hp
    · next hnot =>
      rw [if_neg hnot] at hw ⊢
      have hin := h.blocked u hw hp
      have hne : (s.th u).wakeup_time % NUM_WQS ≠ i := by
        rintro rfl
        exact hnot hin
      rw [Function.update_of_ne hne]
      exact hin

/-- The flag of a group changes. -/
theorem Inv.flag (h : Inv grp s) {f : G → ℤ} (hfine : ∀ t, Fine s.ticks (f (grp t)) (s.th t)) :
    Inv grp { s with e_intr_ := f } :=
  ⟨hfine, h.linked, h.blocked, h.irq⟩

theorem not_inside {pc : Pc} (hpc : (s.th t).pc = pc) (hout : pc.inside = false) :
    ¬(s.th t).pc.inside = true := by
  rw [hpc, hout]
  exact Bool.false_ne_true

/-- **Before the assertion.** -/
theorem Inv.start (h : Inv grp s) : (∀ msec, s.step grp (.call t msec) = some s' → Inv grp s') ∧
    (s.step grp (.read t) = some s' → Inv grp s') := by
  constructor
  · intro msec hs
    have hfine : Fine s.ticks (s.e_intr_ (grp t)) { s.th t with pc := .read, msec := msec, began := s.ticks } := by
      refine ⟨nofun, fun _ => le_rfl, ?_, ?_, ?_, nofun⟩ <;>
        · intro hpc
          cases hpc
    have hnext : ∀ pc, (s.th t).pc = pc → pc.inside = false → Inv grp { s with
        th := Function.update s.th t { s.th t with pc := .read, msec := msec, began := s.ticks } } := by
      intro pc hpc hout
      refine h.thread hfine (fun hin => absurd hin (not_inside hpc hout)) fun hw => ?_
      cases hw
    unfold State.step at hs
    dsimp only at hs
    split at hs
    · next hpc =>
      obtain rfl := Option.some.inj hs
      exact hnext _ hpc rfl
    · next hpc =>
      obtain rfl := Option.some.inj hs
      exact hnext _ hpc rfl
    · cases hs
  · intro hs
    unfold State.step at hs
    obtain ⟨hpc, rfl⟩ := advance_eq hs
    have hbegan := (h.fine t).began hpc
    refine h.thread ⟨nofun, nofun, fun _ => ⟨hbegan, le_rfl, ?_⟩, ?_, ?_, nofun⟩
      (fun hin => absurd hin (not_inside hpc rfl)) fun hw => ?_
    · dsimp only
      rw [Nat.mod_add_mod]
    · intro hcounted
      cases hcounted
    · intro hleaving
      cases hleaving
    · cases hw

/-- **The assertion holds** where the time lies ahead and the counter does not overflow. -/
theorem Inv.test (h : Inv grp s) (hok : Allowed grp s (.test t)) (hs : s.step grp (.test t) = some s') :
    Inv grp s' := by
  unfold State.step at hs
  obtain ⟨hpc, rfl⟩ := advance_eq hs
  obtain ⟨hahead, hquot⟩ := hok
  have hfine := h.fine t
  obtain ⟨hbegan, hstart, hwakeup⟩ := hfine.started (by rw [hpc]; rfl)
  have hlt : s.ticks % 2 ^ 64 < (s.th t).wakeup_time := by
    rw [hwakeup]
    unfold Thread.Due at hahead
    omega
  have hunits : 0 < units (s.th t).msec := by
    unfold Thread.Due at hahead
    omega
  rw [if_pos hlt]
  refine h.thread ⟨nofun, nofun, fun _ => ⟨hbegan, hstart, hwakeup⟩, fun _ => hunits, ?_, nofun⟩
    (fun hin => absurd hin (not_inside hpc rfl)) fun hw => ?_
  · intro hleaving
    cases hleaving
  · cases hw

/-- **The flag is zeroed** when no thread of the group is about to return it that is not due. -/
theorem Inv.reset (h : Inv grp s) (hok : Allowed grp s (.reset t)) (hs : s.step grp (.reset t) = some s') :
    Inv grp s' := by
  unfold State.step at hs
  obtain ⟨s₁, hadvance, rfl⟩ := Option.map_eq_some_iff.mp hs
  obtain ⟨hpc, rfl⟩ := advance_eq hadvance
  have hfine : Fine s.ticks (s.e_intr_ (grp t)) { s.th t with pc := .prepare } :=
    (h.fine t).goto (by rw [hpc]; rfl) (by rw [hpc]; rfl) rfl fun hleaving => by cases hleaving
  have hnext : Inv grp { s with th := Function.update s.th t { s.th t with pc := .prepare } } := by
    refine h.thread hfine (fun hin => absurd hin (not_inside hpc rfl)) fun hw => ?_
    cases hw
  refine hnext.flag fun u => ?_
  have hu := hnext.fine u
  dsimp only at hu ⊢
  by_cases hg : grp u = grp t
  · refine hu.zero fun hleaving => ?_
    by_cases hut : u = t
    · subst hut
      rw [Function.update_self] at hleaving
      cases hleaving
    · rw [Function.update_of_ne hut] at hleaving ⊢
      exact hok u hut hg hleaving
  · rw [Function.update_of_ne hg]
    exact hu

/-- **The loop of `block_until`.** -/
theorem Inv.loop (h : Inv grp s) :
    (s.step grp (.prepare t) = some s' → Inv grp s') ∧ (s.step grp (.time t) = some s' → Inv grp s') ∧
    (s.step grp (.flag t) = some s' → Inv grp s') ∧ (s.step grp (.signal t) = some s' → Inv grp s') ∧
    (s.step grp (.block t) = some s' → Inv grp s') ∧ (s.step grp (.resume t) = some s' → Inv grp s') ∧
    (s.step grp (.clear t) = some s' → Inv grp s') := by
  have hfine := h.fine t
  -- a step from one place where the waiter is linked to another
  have hnext : ∀ pc, (s.th t).pc.counted = true → (s.th t).pc.started = true → pc.counted = true → pc.inside = true →
      (pc.waits = true → (s.th t).pc.waits = true) →
      (pc.leaving = true → (s.th t).Due s.ticks ∨ s.e_intr_ (grp t) ≠ 0 ∨
        (s.th t).exit_signal_ = true ∧ pc ≠ .ret) →
      Inv grp { s with th := Function.update s.th t { s.th t with pc := pc } } := by
    intro pc hcounted hstarted hto hin hwaits hleaving
    exact h.thread (hfine.goto hcounted hstarted hto hleaving) (fun _ => ⟨hin, rfl⟩)
      fun hw hp => ⟨hwaits hw, hp, rfl⟩
  refine ⟨fun hs => ?_, fun hs => ?_, fun hs => ?_, fun hs => ?_, fun hs => ?_, fun hs => ?_, fun hs => ?_⟩
  · unfold State.step at hs
    dsimp only at hs
    split at hs
    · next hlinked =>
      -- a thread at the top of the loop is on no queue
      obtain ⟨hpc, -⟩ := advance_eq hs
      obtain ⟨i, -, hi⟩ := List.any_eq_true.mp hlinked
      exact absurd (h.linked i t (by simpa using hi)).2 (not_inside hpc rfl)
    · obtain ⟨s₁, hadvance, rfl⟩ := Option.map_eq_some_iff.mp hs
      obtain ⟨hpc, rfl⟩ := advance_eq hadvance
      refine h.push_back (hfine.goto (by rw [hpc]; rfl) (by rw [hpc]; rfl) rfl fun hl => ?_)
        (by rw [hpc]; rfl) rfl
      cases hl
  · unfold State.step at hs
    obtain ⟨hpc, rfl⟩ := advance_eq hs
    obtain ⟨-, hstart, hwakeup⟩ := hfine.started (by rw [hpc]; rfl)
    split
    · next hdue =>
      have hover : (s.th t).Due s.ticks := le_of_due hstart (units_lt _) hwakeup hdue
      exact hnext .leave (by rw [hpc]; rfl) (by rw [hpc]; rfl) rfl rfl nofun fun _ => .inl hover
    · exact hnext .flag (by rw [hpc]; rfl) (by rw [hpc]; rfl) rfl rfl (fun _ => by rw [hpc]; rfl) nofun
  · unfold State.step at hs
    obtain ⟨hpc, rfl⟩ := advance_eq hs
    split
    · next hflag =>
      exact hnext .leave (by rw [hpc]; rfl) (by rw [hpc]; rfl) rfl rfl nofun fun _ => .inr (.inl hflag)
    · exact hnext .signal (by rw [hpc]; rfl) (by rw [hpc]; rfl) rfl rfl (fun _ => by rw [hpc]; rfl) nofun
  · unfold State.step at hs
    obtain ⟨hpc, rfl⟩ := advance_eq hs
    split
    · next hexit =>
      exact hnext .leave (by rw [hpc]; rfl) (by rw [hpc]; rfl) rfl rfl nofun fun _ => .inr (.inr ⟨hexit, nofun⟩)
    · exact hnext .block (by rw [hpc]; rfl) (by rw [hpc]; rfl) rfl rfl (fun _ => by rw [hpc]; rfl) nofun
  · unfold State.step at hs
    obtain ⟨hpc, rfl⟩ := advance_eq hs
    split
    · exact hnext .asleep (by rw [hpc]; rfl) (by rw [hpc]; rfl) rfl rfl (fun _ => by rw [hpc]; rfl) nofun
    · exact hnext .clear (by rw [hpc]; rfl) (by rw [hpc]; rfl) rfl rfl nofun nofun
  · unfold State.step at hs
    dsimp only at hs
    split at hs
    · obtain ⟨hpc, rfl⟩ := advance_eq hs
      exact hnext .clear (by rw [hpc]; rfl) (by rw [hpc]; rfl) rfl rfl nofun nofun
    · cases hs
  · unfold State.step at hs
    obtain ⟨s₁, hadvance, rfl⟩ := Option.map_eq_some_iff.mp hs
    obtain ⟨hpc, rfl⟩ := advance_eq hadvance
    refine h.erase (hfine.goto (by rw [hpc]; rfl) (by rw [hpc]; rfl) rfl fun hl => ?_) rfl rfl
    cases hl

/-- **Behind the loop.** -/
theorem Inv.finish (h : Inv grp s) :
    (s.step grp (.leave t) = some s' → Inv grp s') ∧ (s.step grp (.alive t) = some s' → Inv grp s') ∧
    (s.step grp (.ret t) = some s' → Inv grp s') := by
  have hfine := h.fine t
  refine ⟨fun hs => ?_, fun hs => ?_, fun hs => ?_⟩
  · unfold State.step at hs
    obtain ⟨s₁, hadvance, rfl⟩ := Option.map_eq_some_iff.mp hs
    obtain ⟨hpc, rfl⟩ := advance_eq hadvance
    have hreason := hfine.leaving (by rw [hpc]; rfl)
    exact h.erase (hfine.goto (by rw [hpc]; rfl) (by rw [hpc]; rfl) rfl fun _ =>
      hreason.imp_right (Or.imp_right fun hexit => ⟨hexit.1, nofun⟩)) rfl rfl
  · unfold State.step at hs
    obtain ⟨hpc, rfl⟩ := advance_eq hs
    have hreason := hfine.leaving (by rw [hpc]; rfl)
    split
    · refine h.thread (Fine.outside rfl nofun nofun nofun) (fun hin => absurd hin (not_inside hpc rfl)) fun hw => ?_
      cases hw
    · next hexit =>
      refine h.thread (hfine.goto (by rw [hpc]; rfl) (by rw [hpc]; rfl) rfl fun _ => ?_)
        (fun hin => absurd hin (not_inside hpc rfl)) fun hw => ?_
      · exact hreason.imp_right (Or.imp_right fun hsignal => absurd hsignal.1 hexit)
      · cases hw
  · unfold State.step at hs
    obtain ⟨hpc, rfl⟩ := advance_eq hs
    have hreason := hfine.leaving (by rw [hpc]; rfl)
    obtain ⟨hbegan, -, -⟩ := hfine.started (by rw [hpc]; rfl)
    have hcount := units_eq (hfine.counted (by rw [hpc]; rfl))
    refine h.thread ⟨nofun, nofun, ?_, ?_, ?_, fun hzero => ?_⟩ (fun hin => absurd hin (not_inside hpc rfl)) fun hw => ?_
    · intro hno
      cases hno
    · intro hno
      cases hno
    · intro hno
      cases hno
    · have hflag : s.e_intr_ (grp t) = 0 := Pc.done.inj hzero
      rcases hreason with hdue | hne | hexit
      · unfold Thread.Due at hdue
        dsimp only
        omega
      · exact absurd hflag hne
      · exact absurd hpc hexit.2
    · cases hw

/-- **Every step keeps the invariant.** -/
theorem Inv.step (h : Inv grp s) {a : Act T G} (hok : Allowed grp s a) (hs : s.step grp a = some s') :
    Inv grp s' := by
  cases a with
  | call t msec => exact (h.start (t := t)).1 msec hs
  | read t => exact h.start.2 hs
  | test t => exact h.test hok hs
  | reset t => exact h.reset hok hs
  | prepare t => exact h.loop.1 hs
  | time t => exact h.loop.2.1 hs
  | flag t => exact h.loop.2.2.1 hs
  | signal t => exact h.loop.2.2.2.1 hs
  | block t => exact h.loop.2.2.2.2.1 hs
  | resume t => exact h.loop.2.2.2.2.2.1 hs
  | clear t => exact h.loop.2.2.2.2.2.2 hs
  | leave t => exact h.finish.1 hs
  | alive t => exact h.finish.2.1 hs
  | ret t => exact h.finish.2.2 hs
  | tick =>
    unfold State.step at hs
    dsimp only at hs
    split at hs
    · obtain rfl := Option.some.inj hs
      exact ⟨fun t => (h.fine t).mono (Nat.le_succ _) id, h.linked, h.blocked, nofun⟩
    · cases hs
  | hash =>
    unfold State.step at hs
    dsimp only at hs
    split at hs
    · obtain rfl := Option.some.inj hs
      exact ⟨h.fine, h.linked, h.blocked, fun i hi => (Irq.waking.inj hi).symm⟩
    · cases hs
  | wake_all =>
    unfold State.step at hs
    dsimp only at hs
    split at hs
    · next i hi =>
      obtain rfl := Option.some.inj hs
      have hnext := h.wakeQueue i
      exact ⟨hnext.fine, hnext.linked, hnext.blocked, nofun⟩
    · cases hs
  | wake_other i =>
    obtain rfl := Option.some.inj hs
    exact h.wakeQueue i
  | wake t =>
    obtain rfl := Option.some.inj hs
    exact h.thread ((h.fine t).pstate _) (fun hin => ⟨hin, rfl⟩) fun _ hp => by cases hp
  | interrupt g =>
    obtain rfl := Option.some.inj hs
    refine h.flag fun t => (h.fine t).mono le_rfl fun hne => ?_
    by_cases hg : grp t = g
    · rw [hg, Function.update_self]
      decide
    · rw [Function.update_of_ne hg]
      exact hne
  | kill t =>
    obtain rfl := Option.some.inj hs
    exact h.thread (h.fine t).killed (fun hin => ⟨hin, rfl⟩) fun hw hp => ⟨hw, hp, rfl⟩
  | exit t =>
    unfold State.step at hs
    dsimp only at hs
    split at hs
    · obtain rfl := Option.some.inj hs
      refine h.thread (Fine.outside rfl nofun nofun nofun) (fun _ => ⟨rfl, rfl⟩) fun hw => ?_
      cases hw
    · cases hs

theorem Inv.safe (h : Inv grp s) : Safe s where
  no_failure t := (h.fine t).no_failure
  waits t := (h.fine t).done
  examined i hi t hw hp htime := by
    have hin := h.blocked t hw hp
    rw [htime, ← h.irq i hi] at hin
    exact hin

/--
**`msleep` keeps its promises** in every run in which each call comes to its assertion before its time, without an
overflow of the counter, and in which no thread zeroes the flag that another of its group is about to return early.
-/
theorem msleep_safe (h : Reachable grp (Allowed grp) s) : Safe s :=
  (Reach.invariant (P := Inv grp) (fun _ => inv_init) (fun _ _ _ hi hok hs => hi.step hok hs) h).safe

/-! ## Short runs -/

/-- A machine that has just started. -/
def quiet (T G : Type) : State T G where
  ticks := 0
  irq := .idle
  th := fun _ => ⟨.out, 0, 0, 0, 0, .ps_runnable, false⟩
  e_intr_ := fun _ => 0
  time_wheel := fun _ => []

theorem quiet_init : (quiet T G).Init := ⟨fun _ => rfl, rfl, fun _ => rfl⟩

/-- `Allowed`, for a machine with one thread. -/
def allowed₁ (s : State Unit Unit) : Act Unit Unit → Bool
  | .test t => s.ticks < (s.th t).start + units (s.th t).msec ∧
      s.ticks / 2 ^ 64 = ((s.th t).start + units (s.th t).msec) / 2 ^ 64
  | _ => true

theorem allowed_of_allowed₁ {s : State Unit Unit} {a : Act Unit Unit} (h : allowed₁ s a = true) :
    Allowed (fun _ => ()) s a := by
  cases a with
  | test t =>
    obtain ⟨hahead, hquot⟩ := of_decide_eq_true h
    exact ⟨not_le.mpr hahead, hquot⟩
  | reset t => exact fun u hne => absurd (Subsingleton.elim u t) hne
  | _ => exact trivial

/-- A thread sleeps for ten milliseconds; the timer interrupt wakes it up. -/
def tenMs : List (Act Unit Unit) :=
  [.call () 10, .read (), .test (), .reset (), .prepare (), .time (), .flag (), .signal (), .block (), .tick, .hash,
    .wake_all, .resume (), .clear (), .prepare (), .time (), .leave (), .alive (), .ret ()]

theorem msleep_safe_tenMs : ∃ s, exec (State.step fun _ => ()) allowed₁ (quiet Unit Unit) tenMs = some s ∧
    (s.th ()).pc = .done 0 ∧ Safe s := by
  have hrun : ((exec (State.step fun _ => ()) allowed₁ (quiet Unit Unit) tenMs).map fun s => (s.th ()).pc) =
      some (.done 0) := by
    decide +kernel
  obtain ⟨s, hexec, hpc⟩ := Option.map_eq_some_iff.mp hrun
  have hreach : Reachable (fun _ => ()) (Allowed fun _ => ()) s :=
    Reach.exec (fun _ _ => allowed_of_allowed₁) (.init quiet_init) hexec
  exact ⟨s, hexec, hpc, msleep_safe hreach⟩

/-- A thread sleeps for ten milliseconds, a child of its group exits, and a second thread of the group goes to sleep
before the first one has returned. -/
def twoSleep : List (Act Bool Unit) :=
  [.call true 10, .read true, .test true, .reset true, .prepare true, .time true, .interrupt (), .flag true,
    .leave true, .alive true, .call false 10, .read false, .test false, .reset false, .ret true]

/-- The states that any run reaches. -/
theorem reachable_of_exec {grp : T → G} {as : List (Act T G)}
    (h : exec (State.step grp) (fun _ _ => true) (quiet T G) as = some s) : Reachable grp (fun _ _ => True) s :=
  Reach.exec (fun _ _ _ => trivial) (.init quiet_init) h

/-- **`msleep(0)` fails the assertion, and `msleep(10)` can return 0 at once.** -/
theorem msleep_fails :
    (∃ s : State Unit Unit, Reachable (fun _ => ()) (fun _ _ => True) s ∧ (s.th ()).msec = 0 ∧
      (s.th ()).pc = .failed) ∧
    ∃ s : State Bool Unit, Reachable (fun _ => ()) (fun _ _ => True) s ∧ (s.th true).msec = 10 ∧
      (s.th true).pc = .done 0 ∧ s.ticks = 0 := by
  constructor
  · have hrun : ((exec (State.step fun _ => ()) (fun _ _ => true) (quiet Unit Unit)
        [.call () 0, .read (), .test ()]).map fun s => ((s.th ()).msec, (s.th ()).pc)) = some (0, .failed) := by
      decide +kernel
    obtain ⟨s, hexec, hs⟩ := Option.map_eq_some_iff.mp hrun
    obtain ⟨hmsec, hpc⟩ := Prod.mk.inj hs
    exact ⟨s, reachable_of_exec hexec, hmsec, hpc⟩
  · have hrun : ((exec (State.step fun _ => ()) (fun _ _ => true) (quiet Bool Unit) twoSleep).map
        fun s => ((s.th true).msec, (s.th true).pc, s.ticks)) = some (10, .done 0, 0) := by
      decide +kernel
    obtain ⟨s, hexec, hs⟩ := Option.map_eq_some_iff.mp hrun
    obtain ⟨hmsec, hs⟩ := Prod.mk.inj hs
    obtain ⟨hpc, hticks⟩ := Prod.mk.inj hs
    exact ⟨s, reachable_of_exec hexec, hmsec, hpc, hticks⟩

end Chickadee.Wait.Msleep
