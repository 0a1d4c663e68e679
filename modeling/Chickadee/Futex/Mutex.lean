import Chickadee.Futex.Account

/-!
# The user-level mutex: `mutex::lock` and `mutex::unlock` of `u-lib.cc`

Threads of one address space that lock and unlock one mutex. A step is one atomic access to the word, or
a step of the kernel in `sys_futex`.
-/

namespace Chickadee.Mutex

open Lib
open Futex (FUTEX_WAIT FUTEX_WAKE)
open Wait (Pstate)

set_option linter.unusedSectionVars false

/-- The number of rounds of the spin phase. -/
def NSPIN : ℕ := 40

/-- Where a thread is. -/
inductive Pc
  /-- it does not use the mutex -/
  | out
  /-- in round `i` of the spin phase, before `compare_exchange_weak` -/
  | spin (i : ℕ)
  /-- before `word_.load` -/
  | load
  /-- before `word_.exchange(2)` -/
  | exchange
  /-- before the test of `prev` -/
  | loop (prev : BitVec 32)
  /-- in `FUTEX_WAIT` -/
  | wait
  /-- `lock` has returned -/
  | crit
  /-- `--word_` was not 0: before `word_ = 0` -/
  | store
  /-- in `FUTEX_WAKE` -/
  | wake
deriving DecidableEq

/--
The threads and the kernel, whose only address space holds the word. `woken` records that a wake-up has
reached a thread that has not exchanged the word or gone back to sleep since.
-/
structure State (T S : Type) where
  pc : T → Pc
  kernel : Futex.State T S Unit
  woken : T → Bool

/-- The steps. -/
inductive Act (T S : Type)
  | lock (t : T)
  /-- `compare_exchange_weak` may also fail without a reason -/
  | cas (t : T) (fail : Bool)
  | load (t : T)
  | exchange (t : T)
  | test (t : T)
  | unlock (t : T)
  | store (t : T)
  /-- `sys_futex` returns -/
  | ret (t : T)
  /-- a step of the kernel -/
  | kernel (a : Futex.Act T S Unit)
deriving DecidableEq

/-- The steps of the kernel that are not made by user code. -/
def inKernel {T S : Type} : Futex.Act T S Unit → Bool
  | .call .. | .write .. | .signal _ | .kill _ => false
  | _ => true

variable {T S : Type} [DecidableEq T] [DecidableEq S]

/-- There is only one address space. -/
def space : T → Unit := fun _ => ()

/-- The waiters that a step of the kernel takes from a queue. -/
def wokenBy (k : Futex.State T S Unit) : Futex.Act T S Unit → List T
  | .wake t =>
    match k.pc t with
    | .wake f => if f ∈ k.states_ then k.popped f (k.nwake t) else []
    | _ => []
  | .check_timeout f => k.popped f (k.wq_ f).length
  | _ => []

/-- The thread has found the predicate false, and is going to sleep. -/
def blocks (k : Futex.State T S Unit) (u : T) : Bool :=
  match k.pc u with
  | .block _ => true
  | _ => false

/-- The thread has found the predicate false and is blocked. -/
def Sleeps (k : Futex.State T S Unit) (u : T) : Prop :=
  k.pstate_ u = .ps_blocked ∧ ∃ f, k.pc u = .block f ∨ k.pc u = .yield f ∨ k.pc u = .asleep f

namespace State

variable (w : ℕ) (s : State T S)

/-- `word_`, at the address `w`. -/
def word_ : BitVec 32 := s.kernel.mem () w

/-- `t` writes the word and goes on. -/
def set (t : T) (x : BitVec 32) (pc : Pc) : State T S :=
  let mem := Function.update (s.kernel.mem ()) w x
  { s with pc := Function.update s.pc t pc, kernel := { s.kernel with mem := fun _ => mem } }

def goto (t : T) (pc : Pc) : State T S := { s with pc := Function.update s.pc t pc }

/-- `t` goes on in `sys_futex`. -/
def sys_futex (t : T) (op : ℕ) (val : BitVec 32) (pc : Pc) : Option (State T S) :=
  (s.kernel.step space (.call t op ⟨w, val, 0⟩ false)).map fun k =>
    { s.goto t pc with kernel := k }

/-- What a step of the kernel leaves of `woken`. -/
def wokenAfter (k : Futex.State T S Unit) (a : Futex.Act T S Unit) (u : T) : Bool :=
  if u ∈ wokenBy s.kernel a then true
  else if a = .test u ∧ blocks k u = true then false
  else s.woken u

/-- A step. -/
def step : Act T S → Option (State T S)
  | .lock t => if s.pc t = .out then some (s.goto t (.spin 0)) else none
  | .cas t fail =>
    match s.pc t with
    | .spin i =>
      if s.word_ w = 0 ∧ fail = false then some (s.set w t 1 .crit)
      else some (s.goto t (if i + 1 < NSPIN then .spin (i + 1) else .load))
    | _ => none
  | .load t =>
    if s.pc t = .load then
      some (s.goto t (if s.word_ w ≠ 2 then .exchange else .loop (s.word_ w)))
    else none
  | .exchange t =>
    if s.pc t = .exchange then
      some { s.set w t 2 (.loop (s.word_ w)) with woken := Function.update s.woken t false }
    else none
  | .test t =>
    match s.pc t with
    | .loop prev => if prev = 0 then some (s.goto t .crit) else s.sys_futex w t FUTEX_WAIT 2 .wait
    | _ => none
  | .unlock t =>
    if s.pc t = .crit then
      some (s.set w t (s.word_ w - 1) (if s.word_ w - 1 ≠ 0 then .store else .out))
    else none
  | .store t =>
    if s.pc t = .store then (s.set w t 0 .store).sys_futex w t FUTEX_WAKE 1 .wake else none
  | .ret t =>
    if s.kernel.pc t = .user then
      match s.pc t with
      | .wait => some (s.goto t .exchange)
      | .wake => some (s.goto t .out)
      | _ => none
    else none
  | .kernel a =>
    if inKernel a then
      (s.kernel.step space a).map fun k => { s with kernel := k, woken := s.wokenAfter k a }
    else none

/-- An unlocked mutex. -/
structure Init : Prop where
  pc : ∀ t, s.pc t = .out
  kernel : s.kernel.Init
  exit_signal : ∀ t, s.kernel.exit_signal_ t = false
  word : s.word_ w = 0
  woken : ∀ t, s.woken t = false

/-- `t` is between a completed `lock` and its `unlock`. -/
def Holds (t : T) : Prop := s.pc t = .crit

/-- `t` sleeps in `FUTEX_WAIT`. -/
def Asleep (t : T) : Prop := Sleeps s.kernel t

/-- `t` is about to wake a waiter: it has not looked for the futex state, or the one that it has found is
there. -/
def Waking (t : T) : Prop :=
  s.pc t = .store ∨ s.pc t = .wake ∧
    (s.kernel.pc t = .find ∨ ∃ f ∈ s.kernel.states_, s.kernel.pc t = .wake f)

/-- `t` has taken the mutex with 2 in the word, and `lock` is about to return. -/
def Taking (t : T) : Prop := s.pc t = .loop 0 ∧ s.word_ w = 2

end State

/-- The states after any interleaving. -/
def Reachable (w : ℕ) : State T S → Prop :=
  Reach (State.Init w) (fun s a s' => s.step w a = some s') fun _ _ => True

/-! ## What the kernel does for a thread -/

variable {k k' : Futex.State T S Unit} {a : Futex.Act T S Unit} {t u : T} {f : S}

/-- The kernel leaves memory, arguments and the exit signals alone. -/
theorem kernel_frame (hin : inKernel a = true) (hs : k.step space a = some k')
    (hexit : ∀ t, k.exit_signal_ t = false) :
    k'.mem = k.mem ∧ k'.args = k.args ∧ ∀ t, k'.exit_signal_ t = false := by
  cases a <;> simp only [inKernel, Bool.false_eq_true] at hin <;>
    simp only [Futex.State.step, Futex.State.add, hexit, Bool.false_eq_true, false_and, if_false] at hs
  case tick | check_timeout | prepare | block | clear | leave | remove =>
    first
    | cases hs; exact ⟨rfl, rfl, hexit⟩
    | split at hs <;> cases hs; exact ⟨rfl, rfl, hexit⟩
  case check | find | wake | resume | yield =>
    split at hs
    · first
      | cases hs; exact ⟨rfl, rfl, hexit⟩
      | split at hs <;> cases hs <;> exact ⟨rfl, rfl, hexit⟩
    · cases hs
  case test =>
    split at hs
    · split at hs
      · cases hs
        exact ⟨rfl, rfl, hexit⟩
      · split at hs <;> cases hs <;> exact ⟨rfl, rfl, hexit⟩
    · cases hs
  case add =>
    split at hs
    · split at hs
      · cases hs
        exact ⟨rfl, rfl, hexit⟩
      · split at hs
        · cases hs
          exact ⟨rfl, rfl, hexit⟩
        · split at hs <;> cases hs
          exact ⟨rfl, rfl, hexit⟩
    · cases hs

/-- How a thread goes through `FUTEX_WAIT` and `FUTEX_WAKE` when it is not killed. -/
inductive Goes : Futex.Pc S → Futex.Pc S → Prop
  | again : Goes .check .user
  | check : Goes .check .add
  | nomem : Goes .add .user
  | add (f : S) : Goes .add (.prepare f)
  | prepare (f : S) : Goes (.prepare f) (.test f)
  | test (f : S) : Goes (.test f) (.leave f)
  | block (f : S) : Goes (.test f) (.block f)
  | yield (f : S) : Goes (.block f) (.yield f)
  | skip (f : S) : Goes (.block f) (.clear f)
  | sleep (f : S) : Goes (.yield f) (.asleep f)
  | resume (f : S) : Goes (.asleep f) (.clear f)
  | clear (f : S) : Goes (.clear f) (.prepare f)
  | leave (f : S) : Goes (.leave f) (.remove f)
  | remove (f : S) : Goes (.remove f) .user
  | find (f : S) : Goes .find (.wake f)
  | none : Goes .find .user
  | wake (f : S) : Goes (.wake f) .user

/-- The thread that makes a step of the kernel. -/
def actor : Futex.Act T S Unit → Option T
  | .check t | .add t _ | .prepare t | .test t | .block t | .yield t | .resume t | .clear t | .leave t
  | .remove t | .find t | .wake t => some t
  | _ => none

/-- A step of the kernel takes on only the thread that makes it. -/
theorem kernel_goes (hin : inKernel a = true) (hs : k.step space a = some k')
    (hexit : ∀ t, k.exit_signal_ t = false) :
    k'.pc = k.pc ∨
      ∃ t p, actor a = some t ∧ k'.pc = Function.update k.pc t p ∧ Goes (k.pc t) p := by
  cases a with
  | call | write | signal | kill => cases hin
  | tick =>
    cases hs
    exact Or.inl rfl
  | check_timeout f =>
    simp only [Futex.State.step] at hs
    split at hs <;> cases hs
    exact Or.inl rfl
  | check t =>
    simp only [Futex.State.step] at hs
    split at hs
    · next ht =>
      split at hs <;> cases hs
      · exact Or.inr ⟨t, _, rfl, rfl, ht ▸ .again⟩
      · exact Or.inr ⟨t, _, rfl, rfl, ht ▸ .check⟩
    · cases hs
  | add t new =>
    simp only [Futex.State.step, Futex.State.add] at hs
    split at hs
    · next ht =>
      split at hs
      · cases hs
        exact Or.inr ⟨t, _, rfl, rfl, ht ▸ .add _⟩
      · split at hs
        · cases hs
          exact Or.inr ⟨t, _, rfl, rfl, ht ▸ .nomem⟩
        · split at hs <;> cases hs
          exact Or.inr ⟨t, _, rfl, rfl, ht ▸ .add _⟩
    · cases hs
  | prepare t =>
    simp only [Futex.State.step] at hs
    split at hs <;> cases hs
    next f ht => exact Or.inr ⟨t, _, rfl, rfl, ht ▸ .prepare f⟩
  | test t =>
    simp only [Futex.State.step] at hs
    split at hs
    · next f ht =>
      split at hs
      · cases hs
        exact Or.inr ⟨t, _, rfl, rfl, ht ▸ .test f⟩
      · split at hs <;> cases hs
        · exact Or.inr ⟨t, _, rfl, rfl, ht ▸ .test f⟩
        · exact Or.inr ⟨t, _, rfl, rfl, ht ▸ .block f⟩
    · cases hs
  | block t =>
    simp only [Futex.State.step] at hs
    split at hs <;> cases hs
    next f ht =>
      refine Or.inr ⟨t, _, rfl, rfl, ?_⟩
      rw [ht]
      split
      · exact .yield f
      · exact .skip f
  | yield t =>
    simp only [Futex.State.step, hexit, Bool.false_eq_true, false_and, if_false] at hs
    split at hs <;> cases hs
    next f ht => exact Or.inr ⟨t, _, rfl, rfl, ht ▸ .sleep f⟩
  | resume t =>
    simp only [Futex.State.step] at hs
    split at hs
    · next f ht =>
      split at hs <;> cases hs
      exact Or.inr ⟨t, _, rfl, rfl, ht ▸ .resume f⟩
    · cases hs
  | clear t =>
    simp only [Futex.State.step] at hs
    split at hs <;> cases hs
    next f ht => exact Or.inr ⟨t, _, rfl, rfl, ht ▸ .clear f⟩
  | leave t =>
    simp only [Futex.State.step, hexit, Bool.false_eq_true, if_false] at hs
    split at hs <;> cases hs
    next f ht => exact Or.inr ⟨t, _, rfl, rfl, ht ▸ .leave f⟩
  | remove t =>
    simp only [Futex.State.step] at hs
    split at hs <;> cases hs
    next f ht => exact Or.inr ⟨t, _, rfl, rfl, ht ▸ .remove f⟩
  | find t =>
    simp only [Futex.State.step] at hs
    split at hs
    · next ht =>
      split at hs <;> cases hs
      · exact Or.inr ⟨t, _, rfl, rfl, ht ▸ .find _⟩
      · exact Or.inr ⟨t, _, rfl, rfl, ht ▸ .none⟩
    · cases hs
  | wake t =>
    simp only [Futex.State.step] at hs
    split at hs
    · next f ht =>
      split at hs <;> cases hs <;> exact Or.inr ⟨t, _, rfl, rfl, ht ▸ .wake f⟩
    · cases hs

/-- Only `prepare` blocks a thread. -/
theorem kernel_pstate (hin : inKernel a = true) (hs : k.step space a = some k')
    (hexit : ∀ t, k.exit_signal_ t = false) (hu : k'.pstate_ u = .ps_blocked) :
    k.pstate_ u = .ps_blocked ∨ ∃ f, k'.pc u = .test f := by
  have hsome : ∀ f n, (k.wake_some f n).pstate_ u = .ps_blocked → k.pstate_ u = .ps_blocked := by
    intro f n h
    simp only [Futex.State.wake_some] at h
    split at h
    · cases h
    · exact h
  have hclear : ∀ t f, (k.clear t f).pstate_ u = .ps_blocked → k.pstate_ u = .ps_blocked := by
    intro t f h
    simp only [Futex.State.clear, Function.update_apply] at h
    split at h
    · cases h
    · exact h
  cases a <;> simp only [inKernel, Bool.false_eq_true] at hin <;>
    simp only [Futex.State.step, Futex.State.add, hexit, Bool.false_eq_true, false_and, if_false] at hs
  case prepare t =>
    split at hs <;> cases hs
    next f ht =>
      by_cases hut : u = t
      · exact Or.inr ⟨f, by simp [hut]⟩
      · exact Or.inl (by simpa [Futex.State.goto, Function.update_of_ne hut] using hu)
  case tick =>
    cases hs
    exact Or.inl hu
  case clear | leave =>
    split at hs <;> cases hs
    next f _ => exact Or.inl (hclear _ f hu)
  case check_timeout =>
    split at hs <;> cases hs
    exact Or.inl (hsome _ _ hu)
  case wake =>
    split at hs
    · split at hs <;> cases hs
      · exact Or.inl (hsome _ _ hu)
      · exact Or.inl hu
    · cases hs
  case block | remove | yield =>
    split at hs <;> cases hs
    exact Or.inl hu
  case check | find | resume =>
    split at hs
    · split at hs <;> cases hs <;> exact Or.inl hu
    · cases hs
  case test =>
    split at hs
    · split at hs
      · cases hs
        exact Or.inl hu
      · split at hs <;> cases hs <;> exact Or.inl hu
    · cases hs
  case add =>
    split at hs
    · split at hs
      · cases hs
        exact Or.inl hu
      · split at hs
        · cases hs
          exact Or.inl hu
        · split at hs <;> cases hs
          exact Or.inl hu
    · cases hs

/-- The test of the predicate finds the word unchanged. -/
theorem kernel_blocks (hs : k.step space a = some k') (hactor : actor a = some u)
    (hu : k.pc u = .test f) (hu' : k'.pc u = .block f) :
    a = .test u ∧ k.word space u = (k.args u).val := by
  cases a <;> cases hactor
  case test =>
    simp only [Futex.State.step, hu] at hs
    split at hs
    · cases hs
      simp at hu'
    · split at hs <;> cases hs
      · simp at hu'
      · next hsame => exact ⟨rfl, by simpa using (not_or.mp hsame).1⟩
  all_goals simp [Futex.State.step, hu] at hs

/-- A waker looks up the futex state, and then wakes its waiters. -/
theorem kernel_finder (hs : k.step space a = some k') (hactor : actor a = some t)
    (ht : k.pc t = .find) : a = .find t := by
  cases a <;> cases hactor
  case find => rfl
  all_goals simp [Futex.State.step, ht] at hs

theorem kernel_waker (hs : k.step space a = some k') (hactor : actor a = some t)
    (ht : k.pc t = .wake f) : a = .wake t := by
  cases a <;> cases hactor
  case wake => rfl
  all_goals simp [Futex.State.step, ht] at hs

/-- A thread goes to sleep only by such a test. -/
theorem kernel_sleeps (hin : inKernel a = true) (hs : k.step space a = some k')
    (hexit : ∀ t, k.exit_signal_ t = false) (hu : Sleeps k' u) :
    Sleeps k u ∨ a = .test u ∧ blocks k' u = true ∧ k.word space u = (k.args u).val := by
  obtain ⟨hblocked, hpc'⟩ := hu
  rcases kernel_pstate hin hs hexit hblocked with hold | ⟨f, htest⟩
  · rcases kernel_goes hin hs hexit with hpc | ⟨t, p, hactor, hpc, hgoes⟩
    · exact Or.inl ⟨hold, hpc ▸ hpc'⟩
    · by_cases hut : u = t
      · subst hut
        rw [hpc, Function.update_self] at hpc'
        obtain ⟨f, rfl | rfl | rfl⟩ := hpc' <;> generalize hp : k.pc u = pc at hgoes <;> cases hgoes
        · have hblock : k'.pc u = .block f := by rw [hpc, Function.update_self]
          obtain ⟨ha, hword⟩ := kernel_blocks hs hactor hp hblock
          exact Or.inr ⟨ha, by simp [blocks, hblock], hword⟩
        · exact Or.inl ⟨hold, f, Or.inl hp⟩
        · exact Or.inl ⟨hold, f, Or.inr (Or.inl hp)⟩
      · rw [hpc, Function.update_of_ne hut] at hpc'
        exact Or.inl ⟨hold, hpc'⟩
  · rw [htest] at hpc'
    obtain ⟨g, h | h | h⟩ := hpc' <;> cases h

/-- A waiter that is taken from a queue is runnable. -/
theorem kernel_woken (hs : k.step space a = some k') (hu : u ∈ wokenBy k a) :
    k'.pstate_ u = .ps_runnable := by
  have hsome : ∀ f n, u ∈ k.popped f n → (k.wake_some f n).pstate_ u = .ps_runnable :=
    fun f n h => if_pos h
  cases a with
  | wake t =>
    simp only [wokenBy] at hu
    simp only [Futex.State.step] at hs
    split at hu
    · next f ht =>
      rw [ht] at hs
      dsimp only at hs
      split at hu
      · next hf =>
        rw [if_pos hf] at hs
        cases hs
        exact hsome f _ hu
      · cases hu
    · cases hu
  | check_timeout f =>
    simp only [Futex.State.step] at hs
    split at hs <;> cases hs
    exact hsome f _ hu
  | _ => cases hu

end Chickadee.Mutex
