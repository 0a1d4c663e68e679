import Chickadee.Lib.Count
import Chickadee.Lib.Run
import Mathlib.Algebra.Order.BigOperators.Group.Finset
import Mathlib.Data.Fintype.Basic
import Mathlib.Tactic
import Chickadee.Lib.Literals

/-!
# Read/write locks

The lock of an inode, and `rwlock`, which copies it. The state is one byte: the number of readers, or 255 for
a writer. A step is one atomic access by one task: a load, a compare-exchange, which may fail although the
value is the expected one, or a store. A task unlocks only what it holds.
-/

namespace Chickadee.Rwlock

open Lib Finset

/-- Where a task is: in the loop of a call, with the `v` of that loop, or in none. -/
inductive Pc
  | idle
  | lock_read (v : ℕ)
  | unlock_read (v : ℕ)
  | lock_write
  | unlock_write
  deriving DecidableEq

/-- A task, and the locks that it holds. -/
structure Task where
  pc : Pc
  readers : ℕ
  writer : Bool
  deriving DecidableEq

structure State (ι : Type) where
  mlock : ℕ
  task : ι → Task

variable {ι : Type} [DecidableEq ι]

def State.set (s : State ι) (t : ι) (k : Task) : State ι := { s with task := Function.update s.task t k }

/-- The task goes on at another place. -/
def State.goto (s : State ι) (t : ι) (pc : Pc) : State ι := s.set t { s.task t with pc := pc }

/-- The call of the task ends with a byte `m`: now it holds `r` read locks, and a write lock if `w`. -/
def State.hold (s : State ι) (t : ι) (m r : ℕ) (w : Bool) : State ι := { s with mlock := m }.set t ⟨.idle, r, w⟩

inductive Act (ι : Type)
  | lock_read (t : ι)
  | unlock_read (t : ι)
  | lock_write (t : ι)
  | unlock_write (t : ι)
  /-- The call that the task is in goes on; `weak` makes a compare-exchange fail. -/
  | go (t : ι) (weak : Bool)

/--
One step, where it is possible; a failed assertion stops the system. Only the lock of an inode asserts in
`lock_write` that there is no writer.
-/
def next (inode : Bool) (s : State ι) : Act ι → Option (State ι)
  | .lock_read t => if (s.task t).pc = .idle then some (s.goto t (.lock_read s.mlock)) else none
  | .unlock_read t =>
    if (s.task t).pc = .idle ∧ 0 < (s.task t).readers then
      if s.mlock ≠ 0 ∧ s.mlock ≠ 255 then some (s.goto t (.unlock_read s.mlock)) else none
    else none
  | .lock_write t =>
    if (s.task t).pc = .idle then
      if inode = true ∧ s.mlock = 255 then none else some (s.goto t .lock_write)
    else none
  | .unlock_write t =>
    if (s.task t).pc = .idle ∧ (s.task t).writer = true then
      if s.mlock = 255 then some (s.goto t .unlock_write) else none
    else none
  | .go t weak =>
    match (s.task t).pc with
    | .idle => none
    | .lock_read v =>
      if 254 ≤ v then some (s.goto t (.lock_read s.mlock))
      else if s.mlock = v ∧ weak = false then
        some (s.hold t ((v + 1) % 256) ((s.task t).readers + 1) (s.task t).writer)
      else some (s.goto t (.lock_read s.mlock))
    | .unlock_read v =>
      if s.mlock = v ∧ weak = false then
        some (s.hold t ((v + 255) % 256) ((s.task t).readers - 1) (s.task t).writer)
      else some (s.goto t (.unlock_read s.mlock))
    | .lock_write =>
      if s.mlock = 0 ∧ weak = false then
        some (s.hold t 255 (s.task t).readers true)
      else some s
    | .unlock_write => some (s.hold t 0 (s.task t).readers false)

/-- Nobody holds the lock or is in a call. -/
def Start (s : State ι) : Prop := s.mlock = 0 ∧ ∀ t, s.task t = ⟨.idle, 0, false⟩

/-! ## The invariant -/

variable [Fintype ι]

/-- The read locks that are held. -/
def State.count (s : State ι) : ℕ := ∑ t, (s.task t).readers

structure Inv (s : State ι) : Prop where
  writing : ∀ t, (s.task t).writer = true → s.mlock = 255
  reading : (∀ t, (s.task t).writer = false) → s.mlock = s.count
  alone : ∀ t, (s.task t).writer = true → s.count = 0 ∧ ∀ t', (s.task t').writer = true → t' = t
  few : s.count < 255
  unlocksRead : ∀ t v, (s.task t).pc = .unlock_read v → 0 < (s.task t).readers
  unlocksWrite : ∀ t, (s.task t).pc = .unlock_write → (s.task t).writer = true

omit [Fintype ι] in
@[simp] theorem set_task_self (s : State ι) (t : ι) (k : Task) : (s.set t k).task t = k := by simp [State.set]

omit [Fintype ι] in
theorem set_task_of_ne (s : State ι) {t t' : ι} (k : Task) (h : t' ≠ t) : (s.set t k).task t' = s.task t' := by
  simp [State.set, h]

omit [Fintype ι] in
@[simp] theorem hold_mlock (s : State ι) (t : ι) (m r : ℕ) (w : Bool) : (s.hold t m r w).mlock = m := rfl

omit [Fintype ι] in
@[simp] theorem hold_task_self (s : State ι) (t : ι) (m r : ℕ) (w : Bool) :
    (s.hold t m r w).task t = ⟨.idle, r, w⟩ := by simp [State.hold]

omit [Fintype ι] in
theorem hold_task_of_ne (s : State ι) {t t' : ι} (m r : ℕ) (w : Bool) (h : t' ≠ t) :
    (s.hold t m r w).task t' = s.task t' := set_task_of_ne _ _ h

theorem count_hold (s : State ι) (t : ι) (m r : ℕ) (w : Bool) :
    (s.hold t m r w).count + (s.task t).readers = s.count + r := by
  refine sum_add_eq (mem_univ t) (fun i _ hi => by rw [hold_task_of_ne s m r w hi]) ?_
  rw [hold_task_self]
  exact Nat.add_comm r (s.task t).readers

omit [DecidableEq ι] in
theorem readers_le (s : State ι) (t : ι) : (s.task t).readers ≤ s.count :=
  single_le_sum (f := fun i => (s.task i).readers) (fun _ _ => Nat.zero_le _) (mem_univ t)

omit [DecidableEq ι] in
theorem start_inv {s : State ι} (h : Start s) : Inv s := by
  obtain ⟨hmlock, htask⟩ := h
  have hcount : s.count = 0 := by simp [State.count, htask]
  refine ⟨?_, ?_, ?_, ?_, ?_, ?_⟩
  · intro t ht
    simp [htask] at ht
  · intro _
    rw [hmlock, hcount]
  · intro t ht
    simp [htask] at ht
  · omega
  · intro t v ht
    simp [htask] at ht
  · intro t ht
    simp [htask] at ht

/-- A task that only goes on takes nothing and gives nothing back. -/
theorem Inv.goto {s : State ι} (h : Inv s) {t : ι} {pc : Pc}
    (hread : ∀ v, pc = .unlock_read v → 0 < (s.task t).readers)
    (hwrite : pc = .unlock_write → (s.task t).writer = true) : Inv (s.goto t pc) := by
  have hreaders : ∀ i, ((s.goto t pc).task i).readers = (s.task i).readers := by
    intro i
    by_cases hi : i = t
    · subst hi; simp [State.goto]
    · rw [State.goto, set_task_of_ne s _ hi]
  have hwriter : ∀ i, ((s.goto t pc).task i).writer = (s.task i).writer := by
    intro i
    by_cases hi : i = t
    · subst hi; simp [State.goto]
    · rw [State.goto, set_task_of_ne s _ hi]
  have hcount : (s.goto t pc).count = s.count := by simp [State.count, hreaders]
  have hmlock : (s.goto t pc).mlock = s.mlock := rfl
  refine ⟨?_, ?_, ?_, ?_, ?_, ?_⟩
  · intro i hi
    rw [hwriter] at hi
    exact h.writing i hi
  · intro hnone
    rw [hmlock, hcount]
    exact h.reading fun i => by rw [← hwriter]; exact hnone i
  · intro i hi
    rw [hwriter] at hi
    rw [hcount]
    exact ⟨(h.alone i hi).1, fun j hj => (h.alone i hi).2 j (by rw [← hwriter]; exact hj)⟩
  · rw [hcount]
    exact h.few
  · intro i v hi
    rw [hreaders]
    by_cases hit : i = t
    · subst hit
      exact hread v (by simpa [State.goto] using hi)
    · rw [State.goto, set_task_of_ne s _ hit] at hi
      exact h.unlocksRead i v hi
  · intro i hi
    rw [hwriter]
    by_cases hit : i = t
    · subst hit
      exact hwrite (by simpa [State.goto] using hi)
    · rw [State.goto, set_task_of_ne s _ hit] at hi
      exact h.unlocksWrite i hi

omit [DecidableEq ι] in
/-- A reader that holds a lock keeps writers out. -/
theorem Inv.no_writer_of_reader {s : State ι} (h : Inv s) {t : ι} (ht : 0 < (s.task t).readers) (i : ι) :
    (s.task i).writer = false := by
  cases hi : (s.task i).writer with
  | false => rfl
  | true =>
    have hzero := (h.alone i hi).1
    have hle := readers_le s t
    omega

omit [DecidableEq ι] in
/-- A byte other than 255 says that there is no writer. -/
theorem Inv.no_writer_of_mlock {s : State ι} (h : Inv s) (hne : s.mlock ≠ 255) (i : ι) :
    (s.task i).writer = false := by
  cases hi : (s.task i).writer with
  | false => rfl
  | true => exact absurd (h.writing i hi) hne

/-- A task that has just ended a call is not in the loop of one. -/
theorem Inv.hold_unlocks {s : State ι} (h : Inv s) {t : ι} {m r : ℕ} {w : Bool} {i : ι} :
    (∀ v, ((s.hold t m r w).task i).pc = .unlock_read v → 0 < ((s.hold t m r w).task i).readers)
      ∧ (((s.hold t m r w).task i).pc = .unlock_write → (s.task i).writer = true ∧ i ≠ t) := by
  by_cases hit : i = t
  · subst hit
    rw [hold_task_self]
    exact ⟨fun v hv => (by cases hv), fun hv => (by cases hv)⟩
  · rw [hold_task_of_ne s m r w hit]
    exact ⟨h.unlocksRead i, fun hi => ⟨h.unlocksWrite i hi, hit⟩⟩

/-- Without a writer before and after, what is left to show is the count. -/
theorem Inv.of_readers {s : State ι} (h : Inv s) {t : ι} {r m : ℕ} (hnone : ∀ i, (s.task i).writer = false)
    (hcount : m + (s.task t).readers = s.count + r) (hm : m < 255) : Inv (s.hold t m r (s.task t).writer) := by
  have hstill : ∀ i, ((s.hold t m r (s.task t).writer).task i).writer = false := by
    intro i
    by_cases hi : i = t
    · subst hi
      rw [hold_task_self]
      exact hnone i
    · rw [hold_task_of_ne s _ _ _ hi]
      exact hnone i
  have hsum := count_hold s t m r (s.task t).writer
  refine ⟨?_, ?_, ?_, ?_, ?_, ?_⟩
  · intro i hi
    rw [hstill] at hi
    cases hi
  · intro _
    rw [hold_mlock]
    omega
  · intro i hi
    rw [hstill] at hi
    cases hi
  · omega
  · exact fun i => h.hold_unlocks.1
  · intro i hi
    obtain ⟨hw, -⟩ := h.hold_unlocks.2 hi
    rw [hnone] at hw
    cases hw

theorem Inv.lockWrite {s : State ι} (h : Inv s) {t : ι} (hfree : s.mlock = 0) :
    Inv (s.hold t 255 (s.task t).readers true) := by
  have hnone := h.no_writer_of_mlock (by omega)
  have hzero : s.count = 0 := by rw [← h.reading hnone, hfree]
  have hsum := count_hold s t 255 (s.task t).readers true
  have honly : ∀ k, ((s.hold t 255 (s.task t).readers true).task k).writer = true → k = t := by
    intro k hk
    by_contra hkt
    rw [hold_task_of_ne s _ _ _ hkt, hnone k] at hk
    cases hk
  refine ⟨?_, ?_, ?_, ?_, ?_, ?_⟩
  · intro i _
    rfl
  · intro hno
    have ht := hno t
    simp at ht
  · intro i hi
    exact ⟨by omega, fun j hj => by rw [honly i hi, honly j hj]⟩
  · omega
  · exact fun i => h.hold_unlocks.1
  · intro i hi
    obtain ⟨hw, -⟩ := h.hold_unlocks.2 hi
    rw [hnone] at hw
    cases hw

theorem Inv.unlockWrite {s : State ι} (h : Inv s) {t : ι} (hwriter : (s.task t).writer = true) :
    Inv (s.hold t 0 (s.task t).readers false) := by
  obtain ⟨hzero, honly⟩ := h.alone t hwriter
  have hnone : ∀ i, ((s.hold t 0 (s.task t).readers false).task i).writer = false := by
    intro i
    by_cases hi : i = t
    · subst hi
      rw [hold_task_self]
    · rw [hold_task_of_ne s _ _ _ hi]
      cases hw : (s.task i).writer with
      | false => rfl
      | true => exact absurd (honly i hw) hi
  have hsum := count_hold s t 0 (s.task t).readers false
  refine ⟨?_, ?_, ?_, ?_, ?_, ?_⟩
  · intro i hi
    rw [hnone] at hi
    cases hi
  · intro _
    rw [hold_mlock]
    omega
  · intro i hi
    rw [hnone] at hi
    cases hi
  · omega
  · exact fun i => h.hold_unlocks.1
  · intro i hi
    -- the task that unlocks is the one that held the lock
    obtain ⟨hw, hit⟩ := h.hold_unlocks.2 hi
    exact absurd (honly i hw) hit

theorem next_inv {inode : Bool} {s s' : State ι} {a : Act ι} (h : Inv s) (hs : next inode s a = some s') :
    Inv s' := by
  cases a with
  | lock_read t =>
    simp only [next] at hs
    split at hs
    · cases hs
      exact h.goto (fun v hv => by cases hv) (fun hv => by cases hv)
    · cases hs
  | unlock_read t =>
    simp only [next] at hs
    split at hs
    · rename_i hholds
      split at hs
      · cases hs
        exact h.goto (fun _ _ => hholds.2) (fun hv => by cases hv)
      · cases hs
    · cases hs
  | lock_write t =>
    simp only [next] at hs
    split at hs
    · split at hs
      · cases hs
      · cases hs
        exact h.goto (fun v hv => by cases hv) (fun hv => by cases hv)
    · cases hs
  | unlock_write t =>
    simp only [next] at hs
    split at hs
    · rename_i hholds
      split at hs
      · cases hs
        exact h.goto (fun v hv => by cases hv) (fun _ => hholds.2)
      · cases hs
    · cases hs
  | go t weak =>
    simp only [next] at hs
    cases hpc : (s.task t).pc with
    | idle => simp [hpc] at hs
    | lock_read v =>
      simp only [hpc] at hs
      split at hs
      · cases hs
        exact h.goto (fun v hv => by cases hv) (fun hv => by cases hv)
      · rename_i hv
        split at hs
        · rename_i hcas
          cases hs
          -- the byte is below 254, so it counts readers and can take one more
          have hnone := h.no_writer_of_mlock (by omega)
          have hcount := h.reading hnone
          rw [Nat.mod_eq_of_lt (by omega)]
          exact h.of_readers hnone (by omega) (by omega)
        · cases hs
          exact h.goto (fun v hv => by cases hv) (fun hv => by cases hv)
    | unlock_read v =>
      simp only [hpc] at hs
      have hholds := h.unlocksRead t v hpc
      split at hs
      · rename_i hcas
        cases hs
        have hnone := h.no_writer_of_reader hholds
        have hcount := h.reading hnone
        have hle := readers_le s t
        have hfew := h.few
        rw [show (v + 255) % 256 = v - 1 by omega]
        exact h.of_readers hnone (by omega) (by omega)
      · cases hs
        exact h.goto (fun _ _ => hholds) (fun hv => by cases hv)
    | lock_write =>
      simp only [hpc] at hs
      split at hs
      · rename_i hcas
        cases hs
        exact h.lockWrite hcas.1
      · cases hs
        exact h
    | unlock_write =>
      simp only [hpc] at hs
      cases hs
      exact h.unlockWrite (h.unlocksWrite t hpc)

/-- The runs of the tasks on a lock. -/
def Reachable (inode : Bool) : State ι → Prop :=
  Reach Start (fun s a s' => next inode s a = some s') fun _ _ => True

theorem reachable_inv {inode : Bool} {s : State ι} (h : Reachable inode s) : Inv s :=
  Reach.invariant (P := Inv) (fun _ => start_inv) (fun _ _ _ hinv _ hs => next_inv hinv hs) h

/-- The assertions of `unlock_read` and `unlock_write` do not fail. -/
theorem unlock_isSome {inode : Bool} {s : State ι} (h : Reachable inode s) {t : ι}
    (hidle : (s.task t).pc = .idle) :
    (0 < (s.task t).readers → (next inode s (.unlock_read t)).isSome = true)
      ∧ ((s.task t).writer = true → (next inode s (.unlock_write t)).isSome = true) := by
  have hinv := reachable_inv h
  constructor
  · intro hholds
    have hcount := hinv.reading (hinv.no_writer_of_reader hholds)
    have hle := readers_le s t
    have hfew := hinv.few
    rw [next, if_pos ⟨hidle, hholds⟩, if_pos ⟨by omega, by omega⟩]
    rfl
  · intro hholds
    rw [next, if_pos ⟨hidle, hholds⟩, if_pos (hinv.writing t hholds)]
    rfl

/-- A writer is alone, and the byte says who holds the lock. -/
theorem rwlock_safe {inode : Bool} {s : State ι} (h : Reachable inode s) :
    (∀ t, (s.task t).writer = true → ∀ t', (s.task t').readers = 0 ∧ ((s.task t').writer = true → t' = t))
      ∧ ((∀ t, (s.task t).writer = false) → s.mlock = ∑ t, (s.task t).readers)
      ∧ (s.mlock = 255 ↔ ∃ t, (s.task t).writer = true)
      ∧ ∑ t, (s.task t).readers < 255 := by
  have hinv := reachable_inv h
  refine ⟨?_, hinv.reading, ⟨?_, ?_⟩, hinv.few⟩
  · intro t ht t'
    obtain ⟨hzero, honly⟩ := hinv.alone t ht
    have hle := readers_le s t'
    exact ⟨by omega, honly t'⟩
  · intro hmlock
    by_contra hno
    have hnone : ∀ t, (s.task t).writer = false := fun t => by
      cases ht : (s.task t).writer with
      | false => rfl
      | true => exact absurd ⟨t, ht⟩ hno
    have hcount := hinv.reading hnone
    have hfew := hinv.few
    omega
  · rintro ⟨t, ht⟩
    exact hinv.writing t ht

attribute [local instance] Lib.neZero_two

/-- Two tasks that read, unlock and let one of them write. -/
def sample : List (Act (Fin 2)) :=
  [.lock_read 0, .lock_read 1, .go 0 false, .go 1 false, .go 1 true, .go 1 false, .lock_write 0, .go 0 false,
    .unlock_read 1, .go 1 false]

def sampleStart : State (Fin 2) := ⟨0, fun _ => ⟨.idle, 0, false⟩⟩

theorem sample_run : ∃ s : State (Fin 2), Reachable true s ∧ s.mlock = 1 ∧ (s.task 0).readers = 1
    ∧ s.mlock = ∑ t, (s.task t).readers := by
  have hrun : (exec (next true) (fun _ _ => true) sampleStart sample).isSome = true := by decide +kernel
  obtain ⟨s, hs⟩ := Option.isSome_iff_exists.mp hrun
  have hreach : Reachable true s := Reach.exec (fun _ _ _ => trivial) (.init ⟨rfl, fun _ => rfl⟩) hs
  have hstate : (exec (next true) (fun _ _ => true) sampleStart sample).map
      (fun s => (s.mlock, (s.task 0).readers, (s.task 0).writer, (s.task 1).writer)) = some (1, 1, false, false) := by
    decide +kernel
  rw [hs] at hstate
  simp only [Option.map_some, Option.some.injEq, Prod.mk.injEq] at hstate
  obtain ⟨hmlock, hreaders, hzero, hone⟩ := hstate
  refine ⟨s, hreach, hmlock, hreaders, (rwlock_safe hreach).2.1 fun t => ?_⟩
  match t with
  | 0 => exact hzero
  | 1 => exact hone

end Chickadee.Rwlock
