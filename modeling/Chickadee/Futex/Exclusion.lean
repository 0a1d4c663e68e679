import Chickadee.Futex.Mutex

/-!
# The mutex excludes and strands nobody

The word is 0 when nobody has the mutex, and 2 when somebody may sleep on it. While a thread sleeps and
the word is not 2, a wake-up is on its way: the thread that is about to make it, or a thread that it has
reached and that will set the word to 2.
-/

namespace Chickadee.Mutex

open Lib
open Futex (FUTEX_WAIT FUTEX_WAKE Counted Queued)
open Wait (Pstate)

set_option linter.unusedSectionVars false

variable {T S : Type} [DecidableEq T] [DecidableEq S]

variable {w : ℕ} {s s' : State T S} {t u : T} {f : S} {k k' : Futex.State T S Unit}
  {a : Futex.Act T S Unit}

/-! ## The word -/

/-- The thread has the mutex, or is giving it back. -/
def Pc.busy : Pc → Bool
  | .crit | .store => true
  | .loop prev => prev = 0
  | _ => false

/-- What the word says of the threads. -/
structure Exclusive (w : ℕ) (s : State T S) : Prop where
  free : s.word_ w = 0 → ∀ t, (s.pc t).busy = false
  taken : s.word_ w ≠ 0 → (s.word_ w = 1 ∨ s.word_ w = 2) ∧ ∃ t, (s.pc t).busy = true
  unique : ∀ t u, (s.pc t).busy = true → (s.pc u).busy = true → t = u
  two : ∀ t, s.pc t = .loop 0 → s.word_ w = 2

/-- `t` goes on, and neither takes the mutex nor gives it back. -/
theorem Exclusive.goto (h : Exclusive w s) {p : Pc} (hp : p.busy = (s.pc t).busy)
    (hloop : p ≠ .loop 0) (hpc : s'.pc = Function.update s.pc t p)
    (hword : s'.word_ w = s.word_ w) : Exclusive w s' := by
  have hbusy : ∀ u, (s'.pc u).busy = (s.pc u).busy := fun u => by
    rw [hpc]
    by_cases hut : u = t
    · rw [hut, Function.update_self, hp]
    · rw [Function.update_of_ne hut]
  refine ⟨fun h0 u => ?_, fun h0 => ?_, fun u v hu hv => ?_, fun u hu => ?_⟩
  · rw [hbusy]
    exact h.free (hword ▸ h0) u
  · rw [hword] at h0 ⊢
    obtain ⟨hval, u, hu⟩ := h.taken h0
    exact ⟨hval, u, hbusy u ▸ hu⟩
  · rw [hbusy] at hu hv
    exact h.unique u v hu hv
  · rw [hpc] at hu
    by_cases hut : u = t
    · rw [hut, Function.update_self] at hu
      exact absurd hu hloop
    · rw [Function.update_of_ne hut] at hu
      rw [hword]
      exact h.two u hu

/-- When `t` writes the word, the others are as busy as before. -/
theorem busy_update {pc : T → Pc} {p : Pc} (hut : u ≠ t) :
    (Function.update pc t p u).busy = (pc u).busy := by
  rw [Function.update_of_ne hut]

@[simp] theorem set_word (x : BitVec 32) (p : Pc) : (s.set w t x p).word_ w = x := by
  simp [State.set, State.word_]

@[simp] theorem set_pc (x : BitVec 32) (p : Pc) :
    (s.set w t x p).pc = Function.update s.pc t p := rfl

/-- A thread finds the mutex free and takes it. -/
theorem Exclusive.take (h : Exclusive w s) (h0 : s.word_ w = 0) {x : BitVec 32} {p : Pc}
    (hx : x = 1 ∨ x = 2) (hp : p.busy = true) (hloop : p = .loop 0 → x = 2) :
    Exclusive w (s.set w t x p) := by
  have hfree := h.free h0
  have honly : ∀ u, (Function.update s.pc t p u).busy = true → u = t := fun u hu => by
    by_contra hut
    rw [busy_update hut, hfree u] at hu
    cases hu
  refine ⟨fun hx0 => ?_, fun _ => ⟨by simpa using hx, t, by simp [hp]⟩, fun u v hu hv => ?_,
    fun u hu => ?_⟩
  · rw [set_word] at hx0
    rcases hx with rfl | rfl <;> cases hx0
  · rw [honly u hu, honly v hv]
  · rw [set_word]
    have hut := honly u (by
      rw [set_pc] at hu
      rw [hu]
      rfl)
    rw [hut, set_pc, Function.update_self] at hu
    exact hloop hu

/-- The thread that has the mutex gives it back. -/
theorem Exclusive.release (h : Exclusive w s) (ht : (s.pc t).busy = true) {p : Pc}
    (hp : p.busy = false) : Exclusive w (s.set w t 0 p) := by
  have hnone : ∀ u, (Function.update s.pc t p u).busy = false := fun u => by
    by_cases hut : u = t
    · rw [hut, Function.update_self, hp]
    · rw [busy_update hut]
      by_contra hu
      exact hut (h.unique u t (by simpa using hu) ht)
  refine ⟨fun _ => hnone, fun h0 => absurd (set_word 0 p) h0, fun u v hu _ => ?_, fun u hu => ?_⟩
  · rw [set_pc, hnone u] at hu
    cases hu
  · have := hnone u
    rw [set_pc] at hu
    rw [hu] at this
    cases this

/-- Another thread says that it waits, or the holder that it is giving the mutex back. -/
theorem Exclusive.mark (h : Exclusive w s) (h0 : s.word_ w ≠ 0) {x : BitVec 32} {p : Pc}
    (hx : x = 1 ∨ x = 2) (hp : p.busy = (s.pc t).busy) (hloop : p ≠ .loop 0)
    (htwo : ∀ u, u ≠ t → s.pc u = .loop 0 → x = 2) : Exclusive w (s.set w t x p) := by
  have hbusy : ∀ u, (Function.update s.pc t p u).busy = (s.pc u).busy := fun u => by
    by_cases hut : u = t
    · rw [hut, Function.update_self, hp]
    · rw [busy_update hut]
  obtain ⟨-, v, hv⟩ := h.taken h0
  refine ⟨fun hx0 => ?_, fun _ => ⟨by simpa using hx, v, by rw [set_pc, hbusy, hv]⟩,
    fun u v hu hv => ?_, fun u hu => ?_⟩
  · rw [set_word] at hx0
    rcases hx with rfl | rfl <;> cases hx0
  · rw [set_pc, hbusy] at hu hv
    exact h.unique u v hu hv
  · rw [set_word]
    rw [set_pc] at hu
    by_cases hut : u = t
    · rw [hut, Function.update_self] at hu
      exact absurd hu hloop
    · rw [Function.update_of_ne hut] at hu
      exact htwo u hut hu

/-- A call of the kernel. -/
theorem sys_futex_eq {op : ℕ} {val : BitVec 32} {p : Pc} (hs : s.sys_futex w t op val p = some s') :
    s'.pc = Function.update s.pc t p ∧ s'.woken = s.woken ∧
      s.kernel.step space (.call t op ⟨w, val, 0⟩ false) = some s'.kernel := by
  unfold State.sys_futex at hs
  obtain ⟨k, hk, rfl⟩ := Option.map_eq_some_iff.mp hs
  exact ⟨rfl, rfl, hk⟩

/-- What a call changes in the kernel. -/
theorem call_eq (hw : w ≠ 0) {op : ℕ} {val : BitVec 32} (hop : op = FUTEX_WAIT ∨ op = FUTEX_WAKE)
    (hval : val ≠ 0) (hs : k.step space (.call t op ⟨w, val, 0⟩ false) = some k') :
    k' = { k with args := Function.update k.args t ⟨w, val, 0⟩ }.goto t
      (if op = FUTEX_WAIT then .check else .find) := by
  simp only [Futex.State.step] at hs
  split at hs
  · have hok : ¬(w = 0 ∨ ¬(op = FUTEX_WAIT ∨ op = FUTEX_WAKE) ∨ val = 0 ∧ op = FUTEX_WAKE) := by
      rintro (h | h | h)
      · exact hw h
      · exact h hop
      · exact hval h.1
    rw [if_neg hok] at hs
    simpa using hs.symm
  · cases hs

theorem call_word (hw : w ≠ 0) {op : ℕ} {val : BitVec 32} {p : Pc}
    (hop : op = FUTEX_WAIT ∨ op = FUTEX_WAKE) (hval : val ≠ 0)
    (hs : s.sys_futex w t op val p = some s') : s'.word_ w = s.word_ w := by
  have hk := call_eq hw hop hval (sys_futex_eq hs).2.2
  simp [State.word_, hk, Futex.State.goto]

/-- **No step breaks the exclusion.** -/
theorem Exclusive.step (h : Exclusive w s) (hw : w ≠ 0) (hexit : ∀ t, s.kernel.exit_signal_ t = false)
    {a : Act T S} (hs : s.step w a = some s') : Exclusive w s' := by
  cases a with
  | lock t =>
    simp only [State.step] at hs
    split at hs <;> cases hs
    next ht => exact h.goto (t := t) (p := .spin 0) (by rw [ht]; rfl) (by simp) rfl rfl
  | cas t fail =>
    simp only [State.step] at hs
    split at hs
    · next i ht =>
      split at hs <;> cases hs
      · next hfree => exact h.take hfree.1 (Or.inl rfl) rfl (by simp)
      · refine h.goto (t := t) ?_ ?_ rfl rfl
        · rw [ht]
          split <;> rfl
        · split <;> simp
    · cases hs
  | load t =>
    simp only [State.step] at hs
    split at hs <;> cases hs
    next ht =>
      refine h.goto (t := t) ?_ ?_ rfl rfl
      · rw [ht]
        split
        · rfl
        · next h2 =>
          have h2 : s.word_ w = 2 := by simpa using h2
          rw [h2]
          rfl
      · split
        · simp
        · next h2 =>
          have h2 : s.word_ w = 2 := by simpa using h2
          rw [h2]
          simp
  | exchange t =>
    simp only [State.step] at hs
    split at hs <;> cases hs
    next ht =>
      have hnew : Exclusive w (s.set w t 2 (.loop (s.word_ w))) := by
        by_cases h0 : s.word_ w = 0
        · exact h.take h0 (Or.inr rfl) (by simp [Pc.busy, h0]) fun _ => rfl
        · refine h.mark h0 (Or.inr rfl) ?_ (fun e => h0 (Pc.loop.inj e)) fun _ _ _ => rfl
          rw [ht]
          exact decide_eq_false h0
      exact ⟨hnew.free, hnew.taken, hnew.unique, hnew.two⟩
  | test t =>
    simp only [State.step] at hs
    split at hs
    · next prev ht =>
      split at hs
      · next h0 =>
        cases hs
        exact h.goto (t := t) (p := .crit) (by rw [ht, h0]; rfl) (by simp) rfl rfl
      · next h0 =>
        refine h.goto (t := t) (p := .wait) ?_ (by simp) (sys_futex_eq hs).1
          (call_word hw (Or.inl rfl) (by decide) hs)
        rw [ht]
        exact (decide_eq_false h0).symm
    · cases hs
  | unlock t =>
    simp only [State.step] at hs
    split at hs <;> cases hs
    next ht =>
      have hbusy : (s.pc t).busy = true := by rw [ht]; rfl
      have h0 : s.word_ w ≠ 0 := fun h0 => by
        rw [h.free h0 t] at hbusy
        cases hbusy
      rcases (h.taken h0).1 with h1 | h2
      · rw [h1]
        exact h.release hbusy rfl
      · rw [h2]
        refine h.mark h0 (Or.inl rfl) (by rw [hbusy]; rfl) (by simp) fun u hut hu => ?_
        exact absurd (h.unique u t (by rw [hu]; rfl) hbusy) hut
  | store t =>
    simp only [State.step] at hs
    split at hs
    · next ht =>
      have hbusy : (s.pc t).busy = true := by rw [ht]; rfl
      have hrel : Exclusive w (s.set w t 0 .wake) := h.release hbusy rfl
      have hword := call_word hw (Or.inr rfl) (by decide) hs
      have hpc : s'.pc = (s.set w t 0 .wake).pc := by
        rw [(sys_futex_eq hs).1, set_pc, set_pc, Function.update_idem]
      rw [set_word] at hword
      refine ⟨fun _ => hpc ▸ hrel.free (set_word _ _), fun h0 => absurd hword h0,
        hpc ▸ hrel.unique, fun u hu => ?_⟩
      have htwo := hrel.two u (hpc ▸ hu)
      rw [set_word] at htwo
      cases htwo
    · cases hs
  | ret t =>
    simp only [State.step] at hs
    split at hs
    · split at hs
      · next ht =>
        cases hs
        exact h.goto (t := t) (p := .exchange) (by rw [ht]; rfl) (by simp) rfl rfl
      · next ht =>
        cases hs
        exact h.goto (t := t) (p := .out) (by rw [ht]; rfl) (by simp) rfl rfl
      · cases hs
    · cases hs
  | kernel a =>
    simp only [State.step] at hs
    split at hs
    · next hin =>
      obtain ⟨k, hk, rfl⟩ := Option.map_eq_some_iff.mp hs
      have hmem := (kernel_frame hin hk hexit).1
      have hword : ({ s with kernel := k, woken := s.wokenAfter k a } : State T S).word_ w =
          s.word_ w := by
        simp [State.word_, hmem]
      refine ⟨fun h0 => h.free (hword ▸ h0), fun h0 => ?_, h.unique, fun t ht => ?_⟩
      · rw [hword] at h0 ⊢
        exact h.taken h0
      · rw [hword]
        exact h.two t ht
    · cases hs

/-! ## Where a thread is in the kernel -/

/-- Where a thread can be in `FUTEX_WAIT`. -/
def waitSide : Futex.Pc S → Bool
  | .find | .wake _ | .exiting => false
  | _ => true

/-- Where a thread can be in `FUTEX_WAKE`. -/
def wakeSide : Futex.Pc S → Bool
  | .user | .find | .wake _ => true
  | _ => false

theorem Goes.sides {p q : Futex.Pc S} (h : Goes p q) :
    (waitSide p = true → waitSide q = true) ∧ (wakeSide p = true → wakeSide q = true) ∧
      p ≠ .user := by
  cases h <;> simp [waitSide, wakeSide]

/-- A thread is in the system call that its place in the program says, with the arguments given there. -/
structure Placed (w : ℕ) (s : State T S) : Prop where
  wait : ∀ t, s.pc t = .wait → waitSide (s.kernel.pc t) = true ∧ s.kernel.args t = ⟨w, 2, 0⟩
  wake : ∀ t, s.pc t = .wake → wakeSide (s.kernel.pc t) = true ∧ s.kernel.args t = ⟨w, 1, 0⟩
  user : ∀ t, s.pc t ≠ .wait → s.pc t ≠ .wake → s.kernel.pc t = .user

theorem Placed.goto (h : Placed w s) {p : Pc} (ht : s.kernel.pc t = .user) (hwait : p ≠ .wait)
    (hwake : p ≠ .wake) (hpc : s'.pc = Function.update s.pc t p)
    (hkpc : s'.kernel.pc = s.kernel.pc) (hargs : s'.kernel.args = s.kernel.args) : Placed w s' := by
  refine ⟨fun u hu => ?_, fun u hu => ?_, fun u hu hu' => ?_⟩ <;> rw [hpc] at hu <;>
    by_cases hut : u = t
  · rw [hut, Function.update_self] at hu
    exact absurd hu hwait
  · rw [Function.update_of_ne hut] at hu
    rw [hkpc, hargs]
    exact h.wait u hu
  · rw [hut, Function.update_self] at hu
    exact absurd hu hwake
  · rw [Function.update_of_ne hut] at hu
    rw [hkpc, hargs]
    exact h.wake u hu
  · rw [hkpc, hut, ht]
  · rw [hpc] at hu'
    rw [Function.update_of_ne hut] at hu hu'
    rw [hkpc]
    exact h.user u hu hu'

/-- A thread enters the system call. -/
theorem Placed.call (h : Placed w s) (hw : w ≠ 0) {op : ℕ} {val : BitVec 32} {p : Pc}
    (hop : op = FUTEX_WAIT ∧ val = 2 ∧ p = .wait ∨ op = FUTEX_WAKE ∧ val = 1 ∧ p = .wake)
    (hs : s.sys_futex w t op val p = some s') : Placed w s' := by
  obtain ⟨hpc, -, hcall⟩ := sys_futex_eq hs
  have hk := call_eq hw (hop.imp And.left And.left) (by
    rcases hop with ⟨-, rfl, -⟩ | ⟨-, rfl, -⟩ <;> decide) hcall
  have hkpc : ∀ u, u ≠ t → s'.kernel.pc u = s.kernel.pc u ∧ s'.kernel.args u = s.kernel.args u :=
    fun u hut => by
      rw [hk]
      exact ⟨Function.update_of_ne hut _ _, Function.update_of_ne hut _ _⟩
  have hself : s'.kernel.pc t = (if op = FUTEX_WAIT then .check else .find) ∧
      s'.kernel.args t = ⟨w, val, 0⟩ := by
    rw [hk]
    exact ⟨Function.update_self _ _ _, Function.update_self _ _ _⟩
  refine ⟨fun u hu => ?_, fun u hu => ?_, fun u hu hu' => ?_⟩ <;> rw [hpc] at hu <;>
    by_cases hut : u = t
  · subst hut
    rw [Function.update_self] at hu
    rcases hop with ⟨rfl, rfl, -⟩ | ⟨-, -, hp⟩
    · exact ⟨by rw [hself.1]; rfl, hself.2⟩
    · rw [hp] at hu
      cases hu
  · rw [Function.update_of_ne hut] at hu
    rw [(hkpc u hut).1, (hkpc u hut).2]
    exact h.wait u hu
  · subst hut
    rw [Function.update_self] at hu
    rcases hop with ⟨-, -, hp⟩ | ⟨rfl, rfl, -⟩
    · rw [hp] at hu
      cases hu
    · exact ⟨by rw [hself.1]; rfl, hself.2⟩
  · rw [Function.update_of_ne hut] at hu
    rw [(hkpc u hut).1, (hkpc u hut).2]
    exact h.wake u hu
  · rw [hpc, hut, Function.update_self] at hu'
    rw [hut, Function.update_self] at hu
    rcases hop with ⟨-, -, hp⟩ | ⟨-, -, hp⟩
    · exact absurd hp hu
    · exact absurd hp hu'
  · rw [hpc] at hu'
    rw [Function.update_of_ne hut] at hu hu'
    rw [(hkpc u hut).1]
    exact h.user u hu hu'

/-- The kernel takes the threads on within their system calls. -/
theorem Placed.kernel (h : Placed w s) (hin : inKernel a = true)
    (hs : s.kernel.step space a = some k') (hexit : ∀ t, s.kernel.exit_signal_ t = false)
    (hpc : s'.pc = s.pc) (hkernel : s'.kernel = k') : Placed w s' := by
  subst hkernel
  have hargs := (kernel_frame hin hs hexit).2.1
  have hsides : ∀ u, (waitSide (s.kernel.pc u) = true → waitSide (s'.kernel.pc u) = true) ∧
      (wakeSide (s.kernel.pc u) = true → wakeSide (s'.kernel.pc u) = true) ∧
      (s.kernel.pc u = .user → s'.kernel.pc u = .user) := fun u => by
    rcases kernel_goes hin hs hexit with hkpc | ⟨t, p, -, hkpc, hgoes⟩
    · rw [hkpc]
      exact ⟨id, id, id⟩
    · rw [hkpc]
      by_cases hut : u = t
      · rw [hut, Function.update_self]
        exact ⟨hgoes.sides.1, hgoes.sides.2.1, fun hu => absurd hu hgoes.sides.2.2⟩
      · rw [Function.update_of_ne hut]
        exact ⟨id, id, id⟩
  refine ⟨fun u hu => ?_, fun u hu => ?_, fun u hu hu' => ?_⟩
  · obtain ⟨hside, harg⟩ := h.wait u (hpc ▸ hu)
    exact ⟨(hsides u).1 hside, by rw [hargs, harg]⟩
  · obtain ⟨hside, harg⟩ := h.wake u (hpc ▸ hu)
    exact ⟨(hsides u).2.1 hside, by rw [hargs, harg]⟩
  · exact (hsides u).2.2 (h.user u (hpc ▸ hu) (hpc ▸ hu'))

/-! ## Nobody is stranded -/

/-- What holds whatever the word is. -/
structure Base (w : ℕ) (s : State T S) : Prop where
  counted : Counted s.kernel
  queued : Queued s.kernel
  exit : ∀ t, s.kernel.exit_signal_ t = false
  placed : Placed w s
  awake : ∀ t, s.woken t = true → ¬s.Asleep t

/-- What holds between all steps. -/
structure Inv (w : ℕ) (s : State T S) : Prop extends Base w s where
  exclusive : Exclusive w s
  wake : (∃ t, s.Asleep t) → s.word_ w = 2 ∨ (∃ t, s.woken t = true) ∨ ∃ t, s.Waking t

/-- A waiter waits for the word of the mutex. -/
theorem Base.uaddr (h : Base w s) (ht : (s.kernel.pc t).waits = some f) :
    (s.kernel.args t) = ⟨w, 2, 0⟩ := by
  by_cases hwait : s.pc t = .wait
  · exact (h.placed.wait t hwait).2
  · by_cases hwake : s.pc t = .wake
    · have hside := (h.placed.wake t hwake).1
      generalize s.kernel.pc t = p at hside ht
      cases p <;> simp [wakeSide, Futex.Pc.waits] at hside ht
    · rw [h.placed.user t hwait hwake] at ht
      cases ht

/-- All futex states are for that word. -/
theorem Base.word (h : Base w s) (hf : f ∈ s.kernel.states_) : s.kernel.word_ f = w := by
  obtain ⟨hcount, hpos⟩ := h.counted.count f hf
  have hne : (s.kernel.waiting f).Nonempty := by
    rw [← Set.encard_ne_zero, hcount]
    exact_mod_cast hpos.ne'
  obtain ⟨t, ht⟩ := hne
  rw [(h.counted.waits t f ht).2, h.uaddr ht]

/-- So there is only one. -/
theorem Base.only (h : Base w s) {g : S} (hf : f ∈ s.kernel.states_) (hg : g ∈ s.kernel.states_) :
    f = g :=
  h.counted.words f hf g hg ((h.word hf).trans (h.word hg).symm)

theorem Sleeps.queued (h : Sleeps k u) : ∃ f, (k.pc u).queued = some f := by
  obtain ⟨-, f, hpc | hpc | hpc⟩ := h <;> exact ⟨f, by rw [hpc]; rfl⟩

/-- A thread that sleeps is in the queue of the futex state. -/
theorem Base.sleeper (h : Base w s) (hu : s.Asleep u) :
    ∃ f ∈ s.kernel.states_, u ∈ s.kernel.wq_ f := by
  obtain ⟨f, hf⟩ := Sleeps.queued hu
  have hmem := (h.counted.waits u f (Futex.Pc.waits_of_queued hf)).1
  exact ⟨f, hmem, (h.queued.mem f hmem u).mpr ⟨hf, hu.1⟩⟩

/-- A step outside the kernel. -/
theorem Base.user (h : Base w s) {m : Unit → ℕ → BitVec 32} {p : Pc}
    (hk : s'.kernel = { s.kernel with mem := m }) (hpc : s'.pc = Function.update s.pc t p)
    (ht : s.kernel.pc t = .user) (hwait : p ≠ .wait) (hwake : p ≠ .wake)
    (hwoken : ∀ u, s'.woken u = true → s.woken u = true) : Base w s' := by
  obtain ⟨⟨hc₁, hc₂, hc₃, hc₄⟩, ⟨hq₁, hq₂, hq₃⟩, hexit, hplaced, hawake⟩ := h
  refine ⟨?_, ?_, ?_, hplaced.goto ht hwait hwake hpc (by rw [hk]) (by rw [hk]), fun u hu => ?_⟩
  · rw [hk]
    exact ⟨hc₁, hc₂, hc₃, hc₄⟩
  · rw [hk]
    exact ⟨hq₁, hq₂, hq₃⟩
  · rw [hk]
    exact hexit
  · unfold State.Asleep
    rw [hk]
    exact hawake u (hwoken u hu)

/-- Nobody falls asleep when a thread enters the system call. -/
theorem sleeps_call (hw : w ≠ 0) {op : ℕ} {val : BitVec 32} {p : Pc}
    (hop : op = FUTEX_WAIT ∨ op = FUTEX_WAKE) (hval : val ≠ 0)
    (hs : s.sys_futex w t op val p = some s') (hu : s'.Asleep u) : s.Asleep u := by
  have hk := call_eq hw hop hval (sys_futex_eq hs).2.2
  obtain ⟨hblocked, f, hpc⟩ := hu
  rw [hk] at hblocked hpc
  refine ⟨hblocked, f, ?_⟩
  by_cases hut : u = t
  · rw [hut] at hpc
    simp only [Futex.State.goto_pc, Function.update_self] at hpc
    split at hpc <;> simp at hpc
  · simpa [Function.update_of_ne hut] using hpc

/-- No waiting thread is killed. -/
theorem spared (hexit : ∀ t, k.exit_signal_ t = false) : Futex.Spared k a := by
  cases a <;> simp [Futex.Spared, hexit]

/-- A thread enters the system call. -/
theorem Base.call (h : Base w s) (hw : w ≠ 0) {op : ℕ} {val : BitVec 32} {p : Pc}
    (hop : op = FUTEX_WAIT ∧ val = 2 ∧ p = .wait ∨ op = FUTEX_WAKE ∧ val = 1 ∧ p = .wake)
    (hs : s.sys_futex w t op val p = some s') : Base w s' := by
  obtain ⟨-, hwoken, hcall⟩ := sys_futex_eq hs
  have hop' : op = FUTEX_WAIT ∨ op = FUTEX_WAKE := hop.imp And.left And.left
  have hval : val ≠ 0 := by
    rcases hop with ⟨-, rfl, -⟩ | ⟨-, rfl, -⟩ <;> decide
  refine ⟨h.counted.step (spared h.exit) hcall,
    h.queued.step h.counted (spared h.exit) hcall, ?_,
    h.placed.call hw hop hs, fun u hu hasleep => ?_⟩
  · rw [call_eq hw hop' hval hcall]
    exact h.exit
  · rw [hwoken] at hu
    exact h.awake u hu (sleeps_call hw hop' hval hs hasleep)

/-- A thread that a step leaves woken was woken before or is woken by the step. -/
theorem woken_after (hu : s.wokenAfter k' a u = true) :
    u ∈ wokenBy s.kernel a ∨ s.woken u = true ∧ ¬(a = .test u ∧ blocks k' u = true) := by
  unfold State.wokenAfter at hu
  split at hu
  · exact Or.inl ‹_›
  · split at hu
    · cases hu
    · exact Or.inr ⟨hu, ‹_›⟩

/-- A step of the kernel. -/
theorem Base.kernel (h : Base w s) (hin : inKernel a = true)
    (hs : s.kernel.step space a = some k') :
    Base w { s with kernel := k', woken := s.wokenAfter k' a } := by
  refine ⟨h.counted.step (spared h.exit) hs, h.queued.step h.counted (spared h.exit) hs,
    (kernel_frame hin hs h.exit).2.2, h.placed.kernel hin hs h.exit rfl rfl, fun u hu hasleep => ?_⟩
  rcases woken_after hu with hby | ⟨hold, hnot⟩
  · have hrun := kernel_woken hs hby
    have hblocked : k'.pstate_ u = .ps_blocked := hasleep.1
    rw [hrun] at hblocked
    cases hblocked
  · rcases kernel_sleeps hin hs h.exit hasleep with hasleep | ⟨ha, hblocks, -⟩
    · exact h.awake u hold hasleep
    · exact hnot ⟨ha, hblocks⟩

/-- A step outside the kernel leaves the way of a wake-up open. -/
theorem Inv.user (h : Inv w s) {m : Unit → ℕ → BitVec 32} {p : Pc} (hex : Exclusive w s')
    (hk : s'.kernel = { s.kernel with mem := m }) (hpc : s'.pc = Function.update s.pc t p)
    (ht : s.kernel.pc t = .user) (hwait : p ≠ .wait) (hwake : p ≠ .wake)
    (hwoken : ∀ u, s'.woken u = true → s.woken u = true)
    (hway : s'.word_ w = 2 ∨ p = .store ∨
      (s.word_ w = 2 → s'.word_ w = 2) ∧ s'.woken = s.woken ∧ s.pc t ≠ .store) : Inv w s' := by
  refine { h.toBase.user hk hpc ht hwait hwake hwoken with exclusive := hex, wake := ?_ }
  rintro ⟨u, hu⟩
  have hu : s.Asleep u := by
    unfold State.Asleep at hu
    rw [hk] at hu
    exact hu
  rcases hway with htwo | hstore | ⟨hkeep, hsame, hne⟩
  · exact Or.inl htwo
  · exact Or.inr (Or.inr ⟨t, Or.inl (by rw [hpc, Function.update_self, hstore])⟩)
  · rcases h.wake ⟨u, hu⟩ with htwo | ⟨v, hv⟩ | ⟨v, hv⟩
    · exact Or.inl (hkeep htwo)
    · exact Or.inr (Or.inl ⟨v, by rw [hsame, hv]⟩)
    · have hvt : v ≠ t := by
        rintro rfl
        rcases hv with hv | ⟨-, hv | ⟨f, -, hv⟩⟩
        · exact hne hv
        · rw [ht] at hv
          cases hv
        · rw [ht] at hv
          cases hv
      refine Or.inr (Or.inr ⟨v, ?_⟩)
      unfold State.Waking
      rw [hpc, Function.update_of_ne hvt, hk]
      exact hv

/-- A sleeper was already on its futex state before the step. -/
theorem waits_before (hin : inKernel a = true) (hs : k.step space a = some k')
    (hexit : ∀ t, k.exit_signal_ t = false) (hu : (k'.pc u).queued = some f)
    (hsleeps : Sleeps k' u) : (k.pc u).waits = some f := by
  rcases kernel_goes hin hs hexit with hpc | ⟨t, p, -, hpc, hgoes⟩
  · exact Futex.Pc.waits_of_queued (hpc ▸ hu)
  · by_cases hut : u = t
    · subst hut
      obtain ⟨-, g, hg⟩ := hsleeps
      rw [hpc, Function.update_self] at hu hg
      rcases hg with rfl | rfl | rfl <;> cases hu <;> generalize k.pc u = q at hgoes <;>
        cases hgoes <;> rfl
    · rw [hpc, Function.update_of_ne hut] at hu
      exact Futex.Pc.waits_of_queued hu

/-- A waker finds the futex state on which a thread waits. -/
theorem Waking.find (h : Base w s) {b : T → Bool} (hpc : s.pc t = .wake)
    (hf : f ∈ s.kernel.states_)
    (hs : s.kernel.step space (.find t) = some k') :
    State.Waking { s with kernel := k', woken := b } t := by
  have hargs := (h.placed.wake t hpc).2
  simp only [Futex.State.step, hargs] at hs
  split at hs
  · split at hs
    · next g hg =>
      cases hs
      refine Or.inr ⟨hpc, Or.inr ⟨g, (Futex.find_mem hg).1, ?_⟩⟩
      show Function.update s.kernel.pc t (.wake g) t = .wake g
      rw [Function.update_self]
    · next hnone => exact absurd (h.word hf) (Futex.find_none hnone hf)
  · cases hs

/-- A waker wakes a thread if one sleeps. -/
theorem Waking.wake (h : Base w s) (hu : s.Asleep u) (hf : f ∈ s.kernel.states_)
    (hwake : s.kernel.pc t = .wake f) (hargs : s.kernel.args t = ⟨w, 1, 0⟩) :
    ∃ v, s.wokenAfter k' (.wake t) v = true := by
  obtain ⟨g, hg, hmem⟩ := h.sleeper hu
  rw [← h.only hf hg] at hmem
  have hone : s.kernel.nwake t = 1 := by
    unfold Futex.State.nwake
    rw [hargs]
    show (1 : BitVec 32).toInt.toNat = 1
    decide
  obtain ⟨v, rest, hq⟩ := List.exists_cons_of_ne_nil (List.ne_nil_of_mem hmem)
  refine ⟨v, if_pos ?_⟩
  simp [wokenBy, hwake, hf, Futex.State.popped, hone, hq]

/-- A thread that is about to wake a waiter stays so, or wakes one. -/
theorem Waking.kernel (h : Base w s) (hin : inKernel a = true)
    (hs : s.kernel.step space a = some k') (hu : Sleeps k' u) (hold : s.Asleep u)
    (ht : s.Waking t) :
    State.Waking { s with kernel := k', woken := s.wokenAfter k' a } t ∨
      ∃ v, s.wokenAfter k' a v = true := by
  rcases ht with hstore | ⟨hpc, hwaking⟩
  · exact Or.inl (Or.inl hstore)
  have hbase := h.kernel hin hs
  obtain ⟨g, hg⟩ := Sleeps.queued hu
  have hg' : g ∈ k'.states_ := (hbase.counted.waits u g (Futex.Pc.waits_of_queued hg)).1
  have hgold : g ∈ s.kernel.states_ :=
    (h.counted.waits u g (waits_before hin hs h.exit hg hu)).1
  by_cases hsame : k'.pc t = s.kernel.pc t
  · refine Or.inl (Or.inr ⟨hpc, ?_⟩)
    show k'.pc t = .find ∨ ∃ f ∈ k'.states_, k'.pc t = .wake f
    rw [hsame]
    rcases hwaking with hfind | ⟨f, hf, hwake⟩
    · exact Or.inl hfind
    · exact Or.inr ⟨f, (h.only hf hgold) ▸ hg', hwake⟩
  · -- the step is made by the waker
    have hactor : actor a = some t := by
      rcases kernel_goes hin hs h.exit with hkpc | ⟨v, p, hactor, hkpc, -⟩
      · rw [hkpc] at hsame
        exact absurd rfl hsame
      · by_cases htv : t = v
        · rw [htv, hactor]
        · rw [hkpc, Function.update_of_ne htv] at hsame
          exact absurd rfl hsame
    have hargs := (h.placed.wake t hpc).2
    rcases hwaking with hfind | ⟨f, hf, hwake⟩
    · obtain rfl := kernel_finder hs hactor hfind
      exact Or.inl (Waking.find h hpc hgold hs)
    · obtain rfl := kernel_waker hs hactor hwake
      exact Or.inr (Waking.wake h hold hf hwake hargs)

/-- A step of the kernel leaves the way of a wake-up open. -/
theorem Inv.kernel (h : Inv w s) (hin : inKernel a = true)
    (hs : s.kernel.step space a = some k')
    (hex : Exclusive w { s with kernel := k', woken := s.wokenAfter k' a }) :
    Inv w { s with kernel := k', woken := s.wokenAfter k' a } := by
  refine { h.toBase.kernel hin hs with exclusive := hex, wake := ?_ }
  rintro ⟨u, hu⟩
  have hmem := (kernel_frame hin hs h.exit).1
  have hword : ({ s with kernel := k', woken := s.wokenAfter k' a } : State T S).word_ w =
      s.word_ w := by
    simp [State.word_, hmem]
  rw [hword]
  -- a thread goes to sleep when the word is 2
  have hblocks : ∀ v, a = .test v → blocks k' v = true → s.word_ w = 2 := by
    intro v ha hv
    subst ha
    have hgoes : ∃ f, s.kernel.pc v = .test f ∧ k'.pc v = .block f := by
      simp only [Futex.State.step] at hs
      split at hs
      · next f ht =>
        refine ⟨f, ht, ?_⟩
        split at hs
        · cases hs
          simp [blocks] at hv
        · split at hs <;> cases hs
          · simp [blocks] at hv
          · simp
      · cases hs
    obtain ⟨f, htest, hblock⟩ := hgoes
    have hval := (kernel_blocks hs rfl htest hblock).2
    have hargs := h.uaddr (t := v) (f := f) (by rw [htest]; rfl)
    unfold Futex.State.word at hval
    rw [hargs] at hval
    exact hval
  rcases kernel_sleeps hin hs h.exit hu with hold | ⟨ha, hb, -⟩
  · rcases h.wake ⟨u, hold⟩ with htwo | ⟨v, hv⟩ | ⟨t, ht⟩
    · exact Or.inl htwo
    · by_cases hfell : a = .test v ∧ blocks k' v = true
      · exact Or.inl (hblocks v hfell.1 hfell.2)
      · refine Or.inr (Or.inl ⟨v, ?_⟩)
        show s.wokenAfter k' a v = true
        unfold State.wokenAfter
        split
        · rfl
        · exact hv
    · rcases Waking.kernel h.toBase hin hs hu hold ht with hwaking | hwoken
      · exact Or.inr (Or.inr ⟨t, hwaking⟩)
      · exact Or.inr (Or.inl hwoken)
  · exact Or.inl (hblocks u ha hb)

/-- **Every step keeps the invariant.** -/
theorem Inv.step (h : Inv w s) (hw : w ≠ 0) {a : Act T S} (hs : s.step w a = some s') :
    Inv w s' := by
  have hex := h.exclusive.step hw h.exit hs
  have huser : ∀ t p, s.pc t = p → p ≠ .wait → p ≠ .wake → s.kernel.pc t = .user :=
    fun t p hp hwait hwake => h.placed.user t (hp ▸ hwait) (hp ▸ hwake)
  cases a with
  | lock t =>
    simp only [State.step] at hs
    split at hs <;> cases hs
    next ht =>
      exact h.user hex rfl rfl (huser t _ ht (by simp) (by simp)) (by simp) (by simp) (fun _ => id)
        (Or.inr (Or.inr ⟨id, rfl, by simp [ht]⟩))
  | cas t fail =>
    simp only [State.step] at hs
    split at hs
    · next i ht =>
      have hk := huser t _ ht (by simp) (by simp)
      split at hs <;> cases hs
      · next hfree =>
        refine h.user hex rfl rfl hk (by simp) (by simp) (fun _ => id)
          (Or.inr (Or.inr ⟨fun htwo => ?_, rfl, by simp [ht]⟩))
        rw [hfree.1] at htwo
        cases htwo
      · refine h.user hex rfl rfl hk ?_ ?_ (fun _ => id)
          (Or.inr (Or.inr ⟨id, rfl, by simp [ht]⟩)) <;> split <;> simp
    · cases hs
  | load t =>
    simp only [State.step] at hs
    split at hs <;> cases hs
    next ht =>
      refine h.user hex rfl rfl (huser t _ ht (by simp) (by simp)) ?_ ?_ (fun _ => id)
        (Or.inr (Or.inr ⟨id, rfl, by simp [ht]⟩)) <;> split <;> simp
  | exchange t =>
    simp only [State.step] at hs
    split at hs <;> cases hs
    next ht =>
      refine h.user hex rfl rfl (huser t _ ht (by simp) (by simp)) (by simp) (by simp) (fun u hu => ?_)
        (Or.inl (by simp [State.set, State.word_]))
      by_cases hut : u = t
      · rw [hut] at hu
        simp at hu
      · simpa [Function.update_of_ne hut] using hu
  | test t =>
    simp only [State.step] at hs
    split at hs
    · next prev ht =>
      split at hs
      · cases hs
        exact h.user hex rfl rfl (huser t _ ht (by simp) (by simp)) (by simp) (by simp) (fun _ => id)
          (Or.inr (Or.inr ⟨id, rfl, by simp [ht]⟩))
      · refine { h.toBase.call hw (Or.inl ⟨rfl, rfl, rfl⟩) hs with exclusive := hex, wake := ?_ }
        rintro ⟨u, hu⟩
        obtain ⟨hpc, hwoken, hcall⟩ := sys_futex_eq hs
        have hk := call_eq hw (Or.inl rfl) (by decide) hcall
        have hold := sleeps_call hw (Or.inl rfl) (by decide) hs hu
        rw [call_word hw (Or.inl rfl) (by decide) hs, hwoken]
        rcases h.wake ⟨u, hold⟩ with htwo | hv | ⟨v, hv⟩
        · exact Or.inl htwo
        · exact Or.inr (Or.inl hv)
        · have hvt : v ≠ t := by
            rintro rfl
            rcases hv with hv | ⟨hv, -⟩ <;> rw [ht] at hv <;> cases hv
          refine Or.inr (Or.inr ⟨v, ?_⟩)
          unfold State.Waking
          rw [hpc, Function.update_of_ne hvt, hk]
          simp only [Futex.State.goto_pc, Function.update_of_ne hvt]
          exact hv
    · cases hs
  | unlock t =>
    simp only [State.step] at hs
    split at hs <;> cases hs
    next ht =>
      refine h.user hex rfl rfl (huser t _ ht (by simp) (by simp)) ?_ ?_ (fun _ => id) ?_
      · split <;> simp
      · split <;> simp
      · split
        · exact Or.inr (Or.inl rfl)
        · next hzero =>
          refine Or.inr (Or.inr ⟨fun htwo => ?_, rfl, by simp [ht]⟩)
          rw [htwo] at hzero
          exact absurd (by decide) hzero
  | store t =>
    simp only [State.step] at hs
    split at hs
    · next ht =>
      have hk := huser t _ ht (by simp) (by simp)
      have hbase : Base w (s.set w t 0 .store) :=
        h.toBase.user rfl rfl hk (by simp) (by simp) fun _ => id
      refine { hbase.call hw (Or.inr ⟨rfl, rfl, rfl⟩) hs with exclusive := hex, wake := fun _ => ?_ }
      obtain ⟨hpc, -, hcall⟩ := sys_futex_eq hs
      have hk' := call_eq hw (Or.inr rfl) (by decide) hcall
      refine Or.inr (Or.inr ⟨t, Or.inr ⟨by rw [hpc, Function.update_self], Or.inl ?_⟩⟩)
      rw [hk']
      simp [FUTEX_WAIT, FUTEX_WAKE]
    · cases hs
  | ret t =>
    simp only [State.step] at hs
    split at hs
    · next hk =>
      split at hs
      · next ht =>
        cases hs
        exact h.user hex rfl rfl hk (by simp) (by simp) (fun _ => id)
          (Or.inr (Or.inr ⟨id, rfl, by simp [ht]⟩))
      · next ht =>
        cases hs
        exact h.user hex rfl rfl hk (by simp) (by simp) (fun _ => id)
          (Or.inr (Or.inr ⟨id, rfl, by simp [ht]⟩))
      · cases hs
    · cases hs
  | kernel a =>
    simp only [State.step] at hs
    split at hs
    · next hin =>
      obtain ⟨k, hk, rfl⟩ := Option.map_eq_some_iff.mp hs
      exact h.kernel hin hk hex
    · cases hs

theorem Inv.init (h : s.Init w) : Inv w s := by
  have hout : ∀ t, (s.pc t).busy = false := fun t => by
    rw [h.pc]
    rfl
  refine ⟨⟨.init h.kernel, .init h.kernel, h.exit_signal, ⟨?_, ?_, fun t _ _ => h.kernel.pc t⟩, ?_⟩,
    ⟨fun _ => hout, fun h0 => absurd h.word h0, ?_, ?_⟩, ?_⟩
  · intro t ht
    rw [h.pc] at ht
    cases ht
  · intro t ht
    rw [h.pc] at ht
    cases ht
  · intro t ht
    rw [h.woken] at ht
    cases ht
  · intro t u ht
    rw [hout] at ht
    cases ht
  · intro t ht
    rw [h.pc] at ht
    cases ht
  · rintro ⟨t, -, f, ht⟩
    rw [h.kernel.pc] at ht
    obtain ht | ht | ht := ht <;> cases ht

theorem reachable_inv (hw : w ≠ 0) (h : Reachable w s) : Inv w s :=
  Reach.invariant (P := Inv w) (fun _ => .init) (fun _ _ _ hi _ hs => hi.step hw hs) h

/--
**The mutex excludes and strands nobody.** At most one thread has completed `lock` and not begun
`unlock`. When a thread sleeps on the word and nobody holds the mutex, a wake-up has reached a thread
that is awake, or a thread is about to make one, or `lock` is about to return with 2 in the word.
-/
theorem mutex_safe (hw : w ≠ 0) (h : Reachable w s) :
    (∀ t u, s.Holds t → s.Holds u → t = u) ∧
      ((∃ t, s.Asleep t) → (∀ t, ¬s.Holds t) →
        (∃ t, s.woken t = true ∧ ¬s.Asleep t) ∨ (∃ t, s.Waking t) ∨ ∃ t, s.Taking w t) := by
  have hinv := reachable_inv hw h
  refine ⟨fun t u ht hu => hinv.exclusive.unique t u (by rw [ht]; rfl) (by rw [hu]; rfl),
    fun hasleep hfree => ?_⟩
  rcases hinv.wake hasleep with htwo | ⟨t, ht⟩ | hwaking
  · obtain ⟨-, t, ht⟩ := hinv.exclusive.taken (by rw [htwo]; decide)
    cases hpc : s.pc t with
    | crit => exact absurd hpc (hfree t)
    | store => exact Or.inr (Or.inl ⟨t, Or.inl hpc⟩)
    | loop prev =>
      rw [hpc] at ht
      have h0 : prev = 0 := by simpa [Pc.busy] using ht
      exact Or.inr (Or.inr ⟨t, h0 ▸ hpc, htwo⟩)
    | _ =>
      rw [hpc] at ht
      cases ht
  · exact Or.inl ⟨t, ht, hinv.awake t ht⟩
  · exact Or.inr (Or.inl hwaking)

/-- Two threads and an unlocked mutex. -/
def unlocked : State Bool Unit where
  pc := fun _ => .out
  kernel := {
    pc := fun _ => .user
    args := fun _ => ⟨0, 0, 0⟩
    retval := fun _ => .ok
    timeout_wakeup := fun _ => 0
    timed_out := fun _ => false
    pstate_ := fun _ => .ps_runnable
    exit_signal_ := fun _ => false
    mem := fun _ _ => 0
    ticks := 0
    states_ := []
    word_ := fun _ => 0
    ref_ := fun _ => 0
    wq_ := fun _ => [] }
  woken := fun _ => false

theorem unlocked_init : unlocked.Init 0x1000 :=
  ⟨fun _ => rfl, ⟨fun _ => rfl, fun _ => rfl, rfl⟩, fun _ => rfl, rfl, fun _ => rfl⟩

/-- One thread takes the mutex, the other goes to sleep on it, and the first begins to unlock it. -/
def contend : List (Act Bool Unit) :=
  [.lock true, .cas true false, .lock false] ++ List.replicate NSPIN (.cas false false) ++
    [.load false, .exchange false, .test false, .kernel (.check false),
      .kernel (.add false (some ())), .kernel (.prepare false), .kernel (.test false),
      .kernel (.block false), .kernel (.yield false), .unlock true]

theorem mutex_safe_contend :
    ∃ s, exec (State.step 0x1000) (fun _ _ => true) unlocked contend = some s ∧
      s.Asleep false ∧ ((∃ t, s.woken t = true ∧ ¬s.Asleep t) ∨ (∃ t, s.Waking t) ∨
        ∃ t, s.Taking 0x1000 t) := by
  have hend : (exec (State.step 0x1000) (fun _ _ => true) unlocked contend).map (fun s =>
      (s.pc true, s.pc false, s.kernel.pc false, s.kernel.pstate_ false)) =
      some (.store, .wait, .asleep (), .ps_blocked) := by
    decide +kernel
  obtain ⟨s, hrun, hs⟩ := Option.map_eq_some_iff.mp hend
  simp only [Prod.mk.injEq] at hs
  obtain ⟨htrue, hfalse, hpc, hblocked⟩ := hs
  have hreach : Reachable 0x1000 s :=
    Reach.exec (fun _ _ _ => trivial) (.init unlocked_init) hrun
  have hasleep : s.Asleep false := ⟨hblocked, (), Or.inr (Or.inr hpc)⟩
  refine ⟨s, hrun, hasleep, (mutex_safe (by decide) hreach).2 ⟨false, hasleep⟩ fun t ht => ?_⟩
  cases t <;> unfold State.Holds at ht
  · rw [hfalse] at ht
    cases ht
  · rw [htrue] at ht
    cases ht

end Chickadee.Mutex
