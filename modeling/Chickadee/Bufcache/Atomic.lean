import Chickadee.Bufcache.Content

/-!
# Operations that run one after the other

When no operation starts before the last one has ended, none of the overlaps of `Fits` can happen,
and the cache with the disk is a plain map from block numbers to contents. Only the disk works at
any time, on prefetches.
-/

namespace Chickadee.Bufcache

open Chickadee.Lib

variable {α : Type*}

/-- The task is in the middle of an operation. -/
def Pc.busy : Pc → Bool
  | .held _ _ => false
  | _ => true

/-- An operation starts only when no other one is running. -/
def Atomic (s : State α) : Act α → Prop
  | .callGet _ => ∀ pc ∈ s.tasks, pc.busy = false
  | .callSync _ => ∀ pc ∈ s.tasks, pc.busy = false
  | .get_write _ _ => ∀ pc ∈ s.tasks, pc.busy = false
  | .put _ _ => ∀ pc ∈ s.tasks, pc.busy = false
  | .prefetch _ _ _ => ∀ pc ∈ s.tasks, pc.busy = false
  | _ => True

/-- Operations run one after the other, and the disk does what it is asked to do. -/
def AtomicOk (s : State α) (a : Act α) : Prop := Atomic s a ∧ DiskOk a

instance (s : State α) : (a : Act α) → Decidable (Atomic s a)
  | .callGet _ | .callSync _ | .get_write _ _ | .put _ _ | .prefetch _ _ _ =>
    inferInstanceAs (Decidable (∀ pc ∈ s.tasks, pc.busy = false))
  | .next _ _ _ | .modify _ _ _ | .put_write _ _ | .complete _ _ => .isTrue trivial

instance (s : State α) (a : Act α) : Decidable (AtomicOk s a) := inferInstanceAs (Decidable (_ ∧ _))

/-- **A plain map**, as a machine: the events, the latest first, and the map that they lead to. -/
inductive PlainMap (d : ℕ → α) : List (Event α) → (ℕ → α) → Prop
  | init : PlainMap d [] d
  | get (bn : ℕ) {l m} (h : PlainMap d l m) : PlainMap d (.got bn bn (some (m bn)) :: l) m
  | write (bn : ℕ) (v : α) {l m} (h : PlainMap d l m) :
      PlainMap d (.wrote bn v :: l) (Function.update m bn v)

/-- The block that a task asked for and the entry that it uses for it. -/
def Pc.uses : Pc → Option (ℕ × Fin ne)
  | .getWait bn i => some (bn, i)
  | .reading bn i => some (bn, i)
  | .readDone bn i => some (bn, i)
  | .waitLoading bn i => some (bn, i)
  | .held bn i => some (bn, i)
  | .pushing bn i => some (bn, i)
  | .writing bn i => some (bn, i)
  | _ => none

/-- The task is in `sync`, after it has taken the dirty list. -/
def Pc.syncing : Pc → Bool
  | .syncLoop _ _ _ => true
  | .syncGet _ _ _ _ => true
  | .syncWrite _ _ _ _ => true
  | .syncMark _ _ _ _ => true
  | .syncPut _ _ _ _ => true
  | .syncDrop _ _ _ _ => true
  | _ => false

/-- **What holds when operations run one after the other.** -/
structure Alone (s : State α) : Prop where
  one : s.tasks.countP (·.busy = true) ≤ 1
  block : ∀ pc ∈ s.tasks, ∀ bn i, pc.uses = some (bn, i) → (s.c.e_ i).bn_ = bn
  wait : ∀ bn i, .getWait bn i ∈ s.tasks → (s.c.e_ i).estate_ = .es_prefetching
  sync : ∀ pc ∈ s.tasks, pc.syncing = true → s.c.dirty_list_ = []

variable {c c' : Cache α} {d m : ℕ → α} {T T' : Multiset Pc} {l l' : List (Event α)} {i j : Fin ne}
  {bn : ℕ} {pc pc' : Pc} {a : Act α} {s s' : State α}

/-! ## One task at a time -/

/-- The others hold references, when one task is busy. -/
theorem Alone.others (h : Alone ⟨c, d, pc ::ₘ T, l⟩) (hpc : pc.busy = true) :
    ∀ q ∈ T, q.busy = false := by
  have hone := h.one
  simp only [Multiset.countP_cons, hpc, if_true] at hone
  have hzero : T.countP (·.busy = true) = 0 := by omega
  intro q hq
  simpa using Multiset.countP_eq_zero.mp hzero q hq

theorem uses_eq_of_idle (hbusy : pc.busy = false) : ∃ bn i, pc = .held bn i := by
  cases pc with
  | held bn i => exact ⟨bn, i, rfl⟩
  | _ => exact absurd hbusy (by simp [Pc.busy])

theorem tcount_idle (h : ∀ q ∈ T, q.busy = false) (i : Fin ne) : tcount T i .dirty = 0 := by
  induction T using Multiset.induction with
  | empty => rfl
  | cons q T ih =>
    obtain ⟨bn, j, rfl⟩ := uses_eq_of_idle (h q (Multiset.mem_cons_self _ _))
    rw [tcount_cons, ih fun q hq => h q (Multiset.mem_cons_of_mem hq)]
    rfl

/-- With nothing in its hand, a `sync` that runs alone has left no dirty entry. -/
theorem Alone.not_dirty (h : Alone ⟨c, d, pc ::ₘ T, l⟩) (hinv : Inv c (pc ::ₘ T))
    (hsync : pc.syncing = true) (hcount : ∀ i, pc.count i .dirty = 0) (i : Fin ne) :
    (c.e_ i).estate_ ≠ .es_dirty := by
  intro hst
  have hbusy : pc.busy = true := by
    cases pc <;> first | rfl | exact absurd hsync (by simp [Pc.syncing])
  have hlist : c.dirty_list_ = [] := h.sync pc (Multiset.mem_cons_self _ _) hsync
  have hpos := hinv.dirty_state.mp hst
  rw [counts, tcount_cons, hcount, tcount_idle (h.others hbusy)] at hpos
  simp [Cache.queued, hlist] at hpos

theorem Cache.dropsClean_of (h : ∀ i, (c.e_ i).estate_ ≠ .es_dirty) (rest : List (Fin ne)) :
    c.DropsClean rest := by
  induction rest with
  | nil => trivial
  | cons i rest ih => exact Or.inr ⟨fun _ => h i, ih⟩

/-- **None of the overlaps happens.** -/
theorem fits_of_alone (h : Alone ⟨c, d, pc ::ₘ T, l⟩) (hinv : Inv c (pc ::ₘ T)) (ok : Bool)
    (io : Option α) : Fits ⟨c, d, pc ::ₘ T, l⟩ (.next pc ok io) := by
  cases pc with
  | pushing bn i =>
    intro q hq hpop
    rcases Multiset.mem_cons.mp hq with rfl | hq
    · exact absurd hpop (by simp [Pc.popped])
    · obtain ⟨bn', j, rfl⟩ := uses_eq_of_idle (h.others rfl q hq)
      exact absurd hpop (by simp [Pc.popped])
  | getWait bn i =>
    intro hempty
    rw [h.wait bn i (Multiset.mem_cons_self _ _)] at hempty
    exact absurd hempty (by simp)
  | syncLoop drop cont loc =>
    cases loc with
    | cons e loc => trivial
    | nil =>
      intro _
      exact Cache.dropsClean_of (h.not_dirty hinv rfl fun i => idle_syncDone drop cont i _) _
  | syncDrop drop cont i rest =>
    exact Cache.dropsClean_of (h.not_dirty hinv rfl fun i => idle_syncDrop drop cont rest i _) _
  | _ => trivial

/-! ## The invariant -/

/-- All tasks hold references, to entries for the blocks that they asked for. -/
def Held (c : Cache α) (T : Multiset Pc) : Prop :=
  ∀ q ∈ T, ∃ bn i, q = .held bn i ∧ (c.e_ i).bn_ = bn

/-- The state next to tasks that hold references. -/
theorem Alone.of_held (h : Held c T) : Alone ⟨c, d, T, l⟩ where
  one := by
    have hzero : T.countP (·.busy = true) = 0 := by
      refine Multiset.countP_eq_zero.mpr fun q hq => ?_
      obtain ⟨bn, i, rfl, -⟩ := h q hq
      simp [Pc.busy]
    exact hzero.le.trans (Nat.zero_le 1)
  block := fun q hq bn i huses => by
    obtain ⟨bn', i', rfl, hbn⟩ := h q hq
    simp only [Pc.uses, Option.some.injEq, Prod.mk.injEq] at huses
    rw [← huses.1, ← huses.2]
    exact hbn
  wait := fun bn i hq => by
    obtain ⟨bn', i', he, -⟩ := h _ hq
    exact absurd he (by simp)
  sync := fun q hq hs => by
    obtain ⟨bn, i, rfl, -⟩ := h q hq
    exact absurd hs (by simp [Pc.syncing])

/-- One more task. -/
theorem Alone.add (h : Held c T) (huses : ∀ bn i, pc.uses = some (bn, i) → (c.e_ i).bn_ = bn)
    (hwait : ∀ bn i, pc = .getWait bn i → (c.e_ i).estate_ = .es_prefetching)
    (hsync : pc.syncing = true → c.dirty_list_ = []) : Alone ⟨c, d, pc ::ₘ T, l⟩ := by
  have hT : Alone ⟨c, d, T, l⟩ := Alone.of_held h
  have hzero : T.countP (·.busy = true) = 0 := by
    refine Multiset.countP_eq_zero.mpr fun q hq => ?_
    obtain ⟨bn, i, rfl, -⟩ := h q hq
    simp [Pc.busy]
  refine ⟨?_, ?_, ?_, ?_⟩
  · show (pc ::ₘ T).countP _ ≤ 1
    rw [Multiset.countP_cons, hzero]
    split <;> omega
  · intro q hq
    rcases Multiset.mem_cons.mp hq with rfl | hq
    · exact huses
    · exact hT.block q hq
  · intro bn i hq
    rcases Multiset.mem_cons.mp hq with he | hq
    · exact hwait bn i he.symm
    · exact hT.wait bn i hq
  · intro q hq
    rcases Multiset.mem_cons.mp hq with rfl | hq
    · exact hsync
    · exact hT.sync q hq

/-- Tasks that are not busy hold references. -/
theorem Alone.held (h : Alone s) (hsub : ∀ q ∈ T, q ∈ s.tasks) (hT : ∀ q ∈ T, q.busy = false) :
    Held s.c T := by
  intro q hq
  obtain ⟨bn, i, rfl⟩ := uses_eq_of_idle (hT q hq)
  exact ⟨bn, i, rfl, h.block _ (hsub _ hq) bn i rfl⟩

/-- References survive a step that renames empty entries only. -/
theorem Held.keep (h : Held c T) (hinv : Inv c T') (hsub : ∀ q ∈ T, q ∈ T')
    (hkeep : ∀ j, (c.e_ j).estate_ ≠ .es_empty → (c'.e_ j).bn_ = (c.e_ j).bn_) : Held c' T := by
  intro q hq
  obtain ⟨bn, i, rfl, hbn⟩ := h q hq
  refine ⟨bn, i, rfl, (hkeep i fun hempty => ?_).trans hbn⟩
  have hst := hinv.held_state
    (Nat.add_pos_left (tcount_pos (i := i) (hsub _ hq) (by simp [Pc.count])) _)
  rw [hempty] at hst
  exact absurd hst (by simp)

theorem Cache.bn_set {b : Bcentry α} (hb : b.bn_ = (c.e_ i).bn_) (j : Fin ne) :
    ((c.set i b).e_ j).bn_ = (c.e_ j).bn_ := by
  by_cases hj : j = i
  · rw [hj, Cache.set_e_self]
    exact hb
  · rw [Cache.set_e_ne hj]

theorem Cache.bn_set_empty {b : Bcentry α} (hst : (c.e_ i).estate_ = .es_empty) (j : Fin ne)
    (hj : (c.e_ j).estate_ ≠ .es_empty) : ((c.set i b).e_ j).bn_ = (c.e_ j).bn_ := by
  have hji : j ≠ i := by
    rintro rfl
    exact hj hst
  rw [Cache.set_e_ne hji]

theorem Alone.syncReturn (h : Held c T) (cont : Option ℕ) :
    Alone ⟨c, d, addTask T (syncReturn cont), l⟩ := by
  cases cont with
  | none => exact Alone.of_held h
  | some bn => exact Alone.add h (by simp [Pc.uses]) (by simp) (by simp [Pc.syncing])

theorem Alone.dropReturn (h : Held c T) (hlist : c.dirty_list_ = []) (drop : ℤ) (cont : Option ℕ)
    (rest : List (Fin ne)) : Alone ⟨c, d, addTask T (dropReturn drop cont rest), l⟩ := by
  cases rest with
  | nil => exact Alone.syncReturn h cont
  | cons i rest => exact Alone.add h (by simp [Pc.uses]) (by simp) fun _ => hlist

theorem Alone.move {pc'' : Option Pc} (h : Alone ⟨c, d, pc ::ₘ T, l⟩) (hm : Moves c pc pc'') :
    Alone ⟨c, d, addTask T pc'', l⟩ := by
  have hbusy : pc.busy = true := by cases hm <;> rfl
  have hH : Held c T := h.held (fun _ hq => Multiset.mem_cons_of_mem hq) (h.others hbusy)
  have hlist : pc.syncing = true → c.dirty_list_ = [] := h.sync pc (Multiset.mem_cons_self _ _)
  cases hm with
  | null | nullWait => exact Alone.of_held hH
  | full bn => exact Alone.add hH (by simp [Pc.uses]) (by simp) (by simp [Pc.syncing])
  | wait bn i hst hbn =>
    refine Alone.add hH ?_ ?_ (by simp [Pc.syncing])
    · rintro bn' i' huses
      simp only [Pc.uses, Option.some.injEq, Prod.mk.injEq] at huses
      rw [← huses.1, ← huses.2]
      exact hbn
    · rintro bn' i' he
      cases he
      exact hst
  | pop drop cont loc e =>
    exact Alone.add hH (by simp [Pc.uses]) (by simp) fun _ => hlist rfl
  | leave drop cont => exact Alone.syncReturn hH cont
  | drop drop cont rest => exact Alone.dropReturn hH (hlist rfl) drop cont rest
  | dropOn drop cont i rest rest' => exact Alone.dropReturn hH (hlist rfl) drop cont rest'

/-- A task goes on to use entry `i`, and the blocks stay the same. -/
theorem Alone.go (h : Alone ⟨c, d, pc ::ₘ T, l⟩) (pc' : Pc) (hinv : Inv c (pc ::ₘ T))
    (hT : ∀ q ∈ T, q.busy = false) (hbn : (c.e_ i).bn_ = bn) (hpc : pc'.uses = some (bn, i))
    (hwait : ∀ bn i, pc' ≠ .getWait bn i) (hkeep : ∀ j, (c'.e_ j).bn_ = (c.e_ j).bn_)
    {d' : ℕ → α} : Alone ⟨c', d', pc' ::ₘ T, l'⟩ := by
  have hsub : ∀ q ∈ T, q ∈ pc ::ₘ T := fun _ hq => Multiset.mem_cons_of_mem hq
  refine Alone.add ((h.held hsub hT).keep hinv hsub fun j _ => hkeep j) ?_ ?_ ?_
  · intro bn' i' huses
    rw [hpc] at huses
    simp only [Option.some.injEq, Prod.mk.injEq] at huses
    rw [← huses.1, ← huses.2, hkeep i]
    exact hbn
  · exact fun bn' i' he => absurd he (hwait bn' i')
  · intro hs
    cases pc' <;> simp_all [Pc.uses, Pc.syncing]

/-- A `sync` goes on. -/
theorem Alone.goSync (h : Alone ⟨c, d, pc ::ₘ T, l⟩) (pc' : Pc) (hinv : Inv c (pc ::ₘ T))
    (hpc : pc.busy = true) (hpc' : pc'.syncing = true) (hlist : c'.dirty_list_ = [])
    (hkeep : ∀ j, (c'.e_ j).bn_ = (c.e_ j).bn_) {d' : ℕ → α} :
    Alone ⟨c', d', pc' ::ₘ T, l'⟩ := by
  have hsub : ∀ q ∈ T, q ∈ pc ::ₘ T := fun _ hq => Multiset.mem_cons_of_mem hq
  refine Alone.add ((h.held hsub (h.others hpc)).keep hinv hsub fun j _ => hkeep j) ?_ ?_ ?_
  · intro bn i huses
    cases pc' <;> simp_all [Pc.uses, Pc.syncing]
  · rintro bn i rfl
    exact absurd hpc' (by simp [Pc.syncing])
  · exact fun _ => hlist

/-- The entry that `get_disk_entry` finds is one for its block. -/
theorem Alone.finds (h : Alone ⟨c, d, pc ::ₘ T, l⟩) (hf : c.Finds bn i pc) :
    (c.e_ i).bn_ = bn := by
  rcases hf with ⟨-, hbn⟩ | rfl
  · exact hbn
  · exact h.block _ (Multiset.mem_cons_self _ _) bn i rfl

theorem Alone.uses_bn (h : Alone ⟨c, d, pc ::ₘ T, l⟩) (huses : pc.uses = some (bn, i)) :
    (c.e_ i).bn_ = bn :=
  h.block _ (Multiset.mem_cons_self _ _) bn i huses

theorem busy_of_finds (hf : c.Finds bn i pc) : pc.busy = true := by
  rcases hf with ⟨rfl, -⟩ | rfl <;> rfl

/-- **Small steps of operations that run one after the other.** -/
theorem Small.alone [Inhabited α] (hs : Small a s s') (hinv : Inv s.c s.tasks)
    (hat : Atomic s a) (h : Alone s) : Alone s' := by
  cases hs with
  | callGet c d T l bn =>
    exact Alone.add (h.held (fun _ hq => hq) hat) (by simp [Pc.uses]) (by simp)
      (by simp [Pc.syncing])
  | callSync c d T l drop =>
    exact Alone.add (h.held (fun _ hq => hq) hat) (by simp [Pc.uses]) (by simp)
      (by simp [Pc.syncing])
  | move _ _ _ _ _ _ _ _ hm => exact h.move hm
  | allocate c _ T _ _ _ bn i pc v hpc hst hbn =>
    have hbusy : pc.busy = true := by rcases hpc with rfl | rfl <;> rfl
    have hsub : ∀ q ∈ T, q ∈ pc ::ₘ T := fun _ hq => Multiset.mem_cons_of_mem hq
    refine Alone.add ((h.held hsub (h.others hbusy)).keep hinv hsub (Cache.bn_set_empty hst)) ?_
      (by simp) (by simp [Pc.syncing])
    intro bn' i' huses
    simp only [Pc.uses, Option.some.injEq, Prod.mk.injEq] at huses
    rw [← huses.1, ← huses.2, Cache.set_e_self]
  | await c _ T _ _ _ bn i pc hpc hst =>
    refine h.go (.waitLoading bn i) hinv (h.others (busy_of_finds hpc)) (h.finds hpc) rfl (by simp) ?_
    exact Cache.bn_set rfl
  | reference c _ T _ _ _ bn i pc hpc hst =>
    refine h.go (.held bn i) hinv (h.others (busy_of_finds hpc)) (h.finds hpc) rfl (by simp) ?_
    exact Cache.bn_set rfl
  | hit c _ T _ _ _ bn i pc hpc hst hq hagain =>
    refine h.go (.held bn i) hinv (h.others (busy_of_finds hpc)) (h.finds hpc) rfl (by simp) ?_
    exact Cache.bn_set rfl
  | read c _ T _ _ io bn i =>
    refine h.go (.readDone bn i) hinv (h.others rfl) (h.uses_bn rfl) rfl (by simp) ?_
    exact Cache.bn_set rfl
  | loaded c _ T _ _ io bn i =>
    refine h.go (.held bn i) hinv (h.others rfl) (h.uses_bn rfl) rfl (by simp) ?_
    exact Cache.bn_set rfl
  | wake c _ T _ _ io bn i =>
    exact h.go (.held bn i) hinv (h.others rfl) (h.uses_bn rfl) rfl (by simp) fun _ => rfl
  | put c _ T _ bn i =>
    have hsub : ∀ q ∈ T, q ∈ Pc.held bn i ::ₘ T := fun _ hq => Multiset.mem_cons_of_mem hq
    have hkeep : ∀ j, ((c.released i).e_ j).bn_ = (c.e_ j).bn_ := by
      intro j
      exact Cache.bn_set (b := { c.e_ i with ref_ := (c.e_ i).ref_ - 1 }) rfl j
    exact Alone.of_held
      ((h.held hsub fun q hq => hat q (hsub q hq)).keep hinv hsub fun j _ => hkeep j)
  | get_write c _ T _ bn i =>
    refine h.go (.pushing bn i) hinv (fun q hq => hat q (Multiset.mem_cons_of_mem hq))
      (h.uses_bn rfl) rfl (by simp) ?_
    exact Cache.bn_set rfl
  | pushOld c _ T _ _ _ bn i =>
    exact h.go (.writing bn i) hinv (h.others rfl) (h.uses_bn rfl) rfl (by simp) fun _ => rfl
  | push c _ T _ _ _ bn i =>
    refine h.go (.writing bn i) hinv (h.others rfl) (h.uses_bn rfl) rfl (by simp) ?_
    exact Cache.bn_set rfl
  | modify c _ T _ bn i v =>
    refine h.go (.writing bn i) hinv (h.others rfl) (h.uses_bn rfl) rfl (by simp) ?_
    exact Cache.bn_set rfl
  | put_write c _ T _ bn i =>
    refine h.go (.held bn i) hinv (h.others rfl) (h.uses_bn rfl) rfl (by simp) ?_
    exact Cache.bn_set rfl
  | swap c _ T _ _ _ drop cont =>
    refine h.goSync (.syncLoop drop cont c.dirty_list_) hinv rfl rfl ?_ ?_
    · rfl
    · exact fun _ => rfl
  | syncGet c _ T _ _ _ drop cont loc e =>
    refine h.goSync (.syncWrite drop cont loc e) hinv rfl rfl ?_ ?_
    · exact h.sync _ (Multiset.mem_cons_self _ _) rfl
    · exact Cache.bn_set rfl
  | syncWrite c _ T _ _ _ drop cont loc e =>
    refine h.goSync (.syncMark drop cont loc e) hinv rfl rfl ?_ ?_
    · exact h.sync _ (Multiset.mem_cons_self _ _) rfl
    · exact fun _ => rfl
  | syncMark c _ T _ _ _ drop cont loc e =>
    refine h.goSync (.syncPut drop cont loc e) hinv rfl rfl ?_ ?_
    · exact h.sync _ (Multiset.mem_cons_self _ _) rfl
    · exact Cache.bn_set rfl
  | syncPut c _ T _ _ _ drop cont loc e =>
    refine h.goSync (.syncLoop drop cont loc) hinv rfl rfl ?_ ?_
    · exact h.sync _ (Multiset.mem_cons_self _ _) rfl
    · exact Cache.bn_set rfl
  | prefetch c _ T _ _ bn _ i v hst =>
    refine Alone.of_held ((h.held (fun _ hq => hq) hat).keep hinv (fun _ hq => hq) ?_)
    exact Cache.bn_set_empty hst
  | complete c _ T _ i io hq =>
    refine ⟨h.one, ?_, ?_, h.sync⟩
    · intro q hq bn j huses
      refine Eq.trans ?_ (h.block q hq bn j huses)
      refine Cache.bn_set ?_ j
      rfl
    · intro bn j hmem
      have hst := h.wait bn j hmem
      by_cases hji : j = i
      · subst hji
        simpa using hst
      · rw [Cache.set_e_ne hji]
        exact hst

theorem Quiet.alone (hq : Quiet a c c') (hinv : Inv c T)
    (hwait : a.MayClear → ∀ bn i, .getWait bn i ∉ T) (h : Alone ⟨c, d, T, l⟩) :
    Alone ⟨c', d, T, l⟩ := by
  cases hq with
  | clear i ha href hst =>
    refine ⟨h.one, ?_, ?_, h.sync⟩
    · intro q hq bn j huses
      refine Eq.trans ?_ (h.block q hq bn j huses)
      refine Cache.bn_set ?_ j
      rfl
    · exact fun bn j hmem => absurd hmem (hwait ha bn j)
  | rename i bn' hst =>
    -- no task uses the empty entry
    have hne : ∀ q ∈ T, ∀ bn j, q.uses = some (bn, j) → (c.e_ j).estate_ ≠ .es_empty := by
      intro q hq bn j huses hempty
      have hS := (hinv.entry j).state
      rw [hempty] at hS
      have hpos : ∀ k, 0 < q.count j k → 0 < counts c T j k := fun k hk =>
        Nat.add_pos_left (tcount_pos hq hk) _
      cases q with
      | getWait bn i =>
        cases huses
        have hst' := h.wait bn j hq
        rw [hempty] at hst'
        exact absurd hst' (by simp)
      | reading bn i | readDone bn i | waitLoading bn i | held bn i | pushing bn i
      | writing bn i =>
        cases huses
        have h0 := hpos .ref (by simp [Pc.count])
        exact absurd hS.1 (by omega)
      | _ => exact absurd huses (by simp [Pc.uses])
    refine ⟨h.one, ?_, ?_, h.sync⟩
    · intro q hq bn j huses
      refine Eq.trans ?_ (h.block q hq bn j huses)
      exact Cache.bn_set_empty hst j (hne q hq bn j huses)
    · intro bn j hmem
      have hji : j ≠ i := by
        rintro rfl
        exact hne _ hmem bn j rfl hst
      show ((c.set i _).e_ j).estate_ = _
      rw [Cache.set_e_ne hji]
      exact h.wait bn j hmem

/-! ## In every run -/

/-- An act does not clear entries while a task waits for a prefetch. -/
theorem Alone.no_wait [Inhabited α] (h : Alone s) (hat : Atomic s a) (hs : s.step a = some s')
    (ha : a.MayClear) : ∀ bn i, .getWait bn i ∉ s.tasks := by
  intro bn i hmem
  have hnext : ∀ pc ok io, a = .next pc ok io → pc.busy = true → pc = .getWait bn i := by
    rintro pc ok io rfl hbusy
    obtain ⟨c, d, T, l⟩ := s
    have hpc : pc ∈ T := by
      by_contra hpc
      simp [State.step, hpc] at hs
    obtain ⟨T, rfl⟩ := Multiset.exists_cons_of_mem hpc
    rcases Multiset.mem_cons.mp hmem with he | hmem
    · exact he.symm
    · exact absurd (h.others hbusy _ hmem) (by simp [Pc.busy])
  cases a with
  | next pc ok io =>
    cases pc with
    | get bn' => exact absurd (hnext _ ok io rfl rfl) (by simp)
    | syncLoop drop cont loc => exact absurd (hnext _ ok io rfl rfl) (by simp)
    | syncDrop drop cont j rest => exact absurd (hnext _ ok io rfl rfl) (by simp)
    | _ => exact ha.elim
  | prefetch bn' ok slot => exact absurd (hat _ hmem) (by simp [Pc.busy])
  | _ => exact ha.elim

/-- **Operations that run one after the other avoid the overlaps.** -/
theorem Alone.fits [Inhabited α] (h : Alone s) (hinv : Inv s.c s.tasks)
    (hs : s.step a = some s') : Fits s a := by
  cases a with
  | next pc ok io =>
    obtain ⟨c, d, T, l⟩ := s
    have hpc : pc ∈ T := by
      by_contra hpc
      simp [State.step, hpc] at hs
    obtain ⟨T, rfl⟩ := Multiset.exists_cons_of_mem hpc
    exact fits_of_alone h hinv ok io
  | _ => trivial

/-- Whether operations run one after the other is a matter of the tasks. -/
theorem Atomic.congr (h : Atomic ⟨c, d, T, l⟩ a) : Atomic ⟨c', d, T, l⟩ a := by
  cases a <;> exact h

theorem Small.plainMap [Inhabited α] (hs : Small a s s') (halone : Alone s)
    (hcon : Content (replay d s.log) s.c s.disk s.tasks)
    (h : PlainMap d s.log (replay d s.log)) : PlainMap d s'.log (replay d s'.log) := by
  cases hs with
  | reference c _ T l _ _ bn i pc hpc hst =>
    have hbuf : (c.e_ i).buf_ = some (replay d l (c.e_ i).bn_) := by
      rcases hst with hst | hst
      · exact hcon.clean i hst
      · exact hcon.dirty i hst
    show PlainMap d (.got bn (c.e_ i).bn_ (c.e_ i).buf_ :: l) (replay d l)
    rw [hbuf, halone.finds hpc]
    exact .get bn h
  | hit c _ T l _ _ bn i pc hpc hst hq hagain =>
    show PlainMap d (.got bn (c.e_ i).bn_ (c.e_ i).buf_ :: l) (replay d l)
    rw [hcon.fetched i hst hagain, halone.finds hpc]
    exact .get bn h
  | loaded c _ T l _ _ bn i =>
    show PlainMap d (.got bn (c.e_ i).bn_ (c.e_ i).buf_ :: l) (replay d l)
    rw [hcon.read bn i (Multiset.mem_cons_self _ _), halone.uses_bn rfl]
    exact .get bn h
  | wake c _ T l _ _ bn i hst =>
    have hbuf : (c.e_ i).buf_ = some (replay d l (c.e_ i).bn_) := by
      rcases hst with hst | hst
      · exact hcon.clean i hst
      · exact hcon.dirty i hst
    show PlainMap d (.got bn (c.e_ i).bn_ (c.e_ i).buf_ :: l) (replay d l)
    rw [hbuf, halone.uses_bn rfl]
    exact .get bn h
  | modify c _ T l bn i v => exact .write _ v h
  | _ => exact h

/-- What holds in every state when operations run one after the other. -/
structure AtomicInv (d : ℕ → α) (s : State α) : Prop where
  inv : Inv s.c s.tasks
  alone : Alone s
  content : Content (replay d s.log) s.c s.disk s.tasks
  plain : PlainMap d s.log (replay d s.log)

theorem AtomicInv.init (d : ℕ → α) : AtomicInv d (State.init d) := by
  have hnone : ∀ i, ((State.init d).c.e_ i).estate_ = .es_empty := fun i => rfl
  refine ⟨inv_init d, ?_, content_init d, .init⟩
  exact Alone.of_held fun q hq => absurd hq (Multiset.notMem_zero q)

theorem AtomicInv.step [Inhabited α] (h : AtomicInv d s) (hok : AtomicOk s a)
    (hs : s.step a = some s') : AtomicInv d s' := by
  have hfits := h.alone.fits h.inv hs
  have hsmall := step_small h.inv hfits hs
  -- the invariants before the small step, and what the step is
  let P : State α → Prop := fun s => AtomicInv d s ∧ Atomic s a ∧
    (a.MayClear → ∀ bn i, .getWait bn i ∉ s.tasks)
  have hquiet : ∀ c c' disk T l, Inv c T → Quiet a c c' → P ⟨c, disk, T, l⟩ →
      P ⟨c', disk, T, l⟩ := by
    rintro c c' disk T l hinv hq ⟨hA, hat, hwait⟩
    exact ⟨⟨hq.inv hinv, hq.alone hinv hwait hA.alone, hq.content hinv hA.content, hA.plain⟩,
      hat.congr, hwait⟩
  refine hsmall.keep (P := P) hquiet ?_ (fun s hP => hP.1) h.inv
    ⟨h, hok.1, h.alone.no_wait hok.1 hs⟩
  rintro s s' hinv hsm ⟨hA, hat, -⟩
  exact ⟨hsm.inv hinv, hsm.alone hinv hat hA.alone, hsm.content hok.2 hinv hA.content,
    hsm.plainMap hA.alone hA.content hA.plain⟩

end Chickadee.Bufcache
