import Chickadee.Pipe.Bbuf

/-!
# `syscall_pipe`: making the two ends of a pipe

The first vnode allocates the buffer, the second one borrows it, and the labels at the end of the call
undo what was done when an allocation fails. Objects are named by their pointers; `kalloc` is what the
calls of `kalloc` still to come return. A null pointer that is followed, an object that is used after
`delete` and an assertion that fails are faults.
-/

namespace Chickadee.Pipe

abbrev MAX_FD : ℕ := 8
abbrev E_NOMEM : ℤ := -12
abbrev E_MFILE : ℤ := -24

/-- `OF_READ` and `OF_WRITE`, the modes of an end of a pipe. -/
inductive Mode | OF_READ | OF_WRITE
deriving DecidableEq

/-- `struct pipe_vnode`, as far as this call uses it. -/
structure PipeVnode where
  mode_ : Mode
  refcount_ : ℤ
  bbuf_ : Option ℕ
deriving DecidableEq

/-- What can go wrong. -/
inductive Fault | null | dead | assertion
deriving DecidableEq

/-- The objects, the table of the process, and which pointers the call has allocated and freed. -/
structure Heap where
  vnodes : ℕ → Option PipeVnode
  bbufs : ℕ → Option Bbuf
  fdtable_ : ℕ → Option ℕ
  kalloc : ℕ → Option ℕ
  junk : ℕ → UInt8
  allocated : List ℕ
  freed : List ℕ

/-- Kernel code: it changes the heap, or faults. -/
abbrev PipeM (α : Type) : Type := StateT Heap (Except Fault) α

/-! ## Memory -/

/-- `kalloc(sz)` -/
def kalloc : PipeM (Option ℕ) := do
  let h ← get
  set { h with kalloc := fun i => h.kalloc (i + 1), allocated := (h.kalloc 0).toList ++ h.allocated }
  return h.kalloc 0

/-- What the pointer to a buffer leads to. -/
def bbufAt (p : Option ℕ) : PipeM Bbuf := do
  match p with
  | none => throw .null
  | some p =>
    match (← get).bbufs p with
    | none => throw .dead
    | some b => return b

/-- What the pointer to a vnode leads to. -/
def vnodeAt (p : ℕ) : PipeM PipeVnode := do
  match (← get).vnodes p with
  | none => throw .dead
  | some vn => return vn

def setBbuf (p : ℕ) (b : Option Bbuf) : PipeM Unit :=
  modify fun h => { h with bbufs := Function.update h.bbufs p b }

def setVnode (p : ℕ) (vn : Option PipeVnode) : PipeM Unit :=
  modify fun h => { h with vnodes := Function.update h.vnodes p vn }

/-- `kfree(ptr)` -/
def kfree (p : ℕ) : PipeM Unit :=
  modify fun h => { h with freed := p :: h.freed }

/-- `delete` of a buffer -/
def deleteBbuf (p : Option ℕ) : PipeM Unit := do
  match p with
  | none => return
  | some q =>
    let _ ← bbufAt p
    setBbuf q none
    kfree q

/-! ## `pipe_vnode` -/

/-- `knew<pipe_bbuf>()` -/
def knewBbuf : PipeM (Option ℕ) := do
  match ← kalloc with
  | none => return none
  | some p =>
    let junk := (← get).junk
    setBbuf p (some
      { bbuf_ := junk, pos_ := 0, len_ := 0, write_closed_ := false, read_closed_ := false })
    return some p

/-- The constructor `pipe_vnode(mode, bbuf)` -/
def pipe_vnode (mode : Mode) (bbuf : Option ℕ) : PipeM PipeVnode := do
  match bbuf with
  | none => return { mode_ := mode, refcount_ := 1, bbuf_ := ← knewBbuf }
  | some bbuf => return { mode_ := mode, refcount_ := 1, bbuf_ := some bbuf }

/-- `knew<pipe_vnode>(mode, bbuf)` -/
def knewVnode (mode : Mode) (bbuf : Option ℕ) : PipeM (Option ℕ) := do
  match ← kalloc with
  | none => return none
  | some p =>
    let vn ← pipe_vnode mode bbuf
    setVnode p (some vn)
    return some p

/-- `close_read()` and `close_write()` of the buffer, with their assertions -/
def closeEnd (mode : Mode) (b : Bbuf) : PipeM Bbuf :=
  match mode with
  | .OF_READ => if b.read_closed_ then throw .assertion else return { b with read_closed_ := true }
  | .OF_WRITE => if b.write_closed_ then throw .assertion else return { b with write_closed_ := true }

/-- The destructor `~pipe_vnode()`. The guard uses the lock of the buffer before the test for null. -/
def pipe_vnode_dtor (vn : PipeVnode) : PipeM Unit := do
  let b ← bbufAt vn.bbuf_
  match vn.bbuf_ with
  | none => return
  | some p =>
    let b ← closeEnd vn.mode_ b
    setBbuf p (some b)
    if b.write_closed_ ∧ b.read_closed_ then deleteBbuf vn.bbuf_
    -- the guard unlocks the buffer when it goes out of scope
    let _ ← bbufAt vn.bbuf_

/-- `close()` of a vnode: the reference count that is left -/
def vnode_close (p : ℕ) : PipeM ℤ := do
  let vn ← vnodeAt p
  if vn.refcount_ > 0 then
    setVnode p (some { vn with refcount_ := vn.refcount_ - 1 })
    return vn.refcount_ - 1
  else throw .assertion

/-- `delete` of a vnode -/
def deleteVnode (p : ℕ) : PipeM Unit := do
  let vn ← vnodeAt p
  pipe_vnode_dtor vn
  setVnode p none
  kfree p

/-! ## The system call -/

/-- `find_open_fd(exclude_one, taken_fd)`. `none` is `E_MFILE`. -/
def find_open_fd (fdtable_ : ℕ → Option ℕ) (exclude_one : Bool) (taken_fd : ℕ) : Option ℕ :=
  (List.range' 3 (MAX_FD - 3)).find? fun fd =>
    (fdtable_ fd).isNone && (!exclude_one || fd != taken_fd)

/-- The label `free_wr`, and `emem` behind it. -/
def free_wr (wr_vn : ℕ) : PipeM ℤ := do
  let _ ← vnode_close wr_vn
  deleteVnode wr_vn
  return E_NOMEM

/-- The label `free_bbuf`. -/
def free_bbuf (wr_vn : ℕ) : PipeM ℤ := do
  let vn ← vnodeAt wr_vn
  deleteBbuf vn.bbuf_
  setVnode wr_vn (some { vn with bbuf_ := none })
  free_wr wr_vn

/-- `syscall_pipe`, once it has found the two descriptors -/
def makePipe (rfd wfd : ℕ) : PipeM ℤ := do
  match ← knewVnode .OF_WRITE none with
  | none => return E_NOMEM
  | some wr_vn =>
    match (← vnodeAt wr_vn).bbuf_ with
    | none => free_wr wr_vn
    | some bbuf =>
      match ← knewVnode .OF_READ (some bbuf) with
      | none => free_bbuf wr_vn
      | some rd_vn =>
        modify fun h => { h with
          fdtable_ := Function.update (Function.update h.fdtable_ wfd (some wr_vn)) rfd (some rd_vn) }
        return (rfd ||| wfd <<< 32 : ℕ)

/-- `syscall_pipe()` -/
def syscall_pipe : PipeM ℤ := do
  let fdtable_ := (← get).fdtable_
  match find_open_fd fdtable_ false 0 with
  | none => return E_MFILE
  | some rfd =>
    match find_open_fd fdtable_ true rfd with
    | none => return E_MFILE
    | some wfd => makePipe rfd wfd

/-! ## How the parts run -/

variable {h : Heap} {rfd wfd p q v : ℕ} {mode : Mode} {vn : PipeVnode}

theorem run_bind {α β : Type} (x : PipeM α) (f : α → PipeM β) (h : Heap) :
    (x >>= f) h = match x h with
      | .error e => .error e
      | .ok (a, h') => f a h' := by
  show StateT.bind x f h = _
  unfold StateT.bind
  cases x h <;> rfl

theorem run_pure {α : Type} (a : α) (h : Heap) : (pure a : PipeM α) h = .ok (a, h) := rfl

theorem run_get (h : Heap) : (get : PipeM Heap) h = .ok (h, h) := rfl

theorem run_modify (f : Heap → Heap) (h : Heap) : (modify f : PipeM Unit) h = .ok ((), f h) := rfl

/-- The heap after a call of `kalloc`. -/
def Heap.next (h : Heap) : Heap :=
  { h with kalloc := fun i => h.kalloc (i + 1), allocated := (h.kalloc 0).toList ++ h.allocated }

/-- The heap with a vnode. -/
def Heap.withVnode (h : Heap) (p : ℕ) (vn : PipeVnode) : Heap :=
  { h with vnodes := Function.update h.vnodes p (some vn) }

/-- The heap with a new buffer. -/
def Heap.withBbuf (h : Heap) (p : ℕ) : Heap :=
  { h with bbufs := Function.update h.bbufs p (some ⟨h.junk, 0, 0, false, false⟩) }

theorem run_kalloc (h : Heap) : kalloc h = .ok (h.kalloc 0, h.next) := rfl

theorem run_vnodeAt (hvn : h.vnodes p = some vn) : vnodeAt p h = .ok (vn, h) := by
  simp only [vnodeAt, run_bind, run_get, hvn, run_pure]

theorem run_knewVnode_none (h₀ : h.kalloc 0 = none) (bbuf : Option ℕ) :
    knewVnode mode bbuf h = .ok (none, h.next) := by
  simp only [knewVnode, run_bind, run_kalloc, h₀, run_pure]

/-- `knew` of a vnode that borrows its buffer. -/
theorem run_knewVnode_borrow (h₀ : h.kalloc 0 = some p) :
    knewVnode mode (some q) h = .ok (some p, h.next.withVnode p ⟨mode, 1, some q⟩) := by
  simp only [knewVnode, run_bind, run_kalloc, h₀, pipe_vnode, run_pure, setVnode, run_modify]
  rfl

/-- `knew` of a vnode that gets no buffer. -/
theorem run_knewVnode_bare (h₀ : h.kalloc 0 = some p) (h₁ : h.kalloc 1 = none) :
    knewVnode mode none h = .ok (some p, h.next.next.withVnode p ⟨mode, 1, none⟩) := by
  have h₁' : h.next.kalloc 0 = none := h₁
  simp only [knewVnode, run_bind, run_kalloc, h₀, pipe_vnode, knewBbuf, h₁', run_pure, setVnode,
    run_modify]
  rfl

/-- `knew` of a vnode that makes its buffer. -/
theorem run_knewVnode_make (h₀ : h.kalloc 0 = some p) (h₁ : h.kalloc 1 = some q) :
    knewVnode mode none h =
      .ok (some p, (h.next.next.withBbuf q).withVnode p ⟨mode, 1, some q⟩) := by
  have h₁' : h.next.kalloc 0 = some q := h₁
  simp only [knewVnode, run_bind, run_kalloc, h₀, pipe_vnode, knewBbuf, h₁', run_get, run_pure,
    setVnode, setBbuf, run_modify]
  rfl

/-- **The destructor of a vnode without a buffer follows the null pointer.** -/
theorem run_deleteVnode_bare (hvn : h.vnodes p = some vn) (hnull : vn.bbuf_ = none) :
    deleteVnode p h = .error .null := by
  simp only [deleteVnode, run_bind, run_vnodeAt hvn, pipe_vnode_dtor, hnull, bbufAt]
  rfl

/-- The label `free_wr` is only reached with such a vnode. -/
theorem run_free_wr (hvn : h.vnodes p = some vn) (hnull : vn.bbuf_ = none) (href : 0 < vn.refcount_) :
    free_wr p h = .error .null := by
  have hclose : vnode_close p h =
      .ok (vn.refcount_ - 1, h.withVnode p { vn with refcount_ := vn.refcount_ - 1 }) := by
    simp only [vnode_close, run_bind, run_vnodeAt hvn, gt_iff_lt, href, if_true, setVnode, run_modify,
      run_pure]
    rfl
  have hdelete := run_deleteVnode_bare (h := h.withVnode p { vn with refcount_ := vn.refcount_ - 1 })
    (p := p) (Function.update_self ..) hnull
  simp only [free_wr, run_bind, hclose, hdelete]

/-- The label `free_bbuf` frees the buffer, and then there is none. -/
theorem run_free_bbuf (hvn : h.vnodes p = some vn) (hq : vn.bbuf_ = some q)
    (hb : (h.bbufs q).isSome) (href : 0 < vn.refcount_) : free_bbuf p h = .error .null := by
  obtain ⟨b, hb⟩ := Option.isSome_iff_exists.mp hb
  simp only [free_bbuf, run_bind, run_vnodeAt hvn, hq, deleteBbuf, bbufAt, run_get, hb, run_pure,
    setBbuf, kfree, setVnode, run_modify]
  exact run_free_wr (Function.update_self ..)
    (show PipeVnode.bbuf_ { vn with bbuf_ := none } = none from rfl) href

/-! ## The descriptors -/

/-- An empty slot that `find_open_fd` looks at. -/
def Slot (fdtable_ : ℕ → Option ℕ) (fd : ℕ) : Prop := 3 ≤ fd ∧ fd < MAX_FD ∧ fdtable_ fd = none

variable {fdtable_ : ℕ → Option ℕ} {exclude : Bool} {taken fd : ℕ}

theorem find_open_fd_some (hfd : find_open_fd fdtable_ exclude taken = some fd) :
    Slot fdtable_ fd ∧ (exclude = true → fd ≠ taken) := by
  have hmem := List.mem_range'_1.mp (List.mem_of_find?_eq_some hfd)
  have hopen := List.find?_some hfd
  simp only [Bool.and_eq_true, Option.isNone_iff_eq_none, Bool.or_eq_true, Bool.not_eq_true',
    bne_iff_ne] at hopen
  refine ⟨⟨hmem.1, by unfold MAX_FD at *; omega, hopen.1⟩, fun he => ?_⟩
  exact hopen.2.resolve_left (by simp [he])

theorem find_open_fd_none (hfd : find_open_fd fdtable_ exclude taken = none) :
    ∀ fd, Slot fdtable_ fd → exclude = true ∧ fd = taken := by
  intro fd hslot
  have hmem : fd ∈ List.range' 3 (MAX_FD - 3) :=
    List.mem_range'_1.mpr ⟨hslot.1, by have := hslot.2.1; unfold MAX_FD at *; omega⟩
  have hclosed := List.find?_eq_none.mp hfd fd hmem
  by_contra hne
  refine hclosed ?_
  simp only [hslot.2.2, Option.isNone_none, Bool.true_and, Bool.or_eq_true, Bool.not_eq_true',
    bne_iff_ne]
  cases exclude
  · exact Or.inl rfl
  · exact Or.inr fun he => hne ⟨rfl, he⟩

/-- There are two empty slots. -/
def TwoSlots (fdtable_ : ℕ → Option ℕ) : Prop :=
  ∃ a b, a ≠ b ∧ Slot fdtable_ a ∧ Slot fdtable_ b

/-- **The two searches find two empty slots, or there are not two.** -/
theorem syscall_pipe_cases (h : Heap) :
    (¬ TwoSlots h.fdtable_ ∧ syscall_pipe h = .ok (E_MFILE, h)) ∨
    ∃ rfd wfd, rfd ≠ wfd ∧ Slot h.fdtable_ rfd ∧ Slot h.fdtable_ wfd ∧
      syscall_pipe h = makePipe rfd wfd h := by
  simp only [syscall_pipe, run_bind, run_get]
  cases hr : find_open_fd h.fdtable_ false 0 with
  | none =>
    refine Or.inl ⟨?_, rfl⟩
    rintro ⟨a, -, -, ha, -⟩
    exact absurd (find_open_fd_none hr a ha).1 (by simp)
  | some rfd =>
    cases hw : find_open_fd h.fdtable_ true rfd with
    | none =>
      refine Or.inl ⟨?_, by simp only [hw, run_pure]⟩
      rintro ⟨a, b, hne, ha, hb⟩
      exact hne ((find_open_fd_none hw a ha).2.trans (find_open_fd_none hw b hb).2.symm)
    | some wfd =>
      obtain ⟨hwslot, hne⟩ := find_open_fd_some hw
      exact Or.inr ⟨rfd, wfd, (hne rfl).symm, (find_open_fd_some hr).1, hwslot, by simp only [hw]⟩

/-! ## Making the pipe -/

theorem run_makePipe_none (h₀ : h.kalloc 0 = none) :
    makePipe rfd wfd h = .ok (E_NOMEM, h.next) := by
  simp only [makePipe, run_bind, run_knewVnode_none h₀, run_pure]

theorem run_makePipe_bare (h₀ : h.kalloc 0 = some p) (h₁ : h.kalloc 1 = none) :
    makePipe rfd wfd h = .error .null := by
  have hvn : (h.next.next.withVnode p ⟨.OF_WRITE, 1, none⟩).vnodes p = some ⟨.OF_WRITE, 1, none⟩ :=
    Function.update_self ..
  simp only [makePipe, run_bind, run_knewVnode_bare h₀ h₁, run_vnodeAt hvn]
  exact run_free_wr hvn rfl one_pos

theorem run_makePipe_single (h₀ : h.kalloc 0 = some p) (h₁ : h.kalloc 1 = some q)
    (h₂ : h.kalloc 2 = none) : makePipe rfd wfd h = .error .null := by
  obtain ⟨h₃, hh₃⟩ : ∃ h₃, h₃ = (h.next.next.withBbuf q).withVnode p ⟨.OF_WRITE, 1, some q⟩ := ⟨_, rfl⟩
  have hvn : h₃.vnodes p = some ⟨.OF_WRITE, 1, some q⟩ := by
    rw [hh₃]
    exact Function.update_self ..
  have hnone : h₃.kalloc 0 = none := by
    rw [hh₃]
    exact h₂
  have hb : (h₃.next.bbufs q).isSome := by
    rw [hh₃]
    show (Function.update h.bbufs q _ q).isSome
    rw [Function.update_self]
    rfl
  simp only [makePipe, run_bind, run_knewVnode_make h₀ h₁, ← hh₃, run_vnodeAt hvn,
    run_knewVnode_none hnone]
  exact run_free_bbuf (h := h₃.next) hvn rfl hb one_pos

/-- The heap when the three allocations succeed. -/
def Heap.piped (h : Heap) (rfd wfd wr bbuf rd : ℕ) : Heap :=
  { (((h.next.next.withBbuf bbuf).withVnode wr ⟨.OF_WRITE, 1, some bbuf⟩).next.withVnode rd
      ⟨.OF_READ, 1, some bbuf⟩) with
    fdtable_ := Function.update (Function.update h.fdtable_ wfd (some wr)) rfd (some rd) }

theorem run_makePipe_piped {wr bbuf rd : ℕ} (h₀ : h.kalloc 0 = some wr)
    (h₁ : h.kalloc 1 = some bbuf) (h₂ : h.kalloc 2 = some rd) :
    makePipe rfd wfd h = .ok (((rfd ||| wfd <<< 32 : ℕ) : ℤ), h.piped rfd wfd wr bbuf rd) := by
  obtain ⟨h₃, hh₃⟩ : ∃ h₃, h₃ = (h.next.next.withBbuf bbuf).withVnode wr ⟨.OF_WRITE, 1, some bbuf⟩ :=
    ⟨_, rfl⟩
  have hvn : h₃.vnodes wr = some ⟨.OF_WRITE, 1, some bbuf⟩ := by
    rw [hh₃]
    exact Function.update_self ..
  have hsome : h₃.kalloc 0 = some rd := by
    rw [hh₃]
    exact h₂
  simp only [makePipe, run_bind, run_knewVnode_make h₀ h₁, ← hh₃, run_vnodeAt hvn,
    run_knewVnode_borrow hsome, run_modify, run_pure]
  rw [hh₃]
  rfl

/-! ## The result -/

/-- At the call: what `kalloc` is going to return is not in use, and returned once. -/
structure Entered (h : Heap) : Prop where
  vnodes : ∀ i < 3, ∀ p, h.kalloc i = some p → h.vnodes p = none
  bbufs : ∀ i < 3, ∀ p, h.kalloc i = some p → h.bbufs p = none
  distinct : ∀ i < 3, ∀ j < 3, ∀ p, h.kalloc i = some p → h.kalloc j = some p → i = j
  allocated : h.allocated = []
  freed : h.freed = []

/-- Two new vnodes that share a new buffer are in two slots that were empty. -/
def Installed (h h' : Heap) (r : ℤ) : Prop :=
  ∃ rfd wfd rd wr bbuf, rfd ≠ wfd ∧ Slot h.fdtable_ rfd ∧ Slot h.fdtable_ wfd ∧
    r = ((rfd ||| wfd <<< 32 : ℕ) : ℤ) ∧
    h'.fdtable_ = Function.update (Function.update h.fdtable_ wfd (some wr)) rfd (some rd) ∧
    h.vnodes rd = none ∧ h.vnodes wr = none ∧ rd ≠ wr ∧ h.bbufs bbuf = none ∧
    h'.vnodes = Function.update (Function.update h.vnodes wr (some ⟨.OF_WRITE, 1, some bbuf⟩)) rd
      (some ⟨.OF_READ, 1, some bbuf⟩) ∧
    h'.bbufs = Function.update h.bbufs bbuf (some ⟨h.junk, 0, 0, false, false⟩) ∧
    h'.freed = []

/-- The table is unchanged, and what the call allocated it released once. -/
structure Refused (h h' : Heap) (r : ℤ) : Prop where
  code : r = E_MFILE ∨ r = E_NOMEM
  fdtable_ : h'.fdtable_ = h.fdtable_
  vnodes : h'.vnodes = h.vnodes
  bbufs : h'.bbufs = h.bbufs
  released : h'.freed.Perm h'.allocated

/-- The call returns, without a fault, and has made a pipe or nothing. -/
def Handled (h : Heap) : Prop :=
  ∃ r h', syscall_pipe h = .ok (r, h') ∧ (Installed h h' r ∨ Refused h h' r)

theorem not_handled {e : Fault} (herr : syscall_pipe h = .error e) : ¬ Handled h := by
  rintro ⟨r, h', hok, -⟩
  rw [herr] at hok
  cases hok

/--
**`syscall_pipe` makes a pipe or nothing exactly when it does not get as far as a vnode without a
buffer**: it finds no two slots, it gets no memory at all, or it gets all it needs.
-/
theorem syscall_pipe_iff (hin : Entered h) : Handled h ↔
    ¬ TwoSlots h.fdtable_ ∨ h.kalloc 0 = none ∨ ∀ i < 3, h.kalloc i ≠ none := by
  rcases syscall_pipe_cases h with ⟨hfew, hrun⟩ | ⟨rfd, wfd, hne, hr, hw, hrun⟩
  · refine ⟨fun _ => Or.inl hfew, fun _ => ⟨_, _, hrun, Or.inr ⟨Or.inl rfl, rfl, rfl, rfl, ?_⟩⟩⟩
    rw [hin.allocated, hin.freed]
  have htwo : TwoSlots h.fdtable_ := ⟨rfd, wfd, hne, hr, hw⟩
  rcases h₀ : h.kalloc 0 with _ | wr
  · refine ⟨fun _ => Or.inr (Or.inl rfl), fun _ => ⟨_, _, hrun.trans (run_makePipe_none h₀),
      Or.inr ⟨Or.inr rfl, rfl, rfl, rfl, ?_⟩⟩⟩
    show h.freed.Perm ((h.kalloc 0).toList ++ h.allocated)
    rw [h₀, hin.allocated, hin.freed]
    rfl
  have hnot : ∀ i < 3, h.kalloc i = none →
      ¬ (¬ TwoSlots h.fdtable_ ∨ some wr = none ∨ ∀ i < 3, h.kalloc i ≠ none) := by
    rintro i hi hnone (hc | hc | hc)
    · exact hc htwo
    · cases hc
    · exact hc i hi hnone
  rcases h₁ : h.kalloc 1 with _ | bbuf
  · exact iff_of_false (not_handled (hrun.trans (run_makePipe_bare h₀ h₁))) (hnot 1 (by decide) h₁)
  rcases h₂ : h.kalloc 2 with _ | rd
  · exact iff_of_false (not_handled (hrun.trans (run_makePipe_single h₀ h₁ h₂)))
      (hnot 2 (by decide) h₂)
  have hall : ∀ i < 3, h.kalloc i ≠ none := by
    intro i hi
    interval_cases i <;> simp [h₀, h₁, h₂]
  refine ⟨fun _ => Or.inr (Or.inr hall), fun _ => ⟨_, _, hrun.trans (run_makePipe_piped h₀ h₁ h₂),
    Or.inl ⟨rfd, wfd, rd, wr, bbuf, hne, hr, hw, rfl, rfl, hin.vnodes 2 (by decide) rd h₂,
      hin.vnodes 0 (by decide) wr h₀, ?_, hin.bbufs 1 (by decide) bbuf h₁, rfl, rfl, hin.freed⟩⟩⟩
  rintro rfl
  exact absurd (hin.distinct 0 (by decide) 2 (by decide) _ h₀ h₂) (by decide)

/-- A process with its standard descriptors only, and calls of `kalloc` with the given outcomes. -/
def starting (kalloc : ℕ → Option ℕ) : Heap where
  vnodes p := if p = 1 then some ⟨.OF_READ, 3, none⟩ else none
  bbufs _ := none
  fdtable_ fd := if fd < 3 then some 1 else none
  kalloc := kalloc
  junk _ := 0
  allocated := []
  freed := []

/-- No pointer that it returns is in use. -/
theorem entered_starting {kalloc : ℕ → Option ℕ} (hk : ∀ i p, kalloc i = some p → p = i + 2) :
    Entered (starting kalloc) where
  vnodes i _ p hp := by
    have := hk i p hp
    show (if p = 1 then _ else _) = none
    rw [if_neg (by omega)]
  bbufs _ _ _ _ := rfl
  distinct i _ j _ p hi hj := by
    have h₁ := hk i p hi
    have h₂ := hk j p hj
    omega
  allocated := rfl
  freed := rfl

theorem syscall_pipe_starting : Handled (starting fun i => some (i + 2)) :=
  (syscall_pipe_iff (entered_starting fun _ _ hp => (Option.some.inj hp).symm)).mpr
    (Or.inr (Or.inr fun _ _ => Option.some_ne_none _))

/-- The kernel follows a null pointer when there is memory for one vnode only. -/
theorem syscall_pipe_one : Entered (starting fun i => if i = 0 then some 2 else none) ∧
    syscall_pipe (starting fun i => if i = 0 then some 2 else none) = .error .null ∧
    ¬ Handled (starting fun i => if i = 0 then some 2 else none) := by
  have hrun : syscall_pipe (starting fun i => if i = 0 then some 2 else none) =
      makePipe 3 4 (starting fun i => if i = 0 then some 2 else none) := rfl
  have herr := hrun.trans (run_makePipe_bare (p := 2) rfl rfl)
  refine ⟨entered_starting fun i p hp => ?_, herr, not_handled herr⟩
  by_cases hi : i = 0
  · rw [if_pos hi] at hp
    have := Option.some.inj hp
    omega
  · rw [if_neg hi] at hp
    cases hp

end Chickadee.Pipe
