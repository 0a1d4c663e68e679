import Chickadee.Fs.Fbb
import Chickadee.Lib.Account

/-!
# The kernel state of a file system call

A call of one task runs alone: it takes references to buffer cache entries (`bcentry::ref_`) and the
locks `fstlock`, `cwd` and `inode::mlock`, and gives them back. A pointer to an inode in the cache is its
inum, and a pointer to an entry names what the entry holds: the superblock, the bitmap, a block of the
inode table or another block.

The outcomes of `get_disk_entry` and of the allocators come from the environment. A call stops when an
assertion fails, when it follows a null pointer, or when it waits for a lock that someone holds.
-/

namespace Chickadee.Chkfs

open Lib Fs

abbrev inodesperblock : ℕ := 64
abbrev unlinked : ℕ := 1
abbrev maxnamelen : ℕ := 123

abbrev E_PERM : ℤ := -1
abbrev E_NOENT : ℤ := -2
abbrev E_IO : ℤ := -5
abbrev E_2BIG : ℤ := -7
abbrev E_NOEXEC : ℤ := -8
abbrev E_FAULT : ℤ := -14
abbrev E_MFILE : ℤ := -24
abbrev E_SAMENAME : ℤ := -34
abbrev E_NAMETOOLONG : ℤ := -36
abbrev E_NONEMPTY : ℤ := -39
abbrev E_GETOUT : ℤ := -40

/-- A string without its terminator. -/
abbrev Str : Type := List UInt8

/-- What a buffer cache entry holds. -/
inductive Entry
  | superblock
  | fbb
  /-- block `n` of the inode table -/
  | inodes (n : ℕ)
  /-- block `bn` of the data area -/
  | data (bn : ℕ)
  deriving DecidableEq

/-- The read/write locks: `fstlock`, the one of the working directory, and those of the inodes. -/
inductive Lock
  | fst
  | cwd
  | inode (i : ℕ)
  deriving DecidableEq

/-- The value of `mlock`: the number of readers, or `mlock_t(-1)` for a writer. -/
inductive Mlock
  | readers (n : ℕ)
  | writer
  deriving DecidableEq

/-- The number of readers. -/
@[simp] def Mlock.reading : Mlock → ℕ
  | .readers n => n
  | .writer => 0

/-- The number of writers. -/
@[simp] def Mlock.writing : Mlock → ℕ
  | .readers _ => 0
  | .writer => 1

/-- A slot of the descriptor table. -/
inductive Vnode
  | disk (ino mode : ℕ)
  | special (type mode : ℕ)
  | other
  deriving DecidableEq

structure Kernel where
  disk : Disk
  ref_ : Entry → ℕ
  mlock : Lock → Mlock
  /-- the inode of each live `disk_vnode` -/
  disk_vnodes : Multiset ℕ
  fdtable_ : ℕ → Option Vnode
  /-- the working directory -/
  name : Str
  /-- the outcomes of the memory allocations to come -/
  mem : ℕ → Bool
  /-- what a buffer on the kernel stack holds before it is written -/
  stack : Str
  sata_disk : Bool

/-- Why a call does not return. -/
inductive Fault
  /-- `bcentry::put` of an entry whose `ref_` is 0 -/
  | put (e : Entry)
  /-- the assertion of `unlock_read` or `unlock_write` fails -/
  | unlock (l : Lock)
  /-- another assertion fails, or a null pointer is followed -/
  | assertion
  /-- the lock is held -/
  | wait (l : Lock)
  /-- a loop or a recursion goes on for longer than the given fuel -/
  | fuel
  deriving DecidableEq

abbrev M (α : Type) : Type := StateT Kernel (Except Fault) α

/-- Whether a call returns. -/
def Returns {α : Type} (x : M α) (k : Kernel) (a : α) (k' : Kernel) : Prop := x k = .ok (a, k')

/-- A call returns in one way at most. -/
theorem Returns.unique {α : Type} {x : M α} {k k₁ k₂ : Kernel} {a b : α} (h₁ : Returns x k a k₁)
    (h₂ : Returns x k b k₂) : a = b ∧ k₁ = k₂ :=
  Prod.mk.inj (Except.ok.inj (h₁.symm.trans h₂))

/-- What returns has two parts that return. -/
theorem Returns.bind {α β : Type} {x : M α} {f : α → M β} {k k' : Kernel} {b : β}
    (h : Returns (x >>= f) k b k') : ∃ a k₁, Returns x k a k₁ ∧ Returns (f a) k₁ b k' := by
  unfold Returns at h
  cases hx : x k with
  | error e =>
    rw [bind_error hx] at h
    cases h
  | ok r =>
    rw [bind_ok hx] at h
    exact ⟨r.1, r.2, hx, h⟩

/-! ## The account -/

/-- What a task owns: references, locks, and vnodes it has made. -/
inductive Token
  | ref (e : Entry)
  | read (l : Lock)
  | write (l : Lock)
  | vnode (i : ℕ)
  deriving DecidableEq

/-- References and lock holders are counted; a `put` or an unlock too many must not happen. -/
def ledger : Ledger Kernel Fault Token where
  count k
    | .ref e => k.ref_ e
    | .read l => (k.mlock l).reading
    | .write l => (k.mlock l).writing
    | .vnode i => k.disk_vnodes.count i
  bad
    | .put _ => True
    | .unlock _ => True
    | _ => False

/-- A change of the state that leaves references, locks and vnodes alone. -/
theorem moves_modify {g : Kernel → Kernel} (href : ∀ k, (g k).ref_ = k.ref_)
    (hlock : ∀ k, (g k).mlock = k.mlock) (hvnode : ∀ k, (g k).disk_vnodes = k.disk_vnodes) :
    ledger.Moves 0 (modify g : M Unit) fun _ => 0 := by
  refine fun k _ => ⟨0, rfl, ⟨fun t => ?_⟩⟩
  show ledger.count (g k) t + 0 = ledger.count k t + 0
  unfold ledger
  dsimp only
  rw [href, hlock, hvnode]

/-- `assert(p)`, also for a pointer that is followed. -/
def assert (p : Prop) [Decidable p] : M Unit := if p then pure () else throw .assertion

theorem moves_assert (p : Prop) [Decidable p] : ledger.Moves 0 (assert p) fun _ => 0 := by
  unfold assert
  split
  · exact .pure rfl
  · exact .throw id

/-- What was asserted holds from there on. -/
theorem moves_check {α : Type} {p : Prop} [Decidable p] {P : Multiset Token} {f : Unit → M α}
    {post : α → Multiset Token} (hf : p → ledger.Moves P (f ()) post) :
    ledger.Moves P (assert p >>= f) post := by
  unfold assert
  split
  · next hp =>
    rw [pure_bind]
    exact hf hp
  · exact fun _ _ => id

/-! ## References -/

/-- `bc.get_disk_entry(bn)`: whether there is an entry. -/
def get_disk_entry (e : Entry) : M Bool := fun k =>
  let (ok, d) := k.disk.get_disk_entry
  .ok (ok, { k with
    disk := d
    ref_ := if ok = true then Function.update k.ref_ e (k.ref_ e + 1) else k.ref_ })

/-- `bc.get_disk_entry(bn)` for a block that has just been allocated to hold extents. -/
def get_new_entry (e : Entry) : M Bool := fun k =>
  let (ok, d) := k.disk.get_new_entry
  .ok (ok, { k with
    disk := d
    ref_ := if ok = true then Function.update k.ref_ e (k.ref_ e + 1) else k.ref_ })

/-- `bcentry::put` -/
def put (e : Entry) : M Unit := fun k =>
  if k.ref_ e = 0 then .error (.put e)
  else .ok ((), { k with ref_ := Function.update k.ref_ e (k.ref_ e - 1) })

/-- A call of `get_disk_entry` is used up. -/
def Kernel.tick (k : Kernel) : Kernel := { k with disk := k.disk.get_disk_entry.2 }

/-- One reference more. -/
def Kernel.addRef (k : Kernel) (e : Entry) : Kernel :=
  { k with ref_ := Function.update k.ref_ e (k.ref_ e + 1) }

theorem get_disk_entry_true {k : Kernel} (h : k.disk.avail 0 = true) (e : Entry) :
    get_disk_entry e k = .ok (true, k.tick.addRef e) := by
  show Except.ok (k.disk.avail 0, _) = _
  rw [h]
  rfl

theorem get_disk_entry_false {k : Kernel} (h : k.disk.avail 0 = false) (e : Entry) :
    get_disk_entry e k = .ok (false, k.tick) := by
  show Except.ok (k.disk.avail 0, _) = _
  rw [h]
  rfl

/-- A reference that was just taken is put back. -/
theorem put_ref (k : Kernel) (e : Entry) : put e (k.addRef e) = .ok ((), k) := by
  have hone : Function.update k.ref_ e (k.ref_ e + 1) e = k.ref_ e + 1 := Function.update_self _ _ _
  unfold put Kernel.addRef
  dsimp only
  rw [if_neg (by rw [hone]; omega), hone, Nat.add_sub_cancel, Function.update_idem,
    Function.update_eq_self]

/-- The reference that a call of `get_disk_entry` may give. -/
def gained (e : Entry) (ok : Bool) : Multiset Token := if ok = true then {.ref e} else 0

theorem change_ref {k k' : Kernel} {e : Entry} {n : ℕ} {pre m : Multiset Token}
    (href : k'.ref_ = Function.update k.ref_ e n) (hlock : k'.mlock = k.mlock)
    (hvnode : k'.disk_vnodes = k.disk_vnodes)
    (he : n + pre.count (.ref e) = k.ref_ e + m.count (.ref e))
    (hother : ∀ t, t ≠ .ref e → pre.count t = m.count t) : ledger.Change k k' pre m := by
  refine ⟨fun t => ?_⟩
  unfold ledger
  dsimp only
  rw [href, hlock, hvnode]
  by_cases ht : t = .ref e
  · subst ht
    dsimp only
    rw [Function.update_self]
    exact he
  · rw [hother t ht]
    cases t with
    | ref e' =>
      have hne : e' ≠ e := fun h => ht (h ▸ rfl)
      dsimp only
      rw [Function.update_of_ne hne]
    | read l => rfl
    | write l => rfl
    | vnode i => rfl

theorem change_gained {k k' : Kernel} {e : Entry} {ok : Bool}
    (href : k'.ref_ = if ok = true then Function.update k.ref_ e (k.ref_ e + 1) else k.ref_)
    (hlock : k'.mlock = k.mlock) (hvnode : k'.disk_vnodes = k.disk_vnodes) :
    ledger.Change k k' 0 (gained e ok) := by
  refine change_ref (e := e) (n := k.ref_ e + (gained e ok).count (.ref e)) ?_ hlock hvnode rfl fun t ht => ?_
  · rw [href]
    cases ok with
    | true => simp [gained]
    | false => simp [gained]
  · cases ok with
    | true => simp [gained, ht]
    | false => rfl

theorem moves_get_disk_entry (e : Entry) : ledger.Moves 0 (get_disk_entry e) (gained e) := by
  intro k _
  refine ⟨gained e k.disk.get_disk_entry.1, rfl, ?_⟩
  exact change_gained rfl rfl rfl

theorem moves_get_new_entry (e : Entry) : ledger.Moves 0 (get_new_entry e) (gained e) := by
  intro k _
  refine ⟨gained e k.disk.get_new_entry.1, rfl, ?_⟩
  exact change_gained rfl rfl rfl

theorem moves_put (e : Entry) : ledger.Moves {.ref e} (put e) fun _ => 0 := by
  intro k hpre
  have hone : 1 ≤ k.ref_ e := by
    have := hpre (.ref e)
    rwa [Multiset.count_singleton_self] at this
  unfold put
  rw [if_neg (by omega)]
  refine ⟨0, rfl, ?_⟩
  refine change_ref (e := e) rfl rfl rfl ?_ fun t ht => ?_
  · rw [Multiset.count_singleton_self, Multiset.count_zero]
    omega
  · rw [Multiset.count_singleton, if_neg ht, Multiset.count_zero]

/-! ## Locks -/

/-- `mlock_t(-2)`: from here on `lock_read` waits. -/
abbrev full : ℕ := 254

/-- `lock_read` -/
def lock_read (l : Lock) : M Unit := fun k =>
  match k.mlock l with
  | .readers n =>
    if full ≤ n then .error (.wait l)
    else .ok ((), { k with mlock := Function.update k.mlock l (.readers (n + 1)) })
  | .writer => .error (.wait l)

/-- `unlock_read` -/
def unlock_read (l : Lock) : M Unit := fun k =>
  match k.mlock l with
  | .readers (n + 1) => .ok ((), { k with mlock := Function.update k.mlock l (.readers n) })
  | _ => .error (.unlock l)

/-- `lock_write`. The one of an inode asserts that there is no writer. -/
def lock_write (l : Lock) : M Unit := fun k =>
  match k.mlock l with
  | .readers 0 => .ok ((), { k with mlock := Function.update k.mlock l .writer })
  | _ => .error (.wait l)

/-- `unlock_write` -/
def unlock_write (l : Lock) : M Unit := fun k =>
  match k.mlock l with
  | .writer => .ok ((), { k with mlock := Function.update k.mlock l (.readers 0) })
  | _ => .error (.unlock l)

theorem change_lock {k k' : Kernel} {l : Lock} {v : Mlock} {pre m : Multiset Token}
    (href : k'.ref_ = k.ref_) (hlock : k'.mlock = Function.update k.mlock l v)
    (hvnode : k'.disk_vnodes = k.disk_vnodes)
    (hread : v.reading + pre.count (.read l) = (k.mlock l).reading + m.count (.read l))
    (hwrite : v.writing + pre.count (.write l) = (k.mlock l).writing + m.count (.write l))
    (hother : ∀ t, t ≠ .read l → t ≠ .write l → pre.count t = m.count t) : ledger.Change k k' pre m := by
  refine ⟨fun t => ?_⟩
  by_cases hr : t = .read l
  · subst hr
    show (k'.mlock l).reading + _ = (k.mlock l).reading + _
    rw [← hread, hlock, Function.update_self]
  by_cases hw : t = .write l
  · subst hw
    show (k'.mlock l).writing + _ = (k.mlock l).writing + _
    rw [← hwrite, hlock, Function.update_self]
  rw [hother t hr hw]
  unfold ledger
  dsimp only
  rw [href, hlock, hvnode]
  cases t with
  | ref e => rfl
  | vnode i => rfl
  | read l' =>
    have hne : l' ≠ l := fun h => hr (h ▸ rfl)
    dsimp only
    rw [Function.update_of_ne hne]
  | write l' =>
    have hne : l' ≠ l := fun h => hw (h ▸ rfl)
    dsimp only
    rw [Function.update_of_ne hne]

theorem moves_lock_read (l : Lock) : ledger.Moves 0 (lock_read l) fun _ => {.read l} := by
  intro k _
  unfold lock_read
  cases hl : k.mlock l with
  | writer => exact id
  | readers n =>
    by_cases hfull : full ≤ n
    · simp only [if_pos hfull]
      exact id
    · simp only [if_neg hfull]
      refine ⟨_, rfl, ?_⟩
      refine change_lock (l := l) rfl rfl rfl ?_ ?_ fun t hr _ => ?_
      · simp [hl]
      · simp [hl]
      · simp [hr]

theorem moves_unlock_read (l : Lock) : ledger.Moves {.read l} (unlock_read l) fun _ => 0 := by
  intro k hpre
  have hone : 1 ≤ (k.mlock l).reading := by
    have := hpre (.read l)
    rwa [Multiset.count_singleton_self] at this
  unfold unlock_read
  cases hl : k.mlock l with
  | writer =>
    rw [hl] at hone
    exact absurd hone (by decide)
  | readers n =>
    cases n with
    | zero =>
      rw [hl] at hone
      exact absurd hone (by decide)
    | succ n =>
      refine ⟨0, rfl, ?_⟩
      refine change_lock (l := l) rfl rfl rfl ?_ ?_ fun t hr _ => ?_
      · simp [hl]
      · simp [hl]
      · simp [hr]

theorem moves_lock_write (l : Lock) : ledger.Moves 0 (lock_write l) fun _ => {.write l} := by
  intro k _
  unfold lock_write
  cases hl : k.mlock l with
  | writer => exact id
  | readers n =>
    cases n with
    | succ n => exact id
    | zero =>
      refine ⟨_, rfl, ?_⟩
      refine change_lock (l := l) rfl rfl rfl ?_ ?_ fun t _ hw => ?_
      · simp [hl]
      · simp [hl]
      · simp [hw]

theorem moves_unlock_write (l : Lock) : ledger.Moves {.write l} (unlock_write l) fun _ => 0 := by
  intro k hpre
  have hone : 1 ≤ (k.mlock l).writing := by
    have := hpre (.write l)
    rwa [Multiset.count_singleton_self] at this
  unfold unlock_write
  cases hl : k.mlock l with
  | readers n =>
    rw [hl] at hone
    exact absurd hone (by simp)
  | writer =>
    refine ⟨0, rfl, ?_⟩
    refine change_lock (l := l) rfl rfl rfl ?_ ?_ fun t _ hw => ?_
    · simp [hl]
    · simp [hl]
    · simp [hw]

/-! ## Memory -/

/-- `kalloc`, `knew` and `try_map`: whether there is memory. -/
def kalloc : M Bool := fun k => .ok (k.mem 0, { k with mem := fun j => k.mem (j + 1) })

theorem moves_kalloc : ledger.Moves 0 kalloc fun _ => 0 :=
  fun _ _ => ⟨0, rfl, ⟨fun _ => rfl⟩⟩

/-! ## Inodes and blocks in the cache -/

/-- A change of an inode. -/
def set_inode (i : ℕ) (f : Inode → Inode) : M Unit :=
  modify fun k => { k with disk := k.disk.setInode i (f (k.disk.inode i)) }

/-- A change of the contents of a block. -/
def set_buf (bn : ℕ) (f : Block → Block) : M Unit :=
  modify fun k => { k with disk := k.disk.setBuf bn (f (k.disk.buf bn)) }

theorem moves_set_inode (i : ℕ) (f : Inode → Inode) : ledger.Moves 0 (set_inode i f) fun _ => 0 :=
  moves_modify (fun _ => rfl) (fun _ => rfl) fun _ => rfl

theorem moves_set_buf (bn : ℕ) (f : Block → Block) : ledger.Moves 0 (set_buf bn f) fun _ => 0 :=
  moves_modify (fun _ => rfl) (fun _ => rfl) fun _ => rfl

/-! ## The superblock and the free block bitmap -/

/-- The superblock is looked up, which is asserted to succeed, and its entry is put back. -/
def superblock : M Unit := do
  let ok ← get_disk_entry .superblock
  assert (ok = true)
  put .superblock

theorem moves_superblock : ledger.Moves 0 superblock fun _ => 0 := by
  refine (moves_get_disk_entry _).bind fun ok => moves_check fun hok => ?_
  subst hok
  exact moves_put _

theorem superblock_run (k : Kernel) :
    superblock k = if k.disk.avail 0 = true then .ok ((), k.tick) else .error .assertion := by
  unfold superblock
  cases havail : k.disk.avail 0 with
  | false =>
    rw [bind_ok (get_disk_entry_false havail _)]
    rfl
  | true =>
    rw [bind_ok (get_disk_entry_true havail _), if_pos rfl]
    exact put_ref k.tick .superblock

/-- The bitmap is replaced. -/
def set_fbb (fbb : Words) : M Unit := modify fun k => { k with disk := { k.disk with fbb := fbb } }

theorem moves_set_fbb (fbb : Words) : ledger.Moves 0 (set_fbb fbb) fun _ => 0 :=
  moves_modify (fun _ => rfl) (fun _ => rfl) fun _ => rfl

/-- `free_extent(first, count)`. A missing entry for the bitmap is followed. -/
def free_extent (first count : ℕ) : M Unit := do
  superblock
  if (← get_disk_entry .fbb) = true then
    match markRange (← get).disk.fbb true first count with
    | some fbb =>
      set_fbb fbb
      put .fbb
    | none => throw .assertion
  else throw .assertion

theorem moves_free_extent (first count : ℕ) : ledger.Moves 0 (free_extent first count) fun _ => 0 := by
  refine moves_superblock.skip fun _ => (moves_get_disk_entry _).bind fun ok => ?_
  split
  · next hok =>
    subst hok
    refine .get fun k => ?_
    split
    · exact (moves_set_fbb _).skip fun _ => moves_put _
    · exact .throw id
  · exact .throw id

/-- `allocate_extent(count)`: a block number, or an error code converted to one. -/
def allocate_extent (count : ℕ) : M ℕ := do
  if 2 ^ 15 < count then return u32 E_FBIG
  else
    superblock
    if (← get_disk_entry .fbb) = true then
      match find_free_range (← get).disk.fbb count 0 with
      | none => throw .assertion
      | some first =>
        if first = u32 (-1) then
          put .fbb
          return u32 E_NOSPC
        else
          match markRange (← get).disk.fbb false first count with
          | none => throw .assertion
          | some fbb =>
            set_fbb fbb
            put .fbb
            return first
    else return u32 E_NOSPC

theorem moves_allocate_extent (count : ℕ) : ledger.Moves 0 (allocate_extent count) fun _ => 0 := by
  unfold allocate_extent
  split
  · exact .pure rfl
  refine moves_superblock.skip fun _ => (moves_get_disk_entry _).bind fun ok => ?_
  split
  swap
  · next hok =>
    rw [Bool.not_eq_true] at hok
    subst hok
    exact .pure rfl
  next hok =>
  subst hok
  refine .get fun k => ?_
  split
  · exact .throw id
  split
  · exact (moves_put _).bind fun _ => .pure rfl
  refine .get fun k => ?_
  split
  · exact .throw id
  · exact (moves_set_fbb _).skip fun _ => (moves_put _).bind fun _ => .pure rfl

end Chickadee.Chkfs
