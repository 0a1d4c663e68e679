import Chickadee.Chkfs.Iter

/-!
# `get_inode`, `inode::put`, `allocate_inode` and `free_inode(dirino, ino)`

A pointer to an inode comes with a reference to the entry of its block in the inode table.
-/

namespace Chickadee.Chkfs

open Lib Fs

/-- The entry of the block of the inode table that holds an inode. -/
abbrev inodeEntry (i : ℕ) : Entry := .inodes (i / inodesperblock)

/-- The references of some pointers to inodes. -/
def refs (is : List ℕ) : Multiset Token := (is : Multiset ℕ).map fun i => Token.ref (inodeEntry i)

theorem refs_append (is js : List ℕ) : refs (is ++ js) = refs is + refs js := by
  unfold refs
  rw [← Multiset.coe_add, Multiset.map_add]

theorem refs_cons (i : ℕ) (is : List ℕ) : refs (i :: is) = {.ref (inodeEntry i)} + refs is :=
  refs_append [i] is

theorem refs_eq_zero_iff {is : List ℕ} : refs is = 0 ↔ is = [] := by
  unfold refs
  rw [Multiset.map_eq_zero, Multiset.coe_eq_zero]

/-- The reference that comes with a pointer to an inode, which may be null. -/
def inodeRef : Option ℕ → Multiset Token
  | some i => {.ref (inodeEntry i)}
  | none => 0

/-- `ino_to_inum(ino)` -/
def ino_to_inum (i : ℕ) : M ℕ := do
  superblock
  return i

/-- `get_inode(inum)` -/
def get_inode (inum : ℕ) : M (Option ℕ) := do
  superblock
  if 0 < inum ∧ inum < (← get).disk.sb.ninodes then
    if (← get_disk_entry (inodeEntry inum)) = true then return some inum
    else return none
  else return none

theorem ino_to_inum_eq {i inum : ℕ} {k k' : Kernel} (h : Returns (ino_to_inum i) k inum k') : inum = i := by
  obtain ⟨_, _, -, h⟩ := h.bind
  cases h
  rfl

theorem get_inode_eq {inum i : ℕ} {k k' : Kernel} (h : Returns (get_inode inum) k (some i) k') : i = inum := by
  obtain ⟨_, k₁, -, h⟩ := h.bind
  obtain ⟨_, _, hk, h⟩ := h.bind
  split at h
  · obtain ⟨ok, k₂, -, h⟩ := h.bind
    split at h <;> cases h
    rfl
  · cases h

theorem moves_ino_to_inum (i : ℕ) : ledger.Moves 0 (ino_to_inum i) fun _ => 0 :=
  moves_superblock.skip fun _ => .pure rfl

theorem moves_get_inode (inum : ℕ) : ledger.Moves 0 (get_inode inum) inodeRef := by
  refine moves_superblock.skip fun _ => .get fun k => ?_
  split
  · refine (moves_get_disk_entry _).bind fun ok => ?_
    cases ok with
    | true => exact .pure rfl
    | false => exact .pure rfl
  · exact .pure rfl

/-! ## `free_inode(dirino, ino)` -/

/-- The loop over the direct extents: the index at which it ends. -/
def freeDirect (i : ℕ) : ℕ → ℕ → M ℕ
  | 0, eidx => return eidx
  | n + 1, eidx => do
    let ex := ((← get).disk.inode i).direct eidx
    if ex.count = 0 then return eidx
    else
      free_extent ex.first ex.count
      set_inode i fun ino => { ino with direct := Function.update ino.direct eidx ⟨0, 0⟩ }
      freeDirect i n (eidx + 1)

/--
The indirect extents. The loop over them reads the buffer cache entry in place of its block, and ends at
once: there the count of the first extent is the lock of the entry, which nobody holds.
-/
def freeIndirect (i eidx : ℕ) : M Unit := do
  let indirect := ((← get).disk.inode i).indirect
  if eidx = ndirect ∧ indirect.count ≠ 0 then
    assert (indirect.count = 1)
    let iee ← get_disk_entry (.data indirect.first)
    assert (iee = true)
    free_extent indirect.first indirect.count
    put (.data indirect.first)
  else return

/-- `free_inode(dirino, ino)` -/
def free_inode_in (dirino i : ℕ) : M ℤ := do
  assert (dirino ≠ i)
  lock_write (.inode i)
  let eidx ← freeDirect i ndirect 0
  freeIndirect i eidx
  set_inode i fun ino => { ino with type := 0, size := 0, nlink := 0 }
  unlock_write (.inode i)
  return 0

theorem moves_freeDirect (i n eidx : ℕ) : ledger.Moves 0 (freeDirect i n eidx) fun _ => 0 := by
  induction n generalizing eidx with
  | zero => exact .pure rfl
  | succ n ih =>
    refine .get fun k => ?_
    dsimp only
    split
    · exact .pure rfl
    · exact (moves_free_extent _ _).skip fun _ => (moves_set_inode _ _).skip fun _ => ih _

theorem moves_freeIndirect (i eidx : ℕ) : ledger.Moves 0 (freeIndirect i eidx) fun _ => 0 := by
  refine .get fun k => ?_
  dsimp only
  split
  · refine moves_check fun _ => (moves_get_disk_entry _).bind fun iee => moves_check fun hiee => ?_
    subst hiee
    exact (moves_free_extent _ _).skip fun _ => moves_put _
  · exact .pure rfl

theorem moves_free_inode_in (dirino i : ℕ) : ledger.Moves 0 (free_inode_in dirino i) fun _ => 0 := by
  refine moves_check fun _ => (moves_lock_write _).bind fun _ => ?_
  refine (moves_freeDirect _ _ _).skip fun eidx => (moves_freeIndirect _ _).skip fun _ => ?_
  exact (moves_set_inode _ _).skip fun _ => (moves_unlock_write _).bind fun _ => .pure rfl

/-! ## `inode::put` -/

/-- The count in the inode of a file goes down when a vnode is deleted. -/
def dropCount (i : ℕ) (user_file : Bool) : M Unit :=
  if user_file = true then set_inode i fun ino => { ino with flags := u32 ((ino.flags : ℤ) - 2) }
  else return

/-- What `inode::put` does with a file: it is freed if it is unlinked and the count is 0. -/
def release (free : ℕ → M ℤ) (i : ℕ) (user_file : Bool) : M Unit := do
  if ((← get).disk.inode i).type = type_regular then
    lock_write (.inode i)
    dropCount i user_file
    let flags := ((← get).disk.inode i).flags
    if flags / 2 = 0 ∧ flags % 2 = unlinked then
      unlock_write (.inode i)
      let r ← free i
      assert (r = 0)
    else unlock_write (.inode i)
  else return

/-- `inode::put(user_file)`, where `free` is `fs.free_inode(this)`. -/
def putWith (free : ℕ → M ℤ) (i : ℕ) (user_file : Bool) : M Unit := do
  release free i user_file
  put (inodeEntry i)

/-- `free_inode(ino)` refuses inode 1. -/
def free_root (i : ℕ) : M ℤ := do
  let _ ← ino_to_inum i
  return E_INVAL

/-- `free_inode(ino)` for a file that is unlinked: the directory is not looked for. -/
def free_unlinked (i : ℕ) : M ℤ := do
  let inum ← ino_to_inum i
  if inum ≤ 1 then return E_INVAL
  else match ← get_inode 1 with
    | none => return E_NOENT
    | some root_dirino =>
      assert (i ≠ root_dirino)
      assert (((← get).disk.inode i).type ≠ 0)
      lock_write (.inode i)
      set_inode i fun ino => { ino with flags := ino.flags / 2 * 2 + linked }
      unlock_write (.inode i)
      let _ ← ino_to_inum root_dirino
      let r ← free_inode_in root_dirino i
      putWith free_root root_dirino false
      return r

/-- `inode::put(user_file)` -/
def inode_put (i : ℕ) (user_file : Bool) : M Unit := putWith free_unlinked i user_file

theorem moves_dropCount (i : ℕ) (user_file : Bool) :
    ledger.Moves 0 (dropCount i user_file) fun _ => 0 := by
  unfold dropCount
  split
  · exact moves_set_inode _ _
  · exact .pure rfl

theorem moves_putWith {free : ℕ → M ℤ} (hfree : ∀ i, ledger.Moves 0 (free i) fun _ => 0) (i : ℕ)
    (user_file : Bool) :
    ledger.Moves {.ref (inodeEntry i)} (putWith free i user_file) fun _ => 0 := by
  have hrelease : ledger.Moves 0 (release free i user_file) fun _ => 0 := by
    refine .get fun k => ?_
    split
    swap
    · exact .pure rfl
    refine (moves_lock_write _).bind fun _ => (moves_dropCount _ _).skip fun _ => .get fun k => ?_
    dsimp only
    split
    · exact (moves_unlock_write _).bind fun _ => (hfree i).skip fun r => moves_assert _
    · exact moves_unlock_write _
  exact hrelease.skip fun _ => moves_put _

theorem moves_free_root (i : ℕ) : ledger.Moves 0 (free_root i) fun _ => 0 :=
  (moves_ino_to_inum i).skip fun _ => .pure rfl

theorem moves_free_unlinked (i : ℕ) : ledger.Moves 0 (free_unlinked i) fun _ => 0 := by
  refine (moves_ino_to_inum i).skip fun inum => ?_
  split
  · exact .pure rfl
  refine (moves_get_inode 1).bind fun root => ?_
  cases root with
  | none => exact .pure rfl
  | some root_dirino =>
    refine moves_check fun _ => .get fun k => moves_check fun _ => ?_
    refine (moves_lock_write _).call (zero_add _).symm fun _ => (moves_set_inode _ _).skip fun _ => ?_
    refine (moves_unlock_write _).call rfl fun _ => ?_
    rw [zero_add]
    refine (moves_ino_to_inum _).skip fun _ => (moves_free_inode_in _ _).skip fun r => ?_
    exact (moves_putWith moves_free_root _ _).bind fun _ => .pure rfl

/-- **`inode::put` gives back the reference, and whatever else it takes.** -/
theorem moves_inode_put (i : ℕ) (user_file : Bool) :
    ledger.Moves {.ref (inodeEntry i)} (inode_put i user_file) fun _ => 0 :=
  moves_putWith moves_free_unlinked i user_file

/-! ## `allocate_inode` -/

/--
The loop of `allocate_inode`, with `n` inodes to go from `inum` on. The entry of an inode that is in use
is not put back.
-/
def allocateLoop (type : ℕ) : ℕ → ℕ → M ℕ
  | 0, _ => return 0
  | n + 1, inum => do
    if (← get_disk_entry (inodeEntry inum)) = true then
      if ((← get).disk.inode inum).type ≠ 0 then allocateLoop type n (inum + 1)
      else
        -- under the lock the type is read again: this task runs alone
        lock_write (.inode inum)
        set_inode inum fun ino => { ino with type := type, flags := linked, size := 0, nlink := 1 }
        unlock_write (.inode inum)
        inode_put inum false
        return inum
    else allocateLoop type n (inum + 1)

/-- `allocate_inode(type)`: the number of the inode, or 0. -/
def allocate_inode (type : ℕ) : M ℕ := do
  superblock
  allocateLoop type ((← get).disk.sb.ninodes - 2) 2

/-- The references that the loop keeps, with `n` inodes to go from `inum` on. -/
def passed (d : Disk) : ℕ → ℕ → Multiset Token
  | 0, _ => 0
  | n + 1, inum =>
    let (ok, d) := d.get_disk_entry
    if ok = true then
      if (d.inode inum).type ≠ 0 then {.ref (inodeEntry inum)} + passed d n (inum + 1) else 0
    else passed d n (inum + 1)

/-- The references that `allocate_inode` keeps. -/
def passedInodes (d : Disk) : Multiset Token := passed d.get_disk_entry.2 (d.sb.ninodes - 2) 2

/-- The inode `2 + j` is looked at, and its entry is there. -/
def Looked (d : Disk) (j : ℕ) : Prop := 2 + j < d.sb.ninodes ∧ d.avail (j + 1) = true

instance (d : Disk) (j : ℕ) : Decidable (Looked d j) := inferInstanceAs (Decidable (_ ∧ _))

/-- The first inode that is looked at is in use. -/
def Passes (d : Disk) : Prop :=
  ∃ j < d.sb.ninodes, Looked d j ∧ (d.inode (2 + j)).type ≠ 0 ∧ ∀ j' < j, ¬ Looked d j'

/-- No inode is free. -/
def NoneFree (d : Disk) : Prop :=
  ∀ j < d.sb.ninodes, Looked d j → (d.inode (2 + j)).type ≠ 0

instance (d : Disk) : Decidable (Passes d) :=
  inferInstanceAs (Decidable (∃ j < d.sb.ninodes, _ ∧ _ ∧ ∀ j' < j, _))

instance (d : Disk) : Decidable (NoneFree d) :=
  inferInstanceAs (Decidable (∀ j < d.sb.ninodes, _ → _))

/-- What the loop does to the tokens, and when it returns 0. -/
theorem at_allocateLoop (type n inum : ℕ) (hinum : 0 < inum) (k : Kernel) :
    ledger.At k 0 (allocateLoop type n inum) fun r m => m = passed k.disk n inum ∧
      (r = 0 ↔ ∀ j < n, k.disk.avail j = true → (k.disk.inode (inum + j)).type ≠ 0) := by
  induction n generalizing inum k with
  | zero => exact .pure ⟨rfl, fun _ j hj => absurd hj (Nat.not_lt_zero j), fun _ => rfl⟩
  | succ n ih =>
    refine (moves_get_disk_entry _ k).bind fun ok k₁ m hk hm => ?_
    obtain ⟨rfl, rfl⟩ := Prod.mk.inj (Except.ok.inj hk)
    subst hm
    have hshift : ∀ j, inum + 1 + j = inum + (j + 1) := fun j => by omega
    have hih := fun k => ih (inum + 1) (Nat.succ_pos inum) k
    simp only [hshift] at hih
    rw [Nat.forall_lt_succ_left]
    unfold passed
    cases havail : k.disk.avail 0 with
    | false =>
      have hentry : k.disk.get_disk_entry.1 = false := havail
      simp only [hentry, Bool.false_eq_true, if_false, false_implies, true_and]
      exact hih _
    | true =>
      have hentry : k.disk.get_disk_entry.1 = true := havail
      simp only [hentry, if_true, true_implies, Nat.add_zero]
      refine .get ?_
      by_cases htype : (k.disk.inode inum).type ≠ 0
      · -- the inode is in use: its entry is kept
        rw [if_pos htype]
        refine ((hih _).keep _).mono ?_
        rintro r _ ⟨m, ⟨rfl, hr⟩, rfl⟩
        refine ⟨?_, hr.trans ⟨fun h => ⟨htype, h⟩, fun h => h.2⟩⟩
        exact (add_comm _ _).trans (if_pos htype).symm
      · rw [if_neg htype]
        refine .call (moves_lock_write _) (zero_add _).symm fun _ _ _ => ?_
        refine .skip (moves_set_inode _ _) fun _ _ _ => ?_
        refine .call (moves_unlock_write _) rfl fun _ _ _ => ?_
        refine .call (moves_inode_put _ _) (add_comm _ _) fun _ _ _ => ?_
        exact .pure ⟨(if_neg htype).symm, fun h => absurd h (by omega), fun h => absurd h.1 htype⟩

/-- The loop keeps a reference exactly if the first inode it looks at is in use. -/
theorem passed_ne_zero_iff (d : Disk) (n inum : ℕ) :
    passed d n inum ≠ 0 ↔ ∃ j < n, d.avail j = true ∧ (d.inode (inum + j)).type ≠ 0 ∧
      ∀ j' < j, d.avail j' = false := by
  induction n generalizing d inum with
  | zero => exact ⟨fun h => absurd rfl h, fun ⟨j, hj, _⟩ => absurd hj (Nat.not_lt_zero j)⟩
  | succ n ih =>
    rw [Nat.exists_lt_succ_left]
    unfold passed
    cases havail : d.avail 0 with
    | false =>
      have hentry : d.get_disk_entry.1 = false := havail
      simp only [hentry, Bool.false_eq_true, if_false, false_and, false_or]
      refine (ih _ _).trans (exists_congr fun j => and_congr_right fun _ => and_congr_right fun _ => ?_)
      rw [Nat.forall_lt_succ_left, show inum + 1 + j = inum + (j + 1) by omega]
      exact and_congr_right fun _ => ⟨fun h => ⟨havail, h⟩, fun h => h.2⟩
    | true =>
      have hentry : d.get_disk_entry.1 = true := havail
      simp only [hentry, if_true, true_and, Nat.add_zero]
      have hnone : ∀ j, ¬ ∀ j' < j + 1, d.avail j' = false := fun j h => by
        rw [h 0 (Nat.succ_pos j)] at havail
        exact absurd havail (by decide)
      by_cases htype : (d.inode inum).type ≠ 0
      · rw [if_pos (show (d.get_disk_entry.2.inode inum).type ≠ 0 from htype)]
        refine ⟨fun _ => .inl ⟨htype, fun j' hj' => absurd hj' (Nat.not_lt_zero j')⟩, fun _ h => ?_⟩
        have := congrArg Multiset.card h
        simp at this
      · rw [if_neg (show ¬ (d.get_disk_entry.2.inode inum).type ≠ 0 from htype)]
        refine ⟨fun h => absurd rfl h, ?_⟩
        rintro (⟨h, -⟩ | ⟨j, -, -, -, h⟩)
        · exact absurd h htype
        · exact absurd h (hnone j)

/-- Only references. -/
def OnlyRefs (m : Multiset Token) : Prop := ∀ t ∈ m, ∃ e, t = .ref e

theorem onlyRefs_zero : OnlyRefs 0 := fun _ h => absurd h (Multiset.notMem_zero _)

theorem onlyRefs_singleton (e : Entry) : OnlyRefs {.ref e} := fun _ h =>
  ⟨e, Multiset.mem_singleton.mp h⟩

theorem OnlyRefs.add {m n : Multiset Token} (hm : OnlyRefs m) (hn : OnlyRefs n) : OnlyRefs (m + n) :=
  fun t h => (Multiset.mem_add.mp h).elim (hm t) (hn t)

theorem onlyRefs_refs (is : List ℕ) : OnlyRefs (refs is) := fun _ h =>
  (Multiset.mem_map.mp h).elim fun _ hi => ⟨_, hi.2.symm⟩

theorem onlyRefs_passed (d : Disk) (n inum : ℕ) : OnlyRefs (passed d n inum) := by
  induction n generalizing d inum with
  | zero => exact onlyRefs_zero
  | succ n ih =>
    unfold passed
    dsimp only
    split_ifs
    · exact (onlyRefs_singleton _).add (ih _ _)
    · exact onlyRefs_zero
    · exact ih _ _

/-- **`allocate_inode` keeps references only if the first inode it looks at is in use.** -/
theorem at_allocate_inode (type : ℕ) (k : Kernel) :
    ledger.At k 0 (allocate_inode type) fun r m =>
      OnlyRefs m ∧ (m ≠ 0 ↔ Passes k.disk) ∧ (r = 0 ↔ NoneFree k.disk) := by
  refine .skip moves_superblock fun _ k₁ hk => .get ?_
  have hdisk : k₁.disk = k.disk.get_disk_entry.2 := by
    rw [superblock_run] at hk
    split at hk
    · cases hk
      rfl
    · cases hk
  refine (at_allocateLoop type _ 2 Nat.two_pos k₁).mono ?_
  rintro r _ ⟨rfl, hr⟩
  rw [hdisk] at hr ⊢
  have hlooked : ∀ j, Looked k.disk j ↔ j < k.disk.sb.ninodes - 2 ∧ k.disk.avail (j + 1) = true :=
    fun j => and_congr_left fun _ => by omega
  refine ⟨onlyRefs_passed _ _ _, (passed_ne_zero_iff _ _ _).trans ⟨?_, ?_⟩, hr.trans ⟨?_, ?_⟩⟩
  · rintro ⟨j, hj, havail, htype, hfirst⟩
    have hj : j < k.disk.sb.ninodes - 2 := hj
    refine ⟨j, by omega, (hlooked j).mpr ⟨hj, havail⟩, htype, fun j' hj' h => ?_⟩
    have hfalse : k.disk.avail (j' + 1) = false := hfirst j' hj'
    rw [h.2] at hfalse
    exact absurd hfalse (by decide)
  · rintro ⟨j, -, hj, htype, hfirst⟩
    obtain ⟨hlt, havail⟩ := (hlooked j).mp hj
    refine ⟨j, hlt, havail, htype, fun j' hj' => ?_⟩
    refine Bool.eq_false_iff.mpr fun h => hfirst j' hj' ((hlooked j').mpr ⟨by omega, h⟩)
  · intro h j _ hj
    obtain ⟨hlt, havail⟩ := (hlooked j).mp hj
    exact h j hlt havail
  · intro h j hj havail
    have hj : j < k.disk.sb.ninodes - 2 := hj
    exact h j (by omega) ((hlooked j).mpr ⟨hj, havail⟩)

end Chickadee.Chkfs
