import Chickadee.Chkfs.Kernel

/-!
# `chkfs_fileiter`

The iterator over the blocks of a file. While it is in the indirect extents it holds a reference to their
block, which its destructor gives back. `scan` is the loop over the blocks of a directory that many
functions of `chkfsstate` have.
-/

namespace Chickadee.Chkfs

open Lib Fs

/-- `eptr_`: an extent of the inode, or one in an indirect extent block. -/
inductive ExtentPtr
  | direct (i : ℕ)
  | indirect (bn i : ℕ)
  deriving DecidableEq

/-- `++eptr_` -/
def ExtentPtr.next : ExtentPtr → ExtentPtr
  | .direct i => .direct (i + 1)
  | .indirect bn i => .indirect bn (i + 1)

structure Fileiter where
  ino_ : ℕ
  off_ : ℕ
  eoff_ : ℕ
  eidx_ : ℕ
  eptr_ : Option ExtentPtr
  indirect_entry_ : Option ℕ
  deriving DecidableEq

/-- `chkfs_fileiter it(ino)` -/
def fileiter (ino : ℕ) : Fileiter := ⟨ino, 0, 0, 0, some (.direct 0), none⟩

/-- `*eptr_` -/
def extent (d : Disk) (ino : ℕ) : ExtentPtr → Extent
  | .direct i => (d.inode ino).direct i
  | .indirect bn i => extentAt (d.buf bn) i

namespace Fileiter

variable {α : Type}

/-- The reference to the entry of a block, if there is one. -/
def entry : Option ℕ → Multiset Token
  | some bn => {.ref (.data bn)}
  | none => 0

/-- The reference an iterator holds. -/
def own (it : Fileiter) : Multiset Token := entry it.indirect_entry_

/-- `indirect_entry_` is put back. -/
def put_indirect (it : Fileiter) : M Fileiter :=
  match it.indirect_entry_ with
  | some bn => do
    put (.data bn)
    return { it with indirect_entry_ := none }
  | none => return it

/-- `~chkfs_fileiter` -/
def destroy (it : Fileiter) : M Unit :=
  match it.indirect_entry_ with
  | some bn => put (.data bn)
  | none => return

/-- The loop of `find`, for up to `n` extents. -/
def findLoop : ℕ → Fileiter → M Fileiter
  | 0, _ => throw .fuel
  | n + 1, it =>
    match it.eptr_ with
    | none => throw .assertion
    | some eptr => do
      let ex := extent (← get).disk it.ino_ eptr
      if it.off_ < it.eoff_ + ex.count * blocksize then return it
      else if ex.count = 0 then return { it with eptr_ := none }
      else
        let it := { it with
          eoff_ := it.eoff_ + ex.count * blocksize
          eidx_ := it.eidx_ + 1
          eptr_ := some eptr.next }
        if it.eidx_ < ndirect then findLoop n it
        else if (it.eidx_ - ndirect) % extentsperblock = 0 then
          let it ← it.put_indirect
          let ibi := (it.eidx_ - ndirect) / extentsperblock
          let indirect := ((← get).disk.inode it.ino_).indirect
          if indirect.count ≤ ibi then return { it with eptr_ := none }
          else if (← get_disk_entry (.data (indirect.first + ibi))) = true then
            findLoop n { it with
              eptr_ := some (.indirect (indirect.first + ibi) 0)
              indirect_entry_ := some (indirect.first + ibi) }
          else return { it with eptr_ := none }
        else findLoop n it

/-- `find(off)` -/
def find (it : Fileiter) (off : ℕ) : M Fileiter := do
  let it := { it with off_ := off }
  let n := ndirect + extentsperblock * ((← get).disk.inode it.ino_).indirect.count + 1
  if it.eptr_ = none ∨ it.off_ < it.eoff_ then
    let it ← it.put_indirect
    findLoop n { it with eoff_ := 0, eidx_ := 0, eptr_ := some (.direct 0) }
  else findLoop n it

/-- `blocknum()` -/
def blocknum (it : Fileiter) (d : Disk) : ℕ :=
  match it.eptr_ with
  | none => 0
  | some eptr =>
    let ex := extent d it.ino_ eptr
    if ex.first = 0 then 0 else u32 (ex.first + (it.off_ - it.eoff_) / blocksize)

/-- `active()` -/
def active (it : Fileiter) (d : Disk) : Bool :=
  match it.eptr_ with
  | none => false
  | some eptr => (extent d it.ino_ eptr).count ≠ 0

/-- `get_disk_entry()`: the block whose entry it returns. -/
def get_disk_entry (it : Fileiter) : M (Option ℕ) := do
  let bn := it.blocknum (← get).disk
  if bn = 0 then return none
  else if (← Chkfs.get_disk_entry (.data bn)) = true then return some bn
  else return none

/-- `insert(first, count)` from where the new extent is added. -/
def insertExtent (it : Fileiter) (first count : ℕ) : M (Fileiter × ℤ) :=
  if it.eidx_ < ndirect then do
    set_inode it.ino_ fun ino =>
      { ino with direct := Function.update ino.direct it.eidx_ ⟨first, count⟩ }
    return ({ it with eptr_ := some (.direct it.eidx_) }, 0)
  else match it.indirect_entry_ with
    | none => return (it, E_FBIG)
    | some bn => do
      let i := (it.eidx_ - ndirect) % extentsperblock
      let prev := extentAt ((← get).disk.buf bn) (i - 1)
      if i ≠ 0 ∧ u32 (prev.first + prev.count) = first then
        set_buf bn fun b => setExtentAt b (i - 1) ⟨prev.first, u32 (prev.count + count)⟩
        return ({ it with
          eptr_ := some (.indirect bn (i - 1))
          eidx_ := it.eidx_ - 1
          eoff_ := it.eoff_ - prev.count * blocksize }, 0)
      else
        set_buf bn fun b => setExtentAt b i ⟨first, count⟩
        return ({ it with eptr_ := some (.indirect bn i) }, 0)

/-- `insert(first, count)` -/
def insert (it : Fileiter) (first count : ℕ) : M (Fileiter × ℤ) := do
  assert ((← get).mlock (.inode it.ino_) = .writer)
  assert (count ≠ 0)
  assert (it.active (← get).disk = false)
  assert (it.eoff_ % blocksize = 0)
  let ino := (← get).disk.inode it.ino_
  let prev := ino.direct (it.eidx_ - 1)
  if 0 < it.eidx_ ∧ it.eidx_ ≤ ndirect ∧ u32 (prev.first + prev.count) = first then
    set_inode it.ino_ fun ino => { ino with
      direct := Function.update ino.direct (it.eidx_ - 1) ⟨prev.first, u32 (prev.count + count)⟩ }
    return ({ it with
      eptr_ := some (.direct (it.eidx_ - 1))
      eidx_ := it.eidx_ - 1
      eoff_ := it.eoff_ - prev.count * blocksize }, 0)
  else if it.eidx_ = ndirect ∧ ino.indirect.count = 0 then
    assert (it.indirect_entry_ = none)
    let indirect_bn ← allocate_extent 1
    if u32 E_MINERROR ≤ indirect_bn then return (it, (indirect_bn : ℤ) - 2 ^ 32)
    else if (← get_new_entry (.data indirect_bn)) = true then
      set_buf indirect_bn fun _ _ => 0
      set_inode it.ino_ fun ino => { ino with indirect := ⟨indirect_bn, 1⟩ }
      insertExtent { it with indirect_entry_ := some indirect_bn } first count
    else return (it, E_NOMEM)
  else insertExtent it first count

/-! ## What an iterator holds -/

theorem own_fileiter (ino : ℕ) : (fileiter ino).own = 0 := rfl

theorem own_of_none {it : Fileiter} (h : it.indirect_entry_ = none) : it.own = 0 := by
  unfold own
  rw [h]
  rfl

theorem moves_destroy (it : Fileiter) : ledger.Moves it.own it.destroy fun _ => 0 := by
  unfold destroy own
  cases it.indirect_entry_ with
  | some bn => exact moves_put _
  | none => exact .pure rfl

/-- Once it is put back the iterator holds nothing. -/
theorem moves_put_indirect {it : Fileiter} {P : Multiset Token} {f : Fileiter → M α}
    {post : α → Multiset Token} (hP : P = it.own)
    (hf : ∀ it', it'.indirect_entry_ = none → ledger.Moves 0 (f it') post) :
    ledger.Moves P (it.put_indirect >>= f) post := by
  rw [hP]
  unfold put_indirect own
  split
  · next bn hbn =>
    rw [hbn, bind_assoc]
    refine (moves_put _).bind fun _ => ?_
    rw [pure_bind]
    exact hf _ rfl
  · next hnone =>
    rw [hnone, pure_bind]
    exact hf _ hnone

theorem moves_findLoop (n : ℕ) (it : Fileiter) : ledger.Moves it.own (findLoop n it) own := by
  induction n generalizing it with
  | zero => exact .throw id
  | succ n ih =>
    have hgo : ∀ it' : Fileiter, it'.indirect_entry_ = it.indirect_entry_ →
        ledger.Moves it.own (findLoop n it') own := fun it' h => by
      unfold own
      rw [← h]
      exact ih it'
    unfold findLoop
    split
    · exact .throw id
    refine .get fun k => ?_
    dsimp only
    split_ifs
    · exact .pure rfl
    · exact .pure rfl
    · exact hgo _ rfl
    · refine moves_put_indirect rfl fun it' hnone => .get fun k' => ?_
      split
      · exact .pure (own_of_none hnone).symm
      refine (moves_get_disk_entry _).bind fun ok => ?_
      cases ok with
      | true => exact (ih _).congr rfl fun _ => rfl
      | false => exact .pure (own_of_none hnone).symm
    · exact hgo _ rfl

theorem moves_find (it : Fileiter) (off : ℕ) : ledger.Moves it.own (it.find off) own := by
  refine .get fun k => ?_
  dsimp only
  split
  · refine moves_put_indirect rfl fun it' hnone => ?_
    rw [← own_of_none hnone]
    exact moves_findLoop _ { it' with eoff_ := 0, eidx_ := 0, eptr_ := some (.direct 0) }
  · exact moves_findLoop _ { it with off_ := off }

theorem moves_get_disk_entry (it : Fileiter) : ledger.Moves 0 it.get_disk_entry entry := by
  refine .get fun k => ?_
  dsimp only
  split
  · exact .pure rfl
  refine (Chkfs.moves_get_disk_entry _).bind fun ok => ?_
  cases ok with
  | true => exact .pure rfl
  | false => exact .pure rfl

theorem moves_insertExtent (it : Fileiter) (first count : ℕ) :
    ledger.Moves it.own (it.insertExtent first count) fun r => r.1.own := by
  unfold insertExtent
  split
  · exact (moves_set_inode _ _).skip fun _ => .pure rfl
  split
  · exact .pure rfl
  refine .get fun k => ?_
  dsimp only
  split
  · exact (moves_set_buf _ _).skip fun _ => .pure rfl
  · exact (moves_set_buf _ _).skip fun _ => .pure rfl

theorem moves_insert (it : Fileiter) (first count : ℕ) :
    ledger.Moves it.own (it.insert first count) fun r => r.1.own := by
  refine .get fun k => (moves_assert _).skip fun _ => (moves_assert _).skip fun _ => .get fun k =>
    (moves_assert _).skip fun _ => (moves_assert _).skip fun _ => .get fun k => ?_
  dsimp only
  split_ifs
  · exact (moves_set_inode _ _).skip fun _ => .pure rfl
  · -- the indirect block is made: there is no entry for one yet
    refine moves_check fun hnone => ?_
    rw [own_of_none hnone]
    refine (moves_allocate_extent _).skip fun indirect_bn => ?_
    split
    · exact .pure (own_of_none hnone).symm
    refine (moves_get_new_entry _).bind fun ok => ?_
    cases ok with
    | true => exact (moves_set_buf _ _).skip fun _ => (moves_set_inode _ _).skip fun _ =>
        moves_insertExtent { it with indirect_entry_ := some indirect_bn } first count
    | false => exact .pure (own_of_none hnone).symm
  · exact moves_insertExtent it first count

end Fileiter

/-! ## The blocks of a directory -/

/-- The extent at index `i` of a file, and an empty one after the last. -/
def extentOf (d : Disk) (ino i : ℕ) : Extent :=
  if i < ndirect then (d.inode ino).direct i
  else if (d.inode ino).indirect.count ≤ (i - ndirect) / extentsperblock then ⟨0, 0⟩
  else extentAt (d.buf ((d.inode ino).indirect.first + (i - ndirect) / extentsperblock))
    ((i - ndirect) % extentsperblock)

/-- A bound on the number of blocks of a file. -/
def blocks (d : Disk) (ino : ℕ) : ℕ :=
  ((List.range (ndirect + extentsperblock * (d.inode ino).indirect.count)).map
    fun i => (extentOf d ino i).count).sum

/-- The number of directory entries to look at in the block at `diroff`. -/
def ndirents (size diroff : ℕ) : ℕ :=
  (min (u64 ((size : ℤ) - diroff)) blocksize + direntsize - 1) / direntsize

variable {α σ : Type}

/--
`for (diroff = 0; ; diroff += blocksize)` over up to `n` blocks. `body` has a reference to the entry of a
block and is given the number of directory entries in it; it returns what the function returns, or the
state of the loop for the next block. `missing` is for a block without an entry.
-/
def scanLoop (body : σ → ℕ → ℕ → M (α ⊕ σ)) (missing : σ → M α) : ℕ → Fileiter → ℕ → σ → M α
  | 0, _, _, _ => throw .fuel
  | n + 1, it, diroff, s => do
    let it ← it.find diroff
    match ← it.get_disk_entry with
    | some bn =>
      let size := ((← get).disk.inode it.ino_).size
      match ← body s bn (ndirents size diroff) with
      | .inl a =>
        it.destroy
        return a
      | .inr s => scanLoop body missing n it (diroff + blocksize) s
    | none =>
      let a ← missing s
      it.destroy
      return a

/-- The loop over the blocks of the directory `dirino`. -/
def scan (dirino : ℕ) (body : σ → ℕ → ℕ → M (α ⊕ σ)) (missing : σ → M α) (s : σ) : M α := do
  scanLoop body missing (blocks (← get).disk dirino + 1) (fileiter dirino) 0 s

/-- What the body of a loop owns when it returns: `res` of the result, or `own` of the loop's state. -/
def goes (res : α → Multiset Token) (own : σ → Multiset Token) : α ⊕ σ → Multiset Token :=
  Sum.elim res own

section

variable {body : σ → ℕ → ℕ → M (α ⊕ σ)} {missing : σ → M α} {res : α → Multiset Token}
  {own : σ → Multiset Token}

theorem moves_scanLoop
    (hbody : ∀ s bn n, ledger.Moves ({.ref (.data bn)} + own s) (body s bn n) (goes res own))
    (hmissing : ∀ s, ledger.Moves (own s) (missing s) res) (n : ℕ) (it : Fileiter) (diroff : ℕ) (s : σ) :
    ledger.Moves (it.own + own s) (scanLoop body missing n it diroff s) res := by
  induction n generalizing it diroff s with
  | zero => exact .throw id
  | succ n ih =>
    refine (it.moves_find diroff).call rfl fun it => ?_
    refine it.moves_get_disk_entry.call (zero_add _).symm fun e => ?_
    cases e with
    | none =>
      refine (hmissing s).call (R := it.own) (by rw [Fileiter.entry, zero_add, add_comm]) fun a => ?_
      exact it.moves_destroy.call (add_comm _ _) fun _ => .pure (zero_add _)
    | some bn =>
      refine .get fun k => ?_
      refine (hbody s bn _).call (R := it.own) ?_ fun r => ?_
      · show {Token.ref (.data bn)} + (it.own + own s) = _
        abel
      cases r with
      | inl a => exact it.moves_destroy.call (add_comm _ _) fun _ => .pure (zero_add _)
      | inr s =>
        rw [add_comm]
        exact ih it _ s

/-- **A loop over the blocks of a directory owns what its body owns.** -/
theorem moves_scan (hbody : ∀ s bn n, ledger.Moves ({.ref (.data bn)} + own s) (body s bn n) (goes res own))
    (hmissing : ∀ s, ledger.Moves (own s) (missing s) res) (dirino : ℕ) (s : σ) :
    ledger.Moves (own s) (scan dirino body missing s) res := by
  refine .get fun k => ?_
  have := moves_scanLoop hbody hmissing (blocks k.disk dirino + 1) (fileiter dirino) 0 s
  rwa [Fileiter.own_fileiter, zero_add] at this

end

/-- A loop that has no state of its own. -/
theorem moves_scan_unit {body : Unit → ℕ → ℕ → M (α ⊕ Unit)} {missing : Unit → M α}
    {res : α → Multiset Token}
    (hbody : ∀ bn n, ledger.Moves {.ref (.data bn)} (body () bn n) (goes res fun _ => 0))
    (hmissing : ledger.Moves 0 (missing ()) res) (dirino : ℕ) :
    ledger.Moves 0 (scan dirino body missing ()) res :=
  moves_scan (fun _ bn n => hbody bn n) (fun _ => hmissing) dirino ()

end Chickadee.Chkfs
