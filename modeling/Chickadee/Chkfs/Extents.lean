import Chickadee.Chkfs.Vnode
import Chickadee.Lib.Ends

/-!
# The extents of a file under its iterator

`Placed d it`: the iterator has passed `eidx_` extents, which cover `eoff_` bytes, and it points to the next
one, or it has stopped. `find` and `next` keep that and change nothing on the disk. `insert` grows the last
extent or adds one; if it fails the extents are as before.
-/

namespace Chickadee.Chkfs

open Lib Fs

variable {α : Type} {k : Kernel} {d d' : Disk} {it it' : Fileiter}

/-! ## The operations on the kernel state -/

theorem ends_get_disk_entry (e : Entry) :
    Ends k (get_disk_entry e) fun _ k' => k.disk.Same k'.disk := by
  intro a k' h
  cases h
  exact Disk.same_get_disk_entry k.disk

theorem ends_get_new_entry (e : Entry) :
    Ends k (get_new_entry e) fun _ k' => k.disk.Same k'.disk := by
  intro a k' h
  cases h
  exact Disk.same_get_new_entry k.disk

theorem ends_put (e : Entry) : Ends k (put e) fun _ k' => k'.disk = k.disk := by
  intro a k' h
  unfold put at h
  split at h
  · cases h
  · cases h
    rfl

theorem ends_kalloc : Ends k kalloc fun _ k' => k'.disk = k.disk := by
  intro a k' h
  cases h
  rfl

theorem ends_assert (p : Prop) [Decidable p] : Ends k (assert p) fun _ k' => p ∧ k = k' := by
  unfold assert
  split
  · next hp => exact .pure ⟨hp, rfl⟩
  · exact .throw

theorem ends_set_inode (ino : ℕ) (f : Inode → Inode) :
    Ends k (set_inode ino f) fun _ k' => k'.disk = k.disk.setInode ino (f (k.disk.inode ino)) :=
  .modify rfl

theorem ends_set_buf (bn : ℕ) (f : Block → Block) :
    Ends k (set_buf bn f) fun _ k' => k'.disk = k.disk.setBuf bn (f (k.disk.buf bn)) :=
  .modify rfl

theorem ends_lock_read (l : Lock) : Ends k (lock_read l) fun _ k' => k'.disk = k.disk := by
  intro a k' h
  unfold lock_read at h
  split at h
  · split at h
    · cases h
    · cases h
      rfl
  · cases h

theorem ends_unlock_read (l : Lock) : Ends k (unlock_read l) fun _ k' => k'.disk = k.disk := by
  intro a k' h
  unfold unlock_read at h
  split at h
  · cases h
    rfl
  · cases h

theorem ends_lock_write (l : Lock) : Ends k (lock_write l) fun _ k' => k'.disk = k.disk := by
  intro a k' h
  unfold lock_write at h
  split at h
  · cases h
    rfl
  · cases h

theorem ends_unlock_write (l : Lock) : Ends k (unlock_write l) fun _ k' => k'.disk = k.disk := by
  intro a k' h
  unfold unlock_write at h
  split at h
  · cases h
    rfl
  · cases h

/-! ## The bitmap -/

theorem ends_superblock : Ends k superblock fun _ k' => k.disk.superblock = some k'.disk := by
  intro a k' h
  rw [superblock_run] at h
  split at h
  · next havail =>
    cases h
    exact if_pos havail
  · cases h

theorem ends_fbb : Ends k (get_disk_entry .fbb) fun ok k' => k.disk.get_disk_entry = (ok, k'.disk) := by
  intro a k' h
  cases h
  rfl

/-- It is the operation on the disk. -/
theorem ends_allocate_extent (count : ℕ) :
    Ends k (allocate_extent count) fun bn k' => k.disk.allocate_extent count = some (k'.disk, bn) := by
  unfold allocate_extent Disk.allocate_extent
  split
  · exact .pure rfl
  refine ends_superblock.bind fun _ k₁ hsuper => ?_
  rw [hsuper]
  refine ends_fbb.bind fun ok k₂ hfbb => ?_
  dsimp only
  rw [hfbb]
  dsimp only
  split
  swap
  · exact .pure rfl
  refine .get ?_
  generalize find_free_range k₂.disk.fbb count 0 = found
  cases found with
  | none => exact .throw
  | some first =>
  dsimp only
  split
  · refine (ends_put _).bind fun _ k₃ hput => .pure ?_
    rw [hput]
  refine .get ?_
  generalize markRange k₂.disk.fbb false first count = marked
  cases marked with
  | none => exact .throw
  | some fbb =>
  refine Ends.bind (P := fun _ k₃ => k₃.disk = { k₂.disk with fbb := fbb }) (.modify rfl) fun _ k₃ hset => ?_
  refine (ends_put _).bind fun _ k₄ hput => .pure ?_
  rw [hput, hset]

theorem ends_free_extent (first count : ℕ) :
    Ends k (free_extent first count) fun _ k' => k.disk.free_extent first count = some k'.disk := by
  unfold free_extent Disk.free_extent
  refine ends_superblock.bind fun _ k₁ hsuper => ?_
  rw [hsuper]
  refine ends_fbb.bind fun ok k₂ hfbb => ?_
  dsimp only
  rw [hfbb]
  dsimp only
  split
  · refine .get ?_
    generalize markRange k₂.disk.fbb true first count = marked
    cases marked with
    | none => exact .throw
    | some fbb =>
      refine Ends.bind (P := fun _ k₃ => k₃.disk = { k₂.disk with fbb := fbb }) (.modify rfl)
        fun _ k₃ hset => ?_
      refine (ends_put _).mono fun _ k₄ hput => ?_
      rw [hput, hset]
  · exact .throw

theorem marked_same {d₁ : Disk} {x : Bool} {e : Extent} (h : d.Marked d₁ x e) (hsame : d₁.Same d') :
    d.Marked d' x e :=
  ⟨h.toLater.trans hsame.toLater, fun n => by rw [hsame.fbb]; exact h.bit n, hsame.inode.trans h.inode,
    hsame.buf.trans h.buf⟩

/-! ## The extents -/

theorem extentOf_eq {ino : ℕ} {x : Inode} (h : d.inode ino = x) (i : ℕ) :
    extentOf d ino i = if i < ndirect then x.direct i
      else if x.indirect.count ≤ (i - ndirect) / extentsperblock then ⟨0, 0⟩
      else extentAt (d.buf (x.indirect.first + (i - ndirect) / extentsperblock))
        ((i - ndirect) % extentsperblock) := by
  subst h
  rfl

theorem extentOf_congr {ino : ℕ} (hinode : d'.inode ino = d.inode ino) (hbuf : d'.buf = d.buf) :
    extentOf d' ino = extentOf d ino := by
  funext i
  unfold extentOf
  rw [hinode, hbuf]

theorem extentOf_direct {ino i : ℕ} (hi : i < ndirect) : extentOf d ino i = (d.inode ino).direct i :=
  if_pos hi

theorem extentOf_indirect {ino i : ℕ} (hone : (d.inode ino).indirect.count = 1)
    (hi : i < extentsperblock) :
    extentOf d ino (ndirect + i) = extentAt (d.buf (d.inode ino).indirect.first) i := by
  have hzero : i / extentsperblock = 0 := Nat.div_eq_of_lt hi
  unfold extentOf
  rw [if_neg (by omega), Nat.add_sub_cancel_left, hzero, hone, if_neg (by omega), Nat.mod_eq_of_lt hi,
    Nat.add_zero]

/-- Only the indirect block is looked at. -/
theorem extentOf_setBuf {ino bn : ℕ} {b : Block}
    (h : ∀ j < (d.inode ino).indirect.count, bn ≠ (d.inode ino).indirect.first + j) :
    extentOf (d.setBuf bn b) ino = extentOf d ino := by
  funext i
  have hinode : (d.setBuf bn b).inode ino = d.inode ino := rfl
  unfold extentOf
  rw [hinode]
  split
  · rfl
  · split
    · rfl
    · next hlt =>
      have hne := h ((i - ndirect) / extentsperblock) (by omega)
      unfold Disk.setBuf
      dsimp only
      rw [Function.update_of_ne hne.symm]

/-- A direct extent is stored. -/
theorem extentOf_setDirect (d : Disk) (ino : ℕ) {i : ℕ} (hi : i < ndirect) (e : Extent) :
    extentOf (d.setInode ino { d.inode ino with
      direct := Function.update (d.inode ino).direct i e }) ino =
      Function.update (extentOf d ino) i e := by
  funext j
  rw [extentOf_eq (Function.update_self _ _ _)]
  by_cases hj : j = i
  · subst hj
    rw [if_pos hi, Function.update_self]
    exact Function.update_self _ _ _
  · rw [Function.update_of_ne hj]
    dsimp only
    rw [Function.update_of_ne hj]
    rfl

/-- An extent of the indirect block is stored. -/
theorem extentOf_setIndirect {ino i : ℕ} {e : Extent} (hone : (d.inode ino).indirect.count = 1)
    (hi : i < extentsperblock) (he : Fits e) :
    extentOf (d.setBuf (d.inode ino).indirect.first
      (setExtentAt (d.buf (d.inode ino).indirect.first) i e)) ino =
      Function.update (extentOf d ino) (ndirect + i) e := by
  funext j
  have hinode : ∀ b, (d.setBuf (d.inode ino).indirect.first b).inode ino = d.inode ino := fun _ => rfl
  unfold extentOf
  rw [hinode, hone]
  by_cases hj : j < ndirect
  · rw [if_pos hj, Function.update_of_ne (by omega), if_pos hj]
  rw [if_neg hj]
  by_cases hlast : 1 ≤ (j - ndirect) / extentsperblock
  · have hne : j ≠ ndirect + i := by
      unfold extentsperblock at *
      omega
    rw [if_pos hlast, Function.update_of_ne hne, if_neg hj, if_pos hlast]
  · have hzero : (j - ndirect) / extentsperblock = 0 := Nat.lt_one_iff.mp (not_le.mp hlast)
    have hmod : (j - ndirect) % extentsperblock = j - ndirect := by
      unfold extentsperblock at *
      omega
    rw [if_neg hlast, hzero, hmod, Nat.add_zero]
    unfold Disk.setBuf
    dsimp only
    rw [Function.update_self, extentAt_setExtentAt _ _ _ he]
    by_cases hji : j = ndirect + i
    · rw [if_pos (by omega), hji, Function.update_self]
    · rw [if_neg (by omega), Function.update_of_ne hji, if_neg hj, if_neg hlast, hzero, hmod, Nat.add_zero]

/-- A new indirect block holds no extents. -/
theorem extentOf_newIndirect {ino : ℕ} (bn : ℕ) (hnone : (d.inode ino).indirect.count = 0) :
    extentOf ((d.setBuf bn fun _ => 0).setInode ino { d.inode ino with indirect := ⟨bn, 1⟩ }) ino =
      extentOf d ino := by
  funext i
  rw [extentOf_eq (Function.update_self _ _ _), extentOf_eq rfl, hnone]
  by_cases hi : i < ndirect
  · rw [if_pos hi, if_pos hi]
  rw [if_neg hi, if_neg hi, if_pos (Nat.zero_le _)]
  split
  · rfl
  · next hlt =>
    have hzero : (i - ndirect) / extentsperblock = 0 := Nat.lt_one_iff.mp (not_le.mp hlt)
    unfold Disk.setInode Disk.setBuf
    dsimp only
    rw [hzero, Nat.add_zero, Function.update_self, extentAt_zero]

/-- The extents `f` are changed: `count` blocks from `first` on come behind the first `n`. -/
inductive Grown (f : ℕ → Extent) (n first count : ℕ) : (ℕ → Extent) → Prop
  | new (hempty : (f n).count = 0) : Grown f n first count (Function.update f n ⟨first, count⟩)
  | grow (j : ℕ) (hj : j + 1 = n) (hnext : (f j).first + (f j).count = first) :
    Grown f n first count (Function.update f j ⟨(f j).first, (f j).count + count⟩)

/--
A file whose blocks are taken, and whose indirect block, if there is one, holds no data of it. An extent
with `first = 0` has no blocks.
-/
structure FileOk (d : Disk) (ino : ℕ) : Prop where
  fits : ∀ i, Fits (extentOf d ino i)
  bound : ∀ i, (extentOf d ino i).first ≠ 0 → (extentOf d ino i).count ≠ 0 →
    (extentOf d ino i).first + (extentOf d ino i).count ≤ bitsperblock
  taken : ∀ i, (extentOf d ino i).first ≠ 0 → ∀ b ∈ extentOf d ino i, d.fbb.bit b = false
  one : (d.inode ino).indirect.count ≤ 1
  indirect : (d.inode ino).indirect.count = 1 → d.fbb.bit (d.inode ino).indirect.first = false ∧
    ∀ i, (extentOf d ino i).first ≠ 0 → (d.inode ino).indirect.first ∉ extentOf d ino i

/-- An extent list without an extent that wraps, and with one indirect block at most. -/
structure ListOk (d : Disk) (ino : ℕ) : Prop where
  bound : ∀ i, (extentOf d ino i).first + (extentOf d ino i).count < 2 ^ 32
  one : (d.inode ino).indirect.count ≤ 1

theorem ListOk.of {ino : ℕ} (h : ListOk d ino) (hext : extentOf d' ino = extentOf d ino)
    (hone : (d'.inode ino).indirect.count ≤ 1) : ListOk d' ino :=
  ⟨by rw [hext]; exact h.bound, hone⟩

theorem FileOk.listOk {ino : ℕ} (h : FileOk d ino) : ListOk d ino := by
  refine ⟨fun i => ?_, h.one⟩
  obtain ⟨hfirst, hcount⟩ := h.fits i
  have hbound := h.bound i
  unfold bitsperblock at hbound
  omega

/-- The block number behind an extent does not wrap. -/
theorem ListOk.u32_sum {ino : ℕ} (h : ListOk d ino) (i : ℕ) :
    u32 ((extentOf d ino i).first + (extentOf d ino i).count) =
      (extentOf d ino i).first + (extentOf d ino i).count := by
  have hlt := h.bound i
  unfold u32
  omega

/-- An extent that grows by blocks behind it. -/
theorem grow_fits {ino i first count : ℕ}
    (hnext : (extentOf d ino i).first + (extentOf d ino i).count = first) (hrange : first + count < 2 ^ 32) :
    u32 ((extentOf d ino i).count + count) = (extentOf d ino i).count + count ∧
      Fits ⟨(extentOf d ino i).first, (extentOf d ino i).count + count⟩ := by
  refine ⟨?_, ?_⟩
  · unfold u32
    omega
  · show (extentOf d ino i).first < 2 ^ 32 ∧ (extentOf d ino i).count + count < 2 ^ 32
    omega

/-- A free block has become the indirect block of the file; it holds no extents. -/
structure NewIndirect (d : Disk) (ino bn : ℕ) (d' : Disk) : Prop where
  none : (d.inode ino).indirect.count = 0
  run : IsRun d.fbb 1 bn
  bit : ∀ b, d'.fbb.bit b = if b = bn then false else d.fbb.bit b
  inode : d'.inode = Function.update d.inode ino { d.inode ino with indirect := ⟨bn, 1⟩ }
  buf : d'.buf = Function.update d.buf bn fun _ => 0

theorem NewIndirect.indirect {ino bn : ℕ} (h : NewIndirect d ino bn d') :
    (d'.inode ino).indirect = ⟨bn, 1⟩ := by
  rw [h.inode, Function.update_self]

theorem NewIndirect.extentOf_eq {ino bn : ℕ} (h : NewIndirect d ino bn d') :
    extentOf d' ino = extentOf d ino := by
  rw [← extentOf_newIndirect bn h.none]
  exact extentOf_congr (by rw [h.inode]; rfl) h.buf

theorem NewIndirect.free {ino bn : ℕ} (h : NewIndirect d ino bn d') : d.fbb.bit bn = true :=
  h.run.free bn le_rfl (Nat.lt_succ_self bn)

theorem NewIndirect.listOk {ino bn : ℕ} (h : NewIndirect d ino bn d') (hok : ListOk d ino) :
    ListOk d' ino :=
  hok.of h.extentOf_eq (by rw [h.indirect])

theorem NewIndirect.fileOk {ino bn : ℕ} (h : NewIndirect d ino bn d') (hok : FileOk d ino) :
    FileOk d' ino := by
  have htaken : ∀ b, d.fbb.bit b = false → d'.fbb.bit b = false := fun b hb => by
    rw [h.bit]
    split
    · rfl
    · exact hb
  obtain ⟨hfits, hbound, hold, -, -⟩ := hok
  rw [← h.extentOf_eq] at hfits hbound hold
  refine ⟨hfits, hbound, fun i hi b hb => htaken b (hold i hi b hb), ?_, fun _ => ⟨?_, fun i hi hmem => ?_⟩⟩
  · rw [h.indirect]
  · rw [h.indirect, h.bit, if_pos rfl]
  · -- the blocks of the file were taken, this one was free
    rw [h.indirect] at hmem
    have hbit := hold i hi bn hmem
    rw [h.free] at hbit
    cases hbit

namespace Fileiter

/-! ## The place of an iterator -/

/-- The iterator has passed `eidx_` extents. -/
structure Placed (d : Disk) (it : Fileiter) : Prop where
  passed : ∀ i < it.eidx_, (extentOf d it.ino_ i).count ≠ 0
  eoff : it.eoff_ = blocksize * psum (extentOf d it.ino_) it.eidx_
  entry : ∀ bn, it.indirect_entry_ = some bn → ndirect ≤ it.eidx_ →
    (it.eidx_ - ndirect) / extentsperblock < (d.inode it.ino_).indirect.count ∧
      bn = (d.inode it.ino_).indirect.first + (it.eidx_ - ndirect) / extentsperblock
  ptr : ∀ p, it.eptr_ = some p → it.eidx_ < ndirect ∧ p = .direct it.eidx_ ∨
    ndirect ≤ it.eidx_ ∧ ∃ bn, it.indirect_entry_ = some bn ∧
      p = .indirect bn ((it.eidx_ - ndirect) % extentsperblock)
  stop : it.eptr_ = none → (extentOf d it.ino_ it.eidx_).count = 0 ∨
    ndirect ≤ it.eidx_ ∧ it.indirect_entry_ = none

/-- At the first extent. -/
theorem placed_rewound (d : Disk) (ino off : ℕ) : Placed d ⟨ino, off, 0, 0, some (.direct 0), none⟩ where
  passed i hi := absurd hi (Nat.not_lt_zero i)
  eoff := rfl
  entry bn h := by cases h
  ptr p h := by
    cases h
    exact .inl ⟨Nat.zero_lt_succ 3, rfl⟩
  stop h := by cases h

theorem placed_fileiter (d : Disk) (ino : ℕ) : Placed d (fileiter ino) := placed_rewound d ino 0

/-- Nothing but the extents matters. -/
theorem Placed.of (h : Placed d it) (hext : extentOf d' it.ino_ = extentOf d it.ino_)
    (hind : (d'.inode it.ino_).indirect = (d.inode it.ino_).indirect) : Placed d' it := by
  obtain ⟨h₁, h₂, h₃, h₄, h₅⟩ := h
  exact ⟨by rwa [hext], by rwa [hext], by rwa [hind], h₄, by rwa [hext]⟩

theorem Placed.congr (h : Placed d it) (hinode : d'.inode = d.inode) (hbuf : d'.buf = d.buf) :
    Placed d' it :=
  h.of (extentOf_congr (congrFun hinode _) hbuf) (by rw [hinode])

/-- What `eptr_` points to. -/
theorem Placed.extent_eq {p : ExtentPtr} (h : Placed d it) (hp : it.eptr_ = some p) :
    extent d it.ino_ p = extentOf d it.ino_ it.eidx_ := by
  rcases h.ptr p hp with ⟨hlt, rfl⟩ | ⟨hge, bn, hbn, rfl⟩
  · exact (extentOf_direct hlt).symm
  · obtain ⟨hlt, rfl⟩ := h.entry bn hbn hge
    unfold extentOf
    rw [if_neg (by omega), if_neg (by omega)]
    rfl

theorem Placed.inactive (h : Placed d it) (hin : it.active d = false) :
    (extentOf d it.ino_ it.eidx_).count = 0 ∨ ndirect ≤ it.eidx_ ∧ it.indirect_entry_ = none := by
  unfold active at hin
  split at hin
  · next hnone => exact h.stop hnone
  · next p hp =>
    rw [h.extent_eq hp] at hin
    exact .inl (by simpa using hin)

/-- The iterator is at offset `off`, in an extent or behind those it could read. -/
structure Sought (d : Disk) (ino off : ℕ) (it : Fileiter) : Prop extends Placed d it where
  ino_ : it.ino_ = ino
  off_ : it.off_ = off
  inside : it.eptr_ ≠ none →
    it.eoff_ ≤ off ∧ off < it.eoff_ + (extentOf d ino it.eidx_).count * blocksize

theorem Sought.congr {ino off : ℕ} (h : Sought d ino off it) (hinode : d'.inode = d.inode)
    (hbuf : d'.buf = d.buf) : Sought d' ino off it := by
  refine ⟨h.toPlaced.congr hinode hbuf, h.ino_, h.off_, fun hptr => ?_⟩
  rw [extentOf_congr (congrFun hinode ino) hbuf]
  exact h.inside hptr

/-! ## `find` and `next` -/

theorem ends_put_indirect :
    Ends k it.put_indirect fun it' k' => k'.disk = k.disk ∧ it' = { it with indirect_entry_ := none } := by
  unfold put_indirect
  split
  · exact (ends_put _).bind fun _ _ hdisk => .pure ⟨hdisk, rfl⟩
  · next hnone =>
    refine .pure ⟨rfl, ?_⟩
    rw [← hnone]

theorem ends_destroy : Ends k it.destroy fun _ k' => k'.disk = k.disk := by
  unfold destroy
  split
  · exact ends_put _
  · exact .pure rfl

/-- One more extent is passed. -/
theorem Placed.pass {p : ExtentPtr} (h : Placed d it) (hp : it.eptr_ = some p)
    (hcount : (extent d it.ino_ p).count ≠ 0) :
    (∀ i < it.eidx_ + 1, (extentOf d it.ino_ i).count ≠ 0) ∧
      it.eoff_ + (extent d it.ino_ p).count * blocksize =
        blocksize * psum (extentOf d it.ino_) (it.eidx_ + 1) := by
  rw [h.extent_eq hp] at hcount ⊢
  refine ⟨fun i hi => ?_, ?_⟩
  · by_cases heq : i = it.eidx_
    · rwa [heq]
    · exact h.passed i (by omega)
  · rw [psum_succ, h.eoff]
    ring

/-- The next extent, in the inode or in the same indirect block. -/
theorem Placed.next {p : ExtentPtr} (h : Placed d it) (hp : it.eptr_ = some p)
    (hcount : (extent d it.ino_ p).count ≠ 0)
    (hblock : it.eidx_ + 1 < ndirect ∨ (it.eidx_ + 1 - ndirect) % extentsperblock ≠ 0) :
    Placed d { it with
      eoff_ := it.eoff_ + (extent d it.ino_ p).count * blocksize
      eidx_ := it.eidx_ + 1
      eptr_ := some p.next } := by
  obtain ⟨hpassed, heoff⟩ := h.pass hp hcount
  rcases hblock with hdirect | hblock
  · refine ⟨hpassed, heoff, fun bn hbn hge => ?_, fun q hq => ?_, fun hnone => by cases hnone⟩
    · exact absurd hge (not_le.mpr hdirect)
    · cases hq
      rcases h.ptr p hp with ⟨-, rfl⟩ | ⟨hge, -⟩
      · exact .inl ⟨hdirect, rfl⟩
      · omega
  · have hge : ndirect ≤ it.eidx_ := by
      by_contra hlt
      rw [show it.eidx_ + 1 - ndirect = 0 by omega] at hblock
      exact hblock rfl
    have hsub : it.eidx_ + 1 - ndirect = it.eidx_ - ndirect + 1 := by omega
    rw [hsub] at hblock
    have hdiv : (it.eidx_ + 1 - ndirect) / extentsperblock = (it.eidx_ - ndirect) / extentsperblock := by
      rw [hsub]
      unfold extentsperblock at *
      omega
    have hmod : (it.eidx_ + 1 - ndirect) % extentsperblock = (it.eidx_ - ndirect) % extentsperblock + 1 := by
      rw [hsub]
      unfold extentsperblock at *
      omega
    refine ⟨hpassed, heoff, fun bn hbn _ => ?_, fun q hq => ?_, fun hnone => by cases hnone⟩
    · dsimp only
      rw [hdiv]
      exact h.entry bn hbn hge
    · cases hq
      rcases h.ptr p hp with ⟨hlt, -⟩ | ⟨-, bn, hbn, rfl⟩
      · omega
      · exact .inr ⟨by dsimp only; omega, bn, hbn, by rw [hmod]; rfl⟩

/-- The first extent of an indirect block. -/
theorem Placed.enter {p : ExtentPtr} (h : Placed d it) (hp : it.eptr_ = some p)
    (hcount : (extent d it.ino_ p).count ≠ 0) (hge : ndirect ≤ it.eidx_ + 1)
    (hblock : (it.eidx_ + 1 - ndirect) % extentsperblock = 0)
    (hlt : (it.eidx_ + 1 - ndirect) / extentsperblock < (d.inode it.ino_).indirect.count) :
    Placed d { it with
      eoff_ := it.eoff_ + (extent d it.ino_ p).count * blocksize
      eidx_ := it.eidx_ + 1
      eptr_ := some (.indirect ((d.inode it.ino_).indirect.first + (it.eidx_ + 1 - ndirect) / extentsperblock) 0)
      indirect_entry_ := some ((d.inode it.ino_).indirect.first +
        (it.eidx_ + 1 - ndirect) / extentsperblock) } := by
  obtain ⟨hpassed, heoff⟩ := h.pass hp hcount
  refine ⟨hpassed, heoff, fun bn hbn _ => ?_, fun q hq => ?_, fun hnone => by cases hnone⟩
  · cases hbn
    exact ⟨hlt, rfl⟩
  · cases hq
    exact .inr ⟨hge, _, rfl, by rw [hblock]⟩

/-- Behind the last extent that there is, or that could be read. -/
theorem Placed.leave {p : ExtentPtr} (h : Placed d it) (hp : it.eptr_ = some p)
    (hcount : (extent d it.ino_ p).count ≠ 0) (hge : ndirect ≤ it.eidx_ + 1) :
    Placed d { it with
      eoff_ := it.eoff_ + (extent d it.ino_ p).count * blocksize
      eidx_ := it.eidx_ + 1
      eptr_ := none
      indirect_entry_ := none } := by
  obtain ⟨hpassed, heoff⟩ := h.pass hp hcount
  exact ⟨hpassed, heoff, fun bn hbn => (by cases hbn), fun p hp => (by cases hp), fun _ => .inr ⟨hge, rfl⟩⟩

theorem ends_findLoop (n : ℕ) (h : Placed k.disk it) (hptr : it.eptr_ ≠ none) (hle : it.eoff_ ≤ it.off_) :
    Ends k (findLoop n it) fun it' k' => k.disk.Same k'.disk ∧ Sought k.disk it.ino_ it.off_ it' := by
  induction n generalizing k it with
  | zero => exact .throw
  | succ n ih =>
    unfold findLoop
    split
    · exact .throw
    next p hp =>
    refine .get ?_
    dsimp only
    have hext := h.extent_eq hp
    split_ifs with hin hzero hdirect hblock
    · refine .pure ⟨.refl _, h, rfl, rfl, fun _ => ⟨hle, ?_⟩⟩
      rwa [← hext]
    · refine .pure ⟨.refl _, ⟨h.passed, h.eoff, h.entry, fun p hp => (by cases hp), fun _ => .inl ?_⟩, rfl, rfl,
        fun hne => absurd rfl hne⟩
      rwa [← hext]
    · exact ih (h.next hp hzero (.inl hdirect)) (by simp) (not_lt.mp hin)
    · -- another indirect block, or the end
      refine ends_put_indirect.bind fun it₁ k₁ hput => ?_
      obtain ⟨hdisk, rfl⟩ := hput
      refine .get ?_
      rw [hdisk]
      split
      · exact .pure ⟨hdisk ▸ .refl _, h.leave hp hzero (not_lt.mp hdirect), rfl, rfl, fun hne => absurd rfl hne⟩
      · next hlt =>
        refine (ends_get_disk_entry _).bind fun ok k₂ hsame => ?_
        rw [hdisk] at hsame
        split
        · have hplaced := h.enter hp hzero (not_lt.mp hdirect) hblock (not_le.mp hlt)
          refine (ih (hplaced.congr hsame.inode hsame.buf) (by simp) (not_lt.mp hin)).mono fun it' k' hrest => ?_
          exact ⟨hsame.trans hrest.1, hrest.2.congr hsame.inode.symm hsame.buf.symm⟩
        · exact .pure ⟨hsame, h.leave hp hzero (not_lt.mp hdirect), rfl, rfl, fun hne => absurd rfl hne⟩
    · exact ih (h.next hp hzero (.inr hblock)) (by simp) (not_lt.mp hin)

/-- **`find` moves the iterator and changes nothing.** -/
theorem ends_find (off : ℕ) (h : Placed k.disk it) :
    Ends k (it.find off) fun it' k' => k.disk.Same k'.disk ∧ Sought k.disk it.ino_ off it' := by
  refine .get ?_
  dsimp only
  split
  · refine ends_put_indirect.bind fun it₁ k₁ hput => ?_
    obtain ⟨hdisk, rfl⟩ := hput
    rw [← hdisk]
    exact ends_findLoop _ (placed_rewound k₁.disk it.ino_ off) (by simp) (Nat.zero_le _)
  · next hgo =>
    obtain ⟨hptr, hle⟩ := not_or.mp hgo
    exact ends_findLoop _ ⟨h.passed, h.eoff, h.entry, h.ptr, h.stop⟩ hptr
      (not_lt.mp hle)

theorem ends_nextLoop (n : ℕ) (h : Placed k.disk it) :
    Ends k (nextLoop n it) fun it' k' => k.disk.Same k'.disk ∧ Placed k.disk it' ∧ it'.ino_ = it.ino_ := by
  induction n generalizing k it with
  | zero => exact .throw
  | succ n ih =>
    refine (ends_find _ h).bind fun it₁ k₁ hfind => ?_
    obtain ⟨hsame, hsought⟩ := hfind
    split
    · exact .pure ⟨hsame, hsought.toPlaced, hsought.ino_⟩
    refine .get ?_
    dsimp only
    split
    · refine (ih (hsought.toPlaced.congr hsame.inode hsame.buf)).mono fun it' k' hrest => ?_
      obtain ⟨hsame', hplaced, hino⟩ := hrest
      exact ⟨hsame.trans hsame', hplaced.congr hsame.inode.symm hsame.buf.symm, hino.trans hsought.ino_⟩
    · exact .pure ⟨hsame, hsought.toPlaced, hsought.ino_⟩

theorem ends_next (h : Placed k.disk it) :
    Ends k it.next fun it' k' => k.disk.Same k'.disk ∧ Placed k.disk it' ∧ it'.ino_ = it.ino_ := by
  refine .get ?_
  dsimp only
  split
  · exact ends_nextLoop _ h
  · exact .pure ⟨.refl _, h, rfl⟩

theorem ends_iter_get_disk_entry (it : Fileiter) :
    Ends k it.get_disk_entry fun e k' => k.disk.Same k'.disk ∧
      ∀ bn, e = some bn → bn = it.blocknum k.disk ∧ bn ≠ 0 := by
  refine .get ?_
  dsimp only
  split
  · exact .pure ⟨.refl _, fun bn hbn => by cases hbn⟩
  next hne =>
  refine (Chkfs.ends_get_disk_entry _).bind fun ok k₁ hsame => ?_
  split
  · refine .pure ⟨hsame, fun bn hbn => ?_⟩
    cases hbn
    exact ⟨rfl, hne⟩
  · exact .pure ⟨hsame, fun bn hbn => by cases hbn⟩

/-! ## `insert` -/

/-- `count` blocks from `first` on are added behind `n` extents of the file. -/
structure Stored (d : Disk) (ino n first count : ℕ) (d' : Disk) : Prop where
  grown : Grown (extentOf d ino) n first count (extentOf d' ino)
  inode : ∃ direct, d'.inode = Function.update d.inode ino { d.inode ino with direct := direct }
  buf : ∀ bn, ¬ ((d.inode ino).indirect.count = 1 ∧ bn = (d.inode ino).indirect.first) →
    d'.buf bn = d.buf bn
  fbb : d'.fbb = d.fbb

/-- A new extent behind those the iterator has passed. -/
theorem placed_new {p : ExtentPtr} {e : Extent} (h : Placed d it)
    (hext : extentOf d' it.ino_ = Function.update (extentOf d it.ino_) it.eidx_ e)
    (hinode : (d'.inode it.ino_).indirect = (d.inode it.ino_).indirect)
    (hp : it.eidx_ < ndirect ∧ p = .direct it.eidx_ ∨ ndirect ≤ it.eidx_ ∧
      ∃ bn, it.indirect_entry_ = some bn ∧ p = .indirect bn ((it.eidx_ - ndirect) % extentsperblock)) :
    Placed d' { it with eptr_ := some p } := by
  have hbelow : ∀ i < it.eidx_, extentOf d' it.ino_ i = extentOf d it.ino_ i := fun i hi => by
    rw [hext, Function.update_of_ne (by omega)]
  refine ⟨fun i hi => ?_, ?_, fun bn hbn hge => ?_, fun q hq => ?_, fun hnone => by cases hnone⟩
  · rw [hbelow i hi]
    exact h.passed i hi
  · rw [psum_congr hbelow]
    exact h.eoff
  · rw [hinode]
    exact h.entry bn hbn hge
  · cases hq
    exact hp

/-- The last extent that the iterator has passed grows: the iterator goes back to it. -/
theorem placed_grow {p : ExtentPtr} {e : Extent} {j : ℕ} (h : Placed d it) (hj : j + 1 = it.eidx_)
    (hext : extentOf d' it.ino_ = Function.update (extentOf d it.ino_) j e)
    (hinode : (d'.inode it.ino_).indirect = (d.inode it.ino_).indirect)
    (hp : j < ndirect ∧ p = .direct j ∨ ndirect ≤ j ∧
      ∃ bn, it.indirect_entry_ = some bn ∧ p = .indirect bn ((j - ndirect) % extentsperblock))
    (hdiv : ndirect ≤ j → (j - ndirect) / extentsperblock = (it.eidx_ - ndirect) / extentsperblock) :
    Placed d' { it with
      eptr_ := some p
      eidx_ := j
      eoff_ := it.eoff_ - (extentOf d it.ino_ j).count * blocksize } := by
  have hbelow : ∀ i < j, extentOf d' it.ino_ i = extentOf d it.ino_ i := fun i hi => by
    rw [hext, Function.update_of_ne (by omega)]
  refine ⟨fun i hi => ?_, ?_, fun bn hbn hge => ?_, fun q hq => ?_, fun hnone => by cases hnone⟩
  · dsimp only at hi ⊢
    rw [hbelow i hi]
    exact h.passed i (by omega)
  · dsimp only
    rw [psum_congr hbelow, h.eoff, ← hj, psum_succ, Nat.mul_add, Nat.mul_comm (extentOf d it.ino_ j).count,
      Nat.add_sub_cancel]
  · dsimp only at hge ⊢
    rw [hinode, hdiv hge]
    exact h.entry bn hbn (by omega)
  · cases hq
    exact hp

theorem ends_insertExtent {first count : ℕ} (h : Placed k.disk it) (hok : ListOk k.disk it.ino_)
    (hin : it.active k.disk = false) (hrange : first + count < 2 ^ 32) :
    Ends k (it.insertExtent first count) fun r k' => r.1.ino_ = it.ino_ ∧ Placed k'.disk r.1 ∧
      (r.2 = 0 ∧ Stored k.disk it.ino_ it.eidx_ first count k'.disk ∨
        r.2 = E_FBIG ∧ k'.disk = k.disk ∧ it.indirect_entry_ = none) := by
  have hfits : Fits ⟨first, count⟩ := by
    show first < 2 ^ 32 ∧ count < 2 ^ 32
    omega
  unfold insertExtent
  split
  · next hlt =>
    have hempty := (h.inactive hin).resolve_right fun hr => absurd hr.1 (not_le.mpr hlt)
    have hext := extentOf_setDirect k.disk it.ino_ hlt ⟨first, count⟩
    refine (ends_set_inode _ _).bind fun _ k₁ hset => .pure ?_
    rw [hset]
    refine ⟨rfl, placed_new h hext ?_ (.inl ⟨hlt, rfl⟩), .inl ⟨rfl, ?_, ⟨_, rfl⟩, fun _ _ => rfl, rfl⟩⟩
    · unfold Disk.setInode
      dsimp only
      rw [Function.update_self]
    · rw [hext]
      exact .new hempty
  · next hge =>
    have hge := not_lt.mp hge
    split
    · next hnone => exact .pure ⟨rfl, h, .inr ⟨rfl, rfl, hnone⟩⟩
    next bn hbn =>
    obtain ⟨hlt, hfirst⟩ := h.entry bn hbn hge
    have hone : (k.disk.inode it.ino_).indirect.count = 1 := le_antisymm hok.one (Nat.zero_lt_of_lt hlt)
    have hzero : (it.eidx_ - ndirect) / extentsperblock = 0 := Nat.lt_one_iff.mp (hlt.trans_le hok.one)
    have hi : it.eidx_ - ndirect < extentsperblock := (Nat.div_eq_zero_iff_lt (by decide)).mp hzero
    have hmod : (it.eidx_ - ndirect) % extentsperblock = it.eidx_ - ndirect := Nat.mod_eq_of_lt hi
    rw [hzero, Nat.add_zero] at hfirst
    subst hfirst
    have hempty := (h.inactive hin).resolve_right fun hr => by rw [hr.2] at hbn; cases hbn
    refine .get ?_
    dsimp only
    rw [hmod]
    split
    · next hgrow =>
      obtain ⟨hne, hnext⟩ := hgrow
      obtain ⟨i, hidx⟩ := Nat.exists_eq_succ_of_ne_zero hne
      have hj : ndirect + i + 1 = it.eidx_ := by omega
      have hprev : extentAt (k.disk.buf (k.disk.inode it.ino_).indirect.first) i =
          extentOf k.disk it.ino_ (ndirect + i) := by
        exact (extentOf_indirect hone (by omega)).symm
      rw [hidx, Nat.succ_eq_add_one, Nat.add_sub_cancel, hprev] at hnext ⊢
      rw [hok.u32_sum] at hnext
      obtain ⟨hsum, hfit⟩ := grow_fits hnext hrange
      have hext := extentOf_setIndirect hone (i := i) (by omega) hfit
      rw [hsum]
      refine (ends_set_buf _ _).bind fun _ k₁ hset => .pure ?_
      rw [hset]
      have hplaced := placed_grow (p := .indirect (k.disk.inode it.ino_).indirect.first i) h hj hext rfl
        (.inr ⟨Nat.le_add_right _ _, _, hbn, by rw [Nat.add_sub_cancel_left, Nat.mod_eq_of_lt (by omega)]⟩)
        (fun _ => by rw [hzero, Nat.add_sub_cancel_left, Nat.div_eq_of_lt (by omega)])
      rw [show it.eidx_ - 1 = ndirect + i by omega]
      refine ⟨rfl, hplaced, .inl ⟨rfl, ?_, ⟨_, (Function.update_eq_self _ _).symm⟩, fun b hb => ?_, rfl⟩⟩
      · rw [hext]
        exact .grow _ hj hnext
      · exact Function.update_of_ne (fun heq => hb ⟨hone, heq⟩) _ _
    · have hext := extentOf_setIndirect hone hi hfits
      rw [Nat.add_sub_cancel' hge] at hext
      refine (ends_set_buf _ _).bind fun _ k₁ hset => .pure ?_
      rw [hset]
      refine ⟨rfl, placed_new h hext rfl (.inr ⟨hge, _, hbn, by rw [hmod]⟩),
        .inl ⟨rfl, ?_, ⟨_, (Function.update_eq_self _ _).symm⟩, fun b hb => ?_, rfl⟩⟩
      · rw [hext]
        exact .new hempty
      · exact Function.update_of_ne (fun heq => hb ⟨hone, heq⟩) _ _

/-- How `insert` ends, and with what result. -/
inductive Inserted (d : Disk) (ino n first count : ℕ) : ℤ → Disk → Prop
  | stored {d' : Disk} (h : Stored d ino n first count d') : Inserted d ino n first count 0 d'
  | indirect {d₁ d' : Disk} {bn : ℕ} (hnew : NewIndirect d ino bn d₁) (h : Stored d₁ ino n first count d') :
    Inserted d ino n first count 0 d'
  | failed {d' : Disk} {r : ℤ} (hr : r < 0) (hsame : d.Same d') : Inserted d ino n first count r d'
  /-- There is no cache entry for the new indirect block. It stays marked. -/
  | leaked {d' : Disk} {bn : ℕ} (run : IsRun d.fbb 1 bn) (marked : d.Marked d' false ⟨bn, 1⟩) :
    Inserted d ino n first count E_NOMEM d'

/-- Behind the direct extents, with a new indirect block. -/
theorem placed_newIndirect {bn : ℕ} (hnew : NewIndirect d it.ino_ bn d') (h : Placed d it)
    (hidx : it.eidx_ = ndirect) (hnone : it.indirect_entry_ = none) :
    it.eptr_ = none ∧ Placed d' { it with indirect_entry_ := some bn } := by
  have hptr : it.eptr_ = none := by
    by_contra hne
    obtain ⟨p, hp⟩ := Option.ne_none_iff_exists'.mp hne
    rcases h.ptr p hp with ⟨hlt, -⟩ | ⟨-, bn', hbn, -⟩
    · omega
    · rw [hnone] at hbn
      cases hbn
  have hext := hnew.extentOf_eq
  refine ⟨hptr, fun i hi => ?_, ?_, fun b hb _ => ?_, fun p hp => ?_, fun _ => .inl ?_⟩
  · rw [hext]
    exact h.passed i hi
  · rw [hext]
    exact h.eoff
  · cases hb
    rw [hnew.indirect]
    dsimp only
    rw [hidx, Nat.sub_self, Nat.zero_div]
    exact ⟨Nat.zero_lt_one, rfl⟩
  · dsimp only at hp
    rw [hptr] at hp
    cases hp
  · dsimp only
    rw [hext, hidx]
    unfold extentOf
    rw [if_neg (lt_irrefl _), hnew.none, if_pos (Nat.zero_le _)]

/-- The direct extent before the iterator grows. -/
theorem stored_growDirect {first count : ℕ} (h : Placed d it) (hok : ListOk d it.ino_)
    (hrange : first + count < 2 ^ 32) (hidx : 0 < it.eidx_ ∧ it.eidx_ ≤ ndirect)
    (hnext : u32 (((d.inode it.ino_).direct (it.eidx_ - 1)).first +
      ((d.inode it.ino_).direct (it.eidx_ - 1)).count) = first) :
    let prev := (d.inode it.ino_).direct (it.eidx_ - 1)
    let d' := d.setInode it.ino_ { d.inode it.ino_ with
      direct := Function.update (d.inode it.ino_).direct (it.eidx_ - 1) ⟨prev.first, u32 (prev.count + count)⟩ }
    Stored d it.ino_ it.eidx_ first count d' ∧ Placed d' { it with
      eptr_ := some (.direct (it.eidx_ - 1))
      eidx_ := it.eidx_ - 1
      eoff_ := it.eoff_ - prev.count * blocksize } := by
  have hlt : it.eidx_ - 1 < ndirect := by omega
  have hj : it.eidx_ - 1 + 1 = it.eidx_ := by omega
  rw [← extentOf_direct hlt] at hnext ⊢
  rw [hok.u32_sum] at hnext
  obtain ⟨hsum, hfit⟩ := grow_fits hnext hrange
  dsimp only
  rw [hsum]
  have hext := extentOf_setDirect d it.ino_ hlt
    ⟨(extentOf d it.ino_ (it.eidx_ - 1)).first, (extentOf d it.ino_ (it.eidx_ - 1)).count + count⟩
  refine ⟨⟨?_, ⟨_, rfl⟩, fun _ _ => rfl, rfl⟩, placed_grow h hj hext ?_ (.inl ⟨hlt, rfl⟩) fun hge => by omega⟩
  · rw [hext]
    exact .grow _ hj hnext
  · unfold Disk.setInode
    dsimp only
    rw [Function.update_self]

/-- **What `insert` does.** -/
theorem ends_insert {first count : ℕ} (h : Placed k.disk it) (hok : ListOk k.disk it.ino_)
    (hrange : first + count < 2 ^ 32) :
    Ends k (it.insert first count) fun r k' => r.1.ino_ = it.ino_ ∧ Placed k'.disk r.1 ∧ count ≠ 0 ∧
      Inserted k.disk it.ino_ it.eidx_ first count r.2 k'.disk := by
  refine .get ((ends_assert _).bind fun _ _ hlock => ?_)
  obtain ⟨-, rfl⟩ := hlock
  refine (ends_assert _).bind fun _ _ hcount => ?_
  obtain ⟨hcount, rfl⟩ := hcount
  refine .get ((ends_assert _).bind fun _ _ hin => ?_)
  obtain ⟨hin, rfl⟩ := hin
  refine (ends_assert _).bind fun _ _ halign => ?_
  obtain ⟨-, rfl⟩ := halign
  refine .get ?_
  dsimp only
  split_ifs with hgrow hmake
  · obtain ⟨hpos, hle, hnext⟩ := hgrow
    obtain ⟨hstored, hplaced⟩ := stored_growDirect h hok hrange ⟨hpos, hle⟩ hnext
    refine (ends_set_inode _ _).bind fun _ k₁ hset => .pure ?_
    rw [hset]
    exact ⟨rfl, hplaced, hcount, .stored hstored⟩
  · -- the indirect block is made
    obtain ⟨hidx, hzero⟩ := hmake
    refine (ends_assert _).bind fun _ _ hnone => ?_
    obtain ⟨hnone, rfl⟩ := hnone
    refine (ends_allocate_extent 1).bind fun bn k₁ halloc => ?_
    have halloc := Disk.allocate_extent_allocated Nat.zero_lt_one halloc
    split
    · next hcode =>
      refine .pure ⟨rfl, ?_⟩
      rcases halloc with ⟨hsame, -, hlt, -⟩ | ⟨hrun, -, -⟩
      · exact ⟨h.congr hsame.inode hsame.buf, hcount, .failed (by dsimp only; omega) hsame⟩
      · have hfits := hrun.fits
        rw [u32_eq.2.1] at hcode
        unfold bitsperblock at hfits
        omega
    next hcode =>
    rcases halloc with ⟨-, hcode', -, -⟩ | ⟨hrun, -, hmarked⟩
    · exact absurd hcode' hcode
    refine (ends_get_new_entry _).bind fun ok k₂ hsame => ?_
    split
    · refine (ends_set_buf _ _).bind fun _ k₃ hzeroed => (ends_set_inode _ _).bind fun _ k₄ hset => ?_
      have hmarked := marked_same hmarked hsame
      have hnew : NewIndirect k.disk it.ino_ bn k₄.disk := by
        refine ⟨hzero, hrun, fun b => ?_, ?_, ?_⟩
        · rw [hset, hzeroed]
          refine (hmarked.bit b).trans (if_congr ?_ rfl rfl)
          rw [Extent.mem_iff]
          dsimp only
          omega
        · rw [hset, hzeroed]
          unfold Disk.setInode Disk.setBuf
          dsimp only
          rw [hmarked.inode]
        · rw [hset, hzeroed]
          unfold Disk.setInode Disk.setBuf
          dsimp only
          rw [hmarked.buf]
      obtain ⟨hptr, hplaced⟩ := placed_newIndirect hnew h hidx hnone
      have hin' : Fileiter.active { it with indirect_entry_ := some bn } k₄.disk = false := by
        unfold active
        dsimp only
        rw [hptr]
      refine (ends_insertExtent hplaced (hnew.listOk hok) hin' hrange).mono fun r k' hr => ?_
      obtain ⟨hino, hplaced', ⟨hr, hstored⟩ | ⟨-, -, hnone⟩⟩ := hr
      · rw [hr]
        exact ⟨hino, hplaced', hcount, .indirect hnew hstored⟩
      · cases hnone
    · refine .pure ⟨rfl, h.congr (hsame.inode.trans hmarked.inode) (hsame.buf.trans hmarked.buf), hcount,
        .leaked hrun (marked_same hmarked hsame)⟩
  · refine (ends_insertExtent h hok hin hrange).mono fun r k' hr => ?_
    obtain ⟨hino, hplaced, ⟨hr, hstored⟩ | ⟨hr, hdisk, -⟩⟩ := hr
    · rw [hr]
      exact ⟨hino, hplaced, hcount, .stored hstored⟩
    · rw [hr]
      exact ⟨hino, hplaced, hcount, .failed (by decide) (hdisk ▸ .refl _)⟩

end Fileiter

end Chickadee.Chkfs
