import Chickadee.Chkfs.Grow
import Mathlib.Order.Filter.AtTopBot.Basic

/-!
# A free directory entry: `allocate_direntry`

The loop looks for a free entry in the blocks of the directory and then in those that it adds. It has no other
way out: a directory that can be given no such block is made larger and larger.
-/

namespace Chickadee.Chkfs

open Lib Fs

variable {k₀ k k' : Kernel} {d d' d₁ : Disk} {it : Fileiter} {ino b n : ℕ} {own R : Multiset Token}

/-! ## What a directory can provide -/

/-- One of the first `n` entries of a block is free. -/
def HasFree (b : Block) (n : ℕ) : Prop := ∃ de ∈ dirents b n, de.inum = 0

instance (b : Block) (n : ℕ) : Decidable (HasFree b n) := inferInstanceAs (Decidable (∃ de ∈ dirents b n, _))

/-- The size of a directory that had `n` blocks, when it is at its block `i`. -/
def sizeAt (size n i : ℕ) : ℕ := u32 ((size + blocksize * (i + 1 - n) : ℕ) : ℤ)

/-- The blocks of a directory, and those that it can be given. -/
def reachable (d : Disk) (ino : ℕ) : List ℕ := flat d ino ++ addable d ino

/-- The number of directory entries to look at in block `i`. -/
def entriesAt (d : Disk) (ino i : ℕ) : ℕ :=
  ndirents (sizeAt (d.inode ino).size (flat d ino).length i) (blocksize * i)

/-- From block `b` on there is no hole before a block with a free entry. -/
def Provides (d : Disk) (ino b : ℕ) : Prop :=
  ∃ i bn, b ≤ i ∧ (reachable d ino)[i]? = some bn ∧ (∀ j, b ≤ j → j ≤ i → (reachable d ino)[j]? ≠ some 0) ∧
    HasFree (d.buf bn) (entriesAt d ino i)

theorem provides_hole (h : (reachable d ino)[b]? = some 0) : ¬Provides d ino b := by
  rintro ⟨i, bn, hle, -, hholes, -⟩
  exact hholes b le_rfl hle h

theorem provides_end (h : (reachable d ino).length ≤ b) : ¬Provides d ino b := by
  rintro ⟨i, bn, hle, hget, -⟩
  rw [List.getElem?_eq_none (h.trans hle)] at hget
  cases hget

theorem provides_here {bn : ℕ} (hget : (reachable d ino)[b]? = some bn) (hbn : bn ≠ 0)
    (hfree : HasFree (d.buf bn) (entriesAt d ino b)) : Provides d ino b := by
  refine ⟨b, bn, le_rfl, hget, fun j hge hle => ?_, hfree⟩
  rw [Nat.le_antisymm hle hge, hget]
  exact fun h => hbn (Option.some.inj h)

/-- A block without a free entry is passed. -/
theorem provides_next {bn : ℕ} (hget : (reachable d ino)[b]? = some bn) (hbn : bn ≠ 0)
    (hfull : ¬HasFree (d.buf bn) (entriesAt d ino b)) : Provides d ino b ↔ Provides d ino (b + 1) := by
  constructor
  · rintro ⟨i, bn', hle, hget', hholes, hfree⟩
    rcases Nat.lt_or_eq_of_le hle with hlt | rfl
    · exact ⟨i, bn', hlt, hget', fun j hge => hholes j (Nat.le_of_succ_le hge), hfree⟩
    · rw [hget] at hget'
      cases hget'
      exact absurd hfree hfull
  · rintro ⟨i, bn', hle, hget', hholes, hfree⟩
    refine ⟨i, bn', Nat.le_of_succ_le hle, hget', fun j hge hle' => ?_, hfree⟩
    rcases Nat.lt_or_eq_of_le hge with hlt | rfl
    · exact hholes j hlt hle'
    · rw [hget]
      exact fun h => hbn (Option.some.inj h)

/-- The size of the directory is changed. -/
def resize (d : Disk) (ino size : ℕ) : Disk := d.setInode ino { d.inode ino with size := size }

theorem size_resize (d : Disk) (ino size : ℕ) : ((resize d ino size).inode ino).size = size := by
  unfold resize Disk.setInode
  dsimp only
  rw [Function.update_self]

theorem sameList_resize (d : Disk) (ino size : ℕ) : SameList d (resize d ino size) ino := by
  unfold resize Disk.setInode
  refine ⟨?_, ?_, rfl, fun _ => rfl⟩
  · dsimp only
    rw [Function.update_self]
  · dsimp only
    rw [Function.update_self]

theorem SameList.reachable_eq (h : SameList d d' ino) : reachable d' ino = reachable d ino := by
  unfold reachable
  rw [flat_congr h.extentOf_eq, h.addable_eq]

theorem Grew.reachable_eq (h : Grew d ino b d') : reachable d' ino = reachable d ino := by
  unfold reachable
  rw [h.flat, h.addable, List.append_assoc, List.singleton_append]

/-- The new block counts for the size. -/
theorem sizeAt_succ {size i : ℕ} (hle : n ≤ i) :
    sizeAt (u32 ((size : ℤ) + blocksize)) (n + 1) i = sizeAt size n i := by
  have hmore : i + 1 - n = (i + 1 - (n + 1)) + 1 := by omega
  unfold sizeAt u32
  rw [hmore]
  generalize i + 1 - (n + 1) = m
  unfold blocksize
  omega

section

variable {bn i x : ℕ} (h : Grew d ino bn d₁)

include h

theorem reachable_grew (size : ℕ) : reachable (resize d₁ ino size) ino = reachable d ino :=
  (sameList_resize d₁ ino size).reachable_eq.trans h.reachable_eq

theorem flat_grew (size : ℕ) : flat (resize d₁ ino size) ino = flat d ino ++ [bn] :=
  (flat_congr (sameList_resize d₁ ino size).extentOf_eq).trans h.flat

theorem entriesAt_grew (hle : (flat d ino).length ≤ i) :
    entriesAt (resize d₁ ino (u32 ((d.inode ino).size + blocksize))) ino i = entriesAt d ino i := by
  unfold entriesAt
  rw [size_resize, flat_grew h, List.length_append, List.length_singleton, sizeAt_succ hle]

theorem buf_grew (size : ℕ) (hle : (flat d ino).length ≤ i) (hget : (reachable d ino)[i]? = some x) :
    (resize d₁ ino size).buf x = d.buf x := by
  unfold reachable at hget
  rw [List.getElem?_append_right hle, h.addable] at hget
  exact h.buf_addable (List.mem_of_getElem? hget)

/-- **A block more makes no difference**: it was one that could be added. -/
theorem provides_grew :
    Provides (resize d₁ ino (u32 ((d.inode ino).size + blocksize))) ino (flat d ino).length ↔
      Provides d ino (flat d ino).length := by
  unfold Provides
  rw [reachable_grew h]
  refine exists_congr fun i => exists_congr fun x => and_congr_right fun hle => and_congr_right fun hget => ?_
  rw [entriesAt_grew h hle, buf_grew h _ hle hget]

end

/-- From block `b` on, block `i` is the first one that has a free entry. -/
structure FirstFree (d : Disk) (ino b i : ℕ) : Prop where
  le : b ≤ i
  free : ∃ bn, (reachable d ino)[i]? = some bn ∧ HasFree (d.buf bn) (entriesAt d ino i)
  full : ∀ j, b ≤ j → j < i → ∀ bn, (reachable d ino)[j]? = some bn → ¬HasFree (d.buf bn) (entriesAt d ino j)

theorem FirstFree.unique {i j : ℕ} (h : FirstFree d ino b i) (h' : FirstFree d ino b j) : i = j := by
  obtain ⟨bn, hget, hfree⟩ := h.free
  obtain ⟨bn', hget', hfree'⟩ := h'.free
  rcases Nat.lt_trichotomy i j with hlt | heq | hgt
  · exact absurd hfree (h'.full i h.le hlt bn hget)
  · exact heq
  · exact absurd hfree' (h.full j h'.le hgt bn' hget')

/-- Without a hole it is the first one that provides an entry. -/
theorem FirstFree.provides {i : ℕ} (h : FirstFree d ino b i) (hfull : 0 ∉ reachable d ino) : Provides d ino b := by
  obtain ⟨bn, hget, hfree⟩ := h.free
  exact ⟨i, bn, h.le, hget, fun j _ _ hzero => hfull (List.mem_of_getElem? hzero), hfree⟩

/-- The first `m` of the blocks that can be added have been added, and they count for the size. -/
structure Added (d : Disk) (ino m : ℕ) (d' : Disk) : Prop where
  inOrder : InOrder d' ino
  touched : Touched d d' ino
  le : m ≤ (addable d ino).length
  flat : flat d' ino = flat d ino ++ (addable d ino).take m
  size : (d'.inode ino).size = u32 (((d.inode ino).size + blocksize * m : ℕ) : ℤ)
  taken : ∀ x, d.fbb.bit x = false → d'.fbb.bit x = false
  took : ∀ x, d.fbb.bit x = true →
    d'.fbb.bit x = true ∨ x ∈ (addable d ino).take m ∨ (d'.inode ino).indirect = ⟨x, 1⟩
  indirect : (d'.inode ino).indirect = (d.inode ino).indirect ∨ (d.inode ino).indirect.count = 0 ∧
    ∃ bn, (d'.inode ino).indirect = ⟨bn, 1⟩ ∧ d.fbb.bit bn = true ∧ bn ∉ addable d ino
  buf : ∀ x, ((d'.inode ino).indirect.count = 1 → x ≠ (d'.inode ino).indirect.first) → d'.buf x = d.buf x

theorem added_zero (hok : InOrder d ino) (hsame : d.Same d') : Added d ino 0 d' := by
  have hrange := hok.range
  have hinode := congrFun hsame.inode ino
  refine ⟨(SameList.of_same hsame).inOrder hok (by rwa [hinode]), .of_inode hsame.sb hsame.inode, Nat.zero_le _, ?_, ?_,
    fun x hx => by rwa [hsame.fbb], fun x hx => .inl (by rwa [hsame.fbb]), .inl (by rw [hinode]),
    fun x _ => by rw [hsame.buf]⟩
  · rw [flat_same hsame, List.take_zero, List.append_nil]
  · rw [hinode, Nat.mul_zero, Nat.add_zero]
    unfold u32
    omega

/-- A block more. -/
theorem added_grew {bn m : ℕ} (h : Grew d ino bn d₁) (htouched : Touched d d₁ ino)
    (hadd : Added (resize d₁ ino (u32 ((d.inode ino).size + blocksize))) ino m d') : Added d ino (m + 1) d' := by
  have hlist := sameList_resize d₁ ino (u32 ((d.inode ino).size + blocksize))
  have hmore : Touched d₁ (resize d₁ ino (u32 ((d.inode ino).size + blocksize))) ino := touched_setInode rfl rfl rfl
  have hsize := size_resize d₁ ino (u32 ((d.inode ino).size + blocksize))
  generalize resize d₁ ino (u32 ((d.inode ino).size + blocksize)) = d₂ at *
  obtain ⟨hok, htouched', hle, hflat, hsize', htaken, htook, hindirect, hbuf⟩ := hadd
  rw [hlist.addable_eq] at hle hflat htook hindirect
  rw [hlist.indirect] at hindirect
  simp only [hlist.bit] at htaken htook hindirect
  have htake : (addable d ino).take (m + 1) = bn :: (addable d₁ ino).take m := by rw [h.addable, List.take_succ_cons]
  have hbn : d₁.fbb.bit bn = false := Bool.eq_false_iff.mpr fun hbit => ((h.bit bn).mp hbit).2.1 rfl
  refine ⟨hok, (htouched.trans hmore).trans htouched', ?_, ?_, ?_, fun x hx => ?_, fun x hx => ?_, ?_, fun x hx => ?_⟩
  · rw [h.addable, List.length_cons]
    exact Nat.succ_le_succ hle
  · rw [hflat, flat_congr hlist.extentOf_eq, h.flat, htake, List.append_assoc, List.singleton_append]
  · rw [hsize', hsize]
    unfold u32 blocksize
    omega
  · refine htaken x (Bool.eq_false_iff.mpr fun hbit => ?_)
    rw [((h.bit x).mp hbit).1] at hx
    cases hx
  · rw [htake, List.mem_cons]
    by_cases hfree : d₁.fbb.bit x = true
    · exact (htook x hfree).imp_right fun h => h.imp_left .inr
    · by_cases hx' : x = bn
      · exact .inr (.inl (.inl hx'))
      · -- the new indirect block
        have hnew : (d.inode ino).indirect.count = 0 ∧ (d₁.inode ino).indirect = ⟨x, 1⟩ := by
          by_contra hnot
          exact hfree ((h.bit x).mpr ⟨hx, hx', hnot⟩)
        rcases hindirect with heq | ⟨hzero, -⟩
        · exact .inr (.inr (heq.trans hnew.2))
        · rw [hnew.2] at hzero
          cases hzero
  · rcases hindirect with heq | ⟨hzero, bn', heq, hfree, hnot⟩
    · rw [heq]
      refine h.indirect.imp_right fun ⟨hzero, bn', heq', hfree, hne⟩ => ⟨hzero, bn', heq', hfree, fun hmem => ?_⟩
      rw [h.addable] at hmem
      rcases List.mem_cons.mp hmem with hb | hmem
      · exact hne hb
      · have hout := h.inOrder.taken (by rw [heq'])
        rw [heq', mem_addable hmem] at hout
        cases hout
    · rcases h.indirect with hold | ⟨-, bn'', hone, -, -⟩
      · rw [hold] at hzero
        refine .inr ⟨hzero, bn', heq, ((h.bit bn').mp hfree).1, fun hmem => ?_⟩
        rw [h.addable] at hmem
        rcases List.mem_cons.mp hmem with rfl | hmem
        · rw [hbn] at hfree
          cases hfree
        · exact hnot hmem
      · rw [hone] at hzero
        cases hzero
  · rw [hbuf x hx, hlist.buf]
    refine h.buf x fun hone => ?_
    rcases hindirect with heq | ⟨hzero, -⟩
    · rw [← heq] at hone ⊢
      exact hx hone
    · rw [hone] at hzero
      cases hzero

/-- The entry that is returned is in the first block that has a free one. -/
structure Gives (d : Disk) (ino b i : ℕ) (r : ℕ × ℕ) (d' : Disk) : Prop where
  first : FirstFree d ino b i
  block : (reachable d ino)[i]? = some r.1
  entry : r.2 < entriesAt d ino i
  added : Added d ino (i + 1 - (flat d ino).length) d'

theorem gives_grew {bn i : ℕ} {r : ℕ × ℕ} (h : Grew d ino bn d₁) (htouched : Touched d d₁ ino)
    (hgives : Gives (resize d₁ ino (u32 ((d.inode ino).size + blocksize))) ino (flat d ino).length i r d') :
    Gives d ino (flat d ino).length i r d' := by
  obtain ⟨⟨hle, hfree, hfull⟩, hblock, hentry, hadded⟩ := hgives
  rw [reachable_grew h] at hfree hfull hblock
  rw [entriesAt_grew h hle] at hentry
  rw [flat_grew h, List.length_append, List.length_singleton] at hadded
  refine ⟨⟨hle, ?_, fun j hge hlt bn' hget => ?_⟩, hblock, hentry, ?_⟩
  · obtain ⟨bn', hget, hfree⟩ := hfree
    rw [entriesAt_grew h hle, buf_grew h _ hle hget] at hfree
    exact ⟨bn', hget, hfree⟩
  · have hnone := hfull j hge hlt bn' hget
    rwa [entriesAt_grew h hge, buf_grew h _ hge hget] at hnone
  · have hadded := added_grew h htouched hadded
    rwa [show i + 1 - ((flat d ino).length + 1) + 1 = i + 1 - (flat d ino).length by omega] at hadded

/-- A block without a free entry is passed. -/
theorem Gives.next {bn i : ℕ} {r : ℕ × ℕ} (h : Gives d ino (b + 1) i r d') (hget : (reachable d ino)[b]? = some bn)
    (hfull : ¬HasFree (d.buf bn) (entriesAt d ino b)) : Gives d ino b i r d' := by
  obtain ⟨⟨hle, hfree, hnone⟩, hblock, hentry, hadded⟩ := h
  refine ⟨⟨Nat.le_of_succ_le hle, hfree, fun j hge hlt bn' hget' => ?_⟩, hblock, hentry, hadded⟩
  rcases Nat.lt_or_eq_of_le hge with hlt' | rfl
  · exact hnone j hlt' hlt bn' hget'
  · rw [hget] at hget'
    cases hget'
    exact hfull

/-! ## The loop -/

/-- A free entry of a directory: its block and its index. -/
def FreeSlot (d : Disk) (ino : ℕ) (r : ℕ × ℕ) : Prop :=
  ∃ i, (flat d ino)[i]? = some r.1 ∧ r.2 < ndirents (d.inode ino).size (blocksize * i) ∧
    (direntAt (d.buf r.1) r.2).inum = 0

/-- The loop returns a free entry. The size has grown by the blocks that the directory has got. -/
def Extended (d : Disk) (ino : ℕ) (r : ℕ × ℕ) (d' : Disk) : Prop :=
  FreeSlot d' ino r ∧ (flat d ino).length ≤ (flat d' ino).length ∧
    (d'.inode ino).size = u32 (((d.inode ino).size + blocksize * ((flat d' ino).length - (flat d ino).length) : ℕ) : ℤ)

/-- How often the loop has to go round, at most, before it returns. -/
def turns (d : Disk) (ino b : ℕ) : ℕ := (reachable d ino).length - b + (addable d ino).length

/-- Block `b` is one of the directory. -/
theorem entriesAt_eq (hrange : (d.inode ino).size < 2 ^ 32) (hb : b < (flat d ino).length) :
    entriesAt d ino b = ndirents (d.inode ino).size (blocksize * b) := by
  unfold entriesAt sizeAt u32
  rw [show b + 1 - (flat d ino).length = 0 by omega]
  congr 1
  omega

theorem extended_here {i bn : ℕ} (hok : InOrder d ino) (hsame : d.Same d') (hget : (flat d ino)[b]? = some bn)
    (hfind : ((dirents (d.buf bn) (ndirents (d.inode ino).size (blocksize * b))).findIdx? fun de => de.inum = 0) =
      some i) : Extended d ino (bn, i) d' := by
  obtain ⟨hlt, hfree, -⟩ := List.findIdx?_eq_some_iff_getElem.mp hfind
  unfold dirents at hlt hfree
  rw [List.length_map, List.length_range] at hlt
  rw [List.getElem_map, List.getElem_range, decide_eq_true_iff] at hfree
  have hsize := congrArg Inode.size (congrFun hsame.inode ino)
  refine ⟨⟨b, by rwa [flat_same hsame], by rwa [hsize], by rwa [hsame.buf]⟩, by rw [flat_same hsame], ?_⟩
  have hrange := hok.range
  rw [flat_same hsame, hsize, Nat.sub_self, Nat.mul_zero, Nat.add_zero]
  unfold u32
  omega

theorem not_hasFree {buf : Block} {m : ℕ} (h : ((dirents buf m).findIdx? fun de => de.inum = 0) = none) :
    ¬HasFree buf m := by
  rintro ⟨de, hmem, hzero⟩
  have hnot := List.findIdx?_eq_none_iff.mp h de hmem
  exact of_decide_eq_false hnot hzero

/-- What was there before a block was added. -/
theorem extended_grew {bn : ℕ} {r : ℕ × ℕ} (h : Grew d ino bn d₁)
    (hext : Extended (resize d₁ ino (u32 ((d.inode ino).size + blocksize))) ino r d') : Extended d ino r d' := by
  obtain ⟨hslot, hle, hsize⟩ := hext
  have hflat := flat_congr (sameList_resize d₁ ino (u32 ((d.inode ino).size + blocksize))).extentOf_eq
  rw [hflat, h.flat, List.length_append, List.length_singleton] at hle hsize
  refine ⟨hslot, by omega, ?_⟩
  rw [hsize, size_resize]
  obtain ⟨m, hm⟩ := Nat.exists_eq_add_of_le hle
  rw [hm, Nat.add_sub_cancel_left, Nat.add_assoc, Nat.add_sub_cancel_left]
  unfold u32 blocksize
  omega

theorem turns_grew {bn : ℕ} (h : Grew d ino bn d₁) (size b : ℕ) : turns (resize d₁ ino size) ino b + 1 = turns d ino b := by
  have hlist := sameList_resize d₁ ino size
  unfold turns
  rw [hlist.reachable_eq, h.reachable_eq, hlist.addable_eq, h.addable, List.length_cons,
    Nat.add_assoc]

/-- Reading the disk makes no difference. -/
theorem provides_same (h : d.Same d') : Provides d' ino b = Provides d ino b := by
  unfold Provides entriesAt
  rw [(SameList.of_same h).reachable_eq, flat_same h, h.buf, h.inode]

theorem turns_same (h : d.Same d') : turns d' ino b = turns d ino b := by
  unfold turns
  rw [(SameList.of_same h).reachable_eq, (SameList.of_same h).addable_eq]

theorem extended_same {r : ℕ × ℕ} (h : d.Same d') : Extended d' ino r d₁ = Extended d ino r d₁ := by
  unfold Extended
  rw [flat_same h, h.inode]

theorem Gives.of_same {i : ℕ} {r : ℕ × ℕ} (hgives : Gives d' ino b i r d₁) (h : d.Same d') : Gives d ino b i r d₁ := by
  obtain ⟨⟨hle, hfree, hfull⟩, hblock, hentry, ⟨hok, htouched, hmany, hflat, hsize, htaken, htook, hindirect, hbuf⟩⟩ :=
    hgives
  have hlist : SameList d d' ino := .of_same h
  have hentries : entriesAt d' ino = entriesAt d ino := by
    unfold entriesAt
    rw [flat_same h, h.inode]
  rw [hlist.reachable_eq, hentries, h.buf] at hfree hfull
  rw [hlist.reachable_eq] at hblock
  rw [hentries] at hentry
  rw [hlist.addable_eq, flat_same h] at hmany hflat
  rw [flat_same h, h.inode] at hsize
  rw [hlist.addable_eq, flat_same h, h.fbb] at htook
  rw [hlist.addable_eq, h.inode, h.fbb] at hindirect
  rw [h.fbb] at htaken
  rw [h.buf] at hbuf
  exact ⟨⟨hle, hfree, hfull⟩, hblock, hentry,
    ⟨hok, .trans (.of_inode h.sb h.inode) htouched, hmany, hflat, hsize, htaken, htook, hindirect, hbuf⟩⟩

theorem InOrder.same (hok : InOrder d ino) (h : d.Same d') : InOrder d' ino :=
  (SameList.of_same h).inOrder hok (by rw [h.inode]; exact hok.range)

theorem runs_set_size (hq : Quiet k₀ k own) :
    Runs k (set_inode ino fun i => { i with size := u32 (i.size + blocksize) }) fun _ k' =>
      Quiet k₀ k' own ∧ k'.disk = resize k.disk ino (u32 ((k.disk.inode ino).size + blocksize)) :=
  (runs_set_inode _ _ hq).and (ends_set_inode _ _)

theorem u32_lt (x : ℤ) : u32 x < 2 ^ 32 := by
  unfold u32
  omega

namespace Fileiter

/-- The loop is at block `b`, which is one of the directory or the first one behind. -/
structure AtBlock (k₀ : Kernel) (R : Multiset Token) (ino b : ℕ) (it : Fileiter) (k : Kernel) : Prop where
  placed : it.Placed k.disk
  ino_ : it.ino_ = ino
  inOrder : InOrder k.disk ino
  le : b ≤ (flat k.disk ino).length
  full : 0 ∉ (flat k.disk ino).take b
  quiet : Quiet k₀ k (it.own + R)

/-- The loop, which is at block `b` of the disk `d`, has returned. -/
structure LoopEnds (k₀ : Kernel) (R : Multiset Token) (d : Disk) (ino b : ℕ) (r : ℕ × ℕ) (k' : Kernel) : Prop where
  provides : Provides d ino b
  extended : Extended d ino r k'.disk
  gives : ∃ i, Gives d ino b i r k'.disk
  quiet : Quiet k₀ k' ({.ref (.data r.1)} + R)

/-- Why the loop stops with a fault: it takes too long, or there is a hole. -/
def LoopFails (d : Disk) (ino b n : ℕ) (e : Fault) : Prop :=
  ¬(Provides d ino b ∧ turns d ino b < n) ∧ (0 ∉ reachable d ino → e = .fuel)

/-- `n` turns from block `b` on are as they should be. -/
def LoopMeets (k₀ : Kernel) (R : Multiset Token) (n ino b : ℕ) (it : Fileiter) (k : Kernel) : Prop :=
  Meets (LoopFails k.disk ino b n) k (allocateDirentryLoop ino n it (blocksize * b)) (LoopEnds k₀ R k.disk ino b)

theorem LoopEnds.of_same {r : ℕ × ℕ} (h : LoopEnds k₀ R d' ino b r k') (hsame : d.Same d') : LoopEnds k₀ R d ino b r k' := by
  obtain ⟨hprovides, hextended, ⟨i, hgives⟩, hq⟩ := h
  rw [provides_same hsame] at hprovides
  rw [extended_same hsame] at hextended
  exact ⟨hprovides, hextended, ⟨i, hgives.of_same hsame⟩, hq⟩

theorem LoopFails.of_same {e : Fault} (h : LoopFails d' ino b n e) (hsame : d.Same d') : LoopFails d ino b n e := by
  unfold LoopFails at h ⊢
  rwa [provides_same hsame, turns_same hsame, (SameList.of_same hsame).reachable_eq] at h

/-- A block without a free entry is passed. -/
theorem LoopEnds.next {bn : ℕ} {r : ℕ × ℕ} (h : LoopEnds k₀ R d ino (b + 1) r k') (hget : (reachable d ino)[b]? = some bn)
    (hbn : bn ≠ 0) (hfull : ¬HasFree (d.buf bn) (entriesAt d ino b)) : LoopEnds k₀ R d ino b r k' := by
  obtain ⟨hprovides, hextended, ⟨i, hgives⟩, hq⟩ := h
  exact ⟨(provides_next hget hbn hfull).mpr hprovides, hextended, ⟨i, hgives.next hget hfull⟩, hq⟩

theorem LoopFails.next {bn : ℕ} {e : Fault} (h : LoopFails d ino (b + 1) n e) (hget : (reachable d ino)[b]? = some bn)
    (hnext : Provides d ino b ↔ Provides d ino (b + 1)) : LoopFails d ino b (n + 1) e := by
  refine ⟨fun hmany => h.1 ⟨hnext.mp hmany.1, ?_⟩, h.2⟩
  have hlen := (List.getElem?_eq_some_iff.mp hget).1
  have hmany := hmany.2
  unfold turns at hmany ⊢
  omega

/-- A block has been added. -/
theorem LoopEnds.grew {bn : ℕ} {r : ℕ × ℕ} (hgrew : Grew d ino bn d₁) (htouched : Touched d d₁ ino)
    (h : LoopEnds k₀ R (Chkfs.resize d₁ ino (u32 ((d.inode ino).size + blocksize))) ino (flat d ino).length r k') :
    LoopEnds k₀ R d ino (flat d ino).length r k' := by
  obtain ⟨hprovides, hextended, ⟨i, hgives⟩, hq⟩ := h
  exact ⟨(provides_grew hgrew).mp hprovides, extended_grew hgrew hextended, ⟨i, gives_grew hgrew htouched hgives⟩, hq⟩

theorem LoopFails.grew {bn : ℕ} {e : Fault} (hgrew : Grew d ino bn d₁)
    (h : LoopFails (Chkfs.resize d₁ ino (u32 ((d.inode ino).size + blocksize))) ino (flat d ino).length n e) :
    LoopFails d ino (flat d ino).length (n + 1) e := by
  have hturns := turns_grew hgrew (u32 ((d.inode ino).size + blocksize)) (flat d ino).length
  refine ⟨fun hmany => h.1 ⟨(provides_grew hgrew).mpr hmany.1, by omega⟩, fun hzero => h.2 ?_⟩
  rwa [reachable_grew hgrew]

/-- The size counts for nothing here. -/
theorem AtBlock.resize {size : ℕ} (h : AtBlock k₀ R ino b it k) (hq : Quiet k₀ k' (it.own + R))
    (hdisk : k'.disk = Chkfs.resize k.disk ino size) (hsize : size < 2 ^ 32) : AtBlock k₀ R ino b it k' := by
  obtain ⟨hplaced, rfl, hok, hle, hfull, -⟩ := h
  have hlist := sameList_resize k.disk it.ino_ size
  rw [← hdisk] at hlist
  have hflat := flat_congr hlist.extentOf_eq
  refine ⟨hplaced.of hlist.extentOf_eq hlist.indirect, rfl, hlist.inOrder hok ?_, by rwa [hflat], by rwa [hflat], hq⟩
  rwa [hdisk, size_resize]

section

variable (ih : ∀ {it : Fileiter} {k : Kernel} {b : ℕ}, AtBlock k₀ R ino b it k → LoopMeets k₀ R n ino b it k)

include ih

/-- Where nothing can be provided the loop goes on for ever. -/
theorem meets_stuck {E : Fault → Prop} {Q : ℕ × ℕ → Kernel → Prop} (h : AtBlock k₀ R ino b it k)
    (hE : ∀ e, (0 ∉ reachable k.disk ino → e = .fuel) → E e)
    (hdead : ∀ d', reachable d' ino = reachable k.disk ino → ¬Provides d' ino b) :
    Meets E k (do
      set_inode ino fun i => { i with size := u32 (i.size + blocksize) }
      allocateDirentryLoop ino n it (blocksize * b)) Q := by
  refine .run_bind (runs_set_size h.quiet) fun _ k₁ hset => ?_
  obtain ⟨hq₁, hdisk⟩ := hset
  have hreach : reachable k₁.disk ino = reachable k.disk ino := by
    rw [hdisk]
    exact (sameList_resize _ _ _).reachable_eq
  have hmeets : LoopMeets k₀ R n ino b it k₁ := ih (h.resize hq₁ hdisk (u32_lt _))
  refine Meets.mono (Meets.imp hmeets fun e he => hE e ?_) fun r k' hr => absurd hr.provides (hdead _ hreach)
  rw [← hreach]
  exact he.2

/-- Behind the last block the directory grows, if it can. -/
theorem meets_end (h : AtBlock k₀ R ino (flat k.disk ino).length it k) (hfound : it.Found k.disk ino off)
    (hin : it.active k.disk = false) (hlock : k₀.mlock (.inode ino) = .writer)
    (hnew : ∀ i, k₀.disk.availNew i = true) :
    Meets (LoopFails k.disk ino (flat k.disk ino).length (n + 1)) k (do
      let it ← growDirectory it
      set_inode ino fun i => { i with size := u32 (i.size + blocksize) }
      allocateDirentryLoop ino n it (blocksize * (flat k.disk ino).length))
      (LoopEnds k₀ R k.disk ino (flat k.disk ino).length) := by
  have hfull := h.full
  rw [List.take_length] at hfull
  refine .run_bind ((runs_growDirectory hfound hin h.inOrder hfull hlock hnew h.quiet).and
    it.ends_growDirectory_touched) fun it' k₁ hgrow => ?_
  obtain ⟨⟨hq₁, hino, hplaced, ⟨bn, hgrew⟩ | ⟨hnil, hlist, hsize⟩⟩, htouched⟩ := hgrow
  · have hat : AtBlock k₀ R ino (flat k.disk ino).length it' k₁ := by
      refine ⟨hplaced, hino, hgrew.inOrder, ?_, ?_, hq₁⟩
      · rw [hgrew.flat, List.length_append]
        exact Nat.le_add_right _ _
      · rwa [hgrew.flat, List.take_left]
    rw [hfound.ino_] at htouched
    refine .run_bind (runs_set_size hq₁) fun _ k₂ hset => ?_
    obtain ⟨hq₂, hdisk⟩ := hset
    have hmeets : LoopMeets k₀ R n ino _ it' k₂ := ih (hat.resize hq₂ hdisk (u32_lt _))
    unfold LoopMeets at hmeets
    rw [hdisk, hgrew.size] at hmeets
    exact (hmeets.imp fun e he => he.grew hgrew).mono fun r k' hr => hr.grew hgrew htouched
  · -- there is no block
    have hflat := flat_congr hlist.extentOf_eq
    have hreach : reachable k.disk ino = flat k.disk ino := by
      unfold reachable
      rw [hnil, List.append_nil]
    have hdead : ∀ d', reachable d' ino = reachable k.disk ino → ¬Provides d' ino (flat k.disk ino).length := by
      intro d' heq
      exact provides_end (by rw [heq, hreach])
    have hat : AtBlock k₀ R ino (flat k.disk ino).length it' k₁ := by
      refine ⟨hplaced, hino, hlist.inOrder h.inOrder (hsize ▸ h.inOrder.range), ?_, ?_, hq₁⟩
      · rw [hflat]
      · rwa [hflat, List.take_length]
    refine meets_stuck ih hat (fun e he => ⟨fun hmany => hdead _ rfl hmany.1, ?_⟩) fun d' heq => hdead d' ?_
    · rwa [← hlist.reachable_eq]
    · rw [heq, hlist.reachable_eq]

end

/--
**The loop returns exactly if the directory has, or can be given, a free entry.** It stops with a fault only
where there is none, or where it has too few turns.
-/
theorem meets_allocateDirentryLoop (hlock : k₀.mlock (.inode ino) = .writer) (hnew : ∀ i, k₀.disk.availNew i = true)
    (n : ℕ) (h : AtBlock k₀ R ino b it k) : LoopMeets k₀ R n ino b it k := by
  induction n generalizing k it b with
  | zero => exact .inr ⟨.fuel, rfl, fun hmany => Nat.not_lt_zero _ hmany.2, fun _ => rfl⟩
  | succ n ih =>
    unfold LoopMeets allocateDirentryLoop
    refine .run_bind (runs_find (blocksize * b) h.placed h.quiet) fun it₁ k₁ hfind => ?_
    obtain ⟨hq₁, hsame₁, hfound, hstop⟩ := hfind
    rw [h.ino_] at hfound
    have hentry := runs_entry hfound h.inOrder.toListOk hstop hsame₁ hq₁
    rw [Nat.mul_div_cancel_left _ (by decide)] at hentry
    refine .run_bind hentry fun e k₂ he => ?_
    obtain ⟨hsame₂, hq₂, rfl⟩ := he
    -- from here on the state is `k₂`, which looks the same
    refine Meets.mono (Meets.imp (E := LoopFails k₂.disk ino b (n + 1)) ?_ fun e he => he.of_same hsame₂)
      fun r k' hr => LoopEnds.of_same hr hsame₂
    rw [← flat_same hsame₂] at hq₂ ⊢
    replace hfound := hfound.congr hsame₂.inode hsame₂.buf
    have hactive := hfound.active_eq
    rw [Nat.mul_div_cancel_left _ (by decide)] at hactive
    have hok := h.inOrder.same hsame₂
    have hle := h.le
    have hfull := h.full
    rw [← flat_same hsame₂] at hle hfull
    rcases Nat.lt_or_eq_of_le hle with hlt | rfl
    · -- block `b` is one of the directory
      obtain ⟨bn, hget⟩ : ∃ bn, (flat k₂.disk ino)[b]? = some bn := ⟨_, List.getElem?_eq_getElem hlt⟩
      have hreach : (reachable k₂.disk ino)[b]? = some bn := by
        unfold reachable
        rw [List.getElem?_append_left hlt, hget]
      have hgetD : (flat k₂.disk ino).getD b 0 = bn := by
        rw [List.getD_eq_getElem?_getD, hget]
        rfl
      rw [hgetD] at hq₂ ⊢
      by_cases hbn : bn = 0
      · -- a hole
        subst hbn
        have hdead : ∀ d', reachable d' ino = reachable k₂.disk ino → ¬Provides d' ino b := by
          intro d' heq
          exact provides_hole (by rw [heq, hreach])
        have hE : ∀ e, LoopFails k₂.disk ino b (n + 1) e := fun e =>
          ⟨fun hmany => hdead _ rfl hmany.1, fun hzero => absurd (List.mem_of_getElem? hreach) hzero⟩
        rw [if_pos rfl] at hq₂ ⊢
        rw [entry, zero_add] at hq₂
        have hin : it₁.active k₂.disk = true := hactive.trans (decide_eq_true hlt)
        refine ((meets_growDirectory_hole hfound hin hq₂).imp fun e _ => hE e).bind fun it₂ k₃ hgrow => ?_
        obtain ⟨rfl, hsame₃, hq₃⟩ := hgrow
        have hat : AtBlock k₀ R ino b it₂ k₃ := by
          refine ⟨hfound.toPlaced.congr hsame₃.inode hsame₃.buf, hfound.ino_, hok.same hsame₃, ?_, ?_, hq₃⟩
          · rwa [flat_same hsame₃]
          · rwa [flat_same hsame₃]
        refine meets_stuck ih hat (fun e _ => hE e) fun d' heq => hdead d' ?_
        rw [heq, (SameList.of_same hsame₃).reachable_eq]
      · have hentries := entriesAt_eq hok.range hlt
        rw [if_neg hbn] at hq₂ ⊢
        refine .get ?_
        dsimp only
        split
        · next i hfind =>
          -- a free entry is found
          have hfree : HasFree (k₂.disk.buf bn) (entriesAt k₂.disk ino b) := by
            obtain ⟨hlt, hfree, -⟩ := List.findIdx?_eq_some_iff_getElem.mp hfind
            refine ⟨_, ?_, of_decide_eq_true hfree⟩
            rw [hentries]
            exact List.getElem_mem hlt
          have hin : i < entriesAt k₂.disk ino b := by
            have hlt := (List.findIdx?_eq_some_iff_getElem.mp hfind).1
            unfold dirents at hlt
            rwa [List.length_map, List.length_range, ← hentries] at hlt
          rw [entry, add_left_comm] at hq₂
          refine .run_bind ((runs_destroy hq₂).and ends_destroy) fun _ k₃ hdestroy => .pure ?_
          obtain ⟨hq₃, hdisk⟩ := hdestroy
          have hfirst : FirstFree k₂.disk ino b b :=
            ⟨le_rfl, ⟨bn, hreach, hfree⟩, fun j hge hlt => absurd hlt (not_lt.mpr hge)⟩
          refine ⟨provides_here hreach hbn hfree, ?_, ⟨b, hfirst, hreach, hin, ?_⟩, hq₃⟩
          · rw [hdisk]
            exact extended_here hok (.refl _) hget hfind
          · rw [hdisk, show b + 1 - (flat k₂.disk ino).length = 0 by omega]
            exact added_zero hok (.refl _)
        · next hnone =>
          have hnot : ¬HasFree (k₂.disk.buf bn) (entriesAt k₂.disk ino b) := hentries ▸ not_hasFree hnone
          have hnext := provides_next hreach hbn hnot
          rw [entry] at hq₂
          refine .run_bind ((runs_put _ hq₂).and (ends_put _)) fun _ k₃ hput => ?_
          obtain ⟨hq₃, hdisk⟩ := hput
          have hat : AtBlock k₀ R ino (b + 1) it₁ k₃ := by
            rw [← hdisk] at hfound hok hlt hfull hget
            refine ⟨hfound.toPlaced, hfound.ino_, hok, hlt, ?_, hq₃⟩
            rw [List.take_add_one, hget]
            simp [hfull, Ne.symm hbn]
          have hmeets : LoopMeets k₀ R n ino (b + 1) it₁ k₃ := ih hat
          unfold LoopMeets at hmeets
          rw [hdisk] at hmeets
          exact (hmeets.imp fun e he => he.next hreach hnext).mono fun r k' hr => hr.next hreach hbn hnot
    · -- behind the last block
      have hzero : (flat k₂.disk ino).getD (flat k₂.disk ino).length 0 = 0 := by
        rw [List.getD_eq_getElem?_getD, List.getElem?_eq_none le_rfl]
        rfl
      rw [if_pos hzero] at hq₂ ⊢
      rw [entry, zero_add] at hq₂
      have hin : it₁.active k₂.disk = false := hactive.trans (decide_eq_false (lt_irrefl _))
      exact meets_end ih ⟨hfound.toPlaced, hfound.ino_, hok, le_rfl, hfull, hq₂⟩ hfound hin hlock hnew

end Fileiter

/-! ## `allocate_direntry` -/

/--
A call of `allocate_direntry` that may run for long enough returns a free entry, and the size of the directory
has grown by the blocks that were added to its extents. There is no other result.
-/
def Allocates (k : Kernel) (ino : ℕ) : Prop :=
  ∀ᶠ fuel in Filter.atTop, Runs k (allocate_direntry fuel ino) fun r k' => Extended k.disk ino r k'.disk

theorem meets_allocate_direntry (fuel : ℕ) (hok : InOrder k.disk ino) (hlock : k₀.mlock (.inode ino) = .writer)
    (hnew : ∀ i, k₀.disk.availNew i = true) (hq : Quiet k₀ k own) :
    Meets (Fileiter.LoopFails k.disk ino 0 fuel) k (allocate_direntry fuel ino)
      (Fileiter.LoopEnds k₀ own k.disk ino 0) := by
  refine Fileiter.meets_allocateDirentryLoop hlock hnew fuel
    ⟨Fileiter.placed_fileiter k.disk ino, rfl, hok, Nat.zero_le _, List.not_mem_nil, ?_⟩
  rwa [Fileiter.own_fileiter, zero_add]

/--
**When `allocate_direntry` returns**: some block that the directory has, or that can be added to it, has a free
entry, and there is no hole before it.
-/
theorem allocate_direntry_iff (hok : InOrder k.disk ino) (hlock : k.mlock (.inode ino) = .writer)
    (havail : k.disk.AllAvail) : Allocates k ino ↔ Provides k.disk ino 0 := by
  constructor
  · intro h
    obtain ⟨fuel, r, k', hrun, -⟩ := h.exists
    exact ((meets_allocate_direntry fuel hok hlock havail.availNew (.refl havail.avail)).ends r k' hrun).provides
  · intro hprovides
    refine Filter.eventually_atTop.mpr ⟨turns k.disk ino 0 + 1, fun fuel hfuel => ?_⟩
    have hmeets := meets_allocate_direntry fuel hok hlock havail.availNew (.refl havail.avail)
    exact ((hmeets.imp fun e he => he.1 ⟨hprovides, hfuel⟩).runs).mono fun r k' hr => hr.extended

/-! A root directory without a free entry, on a disk without a free block and on one where block 12 is free. -/

def crowdedDisk (fbb : Words) : Disk where
  sb := ⟨4, 10, 0⟩
  fbb := fbb
  inode i := if i = 1 then single type_directory 4096 ⟨10, 1⟩ else single 0 0 ⟨0, 0⟩
  buf bn := if bn = 10 then fun _ => 1 else fun _ => 0
  avail _ := true
  availNew _ := true

def noneFree : Words := fun _ => 0#64

theorem bit_noneFree (n : ℕ) : noneFree.bit n = false := by simp [noneFree, Words.bit]

theorem freeBlocks_noneFree : freeBlocks noneFree = [] :=
  List.filter_eq_nil_iff.mpr fun n _ => by simp [bit_noneFree]

theorem freeBlocks_twelve : freeBlocks (noneFree.set 12 true) = [12] := by
  have hbit : ∀ n, (noneFree.set 12 true).bit n = if n = 12 then true else false := fun n => by
    rw [Words.bit_set, bit_noneFree]
  rw [← freeBlocks_noneFree]
  refine filter_range_cons (by decide) (by rw [hbit, if_pos rfl]) (fun a ha => ?_) fun a => ?_
  · rw [hbit, if_neg ha.ne]
  · rw [hbit, bit_noneFree]
    split <;> rfl

theorem crowded_inOrder (fbb : Words) : InOrder (crowdedDisk fbb) 1 ∧ flat (crowdedDisk fbb) 1 = [10] := by
  have hinode : (crowdedDisk fbb).inode 1 = single type_directory 4096 ⟨10, 1⟩ := rfl
  obtain ⟨hwf, hflat⟩ := wellFormed_single hinode (by decide) (by decide)
  refine ⟨⟨hwf, show 4096 < 2 ^ 32 by decide, fun hone => ?_⟩, hflat⟩
  cases hone

/-- The blocks of a directory of one block, and those that it can be given. -/
theorem reachable_single {type size bn : ℕ} (hinode : d.inode ino = single type size ⟨bn, 1⟩)
    (hrange : bn + 1 < 2 ^ 32) : reachable d ino = bn :: additions (freeBlocks d.fbb) 1 (bn + 1) false := by
  have hext : ∀ i < ndirect, extentOf d ino i = if i = 0 then ⟨bn, 1⟩ else ⟨0, 0⟩ := fun i hi => by
    rw [extentOf_direct hi, hinode]
    rfl
  have hone : nextents d ino = 1 := by
    refine nextents_eq (fun i hi => ?_) ?_
    · rw [Nat.lt_one_iff.mp hi, hext 0 (by decide)]
      exact Nat.one_ne_zero
    · rw [hext 1 (by decide), if_neg Nat.one_ne_zero]
  have hflat : flat d ino = [bn] := by
    rw [(wellFormed_single hinode hrange fun h => absurd h Nat.one_ne_zero).2, numbers_one]
  have hlast : lastEnd d ino = bn + 1 := by
    unfold lastEnd
    rw [hone, hext 0 (by decide), if_pos rfl]
  have hnone : decide ((d.inode ino).indirect.count = 1) = false := by
    rw [hinode]
    rfl
  unfold reachable addable
  rw [hflat, hone, hlast, hnone, List.singleton_append]

/-- On the full disk nothing can be provided. -/
theorem not_provides_crowded : ¬Provides (crowdedDisk noneFree) 1 0 := by
  have hflat := (crowded_inOrder noneFree).2
  have hreach : reachable (crowdedDisk noneFree) 1 = [10] := by
    rw [reachable_single (d := crowdedDisk noneFree) rfl (by decide),
      show (crowdedDisk noneFree).fbb = noneFree from rfl, freeBlocks_noneFree]
    rfl
  rintro ⟨i, bn, -, hget, -, hfree⟩
  rw [hreach] at hget
  unfold entriesAt at hfree
  rw [hflat] at hfree
  cases i with
  | zero =>
    cases hget
    revert hfree
    decide +kernel
  | succ i => cases hget

/-- **The loop goes on for ever** on a full disk. -/
theorem allocate_direntry_full :
    InOrder (crowdedDisk noneFree) 1 ∧ ∀ fuel r k',
      allocate_direntry fuel 1 (kernelOn (crowdedDisk noneFree) .writer) ≠ .ok (r, k') := by
  refine ⟨(crowded_inOrder _).1, fun fuel r k' hrun => not_provides_crowded ?_⟩
  exact ((meets_allocate_direntry (k := kernelOn (crowdedDisk noneFree) .writer) fuel (crowded_inOrder _).1 rfl
    (fun _ => rfl) (.refl fun _ => rfl)).ends r k' hrun).provides

/-- With one free block there is room for an entry, without one there is not. -/
theorem allocate_direntry_iff_crowded :
    Allocates (kernelOn (crowdedDisk (noneFree.set 12 true)) .writer) 1 ∧
      ¬Allocates (kernelOn (crowdedDisk noneFree) .writer) 1 := by
  have hiff := fun fbb => allocate_direntry_iff (k := kernelOn (crowdedDisk fbb) .writer) (crowded_inOrder fbb).1 rfl
    ⟨fun _ => rfl, fun _ => rfl⟩
  refine ⟨(hiff _).mpr ?_, fun h => not_provides_crowded ((hiff _).mp h)⟩
  have hflat := (crowded_inOrder (noneFree.set 12 true)).2
  have hreach : reachable (crowdedDisk (noneFree.set 12 true)) 1 = [10, 12] := by
    rw [reachable_single (d := crowdedDisk (noneFree.set 12 true)) rfl (by decide),
      show (crowdedDisk (noneFree.set 12 true)).fbb = noneFree.set 12 true from rfl, freeBlocks_twelve]
    decide
  have hfree : HasFree ((crowdedDisk (noneFree.set 12 true)).buf 12)
      (entriesAt (crowdedDisk (noneFree.set 12 true)) 1 1) := by
    unfold entriesAt
    rw [hflat]
    decide +kernel
  refine ⟨1, 12, Nat.zero_le 1, ?_, fun j _ hle => ?_, hfree⟩
  · exact congrArg (fun l => l[1]?) hreach
  · rw [show reachable (kernelOn (crowdedDisk (noneFree.set 12 true)) .writer).disk 1 = [10, 12] from hreach]
    interval_cases j <;> decide

end Chickadee.Chkfs
