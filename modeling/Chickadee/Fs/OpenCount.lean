import Chickadee.Fs.Open
import Chickadee.Fd.Refcount
import Chickadee.Lib.Literals

/-!
# The count in an inode is the number of its open files

`inode::put` decrements the count without telling the buffer cache that the block has changed. If the block
is dropped before something else makes it dirty, the old count comes back from the disk. Everything else
that changes a count marks the block, so that in all other runs the count is right, and an unlinked file is
freed when, and only when, its last vnode is.
-/

namespace Chickadee.Fs.Open

open Lib

set_option linter.unusedSectionVars false

variable {V G T S N : Type} [DecidableEq V] [DecidableEq G] [DecidableEq T] [DecidableEq S]
  [DecidableEq N] {console v w : V} {i j b n : ℕ} {p : ℕ → Prop} {s s' : State V G T S N} {d d' : Disk}

/-! ## The conditions -/

/-- If the last vnode of an unlinked file is deleted, the file has no indirect block. -/
def MayDelete (s : State V G T S N) (slot : Option V) : Prop :=
  ∀ v ∈ slot, v ∈ s.live → s.fd.refcount_ v = 1 →
    (s.fs.inode (s.ino_ v)).flags = 2 + unlinked → (s.fs.inode (s.ino_ v)).indirect.count = 0

/-- If a file that is not open is unlinked, it has no indirect block. -/
def MayUnlink (s : State V G T S N) (pathname : N) : Prop :=
  ∀ i ∈ s.names pathname, (s.fs.inode i).type = type_regular → (s.fs.inode i).flags = linked →
    (s.fs.inode i).indirect.count = 0

/-- The steps after which the counts stay right. -/
def Orderly (s : State V G T S N) : Act V G T N → Prop
  | .dup2 g _ newfd => MayDelete s (s.fd.fdtable_ g newfd)
  | .close g _ fd => MayDelete s (s.fd.fdtable_ g fd)
  | .unlink pathname => MayUnlink s pathname
  | .sync drop => 0 < drop → ∀ b ∈ s.missed, b ∈ s.dirty ∨ s.Referenced b
  | .evict b => b ∉ s.missed
  | _ => True

instance (s : State V G T S N) (slot : Option V) : Decidable (MayDelete s slot) :=
  inferInstanceAs (Decidable (∀ v ∈ slot, v ∈ s.live → s.fd.refcount_ v = 1 →
    (s.fs.inode (s.ino_ v)).flags = 2 + unlinked → (s.fs.inode (s.ino_ v)).indirect.count = 0))

instance (s : State V G T S N) (pathname : N) : Decidable (MayUnlink s pathname) :=
  inferInstanceAs (Decidable (∀ i ∈ s.names pathname, (s.fs.inode i).type = type_regular →
    (s.fs.inode i).flags = linked → (s.fs.inode i).indirect.count = 0))

instance (s : State V G T S N) : (a : Act V G T N) → Decidable (Orderly s a)
  | .dup2 g _ newfd => inferInstanceAs (Decidable (MayDelete s (s.fd.fdtable_ g newfd)))
  | .close g _ fd => inferInstanceAs (Decidable (MayDelete s (s.fd.fdtable_ g fd)))
  | .unlink pathname => inferInstanceAs (Decidable (MayUnlink s pathname))
  | .sync drop =>
    inferInstanceAs (Decidable (0 < drop → ∀ b ∈ s.missed, b ∈ s.dirty ∨ s.Referenced b))
  | .evict b => inferInstanceAs (Decidable (b ∉ s.missed))
  | .open_ _ _ _ _ _ _ | .fork _ _ _ | .write _ => isTrue trivial

/-! ## The claim -/

/-- The claim on a state. -/
structure OpenOk (s : State V G T S N) : Prop where
  /-- the count of an allocated regular inode is the number of live vnodes on it -/
  count : ∀ i, (s.fs.inode i).type = type_regular → (s.fs.inode i).flags / 2 = s.liveOn i
  /-- the inode of a live vnode, unlinked or not, is still there, and its blocks are not free -/
  intact : ∀ v ∈ s.live, (s.fs.inode (s.ino_ v)).type = type_regular ∧
    ∀ b, Disk.Owns s.fs (s.ino_ v) b → s.fs.fbb.bit b = false
  /-- an unlinked file that is still there has a live vnode -/
  freed : ∀ i, (s.fs.inode i).type = type_regular → (s.fs.inode i).flags % 2 = unlinked →
    0 < s.liveOn i

/-- The claim on a step: only unlinked files are freed, after their last vnode and with their blocks. -/
def FreedOk (s s' : State V G T S N) : Prop :=
  ∀ i, (s.fs.inode i).type = type_regular → (s'.fs.inode i).type ≠ type_regular →
    s'.liveOn i = 0 ∧ ∀ b, Disk.Owns s.fs i b → s'.fs.fbb.bit b = true

/-- A file system in which no file is open or unlinked, and nothing is in the cache. -/
structure Init (s : State V G T S N) : Prop where
  live : s.live = ∅
  flags : ∀ i, (s.fs.inode i).type = type_regular → (s.fs.inode i).flags = linked
  names : ∀ n i, s.names n = some i → (s.fs.inode i).type ≠ 0 ∧ (s.fs.inode i).flags % 2 = linked
  wellFormed : ∀ i, (s.fs.inode i).type = type_regular → ∃ n, Disk.WellFormed s.fs i n
  taken : ∀ i, (s.fs.inode i).type = type_regular → ∀ b, Disk.Owns s.fs i b → s.fs.fbb.bit b = false
  disjoint : ∀ i j, (s.fs.inode i).type = type_regular → (s.fs.inode j).type = type_regular →
    ∀ b, Disk.Owns s.fs i b → Disk.Owns s.fs j b → i = j
  empty : ∀ i, (s.fs.inode i).type = 0 → Disk.Empty (s.fs.inode i)
  stored : s.stored = s.fs.inode

/-! ## The blocks of the files -/

/-- The blocks of different files are different, and not free. -/
structure Blocks (d : Disk) : Prop where
  wellFormed : ∀ i, (d.inode i).type = type_regular → ∃ n, Disk.WellFormed d i n
  taken : ∀ i, (d.inode i).type = type_regular → ∀ b, Disk.Owns d i b → d.fbb.bit b = false
  disjoint : ∀ i j, (d.inode i).type = type_regular → (d.inode j).type = type_regular →
    ∀ b, Disk.Owns d i b → Disk.Owns d j b → i = j
  empty : ∀ i, (d.inode i).type = 0 → Disk.Empty (d.inode i)

/-- The extents of `i` are the same. -/
structure SameExtents (d d' : Disk) (i : ℕ) : Prop where
  direct : (d'.inode i).direct = (d.inode i).direct
  indirect : (d'.inode i).indirect = (d.inode i).indirect
  buf : d'.buf = d.buf
  sb : d'.sb = d.sb

theorem SameExtents.owns (h : SameExtents d d' i) (b : ℕ) : Disk.Owns d' i b ↔ Disk.Owns d i b := by
  unfold Disk.Owns
  rw [h.direct, h.indirect, h.buf]

theorem SameExtents.wellFormed (h : SameExtents d d' i) (hwf : Disk.WellFormed d i n) :
    Disk.WellFormed d' i n := by
  obtain ⟨h₁, h₂, h₃, h₄, h₅, h₆⟩ := hwf
  refine ⟨by rw [h.sb]; exact h₁, h₂, ?_, ?_, ?_, ?_⟩
  · rw [h.direct]
    exact h₃
  · rw [h.direct]
    exact h₄
  · rw [h.direct]
    exact h₅
  · rw [h.indirect]
    exact h₆

theorem sameExtents_of_inode (hinode : d'.inode i = d.inode i) (hbuf : d'.buf = d.buf)
    (hsb : d'.sb = d.sb) : SameExtents d d' i :=
  ⟨by rw [hinode], by rw [hinode], hbuf, hsb⟩

/-- Neither the extents nor the types change. -/
theorem Blocks.same (h : Blocks d) (hext : ∀ i, SameExtents d d' i)
    (htype : ∀ i, (d'.inode i).type = (d.inode i).type) (hfbb : d'.fbb = d.fbb) : Blocks d' := by
  refine ⟨fun i hi => ?_, fun i hi b hb => ?_, fun i j hi hj b hib hjb => ?_, fun i hi => ?_⟩
  · rw [htype] at hi
    obtain ⟨n, hwf⟩ := h.wellFormed i hi
    exact ⟨n, (hext i).wellFormed hwf⟩
  · rw [htype] at hi
    rw [hfbb]
    exact h.taken i hi b (((hext i).owns b).mp hb)
  · rw [htype] at hi hj
    exact h.disjoint i j hi hj b (((hext i).owns b).mp hib) (((hext j).owns b).mp hjb)
  · rw [htype] at hi
    have := h.empty i hi
    exact ⟨by rw [(hext i).direct]; exact this.1, by rw [(hext i).indirect]; exact this.2⟩

/-- An inode changes in other fields. -/
theorem Blocks.setInode (h : Blocks d) {ino : Inode} (htype : ino.type = (d.inode i).type)
    (hdirect : ino.direct = (d.inode i).direct) (hindirect : ino.indirect = (d.inode i).indirect) :
    Blocks (d.setInode i ino) := by
  have hcase : ∀ j, (d.setInode i ino).inode j = d.inode j ∨
      (j = i ∧ (d.setInode i ino).inode j = ino) := fun j => by
    by_cases hj : j = i
    · exact .inr ⟨hj, by simp [Disk.setInode, hj]⟩
    · exact .inl (Function.update_of_ne hj _ _)
  refine h.same (fun j => ?_) (fun j => ?_) rfl
  · rcases hcase j with hj | ⟨rfl, hj⟩
    · exact sameExtents_of_inode hj rfl rfl
    · exact ⟨by rw [hj, hdirect], by rw [hj, hindirect], rfl, rfl⟩
  · rcases hcase j with hj | ⟨rfl, hj⟩ <;> rw [hj]
    exact htype

/-- A file is freed. -/
theorem Blocks.released (h : Blocks d) (hi : (d.inode i).type = type_regular)
    (hr : Disk.Released d i d') : Blocks d' := by
  have hne : ∀ j, (d'.inode j).type = type_regular → j ≠ i := by
    rintro j hj rfl
    rw [hr.type] at hj
    cases hj
  have hext : ∀ j, j ≠ i → SameExtents d d' j := fun j hj =>
    sameExtents_of_inode (hr.inode j hj) hr.buf hr.sb
  have htype : ∀ j, j ≠ i → (d'.inode j).type = (d.inode j).type := fun j hj => by rw [hr.inode j hj]
  refine ⟨fun j hj => ?_, fun j hj b hb => ?_, fun j k hj hk b hjb hkb => ?_, fun j hj => ?_⟩
  · have hji := hne j hj
    rw [htype j hji] at hj
    obtain ⟨n, hwf⟩ := h.wellFormed j hj
    exact ⟨n, (hext j hji).wellFormed hwf⟩
  · have hji := hne j hj
    rw [htype j hji] at hj
    have hb := ((hext j hji).owns b).mp hb
    have hnot : ¬ (Disk.Owns d i b ∨ d.fbb.bit b = true) := by
      rintro (hib | hfree)
      · exact hji (h.disjoint j i hj hi b hb hib)
      · rw [h.taken j hj b hb] at hfree
        cases hfree
    exact Bool.eq_false_iff.mpr fun hbit => hnot ((hr.bit b).mp hbit)
  · have hji := hne j hj
    have hki := hne k hk
    rw [htype j hji] at hj
    rw [htype k hki] at hk
    exact h.disjoint j k hj hk b (((hext j hji).owns b).mp hjb) (((hext k hki).owns b).mp hkb)
  · by_cases hji : j = i
    · rw [hji]
      exact hr.empty
    · rw [hr.inode j hji] at hj ⊢
      exact h.empty j hj

/-- A file gets more blocks. -/
theorem Blocks.written (h : Blocks d) (hi : (d.inode i).type = type_regular)
    (hw : Written d d' i) : Blocks d' := by
  have hreg : ∀ j, (d'.inode j).type = type_regular → (d.inode j).type = type_regular :=
    fun j hj => by
      by_cases hji : j = i
      · rw [hji]
        exact hi
      · rw [← hw.inode j hji]
        exact hj
  have howns : ∀ j, (d.inode j).type = type_regular → ∀ b, Disk.Owns d' j b →
      Disk.Owns d j b ∨ (j = i ∧ d.fbb.bit b = true) := fun j _ b hb => by
    by_cases hji : j = i
    · subst hji
      exact (hw.owns b hb).imp_right fun hfree => ⟨rfl, hfree⟩
    · exact .inl ((hw.other j hji b).mp hb)
  refine ⟨fun j hj => ?_, fun j hj b hb => ?_, fun j k hj hk b hjb hkb => ?_, fun j hj => ?_⟩
  · obtain ⟨n, hwf⟩ := h.wellFormed j (hreg j hj)
    by_cases hji : j = i
    · subst hji
      exact hw.wellFormed n hwf
    · obtain ⟨h₁, h₂, h₃, h₄, h₅, h₆⟩ := hwf
      rw [← hw.inode j hji] at h₃ h₄ h₅ h₆
      rw [← hw.sb] at h₁
      exact ⟨n, h₁, h₂, h₃, h₄, h₅, h₆⟩
  · by_cases hji : j = i
    · subst hji
      exact hw.taken b hb
    · have hbit := h.taken j (hreg j hj) b ((hw.other j hji b).mp hb)
      refine Bool.eq_false_iff.mpr fun hfree => ?_
      rw [hw.free b hfree] at hbit
      cases hbit
  · have hj := hreg j hj
    have hk := hreg k hk
    rcases howns j hj b hjb with hjb | ⟨rfl, hfree⟩ <;> rcases howns k hk b hkb with hkb | ⟨rfl, hfree'⟩
    · exact h.disjoint j k hj hk b hjb hkb
    · rw [h.taken j hj b hjb] at hfree'
      cases hfree'
    · rw [h.taken k hk b hkb] at hfree
      cases hfree
    · rfl
  · by_cases hji : j = i
    · subst hji
      rw [hw.type, hi] at hj
      cases hj
    · rw [hw.inode j hji] at hj ⊢
      exact h.empty j hj

/-- A new inode has no blocks. -/
theorem Blocks.newInode (h : Blocks d) (hnew : Disk.NewInode d type_regular d' i) : Blocks d' := by
  have hempty := h.empty i hnew.free
  have hself : (d'.inode i).direct = (d.inode i).direct ∧
      (d'.inode i).indirect = (d.inode i).indirect := by
    rw [hnew.inode]
    simp
  have hother : ∀ j, j ≠ i → d'.inode j = d.inode j := fun j hj => by
    rw [hnew.inode, Function.update_of_ne hj]
  have hext : ∀ j, SameExtents d d' j := fun j => by
    by_cases hj : j = i
    · rw [hj]
      exact ⟨hself.1, hself.2, hnew.buf, hnew.sb⟩
    · exact sameExtents_of_inode (hother j hj) hnew.buf hnew.sb
  have hnone : ∀ b, ¬ Disk.Owns d i b := by
    rintro b (⟨k, hk, hb⟩ | ⟨hcount, -⟩)
    · have := hempty.1 k hk
      rw [Extent.mem_iff] at hb
      omega
    · exact hcount hempty.2
  refine ⟨fun j hj => ?_, fun j hj b hb => ?_, fun j k hj hk b hjb hkb => ?_, fun j hj => ?_⟩
  · by_cases hji : j = i
    · subst hji
      have hzero : ∀ k < ndirect, ((d'.inode j).direct k).count = 0 := fun k hk => by
        rw [hself.1]
        exact hempty.1 k hk
      refine ⟨0, by rw [hnew.sb]; exact hnew.bound, Nat.zero_le _, fun k hk => by omega,
        fun k _ hk => hzero k hk, fun k hk => by omega, .inl ?_⟩
      rw [hself.2]
      exact hempty.2
    · rw [hother j hji] at hj
      obtain ⟨n, hwf⟩ := h.wellFormed j hj
      exact ⟨n, (hext j).wellFormed hwf⟩
  · have hb := ((hext j).owns b).mp hb
    rw [hnew.fbb]
    by_cases hji : j = i
    · rw [hji] at hb
      exact absurd hb (hnone b)
    · rw [hother j hji] at hj
      exact h.taken j hj b hb
  · have hjb := ((hext j).owns b).mp hjb
    have hkb := ((hext k).owns b).mp hkb
    by_cases hji : j = i
    · rw [hji] at hjb
      exact absurd hjb (hnone b)
    · by_cases hki : k = i
      · rw [hki] at hkb
        exact absurd hkb (hnone b)
      · rw [hother j hji] at hj
        rw [hother k hki] at hk
        exact h.disjoint j k hj hk b hjb hkb
  · by_cases hji : j = i
    · rw [hji, hnew.inode] at hj
      simp at hj
    · rw [hother j hji] at hj ⊢
      exact h.empty j hj

/-! ## The counts -/

/-- What holds between the system calls, and within them except for the inodes in `p`. -/
structure Inv (p : ℕ → Prop) (s : State V G T S N) : Prop where
  blocks : Blocks s.fs
  count : ∀ i, (s.fs.inode i).type = type_regular → (s.fs.inode i).flags / 2 = s.liveOn i
  regular : ∀ v ∈ s.live, (s.fs.inode (s.ino_ v)).type = type_regular
  alive : ∀ v ∈ s.live, s.fd.alive v = true
  freed : ∀ i, ¬ p i → (s.fs.inode i).type = type_regular → (s.fs.inode i).flags % 2 = unlinked →
    0 < s.liveOn i
  /-- what is not written back is dirty, or was missed -/
  stored : ∀ i, block i ∉ s.dirty → block i ∉ s.missed → s.stored i = s.fs.inode i

/-- The names of files that are not in `p` lead to files with a name. -/
def Named (p : ℕ → Prop) (s : State V G T S N) : Prop :=
  ∀ n i, ¬ p i → s.names n = some i →
    (s.fs.inode i).type ≠ 0 ∧ (s.fs.inode i).flags % 2 = linked

/-- No inode. -/
abbrev nowhere : ℕ → Prop := fun _ => False

theorem liveOn_insert (hv : v ∉ s.live) (s' : State V G T S N) (hlive : s'.live = insert v s.live)
    (hino : s'.ino_ = Function.update s.ino_ v i) (j : ℕ) :
    s'.liveOn j = s.liveOn j + if j = i then 1 else 0 := by
  have hsame : s.live.filter (fun u => s'.ino_ u = j) = s.live.filter fun u => s.ino_ u = j := by
    refine Finset.filter_congr fun u hu => ?_
    rw [hino, Function.update_of_ne fun he : u = v => hv (he ▸ hu)]
  unfold State.liveOn
  rw [hlive, Finset.filter_insert, hsame, hino, Function.update_self]
  by_cases hij : i = j
  · rw [if_pos hij, if_pos hij.symm, Finset.card_insert_of_notMem]
    exact fun hmem => hv (Finset.mem_of_mem_filter v hmem)
  · rw [if_neg hij, if_neg (Ne.symm hij), Nat.add_zero]

theorem liveOn_erase (hv : v ∈ s.live) (s' : State V G T S N) (hlive : s'.live = s.live.erase v)
    (hino : s'.ino_ = s.ino_) (j : ℕ) :
    s'.liveOn j + (if s.ino_ v = j then 1 else 0) = s.liveOn j := by
  unfold State.liveOn
  rw [hlive, hino, Finset.filter_erase]
  by_cases hj : s.ino_ v = j
  · rw [if_pos hj]
    exact Finset.card_erase_add_one (Finset.mem_filter.mpr ⟨hv, hj⟩)
  · rw [if_neg hj, Nat.add_zero, Finset.erase_eq_of_notMem]
    exact fun hmem => hj (Finset.mem_filter.mp hmem).2

theorem Inv.liveOn_eq_zero (h : Inv p s) (hi : (s.fs.inode i).type ≠ type_regular) : s.liveOn i = 0 := by
  refine Finset.card_eq_zero.mpr (Finset.filter_eq_empty_iff.mpr fun v hv hvi => hi ?_)
  rw [← hvi]
  exact h.regular v hv

/-! ## Changes of one inode -/

/-- An inode changes its count, its link bit or its size, and its block is marked in one of the two ways. -/
structure Changed (s : State V G T S N) (i : ℕ) (ino : Inode) (s' : State V G T S N) : Prop where
  fs : s'.fs = s.fs.setInode i ino
  type : ino.type = (s.fs.inode i).type
  direct : ino.direct = (s.fs.inode i).direct
  indirect : ino.indirect = (s.fs.inode i).indirect
  stored : s'.stored = s.stored
  marked : ∀ b, b ∉ s'.dirty → b ∉ s'.missed → b ≠ block i ∧ b ∉ s.dirty ∧ b ∉ s.missed

theorem changed_change (s : State V G T S N) (i : ℕ) (ino : Inode)
    (htype : ino.type = (s.fs.inode i).type)
    (hdirect : ino.direct = (s.fs.inode i).direct) (hindirect : ino.indirect = (s.fs.inode i).indirect) :
    Changed s i ino (s.change i ino) := by
  refine ⟨rfl, htype, hdirect, hindirect, rfl, fun b hd hm => ?_⟩
  have hb : b ≠ block i ∧ b ∉ s.dirty := by
    simpa [State.change, Finset.mem_insert] using hd
  exact ⟨hb.1, hb.2, fun hmem => hm (Finset.mem_erase.mpr ⟨hb.1, hmem⟩)⟩

theorem changed_changeOnly (s : State V G T S N) (i : ℕ) (ino : Inode)
    (htype : ino.type = (s.fs.inode i).type)
    (hdirect : ino.direct = (s.fs.inode i).direct) (hindirect : ino.indirect = (s.fs.inode i).indirect) :
    Changed s i ino (s.changeOnly i ino) := by
  refine ⟨rfl, htype, hdirect, hindirect, rfl, fun b hd hm => ?_⟩
  have hd : b ∉ s.dirty := hd
  have hm : b ∉ if block i ∈ s.dirty then s.missed else insert (block i) s.missed := hm
  split at hm
  · next hdirty => exact ⟨fun hb => hd (hb ▸ hdirty), hd, hm⟩
  · rw [Finset.mem_insert, not_or] at hm
    exact ⟨hm.1, hd, hm.2⟩

section

variable {ino : Inode}

theorem Changed.self (h : Changed s i ino s') : s'.fs.inode i = ino := by
  rw [h.fs]
  simp [Disk.setInode]

theorem Changed.other (h : Changed s i ino s') (hj : j ≠ i) : s'.fs.inode j = s.fs.inode j := by
  rw [h.fs]
  exact Function.update_of_ne hj _ _

theorem Changed.type_eq (h : Changed s i ino s') (j : ℕ) :
    (s'.fs.inode j).type = (s.fs.inode j).type := by
  by_cases hj : j = i
  · rw [hj, h.self, h.type]
  · rw [h.other hj]

theorem Changed.sameExtents (h : Changed s i ino s') (j : ℕ) : SameExtents s.fs s'.fs j := by
  by_cases hj : j = i
  · rw [hj]
    exact ⟨by rw [h.self, h.direct], by rw [h.self, h.indirect], by rw [h.fs]; rfl, by rw [h.fs]; rfl⟩
  · exact sameExtents_of_inode (h.other hj) (by rw [h.fs]; rfl) (by rw [h.fs]; rfl)

/-- What a change of the inode and, with it, of the live vnodes keeps. -/
theorem Inv.changed (h : Inv nowhere s) (hc : Changed s i ino s')
    (hcount : (s.fs.inode i).type = type_regular → ino.flags / 2 = s'.liveOn i)
    (hother : ∀ j, j ≠ i → s'.liveOn j = s.liveOn j)
    (hunlinked : ¬ p i → (s.fs.inode i).type = type_regular → ino.flags % 2 = unlinked →
      0 < s'.liveOn i)
    (hregular : ∀ v ∈ s'.live, (s.fs.inode (s'.ino_ v)).type = type_regular)
    (halive : ∀ v ∈ s'.live, s'.fd.alive v = true) : Inv p s' := by
  refine ⟨?_, fun j hj => ?_, fun v hv => ?_, halive, fun j hp hj hu => ?_, fun j hd hm => ?_⟩
  · rw [hc.fs]
    exact h.blocks.setInode hc.type hc.direct hc.indirect
  · rw [hc.type_eq] at hj
    by_cases hji : j = i
    · subst hji
      rw [hc.self]
      exact hcount hj
    · rw [hc.other hji, hother j hji]
      exact h.count j hj
  · rw [hc.type_eq]
    exact hregular v hv
  · rw [hc.type_eq] at hj
    by_cases hji : j = i
    · subst hji
      rw [hc.self] at hu
      exact hunlinked hp hj hu
    · rw [hc.other hji] at hu
      rw [hother j hji]
      exact h.freed j id hj hu
  · obtain ⟨hne, hd, hm⟩ := hc.marked (block j) hd hm
    rw [hc.stored, hc.other fun hji => hne (congrArg block hji)]
    exact h.stored j hd hm

end

/-! ## Freeing a file -/

/-- A file is freed. -/
structure Freed (s : State V G T S N) (i : ℕ) (s' : State V G T S N) : Prop where
  released : Disk.Released s.fs i s'.fs
  same : s'.live = s.live ∧ s'.ino_ = s.ino_ ∧ s'.fd = s.fd ∧ s'.names = s.names ∧ s'.stored = s.stored
  marked : ∀ b, b ∉ s'.dirty → b ∉ s'.missed → b ≠ block i ∧ b ∉ s.dirty ∧ b ∉ s.missed

theorem freed_of_free_inode (hwf : Disk.WellFormed s.fs i n)
    (hind : (s.fs.inode i).indirect.count = 0) (hs : s.free_inode i = some s') : Freed s i s' := by
  unfold State.free_inode at hs
  split at hs
  · cases hs
  · next hi =>
    obtain ⟨d₁, hsb, hs⟩ := Option.bind_eq_some_iff.mp hs
    split at hs
    · cases hs
    · obtain ⟨⟨d₂, entries⟩, hfree, hs⟩ := Option.map_eq_some_iff.mp hs
      cases hs
      have hsame := (Disk.same_superblock hsb).trans (Disk.same_get_disk_entry d₁)
      have hinode : d₁.inode = s.fs.inode := (Disk.same_superblock hsb).inode
      have hself : (d₁.get_disk_entry.2.setInode i
          { d₁.inode i with flags := (d₁.inode i).flags / 2 * 2 + linked }).inode i =
            { s.fs.inode i with flags := (d₁.inode i).flags / 2 * 2 + linked } := by
        simp [Disk.setInode, hinode]
      have hext : SameExtents s.fs (d₁.get_disk_entry.2.setInode i
          { d₁.inode i with flags := (d₁.inode i).flags / 2 * 2 + linked }) i :=
        ⟨by rw [hself], by rw [hself], hsame.buf, hsame.sb⟩
      obtain ⟨hr, -⟩ := Disk.free_inode_released (hext.wellFormed hwf) (by omega)
        (by rw [hself]; exact hind) hfree
      refine ⟨⟨fun b => ?_, hr.buf.trans hsame.buf, fun j hj => ?_, hr.type, hr.empty,
        hr.sb.trans hsame.sb⟩, ⟨rfl, rfl, rfl, rfl, rfl⟩, fun b hd hm => ?_⟩
      · rw [hr.bit, hext.owns]
        exact or_congr_right (by rw [← hsame.fbb]; exact Iff.rfl)
      · refine (hr.inode j hj).trans ((Function.update_of_ne hj _ _).trans ?_)
        exact congrFun hsame.inode j
      · have hb : b ≠ block i ∧ b ∉ s.dirty := by simpa [Finset.mem_insert] using hd
        exact ⟨hb.1, hb.2, fun hmem => hm (Finset.mem_erase.mpr ⟨hb.1, hmem⟩)⟩

/-- No file is freed. -/
theorem freedOk_of_type (h : ∀ i, (s.fs.inode i).type = type_regular →
    (s'.fs.inode i).type = type_regular) : FreedOk s s' :=
  fun i hi hne => absurd (h i hi) hne

/-- What happened before a file was freed left the extents of the files alone. -/
theorem FreedOk.trans {s₁ : State V G T S N}
    (hext : ∀ i, (s.fs.inode i).type = type_regular →
      (s₁.fs.inode i).type = type_regular ∧ SameExtents s.fs s₁.fs i)
    (h : FreedOk s₁ s') : FreedOk s s' := fun j hj hne => by
  obtain ⟨htype, hsame⟩ := hext j hj
  obtain ⟨hzero, hbits⟩ := h j htype hne
  exact ⟨hzero, fun b hb => hbits b ((hsame.owns b).mpr hb)⟩

theorem FreedOk.of_changed {s₁ : State V G T S N} {ino : Inode} (hc : Changed s i ino s₁)
    (h : FreedOk s₁ s') : FreedOk s s' :=
  .trans (fun j hj => ⟨by rw [hc.type_eq]; exact hj, hc.sameExtents j⟩) h

/-- What follows the test in `inode::put`. -/
structure ReleaseOk (s s' : State V G T S N) : Prop where
  inv : Inv nowhere s'
  named : ∀ p, Named p s → Named p s'
  freed : FreedOk s s'
  same : s'.live = s.live ∧ s'.ino_ = s.ino_ ∧ s'.fd = s.fd ∧ s'.names = s.names

/-- **The test in `inode::put` frees an unlinked file that is not open, and nothing else.** -/
theorem Inv.release (h : Inv (· = i) s) (hreg : (s.fs.inode i).type = type_regular)
    (hind : (s.fs.inode i).flags / 2 = 0 → (s.fs.inode i).flags % 2 = unlinked →
      (s.fs.inode i).indirect.count = 0)
    (hs : s.release i = some s') : ReleaseOk s s' := by
  unfold State.release at hs
  split at hs
  · next hcond =>
    obtain ⟨n, hwf⟩ := h.blocks.wellFormed i hreg
    have hf := freed_of_free_inode hwf (hind hcond.1 hcond.2) hs
    obtain ⟨hlive, hino, hfd, hnames, hstored⟩ := hf.same
    have hon : ∀ j, s'.liveOn j = s.liveOn j := fun j => by
      unfold State.liveOn
      rw [hlive, hino]
    have hzero : s.liveOn i = 0 := by
      rw [← h.count i hreg]
      exact hcond.1
    have hne : ∀ j, (s'.fs.inode j).type = type_regular → j ≠ i := by
      rintro j hj rfl
      rw [hf.released.type] at hj
      cases hj
    have hother : ∀ j, j ≠ i → s'.fs.inode j = s.fs.inode j := hf.released.inode
    refine ⟨⟨h.blocks.released hreg hf.released, fun j hj => ?_, fun v hv => ?_, ?_, fun j _ hj hu => ?_,
      fun j hd hm => ?_⟩, fun p hn n j hp hj => ?_, fun j hj hgone => ?_, ⟨hlive, hino, hfd, hnames⟩⟩
    · have hji := hne j hj
      rw [hother j hji] at hj ⊢
      rw [hon]
      exact h.count j hj
    · rw [hlive] at hv
      rw [hino]
      have hvi : s.ino_ v ≠ i := fun hvi => by
        have := Finset.filter_eq_empty_iff.mp (Finset.card_eq_zero.mp hzero) hv
        exact this hvi
      rw [hother _ hvi]
      exact h.regular v hv
    · rw [hlive, hfd]
      exact h.alive
    · have hji := hne j hj
      rw [hother j hji] at hj hu
      rw [hon]
      exact h.freed j hji hj hu
    · obtain ⟨hb, hd, hm⟩ := hf.marked (block j) hd hm
      rw [hstored, hother j fun hji => hb (congrArg block hji)]
      exact h.stored j hd hm
    · rw [hnames] at hj
      have hn := hn n j hp hj
      have hji : j ≠ i := by
        rintro rfl
        rw [hcond.2] at hn
        exact absurd hn.2 (by decide)
      rw [hother j hji]
      exact hn
    · have hji : j = i := by
        by_contra hji
        rw [hother j hji] at hgone
        exact hgone hj
      rw [hji, hon]
      exact ⟨hzero, fun b hb => (hf.released.bit b).mpr (.inl hb)⟩
  · next hcond =>
    cases hs
    refine ⟨⟨h.blocks, h.count, h.regular, h.alive, fun j _ hj hu => ?_, h.stored⟩, fun _ hn => hn,
      freedOk_of_type fun _ hj => hj, ⟨rfl, rfl, rfl, rfl⟩⟩
    by_cases hji : j = i
    · subst hji
      rw [← h.count j hj]
      by_contra hzero
      exact hcond ⟨by omega, hu⟩
    · exact h.freed j hji hj hu

/-! ## The system calls -/

/-- What a step leaves. -/
structure StepOk (s s' : State V G T S N) : Prop where
  inv : Inv nowhere s'
  named : Named nowhere s'
  freed : FreedOk s s'

/-- What a step leaves if it frees nothing and changes no inode. -/
theorem StepOk.same (h : Inv nowhere s) (hn : Named nowhere s) (hfs : s.fs.Same s'.fs)
    (hlive : s'.live = s.live) (hino : s'.ino_ = s.ino_) (hnames : s'.names = s.names)
    (hstored : ∀ i, block i ∉ s'.dirty → block i ∉ s'.missed → s'.stored i = s'.fs.inode i)
    (halive : ∀ v ∈ s'.live, s'.fd.alive v = true) : StepOk s s' := by
  have hon : ∀ i, s'.liveOn i = s.liveOn i := fun i => by
    unfold State.liveOn
    rw [hlive, hino]
  have hinode := hfs.inode
  refine ⟨⟨h.blocks.same (fun i => sameExtents_of_inode (congrFun hinode i) hfs.buf hfs.sb)
    (fun i => by rw [hinode]) hfs.fbb, ?_, ?_, halive, ?_, hstored⟩, ?_, freedOk_of_type ?_⟩
  · simp only [hinode, hon]
    exact h.count
  · rw [hinode, hlive, hino]
    exact h.regular
  · simp only [hinode, hon]
    exact h.freed
  · unfold Named
    rw [hinode, hnames]
    exact hn
  · rw [hinode]
    exact fun _ hi => hi

/-- Only the tables change, and no live vnode is deleted. -/
theorem StepOk.fd (h : Inv nowhere s) (hn : Named nowhere s) {fd : Fd.State V G T S}
    (halive : ∀ v ∈ s.live, fd.alive v = true) : StepOk s { s with fd := fd } :=
  .same h hn (.refl s.fs) rfl rfl rfl h.stored halive

theorem StepOk.refl (h : Inv nowhere s) (hn : Named nowhere s) : StepOk s s := .fd h hn h.alive

/-- A short lookup of a file frees nothing. -/
theorem Inv.put_false (h : Inv nowhere s) (i : ℕ) : s.put i false = some s := by
  unfold State.put
  dsimp only
  split
  · next hreg =>
    rw [if_neg Bool.false_ne_true]
    refine if_neg fun hcond => ?_
    have hpos := h.freed i id hreg hcond.2
    rw [← h.count i hreg] at hpos
    omega
  · rfl

theorem Named.changed {ino : Inode} (hn : Named p s) (hc : Changed s i ino s')
    (hnames : s'.names = s.names) (hflags : ¬ p i → ino.flags % 2 = (s.fs.inode i).flags % 2) :
    Named p s' := fun n j hp hj => by
  rw [hnames] at hj
  have := hn n j hp hj
  rw [hc.type_eq]
  by_cases hji : j = i
  · subst hji
    rw [hc.self, hflags hp]
    exact this
  · rw [hc.other hji]
    exact this

/-- A vnode is deleted. -/
theorem Inv.destruct (h : Inv nowhere s) (hn : Named nowhere s) (hv : v ∈ s.live)
    (fd : Fd.State V G T S) (halive : ∀ u ∈ s.live, u ≠ v → fd.alive u = true)
    (hind : (s.fs.inode (s.ino_ v)).flags = 2 + unlinked →
      (s.fs.inode (s.ino_ v)).indirect.count = 0)
    (hs : State.destruct { s with fd := fd } v = some s') : StepOk s s' := by
  have hreg := h.regular v hv
  have hcount := h.count _ hreg
  have hon := liveOn_erase hv { s with fd := fd, live := s.live.erase v } rfl rfl
  have hself := hon (s.ino_ v)
  rw [if_pos rfl] at hself
  have hs : (State.changeOnly { s with fd := fd, live := s.live.erase v } (s.ino_ v)
      { s.fs.inode (s.ino_ v) with flags := (s.fs.inode (s.ino_ v)).flags - 2 }).release (s.ino_ v) =
        some s' := by
    rw [← hs]
    unfold State.destruct State.put
    exact (if_pos hreg).symm
  have hc : Changed s (s.ino_ v)
      { s.fs.inode (s.ino_ v) with flags := (s.fs.inode (s.ino_ v)).flags - 2 }
      (State.changeOnly { s with fd := fd, live := s.live.erase v } (s.ino_ v)
        { s.fs.inode (s.ino_ v) with flags := (s.fs.inode (s.ino_ v)).flags - 2 }) := by
    have := changed_changeOnly { s with fd := fd, live := s.live.erase v } (s.ino_ v)
      { s.fs.inode (s.ino_ v) with flags := (s.fs.inode (s.ino_ v)).flags - 2 } rfl rfl rfl
    exact ⟨this.fs, this.type, this.direct, this.indirect, this.stored, this.marked⟩
  have hinv := h.changed (p := (· = s.ino_ v)) hc (fun _ => ?_) (fun j hj => ?_)
    (fun hne => absurd rfl hne) (fun u hu => h.regular u (Finset.mem_of_mem_erase hu))
    fun u hu => halive u (Finset.mem_of_mem_erase hu) (Finset.ne_of_mem_erase hu)
  · have hrel := hinv.release (by rw [hc.type_eq]; exact hreg) (fun hzero hbit => ?_) hs
    · refine ⟨hrel.inv, hrel.named _ (hn.changed hc rfl fun _ => ?_), hrel.freed.of_changed hc⟩
      show ((s.fs.inode (s.ino_ v)).flags - 2) % 2 = _
      omega
    · rw [hc.self] at hzero hbit ⊢
      dsimp only at hzero hbit
      refine hind ?_
      unfold unlinked at hbit ⊢
      omega
  · show ((s.fs.inode (s.ino_ v)).flags - 2) / 2 = State.liveOn _ _
    refine Eq.trans (b := State.liveOn { s with fd := fd, live := s.live.erase v } (s.ino_ v)) ?_ rfl
    omega
  · have := hon j
    rw [if_neg (Ne.symm hj)] at this
    exact this

/-- A step comes after a change that left the extents alone. -/
theorem StepOk.of_changed {s₁ : State V G T S N} {ino : Inode} (hc : Changed s i ino s₁)
    (h : StepOk s₁ s') : StepOk s s' :=
  ⟨h.inv, h.named, h.freed.of_changed hc⟩

theorem changed_construct (s : State V G T S N) (v : V) (i : ℕ) (fd : Fd.State V G T S) :
    Changed s i { s.fs.inode i with flags := (s.fs.inode i).flags + 2 }
      { s.construct v i with fd := fd } := by
  have := changed_change s i
    { s.fs.inode i with flags := (s.fs.inode i).flags + 2 } rfl rfl rfl
  exact ⟨this.fs, this.type, this.direct, this.indirect, this.stored, this.marked⟩

/-- A vnode is made: the count goes up with the number of live vnodes. -/
theorem Inv.construct (h : Inv nowhere s) (hn : Named nowhere s) (hv : v ∉ s.live)
    (hreg : (s.fs.inode i).type = type_regular) {fd : Fd.State V G T S}
    (halive : fd.alive = Function.update s.fd.alive v true) :
    StepOk s { s.construct v i with fd := fd } := by
  have hon := liveOn_insert hv { s.construct v i with fd := fd } rfl rfl
  have hc := changed_construct s v i fd
  have hcount := h.count i hreg
  refine ⟨h.changed hc (fun _ => ?_) (fun j hj => ?_) (fun _ _ _ => ?_) (fun u hu => ?_)
    (fun u hu => ?_), hn.changed hc rfl fun _ => ?_,
    freedOk_of_type fun j hj => by rw [hc.type_eq]; exact hj⟩
  · rw [hon, if_pos rfl]
    show ((s.fs.inode i).flags + 2) / 2 = _
    omega
  · rw [hon, if_neg hj, Nat.add_zero]
  · rw [hon, if_pos rfl]
    exact Nat.succ_pos _
  · show (s.fs.inode (Function.update s.ino_ v i u)).type = type_regular
    rcases Finset.mem_insert.mp hu with rfl | hu
    · rw [Function.update_self]
      exact hreg
    · rw [Function.update_of_ne fun he : u = v => hv (he ▸ hu)]
      exact h.regular u hu
  · show fd.alive u = true
    rw [halive]
    rcases Finset.mem_insert.mp hu with rfl | hu
    · rw [Function.update_self]
    · rw [Function.update_of_ne fun he : u = v => hv (he ▸ hu)]
      exact h.alive u hu
  · show ((s.fs.inode i).flags + 2) % 2 = _
    omega

/-- The new vnode gets a descriptor, or is deleted again. -/
theorem Inv.openVnode (h : Inv nowhere s) (hn : Named nowhere s) {g : G} (hv : v ∉ s.live)
    (hreg : (s.fs.inode i).type = type_regular) (hlinked : (s.fs.inode i).flags % 2 = linked)
    (hs : (match (s.construct v i).fd.find_open_fd g none with
      | some _ => some { s.construct v i with fd := (s.construct v i).fd.open_ g v }
      | none => (s.construct v i).destruct v) = some s') : StepOk s s' := by
  split at hs
  · next slot hslot =>
    cases hs
    have hslot : s.fd.find_open_fd g none = some slot := hslot
    have hopen : s.fd.open_ g v = (s.fd.create v).setSlot g slot (some v) := by
      unfold Fd.State.open_
      rw [hslot]
    have halive : (s.fd.open_ g v).alive = Function.update s.fd.alive v true := by
      rw [hopen]
      rfl
    exact h.construct hn hv hreg halive
  · -- as long as it is not deleted, the vnode is live
    let fd : Fd.State V G T S := { s.fd with alive := Function.update s.fd.alive v true }
    have hok : StepOk s { s.construct v i with fd := fd } := h.construct hn hv hreg rfl
    have hself : (s.construct v i).ino_ v = i := Function.update_self ..
    have hflags : ((s.construct v i).fs.inode i).flags = (s.fs.inode i).flags + 2 :=
      congrArg Inode.flags (changed_construct s v i fd).self
    refine .of_changed (changed_construct s v i fd) (hok.inv.destruct hok.named
      (Finset.mem_insert_self v s.live) s.fd (fun u hu hne => ?_) (fun h3 => ?_) hs)
    · exact h.alive u ((Finset.mem_insert.mp hu).resolve_left hne)
    · have h3 : ((s.construct v i).fs.inode ((s.construct v i).ino_ v)).flags = 2 + unlinked := h3
      rw [hself, hflags] at h3
      unfold unlinked at h3
      unfold linked at hlinked
      omega

/-- The file is truncated. -/
theorem Inv.trunc (h : Inv nowhere s) (hn : Named nowhere s) :
    StepOk s (s.change i { s.fs.inode i with size := 0 }) := by
  have hc := changed_change s i { s.fs.inode i with size := 0 } rfl rfl rfl
  exact ⟨h.changed hc (fun hr => h.count i hr) (fun _ _ => rfl) (fun hp hr hu => h.freed i hp hr hu)
    h.regular h.alive, hn.changed hc rfl fun _ => rfl,
    freedOk_of_type fun j hj => by rw [hc.type_eq]; exact hj⟩

/-- `open` of a file that has a name. -/
theorem Inv.openInode (h : Inv nowhere s) (hn : Named nowhere s) {g : G} {trunc mem : Bool}
    (hv : v ∉ s.live) (hlinked : (s.fs.inode i).flags % 2 = linked)
    (hs : s.openInode g v i trunc mem = some s') : StepOk s s' := by
  unfold State.openInode at hs
  split at hs
  swap
  · rw [h.put_false] at hs
    cases hs
    exact .refl h hn
  next hreg =>
  cases trunc with
  | true =>
    have hc := changed_change s i { s.fs.inode i with size := 0 } rfl rfl rfl
    have hok : StepOk s (s.change i { s.fs.inode i with size := 0 }) := h.trunc hn
    simp only [if_true] at hs
    split at hs
    · refine .of_changed hc (hok.inv.openVnode hok.named hv ?_ ?_ hs)
      · rw [hc.type_eq]
        exact hreg
      · rw [hc.self]
        exact hlinked
    · rw [hok.inv.put_false] at hs
      cases hs
      exact hok
  | false =>
    simp only [Bool.false_eq_true, if_false] at hs
    split at hs
    · exact h.openVnode hn hv hreg hlinked hs
    · rw [h.put_false] at hs
      cases hs
      exact .refl h hn

/-- `open` of a new file. -/
theorem Inv.create (h : Inv nowhere s) (hn : Named nowhere s) (hnew : Disk.NewInode s.fs type_regular d i)
    (pathname : N) :
    StepOk s { s with
      fs := d
      dirty := insert (block i) s.dirty
      missed := s.missed.erase (block i)
      names := Function.update s.names pathname (some i) } := by
  have hzero : s.liveOn i = 0 := h.liveOn_eq_zero (by rw [hnew.free]; decide)
  have hother : ∀ j, j ≠ i → d.inode j = s.fs.inode j := fun j hj => by
    rw [hnew.inode, Function.update_of_ne hj]
  have hself : (d.inode i).type = type_regular ∧ (d.inode i).flags = linked := by
    rw [hnew.inode]
    simp
  have htype : ∀ j, (s.fs.inode j).type = type_regular → (d.inode j).type = type_regular := fun j hj => by
    by_cases hji : j = i
    · rw [hji]
      exact hself.1
    · rw [hother j hji]
      exact hj
  refine ⟨⟨h.blocks.newInode hnew, fun j hj => ?_, fun v hv => htype _ (h.regular v hv), h.alive,
    fun j _ hj hu => ?_, fun j hd hm => ?_⟩, fun n j _ hj => ?_, freedOk_of_type htype⟩
  · show (d.inode j).flags / 2 = s.liveOn j
    by_cases hji : j = i
    · rw [hji, hself.2, hzero]
      rfl
    · have hj : (d.inode j).type = type_regular := hj
      rw [hother j hji] at hj ⊢
      exact h.count j hj
  · show 0 < s.liveOn j
    have hj : (d.inode j).type = type_regular := hj
    have hu : (d.inode j).flags % 2 = unlinked := hu
    by_cases hji : j = i
    · rw [hji, hself.2] at hu
      cases hu
    · rw [hother j hji] at hj hu
      exact h.freed j id hj hu
  · have hb : block j ≠ block i ∧ block j ∉ s.dirty := by simpa [Finset.mem_insert] using hd
    show s.stored j = d.inode j
    rw [hother j fun hji => hb.1 (congrArg block hji)]
    exact h.stored j hb.2 fun hmem => hm (Finset.mem_erase.mpr ⟨hb.1, hmem⟩)
  · show (d.inode j).type ≠ 0 ∧ (d.inode j).flags % 2 = linked
    by_cases hji : j = i
    · rw [hji, hself.1, hself.2]
      exact ⟨by decide, rfl⟩
    · have hj : Function.update s.names pathname (some i) n = some j := hj
      by_cases hnp : n = pathname
      · rw [hnp, Function.update_self] at hj
        exact absurd (Option.some.inj hj).symm hji
      · rw [Function.update_of_ne hnp] at hj
        rw [hother j hji]
        exact hn n j id hj

theorem Inv.open_ (h : Inv nowhere s) (hn : Named nowhere s) {g : G} {pathname : N}
    {create trunc mem : Bool} (hv : v ∉ s.live)
    (hs : s.open_ g v pathname create trunc mem = some s') : StepOk s s' := by
  unfold State.open_ at hs
  split at hs
  · next i hname =>
    split at hs
    · cases hs
      exact .refl h hn
    · rw [h.put_false, Option.bind_some] at hs
      exact h.openInode hn hv (hn pathname i id hname).2 hs
  · split at hs
    · obtain ⟨⟨d, i⟩, halloc, hs⟩ := Option.bind_eq_some_iff.mp hs
      dsimp only at hs
      rcases Disk.allocate_inode_cases halloc with ⟨rfl, hsame⟩ | hnew
      · rw [if_pos rfl] at hs
        cases hs
        refine .same h hn hsame rfl rfl rfl (fun j hd hm => ?_) h.alive
        rw [hsame.inode]
        exact h.stored j hd hm
      · have hi : i ≠ 0 := by
          have := hnew.bound
          omega
        rw [if_neg hi] at hs
        have hok := h.create hn hnew pathname
        have hself : (d.inode i).flags = linked := by
          rw [hnew.inode]
          simp
        have hopen := hok.inv.openInode hok.named hv (congrArg (· % 2) hself) hs
        refine ⟨hopen.inv, hopen.named, .trans (fun j hj => ?_) hopen.freed⟩
        have hji : j ≠ i := by
          rintro rfl
          rw [hnew.free] at hj
          cases hj
        have hsame : d.inode j = s.fs.inode j := by
          rw [hnew.inode, Function.update_of_ne hji]
        exact ⟨by rw [hsame]; exact hj, sameExtents_of_inode hsame hnew.buf hnew.sb⟩
    · cases hs
      exact .refl h hn

/-- `unlink`: the file is freed at once if it is not open. -/
theorem Inv.unlink (h : Inv nowhere s) (hn : Named nowhere s) {pathname : N}
    (hmay : MayUnlink s pathname) (hs : s.unlink pathname = some s') : StepOk s s' := by
  unfold State.unlink at hs
  split at hs
  · cases hs
    exact .refl h hn
  next i hname =>
  split at hs
  · cases hs
    exact .refl h hn
  rw [h.put_false, Option.bind_some] at hs
  have hlinked := (hn pathname i id hname).2
  dsimp only at hs
  rw [if_neg (not_not.mpr hlinked)] at hs
  obtain ⟨s₁, hput, rfl⟩ := Option.map_eq_some_iff.mp hs
  have hc := changed_change s i
    { s.fs.inode i with flags := (s.fs.inode i).flags / 2 * 2 + unlinked } rfl rfl rfl
  have hinv := h.changed (p := (· = i)) hc
    (fun hreg => by
      have := h.count i hreg
      show ((s.fs.inode i).flags / 2 * 2 + 1) / 2 = s.liveOn i
      omega) (fun _ _ => rfl) (fun hne => absurd rfl hne) h.regular h.alive
  have hnamed : Named (· = i) (s.change i
      { s.fs.inode i with flags := (s.fs.inode i).flags / 2 * 2 + unlinked }) :=
    Named.changed (fun n j _ hj => hn n j id hj) hc rfl fun hne => absurd rfl hne
  -- without its names nothing leads to the file any more
  have hforget : ∀ s₂ : State V G T S N, Named (· = i) s₂ → Named nowhere { s₂ with
      names := fun n => if s₂.names n = some i then none else s₂.names n } := fun s₂ hn₂ n j _ hj => by
    have hj : (if s₂.names n = some i then none else s₂.names n) = some j := hj
    split at hj
    · cases hj
    · next hne => exact hn₂ n j (fun hji => hne (hji ▸ hj)) hj
  unfold State.put at hput
  dsimp only at hput
  split at hput
  · next hreg =>
    rw [if_neg Bool.false_ne_true] at hput
    have hrel := hinv.release hreg (fun hzero _ => ?_) hput
    · exact ⟨⟨hrel.inv.blocks, hrel.inv.count, hrel.inv.regular, hrel.inv.alive, hrel.inv.freed,
        hrel.inv.stored⟩, hforget s₁ (hrel.named _ hnamed), hrel.freed.of_changed hc⟩
    · rw [hc.type_eq] at hreg
      rw [hc.self] at hzero ⊢
      refine hmay i hname hreg ?_
      have hzero : ((s.fs.inode i).flags / 2 * 2 + 1) / 2 = 0 := hzero
      unfold linked at hlinked ⊢
      omega
  · next hreg =>
    cases hput
    rw [hc.type_eq] at hreg
    have hinv' := h.changed (p := nowhere) hc (fun hr => absurd hr hreg) (fun _ _ => rfl)
      (fun _ hr => absurd hr hreg) h.regular h.alive
    exact ⟨⟨hinv'.blocks, hinv'.count, hinv'.regular, hinv'.alive, hinv'.freed, hinv'.stored⟩,
      hforget _ hnamed, FreedOk.of_changed hc (freedOk_of_type fun _ hj => hj)⟩

/-- A descriptor is closed: only the vnode in it may be deleted. -/
theorem Inv.closed (h : Inv nowhere s) (hn : Named nowhere s) {slot : Option V} {fd : Fd.State V G T S}
    (hmay : MayDelete s slot)
    (halive : fd.alive = s.fd.alive ∨ ∃ w, slot = some w ∧ ∃ fd₁, Fd.Dropped s.fd fd₁ w ∧
      fd.alive = fd₁.alive) (hs : s.closed slot fd = some s') : StepOk s s' := by
  have hother : ∀ u ∈ s.live, (∀ w, slot = some w → u ≠ w) → fd.alive u = true := fun u hu hne => by
    rcases halive with he | ⟨w, hw, fd₁, hd, he⟩
    · rw [he]
      exact h.alive u hu
    · rw [he, hd.alive]
      split
      · rw [Function.update_of_ne (hne w hw)]
        exact h.alive u hu
      · exact h.alive u hu
  unfold State.closed at hs
  split at hs
  · cases hs
    exact .fd h hn fun u hu => hother u hu (by simp)
  · next v =>
    have hne : ∀ u ∈ s.live, u ≠ v → fd.alive u = true := fun u hu huv =>
      hother u hu fun w hw => Option.some.inj hw ▸ huv
    split at hs
    · next hdel =>
      have hone : s.fd.refcount_ v = 1 := by
        have hlive := h.alive v hdel.1
        rcases halive with he | ⟨w, hw, fd₁, hd, he⟩
        · rw [he, hlive] at hdel
          exact absurd hdel.2 (by simp)
        · cases hw
          by_contra hmore
          rw [he, hd.alive, if_neg hmore, hlive] at hdel
          exact absurd hdel.2 (by simp)
      exact h.destruct hn hdel.1 fd hne (hmay v rfl hdel.1 hone) hs
    · next hkeep =>
      cases hs
      refine .fd h hn fun u hu => ?_
      by_cases huv : u = v
      · subst huv
        by_contra hdead
        exact hkeep ⟨hu, Bool.eq_false_iff.mpr hdead⟩
      · exact hne u hu huv

/-- The cache writes the dirty blocks. -/
theorem Inv.write_dirty (h : Inv nowhere s) (hn : Named nowhere s) : StepOk s s.write_dirty := by
  refine .same h hn (.refl s.fs) rfl rfl rfl (fun i _ hm => ?_) h.alive
  show (if block i ∈ s.dirty then s.fs.inode i else s.stored i) = s.fs.inode i
  split
  · rfl
  · next hd => exact h.stored i hd hm

/-- The cache drops blocks whose contents are on the disk. -/
theorem Inv.drop (h : Inv nowhere s) (hn : Named nowhere s) (q : ℕ → Prop) [DecidablePred q]
    (hq : ∀ i, q (block i) → s.stored i = s.fs.inode i) : StepOk s (s.drop q) := by
  have hinode : (s.drop q).fs.inode = s.fs.inode := by
    funext i
    show (if q (block i) then s.stored i else s.fs.inode i) = s.fs.inode i
    split
    · next hi => exact hq i hi
    · rfl
  refine .same h hn ⟨⟨rfl, ⟨0, fun _ => rfl⟩, ⟨0, fun _ => rfl⟩⟩, rfl, hinode, rfl⟩ rfl rfl rfl
    (fun i hd hm => ?_) h.alive
  rw [hinode]
  by_cases hi : q (block i)
  · exact hq i hi
  · exact h.stored i hd fun hmem => hm (Finset.mem_filter.mpr ⟨hmem, hi⟩)

theorem StepOk.trans_same (s₁ : State V G T S N) (hfs : s₁.fs = s.fs) (h : StepOk s₁ s') :
    StepOk s s' := by
  refine ⟨h.inv, h.named, .trans (fun i hi => ?_) h.freed⟩
  rw [hfs]
  exact ⟨hi, sameExtents_of_inode rfl rfl rfl⟩

theorem Inv.sync (h : Inv nowhere s) (hn : Named nowhere s) {drop : ℕ}
    (hmay : 0 < drop → ∀ b ∈ s.missed, b ∈ s.dirty ∨ s.Referenced b) : StepOk s (s.sync drop) := by
  have hok := h.write_dirty hn
  unfold State.sync
  split
  · next hdrop =>
    refine .trans_same s.write_dirty rfl (hok.inv.drop hok.named _ fun i hi => ?_)
    show (if block i ∈ s.dirty then s.fs.inode i else s.stored i) = s.fs.inode i
    split
    · rfl
    · next hd =>
      refine h.stored i hd fun hm => ?_
      exact (hmay hdrop (block i) hm).elim hd hi
  · exact hok

/-- A file grows. -/
theorem Inv.write (h : Inv nowhere s) (hn : Named nowhere s) (hv : v ∈ s.live)
    (hw : Written s.fs d (s.ino_ v)) :
    StepOk s { s with
      fs := d
      dirty := insert (block (s.ino_ v)) s.dirty
      missed := s.missed.erase (block (s.ino_ v)) } := by
  have hreg := h.regular v hv
  have htype : ∀ j, (d.inode j).type = (s.fs.inode j).type := fun j => by
    by_cases hj : j = s.ino_ v
    · rw [hj, hw.type]
    · rw [hw.inode j hj]
  have hflags : ∀ j, (d.inode j).flags = (s.fs.inode j).flags := fun j => by
    by_cases hj : j = s.ino_ v
    · rw [hj, hw.flags]
    · rw [hw.inode j hj]
  refine ⟨⟨h.blocks.written hreg hw, ?_, ?_, h.alive, ?_, fun j hd hm => ?_⟩, ?_,
    freedOk_of_type fun j hj => (htype j).trans hj⟩
  · simp only [htype, hflags]
    exact h.count
  · simp only [htype]
    exact h.regular
  · simp only [htype, hflags]
    exact h.freed
  · have hb : block j ≠ block (s.ino_ v) ∧ block j ∉ s.dirty := by simpa [Finset.mem_insert] using hd
    show s.stored j = d.inode j
    rw [hw.inode j fun hj => hb.1 (congrArg block hj)]
    exact h.stored j hb.2 fun hmem => hm (Finset.mem_erase.mpr ⟨hb.1, hmem⟩)
  · unfold Named
    simp only [htype, hflags]
    exact hn

/-- **A step keeps the counts right.** -/
theorem Inv.step (h : Inv nowhere s) (hn : Named nowhere s) {a : Act V G T N} (hok : Orderly s a)
    (hs : step console s a s') : StepOk s s' := by
  cases a with
  | open_ g v pathname create trunc mem =>
    obtain ⟨hv, hs⟩ := Option.ite_none_right_eq_some.mp hs
    exact h.open_ hn hv.1 hs
  | dup2 g oldfd newfd =>
    obtain ⟨fd, hfd, hs⟩ := Option.bind_eq_some_iff.mp hs
    refine h.closed hn hok ?_ hs
    rcases Fd.dup2_cases hfd with he | ⟨w, hw, -, fd₁, hd, he⟩
    · exact .inl he
    · exact .inr ⟨w, hw, fd₁, hd, he⟩
  | fork g c u =>
    obtain ⟨-, hs⟩ := Option.ite_none_right_eq_some.mp hs
    cases hs
    exact .fd h hn h.alive
  | close g t fd =>
    obtain ⟨fd', hfd, hs⟩ := Option.bind_eq_some_iff.mp hs
    refine h.closed hn hok ?_ hs
    rcases Fd.close_cases hfd with rfl | ⟨-, w, hw, -, ⟨-, -, rfl⟩ | ⟨-, fd₁, hd, rfl⟩⟩
    · exact .inl rfl
    · exact .inl rfl
    · exact .inr ⟨w, hw, fd₁, hd, rfl⟩
  | unlink pathname => exact h.unlink hn hok hs
  | write v =>
    obtain ⟨hv, d, hw, rfl⟩ := hs
    exact h.write hn hv hw
  | sync drop =>
    cases hs
    exact h.sync hn hok
  | evict b =>
    obtain ⟨⟨hdirty, -⟩, hs⟩ := Option.ite_none_right_eq_some.mp hs
    cases hs
    refine h.drop hn _ fun i hi => ?_
    subst hi
    exact h.stored i hdirty hok

theorem inv_init (h : Init s) : Inv nowhere s ∧ Named nowhere s := by
  have hon : ∀ i, s.liveOn i = 0 := fun i => by
    unfold State.liveOn
    rw [h.live]
    rfl
  refine ⟨⟨⟨h.wellFormed, h.taken, h.disjoint, h.empty⟩, fun i hi => ?_, fun v hv => ?_, fun v hv => ?_,
    fun i _ hi hu => ?_, fun i _ _ => by rw [h.stored]⟩, fun n i _ => h.names n i⟩
  · rw [h.flags i hi, hon]
    rfl
  · rw [h.live] at hv
    exact absurd hv (Finset.notMem_empty v)
  · rw [h.live] at hv
    exact absurd hv (Finset.notMem_empty v)
  · rw [h.flags i hi] at hu
    cases hu

/--
**As long as no block is dropped with a count that was decremented but not marked, and no file that is
freed has an indirect block, the count in an inode is the number of live vnodes on it: an unlinked file
stays until its last vnode is deleted, and is then freed with its blocks.**
-/
theorem open_count (h : Reach Init (step console) Orderly s) :
    OpenOk s ∧ ∀ a s', Orderly s a → step console s a s' → FreedOk s s' := by
  have hinv := h.invariant (P := fun s => Inv nowhere s ∧ Named nowhere s) (fun _ => inv_init)
    fun _ _ _ hi hok hs =>
      let hstep := hi.1.step hi.2 hok hs
      ⟨hstep.inv, hstep.named⟩
  refine ⟨⟨hinv.1.count, fun v hv => ?_, fun i => hinv.1.freed i id⟩, fun a s' hok hs =>
    (hinv.1.step hinv.2 hok hs).freed⟩
  exact ⟨hinv.1.regular v hv, hinv.1.blocks.taken _ (hinv.1.regular v hv)⟩

theorem step_of_next {a : Act V G T N} (hs : next console s a = some s') : step console s a s' := by
  cases a <;> first | exact hs | cases hs

attribute [local instance] Lib.neZero_one Lib.neZero_two

/-- A process without files on a disk without files, and a name `0`. -/
def empty : State (Fin 2) (Fin 1) (Fin 1) (Fin 1) (Fin 1) where
  fd :=
    { alive := fun v => v = 0
      refcount_ := fun v => if v = 0 then 4 else 0
      active_ := fun _ => 0
      groups := {0}
      fdtable_ := fun _ fd => if fd < 3 then some 0 else none
      stale_ := fun _ => none
      threads := {0}
      thgrp_ := fun _ => 0
      pc := fun _ => .user
      server_ := fun _ => none
      client_ := fun _ => none
      fd_ := fun _ => 0
      received_ := fun _ => true }
  live := ∅
  ino_ _ := 0
  fs :=
    { sb := ⟨64, 10, 0⟩
      fbb := fun _ => 0#64
      inode := fun i => ⟨if i = 1 then type_directory else 0, 0, 0, 0, fun _ => ⟨0, 0⟩, ⟨0, 0⟩⟩
      buf := fun _ _ => 0
      avail := fun _ => true
      availNew := fun _ => true }
  entries _ := ⟨0, 0⟩
  stored i := ⟨if i = 1 then type_directory else 0, 0, 0, 0, fun _ => ⟨0, 0⟩, ⟨0, 0⟩⟩
  dirty := ∅
  missed := ∅
  names _ := none

theorem empty_init : Init empty := by
  have hfree : ∀ i, (empty.fs.inode i).type ≠ type_regular := fun i => by
    show (if i = 1 then type_directory else 0) ≠ type_regular
    split <;> decide
  exact ⟨rfl, fun i hi => absurd hi (hfree i), fun n i hn => absurd hn (by simp [empty]),
    fun i hi => absurd hi (hfree i), fun i hi => absurd hi (hfree i),
    fun i _ hi => absurd hi (hfree i), fun _ _ => ⟨fun _ _ => rfl, rfl⟩, rfl⟩

/-- A new file is unlinked while it is open. -/
def unlinkRun : List (Act (Fin 2) (Fin 1) (Fin 1) (Fin 1)) :=
  [.open_ 0 1 0 true false true, .sync 0, .unlink 0, .sync 1]

theorem open_count_unlinkRun :
    ∃ s : State (Fin 2) (Fin 1) (Fin 1) (Fin 1) (Fin 1),
      Reach Init (step 0) Orderly s ∧ OpenOk s ∧ s.live = {1} ∧
      (s.fs.inode 2).type = type_regular ∧ (s.fs.inode 2).flags = 2 + unlinked := by
  have hend : (exec (next 0) (fun s a => decide (Orderly s a)) empty unlinkRun).map
      (fun s => (s.live, (s.fs.inode 2).type, (s.fs.inode 2).flags)) =
        some ({1}, type_regular, 2 + unlinked) := by
    decide +kernel
  obtain ⟨s, hrun, hs⟩ := Option.map_eq_some_iff.mp hend
  simp only [Prod.mk.injEq] at hs
  have hreach : Reach Init (step 0) Orderly s :=
    (Reach.exec (fun s a (hok : decide (Orderly s a) = true) => of_decide_eq_true hok)
      (.init empty_init) hrun).mono_step fun _ _ _ => step_of_next
  exact ⟨s, hreach, (open_count hreach).1, hs⟩

/-- A new file is written back and closed, and its inode is dropped from the cache. -/
def evictRun : List (Act (Fin 2) (Fin 1) (Fin 1) (Fin 1)) :=
  [.open_ 0 1 0 true false true, .sync 0, .close 0 0 3, .evict 0]

/-- The count that comes back from the disk is that of the open file. -/
theorem stale_count :
    ∃ s : State (Fin 2) (Fin 1) (Fin 1) (Fin 1) (Fin 1),
      Reach Init (step 0) (fun _ _ => True) s ∧ s.live = ∅ ∧ (s.fs.inode 2).type = type_regular ∧
      (s.fs.inode 2).flags / 2 = 1 ∧ ¬ OpenOk s := by
  have hend : (exec (next 0) (fun _ _ => true) empty evictRun).map
      (fun s => (s.live, (s.fs.inode 2).type, (s.fs.inode 2).flags / 2)) =
        some (∅, type_regular, 1) := by
    decide +kernel
  obtain ⟨s, hrun, hs⟩ := Option.map_eq_some_iff.mp hend
  simp only [Prod.mk.injEq] at hs
  obtain ⟨hlive, htype, hflags⟩ := hs
  refine ⟨s, (Reach.exec (fun _ _ _ => trivial) (.init empty_init) hrun).mono_step
    fun _ _ _ => step_of_next, hlive, htype, hflags, fun hok => ?_⟩
  have hcount := hok.count 2 htype
  rw [hflags] at hcount
  unfold State.liveOn at hcount
  rw [hlive] at hcount
  cases hcount

end Chickadee.Fs.Open
