import Chickadee.Chkfs.Offset

/-!
# Calls that return

When there is a cache entry for every block that is asked for, the iterator finds each place in the file, and
it stops only behind the last block.
-/

namespace Chickadee.Chkfs

open Lib Fs

variable {k₀ k k' : Kernel} {d d' : Disk} {it : Fileiter} {ino : ℕ} {own R : Multiset Token}

/-- Since `k₀` the task has taken the references `own`. Every block has an entry. -/
structure Quiet (k₀ k : Kernel) (own : Multiset Token) : Prop where
  avail : ∀ i, k.disk.avail i = true
  availNew : (∀ i, k₀.disk.availNew i = true) → ∀ i, k.disk.availNew i = true
  mlock : k.mlock = k₀.mlock
  ref_ : ∀ e, k.ref_ e = k₀.ref_ e + own.count (.ref e)

theorem Quiet.refl (h : ∀ i, k.disk.avail i = true) : Quiet k k 0 :=
  ⟨h, id, rfl, fun _ => by rw [Multiset.count_zero, Nat.add_zero]⟩

/-- A change of something else. -/
theorem Quiet.of (h : Quiet k₀ k own) (havail : k'.disk.avail = k.disk.avail)
    (havailNew : k'.disk.availNew = k.disk.availNew) (hmlock : k'.mlock = k.mlock) (href : k'.ref_ = k.ref_) :
    Quiet k₀ k' own := by
  obtain ⟨h₁, h₂, h₃, h₄⟩ := h
  exact ⟨by rwa [havail], by rwa [havailNew], hmlock.trans h₃, by rwa [href]⟩

theorem runs_get_disk_entry (e : Entry) (h : Quiet k₀ k own) :
    Runs k (get_disk_entry e) fun ok k' => ok = true ∧ Quiet k₀ k' ({.ref e} + own) := by
  refine ⟨true, k.tick.addRef e, get_disk_entry_true (h.avail 0) e, rfl, fun i => h.avail (i + 1), h.availNew,
    h.mlock, fun e' => ?_⟩
  show Function.update k.ref_ e (k.ref_ e + 1) e' = _
  rw [Multiset.count_add]
  by_cases he : e' = e
  · subst he
    rw [Function.update_self, h.ref_, Multiset.count_singleton_self]
    omega
  · have hne : Token.ref e' ≠ .ref e := fun heq => he (Token.ref.inj heq)
    rw [Function.update_of_ne he, h.ref_, Multiset.count_singleton, if_neg hne, Nat.zero_add]

theorem runs_put (e : Entry) (h : Quiet k₀ k ({.ref e} + own)) :
    Runs k (put e) fun _ k' => Quiet k₀ k' own := by
  have hone := h.ref_ e
  rw [Multiset.count_add, Multiset.count_singleton_self] at hone
  refine ⟨(), { k with ref_ := Function.update k.ref_ e (k.ref_ e - 1) }, if_neg (by omega), h.avail, h.availNew,
    h.mlock, fun e' => ?_⟩
  dsimp only
  by_cases he : e' = e
  · subst he
    rw [Function.update_self]
    omega
  · have hne : Token.ref e' ≠ .ref e := fun heq => he (Token.ref.inj heq)
    rw [Function.update_of_ne he, h.ref_, Multiset.count_add, Multiset.count_singleton, if_neg hne, Nat.zero_add]

theorem runs_get_new_entry (e : Entry) (h : Quiet k₀ k own) :
    Runs k (get_new_entry e) fun ok k' => Quiet k₀ k' (gained e ok + own) := by
  refine ⟨_, _, rfl, h.avail, fun hall i => h.availNew hall (i + 1), h.mlock, fun e' => ?_⟩
  dsimp only
  rw [Multiset.count_add]
  unfold gained
  split
  · by_cases he : e' = e
    · subst he
      rw [Function.update_self, h.ref_, Multiset.count_singleton_self]
      omega
    · have hne : Token.ref e' ≠ .ref e := fun heq => he (Token.ref.inj heq)
      rw [Function.update_of_ne he, h.ref_, Multiset.count_singleton, if_neg hne, Nat.zero_add]
  · rw [h.ref_, Multiset.count_zero, Nat.zero_add]

theorem runs_assert {p : Prop} [Decidable p] (hp : p) : Runs k (assert p) fun _ k' => k = k' := by
  unfold assert
  rw [if_pos hp]
  exact .pure rfl

theorem runs_superblock (h : Quiet k₀ k own) : Runs k superblock fun _ k' => Quiet k₀ k' own := by
  refine (runs_get_disk_entry _ h).bind fun ok k₁ hget => ?_
  obtain ⟨rfl, hq⟩ := hget
  exact (runs_assert rfl).bind fun _ _ heq => heq ▸ runs_put _ hq

theorem runs_set_fbb (fbb : Words) (h : Quiet k₀ k own) : Runs k (set_fbb fbb) fun _ k' => Quiet k₀ k' own :=
  ⟨_, _, rfl, h.of rfl rfl rfl rfl⟩

/-- **An allocation returns**, also when there is no room. -/
theorem runs_allocate_extent {count : ℕ} (hcount : 0 < count) (h : Quiet k₀ k own) :
    Runs k (allocate_extent count) fun _ k' => Quiet k₀ k' own := by
  unfold allocate_extent
  split
  · exact .pure h
  refine (runs_superblock h).bind fun _ k₁ h₁ => (runs_get_disk_entry _ h₁).bind fun ok k₂ hget => ?_
  obtain ⟨rfl, h₂⟩ := hget
  rw [if_pos rfl]
  refine .get ?_
  rcases find_free_range_spec k₂.disk.fbb hcount with ⟨first, hfind, hrun, -⟩ | ⟨hfind, -⟩
  · have hfirst : first ≠ u32 (-1) := by
      have hfits := hrun.fits
      unfold bitsperblock at hfits
      rw [u32_eq.1]
      omega
    obtain ⟨fbb, hmark⟩ := (exists_markRange_iff k₂.disk.fbb (x := false)).mpr (.inr hrun.fits)
    rw [hfind]
    dsimp only
    rw [if_neg hfirst]
    refine .get ?_
    rw [hmark]
    exact (runs_set_fbb _ h₂).bind fun _ k₃ h₃ => (runs_put _ h₃).bind fun _ _ h₄ => .pure h₄
  · rw [hfind]
    dsimp only
    rw [if_pos rfl]
    exact (runs_put _ h₂).bind fun _ _ h₃ => .pure h₃

theorem runs_kalloc (h : Quiet k₀ k own) : Runs k kalloc fun _ k' => Quiet k₀ k' own :=
  ⟨_, _, rfl, h.of rfl rfl rfl rfl⟩

theorem runs_set_inode (i : ℕ) (f : Inode → Inode) (h : Quiet k₀ k own) :
    Runs k (set_inode i f) fun _ k' => Quiet k₀ k' own :=
  ⟨_, _, rfl, h.of rfl rfl rfl rfl⟩

theorem runs_set_buf (bn : ℕ) (f : Block → Block) (h : Quiet k₀ k own) :
    Runs k (set_buf bn f) fun _ k' => Quiet k₀ k' own :=
  ⟨_, _, rfl, h.of rfl rfl rfl rfl⟩

/-- A task that has no references, with all locks in the same state. -/
def kernelOn (d : Disk) (v : Mlock) : Kernel where
  disk := d
  ref_ := fun _ => 0
  mlock := fun _ => v
  disk_vnodes := 0
  fdtable_ := fun _ => none
  name := [47]
  mem := fun _ => true
  stack := []
  sata_disk := true

namespace Fileiter

theorem runs_put_indirect (h : Quiet k₀ k (it.own + R)) :
    Runs k it.put_indirect fun _ k' => Quiet k₀ k' R := by
  unfold own entry at h
  unfold put_indirect
  split
  · next bn hbn =>
    rw [hbn] at h
    exact (runs_put _ h).bind fun _ _ hput => .pure hput
  · next hnone =>
    rw [hnone] at h
    dsimp only at h
    rw [zero_add] at h
    exact .pure h

theorem runs_destroy (h : Quiet k₀ k (it.own + R)) : Runs k it.destroy fun _ k' => Quiet k₀ k' R := by
  unfold own entry at h
  unfold destroy
  split
  · next bn hbn =>
    rw [hbn] at h
    exact runs_put _ h
  · next hnone =>
    rw [hnone] at h
    dsimp only at h
    rw [zero_add] at h
    exact .pure h

/-- Behind extents of an inode there are no more blocks than it has. -/
theorem Placed.eidx_le (h : it.Placed d) : it.eidx_ ≤ ndirect + extentsperblock * (d.inode it.ino_).indirect.count := by
  by_contra hlt
  exact h.passed _ (not_le.mp hlt) (extentOf_end d it.ino_)

/-- The iterator has stopped behind the last block. -/
structure Stopped (d : Disk) (off : ℕ) (it : Fileiter) : Prop where
  empty : (extentOf d it.ino_ it.eidx_).count = 0
  before : it.eoff_ ≤ off
  full : ndirect ≤ it.eidx_ → it.indirect_entry_ = none →
    it.eidx_ = ndirect + extentsperblock * (d.inode it.ino_).indirect.count

theorem Stopped.congr {off : ℕ} (h : it.Stopped d off) (hinode : d'.inode = d.inode) (hbuf : d'.buf = d.buf) :
    it.Stopped d' off := by
  obtain ⟨hempty, hbefore, hfull⟩ := h
  refine ⟨?_, hbefore, by rwa [hinode]⟩
  rwa [extentOf_congr (congrFun hinode _) hbuf]

theorem runs_findLoop (n : ℕ) (h : it.Placed k.disk) (hptr : it.eptr_ ≠ none) (hle : it.eoff_ ≤ it.off_)
    (hq : Quiet k₀ k (it.own + R))
    (hn : ndirect + extentsperblock * (k.disk.inode it.ino_).indirect.count < n + it.eidx_) :
    Runs k (findLoop n it) fun it' k' => Quiet k₀ k' (it'.own + R) ∧
      (it'.eptr_ = none → it'.Stopped k.disk it.off_) := by
  induction n generalizing k it with
  | zero =>
    have hlast := h.eidx_le
    omega
  | succ n ih =>
    unfold findLoop
    split
    · next hnone => exact absurd hnone hptr
    next p hp =>
    refine .get ?_
    dsimp only
    have hext := h.extent_eq hp
    split_ifs with hin hzero hdirect hblock
    · exact .pure ⟨hq, fun hnone => absurd hnone hptr⟩
    · -- the first extent without blocks
      refine .pure ⟨hq, fun _ => ⟨?_, hle, fun hge hnone => ?_⟩⟩
      · rwa [hext] at hzero
      · rcases h.ptr p hp with ⟨hlt, -⟩ | ⟨-, bn, hbn, -⟩
        · exact absurd hge (not_le.mpr hlt)
        · rw [hnone] at hbn
          cases hbn
    · exact ih (h.next hp hzero (.inl hdirect)) (by simp) (not_lt.mp hin) hq (by dsimp only; omega)
    · -- another indirect block, or the end
      refine Runs.bind (.and (runs_put_indirect hq) ends_put_indirect) fun it₁ k₁ hput => ?_
      obtain ⟨hq₁, hdisk, rfl⟩ := hput
      refine .get ?_
      rw [hdisk]
      have hge := not_lt.mp hdirect
      split
      · next hlast =>
        -- there are no more extents
        have hplaced := h.leave hp hzero hge
        refine .pure ⟨by rwa [own_of_none rfl, zero_add], fun _ => ⟨?_, not_lt.mp hin, fun _ _ => ?_⟩⟩
        · unfold extentOf
          dsimp only
          rw [if_neg hdirect, if_pos hlast]
        · have hle := hplaced.eidx_le
          dsimp only at hle hlast ⊢
          rw [Nat.le_div_iff_mul_le (by decide), Nat.mul_comm] at hlast
          omega
      · next hlt =>
        refine ((runs_get_disk_entry _ hq₁).and (ends_get_disk_entry _)).bind fun ok k₂ hget => ?_
        obtain ⟨⟨rfl, hq₂⟩, hsame⟩ := hget
        rw [hdisk] at hsame
        rw [if_pos rfl]
        have hplaced := (h.enter hp hzero hge hblock (not_le.mp hlt)).congr hsame.inode hsame.buf
        refine (ih hplaced (by simp) (not_lt.mp hin) hq₂ ?_).mono fun it' k' hrest => ?_
        · dsimp only
          rw [congrFun hsame.inode it.ino_]
          omega
        · exact ⟨hrest.1, fun hnone => (hrest.2 hnone).congr hsame.inode.symm hsame.buf.symm⟩
    · exact ih (h.next hp hzero (.inr hblock)) (by simp) (not_lt.mp hin) hq (by dsimp only; omega)

/-- The iterator is at offset `off`, in an extent or behind the last block. -/
structure Found (d : Disk) (ino off : ℕ) (it : Fileiter) : Prop extends Placed d it where
  ino_ : it.ino_ = ino
  off_ : it.off_ = off
  inside : it.active d = true → it.eptr_ ≠ none ∧ (extentOf d ino it.eidx_).count ≠ 0 ∧
    it.eoff_ ≤ off ∧ off < it.eoff_ + (extentOf d ino it.eidx_).count * blocksize
  stopped : it.active d = false → it.Stopped d off

theorem Found.congr {off : ℕ} (h : it.Found d ino off) (hinode : d'.inode = d.inode) (hbuf : d'.buf = d.buf) :
    it.Found d' ino off := by
  have hactive : it.active d' = it.active d := by
    unfold active
    split
    · rfl
    · next p hp => rw [(h.toPlaced.congr hinode hbuf).extent_eq hp, h.extent_eq hp,
        extentOf_congr (congrFun hinode _) hbuf]
  refine ⟨h.toPlaced.congr hinode hbuf, h.ino_, h.off_, fun hin => ?_, fun hin => ?_⟩
  · rw [extentOf_congr (congrFun hinode _) hbuf]
    exact h.inside (hactive ▸ hin)
  · exact (h.stopped (hactive ▸ hin)).congr hinode hbuf

/-- A pointer to an extent is to one that the iterator is in. -/
theorem Sought.active_eq {off : ℕ} (h : it.Sought d ino off) : it.active d = true ↔ it.eptr_ ≠ none := by
  unfold active
  split
  · next hnone => simp [hnone]
  next p hp =>
  have hptr : it.eptr_ ≠ none := by simp [hp]
  have hinside := h.inside hptr
  rw [h.extent_eq hp, h.ino_, decide_eq_true_iff]
  refine ⟨fun _ => hptr, fun _ hzero => ?_⟩
  rw [hzero] at hinside
  omega

theorem Sought.found {off : ℕ} (h : it.Sought d ino off) (hstop : it.eptr_ = none → it.Stopped d off) :
    it.Found d ino off := by
  refine ⟨h.toPlaced, h.ino_, h.off_, fun hin => ?_, fun hin => hstop ?_⟩
  · have hptr := h.active_eq.mp hin
    refine ⟨hptr, fun hzero => ?_, h.inside hptr⟩
    have hinside := h.inside hptr
    rw [hzero] at hinside
    omega
  · by_contra hptr
    rw [h.active_eq.mpr hptr] at hin
    cases hin

theorem found_fileiter (d : Disk) (ino : ℕ) : (fileiter ino).Found d ino 0 := by
  have hext : extent d ino (.direct 0) = extentOf d ino 0 := (extentOf_direct (by decide)).symm
  refine ⟨placed_fileiter d ino, rfl, rfl, fun hin => ?_, fun hin => ⟨?_, le_rfl, fun hge => by cases hge⟩⟩
  · have hcount : (extentOf d ino 0).count ≠ 0 := hext ▸ of_decide_eq_true hin
    refine ⟨by simp [fileiter], hcount, le_rfl, ?_⟩
    show 0 < 0 + (extentOf d ino 0).count * blocksize
    unfold blocksize
    omega
  · show (extentOf d ino 0).count = 0
    rw [← hext]
    exact not_not.mp (of_decide_eq_false hin)

/-- **`find` returns, and it stops only behind the last block.** -/
theorem runs_find (off : ℕ) (h : it.Placed k.disk) (hq : Quiet k₀ k (it.own + R)) :
    Runs k (it.find off) fun it' k' => Quiet k₀ k' (it'.own + R) ∧ k.disk.Same k'.disk ∧
      it'.Found k.disk it.ino_ off ∧ (it'.active k.disk = false → it'.eptr_ = none) := by
  have hruns : Runs k (it.find off) fun it' k' => Quiet k₀ k' (it'.own + R) ∧
      (it'.eptr_ = none → it'.Stopped k.disk off) := by
    refine .get ?_
    dsimp only
    split
    · refine Runs.bind (.and (runs_put_indirect hq) ends_put_indirect) fun it₁ k₁ hput => ?_
      obtain ⟨hq₁, hdisk, rfl⟩ := hput
      rw [← hdisk]
      exact runs_findLoop _ (placed_rewound k₁.disk it.ino_ off) (by simp) (Nat.zero_le _)
        (by rwa [own_of_none rfl, zero_add]) (Nat.lt_succ_self _)
    · next hgo =>
      obtain ⟨hptr, hle⟩ := not_or.mp hgo
      exact runs_findLoop _ ⟨h.passed, h.eoff, h.entry, h.ptr, h.stop⟩ hptr (not_lt.mp hle) hq (by dsimp only; omega)
  refine (hruns.and (ends_find off h)).mono fun it' k' hr => ?_
  obtain ⟨⟨hq', hstop⟩, hsame, hsought⟩ := hr
  refine ⟨hq', hsame, hsought.found hstop, fun hin => ?_⟩
  by_contra hptr
  rw [hsought.active_eq.mpr hptr] at hin
  cases hin

theorem runs_insertExtent (it : Fileiter) (first count : ℕ) (hq : Quiet k₀ k (it.own + R)) :
    Runs k (it.insertExtent first count) fun r k' => Quiet k₀ k' (r.1.own + R) ∧
      (r.2 ≠ 0 → ndirect ≤ it.eidx_ ∧ it.indirect_entry_ = none) := by
  unfold insertExtent
  split
  · exact (runs_set_inode _ _ hq).bind fun _ k₁ h₁ => .pure ⟨h₁, fun hne => absurd rfl hne⟩
  next hge =>
  split
  · next hnone => exact .pure ⟨hq, fun _ => ⟨not_lt.mp hge, hnone⟩⟩
  refine .get ?_
  dsimp only
  split
  · exact (runs_set_buf _ _ hq).bind fun _ k₁ h₁ => .pure ⟨h₁, fun hne => absurd rfl hne⟩
  · exact (runs_set_buf _ _ hq).bind fun _ k₁ h₁ => .pure ⟨h₁, fun hne => absurd rfl hne⟩

/-- **`insert` returns** if the inode is locked and the iterator is behind the last block. -/
theorem runs_insert {count off : ℕ} (first : ℕ) (h : it.Found k.disk ino off) (hone : (k.disk.inode ino).indirect.count ≤ 1)
    (hlock : k.mlock (.inode ino) = .writer) (hcount : count ≠ 0) (hin : it.active k.disk = false)
    (hq : Quiet k₀ k (it.own + R)) :
    Runs k (it.insert first count) fun r k' => Quiet k₀ k' (r.1.own + R) ∧
      (r.2 ≠ 0 → it.eidx_ = ndirect ∧ (k.disk.inode ino).indirect.count = 0 ∨
        it.eidx_ = ndirect + extentsperblock) := by
  obtain rfl := h.ino_
  have hstop := h.stopped hin
  have halign : it.eoff_ % blocksize = 0 := by
    rw [h.eoff]
    exact Nat.mul_mod_right _ _
  unfold insert
  refine .get ((runs_assert hlock).bind fun _ _ heq => ?_)
  subst heq
  refine (runs_assert hcount).bind fun _ _ heq => ?_
  subst heq
  refine .get ((runs_assert hin).bind fun _ _ heq => ?_)
  subst heq
  refine (runs_assert halign).bind fun _ _ heq => .get ?_
  subst heq
  dsimp only
  split_ifs with hgrow hmake
  · exact (runs_set_inode _ _ hq).bind fun _ k₁ h₁ => .pure ⟨h₁, fun hne => absurd rfl hne⟩
  · -- the indirect block is made: there is no entry for one yet
    obtain ⟨hidx, hzero⟩ := hmake
    have hnone : it.indirect_entry_ = none := by
      by_contra hsome
      obtain ⟨bn, hbn⟩ := Option.ne_none_iff_exists'.mp hsome
      have hlt := (h.entry bn hbn hidx.ge).1
      rw [hzero] at hlt
      exact absurd hlt (Nat.not_lt_zero _)
    have hbad : ∀ r : ℤ, r ≠ 0 → it.eidx_ = ndirect ∧ (k.disk.inode it.ino_).indirect.count = 0 ∨
        it.eidx_ = ndirect + extentsperblock := fun _ _ => .inl ⟨hidx, hzero⟩
    refine (runs_assert hnone).bind fun _ _ heq => ?_
    subst heq
    refine (runs_allocate_extent Nat.zero_lt_one hq).bind fun indirect_bn k₁ h₁ => ?_
    split
    · exact .pure ⟨h₁, hbad _⟩
    refine (runs_get_new_entry _ h₁).bind fun ok k₂ h₂ => ?_
    rw [own_of_none hnone, zero_add] at h₁ h₂
    split
    · next hok =>
      subst hok
      refine (runs_set_buf _ _ h₂).bind fun _ k₃ h₃ => (runs_set_inode _ _ h₃).bind fun _ k₄ h₄ => ?_
      exact (runs_insertExtent { it with indirect_entry_ := some indirect_bn } first count h₄).mono
        fun r k' hr => ⟨hr.1, hbad _⟩
    · next hok =>
      rw [Bool.not_eq_true] at hok
      subst hok
      refine .pure ⟨?_, hbad _⟩
      rw [own_of_none hnone, zero_add]
      exact (zero_add R) ▸ h₂
  · next hmake =>
    refine (runs_insertExtent it first count hq).mono fun r k' hr => ⟨hr.1, fun hne => ?_⟩
    obtain ⟨hge, hnone⟩ := hr.2 hne
    have hfull := hstop.full hge hnone
    rcases Nat.le_one_iff_eq_zero_or_eq_one.mp hone with hzero | hone
    · rw [hzero, Nat.mul_zero] at hfull
      exact .inl ⟨hfull, hzero⟩
    · rw [hone, Nat.mul_one] at hfull
      exact .inr hfull

end Fileiter

end Chickadee.Chkfs
