import Chickadee.Chkfs.Flat
import Chickadee.Chkfs.Direntry

/-!
# A directory that grows

`allocate_direntry` adds a block to a directory whose blocks are full: the lowest free one, as long as the list
has room for it. It looks for a free entry in what the block held before. Where there is no other block it
tries the same again, for ever, and each time it makes the directory larger.
-/

namespace Chickadee.Chkfs

open Lib Fs

variable {k₀ k k' : Kernel} {d d' : Disk} {it : Fileiter} {ino off : ℕ} {own R : Multiset Token}

/-! ## The free blocks -/

/-- The free blocks, from the lowest one on. -/
def freeBlocks (fbb : Words) : List ℕ := (List.range bitsperblock).filter fbb.bit

theorem isRun_one {fbb : Words} {b : ℕ} : IsRun fbb 1 b ↔ b ∈ freeBlocks fbb := by
  unfold freeBlocks
  rw [List.mem_filter, List.mem_range]
  refine ⟨fun h => ⟨h.fits, h.free b le_rfl (Nat.lt_succ_self b)⟩, fun h => ⟨h.1, fun n hge hlt => ?_⟩⟩
  rw [show n = b by omega]
  exact h.2

theorem freeBlocks_nil {fbb : Words} (h : ∀ b, ¬IsRun fbb 1 b) : freeBlocks fbb = [] :=
  List.eq_nil_iff_forall_not_mem.mpr fun b hb => h b (isRun_one.mpr hb)

theorem freeBlocks_congr {fbb fbb' : Words} (h : ∀ b, fbb'.bit b = fbb.bit b) : freeBlocks fbb' = freeBlocks fbb :=
  List.filter_congr fun b _ => h b

/-- A block number is no error code. -/
theorem not_code {fbb : Words} {b : ℕ} (h : IsRun fbb 1 b) : ¬u32 E_MINERROR ≤ b := by
  have hfits := h.fits
  rw [u32_eq.2.1]
  unfold bitsperblock at hfits
  omega

/-- Without its first element, a filtered range is another one. -/
theorem filter_range_cons {p q : ℕ → Bool} {n b : ℕ} (hb : b < n) (hp : p b = true) (hlow : ∀ a < b, p a = false)
    (hq : ∀ a, q a = if a = b then false else p a) : (List.range n).filter p = b :: (List.range n).filter q := by
  obtain ⟨m, rfl⟩ := Nat.exists_eq_add_of_lt hb
  have hrange : List.range (b + m + 1) = List.range b ++ b :: List.range' (b + 1) m := by
    rw [List.range_eq_range', List.range_eq_range', Nat.add_assoc, ← List.range'_append_1, Nat.zero_add, List.range'_succ]
  have hnone : ∀ r : ℕ → Bool, (∀ a < b, r a = false) → (List.range b).filter r = [] := fun r hr =>
    List.filter_eq_nil_iff.mpr fun a ha => by simp [hr a (List.mem_range.mp ha)]
  rw [hrange, List.filter_append, List.filter_append, hnone p hlow, hnone q fun a ha => ?_,
    List.filter_cons_of_pos hp, List.filter_cons_of_neg ?_]
  · refine congrArg (b :: ·) (List.filter_congr fun a ha => ?_)
    have hlt := (List.mem_range'_1.mp ha).1
    rw [hq, if_neg (by omega)]
  · simp [hq]
  · rw [hq, if_neg ha.ne]
    exact hlow a ha

/-- The lowest free block is taken. -/
theorem freeBlocks_cons {fbb fbb' : Words} {b : ℕ} (hrun : IsRun fbb 1 b) (hlow : ∀ a < b, ¬IsRun fbb 1 a)
    (hbit : ∀ n, fbb'.bit n = if n = b then false else fbb.bit n) : freeBlocks fbb = b :: freeBlocks fbb' := by
  have hlt : b < bitsperblock := hrun.fits
  refine filter_range_cons hlt (hrun.free b le_rfl (Nat.lt_succ_self b)) (fun a ha => ?_) hbit
  by_contra hfree
  refine hlow a ha (isRun_one.mpr (List.mem_filter.mpr ⟨List.mem_range.mpr (ha.trans hlt), ?_⟩))
  rwa [Bool.not_eq_false] at hfree

theorem mem_one {b n : ℕ} : n ∈ Extent.mk b 1 ↔ n = b := by
  rw [Extent.mem_iff]
  dsimp only
  omega

/-! ## The room in the list -/

/--
The blocks that can be added to a list of `n` extents that ends before block `next`, while the free ones are
taken in order. A block that comes right behind the last extent goes into it; without an indirect block the first
extent behind the direct ones costs a second block.
-/
def additions : List ℕ → ℕ → ℕ → Bool → List ℕ
  | [], _, _, _ => []
  | b :: bs, n, next, indirect =>
    if next = b ∧ 0 < n ∧ n < ndirect + extentsperblock then b :: additions bs n (b + 1) indirect
    else if n = ndirect ∧ indirect = false then
      match bs with
      | [] => []
      | _ :: bs => b :: additions bs (n + 1) (b + 1) true
    else if n < ndirect + extentsperblock then b :: additions bs (n + 1) (b + 1) indirect
    else []

section

variable {b n next : ℕ} {bs : List ℕ} {indirect : Bool}

theorem additions_grow (h : next = b ∧ 0 < n ∧ n < ndirect + extentsperblock) :
    additions (b :: bs) n next indirect = b :: additions bs n (b + 1) indirect := by
  rw [additions.eq_def]
  exact if_pos h

theorem additions_new (hgrow : ¬(next = b ∧ 0 < n)) (hindirect : ¬(n = ndirect ∧ indirect = false))
    (hroom : n < ndirect + extentsperblock) :
    additions (b :: bs) n next indirect = b :: additions bs (n + 1) (b + 1) indirect := by
  rw [additions.eq_def]
  dsimp only
  rw [if_neg fun h => hgrow ⟨h.1, h.2.1⟩, if_neg hindirect, if_pos hroom]

theorem additions_indirect (hgrow : ¬(next = b ∧ 0 < n)) (hn : n = ndirect) :
    additions (b :: bs) n next false = match bs with
      | [] => []
      | _ :: bs => b :: additions bs (n + 1) (b + 1) true := by
  rw [additions.eq_def]
  dsimp only
  rw [if_neg fun h => hgrow ⟨h.1, h.2.1⟩, if_pos ⟨hn, rfl⟩]

theorem additions_full (hn : n = ndirect + extentsperblock) : additions bs n next indirect = [] := by
  rw [additions.eq_def]
  cases bs with
  | nil => rfl
  | cons b bs =>
    dsimp only
    rw [if_neg fun h => absurd hn h.2.2.ne, if_neg fun h => absurd (h.1.symm.trans hn) (by decide),
      if_neg hn.ge.not_gt]

end

theorem mem_additions {x n next : ℕ} {bs : List ℕ} {indirect : Bool} (h : x ∈ additions bs n next indirect) : x ∈ bs := by
  fun_induction additions bs n next indirect with
  | case1 => exact h
  | case2 _ _ _ _ _ _ ih => exact List.mem_cons.mpr ((List.mem_cons.mp h).imp_right ih)
  | case3 => exact absurd h List.not_mem_nil
  | case4 _ _ _ _ _ _ _ _ ih =>
    exact List.mem_cons.mpr ((List.mem_cons.mp h).imp_right fun h => List.mem_cons_of_mem _ (ih h))
  | case5 _ _ _ _ _ _ _ _ ih => exact List.mem_cons.mpr ((List.mem_cons.mp h).imp_right ih)
  | case6 => exact absurd h List.not_mem_nil

/-! ## Where `insert` puts a block -/

/-- The block comes right behind the last of the first `n` extents. -/
def Follows (f : ℕ → Extent) (n first : ℕ) : Prop := 0 < n ∧ (f (n - 1)).first + (f (n - 1)).count = first

theorem ends_get_new_entry_ok (e : Entry) : Ends k (get_new_entry e) fun ok _ => ok = k.disk.availNew 0 := by
  intro ok k' h
  cases h
  rfl

namespace Fileiter

theorem ends_insertExtent_follows {first count : ℕ} (h : Placed k.disk it) (hok : ListOk k.disk it.ino_)
    (hrange : first + count < 2 ^ 32) (hge : ndirect < it.eidx_)
    (hfollows : Follows (extentOf k.disk it.ino_) it.eidx_ first) :
    Ends k (it.insertExtent first count) fun _ k' =>
      extentOf k'.disk it.ino_ it.eidx_ = extentOf k.disk it.ino_ it.eidx_ := by
  unfold insertExtent
  rw [if_neg (not_lt.mpr hge.le)]
  split
  · exact .pure rfl
  next bn hbn =>
  obtain ⟨hlt, hfirst⟩ := h.entry bn hbn hge.le
  have hone : (k.disk.inode it.ino_).indirect.count = 1 := le_antisymm hok.one (Nat.zero_lt_of_lt hlt)
  have hzero : (it.eidx_ - ndirect) / extentsperblock = 0 := Nat.lt_one_iff.mp (hlt.trans_le hok.one)
  have hi : it.eidx_ - ndirect < extentsperblock := (Nat.div_eq_zero_iff_lt (by decide)).mp hzero
  rw [hzero, Nat.add_zero] at hfirst
  subst hfirst
  obtain ⟨i, hidx⟩ := Nat.exists_eq_add_of_lt hge
  have hprev : extentAt (k.disk.buf (k.disk.inode it.ino_).indirect.first) i =
      extentOf k.disk it.ino_ (it.eidx_ - 1) := by
    rw [hidx, Nat.add_sub_cancel]
    exact (extentOf_indirect hone (by omega)).symm
  refine .get ?_
  dsimp only
  rw [Nat.mod_eq_of_lt hi, show it.eidx_ - ndirect - 1 = i by omega, hprev, hok.u32_sum,
    if_pos ⟨by omega, hfollows.2⟩]
  obtain ⟨hsum, hfit⟩ := grow_fits hfollows.2 hrange
  refine (ends_set_buf _ _).bind fun _ k₁ hset => .pure ?_
  rw [hset, hsum, extentOf_setIndirect hone (by omega) hfit, Function.update_of_ne (by omega)]

/-- The bitmap and the indirect block stay, and there is room up to the end of the indirect block. -/
theorem ends_insertExtent_keeps (it : Fileiter) (first count : ℕ) :
    Ends k (it.insertExtent first count) fun r k' => k'.disk.fbb = k.disk.fbb ∧
      (k'.disk.inode it.ino_).indirect = (k.disk.inode it.ino_).indirect ∧
      (r.2 = 0 → it.eidx_ < ndirect ∨ it.indirect_entry_ ≠ none) ∧
      (r.2 ≠ 0 → k'.disk = k.disk ∧ ndirect ≤ it.eidx_ ∧ it.indirect_entry_ = none) := by
  unfold insertExtent
  split
  · next hlt =>
    refine (ends_set_inode _ _).bind fun _ k₁ hset => .pure ?_
    rw [hset]
    refine ⟨rfl, ?_, fun _ => .inl hlt, fun hne => absurd rfl hne⟩
    unfold Disk.setInode
    dsimp only
    rw [Function.update_self]
  next hge =>
  split
  · next hnone => exact .pure ⟨rfl, rfl, fun hzero => absurd hzero (show E_FBIG ≠ 0 by decide),
      fun _ => ⟨rfl, not_lt.mp hge, hnone⟩⟩
  next bn hbn =>
  have hsome : it.indirect_entry_ ≠ none := by simp [hbn]
  refine .get ?_
  dsimp only
  split
  · refine (ends_set_buf _ _).bind fun _ k₁ hset => .pure ?_
    rw [hset]
    exact ⟨rfl, rfl, fun _ => .inr hsome, fun hne => absurd rfl hne⟩
  · refine (ends_set_buf _ _).bind fun _ k₁ hset => .pure ?_
    rw [hset]
    exact ⟨rfl, rfl, fun _ => .inr hsome, fun hne => absurd rfl hne⟩

/-- Where `insert` puts a block: in the extent before, or in one of its own. -/
structure Puts (d : Disk) (ino n first : ℕ) (r : ℤ) (d' : Disk) : Prop where
  follows : Follows (extentOf d ino) n first → n < ndirect + extentsperblock →
    r = 0 ∧ extentOf d' ino n = extentOf d ino n
  room : r = 0 → n < ndirect + extentsperblock
  made : (d.inode ino).indirect.count = 0 → (d'.inode ino).indirect.count = 1 →
    n = ndirect ∧ ¬Follows (extentOf d ino) n first ∧
      freeBlocks d.fbb = (d'.inode ino).indirect.first :: freeBlocks d'.fbb
  full : r ≠ 0 → d.Same d' ∧
    (n = ndirect ∧ (d.inode ino).indirect.count = 0 ∧ freeBlocks d.fbb = [] ∨ n = ndirect + extentsperblock)

theorem ends_insert_puts {first count : ℕ} (h : it.Found k.disk ino off) (hin : it.active k.disk = false)
    (hok : ListOk k.disk ino) (hrange : first + count < 2 ^ 32) (hall : k.disk.AllAvail) :
    Ends k (it.insert first count) fun r k' => Puts k.disk ino it.eidx_ first r.2 k'.disk := by
  obtain rfl := h.ino_
  have hstop := h.stopped hin
  have hdirect : Follows (extentOf k.disk it.ino_) it.eidx_ first → it.eidx_ ≤ ndirect → 0 < it.eidx_ ∧
      it.eidx_ ≤ ndirect ∧ u32 (((k.disk.inode it.ino_).direct (it.eidx_ - 1)).first +
        ((k.disk.inode it.ino_).direct (it.eidx_ - 1)).count) = first := fun hfollows hle => by
    obtain ⟨hpos, hfirst⟩ := hfollows
    have hdir : extentOf k.disk it.ino_ (it.eidx_ - 1) = (k.disk.inode it.ino_).direct (it.eidx_ - 1) :=
      extentOf_direct (by omega)
    exact ⟨hpos, hle, by rw [← hdir, hok.u32_sum, hfirst]⟩
  unfold insert
  refine .get ((ends_assert _).bind fun _ _ hlock => ?_)
  obtain ⟨-, rfl⟩ := hlock
  refine (ends_assert _).bind fun _ _ hcount => ?_
  obtain ⟨hcount, rfl⟩ := hcount
  refine .get ((ends_assert _).bind fun _ _ hactive => ?_)
  obtain ⟨-, rfl⟩ := hactive
  refine (ends_assert _).bind fun _ _ halign => ?_
  obtain ⟨-, rfl⟩ := halign
  refine .get ?_
  dsimp only
  split_ifs with hgrow hmake
  · obtain ⟨hpos, hle, -⟩ := hgrow
    refine (ends_set_inode _ _).bind fun _ k₁ hset => .pure ?_
    have hindirect : (k₁.disk.inode it.ino_).indirect = (k.disk.inode it.ino_).indirect := by
      rw [hset]
      unfold Disk.setInode
      dsimp only
      rw [Function.update_self]
    refine ⟨fun _ _ => ⟨rfl, ?_⟩, fun _ => ?_, fun hzero hone => ?_, fun hne => absurd rfl hne⟩
    · rw [hset, extentOf_setDirect k.disk it.ino_ (by omega), Function.update_of_ne (by omega)]
    · unfold extentsperblock
      omega
    · rw [hindirect, hzero] at hone
      cases hone
  · -- the indirect block is made
    obtain ⟨hidx, hzero⟩ := hmake
    refine (ends_assert _).bind fun _ _ hnone => ?_
    obtain ⟨-, rfl⟩ := hnone
    have hnot : ¬Follows (extentOf k.disk it.ino_) it.eidx_ first := fun hfollows =>
      absurd (hdirect hfollows hidx.le) hgrow
    have hlt : it.eidx_ < ndirect + extentsperblock := by
      unfold extentsperblock
      omega
    refine (ends_allocate_extent 1).bind fun bn k₁ halloc => ?_
    have halloc := Disk.allocate_extent_allocated Nat.zero_lt_one halloc
    split
    · next hcode =>
      refine .pure ⟨fun hfollows => absurd hfollows hnot, fun _ => hlt, fun _ hone => ?_, fun _ => ?_⟩
      all_goals rcases halloc with ⟨hsame, -, -, hfull⟩ | ⟨hrun, -, -⟩
      · rw [hsame.inode, hzero] at hone
        cases hone
      · exact absurd hcode (not_code hrun)
      · exact ⟨hsame, .inl ⟨hidx, hzero, freeBlocks_nil (hfull hall)⟩⟩
      · exact absurd hcode (not_code hrun)
    next hcode =>
    rcases halloc with ⟨-, hcode', -, -⟩ | ⟨hrun, hlow, hmarked⟩
    · exact absurd hcode' hcode
    refine (Ends.and (ends_get_new_entry _) (ends_get_new_entry_ok _)).bind fun ok k₂ hget => ?_
    obtain ⟨hsame, hok'⟩ := hget
    rw [(hmarked.toLater.allAvail hall).availNew] at hok'
    rw [if_pos hok']
    refine (ends_set_buf _ _).bind fun _ k₃ hzeroed => (ends_set_inode _ _).bind fun _ k₄ hset => ?_
    refine (ends_insertExtent_keeps _ _ _).mono fun r k' hr => ?_
    obtain ⟨hfbb, hindirect, -, hfull⟩ := hr
    have hkept : k'.disk.fbb = k₁.disk.fbb := by
      rw [hfbb, hset, hzeroed]
      exact hsame.fbb
    have hbn : (k'.disk.inode it.ino_).indirect.first = bn := by
      rw [hindirect, hset]
      unfold Disk.setInode
      dsimp only
      rw [Function.update_self]
    refine ⟨fun hfollows => absurd hfollows hnot, fun _ => hlt, fun _ _ => ?_, fun hne => ?_⟩
    · refine ⟨hidx, hnot, ?_⟩
      rw [hbn, hkept]
      exact freeBlocks_cons hrun hlow fun b => (hmarked.bit b).trans (if_congr mem_one rfl rfl)
    · cases (hfull hne).2.2
  · have hroom : Ends k (it.insertExtent first count) fun r k' => (r.2 = 0 → it.eidx_ < ndirect + extentsperblock) ∧
        (k'.disk.inode it.ino_).indirect = (k.disk.inode it.ino_).indirect ∧
        (r.2 ≠ 0 → k.disk.Same k'.disk ∧ it.eidx_ = ndirect + extentsperblock) := by
      refine (ends_insertExtent_keeps _ _ _).mono fun r k' hr => ?_
      obtain ⟨-, hindirect, hroom, hfull⟩ := hr
      refine ⟨fun hzero => ?_, hindirect, fun hne => ?_⟩
      · rcases hroom hzero with hlt | hsome
        · exact Nat.lt_add_right _ hlt
        · obtain ⟨bn, hbn⟩ := Option.ne_none_iff_exists'.mp hsome
          by_contra hge
          have hentry := (h.entry bn hbn (by omega)).1.trans_le hok.one
          rw [Nat.div_lt_iff_lt_mul (by decide)] at hentry
          omega
      · obtain ⟨hdisk, hge, hnone⟩ := hfull hne
        have hlast := hstop.full hge hnone
        refine ⟨hdisk ▸ .refl _, ?_⟩
        rcases Nat.le_one_iff_eq_zero_or_eq_one.mp hok.one with hzero | hone
        · rw [hzero, Nat.mul_zero] at hlast
          exact absurd ⟨hlast, hzero⟩ hmake
        · rwa [hone, Nat.mul_one] at hlast
    by_cases hfollows : Follows (extentOf k.disk it.ino_) it.eidx_ first
    · have hge : ndirect < it.eidx_ := by
        by_contra hle
        exact hgrow (hdirect hfollows (not_lt.mp hle))
      refine (Ends.and (ends_insertExtent_follows h.toPlaced hok hrange hge hfollows) hroom).mono fun r k' hr => ?_
      obtain ⟨hkept, hroom, hindirect, hfull⟩ := hr
      refine ⟨fun _ hlt => ⟨?_, hkept⟩, hroom, fun hzero hone => ?_, fun hne => ⟨(hfull hne).1, .inr (hfull hne).2⟩⟩
      · by_contra hne
        exact absurd (hfull hne).2 hlt.ne
      · rw [hindirect, hzero] at hone
        cases hone
    · refine hroom.mono fun r k' hr => ?_
      obtain ⟨hroom, hindirect, hfull⟩ := hr
      refine ⟨fun h => absurd h hfollows, hroom, fun hzero hone => ?_, fun hne => ⟨(hfull hne).1, .inr (hfull hne).2⟩⟩
      rw [hindirect, hzero] at hone
      cases hone

end Fileiter

/-! ## What else changes -/

/-- Of the inodes only `ino` may differ, and not in its type, its flags or its links. -/
structure Touched (d d' : Disk) (ino : ℕ) : Prop where
  sb : d'.sb = d.sb
  other : ∀ i, i ≠ ino → d'.inode i = d.inode i
  type : (d'.inode ino).type = (d.inode ino).type
  flags : (d'.inode ino).flags = (d.inode ino).flags
  nlink : (d'.inode ino).nlink = (d.inode ino).nlink

theorem Touched.of_inode (hsb : d'.sb = d.sb) (hinode : d'.inode = d.inode) : Touched d d' ino :=
  ⟨hsb, fun i _ => congrFun hinode i, by rw [hinode], by rw [hinode], by rw [hinode]⟩

theorem Touched.refl (d : Disk) (ino : ℕ) : Touched d d ino := .of_inode rfl rfl

theorem Touched.trans {d'' : Disk} (h : Touched d d' ino) (h' : Touched d' d'' ino) : Touched d d'' ino :=
  ⟨h'.sb.trans h.sb, fun i hi => (h'.other i hi).trans (h.other i hi), h'.type.trans h.type, h'.flags.trans h.flags,
    h'.nlink.trans h.nlink⟩

/-- The extents and the size are changed. -/
theorem touched_setInode {x : Inode} (htype : x.type = (d.inode ino).type) (hflags : x.flags = (d.inode ino).flags)
    (hnlink : x.nlink = (d.inode ino).nlink) : Touched d (d.setInode ino x) ino := by
  have hself : (d.setInode ino x).inode ino = x := Function.update_self _ _ _
  refine ⟨rfl, fun i hi => Function.update_of_ne hi _ _, ?_, ?_, ?_⟩
  all_goals rw [hself]
  · exact htype
  · exact hflags
  · exact hnlink

namespace Fileiter

theorem ends_insertExtent_touched (it : Fileiter) (first count : ℕ) :
    Ends k (it.insertExtent first count) fun _ k' => Touched k.disk k'.disk it.ino_ := by
  unfold insertExtent
  split
  · refine (ends_set_inode _ _).bind fun _ k₁ hset => .pure ?_
    rw [hset]
    exact touched_setInode rfl rfl rfl
  split
  · exact .pure (.refl _ _)
  refine .get ?_
  dsimp only
  split
  · refine (ends_set_buf _ _).bind fun _ k₁ hset => .pure ?_
    rw [hset]
    exact .of_inode rfl rfl
  · refine (ends_set_buf _ _).bind fun _ k₁ hset => .pure ?_
    rw [hset]
    exact .of_inode rfl rfl

theorem ends_insert_touched (it : Fileiter) (first count : ℕ) :
    Ends k (it.insert first count) fun _ k' => Touched k.disk k'.disk it.ino_ := by
  unfold insert
  refine .get ((ends_assert _).bind fun _ _ hlock => ?_)
  obtain ⟨-, rfl⟩ := hlock
  refine (ends_assert _).bind fun _ _ hcount => ?_
  obtain ⟨-, rfl⟩ := hcount
  refine .get ((ends_assert _).bind fun _ _ hactive => ?_)
  obtain ⟨-, rfl⟩ := hactive
  refine (ends_assert _).bind fun _ _ halign => ?_
  obtain ⟨-, rfl⟩ := halign
  refine .get ?_
  dsimp only
  split_ifs
  · refine (ends_set_inode _ _).bind fun _ k₁ hset => .pure ?_
    rw [hset]
    exact touched_setInode rfl rfl rfl
  · refine (ends_assert _).bind fun _ _ hnone => ?_
    obtain ⟨-, rfl⟩ := hnone
    refine (ends_allocate_extent 1).bind fun bn k₁ halloc => ?_
    have htouched : Touched k.disk k₁.disk it.ino_ := by
      rcases Disk.allocate_extent_allocated Nat.zero_lt_one halloc with ⟨hsame, -, -, -⟩ | ⟨-, -, hmarked⟩
      · exact .of_inode hsame.sb hsame.inode
      · exact .of_inode hmarked.sb hmarked.inode
    split
    · exact .pure htouched
    refine (ends_get_new_entry _).bind fun ok k₂ hsame => ?_
    replace htouched := htouched.trans (.of_inode hsame.sb hsame.inode)
    split
    · refine (ends_set_buf _ _).bind fun _ k₃ hzero => (ends_set_inode _ _).bind fun _ k₄ hset => ?_
      have hzeroed : Touched k₂.disk k₃.disk it.ino_ := by
        rw [hzero]
        exact .of_inode rfl rfl
      have hmade : Touched k₃.disk k₄.disk it.ino_ := by
        rw [hset]
        exact touched_setInode rfl rfl rfl
      exact (ends_insertExtent_touched _ _ _).mono fun _ k' hr => htouched.trans (hzeroed.trans (hmade.trans hr))
    · exact .pure htouched
  · exact ends_insertExtent_touched _ _ _

theorem ends_growDirectory_touched (it : Fileiter) :
    Ends k (growDirectory it) fun _ k' => Touched k.disk k'.disk it.ino_ := by
  unfold growDirectory
  refine (ends_allocate_extent 1).bind fun b k₁ halloc => ?_
  have htouched : Touched k.disk k₁.disk it.ino_ := by
    rcases Disk.allocate_extent_allocated Nat.zero_lt_one halloc with ⟨hsame, -, -, -⟩ | ⟨-, -, hmarked⟩
    · exact .of_inode hsame.sb hsame.inode
    · exact .of_inode hmarked.sb hmarked.inode
  split
  · exact .pure htouched
  refine (it.ends_insert_touched b 1).bind fun r k₂ hins => ?_
  replace htouched := htouched.trans hins
  dsimp only
  split
  · refine (ends_free_extent b 1).bind fun _ k₃ hfree => .pure ?_
    have hback := Disk.free_extent_marked hfree
    exact htouched.trans (.of_inode hback.sb hback.inode)
  · exact .pure htouched

end Fileiter

/-! ## A block is added -/

/-- The block number behind the last extent. -/
def lastEnd (d : Disk) (ino : ℕ) : ℕ :=
  (extentOf d ino (nextents d ino - 1)).first + (extentOf d ino (nextents d ino - 1)).count

/-- The blocks that the file can be given, one after the other. -/
def addable (d : Disk) (ino : ℕ) : List ℕ :=
  additions (freeBlocks d.fbb) (nextents d ino) (lastEnd d ino) (decide ((d.inode ino).indirect.count = 1))

/-- An extent list in order, whose indirect block is not free. -/
structure InOrder (d : Disk) (ino : ℕ) : Prop extends WellFormed d ino where
  range : (d.inode ino).size < 2 ^ 32
  taken : (d.inode ino).indirect.count = 1 → d.fbb.bit (d.inode ino).indirect.first = false

/-- Block `b` is taken, and maybe another one for the indirect block, which is the only one that is written to. -/
structure Took (d : Disk) (ino b : ℕ) (d' : Disk) : Prop where
  bit : ∀ x, d'.fbb.bit x = true ↔ d.fbb.bit x = true ∧ x ≠ b ∧
    ¬((d.inode ino).indirect.count = 0 ∧ (d'.inode ino).indirect = ⟨x, 1⟩)
  indirect : (d'.inode ino).indirect = (d.inode ino).indirect ∨ (d.inode ino).indirect.count = 0 ∧
    ∃ bn, (d'.inode ino).indirect = ⟨bn, 1⟩ ∧ d.fbb.bit bn = true ∧ bn ≠ b
  buf : ∀ x, ((d'.inode ino).indirect.count = 1 → x ≠ (d'.inode ino).indirect.first) → d'.buf x = d.buf x

/-- The first of the blocks that the file can be given is added to it. -/
structure Grew (d : Disk) (ino b : ℕ) (d' : Disk) : Prop extends Took d ino b d' where
  inOrder : InOrder d' ino
  flat : flat d' ino = flat d ino ++ [b]
  addable : addable d ino = b :: addable d' ino
  ne : (d'.inode ino).indirect.count = 1 → (d'.inode ino).indirect.first ≠ b
  size : (d'.inode ino).size = (d.inode ino).size

theorem mem_addable {b : ℕ} (h : b ∈ addable d ino) : d.fbb.bit b = true :=
  (List.mem_filter.mp (mem_additions h)).2

theorem follows_iff {first : ℕ} :
    Follows (extentOf d ino) (nextents d ino) first ↔ lastEnd d ino = first ∧ 0 < nextents d ino := and_comm

/-- A block in an extent of its own. -/
theorem addable_new {b : ℕ} {bs : List ℕ} (hok : WellFormed d ino) (hcons : freeBlocks d.fbb = b :: bs)
    (hnot : ¬Follows (extentOf d ino) (nextents d ino) b) (hroom : nextents d ino < ndirect + extentsperblock)
    (hext : extentOf d' ino = Function.update (extentOf d ino) (nextents d ino) ⟨b, 1⟩)
    (hmade : nextents d ino = ndirect ∧ (d.inode ino).indirect.count = 0 ∧ (d'.inode ino).indirect.count = 1 ∧
        (∃ bn, bs = bn :: freeBlocks d'.fbb) ∨
      (nextents d ino = ndirect → (d.inode ino).indirect.count = 1) ∧
        (d'.inode ino).indirect = (d.inode ino).indirect ∧ bs = freeBlocks d'.fbb) :
    addable d ino = b :: addable d' ino := by
  have hnext := nextents_new (e := ⟨b, 1⟩) hok Nat.one_ne_zero hext
  have hend : lastEnd d' ino = b + 1 := by
    unfold lastEnd
    rw [hnext, Nat.add_sub_cancel, hext, Function.update_self]
  have hgrow : ¬(lastEnd d ino = b ∧ 0 < nextents d ino) := fun h => hnot (follows_iff.mpr h)
  unfold addable
  rw [hcons, hnext, hend]
  rcases hmade with ⟨hidx, hzero, hone, bn, hbs⟩ | ⟨hidx, hindirect, hbs⟩
  · rw [hzero, hone, hbs]
    exact additions_indirect hgrow hidx
  · rw [hindirect, hbs]
    refine additions_new hgrow ?_ hroom
    rintro ⟨hn, hnone⟩
    exact of_decide_eq_false hnone (hidx hn)

/-- A block in the last extent. -/
theorem addable_grow {b j : ℕ} {e : Extent} {bs : List ℕ} (hcons : freeBlocks d.fbb = b :: bs)
    (hj : j + 1 = nextents d ino) (hnext : (extentOf d ino j).first + (extentOf d ino j).count = b)
    (hroom : nextents d ino < ndirect + extentsperblock)
    (he : e = ⟨(extentOf d ino j).first, (extentOf d ino j).count + 1⟩)
    (hext : extentOf d' ino = Function.update (extentOf d ino) j e)
    (hindirect : (d'.inode ino).indirect = (d.inode ino).indirect) (hbs : bs = freeBlocks d'.fbb) :
    addable d ino = b :: addable d' ino := by
  have hn : nextents d' ino = nextents d ino := nextents_grow hj (by rw [he]; exact Nat.succ_ne_zero _) hext
  have hj' : nextents d ino - 1 = j := by omega
  have hend : lastEnd d' ino = b + 1 := by
    unfold lastEnd
    rw [hn, hj', hext, Function.update_self, he]
    dsimp only
    omega
  have hlast : lastEnd d ino = b := by
    unfold lastEnd
    rwa [hj']
  unfold addable
  rw [hcons, hn, hend, hindirect, hbs]
  exact additions_grow ⟨hlast, by omega, hroom⟩

theorem numbers_one (b : ℕ) : numbers ⟨b, 1⟩ = [b] := by
  unfold numbers
  split
  · next h => exact congrArg (fun b => [b]) (show 0 = b from h.symm)
  · rfl

theorem Follows.of_grow {f : ℕ → Extent} {j n first : ℕ} (hj : j + 1 = n) (h : (f j).first + (f j).count = first) :
    Follows f n first := by
  subst hj
  exact ⟨Nat.succ_pos j, h⟩

theorem Took.grew {b : ℕ} (h : Took d ino b d') (hok : InOrder d ino) (hwf : WellFormed d' ino)
    (hflat : flat d' ino = flat d ino ++ [b]) (hadd : addable d ino = b :: addable d' ino)
    (hsize : (d'.inode ino).size = (d.inode ino).size) : Grew d ino b d' := by
  have hfree : d.fbb.bit b = true := mem_addable (hadd ▸ List.mem_cons_self)
  refine ⟨h, ⟨hwf, hsize ▸ hok.range, fun hone => ?_⟩, hflat, hadd, fun hone => ?_, hsize⟩
  · refine Bool.eq_false_iff.mpr fun hbit => ?_
    obtain ⟨hold, -, hnew⟩ := (h.bit _).mp hbit
    rcases h.indirect with heq | ⟨hzero, bn, heq, -, -⟩
    · rw [heq] at hone hold
      rw [hok.taken hone] at hold
      cases hold
    · exact hnew ⟨hzero, by rw [heq]⟩
  · rcases h.indirect with heq | ⟨-, bn, heq, -, hne⟩
    · rw [heq] at hone ⊢
      intro hb
      have htaken := hok.taken hone
      rw [hb, hfree] at htaken
      cases htaken
    · rw [heq]
      exact hne

/-- What the blocks hold that can still be added. -/
theorem Grew.buf_addable {b x : ℕ} (h : Grew d ino b d') (hx : x ∈ b :: Chkfs.addable d' ino) : d'.buf x = d.buf x := by
  refine h.buf x fun hone heq => ?_
  rcases List.mem_cons.mp hx with rfl | hx
  · exact h.ne hone heq.symm
  · have hfree := mem_addable hx
    rw [heq, h.inOrder.taken hone] at hfree
    cases hfree

theorem Fileiter.Inserted.grew {d₁ : Disk} {b : ℕ} {r : ℤ} (h : Inserted d₁ ino (nextents d₁ ino) b 1 r d') (hr : r = 0)
    (hputs : Puts d₁ ino (nextents d₁ ino) b r d') (hok : InOrder d ino) (hfull : 0 ∉ flat d ino)
    (hrun : IsRun d.fbb 1 b) (hlow : ∀ a < b, ¬IsRun d.fbb 1 a) (hmarked : d.Marked d₁ false ⟨b, 1⟩) :
    Grew d ino b d' := by
  have hext := extentOf_congr (congrFun hmarked.inode ino) hmarked.buf
  have hwf₁ : WellFormed d₁ ino := hok.congr hmarked.inode hmarked.buf
  have hn := nextents_congr hext
  have hbit : ∀ n, d₁.fbb.bit n = if n = b then false else d.fbb.bit n := fun n =>
    (hmarked.bit n).trans (if_congr mem_one rfl rfl)
  have hcons := freeBlocks_cons hrun hlow hbit
  have hrange : b + 1 < 2 ^ 32 := by
    have hfits := hrun.fits
    unfold bitsperblock at hfits
    omega
  have hroom := hputs.room hr
  rw [hn] at hroom
  have hlist := inserted_flat h hwf₁ Nat.one_ne_zero hrange (by rwa [flat_congr hext])
  rw [flat_congr hext] at hlist
  rw [numbers_one] at hlist
  obtain ⟨-, hwf, hflat⟩ := hlist.resolve_right fun hneg => absurd hr hneg.1.ne
  cases h with
  | stored h =>
    obtain ⟨direct, hinode⟩ := h.inode
    have hkept : d'.inode ino = { d.inode ino with direct := direct } := by
      rw [hinode, Function.update_self, hmarked.inode]
    have hindirect : (d'.inode ino).indirect = (d.inode ino).indirect := by rw [hkept]
    have hadd : addable d ino = b :: addable d' ino := by
      have hgrown := h.grown
      generalize hf : extentOf d' ino = f at hgrown
      have hbs : freeBlocks d₁.fbb = freeBlocks d'.fbb := by rw [h.fbb]
      cases hgrown with
      | new hempty =>
        have hone : (extentOf d' ino (nextents d₁ ino)).count = 1 := by rw [hf, Function.update_self]
        have hnot : ¬Follows (extentOf d₁ ino) (nextents d₁ ino) b := fun hfollows => by
          rw [(hputs.follows hfollows (hn.symm ▸ hroom)).2, hempty] at hone
          cases hone
        rw [hext, hn] at hf hnot
        refine addable_new hok.toWellFormed hcons hnot hroom hf (.inr ⟨fun hidx => ?_, hindirect, hbs⟩)
        -- behind the direct extents there is one, so there is an indirect block
        refine le_antisymm hok.one (Nat.one_le_iff_ne_zero.mpr fun hzero => ?_)
        rw [← hindirect] at hzero
        have hend := extentOf_end d' ino
        rw [hzero, Nat.mul_zero, Nat.add_zero, ← hidx, ← hn, hone] at hend
        cases hend
      | grow j hj hnext =>
        rw [hext] at hf hnext
        rw [hn] at hj
        exact addable_grow hcons hj hnext hroom rfl hf hindirect hbs
    refine Took.grew ⟨fun x => ?_, .inl hindirect, fun x hx => ?_⟩ hok hwf hflat hadd (by rw [hkept])
    · have hold : ¬((d.inode ino).indirect.count = 0 ∧ (d'.inode ino).indirect = ⟨x, 1⟩) := fun ⟨hzero, hone⟩ => by
        rw [← hindirect, hone] at hzero
        cases hzero
      rw [h.fbb, hbit]
      by_cases hx : x = b
      · simp [hx]
      · simp [hx, hold]
    · rw [h.buf x, hmarked.buf]
      rw [hmarked.inode]
      rw [hindirect] at hx
      exact fun hone => hx hone.1 hone.2
  | @indirect d₂ _ bn hnew h =>
    obtain ⟨direct, hinode⟩ := h.inode
    have hkept : d'.inode ino = { d.inode ino with direct := direct, indirect := ⟨bn, 1⟩ } := by
      rw [hinode, Function.update_self, hnew.inode, Function.update_self, hmarked.inode]
    have hindirect : (d'.inode ino).indirect = ⟨bn, 1⟩ := by rw [hkept]
    have hne : bn ≠ b := by
      rintro rfl
      have hfree' := hnew.free
      rw [hbit, if_pos rfl] at hfree'
      cases hfree'
    have hadd : addable d ino = b :: addable d' ino := by
      obtain ⟨hidx, hnot, hmade⟩ := hputs.made hnew.none (by rw [hindirect])
      have hgrown := h.grown
      rw [hnew.extentOf_eq] at hgrown
      generalize hf : extentOf d' ino = f at hgrown
      cases hgrown with
      | new hempty =>
        rw [hext, hn] at hf hnot
        rw [hn] at hidx
        have hnone := hnew.none
        rw [hmarked.inode] at hnone
        exact addable_new hok.toWellFormed hcons hnot hroom hf
          (.inl ⟨hidx, hnone, by rw [hindirect], _, hmade⟩)
      | grow j hj hnext => exact absurd (Follows.of_grow hj hnext) hnot
    have hnone := hnew.none
    rw [hmarked.inode] at hnone
    have hfree₁ := hnew.free
    rw [hbit, if_neg hne] at hfree₁
    refine Took.grew ⟨fun x => ?_, .inr ⟨hnone, bn, hindirect, hfree₁, hne⟩, fun x hx => ?_⟩ hok hwf hflat hadd
      (by rw [hkept])
    · rw [h.fbb, hnew.bit, hbit, hindirect, hnone]
      by_cases hx : x = bn
      · simp [hx]
      · simp [hx, Ne.symm hx, and_comm]
    · rw [hindirect] at hx
      have hx := hx rfl
      rw [h.buf x, hnew.buf, Function.update_of_ne hx, hmarked.buf]
      rw [hnew.indirect]
      exact fun hone => hx hone.2
  | failed hneg _ => exact absurd hr hneg.ne
  | leaked _ _ => exact absurd hr (by decide)

/-- There is no block that the file can be given. -/
theorem Fileiter.Puts.addable_nil {d₁ : Disk} {b : ℕ} {r : ℤ} (h : Puts d₁ ino (nextents d₁ ino) b r d') (hr : r ≠ 0)
    (hrun : IsRun d.fbb 1 b) (hlow : ∀ a < b, ¬IsRun d.fbb 1 a) (hmarked : d.Marked d₁ false ⟨b, 1⟩) :
    addable d ino = [] := by
  have hext := extentOf_congr (congrFun hmarked.inode ino) hmarked.buf
  have hn := nextents_congr hext
  obtain ⟨-, ⟨hidx, hzero, hnil⟩ | hidx⟩ := h.full hr
  · have hnot : ¬(lastEnd d ino = b ∧ 0 < nextents d ino) := by
      intro hlast
      have hfollows := follows_iff.mpr hlast
      rw [← hext, ← hn] at hfollows
      refine hr (h.follows hfollows ?_).1
      unfold extentsperblock
      omega
    rw [hn] at hidx
    rw [hmarked.inode] at hzero
    have hcons := freeBlocks_cons hrun hlow fun n => (hmarked.bit n).trans (if_congr mem_one rfl rfl)
    unfold addable
    rw [hcons, hnil, hzero]
    exact additions_indirect hnot hidx
  · exact additions_full (hn.symm.trans hidx)

/-- The extent list of the file is the same, and so are all blocks and what is free. -/
structure SameList (d d' : Disk) (ino : ℕ) : Prop where
  direct : (d'.inode ino).direct = (d.inode ino).direct
  indirect : (d'.inode ino).indirect = (d.inode ino).indirect
  buf : d'.buf = d.buf
  bit : ∀ b, d'.fbb.bit b = d.fbb.bit b

theorem SameList.of_same (h : d.Same d') : SameList d d' ino :=
  ⟨by rw [h.inode], by rw [h.inode], h.buf, fun b => by rw [h.fbb]⟩

theorem SameList.trans {d'' : Disk} (h : SameList d d' ino) (h' : SameList d' d'' ino) : SameList d d'' ino :=
  ⟨h'.direct.trans h.direct, h'.indirect.trans h.indirect, h'.buf.trans h.buf, fun b => (h'.bit b).trans (h.bit b)⟩

theorem SameList.extentOf_eq (h : SameList d d' ino) : extentOf d' ino = extentOf d ino := by
  funext i
  unfold extentOf
  rw [h.direct, h.indirect, h.buf]

theorem SameList.addable_eq (h : SameList d d' ino) : addable d' ino = addable d ino := by
  unfold addable lastEnd
  rw [nextents_congr h.extentOf_eq, h.extentOf_eq, h.indirect, freeBlocks_congr h.bit]

theorem SameList.inOrder (h : SameList d d' ino) (hok : InOrder d ino) (hrange : (d'.inode ino).size < 2 ^ 32) :
    InOrder d' ino := by
  refine ⟨hok.of h.extentOf_eq (by rw [h.indirect]; exact hok.one), hrange, fun hone => ?_⟩
  rw [h.indirect] at hone ⊢
  rw [h.bit]
  exact hok.taken hone

theorem runs_free_extent {first count : ℕ} (hfits : first + count ≤ bitsperblock) (hq : Quiet k₀ k own) :
    Runs k (free_extent first count) fun _ k' => Quiet k₀ k' own := by
  unfold free_extent
  refine (runs_superblock hq).bind fun _ k₁ h₁ => (runs_get_disk_entry _ h₁).bind fun ok k₂ hget => ?_
  obtain ⟨rfl, h₂⟩ := hget
  obtain ⟨fbb, hmark⟩ := (exists_markRange_iff k₂.disk.fbb (x := true)).mpr (.inr hfits)
  rw [if_pos rfl]
  refine .get ?_
  rw [hmark]
  exact (runs_set_fbb _ h₂).bind fun _ k₃ h₃ => runs_put _ h₃

namespace Fileiter

/-- **A block is added at the end of a directory**, if there is one. Otherwise all is as before. -/
theorem runs_growDirectory (h : it.Found k.disk ino off) (hin : it.active k.disk = false) (hok : InOrder k.disk ino)
    (hfull : 0 ∉ flat k.disk ino) (hlock : k₀.mlock (.inode ino) = .writer)
    (hnew : ∀ i, k₀.disk.availNew i = true) (hq : Quiet k₀ k (it.own + R)) :
    Runs k (growDirectory it) fun it' k' => Quiet k₀ k' (it'.own + R) ∧ it'.ino_ = ino ∧ it'.Placed k'.disk ∧
      ((∃ b, Grew k.disk ino b k'.disk) ∨ addable k.disk ino = [] ∧ SameList k.disk k'.disk ino ∧
        (k'.disk.inode ino).size = (k.disk.inode ino).size) := by
  unfold growDirectory
  refine ((runs_allocate_extent Nat.zero_lt_one hq).and (ends_allocate_extent 1)).bind fun b k₁ halloc => ?_
  obtain ⟨hq₁, halloc⟩ := halloc
  rcases Disk.allocate_extent_allocated Nat.zero_lt_one halloc with ⟨hsame, hcode, -, hnone⟩ | ⟨hrun, hlow, hmarked⟩
  · -- there is no free block
    rw [if_pos hcode]
    have hnil : addable k.disk ino = [] := by
      unfold addable
      rw [freeBlocks_nil (hnone ⟨hq.avail, hq.availNew hnew⟩)]
      rfl
    exact .pure ⟨hq₁, h.ino_, h.toPlaced.congr hsame.inode hsame.buf, .inr ⟨hnil, .of_same hsame, by rw [hsame.inode]⟩⟩
  · rw [if_neg (not_code hrun)]
    have hext := extentOf_congr (congrFun hmarked.inode ino) hmarked.buf
    have hfound := h.congr hmarked.inode hmarked.buf
    have hlist : ListOk k₁.disk ino := (hok.congr hmarked.inode hmarked.buf).toListOk
    have hin₁ : it.active k₁.disk = false := by
      rw [hfound.active_eq, flat_congr hext, ← h.active_eq, hin]
    have hidx : it.eidx_ = nextents k₁.disk ino := (hfound.behind hin₁).1
    have hrange : b + 1 < 2 ^ 32 := by
      have hfits := hrun.fits
      unfold bitsperblock at hfits
      omega
    have hlock₁ : k₁.mlock (.inode ino) = .writer := by
      rw [hq₁.mlock]
      exact hlock
    have hins := (runs_insert b hfound hlist.one hlock₁ Nat.one_ne_zero hin₁ hq₁).and
      (Ends.and (ends_insert hfound.toPlaced (hfound.ino_ ▸ hlist) hrange)
        (ends_insert_puts hfound hin₁ hlist hrange ⟨hq₁.avail, hq₁.availNew hnew⟩))
    refine hins.bind fun r k₂ hr => ?_
    obtain ⟨⟨hq₂, -⟩, ⟨hino, hplaced, -, hinserted⟩, hputs⟩ := hr
    rw [hfound.ino_] at hino hinserted
    rw [hidx] at hinserted hputs
    dsimp only
    split
    · next hneg =>
      -- the block is given back
      have hkept := (hputs.full hneg.ne).1
      refine ((runs_free_extent hrun.fits hq₂).and (ends_free_extent b 1)).bind fun _ k₃ hfree => .pure ?_
      obtain ⟨hq₃, hfree⟩ := hfree
      have hback := Disk.free_extent_marked hfree
      have hinode := hback.inode.trans (hkept.inode.trans hmarked.inode)
      refine ⟨hq₃, hino, hplaced.congr hback.inode hback.buf,
        .inr ⟨hputs.addable_nil hneg.ne hrun hlow hmarked, ?_, by rw [hinode]⟩⟩
      refine ⟨by rw [hinode], by rw [hinode], hback.buf.trans (hkept.buf.trans hmarked.buf), fun n => ?_⟩
      rw [hback.bit, hkept.fbb, hmarked.bit]
      split
      · next hmem =>
        rw [mem_one.mp hmem]
        exact (hrun.free b le_rfl (Nat.lt_succ_self b)).symm
      · rfl
    · next hpos =>
      have hzero : r.2 = 0 := by
        rcases inserted_flat hinserted (hok.congr hmarked.inode hmarked.buf) Nat.one_ne_zero hrange
          (by rwa [flat_congr hext]) with hr | hr
        · exact hr.1
        · exact absurd hr.1 hpos
      exact .pure ⟨hq₂, hino, hplaced, .inl ⟨b, hinserted.grew hzero hputs hok hfull hrun hlow hmarked⟩⟩

/-- In a hole there is no way to add a block: an assertion fails, or there is no free block. -/
theorem meets_growDirectory_hole (h : it.Found k.disk ino off) (hin : it.active k.disk = true)
    (hq : Quiet k₀ k (it.own + R)) :
    Meets (fun _ => True) k (growDirectory it) fun it' k' => it' = it ∧ k.disk.Same k'.disk ∧ Quiet k₀ k' (it.own + R) := by
  unfold growDirectory
  refine .run_bind ((runs_allocate_extent Nat.zero_lt_one hq).and (ends_allocate_extent 1)) fun b k₁ halloc => ?_
  obtain ⟨hq₁, halloc⟩ := halloc
  rcases Disk.allocate_extent_allocated Nat.zero_lt_one halloc with ⟨hsame, hcode, -, -⟩ | ⟨hrun, -, hmarked⟩
  · rw [if_pos hcode]
    exact .pure ⟨rfl, hsame, hq₁⟩
  · have hin₁ : it.active k₁.disk = true := by
      rw [(h.congr hmarked.inode hmarked.buf).active_eq,
        flat_congr (extentOf_congr (congrFun hmarked.inode ino) hmarked.buf), ← h.active_eq, hin]
    rw [if_neg (not_code hrun)]
    refine .of_ends (Ends.bind (P := fun _ _ => False) ?_ fun _ _ hfalse => hfalse.elim)
    unfold insert
    refine .get ((ends_assert _).bind fun _ _ hlock => ?_)
    obtain ⟨-, rfl⟩ := hlock
    refine (ends_assert _).bind fun _ _ hcount => ?_
    obtain ⟨-, rfl⟩ := hcount
    refine .get ((ends_assert _).bind fun _ _ hactive => ?_)
    rw [hin₁] at hactive
    cases hactive.1

end Fileiter

end Chickadee.Chkfs
