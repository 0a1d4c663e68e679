import Chickadee.Chkfs.Flat
import Chickadee.Chkfs.Resolve
import Chickadee.Chkfs.Cwd

/-!
# Reading a file

`disk_vnode::read` and `readdiskfile` copy a file piece by piece. The length of a piece is a minimum of which one
part is the size less the offset, as a `size_t`: behind the size that is a huge number.
-/

namespace Chickadee.Chkfs

open Lib Fs

variable {k₀ k k' : Kernel} {d d' : Disk} {it : Fileiter} {ino sz : ℕ} {own R : Multiset Token}

/-! ## The pieces -/

/-- The file has a block at offset `p`. -/
def HasBlock (d : Disk) (ino p : ℕ) : Prop := (flat d ino).getD (p / blocksize) 0 ≠ 0

instance (d : Disk) (ino p : ℕ) : Decidable (HasBlock d ino p) := inferInstanceAs (Decidable (_ ≠ _))

/-- The byte at offset `p` of the blocks of a file. -/
def fileByte (d : Disk) (ino p : ℕ) : UInt8 := d.buf ((flat d ino).getD (p / blocksize) 0) (p % blocksize)

/-- The length of the piece that is copied from offset `o`, when `m` bytes are asked for. -/
def piece (size o m : ℕ) : ℕ := min (u64 ((size : ℤ) - o)) (min (blocksize - o % blocksize) m)

/-- How much the loops copy from offset `o`, when `m` bytes are asked for, in up to `n` pieces. -/
def copied (d : Disk) (ino : ℕ) : ℕ → ℕ → ℕ → ℕ
  | 0, _, _ => 0
  | n + 1, o, m =>
    if m = 0 ∨ ¬HasBlock d ino o then 0
    else if piece (d.inode ino).size o m = 0 then 0
    else piece (d.inode ino).size o m +
      copied d ino n (o + piece (d.inode ino).size o m) (m - piece (d.inode ino).size o m)

/-- What is to be read of a file is there: up to the size there are blocks, and behind it there is none. -/
structure ReadGood (d : Disk) (ino o sz : ℕ) : Prop where
  inside : o ≤ (d.inode ino).size → ∀ p, o ≤ p → p < o + min sz ((d.inode ino).size - o) → HasBlock d ino p
  behind : (d.inode ino).size < o → sz = 0 ∨ ¬HasBlock d ino o

/-- Where no block is missing, it depends on the offset alone, unless nothing is asked for. -/
theorem readGood_iff {o : ℕ} (hall : ∀ p, p < (d.inode ino).size → HasBlock d ino p) :
    ReadGood d ino o sz ↔ o ≤ (d.inode ino).size ∨ sz = 0 ∨ ¬HasBlock d ino o := by
  constructor
  · intro h
    exact (Nat.lt_or_ge (d.inode ino).size o).elim (fun hlt => .inr (h.behind hlt)) .inl
  · rintro (hle | hnone)
    · exact ⟨fun _ p _ hlt => hall p (by omega), fun hlt => absurd hlt (not_lt.mpr hle)⟩
    · exact ⟨fun hle p hp hlt => hall p (by omega), fun _ => hnone⟩

theorem piece_inside {size o m : ℕ} (hsize : size < 2 ^ 32) (ho : o ≤ size) :
    piece size o m = min (size - o) (min (blocksize - o % blocksize) m) := by
  unfold piece u64
  congr 1
  omega

/-- In one piece there is one block. -/
theorem hasBlock_piece {size o m p : ℕ} (hp : o ≤ p) (hlt : p < o + piece size o m) :
    HasBlock d ino p ↔ HasBlock d ino o := by
  have hle : piece size o m ≤ blocksize - o % blocksize := (Nat.min_le_right _ _).trans (Nat.min_le_left _ _)
  have hdiv : p / blocksize = o / blocksize := by
    unfold blocksize at hle ⊢
    omega
  unfold HasBlock
  rw [hdiv]

/-- **Inside the file** all that is asked for is copied exactly if no block of it is missing. -/
theorem copied_eq_iff (hsize : (d.inode ino).size < 2 ^ 32) {n o m : ℕ} (hn : m < n) (ho : o ≤ (d.inode ino).size) :
    copied d ino n o m = min m ((d.inode ino).size - o) ↔
      ∀ p, o ≤ p → p < o + min m ((d.inode ino).size - o) → HasBlock d ino p := by
  induction n generalizing o m with
  | zero => exact absurd hn (Nat.not_lt_zero m)
  | succ n ih =>
    have hpiece := piece_inside (m := m) hsize ho
    have hpos : 0 < blocksize - o % blocksize := Nat.sub_pos_of_lt (Nat.mod_lt o (by decide))
    have hone : ∀ p, o ≤ p → p < o + piece (d.inode ino).size o m → (HasBlock d ino p ↔ HasBlock d ino o) :=
      fun p hp hlt => hasBlock_piece hp hlt
    unfold copied
    generalize piece (d.inode ino).size o m = c at hpiece hone ⊢
    by_cases hm : m = 0
    · rw [if_pos (.inl hm), hm, Nat.zero_min]
      exact ⟨fun _ p hp hlt => absurd hlt (by omega), fun _ => rfl⟩
    by_cases hblock : HasBlock d ino o
    swap
    · rw [if_pos (.inr hblock)]
      constructor
      · intro hzero p hp hlt
        omega
      · intro hall
        by_contra hne
        exact hblock (hall o le_rfl (by omega))
    rw [if_neg (by simp [hm, hblock])]
    by_cases hc : c = 0
    · rw [if_pos hc]
      exact ⟨fun hzero p hp hlt => absurd hlt (by omega), fun _ => by omega⟩
    rw [if_neg hc]
    have hih := ih (o := o + c) (m := m - c) (by omega) (by omega)
    have hmin : min (m - c) ((d.inode ino).size - (o + c)) = min m ((d.inode ino).size - o) - c := by omega
    rw [hmin] at hih
    have hiff : c + copied d ino n (o + c) (m - c) = min m ((d.inode ino).size - o) ↔
        copied d ino n (o + c) (m - c) = min m ((d.inode ino).size - o) - c := by omega
    rw [hiff, hih]
    constructor
    · intro hall p hp hlt
      rcases Nat.lt_or_ge p (o + c) with hnear | hfar
      · exact (hone p hp hnear).mpr hblock
      · exact hall p hfar (by omega)
    · intro hall p hp hlt
      exact hall p (by omega) (by omega)

/-- **Behind the file** something is copied wherever there is a block. -/
theorem copied_zero_iff {n o m : ℕ} (hn : m < n) (hrange : o < 2 ^ 63) (ho : (d.inode ino).size < o) :
    copied d ino n o m = 0 ↔ m = 0 ∨ ¬HasBlock d ino o := by
  cases n with
  | zero => exact absurd hn (Nat.not_lt_zero m)
  | succ n =>
    have hpos : 0 < blocksize - o % blocksize := Nat.sub_pos_of_lt (Nat.mod_lt o (by decide))
    have hwrap : u64 (((d.inode ino).size : ℤ) - o) ≠ 0 := by
      unfold u64
      omega
    unfold copied
    by_cases hnone : m = 0 ∨ ¬HasBlock d ino o
    · rw [if_pos hnone]
      exact ⟨fun _ => hnone, fun _ => rfl⟩
    · rw [if_neg hnone]
      have hm := (not_or.mp hnone).1
      have hpiece : piece (d.inode ino).size o m ≠ 0 := by
        unfold piece
        omega
      rw [if_neg hpiece]
      exact ⟨fun hzero => absurd hzero (by omega), fun h => absurd h hnone⟩

/-- **The loops copy what is to be read** exactly if that is there. -/
theorem copied_iff (hsize : (d.inode ino).size < 2 ^ 32) {n o : ℕ} (hn : sz < n) (hrange : o < 2 ^ 63) :
    copied d ino n o sz = min sz ((d.inode ino).size - o) ↔ ReadGood d ino o sz := by
  rcases Nat.lt_or_ge (d.inode ino).size o with hlt | hle
  · rw [Nat.sub_eq_zero_of_le hlt.le, Nat.min_zero, copied_zero_iff hn hrange hlt]
    exact ⟨fun h => ⟨fun hle => absurd hle (not_le.mpr hlt), fun _ => h⟩, fun h => h.behind hlt⟩
  · rw [copied_eq_iff hsize hn hle]
    exact ⟨fun h => ⟨fun _ => h, fun hlt => absurd hlt (not_lt.mpr hle)⟩, fun h => h.inside hle⟩

/-! ## The loops -/

/-- The bytes of a piece. -/
theorem bytes_piece {size o m : ℕ} :
    ((List.range (piece size o m)).map fun j => d.buf ((flat d ino).getD (o / blocksize) 0) (o % blocksize + j)) =
      (List.range' o (piece size o m)).map (fileByte d ino) := by
  have hle : piece size o m ≤ blocksize - o % blocksize := (Nat.min_le_right _ _).trans (Nat.min_le_left _ _)
  rw [List.range'_eq_map_range, List.map_map]
  refine List.map_congr_left fun j hj => ?_
  have hlt := List.mem_range.mp hj
  have hdiv : (o + j) / blocksize = o / blocksize := by
    unfold blocksize at hle ⊢
    omega
  have hmod : (o + j) % blocksize = o % blocksize + j := by
    unfold blocksize at hle ⊢
    omega
  show _ = fileByte d ino (o + j)
  unfold fileByte
  rw [hdiv, hmod]

/-- Where there is a block, an `off_t` is far from its end. -/
theorem HasBlock.lt {p : ℕ} (h : HasBlock d ino p) (hok : ListOk d ino) : p < 2 ^ 62 := by
  have hcovered := covered_lt hok
  unfold covered at hcovered
  rw [← length_flat] at hcovered
  have hlt : p / blocksize < (flat d ino).length := by
    by_contra hge
    refine h ?_
    rw [List.getD_eq_getElem?_getD, List.getElem?_eq_none (not_lt.mp hge)]
    rfl
  unfold blocksize at hlt hcovered
  omega

theorem runs_prefetchLoop (n off : ℕ) (h : it.Placed k.disk) (hq : Quiet k₀ k (it.own + R)) :
    Runs k (prefetchLoop n it off) fun it' k' => Quiet k₀ k' (it'.own + R) ∧ k.disk.Same k'.disk := by
  induction n generalizing k it off with
  | zero => exact (Fileiter.runs_find off h hq).mono fun it' k' hfind => ⟨hfind.1, hfind.2.1⟩
  | succ n ih =>
    refine (Fileiter.runs_find off h hq).bind fun it₁ k₁ hfind => .get ?_
    obtain ⟨hq₁, hsame₁, hfound, -⟩ := hfind
    split
    swap
    · exact .pure ⟨hq₁, hsame₁⟩
    refine ((runs_kalloc hq₁).and ends_kalloc).bind fun ok k₂ halloc => ?_
    obtain ⟨hq₂, hdisk⟩ := halloc
    rw [← hdisk] at hsame₁
    split
    · refine (ih _ (hfound.toPlaced.congr hsame₁.inode hsame₁.buf) hq₂).mono fun it' k' hrest => ?_
      exact ⟨hrest.1, hsame₁.trans hrest.2⟩
    · exact .pure ⟨hq₂, hsame₁⟩

theorem runs_prefetch (ino off : ℕ) (hq : Quiet k₀ k R) :
    Runs k (prefetch ino off) fun _ k' => Quiet k₀ k' R ∧ k.disk.Same k'.disk := by
  have hown : Quiet k₀ k ((fileiter ino).own + R) := by rwa [Fileiter.own_fileiter, zero_add]
  refine (runs_prefetchLoop 8 off (Fileiter.placed_fileiter k.disk ino) hown).bind fun it k₁ hloop => ?_
  obtain ⟨hq₁, hsame⟩ := hloop
  refine ((Fileiter.runs_destroy hq₁).and Fileiter.ends_destroy).mono fun _ k₂ hdestroy => ?_
  exact ⟨hdestroy.1, hdestroy.2 ▸ hsame⟩

/-- The iterator is where the loops look next. -/
theorem runs_look (hok : ListOk d ino) (o : ℕ) (h : it.Placed k.disk) (hino : it.ino_ = ino) (hsame : d.Same k.disk)
    (hq : Quiet k₀ k (it.own + R)) {α : Type} {f : Fileiter → Option ℕ → M α} {Q : α → Kernel → Prop}
    (hblock : ∀ it' k', HasBlock d ino o → it'.Found d ino o → d.Same k'.disk →
      Quiet k₀ k' ({.ref (.data ((flat d ino).getD (o / blocksize) 0))} + (it'.own + R)) →
      Runs k' (f it' (some ((flat d ino).getD (o / blocksize) 0))) Q)
    (hnone : ∀ it' k', ¬HasBlock d ino o → it'.Found d ino o → it'.empty k'.disk = true → d.Same k'.disk →
      Quiet k₀ k' (it'.own + R) → Runs k' (f it' none) Q) :
    Runs k (do
      let it ← it.find o
      let e ← it.get_disk_entry
      f it e) Q := by
  subst hino
  refine (Fileiter.runs_find o h hq).bind fun it₁ k₁ hfind => ?_
  obtain ⟨hq₁, hsame₁, hfound, hstop⟩ := hfind
  have hfound := hfound.congr hsame.inode.symm hsame.buf.symm
  have hactive : it₁.active k.disk = it₁.active d := by
    rw [hfound.active_eq, (hfound.congr hsame.inode hsame.buf).active_eq, flat_same hsame]
  rw [hactive] at hstop
  have hsame₁ := hsame.trans hsame₁
  refine (Fileiter.runs_entry hfound hok hstop hsame₁ hq₁).bind fun e k₂ hentry => ?_
  obtain ⟨hsame₂, hq₂, rfl⟩ := hentry
  by_cases hhas : (flat d it.ino_).getD (o / blocksize) 0 = 0
  · rw [if_pos hhas] at hq₂ ⊢
    rw [Fileiter.entry, zero_add] at hq₂
    refine hnone it₁ k₂ (not_not.mpr hhas) hfound ?_ hsame₂ hq₂
    -- no block, so the extent is empty, or there is none
    unfold Fileiter.empty
    split
    · rfl
    next eptr heptr =>
    have hin : it₁.active d = true := by
      by_contra hin
      rw [hstop (Bool.not_eq_true _ ▸ hin)] at heptr
      cases heptr
    have hget := hfound.getElem?_flat hin
    rw [List.getD_eq_getElem?_getD, hget, Option.getD_some] at hhas
    refine decide_eq_true ?_
    rw [(hfound.toPlaced.congr hsame₂.inode hsame₂.buf).extent_eq heptr, hfound.ino_,
      extentOf_congr (congrFun hsame₂.inode _) hsame₂.buf]
    by_contra hfirst
    rw [if_neg hfirst] at hhas
    exact hfirst (Nat.add_eq_zero_iff.mp hhas).1
  · rw [if_neg hhas] at hq₂ ⊢
    exact hblock it₁ k₂ hhas hfound hsame₂ hq₂

/-- What the loops have copied after another piece. -/
theorem append_bytes (o c c' : ℕ) (b : Str) :
    (b ++ (List.range' o c).map (fileByte d ino)) ++ (List.range' (o + c) c').map (fileByte d ino) =
      b ++ (List.range' o (c + c')).map (fileByte d ino) := by
  rw [List.append_assoc, ← List.map_append]
  congr 2
  exact List.range'_append_1

/-- **The loop of `read`** -/
theorem DiskVnode.runs_readLoop (hok : ListOk d ino) (n : ℕ) {o : ℕ} (hrange : o < 2 ^ 63) {b : Str}
    (h : it.Placed k.disk) (hino : it.ino_ = ino) (hsame : d.Same k.disk) (hq : Quiet k₀ k (it.own + R))
    (hn : sz - b.length < n) :
    Runs k (DiskVnode.readLoop sz n it b o) fun r k' => d.Same k'.disk ∧ Quiet k₀ k' (r.1.own + R) ∧
      r.2.1 = b ++ (List.range' o (copied d ino n o (sz - b.length))).map (fileByte d ino) := by
  induction n generalizing k it o b with
  | zero => exact absurd hn (Nat.not_lt_zero _)
  | succ n ih =>
    have hu64 : u64 (o : ℤ) = o := by
      unfold u64
      omega
    unfold DiskVnode.readLoop copied
    dsimp only
    by_cases hdone : sz - b.length = 0
    · rw [if_neg (by omega), if_pos (.inl hdone)]
      exact .pure ⟨hsame, hq, (List.append_nil b).symm⟩
    rw [if_pos (by omega), hu64]
    refine (runs_prefetch _ _ hq).bind fun _ k₁ hpre => ?_
    obtain ⟨hq₁, hsame₁⟩ := hpre
    refine runs_look hok o (h.congr hsame₁.inode hsame₁.buf) hino (hsame.trans hsame₁) hq₁ ?_ ?_
    · intro it₂ k₂ hblock hfound hsame₂ hq₂
      refine .get (((runs_put _ hq₂).and (ends_put _)).bind fun _ k₃ hput => ?_)
      obtain ⟨hq₃, hdisk⟩ := hput
      have hgo : ¬(sz - b.length = 0 ∨ ¬HasBlock d ino o) := not_or.mpr ⟨hdone, not_not.mpr hblock⟩
      have hplaced := (hfound.toPlaced.congr hsame₂.inode hsame₂.buf).congr (congrArg Disk.inode hdisk)
        (congrArg Disk.buf hdisk)
      have hlt := hblock.lt hok
      have hsmall : piece (d.inode ino).size o (sz - b.length) ≤ blocksize :=
        (Nat.min_le_right _ _).trans ((Nat.min_le_left _ _).trans (Nat.sub_le _ _))
      have hleft : piece (d.inode ino).size o (sz - b.length) ≤ sz - b.length :=
        (Nat.min_le_right _ _).trans (Nat.min_le_right _ _)
      rw [if_neg hgo, hfound.ino_, hfound.off_, congrFun hsame₂.inode ino, hsame₂.buf,
        show min (u64 _) (min _ _) = piece (d.inode ino).size o (sz - b.length) from rfl, bytes_piece]
      rw [← hdisk] at hsame₂
      generalize piece (d.inode ino).size o (sz - b.length) = c at hsmall hleft ⊢
      have hs64 : s64 ((o : ℤ) + c) = (o + c : ℕ) := by
        unfold s64 blocksize at *
        omega
      rw [hs64]
      split
      · next hzero => exact .pure ⟨hsame₂, hq₃, by rw [hzero]⟩
      · have hlen : (b ++ (List.range' o c).map (fileByte d ino)).length = b.length + c := by
          rw [List.length_append, List.length_map, List.length_range']
        have hrest := ih (o := o + c) (by unfold blocksize at hsmall; omega)
          (b := b ++ (List.range' o c).map (fileByte d ino)) hplaced hfound.ino_ hsame₂ hq₃ (by rw [hlen]; omega)
        rw [hlen, ← Nat.sub_sub, append_bytes] at hrest
        exact hrest
    · intro it₂ k₂ hblock hfound hempty hsame₂ hq₂
      refine .get ((runs_assert hempty).bind fun _ k₃ heq => .pure ?_)
      subst heq
      rw [if_pos (.inr hblock)]
      exact ⟨hsame₂, hq₂, (List.append_nil b).symm⟩

/-- **The loop of `readdiskfile`** -/
theorem runs_readLoop (hok : ListOk d ino) (n : ℕ) {o : ℕ} {b : Str} (h : it.Placed k.disk) (hino : it.ino_ = ino)
    (hsame : d.Same k.disk) (hq : Quiet k₀ k (it.own + R)) (hn : sz - b.length < n) :
    Runs k (readLoop sz n it o b) fun r k' => d.Same k'.disk ∧ Quiet k₀ k' (r.1.own + R) ∧
      r.2 = b ++ (List.range' o (copied d ino n o (sz - b.length))).map (fileByte d ino) := by
  induction n generalizing k it o b with
  | zero => exact absurd hn (Nat.not_lt_zero _)
  | succ n ih =>
    unfold readLoop copied
    by_cases hdone : sz - b.length = 0
    · rw [if_pos (by omega), if_pos (.inl hdone)]
      exact .pure ⟨hsame, hq, (List.append_nil b).symm⟩
    rw [if_neg (by omega)]
    refine runs_look hok o h hino hsame hq ?_ ?_
    · intro it₂ k₂ hblock hfound hsame₂ hq₂
      refine .get (((runs_put _ hq₂).and (ends_put _)).bind fun _ k₃ hput => ?_)
      obtain ⟨hq₃, hdisk⟩ := hput
      have hgo : ¬(sz - b.length = 0 ∨ ¬HasBlock d ino o) := not_or.mpr ⟨hdone, not_not.mpr hblock⟩
      have hplaced := (hfound.toPlaced.congr hsame₂.inode hsame₂.buf).congr (congrArg Disk.inode hdisk)
        (congrArg Disk.buf hdisk)
      have hleft : piece (d.inode ino).size o (sz - b.length) ≤ sz - b.length :=
        (Nat.min_le_right _ _).trans (Nat.min_le_right _ _)
      rw [if_neg hgo, hfound.ino_, congrFun hsame₂.inode ino, hsame₂.buf,
        show min (u64 _) (min _ _) = piece (d.inode ino).size o (sz - b.length) from rfl, bytes_piece]
      rw [← hdisk] at hsame₂
      generalize piece (d.inode ino).size o (sz - b.length) = c at hleft ⊢
      split
      · next hzero => exact .pure ⟨hsame₂, hq₃, by rw [hzero]⟩
      · have hlen : (b ++ (List.range' o c).map (fileByte d ino)).length = b.length + c := by
          rw [List.length_append, List.length_map, List.length_range']
        have hrest := ih (o := o + c) (b := b ++ (List.range' o c).map (fileByte d ino)) hplaced hfound.ino_ hsame₂
          hq₃ (by rw [hlen]; omega)
        rw [hlen, ← Nat.sub_sub, append_bytes] at hrest
        exact hrest
    · intro it₂ k₂ hblock hfound hempty hsame₂ hq₂
      rw [if_pos (.inr hblock)]
      exact .pure ⟨hsame₂, hq₂, (List.append_nil b).symm⟩

/-! ## `read` and `readdiskfile` -/

/-- An inode that can be read: its extents are in order, it is not locked, and every block has a cache entry. -/
structure Readable (k : Kernel) (ino : ℕ) : Prop where
  list : ListOk k.disk ino
  size : (k.disk.inode ino).size < 2 ^ 32
  avail : ∀ i, k.disk.avail i = true
  lock : CanRead k (.inode ino)

/-- The number of bytes to be read, and these bytes. -/
def IsRead (d : Disk) (ino o sz : ℕ) (r : ℤ) (b : Str) : Prop :=
  r = min sz ((d.inode ino).size - o) ∧ b = (List.range' o (min sz ((d.inode ino).size - o))).map (fileByte d ino)

/-- `read` of a vnode at offset `o` copies what is to be read. -/
def VnodeReads (k : Kernel) (v : DiskVnode) (o sz : ℕ) : Prop :=
  Runs k (v.read sz) fun r _ => IsRead k.disk v.ino_ o sz r.1 r.2.1

/-- So does `readdiskfile` of the file `ino`. -/
def DiskfileReads (k : Kernel) (s : Str) (ino o sz : ℕ) : Prop :=
  Runs k (syscall_readdiskfile (some s) sz o) fun r _ => IsRead k.disk ino o sz r.1 r.2

/-- A copy is right if its length is. -/
theorem isRead_iff {o n : ℕ} {b : Str} (hsize : (d.inode ino).size < 2 ^ 32) (hn : sz < n) (hrange : o < 2 ^ 63)
    (hb : b = (List.range' o (copied d ino n o sz)).map (fileByte d ino)) :
    IsRead d ino o sz b.length b ↔ ReadGood d ino o sz := by
  rw [← copied_iff hsize hn hrange]
  unfold IsRead
  rw [hb, List.length_map, List.length_range']
  constructor
  · rintro ⟨hlen, -⟩
    exact_mod_cast hlen
  · intro heq
    rw [heq]
    exact ⟨by push_cast; rfl, rfl⟩

/-- A lock that is taken for reading, or given back. -/
theorem Quiet.readBy (h : Quiet k₀ k own) (l : Lock) (m : ℕ) : Quiet (k₀.readBy l m) (k.readBy l m) own := by
  refine ⟨h.avail, h.availNew, ?_, h.ref_⟩
  unfold Kernel.readBy
  dsimp only
  rw [h.mlock]

/-- **`read`** is right if what is to be read is there. -/
theorem vnodeReads_iff {v : DiskVnode} {o : ℕ} (h : Readable k v.ino_) (hread : v.readable = true)
    (hoff : v.offset_ = o) (hrange : o < 2 ^ 63) : VnodeReads k v o sz ↔ ReadGood k.disk v.ino_ o sz := by
  obtain ⟨n, hn, hlock⟩ := h.lock
  refine Runs.iff ?_
  unfold DiskVnode.read
  rw [hread, if_neg (by decide), hoff]
  refine (runs_lock_read hn hlock).bind fun _ k₁ hlocked => ?_
  subst hlocked
  have hq : Quiet (k.readBy (.inode v.ino_) (n + 1)) (k.readBy (.inode v.ino_) (n + 1)) ((fileiter v.ino_).own + 0) :=
    Quiet.refl h.avail
  refine (DiskVnode.runs_readLoop (k := k.readBy (.inode v.ino_) (n + 1)) h.list (sz + 1) hrange
    (Fileiter.placed_fileiter _ _) rfl (.refl _) hq (Nat.lt_succ_of_le (Nat.sub_le _ _))).bind fun r k₂ hloop => ?_
  obtain ⟨hsame, hq₂, hout⟩ := hloop
  obtain ⟨it, b, offset_⟩ := r
  have hheld : k₂.mlock (.inode v.ino_) = .readers (n + 1) := by rw [hq₂.mlock, readBy_self]
  refine (runs_unlock_read hheld).bind fun _ k₃ hunlock => ?_
  subst hunlock
  refine (Fileiter.runs_destroy (hq₂.readBy (.inode v.ino_) n)).bind fun _ k₄ hq₄ => .pure ?_
  exact isRead_iff h.size (Nat.lt_succ_self sz) hrange hout

/-! The file behind a name. -/

/-- The path that a name stands for. -/
def pathOf (k : Kernel) (s : Str) : Str := if s.head? = some dlm then s else k.name ++ s

/-- `readdiskfile` finds the file `ino`. -/
structure Names (k : Kernel) (s : Str) (ino : ℕ) : Prop where
  sata_disk : k.sata_disk = true
  dirs : DirsOk k.disk
  settled : Settled k ino
  cwd : CanRead k .cwd
  fst : CanRead k .fst
  fits : s.head? ≠ some dlm → s.length + k.name.length ≤ maxnamelen - 2
  file : ∃ i, reach k.disk (visited (pathOf k s) false) 1 = some i ∧
    child k.disk i (path_find_last (pathOf k s)).2 = some ino ∧ Valid k.disk ino

theorem noFile_of_reach {names : List Str} {i j : ℕ} (h : reach d names i = some j) : NoFile d names i := by
  induction names generalizing i with
  | nil => trivial
  | cons s names ih =>
    intro j' hchild hvalid
    rw [reach_some hchild] at h
    split at h
    · next hdir => exact ⟨hdir, ih h⟩
    · cases h

/-- **`lookup_inode`** of a file that is there. -/
theorem runs_lookup_inode (hdirs : DirsOk k₀.disk) {p : Str} {i j : ℕ}
    (hreach : reach k₀.disk (visited p false) 1 = some i) (hchild : child k₀.disk i (path_find_last p).2 = some j)
    (hvalid : Valid k₀.disk j) (hsame : k₀.disk.Same k.disk) (hq : Quiet k₀ k own) :
    Runs k (lookup_inode p) fun r k' => k₀.disk.Same k'.disk ∧ Quiet k₀ k' ({.ref (inodeEntry j)} + own) ∧
      r = some j := by
  have hdir := reach_isDir hdirs.root hreach
  refine (runs_lookup_directory hdirs p rfl (fun h => by cases h) (fun _ => noFile_of_reach hreach) hsame hq).bind
    fun r k₁ hlookup => ?_
  obtain ⟨hsame₁, hq₁, rfl⟩ := hlookup
  rw [hreach] at hq₁ ⊢
  have hfind : Runs k₁ (lookup_inode_in i (path_find_last p).2) fun r k' => k₀.disk.Same k'.disk ∧
      Quiet k₀ k' ({.ref (inodeEntry j)} + ({.ref (inodeEntry i)} + own)) ∧ r = some j := by
    refine (runs_findName (hdirs.dirs i hdir) _ hsame₁ hq₁).bind fun r k₂ hfind => ?_
    obtain ⟨hsame₂, hq₂, rfl⟩ := hfind
    rw [hchild]
    refine (runs_get_inode j hsame₂ hq₂).mono fun r k₃ hget => ?_
    rw [if_pos hvalid] at hget
    obtain ⟨hsame₃, hq₃, rfl⟩ := hget
    exact ⟨hsame₃, hq₃, rfl⟩
  refine hfind.bind fun r k₂ hfound => ?_
  obtain ⟨hsame₂, hq₂, rfl⟩ := hfound
  rw [add_left_comm] at hq₂
  refine (runs_inode_put (hdir.settled hsame₂) hq₂).bind fun _ k₃ hput => .pure ?_
  exact ⟨hput.1 ▸ hsame₂, hput.2, rfl⟩

theorem runs_absolute (hread : CanRead k .cwd) {s : Str}
    (hfits : s.head? ≠ some dlm → s.length + k.name.length ≤ maxnamelen - 2) :
    Runs k (absolute s) fun r k' => k' = k ∧ r = pathOf k s := by
  unfold absolute pathOf
  by_cases habs : s.head? = some dlm
  · rw [if_pos habs, if_pos habs]
    exact .pure ⟨rfl, rfl⟩
  · rw [if_neg habs, if_neg habs]
    refine (runs_cwd_cat hread s false).bind fun r k' hcat => .get ?_
    obtain ⟨rfl, rfl⟩ := hcat
    rw [if_neg (not_lt.mpr (hfits habs)), if_neg (by decide), skipFirst_of_relative habs]
    exact .pure ⟨rfl, rfl⟩

/-- **`readdiskfile`** is right if what is to be read is there. -/
theorem diskfileReads_iff {s : Str} {o : ℕ} (h : Readable k ino) (hnames : Names k s ino) (hrange : o < 2 ^ 63) :
    DiskfileReads k s ino o sz ↔ ReadGood k.disk ino o sz := by
  obtain ⟨m, hm, hfst⟩ := hnames.fst
  obtain ⟨n, hn, hlock⟩ := h.lock
  obtain ⟨i, hreach, hchild, hvalid⟩ := hnames.file
  refine Runs.iff (.get ?_)
  rw [hnames.sata_disk, if_neg (by decide)]
  dsimp only
  refine (runs_absolute hnames.cwd hnames.fits).bind fun p k₁ habs => ?_
  obtain ⟨rfl, rfl⟩ := habs
  refine (runs_lock_read hm hfst).bind fun _ k₂ hlocked => ?_
  subst hlocked
  have hdirs : DirsOk (k₁.readBy .fst (m + 1)).disk := hnames.dirs
  refine (runs_lookup_inode hdirs hreach hchild hvalid (.refl _) (.refl h.avail)).bind fun r k₃ hlookup => ?_
  obtain ⟨hsame₃, hq₃, rfl⟩ := hlookup
  have hheld : k₃.mlock .fst = .readers (m + 1) := by rw [hq₃.mlock, readBy_self]
  refine (runs_unlock_read hheld).bind fun _ k₄ hunlock => ?_
  subst hunlock
  -- from here on `fstlock` is as it was, and the inode has a reference
  have hq₄ : Quiet k₁ (k₃.readBy .fst m) ({.ref (inodeEntry ino)} + 0) := by
    have hback := hq₃.readBy .fst m
    rwa [readBy_readBy hfst] at hback
  have hlock₄ : (k₃.readBy .fst m).mlock (.inode ino) = .readers n := by rw [hq₄.mlock, hlock]
  refine (runs_lock_read hn hlock₄).bind fun _ k₅ hlocked => ?_
  subst hlocked
  have hq₅ := hq₄.readBy (.inode ino) (n + 1)
  have hown : Quiet (k₁.readBy (.inode ino) (n + 1)) ((k₃.readBy .fst m).readBy (.inode ino) (n + 1))
      ((fileiter ino).own + ({.ref (inodeEntry ino)} + 0)) := by rwa [Fileiter.own_fileiter, zero_add]
  refine (runs_readLoop (k := (k₃.readBy .fst m).readBy (.inode ino) (n + 1)) h.list (sz + 1)
    (Fileiter.placed_fileiter _ _) rfl hsame₃ hown (Nat.lt_succ_of_le (Nat.sub_le _ _))).bind fun r k₆ hloop => ?_
  obtain ⟨hsame₆, hq₆, hout⟩ := hloop
  obtain ⟨it, b⟩ := r
  refine ((Fileiter.runs_destroy hq₆).and Fileiter.ends_destroy).bind fun _ k₇ hdestroy => ?_
  obtain ⟨hq₇, hdisk₇⟩ := hdestroy
  have hheld₇ : k₇.mlock (.inode ino) = .readers (n + 1) := by rw [hq₇.mlock, readBy_self]
  refine (runs_unlock_read hheld₇).bind fun _ k₈ hunlock => ?_
  subst hunlock
  have hq₈ : Quiet k₁ (k₇.readBy (.inode ino) n) ({.ref (inodeEntry ino)} + 0) := by
    have hback := hq₇.readBy (.inode ino) n
    rwa [readBy_readBy hlock] at hback
  have hinode : (k₇.readBy (.inode ino) n).disk.inode = k₁.disk.inode := by
    show k₇.disk.inode = _
    rw [hdisk₇, hsame₆.inode]
  refine (runs_inode_put (hnames.settled.quiet hinode hq₈) hq₈).bind fun _ k₉ hput => .pure ?_
  exact isRead_iff h.size (Nat.lt_succ_self sz) hrange hout

/--
**When reading is right.** The offset is not behind the end of the file, and there is a block for every byte that
is to be read; or it is behind the end and there is no block either, or nothing is asked for.
-/
theorem reads_iff (h : Readable k ino) {o : ℕ} (hrange : o < 2 ^ 63) (sz : ℕ) :
    (∀ v : DiskVnode, v.ino_ = ino → v.readable = true → v.offset_ = o →
      (VnodeReads k v o sz ↔ ReadGood k.disk ino o sz)) ∧
    ∀ s, Names k s ino → (DiskfileReads k s ino o sz ↔ ReadGood k.disk ino o sz) := by
  constructor
  · rintro v rfl hread hoff
    exact vnodeReads_iff h hread hoff hrange
  · intro s hnames
    exact diskfileReads_iff h hnames hrange

/-! ## The file `f`, of 128 bytes -/

theorem treeDisk_list : ListOk treeDisk 3 ∧ flat treeDisk 3 = [11] := by
  have hinode : treeDisk.inode 3 = single type_regular 128 ⟨11, 1⟩ := rfl
  obtain ⟨hok, hflat⟩ := wellFormed_single hinode (by decide) (fun h => absurd h Nat.one_ne_zero)
  exact ⟨hok.toListOk, hflat.trans (if_neg (by decide))⟩

theorem treeDisk_readable : Readable (kernelOn treeDisk (.readers 0)) 3 :=
  ⟨treeDisk_list.1, by decide, fun _ => rfl, ⟨0, by decide, rfl⟩⟩

theorem treeDisk_names : Names (kernelOn treeDisk (.readers 0)) [47, 102] 3 := by
  have hchild : child treeDisk 1 [102] = some 3 := by
    unfold child
    rw [treeDisk_entries]
    decide
  have hvisited : visited (pathOf (kernelOn treeDisk (.readers 0)) [47, 102]) false = [] := by decide
  refine ⟨rfl, treeDisk_dirsOk, fun _ => ⟨rfl, by decide⟩, ⟨0, by decide, rfl⟩, ⟨0, by decide, rfl⟩,
    fun h => absurd rfl h, 1, ?_, hchild, by decide⟩
  rw [hvisited]
  rfl

/-- From offset 100 on, the last 28 bytes are read. -/
theorem reads_iff_tail :
    VnodeReads (kernelOn treeDisk (.readers 0)) ⟨3, 1, 100⟩ 100 50 ∧
      DiskfileReads (kernelOn treeDisk (.readers 0)) [47, 102] 3 100 50 := by
  have hiff := reads_iff treeDisk_readable (o := 100) (by decide) 50
  have hgood : ReadGood treeDisk 3 100 50 := by
    refine (readGood_iff fun p hlt => ?_).mpr (.inl (by decide))
    have hlt : p < 128 := hlt
    have hdiv : p / blocksize = 0 := Nat.div_eq_of_lt (by unfold blocksize; omega)
    unfold HasBlock
    rw [hdiv, treeDisk_list.2]
    decide
  exact ⟨(hiff.1 ⟨3, 1, 100⟩ rfl (by decide) rfl).mpr hgood, (hiff.2 _ treeDisk_names).mpr hgood⟩

/-- Behind the end of the file, but in its block, bytes are read that are not the file's. -/
theorem reads_fails :
    (treeDisk.inode 3).size = 128 ∧ ListOk treeDisk 3 ∧
      Runs (kernelOn treeDisk (.readers 0)) (DiskVnode.read ⟨3, 1, 200⟩ 10) (fun r _ => r.1 = 10) ∧
      ¬VnodeReads (kernelOn treeDisk (.readers 0)) ⟨3, 1, 200⟩ 200 10 ∧
      Runs (kernelOn treeDisk (.readers 0)) (syscall_readdiskfile (some [47, 102]) 10 200) (fun r _ => r.1 = 10) ∧
      ¬DiskfileReads (kernelOn treeDisk (.readers 0)) [47, 102] 3 200 10 := by
  have hread : Runs (kernelOn treeDisk (.readers 0)) (DiskVnode.read ⟨3, 1, 200⟩ 10) (fun r _ => r.1 = 10) :=
    Runs.of_map (f := fun p : (ℤ × Str × DiskVnode) × Kernel => p.1.1) (by decide +kernel)
  have hfile : Runs (kernelOn treeDisk (.readers 0)) (syscall_readdiskfile (some [47, 102]) 10 200)
      (fun r _ => r.1 = 10) := Runs.of_map (f := fun p : (ℤ × Str) × Kernel => p.1.1) (by decide +kernel)
  refine ⟨rfl, treeDisk_list.1, hread, fun h => ?_, hfile, fun h => ?_⟩
  · obtain ⟨r, k', -, hten, hzero, -⟩ := hread.and h.ends
    rw [hten] at hzero
    exact absurd hzero (by decide)
  · obtain ⟨r, k', -, hten, hzero, -⟩ := hfile.and h.ends
    rw [hten] at hzero
    exact absurd hzero (by decide)

end Chickadee.Chkfs
