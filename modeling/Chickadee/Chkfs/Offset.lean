import Chickadee.Chkfs.Extents
import Chickadee.Fs.Inode
import Chickadee.Lib.Run

/-!
# Offsets and sizes

A seek only checks that it does not go beyond the end of the file. One that lands before the start leaves a
negative offset, which later calls take as a huge `size_t`.
-/

namespace Chickadee.Chkfs

open Lib Fs

variable {k : Kernel} {d d' d₁ : Disk} {it : Fileiter} {ino : ℕ}

/-! ## The bytes that the extents cover -/

theorem extentOf_end (d : Disk) (ino : ℕ) :
    (extentOf d ino (ndirect + extentsperblock * (d.inode ino).indirect.count)).count = 0 := by
  unfold extentOf
  rw [if_neg (by omega), Nat.add_sub_cancel_left, Nat.mul_div_cancel_left _ (by decide), if_pos le_rfl]

theorem exists_empty (d : Disk) (ino : ℕ) : ∃ i, (extentOf d ino i).count = 0 := ⟨_, extentOf_end d ino⟩

/-- The number of extents before the first one that is empty. -/
def nextents (d : Disk) (ino : ℕ) : ℕ := Nat.find (exists_empty d ino)

/-- The bytes covered by the extents of a file. -/
def covered (d : Disk) (ino : ℕ) : ℕ := blocksize * psum (extentOf d ino) (nextents d ino)

theorem le_covered {n : ℕ} (h : ∀ i < n, (extentOf d ino i).count ≠ 0) :
    blocksize * psum (extentOf d ino) n ≤ covered d ino := by
  have hle : n ≤ nextents d ino := (Nat.le_find_iff _ _).mpr h
  exact Nat.mul_le_mul_left _ (psum_mono _ hle)

theorem covered_le {n : ℕ} (h : (extentOf d ino n).count = 0) :
    covered d ino ≤ blocksize * psum (extentOf d ino) n :=
  Nat.mul_le_mul_left _ (psum_mono _ (Nat.find_le h))

/-- Extents that grow cover no less. -/
theorem covered_mono (h : ∀ i, (extentOf d ino i).count ≤ (extentOf d' ino i).count) :
    covered d ino ≤ covered d' ino := by
  refine (Nat.mul_le_mul_left _ (psum_le_psum h _)).trans (le_covered fun i hi => ?_)
  have := Nat.find_min (exists_empty d ino) hi
  have := h i
  omega

theorem covered_congr (h : extentOf d' ino = extentOf d ino) : covered d' ino = covered d ino :=
  le_antisymm (covered_mono fun i => by rw [h]) (covered_mono fun i => by rw [h])

/-- A file is far smaller than an `off_t` can say. -/
theorem covered_lt (h : ListOk d ino) : covered d ino < 2 ^ 62 := by
  have hle : nextents d ino ≤ ndirect + extentsperblock * (d.inode ino).indirect.count :=
    Nat.find_le (extentOf_end d ino)
  have hone := h.one
  have hsum : psum (extentOf d ino) (nextents d ino) ≤ nextents d ino * 2 ^ 32 :=
    psum_le_mul (fun i => (Nat.le_add_left _ _).trans (h.bound i).le) _
  unfold covered blocksize
  unfold ndirect extentsperblock at hle
  omega

/-! ## The blocks of a file -/

/-- The blocks that a file has: those of its extents, and the indirect block. -/
def Holds (d : Disk) (ino b : ℕ) : Prop :=
  (∃ i, (extentOf d ino i).first ≠ 0 ∧ b ∈ extentOf d ino i) ∨
    (d.inode ino).indirect.count = 1 ∧ b = (d.inode ino).indirect.first

theorem holds_congr (hinode : d'.inode ino = d.inode ino) (hbuf : d'.buf = d.buf) (b : ℕ) :
    Holds d' ino b ↔ Holds d ino b := by
  unfold Holds
  rw [extentOf_congr hinode hbuf, hinode]

theorem FileOk.holds (h : FileOk d ino) {b : ℕ} (hb : Holds d ino b) : d.fbb.bit b = false := by
  rcases hb with ⟨i, hi, hmem⟩ | ⟨hone, rfl⟩
  · exact h.taken i hi b hmem
  · exact (h.indirect hone).1

/-- The same extents, and the blocks of the file are still taken. -/
theorem FileOk.of (h : FileOk d ino) (hext : extentOf d' ino = extentOf d ino)
    (hind : (d'.inode ino).indirect = (d.inode ino).indirect)
    (hbit : ∀ b, Holds d ino b → d'.fbb.bit b = false) : FileOk d' ino := by
  obtain ⟨hfits, hbound, -, hone, hindirect⟩ := h
  refine ⟨by rwa [hext], by rwa [hext], fun i hi b hb => ?_, by rwa [hind], fun h₁ => ?_⟩
  · rw [hext] at hi hb
    exact hbit b (.inl ⟨i, hi, hb⟩)
  · rw [hind] at h₁ ⊢
    rw [hext]
    exact ⟨hbit _ (.inr ⟨h₁, rfl⟩), (hindirect h₁).2⟩

theorem FileOk.congr (h : FileOk d ino) (hinode : d'.inode ino = d.inode ino) (hbuf : d'.buf = d.buf)
    (hfbb : ∀ b, Holds d ino b → d'.fbb.bit b = d.fbb.bit b) : FileOk d' ino :=
  h.of (extentOf_congr hinode hbuf) (by rw [hinode]) fun b hb => by rw [hfbb b hb, h.holds hb]

theorem FileOk.same (h : FileOk d ino) (hsame : d.Same d') : FileOk d' ino :=
  h.congr (congrFun hsame.inode ino) hsame.buf fun b _ => by rw [hsame.fbb]

/-- The blocks of a file are not free. -/
theorem FileOk.not_mem_run (h : FileOk d ino) {b first count : ℕ} (hb : Holds d ino b)
    (hrun : IsRun d.fbb count first) : b ∉ Extent.mk first count := by
  intro hmem
  obtain ⟨hle, hlt⟩ := Extent.mem_iff.mp hmem
  have hbit := h.holds hb
  rw [hrun.free b hle hlt] at hbit
  cases hbit

/-- Marking blocks that were free leaves the file alone. -/
theorem FileOk.marked (h : FileOk d ino) {x : Bool} {first count : ℕ} (hrun : IsRun d.fbb count first)
    (hmarked : d.Marked d' x ⟨first, count⟩) : FileOk d' ino := by
  refine h.congr (congrFun hmarked.inode ino) hmarked.buf fun b hb => ?_
  rw [hmarked.bit, if_neg (h.not_mem_run hb hrun)]

/-! ## New blocks -/

theorem Grown.count_le {f f' : ℕ → Extent} {n first count : ℕ} (h : Grown f n first count f') (i : ℕ) :
    (f i).count ≤ (f' i).count := by
  cases h with
  | new hempty =>
    by_cases hi : i = n
    · rw [hi, hempty]
      exact Nat.zero_le _
    · rw [Function.update_of_ne hi]
  | grow j hj hnext =>
    by_cases hi : i = j
    · rw [hi, Function.update_self]
      exact Nat.le_add_right _ _
    · rw [Function.update_of_ne hi]

/-- The blocks of the grown file. -/
theorem Grown.mem {f f' : ℕ → Extent} {n first count i b : ℕ} (h : Grown f n first count f')
    (hi : (f' i).first ≠ 0) (hb : b ∈ f' i) :
    (f i).first ≠ 0 ∧ b ∈ f i ∨ b ∈ Extent.mk first count := by
  cases h with
  | new hempty =>
    by_cases hin : i = n
    · rw [hin, Function.update_self] at hb
      exact .inr hb
    · rw [Function.update_of_ne hin] at hi hb
      exact .inl ⟨hi, hb⟩
  | grow j hj hnext =>
    by_cases hij : i = j
    · rw [hij, Function.update_self] at hi hb
      rw [hij]
      obtain ⟨hle, hlt⟩ := Extent.mem_iff.mp hb
      dsimp only at hle hlt
      by_cases hold : b < first
      · exact .inl ⟨hi, Extent.mem_iff.mpr ⟨hle, by omega⟩⟩
      · exact .inr (Extent.mem_iff.mpr ⟨not_lt.mp hold, by dsimp only; omega⟩)
    · rw [Function.update_of_ne hij] at hi hb
      exact .inl ⟨hi, hb⟩

theorem Grown.bound {f f' : ℕ → Extent} {n first count i : ℕ} (h : Grown f n first count f')
    (hrange : first + count ≤ bitsperblock)
    (hbound : (f i).first ≠ 0 → (f i).count ≠ 0 → (f i).first + (f i).count ≤ bitsperblock)
    (hfits : Fits (f i)) : Fits (f' i) ∧
      ((f' i).first ≠ 0 → (f' i).count ≠ 0 → (f' i).first + (f' i).count ≤ bitsperblock) := by
  have hfit : ∀ {e : Extent}, e.first + e.count ≤ bitsperblock → Fits e := fun he => by
    unfold bitsperblock at he
    exact ⟨by omega, by omega⟩
  cases h with
  | new hempty =>
    by_cases hin : i = n
    · rw [hin, Function.update_self]
      exact ⟨hfit hrange, fun _ _ => hrange⟩
    · rw [Function.update_of_ne hin]
      exact ⟨hfits, hbound⟩
  | grow j hj hnext =>
    by_cases hij : i = j
    · have hsum : (f j).first + ((f j).count + count) ≤ bitsperblock := by omega
      rw [hij, Function.update_self]
      exact ⟨hfit hsum, fun _ _ => hsum⟩
    · rw [Function.update_of_ne hij]
      exact ⟨hfits, hbound⟩

/-- A file with new blocks, which are taken and hold no extents. -/
theorem Fileiter.Stored.fileOk {n first count : ℕ} (h : Fileiter.Stored d ino n first count d')
    (hok : FileOk d ino) (hrange : first + count ≤ bitsperblock)
    (htaken : ∀ b ∈ Extent.mk first count, d.fbb.bit b = false)
    (hind : (d.inode ino).indirect.count = 1 → (d.inode ino).indirect.first ∉ Extent.mk first count) :
    FileOk d' ino := by
  obtain ⟨direct, hinode⟩ := h.inode
  have hindirect : (d'.inode ino).indirect = (d.inode ino).indirect := by
    rw [hinode, Function.update_self]
  have hbound := fun i => h.grown.bound hrange (hok.bound i) (hok.fits i)
  refine ⟨fun i => (hbound i).1, fun i => (hbound i).2, fun i hi b hb => ?_, by rw [hindirect]; exact hok.one,
    fun hone => ?_⟩
  · rw [h.fbb]
    rcases h.grown.mem hi hb with ⟨hi, hb⟩ | hb
    · exact hok.taken i hi b hb
    · exact htaken b hb
  · rw [hindirect] at hone ⊢
    rw [h.fbb]
    obtain ⟨hbit, hnot⟩ := hok.indirect hone
    refine ⟨hbit, fun i hi hb => ?_⟩
    rcases h.grown.mem hi hb with ⟨hi, hb⟩ | hb
    · exact hnot i hi hb
    · exact hind hone hb

/-- The file after part of a call: it is in order, and its extents have not lost anything. -/
structure Grows (d : Disk) (ino : ℕ) (d' : Disk) : Prop where
  ok : FileOk d' ino
  covered : covered d ino ≤ covered d' ino
  size : (d'.inode ino).size = (d.inode ino).size

theorem Grows.refl (h : FileOk d ino) : Grows d ino d := ⟨h, le_rfl, rfl⟩

theorem Grows.trans (h : Grows d ino d₁) (h' : Grows d₁ ino d') : Grows d ino d' :=
  ⟨h'.ok, h.covered.trans h'.covered, h'.size.trans h.size⟩

theorem Grows.of_ok (hok : FileOk d' ino) (hinode : d'.inode ino = d.inode ino)
    (hext : extentOf d' ino = extentOf d ino) : Grows d ino d' :=
  ⟨hok, (covered_congr hext).ge, by rw [hinode]⟩

theorem Grows.same (h : FileOk d ino) (hsame : d.Same d') : Grows d ino d' :=
  .of_ok (h.same hsame) (congrFun hsame.inode ino) (extentOf_congr (congrFun hsame.inode ino) hsame.buf)

theorem Grows.marked (h : FileOk d ino) {x : Bool} {first count : ℕ} (hrun : IsRun d.fbb count first)
    (hmarked : d.Marked d' x ⟨first, count⟩) : Grows d ino d' :=
  .of_ok (h.marked hrun hmarked) (congrFun hmarked.inode ino)
    (extentOf_congr (congrFun hmarked.inode ino) hmarked.buf)

theorem Fileiter.Stored.grows {n first count : ℕ} (h : Fileiter.Stored d ino n first count d')
    (hok : FileOk d' ino) : Grows d ino d' := by
  obtain ⟨direct, hinode⟩ := h.inode
  exact ⟨hok, covered_mono h.grown.count_le, by rw [hinode, Function.update_self]⟩

theorem NewIndirect.grows {bn : ℕ} (h : NewIndirect d ino bn d') (hok : FileOk d ino) : Grows d ino d' :=
  ⟨h.fileOk hok, (covered_congr h.extentOf_eq).ge, by rw [h.inode, Function.update_self]⟩

/-! ## `write_nolock` -/

theorem not_taken_of_allocate_zero {bn : ℕ} (h : d.allocate_extent 0 = some (d', bn)) : d.Same d' := by
  unfold Disk.allocate_extent at h
  split at h
  · cases h
    exact .refl d
  split at h
  · cases h
  next d₁ hsuper =>
  have hsame := (Disk.same_superblock hsuper).trans (Disk.same_get_disk_entry d₁)
  dsimp only at h
  split at h
  · split at h
    · cases h
    split at h
    · cases h
      exact hsame
    · cases h
      exact ⟨⟨hsame.sb, hsame.avail, hsame.availNew⟩, hsame.fbb, hsame.inode, hsame.buf⟩
  · cases h
    exact hsame

/-- A file into which newly taken blocks are inserted. -/
theorem inserted_grows {n first count : ℕ} {r : ℤ} (h : Fileiter.Inserted d ino n first count r d')
    (hok : FileOk d ino) (hrange : first + count ≤ bitsperblock)
    (htaken : ∀ b ∈ Extent.mk first count, d.fbb.bit b = false)
    (hnot : ∀ b, Holds d ino b → b ∉ Extent.mk first count) :
    Grows d ino d' ∧ (r < 0 → d'.inode = d.inode ∧ d'.buf = d.buf) := by
  cases h with
  | stored h =>
    exact ⟨h.grows (h.fileOk hok hrange htaken fun hone => hnot _ (.inr ⟨hone, rfl⟩)),
      fun hr => absurd hr (lt_irrefl 0)⟩
  | @indirect d₁ _ bn hnew h =>
    have hgrows := hnew.grows hok
    have htaken' : ∀ b ∈ Extent.mk first count, d₁.fbb.bit b = false := fun b hb => by
      rw [hnew.bit, htaken b hb, ite_self]
    refine ⟨hgrows.trans (h.grows (h.fileOk hgrows.ok hrange htaken' fun _ hmem => ?_)),
      fun hr => absurd hr (lt_irrefl 0)⟩
    -- the new indirect block was free, the new blocks were taken
    rw [hnew.indirect] at hmem
    have hbit := htaken _ hmem
    rw [hnew.free] at hbit
    cases hbit
  | failed hr hsame => exact ⟨.same hok hsame, fun _ => ⟨hsame.inode, hsame.buf⟩⟩
  | leaked hrun hmarked => exact ⟨.marked hok hrun hmarked, fun _ => ⟨hmarked.inode, hmarked.buf⟩⟩

/-- An extent without blocks is not inserted. -/
theorem ends_insert_zero (first : ℕ) : Ends k (it.insert first 0) fun _ _ => False := by
  refine .get ((ends_assert _).bind fun _ _ _ => (ends_assert _).bind fun _ _ hzero => ?_)
  exact absurd rfl hzero.1

/-! ## Reading and writing where the iterator is -/

/-- The block that the iterator is at. -/
theorem Fileiter.Sought.block {off : ℕ} (h : it.Sought d ino off) (hok : FileOk d ino)
    (hbn : it.blocknum d ≠ 0) :
    it.eptr_ ≠ none ∧ (extentOf d ino it.eidx_).first ≠ 0 ∧ it.blocknum d ∈ extentOf d ino it.eidx_ := by
  obtain ⟨hplaced, rfl, rfl, hinside⟩ := h
  unfold Fileiter.blocknum at hbn ⊢
  split at hbn
  · exact absurd rfl hbn
  next p hp =>
  rw [hplaced.extent_eq hp] at hbn ⊢
  have hne : it.eptr_ ≠ none := by
    rw [hp]
    exact Option.some_ne_none p
  obtain ⟨hle, hlt⟩ := hinside hne
  dsimp only at hbn ⊢
  split at hbn
  · exact absurd rfl hbn
  next hfirst =>
  refine ⟨hne, hfirst, ?_⟩
  have hblock : (it.off_ - it.eoff_) / blocksize < (extentOf d it.ino_ it.eidx_).count :=
    Nat.div_lt_of_lt_mul (by rw [Nat.mul_comm]; omega)
  have hbound := hok.bound it.eidx_ hfirst (Nat.ne_zero_of_lt hblock)
  have hcast : ((it.off_ : ℤ) - it.eoff_) / blocksize = ((it.off_ - it.eoff_) / blocksize : ℕ) := by
    rw [← Nat.cast_sub hle]
    rfl
  generalize (it.off_ - it.eoff_) / blocksize = n at hblock hcast
  have hu32 : u32 ((extentOf d it.ino_ it.eidx_).first + ((it.off_ : ℤ) - it.eoff_) / blocksize) =
      (extentOf d it.ino_ it.eidx_).first + n := by
    rw [hcast]
    unfold bitsperblock at hbound
    unfold u32
    omega
  rw [if_neg hfirst, hu32, Extent.mem_iff]
  omega

/-- What is left of the block that the iterator is in belongs to the file. -/
theorem Fileiter.Sought.le_covered {off n : ℕ} (h : it.Sought d ino off) (hptr : it.eptr_ ≠ none)
    (hn : n ≤ blocksize - off % blocksize) : off + n ≤ covered d ino := by
  obtain ⟨hplaced, rfl, rfl, hinside⟩ := h
  obtain ⟨hle, hlt⟩ := hinside hptr
  have hcovered : blocksize * psum (extentOf d it.ino_) (it.eidx_ + 1) ≤ covered d it.ino_ := by
    refine Chkfs.le_covered fun i hi => ?_
    by_cases heq : i = it.eidx_
    · subst heq
      intro hzero
      rw [hzero] at hlt
      omega
    · exact hplaced.passed i (by omega)
  rw [psum_succ, Nat.mul_add, ← hplaced.eoff, Nat.mul_comm blocksize (Extent.count _)] at hcovered
  have heoff : it.eoff_ % blocksize = 0 := by
    rw [hplaced.eoff]
    exact Nat.mul_mod_right _ _
  unfold blocksize at *
  omega

/-- Data is written into a block of the file. -/
theorem grows_setBuf {bn i : ℕ} (b : Block) (h : FileOk d ino) (hi : (extentOf d ino i).first ≠ 0)
    (hbn : bn ∈ extentOf d ino i) : Grows d ino (d.setBuf bn b) ∧ extentOf (d.setBuf bn b) ino = extentOf d ino := by
  have hext : extentOf (d.setBuf bn b) ino = extentOf d ino := by
    refine extentOf_setBuf fun j hj => ?_
    have hone : (d.inode ino).indirect.count = 1 := le_antisymm h.one (by omega)
    rintro rfl
    rw [hone] at hj
    refine (h.indirect hone).2 i hi ?_
    rwa [Nat.lt_one_iff.mp hj, Nat.add_zero] at hbn
  exact ⟨.of_ok (h.of hext rfl fun _ hb => h.holds hb) rfl hext, hext⟩

theorem ends_prefetchLoop (n off : ℕ) (h : it.Placed k.disk) :
    Ends k (prefetchLoop n it off) fun _ k' => k.disk.Same k'.disk := by
  induction n generalizing k it off with
  | zero => exact (Fileiter.ends_find off h).mono fun _ _ hfind => hfind.1
  | succ n ih =>
    refine (Fileiter.ends_find off h).bind fun it₁ k₁ hfind => .get ?_
    obtain ⟨hsame, hsought⟩ := hfind
    split
    · refine ends_kalloc.bind fun ok k₂ hdisk => ?_
      split
      · rw [← hdisk] at hsame
        exact (ih _ (hsought.toPlaced.congr hsame.inode hsame.buf)).mono fun _ _ hrest => hsame.trans hrest
      · exact .pure (hdisk ▸ hsame)
    · exact .pure hsame

theorem ends_prefetch (ino off : ℕ) : Ends k (prefetch ino off) fun _ k' => k.disk.Same k'.disk := by
  refine (ends_prefetchLoop 8 off (Fileiter.placed_fileiter k.disk ino)).bind fun it₁ k₁ hsame => ?_
  exact Fileiter.ends_destroy.mono fun _ _ hdisk => hdisk ▸ hsame

namespace DiskVnode

theorem ends_walkLoop (n : ℕ) (h : it.Placed k.disk) :
    Ends k (walkLoop n it) fun it' k' => k.disk.Same k'.disk ∧ it'.Placed k.disk ∧ it'.ino_ = it.ino_ := by
  induction n generalizing k it with
  | zero => exact .throw
  | succ n ih =>
    refine .get ?_
    split
    · refine (Fileiter.ends_next h).bind fun it₁ k₁ hnext => ?_
      obtain ⟨hsame, hplaced, hino⟩ := hnext
      refine (ih (hplaced.congr hsame.inode hsame.buf)).mono fun it' k' hrest => ?_
      obtain ⟨hsame', hplaced', hino'⟩ := hrest
      exact ⟨hsame.trans hsame', hplaced'.congr hsame.inode.symm hsame.buf.symm, hino'.trans hino⟩
    · exact .pure ⟨.refl _, h, rfl⟩

theorem ends_extend (offset_ : ℤ) (sz : ℕ) (h : it.Placed k.disk) (hok : FileOk k.disk it.ino_) :
    Ends k (extend it offset_ sz) fun it' k' => Grows k.disk it.ino_ k'.disk ∧ it'.Placed k'.disk ∧
      it'.ino_ = it.ino_ := by
  unfold extend
  dsimp only
  split
  swap
  · exact .pure ⟨.refl hok, h, rfl⟩
  generalize u32 _ = count
  refine (ends_allocate_extent count).bind fun first k₁ halloc => ?_
  by_cases hzero : count = 0
  · subst hzero
    have hsame := not_taken_of_allocate_zero halloc
    split
    · exact .pure ⟨.same hok hsame, h.congr hsame.inode hsame.buf, rfl⟩
    · exact (ends_insert_zero first).bind fun _ _ hfalse => hfalse.elim
  have halloc := Disk.allocate_extent_allocated (Nat.pos_of_ne_zero hzero) halloc
  split
  · next hcode =>
    rcases halloc with ⟨hsame, -, -, -⟩ | ⟨hrun, -, -⟩
    · exact .pure ⟨.same hok hsame, h.congr hsame.inode hsame.buf, rfl⟩
    · have hfits := hrun.fits
      rw [u32_eq.2.1] at hcode
      unfold bitsperblock at hfits
      omega
  next hcode =>
  rcases halloc with ⟨-, hcode', -, -⟩ | ⟨hrun, -, hmarked⟩
  · exact absurd hcode' hcode
  have hgrows := Grows.marked hok hrun hmarked
  have hfits : first + count < 2 ^ 32 := lt_of_le_of_lt hrun.fits (by decide)
  refine (Fileiter.ends_insert (h.congr hmarked.inode hmarked.buf) hgrows.ok.listOk hfits).bind
    fun r k₂ hins => ?_
  obtain ⟨hino, hplaced, -, hins⟩ := hins
  have hheld : ∀ b, Holds k₁.disk it.ino_ b → b ∉ Extent.mk first count := fun b hb =>
    hok.not_mem_run ((holds_congr (congrFun hmarked.inode _) hmarked.buf b).mp hb) hrun
  obtain ⟨hgrows', hfail⟩ := inserted_grows hins hgrows.ok hrun.fits
    (fun b hb => by rw [hmarked.bit, if_pos hb]) hheld
  have hgrows := hgrows.trans hgrows'
  obtain ⟨it', r⟩ := r
  dsimp only at *
  split
  · next hr =>
    -- the blocks are given back: none of them is in the file
    obtain ⟨hinode, hbuf⟩ := hfail hr
    refine (ends_free_extent first count).bind fun _ k₃ hfree => .pure ?_
    have hfreed := Disk.free_extent_marked hfree
    have hok₃ : FileOk k₃.disk it.ino_ := hgrows.ok.congr (congrFun hfreed.inode _) hfreed.buf fun b hb => by
      rw [hfreed.bit, if_neg (hheld b ((holds_congr (congrFun hinode _) hbuf b).mp hb))]
    refine ⟨hgrows.trans (.of_ok hok₃ (congrFun hfreed.inode _) (extentOf_congr (congrFun hfreed.inode _) hfreed.buf)),
      hplaced.congr hfreed.inode hfreed.buf, hino⟩
  · exact .pure ⟨hgrows, hplaced, hino⟩

/-- An offset inside the space given to the file. -/
def Inside (d : Disk) (ino : ℕ) (offset_ : ℤ) : Prop := 0 ≤ offset_ ∧ offset_ ≤ covered d ino

theorem Inside.mono {offset_ : ℤ} (h : Inside d ino offset_) (hle : covered d ino ≤ covered d' ino) :
    Inside d' ino offset_ :=
  ⟨h.1, h.2.trans (by exact_mod_cast hle)⟩

/-- It converts to `size_t` and back. -/
theorem Inside.u64 {offset_ : ℤ} (h : Inside d ino offset_) (hok : FileOk d ino) :
    (u64 offset_ : ℤ) = offset_ := by
  have hlt := covered_lt hok.listOk
  obtain ⟨hpos, hle⟩ := h
  unfold Fs.u64
  omega

/-- The offset after `n` bytes of the block that the iterator is in. -/
theorem inside_add {offset_ : ℤ} {n : ℕ} (h : Inside d ino offset_) (hok : FileOk d ino)
    (hsought : it.Sought d ino (u64 offset_)) (hptr : it.eptr_ ≠ none)
    (hn : n ≤ blocksize - it.off_ % blocksize) : Inside d ino (s64 (offset_ + n)) := by
  have hlt := covered_lt hok.listOk
  have hu := h.u64 hok
  rw [hsought.off_] at hn
  have hle := hsought.le_covered hptr hn
  obtain ⟨hpos, -⟩ := h
  unfold Inside s64
  omega

theorem ends_writeLoop (src : ℕ → UInt8) (sz n nwritten : ℕ) {offset_ : ℤ} (h : it.Placed k.disk)
    (hok : FileOk k.disk it.ino_) (hoff : Inside k.disk it.ino_ offset_) :
    Ends k (writeLoop src sz n it nwritten offset_) fun r k' => Grows k.disk it.ino_ k'.disk ∧
      Inside k'.disk it.ino_ r.2.2 := by
  induction n generalizing k it nwritten offset_ with
  | zero => exact .throw
  | succ n ih =>
    unfold writeLoop
    split
    swap
    · exact .pure ⟨.refl hok, hoff⟩
    refine (ends_prefetch _ _).bind fun _ k₁ hsame₁ => ?_
    refine (Fileiter.ends_find _ (h.congr hsame₁.inode hsame₁.buf)).bind fun it₂ k₂ hfind => ?_
    obtain ⟨hsame₂, hsought⟩ := hfind
    have hsought := hsought.congr hsame₂.inode hsame₂.buf
    have hgrows := Grows.same hok (hsame₁.trans hsame₂)
    have hoff := hoff.mono hgrows.covered
    refine (Fileiter.ends_iter_get_disk_entry it₂).bind fun e k₃ he => ?_
    obtain ⟨hsame₃, hbn⟩ := he
    cases e with
    | none => exact .pure ⟨hgrows.trans (.same hgrows.ok hsame₃), hoff.mono (Grows.same hgrows.ok hsame₃).covered⟩
    | some bn =>
      obtain ⟨rfl, hne⟩ := hbn bn rfl
      obtain ⟨hptr, hfirst, hmem⟩ := hsought.block hgrows.ok hne
      have hnext := inside_add hoff hgrows.ok hsought hptr (Nat.min_le_left _ (sz - nwritten))
      have hgrows₃ := Grows.same hgrows.ok hsame₃
      have hino := hsought.ino_
      dsimp only
      -- the block is one of the file, so its extents stay as they are
      have hmem₃ : it₂.blocknum k₂.disk ∈ extentOf k₃.disk it.ino_ it₂.eidx_ := by
        rw [extentOf_congr (congrFun hsame₃.inode _) hsame₃.buf]
        exact hmem
      have hfirst₃ : (extentOf k₃.disk it.ino_ it₂.eidx_).first ≠ 0 := by
        rw [extentOf_congr (congrFun hsame₃.inode _) hsame₃.buf]
        exact hfirst
      refine (ends_set_buf _ _).bind fun _ k₄ hset => (ends_put _).bind fun _ k₅ hput => ?_
      have hgrows₅ : Grows k₃.disk it.ino_ k₅.disk := by
        rw [hput, hset]
        exact (grows_setBuf _ hgrows₃.ok hfirst₃ hmem₃).1
      have hplaced : it₂.Placed k₅.disk := by
        refine (hsought.toPlaced.congr hsame₃.inode hsame₃.buf).of ?_ ?_
        · rw [hput, hset, hino]
          exact (grows_setBuf _ hgrows₃.ok hfirst₃ hmem₃).2
        · rw [hput, hset]
          rfl
      have hgrows₅ := hgrows₃.trans hgrows₅
      have hrest := ih (nwritten + min (blocksize - it₂.off_ % blocksize) (sz - nwritten))
        hplaced (by rw [hino]; exact hgrows₅.ok) (by rw [hino]; exact hnext.mono hgrows₅.covered)
      rw [hino] at hrest
      exact hrest.mono fun _ _ hr => ⟨(hgrows.trans hgrows₅).trans hr.1, hr.2⟩

theorem ends_readLoop (sz n : ℕ) (out : Str) {offset_ : ℤ} (h : it.Placed k.disk)
    (hok : FileOk k.disk it.ino_) (hoff : Inside k.disk it.ino_ offset_) :
    Ends k (readLoop sz n it out offset_) fun r k' => k.disk.Same k'.disk ∧
      Inside k.disk it.ino_ r.2.2 := by
  induction n generalizing k it out offset_ with
  | zero => exact .throw
  | succ n ih =>
    unfold readLoop
    dsimp only
    split
    swap
    · exact .pure ⟨.refl _, hoff⟩
    refine (ends_prefetch _ _).bind fun _ k₁ hsame₁ => ?_
    refine (Fileiter.ends_find _ (h.congr hsame₁.inode hsame₁.buf)).bind fun it₂ k₂ hfind => ?_
    obtain ⟨hsame₂, hsought⟩ := hfind
    have hsame₂ := hsame₁.trans hsame₂
    have hsought := hsought.congr hsame₁.inode.symm hsame₁.buf.symm
    refine (Fileiter.ends_iter_get_disk_entry it₂).bind fun e k₃ he => ?_
    obtain ⟨hsame₃, hbn⟩ := he
    have hsame₃ := hsame₂.trans hsame₃
    cases e with
    | none => exact .get ((ends_assert _).bind fun _ _ hempty => .pure (hempty.2 ▸ ⟨hsame₃, hoff⟩))
    | some bn =>
      obtain ⟨rfl, hne⟩ := hbn bn rfl
      obtain ⟨hptr, -, -⟩ := (hsought.congr hsame₂.inode hsame₂.buf).block (hok.same hsame₂) hne
      refine .get ((ends_put _).bind fun _ k₄ hput => ?_)
      rw [← hput] at hsame₃
      have hext : extentOf k₄.disk it.ino_ = extentOf k.disk it.ino_ :=
        extentOf_congr (congrFun hsame₃.inode _) hsame₃.buf
      have hino := hsought.ino_
      have hle : min (u64 (((k₃.disk.inode it₂.ino_).size : ℤ) - it₂.off_))
          (min (blocksize - it₂.off_ % blocksize) (sz - out.length)) ≤ blocksize - it₂.off_ % blocksize :=
        (Nat.min_le_right _ _).trans (Nat.min_le_left _ _)
      generalize min (u64 _) (min (blocksize - it₂.off_ % blocksize) (sz - out.length)) = ncopy at hle ⊢
      have hnext := inside_add hoff hok hsought hptr hle
      split
      · exact .pure ⟨hsame₃, hnext⟩
      · have hrest := ih (out ++ (List.range ncopy).map fun j =>
            k₃.disk.buf (it₂.blocknum k₂.disk) (it₂.off_ % blocksize + j))
          (hsought.toPlaced.congr hsame₃.inode hsame₃.buf) (by rw [hino]; exact hok.same hsame₃)
          (by rw [hino]; exact hnext.mono (covered_congr hext).ge)
        rw [hino] at hrest
        exact hrest.mono fun _ _ hr => ⟨hsame₃.trans hr.1, hr.2.mono (covered_congr hext).le⟩

/-! ## The operations of a vnode -/

/-- What an operation on a vnode leaves: a file in order, and an offset inside it. -/
structure After (d : Disk) (v : DiskVnode) (v' : DiskVnode) (d' : Disk) : Prop where
  ino_ : v'.ino_ = v.ino_
  ok : FileOk d' v.ino_
  covers : covered d v.ino_ ≤ covered d' v.ino_
  size : (d'.inode v.ino_).size ≤ covered d' v.ino_
  offset_ : Inside d' v.ino_ v'.offset_

variable {v v' v₁ : DiskVnode}

theorem After.of_grows (h : Grows d v.ino_ d') (hsize : (d.inode v.ino_).size ≤ covered d v.ino_)
    (hino : v'.ino_ = v.ino_) (hoff : Inside d' v.ino_ v'.offset_) : After d v v' d' :=
  ⟨hino, h.ok, h.covered, by rw [h.size]; exact hsize.trans h.covered, hoff⟩

theorem After.trans (h : After d v v₁ d₁) (h' : After d₁ v₁ v' d') : After d v v' d' := by
  obtain ⟨h₁, h₂, h₃, h₄, h₅⟩ := h'
  rw [h.ino_] at h₁ h₂ h₃ h₄ h₅
  exact ⟨h₁, h₂, h.covers.trans h₃, h₄, h₅⟩

/-- A change of the size. -/
theorem extentOf_setSize (d : Disk) (ino n : ℕ) :
    extentOf (d.setInode ino { d.inode ino with size := n }) ino = extentOf d ino := by
  funext i
  rw [extentOf_eq (Function.update_self _ _ _)]
  rfl

theorem fileOk_setSize (h : FileOk d ino) (n : ℕ) :
    FileOk (d.setInode ino { d.inode ino with size := n }) ino := by
  refine h.of (extentOf_setSize d ino n) ?_ fun b hb => h.holds hb
  unfold Disk.setInode
  dsimp only
  rw [Function.update_self]

theorem After.setSize (h : After d v v' d') {n : ℕ} (hn : n ≤ covered d' v.ino_) :
    After d v v' (d'.setInode v.ino_ { d'.inode v.ino_ with size := n }) := by
  have hcov := covered_congr (extentOf_setSize d' v.ino_ n)
  refine ⟨h.ino_, fileOk_setSize h.ok n, hcov ▸ h.covers, ?_, h.offset_.mono hcov.ge⟩
  rw [hcov]
  unfold Disk.setInode
  dsimp only
  rwa [Function.update_self]

theorem ends_write_nolock (src : ℕ → UInt8) (sz : ℕ) (hok : FileOk k.disk v.ino_)
    (hsize : (k.disk.inode v.ino_).size ≤ covered k.disk v.ino_) (hoff : Inside k.disk v.ino_ v.offset_) :
    Ends k (v.write_nolock src sz) fun r k' => After k.disk v r.2 k'.disk := by
  refine .get ((ends_walkLoop _ (Fileiter.placed_fileiter _ _)).bind fun it₁ k₁ hwalk => ?_)
  obtain ⟨hsame, hplaced, hino⟩ := hwalk
  have hino : it₁.ino_ = v.ino_ := hino
  have hgrows₁ := Grows.same hok hsame
  refine (ends_extend v.offset_ sz (hplaced.congr hsame.inode hsame.buf) (hino ▸ hgrows₁.ok)).bind
    fun it₂ k₂ hext => ?_
  obtain ⟨hgrows₂, hplaced₂, hino₂⟩ := hext
  rw [hino] at hgrows₂ hino₂
  have hgrows₂ := hgrows₁.trans hgrows₂
  refine (ends_writeLoop src sz _ 0 hplaced₂ (hino₂ ▸ hgrows₂.ok)
    (by rw [hino₂]; exact hoff.mono hgrows₂.covered)).bind fun r k₃ hwrite => ?_
  obtain ⟨it₃, nwritten, offset_⟩ := r
  obtain ⟨hgrows₃, hoff₃⟩ := hwrite
  rw [hino₂] at hgrows₃ hoff₃
  have hafter : After k.disk v { v with offset_ := offset_ } k₃.disk :=
    .of_grows (hgrows₂.trans hgrows₃) hsize rfl hoff₃
  refine (ends_set_inode _ _).bind fun _ k₄ hset => Fileiter.ends_destroy.bind fun _ k₅ hdisk => .pure ?_
  rw [hdisk, hset]
  refine hafter.setSize (Nat.max_le.mpr ⟨hafter.size, ?_⟩)
  -- the new size is the low part of an offset inside the file
  obtain ⟨hpos, hle⟩ := hoff₃
  dsimp only at hpos hle ⊢
  unfold u32
  omega

theorem ends_write (src : ℕ → UInt8) (sz : ℕ) (hok : FileOk k.disk v.ino_)
    (hsize : (k.disk.inode v.ino_).size ≤ covered k.disk v.ino_) (hoff : Inside k.disk v.ino_ v.offset_) :
    Ends k (v.write src sz) fun r k' => After k.disk v r.2 k'.disk := by
  unfold write
  split
  · exact .pure (.of_grows (.refl hok) hsize rfl hoff)
  refine (ends_lock_write _).bind fun _ k₁ hlock => ?_
  rw [← hlock] at hok hsize hoff ⊢
  refine (ends_write_nolock src sz hok hsize hoff).bind fun r k₂ hafter => ?_
  refine (ends_unlock_write _).bind fun _ k₃ hunlock => .pure ?_
  rw [hunlock]
  exact hafter

theorem ends_read (sz : ℕ) (hok : FileOk k.disk v.ino_)
    (hsize : (k.disk.inode v.ino_).size ≤ covered k.disk v.ino_) (hoff : Inside k.disk v.ino_ v.offset_) :
    Ends k (v.read sz) fun r k' => After k.disk v r.2.2 k'.disk := by
  unfold read
  split
  · exact .pure (.of_grows (.refl hok) hsize rfl hoff)
  refine (ends_lock_read _).bind fun _ k₁ hlock => ?_
  rw [← hlock] at hok hsize hoff ⊢
  refine (ends_readLoop sz _ [] (Fileiter.placed_fileiter _ _) hok hoff).bind fun r k₂ hread => ?_
  obtain ⟨hsame, hoff'⟩ := hread
  refine (ends_unlock_read _).bind fun _ k₃ hunlock => Fileiter.ends_destroy.bind fun _ k₄ hdisk => .pure ?_
  have hgrows := Grows.same hok hsame
  rw [hdisk, hunlock]
  exact .of_grows hgrows hsize rfl (hoff'.mono hgrows.covered)

/-- The offset that a seek asks for. -/
def target (v : DiskVnode) (fsz : ℕ) (off : ℤ) : Origin → ℤ
  | .LSEEK_SET => off
  | .LSEEK_CUR => s64 (v.offset_ + off)
  | .LSEEK_END => s64 (fsz + off)
  | .LSEEK_SIZE => v.offset_

theorem ends_lseek_nolock (off : ℤ) (origin : Origin) :
    Ends k (v.lseek_nolock off origin) fun r k' => k' = k ∧ (r = (E_INVAL, v) ∨
      v.seek_invalid (k.disk.inode v.ino_).size off origin = false ∧
        r = (v.target (k.disk.inode v.ino_).size off origin,
          { v with offset_ := v.target (k.disk.inode v.ino_).size off origin })) := by
  refine .get ?_
  dsimp only
  split
  · exact .pure ⟨rfl, .inl rfl⟩
  next hvalid =>
  have hvalid := Bool.eq_false_iff.mpr hvalid
  cases origin with
  | LSEEK_SET => exact .pure ⟨rfl, .inr ⟨hvalid, rfl⟩⟩
  | LSEEK_CUR => exact .pure ⟨rfl, .inr ⟨hvalid, rfl⟩⟩
  | LSEEK_END => exact .pure ⟨rfl, .inr ⟨hvalid, rfl⟩⟩
  | LSEEK_SIZE => exact .throw

/-- A seek that is allowed does not go beyond the end of the file. -/
theorem target_le {fsz : ℕ} {off : ℤ} {origin : Origin} (hvalid : v.seek_invalid fsz off origin = false)
    (horigin : origin ≠ .LSEEK_SIZE) (hlo : -2 ^ 63 ≤ off) (hfsz : fsz < 2 ^ 62) :
    v.target fsz off origin ≤ fsz := by
  unfold seek_invalid at hvalid
  simp only [decide_eq_false_iff_not, not_or, not_and, not_lt] at hvalid
  obtain ⟨hset, hcur, hend⟩ := hvalid
  cases origin with
  | LSEEK_SET => exact hset rfl
  | LSEEK_CUR =>
    have := hcur rfl
    rwa [add_comm] at this
  | LSEEK_END =>
    have := hend rfl
    unfold target s64
    dsimp only
    omega
  | LSEEK_SIZE => exact absurd rfl horigin

/-- The seek does not land before the start of the file. -/
def NotBefore (v : DiskVnode) (fsz : ℕ) (off : ℤ) : Origin → Prop
  | .LSEEK_SET => 0 ≤ off
  | .LSEEK_CUR => 0 ≤ s64 (v.offset_ + off)
  | .LSEEK_END => 0 ≤ fsz + off
  | .LSEEK_SIZE => True

theorem target_nonneg {fsz : ℕ} {off : ℤ} {origin : Origin} (h : v.NotBefore fsz off origin)
    (hvalid : v.seek_invalid fsz off origin = false) (horigin : origin ≠ .LSEEK_SIZE) (hfsz : fsz < 2 ^ 62) :
    0 ≤ v.target fsz off origin := by
  cases origin with
  | LSEEK_SET => exact h
  | LSEEK_CUR => exact h
  | LSEEK_END =>
    have hle : off ≤ 0 := by
      by_contra hgt
      unfold seek_invalid at hvalid
      simp [not_le.mp hgt] at hvalid
    have hnonneg : 0 ≤ (fsz : ℤ) + off := h
    unfold target s64
    dsimp only
    omega
  | LSEEK_SIZE => exact absurd rfl horigin

/-- `lseek_nolock` keeps the offset inside the file; if it fails nothing has changed. -/
theorem ends_seek {off : ℤ} {origin : Origin} (hok : FileOk k.disk v.ino_)
    (hsize : (k.disk.inode v.ino_).size ≤ covered k.disk v.ino_) (hoff : Inside k.disk v.ino_ v.offset_)
    (hlo : -2 ^ 63 ≤ off) (horigin : origin ≠ .LSEEK_SIZE)
    (hbefore : v.NotBefore (k.disk.inode v.ino_).size off origin) :
    Ends k (v.lseek_nolock off origin) fun r k' => k' = k ∧ r.2.ino_ = v.ino_ ∧ r.2.mode_ = v.mode_ ∧
      Inside k.disk v.ino_ r.2.offset_ ∧ (r = (E_INVAL, v) ∨ r.1 = r.2.offset_) := by
  refine (ends_lseek_nolock off origin).mono fun r k' hr => ?_
  obtain ⟨hk, rfl | ⟨hvalid, rfl⟩⟩ := hr
  · exact ⟨hk, rfl, rfl, hoff, .inl rfl⟩
  · have hlt : (k.disk.inode v.ino_).size < 2 ^ 62 := hsize.trans_lt (covered_lt hok.listOk)
    have hle := target_le hvalid horigin hlo hlt
    refine ⟨hk, rfl, rfl, ⟨target_nonneg hbefore hvalid horigin hlt, hle.trans ?_⟩, .inr rfl⟩
    exact_mod_cast hsize

theorem ends_lseek {off : ℤ} {origin : Origin} (hok : FileOk k.disk v.ino_)
    (hsize : (k.disk.inode v.ino_).size ≤ covered k.disk v.ino_) (hoff : Inside k.disk v.ino_ v.offset_)
    (hlo : -2 ^ 63 ≤ off) (hbefore : v.NotBefore (k.disk.inode v.ino_).size off origin) :
    Ends k (v.lseek off origin) fun r k' => After k.disk v r.2 k'.disk ∧
      (r.1 < 0 → r.2.offset_ = v.offset_) := by
  refine (ends_lock_read _).bind fun _ k₁ hlock => ?_
  rw [← hlock] at hok hsize hoff hbefore ⊢
  split
  · refine .get ((ends_unlock_read _).bind fun _ k₂ hunlock => .pure ⟨?_, fun _ => rfl⟩)
    rw [hunlock]
    exact .of_grows (.refl hok) hsize rfl hoff
  next horigin =>
  refine (ends_seek hok hsize hoff hlo horigin hbefore).bind fun r k₂ hseek => ?_
  obtain ⟨rfl, hino, -, hoff', hr⟩ := hseek
  refine (ends_unlock_read _).bind fun _ k₃ hunlock => ?_
  split
  · next heq =>
    refine .pure ?_
    rw [hunlock]
    refine ⟨.of_grows (.refl hok) hsize hino hoff', fun _ => ?_⟩
    rcases hr with rfl | hr
    · rfl
    · -- the result is the new offset, so it is not an error code
      have hpos := hoff'.1
      rw [← hr, heq] at hpos
      exact absurd hpos (by decide)
  · refine (ends_prefetch _ _).bind fun _ k₄ hsame => .pure ⟨?_, fun hneg => ?_⟩
    · rw [hunlock] at hsame
      have hgrows := Grows.same hok hsame
      exact .of_grows hgrows hsize hino (hoff'.mono hgrows.covered)
    · have hpos := hoff'.1
      dsimp only at hneg
      omega

theorem ends_ftruncate {len : ℤ} (hlen : 0 ≤ len) (hok : FileOk k.disk v.ino_)
    (hsize : (k.disk.inode v.ino_).size ≤ covered k.disk v.ino_) (hoff : Inside k.disk v.ino_ v.offset_) :
    Ends k (v.ftruncate len) fun r k' => After k.disk v r.2 k'.disk := by
  refine (ends_lock_write _).bind fun _ k₁ hlock => .get ?_
  rw [← hlock] at hok hsize hoff ⊢
  dsimp only
  split
  · next hshrink =>
    have hcut : u32 len ≤ (k₁.disk.inode v.ino_).size := by
      unfold u32
      omega
    refine (ends_set_inode _ _).bind fun _ k₂ hset => ?_
    have hafter : After k₁.disk v v k₂.disk := by
      rw [hset]
      exact (After.of_grows (.refl hok) hsize rfl hoff).setSize (hcut.trans hsize)
    split
    · refine (ends_seek hafter.ok hafter.size hafter.offset_ (by decide) (by decide) ?_).bind
        fun r k₃ hseek => ?_
      · show (0 : ℤ) ≤ _
        omega
      obtain ⟨rfl, hino, -, hoff', -⟩ := hseek
      refine (ends_unlock_write _).bind fun _ k₄ hunlock => .pure ?_
      rw [hunlock]
      exact ⟨hino, hafter.ok, hafter.covers, hafter.size, hoff'⟩
    · refine (ends_unlock_write _).bind fun _ k₃ hunlock => .pure ?_
      rw [hunlock]
      exact hafter
  · -- the file is extended from its end on, and the offset is put back
    refine (ends_seek hok hsize hoff (by decide) (by decide) ?_).bind fun r k₂ hseek => ?_
    · show (0 : ℤ) ≤ _
      omega
    obtain ⟨end_, v₁⟩ := r
    obtain ⟨rfl, hino, -, hoff₁, -⟩ := hseek
    dsimp only at hino hoff₁ ⊢
    rw [← hino] at hok hsize hoff₁
    refine (ends_write_nolock _ _ hok hsize hoff₁).bind fun r k₃ hwrite => ?_
    obtain ⟨sz, v₂⟩ := r
    have hino₂ : v₂.ino_ = v.ino_ := hwrite.ino_.trans hino
    have hok₃ := hwrite.ok
    have hcov₃ := hwrite.covers
    have hsize₃ := hwrite.size
    have hoff₃ := hwrite.offset_
    rw [hino] at hok₃ hcov₃ hsize₃ hoff₃
    refine (ends_lseek_nolock _ _).bind fun r k₄ hseek => ?_
    obtain ⟨rfl, hr⟩ := hseek
    refine (ends_unlock_write _).bind fun _ k₅ hunlock => .pure ?_
    rw [hunlock]
    rcases hr with rfl | ⟨-, rfl⟩
    · exact ⟨hino₂, hok₃, hcov₃, hsize₃, hoff₃⟩
    · exact ⟨hino₂, hok₃, hcov₃, hsize₃, hoff.mono hcov₃⟩

end DiskVnode

/-! ## Runs -/

/-- The kernel, and the open vnodes of a file. -/
structure FileState (V : Type) where
  k : Kernel
  vnodes : V → DiskVnode

namespace FileState

variable {V : Type}

/-- A system call on one of the vnodes. -/
def next [DecidableEq V] (s : FileState V) : V × FileCall → Option (FileState V)
  | (v, c) =>
    match c.run (s.vnodes v) s.k with
    | .ok ((_, v'), k) => some ⟨k, Function.update s.vnodes v v'⟩
    | .error _ => none

/-- The vnodes of a file in order have just been opened. -/
structure Opened (ino : ℕ) (s : FileState V) : Prop where
  ok : FileOk s.k.disk ino
  size : (s.k.disk.inode ino).size ≤ covered s.k.disk ino
  vnodes : ∀ v, (s.vnodes v).ino_ = ino ∧ (s.vnodes v).offset_ = 0

/-- A seek does not land before the start of the file. -/
def SeekOk (s : FileState V) : V × FileCall → Prop
  | (v, .lseek off origin) =>
    (s.vnodes v).NotBefore (s.k.disk.inode (s.vnodes v).ino_).size (s64 off) origin
  | _ => True

/-- The offsets of all vnodes are inside the space given to the file, and so is its size. -/
structure InRange (ino : ℕ) (s : FileState V) : Prop where
  ok : FileOk s.k.disk ino
  size : (s.k.disk.inode ino).size ≤ covered s.k.disk ino
  vnodes : ∀ v, (s.vnodes v).ino_ = ino ∧ DiskVnode.Inside s.k.disk ino (s.vnodes v).offset_

variable {s s' : FileState V} {ino : ℕ}

theorem Opened.inRange (h : Opened ino s) : InRange ino s := by
  refine ⟨h.ok, h.size, fun v => ⟨(h.vnodes v).1, ?_⟩⟩
  rw [(h.vnodes v).2]
  exact ⟨le_rfl, Int.natCast_nonneg _⟩

theorem s64_ge (x : ℤ) : -2 ^ 63 ≤ s64 x := by
  unfold s64
  omega

/-- **A system call on a vnode in range.** -/
theorem ends_run {v : DiskVnode} {k : Kernel} {c : FileCall} (hok : FileOk k.disk v.ino_)
    (hsize : (k.disk.inode v.ino_).size ≤ covered k.disk v.ino_)
    (hoff : DiskVnode.Inside k.disk v.ino_ v.offset_)
    (hseek : ∀ off origin, c = .lseek off origin → v.NotBefore (k.disk.inode v.ino_).size (s64 off) origin) :
    Ends k (c.run v) fun r k' => DiskVnode.After k.disk v r.2 k'.disk := by
  cases c with
  | lseek off origin =>
    exact (DiskVnode.ends_lseek hok hsize hoff (s64_ge off) (hseek off origin rfl)).mono fun _ _ hr => hr.1
  | read sz => exact (DiskVnode.ends_read _ hok hsize hoff).bind fun _ _ hr => .pure hr
  | write src sz => exact DiskVnode.ends_write _ _ hok hsize hoff
  | ftruncate len =>
    show Ends k (if s64 len < 0 then pure (E_INVAL, v) else v.ftruncate (s64 len)) _
    split
    · exact .pure (.of_grows (.refl hok) hsize rfl hoff)
    · next hlen => exact DiskVnode.ends_ftruncate (not_lt.mp hlen) hok hsize hoff

variable [DecidableEq V]

theorem next_inRange {a : V × FileCall} (h : InRange ino s) (hok : SeekOk s a) (hs : s.next a = some s') :
    InRange ino s' := by
  obtain ⟨v, c⟩ := a
  obtain ⟨hino, hinside⟩ := h.vnodes v
  unfold next at hs
  dsimp only at hs
  split at hs
  swap
  · cases hs
  next r v' k' hrun =>
  cases hs
  have hafter := ends_run (hino ▸ h.ok) (hino ▸ h.size) (hino ▸ hinside)
    (fun off origin hc => by subst hc; exact hok) _ _ hrun
  obtain ⟨hino', hok', hcovers, hsize', hinside'⟩ := hafter
  rw [hino] at hino' hok' hcovers hsize' hinside'
  refine ⟨hok', hsize', fun w => ?_⟩
  by_cases hw : w = v
  · subst hw
    dsimp only
    rw [Function.update_self]
    exact ⟨hino', hinside'⟩
  · dsimp only
    rw [Function.update_of_ne hw]
    exact ⟨(h.vnodes w).1, (h.vnodes w).2.mono hcovers⟩

theorem reach_inRange (h : Reach (Opened ino) (fun s a s' => s.next a = some s') SeekOk s) :
    InRange ino s := by
  refine Reach.invariant (P := InRange ino) (fun _ hinit => hinit.inRange) ?_ h
  exact fun _ _ _ hin hok hs => next_inRange hin hok hs

/--
**As long as no seek lands before the start of the file**, offsets are not negative, the size is within the
extents, and a seek that fails leaves the offset alone.
-/
theorem seek_in_range (h : Reach (Opened ino) (fun s a s' => s.next a = some s') SeekOk s) :
    (∀ v, 0 ≤ (s.vnodes v).offset_) ∧ (s.k.disk.inode ino).size ≤ covered s.k.disk ino ∧
      ∀ v off origin r v' k', SeekOk s (v, .lseek off origin) →
        Returns ((s.vnodes v).lseek (s64 off) origin) s.k (r, v') k' → r < 0 →
          v'.offset_ = (s.vnodes v).offset_ := by
  have hin := reach_inRange h
  refine ⟨fun v => (hin.vnodes v).2.1, hin.size, fun v off origin r v' k' hok hret => ?_⟩
  obtain ⟨hino, hinside⟩ := hin.vnodes v
  exact (DiskVnode.ends_lseek (hino ▸ hin.ok) (hino ▸ hin.size) (hino ▸ hinside) (s64_ge off) hok _ _ hret).2

/-! A file of one block with two vnodes. -/

instance (v : DiskVnode) (fsz : ℕ) (off : ℤ) (origin : Origin) :
    Decidable (v.NotBefore fsz off origin) := by
  cases origin <;> unfold DiskVnode.NotBefore <;> infer_instance

instance (s : FileState V) (a : V × FileCall) : Decidable (SeekOk s a) :=
  match a with
  | (v, .lseek off origin) =>
    inferInstanceAs (Decidable ((s.vnodes v).NotBefore (s.k.disk.inode (s.vnodes v).ino_).size (s64 off) origin))
  | (_, .read _) => .isTrue trivial
  | (_, .write _ _) => .isTrue trivial
  | (_, .ftruncate _) => .isTrue trivial

def oneBlock : FileState Bool where
  k :=
    { disk := Disk.file (fun i => if i = 0 then ⟨10, 1⟩ else ⟨0, 0⟩) ⟨0, 0⟩
      ref_ := fun _ => 0
      mlock := fun _ => .readers 0
      disk_vnodes := {2, 2}
      fdtable_ := fun _ => none
      name := [47]
      mem := fun _ => true
      stack := []
      sata_disk := true }
  vnodes := fun _ => ⟨2, 3, 0⟩

theorem oneBlock_extentOf (i : ℕ) :
    extentOf oneBlock.k.disk 2 i = if i = 0 then ⟨10, 1⟩ else ⟨0, 0⟩ := by
  unfold extentOf
  by_cases hi : i < ndirect
  · rw [if_pos hi]
    rfl
  · have hzero : i ≠ 0 := fun h => hi (by rw [h]; decide)
    rw [if_neg hi, if_neg hzero]
    exact if_pos (Nat.zero_le _)

theorem oneBlock_opened : Opened 2 oneBlock := by
  refine ⟨⟨fun i => ?_, fun i => ?_, fun _ _ _ _ => ?_, Nat.zero_le _, fun hone => by cases hone⟩, ?_,
    fun v => ⟨rfl, rfl⟩⟩
  · rw [oneBlock_extentOf]
    split
    · exact ⟨by decide, by decide⟩
    · exact ⟨by decide, by decide⟩
  · rw [oneBlock_extentOf]
    split
    · decide
    · exact fun h => absurd rfl h
  · exact BitVec.getLsbD_zero
  · refine le_trans ?_ (le_covered (n := 1) fun i hi => ?_)
    · decide
    · rw [oneBlock_extentOf, if_pos (Nat.lt_one_iff.mp hi)]
      decide

theorem seek_in_range_run : ∃ s : FileState Bool,
    exec next (fun s a => decide (SeekOk s a)) oneBlock [(true, .lseek 100 .LSEEK_SET), (true, .read 50),
      (false, .ftruncate 20), (false, .lseek (-5) .LSEEK_END), (true, .write (fun _ => 7) 3)] = some s ∧
    (∀ v, 0 ≤ (s.vnodes v).offset_) ∧ (s.k.disk.inode 2).size ≤ covered s.k.disk 2 ∧
      ∀ v off origin r v' k', SeekOk s (v, .lseek off origin) →
        Returns ((s.vnodes v).lseek (s64 off) origin) s.k (r, v') k' → r < 0 →
          v'.offset_ = (s.vnodes v).offset_ := by
  obtain ⟨s, hs⟩ := Option.isSome_iff_exists.mp (show (exec next (fun s a => decide (SeekOk s a)) oneBlock
    [(true, .lseek 100 .LSEEK_SET), (true, .read 50), (false, .ftruncate 20),
      (false, .lseek (-5) .LSEEK_END), (true, .write (fun _ => 7) 3)]).isSome = true by decide +kernel)
  exact ⟨s, hs, seek_in_range (Reach.exec (fun _ _ => of_decide_eq_true) (.init oneBlock_opened) hs)⟩

/--
A seek to offset -22 stores it and returns it, which is `E_INVAL`. A write of no bytes at that offset takes
its low 32 bits as the size of the file.
-/
theorem seek_before_start : ∃ s s₁ s₂ : FileState Bool, Opened 2 s ∧
    (∃ v' k', Returns ((s.vnodes true).lseek (s64 (-22)) .LSEEK_SET) s.k (E_INVAL, v') k' ∧
      v'.offset_ ≠ (s.vnodes true).offset_) ∧
    s.next (true, .lseek (-22) .LSEEK_SET) = some s₁ ∧ (s₁.vnodes true).offset_ = -22 ∧
    s₁.next (true, .write (fun _ => 0) 0) = some s₂ ∧
    (s₂.k.disk.inode 2).size = 4294967274 ∧ covered s₂.k.disk 2 ≤ 4096 := by
  have hseek : (((oneBlock.vnodes true).lseek (s64 (-22)) .LSEEK_SET oneBlock.k).toOption.map
      fun r => (r.1.1, r.1.2.offset_)) = some (E_INVAL, -22) := by decide +kernel
  have hfirst : ((oneBlock.next (true, .lseek (-22) .LSEEK_SET)).map fun s => (s.vnodes true).offset_) =
      some (-22) := by decide +kernel
  have hsecond : (((oneBlock.next (true, .lseek (-22) .LSEEK_SET)).bind fun s =>
      s.next (true, .write (fun _ => 0) 0)).map fun s =>
        ((s.k.disk.inode 2).size, (extentOf s.k.disk 2 0).count, (extentOf s.k.disk 2 1).count)) =
      some (4294967274, 1, 0) := by decide +kernel
  obtain ⟨s₁, h₁, hoff⟩ := Option.map_eq_some_iff.mp hfirst
  rw [h₁, Option.bind_some] at hsecond
  obtain ⟨s₂, h₂, hsize⟩ := Option.map_eq_some_iff.mp hsecond
  simp only [Prod.mk.injEq] at hsize
  obtain ⟨hsize, hzero, hone⟩ := hsize
  refine ⟨oneBlock, s₁, s₂, oneBlock_opened, ?_, h₁, hoff, h₂, hsize, ?_⟩
  · cases hret : (oneBlock.vnodes true).lseek (s64 (-22)) .LSEEK_SET oneBlock.k with
    | error e =>
      rw [hret] at hseek
      cases hseek
    | ok r =>
      obtain ⟨⟨r, v'⟩, k'⟩ := r
      rw [hret] at hseek
      obtain ⟨rfl, hoff'⟩ := Prod.mk.inj (Option.some.inj hseek)
      refine ⟨v', k', hret, fun heq => ?_⟩
      rw [heq] at hoff'
      cases hoff'
  · refine (covered_le hone).trans ?_
    rw [psum_succ, psum_zero, hzero]
    exact le_rfl

end FileState

end Chickadee.Chkfs
