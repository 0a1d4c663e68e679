import Chickadee.Fs.Fbb

/-!
# Freed inodes: `free_inode` and `allocate_inode`

`free_inode` gives back the direct extents. For those in an indirect block it reads the buffer cache
entry itself (`reinterpret_cast<extent*>(iee)`) in place of the block it holds (`iee->buf_`), and it
never clears `indirect`, which the next file finds in its inode.
-/

namespace Chickadee.Fs

open Lib

namespace Disk

/-- The loops of `free_inode` over up to `n` extents from index `k` on: they end at a count of zero. -/
def freeExtents (d : Disk) (ex : ℕ → Extent) : ℕ → ℕ → Option (Disk × (ℕ → Extent) × ℕ)
  | 0, k => some (d, ex, k)
  | n + 1, k =>
    if (ex k).count = 0 then some (d, ex, k)
    else (d.free_extent (ex k).first (ex k).count).bind fun d =>
      freeExtents d (Function.update ex k ⟨0, 0⟩) n (k + 1)

/--
`free_inode(dirino, ino)`. `mem` is the kernel's memory from the buffer cache entry of the indirect
block on, as extents. `none`: an assertion fails. What a damaged entry leads to later is not modelled.
-/
def free_inode (d : Disk) (dirino i : ℕ) (mem : ℕ → Extent) : Option (Disk × (ℕ → Extent)) :=
  if dirino = i then none
  else
    let ino := d.inode i
    (d.freeExtents ino.direct ndirect 0).bind fun (d, direct, eidx) =>
      let free (d : Disk) : Disk :=
        d.setInode i { ino with type := 0, size := 0, nlink := 0, direct := direct }
      if eidx = ndirect ∧ ino.indirect.count ≠ 0 then
        if ino.indirect.count = 1 ∧ d.avail 0 = true then
          (d.get_disk_entry.2.freeExtents mem extentsperblock 0).bind fun (d, mem, _) =>
            (d.free_extent ino.indirect.first ino.indirect.count).map fun d => (free d, mem)
        else none
      else some (free d, mem)

/-- The loop of `allocate_inode`, with `n` inodes to go from `inum` on. -/
def allocateLoop (d : Disk) (type : ℕ) : ℕ → ℕ → Disk × ℕ
  | 0, _ => (d, 0)
  | n + 1, inum =>
    let (entry, d) := d.get_disk_entry
    if entry = true ∧ (d.inode inum).type = 0 then
      (d.setInode inum { d.inode inum with type := type, flags := linked, size := 0, nlink := 1 }, inum)
    else allocateLoop d type n (inum + 1)

/-- `allocate_inode(type)`: the number of the inode, or 0. -/
def allocate_inode (d : Disk) (type : ℕ) : Option (Disk × ℕ) :=
  d.superblock.map fun d => d.allocateLoop type (d.sb.ninodes - 2) 2

/-! ## The extents of an inode -/

/-- An inode with `n` direct extents, and an indirect block only if these are all of them. -/
structure WellFormed (d : Disk) (i n : ℕ) : Prop where
  inum : 2 ≤ i ∧ i < d.sb.ninodes
  le : n ≤ ndirect
  count : ∀ k < n, ((d.inode i).direct k).count ≠ 0
  stop : ∀ k, n ≤ k → k < ndirect → ((d.inode i).direct k).count = 0
  bound : ∀ k < n, ((d.inode i).direct k).first + ((d.inode i).direct k).count ≤ bitsperblock
  indirect : (d.inode i).indirect.count = 0 ∨ (d.inode i).indirect.count = 1 ∧ n = ndirect

/-- The blocks of an inode: its direct extents, its indirect block, and the extents stored in it. -/
def Owns (d : Disk) (i b : ℕ) : Prop :=
  (∃ k < ndirect, b ∈ (d.inode i).direct k) ∨
    (d.inode i).indirect.count ≠ 0 ∧ (b = (d.inode i).indirect.first ∨
      ∃ k < extentsperblock, (∀ j ≤ k, (extentAt (d.buf (d.inode i).indirect.first) j).count ≠ 0) ∧
        b ∈ extentAt (d.buf (d.inode i).indirect.first) k)

/-- No direct extent and no indirect block. -/
def Empty (ino : Inode) : Prop := (∀ k < ndirect, (ino.direct k).count = 0) ∧ ino.indirect.count = 0

/-- The claim: `free_inode` frees exactly the blocks of the inode, and the next file starts empty. -/
def FreesExactly (d : Disk) (dirino i : ℕ) (mem : ℕ → Extent) : Prop :=
  ∃ d' mem', d.free_inode dirino i mem = some (d', mem') ∧
    (∀ b, d'.fbb.bit b = true ↔ Owns d i b ∨ d.fbb.bit b = true) ∧
    mem' = mem ∧ d'.buf = d.buf ∧ (∀ j, j ≠ i → d'.inode j = d.inode j) ∧ (d'.inode i).type = 0 ∧
    ∀ (d₁ d₂ : Disk) (type : ℕ), d₁.inode i = d'.inode i → d₁.allocate_inode type = some (d₂, i) → Empty (d₂.inode i)

variable {d d' : Disk} {ex ex' mem mem' : ℕ → Extent} {i n k m dirino : ℕ}

/-! ## The loop over the extents -/

/-- `free_extent` asks for two entries. -/
theorem free_extent_avail {first count : ℕ} (h : d.free_extent first count = some d') (j : ℕ) :
    d'.avail j = d.avail (j + 2) := by
  unfold free_extent superblock at h
  split at h
  · cases h
  · next d₁ hsb =>
    split at hsb
    · cases hsb
      dsimp only at h
      split at h
      · split at h
        · cases h
        · cases h
          rfl
      · cases h
    · cases hsb

/-- What the loop leaves after it has freed the extents from `k` to `k'`. -/
structure Freed (d : Disk) (ex : ℕ → Extent) (k : ℕ) (d' : Disk) (ex' : ℕ → Extent) (k' : ℕ) : Prop where
  le : k ≤ k'
  count : ∀ j, k ≤ j → j < k' → (ex j).count ≠ 0
  bit : ∀ b, d'.fbb.bit b = true ↔ (∃ j, k ≤ j ∧ j < k' ∧ b ∈ ex j) ∨ d.fbb.bit b = true
  ex : ∀ j, ex' j = if k ≤ j ∧ j < k' then ⟨0, 0⟩ else ex j
  sb : d'.sb = d.sb
  inode : d'.inode = d.inode
  buf : d'.buf = d.buf
  avail : ∀ j, d'.avail j = d.avail (j + 2 * (k' - k))

theorem Freed.refl (d : Disk) (ex : ℕ → Extent) (k : ℕ) : Freed d ex k d ex k := by
  refine ⟨le_rfl, fun j hj hlt => by omega, fun b => ⟨Or.inr, fun h => ?_⟩, fun j => ?_, rfl, rfl, rfl,
    fun j => by rw [Nat.sub_self]; rfl⟩
  · rcases h with ⟨j, hj, hlt, -⟩ | h
    · omega
    · exact h
  · rw [if_neg (by omega)]

theorem freeExtents_freed {k' : ℕ} (h : d.freeExtents ex n k = some (d', ex', k')) :
    Freed d ex k d' ex' k' ∧ k' ≤ k + n ∧ (k' < k + n → (ex k').count = 0) := by
  induction n generalizing d ex k with
  | zero =>
    cases h
    exact ⟨.refl d' ex' k', le_rfl, fun hlt => by omega⟩
  | succ n ih =>
    unfold freeExtents at h
    split at h
    · next hzero =>
      cases h
      exact ⟨.refl d' ex' k', by omega, fun _ => hzero⟩
    · next hcount =>
      obtain ⟨d₁, hfree, hrest⟩ := Option.bind_eq_some_iff.mp h
      have hmarked := free_extent_marked hfree
      obtain ⟨hf, hle, hstop⟩ := ih hrest
      have hlt : k < k' := hf.le
      have hother : ∀ j, k < j → Function.update ex k ⟨0, 0⟩ j = ex j := fun j hj =>
        Function.update_of_ne (by omega) _ _
      refine ⟨⟨by omega, fun j hj hjk => ?_, fun b => ?_, fun j => ?_, hf.sb.trans hmarked.sb,
        hf.inode.trans hmarked.inode, hf.buf.trans hmarked.buf, fun j => ?_⟩, by omega, fun hlt' => ?_⟩
      · rcases hj.eq_or_lt with rfl | hj
        · exact hcount
        · rw [← hother j hj]
          exact hf.count j hj hjk
      · rw [hf.bit, hmarked.bit]
        constructor
        · rintro (⟨j, hj, hjk, hb⟩ | hb)
          · exact .inl ⟨j, by omega, hjk, by rwa [hother j hj] at hb⟩
          · split at hb
            · next hmem => exact .inl ⟨k, le_rfl, hlt, hmem⟩
            · exact .inr hb
        · rintro (⟨j, hj, hjk, hb⟩ | hb)
          · rcases hj.eq_or_lt with rfl | hj
            · right
              rw [if_pos hb]
            · exact .inl ⟨j, hj, hjk, by rwa [hother j hj]⟩
          · right
            split
            · rfl
            · exact hb
      · rw [hf.ex]
        by_cases hjk : j = k
        · subst hjk
          rw [if_neg (by omega), if_pos ⟨le_rfl, hlt⟩, Function.update_self]
        · rw [Function.update_of_ne hjk]
          by_cases hin : k + 1 ≤ j ∧ j < k'
          · rw [if_pos hin, if_pos ⟨by omega, hin.2⟩]
          · rw [if_neg hin, if_neg (by omega)]
      · rw [hf.avail, free_extent_avail hfree]
        congr 1
        omega
      · rw [← hother k' hlt]
        exact hstop (by omega)

/-- The loop returns if the entries it needs are there. -/
theorem exists_freeExtents_iff (hmn : m ≤ n) (hcount : ∀ j, k ≤ j → j < k + m → (ex j).count ≠ 0)
    (hstop : m < n → (ex (k + m)).count = 0)
    (hbound : ∀ j, k ≤ j → j < k + m → (ex j).first + (ex j).count ≤ bitsperblock) :
    (∃ r, d.freeExtents ex n k = some r) ↔ ∀ j < 2 * m, d.avail j = true := by
  induction m generalizing d ex n k with
  | zero =>
    refine ⟨fun _ j hj => by omega, fun _ => ?_⟩
    cases n with
    | zero => exact ⟨_, rfl⟩
    | succ n => exact ⟨_, if_pos (hstop (Nat.succ_pos n))⟩
  | succ m ih =>
    obtain ⟨n, rfl⟩ := Nat.exists_eq_add_of_le' (show 1 ≤ n by omega)
    have hother : ∀ j, k < j → Function.update ex k ⟨0, 0⟩ j = ex j := fun j hj =>
      Function.update_of_ne (by omega) _ _
    have hrest : ∀ d₁ : Disk, (∃ r, d₁.freeExtents (Function.update ex k ⟨0, 0⟩) n (k + 1) = some r) ↔
        ∀ j < 2 * m, d₁.avail j = true := fun d₁ => by
      refine ih (by omega) (fun j hj hlt => ?_) (fun hlt => ?_) fun j hj hlt => ?_
      · rw [hother j hj]
        exact hcount j (by omega) (by omega)
      · rw [hother _ (by omega), show k + 1 + m = k + (m + 1) by omega]
        exact hstop (by omega)
      · rw [hother j hj]
        exact hbound j (by omega) (by omega)
    have hk := hcount k le_rfl (by omega)
    have hfirst : (∃ d₁, d.free_extent (ex k).first (ex k).count = some d₁) ↔ _ := free_extent_isSome_iff
    unfold freeExtents
    rw [if_neg hk]
    constructor
    · rintro ⟨r, hr⟩ j hj
      obtain ⟨d₁, hfree, hr⟩ := Option.bind_eq_some_iff.mp hr
      obtain ⟨h₀, h₁, -⟩ := hfirst.mp ⟨d₁, hfree⟩
      match j with
      | 0 => exact h₀
      | 1 => exact h₁
      | j + 2 =>
        rw [← free_extent_avail hfree]
        exact (hrest d₁).mp ⟨r, hr⟩ j (by omega)
    · intro havail
      obtain ⟨d₁, hfree⟩ := hfirst.mpr
        ⟨havail 0 (by omega), havail 1 (by omega), .inr (hbound k le_rfl (by omega))⟩
      obtain ⟨r, hr⟩ := (hrest d₁).mpr fun j hj => by
        rw [free_extent_avail hfree]
        exact havail (j + 2) (by omega)
      exact ⟨r, Option.bind_eq_some_iff.mpr ⟨d₁, hfree, hr⟩⟩

/-! ## The next file -/

/-- What `allocate_inode` does when it finds a free inode: the extents in it stay. -/
structure NewInode (d : Disk) (type : ℕ) (d' : Disk) (i : ℕ) : Prop where
  bound : 2 ≤ i ∧ i < d.sb.ninodes
  free : (d.inode i).type = 0
  inode : d'.inode = Function.update d.inode i
    { d.inode i with type := type, flags := linked, size := 0, nlink := 1 }
  fbb : d'.fbb = d.fbb
  buf : d'.buf = d.buf
  sb : d'.sb = d.sb

theorem allocateLoop_cases {type inum : ℕ} (hlo : 2 ≤ inum) (hhi : inum + n ≤ d.sb.ninodes)
    (h : d.allocateLoop type n inum = (d', i)) : i = 0 ∧ d.Same d' ∨ NewInode d type d' i := by
  induction n generalizing d inum with
  | zero =>
    cases h
    exact .inl ⟨rfl, .refl d'⟩
  | succ n ih =>
    have hsame := same_get_disk_entry d
    unfold allocateLoop at h
    dsimp only at h
    split at h
    · next hfree =>
      cases h
      exact .inr ⟨⟨hlo, by omega⟩, hfree.2, rfl, rfl, rfl, rfl⟩
    · rcases ih (d := d.get_disk_entry.2) (by omega) (Nat.le_trans (by omega) hhi) h with
        ⟨hi, hrest⟩ | hnew
      · exact .inl ⟨hi, hsame.trans hrest⟩
      · exact .inr ⟨hnew.bound, hnew.free, hnew.inode, hnew.fbb, hnew.buf, hnew.sb⟩

theorem allocate_inode_cases {type : ℕ} (h : d.allocate_inode type = some (d', i)) :
    i = 0 ∧ d.Same d' ∨ NewInode d type d' i := by
  obtain ⟨d₁, hsb, hloop⟩ := Option.map_eq_some_iff.mp h
  have hsame := same_superblock hsb
  by_cases hn : 2 ≤ d₁.sb.ninodes
  · rcases allocateLoop_cases le_rfl (by omega) hloop with ⟨hi, hrest⟩ | hnew
    · exact .inl ⟨hi, hsame.trans hrest⟩
    · obtain ⟨h₁, h₂, h₃, h₄, h₅, h₆⟩ := hnew
      rw [hsame.sb] at h₁ h₆
      rw [hsame.inode] at h₂ h₃
      rw [hsame.fbb] at h₄
      rw [hsame.buf] at h₅
      exact .inr ⟨h₁, h₂, h₃, h₄, h₅, h₆⟩
  · rw [show d₁.sb.ninodes - 2 = 0 by omega] at hloop
    cases hloop
    exact .inl ⟨rfl, hsame⟩

theorem allocate_inode_extents {type : ℕ} (h : d.allocate_inode type = some (d', i)) (hi : i ≠ 0) :
    (d'.inode i).direct = (d.inode i).direct ∧ (d'.inode i).indirect = (d.inode i).indirect := by
  rcases allocate_inode_cases h with ⟨hzero, -⟩ | hnew
  · exact absurd hzero hi
  · rw [hnew.inode]
    simp

/-- A free inode is allocated when those before it are taken. -/
theorem exists_allocate_inode (hi : 2 ≤ i ∧ i < d.sb.ninodes) (ino : Inode) (htype : ino.type = 0) :
    ∃ d₁ d₂ : Disk, d₁.inode i = ino ∧ d₁.allocate_inode type_regular = some (d₂, i) := by
  have hloop : ∀ n inum, ∀ d₁ : Disk, d₁.AllAvail → inum ≤ i → i < inum + n →
      (∀ j, inum ≤ j → j < i → (d₁.inode j).type ≠ 0) → (d₁.inode i).type = 0 →
      ∃ d₂, d₁.allocateLoop type_regular n inum = (d₂, i) := by
    intro n
    induction n with
    | zero => intro inum d₁ _ hle hlt; omega
    | succ n ih =>
      intro inum d₁ havail hle hlt htaken hfree
      unfold allocateLoop
      dsimp only
      by_cases hin : inum = i
      · subst hin
        exact ⟨_, if_pos ⟨havail.avail 0, hfree⟩⟩
      · rw [if_neg fun h => htaken inum le_rfl (by omega) h.2]
        refine ih (inum + 1) d₁.get_disk_entry.2 ((same_get_disk_entry d₁).allAvail havail) (by omega)
          (by omega) (fun j hj => htaken j (by omega)) hfree
  let d₁ : Disk :=
    { d with
      inode := fun j => if j = i then ino else { ino with type := type_regular }
      avail := fun _ => true
      availNew := fun _ => true }
  have havail : d₁.AllAvail := ⟨fun _ => rfl, fun _ => rfl⟩
  obtain ⟨d₂, h₂⟩ := hloop (d.sb.ninodes - 2) 2 d₁.get_disk_entry.2
    ((same_get_disk_entry d₁).allAvail havail) hi.1 (by omega)
    (fun j _ hj => by
      show (if j = i then ino else { ino with type := type_regular }).type ≠ 0
      rw [if_neg (by omega)]
      exact Nat.one_ne_zero)
    (by
      show (if i = i then ino else { ino with type := type_regular }).type = 0
      rw [if_pos rfl]
      exact htype)
  refine ⟨d₁, d₂, if_pos rfl, ?_⟩
  unfold allocate_inode
  rw [superblock_of_allAvail havail, Option.map_some]
  exact congrArg some h₂

/-! ## The freed inode -/

/-- `free_inode` never clears `indirect`. -/
theorem free_inode_indirect (h : d.free_inode dirino i mem = some (d', mem')) :
    (d'.inode i).indirect = (d.inode i).indirect ∧ (d'.inode i).type = 0 := by
  unfold free_inode at h
  split at h
  · cases h
  · obtain ⟨⟨d₁, direct, eidx⟩, -, h⟩ := Option.bind_eq_some_iff.mp h
    dsimp only at h
    split at h
    · split at h
      · obtain ⟨⟨d₂, mem₂, _⟩, -, h⟩ := Option.bind_eq_some_iff.mp h
        obtain ⟨d₃, -, h⟩ := Option.map_eq_some_iff.mp h
        cases h
        simp [setInode]
      · cases h
    · cases h
      simp [setInode]

/-- **An indirect block is carried over to the next file.** -/
theorem not_freesExactly (hi : 2 ≤ i ∧ i < d.sb.ninodes) (h : (d.inode i).indirect.count ≠ 0) :
    ¬ FreesExactly d dirino i mem := by
  rintro ⟨d', mem', hfree, -, -, -, -, -, hnext⟩
  obtain ⟨hindirect, htype⟩ := free_inode_indirect hfree
  obtain ⟨d₁, d₂, hsame, halloc⟩ := exists_allocate_inode hi (d'.inode i) htype
  have hempty := (hnext d₁ d₂ type_regular hsame halloc).2
  rw [(allocate_inode_extents halloc (by omega)).2, hsame, hindirect] at hempty
  exact h hempty

/-- Without an indirect block the loop over the direct extents is all there is. -/
theorem free_inode_direct (hdir : dirino ≠ i) (h : (d.inode i).indirect.count = 0) :
    d.free_inode dirino i mem = (d.freeExtents (d.inode i).direct ndirect 0).map fun r =>
      (r.1.setInode i { d.inode i with type := 0, size := 0, nlink := 0, direct := r.2.1 }, mem) := by
  unfold free_inode
  rw [if_neg hdir]
  simp only [h, ne_eq, not_true_eq_false, and_false, if_false]
  cases d.freeExtents (d.inode i).direct ndirect 0 <;> rfl

/-- What `free_inode` does to an inode without an indirect block. -/
structure Released (d : Disk) (i : ℕ) (d' : Disk) : Prop where
  bit : ∀ b, d'.fbb.bit b = true ↔ Owns d i b ∨ d.fbb.bit b = true
  buf : d'.buf = d.buf
  inode : ∀ j, j ≠ i → d'.inode j = d.inode j
  type : (d'.inode i).type = 0
  empty : Empty (d'.inode i)
  sb : d'.sb = d.sb

theorem free_inode_released (hwf : WellFormed d i n) (hdir : dirino ≠ i)
    (h : (d.inode i).indirect.count = 0) (hs : d.free_inode dirino i mem = some (d', mem')) :
    Released d i d' ∧ mem' = mem := by
  rw [free_inode_direct hdir h] at hs
  obtain ⟨⟨d₁, direct, eidx⟩, hfree, hs⟩ := Option.map_eq_some_iff.mp hs
  cases hs
  obtain ⟨hf, hle, hstop⟩ := freeExtents_freed hfree
  have hn : eidx = n := by
    have hle' : eidx ≤ n := by
      by_contra hgt
      exact hf.count n (Nat.zero_le n) (by omega) (hwf.stop n le_rfl (by omega))
    by_contra hne
    exact hwf.count eidx (by omega) (hstop (by have := hwf.le; omega))
  subst hn
  refine ⟨⟨fun b => ?_, hf.buf, fun j hj => (Function.update_of_ne hj _ _).trans (congrFun hf.inode j),
    by simp [setInode], ⟨fun k hk => ?_, by simpa [setInode] using h⟩, hf.sb⟩, rfl⟩
  · show d₁.fbb.bit b = true ↔ _
    rw [hf.bit]
    unfold Owns
    rw [h]
    simp only [Nat.zero_le, true_and, ne_eq, not_true_eq_false, false_and, or_false]
    refine or_congr_left ⟨fun ⟨j, hj, hb⟩ => ⟨j, lt_of_lt_of_le hj hwf.le, hb⟩, fun ⟨j, hj, hb⟩ => ?_⟩
    refine ⟨j, ?_, hb⟩
    by_contra hge
    have hzero := hwf.stop j (not_lt.mp hge) hj
    rw [Extent.mem_iff] at hb
    omega
  · simp only [setInode, Function.update_self]
    rw [hf.ex]
    split
    · rfl
    · next hge => exact hwf.stop k (by omega) hk

/-- It returns if the entries for its direct extents are there. -/
theorem exists_free_inode_iff (hwf : WellFormed d i n) (hdir : dirino ≠ i)
    (h : (d.inode i).indirect.count = 0) (mem : ℕ → Extent) :
    (∃ r, d.free_inode dirino i mem = some r) ↔ ∀ j < 2 * n, d.avail j = true := by
  have hiff := exists_freeExtents_iff (d := d) (k := 0) hwf.le
    (fun j _ hj => hwf.count j (by omega)) (fun hlt => hwf.stop (0 + n) (by omega) (by omega))
    (fun j _ hj => hwf.bound j (by omega))
  rw [free_inode_direct hdir h, ← hiff]
  refine ⟨fun ⟨r, hr⟩ => ?_, fun ⟨r, hr⟩ => ⟨_, Option.map_eq_some_iff.mpr ⟨r, hr, rfl⟩⟩⟩
  obtain ⟨r', hr', -⟩ := Option.map_eq_some_iff.mp hr
  exact ⟨r', hr'⟩

theorem Released.freesExactly (h : Released d i d') (hi : i ≠ 0)
    (hs : d.free_inode dirino i mem = some (d', mem)) : FreesExactly d dirino i mem := by
  refine ⟨d', mem, hs, h.bit, rfl, h.buf, h.inode, h.type, fun d₁ d₂ type hsame halloc => ?_⟩
  obtain ⟨hdirect, hindirect⟩ := allocate_inode_extents halloc hi
  rw [hsame] at hdirect hindirect
  exact ⟨fun k hk => by rw [hdirect]; exact h.empty.1 k hk, by rw [hindirect]; exact h.empty.2⟩

/--
**`free_inode` frees exactly the blocks of an inode, and leaves nothing to the next file, if and only if
the inode has no indirect block** (and the entries it asks for are there).
-/
theorem free_inode_exact (hwf : WellFormed d i n) (hdir : dirino ≠ i) (mem : ℕ → Extent) :
    FreesExactly d dirino i mem ↔
      (d.inode i).indirect.count = 0 ∧ ∀ j < 2 * n, d.avail j = true := by
  constructor
  · intro h
    have hindirect : (d.inode i).indirect.count = 0 := by
      by_contra hne
      exact not_freesExactly hwf.inum hne h
    obtain ⟨d', mem', hfree, -⟩ := h
    exact ⟨hindirect, (exists_free_inode_iff hwf hdir hindirect mem).mp ⟨_, hfree⟩⟩
  · rintro ⟨hindirect, havail⟩
    obtain ⟨⟨d', mem'⟩, hfree⟩ := (exists_free_inode_iff hwf hdir hindirect mem).mpr havail
    obtain ⟨hreleased, rfl⟩ := free_inode_released hwf hdir hindirect hfree
    exact hreleased.freesExactly (by have := hwf.inum; omega) hfree

/-- A disk with a file at inode 2: its direct extents, and an indirect block or none. -/
def file (direct : ℕ → Extent) (indirect : Extent) : Disk where
  sb := ⟨64, 10, 0⟩
  fbb _ := 0#64
  inode i := if i = 2 then ⟨type_regular, 4096, 1, 1, direct, indirect⟩
    else ⟨type_directory, 0, 1, 0, fun _ => ⟨0, 0⟩, ⟨0, 0⟩⟩
  buf bn := if bn = 30 then setExtentAt (fun _ => 0) 0 ⟨40, 2⟩ else fun _ => 0
  avail _ := true
  availNew _ := true

/-- Two direct extents. -/
def short : Disk := file (fun k => if k < 2 then ⟨10 + 5 * k, 3⟩ else ⟨0, 0⟩) ⟨0, 0⟩

theorem free_inode_exact_short : FreesExactly short 1 2 (fun _ => ⟨3, 0⟩) :=
  (free_inode_exact (n := 2) ⟨by decide, by decide, by decide, by decide, by decide, by decide⟩
    (by decide) _).mpr ⟨rfl, fun _ _ => rfl⟩

/-- Four direct extents, and one in the indirect block 30. -/
def long : Disk := file (fun k => ⟨10 + 5 * k, 3⟩) ⟨30, 1⟩

/-- The entry of the indirect block is clean and unlocked: its extent is not freed, and it stays. -/
theorem indirect_kept : WellFormed long 2 4 ∧ ¬ FreesExactly long 1 2 (fun _ => ⟨3, 0⟩) :=
  ⟨⟨by decide, by decide, by decide, by decide, by decide, by decide⟩,
    not_freesExactly (by decide) (by decide)⟩

end Disk

end Chickadee.Fs
