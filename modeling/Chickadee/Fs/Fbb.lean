import Chickadee.Fs.Disk

/-!
# The free block bitmap: `find_free_range`, `allocate_extent`, `free_extent`

A set bit is a free block. `allocate_extent` takes the lowest run of `count` free blocks;
`free_extent` gives a range back. Both go through the cache entries of the superblock, whose absence
fails an assertion, and of the bitmap.
-/

namespace Chickadee.Fs

open Lib

/-! ## The operations -/

/--
`mark_block_free` (`x = true`) and `mark_block_taken` for the blocks from `first` on. A block number
outside the bitmap fails the assertion of the view.
-/
def markRange (fbb : Words) (x : Bool) : ℕ → ℕ → Option Words
  | _, 0 => some fbb
  | first, count + 1 =>
    if first < bitsperblock then markRange (fbb.set first x) x (first + 1) count else none

/-- The loop of `find_free_range`. -/
def rangeLoop (fbb : Words) (count : ℕ) : ℕ → ℕ → Option ℕ
  | 0, _ => none
  | fuel + 1, last_searched =>
    let next := fbb.find_lsb bitsperblock last_searched (2 ^ 64 - 1)
    if next = 2 ^ 64 - 1 ∨ next = 2 ^ 15 then some (u32 (-1))
    else
      let last_searched := fbb.find_lsz bitsperblock next count
      if fbb.bit next ∧ next < last_searched then
        if last_searched - next = count then some next
        else rangeLoop fbb count fuel last_searched
      else none

/-- `find_free_range(fbb, count, start)`. -/
def find_free_range (fbb : Words) (count start : ℕ) : Option ℕ :=
  rangeLoop fbb count (bitsperblock + 1) start

namespace Disk

/-- `free_extent(first, count)`. A missing entry for the bitmap is dereferenced. -/
def free_extent (d : Disk) (first count : ℕ) : Option Disk :=
  match d.superblock with
  | none => none
  | some d =>
    let (fbb, d) := d.get_disk_entry
    if fbb then
      match markRange d.fbb true first count with
      | none => none
      | some v => some { d with fbb := v }
    else none

/-- `allocate_extent(count)`: a block number, or an error code converted to one. -/
def allocate_extent (d : Disk) (count : ℕ) : Option (Disk × ℕ) :=
  if 2 ^ 15 < count then some (d, u32 E_FBIG)
  else
    match d.superblock with
    | none => none
    | some d =>
      let (fbb, d) := d.get_disk_entry
      if fbb then
        match find_free_range d.fbb count 0 with
        | none => none
        | some first =>
          if first = u32 (-1) then some (d, u32 E_NOSPC)
          else
            match markRange d.fbb false first count with
            | none => none
            | some v => some ({ d with fbb := v }, first)
      else some (d, u32 E_NOSPC)

/-! ## What an operation leaves unchanged -/

/-- `d'` comes after `d`: of the outcomes of the environment some have been used up. -/
structure Later (d d' : Disk) : Prop where
  sb : d'.sb = d.sb
  avail : ∃ m, ∀ j, d'.avail j = d.avail (j + m)
  availNew : ∃ m, ∀ j, d'.availNew j = d.availNew (j + m)

/-- `d'` comes after `d` with the same contents. -/
structure Same (d d' : Disk) : Prop extends Later d d' where
  fbb : d'.fbb = d.fbb
  inode : d'.inode = d.inode
  buf : d'.buf = d.buf

/-- Every call of `get_disk_entry` returns an entry. -/
structure AllAvail (d : Disk) : Prop where
  avail : ∀ j, d.avail j = true
  availNew : ∀ j, d.availNew j = true

variable {d d' d'' : Disk}

theorem Later.refl (d : Disk) : d.Later d := ⟨rfl, ⟨0, fun _ => rfl⟩, ⟨0, fun _ => rfl⟩⟩

theorem Later.trans (h : d.Later d') (h' : d'.Later d'') : d.Later d'' := by
  obtain ⟨m, hm⟩ := h.avail
  obtain ⟨m', hm'⟩ := h'.avail
  obtain ⟨n, hn⟩ := h.availNew
  obtain ⟨n', hn'⟩ := h'.availNew
  refine ⟨h'.sb.trans h.sb, ⟨m' + m, fun j => ?_⟩, ⟨n' + n, fun j => ?_⟩⟩
  · rw [hm' j, hm, Nat.add_assoc]
  · rw [hn' j, hn, Nat.add_assoc]

theorem Later.allAvail (h : d.Later d') (ha : d.AllAvail) : d'.AllAvail := by
  obtain ⟨m, hm⟩ := h.avail
  obtain ⟨n, hn⟩ := h.availNew
  exact ⟨fun j => (hm j).trans (ha.avail _), fun j => (hn j).trans (ha.availNew _)⟩

theorem Same.refl (d : Disk) : d.Same d := ⟨.refl d, rfl, rfl, rfl⟩

theorem Same.trans (h : d.Same d') (h' : d'.Same d'') : d.Same d'' :=
  ⟨h.toLater.trans h'.toLater, h'.fbb.trans h.fbb, h'.inode.trans h.inode, h'.buf.trans h.buf⟩

theorem same_get_disk_entry (d : Disk) : d.Same d.get_disk_entry.2 :=
  ⟨⟨rfl, ⟨1, fun _ => rfl⟩, ⟨0, fun _ => rfl⟩⟩, rfl, rfl, rfl⟩

theorem same_get_new_entry (d : Disk) : d.Same d.get_new_entry.2 :=
  ⟨⟨rfl, ⟨0, fun _ => rfl⟩, ⟨1, fun _ => rfl⟩⟩, rfl, rfl, rfl⟩

theorem same_superblock (h : d.superblock = some d') : d.Same d' := by
  unfold superblock at h
  split at h
  · cases h
    exact same_get_disk_entry d
  · exact absurd h (by simp)

theorem superblock_of_allAvail (ha : d.AllAvail) : d.superblock = some d.get_disk_entry.2 :=
  if_pos (ha.avail 0)

end Disk

/-! ## Marking a range -/

theorem exists_markRange_iff (fbb : Words) {x : Bool} {first count : ℕ} :
    (∃ v, markRange fbb x first count = some v) ↔ count = 0 ∨ first + count ≤ bitsperblock := by
  induction count generalizing fbb first with
  | zero => simp [markRange]
  | succ count ih =>
    unfold markRange
    by_cases h : first < bitsperblock
    · rw [if_pos h, ih]
      omega
    · rw [if_neg h]
      refine ⟨fun ⟨_, hv⟩ => absurd hv (by simp), fun hfit => ?_⟩
      omega

/-- **Marking a range sets its bits and no other bit.** -/
theorem bit_markRange {fbb v : Words} {x : Bool} {first count : ℕ}
    (h : markRange fbb x first count = some v) (n : ℕ) :
    v.bit n = if n ∈ Extent.mk first count then x else fbb.bit n := by
  induction count generalizing fbb first with
  | zero =>
    cases h
    rw [if_neg]
    simp only [Extent.mem_iff]
    omega
  | succ count ih =>
    unfold markRange at h
    split at h
    · rw [ih h, Words.bit_set]
      simp only [Extent.mem_iff]
      by_cases hn : n = first
      · subst hn
        simp
      · rw [if_neg hn]
        exact if_congr (by omega) rfl rfl
    · exact absurd h (by simp)

/-! ## Finding a range -/

/-- `count` blocks from `a` on are free. -/
structure IsRun (fbb : Words) (count a : ℕ) : Prop where
  fits : a + count ≤ bitsperblock
  free : ∀ n, a ≤ n → n < a + count → fbb.bit n = true

/--
One turn of the loop: it has ruled out the runs that start below `last`, and it ends with the lowest
run or moves on to a higher position.
-/
theorem rangeLoop_spec {fbb : Words} {count : ℕ} (hcount : 0 < count) (fuel : ℕ) {last : ℕ}
    (hlast : last ≤ bitsperblock) (hfuel : bitsperblock < last + fuel)
    (hruled : ∀ a < last, ¬IsRun fbb count a) :
    (∃ a, rangeLoop fbb count fuel last = some a ∧ IsRun fbb count a ∧
        ∀ b < a, ¬IsRun fbb count b) ∨
      (rangeLoop fbb count fuel last = some (u32 (-1)) ∧ ∀ a, ¬IsRun fbb count a) := by
  induction fuel generalizing last with
  | zero => omega
  | succ fuel ih =>
    have hlsb := fbb.find_lsb_spec bitsperblock last (2 ^ 64 - 1)
    unfold rangeLoop
    dsimp only
    generalize fbb.find_lsb bitsperblock last (2 ^ 64 - 1) = next at hlsb ⊢
    have hlsz := fbb.find_lsz_spec bitsperblock next count
    generalize fbb.find_lsz bitsperblock next count = last' at hlsz ⊢
    obtain ⟨hle, hbelow, hhit⟩ := hlsb
    obtain ⟨hle', hbelow', hhit'⟩ := hlsz
    -- a run starts at a free block, so none starts below `next`
    have hruled' : ∀ a < next, ¬IsRun fbb count a := by
      intro a ha hrun
      by_cases hlt : a < last
      · exact hruled a hlt hrun
      · exact hbelow a (by omega) ha (hrun.free a le_rfl (by omega))
    by_cases hend : next = 2 ^ 64 - 1 ∨ next = 2 ^ 15
    · rw [if_pos hend]
      refine Or.inr ⟨rfl, fun a hrun => hruled' a ?_ hrun⟩
      have hfits := hrun.fits
      unfold bitsperblock at *
      omega
    · obtain ⟨hge, hbit⟩ := hhit (by unfold bitsperblock at *; omega)
      have hadvance : next < last' := by
        by_contra hstuck
        have hzero := (hhit' (by unfold bitsperblock at *; omega)).2
        have hsame : last' = next := by
          by_contra hne
          have hlow := (hhit' (by unfold bitsperblock at *; omega)).1
          omega
        rw [hsame, hbit] at hzero
        exact absurd hzero (by simp)
      rw [if_neg hend, if_pos ⟨hbit, hadvance⟩]
      by_cases hlen : last' - next = count
      · rw [if_pos hlen]
        refine Or.inl ⟨next, rfl, ⟨by unfold bitsperblock at *; omega, fun n h₁ h₂ => ?_⟩, hruled'⟩
        simpa using hbelow' n h₁ (by omega)
      · rw [if_neg hlen]
        refine ih (by unfold bitsperblock at *; omega) (by omega) fun a ha hrun => ?_
        by_cases hlt : a < next
        · exact hruled' a hlt hrun
        · -- the run would contain the first block after `next` that is not free
          have hfits := hrun.fits
          have htaken := (hhit' (by unfold bitsperblock at *; omega)).2
          rw [hrun.free last' (by omega) (by unfold bitsperblock at *; omega)] at htaken
          exact absurd htaken (by simp)

/-- **`find_free_range` finds the lowest run of free blocks.** -/
theorem find_free_range_spec (fbb : Words) {count : ℕ} (hcount : 0 < count) :
    (∃ a, find_free_range fbb count 0 = some a ∧ IsRun fbb count a ∧
        ∀ b < a, ¬IsRun fbb count b) ∨
      (find_free_range fbb count 0 = some (u32 (-1)) ∧ ∀ a, ¬IsRun fbb count a) := by
  unfold find_free_range
  exact rangeLoop_spec hcount _ (Nat.zero_le _) (by omega) fun a ha => absurd ha (Nat.not_lt_zero a)

/-! ## What the operations do -/

/-- The error codes of a block number. -/
theorem u32_eq : u32 (-1) = 4294967295 ∧ u32 E_MINERROR = 4294967196 ∧ u32 E_FBIG = 4294967269 ∧
    u32 E_NOSPC = 4294967268 := by decide

namespace Disk

variable {d d' : Disk}

/-- `d'` is `d` with the blocks of `e` marked: free for `x = true`, taken for `x = false`. -/
structure Marked (d d' : Disk) (x : Bool) (e : Extent) : Prop extends Later d d' where
  bit : ∀ n, d'.fbb.bit n = if n ∈ e then x else d.fbb.bit n
  inode : d'.inode = d.inode
  buf : d'.buf = d.buf

/-- **`free_extent` marks the blocks of the extent free.** -/
theorem free_extent_marked {first count : ℕ} (h : d.free_extent first count = some d') :
    d.Marked d' true ⟨first, count⟩ := by
  unfold free_extent at h
  split at h
  · exact absurd h (by simp)
  · next d₁ hsb =>
    have hsame := (same_superblock hsb).trans (same_get_disk_entry d₁)
    dsimp only at h
    split at h
    · split at h
      · exact absurd h (by simp)
      · next v hmark =>
        cases h
        refine ⟨⟨hsame.sb, hsame.avail, hsame.availNew⟩, fun n => ?_, hsame.inode, hsame.buf⟩
        show v.bit n = _
        rw [bit_markRange hmark n, hsame.fbb]
    · exact absurd h (by simp)

/-- It needs the two entries, and an extent inside the bitmap. -/
theorem free_extent_isSome_iff {first count : ℕ} :
    (∃ d', d.free_extent first count = some d') ↔
      d.avail 0 = true ∧ d.avail 1 = true ∧ (count = 0 ∨ first + count ≤ bitsperblock) := by
  unfold free_extent superblock
  by_cases h₀ : d.avail 0 = true
  · rw [if_pos h₀]
    by_cases h₁ : d.avail 1 = true
    · have hentry : d.get_disk_entry.2.get_disk_entry.1 = true := h₁
      simp only [hentry, if_true]
      refine Iff.trans ⟨?_, ?_⟩ ((exists_markRange_iff d.fbb (x := true)).trans
        ⟨fun h => ⟨h₀, h₁, h⟩, fun h => h.2.2⟩)
      · rintro ⟨d', h⟩
        split at h
        · exact absurd h (by simp)
        · next v hv => exact ⟨v, hv⟩
      · rintro ⟨v, hv⟩
        have hv' : markRange d.get_disk_entry.2.get_disk_entry.2.fbb true first count = some v := hv
        rw [hv']
        exact ⟨_, rfl⟩
    · have hentry : d.get_disk_entry.2.get_disk_entry.1 = false := Bool.eq_false_iff.mpr h₁
      simp [hentry, h₁]
  · rw [if_neg h₀]
    simp [h₀]

/-- How `allocate_extent` ends: with an error code, or with the lowest run. -/
inductive Allocated (d : Disk) (count : ℕ) (d' : Disk) (bn : ℕ) : Prop
  | failed (same : d.Same d') (code : u32 E_MINERROR ≤ bn) (fits : bn < 2 ^ 32)
      (full : d.AllAvail → ∀ a, ¬IsRun d.fbb count a)
  | taken (run : IsRun d.fbb count bn) (lowest : ∀ a < bn, ¬IsRun d.fbb count a)
      (marked : d.Marked d' false ⟨bn, count⟩)

/-- **`allocate_extent` takes the lowest run of free blocks.** -/
theorem allocate_extent_allocated {count bn : ℕ} (hcount : 0 < count)
    (h : d.allocate_extent count = some (d', bn)) : d.Allocated count d' bn := by
  obtain ⟨hone, hmin, hfbig, hnospc⟩ := u32_eq
  unfold allocate_extent at h
  split at h
  · next hbig =>
    cases h
    refine .failed (.refl d) (by omega) (by omega) fun _ a hrun => ?_
    have hfits := hrun.fits
    unfold bitsperblock at hfits
    omega
  · split at h
    · exact absurd h (by simp)
    · next d₁ hsb =>
      have hsame := (same_superblock hsb).trans (same_get_disk_entry d₁)
      dsimp only at h
      split at h
      · have hfind := find_free_range_spec d₁.get_disk_entry.2.fbb hcount
        rw [hsame.fbb] at hfind
        rw [hsame.fbb] at h
        rcases hfind with ⟨a, hfind, hrun, hlow⟩ | ⟨hfind, hnone⟩
        · have hfits := hrun.fits
          rw [hfind] at h
          dsimp only at h
          rw [if_neg (by unfold bitsperblock at hfits; omega)] at h
          split at h
          · exact absurd h (by simp)
          · next v hmark =>
            cases h
            refine .taken hrun hlow
              ⟨⟨hsame.sb, hsame.avail, hsame.availNew⟩, fun n => ?_, hsame.inode, hsame.buf⟩
            exact bit_markRange hmark n
        · rw [hfind] at h
          dsimp only at h
          rw [if_pos rfl] at h
          cases h
          exact .failed hsame (by omega) (by omega) fun _ => hnone
      · next hentry =>
        cases h
        refine .failed hsame (by omega) (by omega) fun ha => ?_
        exact absurd ((same_superblock hsb).allAvail ha |>.avail 0) hentry

/-- With cache entries available it returns. -/
theorem allocate_extent_total {count : ℕ} (hcount : 0 < count) (ha : d.AllAvail) :
    ∃ d' bn, d.allocate_extent count = some (d', bn) := by
  unfold allocate_extent
  split
  · exact ⟨_, _, rfl⟩
  · have hentry : d.get_disk_entry.2.get_disk_entry.1 = true := ha.avail 1
    rw [superblock_of_allAvail ha]
    simp only [hentry, if_true]
    have hfind := find_free_range_spec d.fbb hcount
    have hfbb : d.get_disk_entry.2.get_disk_entry.2.fbb = d.fbb := rfl
    rw [hfbb]
    rcases hfind with ⟨a, hfind, hrun, -⟩ | ⟨hfind, -⟩
    · obtain ⟨v, hv⟩ := (exists_markRange_iff d.fbb (x := false)).mpr (Or.inr hrun.fits)
      rw [hfind]
      dsimp only
      split
      · exact ⟨_, _, rfl⟩
      · rw [hv]
        exact ⟨_, _, rfl⟩
    · rw [hfind]
      dsimp only
      rw [if_pos rfl]
      exact ⟨_, _, rfl⟩

end Disk

/-! ## An extent taken and given back -/

/-- A bitmap is its bits. -/
theorem Words.ext_bit {v w : Words} (h : ∀ n, v.bit n = w.bit n) : v = w := by
  funext i
  refine BitVec.eq_of_getLsbD_eq fun t ht => ?_
  have hbit := h (64 * i + t)
  unfold Words.bit at hbit
  rwa [show (64 * i + t) / 64 = i by omega, show (64 * i + t) % 64 = t by omega] at hbit

namespace Disk

variable {d d' d'' : Disk}

/-- **A run of free blocks that is marked taken and then marked free leaves the bitmap as it was.** -/
theorem Marked.restore {first count : ℕ} (hrun : IsRun d.fbb count first)
    (htaken : d.Marked d' false ⟨first, count⟩) {e e' : Disk} (hfbb : e.fbb = d'.fbb)
    (hfree : e.Marked e' true ⟨first, count⟩) : e'.fbb = d.fbb := by
  refine Words.ext_bit fun n => ?_
  rw [hfree.bit, hfbb, htaken.bit]
  split
  · next hmem =>
    -- the blocks of the run were free before
    obtain ⟨hlo, hhi⟩ := Extent.mem_iff.mp hmem
    exact (hrun.free n hlo hhi).symm
  · rfl

/-- Without the entry of the bitmap there is no space. -/
theorem allocate_extent_unavailable {count : ℕ} (hmax : count ≤ 2 ^ 15) (h₀ : d.avail 0 = true)
    (h₁ : d.avail 1 = false) : ∃ d', d.allocate_extent count = some (d', u32 E_NOSPC) ∧ d.Same d' := by
  have hsb : d.superblock = some d.get_disk_entry.2 := if_pos h₀
  have hentry : d.get_disk_entry.2.get_disk_entry.1 = false := h₁
  unfold allocate_extent
  rw [if_neg (by omega), hsb]
  simp only [hentry, Bool.false_eq_true, if_false]
  exact ⟨_, rfl, (same_superblock hsb).trans (same_get_disk_entry _)⟩

/-- With it, what is returned is what the search of the bitmap finds. -/
theorem allocate_extent_available {count : ℕ} (hpos : 0 < count) (hmax : count ≤ 2 ^ 15)
    (h₀ : d.avail 0 = true) (h₁ : d.avail 1 = true) :
    (∃ d' bn, d.allocate_extent count = some (d', bn) ∧ IsRun d.fbb count bn ∧
        (∀ a < bn, ¬IsRun d.fbb count a) ∧ d.Marked d' false ⟨bn, count⟩) ∨
      (∃ d', d.allocate_extent count = some (d', u32 E_NOSPC) ∧ d.Same d' ∧
        ∀ a, ¬IsRun d.fbb count a) := by
  obtain ⟨hone, -, -, -⟩ := u32_eq
  have hsb : d.superblock = some d.get_disk_entry.2 := if_pos h₀
  have hentry : d.get_disk_entry.2.get_disk_entry.1 = true := h₁
  have hsame := (same_superblock hsb).trans (same_get_disk_entry _)
  have hfbb : d.get_disk_entry.2.get_disk_entry.2.fbb = d.fbb := rfl
  unfold allocate_extent
  rw [if_neg (by omega), hsb]
  simp only [hentry, if_true, hfbb]
  rcases find_free_range_spec d.fbb hpos with ⟨a, hfind, hrun, hlow⟩ | ⟨hfind, hnone⟩
  · left
    have hfits := hrun.fits
    obtain ⟨v, hv⟩ := (exists_markRange_iff d.fbb (x := false)).mpr (Or.inr hrun.fits)
    rw [hfind]
    dsimp only
    rw [if_neg (by unfold bitsperblock at hfits; omega), hv]
    exact ⟨_, a, rfl, hrun, hlow,
      ⟨hsame.sb, hsame.avail, hsame.availNew⟩, fun n => bit_markRange hv n, hsame.inode, hsame.buf⟩
  · right
    rw [hfind]
    dsimp only
    rw [if_pos rfl]
    exact ⟨_, rfl, hsame, hnone⟩

/--
**`allocate_extent` returns, with the lowest run of free blocks and exactly these taken, or with
`E_NOSPC` and the bitmap as it was; `free_extent` afterwards restores the bitmap.** The superblock is
in the cache, as the operation asserts; if the bitmap cannot be loaded there is no space.
-/
theorem allocate_extent_exact {count : ℕ} (hpos : 1 ≤ count) (hmax : count ≤ 32768)
    (hsb : d.avail 0 = true) :
    ∃ d' bn, d.allocate_extent count = some (d', bn) ∧
      (d.avail 1 = true → (∃ a, IsRun d.fbb count a) →
        IsRun d.fbb count bn ∧ (∀ a < bn, ¬IsRun d.fbb count a) ∧
          (∀ n, d'.fbb.bit n = if bn ≤ n ∧ n < bn + count then false else d.fbb.bit n) ∧
          ∀ e : Disk, e.fbb = d'.fbb → e.avail 0 = true → e.avail 1 = true →
            ∃ e', e.free_extent bn count = some e' ∧ e'.fbb = d.fbb) ∧
      (d.avail 1 = true → (∀ a, ¬IsRun d.fbb count a) → bn = u32 E_NOSPC ∧ d'.fbb = d.fbb) ∧
      (d.avail 1 = false → bn = u32 E_NOSPC ∧ d'.fbb = d.fbb) := by
  cases h₁ : d.avail 1 with
  | false =>
    obtain ⟨d', hd', hsame⟩ := allocate_extent_unavailable hmax hsb h₁
    exact ⟨d', _, hd', fun h => absurd h (by simp), fun h => absurd h (by simp),
      fun _ => ⟨rfl, hsame.fbb⟩⟩
  | true =>
    rcases allocate_extent_available hpos hmax hsb h₁ with
      ⟨d', bn, hd', hrun, hlow, hmarked⟩ | ⟨d', hd', hsame, hnone⟩
    · refine ⟨d', bn, hd', fun _ _ => ⟨hrun, hlow, fun n => ?_, fun e hfbb h₀ h₁ => ?_⟩,
        fun _ hnone => absurd hrun (hnone bn), fun h => absurd h (by simp)⟩
      · rw [hmarked.bit]
        exact if_congr Extent.mem_iff rfl rfl
      · obtain ⟨e', he'⟩ := free_extent_isSome_iff.mpr ⟨h₀, h₁, Or.inr hrun.fits⟩
        exact ⟨e', he', Marked.restore hrun hmarked hfbb (free_extent_marked he')⟩
    · exact ⟨d', _, hd', fun _ ⟨a, ha⟩ => absurd ha (hnone a), fun _ _ => ⟨rfl, hsame.fbb⟩,
        fun h => absurd h (by simp)⟩

/-- The only free blocks are the last one of a word and the first one of the next. -/
def crossing : Disk where
  sb := ⟨16, 10, 0⟩
  fbb w := if w = 0 then 1#64 <<< 63 else if w = 1 then 1#64 else 0#64
  inode _ := ⟨0, 0, 0, 0, fun _ => ⟨0, 0⟩, ⟨0, 0⟩⟩
  buf _ _ := 0
  avail _ := true
  availNew _ := true

/-- The two are taken together, and given back. -/
theorem allocate_extent_crossing : ∃ d', crossing.allocate_extent 2 = some (d', 63) ∧
    d'.fbb.bit 63 = false ∧ d'.fbb.bit 64 = false ∧
    ∃ e', { d' with avail := fun _ => true }.free_extent 63 2 = some e' ∧ e'.fbb = crossing.fbb := by
  obtain ⟨d', bn, hd', hfound, -, -⟩ := allocate_extent_exact (d := crossing)
    (show 1 ≤ 2 by decide) (by decide) rfl
  have hrun : IsRun crossing.fbb 2 63 := by
    refine ⟨by decide, fun n h₁ h₂ => ?_⟩
    interval_cases n <;> decide
  obtain ⟨hbn, hlow, hbit, hrestore⟩ := hfound rfl ⟨63, hrun⟩
  have hle : bn ≤ 63 := not_lt.mp fun h => hlow 63 h hrun
  have hge : 63 ≤ bn := by
    by_contra h
    have hfree := hbn.free bn le_rfl (by omega)
    have htaken : ∀ n < 63, crossing.fbb.bit n = false := by decide
    rw [htaken bn (by omega)] at hfree
    exact absurd hfree (by simp)
  obtain rfl : bn = 63 := le_antisymm hle hge
  exact ⟨d', hd', by rw [hbit, if_pos (by omega)], by rw [hbit, if_pos (by omega)],
    hrestore _ rfl rfl rfl⟩

end Disk

end Chickadee.Fs
