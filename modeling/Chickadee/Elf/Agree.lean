import Chickadee.Elf.Loaded

/-!
# When the two loaders agree

A `memfile_loader` serves the file, a `diskfile_loader` the blocks of the file up to their end, a page at a time.
So where the file ends in its last block, data from behind the end is loaded from the disk only, and program
headers behind the first page are found in memory only.
-/

namespace Chickadee.Elf

open Lib Fs Vm
open Chkfs (ElfProgram elfProgramAt elfOk ELF_PTYPE_LOAD E_NOEXEC Kernel Token Quiet ListOk flat fileiter Fileiter pageRef)

variable {m m₁ m₂ : Space} {ld ld' : ProcLoader} {f c data : List UInt8} {ph : ElfProgram} {d : Disk} {ino : ℕ}

/-! ## What a `diskfile_loader` serves -/

/-- The block that `get_page` holds is the one whose bytes the loader gives. -/
theorem runs_get_page {k₀ k : Kernel} {own : Multiset Token} (hok : ListOk d ino) (off : ℕ) (hsame : d.Same k.disk)
    (hq : Quiet k₀ k own) :
    Runs k (Chkfs.get_page ino off) fun r k' => d.Same k'.disk ∧ Quiet k₀ k' (pageRef r + own) ∧
      (diskfile_loader d (some ino) true).get_page off = match r with
        | none => .error (-1)
        | some (bn, sz) => .ok ((List.range' (blocksize - sz) sz).map (k'.disk.buf bn)) := by
  have hown : Quiet k₀ k ((fileiter ino).own + own) := by rwa [Chkfs.Fileiter.own_fileiter, zero_add]
  refine (Fileiter.runs_find off (Fileiter.placed_fileiter _ _) hown).bind fun it k₁ hfind => ?_
  obtain ⟨hq₁, hsame₁, hfound, hstop⟩ := hfind
  have hext := Chkfs.extentOf_congr (congrFun hsame.inode ino) hsame.buf
  have hok₁ : ListOk k.disk ino := hok.of hext (by rw [hsame.inode]; exact hok.one)
  refine (Fileiter.runs_entry hfound hok₁ hstop hsame₁ hq₁).bind fun e k₂ hentry => ?_
  obtain ⟨hsame₂, hq₂, he⟩ := hentry
  have hq₂' : Quiet k₀ k₂ (it.own + (Fileiter.entry e + own)) := by rwa [add_left_comm]
  refine ((Fileiter.runs_destroy hq₂').and Fileiter.ends_destroy).bind fun _ k₃ hdestroy => ?_
  obtain ⟨hq₃, hdisk⟩ := hdestroy
  rw [← hdisk] at hsame₂
  rw [show (fileiter ino).ino_ = ino from rfl, Chkfs.flat_same hsame] at he
  have hbuf : k₃.disk.buf = d.buf := hsame₂.buf.trans hsame.buf
  refine .pure ⟨hsame.trans hsame₂, ?_, ?_⟩
  · cases e with
    | none => exact hq₃
    | some bn => exact hq₃
  · show (if (flat d ino).getD (off / blocksize) 0 = 0 then _ else _) = _
    rw [he]
    split
    · rfl
    · show Except.ok _ = Except.ok _
      rw [hbuf, Nat.sub_sub_self (Nat.mod_lt off (by decide)).le]

/-- The bytes of the blocks of a file. -/
def diskBytes (d : Disk) (ino : ℕ) : List UInt8 := (flat d ino).flatMap fun bn => (List.range' 0 blocksize).map (d.buf bn)

theorem drop_flatMap {α β : Type} {g : α → List β} {n : ℕ} (hg : ∀ a, (g a).length = n) (l : List α) (i : ℕ) :
    (l.flatMap g).drop (n * i) = (l.drop i).flatMap g := by
  induction i generalizing l with
  | zero => rfl
  | succ i ih =>
    cases l with
    | nil => simp
    | cons a l =>
      rw [List.flatMap_cons, Nat.mul_succ, Nat.add_comm, ← List.drop_drop, List.drop_left' (hg a), ih,
        List.drop_succ_cons]

theorem length_block (d : Disk) (bn : ℕ) : ((List.range' 0 blocksize).map (d.buf bn)).length = blocksize := by
  rw [List.length_map, List.length_range']

theorem length_diskBytes (d : Disk) (ino : ℕ) : (diskBytes d ino).length = blocksize * (flat d ino).length := by
  unfold diskBytes
  rw [List.length_flatMap, List.map_congr_left fun bn _ => length_block d bn, List.map_const', List.sum_replicate,
    smul_eq_mul, Nat.mul_comm]

/-- The bytes from the start of a block on. -/
theorem diskBytes_drop {bn off : ℕ} (halign : off % blocksize = 0) (hbn : (flat d ino)[off / blocksize]? = some bn) :
    (List.range' 0 blocksize).map (d.buf bn) <+: (diskBytes d ino).drop off := by
  have hoff : off = blocksize * (off / blocksize) := (Nat.mul_div_cancel' (Nat.dvd_of_mod_eq_zero halign)).symm
  obtain ⟨hlt, hget⟩ := List.getElem?_eq_some_iff.mp hbn
  rw [hoff, diskBytes, drop_flatMap fun bn => length_block d bn, List.drop_eq_getElem_cons hlt, hget,
    List.flatMap_cons]
  exact List.prefix_append _ _

theorem serves_diskfile (hfull : 0 ∉ flat d ino) : Serves (diskfile_loader d (some ino) true) (diskBytes d ino) where
  pagetable := rfl
  inside off halign hoff := by
    rw [length_diskBytes] at hoff
    have hlt : off / blocksize < (flat d ino).length := Nat.div_lt_of_lt_mul hoff
    obtain ⟨bn, hbn⟩ : ∃ bn, (flat d ino)[off / blocksize]? = some bn := ⟨_, List.getElem?_eq_getElem hlt⟩
    have hne : bn ≠ 0 := fun he => hfull (he ▸ List.mem_of_getElem? hbn)
    refine ⟨_, ?_, diskBytes_drop halign hbn, ?_⟩
    · show (if (flat d ino).getD (off / blocksize) 0 = 0 then _ else _) = _
      rw [List.getD_eq_getElem?_getD, hbn, Option.getD_some, if_neg hne,
        show off % blocksize = 0 from halign, Nat.sub_zero]
    · rw [length_block]
      exact Nat.min_le_left _ _
  behind off halign hoff := by
    rw [length_diskBytes] at hoff
    have hle : (flat d ino).length ≤ off / blocksize := (Nat.le_div_iff_mul_le (by decide)).mpr (by rwa [Nat.mul_comm])
    refine .inl ⟨-1, by decide, ?_⟩
    show (if (flat d ino).getD (off / blocksize) 0 = 0 then _ else _) = _
    rw [List.getD_eq_getElem?_getD, List.getElem?_eq_none hle]
    rfl

/-! ## The header -/

/-- A number in the first bytes of the contents. -/
theorem getLE_start (h : data <+: c) {a w : ℕ} (hle : a + w ≤ data.length) :
    getLE (page data) a w = getLE (page c) a w := by
  obtain ⟨rest, rfl⟩ := h
  refine getLE_congr fun i _ hi => ?_
  unfold page
  rw [List.getD_eq_getElem?_getD, List.getD_eq_getElem?_getD, List.getElem?_append_left (by omega)]

/-- Where the program headers end. -/
def tableEnd (b : Block) : ℕ := getLE b 0x20 8 + 56 * getLE b 0x38 2

/-- The header checks that do not depend on where the data ends. -/
def Header (b : Block) : Prop :=
  getLE b 0 4 = Chkfs.ELF_MAGIC ∧ getLE b 0x10 2 = Chkfs.ELF_ET_EXEC ∧ getLE b 0x36 2 = 56 ∧ getLE b 0x3a 2 = 64 ∧
    getLE b 0x20 8 ≤ PAGESIZE ∧ getLE b 0x38 2 ≠ 0 ∧ getLE b 0x38 2 ≤ 4

theorem elfOk_iff (b : Block) (len : ℕ) : elfOk b len = true ↔ Header b ∧ tableEnd b ≤ len := by
  unfold elfOk Header tableEnd
  rw [decide_eq_true_iff, Nat.le_div_iff_mul_le (by decide : 0 < 56)]
  constructor
  · rintro ⟨hmagic, htype, hph, hsh, hpage, hlen, hne, hnum, hfour⟩
    exact ⟨⟨hmagic, htype, hph, hsh, hpage, hne, hfour⟩, by omega⟩
  · rintro ⟨⟨hmagic, htype, hph, hsh, hpage, hne, hfour⟩, hend⟩
    exact ⟨hmagic, htype, hph, hsh, hpage, by omega, hne, by omega, hfour⟩

theorem header_start (h : data <+: c) (hlen : 64 ≤ data.length) :
    (Header (page data) ↔ Header (page c)) ∧ tableEnd (page data) = tableEnd (page c) := by
  have hnum : ∀ a w, a + w ≤ 64 → getLE (page data) a w = getLE (page c) a w :=
    fun a w hle => getLE_start h (hle.trans hlen)
  unfold Header tableEnd
  rw [hnum 0 4 (by decide), hnum 0x10 2 (by decide), hnum 0x36 2 (by decide), hnum 0x3a 2 (by decide),
    hnum 0x20 8 (by decide), hnum 0x38 2 (by decide)]
  exact ⟨Iff.rfl, rfl⟩

/-- The program headers are in the first bytes. -/
theorem programs_start (h : data <+: c) (hlen : 64 ≤ data.length) (hend : tableEnd (page c) ≤ data.length) :
    programs (page data) = programs (page c) := by
  have hoff : getLE (page data) 0x20 8 = getLE (page c) 0x20 8 := getLE_start h (by omega)
  have hphnum : getLE (page data) 0x38 2 = getLE (page c) 0x38 2 := getLE_start h (by omega)
  unfold programs
  rw [hoff, hphnum]
  refine List.map_congr_left fun i hi => ?_
  have hi' : i < getLE (page c) 0x38 2 := List.mem_range.mp hi
  unfold tableEnd at hend
  unfold elfProgramAt
  rw [getLE_start h (by omega), getLE_start h (by omega), getLE_start h (by omega), getLE_start h (by omega),
    getLE_start h (by omega)]

/-- A `load` whose first page is the start of the contents `c`. -/
theorem load_eq (hpage : ld.get_page 0 = .ok data) (h : data <+: c) (m : Space) :
    (64 ≤ data.length ∧ Header (page c) ∧ tableEnd (page c) ≤ data.length →
      load ld m = loadSegments ld (loadable c) { m with entry_rip_ := getLE (page c) 0x18 8 }) ∧
    (¬(64 ≤ data.length ∧ Header (page c) ∧ tableEnd (page c) ≤ data.length) → load ld m = some (E_NOEXEC, m)) := by
  unfold load
  rw [hpage]
  dsimp only
  constructor
  · rintro ⟨hlen, hheader, hend⟩
    obtain ⟨hiff, htable⟩ := header_start h hlen
    have hok : elfOk (page data) data.length = true := by
      rw [elfOk_iff, htable]
      exact ⟨hiff.mpr hheader, hend⟩
    rw [if_neg (by simp [hok]; omega), programs_start h hlen hend, loadSegments_filter, getLE_start h (by omega)]
    rfl
  · intro hnot
    have hbad : data.length < 64 ∨ elfOk (page data) data.length = false := by
      by_contra hgood
      rw [not_or, Bool.not_eq_false] at hgood
      have hlen : 64 ≤ data.length := by omega
      obtain ⟨hiff, htable⟩ := header_start h hlen
      obtain ⟨hheader, hend⟩ := (elfOk_iff _ _).mp hgood.2
      rw [htable] at hend
      exact hnot ⟨hlen, hiff.mp hheader, hend⟩
    rw [if_pos hbad]

/-! ## The segments -/

/-- With enough memory the segments are loaded exactly if their sizes are good and their data is there. -/
theorem loadSegments_zero (hserves : Serves ld c) (phs : List ElfProgram)
    (hload : ∀ ph ∈ phs, ph.p_type = ELF_PTYPE_LOAD) (h : Orderly m) (hneed : need phs ≤ m.free.length) :
    ∃ r m', loadSegments ld phs m = some (r, m') ∧ (r = 0 ↔ ∀ ph ∈ phs, Sized ph ∧ Fits c ph) := by
  induction phs generalizing m with
  | nil => exact ⟨0, m, rfl, by simp⟩
  | cons ph phs ih =>
    have hneed' : 4 * npages ph + need phs ≤ m.free.length := hneed
    unfold loadSegments
    rw [if_pos (hload ph List.mem_cons_self)]
    by_cases hsized : Sized ph
    · have hagain : ∀ v, Touches ph v → slots m.pt (0, v) = none ∨ True := fun _ _ => .inr trivial
      obtain ⟨ok, m₁, -, ha, -, hyes⟩ := load_segment_cases hserves hsized h.shape h.free hagain
      obtain ⟨rfl, hleft⟩ := ha.enough (by omega)
      obtain ⟨r, bs, hrun, hshort, hdone⟩ := hyes rfl
      rw [hrun]
      dsimp only
      by_cases hfits : Fits c ph
      · obtain ⟨rfl, -⟩ := hdone hfits
        rw [if_neg (lt_irrefl 0)]
        obtain ⟨r, m', heq, hiff⟩ := ih (m := m₁.store ph.p_va bs) (fun b hb => hload b (List.mem_cons_of_mem ph hb))
          ((ha.orderly h).store _ _) (by show need phs ≤ m₁.free.length; omega)
        exact ⟨r, m', heq, by rw [hiff, List.forall_mem_cons]; exact ⟨fun hall => ⟨⟨hsized, hfits⟩, hall⟩, And.right⟩⟩
      · have hr := hshort hfits
        rw [if_pos hr]
        exact ⟨r, _, rfl, fun he => absurd (he ▸ hr) (lt_irrefl 0),
          fun hall => absurd (hall ph List.mem_cons_self).2 hfits⟩
    · rw [load_segment_unsized hsized]
      exact ⟨E_NOEXEC, m, rfl, fun he => absurd he (by decide), fun hall => absurd (hall ph List.mem_cons_self).1 hsized⟩

/-- The data of a segment that is in the file. -/
theorem segment_start (h : f <+: c) (hfits : Fits f ph) : segment f ph = segment c ph := by
  obtain ⟨rest, rfl⟩ := h
  unfold segment
  congr 1
  rcases hfits with hzero | hle
  · rw [hzero, List.take_zero, List.take_zero]
  · rw [List.drop_append_of_le_length (by omega), List.take_append_of_le_length]
    rw [List.length_drop]
    omega

/-- **Two loaders that load the same segments leave the same memory.** -/
theorem loadSegments_same (hserves : Serves ld f) (hserves' : Serves ld' c) (hstart : f <+: c)
    (phs : List ElfProgram) (hload : ∀ ph ∈ phs, ph.p_type = ELF_PTYPE_LOAD) (h : Orderly m)
    (h₁ : loadSegments ld phs m = some (0, m₁)) (h₂ : loadSegments ld' phs m = some (0, m₂)) : m₁ = m₂ := by
  induction phs generalizing m with
  | nil => exact (Prod.mk.inj (Option.some.inj (h₁.symm.trans h₂))).2
  | cons ph phs ih =>
    unfold loadSegments at h₁ h₂
    rw [if_pos (hload ph List.mem_cons_self)] at h₁ h₂
    have hsized : Sized ph := by
      by_contra hnot
      rw [load_segment_unsized hnot] at h₁
      exact absurd (Prod.mk.inj (Option.some.inj h₁)).1 (by decide)
    have hagain : ∀ v, Touches ph v → slots m.pt (0, v) = none ∨ True := fun _ _ => .inr trivial
    obtain ⟨ok, n₁, halloc, ha, hno, hyes⟩ := load_segment_cases hserves hsized h.shape h.free hagain
    obtain ⟨ok', n₂, halloc', -, -, hyes'⟩ := load_segment_cases hserves' hsized h.shape h.free hagain
    obtain ⟨rfl, rfl⟩ := Prod.mk.inj (Option.some.inj (halloc.symm.trans halloc'))
    cases ok with
    | false =>
      rw [hno rfl] at h₁
      exact absurd (Prod.mk.inj (Option.some.inj h₁)).1 (by decide)
    | true =>
      obtain ⟨r, bs, hrun, hshort, hdone⟩ := hyes rfl
      obtain ⟨r', bs', hrun', hshort', hdone'⟩ := hyes' rfl
      rw [hrun] at h₁
      rw [hrun'] at h₂
      dsimp only at h₁ h₂
      split at h₁
      · rename_i hr
        exact absurd ((Prod.mk.inj (Option.some.inj h₁)).1 ▸ hr) (lt_irrefl 0)
      split at h₂
      · rename_i hr
        exact absurd ((Prod.mk.inj (Option.some.inj h₂)).1 ▸ hr) (lt_irrefl 0)
      rename_i hr hr'
      have hfits : Fits f ph := not_not.mp fun hnot => hr (hshort hnot)
      have hfits' : Fits c ph := not_not.mp fun hnot => hr' (hshort' hnot)
      rw [(hdone hfits).2, segment_start hstart hfits] at h₁
      rw [(hdone' hfits').2] at h₂
      exact ih (fun b hb => hload b (List.mem_cons_of_mem ph hb)) ((ha.orderly h).store _ _) h₁ h₂

/-! ## The loaders side by side -/

/-- The file is stored in the blocks of an inode without holes; behind its end they hold anything. -/
structure Stored (d : Disk) (ino : ℕ) (data : List UInt8) : Prop where
  size : (d.inode ino).size = data.length
  full : 0 ∉ flat d ino
  bytes : data <+: diskBytes d ino

/-- With enough memory, both loaders load the file or neither does, and then to the same entry point and the
same memory. -/
def LoadersAgree (d : Disk) (ino : ℕ) (data : List UInt8) : Prop :=
  ∀ m, Fresh m → need (loadable (diskBytes d ino)) ≤ m.free.length →
    ∃ r m₁ r' m₂, load (memfile_loader (some data) true) m = some (r, m₁) ∧
      load (diskfile_loader d (some ino) true) m = some (r', m₂) ∧ (r = 0 ↔ r' = 0) ∧
        (r = 0 → m₁.entry_rip_ = m₂.entry_rip_ ∧ ∀ va < VA_LOWEND, image m₁ va = image m₂ va)

/-- What the sizes have to be, for a file with a good header and good segments in the blocks `c`. If the program
headers end in the first page, they and all data end in the file, or some data is not even in the blocks. If they
end behind the first page, they or some data end behind the file. -/
def Agreeable (data c : List UInt8) : Prop :=
  Header (page c) → (∀ ph ∈ loadable c, Sized ph) →
    if tableEnd (page c) ≤ PAGESIZE then
      (64 ≤ data.length ∧ tableEnd (page c) ≤ data.length ∧ ∀ ph ∈ loadable c, Fits data ph) ∨
        ¬∀ ph ∈ loadable c, Fits c ph
    else data.length < tableEnd (page c) ∨ ¬∀ ph ∈ loadable c, Fits data ph

/-- What a loader accepts whose first page has `len` bytes and that serves `x`. -/
def Loads (c x : List UInt8) (len : ℕ) : Prop :=
  64 ≤ len ∧ (Header (page c) ∧ tableEnd (page c) ≤ len) ∧ ∀ ph ∈ loadable c, Sized ph ∧ Fits x ph

theorem load_zero (hserves : Serves ld f) (hpage : ld.get_page 0 = .ok data) (h : data <+: c) (hm : Fresh m)
    (hneed : need (loadable c) ≤ m.free.length) :
    ∃ r m', load ld m = some (r, m') ∧ (r = 0 ↔ Loads c f data.length) := by
  obtain ⟨hyes, hno⟩ := load_eq hpage h m
  by_cases hgood : 64 ≤ data.length ∧ Header (page c) ∧ tableEnd (page c) ≤ data.length
  · have horderly := hm.ready.toOrderly
    obtain ⟨r, m', heq, hiff⟩ := loadSegments_zero (m := { m with entry_rip_ := getLE (page c) 0x18 8 }) hserves
      (loadable c) loadable_load ⟨horderly.shape, horderly.free, horderly.held⟩ hneed
    exact ⟨r, m', (hyes hgood).trans heq, hiff.trans ⟨fun hall => ⟨hgood.1, hgood.2, hall⟩, fun hl => hl.2.2⟩⟩
  · exact ⟨E_NOEXEC, m, hno hgood, fun he => absurd he (by decide), fun hl => absurd ⟨hl.1, hl.2.1⟩ hgood⟩

theorem fits_mono (h : data <+: c) (hfits : Fits data ph) : Fits c ph := by
  have := h.length_le
  unfold Fits at hfits ⊢
  omega

/-- The sizes decide whether the loaders accept the same. -/
theorem loads_iff_agreeable (h : data <+: c) : (Loads c data data.length ↔ Loads c c PAGESIZE) ↔ Agreeable data c := by
  unfold Agreeable
  by_cases hheader : Header (page c)
  · by_cases hsized : ∀ ph ∈ loadable c, Sized ph
    · have hloads : ∀ x len, Loads c x len ↔ 64 ≤ len ∧ tableEnd (page c) ≤ len ∧ ∀ ph ∈ loadable c, Fits x ph := by
        intro x len
        unfold Loads
        refine and_congr_right fun _ => and_congr ⟨And.right, fun hle => ⟨hheader, hle⟩⟩ ?_
        exact ⟨fun hall ph hph => (hall ph hph).2, fun hall ph hph => ⟨hsized ph hph, hall ph hph⟩⟩
      have hmono : (∀ ph ∈ loadable c, Fits data ph) → ∀ ph ∈ loadable c, Fits c ph :=
        fun hall ph hph => fits_mono h (hall ph hph)
      have hpage : 64 ≤ PAGESIZE := by decide
      rw [hloads, hloads]
      rw [forall_prop_of_true hheader, forall_prop_of_true hsized]
      split
      · rename_i hle
        constructor
        · intro hiff
          by_cases hall : ∀ ph ∈ loadable c, Fits c ph
          · exact .inl (hiff.mpr ⟨hpage, hle, hall⟩)
          · exact .inr hall
        · rintro (hmem | hnot)
          · exact ⟨fun _ => ⟨hpage, hle, hmono hmem.2.2⟩, fun _ => hmem⟩
          · exact ⟨fun hmem => absurd (hmono hmem.2.2) hnot, fun hdisk => absurd hdisk.2.2 hnot⟩
      · rename_i hgt
        constructor
        · intro hiff
          by_contra hnot
          rw [not_or, not_not, not_lt] at hnot
          exact hgt (hiff.mp ⟨by omega, hnot.1, hnot.2⟩).2.1
        · rintro (hlt | hnot)
          · exact ⟨fun hmem => absurd hlt (not_lt.mpr hmem.2.1), fun hdisk => absurd hdisk.2.1 hgt⟩
          · exact ⟨fun hmem => absurd hmem.2.2 hnot, fun hdisk => absurd hdisk.2.1 hgt⟩
    · have hno : ∀ x len, ¬Loads c x len := fun x len hl => hsized fun ph hph => (hl.2.2 ph hph).1
      exact ⟨fun _ _ hall => absurd hall hsized, fun _ => ⟨fun hl => absurd hl (hno _ _), fun hl => absurd hl (hno _ _)⟩⟩
  · have hno : ∀ x len, ¬Loads c x len := fun x len hl => hheader hl.2.1.1
    exact ⟨fun _ hyes => absurd hyes hheader, fun _ => ⟨fun hl => absurd hl (hno _ _), fun hl => absurd hl (hno _ _)⟩⟩

/-- What the two loaders do with the same memory. -/
theorem loads_side_by_side (hstored : Stored d ino data) (hm : Fresh m)
    (hneed : need (loadable (diskBytes d ino)) ≤ m.free.length) :
    ∃ r m₁ r' m₂, load (memfile_loader (some data) true) m = some (r, m₁) ∧
      load (diskfile_loader d (some ino) true) m = some (r', m₂) ∧
        (r = 0 ↔ Loads (diskBytes d ino) data data.length) ∧
          (r' = 0 ↔ Loads (diskBytes d ino) (diskBytes d ino) PAGESIZE) ∧ (r = 0 → r' = 0 → m₁ = m₂) := by
  have hmem : (memfile_loader (some data) true).get_page 0 = .ok data := by
    cases data with
    | nil => rfl
    | cons b bs => rfl
  have hserves := serves_memfile data
  have hserves' := serves_diskfile hstored.full
  obtain ⟨r, m₁, hrun, hiff⟩ := load_zero hserves hmem hstored.bytes hm hneed
  cases hflat : flat d ino with
  | nil =>
    -- A file without blocks is empty.
    have hnil : diskBytes d ino = [] := by rw [diskBytes, hflat]; rfl
    have hno : ∀ x len, ¬Loads (diskBytes d ino) x len := by
      intro x len hl
      have := hl.2.1.1.1
      rw [hnil] at this
      exact absurd this (by decide)
    have hdisk : load (diskfile_loader d (some ino) true) m = some (-1, m) := by
      have hpage : (diskfile_loader d (some ino) true).get_page 0 = .error (-1) := by
        show (if (flat d ino).getD 0 0 = 0 then _ else _) = _
        rw [hflat]
        rfl
      unfold load
      rw [hpage]
    exact ⟨r, m₁, -1, m, hrun, hdisk, hiff, ⟨fun he => absurd he (by decide), fun hl => absurd hl (hno _ _)⟩,
      fun _ he => absurd he (by decide)⟩
  | cons bn bns =>
    have hne : bn ≠ 0 := fun he => hstored.full (by rw [hflat, he]; exact List.mem_cons_self)
    have hpage : (diskfile_loader d (some ino) true).get_page 0 = .ok ((List.range' 0 blocksize).map (d.buf bn)) := by
      show (if (flat d ino).getD 0 0 = 0 then _ else _) = _
      rw [hflat]
      exact if_neg hne
    have hstart : (List.range' 0 blocksize).map (d.buf bn) <+: diskBytes d ino :=
      diskBytes_drop (Nat.zero_mod blocksize) (by rw [Nat.zero_div, hflat]; rfl)
    obtain ⟨r', m₂, hrun', hiff'⟩ := load_zero hserves' hpage hstart hm hneed
    rw [length_block] at hiff'
    refine ⟨r, m₁, r', m₂, hrun, hrun', hiff, hiff', ?_⟩
    rintro rfl rfl
    have hloads := hiff.mp rfl
    have hloads' := hiff'.mp rfl
    rw [(load_eq hmem hstored.bytes m).1 ⟨hloads.1, hloads.2.1⟩] at hrun
    rw [(load_eq hpage hstart m).1 (by rw [length_block]; exact ⟨hloads'.1, hloads'.2.1⟩)] at hrun'
    have horderly := hm.ready.toOrderly
    exact loadSegments_same hserves hserves' hstored.bytes _ loadable_load
      (m := { m with entry_rip_ := getLE (page (diskBytes d ino)) 0x18 8 })
      ⟨horderly.shape, horderly.free, horderly.held⟩ hrun hrun'

theorem loadersAgree_of_agreeable (hstored : Stored d ino data) (h : Agreeable data (diskBytes d ino)) :
    LoadersAgree d ino data := by
  intro m hm hneed
  obtain ⟨r, m₁, r', m₂, hrun, hrun', hiff, hiff', hsame⟩ := loads_side_by_side hstored hm hneed
  have hboth := (loads_iff_agreeable hstored.bytes).mpr h
  refine ⟨r, m₁, r', m₂, hrun, hrun', by rw [hiff, hiff', hboth], fun hr => ?_⟩
  obtain rfl := hsame hr (hiff'.mpr (hboth.mp (hiff.mp hr)))
  exact ⟨rfl, fun _ _ => rfl⟩

theorem agreeable_of_loadersAgree (hstored : Stored d ino data) (h : LoadersAgree d ino data) :
    Agreeable data (diskBytes d ino) := by
  have hm := fresh_blank (need (loadable (diskBytes d ino)))
  have hneed : need (loadable (diskBytes d ino)) ≤ (blank (need (loadable (diskBytes d ino)))).free.length := by
    simp [blank]
  obtain ⟨r, m₁, r', m₂, hrun, hrun', hiff, hiff', -⟩ := loads_side_by_side hstored hm hneed
  obtain ⟨s, n₁, s', n₂, hagree, hagree', hboth, -⟩ := h _ hm hneed
  obtain ⟨rfl, -⟩ := Prod.mk.inj (Option.some.inj (hrun.symm.trans hagree))
  obtain ⟨rfl, -⟩ := Prod.mk.inj (Option.some.inj (hrun'.symm.trans hagree'))
  rw [hiff, hiff'] at hboth
  exact (loads_iff_agreeable hstored.bytes).mp hboth

/-- **The sizes of the file and of its blocks decide whether the two loaders agree.** -/
theorem loadersAgree_iff (hstored : Stored d ino data) :
    LoadersAgree d ino data ↔ Agreeable data (diskBytes d ino) :=
  ⟨agreeable_of_loadersAgree hstored, loadersAgree_of_agreeable hstored⟩

/-! ## A file that is cut short -/

/-- A program of one segment, whose only byte is at `off`. -/
def oneByte (off : ℕ) : List UInt8 := elfHeader 1 ++ elfSegment off 0x1000 1

/-- The program in the block 10, with zeros behind it. -/
def programDisk (off : ℕ) : Disk where
  sb := ⟨4, 10, 0⟩
  fbb _ := 0#64
  inode _ := Chkfs.single type_regular (oneByte off).length ⟨10, 1⟩
  buf _ := page (oneByte off)
  avail _ := true
  availNew _ := true

theorem block_page (hlen : data.length ≤ blocksize) : data <+: (List.range' 0 blocksize).map (page data) := by
  refine List.prefix_iff_getElem?.mpr fun i hi => ?_
  rw [List.getElem?_map, List.getElem?_range' (by omega), Option.map_some]
  unfold page
  rw [List.getD_eq_getElem?_getD, Nat.one_mul, Nat.zero_add, List.getElem?_eq_getElem hi]
  rfl

theorem flat_programDisk (off : ℕ) : flat (programDisk off) 2 = [10] := by
  have hinode : (programDisk off).inode 2 = Chkfs.single type_regular (oneByte off).length ⟨10, 1⟩ := rfl
  exact (Chkfs.wellFormed_single hinode (by decide) nofun).2

theorem stored_programDisk (off : ℕ) : Stored (programDisk off) 2 (oneByte off) := by
  have hflat := flat_programDisk off
  have hlen : (oneByte off).length = 120 := rfl
  refine ⟨rfl, by rw [hflat]; decide, ?_⟩
  rw [diskBytes, hflat, List.flatMap_singleton]
  exact block_page (by rw [hlen]; decide)

/-- The header and the segments of contents that start with the file. -/
theorem agreeable_start (h : data <+: c) (hheader : Header (page data)) (hlen : 64 ≤ data.length)
    (hend : tableEnd (page data) ≤ data.length) (hpage : data.length ≤ PAGESIZE)
    (hsized : ∀ ph ∈ loadable data, Sized ph) :
    Agreeable data c ↔ (∀ ph ∈ loadable data, Fits data ph) ∨ ¬∀ ph ∈ loadable data, Fits c ph := by
  obtain ⟨hiff, htable⟩ := header_start h hlen
  have hload : loadable data = loadable c := by
    unfold loadable
    rw [programs_start h hlen (htable ▸ hend)]
  unfold Agreeable
  rw [← hload, ← htable, forall_prop_of_true (hiff.mp hheader), forall_prop_of_true hsized, if_pos (by omega)]
  exact or_congr_left ⟨fun hall => hall.2.2, fun hall => ⟨hlen, hend, hall⟩⟩

theorem agreeable_programDisk : Agreeable (oneByte 0) (diskBytes (programDisk 0) 2) := by
  have hload : loadable (oneByte 0) = [⟨1, 0, 0x1000, 1, 1⟩] := rfl
  refine (agreeable_start (stored_programDisk 0).bytes ?_ ?_ ?_ ?_ ?_).mpr (.inl ?_)
  · unfold Header
    decide +kernel
  · decide
  · decide +kernel
  · decide
  · rw [hload]
    decide
  · rw [hload]
    decide

/-- The stored file satisfies the hypothesis, and both loaders load it. -/
theorem loadersAgree_iff_programDisk : Stored (programDisk 0) 2 (oneByte 0) ∧ LoadersAgree (programDisk 0) 2 (oneByte 0) :=
  ⟨stored_programDisk 0, (loadersAgree_iff (stored_programDisk 0)).mpr agreeable_programDisk⟩

/-- A file that was cut off before the data of its segment is loaded from the disk all the same. -/
theorem loadersAgree_fails : ¬∀ d ino data, Stored d ino data → LoadersAgree d ino data := by
  intro h
  have hstored := stored_programDisk 200
  have hload : loadable (oneByte 200) = [⟨1, 200, 0x1000, 1, 1⟩] := rfl
  have hagreeable := agreeable_of_loadersAgree hstored (h _ _ _ hstored)
  rw [agreeable_start hstored.bytes (by unfold Header; decide +kernel) (by decide) (by decide +kernel) (by decide)
    (by rw [hload]; decide), hload] at hagreeable
  rcases hagreeable with hfits | hnot
  · exact absurd hfits (by decide)
  · refine hnot ?_
    rw [List.forall_mem_singleton]
    refine .inr ?_
    rw [length_diskBytes, flat_programDisk]
    decide

end Chickadee.Elf
