import Chickadee.Ptable.Ptiter
import Chickadee.Ptable.TryMap

/-!
# The address space of a process

The page table of a process gives an entry to each page of the low half: the one at level 0, or zero where a table is
missing. A `vmiter` reads that entry, and it goes past pages whose entry is zero. All is allowed above the entries, as
`try_map` makes the tables.
-/

namespace Chickadee.Ptable

open Lib
open Vm (PAGESIZE VA_LOWMAX VA_LOWEND VA_HIGHMIN MEMSIZE_VIRTUAL pagesize va_is_canonical)

/-- The page that an entry at level 0 leads to. -/
def entryPa (e : BitVec 64) : ℕ := (e &&& PTE_PAMASK).toNat

/-- Whether user code may access the page of an entry. -/
def IsUser (e : BitVec 64) : Prop := e &&& (PTE_P ||| PTE_U) = PTE_P ||| PTE_U

instance (e : BitVec 64) : Decidable (IsUser e) := inferInstanceAs (Decidable (_ = _))

/-- The number of pages that `fork` and `exit` go through. -/
abbrev NPAGES : ℕ := MEMSIZE_VIRTUAL / PAGESIZE

namespace Vmiter

/-- `user()` -/
def user (m : Mem) (it : Vmiter) : Bool := it.perm m &&& (PTE_P ||| PTE_U) = PTE_P ||| PTE_U

/-- A `vmiter` at a page of an address space: all is allowed above it, and where a table is missing the entry is
zero. -/
structure Ready (m : Mem) (pt va : ℕ) (it : Vmiter) : Prop where
  seek : Vmiter.seek m pt va = some it
  canonical : va_is_canonical va = true
  perm : it.perm_ = initial_perm
  blank : it.level_ > 0 → m.read it.pep_ = 0#64

/-- The entry for the page of an address is `e`. -/
def Slot (m : Mem) (pt va : ℕ) (e : BitVec 64) : Prop := ∃ it, Ready m pt va it ∧ m.read it.pep_ = e

end Vmiter

/-- The address space of a process with the entries `f`, by the number of the page. -/
structure Space (m : Mem) (pt : ℕ) (f : ℕ → BitVec 64) : Prop where
  tree : IsTree m pt
  slot : ∀ x ≤ VA_LOWMAX, Vmiter.Slot m pt x (f (x / PAGESIZE))
  inMemory : ∀ p, Vmiter.inMemory (f p) = true

namespace Vmiter

section

variable {m m' : Mem} {pt va va' t : ℕ} {it : Vmiter} {perm e : BitVec 64}

/-! ## What is read at a page -/

theorem Ready.stop (h : Ready m pt va it) : ∃ t, Stop m pt va 3 pt initial_perm it t := by
  rcases seek_cases h.seek with ⟨-, hs⟩ | ⟨hva, -⟩
  · exact hs
  · rw [h.canonical] at hva
    cases hva

theorem Ready.absent (h : Ready m pt va it) (hlevel : it.level_ > 0) : m.read it.pep_ &&& PTE_P = 0#64 := by
  rw [h.blank hlevel, BitVec.zero_and]

theorem Ready.level_eq (h : Ready m pt va it) (hne : m.read it.pep_ ≠ 0#64) : it.level_ = 0 := by
  by_contra hlevel
  exact hne (h.blank (by omega))

theorem Ready.perm_eq (h : Ready m pt va it) (hp : m.read it.pep_ &&& PTE_P = PTE_P) :
    it.perm m = m.read it.pep_ &&& initial_perm := by
  rw [perm_of_present hp (by rw [h.perm]; decide), h.perm]

theorem isUser_present (h : IsUser e) : e &&& PTE_P = PTE_P := by
  calc e &&& PTE_P = e &&& (PTE_P ||| PTE_U) &&& PTE_P := by rw [BitVec.and_assoc]; rfl
    _ = PTE_P := by rw [h]; rfl

theorem Ready.user_iff (h : Ready m pt va it) : it.user m = true ↔ IsUser (m.read it.pep_) := by
  unfold user
  rw [decide_eq_true_iff]
  have hlow : initial_perm &&& (PTE_P ||| PTE_U) = PTE_P ||| PTE_U := by decide
  rcases and_pte_p (m.read it.pep_) with hp | hp
  · rw [perm_of_absent hp]
    constructor
    · intro hzero
      exact absurd hzero (by decide)
    · intro huser
      rw [isUser_present huser] at hp
      exact absurd hp (by decide)
  · rw [h.perm_eq hp, BitVec.and_assoc, hlow]
    exact Iff.rfl

theorem Ready.pa_eq (h : Ready m pt va it) (hp : m.read it.pep_ &&& PTE_P = PTE_P) :
    it.pa m = entryPa (m.read it.pep_) + va % PAGESIZE := by
  have hlevel : it.level_ = 0 := h.level_eq fun hzero => by
    rw [hzero] at hp
    exact absurd hp (by decide)
  rw [pa_of_present hp, seek_va h.seek, hlevel]
  rfl

/-! ## Searches in a memory that has changed elsewhere -/

theorem downLoop_congr {level : ℕ} (hl : level ≤ 3) (ht : tableAt m pt va level = some t) (hm : ∀ l u, l ≤ level →
    tableAt m pt va l = some u → m' u (pageindex va l) = m u (pageindex va l)) :
    downLoop m' pt va level (some (t, pageindex va level)) perm
      = downLoop m pt va level (some (t, pageindex va level)) perm := by
  induction level generalizing t perm with
  | zero => rfl
  | succ level ih =>
    have hentry := hm (level + 1) t le_rfl ht
    simp only [downLoop, read_some, hentry]
    cases hsub : subtable (m t (pageindex va (level + 1))) with
    | none => rfl
    | some u =>
      have hu : tableAt m pt va level = some u := by rw [tableAt_of_succ (by omega) ht, hsub]
      simp only
      rw [ih (by omega) hu fun l v hlt hv => hm l v (by omega) hv]

/-- A search depends on the entries of its path. -/
theorem seek_congr (hm : ∀ l u, l ≤ 3 → tableAt m pt va l = some u → m' u (pageindex va l) = m u (pageindex va l)) :
    seek m' pt va = seek m pt va := by
  unfold seek
  rw [downLoop_congr le_rfl (tableAt_three m pt va) hm]

/-- So does the entry that it finds. -/
theorem read_congr (hm : ∀ l u, l ≤ 3 → tableAt m pt va l = some u → m' u (pageindex va l) = m u (pageindex va l))
    (h : seek m pt va = some it) : m'.read it.pep_ = m.read it.pep_ := by
  rcases seek_cases h with ⟨-, t, hs⟩ | ⟨-, rfl⟩
  · rw [hs.pep_eq]
    exact hm it.level_ t hs.level_le hs.table
  · rfl

theorem Ready.congr (h : Ready m pt va it)
    (hm : ∀ l u, l ≤ 3 → tableAt m pt va l = some u → m' u (pageindex va l) = m u (pageindex va l)) :
    Ready m' pt va it ∧ m'.read it.pep_ = m.read it.pep_ := by
  have hsame := read_congr hm h.seek
  refine ⟨⟨by rw [seek_congr hm, h.seek], h.canonical, h.perm, fun hlevel => ?_⟩, hsame⟩
  rw [hsame, h.blank hlevel]

theorem Slot.congr (h : Slot m pt va e)
    (hm : ∀ l u, l ≤ 3 → tableAt m pt va l = some u → m' u (pageindex va l) = m u (pageindex va l)) :
    Slot m' pt va e := by
  obtain ⟨it, hready, hread⟩ := h
  obtain ⟨hready', hsame⟩ := hready.congr hm
  exact ⟨it, hready', by rw [hsame, hread]⟩

/-- The region of the entry that a `vmiter` stands on. -/
theorem Ready.region (h : Ready m pt va it) (hregion : va' / pagesize it.level_ = va / pagesize it.level_) :
    Ready m pt va' { it with va_ := va' } :=
  ⟨seek_region h.seek hregion, by rw [va_is_canonical_region (seek_level h.seek) hregion, h.canonical], h.perm, h.blank⟩

end

end Vmiter

open Vmiter

section

variable {m m' : Mem} {pt va x t : ℕ} {it : Vmiter} {f : ℕ → BitVec 64}

theorem low_canonical (hx : x ≤ VA_LOWMAX) : va_is_canonical x = true := Vm.va_is_canonical_iff.2 (.inl hx)

/-! ## The entries of an address space -/

/-- A new `vmiter` at a page reads its entry. -/
theorem Space.start (h : Space m pt f) (hx : x ≤ VA_LOWMAX) :
    ∃ it, Vmiter.start m pt x = some it ∧ Ready m pt x it ∧ m.read it.pep_ = f (x / PAGESIZE) := by
  obtain ⟨it, hready, hread⟩ := h.slot x hx
  refine ⟨it, ?_, hready, hread⟩
  rw [start_eq, hready.seek, Option.bind_some, hread]
  exact if_pos (h.inMemory _)

theorem Space.read_eq (h : Space m pt f) (hx : x ≤ VA_LOWMAX) (hready : Ready m pt x it) :
    m.read it.pep_ = f (x / PAGESIZE) := by
  obtain ⟨it', hready', hread⟩ := h.slot x hx
  have hseek := hready.seek
  rw [hready'.seek] at hseek
  cases hseek
  exact hread

theorem Space.level_eq (h : Space m pt f) (hx : x ≤ VA_LOWMAX) (hready : Ready m pt x it)
    (hne : f (x / PAGESIZE) ≠ 0#64) : it.level_ = 0 :=
  hready.level_eq (by rwa [h.read_eq hx hready])

/-- The translation of the low half. -/
theorem Space.translate_eq (h : Space m pt f) (hx : x ≤ VA_LOWMAX) : translate m pt x
    = if f (x / PAGESIZE) &&& PTE_P = PTE_P then
        some (entryPa (f (x / PAGESIZE)) + x % PAGESIZE, f (x / PAGESIZE) &&& PTE_PWU)
      else none := by
  obtain ⟨it, hready, hread⟩ := h.slot x hx
  rw [Vmiter.translate_eq hready.seek, hread]
  by_cases hp : f (x / PAGESIZE) &&& PTE_P = PTE_P
  · have hlow : initial_perm &&& PTE_PWU = PTE_PWU := by decide
    rw [if_pos hp, if_pos hp, hready.pa_eq (by rw [hread, hp]), hready.perm_eq (by rw [hread, hp]), hread,
      BitVec.and_assoc, hlow]
  · rw [if_neg hp, if_neg hp]

/-- Memory in which the table pages are as before. -/
theorem tableAt_frame (hm : ∀ va l t, l ≤ 3 → tableAt m pt va l = some t → m' t = m t) (va l : ℕ) :
    tableAt m' pt va l = tableAt m pt va l := by
  refine Trie.node_congr fun j hj u hu => ?_
  rw [node_eq_tableAt (by omega)] at hu
  rw [hm va (3 - j) u (by omega) hu]

theorem Space.congr (h : Space m pt f) (hm : ∀ va l t, l ≤ 3 → tableAt m pt va l = some t → m' t = m t) :
    Space m' pt f := by
  refine ⟨h.tree.congr fun k d hd => ?_, fun x hx => (h.slot x hx).congr fun l u hl hu => by rw [hm x l u hl hu],
    h.inMemory⟩
  rw [node_eq_tableAt hd, node_eq_tableAt hd, tableAt_frame hm]

/-- An address space in which nothing is mapped. -/
theorem space_blank (htree : IsTree m pt) (hblank : ∀ i < 256, m pt i = 0#64) : Space m pt fun _ => 0#64 := by
  refine ⟨htree, fun x hx => ?_, fun _ => by decide⟩
  have hindex : pageindex x 3 < 256 := by
    unfold pageindex
    rw [pagesize_three]
    simp only [VA_LOWMAX] at hx
    omega
  have hentry : m.read (some (pt, pageindex x 3)) = 0#64 := hblank _ hindex
  have hcanon := low_canonical hx
  refine ⟨⟨pt, some (pt, pageindex x 3), 3, initial_perm, x⟩, ⟨?_, hcanon, rfl, fun _ => hentry⟩, hentry⟩
  rw [seek_of_canonical hcanon, downLoop_leaf (.inr (by rw [hentry, subtable_zero]))]

/-! ## Moves -/

/-- Where a table is missing, all pages below it have no entry. -/
theorem Space.region_zero (h : Space m pt f) (hready : Ready m pt va it) (hlevel : it.level_ > 0) (hx : x ≤ VA_LOWMAX)
    (hregion : x / pagesize it.level_ = va / pagesize it.level_) : f (x / PAGESIZE) = 0#64 := by
  rw [← h.read_eq hx (hready.region hregion)]
  exact hready.blank hlevel

/-- `next()` goes as far as `next_range()`. -/
theorem Vmiter.Ready.next_eq (hready : Ready m pt va it) : it.next m = it.next_range m := by
  have hlevel : it.nextLevel m = it.level_ := by
    unfold nextLevel
    split
    · rfl
    · rename_i hcond
      simp only [not_and] at hcond
      by_contra hne
      exact hcond (by omega) (perm_of_absent (hready.absent (by omega)))
  unfold Vmiter.next Vmiter.next_range last_va
  rw [hlevel]

/-- A move goes to a page behind, past pages without an entry. -/
theorem Space.next_range (h : Space m pt f) {p : ℕ} (hp : p < NPAGES) (hready : Ready m pt (p * PAGESIZE) it) :
    ∃ q it', it.next_range m = some it' ∧ p < q ∧ it'.va_ = q * PAGESIZE ∧ q * PAGESIZE ≤ VA_LOWMAX ∧
      Ready m pt (q * PAGESIZE) it' ∧ ∀ j, p < j → j < q → f j = 0#64 := by
  have hle := seek_level hready.seek
  have hlt := lt_regionEnd (p * PAGESIZE) it.level_
  have hend : regionEnd (p * PAGESIZE) it.level_ ≤ regionEnd (p * PAGESIZE) 3 := regionEnd_mono hle
  have hmod := regionEnd_mod (p * PAGESIZE) it.level_
  have hmax : regionEnd (p * PAGESIZE) 3 ≤ 2 ^ 39 := by
    unfold regionEnd
    rw [pagesize_three]
    simp only [NPAGES, MEMSIZE_VIRTUAL, PAGESIZE] at *
    omega
  -- the end of the region is the start of a page
  obtain ⟨q, hq⟩ : ∃ q, regionEnd (p * PAGESIZE) it.level_ = q * PAGESIZE := by
    obtain ⟨c, hc⟩ := Nat.dvd_of_mod_eq_zero hmod
    refine ⟨2 ^ (9 * it.level_) * c, ?_⟩
    rw [hc, Vm.pagesize_eq, Nat.mul_assoc, Nat.mul_comm]
  have hpq : p < q := by
    rw [hq] at hlt
    exact Nat.lt_of_mul_lt_mul_right hlt
  have hlow : q * PAGESIZE ≤ VA_LOWMAX := by
    simp only [VA_LOWMAX]
    omega
  obtain ⟨it', hstart, hready', -⟩ := h.start hlow
  refine ⟨q, it', ?_, hpq, seek_va hready'.seek, hlow, hready', fun j hpj hjq => ?_⟩
  · have hva : it.last_va = q * PAGESIZE := by
      unfold last_va
      rw [seek_va hready.seek, ← regionEnd, hq]
      exact Nat.mod_eq_of_lt (lt_of_le_of_lt hlow (by decide))
    unfold Vmiter.next_range
    rw [hva, real_find_eq hready.seek, hstart]
  · have hjp : j * PAGESIZE / PAGESIZE = j := Nat.mul_div_cancel j (by decide)
    have hbetween : (j * PAGESIZE) / pagesize it.level_ = (p * PAGESIZE) / pagesize it.level_ := by
      refine div_eq_of_between (Nat.mul_le_mul_right _ hpj.le) ?_
      rw [← regionEnd, hq]
      exact Nat.mul_lt_mul_of_pos_right hjq (by decide)
    have hlevel : it.level_ > 0 := by
      by_contra hzero
      rw [show it.level_ = 0 by omega, Vm.pagesize_zero, hjp, Nat.mul_div_cancel p (by decide)] at hbetween
      omega
    rw [← hjp]
    refine h.region_zero hready hlevel (le_trans ?_ hlow) hbetween
    exact Nat.mul_le_mul_right _ hjq.le

end

end Chickadee.Ptable
