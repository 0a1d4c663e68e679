import Chickadee.Lib.Trie
import Chickadee.Vm.PageTable

/-!
# Page tables in memory

A table page has 512 entries of 64 bits; pages are named by their physical addresses. The walk for an address
starts at the root, at level 3, and takes at every level the entry that nine bits of the address select, until
an entry is not present, is a large page or is at level 0.
-/

namespace Chickadee.Ptable

open Lib Vm

/-- The entries of the pages. -/
abbrev Mem := ℕ → ℕ → BitVec 64

abbrev PTE_P : BitVec 64 := 0x1#64
abbrev PTE_W : BitVec 64 := 0x2#64
abbrev PTE_U : BitVec 64 := 0x4#64
abbrev PTE_PWU : BitVec 64 := 0x7#64
abbrev PTE_PS : BitVec 64 := 0x80#64
abbrev PTE_PAMASK : BitVec 64 := 0x000FFFFFFFFFF000#64
abbrev PTE_PS_PAMASK : BitVec 64 := 0x000FFFFFFFFFE000#64
abbrev VA_NONCANONMAX : ℕ := 0xFFFFFFFFFFFF

/-- `-HIGHMEM_BASE`: `pa2kptr` takes the physical addresses below it. -/
abbrev HIGHMEM_SIZE : ℕ := 0x800000000000

/-- `KTEXT_BASE - HIGHMEM_BASE`: `ka2pa` gives physical addresses below it. -/
abbrev KTEXT_PA : ℕ := 0x7FFF80000000

/-- `pageindex(addr, level)` -/
def pageindex (addr level : ℕ) : ℕ := addr / pagesize level % 512

/-- The table page to which an entry above level 0 leads. -/
def subtable (e : BitVec 64) : Option ℕ :=
  if e &&& (PTE_P ||| PTE_PS) = PTE_P then some (e &&& PTE_PAMASK).toNat else none

/-- A store of an entry. -/
def Mem.write (m : Mem) (p : ℕ × ℕ) (e : BitVec 64) : Mem :=
  fun t i => if t = p.1 ∧ i = p.2 then e else m t i

/-- `memset(pt, 0, PAGESIZE)` -/
def Mem.clear (m : Mem) (pt : ℕ) : Mem := fun t i => if t = pt then 0#64 else m t i

/-- The index that the path of an address takes at a depth. -/
abbrev digit (va d : ℕ) : ℕ := pageindex va (3 - d)

/-- The table page that the path of an address meets at a level. -/
def tableAt (m : Mem) (root va level : ℕ) : Option ℕ := Trie.node subtable digit m root va (3 - level)

/-- The table pages form a tree: no two entries lead to one page. -/
def IsTree (m : Mem) (root : ℕ) : Prop := Trie.Owned subtable digit m root 3 fun _ => True

/-! ## The walk from the root -/

/-- The physical address that the entry `e` gives to `va` at a level. -/
def framePa (va level : ℕ) (e : BitVec 64) : ℕ :=
  (e &&& if level = 0 then PTE_PAMASK else PTE_PS_PAMASK).toNat + va % pagesize level

/-- Where the walk ends from a table at a level, with the intersection of the entries that it meets. -/
def walk (m : Mem) (va : ℕ) : ℕ → ℕ → Option (ℕ × BitVec 64)
  | 0, t =>
    let e := m t (pageindex va 0)
    if e &&& PTE_P = PTE_P then some (framePa va 0 e, e) else none
  | level + 1, t =>
    let e := m t (pageindex va (level + 1))
    match subtable e with
    | some u => (walk m va level u).map fun r => (r.1, e &&& r.2)
    | none => if e &&& PTE_P = PTE_P then some (framePa va (level + 1) e, e) else none

/-- The translation of an address: where it is, and which of `PTE_P`, `PTE_W` and `PTE_U` all entries on the
way have. Addresses that are not canonical have none. -/
def translate (m : Mem) (root va : ℕ) : Option (ℕ × BitVec 64) :=
  if va_is_canonical va then (walk m va 3 root).map fun r => (r.1, r.2 &&& PTE_PWU) else none

/-! ## Entries and addresses -/

theorem and_pte_p (e : BitVec 64) : e &&& PTE_P = 0#64 ∨ e &&& PTE_P = PTE_P := by
  have hle : (e &&& PTE_P).toNat ≤ 1 := by
    rw [BitVec.toNat_and]
    exact Nat.and_le_right
  rcases Nat.le_one_iff_eq_zero_or_eq_one.1 hle with h | h
  · exact .inl (BitVec.eq_of_toNat_eq h)
  · exact .inr (BitVec.eq_of_toNat_eq h)

theorem pte_p_of_subtable {e : BitVec 64} {u : ℕ} (h : subtable e = some u) : e &&& PTE_P = PTE_P := by
  unfold subtable at h
  split at h
  · rename_i hp
    calc e &&& PTE_P = e &&& (PTE_P ||| PTE_PS) &&& PTE_P := by rw [BitVec.and_assoc]; rfl
      _ = PTE_P := by rw [hp]; rfl
  · cases h

theorem subtable_zero : subtable 0#64 = none := by decide

theorem pageindex_lt (va level : ℕ) : pageindex va level < 512 := Nat.mod_lt _ (by decide)

theorem pagesize_pos (level : ℕ) : 0 < pagesize level := Nat.two_pow_pos _

theorem pagesize_succ (level : ℕ) : pagesize (level + 1) = pagesize level * 512 := by
  unfold pagesize
  rw [show 12 + 9 * (level + 1) = 12 + 9 * level + 9 by omega, Nat.pow_add]

theorem div_pagesize_succ (va level : ℕ) : va / pagesize (level + 1) = va / pagesize level / 512 := by
  rw [pagesize_succ, Nat.div_div_eq_div_mul]

/-- Addresses in one region of a level are in one region of every level above. -/
theorem div_pagesize_of_le {va va' level l : ℕ} (h : va' / pagesize level = va / pagesize level) (hl : level ≤ l) :
    va' / pagesize l = va / pagesize l := by
  induction l, hl using Nat.le_induction with
  | base => exact h
  | succ l _ ih => rw [div_pagesize_succ, div_pagesize_succ, ih]

theorem pageindex_of_le {va va' level l : ℕ} (h : va' / pagesize level = va / pagesize level) (hl : level ≤ l) :
    pageindex va' l = pageindex va l := by
  unfold pageindex
  rw [div_pagesize_of_le h hl]

/-- Half of the address space is a number of whole regions of every level. -/
theorem va_is_canonical_region {va va' level : ℕ} (hl : level ≤ 3) (h : va' / pagesize level = va / pagesize level) :
    va_is_canonical va' = va_is_canonical va := by
  have h3 := div_pagesize_of_le h hl
  have hps : pagesize 3 = 549755813888 := by decide
  rw [hps] at h3
  rw [Bool.eq_iff_iff, va_is_canonical_iff, va_is_canonical_iff]
  simp only [VA_LOWMAX, VA_HIGHMIN]
  omega

/-- Two canonical addresses with the same indexes are in one page. -/
theorem page_eq_of_pageindex {va va' : ℕ} (hlt : va < 2 ^ 64) (hlt' : va' < 2 ^ 64) (hva : va_is_canonical va = true)
    (hva' : va_is_canonical va' = true) (h : ∀ l ≤ 3, pageindex va' l = pageindex va l) :
    va' / PAGESIZE = va / PAGESIZE := by
  rw [va_is_canonical_iff] at hva hva'
  have h0 := h 0 (by omega)
  have h1 := h 1 (by omega)
  have h2 := h 2 (by omega)
  have h3 := h 3 (by omega)
  simp only [pageindex, pagesize, PAGESIZE, VA_LOWMAX, VA_HIGHMIN] at *
  omega

theorem pagesize_one : pagesize 1 = 2097152 := rfl

theorem pagesize_two : pagesize 2 = 1073741824 := rfl

theorem pagesize_three : pagesize 3 = 549755813888 := rfl

theorem pagesize_four : pagesize 4 = 281474976710656 := rfl

/-- Two addresses with the same indexes above a level are in one region. -/
theorem region_eq_of_pageindex {va va' l : ℕ} (hva : va < 2 ^ 48) (hva' : va' < 2 ^ 48) (hl : l ≤ 2)
    (h : ∀ j, l < j → j ≤ 3 → pageindex va' j = pageindex va j) :
    va' / pagesize (l + 1) = va / pagesize (l + 1) := by
  have h1 := h 1
  have h2 := h 2
  have h3 := h 3
  unfold pageindex at h1 h2 h3
  interval_cases l <;> simp only [Nat.reduceAdd, pagesize_one, pagesize_two, pagesize_three] at * <;> omega

@[simp] theorem Mem.write_self (m : Mem) (t i : ℕ) (e : BitVec 64) : m.write (t, i) e t i = e := by
  simp [Mem.write]

theorem Mem.write_of_ne {m : Mem} {p : ℕ × ℕ} {e : BitVec 64} {t i : ℕ} (h : t ≠ p.1 ∨ i ≠ p.2) :
    m.write p e t i = m t i := by
  unfold Mem.write
  exact if_neg (by omega)

@[simp] theorem Mem.clear_self (m : Mem) (t i : ℕ) : m.clear t t i = 0#64 := by
  simp [Mem.clear]

theorem Mem.clear_of_ne {m : Mem} {pt t i : ℕ} (h : t ≠ pt) : m.clear pt t i = m t i := if_neg h

@[simp] theorem tableAt_three (m : Mem) (root va : ℕ) : tableAt m root va 3 = some root := rfl

theorem node_eq_tableAt {m : Mem} {root va d : ℕ} (hd : d ≤ 3) :
    Trie.node subtable digit m root va d = tableAt m root va (3 - d) := by
  unfold tableAt
  rw [show 3 - (3 - d) = d by omega]

theorem tableAt_of_succ {m : Mem} {root va level t : ℕ} (hl : level < 3) (ht : tableAt m root va (level + 1) = some t) :
    tableAt m root va level = subtable (m t (pageindex va (level + 1))) := by
  unfold tableAt at ht ⊢
  rw [show 3 - level = 3 - (level + 1) + 1 by omega, Trie.node_succ_of_node ht]
  unfold digit
  rw [show 3 - (3 - (level + 1)) = level + 1 by omega]

/-- A table page depends on the indexes above it. -/
theorem tableAt_congr {m : Mem} {root va va' level : ℕ}
    (h : ∀ l, level < l → l ≤ 3 → pageindex va' l = pageindex va l) :
    tableAt m root va' level = tableAt m root va level :=
  Trie.node_congr_digit fun j hj => h (3 - j) (by omega) (by omega)

/-- The table page above one that is there. -/
theorem exists_tableAt_succ {m : Mem} {root va level u : ℕ} (hl : level < 3) (hu : tableAt m root va level = some u) :
    ∃ t, tableAt m root va (level + 1) = some t ∧ subtable (m t (pageindex va (level + 1))) = some u := by
  unfold tableAt at hu
  rw [show 3 - level = 3 - (level + 1) + 1 by omega] at hu
  obtain ⟨t, ht, hsub⟩ := Trie.exists_node_of_succ hu
  unfold digit at hsub
  rw [show 3 - (3 - (level + 1)) = level + 1 by omega] at hsub
  exact ⟨t, ht, hsub⟩

/-- A page of the tree is at one level, on the paths with one sequence of indexes. -/
theorem IsTree.level_eq {m : Mem} {root va va' level level' t : ℕ} (htree : IsTree m root) (hl : level ≤ 3)
    (hl' : level' ≤ 3) (ht : tableAt m root va level = some t) (ht' : tableAt m root va' level' = some t) :
    level' = level ∧ ∀ l, level < l → l ≤ 3 → pageindex va' l = pageindex va l := by
  obtain ⟨hdepth, hdigit⟩ := htree.depth_eq (by omega) (by omega) ht ht'
  refine ⟨by omega, fun l hlt hll => ?_⟩
  have h := hdigit (3 - l) (by omega)
  unfold digit at h
  rwa [show 3 - (3 - l) = l by omega] at h

end Chickadee.Ptable
