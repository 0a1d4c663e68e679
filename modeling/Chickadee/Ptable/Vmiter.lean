import Chickadee.Ptable.Memory

/-!
# `vmiter` over memory

A `vmiter` keeps a pointer to an entry, the level of the entry and the permissions that the entries above it
leave. When the next address has the same table at that level, a search goes on from there. What it finds is what
a new `vmiter` would find.
-/

namespace Chickadee.Ptable

open Lib
open Vm (PAGESIZE VA_LOWMAX VA_LOWEND VA_HIGHMIN pagesize va_is_canonical)

abbrev initial_perm : BitVec 64 := 0xFFF#64

/-- `vmiter`. `pep_` names an entry by its page and its index, and none is `&zero_pe`. -/
structure Vmiter where
  pt_ : ℕ
  pep_ : Option (ℕ × ℕ)
  level_ : ℕ
  perm_ : BitVec 64
  va_ : ℕ
  deriving DecidableEq

/-- `*pep` -/
def Mem.read (m : Mem) (pep : Option (ℕ × ℕ)) : BitVec 64 := pep.elim 0#64 fun p => m p.1 p.2

namespace Vmiter

/-- The loop of `down()`. There is none where `pa2kptr` panics. -/
def downLoop (m : Mem) (pt va : ℕ) : ℕ → Option (ℕ × ℕ) → BitVec 64 → Option Vmiter
  | 0, pep, perm => some ⟨pt, pep, 0, perm, va⟩
  | level + 1, pep, perm =>
    match subtable (m.read pep) with
    | some pa =>
      if pa < HIGHMEM_SIZE then
        downLoop m pt va level (some (pa, pageindex va level)) (perm &&& (m.read pep ||| ~~~PTE_PWU))
      else none
    | none => some ⟨pt, pep, level + 1, perm, va⟩

/-- Whether an entry is not taken for uninitialized memory. -/
def inMemory (e : BitVec 64) : Bool := (e &&& PTE_PAMASK).toNat < 0x100000000

/-- `down()`. An entry of uninitialized memory is a panic. -/
def down (m : Mem) (it : Vmiter) : Option Vmiter :=
  (downLoop m it.pt_ it.va_ it.level_ it.pep_ it.perm_).bind fun it =>
    if inMemory (m.read it.pep_) then some it else none

/-- `real_find(va)` -/
def real_find (m : Mem) (it : Vmiter) (va : ℕ) : Option Vmiter :=
  if it.level_ = 3 ∨ it.va_ / pagesize (it.level_ + 1) ≠ va / pagesize (it.level_ + 1) then
    if va_is_canonical va then
      down m { it with pep_ := some (it.pt_, pageindex va 3), level_ := 3, perm_ := initial_perm, va_ := va }
    else down m { it with pep_ := none, level_ := 3, perm_ := 0#64, va_ := va }
  else
    -- the pointer moves within its page
    down m { it with pep_ := it.pep_.map fun p => (p.1, p.2 + pageindex va it.level_ - p.2), va_ := va }

/-- `vmiter(pt, va)` -/
def start (m : Mem) (pt va : ℕ) : Option Vmiter := real_find m ⟨pt, some (pt, 0), 3, initial_perm, 0⟩ va

/-- `va_ + delta` -/
def add (m : Mem) (it : Vmiter) (delta : ℤ) : Option Vmiter := real_find m it ((it.va_ + delta) % 2 ^ 64).toNat

/-- `last_va()` -/
def last_va (it : Vmiter) : ℕ := (it.va_ / pagesize it.level_ + 1) * pagesize it.level_ % 2 ^ 64

/-- `pa()` -/
def pa (m : Mem) (it : Vmiter) : ℕ :=
  let e := m.read it.pep_
  if e &&& PTE_P ≠ 0#64 then
    (if it.level_ > 0 then e &&& PTE_PAMASK &&& ~~~0x1000#64 else e &&& PTE_PAMASK).toNat
      + it.va_ % pagesize it.level_
  else 2 ^ 64 - 1

/-- `perm()` -/
def perm (m : Mem) (it : Vmiter) : BitVec 64 :=
  let ph := m.read it.pep_ &&& it.perm_
  ph &&& -(ph &&& PTE_P)

/-- The level whose region `next()` leaves. -/
def nextLevel (m : Mem) (it : Vmiter) : ℕ := if it.level_ > 0 ∧ it.perm m = 0#64 then it.level_ else 0

/-- `next()` -/
def next (m : Mem) (it : Vmiter) : Option Vmiter :=
  real_find m it ((it.va_ / pagesize (it.nextLevel m) + 1) * pagesize (it.nextLevel m) % 2 ^ 64)

/-- `next_range()` -/
def next_range (m : Mem) (it : Vmiter) : Option Vmiter := real_find m it it.last_va

/-! ## A search that goes on from where it stands -/

section

variable {m m' : Mem} {pt root va va' level t : ℕ} {perm : BitVec 64} {it : Vmiter}

@[simp] theorem read_some (t i : ℕ) : m.read (some (t, i)) = m t i := rfl

@[simp] theorem read_none : m.read none = 0#64 := rfl

/-- One turn of the loop, at an entry that leads to a table. -/
theorem downLoop_table {pep : Option (ℕ × ℕ)} {pa : ℕ} (hsub : subtable (m.read pep) = some pa)
    (hpa : pa < HIGHMEM_SIZE) : downLoop m pt va (level + 1) pep perm
      = downLoop m pt va level (some (pa, pageindex va level)) (perm &&& (m.read pep ||| ~~~PTE_PWU)) := by
  rw [downLoop, hsub]
  exact if_pos hpa

theorem downLoop_leaf {pep : Option (ℕ × ℕ)} (hleaf : level = 0 ∨ subtable (m.read pep) = none) :
    downLoop m pt va level pep perm = some ⟨pt, pep, level, perm, va⟩ := by
  cases level with
  | zero => rfl
  | succ level =>
    rw [downLoop, hleaf.resolve_left (by omega)]

/-- Where the loop stops when it starts at a table on the path of `va`. -/
structure Stop (m : Mem) (pt va level t : ℕ) (perm : BitVec 64) (it : Vmiter) (t' : ℕ) : Prop where
  pt_eq : it.pt_ = pt
  va_eq : it.va_ = va
  level_le : it.level_ ≤ level
  pep_eq : it.pep_ = some (t', pageindex va it.level_)
  table : tableAt m pt va it.level_ = some t'
  leaf : it.level_ = 0 ∨ subtable (m t' (pageindex va it.level_)) = none
  /-- In memory with the same entries above, the path of an address with the same table comes here as well. -/
  resume : ∀ m' va', va' / pagesize (it.level_ + 1) = va / pagesize (it.level_ + 1) →
    (∀ l u, it.level_ < l → l ≤ level → tableAt m pt va l = some u → m' u (pageindex va l) = m u (pageindex va l)) →
    downLoop m' pt va' level (some (t, pageindex va' level)) perm
      = downLoop m' pt va' it.level_ (some (t', pageindex va' it.level_)) it.perm_

theorem exists_stop (hl : level ≤ 3) (ht : tableAt m pt va level = some t)
    (h : downLoop m pt va level (some (t, pageindex va level)) perm = some it) :
    ∃ t', Stop m pt va level t perm it t' := by
  induction level generalizing t perm with
  | zero =>
    cases h
    exact ⟨t, rfl, rfl, le_rfl, rfl, ht, .inl rfl, fun _ _ _ _ => rfl⟩
  | succ level ih =>
    cases hsub : subtable (m.read (some (t, pageindex va (level + 1)))) with
    | none =>
      rw [downLoop_leaf (.inr hsub)] at h
      cases h
      exact ⟨t, rfl, rfl, le_rfl, rfl, ht, .inr hsub, fun _ _ _ _ => rfl⟩
    | some u =>
      have hu : u < HIGHMEM_SIZE := by
        by_contra hu
        simp only [downLoop, hsub, if_neg hu] at h
        cases h
      rw [downLoop_table hsub hu] at h
      have htu : tableAt m pt va level = some u := by
        rw [tableAt_of_succ (by omega) ht]
        exact hsub
      obtain ⟨t', hs⟩ := ih (by omega) htu h
      have hle := hs.level_le
      refine ⟨t', hs.pt_eq, hs.va_eq, by omega, hs.pep_eq, hs.table, hs.leaf, fun m' va' hva hm => ?_⟩
      -- the other path takes the same entry here, which is as it was
      have hentry : m'.read (some (t, pageindex va' (level + 1))) = m.read (some (t, pageindex va (level + 1))) := by
        rw [pageindex_of_le hva (by omega)]
        exact hm _ t (by omega) le_rfl ht
      rw [downLoop_table (by rw [hentry, hsub]) hu, hentry]
      exact hs.resume m' va' hva fun l v hlt hll => hm l v hlt (by omega)

variable (m pt va) in
/-- Where a new `vmiter` stands before it checks its entry. -/
def seek : Option Vmiter :=
  if va_is_canonical va then downLoop m pt va 3 (some (pt, pageindex va 3)) initial_perm
  else some ⟨pt, none, 3, 0#64, va⟩

theorem seek_of_canonical (hva : va_is_canonical va = true) :
    seek m pt va = downLoop m pt va 3 (some (pt, pageindex va 3)) initial_perm := if_pos hva

theorem seek_of_not_canonical (hva : va_is_canonical va = false) : seek m pt va = some ⟨pt, none, 3, 0#64, va⟩ :=
  if_neg (by simp [hva])

theorem restart_eq (m : Mem) (pt va : ℕ) : (if va_is_canonical va then
      down m ⟨pt, some (pt, pageindex va 3), 3, initial_perm, va⟩
    else down m ⟨pt, none, 3, 0#64, va⟩) = (seek m pt va).bind fun it =>
      if inMemory (m.read it.pep_) then some it else none := by
  cases hva : va_is_canonical va with
  | true =>
    rw [seek_of_canonical hva]
    rfl
  | false =>
    rw [seek_of_not_canonical hva, if_neg (by simp)]
    unfold down
    rw [downLoop_leaf (.inr (by simp [subtable_zero]))]

theorem start_eq (m : Mem) (pt va : ℕ) : start m pt va = (seek m pt va).bind fun it =>
    if inMemory (m.read it.pep_) then some it else none := by
  unfold start real_find
  rw [if_pos (.inl rfl), ← restart_eq]

theorem seek_of_start (h : start m pt va = some it) : seek m pt va = some it := by
  rw [start_eq, Option.bind_eq_some_iff] at h
  obtain ⟨it', hseek, hmem⟩ := h
  split at hmem
  · cases hmem
    exact hseek
  · cases hmem

/-- It stands where the loop stops below the root, or at `&zero_pe`. -/
theorem seek_cases (h : seek m pt va = some it) :
    (va_is_canonical va = true ∧ ∃ t, Stop m pt va 3 pt initial_perm it t) ∨
    (va_is_canonical va = false ∧ it = ⟨pt, none, 3, 0#64, va⟩) := by
  cases hva : va_is_canonical va with
  | false =>
    rw [seek_of_not_canonical hva] at h
    cases h
    exact .inr ⟨rfl, rfl⟩
  | true =>
    rw [seek_of_canonical hva] at h
    exact .inl ⟨rfl, exists_stop le_rfl (tableAt_three m pt va) h⟩

theorem seek_pt (h : seek m pt va = some it) : it.pt_ = pt := by
  rcases seek_cases h with ⟨-, t, hs⟩ | ⟨-, rfl⟩
  · exact hs.pt_eq
  · rfl

theorem seek_va (h : seek m pt va = some it) : it.va_ = va := by
  rcases seek_cases h with ⟨-, t, hs⟩ | ⟨-, rfl⟩
  · exact hs.va_eq
  · rfl

theorem seek_level (h : seek m pt va = some it) : it.level_ ≤ 3 := by
  rcases seek_cases h with ⟨-, t, hs⟩ | ⟨-, rfl⟩
  · exact hs.level_le
  · exact le_rfl

/-- In memory with the same entries above, an address with the same table is sought from there. -/
theorem Stop.seek_eq (hs : Stop m pt va 3 pt initial_perm it t) (hva : va_is_canonical va' = true)
    (htable : va' / pagesize (it.level_ + 1) = va / pagesize (it.level_ + 1))
    (hm : ∀ l u, it.level_ < l → l ≤ 3 → tableAt m pt va l = some u → m' u (pageindex va l) = m u (pageindex va l)) :
    seek m' pt va' = downLoop m' pt va' it.level_ (some (t, pageindex va' it.level_)) it.perm_ := by
  rw [seek_of_canonical hva, hs.resume m' va' htable hm]

/-- **A search from where a `vmiter` stands finds what a new `vmiter` finds**, and panics where that does. -/
theorem real_find_eq (h : seek m pt va = some it) : real_find m it va' = start m pt va' := by
  have hpt := seek_pt h
  unfold real_find
  by_cases hrestart : it.level_ = 3 ∨ it.va_ / pagesize (it.level_ + 1) ≠ va' / pagesize (it.level_ + 1)
  · rw [if_pos hrestart, start_eq, ← restart_eq, hpt]
  · rw [if_neg hrestart]
    simp only [not_or, ne_eq, not_not] at hrestart
    obtain ⟨hlevel, htable⟩ := hrestart
    rcases seek_cases h with ⟨hva, t, hs⟩ | ⟨-, rfl⟩
    · have hle := hs.level_le
      rw [hs.va_eq] at htable
      have hva' : va_is_canonical va' = true := by
        rw [va_is_canonical_region (by omega) htable.symm, hva]
      rw [start_eq, hs.seek_eq hva' htable.symm fun _ _ _ _ _ => rfl, hs.pep_eq, Option.map_some,
        Nat.add_sub_cancel_left]
      unfold down
      rw [hs.pt_eq]
    · exact absurd rfl hlevel

/-- The addresses of the region of the entry have that entry. -/
theorem seek_region (h : seek m pt va = some it) (hregion : va' / pagesize it.level_ = va / pagesize it.level_) :
    seek m pt va' = some { it with va_ := va' } := by
  have hcanon := va_is_canonical_region (seek_level h) hregion
  rcases seek_cases h with ⟨hva, t, hs⟩ | ⟨hva, rfl⟩
  · have hindex := pageindex_of_le hregion le_rfl
    rw [hs.seek_eq (by rw [hcanon, hva]) (div_pagesize_of_le hregion (by omega)) fun _ _ _ _ _ => rfl, hindex,
      downLoop_leaf hs.leaf, ← hs.pep_eq, ← hs.pt_eq]
  · rw [seek_of_not_canonical (by rw [hcanon, hva])]

end

end Vmiter

end Chickadee.Ptable
