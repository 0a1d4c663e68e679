import Chickadee.Ptable.Calls
import Chickadee.Ptable.Ptiter

/-!
# Freeing a page table

The table pages of the low half are the process's own; the upper half is shared with the kernel. The loop frees the
former, each after the tables below it, and goes through the latter at most until it meets a table there.
-/

namespace Chickadee.Ptable

open Lib
open Vm (PAGESIZE VA_LOWMAX VA_LOWEND VA_HIGHMIN pagesize va_is_canonical)

/-- The page table of a process. No table page of the low half is met anywhere else. -/
structure ProcTable (m : Mem) (pt : ℕ) : Prop where
  owned : Trie.Owned subtable digit m pt 3 fun va => va ≤ VA_LOWMAX
  inHighmem : ∀ va l t, l ≤ 2 → tableAt m pt va l = some t → t < HIGHMEM_SIZE

/-- The table pages of the low half, but for the root. -/
def IsLowTable (m : Mem) (pt t : ℕ) : Prop := ∃ va l, va ≤ VA_LOWMAX ∧ l ≤ 2 ∧ tableAt m pt va l = some t

/-- The freed tables are those behind the place `(E, k)`. -/
def Gone (m : Mem) (pt : ℕ) (freed : List ℕ) (E k : ℕ) : Prop :=
  ∀ va l t, va ≤ VA_LOWMAX → l ≤ 2 → tableAt m pt va l = some t → (t ∈ freed ↔ Behind E k va l)

/-- The memory and the freed pages, against the memory `m` before the loop. -/
structure Kept (m : Mem) (pt : ℕ) (s : Freeing) : Prop where
  low : ∀ t ∈ s.freed, IsLowTable m pt t
  nodup : s.freed.Nodup
  /-- What is below a table that has been freed was freed before it. -/
  below : ∀ l₁ t l₂, s.freed = l₁ ++ t :: l₂ → ∀ va l l' u, va ≤ VA_LOWMAX → l ≤ 2 → l' < l →
    tableAt m pt va l = some t → tableAt m pt va l' = some u → u ∈ l₁
  /-- In a table that is left an entry has been cleared if its table has been freed. -/
  entry : ∀ va l t, 1 ≤ l → l ≤ 3 → tableAt m pt va l = some t → t ∉ s.freed →
    ((∃ u ∈ s.freed, subtable (m t (pageindex va l)) = some u) → s.m t (pageindex va l) = 0#64) ∧
    ((∀ u ∈ s.freed, subtable (m t (pageindex va l)) ≠ some u) → s.m t (pageindex va l) = m t (pageindex va l))
  frame : ∀ u, u ≠ pt → ¬IsLowTable m pt u → s.m u = m u

/-- The `ptiter` is at the entry of its address at its level. -/
structure At (m : Mem) (pt : ℕ) (it : Ptiter) : Prop where
  pt_eq : it.pt_ = pt
  one_le : 1 ≤ it.level_
  le_three : it.level_ ≤ 3
  va_lt : it.va_ < 2 ^ 48
  table : ∃ t, tableAt m pt it.va_ it.level_ = some t ∧ it.pep_ = (t, pageindex it.va_ it.level_)

/-- Where the loop may be. -/
inductive Place (m : Mem) (pt : ℕ) (freed : List ℕ) (it : Ptiter) : Phase → Prop
  | down {stop : ℕ} (hat : At m pt it) (hone : 1 ≤ stop) (hle : stop ≤ it.level_)
      (halign : stop = 1 → it.va_ % pagesize it.level_ = 0)
      (htable : 2 ≤ stop → ∃ u, tableAt m pt it.va_ (stop - 1) = some u)
      (hgone : Gone m pt freed (regionEnd it.va_ stop) (stop - 1)) : Place m pt freed it (.down stop false)
  | skip (hat : At m pt it) (hgone : Gone m pt freed (regionEnd it.va_ it.level_) it.level_) :
      Place m pt freed it (.down 1 true)
  | test (hat : At m pt it) (htable : ∃ u, tableAt m pt it.va_ (it.level_ - 1) = some u)
      (hgone : Gone m pt freed (regionEnd it.va_ it.level_) (it.level_ - 1)) : Place m pt freed it .test
  | last (hva : it.va_ = VA_NONCANONMAX + 1) (hgone : ∀ t, IsLowTable m pt t → t ∈ freed) : Place m pt freed it .test
  | exit (hgone : ∀ t, IsLowTable m pt t → t ∈ freed) : Place m pt freed it .exit

section

variable {m : Mem} {pt va va' l l' level t u E k : ℕ} {s : Freeing} {freed : List ℕ} {it : Ptiter}

/-! ## Tables that are not freed -/

/-- A table of the low half is at one level, on the paths with one sequence of indexes. -/
theorem ProcTable.level_eq (h : ProcTable m pt) (hlow : va ≤ VA_LOWMAX) (hl : l ≤ 2) (hl' : l' ≤ 3)
    (ht : tableAt m pt va l = some t) (ht' : tableAt m pt va' l' = some t) :
    l' = l ∧ ∀ j, l < j → j ≤ 3 → pageindex va' j = pageindex va j := by
  obtain ⟨hdepth, hdigit⟩ := h.owned hlow (show 0 < 3 - l by omega) (by omega) (by omega) ht ht'
  refine ⟨by omega, fun j hlt hj => ?_⟩
  have hj' := hdigit (3 - j) (by omega)
  unfold digit at hj'
  rwa [show 3 - (3 - j) = j by omega] at hj'

theorem ProcTable.region_eq (h : ProcTable m pt) (hlow : va ≤ VA_LOWMAX) (hva' : va' < 2 ^ 48) (hl : l ≤ 2)
    (hl' : l' ≤ 3) (ht : tableAt m pt va l = some t) (ht' : tableAt m pt va' l' = some t) :
    l' = l ∧ va' / pagesize (l + 1) = va / pagesize (l + 1) := by
  obtain ⟨hlevel, hindex⟩ := h.level_eq hlow hl hl' ht ht'
  refine ⟨hlevel, region_eq_of_pageindex ?_ hva' hl hindex⟩
  simp only [VA_LOWMAX] at hlow
  omega

theorem low_of_region (hlow : va ≤ VA_LOWMAX) (hl : l ≤ 2) (h : va' / pagesize (l + 1) = va / pagesize (l + 1)) :
    va' ≤ VA_LOWMAX := by
  have h3 := div_pagesize_of_le h (show l + 1 ≤ 3 by omega)
  rw [pagesize_three] at h3
  simp only [VA_LOWMAX] at *
  omega

/-- No table that is above or ahead has been freed. -/
theorem Kept.notMem_freed (hkept : Kept m pt s) (h : ProcTable m pt) (hgone : Gone m pt s.freed E k) (hva : va < 2 ^ 48)
    (hl : l ≤ 3) (ht : tableAt m pt va l = some t) (hE : E ≤ regionEnd va (l + 1)) (hk : k ≤ l) : t ∉ s.freed := by
  intro hmem
  obtain ⟨v, n, hlow, hn, hv⟩ := hkept.low t hmem
  obtain ⟨rfl, hregion⟩ := h.region_eq hlow hva hn hl hv ht
  exact not_behind hE hk ((hgone va l t (low_of_region hlow hn hregion) hn ht).1 hmem)

/-- Where the table below an entry has not been freed, the entry is as it was. -/
theorem Kept.entry_eq (hkept : Kept m pt s) (h1 : 1 ≤ l) (h3 : l ≤ 3) (ht : tableAt m pt va l = some t)
    (hfree : t ∉ s.freed) (hbelow : ∀ u, tableAt m pt va (l - 1) = some u → u ∉ s.freed) :
    s.m t (pageindex va l) = m t (pageindex va l) := by
  refine (hkept.entry va l t h1 h3 ht hfree).2 fun u hu hsub => hbelow u ?_ hu
  rw [tableAt_of_succ (by omega) (by rw [show l - 1 + 1 = l by omega]; exact ht), show l - 1 + 1 = l by omega, hsub]

/-- All is freed when the place is past the low half. -/
theorem Gone.all (hgone : Gone m pt freed E k) (hE : 2 ^ 47 < E) : ∀ t, IsLowTable m pt t → t ∈ freed := by
  rintro t ⟨va, l, hlow, hl, ht⟩
  have hend := regionEnd_le_low hlow (show l + 1 ≤ 3 by omega)
  exact (hgone va l t hlow hl ht).2 (.inl (by omega))

/-! ## The steps -/

/-- What the loop has before it. -/
def left (s : Freeing) : ℕ :=
  match s.phase with
  | .down stop false => (2 ^ 48 - s.it.va_) * 40 + (4 - stop) * 8 + s.it.level_ + 5
  | .down _ true => (2 ^ 48 - s.it.va_) * 40 + (4 - s.it.level_) * 8 + 2
  | .test => (2 ^ 48 - s.it.va_) * 40 + (4 - s.it.level_) * 8 + 3
  | .exit => 0

/-- The entry behind the last one looked at, in the same table. -/
theorem At.next (hat : At m pt it)
    (hsame : regionEnd it.va_ it.level_ / pagesize (it.level_ + 1) = it.va_ / pagesize (it.level_ + 1)) :
    At m pt { it with pep_ := (it.pep_.1, it.pep_.2 + 1), va_ := regionEnd it.va_ it.level_ } := by
  have h3 := hat.le_three
  have hva := hat.va_lt
  obtain ⟨t, ht, hpep⟩ := hat.table
  refine ⟨hat.pt_eq, hat.one_le, h3, ?_, t, ?_, ?_⟩
  · have h4 := div_pagesize_of_le hsame (show it.level_ + 1 ≤ 4 by omega)
    simp only
    rw [pagesize_four] at h4
    omega
  · rw [← ht]
    exact tableAt_congr fun l hlt _ => pageindex_of_le hsame hlt
  · rw [hpep]
    unfold pageindex regionEnd at *
    rw [div_pagesize_succ, div_pagesize_succ, Nat.mul_div_cancel _ (pagesize_pos _)] at hsame
    simp only
    rw [Nat.mul_div_cancel _ (pagesize_pos _)]
    generalize it.va_ / pagesize it.level_ = x at *
    congr 1
    omega

/-- An entry that is behind is left. -/
theorem leave_place (hat : At m pt s.it) (hgone : Gone m pt s.freed (regionEnd s.it.va_ s.it.level_) s.it.level_) :
    Place m pt s.freed (s.leave 1).it (s.leave 1).phase ∧
      left (s.leave 1) < (2 ^ 48 - s.it.va_) * 40 + (4 - s.it.level_) * 8 + 2 := by
  have h1 := hat.one_le
  have h3 := hat.le_three
  have hva := hat.va_lt
  have hlt := lt_regionEnd s.it.va_ s.it.level_
  have hend := regionEnd_le hva (show s.it.level_ ≤ 4 by omega)
  unfold Freeing.leave
  simp only
  rw [Nat.mod_eq_of_lt (show regionEnd s.it.va_ s.it.level_ < 2 ^ 64 by omega)]
  split
  · rename_i hup
    have hlast := regionEnd_up hup
    split
    · rename_i htop
      rw [htop, regionEnd, pagesize_four] at hlast
      refine ⟨.last rfl (hgone.all ?_), ?_⟩
      · rw [htop]
        omega
      · simp only [left, VA_NONCANONMAX]
        omega
    · rename_i hlevel
      obtain ⟨t, ht, -⟩ := hat.table
      refine ⟨.down ⟨hat.pt_eq, by simp, le_rfl, hva, pt, rfl, by simp [hat.pt_eq]⟩ (by omega) (by simp only; omega)
        (by omega) (fun _ => ⟨t, ht⟩) ?_, ?_⟩
      · rw [hlast]
        exact hgone
      · simp only [left]
        omega
  · rename_i hsame
    rw [ne_eq, not_not] at hsame
    refine ⟨.down (hat.next hsame) le_rfl h1 (fun _ => regionEnd_mod _ _) (by omega) ?_, ?_⟩
    · intro va l t hlow hl ht
      rw [hgone va l t hlow hl ht, behind_next h1 h3 hsame hl]
    · simp only [left]
      omega

/-- Where an entry is not a table, all that is in its region is behind it. -/
theorem Gone.of_leaf (hgone : Gone m pt freed (regionEnd it.va_ 1) 0) (hat : At m pt it)
    (halign : it.va_ % pagesize it.level_ = 0) (hnone : tableAt m pt it.va_ (it.level_ - 1) = none) :
    Gone m pt freed (regionEnd it.va_ it.level_) it.level_ := by
  have h1 := hat.one_le
  intro va l t hlow hl ht
  rw [hgone va l t hlow hl ht, behind_region halign h1 hat.le_three hl]
  refine ⟨.inl, fun h => h.resolve_right ?_⟩
  rintro ⟨hlt, hregion⟩
  obtain ⟨u, hu⟩ := Trie.exists_node_of_le ht (show 3 - (it.level_ - 1) ≤ 3 - l by omega)
  have hcongr : tableAt m pt va (it.level_ - 1) = tableAt m pt it.va_ (it.level_ - 1) :=
    tableAt_congr fun j hj _ => pageindex_of_le hregion (by omega)
  rw [hnone] at hcongr
  rw [show tableAt m pt va (it.level_ - 1) = some u from hu] at hcongr
  cases hcongr

@[simp] theorem leave_m (s : Freeing) (stop : ℕ) : (s.leave stop).m = s.m := by
  unfold Freeing.leave
  simp only
  split
  · split <;> rfl
  · rfl

@[simp] theorem leave_freed (s : Freeing) (stop : ℕ) : (s.leave stop).freed = s.freed := by
  unfold Freeing.leave
  simp only
  split
  · split <;> rfl
  · rfl

theorem Kept.congr {s' : Freeing} (hkept : Kept m pt s) (hm : s'.m = s.m) (hfreed : s'.freed = s.freed) :
    Kept m pt s' := by
  refine ⟨?_, ?_, ?_, ?_, ?_⟩
  · rw [hfreed]
    exact hkept.low
  · rw [hfreed]
    exact hkept.nodup
  · rw [hfreed]
    exact hkept.below
  · rw [hfreed, hm]
    exact hkept.entry
  · rw [hm]
    exact hkept.frame

theorem toNat_of_subtable {e : BitVec 64} (h : subtable e = some u) : (e &&& PTE_PAMASK).toNat = u := by
  unfold subtable at h
  split at h
  · exact Option.some.inj h
  · cases h

/-- The table below an entry. -/
theorem tableAt_pred (h1 : 1 ≤ l) (h3 : l ≤ 3) (ht : tableAt m pt va l = some t) :
    tableAt m pt va (l - 1) = subtable (m t (pageindex va l)) := by
  obtain ⟨n, rfl⟩ : ∃ n, l = n + 1 := ⟨l - 1, by omega⟩
  exact tableAt_of_succ (by omega) ht

/-- `kfree_ptp()`: the table below the entry is freed, and the entry is cleared. -/
theorem Kept.kfree (hkept : Kept m pt s) (h : ProcTable m pt) (hlow : va ≤ VA_LOWMAX) (h1 : 1 ≤ l) (h3 : l ≤ 3)
    (ht : tableAt m pt va l = some t) (hu : tableAt m pt va (l - 1) = some u) (hnew : u ∉ s.freed)
    (hgone : Gone m pt s.freed (regionEnd va l) (l - 1)) (it : Ptiter) (phase : Phase) :
    Kept m pt ⟨s.m.write (t, pageindex va l) 0#64, s.freed ++ [u], it, phase⟩ := by
  refine ⟨?_, ?_, ?_, ?_, fun w hroot hnot => ?_⟩
  · intro w hw
    rcases List.mem_append.1 hw with hw | hw
    · exact hkept.low w hw
    · obtain rfl := List.mem_singleton.1 hw
      exact ⟨va, l - 1, hlow, by omega, hu⟩
  · exact List.nodup_append.2 ⟨hkept.nodup, List.nodup_singleton u, by
      intro a ha b hb
      obtain rfl := List.mem_singleton.1 hb
      rintro rfl
      exact hnew ha⟩
  · intro l₁ w l₂ heq va' n n' x hlow' hn hlt hw hx
    simp only at heq
    rcases List.eq_nil_or_concat l₂ with rfl | ⟨l₃, y, rfl⟩
    · -- the new page: the tables below it are behind
      obtain ⟨rfl, hlast⟩ := List.append_inj' heq rfl
      obtain rfl : u = w := by simpa using hlast
      have hva' : va' < 2 ^ 48 := by
        simp only [VA_LOWMAX] at hlow'
        omega
      obtain ⟨rfl, hregion⟩ := h.region_eq hlow hva' (by omega) (by omega) hu hw
      rw [show l - 1 + 1 = l by omega] at hregion
      refine (hgone va' n' x hlow' (by omega) hx).2 ?_
      have hmono : regionEnd va' (n' + 1) ≤ regionEnd va' l := regionEnd_mono (by omega)
      rw [regionEnd_eq_iff.2 hregion] at hmono
      rcases Nat.lt_or_eq_of_le hmono with hend | hend
      · exact .inl hend
      · exact .inr ⟨hend, hlt⟩
    · rw [List.concat_eq_append, ← List.cons_append, ← List.append_assoc] at heq
      obtain ⟨heq, -⟩ := List.append_inj' heq rfl
      exact hkept.below l₁ w l₃ heq va' n n' x hlow' hn hlt hw hx
  · intro va' n w hn1 hn3 hw hfree
    have hold := hkept.entry va' n w hn1 hn3 hw fun hmem => hfree (List.mem_append_left _ hmem)
    have hsub := tableAt_pred h1 h3 ht
    rw [hu] at hsub
    simp only
    by_cases hsame : w = t ∧ pageindex va' n = pageindex va l
    · obtain ⟨rfl, hindex⟩ := hsame
      rw [hindex, Mem.write_self]
      exact ⟨fun _ => rfl, fun hnone => absurd hsub.symm (hnone u (by simp))⟩
    · rw [Mem.write_of_ne (by rw [← not_and_or]; exact hsame)]
      refine ⟨?_, fun hnone => hold.2 fun x hx => hnone x (List.mem_append_left _ hx)⟩
      rintro ⟨x, hx, hxsub⟩
      rcases List.mem_append.1 hx with hx | hx
      · exact hold.1 ⟨x, hx, hxsub⟩
      · obtain rfl := List.mem_singleton.1 hx
        -- no other entry leads to the page
        exfalso
        have hbelow := tableAt_pred hn1 hn3 hw
        rw [hxsub] at hbelow
        obtain ⟨hlevel, hindex⟩ := h.level_eq hlow (show l - 1 ≤ 2 by omega) (by omega) hu hbelow
        obtain rfl : n = l := by omega
        rw [tableAt_congr fun j hlt hj => hindex j (by omega) hj, ht] at hw
        cases hw
        exact hsame ⟨rfl, hindex n (by omega) hn3⟩
  · have hne : w ≠ t := by
      rintro rfl
      by_cases hroot' : l = 3
      · subst hroot'
        exact hroot (Option.some.inj ht).symm
      · exact hnot ⟨va, l, hlow, by omega, ht⟩
    funext j
    exact (Mem.write_of_ne (.inl hne)).trans (congrFun (hkept.frame w hroot hnot) j)

/-- The place behind a table that has been freed. -/
theorem Gone.kfree (hgone : Gone m pt freed (regionEnd va l) (l - 1)) (h : ProcTable m pt) (hlow : va ≤ VA_LOWMAX)
    (h1 : 1 ≤ l) (h3 : l ≤ 3) (hu : tableAt m pt va (l - 1) = some u) :
    Gone m pt (freed ++ [u]) (regionEnd va l) l := by
  intro va' n w hlow' hn hw
  rw [behind_table h1, ← hgone va' n w hlow' hn hw, List.mem_append, List.mem_singleton]
  refine or_congr_right ⟨?_, ?_⟩
  · rintro rfl
    have hva' : va' < 2 ^ 48 := by
      simp only [VA_LOWMAX] at hlow'
      omega
    obtain ⟨rfl, hregion⟩ := h.region_eq hlow hva' (by omega) (by omega) hu hw
    rw [show l - 1 + 1 = l by omega] at hregion
    exact ⟨by omega, hregion⟩
  · rintro ⟨rfl, hregion⟩
    have hcongr : tableAt m pt va' n = tableAt m pt va n := tableAt_congr fun j hj _ => pageindex_of_le hregion hj
    rw [hw, show n = n + 1 - 1 by omega, hu] at hcongr
    exact Option.some.inj hcongr

/-- A step in `down` that goes to or stops at a table. -/
theorem step_table (h : ProcTable m pt) {stop : ℕ} (hphase : s.phase = .down stop false) (hat : At m pt s.it)
    (hone : 1 ≤ stop) (hle : stop ≤ s.it.level_) (halign : stop = 1 → s.it.va_ % pagesize s.it.level_ = 0)
    (htable : 2 ≤ stop → ∃ u, tableAt m pt s.it.va_ (stop - 1) = some u)
    (hgone : Gone m pt s.freed (regionEnd s.it.va_ stop) (stop - 1)) (hkept : Kept m pt s)
    (hfree : s.it.pep_.1 ∉ s.freed) (hsub : subtable s.entry = some u)
    (hu : tableAt m pt s.it.va_ (s.it.level_ - 1) = some u) :
    ∃ s', s.step = some s' ∧ Kept m pt s' ∧ Place m pt s'.freed s'.it s'.phase ∧ left s' < left s := by
  have h3 := hat.le_three
  by_cases hlevel : s.it.level_ = stop
  · refine ⟨_, Freeing.step_stop hphase hfree hsub hlevel, hkept.congr rfl rfl, .test hat ⟨u, hu⟩ ?_, ?_⟩
    · rw [hlevel]
      exact hgone
    · simp only [left, hphase]
      omega
  · have hpa := h.inHighmem _ _ u (by omega) hu
    refine ⟨_, Freeing.step_below hphase hfree hsub hlevel hpa, hkept.congr rfl rfl, ?_, ?_⟩
    · rw [hphase]
      refine .down ⟨hat.pt_eq, by simp only; omega, by simp only; omega, hat.va_lt, u, hu, rfl⟩ hone
        (by simp only; omega) (fun hstop => ?_) htable hgone
      -- the region starts where the region around it does
      have hmod := halign hstop
      simp only
      rw [show s.it.level_ = s.it.level_ - 1 + 1 by omega, pagesize_succ] at hmod
      exact Nat.mod_eq_zero_of_dvd (dvd_trans (Nat.dvd_mul_right _ 512) (Nat.dvd_of_mod_eq_zero hmod))
    · simp only [left, hphase]
      omega

/-- **One step**: it is possible, it keeps what holds in the loop, and less is left of the loop. -/
theorem step_place (h : ProcTable m pt) (hkept : Kept m pt s) (hplace : Place m pt s.freed s.it s.phase)
    (hphase : s.phase ≠ .exit) :
    ∃ s', s.step = some s' ∧ Kept m pt s' ∧ Place m pt s'.freed s'.it s'.phase ∧ left s' < left s := by
  generalize hp : s.phase = phase at hplace hphase
  cases hplace with
  | @down stop hat hone hle halign htable hgone =>
    have h1 := hat.one_le
    have h3 := hat.le_three
    obtain ⟨t, ht, hpep⟩ := hat.table
    have hfree := hkept.notMem_freed h hgone hat.va_lt h3 ht (regionEnd_mono (by omega)) (by omega)
    have hentry := hkept.entry_eq h1 h3 ht hfree fun u hu => hkept.notMem_freed h hgone hat.va_lt (by omega) hu
      (regionEnd_mono (by omega)) (by omega)
    have hread : s.entry = m t (pageindex s.it.va_ s.it.level_) := by
      unfold Freeing.entry
      rw [hpep, hentry]
    have hbelow := tableAt_pred h1 h3 ht
    rw [← hread] at hbelow
    have hfree' : s.it.pep_.1 ∉ s.freed := by rwa [hpep]
    cases hsub : subtable s.entry with
    | some u =>
      rw [hsub] at hbelow
      exact step_table h hp hat hone hle halign htable hgone hkept hfree' hsub hbelow
    | none =>
      rw [hsub] at hbelow
      -- the entries above the one to stop at lead to tables
      have hstop : stop = 1 := by
        by_contra hne
        obtain ⟨u, hu⟩ := htable (by omega)
        obtain ⟨v, hv⟩ := Trie.exists_node_of_le hu (show 3 - (s.it.level_ - 1) ≤ 3 - (stop - 1) by omega)
        rw [show tableAt m pt s.it.va_ (s.it.level_ - 1) = some v from hv] at hbelow
        cases hbelow
      subst hstop
      obtain ⟨hplace', hleft⟩ := leave_place hat (hgone.of_leaf hat (halign rfl) hbelow)
      refine ⟨_, Freeing.step_leave hp hfree' (.inl hsub), hkept.congr (leave_m s 1) (leave_freed s 1), ?_, ?_⟩
      · rw [leave_freed]
        exact hplace'
      · refine lt_trans hleft ?_
        simp only [left, hp]
        omega
  | skip hat hgone =>
    obtain ⟨t, ht, hpep⟩ := hat.table
    have hfree := hkept.notMem_freed h hgone hat.va_lt hat.le_three ht (regionEnd_mono (by omega)) le_rfl
    obtain ⟨hplace', hleft⟩ := leave_place hat hgone
    refine ⟨_, Freeing.step_leave hp (by rwa [hpep]) (.inr rfl), hkept.congr (leave_m s 1) (leave_freed s 1), ?_, ?_⟩
    · rw [leave_freed]
      exact hplace'
    · simp only [left, hp]
      exact hleft
  | test hat htable hgone =>
    have h1 := hat.one_le
    have h3 := hat.le_three
    have hend := lt_regionEnd s.it.va_ s.it.level_
    by_cases hlow : s.it.va_ ≤ VA_LOWMAX
    · obtain ⟨t, ht, hpep⟩ := hat.table
      obtain ⟨u, hu⟩ := htable
      have hfree := hkept.notMem_freed h hgone hat.va_lt h3 ht (regionEnd_mono (by omega)) (by omega)
      have hnew : u ∉ s.freed := by
        refine hkept.notMem_freed h hgone hat.va_lt (by omega) hu ?_ le_rfl
        exact regionEnd_mono (by omega)
      have hentry := hkept.entry_eq h1 h3 ht hfree fun w hw => by
        rw [hu] at hw
        cases hw
        exact hnew
      have hread : (s.entry &&& PTE_PAMASK).toNat = u := by
        unfold Freeing.entry
        rw [hpep, hentry]
        refine toNat_of_subtable ?_
        rw [← tableAt_pred h1 h3 ht, hu]
      refine ⟨_, Freeing.step_kfree hp hlow (by rwa [hpep]) hread hnew (h.inHighmem _ _ u (by omega) hu), ?_,
        .skip hat (hgone.kfree h hlow h1 h3 hu), ?_⟩
      · rw [hpep]
        exact hkept.kfree h hlow h1 h3 ht hu hnew hgone _ _
      · simp only [left, hp]
        omega
    · refine ⟨_, Freeing.step_exit hp (by omega), hkept.congr rfl rfl, .exit (hgone.all ?_), ?_⟩
      · simp only [VA_LOWMAX] at hlow
        omega
      · simp only [left, hp]
        omega
  | last hva hgone =>
    refine ⟨_, Freeing.step_exit hp (by rw [hva]; decide), hkept.congr rfl rfl, .exit hgone, ?_⟩
    simp only [left, hp]
    omega
  | exit hgone => exact absurd rfl hphase

/-- **A run** from such a place leaves the loop. -/
theorem run_place (h : ProcTable m pt) (hkept : Kept m pt s) (hplace : Place m pt s.freed s.it s.phase) :
    ∃ n s', s.run n = some s' ∧ s'.phase = .exit ∧ Kept m pt s' ∧ ∀ t, IsLowTable m pt t → t ∈ s'.freed := by
  generalize hn : left s = n
  induction n using Nat.strong_induction_on generalizing s with
  | _ n ih =>
    by_cases hphase : s.phase = .exit
    · refine ⟨0, s, rfl, hphase, hkept, ?_⟩
      rw [hphase] at hplace
      cases hplace with
      | exit hgone => exact hgone
    · obtain ⟨s₁, hstep, hkept₁, hplace₁, hleft⟩ := step_place h hkept hplace hphase
      obtain ⟨k, s', hrun, hexit⟩ := ih (left s₁) (by omega) hkept₁ hplace₁ rfl
      exact ⟨k + 1, s', by rw [Freeing.run_succ hphase hstep, hrun], hexit⟩

theorem start_kept (m : Mem) (pt : ℕ) : Kept m pt (Freeing.start m pt) := by
  refine ⟨by simp [Freeing.start], List.nodup_nil, ?_, ?_, fun _ _ _ => rfl⟩
  · intro l₁ t l₂ heq
    exact absurd heq (by simp [Freeing.start])
  · intro va l t _ _ _ _
    exact ⟨by simp [Freeing.start], fun _ => rfl⟩

theorem start_place (m : Mem) (pt : ℕ) :
    Place m pt (Freeing.start m pt).freed (Freeing.start m pt).it (Freeing.start m pt).phase := by
  have hlevel : (Freeing.start m pt).it.level_ = 3 := rfl
  have hva : (Freeing.start m pt).it.va_ = 0 := rfl
  refine .down ⟨rfl, by omega, by omega, by omega, pt, rfl, rfl⟩ le_rfl (by omega) (fun _ => ?_) (by omega) ?_
  · rw [hva, Nat.zero_mod]
  intro va l t _ hl _
  have hend := lt_regionEnd va (l + 1)
  have hfirst : regionEnd 0 1 = pagesize 1 := by decide
  have hge : pagesize 1 ≤ regionEnd va (l + 1) := by
    refine le_trans ?_ (Nat.le_mul_of_pos_left _ (Nat.succ_pos _))
    exact Nat.pow_le_pow_right (by decide) (by omega)
  unfold Behind
  rw [hva, hfirst]
  simp only [Freeing.start, List.not_mem_nil, false_iff]
  omega

end

/-- **The loop that frees a page table comes to its end, without a page that is used after it was freed. It frees
every table page of the low half once, after the table pages below it, and no page of the upper half.** -/
theorem frees_low_tables {m : Mem} {pt : ℕ} (h : ProcTable m pt) :
    ∃ n s, (Freeing.start m pt).run n = some s ∧ s.phase = .exit ∧ s.freed.Nodup ∧
      (∀ t, t ∈ s.freed ↔ IsLowTable m pt t) ∧
      (∀ l₁ t l₂, s.freed = l₁ ++ t :: l₂ → ∀ va l l' u, va ≤ VA_LOWMAX → l ≤ 2 → l' < l →
        tableAt m pt va l = some t → tableAt m pt va l' = some u → u ∈ l₁) ∧
      ∀ va l t, VA_LOWMAX < va → va < 2 ^ 48 → l ≤ 3 → tableAt m pt va l = some t → t ∉ s.freed := by
  obtain ⟨n, s, hrun, hexit, hkept, hall⟩ := run_place h (start_kept m pt) (start_place m pt)
  refine ⟨n, s, hrun, hexit, hkept.nodup, fun t => ⟨hkept.low t, hall t⟩, hkept.below, ?_⟩
  intro va l t hhigh hva hl ht hmem
  obtain ⟨v, n, hlow, hn, hv⟩ := hkept.low t hmem
  obtain ⟨rfl, hregion⟩ := h.region_eq hlow hva hn hl hv ht
  exact absurd (low_of_region hlow hn hregion) (by omega)

theorem mappedMem_subtable {t i u : ℕ} (h : subtable (State.mappedMem t i) = some u) : u ≤ 0x5000 := by
  simp only [State.mappedMem, Vmiter.addTable, Mem.write, Mem.clear, State.blank] at h
  split_ifs at h
  all_goals
    have hu := toNat_of_subtable h
    rw [← hu]
    decide

theorem procTable_mapped : ProcTable State.mappedMem 0x1000 := by
  have htree := (State.Reached.inv State.reached_mapped).tree
  refine ⟨fun k k' d d' t _ hpos hd hd' ht ht' => htree trivial hpos hd hd' ht ht', fun va l t hl ht => ?_⟩
  obtain ⟨u, -, hsub⟩ := exists_tableAt_succ (by omega) ht
  exact lt_of_le_of_lt (mappedMem_subtable hsub) (by decide)

/-- The three tables of one page. -/
theorem frees_low_tables_mapped : IsLowTable State.mappedMem 0x1000 0x4000 ∧
    ∃ n s, (Freeing.start State.mappedMem 0x1000).run n = some s ∧ 0x4000 ∈ s.freed := by
  have htable : IsLowTable State.mappedMem 0x1000 0x4000 := ⟨0x1000, 0, by decide, by decide, by decide⟩
  obtain ⟨n, s, hrun, -, -, hmem, -⟩ := frees_low_tables procTable_mapped
  exact ⟨htable, n, s, hrun, (hmem 0x4000).2 htable⟩

end Chickadee.Ptable
