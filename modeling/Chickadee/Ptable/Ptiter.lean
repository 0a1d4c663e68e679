import Chickadee.Ptable.Memory

/-!
# `ptiter` and the loop that frees a page table

A `ptiter` goes over the entries of the upper tables in the order of their addresses, with nothing but its own
address and level for a memory. At the end of a table it starts again from the root and stops at the entry that leads
to that table, which has then been left behind with all that is below it. `free_auto_allocs` frees the table pages
as it meets them.
-/

namespace Chickadee.Ptable

open Lib
open Vm (PAGESIZE VA_LOWMAX VA_LOWEND VA_HIGHMIN pagesize va_is_canonical)

/-- `ptiter` -/
structure Ptiter where
  pt_ : ℕ
  pep_ : ℕ × ℕ
  level_ : ℕ
  va_ : ℕ

/-- Where `for (ptiter it(pt); it.low(); it.next()) it.kfree_ptp();` is: in a turn of the loop of `down`, at its own
test, or behind it. -/
inductive Phase
  | down (stop_level : ℕ) (skip : Bool)
  | test
  | exit

/-- The memory, the pages that have been passed to `kfree`, in that order, and the loop. -/
structure Freeing where
  m : Mem
  freed : List ℕ
  it : Ptiter
  phase : Phase

/-- The address behind the region of a level that an address is in. -/
def regionEnd (va level : ℕ) : ℕ := (va / pagesize level + 1) * pagesize level

namespace Freeing

/-- `ptiter it(pt)` -/
def start (m : Mem) (pt : ℕ) : Freeing := ⟨m, [], ⟨pt, (pt, pageindex 0 3), 3, 0⟩, .down 1 false⟩

/-- `*pep_` -/
def entry (s : Freeing) : BitVec 64 := s.m s.it.pep_.1 s.it.pep_.2

/-- The part of `down` that leaves an entry: to the next entry of the table, or up. -/
def leave (s : Freeing) (stop_level : ℕ) : Freeing :=
  let va := regionEnd s.it.va_ s.it.level_ % 2 ^ 64
  if va / pagesize (s.it.level_ + 1) ≠ s.it.va_ / pagesize (s.it.level_ + 1) then
    if s.it.level_ = 3 then { s with it := { s.it with va_ := VA_NONCANONMAX + 1 }, phase := .test }
    else
      { s with
        it := { s.it with level_ := 3, pep_ := (s.it.pt_, pageindex s.it.va_ 3) }
        phase := .down (s.it.level_ + 1) false }
  else
    { s with it := { s.it with pep_ := (s.it.pep_.1, s.it.pep_.2 + 1), va_ := va }, phase := .down stop_level false }

/-- One turn of the loop of `down`, or the test of the loop with `kfree_ptp` and `next`. There is no step where a
page is read, written or freed after it was freed, and none where `pa2kptr` panics. -/
def step (s : Freeing) : Option Freeing :=
  match s.phase with
  | .down stop_level skip =>
    if s.it.pep_.1 ∈ s.freed then none
    else
      match subtable s.entry, skip with
      | some pa, false =>
        if s.it.level_ = stop_level then some { s with phase := .test }
        else if pa < HIGHMEM_SIZE then
          some { s with
            it := { s.it with level_ := s.it.level_ - 1, pep_ := (pa, pageindex s.it.va_ (s.it.level_ - 1)) } }
        else none
      | _, _ => some (s.leave stop_level)
  | .test =>
    if s.it.va_ ≤ VA_LOWMAX then
      let pa := (s.entry &&& PTE_PAMASK).toNat
      if s.it.pep_.1 ∈ s.freed ∨ pa ∈ s.freed ∨ HIGHMEM_SIZE ≤ pa then none
      else some ⟨s.m.write s.it.pep_ 0#64, s.freed ++ [pa], s.it, .down 1 true⟩
    else some { s with phase := .exit }
  | .exit => some s

/-- `n` steps, fewer where the loop is left before. -/
def run : ℕ → Freeing → Option Freeing
  | 0, s => some s
  | n + 1, s =>
    match s.phase with
    | .exit => some s
    | _ => s.step.bind (run n)

section

variable {s : Freeing} {stop pa : ℕ} {skip : Bool}

/-! ## What a step does -/

theorem step_stop (hphase : s.phase = .down stop false) (hfree : s.it.pep_.1 ∉ s.freed)
    (hsub : subtable s.entry = some pa) (hlevel : s.it.level_ = stop) : s.step = some { s with phase := .test } := by
  unfold step
  rw [hphase]
  simp only [if_neg hfree, hsub, if_pos hlevel]

theorem step_below (hphase : s.phase = .down stop false) (hfree : s.it.pep_.1 ∉ s.freed)
    (hsub : subtable s.entry = some pa) (hlevel : s.it.level_ ≠ stop) (hpa : pa < HIGHMEM_SIZE) : s.step
      = some { s with
          it := { s.it with level_ := s.it.level_ - 1, pep_ := (pa, pageindex s.it.va_ (s.it.level_ - 1)) } } := by
  unfold step
  rw [hphase]
  simp only [if_neg hfree, hsub, if_neg hlevel, if_pos hpa]

theorem step_leave (hphase : s.phase = .down stop skip) (hfree : s.it.pep_.1 ∉ s.freed)
    (hleave : subtable s.entry = none ∨ skip = true) : s.step = some (s.leave stop) := by
  unfold step
  rw [hphase]
  simp only [if_neg hfree]
  rcases hleave with hsub | rfl
  · simp only [hsub]
  · cases subtable s.entry <;> rfl

theorem step_kfree (hphase : s.phase = .test) (hlow : s.it.va_ ≤ VA_LOWMAX) (hfree : s.it.pep_.1 ∉ s.freed)
    (hpa : (s.entry &&& PTE_PAMASK).toNat = pa) (hnew : pa ∉ s.freed) (hlt : pa < HIGHMEM_SIZE) :
    s.step = some ⟨s.m.write s.it.pep_ 0#64, s.freed ++ [pa], s.it, .down 1 true⟩ := by
  unfold step
  rw [hphase]
  simp only [if_pos hlow, hpa]
  exact if_neg (by simp [hfree, hnew, hlt])

theorem step_exit (hphase : s.phase = .test) (hhigh : VA_LOWMAX < s.it.va_) :
    s.step = some { s with phase := .exit } := by
  unfold step
  rw [hphase]
  exact if_neg (by omega)

theorem run_succ {n : ℕ} {s' : Freeing} (hphase : s.phase ≠ .exit) (hstep : s.step = some s') :
    s.run (n + 1) = s'.run n := by
  conv_lhs => unfold run
  split
  · exact absurd ‹_› hphase
  · rw [hstep, Option.bind_some]

theorem run_of_exit (hphase : s.phase = .exit) (n : ℕ) : s.run n = some s := by
  cases n with
  | zero => rfl
  | succ n =>
    unfold run
    rw [hphase]

/-- Where the loop has come to its end it stays. -/
theorem run_le {n k : ℕ} {s' : Freeing} (hrun : s.run n = some s') (hexit : s'.phase = .exit) (hle : n ≤ k) :
    s.run k = some s' := by
  induction n generalizing s k with
  | zero =>
    cases hrun
    exact run_of_exit hexit k
  | succ n ih =>
    by_cases hphase : s.phase = .exit
    · rw [run_of_exit hphase] at hrun ⊢
      exact hrun
    · obtain ⟨k, rfl⟩ : ∃ j, k = j + 1 := ⟨k - 1, by omega⟩
      cases hstep : s.step with
      | none =>
        unfold run at hrun
        split at hrun
        · rename_i hp
          exact absurd hp hphase
        · rw [hstep] at hrun
          cases hrun
      | some s₁ =>
        rw [run_succ hphase hstep] at hrun ⊢
        exact ih hrun (by omega)

end

end Freeing

/-! ## Regions -/

section

variable {va va' level l : ℕ}

theorem lt_regionEnd (va level : ℕ) : va < regionEnd va level := by
  have hlt := Nat.lt_div_mul_add (pagesize_pos level) (a := va)
  unfold regionEnd
  rwa [Nat.add_mul, Nat.one_mul]

theorem regionEnd_eq_iff : regionEnd va' level = regionEnd va level ↔ va' / pagesize level = va / pagesize level := by
  unfold regionEnd
  rw [Nat.mul_left_inj (pagesize_pos level).ne', Nat.add_right_cancel_iff]

theorem regionEnd_mod (va level : ℕ) : regionEnd va level % pagesize level = 0 := Nat.mul_mod_left _ _

theorem regionEnd_mono (h : level ≤ l) : regionEnd va level ≤ regionEnd va l := by
  induction l, h using Nat.le_induction with
  | base => exact le_rfl
  | succ l _ ih =>
    refine le_trans ih ?_
    unfold regionEnd
    rw [div_pagesize_succ, pagesize_succ, Nat.mul_comm (pagesize l), ← Nat.mul_assoc]
    exact Nat.mul_le_mul_right _ (by omega)

theorem regionEnd_le (hva : va < 2 ^ 48) (hl : level ≤ 4) : regionEnd va level ≤ 2 ^ 48 := by
  refine le_trans (regionEnd_mono hl) ?_
  unfold regionEnd
  rw [pagesize_four]
  omega

/-- The regions of the upper levels that are in the low half end there. -/
theorem regionEnd_le_low (hva : va ≤ VA_LOWMAX) (hl : level ≤ 3) : regionEnd va level ≤ 2 ^ 47 := by
  refine le_trans (regionEnd_mono hl) ?_
  unfold regionEnd
  rw [pagesize_three]
  simp only [VA_LOWMAX] at hva
  omega

/-! ## The order in which the tables are left behind -/

/-- The table at level `l` on the path of `va` is behind the place `(E, k)`: its region ends before `E`, or it ends
there and the table is below level `k`. -/
def Behind (E k va l : ℕ) : Prop := regionEnd va (l + 1) < E ∨ regionEnd va (l + 1) = E ∧ l < k

/-- At the start of a region, what is behind its first entries is behind its last ones as well; between are the
tables in the region. -/
theorem behind_region {v level : ℕ} (hv : v % pagesize level = 0) (h1 : 1 ≤ level) (h3 : level ≤ 3) (hl : l ≤ 2) :
    Behind (regionEnd v level) level va l ↔
      Behind (regionEnd v 1) 0 va l ∨ l < level ∧ va / pagesize level = v / pagesize level := by
  unfold Behind regionEnd
  interval_cases level <;> interval_cases l <;>
    simp only [Nat.reduceAdd, pagesize_one, pagesize_two, pagesize_three] at * <;> omega

/-- On the way to the next entry of a table nothing is left behind. -/
theorem behind_next {v level : ℕ} (h1 : 1 ≤ level) (h3 : level ≤ 3)
    (hsame : regionEnd v level / pagesize (level + 1) = v / pagesize (level + 1)) (hl : l ≤ 2) :
    Behind (regionEnd v level) level va l ↔ Behind (regionEnd (regionEnd v level) 1) 0 va l := by
  unfold Behind regionEnd at *
  interval_cases level <;> interval_cases l <;>
    simp only [Nat.reduceAdd, pagesize_one, pagesize_two, pagesize_three, pagesize_four] at * <;> omega

/-- The last entry of a table ends where the table does. -/
theorem regionEnd_up {v level : ℕ} (hup : regionEnd v level / pagesize (level + 1) ≠ v / pagesize (level + 1)) :
    regionEnd v (level + 1) = regionEnd v level := by
  unfold regionEnd at *
  rw [div_pagesize_succ, div_pagesize_succ, Nat.mul_div_cancel _ (pagesize_pos level)] at hup
  rw [div_pagesize_succ, pagesize_succ, Nat.mul_comm (pagesize level), ← Nat.mul_assoc]
  congr 1
  omega

/-- The table below the entry is the one that comes next. -/
theorem behind_table {v level : ℕ} (h1 : 1 ≤ level) : Behind (regionEnd v level) level va l ↔
    Behind (regionEnd v level) (level - 1) va l ∨ l + 1 = level ∧ va / pagesize level = v / pagesize level := by
  unfold Behind
  constructor
  · rintro (hlt | ⟨heq, hl⟩)
    · exact .inl (.inl hlt)
    · by_cases hlevel : l + 1 = level
      · subst hlevel
        exact .inr ⟨rfl, regionEnd_eq_iff.1 heq⟩
      · exact .inl (.inr ⟨heq, by omega⟩)
  · rintro ((hlt | ⟨heq, hl⟩) | ⟨rfl, hregion⟩)
    · exact .inl hlt
    · exact .inr ⟨heq, by omega⟩
    · exact .inr ⟨regionEnd_eq_iff.2 hregion, by omega⟩

/-- A table above is not behind. -/
theorem not_behind {v level E k : ℕ} (hE : E ≤ regionEnd v (level + 1)) (hk : k ≤ level) : ¬Behind E k v level := by
  unfold Behind
  omega

end

end Chickadee.Ptable
