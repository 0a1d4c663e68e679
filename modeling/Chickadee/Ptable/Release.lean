import Chickadee.Ptable.Mapped

/-!
# Freeing the memory of a process

`free_auto_allocs` frees the pages that user code may access, up to `MEMSIZE_VIRTUAL` and but for the one at the address
of the console, and then the page table. Each page is freed once.
-/

namespace Chickadee.Ptable

open Lib
open Vm (PAGESIZE VA_LOWMAX VA_LOWEND VA_HIGHMIN MEMSIZE_VIRTUAL CONSOLE_ADDR pagesize va_is_canonical)

/-- `kfree_page()`, with the pages that have been passed to `kfree`. There is no result where it frees a page again, and
none where an assertion fails, `pa2kptr` panics or the entry is `zero_pe`. -/
def Vmiter.kfree_page (m : Mem) (it : Vmiter) (freed : List ℕ) : Option (Mem × List ℕ) :=
  if it.va_ % PAGESIZE = 0 then
    it.pep_.bind fun p =>
      if m.read it.pep_ &&& PTE_P ≠ 0#64 then
        if it.pa m ∈ freed ∨ HIGHMEM_SIZE ≤ it.pa m then none else some (m.write p 0#64, freed ++ [it.pa m])
      else some (m.write p 0#64, freed)
  else none

/-- `for (vmiter itc(p); itc.va() < MEMSIZE_VIRTUAL; )`. Every turn goes to a page behind. -/
def freeLoop : ℕ → Mem → List ℕ → Vmiter → Option (Mem × List ℕ)
  | 0, _, _, _ => none
  | n + 1, m, freed, itc =>
    if itc.va_ < MEMSIZE_VIRTUAL then
      if itc.va_ = CONSOLE_ADDR then (itc.next m).bind (freeLoop n m freed)
      else if itc.user m then
        (itc.kfree_page m freed).bind fun r => (itc.next r.1).bind (freeLoop n r.1 r.2)
      else (itc.next_range m).bind (freeLoop n m freed)
    else some (m, freed)

/-- `free_auto_allocs(pt)`: the memory and the pages that are passed to `kfree`, in that order. The loop over the page
table makes `n` steps. -/
def free_auto_allocs (n : ℕ) (m : Mem) (pt : ℕ) : Option (Mem × List ℕ) :=
  (Vmiter.start m pt 0).bind fun itc => (freeLoop (NPAGES + 1) m [] itc).bind fun r =>
    ((Freeing.start r.1 pt).run n).bind fun s =>
      match s.phase with
      | .exit => some (s.m, r.2 ++ s.freed)
      | _ => none

/-- The page of the console. -/
abbrev CONSOLE_PAGE : ℕ := CONSOLE_ADDR / PAGESIZE

/-- A page of a process that belongs to it alone. -/
def Private (f : ℕ → BitVec 64) (p : ℕ) : Prop := IsUser (f p) ∧ p ≠ CONSOLE_PAGE

instance (f : ℕ → BitVec 64) (p : ℕ) : Decidable (Private f p) := inferInstanceAs (Decidable (_ ∧ _))

/-- The pages below page `n` whose entries satisfy `P`, as physical addresses. -/
def pagesOf (P : BitVec 64 → ℕ → Prop) [∀ e p, Decidable (P e p)] (f : ℕ → BitVec 64) (n : ℕ) : List ℕ :=
  ((List.range n).filter fun p => P (f p) p).map fun p => entryPa (f p)

/-- The private pages below page `n`. -/
def frames (f : ℕ → BitVec 64) (n : ℕ) : List ℕ := pagesOf (fun e p => IsUser e ∧ p ≠ CONSOLE_PAGE) f n

/-- The entries once the private pages below page `n` have been freed. -/
def cleared (f : ℕ → BitVec 64) (n p : ℕ) : BitVec 64 := if p < n ∧ Private f p then 0#64 else f p

open Vmiter

section

variable {m m' : Mem} {pt va t p q n : ℕ} {it it' : Vmiter} {f g : ℕ → BitVec 64} {freed : List ℕ}

theorem not_isUser_zero : ¬IsUser 0#64 := by decide

theorem not_private_of_zero (h : f p = 0#64) : ¬Private f p := by
  rintro ⟨huser, -⟩
  rw [h] at huser
  exact not_isUser_zero huser

/-! ## Pages, one by one -/

section

variable {P Q : BitVec 64 → ℕ → Prop} [∀ e p, Decidable (P e p)] [∀ e p, Decidable (Q e p)]

theorem pagesOf_succ (f : ℕ → BitVec 64) (n : ℕ) :
    pagesOf P f (n + 1) = pagesOf P f n ++ if P (f n) n then [entryPa (f n)] else [] := by
  unfold pagesOf
  rw [List.range_succ, List.filter_append, List.map_append]
  by_cases h : P (f n) n
  · simp [h]
  · simp [h]

theorem pagesOf_skip (hpq : p ≤ q) (hzero : ∀ j, p ≤ j → j < q → ¬P (f j) j) : pagesOf P f q = pagesOf P f p := by
  induction q, hpq using Nat.le_induction with
  | base => rfl
  | succ q hpq ih =>
    rw [pagesOf_succ, if_neg (hzero q hpq (by omega)), List.append_nil]
    exact ih fun j hj hjq => hzero j hj (by omega)

theorem pagesOf_congr (h : ∀ j < n, g j = f j) : pagesOf P g n = pagesOf P f n := by
  induction n with
  | zero => rfl
  | succ n ih => rw [pagesOf_succ, pagesOf_succ, ih fun j hj => h j (by omega), h n (by omega)]

theorem mem_pagesOf : t ∈ pagesOf P f n ↔ ∃ p < n, P (f p) p ∧ t = entryPa (f p) := by
  unfold pagesOf
  simp only [List.mem_map, List.mem_filter, List.mem_range, decide_eq_true_eq, and_assoc, eq_comm (a := t)]

theorem pagesOf_nodup_iff : (pagesOf P f n).Nodup ↔
    ∀ p < n, ∀ q < n, P (f p) p → P (f q) q → entryPa (f p) = entryPa (f q) → p = q := by
  unfold pagesOf
  rw [List.nodup_map_iff_inj_on (List.nodup_range.filter _)]
  simp only [List.mem_filter, List.mem_range, decide_eq_true_eq]
  constructor
  · exact fun h p hp q hq hPp hPq heq => h p ⟨hp, hPp⟩ q ⟨hq, hPq⟩ heq
  · exact fun h p hp q hq heq => h p hp.1 q hq.1 hp.2 hq.2 heq

/-- Fewer pages. -/
theorem pagesOf_sublist (h : ∀ p < n, P (f p) p → Q (f p) p) : (pagesOf P f n).Sublist (pagesOf Q f n) := by
  induction n with
  | zero => exact .slnil
  | succ n ih =>
    rw [pagesOf_succ, pagesOf_succ]
    refine (ih fun p hp => h p (by omega)).append ?_
    by_cases hn : P (f n) n
    · rw [if_pos hn, if_pos (h n (by omega) hn)]
    · rw [if_neg hn]
      exact List.nil_sublist _

end

theorem frames_succ (f : ℕ → BitVec 64) (n : ℕ) :
    frames f (n + 1) = frames f n ++ if Private f n then [entryPa (f n)] else [] := pagesOf_succ f n

/-- Pages without an entry add nothing. -/
theorem frames_skip (hpq : p ≤ q) (hzero : ∀ j, p ≤ j → j < q → ¬Private f j) : frames f q = frames f p :=
  pagesOf_skip hpq hzero

theorem mem_frames : t ∈ frames f n ↔ ∃ p < n, Private f p ∧ t = entryPa (f p) := mem_pagesOf

/-- No private page comes before itself. -/
theorem notMem_frames (hnodup : (frames f n).Nodup) (hp : p < n) (hprivate : Private f p) :
    entryPa (f p) ∉ frames f p := by
  intro hmem
  obtain ⟨q, hq, hprivate', heq⟩ := mem_frames.1 hmem
  have hpq := pagesOf_nodup_iff.1 hnodup p hp q (by omega) hprivate hprivate' heq
  omega

theorem cleared_skip (hpq : p ≤ q) (hzero : ∀ j, p ≤ j → j < q → ¬Private f j) : cleared f q = cleared f p := by
  funext j
  unfold cleared
  by_cases hj : j < p
  · simp [hj, lt_of_lt_of_le hj hpq]
  · rw [if_neg, if_neg (by simp [hj])]
    rintro ⟨hjq, hprivate⟩
    exact hzero j (by omega) hjq hprivate

theorem cleared_succ (hprivate : Private f p) : cleared f (p + 1) = Function.update (cleared f p) p 0#64 := by
  funext j
  by_cases hj : j = p
  · rw [hj, Function.update_self]
    exact if_pos ⟨by omega, hprivate⟩
  · rw [Function.update_of_ne hj]
    unfold cleared
    simp only [show j < p + 1 ↔ j < p by omega]

theorem cleared_of_le (h : n ≤ p) : cleared f n p = f p := if_neg (by omega)

theorem page_div (p : ℕ) : p * PAGESIZE / PAGESIZE = p := Nat.mul_div_cancel p (by decide)

theorem page_mod (p : ℕ) : p * PAGESIZE % PAGESIZE = 0 := Nat.mul_mod_left p _

theorem page_lt_iff : p * PAGESIZE < MEMSIZE_VIRTUAL ↔ p < NPAGES := by
  simp only [NPAGES, MEMSIZE_VIRTUAL, PAGESIZE]
  omega

theorem page_eq_console : p * PAGESIZE = CONSOLE_ADDR ↔ p = CONSOLE_PAGE := by
  simp only [CONSOLE_PAGE, CONSOLE_ADDR, PAGESIZE]
  omega

/-! ## The loop -/

/-- One page is freed. -/
theorem Space.kfree_page (h : Space m pt f) (hready : Ready m pt (p * PAGESIZE) it) (hlow : p * PAGESIZE ≤ VA_LOWMAX)
    (huser : IsUser (f p)) (hnew : entryPa (f p) ∉ freed) :
    ∃ m', it.kfree_page m freed = some (m', freed ++ [entryPa (f p)]) ∧ Space m' pt (Function.update f p 0#64) ∧
      Ready m' pt (p * PAGESIZE) it ∧ (∀ x l, tableAt m' pt x l = tableAt m pt x l) ∧
      ∀ u, (∀ x ≤ VA_LOWMAX, ∀ l, tableAt m pt x l ≠ some u) → m' u = m u := by
  have hread := h.read_eq hlow hready
  rw [page_div] at hread
  have hp := isUser_present huser
  have hpa : it.pa m = entryPa (f p) := by
    rw [hready.pa_eq (by rw [hread, hp]), hread, page_mod, Nat.add_zero]
  have hlevel : it.level_ = 0 := by
    refine h.level_eq hlow hready ?_
    rw [page_div]
    rintro hzero
    rw [hzero] at hp
    exact absurd hp (by decide)
  obtain ⟨t, hpep, ht, hspace, hready'⟩ := h.write_leaf hready hlow hlevel (show Vmiter.inMemory 0#64 = true by decide)
  rw [page_div] at hspace
  have hlt : entryPa (f p) < HIGHMEM_SIZE := lt_trans (of_decide_eq_true (h.inMemory p)) (by decide)
  refine ⟨_, ?_, hspace, hready', tableAt_write_leaf h.tree ht 0#64, fun u hu => ?_⟩
  · unfold Vmiter.kfree_page
    rw [seek_va hready.seek, if_pos (page_mod p), hread, hp, hpa, hpep]
    simp only [Option.bind_some]
    rw [if_pos (by decide), if_neg (by simp [hnew, hlt])]
  · funext j
    refine Mem.write_of_ne (.inl ?_)
    rintro rfl
    exact hu _ hlow 0 ht

/-- What the loop leaves. -/
structure Released (m : Mem) (pt : ℕ) (f : ℕ → BitVec 64) (p : ℕ) (m' : Mem) : Prop where
  space : Space m' pt (cleared f p)
  tables : ∀ x l, tableAt m' pt x l = tableAt m pt x l
  frame : ∀ u, (∀ x ≤ VA_LOWMAX, ∀ l, tableAt m pt x l ≠ some u) → m' u = m u

theorem freeLoop_succ (n : ℕ) (m : Mem) (freed : List ℕ) (it : Vmiter) : freeLoop (n + 1) m freed it
    = if it.va_ < MEMSIZE_VIRTUAL then
        if it.va_ = CONSOLE_ADDR then (it.next m).bind (freeLoop n m freed)
        else if it.user m then (it.kfree_page m freed).bind fun r => (it.next r.1).bind (freeLoop n r.1 r.2)
        else (it.next_range m).bind (freeLoop n m freed)
      else some (m, freed) := rfl

/-- Behind page `p` the next page with an entry is page `q` or later. -/
theorem not_private_skipped (hn : n ≤ p + 1) (hzero : ∀ j, p < j → j < q → cleared f n j = 0#64) :
    ∀ j, p + 1 ≤ j → j < q → ¬Private f j := by
  intro j hj hjq
  have hentry := hzero j (by omega) hjq
  rw [cleared_of_le (by omega)] at hentry
  exact not_private_of_zero hentry

/-- One turn. -/
theorem freeLoop_turn (hnodup : (frames f NPAGES).Nodup) (h : Released m pt f p m')
    (hready : Ready m' pt (p * PAGESIZE) it) (hlow : p * PAGESIZE ≤ VA_LOWMAX) (hp : p < NPAGES) :
    ∃ q m₁ it₁, freeLoop (n + 1) m' (frames f p) it = freeLoop n m₁ (frames f q) it₁ ∧ p < q ∧
      Released m pt f q m₁ ∧ Ready m₁ pt (q * PAGESIZE) it₁ ∧ q * PAGESIZE ≤ VA_LOWMAX ∧
      ∀ j, p + 1 ≤ j → j < q → ¬Private f j := by
  have hread := h.space.read_eq hlow hready
  rw [page_div, cleared_of_le le_rfl] at hread
  rw [freeLoop_succ, seek_va hready.seek, if_pos (page_lt_iff.2 hp)]
  by_cases hprivate : Private f p
  · -- the entry is zero when the `vmiter` moves on
    have hne : p * PAGESIZE ≠ CONSOLE_ADDR := fun hva => hprivate.2 (page_eq_console.1 hva)
    have huser := hready.user_iff.2 (by rw [hread]; exact hprivate.1)
    have hsame : cleared f p p = f p := cleared_of_le le_rfl
    obtain ⟨m₁, hfree, hspace, hready₁, htables, hframe⟩ := h.space.kfree_page hready hlow
      (by rw [hsame]; exact hprivate.1)
      (show entryPa (cleared f p p) ∉ frames f p by rw [hsame]; exact notMem_frames hnodup hp hprivate)
    rw [hsame] at hfree
    rw [← cleared_succ hprivate] at hspace
    obtain ⟨q, it₁, hmove, hpq, -, hlow₁, hready', hzero⟩ := hspace.next_range hp hready₁
    have hskip := not_private_skipped le_rfl hzero
    have hnext : frames f q = frames f p ++ [entryPa (f p)] := by
      rw [frames_skip hpq hskip, frames_succ, if_pos hprivate]
    refine ⟨q, m₁, it₁, ?_, hpq, ⟨?_, fun x l => ?_, fun u hu => ?_⟩, hready', hlow₁, hskip⟩
    · rw [if_neg hne, if_pos huser, hfree, Option.bind_some, hready₁.next_eq, hmove, Option.bind_some, hnext]
    · rw [cleared_skip hpq hskip]
      exact hspace
    · rw [htables, h.tables]
    · rw [hframe u fun x hx l => by rw [h.tables]; exact hu x hx l, h.frame u hu]
  · obtain ⟨q, it₁, hmove, hpq, -, hlow₁, hready', hzero⟩ := h.space.next_range hp hready
    have hskip := not_private_skipped (by omega) hzero
    have hstay : ∀ j, p ≤ j → j < q → ¬Private f j := by
      intro j hj hjq
      rcases Nat.eq_or_lt_of_le hj with rfl | hlt
      · exact hprivate
      · exact hskip j hlt hjq
    refine ⟨q, m', it₁, ?_, hpq, ⟨?_, h.tables, h.frame⟩, hready', hlow₁, hskip⟩
    · rw [frames_skip hpq.le hstay]
      by_cases hconsole : p * PAGESIZE = CONSOLE_ADDR
      · rw [if_pos hconsole, hready.next_eq, hmove, Option.bind_some]
      · have huser : ¬it.user m' = true := by
          rw [hready.user_iff, hread]
          exact fun huser => hprivate ⟨huser, fun hp => hconsole (page_eq_console.2 hp)⟩
        rw [if_neg hconsole, if_neg huser, hmove, Option.bind_some]
    · rw [cleared_skip hpq.le hstay]
      exact h.space

/-- The loop frees the private pages, in their order. -/
theorem freeLoop_released (hnodup : (frames f NPAGES).Nodup) (hn : NPAGES ≤ p + n) (h : Released m pt f p m')
    (hready : Ready m' pt (p * PAGESIZE) it) (hlow : p * PAGESIZE ≤ VA_LOWMAX)
    (hpast : ∀ j, NPAGES ≤ j → j < p → ¬Private f j) :
    ∃ m'', freeLoop (n + 1) m' (frames f p) it = some (m'', frames f NPAGES) ∧ Released m pt f NPAGES m'' := by
  by_cases hp : p < NPAGES
  · induction n generalizing p m' it with
    | zero => omega
    | succ n ih =>
      obtain ⟨q, m₁, it₁, hturn, hpq, hreleased, hready₁, hlow₁, hskip⟩ := freeLoop_turn hnodup h hready hlow hp
      rw [hturn]
      by_cases hq : q < NPAGES
      · exact ih (by omega) hreleased hready₁ hlow₁ (fun j hj hjq => hskip j (by omega) hjq) hq
      · have hstop : ∀ j, NPAGES ≤ j → j < q → ¬Private f j := fun j hj hjq => hskip j (by omega) hjq
        rw [freeLoop_succ, seek_va hready₁.seek, if_neg (by rw [page_lt_iff]; omega), frames_skip (by omega) hstop]
        exact ⟨m₁, rfl, by rw [← cleared_skip (by omega) hstop]; exact hreleased.space, hreleased.tables, hreleased.frame⟩
  · rw [freeLoop_succ, seek_va hready.seek, if_neg (by rw [page_lt_iff]; omega), frames_skip (by omega) hpast]
    exact ⟨m', rfl, by rw [← cleared_skip (by omega) hpast]; exact h.space, h.tables, h.frame⟩

/-! ## All memory of a process -/

/-- The memory of a process: no two private pages are one, and none of them is a table. -/
structure Process (m : Mem) (pt : ℕ) (f : ℕ → BitVec 64) : Prop where
  space : Space m pt f
  table : ProcTable m pt
  distinct : (frames f NPAGES).Nodup
  notTable : ∀ t ∈ frames f NPAGES, ¬IsLowTable m pt t

theorem ProcTable.congr (h : ProcTable m pt) (htables : ∀ x l, tableAt m' pt x l = tableAt m pt x l) :
    ProcTable m' pt := by
  refine ⟨h.owned.congr fun k d hd => ?_, fun x l t hl ht => ?_⟩
  · rw [node_eq_tableAt hd, node_eq_tableAt hd, htables]
  · rw [htables] at ht
    exact h.inHighmem x l t hl ht

/-- `free_auto_allocs` frees the private pages and then the tables. -/
theorem Process.free_auto_allocs (h : Process m pt f) : ∃ n m' tables,
    free_auto_allocs n m pt = some (m', frames f NPAGES ++ tables) ∧ (frames f NPAGES ++ tables).Nodup ∧
      (∀ t, t ∈ tables ↔ IsLowTable m pt t) ∧ ∀ u, u ≠ pt → ¬IsLowTable m pt u → m' u = m u := by
  obtain ⟨itc, hstart, hready, -⟩ := h.space.start (Nat.zero_le _)
  have hclear : cleared f 0 = f := by
    funext p
    exact cleared_of_le (Nat.zero_le p)
  have hreleased : Released m pt f 0 m := ⟨by rw [hclear]; exact h.space, fun _ _ => rfl, fun _ _ => rfl⟩
  obtain ⟨m₁, hloop, hend⟩ := freeLoop_released h.distinct (le_of_eq (Nat.zero_add NPAGES).symm) hreleased
    (by rw [Nat.zero_mul]; exact hready) (by decide) (by omega)
  have hlow : ∀ t, IsLowTable m₁ pt t ↔ IsLowTable m pt t := by
    intro t
    unfold IsLowTable
    simp only [hend.tables]
  obtain ⟨n, s, hrun, hexit, hkept, hall⟩ := run_place (h.table.congr hend.tables) (start_kept m₁ pt)
    (start_place m₁ pt)
  have hmem : ∀ t, t ∈ s.freed ↔ IsLowTable m pt t := by
    intro t
    rw [← hlow]
    exact ⟨hkept.low t, hall t⟩
  refine ⟨n, s.m, s.freed, ?_, ?_, hmem, fun u hroot hnot => ?_⟩
  · unfold Ptable.free_auto_allocs
    rw [hstart, Option.bind_some]
    have hnone : frames f 0 = [] := rfl
    rw [hnone] at hloop
    rw [hloop, Option.bind_some, hrun, Option.bind_some, hexit]
  · refine List.nodup_append.2 ⟨h.distinct, hkept.nodup, fun a ha b hb => ?_⟩
    rintro rfl
    exact h.notTable a ha ((hmem a).1 hb)
  · rw [hkept.frame u hroot (by rwa [hlow]), hend.frame u fun x hx l ht => ?_]
    by_cases hl : l < 3
    · exact hnot ⟨x, l, hx, by omega, ht⟩
    · have hzero : 3 - l = 0 := by omega
      unfold tableAt at ht
      rw [hzero] at ht
      exact hroot (Option.some.inj ht).symm

/-- With more steps it does the same. -/
theorem free_auto_allocs_le {k : ℕ} {r : Mem × List ℕ} (h : free_auto_allocs n m pt = some r) (hle : n ≤ k) :
    free_auto_allocs k m pt = some r := by
  unfold Ptable.free_auto_allocs at h ⊢
  obtain ⟨itc, hstart, hrest⟩ := Option.bind_eq_some_iff.1 h
  obtain ⟨r₁, hloop, hrest⟩ := Option.bind_eq_some_iff.1 hrest
  obtain ⟨s, hrun, hend⟩ := Option.bind_eq_some_iff.1 hrest
  rw [hstart, Option.bind_some, hloop, Option.bind_some]
  cases hphase : s.phase with
  | down stop skip =>
    rw [hphase] at hend
    cases hend
  | test =>
    rw [hphase] at hend
    cases hend
  | exit =>
    rw [Freeing.run_le hrun hphase hle, Option.bind_some]
    exact hend

theorem free_auto_allocs_unique {k : ℕ} {r r' : Mem × List ℕ} (h : free_auto_allocs n m pt = some r)
    (h' : free_auto_allocs k m pt = some r') : r = r' := by
  have hmax := free_auto_allocs_le h (Nat.le_max_left n k)
  rw [free_auto_allocs_le h' (Nat.le_max_right n k)] at hmax
  exact (Option.some.inj hmax).symm

/-- The pages that user code may access, up to `MEMSIZE_VIRTUAL` and but for the one at the address of the console. -/
def OwnPage (m : Mem) (pt t : ℕ) : Prop := ∃ va < MEMSIZE_VIRTUAL, va % PAGESIZE = 0 ∧ va ≠ CONSOLE_ADDR ∧
  ∃ perm, translate m pt va = some (t, perm) ∧ perm &&& PTE_U = PTE_U

theorem isUser_iff {e : BitVec 64} : IsUser e ↔ e &&& PTE_P = PTE_P ∧ e &&& PTE_PWU &&& PTE_U = PTE_U := by
  have hand : PTE_PWU &&& PTE_U = PTE_U := by decide
  rw [BitVec.and_assoc, hand]
  refine ⟨fun h => ⟨isUser_present h, ?_⟩, fun h => ?_⟩
  · calc e &&& PTE_U = e &&& (PTE_P ||| PTE_U) &&& PTE_U := by rw [BitVec.and_assoc]; rfl
      _ = PTE_U := by rw [h]; rfl
  · unfold IsUser
    rw [BitVec.and_or_distrib_left, h.1, h.2]

theorem Space.ownPage_iff (h : Space m pt f) : OwnPage m pt t ↔ t ∈ frames f NPAGES := by
  rw [mem_frames]
  constructor
  · rintro ⟨va, hva, halign, hconsole, perm, htr, huser⟩
    have hpage : va / PAGESIZE * PAGESIZE = va := Nat.div_mul_cancel (Nat.dvd_of_mod_eq_zero halign)
    rw [h.translate_eq (le_trans hva.le (by decide))] at htr
    split at htr
    · rename_i hp
      cases htr
      rw [halign, Nat.add_zero]
      refine ⟨va / PAGESIZE, ?_, ⟨isUser_iff.2 ⟨hp, huser⟩, fun heq => hconsole ?_⟩, rfl⟩
      · rw [← page_lt_iff, hpage]
        exact hva
      · rw [← hpage, heq]
        rfl
    · cases htr
  · rintro ⟨p, hp, ⟨huser, hconsole⟩, rfl⟩
    obtain ⟨hpresent, hu⟩ := isUser_iff.1 huser
    have hva := page_lt_iff.2 hp
    refine ⟨p * PAGESIZE, hva, page_mod p, fun heq => hconsole (page_eq_console.1 heq), f p &&& PTE_PWU, ?_, hu⟩
    rw [h.translate_eq (le_trans hva.le (by decide)), page_div, if_pos hpresent, page_mod, Nat.add_zero]

/-- **`free_auto_allocs` frees each private page and each table page of the low half once, and no other page.** -/
theorem frees_process (h : Process m pt f) : ∃ n m' freed, free_auto_allocs n m pt = some (m', freed) ∧ freed.Nodup ∧
    (∀ t, t ∈ freed ↔ OwnPage m pt t ∨ IsLowTable m pt t) ∧ ∀ u, u ≠ pt → u ∉ freed → m' u = m u := by
  obtain ⟨n, m', tables, hfree, hnodup, hmem, hframe⟩ := h.free_auto_allocs
  refine ⟨n, m', _, hfree, hnodup, fun t => ?_, fun u hroot hu => hframe u hroot fun hlow => hu ?_⟩
  · rw [List.mem_append, h.space.ownPage_iff, hmem]
  · exact List.mem_append_right _ ((hmem u).2 hlow)

end

/-! The process of the table with one page. -/

/-- Its entries. -/
def mappedEntries : ℕ → BitVec 64 := Function.update (fun _ => 0#64) 1 0x5007#64

theorem space_mapped : Space State.mappedMem 0x1000 mappedEntries := by
  have hblank : Space State.blank 0x1000 fun _ => 0#64 := space_blank (State.isTree_blank _) fun _ _ => rfl
  have hstart : Vmiter.start State.blank 0x1000 0x1000 = some ⟨0x1000, some (0x1000, 0), 3, 0xFFF#64, 0x1000⟩ := by
    decide
  obtain ⟨it, hit, hready, -⟩ := hblank.start (show 0x1000 ≤ VA_LOWMAX by decide)
  rw [hstart] at hit
  cases hit
  have hfresh : Fresh State.blank 0x1000 [0x2000, 0x3000, 0x4000] := by
    refine ⟨by decide, by decide, fun p hp va level ht => ?_⟩
    rw [State.tableAt_blank ht] at hp
    exact absurd hp (by decide)
  obtain ⟨m', it', hmap, -, -, hspace⟩ := hblank.try_map hready (by decide) (by decide) hfresh (by decide)
    (⟨by decide, by decide, by decide, by decide⟩ : Mapping 0x5000 0x7#64)
  have hmem : Vmiter.try_map State.blank ⟨0x1000, some (0x1000, 0), 3, 0xFFF#64, 0x1000⟩ (BitVec.ofNat 64 0x5000)
      ((0x7#64 : BitVec 64).truncate 32) [0x2000, 0x3000, 0x4000]
      = some (State.mappedMem, ⟨0x1000, some (0x4000, 1), 0, 0xFFF#64, 0x1000⟩, 0) := rfl
  rw [hmem] at hmap
  cases hmap
  exact hspace

theorem process_mapped : Process State.mappedMem 0x1000 mappedEntries := by
  have hframes : frames mappedEntries NPAGES = [0x5000] := by
    have hskip : ∀ j, 2 ≤ j → j < NPAGES → ¬Private mappedEntries j := by
      intro j hj _
      refine not_private_of_zero ?_
      unfold mappedEntries
      exact Function.update_of_ne (by omega) _ _
    rw [frames_skip (by decide) hskip]
    decide
  refine ⟨space_mapped, procTable_mapped, ?_, ?_⟩
  · rw [hframes]
    exact List.nodup_singleton _
  · rw [hframes]
    rintro t ht ⟨va, l, -, hl, hl'⟩
    rw [List.mem_singleton] at ht
    subst ht
    obtain ⟨u, hu, hsub⟩ := exists_tableAt_succ (by omega) hl'
    -- only the last table leads there, and that one is at level 0
    have hlast : u = 0x4000 := by
      by_contra hne
      simp only [State.mappedMem, Vmiter.addTable, Mem.write, Mem.clear, State.blank, hne, false_and, if_false] at hsub
      split_ifs at hsub
      all_goals exact absurd hsub (by decide)
    subst hlast
    have hbottom : tableAt State.mappedMem 0x1000 0x1000 0 = some 0x4000 := by decide
    have hlevel := (space_mapped.tree.level_eq (by omega) (by omega) hbottom hu).1
    omega

/-- The page and its tables. -/
theorem frees_process_mapped : OwnPage State.mappedMem 0x1000 0x5000 ∧
    ∃ n m' freed, free_auto_allocs n State.mappedMem 0x1000 = some (m', freed) ∧ 0x5000 ∈ freed := by
  have hown : OwnPage State.mappedMem 0x1000 0x5000 :=
    ⟨0x1000, by decide, by decide, by decide, 0x7#64, by decide, by decide⟩
  obtain ⟨n, m', freed, hfree, -, hmem, -⟩ := frees_process process_mapped
  exact ⟨hown, n, m', freed, hfree, (hmem _).2 (.inl hown)⟩

end Chickadee.Ptable
