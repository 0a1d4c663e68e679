import Chickadee.Lib.Meet
import Chickadee.Ptable.Calls

/-!
# `range_perm`

`range_perm(sz)` goes from range to range and keeps the permissions that all of them have. The first test compares
`sz` with the whole range that the `vmiter` stands in, not with the part of it that is left.
-/

namespace Chickadee.Ptable

open Lib
open Vm (PAGESIZE VA_LOWMAX VA_LOWEND VA_HIGHMIN pagesize va_is_canonical)

namespace Vmiter

/-- `do { .. } while ((p & PTE_P) != 0 && sz > rsz)`, for up to `n` turns. -/
def rangeLoop (m : Mem) : ℕ → Vmiter → BitVec 64 → ℕ → ℕ → Option (BitVec 64)
  | 0, _, _, _, _ => none
  | n + 1, it, p, sz, rsz =>
    (it.next_range m).bind fun it =>
      if (p &&& it.perm m) &&& PTE_P ≠ 0#64 ∧ (sz + 2 ^ 64 - rsz) % 2 ^ 64 > pagesize it.level_ then
        rangeLoop m n it (p &&& it.perm m) ((sz + 2 ^ 64 - rsz) % 2 ^ 64) (pagesize it.level_)
      else some (p &&& it.perm m)

/-- The bytes from `va()` to the end of its half of the address space. -/
def halfLeft (it : Vmiter) : ℕ := ((if it.va_ ≥ 2 ^ 63 then 0 else VA_LOWEND) + 2 ^ 64 - it.va_) % 2 ^ 64

/-- The permissions, if they have `PTE_P`. -/
def ifPresent (p : BitVec 64) : BitVec 64 := if p &&& PTE_P ≠ 0#64 then p else 0#64

/-- `range_perm(sz)`. Every turn of the loop takes a byte or more of what is left. -/
def range_perm (m : Mem) (it : Vmiter) (sz : ℕ) : Option (BitVec 64) :=
  let p := it.perm m
  let rsz := pagesize it.level_
  if p &&& PTE_P ≠ 0#64 ∧ sz > rsz then
    if sz > it.halfLeft then some 0#64
    else
      let sz := (sz + it.va_ % rsz) % 2 ^ 64
      (rangeLoop m sz it p sz rsz).map ifPresent
  else some (ifPresent p)

end Vmiter

open Vmiter

/-- The permissions of the page of an address, as a `vmiter` there gives them. -/
def pagePerm (m : Mem) (pt va : ℕ) : BitVec 64 := (seek m pt va).elim 0#64 fun it => it.perm m

/-- The intersection of the permissions of the pages that `[va, va + sz)` touches. -/
def rangeMeet (m : Mem) (pt va sz : ℕ) : BitVec 64 :=
  meetOf (fun page => pagePerm m pt (page * PAGESIZE))
    (List.range' (va / PAGESIZE) ((va + sz - 1) / PAGESIZE + 1 - va / PAGESIZE))

/-- The range stays in one half of the address space. -/
def InHalf (va sz : ℕ) : Prop := va + sz ≤ VA_LOWEND ∨ VA_HIGHMIN ≤ va ∧ va + sz ≤ 2 ^ 64

section

variable {m : Mem} {pt va va' sz lo mid hi : ℕ} {p r : BitVec 64} {it it' : Vmiter}

/-! ## The permissions of a page -/

theorem pagePerm_of_seek (h : seek m pt va = some it) : pagePerm m pt va = it.perm m := by
  unfold pagePerm
  rw [h]
  rfl

theorem pagePerm_region (h : seek m pt va = some it) (hregion : va' / pagesize it.level_ = va / pagesize it.level_) :
    pagePerm m pt va' = it.perm m := by
  rw [pagePerm_of_seek (seek_region h hregion)]
  rfl

theorem pagePerm_page (h : va' / PAGESIZE = va / PAGESIZE) : pagePerm m pt va' = pagePerm m pt va := by
  have hzero : va' / pagesize 0 = va / pagesize 0 := h
  cases hva : seek m pt va with
  | some it => rw [pagePerm_region hva (div_pagesize_of_le hzero (Nat.zero_le _)), pagePerm_of_seek hva]
  | none =>
    cases hva' : seek m pt va' with
    | some it =>
      rw [seek_region hva' (div_pagesize_of_le hzero.symm (Nat.zero_le _))] at hva
      cases hva
    | none =>
      unfold pagePerm
      rw [hva, hva']

theorem getLsbD_of_present (h : p &&& PTE_P = PTE_P) : p.getLsbD 0 = true := by
  have hbit := congrArg (fun x : BitVec 64 => x.getLsbD 0) h
  simpa using hbit

theorem getLsbD_of_absent (h : p &&& PTE_P = 0#64) : p.getLsbD 0 = false := by
  have hbit := congrArg (fun x : BitVec 64 => x.getLsbD 0) h
  simpa using hbit

/-- Permissions without `PTE_P` are none at all. -/
theorem pagePerm_eq_zero (h : (pagePerm m pt va).getLsbD 0 = false) : pagePerm m pt va = 0#64 := by
  unfold pagePerm at h ⊢
  cases hva : seek m pt va with
  | none => rfl
  | some it =>
    rw [hva, Option.elim_some, perm_eq] at h
    rw [Option.elim_some, perm_eq]
    split at h
    · rename_i hp
      rw [getLsbD_of_present hp] at h
      cases h
    · exact if_neg ‹_›

theorem isMeet_rangeMeet (hsz : 0 < sz) : IsMeet (pagePerm m pt) (rangeMeet m pt va sz) va (va + sz) := by
  intro i hi
  unfold rangeMeet
  rw [getLsbD_meetOf _ hi]
  constructor
  · intro hall x hlo hhi
    have hfirst : va / PAGESIZE ≤ x / PAGESIZE := Nat.div_le_div_right hlo
    have hlast : x / PAGESIZE ≤ (va + sz - 1) / PAGESIZE := Nat.div_le_div_right (by omega)
    have hpage := hall (x / PAGESIZE) (by rw [List.mem_range'_1]; omega)
    have hsame : pagePerm m pt (x / PAGESIZE * PAGESIZE) = pagePerm m pt x :=
      pagePerm_page (Nat.mul_div_cancel _ (by decide))
    rwa [hsame] at hpage
  · intro hall page hpage
    rw [List.mem_range'_1] at hpage
    -- a byte of the page that is in the range
    by_cases hstart : page * PAGESIZE < va
    · have hva : page = va / PAGESIZE := by
        simp only [PAGESIZE] at *
        omega
      have hsame : pagePerm m pt (page * PAGESIZE) = pagePerm m pt va :=
        pagePerm_page (by rw [hva]; exact Nat.mul_div_cancel _ (by decide))
      rw [hsame]
      exact hall va le_rfl (by omega)
    · refine hall _ (by omega) ?_
      simp only [PAGESIZE] at *
      omega

/-- What the loop returns, once it has found a page that is not present or has come to the end. -/
theorem ifPresent_meet (hr : IsMeet (pagePerm m pt) r lo mid) (hmid : mid ≤ hi)
    (hend : mid = hi ∨ r &&& PTE_P = 0#64) : IsMeet (pagePerm m pt) (ifPresent r) lo hi := by
  unfold ifPresent
  by_cases hp : r &&& PTE_P = 0#64
  · rw [if_neg (not_not.2 hp)]
    obtain ⟨x, hlo, hx, hbit⟩ := hr.exists_of_not (by decide) (getLsbD_of_absent hp)
    exact .of_zero hlo (by omega) (pagePerm_eq_zero hbit)
  · rw [if_pos hp, ← hend.resolve_right hp]
    exact hr

/-! ## The loop -/

/-- The range after a range starts with the region of its own entry. -/
theorem next_range_aligned (h : seek m pt va = some it)
    (h' : seek m pt ((va / pagesize it.level_ + 1) * pagesize it.level_) = some it') :
    (va / pagesize it.level_ + 1) * pagesize it.level_ % pagesize it'.level_ = 0 := by
  have hpos := pagesize_pos it.level_
  have hpos' := pagesize_pos it'.level_
  generalize hb : (va / pagesize it.level_ + 1) * pagesize it.level_ = b at h' ⊢
  by_contra hmod
  -- the byte before would be in both regions, and the regions would be of one level
  have hbefore : (b - 1) / pagesize it'.level_ = b / pagesize it'.level_ := by
    have hdiv := Nat.div_add_mod b (pagesize it'.level_)
    refine Nat.div_eq_of_lt_le ?_ ?_
    · rw [Nat.mul_comm]
      omega
    · rw [Nat.succ_mul, Nat.mul_comm]
      have hlt := Nat.mod_lt b hpos'
      omega
  have hregion : (b - 1) / pagesize it.level_ = va / pagesize it.level_ := by
    rw [Nat.add_mul, Nat.one_mul] at hb
    refine Nat.div_eq_of_lt_le (by omega) ?_
    rw [Nat.succ_mul]
    omega
  have hsame := seek_region h hregion
  rw [seek_region h' hbefore] at hsame
  injection hsame with hit
  have hlevel := congrArg Vmiter.level_ hit
  simp only at hlevel
  rw [hlevel, ← hb, Nat.mul_mod_left] at hmod
  exact hmod rfl

theorem next_range_start (h : seek m pt va = some it)
    (hlt : (va / pagesize it.level_ + 1) * pagesize it.level_ < 2 ^ 64) :
    it.next_range m = start m pt ((va / pagesize it.level_ + 1) * pagesize it.level_) := by
  unfold Vmiter.next_range last_va
  rw [real_find_eq h, seek_va h, Nat.mod_eq_of_lt hlt]

/-- From the range of `va`, of whose start `sz` bytes are left, the loop goes on to the end of the `sz` bytes or to
a page that is not present. -/
theorem rangeLoop_meet {n : ℕ} (h : seek m pt va = some it) (hsz : pagesize it.level_ < sz)
    (hend : va / pagesize it.level_ * pagesize it.level_ + sz = hi) (hhi : hi ≤ 2 ^ 64)
    (hlo : lo < (va / pagesize it.level_ + 1) * pagesize it.level_)
    (hp : IsMeet (pagePerm m pt) p lo ((va / pagesize it.level_ + 1) * pagesize it.level_))
    (hrun : rangeLoop m n it p sz (pagesize it.level_) = some r) :
    ∃ mid, mid ≤ hi ∧ IsMeet (pagePerm m pt) r lo mid ∧ (mid = hi ∨ r &&& PTE_P = 0#64) := by
  induction n generalizing va it p sz with
  | zero => cases hrun
  | succ n ih =>
    have hpos := pagesize_pos it.level_
    have hnext : va / pagesize it.level_ * pagesize it.level_ + pagesize it.level_
        = (va / pagesize it.level_ + 1) * pagesize it.level_ := by rw [Nat.add_mul, Nat.one_mul]
    unfold rangeLoop at hrun
    rw [next_range_start h (by omega), show (sz + 2 ^ 64 - pagesize it.level_) % 2 ^ 64 = sz - pagesize it.level_ by
      omega] at hrun
    obtain ⟨it', hstart, hbody⟩ := Option.bind_eq_some_iff.1 hrun
    clear hrun
    have h' := seek_of_start hstart
    have haligned := next_range_aligned h h'
    have hpos' := pagesize_pos it'.level_
    generalize (va / pagesize it.level_ + 1) * pagesize it.level_ = b at *
    have hb : b / pagesize it'.level_ * pagesize it'.level_ = b := Nat.div_mul_cancel (Nat.dvd_of_mod_eq_zero haligned)
    have hb' : (b / pagesize it'.level_ + 1) * pagesize it'.level_ = b + pagesize it'.level_ := by
      rw [Nat.add_mul, Nat.one_mul, hb]
    have hregion : ∀ x, b ≤ x → x < b + pagesize it'.level_ → pagePerm m pt x = it'.perm m := fun x hx hlt =>
      pagePerm_region h' (div_eq_of_between hx (by rw [hb']; exact hlt))
    split at hbody
    · rename_i hmore
      have hend' : b / pagesize it'.level_ * pagesize it'.level_ + (sz - pagesize it.level_) = hi := by
        rw [hb]
        omega
      have hlo' : lo < (b / pagesize it'.level_ + 1) * pagesize it'.level_ := by
        rw [hb']
        omega
      refine ih h' hmore.2 hend' hlo' ?_ hbody
      rw [hb']
      exact hp.and (.of_const (by omega) hregion) hlo.le (by omega)
    · rename_i hstop
      cases hbody
      by_cases hlast : sz - pagesize it.level_ ≤ pagesize it'.level_
      · refine ⟨hi, le_rfl, hp.and (.of_const (by omega) fun x hx hlt => ?_) hlo.le (by omega), .inl rfl⟩
        exact hregion x hx (by omega)
      · refine ⟨b + pagesize it'.level_, by omega, ?_, .inr ?_⟩
        · exact hp.and (.of_const (by omega) hregion) hlo.le (by omega)
        · by_contra hpresent
          exact hstop ⟨hpresent, by omega⟩

/-- The loop ends: every turn takes a page or more. -/
theorem rangeLoop_isSome {n : ℕ} (h : seek m pt va = some it) (hn : sz ≤ n) (hsz : pagesize it.level_ < sz)
    (hend : va / pagesize it.level_ * pagesize it.level_ + sz = hi) (hhi : hi ≤ 2 ^ 64)
    (hinit : ∀ x, va ≤ x → x < hi → (start m pt x).isSome = true) :
    (rangeLoop m n it p sz (pagesize it.level_)).isSome = true := by
  induction n generalizing va it p sz with
  | zero => omega
  | succ n ih =>
    have hpos := pagesize_pos it.level_
    have hnext : va / pagesize it.level_ * pagesize it.level_ + pagesize it.level_
        = (va / pagesize it.level_ + 1) * pagesize it.level_ := by rw [Nat.add_mul, Nat.one_mul]
    have hva : va < va / pagesize it.level_ * pagesize it.level_ + pagesize it.level_ := Nat.lt_div_mul_add hpos
    unfold rangeLoop
    rw [next_range_start h (by omega), show (sz + 2 ^ 64 - pagesize it.level_) % 2 ^ 64 = sz - pagesize it.level_ by
      omega]
    obtain ⟨it', hstart⟩ := Option.isSome_iff_exists.1 (hinit ((va / pagesize it.level_ + 1) * pagesize it.level_) (by omega) (by omega))
    have h' := seek_of_start hstart
    have hb := Nat.div_mul_cancel (Nat.dvd_of_mod_eq_zero (next_range_aligned h h'))
    rw [hstart, Option.bind_some]
    split
    · rename_i hmore
      exact ih h' (by omega) hmore.2 (by rw [hb]; omega) fun x hx hlt => hinit x (by omega) hlt
    · rfl

/-! ## The whole range -/

theorem halfLeft_of_inHalf (hhalf : InHalf it.va_ sz) (hsz : 0 < sz) : sz ≤ it.halfLeft := by
  unfold halfLeft
  simp only [InHalf, VA_LOWEND, VA_HIGHMIN] at *
  split <;> omega

theorem range_perm_of_loop (hp : it.perm m &&& PTE_P ≠ 0#64) (hsz : pagesize it.level_ < sz)
    (hhalf : sz ≤ it.halfLeft) (hlt : sz + it.va_ % pagesize it.level_ < 2 ^ 64) : it.range_perm m sz
      = (rangeLoop m (sz + it.va_ % pagesize it.level_) it (it.perm m) (sz + it.va_ % pagesize it.level_)
          (pagesize it.level_)).map ifPresent := by
  unfold range_perm
  simp only
  rw [if_pos ⟨hp, hsz⟩, if_neg (by omega), Nat.mod_eq_of_lt hlt]

theorem range_perm_of_not_loop (h : ¬(it.perm m &&& PTE_P ≠ 0#64 ∧ sz > pagesize it.level_)) :
    it.range_perm m sz = some (ifPresent (it.perm m)) := if_neg h

theorem pagesize_le (hl : it.level_ ≤ 3) : pagesize it.level_ ≤ 2 ^ 39 := by
  unfold pagesize
  exact Nat.pow_le_pow_right (by decide) (by omega)

/-- Where `range_perm` is the intersection: the range is longer than the one that the `vmiter` stands in or ends
within it, or the page at `va` is not present, or all pages behind have the permissions of that page. -/
def RangeOk (m : Mem) (pt : ℕ) (it : Vmiter) (sz : ℕ) : Prop :=
  pagesize it.level_ < sz ∨ it.va_ % pagesize it.level_ + sz ≤ pagesize it.level_ ∨ it.perm m = 0#64 ∨
  ∀ x, (it.va_ / pagesize it.level_ + 1) * pagesize it.level_ ≤ x → x < it.va_ + sz →
    it.perm m &&& pagePerm m pt x = it.perm m

theorem range_perm_meet (h : seek m pt it.va_ = some it) (hsz : 0 < sz) (hhalf : InHalf it.va_ sz)
    (hrun : it.range_perm m sz = some r) : r = rangeMeet m pt it.va_ sz ↔ RangeOk m pt it sz := by
  have hpos := pagesize_pos it.level_
  have hps := pagesize_le (seek_level h)
  have hmeet : IsMeet (pagePerm m pt) (rangeMeet m pt it.va_ sz) it.va_ (it.va_ + sz) := isMeet_rangeMeet hsz
  have hdiv := Nat.div_add_mod it.va_ (pagesize it.level_)
  have hnext : (it.va_ / pagesize it.level_ + 1) * pagesize it.level_
      = pagesize it.level_ * (it.va_ / pagesize it.level_) + pagesize it.level_ := by
    rw [Nat.add_mul, Nat.one_mul, Nat.mul_comm]
  have hmod := Nat.mod_lt it.va_ hpos
  have hhi : it.va_ + sz ≤ 2 ^ 64 := by
    simp only [InHalf, VA_LOWEND, VA_HIGHMIN] at hhalf
    omega
  have hregion : ∀ x, it.va_ ≤ x → x < (it.va_ / pagesize it.level_ + 1) * pagesize it.level_ →
      pagePerm m pt x = it.perm m := fun x hx hlt => pagePerm_region h (div_eq_of_between hx hlt)
  have hfirst : IsMeet (pagePerm m pt) (it.perm m) it.va_ ((it.va_ / pagesize it.level_ + 1) * pagesize it.level_) :=
    .of_const (by omega) hregion
  have hiff : r = rangeMeet m pt it.va_ sz ↔ IsMeet (pagePerm m pt) r it.va_ (it.va_ + sz) :=
    ⟨fun heq => by rw [heq]; exact hmeet, fun hr => hr.unique hmeet⟩
  rw [hiff]
  by_cases hloop : it.perm m &&& PTE_P ≠ 0#64 ∧ sz > pagesize it.level_
  · have hlt : sz + it.va_ % pagesize it.level_ < 2 ^ 64 := by
      simp only [InHalf, VA_LOWEND, VA_HIGHMIN] at hhalf
      omega
    rw [range_perm_of_loop hloop.1 hloop.2 (halfLeft_of_inHalf hhalf hsz) hlt] at hrun
    obtain ⟨p, hturns, rfl⟩ := Option.map_eq_some_iff.1 hrun
    have hend : it.va_ / pagesize it.level_ * pagesize it.level_ + (sz + it.va_ % pagesize it.level_) = it.va_ + sz := by
      rw [Nat.mul_comm]
      omega
    obtain ⟨mid, hmid, hp, hstop⟩ := rangeLoop_meet h (by omega) hend hhi (by omega) hfirst hturns
    exact iff_of_true (ifPresent_meet hp hmid hstop) (.inl hloop.2)
  · rw [range_perm_of_not_loop hloop] at hrun
    cases hrun
    unfold ifPresent
    by_cases hp : it.perm m &&& PTE_P = 0#64
    · -- the page at `va` is not present
      have hzero : pagePerm m pt it.va_ = 0#64 := by
        refine pagePerm_eq_zero ?_
        rw [pagePerm_of_seek h]
        exact getLsbD_of_absent hp
      rw [if_neg (not_not.2 hp)]
      refine iff_of_true (.of_zero le_rfl (by omega) hzero) (.inr (.inr (.inl ?_)))
      rw [← pagePerm_of_seek h, hzero]
    · have hle : sz ≤ pagesize it.level_ := by
        by_contra hlt
        exact hloop ⟨hp, by omega⟩
      rw [if_pos hp]
      by_cases hin : it.va_ % pagesize it.level_ + sz ≤ pagesize it.level_
      · exact iff_of_true (.of_const (by omega) fun x hx hlt => hregion x hx (by omega)) (.inr (.inl hin))
      · -- the first test has missed that the range goes on behind the end of its first range
        rw [hfirst.extend_iff (by omega) (by omega)]
        constructor
        · intro hrest
          exact .inr (.inr (.inr hrest))
        · rintro (hlong | hfits | hnone | hrest)
          · omega
          · omega
          · rw [hnone] at hp
            exact absurd rfl hp
          · exact hrest

/-- There is a result where no entry on the way is taken for uninitialized memory. -/
theorem range_perm_isSome (h : seek m pt it.va_ = some it) (hsz : 0 < sz) (hhalf : InHalf it.va_ sz)
    (hinit : ∀ x, it.va_ ≤ x → x < it.va_ + sz → (start m pt x).isSome = true) :
    (it.range_perm m sz).isSome = true := by
  have hdiv := Nat.div_add_mod it.va_ (pagesize it.level_)
  have hps := pagesize_le (seek_level h)
  have hmod := Nat.mod_lt it.va_ (pagesize_pos it.level_)
  by_cases hloop : it.perm m &&& PTE_P ≠ 0#64 ∧ sz > pagesize it.level_
  · have hhi : it.va_ + sz ≤ 2 ^ 64 ∧ sz + it.va_ % pagesize it.level_ < 2 ^ 64 := by
      simp only [InHalf, VA_LOWEND, VA_HIGHMIN] at hhalf
      omega
    rw [range_perm_of_loop hloop.1 hloop.2 (halfLeft_of_inHalf hhalf hsz) hhi.2, Option.isSome_map]
    refine rangeLoop_isSome h le_rfl (by omega) ?_ hhi.1 hinit
    rw [Nat.mul_comm]
    omega
  · rw [range_perm_of_not_loop hloop]
    rfl

end

/-- **`range_perm(sz)` is the intersection of the permissions of the pages in `[va, va + sz)` just where
`RangeOk` holds.** -/
theorem range_perm_iff {pt sz : ℕ} {s : State} (h : State.Reached pt s) (hsz : 0 < sz) (hhalf : InHalf s.it.va_ sz) :
    (∀ r, s.it.range_perm s.m sz = some r → (r = rangeMeet s.m pt s.it.va_ sz ↔ RangeOk s.m pt s.it sz)) ∧
    ((∀ x, s.it.va_ ≤ x → x < s.it.va_ + sz → (start s.m pt x).isSome = true) →
      (s.it.range_perm s.m sz).isSome = true) := by
  have hseek := (State.Reached.inv h).seek
  exact ⟨fun r hrun => range_perm_meet hseek hsz hhalf hrun, range_perm_isSome hseek hsz hhalf⟩

/-- The last byte of the page that is mapped, and the page behind it. -/
def crossing : State := ⟨State.mappedMem, ⟨0x1000, some (0x4000, 1), 0, 0xFFF#64, 0x1FFF⟩⟩

theorem reached_crossing : State.Reached 0x1000 crossing :=
  .step State.reached_mapped trivial (a := .find 0x1FFF#64) rfl

theorem range_perm_iff_crossing : crossing.it.range_perm crossing.m 1 = some 0x7#64 ∧
    ((0x7#64 = rangeMeet crossing.m 0x1000 0x1FFF 1) ↔ RangeOk crossing.m 0x1000 crossing.it 1) :=
  ⟨by decide, (range_perm_iff reached_crossing (by decide) (.inl (by decide))).1 0x7#64 (by decide)⟩

theorem range_perm_fails : State.Reached 0x1000 crossing ∧ InHalf crossing.it.va_ 2 ∧
    crossing.it.range_perm crossing.m 2 = some 0x7#64 ∧ rangeMeet crossing.m 0x1000 crossing.it.va_ 2 = 0#64 :=
  ⟨reached_crossing, .inl (by decide), by decide, by decide⟩

end Chickadee.Ptable
