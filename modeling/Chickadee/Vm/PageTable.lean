import Mathlib

/-!
# Page tables and `vmiter`

A page table has four levels. The entry that a walk meets at a level depends on the address alone, through
`va / 2 ^ (12 + 9 * level)`, so a table is a function of the level and that number; an entry counts only
where the entries above it are present and no large pages. Of the flags of an entry `PTE_P`, `PTE_W`,
`PTE_U` and `PTE_PS` are modelled.
-/

namespace Chickadee.Vm

abbrev PAGESIZE : ℕ := 4096
abbrev VA_LOWMAX : ℕ := 0x7FFFFFFFFFFF
abbrev VA_LOWEND : ℕ := 0x800000000000
abbrev VA_HIGHMIN : ℕ := 0xFFFF800000000000
abbrev MEMSIZE_VIRTUAL : ℕ := 0x300000
abbrev CONSOLE_ADDR : ℕ := 0xB8000

/-- A present entry: the page or the table that it leads to, `PTE_W`, `PTE_U` and `PTE_PS`. -/
structure Pte where
  pa : ℕ
  w : Bool
  u : Bool
  ps : Bool
  deriving DecidableEq, Repr

abbrev PageTable := ℕ → ℕ → Option Pte

/-- `va_is_canonical(va)` -/
def va_is_canonical (va : ℕ) : Bool := va ≤ VA_LOWMAX ∨ VA_HIGHMIN ≤ va

/-- `pageoffmask(level) + 1`: the bytes that an entry of the level maps. -/
def pagesize (level : ℕ) : ℕ := 2 ^ (12 + 9 * level)

/-- `vmiter`: `w` and `u` are the bits of `perm_`, and `pe` is `*pep_` where that is present. -/
structure Vmiter where
  va_ : ℕ
  level_ : ℕ
  w : Bool
  u : Bool
  pe : Option Pte
  deriving DecidableEq

/-- `down()` from the entry for `va` at a level, with the permissions of the levels above. -/
def down (pt : PageTable) (va : ℕ) : ℕ → Bool → Bool → Vmiter
  | 0, w, u => ⟨va, 0, w, u, pt 0 (va / pagesize 0)⟩
  | level + 1, w, u =>
    match pt (level + 1) (va / pagesize (level + 1)) with
    | none => ⟨va, level + 1, w, u, none⟩
    | some pe =>
      if pe.ps then ⟨va, level + 1, w, u, some pe⟩
      else down pt va level (w && pe.w) (u && pe.u)

/-- `find(va)`. An address that is not canonical has an entry of zeros. -/
def find (pt : PageTable) (va : ℕ) : Vmiter :=
  if va_is_canonical va then down pt va 3 true true else ⟨va, 3, false, false, none⟩

namespace Vmiter

/-- `present()` -/
def present (it : Vmiter) : Bool := it.pe.isSome

/-- `writable()` -/
def writable (it : Vmiter) : Bool :=
  match it.pe with
  | some pe => it.w && pe.w
  | none => false

/-- `user()` -/
def user (it : Vmiter) : Bool :=
  match it.pe with
  | some pe => it.u && pe.u
  | none => false

/-- `pa()`. The address of a large page has no bit 12. -/
def pa (it : Vmiter) : Option ℕ :=
  it.pe.map fun pe =>
    (if it.level_ = 0 then pe.pa else pe.pa - pe.pa / PAGESIZE % 2 * PAGESIZE) + it.va_ % pagesize it.level_

/-- `last_va()` -/
def last_va (it : Vmiter) : ℕ := (it.va_ / pagesize it.level_ + 1) * pagesize it.level_ % 2 ^ 64

/-- `next_range()` -/
def next_range (pt : PageTable) (it : Vmiter) : Vmiter := find pt it.last_va

/-- `next()`: to the next page, or over the whole of a region that is not present. -/
def next (pt : PageTable) (it : Vmiter) : Vmiter :=
  let level := if it.level_ > 0 ∧ it.present = false then it.level_ else 0
  find pt ((it.va_ / pagesize level + 1) * pagesize level % 2 ^ 64)

theorem present_of_user {it : Vmiter} (h : it.user = true) : it.present = true := by
  unfold user at h
  unfold present
  cases hpe : it.pe with
  | none => simp [hpe] at h
  | some pe => rfl

end Vmiter

/-! ## What the walk depends on -/

@[simp] theorem pagesize_zero : pagesize 0 = PAGESIZE := rfl

theorem pagesize_eq (level : ℕ) : pagesize level = PAGESIZE * 2 ^ (9 * level) := by
  unfold pagesize
  rw [Nat.pow_add]

theorem div_pagesize (va level : ℕ) : va / pagesize level = va / PAGESIZE / 2 ^ (9 * level) := by
  rw [pagesize_eq, Nat.div_div_eq_div_mul]

theorem va_is_canonical_iff {va : ℕ} : va_is_canonical va = true ↔ va ≤ VA_LOWMAX ∨ VA_HIGHMIN ≤ va := by
  simp [va_is_canonical]

theorem va_is_canonical_page {va va' : ℕ} (h : va / PAGESIZE = va' / PAGESIZE) :
    va_is_canonical va = va_is_canonical va' := by
  have hpage : ∀ a b : ℕ, a / PAGESIZE = b / PAGESIZE →
      va_is_canonical a = true → va_is_canonical b = true := by
    intro a b hab ha
    rw [va_is_canonical_iff] at ha ⊢
    simp only [PAGESIZE, VA_LOWMAX, VA_HIGHMIN] at *
    omega
  cases hva : va_is_canonical va with
  | true => rw [hpage va va' h hva]
  | false =>
    cases hva' : va_is_canonical va' with
    | true => rw [hpage va' va h.symm hva'] at hva; simp at hva
    | false => rfl

@[simp] theorem down_va (pt : PageTable) (va level : ℕ) (w u : Bool) : (down pt va level w u).va_ = va := by
  induction level generalizing w u with
  | zero => rfl
  | succ level ih =>
    unfold down
    cases pt (level + 1) (va / pagesize (level + 1)) with
    | none => rfl
    | some pe =>
      by_cases hps : pe.ps = true
      · simp [hps]
      · simp [hps, ih]

@[simp] theorem find_va (pt : PageTable) (va : ℕ) : (find pt va).va_ = va := by
  unfold find
  split
  · exact down_va pt va 3 true true
  · rfl

theorem down_page {pt : PageTable} {va va' : ℕ} (h : va / PAGESIZE = va' / PAGESIZE) (level : ℕ) (w u : Bool) :
    down pt va' level w u = { down pt va level w u with va_ := va' } := by
  induction level generalizing w u with
  | zero =>
    unfold down
    rw [pagesize_zero, h]
  | succ level ih =>
    unfold down
    rw [div_pagesize va, div_pagesize va', h]
    cases pt (level + 1) (va' / PAGESIZE / 2 ^ (9 * (level + 1))) with
    | none => rfl
    | some pe =>
      by_cases hps : pe.ps = true
      · simp [hps]
      · simp [hps, ih]

/-- The bytes of a page have one entry. -/
theorem find_page {pt : PageTable} {va va' : ℕ} (h : va / PAGESIZE = va' / PAGESIZE) :
    find pt va' = { find pt va with va_ := va' } := by
  unfold find
  rw [va_is_canonical_page h]
  split
  · exact down_page h 3 true true
  · rfl

theorem user_page {pt : PageTable} {va va' : ℕ} (h : va / PAGESIZE = va' / PAGESIZE) :
    (find pt va').user = (find pt va).user := by
  rw [find_page h]
  rfl

theorem writable_page {pt : PageTable} {va va' : ℕ} (h : va / PAGESIZE = va' / PAGESIZE) :
    (find pt va').writable = (find pt va).writable := by
  rw [find_page h]
  rfl

theorem canonical_of_present {pt : PageTable} {va : ℕ} (h : (find pt va).present = true) :
    va_is_canonical va = true := by
  by_contra hva
  unfold find at h
  rw [if_neg hva] at h
  simp [Vmiter.present] at h

/-- From a present page `next()` goes to the page after it. -/
theorem next_of_present {pt : PageTable} {va : ℕ} (h : (find pt va).present = true) :
    (find pt va).next pt = find pt ((va / PAGESIZE + 1) * PAGESIZE % 2 ^ 64) := by
  simp [Vmiter.next, h]

/-! ## The loops that check a range page by page -/

/-- `for (; it.va() < last; it.next())` with a test that ends the loop where it fails, for up to `n` pages. -/
def checkLoop (pt : PageTable) (ok : Vmiter → Bool) (last : ℕ) : ℕ → Vmiter → Option Bool
  | 0, _ => none
  | n + 1, it =>
    if it.va_ < last then
      if ok it then checkLoop pt ok last n (it.next pt) else some false
    else some true

/-- The pages of the address space, and one more. -/
def PAGES : ℕ := 2 ^ 52 + 1

/-- The loop from `start`. -/
def check (pt : PageTable) (ok : Vmiter → Bool) (start last : ℕ) : Option Bool :=
  checkLoop pt ok last PAGES (find pt start)

/-- How many pages the loop can still see: from the high half it may wrap to the low half, which ends at
addresses that are not canonical. -/
def pagesLeft (va : ℕ) : ℕ :=
  if va < VA_LOWEND then 2 ^ 35 - va / PAGESIZE
  else if va < VA_HIGHMIN then 0
  else 2 ^ 35 + (2 ^ 52 - va / PAGESIZE)

theorem pagesLeft_next {va : ℕ} (hva : va < 2 ^ 64) (h : va_is_canonical va = true) :
    pagesLeft ((va / PAGESIZE + 1) * PAGESIZE % 2 ^ 64) < pagesLeft va := by
  rw [va_is_canonical_iff] at h
  simp only [pagesLeft, PAGESIZE, VA_LOWMAX, VA_LOWEND, VA_HIGHMIN] at *
  split_ifs <;> omega

/-- The loop ends: each page it goes past is one less that it can see. -/
theorem checkLoop_isSome {pt : PageTable} {ok : Vmiter → Bool} {last : ℕ}
    (hok : ∀ it : Vmiter, ok it = true → it.present = true) :
    ∀ (n va : ℕ), va < 2 ^ 64 → pagesLeft va < n →
      (checkLoop pt ok last n (find pt va)).isSome = true := by
  intro n
  induction n with
  | zero => intro va _ hleft; omega
  | succ n ih =>
    intro va hva hleft
    unfold checkLoop
    split
    · by_cases hit : ok (find pt va) = true
      · have hpresent := hok _ hit
        have hnext := pagesLeft_next hva (canonical_of_present hpresent)
        rw [if_pos hit, next_of_present hpresent]
        exact ih _ (Nat.mod_lt _ (by decide)) (by omega)
      · rw [if_neg hit]
        rfl
    · rfl

theorem check_isSome {pt : PageTable} {ok : Vmiter → Bool} {start last : ℕ}
    (hok : ∀ it : Vmiter, ok it = true → it.present = true) (hstart : start < 2 ^ 64) :
    (check pt ok start last).isSome = true := by
  refine checkLoop_isSome hok PAGES start hstart ?_
  simp only [pagesLeft, PAGES, PAGESIZE, VA_LOWEND, VA_HIGHMIN]
  split_ifs <;> omega

/-- Every byte of a range that passes is in a page that does. -/
theorem checkLoop_true {pt : PageTable} {ok : Vmiter → Bool} {last : ℕ} (hlast : last < 2 ^ 64)
    (hok : ∀ it : Vmiter, ok it = true → it.present = true)
    (hpage : ∀ va va', va / PAGESIZE = va' / PAGESIZE → ok (find pt va') = ok (find pt va)) :
    ∀ (n va : ℕ), checkLoop pt ok last n (find pt va) = some true →
      ∀ x, va ≤ x → x < last → ok (find pt x) = true := by
  intro n
  induction n with
  | zero => intro va h; simp [checkLoop] at h
  | succ n ih =>
    intro va h x hx hxl
    unfold checkLoop at h
    rw [find_va, if_pos (by omega : va < last)] at h
    by_cases hit : ok (find pt va) = true
    · rw [if_pos hit, next_of_present (hok _ hit)] at h
      by_cases hsame : va / PAGESIZE = x / PAGESIZE
      · rw [hpage va x hsame, hit]
      · have hstep : (va / PAGESIZE + 1) * PAGESIZE ≤ x := by
          simp only [PAGESIZE] at *
          omega
        rw [Nat.mod_eq_of_lt (by omega)] at h
        exact ih _ h x hstep hxl
    · rw [if_neg hit] at h
      simp at h

theorem check_true {pt : PageTable} {ok : Vmiter → Bool} {start last : ℕ} (hlast : last < 2 ^ 64)
    (hok : ∀ it : Vmiter, ok it = true → it.present = true)
    (hpage : ∀ va va', va / PAGESIZE = va' / PAGESIZE → ok (find pt va') = ok (find pt va))
    (h : check pt ok start last = some true) {x : ℕ} (hx : start ≤ x) (hxl : x < last) :
    ok (find pt x) = true :=
  checkLoop_true hlast hok hpage PAGES start h x hx hxl

end Chickadee.Vm
