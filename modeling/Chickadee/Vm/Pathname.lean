import Chickadee.Chkfs.Load
import Chickadee.Vm.Access

/-!
# `pathname_invalid` on the memory of the caller

The scan stops behind `MAX_FILENAME_LEN` characters, whether the string ends there or not, and what comes
after is neither measured nor looked up in the page table. The callers copy the whole string: into the name of
a directory entry, or into `key_` of a socket, which is shorter than what is accepted.
-/

namespace Chickadee.Vm

open Fs Chkfs

/-- `it.present() && it.user()` at an address. -/
def accessible (pt : PageTable) (va : ℕ) : Bool :=
  let it := find pt (va % 2 ^ 64)
  it.present && it.user

/-- The loop of `pathname_invalid` for up to `n` more characters: where it stops, if all it passes is accessible. -/
def scanLoop (c : Caller) (pathname : ℕ) : ℕ → ℕ → Option ℕ
  | 0, pos => some pos
  | n + 1, pos =>
    if c.char pathname pos = 0 then some pos
    -- the iterator is one byte ahead
    else if accessible c.pt (pathname + (pos + 1)) = true then scanLoop c pathname n (pos + 1)
    else none

/-- `pathname_invalid(p, pathname, pfxlen)` -/
def pathname_invalid (c : Caller) (pathname pfxlen : ℕ) : ℤ :=
  if pathname = 0 then E_FAULT
  else if c.char pathname 0 = 0 then E_FAULT
  else if accessible c.pt pathname = false then E_FAULT
  else
    match scanLoop c pathname (MAX_FILENAME_LEN + 1) 0 with
    | none => E_FAULT
    | some pos => if maxnamelen ≤ pos + pfxlen then E_NAMETOOLONG else 0

/-- What the callers do with a path that is accepted. -/
inductive Use
  /-- the last name of the path, behind the directory `dir`, becomes the name of a directory entry -/
  | entry (dir : Str)
  /-- the path becomes the key of a socket -/
  | socket

namespace Use

/-- The prefix length that the caller passes. -/
def pfxlen : Use → ℕ
  | entry dir => dir.length
  | socket => 0

/-- The size of the array that `strcpy` stores to. -/
def room : Use → ℕ
  | entry _ => maxnamelen + 1
  | socket => MAX_FILENAME_LEN

/-- The number of bytes that `strcpy` stores. -/
def copied : Use → Str → ℕ
  | entry dir, s => (path_find_last (dir ++ s)).2.length + 1
  | socket, s => s.length + 1

/-- How long a string may be of which all is known that is to be known. -/
def limit : Use → ℕ
  | entry _ => MAX_FILENAME_LEN + 1
  | socket => MAX_FILENAME_LEN - 1

end Use

/-! ## Strings in memory -/

/-- At address `a` there is the string `s`. -/
structure HoldsStr (c : Caller) (a : ℕ) (s : Str) : Prop where
  char : ∀ i < s.length, c.char a i = s.getD i 0 ∧ c.char a i ≠ 0
  last : c.char a s.length = 0

variable {c : Caller} {a n pos p : ℕ} {s : Str} {u : Use}

/-- The first zero byte is the end of the string. -/
theorem HoldsStr.length_eq (h : HoldsStr c a s) (hbefore : ∀ i < n, c.char a i ≠ 0) (hat : c.char a n = 0) :
    s.length = n := by
  rcases Nat.lt_trichotomy s.length n with hlt | heq | hgt
  · exact absurd h.last (hbefore _ hlt)
  · exact heq
  · exact absurd hat (h.char n hgt).2

theorem holdsStr_of_zero (hbefore : ∀ i < n, c.char a i ≠ 0) (hat : c.char a n = 0) :
    HoldsStr c a ((List.range n).map (c.char a)) := by
  have hlen : ((List.range n).map (c.char a)).length = n := by rw [List.length_map, List.length_range]
  refine ⟨fun i hi => ?_, by rw [hlen, hat]⟩
  rw [hlen] at hi
  exact ⟨by simp [hi], hbefore i hi⟩

/-! ## What is accepted -/

/-- What the scan has seen where it stops. -/
theorem scanLoop_eq_some : scanLoop c a n pos = some p ↔
    pos ≤ p ∧ p ≤ pos + n ∧ (∀ i, pos ≤ i → i < p → c.char a i ≠ 0) ∧ (p = pos + n ∨ c.char a p = 0) ∧
      ∀ i, pos < i → i ≤ p → accessible c.pt (a + i) = true := by
  induction n generalizing pos with
  | zero =>
    rw [scanLoop, Option.some.injEq]
    constructor
    · rintro rfl
      exact ⟨le_rfl, le_rfl, fun i _ _ => by omega, .inl rfl, fun i _ _ => by omega⟩
    · rintro ⟨hge, hle, -⟩
      omega
  | succ n ih =>
    rw [scanLoop]
    by_cases hzero : c.char a pos = 0
    · rw [if_pos hzero, Option.some.injEq]
      constructor
      · rintro rfl
        exact ⟨le_rfl, Nat.le_add_right _ _, fun i _ _ => by omega, .inr hzero, fun i _ _ => by omega⟩
      · rintro ⟨hge, -, hchars, -⟩
        by_contra hne
        exact hchars pos le_rfl (by omega) hzero
    rw [if_neg hzero]
    by_cases hacc : accessible c.pt (a + (pos + 1)) = true
    · rw [if_pos hacc, ih]
      constructor
      · rintro ⟨hge, hle, hchars, hstop, haccs⟩
        refine ⟨by omega, by omega, fun i hi hip => ?_, hstop.imp (by omega) id, fun i hi hip => ?_⟩
        · rcases Nat.eq_or_lt_of_le hi with rfl | hlt
          · exact hzero
          · exact hchars i hlt hip
        · rcases Nat.eq_or_lt_of_le (Nat.succ_le_of_lt hi) with rfl | hlt
          · exact hacc
          · exact haccs i hlt hip
      · rintro ⟨hge, hle, hchars, hstop, haccs⟩
        have hne : pos ≠ p := by
          rintro rfl
          rcases hstop with hstop | hstop
          · omega
          · exact hzero hstop
        exact ⟨by omega, by omega, fun i hi => hchars i (by omega), hstop.imp (by omega) id,
          fun i hi => haccs i (by omega)⟩
    · rw [if_neg hacc]
      refine ⟨fun h => (nomatch h), ?_⟩
      rintro ⟨hge, -, -, hstop, haccs⟩
      refine absurd (haccs (pos + 1) (Nat.lt_succ_self pos) ?_) hacc
      rcases Nat.eq_or_lt_of_le hge with rfl | hlt
      · rcases hstop with hstop | hstop
        · omega
        · exact absurd hstop hzero
      · exact hlt

/-- **What `pathname_invalid` accepts**: the scan stops at `p`, and all up to there is in order. -/
theorem accepted_iff {pfxlen : ℕ} : pathname_invalid c a pfxlen = 0 ↔
    a ≠ 0 ∧ ∃ p, 0 < p ∧ p ≤ MAX_FILENAME_LEN + 1 ∧ (∀ i < p, c.char a i ≠ 0) ∧
      (p = MAX_FILENAME_LEN + 1 ∨ c.char a p = 0) ∧ (∀ i ≤ p, accessible c.pt (a + i) = true) ∧
      p + pfxlen < maxnamelen := by
  have hfault : E_FAULT ≠ 0 := by decide
  unfold pathname_invalid
  by_cases hnull : a = 0
  · rw [if_pos hnull]
    exact ⟨fun h => absurd h hfault, fun h => absurd hnull h.1⟩
  rw [if_neg hnull]
  by_cases hempty : c.char a 0 = 0
  · rw [if_pos hempty]
    refine ⟨fun h => absurd h hfault, ?_⟩
    rintro ⟨-, p, hp, -, hchars, -⟩
    exact absurd hempty (hchars 0 hp)
  rw [if_neg hempty]
  by_cases hacc : accessible c.pt a = false
  · rw [if_pos hacc]
    refine ⟨fun h => absurd h hfault, ?_⟩
    rintro ⟨-, p, -, -, -, -, haccs, -⟩
    have := haccs 0 (Nat.zero_le p)
    rw [Nat.add_zero, hacc] at this
    cases this
  rw [if_neg hacc]
  cases hscan : scanLoop c a (MAX_FILENAME_LEN + 1) 0 with
  | none =>
    refine ⟨fun h => absurd h hfault, ?_⟩
    rintro ⟨-, p, -, hle, hchars, hstop, haccs, -⟩
    have hsome : scanLoop c a (MAX_FILENAME_LEN + 1) 0 = some p :=
      scanLoop_eq_some.mpr ⟨Nat.zero_le p, by omega, fun i _ => hchars i, hstop.imp (by omega) id,
        fun i _ => haccs i⟩
    rw [hscan] at hsome
    cases hsome
  | some p =>
    obtain ⟨-, hle, hchars, hstop, haccs⟩ := scanLoop_eq_some.mp hscan
    have hpos : 0 < p := by
      rcases Nat.eq_zero_or_pos p with rfl | hpos
      · rcases hstop with hstop | hstop
        · omega
        · exact absurd hstop hempty
      · exact hpos
    have hall : ∀ i ≤ p, accessible c.pt (a + i) = true := by
      intro i hi
      rcases Nat.eq_zero_or_pos i with rfl | hipos
      · exact eq_true_of_ne_false hacc
      · exact haccs i hipos hi
    dsimp only
    split
    · next hlong =>
      refine ⟨fun h => absurd h (by decide), ?_⟩
      rintro ⟨-, q, hq, hqle, hqchars, hqstop, -, hshort⟩
      have heq : q = p := by
        rcases Nat.lt_trichotomy q p with hlt | heq | hgt
        · rcases hqstop with rfl | hzero
          · omega
          · exact absurd hzero (hchars q (Nat.zero_le q) hlt)
        · exact heq
        · rcases hstop with rfl | hzero
          · omega
          · exact absurd hzero (hqchars p hgt)
      omega
    · next hshort =>
      exact ⟨fun _ => ⟨hnull, p, hpos, by omega, fun i => hchars i (Nat.zero_le i), hstop.imp (by omega) id, hall,
        not_le.mp hshort⟩, fun _ => rfl⟩

/-- **The abstract `pathname_invalid`** is the one here, where the bytes that are scanned tell what is accessible. -/
theorem pathname_invalid_eq (hs : HoldsStr c a s) (hnull : a ≠ 0) (pfxlen : ℕ) :
    Vm.pathname_invalid c a pfxlen = Chkfs.pathname_invalid
      (some (s, (List.range (min s.length (MAX_FILENAME_LEN + 1) + 1)).all fun i => accessible c.pt (a + i))) pfxlen := by
  unfold Vm.pathname_invalid Chkfs.pathname_invalid
  dsimp only
  rw [if_neg hnull]
  by_cases hempty : s = []
  · subst hempty
    rw [if_pos (show c.char a 0 = 0 from hs.last), if_pos (.inl rfl)]
  have hfirst : c.char a 0 ≠ 0 := (hs.char 0 (List.length_pos_iff.mpr hempty)).2
  rw [if_neg hfirst]
  -- the scan stops at the end of the string or at the limit
  set p := min s.length (MAX_FILENAME_LEN + 1) with hp
  have hscan : scanLoop c a (MAX_FILENAME_LEN + 1) 0 = some p ↔
      ∀ i, 0 < i → i ≤ p → accessible c.pt (a + i) = true := by
    rw [scanLoop_eq_some]
    constructor
    · rintro ⟨-, -, -, -, haccs⟩
      exact haccs
    · intro haccs
      refine ⟨Nat.zero_le p, by omega, fun i _ hi => (hs.char i (by omega)).2, ?_, haccs⟩
      rcases Nat.le_total s.length (MAX_FILENAME_LEN + 1) with hle | hle
      · right
        rw [hp, min_eq_left hle]
        exact hs.last
      · left
        omega
  by_cases hall : ((List.range (p + 1)).all fun i => accessible c.pt (a + i)) = true
  · have haccs : ∀ i ≤ p, accessible c.pt (a + i) = true := fun i hi =>
      List.all_eq_true.mp hall i (List.mem_range.mpr (by omega))
    have hzero : accessible c.pt a = true := haccs 0 (Nat.zero_le p)
    rw [if_neg (by rw [hzero]; decide), hscan.mpr fun i _ hi => haccs i hi, hall, if_neg (by simp [hempty])]
  · have hfault : scanLoop c a (MAX_FILENAME_LEN + 1) 0 = none ∨ accessible c.pt a = false := by
      by_contra hno
      push Not at hno
      obtain ⟨q, hq⟩ := Option.ne_none_iff_exists'.mp hno.1
      obtain ⟨-, hqle, hqchars, hqstop, hqaccs⟩ := scanLoop_eq_some.mp hq
      have hqp : p ≤ q := by
        rcases hqstop with rfl | hzero
        · omega
        · have : s.length = q := hs.length_eq (fun i => hqchars i (Nat.zero_le i)) hzero
          omega
      refine hall (List.all_eq_true.mpr fun i hi => ?_)
      have hip := List.mem_range.mp hi
      rcases Nat.eq_zero_or_pos i with rfl | hipos
      · exact eq_true_of_ne_false hno.2
      · exact hqaccs i hipos (by omega)
    rw [Bool.not_eq_true] at hall
    rw [hall, if_pos (show s = [] ∨ false = false from .inr rfl)]
    by_cases hacc : accessible c.pt a = false
    · rw [if_pos hacc]
    · rw [if_neg hacc, hfault.resolve_right hacc]

/-! ## What the callers rely on -/

/--
What `pathname_invalid` is to guarantee: the string is not empty, short enough with the prefix and accessible
to its end, and what the caller does with it fits.
-/
def Safe (c : Caller) (a : ℕ) (u : Use) : Prop :=
  pathname_invalid c a u.pfxlen = 0 →
    a ≠ 0 ∧ ∃ s, HoldsStr c a s ∧ s ≠ [] ∧ (∀ i ≤ s.length, accessible c.pt (a + i) = true) ∧
      s.length + u.pfxlen < maxnamelen ∧ u.copied s ≤ u.room

theorem path_find_last_length (s : Str) : (path_find_last s).2.length ≤ s.length := by
  have hskip : (skipLast s).length ≤ s.length := by
    unfold skipLast
    split
    · rw [List.length_dropLast]
      omega
    · exact le_rfl
  unfold path_find_last
  split
  · exact le_rfl
  · dsimp only
    rw [List.length_drop]
    omega

/-- The name of a directory entry is part of the path. -/
theorem copied_le_room {dir : Str} (h : s.length + dir.length < maxnamelen) :
    (Use.entry dir).copied s ≤ (Use.entry dir).room := by
  have hle := path_find_last_length (dir ++ s)
  rw [List.length_append] at hle
  show (path_find_last (dir ++ s)).2.length + 1 ≤ maxnamelen + 1
  omega

/--
**When what `pathname_invalid` accepts is safe**: the string ends where the scan has seen it, and for a socket
two characters before. A longer string that is accepted is safe if it is no key, and happens to be accessible
and short enough behind what was scanned.
-/
theorem safe_iff : Safe c a u ↔ (pathname_invalid c a u.pfxlen = 0 → ∃ s, HoldsStr c a s ∧ (s.length ≤ u.limit ∨
    u ≠ .socket ∧ s.length + u.pfxlen < maxnamelen ∧ ∀ i ≤ s.length, accessible c.pt (a + i) = true)) := by
  constructor
  · intro h hacc
    obtain ⟨-, s, hs, -, haccs, hshort, hcopy⟩ := h hacc
    refine ⟨s, hs, ?_⟩
    cases u with
    | entry dir => exact .inr ⟨fun h => (nomatch h), hshort, haccs⟩
    | socket =>
      left
      have hfit : s.length + 1 ≤ MAX_FILENAME_LEN := hcopy
      show s.length ≤ MAX_FILENAME_LEN - 1
      omega
  · intro h hacc
    obtain ⟨s, hs, hlen⟩ := h hacc
    obtain ⟨hnull, p, hpos, hle, hchars, hstop, haccs, hshort⟩ := accepted_iff.mp hacc
    refine ⟨hnull, s, hs, ?_, ?_⟩
    · rintro rfl
      exact hchars 0 hpos hs.last
    rcases hlen with hlen | ⟨hsocket, hlong, hall⟩
    · -- the scan has come to the end of the string
      have hlimit : u.limit ≤ MAX_FILENAME_LEN + 1 := by
        cases u with
        | entry dir => exact le_rfl
        | socket => decide
      have hend : s.length = p := by
        rcases hstop with rfl | hzero
        · refine le_antisymm (hlen.trans hlimit) ?_
          by_contra hlt
          exact hchars _ (not_le.mp hlt) hs.last
        · exact hs.length_eq hchars hzero
      rw [hend]
      refine ⟨haccs, hshort, ?_⟩
      cases u with
      | entry dir =>
        refine copied_le_room ?_
        rw [hend]
        exact hshort
      | socket =>
        have hkey : s.length ≤ MAX_FILENAME_LEN - 1 := hlen
        show s.length + 1 ≤ MAX_FILENAME_LEN
        omega
    · refine ⟨hall, hlong, ?_⟩
      cases u with
      | entry dir => exact copied_le_room hlong
      | socket => exact absurd rfl hsocket

/-! ## Names that are too long -/

/-- A caller whose memory is all accessible, with a name of `n` times the letter `a` at address 2 MiB. -/
def nameCaller (n : ℕ) : Caller where
  pt := fun _ _ => some ⟨0, true, true, true⟩
  mem := fun va => if 0x200000 ≤ va ∧ va < 0x200000 + n then 97 else 0
  regs := ⟨0x200000, 0, 0, 0⟩

theorem nameCaller_length {n : ℕ} (hn : n < 2 ^ 32) (hs : HoldsStr (nameCaller n) 0x200000 s) : s.length = n := by
  refine hs.length_eq (fun i hi => ?_) ?_
  · unfold Caller.char nameCaller
    dsimp only
    rw [Nat.mod_eq_of_lt (by omega), if_pos (by omega)]
    decide
  · unfold Caller.char nameCaller
    dsimp only
    rw [Nat.mod_eq_of_lt (by omega), if_neg (by omega)]

/-- **A socket name of 64 characters is accepted, and its terminator goes behind `key_`. A path of 200
characters is accepted too.** -/
theorem safe_fails : ¬Safe (nameCaller 64) 0x200000 .socket ∧ ¬Safe (nameCaller 200) 0x200000 (.entry []) := by
  constructor
  · intro h
    obtain ⟨-, s, hs, -, -, -, hcopy⟩ := h (by decide +kernel)
    have hlen := nameCaller_length (by decide) hs
    have hfit : s.length + 1 ≤ MAX_FILENAME_LEN := hcopy
    rw [hlen] at hfit
    exact absurd hfit (by decide)
  · intro h
    obtain ⟨-, s, hs, -, -, hshort, -⟩ := h (by decide +kernel)
    have hlen := nameCaller_length (by decide) hs
    rw [hlen] at hshort
    exact absurd hshort (by decide)

end Chickadee.Vm
