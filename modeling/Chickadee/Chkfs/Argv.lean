import Chickadee.Alloc.Kalloc
import Chickadee.Chkfs.Load

/-!
# The arguments of a new program

`copy_argv` puts the strings at the end of the stack page and the array of pointers before them. That
they fit in the page is not what `argv_invalid` checks: `copy_argv_iff` has the exact condition.
-/

namespace Chickadee.Chkfs

open Lib
open Alloc (HIGHMEM_BASE MEMSIZE_PHYSICAL)

/-! ## The page and what is written -/

/-- The new stack page: a page of physical memory that is mapped in the lower half. -/
structure StackPage where
  pa : ℕ
  uva : ℕ
  physical : pa + PAGESIZE ≤ MEMSIZE_PHYSICAL
  low : PAGESIZE ≤ uva
  user : uva + PAGESIZE ≤ 2 ^ 47

/-- `pa2kptr(stkpg_pa)` -/
def StackPage.kva (pg : StackPage) : ℕ := HIGHMEM_BASE + pg.pa

/-- Memory by kernel address, with the ranges that have been written: address and length. -/
structure Ram where
  mem : ℕ → UInt8
  stores : List (ℕ × ℕ)

namespace Ram

/-- `memcpy(a, s, n)`, from a string with its terminator -/
def memcpy (r : Ram) (a : ℕ) (s : Str) (n : ℕ) : Ram where
  mem := copyTo r.mem a n fun i => (s ++ [0]).getD i 0
  stores := (a, n) :: r.stores

/-- `memcpy(a, &v, 8)` -/
def memcpyPtr (r : Ram) (a v : ℕ) : Ram where
  mem := putLE r.mem a 8 v
  stores := (a, 8) :: r.stores

variable (r : Ram) (a v n : ℕ) (s : Str)

theorem memcpy_mem : (r.memcpy a s n).mem = copyTo r.mem a n fun i => (s ++ [0]).getD i 0 := rfl

theorem memcpyPtr_mem : (r.memcpyPtr a v).mem = putLE r.mem a 8 v := rfl

end Ram

/-! ## The function -/

/-- The loop of `copy_argv`. `none` is a failed assertion. -/
def copyLoop (top_kva top_uva : ℕ) : List Str → ℕ → ℕ → ℕ → Ram → Option (Ram × ℕ)
  | [], _, _, next_arg_kva, r => some (r, next_arg_kva)
  | arg :: rest, cpy_kva, cpy_uva, next_arg_kva, r =>
    let arglen := arg.length + 1
    let r := r.memcpy cpy_kva arg arglen
    let r := r.memcpyPtr next_arg_kva cpy_uva
    if cpy_kva + arglen ≤ top_kva ∧ cpy_uva + arglen ≤ top_uva then
      copyLoop top_kva top_uva rest (cpy_kva + arglen) (cpy_uva + arglen) (next_arg_kva + 8) r
    else none

/-- `copy_argv(pt, stkpg_uptr, argc, argv, total_length)`, on the strings of `argv`. -/
def copy_argv (pg : StackPage) (argv : List Str) (total_length : ℕ) (r : Ram) : Option (Ram × ℕ) :=
  let stkpg_top_kva := pg.kva + PAGESIZE
  let cpy_kva := stkpg_top_kva - total_length
  let cpy_uva := pg.uva + PAGESIZE - total_length
  if stkpg_top_kva - cpy_kva < MAX_ARGV_LEN then
    let argv_arr_kva := cpy_kva - 8 * (argv.length + 1)
    let argv_arr_uva := pg.uva + PAGESIZE - (stkpg_top_kva - argv_arr_kva)
    match copyLoop stkpg_top_kva (pg.uva + PAGESIZE) argv cpy_kva cpy_uva argv_arr_kva r with
    | none => none
    | some (r, next_arg_kva) => some (r.memcpyPtr next_arg_kva 0, argv_arr_uva)
  else none

/-- The strings `argv[0]`, ..., `argv[argc - 1]`. -/
def argStrings (argc : ℕ) (argv : ℕ → UserStr) : List Str :=
  (List.range argc).map fun i => (argv i).elim [] Prod.fst

/-- The number of bytes of the strings, with their terminators. -/
def stringBytes (argv : List Str) : ℕ := (argv.map fun s => s.length + 1).sum

/-! ## What the new program sees -/

namespace StackPage

/-- The pointer at a user address of the page. -/
def userPtr (pg : StackPage) (m : ℕ → UInt8) (v : ℕ) : Option ℕ :=
  if pg.uva ≤ v ∧ v + 8 ≤ pg.uva + PAGESIZE then some (getLE m (pg.kva + (v - pg.uva)) 8) else none

/-- The string at a user address of the page. -/
def userStr (pg : StackPage) (m : ℕ → UInt8) : ℕ → ℕ → Option Str
  | 0, _ => none
  | fuel + 1, v =>
    if pg.uva ≤ v ∧ v < pg.uva + PAGESIZE then
      let c := m (pg.kva + (v - pg.uva))
      if c = 0 then some [] else (pg.userStr m fuel (v + 1)).map (c :: ·)
    else none

/-- The array of strings at a user address of the page, up to the null pointer. -/
def userArgv (pg : StackPage) (m : ℕ → UInt8) : ℕ → ℕ → Option (List Str)
  | 0, _ => none
  | fuel + 1, v =>
    match pg.userPtr m v with
    | none => none
    | some 0 => some []
    | some a =>
      match pg.userStr m PAGESIZE a with
      | none => none
      | some s => (pg.userArgv m fuel (v + 8)).map (s :: ·)

end StackPage

/--
What `copy_argv` is to do: it writes inside the page only, the array at `uva` decodes to the strings
in order up to the null pointer, and the strings lie behind the array.
-/
structure ArgvCopied (pg : StackPage) (argv : List Str) (r : Ram) (uva : ℕ) : Prop where
  inside : ∀ st ∈ r.stores, pg.kva ≤ st.1 ∧ st.1 + st.2 ≤ pg.kva + PAGESIZE
  decodes : pg.userArgv r.mem (argv.length + 1) uva = some argv
  apart : ∀ i < argv.length, ∃ a, pg.userPtr r.mem (uva + 8 * i) = some a ∧
    uva + 8 * (argv.length + 1) ≤ a

/-! ## What `argv_invalid` accepts -/

variable {argv : List Str} {pg : StackPage} {m : ℕ → UInt8}

theorem pathname_invalid_le (s : UserStr) (n : ℕ) : pathname_invalid s n ≤ 0 := by
  unfold pathname_invalid
  split
  · decide
  · split
    · decide
    · split <;> decide

theorem stringBytes_cons (arg : Str) (rest : List Str) :
    stringBytes (arg :: rest) = arg.length + 1 + stringBytes rest := rfl

/-- The loop counts the strings and their bytes. -/
theorem argvLoop_counts {argv : ℕ → UserStr} (n : ℕ) : ∀ {i nchars nstrs' nchars' : ℕ},
    argvLoop argv n i nchars = .inr (nstrs', nchars') → nstrs' ≤ i + n ∧
      (nstrs' = i + n → nchars' = nchars + stringBytes
        ((List.range n).map fun j => (argv (i + j)).elim [] Prod.fst)) := by
  induction n with
  | zero =>
    intro i nchars nstrs' nchars' h
    cases h
    exact ⟨le_rfl, fun _ => rfl⟩
  | succ n ih =>
    intro i nchars nstrs' nchars' h
    unfold argvLoop at h
    split at h
    · cases h
      exact ⟨by omega, fun hc => absurd hc (by omega)⟩
    · split at h
      · cases h
        exact ⟨by omega, fun hc => absurd hc (by omega)⟩
      · next arg harg =>
        split at h
        · cases h
        · obtain ⟨hle, hsum⟩ := ih h
          refine ⟨by omega, fun hc => ?_⟩
          have hfirst : argv (i + 0) = some arg := harg
          have hrest : (fun j => (argv (i + j)).elim [] Prod.fst) ∘ Nat.succ =
              fun j => (argv (i + 1 + j)).elim [] Prod.fst := by
            funext j
            rw [Function.comp_apply, show i + j.succ = i + 1 + j by omega]
          rw [hsum (by omega), List.range_succ_eq_map, List.map_cons, List.map_map, hrest, hfirst,
            stringBytes_cons]
          simp only [Option.elim_some]
          omega

/-- It ends early with an error code only. -/
theorem argvLoop_error {argv : ℕ → UserStr} (n : ℕ) : ∀ {i nchars : ℕ} {r : ℤ},
    argvLoop argv n i nchars = .inl r → r < 0 := by
  induction n with
  | zero => exact fun h => by cases h
  | succ n ih =>
    intro i nchars r h
    unfold argvLoop at h
    split at h
    · cases h
    · split at h
      · cases h
      · next arg harg =>
        split at h
        · next hne =>
          cases h
          exact lt_of_le_of_ne (pathname_invalid_le _ _) hne
        · exact ih h

/-- **What `argv_invalid` accepts**: at least one string, and fewer than `MAX_ARGV_LEN` bytes. -/
theorem argv_invalid_accepts {argc : ℤ} {argv : ℕ → UserStr}
    (h : 0 ≤ argv_invalid argc (some argv)) : 0 < argc.toNat ∧
      (argv_invalid argc (some argv)).toNat = stringBytes (argStrings argc.toNat argv) ∧
      stringBytes (argStrings argc.toNat argv) < MAX_ARGV_LEN := by
  unfold argv_invalid at h ⊢
  dsimp only at h ⊢
  by_cases hargc : argc < 1 ∨ MAX_ARGV_LEN ≤ argc
  · rw [if_pos hargc] at h
    exact absurd h (by decide)
  rw [if_neg hargc] at h ⊢
  split at h
  · next r hr => exact absurd h (not_le.mpr (argvLoop_error _ hr))
  · next nstrs nchars hr =>
    have hcounts := argvLoop_counts _ hr
    split at h
    · exact absurd h (by decide)
    · next hfits =>
      split at h
      · exact absurd h (by decide)
      · next hall =>
        have hsum : nchars = stringBytes (argStrings argc.toNat argv) := by
          have := hcounts.2 (by omega)
          simpa only [argStrings, Nat.zero_add] using this
        rw [if_neg hfits, if_neg hall]
        omega

/-! ## What is in the page -/

/-- The strings are in the page from offset `c` on, the pointers to them from offset `a` on. -/
def Laid (pg : StackPage) (m : ℕ → UInt8) : List Str → ℕ → ℕ → Prop
  | [], _, _ => True
  | arg :: rest, a, c => getLE m (pg.kva + a) 8 = pg.uva + c ∧
      (∀ i ≤ arg.length, m (pg.kva + c + i) = (arg ++ [0]).getD i 0) ∧
      Laid pg m rest (a + 8) (c + (arg.length + 1))

/-- Only the bytes of the strings and of the pointers matter. -/
theorem Laid.of {m' : ℕ → UInt8} (argv : List Str) : ∀ {a c : ℕ}, Laid pg m argv a c →
    (∀ i, pg.kva + a ≤ i → i < pg.kva + a + 8 * argv.length → m' i = m i) →
    (∀ i, pg.kva + c ≤ i → i < pg.kva + c + stringBytes argv → m' i = m i) →
    Laid pg m' argv a c := by
  induction argv with
  | nil => exact fun _ _ _ => trivial
  | cons arg rest ih =>
    intro a c hlaid hptrs hstrs
    rw [List.length_cons] at hptrs
    rw [stringBytes_cons] at hstrs
    obtain ⟨hptr, hbytes, hrest⟩ := hlaid
    refine ⟨?_, fun i hi => ?_, ih hrest (fun i h₁ h₂ => hptrs i (by omega) (by omega))
      fun i h₁ h₂ => hstrs i (by omega) (by omega)⟩
    · rw [getLE_congr fun i h₁ h₂ => hptrs i h₁ (by omega), hptr]
    · rw [hstrs _ (by omega) (by omega), hbytes i hi]

/-- A string without a terminator inside is read back. -/
theorem userStr_of_bytes (s : Str) : ∀ {c fuel : ℕ}, 0 ∉ s → s.length < fuel →
    c + s.length < PAGESIZE → (∀ i ≤ s.length, m (pg.kva + c + i) = (s ++ [0]).getD i 0) →
    pg.userStr m fuel (pg.uva + c) = some s := by
  induction s with
  | nil =>
    intro c fuel _ hfuel hc hm
    obtain ⟨fuel, rfl⟩ : ∃ f, fuel = f + 1 := ⟨fuel - 1, by omega⟩
    have hnul : m (pg.kva + c) = 0 := hm 0 le_rfl
    have hc' : c < PAGESIZE := hc
    rw [StackPage.userStr, if_pos ⟨by omega, by omega⟩, Nat.add_sub_cancel_left]
    simp only [hnul, if_true]
  | cons x s ih =>
    intro c fuel hnul hfuel hc hm
    obtain ⟨fuel, rfl⟩ : ∃ f, fuel = f + 1 := ⟨fuel - 1, by omega⟩
    rw [List.length_cons] at hfuel hc
    have hx : m (pg.kva + c) = x := hm 0 (Nat.zero_le _)
    have hne : x ≠ 0 := fun h => hnul (h ▸ List.mem_cons_self)
    have hrest := ih (c := c + 1) (fun h => hnul (List.mem_cons_of_mem _ h))
      (show s.length < fuel by omega) (by omega) fun i hi => by
        have := hm (i + 1) (by rw [List.length_cons]; omega)
        rwa [show pg.kva + c + (i + 1) = pg.kva + (c + 1) + i by omega] at this
    rw [StackPage.userStr, if_pos ⟨by omega, by omega⟩, Nat.add_sub_cancel_left]
    simp only [hx, if_neg hne]
    rw [Nat.add_assoc, hrest]
    rfl

/-- A pointer of the page. -/
theorem userPtr_of_bytes (pg : StackPage) (m : ℕ → UInt8) {a : ℕ} (ha : a + 8 ≤ PAGESIZE) :
    pg.userPtr m (pg.uva + a) = some (getLE m (pg.kva + a) 8) := by
  rw [StackPage.userPtr, if_pos ⟨by omega, by omega⟩, Nat.add_sub_cancel_left]

/-- **What is laid out in the page is read back as the array.** -/
theorem userArgv_of_laid (argv : List Str) : ∀ {a c : ℕ}, (∀ s ∈ argv, 0 ∉ s) →
    Laid pg m argv a c → getLE m (pg.kva + a + 8 * argv.length) 8 = 0 →
    a + 8 * (argv.length + 1) ≤ PAGESIZE → c + stringBytes argv ≤ PAGESIZE →
    pg.userArgv m (argv.length + 1) (pg.uva + a) = some argv := by
  induction argv with
  | nil =>
    intro a c _ _ hnull ha _
    have hptr := userPtr_of_bytes pg m ha
    rw [show getLE m (pg.kva + a) 8 = 0 from hnull] at hptr
    rw [StackPage.userArgv, hptr]
    rfl
  | cons arg rest ih =>
    intro a c hstr hlaid hnull ha hc
    obtain ⟨hptr, hbytes, hrest⟩ := hlaid
    rw [List.length_cons] at hnull ha
    rw [stringBytes_cons] at hc
    have hread := userPtr_of_bytes pg m (show a + 8 ≤ PAGESIZE by omega)
    have hlow := pg.low
    have harg : pg.userStr m PAGESIZE (pg.uva + c) = some arg :=
      userStr_of_bytes arg (hstr arg List.mem_cons_self) (by omega) (by omega) hbytes
    have hnull' : getLE m (pg.kva + (a + 8) + 8 * rest.length) 8 = 0 := by
      rw [show pg.kva + (a + 8) + 8 * rest.length = pg.kva + a + 8 * (rest.length + 1) by omega]
      exact hnull
    have htail := ih (fun s hs => hstr s (List.mem_cons_of_mem _ hs)) hrest
      hnull' (by omega) (by omega)
    obtain ⟨v, hv⟩ : ∃ v, pg.uva + c = v + 1 := ⟨pg.uva + c - 1, by unfold PAGESIZE at hlow; omega⟩
    rw [hv] at hptr harg
    rw [List.length_cons, StackPage.userArgv, hread, hptr]
    simp only [harg]
    rw [Nat.add_assoc, htail]
    rfl

/-- The pointers of what is laid out. -/
theorem ptr_of_laid (argv : List Str) : ∀ {a c : ℕ}, Laid pg m argv a c →
    a + 8 * argv.length ≤ PAGESIZE → ∀ i < argv.length, ∃ v,
      pg.userPtr m (pg.uva + a + 8 * i) = some v ∧ pg.uva + c ≤ v := by
  induction argv with
  | nil => exact fun _ _ i hi => absurd hi (Nat.not_lt_zero i)
  | cons arg rest ih =>
    intro a c hlaid ha i hi
    rw [List.length_cons] at ha hi
    cases i with
    | zero => exact ⟨_, userPtr_of_bytes pg m (by omega), hlaid.1.ge⟩
    | succ i =>
      obtain ⟨v, hv, hle⟩ := ih hlaid.2.2 (by omega) i (by omega)
      exact ⟨v, by rw [← hv]; congr 1; omega, by omega⟩

/-! ## What the loop writes -/

/-- The loop fails no assertion, and its first pointer goes to the start of the array. -/
theorem copyLoop_total {top_kva top_uva : ℕ} (argv : List Str) : ∀ {cpy_kva cpy_uva n : ℕ} {r : Ram},
    cpy_kva + stringBytes argv ≤ top_kva → cpy_uva + stringBytes argv ≤ top_uva →
    ∃ r', copyLoop top_kva top_uva argv cpy_kva cpy_uva n r = some (r', n + 8 * argv.length) ∧
      (∀ st ∈ r.stores, st ∈ r'.stores) ∧ (argv ≠ [] → (n, 8) ∈ r'.stores) := by
  induction argv with
  | nil => exact fun _ _ => ⟨_, rfl, fun _ h => h, fun h => absurd rfl h⟩
  | cons arg rest ih =>
    intro cpy_kva cpy_uva n r hk hu
    rw [stringBytes_cons] at hk hu
    rw [copyLoop, if_pos ⟨by omega, by omega⟩]
    obtain ⟨r', hr', hold, -⟩ := ih (n := n + 8)
      (r := (r.memcpy cpy_kva arg (arg.length + 1)).memcpyPtr n cpy_uva)
      (show cpy_kva + (arg.length + 1) + stringBytes rest ≤ top_kva by omega)
      (show cpy_uva + (arg.length + 1) + stringBytes rest ≤ top_uva by omega)
    refine ⟨r', ?_, fun st hst => hold st ?_, fun _ => hold _ List.mem_cons_self⟩
    · rw [hr', List.length_cons, Nat.mul_succ, Nat.add_assoc, Nat.add_comm 8]
    · exact List.mem_cons_of_mem _ (List.mem_cons_of_mem _ hst)

/-- What the loop leaves, when the array ends before the strings begin. -/
structure Looped (pg : StackPage) (argv : List Str) (a c : ℕ) (r r' : Ram) : Prop where
  laid : Laid pg r'.mem argv a c
  frame : ∀ i, i < pg.kva + a ∨ pg.kva + a + 8 * argv.length ≤ i →
    i < pg.kva + c ∨ pg.kva + c + stringBytes argv ≤ i → r'.mem i = r.mem i
  stores : ∀ st ∈ r'.stores, st ∈ r.stores ∨ pg.kva + a ≤ st.1 ∧ st.1 + st.2 ≤ pg.kva + PAGESIZE

/-- **The loop lays out the strings and the pointers.** -/
theorem copyLoop_looped (argv : List Str) : ∀ {a c n : ℕ} {r r' : Ram},
    copyLoop (pg.kva + PAGESIZE) (pg.uva + PAGESIZE) argv (pg.kva + c) (pg.uva + c) (pg.kva + a) r =
      some (r', n) → a + 8 * argv.length ≤ c → c + stringBytes argv ≤ PAGESIZE →
    Looped pg argv a c r r' := by
  induction argv with
  | nil =>
    intro a c n r r' h _ _
    cases h
    exact ⟨trivial, fun _ _ _ => rfl, fun _ h => Or.inl h⟩
  | cons arg rest ih =>
    intro a c n r r' h ha hc
    rw [List.length_cons] at ha
    rw [stringBytes_cons] at hc
    rw [copyLoop, if_pos ⟨by omega, by omega⟩, Nat.add_assoc pg.kva, Nat.add_assoc pg.uva,
      Nat.add_assoc pg.kva] at h
    have hnext := ih h (by omega) (by omega)
    -- the rest of the loop writes behind this pointer and behind this string
    have hptr : ∀ i, pg.kva + a ≤ i → i < pg.kva + a + 8 →
        r'.mem i = putLE _ (pg.kva + a) 8 (pg.uva + c) i := fun i h₁ h₂ =>
      hnext.frame i (by omega) (by omega)
    have hbytes : ∀ i ≤ arg.length, r'.mem (pg.kva + c + i) = (arg ++ [0]).getD i 0 := by
      intro i hi
      rw [hnext.frame _ (by omega) (by omega), Ram.memcpyPtr_mem, putLE_of_not_mem (by omega),
        Ram.memcpy_mem, copyTo_of_mem (by omega) (by omega), Nat.add_sub_cancel_left]
    refine ⟨⟨?_, hbytes, hnext.laid⟩, fun i hi hi' => ?_, fun st hst => ?_⟩
    · rw [getLE_congr hptr, getLE_putLE, Nat.mod_eq_of_lt]
      have huser := pg.user
      omega
    · rw [List.length_cons] at hi
      rw [stringBytes_cons] at hi'
      rw [hnext.frame i (by omega) (by omega), Ram.memcpyPtr_mem, putLE_of_not_mem (by omega),
        Ram.memcpy_mem, copyTo_of_not_mem (by omega)]
    · rcases hnext.stores st hst with hold | ⟨hlo, hhi⟩
      · rcases List.mem_cons.mp hold with rfl | hold
        · exact Or.inr ⟨le_rfl, by dsimp only; omega⟩
        · rcases List.mem_cons.mp hold with rfl | hold
          · exact Or.inr ⟨by dsimp only; omega, by dsimp only; omega⟩
          · exact Or.inl hold
      · exact Or.inr ⟨by omega, hhi⟩

/-! ## When the arguments fit -/

/-- On what `argv_invalid` accepts the function fails no assertion and does its work exactly if the
strings and the pointers fit in the page. -/
theorem copy_argv_spec (hne : argv ≠ []) (hmax : stringBytes argv < MAX_ARGV_LEN)
    (hstr : ∀ s ∈ argv, 0 ∉ s) (pg : StackPage) (m : ℕ → UInt8) :
    ∃ r uva, copy_argv pg argv (stringBytes argv) ⟨m, []⟩ = some (r, uva) ∧
      (ArgvCopied pg argv r uva ↔ stringBytes argv + 8 * (argv.length + 1) ≤ PAGESIZE) := by
  obtain ⟨total, htotal⟩ : ∃ t, t = stringBytes argv := ⟨_, rfl⟩
  rw [← htotal] at hmax ⊢
  have hkva : HIGHMEM_BASE ≤ pg.kva := Nat.le_add_right _ _
  unfold MAX_ARGV_LEN at hmax
  obtain ⟨r, hr, -, hfirst⟩ := copyLoop_total argv
    (n := pg.kva + PAGESIZE - total - 8 * (argv.length + 1)) (r := ⟨m, []⟩)
    (show pg.kva + PAGESIZE - total + stringBytes argv ≤ pg.kva + PAGESIZE by unfold PAGESIZE; omega)
    (show pg.uva + PAGESIZE - total + stringBytes argv ≤ pg.uva + PAGESIZE by unfold PAGESIZE; omega)
  unfold copy_argv
  dsimp only
  rw [if_pos (by unfold HIGHMEM_BASE at hkva; unfold PAGESIZE MAX_ARGV_LEN; omega), hr]
  refine ⟨_, _, rfl, fun hcopied => ?_, fun hfits => ?_⟩
  · -- the array starts in the page
    obtain ⟨hlo, -⟩ := hcopied.inside _ (List.mem_cons_of_mem _ (hfirst hne))
    unfold PAGESIZE HIGHMEM_BASE at *
    dsimp only at hlo
    omega
  · obtain ⟨c, hc⟩ : ∃ c, c = PAGESIZE - total := ⟨_, rfl⟩
    obtain ⟨a, ha⟩ : ∃ a, a = c - 8 * (argv.length + 1) := ⟨_, rfl⟩
    have hcpy : pg.kva + PAGESIZE - total = pg.kva + c := by omega
    have hcpyu : pg.uva + PAGESIZE - total = pg.uva + c := by omega
    have harr : pg.kva + c - 8 * (argv.length + 1) = pg.kva + a := by omega
    have harru : pg.uva + PAGESIZE - (pg.kva + PAGESIZE - (pg.kva + a)) = pg.uva + a := by omega
    rw [hcpy, hcpyu, harr] at hr
    rw [hcpy, harr, harru]
    have hloop := copyLoop_looped argv hr (by omega) (by omega)
    -- the null pointer goes between the array and the strings
    have hlaid : Laid pg (r.memcpyPtr (pg.kva + a + 8 * argv.length) 0).mem argv a c :=
      hloop.laid.of argv (fun i h₁ h₂ => putLE_of_not_mem (by omega))
        fun i h₁ h₂ => putLE_of_not_mem (by omega)
    have hnull : getLE (r.memcpyPtr (pg.kva + a + 8 * argv.length) 0).mem
        (pg.kva + a + 8 * argv.length) 8 = 0 := by
      rw [Ram.memcpyPtr_mem, getLE_putLE, Nat.zero_mod]
    refine ⟨fun st hst => ?_, userArgv_of_laid argv hstr hlaid hnull (by omega) (by omega),
      fun i hi => ?_⟩
    · rcases List.mem_cons.mp hst with rfl | hst
      · dsimp only
        omega
      · obtain ⟨h₁, h₂⟩ := (hloop.stores st hst).resolve_left List.not_mem_nil
        exact ⟨by omega, h₂⟩
    · obtain ⟨v, hv, hle⟩ := ptr_of_laid argv hlaid (by omega) i hi
      exact ⟨v, hv, by omega⟩

/--
**The arguments that `argv_invalid` accepts are copied as they should be exactly if they fit in the
page together with the pointers to them.**
-/
theorem copy_argv_iff {argc : ℤ} {argv : ℕ → UserStr} (hok : 0 ≤ argv_invalid argc (some argv))
    (hstr : ∀ s ∈ argStrings argc.toNat argv, 0 ∉ s) (pg : StackPage) (m : ℕ → UInt8) :
    ∃ r uva, copy_argv pg (argStrings argc.toNat argv) (argv_invalid argc (some argv)).toNat ⟨m, []⟩ =
        some (r, uva) ∧
      (ArgvCopied pg (argStrings argc.toNat argv) r uva ↔
        stringBytes (argStrings argc.toNat argv) + 8 * (argc.toNat + 1) ≤ PAGESIZE) := by
  obtain ⟨hpos, htotal, hmax⟩ := argv_invalid_accepts hok
  have hlen : (argStrings argc.toNat argv).length = argc.toNat := by
    rw [argStrings, List.length_map, List.length_range]
  have hne : argStrings argc.toNat argv ≠ [] := by
    intro h
    rw [h] at hlen
    exact absurd hlen (by rw [List.length_nil]; omega)
  have hspec := copy_argv_spec hne hmax hstr pg m
  rw [htotal]
  rw [hlen] at hspec
  exact hspec

/-- The stack page of a new program at the end of physical memory. -/
def lastPage : StackPage where
  pa := MEMSIZE_PHYSICAL - PAGESIZE
  uva := 0x300000 - PAGESIZE
  physical := by decide
  low := by decide
  user := by decide

theorem copy_argv_two : ∃ r uva,
    copy_argv lastPage [[101, 99, 104, 111], [97]] 7 ⟨fun _ => 0, []⟩ = some (r, uva) ∧
      ArgvCopied lastPage [[101, 99, 104, 111], [97]] r uva := by
  obtain ⟨r, uva, hr, hiff⟩ := copy_argv_iff (show 0 ≤ argv_invalid 2 (some fun i =>
      if i = 0 then some ([101, 99, 104, 111], true) else some ([97], true)) by decide) (by decide) lastPage fun _ => 0
  exact ⟨r, uva, hr, hiff.mpr (by decide)⟩

/-- The most arguments of one character that fit are 408; `argv_invalid` accepts 409. -/
theorem copy_argv_409 : argv_invalid 409 (some fun _ => some ([97], true)) = 818 ∧
    ¬ ∃ r uva, copy_argv lastPage (argStrings 409 fun _ => some ([97], true)) 818 ⟨fun _ => 0, []⟩ =
        some (r, uva) ∧ ArgvCopied lastPage (argStrings 409 fun _ => some ([97], true)) r uva := by
  have hbytes : stringBytes (argStrings 409 fun _ => some ([97], true)) = 818 := by decide +kernel
  have hlen : (argStrings 409 fun _ => some ([97], true)).length = 409 := by decide +kernel
  obtain ⟨r, uva, hr, hiff⟩ := copy_argv_spec
    (show (argStrings 409 fun _ => some ([97], true)) ≠ [] by decide +kernel) (by rw [hbytes]; decide) (by decide +kernel) lastPage fun _ => 0
  refine ⟨by decide +kernel, ?_⟩
  rintro ⟨r', uva', hr', hcopied⟩
  rw [hbytes, hr'] at hr
  cases hr
  have hfits := hiff.mp hcopied
  rw [hbytes, hlen] at hfits
  exact absurd hfits (by decide)

end Chickadee.Chkfs
