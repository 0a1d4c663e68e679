import Mathlib

/-!
# `strtoul` and `strtol`

A string is the list of its `char`s before the null character, and a pointer into it is what of the list is left. A
`char` is an `int` wherever it is used.
-/

namespace Chickadee.Strings

/-- The `int` of a character constant. -/
def chr (c : Char) : ℤ := c.toNat

/-- `isspace(c)` -/
def isspace (c : ℤ) : Bool := decide ((c ≥ chr '\t' ∧ c ≤ chr '\r') ∨ c = chr ' ')

/-- `s[i]` -/
def get (s : List ℤ) (i : ℕ) : ℤ := s.getD i 0

/-- The digit that the loop of `strtoul` finds, if it goes on. -/
def digit (base : ℕ) (c : ℤ) : Option ℕ :=
  if c ≥ chr '0' ∧ c < chr '0' + base then some (c - chr '0').toNat
  else if base > 10 ∧ c ≥ chr 'a' ∧ c < chr 'a' + base - 10 then some (c - chr 'a' + 10).toNat
  else if base > 10 ∧ c ≥ chr 'A' ∧ c < chr 'A' + base - 10 then some (c - chr 'A' + 10).toNat
  else none

/-- `-1UL`, which is `ULONG_MAX` -/
def ULONG_MAX : ℕ := 2 ^ 64 - 1

/-- The loop of `strtoul`: `x`, `overflow`, and where it stops. -/
def digitLoop (base : ℕ) : List ℤ → ℕ → Bool → ℕ × Bool × List ℤ
  | [], x, overflow => (x, overflow, [])
  | c :: s, x, overflow =>
    match digit base c with
    | none => (x, overflow, c :: s)
    | some d =>
      if x > (ULONG_MAX - d) / base then digitLoop base s x true
      else digitLoop base s ((x * base + d) % 2 ^ 64) overflow

/-- What `strtoul` does with `0x` and `base`. -/
def basePrefix (base : ℕ) (s : List ℤ) : ℕ × List ℤ :=
  if base = 0 then
    if get s 0 = chr '0' ∧ (get s 1 = chr 'x' ∨ get s 1 = chr 'X') then (16, s.drop 2)
    else if get s 0 = chr '0' then (8, s)
    else (10, s)
  else if base = 16 ∧ get s 0 = chr '0' ∧ (get s 1 = chr 'x' ∨ get s 1 = chr 'X') then (base, s.drop 2)
  else (base, s)

/-- `strtoul` behind the sign. -/
def magnitude (base : ℕ) (s : List ℤ) : ℕ × List ℤ :=
  let (base, s) := basePrefix base s
  let (x, overflow, s) := digitLoop base s 0 false
  (if overflow then ULONG_MAX else x, s)

/-- `-x` of an `unsigned long` -/
def neg (x : ℕ) : ℕ := (2 ^ 64 - x) % 2 ^ 64

/-- `strtoul(s, endptr, base)`, with `*endptr`. -/
def strtoul (s : List ℤ) (base : ℕ) : ℕ × List ℤ :=
  let s := s.dropWhile isspace
  let negative := decide (get s 0 = chr '-')
  let s := if negative ∨ get s 0 = chr '+' then s.drop 1 else s
  let (x, s) := magnitude base s
  (if negative then neg x else x, s)

/-- `long(u)` -/
def long (u : ℕ) : ℤ := if u < 2 ^ 63 then u else u - 2 ^ 64

/-- `strtol(s, endptr, base)`, with `*endptr`. -/
def strtol (s : List ℤ) (base : ℕ) : ℤ × List ℤ :=
  let s := s.dropWhile isspace
  let negative := decide (get s 0 = chr '-')
  let s := if negative then s.drop 1 else s
  let (u, s) := strtoul s base
  let bound := 2 ^ 63 - (if negative then 0 else 1)
  let u := if u > bound then bound else u
  (long (if negative then neg u else u), s)

end Chickadee.Strings
