import Mathlib

/-!
# `memrangeset`

The ranges are the first `n_` records of `r_`, and the record behind them has the limit. `r_` has `maxsize + 1`
records, all in memory, so that no `unsigned` wraps. `none` is a failed assertion, or an access behind the array.
-/

namespace Chickadee.Memrange

/-- `class memrange` -/
structure memrange where
  addr_ : ℕ
  type_ : ℤ
  deriving DecidableEq

/-- `class memrangeset<maxsize>` -/
structure memrangeset (maxsize : ℕ) where
  n_ : ℕ
  r_ : ℕ → memrange

namespace memrangeset

variable {maxsize : ℕ}

/-- `limit()` -/
def limit (s : memrangeset maxsize) : ℕ := (s.r_ s.n_).addr_

/-- `validate()` -/
def validate (s : memrangeset maxsize) : Prop :=
  (0 < s.n_ ∧ s.n_ ≤ maxsize) ∧ (s.r_ 0).addr_ = 0 ∧
    ∀ i < s.n_, (s.r_ i).addr_ < (s.r_ (i + 1)).addr_ ∧ (i = 0 ∨ (s.r_ i).type_ ≠ (s.r_ (i - 1)).type_)

instance (s : memrangeset maxsize) : Decidable s.validate := inferInstanceAs (Decidable (_ ∧ _))

/-- The loop of `find`, which `set` has for the upper bound as well. -/
def findLoop (s : memrangeset maxsize) (addr i : ℕ) : ℕ :=
  if i < s.n_ ∧ addr ≥ (s.r_ (i + 1)).addr_ then s.findLoop addr (i + 1) else i
termination_by s.n_ - i

/-- `find(addr)`, as an index. -/
def find (s : memrangeset maxsize) (addr : ℕ) : ℕ := s.findLoop addr 0

/-- `type(addr)` -/
def type (s : memrangeset maxsize) (addr : ℕ) : Option ℤ :=
  let r := s.find addr
  if r ≠ s.n_ then some (s.r_ r).type_ else none

/-- `memmove(&r_[dst], &r_[src], len * sizeof(memrange))` -/
def memmove (r_ : ℕ → memrange) (dst src len : ℕ) : ℕ → memrange := fun k =>
  if dst ≤ k ∧ k < dst + len then r_ (src + (k - dst)) else r_ k

/-- `r_[i].addr_ = addr` -/
def setAddr (s : memrangeset maxsize) (i addr : ℕ) : memrangeset maxsize :=
  { s with r_ := Function.update s.r_ i { s.r_ i with addr_ := addr } }

/-- `r_[i].type_ = type` -/
def setType (s : memrangeset maxsize) (i : ℕ) (type : ℤ) : memrangeset maxsize :=
  { s with r_ := Function.update s.r_ i { s.r_ i with type_ := type } }

/-- `split(i, addr)` -/
def split (s : memrangeset maxsize) (i addr : ℕ) : Option (memrangeset maxsize) :=
  if (i < s.n_ ∧ s.n_ + 1 ≤ maxsize) ∧ (s.r_ i).addr_ < addr ∧ (s.r_ (i + 1)).addr_ > addr then
    let r_ := memmove s.r_ (i + 2) (i + 1) (s.n_ - i)
    some ⟨s.n_ + 1, Function.update r_ (i + 1) ⟨addr, (r_ i).type_⟩⟩
  else none

/-- The loop of `set` that finds the lower bound. It has no bound of its own. -/
def lowerLoop (s : memrangeset maxsize) (first i : ℕ) : Option ℕ :=
  if i < maxsize then
    if first ≥ (s.r_ (i + 1)).addr_ then s.lowerLoop first (i + 1) else some i
  else none
termination_by maxsize - i

/-- The end of `set`: the range from `i` to `j` gets its type, and becomes one. -/
def assign (s : memrangeset maxsize) (first last : ℕ) (type : ℤ) (i j : ℕ) : Option (Bool × memrangeset maxsize) :=
  if (s.r_ i).addr_ = first ∧ (s.r_ j).addr_ = last then
    let s := s.setType i type
    if i + 1 < j then
      some (true, { n_ := s.n_ - (j - (i + 1)), r_ := memmove s.r_ (i + 1) j (s.n_ + 1 - j) })
    else some (true, s)
  else none

/-- The middle of `set`: the ranges at both ends are split. -/
def splitEnds (s : memrangeset maxsize) (first last : ℕ) (type : ℤ) (i j : ℕ) :
    Option (Bool × memrangeset maxsize) :=
  if s.n_ + (if first ≠ (s.r_ i).addr_ then 1 else 0) + (if last ≠ (s.r_ j).addr_ then 1 else 0) > maxsize then
    some (false, s)
  else do
    let (i, j, s) ← if first ≠ (s.r_ i).addr_ then (s.split i first).map fun s => (i + 1, j + 1, s)
      else some (i, j, s)
    let (j, s) ← if last ≠ (s.r_ j).addr_ then (s.split j last).map fun s => (j + 1, s) else some (j, s)
    s.assign first last type i j

/-- `set(first, last, type)` -/
def set (s : memrangeset maxsize) (first last : ℕ) (type : ℤ) : Option (Bool × memrangeset maxsize) :=
  if ¬(first ≤ last ∧ last ≤ (s.r_ s.n_).addr_) then none
  else if first = last then some (true, s)
  else do
    let i ← s.lowerLoop first 0
    if ¬(i < s.n_ ∧ first ≥ (s.r_ i).addr_ ∧ first < (s.r_ (i + 1)).addr_) then none
    else
      let i := if first = (s.r_ i).addr_ ∧ i > 0 ∧ (s.r_ (i - 1)).type_ = type then i - 1 else i
      let first := if (s.r_ i).type_ = type then (s.r_ i).addr_ else first
      let j := s.findLoop last i
      if ¬(j ≤ s.n_ ∧ last ≥ (s.r_ j).addr_ ∧ (j = s.n_ ∨ last < (s.r_ (j + 1)).addr_)) then none
      else if j < s.n_ ∧ (s.r_ j).type_ = type then
        s.splitEnds first (s.r_ (j + 1)).addr_ type i (j + 1)
      else if j > i ∧ first = (s.r_ i).addr_ then (s.setAddr j last).splitEnds first last type i j
      else s.splitEnds first last type i j

end memrangeset

end Chickadee.Memrange
