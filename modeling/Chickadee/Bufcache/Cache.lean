import Mathlib.Data.Fintype.Basic
import Mathlib.Tactic

/-!
# The buffer cache of `k-chkfs.cc`

The entries, the three queues, and every section of code that runs under one hold of the cache's or
the entry's lock, as a function on the cache. The content of a block is a value of any type `α`, up
to the fields that the cleaner resets when a block is loaded.

A section returns `none` when one of its assertions fails.
-/

namespace Chickadee.Bufcache

/-- `bcentry::estate_t`. -/
inductive Estate | es_empty | es_allocated | es_loading | es_clean | es_dirty | es_prefetching
deriving DecidableEq

/--
`struct bcentry`. `buf_` is `none` for a null pointer and `again` says that `pfstatus_` is `E_AGAIN`;
the links are the queues' business.
-/
structure Bcentry (α : Type*) where
  estate_ : Estate := .es_empty
  bn_ : ℕ := 0
  ref_ : ℕ := 0
  wref_ : ℕ := 0
  buf_ : Option α := none
  again : Bool := true

/-- The number of entries. -/
abbrev ne : ℕ := 32

/-- `struct bufcache`. A list of entries is the list of their indices. -/
structure Cache (α : Type*) where
  e_ : Fin ne → Bcentry α
  evictq_ : List (Fin ne)
  dirty_list_ : List (Fin ne)
  pfq_ : List (Fin ne)

variable {α : Type*}

/-- The cache of a freshly booted kernel. -/
def Cache.init : Cache α where
  e_ := fun _ => {}
  evictq_ := []
  dirty_list_ := []
  pfq_ := []

namespace Cache

/-- Replace an entry. -/
def set (c : Cache α) (i : Fin ne) (b : Bcentry α) : Cache α :=
  { c with e_ := Function.update c.e_ i b }

/-- `empty()`. -/
def empty (c : Cache α) (i : Fin ne) : Bool := (c.e_ i).estate_ = .es_empty

/-- `clear()`, which asserts that the entry is not referenced. -/
def clear (c : Cache α) (i : Fin ne) : Option (Cache α) :=
  if (c.e_ i).ref_ = 0 then some (c.set i { c.e_ i with estate_ := .es_empty, buf_ := none })
  else none

/-- `evict()`: the index of the entry that has been cleared, if there is one. -/
def evict (c : Cache α) : Option (Cache α × Option (Fin ne)) :=
  match c.evictq_ with
  | blk :: rest =>
    match { c with evictq_ := rest }.clear blk with
    | none => none
    | some c => some (c, some blk)
  | [] =>
    -- the first prefetch that has completed
    match c.pfq_.find? fun it => !(c.e_ it).again with
    | none => some (c, none)
    | some it =>
      match { c with pfq_ := c.pfq_.erase it }.clear it with
      | none => none
      | some c => some (c, some it)

/-- `has_uref_dirty_blocks()`. -/
def has_uref_dirty_blocks (c : Cache α) : Bool :=
  (c.dirty_list_.take ne).any fun it => (c.e_ it).ref_ = 0

/-- The slot that contains `bn`, as the loops over `e_` look for it. -/
def slotOf (c : Cache α) (bn : ℕ) : Option (Fin ne) :=
  (List.finRange ne).find? fun i => !c.empty i && (c.e_ i).bn_ = bn

/-- The first empty slot. -/
def emptySlot (c : Cache α) : Option (Fin ne) := (List.finRange ne).find? fun i => c.empty i

/-! ## `get_disk_entry` -/

/-- How a section of `get_disk_entry` ends. -/
inductive GetResult
  /-- returns `nullptr` -/
  | null
  /-- returns entry `i` -/
  | entry (i : Fin ne)
  /-- waits for the prefetch in slot `i` -/
  | prefetching (i : Fin ne)
  /-- has sent the read request for entry `i` -/
  | reading (i : Fin ne)
  /-- waits until entry `i` has been loaded -/
  | loading (i : Fin ne)
  /-- calls `sync(0)` and tries again -/
  | full
deriving DecidableEq

/--
One turn of the loop of `load()`, for an entry that the caller references. `ok` says that `kalloc`
has memory; without it the caller drops its reference and clears the entry.
-/
def load [Inhabited α] (c : Cache α) (i : Fin ne) (ok : Bool) : Option (Cache α × GetResult) :=
  let b := c.e_ i
  match b.estate_ with
  | .es_empty => none
  | .es_allocated =>
    if b.buf_.isSome || ok then
      some (c.set i { b with estate_ := .es_loading, buf_ := some (b.buf_.getD default) },
        .reading i)
    else
      match (c.set i { b with ref_ := b.ref_ - 1 }).clear i with
      | none => none
      | some c => some (c, .null)
  | .es_loading => some (c, .loading i)
  | _ => some (c, .entry i)

/-- The part of `get_disk_entry` after a slot has been found: reference the entry and load it. -/
def obtain [Inhabited α] (c : Cache α) (bn : ℕ) (i : Fin ne) (ok : Bool) :
    Option (Cache α × GetResult) :=
  let b := c.e_ i
  let b := if b.estate_ = .es_empty then { b with estate_ := .es_allocated, bn_ := bn } else b
  let c := c.set i { b with ref_ := b.ref_ + 1 }
  { c with evictq_ := c.evictq_.erase i }.load i ok

/-- The part of `get_disk_entry` that takes over a completed prefetch. -/
def prefetchHit (c : Cache α) (i : Fin ne) : Option (Cache α × GetResult) :=
  let b := c.e_ i
  if i ∈ c.evictq_ then none
  else if i ∈ c.pfq_ then
    let c := c.set i { b with ref_ := b.ref_ + 1, estate_ := .es_clean }
    some ({ c with pfq_ := c.pfq_.erase i }, .entry i)
  else none

/-- The first section of `get_disk_entry(bn)`. -/
def get_disk_entry [Inhabited α] (c : Cache α) (bn : ℕ) (ok : Bool) :
    Option (Cache α × GetResult) :=
  match c.slotOf bn with
  | some i =>
    if (c.e_ i).estate_ = .es_prefetching then
      if (c.e_ i).again then some (c, .prefetching i) else c.prefetchHit i
    else c.obtain bn i ok
  | none =>
    match c.emptySlot with
    | some i => c.obtain bn i ok
    | none =>
      match c.evict with
      | none => none
      | some (c, some i) => c.obtain bn i ok
      | some (c, none) => some (c, if c.has_uref_dirty_blocks then .full else .null)

/-- The section of `get_disk_entry(bn)` after the prefetch in slot `i` has completed. -/
def get_resume [Inhabited α] (c : Cache α) (bn : ℕ) (i : Fin ne) (ok : Bool) :
    Option (Cache α × GetResult) :=
  if (c.e_ i).again then none
  else if (c.e_ i).estate_ = .es_prefetching then c.prefetchHit i
  else c.obtain bn i ok

/-- The section of `load()` after the read has completed. -/
def loaded [Inhabited α] (c : Cache α) (i : Fin ne) : Option (Cache α × GetResult) :=
  (c.set i { c.e_ i with estate_ := .es_clean }).load i true

/-! ## The other operations -/

/--
The end of an iteration of `prefetch`, which calls `prefetch_block()` for slot `i`. `ok` says that
`kalloc` has memory and `slot` that the disk has a free command slot.
-/
def prefetch_block [Inhabited α] (c : Cache α) (bn : ℕ) (i : Fin ne) (ok slot : Bool) :
    Option (Cache α) :=
  let b := { c.e_ i with bn_ := bn }
  if b.estate_ ≠ .es_empty then none
  else if b.buf_.isSome || ok then
    let c := c.set i
      { b with again := true, estate_ := .es_prefetching, buf_ := some (b.buf_.getD default) }
    if i ∈ c.evictq_ ∨ i ∈ c.pfq_ then none
    else some (if slot then { c with pfq_ := c.pfq_ ++ [i] } else c)
  else some (c.set i b)

/-- One iteration of `prefetch`, for block `bn`. -/
def prefetch [Inhabited α] (c : Cache α) (bn : ℕ) (ok slot : Bool) : Option (Cache α) :=
  match c.slotOf bn with
  | some _ => some c
  | none =>
    match c.emptySlot with
    | some i => c.prefetch_block bn i ok slot
    | none =>
      match c.evict with
      | none => none
      | some (c, some i) => c.prefetch_block bn i ok slot
      | some (c, none) => some c

/-- `put()`. -/
def put (c : Cache α) (i : Fin ne) : Option (Cache α) :=
  let b := c.e_ i
  if b.ref_ = 0 then none
  else
    let c := c.set i { b with ref_ := b.ref_ - 1 }
    if b.ref_ - 1 = 0 ∧ b.bn_ ≠ 0 ∧ b.estate_ ≠ .es_dirty ∧ b.estate_ ≠ .es_prefetching then
      if i ∈ c.evictq_ then none else some { c with evictq_ := c.evictq_ ++ [i] }
    else some c

/-- The first section of `get_write`: the write reference is free and is taken. -/
def get_write (c : Cache α) (i : Fin ne) : Option (Cache α) :=
  if (c.e_ i).wref_ = 0 then some (c.set i { c.e_ i with wref_ := 1 }) else none

/-- The second section of `get_write(true)`. `linked` says that the entry is on a dirty list. -/
def pushDirty (c : Cache α) (i : Fin ne) (linked : Bool) : Cache α :=
  if linked then c
  else
    let c := c.set i { c.e_ i with estate_ := .es_dirty }
    { c with dirty_list_ := c.dirty_list_ ++ [i] }

/-- `put_write()`. -/
def put_write (c : Cache α) (i : Fin ne) : Option (Cache α) :=
  if (c.e_ i).wref_ = 1 then some (c.set i { c.e_ i with wref_ := 0 }) else none

/-! ## `sync` -/

/-- The section of `sync(drop)` that marks a written entry clean. -/
def syncMark (c : Cache α) (drop : ℤ) (e : Fin ne) : Option (Cache α) :=
  let b := c.e_ e
  let c := c.set e { b with estate_ := .es_clean }
  if b.ref_ = 0 ∧ b.bn_ ≠ 0 ∧ drop ≤ 0 then
    if e ∈ c.evictq_ then none else some { c with evictq_ := c.evictq_ ++ [e] }
  else some c

/--
The loop of `sync(drop)` that drops buffers. It stops at a prefetch that has not completed and then
returns the rest of its work.
-/
def dropLoop (drop : ℤ) : List (Fin ne) → Cache α → Option (Cache α × List (Fin ne))
  | [], c => some (c, [])
  | i :: rest, c =>
    let b := c.e_ i
    if b.ref_ ≠ 0 ∧ b.estate_ = .es_empty then none
    else if b.ref_ > 0 ∧ drop > 1 ∧ b.bn_ ≥ 2 then none
    else if b.ref_ = 0 then
      if i ∈ c.evictq_ then
        match { c with evictq_ := c.evictq_.erase i }.clear i with
        | none => none
        | some c => dropLoop drop rest c
      else if i ∈ c.pfq_ then
        if b.again then some (c, i :: rest)
        else
          match { c with pfq_ := c.pfq_.erase i }.clear i with
          | none => none
          | some c => dropLoop drop rest c
      else
        match c.clear i with
        | none => none
        | some c => dropLoop drop rest c
    else dropLoop drop rest c

/-- The loop after the prefetch in slot `i` has completed. -/
def dropResume (drop : ℤ) (i : Fin ne) (rest : List (Fin ne)) (c : Cache α) :
    Option (Cache α × List (Fin ne)) :=
  if (c.e_ i).again then none
  else if i ∈ c.evictq_ then none
  else if i ∈ c.pfq_ then
    match { c with pfq_ := c.pfq_.erase i }.clear i with
    | none => none
    | some c => dropLoop drop rest c
  else none

end Cache

end Chickadee.Bufcache
