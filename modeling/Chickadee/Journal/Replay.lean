import Mathlib.Data.Nat.Bitwise
import Chickadee.Lib.Bytes

/-!
# `journalreplayer`

The journal is `nb` blocks in memory, read and changed in place: `analyze` marks erroneous metablocks and
references that are overwritten, `run` puts the magic number back into the data it replays. Numbers are
little-endian, so that `from_le` and `to_le` change nothing; the messages are not modelled. The checksum is
any function of the bytes.
-/

namespace Chickadee.Journal

open Lib

abbrev Mem : Type := ℕ → UInt8

def blocksize : ℕ := 4096

abbrev journalmagic : ℕ := 0xFBBFBB009EEBCEED

abbrev nochecksum : ℕ := 0x82600A5F

/-- The references that fit into a metablock. -/
def ref_size : ℕ := (blocksize / 4 - 7) / 3

abbrev jf_meta : ℕ := 0x01

abbrev jf_error : ℕ := 0x02

abbrev jf_corrupt : ℕ := 0x04

abbrev jf_start : ℕ := 0x10

abbrev jf_commit : ℕ := 0x20

abbrev jf_complete : ℕ := 0x40

abbrev jbf_escaped : ℕ := 0x100

abbrev jbf_nonjournaled : ℕ := 0x200

abbrev jbf_overwritten : ℕ := 0x400

/-! ## `struct jmetablock` -/

section

variable (m : Mem) (bi : ℕ)

def magic : ℕ := getLE m (bi * blocksize) 8

def checksum : ℕ := getLE m (bi * blocksize + 8) 4

def seq : ℕ := getLE m (bi * blocksize + 16) 2

def tid : ℕ := getLE m (bi * blocksize + 18) 2

def commit_boundary : ℕ := getLE m (bi * blocksize + 20) 2

def complete_boundary : ℕ := getLE m (bi * blocksize + 22) 2

def flags : ℕ := getLE m (bi * blocksize + 24) 2

def nref : ℕ := getLE m (bi * blocksize + 26) 2

/-- The place of `ref[r]`; it lies behind the block if there are too many. -/
def refAt (bi r : ℕ) : ℕ := bi * blocksize + 28 + 12 * r

def bn (r : ℕ) : ℕ := getLE m (refAt bi r) 4

def bchecksum (r : ℕ) : ℕ := getLE m (refAt bi r + 4) 4

def bflags (r : ℕ) : ℕ := getLE m (refAt bi r + 8) 2

def journaled (r : ℕ) : Bool := bflags m bi r &&& jbf_nonjournaled = 0

def escaped (r : ℕ) : Bool := bflags m bi r &&& jbf_escaped ≠ 0

def overwritten (r : ℕ) : Bool := bflags m bi r &&& jbf_overwritten ≠ 0

end

/-- The `n` bytes from `a` on. -/
def bytes (m : Mem) (a n : ℕ) : List UInt8 := (List.range n).map fun i => m (a + i)

/-- `jmb->flags |= jf_error` -/
def setError (m : Mem) (bi : ℕ) : Mem := putLE m (bi * blocksize + 24) 2 (flags m bi ||| jf_error)

/-- `ref.bflags |= jbf_overwritten` -/
def setOverwritten (m : Mem) (bi r : ℕ) : Mem := putLE m (refAt bi r + 8) 2 (bflags m bi r ||| jbf_overwritten)

/-! ## Transaction ids -/

/-- `uint16_t(x - y)` -/
def tiddiff (x y : ℕ) : ℕ := (x + (2 ^ 16 - y)) % 2 ^ 16

def tid_lt (x y : ℕ) : Bool := 2 ^ 15 ≤ tiddiff x y

def tid_ge (x y : ℕ) : Bool := tiddiff x y < 2 ^ 15

def tid_gt (x y : ℕ) : Bool := 0 < tiddiff x y ∧ tiddiff x y < 2 ^ 15

/-! ## The blocks -/

/-- `jd_`, `mr_` as the indices of its blocks, and `ok_`. -/
structure Replayer where
  jd : Mem
  mr : List ℕ
  ok : Bool

section

variable (crc32c : List UInt8 → ℕ) (nb : ℕ)

/-- `is_potential_metablock(jd)` -/
def is_potential_metablock (m : Mem) (bi : ℕ) : Bool :=
  magic m bi = journalmagic ∧
    (checksum m bi = nochecksum ∨ checksum m bi = crc32c (bytes m (bi * blocksize + 16) (blocksize - 16)))

/-- The data block at the distance `delta` from a metablock. -/
def dataBlock (bi delta : ℕ) : ℕ := (bi + delta) % 2 ^ 32 % nb

/-- What the loop over the references of a block changes. -/
structure Refs where
  jd : Mem
  ok : Bool
  delta : ℕ

/-- `analyze_block_reference(jmb, ref, bi, delta)` -/
def analyze_block_reference (bi r : ℕ) (s : Refs) : Refs :=
  if journaled s.jd bi r = true then
    let ok := if nb ≤ s.delta then false else s.ok
    let dbi := dataBlock nb bi s.delta
    let jd :=
      if is_potential_metablock crc32c s.jd dbi = true then setError s.jd bi
      else if bchecksum s.jd bi r ≠ nochecksum ∧
          bchecksum s.jd bi r ≠ crc32c (bytes s.jd (dbi * blocksize) blocksize) then setError s.jd bi
      else s.jd
    ⟨jd, ok, s.delta + 1⟩
  else s

/-- The references from `r` on, `n` of them. -/
def refLoop (bi : ℕ) : ℕ → ℕ → Refs → Refs
  | 0, _, s => s
  | n + 1, r, s => refLoop bi n (r + 1) (analyze_block_reference crc32c nb bi r s)

/-- The checks of the flags and of the number of references. -/
def checkFlags (m : Mem) (bi : ℕ) : Mem :=
  let m := if flags m bi &&& (jf_error ||| jf_corrupt) ≠ 0 then setError m bi else m
  let m := if flags m bi &&& jf_meta = 0 then setError m bi else m
  if ref_size < nref m bi then setError m bi else m

/-- The place of a metablock in `mr_`; the difference of two sequence numbers is an `int`. -/
def insert (m : Mem) (bi : ℕ) : List ℕ → List ℕ
  | [] => [bi]
  | x :: mr => if (0 : ℤ) ≤ (seq m bi : ℤ) - seq m x then x :: insert m bi mr else bi :: x :: mr

/-- `analyze_block(bi)` -/
def analyze_block (s : Replayer) (bi : ℕ) : Replayer :=
  if is_potential_metablock crc32c s.jd bi = true then
    let jd := checkFlags s.jd bi
    let refs := refLoop crc32c nb bi (nref jd bi) 0 ⟨jd, s.ok, 1⟩
    let mr := if flags refs.jd bi &&& jf_error = 0 then insert refs.jd bi s.mr else s.mr
    ⟨refs.jd, mr, refs.ok⟩
  else s

/-- The first loop of `analyze`. -/
def scan (jd : Mem) : Replayer := (List.range nb).foldl (analyze_block crc32c nb) ⟨jd, [], true⟩

end

/-! ## The checks of `analyze` -/

/-- The invariants of a metablock and of the one before it. -/
def checkMeta (m : Mem) (last : Option ℕ) (cur : ℕ) : Bool :=
  (∀ x ∈ last, seq m cur ≠ seq m x ∧ tid_lt (commit_boundary m cur) (commit_boundary m x) = false ∧
      tid_lt (complete_boundary m cur) (complete_boundary m x) = false) ∧
    tid_gt (complete_boundary m cur) (commit_boundary m cur) = false ∧
    (nref m cur ≠ 0 → ∀ x ∈ last, tid_lt (tid m cur) (commit_boundary m x) = false) ∧
    (nref m cur ≠ 0 → tid_lt (tid m cur) (complete_boundary m cur) = false) ∧
    (flags m cur &&& jf_complete ≠ 0 → tid_ge (tid m cur) (complete_boundary m cur) = false) ∧
    (flags m cur &&& jf_commit ≠ 0 → tid_ge (tid m cur) (commit_boundary m cur) = false)

def checkLoop (m : Mem) : Option ℕ → List ℕ → Bool
  | _, [] => true
  | last, cur :: mr => checkMeta m last cur && checkLoop m (some cur) mr

/-- The loop of `analyze_tid`; `last` is the metablock before, `fl` the flags found so far. -/
def tidLoop (m : Mem) (t : ℕ) : ℕ → ℕ → Bool → List ℕ → ℕ × Bool
  | _, fl, ok, [] => (fl, ok)
  | last, fl, ok, bi :: mr =>
    let ok := if fl ≠ 0 ∧ seq m bi ≠ (seq m last + 1) % 2 ^ 16 ∧ fl &&& jf_commit = 0 then false else ok
    if tid m bi = t then
      let tid_flags := flags m bi
      let tid_flags := if tid_gt (commit_boundary m bi) t = true then tid_flags ||| jf_commit else tid_flags
      let tid_flags := if tid_gt (complete_boundary m bi) t = true then tid_flags ||| jf_complete else tid_flags
      let ok := if decide (tid_flags &&& jf_start ≠ 0) ≠ decide (fl = 0) then false else ok
      let ok := if fl &&& jf_commit ≠ 0 ∧ nref m bi ≠ 0 then false else ok
      let ok := if fl &&& jf_complete ≠ 0 then false else ok
      let ok := if tid_flags &&& jf_complete ≠ 0 then false else ok
      tidLoop m t bi (fl ||| tid_flags) ok mr
    else tidLoop m t bi fl ok mr

/-- `analyze_tid(tid)`: no error is found. -/
def analyze_tid (m : Mem) (mr : List ℕ) (t : ℕ) : Bool :=
  let r := tidLoop m t 0 0 true mr
  r.2 && decide (r.1 &&& jf_commit ≠ 0)

/-! ## Marking -/

/-- The loop of `mark_overwritten_block` over the first `r` references of a metablock. -/
def markRefs (b bi : ℕ) : ℕ → Mem → Mem
  | 0, m => m
  | r + 1, m => markRefs b bi r (if bn m bi r = b then setOverwritten m bi r else m)

/-- The metablocks that `mark_overwritten_block` comes to after the first, which are the earlier ones. -/
def markRest (b : ℕ) : List ℕ → Mem → Mem
  | [], m => m
  | bi :: rmr, m => markRest b rmr (markRefs b bi (nref m bi) m)

/-- `mark_overwritten_block(bn, mx, refx)`, where `bi :: rmr` are the first `mx` metablocks backwards. -/
def mark_overwritten_block (b bi : ℕ) (rmr : List ℕ) (refx : ℕ) (m : Mem) : Mem :=
  markRest b rmr (markRefs b bi (min refx (nref m bi)) m)

/-- `analyze_overwritten_blocks(mx)` for the references below `refx`. -/
def overwriteLoop (bi : ℕ) (rmr : List ℕ) : ℕ → Mem → Mem
  | 0, m => m
  | r + 1, m =>
    overwriteLoop bi rmr r
      (if overwritten m bi r = false then mark_overwritten_block (bn m bi r) bi rmr r m else m)

/-- The transactions in `[complete, commit)`. -/
def inRegion (complete commit t : ℕ) : Bool := tid_ge t complete && tid_lt t commit

/-- The last loop of `analyze`, over the metablocks backwards. -/
def overwriteAll (complete commit : ℕ) : List ℕ → Mem → Mem
  | [], m => m
  | bi :: rmr, m =>
    overwriteAll complete commit rmr
      (if inRegion complete commit (tid m bi) = true then overwriteLoop bi rmr (nref m bi) m else m)

/-- `analyze(jd, nblocks)` -/
def analyze (crc32c : List UInt8 → ℕ) (nb : ℕ) (jd : Mem) : Bool × Replayer :=
  let s := scan crc32c nb jd
  if s.ok = false ∨ s.mr = [] ∨ checkLoop s.jd none s.mr = false then (false, s)
  else
    let last := s.mr.getLastD 0
    let complete := complete_boundary s.jd last
    let commit := commit_boundary s.jd last
    let ok := (List.range (tiddiff commit complete)).all fun i => analyze_tid s.jd s.mr ((complete + i) % 2 ^ 16)
    (ok, { s with jd := overwriteAll complete commit s.mr.reverse s.jd, ok := ok })

/-! ## `run` -/

/-- A call of `write_block`. -/
structure Write where
  tid : ℕ
  bn : ℕ
  buf : List UInt8
  deriving DecidableEq

/-- The references of a metablock from `r` on, `n` of them. -/
def runRefs (nb bi : ℕ) : ℕ → ℕ → ℕ → Mem → List Write × Mem
  | 0, _, _, m => ([], m)
  | n + 1, r, delta, m =>
    let next := if journaled m bi r = true then delta + 1 else delta
    if overwritten m bi r = false ∧ journaled m bi r = true then
      let djd := dataBlock nb bi delta * blocksize
      let m' := if escaped m bi r = true then putLE m djd 8 journalmagic else m
      let rest := runRefs nb bi n (r + 1) next m'
      (⟨tid m' bi, bn m' bi r, bytes m' djd blocksize⟩ :: rest.1, rest.2)
    else runRefs nb bi n (r + 1) next m

def runAll (nb complete commit : ℕ) : List ℕ → Mem → List Write × Mem
  | [], m => ([], m)
  | bi :: mr, m =>
    if inRegion complete commit (tid m bi) = true then
      let head := runRefs nb bi (nref m bi) 0 1 m
      let rest := runAll nb complete commit mr head.2
      (head.1 ++ rest.1, rest.2)
    else runAll nb complete commit mr m

/-- `run()`: the blocks that it writes, and the journal after it. -/
def run (nb : ℕ) (s : Replayer) : List Write × Replayer :=
  let last := s.mr.getLastD 0
  let r := runAll nb (complete_boundary s.jd last) (commit_boundary s.jd last) s.mr s.jd
  (r.1, { s with jd := r.2 })

end Chickadee.Journal
