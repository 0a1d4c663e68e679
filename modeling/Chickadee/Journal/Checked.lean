import Chickadee.Journal.Mark
import Chickadee.Journal.Shift

/-!
# The accesses of `analyze` and `run`

The same functions once more, with the test that every access stays in the block that it is meant for and every
index below `nmr_`: they give `none` where one does not. The loop over the references of a block ends at `nref`
also where `nref` has been found to be too large, so that it leaves the block then.
-/

namespace Chickadee.Journal

namespace Checked

/-- An access to `n` bytes from the offset `o` of a block on: the journal has the block, and the block the bytes. -/
def access (nb bi o n : ℕ) : Option Unit := if bi < nb ∧ o + n ≤ blocksize then some () else none

section

variable (crc32c : List UInt8 → ℕ) (nb : ℕ)

/-- `is_potential_metablock(jd)` -/
def is_potential_metablock (m : Mem) (bi : ℕ) : Option Bool := do
  access nb bi 0 8
  if magic m bi ≠ journalmagic then some false
  else do
    access nb bi 8 4
    if checksum m bi = nochecksum then some true
    else do
      access nb bi 16 (blocksize - 16)
      some (checksum m bi = crc32c (bytes m (bi * blocksize + 16) (blocksize - 16)))

/-- `analyze_block_reference(jmb, ref, bi, delta)` -/
def analyze_block_reference (bi r : ℕ) (s : Refs) : Option Refs := do
  access nb bi (28 + 12 * r + 8) 2
  access nb bi (28 + 12 * r + 4) 4
  if journaled s.jd bi r = true then do
    let ok := if nb ≤ s.delta then false else s.ok
    let dbi := dataBlock nb bi s.delta
    let potential ← is_potential_metablock crc32c nb s.jd dbi
    if potential = true then do
      access nb bi 24 2
      some ⟨setError s.jd bi, ok, s.delta + 1⟩
    else if bchecksum s.jd bi r = nochecksum then some ⟨s.jd, ok, s.delta + 1⟩
    else do
      access nb dbi 0 blocksize
      if bchecksum s.jd bi r = crc32c (bytes s.jd (dbi * blocksize) blocksize) then
        some ⟨s.jd, ok, s.delta + 1⟩
      else do
        access nb bi 24 2
        some ⟨setError s.jd bi, ok, s.delta + 1⟩
  else some s

/-- The references from `r` on, `n` of them. -/
def refLoop (bi : ℕ) : ℕ → ℕ → Refs → Option Refs
  | 0, _, s => some s
  | n + 1, r, s => do
    let s ← analyze_block_reference crc32c nb bi r s
    refLoop bi n (r + 1) s

/-- The loop that looks for the place of a metablock in `mr_`, with `n` entries from `x` on. -/
def findPlace (m : Mem) (bi : ℕ) (mr : List ℕ) : ℕ → ℕ → Option ℕ
  | 0, x => some x
  | n + 1, x => do
    let y ← mr[x]?
    access nb y 16 2
    if (0 : ℤ) ≤ (seq m bi : ℤ) - seq m y then findPlace m bi mr n (x + 1) else some x

/-- The entries from there on are moved by one: `mr_` has `nb` of them. -/
def insert (m : Mem) (bi : ℕ) (mr : List ℕ) : Option (List ℕ) := do
  access nb bi 16 2
  let x ← findPlace nb m bi mr mr.length 0
  if mr.length < nb then some (mr.take x ++ bi :: mr.drop x) else none

/-- `analyze_block(bi)` -/
def analyze_block (s : Replayer) (bi : ℕ) : Option Replayer := do
  let potential ← is_potential_metablock crc32c nb s.jd bi
  if potential = true then do
    access nb bi 16 12
    let jd := checkFlags s.jd bi
    let refs ← refLoop crc32c nb bi (nref jd bi) 0 ⟨jd, s.ok, 1⟩
    access nb bi 24 2
    if flags refs.jd bi &&& jf_error = 0 then do
      let mr ← insert nb refs.jd bi s.mr
      some ⟨refs.jd, mr, refs.ok⟩
    else some ⟨refs.jd, s.mr, refs.ok⟩
  else do
    access nb bi 0 12
    some s

/-- The first loop of `analyze`, over the first `n` blocks. -/
def scanTo (jd : Mem) : ℕ → Option Replayer
  | 0 => some ⟨jd, [], true⟩
  | n + 1 => do
    let s ← scanTo jd n
    analyze_block crc32c nb s n

/-- The checks of `mr_[mi]`, and of `mr_[mi - 1]` if there is one. -/
def checkMeta (m : Mem) (mr : List ℕ) (mi : ℕ) : Option Bool := do
  let cur ← mr[mi]?
  access nb cur 16 12
  if mi = 0 then some (Journal.checkMeta m none cur)
  else do
    let last ← mr[mi - 1]?
    access nb last 16 12
    some (Journal.checkMeta m (some last) cur)

def checkLoop (m : Mem) (mr : List ℕ) : ℕ → ℕ → Bool → Option Bool
  | 0, _, ok => some ok
  | n + 1, mi, ok => do
    let good ← checkMeta nb m mr mi
    checkLoop m mr n (mi + 1) (ok && good)

/-- The metablock before `mr_[mi]`, which is looked at once some flags have been found. -/
def lastMeta (mr : List ℕ) (mi fl : ℕ) : Option ℕ :=
  if fl = 0 then some 0
  else if mi = 0 then none
  else do
    let last ← mr[mi - 1]?
    access nb last 16 2
    some last

/-- The loop of `analyze_tid`, with `n` entries from `mi` on. -/
def tidLoop (m : Mem) (t : ℕ) (mr : List ℕ) : ℕ → ℕ → ℕ → Bool → Option (ℕ × Bool)
  | 0, _, fl, ok => some (fl, ok)
  | n + 1, mi, fl, ok => do
    let bi ← mr[mi]?
    access nb bi 16 12
    let last ← lastMeta nb mr mi fl
    let r := Journal.tidLoop m t last fl ok [bi]
    tidLoop m t mr n (mi + 1) r.1 r.2

/-- `analyze_tid(tid)` -/
def analyze_tid (m : Mem) (mr : List ℕ) (t : ℕ) : Option Bool := do
  let r ← tidLoop nb m t mr mr.length 0 0 true
  some (r.2 && decide (r.1 &&& jf_commit ≠ 0))

/-- The loop over the transactions from `t` on: `none` also if it has not ended after `n` tests. -/
def tidsLoop (m : Mem) (mr : List ℕ) (commit : ℕ) : ℕ → ℕ → Bool → Option Bool
  | 0, _, _ => none
  | n + 1, t, ok =>
    if t = commit then some ok
    else do
      let good ← analyze_tid nb m mr t
      tidsLoop m mr commit n ((t + 1) % 2 ^ 16) (ok && good)

/-- The loop of `mark_overwritten_block` over the first `r` references of a metablock. -/
def markRefs (b bi : ℕ) : ℕ → Mem → Option Mem
  | 0, m => some m
  | r + 1, m => do
    access nb bi (28 + 12 * r) 4
    if bn m bi r = b then do
      access nb bi (28 + 12 * r + 8) 2
      markRefs b bi r (setOverwritten m bi r)
    else markRefs b bi r m

/-- The metablocks before `mr_[mx]`. -/
def markRest (b : ℕ) (mr : List ℕ) : ℕ → Mem → Option Mem
  | 0, m => some m
  | mx + 1, m => do
    let bi ← mr[mx]?
    access nb bi 26 2
    let m ← markRefs nb b bi (nref m bi) m
    markRest b mr mx m

/-- `mark_overwritten_block(bn, mx, refx)` -/
def mark_overwritten_block (b : ℕ) (mr : List ℕ) (refx : ℕ) : ℕ → Mem → Option Mem
  | 0, m => some m
  | mx + 1, m => do
    let bi ← mr[mx]?
    access nb bi 26 2
    let m ← markRefs nb b bi (min refx (nref m bi)) m
    markRest nb b mr mx m

/-- `analyze_overwritten_blocks(mx)` for the references below `refx` of the metablock. -/
def overwriteLoop (bi : ℕ) (mr : List ℕ) (mx : ℕ) : ℕ → Mem → Option Mem
  | 0, m => some m
  | r + 1, m => do
    access nb bi (28 + 12 * r + 8) 2
    if overwritten m bi r = false then do
      access nb bi (28 + 12 * r) 4
      let m ← mark_overwritten_block nb (bn m bi r) mr r mx m
      overwriteLoop bi mr mx r m
    else overwriteLoop bi mr mx r m

/-- The last loop of `analyze`, from `mr_[mx - 1]` down. -/
def overwriteAll (complete commit : ℕ) (mr : List ℕ) : ℕ → Mem → Option Mem
  | 0, m => some m
  | mx + 1, m => do
    let bi ← mr[mx]?
    access nb bi 16 12
    if inRegion complete commit (tid m bi) = true then do
      let m ← overwriteLoop nb bi mr (mx + 1) (nref m bi) m
      overwriteAll complete commit mr mx m
    else overwriteAll complete commit mr mx m

/-- `analyze(jd, nblocks)` -/
def analyze (jd : Mem) : Option (Bool × Replayer) := do
  let s ← scanTo crc32c nb jd nb
  if s.ok = false ∨ s.mr = [] then some (false, s)
  else do
    let good ← checkLoop nb s.jd s.mr s.mr.length 0 true
    if good = false then some (false, s)
    else do
      let last ← s.mr[s.mr.length - 1]?
      access nb last 20 4
      let complete := complete_boundary s.jd last
      let commit := commit_boundary s.jd last
      let ok ← tidsLoop nb s.jd s.mr commit (2 ^ 16) complete true
      let m ← overwriteAll nb complete commit s.mr s.mr.length s.jd
      some (ok, { s with jd := m, ok := ok })

/-- The references of a metablock from `r` on, `n` of them: `write_block` reads the whole data block. -/
def runRefs (bi : ℕ) : ℕ → ℕ → ℕ → Mem → Option (List Write × Mem)
  | 0, _, _, m => some ([], m)
  | n + 1, r, delta, m => do
    access nb bi (28 + 12 * r + 8) 2
    let next := if journaled m bi r = true then delta + 1 else delta
    if overwritten m bi r = false ∧ journaled m bi r = true then do
      let dbi := dataBlock nb bi delta
      access nb dbi 0 blocksize
      access nb bi 18 2
      access nb bi (28 + 12 * r) 4
      let m' := if escaped m bi r = true then Lib.putLE m (dbi * blocksize) 8 journalmagic else m
      let rest ← runRefs bi n (r + 1) next m'
      some (⟨tid m' bi, bn m' bi r, bytes m' (dbi * blocksize) blocksize⟩ :: rest.1, rest.2)
    else runRefs bi n (r + 1) next m

/-- The metablocks of `mr_` from `mi` on, `n` of them. -/
def runAll (complete commit : ℕ) (mr : List ℕ) : ℕ → ℕ → Mem → Option (List Write × Mem)
  | 0, _, m => some ([], m)
  | n + 1, mi, m => do
    let bi ← mr[mi]?
    access nb bi 16 12
    if inRegion complete commit (tid m bi) = true then do
      let head ← runRefs nb bi (nref m bi) 0 1 m
      let rest ← runAll complete commit mr n (mi + 1) head.2
      some (head.1 ++ rest.1, rest.2)
    else runAll complete commit mr n (mi + 1) m

/-- `run()` -/
def run (s : Replayer) : Option (List Write × Replayer) := do
  let last ← s.mr[s.mr.length - 1]?
  access nb last 20 4
  let r ← runAll nb (complete_boundary s.jd last) (commit_boundary s.jd last) s.mr s.mr.length 0 s.jd
  some (r.1, { s with jd := r.2 })

end

/-! ## Where there is nothing to find fault with -/

variable {crc32c : List UInt8 → ℕ} {nb bi r o n : ℕ} {m : Mem} {mr : List ℕ} {α : Type}

theorem bind_access (hbi : bi < nb) (ho : o + n ≤ blocksize) {f : Unit → Option α} :
    (access nb bi o n >>= f) = f () := by
  unfold access
  rw [if_pos ⟨hbi, ho⟩]
  rfl

theorem bind_access_none (ho : blocksize < o + n) {f : Unit → Option α} : (access nb bi o n >>= f) = none := by
  unfold access
  rw [if_neg fun h => absurd h.2 (not_le.mpr ho)]
  rfl

theorem bind_some {β : Type} {a : α} {f : α → Option β} : (some a >>= f) = f a := rfl

theorem ref_in (hr : r < ref_size) : 28 + 12 * r + 12 ≤ blocksize := by
  rw [ref_size_eq] at hr
  rw [blocksize_eq]
  omega

theorem dataBlock_lt (hbi : bi < nb) (delta : ℕ) : dataBlock nb bi delta < nb := Nat.mod_lt _ (by omega)

theorem potential_eq (hbi : bi < nb) : is_potential_metablock crc32c nb m bi =
    some (Journal.is_potential_metablock crc32c m bi) := by
  unfold is_potential_metablock Journal.is_potential_metablock
  rw [bind_access hbi (by decide)]
  by_cases hmagic : magic m bi = journalmagic
  · rw [if_neg (not_not.mpr hmagic), bind_access hbi (by decide)]
    by_cases hno : checksum m bi = nochecksum
    · rw [if_pos hno]
      simp [hmagic, hno]
    · rw [if_neg hno, bind_access hbi (by decide)]
      simp [hmagic, hno]
  · rw [if_pos hmagic]
    simp [hmagic]

/-- A reference that the block has. -/
theorem reference_eq (hbi : bi < nb) (hr : r < ref_size) (s : Refs) :
    analyze_block_reference crc32c nb bi r s = some (Journal.analyze_block_reference crc32c nb bi r s) := by
  have hin := ref_in hr
  have hdbi := dataBlock_lt hbi s.delta
  unfold analyze_block_reference Journal.analyze_block_reference
  rw [bind_access hbi (by omega), bind_access hbi (by omega)]
  by_cases hj : journaled s.jd bi r = true
  · rw [if_pos hj, if_pos hj]
    dsimp only
    generalize (if nb ≤ s.delta then false else s.ok) = ok
    rw [potential_eq hdbi, bind_some]
    by_cases hpot : Journal.is_potential_metablock crc32c s.jd (dataBlock nb bi s.delta) = true
    · rw [if_pos hpot, if_pos hpot, bind_access hbi (by decide)]
    · rw [if_neg hpot, if_neg hpot]
      by_cases hno : bchecksum s.jd bi r = nochecksum
      · rw [if_pos hno, if_neg fun h => h.1 hno]
      · rw [if_neg hno, bind_access hdbi (by decide)]
        by_cases hsum : bchecksum s.jd bi r = crc32c (bytes s.jd (dataBlock nb bi s.delta * blocksize) blocksize)
        · rw [if_pos hsum, if_neg fun h => h.2 hsum]
        · rw [if_neg hsum, if_pos ⟨hno, hsum⟩, bind_access hbi (by decide)]
  · rw [if_neg hj, if_neg hj]

theorem refLoop_eq (hbi : bi < nb) (s : Refs) (h : r + n ≤ ref_size) :
    refLoop crc32c nb bi n r s = some (Journal.refLoop crc32c nb bi n r s) := by
  induction n generalizing r s with
  | zero => rfl
  | succ n ih =>
    rw [refLoop, Journal.refLoop, reference_eq hbi (by omega), bind_some]
    exact ih _ (by omega)

/-- **The first reference that the block does not have is looked at**, whatever has been found out about `nref`. -/
theorem refLoop_none (s : Refs) (hr : r ≤ ref_size) (h : ref_size < r + n) :
    refLoop crc32c nb bi n r s = none := by
  induction n generalizing r s with
  | zero => omega
  | succ n ih =>
    rw [refLoop]
    rcases Nat.eq_or_lt_of_le hr with rfl | hlt
    · unfold analyze_block_reference
      rw [bind_access_none (by decide)]
      rfl
    · cases analyze_block_reference crc32c nb bi r s with
      | none => rfl
      | some s' => exact ih s' hlt (by omega)

/-- The place of a metablock behind those in `pre`. -/
theorem findPlace_eq (m : Mem) (bi : ℕ) (pre : List ℕ) (hmr : ∀ y ∈ mr, y < nb) :
    ∃ x, findPlace nb m bi (pre ++ mr) mr.length pre.length = some x ∧
      (pre ++ mr).take x ++ bi :: (pre ++ mr).drop x = pre ++ Journal.insert m bi mr := by
  induction mr generalizing pre with
  | nil => exact ⟨pre.length, rfl, by simp [Journal.insert]⟩
  | cons y mr ih =>
    have hy : (pre ++ y :: mr)[pre.length]? = some y := by simp
    rw [List.length_cons, findPlace, hy, bind_some, bind_access (hmr y List.mem_cons_self) (by decide),
      Journal.insert]
    by_cases hle : (0 : ℤ) ≤ (seq m bi : ℤ) - seq m y
    · obtain ⟨x, hx, hins⟩ := ih (pre ++ [y]) fun z hz => hmr z (List.mem_cons_of_mem _ hz)
      rw [if_pos hle, if_pos hle]
      refine ⟨x, ?_, ?_⟩
      · simpa using hx
      · simpa using hins
    · rw [if_neg hle, if_neg hle]
      exact ⟨pre.length, rfl, by simp⟩

theorem insert_eq (hbi : bi < nb) (hmr : ∀ y ∈ mr, y < nb) (hlen : mr.length < nb) :
    insert nb m bi mr = some (Journal.insert m bi mr) := by
  obtain ⟨x, hx, hins⟩ := findPlace_eq m bi [] hmr
  simp only [List.nil_append, List.length_nil] at hx hins
  unfold insert
  rw [bind_access hbi (by decide), hx, bind_some, if_pos hlen, hins]

/-! ## The scan -/

variable {jd : Mem} {b : ℕ} {s : Replayer}

theorem length_le_of_found (h : Found crc32c nb jd b s) : s.mr.length ≤ b := by
  have hsub : s.mr.Subperm (List.range b) :=
    h.nodup.subperm fun bi hbi => List.mem_range.mpr (h.lt bi hbi)
  calc s.mr.length ≤ (List.range b).length := hsub.length_le
    _ = b := List.length_range

theorem nref_checkFlags (h : Found crc32c nb jd b s) : nref (checkFlags s.jd b) b = nref jd b := by
  rw [(touched_checkFlags s.jd b).nref]
  exact (h.sameBlock (.inr (.inl le_rfl))).nref

/-- **A block with few references.** -/
theorem analyze_block_eq (h : Found crc32c nb jd b s) (hb : b < nb)
    (hnref : Journal.is_potential_metablock crc32c jd b = true → nref jd b ≤ ref_size) :
    analyze_block crc32c nb s b = some (Journal.analyze_block crc32c nb s b) := by
  have hsame : SameBlock b jd s.jd := h.sameBlock (.inr (.inl le_rfl))
  unfold analyze_block Journal.analyze_block
  rw [potential_eq hb, bind_some, hsame.potential]
  by_cases hpot : Journal.is_potential_metablock crc32c jd b = true
  · have hle : 0 + nref (checkFlags s.jd b) b ≤ ref_size := by
      rw [Nat.zero_add, nref_checkFlags h]
      exact hnref hpot
    rw [if_pos hpot, if_pos hpot, bind_access hb (by decide)]
    dsimp only
    rw [refLoop_eq hb _ hle, bind_some, bind_access hb (by decide)]
    split
    · have hlen := length_le_of_found h
      rw [insert_eq hb (fun y hy => (h.lt y hy).trans hb) (by omega), bind_some]
    · rfl
  · rw [if_neg hpot, if_neg hpot, bind_access hb (by decide)]

theorem analyze_block_none (h : Found crc32c nb jd b s) (hb : b < nb)
    (hpot : Journal.is_potential_metablock crc32c jd b = true) (hnref : ref_size < nref jd b) :
    analyze_block crc32c nb s b = none := by
  have hsame : SameBlock b jd s.jd := h.sameBlock (.inr (.inl le_rfl))
  have hmany : ref_size < 0 + nref (checkFlags s.jd b) b := by
    rw [Nat.zero_add, nref_checkFlags h]
    exact hnref
  unfold analyze_block
  rw [potential_eq hb, bind_some, hsame.potential, if_pos hpot, bind_access hb (by decide)]
  dsimp only
  rw [refLoop_none _ (Nat.zero_le _) hmany]
  rfl

/-- No metablock among the first `n` blocks claims more references than there is room for. -/
def Few (crc32c : List UInt8 → ℕ) (jd : Mem) (n : ℕ) : Prop :=
  ∀ bi < n, Journal.is_potential_metablock crc32c jd bi = true → nref jd bi ≤ ref_size

theorem scanTo_checked (hn : n ≤ nb) (h : Few crc32c jd n) :
    scanTo crc32c nb jd n = some (Journal.scanTo crc32c nb jd n) := by
  induction n with
  | zero => rfl
  | succ n ih =>
    rw [scanTo, Journal.scanTo, ih (by omega) fun bi hbi => h bi (by omega), bind_some]
    exact analyze_block_eq (scanTo_found crc32c nb jd n) (by omega) (h n (by omega))

theorem scanTo_none (hn : n ≤ nb) (h : ¬Few crc32c jd n) : scanTo crc32c nb jd n = none := by
  induction n with
  | zero => exact absurd (fun bi hbi => absurd hbi (Nat.not_lt_zero bi)) h
  | succ n ih =>
    rw [scanTo]
    by_cases hbefore : Few crc32c jd n
    · -- the blocks before have few references, so it is this one
      have hlast : Journal.is_potential_metablock crc32c jd n = true ∧ ref_size < nref jd n := by
        by_contra hno
        refine h fun bi hbi hpot => ?_
        rcases Nat.lt_succ_iff_lt_or_eq.mp hbi with hlt | rfl
        · exact hbefore bi hlt hpot
        · exact not_lt.mp fun hlt => hno ⟨hpot, hlt⟩
      rw [scanTo_checked (by omega) hbefore, bind_some]
      exact analyze_block_none (scanTo_found crc32c nb jd n) (by omega) hlast.1 hlast.2
    · rw [ih (by omega) hbefore]
      rfl

/-! ## The checks -/

/-- The metablock before `mr_[mi]`. -/
def before (mr : List ℕ) (mi : ℕ) : Option ℕ := if mi = 0 then none else mr[mi - 1]?

theorem before_succ (mr : List ℕ) (mi : ℕ) : before mr (mi + 1) = mr[mi]? := by
  unfold before
  rw [if_neg (Nat.succ_ne_zero mi), Nat.add_sub_cancel]

variable {mi mx t fl last : ℕ} {ok : Bool}

theorem checkMeta_eq (hmr : ∀ y ∈ mr, y < nb) (h : mi < mr.length) :
    checkMeta nb m mr mi = some (Journal.checkMeta m (before mr mi) mr[mi]) := by
  unfold checkMeta before
  rw [List.getElem?_eq_getElem h, bind_some, bind_access (hmr _ (List.getElem_mem h)) (by decide)]
  by_cases hzero : mi = 0
  · rw [if_pos hzero, if_pos hzero]
  · have hlast : mi - 1 < mr.length := by omega
    rw [if_neg hzero, if_neg hzero, List.getElem?_eq_getElem hlast, bind_some,
      bind_access (hmr _ (List.getElem_mem hlast)) (by decide)]

theorem checkLoop_eq (hmr : ∀ y ∈ mr, y < nb) (h : mi + n = mr.length) :
    checkLoop nb m mr n mi ok = some (ok && Journal.checkLoop m (before mr mi) (mr.drop mi)) := by
  induction n generalizing mi ok with
  | zero =>
    rw [checkLoop, List.drop_of_length_le (by omega), Journal.checkLoop, Bool.and_true]
  | succ n ih =>
    have hlt : mi < mr.length := by omega
    rw [checkLoop, checkMeta_eq hmr hlt, bind_some, ih (by omega), before_succ, List.getElem?_eq_getElem hlt,
      List.drop_eq_getElem_cons hlt, Journal.checkLoop, Bool.and_assoc]

/-- One metablock, and then the others. -/
theorem tidLoop_cons (m : Mem) (t last fl : ℕ) (ok : Bool) (bi : ℕ) (mr : List ℕ) :
    Journal.tidLoop m t last fl ok (bi :: mr) =
      Journal.tidLoop m t bi (Journal.tidLoop m t last fl ok [bi]).1 (Journal.tidLoop m t last fl ok [bi]).2 mr := by
  simp only [Journal.tidLoop]
  split
  · rfl
  · rfl

/-- The metablock before is looked at only where flags have been found. -/
theorem lastMeta_eq (m : Mem) (t : ℕ) (ok : Bool) (bi : ℕ) (hmr : ∀ y ∈ mr, y < nb)
    (h : fl ≠ 0 → before mr mi = some last) :
    ∃ last', lastMeta nb mr mi fl = some last' ∧
      Journal.tidLoop m t last' fl ok [bi] = Journal.tidLoop m t last fl ok [bi] := by
  unfold lastMeta
  by_cases hfl : fl = 0
  · refine ⟨0, if_pos hfl, ?_⟩
    simp [Journal.tidLoop, hfl]
  · have hlast := h hfl
    unfold before at hlast
    by_cases hzero : mi = 0
    · rw [if_pos hzero] at hlast
      cases hlast
    · rw [if_neg hzero] at hlast
      refine ⟨last, ?_, rfl⟩
      rw [if_neg hfl, if_neg hzero, hlast, bind_some, bind_access (hmr last (List.mem_of_getElem? hlast)) (by decide)]

theorem tidLoop_eq (hmr : ∀ y ∈ mr, y < nb) (h : mi + n = mr.length) (hlast : fl ≠ 0 → before mr mi = some last) :
    tidLoop nb m t mr n mi fl ok = some (Journal.tidLoop m t last fl ok (mr.drop mi)) := by
  induction n generalizing mi fl ok last with
  | zero => rw [tidLoop, List.drop_of_length_le (by omega), Journal.tidLoop]
  | succ n ih =>
    have hlt : mi < mr.length := by omega
    obtain ⟨last', hmeta, hstep⟩ := lastMeta_eq m t ok mr[mi] hmr hlast
    rw [tidLoop, List.getElem?_eq_getElem hlt, bind_some, bind_access (hmr _ (List.getElem_mem hlt)) (by decide),
      hmeta, bind_some, List.drop_eq_getElem_cons hlt, tidLoop_cons m t last, ← hstep]
    refine ih (by omega) fun _ => ?_
    rw [before_succ, List.getElem?_eq_getElem hlt]

theorem analyze_tid_eq (hmr : ∀ y ∈ mr, y < nb) (t : ℕ) :
    analyze_tid nb m mr t = some (Journal.analyze_tid m mr t) := by
  have hloop : tidLoop nb m t mr mr.length 0 0 true = some (Journal.tidLoop m t 0 0 true mr) :=
    tidLoop_eq hmr (Nat.zero_add _) fun h => absurd rfl h
  unfold analyze_tid Journal.analyze_tid
  rw [hloop, bind_some]

/-- **The loop over the transactions ends**: `tid` comes to the commit boundary, past `2 ^ 16` if need be. -/
theorem tidsLoop_eq (hmr : ∀ y ∈ mr, y < nb) {commit : ℕ} (hcommit : commit < 2 ^ 16) (ht : t < 2 ^ 16)
    (hn : tiddiff commit t < n) : tidsLoop nb m mr commit n t ok =
      some (ok && (List.range (tiddiff commit t)).all fun i => Journal.analyze_tid m mr ((t + i) % 2 ^ 16)) := by
  induction n generalizing t ok with
  | zero => omega
  | succ n ih =>
    rw [tidsLoop]
    by_cases heq : t = commit
    · have hzero : tiddiff commit t = 0 := by
        unfold tiddiff
        omega
      rw [if_pos heq, hzero, List.range_zero, List.all_nil, Bool.and_true]
    · have hnext : tiddiff commit t = tiddiff commit ((t + 1) % 2 ^ 16) + 1 := by
        unfold tiddiff
        omega
      rw [if_neg heq, analyze_tid_eq hmr, bind_some, ih (Nat.mod_lt _ (by decide)) (by omega), hnext,
        List.range_succ_eq_map, List.all_cons, List.all_map, Bool.and_assoc, show (t + 0) % 2 ^ 16 = t by omega]
      have hrest : ∀ i, ((t + 1) % 2 ^ 16 + i) % 2 ^ 16 = (t + i.succ) % 2 ^ 16 := by
        intro i
        rw [Nat.mod_add_mod, Nat.succ_eq_add_one, Nat.add_assoc, Nat.add_comm 1 i]
      simp only [hrest]
      rfl

/-! ## The marks -/

/-- What the scan says of `mr_`. -/
def Sound (nb : ℕ) (m : Mem) (mr : List ℕ) : Prop := ∀ bi ∈ mr, bi < nb ∧ nref m bi ≤ ref_size

theorem Sound.marked {m' : Mem} (h : Sound nb m mr) (hmark : Marked mr m m') : Sound nb m' mr := by
  intro bi hbi
  rw [hmark.nref]
  exact h bi hbi

theorem markRefs_eq (hbi : bi < nb) (hr : r ≤ ref_size) (b : ℕ) (m : Mem) :
    markRefs nb b bi r m = some (Journal.markRefs b bi r m) := by
  induction r generalizing m with
  | zero => rfl
  | succ r ih =>
    have hin := ref_in (show r < ref_size by omega)
    rw [markRefs, Journal.markRefs, bind_access hbi (by omega)]
    split
    · rw [bind_access hbi (by omega)]
      exact ih (by omega) _
    · exact ih (by omega) m

theorem reverse_take_succ (h : mr[mx]? = some bi) : (mr.take (mx + 1)).reverse = bi :: (mr.take mx).reverse := by
  rw [List.take_add_one, h, Option.toList_some, List.reverse_append]
  rfl

theorem markRest_eq (h : Sound nb m mr) (hmx : mx ≤ mr.length) (b : ℕ) :
    markRest nb b mr mx m = some (Journal.markRest b (mr.take mx).reverse m) := by
  induction mx generalizing m with
  | zero => rfl
  | succ mx ih =>
    have hget : mr[mx]? = some mr[mx] := List.getElem?_eq_getElem (by omega)
    have hmem := List.mem_of_getElem? hget
    obtain ⟨hlt, hnref⟩ := h _ hmem
    rw [markRest, hget, bind_some, bind_access hlt (by decide), markRefs_eq hlt hnref, bind_some,
      reverse_take_succ hget, Journal.markRest]
    exact ih (h.marked (markRefs_spec hmem hnref m).1) (by omega)

/-- `mark_overwritten_block`, and that nothing but marks is changed. -/
theorem mark_eq (h : Sound nb m mr) (hget : mr[mx]? = some bi) (b : ℕ) (hr : r ≤ ref_size) :
    mark_overwritten_block nb b mr r (mx + 1) m =
        some (Journal.mark_overwritten_block b bi (mr.take mx).reverse r m) ∧
      Marked mr m (Journal.mark_overwritten_block b bi (mr.take mx).reverse r m) := by
  have hmem := List.mem_of_getElem? hget
  have hmx : mx < mr.length := (List.getElem?_eq_some_iff.mp hget).1
  obtain ⟨hlt, hnref⟩ := h bi hmem
  have hfew : min r (nref m bi) ≤ ref_size := (min_le_left _ _).trans hr
  have hhead := (markRefs_spec (b := b) hmem hfew m).1
  have hsound := h.marked hhead
  have hsub : ∀ y ∈ (mr.take mx).reverse, y ∈ mr := fun y hy => List.mem_of_mem_take (List.mem_reverse.mp hy)
  have htail := (markRest_spec (b := b) hsub _ fun y hy => (hsound y hy).2).1
  refine ⟨?_, hhead.trans htail⟩
  rw [mark_overwritten_block, hget, bind_some, bind_access hlt (by decide), markRefs_eq hlt hfew, bind_some,
    markRest_eq hsound hmx.le]
  rfl

theorem overwriteLoop_eq (h : Sound nb m mr) (hget : mr[mx]? = some bi) (hr : r ≤ ref_size) :
    overwriteLoop nb bi mr (mx + 1) r m = some (Journal.overwriteLoop bi (mr.take mx).reverse r m) ∧
      Marked mr m (Journal.overwriteLoop bi (mr.take mx).reverse r m) := by
  induction r generalizing m with
  | zero => exact ⟨rfl, .refl mr m⟩
  | succ r ih =>
    obtain ⟨hlt, -⟩ := h bi (List.mem_of_getElem? hget)
    have hin := ref_in (show r < ref_size by omega)
    rw [overwriteLoop, Journal.overwriteLoop, bind_access hlt (by omega)]
    by_cases hover : overwritten m bi r = false
    · obtain ⟨hmark, hmarked⟩ := mark_eq h hget (bn m bi r) (show r ≤ ref_size by omega)
      obtain ⟨hloop, hrest⟩ := ih (h.marked hmarked) (by omega)
      rw [if_pos hover, if_pos hover, bind_access hlt (by omega), hmark, bind_some, hloop]
      exact ⟨rfl, hmarked.trans hrest⟩
    · rw [if_neg hover, if_neg hover]
      exact ih h (by omega)

theorem overwriteAll_eq (h : Sound nb m mr) (hmx : mx ≤ mr.length) (complete commit : ℕ) :
    overwriteAll nb complete commit mr mx m =
      some (Journal.overwriteAll complete commit (mr.take mx).reverse m) := by
  induction mx generalizing m with
  | zero => rfl
  | succ mx ih =>
    have hget : mr[mx]? = some mr[mx] := List.getElem?_eq_getElem (by omega)
    obtain ⟨hlt, hnref⟩ := h _ (List.mem_of_getElem? hget)
    rw [overwriteAll, hget, bind_some, bind_access hlt (by decide), reverse_take_succ hget, Journal.overwriteAll]
    by_cases hregion : inRegion complete commit (tid m mr[mx]) = true
    · obtain ⟨hloop, hmarked⟩ := overwriteLoop_eq h hget hnref
      rw [if_pos hregion, if_pos hregion, hloop, bind_some]
      exact ih (h.marked hmarked) (by omega)
    · rw [if_neg hregion, if_neg hregion]
      exact ih h (by omega)

/-! ## `analyze` -/

theorem sound_of_found (h : Found crc32c nb jd nb s) : Sound nb s.jd s.mr := by
  intro bi hbi
  refine ⟨h.lt bi hbi, ?_⟩
  rw [(h.sameBlock (.inl hbi)).nref]
  exact h.nref_le bi hbi

theorem getElem?_last (hne : mr ≠ []) : mr[mr.length - 1]? = some (mr.getLastD 0) := by
  rw [← List.getLast?_eq_getElem?, List.getLast?_eq_some_getLast hne, List.getLastD_eq_getLast?,
    List.getLast?_eq_some_getLast hne]
  rfl

theorem analyze_eq (h : Few crc32c jd nb) : analyze crc32c nb jd = some (Journal.analyze crc32c nb jd) := by
  have hfound := scan_found crc32c nb jd
  unfold analyze Journal.analyze
  rw [scanTo_checked le_rfl h, scanTo_nb, bind_some]
  dsimp only
  generalize scan crc32c nb jd = s at hfound ⊢
  have hsound := sound_of_found hfound
  have hmr : ∀ y ∈ s.mr, y < nb := fun y hy => (hsound y hy).1
  have hcheck : checkLoop nb s.jd s.mr s.mr.length 0 true = some (Journal.checkLoop s.jd none s.mr) :=
    checkLoop_eq hmr (Nat.zero_add _)
  by_cases hno : s.ok = false ∨ s.mr = []
  · rw [if_pos hno, if_pos (hno.imp_right .inl)]
  · have hne : s.mr ≠ [] := fun hnil => hno (.inr hnil)
    have hlast := getElem?_last hne
    rw [if_neg hno, hcheck, bind_some]
    by_cases hgood : Journal.checkLoop s.jd none s.mr = false
    · rw [if_pos hgood, if_pos (.inr (.inr hgood))]
    · have hall : ¬(s.ok = false ∨ s.mr = [] ∨ Journal.checkLoop s.jd none s.mr = false) := by
        rintro (h | h | h)
        · exact hno (.inl h)
        · exact hne h
        · exact hgood h
      rw [if_neg hgood, if_neg hall, hlast, bind_some,
        bind_access (hmr _ (List.mem_of_getElem? hlast)) (by decide), tidsLoop_eq hmr, bind_some,
        overwriteAll_eq hsound le_rfl, bind_some, List.take_length, Bool.true_and]
      · exact Lib.getLE_lt _ _ _
      · exact Lib.getLE_lt _ _ _
      · exact Nat.mod_lt _ (by decide)

theorem analyze_none (h : ¬Few crc32c jd nb) : analyze crc32c nb jd = none := by
  unfold analyze
  rw [scanTo_none le_rfl h]
  rfl

/-! ## `run` -/

theorem runRefs_eq (hbi : bi < nb) (h : r + n ≤ ref_size) (delta : ℕ) (m : Mem) :
    runRefs nb bi n r delta m = some (Journal.runRefs nb bi n r delta m) := by
  induction n generalizing r delta m with
  | zero => rfl
  | succ n ih =>
    have hin := ref_in (show r < ref_size by omega)
    rw [runRefs, Journal.runRefs, bind_access hbi (by omega)]
    dsimp only
    split
    · rw [bind_access (dataBlock_lt hbi delta) (by decide), bind_access hbi (by decide), bind_access hbi (by omega),
        ih (by omega), bind_some]
    · exact ih (by omega) _ m

/-- The magic number is put where no count is. -/
theorem nref_runRefs (x : ℕ) (delta : ℕ) (m : Mem) : nref (Journal.runRefs nb bi n r delta m).2 x = nref m x := by
  induction n generalizing r delta m with
  | zero => rfl
  | succ n ih =>
    rw [Journal.runRefs]
    dsimp only
    split
    · dsimp only
      rw [ih]
      split
      · refine Lib.getLE_putLE_of_disjoint ?_
        simp only [blocksize]
        omega
      · rfl
    · exact ih _ m

theorem runAll_eq (h : Sound nb m mr) (hn : mi + n = mr.length) (complete commit : ℕ) :
    runAll nb complete commit mr n mi m = some (Journal.runAll nb complete commit (mr.drop mi) m) := by
  induction n generalizing mi m with
  | zero => rw [runAll, List.drop_of_length_le (by omega), Journal.runAll]
  | succ n ih =>
    have hlt : mi < mr.length := by omega
    obtain ⟨hbi, hnref⟩ := h _ (List.getElem_mem hlt)
    have hrest : Sound nb (Journal.runRefs nb mr[mi] (nref m mr[mi]) 0 1 m).2 mr := by
      intro bi hbi
      rw [nref_runRefs]
      exact h bi hbi
    rw [runAll, List.getElem?_eq_getElem hlt, bind_some, bind_access hbi (by decide), List.drop_eq_getElem_cons hlt,
      Journal.runAll]
    split
    · rw [runRefs_eq hbi (by omega), bind_some, ih hrest (by omega), bind_some]
    · exact ih h (by omega)

theorem run_eq (h : Sound nb s.jd s.mr) (hne : s.mr ≠ []) : run nb s = some (Journal.run nb s) := by
  have hlast := getElem?_last hne
  unfold run Journal.run
  rw [hlast, bind_some, bind_access (h _ (List.mem_of_getElem? hlast)).1 (by decide),
    runAll_eq h (Nat.zero_add _), bind_some]
  rfl

/-- What `run` starts with where `analyze` has accepted the journal. -/
theorem sound_of_analyze (h : (Journal.analyze crc32c nb jd).1 = true) :
    Sound nb (Journal.analyze crc32c nb jd).2.jd (Journal.analyze crc32c nb jd).2.mr ∧
      (Journal.analyze crc32c nb jd).2.mr ≠ [] := by
  have hfound := scan_found crc32c nb jd
  unfold Journal.analyze at h ⊢
  dsimp only at h ⊢
  generalize scan crc32c nb jd = s at hfound h ⊢
  have hsound := sound_of_found hfound
  split at h
  · cases h
  · next hno =>
    rw [if_neg hno]
    have hmarked := (overwriteAll_spec (complete_boundary s.jd (s.mr.getLastD 0))
      (commit_boundary s.jd (s.mr.getLastD 0)) fun y hy => (hsound y hy).2).1
    exact ⟨hsound.marked hmarked, fun hnil => hno (.inr (.inl hnil))⟩

end Checked

/--
Every access of `analyze`, and of `run` if the journal is accepted, is to the block that it is meant for and to an
entry of `mr_` that is set, and both come to an end.
-/
def StaysInside (crc32c : List UInt8 → ℕ) (nb : ℕ) (jd : Mem) : Prop :=
  ∃ r, Checked.analyze crc32c nb jd = some r ∧ (r.1 = true → ∃ q, Checked.run nb r.2 = some q)

/-- **Where there are no wrong accesses, the result is that of `analyze` and `run`.** -/
theorem checked_eq {crc32c : List UInt8 → ℕ} {nb : ℕ} {jd : Mem} (h : Checked.Few crc32c jd nb) :
    Checked.analyze crc32c nb jd = some (analyze crc32c nb jd) ∧
      ((analyze crc32c nb jd).1 = true →
        Checked.run nb (analyze crc32c nb jd).2 = some (run nb (analyze crc32c nb jd).2)) := by
  refine ⟨Checked.analyze_eq h, fun haccepted => ?_⟩
  obtain ⟨hsound, hne⟩ := Checked.sound_of_analyze haccepted
  exact Checked.run_eq hsound hne

/-- **`analyze` and `run` stay inside the journal** if no metablock claims more references than it has room for. -/
theorem staysInside_iff (crc32c : List UInt8 → ℕ) (nb : ℕ) (jd : Mem) :
    StaysInside crc32c nb jd ↔
      ∀ bi < nb, is_potential_metablock crc32c jd bi = true → nref jd bi ≤ ref_size := by
  constructor
  · rintro ⟨r, hr, -⟩
    by_contra hmany
    rw [Checked.analyze_none hmany] at hr
    cases hr
  · intro hfew
    obtain ⟨hanalyze, hrun⟩ := checked_eq hfew
    exact ⟨_, hanalyze, fun haccepted => ⟨_, hrun haccepted⟩⟩

/-- A journal of one block, which claims 340 references and has no checksum. -/
def overlong : Mem :=
  Lib.putLE (Lib.putLE (Lib.putLE (fun _ => 0) 0 8 journalmagic) 8 4 nochecksum) 26 2 340

/-- **The reference behind the block is looked at.** -/
theorem staysInside_fails : ¬StaysInside (fun _ => 0) 1 overlong := by
  have hpot : is_potential_metablock (fun _ => 0) overlong 0 = true := by decide +kernel
  have hnref : nref overlong 0 = 340 := by decide +kernel
  rintro ⟨r, hr, -⟩
  have hmany : ¬Checked.Few (fun _ => 0) overlong 1 := by
    intro hfew
    have hle := hfew 0 Nat.one_pos hpot
    rw [hnref, ref_size_eq] at hle
    omega
  rw [Checked.analyze_none hmany] at hr
  cases hr

end Chickadee.Journal
