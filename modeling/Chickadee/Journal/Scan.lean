import Chickadee.Journal.Replay

/-!
# The metablocks that `analyze` finds

A block is changed only by its own analysis, and only in its error flag, which keeps it out of `mr_`. So the
metablocks in `mr_` are as they were stored, and no data block of one of them is a metablock in `mr_`: when
the reference was looked at, the block did not look like one.
-/

namespace Chickadee.Journal

open Lib

variable {crc32c : List UInt8 → ℕ} {nb : ℕ} {jd m m' m'' : Mem} {x b : ℕ}

theorem ref_size_eq : ref_size = 339 := rfl

theorem blocksize_eq : blocksize = 4096 := rfl

/-! ## Blocks with the same bytes -/

/-- The block `x` has the same bytes in both. -/
def SameBlock (x : ℕ) (m m' : Mem) : Prop := ∀ o < blocksize, m' (x * blocksize + o) = m (x * blocksize + o)

namespace SameBlock

theorem symm (h : SameBlock x m m') : SameBlock x m' m := fun o ho => (h o ho).symm

theorem trans (h : SameBlock x m m') (h' : SameBlock x m' m'') : SameBlock x m m'' :=
  fun o ho => (h' o ho).trans (h o ho)

theorem getLE (h : SameBlock x m m') {o w : ℕ} (ho : o + w ≤ blocksize) :
    Lib.getLE m' (x * blocksize + o) w = Lib.getLE m (x * blocksize + o) w := by
  refine getLE_congr fun a ha ha' => ?_
  obtain ⟨i, rfl⟩ := Nat.exists_eq_add_of_le ha
  rw [Nat.add_assoc]
  exact h (o + i) (by omega)

theorem bytes (h : SameBlock x m m') {o n : ℕ} (ho : o + n ≤ blocksize) :
    bytes m' (x * blocksize + o) n = bytes m (x * blocksize + o) n := by
  refine List.map_congr_left fun i hi => ?_
  have hlt := List.mem_range.mp hi
  rw [Nat.add_assoc]
  exact h (o + i) (by omega)

theorem magic (h : SameBlock x m m') : magic m' x = magic m x := by
  have hlow := h.getLE (o := 0) (w := 8) (by decide)
  rwa [Nat.add_zero] at hlow

theorem checksum (h : SameBlock x m m') : checksum m' x = checksum m x := h.getLE (by decide)

theorem seq (h : SameBlock x m m') : seq m' x = seq m x := h.getLE (by decide)

theorem tid (h : SameBlock x m m') : tid m' x = tid m x := h.getLE (by decide)

theorem commit_boundary (h : SameBlock x m m') : commit_boundary m' x = commit_boundary m x :=
  h.getLE (by decide)

theorem complete_boundary (h : SameBlock x m m') : complete_boundary m' x = complete_boundary m x :=
  h.getLE (by decide)

theorem flags (h : SameBlock x m m') : flags m' x = flags m x := h.getLE (by decide)

theorem nref (h : SameBlock x m m') : nref m' x = nref m x := h.getLE (by decide)

theorem bn (h : SameBlock x m m') {r : ℕ} (hr : r < ref_size) : bn m' x r = bn m x r := by
  have hsize := ref_size_eq
  have hblock := blocksize_eq
  unfold Journal.bn refAt
  rw [Nat.add_assoc]
  exact h.getLE (by omega)

theorem bflags (h : SameBlock x m m') {r : ℕ} (hr : r < ref_size) : bflags m' x r = bflags m x r := by
  have hsize := ref_size_eq
  have hblock := blocksize_eq
  unfold Journal.bflags refAt
  rw [Nat.add_assoc, Nat.add_assoc]
  exact h.getLE (by omega)

theorem journaled (h : SameBlock x m m') {r : ℕ} (hr : r < ref_size) : journaled m' x r = journaled m x r := by
  unfold Journal.journaled
  rw [h.bflags hr]

theorem potential (h : SameBlock x m m') :
    is_potential_metablock crc32c m' x = is_potential_metablock crc32c m x := by
  unfold is_potential_metablock
  rw [h.magic, h.checksum, h.bytes (by decide)]

end SameBlock

/-! ## The error flag -/

/-- Only the flags of block `b` differ, and then the error flag is set. -/
structure Touched (b : ℕ) (m m' : Mem) : Prop where
  same : ∀ a, a ≠ b * blocksize + 24 → a ≠ b * blocksize + 25 → m' a = m a
  error : m' = m ∨ flags m' b &&& jf_error ≠ 0

theorem Touched.refl (b : ℕ) (m : Mem) : Touched b m m := ⟨fun _ _ _ => rfl, .inl rfl⟩

theorem Touched.trans (h : Touched b m m') (h' : Touched b m' m'') : Touched b m m'' := by
  refine ⟨fun a h24 h25 => (h'.same a h24 h25).trans (h.same a h24 h25), ?_⟩
  rcases h'.error with rfl | herror
  · exact h.error
  · exact .inr herror

/-- The error flag stays. -/
theorem Touched.sticky (h : Touched b m m') (herror : flags m b &&& jf_error ≠ 0) :
    flags m' b &&& jf_error ≠ 0 := by
  rcases h.error with rfl | h
  · exact herror
  · exact h

theorem Touched.eq (h : Touched b m m') (hno : flags m' b &&& jf_error = 0) : m' = m :=
  h.error.resolve_right fun herror => herror hno

theorem Touched.sameBlock (h : Touched b m m') (hx : x ≠ b) : SameBlock x m m' := by
  intro o ho
  simp only [blocksize] at ho
  refine h.same _ ?_ ?_
  · simp only [blocksize]
    omega
  · simp only [blocksize]
    omega

theorem flags_setError (m : Mem) (b : ℕ) : flags (setError m b) b &&& jf_error ≠ 0 := by
  have hlt : flags m b ||| jf_error < 2 ^ 16 := Nat.or_lt_two_pow (getLE_lt _ _ _) (by decide)
  have hset : flags (setError m b) b = flags m b ||| jf_error := by
    unfold setError
    rw [flags, getLE_putLE]
    exact Nat.mod_eq_of_lt hlt
  have hbit : (flags m b ||| jf_error).testBit 1 = true := by
    rw [Nat.testBit_or, show jf_error.testBit 1 = true by decide, Bool.or_true]
  rw [hset]
  intro hzero
  have hand : ((flags m b ||| jf_error) &&& jf_error).testBit 1 = true := by
    rw [Nat.testBit_and, hbit]
    decide
  rw [hzero] at hand
  cases hand

theorem touched_setError (m : Mem) (b : ℕ) : Touched b m (setError m b) := by
  refine ⟨fun a h24 h25 => ?_, .inr (flags_setError m b)⟩
  unfold setError
  exact putLE_of_not_mem (by omega)

theorem touched_ite (c : Prop) [Decidable c] (m : Mem) (b : ℕ) : Touched b m (if c then setError m b else m) := by
  split
  · exact touched_setError m b
  · exact .refl b m

theorem touched_checkFlags (m : Mem) (b : ℕ) : Touched b m (checkFlags m b) :=
  ((touched_ite _ m b).trans (touched_ite _ _ b)).trans (touched_ite _ _ b)

/-- A block that passes the checks has few references. -/
theorem nref_le_of_checkFlags (h : flags (checkFlags m b) b &&& jf_error = 0) : nref m b ≤ ref_size := by
  have heq := (touched_checkFlags m b).eq h
  by_contra hlt
  refine absurd h ?_
  unfold checkFlags at heq ⊢
  dsimp only at heq ⊢
  split_ifs at heq ⊢ with h₁ h₂ h₃ h₃ h₂ h₃ h₃
  all_goals first
    | exact flags_setError _ b
    | exact absurd (not_le.mp hlt) (by assumption)

/-! ## The references of a block -/

/-- The distance of the data of reference `r`: references that are not journaled have none. -/
def delta (m : Mem) (bi : ℕ) : ℕ → ℕ
  | 0 => 1
  | r + 1 => if journaled m bi r = true then delta m bi r + 1 else delta m bi r

theorem touched_reference (bi r : ℕ) (s : Refs) :
    Touched bi s.jd (analyze_block_reference crc32c nb bi r s).jd := by
  unfold analyze_block_reference
  split
  · dsimp only
    split
    · exact touched_setError _ _
    · exact touched_ite _ _ _
  · exact .refl _ _

/-- What a reference that is accepted says. -/
theorem reference_ok {bi r : ℕ} {s : Refs} (hdelta : s.delta = delta s.jd bi r)
    (hno : flags (analyze_block_reference crc32c nb bi r s).jd bi &&& jf_error = 0) :
    (analyze_block_reference crc32c nb bi r s).delta = delta s.jd bi (r + 1) ∧
      (journaled s.jd bi r = true →
        is_potential_metablock crc32c s.jd (dataBlock nb bi (delta s.jd bi r)) = false ∧
        ((analyze_block_reference crc32c nb bi r s).ok = true → delta s.jd bi r < nb)) := by
  unfold analyze_block_reference at hno ⊢
  rw [delta]
  by_cases hj : journaled s.jd bi r = true
  · rw [if_pos hj] at hno ⊢
    rw [if_pos hj]
    dsimp only at hno ⊢
    refine ⟨by rw [hdelta], fun _ => ⟨?_, fun hok => ?_⟩⟩
    · by_contra hpot
      rw [← hdelta, Bool.not_eq_false] at hpot
      rw [if_pos hpot] at hno
      exact flags_setError _ _ hno
    · rw [← hdelta]
      by_contra hle
      rw [if_pos (not_lt.mp hle)] at hok
      cases hok
  · rw [if_neg hj] at hno ⊢
    rw [if_neg hj]
    exact ⟨hdelta, fun h => absurd h hj⟩

theorem touched_refLoop (bi n r : ℕ) (s : Refs) : Touched bi s.jd (refLoop crc32c nb bi n r s).jd := by
  induction n generalizing r s with
  | zero => exact .refl _ _
  | succ n ih => exact (touched_reference bi r s).trans (ih _ _)

theorem reference_mono (bi r : ℕ) (s : Refs) :
    (analyze_block_reference crc32c nb bi r s).ok = true → s.ok = true := by
  unfold analyze_block_reference
  split
  · dsimp only
    split
    · intro h
      cases h
    · exact id
  · exact id

/-- `ok_` is never set again. -/
theorem refLoop_mono (bi n r : ℕ) (s : Refs) : (refLoop crc32c nb bi n r s).ok = true → s.ok = true := by
  induction n generalizing r s with
  | zero => exact id
  | succ n ih => exact fun h => reference_mono bi r s (ih _ _ h)

/-- **A block that is accepted is unchanged, and its data blocks do not look like metablocks.** -/
theorem refLoop_ok {bi n r : ℕ} {s : Refs} (hdelta : s.delta = delta s.jd bi r)
    (hno : flags (refLoop crc32c nb bi n r s).jd bi &&& jf_error = 0) :
    ∀ q, r ≤ q → q < r + n → journaled s.jd bi q = true →
      is_potential_metablock crc32c s.jd (dataBlock nb bi (delta s.jd bi q)) = false ∧
      ((refLoop crc32c nb bi n r s).ok = true → delta s.jd bi q < nb) := by
  induction n generalizing r s with
  | zero => exact fun q hle hlt => by omega
  | succ n ih =>
    rw [refLoop] at hno ⊢
    set s₁ := analyze_block_reference crc32c nb bi r s with hs₁
    -- the error flag would have stayed
    have hno₁ : flags s₁.jd bi &&& jf_error = 0 := by
      by_contra herror
      exact (touched_refLoop bi n (r + 1) s₁).sticky herror hno
    have hjd : s₁.jd = s.jd := (touched_reference bi r s).eq hno₁
    obtain ⟨hdelta₁, hfirst⟩ := reference_ok hdelta hno₁
    have hrest := ih (r := r + 1) (s := s₁) (by rw [hjd]; exact hdelta₁) hno
    rw [hjd] at hrest
    intro q hle hlt hj
    rcases Nat.eq_or_lt_of_le hle with rfl | hlt'
    · obtain ⟨hpot, hlt'⟩ := hfirst hj
      exact ⟨hpot, fun h => hlt' (refLoop_mono _ _ _ _ h)⟩
    · exact hrest q hlt' (by omega) hj

/-! ## The list of metablocks -/

theorem mem_insert {bi : ℕ} {mr : List ℕ} : x ∈ insert m bi mr ↔ x = bi ∨ x ∈ mr := by
  induction mr with
  | nil => exact List.mem_cons
  | cons y mr ih =>
    rw [insert]
    split
    · rw [List.mem_cons, ih, List.mem_cons]
      tauto
    · exact List.mem_cons

theorem insert_nodup {bi : ℕ} {mr : List ℕ} (h : mr.Nodup) (hbi : bi ∉ mr) : (insert m bi mr).Nodup := by
  induction mr with
  | nil => exact List.nodup_singleton bi
  | cons y mr ih =>
    obtain ⟨hy, h⟩ := List.nodup_cons.mp h
    rw [insert]
    split
    · refine List.nodup_cons.mpr ⟨fun hmem => ?_, ih h fun hmem => hbi (List.mem_cons_of_mem _ hmem)⟩
      rcases mem_insert.mp hmem with rfl | hmem
      · exact hbi List.mem_cons_self
      · exact hy hmem
    · exact List.nodup_cons.mpr ⟨hbi, List.nodup_cons.mpr ⟨hy, h⟩⟩

/-- The list is in the order of the sequence numbers as numbers. -/
theorem insert_sorted (bi : ℕ) {mr : List ℕ} (h : mr.Pairwise fun x y => seq m x ≤ seq m y) :
    (insert m bi mr).Pairwise fun x y => seq m x ≤ seq m y := by
  induction mr with
  | nil => exact List.pairwise_singleton _ _
  | cons y mr ih =>
    obtain ⟨hy, h⟩ := List.pairwise_cons.mp h
    rw [insert]
    split
    · next hle =>
      refine List.pairwise_cons.mpr ⟨fun z hz => ?_, ih h⟩
      rcases mem_insert.mp hz with rfl | hz
      · omega
      · exact hy z hz
    · next hlt =>
      refine List.pairwise_cons.mpr ⟨fun z hz => ?_, List.pairwise_cons.mpr ⟨hy, h⟩⟩
      rcases List.mem_cons.mp hz with rfl | hz
      · omega
      · have hyz := hy z hz
        omega

/-- What the analysis of the first `b` blocks has found. -/
structure Found (crc32c : List UInt8 → ℕ) (nb : ℕ) (jd : Mem) (b : ℕ) (s : Replayer) : Prop where
  lt : ∀ bi ∈ s.mr, bi < b
  nodup : s.mr.Nodup
  sorted : s.mr.Pairwise fun x y => seq jd x ≤ seq jd y
  /-- Only erroneous metablocks are changed. -/
  same : ∀ a, s.jd a = jd a ∨ ∃ bi < b, bi ∉ s.mr ∧ is_potential_metablock crc32c jd bi = true ∧
    (a = bi * blocksize + 24 ∨ a = bi * blocksize + 25)
  potential : ∀ bi ∈ s.mr, is_potential_metablock crc32c jd bi = true
  nref_le : ∀ bi ∈ s.mr, nref jd bi ≤ ref_size
  delta_lt : s.ok = true → ∀ bi ∈ s.mr, ∀ r < nref jd bi, journaled jd bi r = true → delta jd bi r < nb
  data : ∀ bi ∈ s.mr, ∀ r < nref jd bi, journaled jd bi r = true →
    dataBlock nb bi (delta jd bi r) ∉ s.mr ∧
      (b ≤ dataBlock nb bi (delta jd bi r) →
        is_potential_metablock crc32c jd (dataBlock nb bi (delta jd bi r)) = false)

theorem delta_congr {bi r : ℕ} (h : ∀ q < r, journaled m' bi q = journaled m bi q) :
    delta m' bi r = delta m bi r := by
  induction r with
  | zero => rfl
  | succ r ih => rw [delta, delta, ih fun q hq => h q (Nat.lt_succ_of_lt hq), h r (Nat.lt_succ_self r)]

namespace Found

variable {s : Replayer}

/-- A block that is in `mr_`, or that comes later, is as it was stored. -/
theorem sameBlock (h : Found crc32c nb jd b s) (hx : x ∈ s.mr ∨ b ≤ x ∨ is_potential_metablock crc32c jd x = false) :
    SameBlock x jd s.jd := by
  intro o ho
  rcases h.same (x * blocksize + o) with heq | ⟨bi, hbi, hnot, hpot, ha⟩
  · exact heq
  · have hxb : x = bi := by
      simp only [blocksize] at ho ha
      omega
    subst hxb
    rcases hx with hx | hx | hx
    · exact absurd hx hnot
    · omega
    · rw [hpot] at hx
      cases hx

/-- The next block, if it is not taken into `mr_`. -/
theorem skip (h : Found crc32c nb jd b s) {m : Mem} {ok : Bool} (hok : ok = true → s.ok = true)
    (htouched : Touched b s.jd m) (hpot : m = s.jd ∨ is_potential_metablock crc32c jd b = true) :
    Found crc32c nb jd (b + 1) ⟨m, s.mr, ok⟩ := by
  have hb : b ∉ s.mr := fun hmem => Nat.lt_irrefl b (h.lt b hmem)
  refine ⟨fun bi hbi => Nat.lt_succ_of_lt (h.lt bi hbi), h.nodup, h.sorted, fun a => ?_, h.potential, h.nref_le,
    fun hok' => h.delta_lt (hok hok'), fun bi hbi r hr hj => ?_⟩
  · by_cases ha : m a = s.jd a
    · dsimp only
      rw [ha]
      refine (h.same a).imp_right ?_
      rintro ⟨bi, hbi, hrest⟩
      exact ⟨bi, Nat.lt_succ_of_lt hbi, hrest⟩
    · have hpot' := hpot.resolve_left fun heq => ha (by rw [heq])
      refine .inr ⟨b, Nat.lt_succ_self b, hb, hpot', ?_⟩
      by_contra hno
      exact ha (htouched.same a (fun h24 => hno (.inl h24)) fun h25 => hno (.inr h25))
  · obtain ⟨hnot, hlater⟩ := h.data bi hbi r hr hj
    exact ⟨hnot, fun hle => hlater (by omega)⟩

/-- The next block, if it is taken. -/
theorem take (h : Found crc32c nb jd b s) {ok : Bool} (hok : ok = true → s.ok = true)
    (hpot : is_potential_metablock crc32c jd b = true) (hnref : nref jd b ≤ ref_size)
    (hdata : ∀ r < nref jd b, journaled jd b r = true →
      is_potential_metablock crc32c s.jd (dataBlock nb b (delta jd b r)) = false ∧ (ok = true → delta jd b r < nb)) :
    Found crc32c nb jd (b + 1) ⟨s.jd, insert s.jd b s.mr, ok⟩ := by
  have hb : b ∉ s.mr := fun hmem => Nat.lt_irrefl b (h.lt b hmem)
  have hsame : ∀ y, y ∈ s.mr ∨ y = b → SameBlock y jd s.jd := by
    intro y hy
    refine h.sameBlock ?_
    rcases hy with hy | rfl
    · exact .inl hy
    · exact .inr (.inl le_rfl)
  refine ⟨fun bi hbi => ?_, insert_nodup h.nodup hb, ?_, fun a => ?_, fun bi hbi => ?_, fun bi hbi => ?_,
    fun hok' bi hbi r hr hj => ?_, fun bi hbi r hr hj => ?_⟩
  · rcases mem_insert.mp hbi with rfl | hbi
    · exact Nat.lt_succ_self _
    · exact Nat.lt_succ_of_lt (h.lt bi hbi)
  · -- the sequence numbers are those of the journal
    have hsorted : s.mr.Pairwise fun x y => seq s.jd x ≤ seq s.jd y := by
      refine h.sorted.imp_of_mem fun {y z} hy hz hle => ?_
      rwa [(hsame y (.inl hy)).seq, (hsame z (.inl hz)).seq]
    refine (insert_sorted b hsorted).imp_of_mem fun {y z} hy hz hle => ?_
    rwa [← (hsame y (mem_insert.mp hy).symm).seq, ← (hsame z (mem_insert.mp hz).symm).seq]
  · refine (h.same a).imp_right ?_
    rintro ⟨bi, hbi, hnot, hrest⟩
    refine ⟨bi, Nat.lt_succ_of_lt hbi, fun hmem => ?_, hrest⟩
    rcases mem_insert.mp hmem with rfl | hmem
    · omega
    · exact hnot hmem
  · rcases mem_insert.mp hbi with rfl | hbi
    · exact hpot
    · exact h.potential bi hbi
  · rcases mem_insert.mp hbi with rfl | hbi
    · exact hnref
    · exact h.nref_le bi hbi
  · rcases mem_insert.mp hbi with rfl | hbi
    · exact (hdata r hr hj).2 hok'
    · exact h.delta_lt (hok hok') bi hbi r hr hj
  · rcases mem_insert.mp hbi with rfl | hbi
    · obtain ⟨hno, -⟩ := hdata r hr hj
      have hfar : ∀ y, y ∈ s.mr ∨ bi ≤ y → dataBlock nb bi (delta jd bi r) = y →
          is_potential_metablock crc32c jd y = false := by
        rintro y hy rfl
        rwa [← (h.sameBlock (hy.imp_right .inl)).potential]
      refine ⟨fun hmem => ?_, fun hle => hfar _ (.inr (by omega)) rfl⟩
      rcases mem_insert.mp hmem with heq | hmem
      · have := hfar bi (.inr le_rfl) heq
        rw [hpot] at this
        cases this
      · have := hfar _ (.inl hmem) rfl
        rw [h.potential _ hmem] at this
        cases this
    · obtain ⟨hnot, hlater⟩ := h.data bi hbi r hr hj
      refine ⟨fun hmem => ?_, fun hle => hlater (by omega)⟩
      rcases mem_insert.mp hmem with heq | hmem
      · have := hlater heq.ge
        rw [heq, hpot] at this
        cases this
      · exact hnot hmem

/-- **One more block.** -/
theorem step (h : Found crc32c nb jd b s) : Found crc32c nb jd (b + 1) (analyze_block crc32c nb s b) := by
  have hsame : SameBlock b jd s.jd := h.sameBlock (.inr (.inl le_rfl))
  unfold analyze_block
  split
  · next hpot =>
    rw [hsame.potential] at hpot
    dsimp only
    set m₁ := checkFlags s.jd b with hm₁
    set refs := refLoop crc32c nb b (nref m₁ b) 0 ⟨m₁, s.ok, 1⟩ with hrefs
    have hflags : Touched b s.jd m₁ := touched_checkFlags s.jd b
    have hloop : Touched b m₁ refs.jd := touched_refLoop b (nref m₁ b) 0 ⟨m₁, s.ok, 1⟩
    have hokmono : refs.ok = true → s.ok = true := refLoop_mono b (nref m₁ b) 0 ⟨m₁, s.ok, 1⟩
    by_cases hno : flags refs.jd b &&& jf_error = 0
    · rw [if_pos hno]
      have hno₁ : flags m₁ b &&& jf_error = 0 := by
        by_contra herror
        exact hloop.sticky herror hno
      have heq₁ : m₁ = s.jd := hflags.eq hno₁
      have heq : refs.jd = s.jd := (hloop.eq hno).trans heq₁
      have hnref : nref s.jd b ≤ ref_size := nref_le_of_checkFlags hno₁
      have hdata := refLoop_ok (s := ⟨m₁, s.ok, 1⟩) rfl hno
      dsimp only at hdata
      rw [heq₁] at hdata
      rw [heq]
      rw [hsame.nref] at hnref hdata
      refine h.take hokmono hpot hnref fun r hr hj => ?_
      have hlt : r < ref_size := by omega
      have hdr := hdata r (Nat.zero_le r) (by omega) (by rw [hsame.journaled hlt]; exact hj)
      rw [delta_congr fun q hq => hsame.journaled (hq.trans hlt)] at hdr
      rw [hrefs, heq₁, hsame.nref]
      exact hdr
    · rw [if_neg hno]
      exact h.skip hokmono (hflags.trans hloop) (.inr hpot)
  · exact h.skip id (.refl b s.jd) (.inl rfl)

end Found

theorem found_nil (crc32c : List UInt8 → ℕ) (nb : ℕ) (jd : Mem) : Found crc32c nb jd 0 ⟨jd, [], true⟩ := by
  refine ⟨fun bi hbi => ?_, List.nodup_nil, List.Pairwise.nil, fun a => Or.inl rfl, fun bi hbi => ?_,
    fun bi hbi => ?_, fun _ bi hbi => ?_, fun bi hbi => ?_⟩
  all_goals cases hbi

/-- **What `analyze` has found when it has looked at every block.** -/
theorem scan_found (crc32c : List UInt8 → ℕ) (nb : ℕ) (jd : Mem) : Found crc32c nb jd nb (scan crc32c nb jd) := by
  have hall : ∀ b, Found crc32c nb jd b ((List.range b).foldl (analyze_block crc32c nb) ⟨jd, [], true⟩) := by
    intro b
    induction b with
    | zero => exact found_nil crc32c nb jd
    | succ b ih =>
      rw [List.range_succ, List.foldl_append, List.foldl_cons, List.foldl_nil]
      generalize (List.range b).foldl (analyze_block crc32c nb) ⟨jd, [], true⟩ = s at ih ⊢
      exact ih.step
  exact hall nb

end Chickadee.Journal
