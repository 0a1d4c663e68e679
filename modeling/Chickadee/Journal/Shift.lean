import Chickadee.Journal.Data

/-!
# Other sequence numbers

Two journals that differ in the sequence numbers of the metablocks in `mr_`, and in their checksums, have the
same metablocks in `mr_`: what is read of other blocks is the same, and the metablocks stay metablocks.
Whether there are too many references is a question of its own, because the references of a metablock with
more than `ref_size` of them are read from the blocks behind it.
-/

namespace Chickadee.Journal

open Lib

variable {crc32c : List UInt8 → ℕ} {nb : ℕ} {jd jd' m m' : Mem} {mr : List ℕ} {b bi r x : ℕ}

/-! ## Journals that agree but for sequence numbers -/

/-- The bytes of the checksum and of the sequence number. -/
def Hidden (bi a : ℕ) : Prop :=
  bi * blocksize + 8 ≤ a ∧ a < bi * blocksize + 12 ∨ bi * blocksize + 16 ≤ a ∧ a < bi * blocksize + 18

/-- The same but for the checksums and the sequence numbers of the metablocks `mr`. -/
def Alike (mr : List ℕ) (m m' : Mem) : Prop := ∀ a, (∀ bi ∈ mr, ¬Hidden bi a) → m' a = m a

namespace Alike

theorem field (h : Alike mr m m') {o w : ℕ} (ho : 18 ≤ o) (hw : o + w ≤ blocksize) :
    getLE m' (x * blocksize + o) w = getLE m (x * blocksize + o) w := by
  refine getLE_congr fun a ha ha' => h a fun bi _ hhidden => ?_
  unfold Hidden at hhidden
  simp only [blocksize] at *
  rcases Nat.lt_trichotomy x bi with hlt | rfl | hlt
  · omega
  · omega
  · omega

theorem tid (h : Alike mr m m') : tid m' x = tid m x := h.field (by decide) (by decide)

theorem commit_boundary (h : Alike mr m m') : commit_boundary m' x = commit_boundary m x :=
  h.field (by decide) (by decide)

theorem complete_boundary (h : Alike mr m m') : complete_boundary m' x = complete_boundary m x :=
  h.field (by decide) (by decide)

theorem flags (h : Alike mr m m') : flags m' x = flags m x := h.field (by decide) (by decide)

theorem nref (h : Alike mr m m') : nref m' x = nref m x := h.field (by decide) (by decide)

theorem ref (h : Alike mr m m') (hr : r < ref_size) {o w : ℕ} (ho : o + w ≤ 12) :
    getLE m' (refAt x r + o) w = getLE m (refAt x r + o) w := by
  have hsize := ref_size_eq
  have hblock := blocksize_eq
  unfold refAt
  rw [Nat.add_assoc, Nat.add_assoc]
  exact h.field (by omega) (by omega)

theorem bn (h : Alike mr m m') (hr : r < ref_size) : bn m' x r = bn m x r := by
  have hfirst := h.ref (x := x) (o := 0) (w := 4) hr (by decide)
  rwa [Nat.add_zero] at hfirst

theorem bchecksum (h : Alike mr m m') (hr : r < ref_size) : bchecksum m' x r = bchecksum m x r :=
  h.ref hr (by decide)

theorem bflags (h : Alike mr m m') (hr : r < ref_size) : bflags m' x r = bflags m x r := h.ref hr (by decide)

theorem journaled (h : Alike mr m m') (hr : r < ref_size) : journaled m' x r = journaled m x r := by
  unfold Journal.journaled
  rw [h.bflags hr]

theorem escaped (h : Alike mr m m') (hr : r < ref_size) : escaped m' x r = escaped m x r := by
  unfold Journal.escaped
  rw [h.bflags hr]

theorem overwritten (h : Alike mr m m') (hr : r < ref_size) : overwritten m' x r = overwritten m x r := by
  unfold Journal.overwritten
  rw [h.bflags hr]

theorem sameBlock (h : Alike mr m m') (hx : x ∉ mr) : SameBlock x m m' := by
  intro o ho
  refine h _ fun bi hbi hhidden => ?_
  have hne : x ≠ bi := by
    rintro rfl
    exact hx hbi
  unfold Hidden at hhidden
  simp only [blocksize] at *
  rcases Nat.lt_or_gt_of_ne hne with hlt | hlt
  · omega
  · omega

/-- The same write on both sides. -/
theorem putLE (h : Alike mr m m') (a w v : ℕ) : Alike mr (putLE m a w v) (putLE m' a w v) := by
  intro i hi
  unfold Lib.putLE
  split
  · rfl
  · exact h i hi

theorem setError (h : Alike mr m m') : Alike mr (setError m b) (setError m' b) := by
  unfold Journal.setError
  rw [h.flags]
  exact h.putLE _ _ _

theorem setOverwritten (h : Alike mr m m') (hr : r < ref_size) :
    Alike mr (setOverwritten m bi r) (setOverwritten m' bi r) := by
  unfold Journal.setOverwritten
  rw [h.bflags hr]
  exact h.putLE _ _ _

end Alike

/-! ## A block that is erroneous already -/

theorem putLE_getLE (m : Mem) (a w : ℕ) : putLE m a w (getLE m a w) = m := by
  have hdigits : ∀ w a i, i < w → UInt8.ofNat (getLE m a w / 256 ^ i) = m (a + i) := by
    intro w
    induction w with
    | zero =>
      intro a i hi
      omega
    | succ w ih =>
      intro a i hi
      have hbyte : (m a).toNat < 256 := (m a).toNat_lt
      rw [getLE]
      cases i with
      | zero =>
        rw [pow_zero, Nat.div_one, Nat.add_zero, UInt8.ofNat_add, UInt8.ofNat_mul]
        simp
      | succ i =>
        rw [pow_succ', ← Nat.div_div_eq_div_mul, Nat.add_mul_div_left _ _ (by decide), Nat.div_eq_of_lt hbyte,
          Nat.zero_add, ih (a + 1) i (by omega), Nat.add_assoc, Nat.add_comm 1 i]
  funext i
  unfold putLE
  split
  · next hi =>
    rw [hdigits w a (i - a) (by omega), Nat.add_sub_cancel' hi.1]
  · rfl

theorem setError_of_error (h : flags m b &&& jf_error ≠ 0) : setError m b = m := by
  have hor : flags m b ||| jf_error = flags m b := by
    refine Nat.eq_of_testBit_eq fun i => ?_
    rw [Nat.testBit_or]
    by_cases hi : i = 1
    · subst hi
      have hbit : (flags m b).testBit 1 = true := by
        by_contra hno
        refine h (Nat.eq_of_testBit_eq fun j => ?_)
        rw [Nat.testBit_and, Nat.zero_testBit, show jf_error = 2 ^ 1 from rfl, Nat.testBit_two_pow]
        by_cases hj : 1 = j
        · subst hj
          rw [Bool.eq_false_of_not_eq_true hno, Bool.false_and]
        · rw [decide_eq_false hj, Bool.and_false]
      rw [hbit, Bool.true_or]
    · rw [show jf_error = 2 ^ 1 from rfl, Nat.testBit_two_pow, decide_eq_false (Ne.symm hi), Bool.or_false]
  unfold setError
  rw [hor]
  exact putLE_getLE m _ _

theorem reference_of_error {s : Refs} (h : flags s.jd bi &&& jf_error ≠ 0) :
    (analyze_block_reference crc32c nb bi r s).jd = s.jd := by
  unfold analyze_block_reference
  split
  · dsimp only
    rw [setError_of_error h, ite_self, ite_self]
  · rfl

theorem refLoop_of_error {n : ℕ} {s : Refs} (h : flags s.jd bi &&& jf_error ≠ 0) :
    (refLoop crc32c nb bi n r s).jd = s.jd := by
  induction n generalizing r s with
  | zero => rfl
  | succ n ih =>
    have hfirst : (analyze_block_reference crc32c nb bi r s).jd = s.jd := reference_of_error h
    rw [refLoop, ih (by rw [hfirst]; exact h), hfirst]

/-! ## The same decisions -/

/-- Two journals that agree so, and in which the metablocks `mr` look like metablocks. -/
structure Twin (crc32c : List UInt8 → ℕ) (mr : List ℕ) (m m' : Mem) : Prop where
  alike : Alike mr m m'
  potential : ∀ x ∈ mr, is_potential_metablock crc32c m x = true ∧ is_potential_metablock crc32c m' x = true

namespace Twin

theorem potential_eq (h : Twin crc32c mr m m') (x : ℕ) :
    is_potential_metablock crc32c m' x = is_potential_metablock crc32c m x := by
  by_cases hx : x ∈ mr
  · obtain ⟨hm, hm'⟩ := h.potential x hx
    rw [hm, hm']
  · exact (h.alike.sameBlock hx).potential

theorem setError (h : Twin crc32c mr m m') (hb : b ∉ mr) : Twin crc32c mr (setError m b) (setError m' b) := by
  refine ⟨h.alike.setError, fun x hx => ?_⟩
  have hne : x ≠ b := by
    rintro rfl
    exact hb hx
  rw [((touched_setError m b).sameBlock hne).potential, ((touched_setError m' b).sameBlock hne).potential]
  exact h.potential x hx

theorem ite (h : Twin crc32c mr m m') {c c' : Prop} [Decidable c] [Decidable c'] (hc : c ↔ c')
    (hb : b ∈ mr → flags (if c then Journal.setError m b else m) b &&& jf_error = 0) :
    Twin crc32c mr (if c then Journal.setError m b else m) (if c' then Journal.setError m' b else m') := by
  by_cases hcase : c
  · rw [if_pos hcase, if_pos (hc.mp hcase)]
    refine h.setError fun hmem => ?_
    have hno := hb hmem
    rw [if_pos hcase] at hno
    exact flags_setError m b hno
  · rw [if_neg hcase, if_neg fun hcase' => hcase (hc.mpr hcase')]
    exact h

theorem checkFlags (h : Twin crc32c mr m m') (hb : b ∈ mr → flags (checkFlags m b) b &&& jf_error = 0) :
    Twin crc32c mr (checkFlags m b) (checkFlags m' b) := by
  unfold Journal.checkFlags at *
  dsimp only at *
  -- an error flag would have stayed
  have h₁ : Twin crc32c mr
      (if Journal.flags m b &&& (jf_error ||| jf_corrupt) ≠ 0 then Journal.setError m b else m)
      (if Journal.flags m' b &&& (jf_error ||| jf_corrupt) ≠ 0 then Journal.setError m' b else m') := by
    refine h.ite (by rw [h.alike.flags]) fun hmem => ?_
    by_contra herror
    exact ((touched_ite _ _ b).trans (touched_ite _ _ b)).sticky herror (hb hmem)
  generalize (if Journal.flags m b &&& (jf_error ||| jf_corrupt) ≠ 0 then Journal.setError m b else m) = m₁ at *
  generalize (if Journal.flags m' b &&& (jf_error ||| jf_corrupt) ≠ 0 then Journal.setError m' b else m') = m₁' at *
  have h₂ : Twin crc32c mr (if Journal.flags m₁ b &&& jf_meta = 0 then Journal.setError m₁ b else m₁)
      (if Journal.flags m₁' b &&& jf_meta = 0 then Journal.setError m₁' b else m₁') := by
    refine h₁.ite (by rw [h₁.alike.flags]) fun hmem => ?_
    by_contra herror
    exact (touched_ite _ _ b).sticky herror (hb hmem)
  generalize (if Journal.flags m₁ b &&& jf_meta = 0 then Journal.setError m₁ b else m₁) = m₂ at *
  generalize (if Journal.flags m₁' b &&& jf_meta = 0 then Journal.setError m₁' b else m₁') = m₂' at *
  exact h₂.ite (by rw [h₂.alike.nref]) hb

theorem reference {s s' : Refs} (h : Twin crc32c mr s.jd s'.jd) (hdelta : s'.delta = s.delta) (hr : r < ref_size)
    (hb : b ∈ mr → flags (analyze_block_reference crc32c nb b r s).jd b &&& jf_error = 0) :
    Twin crc32c mr (analyze_block_reference crc32c nb b r s).jd (analyze_block_reference crc32c nb b r s').jd ∧
      (analyze_block_reference crc32c nb b r s').delta = (analyze_block_reference crc32c nb b r s).delta := by
  unfold analyze_block_reference at *
  rw [h.alike.journaled hr]
  by_cases hj : journaled s.jd b r = true
  · rw [if_pos hj] at hb ⊢
    rw [if_pos hj]
    dsimp only at hb ⊢
    rw [hdelta, h.potential_eq]
    refine ⟨?_, rfl⟩
    by_cases hpot : is_potential_metablock crc32c s.jd (dataBlock nb b s.delta) = true
    · rw [if_pos hpot] at hb ⊢
      rw [if_pos hpot]
      exact h.setError fun hmem => flags_setError s.jd b (hb hmem)
    · rw [if_neg hpot] at hb ⊢
      rw [if_neg hpot]
      have hdata : dataBlock nb b s.delta ∉ mr := fun hmem => hpot (h.potential _ hmem).1
      have hbytes := (h.alike.sameBlock hdata).bytes (o := 0) (n := blocksize) (by decide)
      rw [Nat.add_zero] at hbytes
      refine h.ite ?_ hb
      rw [h.alike.bchecksum hr, hbytes]
  · rw [if_neg hj] at hb ⊢
    rw [if_neg hj]
    exact ⟨h, hdelta⟩

theorem refLoop {n : ℕ} {s t : Refs} (h : Twin crc32c mr s.jd t.jd) (hdelta : t.delta = s.delta)
    (hr : r + n ≤ ref_size) (hb : b ∈ mr → flags (refLoop crc32c nb b n r s).jd b &&& jf_error = 0) :
    Twin crc32c mr (refLoop crc32c nb b n r s).jd (refLoop crc32c nb b n r t).jd := by
  induction n generalizing r s t with
  | zero => exact h
  | succ n ih =>
    rw [Journal.refLoop] at hb ⊢
    rw [Journal.refLoop]
    have hfirst : b ∈ mr → flags (analyze_block_reference crc32c nb b r s).jd b &&& jf_error = 0 := by
      intro hmem
      by_contra herror
      exact (touched_refLoop b n (r + 1) _).sticky herror (hb hmem)
    obtain ⟨htwin, hdelta'⟩ := h.reference hdelta (by omega) hfirst
    exact ih htwin hdelta' (by omega) hb

/-- **A block is taken on both sides or on none.** -/
theorem analyze_block {s s' : Replayer} (h : Twin crc32c mr s.jd s'.jd) (hmr : ∀ x, x ∈ s'.mr ↔ x ∈ s.mr)
    (hnot : b ∉ s.mr) (hb : b ∈ mr → b ∈ (analyze_block crc32c nb s b).mr) :
    Twin crc32c mr (analyze_block crc32c nb s b).jd (analyze_block crc32c nb s' b).jd ∧
      ∀ x, x ∈ (analyze_block crc32c nb s' b).mr ↔ x ∈ (analyze_block crc32c nb s b).mr := by
  unfold Journal.analyze_block at *
  rw [h.potential_eq]
  by_cases hpot : is_potential_metablock crc32c s.jd b = true
  · rw [if_pos hpot] at hb ⊢
    rw [if_pos hpot]
    dsimp only at hb ⊢
    have hchecked := touched_checkFlags s.jd b
    have hfew : flags (Journal.checkFlags s.jd b) b &&& jf_error = 0 → nref s.jd b ≤ ref_size := nref_le_of_checkFlags
    have hcheck : (b ∈ mr → flags (Journal.checkFlags s.jd b) b &&& jf_error = 0) →
        Twin crc32c mr (Journal.checkFlags s.jd b) (Journal.checkFlags s'.jd b) := h.checkFlags
    generalize Journal.checkFlags s.jd b = m₁ at *
    generalize Journal.checkFlags s'.jd b = m₁' at *
    have htouched : Touched b m₁ (Journal.refLoop crc32c nb b (nref m₁ b) 0 ⟨m₁, s.ok, 1⟩).jd :=
      touched_refLoop b (nref m₁ b) 0 ⟨m₁, s.ok, 1⟩
    have hno : b ∈ mr → flags (Journal.refLoop crc32c nb b (nref m₁ b) 0 ⟨m₁, s.ok, 1⟩).jd b &&& jf_error = 0 := by
      intro hmem
      by_contra herror
      have htaken := hb hmem
      rw [if_neg herror] at htaken
      exact hnot htaken
    have hflags : Twin crc32c mr m₁ m₁' := by
      refine hcheck fun hmem => ?_
      by_contra herror
      exact htouched.sticky herror (hno hmem)
    have htwin : Twin crc32c mr (Journal.refLoop crc32c nb b (nref m₁ b) 0 ⟨m₁, s.ok, 1⟩).jd
        (Journal.refLoop crc32c nb b (nref m₁' b) 0 ⟨m₁', s'.ok, 1⟩).jd := by
      rw [hflags.alike.nref]
      by_cases hsize : nref m₁ b ≤ ref_size
      · exact Twin.refLoop (s := ⟨m₁, s.ok, 1⟩) (t := ⟨m₁', s'.ok, 1⟩) hflags rfl (by omega) hno
      · -- too many references: the error flag is set, and what the loop reads does not matter
        have herror : flags m₁ b &&& jf_error ≠ 0 := by
          intro hzero
          rw [hchecked.eq hzero] at hsize
          exact hsize (hfew hzero)
        have hleft : (Journal.refLoop crc32c nb b (nref m₁ b) 0 ⟨m₁, s.ok, 1⟩).jd = m₁ := refLoop_of_error herror
        have herror' : flags m₁' b &&& jf_error ≠ 0 := by rwa [hflags.alike.flags]
        have hright : (Journal.refLoop crc32c nb b (nref m₁ b) 0 ⟨m₁', s'.ok, 1⟩).jd = m₁' := refLoop_of_error herror'
        rw [hleft, hright]
        exact hflags
    refine ⟨htwin, fun x => ?_⟩
    rw [htwin.alike.flags]
    split
    · rw [mem_insert, mem_insert, hmr]
    · exact hmr x
  · rw [if_neg hpot] at hb ⊢
    rw [if_neg hpot]
    exact ⟨h, hmr⟩

end Twin

/-! ## The scan -/

/-- The first `b` blocks. -/
def scanTo (crc32c : List UInt8 → ℕ) (nb : ℕ) (jd : Mem) : ℕ → Replayer
  | 0 => ⟨jd, [], true⟩
  | b + 1 => analyze_block crc32c nb (scanTo crc32c nb jd b) b

theorem scanTo_eq (crc32c : List UInt8 → ℕ) (nb : ℕ) (jd : Mem) (b : ℕ) :
    (List.range b).foldl (analyze_block crc32c nb) ⟨jd, [], true⟩ = scanTo crc32c nb jd b := by
  induction b with
  | zero => rfl
  | succ b ih => rw [List.range_succ, List.foldl_append, List.foldl_cons, List.foldl_nil, ih, scanTo]

theorem scanTo_nb : scanTo crc32c nb jd nb = scan crc32c nb jd := (scanTo_eq crc32c nb jd nb).symm

theorem scanTo_found (crc32c : List UInt8 → ℕ) (nb : ℕ) (jd : Mem) (b : ℕ) :
    Found crc32c nb jd b (scanTo crc32c nb jd b) := by
  induction b with
  | zero => exact found_nil crc32c nb jd
  | succ b ih => exact ih.step

theorem mem_analyze_block {s : Replayer} (h : x ∈ (analyze_block crc32c nb s b).mr) : x = b ∨ x ∈ s.mr := by
  unfold analyze_block at h
  split at h
  · dsimp only at h
    split at h
    · exact mem_insert.mp h
    · exact .inr h
  · exact .inr h

/-- The later blocks add only themselves. -/
theorem mem_scanTo_of_lt {n : ℕ} (hn : b ≤ n) (h : x ∈ (scanTo crc32c nb jd n).mr) (hx : x < b) :
    x ∈ (scanTo crc32c nb jd b).mr := by
  induction n, hn using Nat.le_induction with
  | base => exact h
  | succ n hn ih =>
    rcases mem_analyze_block h with rfl | h
    · omega
    · exact ih h

/-- All sequence numbers of metablocks in `mr_` are moved by `k`; the checksums are right again. -/
structure Shifted (crc32c : List UInt8 → ℕ) (nb k : ℕ) (jd jd' : Mem) : Prop where
  alike : Alike (scan crc32c nb jd).mr jd jd'
  seq : ∀ bi ∈ (scan crc32c nb jd).mr, seq jd' bi = (seq jd bi + k) % 2 ^ 16
  potential : ∀ bi ∈ (scan crc32c nb jd).mr, is_potential_metablock crc32c jd' bi = true

/-- **The same metablocks are found.** -/
theorem Shifted.scan {k : ℕ} (h : Shifted crc32c nb k jd jd') :
    Twin crc32c (scan crc32c nb jd).mr (scan crc32c nb jd).jd (scan crc32c nb jd').jd ∧
      ∀ x, x ∈ (scan crc32c nb jd').mr ↔ x ∈ (scan crc32c nb jd).mr := by
  have hall : ∀ b ≤ nb, Twin crc32c (Journal.scan crc32c nb jd).mr (scanTo crc32c nb jd b).jd
      (scanTo crc32c nb jd' b).jd ∧ ∀ x, x ∈ (scanTo crc32c nb jd' b).mr ↔ x ∈ (scanTo crc32c nb jd b).mr := by
    intro b
    induction b with
    | zero =>
      intro _
      refine ⟨⟨h.alike, fun x hx => ⟨?_, h.potential x hx⟩⟩, fun x => Iff.rfl⟩
      exact (scan_found crc32c nb jd).potential x hx
    | succ b ih =>
      intro hb
      obtain ⟨htwin, hmr⟩ := ih (Nat.le_of_succ_le hb)
      have hnot : b ∉ (scanTo crc32c nb jd b).mr := fun hmem =>
        Nat.lt_irrefl b ((scanTo_found crc32c nb jd b).lt b hmem)
      rw [scanTo, scanTo]
      refine htwin.analyze_block hmr hnot fun hmem => ?_
      rw [← scanTo]
      rw [← scanTo_nb] at hmem
      exact mem_scanTo_of_lt hb hmem (Nat.lt_succ_self b)
  have hend := hall nb le_rfl
  rwa [scanTo_nb, scanTo_nb] at hend

/-! ## Too many references -/

/-- No reference of a block that looks like a metablock is too far away. -/
def Fits (crc32c : List UInt8 → ℕ) (nb : ℕ) (jd : Mem) : Prop :=
  ∀ bi < nb, is_potential_metablock crc32c jd bi = true →
    ∀ r < nref jd bi, journaled jd bi r = true → delta jd bi r < nb

theorem Touched.journaled (h : Touched b m m') (q : ℕ) : journaled m' b q = journaled m b q := by
  have hflags : bflags m' b q = bflags m b q := by
    refine getLE_congr fun a ha ha' => h.same a ?_ ?_
    · unfold refAt at ha
      omega
    · unfold refAt at ha
      omega
  unfold Journal.journaled
  rw [hflags]

theorem refLoop_ok_iff {n : ℕ} {s : Refs} (hdelta : s.delta = delta s.jd bi r) :
    (refLoop crc32c nb bi n r s).ok = true ↔ s.ok = true ∧
      ∀ q, r ≤ q → q < r + n → journaled s.jd bi q = true → delta s.jd bi q < nb := by
  induction n generalizing r s with
  | zero => exact ⟨fun h => ⟨h, fun q hle hlt => by omega⟩, fun h => h.1⟩
  | succ n ih =>
    rw [refLoop]
    have htouched : Touched bi s.jd (analyze_block_reference crc32c nb bi r s).jd := touched_reference bi r s
    have hj : ∀ q, journaled (analyze_block_reference crc32c nb bi r s).jd bi q = journaled s.jd bi q :=
      htouched.journaled
    have hd : ∀ q, delta (analyze_block_reference crc32c nb bi r s).jd bi q = delta s.jd bi q :=
      fun q => delta_congr fun i _ => hj i
    have hnext : (analyze_block_reference crc32c nb bi r s).delta = delta s.jd bi (r + 1) ∧
        ((analyze_block_reference crc32c nb bi r s).ok = true ↔
          s.ok = true ∧ (journaled s.jd bi r = true → delta s.jd bi r < nb)) := by
      unfold analyze_block_reference
      rw [delta]
      by_cases hjr : journaled s.jd bi r = true
      · rw [if_pos hjr, if_pos hjr, hdelta]
        dsimp only
        refine ⟨rfl, ?_⟩
        by_cases hle : nb ≤ delta s.jd bi r
        · rw [if_pos hle]
          exact iff_of_false Bool.false_ne_true fun h => absurd (h.2 hjr) (not_lt.mpr hle)
        · rw [if_neg hle]
          exact ⟨fun h => ⟨h, fun _ => not_le.mp hle⟩, fun h => h.1⟩
      · rw [if_neg hjr, if_neg hjr]
        exact ⟨hdelta, fun h => ⟨h, fun hno => absurd hno hjr⟩, fun h => h.1⟩
    rw [ih (by rw [hd, hnext.1]), hnext.2, and_assoc]
    refine and_congr_right fun _ => ⟨?_, fun h => ⟨fun hjr => h r le_rfl (by omega) hjr, ?_⟩⟩
    · rintro ⟨hfirst, hrest⟩ q hle hlt hjq
      rcases Nat.eq_or_lt_of_le hle with rfl | hlt'
      · exact hfirst hjq
      · rw [← hd]
        exact hrest q hlt' (by omega) (by rw [hj]; exact hjq)
    · intro q hle hlt hjq
      rw [hj] at hjq
      rw [hd]
      exact h q (by omega) (by omega) hjq

theorem Touched.nref (h : Touched b m m') : nref m' b = nref m b := by
  refine getLE_congr fun a ha ha' => h.same a ?_ ?_
  · omega
  · omega

/-- The references of the block that comes next are as they were stored, also those behind its end. -/
theorem Found.journaled {s : Replayer} (h : Found crc32c nb jd b s) (q : ℕ) : journaled s.jd b q = journaled jd b q := by
  have hflags : bflags s.jd b q = bflags jd b q := by
    refine getLE_congr fun a ha ha' => ?_
    rcases h.same a with heq | ⟨bi, hbi, -, -, hplace⟩
    · exact heq
    · simp only [refAt, blocksize] at ha hplace
      omega
  unfold Journal.journaled
  rw [hflags]

/-- **`ok_` says whether the references fit.** -/
theorem scan_ok_iff : (scan crc32c nb jd).ok = true ↔ Fits crc32c nb jd := by
  have hall : ∀ b, (scanTo crc32c nb jd b).ok = true ↔
      ∀ bi < b, is_potential_metablock crc32c jd bi = true →
        ∀ r < nref jd bi, journaled jd bi r = true → delta jd bi r < nb := by
    intro b
    induction b with
    | zero => exact ⟨fun _ bi hbi => absurd hbi (Nat.not_lt_zero bi), fun _ => rfl⟩
    | succ b ih =>
      have hfound := scanTo_found crc32c nb jd b
      have hstep : (scanTo crc32c nb jd (b + 1)).ok = true ↔ (scanTo crc32c nb jd b).ok = true ∧
          (is_potential_metablock crc32c jd b = true →
            ∀ r < nref jd b, journaled jd b r = true → delta jd b r < nb) := by
        rw [scanTo]
        generalize scanTo crc32c nb jd b = s at hfound
        have hsame : SameBlock b jd s.jd := hfound.sameBlock (.inr (.inl le_rfl))
        have hchecked := touched_checkFlags s.jd b
        unfold analyze_block
        rw [hsame.potential]
        by_cases hpot : is_potential_metablock crc32c jd b = true
        · rw [if_pos hpot]
          dsimp only
          generalize checkFlags s.jd b = m₁ at hchecked
          have hj : ∀ q, journaled m₁ b q = journaled jd b q := fun q =>
            (hchecked.journaled q).trans (hfound.journaled q)
          have hd : ∀ q, delta m₁ b q = delta jd b q := fun q => delta_congr fun i _ => hj i
          have hiff : (refLoop crc32c nb b (nref m₁ b) 0 ⟨m₁, s.ok, 1⟩).ok = true ↔ s.ok = true ∧
              ∀ q, 0 ≤ q → q < 0 + nref m₁ b → journaled m₁ b q = true → delta m₁ b q < nb := refLoop_ok_iff rfl
          rw [hiff, hchecked.nref, hsame.nref, Nat.zero_add]
          refine and_congr_right fun _ => ⟨fun h _ r hr hjr => ?_, fun h q _ hq hjq => ?_⟩
          · rw [← hd]
            exact h r (Nat.zero_le r) hr (by rw [hj]; exact hjr)
          · rw [hj] at hjq
            rw [hd]
            exact h hpot q hq hjq
        · rw [if_neg hpot]
          exact ⟨fun h => ⟨h, fun hno => absurd hno hpot⟩, fun h => h.1⟩
      rw [hstep, ih]
      constructor
      · rintro ⟨hrest, hlast⟩ bi hbi
        rcases Nat.lt_succ_iff_lt_or_eq.mp hbi with hlt | rfl
        · exact hrest bi hlt
        · exact hlast
      · intro h
        exact ⟨fun bi hbi => h bi (Nat.lt_succ_of_lt hbi), h b (Nat.lt_succ_self b)⟩
  rw [← scanTo_nb]
  exact hall nb

end Chickadee.Journal
