import Chickadee.Journal.Mark

/-!
# The data blocks of the metablocks

The data of a metablock lies behind it, one block for each journaled reference, and goes round at the end of
the journal. No data block of a metablock in `mr_` is in `mr_`, so two metablocks share no data block: the
later of the two would lie among the data of the earlier one.
-/

namespace Chickadee.Journal

open Lib

variable {m m' : Mem} {mr : List ℕ} {nb bi r q d : ℕ}

/-! ## Distances -/

theorem delta_pos (m : Mem) (bi r : ℕ) : 1 ≤ delta m bi r := by
  induction r with
  | zero => exact le_rfl
  | succ r ih =>
    rw [delta]
    split
    · omega
    · exact ih

theorem delta_le (m : Mem) (bi r : ℕ) : delta m bi r ≤ r + 1 := by
  induction r with
  | zero => exact le_rfl
  | succ r ih =>
    rw [delta]
    split
    · omega
    · omega

theorem delta_mono (m : Mem) (bi : ℕ) : Monotone (delta m bi) := by
  refine monotone_nat_of_le_succ fun r => ?_
  rw [delta]
  split
  · omega
  · exact le_rfl

theorem delta_lt_delta (hj : journaled m bi r = true) (hlt : r < q) : delta m bi r < delta m bi q := by
  have hsucc : delta m bi (r + 1) = delta m bi r + 1 := by rw [delta, if_pos hj]
  have hmono : delta m bi (r + 1) ≤ delta m bi q := delta_mono m bi hlt
  omega

/-- Two references of one metablock have different data blocks. -/
theorem delta_inj (hj : journaled m bi r = true) (hj' : journaled m bi q = true)
    (h : delta m bi r = delta m bi q) : r = q := by
  rcases Nat.lt_trichotomy r q with hlt | heq | hlt
  · have := delta_lt_delta hj hlt
    omega
  · exact heq
  · have := delta_lt_delta hj' hlt
    omega

/-- No distance is left out. -/
theorem exists_delta (hpos : 1 ≤ d) (hd : d < delta m bi r) :
    ∃ q < r, journaled m bi q = true ∧ delta m bi q = d := by
  induction r with
  | zero =>
    rw [delta] at hd
    omega
  | succ r ih =>
    by_cases hj : journaled m bi r = true
    · rw [delta, if_pos hj] at hd
      rcases Nat.lt_succ_iff_lt_or_eq.mp hd with hlt | heq
      · obtain ⟨q, hq, hrest⟩ := ih hlt
        exact ⟨q, Nat.lt_succ_of_lt hq, hrest⟩
      · exact ⟨r, Nat.lt_succ_self r, hj, heq.symm⟩
    · rw [delta, if_neg hj] at hd
      obtain ⟨q, hq, hrest⟩ := ih hd
      exact ⟨q, Nat.lt_succ_of_lt hq, hrest⟩

/-! ## The layout of the journal -/

/-- What `analyze` makes sure of, of a list of metablocks and their data. -/
structure Layout (nb : ℕ) (m : Mem) (mr : List ℕ) : Prop where
  nodup : mr.Nodup
  lt : ∀ bi ∈ mr, bi < nb
  nref_le : ∀ bi ∈ mr, nref m bi ≤ ref_size
  delta_lt : ∀ bi ∈ mr, ∀ r < nref m bi, journaled m bi r = true → delta m bi r < nb
  data : ∀ bi ∈ mr, ∀ r < nref m bi, journaled m bi r = true → dataBlock nb bi (delta m bi r) ∉ mr

theorem Found.layout {crc32c : List UInt8 → ℕ} {jd : Mem} {s : Replayer} (h : Found crc32c nb jd nb s)
    (hok : s.ok = true) : Layout nb jd s.mr :=
  ⟨h.nodup, h.lt, h.nref_le, h.delta_lt hok, fun bi hbi r hr hj => (h.data bi hbi r hr hj).1⟩

theorem Layout.congr (h : Layout nb m mr) (hnref : ∀ bi ∈ mr, nref m' bi = nref m bi)
    (hj : ∀ bi ∈ mr, ∀ r < ref_size, journaled m' bi r = journaled m bi r) : Layout nb m' mr := by
  have hback : ∀ bi ∈ mr, ∀ r < nref m' bi, journaled m' bi r = true →
      r < nref m bi ∧ journaled m bi r = true ∧ delta m' bi r = delta m bi r := by
    intro bi hbi r hr hjr
    rw [hnref bi hbi] at hr
    have hlt : r < ref_size := hr.trans_le (h.nref_le bi hbi)
    rw [hj bi hbi r hlt] at hjr
    exact ⟨hr, hjr, delta_congr fun q hq => hj bi hbi q (hq.trans hlt)⟩
  refine ⟨h.nodup, h.lt, fun bi hbi => ?_, fun bi hbi r hr hjr => ?_, fun bi hbi r hr hjr => ?_⟩
  · rw [hnref bi hbi]
    exact h.nref_le bi hbi
  · obtain ⟨hr', hjr', hd⟩ := hback bi hbi r hr hjr
    rw [hd]
    exact h.delta_lt bi hbi r hr' hjr'
  · obtain ⟨hr', hjr', hd⟩ := hback bi hbi r hr hjr
    rw [hd]
    exact h.data bi hbi r hr' hjr'

/-- The data block of a reference. -/
def place (nb : ℕ) (m : Mem) (p : ℕ × ℕ) : ℕ := dataBlock nb p.1 (delta m p.1 p.2)

theorem circular (hbi : bi < nb) (hd : d < nb) : (bi + d) % nb = if bi + d < nb then bi + d else bi + d - nb := by
  split
  · next hlt => exact Nat.mod_eq_of_lt hlt
  · next hge =>
    rw [Nat.mod_eq_sub_mod (not_lt.mp hge)]
    exact Nat.mod_eq_of_lt (by omega)

namespace Layout

/-- The 32-bit sum does not overflow. -/
theorem dataBlock_eq (hnb : nb + ref_size ≤ 2 ^ 32) (hbi : bi < nb) (hsize : d ≤ ref_size) (hd : d < nb) :
    dataBlock nb bi d = if bi + d < nb then bi + d else bi + d - nb := by
  unfold dataBlock
  rw [Nat.mod_eq_of_lt (a := bi + d) (by omega)]
  exact circular hbi hd

theorem place_inj_of_le (h : Layout nb m mr) (hnb : nb + ref_size ≤ 2 ^ 32) {p q : ℕ × ℕ}
    (hp : p ∈ positions m mr) (hjp : journaled m p.1 p.2 = true) (hq : q ∈ positions m mr)
    (hjq : journaled m q.1 q.2 = true) (hle : delta m p.1 p.2 ≤ delta m q.1 q.2)
    (heq : place nb m p = place nb m q) : p = q := by
  obtain ⟨hp₁, hp₂⟩ := mem_positions.mp hp
  obtain ⟨hq₁, hq₂⟩ := mem_positions.mp hq
  have hlt := h.lt p.1 hp₁
  have hlt' := h.lt q.1 hq₁
  have hdp := h.delta_lt p.1 hp₁ p.2 hp₂ hjp
  have hdq := h.delta_lt q.1 hq₁ q.2 hq₂ hjq
  have hpos := delta_pos m p.1 p.2
  have hdp' := delta_le m p.1 p.2
  have hdq' := delta_le m q.1 q.2
  have hnp := h.nref_le p.1 hp₁
  have hnq := h.nref_le q.1 hq₁
  have hplaces := heq
  unfold place at hplaces
  rw [dataBlock_eq hnb hlt (by omega) hdp, dataBlock_eq hnb hlt' (by omega) hdq] at hplaces
  rcases Nat.eq_or_lt_of_le hle with hsame | hless
  · have hblock : p.1 = q.1 := by
      rw [hsame] at hplaces
      split_ifs at hplaces
      all_goals omega
    refine Prod.ext hblock ?_
    rw [hblock] at hsame hjp
    exact delta_inj hjp hjq hsame
  · -- the metablock of `p` would lie among the data of the other
    have hearlier : delta m q.1 q.2 - delta m p.1 p.2 < delta m q.1 q.2 := Nat.sub_lt_self hpos hle
    obtain ⟨r, hr, hjr, hdr⟩ := exists_delta (by omega) hearlier
    have hdata := h.data q.1 hq₁ r (hr.trans hq₂) hjr
    rw [hdr] at hdata
    have hback : dataBlock nb q.1 (delta m q.1 q.2 - delta m p.1 p.2) = p.1 := by
      rw [dataBlock_eq hnb hlt' (by omega) (by omega)]
      split_ifs at hplaces ⊢
      all_goals omega
    rw [hback] at hdata
    exact absurd hp₁ hdata

/-- **Each journaled reference has a data block of its own.** -/
theorem place_inj (h : Layout nb m mr) (hnb : nb + ref_size ≤ 2 ^ 32) {p q : ℕ × ℕ} (hp : p ∈ positions m mr)
    (hjp : journaled m p.1 p.2 = true) (hq : q ∈ positions m mr) (hjq : journaled m q.1 q.2 = true)
    (heq : place nb m p = place nb m q) : p = q := by
  rcases Nat.le_total (delta m p.1 p.2) (delta m q.1 q.2) with hle | hle
  · exact h.place_inj_of_le hnb hp hjp hq hjq hle heq
  · exact (h.place_inj_of_le hnb hq hjq hp hjp hle heq.symm).symm

end Layout

end Chickadee.Journal
