import Chickadee.Journal.Replayed
import Chickadee.Journal.Shift

/-!
# The order of sequence numbers

`analyze_block` compares sequence numbers as integers, not around the circle as transaction ids are. As long
as no two of them are half of the circle apart this is the same, and then a shift of all sequence numbers
changes nothing that `analyze` and `run` do.
-/

namespace Chickadee.Journal

open Lib

variable {crc32c : List UInt8 → ℕ} {nb k : ℕ} {jd jd' m m' m₁ m₁' : Mem} {mr rmr : List ℕ} {bi r x y : ℕ}

/-! ## The checks -/

/-- The journal, and the one whose sequence numbers are moved by `k`. -/
structure Moved (k : ℕ) (mr : List ℕ) (m m' : Mem) : Prop where
  alike : Alike mr m m'
  seq : ∀ bi ∈ mr, seq m' bi = (seq m bi + k) % 2 ^ 16

namespace Moved

theorem seq_eq_iff (h : Moved k mr m m') (hx : x ∈ mr) (hy : y ∈ mr) :
    Journal.seq m' x = Journal.seq m' y ↔ Journal.seq m x = Journal.seq m y := by
  have hlt : Journal.seq m x < 2 ^ 16 := getLE_lt _ _ _
  have hlt' : Journal.seq m y < 2 ^ 16 := getLE_lt _ _ _
  rw [h.seq x hx, h.seq y hy]
  omega

/-- The next sequence number is the next one. -/
theorem succ_eq_iff (h : Moved k mr m m') (hx : x ∈ mr) (hy : y ∈ mr) :
    Journal.seq m' x = (Journal.seq m' y + 1) % 2 ^ 16 ↔ Journal.seq m x = (Journal.seq m y + 1) % 2 ^ 16 := by
  have hlt : Journal.seq m x < 2 ^ 16 := getLE_lt _ _ _
  have hlt' : Journal.seq m y < 2 ^ 16 := getLE_lt _ _ _
  rw [h.seq x hx, h.seq y hy]
  omega

theorem checkMeta (h : Moved k mr m m') {last : Option ℕ} (hlast : ∀ y ∈ last, y ∈ mr) (hx : x ∈ mr) :
    checkMeta m' last x = checkMeta m last x := by
  have hseq : ∀ y ∈ last, (Journal.seq m' x ≠ Journal.seq m' y ↔ Journal.seq m x ≠ Journal.seq m y) :=
    fun y hy => not_congr (h.seq_eq_iff hx (hlast y hy))
  unfold Journal.checkMeta
  simp only [h.alike.tid, h.alike.commit_boundary, h.alike.complete_boundary, h.alike.flags, h.alike.nref]
  exact decide_eq_decide.mpr (and_congr_left' (forall₂_congr fun y hy => and_congr_left' (hseq y hy)))

theorem checkLoop (h : Moved k mr m m') {last : Option ℕ} (hlast : ∀ y ∈ last, y ∈ mr) {rest : List ℕ}
    (hrest : ∀ x ∈ rest, x ∈ mr) : checkLoop m' last rest = checkLoop m last rest := by
  induction rest generalizing last with
  | nil => rfl
  | cons x rest ih =>
    have hx : x ∈ mr := hrest x List.mem_cons_self
    rw [Journal.checkLoop, Journal.checkLoop, h.checkMeta hlast hx]
    refine congrArg _ (ih (fun y hy => ?_) fun y hy => hrest y (List.mem_cons_of_mem _ hy))
    obtain rfl := Option.some_inj.mp hy
    exact hx

theorem tidLoop (h : Moved k mr m m') {t last fl : ℕ} {ok : Bool} (hlast : fl ≠ 0 → last ∈ mr) {rest : List ℕ}
    (hrest : ∀ x ∈ rest, x ∈ mr) : tidLoop m' t last fl ok rest = tidLoop m t last fl ok rest := by
  induction rest generalizing last fl ok with
  | nil => rfl
  | cons x rest ih =>
    have hx : x ∈ mr := hrest x List.mem_cons_self
    have hrest' : ∀ y ∈ rest, y ∈ mr := fun y hy => hrest y (List.mem_cons_of_mem _ hy)
    have hgap : (fl ≠ 0 ∧ Journal.seq m' x ≠ (Journal.seq m' last + 1) % 2 ^ 16 ∧ fl &&& jf_commit = 0) ↔
        (fl ≠ 0 ∧ Journal.seq m x ≠ (Journal.seq m last + 1) % 2 ^ 16 ∧ fl &&& jf_commit = 0) :=
      and_congr_right fun hfl => and_congr_left' (not_congr (h.succ_eq_iff hx (hlast hfl)))
    have hrec : ∀ fl ok, Journal.tidLoop m' t x fl ok rest = Journal.tidLoop m t x fl ok rest :=
      fun fl ok => ih (fun _ => hx) hrest'
    rw [Journal.tidLoop, Journal.tidLoop]
    simp only [h.alike.tid, h.alike.flags, h.alike.commit_boundary, h.alike.complete_boundary, h.alike.nref, hgap, hrec]

theorem analyze_tid (h : Moved k mr m m') (t : ℕ) : analyze_tid m' mr t = analyze_tid m mr t := by
  unfold Journal.analyze_tid
  rw [h.tidLoop (fun hno => absurd rfl hno) fun x hx => hx]

end Moved

/-- The checks of `analyze` after the scan. -/
def Passes (m : Mem) (mr : List ℕ) : Prop :=
  mr ≠ [] ∧ checkLoop m none mr = true ∧
    ∀ i < tiddiff (commit_boundary m (mr.getLastD 0)) (complete_boundary m (mr.getLastD 0)),
      analyze_tid m mr ((complete_boundary m (mr.getLastD 0) + i) % 2 ^ 16) = true

theorem Moved.passes_iff (h : Moved k mr m m') : Passes m' mr ↔ Passes m mr := by
  unfold Passes
  rw [h.checkLoop (fun y hy => by cases hy) fun x hx => hx, h.alike.commit_boundary, h.alike.complete_boundary]
  simp only [h.analyze_tid]

/-- When a journal is accepted. -/
theorem analyze_iff : (analyze crc32c nb jd).1 = true ↔
    (scan crc32c nb jd).ok = true ∧ Passes (scan crc32c nb jd).jd (scan crc32c nb jd).mr := by
  unfold analyze Passes
  generalize scan crc32c nb jd = s
  dsimp only
  split
  · next hno =>
    refine iff_of_false Bool.false_ne_true ?_
    rintro ⟨hok, hne, hcheck, -⟩
    rcases hno with h | h | h
    · rw [hok] at h
      cases h
    · exact hne h
    · rw [hcheck] at h
      cases h
  · next hyes =>
    push Not at hyes
    simp only [ne_eq, Bool.not_eq_false] at hyes
    dsimp only
    rw [List.all_eq_true]
    constructor
    · intro htids
      exact ⟨hyes.1, hyes.2.1, hyes.2.2, fun i hi => htids i (List.mem_range.mpr hi)⟩
    · rintro ⟨-, -, -, htids⟩ i hi
      exact htids i (List.mem_range.mp hi)

/-! ## Marking -/

namespace Alike

theorem markRefs (h : Alike mr m m') {b n : ℕ} (hn : n ≤ ref_size) : Alike mr (markRefs b bi n m) (markRefs b bi n m') := by
  induction n generalizing m m' with
  | zero => exact h
  | succ n ih =>
    rw [Journal.markRefs, Journal.markRefs, h.bn (by omega)]
    refine ih ?_ (by omega)
    split
    · exact h.setOverwritten (by omega)
    · exact h

theorem markRest (h : Alike mr m m') {b : ℕ} {L : List ℕ} (hsub : ∀ y ∈ rmr, y ∈ L)
    (hnref : ∀ y ∈ L, Journal.nref m y ≤ ref_size) : Alike mr (markRest b rmr m) (markRest b rmr m') := by
  induction rmr generalizing m m' with
  | nil => exact h
  | cons bi rmr ih =>
    have hbi := hsub bi List.mem_cons_self
    have hmarked := (markRefs_spec (b := b) hbi (hnref bi hbi) m).1
    rw [Journal.markRest, Journal.markRest, h.nref]
    refine ih (h.markRefs (hnref bi hbi)) (fun y hy => hsub y (List.mem_cons_of_mem _ hy)) fun y hy => ?_
    rw [hmarked.nref]
    exact hnref y hy

theorem mark_overwritten_block (h : Alike mr m m') (b refx : ℕ) {L : List ℕ} (hbi : bi ∈ L)
    (hsub : ∀ y ∈ rmr, y ∈ L) (hnref : ∀ y ∈ L, Journal.nref m y ≤ ref_size) :
    Alike mr (mark_overwritten_block b bi rmr refx m) (mark_overwritten_block b bi rmr refx m') ∧
      Marked L m (mark_overwritten_block b bi rmr refx m) := by
  have hle : min refx (Journal.nref m bi) ≤ ref_size := (Nat.min_le_right _ _).trans (hnref bi hbi)
  have hhead := (markRefs_spec (b := b) hbi hle m).1
  have hnref' : ∀ y ∈ L, Journal.nref (Journal.markRefs b bi (min refx (Journal.nref m bi)) m) y ≤ ref_size := by
    intro y hy
    rw [hhead.nref]
    exact hnref y hy
  unfold Journal.mark_overwritten_block
  rw [h.nref]
  exact ⟨(h.markRefs hle).markRest hsub hnref', hhead.trans (markRest_spec hsub _ hnref').1⟩

theorem overwriteLoop (h : Alike mr m m') {L : List ℕ} (hbi : bi ∈ L) (hsub : ∀ y ∈ rmr, y ∈ L)
    (hnref : ∀ y ∈ L, Journal.nref m y ≤ ref_size) {n : ℕ} (hn : n ≤ ref_size) :
    Alike mr (overwriteLoop bi rmr n m) (overwriteLoop bi rmr n m') ∧ Marked L m (overwriteLoop bi rmr n m) := by
  induction n generalizing m m' with
  | zero => exact ⟨h, .refl L m⟩
  | succ n ih =>
    rw [Journal.overwriteLoop, Journal.overwriteLoop, h.overwritten (by omega), h.bn (by omega)]
    split
    · obtain ⟨halike, hmarked⟩ := h.mark_overwritten_block (Journal.bn m bi n) n hbi hsub hnref
      obtain ⟨halike', hmarked'⟩ := ih halike (fun y hy => by rw [hmarked.nref]; exact hnref y hy) (by omega)
      exact ⟨halike', hmarked.trans hmarked'⟩
    · exact ih h hnref (by omega)

theorem overwriteAll (h : Alike mr m m') (complete commit : ℕ) {L : List ℕ} (hsub : ∀ y ∈ rmr, y ∈ L)
    (hnref : ∀ y ∈ L, Journal.nref m y ≤ ref_size) :
    Alike mr (overwriteAll complete commit rmr m) (overwriteAll complete commit rmr m') := by
  induction rmr generalizing m m' with
  | nil => exact h
  | cons bi rmr ih =>
    have hbi := hsub bi List.mem_cons_self
    have hsub' : ∀ y ∈ rmr, y ∈ L := fun y hy => hsub y (List.mem_cons_of_mem _ hy)
    rw [Journal.overwriteAll, Journal.overwriteAll, h.tid, h.nref]
    split
    · obtain ⟨halike, hmarked⟩ := h.overwriteLoop hbi hsub' hnref (hnref bi hbi)
      exact ih halike hsub' fun y hy => by rw [hmarked.nref]; exact hnref y hy
    · exact ih h hsub' hnref

end Alike

/-! ## `run` -/

section

variable (hL : Layout nb m mr)
include hL

theorem runRefs_alike (hbi : bi ∈ mr) (hsame : ∀ y ∈ mr, SameBlock y m m₁) (h : Alike mr m₁ m₁') {n r : ℕ}
    (hr : r + n = nref m bi) :
    (runRefs nb bi n r (delta m bi r) m₁').1 = (runRefs nb bi n r (delta m bi r) m₁).1 ∧
      Alike mr (runRefs nb bi n r (delta m bi r) m₁).2 (runRefs nb bi n r (delta m bi r) m₁').2 ∧
      ∀ y ∈ mr, SameBlock y m (runRefs nb bi n r (delta m bi r) m₁).2 := by
  induction n generalizing r m₁ m₁' with
  | zero => exact ⟨rfl, h, hsame⟩
  | succ n ih =>
    have hlt : r < ref_size := by
      have hle := hL.nref_le bi hbi
      omega
    have hnext : (if journaled m₁ bi r = true then delta m bi r + 1 else delta m bi r) = delta m bi (r + 1) := by
      rw [(hsame bi hbi).journaled hlt, delta]
    rw [runRefs, runRefs, h.overwritten hlt, h.journaled hlt, h.escaped hlt]
    dsimp only
    rw [hnext]
    by_cases hlive : overwritten m₁ bi r = false ∧ journaled m₁ bi r = true
    · rw [if_pos hlive, if_pos hlive]
      have hplace : dataBlock nb bi (delta m bi r) ∉ mr := by
        refine hL.data bi hbi r (by omega) ?_
        rw [← (hsame bi hbi).journaled hlt]
        exact hlive.2
      generalize dataBlock nb bi (delta m bi r) = d at hplace
      have hrestored : Alike mr (if escaped m₁ bi r = true then putLE m₁ (d * blocksize) 8 journalmagic else m₁)
          (if escaped m₁ bi r = true then putLE m₁' (d * blocksize) 8 journalmagic else m₁') := by
        split
        · exact h.putLE _ _ _
        · exact h
      have hkept : ∀ y ∈ mr, SameBlock y m
          (if escaped m₁ bi r = true then putLE m₁ (d * blocksize) 8 journalmagic else m₁) := by
        intro y hy
        have hne : y ≠ d := by
          rintro rfl
          exact hplace hy
        split
        · exact (hsame y hy).trans (sameBlock_putLE (by decide) hne)
        · exact hsame y hy
      generalize (if escaped m₁ bi r = true then putLE m₁ (d * blocksize) 8 journalmagic else m₁) = m₂ at *
      generalize (if escaped m₁ bi r = true then putLE m₁' (d * blocksize) 8 journalmagic else m₁') = m₂' at *
      have hbytes := (hrestored.sameBlock hplace).bytes (o := 0) (n := blocksize) (by decide)
      rw [Nat.add_zero] at hbytes
      obtain ⟨hwrites, hrest⟩ := ih hkept hrestored (r := r + 1) (by omega)
      refine ⟨?_, hrest⟩
      rw [hwrites, hrestored.tid, hrestored.bn hlt, hbytes]
    · rw [if_neg hlive, if_neg hlive]
      exact ih hsame h (by omega)

theorem runAll_alike {complete commit : ℕ} {rest : List ℕ} (hsub : ∀ y ∈ rest, y ∈ mr)
    (hsame : ∀ y ∈ mr, SameBlock y m m₁) (h : Alike mr m₁ m₁') :
    (runAll nb complete commit rest m₁').1 = (runAll nb complete commit rest m₁).1 := by
  induction rest generalizing m₁ m₁' with
  | nil => rfl
  | cons bi rest ih =>
    have hbi := hsub bi List.mem_cons_self
    have hsub' : ∀ y ∈ rest, y ∈ mr := fun y hy => hsub y (List.mem_cons_of_mem _ hy)
    rw [runAll, runAll, h.tid, h.nref]
    split
    · dsimp only
      have hnref : 0 + nref m₁ bi = nref m bi := by rw [Nat.zero_add, (hsame bi hbi).nref]
      obtain ⟨hwrites, halike, hkept⟩ := runRefs_alike hL hbi hsame h hnref
      rw [show delta m bi 0 = 1 from rfl] at hwrites halike hkept
      rw [hwrites, ih hsub' hkept halike]
    · exact ih hsub' hsame h

end

/-! ## The order -/

/-- Each metablock comes after the ones before it, around the circle. -/
def InOrder (m : Mem) (mr : List ℕ) : Prop := mr.Pairwise fun x y => tid_gt (seq m y) (seq m x) = true

/-- No two sequence numbers are half of the circle apart, as numbers. -/
def NoWrap (m : Mem) (mr : List ℕ) : Prop := ∀ x ∈ mr, ∀ y ∈ mr, seq m x < seq m y + 2 ^ 15

theorem tid_gt_iff {s t : ℕ} (ht : t < 2 ^ 16) (hle : s ≤ t) : tid_gt t s = true ↔ s ≠ t ∧ t < s + 2 ^ 15 := by
  unfold tid_gt tiddiff
  rw [decide_eq_true_eq]
  omega

theorem inOrder_iff (hsorted : mr.Pairwise fun x y => seq m x ≤ seq m y) (hnodup : mr.Nodup)
    (hdistinct : ∀ x ∈ mr, ∀ y ∈ mr, seq m x = seq m y → x = y) : InOrder m mr ↔ NoWrap m mr := by
  have hlt : ∀ y, seq m y < 2 ^ 16 := fun y => getLE_lt _ _ _
  constructor
  · intro horder x hx y hy
    by_cases hxy : x = y
    · subst hxy
      omega
    · rcases sublist_or_sublist hx hy hxy with hsub | hsub
      · have hle := List.pairwise_pair.mp (hsorted.sublist hsub)
        omega
      · have hle := List.pairwise_pair.mp (hsorted.sublist hsub)
        have hgt := List.pairwise_pair.mp (List.Pairwise.sublist hsub horder)
        exact ((tid_gt_iff (hlt x) hle).mp hgt).2
  · intro hwrap
    refine (hsorted.and hnodup).imp_of_mem fun {x y} hx hy hand => ?_
    exact (tid_gt_iff (hlt y) hand.1).mpr ⟨fun heq => hand.2 (hdistinct x hx y hy heq), hwrap y hy x hx⟩

theorem tid_gt_shift {s t : ℕ} (hs : s < 2 ^ 16) :
    tid_gt ((t + k) % 2 ^ 16) ((s + k) % 2 ^ 16) = tid_gt t s := by
  have hdiff : tiddiff ((t + k) % 2 ^ 16) ((s + k) % 2 ^ 16) = tiddiff t s := by
    unfold tiddiff
    omega
  unfold tid_gt
  rw [hdiff]

theorem tid_gt_asymm {s t : ℕ} (hs : s < 2 ^ 16) (ht : t < 2 ^ 16) (h : tid_gt t s = true) :
    tid_gt s t = false := by
  unfold tid_gt tiddiff at *
  rw [decide_eq_true_eq] at h
  rw [decide_eq_false_iff_not]
  omega

theorem list_eq_of_moved (h : Moved k mr m m') {mr' : List ℕ} (hmem : ∀ x, x ∈ mr' ↔ x ∈ mr) (hnodup : mr.Nodup)
    (hnodup' : mr'.Nodup) (horder : InOrder m mr) (horder' : InOrder m' mr') : mr' = mr := by
  have hlt : ∀ y, seq m y < 2 ^ 16 := fun y => getLE_lt _ _ _
  have hback : mr'.Pairwise fun x y => tid_gt (seq m y) (seq m x) = true := by
    refine List.Pairwise.imp_of_mem (fun {x y} hx hy hgt => ?_) horder'
    rw [h.seq x ((hmem x).mp hx), h.seq y ((hmem y).mp hy), tid_gt_shift (hlt x)] at hgt
    exact hgt
  refine ((List.perm_ext_iff_of_nodup hnodup' hnodup).mpr hmem).eq_of_pairwise (fun x y _ _ hxy hyx => ?_) hback horder
  rw [tid_gt_asymm (hlt x) (hlt y) hxy] at hyx
  cases hyx

/-- What is in `mr_`, by the journal as it was stored. -/
theorem scan_inOrder_iff (hdistinct : ∀ x ∈ (scan crc32c nb jd).mr, ∀ y ∈ (scan crc32c nb jd).mr,
    seq jd x = seq jd y → x = y) :
    InOrder jd (scan crc32c nb jd).mr ↔ NoWrap jd (scan crc32c nb jd).mr :=
  inOrder_iff (scan_found crc32c nb jd).sorted (scan_found crc32c nb jd).nodup hdistinct

theorem inOrder_congr (h : ∀ x ∈ mr, seq m' x = seq m x) : InOrder m' mr ↔ InOrder m mr := by
  refine List.Pairwise.iff_of_mem fun {x y} hx hy => ?_
  rw [h x hx, h y hy]

theorem noWrap_congr {mr' : List ℕ} (h : ∀ x, x ∈ mr' ↔ x ∈ mr) : NoWrap m mr' ↔ NoWrap m mr := by
  unfold NoWrap
  simp only [h]

/-- If both lists are in order, `analyze` and `run` do the same. -/
theorem same_of_inOrder (h : Shifted crc32c nb k jd jd') (horder : InOrder jd (scan crc32c nb jd).mr)
    (horder' : InOrder jd' (scan crc32c nb jd').mr) :
    (Passes (scan crc32c nb jd').jd (scan crc32c nb jd').mr ↔ Passes (scan crc32c nb jd).jd (scan crc32c nb jd).mr) ∧
      ((analyze crc32c nb jd).1 = true → (analyze crc32c nb jd').1 = true →
        (run nb (analyze crc32c nb jd').2).1 = (run nb (analyze crc32c nb jd).2).1) := by
  obtain ⟨htwin, hmem⟩ := h.scan
  have hfound := scan_found crc32c nb jd
  have hfound' := scan_found crc32c nb jd'
  have hsame : ∀ x ∈ (scan crc32c nb jd).mr, SameBlock x jd (scan crc32c nb jd).jd :=
    fun x hx => hfound.sameBlock (.inl hx)
  have hsame' : ∀ x ∈ (scan crc32c nb jd).mr, SameBlock x jd' (scan crc32c nb jd').jd :=
    fun x hx => hfound'.sameBlock (.inl ((hmem x).mpr hx))
  have hstored : Moved k (scan crc32c nb jd).mr jd jd' := ⟨h.alike, h.seq⟩
  have hmoved : Moved k (scan crc32c nb jd).mr (scan crc32c nb jd).jd (scan crc32c nb jd').jd := by
    refine ⟨htwin.alike, fun x hx => ?_⟩
    rw [(hsame' x hx).seq, (hsame x hx).seq]
    exact h.seq x hx
  have heq := list_eq_of_moved hstored hmem hfound.nodup hfound'.nodup horder horder'
  refine ⟨by rw [heq]; exact hmoved.passes_iff, fun haccept haccept' => ?_⟩
  obtain ⟨hok, hne, -⟩ := analyze_accepts haccept
  obtain ⟨hmr, hjd⟩ := analyze_result haccept
  obtain ⟨hmr', hjd'⟩ := analyze_result haccept'
  rw [heq] at hmr' hjd'
  have hnref : ∀ x ∈ (scan crc32c nb jd).mr, nref (scan crc32c nb jd).jd x ≤ ref_size := by
    intro x hx
    rw [(hsame x hx).nref]
    exact hfound.nref_le x hx
  rw [hmoved.alike.complete_boundary, hmoved.alike.commit_boundary] at hjd'
  have halike := hmoved.alike.overwriteAll
    (complete_boundary (scan crc32c nb jd).jd ((scan crc32c nb jd).mr.getLastD 0))
    (commit_boundary (scan crc32c nb jd).jd ((scan crc32c nb jd).mr.getLastD 0))
    (fun y (hy : y ∈ (scan crc32c nb jd).mr.reverse) => List.mem_reverse.mp hy) hnref
  rw [← hjd, ← hjd'] at halike
  have hmarked := (overwriteAll_spec (complete_boundary (scan crc32c nb jd).jd ((scan crc32c nb jd).mr.getLastD 0))
    (commit_boundary (scan crc32c nb jd).jd ((scan crc32c nb jd).mr.getLastD 0)) hnref).1
  rw [← hjd] at hmarked
  have hL : Layout nb (analyze crc32c nb jd).2.jd (scan crc32c nb jd).mr :=
    ((hfound.layout hok).congr (fun x hx => (hsame x hx).nref) fun x hx r hr => (hsame x hx).journaled hr).congr
      (fun x _ => hmarked.nref) fun x _ r hr => hmarked.journaled hr
  unfold run
  dsimp only
  rw [hmr, hmr', halike.complete_boundary, halike.commit_boundary]
  exact runAll_alike hL (fun y hy => hy) (fun y hy o ho => rfl) halike

/-- **Sequence numbers are circular as long as no two are half of the circle apart as numbers**, and, where a
metablock has more references than fit, if the shift does not change how many are found behind its end. -/
theorem order_iff (h : Shifted crc32c nb k jd jd')
    (hdistinct : ∀ x ∈ (scan crc32c nb jd).mr, ∀ y ∈ (scan crc32c nb jd).mr, seq jd x = seq jd y → x = y) :
    (InOrder jd (scan crc32c nb jd).mr ∧ InOrder jd' (scan crc32c nb jd').mr ∧
        (analyze crc32c nb jd').1 = (analyze crc32c nb jd).1 ∧
        ((analyze crc32c nb jd).1 = true →
          (run nb (analyze crc32c nb jd').2).1 = (run nb (analyze crc32c nb jd).2).1)) ↔
      NoWrap jd (scan crc32c nb jd).mr ∧ NoWrap jd' (scan crc32c nb jd).mr ∧
        (Passes (scan crc32c nb jd).jd (scan crc32c nb jd).mr → (Fits crc32c nb jd ↔ Fits crc32c nb jd')) := by
  have hmem := h.scan.2
  have hdistinct' : ∀ x ∈ (scan crc32c nb jd').mr, ∀ y ∈ (scan crc32c nb jd').mr, seq jd' x = seq jd' y → x = y := by
    intro x hx y hy heq
    have hx' := (hmem x).mp hx
    have hy' := (hmem y).mp hy
    exact hdistinct x hx' y hy' ((Moved.seq_eq_iff ⟨h.alike, h.seq⟩ hx' hy').mp heq)
  rw [scan_inOrder_iff hdistinct, scan_inOrder_iff hdistinct', noWrap_congr hmem]
  refine and_congr_right fun hwrap => and_congr_right fun hwrap' => ?_
  obtain ⟨hpasses, hruns⟩ := same_of_inOrder h ((scan_inOrder_iff hdistinct).mpr hwrap)
    ((scan_inOrder_iff hdistinct').mpr ((noWrap_congr hmem).mpr hwrap'))
  have hanswers : (analyze crc32c nb jd').1 = (analyze crc32c nb jd).1 ↔
      (Passes (scan crc32c nb jd).jd (scan crc32c nb jd).mr → (Fits crc32c nb jd ↔ Fits crc32c nb jd')) := by
    rw [Bool.eq_iff_iff, analyze_iff, analyze_iff, hpasses, scan_ok_iff, scan_ok_iff]
    generalize Passes (scan crc32c nb jd).jd (scan crc32c nb jd).mr = P
    generalize Fits crc32c nb jd = F
    generalize Fits crc32c nb jd' = F'
    tauto
  rw [hanswers]
  refine ⟨fun hand => hand.1, fun hfits => ⟨hfits, fun haccept => ?_⟩⟩
  exact hruns haccept ((hanswers.mpr hfits).trans haccept)

/-- Two metablocks with the sequence numbers `s` and the next one: the first starts transaction 0, the second
commits it. -/
def twoBlocks (s : ℕ) : Mem :=
  putLE (putLE (fun i =>
    if i < 4096 then
      ([0xED, 0xCE, 0xEB, 0x9E, 0x00, 0xBB, 0xBF, 0xFB, 0x5F, 0x0A, 0x60, 0x82, 0, 0, 0, 0,
        0, 0, 0, 0, 0, 0, 0, 0, 0x11] : List UInt8).getD i 0
    else
      ([0xED, 0xCE, 0xEB, 0x9E, 0x00, 0xBB, 0xBF, 0xFB, 0x5F, 0x0A, 0x60, 0x82, 0, 0, 0, 0,
        0, 0, 0, 0, 1, 0, 0, 0, 0x21] : List UInt8).getD (i - 4096) 0) 16 2 s) 4112 2 (s + 1)

theorem twoBlocks_shifted {s t k : ℕ} (hs : seq (twoBlocks t) 0 = (seq (twoBlocks s) 0 + k) % 2 ^ 16 ∧
    seq (twoBlocks t) 1 = (seq (twoBlocks s) 1 + k) % 2 ^ 16)
    (hmr : ∀ x, x ∈ (scan (fun _ => 0) 2 (twoBlocks s)).mr ↔ x = 0 ∨ x = 1)
    (hpot : is_potential_metablock (fun _ => 0) (twoBlocks t) 0 = true ∧
      is_potential_metablock (fun _ => 0) (twoBlocks t) 1 = true) :
    Shifted (fun _ => 0) 2 k (twoBlocks s) (twoBlocks t) := by
  refine ⟨fun a ha => ?_, fun x hx => ?_, fun x hx => ?_⟩
  · have h₀ := ha 0 ((hmr 0).mpr (.inl rfl))
    have h₁ := ha 1 ((hmr 1).mpr (.inr rfl))
    simp only [Hidden, blocksize] at h₀ h₁
    unfold twoBlocks
    rw [putLE_of_not_mem (by omega), putLE_of_not_mem (by omega), putLE_of_not_mem (by omega),
      putLE_of_not_mem (by omega)]
  · rcases (hmr x).mp hx with rfl | rfl
    · exact hs.1
    · exact hs.2
  · rcases (hmr x).mp hx with rfl | rfl
    · exact hpot.1
    · exact hpot.2

theorem order_iff_twoBlocks :
    (InOrder (twoBlocks 0) (scan (fun _ => 0) 2 (twoBlocks 0)).mr ∧
        InOrder (twoBlocks 1) (scan (fun _ => 0) 2 (twoBlocks 1)).mr ∧
        (analyze (fun _ => 0) 2 (twoBlocks 1)).1 = (analyze (fun _ => 0) 2 (twoBlocks 0)).1 ∧
        ((analyze (fun _ => 0) 2 (twoBlocks 0)).1 = true →
          (run 2 (analyze (fun _ => 0) 2 (twoBlocks 1)).2).1 = (run 2 (analyze (fun _ => 0) 2 (twoBlocks 0)).2).1)) ↔
      NoWrap (twoBlocks 0) (scan (fun _ => 0) 2 (twoBlocks 0)).mr ∧
        NoWrap (twoBlocks 1) (scan (fun _ => 0) 2 (twoBlocks 0)).mr ∧
        (Passes (scan (fun _ => 0) 2 (twoBlocks 0)).jd (scan (fun _ => 0) 2 (twoBlocks 0)).mr →
          (Fits (fun _ => 0) 2 (twoBlocks 0) ↔ Fits (fun _ => 0) 2 (twoBlocks 1))) := by
  have hmr : (scan (fun _ => 0) 2 (twoBlocks 0)).mr = [0, 1] := by decide +kernel
  have hmem : ∀ x, x ∈ (scan (fun _ => 0) 2 (twoBlocks 0)).mr ↔ x = 0 ∨ x = 1 := by
    intro x
    rw [hmr, List.mem_cons, List.mem_singleton]
  refine order_iff (k := 1) (twoBlocks_shifted (by decide +kernel) hmem (by decide +kernel)) ?_
  rw [hmr]
  decide +kernel

/-- The sequence numbers 65535 and 0: the journal is rejected, and accepted when they are moved to 0 and 1. -/
theorem twoBlocks_rejected :
    Shifted (fun _ => 0) 2 1 (twoBlocks 65535) (twoBlocks 0) ∧
      (scan (fun _ => 0) 2 (twoBlocks 65535)).mr = [1, 0] ∧ seq (twoBlocks 65535) 0 = 65535 ∧
      seq (twoBlocks 65535) 1 = 0 ∧ ¬InOrder (twoBlocks 65535) (scan (fun _ => 0) 2 (twoBlocks 65535)).mr ∧
      (analyze (fun _ => 0) 2 (twoBlocks 65535)).1 = false ∧ (analyze (fun _ => 0) 2 (twoBlocks 0)).1 = true := by
  have hmr : (scan (fun _ => 0) 2 (twoBlocks 65535)).mr = [1, 0] := by decide +kernel
  have hmem : ∀ x, x ∈ (scan (fun _ => 0) 2 (twoBlocks 65535)).mr ↔ x = 0 ∨ x = 1 := by
    intro x
    rw [hmr, List.mem_cons, List.mem_singleton]
    exact or_comm
  refine ⟨twoBlocks_shifted (by decide +kernel) hmem (by decide +kernel), hmr, by decide +kernel, by decide +kernel,
    fun horder => ?_, by decide +kernel, by decide +kernel⟩
  rw [hmr] at horder
  have hgt := List.pairwise_pair.mp horder
  exact absurd hgt (by decide +kernel)

end Chickadee.Journal
