import Chickadee.Lib.Marks
import Chickadee.Journal.Scan

/-!
# The marks of overwritten references

Marking changes the flags of references and nothing else. The loops of `analyze` go through the references
backwards, as `Lib.markPass` does; what has a mark in the end is then known.
-/

namespace Chickadee.Journal

open Lib

variable {mr rmr : List ℕ} {m m' m'' : Mem} {bi r x q : ℕ}

/-! ## What marking leaves alone -/

/-- Only the flags of references differ, and there at most the mark is added. -/
structure Marked (mr : List ℕ) (m m' : Mem) : Prop where
  other : ∀ a, (∀ bi ∈ mr, ∀ r < ref_size, a ≠ refAt bi r + 8 ∧ a ≠ refAt bi r + 9) → m' a = m a
  bflags : ∀ bi r, r < ref_size →
    bflags m' bi r = bflags m bi r ∨ bflags m' bi r = bflags m bi r ||| jbf_overwritten

namespace Marked

theorem refl (mr : List ℕ) (m : Mem) : Marked mr m m := ⟨fun _ _ => rfl, fun _ _ _ => .inl rfl⟩

theorem trans (h : Marked mr m m') (h' : Marked mr m' m'') : Marked mr m m'' := by
  refine ⟨fun a ha => (h'.other a ha).trans (h.other a ha), fun bi r hr => ?_⟩
  rcases h'.bflags bi r hr with h₂ | h₂
  · rw [h₂]
    exact h.bflags bi r hr
  · rcases h.bflags bi r hr with h₁ | h₁
    · rw [h₂, h₁]
      exact .inr rfl
    · rw [h₂, h₁, Nat.or_assoc, Nat.or_self]
      exact .inr rfl

/-- What comes before the references of a block. -/
theorem header (h : Marked mr m m') {o w : ℕ} (ho : o + w ≤ 28) :
    getLE m' (x * blocksize + o) w = getLE m (x * blocksize + o) w := by
  have hsize := ref_size_eq
  refine getLE_congr fun a ha ha' => h.other a fun bi _ r hr => ?_
  simp only [refAt, blocksize] at *
  rcases Nat.lt_trichotomy x bi with hlt | rfl | hlt
  · omega
  · omega
  · omega

theorem seq (h : Marked mr m m') : seq m' x = seq m x := h.header (by decide)

theorem tid (h : Marked mr m m') : tid m' x = tid m x := h.header (by decide)

theorem commit_boundary (h : Marked mr m m') : commit_boundary m' x = commit_boundary m x := h.header (by decide)

theorem complete_boundary (h : Marked mr m m') : complete_boundary m' x = complete_boundary m x :=
  h.header (by decide)

theorem nref (h : Marked mr m m') : nref m' x = nref m x := h.header (by decide)

theorem bn (h : Marked mr m m') (hq : q < ref_size) : bn m' x q = bn m x q := by
  have hsize := ref_size_eq
  refine getLE_congr fun a ha ha' => h.other a fun bi _ r hr => ?_
  simp only [refAt, blocksize] at *
  constructor
  · omega
  · omega

/-- The other flags stay. -/
theorem and_bflags (h : Marked mr m m') (hq : q < ref_size) {f : ℕ} (hf : jbf_overwritten &&& f = 0) :
    Journal.bflags m' x q &&& f = Journal.bflags m x q &&& f := by
  rcases h.bflags x q hq with heq | heq
  · rw [heq]
  · rw [heq, Nat.and_or_distrib_right, hf, Nat.or_zero]

theorem journaled (h : Marked mr m m') (hq : q < ref_size) : journaled m' x q = journaled m x q := by
  unfold Journal.journaled
  rw [h.and_bflags hq (by decide)]

theorem escaped (h : Marked mr m m') (hq : q < ref_size) : escaped m' x q = escaped m x q := by
  unfold Journal.escaped
  rw [h.and_bflags hq (by decide)]

/-- A block that is not a metablock of the list is the same. -/
theorem sameBlock (h : Marked mr m m') (hx : x ∉ mr) : SameBlock x m m' := by
  have hsize := ref_size_eq
  intro o ho
  refine h.other _ fun bi hbi r hr => ?_
  have hne : x ≠ bi := by
    rintro rfl
    exact hx hbi
  simp only [refAt, blocksize] at *
  constructor
  · omega
  · omega

end Marked

/-! ## One mark -/

theorem bflags_setOverwritten (m : Mem) (bi r : ℕ) :
    bflags (setOverwritten m bi r) bi r = bflags m bi r ||| jbf_overwritten := by
  have hlt : bflags m bi r ||| jbf_overwritten < 2 ^ 16 := Nat.or_lt_two_pow (getLE_lt _ _ _) (by decide)
  unfold setOverwritten
  rw [bflags, getLE_putLE]
  exact Nat.mod_eq_of_lt hlt

theorem bflags_setOverwritten_of_ne (hr : r < ref_size) (hq : q < ref_size) (hne : (x, q) ≠ (bi, r)) :
    bflags (setOverwritten m bi r) x q = bflags m x q := by
  have hsize := ref_size_eq
  have hplace : x ≠ bi ∨ q ≠ r := by
    by_contra hno
    push Not at hno
    exact hne (by rw [hno.1, hno.2])
  refine getLE_putLE_of_disjoint ?_
  simp only [refAt, blocksize] at *
  omega

theorem marked_setOverwritten (hbi : bi ∈ mr) (hr : r < ref_size) : Marked mr m (setOverwritten m bi r) := by
  refine ⟨fun a ha => ?_, fun x q hq => ?_⟩
  · have hplace := ha bi hbi r hr
    exact putLE_of_not_mem (by omega)
  · by_cases heq : (x, q) = (bi, r)
    · obtain ⟨rfl, rfl⟩ := Prod.mk.injEq _ _ _ _ ▸ heq
      exact .inr (bflags_setOverwritten m x q)
    · exact .inl (bflags_setOverwritten_of_ne hr hq heq)

theorem overwritten_setOverwritten (hr : r < ref_size) (hq : q < ref_size) :
    overwritten (setOverwritten m bi r) x q = true ↔ overwritten m x q = true ∨ x = bi ∧ q = r := by
  unfold overwritten
  by_cases heq : (x, q) = (bi, r)
  · obtain ⟨rfl, rfl⟩ := Prod.mk.injEq _ _ _ _ ▸ heq
    rw [bflags_setOverwritten, Nat.and_or_distrib_right, Nat.and_self]
    refine iff_of_true (decide_eq_true fun hzero => ?_) (.inr ⟨rfl, rfl⟩)
    rw [Nat.or_eq_zero_iff] at hzero
    cases hzero.2
  · rw [bflags_setOverwritten_of_ne hr hq heq]
    refine ⟨.inl, fun h => h.resolve_right ?_⟩
    rintro ⟨rfl, rfl⟩
    exact heq rfl

/-! ## The loops -/

theorem markRefs_spec {b n : ℕ} (hbi : bi ∈ mr) (hn : n ≤ ref_size) (m : Mem) :
    Marked mr m (markRefs b bi n m) ∧ ∀ x q, q < ref_size →
      (overwritten (markRefs b bi n m) x q = true ↔
        overwritten m x q = true ∨ x = bi ∧ q < n ∧ bn m x q = b) := by
  induction n generalizing m with
  | zero =>
    refine ⟨.refl mr m, fun x q _ => ⟨.inl, fun h => h.resolve_right ?_⟩⟩
    rintro ⟨-, hlt, -⟩
    exact absurd hlt (Nat.not_lt_zero q)
  | succ n ih =>
    rw [markRefs]
    by_cases hb : bn m bi n = b
    · rw [if_pos hb]
      have hmark : Marked mr m (setOverwritten m bi n) := marked_setOverwritten hbi (by omega)
      obtain ⟨hrest, hiff⟩ := ih (by omega) (setOverwritten m bi n)
      refine ⟨hmark.trans hrest, fun x q hq => ?_⟩
      rw [hiff x q hq, overwritten_setOverwritten (by omega) hq, hmark.bn hq]
      constructor
      · rintro ((h | ⟨rfl, rfl⟩) | ⟨rfl, hlt, hbn⟩)
        · exact .inl h
        · exact .inr ⟨rfl, Nat.lt_succ_self _, hb⟩
        · exact .inr ⟨rfl, Nat.lt_succ_of_lt hlt, hbn⟩
      · rintro (h | ⟨rfl, hlt, hbn⟩)
        · exact .inl (.inl h)
        · rcases Nat.lt_succ_iff_lt_or_eq.mp hlt with hlt | rfl
          · exact .inr ⟨rfl, hlt, hbn⟩
          · exact .inl (.inr ⟨rfl, rfl⟩)
    · rw [if_neg hb]
      obtain ⟨hrest, hiff⟩ := ih (by omega) m
      refine ⟨hrest, fun x q hq => ?_⟩
      rw [hiff x q hq]
      refine or_congr_right ⟨fun h => ⟨h.1, Nat.lt_succ_of_lt h.2.1, h.2.2⟩, ?_⟩
      rintro ⟨rfl, hlt, hbn⟩
      refine ⟨rfl, ?_, hbn⟩
      rcases Nat.lt_succ_iff_lt_or_eq.mp hlt with hlt | rfl
      · exact hlt
      · exact absurd hbn hb

theorem markRest_spec {b : ℕ} (hsub : ∀ bi ∈ rmr, bi ∈ mr) (m : Mem) (hnref : ∀ bi ∈ mr, nref m bi ≤ ref_size) :
    Marked mr m (markRest b rmr m) ∧ ∀ x q, q < ref_size →
      (overwritten (markRest b rmr m) x q = true ↔
        overwritten m x q = true ∨ x ∈ rmr ∧ q < nref m x ∧ bn m x q = b) := by
  induction rmr generalizing m with
  | nil =>
    refine ⟨.refl mr m, fun x q _ => ⟨.inl, fun h => h.resolve_right ?_⟩⟩
    rintro ⟨hmem, -⟩
    cases hmem
  | cons bi rmr ih =>
    rw [markRest]
    have hbi : bi ∈ mr := hsub bi List.mem_cons_self
    obtain ⟨hhead, hiff₁⟩ := markRefs_spec (b := b) hbi (hnref bi hbi) m
    have hnref' : ∀ y ∈ mr, nref (markRefs b bi (nref m bi) m) y ≤ ref_size := by
      intro y hy
      rw [hhead.nref]
      exact hnref y hy
    obtain ⟨htail, hiff₂⟩ := ih (fun y hy => hsub y (List.mem_cons_of_mem _ hy)) _ hnref'
    refine ⟨hhead.trans htail, fun x q hq => ?_⟩
    rw [hiff₂ x q hq, hiff₁ x q hq, hhead.nref, hhead.bn hq, List.mem_cons, or_assoc]
    refine or_congr_right ⟨?_, ?_⟩
    · rintro (⟨rfl, hlt, hbn⟩ | ⟨hmem, hlt, hbn⟩)
      · exact ⟨.inl rfl, hlt, hbn⟩
      · exact ⟨.inr hmem, hlt, hbn⟩
    · rintro ⟨rfl | hmem, hlt, hbn⟩
      · exact .inl ⟨rfl, hlt, hbn⟩
      · exact .inr ⟨hmem, hlt, hbn⟩

/-! ## The references in order -/

/-- The references of the metablocks `mr`, in the order of the list and by position. -/
def positions (m : Mem) (mr : List ℕ) : List (ℕ × ℕ) :=
  mr.flatMap fun bi => (List.range (nref m bi)).map fun r => (bi, r)

/-- The first `n` references of a metablock, backwards. -/
def refsDown (bi : ℕ) : ℕ → List (ℕ × ℕ)
  | 0 => []
  | r + 1 => (bi, r) :: refsDown bi r

/-- The references of some metablocks, each backwards. -/
def downwards (m : Mem) (rmr : List ℕ) : List (ℕ × ℕ) := rmr.flatMap fun bi => refsDown bi (nref m bi)

theorem refsDown_eq (bi n : ℕ) : refsDown bi n = ((List.range n).map fun r => (bi, r)).reverse := by
  induction n with
  | zero => rfl
  | succ n ih =>
    rw [refsDown, ih, List.range_succ, List.map_append, List.reverse_append]
    rfl

theorem downwards_reverse (m : Mem) (mr : List ℕ) : downwards m mr.reverse = (positions m mr).reverse := by
  rw [positions, List.reverse_flatMap, downwards]
  refine congrArg (fun f => List.flatMap f mr.reverse) (funext fun bi => ?_)
  exact refsDown_eq bi (nref m bi)

theorem mem_positions {p : ℕ × ℕ} : p ∈ positions m mr ↔ p.1 ∈ mr ∧ p.2 < nref m p.1 := by
  rw [positions, List.mem_flatMap]
  constructor
  · rintro ⟨bi, hbi, hp⟩
    obtain ⟨r, hr, rfl⟩ := List.mem_map.mp hp
    exact ⟨hbi, List.mem_range.mp hr⟩
  · rintro ⟨hbi, hr⟩
    exact ⟨p.1, hbi, List.mem_map.mpr ⟨p.2, List.mem_range.mpr hr, rfl⟩⟩

theorem mem_refsDown {n : ℕ} {p : ℕ × ℕ} : p ∈ refsDown bi n ↔ p.1 = bi ∧ p.2 < n := by
  rw [refsDown_eq, List.mem_reverse, List.mem_map]
  constructor
  · rintro ⟨r, hr, rfl⟩
    exact ⟨rfl, List.mem_range.mp hr⟩
  · rintro ⟨rfl, hr⟩
    exact ⟨p.2, List.mem_range.mpr hr, rfl⟩

theorem mem_downwards {p : ℕ × ℕ} : p ∈ downwards m rmr ↔ p.1 ∈ rmr ∧ p.2 < nref m p.1 := by
  rw [downwards, List.mem_flatMap]
  constructor
  · rintro ⟨bi, hbi, hp⟩
    obtain ⟨rfl, hr⟩ := mem_refsDown.mp hp
    exact ⟨hbi, hr⟩
  · rintro ⟨hbi, hr⟩
    exact ⟨p.1, hbi, mem_refsDown.mpr ⟨rfl, hr⟩⟩

/-! ## The pass -/

section

variable (m₀ : Mem) (mr : List ℕ) (complete commit : ℕ)

/-- The marks of the memory are those of the pass. -/
structure Sim (m : Mem) (f : ℕ × ℕ → Bool) : Prop where
  marked : Marked mr m₀ m
  marks : ∀ p : ℕ × ℕ, p.2 < ref_size → overwritten m p.1 p.2 = f p

/-- The references that mark others. -/
def counts (p : ℕ × ℕ) : Bool := inRegion complete commit (tid m₀ p.1)

def key (p : ℕ × ℕ) : ℕ := bn m₀ p.1 p.2

variable {m₀ mr complete commit} {f : ℕ × ℕ → Bool}

/-- One call of `mark_overwritten_block`. -/
theorem sim_mark {b : ℕ} (hnref : ∀ bi ∈ mr, nref m₀ bi ≤ ref_size) (hbi : bi ∈ mr) (hsub : ∀ y ∈ rmr, y ∈ mr)
    (hr : r ≤ nref m₀ bi) (h : Sim m₀ mr m f) :
    Sim m₀ mr (mark_overwritten_block b bi rmr r m)
      (markKey (key m₀) b (refsDown bi r ++ downwards m₀ rmr) f) := by
  have hmark := h.marked
  have hle := hnref bi hbi
  unfold mark_overwritten_block
  rw [hmark.nref, Nat.min_eq_left hr]
  obtain ⟨hhead, hiff₁⟩ := markRefs_spec (b := b) hbi (hr.trans hle) m
  have hboth := hmark.trans hhead
  have hnref' : ∀ y ∈ mr, nref (markRefs b bi r m) y ≤ ref_size := by
    intro y hy
    rw [hboth.nref]
    exact hnref y hy
  obtain ⟨htail, hiff₂⟩ := markRest_spec (b := b) hsub _ hnref'
  refine ⟨hboth.trans htail, fun p hp => ?_⟩
  rw [Bool.eq_iff_iff, hiff₂ p.1 p.2 hp, hiff₁ p.1 p.2 hp, markKey_iff, List.mem_append, mem_refsDown,
    mem_downwards, hboth.nref, hboth.bn hp, hmark.bn hp, h.marks p hp, or_assoc]
  unfold key
  tauto

/-- The references of one metablock, and then the earlier ones. -/
theorem sim_loop (hnref : ∀ bi ∈ mr, nref m₀ bi ≤ ref_size) (hbi : bi ∈ mr) (hsub : ∀ y ∈ rmr, y ∈ mr)
    (hregion : inRegion complete commit (tid m₀ bi) = true)
    (hrest : ∀ m f, Sim m₀ mr m f → Sim m₀ mr (overwriteAll complete commit rmr m)
      (markPass (counts m₀ complete commit) (key m₀) (downwards m₀ rmr) f))
    {n : ℕ} (hn : n ≤ nref m₀ bi) (h : Sim m₀ mr m f) :
    Sim m₀ mr (overwriteAll complete commit rmr (overwriteLoop bi rmr n m))
      (markPass (counts m₀ complete commit) (key m₀) (refsDown bi n ++ downwards m₀ rmr) f) := by
  induction n generalizing m f with
  | zero => exact hrest m f h
  | succ n ih =>
    have hlt : n < ref_size := (Nat.lt_of_succ_le hn).trans_le (hnref bi hbi)
    have hbn : bn m bi n = key m₀ (bi, n) := h.marked.bn hlt
    rw [overwriteLoop, refsDown, List.cons_append, markPass, h.marks (bi, n) hlt, hbn]
    refine ih (by omega) ?_
    by_cases hf : f (bi, n) = false
    · rw [if_pos hf, if_pos ⟨hregion, hf⟩]
      exact sim_mark hnref hbi hsub (by omega) h
    · rw [if_neg hf, if_neg fun hand => hf hand.2]
      exact h

theorem markPass_append {α κ : Type*} [DecidableEq α] [DecidableEq κ] {counts : α → Bool} {key : α → κ}
    {ps qs : List α} {f : α → Bool} (h : ∀ p ∈ ps, counts p = false) :
    markPass counts key (ps ++ qs) f = markPass counts key qs f := by
  induction ps with
  | nil => rfl
  | cons p ps ih =>
    rw [List.cons_append, markPass, if_neg, ih fun q hq => h q (List.mem_cons_of_mem _ hq)]
    rintro ⟨hp, -⟩
    rw [h p List.mem_cons_self] at hp
    cases hp

/-- **The marks of `analyze` are those of the pass over all references backwards.** -/
theorem sim_overwriteAll (hnref : ∀ bi ∈ mr, nref m₀ bi ≤ ref_size) (hsub : ∀ y ∈ rmr, y ∈ mr)
    (h : Sim m₀ mr m f) :
    Sim m₀ mr (overwriteAll complete commit rmr m)
      (markPass (counts m₀ complete commit) (key m₀) (downwards m₀ rmr) f) := by
  induction rmr generalizing m f with
  | nil => exact h
  | cons bi rmr ih =>
    have hbi : bi ∈ mr := hsub bi List.mem_cons_self
    have hsub' : ∀ y ∈ rmr, y ∈ mr := fun y hy => hsub y (List.mem_cons_of_mem _ hy)
    rw [overwriteAll, h.marked.tid, h.marked.nref]
    show Sim m₀ mr _ (markPass _ _ (refsDown bi (nref m₀ bi) ++ downwards m₀ rmr) f)
    by_cases hregion : inRegion complete commit (tid m₀ bi) = true
    · rw [if_pos hregion]
      exact sim_loop hnref hbi hsub' hregion (fun _ _ => ih hsub') le_rfl h
    · rw [if_neg hregion, markPass_append]
      · exact ih hsub' h
      · rintro p hp
        rw [counts, (mem_refsDown.mp hp).1]
        exact Bool.eq_false_of_not_eq_true hregion

/-- **What is marked: what was, and what has a later reference to the same block that counts.** -/
theorem overwriteAll_spec (complete commit : ℕ) (hnref : ∀ bi ∈ mr, nref m₀ bi ≤ ref_size) :
    Marked mr m₀ (overwriteAll complete commit mr.reverse m₀) ∧ ∀ p : ℕ × ℕ, p.2 < ref_size →
      (overwritten (overwriteAll complete commit mr.reverse m₀) p.1 p.2 = true ↔
        overwritten m₀ p.1 p.2 = true ∨ ∃ q : ℕ × ℕ, inRegion complete commit (tid m₀ q.1) = true ∧
          overwritten m₀ q.1 q.2 = false ∧ bn m₀ q.1 q.2 = bn m₀ p.1 p.2 ∧
          List.Sublist [p, q] (positions m₀ mr)) := by
  have hstart : Sim m₀ mr m₀ fun p => overwritten m₀ p.1 p.2 := ⟨.refl mr m₀, fun p _ => rfl⟩
  have hsim : Sim m₀ mr (overwriteAll complete commit mr.reverse m₀) (markPass (counts m₀ complete commit) (key m₀)
      (downwards m₀ mr.reverse) fun p => overwritten m₀ p.1 p.2) :=
    sim_overwriteAll hnref (fun y hy => List.mem_reverse.mp hy) hstart
  refine ⟨hsim.marked, fun p hp => ?_⟩
  rw [hsim.marks p hp, markPass_iff, downwards_reverse]
  refine or_congr_right (exists_congr fun q => ?_)
  have hsub : List.Sublist [q, p] (positions m₀ mr).reverse ↔ List.Sublist [p, q] (positions m₀ mr) :=
    @List.reverse_sublist _ [p, q] _
  rw [hsub]
  rfl

end

end Chickadee.Journal
