import Chickadee.Journal.Data

/-!
# What `run` writes

`run` writes the data block of each journaled reference of a committed transaction that is not marked. The
marks leave one reference for each destination, the last one. Putting the magic number back changes only
data blocks, each of them for its own reference, so that a second `run` writes the same.
-/

namespace Chickadee.Journal

open Lib

variable {crc32c : List UInt8 → ℕ} {nb complete commit : ℕ} {jd m m' m'' : Mem} {mr : List ℕ} {bi d : ℕ}

/-! ## The contents that are written -/

/-- A block, with the magic number put back if it is escaped. -/
def content (m : Mem) (d : ℕ) (esc : Bool) : List UInt8 :=
  bytes (if esc = true then putLE m (d * blocksize) 8 journalmagic else m) (d * blocksize) blocksize

theorem bytes_congr {a n : ℕ} (h : ∀ o < n, m' (a + o) = m (a + o)) : bytes m' a n = bytes m a n :=
  List.map_congr_left fun i hi => h i (List.mem_range.mp hi)

theorem content_congr {esc : Bool} (h : SameBlock d m m') : content m' d esc = content m d esc := by
  refine bytes_congr fun o ho => ?_
  split
  · unfold putLE
    split
    · rfl
    · exact h o ho
  · exact h o ho

/-- To put the magic number back once more changes nothing. -/
theorem content_restore : content (putLE m (d * blocksize) 8 journalmagic) d true = content m d true := by
  refine bytes_congr fun o ho => ?_
  rw [if_pos rfl, if_pos rfl]
  unfold putLE
  split
  · rfl
  · rfl

/-- The write of a reference. -/
def write (nb : ℕ) (m : Mem) (p : ℕ × ℕ) : Write :=
  ⟨tid m p.1, bn m p.1 p.2, content m (place nb m p) (escaped m p.1 p.2)⟩

/-- The references that are replayed. -/
def live (complete commit : ℕ) (m : Mem) (p : ℕ × ℕ) : Bool :=
  inRegion complete commit (tid m p.1) && (!overwritten m p.1 p.2 && journaled m p.1 p.2)

theorem live_iff {p : ℕ × ℕ} : live complete commit m p = true ↔
    inRegion complete commit (tid m p.1) = true ∧ overwritten m p.1 p.2 = false ∧ journaled m p.1 p.2 = true := by
  rw [live, Bool.and_eq_true, Bool.and_eq_true, Bool.not_eq_true']

/-! ## The loops of `run` -/

/-- The journal `m`, with the magic number back in some of the blocks that are replayed. -/
structure Restored (nb complete commit : ℕ) (mr : List ℕ) (m m' : Mem) : Prop where
  same : ∀ bi ∈ mr, SameBlock bi m m'
  data : ∀ p ∈ positions m mr, live complete commit m p = true →
    content m' (place nb m p) (escaped m p.1 p.2) = content m (place nb m p) (escaped m p.1 p.2)

theorem Restored.refl (nb complete commit : ℕ) (mr : List ℕ) (m : Mem) : Restored nb complete commit mr m m :=
  ⟨fun _ _ _ _ => rfl, fun _ _ _ => rfl⟩

theorem sameBlock_putLE {x w v : ℕ} (hw : w ≤ blocksize) (hx : x ≠ d) :
    SameBlock x m (putLE m (d * blocksize) w v) := by
  intro o ho
  refine putLE_of_not_mem ?_
  simp only [blocksize] at *
  rcases Nat.lt_or_gt_of_ne hx with hlt | hlt
  · omega
  · omega

/-- One escaped block. -/
theorem Restored.restore (hL : Layout nb m mr) (hnb : nb + ref_size ≤ 2 ^ 32)
    (h : Restored nb complete commit mr m m') {p : ℕ × ℕ} (hp : p ∈ positions m mr)
    (hlive : live complete commit m p = true) (hesc : escaped m p.1 p.2 = true) :
    Restored nb complete commit mr m (putLE m' (place nb m p * blocksize) 8 journalmagic) := by
  have hj := (live_iff.mp hlive).2.2
  obtain ⟨hp₁, hp₂⟩ := mem_positions.mp hp
  refine ⟨fun bi hbi => ?_, fun q hq hqlive => ?_⟩
  · have hne : bi ≠ place nb m p := by
      rintro rfl
      exact hL.data p.1 hp₁ p.2 hp₂ hj hbi
    exact (h.same bi hbi).trans (sameBlock_putLE (by decide) hne)
  · rw [← h.data q hq hqlive]
    by_cases hpq : place nb m q = place nb m p
    · obtain rfl := hL.place_inj hnb hq (live_iff.mp hqlive).2.2 hp hj hpq
      rw [hesc]
      exact content_restore
    · exact content_congr (sameBlock_putLE (by decide) hpq)

section

variable (hL : Layout nb m mr) (hnb : nb + ref_size ≤ 2 ^ 32) (hbi : bi ∈ mr)
include hL hnb hbi

end

/-- By the sequence numbers of the metablocks, then by position. -/
def Earlier (m : Mem) (p q : ℕ × ℕ) : Prop := seq m p.1 < seq m q.1 ∨ p.1 = q.1 ∧ p.2 < q.2

theorem Earlier.asymm {p q : ℕ × ℕ} (h : Earlier m p q) : ¬Earlier m q p := by
  rintro (hlt | ⟨heq, hlt⟩)
  · rcases h with h | ⟨h, -⟩
    · omega
    · rw [h] at hlt
      exact Nat.lt_irrefl _ hlt
  · rcases h with h | ⟨-, h⟩
    · rw [heq] at h
      exact Nat.lt_irrefl _ h
    · omega

theorem sublist_or_sublist {α : Type*} {l : List α} {a b : α} (ha : a ∈ l) (hb : b ∈ l) (hne : a ≠ b) :
    List.Sublist [a, b] l ∨ List.Sublist [b, a] l := by
  induction l with
  | nil => cases ha
  | cons x l ih =>
    rw [pair_sublist_cons, pair_sublist_cons]
    rcases List.mem_cons.mp ha with hax | ha
    · refine .inl (.inl ⟨hax, (List.mem_cons.mp hb).resolve_left fun hbx => hne (hax.trans hbx.symm)⟩)
    · rcases List.mem_cons.mp hb with hbx | hb
      · exact .inr (.inl ⟨hbx, ha⟩)
      · exact (ih ha hb).imp .inr .inr

end Chickadee.Journal
