import Mathlib

/-!
# The number that a list of digits denotes

`number b val v ds` goes on from `v`, as a reader of digits does. `val` says what a digit denotes.
-/

namespace Chickadee.Lib

variable {α : Type*} {b v w M d : ℕ} {val val' : α → ℕ} {ds : List α}

def number (b : ℕ) (val : α → ℕ) (v : ℕ) (ds : List α) : ℕ := ds.foldl (fun v c => v * b + val c) v

@[simp]
theorem number_nil : number b val v [] = v := rfl

@[simp]
theorem number_cons {c : α} : number b val v (c :: ds) = number b val (v * b + val c) ds := rfl

theorem le_number (hb : 0 < b) : v ≤ number b val v ds := by
  induction ds generalizing v with
  | nil => exact le_rfl
  | cons c ds ih =>
    rw [number_cons]
    exact (Nat.le_mul_of_pos_right v hb).trans ((Nat.le_add_right _ _).trans ih)

/-- Digits that denote more make a larger number. -/
theorem number_mono (hvw : v ≤ w) (hval : ∀ c ∈ ds, val c ≤ val' c) : number b val v ds ≤ number b val' w ds := by
  induction ds generalizing v w with
  | nil => exact hvw
  | cons c ds ih =>
    rw [number_cons, number_cons]
    refine ih ?_ fun e he => hval e (List.mem_cons_of_mem c he)
    exact Nat.add_le_add (Nat.mul_le_mul_right b hvw) (hval c List.mem_cons_self)

/-- One such digit is enough, as no other denotes less. -/
theorem number_lt (hb : 0 < b) (hvw : v ≤ w) (hval : ∀ c ∈ ds, val c ≤ val' c)
    (hlt : v < w ∨ ∃ c ∈ ds, val c < val' c) : number b val v ds < number b val' w ds := by
  induction ds generalizing v w with
  | nil => exact hlt.resolve_right (by simp)
  | cons c ds ih =>
    rw [number_cons, number_cons]
    have hc := hval c List.mem_cons_self
    have hmul := Nat.mul_le_mul_right b hvw
    refine ih (Nat.add_le_add hmul hc) (fun e he => hval e (List.mem_cons_of_mem c he)) ?_
    rcases hlt with hlt | ⟨e, he, hlt⟩
    · exact Or.inl (Nat.add_lt_add_of_lt_of_le (Nat.mul_lt_mul_of_pos_right hlt hb) hc)
    · rcases List.mem_cons.mp he with rfl | he
      · exact Or.inl (Nat.add_lt_add_of_le_of_lt hmul hlt)
      · exact Or.inr ⟨e, he, hlt⟩

theorem number_eq_iff (hb : 0 < b) (hval : ∀ c ∈ ds, val c ≤ val' c) :
    number b val' v ds = number b val v ds ↔ ∀ c ∈ ds, val' c = val c := by
  constructor
  · intro heq c hc
    by_contra hne
    have hlt : val c < val' c := lt_of_le_of_ne (hval c hc) fun h => hne h.symm
    exact (number_lt hb le_rfl hval (Or.inr ⟨c, hc, hlt⟩)).ne' heq
  · intro heq
    exact le_antisymm (number_mono le_rfl fun c hc => (heq c hc).le) (number_mono le_rfl hval)

/-- The test before a digit is added: it is for the number that would not fit. -/
theorem overflow_iff (hb : 0 < b) (hd : d ≤ M) : v > (M - d) / b ↔ M < v * b + d := by
  rw [gt_iff_lt, Nat.div_lt_iff_lt_mul hb]
  omega

end Chickadee.Lib
