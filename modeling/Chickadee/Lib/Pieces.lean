import Mathlib.Tactic

/-!
# Pieces of a sequence

A sequence is cut into pieces, each with the position where it starts and whether more follow. Pieces that
are laid one after the other reassemble to the sequence in whatever order they arrive.
-/

namespace Chickadee.Lib

/-- A piece of a sequence: where it starts, whether there is more behind it, and its elements. -/
structure Piece (α : Type*) where
  start : ℕ
  more : Bool
  data : List α

namespace Piece

variable {α : Type*}

/-- The position behind the piece. -/
def stop (p : Piece α) : ℕ := p.start + p.data.length

end Piece

/-- The pieces `ps` are `whole`: each holds what the sequence has there, every position is in one of them. -/
structure Reassembles {α : Type*} (ps : List (Piece α)) (whole : List α) : Prop where
  data : ∀ p ∈ ps, p.stop ≤ whole.length ∧ p.data = (whole.drop p.start).take p.data.length
  /-- Without gap or overlap. -/
  once : ∀ i < whole.length, ∃! n : Fin ps.length, (ps.get n).start ≤ i ∧ i < (ps.get n).stop
  last : ∀ p ∈ ps, p.more = false ↔ p.stop = whole.length

/-- The pieces `ps` lie one after the other from position `at_` on, and the last one ends the sequence. -/
inductive Tiles {α : Type*} : ℕ → List (Piece α) → List α → Prop
  | last (at_ : ℕ) (data : List α) (hne : data ≠ []) : Tiles at_ [⟨at_, false, data⟩] data
  | cons (at_ : ℕ) (data rest : List α) (ps : List (Piece α)) (hne : data ≠ [])
      (htiles : Tiles (at_ + data.length) ps rest) : Tiles at_ (⟨at_, true, data⟩ :: ps) (data ++ rest)

namespace Tiles

variable {α : Type*} {at_ : ℕ} {ps : List (Piece α)} {rest : List α}

theorem ne_nil (h : Tiles at_ ps rest) : rest ≠ [] := by
  cases h with
  | last _ _ hne => exact hne
  | cons _ _ _ _ hne _ => exact List.append_ne_nil_of_left_ne_nil hne _

/-- What one of the pieces holds. -/
theorem data (h : Tiles at_ ps rest) {p : Piece α} (hp : p ∈ ps) :
    at_ ≤ p.start ∧ p.stop ≤ at_ + rest.length ∧
      p.data = (rest.drop (p.start - at_)).take p.data.length := by
  induction h with
  | last at_ data hne =>
    obtain rfl := List.mem_singleton.mp hp
    refine ⟨le_rfl, le_rfl, ?_⟩
    rw [Nat.sub_self, List.drop_zero, List.take_length]
  | cons at_ data rest ps hne htiles ih =>
    rcases List.mem_cons.mp hp with rfl | hp
    · refine ⟨le_rfl, ?_, ?_⟩
      · rw [Piece.stop, List.length_append]
        exact Nat.add_le_add_left (Nat.le_add_right _ _) _
      · rw [Nat.sub_self, List.drop_zero, List.take_left]
    · obtain ⟨hle, hstop, hdata⟩ := ih hp
      refine ⟨by omega, by rw [List.length_append]; omega, ?_⟩
      rw [show p.start - at_ = data.length + (p.start - (at_ + data.length)) by omega, List.drop_length_add_append]
      exact hdata

theorem last_iff (h : Tiles at_ ps rest) {p : Piece α} (hp : p ∈ ps) :
    p.more = false ↔ p.stop = at_ + rest.length := by
  induction h with
  | last at_ data hne =>
    obtain rfl := List.mem_singleton.mp hp
    exact ⟨fun _ => rfl, fun _ => rfl⟩
  | cons at_ data rest ps hne htiles ih =>
    rcases List.mem_cons.mp hp with rfl | hp
    · refine ⟨fun hmore => (by cases hmore), fun hstop => ?_⟩
      -- there is something behind the first piece
      have hpos := List.length_pos_iff.mpr htiles.ne_nil
      rw [Piece.stop, List.length_append] at hstop
      dsimp only at hstop
      omega
    · rw [ih hp, List.length_append, Nat.add_assoc]

/-- Every position is in exactly one of the pieces. -/
theorem once (h : Tiles at_ ps rest) {i : ℕ} (hle : at_ ≤ i) (hlt : i < at_ + rest.length) :
    ∃! n : Fin ps.length, (ps.get n).start ≤ i ∧ i < (ps.get n).stop := by
  induction h with
  | last at_ data hne =>
    refine ⟨⟨0, Nat.one_pos⟩, ⟨hle, hlt⟩, fun n _ => Fin.ext ?_⟩
    exact Nat.lt_one_iff.mp n.isLt
  | cons at_ data rest ps hne htiles ih =>
    rw [List.length_append] at hlt
    by_cases hin : i < at_ + data.length
    · refine ⟨⟨0, Nat.succ_pos _⟩, ⟨hle, hin⟩, fun n hn => Fin.ext ?_⟩
      -- the later pieces start behind the first one
      obtain ⟨n, hnlt⟩ := n
      cases n with
      | zero => rfl
      | succ n =>
        have hn' : n < ps.length := Nat.lt_of_succ_lt_succ hnlt
        have hstart := (htiles.data (List.get_mem ps ⟨n, hn'⟩)).1
        have hlow : (ps.get ⟨n, hn'⟩).start ≤ i := hn.1
        omega
    · obtain ⟨⟨n, hn⟩, hmem, huniq⟩ := ih (by omega) (by omega)
      refine ⟨⟨n + 1, Nat.succ_lt_succ hn⟩, hmem, fun k hk => Fin.ext ?_⟩
      obtain ⟨k, hklt⟩ := k
      cases k with
      | zero =>
        have hhigh : i < at_ + data.length := hk.2
        omega
      | succ k =>
        have heq := huniq ⟨k, Nat.lt_of_succ_lt_succ hklt⟩ hk
        exact congrArg (· + 1) (Fin.mk.inj heq)

/-- **Pieces laid one after the other reassemble.** -/
theorem reassembles (h : Tiles 0 ps rest) : Reassembles ps rest where
  data p hp := by
    obtain ⟨-, hstop, hdata⟩ := h.data hp
    rw [Nat.zero_add] at hstop
    exact ⟨hstop, hdata⟩
  once i hi := h.once (Nat.zero_le i) (by rwa [Nat.zero_add])
  last p hp := by rw [h.last_iff hp, Nat.zero_add]

end Tiles

end Chickadee.Lib
