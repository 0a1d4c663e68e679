import Chickadee.Lists.Rings

/-!
# Lists as sequences

Every operation of `list` but one does what it does on sequences. `insert(position, x)` has its two cases the
wrong way round: with a position it inserts at the tail, and without one it takes the member of a null pointer.
-/

namespace Chickadee.Lists

open Lib

variable {L T : Type*} [DecidableEq L] [DecidableEq T] {m m' : Mem L T} {c : Contents L T} {l other : L} {x y : T}
  {op : Op L T}

/-- The operation is no `insert(position, x)`. -/
def Op.Safe : Op L T → Prop
  | .insert _ _ _ => False
  | _ => True

instance : (op : Op L T) → Decidable op.Safe
  | .insert _ _ _ => .isFalse id
  | .push_front _ _ | .push_back _ _ | .pop_front _ | .pop_back _ | .erase _ _ | .swap _ _ => .isTrue trivial

/-- The code does what the operation does to the sequences. -/
def Does (m : Mem L T) (c : Contents L T) (op : Op L T) (m' : Mem L T) : Prop :=
  m.step op = some (m', (c.step op).2) ∧ Rep m' (c.step op).1

/-- The code does so all along a sequence of operations. -/
def Serves (m : Mem L T) (c : Contents L T) : List (Op L T) → Prop
  | [] => True
  | op :: ops => ∃ m', Does m c op m' ∧ Serves m' (c.step op).1 ops

/-! ## The observers -/

/-- `front()` and what is behind it. -/
theorem Rep.front_eq (h : Rep m c) (l : L) : m.front l = (c l).head? := by
  unfold Mem.front Mem.empty
  have hring := h.ring l
  cases hc : c l with
  | nil =>
    rw [hc] at hring
    obtain ⟨hnext, -⟩ := hring.linked [] [] rfl
    simp [hnext]
  | cons x xs =>
    rw [hc] at hring
    obtain ⟨hnext, -⟩ := hring.linked (q := .links x) [] (xs.map .links ++ [.head l]) rfl
    simp [hnext, Mem.from_links]

theorem Rep.back_eq (h : Rep m c) (l : L) : m.back l = (c l).getLast? := by
  unfold Mem.back Mem.empty
  have hring := h.ring l
  rcases List.eq_nil_or_concat (c l) with hc | ⟨xs, x, hc⟩
  · rw [hc] at hring
    obtain ⟨hnext, -⟩ := hring.linked [] [] rfl
    simp [hnext, hc]
  · rw [List.concat_eq_append] at hc
    rw [hc] at hring
    obtain ⟨-, hprev⟩ := hring.linked (p := .links x) (q := .head l) (nodes l xs) [] (by simp [nodes])
    have hnext : (m (.head l)).next_ ≠ some (.head l) := by
      obtain ⟨z, hz, hlz, hzl⟩ := hring.exists_next (y := .head l) List.mem_cons_self
      intro he
      obtain rfl : z = .head l := Option.some.inj (hlz.symm.trans he)
      simp [hprev] at hzl
    simp [hnext, hc, hprev, Mem.from_links]

/-! ## The operations -/

/-- The first node of a list is where `push_front` inserts. -/
theorem Rep.push_front (h : Rep m c) (hx : c.Unlinked x) (l : L) :
    ∃ m', m.push_front l x = some m' ∧ Rep m' (Function.update c l (x :: c l)) := by
  obtain ⟨-, p, q, l₂, -, hq⟩ := exists_ends l [] (c l)
  have hnil : nodes l ([] : List T) = [] ++ [.head l] := rfl
  obtain ⟨hnext, -⟩ := Holds.neighbours [] (c l) (h.ring l) hnil hq
  obtain ⟨m', hins, hrep⟩ := h.insert_before [] (c l) rfl hx hq
  refine ⟨m', ?_, by simpa using hrep⟩
  unfold Mem.push_front
  rw [hnext, hins]

theorem Rep.push_back (h : Rep m c) (hx : c.Unlinked x) (l : L) :
    ∃ m', m.push_back l x = some m' ∧ Rep m' (Function.update c l (c l ++ [x])) := by
  obtain ⟨m', hins, hrep⟩ := h.insert_before (l := l) (c l) [] (by simp) hx rfl
  exact ⟨m', hins, by simpa using hrep⟩

theorem Rep.pop_front (h : Rep m c) (l : L) :
    ∃ m', m.pop_front l = some (m', (c l).head?) ∧ Rep m' (Function.update c l (c l).tail) := by
  unfold Mem.pop_front
  rw [h.front_eq]
  cases hc : c l with
  | nil =>
    refine ⟨m, rfl, ?_⟩
    rwa [List.tail_nil, ← hc, Function.update_eq_self]
  | cons x xs =>
    obtain ⟨m', herase, hrep⟩ := h.erase (l := l) [] xs hc
    exact ⟨m', by simp [herase], hrep⟩

theorem Rep.pop_back (h : Rep m c) (l : L) :
    ∃ m', m.pop_back l = some (m', (c l).getLast?) ∧ Rep m' (Function.update c l (c l).dropLast) := by
  unfold Mem.pop_back
  rw [h.back_eq]
  rcases List.eq_nil_or_concat (c l) with hc | ⟨xs, x, hc⟩
  · refine ⟨m, by simp [hc], ?_⟩
    rwa [hc, List.dropLast_nil, ← hc, Function.update_eq_self]
  · rw [List.concat_eq_append] at hc
    obtain ⟨m', herase, hrep⟩ := h.erase (l := l) xs [] (by simpa using hc)
    exact ⟨m', by simp [hc, herase], by simpa [hc] using hrep⟩

theorem Rep.erase_mem (h : Rep m c) (hx : x ∈ c l) :
    ∃ m', m.erase x = some m' ∧ Rep m' (Function.update c l ((c l).erase x)) := by
  obtain ⟨ys, zs, hc⟩ := List.append_of_mem hx
  have hno : x ∉ ys := by
    have hnodup := h.nodup l
    rw [hc] at hnodup
    intro hmem
    exact (List.disjoint_of_nodup_append hnodup) hmem List.mem_cons_self
  obtain ⟨m', herase, hrep⟩ := h.erase (l := l) ys zs (by simpa using hc)
  refine ⟨m', herase, ?_⟩
  rwa [hc, List.erase_append_right _ hno, List.erase_cons_head]

/-- **Every operation but `insert`.** -/
theorem Rep.does (h : Rep m c) (hop : c.Allows op) (hsafe : op.Safe) : ∃ m', Does m c op m' := by
  unfold Does
  cases op with
  | push_front l x =>
    obtain ⟨m', hpush, hrep⟩ := h.push_front hop l
    exact ⟨m', by simp [Mem.step, Contents.step, hpush], hrep⟩
  | push_back l x =>
    obtain ⟨m', hpush, hrep⟩ := h.push_back hop l
    exact ⟨m', by simp [Mem.step, Contents.step, hpush], hrep⟩
  | pop_front l => exact h.pop_front l
  | pop_back l => exact h.pop_back l
  | erase l x =>
    obtain ⟨m', herase, hrep⟩ := h.erase_mem hop
    exact ⟨m', by simp [Mem.step, Contents.step, herase], hrep⟩
  | insert l position x => exact hsafe.elim
  | swap l other =>
    obtain ⟨m', hswap, hrep⟩ := h.swap hop
    refine ⟨m', by simp [Mem.step, Contents.step, hswap], ?_⟩
    have hne : l ≠ other := hop
    have heq : (c.step (.swap l other)).1 = c ∘ Equiv.swap l other := by
      funext k
      rw [Function.comp_apply, Equiv.swap_apply_def]
      split_ifs with hkl hko
      · simp [Contents.step, hkl, hne]
      · simp [Contents.step, hko]
      · simp [Contents.step, hkl, hko]
    rwa [heq]

/-! ## `insert` -/

theorem insertBefore_of_mem {xs : List T} (hy : y ∈ xs) : ∃ ys, insertBefore (some y) x xs = ys ++ xs.getLast?.toList := by
  induction xs with
  | nil => cases hy
  | cons z zs ih =>
    rw [insertBefore]
    by_cases hyz : y = z
    · subst hyz
      rw [if_pos rfl]
      refine ⟨x :: (y :: zs).dropLast, ?_⟩
      rw [List.cons_append, List.getLast?_eq_some_getLast (List.cons_ne_nil y zs), Option.toList_some,
        List.dropLast_append_getLast]
    · have hy' : y ∈ zs := (List.mem_cons.mp hy).resolve_left hyz
      obtain ⟨ys, hys⟩ := ih hy'
      rw [if_neg (by simpa using hyz), hys]
      have hne : zs ≠ [] := List.ne_nil_of_mem hy'
      refine ⟨z :: ys, ?_⟩
      obtain ⟨z', zs', rfl⟩ := List.exists_cons_of_ne_nil hne
      rw [List.getLast?_cons_cons, List.cons_append]

/-- **`insert` never does what it is for**: `x` goes to the tail and not before the position, or nowhere. -/
theorem Rep.insert_fails (h : Rep m c) {position : Option T} (hop : c.Allows (.insert l position x)) :
    ¬ ∃ m', Does m c (.insert l position x) m' := by
  rintro ⟨m', hcode, hrep⟩
  obtain ⟨hposition, hx⟩ := hop
  cases position with
  | none => simp [Mem.step, Mem.insert, Mem.insert_before] at hcode
  | some y =>
    have hy : y ∈ c l := hposition y rfl
    obtain ⟨m₁, hins, hrep₁⟩ := h.push_back hx l
    have hsame : m.insert l (some y) x = m.push_back l x := rfl
    simp only [Mem.step, hsame, hins, Option.map_some, Option.some.injEq, Prod.mk.injEq] at hcode
    obtain ⟨rfl, -⟩ := hcode
    have hback := hrep.back_eq l
    rw [hrep₁.back_eq l] at hback
    obtain ⟨ys, hys⟩ := insertBefore_of_mem (x := x) hy
    obtain ⟨z, hz⟩ : ∃ z, (c l).getLast? = some z :=
      ⟨_, List.getLast?_eq_some_getLast (List.ne_nil_of_mem hy)⟩
    simp only [Contents.step, Function.update_self, hys, hz, Option.toList_some, List.getLast?_concat,
      Option.some.injEq] at hback
    subst hback
    exact hx l (List.mem_of_getLast? hz)

/-! ## Sequences of operations -/

/--
**On well-formed lists, a sequence of operations leaves well-formed lists with the right contents all along if and
only if it has no `insert`.**
-/
theorem serves_iff (hrep : Rep m c) {ops : List (Op L T)} (hops : c.AllowsAll ops) :
    Serves m c ops ↔ ∀ op ∈ ops, op.Safe := by
  induction ops generalizing m c with
  | nil => simp [Serves]
  | cons op ops ih =>
    obtain ⟨hop, hrest⟩ := hops
    constructor
    · rintro ⟨m', hdoes, hserves⟩
      have hsafe : op.Safe := by
        cases op with
        | insert l position x => exact hrep.insert_fails hop ⟨m', hdoes⟩
        | _ => trivial
      intro op' hop'
      rcases List.mem_cons.mp hop' with rfl | hop'
      · exact hsafe
      · exact (ih hdoes.2 hrest).mp hserves op' hop'
    · intro hsafe
      obtain ⟨m', hdoes⟩ := hrep.does hop (hsafe op List.mem_cons_self)
      exact ⟨m', hdoes, (ih hdoes.2 hrest).mpr fun op' hop' => hsafe op' (List.mem_cons_of_mem _ hop')⟩

/-! ## Two lists -/

/-- Two empty lists, and no element linked. -/
def twoEmpty : Mem Bool ℕ
  | .head l => ⟨some (.head l), some (.head l)⟩
  | .links _ => ⟨none, none⟩

theorem twoEmpty_rep : Rep twoEmpty fun _ => [] where
  ring l := by simp [Holds, Links.Ring, Links.Linked, twoEmpty]
  nodup _ := List.nodup_nil
  apart _ _ _ h := absurd h List.not_mem_nil
  free _ _ := rfl

/-- Three elements are put on a list, which is swapped with the empty one, and two are taken off again. -/
theorem serves_iff_swap :
    Serves twoEmpty (fun _ => []) [.push_back false 1, .push_front false 0, .push_back false 2, .swap true false,
      .pop_back true, .erase true 0] ↔
    ∀ op ∈ ([.push_back false 1, .push_front false 0, .push_back false 2, .swap true false, .pop_back true,
      .erase true 0] : List (Op Bool ℕ)), op.Safe := by
  refine serves_iff twoEmpty_rep ?_
  simp [Contents.AllowsAll, Contents.Allows, Contents.step, Contents.Unlinked, Function.update_apply]

/-- **`insert(1, 2)` on the list of 1** leaves 2 behind 1. -/
theorem serves_fails : Rep twoEmpty (fun _ => []) ∧
    Contents.AllowsAll (fun _ => []) ([.push_back false 1, .insert false (some 1) 2] : List (Op Bool ℕ)) ∧
    ¬ Serves twoEmpty (fun _ => []) [.push_back false 1, .insert false (some 1) 2] := by
  have hops : Contents.AllowsAll (fun _ => []) ([.push_back false 1, .insert false (some 1) 2] : List (Op Bool ℕ)) := by
    simp [Contents.AllowsAll, Contents.Allows, Contents.step, Contents.Unlinked, Function.update_apply]
  refine ⟨twoEmpty_rep, hops, ?_⟩
  rintro ⟨m', hdoes, m'', hdoes', -⟩
  exact hdoes.2.insert_fails hops.2.1 ⟨m'', hdoes'⟩

end Chickadee.Lists
