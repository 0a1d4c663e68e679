import Chickadee.Lib.Run
import Chickadee.Ptable.TryMap

/-!
# The calls on a `vmiter`

After any calls of `find`, `+=`, `next`, `next_range` and `try_map` on one `vmiter`, it stands where a new one for
its address would. So it reads what the walk from the root gives, whatever the calls before were.
-/

namespace Chickadee.Ptable

open Lib
open Vm (PAGESIZE VA_LOWMAX VA_LOWEND VA_HIGHMIN pagesize va_is_canonical)

/-- The calls. `try_map` comes with the pages that `knew` gives to it. -/
inductive Call
  | find (va : BitVec 64)
  | add (delta : ℤ)
  | next
  | next_range
  | try_map (pa : BitVec 64) (perm : BitVec 32) (news : List ℕ)

/-- The memory and the `vmiter`. -/
structure State where
  m : Mem
  it : Vmiter

namespace State

open Vmiter

/-- A call that moves the `vmiter`. -/
def move (s : State) (r : Option Vmiter) : Option State := r.map fun it => ⟨s.m, it⟩

/-- A call on the `vmiter`. There is no result where it panics. -/
def call (s : State) : Call → Option State
  | .find va => s.move (real_find s.m s.it va.toNat)
  | .add delta => s.move (s.it.add s.m delta)
  | .next => s.move (s.it.next s.m)
  | .next_range => s.move (s.it.next_range s.m)
  | .try_map pa perm news => (s.it.try_map s.m pa perm news).map fun r => ⟨r.1, r.2.1⟩

/-- What a call may use: `knew` gives page-aligned pages that are in no table. -/
def mayCall (s : State) : Call → Prop
  | .try_map _ _ news => Fresh s.m s.it.pt_ news
  | _ => True

/-- A new `vmiter` over a tree of table pages. -/
def isNew (pt : ℕ) (s : State) : Prop := IsTree s.m pt ∧ ∃ va < 2 ^ 64, start s.m pt va = some s.it

/-- The states that the calls lead to. -/
def Reached (pt : ℕ) : State → Prop := Reach (isNew pt) (fun s c s' => s.call c = some s') mayCall

/-- The `vmiter` is where a new one would be. -/
structure Inv (pt : ℕ) (s : State) : Prop where
  tree : IsTree s.m pt
  va_lt : s.it.va_ < 2 ^ 64
  seek : seek s.m pt s.it.va_ = some s.it

variable {pt : ℕ} {s s' : State}

theorem Inv.start {m : Mem} {it : Vmiter} {va : ℕ} (htree : IsTree m pt) (hva : va < 2 ^ 64)
    (h : start m pt va = some it) : Inv pt ⟨m, it⟩ := by
  have hseek := seek_of_start h
  have heq := seek_va hseek
  subst heq
  exact ⟨htree, hva, hseek⟩

theorem Inv.move (hi : Inv pt s) {va : ℕ} (hva : va < 2 ^ 64) (h : s.move (real_find s.m s.it va) = some s') :
    Inv pt s' := by
  obtain ⟨it, hfind, rfl⟩ := Option.map_eq_some_iff.1 h
  rw [real_find_eq hi.seek] at hfind
  exact .start hi.tree hva hfind

theorem Inv.call (hi : Inv pt s) {c : Call} (hc : s.mayCall c) (h : s.call c = some s') : Inv pt s' := by
  cases c with
  | find va => exact hi.move va.isLt h
  | add delta => exact hi.move (by omega) h
  | next => exact hi.move (Nat.mod_lt _ (by decide)) h
  | next_range => exact hi.move (Nat.mod_lt _ (by decide)) h
  | try_map pa perm news =>
    obtain ⟨r, hmap, rfl⟩ := Option.map_eq_some_iff.1 h
    have hfresh : Fresh s.m pt news := by
      rw [← seek_pt hi.seek]
      exact hc
    obtain ⟨hseek, htree, -⟩ := try_map_keeps hi.tree hi.va_lt hi.seek hfresh hmap
    have hva := seek_va hseek
    exact ⟨htree, by rw [hva]; exact hi.va_lt, by rw [hva]; exact hseek⟩

theorem Reached.inv (h : Reached pt s) : Inv pt s := by
  refine Reach.invariant (P := Inv pt) ?_ (fun _ _ _ hi hc hs => hi.call hc hs) h
  intro s hnew
  obtain ⟨htree, va, hva, hstart⟩ := hnew
  exact .start htree hva hstart

/-! ## What is passed -/

/-- The addresses that a move from `va` to `va'` goes past. The last move of all wraps to 0. -/
def Passed (va va' x : ℕ) : Prop := va ≤ x ∧ x < 2 ^ 64 ∧ (x < va' ∨ va' = 0)

theorem region_end_le {va level : ℕ} (hva : va < 2 ^ 64) (hl : level ≤ 3) :
    (va / pagesize level + 1) * pagesize level ≤ 2 ^ 64 := by
  have hps : 2 ^ 64 = 2 ^ (52 - 9 * level) * pagesize level := by
    unfold pagesize
    rw [← Nat.pow_add, show 52 - 9 * level + (12 + 9 * level) = 64 by omega]
  rw [hps] at hva ⊢
  exact Nat.mul_le_mul_right _ (Nat.div_lt_of_lt_mul (by rwa [Nat.mul_comm]))

theorem lt_of_passed {va level x : ℕ} (hva : va < 2 ^ 64) (hl : level ≤ 3)
    (h : Passed va ((va / pagesize level + 1) * pagesize level % 2 ^ 64) x) :
    x < (va / pagesize level + 1) * pagesize level := by
  obtain ⟨-, hx, hlt⟩ := h
  have hle := region_end_le hva hl
  rcases Nat.lt_or_ge ((va / pagesize level + 1) * pagesize level) (2 ^ 64) with hend | hend
  · rw [Nat.mod_eq_of_lt hend] at hlt
    have hpos : 0 < (va / pagesize level + 1) * pagesize level := Nat.mul_pos (Nat.succ_pos _) (pagesize_pos level)
    omega
  · omega

theorem nextLevel_le (hi : Inv pt s) : s.it.nextLevel s.m ≤ 3 := by
  have hle := seek_level hi.seek
  unfold nextLevel
  split <;> omega

/-- What the calls on a `vmiter` may rely on. -/
structure Walks (pt : ℕ) (s : State) : Prop where
  /-- `pa()` is where the walk leads. -/
  pa : s.it.pa s.m = (translate s.m pt s.it.va_).elim (2 ^ 64 - 1) Prod.fst
  /-- `perm()` has the bits that all entries on the walk have. -/
  perm : s.it.perm s.m &&& PTE_PWU = (translate s.m pt s.it.va_).elim 0#64 Prod.snd
  /-- A search ends at the address, unless its walk meets uninitialized memory. -/
  real_find : ∀ va, (∀ it, real_find s.m s.it va = some it → it.va_ = va) ∧
    ((real_find s.m s.it va).isSome = true ↔ (va_is_canonical va = true → initialised s.m va 3 pt = true))
  /-- `next()` goes past no page that is present, but for the one that it leaves. -/
  next : ∀ it, s.it.next s.m = some it → ∀ x, Passed s.it.va_ it.va_ x → x / PAGESIZE ≠ s.it.va_ / PAGESIZE →
    translate s.m pt x = none
  /-- `next_range()` goes past no entry but the one that it leaves. -/
  next_range : ∀ it, s.it.next_range s.m = some it → ∀ x, Passed s.it.va_ it.va_ x →
    seek s.m pt x = some { s.it with va_ := x }
  /-- `try_map` changes the translation of no other page. -/
  try_map : ∀ pa perm news m it r, Fresh s.m pt news → s.it.try_map s.m pa perm news = some (m, it, r) →
    ∀ x < 2 ^ 64, x / PAGESIZE ≠ s.it.va_ / PAGESIZE → translate m pt x = translate s.m pt x

/-- **After any calls a `vmiter` reads what a walk from the root gives.** -/
theorem walks_of_reached (h : Reached pt s) : Walks pt s := by
  have hi := Reached.inv h
  refine ⟨pa_eq hi.seek, perm_pwu hi.seek, fun va => ?_, fun it hnext x hx hpage => ?_, fun it hnext x hx => ?_,
    fun pa perm news m it r hfresh hmap => (try_map_keeps hi.tree hi.va_lt hi.seek hfresh hmap).2.2⟩
  · rw [real_find_eq hi.seek]
    exact ⟨fun it hit => seek_va (seek_of_start hit), start_isSome_iff⟩
  · unfold Vmiter.next at hnext
    rw [real_find_eq hi.seek] at hnext
    rw [seek_va (seek_of_start hnext)] at hx
    have hdiv : s.it.va_ / PAGESIZE ≤ x / PAGESIZE := Nat.div_le_div_right hx.1
    exact next_skips hi.seek (by omega) (lt_of_passed hi.va_lt (nextLevel_le hi) hx)
  · unfold Vmiter.next_range at hnext
    rw [real_find_eq hi.seek] at hnext
    rw [seek_va (seek_of_start hnext)] at hx
    exact next_range_skips hi.seek hx.1 (lt_of_passed hi.va_lt (seek_level hi.seek) hx)

/-! A page is mapped through three new table pages, and one of its bytes is looked up. -/

/-- Memory without table entries. -/
def blank : Mem := fun _ _ => 0#64

theorem tableAt_blank {root va level t : ℕ} (h : tableAt blank root va level = some t) : t = root := by
  unfold tableAt at h
  cases hd : 3 - level with
  | zero =>
    rw [hd] at h
    cases h
    rfl
  | succ d =>
    rw [hd] at h
    obtain ⟨u, -, hsub⟩ := Trie.exists_node_of_succ h
    simp [blank, subtable_zero] at hsub

theorem isTree_blank (root : ℕ) : IsTree blank root := by
  intro va va' d d' t _ hpos _ _ ht _
  obtain ⟨e, rfl⟩ : ∃ e, d = e + 1 := ⟨d - 1, by omega⟩
  obtain ⟨u, -, hsub⟩ := Trie.exists_node_of_succ ht
  simp [blank, subtable_zero] at hsub

def mappedMem : Mem :=
  (addTable (addTable (addTable blank 0x2000 (0x1000, 0)) 0x3000 (0x2000, 0)) 0x4000 (0x3000, 0)).write (0x4000, 1)
    0x5007#64

def mapped : State := ⟨mappedMem, ⟨0x1000, some (0x4000, 1), 0, 0xFFF#64, 0x1005⟩⟩

theorem reached_mapped : Reached 0x1000 mapped := by
  have hnew : isNew 0x1000 ⟨blank, ⟨0x1000, some (0x1000, 0), 3, 0xFFF#64, 0x1000⟩⟩ :=
    ⟨isTree_blank _, 0x1000, by decide, by decide⟩
  have hfresh : mayCall ⟨blank, ⟨0x1000, some (0x1000, 0), 3, 0xFFF#64, 0x1000⟩⟩
      (.try_map 0x5000#64 0x7#32 [0x2000, 0x3000, 0x4000]) := by
    refine ⟨by decide, by decide, fun p hp va level ht => ?_⟩
    rw [tableAt_blank ht] at hp
    exact absurd hp (by decide)
  have hmap : call ⟨blank, ⟨0x1000, some (0x1000, 0), 3, 0xFFF#64, 0x1000⟩⟩
      (.try_map 0x5000#64 0x7#32 [0x2000, 0x3000, 0x4000])
      = some ⟨mappedMem, ⟨0x1000, some (0x4000, 1), 0, 0xFFF#64, 0x1000⟩⟩ := rfl
  exact .step (.step (.init hnew) hfresh hmap) trivial (a := .add 5) rfl

theorem walks_of_reached_mapped : mapped.it.pa mapped.m = 0x5005 ∧ Walks 0x1000 mapped :=
  ⟨by decide, walks_of_reached reached_mapped⟩

end State

end Chickadee.Ptable
