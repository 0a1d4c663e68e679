import Chickadee.Lib.Heap

/-!
# The wait heap: `wait_heap` and `hwaiter::clear`

The waiters of the heap are the first `nwaiters_` entries of `waiter_arr_`; what is behind them is never read.
The functions run under the lock of the heap. Waking a waiter's process changes nothing here, and a wake-up
time is only compared.
-/

namespace Chickadee.Wait

open Lib

abbrev WAITNPROC : ℕ := 16

/-- `struct wait_heap` -/
structure wait_heap (W : Type*) where
  nwaiters_ : ℕ
  waiter_arr_ : ℕ → W

namespace wait_heap

variable {W : Type*} {h : wait_heap W} {w : W} {i : ℕ}

/-- The left child of a position. -/
def left (parent : ℕ) : ℕ := 2 * parent + 1

/-- The right child of a position. -/
def right (parent : ℕ) : ℕ := 2 * parent + 2

/-- The parent of a position. -/
def parent (child : ℕ) : ℕ := (child - 1) / 2

/-- `swap(&waiter_arr_[i], &waiter_arr_[j])` -/
def swap (h : wait_heap W) (i j : ℕ) : wait_heap W :=
  { h with waiter_arr_ := Function.update (Function.update h.waiter_arr_ i (h.waiter_arr_ j)) j (h.waiter_arr_ i) }

section

variable (wakeup_time_ : W → ℕ)

/-- The position that `heapify` exchanges with `i`. -/
def smallest (h : wait_heap W) (i : ℕ) : ℕ :=
  let l := left i
  let r := right i
  let smallest :=
    if l < h.nwaiters_ ∧ wakeup_time_ (h.waiter_arr_ l) < wakeup_time_ (h.waiter_arr_ i) then l else i
  if r < h.nwaiters_ ∧ wakeup_time_ (h.waiter_arr_ r) < wakeup_time_ (h.waiter_arr_ smallest) then r
  else smallest

theorem smallest_lt {wakeup_time_ : W → ℕ} (hne : h.smallest wakeup_time_ i ≠ i) :
    i < h.smallest wakeup_time_ i ∧ h.smallest wakeup_time_ i < h.nwaiters_ := by
  unfold smallest left right at hne ⊢
  dsimp only at hne ⊢
  split_ifs at hne ⊢ <;> omega

/-- `heapify(i)` -/
def heapify (h : wait_heap W) (i : ℕ) : wait_heap W :=
  if h.smallest wakeup_time_ i ≠ i then
    heapify (h.swap i (h.smallest wakeup_time_ i)) (h.smallest wakeup_time_ i)
  else h
termination_by h.nwaiters_ - i
decreasing_by
  next hne =>
  obtain ⟨hlt, hn⟩ := smallest_lt hne
  show h.nwaiters_ - _ < h.nwaiters_ - i
  omega

/-- The loop of `insert`, which moves the new entry up. -/
def insertLoop (h : wait_heap W) (i : ℕ) : wait_heap W :=
  if i ≠ 0 ∧ wakeup_time_ (h.waiter_arr_ (parent i)) > wakeup_time_ (h.waiter_arr_ i) then
    insertLoop (h.swap i (parent i)) (parent i)
  else h
termination_by i
decreasing_by
  next hc =>
  unfold parent
  omega

/-- `insert(hw)`. `none` is a failed assertion. -/
def insert (h : wait_heap W) (hw : W) : Option (wait_heap W) :=
  if h.nwaiters_ < WAITNPROC then
    let i := h.nwaiters_
    some (insertLoop wakeup_time_ ⟨h.nwaiters_ + 1, Function.update h.waiter_arr_ i hw⟩ i)
  else none

/-- `is_on_heap(hw)` -/
def is_on_heap [DecidableEq W] (h : wait_heap W) (hw : W) : Bool :=
  (List.range h.nwaiters_).any fun i => h.waiter_arr_ i = hw

/-- `pop(false)`: the root, or null, and the heap without it. -/
def pop (h : wait_heap W) : Option W × wait_heap W :=
  if h.nwaiters_ = 0 then (none, h)
  else
    let root := h.waiter_arr_ 0
    let n := h.nwaiters_ - 1
    if h.nwaiters_ = 1 then (some root, { h with nwaiters_ := n })
    else (some root, heapify wakeup_time_ ⟨n, Function.update h.waiter_arr_ 0 (h.waiter_arr_ n)⟩ 0)

end

variable {wakeup_time_ : W → ℕ}

@[simp]
theorem swap_nwaiters (h : wait_heap W) (i j : ℕ) : (h.swap i j).nwaiters_ = h.nwaiters_ := rfl

theorem swap_arr (h : wait_heap W) (i j : ℕ) : (h.swap i j).waiter_arr_ = Heap.swap h.waiter_arr_ i j := by
  funext x
  show Function.update (Function.update h.waiter_arr_ i (h.waiter_arr_ j)) j (h.waiter_arr_ i) x = _
  unfold Heap.swap
  rw [Function.comp_apply, Equiv.swap_apply_def, Function.update_apply, Function.update_apply]
  split_ifs with hj hi hi
  · rw [← hi, hj]
  · rfl
  · rfl
  · rfl

@[simp]
theorem heapify_nwaiters (h : wait_heap W) (i : ℕ) : (h.heapify wakeup_time_ i).nwaiters_ = h.nwaiters_ := by
  induction h, i using heapify.induct wakeup_time_ with
  | case1 h i hne ih =>
    rw [heapify, if_pos hne, ih, swap_nwaiters]
  | case2 h i he => rw [heapify, if_neg he]

/-- A waiter that is popped is no longer counted. -/
theorem pop_nwaiters {hw : W} {h' : wait_heap W} (hpop : h.pop wakeup_time_ = (some hw, h')) :
    h'.nwaiters_ + 1 = h.nwaiters_ := by
  unfold pop at hpop
  split at hpop
  · cases hpop
  · dsimp only at hpop
    split at hpop
    · obtain ⟨-, rfl⟩ := Prod.mk.inj hpop
      show h.nwaiters_ - 1 + 1 = h.nwaiters_
      omega
    · obtain ⟨-, rfl⟩ := Prod.mk.inj hpop
      rw [heapify_nwaiters]
      show h.nwaiters_ - 1 + 1 = h.nwaiters_
      omega

/-! ## What the operations of the heap do -/

/-- The waiters on the heap. -/
def waiters (h : wait_heap W) : Multiset W := Heap.contents h.nwaiters_ h.waiter_arr_

/-- No waiter wakes up before its parent. -/
def Ordered (wakeup_time_ : W → ℕ) (h : wait_heap W) : Prop := Heap.Ordered wakeup_time_ h.nwaiters_ h.waiter_arr_

@[simp]
theorem card_waiters (h : wait_heap W) : Multiset.card h.waiters = h.nwaiters_ := Heap.card_contents _ _

theorem waiters_swap {j : ℕ} (hi : i < h.nwaiters_) (hj : j < h.nwaiters_) : (h.swap i j).waiters = h.waiters := by
  unfold waiters
  rw [swap_arr]
  exact Heap.contents_swap _ hi hj

/-- The position that `heapify` chooses is a child, and none wakes up before it. -/
theorem smallest_child (hne : h.smallest wakeup_time_ i ≠ i) :
    Heap.parent (h.smallest wakeup_time_ i) = i ∧
      wakeup_time_ (h.waiter_arr_ (h.smallest wakeup_time_ i)) < wakeup_time_ (h.waiter_arr_ i) := by
  unfold smallest left right at hne ⊢
  dsimp only at hne ⊢
  unfold Heap.parent
  split_ifs at hne ⊢ with hl hr hr
  · exact ⟨by omega, hr.2.trans hl.2⟩
  · exact ⟨by omega, hl.2⟩
  · exact ⟨by omega, hr.2⟩
  · exact absurd rfl hne

/-- No child wakes up before the position that `heapify` chooses. -/
theorem smallest_le {j : ℕ} (hpos : 0 < j) (hj : j < h.nwaiters_) (hpar : Heap.parent j = i) :
    wakeup_time_ (h.waiter_arr_ (h.smallest wakeup_time_ i)) ≤ wakeup_time_ (h.waiter_arr_ j) := by
  rcases (Heap.parent_eq_iff hpos).mp hpar with rfl | rfl
  · unfold smallest left right
    dsimp only
    split_ifs with hl hr hr <;> omega
  · unfold smallest left right
    dsimp only
    split_ifs with hl hr hr <;> omega

/-- **`heapify(i)` puts the edges below `i` in order.** -/
theorem heapify_ordered (hready : Heap.DownReady wakeup_time_ h.nwaiters_ h.waiter_arr_ i) (hi : i < h.nwaiters_) :
    (h.heapify wakeup_time_ i).Ordered wakeup_time_ ∧ (h.heapify wakeup_time_ i).waiters = h.waiters := by
  induction h, i using heapify.induct wakeup_time_ with
  | case1 h i hne ih =>
    obtain ⟨hgt, hlt⟩ := smallest_lt hne
    obtain ⟨hpar, hless⟩ := smallest_child hne
    have hmove := hready.move (Nat.zero_lt_of_lt hgt) hlt hpar hless fun j hpos hj hji => smallest_le hpos hj hji
    rw [heapify, if_pos hne]
    obtain ⟨hord, hsame⟩ := ih (by rw [swap_arr]; exact hmove) hlt
    exact ⟨hord, hsame.trans (waiters_swap hi hlt)⟩
  | case2 h i he =>
    rw [heapify, if_neg he]
    refine ⟨hready.done fun j hpos hj hji => ?_, rfl⟩
    have hle : wakeup_time_ (h.waiter_arr_ (h.smallest wakeup_time_ i)) ≤ wakeup_time_ (h.waiter_arr_ j) :=
      smallest_le hpos hj hji
    rwa [not_not.mp he] at hle

/-- **The loop of `insert` puts the edges above `i` in order.** -/
theorem insertLoop_ordered (hready : Heap.UpReady wakeup_time_ h.nwaiters_ h.waiter_arr_ i) (hi : i < h.nwaiters_) :
    (h.insertLoop wakeup_time_ i).Ordered wakeup_time_ ∧ (h.insertLoop wakeup_time_ i).waiters = h.waiters := by
  induction h, i using insertLoop.induct wakeup_time_ with
  | case1 h i hc ih =>
    have hpos : 0 < i := Nat.pos_of_ne_zero hc.1
    have hp : parent i < h.nwaiters_ := (Heap.parent_lt hpos).trans hi
    rw [insertLoop, if_pos hc]
    obtain ⟨hord, hsame⟩ := ih (by rw [swap_arr]; exact hready.move hpos hi hc.2) hp
    exact ⟨hord, hsame.trans (waiters_swap hi hp)⟩
  | case2 h i hc =>
    rw [insertLoop, if_neg hc]
    exact ⟨hready.done fun hpos => not_lt.mp fun hlt => hc ⟨hpos.ne', hlt⟩, rfl⟩

/-- **`insert` adds a waiter to a heap that is not full.** -/
theorem insert_ok (hord : h.Ordered wakeup_time_) (hlt : h.nwaiters_ < WAITNPROC) :
    ∃ h', h.insert wakeup_time_ w = some h' ∧ h'.Ordered wakeup_time_ ∧ h'.waiters = w ::ₘ h.waiters := by
  set h₁ : wait_heap W := ⟨h.nwaiters_ + 1, Function.update h.waiter_arr_ h.nwaiters_ w⟩
  have hold : ∀ j < h.nwaiters_, h₁.waiter_arr_ j = h.waiter_arr_ j := fun j hj =>
    Function.update_of_ne hj.ne _ _
  have hready : Heap.UpReady wakeup_time_ h₁.nwaiters_ h₁.waiter_arr_ h.nwaiters_ := by
    constructor
    · intro j hpos hj hne
      have hjn : j < h.nwaiters_ := by
        have : j < h.nwaiters_ + 1 := hj
        omega
      rw [hold j hjn, hold _ ((Heap.parent_lt hpos).trans hjn)]
      exact hord j hpos hjn
    · intro _ j hpos hj hpar
      -- the new position has no children
      have := Heap.parent_lt hpos
      have : j < h.nwaiters_ + 1 := hj
      omega
  obtain ⟨hord', hsame⟩ := insertLoop_ordered hready (Nat.lt_succ_self h.nwaiters_)
  exact ⟨_, if_pos hlt, hord', hsame.trans (Heap.contents_push _ _ _)⟩

/-- **`pop` takes a waiter that wakes up first.** -/
theorem pop_ok (hord : h.Ordered wakeup_time_) (hpos : 0 < h.nwaiters_) :
    ∃ hw h', h.pop wakeup_time_ = (some hw, h') ∧ h'.Ordered wakeup_time_ ∧ h.waiters = hw ::ₘ h'.waiters ∧
      ∀ v ∈ h.waiters, wakeup_time_ hw ≤ wakeup_time_ v := by
  have hleast : ∀ v ∈ h.waiters, wakeup_time_ (h.waiter_arr_ 0) ≤ wakeup_time_ v := by
    intro v hv
    obtain ⟨i, hi, rfl⟩ := Heap.mem_contents.mp hv
    exact hord.root_le hi
  unfold pop
  rw [if_neg hpos.ne']
  dsimp only
  by_cases hone : h.nwaiters_ = 1
  · rw [if_pos hone]
    refine ⟨_, _, rfl, fun j hj hjn => ?_, ?_, hleast⟩
    · have : j < h.nwaiters_ - 1 := hjn
      omega
    · unfold waiters
      rw [hone]
      exact Heap.contents_succ 0 h.waiter_arr_
  rw [if_neg hone]
  obtain ⟨n, hn⟩ : ∃ n, h.nwaiters_ = n + 2 := ⟨h.nwaiters_ - 2, by omega⟩
  have hlast : h.nwaiters_ - 1 = n + 1 := by omega
  rw [hlast]
  set h₁ : wait_heap W := ⟨n + 1, Function.update h.waiter_arr_ 0 (h.waiter_arr_ (n + 1))⟩
  have hold : ∀ j, 0 < j → h₁.waiter_arr_ j = h.waiter_arr_ j := fun j hj => Function.update_of_ne hj.ne' _ _
  have hready : Heap.DownReady wakeup_time_ h₁.nwaiters_ h₁.waiter_arr_ 0 := by
    constructor
    · intro j hj hjn hpar
      rw [hold j hj, hold _ (Nat.pos_of_ne_zero hpar)]
      have : j < n + 1 := hjn
      exact hord j hj (by omega)
    · intro hlt
      exact absurd hlt (Nat.lt_irrefl 0)
  obtain ⟨hord', hsame⟩ := heapify_ordered hready (Nat.succ_pos n)
  refine ⟨_, _, rfl, hord', ?_, hleast⟩
  rw [hsame]
  unfold waiters
  rw [hn]
  exact Heap.contents_pop (n + 1) h.waiter_arr_

end wait_heap

/-! ## `hwaiter::clear` -/

namespace hwaiter

variable {W : Type*} [DecidableEq W] (wakeup_time_ : W → ℕ) (this : W)

/-- The loop of `clear` that pops waiters into `temps` until it finds this one. -/
def popLoop (i : ℕ) (temps : List W) (wh_ : wait_heap W) : List W × wait_heap W :=
  -- the size is that of the heap as it is now
  if i < wh_.nwaiters_ then
    match _hpop : wh_.pop wakeup_time_ with
    | (none, wh_) => (temps, wh_)
    | (some hw, wh_) => if hw = this then (temps, wh_) else popLoop (i + 1) (temps ++ [hw]) wh_
  else (temps, wh_)
termination_by wh_.nwaiters_
decreasing_by
  have := wait_heap.pop_nwaiters _hpop
  omega

/-- `clear()` -/
def clear (wh_ : wait_heap W) : Option (wait_heap W) :=
  if wh_.is_on_heap this = true then
    let (temps, wh_) := popLoop wakeup_time_ this 0 [] wh_
    temps.foldlM (fun wh_ hw => wh_.insert wakeup_time_ hw) wh_
  else some wh_

end hwaiter

/-! ## What `clear` removes -/

namespace wait_heap

variable {W : Type*} [DecidableEq W] {wakeup_time_ : W → ℕ} {h h' : wait_heap W} {w : W}

/-- The first `k` waiters that `pop` takes. -/
def popped (wakeup_time_ : W → ℕ) : ℕ → wait_heap W → List W
  | 0, _ => []
  | k + 1, h =>
    match h.pop wakeup_time_ with
    | (none, _) => []
    | (some hw, h) => hw :: popped wakeup_time_ k h

omit [DecidableEq W] in
theorem popped_succ (k : ℕ) (hpop : h.pop wakeup_time_ = (some w, h')) :
    popped wakeup_time_ (k + 1) h = w :: popped wakeup_time_ k h' := by
  rw [popped, hpop]

/-- The heap is in order, within its array, and no waiter is on it twice. -/
structure Valid (wakeup_time_ : W → ℕ) (h : wait_heap W) : Prop where
  le : h.nwaiters_ ≤ WAITNPROC
  nodup : h.waiters.Nodup
  ordered : h.Ordered wakeup_time_

/-- `w` is gone, every other waiter is on the heap exactly once, and the heap is in order. -/
structure Cleared (wakeup_time_ : W → ℕ) (w : W) (h h' : wait_heap W) : Prop where
  gone : w ∉ h'.waiters
  once : ∀ v ∈ h.waiters, v ≠ w → h'.waiters.count v = 1
  no_other : ∀ v ∈ h'.waiters, v ∈ h.waiters
  ordered : h'.Ordered wakeup_time_

theorem is_on_heap_iff : h.is_on_heap w = true ↔ w ∈ h.waiters := by
  unfold is_on_heap waiters
  rw [List.any_eq_true, Heap.mem_contents]
  simp

omit [DecidableEq W] in
/-- The waiters of a list are put back. -/
theorem insert_all (l : List W) (hord : h.Ordered wakeup_time_) (hle : h.nwaiters_ + l.length ≤ WAITNPROC) :
    ∃ h', l.foldlM (fun wh_ hw => wh_.insert wakeup_time_ hw) h = some h' ∧ h'.Ordered wakeup_time_ ∧
      h'.waiters = l + h.waiters := by
  induction l generalizing h with
  | nil => exact ⟨h, rfl, hord, by simp⟩
  | cons w l ih =>
    rw [List.length_cons] at hle
    obtain ⟨h₁, hins, hord₁, hw₁⟩ := insert_ok (w := w) hord (by omega)
    have hn₁ : h₁.nwaiters_ = h.nwaiters_ + 1 := by
      rw [← card_waiters, hw₁, Multiset.card_cons, card_waiters]
    obtain ⟨h', hrest, hord', hw'⟩ := ih hord₁ (by omega)
    refine ⟨h', ?_, hord', ?_⟩
    · rw [List.foldlM_cons, hins]
      exact hrest
    · rw [hw', hw₁, ← Multiset.cons_coe, Multiset.cons_add, Multiset.add_cons]

/-- How often the loop of `clear` pops: its counter and the size of the heap meet halfway. -/
def turns (n i : ℕ) : ℕ := (n - i + 1) / 2

/-- **What the loop of `clear` does**: it finds the waiter among those that it looks at, or it takes them all. -/
theorem popLoop_ok (hord : h.Ordered wakeup_time_) (i : ℕ) (temps : List W) :
    ∃ l h', hwaiter.popLoop wakeup_time_ w i temps h = (temps ++ l, h') ∧ h'.Ordered wakeup_time_ ∧
      (w ∈ popped wakeup_time_ (turns h.nwaiters_ i) h → h.waiters = w ::ₘ (l + h'.waiters)) ∧
      (w ∉ popped wakeup_time_ (turns h.nwaiters_ i) h → h.waiters = l + h'.waiters ∧ w ∉ l) := by
  induction hn : h.nwaiters_ generalizing h i temps with
  | zero =>
    refine ⟨[], h, ?_, hord, fun hmem => ?_, fun _ => ⟨by simp, List.not_mem_nil⟩⟩
    · rw [hwaiter.popLoop, if_neg (by omega), List.append_nil]
    · unfold turns popped at hmem
      simp at hmem
  | succ n ih =>
    by_cases hi : i < n + 1
    · obtain ⟨hw, h₁, hpop, hord₁, hw₁, -⟩ := pop_ok hord (by omega)
      have hn₁ : h₁.nwaiters_ = n := by
        have := pop_nwaiters hpop
        omega
      have hturns : turns (n + 1) i = turns n (i + 1) + 1 := by
        unfold turns
        omega
      have hloop : hwaiter.popLoop wakeup_time_ w i temps h =
          if hw = w then (temps, h₁) else hwaiter.popLoop wakeup_time_ w (i + 1) (temps ++ [hw]) h₁ := by
        rw [hwaiter.popLoop, if_pos (by omega)]
        split
        · next h₂ hnull => rw [hpop] at hnull; cases hnull
        · next hw₂ h₂ hsome =>
          rw [hpop] at hsome
          cases hsome
          rfl
      rw [hloop, hturns, popped_succ _ hpop]
      by_cases hthis : hw = w
      · subst hthis
        rw [if_pos rfl]
        refine ⟨[], h₁, by rw [List.append_nil], hord₁, fun _ => by simpa using hw₁, fun hno => ?_⟩
        exact absurd List.mem_cons_self hno
      · rw [if_neg hthis]
        obtain ⟨l, h', hrest, hord', hfound, hall⟩ := ih hord₁ (i + 1) (temps ++ [hw]) hn₁
        refine ⟨hw :: l, h', by rw [hrest, List.append_assoc]; rfl, hord', fun hmem => ?_, fun hno => ?_⟩
        · have hmem' := (List.mem_cons.mp hmem).resolve_left (Ne.symm hthis)
          rw [hw₁, hfound hmem', ← Multiset.cons_coe, Multiset.cons_add, Multiset.cons_swap]
        · obtain ⟨heq, hnot⟩ := hall fun hmem => hno (List.mem_cons_of_mem _ hmem)
          refine ⟨by rw [hw₁, heq, ← Multiset.cons_coe, Multiset.cons_add], fun hmem => ?_⟩
          rcases List.mem_cons.mp hmem with he | hmem
          · exact hthis he.symm
          · exact hnot hmem
    · -- the counter has met the size
      have hturns : turns (n + 1) i = 0 := by
        unfold turns
        omega
      refine ⟨[], h, ?_, hord, fun hmem => ?_, fun _ => ⟨by simp, List.not_mem_nil⟩⟩
      · rw [hwaiter.popLoop, if_neg (by omega), List.append_nil]
      · rw [hturns, popped] at hmem
        cases hmem

/-- **`clear` in both cases**: the waiter is gone, or every waiter is still on the heap. -/
theorem clear_ok (hv : h.Valid wakeup_time_) (w : W) :
    ∃ h', hwaiter.clear wakeup_time_ w h = some h' ∧ h'.Ordered wakeup_time_ ∧
      ((w ∈ h.waiters → w ∈ popped wakeup_time_ ((h.nwaiters_ + 1) / 2) h) → h'.waiters = h.waiters.erase w) ∧
      (w ∈ h.waiters → w ∉ popped wakeup_time_ ((h.nwaiters_ + 1) / 2) h → h'.waiters = h.waiters) := by
  unfold hwaiter.clear
  by_cases hon : w ∈ h.waiters
  · rw [if_pos (is_on_heap_iff.mpr hon)]
    obtain ⟨l, h₁, hloop, hord₁, hfound, hall⟩ := popLoop_ok (w := w) hv.ordered 0 []
    have hturns : turns h.nwaiters_ 0 = (h.nwaiters_ + 1) / 2 := rfl
    rw [hturns] at hfound hall
    rw [hloop, List.nil_append]
    have hcard : h₁.nwaiters_ + l.length ≤ WAITNPROC := by
      have hle : (l + h₁.waiters : Multiset W) ≤ h.waiters := by
        by_cases hmem : w ∈ popped wakeup_time_ ((h.nwaiters_ + 1) / 2) h
        · rw [hfound hmem]
          exact Multiset.le_cons_self _ _
        · exact (hall hmem).1.ge
      have hsize := Multiset.card_le_card hle
      rw [Multiset.card_add, Multiset.coe_card, card_waiters, card_waiters] at hsize
      have := hv.le
      omega
    obtain ⟨h', hins, hord', hw'⟩ := insert_all l hord₁ hcard
    refine ⟨h', hins, hord', fun hmem => ?_, fun _ hno => ?_⟩
    · rw [hw', hfound (hmem hon), Multiset.erase_cons_head]
    · rw [hw', (hall hno).1]
  · rw [if_neg fun hmem => hon (is_on_heap_iff.mp hmem)]
    exact ⟨h, rfl, hv.ordered, fun _ => (Multiset.erase_of_notMem hon).symm, fun hmem => absurd hmem hon⟩

/-- **With different wake-up times** `pop` takes `w` in turn: after the waiters that wake up before it. -/
theorem mem_popped_iff {k : ℕ} (hord : h.Ordered wakeup_time_) (hw : w ∈ h.waiters)
    (hne : ∀ u ∈ h.waiters, ∀ v ∈ h.waiters, wakeup_time_ u = wakeup_time_ v → u = v) :
    w ∈ popped wakeup_time_ k h ↔
      Multiset.card (h.waiters.filter fun v => wakeup_time_ v < wakeup_time_ w) < k := by
  induction k generalizing h with
  | zero => exact ⟨fun hmem => absurd hmem List.not_mem_nil, fun hlt => absurd hlt (Nat.not_lt_zero _)⟩
  | succ k ih =>
    have hpos : 0 < h.nwaiters_ := card_waiters h ▸ Multiset.card_pos_iff_exists_mem.mpr ⟨w, hw⟩
    obtain ⟨root, h₁, hpop, hord₁, hw₁, hleast⟩ := pop_ok hord hpos
    rw [popped_succ k hpop, hw₁]
    by_cases hroot : w = root
    · subst hroot
      have hnone : h₁.waiters.filter (fun v => wakeup_time_ v < wakeup_time_ w) = 0 := by
        refine Multiset.filter_eq_nil.mpr fun v hv hlt => ?_
        have hle := hleast v (by rw [hw₁]; exact Multiset.mem_cons_of_mem hv)
        omega
      rw [Multiset.filter_cons_of_neg (p := fun v => wakeup_time_ v < wakeup_time_ w) _ (lt_irrefl _), hnone,
        Multiset.card_zero]
      exact ⟨fun _ => Nat.succ_pos k, fun _ => List.mem_cons_self⟩
    · have hmem₁ : ∀ v ∈ h₁.waiters, v ∈ h.waiters := fun v hv => by
        rw [hw₁]
        exact Multiset.mem_cons_of_mem hv
      have hroot' : root ∈ h.waiters := by
        rw [hw₁]
        exact Multiset.mem_cons_self _ _
      have hearlier : wakeup_time_ root < wakeup_time_ w :=
        lt_of_le_of_ne (hleast w hw) fun he => hroot (hne root hroot' w hw he).symm
      have hw' : w ∈ h₁.waiters := (Multiset.mem_cons.mp (hw₁ ▸ hw)).resolve_left hroot
      rw [Multiset.filter_cons_of_pos (p := fun v => wakeup_time_ v < wakeup_time_ w) _ hearlier,
        Multiset.card_cons, Nat.succ_lt_succ_iff]
      rw [← ih hord₁ hw' fun u hu v hv => hne u (hmem₁ u hu) v (hmem₁ v hv)]
      exact ⟨fun hmem => (List.mem_cons.mp hmem).resolve_left hroot, List.mem_cons_of_mem _⟩

/--
**`clear` does what it is for if and only if** the waiter is not on the heap, or is among the first half of the
waiters that `pop` takes, rounded up.
-/
theorem clear_iff (hv : h.Valid wakeup_time_) (w : W) :
    (∃ h', hwaiter.clear wakeup_time_ w h = some h' ∧ Cleared wakeup_time_ w h h') ↔
      (w ∈ h.waiters → w ∈ popped wakeup_time_ ((h.nwaiters_ + 1) / 2) h) := by
  obtain ⟨h', hclear, hord, herase, hkept⟩ := clear_ok hv w
  constructor
  · rintro ⟨h₂, hclear₂, hcleared⟩ hon
    obtain rfl := Option.some.inj (hclear.symm.trans hclear₂)
    by_contra hno
    have hsame := hkept hon hno
    exact hcleared.gone (hsame ▸ hon)
  · intro hmem
    have hgone := herase hmem
    refine ⟨h', hclear, ?_, fun v hv' hne => ?_, fun v hv' => ?_, hord⟩
    · rw [hgone, Multiset.Nodup.mem_erase_iff hv.nodup]
      exact fun h => h.1 rfl
    · rw [hgone, Multiset.count_erase_of_ne hne]
      exact Multiset.count_eq_one_of_mem hv.nodup hv'
    · rw [hgone] at hv'
      exact Multiset.mem_of_mem_erase hv'

/-! ## A heap with two waiters -/

/-- The waiters 1 and 2, which wake up at ticks 1 and 2. -/
def twoWaiters : wait_heap ℕ := ⟨2, fun i => i + 1⟩

theorem twoWaiters_valid : twoWaiters.Valid id where
  le := by decide
  nodup := by decide
  ordered := by
    intro j hpos hj
    have : j < 2 := hj
    obtain rfl : j = 1 := by omega
    decide

/-- Half of two waiters is one, and `pop` takes the one that wakes up first. -/
theorem twoWaiters_popped : twoWaiters.popped id ((twoWaiters.nwaiters_ + 1) / 2) = [1] := rfl

theorem clear_iff_first :
    (∃ h', hwaiter.clear id 1 twoWaiters = some h' ∧ Cleared id 1 twoWaiters h') ↔
      (1 ∈ twoWaiters.waiters → 1 ∈ twoWaiters.popped id ((twoWaiters.nwaiters_ + 1) / 2)) :=
  clear_iff twoWaiters_valid 1

/-- **The waiter that wakes up last stays on the heap.** -/
theorem clear_fails : twoWaiters.Valid id ∧ 2 ∈ twoWaiters.waiters ∧
    ¬ ∃ h', hwaiter.clear id 2 twoWaiters = some h' ∧ Cleared id 2 twoWaiters h' := by
  have hon : 2 ∈ twoWaiters.waiters := by decide
  refine ⟨twoWaiters_valid, hon, ?_⟩
  rintro ⟨h', hclear, hcleared⟩
  obtain ⟨h₂, hclear₂, -, -, hkept⟩ := clear_ok twoWaiters_valid 2
  obtain rfl := Option.some.inj (hclear.symm.trans hclear₂)
  have hno : 2 ∉ twoWaiters.popped id ((twoWaiters.nwaiters_ + 1) / 2) := by
    rw [twoWaiters_popped]
    decide
  exact hcleared.gone ((hkept hon hno).symm ▸ hon)

end wait_heap

end Chickadee.Wait
