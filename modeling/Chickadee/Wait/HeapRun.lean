import Chickadee.Lib.Run
import Chickadee.Wait.Heap

/-!
# Runs of `wait_heap`

Waiters are inserted and popped in any order, as long as no more than `WAITNPROC` of them are on the heap at
once. Wake-up times may be equal, and a waiter may be on the heap twice.
-/

namespace Chickadee.Wait

open Lib

/-- A call of `insert`, or a call of `pop` with what it returns. -/
inductive HeapCall (W : Type*)
  | insert (hw : W)
  | pop (root : Option W)
  deriving DecidableEq

namespace wait_heap

variable {W : Type*} {wakeup_time_ : W → ℕ} {h h' : wait_heap W} {w : W}

/-- A heap as its constructor leaves it. -/
def Empty (h : wait_heap W) : Prop := h.nwaiters_ = 0

/-- A call under the lock of the heap. The assertion of `insert` holds. -/
def Calls (wakeup_time_ : W → ℕ) (h : wait_heap W) : HeapCall W → wait_heap W → Prop
  | .insert hw, h' => h.insert wakeup_time_ hw = some h'
  | .pop root, h' => h.pop wakeup_time_ = (root, h')

/-- The heaps that calls lead to. -/
abbrev Reachable (wakeup_time_ : W → ℕ) : wait_heap W → Prop :=
  Reach Empty (Calls wakeup_time_) fun _ _ => True

/-- What a call is for. -/
def Served (wakeup_time_ : W → ℕ) (h : wait_heap W) : HeapCall W → wait_heap W → Prop
  | .insert hw, h' => h'.waiters = hw ::ₘ h.waiters
  | .pop none, h' => h.waiters = 0 ∧ h' = h
  | .pop (some hw), h' =>
    h.waiters = hw ::ₘ h'.waiters ∧ ∀ v ∈ h.waiters, wakeup_time_ hw ≤ wakeup_time_ v

/-- A heap in order, within its array. -/
structure Fits (wakeup_time_ : W → ℕ) (h : wait_heap W) : Prop where
  le : h.nwaiters_ ≤ WAITNPROC
  ordered : h.Ordered wakeup_time_

theorem Empty.fits (h₀ : h.Empty) : h.Fits wakeup_time_ := by
  unfold Empty at h₀
  refine ⟨by simp [h₀], ?_⟩
  intro j _ hj
  simp [h₀] at hj

theorem Empty.waiters_eq (h₀ : h.Empty) : h.waiters = 0 := by
  unfold Empty at h₀
  simp [waiters, Heap.contents, h₀]

/-- A heap that is full takes no waiter. -/
theorem lt_of_insert (hins : h.insert wakeup_time_ w = some h') : h.nwaiters_ < WAITNPROC := by
  by_contra hfull
  simp [insert, hfull] at hins

/-- `pop` of an empty heap. -/
theorem pop_empty (h₀ : h.nwaiters_ = 0) : h.pop wakeup_time_ = (none, h) := by
  simp [pop, h₀]

/-- **One call**: it serves its purpose and leaves the heap in order. -/
theorem Fits.call (hfits : h.Fits wakeup_time_) {c : HeapCall W} (hcall : Calls wakeup_time_ h c h') :
    h'.Fits wakeup_time_ ∧ Served wakeup_time_ h c h' := by
  cases c with
  | insert hw =>
    have hlt : h.nwaiters_ < WAITNPROC := lt_of_insert hcall
    obtain ⟨h₁, hins, hord, hw₁⟩ := insert_ok (w := hw) hfits.ordered hlt
    obtain rfl := Option.some.inj (hins.symm.trans hcall)
    have hn : h₁.nwaiters_ = h.nwaiters_ + 1 := by
      rw [← card_waiters, hw₁, Multiset.card_cons, card_waiters]
    exact ⟨⟨by omega, hord⟩, hw₁⟩
  | pop root =>
    rcases Nat.eq_zero_or_pos h.nwaiters_ with hzero | hpos
    · have hnone := (pop_empty hzero).symm.trans hcall
      simp only [Prod.mk.injEq] at hnone
      obtain ⟨rfl, rfl⟩ := hnone
      exact ⟨hfits, Empty.waiters_eq hzero, rfl⟩
    · obtain ⟨hw, h₁, hpop, hord, hw₁, hleast⟩ := pop_ok hfits.ordered hpos
      have hsome := hpop.symm.trans hcall
      simp only [Prod.mk.injEq] at hsome
      obtain ⟨rfl, rfl⟩ := hsome
      have hn := pop_nwaiters hpop
      have hle := hfits.le
      exact ⟨⟨by omega, hord⟩, hw₁, hleast⟩

theorem Reachable.fits (hreach : Reachable wakeup_time_ h) : h.Fits wakeup_time_ :=
  Reach.invariant (fun _ h₀ => h₀.fits) (fun _ _ _ hfits _ hcall => (hfits.call hcall).1) hreach

/--
**After every sequence of calls the heap is in order, and every further call serves its purpose.** With room in
the array `insert` does not fail.
-/
theorem heap_serves (hreach : Reachable wakeup_time_ h) :
    h.Fits wakeup_time_ ∧
      (∀ hw, h.nwaiters_ < WAITNPROC → ∃ h', Calls wakeup_time_ h (.insert hw) h') ∧
      ∀ c h', Calls wakeup_time_ h c h' → Served wakeup_time_ h c h' := by
  have hfits := hreach.fits
  refine ⟨hfits, fun hw hlt => ?_, fun c h' hcall => (hfits.call hcall).2⟩
  obtain ⟨h', hins, -⟩ := insert_ok (w := hw) hfits.ordered hlt
  exact ⟨h', hins⟩

/-- Two waiters with one wake-up time. -/
theorem heap_serves_equal : ∃ h : wait_heap ℕ, h.waiters = {7, 8} ∧ h.Fits (fun _ => 5) ∧
    (∀ hw, h.nwaiters_ < WAITNPROC → ∃ h', Calls (fun _ => 5) h (.insert hw) h') ∧
      ∀ c h', Calls (fun _ => 5) h c h' → Served (fun _ => 5) h c h' := by
  have h₀ : Reachable (fun _ => 5) (⟨0, fun _ => 0⟩ : wait_heap ℕ) := .init rfl
  obtain ⟨-, hroom, hserved⟩ := heap_serves h₀
  obtain ⟨h₁, hcall₁⟩ := hroom 8 (by decide)
  have hw₁ : h₁.waiters = {8} := hserved _ _ hcall₁
  have hreach₁ : Reachable (fun _ => 5) h₁ := .step h₀ trivial hcall₁
  have hn₁ : h₁.nwaiters_ = 1 := by rw [← card_waiters, hw₁, Multiset.card_singleton]
  obtain ⟨-, hroom₁, hserved₁⟩ := heap_serves hreach₁
  obtain ⟨h₂, hcall₂⟩ := hroom₁ 7 (by rw [hn₁]; decide)
  have hw₂ : h₂.waiters = 7 ::ₘ {8} := hw₁ ▸ hserved₁ _ _ hcall₂
  exact ⟨h₂, hw₂, heap_serves (.step hreach₁ trivial hcall₂)⟩

end wait_heap

end Chickadee.Wait
