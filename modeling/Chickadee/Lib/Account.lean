import Mathlib.Data.Multiset.Count
import Mathlib.Algebra.Order.Group.Multiset

/-!
# What a computation spends and what it gains

A computation runs on a state and returns a value with the next state, or stops with a fault. A ledger
reads a state as a count of tokens of each kind, such as the references to an object or the holders of a
lock, and says which faults must not happen.

A computation *moves* `pre` to `own`: a caller who owns the tokens `pre` owns `own a` when it returns `a`,
and every other token is as before. So a loop, a call or an early return is checked on its own, and what
the caller owns besides is a frame.
-/

namespace Chickadee.Lib

variable {σ ε κ α β : Type} [DecidableEq κ]

/-- The tokens in a state, and the faults that must not happen. -/
structure Ledger (σ ε κ : Type) where
  count : σ → κ → ℕ
  bad : ε → Prop

/-- The rest of a computation starts where its first part ends. -/
theorem bind_ok {s s₁ : σ} {x : StateT σ (Except ε) α} {f : α → StateT σ (Except ε) β} {a : α}
    (h : x s = .ok (a, s₁)) : (x >>= f) s = f a s₁ := by
  show (x s >>= fun r => f r.1 r.2 : Except ε (β × σ)) = _
  rw [h]
  rfl

theorem bind_error {s : σ} {x : StateT σ (Except ε) α} {f : α → StateT σ (Except ε) β} {e : ε}
    (h : x s = .error e) : (x >>= f) s = .error e := by
  show (x s >>= fun r => f r.1 r.2 : Except ε (β × σ)) = _
  rw [h]
  rfl

namespace Ledger

variable {L : Ledger σ ε κ}

/-- The tokens `pre` are there. -/
def Has (L : Ledger σ ε κ) (s : σ) (pre : Multiset κ) : Prop := ∀ k, pre.count k ≤ L.count s k

/-- From `s` to `s'` the tokens `pre` were spent and the tokens `m` were gained. -/
structure Change (L : Ledger σ ε κ) (s s' : σ) (pre m : Multiset κ) : Prop where
  count : ∀ k, L.count s' k + pre.count k = L.count s k + m.count k

/-- What `x` does to the tokens when it starts in `s`. -/
def At (L : Ledger σ ε κ) (s : σ) (pre : Multiset κ) (x : StateT σ (Except ε) α)
    (post : α → Multiset κ → Prop) : Prop :=
  L.Has s pre → match x s with
    | .ok (a, s') => ∃ m, post a m ∧ L.Change s s' pre m
    | .error e => ¬ L.bad e

/-- A caller who owns `pre` owns `own a` after `x` has returned `a`. -/
def Moves (L : Ledger σ ε κ) (pre : Multiset κ) (x : StateT σ (Except ε) α) (own : α → Multiset κ) :
    Prop :=
  ∀ s, L.At s pre x fun a m => m = own a

/-! ## Counting -/

theorem Change.refl (s : σ) (pre : Multiset κ) : L.Change s s pre pre := ⟨fun _ => rfl⟩

theorem Change.trans {s s₁ s₂ : σ} {pre m n : Multiset κ} (h : L.Change s s₁ pre m)
    (h₁ : L.Change s₁ s₂ m n) : L.Change s s₂ pre n := by
  refine ⟨fun k => ?_⟩
  have := h.count k
  have := h₁.count k
  omega

theorem Change.has {s s' : σ} {pre m : Multiset κ} (h : L.Change s s' pre m) (hpre : L.Has s pre) :
    L.Has s' m := by
  intro k
  have := h.count k
  have := hpre k
  omega

theorem Change.frame {s s' : σ} {pre m : Multiset κ} (h : L.Change s s' pre m) (R : Multiset κ) :
    L.Change s s' (pre + R) (m + R) := by
  refine ⟨fun k => ?_⟩
  have := h.count k
  simp only [Multiset.count_add]
  omega

theorem Has.of_add {s : σ} {pre R : Multiset κ} (h : L.Has s (pre + R)) : L.Has s pre := by
  intro k
  have := h k
  rw [Multiset.count_add] at this
  omega

/-! ## From a known state -/

theorem At.mono {s : σ} {pre : Multiset κ} {x : StateT σ (Except ε) α} {post post' : α → Multiset κ → Prop}
    (h : L.At s pre x post) (himp : ∀ a m, post a m → post' a m) : L.At s pre x post' := by
  intro hpre
  have := h hpre
  revert this
  cases x s with
  | error e => exact id
  | ok r => exact fun ⟨m, hm, hc⟩ => ⟨m, himp _ _ hm, hc⟩

theorem At.frame {s : σ} {pre : Multiset κ} {x : StateT σ (Except ε) α} {post : α → Multiset κ → Prop}
    (h : L.At s pre x post) (R : Multiset κ) :
    L.At s (pre + R) x fun a m => ∃ m', post a m' ∧ m = m' + R := by
  intro hpre
  have := h hpre.of_add
  revert this
  cases x s with
  | error e => exact id
  | ok r => exact fun ⟨m, hm, hc⟩ => ⟨m + R, ⟨m, hm, rfl⟩, hc.frame R⟩

/-- What the caller owns besides is kept. -/
theorem At.keep {s : σ} {x : StateT σ (Except ε) α} {post : α → Multiset κ → Prop}
    (h : L.At s 0 x post) (R : Multiset κ) :
    L.At s R x fun a m => ∃ m', post a m' ∧ m = m' + R := by
  have := h.frame R
  rwa [zero_add] at this

/-- **One computation after another**: the second one starts in the state in which the first one ends. -/
theorem At.bind {s : σ} {pre : Multiset κ} {x : StateT σ (Except ε) α} {f : α → StateT σ (Except ε) β}
    {mid : α → Multiset κ → Prop} {post : β → Multiset κ → Prop} (hx : L.At s pre x mid)
    (hf : ∀ a s₁ m, x s = .ok (a, s₁) → mid a m → L.At s₁ m (f a) post) :
    L.At s pre (x >>= f) post := by
  intro hpre
  have hx := hx hpre
  show match (x s >>= fun r => f r.1 r.2 : Except ε (β × σ)) with
    | .ok (a, s') => ∃ m, post a m ∧ L.Change s s' pre m
    | .error e => ¬ L.bad e
  cases hs : x s with
  | error e =>
    rw [hs] at hx
    exact hx
  | ok r =>
    obtain ⟨a, s₁⟩ := r
    rw [hs] at hx
    obtain ⟨m, hm, hc⟩ := hx
    have h₁ := hf a s₁ m hs hm (hc.has hpre)
    show match f a s₁ with
      | .ok (a, s') => ∃ m, post a m ∧ L.Change s s' pre m
      | .error e => ¬ L.bad e
    revert h₁
    cases f a s₁ with
    | error e => exact id
    | ok r => exact fun ⟨n, hn, hc₁⟩ => ⟨n, hn, hc.trans hc₁⟩

theorem At.pure {s : σ} {m : Multiset κ} {a : α} {post : α → Multiset κ → Prop} (h : post a m) :
    L.At s m (Pure.pure a) post :=
  fun _ => ⟨m, h, .refl s m⟩

theorem At.throw {s : σ} {pre : Multiset κ} {e : ε} {post : α → Multiset κ → Prop} (he : ¬ L.bad e) :
    L.At s pre (MonadExcept.throw e) post :=
  fun _ => he

/-! ## From any state -/

theorem Moves.at {pre : Multiset κ} {x : StateT σ (Except ε) α} {own : α → Multiset κ}
    (h : L.Moves pre x own) (R : Multiset κ) (s : σ) :
    L.At s (pre + R) x fun a m => m = own a + R :=
  ((h s).frame R).mono fun _ _ ⟨_, hm, hR⟩ => by rw [hR, hm]

theorem Moves.frame {pre : Multiset κ} {x : StateT σ (Except ε) α} {own : α → Multiset κ}
    (h : L.Moves pre x own) (R : Multiset κ) : L.Moves (pre + R) x fun a => own a + R :=
  fun s => h.at R s

theorem Moves.pure {pre : Multiset κ} {a : α} {own : α → Multiset κ} (h : pre = own a) :
    L.Moves pre (Pure.pure a) own :=
  fun _ => .pure h

theorem Moves.throw {pre : Multiset κ} {e : ε} {own : α → Multiset κ} (he : ¬ L.bad e) :
    L.Moves pre (MonadExcept.throw e) own :=
  fun _ => .throw he

theorem Moves.bind {pre : Multiset κ} {x : StateT σ (Except ε) α} {f : α → StateT σ (Except ε) β}
    {mid : α → Multiset κ} {own : β → Multiset κ} (hx : L.Moves pre x mid)
    (hf : ∀ a, L.Moves (mid a) (f a) own) : L.Moves pre (x >>= f) own :=
  fun s => (hx s).bind fun a s₁ _ _ hm => hm ▸ hf a s₁

/-- A computation that needs only a part of what its caller owns. -/
theorem Moves.call {P pre R : Multiset κ} {x : StateT σ (Except ε) α} {f : α → StateT σ (Except ε) β}
    {mid : α → Multiset κ} {own : β → Multiset κ} (hx : L.Moves pre x mid) (hP : P = pre + R)
    (hf : ∀ a, L.Moves (mid a + R) (f a) own) : L.Moves P (x >>= f) own := by
  rw [hP]
  exact (hx.frame R).bind hf

/-- A computation that needs nothing and gains nothing. -/
theorem Moves.skip {P : Multiset κ} {x : StateT σ (Except ε) α} {f : α → StateT σ (Except ε) β}
    {own : β → Multiset κ} (hx : L.Moves 0 x fun _ => 0) (hf : ∀ a, L.Moves P (f a) own) :
    L.Moves P (x >>= f) own :=
  hx.call (zero_add P).symm fun a => (zero_add P).symm ▸ hf a

theorem Moves.congr {pre pre' : Multiset κ} {x : StateT σ (Except ε) α} {own own' : α → Multiset κ}
    (h : L.Moves pre x own) (hpre : pre' = pre) (hown : ∀ a, own a = own' a) : L.Moves pre' x own' := by
  rw [hpre, ← funext hown]
  exact h

/-- The same from a known state: the rest starts in a state that the computation reaches. -/
theorem At.call {s : σ} {P pre R : Multiset κ} {x : StateT σ (Except ε) α} {f : α → StateT σ (Except ε) β}
    {mid : α → Multiset κ} {post : β → Multiset κ → Prop} (hx : L.Moves pre x mid) (hP : P = pre + R)
    (hf : ∀ a s₁, x s = .ok (a, s₁) → L.At s₁ (mid a + R) (f a) post) : L.At s P (x >>= f) post := by
  rw [hP]
  exact (hx.at R s).bind fun a s₁ _ hs hm => hm ▸ hf a s₁ hs

theorem At.skip {s : σ} {P : Multiset κ} {x : StateT σ (Except ε) α} {f : α → StateT σ (Except ε) β}
    {post : β → Multiset κ → Prop} (hx : L.Moves 0 x fun _ => 0)
    (hf : ∀ a s₁, x s = .ok (a, s₁) → L.At s₁ P (f a) post) : L.At s P (x >>= f) post :=
  .call hx (zero_add P).symm fun a s₁ hs => (zero_add P).symm ▸ hf a s₁ hs

theorem At.get {s : σ} {P : Multiset κ} {f : σ → StateT σ (Except ε) β} {post : β → Multiset κ → Prop}
    (hf : L.At s P (f s) post) : L.At s P (MonadState.get >>= f) post :=
  hf

/-- The state is only read. -/
theorem Moves.get {P : Multiset κ} {f : σ → StateT σ (Except ε) β} {own : β → Multiset κ}
    (hf : ∀ s, L.Moves P (f s) own) : L.Moves P (MonadState.get >>= f) own :=
  fun s => hf s s

end Ledger

end Chickadee.Lib
