import Chickadee.Lib.Account

/-!
# Where a computation ends

`Ends s x Q`: if `x` returns when it starts in `s`, what it returns and the state in which it ends satisfy
`Q`. Nothing is said of a computation that stops with a fault. `Runs s x Q` says besides that it returns.
`Meets E s x Q` is the one or the other: it stops only with a fault of which `E` holds. `Keeps v x` says that
`x` leaves `v` of the state alone wherever it starts.
-/

namespace Chickadee.Lib

variable {σ ε α β : Type}

/-- If `x` returns from `s` it ends in `Q`. -/
def Ends (s : σ) (x : StateT σ (Except ε) α) (Q : α → σ → Prop) : Prop :=
  ∀ a s', x s = .ok (a, s') → Q a s'

namespace Ends

variable {s : σ} {x : StateT σ (Except ε) α} {f : α → StateT σ (Except ε) β} {P : α → σ → Prop}
  {Q : β → σ → Prop}

theorem pure {Q : α → σ → Prop} {a : α} (h : Q a s) : Ends s (Pure.pure a : StateT σ (Except ε) α) Q := by
  intro b s' hs
  cases hs
  exact h

theorem throw {Q : α → σ → Prop} {e : ε} : Ends s (MonadExcept.throw e : StateT σ (Except ε) α) Q := by
  intro b s' hs
  cases hs

/-- **One computation after another.** -/
theorem bind (hx : Ends s x P) (hf : ∀ a s₁, P a s₁ → Ends s₁ (f a) Q) : Ends s (x >>= f) Q := by
  intro b s' hs
  cases hx' : x s with
  | error e =>
    rw [bind_error hx'] at hs
    cases hs
  | ok r =>
    rw [bind_ok hx'] at hs
    exact hf r.1 r.2 (hx r.1 r.2 hx') b s' hs

theorem mono {Q : α → σ → Prop} (hx : Ends s x P) (himp : ∀ a s', P a s' → Q a s') : Ends s x Q := by
  intro a s' hs
  exact himp a s' (hx a s' hs)

theorem and {Q : α → σ → Prop} (hx : Ends s x P) (hx' : Ends s x Q) : Ends s x fun a s' => P a s' ∧ Q a s' :=
  fun a s' hs => ⟨hx a s' hs, hx' a s' hs⟩

/-- The state is only read. -/
theorem get {f : σ → StateT σ (Except ε) β} (hf : Ends s (f s) Q) : Ends s (MonadState.get >>= f) Q := hf

theorem modify {g : σ → σ} {Q : Unit → σ → Prop} (h : Q () (g s)) :
    Ends s (modify g : StateT σ (Except ε) Unit) Q := by
  intro a s' hs
  cases hs
  exact h

end Ends

/-- `x` returns from `s`, and it ends in `Q`. -/
def Runs (s : σ) (x : StateT σ (Except ε) α) (Q : α → σ → Prop) : Prop :=
  ∃ a s', x s = .ok (a, s') ∧ Q a s'

namespace Runs

variable {s : σ} {x : StateT σ (Except ε) α} {f : α → StateT σ (Except ε) β} {P : α → σ → Prop}
  {Q : β → σ → Prop}

theorem pure {Q : α → σ → Prop} {a : α} (h : Q a s) : Runs s (Pure.pure a : StateT σ (Except ε) α) Q :=
  ⟨a, s, rfl, h⟩

/-- **One computation after another.** -/
theorem bind (hx : Runs s x P) (hf : ∀ a s₁, P a s₁ → Runs s₁ (f a) Q) : Runs s (x >>= f) Q := by
  obtain ⟨a, s₁, hx, hP⟩ := hx
  obtain ⟨b, s', hfa, hQ⟩ := hf a s₁ hP
  exact ⟨b, s', (bind_ok hx).trans hfa, hQ⟩

theorem map (hx : Runs s x P) (g : α → β) : Runs s (g <$> x) fun b s' => ∃ a, b = g a ∧ P a s' := by
  rw [map_eq_pure_bind]
  exact hx.bind fun a s' hP => .pure ⟨a, rfl, hP⟩

theorem mono {Q : α → σ → Prop} (hx : Runs s x P) (himp : ∀ a s', P a s' → Q a s') : Runs s x Q := by
  obtain ⟨a, s', hx, hP⟩ := hx
  exact ⟨a, s', hx, himp a s' hP⟩

/-- The state is only read. -/
theorem get {f : σ → StateT σ (Except ε) β} (hf : Runs s (f s) Q) : Runs s (MonadState.get >>= f) Q := hf

theorem modify {g : σ → σ} {Q : Unit → σ → Prop} (h : Q () (g s)) :
    Runs s (modify g : StateT σ (Except ε) Unit) Q :=
  ⟨(), g s, rfl, h⟩

/-- What is known of the end, if there is one. -/
theorem and {Q : α → σ → Prop} (hx : Runs s x P) (hends : Ends s x Q) : Runs s x fun a s' => P a s' ∧ Q a s' := by
  obtain ⟨a, s', hx, hP⟩ := hx
  exact ⟨a, s', hx, hP, hends a s' hx⟩

/-- There is only one end. -/
theorem ends {Q : α → σ → Prop} (hx : Runs s x Q) : Ends s x Q := by
  obtain ⟨a, s₁, hx, hQ⟩ := hx
  intro b s' hs
  cases hx.symm.trans hs
  exact hQ

/-- A property of the one end. -/
theorem iff {Q : α → σ → Prop} {C : Prop} (hx : Runs s x fun a s' => Q a s' ↔ C) : Runs s x Q ↔ C := by
  constructor
  · intro hQ
    obtain ⟨a, s', -, hiff, hend⟩ := hx.and hQ.ends
    exact hiff.mp hend
  · intro hC
    exact hx.mono fun a s' hiff => hiff.mpr hC

/-- A run that is evaluated. -/
theorem of_map {γ : Type} {f : α × σ → γ} {c : γ} (h : (x s).toOption.map f = some c) :
    Runs s x fun a s' => f (a, s') = c := by
  cases hx : x s with
  | error e =>
    rw [hx] at h
    cases h
  | ok r =>
    rw [hx] at h
    exact ⟨r.1, r.2, hx, Option.some.inj h⟩

end Runs

/-- Where `x` returns, `v` of the state is what it was. -/
def Keeps {γ : Type} (v : σ → γ) (x : StateT σ (Except ε) α) : Prop := ∀ s, Ends s x fun _ s' => v s' = v s

namespace Keeps

variable {γ : Type} {v : σ → γ} {x : StateT σ (Except ε) α} {f : α → StateT σ (Except ε) β}

theorem pure {a : α} : Keeps v (Pure.pure a : StateT σ (Except ε) α) := fun _ => .pure rfl

theorem throw {e : ε} : Keeps v (MonadExcept.throw e : StateT σ (Except ε) α) := fun _ => .throw

/-- **One computation after another.** -/
theorem bind (hx : Keeps v x) (hf : ∀ a, Keeps v (f a)) : Keeps v (x >>= f) := by
  intro s
  refine (hx s).bind fun a s₁ h₁ => (hf a s₁).mono fun b s' h' => ?_
  rw [h', h₁]

/-- The state is only read. -/
theorem get {f : σ → StateT σ (Except ε) β} (hf : ∀ s, Keeps v (f s)) : Keeps v (MonadState.get >>= f) :=
  fun s => .get (hf s s)

theorem modify {g : σ → σ} (h : ∀ s, v (g s) = v s) : Keeps v (modify g : StateT σ (Except ε) Unit) :=
  fun s => .modify (h s)

end Keeps

/-- If `x` returns from `s` it ends in `Q`, and if it stops with a fault then `E` holds of it. -/
def Meets (E : ε → Prop) (s : σ) (x : StateT σ (Except ε) α) (Q : α → σ → Prop) : Prop :=
  (∃ a s', x s = .ok (a, s') ∧ Q a s') ∨ ∃ e, x s = .error e ∧ E e

namespace Meets

variable {E : ε → Prop} {s : σ} {x : StateT σ (Except ε) α} {f : α → StateT σ (Except ε) β} {P : α → σ → Prop}
  {Q : β → σ → Prop}

theorem of_runs {Q : α → σ → Prop} (h : Runs s x Q) : Meets E s x Q := .inl h

theorem runs {Q : α → σ → Prop} (h : Meets (fun _ => False) s x Q) : Runs s x Q :=
  h.resolve_right fun ⟨_, _, hf⟩ => hf

theorem of_ends {Q : α → σ → Prop} (h : Ends s x Q) : Meets (fun _ => True) s x Q := by
  cases hx : x s with
  | ok r => exact .inl ⟨r.1, r.2, hx, h _ _ hx⟩
  | error e => exact .inr ⟨e, hx, trivial⟩

theorem ends {Q : α → σ → Prop} (h : Meets E s x Q) : Ends s x Q := by
  rcases h with h | ⟨e, he, -⟩
  · exact Runs.ends h
  · intro a s' hs
    cases he.symm.trans hs

/-- The fault with which it stops. -/
theorem fault {Q : α → σ → Prop} {e : ε} (h : Meets E s x Q) (he : x s = .error e) : E e := by
  rcases h with ⟨a, s', hx, -⟩ | ⟨e', hx, hE⟩
  · cases hx.symm.trans he
  · cases hx.symm.trans he
    exact hE

theorem imp {E' : ε → Prop} {Q : α → σ → Prop} (h : Meets E s x Q) (hE : ∀ e, E e → E' e) : Meets E' s x Q :=
  h.imp_right fun ⟨e, he, hf⟩ => ⟨e, he, hE e hf⟩

theorem pure {Q : α → σ → Prop} {a : α} (h : Q a s) :
    Meets E s (Pure.pure a : StateT σ (Except ε) α) Q :=
  of_runs (.pure h)

theorem throw {Q : α → σ → Prop} {e : ε} (h : E e) :
    Meets E s (MonadExcept.throw e : StateT σ (Except ε) α) Q :=
  .inr ⟨e, rfl, h⟩

/-- **One computation after another.** -/
theorem bind (hx : Meets E s x P) (hf : ∀ a s₁, P a s₁ → Meets E s₁ (f a) Q) : Meets E s (x >>= f) Q := by
  rcases hx with ⟨a, s₁, hx, hP⟩ | ⟨e, he, hE⟩
  · rcases hf a s₁ hP with ⟨b, s', hfa, hQ⟩ | ⟨e, he, hE⟩
    · exact .inl ⟨b, s', (bind_ok hx).trans hfa, hQ⟩
    · exact .inr ⟨e, (bind_ok hx).trans he, hE⟩
  · exact .inr ⟨e, bind_error he, hE⟩

/-- The first computation returns. -/
theorem run_bind (hx : Runs s x P) (hf : ∀ a s₁, P a s₁ → Meets E s₁ (f a) Q) : Meets E s (x >>= f) Q :=
  (of_runs hx).bind hf

theorem mono {Q : α → σ → Prop} (hx : Meets E s x P) (himp : ∀ a s', P a s' → Q a s') : Meets E s x Q := by
  rcases hx with ⟨a, s', hx, hP⟩ | hE
  · exact .inl ⟨a, s', hx, himp a s' hP⟩
  · exact .inr hE

/-- The state is only read. -/
theorem get {f : σ → StateT σ (Except ε) β} (hf : Meets E s (f s) Q) : Meets E s (MonadState.get >>= f) Q := hf

end Meets

/-- The fault of a computation that stops. -/
def fault : Except ε α → Option ε
  | .ok _ => none
  | .error e => some e

end Chickadee.Lib
