import Chickadee.Uds.Socket
import Chickadee.Lib.Literals

/-!
# One client at a time

`connect` tests `client_` before it sleeps and not afterwards, and `uds::read` follows `client_` without
a test. Apart from these two the socket is sound: it has a server as long as it listens, and `client_`
changes only by the `connect` and the `disconnect` of that client.
-/

namespace Chickadee.Uds

open Lib
open Fd (MAX_FD)

set_option linter.unusedSectionVars false

variable {P G V : Type} [DecidableEq P] [DecidableEq G] [DecidableEq V]

variable {thgrp_ : P → G} {s s' : State P G V} {p q : P} {fd t u : ℕ} {vn : V}

/-! ## The base invariant -/

/-- Nobody is between the two sections of `uds::read`. -/
theorem Base.unlocked (h : Base s) (hlock : s.lock = none) (fd : ℕ) (vn : V) :
    s.pc p ≠ .installing fd vn := fun hp => by
  have := (h.installing p fd vn hp).1
  rw [hlock] at this
  cases this

theorem Base.accepted (h : Base s) (hlock : s.lock = none) : Base (s.accepted p t u) := by
  unfold State.accepted
  split
  · exact h.ret (h.unlocked hlock) _
  · split <;> exact h.ret (h.unlocked hlock) _

theorem Base.accept (h : Base s) (hlock : s.lock = none) : Base (s.accept p) := by
  unfold State.accept
  split
  · exact h.ret (h.unlocked hlock) _
  · next hlisten =>
    have hlisten : s.listening_ = true := by simpa using hlisten
    have hnew : Base { s with accepting_ := true, fault := s.fault || s.server_.isNone } :=
      ⟨h.server, fun _ => hlisten, h.full, h.reads, h.installing, h.lock, h.writing⟩
    dsimp only
    split
    · exact hnew.accepted hlock
    · exact hnew.move (p := p) (x := .accepting s.ticks) rfl (h.unlocked hlock) (by simp) (by simp)
        (fun hr => by cases hr) rfl rfl hnew.server hnew.accepting hnew.full fun _ => ⟨rfl, rfl⟩

theorem Base.connectEnd (h : Base s) (hlock : s.lock = none) : Base (s.connectEnd p t u) := by
  unfold State.connectEnd
  split
  · exact h.ret (h.unlocked hlock) _
  · split
    · exact h.ret (h.unlocked hlock) _
    · obtain ⟨h₁, h₂, h₃, h₄, h₅, h₆, h₇⟩ := h.ret (h.unlocked (p := p) hlock) .ok
      exact ⟨h₁, h₂, h₃, h₄, h₅, h₆, h₇⟩

theorem Base.connect (h : Base s) (hlock : s.lock = none) : Base (s.connect p) := by
  unfold State.connect
  split
  · exact h.ret (h.unlocked hlock) _
  · split
    · exact h.ret (h.unlocked hlock) _
    · split
      · exact h.connectEnd hlock
      · exact h.move (p := p) (x := .connecting s.ticks) rfl (h.unlocked hlock) (by simp) (by simp)
          (fun hr => by cases hr) rfl rfl h.server h.accepting h.full fun _ => ⟨rfl, rfl⟩

theorem Base.close (h : Base s) (hlock : s.lock = none) (hp : s.pc p = .user) :
    Base (s.close p) := by
  unfold State.close
  split
  · next hserver =>
    -- the server is not in `uds::read`, and nobody else can be
    have hreads : ∀ q, (s.pc q).reads = true → False := fun q hq => by
      have hqs := h.reads q hq
      rw [hserver] at hqs
      rw [← Option.some.inj hqs, hp] at hq
      cases hq
    have hret := h.ret (h.unlocked (p := p) hlock) .ok
    refine ⟨by simp, by simp, hret.full, fun q hq => ?_, hret.installing, hret.lock, hret.writing⟩
    by_cases hqp : q = p
    · simp [hqp, State.ret, Pc.reads] at hq
    · exact (hreads q (by simpa [State.ret, Function.update_of_ne hqp] using hq)).elim
  · split
    · obtain ⟨h₁, h₂, h₃, h₄, h₅, h₆, h₇⟩ := h.ret (h.unlocked (p := p) hlock) .ok
      exact ⟨h₁, h₂, h₃, h₄, h₅, h₆, h₇⟩
    · exact h.ret (h.unlocked hlock) _

theorem Base.writeEnd (h : Base s) (hlock : s.lock = none) :
    Base (s.writeEnd thgrp_ p fd t u) := by
  unfold State.writeEnd
  split
  · exact h.ret (h.unlocked hlock) _
  · split
    · exact h.move (p := p) (x := .user) rfl (h.unlocked hlock) (by simp) (by simp)
        (fun hr => by cases hr) rfl rfl h.server h.accepting (fun hr => by cases hr)
        fun hl => absurd hlock hl
    · exact h.move (p := p) (x := .user) rfl (h.unlocked hlock) (by simp) (by simp)
        (fun hr => by cases hr) rfl rfl h.server h.accepting (fun _ => by simp)
        fun hl => absurd hlock hl

/-- `uds::write` never sleeps: it waits until the mailbox is full, and only when it is. -/
theorem write_eq : s.write thgrp_ p fd =
    if !s.accepting_ || !s.connected then s.ret p .E_BADCONN
    else s.writeEnd thgrp_ p fd s.ticks s.ticks := by
  unfold State.write State.writeReady
  cases s.received_ <;> simp

theorem Base.write (h : Base s) (hlock : s.lock = none) : Base (s.write thgrp_ p fd) := by
  rw [write_eq]
  split
  · exact h.ret (h.unlocked hlock) _
  · exact h.writeEnd hlock

theorem Base.readEnd (h : Base s) (hlock : s.lock = none) (hp : (s.pc p).reads = true) :
    Base (s.readEnd thgrp_ p t u) := by
  have hfault : Base { s with fault := true } :=
    ⟨h.server, h.accepting, h.full, h.reads, h.installing, h.lock, h.writing⟩
  unfold State.readEnd
  split
  · exact h.ret (h.unlocked hlock) _
  · split
    · exact h.move (p := p) (x := .user) rfl (h.unlocked hlock) (by simp) (by simp)
        (fun hr => by cases hr) rfl rfl h.server h.accepting (fun hr => by cases hr)
        fun hl => absurd hlock hl
    · split
      · next hreceived =>
        split
        · next c fd hclient hfd =>
          split
          · exact h.move (p := p) (x := .user) rfl (h.unlocked hlock) (by simp) (by simp)
              (fun hr => by cases hr) rfl rfl h.server h.accepting (fun hr => by cases hr)
              fun hl => absurd hlock hl
          · next vn hvn =>
            refine ⟨h.server, h.accepting, h.full, fun q hq => ?_, fun q fd' vn' hq => ?_,
              fun q hq => ?_, fun q fd' t hq => ?_⟩ <;> by_cases hqp : q = p
            · exact hqp ▸ h.reads p hp
            · exact h.reads q (by simpa [State.goto, Function.update_of_ne hqp] using hq)
            · subst hqp
              simp only [State.goto, Function.update_self, Pc.installing.injEq] at hq
              have hfull : s.received_ = false := by simpa using hreceived
              exact ⟨rfl, hfull, hq.1 ▸ hfd⟩
            · exact absurd (by simpa [State.goto, Function.update_of_ne hqp] using hq)
                (h.unlocked hlock fd' vn')
            · exact ⟨fd, vn, by simp [State.goto, hqp]⟩
            · exact absurd (Option.some.inj hq).symm hqp
            · simp [State.goto, hqp] at hq
            · exact h.writing q fd' t (by simpa [State.goto, Function.update_of_ne hqp] using hq)
        · exact hfault
      · exact hfault

theorem Base.read (h : Base s) (hlock : s.lock = none) (hp : s.pc p = .entering) :
    Base (s.read thgrp_ p) := by
  unfold State.read
  split
  · exact h.ret (h.unlocked hlock) _
  · split
    · exact h.move (p := p) (x := .reading s.ticks) rfl (h.unlocked hlock) (by simp) (by simp)
        (fun _ => h.reads p (by rw [hp]; rfl)) rfl rfl h.server h.accepting h.full
        fun _ => ⟨rfl, rfl⟩
    · exact h.readEnd hlock (by rw [hp]; rfl)

/-- The lock is given back. -/
theorem Base.unlock (h : Base s) (hp : s.pc p = .installing fd vn)
    (hpc : s'.pc = Function.update s.pc p .user) (hlock : s'.lock = none)
    (hserver : s'.server_ = s.server_) (hlisten : s'.listening_ = s.listening_)
    (haccept : s'.accepting_ = s.accepting_) (hfull : s'.received_ = false → s'.fd_ ≠ none) :
    Base s' := by
  have honly : ∀ q fd' vn', q ≠ p → s.pc q ≠ .installing fd' vn' := fun q fd' vn' hqp hq => by
    have hl := (h.installing q fd' vn' hq).1
    rw [(h.installing p fd vn hp).1] at hl
    exact hqp (Option.some.inj hl).symm
  refine ⟨by rw [hlisten, hserver]; exact h.server, by rw [haccept, hlisten]; exact h.accepting,
    hfull, fun q hq => ?_, fun q fd' vn' hq => ?_, fun q hq => ?_, fun q fd' t hq => ?_⟩
  · rw [hpc] at hq
    by_cases hqp : q = p
    · rw [hqp, Function.update_self] at hq
      cases hq
    · rw [Function.update_of_ne hqp] at hq
      rw [hserver]
      exact h.reads q hq
  · rw [hpc] at hq
    by_cases hqp : q = p
    · rw [hqp, Function.update_self] at hq
      cases hq
    · rw [Function.update_of_ne hqp] at hq
      exact absurd hq (honly q fd' vn' hqp)
  · rw [hlock] at hq
    cases hq
  · rw [hpc] at hq
    by_cases hqp : q = p
    · rw [hqp, Function.update_self] at hq
      cases hq
    · rw [Function.update_of_ne hqp] at hq
      exact h.writing q fd' t hq

theorem Base.install (h : Base s) (hp : s.pc p = .installing fd vn) :
    Base (s.install thgrp_ p fd vn) := by
  unfold State.install
  split
  · exact ⟨h.server, h.accepting, h.full, h.reads, h.installing, h.lock, h.writing⟩
  · dsimp only
    split
    · exact h.unlock hp rfl rfl rfl rfl rfl h.full
    · exact h.unlock hp rfl rfl rfl rfl rfl fun hr => by cases hr

/-- **No step breaks the base invariant.** -/
theorem Base.step (h : Base s) {a : Act P G V} (hs : s.step thgrp_ a = some s') : Base s' := by
  simp only [State.step] at hs
  split at hs
  · cases hs
  cases a with
  | tick | setfd =>
    cases hs
    exact ⟨h.server, h.accepting, h.full, h.reads, h.installing, h.lock, h.writing⟩
  | listen p =>
    dsimp only at hs
    split at hs
    · next hat =>
      split at hs <;> cases hs
      · exact h.ret (h.unlocked hat.2) _
      · next hserver =>
        obtain ⟨h₁, h₂, h₃, h₄, h₅, h₆, h₇⟩ := h.ret (h.unlocked (p := p) hat.2) .ok
        exact ⟨fun _ => hserver, fun _ => rfl, h₃, h₄, h₅, h₆, h₇⟩
    · cases hs
  | accept p =>
    dsimp only at hs
    split at hs <;> cases hs
    next hat => exact h.accept hat.2
  | acceptWake p =>
    dsimp only at hs
    split at hs
    · split at hs <;> cases hs
      next hlock => exact h.accepted hlock.1
    · cases hs
  | connect p =>
    dsimp only at hs
    split at hs <;> cases hs
    next hat => exact h.connect hat.2
  | connectWake p =>
    dsimp only at hs
    split at hs
    · split at hs <;> cases hs
      next hlock => exact h.connectEnd hlock.1
    · cases hs
  | disconnect p =>
    dsimp only at hs
    split at hs <;> cases hs
    next hat => exact h.close hat.2 hat.1
  | sendfd p fd =>
    dsimp only at hs
    split at hs
    · next hp =>
      have hnot : ∀ fd vn, s.pc p ≠ .installing fd vn := fun fd vn => by rw [hp]; simp
      split at hs <;> cases hs
      · exact h.ret hnot _
      · exact h.move (p := p) (x := .checking fd) rfl hnot (by simp) (by simp)
          (fun hr => by cases hr) rfl rfl h.server h.accepting h.full fun _ => ⟨rfl, rfl⟩
    · cases hs
  | check p =>
    dsimp only at hs
    split at hs
    · next fd hp =>
      have hnot : ∀ fd vn, s.pc p ≠ .installing fd vn := fun fd vn => by rw [hp]; simp
      split at hs <;> cases hs
      · exact h.move (p := p) (x := .locking fd) rfl hnot (by simp) (by simp)
          (fun hr => by cases hr) rfl rfl h.server h.accepting h.full fun _ => ⟨rfl, rfl⟩
      · exact h.ret hnot _
    · cases hs
  | write p =>
    dsimp only at hs
    split at hs
    · split at hs <;> cases hs
      next hlock => exact h.write hlock
    · cases hs
  | writeWake p =>
    dsimp only at hs
    split at hs
    · next fd t hp => exact absurd hp (h.writing p fd t)
    · cases hs
  | receivefd p =>
    dsimp only at hs
    split at hs
    · next hp =>
      have hnot : ∀ fd vn, s.pc p ≠ .installing fd vn := fun fd vn => by rw [hp]; simp
      split at hs <;> cases hs
      · next hserver =>
        exact h.move (p := p) (x := .entering) rfl hnot (by simp) (by simp) (fun _ => hserver) rfl rfl
          h.server h.accepting h.full fun _ => ⟨rfl, rfl⟩
      · exact h.ret hnot _
    · cases hs
  | read p =>
    dsimp only at hs
    split at hs <;> cases hs
    next hat => exact h.read hat.2 hat.1
  | readWake p =>
    dsimp only at hs
    split at hs
    · next t hp =>
      split at hs <;> cases hs
      next hlock => exact h.readEnd hlock.1 (by rw [hp]; rfl)
    · cases hs
  | install p =>
    dsimp only at hs
    split at hs <;> cases hs
    next fd vn hp => exact h.install hp

theorem Base.init (h : s.Init) : Base s := by
  obtain ⟨hl, ha, hr⟩ := h.flags
  refine ⟨fun _ => h.server, fun ha' => ?_, fun hr' => ?_, fun p hp => ?_, fun p fd vn hp => ?_,
    fun p hp => ?_, fun p fd t hp => ?_⟩
  · rw [ha] at ha'
    cases ha'
  · rw [hr] at hr'
    cases hr'
  · rw [h.pc] at hp
    cases hp
  · rw [h.pc] at hp
    cases hp
  · rw [h.lock] at hp
    cases hp
  · rw [h.pc] at hp
    cases hp

/-! ## Connections -/

/-- A `connect` that slept is about to set `client_`. -/
def joins (s : State P G V) : Act P G V → Bool
  | .connectWake p => s.accepting_ && !State.timedOut (s.pc p).start_time s.ticks
  | _ => false

/-- `uds::read` is about to take what is in the mailbox. -/
def takes (s : State P G V) : Act P G V → Bool
  | .read _ => s.accepting_ && !s.received_
  | .readWake p =>
    s.accepting_ && !s.received_ && !State.timedOut (s.pc p).start_time s.ticks
  | _ => false

/-- Nobody has connected while a `connect` slept, and there is a client when `uds::read` needs it. -/
def Alone (s : State P G V) (a : Act P G V) : Prop :=
  (joins s a = true → s.client_ = none) ∧ (takes s a = true → s.client_ ≠ none)

instance (s : State P G V) (a : Act P G V) : Decidable (Alone s a) :=
  inferInstanceAs (Decidable (_ ∧ _))

/-- How a step may change `client_`: `connect` of the new client returns 0, or the client disconnects. -/
def Handover (s s' : State P G V) (a : Act P G V) : Prop :=
  s'.client_ = s.client_ ∨
    (∃ p, s.client_ = none ∧ s'.client_ = some p ∧ (a = .connect p ∨ a = .connectWake p) ∧
      s'.pc p = .user ∧ s'.retval p = .ok) ∨
    ∃ p, s.client_ = some p ∧ s'.client_ = none ∧ a = .disconnect p

theorem accepted_client : (s.accepted p t u).client_ = s.client_ ∧
    (s.accepted p t u).fault = s.fault := by
  unfold State.accepted
  split
  · exact ⟨rfl, rfl⟩
  · split <;> exact ⟨rfl, rfl⟩

/-- What `connect` does with `client_`. -/
theorem connectEnd_client (h : s.accepting_ = true → State.timedOut t u = false → s.client_ = none) :
    (s.connectEnd p t u).fault = s.fault ∧ ((s.connectEnd p t u).client_ = s.client_ ∨
      s.client_ = none ∧ (s.connectEnd p t u).client_ = some p ∧
        (s.connectEnd p t u).pc p = .user ∧ (s.connectEnd p t u).retval p = .ok) := by
  unfold State.connectEnd
  split
  · exact ⟨rfl, Or.inl rfl⟩
  · next haccept =>
    split
    · exact ⟨rfl, Or.inl rfl⟩
    · next htime =>
      refine ⟨rfl, Or.inr ⟨h (by simpa using haccept) (by simpa using htime), rfl, ?_, ?_⟩⟩
      · simp [State.ret]
      · simp [State.ret]

theorem writeEnd_client : (s.writeEnd thgrp_ p fd t u).client_ = s.client_ ∧
    (s.writeEnd thgrp_ p fd t u).fault = s.fault := by
  unfold State.writeEnd
  split
  · exact ⟨rfl, rfl⟩
  · split <;> exact ⟨rfl, rfl⟩

/-- `uds::read` follows `client_` only when it takes a descriptor. -/
theorem readEnd_client (thgrp_ : P → G) (h : Base s) (hwake : s.received_ = false ∨ State.timedOut t u = true)
    (htakes : s.accepting_ = true → s.received_ = false → State.timedOut t u = false →
      s.client_ ≠ none) :
    (s.readEnd thgrp_ p t u).client_ = s.client_ ∧
      (s.readEnd thgrp_ p t u).fault = s.fault := by
  unfold State.readEnd
  split
  · exact ⟨rfl, rfl⟩
  · next haccept =>
    split
    · exact ⟨rfl, rfl⟩
    · next htime =>
      have htime : State.timedOut t u = false := by simpa using htime
      have hreceived : s.received_ = false := hwake.resolve_right (by simp [htime])
      have hclient := htakes (by simpa using haccept) hreceived htime
      have hfd := h.full hreceived
      rw [if_pos (by simp [hreceived])]
      split
      · split <;> exact ⟨rfl, rfl⟩
      · next hnone =>
        obtain ⟨c, hc⟩ := Option.ne_none_iff_exists'.mp hclient
        obtain ⟨fd, hfd⟩ := Option.ne_none_iff_exists'.mp hfd
        exact (hnone c fd hc hfd).elim

/-- **A step that meets the condition hands the socket over properly.** -/
theorem Base.handover (h : Base s) {a : Act P G V} (hok : Alone s a)
    (hs : s.step thgrp_ a = some s') : s'.fault = false ∧ Handover s s' a := by
  obtain ⟨hjoins, htakes⟩ := hok
  simp only [State.step] at hs
  split at hs
  · cases hs
  next hfault =>
  have hfault : s.fault = false := by simpa using hfault
  cases a with
  | tick | setfd =>
    cases hs
    exact ⟨hfault, Or.inl rfl⟩
  | listen p =>
    dsimp only at hs
    split at hs
    · split at hs <;> cases hs <;> exact ⟨hfault, Or.inl rfl⟩
    · cases hs
  | accept p =>
    dsimp only at hs
    split at hs <;> cases hs
    unfold State.accept
    split
    · exact ⟨hfault, Or.inl rfl⟩
    · next hlisten =>
      have hserver : s.server_.isNone = false := by
        have := h.server (by simpa using hlisten)
        cases hs : s.server_ with
        | none => exact absurd hs this
        | some q => rfl
      have hnew : (s.fault || s.server_.isNone) = false := by rw [hfault, hserver]; rfl
      dsimp only
      split
      · obtain ⟨hclient, hf⟩ := accepted_client (p := p) (t := s.ticks) (u := s.ticks)
          (s := { s with accepting_ := true, fault := s.fault || s.server_.isNone })
        exact ⟨hf.trans hnew, Or.inl hclient⟩
      · exact ⟨hnew, Or.inl rfl⟩
  | acceptWake p =>
    dsimp only at hs
    split at hs
    · split at hs <;> cases hs
      exact ⟨accepted_client.2.trans hfault, Or.inl accepted_client.1⟩
    · cases hs
  | connect p =>
    dsimp only at hs
    split at hs <;> cases hs
    unfold State.connect
    split
    · exact ⟨hfault, Or.inl rfl⟩
    · next hnot =>
      have hnone : s.client_ = none := by simpa [State.connected] using hnot
      split
      · exact ⟨hfault, Or.inl rfl⟩
      · split
        · obtain ⟨hf, hc⟩ := connectEnd_client (p := p) (t := s.ticks) (u := s.ticks)
            (s := s) fun _ _ => hnone
          refine ⟨hf.trans hfault, hc.imp_right fun ⟨h₁, h₂, h₃, h₄⟩ =>
            Or.inl ⟨p, h₁, h₂, Or.inl rfl, h₃, h₄⟩⟩
        · exact ⟨hfault, Or.inl rfl⟩
  | connectWake p =>
    dsimp only at hs
    split at hs
    · next t hp =>
      split at hs <;> cases hs
      have hnone : s.accepting_ = true → State.timedOut t s.ticks = false → s.client_ = none :=
        fun ha ht => hjoins (by simp [joins, hp, Pc.start_time, ha, ht])
      obtain ⟨hf, hc⟩ := connectEnd_client (p := p) hnone
      exact ⟨hf.trans hfault, hc.imp_right fun ⟨h₁, h₂, h₃, h₄⟩ =>
        Or.inl ⟨p, h₁, h₂, Or.inr rfl, h₃, h₄⟩⟩
    · cases hs
  | disconnect p =>
    dsimp only at hs
    split at hs <;> cases hs
    unfold State.close
    split
    · exact ⟨hfault, Or.inl rfl⟩
    · split
      · next hclient => exact ⟨hfault, Or.inr (Or.inr ⟨p, hclient, rfl, rfl⟩)⟩
      · exact ⟨hfault, Or.inl rfl⟩
  | sendfd p fd =>
    dsimp only at hs
    split at hs
    · split at hs <;> cases hs <;> exact ⟨hfault, Or.inl rfl⟩
    · cases hs
  | check p =>
    dsimp only at hs
    split at hs
    · split at hs <;> cases hs <;> exact ⟨hfault, Or.inl rfl⟩
    · cases hs
  | write p =>
    dsimp only at hs
    split at hs
    · split at hs <;> cases hs
      rw [write_eq]
      split
      · exact ⟨hfault, Or.inl rfl⟩
      · exact ⟨writeEnd_client.2.trans hfault, Or.inl writeEnd_client.1⟩
    · cases hs
  | writeWake p =>
    dsimp only at hs
    split at hs
    · next fd t hp => exact absurd hp (h.writing p fd t)
    · cases hs
  | receivefd p =>
    dsimp only at hs
    split at hs
    · split at hs <;> cases hs <;> exact ⟨hfault, Or.inl rfl⟩
    · cases hs
  | read p =>
    dsimp only at hs
    split at hs <;> cases hs
    unfold State.read
    split
    · exact ⟨hfault, Or.inl rfl⟩
    · split
      · exact ⟨hfault, Or.inl rfl⟩
      · next haccept hreceived =>
        have hreceived : s.received_ = false := by simpa using hreceived
        have haccept : s.accepting_ = true := by simpa using haccept
        obtain ⟨hc, hf⟩ := readEnd_client (p := p) (t := s.ticks) (u := s.ticks) thgrp_ h
          (Or.inl hreceived) fun _ _ _ => htakes (by simp [takes, haccept, hreceived])
        exact ⟨hf.trans hfault, Or.inl hc⟩
  | readWake p =>
    dsimp only at hs
    split at hs
    · next t hp =>
      split at hs <;> cases hs
      next hwake =>
      obtain ⟨hc, hf⟩ := readEnd_client (p := p) thgrp_ h (by simpa using hwake.2)
        fun ha hr ht => htakes (by simp [takes, hp, Pc.start_time, ha, hr, ht])
      exact ⟨hf.trans hfault, Or.inl hc⟩
    · cases hs
  | install p =>
    dsimp only at hs
    split at hs
    · next fd vn hp =>
      cases hs
      -- the server is in `uds::read`
      have hserver : s.server_ = some p := h.reads p (by rw [hp]; rfl)
      unfold State.install
      rw [hserver]
      dsimp only
      split <;> exact ⟨hfault, Or.inl rfl⟩
    · cases hs

/--
**One client at a time.** In a run in which a `connect` that slept finds no client, and `uds::read` finds
one when it takes a descriptor, no null pointer is followed, and `client_` changes only from null to a
process whose `connect` returns 0 or back to null by that client's `disconnect`.
-/
theorem one_client (h : Reachable thgrp_ Alone s) :
    s.fault = false ∧ ∀ a s', Alone s a → s.step thgrp_ a = some s' → Handover s s' a := by
  have hbase : Base s ∧ s.fault = false := by
    refine Reach.invariant (P := fun s => Base s ∧ s.fault = false)
      (fun _ hi => ⟨.init hi, hi.fault⟩) ?_ h
    exact fun _ _ _ hb hok hs => ⟨hb.1.step hs, (hb.1.handover hok hs).1⟩
  exact ⟨hbase.2, fun _ _ hok hs => (hbase.1.handover hok hs).2⟩

/-! ## A server and two clients -/

attribute [local instance] Lib.neZero_three

/-- The socket of the process 0. -/
def bound : State (Fin 3) (Fin 3) Bool where
  fd_ := none
  listening_ := false
  accepting_ := false
  received_ := true
  server_ := some 0
  client_ := none
  lock := none
  ticks := 0
  pc := fun _ => .user
  retval := fun _ => .ok
  fdtable_ := fun _ _ => none
  fault := false
  sent := []
  got := []

theorem bound_init : bound.Init :=
  ⟨by decide, rfl, ⟨rfl, rfl, rfl⟩, rfl, rfl, fun _ => rfl, rfl, rfl, rfl⟩

/-- The server accepts, and the process 1 connects. -/
def meetRun : List (Act (Fin 3) (Fin 3) Bool) := [.listen 0, .connect 1, .accept 0]

theorem one_client_meetRun :
    ∃ s s', exec (State.step id) (fun s a => decide (Alone s a)) bound meetRun = some s ∧
      s.step id (.connectWake 1) = some s' ∧ s.fault = false ∧ Handover s s' (.connectWake 1) := by
  have hend : (exec (State.step id) (fun s a => decide (Alone s a)) bound meetRun).map (fun s =>
      ((s.step id (.connectWake 1)).isSome, decide (Alone s (.connectWake 1)))) =
      some (true, true) := by
    decide +kernel
  obtain ⟨s, hrun, hs⟩ := Option.map_eq_some_iff.mp hend
  simp only [Prod.mk.injEq, decide_eq_true_eq] at hs
  obtain ⟨s', hs'⟩ := Option.isSome_iff_exists.mp hs.1
  have hreach : Reachable id Alone s :=
    Reach.exec (fun _ _ => of_decide_eq_true) (.init bound_init) hrun
  have h := one_client hreach
  exact ⟨s, s', hrun, hs', h.1, h.2 _ _ hs.2 hs'⟩

/-- Two processes sleep in `connect` when the server accepts; the first is connected. -/
def crowdRun : List (Act (Fin 3) (Fin 3) Bool) :=
  [.listen 0, .connect 1, .connect 2, .accept 0, .connectWake 1]

/-- The client disconnects before the server takes the descriptor that it has sent. -/
def goneRun : List (Act (Fin 3) (Fin 3) Bool) :=
  [.listen 0, .accept 0, .connect 1, .acceptWake 0, .setfd 1 3 (some true), .sendfd 1 3, .check 1,
    .write 1, .disconnect 1, .receivefd 0, .read 0]

/-- **A second client replaces the first, and the server follows a null `client_`.** -/
theorem two_clients :
    (∃ s s' : State (Fin 3) (Fin 3) Bool, Reachable id (fun _ _ => True) s ∧
      s.step id (.connectWake 2) = some s' ∧ s.client_ = some 1 ∧ s'.client_ = some 2 ∧
      ¬Handover s s' (.connectWake 2)) ∧
    ∃ s : State (Fin 3) (Fin 3) Bool, Reachable id (fun _ _ => True) s ∧ s.fault = true := by
  constructor
  · have hend : (exec (State.step id) (fun _ _ => true) bound crowdRun).map (fun s =>
        (s.client_, (s.step id (.connectWake 2)).map fun s' => s'.client_)) =
        some (some 1, some (some 2)) := by
      decide +kernel
    obtain ⟨s, hrun, hs⟩ := Option.map_eq_some_iff.mp hend
    simp only [Prod.mk.injEq] at hs
    obtain ⟨hclient, hstep⟩ := hs
    obtain ⟨s', hs', hclient'⟩ := Option.map_eq_some_iff.mp hstep
    refine ⟨s, s', Reach.exec (fun _ _ _ => trivial) (.init bound_init) hrun, hs', hclient, hclient',
      ?_⟩
    rintro (hsame | ⟨p, hnone, -⟩ | ⟨p, -, hnone, -⟩)
    · rw [hclient, hclient'] at hsame
      exact absurd hsame (by decide)
    · rw [hclient] at hnone
      cases hnone
    · rw [hclient'] at hnone
      cases hnone
  · have hend : (exec (State.step id) (fun _ _ => true) bound goneRun).map (fun s => s.fault) =
        some true := by
      decide +kernel
    obtain ⟨s, hrun, hs⟩ := Option.map_eq_some_iff.mp hend
    exact ⟨s, Reach.exec (fun _ _ _ => trivial) (.init bound_init) hrun, hs⟩

end Chickadee.Uds
