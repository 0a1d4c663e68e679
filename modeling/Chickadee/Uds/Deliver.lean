import Chickadee.Uds.Connect
import Chickadee.Lib.Literals

/-!
# What is sent is received

The mailbox holds one descriptor number. `uds::write` waits for a full mailbox where it should wait for
an empty one, so that a second `sendfd` overwrites the first; and `uds::read` looks the number up in the
client's table when the server takes it, not when the client has sent it.
-/

namespace Chickadee.Uds

open Lib
open Fd (MAX_FD)

set_option linter.unusedSectionVars false

variable {P G V : Type} [DecidableEq P] [DecidableEq G] [DecidableEq V]

variable {thgrp_ : P → G} {s s' : State P G V} {p q : P} {fd t u : ℕ} {vn : V}

/-- `sendfd` is about to store a descriptor in a full mailbox. -/
def overwrites (s : State P G V) : Act P G V → Bool
  | .write _ => s.accepting_ && s.connected && !s.received_
  | _ => false

/-- `sendfd` finds the mailbox empty, and when the server takes a descriptor it denotes in the client
what it denoted when it was sent. -/
def Faithful (thgrp_ : P → G) (s : State P G V) (a : Act P G V) : Prop :=
  overwrites s a = false ∧
    (takes s a = true → s.denoted thgrp_ ≠ none ∧ s.sent.getLast? = some (s.denoted thgrp_))

instance (a : Act P G V) : Decidable (Faithful thgrp_ s a) :=
  inferInstanceAs (Decidable (_ ∧ _))

/-- What was sent is what was received and, if the mailbox is full, one descriptor more; and that is the
one that the server is taking. -/
structure Delivered (s : State P G V) : Prop where
  empty : s.received_ = true → s.sent = s.got.map some
  full : s.received_ = false → ∃ x, s.sent = s.got.map some ++ [x]
  taken : ∀ p fd vn, s.pc p = .installing fd vn → s.sent = s.got.map some ++ [some vn]

/-- Steps that touch neither the mailbox nor the logs. -/
theorem Delivered.congr (h : Delivered s) (hreceived : s'.received_ = s.received_)
    (hsent : s'.sent = s.sent) (hgot : s'.got = s.got)
    (hpc : ∀ p fd vn, s'.pc p = .installing fd vn → s.pc p = .installing fd vn) : Delivered s' := by
  refine ⟨?_, ?_, fun p fd vn hp => ?_⟩
  · rw [hreceived, hsent, hgot]
    exact h.empty
  · rw [hreceived, hsent, hgot]
    exact h.full
  · rw [hsent, hgot]
    exact h.taken p fd vn (hpc p fd vn hp)

/-- A step of `p` that touches neither the mailbox nor the logs. -/
theorem Delivered.move (h : Delivered s) {x : Pc V} (hpc : s'.pc = Function.update s.pc p x)
    (hnew : ∀ fd vn, x ≠ .installing fd vn) (hreceived : s'.received_ = s.received_)
    (hsent : s'.sent = s.sent) (hgot : s'.got = s.got) : Delivered s' := by
  refine h.congr hreceived hsent hgot fun q fd vn hq => ?_
  rw [hpc] at hq
  by_cases hqp : q = p
  · rw [hqp, Function.update_self] at hq
    exact absurd hq (hnew fd vn)
  · rwa [Function.update_of_ne hqp] at hq

theorem Delivered.ret (h : Delivered s) (r : Ret) : Delivered (s.ret p r) :=
  h.move (p := p) (x := .user) rfl (by simp) rfl rfl rfl

/-- A timeout is reported, and the mailbox is empty. -/
theorem Delivered.drop (hbase : Base s) (hlock : s.lock = none)
    (hpc : s'.pc = Function.update s.pc p .user) (hreceived : s'.received_ = true)
    (hsent : s'.sent = s'.got.map some) : Delivered s' := by
  refine ⟨fun _ => hsent, fun hr => ?_, fun q fd vn hq => ?_⟩
  · rw [hreceived] at hr
    cases hr
  · rw [hpc] at hq
    by_cases hqp : q = p
    · rw [hqp, Function.update_self] at hq
      cases hq
    · rw [Function.update_of_ne hqp] at hq
      exact absurd hq (hbase.unlocked hlock fd vn)

theorem Delivered.accepted (h : Delivered s) : Delivered (s.accepted p t u) := by
  unfold State.accepted
  split
  · exact h.ret _
  · split <;> exact h.ret _

theorem Delivered.connectEnd (h : Delivered s) : Delivered (s.connectEnd p t u) := by
  unfold State.connectEnd
  split
  · exact h.ret _
  · split
    · exact h.ret _
    · exact h.move (p := p) (x := .user) rfl (by simp) rfl rfl rfl

/-- The descriptor is stored in an empty mailbox. -/
theorem Delivered.writeEnd (h : Delivered s) (hbase : Base s) (hlock : s.lock = none)
    (hempty : s.accepting_ = true → s.connected = true → s.received_ = true) :
    Delivered (s.writeEnd thgrp_ p fd t u) := by
  unfold State.writeEnd
  split
  · exact h.ret _
  · next hopen =>
    split
    · exact Delivered.drop hbase hlock rfl rfl rfl
    · have hopen : s.accepting_ = true ∧ s.connected = true := by simpa using hopen
      have hsent := h.empty (hempty hopen.1 hopen.2)
      refine ⟨(fun hr => by cases hr), fun _ => ⟨s.fdtable_ (thgrp_ p) fd, ?_⟩, fun q fd vn hq => ?_⟩
      · show s.sent ++ [s.fdtable_ (thgrp_ p) fd] = _
        rw [hsent]
        rfl
      · by_cases hqp : q = p
        · simp [State.ret, hqp] at hq
        · exact absurd (by simpa [State.ret, Function.update_of_ne hqp] using hq)
            (hbase.unlocked hlock fd vn)

/-- The server takes what was sent. -/
theorem Delivered.readEnd (h : Delivered s) (hbase : Base s) (hlock : s.lock = none)
    (htakes : s.accepting_ = true → s.received_ = false → State.timedOut t u = false →
      s.denoted thgrp_ ≠ none ∧ s.sent.getLast? = some (s.denoted thgrp_)) :
    Delivered (s.readEnd thgrp_ p t u) := by
  have hfault : Delivered { s with fault := true } := ⟨h.empty, h.full, h.taken⟩
  unfold State.readEnd
  split
  · exact h.ret _
  · next haccept =>
    split
    · exact Delivered.drop hbase hlock rfl rfl rfl
    · next htime =>
      split
      · next hreceived =>
        have hreceived : s.received_ = false := by simpa using hreceived
        obtain ⟨hsome, hlast⟩ := htakes (by simpa using haccept) hreceived (by simpa using htime)
        split
        · next c fd hclient hfd =>
          have hden : s.denoted thgrp_ = s.fdtable_ (thgrp_ c) fd := by
            simp [State.denoted, hclient, hfd]
          rw [hden] at hsome hlast
          split
          · next hnone => exact absurd hnone hsome
          · next vn hvn =>
            rw [hvn] at hlast
            obtain ⟨x, hx⟩ := h.full hreceived
            have hxv : x = some vn := by
              rw [hx, List.getLast?_concat] at hlast
              exact Option.some.inj hlast
            refine ⟨h.empty, h.full, fun q fd' vn' hq => ?_⟩
            by_cases hqp : q = p
            · have hq : vn = vn' := by
                simp only [State.goto, hqp, Function.update_self, Pc.installing.injEq] at hq
                exact hq.2
              show s.sent = _
              rw [hx, hxv, hq]
              rfl
            · exact absurd (by simpa [State.goto, Function.update_of_ne hqp] using hq)
                (hbase.unlocked hlock fd' vn')
        · exact hfault
      · exact hfault

theorem Delivered.install (h : Delivered s) (hbase : Base s) (hp : s.pc p = .installing fd vn) :
    Delivered (s.install thgrp_ p fd vn) := by
  have hsent := h.taken p fd vn hp
  unfold State.install
  split
  · exact ⟨h.empty, h.full, h.taken⟩
  · dsimp only
    split
    · exact h.move (p := p) (x := .user) rfl (by simp) rfl rfl rfl
    · refine ⟨fun _ => ?_, (fun hr => by cases hr), fun q fd' vn' hq => ?_⟩
      · show s.sent = (s.got ++ [vn]).map some
        rw [hsent]
        simp
      · by_cases hqp : q = p
        · simp [State.ret, hqp] at hq
        · -- only one process has the lock
          have hq : s.pc q = .installing fd' vn' := by
            simpa [State.ret, Function.update_of_ne hqp] using hq
          have hlock := (hbase.installing q fd' vn' hq).1
          rw [(hbase.installing p fd vn hp).1] at hlock
          exact absurd (Option.some.inj hlock).symm hqp

/-- **A step that meets the condition loses nothing.** -/
theorem Delivered.step (h : Delivered s) (hbase : Base s) {a : Act P G V}
    (hok : Faithful thgrp_ s a) (hs : s.step thgrp_ a = some s') : Delivered s' := by
  obtain ⟨hover, htakes⟩ := hok
  simp only [State.step] at hs
  split at hs
  · cases hs
  cases a with
  | tick | setfd =>
    cases hs
    exact ⟨h.empty, h.full, h.taken⟩
  | listen p =>
    dsimp only at hs
    split at hs
    · split at hs <;> cases hs
      · exact h.ret _
      · exact h.move (p := p) (x := .user) rfl (by simp) rfl rfl rfl
    · cases hs
  | accept p =>
    dsimp only at hs
    split at hs <;> cases hs
    unfold State.accept
    split
    · exact h.ret _
    · have hnew : Delivered { s with accepting_ := true, fault := s.fault || s.server_.isNone } :=
        ⟨h.empty, h.full, h.taken⟩
      dsimp only
      split
      · exact hnew.accepted
      · exact hnew.move (p := p) (x := .accepting s.ticks) rfl (by simp) rfl rfl rfl
  | acceptWake p =>
    dsimp only at hs
    split at hs
    · split at hs <;> cases hs
      exact h.accepted
    · cases hs
  | connect p =>
    dsimp only at hs
    split at hs <;> cases hs
    unfold State.connect
    split
    · exact h.ret _
    · split
      · exact h.ret _
      · split
        · exact h.connectEnd
        · exact h.move (p := p) (x := .connecting s.ticks) rfl (by simp) rfl rfl rfl
  | connectWake p =>
    dsimp only at hs
    split at hs
    · split at hs <;> cases hs
      exact h.connectEnd
    · cases hs
  | disconnect p =>
    dsimp only at hs
    split at hs <;> cases hs
    unfold State.close
    split
    · exact h.move (p := p) (x := .user) rfl (by simp) rfl rfl rfl
    · split
      · exact h.move (p := p) (x := .user) rfl (by simp) rfl rfl rfl
      · exact h.ret _
  | sendfd p fd =>
    dsimp only at hs
    split at hs
    · split at hs <;> cases hs
      · exact h.ret _
      · exact h.move (p := p) (x := .checking fd) rfl (by simp) rfl rfl rfl
    · cases hs
  | check p =>
    dsimp only at hs
    split at hs
    · next fd hp =>
      split at hs <;> cases hs
      · exact h.move (p := p) (x := .locking fd) rfl (by simp) rfl rfl rfl
      · exact h.ret _
    · cases hs
  | write p =>
    dsimp only at hs
    split at hs
    · split at hs <;> cases hs
      next hlock =>
        rw [write_eq]
        split
        · exact h.ret _
        · exact h.writeEnd hbase hlock fun ha hc => by
            simpa [overwrites, ha, hc] using hover
    · cases hs
  | writeWake p =>
    dsimp only at hs
    split at hs
    · next fd t hp => exact absurd hp (hbase.writing p fd t)
    · cases hs
  | receivefd p =>
    dsimp only at hs
    split at hs
    · split at hs <;> cases hs
      · exact h.move (p := p) (x := .entering) rfl (by simp) rfl rfl rfl
      · exact h.ret _
    · cases hs
  | read p =>
    dsimp only at hs
    split at hs <;> cases hs
    next hat =>
    unfold State.read
    split
    · exact h.ret _
    · split
      · exact h.move (p := p) (x := .reading s.ticks) rfl (by simp) rfl rfl rfl
      · next haccept hreceived =>
        have haccept : s.accepting_ = true := by simpa using haccept
        have hreceived : s.received_ = false := by simpa using hreceived
        exact h.readEnd hbase hat.2 fun _ _ _ => htakes (by simp [takes, haccept, hreceived])
  | readWake p =>
    dsimp only at hs
    split at hs
    · next t hp =>
      split at hs <;> cases hs
      next hwake =>
      exact h.readEnd hbase hwake.1 fun ha hr ht =>
        htakes (by simp [takes, hp, Pc.start_time, ha, hr, ht])
    · cases hs
  | install p =>
    dsimp only at hs
    split at hs <;> cases hs
    next fd vn hp => exact h.install hbase hp

theorem Delivered.init (h : s.Init) : Delivered s := by
  refine ⟨fun _ => ?_, fun hr => ?_, fun p fd vn hp => ?_⟩
  · rw [h.logs.1, h.logs.2]
    rfl
  · rw [h.flags.2.2] at hr
    cases hr
  · rw [h.pc] at hp
    cases hp

/--
**What is sent is received.** In a run in which `sendfd` finds the mailbox empty and a descriptor is taken
before the client changes it, the vnodes that the client's descriptors denoted when `sendfd` returned 0
are those that `receivefd` has returned, in this order, and the one in the mailbox if it is full. Only
what a reported timeout has dropped is not counted.
-/
theorem sent_received (h : Reachable thgrp_ (Faithful thgrp_) s) :
    ∃ box : List (Option V), s.sent = s.got.map some ++ box ∧
      box.length = if s.received_ then 0 else 1 := by
  have hinv : Base s ∧ Delivered s := by
    refine Reach.invariant (P := fun s => Base s ∧ Delivered s)
      (fun _ hi => ⟨.init hi, .init hi⟩) ?_ h
    exact fun _ _ _ hb hok hs => ⟨hb.1.step hs, hb.2.step hb.1 hok hs⟩
  cases hr : s.received_ with
  | true => exact ⟨[], by rw [List.append_nil, hinv.2.empty hr], rfl⟩
  | false =>
    obtain ⟨x, hx⟩ := hinv.2.full hr
    exact ⟨[x], hx, rfl⟩

attribute [local instance] Lib.neZero_three

/-- The client has a descriptor for each of two vnodes, and sends the first. -/
def sendRun : List (Act (Fin 3) (Fin 3) Bool) :=
  [.listen 0, .accept 0, .connect 1, .acceptWake 0, .setfd 1 3 (some true), .setfd 1 4 (some false),
    .sendfd 1 3, .check 1, .write 1]

/-- The server receives. -/
def receiveRun : List (Act (Fin 3) (Fin 3) Bool) := [.receivefd 0, .read 0, .install 0]

theorem sent_received_sendRun :
    ∃ s, exec (State.step id) (fun s a => decide (Faithful id s a)) bound (sendRun ++ receiveRun) =
        some s ∧ s.got = [true] ∧
      ∃ box : List (Option Bool), s.sent = s.got.map some ++ box ∧
        box.length = if s.received_ then 0 else 1 := by
  have hend : (exec (State.step id) (fun s a => decide (Faithful id s a)) bound
      (sendRun ++ receiveRun)).map (fun s => s.got) = some [true] := by
    decide +kernel
  obtain ⟨s, hrun, hs⟩ := Option.map_eq_some_iff.mp hend
  have hreach : Reachable id (Faithful id) s :=
    Reach.exec (fun _ _ => of_decide_eq_true) (.init bound_init) hrun
  exact ⟨s, hrun, hs, sent_received hreach⟩

/-- **The second of two descriptors overwrites the first, and a descriptor that is opened again is
received as what it denotes then.** -/
theorem sent_lost :
    (∃ s : State (Fin 3) (Fin 3) Bool, Reachable id (fun _ _ => True) s ∧
      s.sent = [some true, some false] ∧ s.got = [false] ∧ s.received_ = true) ∧
    ∃ s : State (Fin 3) (Fin 3) Bool, Reachable id (fun _ _ => True) s ∧
      s.sent = [some true] ∧ s.got = [false] ∧ s.received_ = true := by
  constructor
  · have hend : (exec (State.step id) (fun _ _ => true) bound
        (sendRun ++ [.sendfd 1 4, .check 1, .write 1] ++ receiveRun)).map
        (fun s => (s.sent, s.got, s.received_)) = some ([some true, some false], [false], true) := by
      decide +kernel
    obtain ⟨s, hrun, hs⟩ := Option.map_eq_some_iff.mp hend
    simp only [Prod.mk.injEq] at hs
    exact ⟨s, Reach.exec (fun _ _ _ => trivial) (.init bound_init) hrun, hs⟩
  · have hend : (exec (State.step id) (fun _ _ => true) bound
        (sendRun ++ [.setfd 1 3 (some false)] ++ receiveRun)).map
        (fun s => (s.sent, s.got, s.received_)) = some ([some true], [false], true) := by
      decide +kernel
    obtain ⟨s, hrun, hs⟩ := Option.map_eq_some_iff.mp hend
    simp only [Prod.mk.injEq] at hs
    exact ⟨s, Reach.exec (fun _ _ _ => trivial) (.init bound_init) hrun, hs⟩

end Chickadee.Uds
