import Chickadee.Ahci.Machine
import Chickadee.Lib.Run

/-!
# Every command is acknowledged once

The invariant ties an outstanding slot to the one request whose command it has: the pointer of the slot leads
to the status word of that request, and nothing has been stored for it yet. A store is made by the
acknowledgement, which ends the request.
-/

namespace Chickadee.Ahci

open Lib

namespace State

variable {T E : Type} [DecidableEq T] [DecidableEq E] {s s' : State T E}

/-! ## Bits -/

theorem getLsbD_one_shiftLeft {k i : ℕ} (hi : i < 32) : (1#32 <<< k).getLsbD i = decide (i = k) := by
  rw [← BitVec.twoPow_eq, BitVec.getLsbD_twoPow]
  by_cases h : k = i
  · subst h
    simp [hi]
  · simp [h, Ne.symm h]

omit [DecidableEq T] [DecidableEq E] in
theorem lt_of_busy {d : Ahcistate (Word T E)} {i : ℕ} (h : d.busy i = true) : i < 32 := by
  by_contra hge
  rw [Ahcistate.busy, BitVec.getLsbD_of_ge _ _ (not_lt.mp hge)] at h
  cases h

omit [DecidableEq T] [DecidableEq E] in
theorem busy_of_find_slot {d : Ahcistate (Word T E)} {slot : ℕ} (h : d.find_slot = some slot) :
    slot < d.nslots_ ∧ d.busy slot = false := by
  have hfree := List.find?_some h
  rw [Bool.not_eq_true'] at hfree
  exact ⟨List.mem_range.mp (List.mem_of_find?_eq_some h), hfree⟩

/-! ## The invariant -/

structure Inv (s : State T E) : Prop where
  fault : s.fault = false
  nslots_ : s.disk.nslots_ ≤ 32
  busy_lt : ∀ i, s.disk.busy i = true → i < s.disk.nslots_
  available : s.disk.nslots_available_ + s.outstanding.card = s.disk.nslots_
  cmd_lt : ∀ i, s.disk.busy i = true → s.cmd i < s.nreq
  cmd_inj : ∀ i j, s.disk.busy i = true → s.disk.busy j = true → s.cmd i = s.cmd j → i = j
  /-- The pointer of an outstanding slot leads to the word of its request. -/
  slot_status_ : ∀ i, s.disk.busy i = true → s.disk.slot_status_ i = some (s.word (s.cmd i))
  user : ∀ i, s.disk.busy i = true →
    s.user (s.word (s.cmd i)) = s.cmd i ∨ (s.cmd i, s.user (s.word (s.cmd i))) ∈ s.reused
  stored : ∀ st ∈ s.stores, st.cmd < s.nreq ∧ st.word = s.word st.cmd ∧
    (st.user = st.cmd ∨ (st.cmd, st.user) ∈ s.reused)
  running : ∀ q, s.Running q → s.stores.filter (fun st => st.cmd = q) = []
  done : ∀ q < s.nreq, ¬s.Running q → ∃ st, s.stores.filter (fun st => st.cmd = q) = [st]
  /-- A caller of `read_or_write` waits for the command that has its word. -/
  stack : ∀ i t, s.disk.busy i = true → s.word (s.cmd i) = .stack t →
    s.phase t = .issued (s.cmd i) ∧ s.status (.stack t) = E_AGAIN
  reused : ∀ p ∈ s.reused, p.1 < s.nreq ∧ p.2 < s.nreq ∧ ∃ e, s.word p.1 = .entry e ∧ s.word p.2 = .entry e

omit [DecidableEq T] [DecidableEq E] in
theorem Boot.inv (h : Boot s) : Inv s := by
  have hfree : ∀ i, s.disk.busy i = false := by
    intro i
    rw [Ahcistate.busy, h.mask]
    exact BitVec.getLsbD_zero
  have hno : ∀ i, s.disk.busy i ≠ true := fun i hi => by rw [hfree i] at hi; cases hi
  have hempty : s.outstanding = ∅ := Finset.filter_eq_empty_iff.mpr fun i _ => hno i
  refine ⟨h.fault, h.nslots_, fun i hi => absurd hi (hno i), ?_, fun i hi => absurd hi (hno i),
    fun i j hi => absurd hi (hno i), fun i hi => absurd hi (hno i), fun i hi => absurd hi (hno i), ?_, ?_, ?_,
    fun i t hi => absurd hi (hno i), ?_⟩
  · rw [hempty, h.available]
    rfl
  · intro st hst
    rw [h.stores] at hst
    cases hst
  · intro q _
    rw [h.stores]
    rfl
  · intro q hq
    rw [h.nreq] at hq
    omega
  · intro p hp
    rw [h.reused] at hp
    cases hp

/-! ## An acknowledgement -/

/-- What an acknowledgement of an outstanding slot does. -/
structure Acked (s : State T E) (slot : ℕ) (result : ℤ) (s' : State T E) : Prop where
  busy : ∀ i, s'.disk.busy i = (s.disk.busy i && decide (i ≠ slot))
  nslots_ : s'.disk.nslots_ = s.disk.nslots_
  available : s'.disk.nslots_available_ = (s.disk.nslots_available_ + 1) % 2 ^ 32
  active : s'.disk.ncq_active_mask = s.disk.ncq_active_mask
  slot_status_ : ∀ i, i ≠ slot → s'.disk.slot_status_ i = s.disk.slot_status_ i
  status : s'.status = Function.update s.status (s.word (s.cmd slot)) result
  stores : s'.stores = ⟨s.cmd slot, s.word (s.cmd slot), s.user (s.word (s.cmd slot))⟩ :: s.stores
  phase : s'.phase = s.phase
  fault : s'.fault = s.fault
  nreq : s'.nreq = s.nreq
  word : s'.word = s.word
  cmd : s'.cmd = s.cmd
  user : s'.user = s.user
  reused : s'.reused = s.reused

theorem Inv.acked (h : Inv s) {slot : ℕ} (hbusy : s.disk.busy slot = true) (result : ℤ) :
    Acked s slot result (s.acknowledge slot result) := by
  have hlt := lt_of_busy hbusy
  have hstatus := h.slot_status_ slot hbusy
  unfold acknowledge
  rw [if_pos ⟨h.busy_lt slot hbusy, hbusy⟩]
  dsimp only
  rw [hstatus]
  refine ⟨fun i => ?_, rfl, rfl, rfl, fun i hi => Function.update_of_ne hi _ _, rfl, rfl, rfl, rfl, rfl, rfl, rfl,
    rfl, rfl⟩
  show (s.disk.slots_outstanding_mask_ ^^^ 1#32 <<< slot).getLsbD i = _
  rw [BitVec.getLsbD_xor]
  by_cases hi : i < 32
  · rw [getLsbD_one_shiftLeft hi]
    by_cases his : i = slot
    · subst his
      have hset : s.disk.slots_outstanding_mask_.getLsbD i = true := hbusy
      simp [hset]
    · simp [his, Ahcistate.busy]
  · rw [BitVec.getLsbD_of_ge _ _ (not_lt.mp hi), BitVec.getLsbD_of_ge _ _ (not_lt.mp hi), Ahcistate.busy,
      BitVec.getLsbD_of_ge _ _ (not_lt.mp hi)]
    rfl

namespace Acked

variable {slot : ℕ} {result : ℤ}

theorem busy_iff (h : Acked s slot result s') (i : ℕ) :
    s'.disk.busy i = true ↔ s.disk.busy i = true ∧ i ≠ slot := by
  rw [h.busy, Bool.and_eq_true, decide_eq_true_eq]

/-- One slot less is outstanding. -/
theorem card (h : Acked s slot result s') (hbusy : s.disk.busy slot = true) :
    s'.outstanding.card + 1 = s.outstanding.card := by
  have hmem : slot ∈ s.outstanding :=
    Finset.mem_filter.mpr ⟨Finset.mem_range.mpr (lt_of_busy hbusy), hbusy⟩
  have herase : s'.outstanding = s.outstanding.erase slot := by
    ext i
    unfold outstanding
    rw [Finset.mem_erase, Finset.mem_filter, Finset.mem_filter, h.busy_iff]
    tauto
  rw [herase]
  exact Finset.card_erase_add_one hmem

/-- The request of the slot has ended, and no other. -/
theorem running_iff (h : Acked s slot result s') (hinv : Inv s) (hbusy : s.disk.busy slot = true) (q : ℕ) :
    s'.Running q ↔ s.Running q ∧ q ≠ s.cmd slot := by
  unfold Running
  constructor
  · rintro ⟨i, hi, rfl⟩
    obtain ⟨hi, hne⟩ := (h.busy_iff i).mp hi
    rw [h.cmd]
    exact ⟨⟨i, hi, rfl⟩, fun heq => hne (hinv.cmd_inj i slot hi hbusy heq)⟩
  · rintro ⟨⟨i, hi, rfl⟩, hne⟩
    refine ⟨i, (h.busy_iff i).mpr ⟨hi, fun his => hne (by rw [his])⟩, ?_⟩
    rw [h.cmd]

/-- **An acknowledgement keeps the invariant.** -/
theorem inv (h : Acked s slot result s') (hinv : Inv s) (hbusy : s.disk.busy slot = true) : Inv s' := by
  have hsub : ∀ i, s'.disk.busy i = true → s.disk.busy i = true := fun i hi => ((h.busy_iff i).mp hi).1
  have hrun := h.running_iff hinv hbusy
  have hslot : s.Running (s.cmd slot) := ⟨slot, hbusy, rfl⟩
  refine ⟨?_, ?_, ?_, ?_, ?_, ?_, ?_, ?_, ?_, ?_, ?_, ?_, ?_⟩
  · rw [h.fault]
    exact hinv.fault
  · rw [h.nslots_]
    exact hinv.nslots_
  · intro i hi
    rw [h.nslots_]
    exact hinv.busy_lt i (hsub i hi)
  · have hcard := h.card hbusy
    have havail := hinv.available
    have hle := hinv.nslots_
    rw [h.available, h.nslots_, Nat.mod_eq_of_lt (by omega)]
    omega
  · intro i hi
    rw [h.cmd, h.nreq]
    exact hinv.cmd_lt i (hsub i hi)
  · intro i j hi hj heq
    rw [h.cmd] at heq
    exact hinv.cmd_inj i j (hsub i hi) (hsub j hj) heq
  · intro i hi
    obtain ⟨hi, hne⟩ := (h.busy_iff i).mp hi
    rw [h.slot_status_ i hne, h.cmd, h.word]
    exact hinv.slot_status_ i hi
  · intro i hi
    rw [h.user, h.word, h.cmd, h.reused]
    exact hinv.user i (hsub i hi)
  · intro st hst
    rw [h.stores, List.mem_cons] at hst
    rw [h.nreq, h.word, h.reused]
    rcases hst with rfl | hst
    · exact ⟨hinv.cmd_lt slot hbusy, rfl, hinv.user slot hbusy⟩
    · exact hinv.stored st hst
  · intro q hq
    obtain ⟨hq, hne⟩ := (hrun q).mp hq
    rw [h.stores, List.filter_cons_of_neg (by simpa using hne.symm)]
    exact hinv.running q hq
  · intro q hq hnot
    rw [h.nreq] at hq
    by_cases hqs : q = s.cmd slot
    · subst hqs
      refine ⟨⟨s.cmd slot, s.word (s.cmd slot), s.user (s.word (s.cmd slot))⟩, ?_⟩
      rw [h.stores, List.filter_cons_of_pos (by simp), hinv.running _ hslot]
    · obtain ⟨st, hst⟩ := hinv.done q hq fun hq' => hnot ((hrun q).mpr ⟨hq', hqs⟩)
      refine ⟨st, ?_⟩
      rw [h.stores, List.filter_cons_of_neg (by simpa using fun heq => hqs heq.symm)]
      exact hst
  · intro i t hi hword
    obtain ⟨hi, hne⟩ := (h.busy_iff i).mp hi
    rw [h.word, h.cmd] at hword
    obtain ⟨hphase, hstatus⟩ := hinv.stack i t hi hword
    refine ⟨by rw [h.phase, h.cmd]; exact hphase, ?_⟩
    -- the word of the slot is another one, or its caller would wait for two commands
    rw [h.status, Function.update_of_ne]
    · exact hstatus
    · intro heq
      have hphase' := (hinv.stack slot t hbusy heq.symm).1
      rw [hphase] at hphase'
      exact hne (hinv.cmd_inj i slot hi hbusy (Phase.issued.inj hphase'))
  · intro p hp
    rw [h.reused] at hp
    rw [h.nreq, h.word]
    exact hinv.reused p hp

end Acked

/-! ## An interrupt -/

/-- The acknowledgements of an interrupt: what is acknowledged is no longer outstanding. -/
theorem Inv.ackLoop (acks : BitVec 32) {slots : List ℕ} (h : Inv s) (hnodup : slots.Nodup)
    (hacks : ∀ i ∈ slots, acks.getLsbD i = true → s.disk.busy i = true) :
    Inv (ackLoop acks slots s) ∧ (ackLoop acks slots s).cmd = s.cmd ∧
      ∀ i, (ackLoop acks slots s).disk.busy i = true →
        s.disk.busy i = true ∧ (i ∈ slots → acks.getLsbD i = false) := by
  induction slots generalizing s with
  | nil => exact ⟨h, rfl, fun i hi => ⟨hi, fun hmem => by cases hmem⟩⟩
  | cons slot slots ih =>
    obtain ⟨hslot, hnodup⟩ := List.nodup_cons.mp hnodup
    rw [State.ackLoop]
    by_cases hack : acks.getLsbD slot = true
    · rw [if_pos hack]
      have hbusy := hacks slot List.mem_cons_self hack
      have hacked := h.acked hbusy 0
      obtain ⟨hinv, hcmd, hleft⟩ := ih (hacked.inv h hbusy) hnodup fun i hi hai =>
        (hacked.busy_iff i).mpr ⟨hacks i (List.mem_cons_of_mem _ hi) hai, fun his => hslot (his ▸ hi)⟩
      refine ⟨hinv, hcmd.trans hacked.cmd, fun i hi => ?_⟩
      obtain ⟨hi, hrest⟩ := hleft i hi
      obtain ⟨hi, hne⟩ := (hacked.busy_iff i).mp hi
      exact ⟨hi, fun hmem => hrest ((List.mem_cons.mp hmem).resolve_left hne)⟩
    · rw [if_neg hack]
      obtain ⟨hinv, hcmd, hleft⟩ := ih h hnodup fun i hi => hacks i (List.mem_cons_of_mem _ hi)
      refine ⟨hinv, hcmd, fun i hi => ⟨(hleft i hi).1, fun hmem => ?_⟩⟩
      rcases List.mem_cons.mp hmem with rfl | hmem
      · exact Bool.eq_false_iff.mpr hack
      · exact (hleft i hi).2 hmem

theorem Inv.errorLoop (slots : List ℕ) (h : Inv s) :
    Inv (errorLoop slots s) ∧ (errorLoop slots s).cmd = s.cmd ∧
      ∀ i, (errorLoop slots s).disk.busy i = true → s.disk.busy i = true := by
  induction slots generalizing s with
  | nil => exact ⟨h, rfl, fun i hi => hi⟩
  | cons slot slots ih =>
    rw [State.errorLoop]
    by_cases hbusy : s.disk.busy slot = true
    · rw [if_pos hbusy]
      have hacked := h.acked hbusy E_IO
      obtain ⟨hinv, hcmd, hleft⟩ := ih (hacked.inv h hbusy)
      exact ⟨hinv, hcmd.trans hacked.cmd, fun i hi => ((hacked.busy_iff i).mp (hleft i hi)).1⟩
    · rw [if_neg hbusy]
      exact ih h

omit [DecidableEq T] [DecidableEq E] in
/-- A panic changes nothing that the invariant speaks of. -/
theorem Inv.halt (h : Inv s) : Inv { s with halted := true } :=
  ⟨h.fault, h.nslots_, h.busy_lt, h.available, h.cmd_lt, h.cmd_inj, h.slot_status_, h.user, h.stored, h.running,
    h.done, h.stack, h.reused⟩

/-- **An interrupt ends the requests whose commands are completed.** -/
theorem Inv.handle_interrupt (h : Inv s) (is_error : Bool) :
    Inv (s.handle_interrupt is_error) ∧ ∀ slot, s.disk.busy slot = true →
      s.disk.ncq_active_mask.getLsbD slot = false → ¬(s.handle_interrupt is_error).Running (s.cmd slot) := by
  set acks := s.disk.slots_outstanding_mask_ &&& ~~~s.disk.ncq_active_mask with hdef
  have hbits : ∀ i < 32, acks.getLsbD i = (s.disk.busy i && !s.disk.ncq_active_mask.getLsbD i) := by
    intro i hi
    rw [hdef, BitVec.getLsbD_and, BitVec.getLsbD_not, decide_eq_true hi, Bool.true_and]
    rfl
  obtain ⟨hinv, hcmd, hleft⟩ := h.ackLoop acks List.nodup_range fun i hi hai => by
    rw [hbits i (List.mem_range.mp hi), Bool.and_eq_true] at hai
    exact hai.1
  -- whatever is outstanding afterwards was not to be acknowledged
  have hend : ∀ s' : State T E, s'.cmd = s.cmd →
      (∀ i, s'.disk.busy i = true → (State.ackLoop acks (List.range 32) s).disk.busy i = true) →
      ∀ slot, s.disk.busy slot = true → s.disk.ncq_active_mask.getLsbD slot = false →
        ¬s'.Running (s.cmd slot) := by
    rintro s' hcmd' hsub slot hbusy hactive ⟨i, hi, hq⟩
    obtain ⟨hi, hnot⟩ := hleft i (hsub i hi)
    rw [hcmd'] at hq
    obtain rfl := h.cmd_inj i slot hi hbusy hq
    have hlt := lt_of_busy hbusy
    have hack := hnot (List.mem_range.mpr hlt)
    rw [hbits i hlt, hbusy, hactive] at hack
    cases hack
  unfold State.handle_interrupt
  dsimp only
  rw [← hdef]
  cases is_error with
  | false =>
    rw [if_neg (by decide)]
    exact ⟨hinv, hend _ hcmd fun i hi => hi⟩
  | true =>
    rw [if_pos rfl]
    obtain ⟨hinv', hcmd', hleft'⟩ := hinv.errorLoop (List.range 32)
    exact ⟨hinv'.halt, hend _ (hcmd'.trans hcmd) hleft'⟩

/-! ## A request -/

/-- What a section that has found a slot does. -/
structure Sent (s : State T E) (slot : ℕ) (w : Word T E) (s' : State T E) : Prop where
  busy : ∀ i, s'.disk.busy i = true ↔ s.disk.busy i = true ∨ i = slot
  nslots_ : s'.disk.nslots_ = s.disk.nslots_
  available : s'.disk.nslots_available_ =
    if s.disk.nslots_available_ = 0 then 2 ^ 32 - 1 else s.disk.nslots_available_ - 1
  slot_status_ : s'.disk.slot_status_ = Function.update s.disk.slot_status_ slot (some w)
  stores : s'.stores = s.stores
  fault : s'.fault = s.fault
  nreq : s'.nreq = s.nreq + 1
  word : s'.word = Function.update s.word s.nreq w
  cmd : s'.cmd = Function.update s.cmd slot s.nreq
  user : s'.user = Function.update s.user w s.nreq
  reused : s'.reused = (s.runningWith w).map (fun q => (q, s.nreq)) ++ s.reused

theorem Inv.sent (h : Inv s) {slot : ℕ} (w : Word T E) (hslot : s.disk.find_slot = some slot)
    (status : Word T E → ℤ) (phase : T → Phase) :
    Sent s slot w ({ s with status := status, phase := phase }.send slot w) ∧
      ({ s with status := status, phase := phase }.send slot w).status = status ∧
      ({ s with status := status, phase := phase }.send slot w).phase = phase := by
  obtain ⟨hlt, hidle⟩ := busy_of_find_slot hslot
  unfold State.send Ahcistate.issue_ncq
  rw [if_pos ⟨hlt, hidle⟩]
  refine ⟨⟨fun i => ?_, rfl, rfl, rfl, rfl, rfl, rfl, rfl, rfl, rfl, rfl⟩, rfl, rfl⟩
  unfold Ahcistate.busy
  dsimp only
  rw [BitVec.getLsbD_or, Bool.or_eq_true]
  by_cases hi : i < 32
  · rw [getLsbD_one_shiftLeft hi, decide_eq_true_eq]
  · have hne : i ≠ slot := by
      have hle := h.nslots_
      omega
    rw [BitVec.getLsbD_of_ge (1#32 <<< slot) i (not_lt.mp hi)]
    simp [hne]

namespace Sent

variable {slot : ℕ} {w : Word T E}

theorem cmd_self (h : Sent s slot w s') : s'.cmd slot = s.nreq := by rw [h.cmd, Function.update_self]

theorem cmd_of_ne (h : Sent s slot w s') {i : ℕ} (hi : i ≠ slot) : s'.cmd i = s.cmd i := by
  rw [h.cmd, Function.update_of_ne hi]

theorem word_self (h : Sent s slot w s') : s'.word s.nreq = w := by rw [h.word, Function.update_self]

theorem word_of_lt (h : Sent s slot w s') {q : ℕ} (hq : q < s.nreq) : s'.word q = s.word q := by
  rw [h.word, Function.update_of_ne hq.ne]

/-- One slot more is outstanding. -/
theorem card (h : Sent s slot w s') (hlt : slot < 32) (hidle : s.disk.busy slot = false) :
    s'.outstanding.card = s.outstanding.card + 1 := by
  have hnot : slot ∉ s.outstanding := fun hmem => by
    have hset := (Finset.mem_filter.mp hmem).2
    rw [hidle] at hset
    cases hset
  have hinsert : s'.outstanding = insert slot s.outstanding := by
    ext i
    unfold outstanding
    rw [Finset.mem_insert, Finset.mem_filter, Finset.mem_filter, h.busy, Finset.mem_range]
    constructor
    · rintro ⟨hi, hi' | rfl⟩
      · exact .inr ⟨hi, hi'⟩
      · exact .inl rfl
    · rintro (rfl | ⟨hi, hi'⟩)
      · exact ⟨hlt, .inr rfl⟩
      · exact ⟨hi, .inl hi'⟩
  rw [hinsert, Finset.card_insert_of_notMem hnot]

theorem running_iff (h : Sent s slot w s') (hidle : s.disk.busy slot = false) (q : ℕ) :
    s'.Running q ↔ s.Running q ∨ q = s.nreq := by
  constructor
  · rintro ⟨i, hi, rfl⟩
    rcases (h.busy i).mp hi with hi | rfl
    · refine .inl ⟨i, hi, (h.cmd_of_ne ?_).symm⟩
      rintro rfl
      rw [hidle] at hi
      cases hi
    · exact .inr h.cmd_self
  · rintro (⟨i, hi, rfl⟩ | rfl)
    · refine ⟨i, (h.busy i).mpr (.inl hi), h.cmd_of_ne ?_⟩
      rintro rfl
      rw [hidle] at hi
      cases hi
    · exact ⟨slot, (h.busy slot).mpr (.inr rfl), h.cmd_self⟩

end Sent

omit [DecidableEq T] [DecidableEq E] in
/-- A free slot is available. -/
theorem Inv.card_lt (h : Inv s) {slot : ℕ} (hlt : slot < s.disk.nslots_) (hidle : s.disk.busy slot = false) :
    s.outstanding.card < s.disk.nslots_ := by
  have hsub : s.outstanding ⊆ (Finset.range s.disk.nslots_).erase slot := by
    intro i hi
    have hi' := (Finset.mem_filter.mp hi).2
    refine Finset.mem_erase.mpr ⟨?_, Finset.mem_range.mpr (h.busy_lt i hi')⟩
    rintro rfl
    rw [hidle] at hi'
    cases hi'
  have hfew := Finset.card_le_card hsub
  rw [Finset.card_erase_of_mem (Finset.mem_range.mpr hlt), Finset.card_range] at hfew
  omega

/-- **A request keeps the invariant**, if its word is not on the stack of a caller that waits already. -/
theorem Sent.inv {slot : ℕ} {w : Word T E} (hsent : Sent s slot w s') (h : Inv s)
    (hslot : s.disk.find_slot = some slot)
    (hold : ∀ i t, s.disk.busy i = true → s.word (s.cmd i) = .stack t →
      s'.phase t = s.phase t ∧ s'.status (.stack t) = s.status (.stack t))
    (hnew : ∀ t, w = .stack t → s'.phase t = .issued s.nreq ∧ s'.status (.stack t) = E_AGAIN)
    (hfree : ∀ i t, s.disk.busy i = true → s.word (s.cmd i) = .stack t → w ≠ .stack t) : Inv s' := by
  obtain ⟨hlt, hidle⟩ := busy_of_find_slot hslot
  have hle := h.nslots_
  have hbusy := hsent.busy
  have hcmdself := hsent.cmd_self
  have hwordself := hsent.word_self
  have hrun := hsent.running_iff hidle
  have hne : ∀ i, s.disk.busy i = true → i ≠ slot := fun i hi his => by
    rw [his, hidle] at hi
    cases hi
  refine ⟨?_, ?_, ?_, ?_, ?_, ?_, ?_, ?_, ?_, ?_, ?_, ?_, ?_⟩
  · rw [hsent.fault]
    exact h.fault
  · rw [hsent.nslots_]
    exact h.nslots_
  · intro i hi
    rw [hsent.nslots_]
    rcases (hbusy i).mp hi with hi | rfl
    · exact h.busy_lt i hi
    · exact hlt
  · have hcard := hsent.card (hlt.trans_le hle) hidle
    have hfew := h.card_lt hlt hidle
    have havail := h.available
    rw [hsent.available, hsent.nslots_, hcard, if_neg (by omega)]
    omega
  · intro i hi
    rw [hsent.nreq]
    rcases (hbusy i).mp hi with hi | rfl
    · rw [hsent.cmd_of_ne (hne i hi)]
      exact Nat.lt_succ_of_lt (h.cmd_lt i hi)
    · rw [hcmdself]
      exact Nat.lt_succ_self _
  · intro i j hi hj hij
    rcases (hbusy i).mp hi with hi | rfl
    · rcases (hbusy j).mp hj with hj | rfl
      · rw [hsent.cmd_of_ne (hne i hi), hsent.cmd_of_ne (hne j hj)] at hij
        exact h.cmd_inj i j hi hj hij
      · rw [hsent.cmd_of_ne (hne i hi), hcmdself] at hij
        exact absurd hij (h.cmd_lt i hi).ne
    · rcases (hbusy j).mp hj with hj | rfl
      · rw [hsent.cmd_of_ne (hne j hj), hcmdself] at hij
        exact absurd hij.symm (h.cmd_lt j hj).ne
      · rfl
  · intro i hi
    rw [hsent.slot_status_]
    rcases (hbusy i).mp hi with hi | rfl
    · rw [hsent.cmd_of_ne (hne i hi), hsent.word_of_lt (h.cmd_lt i hi), Function.update_of_ne (hne i hi)]
      exact h.slot_status_ i hi
    · rw [hcmdself, hwordself, Function.update_self]
  · intro i hi
    rw [hsent.user, hsent.reused]
    rcases (hbusy i).mp hi with hi | rfl
    · rw [hsent.cmd_of_ne (hne i hi), hsent.word_of_lt (h.cmd_lt i hi)]
      by_cases hw : s.word (s.cmd i) = w
      · -- the word is in use: the newcomer is its user now
        rw [hw, Function.update_self]
        refine .inr (List.mem_append_left _ (List.mem_map.mpr ⟨s.cmd i, List.mem_map.mpr ⟨i, ?_, rfl⟩, rfl⟩))
        rw [List.mem_filter, List.mem_range, Bool.and_eq_true, decide_eq_true_eq]
        exact ⟨lt_of_busy hi, hi, hw⟩
      · rw [Function.update_of_ne hw]
        exact (h.user i hi).imp_right fun hmem => List.mem_append_right _ hmem
    · rw [hcmdself, hwordself, Function.update_self]
      exact .inl rfl
  · intro st hst
    rw [hsent.stores] at hst
    obtain ⟨hcmd, hword, huser⟩ := h.stored st hst
    rw [hsent.nreq, hsent.reused, hsent.word_of_lt hcmd]
    exact ⟨Nat.lt_succ_of_lt hcmd, hword, huser.imp_right fun hmem => List.mem_append_right _ hmem⟩
  · intro q hq
    rw [hsent.stores]
    rcases (hrun q).mp hq with hq | rfl
    · exact h.running q hq
    · refine List.filter_eq_nil_iff.mpr fun st hst => ?_
      have hcmd := (h.stored st hst).1
      simp only [decide_eq_true_eq]
      exact hcmd.ne
  · intro q hq hnot
    rw [hsent.nreq] at hq
    rw [hsent.stores]
    have hqne : q ≠ s.nreq := fun hq => hnot ((hrun q).mpr (.inr hq))
    exact h.done q (by omega) fun hq => hnot ((hrun q).mpr (.inl hq))
  · intro i t hi hword
    rcases (hbusy i).mp hi with hi | rfl
    · rw [hsent.cmd_of_ne (hne i hi)] at hword ⊢
      rw [hsent.word_of_lt (h.cmd_lt i hi)] at hword
      obtain ⟨hphase, hstatus⟩ := hold i t hi hword
      obtain ⟨hphase', hstatus'⟩ := h.stack i t hi hword
      exact ⟨hphase.trans hphase', hstatus.trans hstatus'⟩
    · rw [hcmdself, hwordself] at hword
      rw [hcmdself]
      exact hnew t hword
  · intro p hp
    rw [hsent.reused] at hp
    rw [hsent.nreq]
    rcases List.mem_append.mp hp with hp | hp
    · obtain ⟨q, hq, rfl⟩ := List.mem_map.mp hp
      obtain ⟨i, hi, rfl⟩ := List.mem_map.mp hq
      rw [List.mem_filter, Bool.and_eq_true, decide_eq_true_eq] at hi
      obtain ⟨-, hi, hw⟩ := hi
      have hcmd := h.cmd_lt i hi
      refine ⟨Nat.lt_succ_of_lt hcmd, Nat.lt_succ_self _, ?_⟩
      dsimp only
      rw [hsent.word_of_lt hcmd, hwordself, hw]
      cases hwc : w with
      | stack t => exact absurd hwc (hfree i t hi (hw.trans hwc))
      | entry e => exact ⟨e, rfl, rfl⟩
    · obtain ⟨h₁, h₂, e, he₁, he₂⟩ := h.reused p hp
      refine ⟨Nat.lt_succ_of_lt h₁, Nat.lt_succ_of_lt h₂, e, ?_, ?_⟩
      · rw [hsent.word_of_lt h₁]
        exact he₁
      · rw [hsent.word_of_lt h₂]
        exact he₂

omit [DecidableEq T] [DecidableEq E] in
/-- What the callers do to their phases and words, as long as it is not to a word in use. -/
theorem Inv.same_disk (h : Inv s) (status : Word T E → ℤ) (phase : T → Phase)
    (hold : ∀ i t, s.disk.busy i = true → s.word (s.cmd i) = .stack t →
      phase t = s.phase t ∧ status (.stack t) = s.status (.stack t)) :
    Inv { s with status := status, phase := phase } := by
  refine ⟨h.fault, h.nslots_, h.busy_lt, h.available, h.cmd_lt, h.cmd_inj, h.slot_status_, h.user, h.stored,
    h.running, h.done, fun i t hi hword => ?_, h.reused⟩
  obtain ⟨hphase, hstatus⟩ := hold i t hi hword
  obtain ⟨hphase', hstatus'⟩ := h.stack i t hi hword
  exact ⟨hphase.trans hphase', hstatus.trans hstatus'⟩

/-! ## Every step -/

theorem Inv.next {a : Act T E} (h : Inv s) (hs : s.next a = some s') : Inv s' := by
  unfold State.next at hs
  split at hs
  · cases hs
  cases a with
  | request t =>
    dsimp only at hs
    split at hs
    · next hidle =>
      cases hs
      refine h.same_disk s.status _ fun i t' hi hword => ⟨Function.update_of_ne ?_ _ _, rfl⟩
      rintro rfl
      rw [(h.stack i t' hi hword).1] at hidle
      cases hidle
    · cases hs
  | take t =>
    dsimp only at hs
    split at hs
    swap
    · cases hs
    next hwaiting =>
    split at hs
    · next slot hslot =>
      cases hs
      -- the caller waits for no command yet, so its word is not in use
      have hne : ∀ i t', s.disk.busy i = true → s.word (s.cmd i) = .stack t' → t' ≠ t := by
        rintro i t' hi hword rfl
        rw [(h.stack i t' hi hword).1] at hwaiting
        cases hwaiting
      obtain ⟨hsent, hstatus, hphase⟩ := h.sent (.stack t) hslot
        (Function.update s.status (.stack t) E_AGAIN) (Function.update s.phase t (.issued s.nreq))
      refine hsent.inv h hslot (fun i t' hi hword => ?_) (fun t' ht' => ?_) fun i t' hi hword heq => ?_
      · have hword' : Word.stack t' ≠ (Word.stack t : Word T E) := fun heq => hne i t' hi hword (Word.stack.inj heq)
        rw [hphase, hstatus]
        exact ⟨Function.update_of_ne (hne i t' hi hword) _ _, Function.update_of_ne hword' _ _⟩
      · obtain rfl := Word.stack.inj ht'
        rw [hphase, hstatus]
        exact ⟨Function.update_self .., Function.update_self ..⟩
      · exact hne i t' hi hword (Word.stack.inj heq).symm
    · cases hs
      exact h
  | finish t =>
    dsimp only at hs
    split at hs
    · split at hs
      · next hdone =>
        cases hs
        refine h.same_disk s.status _ fun i t' hi hword => ⟨Function.update_of_ne ?_ _ _, rfl⟩
        rintro rfl
        exact hdone (h.stack i t' hi hword).2
      · cases hs
    · cases hs
    · cases hs
  | prefetch e =>
    dsimp only at hs
    have hstack : ∀ t, Function.update s.status (.entry e) E_AGAIN (.stack t) = s.status (.stack t) :=
      fun t => Function.update_of_ne (by rintro ⟨⟩) _ _
    split at hs
    · next slot hslot =>
      cases hs
      obtain ⟨hsent, hstatus, hphase⟩ := h.sent (.entry e) hslot
        (Function.update s.status (.entry e) E_AGAIN) s.phase
      refine hsent.inv h hslot (fun i t hi hword => ?_) (fun t ht => ?_) fun i t hi hword heq => ?_
      · rw [hphase, hstatus]
        exact ⟨rfl, hstack t⟩
      · cases ht
      · cases heq
    · cases hs
      exact h.same_disk _ s.phase fun i t hi hword => ⟨rfl, hstack t⟩
  | complete slot =>
    dsimp only at hs
    split at hs
    · cases hs
      exact ⟨h.fault, h.nslots_, h.busy_lt, h.available, h.cmd_lt, h.cmd_inj, h.slot_status_, h.user, h.stored,
        h.running, h.done, h.stack, h.reused⟩
    · cases hs
  | interrupt is_error =>
    cases hs
    exact (h.handle_interrupt is_error).1

/-- The runs of the disk. -/
def Reachable : State T E → Prop :=
  Reach Boot (fun s a s' => s.next a = some s') fun _ _ => True

theorem Reachable.inv (h : Reachable s) : Inv s :=
  Reach.invariant (fun _ hboot => hboot.inv) (fun _ _ _ hinv _ hs => hinv.next hs) h

end State

end Chickadee.Ahci
