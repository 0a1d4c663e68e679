import Chickadee.Pipe.Bbuf

/-!
# A pipe is a FIFO

The copy loops move bytes between the caller and the ring in order; a section adds to `accepted` and
to `returned` exactly what it moved. So what was accepted is what was returned, followed by what is in
the ring.
-/

namespace Chickadee.Pipe

open Lib

/-! ## The copy loops -/

namespace Bbuf

variable {b b' : Bbuf}

/-- The ring is well formed. -/
structure Ok (b : Bbuf) : Prop where
  len : b.len_ ≤ BBUF_CAP
  pos : b.pos_ < BBUF_CAP

theorem length_unread (b : Bbuf) : b.unread.length = b.len_ := length_ringList _ _ _ _

/-- A part of the data as the loop of `write` copies it. -/
theorem cells_copyTo (m : ℕ → UInt8) (data : List UInt8) {index pos n : ℕ}
    (h : pos + n ≤ data.length) :
    cells (copyTo m index n fun i => data.getD (pos + i) 0) index n = (data.drop pos).take n := by
  unfold cells
  refine List.ext_getElem (by simp; omega) fun i hi _ => ?_
  have hi : i < n := by simpa using hi
  have hlt : pos + i < data.length := by omega
  rw [List.getElem_map, List.getElem_range, copyTo_of_mem (by omega) (by omega),
    Nat.add_sub_cancel_left]
  simp [hlt]

/-- What the loop of `write` has done when it stops: it moved `n` bytes. -/
structure Wrote (data : List UInt8) (b : Bbuf) (pos : ℕ) (b' : Bbuf) (n : ℕ) : Prop where
  ok : b'.Ok
  fits : pos + n ≤ data.length
  unread : b'.unread = b.unread ++ (data.drop pos).take n
  stops : pos + n = data.length ∨ b'.len_ = BBUF_CAP
  write_closed : b'.write_closed_ = b.write_closed_
  read_closed : b'.read_closed_ = b.read_closed_

/-- One turn of the loop of `write` fills the free cells up to the end of the array. -/
theorem writeLoop_wrote (data : List UInt8) (fuel : ℕ) (b : Bbuf) (pos : ℕ) (hb : b.Ok)
    (hpos : pos ≤ data.length) (hfuel : data.length < pos + fuel) :
    ∃ n, (b.writeLoop data fuel pos).2 = pos + n ∧
      Wrote data b pos (b.writeLoop data fuel pos).1 n := by
  induction fuel generalizing b pos with
  | zero => omega
  | succ fuel ih =>
    obtain ⟨hlen, hring⟩ := hb
    unfold writeLoop
    by_cases hgo : pos < data.length ∧ b.len_ < BBUF_CAP
    · rw [if_pos hgo]
      dsimp only
      have hindex : (b.pos_ + b.len_) % BBUF_CAP < BBUF_CAP := Nat.mod_lt _ (by decide)
      generalize hn : min (data.length - pos)
        (min (BBUF_CAP - (b.pos_ + b.len_) % BBUF_CAP) (BBUF_CAP - b.len_)) = n
      have hpush := ringList_push b.bbuf_
        (copyTo b.bbuf_ ((b.pos_ + b.len_) % BBUF_CAP) n fun i => data.getD (pos + i) 0)
        b.len_ n hring (by omega) (fun i hi => copyTo_of_not_mem hi) (by omega)
      rw [cells_copyTo _ _ (by omega)] at hpush
      obtain ⟨m, hend, hwrote⟩ := ih { b with
          bbuf_ := copyTo b.bbuf_ ((b.pos_ + b.len_) % BBUF_CAP) n fun i => data.getD (pos + i) 0,
          len_ := b.len_ + n }
        (pos + n) ⟨by show b.len_ + n ≤ _; omega, hring⟩ (by omega) (by omega)
      refine ⟨n + m, by rw [hend, Nat.add_assoc], hwrote.ok, ?_, ?_, ?_, hwrote.write_closed,
        hwrote.read_closed⟩
      · have := hwrote.fits
        omega
      · rw [hwrote.unread, List.take_add, List.drop_drop, ← List.append_assoc]
        exact congrArg (· ++ _) hpush
      · have := hwrote.stops
        rwa [Nat.add_assoc] at this
    · rw [if_neg hgo]
      refine ⟨0, rfl, ⟨hlen, hring⟩, hpos, ?_, ?_, rfl, rfl⟩
      · rw [List.take_zero, List.append_nil]
      · show pos + 0 = data.length ∨ b.len_ = BBUF_CAP
        omega

/-- What the loop of `read` has done when it stops: it moved `bytes`. -/
structure Gave (sz : ℕ) (b : Bbuf) (out : List UInt8) (b' : Bbuf) (bytes : List UInt8) : Prop where
  ok : b'.Ok
  fits : out.length + bytes.length ≤ sz
  unread : b.unread = bytes ++ b'.unread
  stops : out.length + bytes.length = sz ∨ b'.len_ = 0
  write_closed : b'.write_closed_ = b.write_closed_
  read_closed : b'.read_closed_ = b.read_closed_

/-- One turn of the loop of `read` empties the full cells up to the end of the array. -/
theorem readLoop_gave (sz fuel : ℕ) (b : Bbuf) (out : List UInt8) (hb : b.Ok)
    (hout : out.length ≤ sz) (hfuel : sz < out.length + fuel) :
    ∃ bytes, (b.readLoop sz fuel out).2 = out ++ bytes ∧
      Gave sz b out (b.readLoop sz fuel out).1 bytes := by
  induction fuel generalizing b out with
  | zero => omega
  | succ fuel ih =>
    obtain ⟨hlen, hring⟩ := hb
    unfold readLoop
    by_cases hgo : out.length < sz ∧ 0 < b.len_
    · rw [if_pos hgo]
      dsimp only
      generalize hn : min (sz - out.length) (min b.len_ (BBUF_CAP - b.pos_)) = n
      have hpop := ringList_pop b.bbuf_ BBUF_CAP b.pos_ b.len_ n (by omega) (by omega)
      have hcells : (cells b.bbuf_ b.pos_ n).length = n := length_cells _ _ _
      obtain ⟨bytes, hend, hgave⟩ := ih
        { b with pos_ := (b.pos_ + n) % BBUF_CAP, len_ := b.len_ - n }
        (out ++ cells b.bbuf_ b.pos_ n)
        ⟨by show b.len_ - n ≤ _; omega, Nat.mod_lt _ (by decide)⟩
        (by rw [List.length_append, hcells]; omega) (by rw [List.length_append, hcells]; omega)
      have hfits := hgave.fits
      have hstops := hgave.stops
      rw [List.length_append, hcells] at hfits hstops
      refine ⟨cells b.bbuf_ b.pos_ n ++ bytes, by rw [hend, List.append_assoc], hgave.ok, ?_, ?_, ?_,
        hgave.write_closed, hgave.read_closed⟩
      · rw [List.length_append, hcells]
        omega
      · rw [List.append_assoc, ← hgave.unread]
        exact hpop
      · rw [List.length_append, hcells]
        omega
    · rw [if_neg hgo]
      refine ⟨[], by rw [List.append_nil], ⟨hlen, hring⟩, hout, rfl, ?_, rfl, rfl⟩
      show out.length + 0 = sz ∨ b.len_ = 0
      omega

end Bbuf

/-! ## The sections -/

/-- The invariant: nothing is lost, duplicated or reordered. -/
structure Inv (s : State) : Prop where
  ring : s.b.Ok
  fifo : s.accepted = s.returned ++ s.b.unread

/-- What the end of a call says about the pipe before the section and after it. -/
def Ret.Right (s s' : State) : Ret → Prop
  | .none => True
  | .wrote data r =>
    (s.b.read_closed_ = true → r = E_PIPE) ∧
    (s.b.read_closed_ = false → ∃ n : ℕ, r = n ∧ n ≤ data.length ∧ (data ≠ [] → 0 < n))
  | .got sz bytes =>
    bytes.length ≤ sz ∧
    (0 < sz → bytes = [] → s'.b.write_closed_ = true ∧ s'.b.unread = [])

/-- What every section does. -/
structure Section (s : State) (q : State × Ret) : Prop where
  inv : Inv (q.1.record q.2)
  right : q.2.Right s q.1

namespace State

variable {s : State}

theorem section_none {s' : State} (h : Inv s) (hb : s'.b.unread = s.b.unread)
    (hring : s'.b.Ok) (ha : s'.accepted = s.accepted) (hr : s'.returned = s.returned) :
    Section s (s', .none) :=
  ⟨⟨hring, by
    show s'.accepted = s'.returned ++ s'.b.unread
    rw [ha, hr, hb]
    exact h.fifo⟩, trivial⟩

/-- **The end of `write`**, run when there is room or the read end is closed. -/
theorem writeTail_section (h : Inv s) (data : List UInt8)
    (hroom : s.b.read_closed_ = false → data ≠ [] → s.b.len_ < BBUF_CAP) :
    Section s (s.writeTail data) := by
  unfold writeTail
  split
  · next hclosed =>
    refine ⟨⟨h.ring, ?_⟩, fun _ => rfl, fun hopen => absurd hopen (by simp [hclosed])⟩
    show s.accepted ++ data.take (E_PIPE).toNat = s.returned ++ s.b.unread
    rw [show (E_PIPE).toNat = 0 from rfl, List.take_zero, List.append_nil]
    exact h.fifo
  · next hopen =>
    have hopen : s.b.read_closed_ = false := Bool.eq_false_iff.mpr hopen
    obtain ⟨n, hpos, hwrote⟩ := Bbuf.writeLoop_wrote data (data.length + 1) s.b 0 h.ring
      (Nat.zero_le _) (by omega)
    rw [Nat.zero_add] at hpos
    have hunread := hwrote.unread
    have hfits := hwrote.fits
    rw [List.drop_zero] at hunread
    rw [Nat.zero_add] at hfits
    dsimp only
    rw [hpos]
    refine ⟨⟨hwrote.ok, ?_⟩, fun hclosed => absurd hclosed (by simp [hopen]), fun _ => ?_⟩
    · show s.accepted ++ data.take ((n : ℤ)).toNat =
        s.returned ++ (s.b.writeLoop data (data.length + 1) 0).1.unread
      rw [Int.toNat_natCast, hunread, ← List.append_assoc, h.fifo]
    · refine ⟨n, rfl, hfits, fun hne => ?_⟩
      have hlen := congrArg List.length hunread
      rw [List.length_append, Bbuf.length_unread, Bbuf.length_unread, List.length_take] at hlen
      have hpositive : 0 < data.length := List.length_pos_iff.mpr hne
      have hfree := hroom hopen hne
      have hstops := hwrote.stops
      omega

/-- **The end of `read`**, run when there is data, the write end is closed, or `sz = 0`. -/
theorem readTail_section (h : Inv s) (sz : ℕ)
    (hdata : s.b.write_closed_ = false → 0 < sz → 0 < s.b.len_) : Section s (s.readTail sz) := by
  unfold readTail
  split
  · next heof =>
    obtain ⟨hclosed, hempty⟩ := heof
    have hlen : s.b.len_ = 0 := by simpa [Bbuf.pipe_empty] using hempty
    refine ⟨⟨h.ring, ?_⟩, Nat.zero_le _, fun _ _ => ⟨hclosed, ?_⟩⟩
    · show s.accepted = s.returned ++ [] ++ s.b.unread
      rw [List.append_nil]
      exact h.fifo
    · exact List.length_eq_zero_iff.mp ((Bbuf.length_unread _).trans hlen)
  · next hmore =>
    obtain ⟨bytes, hout, hgave⟩ := Bbuf.readLoop_gave sz (sz + 1) s.b [] h.ring (Nat.zero_le _)
      (by simp)
    rw [List.nil_append] at hout
    have hfits := hgave.fits
    rw [List.length_nil, Nat.zero_add] at hfits
    dsimp only
    rw [hout]
    refine ⟨⟨hgave.ok, ?_⟩, hfits, fun hsz hnil => ?_⟩
    · show s.accepted = s.returned ++ bytes ++ (s.b.readLoop sz (sz + 1) []).1.unread
      rw [List.append_assoc, ← hgave.unread]
      exact h.fifo
    · -- something was there to be read, so an empty result is impossible
      have hstops := hgave.stops
      have hunread := congrArg List.length hgave.unread
      rw [List.length_append, Bbuf.length_unread, Bbuf.length_unread, hnil] at hunread
      rw [hnil, List.length_nil] at hstops
      rw [List.length_nil] at hunread
      have hpositive : 0 < s.b.len_ := by
        by_cases hclosed : s.b.write_closed_ = true
        · by_contra hzero
          exact hmore ⟨hclosed, by simp [Bbuf.pipe_empty]; omega⟩
        · exact hdata (Bool.eq_false_iff.mpr hclosed) hsz
      omega

theorem pipe_full_eq (h : Inv s) : s.b.pipe_full = some (decide (s.b.len_ = BBUF_CAP)) :=
  if_pos h.ring.len

theorem writeBlock_section (h : Inv s) (data : List UInt8) :
    ∃ q, s.writeBlock data = some q ∧ Section s q := by
  unfold writeBlock
  rw [pipe_full_eq h]
  dsimp only
  split
  · next hgo =>
    refine ⟨_, rfl, writeTail_section h data fun hopen _ => ?_⟩
    have hlen := h.ring.len
    rw [hopen, Bool.or_false, Bool.not_eq_true', decide_eq_false_iff_not] at hgo
    omega
  · exact ⟨_, rfl, section_none h rfl h.ring rfl rfl⟩

theorem readBlock_section (h : Inv s) (sz : ℕ) : Section s (s.readBlock sz) := by
  unfold readBlock
  split
  · next hgo =>
    refine readTail_section h sz fun hopen _ => ?_
    rw [hopen, Bool.or_false] at hgo
    simpa [Bbuf.pipe_empty, Nat.pos_iff_ne_zero] using hgo
  · exact section_none h rfl h.ring rfl rfl

/-- Taking a task off does not touch the buffer. -/
theorem Section.of_tasks {q : State × Ret} {m : Multiset Task}
    (h : Section { s with tasks := m } q) : Section s q := ⟨h.inv, h.right⟩

theorem inv_tasks (h : Inv s) (m : Multiset Task) : Inv { s with tasks := m } := ⟨h.ring, h.fifo⟩

/-- **Every section keeps the invariant, and what it returns is right.** -/
theorem next_section (h : Inv s) {a : Act} {q : State × Ret} (hn : s.next a = some q) :
    Section s q := by
  cases a with
  | write data =>
    simp only [next, pipe_full_eq h] at hn
    split at hn
    · exact absurd hn (by simp)
    · split at hn
      · obtain ⟨q', hq, hsec⟩ := writeBlock_section h data
        rw [hq] at hn
        cases hn
        exact hsec
      · next hgo =>
        cases hn
        refine writeTail_section h data fun _ hne => ?_
        have hlen := h.ring.len
        rw [decide_eq_true_eq] at hgo
        have hfull : s.b.len_ ≠ BBUF_CAP := fun heq => hgo ⟨heq, hne⟩
        omega
  | rewrite data =>
    simp only [next] at hn
    split at hn
    · obtain ⟨q', hq, hsec⟩ := writeBlock_section (inv_tasks h _) data
      rw [hq] at hn
      cases hn
      exact Section.of_tasks hsec
    · exact absurd hn (by simp)
  | read sz =>
    simp only [next] at hn
    split at hn
    · exact absurd hn (by simp)
    · split at hn
      · cases hn
        exact readBlock_section h sz
      · next hgo =>
        cases hn
        refine readTail_section h sz fun hopen hsz => ?_
        by_contra hzero
        exact hgo ⟨by simp [Bbuf.pipe_empty]; omega, by simp [hopen], by omega⟩
  | reread sz =>
    simp only [next] at hn
    split at hn
    · cases hn
      exact Section.of_tasks (readBlock_section (inv_tasks h _) sz)
    · exact absurd hn (by simp)
  | leave t =>
    simp only [next] at hn
    split at hn
    · cases hn
      exact section_none h rfl h.ring rfl rfl
    · exact absurd hn (by simp)
  | close_write =>
    simp only [next] at hn
    split at hn
    · exact absurd hn (by simp)
    · cases hn
      exact section_none h rfl ⟨h.ring.len, h.ring.pos⟩ rfl rfl
  | close_read =>
    simp only [next] at hn
    split at hn
    · exact absurd hn (by simp)
    · cases hn
      exact section_none h rfl ⟨h.ring.len, h.ring.pos⟩ rfl rfl

/-- **No assertion fails** in a section that its users may run. -/
theorem exists_next (h : Inv s) {a : Act} (ha : Allowed s a) (hp : Present s a) :
    ∃ q, s.next a = some q := by
  cases a with
  | write data =>
    simp only [next, pipe_full_eq h, ha.2, Bool.false_eq_true, if_false]
    split
    · obtain ⟨q, hq, -⟩ := writeBlock_section h data
      exact ⟨q, hq⟩
    · exact ⟨_, rfl⟩
  | rewrite data =>
    obtain ⟨q, hq, -⟩ :=
      writeBlock_section (inv_tasks h (s.tasks.erase (.wrWoken data))) data
    refine ⟨q, ?_⟩
    have hmem : .wrWoken data ∈ s.tasks := hp
    simp only [next]
    rw [if_pos hmem, hq]
  | read sz =>
    simp only [next, ha.2, Bool.false_eq_true, if_false]
    split
    · exact ⟨_, rfl⟩
    · exact ⟨_, rfl⟩
  | reread sz => exact ⟨_, if_pos hp⟩
  | leave t => exact ⟨_, if_pos hp⟩
  | close_write => exact ⟨_, if_neg (by simp [ha.1])⟩
  | close_read => exact ⟨_, if_neg (by simp [ha.1])⟩

theorem step_section (h : Inv s) {a : Act} {s' : State} {r : Ret} (hs : s.step a = some (s', r)) :
    Inv s' ∧ r.Right s s' := by
  unfold step at hs
  split at hs
  · exact absurd hs (by simp)
  · next s₁ r₁ hn =>
    cases hs
    obtain ⟨hinv, hright⟩ := next_section h hn
    refine ⟨hinv, ?_⟩
    -- the record does not touch the buffer
    cases r with
    | none => exact trivial
    | wrote data n => exact hright
    | got sz bytes => exact hright

end State

/-! ## Every interleaving -/

theorem Reachable.inv {s : State} (h : Reachable s) : Inv s := by
  refine Reach.invariant (P := Inv) ?_ (fun s a s' hi _ ⟨r, hs⟩ => (State.step_section hi hs).1) h
  rintro s ⟨m, rfl⟩
  exact ⟨⟨Nat.zero_le _, Nat.zero_lt_succ _⟩, rfl⟩

/--
**A pipe is a FIFO.** In every reachable state the accepted bytes are the returned ones followed by
the `len_ ≤ BBUF_CAP` bytes of the ring, every section that the users may run ends without a failed
assertion, and the result of every call is right.
-/
theorem pipe_fifo {s : State} (h : Reachable s) :
    s.accepted = s.returned ++ s.b.unread ∧ s.b.unread.length = s.b.len_ ∧ s.b.len_ ≤ BBUF_CAP ∧
      (∀ a, Allowed s a → Present s a → ∃ s' r, s.step a = some (s', r)) ∧
      ∀ a s' r, s.step a = some (s', r) → r.Right s s' := by
  refine ⟨h.inv.fifo, Bbuf.length_unread _, h.inv.ring.len, fun a ha hp => ?_, fun _ _ _ hs =>
    (State.step_section h.inv hs).2⟩
  obtain ⟨q, hq⟩ := State.exists_next h.inv ha hp
  unfold State.step
  rw [hq]
  exact ⟨_, _, rfl⟩

/-- A pipe into which five bytes have been written. -/
def fiveWritten : State where
  b := {
    bbuf_ := copyTo (fun _ => 0) 0 5 fun i => [104, 101, 108, 108, 111].getD (0 + i) 0
    pos_ := 0, len_ := 5, write_closed_ := false, read_closed_ := false }
  tasks := 0
  accepted := [104, 101, 108, 108, 111]
  returned := []

theorem pipe_fifo_fiveWritten :
    fiveWritten.accepted = fiveWritten.returned ++ fiveWritten.b.unread ∧
      fiveWritten.b.unread.length = 5 := by
  have hinit : Reachable (.init fun _ => 0) := .init ⟨_, rfl⟩
  have hstep : Reachable fiveWritten :=
    .step hinit (a := .write [104, 101, 108, 108, 111]) ⟨by decide, rfl⟩ ⟨_, rfl⟩
  have h := pipe_fifo hstep
  exact ⟨h.1, h.2.1⟩

end Chickadee.Pipe
