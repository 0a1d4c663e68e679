import Chickadee.Keyboard.Kbd

/-!
# What the reads deliver

The buffer is a line editor: the text up to `eol_` is that of the completed lines, and the rest is the line that is
being typed. Every character typed and every read does to the buffer what it does to the lines.
-/

namespace Chickadee.Keyboard

open Lib keyboardstate

namespace keyboardstate

variable {k k' : keyboardstate} {ch : UInt8} {chs out : List UInt8} {m : ℕ}

/-- The counters are in their bounds. -/
structure Ok (k : keyboardstate) : Prop where
  pos : k.pos_ < BUF_SIZE
  eol : k.eol_ ≤ k.len_
  len : k.len_ ≤ BUF_SIZE

/-- The buffer as lines. -/
def lines (k : keyboardstate) : Lines UInt8 := ⟨k.ring.take k.eol_, k.ring.drop k.eol_⟩

@[simp]
theorem length_ring : k.ring.length = k.len_ := length_ringList _ _ _ _

theorem normal_char_ring (ch : UInt8) (hk : k.Ok) (hlen : k.len_ < BUF_SIZE) (want_eol : Bool) :
    (k.normal_char ch want_eol).ring = k.ring ++ [ch] := by
  have hslot : (k.pos_ + k.len_) % BUF_SIZE < BUF_SIZE := Nat.mod_lt _ (by decide)
  have hpush := ringList_push k.buf_ (Function.update k.buf_ ((k.pos_ + k.len_) % BUF_SIZE) ch) k.len_ 1 hk.pos
    hlen (fun i hi => Function.update_of_ne (by omega) _ _) hslot
  simp only [normal_char, ring, if_pos hlen, hpush]
  simp [cells]

theorem normal_char_ok (hk : k.Ok) (want_eol : Bool) : (k.normal_char ch want_eol).Ok := by
  obtain ⟨hpos, heol, hlen⟩ := hk
  unfold normal_char
  split
  · refine ⟨hpos, ?_, by dsimp only; omega⟩
    cases want_eol
    · exact heol.trans (Nat.le_succ _)
    · exact le_rfl
  · exact ⟨hpos, heol, hlen⟩

/-- A character is added to its line, if there is room. -/
theorem normal_char_lines (hk : k.Ok) {want_eol : Bool} (hch : isEol ch = want_eol) :
    (k.normal_char ch want_eol).lines =
      k.lines.keys isEol (if k.len_ < BUF_SIZE then [.char ch] else []) := by
  have heol := hk.eol
  by_cases hlen : k.len_ < BUF_SIZE
  · have hring := normal_char_ring ch hk hlen want_eol
    rw [if_pos hlen]
    cases want_eol with
    | true =>
      have hnew : (k.normal_char ch true).eol_ = k.len_ + 1 := by simp [normal_char, hlen]
      simp [lines, hring, hnew, Lines.keys, Lines.key, hch]
    | false =>
      have hnew : (k.normal_char ch false).eol_ = k.eol_ := by simp [normal_char, hlen]
      simp [lines, hring, hnew, Lines.keys, Lines.key, hch, List.take_append_of_le_length,
        List.drop_append_of_le_length, heol]
  · rw [if_neg hlen]
    simp [normal_char, hlen]

/-- The last character of the line that is being typed is erased, if there is one. -/
theorem erase_lines (hk : k.Ok) :
    (if k.eol_ < k.len_ then { k with len_ := k.len_ - 1 } else k : keyboardstate).lines = k.lines.key isEol .erase := by
  have hlen : k.ring.length = k.len_ := length_ring
  split
  · next hlt =>
    have hring : ({ k with len_ := k.len_ - 1 } : keyboardstate).ring = k.ring.dropLast := by
      rw [List.dropLast_eq_take, hlen]
      exact (take_ringList _ _ _ (Nat.sub_le _ _)).symm
    simp only [lines, hring, Lines.key, Lines.mk.injEq]
    constructor
    · rw [List.dropLast_eq_take, List.take_take, hlen, Nat.min_eq_left (by omega)]
    · rw [List.dropLast_eq_take, List.dropLast_eq_take, List.drop_take, List.length_drop, hlen,
        Nat.sub_right_comm]
  · next hge =>
    have hend : k.ring.drop k.eol_ = [] := List.drop_eq_nil_of_le (by have := hk.eol; omega)
    simp [lines, Lines.key, hend]

/-! ## The interrupt -/

/-- One character that is read. -/
theorem readc_lines (hk : k.Ok) (h : k.readc ch = some k') : k'.Ok ∧ k'.lines = k.lines.keys isEol (k.accepted ch) := by
  unfold readc at h
  unfold accepted
  by_cases h0 : ch = 0
  · rw [if_pos h0] at h ⊢
    cases h
    exact ⟨hk, rfl⟩
  rw [if_neg h0] at h ⊢
  by_cases h8 : ch = 0x08
  · rw [if_pos h8] at h ⊢
    cases h
    refine ⟨?_, erase_lines hk⟩
    split
    · exact ⟨hk.pos, by dsimp only; omega, (Nat.sub_le _ _).trans hk.len⟩
    · exact hk
  rw [if_neg h8] at h ⊢
  by_cases hoff : ch = 0x11
  · rw [if_pos hoff] at h
    cases h
  rw [if_neg hoff] at h
  by_cases hq : ch = 0x03 ∨ ch = 0x71
  · rw [if_pos hq] at h
    have hnot : ch ≠ 0x0D ∧ isEol ch = false := by rcases hq with rfl | rfl <;> decide
    split at h
    · cases h
    · cases h
      rw [if_neg hnot.1]
      exact ⟨normal_char_ok hk false, normal_char_lines hk hnot.2⟩
  rw [if_neg hq] at h
  by_cases hcr : ch = 0x0D
  · rw [if_pos hcr] at h ⊢
    cases h
    exact ⟨normal_char_ok hk true, normal_char_lines hk (by decide)⟩
  rw [if_neg hcr] at h ⊢
  by_cases heol : ch = 0x04 ∨ ch = 0x0A
  · rw [if_pos heol] at h
    cases h
    exact ⟨normal_char_ok hk true, normal_char_lines hk (by simpa [isEol] using heol)⟩
  · rw [if_neg heol] at h
    cases h
    exact ⟨normal_char_ok hk false, normal_char_lines hk (by simpa [isEol] using heol)⟩

/-- All that an interrupt reads, by induction over the characters. -/
theorem handle_interrupt_lines (hk : k.Ok) (h : k.handle_interrupt chs = some k') :
    k'.Ok ∧ k'.lines = k.lines.keys isEol (k.acceptedAll chs) := by
  induction chs generalizing k with
  | nil =>
    cases h
    exact ⟨hk, rfl⟩
  | cons ch chs ih =>
    rw [handle_interrupt] at h
    obtain ⟨k₁, hone, hrest⟩ := Option.bind_eq_some_iff.mp h
    obtain ⟨hk₁, hlines₁⟩ := readc_lines hk hone
    obtain ⟨hk', hlines'⟩ := ih hk₁ hrest
    refine ⟨hk', ?_⟩
    rw [hlines', hlines₁, acceptedAll, hone, Lines.keys_append]
    rfl

/-! ## The read -/

/-- `consume(1)` takes the first character, which is of a completed line. -/
theorem consume_lines (hk : k.Ok) (heol : k.eol_ ≠ 0) :
    ∃ k', k.consume 1 = some k' ∧ k'.Ok ∧ k.ring = k.buf_ k.pos_ :: k'.ring ∧ k'.len_ = k.len_ - 1 ∧
      k'.eol_ = k.eol_ - 1 := by
  obtain ⟨hpos, hle, hlen⟩ := hk
  have hlen32 : BUF_SIZE < 2 ^ 32 := by decide
  have hnew : (k.eol_ + 2 ^ 32 - 1) % 2 ^ 32 = k.eol_ - 1 := by omega
  refine ⟨_, if_pos (by omega), ⟨Nat.mod_lt _ (by decide), ?_, ?_⟩, ?_, rfl, hnew⟩
  · dsimp only
    omega
  · exact (Nat.sub_le _ _).trans hlen
  · have hpop := ringList_pop k.buf_ BUF_SIZE k.pos_ k.len_ 1 (by omega) hpos
    simpa [cells, ring] using hpop

/-- The text of the completed lines has a first character, unless there is none. -/
theorem done_cons (heol : k.eol_ ≠ 0) (hring : k.ring = k.buf_ k.pos_ :: k'.ring) (hnew : k'.eol_ = k.eol_ - 1) :
    k.lines.done = k.buf_ k.pos_ :: k'.lines.done ∧ k.lines.cur = k'.lines.cur := by
  obtain ⟨e, he⟩ := Nat.exists_eq_succ_of_ne_zero heol
  simp [lines, hring, hnew, he]

theorem done_nil (heol : k.eol_ = 0) : k.lines.done = [] := by simp [lines, heol]

/-- The loop behind a character that it has: an end of the file stops it. -/
theorem readLoop_more (out : List UInt8) (hk : k.Ok) (hout : out ≠ []) :
    ∃ k', readLoop m k out = some (k', out ++ (k.lines.done.takeWhile (· ≠ 0x04)).take m) ∧ k'.Ok ∧
      k.lines.done = (k.lines.done.takeWhile (· ≠ 0x04)).take m ++ k'.lines.done ∧ k'.lines.cur = k.lines.cur ∧
      k'.len_ ≤ k.len_ := by
  induction m generalizing k out with
  | zero => exact ⟨k, by simp [readLoop], hk, by simp, rfl, le_rfl⟩
  | succ m ih =>
    by_cases heol : k.eol_ = 0
    · exact ⟨k, by simp [readLoop, heol, done_nil heol], hk, by simp [done_nil heol], rfl, le_rfl⟩
    obtain ⟨k₁, hconsume, hk₁, hring, hlen, hnew⟩ := consume_lines hk heol
    obtain ⟨hdone, hcur⟩ := done_cons heol hring hnew
    by_cases hc : k.buf_ k.pos_ = 0x04
    · exact ⟨k, by simp [readLoop, heol, hc, hdone, hout], hk, by simp [hdone, hc], rfl, le_rfl⟩
    · obtain ⟨k', hloop, hk', hrest, hcur', hlen'⟩ := ih (out ++ [k.buf_ k.pos_]) hk₁ (by simp)
      rw [hdone, takeWhile_take_cons hc]
      refine ⟨k', by simp [readLoop, heol, hc, hconsume, hloop], hk', ?_, hcur'.trans hcur.symm, by omega⟩
      rw [List.cons_append, ← hrest]

/-- **The loop of `read` gets what a read of the lines gets.** -/
theorem readLoop_lines (hk : k.Ok) :
    ∃ k', readLoop m k [] = some (k', (readText 0x04 m k.lines.done).1) ∧ k'.Ok ∧
      k'.lines = ⟨(readText 0x04 m k.lines.done).2, k.lines.cur⟩ ∧ k'.len_ ≤ k.len_ := by
  unfold readText
  cases m with
  | zero => exact ⟨k, by simp [readLoop], hk, by simp, le_rfl⟩
  | succ m =>
    by_cases heol : k.eol_ = 0
    · exact ⟨k, by simp [readLoop, heol, done_nil heol], hk, by ext1 <;> simp [done_nil heol], le_rfl⟩
    obtain ⟨k₁, hconsume, hk₁, hring, hlen, hnew⟩ := consume_lines hk heol
    obtain ⟨hdone, hcur⟩ := done_cons heol hring hnew
    by_cases hc : k.buf_ k.pos_ = 0x04
    · rw [hdone, hc, if_pos ⟨Nat.succ_ne_zero m, rfl⟩]
      exact ⟨k₁, by simp [readLoop, heol, hc, hconsume], hk₁, by ext1 <;> simp [hcur], by omega⟩
    · obtain ⟨k', hloop, hk', hrest, hcur', hlen'⟩ := readLoop_more (m := m) [k.buf_ k.pos_] hk₁ (by simp)
      rw [hdone, if_neg (by simp [hc])]
      dsimp only
      rw [takeWhile_take_cons hc]
      refine ⟨k', by simp [readLoop, heol, hc, hconsume, hloop], hk', ?_, by omega⟩
      ext1
      · rw [List.length_cons, List.drop_succ_cons]
        generalize (k₁.lines.done.takeWhile (· ≠ 0x04)).take m = bytes at hrest ⊢
        rw [hrest, List.drop_left]
      · exact hcur'.trans hcur.symm

/-- The characters that a read takes out of the buffer are those that the lines lose. -/
theorem ring_take (hk : k.Ok) (hk' : k'.Ok) (hcur : k'.lines.cur = k.lines.cur) (hlen : k'.len_ ≤ k.len_)
    {taken : List UInt8} (hdone : k.lines.done = taken ++ k'.lines.done) :
    k.ring.take (k.len_ - k'.len_) = taken := by
  have hsplit : ∀ q : keyboardstate, q.lines.done ++ q.lines.cur = q.ring := fun q => List.take_append_drop _ _
  have hring : k.ring = taken ++ k'.ring := by
    rw [← hsplit k, ← hsplit k', hdone, hcur, List.append_assoc]
  have hlength := congrArg List.length hring
  rw [List.length_append, length_ring, length_ring] at hlength
  rw [hring, show k.len_ - k'.len_ = taken.length by omega, List.take_left]

end keyboardstate

/-! ## Runs -/

namespace State

variable {s s' : State} {a : Act} {as : List Act}

/-- The lines behind what was read are those of all that was typed. -/
structure Inv (s : State) : Prop where
  ok : s.kbd.Ok
  lines : s.kbd.lines.behind s.taken = Lines.edit isEol s.typed
  reads : ∀ g ∈ s.reads, g.bytes.length ≤ g.sz ∧ 0x04 ∉ g.bytes ∧ (g.taken = g.bytes ∨ g.taken = [0x04] ∧ g.bytes = [])

theorem Inv.congr (h : Inv s) (hring : s'.kbd.ring = s.kbd.ring) (hpos : s'.kbd.pos_ = s.kbd.pos_)
    (hlen : s'.kbd.len_ = s.kbd.len_) (heol : s'.kbd.eol_ = s.kbd.eol_) (htyped : s'.typed = s.typed)
    (hreads : s'.reads = s.reads) : Inv s' := by
  obtain ⟨⟨hp, he, hl⟩, hlines, hr⟩ := h
  refine ⟨⟨by rwa [hpos], by rwa [heol, hlen], by rwa [hlen]⟩, ?_, by rwa [hreads]⟩
  rw [htyped, ← hlines]
  simp [taken, keyboardstate.lines, hring, heol, hreads]

theorem Inv.startRead (h : Inv s) : Inv s.startRead := h.congr rfl rfl rfl rfl rfl rfl

/-- The tail of a read. -/
theorem Inv.readTail (h : Inv s) (t sz : ℕ) : ∃ s', s.readTail t sz = some s' ∧ Inv s' := by
  obtain ⟨k', hloop, hk', hlines, hlen⟩ := readLoop_lines (m := sz) h.ok
  obtain ⟨took, htook, hsz, heof, hor⟩ := readText_spec 0x04 sz s.kbd.lines.done
  have hdone : k'.lines.done = (readText 0x04 sz s.kbd.lines.done).2 := by rw [hlines]
  have hcur : k'.lines.cur = s.kbd.lines.cur := by rw [hlines]
  rw [← hdone] at htook
  have htaken := ring_take h.ok hk' hcur hlen htook
  refine ⟨_, by rw [State.readTail, hloop, Option.map_some], hk', ?_, ?_⟩
  · rw [← h.lines]
    dsimp only
    simp only [taken, List.flatMap_append, List.flatMap_singleton, htaken]
    rw [← Lines.behind_behind]
    congr 1
    ext1
    · exact htook.symm
    · exact hcur
  · intro g hg
    rcases List.mem_append.mp hg with hg | hg
    · exact h.reads g hg
    · rw [List.mem_singleton] at hg
      subst hg
      exact ⟨hsz, heof, by rwa [htaken]⟩

theorem Inv.readBlock (h : Inv s) (t sz : ℕ) (intr : Bool) : ∃ s', s.readBlock t sz intr = some s' ∧ Inv s' := by
  unfold State.readBlock
  split
  · exact ⟨_, rfl, h.congr rfl rfl rfl rfl rfl rfl⟩
  · split
    · exact h.readTail t sz
    · exact ⟨_, rfl, h.congr rfl rfl rfl rfl rfl rfl⟩

/-- A section keeps the invariant. -/
theorem Inv.step (h : Inv s) (hs : s.step a = some s') : Inv s' := by
  cases a with
  | interrupt chs =>
    simp only [State.step] at hs
    split at hs
    · cases hs
    · cases hcode : s.kbd.handle_interrupt chs with
      | none =>
        rw [hcode] at hs
        cases hs
        exact h.congr rfl rfl rfl rfl rfl rfl
      | some k =>
        rw [hcode] at hs
        cases hs
        obtain ⟨hk, hlines⟩ := handle_interrupt_lines h.ok hcode
        refine ⟨hk, ?_, h.reads⟩
        rw [Lines.edit_append, ← h.lines, Lines.keys_behind, ← hlines]
        rfl
  | read t sz intr =>
    simp only [State.step] at hs
    split at hs
    · cases hs
    · split at hs
      · next hzero =>
        obtain ⟨s₁, hcode, hinv⟩ := h.startRead.readTail t sz
        rw [hcode] at hs
        cases hs
        exact hinv
      · obtain ⟨s₁, hcode, hinv⟩ := h.startRead.readBlock t sz intr
        rw [hcode] at hs
        cases hs
        exact hinv
  | reread t intr =>
    simp only [State.step] at hs
    split at hs
    · cases hs
    · obtain ⟨sz, -, hs⟩ := Option.bind_eq_some_iff.mp hs
      obtain ⟨s₁, hcode, hinv⟩ := h.readBlock t sz intr
      rw [hcode] at hs
      cases hs
      exact hinv
  | halt =>
    cases hs
    exact h.congr rfl rfl rfl rfl rfl rfl
  | fail =>
    cases hs
    exact h.congr rfl rfl rfl rfl rfl rfl

theorem Inv.run (h : Inv s) (hrun : s.run as = some s') : Inv s' := by
  induction as generalizing s with
  | nil =>
    cases hrun
    exact h
  | cons a as ih =>
    rw [State.run, List.foldlM_cons] at hrun
    obtain ⟨s₁, hstep, hrest⟩ := Option.bind_eq_some_iff.mp hrun
    exact ih (h.step hstep) hrest

theorem inv_init : Inv init :=
  ⟨⟨by decide, le_rfl, Nat.zero_le _⟩, rfl, by simp [init]⟩

/-- What is taken is what is delivered, and the ends of the file. -/
theorem Inv.filter_taken (h : Inv s) : s.taken.filter (· ≠ 0x04) = s.delivered := by
  rw [taken, delivered, List.filter_flatMap]
  refine List.flatMap_congr fun g hg => ?_
  obtain ⟨-, heof, heq | ⟨heq, hbytes⟩⟩ := h.reads g hg
  · rw [heq, List.filter_eq_self]
    intro c hc
    simp only [ne_eq, decide_not, Bool.not_eq_eq_eq_not, Bool.not_true, decide_eq_false_iff_not]
    rintro rfl
    exact heof hc
  · simp [heq, hbytes]

/-- **In every run the counters stay in their bounds, and the reads deliver the completed lines in order, without the
ends of the file: what they have taken out, with what is still in the buffer, is the text of the completed lines. A
read takes what it delivers, or an end of the file alone, and it never fails.** -/
theorem reads_deliver (hrun : init.run as = some s) :
    (s.kbd.eol_ ≤ s.kbd.len_ ∧ s.kbd.len_ ≤ BUF_SIZE) ∧
      s.delivered <+: (Lines.edit isEol s.typed).done.filter (· ≠ 0x04) ∧
      s.taken ++ s.kbd.lines.done = (Lines.edit isEol s.typed).done ∧
      s.kbd.lines.cur = (Lines.edit isEol s.typed).cur ∧
      (∀ g ∈ s.reads, g.bytes.length ≤ g.sz ∧ 0x04 ∉ g.bytes ∧
        (g.taken = g.bytes ∨ g.taken = [0x04] ∧ g.bytes = [])) ∧
      ∀ t sz, (s.readTail t sz).isSome = true := by
  have h := inv_init.run hrun
  have hdone : s.taken ++ s.kbd.lines.done = (Lines.edit isEol s.typed).done := congrArg Lines.done h.lines
  refine ⟨⟨h.ok.eol, h.ok.len⟩, ?_, hdone, (congrArg Lines.cur h.lines : _), h.reads, fun t sz => ?_⟩
  · rw [← hdone, List.filter_append, h.filter_taken]
    exact List.prefix_append _ _
  · obtain ⟨s', hs', -⟩ := h.readTail t sz
    rw [hs']
    rfl

/-- Two letters with one erased between them, a line's end, and an end of the file; then two reads. -/
theorem reads_deliver_erased :
    ∃ s, init.run [.read 1 2 false, .interrupt [0x61, 0x62, 0x08, 0x63, 0x0D, 0x04], .reread 1 false,
        .read 2 5 false] = some s ∧ s.delivered = [0x61, 0x63, 0x0A] ∧
      s.delivered <+: (Lines.edit isEol s.typed).done.filter (· ≠ 0x04) := by
  have hrun : ∃ s, init.run [.read 1 2 false, .interrupt [0x61, 0x62, 0x08, 0x63, 0x0D, 0x04], .reread 1 false,
      .read 2 5 false] = some s ∧ s.delivered = [0x61, 0x63, 0x0A] := ⟨_, rfl, rfl⟩
  obtain ⟨s, hs, hdelivered⟩ := hrun
  exact ⟨s, hs, hdelivered, (reads_deliver hs).2.1⟩

end State

end Chickadee.Keyboard
