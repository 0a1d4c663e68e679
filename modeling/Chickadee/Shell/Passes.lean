import Chickadee.Lib.Ring
import Chickadee.Shell.Main
import Chickadee.Shell.Scan

/-!
# What a pass of `process_main` does

The text in the buffer is what was left over and what was read. A pass runs its command lists, and keeps what is left.
-/

namespace Chickadee.Shell

open Lib

variable {w : System} {buf buf' : ℕ → UInt8} {i j n fuel : ℕ} {t u x r : List UInt8} {bg : Bool} {p : Prog}

/-- The string at `buf + i` is `t`. -/
def At (buf : ℕ → UInt8) : ℕ → List UInt8 → Prop
  | i, [] => i < SIZE ∧ buf i = 0
  | i, c :: t => i < SIZE ∧ buf i = c ∧ c ≠ 0 ∧ At buf (i + 1) t

theorem At.lt (h : At buf i t) : i + t.length < SIZE := by
  induction t generalizing i with
  | nil => exact h.1
  | cons c t ih =>
    have := ih h.2.2.2
    rw [List.length_cons]
    omega

theorem At.congr (h : At buf i t) (hsame : ∀ k, i ≤ k → buf' k = buf k) : At buf' i t := by
  induction t generalizing i with
  | nil => exact ⟨h.1, (hsame i le_rfl).trans h.2⟩
  | cons c t ih =>
    obtain ⟨hi, hc, h0, hrest⟩ := h
    exact ⟨hi, (hsame i le_rfl).trans hc, h0, ih hrest fun k hk => hsame k (by omega)⟩

/-- The string that some cells make up, if there is a null character behind them. -/
theorem at_cells (hn : i + n < SIZE) (hz : ∀ k < n, buf (i + k) ≠ 0) (hend : buf (i + n) = 0) :
    At buf i (cells buf i n) := by
  induction n generalizing i with
  | zero => exact ⟨hn, hend⟩
  | succ n ih =>
    rw [cells_succ]
    refine ⟨by omega, rfl, hz 0 (Nat.succ_pos n), ih (by omega) (fun k hk => ?_) ?_⟩
    · rw [show i + 1 + k = i + (k + 1) by omega]
      exact hz (k + 1) (by omega)
    · rw [← hend]
      congr 1
      omega

theorem At.skip (h : At buf i t) : ∃ i', skip buf i = some i' ∧ At buf i' (t.dropWhile isspace) ∧ i ≤ i' ∧
    i' + (t.dropWhile isspace).length = i + t.length := by
  induction t generalizing i with
  | nil =>
    refine ⟨i, ?_, h, le_rfl, rfl⟩
    rw [Shell.skip, if_pos h.1, h.2]
    rfl
  | cons c t ih =>
    obtain ⟨hi, hc, h0, hrest⟩ := h
    rw [Shell.skip, if_pos hi, hc]
    by_cases hspace : isspace c
    · obtain ⟨i', hcode, hat, hle, hlen⟩ := ih hrest
      rw [if_pos hspace, List.dropWhile_cons_of_pos hspace]
      exact ⟨i', hcode, hat, by omega, by rw [hlen, List.length_cons]; omega⟩
    · rw [if_neg hspace, List.dropWhile_cons_of_neg hspace]
      exact ⟨i, rfl, ⟨hi, hc, h0, hrest⟩, le_rfl, rfl⟩

/-! ## The scan -/

theorem scan_stop (hi : i < SIZE) (h : IsSep (buf i) ∨ buf i = 0) : scan buf i = some i := by
  rw [scan, if_pos hi, if_pos]
  rcases h with (h | h) | h <;> simp [h]

theorem scan_char (hi : i < SIZE) (hsep : ¬IsSep (buf i)) (h0 : buf i ≠ 0) (hand : buf i ≠ chr '&') :
    scan buf i = scan buf (i + 1) := by
  rw [scan, if_pos hi, if_neg, if_neg hand]
  rintro (h | h | h)
  · exact hsep (Or.inl h)
  · exact hsep (Or.inr h)
  · exact h0 h

/-- At an ampersand the next character decides. -/
theorem scan_and (hi : i + 1 < SIZE) (hand : buf i = chr '&') : scan buf i =
    if buf (i + 1) = 0 then scan buf (i + 1) else if buf (i + 1) = chr '&' then scan buf (i + 2) else some i := by
  have hno : ¬(buf i = chr ';' ∨ buf i = chr '\n' ∨ buf i = 0) := by
    rw [hand]
    decide
  rw [scan, if_pos (by omega), if_neg hno, if_pos hand, if_pos hi]

/-- The scan stops at the end of the text, if it has no list. -/
theorem At.scan_none (h : At buf i t) (hcut : cut t = none) : scan buf i = some (i + t.length) := by
  induction t using cut_induct generalizing i with
  | nil => exact scan_stop h.1 (Or.inr h.2)
  | sep c t hc =>
    rw [cut_sep hc] at hcut
    cases hcut
  | and_nil =>
    obtain ⟨hi, hand, -, hlast, hnull⟩ := h
    rw [scan_and hlast hand, if_pos hnull, scan_stop hlast (Or.inr hnull)]
    rfl
  | and_and t ih =>
    obtain ⟨hi, hand, -, hi', hand', -, hrest⟩ := h
    rw [cut_and_and, Option.map_eq_none_iff] at hcut
    rw [scan_and hi' hand, hand', if_neg (by decide), if_pos rfl, ih hrest hcut]
    simp only [List.length_cons]
    congr 1
    omega
  | and d t hd =>
    rw [cut_and hd] at hcut
    cases hcut
  | char c t hc hand ih =>
    obtain ⟨hi, rfl, h0, hrest⟩ := h
    rw [cut_char hc hand, Option.map_eq_none_iff] at hcut
    rw [scan_char hi hc h0 hand, ih hrest hcut, List.length_cons]
    congr 1
    omega

/-- It stops at the separator of the first list. -/
theorem At.scan_some (h : At buf i t) (hcut : cut t = some (x, bg, r)) : scan buf i = some (i + x.length) := by
  induction t using cut_induct generalizing i x with
  | nil => cases hcut
  | sep c t hc =>
    obtain ⟨hi, rfl, -⟩ := h
    rw [cut_sep hc] at hcut
    cases hcut
    exact scan_stop hi (Or.inl hc)
  | and_nil =>
    rw [cut_and_nil] at hcut
    cases hcut
  | and_and t ih =>
    obtain ⟨hi, hand, -, hi', hand', -, hrest⟩ := h
    rw [cut_and_and] at hcut
    obtain ⟨⟨_, _, _⟩, hcut', heq⟩ := Option.map_eq_some_iff.mp hcut
    cases heq
    rw [scan_and hi' hand, hand', if_neg (by decide), if_pos rfl, ih hrest hcut']
    simp only [List.length_cons]
    congr 1
    omega
  | and d t hd =>
    obtain ⟨hi, hand, -, hi', rfl, h0, -⟩ := h
    rw [cut_and hd] at hcut
    cases hcut
    rw [scan_and hi' hand, if_neg h0, if_neg hd]
    rfl
  | char c t hc hand ih =>
    obtain ⟨hi, rfl, h0, hrest⟩ := h
    rw [cut_char hc hand] at hcut
    obtain ⟨⟨_, _, _⟩, hcut', heq⟩ := Option.map_eq_some_iff.mp hcut
    cases heq
    rw [scan_char hi hc h0 hand, ih hrest hcut']
    simp only [List.length_cons]
    congr 1
    omega

theorem At.drop (h : At buf i (x ++ t)) : At buf (i + x.length) t := by
  induction x generalizing i with
  | nil => exact h
  | cons c x ih =>
    have := ih h.2.2.2
    rwa [List.length_cons, show i + (x.length + 1) = i + 1 + x.length by omega]

theorem At.end_eq (h : At buf i t) : buf (i + t.length) = 0 := by
  rw [← List.append_nil t] at h
  exact h.drop.2

theorem At.cstr (h : At buf i t) : cstr buf i = some t := by
  induction t generalizing i with
  | nil => rw [Shell.cstr, if_pos h.1, if_pos h.2]
  | cons c t ih =>
    obtain ⟨hi, hc, h0, hrest⟩ := h
    rw [Shell.cstr, if_pos hi, hc, if_neg h0, ih hrest]
    rfl

/-- A null character ends the string before it. -/
theorem At.take (h : At buf i (x ++ t)) (hsame : ∀ k < i + x.length, buf' k = buf k) (hend : buf' (i + x.length) = 0) :
    At buf' i x := by
  induction x generalizing i with
  | nil => exact ⟨by have := h.lt; omega, hend⟩
  | cons c x ih =>
    obtain ⟨hi, hc, h0, hrest⟩ := h
    rw [List.length_cons, show i + (x.length + 1) = i + 1 + x.length by omega] at hsame hend
    exact ⟨hi, (hsame i (by omega)).trans hc, h0, ih hrest hsame hend⟩

/-! ## The inner loop -/

/-- What the shell does with a command list. `true` is that it goes on. -/
def runOne (w : System) (p : Prog) : Bool × List UInt8 → Bool × Prog
  | (true, x) => if w.fork p.lists then (true, { p with lists := p.lists ++ [(true, x)] }) else (false, p)
  | (false, x) =>
    match run_list w.run x p.calls with
    | none => (false, p)
    | some (.ended calls) => (false, ⟨p.lists ++ [(false, x)], calls⟩)
    | some (.returned _ calls) => (true, ⟨p.lists ++ [(false, x)], calls⟩)

/-- What it does with command lists. `true` is that it gets to their end. -/
def runLists (w : System) (p : Prog) : List (Bool × List UInt8) → Bool × Prog
  | [] => (true, p)
  | l :: ls => if (runOne w p l).1 then runLists w (runOne w p l).2 ls else runOne w p l

theorem write_of_le {data : List UInt8} {k : ℕ} (hk : i + data.length ≤ k) : write buf i data k = buf k :=
  if_neg fun h => by omega

/-- The end of the inner loop, with nothing changed behind where it stops. -/
def Stops (buf : ℕ → UInt8) (e : ℕ) (rest : List UInt8) (res : Bool × Prog) (out : Option Lists) : Prop :=
  if res.1 then ∃ buf', out = some (.more buf' (e - rest.length) res.2) ∧ ∀ k, e - rest.length ≤ k → buf' k = buf k
  else out = some (.ended res.2)

theorem Stops.congr {rest : List UInt8} {e : ℕ} {res : Bool × Prog} {out : Option Lists} (h : Stops buf' e rest res out)
    (hle : j ≤ e - rest.length) (hsame : ∀ k, j ≤ k → buf' k = buf k) : Stops buf e rest res out := by
  unfold Stops at h ⊢
  split
  · next hres =>
    rw [if_pos hres] at h
    obtain ⟨buf₁, hout, hbuf₁⟩ := h
    exact ⟨buf₁, hout, fun k hk => (hbuf₁ k hk).trans (hsame k (by omega))⟩
  · next hres => rwa [if_neg hres] at h

/-- **The inner loop runs the command lists of the text, and stops at what is left.** -/
theorem processLists_stops (fuel : ℕ) (h : At buf i t) (hfuel : t.length < fuel) :
    Stops buf (i + t.length) (commandLists t).2 (runLists w p (commandLists t).1) (processLists w fuel buf i p) := by
  induction t using commandLists_induct generalizing buf i p fuel with
  | none t hcut =>
    obtain ⟨fuel, rfl⟩ : ∃ f, fuel = f + 1 := ⟨fuel - 1, by omega⟩
    obtain ⟨i', hskip, hat, -, hlen⟩ := h.skip
    have hscan := hat.scan_none hcut
    have hend := hat.end_eq
    have hno : ¬(buf (i' + (t.dropWhile isspace).length) = chr '&') ∧
        ¬(buf (i' + (t.dropWhile isspace).length) = chr ';' ∨ buf (i' + (t.dropWhile isspace).length) = chr '\n') := by
      rw [hend]
      decide
    have hstop : i + t.length - (t.dropWhile isspace).length = i' := by omega
    rw [commandLists_none hcut]
    show Stops buf (i + t.length) (t.dropWhile isspace) (true, p) _
    unfold Stops
    rw [if_pos rfl, hstop]
    refine ⟨buf, ?_, fun k _ => rfl⟩
    simp only [processLists, hskip, hscan, if_neg hno.1, if_neg hno.2]
  | some t x bg r hcut ih =>
    obtain ⟨fuel, rfl⟩ : ∃ f, fuel = f + 1 := ⟨fuel - 1, by omega⟩
    obtain ⟨i', hskip, hat, hle, hlen⟩ := h.skip
    have hscan := hat.scan_some hcut
    obtain ⟨c, heq, hc⟩ := cut_eq hcut
    rw [heq] at hat
    rw [heq, List.length_append, List.length_cons] at hlen
    obtain ⟨-, hsep, -, hrest⟩ := hat.drop
    have hstr : cstr (Function.update buf (i' + x.length) 0) i' = some x :=
      (hat.take (fun k hk => Function.update_of_ne hk.ne _ _) (Function.update_self _ _ _)).cstr
    have hlt : r.length < fuel := by omega
    have hend : i + t.length = i' + x.length + 1 + r.length := by omega
    have hsuffix := (rest_suffix r).length_le
    have hstop : i' + x.length + 1 ≤ i' + x.length + 1 + r.length - (commandLists r).2.length := by omega
    rw [commandLists_some hcut, hend]
    cases bg with
    | true =>
      obtain rfl : c = chr '&' := hc
      obtain ⟨out, hrun, -⟩ := run_list_some (w.child p.lists) x []
      simp only [processLists, hskip, hscan, if_pos hsep, hstr, hrun, runLists]
      by_cases hfork : w.fork p.lists
      · have hone : runOne w p (true, x) = (true, { p with lists := p.lists ++ [(true, x)] }) := if_pos hfork
        rw [hone, if_pos hfork, if_pos rfl]
        exact ih fuel hrest hlt
      · have hone : runOne w p (true, x) = (false, p) := if_neg hfork
        rw [hone, if_neg hfork, if_neg Bool.false_ne_true]
        rfl
    | false =>
      have hnot : ¬(buf (i' + x.length) = chr '&') := by
        rw [hsep]
        rintro rfl
        exact not_isSep_and hc
      have hor : buf (i' + x.length) = chr ';' ∨ buf (i' + x.length) = chr '\n' := by rwa [hsep]
      obtain ⟨out, hrun, htext⟩ := run_list_some w.run x p.calls
      simp only [processLists, hskip, hscan, if_neg hnot, if_pos hor, hstr, hrun, runLists]
      cases out with
      | ended calls =>
        have hone : runOne w p (false, x) = (false, ⟨p.lists ++ [(false, x)], calls⟩) := by rw [runOne, hrun]
        rw [hone, if_neg Bool.false_ne_true]
        rfl
      | returned text calls =>
        have hone : runOne w p (false, x) = (true, ⟨p.lists ++ [(false, x)], calls⟩) := by rw [runOne, hrun]
        rw [hone, if_pos rfl]
        have hsame : ∀ k, i' + x.length + 1 ≤ k →
            write (Function.update buf (i' + x.length) 0) i' text k = buf k := by
          intro k hk
          rw [write_of_le (by rw [htext text calls rfl]; omega), Function.update_of_ne (by omega)]
        exact (ih fuel (hrest.congr hsame) hlt).congr hstop hsame

/-! ## A pass -/

variable {st st' : Shell} {data : List UInt8}

/-- The text that is left over. -/
def Shell.left (st : Shell) : List UInt8 := cells st.buf 0 st.pos

theorem Shell.length_left : st.left.length = st.pos := length_cells _ _ _

/-- What a read adds to it. -/
def appended (data : List UInt8) : List UInt8 := if data = [] then [chr '\n'] else data

/-- What `sys_read` may return. -/
def Fits (st : Shell) (data : List UInt8) : Prop :=
  st.pos < SIZE - 1 ∧ st.pos + data.length ≤ SIZE - 1

theorem length_appended (h : Fits st data) : st.pos + (appended data).length < SIZE := by
  obtain ⟨hpos, hlen⟩ := h
  have hsize : SIZE = 4096 := rfl
  unfold appended
  split
  · rw [List.length_singleton]
    omega
  · omega

/-- The buffer once the text is read. -/
theorem cells_read (st : Shell) (data : List UInt8) : cells (Function.update (write st.buf st.pos (appended data)) (st.pos + (appended data).length) 0) 0
    (st.pos + (appended data).length) = st.left ++ appended data := by
  rw [cells_add, Nat.zero_add]
  congr 1
  · refine cells_congr fun k hk => ?_
    rw [Function.update_of_ne (by omega)]
    exact if_neg fun h => by omega
  · refine List.ext_getElem (length_cells _ _ _) fun k hk _ => ?_
    have hk' : k < (appended data).length := by simpa using hk
    simp only [cells, List.getElem_map, List.getElem_range]
    rw [Function.update_of_ne (by omega), write, if_pos (by omega), Nat.add_sub_cancel_left, List.getD_eq_getElem _ _ hk']

theorem cells_suffix (h : r <:+ cells buf 0 n) : cells buf (n - r.length) r.length = r := by
  obtain ⟨u, hu⟩ := h
  have hlen := congrArg List.length hu
  rw [List.length_append, length_cells] at hlen
  have hsplit := cells_add buf 0 (n - r.length) r.length
  rw [Nat.sub_add_cancel (by omega), Nat.zero_add, ← hu] at hsplit
  exact (List.append_inj' hsplit (by rw [length_cells])).2.symm

/-- What a pass does: the shell ends in a command, or the text that is left stays, but for as many of its last
characters as there were before the read. Where there are less, the `memmove` is outside of the buffer. -/
def Does (w : System) (st : Shell) (data : List UInt8) (out : Option Pass) : Prop :=
  let t := st.left ++ appended data
  let res := runLists w st.prog (commandLists t).1
  let rest := (commandLists t).2
  if res.1 then
    if st.pos ≤ rest.length then
      ∃ st', out = some (.next st') ∧ st'.left = rest.take (rest.length - st.pos) ∧ st'.prog = res.2
    else out = none
  else out = some (.ended res.2)

theorem pass_does (hleft : 0 ∉ st.left) (hdata : 0 ∉ data) (hfit : Fits st data) : Does w st data (pass w st data) := by
  have hsize : SIZE = 4096 := rfl
  have hpos := length_appended hfit
  have hcells := cells_read st data
  set n := (appended data).length with hn
  set buf := Function.update (write st.buf st.pos (appended data)) (st.pos + n) 0 with hbuf
  have hz : ∀ k < st.pos + n, buf (0 + k) ≠ 0 := by
    intro k hk hzero
    have hmem : buf (0 + k) ∈ cells buf 0 (st.pos + n) := List.mem_map.mpr ⟨k, List.mem_range.mpr hk, rfl⟩
    rw [hcells, hzero, List.mem_append] at hmem
    rcases hmem with hmem | hmem
    · exact hleft hmem
    · unfold appended at hmem
      split at hmem
      · exact absurd hmem (by decide)
      · exact hdata hmem
  have hat : At buf 0 (cells buf 0 (st.pos + n)) :=
    at_cells (by omega) hz (by rw [Nat.zero_add]; exact Function.update_self _ _ _)
  rw [hcells] at hat
  have htlen : (st.left ++ appended data).length = st.pos + n := by rw [List.length_append, Shell.length_left]
  have hstops := processLists_stops (w := w) (p := st.prog) SIZE hat (by rw [htlen]; exact hpos)
  have hzero : ¬∃ k < st.pos + n, buf k = 0 := by
    rintro ⟨k, hk, h0⟩
    exact hz k hk (by rwa [Nat.zero_add])
  have hnot : ¬st.pos = SIZE - 1 := by
    have := hfit.1
    omega
  unfold Stops at hstops
  rw [htlen, Nat.zero_add] at hstops
  unfold Does pass
  dsimp only
  rw [if_neg hnot, ← appended, ← hn, if_pos hpos, ← hbuf, if_neg hzero]
  by_cases hres : (runLists w st.prog (commandLists (st.left ++ appended data)).1).1
  · rw [if_pos hres] at hstops ⊢
    obtain ⟨buf₁, hloop, hsame⟩ := hstops
    rw [hloop]
    dsimp only
    have hsuffix := rest_suffix (st.left ++ appended data)
    have hle := hsuffix.length_le
    rw [htlen] at hle
    generalize (commandLists (st.left ++ appended data)).2 = rest at *
    by_cases hrest : st.pos ≤ rest.length
    · rw [if_pos hrest]
      have hlen : (n + 2 ^ 64 - (st.pos + n - rest.length)) % 2 ^ 64 = rest.length - st.pos := by omega
      rw [hlen, memmove, if_pos (by omega)]
      refine ⟨_, rfl, ?_, rfl⟩
      rw [← hcells] at hsuffix
      have hkept := cells_suffix hsuffix
      rw [← hkept, length_cells, take_cells _ _ (Nat.sub_le _ _)]
      refine cells_congr fun k hk => ?_
      dsimp only
      rw [Nat.zero_add, if_pos hk]
      exact hsame _ (Nat.le_add_right _ _)
    · rw [if_neg hrest, memmove, if_neg]
      · rfl
      · omega
  · rw [if_neg hres] at hstops ⊢
    rw [hstops]

end Chickadee.Shell
