import Chickadee.Chkfs.Runs
import Chickadee.Lib.Flat

/-!
# The blocks of a file as a list

An iterator is a position in the list of the blocks of its file. `find` sets it, `next` goes on to the next
block that is not in a hole, and `insert` adds blocks at the end.
-/

namespace Chickadee.Chkfs

open Lib Fs

variable {k₀ k k' : Kernel} {d d' : Disk} {it : Fileiter} {ino off : ℕ} {own R : Multiset Token}

/-! ## The list -/

/-- The blocks of an extent. A block of a hole has the number 0. -/
def numbers (e : Extent) : List ℕ :=
  if e.first = 0 then List.replicate e.count 0 else List.range' e.first e.count

theorem length_numbers (e : Extent) : (numbers e).length = e.count := by
  unfold numbers
  split
  · exact List.length_replicate
  · exact List.length_range'

theorem getElem?_numbers {e : Extent} {r : ℕ} (hr : r < e.count) :
    (numbers e)[r]? = some (if e.first = 0 then 0 else e.first + r) := by
  unfold numbers
  split
  · rw [List.getElem?_replicate_of_lt hr]
  · rw [List.getElem?_range' hr, Nat.one_mul]

/-- The blocks of a file, in order. -/
def flat (d : Disk) (ino : ℕ) : List ℕ :=
  joined (fun i => numbers (extentOf d ino i)) (nextents d ino)

theorem nextents_eq {n : ℕ} (hbelow : ∀ i < n, (extentOf d ino i).count ≠ 0)
    (hempty : (extentOf d ino n).count = 0) : nextents d ino = n :=
  (Nat.find_eq_iff _).mpr ⟨hempty, hbelow⟩

theorem nextents_congr (h : extentOf d' ino = extentOf d ino) : nextents d' ino = nextents d ino := by
  refine nextents_eq (fun i hi => ?_) ?_
  · rw [h]
    exact Nat.find_min (exists_empty d ino) hi
  · rw [h]
    exact Nat.find_spec (exists_empty d ino)

theorem flat_congr (h : extentOf d' ino = extentOf d ino) : flat d' ino = flat d ino := by
  unfold flat
  rw [nextents_congr h, h]

theorem flat_same (hsame : d.Same d') : flat d' ino = flat d ino :=
  flat_congr (extentOf_congr (congrFun hsame.inode ino) hsame.buf)

theorem length_flat (d : Disk) (ino : ℕ) : (flat d ino).length = psum (extentOf d ino) (nextents d ino) :=
  length_joined (fun _ => length_numbers _) _

/-- `blocks` is a bound on the length. -/
theorem length_flat_le (d : Disk) (ino : ℕ) : (flat d ino).length ≤ blocks d ino := by
  have hsum : ∀ (f : ℕ → Extent) (n : ℕ), ((List.range n).map fun i => (f i).count).sum = psum f n := fun f n => by
    induction n with
    | zero => rfl
    | succ n ih => rw [List.range_succ, List.map_append, List.sum_append, ih, psum_succ, List.map_singleton,
        List.sum_singleton]
  rw [length_flat, blocks, hsum]
  exact psum_mono _ (Nat.find_le (extentOf_end d ino))

/-- The block `r` of an extent. -/
theorem getElem?_flat {j r : ℕ} (hj : j < nextents d ino) (hr : r < (extentOf d ino j).count) :
    (flat d ino)[psum (extentOf d ino) j + r]? =
      some (if (extentOf d ino j).first = 0 then 0 else (extentOf d ino j).first + r) := by
  rw [flat, getElem?_joined (fun _ => length_numbers _) hj hr]
  exact getElem?_numbers hr

/-- An extent list in order: behind its end there is nothing. -/
structure WellFormed (d : Disk) (ino : ℕ) : Prop extends ListOk d ino where
  ended : ∀ i, nextents d ino ≤ i → extentOf d ino i = ⟨0, 0⟩

theorem WellFormed.of (h : WellFormed d ino) (hext : extentOf d' ino = extentOf d ino)
    (hone : (d'.inode ino).indirect.count ≤ 1) : WellFormed d' ino :=
  ⟨h.toListOk.of hext hone, by rw [nextents_congr hext, hext]; exact h.ended⟩

theorem WellFormed.congr (h : WellFormed d ino) (hinode : d'.inode = d.inode) (hbuf : d'.buf = d.buf) :
    WellFormed d' ino :=
  h.of (extentOf_congr (congrFun hinode ino) hbuf) (by rw [hinode]; exact h.one)

/-! ## The position of an iterator -/

namespace Fileiter

/-- The extent that the iterator is in. -/
theorem Found.inside_pos (h : it.Found d ino off) (hin : it.active d = true) :
    it.eidx_ < nextents d ino ∧ it.eoff_ ≤ off ∧
      off / blocksize = psum (extentOf d ino) it.eidx_ + (off - it.eoff_) / blocksize ∧
      (off - it.eoff_) / blocksize < (extentOf d ino it.eidx_).count := by
  obtain ⟨-, hcount, hle, hlt⟩ := h.inside hin
  have hpassed := h.passed
  have heoff := h.eoff
  rw [h.ino_] at hpassed heoff
  refine ⟨?_, hle, ?_, ?_⟩
  · refine (Nat.lt_find_iff _ _).mpr fun i hi => ?_
    rcases Nat.lt_or_eq_of_le hi with hi | rfl
    · exact hpassed i hi
    · exact hcount
  · rw [heoff] at hle ⊢
    rw [Nat.sub_mul_div]
    have := Nat.div_le_div_right (c := blocksize) hle
    rw [Nat.mul_div_cancel_left _ (by decide)] at this
    omega
  · exact Nat.div_lt_of_lt_mul (by rw [Nat.mul_comm]; omega)

/-- An iterator that has stopped is behind the list. -/
theorem Found.behind (h : it.Found d ino off) (hin : it.active d = false) :
    it.eidx_ = nextents d ino ∧ (flat d ino).length ≤ off / blocksize := by
  have hstop := h.stopped hin
  have hpassed := h.passed
  have heoff := h.eoff
  have hempty := hstop.empty
  have hbefore := hstop.before
  rw [h.ino_] at hpassed heoff hempty
  have hidx := nextents_eq hpassed hempty
  refine ⟨hidx.symm, ?_⟩
  rw [length_flat, hidx, Nat.le_div_iff_mul_le (by decide), Nat.mul_comm, ← heoff]
  exact hbefore

/-- **Whether the iterator is in the file.** -/
theorem Found.active_eq (h : it.Found d ino off) :
    it.active d = decide (off / blocksize < (flat d ino).length) := by
  cases hin : it.active d with
  | true =>
    obtain ⟨hlt, -, hpos, hr⟩ := h.inside_pos hin
    have hmono : psum (extentOf d ino) (it.eidx_ + 1) ≤ psum (extentOf d ino) (nextents d ino) :=
      psum_mono _ hlt
    rw [psum_succ] at hmono
    refine (decide_eq_true ?_).symm
    rw [length_flat]
    omega
  | false => exact (decide_eq_false (not_lt.mpr (h.behind hin).2)).symm

/-- What is in the list at the position of the iterator. -/
theorem Found.getElem?_flat (h : it.Found d ino off) (hin : it.active d = true) :
    (flat d ino)[off / blocksize]? = some (if (extentOf d ino it.eidx_).first = 0 then 0
      else (extentOf d ino it.eidx_).first + (off - it.eoff_) / blocksize) := by
  obtain ⟨hlt, -, hpos, hr⟩ := h.inside_pos hin
  rw [hpos]
  exact Chkfs.getElem?_flat hlt hr

/-- **The block that the iterator is at.** -/
theorem Found.blocknum_eq (h : it.Found d ino off) (hok : ListOk d ino)
    (hstop : it.active d = false → it.eptr_ = none ∨ (extentOf d ino it.eidx_).first = 0) :
    it.blocknum d = (flat d ino).getD (off / blocksize) 0 := by
  rw [List.getD_eq_getElem?_getD]
  cases hin : it.active d with
  | true =>
    rw [h.getElem?_flat hin]
    obtain ⟨-, hle, -, hr⟩ := h.inside_pos hin
    obtain ⟨hptr, -⟩ := h.inside hin
    obtain ⟨p, hp⟩ := Option.ne_none_iff_exists'.mp hptr
    have hbound := hok.bound it.eidx_
    have hcast : ((off : ℤ) - it.eoff_) / blocksize = ((off - it.eoff_) / blocksize : ℕ) := by
      rw [← Nat.cast_sub hle]
      rfl
    unfold blocknum
    rw [hp]
    dsimp only
    rw [h.extent_eq hp, h.ino_, h.off_, hcast, Option.getD_some]
    generalize (off - it.eoff_) / blocksize = r at hr
    split
    · rfl
    · unfold u32
      omega
  | false =>
    rw [List.getElem?_eq_none (h.behind hin).2]
    unfold blocknum
    split
    · rfl
    · next p hp =>
      have hfirst := (hstop hin).resolve_left (by simp [hp])
      rw [h.extent_eq hp, h.ino_]
      exact if_pos hfirst

theorem Found.blocknum_of_wellFormed (h : it.Found d ino off) (hok : WellFormed d ino) :
    it.blocknum d = (flat d ino).getD (off / blocksize) 0 :=
  h.blocknum_eq hok.toListOk fun hin => .inr (by rw [hok.ended _ (h.behind hin).1.ge])

/-- The entry of the block that the iterator is at. -/
theorem runs_entry (h : it.Found d ino off) (hok : ListOk d ino) (hstop : it.active d = false → it.eptr_ = none)
    (hsame : d.Same k.disk) (hq : Quiet k₀ k own) :
    Runs k it.get_disk_entry fun e k' => d.Same k'.disk ∧ Quiet k₀ k' (entry e + own) ∧
      e = if (flat d ino).getD (off / blocksize) 0 = 0 then none
        else some ((flat d ino).getD (off / blocksize) 0) := by
  have hbn : it.blocknum k.disk = (flat d ino).getD (off / blocksize) 0 := by
    have hfound := h.congr hsame.inode hsame.buf
    have hext := extentOf_congr (congrFun hsame.inode ino) hsame.buf
    rw [← flat_same hsame]
    refine hfound.blocknum_eq (hok.of hext (by rw [hsame.inode]; exact hok.one)) fun hin => .inl (hstop ?_)
    rw [h.active_eq, ← flat_same hsame, ← hfound.active_eq, hin]
  refine .get ?_
  dsimp only
  rw [hbn]
  split
  · exact .pure ⟨hsame, by rwa [entry, zero_add], rfl⟩
  · refine ((Chkfs.runs_get_disk_entry _ hq).and (ends_get_disk_entry _)).bind fun ok k₁ hget => ?_
    obtain ⟨⟨rfl, hq₁⟩, hsame₁⟩ := hget
    exact .pure ⟨hsame.trans hsame₁, hq₁, rfl⟩

/-! ## `next` -/

theorem round_up_next (h : off < 2 ^ 62) :
    round_up (off + 1) blocksize = blocksize * (off / blocksize + 1) := by
  have hu64 : u64 ((off + 1 : ℕ) + blocksize - 1) = off + blocksize := by
    unfold u64 blocksize
    omega
  unfold round_up
  dsimp only
  rw [hu64]
  unfold blocksize
  omega

theorem div_next (b : ℕ) : blocksize * (b + 1) / blocksize = b + 1 := Nat.mul_div_cancel_left _ (by decide)

/-- A block of a hole is skipped. -/
theorem Found.after_skip {b : ℕ} (h : it.Found d ino (blocksize * (b + 1))) (hin : it.active d = true)
    (hfirst : (extentOf d ino it.eidx_).first = 0) :
    after (· = 0) (flat d ino) b = after (· = 0) (flat d ino) (b + 1) := by
  have hget := h.getElem?_flat hin
  rw [div_next, if_pos hfirst] at hget
  exact Lib.after_skip hget rfl

/-- At another block, or behind the list, the iterator stops. -/
theorem Found.after_stop {b : ℕ} (h : it.Found d ino (blocksize * (b + 1)))
    (hfirst : it.active d = true → (extentOf d ino it.eidx_).first ≠ 0) :
    after (· = 0) (flat d ino) b = b + 1 := by
  cases hin : it.active d with
  | true =>
    have hget := h.getElem?_flat hin
    rw [div_next, if_neg (hfirst hin)] at hget
    exact Lib.after_stop hget (decide_eq_false (Nat.add_pos_left (Nat.pos_of_ne_zero (hfirst hin)) _).ne')
  | false =>
    have hle := (h.behind hin).2
    rw [div_next] at hle
    exact after_end hle

theorem runs_nextLoop (n : ℕ) (h : it.Found k.disk ino off) (hok : ListOk k.disk ino)
    (hin : off / blocksize < (flat k.disk ino).length) (hn : (flat k.disk ino).length ≤ n + off / blocksize)
    (hq : Quiet k₀ k (it.own + R)) :
    Runs k (nextLoop n it) fun it' k' => Quiet k₀ k' (it'.own + R) ∧ k.disk.Same k'.disk ∧
      it'.Found k.disk ino (blocksize * after (· = 0) (flat k.disk ino) (off / blocksize)) := by
  induction n generalizing k it off with
  | zero => omega
  | succ n ih =>
    have hlt : off < 2 ^ 62 := by
      have hcovered := covered_lt hok
      unfold covered at hcovered
      rw [← length_flat] at hcovered
      unfold blocksize at hin hcovered
      omega
    unfold nextLoop
    rw [h.off_, round_up_next hlt]
    refine (runs_find _ h.toPlaced hq).bind fun it₁ k₁ hfind => ?_
    obtain ⟨hq₁, hsame, hfound, -⟩ := hfind
    rw [h.ino_] at hfound
    have hflat : flat k₁.disk ino = flat k.disk ino := flat_same hsame
    have hstop : (it₁.active k.disk = true → (extentOf k.disk ino it₁.eidx_).first ≠ 0) →
        it₁.Found k.disk ino (blocksize * after (· = 0) (flat k.disk ino) (off / blocksize)) := fun hfirst => by
      rwa [hfound.after_stop hfirst]
    split
    · next hnone =>
      refine .pure ⟨hq₁, hsame, hstop fun hactive => ?_⟩
      unfold active at hactive
      rw [hnone] at hactive
      cases hactive
    next p hp =>
    refine .get ?_
    dsimp only
    have hactive : it₁.active k.disk = decide ((extentOf k.disk ino it₁.eidx_).count ≠ 0) := by
      unfold active
      rw [hp]
      dsimp only
      rw [hfound.extent_eq hp, hfound.ino_]
    rw [(hfound.toPlaced.congr hsame.inode hsame.buf).extent_eq hp, hfound.ino_,
      extentOf_congr (congrFun hsame.inode ino) hsame.buf]
    split
    · next hhole =>
      obtain ⟨hfirst, hcount⟩ := hhole
      have hact := hactive.trans (decide_eq_true hcount)
      have hpos : off / blocksize + 1 < (flat k.disk ino).length := by
        have := hfound.active_eq.symm.trans hact
        rw [div_next] at this
        exact of_decide_eq_true this
      rw [hfound.after_skip hact hfirst]
      have hih := ih (hfound.congr hsame.inode hsame.buf)
        (hok.of (extentOf_congr (congrFun hsame.inode ino) hsame.buf) (by rw [hsame.inode]; exact hok.one))
        (by rw [hflat, div_next]; exact hpos) (by rw [hflat, div_next]; omega) hq₁
      rw [hflat, div_next] at hih
      refine hih.mono fun it' k' hrest => ?_
      obtain ⟨hq', hsame', hfound'⟩ := hrest
      exact ⟨hq', hsame.trans hsame', hfound'.congr hsame.inode.symm hsame.buf.symm⟩
    · next hblock =>
      refine .pure ⟨hq₁, hsame, hstop fun hact hfirst => hblock ⟨hfirst, ?_⟩⟩
      rw [hactive] at hact
      exact of_decide_eq_true hact

/-- The offset of the next block that is not in a hole. -/
def nextOffset (l : List ℕ) (off : ℕ) : ℕ :=
  if off / blocksize < l.length then blocksize * after (· = 0) l (off / blocksize) else off

/-- **`next` returns**, at the next block of the list. -/
theorem runs_next (h : it.Found k.disk ino off) (hok : ListOk k.disk ino) (hq : Quiet k₀ k (it.own + R)) :
    Runs k it.next fun it' k' => Quiet k₀ k' (it'.own + R) ∧ k.disk.Same k'.disk ∧
      it'.Found k.disk ino (nextOffset (flat k.disk ino) off) := by
  have hactive := h.active_eq
  refine .get ?_
  dsimp only
  unfold nextOffset
  split
  · next hin =>
    have hlt := of_decide_eq_true (hactive.symm.trans hin)
    rw [if_pos hlt]
    refine runs_nextLoop _ h hok hlt ?_ hq
    rw [h.ino_]
    exact (length_flat_le k.disk ino).trans (Nat.le_add_right_of_le (Nat.le_succ _))
  · next hin =>
    have hge : ¬off / blocksize < (flat k.disk ino).length := fun hlt =>
      hin (hactive.trans (decide_eq_true hlt))
    rw [if_neg hge]
    exact .pure ⟨hq, .refl _, h⟩

theorem nextOffset_div (l : List ℕ) (off : ℕ) :
    nextOffset l off / blocksize = advance (· = 0) l (off / blocksize) := by
  unfold nextOffset advance
  split
  · exact Nat.mul_div_cancel_left _ (by decide)
  · rfl

/-! ## Runs of calls -/

/-- The calls that move an iterator. -/
inductive Call
  | find (off : ℕ)
  | next

def Call.run (it : Fileiter) : Call → M Fileiter
  | .find off => it.find off
  | .next => it.next

/-- Calls on one iterator, one after the other. -/
def calls (it : Fileiter) : List Call → M Fileiter
  | [] => return it
  | c :: cs => do
    let it ← c.run it
    calls it cs

/-- Where a call leads to in a file with the blocks `l`. -/
def Call.target (l : List ℕ) (off : ℕ) : Call → ℕ
  | .find off' => off'
  | .next => nextOffset l off

theorem runs_call (c : Call) (h : it.Found k.disk ino off) (hok : ListOk k.disk ino)
    (hq : Quiet k₀ k (it.own + R)) :
    Runs k (c.run it) fun it' k' => Quiet k₀ k' (it'.own + R) ∧ k.disk.Same k'.disk ∧
      it'.Found k.disk ino (c.target (flat k.disk ino) off) := by
  cases c with
  | find off' =>
    have hfind := runs_find off' h.toPlaced hq
    rw [h.ino_] at hfind
    exact hfind.mono fun _ _ hr => ⟨hr.1, hr.2.1, hr.2.2.1⟩
  | next => exact runs_next h hok hq

theorem runs_calls (cs : List Call) (h : it.Found k.disk ino off) (hok : ListOk k.disk ino)
    (hq : Quiet k₀ k (it.own + R)) :
    Runs k (calls it cs) fun it' k' => Quiet k₀ k' (it'.own + R) ∧ k.disk.Same k'.disk ∧
      it'.Found k.disk ino (cs.foldl (Call.target (flat k.disk ino)) off) := by
  induction cs generalizing k it off with
  | nil => exact .pure ⟨hq, .refl _, h⟩
  | cons c cs ih =>
    refine (runs_call c h hok hq).bind fun it₁ k₁ hcall => ?_
    obtain ⟨hq₁, hsame, hfound⟩ := hcall
    have hrest := ih (hfound.congr hsame.inode hsame.buf)
      (hok.of (extentOf_congr (congrFun hsame.inode ino) hsame.buf) (by rw [hsame.inode]; exact hok.one)) hq₁
    rw [flat_same hsame] at hrest
    refine hrest.mono fun it' k' hr => ?_
    obtain ⟨hq', hsame', hfound'⟩ := hr
    exact ⟨hq', hsame.trans hsame', hfound'.congr hsame.inode.symm hsame.buf.symm⟩

theorem nexts_div (l : List ℕ) (n off : ℕ) :
    (List.replicate n Call.next).foldl (Call.target l) off / blocksize =
      (advance (· = 0) l)^[n] (off / blocksize) := by
  induction n generalizing off with
  | zero => rfl
  | succ n ih =>
    rw [List.replicate_succ, List.foldl_cons, ih, Function.iterate_succ_apply]
    exact congrArg _ (nextOffset_div l off)

/-- The blocks of `l` behind `b` that are not in holes. -/
def later (l : List ℕ) (b : ℕ) : List ℕ := (l.drop (b + 1)).filter (· ≠ 0)

/-- **`n + 1` times `next`** leads to the `n`-th of the later blocks. -/
theorem getElem?_nexts (l : List ℕ) (n off : ℕ) :
    l[(List.replicate (n + 1) Call.next).foldl (Call.target l) off / blocksize]? =
      (later l (off / blocksize))[n]? := by
  have hnot : (fun a : ℕ => !decide (a = 0)) = fun a => decide (a ≠ 0) := funext fun a => (decide_not).symm
  rw [nexts_div, getElem?_advance, hnot]
  rfl

end Fileiter

/-! ## `insert` -/

theorem numbers_append {e : Extent} {first : ℕ} (count : ℕ) (he : e.first ≠ 0) (hnext : e.first + e.count = first) :
    numbers ⟨e.first, e.count + count⟩ = numbers e ++ numbers ⟨first, count⟩ := by
  subst hnext
  unfold numbers
  dsimp only
  rw [if_neg he, if_neg he, if_neg (by omega), ← List.range'_append_1]

/-- Without a hole every extent has blocks of its own. -/
theorem first_ne_zero (h : 0 ∉ flat d ino) {i : ℕ} (hi : i < nextents d ino) : (extentOf d ino i).first ≠ 0 := by
  intro hzero
  have hcount := Nat.find_min (exists_empty d ino) hi
  have hget := getElem?_flat hi (Nat.pos_of_ne_zero hcount)
  rw [if_pos hzero] at hget
  exact h (List.mem_of_getElem? hget)

/-- A new extent behind the last one. -/
theorem nextents_new {e : Extent} (hok : WellFormed d ino) (he : e.count ≠ 0)
    (hext : extentOf d' ino = Function.update (extentOf d ino) (nextents d ino) e) :
    nextents d' ino = nextents d ino + 1 := by
  refine nextents_eq (fun i hi => ?_) ?_
  · rw [hext]
    by_cases heq : i = nextents d ino
    · rwa [heq, Function.update_self]
    · rw [Function.update_of_ne heq]
      exact Nat.find_min (exists_empty d ino) (show i < nextents d ino by omega)
  · rw [hext, Function.update_of_ne (Nat.succ_ne_self _), hok.ended _ (Nat.le_succ _)]

/-- The last extent is changed. -/
theorem nextents_grow {e : Extent} {j : ℕ} (hj : j + 1 = nextents d ino) (he : e.count ≠ 0)
    (hext : extentOf d' ino = Function.update (extentOf d ino) j e) : nextents d' ino = nextents d ino := by
  refine nextents_eq (fun i hi => ?_) ?_
  · rw [hext]
    by_cases heq : i = j
    · rwa [heq, Function.update_self]
    · rw [Function.update_of_ne heq]
      exact Nat.find_min (exists_empty d ino) hi
  · rw [hext, Function.update_of_ne (by omega)]
    exact Nat.find_spec (exists_empty d ino)

/-- **Blocks that are added at the end of a file** are added to the list. -/
theorem grown_flat {first count : ℕ} (h : Grown (extentOf d ino) (nextents d ino) first count (extentOf d' ino))
    (hok : WellFormed d ino) (hone : (d'.inode ino).indirect.count ≤ 1) (hcount : count ≠ 0)
    (hrange : first + count < 2 ^ 32) (hhole : 0 ∉ flat d ino) :
    WellFormed d' ino ∧ flat d' ino = flat d ino ++ numbers ⟨first, count⟩ := by
  generalize hf' : extentOf d' ino = f' at h
  unfold flat
  rw [hf']
  cases h with
  | new _ =>
    have hother : ∀ i, i ≠ nextents d ino → extentOf d' ino i = extentOf d ino i := fun i hi => by
      rw [hf', Function.update_of_ne hi]
    have hself : extentOf d' ino (nextents d ino) = ⟨first, count⟩ := by rw [hf', Function.update_self]
    have hnext := nextents_new (e := ⟨first, count⟩) hok hcount hf'
    refine ⟨⟨⟨fun i => ?_, hone⟩, fun i hi => ?_⟩, ?_⟩
    · by_cases heq : i = nextents d ino
      · rw [heq, hself]
        exact hrange
      · rw [hother i heq]
        exact hok.bound i
    · rw [hnext] at hi
      rw [hother i (by omega)]
      exact hok.ended i (by omega)
    · rw [← hf', hnext, joined_succ, hself]
      refine congrArg (· ++ _) (joined_congr fun i hi => ?_)
      rw [hother i hi.ne]
  | grow j hj hfirst =>
    have hne := first_ne_zero hhole (show j < nextents d ino by omega)
    have hother : ∀ i, i ≠ j → extentOf d' ino i = extentOf d ino i := fun i hi => by
      rw [hf', Function.update_of_ne hi]
    have hself : extentOf d' ino j = ⟨(extentOf d ino j).first, (extentOf d ino j).count + count⟩ := by
      rw [hf', Function.update_self]
    have hnext : nextents d' ino = j + 1 := (nextents_grow hj (Nat.add_pos_right _ (Nat.pos_of_ne_zero hcount)).ne' hf').trans hj.symm
    refine ⟨⟨⟨fun i => ?_, hone⟩, fun i hi => ?_⟩, ?_⟩
    · by_cases heq : i = j
      · rw [heq, hself]
        dsimp only
        omega
      · rw [hother i heq]
        exact hok.bound i
    · rw [hnext, hj] at hi
      rw [hother i (by omega)]
      exact hok.ended i hi
    · rw [← hf', hnext, joined_succ, hself, ← hj, joined_succ, numbers_append count hne hfirst, List.append_assoc]
      refine congrArg (· ++ _) (joined_congr fun i hi => ?_)
      rw [hother i hi.ne]

/-- An inode with one extent at most. -/
def single (type size : ℕ) (e : Extent) : Inode :=
  ⟨type, size, 1, linked, fun i => if i = 0 then e else ⟨0, 0⟩, ⟨0, 0⟩⟩

theorem wellFormed_single {type size : ℕ} {e : Extent} (hinode : d.inode ino = single type size e)
    (hrange : e.first + e.count < 2 ^ 32) (hzero : e.count = 0 → e.first = 0) :
    WellFormed d ino ∧ flat d ino = numbers e := by
  have hnone : (d.inode ino).indirect.count = 0 := by rw [hinode]; rfl
  have hdirect : ∀ i < ndirect, (d.inode ino).direct i = if i = 0 then e else ⟨0, 0⟩ := fun _ _ => by
    rw [hinode]; rfl
  have hext : ∀ i, extentOf d ino i = if i = 0 then e else ⟨0, 0⟩ := fun i => by
    by_cases hi : i < ndirect
    · rw [extentOf_direct hi, hdirect i hi]
    · unfold extentOf
      rw [if_neg hi, hnone, if_pos (Nat.zero_le _), if_neg (by rintro rfl; exact hi (by decide))]
  have hend : nextents d ino = if e.count = 0 then 0 else 1 := by
    split
    · next h => exact nextents_eq (fun i hi => absurd hi (Nat.not_lt_zero i)) (by rwa [hext, if_pos rfl])
    · next h =>
      refine nextents_eq (fun i hi => ?_) (by rw [hext, if_neg Nat.one_ne_zero])
      rwa [hext, if_pos (Nat.lt_one_iff.mp hi)]
  refine ⟨⟨⟨fun i => ?_, by rw [hnone]; exact Nat.zero_le _⟩, fun i hi => ?_⟩, ?_⟩
  · rw [hext]
    split
    · exact hrange
    · decide
  · rw [hext]
    split
    · next hi0 =>
      rw [hend] at hi
      split at hi
      · next h =>
        cases e with
        | mk first count =>
          obtain rfl : count = 0 := h
          rw [show first = 0 from hzero rfl]
      · omega
    · rfl
  · unfold flat
    rw [hend]
    split
    · next h => exact (List.eq_nil_of_length_eq_zero ((length_numbers e).trans h)).symm
    · rw [joined_succ, hext, if_pos rfl]
      rfl

namespace Fileiter

/-- **How `insert` changes the list.** -/
theorem inserted_flat {first count : ℕ} {r : ℤ} (h : Inserted d ino (nextents d ino) first count r d')
    (hok : WellFormed d ino) (hcount : count ≠ 0) (hrange : first + count < 2 ^ 32) (hhole : 0 ∉ flat d ino) :
    r = 0 ∧ WellFormed d' ino ∧ flat d' ino = flat d ino ++ numbers ⟨first, count⟩ ∨
      r < 0 ∧ WellFormed d' ino ∧ flat d' ino = flat d ino := by
  have hkept : ∀ {d₁ d₂ : Disk} {direct : ℕ → Extent}, d₂.inode = Function.update d₁.inode ino
      { d₁.inode ino with direct := direct } → (d₁.inode ino).indirect.count ≤ 1 →
      (d₂.inode ino).indirect.count ≤ 1 := fun h hone => by
    rw [h, Function.update_self]
    exact hone
  cases h with
  | stored h =>
    obtain ⟨direct, hinode⟩ := h.inode
    exact .inl ⟨rfl, grown_flat h.grown hok (hkept hinode hok.one) hcount hrange hhole⟩
  | indirect hnew h =>
    obtain ⟨direct, hinode⟩ := h.inode
    have hext := hnew.extentOf_eq
    have hgrown := h.grown
    rw [← nextents_congr hext] at hgrown
    rw [← flat_congr hext] at hhole ⊢
    have hok' := hok.of hext (hnew.listOk hok.toListOk).one
    exact .inl ⟨rfl, grown_flat hgrown hok' (hkept hinode hok'.one) hcount hrange hhole⟩
  | failed hr hsame => exact .inr ⟨hr, hok.congr hsame.inode hsame.buf, flat_same hsame⟩
  | leaked _ hmarked =>
    exact .inr ⟨by decide, hok.congr hmarked.inode hmarked.buf,
      flat_congr (extentOf_congr (congrFun hmarked.inode ino) hmarked.buf)⟩

/--
**An iterator is a position in the list of blocks**, as long as the cache has an entry for the indirect block.
`next` goes through the blocks that are not in holes. At the end of a file without holes, `insert` adds blocks
to the list, or it returns an error and the list is as before; the error is that there is no room for an
indirect block, or no room in it.
-/
theorem fileiter_flat (hok : WellFormed k.disk ino) (havail : ∀ i, k.disk.avail i = true) (cs : List Call) :
    Runs k (calls (fileiter ino) cs) fun it k' => k.disk.Same k'.disk ∧
      it.off_ = cs.foldl (Call.target (flat k.disk ino)) 0 ∧
      it.active k'.disk = decide (it.off_ / blocksize < (flat k.disk ino).length) ∧
      it.blocknum k'.disk = (flat k.disk ino).getD (it.off_ / blocksize) 0 ∧
      (∀ n, Runs k' (calls it (List.replicate (n + 1) .next)) fun it' k'' =>
        it'.active k''.disk = decide (n < (later (flat k.disk ino) (it.off_ / blocksize)).length) ∧
          it'.blocknum k''.disk = (later (flat k.disk ino) (it.off_ / blocksize)).getD n 0) ∧
      ∀ first count, 0 ∉ flat k.disk ino → it.active k'.disk = false → k.mlock (.inode ino) = .writer →
        count ≠ 0 → first + count < 2 ^ 32 → Runs k' (it.insert first count) fun r k'' =>
          WellFormed k''.disk ino ∧
            (r.2 = 0 ∧ flat k''.disk ino = flat k.disk ino ++ numbers ⟨first, count⟩ ∨
              r.2 < 0 ∧ flat k''.disk ino = flat k.disk ino ∧
                (nextents k.disk ino = ndirect ∧ (k.disk.inode ino).indirect.count = 0 ∨
                  nextents k.disk ino = ndirect + extentsperblock)) := by
  have hstart : Quiet k k ((fileiter ino).own + 0) := by
    rw [own_fileiter, add_zero]
    exact .refl havail
  refine (runs_calls cs (found_fileiter k.disk ino) hok.toListOk hstart).mono fun it k' hrun => ?_
  obtain ⟨hq, hsame, hfound⟩ := hrun
  have hext := extentOf_congr (congrFun hsame.inode ino) hsame.buf
  have hflat : flat k'.disk ino = flat k.disk ino := flat_same hsame
  have hoff := hfound.off_
  replace hfound := hfound.congr hsame.inode hsame.buf
  have hok' := hok.congr hsame.inode hsame.buf
  rw [← hoff] at hfound
  rw [← hflat] at hoff ⊢
  refine ⟨hsame, hoff, hfound.active_eq, hfound.blocknum_of_wellFormed hok', fun n => ?_, ?_⟩
  · refine (runs_calls _ hfound hok'.toListOk hq).mono fun it' k'' hnexts => ?_
    obtain ⟨-, hsame', hfound'⟩ := hnexts
    have hget := getElem?_nexts (flat k'.disk ino) n it.off_
    replace hfound' := hfound'.congr hsame'.inode hsame'.buf
    rw [hfound'.active_eq, hfound'.blocknum_of_wellFormed (hok'.congr hsame'.inode hsame'.buf), flat_same hsame',
      List.getD_eq_getElem?_getD, List.getD_eq_getElem?_getD, hget]
    refine ⟨?_, rfl⟩
    rw [decide_eq_decide, ← not_iff_not, not_lt, not_lt, ← List.getElem?_eq_none_iff, hget,
      List.getElem?_eq_none_iff]
  · intro first count hhole hin hlock hcount hrange
    have hrun := runs_insert first hfound hok'.one (by rw [hq.mlock]; exact hlock) hcount hin hq
    refine (hrun.and (ends_insert hfound.toPlaced (hfound.ino_ ▸ hok'.toListOk) hrange)).mono fun r k'' hr => ?_
    obtain ⟨⟨-, hfull⟩, -, -, -, hins⟩ := hr
    rw [hfound.ino_, (hfound.behind hin).1] at hins
    rw [(hfound.behind hin).1, nextents_congr hext, congrFun hsame.inode ino] at hfull
    rcases inserted_flat hins hok' hcount hrange hhole with ⟨hzero, hwf, hnew⟩ | ⟨hneg, hwf, hold⟩
    · exact ⟨hwf, .inl ⟨hzero, hnew⟩⟩
    · exact ⟨hwf, .inr ⟨hneg, hold, hfull hneg.ne⟩⟩

/-! Files with four direct extents, and one of them with an extent in an indirect block. -/

theorem long_extentOf (i : ℕ) : extentOf Disk.long 2 i =
    if i < 4 then ⟨10 + 5 * i, 3⟩ else if i = 4 then ⟨40, 2⟩ else ⟨0, 0⟩ := by
  by_cases hi : i < 4
  · rw [if_pos hi]
    exact extentOf_direct hi
  rw [if_neg hi]
  obtain ⟨j, rfl⟩ := Nat.exists_eq_add_of_le (not_lt.mp hi)
  by_cases hj : j < extentsperblock
  · have hind : (Disk.long.inode 2).indirect.count = 1 := rfl
    refine (extentOf_indirect hind hj).trans ?_
    refine (extentAt_setExtentAt (fun _ => 0) 0 j (e := ⟨40, 2⟩) ⟨by decide, by decide⟩).trans ?_
    rw [extentAt_zero]
    exact if_congr (by omega) rfl rfl
  · have hone : 1 ≤ j / extentsperblock := (Nat.le_div_iff_mul_le (by decide)).mpr (by omega)
    rw [if_neg (by unfold extentsperblock at hj; omega)]
    unfold extentOf
    rw [if_neg hi, Nat.add_sub_cancel_left]
    exact if_pos hone

theorem long_nextents : nextents Disk.long 2 = 5 := by
  refine nextents_eq (fun i hi => ?_) ?_
  · rw [long_extentOf]
    split_ifs
    · exact Nat.succ_ne_zero 2
    · decide
    · omega
  · rw [long_extentOf]
    rfl

theorem long_flat : flat Disk.long 2 = [10, 11, 12, 15, 16, 17, 20, 21, 22, 25, 26, 27, 40, 41] := by
  unfold flat
  rw [long_nextents]
  decide +kernel

theorem long_wellFormed : WellFormed Disk.long 2 := by
  refine ⟨⟨fun i => ?_, le_rfl⟩, fun i hi => ?_⟩
  · rw [long_extentOf]
    split_ifs
    · dsimp only
      omega
    · decide
    · decide
  · rw [long_nextents] at hi
    rw [long_extentOf, if_neg (by omega), if_neg (by omega)]

/-- From block 11 the calls of `next` go through the indirect block to the end, where there is room for more. -/
theorem fileiter_flat_long :
    Runs (kernelOn Disk.long .writer) (calls (fileiter 2) [.find 45056, .next, .next, .next]) fun it k' =>
      it.off_ = 57344 ∧ it.active k'.disk = false ∧ Runs k' (it.insert 50 2) fun _ k'' =>
        flat k''.disk 2 = [10, 11, 12, 15, 16, 17, 20, 21, 22, 25, 26, 27, 40, 41, 50, 51] := by
  refine (fileiter_flat (k := kernelOn Disk.long .writer) long_wellFormed (fun _ => rfl) _).mono fun it k' h => ?_
  obtain ⟨-, hoff, hactive, -, -, hinsert⟩ := h
  have hflat : flat (kernelOn Disk.long .writer).disk 2 = _ := long_flat
  rw [hflat] at hoff hactive hinsert
  have hoff : it.off_ = 57344 := hoff.trans (by decide)
  have hactive : it.active k'.disk = false := hactive.trans (by rw [hoff]; decide)
  refine ⟨hoff, hactive, (hinsert 50 2 (by decide) hactive rfl (by decide) (by decide)).mono fun r k'' hr => ?_⟩
  obtain ⟨-, ⟨-, hnew⟩ | ⟨-, -, hfull⟩⟩ := hr
  · exact hnew
  · have hfive : nextents (kernelOn Disk.long .writer).disk 2 = 5 := long_nextents
    rw [hfive] at hfull
    exact absurd hfull (by decide)

/-- A file with four direct extents, on a disk without a free block. -/
def fullDisk : Kernel := kernelOn (Disk.file (fun i => ⟨10 + 5 * i, 3⟩) ⟨0, 0⟩) .writer

theorem nextents_eq_four (h : (List.range 5).map (extentOf d 2) = [⟨10, 3⟩, ⟨15, 3⟩, ⟨20, 3⟩, ⟨25, 3⟩, ⟨0, 0⟩]) :
    nextents d 2 = 4 ∧ flat d 2 = [10, 11, 12, 15, 16, 17, 20, 21, 22, 25, 26, 27] := by
  have hget : ∀ i < 5, extentOf d 2 i = [⟨10, 3⟩, ⟨15, 3⟩, ⟨20, 3⟩, ⟨25, 3⟩, ⟨0, 0⟩].getD i ⟨0, 0⟩ := fun i hi => by
    rw [← h]
    simp [hi]
  have hfour : nextents d 2 = 4 := by
    refine nextents_eq (fun i hi => ?_) ?_
    · rw [hget i (by omega)]
      interval_cases i <;> decide
    · rw [hget 4 (by decide)]
      rfl
  refine ⟨hfour, ?_⟩
  unfold flat
  rw [hfour, joined_congr fun i hi => congrArg numbers (hget i (by omega))]
  decide

/--
Without an entry for the indirect block the iterator stops at block 12 of 14. On a full disk there is no
indirect block for a fifth extent.
-/
theorem fileiter_stops :
    (WellFormed Disk.long 2 ∧ flat Disk.long 2 = [10, 11, 12, 15, 16, 17, 20, 21, 22, 25, 26, 27, 40, 41] ∧
      Runs (kernelOn { Disk.long with avail := fun _ => false } .writer) ((fileiter 2).find 49152)
        fun it k' => (it.active k'.disk, it.blocknum k'.disk) = (false, 0)) ∧
    WellFormed fullDisk.disk 2 ∧ flat fullDisk.disk 2 = [10, 11, 12, 15, 16, 17, 20, 21, 22, 25, 26, 27] ∧
      Runs fullDisk (do let it ← (fileiter 2).find 49152; it.insert 50 1) fun r k' =>
        r.2 = E_NOSPC ∧ flat k'.disk 2 = flat fullDisk.disk 2 := by
  have hext : ∀ i, ndirect ≤ i → extentOf fullDisk.disk 2 i = ⟨0, 0⟩ := fun i hi => by
    unfold extentOf
    rw [if_neg (not_lt.mpr hi)]
    exact if_pos (Nat.zero_le _)
  obtain ⟨hfour, hflat⟩ := nextents_eq_four (d := fullDisk.disk) (by decide +kernel)
  refine ⟨⟨long_wellFormed, long_flat, ?_⟩, ⟨⟨fun i => ?_, Nat.zero_le _⟩, ?_⟩, hflat, ?_⟩
  · exact Runs.of_map (f := fun r : Fileiter × Kernel => (r.1.active r.2.disk, r.1.blocknum r.2.disk))
      (c := (false, 0)) (by decide +kernel)
  · by_cases hi : i < ndirect
    · rw [extentOf_direct hi]
      show 10 + 5 * i + 3 < 2 ^ 32
      unfold ndirect at hi
      omega
    · rw [hext i (not_lt.mp hi)]
      decide
  · rw [hfour]
    exact hext
  · have heval := Runs.of_map (x := do let it ← (fileiter 2).find 49152; it.insert 50 1) (s := fullDisk)
      (f := fun r => (r.1.2, (List.range 5).map (extentOf r.2.disk 2)))
      (c := (E_NOSPC, [⟨10, 3⟩, ⟨15, 3⟩, ⟨20, 3⟩, ⟨25, 3⟩, ⟨0, 0⟩])) (by decide +kernel)
    refine heval.mono fun r k' h => ?_
    obtain ⟨hr, hext'⟩ := Prod.mk.inj h
    exact ⟨hr, (nextents_eq_four hext').2.trans hflat.symm⟩

end Fileiter

end Chickadee.Chkfs
