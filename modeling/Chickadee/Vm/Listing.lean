import Chickadee.Vm.Covered

/-!
# What `ls` and `tree` store stays in the buffer

Both end their output with a NUL, and that is the last byte that they store. `ls` stores it even where the size
is 0. `tree` stores the working directory and its first line without looking at the size, and when an entry
does not fit it sets `off` to the size, which is where the NUL goes then.
-/

namespace Chickadee.Vm

open Fs Chkfs

/-- The stores of a system call. -/
def Run.stores (r : Run) : List Access := r.accesses.filter Access.store

/--
Nothing is stored behind the `bufsz` bytes from `buf` on, and the last store, which ends with the NUL, is there
too. A call that is refused stores nothing.
-/
def InBuffer (r : Run) (buf bufsz : ℕ) : Prop :=
  (∀ a ∈ r.stores, a.Within buf bufsz) ∧
    (r.stores = [] ∨ ∃ off len, r.stores.getLast? = some (storeAt buf off (len + 1)) ∧ off + (len + 1) ≤ bufsz)

/-- A store that is in the buffer starts and ends where it says. -/
theorem of_within {buf off len n : ℕ} (h : (storeAt buf off len).Within buf n) (hoff : off < 2 ^ 64)
    (hn : n < 2 ^ 64) (hlen : 0 < len) : off + len ≤ n := by
  obtain ⟨off', haddr, hle⟩ := h
  unfold storeAt at haddr hle
  dsimp only at haddr hle
  omega

/-- A call whose last store is that of a NUL is in the buffer if all its stores are. -/
theorem inBuffer_iff {accesses : List Access} {ret : Option ℤ} {buf bufsz off : ℕ} (hoff : off < 2 ^ 64)
    (hbufsz : bufsz < 2 ^ 64) : InBuffer ⟨accesses ++ [storeAt buf off 1], ret⟩ buf bufsz ↔
      (∀ a ∈ accesses, a.store = true → a.Within buf bufsz) ∧ off < bufsz := by
  have hstores : (⟨accesses ++ [storeAt buf off 1], ret⟩ : Run).stores =
      accesses.filter Access.store ++ [storeAt buf off 1] := by
    unfold Run.stores
    rw [List.filter_append]
    rfl
  unfold InBuffer
  rw [hstores]
  constructor
  · rintro ⟨hall, -⟩
    refine ⟨fun a ha hstore => hall a (List.mem_append_left _ (List.mem_filter.mpr ⟨ha, hstore⟩)), ?_⟩
    exact of_within (hall _ (List.mem_append_right _ List.mem_cons_self)) hoff hbufsz Nat.one_pos
  · rintro ⟨hall, hlast⟩
    refine ⟨fun a ha => ?_, .inr ⟨off, 0, by rw [List.getLast?_append]; rfl, hlast⟩⟩
    rcases List.mem_append.mp ha with ha | ha
    · obtain ⟨ha, hstore⟩ := List.mem_filter.mp ha
      exact hall a ha hstore
    · obtain rfl := List.mem_singleton.mp ha
      exact within_storeAt hlast

theorem inBuffer_nil {ret : Option ℤ} {buf bufsz : ℕ} : InBuffer ⟨[], ret⟩ buf bufsz :=
  ⟨fun _ ha => absurd ha List.not_mem_nil, .inl rfl⟩

/-! ## `ls` -/

/-- **`ls` stays in the buffer** if there is one. -/
theorem ls_inBuffer_iff (c : Caller) (w : World) :
    InBuffer (syscall_ls c w) c.regs.reg_rdi.toNat c.regs.reg_rsi.toNat ↔
      (buf_invalid c.pt c.regs.reg_rdi.toNat c.regs.reg_rsi.toNat = false → w.cwd ≠ none →
        c.regs.reg_rsi.toNat ≠ 0) := by
  have hsize : c.regs.reg_rsi.toNat < 2 ^ 64 := c.regs.reg_rsi.toNat_lt
  unfold syscall_ls
  dsimp only
  generalize c.regs.reg_rdi.toNat = buf
  generalize c.regs.reg_rsi.toNat = bufsz at hsize ⊢
  by_cases hbig : MAX_UBUF_LEN < bufsz
  · rw [if_pos hbig]
    exact ⟨fun _ _ _ h => by omega, fun _ => inBuffer_nil⟩
  rw [if_neg hbig]
  by_cases hinvalid : buf_invalid c.pt buf bufsz = true
  · rw [if_pos hinvalid]
    exact ⟨fun _ hvalid => absurd (hinvalid.symm.trans hvalid) (by decide), fun _ => inBuffer_nil⟩
  rw [if_neg hinvalid]
  cases hcwd : w.cwd with
  | none => exact ⟨fun _ _ h => absurd rfl h, fun _ => inBuffer_nil⟩
  | some dirino =>
    dsimp only
    have hls : LsOk buf bufsz ⟨[], 0, false⟩ := ⟨fun a ha => absurd ha List.not_mem_nil, le_max_right _ _⟩
    obtain ⟨haccess, hoff⟩ := hls.blocks (w.blocks dirino)
    generalize lsBlocks buf bufsz (w.blocks dirino) ⟨[], 0, false⟩ = l at haccess hoff
    have hend : l.off < 2 ^ 64 := by
      have : max bufsz 1 < 2 ^ 64 := max_lt hsize (by decide)
      omega
    rw [List.append_cons, inBuffer_iff hend hsize]
    constructor
    · rintro ⟨-, hlast⟩ - - rfl
      exact Nat.not_lt_zero _ hlast
    · intro hne
      have hpos : max bufsz 1 = bufsz := max_eq_left (Nat.pos_of_ne_zero (hne (by simpa using hinvalid) (by simp)))
      rw [hpos] at haccess hoff
      refine ⟨fun a ha hstore => ?_, by omega⟩
      rcases List.mem_append.mp ha with ha | ha
      · exact haccess a ha
      · rw [List.mem_singleton] at ha
        subst ha
        split
        · exact within_storeAt (by omega)
        · exact within_loadAt (by omega)

/-! ## `tree` -/

/-! Where the output of `tree` would end if no line were left out for want of room. -/

/-- The entries of a block: `visit` is for a directory. -/
def endBlock (visit : ℕ → ℕ → ℕ) (isdir : ℕ → Bool) (depth : ℕ) : List Entry → ℕ → ℕ
  | [], off => off
  | e :: es, off =>
    if e.inum = 0 then endBlock visit isdir depth es off
    else
      let off := off + 5 * depth + e.name.length + 6
      endBlock visit isdir depth es (if isdir e.inum then visit e.inum off else off)

/-- The blocks of a directory. `stop` is the size as an `int`, which is tested between two blocks. -/
def endBlocks (visit : ℕ → ℕ → ℕ) (isdir : ℕ → Bool) (stop : ℤ) (depth : ℕ) : List (List Entry) → ℕ → ℕ
  | [], off => off
  | b :: bs, off =>
    let off := endBlock visit isdir depth b off
    if stop ≤ toOff off then off else endBlocks visit isdir stop depth bs off

/-- A directory, with up to `n` more levels. -/
def endDfs (w : World) (stop : ℤ) : ℕ → ℕ → ℕ → ℕ → ℕ
  | 0, _, _, off => off
  | n + 1, dirino, depth, off =>
    if stop ≤ toOff off then off
    else endBlocks (fun i off => endDfs w stop n i (depth + 1) off) w.isdir stop depth (w.blocks dirino) off

/-- Where the output ends: 2 if there are no entries. -/
def treeEnd (w : World) (bufsz start : ℕ) : ℕ := endDfs w (toInt bufsz) treeDepth start 0 2

theorem le_endBlock {visit : ℕ → ℕ → ℕ} {isdir : ℕ → Bool} {depth : ℕ} (hvisit : ∀ i off, off ≤ visit i off)
    (es : List Entry) (off : ℕ) : off ≤ endBlock visit isdir depth es off := by
  induction es generalizing off with
  | nil => exact le_rfl
  | cons e es ih =>
    unfold endBlock
    split
    · exact ih off
    · refine le_trans ?_ (ih _)
      split
      · exact le_trans (by omega) (hvisit _ _)
      · omega

theorem le_endBlocks {visit : ℕ → ℕ → ℕ} {isdir : ℕ → Bool} {stop : ℤ} {depth : ℕ}
    (hvisit : ∀ i off, off ≤ visit i off) (bs : List (List Entry)) (off : ℕ) :
    off ≤ endBlocks visit isdir stop depth bs off := by
  induction bs generalizing off with
  | nil => exact le_rfl
  | cons b bs ih =>
    unfold endBlocks
    have hblock : off ≤ endBlock visit isdir depth b off := le_endBlock hvisit b off
    dsimp only
    split
    · exact hblock
    · exact hblock.trans (ih _)

/-- The output only gets longer. -/
theorem le_endDfs (w : World) (stop : ℤ) (n : ℕ) : ∀ dirino depth off, off ≤ endDfs w stop n dirino depth off := by
  induction n with
  | zero => intro _ _ off; exact le_rfl
  | succ n ih =>
    intro dirino depth off
    unfold endDfs
    split
    · exact le_rfl
    · exact le_endBlocks (fun i off => ih i (depth + 1) off) _ _

/-! What is full stays full. -/

theorem treeBlock_full {bufsz depth buf : ℕ} {visit : ℕ → Tree → Tree} {isdir : ℕ → Bool} (hdepth : depth ≤ treeDepth)
    (hbufsz : bufsz + 2 ^ 31 < 2 ^ 64) (es : List Entry) {t : Tree} (h : t.off = bufsz) :
    (treeBlock visit isdir buf bufsz depth es t).off = bufsz := by
  induction es generalizing t with
  | nil => exact h
  | cons e es ih =>
    unfold treeBlock
    have hname := e.name_len
    simp only [treeDepth, maxnamelen] at hdepth hname
    split
    · exact ih h
    · dsimp only
      rw [h, Nat.mod_eq_of_lt (by omega), if_pos (by omega)]

theorem treeBlocks_full {bufsz depth buf : ℕ} {visit : ℕ → Tree → Tree} {isdir : ℕ → Bool} (hdepth : depth ≤ treeDepth)
    (hbufsz : bufsz + 2 ^ 31 < 2 ^ 64) (bs : List (List Entry)) {t : Tree} (h : t.off = bufsz) :
    (treeBlocks visit isdir buf bufsz depth bs t).off = bufsz := by
  induction bs generalizing t with
  | nil => exact h
  | cons b bs ih =>
    unfold treeBlocks
    have hblock : (treeBlock visit isdir buf bufsz depth b t).off = bufsz := treeBlock_full hdepth hbufsz b h
    dsimp only
    split
    · exact hblock
    · exact ih hblock

/-- Either all lines are there and the last one leaves room, or the buffer is full and one of them did not. -/
def Sim (bufsz : ℕ) (t : Tree) (off : ℕ) : Prop :=
  t.off = off ∧ (off = 2 ∨ off + 3 < bufsz) ∨ t.off = bufsz ∧ bufsz ≤ off + 3 ∧ 2 < off

theorem Sim.full {bufsz off off' : ℕ} {t t' : Tree} (h : t.off = bufsz ∧ bufsz ≤ off + 3 ∧ 2 < off)
    (ht : t'.off = bufsz) (hle : off ≤ off') : Sim bufsz t' off' :=
  .inr ⟨ht, by omega, by omega⟩

/-- What is done with a directory. -/
structure SimVisit (bufsz : ℕ) (visit : ℕ → Tree → Tree) (visit' : ℕ → ℕ → ℕ) : Prop where
  sim : ∀ i t off, Sim bufsz t off → Sim bufsz (visit i t) (visit' i off)
  mono : ∀ i off, off ≤ visit' i off

section

variable {bufsz depth buf : ℕ} {visit : ℕ → Tree → Tree} {visit' : ℕ → ℕ → ℕ} {isdir : ℕ → Bool}

/-- **One block of entries.** -/
theorem Sim.block (hv : SimVisit bufsz visit visit') (hdepth : depth ≤ treeDepth) (hbufsz : bufsz + 2 ^ 31 < 2 ^ 64)
    (htwo : 2 < bufsz) (es : List Entry) {t : Tree} {off : ℕ} (h : Sim bufsz t off) :
    Sim bufsz (treeBlock visit isdir buf bufsz depth es t) (endBlock visit' isdir depth es off) := by
  induction es generalizing t off with
  | nil => exact h
  | cons e es ih =>
    unfold treeBlock endBlock
    by_cases hfree : e.inum = 0
    · rw [if_pos hfree, if_pos hfree]
      exact ih h
    rw [if_neg hfree, if_neg hfree]
    have hname := e.name_len
    simp only [treeDepth, maxnamelen] at hdepth hname
    have hoff : t.off ≤ bufsz := by
      rcases h with ⟨he, h⟩ | h
      · omega
      · exact h.1.le
    dsimp only
    rw [Nat.mod_eq_of_lt (by omega)]
    by_cases hfull : bufsz ≤ t.off + e.name.length + 5 * depth + 9
    · -- the line does not fit: whatever else comes, the output ends behind it
      rw [if_pos hfull]
      have hbehind : bufsz ≤ off + 5 * depth + e.name.length + 6 + 3 := by
        rcases h with ⟨he, h⟩ | h
        · omega
        · omega
      have hline : ({ t with off := bufsz } : Tree).off = bufsz ∧
          bufsz ≤ off + 5 * depth + e.name.length + 6 + 3 ∧ 2 < off + 5 * depth + e.name.length + 6 :=
        ⟨rfl, hbehind, by omega⟩
      refine Sim.full hline rfl ?_
      · refine le_trans ?_ (le_endBlock hv.mono es _)
        split
        · exact hv.mono _ _
        · exact le_rfl
    · rw [if_neg hfull]
      -- the buffer is not full yet
      have heq : t.off = off := by
        rcases h with ⟨he, -⟩ | ⟨he, -⟩
        · exact he
        · omega
      refine ih ?_
      have hline : ∀ accesses nfile ndir,
          Sim bufsz ⟨accesses, t.off + 5 * depth + e.name.length + 6, nfile, ndir⟩
            (off + 5 * depth + e.name.length + 6) := by
        intro accesses nfile ndir
        exact .inl ⟨by rw [heq], .inr (by omega)⟩
      split
      · exact hv.sim _ _ _ (hline _ _ _)
      · exact hline _ _ _

theorem Sim.blocks (hv : SimVisit bufsz visit visit') (hdepth : depth ≤ treeDepth) (hbufsz : bufsz + 2 ^ 31 < 2 ^ 64)
    (htwo : 2 < bufsz) (bs : List (List Entry)) {t : Tree} {off : ℕ} (h : Sim bufsz t off) :
    Sim bufsz (treeBlocks visit isdir buf bufsz depth bs t)
      (endBlocks visit' isdir (toInt bufsz) depth bs off) := by
  induction bs generalizing t off with
  | nil => exact h
  | cons b bs ih =>
    unfold treeBlocks endBlocks
    have hblock : Sim bufsz (treeBlock visit isdir buf bufsz depth b t) (endBlock visit' isdir depth b off) :=
      h.block hv hdepth hbufsz htwo b
    dsimp only
    rcases hblock with ⟨he, hroom⟩ | hfull
    · rw [he]
      split
      · exact .inl ⟨he, hroom⟩
      · exact ih (.inl ⟨he, hroom⟩)
    · have hlater : (treeBlocks visit isdir buf bufsz depth bs
          (treeBlock visit isdir buf bufsz depth b t)).off = bufsz := treeBlocks_full hdepth hbufsz bs hfull.1
      split
      · split
        · exact .inr hfull
        · exact Sim.full hfull hfull.1 (le_endBlocks hv.mono _ _)
      · split
        · exact Sim.full hfull hlater le_rfl
        · exact Sim.full hfull hlater (le_endBlocks hv.mono _ _)

end

/-- **The whole tree.** -/
theorem sim_dfs {w : World} {bufsz buf : ℕ} (hbufsz : bufsz + 2 ^ 31 < 2 ^ 64) (htwo : 2 < bufsz) (n : ℕ) :
    ∀ (dirino depth : ℕ) (t : Tree) (off : ℕ), depth + n ≤ treeDepth → Sim bufsz t off →
      Sim bufsz (tree_dfs w buf bufsz n dirino depth t) (endDfs w (toInt bufsz) n dirino depth off) := by
  induction n with
  | zero =>
    intro dirino depth t off _ h
    exact h
  | succ n ih =>
    intro dirino depth t off hdepth h
    have hv : SimVisit bufsz (fun i t => tree_dfs w buf bufsz n i (depth + 1) t)
        (fun i off => endDfs w (toInt bufsz) n i (depth + 1) off) :=
      ⟨fun i t off ht => ih i (depth + 1) t off (by omega) ht, fun i off => le_endDfs w _ n i (depth + 1) off⟩
    have hend := le_endDfs w (toInt bufsz) (n + 1) dirino depth off
    have hlow : depth ≤ treeDepth := by omega
    have hsim : Sim bufsz
        (treeBlocks (fun i t => tree_dfs w buf bufsz n i (depth + 1) t) w.isdir buf bufsz depth (w.blocks dirino) t)
        (endBlocks (fun i off => endDfs w (toInt bufsz) n i (depth + 1) off) w.isdir (toInt bufsz) depth
          (w.blocks dirino) off) := h.blocks hv hlow hbufsz htwo (w.blocks dirino)
    rw [endDfs] at hend
    rw [tree_dfs, endDfs]
    rcases h with ⟨he, hroom⟩ | hfull
    · rw [he]
      split
      · exact .inl ⟨he, hroom⟩
      · exact hsim
    · have hlater : (treeBlocks (fun i t => tree_dfs w buf bufsz n i (depth + 1) t) w.isdir buf bufsz depth
          (w.blocks dirino) t).off = bufsz := treeBlocks_full (by omega) hbufsz _ hfull.1
      split
      · exact Sim.full hfull hfull.1 hend
      · exact Sim.full hfull hlater hend

/-- The end of the output, and what else is stored. -/
theorem tree_dfs_end (w : World) {bufsz : ℕ} (buf start : ℕ) (hlt : bufsz < 2 ^ 64) (htwo : 2 < bufsz) :
    let t := tree_dfs w buf bufsz treeDepth start 0 ⟨[storeAt buf 0 2], 2, 0, 0⟩
    (∀ a ∈ t.accesses, a.Within buf bufsz) ∧ Sim bufsz t (treeEnd w bufsz start) := by
  have hfirst : ∀ a ∈ [storeAt buf 0 2], a.Within buf bufsz := by
    intro a ha
    obtain rfl := List.mem_singleton.mp ha
    exact within_storeAt (by omega)
  dsimp only
  by_cases hstop : toInt bufsz ≤ 2
  · have hend : treeEnd w bufsz start = 2 := by
      obtain ⟨n, hn⟩ : ∃ n, treeDepth = n + 1 := ⟨2 ^ 15 - 1, rfl⟩
      unfold treeEnd
      rw [hn, endDfs]
      exact if_pos hstop
    rw [tree_dfs_stop rfl hstop, hend]
    exact ⟨hfirst, .inl ⟨rfl, .inl rfl⟩⟩
  · obtain ⟨-, hbufsz⟩ := bufsz_lt hlt hstop
    have hstart : TreeOk buf bufsz ⟨[storeAt buf 0 2], 2, 0, 0⟩ := ⟨hfirst, htwo.le⟩
    exact ⟨(treeOk_dfs hbufsz treeDepth start 0 _ (by omega) hstart).1,
      sim_dfs hbufsz htwo treeDepth start 0 _ 2 (by omega) (.inl ⟨rfl, .inl rfl⟩)⟩

/-- The working directory is stored whatever the size is. -/
theorem path_inBuffer {buf bufsz len : ℕ} (hlt : bufsz < 2 ^ 64) {ret : Option ℤ} :
    InBuffer ⟨[storeAt buf 0 (len + 1), loadAt buf 0 (len + 1)], ret⟩ buf bufsz ↔ len < bufsz := by
  have hstores : (⟨[storeAt buf 0 (len + 1), loadAt buf 0 (len + 1)], ret⟩ : Run).stores =
      [storeAt buf 0 (len + 1)] := rfl
  unfold InBuffer
  rw [hstores]
  constructor
  · rintro ⟨hall, -⟩
    have := of_within (hall _ List.mem_cons_self) (by decide) hlt (Nat.succ_pos len)
    omega
  · intro hlen
    refine ⟨fun a ha => ?_, .inr ⟨0, len, rfl, by omega⟩⟩
    obtain rfl := List.mem_singleton.mp ha
    exact within_storeAt (by omega)

/-- **`tree` stays in the buffer** if the working directory and the first line do, and if no line is left out. -/
theorem tree_inBuffer_iff (c : Caller) (w : World) :
    InBuffer (syscall_tree c w) c.regs.reg_rdi.toNat c.regs.reg_rsi.toNat ↔
      (rangeInvalid c.pt c.regs.reg_rdi.toNat c.regs.reg_rsi.toNat = false →
        w.name.length < c.regs.reg_rsi.toNat ∧ ∀ start, w.cwd = some start → 2 < c.regs.reg_rsi.toNat ∧
          (treeEnd w c.regs.reg_rsi.toNat start = 2 ∨
            treeEnd w c.regs.reg_rsi.toNat start + 3 < c.regs.reg_rsi.toNat)) := by
  have hsize : c.regs.reg_rsi.toNat < 2 ^ 64 := c.regs.reg_rsi.toNat_lt
  unfold syscall_tree
  dsimp only
  generalize c.regs.reg_rdi.toNat = buf
  generalize c.regs.reg_rsi.toNat = bufsz at hsize ⊢
  by_cases hinvalid : rangeInvalid c.pt buf bufsz = true
  · rw [if_pos hinvalid]
    exact ⟨fun _ hvalid => absurd (hinvalid.symm.trans hvalid) (by decide), fun _ => inBuffer_nil⟩
  have hvalid : rangeInvalid c.pt buf bufsz = false := eq_false_of_ne_true hinvalid
  rw [if_neg hinvalid]
  cases hcwd : w.cwd with
  | none =>
    dsimp only
    rw [path_inBuffer hsize]
    exact ⟨fun hlen _ => ⟨hlen, fun start h => nomatch h⟩, fun h => (h hvalid).1⟩
  | some start =>
    dsimp only
    set t := tree_dfs w buf bufsz treeDepth start 0 ⟨[storeAt buf 0 2], 2, 0, 0⟩ with ht
    have hpath : storeAt buf 0 (w.name.length + 1) ∈
        [storeAt buf 0 (w.name.length + 1), loadAt buf 0 (w.name.length + 1)] ++ t.accesses :=
      List.mem_append_left _ List.mem_cons_self
    by_cases htwo : 2 < bufsz
    · obtain ⟨haccess, hsim⟩ := tree_dfs_end w buf start hsize htwo
      rw [← ht] at haccess hsim
      have hoff : t.off ≤ bufsz := by
        rcases hsim with ⟨he, hroom⟩ | hfull
        · omega
        · exact hfull.1.le
      rw [inBuffer_iff (by omega) hsize]
      constructor
      · rintro ⟨hall, hlast⟩ -
        have hname := of_within (hall _ hpath rfl) (by decide) hsize (Nat.succ_pos w.name.length)
        refine ⟨by omega, fun start' hstart => ⟨htwo, ?_⟩⟩
        obtain rfl := Option.some.inj hstart
        rcases hsim with ⟨-, hroom⟩ | hfull
        · exact hroom
        · omega
      · intro h
        obtain ⟨hname, hdir⟩ := h hvalid
        obtain ⟨-, hroom⟩ := hdir start rfl
        refine ⟨fun a ha hstore => ?_, ?_⟩
        · rcases List.mem_append.mp ha with ha | ha
          · rcases List.mem_cons.mp ha with rfl | ha
            · exact within_storeAt (by omega)
            · obtain rfl := List.mem_singleton.mp ha
              cases hstore
          · exact haccess a ha
        · rcases hsim with ⟨he, -⟩ | hfull
          · omega
          · omega
    · -- the listing stops at once, and the NUL goes behind the first line
      have hstop : toInt bufsz ≤ 2 := by
        unfold toInt
        split
        · omega
        · omega
      have hend : t = ⟨[storeAt buf 0 2], 2, 0, 0⟩ := tree_dfs_stop rfl hstop
      rw [hend, inBuffer_iff (show 2 < 2 ^ 64 by omega) hsize]
      constructor
      · rintro ⟨-, hlast⟩
        exact absurd hlast htwo
      · intro h
        exact absurd ((h hvalid).2 start rfl).1 htwo

/--
**When `ls` and `tree` stay in the buffer.** `ls`: the size is not 0. `tree`: the working directory fits with its
NUL, the size is at least 3, and if there are entries their lines end at least four bytes before the buffer does.
-/
theorem listings_inBuffer_iff (c : Caller) (w : World) :
    (InBuffer (syscall_ls c w) c.regs.reg_rdi.toNat c.regs.reg_rsi.toNat ↔
      (buf_invalid c.pt c.regs.reg_rdi.toNat c.regs.reg_rsi.toNat = false → w.cwd ≠ none →
        c.regs.reg_rsi.toNat ≠ 0)) ∧
    (InBuffer (syscall_tree c w) c.regs.reg_rdi.toNat c.regs.reg_rsi.toNat ↔
      (rangeInvalid c.pt c.regs.reg_rdi.toNat c.regs.reg_rsi.toNat = false →
        w.name.length < c.regs.reg_rsi.toNat ∧ ∀ start, w.cwd = some start → 2 < c.regs.reg_rsi.toNat ∧
          (treeEnd w c.regs.reg_rsi.toNat start = 2 ∨
            treeEnd w c.regs.reg_rsi.toNat start + 3 < c.regs.reg_rsi.toNat))) :=
  ⟨ls_inBuffer_iff c w, tree_inBuffer_iff c w⟩

/-! ## Buffers that are left -/

/-- A caller whose memory is all accessible, with a buffer at address 2 MiB. -/
def bufferCaller (bufsz : UInt64) : Caller where
  pt := fun _ _ => some ⟨0, true, true, true⟩
  mem := fun _ => 0
  regs := ⟨0x200000, bufsz, 0, 0⟩

/-- A disk whose root, the working directory, holds one file, with a name of one letter. -/
def oneFile : World where
  sata_disk := true
  fdtable := fun _ => none
  name := [47]
  name_pos := by decide
  name_len := by decide
  cwd := some 1
  blocks := fun _ => [[⟨2, [97], by decide⟩]]
  isdir := fun _ => false
  lookup := .nodir

theorem treeEnd_oneFile : treeEnd oneFile 8 1 = 9 := by
  obtain ⟨n, hn⟩ : ∃ n, treeDepth = n + 1 := ⟨2 ^ 15 - 1, rfl⟩
  unfold treeEnd
  rw [hn]
  rfl

/-- **`ls` with a buffer of no bytes stores one. `tree` with a buffer of eight stores a ninth.** -/
theorem listings_inBuffer_fails :
    ¬InBuffer (syscall_ls (bufferCaller 0) oneFile) 0x200000 0 ∧
      ¬InBuffer (syscall_tree (bufferCaller 8) oneFile) 0x200000 8 := by
  constructor
  · intro h
    have hsize := (ls_inBuffer_iff (bufferCaller 0) oneFile).mp h
    exact hsize (by decide) (by decide) rfl
  · intro h
    have hroom := (tree_inBuffer_iff (bufferCaller 8) oneFile).mp h
    obtain ⟨-, hend⟩ := hroom (by decide +kernel)
    obtain ⟨-, hend⟩ := hend 1 rfl
    have height : (bufferCaller 8).regs.reg_rsi.toNat = 8 := rfl
    rw [height, treeEnd_oneFile] at hend
    exact absurd hend (by decide)

end Chickadee.Vm
