import Chickadee.Vm.Protect

/-!
# When the system calls are protected

`read` and `write` check their range and then keep to it. The other calls check too little: `pwd`, `ls`,
`tree` and `fdshow` do not ask for writable pages, `tree` and `fdshow` take a range that wraps, `tree` stores
the working directory and its final NUL whatever the size is, and `readdiskfile` checks nothing.
-/

namespace Chickadee.Vm

open Fs Chkfs Pipe

/-! ## `Covered` is enough -/

theorem syscall_pwd_protected {c : Caller} (h : Covered c .pwd) (w : World) :
    Protected c.pt (syscall_pwd c w) := by
  unfold syscall_pwd
  simp only
  split
  · exact protected_nil
  · rename_i hvalid
    have hwritable := h.resolve_left hvalid
    intro a ha
    rw [List.mem_singleton] at ha
    subst ha
    have hlen := w.name_len
    exact allowed_of_writable hwritable (within_storeAt (by omega))

/-- What `ls` has stored lies in the buffer, and there is room for the final NUL. -/
def LsOk (buf bufsz : ℕ) (l : Ls) : Prop :=
  (∀ a ∈ l.accesses, a.Within buf (max bufsz 1)) ∧ l.off + 1 ≤ max bufsz 1

theorem LsOk.block {buf bufsz : ℕ} (es : List Entry) {l : Ls} (h : LsOk buf bufsz l) :
    LsOk buf bufsz (lsBlock buf bufsz es l) := by
  induction es generalizing l with
  | nil => exact h
  | cons e es ih =>
    unfold lsBlock
    split
    · exact ih h
    · split
      · exact h
      · rename_i hfit
        refine ih ⟨?_, by simp only; omega⟩
        intro a ha
        rcases List.mem_append.mp ha with ha | ha
        · exact h.1 a ha
        · simp only [List.mem_cons, List.not_mem_nil, or_false] at ha
          rcases ha with rfl | rfl
          · exact within_storeAt (by omega)
          · exact within_storeAt (by omega)

theorem LsOk.blocks {buf bufsz : ℕ} (bs : List (List Entry)) {l : Ls} (h : LsOk buf bufsz l) :
    LsOk buf bufsz (lsBlocks buf bufsz bs l) := by
  induction bs generalizing l with
  | nil => exact h
  | cons b bs ih =>
    unfold lsBlocks
    split
    · exact ih (h.block b)
    · exact h

theorem syscall_ls_protected {c : Caller} (h : Covered c .ls) (w : World) :
    Protected c.pt (syscall_ls c w) := by
  unfold syscall_ls
  simp only
  split
  · exact protected_nil
  · rename_i hsz
    split
    · exact protected_nil
    · rename_i hvalid
      have hwritable := (h.resolve_left hsz).resolve_left hvalid
      split
      · exact protected_nil
      · rename_i dirino hcwd
        have hls : LsOk c.regs.reg_rdi.toNat c.regs.reg_rsi.toNat ⟨[], 0, false⟩ :=
          ⟨fun a ha => by simp at ha, by simp⟩
        obtain ⟨haccess, hoff⟩ := hls.blocks (w.blocks dirino)
        intro a ha
        refine allowed_of_writable hwritable ?_
        simp only [List.mem_append, List.mem_cons, List.not_mem_nil, or_false] at ha
        rcases ha with ha | rfl | rfl
        · exact haccess a ha
        · split
          · exact within_storeAt (by omega)
          · exact within_loadAt (by omega)
        · exact within_storeAt hoff

/-! ### `tree` -/

/-- What `tree` has stored lies in the buffer, up to one byte. -/
def TreeOk (buf bufsz : ℕ) (t : Tree) : Prop :=
  (∀ a ∈ t.accesses, a.Within buf bufsz) ∧ t.off ≤ bufsz

theorem treeLine_within {buf off depth sz n : ℕ} (h : off + sz + 5 * depth + 9 ≤ n) :
    ∀ a ∈ treeLine buf off depth sz, a.Within buf n := by
  intro a ha
  rcases List.mem_append.mp ha with ha | ha
  · obtain ⟨j, hj, ha⟩ := List.mem_flatMap.mp ha
    rw [List.mem_range] at hj
    simp only [List.mem_cons, List.not_mem_nil, or_false] at ha
    rcases ha with rfl | rfl
    · exact within_storeAt (by omega)
    · exact within_storeAt (by omega)
  · simp only [List.mem_cons, List.not_mem_nil, or_false] at ha
    rcases ha with rfl | rfl | rfl | rfl | rfl
    · exact within_storeAt (by omega)
    · exact within_storeAt (by omega)
    · exact within_storeAt (by omega)
    · exact within_storeAt (by omega)
    · exact within_storeAt (by omega)

theorem TreeOk.block {visit : ℕ → Tree → Tree} {isdir : ℕ → Bool} {buf bufsz depth : ℕ}
    (hvisit : ∀ i t, TreeOk buf bufsz t → TreeOk buf bufsz (visit i t)) (hdepth : depth ≤ treeDepth)
    (hsz : bufsz + 2 ^ 31 < 2 ^ 64) (es : List Entry) {t : Tree} (h : TreeOk buf bufsz t) :
    TreeOk buf bufsz (treeBlock visit isdir buf bufsz depth es t) := by
  induction es generalizing t with
  | nil => exact h
  | cons e es ih =>
    unfold treeBlock
    have hname := e.name_len
    have hoff := h.2
    simp only [treeDepth, maxnamelen] at hdepth hname
    split
    · exact ih h
    · simp only
      rw [Nat.mod_eq_of_lt (by omega)]
      split
      · exact ⟨h.1, Nat.le_refl _⟩
      · rename_i hfit
        have hline : TreeOk buf bufsz
            ⟨t.accesses ++ treeLine buf t.off depth e.name.length, t.off + 5 * depth + e.name.length + 6,
              t.nfile, t.ndir⟩ := by
          refine ⟨?_, by simp only; omega⟩
          intro a ha
          rcases List.mem_append.mp ha with ha | ha
          · exact h.1 a ha
          · exact treeLine_within (by omega) a ha
        refine ih ?_
        split
        · exact hvisit _ _ hline
        · exact hline

theorem TreeOk.blocks {visit : ℕ → Tree → Tree} {isdir : ℕ → Bool} {buf bufsz depth : ℕ}
    (hvisit : ∀ i t, TreeOk buf bufsz t → TreeOk buf bufsz (visit i t)) (hdepth : depth ≤ treeDepth)
    (hsz : bufsz + 2 ^ 31 < 2 ^ 64) (bs : List (List Entry)) {t : Tree} (h : TreeOk buf bufsz t) :
    TreeOk buf bufsz (treeBlocks visit isdir buf bufsz depth bs t) := by
  induction bs generalizing t with
  | nil => exact h
  | cons b bs ih =>
    unfold treeBlocks
    have hb : TreeOk buf bufsz (treeBlock visit isdir buf bufsz depth b t) := h.block hvisit hdepth hsz b
    simp only
    split
    · exact hb
    · exact ih hb

theorem treeOk_dfs {w : World} {buf bufsz : ℕ} (hsz : bufsz + 2 ^ 31 < 2 ^ 64) (n : ℕ) :
    ∀ (dirino depth : ℕ) (t : Tree), depth + n ≤ treeDepth → TreeOk buf bufsz t →
      TreeOk buf bufsz (tree_dfs w buf bufsz n dirino depth t) := by
  induction n with
  | zero => intro dirino depth t _ h; exact h
  | succ n ih =>
    intro dirino depth t hdepth h
    unfold tree_dfs
    split
    · exact h
    · exact h.blocks (fun i t ht => ih i (depth + 1) t (by omega) ht) (by omega) hsz _

/-- Where `tree` goes on, the size is far from the end of the address space. -/
theorem bufsz_lt {bufsz : ℕ} (hlt : bufsz < 2 ^ 64) (h : ¬toInt bufsz ≤ 2) :
    2 < bufsz ∧ bufsz + 2 ^ 31 < 2 ^ 64 := by
  unfold toInt at h
  split at h <;> omega

/-- A size that is not more than two as an `int` ends `tree` after its first line. -/
theorem tree_dfs_stop {w : World} {buf bufsz n dirino depth : ℕ} {t : Tree} (hoff : t.off = 2)
    (h : toInt bufsz ≤ 2) : tree_dfs w buf bufsz n dirino depth t = t := by
  cases n with
  | zero => rfl
  | succ n =>
    unfold tree_dfs
    rw [if_pos]
    rw [hoff]
    exact h

theorem syscall_tree_protected {c : Caller} (h : Covered c .tree) (w : World) :
    Protected c.pt (syscall_tree c w) := by
  unfold syscall_tree
  simp only
  split
  · exact protected_nil
  · rename_i hvalid
    have hwritable := h.resolve_left hvalid
    have hname := w.name_len
    have hpath : ∀ a ∈ [storeAt c.regs.reg_rdi.toNat 0 (w.name.length + 1),
        loadAt c.regs.reg_rdi.toNat 0 (w.name.length + 1)],
        a.Within c.regs.reg_rdi.toNat (treeReach c.regs.reg_rsi.toNat) := by
      have hreach : maxnamelen + 1 ≤ treeReach c.regs.reg_rsi.toNat := by
        unfold treeReach
        split <;> omega
      intro a ha
      simp only [List.mem_cons, List.not_mem_nil, or_false] at ha
      rcases ha with rfl | rfl
      · exact within_storeAt (by omega)
      · exact within_loadAt (by omega)
    split
    · exact fun a ha => allowed_of_writable hwritable (hpath a ha)
    · rename_i start hcwd
      intro a ha
      refine allowed_of_writable hwritable ?_
      simp only [List.mem_append, List.mem_singleton] at ha
      by_cases hstop : toInt c.regs.reg_rsi.toNat ≤ 2
      · rw [tree_dfs_stop rfl hstop] at ha
        have hreach : treeReach c.regs.reg_rsi.toNat = maxnamelen + 1 := by
          unfold treeReach
          rw [if_pos hstop]
        rcases ha with (ha | ha) | rfl
        · exact hpath a ha
        · rw [List.mem_singleton] at ha
          subst ha
          rw [hreach]
          exact within_storeAt (by decide)
        · rw [hreach]
          exact within_storeAt (by simp only; decide)
      · obtain ⟨htwo, hlt⟩ := bufsz_lt c.regs.reg_rsi.toNat_lt hstop
        have hreach : c.regs.reg_rsi.toNat + 1 ≤ treeReach c.regs.reg_rsi.toNat := by
          unfold treeReach
          rw [if_neg hstop]
          exact Nat.le_max_right _ _
        have hstart : TreeOk c.regs.reg_rdi.toNat c.regs.reg_rsi.toNat
            ⟨[storeAt c.regs.reg_rdi.toNat 0 2], 2, 0, 0⟩ := by
          refine ⟨?_, by simp only; omega⟩
          intro b hb
          rw [List.mem_singleton] at hb
          subst hb
          exact within_storeAt (by omega)
        obtain ⟨haccess, hoff⟩ := treeOk_dfs (w := w) hlt treeDepth start 0 _ (by omega) hstart
        rcases ha with (ha | ha) | rfl
        · exact hpath a ha
        · exact (haccess a ha).mono (by omega)
        · exact within_storeAt (by omega)

/-! ### `fdshow` and `readdiskfile` -/

theorem show_fdtable_within (w : World) (buf : ℕ) :
    ∀ a ∈ show_fdtable_ w buf, a.Within buf (3 * MAX_FD * pad + 7) := by
  intro a ha
  simp only [show_fdtable_, List.mem_append, List.mem_cons, List.not_mem_nil, or_false, List.mem_flatMap,
    List.mem_range, MAX_FD, pad] at ha ⊢
  rcases ha with ((rfl | rfl | rfl) | ⟨fd, hfd, ha⟩) | rfl | rfl | rfl | rfl
  · exact within_storeAt (by omega)
  · exact within_storeAt (by omega)
  · exact within_storeAt (by omega)
  · cases hvn : w.fdtable fd with
    | none =>
      simp only [showFd, hvn, List.mem_cons, List.not_mem_nil, or_false, pad] at ha
      rcases ha with rfl | rfl | rfl | rfl
      · exact within_storeAt (by omega)
      · exact within_storeAt (by omega)
      · exact within_storeAt (by omega)
      · exact within_storeAt (by omega)
    | some vn =>
      simp only [showFd, hvn, List.mem_append, List.mem_map, List.mem_range, List.mem_cons, List.not_mem_nil,
        or_false, pad] at ha
      rcases ha with ⟨i, hi, rfl⟩ | rfl
      · exact within_storeAt (by omega)
      · exact within_storeAt (by omega)
  · exact within_storeAt (by omega)
  · exact within_storeAt (by omega)
  · exact within_storeAt (by omega)
  · exact within_storeAt (by omega)

theorem syscall_fdshow_protected {c : Caller} (h : Covered c .fdshow) (w : World) :
    Protected c.pt (syscall_fdshow c w) := by
  unfold syscall_fdshow
  simp only
  split
  · exact protected_nil
  · rename_i hsz
    split
    · exact protected_nil
    · rename_i hvalid
      have hwritable := (h.resolve_left hsz).resolve_left hvalid
      exact fun a ha => allowed_of_writable hwritable (show_fdtable_within w _ a ha)

theorem syscall_readdiskfile_protected {c : Caller} (h : Covered c .readdiskfile) (w : World) :
    Protected c.pt (syscall_readdiskfile c w) := by
  unfold syscall_readdiskfile
  unfold Covered at h
  simp only at h ⊢
  split
  · exact protected_nil
  · split
    · rename_i hlen
      rw [hlen] at h
      exact absurd h id
    · rename_i n hlen
      rw [hlen] at h
      obtain ⟨hpath, hslash, hbuf⟩ := h
      have hlookup : ∀ a ∈ loadAt c.regs.reg_rdi.toNat 0 (n + 1) :: lookupPath c w c.regs.reg_rdi.toNat n,
          a.Allowed c.pt := by
        intro a ha
        rcases List.mem_cons.mp ha with rfl | ha
        · exact allowed_of_readable hpath (within_loadAt (by omega)) rfl
        · unfold lookupPath cutSlash at ha
          split at ha
          · simp at ha
          · rename_i habs
            have hcut : ∀ b ∈ (if c.char c.regs.reg_rdi.toNat (n - 1) = 47 then
                [storeAt c.regs.reg_rdi.toNat (n - 1) 1] else []), b.Allowed c.pt := by
              intro b hb
              split at hb
              · rename_i hlast
                rw [List.mem_singleton] at hb
                subst hb
                exact allowed_of_writable (hslash (Decidable.not_not.mp habs) hlast) ⟨0, rfl, Nat.le_refl _⟩
              · simp at hb
            split at ha
            · simp at ha
            · exact hcut a ha
            · exact hcut a ha
      split
      · exact hlookup
      · exact hlookup
      · rename_i f hf
        intro a ha
        rcases List.mem_append.mp ha with ha | ha
        · exact hlookup a ha
        · refine allowed_of_writable (hbuf f.size f.size_lt)
            ((diskReadLoop_within _ _ f _ _ _ c.regs.reg_r10.toNat_lt a ha).mono ?_)
          omega

theorem protected_of_covered {c : Caller} {k : Syscall} (h : Covered c k) (w : World) :
    Protected c.pt (k.run c w) := by
  cases k with
  | read => exact syscall_read_protected c w
  | write => exact syscall_write_protected c w
  | readdiskfile => exact syscall_readdiskfile_protected h w
  | pwd => exact syscall_pwd_protected h w
  | ls => exact syscall_ls_protected h w
  | tree => exact syscall_tree_protected h w
  | fdshow => exact syscall_fdshow_protected h w

/-! ## `Covered` is needed -/

/-- An entry with an empty name. -/
def Entry.unnamed : Entry := ⟨2, [], by decide⟩

/-- A kernel whose directories hold `k` entries with empty names, each in a block of its own, and whose
working directory has a name as long as there is room for. -/
def World.plain (k : ℕ) (lookup : Lookup) : World where
  sata_disk := true
  fdtable := fun _ => none
  name := List.replicate maxnamelen 97
  name_pos := by simp
  name_len := by simp
  cwd := some 1
  blocks := fun _ => List.replicate k [Entry.unnamed]
  isdir := fun _ => false
  lookup := lookup

/-- Between two writable bytes that are less than a page apart all are writable. -/
theorem writable_between {pt : PageTable} {p a b i : ℕ} (hai : a ≤ i) (hib : i ≤ b) (hab : b < a + PAGESIZE)
    (ha : (find pt ((p + a) % 2 ^ 64)).user = true ∧ (find pt ((p + a) % 2 ^ 64)).writable = true)
    (hb : (find pt ((p + b) % 2 ^ 64)).user = true ∧ (find pt ((p + b) % 2 ^ 64)).writable = true) :
    (find pt ((p + i) % 2 ^ 64)).user = true ∧ (find pt ((p + i) % 2 ^ 64)).writable = true := by
  simp only [PAGESIZE] at hab
  by_cases hpage : (p + i) / PAGESIZE = (p + a) / PAGESIZE
  · have h : (p + a) % 2 ^ 64 / PAGESIZE = (p + i) % 2 ^ 64 / PAGESIZE := by
      simp only [PAGESIZE] at *
      omega
    rw [user_page h, writable_page h]
    exact ha
  · have h : (p + b) % 2 ^ 64 / PAGESIZE = (p + i) % 2 ^ 64 / PAGESIZE := by
      simp only [PAGESIZE] at *
      omega
    rw [user_page h, writable_page h]
    exact hb

theorem covered_pwd {c : Caller} (h : ∀ w, Protected c.pt (syscall_pwd c w)) : Covered c .pwd := by
  by_cases hvalid : buf_invalid c.pt c.regs.reg_rdi.toNat (maxnamelen + 1) = true
  · exact .inl hvalid
  · refine .inr fun i hi => ?_
    have hw := h (World.plain 0 .nodir)
    unfold syscall_pwd at hw
    simp only [if_neg hvalid] at hw
    refine writable_of_allowed (hw _ (List.mem_singleton.mpr rfl)) (Nat.zero_le i) ?_
    simpa [World.plain] using hi

theorem covered_fdshow {c : Caller} (h : ∀ w, Protected c.pt (syscall_fdshow c w)) : Covered c .fdshow := by
  by_cases hsz : c.regs.reg_rsi.toNat ≤ MAX_FD * pad * 3 + 4
  · exact .inl hsz
  · by_cases hvalid : rangeInvalid c.pt c.regs.reg_rdi.toNat c.regs.reg_rsi.toNat = true
    · exact .inr (.inl hvalid)
    · refine .inr (.inr fun i hi => ?_)
      have hw := h (World.plain 0 .nodir)
      unfold syscall_fdshow at hw
      simp only [if_neg hsz, if_neg hvalid] at hw
      have hfirst : (storeAt c.regs.reg_rdi.toNat 0 (MAX_FD * pad + 1)).Allowed c.pt :=
        hw _ (by simp [show_fdtable_])
      have hlast : (storeAt c.regs.reg_rdi.toNat (3 * MAX_FD * pad + 6) 1).Allowed c.pt :=
        hw _ (by simp [show_fdtable_])
      have hzero := writable_of_allowed hfirst (Nat.le_refl 0) (Nat.zero_lt_succ _)
      have hend := writable_of_allowed hlast (Nat.le_refl _) (Nat.lt_succ_self _)
      exact writable_between (Nat.zero_le i) (by omega) (by decide) hzero hend

/-- `ls` over entries with empty names stores two bytes for each and keeps one. -/
theorem lsBlocks_plain (buf : ℕ) {bufsz : ℕ} (hsz : bufsz ≤ MAX_UBUF_LEN) (k : ℕ) :
    ∀ l : Ls, l.off + k + 1 ≤ max bufsz 1 →
      (lsBlocks buf bufsz (List.replicate k [Entry.unnamed]) l).off = l.off + k := by
  induction k with
  | zero => intro l _; rfl
  | succ k ih =>
    intro l hl
    simp only [MAX_UBUF_LEN] at hsz
    have hgo : (l.off : ℤ) < toInt bufsz := by
      unfold toInt
      split <;> omega
    rw [List.replicate_succ, lsBlocks, if_pos hgo]
    simp only [lsBlock]
    rw [if_neg (by decide), if_neg (by simp only [Entry.unnamed, List.length_nil]; omega),
      ih _ (by simp only [Entry.unnamed, List.length_nil]; omega)]
    simp only [Entry.unnamed, List.length_nil]
    omega

theorem covered_ls {c : Caller} (h : ∀ w, Protected c.pt (syscall_ls c w)) : Covered c .ls := by
  by_cases hsz : MAX_UBUF_LEN < c.regs.reg_rsi.toNat
  · exact .inl hsz
  · by_cases hvalid : buf_invalid c.pt c.regs.reg_rdi.toNat c.regs.reg_rsi.toNat = true
    · exact .inr (.inl hvalid)
    · refine .inr (.inr fun i hi => ?_)
      have hw := h (World.plain i .nodir)
      unfold syscall_ls at hw
      simp only [if_neg hsz, if_neg hvalid, World.plain] at hw
      have hoff := lsBlocks_plain c.regs.reg_rdi.toNat (Nat.le_of_not_lt hsz) i ⟨[], 0, false⟩
        (by simp only; omega)
      rw [Nat.zero_add] at hoff
      have hlast := hw (storeAt c.regs.reg_rdi.toNat i 1) (by simp [hoff])
      exact writable_of_allowed hlast (Nat.le_refl i) (by omega)

/-- One entry with an empty name in `tree`. -/
theorem treeBlock_unnamed {visit : ℕ → Tree → Tree} {buf bufsz : ℕ} (hsz : bufsz < 2 ^ 31) {t : Tree}
    (hoff : t.off ≤ bufsz) :
    treeBlock visit (fun _ => false) buf bufsz 0 [Entry.unnamed] t =
      if bufsz ≤ t.off + 9 then { t with off := bufsz }
      else ⟨t.accesses ++ treeLine buf t.off 0 0, t.off + 6, t.nfile + 1, t.ndir⟩ := by
  have hinum : Entry.unnamed.inum ≠ 0 := by decide
  have hname : Entry.unnamed.name.length = 0 := rfl
  simp only [treeBlock, if_neg hinum, hname, Nat.mul_zero, Nat.add_zero, Bool.false_eq_true, if_false]
  rw [Nat.mod_eq_of_lt (by omega)]

/-- While they fit, each entry with an empty name is six bytes of `tree`. -/
theorem treeBlocks_plain {visit : ℕ → Tree → Tree} {buf bufsz : ℕ} (hsz : bufsz < 2 ^ 31) (k : ℕ) :
    ∀ t : Tree, (0 < k → t.off + 6 * k + 3 < bufsz) →
      (treeBlocks visit (fun _ => false) buf bufsz 0 (List.replicate k [Entry.unnamed]) t).off
        = t.off + 6 * k := by
  induction k with
  | zero => intro t _; rfl
  | succ k ih =>
    intro t ht
    have hfit := ht (Nat.succ_pos k)
    have hgo : ¬toInt bufsz ≤ toOff (t.off + 6) := by
      unfold toInt toOff
      split <;> split <;> omega
    rw [List.replicate_succ, treeBlocks, treeBlock_unnamed hsz (by omega),
      if_neg (show ¬bufsz ≤ t.off + 9 by omega)]
    simp only [if_neg hgo]
    rw [ih ⟨t.accesses ++ treeLine buf t.off 0 0, t.off + 6, t.nfile + 1, t.ndir⟩ (fun _ => by simp only; omega)]
    simp only
    omega

/-- When there are more than fit, `off` ends at the size of the buffer. -/
theorem treeBlocks_plain_full {visit : ℕ → Tree → Tree} {buf bufsz : ℕ} (hsz : bufsz < 2 ^ 31) (k : ℕ) :
    ∀ t : Tree, 0 < k → t.off ≤ bufsz → bufsz ≤ t.off + 6 * k + 3 →
      (treeBlocks visit (fun _ => false) buf bufsz 0 (List.replicate k [Entry.unnamed]) t).off = bufsz := by
  induction k with
  | zero => intro t hk; omega
  | succ k ih =>
    intro t _ hoff hfull
    rw [List.replicate_succ, treeBlocks, treeBlock_unnamed hsz hoff]
    by_cases hfit : bufsz ≤ t.off + 9
    · have hstop : toInt bufsz ≤ toOff bufsz := by
        unfold toInt toOff
        split <;> split <;> omega
      simp only [if_pos hfit, if_pos hstop]
    · have hgo : ¬toInt bufsz ≤ toOff (t.off + 6) := by
        unfold toInt toOff
        split <;> split <;> omega
      simp only [if_neg hfit, if_neg hgo]
      exact ih _ (by omega) (by simp only; omega) (by simp only; omega)

theorem syscall_tree_accesses {c : Caller} {w : World} {s : ℕ}
    (hvalid : ¬rangeInvalid c.pt c.regs.reg_rdi.toNat c.regs.reg_rsi.toNat = true) (hcwd : w.cwd = some s) :
    (syscall_tree c w).accesses =
      [storeAt c.regs.reg_rdi.toNat 0 (w.name.length + 1), loadAt c.regs.reg_rdi.toNat 0 (w.name.length + 1)]
        ++ (tree_dfs w c.regs.reg_rdi.toNat c.regs.reg_rsi.toNat treeDepth s 0
          ⟨[storeAt c.regs.reg_rdi.toNat 0 2], 2, 0, 0⟩).accesses
        ++ [storeAt c.regs.reg_rdi.toNat (tree_dfs w c.regs.reg_rdi.toNat c.regs.reg_rsi.toNat treeDepth s 0
          ⟨[storeAt c.regs.reg_rdi.toNat 0 2], 2, 0, 0⟩).off 1] := by
  unfold syscall_tree
  simp only [if_neg hvalid, hcwd]

/-- The byte where `tree` puts its final NUL is writable. -/
theorem tree_last {c : Caller} (hvalid : ¬rangeInvalid c.pt c.regs.reg_rdi.toNat c.regs.reg_rsi.toNat = true)
    (hgo : ¬toInt c.regs.reg_rsi.toNat ≤ 2) (h : ∀ w, Protected c.pt (syscall_tree c w)) {k off : ℕ}
    (hoff : ∀ visit, (treeBlocks visit (fun _ => false) c.regs.reg_rdi.toNat c.regs.reg_rsi.toNat 0
      (List.replicate k [Entry.unnamed]) ⟨[storeAt c.regs.reg_rdi.toNat 0 2], 2, 0, 0⟩).off = off) :
    (find c.pt ((c.regs.reg_rdi.toNat + off) % 2 ^ 64)).user = true
      ∧ (find c.pt ((c.regs.reg_rdi.toNat + off) % 2 ^ 64)).writable = true := by
  have hw := h (World.plain k .nodir)
  unfold Protected at hw
  rw [syscall_tree_accesses hvalid (s := 1) rfl] at hw
  have hstart : ¬toInt c.regs.reg_rsi.toNat ≤ toOff 2 := hgo
  have hend : (tree_dfs (World.plain k .nodir) c.regs.reg_rdi.toNat c.regs.reg_rsi.toNat treeDepth 1 0
      ⟨[storeAt c.regs.reg_rdi.toNat 0 2], 2, 0, 0⟩).off = off := by
    obtain ⟨n, hn⟩ : ∃ n, treeDepth = n + 1 := ⟨2 ^ 15 - 1, rfl⟩
    rw [hn, tree_dfs, if_neg hstart]
    exact hoff _
  rw [hend] at hw
  have hstore : (storeAt c.regs.reg_rdi.toNat off 1).Allowed c.pt :=
    hw _ (List.mem_append_right _ (List.mem_singleton.mpr rfl))
  exact writable_of_allowed hstore (Nat.le_refl off) (Nat.lt_succ_self off)

theorem covered_tree {c : Caller} (hexact : c.regs.reg_rsi.toNat < 2 ^ 31 ∨ toInt c.regs.reg_rsi.toNat ≤ 2)
    (h : ∀ w, Protected c.pt (syscall_tree c w)) : Covered c .tree := by
  by_cases hvalid : rangeInvalid c.pt c.regs.reg_rdi.toNat c.regs.reg_rsi.toNat = true
  · exact .inl hvalid
  · refine .inr ?_
    have hname : Writable c.pt c.regs.reg_rdi.toNat (maxnamelen + 1) := by
      intro i hi
      have hw := h (World.plain 0 .nodir)
      unfold Protected at hw
      rw [syscall_tree_accesses hvalid (s := 1) rfl] at hw
      have hstore : (storeAt c.regs.reg_rdi.toNat 0 (maxnamelen + 1)).Allowed c.pt := by
        have hfirst := hw _ (List.mem_append_left _ (List.mem_append_left _ List.mem_cons_self))
        rw [show (World.plain 0 .nodir).name.length = maxnamelen from List.length_replicate] at hfirst
        exact hfirst
      exact writable_of_allowed hstore (Nat.zero_le i) (by omega)
    by_cases hgo : toInt c.regs.reg_rsi.toNat ≤ 2
    · unfold treeReach
      rw [if_pos hgo]
      exact hname
    · have hsz := hexact.resolve_right hgo
      obtain ⟨htwo, -⟩ := bufsz_lt c.regs.reg_rsi.toNat_lt hgo
      unfold treeReach
      rw [if_neg hgo]
      -- the end of a listing that fits, and of one that does not
      have hpart : ∀ k, 6 * k + 5 < c.regs.reg_rsi.toNat →
          (find c.pt ((c.regs.reg_rdi.toNat + (2 + 6 * k)) % 2 ^ 64)).user = true
            ∧ (find c.pt ((c.regs.reg_rdi.toNat + (2 + 6 * k)) % 2 ^ 64)).writable = true := by
        intro k hk
        exact tree_last hvalid hgo h fun visit => treeBlocks_plain hsz k _ fun _ => by simp only; omega
      have hfull : (find c.pt ((c.regs.reg_rdi.toNat + c.regs.reg_rsi.toNat) % 2 ^ 64)).user = true
            ∧ (find c.pt ((c.regs.reg_rdi.toNat + c.regs.reg_rsi.toNat) % 2 ^ 64)).writable = true :=
        tree_last hvalid hgo h fun visit =>
          treeBlocks_plain_full hsz c.regs.reg_rsi.toNat _ (by omega) (by simp only; omega) (by simp only; omega)
      intro i hi
      by_cases hshort : i < maxnamelen + 1
      · exact hname i hshort
      · simp only [maxnamelen] at hi hshort
        by_cases hend : i + 16 ≤ c.regs.reg_rsi.toNat
        · exact writable_between (a := 2 + 6 * ((i - 2) / 6)) (b := 2 + 6 * ((i - 2) / 6 + 1)) (by omega) (by omega)
            (by simp only [PAGESIZE]; omega) (hpart _ (by omega)) (hpart _ (by omega))
        · exact writable_between (a := 2 + 6 * ((c.regs.reg_rsi.toNat - 30) / 6)) (by omega) (by omega)
            (by simp only [PAGESIZE]; omega) (hpart _ (by omega)) hfull

/-- Where a file has every block, the loop stores each byte that it has left. -/
theorem diskReadLoop_covers (addr sz : ℕ) {f : File} (hhas : ∀ b, f.has b = true) (fuel : ℕ) :
    ∀ (nread off : ℕ), off < 2 ^ 64 → sz - nread < fuel → ∀ i, nread ≤ i →
      i < min sz (nread + (f.size + 2 ^ 64 - off) % 2 ^ 64) →
      ∃ o len, storeAt addr o len ∈ (diskReadLoop addr sz f fuel nread off).1 ∧ o ≤ i ∧ i < o + len := by
  induction fuel with
  | zero => intro nread off _ hfuel; omega
  | succ fuel ih =>
    intro nread off hoff hfuel i hi hlt
    have hb : off % blocksize < blocksize := Nat.mod_lt _ (by decide)
    have hblock : 0 < blocksize - off % blocksize := by omega
    have hleft : 0 < (f.size + 2 ^ 64 - off) % 2 ^ 64 := by omega
    have hwanted : 0 < sz - nread := by omega
    unfold diskReadLoop
    rw [if_pos ⟨by omega, hhas _⟩]
    simp only
    have hcopy : min ((f.size + 2 ^ 64 - off) % 2 ^ 64) (min (blocksize - off % blocksize) (sz - nread))
        ≤ (f.size + 2 ^ 64 - off) % 2 ^ 64 := Nat.min_le_left _ _
    have hpos : 0 < min ((f.size + 2 ^ 64 - off) % 2 ^ 64) (min (blocksize - off % blocksize) (sz - nread)) :=
      Nat.lt_min.mpr ⟨hleft, Nat.lt_min.mpr ⟨hblock, hwanted⟩⟩
    revert hcopy hpos
    generalize min ((f.size + 2 ^ 64 - off) % 2 ^ 64) (min (blocksize - off % blocksize) (sz - nread)) = ncopy
    intro hcopy hpos
    rw [if_neg (by omega)]
    by_cases hin : i < nread + ncopy
    · exact ⟨nread, ncopy, List.mem_cons_self, hi, hin⟩
    · have hrest := left_sub f.size_lt hoff hcopy
      obtain ⟨o, len, hmem, ho, hlen⟩ := ih (nread + ncopy) ((off + ncopy) % 2 ^ 64) (Nat.mod_lt _ (by decide))
        (by omega) i (by omega) (by rw [hrest]; omega)
      exact ⟨o, len, List.mem_cons_of_mem _ hmem, ho, hlen⟩

/-- No page table maps the whole of the address space. -/
theorem not_allowed_all {pt : PageTable} {p : ℕ} : ¬(loadAt p 0 (2 ^ 64)).Allowed pt := by
  intro h
  have hbyte := (h ((VA_LOWEND + 2 ^ 64 - p % 2 ^ 64) % 2 ^ 64) (Nat.mod_lt _ (by decide))).1
  simp only [loadAt] at hbyte
  rw [show ((p + 0) % 2 ^ 64 + (VA_LOWEND + 2 ^ 64 - p % 2 ^ 64) % 2 ^ 64) % 2 ^ 64 = VA_LOWEND by
    simp only [VA_LOWEND]; omega] at hbyte
  have hcanon := canonical_of_present (Vmiter.present_of_user hbyte)
  exact absurd hcanon (by decide)

theorem covered_readdiskfile {c : Caller} (h : ∀ w, Protected c.pt (syscall_readdiskfile c w)) :
    Covered c .readdiskfile := by
  unfold Covered
  unfold syscall_readdiskfile at h
  simp only at h ⊢
  cases hlen : strlen c.mem c.regs.reg_rdi.toNat with
  | none =>
    have hw := h (World.plain 0 .nodir)
    simp only [hlen, World.plain, Bool.true_eq_false, if_false] at hw
    exact not_allowed_all (hw _ (List.mem_singleton.mpr rfl))
  | some n =>
    simp only [hlen] at h ⊢
    refine ⟨fun i hi => ?_, fun habs hlast i hi => ?_, fun size hsize i hi => ?_⟩
    · have hw := h (World.plain 0 .nodir)
      simp only [World.plain, Bool.true_eq_false, if_false] at hw
      have hbyte := hw (loadAt c.regs.reg_rdi.toNat 0 (n + 1)) List.mem_cons_self i hi
      simp only [loadAt, Nat.add_zero, Nat.mod_add_mod] at hbyte
      exact hbyte.1
    · have hw := h (World.plain 0 .nofile)
      simp only [World.plain, Bool.true_eq_false, if_false] at hw
      have hstore : (storeAt c.regs.reg_rdi.toNat (n - 1) 1).Allowed c.pt :=
        hw _ (List.mem_cons_of_mem _ (by simp [lookupPath, cutSlash, habs, hlast]))
      have hbyte := writable_of_allowed hstore (Nat.le_refl _) (Nat.lt_succ_self _)
      rw [show i = 0 by omega, Nat.add_zero]
      exact hbyte
    · have hw := h (World.plain 0 (.file ⟨size, fun _ => true, hsize⟩))
      simp only [World.plain, Bool.true_eq_false, if_false] at hw
      obtain ⟨o, len, hmem, ho, hol⟩ := diskReadLoop_covers c.regs.reg_rsi.toNat c.regs.reg_rdx.toNat
        (f := ⟨size, fun _ => true, hsize⟩) (fun _ => rfl) (c.regs.reg_rdx.toNat + 1) 0 _ c.regs.reg_r10.toNat_lt
        (by omega) i (Nat.zero_le i) (by simpa using hi)
      exact writable_of_allowed (hw _ (List.mem_append_right _ hmem)) ho hol

/-- The sizes for which the output of `tree` is known to reach the end of its buffer, or to end at once. -/
def Exact (c : Caller) (k : Syscall) : Prop :=
  k = .tree → c.regs.reg_rsi.toNat < 2 ^ 31 ∨ toInt c.regs.reg_rsi.toNat ≤ 2

/-- A system call keeps to the memory of its caller, whatever the kernel holds, where what it is passed is
covered, and only there. -/
theorem protected_iff_covered (c : Caller) (k : Syscall) :
    (Covered c k → ∀ w, Protected c.pt (k.run c w))
      ∧ (Exact c k → (∀ w, Protected c.pt (k.run c w)) → Covered c k) := by
  refine ⟨fun h w => protected_of_covered h w, fun hexact h => ?_⟩
  cases k with
  | read => exact trivial
  | write => exact trivial
  | readdiskfile => exact covered_readdiskfile h
  | pwd => exact covered_pwd h
  | ls => exact covered_ls h
  | tree => exact covered_tree (hexact rfl) h
  | fdshow => exact covered_fdshow h

/-- The last address with a page of the kernel, and a size with which it wraps. -/
def kernelCaller : Caller where
  pt := fun _ _ => some ⟨0, true, false, true⟩
  mem := fun _ => 0
  regs := ⟨0xFFFFFFFF80000000, 0x80000000, 0, 0⟩

/-- `fdshow` stores into kernel memory when the range that it is given wraps. -/
theorem fdshow_unprotected : ¬Protected kernelCaller.pt (Syscall.fdshow.run kernelCaller (World.plain 0 .nodir)) := by
  intro h
  have hstore := h (storeAt 0xFFFFFFFF80000000 0 65) (by decide +kernel) 0 (by decide)
  exact absurd hstore.1 (by decide +kernel)

end Chickadee.Vm
