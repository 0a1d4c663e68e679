import Chickadee.Vm.Access

/-!
# Protection of user memory

A system call is protected when each byte that it loads or stores through a pointer of the user is in a page
that the page table of the caller maps for the user, and for a store as writable. `Covered` is what the
registers, the page table and the path must be like for this to be so whatever the kernel holds.
-/

namespace Chickadee.Vm

open Fs Chkfs Pipe

/-- The bytes are in pages of the user. -/
def Readable (pt : PageTable) (p len : ℕ) : Prop :=
  ∀ i < len, (find pt ((p + i) % 2 ^ 64)).user = true

/-- The bytes are in pages of the user that are writable. -/
def Writable (pt : PageTable) (p len : ℕ) : Prop :=
  ∀ i < len, (find pt ((p + i) % 2 ^ 64)).user = true ∧ (find pt ((p + i) % 2 ^ 64)).writable = true

/-- An access is to bytes of pages that the caller may access so. -/
def Access.Allowed (pt : PageTable) (a : Access) : Prop :=
  ∀ i < a.len, (find pt ((a.addr + i) % 2 ^ 64)).user = true
    ∧ (a.store = true → (find pt ((a.addr + i) % 2 ^ 64)).writable = true)

def Protected (pt : PageTable) (r : Run) : Prop := ∀ a ∈ r.accesses, a.Allowed pt

/-- The system calls that are looked at. -/
inductive Syscall
  | read
  | write
  | readdiskfile
  | pwd
  | ls
  | tree
  | fdshow
  deriving DecidableEq

def Syscall.run (c : Caller) (w : World) : Syscall → Run
  | read => syscall_read c w
  | write => syscall_write c w
  | readdiskfile => syscall_readdiskfile c w
  | pwd => syscall_pwd c w
  | ls => syscall_ls c w
  | tree => syscall_tree c w
  | fdshow => syscall_fdshow c w

/-- The bytes that `tree` may store to: the working directory goes there whatever the size is, and the
final NUL is behind a buffer that is full. -/
def treeReach (bufsz : ℕ) : ℕ :=
  if toInt bufsz ≤ 2 then maxnamelen + 1 else max (maxnamelen + 1) (bufsz + 1)

/-- What the caller must pass for the call to be protected whatever the kernel holds. -/
def Covered (c : Caller) : Syscall → Prop
  | .read | .write => True
  | .readdiskfile =>
    match strlen c.mem c.regs.reg_rdi.toNat with
    | none => False
    | some n =>
      Readable c.pt c.regs.reg_rdi.toNat (n + 1)
      ∧ (c.char c.regs.reg_rdi.toNat 0 = 47 → c.char c.regs.reg_rdi.toNat (n - 1) = 47 →
          Writable c.pt (c.regs.reg_rdi.toNat + (n - 1)) 1)
      ∧ ∀ size < 2 ^ 32, Writable c.pt c.regs.reg_rsi.toNat
          (min c.regs.reg_rdx.toNat ((size + 2 ^ 64 - c.regs.reg_r10.toNat) % 2 ^ 64))
  | .pwd =>
    buf_invalid c.pt c.regs.reg_rdi.toNat (maxnamelen + 1) = true
      ∨ Writable c.pt c.regs.reg_rdi.toNat (maxnamelen + 1)
  | .ls =>
    MAX_UBUF_LEN < c.regs.reg_rsi.toNat
      ∨ buf_invalid c.pt c.regs.reg_rdi.toNat c.regs.reg_rsi.toNat = true
      ∨ Writable c.pt c.regs.reg_rdi.toNat (max c.regs.reg_rsi.toNat 1)
  | .tree =>
    rangeInvalid c.pt c.regs.reg_rdi.toNat c.regs.reg_rsi.toNat = true
      ∨ Writable c.pt c.regs.reg_rdi.toNat (treeReach c.regs.reg_rsi.toNat)
  | .fdshow =>
    c.regs.reg_rsi.toNat ≤ MAX_FD * pad * 3 + 4
      ∨ rangeInvalid c.pt c.regs.reg_rdi.toNat c.regs.reg_rsi.toNat = true
      ∨ Writable c.pt c.regs.reg_rdi.toNat (3 * MAX_FD * pad + 7)

/-! ## Accesses within a range -/

/-- An access is to the first `n` bytes behind a pointer. -/
def Access.Within (p n : ℕ) (a : Access) : Prop :=
  ∃ off, a.addr = (p + off) % 2 ^ 64 ∧ off + a.len ≤ n

theorem within_loadAt {p off len n : ℕ} (h : off + len ≤ n) : (loadAt p off len).Within p n :=
  ⟨off, rfl, h⟩

theorem within_storeAt {p off len n : ℕ} (h : off + len ≤ n) : (storeAt p off len).Within p n :=
  ⟨off, rfl, h⟩

theorem Access.Within.mono {p n m : ℕ} {a : Access} (h : a.Within p n) (hnm : n ≤ m) : a.Within p m := by
  obtain ⟨off, haddr, hlen⟩ := h
  exact ⟨off, haddr, by omega⟩

theorem allowed_of_writable {pt : PageTable} {p n : ℕ} {a : Access} (hw : Writable pt p n) (ha : a.Within p n) :
    a.Allowed pt := by
  obtain ⟨off, haddr, hlen⟩ := ha
  intro i hi
  have hbyte := hw (off + i) (by omega)
  rw [haddr, Nat.mod_add_mod, Nat.add_assoc]
  exact ⟨hbyte.1, fun _ => hbyte.2⟩

theorem allowed_of_readable {pt : PageTable} {p n : ℕ} {a : Access} (hr : Readable pt p n) (ha : a.Within p n)
    (hload : a.store = false) : a.Allowed pt := by
  obtain ⟨off, haddr, hlen⟩ := ha
  intro i hi
  rw [haddr, Nat.mod_add_mod, Nat.add_assoc]
  exact ⟨hr (off + i) (by omega), fun h => by rw [hload] at h; cases h⟩

theorem Writable.readable {pt : PageTable} {p n : ℕ} (h : Writable pt p n) : Readable pt p n :=
  fun i hi => (h i hi).1

theorem Writable.mono {pt : PageTable} {p n m : ℕ} (h : Writable pt p n) (hmn : m ≤ n) : Writable pt p m :=
  fun i hi => h i (by omega)

/-- A byte that is stored to is writable. -/
theorem writable_of_allowed {pt : PageTable} {p off len i : ℕ} (h : (storeAt p off len).Allowed pt)
    (hi : off ≤ i) (hlen : i < off + len) :
    (find pt ((p + i) % 2 ^ 64)).user = true ∧ (find pt ((p + i) % 2 ^ 64)).writable = true := by
  have hbyte := h (i - off) (show i - off < len by omega)
  simp only [storeAt, Nat.mod_add_mod, Nat.add_assoc] at hbyte
  rw [show off + (i - off) = i by omega] at hbyte
  exact ⟨hbyte.1, hbyte.2 trivial⟩

/-! ## What the loops of the vnodes access -/

theorem kbcReadLoop_within (addr sz : ℕ) (line : List UInt8) (n : ℕ) :
    ∀ a ∈ (kbcReadLoop addr sz line n).1, a.Within addr sz := by
  induction line generalizing n with
  | nil => intro a ha; simp [kbcReadLoop] at ha
  | cons ch line ih =>
    intro a ha
    unfold kbcReadLoop at ha
    split at ha
    · rename_i h
      rcases List.mem_cons.mp ha with rfl | ha
      · exact within_storeAt (by omega)
      · exact ih (n + 1) a ha
    · simp at ha

theorem pipeWriteLoop_within (addr sz fuel pos_ len_ pos : ℕ) {isz : ℤ} (hsz : isz ≤ sz) :
    ∀ a ∈ (pipeWriteLoop addr isz fuel pos_ len_ pos).1, a.Within addr sz ∧ a.store = false := by
  induction fuel generalizing len_ pos with
  | zero => intro a ha; simp [pipeWriteLoop] at ha
  | succ fuel ih =>
    intro a ha
    unfold pipeWriteLoop at ha
    split at ha
    · rename_i h
      rcases List.mem_cons.mp ha with rfl | ha
      · refine ⟨within_loadAt ?_, rfl⟩
        have hmin := Nat.min_le_left (isz - pos).toNat
          (min (BBUF_CAP - (pos_ + len_) % BBUF_CAP) (BBUF_CAP - len_))
        omega
      · exact ih _ _ a ha
    · simp at ha

theorem pipeReadLoop_within (addr sz fuel pos_ len_ pos : ℕ) {isz : ℤ} (hsz : isz ≤ sz) :
    ∀ a ∈ (pipeReadLoop addr sz isz fuel pos_ len_ pos).1, a.Within addr sz := by
  induction fuel generalizing pos_ len_ pos with
  | zero => intro a ha; simp [pipeReadLoop] at ha
  | succ fuel ih =>
    intro a ha
    unfold pipeReadLoop at ha
    split at ha
    · rename_i h
      rcases List.mem_cons.mp ha with rfl | ha
      · have hmin := Nat.min_le_left (sz - pos) (min len_ (BBUF_CAP - pos_))
        exact within_storeAt (by omega)
      · exact ih _ _ _ a ha
    · simp at ha

theorem diskWriteLoop_within (addr sz : ℕ) (f : File) (fuel nwritten off : ℕ) :
    ∀ a ∈ (diskWriteLoop addr sz f fuel nwritten off).1, a.Within addr sz ∧ a.store = false := by
  induction fuel generalizing nwritten off with
  | zero => intro a ha; simp [diskWriteLoop] at ha
  | succ fuel ih =>
    intro a ha
    unfold diskWriteLoop at ha
    split at ha
    · rename_i h
      rcases List.mem_cons.mp ha with rfl | ha
      · have hmin := Nat.min_le_right (blocksize - off % blocksize) (sz - nwritten)
        exact ⟨within_loadAt (by omega), rfl⟩
      · exact ih _ _ a ha
    · simp at ha

/-- A copy takes as much from what is left of the file as it takes of the offset. -/
theorem left_sub {size off n : ℕ} (hsize : size < 2 ^ 32) (hoff : off < 2 ^ 64)
    (hn : n ≤ (size + 2 ^ 64 - off) % 2 ^ 64) :
    (size + 2 ^ 64 - (off + n) % 2 ^ 64) % 2 ^ 64 = (size + 2 ^ 64 - off) % 2 ^ 64 - n := by
  omega

theorem diskReadLoop_within (addr sz : ℕ) (f : File) (fuel nread off : ℕ) (hoff : off < 2 ^ 64) :
    ∀ a ∈ (diskReadLoop addr sz f fuel nread off).1,
      a.Within addr (max nread (min sz (nread + (f.size + 2 ^ 64 - off) % 2 ^ 64))) := by
  induction fuel generalizing nread off with
  | zero => intro a ha; simp [diskReadLoop] at ha
  | succ fuel ih =>
    intro a ha
    unfold diskReadLoop at ha
    split at ha
    · rename_i h
      simp only at ha
      have hleft := Nat.min_le_left ((f.size + 2 ^ 64 - off) % 2 ^ 64)
        (min (blocksize - off % blocksize) (sz - nread))
      have hsz := Nat.le_trans (Nat.min_le_right ((f.size + 2 ^ 64 - off) % 2 ^ 64)
        (min (blocksize - off % blocksize) (sz - nread))) (Nat.min_le_right _ _)
      revert ha hleft hsz
      generalize min ((f.size + 2 ^ 64 - off) % 2 ^ 64) (min (blocksize - off % blocksize) (sz - nread)) = ncopy
      intro ha hleft hsz
      split at ha
      · rw [List.mem_singleton] at ha
        subst ha
        exact within_storeAt (by omega)
      · rcases List.mem_cons.mp ha with rfl | ha
        · exact within_storeAt (by omega)
        · refine (ih _ _ (Nat.mod_lt _ (by decide)) a ha).mono ?_
          rw [left_sub f.size_lt hoff hleft]
          omega
    · simp at ha

/-! ## `read` and `write` -/

theorem toInt_le (sz : ℕ) : toInt sz ≤ sz := by
  unfold toInt
  split <;> omega

theorem bbufRead_within (addr sz pos_ len_ : ℕ) (write_closed_ : Bool) :
    ∀ a ∈ (bbufRead addr sz pos_ len_ write_closed_).accesses, a.Within addr sz := by
  intro a ha
  unfold bbufRead at ha
  split at ha
  · simp at ha
  · exact pipeReadLoop_within addr sz (BBUF_CAP + 1) pos_ len_ 0 (toInt_le sz) a ha

theorem bbufWrite_within (addr sz pos_ len_ : ℕ) (read_closed_ : Bool) :
    ∀ a ∈ (bbufWrite addr sz pos_ len_ read_closed_).accesses, a.Within addr sz ∧ a.store = false := by
  intro a ha
  unfold bbufWrite at ha
  split at ha
  · simp at ha
  · exact pipeWriteLoop_within addr sz (BBUF_CAP + 1) pos_ len_ 0 (toInt_le sz) a ha

theorem Vnode.read_within (addr sz : ℕ) (vn : Vnode) : ∀ a ∈ (vn.read addr sz).accesses, a.Within addr sz := by
  intro a ha
  cases vn with
  | kbc line => exact kbcReadLoop_within addr sz line 0 a ha
  | memf mode_ offset_ len_ grows =>
    simp only [Vnode.read] at ha
    split_ifs at ha
    · simp at ha
    · simp at ha
    · rw [List.mem_singleton] at ha
      subst ha
      exact within_storeAt (by omega)
  | pipe mode_ pos_ len_ write_closed_ read_closed_ =>
    simp only [Vnode.read] at ha
    split_ifs at ha
    · simp at ha
    · exact bbufRead_within addr sz pos_ len_ write_closed_ a ha
  | df mode_ offset_ file =>
    simp only [Vnode.read] at ha
    split_ifs at ha
    · simp at ha
    · refine (diskReadLoop_within addr sz file _ _ _ offset_.toNat_lt a ha).mono ?_
      omega
  | special mode_ type_ =>
    simp only [Vnode.read] at ha
    split_ifs at ha
    · simp at ha
    · cases type_ with
      | null =>
        simp only [specialRead] at ha
        split_ifs at ha
        · simp at ha
        · rw [List.mem_singleton] at ha
          subst ha
          exact within_storeAt (by omega)
      | random | zero | full =>
        obtain ⟨off, hoff, rfl⟩ := List.mem_map.mp ha
        rw [List.mem_range] at hoff
        exact within_storeAt (by omega)

theorem Vnode.write_within (addr sz : ℕ) (vn : Vnode) :
    ∀ a ∈ (vn.write addr sz).accesses, a.Within addr sz ∧ a.store = false := by
  intro a ha
  cases vn with
  | kbc line =>
    obtain ⟨n, hn, rfl⟩ := List.mem_map.mp ha
    rw [List.mem_range] at hn
    exact ⟨within_loadAt (by omega), rfl⟩
  | memf mode_ offset_ len_ grows =>
    simp only [Vnode.write] at ha
    split_ifs at ha
    · simp at ha
    · simp at ha
    · simp at ha
    · rw [List.mem_singleton] at ha
      subst ha
      exact ⟨within_loadAt (by omega), rfl⟩
  | pipe mode_ pos_ len_ write_closed_ read_closed_ =>
    simp only [Vnode.write] at ha
    split_ifs at ha
    · simp at ha
    · exact bbufWrite_within addr sz pos_ len_ read_closed_ a ha
  | df mode_ offset_ file =>
    simp only [Vnode.write] at ha
    split_ifs at ha
    · simp at ha
    · exact diskWriteLoop_within addr sz file _ _ _ a ha
  | special mode_ type_ =>
    simp only [Vnode.write] at ha
    split_ifs at ha
    · simp at ha
    · simp at ha

theorem ioOk_present {check_writable : Bool} {it : Vmiter} (h : ioOk check_writable it = true) :
    it.present = true := by
  simp only [ioOk, Bool.and_eq_true] at h
  exact h.1.1

theorem ioOk_page {pt : PageTable} {check_writable : Bool} {va va' : ℕ} (h : va / PAGESIZE = va' / PAGESIZE) :
    ioOk check_writable (find pt va') = ioOk check_writable (find pt va) := by
  unfold ioOk
  rw [user_page h, writable_page h, find_page h]
  rfl

/-- A range that `IO_invalid` accepts has no overflow, and each of its bytes passes the test. -/
theorem of_IO_invalid {pt : PageTable} {addr sz : ℕ} {check_writable : Bool} (haddr : addr < 2 ^ 64)
    (hsz : sz < 2 ^ 64) (h : IO_invalid pt addr ((addr + sz) % 2 ^ 64) check_writable = false) :
    ∀ i < sz, ioOk check_writable (find pt ((addr + i) % 2 ^ 64)) = true := by
  intro i hi
  simp only [IO_invalid, ne_eq, decide_eq_false_iff_not, not_or, Nat.not_lt, Decidable.not_not] at h
  obtain ⟨hend, hcheck⟩ := h
  have hlt : addr + sz < 2 ^ 64 := by omega
  rw [Nat.mod_eq_of_lt hlt] at hcheck
  rw [Nat.mod_eq_of_lt (by omega)]
  exact check_true hlt (fun _ => ioOk_present) (fun _ _ => ioOk_page) hcheck (by omega) (by omega)

theorem protected_nil {pt : PageTable} {ret : Option ℤ} : Protected pt ⟨[], ret⟩ :=
  fun a ha => by simp at ha

theorem syscall_read_protected (c : Caller) (w : World) : Protected c.pt (syscall_read c w) := by
  unfold syscall_read
  split
  · exact protected_nil
  · rename_i vn hvn
    simp only
    split
    · exact protected_nil
    · rename_i hio
      rw [Bool.not_eq_true] at hio
      have hok := of_IO_invalid c.regs.reg_rsi.toNat_lt c.regs.reg_rdx.toNat_lt hio
      have hwritable : Writable c.pt c.regs.reg_rsi.toNat c.regs.reg_rdx.toNat := by
        intro i hi
        have hpage := hok i hi
        simp only [ioOk, Bool.and_eq_true, Bool.not_true, Bool.false_or] at hpage
        exact ⟨hpage.1.2, hpage.2⟩
      exact fun a ha => allowed_of_writable hwritable (vn.read_within _ _ a ha)

theorem syscall_write_protected (c : Caller) (w : World) : Protected c.pt (syscall_write c w) := by
  unfold syscall_write
  split
  · exact protected_nil
  · rename_i vn hvn
    simp only
    split
    · exact protected_nil
    · rename_i hio
      rw [Bool.not_eq_true] at hio
      have hok := of_IO_invalid c.regs.reg_rsi.toNat_lt c.regs.reg_rdx.toNat_lt hio
      have hreadable : Readable c.pt c.regs.reg_rsi.toNat c.regs.reg_rdx.toNat := by
        intro i hi
        have hpage := hok i hi
        simp only [ioOk, Bool.and_eq_true] at hpage
        exact hpage.1.2
      intro a ha
      obtain ⟨hin, hload⟩ := vn.write_within _ _ a ha
      exact allowed_of_readable hreadable hin hload

end Chickadee.Vm
