import Chickadee.Chkfs.Resolve
import Chickadee.Chkfs.Syscall

/-!
# The working directory

`cwd::cat` and `pathname_invalid` each check the length of a relative path, and not with the same bound. `open`,
`unlink` and `rename` do not look at what `cat` returns.
-/

namespace Chickadee.Chkfs

open Lib Fs

variable {k k' : Kernel} {s : Str} {dir : Bool}

/-! ## The lock -/

/-- A lock is held by `n` readers. -/
def Kernel.readBy (k : Kernel) (l : Lock) (n : ℕ) : Kernel :=
  { k with mlock := Function.update k.mlock l (.readers n) }

@[simp]
theorem readBy_self (k : Kernel) (l : Lock) (n : ℕ) : (k.readBy l n).mlock l = .readers n := by
  unfold Kernel.readBy
  dsimp only
  rw [Function.update_self]

/-- A lock that can be taken for reading. -/
def CanRead (k : Kernel) (l : Lock) : Prop := ∃ n, n < full ∧ k.mlock l = .readers n

theorem runs_lock_read {l : Lock} {n : ℕ} (hn : n < full) (hlock : k.mlock l = .readers n) :
    Runs k (lock_read l) fun _ k' => k' = k.readBy l (n + 1) := by
  refine ⟨(), k.readBy l (n + 1), ?_, rfl⟩
  unfold lock_read
  rw [hlock]
  exact if_neg (not_le.mpr hn)

theorem runs_unlock_read {l : Lock} {n : ℕ} (hlock : k.mlock l = .readers (n + 1)) :
    Runs k (unlock_read l) fun _ k' => k' = k.readBy l n := by
  refine ⟨(), k.readBy l n, ?_, rfl⟩
  unfold unlock_read
  rw [hlock]
  rfl

/-- What a reader has locked and unlocked is as it was. -/
theorem readBy_readBy {l : Lock} {n m : ℕ} (hlock : k.mlock l = .readers n) : (k.readBy l m).readBy l n = k := by
  unfold Kernel.readBy
  dsimp only
  rw [Function.update_idem, ← hlock, Function.update_eq_self]

theorem runs_cwd_read (h : CanRead k .cwd) : Runs k cwd_read fun r k' => r = k.name ∧ k' = k := by
  obtain ⟨n, hn, hlock⟩ := h
  refine (runs_lock_read hn hlock).bind fun _ k₁ hk₁ => .get ?_
  subst hk₁
  refine (runs_unlock_read (readBy_self k .cwd (n + 1))).bind fun _ k₂ hk₂ => .pure ⟨rfl, ?_⟩
  rw [hk₂, readBy_readBy hlock]

theorem runs_cwd_cat (h : CanRead k .cwd) (s : Str) (dir : Bool) : Runs k (cwd_cat s dir) fun r k' =>
    k' = k ∧ r = if maxnamelen - 2 < s.length + k.name.length then none
      else some (if dir = true then withDlm (k.name ++ skipFirst s) else k.name ++ skipFirst s) := by
  refine (runs_cwd_read h).bind fun name k' hread => ?_
  obtain ⟨rfl, rfl⟩ := hread
  split
  · exact .pure ⟨rfl, rfl⟩
  · exact .pure ⟨rfl, rfl⟩

/-! ## Two checks of the length -/

theorem skipFirst_of_relative (h : s.head? ≠ some dlm) : skipFirst s = s := by
  cases s with
  | nil => rfl
  | cons c s =>
    refine if_neg ?_
    rintro rfl
    exact h rfl

/--
What is to come of a relative path: `cat` puts it behind the working directory, in a buffer of `maxnamelen + 1`
bytes, and that is the path that `open`, `unlink` and `rename` go on with.
-/
structure Absolute (k : Kernel) (s : Str) : Prop where
  cat : ∀ dir, Runs k (cwd_cat s dir) fun r k' => k' = k ∧ ∃ buf, r = some buf ∧ buf.length + 1 ≤ maxnamelen + 1 ∧
    buf = if dir = true then withDlm (k.name ++ s) else k.name ++ s
  path : Runs k (absolute s) fun r k' => k' = k ∧ r = k.name ++ s

theorem length_withDlm_le (s : Str) : (withDlm s).length ≤ s.length + 1 := by
  unfold withDlm
  split
  · omega
  · rw [List.length_append, List.length_singleton]

/-- What `cat` refuses is not looked at: the buffer is used as it is. -/
theorem runs_absolute_long (hread : CanRead k .cwd) (hrel : s.head? ≠ some dlm)
    (hlong : maxnamelen - 2 < s.length + k.name.length) :
    ¬Absolute k s ∧ Runs k (absolute s) fun r k' => k' = k ∧ r = k.stack := by
  have hcat : Runs k (cwd_cat s false) fun r k' => k' = k ∧ r = none := by
    refine (runs_cwd_cat hread s false).mono fun r k' hr => ?_
    rwa [if_pos hlong] at hr
  constructor
  · intro h
    obtain ⟨r, k', hr, -, hnull⟩ := hcat
    obtain ⟨-, buf, hbuf, -⟩ := (h.cat false).ends r k' hr
    rw [hnull] at hbuf
    cases hbuf
  · unfold absolute
    rw [if_neg hrel]
    refine hcat.bind fun r k' hr => .get ?_
    obtain ⟨rfl, rfl⟩ := hr
    exact .pure ⟨rfl, rfl⟩

/--
**When `cat` does what `pathname_invalid` has promised**: the path and the working directory have at most
`maxnamelen - 2` characters together.
-/
theorem absolute_iff (hread : CanRead k .cwd) (hrel : s.head? ≠ some dlm) {accessible : Bool}
    (hacc : pathname_invalid (some (s, accessible)) k.name.length = 0) :
    Absolute k s ↔ s.length + k.name.length ≤ maxnamelen - 2 := by
  have hskip := skipFirst_of_relative hrel
  constructor
  · intro h
    by_contra hlong
    exact (runs_absolute_long hread hrel (not_le.mp hlong)).1 h
  · intro hshort
    have hcat : ∀ dir, Runs k (cwd_cat s dir) fun r k' => k' = k ∧
        r = some (if dir = true then withDlm (k.name ++ s) else k.name ++ s) := by
      intro dir
      refine (runs_cwd_cat hread s dir).mono fun r k' hr => ?_
      rw [if_neg (not_lt.mpr hshort), hskip] at hr
      exact hr
    have hlen : (k.name ++ s).length + 1 ≤ maxnamelen - 1 := by
      have hbound : maxnamelen - 2 + 1 = maxnamelen - 1 := rfl
      rw [List.length_append]
      omega
    refine ⟨fun dir => (hcat dir).mono fun r k' hr => ⟨hr.1, _, hr.2, ?_, rfl⟩, ?_⟩
    · have hdlm := length_withDlm_le (k.name ++ s)
      split
      · omega
      · omega
    · unfold absolute
      rw [if_neg hrel]
      refine (hcat false).bind fun r k' hr => .get ?_
      obtain ⟨rfl, rfl⟩ := hr
      exact .pure ⟨rfl, rfl⟩

/-! ## A path that is one character too long -/

/-- The working directory is `name`, and the stack holds `stack`. -/
def kernelIn (name stack : Str) : Kernel := { kernelOn treeDisk (.readers 0) with name := name, stack := stack }

theorem kernelIn_canRead (name stack : Str) : CanRead (kernelIn name stack) .cwd := ⟨0, by decide, rfl⟩

/-- A directory name of 60 characters. -/
def longDir : Str := dlm :: List.replicate 58 100 ++ [dlm]

theorem absolute_iff_short : Absolute (kernelIn [dlm] []) [97] ↔
    ([97] : Str).length + (kernelIn [dlm] []).name.length ≤ maxnamelen - 2 :=
  absolute_iff (kernelIn_canRead _ _) (by decide) (show pathname_invalid (some ([97], true)) _ = 0 by decide)

/-- **With 122 characters** the path is accepted, and the file system calls go on with what the stack holds. -/
theorem absolute_fails : pathname_invalid (some (List.replicate 62 97, true)) longDir.length = 0 ∧
    ∀ stack, ¬Absolute (kernelIn longDir stack) (List.replicate 62 97) ∧
      Runs (kernelIn longDir stack) (absolute (List.replicate 62 97)) fun r _ => r = stack := by
  refine ⟨by decide, fun stack => ?_⟩
  have hlong := runs_absolute_long (kernelIn_canRead longDir stack) (s := List.replicate 62 97) (by decide)
    (show maxnamelen - 2 < (List.replicate 62 (97 : UInt8)).length + longDir.length by decide)
  exact ⟨hlong.1, hlong.2.mono fun r k' hr => hr.2⟩

end Chickadee.Chkfs
