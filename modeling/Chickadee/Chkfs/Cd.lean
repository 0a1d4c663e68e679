import Chickadee.Chkfs.Denote
import Chickadee.Chkfs.Name

/-!
# Changing the working directory

`cd` edits the working directory while it goes over the dots at the start of a path, and only then looks for the
rest. An absolute path that is not found is tried again behind the working directory.
-/

namespace Chickadee.Chkfs

open Lib Fs

variable {k k' : Kernel} {d : Disk} {n : ℕ} {dir : List Str} {s : Str}

/-! ## The calls of `cd` -/

/-- On the disk is `d`, every block has a cache entry, and nobody else has a lock but `n` readers of `fstlock`. -/
structure Ready (d : Disk) (n : ℕ) (k : Kernel) : Prop where
  same : d.Same k.disk
  avail : ∀ i, k.disk.avail i = true
  files : ∀ i, Valid d i → Settled k i
  cwd : k.mlock .cwd = .readers 0
  fst : k.mlock .fst = .readers n

/-- A change of something else. -/
theorem Ready.of {m : ℕ} (h : Ready d n k) (hdisk : k'.disk = k.disk)
    (hinode : ∀ i, k'.mlock (.inode i) = k.mlock (.inode i)) (hcwd : k'.mlock .cwd = .readers 0)
    (hfst : k'.mlock .fst = .readers m) : Ready d m k' := by
  refine ⟨hdisk ▸ h.same, hdisk ▸ h.avail, fun i hi => ?_, hcwd, hfst⟩
  unfold Settled
  rw [hdisk, hinode]
  exact h.files i hi

theorem readBy_of_ne {l l' : Lock} (h : l' ≠ l) (m : ℕ) : (k.readBy l m).mlock l' = k.mlock l' := by
  unfold Kernel.readBy
  dsimp only
  rw [Function.update_of_ne h]

theorem Ready.readBy (h : Ready d n k) (m : ℕ) : Ready d m (k.readBy .fst m) := by
  refine h.of rfl (fun i => readBy_of_ne (by simp) m) ?_ (readBy_self k .fst m)
  rw [readBy_of_ne (by simp), h.cwd]

theorem runs_lock_fst (h : Ready d n k) (hn : n < full) :
    Runs k (lock_read .fst) fun _ k' => Ready d (n + 1) k' ∧ k'.name = k.name := by
  refine (runs_lock_read hn h.fst).mono fun _ k' heq => ?_
  subst heq
  exact ⟨h.readBy _, rfl⟩

theorem runs_unlock_fst (h : Ready d (n + 1) k) :
    Runs k (unlock_read .fst) fun _ k' => Ready d n k' ∧ k'.name = k.name := by
  refine (runs_unlock_read h.fst).mono fun _ k' heq => ?_
  subst heq
  exact ⟨h.readBy _, rfl⟩

/-- The working directory is locked by a writer. -/
def Kernel.writing (k : Kernel) : Kernel := { k with mlock := Function.update k.mlock .cwd .writer }

theorem runs_lock_cwd (h : Ready d n k) : Runs k (lock_write .cwd) fun _ k' => k' = k.writing := by
  refine ⟨(), k.writing, ?_, rfl⟩
  unfold lock_write
  rw [h.cwd]
  rfl

theorem runs_unlock_cwd (k : Kernel) (name : Str) :
    Runs { k.writing with name := name } (unlock_write .cwd) fun _ k' =>
      k' = { k.writing with name := name }.readBy .cwd 0 := by
  refine ⟨(), _, ?_, rfl⟩
  unfold unlock_write Kernel.writing
  dsimp only
  rw [Function.update_self]
  rfl

/-- What a writer of the name leaves. -/
theorem Ready.named (h : Ready d n k) (name : Str) : Ready d n ({ k.writing with name := name }.readBy .cwd 0) := by
  have hother : ∀ l, l ≠ .cwd → ({ k.writing with name := name }.readBy .cwd 0).mlock l = k.mlock l := by
    intro l hl
    rw [readBy_of_ne hl]
    exact Function.update_of_ne hl _ _
  refine h.of rfl (fun i => hother _ (by simp)) (readBy_self _ _ _) ?_
  rw [hother _ (by simp), h.fst]

/-- **A lookup** finds what is on the disk, and leaves the working directory alone. -/
theorem runs_lookup (hdirs : DirsOk d) (h : Ready d n k) (pathname : Str) :
    Runs k (lookup_directory pathname true false) fun r k' => Ready d n k' ∧ k'.name = k.name ∧
      r = reach d (components pathname) 1 := by
  have hq : Quiet { k with disk := d } k 0 := by
    refine ⟨h.avail, fun hall i => ?_, rfl, fun e => ?_⟩
    · obtain ⟨m, hm⟩ := h.same.availNew
      rw [hm]
      exact hall _
    · rw [Multiset.count_zero, Nat.add_zero]
  have hfiles : ∀ i, Valid d i → Settled { k with disk := d } i := fun i hi => by
    have hfile := h.files i hi
    unfold Settled at hfile ⊢
    rwa [h.same.inode] at hfile
  have hdirs₀ : DirsOk (Kernel.disk { k with disk := d }) := hdirs
  have hruns : Runs k (lookup_directory pathname true false) _ :=
    runs_lookup_directory hdirs₀ pathname rfl (fun _ => hfiles) (fun hf => absurd hf Bool.false_ne_true) h.same hq
  refine (hruns.and (name_lookup_directory pathname true false k)).mono fun r k' hr => ?_
  obtain ⟨⟨hsame, hq', hreach⟩, hname⟩ := hr
  have hmlock : k'.mlock = k.mlock := hq'.mlock
  refine ⟨⟨hsame, hq'.avail, fun i hi => ?_, by rw [hmlock, h.cwd], by rw [hmlock, h.fst]⟩, hname, hreach⟩
  have hfile := h.files i hi
  unfold Settled at hfile ⊢
  rwa [hmlock, hsame.inode, ← h.same.inode]

/-- **`cwd::write`** sets the working directory if it is there. -/
theorem runs_cwd_write (hdirs : DirsOk d) (h : Ready d n k) (s : Str) :
    Runs k (cwd_write s) fun r k' => Ready d n k' ∧
      ((DirFound d (withDlm s) → r = true ∧ k'.name = withDlm s) ∧
        (¬DirFound d (withDlm s) → r = false ∧ k'.name = k.name)) := by
  refine (runs_lookup hdirs h (withDlm s)).bind fun r k₁ hlookup => ?_
  obtain ⟨hready, hname, rfl⟩ := hlookup
  unfold DirFound
  cases hreach : reach d (components (withDlm s)) 1 with
  | none => exact .pure ⟨hready, ⟨fun hsome => absurd hsome Bool.false_ne_true, fun _ => ⟨rfl, hname⟩⟩⟩
  | some i =>
    refine (runs_lock_cwd hready).bind fun _ k₂ hlock => ?_
    subst hlock
    refine Runs.bind (.modify rfl) fun _ k₃ (hmod : k₃ = { k₁.writing with name := withDlm s }) => ?_
    subst hmod
    refine (runs_unlock_cwd k₁ (withDlm s)).bind fun _ k₄ hunlock => ?_
    subst hunlock
    exact .pure ⟨hready.named _, ⟨fun _ => ⟨rfl, rfl⟩, fun hnone => absurd rfl hnone⟩⟩

/-! Going up. -/

theorem spell_snoc (dir : List Str) (n : Str) :
    Path.spell dlm (dir ++ [n]) = Path.spell dlm dir ++ (n ++ [dlm]) := by
  unfold Path.spell
  simp

theorem getLast?_spell (dir : List Str) : (Path.spell dlm dir).getLast? = some dlm := by
  rcases List.eq_nil_or_concat dir with rfl | ⟨init, n, rfl⟩
  · rfl
  · rw [List.concat_eq_append, spell_snoc]
    simp

/-- `pull_back` finds the delimiter in front of the last name. -/
theorem take_parentLen {n : Str} (hn : dlm ∉ n) (dir : List Str) :
    (Path.spell dlm (dir ++ [n])).take (parentLen (Path.spell dlm (dir ++ [n]))) = Path.spell dlm dir := by
  have hlast := getLast?_spell dir
  rw [spell_snoc]
  generalize Path.spell dlm dir = p at hlast ⊢
  obtain ⟨init, rfl⟩ : ∃ init, p = init ++ [dlm] := by
    rcases List.eq_nil_or_concat p with rfl | ⟨init, c, rfl⟩
    · cases hlast
    · refine ⟨init, ?_⟩
      rw [List.concat_eq_append, List.getLast?_concat] at hlast
      rw [List.concat_eq_append, Option.some.inj hlast]
  have hlen : parentLen (init ++ [dlm] ++ (n ++ [dlm])) = init.length + 1 := by
    have hrange : (init ++ [dlm] ++ (n ++ [dlm])).length - 1 = init.length + 1 + n.length := by
      simp only [List.length_append, List.length_singleton]
      omega
    -- in the name there is no delimiter
    have hbehind : ((List.range n.length).map (init.length + 1 + ·)).filter
        (fun off => off ≠ 0 ∧ (init ++ [dlm] ++ (n ++ [dlm]))[off]? = some dlm) = [] := by
      rw [List.filter_eq_nil_iff]
      intro off hoff hat
      obtain ⟨-, hdlm⟩ := of_decide_eq_true hat
      obtain ⟨j, hj, rfl⟩ := List.mem_map.mp hoff
      rw [List.getElem?_append_right (by simp), List.length_append, List.length_singleton, Nat.add_sub_cancel_left,
        List.getElem?_append_left (List.mem_range.mp hj)] at hdlm
      exact hn (List.mem_of_getElem? hdlm)
    have hat : (init ++ [dlm] ++ (n ++ [dlm]))[init.length]? = some dlm := by simp
    unfold parentLen
    rw [hrange, List.range_add, List.filter_append, hbehind, List.append_nil, List.range_succ, List.filter_append,
      List.filter_singleton, hat]
    congr 1
    by_cases hinit : init.length = 0
    · rw [hinit]
      rfl
    · rw [decide_eq_true ⟨hinit, rfl⟩, cond_true, List.getLast?_concat]
      rfl
  rw [hlen, List.take_append_of_le_length (by simp), List.take_of_length_le (by simp)]

theorem runs_cwd_pull_back (h : Ready d n k) (hname : k.name = Path.spell dlm dir)
    (hplain : ∀ n ∈ dir, Path.Plain dlm dot n) :
    Runs k cwd_pull_back fun r k' => Ready d n k' ∧ ((dir = [] → r = E_INVAL ∧ k'.name = k.name) ∧
      (dir ≠ [] → r = 0 ∧ k'.name = Path.spell dlm dir.dropLast)) := by
  refine (runs_lock_cwd h).bind fun _ k₁ hlock => .get ?_
  subst hlock
  dsimp only
  have hroot_iff : k.writing.name = [dlm] ↔ dir = [] := by
    show k.name = [dlm] ↔ dir = []
    rw [hname]
    exact ⟨fun heq => Path.spell_inj hplain (by simp) heq, fun heq => heq ▸ rfl⟩
  split
  · next hroot =>
    have hnil := hroot_iff.mp hroot
    refine (runs_unlock_cwd k k.name).bind fun _ k₂ hunlock => .pure ?_
    subst hunlock
    exact ⟨h.named _, ⟨fun _ => ⟨rfl, rfl⟩, fun hne => absurd hnil hne⟩⟩
  · next hroot =>
    have hne : dir ≠ [] := fun hnil => hroot (hroot_iff.mpr hnil)
    refine Runs.bind (.modify rfl) fun _ k₂ (hmod : k₂ =
      { k.writing with name := k.name.take (parentLen k.name) }) => ?_
    subst hmod
    refine (runs_unlock_cwd k _).bind fun _ k₃ hunlock => .pure ?_
    subst hunlock
    refine ⟨h.named _, ⟨fun hnil => absurd hnil hne, fun _ => ⟨rfl, ?_⟩⟩⟩
    show k.name.take (parentLen k.name) = _
    rw [hname]
    have hlast := List.dropLast_append_getLast hne
    conv_lhs => rw [← hlast]
    exact take_parentLen (hplain _ (List.getLast_mem hne)).notMem _

/-! ## Running `cd` -/

/-- **The loop over leading dots** goes up as often as it sees two of them, until it is at the root. -/
theorem runs_cdDots {m : ℕ} {path : Str} (hfuel : path.length < m) (h : Ready d n k)
    (hname : k.name = Path.spell dlm dir) (hplain : ∀ n ∈ dir, Path.Plain dlm dot n) :
    Runs k (cdDots m path) fun r k' => Ready d n k' ∧
      ((dir.length < (leading m path).ups → r = .inl E_INVAL ∧ k'.name = Path.spell dlm []) ∧
        ((leading m path).ups ≤ dir.length → k'.name = Path.spell dlm (ancestor dir (leading m path).ups) ∧
          r = if (leading m path).rest = [dot] then .inl 0 else .inr (leading m path).rest)) := by
  induction m generalizing path dir k with
  | zero => exact absurd hfuel (Nat.not_lt_zero _)
  | succ m ih =>
    have hnone : ancestor dir 0 = dir := List.take_length
    have hshort : (path.drop 2).length = path.length - 2 := List.length_drop
    unfold cdDots leading
    split
    · next hdot =>
      have hlong := congrArg List.length hdot
      rw [List.length_take, List.length_cons, List.length_singleton] at hlong
      exact ih (by omega) h hname hplain
    split
    · next hdots =>
      have hlong := congrArg List.length hdots
      rw [List.length_take, List.length_cons, List.length_singleton] at hlong
      refine (runs_cwd_pull_back h hname hplain).bind fun r k₁ hback => ?_
      obtain ⟨h₁, hroot, hup⟩ := hback
      dsimp only
      by_cases hdir : dir = []
      · obtain ⟨rfl, hname₁⟩ := hroot hdir
        subst hdir
        rw [if_pos (by decide)]
        refine .pure ⟨h₁, ⟨fun _ => ⟨rfl, hname₁.trans hname⟩, fun hle => ?_⟩⟩
        exact absurd hle (Nat.not_succ_le_zero _)
      · obtain ⟨rfl, hname₁⟩ := hup hdir
        rw [if_neg (not_not.mpr rfl)]
        have hlen : dir.dropLast.length = dir.length - 1 := List.length_dropLast
        have hpos := List.length_pos_of_ne_nil hdir
        have hskip : (skipFirst (path.drop 2)).length < m := by
          have hle := length_skipFirst_le (path.drop 2)
          omega
        refine (ih hskip h₁ hname₁ fun x hx => hplain x (List.dropLast_subset _ hx)).mono fun r k₂ hrest => ?_
        obtain ⟨h₂, habove, hgo⟩ := hrest
        refine ⟨h₂, fun hlt => habove (by omega), fun hle => ?_⟩
        rw [← ancestor_dropLast]
        exact hgo (by omega)
    · dsimp only
      rw [hnone]
      split
      · next hdot => exact .pure ⟨h, fun hlt => absurd hlt (Nat.not_lt_zero _), fun _ => ⟨hname, rfl⟩⟩
      · exact .pure ⟨h, fun hlt => absurd hlt (Nat.not_lt_zero _), fun _ => ⟨hname, rfl⟩⟩

theorem withDlm_withDlm (s : Str) : withDlm (withDlm s) = withDlm s := by
  have hlast : (withDlm s).getLast? = some dlm := by
    unfold withDlm
    split
    · assumption
    · rw [List.getLast?_concat]
  exact if_pos hlast

/-- **`cd` relative to the working directory** -/
theorem runs_cdRelative (hdirs : DirsOk d) (h : Ready d n k) (hn : n < full) (hname : k.name = Path.spell dlm dir)
    (hplain : ∀ n ∈ dir, Path.Plain dlm dot n) (s : Str) :
    Runs k (cdRelative s) fun r k' => CdOutcome d dir (leading (s.length + 1) s) r k'.name := by
  refine (runs_lock_fst h hn).bind fun _ k₁ hlock => ?_
  obtain ⟨h₁, hname₁⟩ := hlock
  refine (runs_cdDots (Nat.lt_succ_self _) h₁ (hname₁.trans hname) hplain).bind fun r k₂ hdots => ?_
  obtain ⟨h₂, habove, hgo⟩ := hdots
  generalize leading (s.length + 1) s = l at habove hgo ⊢
  rcases Nat.lt_or_ge dir.length l.ups with hlt | hups
  · obtain ⟨rfl, hroot⟩ := habove hlt
    refine (runs_unlock_fst h₂).bind fun _ k₃ hunlock => .pure ?_
    rw [hunlock.2, hroot]
    exact .above hlt (by decide)
  obtain ⟨hname₂, rfl⟩ := hgo hups
  by_cases hdot : l.rest = [dot]
  · rw [if_pos hdot]
    refine (runs_unlock_fst h₂).bind fun _ k₃ hunlock => .pure ?_
    rw [hunlock.2, hname₂]
    exact .here hups (.inr hdot)
  rw [if_neg hdot]
  dsimp only
  by_cases hnil : l.rest = []
  · rw [if_pos hnil]
    refine (runs_unlock_fst h₂).bind fun _ k₃ hunlock => .pure ?_
    rw [hunlock.2, hname₂]
    exact .here hups (.inl hnil)
  rw [if_neg hnil]
  have hrest := not_or.mpr ⟨hnil, hdot⟩
  refine (runs_cwd_cat ⟨0, by decide, h₂.cwd⟩ l.rest true).bind fun buf k₃ hcat => ?_
  obtain ⟨rfl, rfl⟩ := hcat
  rw [hname₂]
  split
  · next hlong =>
    split at hlong
    · next htoo =>
      refine (runs_unlock_fst h₂).bind fun _ k₄ hunlock => .pure ?_
      rw [hunlock.2, hname₂]
      exact .missing hups hrest (fun hfits => absurd hfits.1 (not_le.mpr htoo)) (by decide)
    · cases hlong
  · next buf hbuf =>
    split at hbuf
    · cases hbuf
    next hfits =>
    have hbelow : buf = below (ancestor dir l.ups) l.rest := (Option.some.inj hbuf).symm
    have hagain : withDlm buf = buf := by
      rw [hbelow]
      exact withDlm_withDlm _
    refine (runs_cwd_write hdirs h₂ buf).bind fun wr k₄ hwrite => ?_
    obtain ⟨h₄, hfound, hmissing⟩ := hwrite
    rw [hagain] at hfound hmissing
    refine (runs_unlock_fst h₄).bind fun _ k₅ hunlock => .pure ?_
    rw [hunlock.2]
    by_cases hthere : DirFound d buf
    · obtain ⟨rfl, hname₄⟩ := hfound hthere
      rw [hname₄, hbelow]
      exact .found hups hrest (not_lt.mp hfits) (hbelow ▸ hthere)
    · obtain ⟨rfl, hname₄⟩ := hmissing hthere
      rw [hname₄, hname₂]
      exact .missing hups hrest (fun hboth => hthere (hbelow ▸ hboth.2)) (by decide)

/-- The path is checked. -/
theorem runs_pathArg (hread : CanRead k .cwd) {accessible : Bool}
    (hacc : pathname_invalid (some (s, accessible)) (if s.head? = some dlm then 0 else k.name.length) = 0) :
    Runs k (pathArg (some (s, accessible))) fun r k' => k' = k ∧ r = .inr s := by
  have hlen : Runs k (prefixLen s) fun r k' => k' = k ∧ r = if s.head? = some dlm then 0 else k.name.length := by
    unfold prefixLen
    split
    · exact .pure ⟨rfl, rfl⟩
    · refine (runs_cwd_read hread).bind fun name k' hr => .pure ?_
      obtain ⟨rfl, rfl⟩ := hr
      exact ⟨rfl, rfl⟩
  refine hlen.bind fun r k' hr => ?_
  obtain ⟨rfl, rfl⟩ := hr
  rw [hacc, if_neg (not_not.mpr rfl)]
  exact .pure ⟨rfl, rfl⟩

/-! ## When `cd` is right -/

/-- An error leaves the working directory as it is, and otherwise it is what the path denotes. -/
def CdRight (k : Kernel) (dir : List Str) (path : UserStr) (s : Str) : Prop :=
  Runs k (syscall_cd path) fun r k' =>
    (r ≠ 0 → k'.name = k.name) ∧ (r = 0 → IsCwd k.disk k'.name (denotes dir s))

/--
**When `cd` is right.** An absolute path has to be found in normal form, or not at all, also not behind the working
directory. In a relative path the dots that lead up have to be names where the rest is found, and where it is not
found there may be none.
-/
theorem cd_iff (hdirs : DirsOk k.disk) (hready : Ready k.disk n k) (hn : n < full) (hcwd : IsCwd k.disk k.name dir)
    {accessible : Bool}
    (hacc : pathname_invalid (some (s, accessible)) (if s.head? = some dlm then 0 else k.name.length) = 0) :
    CdRight k dir (some (s, accessible)) s ↔ CdGood k.disk dir s := by
  have hname := hcwd.spelled
  have hcwd' : IsCwd k.disk (Path.spell dlm dir) dir := hname ▸ hcwd
  refine Runs.iff ?_
  rw [hname]
  refine (runs_pathArg ⟨0, by decide, hready.cwd⟩ hacc).bind fun r k₁ harg => ?_
  obtain ⟨rfl, rfl⟩ := harg
  unfold CdGood
  dsimp only
  by_cases habs : s.head? = some dlm
  · rw [if_pos habs, if_pos habs]
    refine (runs_lock_fst hready hn).bind fun _ k₂ hlock => ?_
    refine (runs_cwd_write hdirs hlock.1 s).bind fun wr k₃ hwrite => ?_
    obtain ⟨h₃, hfound, hmissing⟩ := hwrite
    refine (runs_unlock_fst h₃).bind fun _ k₄ hunlock => ?_
    obtain ⟨h₄, hname₄⟩ := hunlock
    by_cases hthere : DirFound k₁.disk (withDlm s)
    · obtain ⟨rfl, hname₃⟩ := hfound hthere
      rw [if_pos rfl]
      refine .pure ?_
      rw [hname₄, hname₃]
      exact right_iff_of_found habs hthere
    · obtain ⟨rfl, hname₃⟩ := hmissing hthere
      rw [if_neg (by decide)]
      have hback : k₄.name = Path.spell dlm dir := by rw [hname₄, hname₃, hlock.2, hname]
      refine (runs_cdRelative hdirs h₄ hn hback hcwd.plain s).mono fun r k' hout => ?_
      exact hout.right_iff_of_not_found hcwd' habs hthere
  · rw [if_neg habs, if_neg habs]
    refine (runs_cdRelative hdirs hready hn hname hcwd.plain s).mono fun r k' hout => ?_
    exact hout.right_iff hcwd' habs

/-! ## Into the directory `a`, and out of it -/

theorem treeDisk_ready (name : Str) : Ready treeDisk 0 (kernelIn name []) := by
  refine ⟨.refl _, fun _ => rfl, fun i _ _ => ⟨rfl, ?_⟩, rfl, rfl⟩
  have hlinked : (treeDisk.inode i).flags = linked := by
    unfold treeDisk
    dsimp only
    split
    all_goals rfl
  show ¬((treeDisk.inode i).flags / 2 = 0 ∧ (treeDisk.inode i).flags % 2 = unlinked)
  rw [hlinked]
  decide

theorem plain_a : ∀ n ∈ ([[97]] : List Str), Path.Plain dlm dot n := by
  intro n hn
  rw [List.mem_singleton.mp hn]
  exact ⟨by decide, by decide, by decide, by decide⟩

theorem isCwd_root : IsCwd treeDisk [47] [] := ⟨rfl, by simp, rfl, by decide⟩

theorem isCwd_a : IsCwd treeDisk [47, 97, 47] [[97]] := by
  refine ⟨rfl, plain_a, ?_, by decide⟩
  unfold resolve child
  rw [treeDisk_entries]
  decide

/-- From the root `a` is reached. -/
theorem cd_iff_a : CdRight (kernelIn [47] []) [] (some ([97], true)) [97] := by
  refine (cd_iff treeDisk_dirsOk (treeDisk_ready [47]) (by decide) isCwd_root (by decide)).mpr ?_
  refine ⟨fun _ => rfl, fun _ _ => rfl, fun _ _ _ _ => ⟨rfl, [[97]], plain_a, rfl⟩, fun _ _ _ => rfl⟩

/--
**In `a`** the path `../x` is not found, but the working directory is the root from then on. The path `..a` is
found, although there is no such name: the dots are taken for the parent, and `a` is looked for there.
-/
theorem cd_fails :
    IsCwd treeDisk [47, 97, 47] [[97]] ∧ pathname_invalid (some ([46, 46, 47, 120], true)) 3 = 0 ∧
      Runs (kernelIn [47, 97, 47] []) (syscall_cd (some ([46, 46, 47, 120], true)))
        (fun r k' => (r, k'.name) = (E_NOENT, [47])) ∧
      ¬CdRight (kernelIn [47, 97, 47] []) [[97]] (some ([46, 46, 47, 120], true)) [46, 46, 47, 120] ∧
      Runs (kernelIn [47, 97, 47] []) (syscall_cd (some ([46, 46, 97], true)))
        (fun r k' => (r, k'.name) = (0, [47, 97, 47])) ∧
      ¬CdRight (kernelIn [47, 97, 47] []) [[97]] (some ([46, 46, 97], true)) [46, 46, 97] := by
  have hmissing : Runs (kernelIn [47, 97, 47] []) (syscall_cd (some ([46, 46, 47, 120], true)))
      (fun r k' => (r, k'.name) = (E_NOENT, [47])) :=
    Runs.of_map (f := fun p : ℤ × Kernel => (p.1, p.2.name)) (by decide +kernel)
  have hfound : Runs (kernelIn [47, 97, 47] []) (syscall_cd (some ([46, 46, 97], true)))
      (fun r k' => (r, k'.name) = (0, [47, 97, 47])) :=
    Runs.of_map (f := fun p : ℤ × Kernel => (p.1, p.2.name)) (by decide +kernel)
  refine ⟨isCwd_a, by decide, hmissing, fun h => ?_, hfound, fun h => ?_⟩
  · obtain ⟨r, k', -, heq, hkept, -⟩ := hmissing.and h.ends
    obtain ⟨rfl, hroot⟩ := Prod.mk.inj heq
    have hname := hkept (by decide)
    rw [hroot] at hname
    exact absurd hname (by decide)
  · obtain ⟨r, k', -, heq, -, hdenoted⟩ := hfound.and h.ends
    obtain ⟨rfl, hname⟩ := Prod.mk.inj heq
    have hspelled := (hdenoted rfl).spelled
    rw [hname] at hspelled
    exact absurd hspelled (by decide)

end Chickadee.Chkfs
