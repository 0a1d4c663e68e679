import Chickadee.Chkfs.Contents

/-!
# Path names and the directories they name

`resolve` follows the names of a path from a directory: each has to be the name of a directory.
`lookup_directory` looks at the type of what it comes to in one of its two modes only. In the other one it
takes a file for a directory.
-/

namespace Chickadee.Chkfs

open Lib Fs

variable {k₀ k k' : Kernel} {d d' : Disk} {i j : ℕ} {names : List Str} {own : Multiset Token}

/-! ## What is searched -/

/-- `walk` with the inodes whose contents it searches. -/
def walkSearched (is_file : Bool) : List Str → ℕ → M (Option ℕ × List ℕ)
  | [], curdir => return (some curdir, [])
  | s :: names, curdir => do
    match ← findName curdir s with
    | none =>
      inode_put curdir false
      return (none, [curdir])
    | some inum =>
      inode_put curdir false
      match ← get_inode inum with
      | none => return (none, [curdir])
      | some next =>
        if ((← get).disk.inode next).type ≠ type_directory ∧ is_file = false then
          inode_put next false
          return (none, [curdir])
        else
          let r ← walkSearched is_file names next
          return (r.1, curdir :: r.2)

/-- `lookup_directory` with the inodes whose contents it searches. -/
def lookupSearched (pathname : Str) (access_last is_file : Bool) : M (Option ℕ × List ℕ) := do
  match ← get_inode 1 with
  | none => return (none, [])
  | some curdir =>
    let names := components pathname
    if names.length = 1 ∧ access_last = true ∧ is_file = true then
      inode_put curdir false
      return (none, [])
    else walkSearched is_file (if access_last = true ∧ is_file = false then names else names.dropLast) curdir

theorem walkSearched_fst (is_file : Bool) (names : List Str) (curdir : ℕ) :
    Prod.fst <$> walkSearched is_file names curdir = walk is_file names curdir := by
  induction names generalizing curdir with
  | nil => rfl
  | cons s names ih =>
    unfold walkSearched walk
    rw [map_bind]
    refine bind_congr fun r => ?_
    cases r with
    | none => rw [map_bind]; rfl
    | some inum =>
      dsimp only
      rw [map_bind]
      refine bind_congr fun _ => ?_
      rw [map_bind]
      refine bind_congr fun next => ?_
      cases next with
      | none => rfl
      | some next =>
        dsimp only
        rw [map_bind]
        refine bind_congr fun k => ?_
        split
        · rw [map_bind]
          rfl
        · rw [map_bind, ← ih]
          rfl

/-- **The inodes are all that is added.** -/
theorem lookupSearched_fst (pathname : Str) (access_last is_file : Bool) :
    Prod.fst <$> lookupSearched pathname access_last is_file = lookup_directory pathname access_last is_file := by
  unfold lookupSearched lookup_directory
  rw [map_bind]
  refine bind_congr fun root => ?_
  cases root with
  | none => rfl
  | some curdir =>
    dsimp only
    split
    · rw [map_bind]
      rfl
    · exact walkSearched_fst _ _ _

/-! ## What is named -/

/-- A directory of the disk. -/
def IsDir (d : Disk) (i : ℕ) : Prop := Valid d i ∧ (d.inode i).type = type_directory

instance (d : Disk) (i : ℕ) : Decidable (IsDir d i) := inferInstanceAs (Decidable (_ ∧ _))

/-- The directory that the names lead to from the directory `i`. An empty name names nothing. -/
def resolve (d : Disk) : List Str → ℕ → Option ℕ
  | [], i => some i
  | s :: names, i =>
    if s = [] then none
    else match child d i s with
      | none => none
      | some j => if IsDir d j then resolve d names j else none

/-- The same, where an empty name may be that of an entry. -/
def reach (d : Disk) : List Str → ℕ → Option ℕ
  | [], i => some i
  | s :: names, i =>
    match child d i s with
    | none => none
    | some j => if IsDir d j then reach d names j else none

theorem reach_none {s : Str} (h : child d i s = none) : reach d (s :: names) i = none := by
  unfold reach
  rw [h]

theorem reach_some {s : Str} (h : child d i s = some j) :
    reach d (s :: names) i = if IsDir d j then reach d names j else none := by
  rw [reach, h]

/-- No name on the way is that of something else than a directory. -/
def NoFile (d : Disk) : List Str → ℕ → Prop
  | [], _ => True
  | s :: names, i => ∀ j, child d i s = some j → Valid d j → IsDir d j ∧ NoFile d names j

/-- Every name is that of a directory. -/
def Named (d : Disk) : List Str → ℕ → Prop
  | [], _ => True
  | s :: names, i => ∃ j, child d i s = some j ∧ IsDir d j ∧ Named d names j

theorem resolve_eq (d : Disk) (names : List Str) (i : ℕ) :
    resolve d names i = if [] ∈ names then none else reach d names i := by
  induction names generalizing i with
  | nil => rfl
  | cons s names ih =>
    unfold resolve reach
    by_cases hs : s = []
    · rw [if_pos hs, if_pos (List.mem_cons.mpr (.inl hs.symm))]
    have hmem : [] ∈ s :: names ↔ [] ∈ names := by
      rw [List.mem_cons]
      exact ⟨fun h => h.resolve_left fun heq => hs heq.symm, .inr⟩
    rw [if_neg hs]
    simp only [hmem]
    split
    · exact (ite_self _).symm
    · split
      · exact ih _
      · exact (ite_self _).symm

theorem named_iff (d : Disk) (names : List Str) (i : ℕ) : Named d names i ↔ (reach d names i).isSome = true := by
  induction names generalizing i with
  | nil => exact ⟨fun _ => rfl, fun _ => trivial⟩
  | cons s names ih =>
    unfold Named reach
    cases hchild : child d i s with
    | none => simp
    | some j =>
      dsimp only
      split
      · next hdir => simp [hdir, ih]
      · next hdir => simp [hdir]

theorem reach_isDir (hi : IsDir d i) (h : reach d names i = some j) : IsDir d j := by
  induction names generalizing i with
  | nil =>
    cases h
    exact hi
  | cons s names ih =>
    unfold reach at h
    split at h
    · cases h
    · split at h
      · next hdir => exact ih hdir h
      · cases h

/-! ## The walk -/

/-- The directories of a disk are in order, and there is a root. -/
structure DirsOk (d : Disk) : Prop where
  root : IsDir d 1
  dirs : ∀ i, IsDir d i → DirOk d i

theorem IsDir.settled (h : IsDir d i) (hsame : d.Same k.disk) : Settled k i := fun hfile => by
  rw [hsame.inode, h.2] at hfile
  cases hfile

/-- **Without a file on the way** the walk comes to where the names lead. -/
theorem runs_walkSearched {is_file : Bool} (hdirs : DirsOk k₀.disk)
    (hfiles : is_file = false → ∀ i, Valid k₀.disk i → Settled k₀ i)
    (hi : IsDir k₀.disk i) (hno : is_file = true → NoFile k₀.disk names i) (hsame : k₀.disk.Same k.disk)
    (hq : Quiet k₀ k ({.ref (inodeEntry i)} + own)) :
    Runs k (walkSearched is_file names i) fun r k' => k₀.disk.Same k'.disk ∧ Quiet k₀ k' (inodeRef r.1 + own) ∧
      r.1 = reach k₀.disk names i ∧ ∀ x ∈ r.2, (k₀.disk.inode x).type = type_directory := by
  induction names generalizing i k own with
  | nil => exact .pure ⟨hsame, hq, rfl, fun _ hx => absurd hx (List.not_mem_nil)⟩
  | cons s names ih =>
    have hone : ∀ x ∈ [i], (k₀.disk.inode x).type = type_directory := fun x hx => by
      rw [List.mem_singleton.mp hx]
      exact hi.2
    have hnone : ∀ {k own}, Quiet k₀ k own → Quiet k₀ k (inodeRef none + own) := fun hq => by rwa [inodeRef, zero_add]
    unfold walkSearched
    refine (runs_findName (hdirs.dirs i hi) s hsame hq).bind fun r k₁ hfind => ?_
    obtain ⟨hsame₁, hq₁, rfl⟩ := hfind
    have hput := runs_inode_put (hi.settled hsame₁) hq₁
    cases hchild : child k₀.disk i s with
    | none => exact hput.bind fun _ _ hput => .pure ⟨hput.1 ▸ hsame₁, hnone hput.2, (reach_none hchild).symm, hone⟩
    | some j =>
      rw [reach_some hchild]
      refine hput.bind fun _ k₂ hput => ?_
      obtain ⟨hdisk, hq₂⟩ := hput
      rw [← hdisk] at hsame₁
      refine (runs_get_inode j hsame₁ hq₂).bind fun next k₃ hget => ?_
      obtain ⟨hsame₃, hq₃, rfl⟩ := hget
      by_cases hvalid : Valid k₀.disk j
      swap
      · rw [if_neg hvalid] at hq₃ ⊢
        rw [if_neg fun hdir : IsDir k₀.disk j => hvalid hdir.1]
        exact .pure ⟨hsame₃, hq₃, rfl, hone⟩
      rw [if_pos hvalid] at hq₃ ⊢
      refine .get ?_
      rw [hsame₃.inode]
      split
      · -- in this mode a file is turned down
        next hfile =>
        rw [if_neg fun hdir : IsDir k₀.disk j => hfile.1 hdir.2]
        refine (runs_inode_put ((hfiles hfile.2 j hvalid).quiet hsame₃.inode hq₃) hq₃).bind fun _ _ hput => .pure ?_
        exact ⟨hput.1 ▸ hsame₃, hnone hput.2, rfl, hone⟩
      · next hgo =>
        have hdir : IsDir k₀.disk j := by
          refine ⟨hvalid, ?_⟩
          by_contra hne
          cases is_file with
          | true => exact hne (hno rfl j hchild hvalid).1.2
          | false => exact hgo ⟨hne, rfl⟩
        rw [if_pos hdir]
        refine (ih hdir (fun hf => (hno hf j hchild hvalid).2) hsame₃ hq₃).bind fun r k₄ hr => ?_
        obtain ⟨hsame₄, hq₄, hreach, hsearched⟩ := hr
        refine .pure ⟨hsame₄, hq₄, hreach, fun x hx => ?_⟩
        rcases List.mem_cons.mp hx with rfl | hx
        · exact hi.2
        · exact hsearched x hx

/-- What the walk starts from it returns, or searches. -/
theorem ends_walkSearched_start (is_file : Bool) (names : List Str) (i : ℕ) :
    Ends k (walkSearched is_file names i) fun r _ => r.1 = some i ∨ i ∈ r.2 := by
  have hany : ∀ {α : Type} {x : M α} {k : Kernel}, Ends k x fun _ _ => True := fun _ _ _ => trivial
  cases names with
  | nil => exact .pure (.inl rfl)
  | cons s names =>
    have hhead : ∀ l : List ℕ, i ∈ i :: l := fun _ => List.mem_cons_self
    unfold walkSearched
    refine hany.bind fun r k₁ _ => ?_
    split
    · exact hany.bind fun _ _ _ => .pure (.inr (hhead _))
    refine hany.bind fun _ k₂ _ => hany.bind fun next k₃ _ => ?_
    split
    · exact .pure (.inr (hhead _))
    refine .get ?_
    split
    · exact hany.bind fun _ _ _ => .pure (.inr (hhead _))
    · exact hany.bind fun _ _ _ => .pure (.inr (hhead _))

/-- **A file on the way** is returned, or its contents are searched. -/
theorem ends_walkSearched_file (hdirs : DirsOk k₀.disk) (hi : IsDir k₀.disk i)
    (hfile : ¬NoFile k₀.disk names i) (hsame : k₀.disk.Same k.disk) (hq : Quiet k₀ k ({.ref (inodeEntry i)} + own)) :
    Ends k (walkSearched true names i) fun r _ =>
      ∃ x, (r.1 = some x ∨ x ∈ r.2) ∧ (k₀.disk.inode x).type ≠ type_directory := by
  induction names generalizing i k own with
  | nil => exact absurd trivial hfile
  | cons s names ih =>
    unfold NoFile at hfile
    push Not at hfile
    obtain ⟨j, hchild, hvalid, hbad⟩ := hfile
    unfold walkSearched
    refine (runs_findName (hdirs.dirs i hi) s hsame hq).ends.bind fun r k₁ hfind => ?_
    obtain ⟨hsame₁, hq₁, rfl⟩ := hfind
    rw [hchild]
    refine (runs_inode_put (hi.settled hsame₁) hq₁).ends.bind fun _ k₂ hput => ?_
    obtain ⟨hdisk, hq₂⟩ := hput
    rw [← hdisk] at hsame₁
    refine (runs_get_inode j hsame₁ hq₂).ends.bind fun next k₃ hget => ?_
    obtain ⟨hsame₃, hq₃, rfl⟩ := hget
    rw [if_pos hvalid] at hq₃ ⊢
    refine .get ?_
    rw [if_neg fun h => absurd h.2 (by decide)]
    by_cases hdir : IsDir k₀.disk j
    · refine (ih hdir (hbad hdir) hsame₃ hq₃).bind fun r k₄ hr => .pure ?_
      obtain ⟨x, hx, hnot⟩ := hr
      exact ⟨x, hx.imp id (List.mem_cons_of_mem _), hnot⟩
    · refine (ends_walkSearched_start true names j).bind fun r k₄ hr => .pure ?_
      exact ⟨j, hr.imp id (List.mem_cons_of_mem _), fun htype => hdir ⟨hvalid, htype⟩⟩

/-! ## `lookup_directory` -/

/-- The names that are followed: all, or all but the last. -/
def visited (pathname : Str) (access_last : Bool) : List Str :=
  if access_last = true then components pathname else (components pathname).dropLast

/-- The directory that the path names is found, and only directories are searched. -/
def Resolves (k : Kernel) (pathname : Str) (access_last is_file : Bool) : Prop :=
  Runs k (lookupSearched pathname access_last is_file) fun r _ =>
    r.1 = resolve k.disk (visited pathname access_last) 1 ∧
      ∀ i ∈ r.2, (k.disk.inode i).type = type_directory

/-- The walk from the root. -/
theorem lookupSearched_eq (pathname : Str) {access_last is_file : Bool} (hmode : is_file = !access_last)
    (hroot : Valid k₀.disk 1) (hsame : k₀.disk.Same k.disk) (hq : Quiet k₀ k own) :
    ∃ k', k₀.disk.Same k'.disk ∧ Quiet k₀ k' ({.ref (inodeEntry 1)} + own) ∧
      lookupSearched pathname access_last is_file k = walkSearched is_file (visited pathname access_last) 1 k' := by
  obtain ⟨r, k', hget, hsame', hq', rfl⟩ := runs_get_inode 1 hsame hq
  rw [if_pos hroot] at hget hq'
  refine ⟨k', hsame', hq', ?_⟩
  unfold lookupSearched visited
  rw [bind_ok hget]
  subst hmode
  cases access_last with
  | false => simp
  | true => simp

/-- **`lookup_directory` returns** what the names lead to, if there is no file on the way. -/
theorem runs_lookup_directory (hdirs : DirsOk k₀.disk) (pathname : Str) {access_last is_file : Bool}
    (hmode : is_file = !access_last) (hfiles : is_file = false → ∀ i, Valid k₀.disk i → Settled k₀ i)
    (hno : is_file = true → NoFile k₀.disk (visited pathname access_last) 1) (hsame : k₀.disk.Same k.disk)
    (hq : Quiet k₀ k own) :
    Runs k (lookup_directory pathname access_last is_file) fun r k' => k₀.disk.Same k'.disk ∧
      Quiet k₀ k' (inodeRef r + own) ∧ r = reach k₀.disk (visited pathname access_last) 1 := by
  obtain ⟨k₁, hsame₁, hq₁, heq⟩ := lookupSearched_eq pathname hmode hdirs.root.1 hsame hq
  have hruns := (runs_walkSearched hdirs hfiles hdirs.root hno hsame₁ hq₁).mono fun _ _ hr =>
    (⟨hr.1, hr.2.1, hr.2.2.1⟩ : _ ∧ _ ∧ _)
  rw [← lookupSearched_fst]
  unfold Runs at hruns
  rw [← heq] at hruns
  refine (Runs.map hruns Prod.fst).mono fun r k' hr => ?_
  obtain ⟨a, rfl, hr⟩ := hr
  exact hr

/--
**When `lookup_directory` is right**: when it goes on from anything but a directory, no name on the way is that
of a file, and where all names are those of directories none of them is empty.
-/
theorem lookup_directory_iff (hdirs : DirsOk k.disk) (havail : ∀ i, k.disk.avail i = true) (pathname : Str)
    (access_last is_file : Bool) (hmode : is_file = !access_last)
    (hfiles : is_file = false → ∀ i, Valid k.disk i → Settled k i) :
    Prod.fst <$> lookupSearched pathname access_last is_file = lookup_directory pathname access_last is_file ∧
      (Resolves k pathname access_last is_file ↔
        (is_file = true → NoFile k.disk (visited pathname access_last) 1) ∧
          (Named k.disk (visited pathname access_last) 1 → [] ∉ visited pathname access_last)) := by
  refine ⟨lookupSearched_fst _ _ _, ?_⟩
  obtain ⟨k', hsame, hq, heq⟩ := lookupSearched_eq pathname hmode hdirs.root.1 (.refl _) (Quiet.refl havail)
  have hiff : Resolves k pathname access_last is_file ↔
      Runs k' (walkSearched is_file (visited pathname access_last) 1) fun r _ =>
        r.1 = resolve k.disk (visited pathname access_last) 1 ∧
          ∀ i ∈ r.2, (k.disk.inode i).type = type_directory := by
    unfold Resolves Runs
    rw [heq]
  rw [hiff]
  generalize visited pathname access_last = names
  have hresolve := resolve_eq k.disk names 1
  by_cases hno : is_file = true → NoFile k.disk names 1
  · have hwalk := (runs_walkSearched hdirs hfiles hdirs.root hno hsame hq).mono fun _ _ hr => hr.2.2
    have hright : (reach k.disk names 1 = resolve k.disk names 1) ↔ (Named k.disk names 1 → [] ∉ names) := by
      rw [hresolve, named_iff]
      by_cases hempty : [] ∈ names
      · rw [if_pos hempty, ← Option.not_isSome_iff_eq_none]
        exact ⟨fun hnot hsome => absurd hsome hnot, fun h hsome => h hsome hempty⟩
      · rw [if_neg hempty]
        exact ⟨fun _ _ => hempty, fun _ => rfl⟩
    refine ⟨fun hrun => ⟨hno, hright.mp ?_⟩, fun hcond => ?_⟩
    · obtain ⟨_, _, _, ⟨hreach, -⟩, hres, -⟩ := hwalk.and hrun.ends
      exact hreach.symm.trans hres
    · rw [← hright.mpr hcond.2]
      exact hwalk
  · obtain ⟨rfl, hfile⟩ := Classical.not_imp.mp hno
    refine ⟨fun hrun => ?_, fun hcond => absurd hcond.1 hno⟩
    obtain ⟨r, _, _, ⟨hres, hdir⟩, x, hx, hbad⟩ :=
      hrun.and (ends_walkSearched_file hdirs hdirs.root hfile hsame hq)
    rcases hx with hx | hx
    · rw [hres, hresolve] at hx
      split at hx
      · cases hx
      · exact absurd (reach_isDir hdirs.root hx).2 hbad
    · exact absurd (hdir x hx) hbad

/-! A root directory with a directory `a` and a file `f`, which looks like a directory with an entry `x`. -/

def setDirent (b : Block) (i inum : ℕ) (name : Str) : Block := setName (setInum b i inum) i name

def treeDisk : Disk where
  sb := ⟨4, 10, 0⟩
  fbb _ := 0#64
  inode i := match i with
    | 1 => single type_directory 256 ⟨10, 1⟩
    | 2 => single type_directory 0 ⟨0, 0⟩
    | 3 => single type_regular 128 ⟨11, 1⟩
    | _ => single 0 0 ⟨0, 0⟩
  buf bn := match bn with
    | 10 => setDirent (setDirent (fun _ => 0) 0 2 [97]) 1 3 [102]
    | 11 => setDirent (fun _ => 0) 0 2 [120]
    | _ => fun _ => 0
  avail _ := true
  availNew _ := true

theorem treeDisk_isDir (h : IsDir treeDisk i) : i = 1 ∨ i = 2 := by
  obtain ⟨⟨-, hlt⟩, htype⟩ := h
  have hlt : i < 4 := hlt
  interval_cases i
  · cases htype
  · exact .inl rfl
  · exact .inr rfl
  · cases htype

theorem treeDisk_dirsOk : DirsOk treeDisk := by
  refine ⟨by decide, fun i hi => ?_⟩
  rcases treeDisk_isDir hi with rfl | rfl
  · exact (dirOk_one (d := treeDisk) rfl (by decide) (by decide) (by decide)).1
  · exact (dirOk_none rfl (by decide)).1

theorem treeDisk_entries : entries treeDisk 1 = [⟨2, [97]⟩, ⟨3, [102]⟩] := by
  have hflat : flat treeDisk 1 = [10] := (dirOk_one rfl (by decide) (by decide) (by decide)).2
  unfold entries dirBlocks
  rw [hflat]
  decide +kernel

/-- A file in the middle of a path is taken for a directory, and what is written in it for its entries. -/
theorem lookup_directory_file :
    DirsOk treeDisk ∧ resolve treeDisk (visited [47, 102, 47, 121] false) 1 = none ∧
      Runs (kernelOn treeDisk (.readers 0)) (lookup_directory [47, 102, 47, 121] false true)
        (fun r _ => r = some 3) ∧
      Runs (kernelOn treeDisk (.readers 0)) (lookupSearched [47, 102, 47, 120, 47, 121] false true)
        (fun r _ => r = (some 2, [1, 3])) ∧ (treeDisk.inode 3).type = type_regular := by
  have hvisited : visited [47, 102, 47, 121] false = [[102]] := by decide
  refine ⟨treeDisk_dirsOk, ?_, ?_, ?_, rfl⟩
  · rw [hvisited]
    unfold resolve child
    rw [treeDisk_entries]
    decide
  · exact Runs.of_map (f := Prod.fst) (by decide +kernel)
  · exact Runs.of_map (f := Prod.fst) (by decide +kernel)

/-- A directory on the way is fine, a file is not. -/
theorem lookup_directory_iff_tree :
    Resolves (kernelOn treeDisk (.readers 0)) [47, 97, 47, 121] false true ∧
      ¬Resolves (kernelOn treeDisk (.readers 0)) [47, 102, 47, 121] false true := by
  have hiff := fun pathname => (lookup_directory_iff (k := kernelOn treeDisk (.readers 0)) treeDisk_dirsOk
    (fun _ => rfl) pathname false true rfl fun h => by cases h).2
  have hchild : ∀ s : Str, child treeDisk 1 s =
      (([⟨2, [97]⟩, ⟨3, [102]⟩] : List Dirent).find? fun de => de.inum ≠ 0 ∧ de.name = s).map fun de => de.inum :=
    fun s => by rw [child, treeDisk_entries]
  have hdir : visited [47, 97, 47, 121] false = [[97]] := by decide
  have hfile : visited [47, 102, 47, 121] false = [[102]] := by decide
  refine ⟨(hiff _).mpr ⟨fun _ => ?_, fun _ => ?_⟩, fun h => ?_⟩
  · rw [hdir]
    intro j hj _
    rw [show child (kernelOn treeDisk (.readers 0)).disk 1 [97] = some 2 from (hchild _).trans (by decide)] at hj
    cases hj
    exact ⟨show IsDir treeDisk 2 by decide, trivial⟩
  · rw [hdir]
    decide
  · have hno := ((hiff _).mp h).1 rfl
    rw [hfile] at hno
    have hbad := (hno 3 ((hchild _).trans (by decide)) (show Valid treeDisk 3 by decide)).1
    exact absurd hbad (show ¬IsDir treeDisk 3 by decide)

end Chickadee.Chkfs
