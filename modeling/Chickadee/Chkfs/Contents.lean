import Chickadee.Chkfs.Flat
import Chickadee.Chkfs.Lookup

/-!
# What is in a directory

The entries of a directory are those of its blocks, up to its size. The loops of `chkfsstate` over a directory
that change nothing find what is in this list.
-/

namespace Chickadee.Chkfs

open Lib Fs

variable {α σ : Type} {k₀ k k' : Kernel} {d d' : Disk} {it : Fileiter} {ino off : ℕ} {own R : Multiset Token}

/-! ## The entries -/

/-- The number of entries in the block `i` of a directory. -/
def nentries (size i : ℕ) : ℕ := (min (size - blocksize * i) blocksize + direntsize - 1) / direntsize

/-- The entries of a directory, block by block. -/
def dirBlocks (d : Disk) (ino : ℕ) : List (List Dirent) :=
  (flat d ino).mapIdx fun i bn => dirents (d.buf bn) (nentries (d.inode ino).size i)

/-- The entries of a directory. -/
def entries (d : Disk) (ino : ℕ) : List Dirent := (dirBlocks d ino).flatten

/-- A directory in order: it has no holes, and no block behind its size. -/
structure DirOk (d : Disk) (ino : ℕ) : Prop where
  list : ListOk d ino
  full : 0 ∉ flat d ino
  range : (d.inode ino).size < 2 ^ 32
  size : ∀ i < (flat d ino).length, blocksize * i ≤ (d.inode ino).size

theorem ndirents_eq {size i : ℕ} (hrange : size < 2 ^ 32) (hsize : blocksize * i ≤ size) :
    ndirents size (blocksize * i) = nentries size i := by
  have hsub : u64 ((size : ℤ) - (blocksize * i : ℕ)) = size - blocksize * i := by
    unfold u64
    omega
  unfold ndirents nentries
  rw [hsub]

/-- A directory without blocks. -/
theorem dirOk_none {size : ℕ} (hinode : d.inode ino = single type_directory size ⟨0, 0⟩) (hsize : size < 2 ^ 32) :
    DirOk d ino ∧ flat d ino = [] := by
  obtain ⟨hok, hflat⟩ := wellFormed_single hinode (by decide) (fun _ => rfl)
  have hnil : flat d ino = [] := hflat
  refine ⟨⟨hok.toListOk, by simp [hnil], by rw [hinode]; exact hsize, fun i hi => ?_⟩, hnil⟩
  rw [hnil] at hi
  exact absurd hi (Nat.not_lt_zero i)

/-- A directory of one block. -/
theorem dirOk_one {size bn : ℕ} (hinode : d.inode ino = single type_directory size ⟨bn, 1⟩) (hbn : bn ≠ 0)
    (hrange : bn < bitsperblock) (hsize : size < 2 ^ 32) : DirOk d ino ∧ flat d ino = [bn] := by
  obtain ⟨hok, hflat⟩ := wellFormed_single hinode (by unfold bitsperblock at hrange; dsimp only; omega)
    (fun h => absurd h Nat.one_ne_zero)
  have hone : flat d ino = [bn] := hflat.trans (if_neg hbn)
  refine ⟨⟨hok.toListOk, by simp [hone, hbn.symm], by rw [hinode]; exact hsize, fun i hi => ?_⟩, hone⟩
  rw [hone] at hi
  rw [Nat.lt_one_iff.mp hi, Nat.mul_zero]
  exact Nat.zero_le _

theorem DirOk.of (h : DirOk d ino) (hinode : d'.inode ino = d.inode ino) (hext : extentOf d' ino = extentOf d ino) :
    DirOk d' ino := by
  have hflat := flat_congr hext
  obtain ⟨hlist, hfull, hrange, hsize⟩ := h
  exact ⟨hlist.of hext (by rw [hinode]; exact hlist.one), by rwa [hflat], by rwa [hinode], by rwa [hflat, hinode]⟩

theorem DirOk.same (h : DirOk d ino) (hsame : d.Same d') : DirOk d' ino :=
  h.of (congrFun hsame.inode ino) (extentOf_congr (congrFun hsame.inode ino) hsame.buf)

theorem entries_same (hsame : d.Same d') : entries d' ino = entries d ino := by
  unfold entries dirBlocks
  rw [flat_same hsame, hsame.buf, congrFun hsame.inode ino]

theorem getElem?_dirBlocks {i bn : ℕ} (h : (flat d ino)[i]? = some bn) :
    (dirBlocks d ino)[i]? = some (dirents (d.buf bn) (nentries (d.inode ino).size i)) := by
  unfold dirBlocks
  rw [List.getElem?_mapIdx, h]
  rfl

theorem length_dirBlocks (d : Disk) (ino : ℕ) : (dirBlocks d ino).length = (flat d ino).length :=
  List.length_mapIdx

/-! ## The loop over the blocks -/

section

variable {E : Fault → Prop} {body : σ → ℕ → ℕ → M (α ⊕ σ)} {missing : σ → M α} (res : α → Multiset Token) (I : ℕ → σ → Prop)
  (Q : α → Prop)

/--
**A loop over the blocks of a directory.** The body starts at block `i` where `I i` holds of the state of the
loop, and it has a reference to the entry of the block.
-/
theorem meets_scanLoop (hdir : DirOk d ino)
    (hbody : ∀ i bn s k own, (flat d ino)[i]? = some bn → I i s → d.Same k.disk →
      Quiet k₀ k ({.ref (.data bn)} + own) →
      Meets E k (body s bn (nentries (d.inode ino).size i)) fun r k' => d.Same k'.disk ∧
        Sum.elim (fun a => Quiet k₀ k' (res a + own) ∧ Q a) (fun s' => Quiet k₀ k' own ∧ I (i + 1) s') r)
    (hmissing : ∀ s k own, I (flat d ino).length s → d.Same k.disk → Quiet k₀ k own →
      Meets E k (missing s) fun a k' => d.Same k'.disk ∧ Quiet k₀ k' (res a + own) ∧ Q a)
    (n i : ℕ) (s : σ) (h : it.Placed k.disk) (hino : it.ino_ = ino) (hi : i ≤ (flat d ino).length) (hs : I i s)
    (hsame : d.Same k.disk) (hq : Quiet k₀ k (it.own + R)) (hn : (flat d ino).length < n + i) :
    Meets E k (scanLoop body missing n it (blocksize * i) s) fun a k' =>
      d.Same k'.disk ∧ Quiet k₀ k' (res a + R) ∧ Q a := by
  induction n generalizing k it i s with
  | zero => omega
  | succ n ih =>
    unfold scanLoop
    refine .run_bind (Fileiter.runs_find (blocksize * i) h hq) fun it₁ k₁ hfind => ?_
    obtain ⟨hq₁, hsame₁, hfound, hstop⟩ := hfind
    replace hfound := hfound.congr hsame.inode.symm hsame.buf.symm
    have hactive : it₁.active k.disk = it₁.active d := by
      rw [hfound.active_eq, (hfound.congr hsame.inode hsame.buf).active_eq, flat_same hsame]
    rw [hino] at hfound
    rw [hactive] at hstop
    have hsame₁ := hsame.trans hsame₁
    have hentry := Fileiter.runs_entry hfound hdir.list hstop hsame₁ hq₁
    rw [Nat.mul_div_cancel_left _ (by decide)] at hentry
    refine .run_bind hentry fun e k₂ he => ?_
    obtain ⟨hsame₂, hq₂, rfl⟩ := he
    rcases Nat.lt_or_eq_of_le hi with hlt | rfl
    · -- a block of the directory
      have hget : (flat d ino)[i]? = some (flat d ino)[i] := List.getElem?_eq_getElem hlt
      have hgetD : (flat d ino).getD i 0 = (flat d ino)[i] := by
        rw [List.getD_eq_getElem?_getD, hget]
        rfl
      have hne : (flat d ino)[i] ≠ 0 := fun hzero => hdir.full (hzero ▸ List.getElem_mem hlt)
      rw [hgetD, if_neg hne] at hq₂ ⊢
      refine .get ?_
      dsimp only
      rw [hfound.ino_, congrFun hsame₂.inode ino, ndirents_eq hdir.range (hdir.size i hlt)]
      refine (hbody i _ s k₂ _ hget hs hsame₂ hq₂).bind fun r k₃ hr => ?_
      obtain ⟨hsame₃, hr⟩ := hr
      cases r with
      | inl a =>
        obtain ⟨hq₃, hQ⟩ := hr
        refine .run_bind ((Fileiter.runs_destroy (R := res a + R) (by rwa [add_left_comm])).and
          Fileiter.ends_destroy) fun _ k₄ hdestroy => .pure ⟨hdestroy.2 ▸ hsame₃, hdestroy.1, hQ⟩
      | inr s' =>
        obtain ⟨hq₃, hs'⟩ := hr
        have hplaced := hfound.toPlaced.congr hsame₃.inode hsame₃.buf
        exact ih (i + 1) s' hplaced hfound.ino_ hlt hs' hsame₃ hq₃ (by omega)
    · -- behind the last block
      have hzero : (flat d ino).getD (flat d ino).length 0 = 0 := by
        rw [List.getD_eq_getElem?_getD, List.getElem?_eq_none le_rfl]
        rfl
      rw [if_pos hzero] at hq₂ ⊢
      rw [Fileiter.entry, zero_add] at hq₂
      refine (hmissing s k₂ _ hs hsame₂ hq₂).bind fun a k₃ hmiss => ?_
      obtain ⟨hsame₃, hq₃, hQ⟩ := hmiss
      refine .run_bind ((Fileiter.runs_destroy (R := res a + R) (by rwa [add_left_comm])).and
        Fileiter.ends_destroy) fun _ k₄ hdestroy => .pure ⟨hdestroy.2 ▸ hsame₃, hdestroy.1, hQ⟩

/-- **The loop over the blocks of a directory in order.** -/
theorem meets_scan (hdir : DirOk d ino)
    (hbody : ∀ i bn s k own, (flat d ino)[i]? = some bn → I i s → d.Same k.disk →
      Quiet k₀ k ({.ref (.data bn)} + own) →
      Meets E k (body s bn (nentries (d.inode ino).size i)) fun r k' => d.Same k'.disk ∧
        Sum.elim (fun a => Quiet k₀ k' (res a + own) ∧ Q a) (fun s' => Quiet k₀ k' own ∧ I (i + 1) s') r)
    (hmissing : ∀ s k own, I (flat d ino).length s → d.Same k.disk → Quiet k₀ k own →
      Meets E k (missing s) fun a k' => d.Same k'.disk ∧ Quiet k₀ k' (res a + own) ∧ Q a)
    (s : σ) (hs : I 0 s) (hsame : d.Same k.disk) (hq : Quiet k₀ k own) :
    Meets E k (scan ino body missing s) fun a k' => d.Same k'.disk ∧ Quiet k₀ k' (res a + own) ∧ Q a := by
  refine .get ?_
  have hblocks := length_flat_le k.disk ino
  rw [flat_same hsame] at hblocks
  refine meets_scanLoop res I Q hdir hbody hmissing _ 0 s (Fileiter.placed_fileiter _ _) rfl (Nat.zero_le _) hs hsame ?_
    (Nat.lt_succ_of_le hblocks)
  rwa [Fileiter.own_fileiter, zero_add]

end

/-! ## Looking for an entry -/

theorem findSome?_take_succ {β γ : Type} {f : β → Option γ} {l : List β} {i : ℕ} {b : β} (hget : l[i]? = some b)
    (htake : (l.take i).findSome? f = none) : (l.take (i + 1)).findSome? f = f b := by
  rw [List.take_add_one, hget, List.findSome?_append, htake, Option.none_or]
  exact List.findSome?_singleton

/-- **The entries are looked at block by block.** -/
theorem runs_scanDirents (hdir : DirOk d ino) (f : List Dirent → Option α) (b : α) (hsame : d.Same k.disk)
    (hq : Quiet k₀ k own) :
    Runs k (scanDirents ino f (return b)) fun a k' =>
      d.Same k'.disk ∧ Quiet k₀ k' own ∧ a = ((dirBlocks d ino).findSome? f).getD b := by
  unfold scanDirents
  refine Meets.runs ((meets_scan (fun _ => 0) (fun i _ => ((dirBlocks d ino).take i).findSome? f = none)
    (fun a => a = ((dirBlocks d ino).findSome? f).getD b) hdir ?_ ?_ () rfl hsame hq).mono fun a k' h => ?_)
  · intro i bn _ k₁ own₁ hget hnone hsame₁ hq₁
    have hblock := getElem?_dirBlocks hget
    have hnext := findSome?_take_succ hblock hnone
    refine .get ?_
    dsimp only
    rw [hsame₁.buf]
    refine .run_bind ((runs_put _ hq₁).and (ends_put _)) fun _ k₂ hput => ?_
    obtain ⟨hq₂, hdisk⟩ := hput
    rw [← hdisk] at hsame₁
    split
    · next a ha =>
      refine .pure ⟨hsame₁, by rwa [zero_add], ?_⟩
      rw [ha] at hnext
      rw [← List.take_append_drop (i + 1) (dirBlocks d ino), List.findSome?_append, hnext]
      rfl
    · next hf => exact .pure ⟨hsame₁, hq₂, hnext.trans hf⟩
  · intro _ k₁ own₁ hnone hsame₁ hq₁
    rw [← length_dirBlocks, List.take_length] at hnone
    exact .pure ⟨hsame₁, by rwa [zero_add], by rw [hnone]; rfl⟩
  · rwa [zero_add] at h

/-- The inum under a name in a directory. -/
def child (d : Disk) (ino : ℕ) (name : Str) : Option ℕ :=
  ((entries d ino).find? fun de => de.inum ≠ 0 ∧ de.name = name).map fun de => de.inum

theorem runs_findName (hdir : DirOk d ino) (name : Str) (hsame : d.Same k.disk) (hq : Quiet k₀ k own) :
    Runs k (findName ino name) fun r k' => d.Same k'.disk ∧ Quiet k₀ k' own ∧ r = child d ino name := by
  refine (runs_scanDirents hdir _ none hsame hq).mono fun r k' h => ⟨h.1, h.2.1, h.2.2.trans ?_⟩
  unfold child entries
  rw [List.find?_flatten]
  induction dirBlocks d ino with
  | nil => rfl
  | cons ds l ih =>
    rw [List.findSome?_cons, List.findSome?_cons]
    cases ds.find? fun de => de.inum ≠ 0 ∧ de.name = name with
    | none => exact ih
    | some de => rfl

theorem runs_containsWith (hdir : DirOk d ino) (p : Dirent → Bool) (hsame : d.Same k.disk) (hq : Quiet k₀ k own) :
    Runs k (containsWith ino p) fun r k' => d.Same k'.disk ∧ Quiet k₀ k' own ∧ r = (entries d ino).any p := by
  refine (runs_scanDirents hdir _ false hsame hq).mono fun r k' h => ⟨h.1, h.2.1, h.2.2.trans ?_⟩
  unfold entries
  rw [List.any_flatten]
  induction dirBlocks d ino with
  | nil => rfl
  | cons ds l ih =>
    rw [List.findSome?_cons, List.any_cons]
    cases ds.any p with
    | true => rfl
    | false => exact ih

/-! ## Inodes -/

/-- The number of an inode of the disk. -/
def Valid (d : Disk) (i : ℕ) : Prop := 0 < i ∧ i < d.sb.ninodes

instance (d : Disk) (i : ℕ) : Decidable (Valid d i) := inferInstanceAs (Decidable (_ ∧ _))

theorem runs_get_inode (i : ℕ) (hsame : d.Same k.disk) (hq : Quiet k₀ k own) :
    Runs k (get_inode i) fun r k' => d.Same k'.disk ∧ Quiet k₀ k' (inodeRef r + own) ∧
      r = if Valid d i then some i else none := by
  refine ((runs_superblock hq).and ends_superblock).bind fun _ k₁ hsuper => .get ?_
  obtain ⟨hq₁, hsuper⟩ := hsuper
  have hsame₁ := hsame.trans (Disk.same_superblock hsuper)
  have hvalid : (0 < i ∧ i < k₁.disk.sb.ninodes) = Valid d i := by
    rw [hsame₁.sb]
    rfl
  split
  · next hi =>
    refine ((runs_get_disk_entry _ hq₁).and (ends_get_disk_entry _)).bind fun ok k₂ hget => ?_
    obtain ⟨⟨rfl, hq₂⟩, hsame₂⟩ := hget
    exact .pure ⟨hsame₁.trans hsame₂, hq₂, (if_pos (hvalid ▸ hi)).symm⟩
  · next hi => exact .pure ⟨hsame₁, by rwa [inodeRef, zero_add], (if_neg (hvalid ▸ hi)).symm⟩

/-- A file that `inode::put` leaves alone: it is not locked, and it is not to be freed. -/
def Settled (k : Kernel) (i : ℕ) : Prop :=
  (k.disk.inode i).type = type_regular → k.mlock (.inode i) = .readers 0 ∧
    ¬((k.disk.inode i).flags / 2 = 0 ∧ (k.disk.inode i).flags % 2 = unlinked)

theorem Settled.quiet {i : ℕ} (h : Settled k₀ i) (hinode : k.disk.inode = k₀.disk.inode) (hq : Quiet k₀ k own) :
    Settled k i := by
  unfold Settled
  rw [hinode, hq.mlock]
  exact h

theorem release_settled {free : ℕ → M ℤ} {i : ℕ} (h : Settled k i) : release free i false k = .ok ((), k) := by
  unfold release
  rw [bind_ok (show (get : M Kernel) k = .ok (k, k) from rfl)]
  by_cases htype : (k.disk.inode i).type = type_regular
  swap
  · rw [if_neg htype]
    rfl
  obtain ⟨hlock, hflags⟩ := h htype
  have hwrite : lock_write (.inode i) k =
      .ok ((), { k with mlock := Function.update k.mlock (.inode i) .writer }) := by
    unfold lock_write
    rw [hlock]
    rfl
  have hunlock : unlock_write (.inode i) { k with mlock := Function.update k.mlock (.inode i) .writer } =
      .ok ((), k) := by
    unfold unlock_write
    dsimp only
    rw [Function.update_self, Function.update_idem, ← hlock, Function.update_eq_self]
  rw [if_pos htype, bind_ok hwrite]
  unfold dropCount
  rw [if_neg Bool.false_ne_true, bind_ok (show (pure () : M Unit) _ = .ok ((), _) from rfl),
    bind_ok (show (get : M Kernel) _ = .ok (_, _) from rfl)]
  dsimp only
  rw [if_neg hflags]
  exact hunlock

theorem runs_inode_put {i : ℕ} (hfile : Settled k i) (hq : Quiet k₀ k ({.ref (inodeEntry i)} + own)) :
    Runs k (inode_put i false) fun _ k' => k'.disk = k.disk ∧ Quiet k₀ k' own := by
  obtain ⟨_, k', hput, hq'⟩ := runs_put _ hq
  exact ⟨(), k', (bind_ok (release_settled hfile)).trans hput, ends_put _ _ _ hput, hq'⟩

end Chickadee.Chkfs
