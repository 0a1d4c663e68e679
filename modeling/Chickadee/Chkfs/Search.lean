import Chickadee.Chkfs.Resolve
import Mathlib.Order.Filter.AtTopBot.Basic

/-!
# The directory of an inode

`lookup_directory(start_dirino, ino)` goes through a tree of directories, depth first. It follows each entry
that it comes to, and a free one has no inode: the search is right as long as it meets none.
-/

namespace Chickadee.Chkfs

open Lib Fs

variable {α : Type} {k₀ k k' : Kernel} {d : Disk} {i j inum : ℕ} {own : Multiset Token}

/-! ## The loop over the entries -/

/-- A loop over the entries of a directory. -/
def eachDirent (step : Dirent → M (Option α)) (dirino : ℕ) : M (Option α) :=
  scan dirino (fun () bn n => do
    let found ← eachEntry step bn (List.range n)
    put (.data bn)
    match found with
    | some a => return .inl (some a)
    | none => return .inr ()) (fun _ => return none) ()

theorem search_succ (fuel start_dirino inum : ℕ) :
    search (fuel + 1) start_dirino inum = (do
      let _ ← ino_to_inum inum
      if (← contains_inum start_dirino inum) = true then return some []
      else eachDirent (searchEntry fun found_ino => search fuel found_ino inum) start_dirino) := by
  rw [search]
  unfold eachDirent
  refine bind_congr fun _ => bind_congr fun r => ?_
  split
  · rfl
  congr 1
  funext _ bn n
  refine bind_congr fun found => ?_
  refine bind_congr fun _ => ?_
  cases found <;> rfl

section

variable {E : Fault → Prop} {step : Dirent → M (Option α)} {res : Option α → Multiset Token} {I : List Dirent → Prop}
  {Q : Option α → Prop} {l : List Dirent}

/-- The entries of one block, which come behind `pre`. -/
theorem meets_eachEntry (hres : res none = 0)
    (hstep : ∀ pre e post k own, l = pre ++ e :: post → I pre → d.Same k.disk → Quiet k₀ k own →
      Meets E k (step e) fun r k' => d.Same k'.disk ∧ Quiet k₀ k' (res r + own) ∧
        (r ≠ none → Q r) ∧ (r = none → I (pre ++ [e])))
    {bn : ℕ} (is : List ℕ) {pre post : List Dirent} (hl : l = pre ++ (is.map (direntAt (d.buf bn)) ++ post))
    (hI : I pre) (hsame : d.Same k.disk) (hq : Quiet k₀ k own) :
    Meets E k (eachEntry step bn is) fun r k' => d.Same k'.disk ∧ Quiet k₀ k' (res r + own) ∧
      (r ≠ none → Q r) ∧ (r = none → I (pre ++ is.map (direntAt (d.buf bn)))) := by
  induction is generalizing k pre with
  | nil =>
    refine .pure ⟨hsame, by rwa [hres, zero_add], fun hne => absurd rfl hne, fun _ => ?_⟩
    rwa [List.map_nil, List.append_nil]
  | cons i is ih =>
    unfold eachEntry
    refine .get ?_
    rw [hsame.buf]
    refine (hstep pre _ _ k own hl hI hsame hq).bind fun r k₁ hr => ?_
    obtain ⟨hsame₁, hq₁, hQ, hI₁⟩ := hr
    split
    · exact .pure ⟨hsame₁, hq₁, hQ, fun hnone => by cases hnone⟩
    · rw [hres, zero_add] at hq₁
      have hl₁ : l = (pre ++ [direntAt (d.buf bn) i]) ++ (is.map (direntAt (d.buf bn)) ++ post) := by
        rw [hl, List.append_assoc]
        rfl
      have hih := ih hl₁ (hI₁ rfl) hsame₁ hq₁
      rw [List.append_assoc] at hih
      exact hih

variable (step res I Q)

/-- **A loop over the entries of a directory.** It is at an entry where `I` holds of those before it. -/
theorem meets_eachDirent (hdir : DirOk d i) (hres : res none = 0)
    (hstep : ∀ pre e post k own, entries d i = pre ++ e :: post → I pre → d.Same k.disk → Quiet k₀ k own →
      Meets E k (step e) fun r k' => d.Same k'.disk ∧ Quiet k₀ k' (res r + own) ∧
        (r ≠ none → Q r) ∧ (r = none → I (pre ++ [e])))
    (hend : I (entries d i) → Q none) (hI : I []) (hsame : d.Same k.disk) (hq : Quiet k₀ k own) :
    Meets E k (eachDirent step i) fun r k' => d.Same k'.disk ∧ Quiet k₀ k' (res r + own) ∧ Q r := by
  refine meets_scan res (fun b _ => I ((dirBlocks d i).take b).flatten) Q hdir ?_ ?_ () hI hsame hq
  · intro b bn _ k₁ own₁ hget hI₁ hsame₁ hq₁
    have hblock := getElem?_dirBlocks hget
    obtain ⟨hlt, hblock'⟩ := List.getElem?_eq_some_iff.mp hblock
    have hl : entries d i = ((dirBlocks d i).take b).flatten ++
        ((List.range (nentries (d.inode i).size b)).map (direntAt (d.buf bn)) ++
          ((dirBlocks d i).drop (b + 1)).flatten) := by
      unfold entries
      conv_lhs => rw [← List.take_append_drop b (dirBlocks d i), List.flatten_append,
        List.drop_eq_getElem_cons hlt, hblock', List.flatten_cons]
      rfl
    have htake : ((dirBlocks d i).take (b + 1)).flatten = ((dirBlocks d i).take b).flatten ++
        (List.range (nentries (d.inode i).size b)).map (direntAt (d.buf bn)) := by
      rw [List.take_add_one, hblock, List.flatten_append]
      simp [dirents]
    refine (meets_eachEntry hres hstep _ hl hI₁ hsame₁ hq₁).bind fun r k₂ hr => ?_
    obtain ⟨hsame₂, hq₂, hQ, hI₂⟩ := hr
    rw [add_left_comm] at hq₂
    refine .run_bind ((runs_put _ hq₂).and (ends_put _)) fun _ k₃ hput => ?_
    obtain ⟨hq₃, hdisk⟩ := hput
    rw [← hdisk] at hsame₂
    split
    · exact .pure ⟨hsame₂, hq₃, hQ (Option.some_ne_none _)⟩
    · rw [hres, zero_add] at hq₃
      refine .pure ⟨hsame₂, hq₃, ?_⟩
      rw [htake]
      exact hI₂ rfl
  · intro _ k₁ own₁ hI₁ hsame₁ hq₁
    rw [← length_dirBlocks, List.take_length] at hI₁
    exact .pure ⟨hsame₁, by rwa [hres, zero_add], hend hI₁⟩

end

/-! ## The tree -/

/-- The directory has an entry for the inode. -/
def Contains (d : Disk) (inum i : ℕ) : Prop := ∃ e ∈ entries d i, e.inum = inum

/-- The directory `j` is `i`, or somewhere below it. -/
inductive Below (d : Disk) : ℕ → ℕ → Prop
  | refl (i : ℕ) : Below d i i
  | step {i j : ℕ} (e : Dirent) (he : e ∈ entries d i) (hdir : IsDir d e.inum) (h : Below d e.inum j) : Below d i j

/-- No directory from `i` downwards has an entry for the inode, and none has a free entry. -/
inductive Exhausts (d : Disk) (inum : ℕ) : ℕ → Prop
  | mk {i : ℕ} (hnot : ¬Contains d inum i) (hvalid : ∀ e ∈ entries d i, Valid d e.inum)
    (hdirs : ∀ e ∈ entries d i, IsDir d e.inum → Exhausts d inum e.inum) : Exhausts d inum i

/-- An entry that leads to an inode, but not to one for the inode `inum`. -/
def Passed (d : Disk) (inum : ℕ) (e : Dirent) : Prop :=
  Valid d e.inum ∧ (IsDir d e.inum → Exhausts d inum e.inum)

/-- Depth first from `i`, there is no free entry before the directory `j`, which has an entry for the inode. -/
inductive Finds (d : Disk) (inum : ℕ) : ℕ → ℕ → Prop
  | here {i : ℕ} (h : Contains d inum i) : Finds d inum i i
  | deeper {i j : ℕ} {pre post : List Dirent} {e : Dirent} (hnot : ¬Contains d inum i)
    (heq : entries d i = pre ++ e :: post) (hpre : ∀ x ∈ pre, Passed d inum x) (hdir : IsDir d e.inum)
    (h : Finds d inum e.inum j) : Finds d inum i j

theorem Finds.below_contains (h : Finds d inum i j) : Below d i j ∧ Contains d inum j := by
  induction h with
  | here h => exact ⟨.refl _, h⟩
  | @deeper i j pre post e hnot heq hpre hdir h ih =>
    exact ⟨.step e (heq ▸ List.mem_append_right _ List.mem_cons_self) hdir ih.1, ih.2⟩

theorem Exhausts.not_contains (h : Exhausts d inum i) (hbelow : Below d i j) : ¬Contains d inum j := by
  induction hbelow with
  | refl i =>
    cases h with
    | mk hnot _ _ => exact hnot
  | step e he hdir _ ih =>
    cases h with
    | mk _ _ hdirs => exact ih (hdirs e he hdir)

theorem Exhausts.not_finds (h : Exhausts d inum i) : ¬Finds d inum i j := fun hfinds =>
  h.not_contains hfinds.below_contains.1 hfinds.below_contains.2

/-- A free entry in front: the search goes no further. -/
theorem stuck_of_free {e : Dirent} {post : List Dirent} (heq : entries d i = e :: post) (hfree : ¬Valid d e.inum)
    (hnot : ¬Contains d inum i) : ¬(Exhausts d inum i ∨ ∃ j, Finds d inum i j) := by
  rintro (⟨-, hvalid, -⟩ | ⟨j, hfinds⟩)
  · exact hfree (hvalid e (heq ▸ List.mem_cons_self))
  · cases hfinds with
    | here h => exact hnot h
    | @deeper _ _ pre _ e' _ heq' hpre hdir _ =>
      cases pre with
      | nil =>
        cases heq.symm.trans heq'
        exact hfree hdir.1
      | cons x pre =>
        cases heq.symm.trans heq'
        exact hfree (hpre e List.mem_cons_self).1

/-! ## The search -/

/-- What the search says by its result. -/
def Outcome (d : Disk) (inum i : ℕ) : Option (List ℕ) → Prop
  | some path => Finds d inum i (path.headD i)
  | none => Exhausts d inum i

/-- How a search ends that starts in `k₀`. -/
def SearchEnds (k₀ : Kernel) (inum i : ℕ) (own : Multiset Token) (r : Option (List ℕ)) (k' : Kernel) : Prop :=
  k₀.disk.Same k'.disk ∧ Quiet k₀ k' (pathRefs r + own) ∧ Outcome k₀.disk inum i r

section

variable {E : Fault → Prop} (hdirs : DirsOk k₀.disk) (hfiles : ∀ i ≠ inum, Valid k₀.disk i → Settled k₀ i)

include hfiles

/-- One entry: it is one for another inode. -/
theorem meets_searchEntry {search : ℕ → M (Option (List ℕ))} {e : Dirent} (i : ℕ) (hne : e.inum ≠ inum)
    (hinvalid : ¬Valid k₀.disk e.inum → E .assertion)
    (hsearch : IsDir k₀.disk e.inum → ∀ k own, k₀.disk.Same k.disk → Quiet k₀ k own →
      Meets E k (search e.inum) (SearchEnds k₀ inum e.inum own))
    (hsame : k₀.disk.Same k.disk) (hq : Quiet k₀ k own) :
    Meets E k (searchEntry search e) fun r k' => k₀.disk.Same k'.disk ∧ Quiet k₀ k' (pathRefs r + own) ∧
      (∀ path, r = some path → IsDir k₀.disk e.inum ∧ Finds k₀.disk inum e.inum (path.headD i)) ∧
      (r = none → Passed k₀.disk inum e) := by
  unfold searchEntry
  refine .run_bind (runs_get_inode e.inum hsame hq) fun next k₁ hget => ?_
  obtain ⟨hsame₁, hq₁, rfl⟩ := hget
  by_cases hvalid : Valid k₀.disk e.inum
  swap
  · rw [if_neg hvalid]
    exact .throw (hinvalid hvalid)
  rw [if_pos hvalid] at hq₁ ⊢
  refine .get ?_
  rw [hsame₁.inode]
  split
  · next htype =>
    have hdir : IsDir k₀.disk e.inum := ⟨hvalid, htype⟩
    refine (hsearch hdir k₁ _ hsame₁ hq₁).bind fun r k₂ hr => ?_
    obtain ⟨hsame₂, hq₂, hout⟩ := hr
    cases r with
    | some path =>
      refine .pure ⟨hsame₂, ?_, fun p hp => ?_, fun hnone => by cases hnone⟩
      · rw [pathRefs, refs_append, add_assoc]
        exact hq₂
      · cases hp
        refine ⟨hdir, ?_⟩
        cases path with
        | nil => exact hout
        | cons x path => exact hout
    | none =>
      rw [pathRefs, zero_add] at hq₂
      refine .run_bind (runs_inode_put (hdir.settled hsame₂) hq₂) fun _ k₃ hput => ?_
      obtain ⟨hdisk, hq₃⟩ := hput
      exact .pure ⟨hdisk ▸ hsame₂, by rwa [pathRefs, zero_add], fun p hp => (by cases hp), fun _ =>
        ⟨hvalid, fun _ => hout⟩⟩
  · next htype =>
    refine .run_bind (runs_inode_put ((hfiles _ hne hvalid).quiet hsame₁.inode hq₁) hq₁) fun _ k₂ hput => ?_
    obtain ⟨hdisk, hq₂⟩ := hput
    exact .pure ⟨hdisk ▸ hsame₁, by rwa [pathRefs, zero_add], fun p hp => (by cases hp), fun _ =>
      ⟨hvalid, fun hdir => absurd hdir.2 htype⟩⟩

include hdirs

/-- **One directory**, if the search of each directory in it is as it should be. -/
theorem meets_search_succ {fuel : ℕ} (hi : IsDir k₀.disk i)
    (hbelow : ¬Contains k₀.disk inum i → ∀ pre e post, entries k₀.disk i = pre ++ e :: post →
      (∀ x ∈ pre, Passed k₀.disk inum x) → (¬Valid k₀.disk e.inum → E .assertion) ∧
        (IsDir k₀.disk e.inum → ∀ k own, k₀.disk.Same k.disk → Quiet k₀ k own →
          Meets E k (search fuel e.inum inum) (SearchEnds k₀ inum e.inum own)))
    (hsame : k₀.disk.Same k.disk) (hq : Quiet k₀ k own) :
    Meets E k (search (fuel + 1) i inum) (SearchEnds k₀ inum i own) := by
  have hdir := hdirs.dirs i hi
  rw [search_succ]
  have hinum : Runs k (ino_to_inum inum) fun _ k' => Quiet k₀ k' own ∧ k.disk.superblock = some k'.disk :=
    ((runs_superblock hq).and ends_superblock).bind fun _ _ h => .pure h
  refine .run_bind hinum fun _ k₁ hsuper => ?_
  obtain ⟨hq₁, hsuper⟩ := hsuper
  have hsame₁ := hsame.trans (Disk.same_superblock hsuper)
  refine .run_bind (runs_containsWith hdir (fun e => e.inum = inum) hsame₁ hq₁) fun r k₂ hcontains => ?_
  obtain ⟨hsame₂, hq₂, rfl⟩ := hcontains
  have hany : (entries k₀.disk i).any (fun e => e.inum = inum) = true ↔ Contains k₀.disk inum i := by
    simp [Contains]
  split
  · next hhere => exact .pure ⟨hsame₂, by rwa [pathRefs, refs, Multiset.coe_nil, Multiset.map_zero, zero_add],
      .here (hany.mp hhere)⟩
  next hhere =>
  have hnot : ¬Contains k₀.disk inum i := fun h => hhere (hany.mpr h)
  refine meets_eachDirent (searchEntry fun found_ino => search fuel found_ino inum) pathRefs
    (fun pre => ∀ x ∈ pre, Passed k₀.disk inum x) (Outcome k₀.disk inum i) hdir rfl ?_ ?_ (fun _ hx => absurd hx List.not_mem_nil) hsame₂ hq₂
  · intro pre e post k₃ own₃ heq hpre hsame₃ hq₃
    obtain ⟨hinvalid, hsearch⟩ := hbelow hnot pre e post heq hpre
    have hne : e.inum ≠ inum := fun he => hnot ⟨e, heq ▸ List.mem_append_right _ List.mem_cons_self, he⟩
    refine (meets_searchEntry hfiles i hne hinvalid hsearch hsame₃ hq₃).mono fun r k₄ hr => ?_
    obtain ⟨hsame₄, hq₄, hfinds, hpassed⟩ := hr
    refine ⟨hsame₄, hq₄, fun hsome => ?_, fun hnone x hx => ?_⟩
    · obtain ⟨path, rfl⟩ := Option.ne_none_iff_exists'.mp hsome
      obtain ⟨hdir', hfind⟩ := hfinds path rfl
      exact .deeper hnot heq hpre hdir' hfind
    · rcases List.mem_append.mp hx with hx | hx
      · exact hpre x hx
      · rw [List.mem_singleton.mp hx]
        exact hpassed hnone
  · exact fun hall => .mk hnot (fun e he => (hall e he).1) fun e he => (hall e he).2

/-- **What a search has found that returns.** -/
theorem ends_search (fuel : ℕ) (hi : IsDir k₀.disk i) (hsame : k₀.disk.Same k.disk) (hq : Quiet k₀ k own) :
    Ends k (search fuel i inum) (SearchEnds k₀ inum i own) := by
  induction fuel generalizing i k own with
  | zero => exact .throw
  | succ fuel ih =>
    refine (meets_search_succ (E := fun _ => True) hdirs hfiles hi (fun _ pre e post _ _ => ⟨fun _ => trivial, ?_⟩) hsame hq).ends
    exact fun hdir k own hsame hq => .of_ends (ih hdir hsame hq)

/-- A search that is deep enough returns, whatever has been done before. -/
def SearchRuns (k₀ : Kernel) (inum i : ℕ) : Prop :=
  ∀ᶠ fuel in Filter.atTop, ∀ k own, k₀.disk.Same k.disk → Quiet k₀ k own →
    Runs k (search fuel i inum) (SearchEnds k₀ inum i own)

/-- One directory is searched after those in it. -/
theorem searchRuns_of_below (hi : IsDir k₀.disk i)
    (hbelow : ∀ᶠ fuel in Filter.atTop, ¬Contains k₀.disk inum i → ∀ pre e post,
      entries k₀.disk i = pre ++ e :: post → (∀ x ∈ pre, Passed k₀.disk inum x) → Valid k₀.disk e.inum ∧
        (IsDir k₀.disk e.inum → ∀ k own, k₀.disk.Same k.disk → Quiet k₀ k own →
          Runs k (search fuel e.inum inum) (SearchEnds k₀ inum e.inum own))) :
    SearchRuns k₀ inum i := by
  obtain ⟨n, hn⟩ := Filter.eventually_atTop.mp hbelow
  refine Filter.eventually_atTop.mpr ⟨n + 1, fun fuel hfuel k own hsame hq => ?_⟩
  obtain ⟨fuel, rfl⟩ := Nat.exists_eq_add_of_le' (Nat.le_trans (Nat.le_add_left 1 n) hfuel)
  refine (meets_search_succ (E := fun _ => False) hdirs hfiles hi (fun hnot pre e post heq hpre => ?_) hsame hq).runs
  obtain ⟨hvalid, hsearch⟩ := hn fuel (Nat.le_of_succ_le_succ hfuel) hnot pre e post heq hpre
  exact ⟨fun hinvalid => hinvalid hvalid, fun hdir k own hsame hq => .of_runs (hsearch hdir k own hsame hq)⟩

theorem searchRuns_exhausts (h : Exhausts k₀.disk inum i) (hi : IsDir k₀.disk i) : SearchRuns k₀ inum i := by
  induction h with
  | @mk i hnot hvalid _ ih =>
    have hall : ∀ᶠ fuel in Filter.atTop, ∀ e ∈ {e | e ∈ entries k₀.disk i}, IsDir k₀.disk e.inum → ∀ k own,
        k₀.disk.Same k.disk → Quiet k₀ k own → Runs k (search fuel e.inum inum) (SearchEnds k₀ inum e.inum own) := by
      refine (Filter.eventually_all_finite (List.finite_toSet _)).mpr fun e he => ?_
      by_cases hdir : IsDir k₀.disk e.inum
      · exact (ih e he hdir hdir).mono fun fuel h _ => h
      · exact .of_forall fun fuel h => absurd h hdir
    refine searchRuns_of_below hdirs hfiles hi (hall.mono fun fuel h _ pre e post heq _ => ?_)
    have he : e ∈ entries k₀.disk i := heq ▸ List.mem_append_right _ List.mem_cons_self
    exact ⟨hvalid e he, h e he⟩

theorem searchRuns_finds (h : Finds k₀.disk inum i j) (hi : IsDir k₀.disk i) : SearchRuns k₀ inum i := by
  induction h with
  | here h => exact searchRuns_of_below hdirs hfiles hi (.of_forall fun fuel hnot => absurd h hnot)
  | @deeper i j pre post e hnot heq hpre hdir h ih =>
    have hall : ∀ᶠ fuel in Filter.atTop, ∀ x ∈ {x | x ∈ pre}, IsDir k₀.disk x.inum → ∀ k own,
        k₀.disk.Same k.disk → Quiet k₀ k own → Runs k (search fuel x.inum inum) (SearchEnds k₀ inum x.inum own) := by
      refine (Filter.eventually_all_finite (List.finite_toSet _)).mpr fun x hx => ?_
      by_cases hdir : IsDir k₀.disk x.inum
      · exact (searchRuns_exhausts hdirs hfiles ((hpre x hx).2 hdir) hdir).mono fun fuel h _ => h
      · exact .of_forall fun fuel h => absurd h hdir
    refine searchRuns_of_below hdirs hfiles hi ((hall.and (ih hdir)).mono fun fuel hfuel _ pre' x post' heq' hpre' => ?_)
    -- the search does not come to an entry behind `e`
    rcases List.append_eq_append_iff.mp (heq.symm.trans heq') with ⟨mid, hmid, htail⟩ | ⟨mid, hmid, htail⟩
    · cases mid with
      | nil =>
        cases htail
        exact ⟨hdir.1, fun _ => hfuel.2⟩
      | cons y mid =>
        cases htail
        have hpassed := hpre' e (hmid ▸ List.mem_append_right _ List.mem_cons_self)
        exact absurd h (hpassed.2 hdir).not_finds
    · cases mid with
      | nil =>
        cases htail
        exact ⟨hdir.1, fun _ => hfuel.2⟩
      | cons y mid =>
        cases htail
        have hx : x ∈ pre := hmid ▸ List.mem_append_right _ List.mem_cons_self
        exact ⟨(hpre x hx).1, hfuel.1 x hx⟩

end

/-! ## `lookup_directory(start_dirino, ino)` -/

/-- The search that is deep enough returns a directory with an entry for the inode if there is one below `start`. -/
def Searches (k : Kernel) (start inum : ℕ) : Prop :=
  ∀ᶠ fuel in Filter.atTop, Runs k (search fuel start inum) fun r _ =>
    match r with
    | some path => Below k.disk start (path.headD start) ∧ Contains k.disk inum (path.headD start)
    | none => ∀ j, Below k.disk start j → ¬Contains k.disk inum j

/--
**When the search is right**: it comes to no free entry. Either there is none in the whole tree, and no entry
for the inode, or there is none before the directory that has one.
-/
theorem search_iff {start : ℕ} (hdirs : DirsOk k.disk) (havail : ∀ i, k.disk.avail i = true)
    (hfiles : ∀ i ≠ inum, Valid k.disk i → Settled k i) (hstart : IsDir k.disk start) :
    Searches k start inum ↔ Exhausts k.disk inum start ∨ ∃ j, Finds k.disk inum start j := by
  have hq := Quiet.refl havail
  refine ⟨fun h => ?_, fun h => ?_⟩
  · obtain ⟨fuel, hrun⟩ := h.exists
    obtain ⟨r, _, _, -, -, -, hout⟩ := hrun.and (ends_search hdirs hfiles fuel hstart (.refl _) hq)
    cases r with
    | none => exact .inl hout
    | some path => exact .inr ⟨_, hout⟩
  · have hruns : SearchRuns k inum start := by
      rcases h with h | ⟨j, h⟩
      · exact searchRuns_exhausts hdirs hfiles h hstart
      · exact searchRuns_finds hdirs hfiles h hstart
    refine hruns.mono fun fuel hfuel => (hfuel k 0 (.refl _) hq).mono fun r _ hr => ?_
    obtain ⟨-, -, hout⟩ := hr
    cases r with
    | none => exact fun j hbelow => hout.not_contains hbelow
    | some path => exact hout.below_contains

/-! A root directory with a directory `a` behind a free slot, and in `a` a file `x`. -/

def holeDisk : Disk where
  sb := ⟨4, 10, 0⟩
  fbb _ := 0#64
  inode i := match i with
    | 1 => single type_directory 256 ⟨10, 1⟩
    | 2 => single type_directory 128 ⟨11, 1⟩
    | 3 => single type_regular 0 ⟨0, 0⟩
    | _ => single 0 0 ⟨0, 0⟩
  buf bn := match bn with
    | 10 => setDirent (fun _ => 0) 1 2 [97]
    | 11 => setDirent (fun _ => 0) 0 3 [120]
    | _ => fun _ => 0
  avail _ := true
  availNew _ := true

theorem holeDisk_dirsOk : DirsOk holeDisk := by
  refine ⟨by decide, fun i hi => ?_⟩
  obtain ⟨⟨-, hlt⟩, htype⟩ := hi
  have hlt : i < 4 := hlt
  interval_cases i
  · cases htype
  · exact (dirOk_one (d := holeDisk) rfl (by decide) (by decide) (by decide)).1
  · exact (dirOk_one (d := holeDisk) rfl (by decide) (by decide) (by decide)).1
  · cases htype

theorem holeDisk_entries : entries holeDisk 1 = [⟨0, []⟩, ⟨2, [97]⟩] ∧ entries holeDisk 2 = [⟨3, [120]⟩] := by
  have hroot : flat holeDisk 1 = [10] := (dirOk_one rfl (by decide) (by decide) (by decide)).2
  have hdir : flat holeDisk 2 = [11] := (dirOk_one rfl (by decide) (by decide) (by decide)).2
  unfold entries dirBlocks
  rw [hroot, hdir]
  constructor <;> decide +kernel

theorem holeDisk_below : Below holeDisk 1 2 ∧ Contains holeDisk 3 2 := by
  refine ⟨.step ⟨2, [97]⟩ ?_ (by decide) (.refl 2), ⟨3, [120]⟩, ?_, rfl⟩
  · rw [holeDisk_entries.1]
    decide
  · rw [holeDisk_entries.2]
    decide

/-- The free slot is followed, and its inode is null. -/
theorem search_hole :
    DirsOk holeDisk ∧ Below holeDisk 1 2 ∧ Contains holeDisk 3 2 ∧
      ∀ fuel, search (fuel + 1) 1 3 (kernelOn holeDisk (.readers 0)) = .error .assertion := by
  refine ⟨holeDisk_dirsOk, holeDisk_below.1, holeDisk_below.2, fun fuel => ?_⟩
  rfl

theorem settled_kernelOn {v : Mlock} (h : ∀ i < d.sb.ninodes, i ≠ inum → (d.inode i).type ≠ type_regular) :
    ∀ i ≠ inum, Valid d i → Settled (kernelOn d v) i := fun i hi hvalid htype => absurd htype (h i hvalid.2 hi)

/-- A file in the root directory is found, one behind a free slot is not. -/
theorem search_iff_tree :
    Searches (kernelOn treeDisk (.readers 0)) 1 3 ∧ ¬Searches (kernelOn holeDisk (.readers 0)) 1 3 := by
  have htree : Contains treeDisk 3 1 := ⟨⟨3, [102]⟩, by rw [treeDisk_entries]; decide, rfl⟩
  have hhole : ¬Contains holeDisk 3 1 := by
    unfold Contains
    rw [holeDisk_entries.1]
    decide
  constructor
  · exact (search_iff (k := kernelOn treeDisk (.readers 0)) treeDisk_dirsOk (fun _ => rfl)
      (settled_kernelOn (by decide)) (by decide)).mpr (.inr ⟨1, .here htree⟩)
  · exact fun h => stuck_of_free holeDisk_entries.1 (by decide) hhole
      ((search_iff (k := kernelOn holeDisk (.readers 0)) holeDisk_dirsOk (fun _ => rfl)
        (settled_kernelOn (by decide)) (by decide)).mp h)

end Chickadee.Chkfs
