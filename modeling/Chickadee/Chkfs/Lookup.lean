import Chickadee.Chkfs.Dirent

/-!
# Looking up: `lookup_directory`, `lookup_inode`, `contains`, `directory_empty`

A path name is walked from the root directory. The directory of a given inode is searched for through the
whole tree.
-/

namespace Chickadee.Chkfs

open Lib Fs

variable {α : Type}

/-! ## One directory -/

/-- The entries of a directory are looked at block by block until `f` of a block returns something. -/
def scanDirents (dirino : ℕ) (f : List Dirent → Option α) (missing : M α) : M α :=
  scan dirino (fun () bn n => do
    let r := f (dirents ((← get).disk.buf bn) n)
    put (.data bn)
    match r with
    | some a => return .inl a
    | none => return .inr ()) (fun _ => missing) ()

/-- The inum under a name, which is not 0. -/
def findName (dirino : ℕ) (name : Str) : M (Option ℕ) :=
  scanDirents dirino
    (fun ds => (ds.find? fun de => de.inum ≠ 0 ∧ de.name = name).map fun de => some de.inum) (return none)

/-- `contains`: some entry, be it a free one, is as asked for. -/
def containsWith (dirino : ℕ) (p : Dirent → Bool) : M Bool :=
  scanDirents dirino (fun ds => if ds.any p = true then some true else none) (return false)

/-- `contains(dirino, name)` -/
def contains_name (dirino : ℕ) (name : Str) : M Bool := containsWith dirino fun de => de.name = name

/-- `contains(dirino, inum)` -/
def contains_inum (dirino inum : ℕ) : M Bool := containsWith dirino fun de => de.inum = inum

/-- `directory_empty(dirino)` -/
def directory_empty (dirino : ℕ) : M Bool := do
  assert (((← get).disk.inode dirino).type = type_directory)
  let r ← containsWith dirino fun de => de.inum ≠ 0
  return !r

/-- `lookup_inode(dirino, filename)` -/
def lookup_inode_in (dirino : ℕ) (filename : Str) : M (Option ℕ) := do
  match ← findName dirino filename with
  | none => return none
  | some inum => get_inode inum

theorem moves_scanDirents (dirino : ℕ) (f : List Dirent → Option α) {missing : M α}
    {post : α → Multiset Token} (hpost : ∀ a, post a = 0) (hmissing : ledger.Moves 0 missing post) :
    ledger.Moves 0 (scanDirents dirino f missing) post := by
  refine moves_scan_unit (fun bn n => ?_) hmissing dirino
  refine .get fun k => ?_
  refine (moves_put _).bind fun _ => ?_
  split
  · exact .pure (hpost _).symm
  · exact .pure rfl

theorem moves_findName (dirino : ℕ) (name : Str) : ledger.Moves 0 (findName dirino name) fun _ => 0 :=
  moves_scanDirents _ _ (fun _ => rfl) (.pure rfl)

theorem moves_containsWith (dirino : ℕ) (p : Dirent → Bool) :
    ledger.Moves 0 (containsWith dirino p) fun _ => 0 :=
  moves_scanDirents _ _ (fun _ => rfl) (.pure rfl)

theorem moves_directory_empty (dirino : ℕ) : ledger.Moves 0 (directory_empty dirino) fun _ => 0 :=
  .get fun _ => (moves_assert _).skip fun _ => (moves_containsWith _ _).skip fun _ => .pure rfl

theorem moves_lookup_inode_in (dirino : ℕ) (filename : Str) :
    ledger.Moves 0 (lookup_inode_in dirino filename) inodeRef := by
  refine (moves_findName _ _).skip fun inum => ?_
  cases inum with
  | none => exact .pure rfl
  | some inum => exact moves_get_inode inum

/-! ## Path names -/

/-- The loop of `lookup_directory` over the names. -/
def walk (is_file : Bool) : List Str → ℕ → M (Option ℕ)
  | [], curdir => return some curdir
  | s :: names, curdir => do
    match ← findName curdir s with
    | none =>
      inode_put curdir false
      return none
    | some inum =>
      inode_put curdir false
      match ← get_inode inum with
      | none => return none
      | some curdir =>
        if ((← get).disk.inode curdir).type ≠ type_directory ∧ is_file = false then
          inode_put curdir false
          return none
        else walk is_file names curdir

/-- `lookup_directory(pathname, access_last, is_file)` -/
def lookup_directory (pathname : Str) (access_last is_file : Bool) : M (Option ℕ) := do
  match ← get_inode 1 with
  | none => return none
  | some curdir =>
    let names := components pathname
    if names.length = 1 ∧ access_last = true ∧ is_file = true then
      inode_put curdir false
      return none
    else walk is_file (if access_last = true ∧ is_file = false then names else names.dropLast) curdir

/-- `lookup_inode(filename)` -/
def lookup_inode (filename : Str) : M (Option ℕ) := do
  match ← lookup_directory filename false true with
  | none => return none
  | some dirino =>
    let ino ← lookup_inode_in dirino (path_find_last filename).2
    inode_put dirino false
    return ino

theorem moves_walk (is_file : Bool) (names : List Str) (curdir : ℕ) :
    ledger.Moves {.ref (inodeEntry curdir)} (walk is_file names curdir) inodeRef := by
  induction names generalizing curdir with
  | nil => exact .pure rfl
  | cons s names ih =>
    refine (moves_findName _ _).skip fun inum => ?_
    cases inum with
    | none => exact (moves_inode_put _ _).bind fun _ => .pure rfl
    | some inum =>
      refine (moves_inode_put _ _).bind fun _ => (moves_get_inode inum).bind fun next => ?_
      cases next with
      | none => exact .pure rfl
      | some curdir =>
        refine .get fun k => ?_
        split
        · exact (moves_inode_put _ _).bind fun _ => .pure rfl
        · exact ih curdir

/-- **`lookup_directory` keeps the reference to what it returns, and no other.** -/
theorem moves_lookup_directory (pathname : Str) (access_last is_file : Bool) :
    ledger.Moves 0 (lookup_directory pathname access_last is_file) inodeRef := by
  refine (moves_get_inode 1).bind fun root => ?_
  cases root with
  | none => exact .pure rfl
  | some curdir =>
    dsimp only
    split
    · exact (moves_inode_put _ _).bind fun _ => .pure rfl
    · exact moves_walk _ _ _

theorem moves_lookup_inode (filename : Str) : ledger.Moves 0 (lookup_inode filename) inodeRef := by
  refine (moves_lookup_directory _ _ _).bind fun dirino => ?_
  cases dirino with
  | none => exact .pure rfl
  | some dirino =>
    refine (moves_lookup_inode_in _ _).call (zero_add _).symm fun ino => ?_
    exact (moves_inode_put _ _).call (add_comm _ _) fun _ => .pure (zero_add _)

/-! ## The directory of an inode -/

variable {σ : Type}

/-- A loop over directory entries of a block, given by their indices. -/
def eachEntry (step : Dirent → M (Option α)) (bn : ℕ) : List ℕ → M (Option α)
  | [] => return none
  | i :: is => do
    match ← step (direntAt ((← get).disk.buf bn) i) with
    | some a => return some a
    | none => eachEntry step bn is

/--
What the search does at a directory entry: it goes on in the directory `found_ino`, and keeps its reference
if that finds something. An entry that has no inode, such as a free one, is followed as a null pointer.
-/
def searchEntry (search : ℕ → M (Option (List ℕ))) (de : Dirent) : M (Option (List ℕ)) := do
  match ← get_inode de.inum with
  | none => throw .assertion
  | some found_ino =>
    if ((← get).disk.inode found_ino).type = type_directory then
      match ← search found_ino with
      | some path => return some (path ++ [found_ino])
      | none =>
        inode_put found_ino false
        return none
    else
      inode_put found_ino false
      return none

/--
`lookup_directory(start_dirino, ino)` for the inode `inum`: the directories from the one that holds it up to
`start_dirino`, which is left out. It keeps a reference to each of them, and returns the first.
-/
def search : ℕ → ℕ → ℕ → M (Option (List ℕ))
  | 0, _, _ => throw .fuel
  | fuel + 1, start_dirino, inum => do
    let _ ← ino_to_inum inum
    if (← contains_inum start_dirino inum) = true then return some []
    else
      scan start_dirino (fun () bn n => do
        let found ← eachEntry (searchEntry fun found_ino => search fuel found_ino inum) bn (List.range n)
        put (.data bn)
        match found with
        | some path => return .inl (some path)
        | none => return .inr ()) (fun _ => return none) ()

/-- The references that come with the result of `search`. -/
def pathRefs : Option (List ℕ) → Multiset Token
  | some path => refs path
  | none => 0

theorem moves_eachEntry {step : Dirent → M (Option α)} {res : Option α → Multiset Token}
    (hnone : res none = 0) (hstep : ∀ de, ledger.Moves 0 (step de) res) (bn : ℕ) (is : List ℕ) :
    ledger.Moves 0 (eachEntry step bn is) res := by
  induction is with
  | nil => exact .pure hnone.symm
  | cons i is ih =>
    refine .get fun k => (hstep _).bind fun r => ?_
    cases r with
    | some a => exact .pure rfl
    | none =>
      rw [hnone]
      exact ih

theorem moves_searchEntry {search : ℕ → M (Option (List ℕ))}
    (hsearch : ∀ found_ino, ledger.Moves 0 (search found_ino) pathRefs) (de : Dirent) :
    ledger.Moves 0 (searchEntry search de) pathRefs := by
  refine (moves_get_inode _).bind fun ino => ?_
  cases ino with
  | none => exact .throw id
  | some found_ino =>
    refine .get fun k => ?_
    split
    · refine (hsearch found_ino).call (zero_add _).symm fun path => ?_
      cases path with
      | none => exact (moves_inode_put _ _).call (add_comm _ _) fun _ => .pure rfl
      | some path =>
        exact .pure (refs_append path [found_ino]).symm
    · exact (moves_inode_put _ _).bind fun _ => .pure rfl

/-- **The search keeps a reference to every directory on the way.** -/
theorem moves_search (fuel start_dirino inum : ℕ) :
    ledger.Moves 0 (search fuel start_dirino inum) pathRefs := by
  induction fuel generalizing start_dirino with
  | zero => exact .throw id
  | succ fuel ih =>
    refine (moves_ino_to_inum _).skip fun _ => (moves_containsWith _ _).skip fun r => ?_
    split
    · exact .pure rfl
    refine moves_scan_unit (fun bn n => ?_) ?_ start_dirino
    swap
    · exact .pure rfl
    refine (moves_eachEntry rfl (moves_searchEntry ih) bn _).call (zero_add _).symm fun found => ?_
    refine (moves_put _).call (R := pathRefs found) (add_comm _ _) fun _ => ?_
    cases found with
    | none => exact .pure rfl
    | some path => exact .pure (zero_add _)

end Chickadee.Chkfs
