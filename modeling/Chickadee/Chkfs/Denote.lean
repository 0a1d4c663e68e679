import Chickadee.Chkfs.Resolve
import Chickadee.Chkfs.Load
import Chickadee.Chkfs.Cwd
import Chickadee.Lib.Path

/-!
# What a path denotes, and where `cd` goes

`cd` goes up once for each pair of dots at the start of a path, also where they are the start of a name, and looks
for the rest behind the directory it has come to. That is what the path denotes exactly if all the dots were
names and the rest is in normal form.
-/

namespace Chickadee.Chkfs

open Lib Fs

variable {d : Disk} {dir : List Str} {s : Str}

abbrev dot : UInt8 := 46

/-! ## What a path denotes -/

/-- The directory that a path denotes, if `dir` is the working directory. -/
def denotes (dir : List Str) (s : Str) : List Str :=
  Path.follow dot (if s.head? = some dlm then [] else dir) (Path.words dlm dot s)

/-- `name` is the normal form of a directory that exists, and it fits into `cwd::name`. -/
structure IsCwd (d : Disk) (name : Str) (dir : List Str) : Prop where
  spelled : name = Path.spell dlm dir
  plain : ∀ n ∈ dir, Path.Plain dlm dot n
  found : (resolve d dir 1).isSome = true
  fits : name.length ≤ maxnamelen

/-! ## What `cd` looks for -/

/-- The dots at the start of a path: how often they lead up, whether each time as a name, and what is left. -/
structure Leading where
  ups : ℕ
  whole : Bool
  rest : Str

/-- The loop of `cd` over leading dots, as far as it looks at the path, for up to `n` rounds. -/
def leading : ℕ → Str → Leading
  | 0, path => ⟨0, true, path⟩
  | n + 1, path =>
    if path.take 2 = [dot, dlm] then leading n (path.drop 2)
    else if path.take 2 = [dot, dot] then
      let l := leading n (skipFirst (path.drop 2))
      ⟨l.ups + 1, (path.drop 2 = [] ∨ (path.drop 2).head? = some dlm) && l.whole, l.rest⟩
    else ⟨0, true, path⟩

/-- The ancestor of a directory. -/
def ancestor (dir : List Str) (ups : ℕ) : List Str := dir.take (dir.length - ups)

/-- What `cat` and `write` make of a path behind a directory. -/
def below (dir : List Str) (path : Str) : Str := withDlm (Path.spell dlm dir ++ skipFirst path)

/-- The length check of `cat`. -/
def CatFits (dir : List Str) (path : Str) : Prop := path.length + (Path.spell dlm dir).length ≤ maxnamelen - 2

/-- `lookup_directory` finds a directory. -/
def DirFound (d : Disk) (pathname : Str) : Prop := (reach d (components pathname) 1).isSome = true

/-- A name in normal form. -/
def Normal (name : Str) : Prop := ∃ dir, (∀ n ∈ dir, Path.Plain dlm dot n) ∧ name = Path.spell dlm dir

/-- What an absolute path is to be like for `cd` to be right. -/
def GoodAbsolute (d : Disk) (dir : List Str) (s : Str) : Prop :=
  (DirFound d (withDlm s) → Normal (withDlm s) ∧ (withDlm s).length ≤ maxnamelen) ∧
    (¬DirFound d (withDlm s) → ¬(CatFits dir s ∧ DirFound d (below dir s)))

/-- The same for a relative path with the leading dots `l`. -/
structure GoodRelative (d : Disk) (dir : List Str) (l : Leading) : Prop where
  above : dir.length < l.ups → dir = []
  here : l.ups ≤ dir.length → l.rest = [] ∨ l.rest = [dot] → l.whole = true
  found : l.ups ≤ dir.length → ¬(l.rest = [] ∨ l.rest = [dot]) → CatFits (ancestor dir l.ups) l.rest →
    DirFound d (below (ancestor dir l.ups) l.rest) → l.whole = true ∧ Normal (below (ancestor dir l.ups) l.rest)
  missing : l.ups ≤ dir.length → ¬(l.rest = [] ∨ l.rest = [dot]) →
    ¬(CatFits (ancestor dir l.ups) l.rest ∧ DirFound d (below (ancestor dir l.ups) l.rest)) → l.ups = 0

/-- When `cd` is right. -/
def CdGood (d : Disk) (dir : List Str) (s : Str) : Prop :=
  if s.head? = some dlm then GoodAbsolute d dir s else GoodRelative d dir (leading (s.length + 1) s)

/-! ## Leading dots -/

section Dots

theorem dlm_ne_dot : dlm ≠ dot := by decide

theorem eq_append_of_take {t : Str} (h : s.take 2 = t) : s = t ++ s.drop 2 := by
  rw [← h, List.take_append_drop]

/-- The words behind an optional delimiter. -/
theorem words_skipFirst (s : Str) : Path.words dlm dot (skipFirst s) = Path.words dlm dot s := by
  cases s with
  | nil => rfl
  | cons c s =>
    show Path.words dlm dot (if c = dlm then s else c :: s) = _
    split
    · next hc =>
      rw [hc]
      exact (Path.words_cons s).symm
    · rfl

theorem net_skipFirst (s : Str) : Path.net dlm dot (skipFirst s) = Path.net dlm dot s := by
  unfold Path.net
  rw [words_skipFirst]

/-- Two dots in front of a delimiter, or at the end, are a name. -/
theorem words_up {p : Str} (h : p = [] ∨ p.head? = some dlm) :
    Path.words dlm dot ([dot, dot] ++ p) = [dot, dot] :: Path.words dlm dot p := by
  cases p with
  | nil => exact Path.words_dots dlm_ne_dot
  | cons c p =>
    have hc : c = dlm := Option.some.inj (h.resolve_left (List.cons_ne_nil _ _))
    subst hc
    rw [Path.words_append, Path.words_dots dlm_ne_dot, Path.words_cons]
    rfl

theorem net_up {p : Str} (h : p = [] ∨ p.head? = some dlm) :
    Path.net dlm dot ([dot, dot] ++ p) = Path.net dlm dot p - 1 := by
  unfold Path.net
  rw [words_up h, List.length_cons, List.count_cons_self]
  omega

theorem ancestor_dropLast (dir : List Str) (ups : ℕ) : ancestor dir.dropLast ups = ancestor dir (ups + 1) := by
  unfold ancestor
  rw [List.length_dropLast, List.dropLast_eq_take, List.take_take]
  congr 1
  omega

theorem length_skipFirst_le (s : Str) : (skipFirst s).length ≤ s.length := by
  cases s with
  | nil => exact le_rfl
  | cons c s =>
    show (if c = dlm then s else c :: s).length ≤ (c :: s).length
    split
    · exact Nat.le_succ _
    · exact le_rfl

/-- **Dots that are names** lead to where `cd` goes. -/
theorem follow_leading (m : ℕ) (path : Str) (dir : List Str) (hwhole : (leading m path).whole = true)
    (hups : (leading m path).ups ≤ dir.length) :
    Path.follow dot dir (Path.words dlm dot path) =
      Path.follow dot (ancestor dir (leading m path).ups) (Path.words dlm dot (leading m path).rest) := by
  have hnone : ancestor dir 0 = dir := List.take_length
  induction m generalizing path dir with
  | zero => exact congrArg (Path.follow dot · _) hnone.symm
  | succ m ih =>
    unfold leading at hwhole hups ⊢
    split
    · next hdot =>
      rw [if_pos hdot] at hwhole hups
      rw [← ih _ dir hwhole hups hnone]
      conv_lhs => rw [eq_append_of_take hdot]
      rw [show ([dot, dlm] : Str) ++ path.drop 2 = [dot] ++ dlm :: path.drop 2 from rfl, Path.words_append,
        Path.words_dot dlm_ne_dot, List.nil_append]
    · next hdot =>
      rw [if_neg hdot] at hwhole hups
      split
      · next hdots =>
        rw [if_pos hdots] at hwhole hups
        dsimp only at hwhole hups ⊢
        obtain ⟨hname, hwhole⟩ := (Bool.and_eq_true_iff).mp hwhole
        have hlen : dir.dropLast.length = dir.length - 1 := List.length_dropLast
        have hrest := ih _ dir.dropLast hwhole (by omega) List.take_length
        rw [words_skipFirst, ancestor_dropLast] at hrest
        conv_lhs => rw [eq_append_of_take hdots, words_up (of_decide_eq_true hname)]
        rw [Path.follow_cons]
        unfold Path.enter
        rw [if_pos rfl, hrest]
      · exact congrArg (Path.follow dot · _) hnone.symm

/-- **Dots that are not all names** lead less far up than `cd` goes. -/
theorem net_leading (m : ℕ) (path : Str) :
    Path.net dlm dot (leading m path).rest - (leading m path).ups ≤ Path.net dlm dot path ∧
      ((leading m path).whole = false →
        Path.net dlm dot (leading m path).rest - (leading m path).ups < Path.net dlm dot path) := by
  induction m generalizing path with
  | zero => exact ⟨by unfold leading; simp, fun h => by cases h⟩
  | succ m ih =>
    unfold leading
    split
    · next hdot =>
      have hnet : Path.net dlm dot path = Path.net dlm dot (path.drop 2) := by
        conv_lhs => rw [eq_append_of_take hdot]
        rw [show ([dot, dlm] : Str) ++ path.drop 2 = [dot] ++ dlm :: path.drop 2 from rfl, Path.net_append,
          Path.net_dot dlm_ne_dot, zero_add]
      rw [hnet]
      exact ih _
    split
    · next hdots =>
      obtain ⟨hle, hlt⟩ := ih (skipFirst (path.drop 2))
      rw [net_skipFirst] at hle hlt
      dsimp only
      push_cast
      rw [congrArg (Path.net dlm dot) (eq_append_of_take hdots)]
      by_cases hname : path.drop 2 = [] ∨ (path.drop 2).head? = some dlm
      · rw [net_up hname, decide_eq_true hname, Bool.true_and]
        refine ⟨by omega, fun hwhole => ?_⟩
        have := hlt hwhole
        omega
      · obtain ⟨hne, hhead⟩ := not_or.mp hname
        have hmore := Path.net_le_dots dlm_ne_dot hne hhead
        exact ⟨by omega, fun _ => by omega⟩
    · exact ⟨by simp, fun h => by cases h⟩

/-- **Where `cd` goes** is what the path denotes exactly if all the dots were names. -/
theorem append_eq_follow_iff {m : ℕ} (hups : (leading m s).ups ≤ dir.length)
    (hno : [dot, dot] ∉ Path.words dlm dot (leading m s).rest) :
    ancestor dir (leading m s).ups ++ Path.words dlm dot (leading m s).rest =
      Path.follow dot dir (Path.words dlm dot s) ↔ (leading m s).whole = true := by
  constructor
  · intro heq
    by_contra hwhole
    have hlt := (net_leading m s).2 (Bool.eq_false_iff.mpr hwhole)
    have hle : _ ≤ ((Path.follow dot dir (Path.words dlm dot s)).length : ℤ) := Path.le_length_follow_words dir s
    have hlen : (ancestor dir (leading m s).ups).length = dir.length - (leading m s).ups := by
      unfold ancestor
      rw [List.length_take]
      omega
    rw [← heq, List.length_append, hlen] at hle
    rw [Path.net_eq_length hno] at hlt
    omega
  · intro hwhole
    rw [follow_leading m s dir hwhole hups, Path.follow_eq_append hno]

end Dots

/-! ## Normal forms -/

theorem words_withDlm (s : Str) : Path.words dlm dot (withDlm s) = Path.words dlm dot s := by
  unfold withDlm
  split
  · rfl
  · exact Path.words_snoc s

theorem words_below (h : ∀ n ∈ dir, Path.Plain dlm dot n) (s : Str) :
    Path.words dlm dot (below dir s) = dir ++ Path.words dlm dot s := by
  unfold below
  rw [words_withDlm, Path.words_spell_append h, words_skipFirst]

theorem Normal.spelled (h : Normal s) :
    (∀ n ∈ Path.words dlm dot s, Path.Plain dlm dot n) ∧ s = Path.spell dlm (Path.words dlm dot s) := by
  obtain ⟨dir, hplain, rfl⟩ := h
  rw [Path.words_spell hplain]
  exact ⟨hplain, rfl⟩

theorem Normal.no_dots (h : Normal s) : [dot, dot] ∉ Path.words dlm dot s :=
  fun hmem => (h.spelled.1 _ hmem).ne_dots rfl

theorem flatMap_eq_intercalate (h : dir ≠ []) :
    (dir.flatMap fun n => n ++ [dlm]) = [dlm].intercalate dir ++ [dlm] := by
  induction dir with
  | nil => exact absurd rfl h
  | cons n dir ih =>
    cases dir with
    | nil => simp
    | cons m dir =>
      rw [List.flatMap_cons, ih (List.cons_ne_nil _ _), List.intercalate_cons_cons]
      simp

/-- `lookup_directory` takes a normal form apart into its names. -/
theorem components_spell (h : ∀ n ∈ dir, Path.Plain dlm dot n) : components (Path.spell dlm dir) = dir := by
  unfold components Path.spell
  have hskip : ∀ p : Str, skipFirst (dlm :: p) = p := fun p => by
    unfold skipFirst
    exact if_pos rfl
  rw [hskip]
  dsimp only
  by_cases hdir : dir = []
  · subst hdir
    rfl
  have hsplit : ([dlm].intercalate dir).splitOn dlm = dir :=
    List.splitOn_intercalate dlm (fun n hn => (h n hn).notMem) hdir
  have hlast : skipLast ([dlm].intercalate dir ++ [dlm]) = [dlm].intercalate dir := by
    unfold skipLast
    rw [if_pos (by simp), List.dropLast_concat]
  have hne : [dlm].intercalate dir ≠ [] := by
    intro hnil
    rw [hnil, List.splitOn_nil] at hsplit
    exact (h [] (hsplit ▸ List.mem_cons_self)).ne_nil rfl
  rw [flatMap_eq_intercalate hdir, hlast, if_neg hne, hsplit]

theorem dirFound_spell (h : ∀ n ∈ dir, Path.Plain dlm dot n) :
    DirFound d (Path.spell dlm dir) ↔ (resolve d dir 1).isSome = true := by
  unfold DirFound
  rw [components_spell h, resolve_eq, if_neg fun hmem => (h [] hmem).ne_nil rfl]

/-- **A directory that is found** is in normal form as its name is. -/
theorem isCwd_iff (hfound : DirFound d s) :
    IsCwd d s dir ↔ Normal s ∧ s.length ≤ maxnamelen ∧ Path.words dlm dot s = dir := by
  constructor
  · intro h
    refine ⟨⟨dir, h.plain, h.spelled⟩, h.fits, ?_⟩
    rw [h.spelled, Path.words_spell h.plain]
  · rintro ⟨hnormal, hfits, rfl⟩
    obtain ⟨hplain, hspelled⟩ := hnormal.spelled
    refine ⟨hspelled, hplain, ?_, hfits⟩
    rw [← dirFound_spell hplain, ← hspelled]
    exact hfound

theorem resolve_take {i : ℕ} (m : ℕ) (h : (resolve d dir i).isSome = true) :
    (resolve d (dir.take m) i).isSome = true := by
  induction dir generalizing i m with
  | nil => rwa [List.take_nil]
  | cons n dir ih =>
    cases m with
    | zero => rfl
    | succ m =>
      rw [List.take_succ_cons]
      unfold resolve at h ⊢
      split at h
      · cases h
      next hn =>
      rw [if_neg hn]
      split at h
      · cases h
      split at h
      · next hdir =>
        rw [if_pos hdir]
        exact ih m h
      · cases h

theorem length_spell_take (dir : List Str) (m : ℕ) :
    (Path.spell dlm (dir.take m)).length ≤ (Path.spell dlm dir).length := by
  unfold Path.spell
  rw [List.length_cons, List.length_cons]
  conv_rhs => rw [← List.take_append_drop m dir, List.flatMap_append, List.length_append]
  omega

/-- An ancestor of the working directory could be the working directory. -/
theorem IsCwd.ancestor (h : IsCwd d s dir) (ups : ℕ) :
    IsCwd d (Path.spell dlm (ancestor dir ups)) (ancestor dir ups) := by
  refine ⟨rfl, fun n hn => h.plain n (List.take_subset _ _ hn), resolve_take _ h.found, ?_⟩
  have hle := length_spell_take dir (dir.length - ups)
  rw [← h.spelled] at hle
  exact hle.trans h.fits

/-- What `cat` lets pass fits when there is a delimiter at the end. -/
theorem length_below_le (h : CatFits dir s) : (below dir s).length ≤ maxnamelen := by
  have hskip := length_skipFirst_le s
  have hdlm := length_withDlm_le (Path.spell dlm dir ++ skipFirst s)
  unfold CatFits at h
  unfold below
  rw [List.length_append] at hdlm
  unfold maxnamelen at h ⊢
  omega

/-! ## What comes out of `cd` -/

/-- The result of `cd` and the working directory behind it, for a relative path with the leading dots `l`. -/
inductive CdOutcome (d : Disk) (dir : List Str) (l : Leading) : ℤ → Str → Prop
  /-- above the root -/
  | above {r : ℤ} : dir.length < l.ups → r ≠ 0 → CdOutcome d dir l r (Path.spell dlm [])
  /-- nothing is left but the directory itself -/
  | here : l.ups ≤ dir.length → l.rest = [] ∨ l.rest = [dot] →
      CdOutcome d dir l 0 (Path.spell dlm (ancestor dir l.ups))
  | found : l.ups ≤ dir.length → ¬(l.rest = [] ∨ l.rest = [dot]) → CatFits (ancestor dir l.ups) l.rest →
      DirFound d (below (ancestor dir l.ups) l.rest) → CdOutcome d dir l 0 (below (ancestor dir l.ups) l.rest)
  /-- the rest is too long, or it is not there -/
  | missing {r : ℤ} : l.ups ≤ dir.length → ¬(l.rest = [] ∨ l.rest = [dot]) →
      ¬(CatFits (ancestor dir l.ups) l.rest ∧ DirFound d (below (ancestor dir l.ups) l.rest)) → r ≠ 0 →
      CdOutcome d dir l r (Path.spell dlm (ancestor dir l.ups))

/-- The working directory behind a call is right. -/
def EndsRight (d : Disk) (dir : List Str) (s : Str) (r : ℤ) (name : Str) : Prop :=
  (r ≠ 0 → name = Path.spell dlm dir) ∧ (r = 0 → IsCwd d name (denotes dir s))

theorem denotes_relative (hrel : s.head? ≠ some dlm) : denotes dir s = Path.follow dot dir (Path.words dlm dot s) := by
  unfold denotes
  rw [if_neg hrel]

theorem ancestor_eq_self_iff {ups : ℕ} (hups : ups ≤ dir.length) : ancestor dir ups = dir ↔ dir = [] ∨ ups = 0 := by
  unfold ancestor
  rw [List.take_eq_self_iff]
  constructor
  · intro hle
    rcases Nat.eq_zero_or_pos dir.length with hzero | hpos
    · exact .inl (List.eq_nil_of_length_eq_zero hzero)
    · exact .inr (by omega)
  · rintro (rfl | rfl)
    · exact Nat.zero_le _
    · exact le_rfl

/-- The way to a right outcome for a relative path. -/
theorem CdOutcome.right_iff {m : ℕ} {r : ℤ} {name : Str} (h : CdOutcome d dir (leading m s) r name)
    (hcwd : IsCwd d (Path.spell dlm dir) dir) (hrel : s.head? ≠ some dlm) :
    EndsRight d dir s r name ↔ GoodRelative d dir (leading m s) := by
  have hplain : ∀ ups, ∀ n ∈ ancestor dir ups, Path.Plain dlm dot n := fun ups => (hcwd.ancestor ups).plain
  unfold EndsRight
  rw [denotes_relative hrel]
  cases h with
  | above habove hr =>
    constructor
    · intro hright
      refine ⟨fun _ => ?_, fun hle => absurd habove (not_lt.mpr hle), fun hle => absurd habove (not_lt.mpr hle),
        fun hle => absurd habove (not_lt.mpr hle)⟩
      exact (Path.spell_inj (by simp) hcwd.plain (hright.1 hr)).symm
    · intro hgood
      refine ⟨fun _ => ?_, fun hzero => absurd hzero hr⟩
      rw [hgood.above habove]
  | here hups hrest =>
    have hwords : Path.words dlm dot (leading m s).rest = [] := by
      rcases hrest with hrest | hrest
      · rw [hrest, Path.words_nil]
      · rw [hrest, Path.words_dot dlm_ne_dot]
    have hiff : _ = Path.follow dot dir (Path.words dlm dot s) ↔ _ :=
      append_eq_follow_iff hups (hwords ▸ List.not_mem_nil)
    rw [hwords, List.append_nil] at hiff
    constructor
    · intro hright
      refine ⟨fun hlt => absurd hups (not_le.mpr hlt), fun _ _ => hiff.mp ?_, fun _ hne => absurd hrest hne,
        fun _ hne => absurd hrest hne⟩
      have hdenoted := hright.2 rfl
      exact Path.spell_inj (hplain _) hdenoted.plain hdenoted.spelled
    · intro hgood
      refine ⟨fun hne => absurd rfl hne, fun _ => ?_⟩
      rw [← hiff.mpr (hgood.here hups hrest)]
      exact hcwd.ancestor _
  | found hups hrest hfits hfound =>
    have hwords := words_below (hplain (leading m s).ups) (leading m s).rest
    constructor
    · intro hright
      obtain ⟨hnormal, -, heq⟩ := (isCwd_iff hfound).mp (hright.2 rfl)
      have hno := hnormal.no_dots
      rw [hwords] at heq hno
      have hwhole := (append_eq_follow_iff hups fun hmem => hno (List.mem_append_right _ hmem)).mp heq
      exact ⟨fun hlt => absurd hups (not_le.mpr hlt), fun _ hor => absurd hor hrest, fun _ _ _ _ => ⟨hwhole, hnormal⟩,
        fun _ _ hnot => absurd ⟨hfits, hfound⟩ hnot⟩
    · intro hgood
      obtain ⟨hwhole, hnormal⟩ := hgood.found hups hrest hfits hfound
      have hno := hnormal.no_dots
      refine ⟨fun hne => absurd rfl hne, fun _ => (isCwd_iff hfound).mpr ⟨hnormal, length_below_le hfits, ?_⟩⟩
      rw [hwords] at hno ⊢
      exact (append_eq_follow_iff hups fun hmem => hno (List.mem_append_right _ hmem)).mpr hwhole
  | missing hups hrest hmissing hr =>
    have hiff : ancestor dir (leading m s).ups = dir ↔ _ := ancestor_eq_self_iff hups
    constructor
    · intro hright
      refine ⟨fun hlt => absurd hups (not_le.mpr hlt), fun _ hor => absurd hor hrest,
        fun _ _ hfits hfound => absurd ⟨hfits, hfound⟩ hmissing, fun _ _ _ => ?_⟩
      have hself := Path.spell_inj (hplain _) hcwd.plain (hright.1 hr)
      rcases hiff.mp hself with rfl | hzero
      · exact Nat.le_zero.mp hups
      · exact hzero
    · intro hgood
      refine ⟨fun _ => ?_, fun hzero => absurd hzero hr⟩
      rw [hiff.mpr (.inr (hgood.missing hups hrest hmissing))]

/-! ## Absolute paths -/

theorem leading_absolute (habs : s.head? = some dlm) (m : ℕ) : leading m s = ⟨0, true, s⟩ := by
  cases m with
  | zero => rfl
  | succ m =>
    have hhead : ∀ c : UInt8, c ≠ dlm → ∀ t, s.take 2 ≠ c :: t := by
      intro c hc t htake
      have hat := congrArg List.head? htake
      rw [List.head?_take, if_neg (by decide), habs] at hat
      exact hc (Option.some.inj hat).symm
    unfold leading
    rw [if_neg (hhead dot (by decide) _), if_neg (hhead dot (by decide) _)]

theorem below_nil (habs : s.head? = some dlm) : below [] s = withDlm s := by
  cases s with
  | nil => cases habs
  | cons c s =>
    cases habs
    rfl

/-- An absolute path that is found. -/
theorem right_iff_of_found (habs : s.head? = some dlm) (hfound : DirFound d (withDlm s)) :
    EndsRight d dir s 0 (withDlm s) ↔ GoodAbsolute d dir s := by
  have hdenotes : denotes dir s = Path.follow dot [] (Path.words dlm dot s) := by
    unfold denotes
    rw [if_pos habs]
  unfold EndsRight GoodAbsolute
  rw [hdenotes]
  constructor
  · intro hright
    obtain ⟨hnormal, hfits, -⟩ := (isCwd_iff hfound).mp (hright.2 rfl)
    exact ⟨fun _ => ⟨hnormal, hfits⟩, fun hnot => absurd hfound hnot⟩
  · intro hgood
    obtain ⟨hnormal, hfits⟩ := hgood.1 hfound
    refine ⟨fun hne => absurd rfl hne, fun _ => (isCwd_iff hfound).mpr ⟨hnormal, hfits, ?_⟩⟩
    have hno := hnormal.no_dots
    rw [words_withDlm] at hno ⊢
    rw [Path.follow_eq_append hno, List.nil_append]

/-- An absolute path that is tried again. -/
theorem CdOutcome.right_iff_of_not_found {m : ℕ} {r : ℤ} {name : Str} (h : CdOutcome d dir (leading m s) r name)
    (hcwd : IsCwd d (Path.spell dlm dir) dir) (habs : s.head? = some dlm) (hnot : ¬DirFound d (withDlm s)) :
    EndsRight d dir s r name ↔ GoodAbsolute d dir s := by
  have hself : ancestor dir 0 = dir := List.take_length
  have hdenotes : denotes dir s = Path.follow dot [] (Path.words dlm dot s) := by
    unfold denotes
    rw [if_pos habs]
  rw [leading_absolute habs] at h
  unfold EndsRight GoodAbsolute
  rw [hdenotes]
  cases h with
  | above habove => exact absurd habove (Nat.not_lt_zero _)
  | here _ hrest =>
    rcases hrest with rfl | rfl
    · cases habs
    · cases habs
  | found _ _ hfits hfound =>
    dsimp only at hfits hfound ⊢
    rw [hself] at hfits hfound ⊢
    constructor
    · intro hright
      -- the path would be its own words behind the working directory
      obtain ⟨hnormal, -, heq⟩ := (isCwd_iff hfound).mp (hright.2 rfl)
      have hno := hnormal.no_dots
      rw [words_below hcwd.plain] at heq hno
      rw [Path.follow_eq_append fun hmem => hno (List.mem_append_right _ hmem), List.nil_append,
        List.append_left_eq_self] at heq
      rw [heq, below_nil habs] at hfound
      exact absurd hfound hnot
    · intro hgood
      exact absurd ⟨hfits, hfound⟩ (hgood.2 hnot)
  | missing _ _ hmissing hr =>
    dsimp only at hmissing ⊢
    rw [hself] at hmissing ⊢
    exact ⟨fun _ => ⟨fun hfound => absurd hfound hnot, fun _ => hmissing⟩,
      fun _ => ⟨fun _ => rfl, fun hzero => absurd hzero hr⟩⟩

end Chickadee.Chkfs
