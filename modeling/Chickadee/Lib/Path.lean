import Mathlib.Data.List.Basic
import Mathlib.Data.Int.Basic

/-!
# Path names with dots

A path is a list of symbols, and a delimiter stands between the names in it. One dot is the directory itself,
two are its parent. A directory is the list of the plain names that lead to it from the root.
-/

namespace Chickadee.Lib.Path

variable {α : Type} [DecidableEq α] {dlm dot : α}

variable (dlm dot) in
/-- The names in a path, without the empty ones and those that are one dot. -/
def words (p : List α) : List (List α) := (p.splitOn dlm).filter fun n => n ≠ [] ∧ n ≠ [dot]

variable (dot) in
/-- A name is followed. The parent of the root is the root. -/
def enter (dir : List (List α)) (n : List α) : List (List α) := if n = [dot, dot] then dir.dropLast else dir ++ [n]

variable (dot) in
/-- The names are followed one by one. -/
def follow (dir names : List (List α)) : List (List α) := names.foldl (enter dot) dir

variable (dlm dot) in
/-- A name that is not special. -/
structure Plain (n : List α) : Prop where
  ne_nil : n ≠ []
  notMem : dlm ∉ n
  ne_dot : n ≠ [dot]
  ne_dots : n ≠ [dot, dot]

variable (dlm) in
/-- The normal form of a directory. -/
def spell (dir : List (List α)) : List α := dlm :: dir.flatMap fun n => n ++ [dlm]

/-! ## The names in a path -/

@[simp]
theorem words_nil : words dlm dot [] = [] := by
  unfold words
  rw [List.splitOn_nil]
  rfl

theorem words_append (p q : List α) : words dlm dot (p ++ dlm :: q) = words dlm dot p ++ words dlm dot q := by
  unfold words
  rw [List.splitOn_append_cons_self, List.filter_append]

@[simp]
theorem words_cons (q : List α) : words dlm dot (dlm :: q) = words dlm dot q := by
  have happend : words dlm dot ([] ++ dlm :: q) = _ := words_append [] q
  rwa [words_nil, List.nil_append, List.nil_append] at happend

@[simp]
theorem words_snoc (p : List α) : words dlm dot (p ++ [dlm]) = words dlm dot p := by
  rw [words_append, words_nil, List.append_nil]

/-- A path that is one name. -/
theorem words_name {n : List α} (h : dlm ∉ n) : words dlm dot n = if n ≠ [] ∧ n ≠ [dot] then [n] else [] := by
  unfold words
  rw [List.splitOn_eq_singleton h]
  by_cases hn : n ≠ [] ∧ n ≠ [dot]
  · rw [if_pos hn, List.filter_singleton, decide_eq_true hn, cond_true]
  · rw [if_neg hn, List.filter_singleton, decide_eq_false hn, cond_false]

theorem words_dot (h : dlm ≠ dot) : words dlm dot [dot] = [] := by
  rw [words_name (by simpa using h), if_neg fun hn => hn.2 rfl]

theorem words_dots (h : dlm ≠ dot) : words dlm dot [dot, dot] = [[dot, dot]] := by
  rw [words_name (by simpa using h), if_pos (by simp)]

theorem notMem_of_mem_splitOn {p n : List α} (h : n ∈ p.splitOn dlm) : dlm ∉ n := by
  induction p generalizing n with
  | nil =>
    rw [List.splitOn_nil, List.mem_singleton] at h
    rw [h]
    exact List.not_mem_nil
  | cons x p ih =>
    rw [List.splitOn_cons_eq_if_modifyHead] at h
    split at h
    · rcases List.mem_cons.mp h with rfl | h
      · exact List.not_mem_nil
      · exact ih h
    · next hx =>
      cases hsplit : p.splitOn dlm with
      | nil => exact absurd hsplit (List.splitOn_ne_nil dlm p)
      | cons m ns =>
        rw [hsplit] at h ih
        rcases List.mem_cons.mp h with rfl | h
        · intro hmem
          rcases List.mem_cons.mp hmem with rfl | hmem
          · exact hx (beq_self_eq_true _)
          · exact ih List.mem_cons_self hmem
        · exact ih (List.mem_cons_of_mem _ h)

/-- A name in a path is plain, or it leads up. -/
theorem plain_of_mem_words {p n : List α} (h : n ∈ words dlm dot p) (hup : n ≠ [dot, dot]) : Plain dlm dot n := by
  obtain ⟨hmem, hn⟩ := List.mem_filter.mp h
  obtain ⟨hne, hdot⟩ := of_decide_eq_true hn
  exact ⟨hne, notMem_of_mem_splitOn hmem, hdot, hup⟩

/-! ## The normal form -/

/-- **A path behind a directory** has the names of both. -/
theorem words_spell_append {dir : List (List α)} (h : ∀ n ∈ dir, Plain dlm dot n) (q : List α) :
    words dlm dot (spell dlm dir ++ q) = dir ++ words dlm dot q := by
  unfold spell
  rw [List.cons_append, words_cons]
  induction dir with
  | nil => rfl
  | cons n dir ih =>
    have hn := h n List.mem_cons_self
    have hassoc : ((n :: dir).flatMap fun n => n ++ [dlm]) ++ q =
        n ++ dlm :: ((dir.flatMap fun n => n ++ [dlm]) ++ q) := by
      simp
    rw [hassoc, words_append, ih fun m hm => h m (List.mem_cons_of_mem _ hm), words_name hn.notMem,
      if_pos ⟨hn.ne_nil, hn.ne_dot⟩]
    rfl

theorem words_spell {dir : List (List α)} (h : ∀ n ∈ dir, Plain dlm dot n) : words dlm dot (spell dlm dir) = dir := by
  have happend := words_spell_append h []
  rwa [List.append_nil, words_nil, List.append_nil] at happend

/-- Different directories have different normal forms. -/
theorem spell_inj {dir dir' : List (List α)} (h : ∀ n ∈ dir, Plain dlm dot n) (h' : ∀ n ∈ dir', Plain dlm dot n)
    (heq : spell dlm dir = spell dlm dir') : dir = dir' := by
  rw [← words_spell h, heq, words_spell h']

/-! ## Where names lead -/

@[simp]
theorem follow_nil (dir : List (List α)) : follow dot dir [] = dir := rfl

@[simp]
theorem follow_cons (dir : List (List α)) (n : List α) (names : List (List α)) :
    follow dot dir (n :: names) = follow dot (enter dot dir n) names := rfl

/-- Without a way up. -/
theorem follow_eq_append {names : List (List α)} (h : [dot, dot] ∉ names) (dir : List (List α)) :
    follow dot dir names = dir ++ names := by
  induction names generalizing dir with
  | nil => exact (List.append_nil dir).symm
  | cons n names ih =>
    obtain ⟨hn, hnames⟩ := not_or.mp fun hor => h (List.mem_cons.mpr hor)
    rw [follow_cons, ih hnames]
    unfold enter
    rw [if_neg fun heq => hn heq.symm, List.append_assoc]
    rfl

/-- **Names lead from a directory to a directory.** -/
theorem plain_follow {names : List (List α)} (hnames : ∀ n ∈ names, n ≠ [dot, dot] → Plain dlm dot n)
    {dir : List (List α)} (hdir : ∀ n ∈ dir, Plain dlm dot n) : ∀ n ∈ follow dot dir names, Plain dlm dot n := by
  induction names generalizing dir with
  | nil => exact hdir
  | cons m names ih =>
    rw [follow_cons]
    refine ih (fun n hn => hnames n (List.mem_cons_of_mem _ hn)) fun n hn => ?_
    unfold enter at hn
    split at hn
    · exact hdir n (List.dropLast_subset dir hn)
    · next hm =>
      rcases List.mem_append.mp hn with hn | hn
      · exact hdir n hn
      · rw [List.mem_singleton.mp hn]
        exact hnames m List.mem_cons_self hm

/-! ## How far down a path leads -/

variable (dlm dot) in
/-- The number of names that lead down, less the number of those that lead up. -/
def net (p : List α) : ℤ := (words dlm dot p).length - 2 * (words dlm dot p).count [dot, dot]

theorem net_nil : net dlm dot [] = 0 := by
  unfold net
  rw [words_nil]
  rfl

theorem net_append (p q : List α) : net dlm dot (p ++ dlm :: q) = net dlm dot p + net dlm dot q := by
  unfold net
  rw [words_append, List.length_append, List.count_append]
  omega

theorem net_cons (q : List α) : net dlm dot (dlm :: q) = net dlm dot q := by
  unfold net
  rw [words_cons]

theorem net_dot (h : dlm ≠ dot) : net dlm dot [dot] = 0 := by
  unfold net
  rw [words_dot h]
  rfl

theorem net_dots (h : dlm ≠ dot) : net dlm dot [dot, dot] = -1 := by
  unfold net
  rw [words_dots h, List.count_singleton_self]
  rfl

/-- A name leads down by one at most. -/
theorem net_name_le {n : List α} (h : dlm ∉ n) : net dlm dot n ≤ 1 := by
  unfold net
  rw [words_name h]
  split
  · rw [List.length_singleton]
    omega
  · rw [List.length_nil]
    omega

/-- Two dots in front of a name are a part of it. -/
theorem net_dots_name (h : dlm ≠ dot) {n : List α} (hn : dlm ∉ n) (hne : n ≠ []) :
    net dlm dot ([dot, dot] ++ n) = 1 := by
  have hlong : ∀ l : List α, l.length ≤ 2 → [dot, dot] ++ n ≠ l := by
    rintro l hl rfl
    have hlen : 2 + n.length ≤ 2 := by rwa [List.length_append] at hl
    exact hne (List.eq_nil_of_length_eq_zero (by omega))
  have hmem : dlm ∉ [dot, dot] ++ n := by
    rw [List.mem_append]
    rintro (hdots | hmem)
    · simp [h] at hdots
    · exact hn hmem
  unfold net
  rw [words_name hmem, if_pos ⟨hlong [] (by simp), hlong [dot] (by simp)⟩,
    List.count_singleton, if_neg fun heq => hlong [dot, dot] le_rfl (beq_iff_eq.mp heq)]
  rfl

/-- **Two dots that are no name** do not lead up. -/
theorem net_le_dots (h : dlm ≠ dot) {p : List α} (hne : p ≠ []) (hhead : p.head? ≠ some dlm) :
    net dlm dot p ≤ net dlm dot ([dot, dot] ++ p) := by
  by_cases hmem : dlm ∈ p
  · obtain ⟨n, q, rfl, hn⟩ := List.eq_append_cons_of_mem hmem
    have hname : n ≠ [] := by
      rintro rfl
      exact hhead rfl
    rw [← List.append_assoc, net_append, net_append, net_dots_name h hn hname]
    have hle : net dlm dot n ≤ 1 := net_name_le hn
    omega
  · rw [net_dots_name h hmem hne]
    exact net_name_le hmem

/-- How deep the directory is at least that names lead to. -/
theorem le_length_follow (names dir : List (List α)) :
    dir.length + names.length ≤ (follow dot dir names).length + 2 * names.count [dot, dot] := by
  induction names generalizing dir with
  | nil => exact le_rfl
  | cons n names ih =>
    have hrest := ih (enter dot dir n)
    rw [follow_cons, List.length_cons]
    unfold enter at hrest ⊢
    by_cases hn : n = [dot, dot]
    · subst hn
      rw [if_pos rfl, List.length_dropLast] at hrest
      rw [if_pos rfl, List.count_cons_self]
      omega
    · rw [if_neg hn, List.length_append, List.length_singleton] at hrest
      rw [if_neg hn, List.count_cons_of_ne hn]
      omega

/-- The depth is that of the directory and of the path. -/
theorem le_length_follow_words (dir : List (List α)) (p : List α) :
    (dir.length : ℤ) + net dlm dot p ≤ (follow dot dir (words dlm dot p)).length := by
  have hle : _ ≤ (follow dot dir (words dlm dot p)).length + _ := le_length_follow (words dlm dot p) dir
  unfold net
  omega

/-- A path that leads up nowhere. -/
theorem net_eq_length {p : List α} (h : [dot, dot] ∉ words dlm dot p) : net dlm dot p = (words dlm dot p).length := by
  unfold net
  rw [List.count_eq_zero.mpr h]
  simp

end Chickadee.Lib.Path
