import Chickadee.Shell.RunList

/-!
# Command lists in a text

`cut` finds the first command list of a text, and `commandLists` all of them and what is left, which has no end yet.
Text that comes later does not change the lists that are there already.
-/

namespace Chickadee.Shell

variable {t u x r : List UInt8} {bg : Bool} {c d : UInt8}

/-- The end of a list that is not for the background. -/
def IsSep (c : UInt8) : Prop := c = chr ';' ∨ c = chr '\n'

instance : Decidable (IsSep c) := inferInstanceAs (Decidable (_ ∨ _))

/-- The first command list, if it has its end: its text, whether it is for the background, and what is behind it. An
ampersand at the end of the text may be the first of two. -/
def cut : List UInt8 → Option (List UInt8 × Bool × List UInt8)
  | [] => none
  | [c] => if IsSep c then some ([], false, []) else none
  | c :: d :: t =>
    if IsSep c then some ([], false, d :: t)
    else if c = chr '&' then
      if d = chr '&' then (cut t).map fun res => (c :: d :: res.1, res.2)
      else some ([], true, d :: t)
    else (cut (d :: t)).map fun res => (c :: res.1, res.2)

@[simp]
theorem cut_nil : cut [] = none := rfl

theorem not_isSep_and : ¬IsSep (chr '&') := by decide

theorem cut_sep (hc : IsSep c) : cut (c :: t) = some ([], false, t) := by
  cases t <;> simp [cut, hc]

theorem cut_and_nil : cut [chr '&'] = none := by simp [cut, not_isSep_and]

theorem cut_and_and : cut (chr '&' :: chr '&' :: t) = (cut t).map fun res => (chr '&' :: chr '&' :: res.1, res.2) := by
  simp [cut, not_isSep_and]

theorem cut_and (hd : d ≠ chr '&') : cut (chr '&' :: d :: t) = some ([], true, d :: t) := by
  simp [cut, not_isSep_and, hd]

theorem cut_char (hc : ¬IsSep c) (hand : c ≠ chr '&') : cut (c :: t) = (cut t).map fun res => (c :: res.1, res.2) := by
  cases t <;> simp [cut, hc, hand]

/-- The cases of `cut`. -/
theorem cut_induct {P : List UInt8 → Prop} (nil : P []) (sep : ∀ c t, IsSep c → P (c :: t)) (and_nil : P [chr '&'])
    (and_and : ∀ t, P t → P (chr '&' :: chr '&' :: t)) (and : ∀ d t, d ≠ chr '&' → P (chr '&' :: d :: t))
    (char : ∀ c t, ¬IsSep c → c ≠ chr '&' → P t → P (c :: t)) (t : List UInt8) : P t := by
  induction t using cut.induct with
  | case1 => exact nil
  | case2 c hc => exact sep c [] hc
  | case3 c hc =>
    by_cases hand : c = chr '&'
    · rw [hand]
      exact and_nil
    · exact char c [] hc hand nil
  | case4 c d t hc => exact sep c (d :: t) hc
  | case5 t _ ih => exact and_and t ih
  | case6 d t hd _ => exact and d t hd
  | case7 c d t hc hand ih => exact char c (d :: t) hc hand ih

/-- What was cut is what was there. -/
theorem cut_eq (h : cut t = some (x, bg, r)) : ∃ c, t = x ++ c :: r ∧ if bg then c = chr '&' else IsSep c := by
  induction t using cut_induct generalizing x with
  | nil => cases h
  | sep c t hc =>
    rw [cut_sep hc] at h
    cases h
    exact ⟨c, rfl, hc⟩
  | and_nil =>
    rw [cut_and_nil] at h
    cases h
  | and_and t ih =>
    rw [cut_and_and] at h
    obtain ⟨⟨_, _, _⟩, hcut, heq⟩ := Option.map_eq_some_iff.mp h
    cases heq
    obtain ⟨e, rfl, he⟩ := ih hcut
    exact ⟨e, rfl, he⟩
  | and d t hd =>
    rw [cut_and hd] at h
    cases h
    exact ⟨chr '&', rfl, rfl⟩
  | char c t hc hand ih =>
    rw [cut_char hc hand] at h
    obtain ⟨⟨_, _, _⟩, hcut, heq⟩ := Option.map_eq_some_iff.mp h
    cases heq
    obtain ⟨e, rfl, he⟩ := ih hcut
    exact ⟨e, rfl, he⟩

theorem cut_length (h : cut t = some (x, bg, r)) : r.length < t.length := by
  obtain ⟨c, rfl, -⟩ := cut_eq h
  simp only [List.length_append, List.length_cons]
  omega

/-- A text that has no complete list has no separator. -/
theorem cut_none (h : cut t = none) : ∀ c ∈ t, ¬IsSep c := by
  induction t using cut_induct with
  | nil => simp
  | sep c t hc =>
    rw [cut_sep hc] at h
    cases h
  | and_nil => simp [not_isSep_and]
  | and_and t ih =>
    rw [cut_and_and, Option.map_eq_none_iff] at h
    simpa [not_isSep_and] using ih h
  | and d t hd =>
    rw [cut_and hd] at h
    cases h
  | char c t hc hand ih =>
    rw [cut_char hc hand, Option.map_eq_none_iff] at h
    simpa [hc] using ih h

/-- A list that has its end keeps it. -/
theorem cut_append (h : cut t = some (x, bg, r)) : cut (t ++ u) = some (x, bg, r ++ u) := by
  induction t using cut_induct generalizing x with
  | nil => cases h
  | sep c t hc =>
    rw [cut_sep hc] at h
    cases h
    rw [List.cons_append, cut_sep hc]
  | and_nil =>
    rw [cut_and_nil] at h
    cases h
  | and_and t ih =>
    rw [cut_and_and] at h
    obtain ⟨⟨_, _, _⟩, hcut, heq⟩ := Option.map_eq_some_iff.mp h
    cases heq
    rw [List.cons_append, List.cons_append, cut_and_and, ih hcut, Option.map_some]
  | and d t hd =>
    rw [cut_and hd] at h
    cases h
    rw [List.cons_append, List.cons_append, cut_and hd]
  | char c t hc hand ih =>
    rw [cut_char hc hand] at h
    obtain ⟨⟨_, _, _⟩, hcut, heq⟩ := Option.map_eq_some_iff.mp h
    cases heq
    rw [List.cons_append, cut_char hc hand, ih hcut, Option.map_some]

/-! ## All the lists -/

/-- The command lists of a text, with those for the background marked, and the text that is left. -/
def commandLists (t : List UInt8) : List (Bool × List UInt8) × List UInt8 :=
  match _h : cut (t.dropWhile isspace) with
  | none => ([], t.dropWhile isspace)
  | some (x, bg, r) => ((bg, x) :: (commandLists r).1, (commandLists r).2)
termination_by t.length
decreasing_by
  all_goals exact (cut_length _h).trans_le (List.length_dropWhile_le _ _)

theorem commandLists_none (h : cut (t.dropWhile isspace) = none) : commandLists t = ([], t.dropWhile isspace) := by
  rw [commandLists]
  split
  · rfl
  · next heq => rw [h] at heq; cases heq

theorem commandLists_some (h : cut (t.dropWhile isspace) = some (x, bg, r)) :
    commandLists t = ((bg, x) :: (commandLists r).1, (commandLists r).2) := by
  rw [commandLists]
  split
  · next heq => rw [h] at heq; cases heq
  · next heq => rw [h] at heq; cases heq; rfl

/-- The cases of `commandLists`. -/
theorem commandLists_induct {P : List UInt8 → Prop} (none : ∀ t, cut (t.dropWhile isspace) = none → P t)
    (some : ∀ t x bg r, cut (t.dropWhile isspace) = some (x, bg, r) → P r → P t) (t : List UInt8) : P t := by
  induction t using commandLists.induct with
  | case1 t h => exact none t h
  | case2 t x bg r h ih => exact some t x bg r h ih

/-- What is left has no white space before it. -/
theorem dropWhile_rest (t : List UInt8) : (commandLists t).2.dropWhile isspace = (commandLists t).2 := by
  induction t using commandLists_induct with
  | none t h => rw [commandLists_none h, List.dropWhile_idempotent]
  | some t x bg r h ih => rwa [commandLists_some h]

theorem cut_rest (t : List UInt8) : cut (commandLists t).2 = none := by
  induction t using commandLists_induct with
  | none t h => rwa [commandLists_none h]
  | some t x bg r h ih => rwa [commandLists_some h]

theorem dropWhile_append (t u : List UInt8) :
    (t.dropWhile isspace ++ u).dropWhile isspace = (t ++ u).dropWhile isspace := by
  rw [List.dropWhile_append, List.dropWhile_append, List.dropWhile_idempotent]

theorem commandLists_congr (h : t.dropWhile isspace = u.dropWhile isspace) : commandLists t = commandLists u := by
  cases hcut : cut (t.dropWhile isspace) with
  | none => rw [commandLists_none hcut, commandLists_none (by rw [← h, hcut]), h]
  | some res =>
    have hcut' : cut (u.dropWhile isspace) = some res := by rw [← h, hcut]
    exact (commandLists_some hcut).trans (commandLists_some hcut').symm

/-- **The lists of a text are found however much of it is there, and with what is left the others are.** -/
theorem commandLists_append (t u : List UInt8) : commandLists (t ++ u) =
    ((commandLists t).1 ++ (commandLists ((commandLists t).2 ++ u)).1, (commandLists ((commandLists t).2 ++ u)).2) := by
  induction t using commandLists_induct with
  | none t h =>
    rw [commandLists_none h, commandLists_congr (dropWhile_append t u)]
    rfl
  | some t x bg r h ih =>
    have hskip : (t ++ u).dropWhile isspace = t.dropWhile isspace ++ u := by
      rw [List.dropWhile_append, if_neg]
      intro hempty
      rw [List.isEmpty_iff.mp hempty] at h
      cases h
    have hcut : cut ((t ++ u).dropWhile isspace) = some (x, bg, r ++ u) := by rw [hskip, cut_append h]
    rw [commandLists_some h, commandLists_some hcut, ih]
    rfl

/-! ## What is left -/

theorem rest_suffix (t : List UInt8) : (commandLists t).2 <:+ t := by
  induction t using commandLists_induct with
  | none t h =>
    rw [commandLists_none h]
    exact List.dropWhile_suffix _
  | some t x bg r h ih =>
    rw [commandLists_some h]
    obtain ⟨c, heq, -⟩ := cut_eq h
    have hr : r <:+ t.dropWhile isspace := ⟨x ++ [c], by rw [heq]; simp⟩
    exact ih.trans (hr.trans (List.dropWhile_suffix _))

/-- Nothing is left of a text whose last character is a newline. -/
theorem rest_newline (t : List UInt8) : (commandLists (t ++ [chr '\n'])).2 = [] := by
  by_contra hne
  have hsuffix := rest_suffix (t ++ [chr '\n'])
  have hlast : (commandLists (t ++ [chr '\n'])).2.getLast hne = chr '\n' := by
    rw [hsuffix.getLast hne]
    exact List.getLast_concat
  exact cut_none (cut_rest _) _ (hlast ▸ List.getLast_mem hne) (Or.inr rfl)

/-- The characters that are no space and no semicolon. -/
def weight (t : List UInt8) : ℕ := t.countP fun c => !isspace c && c != chr ';'

/-- Those of command lists, with an ampersand for each one in the background. -/
def weightOf (ls : List (Bool × List UInt8)) : ℕ := (ls.map fun l => weight l.2 + if l.1 then 1 else 0).sum

@[simp]
theorem weight_append : weight (t ++ u) = weight t + weight u := List.countP_append

@[simp]
theorem weightOf_append {ls ls' : List (Bool × List UInt8)} : weightOf (ls ++ ls') = weightOf ls + weightOf ls' := by
  simp [weightOf]

theorem weight_dropWhile (t : List UInt8) : weight (t.dropWhile isspace) = weight t := by
  induction t with
  | nil => rfl
  | cons c t ih =>
    by_cases hc : isspace c
    · rw [List.dropWhile_cons_of_pos hc, ih]
      simp [weight, hc]
    · rw [List.dropWhile_cons_of_neg hc]

/-- **No such character is lost: each is in a list, or one of its ends, or in what is left.** -/
theorem weight_eq (t : List UInt8) : weight t = weightOf (commandLists t).1 + weight (commandLists t).2 := by
  induction t using commandLists_induct with
  | none t h =>
    rw [commandLists_none h, weight_dropWhile]
    simp [weightOf]
  | some t x bg r h ih =>
    obtain ⟨c, heq, hc⟩ := cut_eq h
    rw [commandLists_some h, ← weight_dropWhile, heq]
    have hend : weight [c] = if bg then 1 else 0 := by
      cases bg with
      | true =>
        obtain rfl : c = chr '&' := hc
        rfl
      | false =>
        rcases hc with rfl | rfl <;> rfl
    have hcons : weight (x ++ c :: r) = weight x + (weight [c] + weight r) := by
      rw [← weight_append, ← weight_append]
      rfl
    rw [hcons, hend, ih]
    simp only [weightOf, List.map_cons, List.sum_cons]
    omega

/-- What is left starts with such a character. -/
theorem weight_rest (h : (commandLists t).2 ≠ []) : 0 < weight (commandLists t).2 := by
  obtain ⟨c, u, hcu⟩ := List.exists_cons_of_ne_nil h
  have hdrop := dropWhile_rest t
  have hsep := cut_none (cut_rest t)
  rw [hcu] at hdrop hsep ⊢
  have hspace : isspace c = false := by
    by_contra hc
    rw [Bool.not_eq_false] at hc
    rw [List.dropWhile_cons_of_pos hc] at hdrop
    have := congrArg List.length hdrop
    have hle := List.length_dropWhile_le isspace u
    simp only [List.length_cons] at this
    omega
  have hsemi : c ≠ chr ';' := fun hc => hsep c List.mem_cons_self (Or.inl hc)
  rw [weight, List.countP_cons_of_pos (by simp [hspace, hsemi])]
  omega

end Chickadee.Shell
