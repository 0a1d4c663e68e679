import Chickadee.Shell.Passes

/-!
# Input that arrives in pieces

What the shell should do with its input is to run the command lists of all of it. It does, as long as no pass starts
with text that is left over; and an input that it gets to the end of is not run as it should be otherwise, as
characters of a command get lost.
-/

namespace Chickadee.Shell

variable {w : System} {st st' : Shell} {data : List UInt8} {reads reads' : List (List UInt8)} {p p' : Prog}
  {ls ls' : List (Bool × List UInt8)}

/-- Every read returns something, without null characters. -/
def Clean (reads : List (List UInt8)) : Prop := ∀ data ∈ reads, data ≠ [] ∧ 0 ∉ data

/-- Every read fits into the buffer, with room for the null character, and no command fills it. -/
def AllFit (w : System) : Shell → List (List UInt8) → Prop
  | st, [] => Fits st []
  | st, data :: reads => Fits st data ∧ ∀ st', pass w st data = some (.next st') → AllFit w st' reads

/-- No pass that gets to its end starts with text that is left over. -/
def NoLeft (w : System) : Shell → List (List UInt8) → Prop
  | st, [] => (∀ p, pass w st [] ≠ some (.ended p)) → st.pos = 0
  | st, data :: reads => (∀ p, pass w st data ≠ some (.ended p)) →
      st.pos = 0 ∧ ∀ st', pass w st data = some (.next st') → NoLeft w st' reads

/-- What the shell should do with its input, up to the end of the file. -/
def reference (w : System) (input : List UInt8) : Bool × Prog :=
  runLists w ⟨[], []⟩ (commandLists (input ++ [chr '\n'])).1

/-! ## Running lists -/

theorem runLists_append (w : System) (p : Prog) (ls ls' : List (Bool × List UInt8)) : runLists w p (ls ++ ls') =
    if (runLists w p ls).1 then runLists w (runLists w p ls).2 ls' else runLists w p ls := by
  induction ls generalizing p with
  | nil => rfl
  | cons l ls ih =>
    rw [List.cons_append, runLists, runLists]
    by_cases hone : (runOne w p l).1 = true
    · rw [if_pos hone, if_pos hone, ih]
    · rw [if_neg hone, if_neg hone, if_neg hone]

theorem runOne_lists {l : Bool × List UInt8} (h : (runOne w p l).1 = true) : (runOne w p l).2.lists = p.lists ++ [l] := by
  obtain ⟨bg, x⟩ := l
  cases bg with
  | true =>
    unfold runOne at h ⊢
    dsimp only at h ⊢
    split at h
    · next hfork => rw [if_pos hfork]
    · cases h
  | false =>
    unfold runOne at h ⊢
    dsimp only at h ⊢
    cases hrun : run_list w.run x p.calls with
    | none => rw [hrun] at h; cases h
    | some out =>
      rw [hrun] at h
      cases out with
      | ended calls => cases h
      | returned text calls => rfl

theorem runLists_lists (h : (runLists w p ls).1 = true) : (runLists w p ls).2.lists = p.lists ++ ls := by
  induction ls generalizing p with
  | nil => simp [runLists]
  | cons l ls ih =>
    rw [runLists] at h ⊢
    by_cases hone : (runOne w p l).1 = true
    · rw [if_pos hone] at h ⊢
      rw [ih h, runOne_lists hone, List.append_assoc]
      rfl
    · rw [if_neg hone] at h
      exact absurd h hone

/-! ## Passes -/

theorem appended_eq (h : data ≠ []) : appended data = data := if_neg h

/-- A pass ends in a command, or goes out of the buffer, or goes on with what is left but for some characters. -/
theorem pass_cases (w : System) (st : Shell) (data : List UInt8) (hleft : 0 ∉ st.left) (hdata : 0 ∉ data) (hfit : Fits st data) {t rest : List UInt8}
    (ht : st.left ++ appended data = t) (hls : commandLists t = (ls, rest)) :
    (∃ p, pass w st data = some (.ended p) ∧ runLists w st.prog ls = (false, p)) ∨
    ((runLists w st.prog ls).1 = true ∧ rest.length < st.pos ∧ pass w st data = none) ∨
    ((runLists w st.prog ls).1 = true ∧ st.pos ≤ rest.length ∧ ∃ st', pass w st data = some (.next st') ∧
      st'.left = rest.take (rest.length - st.pos) ∧ st'.prog = (runLists w st.prog ls).2 ∧ 0 ∉ st'.left) := by
  have hdoes := pass_does (w := w) hleft hdata hfit
  have hsuffix := rest_suffix t
  unfold Does at hdoes
  dsimp only at hdoes
  rw [ht, hls] at hdoes
  rw [hls] at hsuffix
  dsimp only at hdoes hsuffix
  by_cases hres : (runLists w st.prog ls).1 = true
  · rw [if_pos hres] at hdoes
    by_cases hle : st.pos ≤ rest.length
    · rw [if_pos hle] at hdoes
      obtain ⟨st', hcode, hleft', hprog⟩ := hdoes
      refine Or.inr (Or.inr ⟨hres, hle, st', hcode, hleft', hprog, fun hmem => ?_⟩)
      rw [hleft'] at hmem
      have hmem' := hsuffix.mem (List.mem_of_mem_take hmem)
      rw [← ht] at hmem'
      rcases List.mem_append.mp hmem' with hm | hm
      · exact hleft hm
      · unfold appended at hm
        split at hm
        · exact absurd hm (by decide)
        · exact hdata hm
    · rw [if_neg hle] at hdoes
      exact Or.inr (Or.inl ⟨hres, not_le.mp hle, hdoes⟩)
  · rw [if_neg hres] at hdoes
    exact Or.inl ⟨_, hdoes, Prod.ext (Bool.eq_false_iff.mpr hres) rfl⟩

/-! ## Without text left over -/

/-- **As long as no pass starts with text that is left over, the shell does what it should with all of its input, and
no index is outside of the buffer.** By induction over the reads: the lists of a pass are the first of those of the
input, and what is left of the text is before the next read. -/
theorem process_main_eq (hleft : 0 ∉ st.left) (hclean : Clean reads) (hfits : AllFit w st reads)
    (hno : NoLeft w st reads) : process_main w st reads =
      some (runLists w st.prog (commandLists (st.left ++ (reads.flatten ++ [chr '\n']))).1) := by
  induction reads generalizing st with
  | nil =>
    have hrest := rest_newline st.left
    have hls : commandLists (st.left ++ [chr '\n']) = ((commandLists (st.left ++ [chr '\n'])).1, []) :=
      Prod.ext rfl hrest
    rw [List.flatten_nil, List.nil_append, process_main]
    rcases pass_cases w st [] hleft (by simp) hfits rfl hls with
      ⟨p, hcode, hres⟩ | ⟨-, hlt, hcode⟩ | ⟨hres, -, st', hcode, -, hprog, -⟩
    · rw [hcode, hres]
    · have := hno (by rw [hcode]; simp)
      simp only [List.length_nil] at hlt
      omega
    · rw [hcode]
      dsimp only
      rw [hprog, ← hres]
  | cons data reads ih =>
    obtain ⟨hd, h0⟩ := hclean data List.mem_cons_self
    obtain ⟨hfit, hfits⟩ := hfits
    have happend := commandLists_append (st.left ++ data) (reads.flatten ++ [chr '\n'])
    rw [List.append_assoc, ← List.append_assoc data, ← List.flatten_cons] at happend
    rw [happend, runLists_append, process_main]
    rcases pass_cases w st data hleft h0 hfit (by rw [appended_eq hd]) (Prod.mk.eta).symm with
      ⟨p, hcode, hres⟩ | ⟨-, hlt, hcode⟩ | ⟨hres, -, st', hcode, hleft', hprog, h0'⟩
    · rw [hcode, hres]
      rfl
    · have := (hno (by rw [hcode]; simp)).1
      omega
    · obtain ⟨hzero, hno'⟩ := hno (by rw [hcode]; simp)
      rw [hcode, if_pos hres]
      dsimp only
      rw [hzero, Nat.sub_zero, List.take_length] at hleft'
      rw [ih h0' (fun d hm => hclean d (List.mem_cons_of_mem data hm)) (hfits st' hcode) (hno' st' hcode), hleft', hprog]

/-! ## With text left over -/

/-- At the end of the file nothing is left over, or the `memmove` goes out of the buffer. -/
theorem NoLeft.pos_eq (hno : NoLeft w st reads) (hmain : process_main w st reads = some (true, p)) : st.pos = 0 := by
  cases reads with
  | nil =>
    refine hno fun q hq => ?_
    rw [process_main, hq] at hmain
    cases hmain
  | cons data reads =>
    refine (hno fun q hq => ?_).1
    rw [process_main, hq] at hmain
    cases hmain

/-- **A shell that gets to the end of its input has lost characters of its commands, if it once had text left over.**
-/
theorem process_main_weight (hleft : 0 ∉ st.left) (hclean : Clean reads) (hfits : AllFit w st reads)
    (hmain : process_main w st reads = some (true, p)) :
    weightOf p.lists ≤ weightOf st.prog.lists + weight st.left + weight reads.flatten ∧
      (¬NoLeft w st reads → weightOf p.lists < weightOf st.prog.lists + weight st.left + weight reads.flatten) := by
  induction reads generalizing st with
  | nil =>
    have hrest := rest_newline st.left
    have hls : commandLists (st.left ++ [chr '\n']) = ((commandLists (st.left ++ [chr '\n'])).1, []) :=
      Prod.ext rfl hrest
    have hweight := weight_eq (st.left ++ [chr '\n'])
    rw [hrest, weight_append] at hweight
    have hnl : weight [chr '\n'] = 0 ∧ weight [] = 0 := ⟨rfl, rfl⟩
    rw [process_main] at hmain
    rcases pass_cases w st [] hleft (by simp) hfits rfl hls with
      ⟨q, hcode, -⟩ | ⟨-, -, hcode⟩ | ⟨hres, hle, st', hcode, -, hprog, -⟩
    · rw [hcode] at hmain
      cases hmain
    · rw [hcode] at hmain
      cases hmain
    · rw [hcode] at hmain
      cases hmain
      rw [hprog, runLists_lists hres, weightOf_append]
      simp only [List.flatten_nil]
      refine ⟨by omega, fun hno => absurd (fun _ => Nat.le_zero.mp hle) hno⟩
  | cons data reads ih =>
    obtain ⟨hd, h0⟩ := hclean data List.mem_cons_self
    obtain ⟨hfit, hfits⟩ := hfits
    have hweight := weight_eq (st.left ++ data)
    rw [weight_append] at hweight
    rw [process_main] at hmain
    rcases pass_cases w st data hleft h0 hfit (by rw [appended_eq hd]) (Prod.mk.eta).symm with
      ⟨q, hcode, -⟩ | ⟨-, -, hcode⟩ | ⟨hres, hle, st', hcode, hleft', hprog, h0'⟩
    · rw [hcode] at hmain
      cases hmain
    · rw [hcode] at hmain
      cases hmain
    · rw [hcode] at hmain
      dsimp only at hmain
      obtain ⟨hweight', hlost'⟩ :=
        ih h0' (fun d hm => hclean d (List.mem_cons_of_mem data hm)) (hfits st' hcode) hmain
      rw [hprog, runLists_lists hres, weightOf_append] at hweight' hlost'
      set rest := (commandLists (st.left ++ data)).2 with hrest
      have hsplit := congrArg weight (List.take_append_drop (rest.length - st.pos) rest)
      rw [weight_append, ← hleft'] at hsplit
      rw [List.flatten_cons, weight_append]
      refine ⟨by omega, fun hno => ?_⟩
      by_cases hno' : NoLeft w st' reads
      · -- the pass had text left over, and has lost all that is left
        have hpos' : st'.pos = 0 := hno'.pos_eq hmain
        have hpos : st.pos ≠ 0 := by
          intro hzero
          refine hno fun _ => ⟨hzero, fun st₁ h₁ => ?_⟩
          rw [hcode] at h₁
          cases h₁
          exact hno'
        have hnil : st'.left = [] := by
          rw [← List.length_eq_zero_iff, Shell.length_left, hpos']
        have hne : rest ≠ [] := by
          rintro hempty
          rw [hempty] at hle
          exact hpos (Nat.le_zero.mp hle)
        have hall : rest.take (rest.length - st.pos) = [] := by rw [← hleft', hnil]
        have hlost : 0 < weight rest := weight_rest hne
        rw [hnil] at hweight' hsplit
        have hzero : weight [] = 0 := rfl
        omega
      · have := hlost' hno'
        omega

/-- Reads that each end with a list that is complete leave nothing over. -/
theorem noLeft_of_complete (w : System) (st : Shell) (hpos : st.pos = 0) (hclean : Clean reads) (hlen : ∀ data ∈ reads, data.length < SIZE)
    (hcomplete : ∀ data ∈ reads, (commandLists data).2 = []) : AllFit w st reads ∧ NoLeft w st reads := by
  have hsize : SIZE = 4096 := rfl
  have hleft : st.left = [] := by rw [← List.length_eq_zero_iff, Shell.length_left, hpos]
  induction reads generalizing st with
  | nil => exact ⟨⟨by omega, by simp; omega⟩, fun _ => hpos⟩
  | cons data reads ih =>
    obtain ⟨hd, h0⟩ := hclean data List.mem_cons_self
    have hfit : Fits st data := ⟨by omega, by have := hlen data List.mem_cons_self; omega⟩
    have hnext : ∀ st', pass w st data = some (.next st') → AllFit w st' reads ∧ NoLeft w st' reads := by
      intro st' hst'
      have hls : commandLists data = ((commandLists data).1, []) := Prod.ext rfl (hcomplete data List.mem_cons_self)
      rcases pass_cases w st data (by simp [hleft]) h0 hfit (by rw [hleft, appended_eq hd]; rfl) hls with
        ⟨q, hcode, -⟩ | ⟨-, -, hcode⟩ | ⟨-, -, st₁, hcode, hleft₁, -, -⟩
      · rw [hcode] at hst'
        cases hst'
      · rw [hcode] at hst'
        cases hst'
      · rw [hcode] at hst'
        cases hst'
        have hnil : st'.left = [] := by simpa using hleft₁
        have hpos' : st'.pos = 0 := by rw [← Shell.length_left, hnil]; rfl
        exact ih st' hpos' (fun d hm => hclean d (List.mem_cons_of_mem data hm))
          (fun d hm => hlen d (List.mem_cons_of_mem data hm))
          (fun d hm => hcomplete d (List.mem_cons_of_mem data hm)) hnil
    exact ⟨⟨hfit, fun st' hst' => (hnext st' hst').1⟩, fun _ => ⟨hpos, fun st' hst' => (hnext st' hst').2⟩⟩

/-- **Two ways to split the same input: where no pass that gets to its end starts with text that is left over, the
shell runs the same command lists in the same order, those of the whole input, and every index is in the buffer. A
shell whose commands let it get to the end of its input does so only then.** -/
theorem splits_same (reads reads' : List (List UInt8)) (hsame : reads.flatten = reads'.flatten) (hclean : Clean reads) (hclean' : Clean reads')
    (hfits : AllFit w .start reads) (hfits' : AllFit w .start reads') :
    (NoLeft w .start reads → NoLeft w .start reads' →
      process_main w .start reads = some (reference w reads.flatten) ∧
      process_main w .start reads' = some (reference w reads.flatten)) ∧
    ((reference w reads.flatten).1 = true →
      (process_main w .start reads = some (reference w reads.flatten) ↔ NoLeft w .start reads)) := by
  have hstart : Shell.start.left = [] := rfl
  have h0 : 0 ∉ Shell.start.left := by simp [hstart]
  have hforward := process_main_eq (w := w) h0 hclean hfits
  have hforward' := process_main_eq (w := w) h0 hclean' hfits'
  rw [hstart, List.nil_append] at hforward hforward'
  refine ⟨fun hno hno' => ⟨hforward hno, ?_⟩, fun hend => ⟨fun hmain => ?_, hforward⟩⟩
  · rw [hsame]
    exact hforward' hno'
  · by_contra hno
    have hres : reference w reads.flatten = (true, (reference w reads.flatten).2) := Prod.ext hend rfl
    rw [hres] at hmain
    have hlost := (process_main_weight h0 hclean hfits hmain).2 hno
    have hweight := weight_eq (reads.flatten ++ [chr '\n'])
    rw [rest_newline, weight_append] at hweight
    have hlists : (reference w reads.flatten).2.lists = (commandLists (reads.flatten ++ [chr '\n'])).1 :=
      runLists_lists hend
    have hzero : weight [] = 0 ∧ weight [chr '\n'] = 0 ∧ weightOf Shell.start.prog.lists = 0 := ⟨rfl, rfl, rfl⟩
    rw [hlists, hstart] at hlost
    omega

/-- A system whose commands all succeed. -/
def succeeds : System where
  run := fun _ => some ⟨1, 0, 0⟩
  fork := fun _ => true
  child := fun _ _ => some ⟨1, 0, 0⟩

theorem commandLists_a : commandLists [chr 'a'] = ([], [chr 'a']) := commandLists_none (by decide)

theorem commandLists_a_newline : commandLists [chr 'a', chr '\n'] = ([(false, [chr 'a'])], []) := by
  rw [commandLists_some (show cut (List.dropWhile isspace [chr 'a', chr '\n']) = some ([chr 'a'], false, []) by decide), commandLists_none (by decide)]
  rfl

/-- Two command lines, in two reads and in one. -/
theorem splits_same_lines :
    let reads := [[chr 'a', chr '\n'], [chr 'a', chr '\n']]
    let reads' := [[chr 'a', chr '\n', chr 'a', chr '\n']]
    process_main succeeds .start reads = some (reference succeeds reads.flatten) ∧
      process_main succeeds .start reads' = some (reference succeeds reads.flatten) := by
  intro reads reads'
  have hclean : Clean reads := by simp [Clean, reads, chr]
  have hclean' : Clean reads' := by simp [Clean, reads', chr]
  have hcomplete : ∀ data ∈ reads, (commandLists data).2 = [] := by simp [reads, commandLists_a_newline]
  have hcomplete' : ∀ data ∈ reads', (commandLists data).2 = [] := by
    have happend := commandLists_append [chr 'a', chr '\n'] [chr 'a', chr '\n']
    simp only [commandLists_a_newline, List.nil_append] at happend
    intro data hdata
    rw [List.mem_singleton.mp hdata]
    exact congrArg Prod.snd happend
  obtain ⟨hfits, hno⟩ := noLeft_of_complete succeeds .start rfl hclean (by simp [reads, SIZE]) hcomplete
  obtain ⟨hfits', hno'⟩ :=
    noLeft_of_complete succeeds .start rfl hclean' (by simp [reads', SIZE]) hcomplete'
  exact (splits_same reads reads' rfl hclean hclean' hfits hfits').1 hno hno'

/-- A command line whose newline comes in a second read: the `memmove` goes out of the buffer. -/
theorem splits_same_fails :
    ¬∀ w reads reads', List.flatten reads = List.flatten reads' → Clean reads → Clean reads' → AllFit w .start reads →
      AllFit w .start reads' → ∃ res, process_main w .start reads = some res ∧ process_main w .start reads' = some res := by
  intro hall
  have hclean : Clean [[chr 'a'], [chr '\n']] := by simp [Clean, chr]
  have hclean' : Clean [[chr 'a', chr '\n']] := by simp [Clean, chr]
  obtain ⟨hfits', -⟩ := noLeft_of_complete succeeds .start rfl hclean' (by simp [SIZE])
    (by simp [commandLists_a_newline])
  have hfirst := pass_cases succeeds .start [chr 'a'] (by decide) (by decide)
    ⟨by decide, by decide⟩ rfl commandLists_a
  have hnext : ∃ st', pass succeeds .start [chr 'a'] = some (.next st') ∧ st'.left = [chr 'a'] ∧
      st'.prog = Shell.start.prog := by
    rcases hfirst with ⟨p, -, hres⟩ | ⟨-, hlt, -⟩ | ⟨-, -, st', hcode, hleft, hprog, -⟩
    · cases hres
    · exact absurd hlt (by decide)
    · exact ⟨st', hcode, hleft, hprog⟩
  obtain ⟨st', hcode, hleft, hprog⟩ := hnext
  have hpos : st'.pos = 1 := by rw [← Shell.length_left, hleft]; rfl
  have hfit : Fits st' [chr '\n'] := ⟨by rw [hpos]; decide, by rw [hpos]; decide⟩
  have hsecond := pass_cases succeeds st' [chr '\n'] (by rw [hleft]; decide) (by decide) hfit (by rw [hleft]; rfl)
    commandLists_a_newline
  have hnone : pass succeeds st' [chr '\n'] = none := by
    rcases hsecond with ⟨p, -, hres⟩ | ⟨-, -, hcode⟩ | ⟨-, hle, -⟩
    · rw [hprog] at hres
      cases hres
    · exact hcode
    · rw [hpos] at hle
      exact absurd hle (by decide)
  have hfits : AllFit succeeds .start [[chr 'a'], [chr '\n']] := by
    refine ⟨⟨by decide, by decide⟩, fun st₁ h₁ => ?_⟩
    rw [hcode] at h₁
    cases h₁
    refine ⟨hfit, fun st₂ h₂ => ?_⟩
    rw [hnone] at h₂
    cases h₂
  obtain ⟨res, hres, -⟩ := hall succeeds [[chr 'a'], [chr '\n']] [[chr 'a', chr '\n']] rfl hclean hclean' hfits hfits'
  rw [process_main, hcode] at hres
  dsimp only at hres
  rw [process_main, hnone] at hres
  cases hres

end Chickadee.Shell
