import Mathlib

/-!
# `run_list` of the shell

A command list is the list of its characters before the null character. `words` and `redir` have the words that the
pointers are to, each of which ends where a null character is written behind it. `none` is an access outside of an
array.
-/

namespace Chickadee.Shell

/-- `isspace((unsigned char) c)` -/
def isspace (c : UInt8) : Bool := (9 ≤ c ∧ c ≤ 13) ∨ c = 32

def ANDAND : UInt8 := 1

def OROR : UInt8 := 2

/-- `arraysize(words)` -/
def WORDS : ℕ := 512

/-- A character, as a byte. -/
def chr (c : Char) : UInt8 := UInt8.ofNat c.toNat

/-- A call of `create_child`. -/
structure Call where
  words : List (List UInt8)
  nextch : UInt8
  redir : ℕ → Option (List UInt8)

/-- What comes of it: the child, the end of the pipe if there is one, and the status that `sys_waitpid` has. -/
structure Answer where
  child : ℤ
  pfd : ℤ
  status : ℤ

/-- The commands and the system, which know all the calls so far. `none` is that the shell ends in the call. -/
def World := List Call → Option Answer

/-- The variables of `run_list`. `past` is what is before `s`. -/
structure Cmd where
  past : List UInt8
  s : List UInt8
  words : List (List UInt8)
  pipein : ℤ
  skip_status : ℤ
  redir : ℕ → Option (List UInt8)
  redir_status : ℤ
  calls : List Call

/-- The end of `run_list`: in an `exit` or a failed assertion, or in its return. -/
inductive Out
  | ended (calls : List Call)
  | returned (text : List UInt8) (calls : List Call)

/-- What is skipped before a word. -/
def blank (c : UInt8) : Bool := isspace c && c != chr '\n'

def wordChar (c : UInt8) : Bool :=
  !isspace c && c != chr ';' && c != chr '&' && c != chr '|' && c != chr '<' && c != chr '>'

/-- Reading a word: what is before the new `s`, the word, `nextch` and the new `s`. -/
def readWord (s : List UInt8) : List UInt8 × List UInt8 × UInt8 × List UInt8 :=
  let before := s.takeWhile blank
  let s := s.dropWhile blank
  let word := s.takeWhile wordChar
  match s.dropWhile wordChar with
  | [] => (before ++ word, word, 0, [])
  | nextch :: s =>
    if nextch = chr '&' ∧ s.head? = some (chr '&') then (before ++ word ++ [0, chr '&'], word, ANDAND, s.tail)
    else if nextch = chr '|' ∧ s.head? = some (chr '|') then (before ++ word ++ [0, chr '|'], word, OROR, s.tail)
    else (before ++ word ++ [0], word, nextch, s)

/-- Adding to the word list. -/
def addWord (c : Cmd) (word : List UInt8) : Option (Cmd ⊕ Out) :=
  if word ≠ [] then
    if c.redir_status ≠ -1 then
      some (.inl { c with redir := Function.update c.redir c.redir_status.toNat (some word), redir_status := -1 })
    else if c.words.length < WORDS then
      if c.words.length + 1 < WORDS then some (.inl { c with words := c.words ++ [word] })
      else some (.inr (.ended c.calls))
    else none
  else if c.words = [] ∧ c.redir_status = -1 ∧ c.pipein = 0 then some (.inr (.returned (c.past ++ c.s) c.calls))
  else if c.words ≠ [] ∧ c.redir_status = -1 then some (.inl c)
  else some (.inr (.ended c.calls))

/-- `skip_status` once the shell has waited for a child. -/
def waited (a : Answer) (nextch : UInt8) (skip_status : ℤ) : ℤ :=
  if nextch ≠ chr '|' ∧ nextch ≠ chr '&' ∧ a.child > 0 then
    if (a.status = 0 ∧ nextch = OROR) ∨ (a.status ≠ 0 ∧ nextch = ANDAND) then if a.status ≠ 0 then 1 else 0
    else skip_status
  else skip_status

/-- `create_child`, and the wait for the child. -/
def create (w : World) (c : Cmd) (nextch : UInt8) : Cmd ⊕ Out :=
  let calls := c.calls ++ [⟨c.words, nextch, c.redir⟩]
  match w calls with
  | none => .inr (.ended calls)
  | some a =>
    .inl { c with
      pipein := if nextch = chr '|' then a.pfd else 0, skip_status := waited a nextch c.skip_status,
      redir := fun _ => none, words := [], calls := calls }

/-- Executing what the words are, if they are complete. `create_child` looks at `words[0]`. -/
def execute (w : World) (c : Cmd) (nextch : UInt8) : Option (Cmd ⊕ Out) :=
  if nextch = chr '<' then some (.inl { c with redir_status := 0 })
  else if nextch = chr '>' then some (.inl { c with redir_status := 1 })
  else if isspace nextch = false then
    if c.words.length < WORDS then
      if c.skip_status < 0 then
        if c.words ≠ [] then some (create w c nextch) else none
      else if (c.skip_status = 0 ∧ nextch = ANDAND) ∨ (c.skip_status ≠ 0 ∧ nextch = OROR) then
        some (.inl { c with skip_status := -1, words := [] })
      else some (.inl { c with words := [] })
    else none
  else some (.inl c)

/-- The loop of `run_list`. -/
def run_listLoop (w : World) : ℕ → Cmd → Option Out
  | 0, _ => none
  | fuel + 1, c =>
    if c.s = [] ∧ c.words = [] then some (.returned c.past c.calls)
    else
      let token := readWord c.s
      match addWord { c with past := c.past ++ token.1, s := token.2.2.2 } token.2.1 with
      | none => none
      | some (.inr out) => some out
      | some (.inl c) =>
        match execute w c token.2.2.1 with
        | none => none
        | some (.inr out) => some out
        | some (.inl c) => run_listLoop w fuel c

/-- The variables at the start. -/
def Cmd.start (s : List UInt8) (calls : List Call) : Cmd where
  past := []
  s := s
  words := []
  pipein := 0
  skip_status := -1
  redir := fun _ => none
  redir_status := -1
  calls := calls

/-- `run_list(s)`, after some calls. -/
def run_list (w : World) (s : List UInt8) (calls : List Call) : Option Out :=
  run_listLoop w (s.length + 2) (.start s calls)

/-! ## It always gets to its end -/

variable {w : World} {c c' : Cmd} {s word : List UInt8} {nextch : UInt8} {out : Out} {fuel : ℕ}

/-- Reading a word keeps the characters, of which some are zero now, and goes on unless it is at the end. -/
theorem readWord_length (s : List UInt8) :
    (readWord s).1.length + (readWord s).2.2.2.length = s.length ∧ (s ≠ [] → (readWord s).2.2.2.length < s.length) := by
  have hblank := congrArg List.length (List.takeWhile_append_dropWhile (p := blank) (l := s))
  have hword := congrArg List.length (List.takeWhile_append_dropWhile (p := wordChar) (l := s.dropWhile blank))
  rw [List.length_append] at hblank hword
  have hpos : s ≠ [] → 0 < s.length := List.length_pos_of_ne_nil
  unfold readWord
  dsimp only
  cases hrest : (s.dropWhile blank).dropWhile wordChar with
  | nil =>
    rw [hrest] at hword
    simp only [List.length_append, List.length_nil, Nat.add_zero] at hword ⊢
    exact ⟨by omega, hpos⟩
  | cons nextch t =>
    rw [hrest, List.length_cons] at hword
    have htail : ∀ d, t.head? = some d → t.tail.length + 1 = t.length := by
      intro d hd
      obtain ⟨u, rfl⟩ := List.head?_eq_some_iff.mp hd
      rfl
    dsimp only
    split_ifs with hand hor
    · have := htail _ hand.2
      simp only [List.length_append, List.length_cons, List.length_nil]
      exact ⟨by omega, fun _ => by omega⟩
    · have := htail _ hor.2
      simp only [List.length_append, List.length_cons, List.length_nil]
      exact ⟨by omega, fun _ => by omega⟩
    · simp only [List.length_append, List.length_cons, List.length_nil]
      exact ⟨by omega, fun _ => by omega⟩

/-- At the end there is no word and no next character. -/
theorem readWord_nil : readWord [] = ([], [], 0, []) := rfl

/-- There is room in `words`, and a name to redirect to is only awaited behind a word. -/
structure Cmd.Ok (c : Cmd) : Prop where
  room : c.words.length < WORDS
  redirect : c.redir_status ≠ -1 → c.words ≠ []

/-- A word is added, or the list ends there. -/
theorem addWord_cases (word : List UInt8) (hc : c.Ok) : ∃ r, addWord c word = some r ∧
    (∀ c', r = .inl c' → c'.Ok ∧ c'.words ≠ [] ∧ c'.redir_status = -1 ∧ c'.past = c.past ∧ c'.s = c.s) ∧
    ∀ text calls, r = .inr (.returned text calls) → text = c.past ++ c.s := by
  obtain ⟨hroom, hredirect⟩ := hc
  unfold addWord
  split_ifs with hword hredir hfull hstop hok
  · refine ⟨_, rfl, ?_, by simp⟩
    rintro c' ⟨⟩
    exact ⟨⟨hroom, fun h => absurd rfl h⟩, hredirect hredir, rfl, rfl, rfl⟩
  · refine ⟨_, rfl, ?_, by simp⟩
    rintro c' ⟨⟩
    refine ⟨⟨by simpa using hfull, fun h => absurd (not_not.mp hredir) h⟩, by simp, not_not.mp hredir, rfl, rfl⟩
  · exact ⟨_, rfl, by simp, by simp⟩
  · refine ⟨_, rfl, by simp, ?_⟩
    rintro text calls ⟨⟩
    rfl
  · refine ⟨_, rfl, ?_, by simp⟩
    rintro c' ⟨⟩
    exact ⟨⟨hroom, fun h => absurd hok.2 h⟩, hok.1, hok.2, rfl, rfl⟩
  · exact ⟨_, rfl, by simp, by simp⟩

theorem create_left (hredir : c.redir_status = -1) (h : create w c nextch = .inl c') :
    c'.Ok ∧ c'.past = c.past ∧ c'.s = c.s ∧ (nextch = 0 → c'.words = []) := by
  unfold create at h
  dsimp only at h
  split at h
  · cases h
  · cases h
    exact ⟨⟨by simp [WORDS], fun hne => absurd hredir hne⟩, rfl, rfl, fun _ => rfl⟩

theorem create_right (text : List UInt8) (calls : List Call) : create w c nextch ≠ .inr (.returned text calls) := by
  unfold create
  dsimp only
  split <;> simp

/-- The words are executed, if they are complete. -/
theorem execute_cases (w : World) (nextch : UInt8) (hc : c.Ok) (hwords : c.words ≠ []) (hredir : c.redir_status = -1) :
    ∃ r, execute w c nextch = some r ∧
      (∀ c', r = .inl c' → c'.Ok ∧ c'.past = c.past ∧ c'.s = c.s ∧ (nextch = 0 → c'.words = [])) ∧
      ∀ text calls, r ≠ .inr (.returned text calls) := by
  have hempty : 0 < WORDS := by decide
  unfold execute
  split_ifs with hlt hgt hspace hroom hskip
  · refine ⟨_, rfl, ?_, by simp⟩
    rintro c' ⟨⟩
    exact ⟨⟨hc.room, fun _ => hwords⟩, rfl, rfl, fun h => absurd (h.symm.trans hlt) (by decide)⟩
  · refine ⟨_, rfl, ?_, by simp⟩
    rintro c' ⟨⟩
    exact ⟨⟨hc.room, fun _ => hwords⟩, rfl, rfl, fun h => absurd (h.symm.trans hgt) (by decide)⟩
  · exact ⟨_, rfl, fun c' h => create_left hredir h, create_right⟩
  · refine ⟨_, rfl, ?_, by simp⟩
    rintro c' ⟨⟩
    exact ⟨⟨hempty, fun h => absurd hredir h⟩, rfl, rfl, fun _ => rfl⟩
  · refine ⟨_, rfl, ?_, by simp⟩
    rintro c' ⟨⟩
    exact ⟨⟨hempty, fun h => absurd hredir h⟩, rfl, rfl, fun _ => rfl⟩
  · exact absurd hc.room ‹_›
  · refine ⟨_, rfl, ?_, by simp⟩
    rintro c' ⟨⟩
    refine ⟨hc, rfl, rfl, fun h => ?_⟩
    rw [h] at hspace
    exact absurd rfl hspace

/-- The loop ends, as every word takes a character, and the text keeps its length. -/
theorem run_listLoop_some (w : World) (fuel : ℕ) (hc : c.Ok) (hfuel : (if c.s = [] ∧ c.words = [] then 1 else c.s.length + 2) ≤ fuel) :
    ∃ out, run_listLoop w fuel c = some out ∧
      ∀ text calls, out = .returned text calls → text.length = c.past.length + c.s.length := by
  induction fuel generalizing c with
  | zero => split at hfuel <;> omega
  | succ fuel ih =>
    rw [run_listLoop]
    by_cases hend : c.s = [] ∧ c.words = []
    · rw [if_pos hend]
      refine ⟨_, rfl, ?_⟩
      rintro text calls ⟨⟩
      simp [hend.1]
    rw [if_neg hend]
    obtain ⟨hsame, hless⟩ := readWord_length c.s
    have hc₀ : Cmd.Ok { c with past := c.past ++ (readWord c.s).1, s := (readWord c.s).2.2.2 } := ⟨hc.room, hc.redirect⟩
    obtain ⟨r, hadd, hleft, hright⟩ := addWord_cases (readWord c.s).2.1 hc₀
    dsimp only
    rw [hadd]
    rcases r with c₁ | out
    · obtain ⟨hc₁, hwords₁, hredir₁, hpast₁, hs₁⟩ := hleft c₁ rfl
      obtain ⟨r, hexec, hleft', hright'⟩ :=
        execute_cases w (readWord c.s).2.2.1 hc₁ hwords₁ hredir₁
      dsimp only
      rw [hexec]
      rcases r with c₂ | out
      · obtain ⟨hc₂, hpast₂, hs₂, hnext⟩ := hleft' c₂ rfl
        have hlen₂ : c₂.s.length = (readWord c.s).2.2.2.length := by rw [hs₂, hs₁]
        have hfuel₂ : (if c₂.s = [] ∧ c₂.words = [] then 1 else c₂.s.length + 2) ≤ fuel := by
          rw [if_neg hend] at hfuel
          by_cases hs : c.s = []
          · have hs₂' : c₂.s = [] := by rw [hs₂, hs₁, hs, readWord_nil]
            have hwords₂ : c₂.words = [] := hnext (by rw [hs, readWord_nil])
            rw [if_pos ⟨hs₂', hwords₂⟩]
            omega
          · have := hless hs
            split <;> omega
        obtain ⟨out, hloop, htext⟩ := ih hc₂ hfuel₂
        refine ⟨out, hloop, fun text calls ho => ?_⟩
        rw [htext text calls ho, hlen₂, hpast₂, hpast₁, List.length_append]
        omega
      · refine ⟨out, rfl, fun text calls ho => ?_⟩
        rw [ho] at hright'
        exact absurd rfl (hright' text calls)
    · refine ⟨out, rfl, fun text calls ho => ?_⟩
      rw [ho] at hright
      rw [hright text calls rfl]
      simp only [List.length_append]
      omega

/-- **`run_list` ends without an access outside of its arrays, and leaves as many characters as it had.** -/
theorem run_list_some (w : World) (s : List UInt8) (calls : List Call) :
    ∃ out, run_list w s calls = some out ∧ ∀ text calls, out = .returned text calls → text.length = s.length := by
  have hok : (Cmd.start s calls).Ok := ⟨by simp [Cmd.start, WORDS], fun h => absurd rfl h⟩
  obtain ⟨out, hcode, htext⟩ := run_listLoop_some w (s.length + 2) hok (by
    split
    · omega
    · exact le_rfl)
  refine ⟨out, hcode, fun text calls ho => ?_⟩
  simpa [Cmd.start] using htext text calls ho

end Chickadee.Shell
