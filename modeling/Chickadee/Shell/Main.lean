import Chickadee.Shell.RunList

/-!
# `process_main` of the shell

The prompt and the reaping of children are left out. `none` is an access outside of `buf`.
-/

namespace Chickadee.Shell

/-- `sizeof(buf)` -/
def SIZE : ℕ := 4096

/-- Skipping white space. -/
def skip (buf : ℕ → UInt8) (i : ℕ) : Option ℕ :=
  if i < SIZE then if isspace (buf i) then skip buf (i + 1) else some i else none
termination_by SIZE - i

/-- Scanning ahead to the next separator. -/
def scan (buf : ℕ → UInt8) (j : ℕ) : Option ℕ :=
  if j < SIZE then
    if buf j = chr ';' ∨ buf j = chr '\n' ∨ buf j = 0 then some j
    else if buf j = chr '&' then
      if j + 1 < SIZE then
        if buf (j + 1) = 0 then scan buf (j + 1)
        else if buf (j + 1) = chr '&' then scan buf (j + 2)
        else some j
      else none
    else scan buf (j + 1)
  else none
termination_by SIZE - j

/-- The string at `buf + i`. -/
def cstr (buf : ℕ → UInt8) (i : ℕ) : Option (List UInt8) :=
  if i < SIZE then if buf i = 0 then some [] else (cstr buf (i + 1)).map (buf i :: ·) else none
termination_by SIZE - i

/-- `data` is stored at `i`. -/
def write (buf : ℕ → UInt8) (i : ℕ) (data : List UInt8) : ℕ → UInt8 := fun k =>
  if i ≤ k ∧ k < i + data.length then data.getD (k - i) 0 else buf k

/-- `memmove(buf, buf + src, len)` -/
def memmove (buf : ℕ → UInt8) (src len : ℕ) : Option (ℕ → UInt8) :=
  if src + len ≤ SIZE then some fun k => if k < len then buf (src + k) else buf k else none

/-- What the shell has done: the command lists that it ran, with those in the background marked, and its calls of
`create_child`. -/
structure Prog where
  lists : List (Bool × List UInt8)
  calls : List Call

/-- The system: the commands of the shell, whether `sys_fork` works, and the commands of a child of it. -/
structure System where
  run : World
  fork : List (Bool × List UInt8) → Bool
  child : List (Bool × List UInt8) → World

/-- The end of the inner loop: in a command, or where the rest has no separator. -/
inductive Lists
  | ended (p : Prog)
  | more (buf : ℕ → UInt8) (i : ℕ) (p : Prog)

/-- The inner loop of `process_main`, which processes lists from input. -/
def processLists (w : System) : ℕ → (ℕ → UInt8) → ℕ → Prog → Option Lists
  | 0, _, _, _ => none
  | fuel + 1, buf, i, p =>
    match skip buf i with
    | none => none
    | some i =>
      match scan buf i with
      | none => none
      | some j =>
        if buf j = chr '&' then
          if w.fork p.lists then
            match cstr (Function.update buf j 0) i with
            | none => none
            | some s =>
              match run_list (w.child p.lists) s [] with
              | none => none
              | some _ => processLists w fuel buf (j + 1) { p with lists := p.lists ++ [(true, s)] }
          else some (.ended p)
        else if buf j = chr ';' ∨ buf j = chr '\n' then
          match cstr (Function.update buf j 0) i with
          | none => none
          | some s =>
            match run_list w.run s p.calls with
            | none => none
            | some (.ended calls) => some (.ended ⟨p.lists ++ [(false, s)], calls⟩)
            | some (.returned text calls) =>
              processLists w fuel (write (Function.update buf j 0) i text) (j + 1) ⟨p.lists ++ [(false, s)], calls⟩
        else some (.more buf i p)

/-- The variables of `process_main`. -/
structure Shell where
  buf : ℕ → UInt8
  pos : ℕ
  prog : Prog

/-- The end of a pass of the outer loop: the shell ends in it, or goes on. -/
inductive Pass
  | ended (p : Prog)
  | next (st : Shell)

/-- A pass of the outer loop, with what `sys_read` returns. At the end of the file that is nothing. -/
def pass (w : System) (st : Shell) (data : List UInt8) : Option Pass :=
  if st.pos = SIZE - 1 then some (.ended st.prog)
  else
    let text := if data = [] then [chr '\n'] else data
    let n := text.length
    let pos := st.pos + n
    if pos < SIZE then
      let buf := Function.update (write st.buf st.pos text) pos 0
      if ∃ k < pos, buf k = 0 then some (.ended st.prog)
      else
        match processLists w SIZE buf 0 st.prog with
        | none => none
        | some (.ended p) => some (.ended p)
        | some (.more buf i p) =>
          let len := (n + 2 ^ 64 - i) % 2 ^ 64
          (memmove buf i len).map fun buf => .next ⟨buf, len, p⟩
    else none

/-- `process_main()`, for what the reads return before the end of the file. `true` is that the shell gets there. -/
def process_main (w : System) : Shell → List (List UInt8) → Option (Bool × Prog)
  | st, [] =>
    match pass w st [] with
    | none => none
    | some (.ended p) => some (false, p)
    | some (.next st) => some (true, st.prog)
  | st, data :: reads =>
    match pass w st data with
    | none => none
    | some (.ended p) => some (false, p)
    | some (.next st) => process_main w st reads

/-- The shell when it starts. -/
def Shell.start : Shell where
  buf := fun _ => 0
  pos := 0
  prog := ⟨[], []⟩

end Chickadee.Shell
