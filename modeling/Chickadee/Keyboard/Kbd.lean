import Chickadee.Lib.Lines
import Chickadee.Lib.Ring

/-!
# The keyboard

`none` is a failed assertion, or for `handle_interrupt` that the machine is switched off. A section of the system is
what runs under `lock_`.
-/

namespace Chickadee.Keyboard

open Lib

/-- `state_` -/
inductive Mode
  | boot
  | input
  | fail
  deriving DecidableEq

/-- `struct keyboardstate` -/
structure keyboardstate where
  buf_ : ℕ → UInt8
  pos_ : ℕ
  len_ : ℕ
  eol_ : ℕ
  state_ : Mode

/-- `sizeof(buf_)` -/
def BUF_SIZE : ℕ := 256

namespace keyboardstate

/-- `consume(n)`; `eol_` is unsigned. -/
def consume (k : keyboardstate) (n : ℕ) : Option keyboardstate :=
  if n ≤ k.len_ then
    some { k with
      pos_ := (k.pos_ + n) % BUF_SIZE, len_ := k.len_ - n, eol_ := (k.eol_ + 2 ^ 32 - n) % 2 ^ 32 }
  else none

/-- `normal_char` -/
def normal_char (k : keyboardstate) (ch : UInt8) (want_eol : Bool) : keyboardstate :=
  if k.len_ < BUF_SIZE then
    let slot := (k.pos_ + k.len_) % BUF_SIZE
    { k with
      buf_ := Function.update k.buf_ slot ch, len_ := k.len_ + 1,
      eol_ := if want_eol then k.len_ + 1 else k.eol_ }
  else k

/-- One character of `handle_interrupt`. -/
def readc (k : keyboardstate) (ch : UInt8) : Option keyboardstate :=
  if ch = 0 then some k
  else if ch = 0x08 then some (if k.eol_ < k.len_ then { k with len_ := k.len_ - 1 } else k)
  else if ch = 0x11 then none
  else if ch = 0x03 ∨ ch = 0x71 then if k.state_ ≠ .input then none else some (k.normal_char ch false)
  else if ch = 0x0D then some (k.normal_char 0x0A true)
  else if ch = 0x04 ∨ ch = 0x0A then some (k.normal_char ch true)
  else some (k.normal_char ch false)

/-- `handle_interrupt()`, for the characters that `keyboard_readc` has. -/
def handle_interrupt (k : keyboardstate) : List UInt8 → Option keyboardstate
  | [] => some k
  | ch :: chs => (k.readc ch).bind fun k => k.handle_interrupt chs

/-- The loop of `kb_c_vnode::read`, for at most `m` more bytes behind `out`. -/
def readLoop : ℕ → keyboardstate → List UInt8 → Option (keyboardstate × List UInt8)
  | 0, k, out => some (k, out)
  | m + 1, k, out =>
    if k.eol_ ≠ 0 then
      if k.buf_ k.pos_ = 0x04 then if out.length = 0 then (k.consume 1).map (·, out) else some (k, out)
      else (k.consume 1).bind fun k' => readLoop m k' (out ++ [k.buf_ k.pos_])
    else some (k, out)

/-- The characters in the buffer. -/
def ring (k : keyboardstate) : List UInt8 := ringList k.buf_ BUF_SIZE k.pos_ k.len_

/-- The characters that complete a line. -/
def isEol (ch : UInt8) : Bool := ch = 0x04 ∨ ch = 0x0A

/-- What a character does to the line, if it is accepted. -/
def accepted (k : keyboardstate) (ch : UInt8) : List (Key UInt8) :=
  if ch = 0 then []
  else if ch = 0x08 then [.erase]
  else if k.len_ < BUF_SIZE then [.char (if ch = 0x0D then 0x0A else ch)]
  else []

/-- The accepted characters of an interrupt. -/
def acceptedAll (k : keyboardstate) : List UInt8 → List (Key UInt8)
  | [] => []
  | ch :: chs => k.accepted ch ++ ((k.readc ch).elim [] fun k => k.acceptedAll chs)

end keyboardstate

/-- What a call of `read` took out of the buffer, and what it returned. -/
structure Got where
  sz : ℕ
  taken : List UInt8
  bytes : List UInt8

/-- The keyboard, the tasks that wait in `read` with their sizes, and what was typed and read so far. -/
structure State where
  kbd : keyboardstate
  waiting : ℕ → Option ℕ
  off : Bool
  typed : List (Key UInt8)
  reads : List Got

/-- The sections. `intr` is that the task has `exit_signal_ == E_INTR` when it looks at it. -/
inductive Act
  | interrupt (chs : List UInt8)
  /-- task `t` calls `read` -/
  | read (t sz : ℕ) (intr : Bool)
  /-- task `t` is woken in `read` -/
  | reread (t : ℕ) (intr : Bool)
  /-- `process_halt` -/
  | halt
  /-- a panic -/
  | fail

namespace State

/-- The loop of `read` and its return. -/
def readTail (s : State) (t sz : ℕ) : Option State :=
  (keyboardstate.readLoop sz s.kbd []).map fun res =>
    { s with
      kbd := res.1, waiting := Function.update s.waiting t none,
      reads := s.reads ++ [⟨sz, s.kbd.ring.take (s.kbd.len_ - res.1.len_), res.2⟩] }

/-- `block_until` of `read`, from the test to the end of the section. -/
def readBlock (s : State) (t sz : ℕ) (intr : Bool) : Option State :=
  if intr then some { s with waiting := Function.update s.waiting t none }
  else if s.kbd.eol_ ≠ 0 then s.readTail t sz
  else some { s with waiting := Function.update s.waiting t (some sz) }

/-- `kbd.state_ = kbd.input`, if it is `boot`. -/
def startRead (s : State) : State :=
  { s with kbd := { s.kbd with state_ := if s.kbd.state_ = .boot then .input else s.kbd.state_ } }

/-- A section. -/
def step (s : State) : Act → Option State
  | .interrupt chs =>
    if s.off then none
    else match s.kbd.handle_interrupt chs with
      | none => some { s with off := true }
      | some k => some { s with kbd := k, typed := s.typed ++ s.kbd.acceptedAll chs }
  | .read t sz intr =>
    if s.off ∨ s.waiting t ≠ none then none
    else if sz = 0 then s.startRead.readTail t sz
    else s.startRead.readBlock t sz intr
  | .reread t intr =>
    if s.off then none else (s.waiting t).bind fun sz => s.readBlock t sz intr
  | .halt => some { s with kbd := { s.kbd with state_ := .boot } }
  | .fail => some { s with kbd := { s.kbd with state_ := .fail } }

/-- The keyboard before its first interrupt. -/
def init : State where
  kbd := { buf_ := fun _ => 0, pos_ := 0, len_ := 0, eol_ := 0, state_ := .boot }
  waiting := fun _ => none
  off := false
  typed := []
  reads := []

/-- A run of sections. -/
def run (s : State) (as : List Act) : Option State := as.foldlM step s

/-- The bytes that the reads have delivered, in order. -/
def delivered (s : State) : List UInt8 := s.reads.flatMap Got.bytes

/-- What the reads have taken out of the buffer, in order. -/
def taken (s : State) : List UInt8 := s.reads.flatMap Got.taken

end State

end Chickadee.Keyboard
