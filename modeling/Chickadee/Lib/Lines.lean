import Mathlib

/-!
# Line editing

Characters are added to a line until one of them completes it. Until then the last one can be erased. Completed lines
are read in order; an end-of-file character is never read, but ends a read.
-/

namespace Chickadee.Lib

variable {α : Type*}

/-- What is typed. -/
inductive Key (α : Type*)
  | char (c : α)
  | erase

/-- The text of the completed lines, and the line that is being typed. -/
@[ext]
structure Lines (α : Type*) where
  done : List α
  cur : List α

namespace Lines

def key (isEol : α → Bool) (l : Lines α) : Key α → Lines α
  | .char c => if isEol c then ⟨l.done ++ l.cur ++ [c], []⟩ else ⟨l.done, l.cur ++ [c]⟩
  | .erase => ⟨l.done, l.cur.dropLast⟩

def keys (isEol : α → Bool) (l : Lines α) (ks : List (Key α)) : Lines α := ks.foldl (key isEol) l

/-- The lines of all that was typed. -/
def edit (isEol : α → Bool) (ks : List (Key α)) : Lines α := keys isEol ⟨[], []⟩ ks

/-- The same lines behind some text that has been read. -/
def behind (p : List α) (l : Lines α) : Lines α := ⟨p ++ l.done, l.cur⟩

variable {isEol : α → Bool} {l : Lines α} {p q : List α}

@[simp]
theorem keys_nil : l.keys isEol [] = l := rfl

@[simp]
theorem keys_append {ks ks' : List (Key α)} : l.keys isEol (ks ++ ks') = (l.keys isEol ks).keys isEol ks' :=
  List.foldl_append

theorem edit_append {ks ks' : List (Key α)} : edit isEol (ks ++ ks') = (edit isEol ks).keys isEol ks' := keys_append

theorem key_behind (k : Key α) : (l.behind p).key isEol k = (l.key isEol k).behind p := by
  cases k with
  | char c =>
    simp only [key, behind]
    split <;> simp
  | erase => rfl

/-- What was read before does not matter for what is typed. -/
theorem keys_behind {ks : List (Key α)} : (l.behind p).keys isEol ks = (l.keys isEol ks).behind p := by
  induction ks generalizing l with
  | nil => rfl
  | cons k ks ih =>
    show ((l.behind p).key isEol k).keys isEol ks = ((l.key isEol k).keys isEol ks).behind p
    rw [key_behind, ih]

theorem behind_behind : (l.behind q).behind p = l.behind (p ++ q) := by simp [behind]

end Lines

/-! ## Reading -/

variable [DecidableEq α] {eof c : α} {sz : ℕ} {text : List α}

/-- What a read of at most `sz` characters gets, and the text that it leaves. -/
def readText (eof : α) (sz : ℕ) (text : List α) : List α × List α :=
  if sz ≠ 0 ∧ text.head? = some eof then ([], text.tail)
  else
    let bytes := (text.takeWhile (· ≠ eof)).take sz
    (bytes, text.drop bytes.length)

/-- Where the text does not start with the end of the file, it is taken one by one. -/
theorem takeWhile_take_cons (hc : c ≠ eof) :
    ((c :: text).takeWhile (· ≠ eof)).take (sz + 1) = c :: (text.takeWhile (· ≠ eof)).take sz := by
  simp [List.takeWhile_cons, hc]

/-- **A read takes the text that it gets, or an end of the file alone.** -/
theorem readText_spec (eof : α) (sz : ℕ) (text : List α) : ∃ taken, text = taken ++ (readText eof sz text).2 ∧
    (readText eof sz text).1.length ≤ sz ∧ eof ∉ (readText eof sz text).1 ∧
    (taken = (readText eof sz text).1 ∨ taken = [eof] ∧ (readText eof sz text).1 = []) := by
  unfold readText
  split
  · next h =>
    obtain ⟨t, rfl⟩ := List.head?_eq_some_iff.mp h.2
    exact ⟨[eof], rfl, Nat.zero_le _, by simp, Or.inr ⟨rfl, rfl⟩⟩
  · have hprefix : (text.takeWhile (· ≠ eof)).take sz <+: text :=
      (List.take_prefix _ _).trans (List.takeWhile_prefix _)
    refine ⟨_, (List.prefix_iff_eq_append.mp hprefix).symm, List.length_take_le _ _, ?_, Or.inl rfl⟩
    intro hmem
    have := List.mem_takeWhile_imp (List.mem_of_mem_take hmem)
    simp at this

end Chickadee.Lib
