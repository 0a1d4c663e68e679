import Mathlib

/-!
# Intrusive lists: `list_links` and `list`

Memory holds the `list_links` of every list head and of every element. The lists have names in `L`, the elements
names in `T`. `none` as a pointer is null; `none` as a result is a failed assertion or an access through a pointer
that leads to no `list_links`.
-/

namespace Chickadee.Lists

/-- Where `list_links` are: the `head_` of a list, or the member of an element. -/
inductive Node (L T : Type*)
  | head (l : L)
  | links (x : T)
  deriving DecidableEq

/-- `struct list_links` -/
structure list_links (L T : Type*) where
  next_ : Option (Node L T)
  prev_ : Option (Node L T)

abbrev Mem (L T : Type*) := Node L T → list_links L T

variable {L T : Type*} [DecidableEq L] [DecidableEq T]

namespace Mem

/-- `p->next_ = v` -/
def setNext (m : Mem L T) (p : Node L T) (v : Option (Node L T)) : Mem L T :=
  Function.update m p { m p with next_ := v }

/-- `p->prev_ = v` -/
def setPrev (m : Mem L T) (p : Node L T) (v : Option (Node L T)) : Mem L T :=
  Function.update m p { m p with prev_ := v }

/-- `p->reset()` of a `list_links` -/
def reset (m : Mem L T) (p : Node L T) : Mem L T := Function.update m p ⟨none, none⟩

/-! ## `list_links` -/

/-- `this->erase()` -/
def eraseLinks (m : Mem L T) (this : Node L T) : Option (Mem L T) :=
  match (m this).next_, (m this).prev_ with
  | some next_, some prev_ => some (((m.setNext prev_ (some next_)).setPrev next_ (some prev_)).reset this)
  | _, _ => none

/-- `this->insert_before(position)` -/
def insert_before (m : Mem L T) (this : Node L T) (position : Option (Node L T)) : Option (Mem L T) :=
  match position with
  | none => none
  | some position =>
    match (m position).next_, (m position).prev_ with
    | some _, some prev_ =>
      if (m this).next_ = none ∧ (m this).prev_ = none then
        let m := m.setPrev this (some prev_)
        let m := m.setNext this (some position)
        let m := m.setNext prev_ (some this)
        some (m.setPrev position (some this))
      else none
    | _, _ => none

/-! ## `list` -/

/-- `from_links(ll)`: the element that the links are a member of. -/
def from_links : Option (Node L T) → Option T
  | some (.links x) => some x
  | _ => none

/-- `list::empty()` -/
def empty (m : Mem L T) (l : L) : Bool := (m (.head l)).next_ = some (.head l)

/-- `list::front()` -/
def front (m : Mem L T) (l : L) : Option T := if m.empty l then none else from_links (m (.head l)).next_

/-- `list::back()` -/
def back (m : Mem L T) (l : L) : Option T := if m.empty l then none else from_links (m (.head l)).prev_

/-- `list::erase(x)` -/
def erase (m : Mem L T) (x : T) : Option (Mem L T) := m.eraseLinks (.links x)

/-- `list::push_front(x)` -/
def push_front (m : Mem L T) (l : L) (x : T) : Option (Mem L T) := m.insert_before (.links x) (m (.head l)).next_

/-- `list::push_back(x)` -/
def push_back (m : Mem L T) (l : L) (x : T) : Option (Mem L T) := m.insert_before (.links x) (some (.head l))

/-- `list::pop_front()` -/
def pop_front (m : Mem L T) (l : L) : Option (Mem L T × Option T) :=
  match m.front l with
  | none => some (m, none)
  | some x => (m.erase x).map fun m => (m, some x)

/-- `list::pop_back()` -/
def pop_back (m : Mem L T) (l : L) : Option (Mem L T × Option T) :=
  match m.back l with
  | none => some (m, none)
  | some x => (m.erase x).map fun m => (m, some x)

/-- `list::insert(position, x)`. The member of a null pointer is at no element. -/
def insert (m : Mem L T) (l : L) (position : Option T) (x : T) : Option (Mem L T) :=
  m.insert_before (.links x) (if position.isSome then some (.head l) else position.map .links)

/-- `list::swap(other)` -/
def swap (m : Mem L T) (l other : L) : Option (Mem L T) :=
  match (m (.head l)).next_, (m (.head l)).prev_ with
  | some p1, some p2 =>
    let m := m.setNext p2 (some (.head other))
    let m := m.setPrev p1 (some (.head other))
    match (m (.head other)).next_, (m (.head other)).prev_ with
    | some p1, some p2 =>
      let m := m.setNext p2 (some (.head l))
      let m := m.setPrev p1 (some (.head l))
      let x := m (.head l)
      some (Function.update (Function.update m (.head l) (m (.head other))) (.head other) x)
    | _, _ => none
  | _, _ => none

end Mem

/-! ## The same operations on sequences -/

/-- The elements of each list, in order. -/
abbrev Contents (L T : Type*) := L → List T

/-- An operation on the lists. -/
inductive Op (L T : Type*)
  | push_front (l : L) (x : T)
  | push_back (l : L) (x : T)
  | pop_front (l : L)
  | pop_back (l : L)
  | erase (l : L) (x : T)
  | insert (l : L) (position : Option T) (x : T)
  | swap (l other : L)

/-- The code of an operation: memory after it, and the element that it returns. -/
def Mem.step (m : Mem L T) : Op L T → Option (Mem L T × Option T)
  | .push_front l x => (m.push_front l x).map fun m => (m, none)
  | .push_back l x => (m.push_back l x).map fun m => (m, none)
  | .pop_front l => m.pop_front l
  | .pop_back l => m.pop_back l
  | .erase _ x => (m.erase x).map fun m => (m, none)
  | .insert l position x => (m.insert l position x).map fun m => (m, none)
  | .swap l other => (m.swap l other).map fun m => (m, none)

/-- `x` immediately before `position`, or at the tail. -/
def insertBefore (position : Option T) (x : T) : List T → List T
  | [] => [x]
  | y :: ys => if position = some y then x :: y :: ys else y :: insertBefore position x ys

/-- What an operation does to the sequences, and the element that it returns. -/
def Contents.step (c : Contents L T) : Op L T → Contents L T × Option T
  | .push_front l x => (Function.update c l (x :: c l), none)
  | .push_back l x => (Function.update c l (c l ++ [x]), none)
  | .pop_front l => (Function.update c l (c l).tail, (c l).head?)
  | .pop_back l => (Function.update c l (c l).dropLast, (c l).getLast?)
  | .erase l x => (Function.update c l ((c l).erase x), none)
  | .insert l position x => (Function.update c l (insertBefore position x (c l)), none)
  | .swap l other => (Function.update (Function.update c l (c other)) other (c l), none)

/-- On no list. -/
def Contents.Unlinked (c : Contents L T) (x : T) : Prop := ∀ l, x ∉ c l

/--
What the caller of an operation sees to: an element to insert is on no list, one to erase is on the list, a
position is on the list or null, and two different lists are swapped.
-/
def Contents.Allows (c : Contents L T) : Op L T → Prop
  | .push_front _ x | .push_back _ x => c.Unlinked x
  | .pop_front _ | .pop_back _ => True
  | .erase l x => x ∈ c l
  | .insert l position x => (∀ y, position = some y → y ∈ c l) ∧ c.Unlinked x
  | .swap l other => l ≠ other

/-- A sequence of operations as its caller may make it. -/
def Contents.AllowsAll (c : Contents L T) : List (Op L T) → Prop
  | [] => True
  | op :: ops => c.Allows op ∧ (c.step op).1.AllowsAll ops

end Chickadee.Lists
