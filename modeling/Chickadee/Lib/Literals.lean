import Mathlib

/-!
# Literals of `Fin n`

A literal of `Fin n` needs that `n` is not zero. A module with runs on a few tasks makes these facts its local
instances, so that a literal is the same term in all of them.
-/

namespace Chickadee.Lib

theorem neZero_one : NeZero 1 := ⟨by decide⟩

theorem neZero_two : NeZero 2 := ⟨by decide⟩

theorem neZero_three : NeZero 3 := ⟨by decide⟩

theorem neZero_four : NeZero 4 := ⟨by decide⟩

theorem neZero_five : NeZero 5 := ⟨by decide⟩

theorem neZero_32 : NeZero 32 := ⟨by decide⟩

end Chickadee.Lib
