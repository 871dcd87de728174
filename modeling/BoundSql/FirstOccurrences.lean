import Std.Data.HashSet.Basic
/-!
# First occurrences

A list without the repetitions of what came before.

* `firstOccurrences` : each element once, in the order of its first occurrence.
-/

namespace BoundSql

variable {α : Type} [BEq α] [Hashable α]

/-- One step: an element that was seen is passed over. -/
def keepNew (state : Std.HashSet α × List α) (x : α) : Std.HashSet α × List α :=
  if state.1.contains x then state else (state.1.insert x, x :: state.2)

/-- Each element once, in the order of its first occurrence. -/
def firstOccurrences (xs : List α) : List α := (xs.foldl keepNew (∅, [])).2.reverse

end BoundSql
