import CodeAtlas.Interval.Set

/-!
# Distinct intervals and sets

Intervals count as the same if all that tells them apart agrees, so the empty ones are all one.  A collection
without repetitions takes in an item only if it differs from all items before it; `firstOccurrences` says
which those are, for intervals and for sets of them.
-/

namespace CodeAtlas

universe u

/-- For each item of a list, whether it differs from all items before it. -/
def firstOccurrences {α : Type u} [BEq α] (xs : List α) : List Bool :=
  go [] xs
where
  /-- The same, with the items of `seen` standing before the list. -/
  go (seen : List α) : List α → List Bool
    | [] => []
    | x :: rest => (!seen.contains x) :: go (x :: seen) rest

end CodeAtlas
