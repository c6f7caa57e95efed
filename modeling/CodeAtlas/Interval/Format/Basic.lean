/-!
# The text of intervals

An interval is written as `[1;5)`: a square bracket where the end point belongs, a round one where it does
not, and a semicolon between.  A side without a limit is written with a sign and a word for infinity, as in
`(-∞;5]`.  The intervals of a set are joined by `U`; the empty set is a pair of braces.

The one thing that can be chosen is the word for infinity: an `IntervalFormat`.
-/

namespace CodeAtlas

/-- How intervals are written: the word for infinity, which is also accepted when reading. -/
structure IntervalFormat where
  infinity : List Char
deriving DecidableEq

namespace IntervalFormat

/-- The format with the infinity sign. -/
def standard : IntervalFormat :=
  ⟨['∞']⟩

/-- The spellings of infinity that every format accepts. -/
def spellings : List String :=
  ["∞", "oo", "infinity", "infty", ""]

/-- What stands between the intervals of a set. -/
def unionSign : String := " U "

/-- The text of the empty set. -/
def emptySet : String := "\x7b\x7d"

end IntervalFormat

end CodeAtlas
