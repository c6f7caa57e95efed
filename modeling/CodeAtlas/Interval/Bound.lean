/-!
# Bounds

A bound limits values on one side: not at all, up to a value that still belongs, or up to a value that no
longer does.  The same three kinds serve as lower and as upper bounds, so they are compared in two ways:
as lower bounds a value that belongs comes before the same value that does not, as upper bounds after it.
-/

namespace CodeAtlas

universe u v

/-- A limit of values on one side. -/
inductive Bound (T : Type u) where
  | unbounded
  | inclusive (value : T)
  | exclusive (value : T)
deriving DecidableEq, Hashable

namespace Bound

variable {T : Type u}

/-- The limiting value, if there is one. -/
def value? : Bound T → Option T
  | unbounded => none
  | inclusive x => some x
  | exclusive x => some x

/-- Whether there is no limit. -/
def isUnbounded : Bound T → Bool
  | unbounded => true
  | _ => false

/-- Whether the limiting value belongs. -/
def isInclusive : Bound T → Bool
  | inclusive _ => true
  | _ => false

/-- Whether the limiting value does not belong. -/
def isExclusive : Bound T → Bool
  | exclusive _ => true
  | _ => false

/-- The bound of the same kind at another value. -/
def map {U : Type v} (f : T → U) : Bound T → Bound U
  | unbounded => unbounded
  | inclusive x => inclusive (f x)
  | exclusive x => exclusive (f x)

/-- The bound on the other side of the limit: what follows an upper bound, or comes before a lower one. -/
def complement? : Bound T → Option (Bound T)
  | unbounded => none
  | inclusive x => some (exclusive x)
  | exclusive x => some (inclusive x)

/-- The bound on the other side of the limit; where there is no limit, there is none on the other side. -/
def flip : Bound T → Bound T
  | unbounded => unbounded
  | inclusive x => exclusive x
  | exclusive x => inclusive x

/-- What limits has its flip as its complement. -/
theorem complement?_eq (b : Bound T) : b.complement? = if b.isUnbounded then none else some b.flip := by
  cases b <;> rfl

variable [Ord T]

/-- The order of lower bounds: which of the two lets values in first. -/
def compareLower : Bound T → Bound T → Ordering
  | unbounded, unbounded => .eq
  | unbounded, _ => .lt
  | _, unbounded => .gt
  | inclusive x, inclusive y => compare x y
  | inclusive x, exclusive y => (compare x y).then .lt
  | exclusive x, inclusive y => (compare x y).then .gt
  | exclusive x, exclusive y => compare x y

/-- The order of upper bounds: which of the two shuts values out first. -/
def compareUpper : Bound T → Bound T → Ordering
  | unbounded, unbounded => .eq
  | unbounded, _ => .gt
  | _, unbounded => .lt
  | inclusive x, inclusive y => compare x y
  | inclusive x, exclusive y => (compare x y).then .gt
  | exclusive x, inclusive y => (compare x y).then .lt
  | exclusive x, exclusive y => compare x y

/-- Whether a lower bound leaves nothing below an upper bound. -/
def lowerAfterUpper : (lower upper : Bound T) → Bool
  | inclusive x, inclusive y => (compare x y).isGT
  | inclusive x, exclusive y => (compare x y).isGE
  | exclusive x, inclusive y => (compare x y).isGE
  | exclusive x, exclusive y => (compare x y).isGE
  | _, _ => false

/-- Whether a lower bound begins exactly where an upper bound ends. -/
def touching : (upper lower : Bound T) → Bool
  | inclusive x, exclusive y => (compare x y).isEq
  | exclusive x, inclusive y => (compare x y).isEq
  | _, _ => false

/-- The later of two lower bounds, the left one if they are equal. -/
def maxLower (x y : Bound T) : Bound T :=
  if (compareLower x y).isLT then y else x

/-- The earlier of two lower bounds, the left one if they are equal. -/
def minLower (x y : Bound T) : Bound T :=
  if (compareLower x y).isGT then y else x

/-- The later of two upper bounds, the left one if they are equal. -/
def maxUpper (x y : Bound T) : Bound T :=
  if (compareUpper x y).isLT then y else x

/-- The earlier of two upper bounds, the left one if they are equal. -/
def minUpper (x y : Bound T) : Bound T :=
  if (compareUpper x y).isGT then y else x

end Bound

end CodeAtlas
