import CodeAtlas.Interval.Bound

/-!
# Intervals

An interval is a lower and an upper bound.  Bounds that leave nothing between them are allowed: there are
many empty intervals, and they all count as the same one (`==`).

Emptiness is judged by the bounds alone, so an interval such as `(1;2)` of whole numbers, with no value in
it, is not empty.
-/

namespace CodeAtlas

universe u

/-- All that lies between two bounds. -/
structure Interval (T : Type u) where
  lower : Bound T
  upper : Bound T

namespace Interval

variable {T : Type u}

/-- Everything. -/
def full : Interval T :=
  ⟨.unbounded, .unbounded⟩

/-- A single value. -/
def singleton (x : T) : Interval T :=
  ⟨.inclusive x, .inclusive x⟩

/-- From `start` up to, and without, `stop`. -/
def halfOpen (start stop : T) : Interval T :=
  ⟨.inclusive start, .exclusive stop⟩

/-- From `start` up to and with `stop`. -/
def closed (start stop : T) : Interval T :=
  ⟨.inclusive start, .inclusive stop⟩

/-- Whether neither side is limited. -/
def isFull (i : Interval T) : Bool :=
  i.lower.isUnbounded && i.upper.isUnbounded

section Order

variable [Ord T]

/-- Whether the bounds leave nothing between them. -/
def isEmpty (i : Interval T) : Bool :=
  Bound.lowerAfterUpper i.lower i.upper

/-- Bounds that leave nothing between them. -/
structure Inverted (T : Type u) where
  lower : Bound T
  upper : Bound T

/-- The interval between two bounds, which must leave something between them. -/
def between (lower upper : Bound T) : Except (Inverted T) (Interval T) :=
  if Bound.lowerAfterUpper lower upper then .error ⟨lower, upper⟩ else .ok ⟨lower, upper⟩

/-- Whether a value lies above the lower bound. -/
def startsBy (i : Interval T) (x : T) : Bool :=
  match i.lower with
  | .unbounded => true
  | .inclusive a => (compare a x).isLE
  | .exclusive a => (compare a x).isLT

/-- Whether a value lies below the upper bound. -/
def endsFrom (i : Interval T) (x : T) : Bool :=
  match i.upper with
  | .unbounded => true
  | .inclusive a => (compare x a).isLE
  | .exclusive a => (compare x a).isLT

/-- Whether a value lies between the bounds. -/
def contains (i : Interval T) (x : T) : Bool :=
  i.startsBy x && i.endsFrom x

/-- Whether the interval ends before a value. -/
def endsBefore (i : Interval T) (x : T) : Bool :=
  match i.upper with
  | .unbounded => false
  | .inclusive a => (compare a x).isLT
  | .exclusive a => (compare a x).isLE

/-- Whether `j` lies within `i`; an empty interval lies within every other. -/
def covers (i j : Interval T) : Bool :=
  j.isEmpty ||
    (!i.isEmpty && (Bound.compareLower i.lower j.lower).isLE && (Bound.compareUpper i.upper j.upper).isGE)

/-- Whether two intervals have something in common. -/
def overlaps (i j : Interval T) : Bool :=
  !i.isEmpty && !j.isEmpty &&
    !Bound.lowerAfterUpper (Bound.maxLower i.lower j.lower) (Bound.minUpper i.upper j.upper)

/-- Whether two intervals have nothing in common. -/
def isDisjoint (i j : Interval T) : Bool :=
  !i.overlaps j

/-- Whether `i` ends before `j` begins; neither may be empty. -/
def isBefore (i j : Interval T) : Bool :=
  !i.isEmpty && !j.isEmpty && Bound.lowerAfterUpper j.lower i.upper

/-- Whether one of two intervals begins exactly where the other ends; neither may be empty. -/
def isTouching (i j : Interval T) : Bool :=
  !i.isEmpty && !j.isEmpty && (Bound.touching i.upper j.lower || Bound.touching j.upper i.lower)

/-- What two intervals have in common, if anything. -/
def intersection? (i j : Interval T) : Option (Interval T) :=
  if i.overlaps j then some ⟨Bound.maxLower i.lower j.lower, Bound.minUpper i.upper j.upper⟩ else none

/-- The least interval around two intervals. -/
def span (i j : Interval T) : Interval T :=
  if i.isEmpty then j
  else if j.isEmpty then i
  else ⟨Bound.minLower i.lower j.lower, Bound.maxUpper i.upper j.upper⟩

/-- What lies from `lower` up to the beginning of something that starts with `next`, if anything. -/
def until? (lower next : Bound T) : Option (Interval T) :=
  next.complement?.bind fun upper =>
    let i : Interval T := ⟨lower, upper⟩
    if i.isEmpty then none else some i

/-- What lies from the end of something that ends with `previous` up to `upper`, if anything. -/
def after? (previous upper : Bound T) : Option (Interval T) :=
  previous.complement?.bind fun lower =>
    let i : Interval T := ⟨lower, upper⟩
    if i.isEmpty then none else some i

/-- What tells intervals apart: nothing for the empty ones, the bounds for the others. -/
def key (i : Interval T) : Option (Bound T × Bound T) :=
  if i.isEmpty then none else some (i.lower, i.upper)

/-- Two intervals are the same if both are empty, or neither is and their bounds agree. -/
instance [DecidableEq T] : BEq (Interval T) where
  beq i j :=
    match i.isEmpty, j.isEmpty with
    | true, true => true
    | false, false => decide (i.lower = j.lower) && decide (i.upper = j.upper)
    | _, _ => false

instance [Hashable T] : Hashable (Interval T) where
  hash i := hash i.key

end Order

end Interval

end CodeAtlas
