import CodeAtlas.Interval.Basic
import CodeAtlas.Interval.Row
import CodeAtlas.Note

/-!
# Interval sets

A set of values as a union of intervals.  The stored intervals are in ascending order, none is empty, and
no two overlap or touch: an interval that is inserted is joined with all stored ones that it meets.  Each
set of this kind has one representation.

* `insert`, `erase` — one interval more, one less;
* `compl`, `union`, `diff`, `inter` — operations on whole sets;
* `contains`, `covers` — whether a value, or all of an interval, belongs to the set.

Each change has its notes: what was worth noting about it.
-/

namespace CodeAtlas

universe u

/-- A union of intervals, stored in ascending order. -/
structure IntervalSet (T : Type u) where
  intervals : Array (Interval T)

namespace IntervalSet

variable {T : Type u}

/-- The set without values. -/
def empty : IntervalSet T :=
  ⟨#[]⟩

/-- The set of all values. -/
def full : IntervalSet T :=
  ⟨#[.full]⟩

/-- The stored intervals in ascending order. -/
def toList (s : IntervalSet T) : List (Interval T) :=
  s.intervals.toList

/-- Number of stored intervals. -/
def size (s : IntervalSet T) : Nat :=
  s.intervals.size

/-- Whether nothing is stored. -/
def isEmpty (s : IntervalSet T) : Bool :=
  s.intervals.isEmpty

theorem isEmpty_iff_toList_eq_nil {s : IntervalSet T} : s.isEmpty = true ↔ s.toList = [] := by
  rw [isEmpty, Array.isEmpty_iff, toList, Array.toList_eq_nil_iff]

/-- Whether the one stored interval is everything. -/
def isFull (s : IntervalSet T) : Bool :=
  match s.toList with
  | [i] => i.isFull
  | _ => false

variable [Ord T]

instance [DecidableEq T] : BEq (IntervalSet T) where
  beq s t := s.toList == t.toList

/-! ## Membership -/

/-- Whether a value belongs to the set. -/
def contains (s : IntervalSet T) (x : T) : Bool :=
  s.intervals[Row.partitionPoint s.intervals fun i => i.endsBefore x]?.any fun i => i.contains x

/-- Whether all of an interval belongs to the set. -/
def covers (s : IntervalSet T) (j : Interval T) : Bool :=
  j.isEmpty ||
    s.intervals[Row.partitionPoint s.intervals fun i => i.isBefore j]?.any fun i => i.covers j

/-! ## One interval more or less -/

/-- The places of the stored intervals that overlap or touch an interval that is not empty; where there are
none, the place where it belongs. -/
def touchingRange (s : IntervalSet T) (j : Interval T) : Nat × Nat :=
  let start := Row.partitionPoint s.intervals fun i => i.isBefore j && !i.isTouching j
  let stop := Row.partitionPoint s.intervals fun i => !(j.isBefore i && !j.isTouching i)
  (start, max stop start)

/-- The places of the stored intervals that overlap an interval. -/
def overlappingRange (s : IntervalSet T) (j : Interval T) : Nat × Nat :=
  if j.isEmpty then (0, 0)
  else
    let start := Row.partitionPoint s.intervals fun i => i.isBefore j
    let stop := Row.partitionPoint s.intervals fun i => !j.isBefore i
    (start, max stop start)

/-- What inserting an interval changes: it is put where it belongs, or joined with all stored intervals that
it overlaps or touches.  Nothing changes if it is empty or lies within a stored one. -/
def insertion? (s : IntervalSet T) (j : Interval T) : Option (Row.Edit (Interval T)) :=
  if j.isEmpty then none
  else
    let (start, stop) := s.touchingRange j
    if start < stop then
      match s.intervals[start]?, s.intervals[stop - 1]? with
      | some first, some last =>
        if stop - start = 1 ∧ first.covers j then none
        else some ⟨start, stop, [⟨Bound.minLower first.lower j.lower, Bound.maxUpper last.upper j.upper⟩]⟩
      | _, _ => none
    else some ⟨start, start, [j]⟩

/-- What erasing an interval changes: the stored intervals that it overlaps give way to what is left of
the first and the last of them. -/
def erasure? (s : IntervalSet T) (j : Interval T) : Option (Row.Edit (Interval T)) :=
  let (start, stop) := s.overlappingRange j
  if start < stop then
    match s.intervals[start]?, s.intervals[stop - 1]? with
    | some first, some last =>
      some ⟨start, stop,
        (Interval.until? first.lower j.lower).toList ++ (Interval.after? j.upper last.upper).toList⟩
    | _, _ => none
  else none

/-- A change by one interval. -/
inductive Change (T : Type u) where
  | insert (i : Interval T)
  | erase (i : Interval T)

/-- What a change does to the stored intervals, if anything. -/
def edit? (s : IntervalSet T) : Change T → Option (Row.Edit (Interval T))
  | .insert i => s.insertion? i
  | .erase i => s.erasure? i

/-- Makes a change. -/
def apply (s : IntervalSet T) (c : Change T) : IntervalSet T :=
  match s.edit? c with
  | some e => ⟨e.apply s.intervals⟩
  | none => s

/-- What is worth noting about a change: that it meets more than one stored interval. -/
def changeNotes (s : IntervalSet T) (c : Change T) : List Note :=
  match s.edit? c, c with
  | some e, .insert _ => if 1 < e.width then [.merges e.width] else []
  | some e, .erase _ => if 1 < e.width then [.removes e.width] else []
  | none, _ => []

/-- Inserts an interval. -/
def insert (s : IntervalSet T) (i : Interval T) : IntervalSet T :=
  s.apply (.insert i)

/-- Erases an interval. -/
def erase (s : IntervalSet T) (i : Interval T) : IntervalSet T :=
  s.apply (.erase i)

/-- Whether a change does anything. -/
def isChanged (s : IntervalSet T) (c : Change T) : Bool :=
  (s.edit? c).isSome

/-! ## Several changes -/

/-- Makes changes one after the other. -/
def applyAll (s : IntervalSet T) (cs : List (Change T)) : IntervalSet T :=
  cs.foldl apply s

/-- What is worth noting about changes made one after the other. -/
def notes (s : IntervalSet T) : List (Change T) → List Note
  | [] => []
  | c :: cs => s.changeNotes c ++ (s.apply c).notes cs

/-- Inserts several intervals. -/
def insertAll (s : IntervalSet T) (is : List (Interval T)) : IntervalSet T :=
  s.applyAll (is.map .insert)

/-- The union of intervals. -/
def ofList (is : List (Interval T)) : IntervalSet T :=
  empty.insertAll is

/-! ## Operations on whole sets -/

/-- One step along a row: the place of an interval is taken by the gap before it, and the next gap begins where the
interval ends. -/
def gapStep (walked : Array (Interval T) × Bound T) (i : Interval T) : Array (Interval T) × Bound T :=
  (walked.1.push ⟨walked.2, i.lower.flip⟩, i.upper.flip)

/-- The values that do not belong to the set.  One interval more is stored if there is room after the last one, and
the first is taken away if there is no room before it. -/
def compl (s : IntervalSet T) : IntervalSet T :=
  match s.intervals[0]?, s.intervals.back? with
  | some first, some last =>
    let (slots, lower) := s.intervals.foldl gapStep (#[], .unbounded)
    let row := if last.upper.isUnbounded then slots else slots.push ⟨lower, .unbounded⟩
    ⟨if first.lower.isUnbounded then row.eraseIdxIfInBounds 0 else row⟩
  | _, _ => full

/-- The changes that bring in the values of another set. -/
def unionChanges (t : IntervalSet T) : List (Change T) :=
  t.toList.map .insert

/-- The values of either set. -/
def union (s t : IntervalSet T) : IntervalSet T :=
  s.applyAll t.unionChanges

/-- The changes that take out the values of another set. -/
def diffChanges (t : IntervalSet T) : List (Change T) :=
  t.toList.map .erase

/-- The values of the first set that are not in the second. -/
def diff (s t : IntervalSet T) : IntervalSet T :=
  s.applyAll t.diffChanges

/-- What two ascending lists of intervals have in common, piece by piece: the two first intervals are
compared, and the one that ends first is done with. -/
def shared : List (Interval T) → List (Interval T) → List (Interval T)
  | [], _ => []
  | _ :: _, [] => []
  | i :: is, j :: js =>
    (i.intersection? j).toList ++
      if (Bound.compareUpper i.upper j.upper).isLE then shared is (j :: js) else shared (i :: is) js
termination_by is js => is.length + js.length

/-- The changes that build the common part of two sets from nothing. -/
def interChanges (s t : IntervalSet T) : List (Change T) :=
  (shared s.toList t.toList).map .insert

/-- The values of both sets. -/
def inter (s t : IntervalSet T) : IntervalSet T :=
  empty.applyAll (s.interChanges t)

end IntervalSet

end CodeAtlas
