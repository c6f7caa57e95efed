import CodeAtlas.Interval.Fault
import CodeAtlas.Interval.Format.Basic
import CodeAtlas.Interval.Set
import CodeAtlas.Text.Blank
import CodeAtlas.Text.Fold

/-!
# Reading intervals

Reading is more generous than writing.  Blanks may stand around the whole and around each end point, and
infinity has several spellings, in any case and with any sign or none.  Of several faults the first in this
order is reported: the opening bracket, the closing bracket, the semicolon, the lower and the upper end point.

* `IntervalFormat.read` — an interval;
* `IntervalFormat.readSet` — a set, from intervals joined by `U`.
-/

namespace CodeAtlas

universe u

namespace IntervalFormat

variable {T : Type u}

/-- The text without a leading sign. -/
def dropSign : List Char → List Char
  | '+' :: s => s
  | '-' :: s => s
  | s => s

/-- Whether a text spells infinity, with or without a sign. -/
def isInfinity (f : IntervalFormat) (token : List Char) : Bool :=
  let word := Text.trimStart (dropSign (Text.trim token))
  Text.sameFolded word f.infinity || spellings.any fun s => Text.sameFolded word s.toList

/-- The text before and after the first semicolon. -/
def splitBounds (s : List Char) : Option (List Char × List Char) :=
  match s.dropWhile (· != ';') with
  | [] => none
  | _ :: upper => some (s.takeWhile (· != ';'), upper)

/-- Whether a character opens an interval, and then whether the end point belongs to it. -/
def opening? : Option Char → Option Bool
  | some '[' => some true
  | some '(' => some false
  | _ => none

/-- Whether a character closes an interval, and then whether the end point belongs to it. -/
def closing? : Option Char → Option Bool
  | some ']' => some true
  | some ')' => some false
  | _ => none

/-- Reads an end point of the given kind. -/
def readBound [TextValue T] (f : IntervalFormat) (token : List Char) (belongs : Bool) :
    Except Malformed.Cause (Bound T) :=
  if f.isInfinity token then .ok .unbounded
  else
    match TextValue.read? (Text.trim token) with
    | some x => .ok (if belongs then .inclusive x else .exclusive x)
    | none => .error (.unreadable (Text.trim token))

/-- Reads an interval without blanks around it. -/
def readTrimmed [TextValue T] (f : IntervalFormat) (s : List Char) :
    Except Malformed.Cause (Interval T) := do
  let some lowerBelongs := opening? s.head? | throw .noOpening
  let some upperBelongs := closing? s.getLast? | throw .noClosing
  let some (lower, upper) := splitBounds s.tail.dropLast | throw .noSeparator
  return ⟨← f.readBound lower lowerBelongs, ← f.readBound upper upperBelongs⟩

/-- Reads an interval. -/
def read [TextValue T] (f : IntervalFormat) (text : List Char) : Except Malformed (Interval T) :=
  match f.readTrimmed (Text.trim text) with
  | .ok i => .ok i
  | .error cause => .error ⟨text, cause⟩

/-- Cuts a text at every `U` between a closing and an opening bracket.  `before` is the part so far, its
last character first. -/
def splitUnion (before : List Char) : List Char → List (List Char)
  | [] => [before.reverse]
  | c :: rest =>
    if c = 'U' ∧ (closing? (Text.trimStart before).head?).isSome ∧
        (opening? (Text.trimStart rest).head?).isSome then
      before.reverse :: splitUnion [] rest
    else splitUnion (c :: before) rest

/-- The texts of the intervals of a set. -/
def setParts (text : List Char) : List (List Char) :=
  let s := Text.trim text
  if s.isEmpty || s == emptySet.toList then [] else splitUnion [] s

/-- Reads texts of intervals up to the first that is malformed. -/
def readParts [TextValue T] (f : IntervalFormat) :
    List (List Char) → List (Interval T) × Option Malformed
  | [] => ([], none)
  | part :: rest =>
    match f.read part with
    | .ok i =>
      let (is, m) := readParts f rest
      (i :: is, m)
    | .error m => ([], some m)

/-- Reads a set; its intervals are joined as they come. -/
def readSet [Ord T] [TextValue T] (f : IntervalFormat) (text : List Char) :
    Except Malformed (IntervalSet T) :=
  match f.readParts (setParts text) with
  | (is, none) => .ok (.ofList is)
  | (_, some m) => .error m

/-- What is worth noting about reading a set: the intervals before a malformed one are joined, too. -/
def readSetNotes (T : Type u) [Ord T] [TextValue T] (f : IntervalFormat) (text : List Char) : List Note :=
  let parts : List (Interval T) × Option Malformed := f.readParts (setParts text)
  IntervalSet.empty.notes (parts.1.map .insert)

end IntervalFormat

end CodeAtlas
