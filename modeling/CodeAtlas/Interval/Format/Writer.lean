import CodeAtlas.Interval.Format.Basic
import CodeAtlas.Interval.Map
import CodeAtlas.Text.Value

/-!
# Writing intervals

* `IntervalFormat.write` — an interval;
* `IntervalFormat.writeSet`, `IntervalFormat.writeMap` — the stored intervals in ascending order.
-/

namespace CodeAtlas

universe u v

namespace IntervalFormat

variable {T : Type u} [TextValue T]

/-- Writes a lower bound, with its bracket in front. -/
def writeLower (f : IntervalFormat) : Bound T → List Char
  | .unbounded => '(' :: '-' :: f.infinity
  | .inclusive x => '[' :: TextValue.write x
  | .exclusive x => '(' :: TextValue.write x

/-- Writes an upper bound, with its bracket behind. -/
def writeUpper (f : IntervalFormat) : Bound T → List Char
  | .unbounded => '+' :: f.infinity ++ [')']
  | .inclusive x => TextValue.write x ++ [']']
  | .exclusive x => TextValue.write x ++ [')']

/-- Writes an interval. -/
def write (f : IntervalFormat) (i : Interval T) : List Char :=
  f.writeLower i.lower ++ ';' :: f.writeUpper i.upper

/-- Joins the texts of the parts of a set or map. -/
def join (parts : List (List Char)) : List Char :=
  if parts.isEmpty then emptySet.toList else unionSign.toList.intercalate parts

/-- Writes a set. -/
def writeSet (f : IntervalFormat) (s : IntervalSet T) : List Char :=
  join (s.toList.map f.write)

/-- Writes a map, given how its values are written. -/
def writeMap {V : Type v} (f : IntervalFormat) (writeValue : V → List Char) (m : IntervalMap T V) :
    List Char :=
  join (m.toList.map fun e => f.write e.1 ++ "=>".toList ++ writeValue e.2)

end IntervalFormat

end CodeAtlas
